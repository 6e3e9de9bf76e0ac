-- SUMMARY: What qg::read and the loop of handleRead make of the results of ::read.
import QGServer.Core.TcpConnection

/-!
# The inbound stream

`qg::read` returns the length of the *last* chunk, the total at end of file and
-1 on `EAGAIN`. One lemma says everything one call can do; the lemmas on the
loop of `handleRead` say how it goes on after each kind of call.
-/

namespace QGServer

open TcpConnection

variable {size : Nat}

/-! ## What one call of `qg::read` uses -/

/-- The chunk fills the buffer. -/
def Chunk.Full (c : Chunk size) : Prop := c.bytes.length = size

/-- The bytes of a sequence of chunks, in order. -/
def joined (chunks : List (Chunk size)) : Bytes := chunks.flatMap Chunk.bytes

@[simp] theorem joined_nil : joined ([] : List (Chunk size)) = [] := rfl

@[simp] theorem joined_cons {c : Chunk size} {chunks : List (Chunk size)} :
    joined (c :: chunks) = c.bytes ++ joined chunks := rfl

@[simp] theorem joined_append {cs ds : List (Chunk size)} :
    joined (cs ++ ds) = joined cs ++ joined ds := by
  simp [joined]

theorem joined_ne_nil {chunks : List (Chunk size)} (h : chunks ≠ []) : joined chunks ≠ [] := by
  cases chunks with
  | nil => exact absurd rfl h
  | cons c chunks =>
      intro heq
      have hpos := c.pos
      simp only [joined_cons, List.append_eq_nil_iff] at heq
      simp [heq.1] at hpos

theorem qgRead_fulls {fulls : List (Chunk size)} (h : ∀ c ∈ fulls, c.Full)
    (rs : List (KernelRead size)) (cnt : Nat) (buffer : Bytes) :
    qgRead (fulls.map .data ++ rs) cnt buffer
      = qgRead rs (cnt + size * fulls.length) (buffer ++ joined fulls) := by
  induction fulls generalizing cnt buffer with
  | nil => simp
  | cons c fulls ih =>
      have hc : c.bytes.length = size := h c (by simp)
      have harith : cnt + size + size * fulls.length = cnt + size * (fulls.length + 1) := by
        rw [Nat.mul_succ]
        omega
      simp only [List.map_cons, List.cons_append, qgRead, hc, ne_eq, not_true_eq_false, if_false]
      rw [ih fun d hd => h d (by simp [hd])]
      simp [harith]

@[simp] theorem qgRead_short {c : Chunk size} (h : ¬ c.Full) {rs : List (KernelRead size)}
    {cnt : Nat} {buffer : Bytes} :
    qgRead (.data c :: rs) cnt buffer
      = some ((c.bytes.length : Int), buffer ++ c.bytes, rs) := by
  have hne : c.bytes.length ≠ size := h
  simp [qgRead, hne]

/-- A sequence of chunks is all full, or it has a first short chunk. -/
theorem all_full_or_first_short (chunks : List (Chunk size)) :
    (∀ c ∈ chunks, c.Full) ∨
      ∃ fulls c rest, chunks = fulls ++ c :: rest ∧ (∀ d ∈ fulls, d.Full) ∧ ¬ c.Full := by
  induction chunks with
  | nil => simp
  | cons c chunks ih =>
      by_cases hc : c.Full
      · rcases ih with hall | ⟨fulls, d, rest, rfl, hfull, hshort⟩
        · left
          simpa [hc] using hall
        · right
          refine ⟨c :: fulls, d, rest, rfl, ?_, hshort⟩
          simpa [hc] using hfull
      · exact .inr ⟨[], c, chunks, rfl, by simp, hc⟩

/-- Everything one call of `qg::read` can do: it passes over full chunks and
    stops at a short chunk, at end of file or at an error. -/
theorem qgRead_cases {rs rest : List (KernelRead size)} {cnt : Nat} {buffer buffer' : Bytes}
    {n : Int} (h : qgRead rs cnt buffer = some (n, buffer', rest)) :
    ∃ fulls : List (Chunk size), (∀ c ∈ fulls, c.Full) ∧
      ((∃ c : Chunk size, ¬ c.Full ∧ rs = fulls.map .data ++ .data c :: rest ∧
          n = c.bytes.length ∧ buffer' = buffer ++ joined fulls ++ c.bytes) ∨
        (rs = fulls.map .data ++ .eof :: rest ∧ n = (cnt + size * fulls.length : Nat) ∧
          buffer' = buffer ++ joined fulls) ∨
        (∃ e, rs = fulls.map .data ++ .error e :: rest ∧ n = -1 ∧
          buffer' = buffer ++ joined fulls)) := by
  induction rs generalizing cnt buffer with
  | nil => simp [qgRead] at h
  | cons r rs ih =>
      cases r with
      | data c =>
          by_cases hc : c.Full
          · have hlen : c.bytes.length = size := hc
            simp only [qgRead, hlen, ne_eq, not_true_eq_false, if_false] at h
            obtain ⟨fulls, hfull, hcases⟩ := ih h
            have harith : cnt + size + size * fulls.length = cnt + size * (fulls.length + 1) := by
              rw [Nat.mul_succ]
              omega
            refine ⟨c :: fulls, by simpa [hc] using hfull, ?_⟩
            rcases hcases with ⟨d, hd, rfl, hn, hb⟩ | ⟨rfl, hn, hb⟩ | ⟨e, rfl, hn, hb⟩
            · exact .inl ⟨d, hd, rfl, hn, by simpa using hb⟩
            · exact .inr (.inl ⟨rfl, by rw [hn, harith, List.length_cons], by simpa using hb⟩)
            · exact .inr (.inr ⟨e, rfl, hn, by simpa using hb⟩)
          · rw [qgRead_short hc] at h
            cases h
            exact ⟨[], by simp, .inl ⟨c, hc, rfl, rfl, by simp⟩⟩
      | eof =>
          rw [qgRead_eof] at h
          cases h
          exact ⟨[], by simp, .inr (.inl ⟨rfl, by simp, by simp⟩)⟩
      | error e =>
          rw [qgRead_error] at h
          cases h
          exact ⟨[], by simp, .inr (.inr ⟨e, rfl, rfl, by simp⟩)⟩

/-! ## The loop of `handleRead` -/

/-- How a sequence of chunks ends. -/
inductive Ending where
  | eagain
  | eof
  deriving DecidableEq

/-- The result of `::read` at the end of the data. -/
def Ending.result : Ending → KernelRead defaultReadBuffSize
  | .eagain => .error .eagain
  | .eof => .eof

section ReadLoop

variable {rs rest : List (KernelRead defaultReadBuffSize)} {buf buf' readBuf : Bytes} {n cnt : Int}

theorem readLoop_next (h : qgRead rs 0 buf = some (n, buf', rest)) (hn : 0 < toInt n) :
    readLoop rs buf readBuf cnt
      = readLoop rest buf' (readBuf ++ buf') (toInt (cnt + toInt n)) := by
  rw [readLoop]
  split
  · simp_all
  · rename_i heq
    rw [h] at heq
    cases heq
    rw [if_pos hn]

theorem readLoop_stop (h : qgRead rs 0 buf = some (n, buf', rest)) (hn : ¬ 0 < toInt n) :
    readLoop rs buf readBuf cnt = some (cnt, readBuf, rest) := by
  rw [readLoop]
  split
  · simp_all
  · rename_i heq
    rw [h] at heq
    cases heq
    rw [if_neg hn]

theorem toInt_neg_one : toInt (-1) = -1 := by decide

/-- The length of a short chunk survives the narrowing to `int`. -/
theorem toInt_chunk (c : Chunk defaultReadBuffSize) :
    toInt (c.bytes.length : Int) = c.bytes.length := by
  have hle := c.le
  apply toInt_of_lt
  unfold intLimit
  unfold defaultReadBuffSize at hle
  omega

theorem readLoop_short {fulls : List (Chunk defaultReadBuffSize)}
    {c : Chunk defaultReadBuffSize} (hfull : ∀ d ∈ fulls, d.Full) (hshort : ¬ c.Full) :
    readLoop (fulls.map .data ++ .data c :: rest) buf readBuf cnt
      = readLoop rest (buf ++ joined fulls ++ c.bytes)
          (readBuf ++ (buf ++ joined fulls ++ c.bytes)) (toInt (cnt + c.bytes.length)) := by
  have hread : qgRead (fulls.map .data ++ .data c :: rest) 0 buf
      = some ((c.bytes.length : Int), buf ++ joined fulls ++ c.bytes, rest) := by
    rw [qgRead_fulls hfull, qgRead_short hshort]
  have hpos : 0 < toInt (c.bytes.length : Int) := by
    rw [toInt_chunk]
    exact_mod_cast c.pos
  rw [readLoop_next hread hpos, toInt_chunk]

theorem readLoop_error {fulls : List (Chunk defaultReadBuffSize)} (hfull : ∀ d ∈ fulls, d.Full)
    (e : Errno) :
    readLoop (fulls.map .data ++ .error e :: rest) buf readBuf cnt
      = some (cnt, readBuf, rest) := by
  have hread : qgRead (fulls.map .data ++ .error e :: rest) 0 buf
      = some (-1, buf ++ joined fulls, rest) := by
    rw [qgRead_fulls hfull, qgRead_error]
  exact readLoop_stop hread (by rw [toInt_neg_one]; decide)

/-- The chunks that fill the buffer and are followed by end of file are
    delivered when their number of bytes, as an `int`, is positive. -/
theorem readLoop_eof {fulls : List (Chunk defaultReadBuffSize)} (hfull : ∀ d ∈ fulls, d.Full) :
    readLoop (fulls.map .data ++ .eof :: rest) buf readBuf cnt
      = if 0 < toInt (defaultReadBuffSize * fulls.length : Nat) then
          readLoop rest (buf ++ joined fulls) (readBuf ++ (buf ++ joined fulls))
            (toInt (cnt + (defaultReadBuffSize * fulls.length : Nat)))
        else some (cnt, readBuf, rest) := by
  have hread : qgRead (fulls.map .data ++ .eof :: rest) 0 buf
      = some (((defaultReadBuffSize * fulls.length : Nat) : Int), buf ++ joined fulls, rest) := by
    rw [qgRead_fulls hfull, qgRead_eof, Nat.zero_add]
  split
  · rename_i hpos
    rw [readLoop_next hread hpos, Int.add_comm cnt, toInt_add_toInt, Int.add_comm]
  · rename_i hneg
    exact readLoop_stop hread hneg

theorem readLoop_end (e : Ending) :
    readLoop (e.result :: rest) buf readBuf cnt = some (cnt, readBuf, rest) := by
  have hnone : ∀ c ∈ ([] : List (Chunk defaultReadBuffSize)), c.Full := by simp
  cases e with
  | eagain => exact readLoop_error hnone .eagain
  | eof =>
      have h := @readLoop_eof rest buf readBuf cnt [] hnone
      simpa [toInt, Ending.result] using h

theorem qgRead_buffer {cnt : Nat} {buffer buffer' : Bytes}
    (h : qgRead rs cnt buffer = some (n, buffer', rest)) :
    buffer <+: buffer' := by
  obtain ⟨fulls, -, ⟨c, -, -, -, rfl⟩ | ⟨-, -, rfl⟩ | ⟨e, -, -, rfl⟩⟩ := qgRead_cases h
  · exact ⟨joined fulls ++ c.bytes, by simp⟩
  · exact ⟨joined fulls, rfl⟩
  · exact ⟨joined fulls, rfl⟩

theorem readLoop_count {readBuf' : Bytes} {cnt' : Int} (b : UInt8)
    (h : readLoop rs buf readBuf cnt = some (cnt', readBuf', rest)) (hb : b ∈ buf) :
    readBuf' = readBuf ∨ readBuf.count b < readBuf'.count b := by
  fun_induction readLoop rs buf readBuf cnt with
  | case1 => cases h
  | case2 rs buf readBuf cnt n buf' rest hread hpos ih =>
      have hmem : b ∈ buf' := (qgRead_buffer hread).subset hb
      have hcount : 0 < buf'.count b := List.count_pos_iff.mpr hmem
      right
      rcases ih h hmem with heq | hlt
      · rw [heq, List.count_append]
        omega
      · rw [List.count_append] at hlt
        omega
  | case3 rs buf readBuf cnt n buf' rest hread hpos =>
      cases h
      exact .inl rfl

end ReadLoop

/-! ## `handleRead` after its loop -/

theorem handleRead_of_loop {rs rest : List (KernelRead defaultReadBuffSize)} {c : TcpConnection}
    {cnt : Int} {readBuf : Bytes} (h : readLoop rs [] c.readBuf 0 = some (cnt, readBuf, rest)) :
    handleRead rs c = some
      (if 0 < cnt then (.message readBuf, { c with readBuf := readBuf }, rest)
       else if cnt = 0 then (.close, { c with readBuf := readBuf }, rest)
       else (.error, { c with readBuf := readBuf, disconnected := true }, rest)) := by
  simp [handleRead, h]

/-- A message is what the loop left in `read_buf_`. -/
theorem handleRead_message {rs rest : List (KernelRead defaultReadBuffSize)}
    {c c' : TcpConnection} {buf : Bytes} (h : handleRead rs c = some (.message buf, c', rest)) :
    ∃ cnt, 0 < cnt ∧ readLoop rs [] c.readBuf 0 = some (cnt, buf, rest) := by
  cases hloop : readLoop rs [] c.readBuf 0 with
  | none => simp [handleRead, hloop] at h
  | some r =>
      obtain ⟨cnt, readBuf, rest'⟩ := r
      rw [handleRead_of_loop hloop] at h
      by_cases hpos : 0 < cnt
      · rw [if_pos hpos] at h
        cases h
        exact ⟨cnt, hpos, rfl⟩
      · rw [if_neg hpos] at h
        split at h <;> simp at h

theorem handleRead_of_pos {rs rest : List (KernelRead defaultReadBuffSize)} {c : TcpConnection}
    {cnt : Int} {readBuf : Bytes} (h : readLoop rs [] c.readBuf 0 = some (cnt, readBuf, rest))
    (hpos : 0 < cnt) :
    handleRead rs c = some (.message readBuf, { c with readBuf := readBuf }, rest) := by
  rw [handleRead_of_loop h, if_pos hpos]

end QGServer
