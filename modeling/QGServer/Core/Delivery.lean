-- SUMMARY: When handleRead delivers the bytes that arrive exactly, and when it takes the peer for gone.
import QGServer.Core.Inbound

/-!
# What the read path delivers

`qg::read` appends to a buffer that `handleRead` never clears, so what
`handleRead` delivers depends on where the short chunks are: a chunk shorter
than the buffer ends a call of `qg::read`, and every call after the first
delivers the bytes of the calls before it again. The count it decides by leaves
out the chunks that fill the buffer.
-/

namespace QGServer

open TcpConnection

/-! ## Exact delivery -/

/-- The results of `::read` while the chunks arrive: the chunks in order, then
    what ends them, which the kernel repeats when it is asked again. -/
def arrival (chunks : List (Chunk defaultReadBuffSize)) (e : Ending) :
    List (KernelRead defaultReadBuffSize) :=
  chunks.map .data ++ [e.result, e.result]

/-- `handleRead` calls `message_call_back_` once, on exactly the bytes of the
    chunks. Between its calls `read_buf_` is empty. -/
def DeliveredExactly (chunks : List (Chunk defaultReadBuffSize)) (e : Ending) : Prop :=
  ∀ c : TcpConnection, c.readBuf = [] →
    ∃ c' rest, handleRead (arrival chunks e) c = some (.message (joined chunks), c', rest)

/-- All chunks but the last fill the buffer. If the last one fills it too, the
    data ends with end of file, and the number of bytes is positive as an `int`. -/
def EndsInOneRead (chunks : List (Chunk defaultReadBuffSize)) (e : Ending) : Prop :=
  ∃ fulls last, chunks = fulls ++ [last] ∧ (∀ c ∈ fulls, c.Full) ∧
    (last.Full → e = .eof ∧ 0 < toInt (defaultReadBuffSize * chunks.length : Nat))

/-- Two sequences of chunks have the same lengths, chunk by chunk. -/
def SameLengths (cs ds : List (Chunk defaultReadBuffSize)) : Prop :=
  cs.map (·.bytes.length) = ds.map (·.bytes.length)

theorem EndsInOneRead.of_sameLengths {cs ds : List (Chunk defaultReadBuffSize)} {e : Ending}
    (hlen : SameLengths cs ds) (h : EndsInOneRead cs e) : EndsInOneRead ds e := by
  obtain ⟨fulls, last, rfl, hfull, hlast⟩ := h
  have hcount : ds.length = (fulls ++ [last]).length := by
    simpa using (congrArg List.length hlen).symm
  unfold SameLengths at hlen
  rw [List.map_append, List.map_singleton, eq_comm] at hlen
  obtain ⟨fulls', lasts, rfl, hfulls, hlasts⟩ := List.map_eq_append_iff.mp hlen
  obtain ⟨last', rfl, hlen'⟩ := List.map_eq_singleton_iff.mp hlasts
  refine ⟨fulls', last', rfl, ?_, ?_⟩
  · intro c hc
    have hmem : c.bytes.length ∈ fulls.map (·.bytes.length) := by
      rw [← hfulls]
      exact List.mem_map_of_mem hc
    obtain ⟨d, hd, heq⟩ := List.mem_map.mp hmem
    unfold Chunk.Full
    rw [← heq]
    exact hfull d hd
  · intro hfull'
    rw [hcount]
    refine hlast ?_
    unfold Chunk.Full at hfull' ⊢
    rw [← hlen']
    exact hfull'

/-- Chunks that all fill the buffer are delivered only by end of file, and only
    if their number of bytes is positive as an `int`. -/
theorem delivered_all_full {chunks : List (Chunk defaultReadBuffSize)} {e : Ending}
    (hfull : ∀ c ∈ chunks, c.Full) (h : DeliveredExactly chunks e) :
    e = .eof ∧ 0 < toInt (defaultReadBuffSize * chunks.length : Nat) := by
  obtain ⟨c', rest, hread⟩ := h .new rfl
  obtain ⟨cnt, hpos, hloop⟩ := handleRead_message hread
  unfold arrival at hloop
  cases e with
  | eagain =>
      rw [Ending.result, readLoop_error hfull] at hloop
      obtain ⟨rfl, -⟩ := Prod.mk.inj (Option.some.inj hloop)
      simp at hpos
  | eof =>
      rw [Ending.result, readLoop_eof hfull] at hloop
      by_cases hint : 0 < toInt (defaultReadBuffSize * chunks.length : Nat)
      · exact ⟨rfl, hint⟩
      · rw [if_neg hint] at hloop
        obtain ⟨rfl, -⟩ := Prod.mk.inj (Option.some.inj hloop)
        simp at hpos

theorem deliveredExactly_of_endsInOneRead {chunks : List (Chunk defaultReadBuffSize)}
    {e : Ending} (h : EndsInOneRead chunks e) : DeliveredExactly chunks e := by
  intro c hc
  obtain ⟨fulls, last, rfl, hfull, hlast⟩ := h
  by_cases hl : last.Full
  · obtain ⟨rfl, hpos⟩ := hlast hl
    have hall : ∀ d ∈ fulls ++ [last], d.Full := by
      simpa [or_imp, forall_and] using ⟨hfull, hl⟩
    have hloop : readLoop (arrival (fulls ++ [last]) .eof) [] c.readBuf 0
        = some (toInt (defaultReadBuffSize * (fulls ++ [last]).length : Nat),
            joined (fulls ++ [last]), []) := by
      unfold arrival
      rw [hc, Ending.result, readLoop_eof hall, if_pos hpos]
      exact (readLoop_end .eof).trans (by simp)
    exact ⟨_, _, handleRead_of_pos hloop hpos⟩
  · have hloop : readLoop (arrival (fulls ++ [last]) e) [] c.readBuf 0
        = some ((last.bytes.length : Int), joined (fulls ++ [last]), [e.result]) := by
      unfold arrival
      rw [hc, List.map_append, List.append_assoc]
      refine (readLoop_short hfull hl).trans ((readLoop_end e).trans ?_)
      simp [toInt_chunk]
    exact ⟨_, _, handleRead_of_pos hloop (by exact_mod_cast last.pos)⟩

/-! ## What the marked bytes show -/

/-- The chunk of zeroes of the same length. -/
def Chunk.zeroed (c : Chunk defaultReadBuffSize) : Chunk defaultReadBuffSize where
  bytes := List.replicate c.bytes.length 0
  pos := by simpa using c.pos
  le := by simpa using c.le

/-- The chunk of the same length that starts with a one and goes on with zeroes. -/
def Chunk.marked (c : Chunk defaultReadBuffSize) : Chunk defaultReadBuffSize where
  bytes := 1 :: List.replicate (c.bytes.length - 1) 0
  pos := by simp
  le := by
    have hpos := c.pos
    have hle := c.le
    simp only [List.length_cons, List.length_replicate]
    omega

/-- Chunks of the same lengths in which only the first byte of all is a one. -/
def markFirst : List (Chunk defaultReadBuffSize) → List (Chunk defaultReadBuffSize)
  | [] => []
  | c :: chunks => c.marked :: chunks.map Chunk.zeroed

theorem sameLengths_markFirst (chunks : List (Chunk defaultReadBuffSize)) :
    SameLengths (markFirst chunks) chunks := by
  cases chunks with
  | nil => rfl
  | cons c chunks =>
      have hpos := c.pos
      simp only [SameLengths, markFirst, Chunk.marked, List.map_cons, List.map_map,
        List.length_cons, List.length_replicate, List.cons.injEq]
      refine ⟨by omega, List.map_congr_left fun d _ => ?_⟩
      simp [Chunk.zeroed]

theorem count_joined_zeroed (chunks : List (Chunk defaultReadBuffSize)) :
    (joined (chunks.map Chunk.zeroed)).count 1 = 0 := by
  induction chunks with
  | nil => rfl
  | cons c chunks ih =>
      rw [List.map_cons, joined_cons, List.count_append, ih]
      simp [Chunk.zeroed, List.count_replicate]

theorem count_joined_markFirst (chunks : List (Chunk defaultReadBuffSize)) :
    (joined (markFirst chunks)).count 1 ≤ 1 := by
  cases chunks with
  | nil => simp [markFirst]
  | cons c chunks =>
      rw [markFirst, joined_cons, List.count_append, count_joined_zeroed]
      simp [Chunk.marked, List.count_replicate]

/-- The mark is among the bytes before the first short chunk. -/
theorem mem_of_markFirst {chunks fulls rest : List (Chunk defaultReadBuffSize)}
    {c : Chunk defaultReadBuffSize} (h : markFirst chunks = fulls ++ c :: rest) :
    1 ∈ joined fulls ++ c.bytes := by
  cases chunks with
  | nil => simp [markFirst] at h
  | cons d chunks =>
      cases fulls with
      | nil =>
          rw [markFirst, List.nil_append, List.cons.injEq] at h
          simp [← h.1, Chunk.marked]
      | cons f fulls =>
          rw [markFirst, List.cons_append, List.cons.injEq] at h
          simp [← h.1, Chunk.marked]

/-- If the marked chunks are delivered exactly, nothing follows the first short
    chunk: what followed it would bring the mark a second time. -/
theorem endsInOneRead_markFirst {chunks : List (Chunk defaultReadBuffSize)} {e : Ending}
    (h : DeliveredExactly (markFirst chunks) e) : EndsInOneRead (markFirst chunks) e := by
  rcases all_full_or_first_short (markFirst chunks) with hall | ⟨fulls, c, rest, heq, hfull, hc⟩
  · obtain ⟨rfl, hpos⟩ := delivered_all_full hall h
    rcases List.eq_nil_or_concat (markFirst chunks) with hnil | ⟨fulls, last, heq⟩
    · rw [hnil] at hpos
      simp [toInt] at hpos
    · rw [List.concat_eq_append] at heq
      refine ⟨fulls, last, heq, fun d hd => hall d (by simp [heq, hd]), fun _ => ⟨rfl, hpos⟩⟩
  · obtain ⟨c', unused, hread⟩ := h .new rfl
    obtain ⟨cnt, hpos, hloop⟩ := handleRead_message hread
    have hmark : 1 ∈ joined fulls ++ c.bytes := mem_of_markFirst heq
    have hone := count_joined_markFirst chunks
    rw [heq] at hloop hone
    unfold arrival at hloop
    rw [List.map_append, List.append_assoc, List.map_cons, List.cons_append,
      readLoop_short hfull hc] at hloop
    rcases readLoop_count 1 hloop (by simpa using hmark) with hsame | hmore
    · have hrest : joined rest = [] := by
        simpa [TcpConnection.new] using hsame
      have hnil : rest = [] := by
        by_contra hne
        exact joined_ne_nil hne hrest
      subst hnil
      exact ⟨fulls, c, heq, hfull, fun hcontra => absurd hcontra hc⟩
    · have hcount : 0 < (joined fulls ++ c.bytes).count 1 := List.count_pos_iff.mpr hmark
      simp only [TcpConnection.new, List.nil_append] at hmore
      omega

/-- The chunks of given lengths are delivered exactly, whatever bytes they hold,
    if and only if one call of `qg::read` takes them all and returns a positive
    count. -/
theorem handleRead_deliveredExactly_iff (shape : List (Chunk defaultReadBuffSize)) (e : Ending) :
    (∀ chunks, SameLengths chunks shape → DeliveredExactly chunks e) ↔ EndsInOneRead shape e := by
  constructor
  · intro h
    have hmark := sameLengths_markFirst shape
    exact (endsInOneRead_markFirst (h _ hmark)).of_sameLengths hmark
  · intro h chunks hlen
    exact deliveredExactly_of_endsInOneRead (h.of_sameLengths hlen.symm)

/-- A chunk of one byte. -/
def Chunk.byte (b : UInt8) : Chunk defaultReadBuffSize where
  bytes := [b]
  pos := by simp
  le := by simp [defaultReadBuffSize]

theorem Chunk.not_full_byte (b : UInt8) : ¬ (Chunk.byte b).Full := by
  simp [Chunk.Full, Chunk.byte, defaultReadBuffSize]

/-- Two chunks of one byte each, `a` and `b`, arrive as `aab`. -/
theorem handleRead_repeats :
    ¬ ∀ (chunks : List (Chunk defaultReadBuffSize)) (e : Ending), joined chunks ≠ [] →
        DeliveredExactly chunks e := by
  intro h
  have hnone : ∀ d ∈ ([] : List (Chunk defaultReadBuffSize)), d.Full := by simp
  obtain ⟨c', rest, hread⟩ := h [.byte 97, .byte 98] .eagain (by simp [Chunk.byte]) .new rfl
  obtain ⟨cnt, -, hloop⟩ := handleRead_message hread
  have hfirst := hloop.symm.trans (readLoop_short hnone (Chunk.not_full_byte 97))
  have hsecond := hfirst.trans (readLoop_short hnone (Chunk.not_full_byte 98))
  have hend := hsecond.trans (readLoop_end .eagain)
  simp [Chunk.byte, TcpConnection.new] at hend

/-! ## Closing from the read path -/

/-- The number of bytes of the chunks that are shorter than the buffer. -/
def shortTotal : List (KernelRead defaultReadBuffSize) → Nat
  | [] => 0
  | .data c :: rs =>
    if c.bytes.length = defaultReadBuffSize then shortTotal rs else c.bytes.length + shortTotal rs
  | _ :: rs => shortTotal rs

theorem shortTotal_append (rs rs' : List (KernelRead defaultReadBuffSize)) :
    shortTotal (rs ++ rs') = shortTotal rs + shortTotal rs' := by
  induction rs with
  | nil => simp [shortTotal]
  | cons r rs ih =>
      cases r with
      | data c =>
          simp only [List.cons_append, shortTotal, ih]
          split <;> omega
      | eof => simpa [shortTotal] using ih
      | error e => simpa [shortTotal] using ih

theorem shortTotal_fulls {fulls : List (Chunk defaultReadBuffSize)}
    (h : ∀ c ∈ fulls, c.Full) : shortTotal (fulls.map .data) = 0 := by
  induction fulls with
  | nil => rfl
  | cons c fulls ih =>
      have hc : c.bytes.length = defaultReadBuffSize := h c (by simp)
      simp [shortTotal, hc, ih fun d hd => h d (by simp [hd])]

theorem qgRead_gone {rs rest : List (KernelRead defaultReadBuffSize)} {buf buf' : Bytes} {n : Int}
    (h : qgRead rs 0 buf = some (n, buf', rest)) (hgone : ∀ r ∈ rs, ¬ r.PeerGone) :
    ∃ used, rs = used ++ rest ∧
      (0 < toInt n ∧ toInt n = shortTotal used ∨ ¬ 0 < toInt n ∧ shortTotal used = 0) := by
  obtain ⟨fulls, hfull, ⟨c, hc, rfl, rfl, -⟩ | ⟨rfl, -⟩ | ⟨e, rfl, rfl, -⟩⟩ := qgRead_cases h
  · have hlen : c.bytes.length ≠ defaultReadBuffSize := hc
    have hpos := c.pos
    refine ⟨fulls.map .data ++ [.data c], by simp, .inl ⟨?_, ?_⟩⟩
    · rw [toInt_chunk]
      omega
    · rw [toInt_chunk, shortTotal_append, shortTotal_fulls hfull]
      simp [shortTotal, hlen]
  · exact absurd trivial (hgone .eof (by simp))
  · refine ⟨fulls.map .data ++ [.error e], by simp, .inr ⟨?_, ?_⟩⟩
    · rw [toInt_neg_one]
      decide
    · rw [shortTotal_append, shortTotal_fulls hfull]
      rfl

/-- While the peer is there, `cnt` counts the bytes of the short chunks only. -/
theorem readLoop_cnt {rs rest : List (KernelRead defaultReadBuffSize)} {buf readBuf readBuf' : Bytes}
    {cnt cnt' : Int} (h : readLoop rs buf readBuf cnt = some (cnt', readBuf', rest))
    (hcnt : toInt cnt = cnt) (hgone : ∀ r ∈ rs, ¬ r.PeerGone) :
    ∃ used, rs = used ++ rest ∧ cnt' = toInt (cnt + shortTotal used) := by
  fun_induction readLoop rs buf readBuf cnt with
  | case1 => cases h
  | case2 rs buf readBuf cnt n buf' rest' hread hpos ih =>
      obtain ⟨used, rfl, ⟨-, hn⟩ | ⟨hneg, -⟩⟩ := qgRead_gone hread hgone
      · have hcnt' : toInt (toInt (cnt + toInt n)) = toInt (cnt + toInt n) := by
          simpa using toInt_add_toInt (cnt + toInt n) 0
        obtain ⟨used', rfl, rfl⟩ := ih h hcnt' fun r hr => hgone r (by simp [hr])
        refine ⟨used ++ used', by simp, ?_⟩
        rw [toInt_add_toInt, shortTotal_append, hn]
        congr 1
        omega
      · exact absurd hpos hneg
  | case3 rs buf readBuf cnt n buf' rest' hread hpos =>
      obtain ⟨rfl, -, rfl⟩ : cnt = cnt' ∧ readBuf = readBuf' ∧ rest' = rest := by
        simpa using h
      obtain ⟨used, rfl, ⟨hpos', -⟩ | ⟨-, hzero⟩⟩ := qgRead_gone hread hgone
      · exact absurd hpos' hpos
      · exact ⟨used, rfl, by simp [hzero, hcnt]⟩

/-- `handleRead` closes only for a reason: if it goes on with `close()` or
    `handleClose()`, then one of the results it saw was end of file or an error
    other than `EAGAIN`. -/
def ClosesOnlyIfPeerGone (rs : List (KernelRead defaultReadBuffSize)) (o : ReadOutcome) : Prop :=
  o = .close ∨ o = .error → ∃ r ∈ rs, r.PeerGone

/-- For the results `rs` that a call of `handleRead` saw: it closes only for a
    reason if and only if there was one, or the chunks shorter than the buffer
    have a total length that is positive as an `int`. -/
theorem handleRead_closes_iff {rs : List (KernelRead defaultReadBuffSize)} {c c' : TcpConnection}
    {o : ReadOutcome} (h : handleRead rs c = some (o, c', [])) :
    ClosesOnlyIfPeerGone rs o ↔ (∃ r ∈ rs, r.PeerGone) ∨ 0 < toInt (shortTotal rs) := by
  by_cases hgone : ∃ r ∈ rs, r.PeerGone
  · exact iff_of_true (fun _ => hgone) (.inl hgone)
  · have hnone : ∀ r ∈ rs, ¬ r.PeerGone := fun r hr hr' => hgone ⟨r, hr, hr'⟩
    cases hloop : readLoop rs [] c.readBuf 0 with
    | none => simp [handleRead, hloop] at h
    | some res =>
        obtain ⟨cnt, readBuf, rest⟩ := res
        rw [handleRead_of_loop hloop] at h
        obtain ⟨used, hused, hcnt⟩ := readLoop_cnt hloop rfl hnone
        have hrest : rest = [] := by
          split at h
          · simp_all
          · split at h <;> simp_all
        rw [hrest, List.append_nil] at hused
        subst hused
        rw [Int.zero_add] at hcnt
        by_cases hpos : 0 < toInt (shortTotal rs)
        · rw [hcnt, if_pos hpos] at h
          obtain ⟨rfl, -⟩ := Prod.mk.inj (Option.some.inj h)
          exact iff_of_true (fun ho => by simp at ho) (.inr hpos)
        · rw [hcnt, if_neg hpos] at h
          have ho : o = .close ∨ o = .error := by
            split at h <;> simp_all
          exact iff_of_false (fun hclaim => hgone (hclaim ho)) (by simp [hgone, hpos])

/-- A wake-up without data closes the connection. -/
theorem handleRead_closes_iff_spurious :
    handleRead [.error .eagain] .new = some (.close, .new, []) ∧
      (ClosesOnlyIfPeerGone [.error .eagain] .close ↔
        (∃ r ∈ [(.error .eagain : KernelRead defaultReadBuffSize)], r.PeerGone) ∨
          0 < toInt (shortTotal [.error .eagain])) := by
  have h : handleRead [.error .eagain] .new = some (.close, .new, []) :=
    handleRead_of_loop (readLoop_end .eagain)
  exact ⟨h, handleRead_closes_iff h⟩

/-- A chunk that fills the buffer. -/
def Chunk.whole : Chunk defaultReadBuffSize where
  bytes := List.replicate defaultReadBuffSize 97
  pos := by
    rw [List.length_replicate]
    decide
  le := List.length_replicate.le

/-- A request of exactly 1024 bytes, then `EAGAIN`: the connection is closed,
    though the peer waits for the answer. -/
theorem handleRead_closes_on_data :
    ¬ ∀ (rs : List (KernelRead defaultReadBuffSize)) (c c' : TcpConnection) (o : ReadOutcome),
        handleRead rs c = some (o, c', []) → ClosesOnlyIfPeerGone rs o := by
  intro h
  have hfull : ∀ d ∈ [Chunk.whole], d.Full := by
    intro d hd
    rw [List.mem_singleton.mp hd]
    exact List.length_replicate
  have hread : handleRead [.data .whole, .error .eagain] .new = some (.close, .new, []) :=
    handleRead_of_loop (readLoop_error hfull .eagain)
  obtain ⟨r, hr, hgone⟩ := h _ _ _ _ hread (.inl rfl)
  simp only [List.mem_cons, List.not_mem_nil, or_false] at hr
  rcases hr with rfl | rfl
  · exact hgone
  · exact hgone rfl

end QGServer
