-- SUMMARY: The non-blocking read and write helpers over the results of `::read` and `::write`.
import QGServer.Util.Types

/-!
# Reading from a socket and writing to it

`qg::read(qg_fd_t, qg_string&, qg_size_t)` and `qg::write` of
`src/util/rwtool.h`. The kernel is the list of the results that the following
`::read` or `::write` calls give; a call that needs more results than the list
holds has no value.
-/

namespace QGServer

/-- The values of `errno` that the sources tell apart. -/
inductive Errno where
  | eagain
  | eintr
  | econnreset
  | other
  deriving DecidableEq, Repr

/-- The bytes one `::read` delivers into a buffer of `size` bytes: at least one
    and at most `size`. -/
structure Chunk (size : Nat) where
  bytes : Bytes
  pos : 0 < bytes.length
  le : bytes.length ≤ size

/-- One result of `::read`. -/
inductive KernelRead (size : Nat) where
  | data (c : Chunk size)
  | eof
  | error (e : Errno)

variable {size : Nat}

/-! ## Reading -/

/-- The results after which the peer cannot send any more: end of file and every
    error but `EAGAIN`. -/
def KernelRead.PeerGone : KernelRead size → Prop
  | .data _ => False
  | .eof => True
  | .error e => e ≠ .eagain

/-- `qg::read(sfd, buffer, size)` with `cnt` bytes read so far: the value it
    returns, the buffer it leaves and the results not yet used. `buffer` is
    appended to and never cleared. -/
def qgRead : List (KernelRead size) → Nat → Bytes → Option (Int × Bytes × List (KernelRead size))
  | [], _, _ => none
  | .data c :: rs, cnt, buffer =>
    -- a full buffer may mean more data, a shorter chunk ends the loop
    if c.bytes.length ≠ size then some (c.bytes.length, buffer ++ c.bytes, rs)
    else qgRead rs (cnt + c.bytes.length) (buffer ++ c.bytes)
  | .eof :: rs, cnt, buffer => some (cnt, buffer, rs)
  -- `EAGAIN` goes to `normal_end`, which returns `nread`, and that is -1 here
  | .error .eagain :: rs, _, buffer => some (-1, buffer, rs)
  | .error _ :: rs, _, buffer => some (-1, buffer, rs)

@[simp] theorem qgRead_eof {rs : List (KernelRead size)} {cnt : Nat} {buffer : Bytes} :
    qgRead (.eof :: rs) cnt buffer = some ((cnt : Int), buffer, rs) := rfl

@[simp] theorem qgRead_error {rs : List (KernelRead size)} {cnt : Nat} {buffer : Bytes}
    (e : Errno) : qgRead (.error e :: rs) cnt buffer = some (-1, buffer, rs) := by
  cases e <;> rfl

/-- Every call uses at least one result. -/
theorem qgRead_rest {rs rest : List (KernelRead size)} {cnt : Nat} {buffer buffer' : Bytes}
    {n : Int} (h : qgRead rs cnt buffer = some (n, buffer', rest)) : rest.length < rs.length := by
  induction rs generalizing cnt buffer with
  | nil => simp [qgRead] at h
  | cons r rs ih =>
      cases r with
      | data c =>
          simp only [qgRead] at h
          split at h
          · cases h
            simp
          · exact Nat.lt_succ_of_lt (ih h)
      | eof => cases h; simp
      | error e =>
          rw [qgRead_error] at h
          cases h
          simp

/-! ## Writing -/

/-- One result of a `::write` of `size` bytes: it accepts the first `r` of them,
    or it fails. -/
inductive KernelWrite (size : Nat) where
  | accepted (r : Nat) (le : r ≤ size)
  | error (e : Errno)
  deriving Repr

/-- `qg::write(sfd, buffer, size)` with `cnt` bytes written so far: the value it
    returns, the positions in the buffer whose bytes the kernel accepted, in
    order, and the results not yet used. -/
def qgWrite : List (KernelWrite size) → Nat → List Nat →
    Option (Int × List Nat × List (KernelWrite size))
  | [], _, _ => none
  | .accepted r _ :: rs, cnt, sent =>
    -- `p` and `total` are the same in every call
    if cnt + r = size then some (size, sent ++ List.range r, rs)
    else qgWrite rs (cnt + r) (sent ++ List.range r)
  | .error .eintr :: rs, _, sent => some (-1, sent, rs)
  | .error .eagain :: rs, cnt, sent => some (cnt, sent, rs)
  | .error _ :: rs, _, sent => some (-1, sent, rs)

/-- The bytes at the positions. -/
def bytesAt (buffer : Bytes) (sent : List Nat) : Bytes := sent.filterMap (buffer[·]?)

@[simp] theorem qgWrite_eagain {rs : List (KernelWrite size)} {cnt : Nat} {sent : List Nat} :
    qgWrite (.error .eagain :: rs) cnt sent = some ((cnt : Int), sent, rs) := rfl

/-- Every other error is fatal. -/
theorem qgWrite_error {rs : List (KernelWrite size)} {cnt : Nat} {sent : List Nat} {e : Errno}
    (he : e ≠ .eagain) : qgWrite (.error e :: rs) cnt sent = some (-1, sent, rs) := by
  cases e with
  | eagain => exact absurd rfl he
  | _ => rfl

theorem qgWrite_accepted {rs : List (KernelWrite size)} {cnt r : Nat} {sent : List Nat}
    {le : r ≤ size} :
    qgWrite (.accepted r le :: rs) cnt sent =
      if cnt + r = size then some ((size : Int), sent ++ List.range r, rs)
      else qgWrite rs (cnt + r) (sent ++ List.range r) := rfl

theorem bytesAt_range (buffer : Bytes) (n : Nat) :
    bytesAt buffer (List.range n) = buffer.take n := by
  unfold bytesAt
  induction n with
  | zero => rfl
  | succ n ih =>
      rw [List.range_succ, List.filterMap_append, ih, List.take_add_one]
      cases h : buffer[n]? <;> simp [h]

end QGServer
