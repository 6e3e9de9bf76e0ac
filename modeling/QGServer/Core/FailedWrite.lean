-- SUMMARY: A write that fails at once: handleWrite closes the connection, writeInLoop throws.
import QGServer.Core.TcpConnection

/-!
# Failed writes

`handleWrite` and the direct path of `writeInLoop` call `qg::write` and get -1
when the first `::write` fails with anything but `EAGAIN`. `handleWrite` marks
the connection as disconnected and calls `handleClose`. `writeInLoop` has no
branch for it, and passes the -1 on to `substr`.
-/

namespace QGServer

/-- The outcome of `qg::write(sfd, data, data.size())`. -/
def qgWriteOutcome (data : Bytes) (rs : List (KernelWrite data.length)) : Option WriteOutcome :=
  (qgWrite rs 0 []).map fun (v, sent, _) => ⟨v, bytesAt data sent⟩

/-- A first `::write` that fails for good accepts nothing. -/
theorem qgWriteOutcome_error (data : Bytes) {e : Errno} (he : e ≠ .eagain)
    (rs : List (KernelWrite data.length)) : qgWriteOutcome data (.error e :: rs) = some ⟨-1, []⟩ := by
  unfold qgWriteOutcome
  rw [qgWrite_error he]
  rfl

namespace TcpConnection

variable {c : TcpConnection} {data : Bytes} {w : WriteOutcome} {e : Errno}

/-- The function returns, the connection is disconnected, and `handleClose` was
    called once: it alone calls the close callback. -/
def HandlesError (r : Except Thrown Result) : Prop :=
  ∃ result, r = .ok result ∧ result.conn.disconnected = true ∧
    result.effects.count .closeCallBack = 1

/-- What `handleWrite` does on a fatal error. -/
theorem handleWrite_handlesError (hbuf : c.writeBuf ≠ [])
    {rs : List (KernelWrite c.writeBuf.length)} (he : e ≠ .eagain)
    (hw : qgWriteOutcome c.writeBuf (.error e :: rs) = some w) :
    HandlesError (c.handleWrite w) := by
  rw [qgWriteOutcome_error _ he] at hw
  cases hw
  have hnonempty : c.writeBuf.isEmpty = false := List.isEmpty_eq_false_iff.mpr hbuf
  unfold handleWrite
  rw [hnonempty]
  exact ⟨_, rfl, rfl, rfl⟩

theorem substr_neg (s : Bytes) : substr s (-1) = .error .outOfRange := rfl

/-- What the direct path of `writeInLoop` does on a fatal error. -/
theorem writeInLoop_error (hconn : c.disconnected = false) (hdirect : c.canWriteDirect = true)
    {rs : List (KernelWrite data.length)} (he : e ≠ .eagain)
    (hw : qgWriteOutcome data (.error e :: rs) = some w) :
    c.writeInLoop data w = .error ⟨[.write data []], .outOfRange⟩ := by
  rw [qgWriteOutcome_error _ he] at hw
  cases hw
  have hret : toInt (-1) = -1 := rfl
  unfold writeInLoop
  rw [hconn, hdirect]
  simp only [Bool.false_eq_true, if_false, if_true, hret, and_false]
  unfold bufferRest
  rw [substr_neg]
  rfl

/-- It never handles the error. -/
theorem writeInLoop_not_handlesError {c : TcpConnection} {data : Bytes} {w : WriteOutcome}
    {e : Errno} {rs : List (KernelWrite data.length)} (hconn : c.disconnected = false)
    (hdirect : c.canWriteDirect = true) (he : e ≠ .eagain)
    (hw : qgWriteOutcome data (.error e :: rs) = some w) :
    ¬ HandlesError (c.writeInLoop data w) := by
  rintro ⟨result, hresult, -⟩
  rw [writeInLoop_error hconn hdirect he hw] at hresult
  cases hresult

/-- A reset connection, on a fresh `TcpConnection`. -/
theorem writeInLoop_not_handlesError_reset :
    ¬ HandlesError (new.writeInLoop (bytes "a") ⟨-1, []⟩) :=
  @writeInLoop_not_handlesError new (bytes "a") ⟨-1, []⟩ .econnreset [] rfl (by decide) (by decide) rfl

/-- Not every failed write is handled. -/
theorem not_writeInLoop_handlesError :
    ¬ ∀ (c : TcpConnection) (data : Bytes) (e : Errno) (rs : List (KernelWrite data.length))
        (w : WriteOutcome), c.disconnected = false → c.canWriteDirect = true → e ≠ .eagain →
      qgWriteOutcome data (.error e :: rs) = some w → HandlesError (c.writeInLoop data w) := by
  intro h
  obtain ⟨result, hresult, -⟩ := h new (bytes "a") .econnreset [] ⟨-1, []⟩ rfl (by decide) (by decide) rfl
  cases hresult

end TcpConnection

end QGServer
