-- SUMMARY: The member functions of TcpConnection, as functions from a state to a state and the requests made to loop, kernel and server.
import QGServer.Util.RWTool
import QGServer.Core.EventHandler

/-!
# TcpConnection

The member functions of `src/core/tcp_connection.cpp`. Each one is a function of
the connection's members; what it asks of the rest of the program (functors for
its loop, bytes for the kernel, the close notice to the server) is listed in
`Result.effects`, in the order of the calls.

User callbacks run between two parts of a function or after it, so the function
stops where it calls one. The callbacks are taken to be set, as they are by
`Server::handleNewCon` for a user that sets all four.
-/

namespace QGServer

/-! ## State and requests -/

/-- The members of `TcpConnection` that its functions read and write. -/
structure TcpConnection where
  eventHandler : EventHandler
  disconnected : Bool
  sendfileFd : Int
  readBuf : Bytes
  writeBuf : Bytes
  deriving DecidableEq, Repr

/-- What a member function asks of its surroundings. -/
inductive Effect where
  /-- `qg::write` was called with the bytes `p`, of which the kernel took `handed`. -/
  | write (p handed : Bytes)
  /-- `event_loop_->addFunctor` with the write-complete callback bound to `buf`. -/
  | addWriteComplete (buf : Bytes)
  /-- `event_loop_->addFunctor` with `writeInLoop` bound to the raw `this`. -/
  | addWriteInLoop (data : Bytes)
  /-- `connection_close_call_back_`, called with a guard `shared_ptr`. -/
  | closeCallBack
  /-- `event_loop_->registerHandler`. -/
  | registerHandler
  /-- `event_loop_->updateHandler`, after every change of the interest mask. -/
  | updateHandler
  /-- `event_loop_->removeHandler`. -/
  | removeHandler
  /-- `accpeter_->decConnection`. -/
  | decConnection
  /-- `::shutdown(fd, SHUT_WR)`. -/
  | shutdown
  deriving DecidableEq, Repr

/-- The state a member function leaves and the requests it made. -/
structure Result where
  conn : TcpConnection
  effects : List Effect
  deriving DecidableEq, Repr

/-- A member function that threw: the requests it had made, and why it threw. -/
structure Thrown where
  effects : List Effect
  fault : Fault
  deriving DecidableEq, Repr

/-- The outcome of one call of `qg::write`: the value it returns and the bytes
    the kernel took while it ran. -/
structure WriteOutcome where
  ret : Int
  handed : Bytes
  deriving DecidableEq, Repr

/-- The outcome in which the kernel takes the first `r` bytes of `p`. -/
def WriteOutcome.taken (p : Bytes) (r : Nat) : WriteOutcome := ⟨r, p.take r⟩

namespace TcpConnection

/-- The constructor. -/
def new : TcpConnection :=
  { eventHandler := .new, disconnected := false, sendfileFd := -1, readBuf := [], writeBuf := [] }

def defaultReadBuffSize : Nat := 1024

/-- A byte fits the buffer. -/
theorem one_le_defaultReadBuffSize : 1 ≤ defaultReadBuffSize := by decide

/-- `!write_buf_.empty() || sendfile_fd_ >= 0`. -/
def hasContentToSend (c : TcpConnection) : Bool := !c.writeBuf.isEmpty || 0 ≤ c.sendfileFd

/-! ## Opening and closing -/

/-- `handleConnection`, up to the call of `connection_come_call_back_`. -/
def handleConnection (c : TcpConnection) : Result :=
  { conn := { c with eventHandler := c.eventHandler.enableRead }
    effects := [.registerHandler, .updateHandler] }

def handleClose (c : TcpConnection) : Result :=
  { conn := { c with eventHandler := c.eventHandler.disableAll }
    effects := [.updateHandler, .closeCallBack] }

def closeConnection (c : TcpConnection) : Result :=
  { conn := { c with disconnected := true }
    effects := [.decConnection, .removeHandler] }

def close (c : TcpConnection) : Result :=
  let c := { c with disconnected := true }
  if c.hasContentToSend then { conn := c, effects := [] } else c.handleClose

def shutdown (c : TcpConnection) : Result := { conn := c, effects := [.shutdown] }

/-! ## Reading -/

/-- The loop of `handleRead`: `buf` and the running count are its local
    variables. It gives the count, `read_buf_` and the results not used. -/
def readLoop (rs : List (KernelRead defaultReadBuffSize)) (buf readBuf : Bytes) (cnt : Int) :
    Option (Int × Bytes × List (KernelRead defaultReadBuffSize)) :=
  match _h : qgRead rs 0 buf with
  | none => none
  | some (n, buf', rest) =>
    if 0 < toInt n then readLoop rest buf' (readBuf ++ buf') (toInt (cnt + toInt n))
    else some (cnt, readBuf, rest)
termination_by rs.length
decreasing_by exact qgRead_rest _h

/-- How `handleRead` goes on after its loop: it calls `message_call_back_` on
    `read_buf_`, or `close()`, or it ends the connection at once. -/
inductive ReadOutcome where
  | message (buf : Bytes)
  | close
  | error
  deriving DecidableEq, Repr

/-- `handleRead` up to its calls, with the results it left unused. -/
def handleRead (rs : List (KernelRead defaultReadBuffSize)) (c : TcpConnection) :
    Option (ReadOutcome × TcpConnection × List (KernelRead defaultReadBuffSize)) :=
  (readLoop rs [] c.readBuf 0).map fun (cnt, readBuf, rest) =>
    let c := { c with readBuf := readBuf }
    if 0 < cnt then (.message readBuf, c, rest)
    else if cnt = 0 then (.close, c, rest)
    else (.error, { c with disconnected := true }, rest)

/-- `read_buf_.clear()`, after `message_call_back_` has returned. -/
def handleReadEnd (c : TcpConnection) : TcpConnection := { c with readBuf := [] }

/-! ## Writing -/

/-- `!event_handler_->isWriting() && write_buf_.empty()`. -/
def canWriteDirect (c : TcpConnection) : Bool :=
  !c.eventHandler.isWriting && c.writeBuf.isEmpty

/-- The end of `writeInLoop`: keep what was not sent and ask for write events. -/
def bufferRest (data : Bytes) (nwrite : Int) (effects : List Effect) (c : TcpConnection) :
    Except Thrown Result :=
  match substr data nwrite with
  | .error f => .error { effects := effects, fault := f }
  | .ok rest =>
    let c := { c with writeBuf := c.writeBuf ++ rest }
    if c.hasContentToSend && !c.eventHandler.isWriting then
      .ok { conn := { c with eventHandler := c.eventHandler.enableWrite }
            effects := effects ++ [.updateHandler] }
    else .ok { conn := c, effects := effects }

/-- `writeInLoop(data)`, where `w` is the outcome of `qg::write` on the direct
    path. Without `__linux__` the branch on `sendfile_fd_` is empty. -/
def writeInLoop (data : Bytes) (w : WriteOutcome) (c : TcpConnection) : Except Thrown Result :=
  if c.disconnected then .ok { conn := c, effects := [] }
  else if c.canWriteDirect then
    let len := toInt data.length
    let nwrite := toInt w.ret
    let complete := if 0 < nwrite ∧ nwrite = len ∧ c.sendfileFd < 0
      then [.addWriteComplete c.writeBuf] else []
    let effects := .write data w.handed :: complete
    -- the source tests `disconnected_` a second time, though nothing has changed it
    if 0 < nwrite ∧ c.disconnected then
      let r := c.handleClose
      .ok { r with effects := effects ++ r.effects }
    else c.bufferRest data nwrite effects
  else c.bufferRest data 0 []

/-- `write(data)`: the work is left to the loop. -/
def write (data : Bytes) (c : TcpConnection) : Result :=
  { conn := c, effects := [.addWriteInLoop data] }

def handleWrite (w : WriteOutcome) (c : TcpConnection) : Except Thrown Result :=
  if c.writeBuf.isEmpty then .ok { conn := c, effects := [] }
  else
    let nwrite := toInt w.ret
    let sent := Effect.write c.writeBuf w.handed
    if 0 ≤ nwrite then
      match substr c.writeBuf nwrite with
      | .error f => .error { effects := [sent], fault := f }
      | .ok rest =>
        let c := { c with writeBuf := rest }
        if rest.isEmpty then
          .ok { conn := { c with eventHandler := c.eventHandler.disableWrite }
                effects := [sent, .updateHandler, .addWriteComplete rest] }
        else .ok { conn := c, effects := [sent] }
    else
      let r := handleClose { c with disconnected := true }
      .ok { r with effects := sent :: r.effects }

end TcpConnection

end QGServer
