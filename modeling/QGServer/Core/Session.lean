-- SUMMARY: One connection between its io loop, the base loop, the kernel and the user's callbacks, as a step function.
import QGServer.Library.BatchQueue
import QGServer.Library.Runs
import QGServer.Core.TcpConnection

/-!
# Sessions

A session is one connection with everything that acts on it: the functors
queued for it in its io loop and in the base loop (`EventLoop::addFunctor`,
`handlePendingFunctors`), the entry of `connections_`, the handler map of the io
loop, and the user callback that is running, if one is.

The label of a step says who moves and what the kernel answers. A functor stays
at the front of its batch while it runs, and with it its `shared_ptr` to the
connection; a user callback makes its calls one at a time, so the base loop can
move between them. Events are handled between two batches only.
-/

namespace QGServer

/-! ## User code -/

/-- What a user callback can ask of the connection. -/
inductive Call where
  | write (data : Bytes)
  | shutdown
  | close
  deriving DecidableEq, Repr

/-- The member function behind a call. -/
def Call.run : Call → TcpConnection → Result
  | .write data, c => c.write data
  | .shutdown, c => c.shutdown
  | .close, c => c.close

def Call.isWrite : Call → Bool
  | .write _ => true
  | _ => false

/-- The callbacks of a user of the server. `κ` is what the user keeps in the
    `context_` of the connection, `ε` is what a callback takes from outside.
    A callback gives the calls it makes, or it does not return. -/
structure UserCode (κ ε : Type*) where
  connectionCome : ε → κ → Except Fault (κ × List Call)
  message : ε → Bytes → κ → Except Fault (κ × List Call)
  writeComplete : ε → Bytes → κ → Except Fault (κ × List Call)

/-- A user callback that is running: the calls it has left, and whether
    `handleRead` goes on when it returns. -/
structure Frame where
  calls : List Call
  fromRead : Bool
  deriving DecidableEq, Repr

/-! ## State -/

/-- The functors that the io loop runs for a connection. -/
inductive IoFunctor where
  | handleConnection
  | writeInLoop (data : Bytes)
  | writeComplete (buf : Bytes)
  | closeConnection
  deriving DecidableEq, Repr

/-- All but `writeInLoop` are bound to a `shared_ptr`. -/
def IoFunctor.holds : IoFunctor → Bool
  | .writeInLoop _ => false
  | _ => true

/-- The functor that the base loop runs for a connection, bound to a `shared_ptr`. -/
inductive BaseFunctor where
  | handleConnectionClose
  deriving DecidableEq, Repr

/-- What happened at the socket. -/
inductive SocketEvent where
  /-- `::write` was given the bytes `p`. -/
  | write (p : Bytes)
  | shutdown
  deriving DecidableEq, Repr

structure Session (κ : Type*) where
  conn : TcpConnection
  context : κ
  io : BatchQueue IoFunctor
  base : BatchQueue BaseFunctor
  frame : Option Frame
  /-- `connections_` has an entry for the connection. -/
  entry : Bool
  /-- The handler map of the io loop has the handler of the connection. -/
  registered : Bool
  /-- How often `closeConnection` has run. -/
  closed : Nat
  socket : List SocketEvent
  fault : Option Fault
  deriving Repr

namespace Session

variable {κ ε : Type*}

/-- `handleNewCon` has constructed the connection and queued `handleConnection`. -/
def start (context : κ) : Session κ :=
  { conn := .new, context := context, io := BatchQueue.empty.push .handleConnection
    base := .empty, frame := none, entry := true, registered := false, closed := 0, socket := []
    fault := none }

/-- Some `shared_ptr` to the connection is left. The frame stands for the guard
    that a callback is called with. -/
def alive (s : Session κ) : Bool :=
  s.entry || s.io.all.any IoFunctor.holds || !s.base.all.isEmpty || s.frame.isSome

/-- The io loop waits for events. -/
def polling (s : Session κ) : Bool := s.io.idle && s.frame.isNone

/-! ## Requests -/

def fail (f : Fault) (s : Session κ) : Session κ := { s with fault := some f }

/-- Carry out one request of a member function. -/
def carryOut (s : Session κ) : Effect → Session κ
  | .write p _ => { s with socket := s.socket ++ [.write p] }
  | .addWriteComplete buf => { s with io := s.io.push (.writeComplete buf) }
  | .addWriteInLoop data => { s with io := s.io.push (.writeInLoop data) }
  -- `closeAtBaseLoop`
  | .closeCallBack => { s with base := s.base.push .handleConnectionClose }
  | .registerHandler => { s with registered := true }
  | .updateHandler => if s.registered then s else s.fail .assertFailed
  | .removeHandler =>
    if s.registered then { s with registered := false } else s.fail .assertFailed
  -- counted with the run of `closeConnection`
  | .decConnection => { s with closed := s.closed + 1 }
  | .shutdown => { s with socket := s.socket ++ [.shutdown] }

/-- A request is carried out only while the process lives. -/
def request (s : Session κ) (e : Effect) : Session κ := if s.fault.isSome then s else s.carryOut e

/-- Take over the state a member function left and carry out its requests. -/
def perform (r : Result) (s : Session κ) : Session κ :=
  r.effects.foldl request { s with conn := r.conn }

/-- A member function that may throw. -/
def attempt (r : Except Thrown Result) (s : Session κ) : Session κ :=
  match r with
  | .ok r => s.perform r
  | .error e => (e.effects.foldl request s).fail e.fault

/-- Call a user callback. -/
def enter (r : Except Fault (κ × List Call)) (fromRead : Bool) (s : Session κ) : Session κ :=
  match r with
  | .ok (context, calls) => { s with context := context, frame := some ⟨calls, fromRead⟩ }
  | .error f => s.fail f

/-! ## Steps -/

/-- Who moves. -/
inductive Label (ε : Type*) where
  /-- `HandleEvent` calls `handleRead`, which sees the results `rs`. -/
  | readable (rs : List (KernelRead TcpConnection.defaultReadBuffSize)) (env : ε)
  /-- `HandleEvent` calls `handleWrite`. -/
  | writable (w : WriteOutcome)
  /-- The running callback makes its next call. -/
  | call
  /-- The running callback returns. -/
  | leave
  /-- The io loop takes the pending functors. -/
  | popIo
  /-- The io loop runs the front of its batch. -/
  | runIo (w : WriteOutcome) (env : ε)
  /-- The io loop drops the functor that ran. -/
  | doneIo
  | popBase
  | runBase
  | doneBase

/-- Run a member function bound to the raw `this`. -/
def throughThis (s : Session κ) (f : Session κ → Session κ) : Session κ :=
  if s.alive then f s else s.fail .useAfterFree

variable (user : UserCode κ ε)

/-- `handleRead`, up to the return of the callback. -/
def handleRead (rs : List (KernelRead TcpConnection.defaultReadBuffSize)) (env : ε)
    (s : Session κ) : Option (Session κ) :=
  match s.conn.handleRead rs with
  | some (.message buf, c, []) =>
    some (s.throughThis fun s => enter (user.message env buf s.context) true { s with conn := c })
  | some (.close, c, []) => some (s.throughThis (perform c.close))
  | some (.error, c, []) => some (s.throughThis (perform c.handleClose))
  | _ => none

/-- Run a functor of the io loop. -/
def runIo (f : IoFunctor) (w : WriteOutcome) (env : ε) (s : Session κ) : Session κ :=
  match f with
  | .handleConnection =>
    enter (user.connectionCome env s.context) false (perform s.conn.handleConnection s)
  | .writeInLoop data => s.throughThis (attempt (s.conn.writeInLoop data w))
  | .writeComplete buf => enter (user.writeComplete env buf s.context) false s
  | .closeConnection => perform s.conn.closeConnection s

/-- `Server::handleConnectionClose`, on the base loop. -/
def handleConnectionClose (s : Session κ) : Session κ :=
  { s with entry := false, io := s.io.push .closeConnection }

def step (s : Session κ) (l : Label ε) : Option (Session κ) :=
  if s.fault.isSome then none
  else match l with
  | .readable rs env =>
    if s.polling && s.conn.eventHandler.isReading then s.handleRead user rs env else none
  | .writable w =>
    if s.polling && s.conn.eventHandler.isWriting then
      some (s.throughThis (attempt (s.conn.handleWrite w)))
    else none
  | .call =>
    match s.frame with
    | some ⟨c :: calls, fromRead⟩ =>
      some (perform (c.run s.conn) { s with frame := some ⟨calls, fromRead⟩ })
    | _ => none
  | .leave =>
    match s.frame with
    | some ⟨[], fromRead⟩ =>
      some { s with frame := none, conn := if fromRead then s.conn.handleReadEnd else s.conn }
    | _ => none
  | .popIo => if s.polling then some { s with io := s.io.popAll } else none
  | .runIo w env =>
    match s.frame, s.io.front with
    | none, some f => some (runIo user f w env { s with io := s.io.start })
    | _, _ => none
  | .doneIo =>
    if s.io.running && s.frame.isNone then some { s with io := s.io.finish } else none
  | .popBase => if s.base.idle then some { s with base := s.base.popAll } else none
  | .runBase =>
    match s.base.front with
    | some .handleConnectionClose =>
      some (handleConnectionClose { s with base := s.base.start })
    | none => none
  | .doneBase => if s.base.running then some { s with base := s.base.finish } else none

end Session

end QGServer
