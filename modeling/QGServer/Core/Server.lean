-- SUMMARY: The server: accepter, base loop, io loops and any number of connections, as a step function.
import Mathlib.Logic.Function.Basic
import QGServer.Core.Session

/-!
# The server

The whole server around its connections: `Accepter` with its counter, the base
loop (loop 0) and the io loops of the thread pool (loops 1 to `threads`), each
with one functor queue and one handler map for all its connections, and
`connections_` by file descriptor. Connections are numbered in the order in
which they are constructed; a descriptor can be used again once the connection
that held it is destroyed.

The poller keeps handlers by descriptor as well; it is not modelled, as nothing
here depends on the order in which it reports events.
-/

namespace QGServer

/-! ## State -/

/-- The functors of a loop, each with the connection it is bound to. -/
inductive Functor where
  | io (i : Nat) (f : IoFunctor)
  | handleConnectionClose (i : Nat)
  deriving DecidableEq, Repr

/-- The part of a functor that the session of connection `i` sees. -/
def Functor.ioOf (i : Nat) : Functor → Option IoFunctor
  | .io j f => if j = i then some f else none
  | .handleConnectionClose _ => none

def Functor.baseOf (i : Nat) : Functor → Option BaseFunctor
  | .handleConnectionClose j => if j = i then some .handleConnectionClose else none
  | .io _ _ => none

structure EventLoop where
  queue : BatchQueue Functor
  /-- The user callback that the loop is in, with its connection. -/
  frame : Option (Nat × Frame)
  handlerMap : Nat → Option Nat

/-- A `TcpConnection` with what is its own alone. -/
structure Connection (κ : Type*) where
  conn : TcpConnection
  context : κ
  fd : Nat
  loop : Nat
  closed : Nat
  socket : List SocketEvent

structure Server (κ : Type*) where
  /-- The connections 0, 1, … below it have been constructed. -/
  constructed : Nat
  connection : Nat → Connection κ
  loops : Nat → EventLoop
  connections : Nat → Option Nat
  threads : Nat
  curPos : Nat
  connectionNumber : Int
  connectionHighWater : Int
  /-- What ended the process, and in the work for which connection. -/
  fault : Option (Nat × Fault)

namespace Server

variable {κ ε : Type*}

/-- The server before the first connection. `context` is the empty `std::any`. -/
def start (context : κ) (threads : Nat) (highWater : Int) : Server κ :=
  { constructed := 0
    connection := fun _ => ⟨.new, context, 0, 0, 0, []⟩
    loops := fun _ => ⟨.empty, none, fun _ => none⟩
    connections := fun _ => none
    threads := threads, curPos := 0
    connectionNumber := 0, connectionHighWater := highWater, fault := none }

/-! ## Sessions of a server -/

/-- What the server has for connection `i`. -/
def session (s : Server κ) (i : Nat) : Session κ :=
  let c := s.connection i
  let loop := s.loops c.loop
  { conn := c.conn
    context := c.context
    io := loop.queue.filterMap (Functor.ioOf i)
    base := (s.loops 0).queue.filterMap (Functor.baseOf i)
    frame := loop.frame.bind fun (j, f) => if j = i then some f else none
    entry := s.connections c.fd == some i
    registered := loop.handlerMap c.fd == some i
    closed := c.closed
    socket := c.socket
    fault := s.fault.bind fun (j, f) => if j = i then some f else none }

/-- Some `shared_ptr` to connection `i` is left. -/
def alive (s : Server κ) (i : Nat) : Bool := (s.session i).alive

/-! ## Updates -/

def setConnection (i : Nat) (g : Connection κ → Connection κ) (s : Server κ) : Server κ :=
  { s with connection := Function.update s.connection i (g (s.connection i)) }

def setLoop (j : Nat) (g : EventLoop → EventLoop) (s : Server κ) : Server κ :=
  { s with loops := Function.update s.loops j (g (s.loops j)) }

/-- `EventLoop::addFunctor` of loop `j`. -/
def addFunctor (j : Nat) (f : Functor) (s : Server κ) : Server κ :=
  s.setLoop j fun l => { l with queue := l.queue.push f }

def setHandler (i : Nat) (h : Option Nat) (s : Server κ) : Server κ :=
  s.setLoop (s.connection i).loop fun l =>
    { l with handlerMap := Function.update l.handlerMap (s.connection i).fd h }

/-- The handler that the loop of connection `i` has under its descriptor. -/
def handlerOf (s : Server κ) (i : Nat) : Option Nat :=
  (s.loops (s.connection i).loop).handlerMap (s.connection i).fd

def fail (i : Nat) (f : Fault) (s : Server κ) : Server κ := { s with fault := some (i, f) }

/-! ## Requests of connection `i` -/

def carryOut (i : Nat) (s : Server κ) : Effect → Server κ
  | .write p _ => s.setConnection i fun c => { c with socket := c.socket ++ [.write p] }
  | .addWriteComplete buf => s.addFunctor (s.connection i).loop (.io i (.writeComplete buf))
  | .addWriteInLoop data => s.addFunctor (s.connection i).loop (.io i (.writeInLoop data))
  -- `closeAtBaseLoop`
  | .closeCallBack => s.addFunctor 0 (.handleConnectionClose i)
  -- `emplace` leaves an entry that is there
  | .registerHandler => if (s.handlerOf i).isSome then s else s.setHandler i (some i)
  | .updateHandler => if (s.handlerOf i).isSome then s else s.fail i .assertFailed
  | .removeHandler =>
    if (s.handlerOf i).isSome then s.setHandler i none else s.fail i .assertFailed
  | .decConnection =>
    setConnection i (fun c => { c with closed := c.closed + 1 })
      { s with connectionNumber := s.connectionNumber - 1 }
  | .shutdown => s.setConnection i fun c => { c with socket := c.socket ++ [.shutdown] }

def request (i : Nat) (s : Server κ) (e : Effect) : Server κ :=
  if s.fault.isSome then s else s.carryOut i e

def setConn (i : Nat) (conn : TcpConnection) (s : Server κ) : Server κ :=
  s.setConnection i fun c => { c with conn := conn }

def perform (i : Nat) (r : Result) (s : Server κ) : Server κ :=
  r.effects.foldl (request i) (s.setConn i r.conn)

def attempt (i : Nat) (r : Except Thrown Result) (s : Server κ) : Server κ :=
  match r with
  | .ok r => s.perform i r
  | .error e => (e.effects.foldl (request i) s).fail i e.fault

/-- Call a user callback on the loop of connection `i`. -/
def enter (i : Nat) (r : Except Fault (κ × List Call)) (fromRead : Bool) (s : Server κ) :
    Server κ :=
  match r with
  | .ok (context, calls) =>
    (s.setConnection i fun c => { c with context := context }).setLoop (s.connection i).loop
      fun l => { l with frame := some (i, ⟨calls, fromRead⟩) }
  | .error f => s.fail i f

def throughThis (i : Nat) (s : Server κ) (f : Server κ → Server κ) : Server κ :=
  if s.alive i then f s else s.fail i .useAfterFree

/-! ## Accepting -/

/-- `LoopThreadPool::getNextLoop`: the loop, and the next position. -/
def getNextLoop (s : Server κ) : Nat × Nat :=
  if s.threads = 0 then (0, s.curPos)
  else (s.curPos + 1, if s.threads ≤ s.curPos + 1 then 0 else s.curPos + 1)

/-- The kernel gives out a descriptor that no connection holds. -/
def fdFree (s : Server κ) (fd : Nat) : Bool :=
  (List.range s.constructed).all fun i => !(s.alive i) || (s.connection i).fd != fd

/-- `Server::handleNewCon`. -/
def handleNewCon (context : κ) (fd : Nat) (s : Server κ) : Server κ :=
  let i := s.constructed
  let (loop, curPos) := s.getNextLoop
  addFunctor loop (.io i .handleConnection)
    { s with
      constructed := i + 1
      connection := Function.update s.connection i ⟨.new, context, fd, loop, 0, []⟩
      connections := Function.update s.connections fd (some i)
      curPos := curPos
      connectionNumber := s.connectionNumber + 1 }

/-! ## Steps -/

/-- Who moves. -/
inductive Label (ε : Type*) where
  /-- `Accepter::handleRead` gets the descriptor `fd` from `accept`. -/
  | accept (fd : Nat)
  | readable (i : Nat) (rs : List (KernelRead TcpConnection.defaultReadBuffSize)) (env : ε)
  | writable (i : Nat) (w : WriteOutcome)
  /-- The callback that loop `j` is in makes its next call. -/
  | call (j : Nat)
  | leave (j : Nat)
  /-- Loop `j` takes its pending functors. -/
  | pop (j : Nat)
  | run (j : Nat) (w : WriteOutcome) (env : ε)
  | done (j : Nat)

/-- Loop `j` waits for events. -/
def polling (s : Server κ) (j : Nat) : Bool := (s.loops j).queue.idle && (s.loops j).frame.isNone

/-- Connection `i` has been constructed and its loop waits for events. -/
def ready (s : Server κ) (i : Nat) : Bool :=
  i < s.constructed && s.polling (s.connection i).loop

variable (user : UserCode κ ε) (context : κ)

def handleRead (i : Nat) (rs : List (KernelRead TcpConnection.defaultReadBuffSize)) (env : ε)
    (s : Server κ) : Option (Server κ) :=
  match (s.connection i).conn.handleRead rs with
  | some (.message buf, c, []) =>
    some (s.throughThis i fun s =>
      enter i (user.message env buf (s.connection i).context) true (s.setConn i c))
  | some (.close, c, []) => some (s.throughThis i (perform i c.close))
  | some (.error, c, []) => some (s.throughThis i (perform i c.handleClose))
  | _ => none

/-- `Server::handleConnectionClose`. -/
def handleConnectionClose (i : Nat) (s : Server κ) : Server κ :=
  addFunctor (s.connection i).loop (.io i .closeConnection)
    { s with connections := Function.update s.connections (s.connection i).fd none }

def runFunctor (w : WriteOutcome) (env : ε) (s : Server κ) : Functor → Server κ
  | .io i .handleConnection =>
    enter i (user.connectionCome env (s.connection i).context) false
      (perform i (s.connection i).conn.handleConnection s)
  | .io i (.writeInLoop data) =>
    s.throughThis i (attempt i ((s.connection i).conn.writeInLoop data w))
  | .io i (.writeComplete buf) =>
    enter i (user.writeComplete env buf (s.connection i).context) false s
  | .io i .closeConnection => perform i (s.connection i).conn.closeConnection s
  | .handleConnectionClose i => s.handleConnectionClose i

def step (s : Server κ) (l : Label ε) : Option (Server κ) :=
  if s.fault.isSome then none
  else match l with
  | .accept fd =>
    if s.polling 0 && s.fdFree fd then
      if s.connectionNumber > s.connectionHighWater then some s
      else some (s.handleNewCon context fd)
    else none
  | .readable i rs env =>
    if s.ready i && (s.connection i).conn.eventHandler.isReading then s.handleRead user i rs env
    else none
  | .writable i w =>
    if s.ready i && (s.connection i).conn.eventHandler.isWriting then
      some (s.throughThis i (attempt i ((s.connection i).conn.handleWrite w)))
    else none
  | .call j =>
    match (s.loops j).frame with
    | some (i, ⟨c :: calls, fromRead⟩) =>
      some (perform i (c.run (s.connection i).conn)
        (s.setLoop j fun l => { l with frame := some (i, ⟨calls, fromRead⟩) }))
    | _ => none
  | .leave j =>
    match (s.loops j).frame with
    | some (i, ⟨[], fromRead⟩) =>
      let s := s.setLoop j fun l => { l with frame := none }
      some (if fromRead then s.setConn i (s.connection i).conn.handleReadEnd else s)
    | _ => none
  | .pop j =>
    if s.polling j then some (s.setLoop j fun l => { l with queue := l.queue.popAll }) else none
  | .run j w env =>
    match (s.loops j).frame, (s.loops j).queue.front with
    | none, some f =>
      some (runFunctor user w env (s.setLoop j fun l => { l with queue := l.queue.start }) f)
    | _, _ => none
  | .done j =>
    if (s.loops j).queue.running && (s.loops j).frame.isNone then
      some (s.setLoop j fun l => { l with queue := l.queue.finish })
    else none

end Server

end QGServer
