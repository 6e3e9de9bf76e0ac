-- SUMMARY: The server with the pollers of its loops: the tables follow the connections through every run.
import QGServer.Core.Pollpoller
import QGServer.Core.Requests

/-!
# The server and its pollers

Each loop has a `Pollpoller` with the entries of its own waker, of the accepter
if it is the base loop, and of the connections that it serves. A step of the
server asks the poller of one connection for what its member function requests,
and between its batches a loop waits, as often as it likes and with any result.

`poll` may set bits in `revents` that nobody asked for. Events are handled as
the server takes its steps; the model does not make them wait for a report.
-/

namespace QGServer

/-- The handlers that a loop polls. -/
inductive LoopHandler where
  | waker
  | accepter
  | connection (i : Nat)
  deriving DecidableEq, Repr

/-- The descriptors that belong to no connection: the pipes that wake the loops
    up, and the listening socket, which the base loop polls. -/
structure OwnFds where
  waker : Nat → Nat
  accepter : Nat
  distinct : accepter ≠ waker 0

structure PolledServer (κ : Type*) where
  server : Server κ
  pollers : Nat → Pollpoller LoopHandler

/-! ## Construction -/

/-- `registerHandler` and `enableRead`, as the constructors of `Waker` and
    `Accepter` call them. -/
def Pollpoller.openReading {η : Type*} [DecidableEq η] (h : η) (p : Pollpoller η) :
    Option (Pollpoller η) :=
  (p.registerHandler h).bind fun p => p.changeInterest h EventHandler.enableRead

/-- The poller of a loop before anything is registered. -/
def OwnFds.bare (fds : OwnFds) (j : Nat) : Pollpoller LoopHandler where
  fds := []
  eventHandlerMap _ := none
  handler
    | .waker => .new (fds.waker j)
    | .accepter => .new fds.accepter
    | .connection _ => .new 0

/-- The poller of a loop when the server is up. -/
def OwnFds.poller (fds : OwnFds) (j : Nat) : Option (Pollpoller LoopHandler) :=
  ((fds.bare j).openReading .waker).bind fun p =>
    if j = 0 then p.openReading .accepter else some p

namespace PolledServer

variable {κ ε : Type*}

def start (fds : OwnFds) (context : κ) (threads : Nat) (highWater : Int) : PolledServer κ :=
  { server := .start context threads highWater
    pollers := fun j => (fds.poller j).getD (fds.bare j) }

/-! ## Steps -/

inductive Label (ε : Type*) where
  | server (l : Server.Label ε)
  /-- Loop `j` waits, and `poll` gives `res`. -/
  | wait (j : Nat) (res : PollResult)

/-- The poller of the loop of connection `i`. -/
def pollerOf (p : PolledServer κ) (i : Nat) : Pollpoller LoopHandler :=
  p.pollers (p.server.connection i).loop

/-- What a request of connection `i` is to its poller. Every change of interest
    is followed by its update, so the handler then has the interest `h`. -/
def pollerRequest (i : Nat) (h : EventHandler) (q : Pollpoller LoopHandler) :
    Effect → Option (Pollpoller LoopHandler)
  | .registerHandler => q.registerHandler (.connection i)
  | .updateHandler => q.changeInterest (.connection i) fun _ => h
  | .removeHandler => q.removeHandler (.connection i)
  | _ => some q

variable (fds : OwnFds) (user : UserCode κ ε) (context : κ)

/-- A step of the server. An assertion of the poller that fails leaves no state. -/
def serverStep (p : PolledServer κ) (l : Server.Label ε) : Option (PolledServer κ) :=
  (p.server.step user context l).bind fun s =>
    match p.server.enters l with
    -- a new connection; its descriptor is none of those that its loop polls
    | some fd =>
      let i := p.server.constructed
      let j := (s.connection i).loop
      if fd ≠ fds.accepter ∧ fd ≠ fds.waker j then
        some
          { server := s
            pollers := Function.update p.pollers j
              ((p.pollers j).modifyHandler (.connection i) fun _ => .new fd) }
      else none
    | none =>
      if s.fault.isSome then some { p with server := s }
      else match p.server.made l with
        | some (i, r) =>
          (r.effects.foldlM (pollerRequest i r.conn.eventHandler) (p.pollerOf i)).map fun q =>
            { server := s
              pollers := Function.update p.pollers (p.server.connection i).loop q }
        | none => some { p with server := s }

def step (p : PolledServer κ) : Label ε → Option (PolledServer κ)
  | .server l => p.serverStep fds user context l
  | .wait j res =>
    if p.server.fault.isNone && p.server.polling j then
      ((p.pollers j).wait res).map fun (q, _) =>
        { p with pollers := Function.update p.pollers j q }
    else none

/-! ## What a connection has in its poller -/

/-- The handler of connection `i`, with session `σ`, in the poller `q` of its
    loop `j`. `report` is what the entry has in `revents`. -/
structure PolledAs (fds : OwnFds) (σ : Session κ) (fd j : Nat) (q : Pollpoller LoopHandler)
    (report : PollEvents) (i : Nat) : Prop where
  opened : σ.registered = true → ¬ σ.Unopened
  noError : σ.conn.eventHandler.ievents.getLsbD 2 = false
  foreign : fd ≠ fds.accepter ∧ fd ≠ fds.waker j
  registered : q.Registered (.connection i) ↔ σ.registered = true
  handle : (q.handler (.connection i)).handle = fd
  interest : (q.handler (.connection i)).toEventHandler = σ.conn.eventHandler
  fresh : σ.Unopened → (q.handler (.connection i)).index < 0
  reported : σ.registered = true →
    (q.view (.connection i)).map PollFd.revents = some report

/-- What holds of every poller. -/
structure PollerOk (fds : OwnFds) (j : Nat) (q : Pollpoller LoopHandler) : Prop where
  wf : q.Wf
  waker : (q.handler .waker).handle = fds.waker j
  accepter : (q.handler .accepter).handle = fds.accepter
  noError : ∀ h, (q.handler h).ievents.getLsbD 2 = false
  synced : ∀ h pfd, q.view h = some pfd → pfd.events = (q.handler h).ievents.setWidth 16

section Poller

variable {fds : OwnFds} {σ σ' : Session κ} {fd i j : Nat} {q q' : Pollpoller LoopHandler}
  {report : PollEvents}

/-- A change for one handler that leaves its entry with its interest. -/
theorem PollerOk.changes {h : LoopHandler} (hok : PollerOk fds j q)
    (hchanges : Pollpoller.Changes h q q') (hnoError : (q'.handler h).ievents.getLsbD 2 = false)
    (hsynced : ∀ pfd, q'.view h = some pfd → pfd.events = (q'.handler h).ievents.setWidth 16) :
    PollerOk fds j q' := by
  have hinterest : ∀ k, k ≠ h → (q'.handler k).ievents = (q.handler k).ievents :=
    fun k hk => congrArg EventHandler.ievents (hchanges.interest k hk)
  refine ⟨hchanges.wf, (hchanges.handle _).trans hok.waker, (hchanges.handle _).trans hok.accepter,
    fun k => ?_, fun k pfd hview => ?_⟩
  · by_cases hk : k = h
    · rw [hk]
      exact hnoError
    · rw [hinterest k hk]
      exact hok.noError k
  · by_cases hk : k = h
    · subst hk
      exact hsynced pfd hview
    · rw [hchanges.view k hk] at hview
      rw [hinterest k hk]
      exact hok.synced k pfd hview

/-- A connection for which nothing is asked, in a poller that changes for another one. -/
theorem PolledAs.silent (h : PolledAs fds σ fd j q report i)
    (hmove : Session.PollerMove σ none σ')
    (hhandle : (q'.handler (.connection i)).handle = (q.handler (.connection i)).handle)
    (hinterest : (q'.handler (.connection i)).toEventHandler
      = (q.handler (.connection i)).toEventHandler)
    (hregistered : q'.Registered (.connection i) ↔ q.Registered (.connection i))
    (hview : q'.view (.connection i) = q.view (.connection i))
    (hindex : ¬ q.Registered (.connection i) →
      (q'.handler (.connection i)).index = (q.handler (.connection i)).index) :
    PolledAs fds σ' fd j q' report i := by
  cases hmove with
  | silent hreg hunopened hsame =>
      refine ⟨fun hr => ?_, ?_, h.foreign, ?_, hhandle.trans h.handle, ?_, fun hun => ?_,
        fun hr => ?_⟩
      · rw [hunopened]
        exact h.opened (hreg ▸ hr)
      · rw [hsame]
        exact h.noError
      · rw [hregistered, h.registered, hreg]
      · rw [hinterest, hsame]
        exact h.interest
      · rw [hunopened] at hun
        rw [hindex fun hr => h.opened (h.registered.mp hr) hun]
        exact h.fresh hun
      · rw [hview]
        exact h.reported (hreg ▸ hr)

theorem PolledAs.silent_of_changes {k : Nat} (h : PolledAs fds σ fd j q report i)
    (hmove : Session.PollerMove σ none σ')
    (hchanges : Pollpoller.Changes (.connection k) q q') (hk : i ≠ k) :
    PolledAs fds σ' fd j q' report i := by
  have hne : LoopHandler.connection i ≠ .connection k := by simpa using hk
  exact h.silent hmove (hchanges.handle _) (hchanges.interest _ hne) (hchanges.registered _ hne)
    (hchanges.view _ hne) (hchanges.index _ hne)

theorem PolledAs.silent_refl (h : PolledAs fds σ fd j q report i)
    (hmove : Session.PollerMove σ none σ') : PolledAs fds σ' fd j q report i :=
  h.silent hmove rfl rfl Iff.rfl rfl fun _ => rfl

/-- The updates that a member function asks for leave its last interest, and no
    event; without any of them nothing changes. -/
theorem foldlM_updates {es : List Effect} {h : EventHandler} (hwf : q.Wf)
    (hregisters : .registerHandler ∉ es) (hremoves : .removeHandler ∉ es)
    (hreg : .updateHandler ∈ es → q.Registered (.connection i)) :
    ∃ q', es.foldlM (pollerRequest i h) q = some q' ∧
      Pollpoller.Changes (.connection i) q q' ∧
      (q'.Registered (.connection i) ↔ q.Registered (.connection i)) ∧
      (.updateHandler ∉ es ∧ q' = q ∨
        .updateHandler ∈ es ∧ (q'.handler (.connection i)).toEventHandler = h ∧
          ∃ fd, q'.view (.connection i) = some
            { fd := fd, events := h.ievents.setWidth 16, revents := 0 }) := by
  induction es generalizing q with
  | nil => exact ⟨q, rfl, .refl hwf, Iff.rfl, .inl ⟨List.not_mem_nil, rfl⟩⟩
  | cons e es ih =>
      have hregisters' : .registerHandler ∉ es := fun he => hregisters (by simp [he])
      have hremoves' : .removeHandler ∉ es := fun he => hremoves (by simp [he])
      by_cases he : e = .updateHandler
      · subst he
        have hreg' := hreg List.mem_cons_self
        obtain ⟨q₁, hq₁, hchanges₁, hinterest₁, hview₁⟩ :=
          Pollpoller.changes_changeInterest hwf hreg' fun _ => h
        have hregistered₁ : q₁.Registered (.connection i) := Pollpoller.registered_of_view hview₁
        obtain ⟨q', hq', hchanges', hregistered', hcases⟩ := ih hchanges₁.wf hregisters' hremoves'
          fun _ => hregistered₁
        refine ⟨q', ?_, hchanges₁.trans hchanges', ?_, .inr ⟨List.mem_cons_self, ?_⟩⟩
        · rw [List.foldlM_cons]
          exact (congrArg (· >>= _) hq₁).trans hq'
        · exact hregistered'.trans (iff_of_true hregistered₁ hreg')
        · rcases hcases with ⟨-, rfl⟩ | ⟨-, hinterest', hview'⟩
          · exact ⟨hinterest₁, _, hview₁⟩
          · exact ⟨hinterest', hview'⟩
      · have hskip : pollerRequest i h q e = some q := by
          cases e with
          | registerHandler => exact absurd List.mem_cons_self hregisters
          | removeHandler => exact absurd List.mem_cons_self hremoves
          | updateHandler => exact absurd rfl he
          | _ => rfl
        have hmem : .updateHandler ∈ e :: es ↔ .updateHandler ∈ es := by
          simp [Ne.symm he]
        obtain ⟨q', hq', hchanges', hregistered', hcases⟩ := ih hwf hregisters' hremoves'
          fun h' => hreg (hmem.mpr h')
        refine ⟨q', ?_, hchanges', hregistered', ?_⟩
        · rw [List.foldlM_cons, hskip]
          exact hq'
        · rw [hmem]
          exact hcases

/-- A step that runs a member function other than the first and the last one. -/
theorem PolledAs.tells {r : Result} (hok : PollerOk fds j q) (h : PolledAs fds σ fd j q report i)
    (hr : TellsPoller σ.conn r) (hupdates : .updateHandler ∈ r.effects → σ.registered = true)
    (hregistered : σ'.registered = σ.registered) (hunopened : σ'.Unopened ↔ σ.Unopened)
    (hinterest : σ'.conn.eventHandler = r.conn.eventHandler) :
    ∃ q', r.effects.foldlM (pollerRequest i r.conn.eventHandler) q = some q' ∧
      Pollpoller.Changes (.connection i) q q' ∧ PollerOk fds j q' ∧
      (q'.Registered (.connection i) ↔ q.Registered (.connection i)) ∧
      PolledAs fds σ' fd j q' (if .updateHandler ∈ r.effects then 0 else report) i := by
  obtain ⟨q', hq', hchanges, hreg, hcases⟩ := foldlM_updates (i := i) (h := r.conn.eventHandler)
    hok.wf hr.registers hr.removes fun hmem => h.registered.mpr (hupdates hmem)
  refine ⟨q', hq', hchanges, ?_, hreg, ?_⟩
  · refine hok.changes hchanges ?_ fun pfd hview => ?_
    · rcases hcases with ⟨-, rfl⟩ | ⟨-, hq, -⟩
      · exact hok.noError _
      · rw [hq]
        exact hr.noError h.noError
    · rcases hcases with ⟨-, rfl⟩ | ⟨-, hq, fd', hview'⟩
      · exact hok.synced _ pfd hview
      · rw [hview'] at hview
        obtain rfl := Option.some.inj hview
        rw [hq]
  · have hopened : σ'.registered = true → ¬ σ'.Unopened := by
      rw [hregistered, hunopened]
      exact h.opened
    have hnoError : σ'.conn.eventHandler.ievents.getLsbD 2 = false := by
      rw [hinterest]
      exact hr.noError h.noError
    have hreg' : q'.Registered (.connection i) ↔ σ'.registered = true := by
      rw [hreg, h.registered, hregistered]
    have hhandle := (hchanges.handle (.connection i)).trans h.handle
    rcases hcases with ⟨hmem, rfl⟩ | ⟨hmem, hq, fd', hview'⟩
    · rw [if_neg hmem]
      refine ⟨hopened, hnoError, h.foreign, hreg', hhandle, ?_, fun hun => ?_, fun hr' => ?_⟩
      · rw [hinterest, h.interest]
        exact (hr.told.resolve_left hmem).symm
      · exact h.fresh (hunopened.mp hun)
      · exact h.reported (hregistered ▸ hr')
    · rw [if_pos hmem]
      refine ⟨hopened, hnoError, h.foreign, hreg', hhandle, hq.trans hinterest.symm, fun hun => ?_,
        fun _ => by rw [hview']; rfl⟩
      exact absurd (hunopened.mp hun) (h.opened (hupdates hmem))

/-- `handleConnection` registers the handler under a descriptor that has none. -/
theorem PolledAs.opens (hok : PollerOk fds j q) (h : PolledAs fds σ fd j q report i)
    (hbefore : σ.Unopened) (hafter : ¬ σ'.Unopened) (hregistered : σ'.registered = true)
    (hinterest : σ'.conn.eventHandler = σ.conn.eventHandler.enableRead)
    (hfree : q.eventHandlerMap fd = none) :
    ∃ q', σ.conn.handleConnection.effects.foldlM
        (pollerRequest i σ.conn.handleConnection.conn.eventHandler) q = some q' ∧
      Pollpoller.Changes (.connection i) q q' ∧ PollerOk fds j q' ∧
      PolledAs fds σ' fd j q' 0 i := by
  have hfree' : q.eventHandlerMap (q.handler (.connection i)).handle = none := by
    rw [h.handle]
    exact hfree
  obtain ⟨q₁, hq₁, hchanges₁, hinterest₁, hview₁⟩ :=
    Pollpoller.changes_registerHandler hok.wf hfree' (h.fresh hbefore)
  have hregistered₁ : q₁.Registered (.connection i) := Pollpoller.registered_of_view hview₁
  obtain ⟨q₂, hq₂, hchanges₂, hinterest₂, hview₂⟩ :=
    Pollpoller.changes_changeInterest hchanges₁.wf hregistered₁
      fun _ => σ.conn.handleConnection.conn.eventHandler
  have hchanges := hchanges₁.trans hchanges₂
  refine ⟨q₂, ?_, hchanges, ?_, ?_⟩
  · exact (congrArg (· >>= fun q => pollerRequest i _ q .updateHandler >>= some) hq₁).trans
      ((congrArg (· >>= some) hq₂).trans rfl)
  · refine hok.changes hchanges ?_ fun pfd hview => ?_
    · rw [hinterest₂]
      exact EventHandler.noError_setIEvents (by decide) h.noError
    · rw [hview₂] at hview
      obtain rfl := Option.some.inj hview
      rw [hinterest₂]
  · refine ⟨fun _ => hafter, ?_, h.foreign, ?_, (hchanges.handle _).trans h.handle, ?_,
      fun hun => absurd hun hafter, fun _ => by rw [hview₂]; rfl⟩
    · rw [hinterest]
      exact EventHandler.noError_setIEvents (by decide) h.noError
    · refine iff_of_true ?_ hregistered
      exact Pollpoller.registered_of_view hview₂
    · rw [hinterest₂, hinterest]
      rfl

/-- `closeConnection`, if the assertions of `removeHandler` hold. -/
theorem PolledAs.closes (hok : PollerOk fds j q) (h : PolledAs fds σ fd j q report i)
    (hafter : σ'.registered = false) (hunopened : σ'.Unopened ↔ σ.Unopened)
    (hinterest : σ'.conn.eventHandler = σ.conn.eventHandler) (hbefore : σ.registered = true)
    (hq : σ.conn.closeConnection.effects.foldlM
        (pollerRequest i σ.conn.closeConnection.conn.eventHandler) q = some q') :
    Pollpoller.Changes (.connection i) q q' ∧ PollerOk fds j q' ∧
      PolledAs fds σ' fd j q' report i := by
  have hremove : q.removeHandler (.connection i) = some q' := by
    have hbind : (q.removeHandler (.connection i)).bind some = some q' := hq
    simpa using hbind
  obtain ⟨hchanges, hself, hreg⟩ := Pollpoller.changes_removeHandler hok.wf hremove
  refine ⟨hchanges, ?_, ?_⟩
  · refine hok.changes hchanges ?_ fun pfd hview => ?_
    · rw [hself]
      exact hok.noError _
    exact absurd (Pollpoller.registered_of_view hview) hreg
  · refine ⟨fun hr => ?_, ?_, h.foreign, iff_of_false hreg (by simp [hafter]),
      (hchanges.handle _).trans h.handle, ?_, fun hun => ?_, fun hr => ?_⟩
    · rw [hafter] at hr
      cases hr
    · rw [hinterest]
      exact h.noError
    · rw [hself, hinterest]
      exact h.interest
    · exact absurd (hunopened.mp hun) (h.opened hbefore)
    · rw [hafter] at hr
      cases hr

end Poller

/-! ## The invariant -/

/-- The steps before a state, the last one first. -/
abbrev History (κ ε : Type*) := List (PolledServer κ × Label ε)

/-- The step makes connection `i` update its handler. -/
def updates (p : PolledServer κ) (l : Server.Label ε) (i : Nat) : Bool :=
  (p.server.madeFor l i).any fun r => .updateHandler ∈ r.effects

/-- What `poll` last reported for the descriptor of connection `i` after the last
    update of its handler, no event if it has not reported since. -/
def lastReport (i : Nat) : History κ ε → PollEvents
  | [] => 0
  | (_, .wait _ .failed) :: past => lastReport i past
  | (p, .wait j (.ready revents)) :: past =>
    if (p.server.connection i).loop = j then revents (p.server.connection i).fd
    else lastReport i past
  | (p, .server l) :: past => if p.updates l i then 0 else lastReport i past

/-- The server and its pollers agree. -/
structure Linked (fds : OwnFds) (s : PolledServer κ × History κ ε) : Prop where
  held : s.1.server.Held
  pollers : ∀ j, PollerOk fds j (s.1.pollers j)
  owner : ∀ j i, (s.1.pollers j).Registered (.connection i) →
    i < s.1.server.constructed ∧ (s.1.server.connection i).loop = j
  connections : ∀ i < s.1.server.constructed,
    PolledAs fds (s.1.server.session i) (s.1.server.connection i).fd
      (s.1.server.connection i).loop (s.1.pollerOf i) (lastReport i s.2) i

section Invariant

variable {fds : OwnFds} {user : UserCode κ ε} {context : κ} {s s' : PolledServer κ × History κ ε}
  {i j : Nat}

/-- `handleConnection` finds the descriptor of its connection free. -/
theorem Linked.free (h : Linked fds s) (hi : i < s.1.server.constructed)
    (hun : (s.1.server.session i).Unopened) :
    (s.1.pollerOf i).eventHandlerMap (s.1.server.connection i).fd = none := by
  have hconn := h.connections i hi
  have hok := h.pollers (s.1.server.connection i).loop
  cases hk : (s.1.pollerOf i).eventHandlerMap (s.1.server.connection i).fd with
  | none => rfl
  | some k =>
      exfalso
      have hhandle := hok.wf.handle _ _ hk
      cases k with
      | waker => exact hconn.foreign.2 (hhandle.symm.trans hok.waker)
      | accepter => exact hconn.foreign.1 (hhandle.symm.trans hok.accepter)
      | connection k =>
          have hreg : (s.1.pollerOf i).Registered (.connection k) := by
            unfold Pollpoller.Registered
            rw [show ((s.1.pollerOf i).handler (.connection k)).handle = _ from hhandle]
            exact hk
          obtain ⟨hkn, hloop⟩ := h.owner _ k hreg
          have hconnk := h.connections k hkn
          have hpoller : s.1.pollerOf k = s.1.pollerOf i := by
            unfold pollerOf
            rw [hloop]
          rw [hpoller] at hconnk
          have hregk := hconnk.registered.mp hreg
          have halivek := (h.held.sessions k hkn).alive hregk
          have halivei : (s.1.server.session i).alive = true :=
            Session.alive_of_holds (BatchQueue.mem_all_of_waiting hun) rfl
          obtain rfl := h.held.distinct k i hkn hi halivek halivei
            (hconnk.handle.symm.trans hhandle)
          exact hconnk.opened hregk hun

/-- No entry of any poller asks for the event of bit 2. -/
def NoError (p : PolledServer κ) : Prop :=
  ∀ j, ∀ pfd ∈ (p.pollers j).fds, pfd.events.getLsbD 2 = false

theorem Linked.noError (h : Linked fds s) : s.1.NoError := by
  intro j pfd hmem
  obtain ⟨n, hn⟩ := List.getElem?_of_mem hmem
  have hok := h.pollers j
  obtain ⟨k, -, hreg, -, hindex⟩ := hok.wf.handler_of_entry hn
  have hview : (s.1.pollers j).view k = some pfd := by
    rw [Pollpoller.view_of_registered hreg, Pollpoller.entry, hindex, hn]
  rw [hok.synced k pfd hview, BitVec.getLsbD_setWidth, hok.noError k, Bool.and_false]

/-- What holds of every state reached. -/
structure Invariant (fds : OwnFds) (s : PolledServer κ × History κ ε) : Prop where
  noError : s.1.NoError
  linked : s.1.server.fault = none → Linked fds s

/-! ## The first state -/

/-- A handler under a descriptor of its own starts to read. -/
theorem PollerOk.openReading {q : Pollpoller LoopHandler} {h : LoopHandler}
    (hok : PollerOk fds j q) (hfree : q.eventHandlerMap (q.handler h).handle = none)
    (hindex : (q.handler h).index < 0) :
    ∃ q', q.openReading h = some q' ∧ PollerOk fds j q' ∧ Pollpoller.Changes h q q' ∧
      ∃ pfd, q'.view h = some pfd := by
  obtain ⟨q₁, hq₁, hchanges₁, hinterest₁, hview₁⟩ :=
    Pollpoller.changes_registerHandler hok.wf hfree hindex
  have hregistered₁ : q₁.Registered h := Pollpoller.registered_of_view hview₁
  obtain ⟨q₂, hq₂, hchanges₂, hinterest₂, hview₂⟩ :=
    Pollpoller.changes_changeInterest hchanges₁.wf hregistered₁ EventHandler.enableRead
  have hchanges := hchanges₁.trans hchanges₂
  refine ⟨q₂, (congrArg (Option.bind · _) hq₁).trans hq₂, ?_, hchanges, _, hview₂⟩
  refine hok.changes hchanges ?_ fun pfd hview => ?_
  · rw [hinterest₂, hinterest₁]
    exact EventHandler.noError_setIEvents (by decide) (hok.noError h)
  · rw [hview₂] at hview
    obtain rfl := Option.some.inj hview
    rw [hinterest₂]

theorem pollerOk_bare (fds : OwnFds) (j : Nat) : PollerOk fds j (fds.bare j) := by
  refine ⟨⟨fun fd h hh => ?_, fun fd h hh => ?_, Places.exact_nil⟩, rfl, rfl, fun h => ?_,
    fun h pfd hview => ?_⟩
  · cases hh
  · cases hh
  · cases h <;> exact BitVec.getLsbD_zero
  · cases hview

/-- The poller of a loop when the server is up: no assertion has failed, and it
    has no connection. -/
theorem poller_spec (fds : OwnFds) (j : Nat) :
    ∃ q, fds.poller j = some q ∧ PollerOk fds j q ∧ ∀ i, ¬ q.Registered (.connection i) := by
  obtain ⟨q₁, hq₁, hok₁, hchanges₁, pfd₁, hview₁⟩ :=
    (pollerOk_bare fds j).openReading (h := .waker) rfl (Int.negSucc_lt_zero 0)
  have hnone₁ : ∀ h, h ≠ .waker → ¬ q₁.Registered h := by
    intro h hne
    rw [hchanges₁.registered h hne]
    intro hreg
    cases hreg
  by_cases hj : j = 0
  · have hfree : q₁.eventHandlerMap (q₁.handler .accepter).handle = none := by
      cases hk : q₁.eventHandlerMap (q₁.handler .accepter).handle with
      | none => rfl
      | some k =>
          have hhandle := hok₁.wf.handle _ _ hk
          have hreg : q₁.Registered k := by
            unfold Pollpoller.Registered
            rw [hhandle]
            exact hk
          by_cases hw : k = .waker
          · subst hw
            refine absurd ?_ fds.distinct
            rw [hok₁.waker, hok₁.accepter, hj] at hhandle
            exact hhandle.symm
          · exact absurd hreg (hnone₁ k hw)
    have hindex : (q₁.handler .accepter).index < 0 := by
      rw [hchanges₁.index .accepter (by simp) fun hreg => by cases hreg]
      exact Int.negSucc_lt_zero 0
    obtain ⟨q₂, hq₂, hok₂, hchanges₂, -⟩ := hok₁.openReading hfree hindex
    refine ⟨q₂, ?_, hok₂, fun i => ?_⟩
    · rw [OwnFds.poller, hq₁, Option.bind_some, if_pos hj, hq₂]
    · rw [hchanges₂.registered _ (by simp)]
      exact hnone₁ _ (by simp)
  · refine ⟨q₁, ?_, hok₁, fun i => hnone₁ _ (by simp)⟩
    rw [OwnFds.poller, hq₁, Option.bind_some, if_neg hj]

theorem invariant_start (fds : OwnFds) (context : κ) (threads : Nat) (highWater : Int) :
    Invariant fds (start fds context threads highWater, ([] : History κ ε)) := by
  have hpoller : ∀ j, PollerOk fds j ((start fds context threads highWater).pollers j) ∧
      ∀ i, ¬ ((start fds context threads highWater).pollers j).Registered (.connection i) := by
    intro j
    obtain ⟨q, hq, hok, hnone⟩ := poller_spec fds j
    have heq : (start fds context threads highWater).pollers j = q := by
      simp [start, hq]
    rw [heq]
    exact ⟨hok, hnone⟩
  have hlinked : Linked fds (start fds context threads highWater, ([] : History κ ε)) := by
    refine ⟨(Server.reachable_start context threads highWater).held rfl, fun j => (hpoller j).1,
      fun j i hreg => absurd hreg ((hpoller j).2 i), fun i hi => ?_⟩
    cases hi
  exact ⟨hlinked.noError, fun _ => hlinked⟩

/-! ## Every step -/

theorem linked_wait {res : PollResult} (h : Linked fds s)
    (hstep : s.1.step fds user context (.wait j res) = some s'.1)
    (hpast : s'.2 = (s.1, .wait j res) :: s.2) : Linked fds s' := by
  obtain ⟨p, past⟩ := s
  obtain ⟨p', past'⟩ := s'
  dsimp only at hstep hpast
  subst hpast
  unfold step at hstep
  dsimp only at hstep
  rw [Option.ite_none_right_eq_some] at hstep
  obtain ⟨-, hstep⟩ := hstep
  obtain ⟨q, ess, hwait, hspec⟩ := Pollpoller.wait_spec (h.pollers j).wf res
  dsimp only at hwait
  rw [hwait] at hstep
  obtain rfl := Option.some.inj hstep
  have hsame : ∀ l, l ≠ j → (Function.update p.pollers j q) l = p.pollers l :=
    fun l hl => Function.update_of_ne hl _ _
  have hok : PollerOk fds j q := by
    have hold := h.pollers j
    refine ⟨hspec.wf, (hspec.handle _).trans hold.waker, (hspec.handle _).trans hold.accepter,
      fun k => ?_, fun k pfd hview => ?_⟩
    · rw [hspec.interest]
      exact hold.noError k
    · rw [hspec.view] at hview
      obtain ⟨pfd', hpfd', rfl⟩ := Option.map_eq_some_iff.mp hview
      rw [PollResult.events_apply, hspec.interest]
      exact hold.synced k pfd' hpfd'
  refine ⟨h.held, fun l => ?_, fun l i hreg => ?_, fun i hi => ?_⟩
  · dsimp only
    by_cases hl : l = j
    · subst hl
      rw [Function.update_self]
      exact hok
    · rw [hsame l hl]
      exact h.pollers l
  · dsimp only at hreg
    by_cases hl : l = j
    · subst hl
      rw [Function.update_self, hspec.registered] at hreg
      exact h.owner l i hreg
    · rw [hsame l hl] at hreg
      exact h.owner l i hreg
  · have hconn := h.connections i hi
    dsimp only at hconn ⊢
    by_cases hl : (p.server.connection i).loop = j
    · have hold : p.pollerOf i = p.pollers j := by rw [pollerOf, hl]
      have hnew : pollerOf { p with pollers := Function.update p.pollers j q } i = q := by
        unfold pollerOf
        dsimp only
        rw [hl, Function.update_self]
      rw [hnew]
      rw [hold] at hconn
      refine ⟨hconn.opened, hconn.noError, hconn.foreign, ?_, (hspec.handle _).trans hconn.handle,
        (hspec.interest _).trans hconn.interest, fun hun => ?_, fun hreg => ?_⟩
      · rw [hspec.registered]
        exact hconn.registered
      · rw [hspec.index]
        exact hconn.fresh hun
      · rw [hspec.view]
        have hreport := hconn.reported hreg
        obtain ⟨pfd, hpfd, hrevents⟩ := Option.map_eq_some_iff.mp hreport
        have hentry := (Option.ite_none_right_eq_some.mp hpfd).2
        obtain ⟨pfd', hpfd', hfd⟩ :=
          (h.pollers j).wf.entry_of_registered (hconn.registered.mpr hreg)
        obtain rfl : pfd' = pfd := Option.some.inj (hpfd'.symm.trans hentry)
        rw [hpfd]
        cases res with
        | failed => exact congrArg some hrevents
        | ready revents =>
            have hlast : lastReport i ((p, .wait j (.ready revents)) :: past : History κ ε)
                = revents (p.server.connection i).fd := if_pos hl
            rw [hlast, ← hconn.handle, ← hfd]
            rfl
    · have hold : pollerOf { p with pollers := Function.update p.pollers j q } i = p.pollerOf i :=
        hsame _ hl
      have hlast : lastReport i ((p, .wait j res) :: past : History κ ε) = lastReport i past := by
        cases res with
        | failed => rfl
        | ready revents => exact if_neg hl
      rw [hold, hlast]
      exact hconn

/-- A new connection, in the poller of its loop. -/
theorem linked_accept {fd : Nat} {p : PolledServer κ} {past past' : History κ ε}
    (h : Linked fds (p, past)) (hfault : p.server.fault = none)
    (hfree : p.server.fdFree fd = true)
    (hforeign : fd ≠ fds.accepter ∧ fd ≠ fds.waker
      ((p.server.handleNewCon context fd).connection p.server.constructed).loop)
    (hlast : ∀ i, lastReport i past' = lastReport i past) :
    Linked fds
      ({ server := p.server.handleNewCon context fd
         pollers := Function.update p.pollers
          ((p.server.handleNewCon context fd).connection p.server.constructed).loop
          ((p.pollers
              ((p.server.handleNewCon context fd).connection p.server.constructed).loop).modifyHandler
            (.connection p.server.constructed) fun _ => .new fd) }, past') := by
  generalize hj : ((p.server.handleNewCon context fd).connection p.server.constructed).loop = j
    at hforeign ⊢
  have hnone : ∀ l, ¬ (p.pollers l).Registered (.connection p.server.constructed) :=
    fun l hreg => (h.owner l _ hreg).1.ne rfl
  obtain ⟨hwf, hregs, hviews⟩ := Pollpoller.changes_construct (h.pollers j).wf (hnone j)
    (.new fd)
  have hself : ((p.pollers j).modifyHandler (.connection p.server.constructed)
      fun _ => .new fd).handler (.connection p.server.constructed) = .new fd :=
    Function.update_self _ _ _
  have hother : ∀ k, k ≠ .connection p.server.constructed →
      ((p.pollers j).modifyHandler (.connection p.server.constructed) fun _ => .new fd).handler k
        = (p.pollers j).handler k := fun k hk => Function.update_of_ne hk _ _
  have hold : ∀ i < p.server.constructed,
      (p.server.handleNewCon context fd).connection i = p.server.connection i := by
    intro i hi
    simp [Server.handleNewCon, Function.update_of_ne hi.ne]
  have hfd : ((p.server.handleNewCon context fd).connection p.server.constructed).fd = fd := by
    simp [Server.handleNewCon]
  refine ⟨Server.held_accept h.held hfault hfree, fun l => ?_, fun l i hreg => ?_, fun i hi => ?_⟩
  · dsimp only
    by_cases hl : l = j
    · subst hl
      rw [Function.update_self]
      have hok := h.pollers l
      refine ⟨hwf, ?_, ?_, fun k => ?_, fun k pfd hview => ?_⟩
      · rw [hother _ (by simp)]
        exact hok.waker
      · rw [hother _ (by simp)]
        exact hok.accepter
      · by_cases hk : k = .connection p.server.constructed
        · rw [hk, hself]
          exact BitVec.getLsbD_zero
        · rw [hother k hk]
          exact hok.noError k
      · rw [hviews] at hview
        have hk : k ≠ .connection p.server.constructed := by
          rintro rfl
          exact hnone l (Option.ite_none_right_eq_some.mp hview).1
        rw [hother k hk]
        exact hok.synced k pfd hview
    · rw [Function.update_of_ne hl]
      exact h.pollers l
  · dsimp only at hreg ⊢
    have hreg' : (p.pollers l).Registered (.connection i) := by
      by_cases hl : l = j
      · subst hl
        rw [Function.update_self] at hreg
        exact (hregs _).mp hreg
      · rwa [Function.update_of_ne hl] at hreg
    obtain ⟨hi, hloop⟩ := h.owner l i hreg'
    dsimp only at hi hloop
    rw [hold i hi]
    exact ⟨Nat.lt_succ_of_lt hi, hloop⟩
  · dsimp only at hi ⊢
    rw [hlast]
    rcases Server.lt_constructed_handleNewCon hi with hi | rfl
    · have hconn := h.connections i hi
      dsimp only at hconn
      have hne : LoopHandler.connection i ≠ .connection p.server.constructed := by
        simpa using hi.ne
      rw [Server.session_handleNewCon_of_lt hfree hi]
      unfold pollerOf
      dsimp only
      rw [hold i hi]
      by_cases hl : (p.server.connection i).loop = j
      · have hpoller : p.pollerOf i = p.pollers j := by rw [pollerOf, hl]
        rw [hpoller] at hconn
        rw [hl] at hconn ⊢
        rw [Function.update_self]
        refine hconn.silent (.refl _) ?_ ?_ (hregs _) (congrFun hviews _) fun _ => ?_
        · rw [hother _ hne]
        · rw [hother _ hne]
        · rw [hother _ hne]
      · rw [Function.update_of_ne hl]
        exact hconn
    · rw [Server.session_handleNewCon h.held.toOwned hfault, hfd]
      unfold pollerOf
      dsimp only
      rw [hj, Function.update_self]
      refine ⟨fun hreg => ?_, BitVec.getLsbD_zero, hforeign, ?_, ?_, ?_, fun _ => ?_, fun hreg => ?_⟩
      · cases hreg
      · exact iff_of_false (mt (hregs _).mp (hnone j)) Bool.false_ne_true
      · rw [hself]
        rfl
      · rw [hself]
        rfl
      · rw [hself]
        exact Int.negSucc_lt_zero 0
      · cases hreg

/-- The work for one connection changes its poller, and its handler there. -/
theorem linked_made {p : PolledServer κ} {t : Server κ} {past : History κ ε} {l : Server.Label ε}
    {k : Nat} {r : Result} {q : Pollpoller LoopHandler} (h : Linked fds (p, past))
    (hstep : p.server.step user context l = some t) (hl : ∀ fd, l = .accept fd → t = p.server)
    (halive : t.fault = none) (hmade : p.server.made l = some (k, r))
    (hq : r.effects.foldlM (pollerRequest k r.conn.eventHandler) (p.pollerOf k) = some q) :
    Linked fds
      ({ server := t, pollers := Function.update p.pollers (p.server.connection k).loop q },
        (p, .server l) :: past) := by
  have hreachable := Server.reachable_step _ _ _ ⟨h.held.toOwned, fun _ => h.held⟩ hstep
  obtain ⟨hconstructed, hfd, hloop, -⟩ := Server.step_frame h.held.toGood hstep hl
  obtain ⟨hmadek, hmadeOther⟩ := Server.madeFor_of_made hmade
  have hk : k < p.server.constructed := Server.lt_of_made h.held.toGood hstep hmade
  have hok := h.pollers (p.server.connection k).loop
  have hconn := h.connections k hk
  have hmove := Server.pollerMove_step h.held hstep hl halive hk
  rw [hmadek] at hmove
  have hupdates : p.updates l k = decide (.updateHandler ∈ r.effects) := by
    unfold updates
    rw [hmadek]
    rfl
  have hlast : lastReport k ((p, .server l) :: past)
      = if .updateHandler ∈ r.effects then 0 else lastReport k past := by
    have hunfold : lastReport k ((p, .server l) :: past)
        = if p.updates l k then 0 else lastReport k past := rfl
    rw [hunfold, hupdates]
    simp only [decide_eq_true_eq]
  obtain ⟨hchanges, hok', hconn'⟩ : Pollpoller.Changes (.connection k) (p.pollerOf k) q ∧
      PollerOk fds (p.server.connection k).loop q ∧
      PolledAs fds (t.session k) (p.server.connection k).fd (p.server.connection k).loop q
        (lastReport k ((p, .server l) :: past)) k := by
    rw [hlast]
    cases hmove with
    | opens hbefore hafter hregistered hinterest =>
        obtain ⟨q', hq', hchanges, hok', hconn'⟩ := hconn.opens hok hbefore hafter hregistered
          hinterest (h.free hk hbefore)
        obtain rfl : q' = q := Option.some.inj (hq'.symm.trans hq)
        exact ⟨hchanges, hok', hconn'⟩
    | tells hr hup hregistered hunopened hinterest =>
        obtain ⟨q', hq', hchanges, hok', -, hconn'⟩ := hconn.tells hok hr hup hregistered hunopened
          hinterest
        obtain rfl : q' = q := Option.some.inj (hq'.symm.trans hq)
        exact ⟨hchanges, hok', hconn'⟩
    | closes hbefore hafter hunopened hinterest =>
        exact hconn.closes hok hafter hunopened hinterest hbefore hq
  refine ⟨hreachable.held halive, fun m => ?_, fun m i hreg => ?_, fun i hi => ?_⟩
  · dsimp only
    by_cases hm : m = (p.server.connection k).loop
    · subst hm
      rw [Function.update_self]
      exact hok'
    · rw [Function.update_of_ne hm]
      exact h.pollers m
  · dsimp only at hreg ⊢
    rw [hconstructed, hloop]
    by_cases hm : m = (p.server.connection k).loop
    · subst hm
      rw [Function.update_self] at hreg
      by_cases hik : i = k
      · subst hik
        exact ⟨hk, rfl⟩
      · rw [hchanges.registered _ (by simpa using hik)] at hreg
        exact h.owner _ i hreg
    · rw [Function.update_of_ne hm] at hreg
      exact h.owner m i hreg
  · dsimp only at hi ⊢
    rw [hconstructed] at hi
    unfold pollerOf
    dsimp only
    rw [hfd, hloop]
    by_cases hik : i = k
    · subst hik
      rw [Function.update_self]
      exact hconn'
    · have hmovei := Server.pollerMove_step h.held hstep hl halive hi
      rw [hmadeOther i hik] at hmovei
      have hlasti : lastReport i ((p, .server l) :: past) = lastReport i past := by
        have hunfold : lastReport i ((p, .server l) :: past)
            = if p.updates l i then 0 else lastReport i past := rfl
        rw [hunfold, updates, hmadeOther i hik]
        rfl
      have hconni := h.connections i hi
      rw [hlasti]
      by_cases hm : (p.server.connection i).loop = (p.server.connection k).loop
      · rw [hm, Function.update_self]
        have hpoller : p.pollerOf i = p.pollerOf k := by
          unfold pollerOf
          rw [hm]
        dsimp only at hconni
        rw [hpoller, hm] at hconni
        exact hconni.silent_of_changes hmovei hchanges hik
      · rw [Function.update_of_ne hm]
        exact hconni.silent_refl hmovei

/-- A step that asks the pollers for nothing. -/
theorem linked_silent {p : PolledServer κ} {t : Server κ} {past : History κ ε} {l : Server.Label ε}
    (h : Linked fds (p, past)) (hstep : p.server.step user context l = some t)
    (hl : ∀ fd, l = .accept fd → t = p.server) (halive : t.fault = none)
    (hmade : p.server.made l = none) :
    Linked fds ({ p with server := t }, (p, .server l) :: past) := by
  have hreachable := Server.reachable_step _ _ _ ⟨h.held.toOwned, fun _ => h.held⟩ hstep
  obtain ⟨hconstructed, hfd, hloop, -⟩ := Server.step_frame h.held.toGood hstep hl
  refine ⟨hreachable.held halive, h.pollers, fun m i hreg => ?_, fun i hi => ?_⟩
  · dsimp only
    rw [hconstructed, hloop]
    exact h.owner m i hreg
  · dsimp only at hi ⊢
    rw [hconstructed] at hi
    have hnone := Server.madeFor_of_none hmade i
    have hmove := Server.pollerMove_step h.held hstep hl halive hi
    rw [hnone] at hmove
    have hlast : lastReport i ((p, .server l) :: past) = lastReport i past := by
      have hunfold : lastReport i ((p, .server l) :: past)
          = if p.updates l i then 0 else lastReport i past := rfl
      rw [hunfold, updates, hnone]
      rfl
    unfold pollerOf
    dsimp only
    rw [hfd, hloop, hlast]
    exact (h.connections i hi).silent_refl hmove

theorem invariant_step (s : PolledServer κ × History κ ε) (l : Label ε)
    (s' : PolledServer κ × History κ ε) (h : Invariant fds s)
    (hstep : Runs.record (step fds user context) s l = some s') : Invariant fds s' := by
  obtain ⟨hp, hpast⟩ := Runs.record_eq_some hstep
  cases l with
  | wait j res =>
      have hfault : s.1.server.fault = none := by
        unfold step at hp
        dsimp only at hp
        rw [Option.ite_none_right_eq_some, Bool.and_eq_true, Option.isNone_iff_eq_none] at hp
        exact hp.1.1
      have hlinked := linked_wait (h.linked hfault) hp hpast
      exact ⟨hlinked.noError, fun _ => hlinked⟩
  | server l =>
      obtain ⟨p, past⟩ := s
      obtain ⟨p', past'⟩ := s'
      dsimp only at hp hpast
      subst hpast
      unfold step serverStep at hp
      dsimp only at hp
      obtain ⟨t, ht, hp⟩ := Option.bind_eq_some_iff.mp hp
      have hfault := Server.step_fault ht
      have hlinked := h.linked hfault
      rcases Server.enters_cases ht with ⟨fd, rfl, henters, hfree, rfl⟩ | ⟨henters, hl⟩
      · rw [henters] at hp
        dsimp only at hp
        rw [Option.ite_none_right_eq_some] at hp
        obtain ⟨hforeign, hp⟩ := hp
        obtain rfl := Option.some.inj hp
        have hlast : ∀ i, lastReport i ((p, .server (.accept fd)) :: past : History κ ε)
            = lastReport i past := fun _ => rfl
        have hnew := linked_accept hlinked hfault hfree hforeign hlast
        exact ⟨hnew.noError, fun _ => hnew⟩
      · rw [henters] at hp
        dsimp only at hp
        split at hp
        · rename_i hdead
          obtain rfl := Option.some.inj hp
          refine ⟨h.noError, fun halive => ?_⟩
          dsimp only at halive
          rw [halive] at hdead
          cases hdead
        · rename_i halive
          have halive' : t.fault = none := by simpa using halive
          split at hp
          · rename_i k r hmade
            obtain ⟨q, hq, rfl⟩ := Option.map_eq_some_iff.mp hp
            have hnew := linked_made hlinked ht hl halive' hmade hq
            exact ⟨hnew.noError, fun _ => hnew⟩
          · rename_i hmade
            obtain rfl := Option.some.inj hp
            have hnew := linked_silent hlinked ht hl halive' hmade
            exact ⟨hnew.noError, fun _ => hnew⟩

/-- Every state reached has a history with which it satisfies the invariant. -/
theorem invariant_of_exec {threads : Nat} {highWater : Int} {ls : List (Label ε)}
    {p : PolledServer κ}
    (h : Runs.exec (step fds user context) (start fds context threads highWater) ls = some p) :
    ∃ past, Invariant fds ((p, past) : PolledServer κ × History κ ε) := by
  have hrecord : (Runs.exec (Runs.record (step fds user context))
      (start fds context threads highWater, []) ls).map Prod.fst = some p :=
    Runs.exec_record.trans h
  obtain ⟨⟨p', past⟩, hexec, rfl⟩ := Option.map_eq_some_iff.mp hrecord
  exact ⟨past, Runs.exec_preserves invariant_step (invariant_start fds context threads highWater)
    hexec⟩

end Invariant

end PolledServer

end QGServer
