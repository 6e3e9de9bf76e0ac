-- SUMMARY: The poller: pollfd entries in a vector, handlers by descriptor, and the waiting call that stores what poll reports.
import QGServer.Core.EventHandler
import QGServer.Library.Places

/-!
# Pollpoller

`src/core/poll/Pollpoller.cpp` with the members of `EventHandler` that it uses.
The poller keeps one `pollfd` for each handler in a vector; the handler keeps
its place in the vector, and a map finds the handler of a descriptor. Removing
an entry swaps it with the last one.

Pointers to handlers are values of a type `η`, and the state of the poller has
the handlers they lead to. A function gives `none` where an assertion fails.
-/

namespace QGServer

/-! ## Data -/

/-- `short`, the type of the event fields of `pollfd`. -/
abbrev PollEvents := BitVec 16

/-- The bit of `poll` for a descriptor that can be read. -/
def POLLIN : PollEvents := 0x1

/-- The bit of `poll` for a descriptor that can be written. -/
def POLLOUT : PollEvents := 0x4

structure PollFd where
  fd : Nat
  events : PollEvents
  revents : PollEvents
  deriving DecidableEq, Repr

/-- An `EventHandler` with the members that its poller and its loop use. -/
structure PolledHandler extends EventHandler where
  handle : Nat
  revents : Events
  index : Int
  deriving DecidableEq, Repr

namespace PolledHandler

/-- The constructor. -/
def new (fd : Nat) : PolledHandler :=
  { EventHandler.new with handle := fd, revents := kEventNone, index := -1 }

def setREvents (h : PolledHandler) (rev : Events) : PolledHandler :=
  { h with revents := h.revents ||| (rev &&& kEventMask) }

def isReadable (h : PolledHandler) : Bool := h.revents &&& kEventRead != 0
def isWriteable (h : PolledHandler) : Bool := h.revents &&& kEventWrite != 0
def isError (h : PolledHandler) : Bool := h.revents &&& kEventError != 0

end PolledHandler

/-- What a call of `poll` does: it fails and writes nothing, or it writes the
    `revents` of every entry. The kernel goes by the descriptor. -/
inductive PollResult where
  | failed
  | ready (revents : Nat → PollEvents)

/-- What a call of `poll` makes of an entry. -/
def PollResult.apply (res : PollResult) (pfd : PollFd) : PollFd :=
  match res with
  | .failed => pfd
  | .ready revents => { pfd with revents := revents pfd.fd }

@[simp] theorem PollResult.fd_apply (res : PollResult) (pfd : PollFd) :
    (res.apply pfd).fd = pfd.fd := by
  cases res <;> rfl

@[simp] theorem PollResult.events_apply (res : PollResult) (pfd : PollFd) :
    (res.apply pfd).events = pfd.events := by
  cases res <;> rfl

structure Pollpoller (η : Type*) where
  fds : List PollFd
  eventHandlerMap : Nat → Option η
  /-- The handlers that the pointers lead to. -/
  handler : η → PolledHandler

namespace Pollpoller

variable {η : Type*} [DecidableEq η]

/-! ## Functions -/

def modifyHandler (h : η) (g : PolledHandler → PolledHandler) (p : Pollpoller η) : Pollpoller η :=
  { p with handler := Function.update p.handler h (g (p.handler h)) }

def registerHandler (h : η) (p : Pollpoller η) : Option (Pollpoller η) :=
  if (p.handler h).index < 0 then
    let pfd : PollFd :=
      { fd := (p.handler h).handle, events := (p.handler h).ievents.setWidth 16, revents := 0 }
    some
      { fds := p.fds ++ [pfd]
        eventHandlerMap := Function.update p.eventHandlerMap (p.handler h).handle (some h)
        handler := (p.modifyHandler h fun x => { x with index := p.fds.length }).handler }
  else none

def updateHandler (h : η) (p : Pollpoller η) : Option (Pollpoller η) :=
  if (p.handler h).index < 0 then p.registerHandler h
  else some
    { p with
      fds := p.fds.modify (p.handler h).index.toNat fun pfd =>
        { pfd with events := (p.handler h).ievents.setWidth 16, revents := 0 } }

/-- A change of interest, with the `update` at its end. -/
def changeInterest (h : η) (g : EventHandler → EventHandler) (p : Pollpoller η) :
    Option (Pollpoller η) :=
  (p.modifyHandler h fun x => { x with toEventHandler := g x.toEventHandler }).updateHandler h

/-- The `pollfd` that the index of a handler leads to. -/
def entry (p : Pollpoller η) (h : η) : Option PollFd := p.fds[(p.handler h).index.toNat]?

/-- The three assertions at the head of `removeHandler`. -/
structure Removable (p : Pollpoller η) (h : η) : Prop where
  inRange : 0 ≤ (p.handler h).index ∧ (p.handler h).index < p.fds.length
  mapped : p.eventHandlerMap (p.handler h).handle = some h
  clean : (p.entry h).map PollFd.revents = some 0

instance (p : Pollpoller η) (h : η) : Decidable (p.Removable h) :=
  decidable_of_iff
    ((0 ≤ (p.handler h).index ∧ (p.handler h).index < p.fds.length) ∧
      p.eventHandlerMap (p.handler h).handle = some h ∧ (p.entry h).map PollFd.revents = some 0)
    ⟨fun ⟨hrange, hmap, hclean⟩ => ⟨hrange, hmap, hclean⟩,
      fun h => ⟨h.inRange, h.mapped, h.clean⟩⟩

def removeHandler (h : η) (p : Pollpoller η) : Option (Pollpoller η) :=
  if p.Removable h then
    p.fds.getLast?.bind fun back =>
      -- the entry of the last descriptor is used as it is
      (p.eventHandlerMap back.fd).map fun last =>
        { fds := Places.swapRemove p.fds (p.handler h).index.toNat
          eventHandlerMap := Function.update p.eventHandlerMap (p.handler h).handle none
          handler := (p.modifyHandler last fun x => { x with index := (p.handler h).index }).handler }
  else none

/-- The call of `poll` in `Wait`, on all entries, and its result. -/
def poll (res : PollResult) (p : Pollpoller η) : Int × Pollpoller η :=
  match res with
  | .failed => (-1, p)
  | .ready revents =>
    let fds := p.fds.map fun pfd => { pfd with revents := revents pfd.fd }
    (fds.countP (·.revents != 0), { p with fds := fds })

/-- The loop of `Wait` over the entries, with its local variable `n`. -/
def waitLoop : List PollFd → Int → Pollpoller η → Option (Pollpoller η × List η)
  | [], _, p => some (p, [])
  | pfd :: fds, n, p =>
    if pfd.revents != 0 then
      (p.eventHandlerMap pfd.fd).bind fun h =>
        let p := p.modifyHandler h (·.setREvents (pfd.revents.signExtend 32))
        if n - 1 = 0 then some (p, [h])
        else (waitLoop fds (n - 1) p).map fun (p, res) => (p, h :: res)
    else if n = 0 then some (p, [])
    else waitLoop fds n p

/-- `Wait`: the handlers it returns go with the poller it leaves. -/
def wait (res : PollResult) (p : Pollpoller η) : Option (Pollpoller η × List η) :=
  let (n, p) := p.poll res
  waitLoop p.fds n p

/-! ## The table -/

/-- The map finds the handler under its descriptor. -/
def Registered (p : Pollpoller η) (h : η) : Prop :=
  p.eventHandlerMap (p.handler h).handle = some h

instance (p : Pollpoller η) (h : η) : Decidable (p.Registered h) :=
  inferInstanceAs (Decidable (_ = _))

/-- Where the entry of a descriptor is. -/
def place (p : Pollpoller η) (fd : Nat) : Option Nat :=
  (p.eventHandlerMap fd).map fun h => (p.handler h).index.toNat

/-- Every registered handler is under its own descriptor and its index leads to
    its entry. -/
structure Wf (p : Pollpoller η) : Prop where
  handle : ∀ fd h, p.eventHandlerMap fd = some h → (p.handler h).handle = fd
  index : ∀ fd h, p.eventHandlerMap fd = some h → 0 ≤ (p.handler h).index
  places : Places.Exact PollFd.fd p.fds p.place

/-- The table as a map from handlers to entries. -/
def view (p : Pollpoller η) (h : η) : Option PollFd := if p.Registered h then p.entry h else none

/-! ## Operations on the table

Each operation does to the view what it is meant to do, and leaves the places in
order. -/

section Table

variable {p p' : Pollpoller η} {h k : η}

omit [DecidableEq η] in
theorem place_of_registered (hreg : p.Registered h) :
    p.place (p.handler h).handle = some (p.handler h).index.toNat :=
  congrArg (Option.map fun h => (p.handler h).index.toNat) hreg

omit [DecidableEq η] in
theorem Wf.entry_of_registered (hwf : p.Wf) (hreg : p.Registered h) :
    ∃ pfd, p.entry h = some pfd ∧ pfd.fd = (p.handler h).handle :=
  hwf.places.get (place_of_registered hreg)

theorem view_of_registered (hreg : p.Registered h) : p.view h = p.entry h := if_pos hreg

theorem view_congr (hreg : p'.Registered k ↔ p.Registered k)
    (hentry : p.Registered k → p'.entry k = p.entry k) : p'.view k = p.view k := by
  unfold view
  by_cases h : p.Registered k
  · rw [if_pos h, if_pos (hreg.mpr h), hentry h]
  · rw [if_neg h, if_neg (mt hreg.mp h)]

omit [DecidableEq η] in
theorem Wf.mapped_iff (hwf : p.Wf) {fd : Nat} :
    p.eventHandlerMap fd = some h ↔ p.Registered h ∧ (p.handler h).handle = fd := by
  constructor
  · intro hmap
    have hhandle := hwf.handle fd h hmap
    refine ⟨?_, hhandle⟩
    unfold Registered
    rwa [hhandle]
  · rintro ⟨hreg, rfl⟩
    exact hreg

omit [DecidableEq η] in
/-- The map is known from the registered handlers and their descriptors. -/
theorem Wf.map_ext (hwf : p.Wf) (hwf' : p'.Wf)
    (hhandle : ∀ k, (p'.handler k).handle = (p.handler k).handle)
    (hreg : ∀ k, p'.Registered k ↔ p.Registered k) : p'.eventHandlerMap = p.eventHandlerMap := by
  funext fd
  apply Option.ext
  intro k
  rw [hwf.mapped_iff, hwf'.mapped_iff, hreg, hhandle]

omit [DecidableEq η] in
/-- The handler of an entry. -/
theorem Wf.handler_of_entry (hwf : p.Wf) {n : Nat} {pfd : PollFd} (hn : p.fds[n]? = some pfd) :
    ∃ k, p.eventHandlerMap pfd.fd = some k ∧ p.Registered k ∧ (p.handler k).handle = pfd.fd ∧
      (p.handler k).index.toNat = n := by
  obtain ⟨k, hk, hindex⟩ := Option.map_eq_some_iff.mp (hwf.places.find hn)
  obtain ⟨hreg, hhandle⟩ := hwf.mapped_iff.mp hk
  exact ⟨k, hk, hreg, hhandle, hindex⟩

omit [DecidableEq η] in
/-- The indices of two registered handlers are different. -/
theorem Wf.index_ne (hwf : p.Wf) (hreg : p.Registered h) (hreg' : p.Registered k) (hne : k ≠ h) :
    (p.handler k).index.toNat ≠ (p.handler h).index.toNat := by
  intro heq
  have hplace := place_of_registered hreg'
  rw [heq] at hplace
  have hhandle := hwf.places.inj hplace (place_of_registered hreg)
  unfold Registered at hreg hreg'
  rw [hhandle, hreg] at hreg'
  exact hne (Option.some.inj hreg').symm

/-- The table is in the entries, the map and the indices. -/
theorem Wf.congr (hwf : p.Wf) (hfds : p'.fds = p.fds)
    (hmap : p'.eventHandlerMap = p.eventHandlerMap)
    (hhandle : ∀ k, (p'.handler k).handle = (p.handler k).handle)
    (hindex : ∀ k, (p'.handler k).index = (p.handler k).index) :
    p'.Wf ∧ (∀ k, p'.Registered k ↔ p.Registered k) ∧ p'.view = p.view := by
  have hreg : ∀ k, p'.Registered k ↔ p.Registered k := by
    intro k
    unfold Registered
    rw [hmap, hhandle]
  refine ⟨⟨fun fd k hk => ?_, fun fd k hk => ?_, ?_⟩, hreg, funext fun k => ?_⟩
  · rw [hmap] at hk
    exact (hhandle k).trans (hwf.handle fd k hk)
  · rw [hmap] at hk
    rw [hindex]
    exact hwf.index fd k hk
  · have hplace : p'.place = p.place := by
      funext fd
      unfold place
      rw [hmap]
      simp only [hindex]
    rw [hplace, hfds]
    exact hwf.places
  · refine view_congr (hreg k) fun _ => ?_
    unfold entry
    rw [hfds, hindex]

/-- Registering and removing change nothing of a handler but its index. -/
def SameButIndex (p p' : Pollpoller η) : Prop :=
  ∀ k, ∃ n, p'.handler k = { p.handler k with index := n }

theorem sameButIndex_modifyHandler (n : Int) {p' : Pollpoller η}
    (hp : p'.handler = (p.modifyHandler h fun x => { x with index := n }).handler) :
    SameButIndex p p' := by
  intro k
  rw [hp]
  unfold modifyHandler
  by_cases hk : k = h
  · subst hk
    exact ⟨n, Function.update_self _ _ _⟩
  · exact ⟨(p.handler k).index, Function.update_of_ne hk _ _⟩

theorem sameButIndex_registerHandler (hp : p.registerHandler h = some p') : SameButIndex p p' := by
  unfold registerHandler at hp
  rw [Option.ite_none_right_eq_some] at hp
  obtain rfl := Option.some.inj hp.2
  exact sameButIndex_modifyHandler _ rfl

theorem sameButIndex_removeHandler (hp : p.removeHandler h = some p') : SameButIndex p p' := by
  unfold removeHandler at hp
  rw [Option.ite_none_right_eq_some] at hp
  obtain ⟨back, -, hp⟩ := Option.bind_eq_some_iff.mp hp.2
  obtain ⟨last, -, rfl⟩ := Option.map_eq_some_iff.mp hp
  exact sameButIndex_modifyHandler _ rfl

/-- A handler under a descriptor that has no handler yet. -/
theorem registerHandler_spec (hwf : p.Wf) (hfresh : p.eventHandlerMap (p.handler h).handle = none)
    (hp : p.registerHandler h = some p') :
    p'.Wf ∧ p'.view = Function.update p.view h (some
      { fd := (p.handler h).handle, events := (p.handler h).ievents.setWidth 16, revents := 0 }) := by
  unfold registerHandler at hp
  rw [Option.ite_none_right_eq_some] at hp
  obtain ⟨hindex, hp⟩ := hp
  obtain rfl := Option.some.inj hp
  have hother : ∀ k, k ≠ h →
      (p.modifyHandler h fun x => { x with index := p.fds.length }).handler k = p.handler k :=
    fun k hk => Function.update_of_ne hk _ _
  have hself : (p.modifyHandler h fun x => { x with index := p.fds.length }).handler h
      = { p.handler h with index := p.fds.length } := Function.update_self _ _ _
  have hne : ∀ fd k, p.eventHandlerMap fd = some k → k ≠ h := by
    rintro fd k hk rfl
    rw [hwf.handle fd k hk, hk] at hfresh
    cases hfresh
  constructor
  · refine ⟨fun fd k hk => ?_, fun fd k hk => ?_, ?_⟩
    · dsimp only at hk ⊢
      by_cases hfd : fd = (p.handler h).handle
      · subst hfd
        rw [Function.update_self] at hk
        obtain rfl := Option.some.inj hk
        rw [hself]
      · rw [Function.update_of_ne hfd] at hk
        rw [hother k (hne fd k hk)]
        exact hwf.handle fd k hk
    · dsimp only at hk ⊢
      by_cases hfd : fd = (p.handler h).handle
      · subst hfd
        rw [Function.update_self] at hk
        obtain rfl := Option.some.inj hk
        rw [hself]
        exact Int.natCast_nonneg _
      · rw [Function.update_of_ne hfd] at hk
        rw [hother k (hne fd k hk)]
        exact hwf.index fd k hk
    · have hnone : p.place (p.handler h).handle = none := by
        unfold place
        rw [hfresh]
        rfl
      have hpush := hwf.places.push (a :=
        { fd := (p.handler h).handle, events := (p.handler h).ievents.setWidth 16, revents := 0 })
        hnone
      convert hpush using 1
      funext fd
      unfold place
      dsimp only
      by_cases hfd : fd = (p.handler h).handle
      · subst hfd
        rw [Function.update_self, Function.update_self, Option.map_some, hself]
        rfl
      · rw [Function.update_of_ne hfd, Function.update_of_ne hfd]
        cases hk : p.eventHandlerMap fd with
        | none => rfl
        | some k => simp only [Option.map_some, hother k (hne fd k hk)]
  · funext k
    by_cases hk : k = h
    · subst hk
      rw [Function.update_self]
      simp [view, Registered, entry, hself]
    · rw [Function.update_of_ne hk]
      refine view_congr ?_ fun hreg => ?_
      · unfold Registered
        dsimp only
        rw [hother k hk]
        by_cases hfd : (p.handler k).handle = (p.handler h).handle
        · rw [hfd, Function.update_self, hfresh]
          simp [Ne.symm hk]
        · rw [Function.update_of_ne hfd]
      · have hlt := hwf.places.lt_length (place_of_registered hreg)
        unfold entry
        dsimp only
        rw [hother k hk, List.getElem?_append_left hlt]

theorem updateHandler_spec (hwf : p.Wf) (hreg : p.Registered h)
    (hp : p.updateHandler h = some p') :
    p'.Wf ∧ p'.handler = p.handler ∧ p'.eventHandlerMap = p.eventHandlerMap ∧
      p'.view = Function.update p.view h (some
        { fd := (p.handler h).handle, events := (p.handler h).ievents.setWidth 16
          revents := 0 }) := by
  unfold updateHandler at hp
  rw [if_neg (not_lt.mpr (hwf.index _ _ hreg))] at hp
  obtain rfl := Option.some.inj hp
  refine ⟨⟨hwf.handle, hwf.index, hwf.places.modify fun _ => rfl⟩, rfl, rfl, ?_⟩
  obtain ⟨pfd, hpfd, hfd⟩ := hwf.entry_of_registered hreg
  unfold entry at hpfd
  funext k
  by_cases hk : k = h
  · subst hk
    rw [Function.update_self]
    refine (view_of_registered ?_).trans ?_
    · exact hreg
    · unfold entry
      dsimp only
      rw [List.getElem?_modify, hpfd, ← hfd]
      simp
  · rw [Function.update_of_ne hk]
    refine view_congr Iff.rfl fun hreg' => ?_
    unfold entry
    dsimp only
    rw [List.getElem?_modify]
    simp only [if_neg (Ne.symm (hwf.index_ne hreg hreg' hk))]
    simp

/-- A registered handler changes its interest: no assertion fails, and its entry
    is the new interest with no event. -/
theorem changeInterest_spec (hwf : p.Wf) (hreg : p.Registered h)
    (g : EventHandler → EventHandler) :
    ∃ p', p.changeInterest h g = some p' ∧ p'.Wf ∧ (∀ k, p'.Registered k ↔ p.Registered k) ∧
      p'.handler = (p.modifyHandler h fun x =>
        { x with toEventHandler := g x.toEventHandler }).handler ∧
      p'.view = Function.update p.view h (some
        { fd := (p.handler h).handle, events := (g (p.handler h).toEventHandler).ievents.setWidth 16
          revents := 0 }) := by
  generalize hq : (p.modifyHandler h fun x => { x with toEventHandler := g x.toEventHandler }) = q
  have hself : q.handler h
      = { p.handler h with toEventHandler := g (p.handler h).toEventHandler } := by
    rw [← hq]
    exact Function.update_self _ _ _
  have hother : ∀ k, k ≠ h → q.handler k = p.handler k := by
    intro k hk
    rw [← hq]
    exact Function.update_of_ne hk _ _
  have hkeys : ∀ k, (q.handler k).handle = (p.handler k).handle ∧
      (q.handler k).index = (p.handler k).index := by
    intro k
    by_cases hk : k = h
    · rw [hk, hself]
      exact ⟨rfl, rfl⟩
    · rw [hother k hk]
      exact ⟨rfl, rfl⟩
  obtain ⟨hwfq, hregq, hviewq⟩ : q.Wf ∧ (∀ k, q.Registered k ↔ p.Registered k) ∧ q.view = p.view :=
    hwf.congr (by rw [← hq]; rfl) (by rw [← hq]; rfl) (fun k => (hkeys k).1) fun k => (hkeys k).2
  have hupdate : ∃ p', q.updateHandler h = some p' := by
    unfold updateHandler
    rw [if_neg (not_lt.mpr (hwfq.index _ _ ((hregq h).mpr hreg)))]
    exact ⟨_, rfl⟩
  obtain ⟨p', hp'⟩ := hupdate
  obtain ⟨hwf', hhandler, hmap, hview⟩ := updateHandler_spec hwfq ((hregq h).mpr hreg) hp'
  refine ⟨p', by rw [changeInterest, hq]; exact hp', hwf', fun k => ?_, hhandler, ?_⟩
  · rw [← hregq k]
    unfold Registered
    rw [hhandler, hmap]
  · rw [hview, hviewq, hself]

/-- What the assertions do not say: the last entry has a handler. -/
theorem removeHandler_isSome (hwf : p.Wf) (hr : p.Removable h) :
    (p.removeHandler h).isSome = true := by
  unfold removeHandler
  rw [if_pos hr]
  obtain ⟨pfd, hpfd, -⟩ := hwf.entry_of_registered hr.mapped
  have hlen := hwf.places.lt_length (place_of_registered hr.mapped)
  have hne : p.fds ≠ [] := List.ne_nil_of_length_pos (Nat.zero_lt_of_lt hlen)
  have hlast := List.getLast?_eq_getLast_of_ne_nil hne
  rw [List.getLast?_eq_getElem?] at hlast
  obtain ⟨k, hk, -⟩ := hwf.handler_of_entry hlast
  rw [← List.getLast?_eq_getElem?] at hlast
  rw [hlast, Option.bind_some, hk]
  rfl

theorem removeHandler_spec (hwf : p.Wf) (hp : p.removeHandler h = some p') :
    p.Removable h ∧ p'.Wf ∧ p'.view = Function.update p.view h none := by
  unfold removeHandler at hp
  rw [Option.ite_none_right_eq_some] at hp
  obtain ⟨hr, hp⟩ := hp
  obtain ⟨back, hback, hp⟩ := Option.bind_eq_some_iff.mp hp
  obtain ⟨last, hlast, rfl⟩ := Option.map_eq_some_iff.mp hp
  have hreg : p.Registered h := hr.mapped
  have hplace := place_of_registered hreg
  have hlt := hwf.places.lt_length hplace
  have hplaceLast : p.place back.fd = some (p.fds.length - 1) :=
    hwf.places.find (by rw [← List.getLast?_eq_getElem?, hback])
  have hindexLast : (p.handler last).index.toNat = p.fds.length - 1 := by
    unfold place at hplaceLast
    rw [hlast] at hplaceLast
    exact Option.some.inj hplaceLast
  have hhandleLast := hwf.handle _ _ hlast
  have hregLast : p.Registered last := by
    unfold Registered
    rw [hhandleLast]
    exact hlast
  have hother : ∀ k, k ≠ last →
      (p.modifyHandler last fun x => { x with index := (p.handler h).index }).handler k
        = p.handler k := fun k hk => Function.update_of_ne hk _ _
  have hself : (p.modifyHandler last fun x => { x with index := (p.handler h).index }).handler last
      = { p.handler last with index := (p.handler h).index } := Function.update_self _ _ _
  have hhandle : ∀ k,
      ((p.modifyHandler last fun x => { x with index := (p.handler h).index }).handler k).handle
        = (p.handler k).handle := by
    intro k
    by_cases hk : k = last
    · rw [hk, hself]
    · rw [hother k hk]
  have hmap : ∀ fd k, Function.update p.eventHandlerMap (p.handler h).handle none fd = some k →
      p.eventHandlerMap fd = some k ∧ k ≠ h := by
    intro fd k hk
    by_cases hfd : fd = (p.handler h).handle
    · subst hfd
      rw [Function.update_self] at hk
      cases hk
    · rw [Function.update_of_ne hfd] at hk
      refine ⟨hk, ?_⟩
      rintro rfl
      exact hfd (hwf.handle fd k hk).symm
  refine ⟨hr, ⟨fun fd k hk => ?_, fun fd k hk => ?_, ?_⟩, ?_⟩
  · exact (hhandle k).trans (hwf.handle fd k (hmap fd k hk).1)
  · dsimp only
    by_cases hkl : k = last
    · rw [hkl, hself]
      exact hr.inRange.1
    · rw [hother k hkl]
      exact hwf.index fd k (hmap fd k hk).1
  · have hremove := hwf.places.swapRemove hplace hback
    convert hremove using 1
    funext fd
    unfold place
    dsimp only
    by_cases hfd : fd = (p.handler h).handle
    · subst hfd
      rw [Function.update_self, Function.update_self]
      rfl
    · rw [Function.update_of_ne hfd, Function.update_of_ne hfd]
      by_cases hback' : fd = back.fd
      · subst hback'
        rw [Function.update_self, hlast, Option.map_some, hself]
      · rw [Function.update_of_ne hback']
        cases hk : p.eventHandlerMap fd with
        | none => rfl
        | some k =>
            have hkl : k ≠ last := by
              rintro rfl
              exact hback' ((hwf.handle fd k hk).symm.trans hhandleLast)
            simp only [Option.map_some, hother k hkl]
  · funext k
    by_cases hk : k = h
    · subst hk
      rw [Function.update_self]
      unfold view Registered
      simp only [hhandle, Function.update_self]
      rw [if_neg (by simp)]
    · rw [Function.update_of_ne hk]
      refine view_congr ?_ fun hreg' => ?_
      · unfold Registered
        simp only [hhandle]
        refine ⟨fun hk' => (hmap _ k hk').1, fun hk' => ?_⟩
        rw [Function.update_of_ne, hk']
        intro hfd
        unfold Registered at hreg
        rw [hfd, hreg] at hk'
        exact hk (Option.some.inj hk').symm
      · unfold entry
        dsimp only
        have hne := hwf.index_ne hreg hreg' hk
        rw [Places.getElem?_swapRemove hlt]
        by_cases hkl : k = last
        · subst hkl
          rw [hself]
          dsimp only
          rw [if_pos (by omega), if_pos rfl, List.getLast?_eq_getElem?, hindexLast]
        · have hnl := hwf.index_ne hregLast hreg' hkl
          have hklt := hwf.places.lt_length (place_of_registered hreg')
          rw [hother k hkl, if_pos (by omega), if_neg hne]

/-! ## What an operation leaves alone -/

omit [DecidableEq η] in
theorem not_mapped_of_not_registered (hwf : p.Wf) (hreg : ¬ p.Registered h) (fd : Nat) :
    p.eventHandlerMap fd ≠ some h := by
  intro hfd
  apply hreg
  unfold Registered
  rw [hwf.handle fd h hfd]
  exact hfd

/-- An operation for the handler `h`. -/
structure Changes (h : η) (p p' : Pollpoller η) : Prop where
  wf : p'.Wf
  handle : ∀ k, (p'.handler k).handle = (p.handler k).handle
  interest : ∀ k, k ≠ h → (p'.handler k).toEventHandler = (p.handler k).toEventHandler
  registered : ∀ k, k ≠ h → (p'.Registered k ↔ p.Registered k)
  view : ∀ k, k ≠ h → p'.view k = p.view k
  index : ∀ k, k ≠ h → ¬ p.Registered k → (p'.handler k).index = (p.handler k).index

theorem Changes.refl (hwf : p.Wf) : Changes h p p :=
  ⟨hwf, fun _ => rfl, fun _ _ => rfl, fun _ _ => Iff.rfl, fun _ _ => rfl, fun _ _ _ => rfl⟩

theorem Changes.trans {q : Pollpoller η} (hc : Changes h p p') (hc' : Changes h p' q) :
    Changes h p q := by
  refine ⟨hc'.wf, fun k => ?_, fun k hk => ?_, fun k hk => ?_, fun k hk => ?_, fun k hk hreg => ?_⟩
  · exact (hc'.handle k).trans (hc.handle k)
  · exact (hc'.interest k hk).trans (hc.interest k hk)
  · exact (hc'.registered k hk).trans (hc.registered k hk)
  · exact (hc'.view k hk).trans (hc.view k hk)
  · exact (hc'.index k hk (mt (hc.registered k hk).mp hreg)).trans (hc.index k hk hreg)

/-- A handler in the view is registered. -/
theorem registered_of_view {pfd : PollFd} (hview : p.view k = some pfd) : p.Registered k :=
  (Option.ite_none_right_eq_some.mp hview).1

/-- Whether a handler is registered shows in the view. -/
theorem registered_iff_view (hwf : p.Wf) : p.Registered k ↔ (p.view k).isSome = true := by
  constructor
  · intro hreg
    obtain ⟨pfd, hpfd, -⟩ := hwf.entry_of_registered hreg
    rw [view_of_registered hreg, hpfd]
    rfl
  · intro hview
    obtain ⟨pfd, hpfd⟩ := Option.isSome_iff_exists.mp hview
    exact registered_of_view hpfd

/-- The handlers keep all but their index, and unregistered ones that too. -/
theorem changes_of_view {e : Option PollFd} (hwf : p.Wf) (hwf' : p'.Wf)
    (hsame : SameButIndex p p') (hview : p'.view = Function.update p.view h e)
    (hindex : ∀ k, k ≠ h → ¬ p.Registered k → (p'.handler k).index = (p.handler k).index) :
    Changes h p p' := by
  have hviewOf : ∀ k, k ≠ h → p'.view k = p.view k := by
    intro k hk
    rw [hview, Function.update_of_ne hk]
  refine ⟨hwf', fun k => ?_, fun k _ => ?_, fun k hk => ?_, hviewOf, hindex⟩
  · obtain ⟨n, hn⟩ := hsame k
    rw [hn]
  · obtain ⟨n, hn⟩ := hsame k
    rw [hn]
  · rw [registered_iff_view hwf, registered_iff_view hwf', hviewOf k hk]

theorem changes_registerHandler (hwf : p.Wf)
    (hfresh : p.eventHandlerMap (p.handler h).handle = none) (hindex : (p.handler h).index < 0) :
    ∃ p', p.registerHandler h = some p' ∧ Changes h p p' ∧
      (p'.handler h).toEventHandler = (p.handler h).toEventHandler ∧
      p'.view h = some { fd := (p.handler h).handle, events := (p.handler h).ievents.setWidth 16
                         revents := 0 } := by
  have hsome : ∃ p', p.registerHandler h = some p' ∧
      ∀ k, k ≠ h → p'.handler k = p.handler k := by
    unfold registerHandler
    rw [if_pos hindex]
    exact ⟨_, rfl, fun k hk => Function.update_of_ne hk _ _⟩
  obtain ⟨p', hp, hother⟩ := hsome
  obtain ⟨hwf', hview⟩ := registerHandler_spec hwf hfresh hp
  have hsame := sameButIndex_registerHandler hp
  refine ⟨p', hp, changes_of_view hwf hwf' hsame hview fun k hk _ => by rw [hother k hk], ?_, ?_⟩
  · obtain ⟨n, hn⟩ := hsame h
    rw [hn]
  · rw [hview, Function.update_self]

theorem changes_changeInterest (hwf : p.Wf) (hreg : p.Registered h)
    (g : EventHandler → EventHandler) :
    ∃ p', p.changeInterest h g = some p' ∧ Changes h p p' ∧
      (p'.handler h).toEventHandler = g (p.handler h).toEventHandler ∧
      p'.view h = some { fd := (p.handler h).handle
                         events := (g (p.handler h).toEventHandler).ievents.setWidth 16
                         revents := 0 } := by
  obtain ⟨p', hp, hwf', hreg', hhandler, hview⟩ := changeInterest_spec hwf hreg g
  have hself : p'.handler h
      = { p.handler h with toEventHandler := g (p.handler h).toEventHandler } := by
    rw [hhandler]
    exact Function.update_self _ _ _
  have hother : ∀ k, k ≠ h → p'.handler k = p.handler k := by
    intro k hk
    rw [hhandler]
    exact Function.update_of_ne hk _ _
  refine ⟨p', hp, ⟨hwf', fun k => ?_, fun k hk => by rw [hother k hk], fun k _ => hreg' k,
    fun k hk => by rw [hview, Function.update_of_ne hk], fun k hk _ => by rw [hother k hk]⟩, ?_, ?_⟩
  · by_cases hk : k = h
    · rw [hk, hself]
    · rw [hother k hk]
  · rw [hself]
  · rw [hview, Function.update_self]

theorem changes_removeHandler (hwf : p.Wf) (hp : p.removeHandler h = some p') :
    Changes h p p' ∧ (p'.handler h).toEventHandler = (p.handler h).toEventHandler ∧
      ¬ p'.Registered h := by
  obtain ⟨hr, hwf', hview⟩ := removeHandler_spec hwf hp
  have hsame := sameButIndex_removeHandler hp
  refine ⟨changes_of_view hwf hwf' hsame hview fun k _ hreg => ?_, ?_, ?_⟩
  · unfold removeHandler at hp
    rw [if_pos hr] at hp
    obtain ⟨back, -, hp⟩ := Option.bind_eq_some_iff.mp hp
    obtain ⟨last, hlast, rfl⟩ := Option.map_eq_some_iff.mp hp
    have hne : k ≠ last := by
      rintro rfl
      exact not_mapped_of_not_registered hwf hreg _ hlast
    exact congrArg PolledHandler.index (Function.update_of_ne hne _ _)
  · obtain ⟨n, hn⟩ := hsame h
    rw [hn]
  · rw [registered_iff_view hwf', hview, Function.update_self]
    exact Bool.false_ne_true

/-- A handler that is not registered is constructed anew. -/
theorem changes_construct (hwf : p.Wf) (hreg : ¬ p.Registered h) (x : PolledHandler) :
    (p.modifyHandler h fun _ => x).Wf ∧
      (∀ k, (p.modifyHandler h fun _ => x).Registered k ↔ p.Registered k) ∧
      (p.modifyHandler h fun _ => x).view = p.view := by
  have hmap := not_mapped_of_not_registered hwf hreg
  have hother : ∀ k, k ≠ h → (p.modifyHandler h fun _ => x).handler k = p.handler k :=
    fun k hk => Function.update_of_ne hk _ _
  have hne : ∀ fd k, p.eventHandlerMap fd = some k → k ≠ h := by
    rintro fd k hk rfl
    exact hmap fd hk
  have hregs : ∀ k, (p.modifyHandler h fun _ => x).Registered k ↔ p.Registered k := by
    intro k
    by_cases hk : k = h
    · subst hk
      exact iff_of_false (hmap _) hreg
    · unfold Registered
      rw [hother k hk]
      exact Iff.rfl
  refine ⟨⟨fun fd k hk => ?_, fun fd k hk => ?_, ?_⟩, hregs, funext fun k => ?_⟩
  · rw [hother k (hne fd k hk)]
    exact hwf.handle fd k hk
  · rw [hother k (hne fd k hk)]
    exact hwf.index fd k hk
  · have hplace : (p.modifyHandler h fun _ => x).place = p.place := by
      funext fd
      unfold place
      change (p.eventHandlerMap fd).map _ = _
      cases hk : p.eventHandlerMap fd with
      | none => rfl
      | some k => rw [Option.map_some, Option.map_some, hother k (hne fd k hk)]
    rw [hplace]
    exact hwf.places
  · refine view_congr (hregs k) fun hk => ?_
    unfold entry
    rw [hother k (by rintro rfl; exact hreg hk)]
    rfl

end Table

/-! ## Waiting -/

section Wait

variable {p p' : Pollpoller η} {k : η} {l : List PollFd} {res : List η} {n : Int}

theorem getLsbD_setREvents (h : PolledHandler) (rev : PollEvents) (b : Nat) :
    (h.setREvents (rev.signExtend 32)).revents.getLsbD b
      = (h.revents.getLsbD b || decide (b < 8) && rev.getLsbD b) := by
  have hmask : kEventMask.getLsbD b = decide (b < 8) := by
    have hones : kEventMask = (BitVec.allOnes 8).setWidth 32 := by decide
    rw [hones, BitVec.getLsbD_setWidth, BitVec.getLsbD_allOnes]
    by_cases hb : b < 8
    · simp [hb, Nat.lt_trans hb (by decide : 8 < 32)]
    · simp [hb]
  unfold PolledHandler.setREvents
  rw [BitVec.getLsbD_or, BitVec.getLsbD_and, hmask, BitVec.getLsbD_signExtend]
  by_cases hb : b < 8
  · simp [hb, Nat.lt_trans hb (by decide : 8 < 32), Nat.lt_trans hb (by decide : 8 < 16)]
  · simp [hb]

/-- What the loop of `Wait` does for the entries `l`: it adds what they report to
    the handlers and returns the handlers for which there is a report. -/
structure Stored (l : List PollFd) (p p' : Pollpoller η) (res : List η) : Prop where
  fds : p'.fds = p.fds
  eventHandlerMap : p'.eventHandlerMap = p.eventHandlerMap
  interest : ∀ k, (p'.handler k).toEventHandler = (p.handler k).toEventHandler
  handle : ∀ k, (p'.handler k).handle = (p.handler k).handle
  index : ∀ k, (p'.handler k).index = (p.handler k).index
  revents : ∀ k b, (p'.handler k).revents.getLsbD b
    = ((p.handler k).revents.getLsbD b ||
        decide (b < 8) && l.any fun pfd => p.eventHandlerMap pfd.fd == some k && pfd.revents.getLsbD b)
  returned : res = l.filterMap fun pfd =>
    if pfd.revents != 0 then p.eventHandlerMap pfd.fd else none

/-- Entries without a report change nothing. -/
theorem Stored.quiet (h : l.countP (·.revents != 0) = 0) : Stored l p p [] := by
  rw [List.countP_eq_zero] at h
  have hzero : ∀ pfd ∈ l, pfd.revents = 0 := fun pfd hmem => by simpa using h pfd hmem
  refine ⟨rfl, rfl, fun _ => rfl, fun _ => rfl, fun _ => rfl, fun k b => ?_, ?_⟩
  · have hany : (l.any fun pfd => p.eventHandlerMap pfd.fd == some k && pfd.revents.getLsbD b)
        = false := by
      rw [List.any_eq_false]
      intro pfd hmem
      simp [hzero pfd hmem]
    rw [hany, Bool.and_false, Bool.or_false]
  · symm
    rw [List.filterMap_eq_nil_iff]
    intro pfd hmem
    simp [hzero pfd hmem]

theorem Stored.skip {pfd : PollFd} (h : Stored l p p' res) (hpfd : pfd.revents = 0) :
    Stored (pfd :: l) p p' res := by
  refine ⟨h.fds, h.eventHandlerMap, h.interest, h.handle, h.index, fun k b => ?_, ?_⟩
  · rw [h.revents, List.any_cons, hpfd]
    simp
  · rw [List.filterMap_cons, hpfd, if_neg (by simp)]
    exact h.returned

theorem Stored.store {pfd : PollFd} {h : η} (hpfd : pfd.revents ≠ 0)
    (hh : p.eventHandlerMap pfd.fd = some h)
    (hrest : Stored l (p.modifyHandler h (·.setREvents (pfd.revents.signExtend 32))) p' res) :
    Stored (pfd :: l) p p' (h :: res) := by
  have hmodify : ∀ k, (p.modifyHandler h (·.setREvents (pfd.revents.signExtend 32))).handler k
      = if k = h then (p.handler k).setREvents (pfd.revents.signExtend 32) else p.handler k := by
    intro k
    unfold modifyHandler
    dsimp only
    rw [Function.update_apply]
    split
    · rename_i hk
      rw [hk]
    · rfl
  refine ⟨hrest.fds, hrest.eventHandlerMap, fun k => ?_, fun k => ?_, fun k => ?_, fun k b => ?_, ?_⟩
  · rw [hrest.interest, hmodify]
    split <;> rfl
  · rw [hrest.handle, hmodify]
    split <;> rfl
  · rw [hrest.index, hmodify]
    split <;> rfl
  · rw [hrest.revents, hmodify, List.any_cons, hh]
    change (_ || _ && l.any fun pfd => p.eventHandlerMap pfd.fd == some k && _) = _
    by_cases hk : k = h
    · subst hk
      rw [if_pos rfl, getLsbD_setREvents]
      simp [Bool.and_or_distrib_left, Bool.or_assoc]
    · rw [if_neg hk]
      simp [beq_eq_false_iff_ne.mpr (Ne.symm hk)]
  · rw [hrest.returned, List.filterMap_cons, if_pos (by simpa using hpfd), hh]
    rfl

theorem waitLoop_spec (hmap : ∀ pfd ∈ l, (p.eventHandlerMap pfd.fd).isSome = true)
    (hn : n < 0 ∨ n = l.countP (·.revents != 0)) :
    ∃ p' res, waitLoop l n p = some (p', res) ∧ Stored l p p' res := by
  induction l generalizing n p with
  | nil => exact ⟨p, [], rfl, .quiet rfl⟩
  | cons pfd l ih =>
      unfold waitLoop
      by_cases hpfd : pfd.revents = 0
      · have hcount : (pfd :: l).countP (·.revents != 0) = l.countP (·.revents != 0) := by
          simp [hpfd]
        rw [if_neg (by simp [hpfd])]
        split
        · rename_i hzero
          refine ⟨p, [], rfl, Stored.skip (.quiet ?_) hpfd⟩
          omega
        · obtain ⟨p', res, hloop, hstored⟩ := ih (n := n) (fun e he => hmap e (by simp [he]))
            (by omega)
          exact ⟨p', res, hloop, hstored.skip hpfd⟩
      · have hcount : (pfd :: l).countP (·.revents != 0) = l.countP (·.revents != 0) + 1 :=
          List.countP_cons_of_pos (bne_iff_ne.mpr hpfd)
        obtain ⟨h, hh⟩ := Option.isSome_iff_exists.mp (hmap pfd (by simp))
        rw [if_pos (bne_iff_ne.mpr hpfd), hh, Option.bind_some]
        dsimp only
        split
        · rename_i hzero
          refine ⟨_, _, rfl, Stored.store hpfd hh (.quiet ?_)⟩
          omega
        · obtain ⟨p', res, hloop, hstored⟩ := ih
            (p := p.modifyHandler h (·.setREvents (pfd.revents.signExtend 32))) (n := n - 1)
            (fun e he => hmap e (by simp [he])) (by omega)
          refine ⟨p', h :: res, ?_, hstored.store hpfd hh⟩
          rw [hloop]
          rfl


omit [DecidableEq η] in
theorem poll_eq (res : PollResult) :
    (p.poll res).2 = { p with fds := p.fds.map res.apply } ∧
      ((p.poll res).1 < 0 ∨ (p.poll res).1 = (p.fds.map res.apply).countP (·.revents != 0)) := by
  cases res with
  | failed =>
      have hid : p.fds.map (PollResult.apply .failed) = p.fds := List.map_id _
      rw [hid]
      exact ⟨rfl, .inl (Int.negSucc_lt_zero 0)⟩
  | ready revents => exact ⟨rfl, .inr rfl⟩

/-- What a call of `Wait` does. -/
structure Waited (res : PollResult) (p p' : Pollpoller η) (ess : List η) : Prop where
  wf : p'.Wf
  interest : ∀ k, (p'.handler k).toEventHandler = (p.handler k).toEventHandler
  handle : ∀ k, (p'.handler k).handle = (p.handler k).handle
  index : ∀ k, (p'.handler k).index = (p.handler k).index
  registered : ∀ k, p'.Registered k ↔ p.Registered k
  view : ∀ k, p'.view k = (p.view k).map res.apply
  revents : ∀ k b, (p'.handler k).revents.getLsbD b
    = ((p.handler k).revents.getLsbD b ||
        decide (b < 8) && (p'.view k).any fun pfd => pfd.revents.getLsbD b)
  returned : ∀ k, k ∈ ess ↔ (p'.view k).any (·.revents != 0) = true
  nodup : ess.Nodup

/-- Whether a handler has an entry with a property is seen in its own entry. -/
theorem Wf.any_fds (hwf : p.Wf) (g : PollFd → Bool) :
    (p.fds.any fun pfd => p.eventHandlerMap pfd.fd == some k && g pfd) = (p.view k).any g := by
  rw [Bool.eq_iff_iff, List.any_eq_true, Option.any_eq_true]
  constructor
  · rintro ⟨pfd, hmem, hpfd⟩
    rw [Bool.and_eq_true, beq_iff_eq] at hpfd
    obtain ⟨n, hn⟩ := List.getElem?_of_mem hmem
    obtain ⟨k', hk', hreg, -, hindex⟩ := hwf.handler_of_entry hn
    obtain rfl : k' = k := Option.some.inj (hk'.symm.trans hpfd.1)
    refine ⟨pfd, ?_, hpfd.2⟩
    rw [view_of_registered hreg, entry, hindex, hn]
  · rintro ⟨pfd, hview, hpfd⟩
    obtain ⟨hreg, hentry⟩ := Option.ite_none_right_eq_some.mp hview
    obtain ⟨pfd', hpfd', hfd⟩ := hwf.entry_of_registered hreg
    obtain rfl : pfd' = pfd := Option.some.inj (hpfd'.symm.trans hentry)
    refine ⟨pfd', List.mem_of_getElem? hpfd', ?_⟩
    rw [hfd, Bool.and_eq_true, beq_iff_eq]
    exact ⟨hreg, hpfd⟩

omit [DecidableEq η] in
/-- No descriptor has two entries. -/
theorem Wf.pairwise_fds (hwf : p.Wf) : p.fds.Pairwise fun e e' => e.fd ≠ e'.fd := by
  rw [List.pairwise_iff_getElem]
  intro i j hi hj hlt hfd
  have hplace := hwf.places.find (List.getElem?_eq_getElem hi)
  rw [hfd, hwf.places.find (List.getElem?_eq_getElem hj)] at hplace
  exact hlt.ne (Option.some.inj hplace).symm

omit [DecidableEq η] in
/-- No handler has two entries. -/
theorem Wf.nodup_returned (hwf : p.Wf) (g : PollFd → Bool) :
    (p.fds.filterMap fun pfd => if g pfd then p.eventHandlerMap pfd.fd else none).Nodup := by
  refine List.Pairwise.filterMap _ (fun e e' hne k hk k' hk' => ?_) hwf.pairwise_fds
  rw [Option.ite_none_right_eq_some] at hk hk'
  rintro rfl
  exact hne ((hwf.handle _ _ hk.2).symm.trans (hwf.handle _ _ hk'.2))

omit [DecidableEq η] in
theorem Wf.poll (hwf : p.Wf) (res : PollResult) : Wf { p with fds := p.fds.map res.apply } :=
  ⟨hwf.handle, hwf.index, hwf.places.map fun pfd => res.fd_apply pfd⟩

/-- The loop of `Wait` goes over what `poll` has made of the entries. -/
theorem wait_stored (hwf : p.Wf) (res : PollResult) :
    ∃ p' ess, p.wait res = some (p', ess) ∧
      Stored (p.fds.map res.apply) { p with fds := p.fds.map res.apply } p' ess := by
  obtain ⟨hpoll, hn⟩ := p.poll_eq res
  have hmap : ∀ pfd ∈ p.fds.map res.apply, (p.eventHandlerMap pfd.fd).isSome = true := by
    intro pfd hmem
    obtain ⟨n, hn⟩ := List.getElem?_of_mem hmem
    obtain ⟨k, hk, -⟩ := (hwf.poll res).handler_of_entry hn
    exact Option.isSome_iff_exists.mpr ⟨k, hk⟩
  obtain ⟨p', ess, hloop, hstored⟩ :=
    waitLoop_spec (p := { p with fds := p.fds.map res.apply }) hmap hn
  refine ⟨p', ess, ?_, hstored⟩
  unfold wait
  dsimp only
  rw [hpoll]
  exact hloop

theorem wait_spec (hwf : p.Wf) (res : PollResult) :
    ∃ p' ess, p.wait res = some (p', ess) ∧ Waited res p p' ess := by
  have hwf₁ := hwf.poll res
  have hview₁ : ∀ k, view { p with fds := p.fds.map res.apply } k = (p.view k).map res.apply := by
    intro k
    have hreg : Registered { p with fds := p.fds.map res.apply } k ↔ p.Registered k := Iff.rfl
    unfold view
    rw [if_congr hreg rfl rfl]
    split
    · exact List.getElem?_map
    · rfl
  obtain ⟨p', ess, hwait, hstored⟩ := wait_stored hwf res
  obtain ⟨hwf', hreg, hview⟩ := hwf₁.congr hstored.fds hstored.eventHandlerMap hstored.handle
    hstored.index
  refine ⟨p', ess, hwait, hwf', hstored.interest, hstored.handle, hstored.index, hreg, fun k => ?_,
    fun k b => ?_, fun k => ?_, ?_⟩
  · rw [hview, hview₁]
  · rw [hstored.revents, hview, ← hwf₁.any_fds]
  · rw [hview, ← hwf₁.any_fds, hstored.returned, List.mem_filterMap, List.any_eq_true]
    refine exists_congr fun pfd => and_congr_right fun _ => ?_
    rw [Option.ite_none_right_eq_some, Bool.and_eq_true, beq_iff_eq, and_comm]
  · rw [hstored.returned]
    exact hwf₁.nodup_returned (·.revents != 0)

end Wait

end Pollpoller

end QGServer
