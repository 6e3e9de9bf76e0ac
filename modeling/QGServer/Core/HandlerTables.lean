-- SUMMARY: The handler map of an event loop and the table of its poller: one entry for each registered handler, and what Wait returns.
import QGServer.Core.Dispatch

/-!
# Handler tables

`EventLoop::registerHandler`, `updateHandler` and `removeHandler` with the poller
below them. A handler is constructed once, with a descriptor and an interest; the
same descriptor may get another handler when the first one is removed.

A call of `poll` that fails leaves the entries as they are, and `Wait` goes over
them all the same.
-/

namespace QGServer

/-- An event loop with its `Pollpoller`. -/
structure HandlerTables (η : Type*) where
  handlerMap : Nat → Option η
  poller : Pollpoller η

inductive TableCall (η : Type*) where
  | registerHandler (h : η)
  | changeInterest (h : η) (change : InterestChange)
  | removeHandler (h : η)
  | wait (res : PollResult)

namespace HandlerTables

variable {η : Type*} [DecidableEq η]

/-! ## Functions -/

/-- `emplace` of a map: it keeps what is there. -/
def emplace (fd : Nat) (h : η) (map : Nat → Option η) : Nat → Option η :=
  if (map fd).isNone then Function.update map fd (some h) else map

def registerHandler (h : η) (t : HandlerTables η) : Option (HandlerTables η) :=
  let handlerMap := emplace (t.poller.handler h).handle h t.handlerMap
  (t.poller.registerHandler h).map fun p => { handlerMap := handlerMap, poller := p }

/-- A change of interest with the `update` at its end. -/
def changeInterest (h : η) (change : InterestChange) (t : HandlerTables η) :
    Option (HandlerTables η) :=
  if (t.handlerMap (t.poller.handler h).handle).isSome then
    (t.poller.changeInterest h change.apply).map fun p => { t with poller := p }
  else none

def removeHandler (h : η) (t : HandlerTables η) : Option (HandlerTables η) :=
  if (t.handlerMap (t.poller.handler h).handle).isSome then
    let handlerMap := Function.update t.handlerMap (t.poller.handler h).handle none
    (t.poller.removeHandler h).map fun p => { handlerMap := handlerMap, poller := p }
  else none

def step (t : HandlerTables η) : TableCall η → Option (HandlerTables η)
  | .registerHandler h => t.registerHandler h
  | .changeInterest h change => t.changeInterest h change
  | .removeHandler h => t.removeHandler h
  | .wait res => (t.poller.wait res).map fun (p, _) => { t with poller := p }

/-- No handler is registered. They are constructed with the descriptors `fds` and the
    interest `ie`. -/
def start (fds : η → Nat) (ie : η → Events) : HandlerTables η :=
  { handlerMap := fun _ => none
    poller := { fds := [], eventHandlerMap := fun _ => none
                handler := fun h => { PolledHandler.new (fds h) with ievents := ie h } } }

/-! ## Tables that agree -/

/-- The loop finds the handler under its descriptor. -/
def Registered (t : HandlerTables η) (h : η) : Prop :=
  t.handlerMap (t.poller.handler h).handle = some h

/-- A call that the program may make: it registers a fresh handler on a descriptor that
    has none, changes the interest of a registered one, or removes a registered one whose
    entry has no event. -/
def Allowed (t : HandlerTables η) : TableCall η → Prop
  | .registerHandler h =>
    (t.poller.handler h).index < 0 ∧ t.handlerMap (t.poller.handler h).handle = none
  | .changeInterest h _ => t.Registered h
  | .removeHandler h => t.Registered h ∧ (t.poller.entry h).map PollFd.revents = some 0
  | .wait _ => True

instance (t : HandlerTables η) (h : η) : Decidable (t.Registered h) :=
  inferInstanceAs (Decidable (_ = _))

instance (t : HandlerTables η) : ∀ c : TableCall η, Decidable (t.Allowed c)
  | .registerHandler _ => inferInstanceAs (Decidable (_ ∧ _))
  | .changeInterest _ _ => inferInstanceAs (Decidable (_ = _))
  | .removeHandler h => inferInstanceAs (Decidable (t.Registered h ∧ _))
  | .wait _ => .isTrue trivial

/-- Only bits of `kEventMask` are on. -/
def Masked (ie : Events) : Prop := ie &&& kEventMask = ie

/-- The entry `pfd` of a handler: it is at the index of the handler, with its descriptor
    and its interest. -/
structure EntryOf (t : HandlerTables η) (h : η) (pfd : PollFd) : Prop where
  index : 0 ≤ (t.poller.handler h).index
  place : t.poller.fds[(t.poller.handler h).index.toNat]? = some pfd
  fd : pfd.fd = (t.poller.handler h).handle
  /-- The field is a `short`. -/
  events : pfd.events = (t.poller.handler h).ievents.setWidth 16
  exact : Masked (t.poller.handler h).ievents →
    pfd.events.toInt = (t.poller.handler h).ievents.toNat

/-- The same descriptors are in the two maps and in the vector, there once each, and
    every registered handler has its entry. -/
structure Agree (t : HandlerTables η) : Prop where
  keys : ∀ fd, (t.handlerMap fd).isSome = true ↔ (t.poller.eventHandlerMap fd).isSome = true
  fds : ∀ fd, (t.poller.eventHandlerMap fd).isSome = true ↔ fd ∈ t.poller.fds.map PollFd.fd
  nodup : (t.poller.fds.map PollFd.fd).Nodup
  handlers : ∀ fd h, t.handlerMap fd = some h →
    t.Registered h ∧ (t.poller.handler h).handle = fd ∧ t.poller.eventHandlerMap fd = some h ∧
      ∃ pfd, t.EntryOf h pfd

/-- What the calls keep. -/
structure Consistent (t : HandlerTables η) : Prop where
  wf : t.poller.Wf
  map : t.handlerMap = t.poller.eventHandlerMap
  events : ∀ h pfd, t.poller.view h = some pfd →
    pfd.events = (t.poller.handler h).ievents.setWidth 16

section Tables

variable {t t' : HandlerTables η} {h k : η}

theorem consistent_start (fds : η → Nat) (ie : η → Events) : Consistent (start fds ie) := by
  have hview : ∀ h, (start fds ie).poller.view h = none :=
    fun h => if_neg fun hreg => Option.some_ne_none h hreg.symm
  refine ⟨⟨fun _ _ hh => ?_, fun _ _ hh => ?_, Places.exact_nil⟩, rfl, fun h pfd hpfd => ?_⟩
  · cases hh
  · cases hh
  · rw [hview] at hpfd
    cases hpfd

theorem Consistent.registered_iff (hs : t.Consistent) :
    t.Registered h ↔ t.poller.Registered h := by
  unfold Registered Pollpoller.Registered
  rw [hs.map]

theorem Consistent.entryOf (hs : t.Consistent) (hreg : t.poller.Registered h) :
    ∃ pfd, t.EntryOf h pfd := by
  obtain ⟨pfd, hpfd, hfd⟩ := hs.wf.entry_of_registered hreg
  have hevents := hs.events h pfd ((Pollpoller.view_of_registered hreg).trans hpfd)
  refine ⟨pfd, hs.wf.index _ _ hreg, hpfd, hfd, hevents, fun hmask => ?_⟩
  have hle : (t.poller.handler h).ievents.toNat ≤ 255 := by
    unfold Masked at hmask
    rw [← hmask, BitVec.toNat_and]
    exact Nat.and_le_right
  have hsame : ((t.poller.handler h).ievents.setWidth 16).toNat
      = (t.poller.handler h).ievents.toNat := by
    rw [BitVec.toNat_setWidth]
    exact Nat.mod_eq_of_lt (by omega)
  rw [hevents, BitVec.toInt_eq_toNat_of_lt (by omega), hsame]

theorem Consistent.agree (hs : t.Consistent) : t.Agree := by
  refine ⟨fun fd => by rw [hs.map], fun fd => ?_, ?_, fun fd h hmap => ?_⟩
  · rw [List.mem_map, Option.isSome_iff_exists]
    constructor
    · rintro ⟨h, hmap⟩
      obtain ⟨hreg, rfl⟩ := hs.wf.mapped_iff.mp hmap
      obtain ⟨pfd, hpfd, hfd⟩ := hs.wf.entry_of_registered hreg
      exact ⟨pfd, List.mem_of_getElem? hpfd, hfd⟩
    · rintro ⟨pfd, hmem, rfl⟩
      obtain ⟨n, hn⟩ := List.getElem?_of_mem hmem
      obtain ⟨h, hmap, -⟩ := hs.wf.handler_of_entry hn
      exact ⟨h, hmap⟩
  · exact List.pairwise_map.mpr hs.wf.pairwise_fds
  · rw [hs.map] at hmap
    obtain ⟨hreg, hhandle⟩ := hs.wf.mapped_iff.mp hmap
    exact ⟨hs.registered_iff.mpr hreg, hhandle, hmap, hs.entryOf hreg⟩

/-! ## Calls -/

/-- A call for the handler `h` keeps the entries of the others, and its own has its
    interest. -/
theorem Consistent.of_changes (hs : t.Consistent)
    (hchanges : Pollpoller.Changes h t.poller t'.poller)
    (hmap : t'.handlerMap = t'.poller.eventHandlerMap)
    (hself : ∀ pfd, t'.poller.view h = some pfd →
      pfd.events = (t'.poller.handler h).ievents.setWidth 16) : t'.Consistent := by
  refine ⟨hchanges.wf, hmap, fun k pfd hpfd => ?_⟩
  by_cases hk : k = h
  · subst hk
    exact hself pfd hpfd
  · rw [hchanges.view k hk] at hpfd
    rw [hchanges.interest k hk]
    exact hs.events k pfd hpfd

theorem consistent_registerHandler (hs : t.Consistent) (hindex : (t.poller.handler h).index < 0)
    (hfresh : t.handlerMap (t.poller.handler h).handle = none) :
    ∃ t', t.registerHandler h = some t' ∧ t'.Consistent ∧ t'.Registered h := by
  have hfresh' := hfresh
  rw [hs.map] at hfresh'
  obtain ⟨p', hp', hchanges, hinterest, hview⟩ :=
    Pollpoller.changes_registerHandler hs.wf hfresh' hindex
  have hmap : p'.eventHandlerMap =
      Function.update t.poller.eventHandlerMap (t.poller.handler h).handle (some h) := by
    unfold Pollpoller.registerHandler at hp'
    rw [if_pos hindex] at hp'
    obtain rfl := Option.some.inj hp'
    rfl
  have hconsistent : Consistent
      { handlerMap := emplace (t.poller.handler h).handle h t.handlerMap, poller := p' } := by
    apply hs.of_changes hchanges
    · unfold emplace
      rw [hfresh, hs.map]
      exact hmap.symm
    · intro pfd hpfd
      rw [hview] at hpfd
      obtain rfl := Option.some.inj hpfd
      rw [hinterest]
  refine ⟨_, congrArg (Option.map _) hp', hconsistent, ?_⟩
  exact hconsistent.registered_iff.mpr (Pollpoller.registered_of_view hview)

theorem consistent_changeInterest (hs : t.Consistent) (hreg : t.Registered h)
    (change : InterestChange) :
    ∃ t', t.changeInterest h change = some t' ∧ t'.Consistent := by
  have hreg' := hs.registered_iff.mp hreg
  obtain ⟨p', hp', hchanges, hinterest, hview⟩ :=
    Pollpoller.changes_changeInterest hs.wf hreg' change.apply
  have hsome : (t.handlerMap (t.poller.handler h).handle).isSome = true :=
    Option.isSome_iff_exists.mpr ⟨h, hreg⟩
  have hregs : ∀ k, p'.Registered k ↔ t.poller.Registered k := by
    intro k
    by_cases hk : k = h
    · subst hk
      exact iff_of_true (Pollpoller.registered_of_view hview) hreg'
    · exact hchanges.registered k hk
  refine ⟨{ t with poller := p' }, ?_, hs.of_changes hchanges ?_ fun pfd hpfd => ?_⟩
  · unfold changeInterest
    rw [if_pos hsome, hp']
    rfl
  · exact hs.map.trans (hs.wf.map_ext hchanges.wf hchanges.handle hregs).symm
  · rw [hview] at hpfd
    obtain rfl := Option.some.inj hpfd
    rw [hinterest]

/-- What a removal leaves alone: everything that is recorded for the other handlers. -/
structure Removed (h : η) (t t' : HandlerTables η) : Prop where
  registered : ∀ k, k ≠ h → (t'.Registered k ↔ t.Registered k)
  entry : ∀ k, k ≠ h → t.Registered k → t'.poller.entry k = t.poller.entry k
  handle : ∀ k, (t'.poller.handler k).handle = (t.poller.handler k).handle
  interest : ∀ k, k ≠ h → (t'.poller.handler k).toEventHandler = (t.poller.handler k).toEventHandler
  gone : ¬t'.Registered h

theorem consistent_removeHandler (hs : t.Consistent) (hreg : t.Registered h)
    (hclean : (t.poller.entry h).map PollFd.revents = some 0) :
    ∃ t', t.removeHandler h = some t' ∧ t'.Consistent ∧ Removed h t t' := by
  have hreg' := hs.registered_iff.mp hreg
  have hindex := hs.wf.index _ _ hreg'
  have hlt := hs.wf.places.lt_length (Pollpoller.place_of_registered hreg')
  have hremovable : t.poller.Removable h := ⟨⟨hindex, (Int.toNat_lt hindex).mp hlt⟩, hreg', hclean⟩
  obtain ⟨p', hp'⟩ := Option.isSome_iff_exists.mp (Pollpoller.removeHandler_isSome hs.wf hremovable)
  obtain ⟨hchanges, hsame, hgone⟩ := Pollpoller.changes_removeHandler hs.wf hp'
  have hmap : p'.eventHandlerMap =
      Function.update t.poller.eventHandlerMap (t.poller.handler h).handle none := by
    unfold Pollpoller.removeHandler at hp'
    rw [if_pos hremovable] at hp'
    obtain ⟨back, -, hp'⟩ := Option.bind_eq_some_iff.mp hp'
    obtain ⟨last, -, rfl⟩ := Option.map_eq_some_iff.mp hp'
    rfl
  have hsome : (t.handlerMap (t.poller.handler h).handle).isSome = true :=
    Option.isSome_iff_exists.mpr ⟨h, hreg⟩
  have hconsistent : Consistent
      { handlerMap := Function.update t.handlerMap (t.poller.handler h).handle none
        poller := p' } := by
    apply hs.of_changes hchanges
    · rw [hs.map]
      exact hmap.symm
    · intro pfd hpfd
      exact absurd (Pollpoller.registered_of_view hpfd) hgone
  refine ⟨_, ?_, hconsistent, fun k hk => ?_, fun k hk hkreg => ?_, hchanges.handle,
    hchanges.interest, mt hconsistent.registered_iff.mp hgone⟩
  · unfold removeHandler
    rw [if_pos hsome, hp']
    rfl
  · rw [hconsistent.registered_iff, hs.registered_iff]
    exact hchanges.registered k hk
  · have hkreg' := hs.registered_iff.mp hkreg
    rw [← Pollpoller.view_of_registered hkreg', ← hchanges.view k hk]
    exact (Pollpoller.view_of_registered ((hchanges.registered k hk).mpr hkreg')).symm

theorem consistent_wait (hs : t.Consistent) (res : PollResult) :
    ∃ t', step t (.wait res) = some t' ∧ t'.Consistent := by
  obtain ⟨p', ess, hwait, hspec⟩ := Pollpoller.wait_spec hs.wf res
  have hstep : step t (.wait res) = some { t with poller := p' } := congrArg (Option.map _) hwait
  refine ⟨_, hstep, hspec.wf, ?_, fun k pfd hpfd => ?_⟩
  · exact hs.map.trans (hs.wf.map_ext hspec.wf hspec.handle hspec.registered).symm
  · rw [hspec.view] at hpfd
    obtain ⟨old, hold, rfl⟩ := Option.map_eq_some_iff.mp hpfd
    rw [PollResult.events_apply, hspec.interest]
    exact hs.events k old hold

/-- An allowed call is possible: no assertion fails. -/
theorem consistent_step (t : HandlerTables η) (c : TableCall η) (hs : t.Consistent)
    (hallowed : t.Allowed c) : ∃ t', step t c = some t' ∧ t'.Consistent := by
  cases c with
  | registerHandler h =>
      obtain ⟨t', ht', hs', -⟩ := consistent_registerHandler hs hallowed.1 hallowed.2
      exact ⟨t', ht', hs'⟩
  | changeInterest h change => exact consistent_changeInterest hs hallowed change
  | removeHandler h =>
      obtain ⟨t', ht', hs', -⟩ := consistent_removeHandler hs hallowed.1 hallowed.2
      exact ⟨t', ht', hs'⟩
  | wait res => exact consistent_wait hs res

/-! ## The interest -/

theorem masked_and {x : Events} (h : Masked x) (y : Events) : Masked (x &&& y) := by
  unfold Masked at *
  rw [BitVec.and_assoc, BitVec.and_comm y, ← BitVec.and_assoc, h]

theorem masked_or {x y : Events} (hx : Masked x) (hy : Masked y) : Masked (x ||| y) := by
  apply BitVec.eq_of_getLsbD_eq
  intro i _
  have hxi := congrArg (fun z => z.getLsbD i) hx
  have hyi := congrArg (fun z => z.getLsbD i) hy
  simp only [BitVec.getLsbD_and] at hxi hyi
  rw [BitVec.getLsbD_and, BitVec.getLsbD_or, Bool.and_or_distrib_right, hxi, hyi]

theorem masked_setIEvents {x : EventHandler} (h : Masked x.ievents) (iev : Events) :
    Masked (x.setIEvents iev).ievents := by
  apply masked_or h
  rw [BitVec.and_comm]
  exact masked_and BitVec.and_self iev

theorem masked_apply (change : InterestChange) {x : EventHandler} (h : Masked x.ievents) :
    Masked (change.apply x).ievents := by
  cases change with
  | enableRead => exact masked_setIEvents h _
  | enableWrite => exact masked_setIEvents h _
  | enableError => exact masked_setIEvents h _
  | enableAll => exact masked_setIEvents h _
  | disableRead => exact masked_and h _
  | disableWrite => exact masked_and h _
  | disableError => exact masked_and h _
  | disableAll => exact BitVec.zero_and

/-- A call leaves the interest of a handler as it is, or makes one change. -/
theorem interest_step {c : TableCall η} (hs : t.Consistent) (hallowed : t.Allowed c)
    (hstep : step t c = some t') (k : η) :
    (t'.poller.handler k).toEventHandler = (t.poller.handler k).toEventHandler ∨
      ∃ change : InterestChange, (t'.poller.handler k).toEventHandler =
        change.apply (t.poller.handler k).toEventHandler := by
  cases c with
  | registerHandler h =>
      obtain ⟨p', hp', rfl⟩ := Option.map_eq_some_iff.mp hstep
      obtain ⟨n, hn⟩ := Pollpoller.sameButIndex_registerHandler hp' k
      left
      dsimp only
      rw [hn]
  | changeInterest h change =>
      obtain ⟨p', hp', hchanges, hself, -⟩ :=
        Pollpoller.changes_changeInterest hs.wf (hs.registered_iff.mp hallowed) change.apply
      obtain ⟨q, hq, rfl⟩ := Option.map_eq_some_iff.mp (Option.ite_none_right_eq_some.mp hstep).2
      obtain rfl := Option.some.inj (hp'.symm.trans hq)
      by_cases hk : k = h
      · subst hk
        exact .inr ⟨change, hself⟩
      · exact .inl (hchanges.interest k hk)
  | removeHandler h =>
      obtain ⟨p', hp', rfl⟩ := Option.map_eq_some_iff.mp (Option.ite_none_right_eq_some.mp hstep).2
      obtain ⟨n, hn⟩ := Pollpoller.sameButIndex_removeHandler hp' k
      left
      dsimp only
      rw [hn]
  | wait res =>
      obtain ⟨p', ess, hwait, hspec⟩ := Pollpoller.wait_spec hs.wf res
      obtain ⟨⟨q, ess'⟩, hq, rfl⟩ := Option.map_eq_some_iff.mp hstep
      cases hwait.symm.trans hq
      exact .inl (hspec.interest k)

end Tables

/-! ## Runs -/

section Run

variable {fds : η → Nat} {ie : η → Events} {calls : List (TableCall η)} {t : HandlerTables η}

theorem consistent_of_along (hallowed : Runs.Along step Allowed (start fds ie) calls) :
    ∃ t, Runs.exec step (start fds ie) calls = some t ∧ t.Consistent :=
  Runs.exec_of_along consistent_step (consistent_start fds ie) hallowed

theorem masked_of_along (hallowed : Runs.Along step Allowed (start fds ie) calls)
    (hrun : Runs.exec step (start fds ie) calls = some t) (hie : ∀ h, Masked (ie h)) (h : η) :
    Masked (t.poller.handler h).ievents := by
  suffices hboth : t.Consistent ∧ ∀ k, Masked (t.poller.handler k).ievents from hboth.2 h
  have hkeep : ∀ (s : HandlerTables η) (c : TableCall η) (s' : HandlerTables η),
      (s.Consistent ∧ ∀ k, Masked (s.poller.handler k).ievents) → s.Allowed c →
        step s c = some s' → s'.Consistent ∧ ∀ k, Masked (s'.poller.handler k).ievents := by
    rintro s c s' ⟨hs, hmasked⟩ hc hstep
    obtain ⟨u, hu, hconsistent⟩ := consistent_step s c hs hc
    obtain rfl := Option.some.inj (hu.symm.trans hstep)
    refine ⟨hconsistent, fun k => ?_⟩
    obtain hsame | ⟨change, hchange⟩ := interest_step hs hc hstep k
    · rw [hsame]
      exact hmasked k
    · rw [hchange]
      exact masked_apply change (hmasked k)
  exact Runs.exec_invariant hkeep ⟨consistent_start fds ie, hie⟩ hallowed hrun

/-- No assertion fails in a run of allowed calls, and the tables agree after it. A handler
    that is registered then has its entry, and a removal changes nothing that is recorded
    for another handler. -/
theorem tables_agree (hallowed : Runs.Along step Allowed (start fds ie) calls) :
    ∃ t, Runs.exec step (start fds ie) calls = some t ∧ t.Agree ∧
      ((∀ h, Masked (ie h)) → ∀ h, Masked (t.poller.handler h).ievents) ∧
      (∀ h, t.Allowed (.registerHandler h) →
        ∃ t', step t (.registerHandler h) = some t' ∧ t'.Agree ∧ t'.Registered h ∧
          ∃ pfd, t'.EntryOf h pfd) ∧
      ∀ h, t.Allowed (.removeHandler h) →
        ∃ t', step t (.removeHandler h) = some t' ∧ t'.Agree ∧ Removed h t t' := by
  obtain ⟨t, hrun, hconsistent⟩ := consistent_of_along hallowed
  refine ⟨t, hrun, hconsistent.agree, masked_of_along hallowed hrun, fun h hregister => ?_,
    fun h hremove => ?_⟩
  · obtain ⟨t', ht', hs', hreg⟩ :=
      consistent_registerHandler hconsistent hregister.1 hregister.2
    exact ⟨t', ht', hs'.agree, hreg, hs'.entryOf (hs'.registered_iff.mp hreg)⟩
  · obtain ⟨t', ht', hs', hremoved⟩ := consistent_removeHandler hconsistent hremove.1 hremove.2
    exact ⟨t', ht', hs'.agree, hremoved⟩

end Run

/-- Two handlers, the second one constructed on the descriptor that the first one has
    left. -/
def twoHandlers : HandlerTables Bool := start (fun _ => 5) fun _ => kEventNone

def handOver : List (TableCall Bool) :=
  [.registerHandler false, .changeInterest false .enableRead, .removeHandler false,
    .registerHandler true, .changeInterest true .enableAll]

theorem tables_agree_handOver :
    ∃ t, Runs.exec step twoHandlers handOver = some t ∧
      (t.handlerMap 5 = some true ∧ t.poller.fds = [⟨5, 7, 0⟩] ∧ ¬t.Registered false) ∧ t.Agree ∧
      ((∀ _ : Bool, Masked kEventNone) → ∀ h, Masked (t.poller.handler h).ievents) ∧
      (∀ h, t.Allowed (.registerHandler h) →
        ∃ t', step t (.registerHandler h) = some t' ∧ t'.Agree ∧ t'.Registered h ∧
          ∃ pfd, t'.EntryOf h pfd) ∧
      ∀ h, t.Allowed (.removeHandler h) →
        ∃ t', step t (.removeHandler h) = some t' ∧ t'.Agree ∧ Removed h t t' := by
  have hallowed : Runs.Along step Allowed (start (fun _ => 5) fun _ => kEventNone) handOver := by
    decide
  obtain ⟨t, hrun, hagree⟩ := tables_agree hallowed
  have hend : (Runs.exec step twoHandlers handOver).any (fun s => decide
      (s.handlerMap 5 = some true ∧ s.poller.fds = [⟨5, 7, 0⟩] ∧ ¬s.Registered false)) = true := by
    decide +kernel
  obtain ⟨s, hs, hvalues⟩ := (Option.any_eq_true _ _).mp hend
  obtain rfl := Option.some.inj (hrun.symm.trans hs)
  exact ⟨t, hrun, of_decide_eq_true hvalues, hagree⟩

/-! ## Wait -/

/-- The handlers whose entries a call of `poll` marks, in the order of the entries. -/
def ready (res : PollResult) (p : Pollpoller η) : List η :=
  match res with
  | .failed => []
  | .ready revents =>
    p.fds.filterMap fun pfd => if revents pfd.fd != 0 then p.eventHandlerMap pfd.fd else none

/-- `Wait` returns the handlers that this call of `poll` marks, each one once. -/
def ReportsReady (res : PollResult) (p : Pollpoller η) : Prop :=
  (∃ p', p.wait res = some (p', ready res p)) ∧ (ready res p).Nodup

omit [DecidableEq η] in
theorem nodup_ready {p : Pollpoller η} (hwf : p.Wf) (res : PollResult) : (ready res p).Nodup := by
  cases res with
  | failed => exact .nil
  | ready revents =>
      refine List.Pairwise.filterMap _ (fun e e' hne k hk k' hk' => ?_) hwf.pairwise_fds
      rw [Option.ite_none_right_eq_some] at hk hk'
      rintro rfl
      exact hne ((hwf.handle _ _ hk.2).symm.trans (hwf.handle _ _ hk'.2))

/-- What `Wait` returns, whether `poll` fails or not. -/
theorem wait_returns {p : Pollpoller η} (hwf : p.Wf) (res : PollResult) :
    ∃ p', p.wait res = some (p', (p.fds.map res.apply).filterMap fun pfd =>
      if pfd.revents != 0 then p.eventHandlerMap pfd.fd else none) := by
  obtain ⟨p', ess, hwait, hstored⟩ := Pollpoller.wait_stored hwf res
  have hess := hstored.returned
  subst hess
  exact ⟨p', hwait⟩

theorem reportsReady_iff {p : Pollpoller η} (hwf : p.Wf) (res : PollResult) :
    ReportsReady res p ↔ (res = .failed → ∀ pfd ∈ p.fds, pfd.revents = 0) := by
  obtain ⟨p', hwait⟩ := wait_returns hwf res
  unfold ReportsReady
  rw [hwait, and_iff_left (nodup_ready hwf res)]
  cases res with
  | ready revents =>
      apply iff_of_true _ fun hfailed => nomatch hfailed
      refine ⟨p', ?_⟩
      rw [List.filterMap_map]
      rfl
  | failed =>
      have hsame : p.fds.map (PollResult.apply .failed) = p.fds := List.map_id _
      rw [hsame]
      constructor
      · rintro ⟨q, hq⟩ _ pfd hmem
        have hnil := congrArg Prod.snd (Option.some.inj hq)
        -- an entry with events has a handler, which would be returned
        obtain ⟨n, hn⟩ := List.getElem?_of_mem hmem
        obtain ⟨h, hmap, -⟩ := hwf.handler_of_entry hn
        have hnone := List.filterMap_eq_nil_iff.mp hnil pfd hmem
        by_contra hevents
        rw [if_pos (bne_iff_ne.mpr hevents), hmap] at hnone
        exact Option.some_ne_none h hnone
      · intro hclean
        refine ⟨p', congrArg (fun ess => some (p', ess)) ?_⟩
        rw [List.filterMap_eq_nil_iff.mpr fun pfd hmem => ?_]
        · rfl
        · rw [hclean rfl pfd hmem]
          rfl

/-- After any calls and any results of `poll`, `Wait` returns the handlers that are ready
    if and only if `poll` does not fail while an entry still has events. -/
theorem wait_reportsReady_iff {fds : η → Nat} {ie : η → Events} {calls : List (TableCall η)}
    {t : HandlerTables η} (hallowed : Runs.Along step Allowed (start fds ie) calls)
    (hrun : Runs.exec step (start fds ie) calls = some t) (res : PollResult) :
    ReportsReady res t.poller ↔ (res = .failed → ∀ pfd ∈ t.poller.fds, pfd.revents = 0) := by
  obtain ⟨u, hu, hconsistent⟩ := consistent_of_along hallowed
  obtain rfl := Option.some.inj (hu.symm.trans hrun)
  exact reportsReady_iff hconsistent.wf res

/-- One handler, interested in reading, for which `poll` reports that it is readable. -/
def readable : List (TableCall Bool) :=
  [.registerHandler false, .changeInterest false .enableRead, .wait (.ready fun _ => POLLIN)]

/-- An update has cleared the entry before `poll` fails. -/
theorem wait_reportsReady_updated :
    ∃ t, Runs.exec step twoHandlers (readable ++ [.changeInterest false .enableWrite]) = some t ∧
      (ReportsReady .failed t.poller ↔
        (PollResult.failed = .failed → ∀ pfd ∈ t.poller.fds, pfd.revents = 0)) := by
  have hallowed : Runs.Along step Allowed twoHandlers
      (readable ++ [.changeInterest false .enableWrite]) := by
    decide
  obtain ⟨t, ht, -⟩ := consistent_of_along hallowed
  exact ⟨t, ht, wait_reportsReady_iff hallowed ht .failed⟩

/-- The next `poll` is interrupted, and the handler is returned once more. -/
theorem not_reportsReady_interrupted :
    ¬ ∀ (calls : List (TableCall Bool)) (t : HandlerTables Bool) (res : PollResult),
        Runs.Along step Allowed twoHandlers calls → Runs.exec step twoHandlers calls = some t →
          ReportsReady res t.poller := by
  intro hall
  have hallowed : Runs.Along step Allowed twoHandlers readable := by decide
  have hrun : (Runs.exec step twoHandlers readable).any
      (fun t => (t.poller.wait .failed).any fun s => decide (s.2 = [false])) = true := by
    decide
  obtain ⟨t, ht, hwait⟩ := (Option.any_eq_true _ _).mp hrun
  obtain ⟨⟨p, ess⟩, hp, hess⟩ := (Option.any_eq_true _ _).mp hwait
  obtain ⟨⟨p', hp'⟩, -⟩ := hall readable t .failed hallowed ht
  cases hp.symm.trans hp'
  exact absurd (of_decide_eq_true hess) (List.cons_ne_nil _ _).symm

end HandlerTables

end QGServer
