-- SUMMARY: The two pollers under the same calls: which events each of them is asked to watch, and when these are the same.
import QGServer.Core.Dispatch
import QGServer.Core.KqueuePoller

/-!
# The two pollers

`Pollpoller` writes the whole interest of a handler into its entry, and
`KqueuePoller` only adds filters for the events that are on; nothing deletes the
filter of an event that is turned off, and `removeHandler` passes over it too.
Also the entry has the bits of `EventMode`, and there `kEventWrite` is not the
bit by which `poll` watches for writing.
-/

namespace QGServer

/-- The bit of `poll` for an event. -/
def EventFilter.bit : EventFilter → PollEvents
  | .read => POLLIN
  | .write => POLLOUT

inductive PollerCall (η : Type*) where
  | registerHandler (h : η)
  | changeInterest (h : η) (change : InterestChange)
  | removeHandler (h : η)

/-- A poller of each kind, each with handlers of its own. -/
structure Pollers (η : Type*) where
  poll : Pollpoller η
  kqueue : KqueuePoller η

namespace Pollers

variable {η : Type*} [DecidableEq η]

/-- Both, if no assertion fails in either. -/
def both (p : Option (Pollpoller η)) (k : Option (KqueuePoller η)) : Option (Pollers η) :=
  p.bind fun p => k.map fun k => ⟨p, k⟩

/-- The same call on both pollers. -/
def step (s : Pollers η) : PollerCall η → Option (Pollers η)
  | .registerHandler h => both (s.poll.registerHandler h) (s.kqueue.registerHandler h)
  | .changeInterest h change =>
    both (s.poll.changeInterest h change.apply) (s.kqueue.changeInterest h change.apply)
  | .removeHandler h => both (s.poll.removeHandler h) (s.kqueue.removeHandler h)

/-- Two pollers without handlers, and handlers on the descriptors `fds`
    constructed with the interest `ie`. -/
def start (fds : η → Nat) (ie : η → Events) : Pollers η :=
  let handler := fun h => { PolledHandler.new (fds h) with ievents := ie h }
  { poll := { fds := [], eventHandlerMap := fun _ => none, handler := handler }
    kqueue := { eventHandlerMap := fun _ => none, events := 0, installed := fun _ _ => false
                handler := handler } }

/-- The table of `Pollpoller` asks for the event on the descriptor. -/
def Requests (p : Pollpoller η) (fd : Nat) (f : EventFilter) : Prop :=
  ∃ pfd ∈ p.fds, pfd.fd = fd ∧ pfd.events &&& f.bit ≠ 0

/-- The two pollers watch the same events, and none of a removed handler. -/
structure SameEvents (s : Pollers η) : Prop where
  same : ∀ fd f, s.kqueue.installed fd f = true ↔ Requests s.poll fd f
  removed : ∀ h f, ¬ s.poll.Registered h →
    s.kqueue.installed (s.poll.handler h).handle f = false ∧
      ¬ Requests s.poll (s.poll.handler h).handle f

omit [DecidableEq η] in
theorem both_eq_some {p : Option (Pollpoller η)} {k : Option (KqueuePoller η)} {s : Pollers η}
    (h : both p k = some s) : p = some s.poll ∧ k = some s.kqueue := by
  obtain ⟨p', hp, h⟩ := Option.bind_eq_some_iff.mp h
  obtain ⟨k', hk, rfl⟩ := Option.map_eq_some_iff.mp h
  exact ⟨hp, hk⟩

/-! ## One call -/

/-- The two pollers agree on the handlers, and the entries have the interest of
    their handlers. -/
structure Synced (fds : η → Nat) (s : Pollers η) : Prop where
  wf : s.poll.Wf
  handle : ∀ h, (s.poll.handler h).handle = fds h ∧ (s.kqueue.handler h).handle = fds h
  interest : ∀ h, (s.kqueue.handler h).toEventHandler = (s.poll.handler h).toEventHandler
  mapped : ∀ h, s.kqueue.eventHandlerMap (fds h) = if s.poll.Registered h then some h else none
  events : ∀ h pfd, s.poll.view h = some pfd →
    pfd.events = (s.poll.handler h).ievents.setWidth 16

/-- A call for the handler `h`: the filters it touches are those of the events
    the handler is interested in afterwards. -/
structure Call (fds : η → Nat) (h : η) (s s' : Pollers η) : Prop where
  synced : Synced fds s'
  changes : Pollpoller.Changes h s.poll s'.poll
  interest : s.poll.Registered h ∨
    (s'.poll.handler h).toEventHandler = (s.poll.handler h).toEventHandler
  installed : ∀ fd f, s'.kqueue.installed fd f =
    if fd = fds h ∧ (s'.poll.handler h).wants f = true then decide (s'.poll.Registered h)
    else s.kqueue.installed fd f

section Step

variable {fds : η → Nat} {s s' : Pollers η} {h : η}

/-- What the calls have in common. -/
theorem Synced.call (hs : Synced fds s) (hfds : Function.Injective fds) {k : KqueuePoller η}
    {add : Bool} (hchanges : Pollpoller.Changes h s.poll s'.poll)
    (hkept : s.poll.Registered h ∨
      (s'.poll.handler h).toEventHandler = (s.poll.handler h).toEventHandler)
    (hevents : ∀ pfd, s'.poll.view h = some pfd →
      pfd.events = (s'.poll.handler h).ievents.setWidth 16)
    (hother : ∀ i, i ≠ h → k.handler i = s.kqueue.handler i)
    (hself : (k.handler h).handle = fds h ∧
      (k.handler h).toEventHandler = (s'.poll.handler h).toEventHandler)
    (hinstalled : k.installed = s.kqueue.installed)
    (hkevents : KqueuePoller.Kevents h add k s'.kqueue)
    (hadd : add = decide (s'.poll.Registered h))
    (hmap : s'.kqueue.eventHandlerMap =
      Function.update s.kqueue.eventHandlerMap (fds h) (if add then some h else none)) :
    Call fds h s s' := by
  have hinterest : ∀ i, (s'.kqueue.handler i).toEventHandler = (s'.poll.handler i).toEventHandler := by
    intro i
    rw [hkevents.handler]
    by_cases hi : i = h
    · rw [hi]
      exact hself.2
    · rw [hother i hi, hs.interest i, hchanges.interest i hi]
  refine ⟨⟨hchanges.wf, fun i => ⟨?_, ?_⟩, hinterest, fun i => ?_, fun i pfd hpfd => ?_⟩,
    hchanges, hkept, fun fd f => ?_⟩
  · rw [hchanges.handle]
    exact (hs.handle i).1
  · rw [hkevents.handler]
    by_cases hi : i = h
    · rw [hi]
      exact hself.1
    · rw [hother i hi]
      exact (hs.handle i).2
  · rw [hmap]
    by_cases hi : i = h
    · rw [hi, Function.update_self, hadd]
      simp only [decide_eq_true_eq]
    · rw [Function.update_of_ne fun heq => hi (hfds heq), hs.mapped i]
      exact if_congr (hchanges.registered i hi).symm rfl rfl
  · by_cases hi : i = h
    · subst hi
      exact hevents pfd hpfd
    · rw [hchanges.view i hi] at hpfd
      rw [hs.events i pfd hpfd, hchanges.interest i hi]
  · have hwants : (k.handler h).wants f = (s'.poll.handler h).wants f := by rw [hself.2]
    rw [hkevents.installed, hself.1, hwants, hinstalled, hadd]

theorem Synced.registerHandler (hs : Synced fds s) (hfds : Function.Injective fds)
    (hp : s.poll.registerHandler h = some s'.poll)
    (hk : s.kqueue.registerHandler h = some s'.kqueue) : Call fds h s s' := by
  obtain ⟨hnone, hkevents, hmap⟩ := KqueuePoller.registerHandler_spec hk
  rw [(hs.handle h).2] at hnone hmap
  rw [hs.mapped h, ite_eq_right_iff] at hnone
  have hreg : ¬ s.poll.Registered h := fun hreg => by cases hnone hreg
  have hfresh : s.poll.eventHandlerMap (s.poll.handler h).handle = none := by
    by_contra hne
    obtain ⟨i, hi⟩ := Option.ne_none_iff_exists'.mp hne
    have hhandle := hs.wf.handle _ i hi
    rw [(hs.handle i).1, (hs.handle h).1] at hhandle
    obtain rfl := hfds hhandle
    exact hreg hi
  have hindex : (s.poll.handler h).index < 0 := by
    unfold Pollpoller.registerHandler at hp
    rw [Option.ite_none_right_eq_some] at hp
    exact hp.1
  obtain ⟨p, hp', hchanges, hsame, hview⟩ :=
    Pollpoller.changes_registerHandler hs.wf hfresh hindex
  obtain rfl := Option.some.inj (hp.symm.trans hp')
  have hreg' : s'.poll.Registered h := Pollpoller.registered_of_view hview
  refine hs.call hfds hchanges (.inr hsame) (fun pfd hpfd => ?_) (fun _ _ => rfl)
    ⟨(hs.handle h).2, ?_⟩ rfl hkevents (decide_eq_true hreg').symm hmap
  · rw [hview] at hpfd
    obtain rfl := Option.some.inj hpfd
    rw [hsame]
  · rw [hs.interest, hsame]

theorem Synced.changeInterest (hs : Synced fds s) (hfds : Function.Injective fds)
    {g : EventHandler → EventHandler} (hp : s.poll.changeInterest h g = some s'.poll)
    (hk : s.kqueue.changeInterest h g = some s'.kqueue) : Call fds h s s' := by
  obtain ⟨hsome, hkevents, hmap⟩ := KqueuePoller.changeInterest_spec hk
  rw [(hs.handle h).2, hs.mapped h, ite_ne_right_iff] at hsome
  have hreg := hsome.1
  obtain ⟨p, hp', hchanges, hself, hview⟩ := Pollpoller.changes_changeInterest hs.wf hreg g
  obtain rfl := Option.some.inj (hp.symm.trans hp')
  have hreg' : s'.poll.Registered h := Pollpoller.registered_of_view hview
  generalize hk₁ : (s.kqueue.modifyHandler h fun x =>
    { x with toEventHandler := g x.toEventHandler }) = k₁ at hkevents
  have hkself : k₁.handler h
      = { s.kqueue.handler h with toEventHandler := g (s.kqueue.handler h).toEventHandler } := by
    rw [← hk₁]
    exact Function.update_self _ _ _
  have hkother : ∀ i, i ≠ h → k₁.handler i = s.kqueue.handler i := by
    intro i hi
    rw [← hk₁]
    exact Function.update_of_ne hi _ _
  have hkinstalled : k₁.installed = s.kqueue.installed := by
    rw [← hk₁]
    rfl
  refine hs.call hfds hchanges (.inl hreg) (fun pfd hpfd => ?_) hkother ⟨?_, ?_⟩ hkinstalled
    hkevents (decide_eq_true hreg').symm ?_
  · rw [hview] at hpfd
    obtain rfl := Option.some.inj hpfd
    rw [hself]
  · rw [hkself]
    exact (hs.handle h).2
  · rw [hkself, hself, hs.interest]
  · rw [hmap, if_pos rfl]
    symm
    rw [Function.update_eq_self_iff, hs.mapped h, if_pos hreg]

theorem Synced.removeHandler (hs : Synced fds s) (hfds : Function.Injective fds)
    (hp : s.poll.removeHandler h = some s'.poll)
    (hk : s.kqueue.removeHandler h = some s'.kqueue) : Call fds h s s' := by
  obtain ⟨hkevents, hmap⟩ := KqueuePoller.removeHandler_spec hk
  rw [(hs.handle h).2] at hmap
  obtain ⟨hchanges, hsame, hreg'⟩ := Pollpoller.changes_removeHandler hs.wf hp
  refine hs.call hfds hchanges (.inr hsame) (fun pfd hpfd => ?_) (fun _ _ => rfl)
    ⟨(hs.handle h).2, ?_⟩ rfl hkevents (decide_eq_false hreg').symm hmap
  · exact absurd (Pollpoller.registered_of_view hpfd) hreg'
  · rw [hs.interest, hsame]

/-- A call that both pollers take is a call for its handler. -/
theorem call_of_step (hfds : Function.Injective fds) (hs : Synced fds s) {c : PollerCall η}
    (hstep : step s c = some s') : ∃ h, Call fds h s s' := by
  cases c with
  | registerHandler h =>
      obtain ⟨hp, hk⟩ := both_eq_some hstep
      exact ⟨h, hs.registerHandler hfds hp hk⟩
  | changeInterest h change =>
      obtain ⟨hp, hk⟩ := both_eq_some hstep
      exact ⟨h, hs.changeInterest hfds hp hk⟩
  | removeHandler h =>
      obtain ⟨hp, hk⟩ := both_eq_some hstep
      exact ⟨h, hs.removeHandler hfds hp hk⟩

end Step

/-! ## Runs -/

/-- At some time in the run the handler was registered and interested in the
    event. -/
def Watched (fds : η → Nat) (ie : η → Events) (calls : List (PollerCall η)) (h : η)
    (f : EventFilter) : Prop :=
  Runs.Visits step (start fds ie) calls fun s =>
    s.poll.Registered h ∧ (s.poll.handler h).wants f = true

/-- Where the filters come from: of the events that a handler once watched, those
    it watches and those that were turned off. -/
structure Filters (fds : η → Nat) (ie : η → Events) (calls : List (PollerCall η))
    (s : Pollers η) : Prop where
  synced : Synced fds s
  installed : ∀ h f, s.kqueue.installed (fds h) f = true ↔
    Watched fds ie calls h f ∧ (s.poll.Registered h ∨ (s.poll.handler h).wants f = false)
  others : ∀ fd f, s.kqueue.installed fd f = true → ∃ h, fds h = fd

section Run

variable {fds : η → Nat} {ie : η → Events} {calls : List (PollerCall η)} {s : Pollers η}

omit [DecidableEq η] in
theorem not_registered_start (h : η) : ¬ (start fds ie).poll.Registered h := by
  intro hreg
  unfold Pollpoller.Registered at hreg
  cases hreg

theorem synced_start : Synced fds (start fds ie) := by
  have hwf : (start fds ie).poll.Wf := by
    refine ⟨fun fd h hh => ?_, fun fd h hh => ?_, Places.exact_nil⟩
    · cases hh
    · cases hh
  refine ⟨hwf, fun h => ⟨rfl, rfl⟩, fun h => rfl, fun h => ?_, fun h pfd hpfd => ?_⟩
  · rw [if_neg (not_registered_start h)]
    rfl
  · unfold Pollpoller.view at hpfd
    rw [if_neg (not_registered_start h)] at hpfd
    cases hpfd

theorem filters_start : Filters fds ie [] (start fds ie) := by
  refine ⟨synced_start, fun h f => ?_, fun fd f hf => ?_⟩
  · unfold Watched
    rw [Runs.visits_nil]
    exact iff_of_false Bool.false_ne_true fun hw => not_registered_start h hw.1.1
  · cases hf

theorem filters_of_exec (hfds : Function.Injective fds)
    (hrun : Runs.exec step (start fds ie) calls = some s) : Filters fds ie calls s := by
  refine Runs.exec_induction (Filters fds ie) filters_start (fun calls c t u ht hexec hstep => ?_)
    hrun
  obtain ⟨h, hcall⟩ := call_of_step hfds ht.synced hstep
  have hwatched : ∀ i f, Watched fds ie (calls ++ [c]) i f ↔ Watched fds ie calls i f ∨
      u.poll.Registered i ∧ (u.poll.handler i).wants f = true :=
    fun i f => Runs.visits_concat hexec hstep
  refine ⟨hcall.synced, fun i f => ?_, fun fd f hf => ?_⟩
  · rw [hwatched, hcall.installed]
    by_cases hi : i = h
    · subst hi
      cases hwants : (u.poll.handler i).wants f with
      | true =>
          -- the filter is added or deleted, as the handler is registered or not
          rw [if_pos ⟨rfl, rfl⟩, decide_eq_true_eq]
          simp only [and_true, Bool.true_eq_false, or_false]
          exact ⟨fun hreg => ⟨.inr hreg, hreg⟩, And.right⟩
      | false =>
          rw [if_neg (fun hfd => Bool.false_ne_true hfd.2), ht.installed]
          simp only [Bool.false_eq_true, and_false, or_false, or_true, and_true]
          refine and_iff_left (hcall.interest.imp id fun hsame => ?_)
          have hwants' : (u.poll.handler i).wants f = (t.poll.handler i).wants f := by rw [hsame]
          rw [← hwants', hwants]
    · have hwants : (u.poll.handler i).wants f = (t.poll.handler i).wants f := by
        rw [hcall.changes.interest i hi]
      have hne : fds i ≠ fds h := fun heq => hi (hfds heq)
      rw [if_neg fun hfd => hne hfd.1, ht.installed, hcall.changes.registered i hi, hwants]
      refine and_congr_left fun _ => (or_iff_left_of_imp fun hnow => ?_).symm
      -- what it watches now it has watched before the call
      exact Runs.visits_of_exec hexec hnow
  · rw [hcall.installed] at hf
    by_cases hfd : fd = fds h
    · exact ⟨h, hfd.symm⟩
    · rw [if_neg fun hfd' => hfd hfd'.1] at hf
      exact ht.others fd f hf

/-- The table asks for an event of a registered handler if the bit of the event
    is in its interest. -/
theorem Synced.requests_iff (hs : Synced fds s) (hfds : Function.Injective fds) (h : η)
    (f : EventFilter) :
    Requests s.poll (fds h) f ↔
      s.poll.Registered h ∧ (s.poll.handler h).ievents.setWidth 16 &&& f.bit ≠ 0 := by
  constructor
  · rintro ⟨pfd, hmem, hfd, hbit⟩
    obtain ⟨n, hn⟩ := List.mem_iff_getElem?.mp hmem
    obtain ⟨i, -, hreg, hhandle, hindex⟩ := hs.wf.handler_of_entry hn
    have hi : i = h := hfds ((hs.handle i).1.symm.trans (hhandle.trans hfd))
    subst hi
    have hview : s.poll.view i = some pfd := by
      rw [Pollpoller.view_of_registered hreg, Pollpoller.entry, hindex, hn]
    rw [← hs.events i pfd hview]
    exact ⟨hreg, hbit⟩
  · rintro ⟨hreg, hbit⟩
    obtain ⟨pfd, hpfd, hfd⟩ := hs.wf.entry_of_registered hreg
    refine ⟨pfd, List.mem_of_getElem? hpfd, hfd.trans (hs.handle h).1, ?_⟩
    rw [hs.events h pfd ((Pollpoller.view_of_registered hreg).trans hpfd)]
    exact hbit

theorem Synced.of_requests (hs : Synced fds s) {fd : Nat} {f : EventFilter}
    (hrequests : Requests s.poll fd f) : ∃ h, fds h = fd := by
  obtain ⟨pfd, hmem, hfd, -⟩ := hrequests
  obtain ⟨n, hn⟩ := List.mem_iff_getElem?.mp hmem
  obtain ⟨h, -, -, hhandle, -⟩ := hs.wf.handler_of_entry hn
  exact ⟨h, (hs.handle h).1.symm.trans (hhandle.trans hfd)⟩

/-- It is enough to compare the pollers for each handler. -/
theorem Filters.agree_iff (hs : Filters fds ie calls s) (hfds : Function.Injective fds) :
    SameEvents s ↔ ∀ h f,
      Watched fds ie calls h f ∧ (s.poll.Registered h ∨ (s.poll.handler h).wants f = false) ↔
        s.poll.Registered h ∧ (s.poll.handler h).ievents.setWidth 16 &&& f.bit ≠ 0 := by
  have hrequests := hs.synced.requests_iff hfds
  constructor
  · intro hsame h f
    rw [← hs.installed, ← hrequests]
    exact hsame.same (fds h) f
  · intro hall
    have hsame : ∀ h f, s.kqueue.installed (fds h) f = true ↔ Requests s.poll (fds h) f := by
      intro h f
      rw [hs.installed, hrequests]
      exact hall h f
    refine ⟨fun fd f => ⟨fun hf => ?_, fun hf => ?_⟩, fun h f hreg => ?_⟩
    · obtain ⟨h, rfl⟩ := hs.others fd f hf
      exact (hsame h f).mp hf
    · obtain ⟨h, rfl⟩ := hs.synced.of_requests hf
      exact (hsame h f).mpr hf
    · have hnot : ¬ Requests s.poll (fds h) f := fun hf => hreg ((hrequests h f).mp hf).1
      rw [(hs.synced.handle h).1]
      exact ⟨Bool.eq_false_iff.mpr (mt (hsame h f).mp hnot), hnot⟩

/-- The bits of an entry are those of the interest. -/
theorem entryBit_iff (x : Events) {n : Nat} (hn : n < 16) :
    x.setWidth 16 &&& BitVec.twoPow 16 n ≠ 0 ↔ x &&& BitVec.twoPow 32 n ≠ 0 := by
  have hbit : x.setWidth 16 &&& BitVec.twoPow 16 n ≠ 0 ↔ x.getLsbD n = true := by
    have hone : BitVec.twoPow 16 n ≠ 0#16 := by
      intro hzero
      have hn' := congrArg (fun y => y.getLsbD n) hzero
      simp [hn] at hn'
    rw [BitVec.and_twoPow, BitVec.getLsbD_setWidth, decide_eq_true hn, Bool.true_and]
    cases x.getLsbD n with
    | false => simp
    | true => simpa using hone
  rw [hbit, ← and_twoPow_ne_zero, bne_iff_ne]

/-- The bit by which `poll` watches for reading is `kEventRead`. -/
theorem readBit_iff (h : PolledHandler) :
    h.ievents.setWidth 16 &&& EventFilter.read.bit ≠ 0 ↔ h.wants .read = true :=
  (entryBit_iff (n := 0) h.ievents (by decide)).trans bne_iff_ne.symm

/-- The bit by which `poll` watches for writing is `kEventError`. -/
theorem writeBit_iff (h : PolledHandler) :
    h.ievents.setWidth 16 &&& EventFilter.write.bit ≠ 0 ↔ h.ievents &&& kEventError ≠ 0 :=
  entryBit_iff (n := 2) h.ievents (by decide)

/-- What a handler watched while it was registered: it still has reading on, if
    that was ever on; and it has writing on still if it was removed, and if not
    it has `kEventError` on exactly if writing was ever on. -/
structure Kept (fds : η → Nat) (ie : η → Events) (calls : List (PollerCall η)) (s : Pollers η) :
    Prop where
  read : ∀ h, Watched fds ie calls h .read → (s.poll.handler h).isReading = true
  write : ∀ h, s.poll.Registered h →
    (Watched fds ie calls h .write ↔ (s.poll.handler h).ievents &&& kEventError ≠ 0)
  removed : ∀ h, ¬ s.poll.Registered h → Watched fds ie calls h .write →
    (s.poll.handler h).isWriting = true

/-- After any calls the pollers watch the same events if and only if no handler
    turned one off. -/
theorem sameEvents_iff (hfds : Function.Injective fds)
    (hrun : Runs.exec step (start fds ie) calls = some s) :
    SameEvents s ↔ Kept fds ie calls s := by
  rw [(filters_of_exec hfds hrun).agree_iff hfds]
  constructor
  · intro hall
    refine ⟨fun h hw => ?_, fun h hreg => ?_, fun h hreg hw => ?_⟩
    · by_contra hread
      rw [Bool.not_eq_true] at hread
      have hbit := (hall h .read).mp ⟨hw, .inr hread⟩
      exact absurd ((readBit_iff _).mp hbit.2) (by unfold EventHandler.wants; simp [hread])
    · rw [← writeBit_iff]
      exact ⟨fun hw => ((hall h .write).mp ⟨hw, .inl hreg⟩).2,
        fun hbit => ((hall h .write).mpr ⟨hreg, hbit⟩).1⟩
    · by_contra hwrite
      rw [Bool.not_eq_true] at hwrite
      exact hreg ((hall h .write).mp ⟨hw, .inr hwrite⟩).1
  · intro hkept h f
    by_cases hreg : s.poll.Registered h
    · simp only [hreg, true_or, and_true, true_and]
      cases f with
      | read =>
          rw [readBit_iff]
          exact ⟨hkept.read h, fun hread => Runs.visits_of_exec hrun ⟨hreg, hread⟩⟩
      | write => exact (hkept.write h hreg).trans (writeBit_iff _).symm
    · simp only [hreg, false_or, false_and, iff_false, not_and, Bool.not_eq_false]
      cases f with
      | read => exact hkept.read h
      | write => exact hkept.removed h hreg

end Run

/-- One handler on the descriptor 5, constructed without interest. -/
def single : Pollers Unit := start (fun _ => 5) fun _ => kEventNone

/-- The handler is removed with reading on. -/
theorem sameEvents_iff_removed :
    ∃ s, Runs.exec step single
        [.registerHandler (), .changeInterest () .enableRead, .removeHandler ()] = some s ∧
      (SameEvents s ↔ Kept (fun _ => 5) (fun _ => kEventNone)
        [.registerHandler (), .changeInterest () .enableRead, .removeHandler ()] s) := by
  have hrun : (Runs.exec step single
      [.registerHandler (), .changeInterest () .enableRead, .removeHandler ()]).isSome = true := by
    decide
  obtain ⟨s, hs⟩ := Option.isSome_iff_exists.mp hrun
  exact ⟨s, hs, sameEvents_iff (Function.injective_of_subsingleton _) hs⟩

/-- Reading that was turned off is still watched by `KqueuePoller`. -/
theorem not_sameEvents_disableRead :
    ¬ ∀ (calls : List (PollerCall Unit)) (s : Pollers Unit),
        Runs.exec step single calls = some s → SameEvents s := by
  intro hall
  have hrun : (Runs.exec step single
      [.registerHandler (), .changeInterest () .enableRead, .changeInterest () .disableRead]).any
        (fun s => s.kqueue.installed 5 .read &&
          s.poll.fds.all fun pfd => pfd.events &&& EventFilter.read.bit == 0) = true := by
    decide
  obtain ⟨s, hs, hdiffer⟩ := (Option.any_eq_true _ _).mp hrun
  rw [Bool.and_eq_true, List.all_eq_true] at hdiffer
  obtain ⟨pfd, hmem, -, hbit⟩ := ((hall _ s hs).same 5 .read).mp hdiffer.1
  exact hbit (beq_iff_eq.mp (hdiffer.2 pfd hmem))

end Pollers

end QGServer
