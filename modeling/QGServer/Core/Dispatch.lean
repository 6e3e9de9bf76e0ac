-- SUMMARY: The rounds of an event loop: what poll reports, what HandleEvent tests, and when the two agree.
import QGServer.Core.Pollpoller
import QGServer.Library.Runs

/-!
# Event dispatch

`EventLoop::loop` waits for events, calls `HandleEvent` for each handler that
`Wait` returns, and goes on with the next round. `HandleEvent` makes three
tests; between them and between the rounds any code may run that changes the
interest of handlers, registers or removes them.

`HandleEvent` tests `revents_`, to which `setREvents` adds what a round reports
and from which nothing is ever taken. So a callback runs for what this round or
an earlier one has reported.
-/

namespace QGServer

/-! ## Changes of interest -/

namespace EventHandler

def enableError (h : EventHandler) : EventHandler := h.setIEvents kEventError
def enableAll (h : EventHandler) : EventHandler := h.setIEvents kEventAll

def disableRead (h : EventHandler) : EventHandler :=
  { h with ievents := h.ievents &&& ~~~kEventRead }

def disableError (h : EventHandler) : EventHandler :=
  { h with ievents := h.ievents &&& ~~~kEventError }

end EventHandler

/-- The member functions of `EventHandler` that change its interest; each one
    calls `update` at its end. -/
inductive InterestChange where
  | enableRead | enableWrite | enableError | enableAll
  | disableRead | disableWrite | disableError | disableAll
  deriving DecidableEq, Repr

def InterestChange.apply : InterestChange → EventHandler → EventHandler
  | .enableRead, h => h.enableRead
  | .enableWrite, h => h.enableWrite
  | .enableError, h => h.enableError
  | .enableAll, h => h.enableAll
  | .disableRead, h => h.disableRead
  | .disableWrite, h => h.disableWrite
  | .disableError, h => h.disableError
  | .disableAll, h => h.disableAll

/-! ## `HandleEvent` -/

/-- The three tests of `HandleEvent`, in their order. -/
inductive EventTest where
  | read
  | write
  | error
  deriving DecidableEq, Repr

/-- The number of the bit that a test is about. -/
def EventTest.bit : EventTest → Nat
  | .read => 0
  | .write => 1
  | .error => 2

namespace PolledHandler

/-- The handler is interested in what a test is about. -/
def interested (h : PolledHandler) : EventTest → Bool
  | .read => h.isReading
  | .write => h.isWriting
  | .error => true

/-- A test of `HandleEvent` comes out so that the callback runs. A callback that
    is not set is taken to be an empty one. -/
def runs (h : PolledHandler) : EventTest → Bool
  | .read => h.isReadable && h.isReading
  | .write => h.isWriteable && h.isWriting
  | .error => h.isError

theorem runs_eq (h : PolledHandler) (k : EventTest) :
    h.runs k = (h.revents.getLsbD k.bit && h.interested k) := by
  cases k with
  | read => exact congrArg (· && h.isReading) (and_twoPow_ne_zero h.revents 0)
  | write => exact congrArg (· && h.isWriting) (and_twoPow_ne_zero h.revents 1)
  | error =>
      rw [interested, Bool.and_true]
      exact and_twoPow_ne_zero h.revents 2

end PolledHandler

/-! ## Rounds -/

structure Round (η : Type*) where
  poller : Pollpoller η
  /-- What `Wait` returned, from the handler on that `HandleEvent` is called for. -/
  ess : List η
  /-- The next test of `HandleEvent`. -/
  next : EventTest

namespace Round

variable {η : Type*}

/-- No handler is registered. The handlers have their descriptors, `handle`,
    from the constructor on. -/
def start (handle : η → Nat) : Round η :=
  { poller := ⟨[], fun _ => none, fun h => .new (handle h)⟩, ess := [], next := .read }

inductive Label (η : Type*) where
  /-- A round begins: `poll` gives `res`. -/
  | wait (res : PollResult)
  /-- `HandleEvent` makes its next test, and runs the callback. -/
  | handleEvent
  | update (h : η) (c : InterestChange)
  | registerHandler (h : η)
  | removeHandler (h : η)

variable [DecidableEq η]

/-- The loop goes on after a test. -/
def advance (r : Round η) : Round η :=
  match r.next with
  | .read => { r with next := .write }
  | .write => { r with next := .error }
  | .error => { r with ess := r.ess.tail, next := .read }

def step (r : Round η) : Label η → Option (Round η)
  | .wait res =>
    if r.ess = [] then
      (r.poller.wait res).map fun (p, ess) => { poller := p, ess := ess, next := .read }
    else none
  | .handleEvent => if r.ess = [] then none else some r.advance
  -- `updateHandler` and `removeHandler` of the loop assert that the descriptor is known
  | .update h c =>
    if r.poller.Registered h then
      (r.poller.changeInterest h c.apply).map fun p => { r with poller := p }
    else none
  -- a descriptor has one handler as long as it is open
  | .registerHandler h =>
    if r.poller.eventHandlerMap (r.poller.handler h).handle = none then
      (r.poller.registerHandler h).map fun p => { r with poller := p }
    else none
  | .removeHandler h =>
    if r.poller.Registered h then (r.poller.removeHandler h).map fun p => { r with poller := p }
    else none

/-! ## What was reported -/

/-- The steps before a state, the last one first. -/
abbrev History (η : Type*) := List (Round η × Label η)

/-- A call of `poll` reports the bit of a test for the descriptor of a handler. -/
def reports (r : Round η) (h : η) (k : EventTest) : PollResult → Bool
  | .failed => false
  | .ready revents =>
    decide (r.poller.Registered h) && (revents (r.poller.handler h).handle).getLsbD k.bit

/-- Some round reported it. -/
def everReported (h : η) (k : EventTest) : History η → Bool
  | [] => false
  | (r, .wait res) :: past => r.reports h k res || everReported h k past
  | _ :: past => everReported h k past

/-- This round reported it. -/
def reported (h : η) (k : EventTest) : History η → Bool
  | [] => false
  | (r, .wait res) :: _ => r.reports h k res
  | _ :: past => reported h k past

/-- A round before this one reported it. -/
def reportedBefore (h : η) (k : EventTest) : History η → Bool
  | [] => false
  | (_, .wait _) :: past => everReported h k past
  | _ :: past => reportedBefore h k past

theorem everReported_eq (h : η) (k : EventTest) (past : History η) :
    everReported h k past = (reported h k past || reportedBefore h k past) := by
  induction past with
  | nil => rfl
  | cons s past ih =>
      obtain ⟨r, l⟩ := s
      cases l with
      | wait res => rfl
      | handleEvent => exact ih
      | update h' c => exact ih
      | registerHandler h' => exact ih
      | removeHandler h' => exact ih

/-! ## Conditions on steps -/

/-- The read or write test that comes next runs the callback exactly if this
    round reported the event and the handler is interested in it. -/
def TestExact (s : Round η × History η) : Prop :=
  ∀ h ∈ s.1.ess.head?, s.1.next ≠ .error →
    ((s.1.poller.handler h).runs s.1.next = true ↔
      reported h s.1.next s.2 = true ∧ (s.1.poller.handler h).interested s.1.next = true)

instance (s : Round η × History η) : Decidable (TestExact s) :=
  inferInstanceAs (Decidable (∀ h ∈ s.1.ess.head?, _))

/-- Events are dispatched exactly: a handler for which the round reports one is
    handled once in it, and the tests come out for what the round reported. -/
def DispatchExact (s : Round η × History η) : Label η → Prop
  | .wait res => s.1.ess = [] → ∃ p ess, s.1.poller.wait res = some (p, ess) ∧ ess.Nodup ∧
      ∀ h k, s.1.reports h k res = true → h ∈ ess
  | .handleEvent => TestExact s
  | _ => True

/-- No test finds an interested handler with an event that an earlier round
    reported and this one did not. -/
def NothingStale (s : Round η × History η) : Label η → Prop
  | .handleEvent => ∀ h ∈ s.1.ess.head?, s.1.next ≠ .error →
      (s.1.poller.handler h).interested s.1.next = true →
        reportedBefore h s.1.next s.2 = true → reported h s.1.next s.2 = true
  | _ => True

/-! ## The invariant -/

/-- The handlers have in `revents_` what was ever reported, and the entries have
    nothing else. -/
structure Remembers (s : Round η × History η) : Prop where
  wf : s.1.poller.Wf
  revents : ∀ h (k : EventTest),
    (s.1.poller.handler h).revents.getLsbD k.bit = everReported h k s.2
  entries : ∀ h (k : EventTest),
    (s.1.poller.view h).any (fun pfd => pfd.revents.getLsbD k.bit) = true →
      everReported h k s.2 = true

theorem remembers_start (handle : η → Nat) : Remembers (start handle, []) := by
  refine ⟨⟨fun fd h hh => ?_, fun fd h hh => ?_, Places.exact_nil⟩, fun h k => ?_, fun h k hh => ?_⟩
  · cases hh
  · cases hh
  · exact BitVec.getLsbD_zero
  · cases hh

/-- A new entry without events adds none. -/
theorem any_of_update {p : Pollpoller η} {h k : η} {b : EventTest} {e : Option PollFd}
    (hany : (Function.update p.view h e k).any (fun pfd => pfd.revents.getLsbD b.bit) = true)
    (he : e.any (fun pfd => pfd.revents.getLsbD b.bit) = false) :
    (p.view k).any (fun pfd => pfd.revents.getLsbD b.bit) = true := by
  by_cases hk : k = h
  · subst hk
    rw [Function.update_self, he] at hany
    cases hany
  · rwa [Function.update_of_ne hk] at hany

/-- What `poll` writes into the entry of a handler is what it reports for it. -/
theorem reports_of_entry {r : Round η} {h : η} {k : EventTest} {res : PollResult}
    (hwf : r.poller.Wf) :
    ((r.poller.view h).map res.apply).any (fun pfd => pfd.revents.getLsbD k.bit) = true →
      (r.poller.view h).any (fun pfd => pfd.revents.getLsbD k.bit) = true ∨
        r.reports h k res = true := by
  intro hany
  cases res with
  | failed =>
      left
      cases hview : r.poller.view h with
      | none =>
          rw [hview] at hany
          cases hany
      | some pfd =>
          rw [hview] at hany
          exact hany
  | ready revents =>
      right
      by_cases hreg : r.poller.Registered h
      · obtain ⟨pfd, hpfd, hfd⟩ := hwf.entry_of_registered hreg
        rw [Pollpoller.view_of_registered hreg, hpfd] at hany
        simpa [reports, hreg, ← hfd, PollResult.apply] using hany
      · have hview : r.poller.view h = none := if_neg hreg
        rw [hview] at hany
        cases hany

/-- What is reported for a handler is written into its entry. -/
theorem entry_of_reports {r : Round η} {h : η} {k : EventTest} {res : PollResult}
    (hwf : r.poller.Wf) (hres : r.reports h k res = true) :
    ((r.poller.view h).map res.apply).any (fun pfd => pfd.revents.getLsbD k.bit) = true := by
  cases res with
  | failed => cases hres
  | ready revents =>
      simp only [reports, Bool.and_eq_true, decide_eq_true_eq] at hres
      obtain ⟨hreg, hbit⟩ := hres
      obtain ⟨pfd, hpfd, hfd⟩ := hwf.entry_of_registered hreg
      rw [Pollpoller.view_of_registered hreg, hpfd]
      simpa [PollResult.apply, hfd] using hbit

theorem remembers_step (s : Round η × History η) (l : Label η) (s' : Round η × History η)
    (hs : Remembers s) (hstep : Runs.record step s l = some s') : Remembers s' := by
  obtain ⟨r, past⟩ := s
  obtain ⟨r', past'⟩ := s'
  obtain ⟨hr, hpast⟩ := Runs.record_eq_some hstep
  dsimp only at hr hpast
  subst hpast
  have hwf := hs.wf
  cases l with
  | wait res =>
      unfold step at hr
      dsimp only at hr
      rw [Option.ite_none_right_eq_some] at hr
      obtain ⟨-, hr⟩ := hr
      obtain ⟨p, ess, hwait, hspec⟩ := Pollpoller.wait_spec hwf res
      dsimp only at hwait
      rw [hwait] at hr
      obtain rfl := Option.some.inj hr
      have hentries : ∀ h (k : EventTest),
          (p.view h).any (fun pfd => pfd.revents.getLsbD k.bit) = true →
            (r.reports h k res || everReported h k past) = true := by
        intro h k hany
        rw [hspec.view] at hany
        rw [Bool.or_eq_true]
        exact (reports_of_entry hwf hany).elim (fun hold => .inr (hs.entries h k hold)) .inl
      refine ⟨hspec.wf, fun h k => ?_, hentries⟩
      have hbit : decide (k.bit < 8) = true := by cases k <;> decide
      rw [hspec.revents, hbit, Bool.true_and, hs.revents h k]
      rw [Bool.eq_iff_iff, Bool.or_eq_true]
      constructor
      · rintro (hold | hnew)
        · simp [everReported, hold]
        · exact hentries h k hnew
      · intro hever
        rcases (Bool.or_eq_true _ _).mp hever with hnew | hold
        · right
          rw [hspec.view]
          exact entry_of_reports hwf hnew
        · exact .inl hold
  | handleEvent =>
      unfold step at hr
      dsimp only at hr
      split at hr
      · cases hr
      · obtain rfl := Option.some.inj hr
        have hpoller : r.advance.poller = r.poller := by
          unfold advance
          split <;> rfl
        refine ⟨?_, fun h k => ?_, fun h k => ?_⟩
        · rw [hpoller]
          exact hwf
        · rw [hpoller]
          exact hs.revents h k
        · rw [hpoller]
          exact hs.entries h k
  | update h c =>
      unfold step at hr
      dsimp only at hr
      rw [Option.ite_none_right_eq_some] at hr
      obtain ⟨hreg, hr⟩ := hr
      obtain ⟨p, hp, hwf', -, hhandler, hview⟩ :=
        Pollpoller.changeInterest_spec hwf hreg c.apply
      rw [hp] at hr
      obtain rfl := Option.some.inj hr
      refine ⟨hwf', fun k b => ?_, fun k b hany => ?_⟩
      · refine Eq.trans ?_ (hs.revents k b)
        dsimp only
        rw [hhandler]
        unfold Pollpoller.modifyHandler
        by_cases hk : k = h
        · subst hk
          simp
        · simp [Function.update_of_ne hk]
      · dsimp only at hany
        rw [hview] at hany
        exact hs.entries k b (any_of_update hany (by simp))
  | registerHandler h =>
      unfold step at hr
      dsimp only at hr
      rw [Option.ite_none_right_eq_some] at hr
      obtain ⟨hfresh, hr⟩ := hr
      obtain ⟨p, hp, rfl⟩ := Option.map_eq_some_iff.mp hr
      obtain ⟨hwf', hview⟩ := Pollpoller.registerHandler_spec hwf hfresh hp
      refine ⟨hwf', fun k b => ?_, fun k b hany => ?_⟩
      · obtain ⟨n, hn⟩ := Pollpoller.sameButIndex_registerHandler hp k
        dsimp only
        rw [hn]
        exact hs.revents k b
      · dsimp only at hany
        rw [hview] at hany
        exact hs.entries k b (any_of_update hany (by simp))
  | removeHandler h =>
      unfold step at hr
      dsimp only at hr
      rw [Option.ite_none_right_eq_some] at hr
      obtain ⟨hreg, hr⟩ := hr
      obtain ⟨p, hp, rfl⟩ := Option.map_eq_some_iff.mp hr
      obtain ⟨-, hwf', hview⟩ := Pollpoller.removeHandler_spec hwf hp
      refine ⟨hwf', fun k b => ?_, fun k b hany => ?_⟩
      · obtain ⟨n, hn⟩ := Pollpoller.sameButIndex_removeHandler hp k
        dsimp only
        rw [hn]
        exact hs.revents k b
      · dsimp only at hany
        rw [hview] at hany
        exact hs.entries k b (any_of_update hany (by simp))

/-! ## Exact dispatch -/

/-- One test: `revents_` has what was ever reported. -/
theorem testExact_iff {s : Round η × History η} (hs : Remembers s) :
    TestExact s ↔ NothingStale s .handleEvent := by
  unfold TestExact NothingStale
  refine forall₃_congr fun h _ _ => ?_
  rw [PolledHandler.runs_eq, hs.revents h, everReported_eq]
  cases reported h s.1.next s.2 <;> cases reportedBefore h s.1.next s.2 <;>
    cases (s.1.poller.handler h).interested s.1.next <;> simp

theorem dispatchExact_iff (s : Round η × History η) (l : Label η) (hs : Remembers s) :
    DispatchExact s l ↔ NothingStale s l := by
  cases l with
  | wait res =>
      refine iff_of_true (fun _ => ?_) trivial
      obtain ⟨p, ess, hwait, hspec⟩ := Pollpoller.wait_spec hs.wf res
      refine ⟨p, ess, hwait, hspec.nodup, fun h k hres => ?_⟩
      rw [hspec.returned, hspec.view]
      refine Option.any_eq_true _ _ |>.mpr ?_
      obtain ⟨pfd, hpfd, hbit⟩ := (Option.any_eq_true _ _).mp (entry_of_reports hs.wf hres)
      refine ⟨pfd, hpfd, bne_iff_ne.mpr ?_⟩
      rintro hzero
      rw [hzero] at hbit
      simp at hbit
  | handleEvent => exact testExact_iff hs
  | update h c => exact Iff.rfl
  | registerHandler h => exact Iff.rfl
  | removeHandler h => exact Iff.rfl

/-- The events of a run are dispatched exactly if and only if no test finds an
    interested handler with an event of an earlier round only. -/
theorem dispatchExact_run_iff (handle : η → Nat) (ls : List (Label η)) :
    Runs.Along (Runs.record step) DispatchExact (start handle, []) ls ↔
      Runs.Along (Runs.record step) NothingStale (start handle, []) ls :=
  Runs.along_congr_of_preserves remembers_step dispatchExact_iff (remembers_start handle)

/-- A handler that reads: in the first round its descriptor is readable, in the
    second one `poll` reports nothing but `POLLHUP`. -/
def hungUp : List (Label Unit) :=
  [.registerHandler (), .update () .enableRead, .wait (.ready fun _ => 0x1),
    .handleEvent, .handleEvent, .handleEvent, .wait (.ready fun _ => 0x10)]

/-- In the second round the read callback runs for what the first one reported. -/
theorem dispatchExact_hungUp :
    ¬ ∀ (handle : Unit → Nat) (ls : List (Label Unit)),
        Runs.Along (Runs.record step) DispatchExact (start handle, []) ls := by
  intro h
  have hrun : ((Runs.exec (Runs.record step) (start fun _ => 5, []) hungUp).any
      fun s => decide (¬ TestExact s)) = true := by
    decide +kernel
  obtain ⟨s, hs, hstale⟩ := (Option.any_eq_true _ _).mp hrun
  have hexact := (h (fun _ => 5) (hungUp ++ [.handleEvent])).at hs
  exact of_decide_eq_true hstale hexact

end Round

end QGServer
