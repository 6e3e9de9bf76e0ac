-- SUMMARY: The queue that threads share, with its mutex and its condition variable: nothing is lost, and who waits waits for a value.
import Mathlib.Data.Fintype.Fin
import QGServer.Library.Monitor

/-!
# Blocking queues

The class `Queue` of `src/util/block_queue.h`, between any number of threads: each
member function takes the mutex, `pop` waits at `not_empty_` while the queue is
empty, and `push` notifies one of those who wait.

`fifo_run`: whatever the threads do and in whatever order they get the mutex, the
values come out in the order in which they went in, each of them once.
`returns_run`: if every `pop_all` is given an empty queue, as `handlePendingFunctors`
does, then no notice is lost, and every call returns but those of `pop` for which
there is no value.
-/

namespace QGServer

/-- A call of a member function. -/
inductive QueueCall (α : Type*) where
  | push (t : α)
  | pop
  | popAll (res : List α)
  deriving DecidableEq, Repr

/-- What a call gives back; `popAll` gives what is in `res` afterwards. -/
inductive QueueResult (α : Type*) where
  | push
  | pop (res : α)
  | popAll (res : List α)
  deriving DecidableEq, Repr

namespace Queue

open Monitor

variable {α : Type*}

/-- What a member function does under the mutex, from a test of `empty()` on. -/
def body : QueueCall α → List α → Section (List α) (QueueResult α)
  | .push t, queue => .leave (queue ++ [t]) true .push
  | .pop, [] => .wait
  | .pop, res :: queue => .leave queue false (.pop res)
  | .popAll res, [] => .leave [] false (.popAll res)
  -- `std::swap(res, queue_)`
  | .popAll res, queue => .leave res false (.popAll queue)

/-- The values that a call is given. -/
def given : QueueCall α → List α
  | .push t => [t]
  | .pop => []
  | .popAll res => res

/-- The values that a call gives back. -/
def values : QueueResult α → List α
  | .push => []
  | .pop res => [res]
  | .popAll res => res

/-- The values that are in a call that has left the queue and not yet the mutex. -/
def carried : Place (QueueCall α) (QueueResult α) → List α
  | .leaving r => values r
  | _ => []

/-- What goes through the queue is not lost. -/
theorem body_values {op : QueueCall α} {queue queue' : List α} {notifies : Bool} {r : QueueResult α}
    (h : body op queue = .leave queue' notifies r) : queue ++ given op = values r ++ queue' := by
  unfold body at h
  split at h
  · cases h
    rfl
  · cases h
  · cases h
    exact List.append_nil _
  · cases h
    exact (List.append_nil _).symm
  · cases h
    rfl

variable {τ : Type*} [DecidableEq τ] [Fintype τ]

/-- The threads and the queue. -/
abbrev State (τ α : Type*) := Monitor.State τ (List α) (QueueCall α) (QueueResult α)

abbrev step (s : State τ α) (l : Label τ (QueueCall α)) : Option (State τ α) := Monitor.step body s l

abbrev History (τ α : Type*) := List (State τ α × Label τ (QueueCall α))

/-! ## Order -/

/-- The values that go into the queue in a step. -/
def goesIn (s : State τ α) (l : Label τ (QueueCall α)) : List α :=
  match l with
  | .run t _ =>
    match s.place t with
    | .inside op _ =>
      match body op s.shared with
      | .wait => []
      | .leave _ _ _ => given op
    | _ => []
  | _ => []

/-- The values that a step gives back to a caller. -/
def comesOut (s : State τ α) : Label τ (QueueCall α) → List α
  | .unlock t => carried (s.place t)
  | _ => []

def wentIn : History τ α → List α
  | [] => []
  | (s, l) :: past => wentIn past ++ goesIn s l

def cameOut : History τ α → List α
  | [] => []
  | (s, l) :: past => cameOut past ++ comesOut s l

/-- What the owner of the mutex has got and not yet given back. -/
def held (s : State τ α) : List α :=
  match s.owner with
  | some t => carried (s.place t)
  | none => []

/-- What went in came out, is on its way out or is in the queue, in this order. -/
def Fifo (h : State τ α × History τ α) : Prop :=
  wentIn h.2 = cameOut h.2 ++ held h.1 ++ h.1.shared

section Order

variable {s s' : State τ α} {l : Label τ (QueueCall α)} {t : τ}

omit [DecidableEq τ] [Fintype τ] in
theorem held_free (h : s.owner = none) : held s = [] := by
  unfold held
  rw [h]

omit [DecidableEq τ] [Fintype τ] in
theorem held_owner (h : s.owner = some t) : held s = carried (s.place t) := by
  unfold held
  rw [h]

omit [Fintype τ] in
/-- A thread outside of the critical section moves. -/
theorem held_move (h : Exclusive s) (ht : (s.place t).holds = false) (p : Place _ _) :
    held (s.move t p) = held s := by
  cases howner : s.owner with
  | none => rw [held_free howner, held_free (s := s.move t p) howner]
  | some u =>
      have hne : u ≠ t := by
        rintro rfl
        rw [(h u).mpr howner] at ht
        cases ht
      rw [held_owner howner, held_owner (s := s.move t p) howner, place_move_of_ne _ _ hne]

omit [Fintype τ] in
/-- What a step changes. -/
theorem order_move (h : Exclusive s) (hmove : Move body s l s') :
    held s ++ s.shared ++ goesIn s l = comesOut s l ++ held s' ++ s'.shared := by
  -- who tests has nothing yet
  have hinside : ∀ {t op again}, s.place t = .inside op again → s.owner = some t ∧ held s = [] := by
    intro t op again hplace
    have howner : s.owner = some t := (h t).mp (by rw [hplace]; rfl)
    rw [held_owner howner, hplace]
    exact ⟨howner, rfl⟩
  -- who leaves carries its result
  have hleaves : ∀ {t op again queue notifies r} {u : State τ α}, s.place t = .inside op again →
      body op s.shared = .leave queue notifies r → u.owner = s.owner → u.place t = .leaving r →
      u.shared = queue → held s ++ s.shared ++ given op = held u ++ u.shared := by
    intro t op again queue notifies r u hplace hbody howner hleaving hshared
    obtain ⟨hself, hnone⟩ := hinside hplace
    rw [hnone, held_owner (howner.trans hself), hleaving, hshared]
    exact body_values hbody
  have hgoes : ∀ {t op again queue notifies r chosen}, s.place t = .inside op again →
      body op s.shared = .leave queue notifies r → goesIn s (.run t chosen) = given op := by
    intro t op again queue notifies r chosen hplace hbody
    simp only [goesIn, hplace, hbody]
  cases hmove with
  | @call t op hplace =>
      rw [held_move h (by rw [hplace]; rfl)]
      exact List.append_nil _
  | @lock t op hfree hplace =>
      rw [held_free hfree, held_owner (t := t) rfl, place_move]
      exact List.append_nil _
  | @relock t op hfree hplace =>
      rw [held_free hfree, held_owner (t := t) rfl, place_move]
      exact List.append_nil _
  | @wait t op again hplace hbody =>
      rw [(hinside hplace).2, held_free rfl]
      simp only [goesIn, hplace, hbody]
      exact List.append_nil _
  | @leave t op again queue r hplace hbody =>
      rw [hgoes hplace hbody]
      exact hleaves hplace hbody rfl (place_move _ _ _) rfl
  | @leaveAlone t op again queue r hplace hbody hnone =>
      rw [hgoes hplace hbody]
      exact hleaves hplace hbody rfl (place_move _ _ _) rfl
  | @leaveNotify t u op op' again queue r hplace hbody hasleep =>
      have hne : t ≠ u := by
        rintro rfl
        rw [hplace] at hasleep
        cases hasleep
      rw [hgoes hplace hbody]
      refine hleaves hplace hbody rfl ?_ rfl
      rw [place_move_of_ne _ _ hne, place_move]
  | @unlock t r hplace =>
      have howner : s.owner = some t := (h t).mp (by rw [hplace]; rfl)
      have hafter : held ({ s with owner := none }.move t .out) = [] := held_free rfl
      rw [held_owner howner, hafter, List.append_nil]
      exact List.append_nil _
  | @wake t op hplace =>
      rw [held_move h (by rw [hplace]; rfl)]
      exact List.append_nil _

theorem fifo_step (h : State τ α × History τ α) (l : Label τ (QueueCall α))
    (h' : State τ α × History τ α) (hinv : Exclusive h.1 ∧ Fifo h)
    (hrecord : Runs.record step h l = some h') : Exclusive h'.1 ∧ Fifo h' := by
  obtain ⟨s, past⟩ := h
  obtain ⟨s', past'⟩ := h'
  obtain ⟨hstep, rfl⟩ := Runs.record_eq_some hrecord
  have hmove := step_cases hstep
  refine ⟨exclusive_move hinv.1 hmove, ?_⟩
  have horder : wentIn past = cameOut past ++ held s ++ s.shared := hinv.2
  have hchange := order_move hinv.1 hmove
  change wentIn past ++ goesIn s l = (cameOut past ++ comesOut s l) ++ held s' ++ s'.shared
  rw [horder]
  simp only [List.append_assoc] at hchange ⊢
  rw [hchange]

/-- Whatever the threads do, and in whatever order they get the mutex: the values come
    out as they went in, those of one `pop_all` in a row. -/
theorem fifo_run (ls : List (Label τ (QueueCall α))) {h : State τ α × History τ α}
    (hrun : Runs.exec (Runs.record step) (.start [], []) ls = some h) :
    Fifo h := by
  have hstart : Fifo ((.start [], []) : State τ α × History τ α) := rfl
  exact (Runs.exec_preserves fifo_step ⟨exclusive_start [], hstart⟩ hrun).2

/-- One thread sleeps in `pop` until another one has pushed, and a third one takes what
    is left. -/
def threeThreads : List (Label (Fin 3) (QueueCall Nat)) :=
  [.call 0 .pop, .lock 0, .run 0 none, .call 1 (.push 7), .call 2 (.push 8), .lock 1, .run 1 (some 0),
    .unlock 1, .lock 2, .run 2 none, .unlock 2, .call 2 (.popAll []), .lock 0, .run 0 none, .unlock 0,
    .lock 2, .run 2 none, .unlock 2]

theorem fifo_run_three :
    ∃ h, Runs.exec (Runs.record step) (.start [], []) threeThreads = some h ∧
      h.1.shared = [] ∧ cameOut h.2 = [7, 8] ∧ Fifo h := by
  have hrun : ((Runs.exec (Runs.record step) (.start [], []) threeThreads).any
      fun h => decide (h.1.shared = [] ∧ cameOut h.2 = [7, 8])) = true := by
    decide +kernel
  obtain ⟨h, hh, hend⟩ := Option.any_eq_true _ _ |>.mp hrun
  obtain ⟨hshared, hout⟩ := of_decide_eq_true hend
  exact ⟨h, hh, hshared, hout, fifo_run threeThreads hh⟩

end Order

/-! ## Who waits -/

/-- The calls that may wait. -/
def waits : QueueCall α → Bool
  | .pop => true
  | _ => false

/-- `pop_all` is given an empty queue. -/
def Fresh : QueueCall α → Prop
  | .popAll res => res = []
  | _ => True

instance : DecidablePred (Fresh (α := α))
  | .popAll res => decidable_of_iff (res.isEmpty = true) List.isEmpty_iff
  | .push _ => .isTrue trivial
  | .pop => .isTrue trivial

/-- A value is what a `pop` that waits could take. -/
theorem signals_body : Signals body (waits (α := α)) Fresh List.length where
  wait op s h := by
    cases op with
    | pop =>
        cases s with
        | nil => exact ⟨rfl, rfl⟩
        | cons res queue => cases h
    | push t => cases h
    | popAll res => cases s <;> cases h
  leave op s s' notifies r hok h := by
    cases op with
    | push t =>
        cases h
        exact (List.length_append).le
    | pop =>
        cases s with
        | nil => cases h
        | cons res queue =>
            cases h
            exact Nat.le_succ _
    | popAll res =>
        have hres : res = [] := hok
        subst hres
        cases s with
        | nil =>
            cases h
            exact Nat.le_refl _
        | cons t queue =>
            cases h
            exact Nat.zero_le _
  take op s s' notifies r hwaits h := by
    cases op with
    | pop =>
        cases s with
        | nil => cases h
        | cons res queue =>
            cases h
            exact ⟨rfl, Nat.lt_succ_self _⟩
    | push t => cases hwaits
    | popAll res => cases hwaits

/-- A call that begins is fresh. -/
def CallsFresh (_ : State τ α) : Label τ (QueueCall α) → Prop
  | .call _ op => Fresh op
  | _ => True

instance (s : State τ α) : DecidablePred (CallsFresh s)
  | .call _ op => inferInstanceAs (Decidable (Fresh op))
  | .lock _ | .run _ _ | .unlock _ | .wake _ => .isTrue trivial

theorem heard_run {ls : List (Label τ (QueueCall α))} {s : State τ α}
    (hfresh : Runs.Along step CallsFresh (.start []) ls)
    (hrun : Runs.exec step (.start []) ls = some s) : Heard waits Fresh List.length s := by
  refine Runs.exec_invariant (fun s l s' hheard hok hstep => ?_) (heard_start []) hfresh hrun
  refine heard_step signals_body s l s' hheard (fun t op hl => ?_) hstep
  subst hl
  exact hok

/-- If from some state on no call begins and no thread wakes by itself, the threads can
    take only so many steps. They can always go on until each call has returned, but for
    calls of `pop` for which the queue has no value. -/
theorem returns_run {ls ms : List (Label τ (QueueCall α))} {s s' : State τ α}
    (hfresh : Runs.Along step CallsFresh (.start []) ls)
    (hrun : Runs.exec step (.start []) ls = some s) (hquiet : ∀ l ∈ ms, l.quiet = true)
    (hmore : Runs.exec step s ms = some s') :
    ms.length ≤ 7 * Fintype.card τ ∧
      (Stuck body s' → ∀ t, s'.place t = .out ∨ s'.place t = .asleep .pop ∧ s'.shared = []) ∧
      ∃ rest s'', (∀ l ∈ rest, l.quiet = true) ∧ Runs.exec step s' rest = some s'' ∧ Stuck body s'' := by
  obtain ⟨hlength, hheard⟩ := length_le_cost signals_body (heard_run hfresh hrun) hquiet hmore
  refine ⟨?_, fun hstuck t => ?_, exists_stuck signals_body hheard⟩
  · have hcost := weigh_cost_le s
    omega
  · obtain ⟨hplaces, havail⟩ := places_of_stuck hheard hstuck
    refine (hplaces t).imp_right fun hasleep => ?_
    obtain ⟨op, hop⟩ := isAsleep_eq hasleep
    have hfits := hheard.fits t
    rw [hop] at hfits
    cases op with
    | pop => exact ⟨hop, List.length_eq_zero_iff.mp (havail t hasleep)⟩
    | push t => cases hfits.2
    | popAll res => cases hfits.2

/-- Two threads sleep in `pop`. -/
def twoSleep : List (Label (Fin 4) (QueueCall Nat)) :=
  [.call 0 .pop, .call 1 .pop, .lock 1, .run 1 none, .lock 0, .run 0 none]

/-- Then one value comes. -/
def oneComes : List (Label (Fin 4) (QueueCall Nat)) :=
  [.call 2 (.push 7), .lock 2, .run 2 (some 0), .unlock 2]

theorem returns_run_one :
    ∃ s s', Runs.exec step (.start []) (twoSleep ++ oneComes) = some s ∧
      Runs.exec step s [.lock 0, .run 0 none, .unlock 0] = some s' ∧
      ∀ t, s'.place t = .out ∨ s'.place t = .asleep .pop ∧ s'.shared = [] := by
  have hrun : ((Runs.exec step (.start []) (twoSleep ++ oneComes)).any fun s =>
      (Runs.exec step s [.lock 0, .run 0 none, .unlock 0]).any fun s' =>
        decide (∀ t, s'.place t = .out ∨ (s'.place t).isAsleep = true)) = true := by
    decide +kernel
  obtain ⟨s, hs, hrun⟩ := Option.any_eq_true _ _ |>.mp hrun
  obtain ⟨s', hs', hend⟩ := Option.any_eq_true _ _ |>.mp hrun
  have hreturns := returns_run (by decide +kernel) hs (by decide) hs'
  exact ⟨s, s', hs, hs', hreturns.2.1 (stuck_of_places (of_decide_eq_true hend))⟩

/-- A `pop_all` that is given values leaves them in the queue, and nobody is notified. -/
example : ((Runs.exec step (.start []) (twoSleep ++ oneComes ++ [.call 3 (.popAll [8, 9]), .lock 3,
    .run 3 none, .unlock 3, .lock 0, .run 0 none, .unlock 0])).map fun s => (s.shared, s.place 1)) =
      some ([9], .asleep .pop) := by
  decide +kernel

end Queue

end QGServer
