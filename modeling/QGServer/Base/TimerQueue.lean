-- SUMMARY: The timer queue: due timers run and restart in a loop, and the next deadline is kept beside the heap.
import QGServer.Base.TimerHeap
import QGServer.Library.Runs

/-!
# TimerQueue

`src/base/timer_queue.cpp`, the build for Apple. `handleTimer` reads the clock
before each timer it looks at. The clock may do anything between two readings;
a callback may add timers to the queue. A turn that comes to a deadline out of 64
bits has no result, and a call with such a turn has none.

`next_time_` is the deadline that the event loop waits for, 0 if there is no
timer. It is kept up by comparisons with the timers that `addTimer` and the last
turn of `handleTimer` see, and while due timers run it may be behind.
-/

namespace QGServer

structure TimerQueue (κ : Type*) where
  timerHeap : TimerHeap κ
  nextTime : TimeStamp
  deriving DecidableEq, Repr

namespace TimerQueue

variable {κ : Type*}

/-! ## Functions -/

/-- The constructor. -/
def new : TimerQueue κ := { timerHeap := [], nextTime := 0 }

/-- `_push`: the timer goes into the heap; is it before the one that was on top? -/
def push (timer : Timer κ) (q : TimerQueue κ) : Bool × TimerQueue κ :=
  (q.timerHeap.top.all fun oldTop => decide (timer.expire < oldTop.expire),
    { q with timerHeap := q.timerHeap.addTimer timer })

def addTimer (timer : Timer κ) (q : TimerQueue κ) : TimerQueue κ :=
  let (before, q) := q.push timer
  if before = true ∧ (q.nextTime = 0 ∨ timer.expire < q.nextTime) then
    { q with nextTime := timer.expire }
  else q

/-- The timers are added one after the other. -/
def addTimers (timers : List (Timer κ)) (q : TimerQueue κ) : TimerQueue κ :=
  timers.foldl (fun q timer => q.addTimer timer) q

/-- A turn of the loop in `handleTimer` that finds a timer due. -/
structure Turn (κ : Type*) where
  /-- What the clock reads. -/
  now : TimeStamp
  /-- The timers that the callback adds. -/
  added : List (Timer κ)

/-- What a turn does for the timer that is due. -/
def fire (latestTimer : Timer κ) (added : List (Timer κ)) (q : TimerQueue κ) : Option (TimerQueue κ) :=
  if latestTimer.repeat_ then
    latestTimer.restart.map fun latestTimer =>
      -- the heap still has the timer at its root when the deadline changes
      let heap := TimerHeap.addTimer latestTimer (TimerHeap.popTimer (q.timerHeap.set 0 latestTimer))
      addTimers added { q with timerHeap := heap }
  else some (addTimers added { q with timerHeap := q.timerHeap.popTimer })

/-- A call that takes the turns and then, if there is a timer left, finds it not
    due at the reading `last`. The timers it runs go with the queue. -/
def handleTimer : List (Turn κ) → Option TimeStamp → TimerQueue κ →
    Option (TimerQueue κ × List (Timer κ))
  | [], none, q => if q.timerHeap.isEmpty then some ({ q with nextTime := 0 }, []) else none
  | [], some now, q =>
    q.timerHeap.top.bind fun latestTimer =>
      if latestTimer.timeout now then none
      else if q.nextTime = 0 ∨ q.nextTime < latestTimer.expire then
        some ({ q with nextTime := latestTimer.expire }, [])
      else some (q, [])
  | turn :: turns, last, q =>
    q.timerHeap.top.bind fun latestTimer =>
      if latestTimer.timeout turn.now then
        (q.fire latestTimer turn.added).bind fun q =>
          (handleTimer turns last q).map fun (q, ran) => (q, latestTimer :: ran)
      else none

/-- The calls that are made of a queue. -/
inductive Call (κ : Type*) where
  | addTimer (timer : Timer κ)
  | handleTimer (turns : List (Turn κ)) (last : Option TimeStamp)

def step (q : TimerQueue κ) : Call κ → Option (TimerQueue κ)
  | .addTimer timer => some (q.addTimer timer)
  | .handleTimer turns last => (q.handleTimer turns last).map Prod.fst

/-- The readings of the clock in a call. -/
def readings (turns : List (Turn κ)) (last : Option TimeStamp) : List TimeStamp :=
  turns.map Turn.now ++ last.toList

def Call.readings : Call κ → List TimeStamp
  | .addTimer _ => []
  | .handleTimer turns last => TimerQueue.readings turns last

/-! ## The heap -/

section Heap

variable {q q' : TimerQueue κ} {latestTimer : Timer κ} {rest : TimerHeap κ}
  {turns : List (Turn κ)} {last : Option TimeStamp} {ran : List (Timer κ)}

theorem timerHeap_addTimer (timer : Timer κ) (q : TimerQueue κ) :
    (q.addTimer timer).timerHeap = q.timerHeap.addTimer timer := by
  unfold addTimer push
  dsimp only
  split <;> rfl

theorem addTimers_spec (h : q.timerHeap.Ordered) (added : List (Timer κ)) :
    TimerHeap.Sifted (added ++ q.timerHeap) (q.addTimers added).timerHeap := by
  induction added generalizing q with
  | nil => exact ⟨h, .refl _⟩
  | cons timer added ih =>
      have hone := TimerHeap.addTimer_spec h timer
      rw [← timerHeap_addTimer] at hone
      have hrest := ih hone.ordered
      refine ⟨hrest.ordered, hrest.perm.trans ((hone.perm.append_left added).trans ?_)⟩
      exact List.perm_middle

/-- What is left of a timer that was due. -/
def remains (latestTimer : Timer κ) : List (Timer κ) :=
  if latestTimer.repeat_ then latestTimer.restart.toList else []

/-- A turn leaves the next time to the timers that are added. -/
theorem fire_eq_some {added : List (Timer κ)} (hfire : q.fire latestTimer added = some q') :
    ∃ heap, q.fire latestTimer [] = some { q with timerHeap := heap } ∧
      q' = addTimers added { q with timerHeap := heap } := by
  unfold fire at hfire ⊢
  split at hfire
  · rename_i hrepeat
    obtain ⟨timer, htimer, rfl⟩ := Option.map_eq_some_iff.mp hfire
    rw [if_pos hrepeat, htimer]
    exact ⟨_, rfl, rfl⟩
  · rename_i hrepeat
    cases hfire
    rw [if_neg hrepeat]
    exact ⟨_, rfl, rfl⟩

/-- A turn: the timer on top is gone or has its next deadline, and the new timers
    are there. -/
theorem fire_spec (h : q.timerHeap.Ordered) (hheap : q.timerHeap = latestTimer :: rest)
    {added : List (Timer κ)} (hfire : q.fire latestTimer added = some q') :
    TimerHeap.Sifted (added ++ (remains latestTimer ++ rest)) q'.timerHeap := by
  have hroot : ∀ heap : TimerHeap κ, TimerHeap.Sifted (remains latestTimer ++ rest) heap →
      TimerHeap.Sifted (added ++ (remains latestTimer ++ rest))
        (addTimers added { q with timerHeap := heap }).timerHeap := by
    intro heap hheap
    have hadd := addTimers_spec (q := { q with timerHeap := heap }) hheap.ordered added
    exact ⟨hadd.ordered, hadd.perm.trans (hheap.perm.append_left added)⟩
  unfold fire at hfire
  rw [hheap] at h hfire
  unfold remains at hroot ⊢
  split at hfire
  · rename_i hrepeat
    obtain ⟨timer, htimer, rfl⟩ := Option.map_eq_some_iff.mp hfire
    rw [if_pos hrepeat, htimer] at hroot ⊢
    have hpop := TimerHeap.popTimer_spec (h.downOrder timer)
    have hadd := TimerHeap.addTimer_spec hpop.ordered timer
    exact hroot _ ⟨hadd.ordered, hadd.perm.trans (hpop.perm.cons _)⟩
  · rename_i hrepeat
    cases hfire
    rw [if_neg hrepeat] at hroot ⊢
    exact hroot _ (TimerHeap.popTimer_spec (h.downOrder latestTimer))

theorem mem_remains {t : Timer κ} :
    t ∈ remains latestTimer ↔ latestTimer.repeat_ = true ∧ latestTimer.restart = some t := by
  rw [remains, List.mem_ite_nil_right, Option.mem_toList]

/-- The timers after a turn. -/
theorem mem_fire (h : q.timerHeap.Ordered) (hheap : q.timerHeap = latestTimer :: rest)
    (hfire : q.fire latestTimer [] = some q') {t : Timer κ} :
    t ∈ q'.timerHeap ↔ t ∈ remains latestTimer ∨ t ∈ rest := by
  rw [(fire_spec h hheap hfire).perm.mem_iff, List.nil_append, List.mem_append]

/-- How a call goes on: with a turn for the timer on top, if that is due, or not. -/
theorem handleTimer_cons {turn : Turn κ}
    (hcall : q.handleTimer (turn :: turns) last = some (q', ran)) :
    ∃ latestTimer rest q₁ ran', q.timerHeap = latestTimer :: rest ∧ latestTimer.expire ≤ turn.now ∧
      q.fire latestTimer turn.added = some q₁ ∧ q₁.handleTimer turns last = some (q', ran') ∧
      ran = latestTimer :: ran' := by
  unfold handleTimer at hcall
  obtain ⟨latestTimer, htop, hcall⟩ := Option.bind_eq_some_iff.mp hcall
  rw [Option.ite_none_right_eq_some] at hcall
  obtain ⟨hdue, hcall⟩ := hcall
  obtain ⟨q₁, hfire, hcall⟩ := Option.bind_eq_some_iff.mp hcall
  obtain ⟨⟨p, ran'⟩, hrest, hp⟩ := Option.map_eq_some_iff.mp hcall
  cases hp
  obtain ⟨rest, hheap⟩ := List.head?_eq_some_iff.mp htop
  exact ⟨latestTimer, rest, q₁, ran', hheap, of_decide_eq_true hdue, hfire, hrest, rfl⟩

/-- How a call ends: without a timer, or with one that is not due. -/
theorem handleTimer_nil (hcall : q.handleTimer [] last = some (q', ran)) :
    (q.timerHeap = [] ∧ q' = { q with nextTime := 0 } ∧ last = none ∧ ran = []) ∨
    ∃ latestTimer rest now, q.timerHeap = latestTimer :: rest ∧ last = some now ∧
      now < latestTimer.expire ∧ ran = [] ∧
      q' = if q.nextTime = 0 ∨ q.nextTime < latestTimer.expire then
        { q with nextTime := latestTimer.expire } else q := by
  cases last with
  | none =>
      unfold handleTimer at hcall
      rw [Option.ite_none_right_eq_some, List.isEmpty_iff] at hcall
      obtain ⟨hempty, hcall⟩ := hcall
      cases hcall
      exact .inl ⟨hempty, rfl, rfl, rfl⟩
  | some now =>
      unfold handleTimer at hcall
      obtain ⟨latestTimer, htop, hcall⟩ := Option.bind_eq_some_iff.mp hcall
      rw [Option.ite_none_left_eq_some] at hcall
      obtain ⟨hdue, hcall⟩ := hcall
      obtain ⟨rest, hheap⟩ := List.head?_eq_some_iff.mp htop
      have hlt : now < latestTimer.expire := by
        unfold Timer.timeout at hdue
        simpa using hdue
      refine .inr ⟨latestTimer, rest, now, hheap, rfl, hlt, ?_⟩
      by_cases hlate : q.nextTime = 0 ∨ q.nextTime < latestTimer.expire
      · rw [if_pos hlate] at hcall ⊢
        cases hcall
        exact ⟨rfl, rfl⟩
      · rw [if_neg hlate] at hcall ⊢
        cases hcall
        exact ⟨rfl, rfl⟩

/-- The heap stays in order. -/
theorem ordered_handleTimer (h : q.timerHeap.Ordered)
    (hcall : q.handleTimer turns last = some (q', ran)) : q'.timerHeap.Ordered := by
  induction turns generalizing q ran with
  | nil =>
      obtain ⟨hheap, hq, -⟩ | ⟨latestTimer, rest, now, hheap, -, -, -, hq⟩ := handleTimer_nil hcall
      · rw [hq]
        exact h
      · rw [hq]
        split
        · exact h
        · exact h
  | cons turn turns ih =>
      obtain ⟨latestTimer, rest, q₁, ran', hheap, -, hfire, hrest, -⟩ := handleTimer_cons hcall
      exact ih (fire_spec h hheap hfire).ordered hrest

theorem ordered_step {call : Call κ} (h : q.timerHeap.Ordered) (hstep : step q call = some q') :
    q'.timerHeap.Ordered := by
  cases call with
  | addTimer timer =>
      obtain rfl := Option.some.inj hstep
      rw [timerHeap_addTimer]
      exact (TimerHeap.addTimer_spec h timer).ordered
  | handleTimer turns last =>
      obtain ⟨⟨p, ran⟩, hcall, rfl⟩ := Option.map_eq_some_iff.mp hstep
      exact ordered_handleTimer h hcall

/-- In every history the heap is in order. -/
theorem ordered_of_exec {calls : List (Call κ)} (hrun : Runs.exec step new calls = some q) :
    q.timerHeap.Ordered :=
  Runs.exec_preserves (fun _ _ _ => ordered_step) TimerHeap.ordered_nil hrun

end Heap

/-! ## The next deadline -/

/-- No timer of the heap is before it. -/
def Earliest (q : TimerQueue κ) (timer : Timer κ) : Prop :=
  timer ∈ q.timerHeap ∧ ∀ t ∈ q.timerHeap, timer.expire ≤ t.expire

section NextTime

variable {q q' : TimerQueue κ} {latestTimer : Timer κ} {rest : TimerHeap κ} {b : TimeStamp}
  {turns : List (Turn κ)} {last : Option TimeStamp} {ran : List (Timer κ)} {calls : List (Call κ)}

/-- A call does not leave a next time before the timer on top. -/
theorem le_nextTime (hcall : q.handleTimer turns last = some (q', ran))
    (hheap : q'.timerHeap = latestTimer :: rest) : latestTimer.expire ≤ q'.nextTime := by
  induction turns generalizing q ran with
  | nil =>
      obtain ⟨hempty, hq, -⟩ | ⟨timer, rest', now, hheap', -, -, -, hq⟩ := handleTimer_nil hcall
      · rw [hq, hempty] at hheap
        cases hheap
      · by_cases hlate : q.nextTime = 0 ∨ q.nextTime < timer.expire
        · rw [if_pos hlate] at hq
          rw [hq, hheap'] at hheap
          cases hheap
          rw [hq]
        · rw [if_neg hlate] at hq
          rw [hq, hheap'] at hheap
          cases hheap
          rw [hq]
          exact not_lt.mp fun hlt => hlate (.inr hlt)
  | cons turn turns ih =>
      obtain ⟨_, _, _, ran', -, -, -, hrest, -⟩ := handleTimer_cons hcall
      exact ih hrest

/-- The next time is not after a timer, or the clock has been there: it has not
    passed `b`. -/
def Covered (b : TimeStamp) (q : TimerQueue κ) : Prop :=
  q.nextTime = 0 ∨ q.nextTime ≤ b ∨ ∀ timer ∈ q.timerHeap, q.nextTime ≤ timer.expire

/-- `_push` compares with the earliest timer. -/
theorem push_iff (hq : q.timerHeap.Ordered) (timer : Timer κ) :
    (q.push timer).1 = true ↔ ∀ t ∈ q.timerHeap, timer.expire < t.expire := by
  unfold push
  dsimp only
  cases htop : q.timerHeap.top with
  | none =>
      have hempty : q.timerHeap = [] := List.head?_eq_none_iff.mp htop
      rw [hempty]
      simp
  | some oldTop =>
      rw [Option.all_some, decide_eq_true_eq]
      exact ⟨fun hlt t ht => hlt.trans_le (hq.top_le htop t ht),
        fun hall => hall oldTop (List.mem_of_mem_head? htop)⟩

theorem covered_addTimer (hq : q.timerHeap.Ordered) (h : Covered b q) (timer : Timer κ) :
    Covered b (q.addTimer timer) := by
  have hperm := (TimerHeap.addTimer_spec hq timer).perm
  rw [← timerHeap_addTimer] at hperm
  have hle : ∀ x : TimeStamp, x ≤ timer.expire → (∀ t ∈ q.timerHeap, x ≤ t.expire) →
      ∀ t ∈ (q.addTimer timer).timerHeap, x ≤ t.expire := by
    intro x hx hall t ht
    rcases List.mem_cons.mp (hperm.mem_iff.mp ht) with rfl | ht
    · exact hx
    · exact hall t ht
  by_cases hnext : (q.push timer).1 = true ∧ (q.nextTime = 0 ∨ timer.expire < q.nextTime)
  · have hnew : (q.addTimer timer).nextTime = timer.expire :=
      congrArg TimerQueue.nextTime (if_pos hnext)
    have hbefore := (push_iff hq timer).mp hnext.1
    unfold Covered
    rw [hnew]
    exact .inr (.inr (hle _ le_rfl fun t ht => (hbefore t ht).le))
  · have hadd : q.addTimer timer = (q.push timer).2 := if_neg hnext
    have hold : (q.addTimer timer).nextTime = q.nextTime := by
      rw [hadd]
      rfl
    unfold Covered
    rw [hold]
    refine h.imp id (Or.imp id fun hall => hle _ ?_ hall)
    by_cases hbefore : (q.push timer).1 = true
    · exact not_lt.mp fun hlt => hnext ⟨hbefore, .inr hlt⟩
    · rw [push_iff hq] at hbefore
      push Not at hbefore
      obtain ⟨t, ht, hlt⟩ := hbefore
      exact (hall t ht).trans hlt

theorem covered_addTimers (hq : q.timerHeap.Ordered) (h : Covered b q) (timers : List (Timer κ)) :
    Covered b (q.addTimers timers) := by
  induction timers generalizing q with
  | nil => exact h
  | cons timer timers ih =>
      refine ih ?_ (covered_addTimer hq h timer)
      rw [timerHeap_addTimer]
      exact (TimerHeap.addTimer_spec hq timer).ordered

/-- A turn: the next time is not after the timer that is due, and the clock has
    been there. -/
theorem covered_fire (hq : q.timerHeap.Ordered) (h : Covered b q)
    (hheap : q.timerHeap = latestTimer :: rest) (hdue : latestTimer.expire ≤ b)
    {added : List (Timer κ)} (hfire : q.fire latestTimer added = some q') : Covered b q' := by
  have hnext : q.nextTime = 0 ∨ q.nextTime ≤ b := by
    rcases h with hzero | hle | hall
    · exact .inl hzero
    · exact .inr hle
    · exact .inr ((hall latestTimer (hheap ▸ List.mem_cons_self)).trans hdue)
  obtain ⟨heap, hfirst, rfl⟩ := fire_eq_some hfire
  have hrest : Covered b { q with timerHeap := heap } := hnext.imp id .inl
  exact covered_addTimers (fire_spec hq hheap hfirst).ordered hrest added

theorem covered_handleTimer (hq : q.timerHeap.Ordered) (h : Covered b q)
    (hreadings : ∀ r ∈ readings turns last, r ≤ b)
    (hcall : q.handleTimer turns last = some (q', ran)) : Covered b q' := by
  induction turns generalizing q ran with
  | nil =>
      obtain ⟨-, hq', -⟩ | ⟨timer, rest', now, hheap, -, -, -, hq'⟩ := handleTimer_nil hcall
      · rw [hq']
        exact .inl rfl
      · rw [hq']
        split
        · exact .inr (.inr (hq.top_le (TimerHeap.top_of_eq hheap)))
        · exact h
  | cons turn turns ih =>
      obtain ⟨timer, rest', q₁, ran', hheap, hdue, hfire, hrest, -⟩ := handleTimer_cons hcall
      have hnow : turn.now ≤ b := hreadings _ List.mem_cons_self
      exact ih (fire_spec hq hheap hfire).ordered (covered_fire hq h hheap (hdue.trans hnow) hfire)
        (fun r hr => hreadings r (List.mem_cons_of_mem _ hr)) hrest

theorem covered_of_exec (hrun : Runs.exec step new calls = some q)
    (hreadings : ∀ call ∈ calls, ∀ r ∈ call.readings, r ≤ b) : Covered b q := by
  refine Runs.exec_induction
    (fun calls q => (∀ call ∈ calls, ∀ r ∈ call.readings, r ≤ b) → Covered b q)
    (fun _ => .inl rfl) (fun calls call t u ih hexec hstep hall => ?_) hrun hreadings
  have ht := ih fun c hc => hall c (List.mem_append_left _ hc)
  have hcall := hall call (List.mem_append_right _ List.mem_cons_self)
  have hordered := ordered_of_exec hexec
  cases call with
  | addTimer timer =>
      obtain rfl := Option.some.inj hstep
      exact covered_addTimer hordered ht timer
  | handleTimer turns last =>
      obtain ⟨⟨p, ran⟩, hcall', rfl⟩ := Option.map_eq_some_iff.mp hstep
      exact covered_handleTimer hordered ht hcall hcall'

end NextTime

end TimerQueue

end QGServer
