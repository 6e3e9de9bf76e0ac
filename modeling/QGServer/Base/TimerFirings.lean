-- SUMMARY: Which timers run in a call of handleTimer while the clock stands still, how often, and what is left of them.
import QGServer.Base.TimerQueue
import Mathlib.Data.List.Iterate
import Mathlib.Tactic.Linarith

/-!
# Firings

In a call of `handleTimer` during which the clock stands still and no callback
adds a timer, every turn of the loop takes one firing away from those that are
still to come: a timer that does not repeat has one, if it is due, and a
repeating one as many as there are deadlines up to the reading of the clock. The
loop runs the firings of all timers in the order of the deadlines.

The deadlines of a repeating timer are `period` apart: that is what `addTime`
makes of the interval in `double` arithmetic. The loop computes those up to the
first one after the clock, and they have to be of 64 bits.
-/

namespace QGServer

namespace Timer

variable {κ : Type*}

/-- What `restart` adds to the deadline. -/
def period (timer : Timer κ) : Int := microseconds timer.interval

/-- The timer with its next deadline, which may be too large for `restart`. -/
def next (timer : Timer κ) : Timer κ := { timer with expire := timer.expire + timer.period }

/-- How often the timer runs while the clock stands at `now`. -/
def firings (timer : Timer κ) (now : TimeStamp) : Nat :=
  if timer.expire ≤ now then
    if timer.repeat_ then ((now - timer.expire) / timer.period).toNat + 1 else 1
  else 0

/-- The timer each time it runs, with the deadline it has then. -/
def fired (timer : Timer κ) (now : TimeStamp) : List (Timer κ) :=
  List.iterate next timer (timer.firings now)

/-- The repeating timer with the deadline it comes to. -/
def advanced (timer : Timer κ) (now : TimeStamp) : Timer κ := next^[timer.firings now] timer

/-- What is left of the timer. -/
def left (timer : Timer κ) (now : TimeStamp) : List (Timer κ) :=
  if timer.repeat_ then [timer.advanced now]
  else if timer.expire ≤ now then [] else [timer]

/-- The period and the deadlines up to the first one after `now` are of 64 bits. -/
structure Fits (timer : Timer κ) (now : TimeStamp) : Prop where
  period : IsInt64 timer.period
  deadlines : ∀ n : Nat, timer.expire + n * timer.period ≤ now →
    IsInt64 (timer.expire + (n + 1) * timer.period)

/-- A due timer that repeats does so after a second at least, and in 64 bits. -/
def Progresses (timer : Timer κ) (now : TimeStamp) : Prop :=
  timer.repeat_ = true → timer.expire ≤ now → 1 ≤ timer.interval ∧ timer.Fits now

/-! ## The deadlines of a timer -/

section Deadlines

variable {timer timer' : Timer κ} {now : TimeStamp} {n : Nat}

theorem expire_next (timer : Timer κ) : timer.next.expire = timer.expire + timer.period := rfl

theorem restart_eq_some :
    timer.restart = some timer' ↔
      (IsInt64 timer.period ∧ IsInt64 timer.next.expire) ∧ timer.next = timer' := by
  unfold restart update
  rw [Option.map_eq_some_iff]
  constructor
  · rintro ⟨expire, hadd, rfl⟩
    obtain ⟨hint, rfl⟩ := addTime_eq_some.mp hadd
    exact ⟨hint, rfl⟩
  · rintro ⟨hint, rfl⟩
    exact ⟨_, addTime_eq_some.mpr ⟨hint, rfl⟩, rfl⟩

theorem period_pos (h : 1 ≤ timer.interval) : 0 < timer.period := microseconds_pos h

theorem period_nonpos (h : timer.interval ≤ 0) : timer.period ≤ 0 := microseconds_nonpos h

/-- It is enough that a period after `now` is of 64 bits. -/
theorem fits_of_lt (hexpire : -2 ^ 63 ≤ timer.expire) (hperiod : 0 ≤ timer.period)
    (hnow : 0 ≤ now) (hlt : now + timer.period < 2 ^ 63) :
    timer.Fits now := by
  refine ⟨⟨by linarith, by linarith⟩, fun n hn => ?_⟩
  have hmul : 0 ≤ (n : Int) * timer.period := mul_nonneg (Int.natCast_nonneg n) hperiod
  rw [add_one_mul]
  exact ⟨by linarith, by linarith⟩

/-- The first deadline is of 64 bits, and what comes then as well. -/
theorem Fits.restart (h : timer.Fits now) (hdue : timer.expire ≤ now) :
    timer.restart = some timer.next := by
  have hfirst := h.deadlines 0 (by simpa using hdue)
  rw [Nat.cast_zero, zero_add, one_mul] at hfirst
  exact restart_eq_some.mpr ⟨⟨h.period, hfirst⟩, rfl⟩

theorem deadline_next (timer : Timer κ) (n : Nat) :
    timer.next.expire + n * timer.period = timer.expire + (n + 1 : Nat) * timer.period := by
  rw [expire_next, Nat.cast_succ, add_one_mul, add_assoc, add_comm timer.period]

theorem Fits.next (h : timer.Fits now) : timer.next.Fits now := by
  refine ⟨h.period, fun n hn => ?_⟩
  change timer.next.expire + n * timer.period ≤ now at hn
  rw [deadline_next] at hn
  have hlater := h.deadlines (n + 1) hn
  rw [← Nat.cast_succ, ← deadline_next] at hlater
  exact hlater

theorem Progresses.restart (h : timer.Progresses now) (hrepeat : timer.repeat_ = true)
    (hdue : timer.expire ≤ now) : timer.restart = some timer.next :=
  (h hrepeat hdue).2.restart hdue

theorem Progresses.next (h : timer.Progresses now) (hrepeat : timer.repeat_ = true)
    (hdue : timer.expire ≤ now) : timer.next.Progresses now :=
  fun _ _ => ⟨(h hrepeat hdue).1, (h hrepeat hdue).2.next⟩

/-- What remains of a due timer. -/
theorem Progresses.remains (h : timer.Progresses now) (hdue : timer.expire ≤ now) :
    TimerQueue.remains timer = if timer.repeat_ then [timer.next] else [] := by
  unfold TimerQueue.remains
  split
  · rename_i hrepeat
    rw [h.restart hrepeat hdue]
    rfl
  · rfl

theorem period_iterate (timer : Timer κ) (n : Nat) : (next^[n] timer).period = timer.period := by
  induction n with
  | zero => rfl
  | succ n ih =>
      rw [Function.iterate_succ_apply']
      exact ih

theorem expire_iterate (timer : Timer κ) (n : Nat) :
    (next^[n] timer).expire = timer.expire + n * timer.period := by
  induction n with
  | zero => simp
  | succ n ih =>
      rw [Function.iterate_succ_apply', expire_next, ih, period_iterate, Nat.cast_succ,
        add_one_mul, add_assoc]

theorem firings_of_lt (h : now < timer.expire) : timer.firings now = 0 := if_neg (not_le.mpr h)

/-- A timer that does not repeat. -/
theorem firings_once (hrepeat : timer.repeat_ = false) (hdue : timer.expire ≤ now) :
    timer.firings now = 1 := by
  unfold firings
  rw [if_pos hdue, hrepeat]
  rfl

/-- A firing is one less to come. -/
theorem firings_next (hrepeat : timer.repeat_ = true) (hdue : timer.expire ≤ now)
    (hpos : 1 ≤ timer.interval) : timer.firings now = timer.next.firings now + 1 := by
  have hperiod := period_pos hpos
  have hkept : timer.next.repeat_ = true := hrepeat
  have hsame : timer.next.period = timer.period := rfl
  have hsub : now - timer.next.expire = now - timer.expire - timer.period := by
    rw [expire_next, sub_add_eq_sub_sub]
  unfold firings
  rw [if_pos hdue, if_pos hrepeat, if_pos hkept, hsame]
  congr 1
  by_cases hnext : timer.next.expire ≤ now
  · have hone : (now - timer.expire) / timer.period =
        (now - timer.next.expire) / timer.period + 1 := by
      rw [hsub, Int.sub_ediv_of_dvd _ (dvd_refl _), Int.ediv_self hperiod.ne', sub_add_cancel]
    have hnonneg : 0 ≤ (now - timer.next.expire) / timer.period :=
      Int.ediv_nonneg (sub_nonneg.mpr hnext) hperiod.le
    rw [if_pos hnext, hone]
    exact Int.toNat_add_nat hnonneg 1
  · have hlt : now - timer.expire < timer.period := by
      rw [expire_next] at hnext
      exact sub_lt_iff_lt_add'.mpr (not_le.mp hnext)
    rw [if_neg hnext, Int.ediv_eq_zero_of_lt (sub_nonneg.mpr hdue) hlt]
    rfl

/-- A timer that is not due. -/
theorem fired_of_lt (h : now < timer.expire) : timer.fired now = [] := by
  unfold fired
  rw [firings_of_lt h]
  rfl

theorem left_of_lt (h : now < timer.expire) : timer.left now = [timer] := by
  unfold left advanced
  rw [firings_of_lt h, if_neg (not_le.mpr h)]
  exact ite_self _

/-- A due timer runs, and goes on as what remains of it. -/
theorem fired_of_le (hdue : timer.expire ≤ now) (h : timer.Progresses now) :
    timer.fired now = timer :: (TimerQueue.remains timer).flatMap fun t => t.fired now := by
  rw [h.remains hdue]
  unfold fired
  by_cases hrepeat : timer.repeat_ = true
  · rw [firings_next hrepeat hdue (h hrepeat hdue).1, if_pos hrepeat, List.flatMap_singleton]
    rfl
  · rw [firings_once (Bool.eq_false_of_not_eq_true hrepeat) hdue, if_neg hrepeat]
    rfl

theorem left_of_le (hdue : timer.expire ≤ now) (h : timer.Progresses now) :
    timer.left now = (TimerQueue.remains timer).flatMap fun t => t.left now := by
  rw [h.remains hdue]
  unfold left
  by_cases hrepeat : timer.repeat_ = true
  · have hkept : timer.next.repeat_ = true := hrepeat
    have hadvanced : timer.advanced now = timer.next.advanced now := by
      unfold advanced
      rw [firings_next hrepeat hdue (h hrepeat hdue).1, Function.iterate_succ_apply]
    rw [if_pos hrepeat, if_pos hrepeat, List.flatMap_singleton, if_pos hkept, hadvanced]
  · rw [if_neg hrepeat, if_neg hrepeat, if_pos hdue]
    rfl

/-- A timer does not run before its deadline. -/
theorem le_of_mem_fired (h : timer.Progresses now) (hmem : timer' ∈ timer.fired now) :
    timer.expire ≤ timer'.expire := by
  obtain ⟨n, hn, rfl⟩ := List.mem_iterate.mp hmem
  rw [expire_iterate]
  by_cases hdue : timer.expire ≤ now
  · by_cases hrepeat : timer.repeat_ = true
    · have hperiod := period_pos (h hrepeat hdue).1
      exact le_add_of_nonneg_right (mul_nonneg (Int.natCast_nonneg n) hperiod.le)
    · rw [firings_once (Bool.eq_false_of_not_eq_true hrepeat) hdue, Nat.lt_one_iff] at hn
      rw [hn]
      simp
  · rw [firings_of_lt (not_le.mp hdue)] at hn
    exact absurd hn (Nat.not_lt_zero n)

/-- A repeating timer runs for its deadlines up to `now` and is left with the first
    one after it. -/
theorem lt_advanced (hrepeat : timer.repeat_ = true) (h : timer.Progresses now) :
    now < (timer.advanced now).expire ∧ ∀ t ∈ timer.fired now, t.expire ≤ now := by
  induction hn : timer.firings now generalizing timer with
  | zero =>
      have hlate : now < timer.expire := by
        by_contra hdue
        rw [firings_next hrepeat (not_lt.mp hdue) (h hrepeat (not_lt.mp hdue)).1] at hn
        exact absurd hn (Nat.succ_ne_zero _)
      rw [advanced, hn, fired_of_lt hlate]
      exact ⟨hlate, fun t ht => absurd ht List.not_mem_nil⟩
  | succ n ih =>
      have hdue : timer.expire ≤ now := by
        by_contra hlate
        rw [firings_of_lt (not_le.mp hlate)] at hn
        exact absurd hn (Nat.succ_ne_zero n).symm
      have hone := firings_next hrepeat hdue (h hrepeat hdue).1
      have hnext : timer.next.firings now = n := Nat.succ.inj (hone.symm.trans hn)
      have hkept : timer.next.repeat_ = true := hrepeat
      obtain ⟨hlt, hall⟩ := ih hkept (h.next hrepeat hdue) hnext
      have hadvanced : timer.advanced now = timer.next.advanced now := by
        unfold advanced
        rw [hone, Function.iterate_succ_apply]
      rw [hadvanced, fired_of_le hdue h, h.remains hdue, if_pos hrepeat, List.flatMap_singleton]
      exact ⟨hlt, List.forall_mem_cons.mpr ⟨hdue, hall⟩⟩

end Deadlines

end Timer

namespace TimerHeap

variable {κ : Type*}

def Progresses (heap : TimerHeap κ) (now : TimeStamp) : Prop :=
  ∀ timer ∈ heap, timer.Progresses now

/-- All firings of the timers of a heap. -/
def fired (heap : TimerHeap κ) (now : TimeStamp) : List (Timer κ) :=
  heap.flatMap fun timer => timer.fired now

def left (heap : TimerHeap κ) (now : TimeStamp) : List (Timer κ) :=
  heap.flatMap fun timer => timer.left now

@[simp] theorem fired_cons (timer : Timer κ) (rest : TimerHeap κ) (now : TimeStamp) :
    fired (timer :: rest) now = timer.fired now ++ rest.fired now := rfl

@[simp] theorem left_cons (timer : Timer κ) (rest : TimerHeap κ) (now : TimeStamp) :
    left (timer :: rest) now = timer.left now ++ rest.left now := rfl

/-- No timer is due. -/
theorem fired_eq_nil {heap : TimerHeap κ} {now : TimeStamp} (h : ∀ t ∈ heap, now < t.expire) :
    heap.fired now = [] :=
  List.flatMap_eq_nil_iff.mpr fun t ht => Timer.fired_of_lt (h t ht)

theorem left_eq_self {heap : TimerHeap κ} {now : TimeStamp} (h : ∀ t ∈ heap, now < t.expire) :
    heap.left now = heap := by
  induction heap with
  | nil => rfl
  | cons timer rest ih =>
      obtain ⟨htimer, hrest⟩ := List.forall_mem_cons.mp h
      have hfirst : timer.left now = [timer] := Timer.left_of_lt htimer
      rw [left_cons, hfirst, ih hrest]
      rfl

/-- A timer of the heap runs for its deadlines only. -/
theorem le_of_mem_fired {heap : TimerHeap κ} {now b : TimeStamp} (h : heap.Progresses now)
    (hb : ∀ t ∈ heap, b ≤ t.expire) {timer : Timer κ} (hmem : timer ∈ heap.fired now) :
    b ≤ timer.expire := by
  obtain ⟨t, ht, hfired⟩ := List.mem_flatMap.mp hmem
  exact (hb t ht).trans (Timer.le_of_mem_fired (h t ht) hfired)

end TimerHeap

namespace TimerQueue

variable {κ : Type*}

/-- A turn while the clock stands still and the callback adds nothing. -/
def stillTurn (now : TimeStamp) : Turn κ := { now := now, added := [] }

/-- `handleTimer` returns, and all the time the clock stands still and no callback adds
    a timer. -/
def Returns (q : TimerQueue κ) (now : TimeStamp) (q' : TimerQueue κ) (ran : List (Timer κ)) : Prop :=
  ∃ n last, (last = none ∨ last = some now) ∧
    q.handleTimer (List.replicate n (stillTurn now)) last = some (q', ran)

/-- What a call does with the timers of a heap: it leaves `heap'`, and the timers
    that have run are `ran`. -/
structure FiringLaw (heap : TimerHeap κ) (now : TimeStamp) (heap' : TimerHeap κ)
    (ran : List (Timer κ)) : Prop where
  ran_perm : ran.Perm (heap.fired now)
  ran_sorted : ran.Pairwise fun t t' => t.expire ≤ t'.expire
  left_perm : heap'.Perm (heap.left now)

/-! ## A turn -/

section Still

variable {q q' q₁ : TimerQueue κ} {latestTimer : Timer κ} {rest : TimerHeap κ} {now : TimeStamp}
  {ran : List (Timer κ)}

/-- What a turn leaves of the firings, and that the loop goes on to progress. -/
structure Fired (q : TimerQueue κ) (latestTimer : Timer κ) (now : TimeStamp) (q' : TimerQueue κ) :
    Prop where
  ordered : q'.timerHeap.Ordered
  progresses : q'.timerHeap.Progresses now
  later : ∀ t ∈ q'.timerHeap, latestTimer.expire ≤ t.expire
  fired : (latestTimer :: q'.timerHeap.fired now).Perm (q.timerHeap.fired now)
  left : (q'.timerHeap.left now).Perm (q.timerHeap.left now)

/-- A timer that gets on gets its turn. -/
theorem exists_fire (h : latestTimer.Progresses now) (hdue : latestTimer.expire ≤ now)
    (added : List (Timer κ)) : ∃ q', q.fire latestTimer added = some q' := by
  unfold fire
  split
  · rename_i hrepeat
    rw [h.restart hrepeat hdue]
    exact ⟨_, rfl⟩
  · exact ⟨_, rfl⟩

theorem fired_fire (h : q.timerHeap.Ordered) (hprogress : q.timerHeap.Progresses now)
    (hheap : q.timerHeap = latestTimer :: rest) (hdue : latestTimer.expire ≤ now)
    (hfire : q.fire latestTimer [] = some q') : Fired q latestTimer now q' := by
  obtain ⟨hordered, hperm⟩ := fire_spec h hheap hfire
  rw [List.nil_append] at hperm
  rw [hheap] at hprogress
  obtain ⟨hone, hothers⟩ := List.forall_mem_cons.mp hprogress
  have htop : ∀ t ∈ rest, latestTimer.expire ≤ t.expire := by
    intro t ht
    exact h.top_le (TimerHeap.top_of_eq hheap) t (hheap ▸ List.mem_cons_of_mem _ ht)
  have hremains : ∀ t ∈ remains latestTimer, t.Progresses now ∧ latestTimer.expire ≤ t.expire := by
    intro t ht
    obtain ⟨hrepeat, hrestart⟩ := mem_remains.mp ht
    obtain ⟨-, rfl⟩ := Timer.restart_eq_some.mp hrestart
    refine ⟨hone.next hrepeat hdue, ?_⟩
    exact le_add_of_nonneg_right (Timer.period_pos (hone hrepeat hdue).1).le
  refine ⟨hordered, ?_, ?_, ?_, ?_⟩
  · intro t ht
    exact ((mem_fire h hheap hfire).mp ht).elim (fun h => (hremains t h).1) (hothers t)
  · intro t ht
    exact ((mem_fire h hheap hfire).mp ht).elim (fun h => (hremains t h).2) (htop t)
  · have hflat := (hperm.flatMap_right fun t => t.fired now).cons latestTimer
    rw [List.flatMap_append] at hflat
    rw [hheap, TimerHeap.fired_cons, Timer.fired_of_le hdue hone]
    exact hflat
  · have hflat := hperm.flatMap_right fun t => t.left now
    rw [List.flatMap_append] at hflat
    rw [hheap, TimerHeap.left_cons, Timer.left_of_le hdue hone]
    exact hflat

/-! ## The loop -/

/-- The loop ends where no timer is due. -/
theorem returns_of_lt (h : ∀ t ∈ q.timerHeap, now < t.expire) : ∃ q', q.Returns now q' [] := by
  cases hheap : q.timerHeap with
  | nil =>
      refine ⟨{ q with nextTime := 0 }, 0, none, .inl rfl, ?_⟩
      exact if_pos (List.isEmpty_iff.mpr hheap)
  | cons latestTimer rest =>
      have hlate : ¬latestTimer.timeout now = true := by
        unfold Timer.timeout
        rw [decide_eq_true_eq, not_le]
        exact h latestTimer (hheap ▸ List.mem_cons_self)
      have htop : q.timerHeap.top = some latestTimer := TimerHeap.top_of_eq hheap
      have hcall : ∃ q', q.handleTimer [] (some now) = some (q', []) := by
        rw [handleTimer, htop, Option.bind_some, if_neg hlate]
        split
        · exact ⟨_, rfl⟩
        · exact ⟨_, rfl⟩
      obtain ⟨q', hcall⟩ := hcall
      exact ⟨q', 0, some now, .inr rfl, hcall⟩

/-- Before it ends there is a turn for every timer that is due. -/
theorem Returns.turn (hheap : q.timerHeap = latestTimer :: rest) (hdue : latestTimer.expire ≤ now)
    (hfire : q.fire latestTimer [] = some q₁) (h : q₁.Returns now q' ran) :
    q.Returns now q' (latestTimer :: ran) := by
  obtain ⟨n, last, hlast, hcall⟩ := h
  refine ⟨n + 1, last, hlast, ?_⟩
  have htop : q.timerHeap.top = some latestTimer := TimerHeap.top_of_eq hheap
  have htimeout : latestTimer.timeout now = true := decide_eq_true hdue
  have hturn : q.fire latestTimer (stillTurn now).added = some q₁ := hfire
  rw [List.replicate_succ, handleTimer, htop, Option.bind_some, hturn, Option.bind_some, hcall]
  exact if_pos htimeout

/-- A call that returns has ended at once, or after a first turn. -/
theorem returns_cases (hordered : q.timerHeap.Ordered) (h : q.Returns now q' ran) :
    (ran = [] ∧ (∀ t ∈ q.timerHeap, now < t.expire) ∧ q'.timerHeap = q.timerHeap) ∨
    ∃ latestTimer rest q₁ ran', q.timerHeap = latestTimer :: rest ∧ latestTimer.expire ≤ now ∧
      ran = latestTimer :: ran' ∧ q.fire latestTimer [] = some q₁ ∧ q₁.Returns now q' ran' := by
  obtain ⟨n, last, hlast, hcall⟩ := h
  cases n with
  | zero =>
      left
      obtain ⟨hempty, hq', -, hran⟩ | ⟨latestTimer, rest, reading, hheap, hreading, hlate, hran, hq'⟩ :=
        handleTimer_nil hcall
      · refine ⟨hran, ?_, ?_⟩
        · intro t ht
          rw [hempty] at ht
          exact absurd ht List.not_mem_nil
        · rw [hq']
      · have hnow : reading = now := by
          obtain hnone | hsome := hlast
          · exact absurd (hreading.symm.trans hnone) (Option.some_ne_none reading)
          · exact Option.some.inj (hreading.symm.trans hsome)
        refine ⟨hran, ?_, ?_⟩
        · intro t ht
          rw [hnow] at hlate
          exact hlate.trans_le (hordered.top_le (TimerHeap.top_of_eq hheap) t ht)
        · rw [hq']
          split
          · rfl
          · rfl
  | succ n =>
      right
      obtain ⟨latestTimer, rest, q₁, ran', hheap, hdue, hfire, hrest, hran⟩ := handleTimer_cons hcall
      exact ⟨latestTimer, rest, q₁, ran', hheap, hdue, hran, hfire, n, last, hlast, hrest⟩

/-- The firings that are to come get fewer with every turn. -/
theorem exists_returns (h : q.timerHeap.Ordered) (hprogress : q.timerHeap.Progresses now) :
    ∃ q' ran, q.Returns now q' ran := by
  induction hn : (q.timerHeap.fired now).length generalizing q with
  | zero =>
      have hlate : ∀ t ∈ q.timerHeap, now < t.expire := by
        intro t ht
        by_contra hdue
        have hnil := List.flatMap_eq_nil_iff.mp (List.length_eq_zero_iff.mp hn) t ht
        rw [Timer.fired_of_le (not_lt.mp hdue) (hprogress t ht)] at hnil
        exact absurd hnil (List.cons_ne_nil _ _)
      obtain ⟨q', hreturns⟩ := returns_of_lt hlate
      exact ⟨q', [], hreturns⟩
  | succ n ih =>
      obtain ⟨latestTimer, rest, hheap⟩ : ∃ latestTimer rest, q.timerHeap = latestTimer :: rest := by
        apply List.exists_cons_of_ne_nil
        rintro hempty
        rw [hempty] at hn
        exact absurd hn (Nat.succ_ne_zero n).symm
      by_cases hdue : latestTimer.expire ≤ now
      · have hlatest := hprogress latestTimer (hheap ▸ List.mem_cons_self)
        obtain ⟨q₁, hfire⟩ := exists_fire (q := q) hlatest hdue []
        have hturn := fired_fire h hprogress hheap hdue hfire
        have hlength := hturn.fired.length_eq
        rw [hn, List.length_cons] at hlength
        obtain ⟨q', ran, hreturns⟩ := ih hturn.ordered hturn.progresses (Nat.succ.inj hlength)
        exact ⟨q', latestTimer :: ran, hreturns.turn hheap hdue hfire⟩
      · have hlate : ∀ t ∈ q.timerHeap, now < t.expire :=
          fun t ht => (not_le.mp hdue).trans_le (h.top_le (TimerHeap.top_of_eq hheap) t ht)
        obtain ⟨q', hreturns⟩ := returns_of_lt hlate
        exact ⟨q', [], hreturns⟩

/-- A call that returns has obeyed the law. -/
theorem firingLaw_of_returns (h : q.timerHeap.Ordered) (hprogress : q.timerHeap.Progresses now)
    (hreturns : q.Returns now q' ran) : FiringLaw q.timerHeap now q'.timerHeap ran := by
  induction ran generalizing q with
  | nil =>
      obtain ⟨-, hlate, hheap⟩ | ⟨_, _, _, _, -, -, hran, -⟩ := returns_cases h hreturns
      · rw [hheap]
        refine ⟨?_, .nil, ?_⟩
        · rw [TimerHeap.fired_eq_nil hlate]
        · rw [TimerHeap.left_eq_self hlate]
      · exact absurd hran (List.cons_ne_nil _ _).symm
  | cons timer ran ih =>
      obtain ⟨hran, -⟩ | ⟨latestTimer, rest, q₁, ran', hheap, hdue, hran, hfire, hrest⟩ :=
        returns_cases h hreturns
      · exact absurd hran (List.cons_ne_nil _ _)
      obtain ⟨rfl, rfl⟩ := List.cons.inj hran
      have hturn := fired_fire h hprogress hheap hdue hfire
      have hlaw := ih hturn.ordered hturn.progresses hrest
      refine ⟨(hlaw.ran_perm.cons timer).trans hturn.fired, List.Pairwise.cons ?_ hlaw.ran_sorted,
        hlaw.left_perm.trans hturn.left⟩
      intro t ht
      exact TimerHeap.le_of_mem_fired hturn.progresses hturn.later (hlaw.ran_perm.mem_iff.mp ht)

/-- A timer whose next deadline is of 64 bits gets on if it gets on from there. -/
theorem progresses_of_next (hint : IsInt64 latestTimer.period ∧ IsInt64 latestTimer.next.expire)
    (hrepeat : latestTimer.repeat_ = true) (hnext : latestTimer.next.Progresses now) :
    latestTimer.Progresses now := by
  intro _ hdue
  have hpos : 1 ≤ latestTimer.interval := by
    by_contra hinterval
    have hperiod := Timer.period_nonpos (Int.le_of_lt_add_one (not_le.mp hinterval))
    exact hinterval (hnext hrepeat ((add_le_of_nonpos_right hperiod).trans hdue)).1
  refine ⟨hpos, hint.1, fun n hn => ?_⟩
  cases n with
  | zero =>
      rw [Nat.cast_zero, zero_add, one_mul]
      exact hint.2
  | succ n =>
      rw [← Timer.deadline_next] at hn
      have hperiod := (Timer.period_pos hpos).le
      have hle : latestTimer.next.expire ≤ now :=
        (le_add_of_nonneg_right (mul_nonneg (Int.natCast_nonneg n) hperiod)).trans hn
      have hlater := (hnext hrepeat hle).2.deadlines n hn
      have hsame : latestTimer.next.period = latestTimer.period := rfl
      rw [hsame, ← Nat.cast_succ, Timer.deadline_next, Nat.cast_succ] at hlater
      exact hlater

/-- A call that returns has got every due timer on: one that does not get past the clock,
    or comes to a deadline out of 64 bits, keeps it from returning. -/
theorem progresses_of_returns (h : q.timerHeap.Ordered) (hreturns : q.Returns now q' ran) :
    q.timerHeap.Progresses now := by
  induction ran generalizing q with
  | nil =>
      obtain ⟨-, hlate, -⟩ | ⟨_, _, _, _, -, -, hran, -⟩ := returns_cases h hreturns
      · exact fun t ht _ hdue => absurd hdue (not_le.mpr (hlate t ht))
      · exact absurd hran (List.cons_ne_nil _ _).symm
  | cons timer ran ih =>
      obtain ⟨hran, -⟩ | ⟨latestTimer, rest, q₁, ran', hheap, hdue, hran, hfire, hrest⟩ :=
        returns_cases h hreturns
      · exact absurd hran (List.cons_ne_nil _ _)
      obtain ⟨rfl, rfl⟩ := List.cons.inj hran
      have hprogress := ih (fire_spec h hheap hfire).ordered hrest
      rw [hheap]
      refine List.forall_mem_cons.mpr ⟨fun hrepeat => ?_, fun t ht => ?_⟩
      · have hrestart : timer.restart ≠ none := by
          intro hnone
          rw [fire, if_pos hrepeat, hnone] at hfire
          cases hfire
        obtain ⟨t, hrestart⟩ := Option.ne_none_iff_exists'.mp hrestart
        have hmem := (mem_fire h hheap hfire).mpr (.inl (mem_remains.mpr ⟨hrepeat, hrestart⟩))
        obtain ⟨hint, rfl⟩ := Timer.restart_eq_some.mp hrestart
        exact progresses_of_next hint hrepeat (hprogress _ hmem) hrepeat
      · exact hprogress t ((mem_fire h hheap hfire).mpr (.inr ht))

/-- The loop ends if and only if every due timer that repeats gets on. -/
theorem returns_iff_progresses (h : q.timerHeap.Ordered) :
    (∃ q' ran, q.Returns now q' ran) ↔ q.timerHeap.Progresses now :=
  ⟨fun ⟨_, _, hreturns⟩ => progresses_of_returns h hreturns, exists_returns h⟩

end Still

/-! ## Every history -/

/-- The deadlines of a repeating timer, up to the first one after `now`. -/
structure Advances (timer : Timer κ) (now : TimeStamp) : Prop where
  expire : (timer.advanced now).expire = timer.expire + timer.firings now * timer.period
  late : now < (timer.advanced now).expire
  due : ∀ t ∈ timer.fired now, t.expire ≤ now
  period : timer.interval * TimeStamp.kMicroSecondsPerSecond < 2 ^ 59 →
    timer.period = timer.interval * TimeStamp.kMicroSecondsPerSecond

/-- With intervals of a second at least, and deadlines of 64 bits, the call returns, and
    every timer has run as often as its deadlines say, in their order. -/
theorem handleTimer_firingLaw {calls : List (Call κ)} {q : TimerQueue κ}
    (hrun : Runs.exec step new calls = some q) (now : TimeStamp)
    (hinterval : ∀ t ∈ q.timerHeap, t.repeat_ = true → 1 ≤ t.interval)
    (hfits : ∀ t ∈ q.timerHeap, t.repeat_ = true → t.expire ≤ now → t.Fits now) :
    (∃ q' ran, q.Returns now q' ran) ∧
      (∀ q' ran, q.Returns now q' ran → FiringLaw q.timerHeap now q'.timerHeap ran) ∧
      ∀ t ∈ q.timerHeap, t.repeat_ = true → Advances t now := by
  have hordered := ordered_of_exec hrun
  have hprogress : q.timerHeap.Progresses now :=
    fun t ht hrepeat hdue => ⟨hinterval t ht hrepeat, hfits t ht hrepeat hdue⟩
  refine ⟨exists_returns hordered hprogress, fun q' ran => firingLaw_of_returns hordered hprogress,
    fun t ht hrepeat => ?_⟩
  obtain ⟨hlate, hdue⟩ := Timer.lt_advanced hrepeat (hprogress t ht)
  have hnonneg : 0 ≤ t.interval := Int.one_nonneg.trans (hinterval t ht hrepeat)
  exact ⟨Timer.expire_iterate t _, hlate, hdue, microseconds_eq hnonneg⟩

/-- Every second, from the first one on. -/
def everySecond : Timer Bool :=
  { expire := 1000000, repeat_ := true, interval := 1, timerHandler := true }

def once : Timer Bool :=
  { expire := 2000000, repeat_ := false, interval := 0, timerHandler := false }

/-- Two timers with a tie at two seconds. -/
def twoTimers : TimerQueue Bool := { timerHeap := [everySecond, once], nextTime := 1000000 }

theorem exec_twoTimers :
    Runs.exec step new [.addTimer once, .addTimer everySecond] = some twoTimers := by
  decide +kernel

theorem firingLaw_twoTimers :
    (∃ q' ran, twoTimers.Returns 3500000 q' ran) ∧
      (∀ q' ran, twoTimers.Returns 3500000 q' ran →
        FiringLaw twoTimers.timerHeap 3500000 q'.timerHeap ran) ∧
      ∀ t ∈ twoTimers.timerHeap, t.repeat_ = true → Advances t 3500000 :=
  handleTimer_firingLaw exec_twoTimers 3500000 (by decide) fun t ht hrepeat _ =>
    have hsmall : ∀ t ∈ twoTimers.timerHeap, t.repeat_ = true →
        -2 ^ 63 ≤ t.expire ∧ 0 ≤ t.period ∧ 3500000 + t.period < 2 ^ 63 := by
      decide +kernel
    have ⟨hexpire, hperiod, hlt⟩ := hsmall t ht hrepeat
    Timer.fits_of_lt hexpire hperiod (by decide) hlt

/-- After so many seconds that the microseconds are not a `double`. -/
def farApart : Timer Unit :=
  { expire := 1700000000000000, repeat_ := true, interval := 576460752307, timerHandler := () }

/-- After so many seconds that the microseconds are not of 64 bits. -/
def tooFarApart : Timer Unit := { farApart with interval := 9223372036855 }

/-- The next deadline is 64 microseconds late. -/
theorem floor_farApart :
    ¬ ∀ (calls : List (Call Unit)) (q : TimerQueue Unit) (now : TimeStamp) (q' : TimerQueue Unit)
        (ran : List (Timer Unit)),
        Runs.exec step new calls = some q →
          (∀ t ∈ q.timerHeap, t.repeat_ = true → 1 ≤ t.interval) → q.Returns now q' ran →
            ∀ timer, q.timerHeap = [timer] → timer.repeat_ = true → timer.expire ≤ now →
              (ran.length : Int) =
                (now - timer.expire) / (timer.interval * TimeStamp.kMicroSecondsPerSecond) + 1 := by
  intro hall
  have hexec : Runs.exec step new [.addTimer farApart] =
      some { timerHeap := [farApart], nextTime := 1700000000000000 } := by
    decide +kernel
  have hcall : handleTimer [stillTurn 578160752307000000] (some 578160752307000000)
      { timerHeap := [farApart], nextTime := 1700000000000000 } =
        some ({ timerHeap := [farApart.next], nextTime := farApart.next.expire }, [farApart]) := by
    decide +kernel
  have hcount := hall _ _ 578160752307000000 _ _ hexec (by decide) ⟨1, _, .inr rfl, hcall⟩ farApart
    rfl rfl (by decide)
  exact absurd hcount (by decide)

/-- The restart is out of 64 bits. -/
theorem returns_tooFarApart :
    ¬ ∀ (calls : List (Call Unit)) (q : TimerQueue Unit) (now : TimeStamp),
        Runs.exec step new calls = some q →
          (∀ t ∈ q.timerHeap, t.repeat_ = true → 1 ≤ t.interval) → ∃ q' ran, q.Returns now q' ran := by
  intro hall
  have hexec : Runs.exec step new [.addTimer tooFarApart] =
      some { timerHeap := [tooFarApart], nextTime := 1700000000000000 } := by
    decide +kernel
  obtain ⟨q', ran, hreturns⟩ := hall _ _ 1700000000000000 hexec (by decide)
  have hprogress := progresses_of_returns (ordered_of_exec hexec) hreturns
  have hfits := (hprogress tooFarApart List.mem_cons_self rfl le_rfl).2
  exact absurd hfits.period (by decide +kernel)

/-- The deadlines are not where the floor has them, and a restart can fail. -/
theorem not_floor_firings :
    (¬ ∀ (calls : List (Call Unit)) (q : TimerQueue Unit) (now : TimeStamp) (q' : TimerQueue Unit)
        (ran : List (Timer Unit)),
        Runs.exec step new calls = some q →
          (∀ t ∈ q.timerHeap, t.repeat_ = true → 1 ≤ t.interval) → q.Returns now q' ran →
            ∀ timer, q.timerHeap = [timer] → timer.repeat_ = true → timer.expire ≤ now →
              (ran.length : Int) =
                (now - timer.expire) / (timer.interval * TimeStamp.kMicroSecondsPerSecond) + 1) ∧
      ¬ ∀ (calls : List (Call Unit)) (q : TimerQueue Unit) (now : TimeStamp),
        Runs.exec step new calls = some q →
          (∀ t ∈ q.timerHeap, t.repeat_ = true → 1 ≤ t.interval) → ∃ q' ran, q.Returns now q' ran :=
  ⟨floor_farApart, returns_tooFarApart⟩

end TimerQueue

end QGServer
