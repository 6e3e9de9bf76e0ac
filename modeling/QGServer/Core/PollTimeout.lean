-- SUMMARY: How long the event loop lets poll wait, and when that is not longer than to the earliest timer.
import QGServer.Base.TimerQueue
import Mathlib.Data.Rat.Floor

/-!
# The timeout of poll

`EventLoop::loop` asks the timer queue for the next deadline, takes the clock
from it if that is still before it, and passes the time stamp to
`Pollpoller::Wait`, which makes an `int` of milliseconds of it. The one variable
has an absolute time before and a time span after, and an absolute time again
where the clock has passed the deadline.
-/

namespace QGServer

/-- The local variable `next_time` of `EventLoop::loop`, when the clock reads `now`. -/
def loopTime (nextTime now : TimeStamp) : TimeStamp :=
  if nextTime ≠ 0 then
    if now < nextTime then nextTime - now else nextTime
  else nextTime

/-- The local variable `wait_time` of `Pollpoller::Wait`, a `qg_int`. -/
def waitTime (timeStamp : TimeStamp) : Int :=
  if timeStamp ≠ 0 then timeStamp.toMilliseconds.bmod (2 ^ 32) else -1

namespace TimerQueue

variable {κ : Type*}

/-- What `poll` gets after a call of `handleTimer`. -/
def pollWait (q : TimerQueue κ) (now : TimeStamp) : Int := waitTime (loopTime q.nextTime now)

/-- The whole milliseconds, rounded up, from one time to another, 0 if that has passed. -/
def millisecondsTo (expire now : TimeStamp) : Int := max 0 ⌈((expire - now : Int) : ℚ) / 1000⌉

/-- `poll` does not wait past the earliest timer, and for ever only without one. -/
structure InTime (q : TimerQueue κ) (now : TimeStamp) : Prop where
  bounded : ∀ timer, q.Earliest timer →
    0 ≤ q.pollWait now ∧ q.pollWait now ≤ millisecondsTo timer.expire now
  forever : q.pollWait now = -1 → q.timerHeap = []

/-- The next time, the earliest deadline and the clock are so that `poll` gets a
    time span that the `int` holds. -/
structure Fits (nextTime expire now : TimeStamp) : Prop where
  ne_zero : nextTime ≠ 0
  /-- The clock has passed the next time, whose milliseconds the `int` turns into 0. -/
  passed : nextTime ≤ now → (2 : Int) ^ 32 ∣ nextTime.toMilliseconds
  ahead : now < nextTime → (nextTime - now) / 1000 % 2 ^ 32 < 2 ^ 31
  /-- The next time is not the earliest deadline. -/
  late : now < nextTime → expire < nextTime →
    (nextTime - now) / 1000 % 2 ^ 32 ≤ millisecondsTo expire now

/-! ## The `int` -/

theorem bmod_nonneg_iff (x : Int) : 0 ≤ x.bmod (2 ^ 32) ↔ x % 2 ^ 32 < 2 ^ 31 := by
  rw [Int.bmod_def]
  split <;> omega

theorem bmod_of_lt {x : Int} (hx : x % 2 ^ 32 < 2 ^ 31) : x.bmod (2 ^ 32) = x % 2 ^ 32 := by
  rw [Int.bmod_def]
  split <;> omega

theorem millisecondsTo_of_le {expire now : TimeStamp} (h : expire ≤ now) :
    millisecondsTo expire now = 0 := by
  have hceil : ⌈((expire - now : Int) : ℚ) / 1000⌉ ≤ 0 := by
    rw [Int.ceil_le]
    have hle : ((expire - now : Int) : ℚ) ≤ 0 := by exact_mod_cast sub_nonpos.mpr h
    simpa using div_nonpos_of_nonpos_of_nonneg hle (by norm_num)
  exact max_eq_left hceil

/-- Rounded down it is not more. -/
theorem div_le_millisecondsTo (expire now : TimeStamp) :
    (expire - now) / 1000 ≤ millisecondsTo expire now := by
  have hfloor := Rat.floor_intCast_div_natCast (expire - now) 1000
  have hle := Int.floor_le_ceil (((expire - now : Int) : ℚ) / ((1000 : ℕ) : ℚ))
  rw [hfloor] at hle
  exact le_max_of_le_right hle

/-! ## The wait of a time stamp -/

theorem waitTime_zero : waitTime 0 = -1 := if_neg (not_not_intro rfl)

/-- No wait: the milliseconds of the time stamp are lost. -/
theorem waitTime_eq_zero_iff {t : TimeStamp} (ht : t ≠ 0) :
    waitTime t = 0 ↔ (2 : Int) ^ 32 ∣ t.toMilliseconds := by
  rw [waitTime, if_pos ht, Int.bmod_def]
  split <;> omega

/-- A time span gives its milliseconds, if the `int` holds them. -/
theorem waitTime_span {t : TimeStamp} (ht : 0 < t) (bound : Int) :
    0 ≤ waitTime t ∧ waitTime t ≤ bound ↔
      t / 1000 % 2 ^ 32 < 2 ^ 31 ∧ t / 1000 % 2 ^ 32 ≤ bound := by
  have hms : t.toMilliseconds = t / 1000 := Int.tdiv_eq_ediv_of_nonneg ht.le
  rw [waitTime, if_pos ht.ne', hms, bmod_nonneg_iff]
  exact and_congr_right fun hx => by rw [bmod_of_lt hx]

section Wait

variable {q q' : TimerQueue κ} {timer : Timer κ} {now : TimeStamp} {turns : List (Turn κ)}
  {last : Option TimeStamp} {ran : List (Timer κ)} {calls : List (Call κ)}

/-- What it comes to for one timer. -/
theorem bounded_iff (hle : timer.expire ≤ q.nextTime) :
    0 ≤ q.pollWait now ∧ q.pollWait now ≤ millisecondsTo timer.expire now ↔
      Fits q.nextTime timer.expire now := by
  unfold pollWait loopTime
  by_cases hzero : q.nextTime = 0
  · rw [if_neg (not_not_intro hzero), hzero, waitTime_zero]
    exact iff_of_false (fun h => by omega) fun h => h.ne_zero rfl
  rw [if_pos hzero]
  by_cases hnow : now < q.nextTime
  · have hspan : 0 < q.nextTime - now := sub_pos.mpr hnow
    rw [if_pos hnow, waitTime_span hspan]
    constructor
    · rintro ⟨hfits, hbound⟩
      exact ⟨hzero, fun hle => absurd hnow (not_lt.mpr hle), fun _ => hfits, fun _ _ => hbound⟩
    · intro h
      refine ⟨h.ahead hnow, ?_⟩
      rcases hle.lt_or_eq with hlt | heq
      · exact h.late hnow hlt
      · rw [heq]
        have hmod : ∀ x : Int, 0 ≤ x → x % 2 ^ 32 ≤ x := by omega
        exact (hmod _ (Int.ediv_nonneg hspan.le (by decide))).trans
          (div_le_millisecondsTo q.nextTime now)
  · have hpassed := not_lt.mp hnow
    rw [if_neg hnow, millisecondsTo_of_le (hle.trans hpassed), and_comm, ← le_antisymm_iff,
      waitTime_eq_zero_iff hzero]
    exact ⟨fun hdvd => ⟨hzero, fun _ => hdvd, fun hlt => absurd hlt hnow, fun hlt => absurd hlt hnow⟩,
      fun h => h.passed hpassed⟩

/-- After a call of `handleTimer` in any history, `poll` waits as it should if and
    only if the next time fits the clock. -/
theorem inTime_iff (hrun : Runs.exec step new calls = some q)
    (hcall : q.handleTimer turns last = some (q', ran)) (now : TimeStamp) :
    q'.InTime now ↔ ∀ timer, q'.Earliest timer → Fits q'.nextTime timer.expire now := by
  have hordered := ordered_handleTimer (ordered_of_exec hrun) hcall
  have htop : ∀ timer rest, q'.timerHeap = timer :: rest → q'.Earliest timer := by
    intro timer rest hheap
    refine ⟨hheap ▸ List.mem_cons_self, hordered.top_le ?_⟩
    rw [TimerHeap.top, hheap]
    rfl
  have hle : ∀ timer, q'.Earliest timer → timer.expire ≤ q'.nextTime := by
    intro timer hearliest
    obtain ⟨latestTimer, rest, hheap⟩ := List.exists_cons_of_ne_nil (List.ne_nil_of_mem hearliest.1)
    exact (hearliest.2 _ (htop _ _ hheap).1).trans (le_nextTime hcall hheap)
  constructor
  · exact fun h timer hearliest => (bounded_iff (hle timer hearliest)).mp (h.bounded timer hearliest)
  · intro hall
    have hbounded := fun timer hearliest =>
      (bounded_iff (hle timer hearliest)).mpr (hall timer hearliest)
    refine ⟨hbounded, fun hforever => ?_⟩
    by_contra hne
    obtain ⟨latestTimer, rest, hheap⟩ := List.exists_cons_of_ne_nil hne
    have hwait := hbounded _ (htop _ _ hheap)
    rw [hforever] at hwait
    exact absurd hwait.1 (by decide)

/-- While the clock has not passed the next time, that is the earliest deadline, if
    the clock was never further than it is now. -/
theorem nextTime_eq (hrun : Runs.exec step new (calls ++ [.handleTimer turns last]) = some q)
    (hreadings : ∀ call ∈ calls ++ [.handleTimer turns last], ∀ r ∈ call.readings, r ≤ now)
    (hearliest : q.Earliest timer) (hne : q.nextTime ≠ 0) (hnow : now < q.nextTime) :
    q.nextTime = timer.expire := by
  have hcovered := covered_of_exec hrun hreadings
  have hge : q.nextTime ≤ timer.expire := by
    rcases hcovered with hzero | hle | hall
    · exact absurd hzero hne
    · exact absurd hle (not_le.mpr hnow)
    · exact hall timer hearliest.1
  rw [Runs.exec_concat] at hrun
  obtain ⟨p, hp, hstep⟩ := Option.bind_eq_some_iff.mp hrun
  obtain ⟨⟨q', ran⟩, hcall, rfl⟩ := Option.map_eq_some_iff.mp hstep
  obtain ⟨latestTimer, rest, hheap⟩ := List.exists_cons_of_ne_nil (List.ne_nil_of_mem hearliest.1)
  have htop : latestTimer ∈ q'.timerHeap := hheap ▸ List.mem_cons_self
  exact le_antisymm hge ((hearliest.2 _ htop).trans (le_nextTime hcall hheap))

end Wait

/-- A timer for one second after 1700000000 seconds. -/
def oneSecond : Timer Unit :=
  { expire := 1700000001000000, repeat_ := false, interval := 0, timerHandler := () }

/-- The timer waits in the queue. -/
def pending : TimerQueue Unit := { timerHeap := [oneSecond], nextTime := 1700000001000000 }

theorem exec_pending : Runs.exec step new [.addTimer oneSecond] = some pending := by
  decide +kernel

/-- The timer is not due yet. -/
theorem handleTimer_pending :
    pending.handleTimer [] (some 1700000000000000) = some (pending, []) := by
  decide +kernel

/-- The clock has not moved. -/
theorem inTime_iff_pending :
    pending.InTime 1700000000000000 ↔
      ∀ timer, pending.Earliest timer → Fits pending.nextTime timer.expire 1700000000000000 :=
  inTime_iff exec_pending handleTimer_pending 1700000000000000

/-- The clock comes to the deadline between the two readings. -/
theorem not_inTime_passed :
    ¬ ∀ (calls : List (Call Unit)) (q : TimerQueue Unit) (turns : List (Turn Unit))
        (last : Option TimeStamp) (q' : TimerQueue Unit) (ran : List (Timer Unit)) (now : TimeStamp),
        Runs.exec step new calls = some q → q.handleTimer turns last = some (q', ran) →
          (∀ r ∈ readings turns last, r ≤ now) → q'.InTime now := by
  intro hall
  have hin := hall _ _ _ _ _ _ 1700000001000000 exec_pending handleTimer_pending (by decide)
  have hearliest : pending.Earliest oneSecond := by
    unfold Earliest
    decide
  have hwait := (hin.bounded oneSecond hearliest).1
  exact absurd hwait (by decide)

end TimerQueue

end QGServer
