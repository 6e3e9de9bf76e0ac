-- SUMMARY: The timers that an event loop creates, and when handleTimer returns with them while the clock stands still.
import QGServer.Base.TimerFirings

/-!
# The timers of an event loop

`EventLoop::runAfter`, `runAt` and `runEvery`. None of them looks at the number
it is given: the interval of `runEvery` may be 0 or negative, and it may be so large
that a restart is out of 64 bits.
-/

namespace QGServer

/-- What a program asks an event loop for. `now` is what the clock reads then. -/
inductive TimerRequest (κ : Type*) where
  | runAfter (now : TimeStamp) (time : Int) (cb : κ)
  | runAt (time : TimeStamp) (cb : κ)
  | runEvery (now : TimeStamp) (interval : Int) (cb : κ)

namespace TimerRequest

variable {κ : Type*}

/-- No timer is made where the deadline of `runAfter` is out of 64 bits. -/
def timer : TimerRequest κ → Option (Timer κ)
  | .runAfter now time cb =>
    (addTime now time).map fun expire =>
      { expire := expire, repeat_ := false, interval := 0, timerHandler := cb }
  | .runAt time cb => some { expire := time, repeat_ := false, interval := 0, timerHandler := cb }
  | .runEvery now interval cb =>
    some { expire := now, repeat_ := true, interval := interval, timerHandler := cb }

def request (q : TimerQueue κ) (r : TimerRequest κ) : Option (TimerQueue κ) :=
  r.timer.map fun timer => q.addTimer timer

/-- The queue of a new event loop after the requests. -/
def queue (requests : List (TimerRequest κ)) : Option (TimerQueue κ) :=
  Runs.exec request TimerQueue.new requests

/-- If the timer repeats and is due at `now`, it does so after a second at least, and the
    deadlines up to the first one after `now` are of 64 bits. -/
def Progresses (now : TimeStamp) : TimerRequest κ → Prop
  | .runEvery start interval _ =>
    start ≤ now → 1 ≤ interval ∧ IsInt64 (microseconds interval) ∧
      ∀ n : Nat, start + n * microseconds interval ≤ now →
        IsInt64 (start + (n + 1) * microseconds interval)
  | _ => True

theorem progresses_timer {r : TimerRequest κ} {t : Timer κ} (h : r.timer = some t) (now : TimeStamp) :
    t.Progresses now ↔ r.Progresses now := by
  cases r with
  | runAfter start time cb =>
      obtain ⟨expire, -, rfl⟩ := Option.map_eq_some_iff.mp h
      exact ⟨fun _ => trivial, fun _ h => nomatch h⟩
  | runAt time cb =>
      obtain rfl := Option.some.inj h
      exact ⟨fun _ => trivial, fun _ h => nomatch h⟩
  | runEvery start interval cb =>
      obtain rfl := Option.some.inj h
      constructor
      · intro hprogress hdue
        obtain ⟨hpos, hperiod, hdeadlines⟩ := hprogress rfl hdue
        exact ⟨hpos, hperiod, hdeadlines⟩
      · rintro hprogress - hdue
        obtain ⟨hpos, hperiod, hdeadlines⟩ := hprogress hdue
        exact ⟨hpos, hperiod, hdeadlines⟩

/-- The timers of the requests are in the queue, and no others. -/
theorem queue_spec {requests : List (TimerRequest κ)} {q : TimerQueue κ} (h : queue requests = some q) :
    q.timerHeap.Ordered ∧ (∀ r ∈ requests, r.timer.isSome) ∧
      ∀ t, t ∈ q.timerHeap ↔ ∃ r ∈ requests, r.timer = some t := by
  apply Runs.exec_induction (fun (requests : List (TimerRequest κ)) (q : TimerQueue κ) =>
    q.timerHeap.Ordered ∧ (∀ r ∈ requests, r.timer.isSome) ∧
      ∀ t, t ∈ q.timerHeap ↔ ∃ r ∈ requests, r.timer = some t) _ _ h
  · exact ⟨TimerHeap.ordered_nil, fun _ hnil => absurd hnil List.not_mem_nil,
      fun t => by simp [TimerQueue.new]⟩
  · rintro requests r q q' ⟨hordered, hmade, hmem⟩ - hrequest
    obtain ⟨timer, htimer, rfl⟩ := Option.map_eq_some_iff.mp hrequest
    have hadd := TimerHeap.addTimer_spec hordered timer
    rw [TimerQueue.timerHeap_addTimer]
    refine ⟨hadd.ordered, ?_, fun t => ?_⟩
    · intro r' hr'
      rcases List.mem_append.mp hr' with hr' | hr'
      · exact hmade r' hr'
      · rw [List.mem_singleton.mp hr', htimer]
        rfl
    · rw [hadd.perm.mem_iff, List.mem_cons, hmem]
      simp only [List.mem_append, List.mem_singleton, or_and_right, exists_or, exists_eq_left, htimer,
        Option.some.injEq]
      rw [or_comm, eq_comm]

/-- The call returns if and only if every due request to repeat is for a second at
    least and stays within 64 bits. -/
theorem handleTimer_returns_iff {requests : List (TimerRequest κ)} {q : TimerQueue κ}
    (hmade : queue requests = some q) (now : TimeStamp) :
    (∃ q' ran, q.Returns now q' ran) ↔ ∀ r ∈ requests, r.Progresses now := by
  obtain ⟨hordered, hsome, hmem⟩ := queue_spec hmade
  rw [TimerQueue.returns_iff_progresses hordered]
  constructor
  · intro h r hr
    obtain ⟨t, ht⟩ := Option.isSome_iff_exists.mp (hsome r hr)
    exact (progresses_timer ht now).mp (h t ((hmem t).mpr ⟨r, hr, ht⟩))
  · intro h t ht
    obtain ⟨r, hr, htimer⟩ := (hmem t).mp ht
    exact (progresses_timer htimer now).mpr (h r hr)

/-- One timer every second, and one after ten minutes. -/
theorem handleTimer_returns_iff_two :
    ∃ q, queue [.runEvery 1700000000000000 1 true, .runAfter 1700000000000000 600 false] = some q ∧
      ∃ q' ran, q.Returns 1700000060000000 q' ran := by
  obtain ⟨q, hq⟩ : ∃ q, queue
      [.runEvery 1700000000000000 1 true, .runAfter 1700000000000000 600 false] = some q :=
    Option.isSome_iff_exists.mp (by decide +kernel)
  have hsecond : microseconds 1 = 1000000 := by decide +kernel
  refine ⟨q, hq, (handleTimer_returns_iff hq 1700000060000000).mpr ?_⟩
  rw [List.forall_mem_cons, List.forall_mem_singleton]
  refine ⟨fun _ => ⟨le_rfl, ?_, fun n hn => ?_⟩, trivial⟩
  · rw [hsecond]
    decide
  · rw [hsecond] at hn ⊢
    change (1700000000000000 : Int) + n * 1000000 ≤ 1700000060000000 at hn
    constructor <;> omega

/-- A timer that is to run every 0 seconds is due for ever. -/
theorem not_returns_always :
    ¬ ∀ (requests : List (TimerRequest Unit)) (q : TimerQueue Unit) (now : TimeStamp),
        queue requests = some q → ∃ q' ran, q.Returns now q' ran := by
  intro hall
  obtain ⟨q, hq⟩ : ∃ q, queue [TimerRequest.runEvery 1700000000000000 0 ()] = some q :=
    Option.isSome_iff_exists.mp (by decide +kernel)
  obtain ⟨hordered, -, hmem⟩ := queue_spec hq
  obtain ⟨q', ran, hreturns⟩ := hall _ q 1700000000000000 hq
  have hprogress := TimerQueue.progresses_of_returns hordered hreturns
  have hinterval := (hprogress _ ((hmem _).mpr ⟨_, List.mem_cons_self, rfl⟩) rfl le_rfl).1
  exact absurd hinterval (by decide)

end TimerRequest

end QGServer
