-- SUMMARY: With deadlines after 0 and intervals of a second at least, the next time is the earliest deadline after every call.
import QGServer.Base.TimerQueue

/-!
# The next time

While `handleTimer` runs, the next time may be behind the timers, but it is never
past one of them; the last turn brings it up to the timer on top. Outside, a timer
that is added before the others brings it down.
-/

namespace QGServer

/-- The deadline is not the 0 that stands for no timer, and a restart leads on. -/
structure Timer.Regular {κ : Type*} (timer : Timer κ) : Prop where
  expire_pos : 0 < timer.expire
  interval : timer.repeat_ = true → 1 ≤ timer.interval

namespace TimerQueue

variable {κ : Type*}

/-- The timers that come to the queue in a call. -/
def Call.timers : Call κ → List (Timer κ)
  | .addTimer timer => [timer]
  | .handleTimer turns _ => turns.flatMap Turn.added

/-- What holds all the time: the next time is 0, or not past a timer. -/
structure Behind (q : TimerQueue κ) : Prop where
  ordered : q.timerHeap.Ordered
  regular : ∀ t ∈ q.timerHeap, t.Regular
  nonneg : 0 ≤ q.nextTime
  covered : Covered 0 q

/-- What holds between the calls. -/
structure Exact (q : TimerQueue κ) : Prop where
  empty : q.timerHeap = [] → q.nextTime = 0
  earliest : ∀ timer, q.Earliest timer → q.nextTime = timer.expire

section NextTime

variable {q q' : TimerQueue κ} {latestTimer timer : Timer κ} {rest : TimerHeap κ}
  {added : List (Timer κ)} {turns : List (Turn κ)} {last : Option TimeStamp}
  {ran : List (Timer κ)} {calls : List (Call κ)}

/-- Next times that are not too early are right. -/
theorem Behind.exact (h : q.Behind) (hempty : q.timerHeap = [] → q.nextTime = 0)
    (hlate : ∀ t, q.Earliest t → t.expire ≤ q.nextTime) : q.Exact := by
  refine ⟨hempty, fun t ht => le_antisymm ?_ (hlate t ht)⟩
  have hpos : 0 < q.nextTime := (h.regular t ht.1).expire_pos.trans_le (hlate t ht)
  rcases h.covered with hzero | hle | hall
  · exact absurd hzero hpos.ne'
  · exact absurd hle (not_le.mpr hpos)
  · exact hall t ht.1

/-! ## New timers -/

theorem mem_addTimer (h : q.timerHeap.Ordered) {t : Timer κ} :
    t ∈ (q.addTimer timer).timerHeap ↔ t = timer ∨ t ∈ q.timerHeap := by
  rw [timerHeap_addTimer, (TimerHeap.addTimer_spec h timer).perm.mem_iff, List.mem_cons]

theorem behind_addTimer (h : q.Behind) (ht : timer.Regular) : (q.addTimer timer).Behind := by
  refine ⟨?_, ?_, ?_, covered_addTimer h.ordered h.covered timer⟩
  · rw [timerHeap_addTimer]
    exact (TimerHeap.addTimer_spec h.ordered timer).ordered
  · intro t hmem
    rcases (mem_addTimer h.ordered).mp hmem with rfl | hmem
    · exact ht
    · exact h.regular t hmem
  · unfold addTimer
    dsimp only
    split
    · exact ht.expire_pos.le
    · exact h.nonneg

theorem behind_addTimers (h : q.Behind) (hadded : ∀ t ∈ added, t.Regular) :
    (q.addTimers added).Behind := by
  induction added generalizing q with
  | nil => exact h
  | cons timer added ih =>
      obtain ⟨htimer, hrest⟩ := List.forall_mem_cons.mp hadded
      exact ih (behind_addTimer h htimer) hrest

theorem exact_addTimer (h : q.Behind) (hexact : q.Exact) (ht : timer.Regular) :
    (q.addTimer timer).Exact := by
  have hmem : ∀ t, t ∈ (q.addTimer timer).timerHeap ↔ t = timer ∨ t ∈ q.timerHeap :=
    fun t => mem_addTimer h.ordered
  apply (behind_addTimer h ht).exact
  · intro hempty
    have hnew := (hmem timer).mpr (.inl rfl)
    rw [hempty] at hnew
    exact absurd hnew List.not_mem_nil
  intro t hearliest
  by_cases hnext : (q.push timer).1 = true ∧ (q.nextTime = 0 ∨ timer.expire < q.nextTime)
  · have hnew : (q.addTimer timer).nextTime = timer.expire :=
      congrArg TimerQueue.nextTime (if_pos hnext)
    rw [hnew]
    exact hearliest.2 timer ((hmem timer).mpr (.inl rfl))
  · have hold : (q.addTimer timer).nextTime = q.nextTime := by
      have hadd : q.addTimer timer = (q.push timer).2 := if_neg hnext
      rw [hadd]
      rfl
    rw [hold]
    -- there was a timer that is not after the new one
    cases hheap : q.timerHeap with
    | nil =>
        refine absurd ⟨?_, .inl (hexact.empty hheap)⟩ hnext
        rw [push_iff h.ordered, hheap]
        exact fun _ hnil => absurd hnil List.not_mem_nil
    | cons oldTop rest =>
        have htop : oldTop ∈ q.timerHeap := hheap ▸ List.mem_cons_self
        have hfirst : q.Earliest oldTop :=
          ⟨htop, h.ordered.top_le (TimerHeap.top_of_eq hheap)⟩
        rw [hexact.earliest oldTop hfirst]
        exact hearliest.2 oldTop ((hmem oldTop).mpr (.inr htop))

/-! ## handleTimer -/

/-- What remains of a timer is not before it. -/
theorem remains_spec {t : Timer κ} (h : latestTimer.Regular) (ht : t ∈ remains latestTimer) :
    t.Regular ∧ latestTimer.expire ≤ t.expire := by
  obtain ⟨hrepeat, hrestart⟩ := mem_remains.mp ht
  obtain ⟨expire, hadd, rfl⟩ := Option.map_eq_some_iff.mp hrestart
  have hle : latestTimer.expire ≤ expire :=
    le_of_addTime (Int.one_nonneg.trans (h.interval hrepeat)) hadd
  exact ⟨⟨h.expire_pos.trans_le hle, h.interval⟩, hle⟩

theorem behind_fire (h : q.Behind) (hheap : q.timerHeap = latestTimer :: rest)
    (hadded : ∀ t ∈ added, t.Regular) (hfire : q.fire latestTimer added = some q') : q'.Behind := by
  have hold : ∀ t, t = latestTimer ∨ t ∈ rest → t ∈ q.timerHeap := by
    intro t ht
    rw [hheap]
    exact List.mem_cons.mpr ht
  have hlatest : latestTimer.Regular := h.regular _ (hold _ (.inl rfl))
  obtain ⟨heap, hfirst, rfl⟩ := fire_eq_some hfire
  have hrest : Behind { q with timerHeap := heap } := by
    refine ⟨(fire_spec h.ordered hheap hfirst).ordered, ?_, h.nonneg,
      h.covered.imp id (Or.imp id fun hall => ?_)⟩
    · intro t ht
      rcases (mem_fire h.ordered hheap hfirst).mp ht with ht | ht
      · exact (remains_spec hlatest ht).1
      · exact h.regular t (hold t (.inr ht))
    · intro t ht
      rcases (mem_fire h.ordered hheap hfirst).mp ht with ht | ht
      · exact (hall _ (hold _ (.inl rfl))).trans (remains_spec hlatest ht).2
      · exact hall t (hold t (.inr ht))
  exact behind_addTimers hrest hadded

theorem behind_handleTimer (h : q.Behind) (hadded : ∀ turn ∈ turns, ∀ t ∈ turn.added, t.Regular)
    (hcall : q.handleTimer turns last = some (q', ran)) :
    q'.Behind ∧ (q'.timerHeap = [] → q'.nextTime = 0) := by
  induction turns generalizing q ran with
  | nil =>
      obtain ⟨hempty, hq', -⟩ | ⟨latestTimer, rest, now, hheap, -, -, -, hq'⟩ := handleTimer_nil hcall
      · rw [hq']
        exact ⟨⟨h.ordered, h.regular, le_rfl, .inl rfl⟩, fun _ => rfl⟩
      · have htop : latestTimer ∈ q.timerHeap := hheap ▸ List.mem_cons_self
        have hfirst := h.ordered.top_le (TimerHeap.top_of_eq hheap)
        rw [hq']
        split
        · refine ⟨⟨h.ordered, h.regular, ?_, .inr (.inr hfirst)⟩, fun hempty => ?_⟩
          · exact (h.regular _ htop).expire_pos.le
          · exact absurd (hheap.symm.trans hempty) (List.cons_ne_nil _ _)
        · exact ⟨h, fun hempty => absurd (hheap.symm.trans hempty) (List.cons_ne_nil _ _)⟩
  | cons turn turns ih =>
      obtain ⟨latestTimer, rest, q₁, ran', hheap, -, hfire, hrest, -⟩ := handleTimer_cons hcall
      obtain ⟨hturn, hturns⟩ := List.forall_mem_cons.mp hadded
      exact ih (behind_fire h hheap hturn hfire) hturns hrest

theorem exact_handleTimer (h : q.Behind) (hadded : ∀ turn ∈ turns, ∀ t ∈ turn.added, t.Regular)
    (hcall : q.handleTimer turns last = some (q', ran)) : q'.Exact := by
  obtain ⟨hbehind, hempty⟩ := behind_handleTimer h hadded hcall
  apply hbehind.exact hempty
  intro t hearliest
  obtain ⟨latestTimer, rest, hheap⟩ := List.exists_cons_of_ne_nil (List.ne_nil_of_mem hearliest.1)
  have htop : latestTimer ∈ q'.timerHeap := hheap ▸ List.mem_cons_self
  exact (hearliest.2 latestTimer htop).trans (le_nextTime hcall hheap)

/-- After every call of a history the next time is the earliest deadline, whatever the
    clock has read. -/
theorem nextTime_exact (hrun : Runs.exec step new calls = some q)
    (hregular : ∀ call ∈ calls, ∀ t ∈ call.timers, t.Regular) : q.Exact := by
  suffices hboth : q.Behind ∧ q.Exact from hboth.2
  apply Runs.exec_induction
    (fun calls q => (∀ call ∈ calls, ∀ t ∈ call.timers, t.Regular) → q.Behind ∧ q.Exact)
    _ _ hrun hregular
  · intro _
    refine ⟨⟨TimerHeap.ordered_nil, fun _ hnil => absurd hnil List.not_mem_nil, le_rfl, .inl rfl⟩,
      fun _ => rfl, fun t ht => absurd ht.1 List.not_mem_nil⟩
  · intro calls call p p' ih _ hstep hall
    obtain ⟨hbehind, hexact⟩ := ih fun c hc => hall c (List.mem_append_left _ hc)
    have hcall := hall call (List.mem_append_right _ List.mem_cons_self)
    cases call with
    | addTimer timer =>
        obtain rfl := Option.some.inj hstep
        have htimer : timer.Regular := hcall timer List.mem_cons_self
        exact ⟨behind_addTimer hbehind htimer, exact_addTimer hbehind hexact htimer⟩
    | handleTimer turns last =>
        obtain ⟨⟨_, ran⟩, hhandle, rfl⟩ := Option.map_eq_some_iff.mp hstep
        have hadded : ∀ turn ∈ turns, ∀ t ∈ turn.added, t.Regular :=
          fun turn hturn t ht => hcall t (List.mem_flatMap.mpr ⟨turn, hturn, ht⟩)
        exact ⟨(behind_handleTimer hbehind hadded hhandle).1,
          exact_handleTimer hbehind hadded hhandle⟩

end NextTime

/-- While the timer runs for the second time, its callback adds a timer that is before
    its next deadline; the clock goes back at the end. -/
theorem nextTime_exact_added :
    Exact { timerHeap := [⟨2500000, false, 0, false⟩, ⟨3000000, true, 1, true⟩],
            nextTime := 2500000 } := by
  have hrun : Runs.exec step new
      [.addTimer ⟨1000000, true, 1, true⟩,
        .handleTimer [⟨2100000, []⟩, ⟨2200000, [⟨2500000, false, 0, false⟩]⟩] (some 1900000)] =
      some { timerHeap := [⟨2500000, false, 0, false⟩, ⟨3000000, true, 1, true⟩],
             nextTime := 2500000 } := by
    decide +kernel
  apply nextTime_exact hrun
  intro call hcall t ht
  simp only [List.mem_cons, List.not_mem_nil, or_false] at hcall
  obtain rfl | rfl := hcall
  · obtain rfl := List.mem_singleton.mp ht
    exact ⟨by decide, fun _ => le_rfl⟩
  · obtain rfl := List.mem_singleton.mp ht
    exact ⟨by decide, fun hrepeat => nomatch hrepeat⟩

end TimerQueue

end QGServer
