-- SUMMARY: A thread that constructs an event loop and publishes it, and getLoop that waits for the pointer.
import Mathlib.Data.List.Basic

/-!
# LoopThread

`src/core/loop_thread.cpp`. The constructor starts the thread, and leaves `loop_`
as the memory was. The new thread constructs its event loop, and under the mutex
it stores the pointer and notifies; then it is in `loop` for ever. `getLoop` tests
the pointer under the mutex and waits for the notification while it is null; a
wait may also end without one.

Pointers are values of a type `α`.
-/

namespace QGServer

inductive MutexOwner where
  | thread
  | caller
  deriving DecidableEq, Repr

/-- Where the new thread is in `threadFunc`. -/
inductive ThreadPhase where
  /-- The event loop is not constructed yet. -/
  | constructing
  /-- Before the mutex. -/
  | locking
  /-- The thread has the mutex, also in the next two. -/
  | storing
  | notifying
  | unlocking
  | looping
  deriving DecidableEq, Repr

/-- Where the caller is in `getLoop`. -/
inductive CallerPhase (α : Type*) where
  /-- Before the mutex. -/
  | locking
  /-- The caller has the mutex, also in `leaving`. -/
  | testing
  /-- In `wait`, without the mutex. -/
  | waiting
  /-- Still in `wait`, before the mutex. -/
  | woken
  | leaving
  | returned (loop : α)
  deriving DecidableEq, Repr

structure LoopThread (α : Type*) where
  loop : α
  mutex : Option MutexOwner
  thread : ThreadPhase
  caller : CallerPhase α
  deriving DecidableEq, Repr

/-- `notify_one`: a waiting caller wakes up. -/
def CallerPhase.notified {α : Type*} : CallerPhase α → CallerPhase α
  | .waiting => .woken
  | phase => phase

/-- The pointer is stored. -/
def ThreadPhase.published : ThreadPhase → Bool
  | .constructing | .locking | .storing => false
  | .notifying | .unlocking | .looping => true

/-- The notification is sent. -/
def ThreadPhase.sent : ThreadPhase → Bool
  | .unlocking | .looping => true
  | _ => false

namespace LoopThread

variable {α : Type*}

/-! ## Functions -/

/-- The constructor. `loop_` is what the memory held. -/
def new (loop : α) : LoopThread α :=
  { loop := loop, mutex := none, thread := .constructing, caller := .locking }

/-- The next step of `threadFunc`; the event loop is constructed at `addr`. -/
def threadFunc (addr : α) (t : LoopThread α) : Option (LoopThread α) :=
  match t.thread with
  | .constructing => some { t with thread := .locking }
  | .locking =>
    if t.mutex = none then some { t with mutex := some .thread, thread := .storing } else none
  | .storing => some { t with loop := addr, thread := .notifying }
  | .notifying => some { t with caller := t.caller.notified, thread := .unlocking }
  | .unlocking => some { t with mutex := none, thread := .looping }
  -- `EventLoop::loop` does not return
  | .looping => none

/-- The next step of `getLoop`. -/
def getLoop [DecidableEq α] (null : α) (t : LoopThread α) : Option (LoopThread α) :=
  match t.caller with
  | .locking | .woken =>
    if t.mutex = none then some { t with mutex := some .caller, caller := .testing } else none
  | .testing =>
    if t.loop = null then some { t with mutex := none, caller := .waiting }
    else some { t with caller := .leaving }
  | .waiting => none
  | .leaving => some { t with mutex := none, caller := .returned t.loop }
  | .returned _ => none

/-- A wait ends without a notification. -/
def wakeUp (t : LoopThread α) : Option (LoopThread α) :=
  match t.caller with
  | .waiting => some { t with caller := .woken }
  | _ => none

/-! ## The handshake -/

/-- The mutex is with the one that is in its critical section, the pointer is stored or
    as it was, and a caller that waits will be notified. -/
structure Inv (init addr : α) (t : LoopThread α) : Prop where
  threadOwns : t.mutex = some .thread ↔
    t.thread = .storing ∨ t.thread = .notifying ∨ t.thread = .unlocking
  callerOwns : t.mutex = some .caller ↔ t.caller = .testing ∨ t.caller = .leaving
  loop : t.loop = if t.thread.published then addr else init
  awaited : t.caller = .waiting → t.thread.sent = false

/-- What `getLoop` returns, or is about to return, is the pointer to the event loop of
    the thread. -/
structure Right (addr : α) (t : LoopThread α) : Prop where
  leaving : t.caller = .leaving → t.loop = addr
  returned : ∀ loop, t.caller = .returned loop → loop = addr

/-- A test before the pointer is stored finds null, or that very pointer. -/
def Honest (null init addr : α) (t : LoopThread α) : Prop :=
  t.caller = .testing → t.thread.published = false → init = null ∨ init = addr

/-- A step of either side: it keeps the invariant, what `getLoop` has returned, and
    whether that is right unless `P` fails. -/
structure Moves (init addr : α) (P : Prop) (t t' : LoopThread α) : Prop where
  inv : Inv init addr t'
  right : Right addr t' ↔ Right addr t ∧ P
  returned : ∀ loop, t.caller = .returned loop → t'.caller = .returned loop

section Steps

variable {init addr null : α} {t t' : LoopThread α}

theorem inv_new (init addr : α) : Inv init addr (new init) := by
  refine ⟨by simp [new], by simp [new], rfl, fun h => ?_⟩
  cases h

theorem right_new (init addr : α) : Right addr (new init) := by
  refine ⟨fun h => ?_, fun loop h => ?_⟩
  · cases h
  · cases h

/-- A caller that has the mutex keeps the thread out of its critical section. -/
theorem Inv.exclusive (h : Inv init addr t) (hcaller : t.caller = .testing ∨ t.caller = .leaving) :
    t.thread ≠ .storing ∧ t.thread ≠ .notifying ∧ t.thread ≠ .unlocking := by
  have howns := h.callerOwns.mpr hcaller
  have hnot : ¬(t.thread = .storing ∨ t.thread = .notifying ∨ t.thread = .unlocking) := by
    rw [← h.threadOwns, howns]
    simp
  exact ⟨fun h => hnot (.inl h), fun h => hnot (.inr (.inl h)), fun h => hnot (.inr (.inr h))⟩

/-- A notification is for a waiting caller only. -/
theorem notified_eq_iff {phase phase' : CallerPhase α} (hwaiting : phase' ≠ .waiting)
    (hwoken : phase' ≠ .woken) : phase.notified = phase' ↔ phase = phase' := by
  cases phase with
  | waiting => exact iff_of_false hwoken.symm hwaiting.symm
  | _ => exact Iff.rfl

theorem notified_ne_waiting (phase : CallerPhase α) : phase.notified ≠ .waiting := by
  cases phase with
  | _ => exact fun h => nomatch h

/-- A step that leaves the caller where it is or wakes it up, and does not write a pointer
    that the caller is about to return. -/
theorem moves_of_notified (hinv : Inv init addr t')
    (hcaller : t'.caller = t.caller ∨ t'.caller = t.caller.notified)
    (hloop : t.caller = .leaving → t'.loop = t.loop) : Moves init addr True t t' := by
  have hsame : ∀ phase : CallerPhase α, phase ≠ .waiting → phase ≠ .woken →
      (t'.caller = phase ↔ t.caller = phase) := by
    intro phase hwaiting hwoken
    obtain hcaller | hcaller := hcaller
    · rw [hcaller]
    · rw [hcaller]
      exact notified_eq_iff hwaiting hwoken
  have hleaving := hsame .leaving (by simp) (by simp)
  have hreturned := fun v => hsame (.returned v) (by simp) (by simp)
  refine ⟨hinv, ⟨fun h => ⟨⟨fun hl => ?_, fun v hv => ?_⟩, trivial⟩,
    fun h => ⟨fun hl => ?_, fun v hv => ?_⟩⟩, fun v => (hreturned v).mpr⟩
  · exact (hloop hl).symm.trans (h.leaving (hleaving.mpr hl))
  · exact h.returned v ((hreturned v).mpr hv)
  · exact (hloop (hleaving.mp hl)).trans (h.1.leaving (hleaving.mp hl))
  · exact h.1.returned v ((hreturned v).mp hv)

/-! ## Steps of the thread -/

/-- The five steps of `threadFunc`. -/
theorem threadFunc_cases (hstep : t.threadFunc addr = some t') :
    (t.thread = .constructing ∧ t' = { t with thread := .locking }) ∨
    (t.thread = .locking ∧ t.mutex = none ∧
      t' = { t with mutex := some .thread, thread := .storing }) ∨
    (t.thread = .storing ∧ t' = { t with loop := addr, thread := .notifying }) ∨
    (t.thread = .notifying ∧ t' = { t with caller := t.caller.notified, thread := .unlocking }) ∨
    (t.thread = .unlocking ∧ t' = { t with mutex := none, thread := .looping }) := by
  unfold threadFunc at hstep
  cases hphase : t.thread with
  | locking =>
      rw [hphase] at hstep
      obtain ⟨hfree, hstep⟩ := Option.ite_none_right_eq_some.mp hstep
      exact .inr (.inl ⟨rfl, hfree, (Option.some.inj hstep).symm⟩)
  | looping =>
      rw [hphase] at hstep
      cases hstep
  | _ =>
      rw [hphase] at hstep
      simp [Option.some.inj hstep]

theorem inv_threadFunc (h : Inv init addr t) (hstep : t.threadFunc addr = some t') :
    Inv init addr t' := by
  obtain ⟨hthread, hcaller, hloop, hawaited⟩ := h
  obtain ⟨hphase, rfl⟩ | ⟨hphase, hfree, rfl⟩ | ⟨hphase, rfl⟩ | ⟨hphase, rfl⟩ | ⟨hphase, rfl⟩ :=
    threadFunc_cases hstep
  all_goals rw [hphase] at hthread hloop hawaited
  · refine ⟨?_, hcaller, hloop, hawaited⟩
    rw [hthread]
    simp
  · rw [hfree] at hcaller
    refine ⟨by simp, ?_, hloop, hawaited⟩
    rw [← hcaller]
    simp
  · refine ⟨?_, hcaller, rfl, hawaited⟩
    rw [hthread]
    simp
  · have htesting : t.caller.notified = .testing ↔ t.caller = .testing :=
      notified_eq_iff (by simp) (by simp)
    have hleaving : t.caller.notified = .leaving ↔ t.caller = .leaving :=
      notified_eq_iff (by simp) (by simp)
    refine ⟨?_, ?_, hloop, fun hwait => absurd hwait (notified_ne_waiting _)⟩
    · rw [hthread]
      simp
    · rw [hcaller, ← htesting, ← hleaving]
  · have howns : t.mutex = some .thread := hthread.mpr (.inr (.inr rfl))
    rw [howns] at hcaller
    refine ⟨by simp, ?_, hloop, fun hwait => absurd (hawaited hwait) (by decide)⟩
    rw [← hcaller]
    simp

/-- The thread does not touch what `getLoop` has read. -/
theorem moves_threadFunc (h : Inv init addr t) (hstep : t.threadFunc addr = some t') :
    Moves init addr True t t' := by
  apply moves_of_notified (inv_threadFunc h hstep)
  · obtain ⟨-, rfl⟩ | ⟨-, -, rfl⟩ | ⟨-, rfl⟩ | ⟨-, rfl⟩ | ⟨-, rfl⟩ := threadFunc_cases hstep
    · exact .inl rfl
    · exact .inl rfl
    · exact .inl rfl
    · exact .inr rfl
    · exact .inl rfl
  · intro hleaving
    obtain ⟨hstoring, -, -⟩ := h.exclusive (.inr hleaving)
    obtain ⟨-, rfl⟩ | ⟨-, -, rfl⟩ | ⟨hphase, -⟩ | ⟨-, rfl⟩ | ⟨-, rfl⟩ := threadFunc_cases hstep
    · rfl
    · rfl
    · exact absurd hphase hstoring
    · rfl
    · rfl

/-! ## Steps of the caller -/

theorem moves_wakeUp (h : Inv init addr t) (hstep : t.wakeUp = some t') :
    Moves init addr True t t' := by
  obtain ⟨hthread, hcaller, hloop, -⟩ := h
  unfold wakeUp at hstep
  cases hphase : t.caller with
  | waiting =>
      rw [hphase] at hstep hcaller
      obtain rfl := Option.some.inj hstep
      apply moves_of_notified
      · refine ⟨hthread, ?_, hloop, fun h => nomatch h⟩
        rw [hcaller]
        simp
      · rw [hphase]
        exact .inr rfl
      · exact fun _ => rfl
  | _ =>
      rw [hphase] at hstep
      cases hstep

/-- Nothing is returned yet, or about to be. -/
theorem right_of_ne (hleaving : t.caller ≠ .leaving) (hreturned : ∀ v, t.caller ≠ .returned v) :
    Right addr t :=
  ⟨fun h => absurd h hleaving, fun v h => absurd h (hreturned v)⟩

/-- The caller gets the mutex. -/
theorem inv_lock (h : Inv init addr t) (hfree : t.mutex = none) :
    Inv init addr { t with mutex := some .caller, caller := .testing } := by
  obtain ⟨hthread, -, hloop, -⟩ := h
  refine ⟨?_, ?_, hloop, fun h => nomatch h⟩
  · rw [← hthread, hfree]
    simp
  · simp

/-- The caller gives the mutex back. -/
theorem inv_unlock (h : Inv init addr t) (howns : t.mutex = some .caller) {phase : CallerPhase α}
    (hphase : ¬(phase = .testing ∨ phase = .leaving))
    (hawaited : phase = .waiting → t.thread.sent = false) :
    Inv init addr { t with mutex := none, caller := phase } := by
  obtain ⟨hthread, -, hloop, -⟩ := h
  refine ⟨?_, ?_, hloop, hawaited⟩
  · rw [← hthread, howns]
    simp
  · exact iff_of_false (fun h => nomatch h) hphase

/-- A test of the pointer. -/
theorem getLoop_testing [DecidableEq α] (hnull : addr ≠ null) (h : Inv init addr t)
    (hphase : t.caller = .testing) (hstep : t.getLoop null = some t') :
    Inv init addr t' ∧ (Right addr t' ↔ Honest null init addr t) := by
  have howns : t.mutex = some .caller := h.callerOwns.mpr (.inl hphase)
  unfold getLoop at hstep
  rw [hphase] at hstep
  dsimp only at hstep
  by_cases hloop : t.loop = null
  · rw [if_pos hloop] at hstep
    obtain rfl := Option.some.inj hstep
    have hpublished : t.thread.published = false := by
      by_contra hpublished
      have haddr := h.loop
      rw [if_pos ((Bool.not_eq_false _).mp hpublished), hloop] at haddr
      exact hnull haddr.symm
    have hinit : init = null := by
      have hinit := h.loop
      rw [hpublished, hloop] at hinit
      exact hinit.symm
    have hsent : t.thread.sent = false := by
      cases hthread : t.thread with
      | unlocking | looping =>
          rw [hthread] at hpublished
          cases hpublished
      | _ => rfl
    refine ⟨inv_unlock h howns (by simp) fun _ => hsent, iff_of_true ?_ fun _ _ => .inl hinit⟩
    exact right_of_ne (fun h => nomatch h) fun _ h => nomatch h
  · rw [if_neg hloop] at hstep
    obtain rfl := Option.some.inj hstep
    refine ⟨⟨h.threadOwns, ?_, h.loop, fun h => nomatch h⟩, fun hright _ hpublished => ?_,
      fun hhonest => ⟨fun _ => ?_, fun _ h => nomatch h⟩⟩
    · exact iff_of_true howns (.inr rfl)
    · have hinit := h.loop
      rw [hpublished] at hinit
      exact .inr (hinit.symm.trans (hright.leaving rfl))
    · have hcontent := h.loop
      cases hpublished : t.thread.published with
      | true =>
          rw [hpublished] at hcontent
          exact hcontent
      | false =>
          rw [hpublished] at hcontent
          have hinit : t.loop = init := hcontent
          rcases hhonest hphase hpublished with h | h
          · exact absurd (hinit.trans h) hloop
          · exact hinit.trans h

/-- `getLoop` goes wrong at a test only, where it finds neither null nor the pointer. -/
theorem getLoop_spec [DecidableEq α] (hnull : addr ≠ null) (h : Inv init addr t)
    (hstep : t.getLoop null = some t') :
    Inv init addr t' ∧ (Right addr t' ↔ Right addr t ∧ Honest null init addr t) := by
  have hother : t.caller ≠ .testing → Honest null init addr t := fun hne h => absurd h hne
  cases hphase : t.caller with
  | testing =>
      obtain ⟨hinv, hright⟩ := getLoop_testing hnull h hphase hstep
      have hold : Right addr t := right_of_ne (by simp [hphase]) (by simp [hphase])
      exact ⟨hinv, hright.trans (and_iff_right hold).symm⟩
  | locking | woken =>
      unfold getLoop at hstep
      rw [hphase] at hstep
      obtain ⟨hfree, hstep⟩ := Option.ite_none_right_eq_some.mp hstep
      obtain rfl := Option.some.inj hstep
      have hold : Right addr t := right_of_ne (by simp [hphase]) (by simp [hphase])
      refine ⟨inv_lock h hfree, iff_of_true ?_ ⟨hold, hother (by simp [hphase])⟩⟩
      exact right_of_ne (fun h => nomatch h) fun _ h => nomatch h
  | leaving =>
      unfold getLoop at hstep
      rw [hphase] at hstep
      obtain rfl := Option.some.inj hstep
      have howns : t.mutex = some .caller := h.callerOwns.mpr (.inr hphase)
      refine ⟨inv_unlock h howns (by simp) (by simp), fun hright => ⟨⟨fun _ => ?_, ?_⟩, ?_⟩,
        fun hright => ⟨by simp, ?_⟩⟩
      · exact hright.returned _ rfl
      · exact fun v hv => nomatch hphase.symm.trans hv
      · exact hother (by simp [hphase])
      · intro v hv
        cases hv
        exact hright.1.leaving hphase
  | waiting | returned v =>
      unfold getLoop at hstep
      rw [hphase] at hstep
      cases hstep

theorem moves_getLoop [DecidableEq α] (hnull : addr ≠ null) (h : Inv init addr t)
    (hstep : t.getLoop null = some t') : Moves init addr (Honest null init addr t) t t' := by
  obtain ⟨hinv, hright⟩ := getLoop_spec hnull h hstep
  refine ⟨hinv, hright, fun loop hreturned => ?_⟩
  unfold getLoop at hstep
  rw [hreturned] at hstep
  cases hstep

end Steps

end LoopThread

end QGServer
