-- SUMMARY: The functor queue of an event loop and its wake pipe, between any number of threads.
import Mathlib.Logic.Function.Basic
import QGServer.Library.BatchQueue
import QGServer.Library.Runs

/-!
# Functors of an event loop

`EventLoop::addFunctor`, `handlePendingFunctors` and `loop`
(`src/core/event_loop.cpp`), the `Waker` of the loop (`event_loop.h`) and the
`Queue` (`src/util/block_queue.h`).

Any thread can call `addFunctor`, which pushes under the mutex of the queue and
then writes to the pipe; between the two, every other thread can move. The thread
of the loop calls it too, from the callbacks of timers and events and from the
functors it runs. `τ` names the other threads and `φ` the functors.
-/

namespace QGServer

/-! ## The pipe -/

/-- A non-blocking pipe. -/
structure Pipe where
  capacity : Nat
  bytes : Nat
  pos : 0 < capacity
  le : bytes ≤ capacity

namespace Pipe

/-- A pipe without bytes. -/
def new (capacity : Nat) (pos : 0 < capacity) : Pipe := ⟨capacity, 0, pos, Nat.zero_le _⟩

/-- `::write` of one byte, which fails if the pipe is full. -/
def write (p : Pipe) : Pipe :=
  if h : p.bytes < p.capacity then { p with bytes := p.bytes + 1, le := h } else p

/-- `::read` of one byte, which fails if the pipe is empty. -/
def read (p : Pipe) : Pipe := { p with bytes := p.bytes - 1, le := Nat.le_trans (Nat.sub_le _ _) p.le }

/-- Whether or not it fails, a write leaves a byte to be read. -/
theorem bytes_write_pos (p : Pipe) : 0 < p.write.bytes := by
  unfold write
  split
  · exact Nat.succ_pos _
  · rename_i hfull
    exact Nat.lt_of_lt_of_le p.pos (Nat.not_lt.mp hfull)

end Pipe

/-! ## State -/

/-- Where the thread of the loop is in `loop`. -/
inductive LoopPhase where
  /-- In `handleTimer`. -/
  | timers
  /-- Blocked in `poll`. -/
  | polling
  /-- In `HandleEvent` of the handlers that `poll` gave. -/
  | events (wakerDue : Bool)
  /-- In `handlePendingFunctors`, behind `pop_all`. -/
  | functors
  deriving DecidableEq, Repr

/-- An event loop and the threads that share it. -/
structure SharedLoop (τ φ : Type*) where
  phase : LoopPhase
  /-- `pending_functors_`, and the local queue of `handlePendingFunctors`. -/
  queue : BatchQueue φ
  pipe : Pipe
  /-- Which threads are in `addFunctor` between the push and the write; `none` is
      the thread of the loop. -/
  waking : Option τ → Bool
  /-- The functors that have returned. -/
  executed : List φ

namespace SharedLoop

variable {τ φ : Type*} [DecidableEq τ]

/-- The loop before its first round, with an empty pipe. -/
def start (pipe : Pipe) : SharedLoop τ φ :=
  { phase := .timers, queue := .empty, pipe := { pipe with bytes := 0, le := Nat.zero_le _ }
    waking := fun _ => false, executed := [] }

/-- The thread of the loop runs code of a user. -/
def inCallback (s : SharedLoop τ φ) : Bool :=
  match s.phase with
  | .timers | .events _ => true
  | .polling => false
  | .functors => s.queue.running

/-- The thread can begin a call of `addFunctor`. -/
def mayCall (s : SharedLoop τ φ) (t : Option τ) : Bool :=
  !s.waking t && (t.isSome || s.inCallback)

/-! ## Steps -/

/-- Who moves. -/
inductive Label (τ φ : Type*) where
  /-- `addFunctor` pushes. -/
  | push (t : Option τ) (f : φ)
  /-- `addFunctor` writes to the pipe. -/
  | wakeUp (t : Option τ)
  /-- `handleTimer` has returned, and `Wait` calls `poll`. -/
  | poll
  /-- `poll` returns. -/
  | ready
  /-- The waker's `handleRead`. -/
  | readWaker
  /-- The handlers have returned, and `handlePendingFunctors` calls `pop_all`. -/
  | popAll
  /-- The front of the local queue is called. -/
  | run
  /-- It returns and is popped. -/
  | done
  /-- The local queue is empty. -/
  | endRound

/-- The functor of a push, which is made with the mutex. -/
def Label.pushed : Label τ φ → Option φ
  | .push _ f => some f
  | _ => none

def step (s : SharedLoop τ φ) (l : Label τ φ) : Option (SharedLoop τ φ) :=
  match l with
  | .push t f =>
    if s.mayCall t then
      some { s with queue := s.queue.push f, waking := Function.update s.waking t true }
    else none
  | .wakeUp t =>
    if s.waking t then
      some { s with pipe := s.pipe.write, waking := Function.update s.waking t false }
    else none
  -- the other steps are those of the loop's thread outside of `addFunctor`
  | .poll =>
    if s.phase = .timers ∧ s.waking none = false then some { s with phase := .polling } else none
  | .ready => if s.phase = .polling then some { s with phase := .events true } else none
  | .readWaker =>
    if s.phase = .events true ∧ s.waking none = false then
      some { s with phase := .events false, pipe := s.pipe.read }
    else none
  | .popAll =>
    match s.phase with
    | .events _ =>
      if s.waking none then none else some { s with phase := .functors, queue := s.queue.popAll }
    | _ => none
  | .run =>
    match s.phase, s.queue.front with
    | .functors, some _ => some { s with queue := s.queue.start }
    | _, _ => none
  | .done =>
    if s.queue.running ∧ s.waking none = false then
      some { s with
        queue := s.queue.finish, executed := s.executed ++ s.queue.batch.head?.toList }
    else none
  | .endRound =>
    if s.phase = .functors ∧ s.queue.idle then some { s with phase := .timers } else none

section Step

variable {s s' : SharedLoop τ φ} {l : Label τ φ}

/-- What a step does. -/
inductive Move (s s' : SharedLoop τ φ) : Label τ φ → Prop where
  | push (t : Option τ) (f : φ) (heq : s' = { s with
      queue := s.queue.push f, waking := Function.update s.waking t true }) : Move s s' (.push t f)
  | wakeUp (t : Option τ) (heq : s' = { s with
      pipe := s.pipe.write, waking := Function.update s.waking t false }) : Move s s' (.wakeUp t)
  | poll (hphase : s.phase = .timers) (heq : s' = { s with phase := .polling }) : Move s s' .poll
  | ready (hphase : s.phase = .polling) (heq : s' = { s with phase := .events true }) :
      Move s s' .ready
  | readWaker (hphase : s.phase = .events true)
      (heq : s' = { s with phase := .events false, pipe := s.pipe.read }) : Move s s' .readWaker
  | popAll (due : Bool) (hphase : s.phase = .events due)
      (heq : s' = { s with phase := .functors, queue := s.queue.popAll }) : Move s s' .popAll
  | run (f : φ) (hphase : s.phase = .functors) (hfront : s.queue.front = some f)
      (heq : s' = { s with queue := s.queue.start }) : Move s s' .run
  | done (hrun : s.queue.running = true) (heq : s' = { s with
      queue := s.queue.finish, executed := s.executed ++ s.queue.batch.head?.toList }) :
      Move s s' .done
  | endRound (hphase : s.phase = .functors) (hidle : s.queue.idle = true)
      (heq : s' = { s with phase := .timers }) : Move s s' .endRound

theorem step_cases (h : step s l = some s') : Move s s' l := by
  cases l with
  | push t f =>
      simp only [step, Option.ite_none_right_eq_some, Option.some.injEq] at h
      exact .push t f h.2.symm
  | wakeUp t =>
      simp only [step, Option.ite_none_right_eq_some, Option.some.injEq] at h
      exact .wakeUp t h.2.symm
  | poll =>
      simp only [step, Option.ite_none_right_eq_some, Option.some.injEq] at h
      exact .poll h.1.1 h.2.symm
  | ready =>
      simp only [step, Option.ite_none_right_eq_some, Option.some.injEq] at h
      exact .ready h.1 h.2.symm
  | readWaker =>
      simp only [step, Option.ite_none_right_eq_some, Option.some.injEq] at h
      exact .readWaker h.1.1 h.2.symm
  | popAll =>
      simp only [step] at h
      split at h
      · rename_i due hphase
        split_ifs at h
        cases h
        exact .popAll due hphase rfl
      · cases h
  | run =>
      simp only [step] at h
      split at h
      · rename_i f hphase hfront
        cases h
        exact .run f hphase hfront rfl
      · cases h
  | done =>
      simp only [step, Option.ite_none_right_eq_some, Option.some.injEq] at h
      exact .done h.1.1 h.2.symm
  | endRound =>
      simp only [step, Option.ite_none_right_eq_some, Option.some.injEq] at h
      exact .endRound h.1.1 h.1.2 h.2.symm

end Step

/-! ## Order -/

/-- The functors that have returned and those in the queue are `pushed`, all that were
    pushed, in the order of the pushes. -/
structure InOrder (s : SharedLoop τ φ) (pushed : List φ) : Prop where
  pushed : s.executed ++ s.queue.all = pushed
  /-- Outside of `handlePendingFunctors` there is no local queue. -/
  idle : s.phase ≠ .functors → s.queue.idle = true
  /-- The functor that runs is the front of the local queue. -/
  front : s.queue.running = true → s.queue.batch ≠ []

omit [DecidableEq τ] in
theorem InOrder.running {s : SharedLoop τ φ} {pushed : List φ} (h : s.InOrder pushed)
    (hrun : s.queue.running = true) : s.phase = .functors := by
  by_contra hphase
  have hidle := h.idle hphase
  exact h.front hrun (by simpa [BatchQueue.idle] using hidle)

omit [DecidableEq τ] in
theorem inOrder_start (pipe : Pipe) : (start pipe : SharedLoop τ φ).InOrder [] :=
  ⟨rfl, fun _ => rfl, fun h => nomatch h⟩

theorem InOrder.step {s s' : SharedLoop τ φ} {l : Label τ φ} {pushed : List φ} (h : s.InOrder pushed)
    (hstep : step s l = some s') : s'.InOrder (pushed ++ l.pushed.toList) := by
  -- only a push adds to what was pushed
  have hsame : s.executed ++ s.queue.all = pushed ++ [] := h.pushed.trans (List.append_nil _).symm
  cases step_cases hstep with
  | push t f heq =>
      subst heq
      refine ⟨?_, h.idle, h.front⟩
      rw [BatchQueue.all_push, ← List.append_assoc, h.pushed]
      rfl
  | wakeUp t heq =>
      subst heq
      exact ⟨hsame, h.idle, h.front⟩
  | poll hphase heq =>
      subst heq
      exact ⟨hsame, fun _ => h.idle (by simp [hphase]), h.front⟩
  | ready hphase heq =>
      subst heq
      exact ⟨hsame, fun _ => h.idle (by simp [hphase]), h.front⟩
  | readWaker hphase heq =>
      subst heq
      exact ⟨hsame, fun _ => h.idle (by simp [hphase]), h.front⟩
  | popAll due hphase heq =>
      subst heq
      refine ⟨?_, fun hnot => absurd rfl hnot, fun hrun => nomatch hrun⟩
      rw [BatchQueue.all_popAll (h.idle (by simp [hphase]))]
      exact hsame
  | run f hphase hfront heq =>
      subst heq
      refine ⟨hsame, fun hnot => absurd hphase hnot, fun _ => ?_⟩
      obtain ⟨-, rest, hbatch⟩ := BatchQueue.front_eq_some hfront
      exact List.ne_nil_of_mem (hbatch ▸ List.mem_cons_self)
  | done hrun heq =>
      subst heq
      refine ⟨?_, fun hnot => absurd (h.running hrun) hnot, fun hrun' => nomatch hrun'⟩
      obtain ⟨f, rest, hbatch⟩ := List.exists_cons_of_ne_nil (h.front hrun)
      rw [← h.pushed]
      simp [BatchQueue.all, BatchQueue.finish, hbatch, Label.pushed]
  | endRound hphase hidle heq =>
      subst heq
      exact ⟨hsame, fun _ => hidle, h.front⟩

/-- In every run, the functors executed, the rest of the local queue and the
    pending ones are those of the pushes that were made, in their order. -/
theorem pushed_eq {pipe : Pipe} {labels : List (Label τ φ)} {s : SharedLoop τ φ}
    (h : Runs.exec step (start pipe) labels = some s) :
    s.executed ++ s.queue.batch ++ s.queue.pending = labels.filterMap Label.pushed := by
  have hinv : s.InOrder (labels.filterMap Label.pushed) := by
    apply Runs.exec_induction (fun labels s => s.InOrder (labels.filterMap Label.pushed)) _ _ h
    · exact inOrder_start pipe
    · intro labels l t u hinv _ hstep
      have hlast : (labels ++ [l]).filterMap Label.pushed =
          labels.filterMap Label.pushed ++ l.pushed.toList := by
        rw [List.filterMap_append]
        cases l <;> rfl
      rw [hlast]
      exact hinv.step hstep
  rw [← hinv.pushed, BatchQueue.all, List.append_assoc]

/-- A functor pushes another one while it runs. -/
theorem pushed_eq_nested : ∃ s : SharedLoop Nat Nat,
    Runs.exec step (start (.new 1 Nat.one_pos))
      [.push (some 0) 7, .poll, .wakeUp (some 0), .ready, .popAll, .run, .push none 8, .wakeUp none,
        .done, .push (some 1) 9] = some s ∧
      s.executed = [7] ∧ s.executed ++ s.queue.batch ++ s.queue.pending = [7, 8, 9] := by
  have hrun : ((Runs.exec step (start (.new 1 Nat.one_pos))
      [.push (some 0) 7, .poll, .wakeUp (some 0), .ready, .popAll, .run, .push none 8, .wakeUp none,
        .done, .push (some 1) 9]).map fun s : SharedLoop Nat Nat => s.executed) = some [7] := by
    decide
  obtain ⟨s, hs, hexecuted⟩ := Option.map_eq_some_iff.mp hrun
  exact ⟨s, hs, hexecuted, pushed_eq hs⟩

/-! ## Wake-ups -/

/-- Before `poll` returns, pending functors have a byte in the pipe or one on its
    way. A byte is only taken out where `pop_all` follows. -/
structure Armed (s : SharedLoop τ φ) : Prop where
  wakes : (∀ due, s.phase ≠ .events due) → s.queue.pending ≠ [] →
    0 < s.pipe.bytes ∨ ∃ t, s.waking t = true

omit [DecidableEq τ] in
theorem armed_start (pipe : Pipe) : (start pipe : SharedLoop τ φ).Armed :=
  ⟨fun _ h => absurd rfl h⟩

theorem Armed.step {s s' : SharedLoop τ φ} {l : Label τ φ} (h : s.Armed)
    (hstep : step s l = some s') : s'.Armed := by
  cases step_cases hstep with
  | push t f heq =>
      subst heq
      exact ⟨fun _ _ => .inr ⟨t, by simp⟩⟩
  | wakeUp t heq =>
      subst heq
      exact ⟨fun _ _ => .inl s.pipe.bytes_write_pos⟩
  | poll hphase heq =>
      subst heq
      exact ⟨fun _ => h.wakes (by simp [hphase])⟩
  | ready hphase heq =>
      subst heq
      exact ⟨fun hnot => absurd rfl (hnot true)⟩
  | readWaker hphase heq =>
      subst heq
      exact ⟨fun hnot => absurd rfl (hnot false)⟩
  | popAll due hphase heq =>
      subst heq
      exact ⟨fun _ hpending => absurd rfl hpending⟩
  | run f hphase hfront heq =>
      subst heq
      exact ⟨h.wakes⟩
  | done hrun heq =>
      subst heq
      exact ⟨h.wakes⟩
  | endRound hphase hidle heq =>
      subst heq
      exact ⟨fun _ => h.wakes (by simp [hphase])⟩

/-- In no run does the loop block in `poll` with functors pending, no byte in the
    pipe, and no thread about to write one. -/
theorem not_blocked {pipe : Pipe} {labels : List (Label τ φ)} {s : SharedLoop τ φ}
    (h : Runs.exec step (start pipe) labels = some s) :
    ¬ (s.phase = .polling ∧ s.queue.pending ≠ [] ∧ s.pipe.bytes = 0 ∧
      ∀ t, s.waking t = false) := by
  have hinv : s.Armed :=
    Runs.exec_preserves (fun _ _ _ hinv hstep => Armed.step hinv hstep) (armed_start pipe) h
  rintro ⟨hphase, hpending, hempty, hwaking⟩
  rcases hinv.wakes (by simp [hphase]) hpending with hbytes | ⟨t, ht⟩
  · rw [hempty] at hbytes
    cases hbytes
  · rw [hwaking t] at ht
    cases ht

/-- The wake-up is lost because the pipe is full, but then it has a byte. -/
theorem not_blocked_full : ∃ s : SharedLoop Nat Nat,
    Runs.exec step (start (.new 1 Nat.one_pos))
      [.push (some 0) 7, .wakeUp (some 0), .push (some 1) 8, .wakeUp (some 1), .poll] = some s ∧
      ¬ (s.phase = .polling ∧ s.queue.pending ≠ [] ∧ s.pipe.bytes = 0 ∧
        ∀ t, s.waking t = false) := by
  obtain ⟨s, hs⟩ : ∃ s : SharedLoop Nat Nat, Runs.exec step (start (.new 1 Nat.one_pos))
      [.push (some 0) 7, .wakeUp (some 0), .push (some 1) 8, .wakeUp (some 1), .poll] = some s :=
    Option.isSome_iff_exists.mp (by decide)
  exact ⟨s, hs, not_blocked hs⟩

end SharedLoop

end QGServer
