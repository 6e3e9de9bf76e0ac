-- SUMMARY: The timer heap is a priority queue: after any operations its top is a least timer, and popTimer takes that one.
import QGServer.Base.TimerHeap

/-!
# The priority queue

Whatever is done to a timer heap by `addTimer` and `popTimer`, as long as no
deadline changes in between: the two keep what the heap is for.
-/

namespace QGServer

namespace TimerHeap

variable {κ : Type*}

inductive Op (κ : Type*) where
  | addTimer (timer : Timer κ)
  | popTimer

def apply (heap : TimerHeap κ) : Op κ → TimerHeap κ
  | .addTimer timer => heap.addTimer timer
  | .popTimer => heap.popTimer

def after (heap : TimerHeap κ) (ops : List (Op κ)) : TimerHeap κ := ops.foldl apply heap

/-- The timer that an operation adds. -/
def Op.timer : Op κ → Option (Timer κ)
  | .addTimer timer => some timer
  | .popTimer => none

/-- What `top` returns before each `popTimer`. -/
def popped : TimerHeap κ → List (Op κ) → List (Timer κ)
  | _, [] => []
  | heap, .addTimer timer :: ops => popped (heap.addTimer timer) ops
  | heap, .popTimer :: ops => heap.top.toList ++ popped heap.popTimer ops

/-- What `top` returns while `popTimer` is called `n` times. -/
def drain (n : Nat) (heap : TimerHeap κ) : List (Timer κ) := popped heap (.replicate n .popTimer)

/-- What a priority queue is, for the heap that operations on the empty one leave. -/
structure PriorityQueue (ops : List (Op κ)) (heap : TimerHeap κ) : Prop where
  ordered : heap.Ordered
  content : (popped [] ops ++ heap).Perm (ops.filterMap Op.timer)
  top_none : heap.top = none ↔ heap = []
  top_le : ∀ timer, heap.top = some timer → ∀ t ∈ heap, timer.expire ≤ t.expire
  top_popped : ∀ timer, heap.top = some timer → heap.Perm (timer :: heap.popTimer)
  drain_sorted : ∀ n, (heap.drain n).Pairwise fun t t' => t.expire ≤ t'.expire
  drain_perm : (heap.drain heap.length).Perm heap

section Operations

variable {heap : TimerHeap κ} {timer : Timer κ}

/-- `popTimer` of a heap in order. -/
theorem popTimer_cons {rest : TimerHeap κ} (h : Ordered (timer :: rest)) :
    Sifted rest (popTimer (timer :: rest)) :=
  popTimer_spec (h.downOrder timer)

theorem ordered_popTimer (h : heap.Ordered) : heap.popTimer.Ordered := by
  cases heap with
  | nil => exact h
  | cons timer rest => exact (popTimer_cons h).ordered

/-- The top and what `popTimer` leaves are the heap. -/
theorem perm_popTimer (h : heap.Ordered) : (heap.top.toList ++ heap.popTimer).Perm heap := by
  cases heap with
  | nil => exact .refl _
  | cons timer rest => exact (popTimer_cons h).perm.cons timer

theorem ordered_apply (h : heap.Ordered) (op : Op κ) : (heap.apply op).Ordered := by
  cases op with
  | addTimer timer => exact (addTimer_spec h timer).ordered
  | popTimer => exact ordered_popTimer h

theorem ordered_after (h : heap.Ordered) (ops : List (Op κ)) : (heap.after ops).Ordered := by
  induction ops generalizing heap with
  | nil => exact h
  | cons op ops ih => exact ih (ordered_apply h op)

/-- No timer is lost and none is there twice. -/
theorem perm_after (h : heap.Ordered) (ops : List (Op κ)) :
    (popped heap ops ++ heap.after ops).Perm (ops.filterMap Op.timer ++ heap) := by
  induction ops generalizing heap with
  | nil => exact .refl heap
  | cons op ops ih =>
      have hrest := ih (ordered_apply h op)
      cases op with
      | addTimer timer =>
          apply hrest.trans
          apply ((addTimer_spec h timer).perm.append_left _).trans
          exact List.perm_middle
      | popTimer =>
          have hstep : (popped heap (.popTimer :: ops) ++ heap.after (.popTimer :: ops)).Perm
              (heap.top.toList ++ (ops.filterMap Op.timer ++ heap.popTimer)) := by
            rw [popped, List.append_assoc]
            exact hrest.append_left _
          apply hstep.trans
          apply (List.perm_append_comm_assoc _ _ _).trans
          exact (perm_popTimer h).append_left _

end Operations

section Drain

variable {heap : TimerHeap κ}

theorem mem_of_mem_drain (h : heap.Ordered) {n : Nat} {timer : Timer κ}
    (ht : timer ∈ heap.drain n) : timer ∈ heap := by
  have hperm := perm_after h (.replicate n .popTimer)
  have hnone : (List.replicate n (Op.popTimer (κ := κ))).filterMap Op.timer = [] := by
    rw [List.filterMap_eq_nil_iff]
    intro op hop
    rw [List.eq_of_mem_replicate hop]
    rfl
  rw [hnone, List.nil_append] at hperm
  exact hperm.mem_iff.mp (List.mem_append_left _ ht)

/-- Every timer that is taken out later was there when the earlier one was on top. -/
theorem drain_sorted (h : heap.Ordered) (n : Nat) :
    (heap.drain n).Pairwise fun t t' => t.expire ≤ t'.expire := by
  induction n generalizing heap with
  | zero => exact .nil
  | succ n ih =>
      have hrest := ih (ordered_popTimer h)
      cases heap with
      | nil => exact hrest
      | cons timer rest =>
          apply List.Pairwise.cons _ hrest
          intro t ht
          have hmem := mem_of_mem_drain (ordered_popTimer h) ht
          exact h.top_le rfl t (List.mem_cons_of_mem _ ((popTimer_cons h).perm.mem_iff.mp hmem))

/-- As many calls as there are timers take all of them out. -/
theorem drain_perm (h : heap.Ordered) : (heap.drain heap.length).Perm heap := by
  induction hlength : heap.length generalizing heap with
  | zero =>
      rw [List.length_eq_zero_iff.mp hlength]
      exact .nil
  | succ n ih =>
      obtain ⟨timer, rest, rfl⟩ := List.exists_cons_of_length_eq_add_one hlength
      have hpop := popTimer_cons h
      have hrest := ih hpop.ordered (hpop.perm.length_eq.trans (Nat.succ.inj hlength))
      exact (hrest.trans hpop.perm).cons timer

end Drain

/-- After any operations the heap is a priority queue. -/
theorem priorityQueue_after (ops : List (Op κ)) : PriorityQueue ops (after [] ops) := by
  have hordered := ordered_after ordered_nil ops
  have hperm := perm_after ordered_nil ops
  rw [List.append_nil] at hperm
  refine ⟨hordered, hperm, List.head?_eq_none_iff, fun timer => hordered.top_le, ?_,
    drain_sorted hordered, drain_perm hordered⟩
  intro timer htop
  have hpop := perm_popTimer hordered
  rw [htop] at hpop
  exact hpop.symm

end TimerHeap

end QGServer
