-- SUMMARY: A queue whose consumer takes all entries at once and then runs them one by one.
import Mathlib.Data.List.Basic

/-!
# Batch queues

The consumer swaps everything that is pending into a batch and runs the entries
of the batch from its front; an entry stays in the batch while it runs. New
entries go to the end of what is pending, so the entries run in the order in
which they were pushed.
-/

/-- What waits for the next batch, and the batch the consumer works on. -/
structure BatchQueue (α : Type*) where
  pending : List α
  batch : List α
  /-- The front of the batch is being run. -/
  running : Bool
  deriving DecidableEq, Repr

namespace BatchQueue

variable {α : Type*} {q : BatchQueue α} {a b : α}

def empty : BatchQueue α := ⟨[], [], false⟩

def push (a : α) (q : BatchQueue α) : BatchQueue α := { q with pending := q.pending ++ [a] }

/-- The consumer is between two batches. -/
def idle (q : BatchQueue α) : Bool := q.batch.isEmpty

/-- Swap all pending entries into the batch. -/
def popAll (q : BatchQueue α) : BatchQueue α := ⟨[], q.pending, false⟩

/-- The entry that can be started. -/
def front (q : BatchQueue α) : Option α := if q.running then none else q.batch.head?

def start (q : BatchQueue α) : BatchQueue α := { q with running := true }

/-- The entry that ran is dropped. -/
def finish (q : BatchQueue α) : BatchQueue α := ⟨q.pending, q.batch.tail, false⟩

/-- The entries in the queue, in the order in which they run. -/
def all (q : BatchQueue α) : List α := q.batch ++ q.pending

/-- The entries that have not been started. -/
def waiting (q : BatchQueue α) : List α :=
  (if q.running then q.batch.tail else q.batch) ++ q.pending

@[simp] theorem all_empty : (empty : BatchQueue α).all = [] := rfl
@[simp] theorem waiting_empty : (empty : BatchQueue α).waiting = [] := rfl

@[simp] theorem all_push : (q.push a).all = q.all ++ [a] := by
  simp [all, push]

@[simp] theorem waiting_push : (q.push a).waiting = q.waiting ++ [a] := by
  simp only [waiting, push, List.append_assoc]
  rfl

@[simp] theorem all_start : q.start.all = q.all := rfl

theorem all_popAll (h : q.idle = true) : q.popAll.all = q.all := by
  have hbatch : q.batch = [] := by simpa [idle] using h
  simp [all, popAll, hbatch]

theorem waiting_popAll (h : q.idle = true) : q.popAll.waiting = q.waiting := by
  have hbatch : q.batch = [] := by simpa [idle] using h
  simp [waiting, popAll, hbatch]

theorem front_eq_some (h : q.front = some a) : q.running = false ∧ ∃ rest, q.batch = a :: rest := by
  unfold front at h
  split at h
  · cases h
  · rename_i hrun
    refine ⟨by simpa using hrun, q.batch.tail, ?_⟩
    exact (List.cons_head?_tail h).symm

/-- Starting the front takes it from what waits. -/
theorem waiting_start (h : q.front = some a) : q.waiting = a :: q.start.waiting := by
  obtain ⟨hrun, rest, hbatch⟩ := front_eq_some h
  simp [waiting, start, hrun, hbatch]

theorem all_popAll_subset : q.popAll.all ⊆ q.all := by
  intro a ha
  exact List.mem_append_right _ (by simpa [all, popAll] using ha)

theorem mem_all_of_front (h : q.front = some a) : a ∈ q.all := by
  obtain ⟨-, rest, hbatch⟩ := front_eq_some h
  simp [all, hbatch]

theorem mem_all_of_waiting (h : a ∈ q.waiting) : a ∈ q.all := by
  unfold waiting at h
  split at h
  · exact ((List.tail_sublist q.batch).append_right q.pending).subset h
  · exact h

/-- Dropping the entry that ran leaves what waits. -/
theorem waiting_finish (h : q.running = true) : q.finish.waiting = q.waiting := by
  simp [waiting, finish, h]

theorem all_finish_sublist : q.finish.all.Sublist q.all :=
  (List.tail_sublist q.batch).append_right q.pending

/-! ## The entries of one kind -/

section FilterMap

variable {β : Type*} {g : α → Option β} {c : β}

/-- The queue that is left when only the entries with a value under `g` are seen. -/
def filterMap (g : α → Option β) (q : BatchQueue α) : BatchQueue β :=
  ⟨q.pending.filterMap g, q.batch.filterMap g, q.running && (q.batch.head?.bind g).isSome⟩

@[simp] theorem filterMap_empty : (empty : BatchQueue α).filterMap g = empty := rfl

theorem filterMap_push_some (h : g a = some c) : (q.push a).filterMap g = (q.filterMap g).push c := by
  simp [filterMap, push, h]

theorem filterMap_push_none (h : g a = none) : (q.push a).filterMap g = q.filterMap g := by
  simp [filterMap, push, h]

theorem idle_filterMap (h : q.idle = true) : (q.filterMap g).idle = true := by
  have hbatch : q.batch = [] := by simpa [idle] using h
  simp [idle, filterMap, hbatch]

theorem filterMap_popAll : q.popAll.filterMap g = (q.filterMap g).popAll := by
  simp [filterMap, popAll]

theorem front_filterMap (h : q.front = some a) (hg : g a = some c) :
    (q.filterMap g).front = some c := by
  obtain ⟨hrun, rest, hbatch⟩ := front_eq_some h
  simp [front, filterMap, hrun, hbatch, hg]

theorem filterMap_start_some (h : q.front = some a) (hg : g a = some c) :
    q.start.filterMap g = (q.filterMap g).start := by
  obtain ⟨-, rest, hbatch⟩ := front_eq_some h
  simp [start, filterMap, hbatch, hg]

theorem filterMap_start_none (h : q.front = some a) (hg : g a = none) :
    q.start.filterMap g = q.filterMap g := by
  obtain ⟨hrun, rest, hbatch⟩ := front_eq_some h
  simp [start, filterMap, hrun, hbatch, hg]

/-- Dropping the entry that ran is seen only if the entry is. -/
theorem filterMap_finish (h : q.running = true) :
    q.finish.filterMap g
      = if (q.filterMap g).running then (q.filterMap g).finish else q.filterMap g := by
  obtain ⟨pending, batch, running⟩ := q
  obtain rfl : running = true := h
  cases batch with
  | nil => simp [finish, filterMap]
  | cons a rest => cases hg : g a <;> simp [finish, filterMap, hg]

theorem filterMap_eq_empty (h : ∀ a ∈ q.all, g a = none) : q.filterMap g = empty := by
  have hpending : q.pending.filterMap g = [] := by
    rw [List.filterMap_eq_nil_iff]
    exact fun a ha => h a (List.mem_append_right _ ha)
  have hbatch : q.batch.filterMap g = [] := by
    rw [List.filterMap_eq_nil_iff]
    exact fun a ha => h a (List.mem_append_left _ ha)
  have hfront : q.batch.head?.bind g = none := by
    rw [Option.bind_eq_none_iff]
    exact fun a ha => h a (List.mem_append_left _ (List.mem_of_mem_head? ha))
  simp [filterMap, empty, hpending, hbatch, hfront]

end FilterMap

end BatchQueue
