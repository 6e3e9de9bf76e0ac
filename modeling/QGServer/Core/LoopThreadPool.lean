-- SUMMARY: The pool that starts loop threads one by one, and when every pointer that it hands out is that of an event loop.
import QGServer.Core.LoopThread
import QGServer.Library.Runs

/-!
# LoopThreadPool

`src/core/loop_thread_pool.cpp`. `start` constructs a `LoopThread`, calls its
`getLoop` and stores the pointer, for one thread after the other; the threads
started before are running all the time. Then `getNextLoop` goes round.

A member that no constructor initialises holds what its memory held before.
-/

namespace QGServer

/-- The addresses in a run. -/
structure ThreadMemory (α : Type*) where
  null : α
  /-- Where each thread constructs its event loop. -/
  addr : Nat → α
  /-- What the memory of each `loop_` held before. -/
  init : Nat → α
  addr_ne : ∀ i, addr i ≠ null

structure LoopThreadPool (α : Type*) where
  threadSize : Nat
  curPos : Nat
  baseLoop : α
  loops : List α
  threads : List (LoopThread α)
  /-- What `getNextLoop` has returned. -/
  returned : List α
  deriving DecidableEq, Repr

inductive PoolLabel where
  /-- `start` constructs the next `LoopThread`. -/
  | newThread
  /-- Thread `i` takes a step. -/
  | threadFunc (i : Nat)
  /-- `start` takes a step in `getLoop` of the last thread. -/
  | getLoop
  /-- Its wait ends without a notification. -/
  | wakeUp
  /-- `start` stores what `getLoop` has returned. -/
  | pushBack
  /-- `start` has returned, and `getNextLoop` is called. -/
  | getNextLoop
  deriving DecidableEq, Repr

namespace LoopThreadPool

variable {α : Type*}

/-! ## Functions -/

/-- The constructor. -/
def new (baseLoop : α) (threadSize : Int) : LoopThreadPool α :=
  { threadSize := if threadSize < 0 then 0 else threadSize.toNat
    curPos := 0
    baseLoop := baseLoop
    loops := []
    threads := []
    returned := [] }

def getNextLoop (p : LoopThreadPool α) : Option (LoopThreadPool α × α) :=
  if p.threadSize ≠ 0 then
    p.loops[p.curPos]?.map fun loop =>
      let curPos := p.curPos + 1
      ({ p with curPos := if p.threadSize ≤ curPos then 0 else curPos }, loop)
  else some (p, p.baseLoop)

def modifyThread (i : Nat) (f : LoopThread α → Option (LoopThread α)) (p : LoopThreadPool α) :
    Option (LoopThreadPool α) :=
  p.threads[i]?.bind fun t => (f t).map fun t' => { p with threads := p.threads.set i t' }

/-- In `start` the thread after those whose pointers are stored is the last one. -/
def step [DecidableEq α] (mem : ThreadMemory α) (p : LoopThreadPool α) :
    PoolLabel → Option (LoopThreadPool α)
  | .newThread =>
    if p.threads.length = p.loops.length ∧ p.loops.length < p.threadSize then
      some { p with threads := p.threads ++ [LoopThread.new (mem.init p.threads.length)] }
    else none
  | .threadFunc i => p.modifyThread i fun t => t.threadFunc (mem.addr i)
  | .getLoop => p.modifyThread p.loops.length fun t => t.getLoop mem.null
  | .wakeUp => p.modifyThread p.loops.length fun t => t.wakeUp
  | .pushBack =>
    p.threads[p.loops.length]?.bind fun t =>
      match t.caller with
      | .returned loop => some { p with loops := p.loops ++ [loop] }
      | _ => none
  | .getNextLoop =>
    if p.loops.length = p.threadSize then
      p.getNextLoop.map fun (p, loop) => { p with returned := p.returned ++ [loop] }
    else none

/-! ## The pointers -/

/-- Every pointer handed out is that of the event loop that its thread constructs:
    those that `getLoop` returns, those in `loops_`, and those that `getNextLoop` returns
    one after the other. -/
structure Right (mem : ThreadMemory α) (p : LoopThreadPool α) : Prop where
  getLoop : ∀ i (t : LoopThread α), p.threads[i]? = some t → t.Right (mem.addr i)
  loops : ∀ i loop, p.loops[i]? = some loop → loop = mem.addr i
  getNextLoop : ∀ k loop, p.returned[k]? = some loop →
    loop = if p.threadSize = 0 then p.baseLoop else mem.addr (k % p.threadSize)

/-- A test of `loop_` before the thread has stored the pointer finds null there, or that
    very pointer. -/
def Honest (mem : ThreadMemory α) (p : LoopThreadPool α) : PoolLabel → Prop
  | .getLoop => ∀ t : LoopThread α, p.threads[p.loops.length]? = some t →
      t.Honest mem.null (mem.init p.loops.length) (mem.addr p.loops.length)
  | _ => True

/-- What holds in every run. -/
structure Shape (mem : ThreadMemory α) (p : LoopThreadPool α) : Prop where
  threads : ∀ i (t : LoopThread α), p.threads[i]? = some t → t.Inv (mem.init i) (mem.addr i)
  loops : ∀ (i : Nat) (loop : α), p.loops[i]? = some loop →
    ∃ t : LoopThread α, p.threads[i]? = some t ∧ t.caller = .returned loop
  curPos : p.threadSize ≠ 0 → p.curPos = p.returned.length % p.threadSize
  returned : ∀ (k : Nat) (loop : α), p.returned[k]? = some loop →
    if p.threadSize = 0 then loop = p.baseLoop else p.loops[k % p.threadSize]? = some loop

section Steps

variable {mem : ThreadMemory α} {p q : LoopThreadPool α} {i : Nat}
  {f : LoopThread α → Option (LoopThread α)}

theorem shape_new (mem : ThreadMemory α) (baseLoop : α) (threadSize : Int) :
    Shape mem (new baseLoop threadSize) := by
  refine ⟨fun i t h => ?_, fun i loop h => ?_, fun _ => (Nat.zero_mod _).symm, fun k loop h => ?_⟩
  · cases h
  · cases h
  · cases h

/-- The pointers are right if `getLoop` is right for every thread. -/
theorem right_iff (hp : p.Shape mem) :
    p.Right mem ↔ ∀ i (t : LoopThread α), p.threads[i]? = some t → t.Right (mem.addr i) := by
  refine ⟨Right.getLoop, fun h => ?_⟩
  have hloops : ∀ i loop, p.loops[i]? = some loop → loop = mem.addr i := by
    intro i loop hi
    obtain ⟨t, ht, hreturned⟩ := hp.loops i loop hi
    exact (h i t ht).returned loop hreturned
  refine ⟨h, hloops, fun k loop hk => ?_⟩
  have hloop := hp.returned k loop hk
  by_cases hsize : p.threadSize = 0
  · rw [if_pos hsize] at hloop ⊢
    exact hloop
  · rw [if_neg hsize] at hloop ⊢
    exact hloops _ _ hloop

/-- A step of one of the threads, or of `getLoop`. -/
theorem modifyThread_spec {P : Prop} (hp : p.Shape mem) (hstep : p.modifyThread i f = some q)
    (hmoves : ∀ t t' : LoopThread α, p.threads[i]? = some t → f t = some t' →
      LoopThread.Moves (mem.init i) (mem.addr i) P t t') :
    q.Shape mem ∧ (q.Right mem ↔ p.Right mem ∧ P) := by
  obtain ⟨t, ht, hstep⟩ := Option.bind_eq_some_iff.mp hstep
  obtain ⟨t', ht', rfl⟩ := Option.map_eq_some_iff.mp hstep
  have hmove := hmoves t t' ht ht'
  have hlt : i < p.threads.length := (List.getElem?_eq_some_iff.mp ht).1
  have hself : (p.threads.set i t')[i]? = some t' := List.getElem?_set_self hlt
  have hother : ∀ j, j ≠ i → (p.threads.set i t')[j]? = p.threads[j]? :=
    fun j hj => List.getElem?_set_ne (Ne.symm hj)
  have hshape : Shape mem { p with threads := p.threads.set i t' } := by
    refine ⟨fun j u hu => ?_, fun j loop hloop => ?_, hp.curPos, hp.returned⟩
    · by_cases hj : j = i
      · subst hj
        obtain rfl := Option.some.inj (hself.symm.trans hu)
        exact hmove.inv
      · exact hp.threads j u ((hother j hj).symm.trans hu)
    · obtain ⟨u, hu, hreturned⟩ := hp.loops j loop hloop
      by_cases hj : j = i
      · subst hj
        obtain rfl := Option.some.inj (ht.symm.trans hu)
        exact ⟨t', hself, hmove.returned loop hreturned⟩
      · exact ⟨u, (hother j hj).trans hu, hreturned⟩
  refine ⟨hshape, ?_⟩
  rw [right_iff hshape, right_iff hp]
  constructor
  · intro h
    obtain ⟨hold, hP⟩ := hmove.right.mp (h i t' hself)
    refine ⟨fun j u hu => ?_, hP⟩
    by_cases hj : j = i
    · subst hj
      obtain rfl := Option.some.inj (ht.symm.trans hu)
      exact hold
    · exact h j u ((hother j hj).trans hu)
  · rintro ⟨h, hP⟩ j u hu
    by_cases hj : j = i
    · subst hj
      obtain rfl := Option.some.inj (hself.symm.trans hu)
      exact hmove.right.mpr ⟨h j t ht, hP⟩
    · exact h j u ((hother j hj).symm.trans hu)

/-- The entries of a list after one more. -/
theorem getElem?_concat_iff {β : Type*} {l : List β} {b c : β} {j : Nat} :
    (l ++ [b])[j]? = some c ↔ l[j]? = some c ∨ j = l.length ∧ c = b := by
  rw [List.getElem?_append]
  split
  · rename_i hlt
    exact (or_iff_left fun h => Nat.ne_of_lt hlt h.1).symm
  · rename_i hge
    have hnone : l[j]? = none := List.getElem?_eq_none (Nat.not_lt.mp hge)
    rw [hnone, List.getElem?_singleton, Option.ite_none_right_eq_some, Option.some.injEq]
    constructor
    · rintro ⟨hzero, rfl⟩
      exact .inr ⟨by omega, rfl⟩
    · rintro (h | ⟨rfl, rfl⟩)
      · cases h
      · exact ⟨Nat.sub_self _, rfl⟩

theorem newThread_spec (hp : p.Shape mem)
    (hq : q = { p with threads := p.threads ++ [LoopThread.new (mem.init p.threads.length)] }) :
    q.Shape mem ∧ (q.Right mem ↔ p.Right mem) := by
  subst hq
  have hshape : Shape mem
      { p with threads := p.threads ++ [LoopThread.new (mem.init p.threads.length)] } := by
    refine ⟨fun j t ht => ?_, fun j loop hloop => ?_, hp.curPos, hp.returned⟩
    · obtain ht | ⟨rfl, rfl⟩ := getElem?_concat_iff.mp ht
      · exact hp.threads j t ht
      · exact LoopThread.inv_new _ _
    · obtain ⟨t, ht, hreturned⟩ := hp.loops j loop hloop
      exact ⟨t, getElem?_concat_iff.mpr (.inl ht), hreturned⟩
  refine ⟨hshape, ?_⟩
  rw [right_iff hshape, right_iff hp]
  constructor
  · exact fun h j t ht => h j t (getElem?_concat_iff.mpr (.inl ht))
  · intro h j t ht
    obtain ht | ⟨rfl, rfl⟩ := getElem?_concat_iff.mp ht
    · exact h j t ht
    · exact LoopThread.right_new _ _

theorem pushBack_spec {t : LoopThread α} {loop : α} (hp : p.Shape mem)
    (ht : p.threads[p.loops.length]? = some t) (hreturned : t.caller = .returned loop)
    (hq : q = { p with loops := p.loops ++ [loop] }) :
    q.Shape mem ∧ (q.Right mem ↔ p.Right mem) := by
  subst hq
  have hshape : Shape mem { p with loops := p.loops ++ [loop] } := by
    refine ⟨hp.threads, fun j l hl => ?_, hp.curPos, fun k l hl => ?_⟩
    · obtain hl | ⟨rfl, rfl⟩ := getElem?_concat_iff.mp hl
      · exact hp.loops j l hl
      · exact ⟨t, ht, hreturned⟩
    · have hold := hp.returned k l hl
      split
      · rename_i hsize
        rwa [if_pos hsize] at hold
      · rename_i hsize
        rw [if_neg hsize] at hold
        exact getElem?_concat_iff.mpr (.inl hold)
  refine ⟨hshape, ?_⟩
  rw [right_iff hshape, right_iff hp]

/-- The next position after `n` calls. -/
theorem mod_add_one (n m : Nat) (hm : 0 < m) :
    (if m ≤ n % m + 1 then 0 else n % m + 1) = (n + 1) % m := by
  rw [← Nat.mod_add_mod]
  have hlt := Nat.mod_lt n hm
  split
  · have hlast : n % m + 1 = m := by omega
    rw [hlast, Nat.mod_self]
  · rename_i hnot
    exact (Nat.mod_eq_of_lt (Nat.not_le.mp hnot)).symm

theorem getNextLoop_spec {p' : LoopThreadPool α} {loop : α} (hp : p.Shape mem)
    (hnext : p.getNextLoop = some (p', loop))
    (hq : q = { p' with returned := p'.returned ++ [loop] }) :
    q.Shape mem ∧ (q.Right mem ↔ p.Right mem) := by
  subst hq
  have hshape : Shape mem { p' with returned := p'.returned ++ [loop] } ∧ p'.threads = p.threads := by
    unfold getNextLoop at hnext
    by_cases hsize : p.threadSize = 0
    · rw [if_neg (not_not_intro hsize)] at hnext
      obtain ⟨rfl, rfl⟩ := Prod.mk.inj (Option.some.inj hnext)
      refine ⟨⟨hp.threads, hp.loops, fun h => absurd hsize h, fun k l hl => ?_⟩, rfl⟩
      rw [if_pos hsize]
      obtain hl | ⟨-, rfl⟩ := getElem?_concat_iff.mp hl
      · have hold := hp.returned k l hl
        rwa [if_pos hsize] at hold
      · rfl
    · rw [if_pos hsize] at hnext
      obtain ⟨l, hl, hnext⟩ := Option.map_eq_some_iff.mp hnext
      obtain ⟨rfl, rfl⟩ := Prod.mk.inj hnext
      have hpos := hp.curPos hsize
      refine ⟨⟨hp.threads, hp.loops, fun _ => ?_, fun k l' hl' => ?_⟩, rfl⟩
      · dsimp only
        rw [hpos, List.length_append, mod_add_one _ _ (Nat.pos_of_ne_zero hsize)]
        rfl
      · rw [if_neg hsize]
        obtain hl' | ⟨rfl, rfl⟩ := getElem?_concat_iff.mp hl'
        · have hold := hp.returned k l' hl'
          rwa [if_neg hsize] at hold
        · rwa [hpos] at hl
  refine ⟨hshape.1, ?_⟩
  rw [right_iff hshape.1, right_iff hp]
  exact iff_of_eq (congrArg
    (fun l => ∀ i (t : LoopThread α), l[i]? = some t → t.Right (mem.addr i)) hshape.2)

/-- The pointers stay right in every step but a test that finds another one. -/
theorem step_spec [DecidableEq α] {label : PoolLabel} (hp : p.Shape mem)
    (hstep : step mem p label = some q) :
    q.Shape mem ∧ (q.Right mem ↔ p.Right mem ∧ p.Honest mem label) := by
  cases label with
  | newThread =>
      obtain ⟨-, hstep⟩ := Option.ite_none_right_eq_some.mp hstep
      obtain ⟨hshape, hright⟩ := newThread_spec hp (Option.some.inj hstep).symm
      exact ⟨hshape, hright.trans (and_iff_left trivial).symm⟩
  | threadFunc i =>
      exact modifyThread_spec hp hstep fun t t' ht ht' =>
        LoopThread.moves_threadFunc (hp.threads i t ht) ht'
  | getLoop =>
      apply modifyThread_spec hp hstep
      intro t t' ht ht'
      obtain ⟨hinv, hright, hreturned⟩ :=
        LoopThread.moves_getLoop (mem.addr_ne _) (hp.threads _ t ht) ht'
      refine ⟨hinv, hright.trans (and_congr_right fun _ => ?_), hreturned⟩
      refine ⟨fun h u hu => ?_, fun h => h t ht⟩
      obtain rfl := Option.some.inj (ht.symm.trans hu)
      exact h
  | wakeUp =>
      exact modifyThread_spec hp hstep fun t t' ht ht' =>
        LoopThread.moves_wakeUp (hp.threads _ t ht) ht'
  | pushBack =>
      obtain ⟨t, ht, hstep⟩ := Option.bind_eq_some_iff.mp hstep
      cases hcaller : t.caller with
      | returned loop =>
          rw [hcaller] at hstep
          obtain ⟨hshape, hright⟩ := pushBack_spec hp ht hcaller (Option.some.inj hstep).symm
          exact ⟨hshape, hright.trans (and_iff_left trivial).symm⟩
      | _ =>
          rw [hcaller] at hstep
          cases hstep
  | getNextLoop =>
      obtain ⟨-, hstep⟩ := Option.ite_none_right_eq_some.mp hstep
      obtain ⟨⟨p', loop⟩, hnext, hq⟩ := Option.map_eq_some_iff.mp hstep
      obtain ⟨hshape, hright⟩ := getNextLoop_spec hp hnext hq.symm
      exact ⟨hshape, hright.trans (and_iff_left trivial).symm⟩

end Steps

theorem shape_of_exec [DecidableEq α] {mem : ThreadMemory α} {baseLoop : α} {threadSize : Int}
    {labels : List PoolLabel} {p : LoopThreadPool α}
    (hrun : Runs.exec (step mem) (new baseLoop threadSize) labels = some p) : p.Shape mem :=
  Runs.exec_preserves (fun _ _ _ hp hstep => (step_spec hp hstep).1)
    (shape_new mem baseLoop threadSize) hrun

/-- No notification is lost: while `getLoop` waits, that of its thread is still to come. -/
theorem waiting_notified [DecidableEq α] {mem : ThreadMemory α} {baseLoop : α} {threadSize : Int}
    {labels : List PoolLabel} {p : LoopThreadPool α} {i : Nat} {t : LoopThread α}
    (hrun : Runs.exec (step mem) (new baseLoop threadSize) labels = some p)
    (ht : p.threads[i]? = some t) (hwaiting : t.caller = .waiting) : t.thread.sent = false :=
  ((shape_of_exec hrun).threads i t ht).awaited hwaiting

/-- In every run the pointers that the pool hands out are right if and only if every test
    of a `loop_` that is not stored yet finds null, or by chance that very pointer. -/
theorem right_iff_along [DecidableEq α] {mem : ThreadMemory α} {baseLoop : α} {threadSize : Int}
    {labels : List PoolLabel} {p : LoopThreadPool α}
    (hrun : Runs.exec (step mem) (new baseLoop threadSize) labels = some p) :
    p.Right mem ↔ Runs.Along (step mem) (fun p label => p.Honest mem label)
      (new baseLoop threadSize) labels := by
  have hshape := shape_new mem baseLoop threadSize
  have hnew : Right mem (new baseLoop threadSize) := (right_iff hshape).mpr fun i t ht => nomatch ht
  have hiff := Runs.iff_along_of_exec (fun _ _ _ hp hstep => step_spec hp hstep) hshape hrun
  exact hiff.trans (and_iff_right hnew)

/-- The event loops are at 100, 101 and so on; the memory of every `loop_` held 7. -/
def dirty : ThreadMemory Nat :=
  { null := 0, addr := fun i => 100 + i, init := fun _ => 7, addr_ne := fun i => by omega }

/-- The thread has stored its pointer before `getLoop` gets the mutex. -/
def storedFirst : List PoolLabel :=
  [.newThread, .threadFunc 0, .threadFunc 0, .threadFunc 0, .threadFunc 0, .threadFunc 0,
    .getLoop, .getLoop, .getLoop, .pushBack, .getNextLoop]

theorem right_iff_along_storedFirst :
    ∃ p, Runs.exec (step dirty) (new 50 1) storedFirst = some p ∧ p.returned = [100] ∧
      (p.Right dirty ↔
        Runs.Along (step dirty) (fun p label => p.Honest dirty label) (new 50 1) storedFirst) := by
  have hrun : (Runs.exec (step dirty) (new 50 1) storedFirst).any
      (fun p => decide (p.returned = [100])) = true := by
    decide
  obtain ⟨p, hp, hreturned⟩ := (Option.any_eq_true _ _).mp hrun
  exact ⟨p, hp, of_decide_eq_true hreturned, right_iff_along hp⟩

/-- `getLoop` is first, and takes what the memory held for the pointer. -/
def testedFirst : List PoolLabel := [.newThread, .getLoop, .getLoop, .getLoop, .pushBack]

theorem not_right_testedFirst :
    ¬ ∀ (mem : ThreadMemory Nat) (baseLoop : Nat) (threadSize : Int) (labels : List PoolLabel)
        (p : LoopThreadPool Nat),
        Runs.exec (step mem) (new baseLoop threadSize) labels = some p → p.Right mem := by
  intro hall
  have hrun : (Runs.exec (step dirty) (new 50 1) testedFirst).any
      (fun p => decide (p.loops[0]? = some 7)) = true := by
    decide
  obtain ⟨p, hp, hloop⟩ := (Option.any_eq_true _ _).mp hrun
  have hright := (hall dirty 50 1 testedFirst p hp).loops 0 7 (of_decide_eq_true hloop)
  exact absurd hright (by decide)

end LoopThreadPool

end QGServer
