-- SUMMARY: Timers and the heap that has them by their deadlines: addTimer and popTimer keep the order and lose no timer.
import QGServer.Library.HeapOrder
import QGServer.Util.TimeStamp
import Mathlib.Data.Int.ConditionallyCompleteOrder
import Mathlib.Data.List.Perm.Basic

/-!
# TimerHeap

`src/base/timer.cpp` and `src/base/timer_heap.cpp`. The heap is in a vector; a
timer rises by exchanges with its parent and sinks by exchanges with its least
child. `popTimer` copies the last timer to the root and lets it sink while its
old place is still part of the vector.
-/

namespace QGServer

/-- A timer. Its callback `timer_handler_` is of a type `κ`. -/
structure Timer (κ : Type*) where
  expire : TimeStamp
  repeat_ : Bool
  /-- In seconds. -/
  interval : Int
  timerHandler : κ
  deriving DecidableEq, Repr

namespace Timer

variable {κ : Type*}

/-- The clock reads `now`. -/
def timeout (timer : Timer κ) (now : TimeStamp) : Bool := decide (timer.expire ≤ now)

def update (timer : Timer κ) (timeout : Int) : Option (Timer κ) :=
  (addTime timer.expire timeout).map fun expire => { timer with expire := expire }

def restart (timer : Timer κ) : Option (Timer κ) := timer.update timer.interval

end Timer

/-- `TimerHeap`, by `heap_`. -/
abbrev TimerHeap (κ : Type*) := List (Timer κ)

namespace TimerHeap

variable {κ : Type*}

/-! ## Functions -/

/-- The key that is compared. No position past the end is ever compared. -/
def expireAt (heap : TimerHeap κ) (idx : Nat) : TimeStamp := (heap[idx]?).elim 0 Timer.expire

def swap (upidx downidx : Nat) (heap : TimerHeap κ) : TimerHeap κ :=
  match heap[upidx]?, heap[downidx]? with
  | some up, some down => (heap.set upidx down).set downidx up
  | _, _ => heap

@[simp] theorem length_swap (upidx downidx : Nat) (heap : TimerHeap κ) :
    (heap.swap upidx downidx).length = heap.length := by
  unfold swap
  split <;> simp

def up (heap : TimerHeap κ) (idx : Nat) : TimerHeap κ :=
  let parent := (idx - 1) / 2
  if 0 < idx ∧ heap.expireAt idx < heap.expireAt parent then up (heap.swap idx parent) parent
  else heap
termination_by idx

/-- The local variable of `down`: the first child or the one next to it. -/
def minChild (heap : TimerHeap κ) (child : Nat) : Nat :=
  if child + 1 = heap.length ∨ heap.expireAt child < heap.expireAt (child + 1) then child
  else child + 1

theorem le_minChild (heap : TimerHeap κ) (child : Nat) : child ≤ heap.minChild child := by
  unfold minChild
  split <;> omega

def down (heap : TimerHeap κ) (idx : Nat) : TimerHeap κ :=
  let child := 2 * idx + 1
  if child < heap.length then
    let minChild := heap.minChild child
    if heap.expireAt idx < heap.expireAt minChild then heap
    else down (heap.swap idx minChild) minChild
  else heap
termination_by heap.length - idx
decreasing_by
  have hle := le_minChild heap (2 * idx + 1)
  rw [length_swap]
  omega

def addTimer (timer : Timer κ) (heap : TimerHeap κ) : TimerHeap κ :=
  up (heap ++ [timer]) heap.length

def popTimer (heap : TimerHeap κ) : TimerHeap κ :=
  match heap.getLast? with
  | none => heap
  | some last => (down (heap.set 0 last) 0).dropLast

def top (heap : TimerHeap κ) : Option (Timer κ) := heap.head?

/-! ## The order of the deadlines -/

/-- No timer is before its parent. -/
def Ordered (heap : TimerHeap κ) : Prop := HeapOrder.Ordered heap.expireAt heap.length

section Order

theorem ordered_nil : Ordered ([] : TimerHeap κ) := fun _ _ hi => absurd hi (Nat.not_lt_zero _)

variable {heap : TimerHeap κ} {idx i j : Nat}

theorem expireAt_of_getElem? {timer : Timer κ} (h : heap[i]? = some timer) :
    heap.expireAt i = timer.expire := by
  rw [expireAt, h]
  rfl

/-- Two timers are exchanged. -/
theorem getElem?_swap (hi : i < heap.length) (hj : j < heap.length) (n : Nat) :
    (heap.swap i j)[n]? = heap[Equiv.swap i j n]? := by
  unfold swap
  rw [List.getElem?_eq_getElem hi, List.getElem?_eq_getElem hj]
  dsimp only
  by_cases hnj : n = j
  · subst hnj
    rw [Equiv.swap_apply_right, List.getElem?_set_self (by rwa [List.length_set]),
      List.getElem?_eq_getElem hi]
  rw [List.getElem?_set_ne (Ne.symm hnj)]
  by_cases hni : n = i
  · subst hni
    rw [Equiv.swap_apply_left, List.getElem?_set_self hi, List.getElem?_eq_getElem hj]
  · rw [Equiv.swap_apply_of_ne_of_ne hni hnj, List.getElem?_set_ne (Ne.symm hni)]

theorem expireAt_swap (hi : i < heap.length) (hj : j < heap.length) :
    (heap.swap i j).expireAt = heap.expireAt ∘ Equiv.swap i j := by
  funext n
  rw [Function.comp_apply, expireAt, expireAt, getElem?_swap hi hj]

theorem perm_swap (hi : i < heap.length) (hj : j < heap.length) : (heap.swap i j).Perm heap := by
  unfold swap
  rw [List.getElem?_eq_getElem hi, List.getElem?_eq_getElem hj]
  exact List.set_set_perm hi hj

/-- What a loop of exchanges leaves. -/
structure Sifted (heap heap' : TimerHeap κ) : Prop where
  ordered : heap'.Ordered
  perm : heap'.Perm heap

theorem up_spec (hup : HeapOrder.UpOrder heap.expireAt heap.length idx)
    (hidx : idx < heap.length) : Sifted heap (heap.up idx) := by
  induction heap, idx using up.induct with
  | case1 heap idx parent hlt ih =>
      have hparent : parent < heap.length := (HeapOrder.parent_lt hlt.1).trans hidx
      have hswap : HeapOrder.UpOrder (heap.expireAt ∘ Equiv.swap idx parent) heap.length parent :=
        hup.swap hlt.1 hidx hlt.2.le
      rw [← expireAt_swap hidx hparent, ← length_swap idx parent heap] at hswap
      have hrest := ih hswap ((length_swap idx parent heap).symm ▸ hparent)
      rw [up, if_pos hlt]
      exact ⟨hrest.ordered, hrest.perm.trans (perm_swap hidx hparent)⟩
  | case2 heap idx parent hstop =>
      rw [up, if_neg hstop]
      exact ⟨hup.ordered fun hpos => not_lt.mp fun hlt => hstop ⟨hpos, hlt⟩, .refl heap⟩

theorem addTimer_spec (h : heap.Ordered) (timer : Timer κ) :
    Sifted (timer :: heap) (heap.addTimer timer) := by
  have hkeys : ∀ i, i < heap.length → (heap ++ [timer]).expireAt i = heap.expireAt i := by
    intro i hi
    unfold expireAt
    rw [List.getElem?_append_left hi]
  have hlength : (heap ++ [timer]).length = heap.length + 1 := List.length_append
  have hup := HeapOrder.Ordered.push h hkeys
  rw [← hlength] at hup
  have hspec := up_spec hup (by omega)
  exact ⟨hspec.ordered, hspec.perm.trans (List.perm_append_singleton timer heap)⟩

/-- The child that `down` compares with is the least one. -/
theorem minChild_least (hchild : 2 * idx + 1 < heap.length) :
    heap.minChild (2 * idx + 1) < heap.length ∧
      HeapOrder.parent (heap.minChild (2 * idx + 1)) = idx ∧
      ∀ c, 0 < c → c < heap.length → HeapOrder.parent c = idx →
        heap.expireAt (heap.minChild (2 * idx + 1)) ≤ heap.expireAt c := by
  unfold HeapOrder.parent minChild
  have hcases : ∀ c, 0 < c → (c - 1) / 2 = idx → c = 2 * idx + 1 ∨ c = 2 * idx + 1 + 1 := by
    omega
  split
  · rename_i hleft
    refine ⟨hchild, by omega, fun c hpos hc hp => ?_⟩
    rcases hcases c hpos hp with rfl | rfl
    · exact le_rfl
    · exact (hleft.resolve_left (by omega)).le
  · rename_i hright
    rw [not_or, not_lt] at hright
    refine ⟨by omega, by omega, fun c hpos hc hp => ?_⟩
    rcases hcases c hpos hp with rfl | rfl
    · exact hright.2
    · exact le_rfl

/-- If the timer that sinks is also the last one, the last one stays the same. -/
theorem down_spec (hdown : HeapOrder.DownOrder heap.expireAt heap.length idx)
    (hidx : idx < heap.length) (hlast : heap[idx]? = heap[heap.length - 1]?) :
    Sifted heap (heap.down idx) ∧
      (heap.down idx)[heap.length - 1]? = heap[heap.length - 1]? := by
  induction heap, idx using down.induct with
  | case1 heap idx child hchild minChild hstop =>
      obtain ⟨-, -, hleast⟩ := minChild_least hchild
      rw [down, if_pos hchild, if_pos hstop]
      exact ⟨⟨hdown.ordered fun c hpos hc hp => hstop.le.trans (hleast c hpos hc hp), .refl heap⟩,
        rfl⟩
  | case2 heap idx child hchild minChild hgo ih =>
      obtain ⟨hlt, hparent, hleast⟩ := minChild_least hchild
      have hgt : idx < minChild := by
        have hle : 2 * idx + 1 ≤ minChild := le_minChild heap (2 * idx + 1)
        omega
      have hswap := hdown.swap (Nat.zero_lt_of_lt hgt) hlt hparent hleast (not_lt.mp hgo)
      rw [← expireAt_swap hidx hlt, ← length_swap idx minChild heap] at hswap
      have hkept : (heap.swap idx minChild)[heap.length - 1]? = heap[heap.length - 1]? := by
        rw [getElem?_swap hidx hlt]
        by_cases hend : heap.length - 1 = minChild
        · rw [hend, Equiv.swap_apply_right, hlast, hend]
        · rw [Equiv.swap_apply_of_ne_of_ne (by omega) hend]
      have hmoved : (heap.swap idx minChild)[minChild]? = heap[idx]? := by
        rw [getElem?_swap hidx hlt, Equiv.swap_apply_right]
      obtain ⟨hsifted, hend⟩ := ih hswap (by rwa [length_swap])
        (by rw [length_swap, hmoved, hlast, hkept])
      rw [length_swap] at hend
      rw [down, if_pos hchild, if_neg hgo]
      exact ⟨⟨hsifted.ordered, hsifted.perm.trans (perm_swap hidx hlt)⟩, hend.trans hkept⟩
  | case3 heap idx child hchild =>
      rw [down, if_neg hchild]
      refine ⟨⟨hdown.ordered fun c hpos hc hp => ?_, .refl heap⟩, rfl⟩
      unfold HeapOrder.parent at hp
      omega

/-- The last timer of a heap in order is taken off. -/
theorem Ordered.dropLast (h : heap.Ordered) : Ordered heap.dropLast := by
  unfold Ordered
  rw [List.length_dropLast]
  refine HeapOrder.Ordered.congr (h.mono (Nat.sub_le _ 1)) fun i hi => ?_
  unfold expireAt
  rw [List.getElem?_dropLast, if_pos hi]

/-- The timer at the root goes, whatever its deadline has become. -/
theorem popTimer_spec {timer : Timer κ} {rest : TimerHeap κ}
    (h : HeapOrder.DownOrder (expireAt (timer :: rest)) (rest.length + 1) 0) :
    Sifted rest (popTimer (timer :: rest)) := by
  obtain ⟨last, hlast⟩ : ∃ last, (timer :: rest).getLast? = some last :=
    ⟨_, List.getLast?_eq_getLast_of_ne_nil (List.cons_ne_nil timer rest)⟩
  have hpop : popTimer (timer :: rest) = (down (last :: rest) 0).dropLast := by
    unfold popTimer
    rw [hlast]
    rfl
  have hdown : HeapOrder.DownOrder (expireAt (last :: rest)) (last :: rest).length 0 := by
    refine h.root fun i hpos _ => ?_
    obtain ⟨i, rfl⟩ := Nat.exists_eq_add_of_le' hpos
    rfl
  have hend : (last :: rest)[rest.length]? = some last := by
    rw [List.getLast?_eq_getElem?, List.length_cons, Nat.add_sub_cancel] at hlast
    cases hrest : rest.length with
    | zero => rfl
    | succ n =>
        rw [hrest] at hlast
        exact hlast
  obtain ⟨hsifted, hkept⟩ := down_spec hdown (Nat.succ_pos _) hend.symm
  have hlength := hsifted.perm.length_eq
  rw [List.length_cons, Nat.add_sub_cancel, hend] at hkept
  have hback : (down (last :: rest) 0).getLast? = some last := by
    rw [List.getLast?_eq_getElem?, hlength, List.length_cons, Nat.add_sub_cancel, hkept]
  rw [hpop]
  refine ⟨hsifted.ordered.dropLast, ?_⟩
  have hsplit : (down (last :: rest) 0).dropLast ++ [last] = down (last :: rest) 0 :=
    List.dropLast_append_getLast? last hback
  have hperm := hsifted.perm
  rw [← hsplit] at hperm
  exact ((List.perm_append_singleton last _).symm.trans hperm).cons_inv

/-- The timer at the root may get another deadline, if it is popped next. -/
theorem Ordered.downOrder {timer : Timer κ} {rest : TimerHeap κ} (h : Ordered (timer :: rest))
    (timer' : Timer κ) :
    HeapOrder.DownOrder (expireAt (timer' :: rest)) (rest.length + 1) 0 := by
  refine HeapOrder.DownOrder.root (HeapOrder.Ordered.downOrder h) fun i hpos _ => ?_
  obtain ⟨i, rfl⟩ := Nat.exists_eq_add_of_le' hpos
  rfl

theorem top_of_eq {timer : Timer κ} {rest : TimerHeap κ} (h : heap = timer :: rest) :
    heap.top = some timer := by
  rw [h]
  rfl

/-- `top` has the earliest deadline. -/
theorem Ordered.top_le {timer : Timer κ} (h : heap.Ordered) (htop : heap.top = some timer) :
    ∀ t ∈ heap, timer.expire ≤ t.expire := by
  intro t ht
  obtain ⟨i, hi⟩ := List.mem_iff_getElem?.mp ht
  obtain ⟨hlt, -⟩ := List.getElem?_eq_some_iff.mp hi
  have hroot : heap.expireAt 0 = timer.expire := by
    apply expireAt_of_getElem?
    rw [← List.head?_eq_getElem?]
    exact htop
  have hle := HeapOrder.Ordered.root_le h hlt
  rwa [hroot, expireAt_of_getElem? hi] at hle

end Order

end TimerHeap

end QGServer
