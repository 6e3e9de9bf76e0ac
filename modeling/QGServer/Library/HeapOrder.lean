-- SUMMARY: The order of a binary heap over positions, and what exchanging a key with its parent or its least child does to it.
import Mathlib.Logic.Equiv.Basic
import Mathlib.Order.Lattice

/-!
# Heap order

A binary heap of `n` entries is laid out over the positions below `n`; the
parent of a position is the usual one, and position 0 is the root. The keys are
a function of the position, so that exchanging two entries composes it with a
transposition.

While an entry rises or sinks, the order may fail at its position only: between
it and its parent (`UpOrder`), or between it and its children (`DownOrder`).
-/

namespace HeapOrder

variable {ι : Type*} [Preorder ι] {k k' : ℕ → ι} {n hole : ℕ}

def parent (i : ℕ) : ℕ := (i - 1) / 2

theorem parent_lt {i : ℕ} (hi : 0 < i) : parent i < i := by
  unfold parent
  omega

/-- No key is before the key of its parent. -/
def Ordered (k : ℕ → ι) (n : ℕ) : Prop := ∀ i, 0 < i → i < n → k (parent i) ≤ k i

/-- The least key is at the root. -/
theorem Ordered.root_le (h : Ordered k n) {i : ℕ} (hi : i < n) : k 0 ≤ k i := by
  induction i using Nat.strong_induction_on with
  | h i ih =>
      rcases Nat.eq_zero_or_pos i with rfl | hpos
      · exact le_rfl
      · have hlt := parent_lt hpos
        exact (ih (parent i) hlt (hlt.trans hi)).trans (h i hpos hi)

theorem Ordered.mono (h : Ordered k n) {m : ℕ} (hm : m ≤ n) : Ordered k m :=
  fun i hpos hi => h i hpos (hi.trans_le hm)

theorem Ordered.congr (h : Ordered k n) (hk : ∀ i, i < n → k' i = k i) : Ordered k' n := by
  intro i hpos hi
  rw [hk i hi, hk (parent i) ((parent_lt hpos).trans hi)]
  exact h i hpos hi

/-! ## Rising -/

/-- The order may fail between the hole and its parent. -/
structure UpOrder (k : ℕ → ι) (n hole : ℕ) : Prop where
  off : ∀ i, 0 < i → i < n → i ≠ hole → k (parent i) ≤ k i
  across : 0 < hole → ∀ c, 0 < c → c < n → parent c = hole → k (parent hole) ≤ k c

/-- An entry is added at the end. -/
theorem Ordered.push (h : Ordered k n) (hk : ∀ i, i < n → k' i = k i) : UpOrder k' (n + 1) n := by
  have hordered := h.congr hk
  refine ⟨fun i hpos hi hne => hordered i hpos (by omega), fun _ c hpos hc hparent => ?_⟩
  have hlt := parent_lt hpos
  omega

/-- The entry goes up. -/
theorem UpOrder.swap (h : UpOrder k n hole) (hpos : 0 < hole) (hn : hole < n)
    (hlt : k hole ≤ k (parent hole)) :
    UpOrder (k ∘ Equiv.swap hole (parent hole)) n (parent hole) := by
  have hparent := parent_lt hpos
  refine ⟨fun i hi hin hne => ?_, fun hp c hc hcn hchild => ?_⟩
  · have hlti := parent_lt hi
    simp only [Function.comp_apply]
    by_cases hih : i = hole
    · subst hih
      rw [Equiv.swap_apply_left, Equiv.swap_apply_right]
      exact hlt
    rw [Equiv.swap_apply_of_ne_of_ne hih hne]
    by_cases hph : parent i = hole
    · rw [hph, Equiv.swap_apply_left]
      exact h.across hpos i hi hin hph
    by_cases hpp : parent i = parent hole
    · rw [hpp, Equiv.swap_apply_right]
      exact hlt.trans (hpp ▸ h.off i hi hin hih)
    · rw [Equiv.swap_apply_of_ne_of_ne hph hpp]
      exact h.off i hi hin hih
  · have hgrand := parent_lt hp
    have hup := h.off (parent hole) hp (hparent.trans hn) hparent.ne
    simp only [Function.comp_apply]
    rw [Equiv.swap_apply_of_ne_of_ne (hgrand.trans hparent).ne hgrand.ne]
    by_cases hch : c = hole
    · rw [hch, Equiv.swap_apply_left]
      exact hup
    · have hcp : c ≠ parent hole := by
        have := parent_lt hc
        omega
      rw [Equiv.swap_apply_of_ne_of_ne hch hcp]
      exact hup.trans (hchild ▸ h.off c hc hcn hch)

/-- The entry stays where it is. -/
theorem UpOrder.ordered (h : UpOrder k n hole) (hstop : 0 < hole → k (parent hole) ≤ k hole) :
    Ordered k n := by
  intro i hpos hi
  by_cases hih : i = hole
  · subst hih
    exact hstop hpos
  · exact h.off i hpos hi hih

/-! ## Sinking -/

/-- The order may fail between the hole and its children. -/
structure DownOrder (k : ℕ → ι) (n hole : ℕ) : Prop where
  off : ∀ i, 0 < i → i < n → parent i ≠ hole → k (parent i) ≤ k i
  across : 0 < hole → ∀ c, 0 < c → c < n → parent c = hole → k (parent hole) ≤ k c

/-- Another entry is put at the root. -/
theorem DownOrder.root (h : DownOrder k n 0) (hk : ∀ i, 0 < i → i < n → k' i = k i) :
    DownOrder k' n 0 := by
  refine ⟨fun i hpos hi hne => ?_, fun hpos => absurd hpos (lt_irrefl 0)⟩
  rw [hk i hpos hi, hk (parent i) (Nat.pos_of_ne_zero hne) ((parent_lt hpos).trans hi)]
  exact h.off i hpos hi hne

theorem Ordered.downOrder (h : Ordered k n) : DownOrder k n 0 :=
  ⟨fun i hpos hi _ => h i hpos hi, fun hpos => absurd hpos (lt_irrefl 0)⟩

/-- The entry goes down, in exchange for its least child. -/
theorem DownOrder.swap (h : DownOrder k n hole) {c : ℕ} (hc : 0 < c) (hcn : c < n)
    (hchild : parent c = hole) (hleast : ∀ d, 0 < d → d < n → parent d = hole → k c ≤ k d)
    (hle : k c ≤ k hole) : DownOrder (k ∘ Equiv.swap hole c) n c := by
  have hlt := parent_lt hc
  rw [hchild] at hlt
  refine ⟨fun i hi hin hne => ?_, fun _ d hd hdn hd' => ?_⟩
  · have hlti := parent_lt hi
    simp only [Function.comp_apply]
    by_cases hic : i = c
    · subst hic
      rw [hchild, Equiv.swap_apply_left, Equiv.swap_apply_right]
      exact hle
    by_cases hih : i = hole
    · subst hih
      rw [Equiv.swap_apply_left, Equiv.swap_apply_of_ne_of_ne hlti.ne hne]
      exact h.across hi c hc hcn hchild
    rw [Equiv.swap_apply_of_ne_of_ne hih hic]
    by_cases hph : parent i = hole
    · rw [hph, Equiv.swap_apply_left]
      exact hleast i hi hin hph
    · rw [Equiv.swap_apply_of_ne_of_ne hph hne]
      exact h.off i hi hin hph
  · have hltd := parent_lt hd
    simp only [Function.comp_apply]
    rw [hchild, Equiv.swap_apply_left, Equiv.swap_apply_of_ne_of_ne (by omega) (by omega)]
    have hoff := h.off d hd hdn (by omega)
    rw [hd'] at hoff
    exact hoff

/-- The entry stays where it is. -/
theorem DownOrder.ordered (h : DownOrder k n hole)
    (hstop : ∀ c, 0 < c → c < n → parent c = hole → k hole ≤ k c) : Ordered k n := by
  intro i hpos hi
  by_cases hp : parent i = hole
  · rw [hp]
    exact hstop i hpos hi hp
  · exact h.off i hpos hi hp

end HeapOrder
