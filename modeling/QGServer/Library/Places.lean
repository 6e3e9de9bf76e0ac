-- SUMMARY: A list whose entries are found by key through a map to their places, with removal by swapping with the last entry.
import Mathlib.Data.List.Basic
import Mathlib.Logic.Function.Basic

/-!
# Places

A table keeps its entries side by side and knows the place of each entry by its
key. An entry is removed by swapping it with the last one, so one other entry
changes its place. `Places` says that the map of places is exact: it finds every
entry, each key in one place, and finds nothing else.
-/

namespace Places

variable {α κ : Type*}

/-- `place` is where the entries of `l` are, by key. -/
def Exact (key : α → κ) (l : List α) (place : κ → Option Nat) : Prop :=
  ∀ k n, place k = some n ↔ l[n]?.map key = some k

/-- Swap the entry at `i` with the last one and drop it there. -/
def swapRemove (l : List α) (i : Nat) : List α :=
  match l[i]?, l.getLast? with
  | some a, some b => ((l.set i b).set (l.length - 1) a).dropLast
  | _, _ => l

variable {key : α → κ} {l : List α} {place : κ → Option Nat} {a : α} {k : κ} {i n : Nat}

/-! ## Looking up -/

theorem exact_nil : Exact key [] fun _ => none := by
  intro k n
  simp

theorem Exact.get (h : Exact key l place) (hk : place k = some n) :
    ∃ a, l[n]? = some a ∧ key a = k :=
  Option.map_eq_some_iff.mp ((h k n).mp hk)

theorem Exact.find (h : Exact key l place) (ha : l[n]? = some a) : place (key a) = some n :=
  (h (key a) n).mpr (by simp [ha])

theorem Exact.lt_length (h : Exact key l place) (hk : place k = some n) : n < l.length := by
  obtain ⟨a, ha, -⟩ := h.get hk
  exact (List.getElem?_eq_some_iff.mp ha).1

/-- Two keys have different places. -/
theorem Exact.inj {k' : κ} (h : Exact key l place) (hk : place k = some n)
    (hk' : place k' = some n) : k = k' := by
  obtain ⟨a, ha, rfl⟩ := h.get hk
  obtain ⟨b, hb, rfl⟩ := h.get hk'
  rw [ha] at hb
  cases hb
  rfl

/-! ## Changing entries -/

/-- Changes that keep the keys keep the places. -/
theorem Exact.congr {l' : List α} (h : Exact key l place)
    (hkeys : ∀ n : Nat, l'[n]?.map key = l[n]?.map key) : Exact key l' place := by
  intro k n
  rw [hkeys n]
  exact h k n

theorem Exact.map {g : α → α} (h : Exact key l place) (hg : ∀ a, key (g a) = key a) :
    Exact key (l.map g) place := by
  refine h.congr fun n => ?_
  rw [List.getElem?_map, Option.map_map]
  exact congrArg (fun f => l[n]?.map f) (funext hg)

theorem Exact.modify {g : α → α} (h : Exact key l place) (hg : ∀ a, key (g a) = key a) :
    Exact key (l.modify i g) place := by
  refine h.congr fun n => ?_
  rw [List.getElem?_modify]
  cases l[n]? with
  | none => rfl
  | some a =>
      change some (key (if i = n then g a else a)) = some (key a)
      split
      · rw [hg]
      · rfl

/-! ## Adding and removing -/

section Update

variable [DecidableEq κ]

/-- A new entry goes to the end. -/
theorem Exact.push (h : Exact key l place) (hfresh : place (key a) = none) :
    Exact key (l ++ [a]) (Function.update place (key a) (some l.length)) := by
  intro k n
  by_cases hk : k = key a
  · subst hk
    rw [Function.update_self, Option.some.injEq]
    constructor
    · rintro rfl
      simp
    · intro hn
      rcases Nat.lt_trichotomy n l.length with hlt | rfl | hgt
      · rw [List.getElem?_append_left hlt] at hn
        rw [← h, hfresh] at hn
        cases hn
      · rfl
      · rw [List.getElem?_eq_none (by simp; omega)] at hn
        cases hn
  · rw [Function.update_of_ne hk, h k n]
    rcases Nat.lt_trichotomy n l.length with hlt | rfl | hgt
    · rw [List.getElem?_append_left hlt]
    · simp [Ne.symm hk]
    · rw [List.getElem?_eq_none (Nat.le_of_lt hgt), List.getElem?_eq_none (by simp; omega)]

omit [DecidableEq κ] in
theorem getElem?_swapRemove (hi : i < l.length) :
    (swapRemove l i)[n]?
      = if n < l.length - 1 then if n = i then l.getLast? else l[n]? else none := by
  obtain ⟨b, hb⟩ : ∃ b, l.getLast? = some b := by
    cases hlast : l.getLast? with
    | none => simp_all
    | some b => exact ⟨b, rfl⟩
  have hremove : swapRemove l i = ((l.set i b).set (l.length - 1) l[i]).dropLast := by
    simp [swapRemove, List.getElem?_eq_getElem hi, hb]
  rw [hremove, List.getElem?_dropLast]
  simp only [List.length_set, hb]
  split
  · rename_i hn
    rw [List.getElem?_set_ne (by omega)]
    split
    · rename_i heq
      subst heq
      rw [List.getElem?_set_self hi]
    · rename_i hne
      rw [List.getElem?_set_ne (Ne.symm hne)]
  · rfl

/-- The last entry goes to the place of the one that is removed. -/
theorem Exact.swapRemove {b : α} (h : Exact key l place) (hk : place k = some i)
    (hb : l.getLast? = some b) :
    Exact key (swapRemove l i)
      (Function.update (Function.update place (key b) (some i)) k none) := by
  have hi := h.lt_length hk
  have hlast : place (key b) = some (l.length - 1) :=
    h.find (by rw [← List.getLast?_eq_getElem?, hb])
  intro k' n
  rw [getElem?_swapRemove hi]
  by_cases hk' : k' = k
  · subst hk'
    rw [Function.update_self]
    refine iff_of_false (by simp) fun hn => ?_
    split at hn
    · rename_i hlt
      split at hn
      · rw [hb] at hn
        obtain rfl : key b = k' := by simpa using hn
        rw [hk] at hlast
        cases hlast
        omega
      · rename_i hne
        have hn' := (h k' n).mpr hn
        rw [hk] at hn'
        cases hn'
        exact hne rfl
    · cases hn
  · rw [Function.update_of_ne hk']
    by_cases hkb : k' = key b
    · subst hkb
      rw [Function.update_self, Option.some.injEq]
      have hne : i ≠ l.length - 1 := by
        rintro rfl
        exact hk' (h.inj hlast hk)
      constructor
      · rintro rfl
        rw [if_pos (by omega), if_pos rfl, hb]
        rfl
      · intro hn
        split at hn
        · rename_i hlt
          split at hn
          · rename_i heq
            exact heq.symm
          · have hn' := (h _ n).mpr hn
            rw [hlast] at hn'
            cases hn'
            omega
        · cases hn
    · rw [Function.update_of_ne hkb]
      constructor
      · intro hn
        have hlt := h.lt_length hn
        have hnlast : n ≠ l.length - 1 := by
          rintro rfl
          exact hkb (h.inj hn hlast)
        have hni : n ≠ i := by
          rintro rfl
          exact hk' (h.inj hn hk)
        rw [if_pos (by omega), if_neg hni]
        exact (h k' n).mp hn
      · intro hn
        split at hn
        · split at hn
          · rw [hb] at hn
            exact absurd (by simpa using hn.symm) hkb
          · exact (h k' n).mpr hn
        · cases hn

end Update

end Places
