-- SUMMARY: Texts cut at a separator, lines and the blank line behind them, and streams of frames that are decoded one after another.
import Mathlib.Data.List.Basic

/-!
# Framing

A head of lines ends at the first blank line, that is where two line ends follow
each other. A decoder takes one frame off a stream; applied again and again it
gives back the values of a stream of encoded frames.
-/

namespace Framing

variable {α β : Type*} [DecidableEq α]

/-! ## Cuts -/

/-- Cut at the first place where `d` begins: what stands before it, and what
    follows it. -/
def cutAt (d : List α) : List α → Option (List α × List α)
  | [] => if d = [] then some ([], []) else none
  | x :: xs =>
    if d.isPrefixOf (x :: xs) then some ([], (x :: xs).drop d.length)
    else (cutAt d xs).map fun (before, behind) => (x :: before, behind)

section Cut

variable {a : α} {d xs ys : List α}

theorem cutAt_append_self (hd : d ≠ []) : cutAt d (d ++ ys) = some ([], ys) := by
  obtain ⟨x, d, rfl⟩ := List.exists_cons_of_ne_nil hd
  rw [List.cons_append, cutAt, if_pos]
  · rw [← List.cons_append, List.drop_left]
  · rw [← List.cons_append, List.isPrefixOf_iff_prefix]
    exact List.prefix_append _ _

theorem cutAt_cons_of_mismatch (h : ¬ d <+: a :: xs) :
    cutAt d (a :: xs) = (cutAt d xs).map fun (before, behind) => (a :: before, behind) := by
  rw [cutAt, if_neg]
  rwa [List.isPrefixOf_iff_prefix]

/-- The separator does not begin where its first element does not stand. -/
theorem cutAt_append_of_notMem (h : a ∉ xs) :
    cutAt (a :: d) (xs ++ ys) =
      (cutAt (a :: d) ys).map fun (before, behind) => (xs ++ before, behind) := by
  induction xs with
  | nil => simp
  | cons x xs ih =>
      rw [List.mem_cons, not_or] at h
      have hprefix : ¬ a :: d <+: x :: (xs ++ ys) := fun hp => h.1 (List.cons_prefix_cons.mp hp).1
      rw [List.cons_append, cutAt_cons_of_mismatch hprefix, ih h.2, Option.map_map]
      rfl

end Cut

/-! ## Lines -/

/-- Put an element in front of the first line. -/
def prepend (x : α) : List (List α) → List (List α)
  | [] => [[x]]
  | l :: ls => (x :: l) :: ls

/-- The lines of a text, each ended by `cr` and `lf`, and what follows the last end. -/
def splitLines (cr lf : α) : List α → List (List α)
  | [] => [[]]
  | [x] => [[x]]
  | x :: y :: xs =>
    if x = cr ∧ y = lf then [] :: splitLines cr lf xs
    else prepend x (splitLines cr lf (y :: xs))

section Lines

variable {cr lf : α} {l xs : List α} {ls : List (List α)}

theorem splitLines_end : splitLines cr lf (cr :: lf :: xs) = [] :: splitLines cr lf xs := by
  rw [splitLines, if_pos ⟨rfl, rfl⟩]

theorem splitLines_cons {x : α} (hx : x ≠ cr) :
    splitLines cr lf (x :: xs) = prepend x (splitLines cr lf xs) := by
  cases xs with
  | nil => rfl
  | cons y xs => rw [splitLines, if_neg fun h => hx h.1]

theorem splitLines_line (hl : cr ∉ l) : splitLines cr lf l = [l] := by
  induction l with
  | nil => rfl
  | cons x l ih =>
      rw [List.mem_cons, not_or] at hl
      rw [splitLines_cons (Ne.symm hl.1), ih hl.2]
      rfl

theorem splitLines_append (hl : cr ∉ l) :
    splitLines cr lf (l ++ cr :: lf :: xs) = l :: splitLines cr lf xs := by
  induction l with
  | nil => exact splitLines_end
  | cons x l ih =>
      rw [List.mem_cons, not_or] at hl
      rw [List.cons_append, splitLines_cons (Ne.symm hl.1), ih hl.2]
      rfl

/-- Lines that are put together come apart again. -/
theorem splitLines_intercalate (hne : ls ≠ []) (hls : ∀ l ∈ ls, cr ∉ l) :
    splitLines cr lf ([cr, lf].intercalate ls) = ls := by
  induction ls with
  | nil => exact absurd rfl hne
  | cons l ls ih =>
      rw [List.forall_mem_cons] at hls
      cases ls with
      | nil =>
          rw [List.intercalate_singleton]
          exact splitLines_line hls.1
      | cons l' ls =>
          rw [List.intercalate_cons_cons, List.append_assoc, List.cons_append, List.singleton_append,
            splitLines_append hls.1, ih (List.cons_ne_nil _ _) hls.2]

/-- A line end is no blank line if a line follows it. -/
theorem cutAt_lineEnd (hlf : lf ≠ cr) {x : α} (hx : x ≠ cr) :
    cutAt [cr, lf, cr, lf] (cr :: lf :: x :: xs) =
      (cutAt [cr, lf, cr, lf] (x :: xs)).map fun (before, behind) =>
        (cr :: lf :: before, behind) := by
  rw [cutAt_cons_of_mismatch, cutAt_cons_of_mismatch, Option.map_map]
  · rfl
  · intro hp
    exact hlf (List.cons_prefix_cons.mp hp).1.symm
  · intro hp
    have hbehind := (List.cons_prefix_cons.mp (List.cons_prefix_cons.mp hp).2).2
    exact hx (List.cons_prefix_cons.mp hbehind).1.symm

omit [DecidableEq α] in
theorem exists_intercalate_cons {d : List α} (x : α) (l : List α) (ls : List (List α)) :
    ∃ ys, d.intercalate ((x :: l) :: ls) = x :: ys := by
  cases ls with
  | nil => exact ⟨l, List.intercalate_singleton⟩
  | cons l' ls => exact ⟨l ++ (d ++ d.intercalate (l' :: ls)), by simp⟩

/-- The first blank line is the one behind the lines. -/
theorem cutAt_blank (hlf : lf ≠ cr) (hne : ls ≠ []) (hls : ∀ l ∈ ls, cr ∉ l ∧ l ≠ []) :
    cutAt [cr, lf, cr, lf] ([cr, lf].intercalate ls ++ [cr, lf, cr, lf] ++ xs) =
      some ([cr, lf].intercalate ls, xs) := by
  induction ls with
  | nil => exact absurd rfl hne
  | cons l ls ih =>
      rw [List.forall_mem_cons] at hls
      cases ls with
      | nil =>
          rw [List.intercalate_singleton, List.append_assoc, cutAt_append_of_notMem hls.1.1,
            cutAt_append_self (List.cons_ne_nil _ _)]
          simp
      | cons l' ls =>
          have hrest := ih (List.cons_ne_nil _ _) hls.2
          obtain ⟨hcr, hnil⟩ := hls.2 l' List.mem_cons_self
          obtain ⟨x, l', rfl⟩ := List.exists_cons_of_ne_nil hnil
          have hx : x ≠ cr := fun h => hcr (h ▸ List.mem_cons_self)
          obtain ⟨ys, hys⟩ := exists_intercalate_cons (d := [cr, lf]) x l' ls
          rw [hys] at hrest
          rw [List.intercalate_cons_cons, hys, List.append_assoc, List.append_assoc l,
            List.append_assoc l, cutAt_append_of_notMem hls.1.1]
          simp only [List.cons_append, List.nil_append, List.append_assoc] at hrest ⊢
          rw [cutAt_lineEnd hlf hx, hrest]
          simp

omit [DecidableEq α] in
/-- Lines with their ends. -/
theorem flatMap_append_eq_intercalate (hne : ls ≠ []) :
    ls.flatMap (· ++ xs) = xs.intercalate ls ++ xs := by
  induction ls with
  | nil => exact absurd rfl hne
  | cons l ls ih =>
      cases ls with
      | nil => simp
      | cons l' ls =>
          rw [List.flatMap_cons, ih (List.cons_ne_nil _ _), List.intercalate_cons_cons]
          simp only [List.append_assoc]

end Lines

/-! ## Streams -/

/-- Take frames off the stream until nothing is left of it. -/
def decodeAll (dec : List α → Option (β × List α)) (s : List α) : Option (List β) :=
  if s.isEmpty then some []
  else
    match dec s with
    | none => none
    | some (b, rest) =>
      if _h : rest.length < s.length then (decodeAll dec rest).map (b :: ·) else none
termination_by s.length

omit [DecidableEq α] in
/-- What is decoded frame by frame is decoded from the stream. -/
theorem decodeAll_flatMap {γ : Type*} {dec : List α → Option (β × List α)} {enc : γ → List α}
    {value : γ → β} {as : List γ} (hne : ∀ a ∈ as, enc a ≠ [])
    (hdec : ∀ a ∈ as, ∀ rest, dec (enc a ++ rest) = some (value a, rest)) :
    decodeAll dec (as.flatMap enc) = some (as.map value) := by
  induction as with
  | nil =>
      rw [List.flatMap_nil, decodeAll]
      rfl
  | cons a as ih =>
      rw [List.forall_mem_cons] at hne hdec
      have hpos : 0 < (enc a).length := List.length_pos_iff.mpr hne.1
      rw [List.flatMap_cons, decodeAll, if_neg, hdec.1]
      · dsimp only
        rw [dif_pos, ih hne.2 hdec.2]
        · rfl
        · rw [List.length_append]
          omega
      · rw [List.isEmpty_iff]
        exact fun h => hne.1 (List.append_eq_nil_iff.mp h).1

/-! ### Streams of which a part has come -/

theorem length_le_of_cutAt {d xs before behind : List α} (h : cutAt d xs = some (before, behind)) :
    d.length ≤ xs.length := by
  induction xs generalizing before with
  | nil =>
      unfold cutAt at h
      split at h
      · rename_i hd
        exact Nat.le_of_eq (congrArg List.length hd)
      · cases h
  | cons x xs ih =>
      unfold cutAt at h
      split at h
      · rename_i hprefix
        exact (List.isPrefixOf_iff_prefix.mp hprefix).length_le
      · obtain ⟨⟨before', behind'⟩, hcut, heq⟩ := Option.map_eq_some_iff.mp h
        cases heq
        exact Nat.le_succ_of_le (ih hcut)

/-- What is cut off is cut off a longer text as well. -/
theorem cutAt_append {d xs before behind : List α} (h : cutAt d xs = some (before, behind))
    (ys : List α) : cutAt d (xs ++ ys) = some (before, behind ++ ys) := by
  induction xs generalizing before with
  | nil =>
      unfold cutAt at h
      split at h
      · rename_i hd
        cases h
        subst hd
        cases ys <;> rfl
      · cases h
  | cons x xs ih =>
      unfold cutAt at h
      split at h
      · rename_i hprefix
        cases h
        rw [List.isPrefixOf_iff_prefix] at hprefix
        rw [List.cons_append, cutAt, if_pos, ← List.cons_append,
          List.drop_append_of_le_length hprefix.length_le]
        rw [List.isPrefixOf_iff_prefix, ← List.cons_append]
        exact hprefix.trans (List.prefix_append _ _)
      · rename_i hmismatch
        obtain ⟨⟨before', behind'⟩, hcut, heq⟩ := Option.map_eq_some_iff.mp h
        cases heq
        have hlength := length_le_of_cutAt hcut
        have hstill : ¬ d <+: x :: (xs ++ ys) := by
          intro hprefix
          apply hmismatch
          rw [List.isPrefixOf_iff_prefix]
          exact List.prefix_of_prefix_length_le hprefix (List.prefix_append (x :: xs) ys)
            (Nat.le_succ_of_le hlength)
        rw [List.cons_append, cutAt_cons_of_mismatch hstill, ih hcut]
        rfl

omit [DecidableEq α]

/-- The values of the frames that are whole. -/
def decodeSome (dec : List α → Option (β × List α)) (s : List α) : List β :=
  match dec s with
  | none => []
  | some (b, rest) => if _h : rest.length < s.length then b :: decodeSome dec rest else []
termination_by s.length

/-- A decoder that takes a frame off a stream takes it off a longer one. -/
def Stable (dec : List α → Option (β × List α)) : Prop :=
  ∀ s t b rest, dec s = some (b, rest) → dec (s ++ t) = some (b, rest ++ t)

/-- Of a part of a stream of frames the first values are decoded. -/
theorem decodeSome_prefix {γ : Type*} {dec : List α → Option (β × List α)} {enc : γ → List α}
    {value : γ → β} {as : List γ} (hstable : Stable dec)
    (hdec : ∀ a ∈ as, dec (enc a) = some (value a, [])) {s : List α} (hs : s <+: as.flatMap enc) :
    decodeSome dec s <+: as.map value := by
  induction as generalizing s with
  | nil =>
      rw [List.prefix_nil.mp hs]
      unfold decodeSome
      split
      · exact List.prefix_rfl
      · rw [dif_neg (by simp)]
        exact List.prefix_rfl
  | cons a as ih =>
      rw [List.forall_mem_cons] at hdec
      rw [List.flatMap_cons] at hs
      unfold decodeSome
      split
      · exact List.nil_prefix
      · rename_i b rest hfirst
        split
        · -- the first frame is whole, or the decoder would not have taken one
          have hwhole : enc a <+: s := by
            rcases List.prefix_or_prefix_of_prefix hs (List.prefix_append _ _) with hpart | hwhole
            · obtain ⟨t, ht⟩ := hpart
              have hlonger := hstable s t b rest hfirst
              rw [ht, hdec.1] at hlonger
              have hnil : [] = rest ++ t := (Prod.mk.inj (Option.some.inj hlonger)).2
              rw [(List.append_eq_nil_iff.mp hnil.symm).2, List.append_nil] at ht
              exact ht ▸ List.prefix_rfl
            · exact hwhole
          obtain ⟨t, rfl⟩ := hwhole
          have htaken := hstable (enc a) t (value a) [] hdec.1
          rw [hfirst, List.nil_append] at htaken
          obtain ⟨rfl, rfl⟩ := Prod.mk.inj (Option.some.inj htaken)
          rw [List.map_cons, List.cons_prefix_cons]
          exact ⟨rfl, ih hdec.2 ((List.prefix_append_right_inj _).mp hs)⟩
        · exact List.nil_prefix

end Framing
