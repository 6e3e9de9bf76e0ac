-- SUMMARY: Runs of a partial labelled transition function, and the rules that carry a property from one step to a run.
import Mathlib.Data.List.Basic

/-!
# Runs of a labelled transition function

A system is a function `step : σ → α → Option σ`: the label holds every choice
the environment makes (who moves, what a system call answers), `none` means
that the label is not possible in the state. A run is the list of its labels.

`Along P` says that every step of a run satisfies `P`, which speaks about the
state before the step and the label. It is how a run is restricted to the steps
a result is about, and how a property of steps is stated of a run.
-/

namespace Runs

variable {σ α : Type*} {step : σ → α → Option σ}

/-- Take the labels in order; `none` as soon as one is not possible. -/
def exec (step : σ → α → Option σ) : σ → List α → Option σ
  | s, [] => some s
  | s, a :: as => (step s a).bind fun s' => exec step s' as

@[simp] theorem exec_nil {s : σ} : exec step s [] = some s := rfl

@[simp] theorem exec_cons {s : σ} {a : α} {as : List α} :
    exec step s (a :: as) = (step s a).bind fun s' => exec step s' as := rfl

/-- Every step of the run satisfies `P`. -/
def Along (step : σ → α → Option σ) (P : σ → α → Prop) : σ → List α → Prop
  | _, [] => True
  | s, a :: as => P s a ∧ ∀ s', step s a = some s' → Along step P s' as

instance decidableAlong {P : σ → α → Prop} [∀ s a, Decidable (P s a)] (s : σ) :
    ∀ as : List α, Decidable (Along step P s as)
  | [] => .isTrue trivial
  | a :: as =>
    match hs : step s a with
    | none => decidable_of_iff (P s a) (by simp [Along, hs])
    | some s' =>
      have := decidableAlong (P := P) s' as
      decidable_of_iff (P s a ∧ Along step P s' as) (by simp [Along, hs])

/-- The induction rule of runs: what the first state satisfies and every step
    meeting `ok` preserves holds in the last state. -/
theorem exec_invariant {Inv : σ → Prop} {ok : σ → α → Prop}
    (hstep : ∀ s a s', Inv s → ok s a → step s a = some s' → Inv s') :
    ∀ {as : List α} {s t : σ}, Inv s → Along step ok s as → exec step s as = some t → Inv t := by
  intro as
  induction as with
  | nil =>
      intro s t hs _ h
      cases h
      exact hs
  | cons a as ih =>
      intro s t hs hok h
      obtain ⟨s', hs', h⟩ := Option.bind_eq_some_iff.mp h
      exact ih (hstep s a s' hs hok.1 hs') (hok.2 s' hs') h

/-- What every step preserves holds in the last state. -/
theorem exec_preserves {Inv : σ → Prop} (hstep : ∀ s a s', Inv s → step s a = some s' → Inv s')
    {as : List α} {s t : σ} (hs : Inv s) (h : exec step s as = some t) : Inv t := by
  induction as generalizing s with
  | nil =>
      cases h
      exact hs
  | cons a as ih =>
      obtain ⟨s', hs', h⟩ := Option.bind_eq_some_iff.mp h
      exact ih (hstep s a s' hs hs') h

/-- The progress rule: steps meeting `ok` are possible from the states of the
    invariant, and lead back there. -/
theorem exec_of_along {Inv : σ → Prop} {ok : σ → α → Prop}
    (hstep : ∀ s a, Inv s → ok s a → ∃ s', step s a = some s' ∧ Inv s') :
    ∀ {as : List α} {s : σ}, Inv s → Along step ok s as →
      ∃ t, exec step s as = some t ∧ Inv t := by
  intro as
  induction as with
  | nil =>
      intro s hs _
      exact ⟨s, rfl, hs⟩
  | cons a as ih =>
      intro s hs hok
      obtain ⟨s', hs', hinv⟩ := hstep s a hs hok.1
      obtain ⟨t, ht, htinv⟩ := ih hinv (hok.2 s' hs')
      refine ⟨t, ?_, htinv⟩
      rw [exec_cons, hs']
      exact ht

/-- A property of single steps that follows from an invariant holds along the
    whole run. -/
theorem along_of_invariant {Inv : σ → Prop} {ok P : σ → α → Prop}
    (hstep : ∀ s a s', Inv s → ok s a → step s a = some s' → Inv s')
    (hP : ∀ s a, Inv s → ok s a → P s a) :
    ∀ {as : List α} {s : σ}, Inv s → Along step ok s as → Along step P s as := by
  intro as
  induction as with
  | nil => intros; trivial
  | cons a as ih =>
      intro s hs hok
      exact ⟨hP s a hs hok.1, fun s' hs' => ih (hstep s a s' hs hok.1 hs') (hok.2 s' hs')⟩

/-- A property of single steps that follows from what every step preserves. -/
theorem along_of_preserves {Inv : σ → Prop} {P : σ → α → Prop}
    (hstep : ∀ s a s', Inv s → step s a = some s' → Inv s') (hP : ∀ s a, Inv s → P s a) :
    ∀ {as : List α} {s : σ}, Inv s → Along step P s as := by
  intro as
  induction as with
  | nil => intros; trivial
  | cons a as ih =>
      intro s hs
      exact ⟨hP s a hs, fun s' hs' => ih (hstep s a s' hs hs')⟩

/-- A property of the steps that are taken, in a run that is possible. -/
theorem along_of_exec {Inv : σ → Prop} {ok P : σ → α → Prop}
    (hstep : ∀ s a s', Inv s → ok s a → step s a = some s' → Inv s')
    (hP : ∀ s a s', Inv s → ok s a → step s a = some s' → P s a) :
    ∀ {as : List α} {s t : σ}, Inv s → Along step ok s as → exec step s as = some t →
      Along step P s as := by
  intro as
  induction as with
  | nil => intros; trivial
  | cons a as ih =>
      intro s t hs hok h
      obtain ⟨s', hs', h⟩ := Option.bind_eq_some_iff.mp h
      refine ⟨hP s a s' hs hok.1 hs', fun u hu => ?_⟩
      obtain rfl := Option.some.inj (hs'.symm.trans hu)
      exact ih (hstep s a s' hs hok.1 hs') (hok.2 s' hs') h

theorem Along.and {P Q : σ → α → Prop} :
    ∀ {as : List α} {s : σ}, Along step P s as → Along step Q s as →
      Along step (fun s a => P s a ∧ Q s a) s as := by
  intro as
  induction as with
  | nil => intros; trivial
  | cons a as ih =>
      intro s hP hQ
      exact ⟨⟨hP.1, hQ.1⟩, fun s' hs' => ih (hP.2 s' hs') (hQ.2 s' hs')⟩

/-- What holds of every step of a run holds of the step after any part of it. -/
theorem Along.at {P : σ → α → Prop} {as bs : List α} {a : α} {s t : σ}
    (h : Along step P s (as ++ a :: bs)) (hexec : exec step s as = some t) : P t a := by
  induction as generalizing s with
  | nil =>
      cases hexec
      exact h.1
  | cons b as ih =>
      obtain ⟨s', hs', hexec⟩ := Option.bind_eq_some_iff.mp hexec
      exact ih (h.2 s' hs') hexec

/-- A property of states that a step keeps, and gets back, exactly if the step meets
    `P`: it holds at the end of a run exactly if it held at first and every step met `P`. -/
theorem iff_along_of_exec {Inv Good : σ → Prop} {P : σ → α → Prop}
    (hstep : ∀ s a s', Inv s → step s a = some s' → Inv s' ∧ (Good s' ↔ Good s ∧ P s a)) :
    ∀ {as : List α} {s t : σ}, Inv s → exec step s as = some t →
      (Good t ↔ Good s ∧ Along step P s as) := by
  intro as
  induction as with
  | nil =>
      intro s t _ hexec
      cases hexec
      exact (and_iff_left trivial).symm
  | cons a as ih =>
      intro s t hinv hexec
      obtain ⟨s', hs', hexec⟩ := Option.bind_eq_some_iff.mp hexec
      obtain ⟨hinv', hgood⟩ := hstep s a s' hinv hs'
      have halong : Along step P s (a :: as) ↔ P s a ∧ Along step P s' as := by
        simp [Along, hs']
      rw [ih hinv' hexec, hgood, halong, and_assoc]

/-- Conditions that are the same in every state with an invariant are the same
    along a run. -/
theorem along_congr_of_preserves {Inv : σ → Prop} {P Q : σ → α → Prop}
    (hstep : ∀ s a s', Inv s → step s a = some s' → Inv s')
    (h : ∀ s a, Inv s → (P s a ↔ Q s a)) :
    ∀ {as : List α} {s : σ}, Inv s → (Along step P s as ↔ Along step Q s as) := by
  intro as
  induction as with
  | nil => intro s _; exact Iff.rfl
  | cons a as ih =>
      intro s hs
      exact and_congr (h s a hs) (forall_congr' fun s' => imp_congr_right fun hs' =>
        ih (hstep s a s' hs hs'))

/-- The same for the steps that are taken, in a run that is possible. -/
theorem along_congr_of_exec {Inv : σ → Prop} {P Q : σ → α → Prop}
    (hstep : ∀ s a s', Inv s → step s a = some s' → Inv s')
    (h : ∀ s a s', Inv s → step s a = some s' → (P s a ↔ Q s a)) :
    ∀ {as : List α} {s t : σ}, Inv s → exec step s as = some t →
      (Along step P s as ↔ Along step Q s as) := by
  intro as
  induction as with
  | nil => intro s t _ _; exact Iff.rfl
  | cons a as ih =>
      intro s t hs hexec
      obtain ⟨s', hs', hexec⟩ := Option.bind_eq_some_iff.mp hexec
      refine and_congr (h s a s' hs hs') (forall_congr' fun u => imp_congr_right fun hu => ?_)
      obtain rfl := Option.some.inj (hs'.symm.trans hu)
      exact ih (hstep s a s' hs hs') hexec

/-! ## States on the way -/

theorem exec_concat {s : σ} {as : List α} {a : α} :
    exec step s (as ++ [a]) = (exec step s as).bind fun t => step t a := by
  induction as generalizing s with
  | nil =>
      rw [List.nil_append, exec_cons, exec_nil, Option.bind_some]
      cases step s a <;> rfl
  | cons b as ih =>
      rw [List.cons_append, exec_cons, exec_cons, Option.bind_assoc]
      exact congrArg _ (funext fun t => ih)

theorem exec_append {s : σ} {as bs : List α} :
    exec step s (as ++ bs) = (exec step s as).bind fun t => exec step t bs := by
  induction as generalizing s with
  | nil => rfl
  | cons a as ih =>
      rw [List.cons_append, exec_cons, exec_cons, Option.bind_assoc]
      exact congrArg _ (funext fun t => ih)

/-- A state that the run goes through satisfies `P`, the first and the last one
    included. -/
def Visits (step : σ → α → Option σ) (s : σ) (as : List α) (P : σ → Prop) : Prop :=
  ∃ before t, before <+: as ∧ exec step s before = some t ∧ P t

theorem visits_nil {s : σ} {P : σ → Prop} : Visits step s [] P ↔ P s := by
  constructor
  · rintro ⟨before, t, hbefore, hexec, ht⟩
    rw [List.prefix_nil.mp hbefore] at hexec
    cases hexec
    exact ht
  · exact fun hs => ⟨[], s, List.prefix_rfl, rfl, hs⟩

/-- A run goes through its last state. -/
theorem visits_of_exec {s t : σ} {as : List α} {P : σ → Prop} (hexec : exec step s as = some t)
    (ht : P t) : Visits step s as P :=
  ⟨as, t, List.prefix_rfl, hexec, ht⟩

theorem visits_concat {s t u : σ} {as : List α} {a : α} {P : σ → Prop}
    (hexec : exec step s as = some t) (ha : step t a = some u) :
    Visits step s (as ++ [a]) P ↔ Visits step s as P ∨ P u := by
  have hlast : exec step s (as ++ [a]) = some u := by
    rw [exec_concat, hexec]
    exact ha
  constructor
  · rintro ⟨before, u, hbefore, hu, hP⟩
    rcases List.prefix_concat_iff.mp hbefore with rfl | hbefore
    · cases hlast.symm.trans hu
      exact .inr hP
    · exact .inl ⟨before, u, hbefore, hu, hP⟩
  · rintro (⟨before, u, hbefore, hu, hP⟩ | hP)
    · exact ⟨before, u, hbefore.trans (List.prefix_append as [a]), hu, hP⟩
    · exact visits_of_exec hlast hP

/-- The induction rule for what depends on the whole run up to a state. -/
theorem exec_induction {s : σ} (Inv : List α → σ → Prop) (hstart : Inv [] s)
    (hstep : ∀ as a t u, Inv as t → exec step s as = some t → step t a = some u →
      Inv (as ++ [a]) u) {as : List α} {t : σ} (h : exec step s as = some t) : Inv as t := by
  suffices hrev : ∀ rev : List α, ∀ t, exec step s rev.reverse = some t → Inv rev.reverse t by
    have hall := hrev as.reverse t
    rw [List.reverse_reverse] at hall
    exact hall h
  intro rev
  induction rev with
  | nil =>
      intro t h
      cases h
      exact hstart
  | cons a rev ih =>
      intro u hu
      rw [List.reverse_cons, exec_concat] at hu
      rw [List.reverse_cons]
      obtain ⟨t, ht, ha⟩ := Option.bind_eq_some_iff.mp hu
      exact hstep _ _ _ _ (ih t ht) ht ha

/-! ## Runs with their history -/

/-- The system that keeps the steps it has taken, the last one first, each with
    the state it was taken in. -/
def record (step : σ → α → Option σ) (s : σ × List (σ × α)) (a : α) :
    Option (σ × List (σ × α)) :=
  (step s.1 a).map fun s' => (s', (s.1, a) :: s.2)

theorem record_eq_some {s t : σ × List (σ × α)} {a : α} (h : record step s a = some t) :
    step s.1 a = some t.1 ∧ t.2 = (s.1, a) :: s.2 := by
  obtain ⟨s', hs', rfl⟩ := Option.map_eq_some_iff.mp h
  exact ⟨hs', rfl⟩

/-- Keeping the history does not change what the system does. -/
theorem exec_record {as : List α} {s : σ} {past : List (σ × α)} :
    (exec (record step) (s, past) as).map Prod.fst = exec step s as := by
  induction as generalizing s past with
  | nil => rfl
  | cons a as ih =>
      simp only [exec_cons, record]
      cases step s a with
      | none => rfl
      | some s' => exact ih

/-- What holds along a run holds of every step of its history. -/
theorem along_iff_record {P : σ → α → Prop} {as : List α} {s t : σ × List (σ × α)}
    (h : exec (record step) s as = some t) :
    (∀ x ∈ t.2, P x.1 x.2) ↔ (∀ x ∈ s.2, P x.1 x.2) ∧ Along step P s.1 as := by
  induction as generalizing s with
  | nil =>
      cases h
      exact (and_iff_left trivial).symm
  | cons a as ih =>
      obtain ⟨u, hu, h⟩ := Option.bind_eq_some_iff.mp h
      obtain ⟨hstep, hpast⟩ := record_eq_some hu
      have halong : Along step P s.1 (a :: as) ↔ P s.1 a ∧ Along step P u.1 as := by
        simp [Along, hstep]
      rw [ih h, hpast, halong, List.forall_mem_cons, and_assoc, and_left_comm]

/-- A condition on states and labels does not see the history. -/
theorem along_record {P : σ → α → Prop} {as : List α} {s : σ} {past : List (σ × α)} :
    Along (record step) (fun h a => P h.1 a) (s, past) as ↔ Along step P s as := by
  induction as generalizing s past with
  | nil => exact Iff.rfl
  | cons a as ih =>
      refine and_congr_right fun _ => ⟨fun h s' hs' => ?_, fun h t ht => ?_⟩
      · apply ih.mp (h (s', (s, a) :: past) _)
        rw [record, hs']
        rfl
      · obtain ⟨hs', hpast⟩ := record_eq_some ht
        exact ih.mpr (h t.1 hs')

end Runs
