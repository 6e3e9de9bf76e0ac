-- SUMMARY: Machines that read a byte stream in segments and report its elements piece by piece.
import Mathlib.Data.List.Basic

/-!
# Pieces

A machine reads bytes one at a time and reports what it finds: notices, and the
text of elements. It does not keep the text. While it is inside an element it
has a mark at the first byte, and the text from the mark on is reported when the
element ends or when the segment it was given ends, so an element is reported in
as many pieces as it has parts in different segments.

`scan` is the loop of such a machine over a segment. `Splits` says that a list of
reports differs from another one only in that elements are cut in pieces, and
`segment_append` that nothing else can depend on the segments: a segment that is
cut in two leaves the same state and gives the same reports up to cuts.
-/

namespace QGServer

namespace Pieces

variable {σ κ ν π : Type*}

/-! ## Reports -/

/-- What a machine does while it looks at a byte. `π` is what a report shows of
    the machine. -/
inductive Action (κ ν π : Type*) where
  /-- Mark the byte as the first one of an element of kind `k`, unless there is a mark. -/
  | mark (k : κ)
  /-- Report the text before the byte, if there is a mark. -/
  | data (k : κ) (p : π)
  /-- Report the text up to and with the byte, if there is a mark. -/
  | dataTo (k : κ) (p : π)
  | notify (n : ν) (p : π)

/-- A report. -/
inductive Event (κ ν π : Type*) where
  | data (k : κ) (p : π) (text : List UInt8)
  | notify (n : ν) (p : π)

/-- How a machine goes on after a byte. -/
inductive Next where
  | more
  /-- It has used the byte and does not want any other. -/
  | exit
  /-- It does not accept the byte. -/
  | error
  deriving DecidableEq, Repr

structure Outcome (σ κ ν π : Type*) where
  state : σ
  actions : List (Action κ ν π)
  next : Next

/-- The marked text. There is at most one mark at a time. -/
abbrev Marked (κ : Type*) := Option (κ × List UInt8)

/-- Carry out an action on a byte: the mark it leaves and what it reports. A
    marked text does not hold the byte yet. -/
def act (b : UInt8) (marked : Marked κ) : Action κ ν π → Marked κ × List (Event κ ν π)
  | .mark k => (if marked.isSome then marked else some (k, []), [])
  | .data k p =>
    match marked with
    | some (_, text) => (none, [.data k p text])
    | none => (none, [])
  | .dataTo k p =>
    match marked with
    | some (_, text) => (none, [.data k p (text ++ [b])])
    | none => (none, [])
  | .notify n p => (marked, [.notify n p])

def acts (b : UInt8) : Marked κ → List (Action κ ν π) → Marked κ × List (Event κ ν π)
  | marked, [] => (marked, [])
  | marked, a :: as =>
    let r := act b marked a
    let rest := acts b r.1 as
    (rest.1, r.2 ++ rest.2)

theorem acts_append (b : UInt8) (marked : Marked κ) (as as' : List (Action κ ν π)) :
    (acts b marked (as ++ as')).2 = (acts b marked as).2 ++ (acts b (acts b marked as).1 as').2 := by
  induction as generalizing marked with
  | nil => rfl
  | cons a as ih => simp only [List.cons_append, acts, ih, List.append_assoc]

/-- Every report comes from an action. -/
theorem mem_acts {b : UInt8} {marked : Marked κ} {as : List (Action κ ν π)} {e : Event κ ν π}
    (h : e ∈ (acts b marked as).2) :
    (∃ k p text, e = .data k p text ∧ (.data k p ∈ as ∨ .dataTo k p ∈ as)) ∨
      ∃ n p, e = .notify n p ∧ .notify n p ∈ as := by
  induction as generalizing marked with
  | nil => cases h
  | cons a as ih =>
      rcases List.mem_append.mp h with h | h
      · cases a with
        | mark k => cases h
        | notify n p =>
            rw [List.mem_singleton.mp h]
            exact .inr ⟨n, p, rfl, List.mem_cons_self⟩
        | data k p =>
            cases marked with
            | none => cases h
            | some m =>
                rw [List.mem_singleton.mp h]
                exact .inl ⟨k, p, m.2, rfl, .inl List.mem_cons_self⟩
        | dataTo k p =>
            cases marked with
            | none => cases h
            | some m =>
                rw [List.mem_singleton.mp h]
                exact .inl ⟨k, p, m.2 ++ [b], rfl, .inr List.mem_cons_self⟩
      · rcases ih h with ⟨k, p, text, rfl, hmem⟩ | ⟨n, p, rfl, hmem⟩
        · exact .inl ⟨k, p, text, rfl, hmem.imp (List.mem_cons_of_mem _) (List.mem_cons_of_mem _)⟩
        · exact .inr ⟨n, p, rfl, List.mem_cons_of_mem _ hmem⟩

/-- The byte becomes part of the marked text. -/
def extend (b : UInt8) (marked : Marked κ) : Marked κ := marked.map fun (k, text) => (k, text ++ [b])

/-! ## The loop -/

/-- Where a machine is after a segment or a part of one. -/
structure Scan (σ κ ν π : Type*) where
  state : σ
  marked : Marked κ
  events : List (Event κ ν π)
  /-- The bytes it has used. -/
  count : Nat
  next : Next

def scan (step : σ → UInt8 → Outcome σ κ ν π) : σ → Marked κ → List UInt8 → Scan σ κ ν π
  | s, marked, [] => ⟨s, marked, [], 0, .more⟩
  | s, marked, b :: bs =>
    let o := step s b
    let r := acts b marked o.actions
    match o.next with
    | .more =>
      let rest := scan step o.state (extend b r.1) bs
      { rest with events := r.2 ++ rest.events, count := rest.count + 1 }
    | .exit => ⟨o.state, none, r.2, 1, .exit⟩
    | .error => ⟨o.state, none, r.2, 0, .error⟩

section Scan

variable {step : σ → UInt8 → Outcome σ κ ν π} {s : σ} {marked : Marked κ} {b : UInt8}
  {bs : List UInt8}

@[simp] theorem scan_nil : scan step s marked [] = ⟨s, marked, [], 0, .more⟩ := rfl

theorem scan_more (h : (step s b).next = .more) :
    scan step s marked (b :: bs) =
      let r := acts b marked (step s b).actions
      let rest := scan step (step s b).state (extend b r.1) bs
      { rest with events := r.2 ++ rest.events, count := rest.count + 1 } := by
  rw [scan]
  simp only [h]

theorem scan_exit (h : (step s b).next = .exit) :
    scan step s marked (b :: bs) =
      ⟨(step s b).state, none, (acts b marked (step s b).actions).2, 1, .exit⟩ := by
  rw [scan]
  simp only [h]

theorem scan_error (h : (step s b).next = .error) :
    scan step s marked (b :: bs) =
      ⟨(step s b).state, none, (acts b marked (step s b).actions).2, 0, .error⟩ := by
  rw [scan]
  simp only [h]

theorem scan_accepted (h : (scan step s marked (b :: bs)).next ≠ .error) :
    (step s b).next ≠ .error := by
  intro herror
  rw [scan_error herror] at h
  exact h rfl

theorem scan_count_le : (scan step s marked bs).count ≤ bs.length := by
  induction bs generalizing s marked with
  | nil => exact Nat.le_refl 0
  | cons b bs ih =>
      cases h : (step s b).next with
      | more =>
          rw [scan_more h]
          exact Nat.succ_le_succ ih
      | exit =>
          rw [scan_exit h]
          exact Nat.succ_le_succ (Nat.zero_le _)
      | error =>
          rw [scan_error h]
          exact Nat.zero_le _

/-- A byte that is not accepted is not used. -/
theorem scan_count_lt (h : (scan step s marked bs).next = .error) :
    (scan step s marked bs).count < bs.length := by
  induction bs generalizing s marked with
  | nil => cases h
  | cons b bs ih =>
      cases hb : (step s b).next with
      | more =>
          rw [scan_more hb] at h ⊢
          exact Nat.succ_lt_succ (ih h)
      | exit =>
          rw [scan_exit hb] at h
          cases h
      | error =>
          rw [scan_error hb]
          exact Nat.succ_pos _

/-- A machine that goes on has used every byte. -/
theorem scan_count (h : (scan step s marked bs).next = .more) :
    (scan step s marked bs).count = bs.length := by
  induction bs generalizing s marked with
  | nil => rfl
  | cons b bs ih =>
      cases hb : (step s b).next with
      | more =>
          rw [scan_more hb] at h ⊢
          exact congrArg Nat.succ (ih h)
      | exit =>
          rw [scan_exit hb] at h
          cases h
      | error =>
          rw [scan_error hb] at h
          cases h

theorem scan_append {xs ys : List UInt8} (h : (scan step s marked xs).next = .more) :
    scan step s marked (xs ++ ys) =
      let r := scan step s marked xs
      let rest := scan step r.state r.marked ys
      { rest with events := r.events ++ rest.events, count := r.count + rest.count } := by
  induction xs generalizing s marked with
  | nil => simp
  | cons b xs ih =>
      cases hb : (step s b).next with
      | more =>
          rw [List.cons_append, scan_more hb, scan_more hb]
          rw [scan_more hb] at h
          simp only [ih h, List.append_assoc, Nat.add_right_comm]
      | exit =>
          rw [scan_exit hb] at h
          cases h
      | error =>
          rw [scan_error hb] at h
          cases h

/-- A machine that stops in the first part of a segment does not see the second. -/
theorem scan_stop {xs ys : List UInt8} (h : (scan step s marked xs).next ≠ .more) :
    scan step s marked (xs ++ ys) = scan step s marked xs := by
  induction xs generalizing s marked with
  | nil => exact absurd rfl h
  | cons b xs ih =>
      cases hb : (step s b).next with
      | more =>
          rw [scan_more hb] at h
          rw [List.cons_append, scan_more hb, scan_more hb]
          dsimp only
          rw [ih h]
      | exit => rw [List.cons_append, scan_exit hb, scan_exit hb]
      | error => rw [List.cons_append, scan_error hb, scan_error hb]

end Scan

/-- The report of the text that is left at the end of a segment. -/
def leftover (marked : Marked κ) (p : π) : List (Event κ ν π) :=
  match marked with
  | some (k, text) => [.data k p text]
  | none => []

/-- A machine, what its reports show of a state, and the element in which it sets
    a mark at the start of a segment. -/
structure Machine (σ κ ν π : Type*) where
  step : σ → UInt8 → Outcome σ κ ν π
  shown : σ → π
  resume : σ → Option κ

namespace Machine

variable (M : Machine σ κ ν π)

/-- Read a segment from the start. -/
def segment (s : σ) (bs : List UInt8) : Scan σ κ ν π :=
  scan M.step s ((M.resume s).map fun k => (k, [])) bs

/-- The reports of a part of a segment that is its last one. -/
def reports (r : Scan σ κ ν π) : List (Event κ ν π) :=
  match r.next with
  | .more => r.events ++ leftover r.marked (M.shown r.state)
  | _ => r.events

/-- The machine uses up the segment. -/
def Uses (s : σ) (bs : List UInt8) : Prop :=
  (M.segment s bs).next ≠ .error ∧ (M.segment s bs).count = bs.length

/-- Read segments one after another. -/
def feed (s : σ) : List (List UInt8) → σ × List (Event κ ν π)
  | [] => (s, [])
  | bs :: segments =>
    let r := M.segment s bs
    let rest := feed r.state segments
    (rest.1, M.reports r ++ rest.2)

/-- The machine uses up every segment. -/
def UsesAll (s : σ) : List (List UInt8) → Prop
  | [] => True
  | bs :: segments => M.Uses s bs ∧ UsesAll (M.segment s bs).state segments

end Machine

/-! ## Cuts -/

section Splits

variable {part : κ → π → π → Prop} {es es' es'' : List (Event κ ν π)}

/-- The second list reports the same as the first one, with elements cut in
    pieces. `part k q p` allows a piece that shows `q` to come before the last
    piece, which shows `p`. A last piece may come early, and show what was there
    then. -/
inductive Splits (part : κ → π → π → Prop) : List (Event κ ν π) → List (Event κ ν π) → Prop where
  | nil : Splits part [] []
  | cons {es es' : List (Event κ ν π)} (e : Event κ ν π) (h : Splits part es es') :
      Splits part (e :: es) (e :: es')
  | split {es es' : List (Event κ ν π)} {k : κ} {p q : π} {a b : List UInt8} (hq : part k q p)
      (h : Splits part (.data k p b :: es) es') :
      Splits part (.data k p (a ++ b) :: es) (.data k q a :: es')
  | early {es es' : List (Event κ ν π)} {k : κ} {p q : π} {a : List UInt8} (hq : part k q p)
      (hp : part k p q) (h : Splits part es es') :
      Splits part (.data k p a :: es) (.data k q a :: es')

namespace Splits

protected theorem refl : ∀ es : List (Event κ ν π), Splits part es es
  | [] => .nil
  | e :: es => .cons e (.refl es)

theorem append_left (as : List (Event κ ν π)) (h : Splits part es es') :
    Splits part (as ++ es) (as ++ es') := by
  induction as with
  | nil => exact h
  | cons a as ih => exact .cons a ih

/-- Cutting the pieces again. -/
protected theorem trans (htrans : ∀ {k : κ} {p q r : π}, part k p q → part k q r → part k p r)
    (h : Splits part es es') (h' : Splits part es' es'') : Splits part es es'' := by
  induction h' generalizing es with
  | nil => exact h
  | cons e h' ih =>
      cases h with
      | cons _ h => exact .cons e (ih h)
      | split hq h => exact .split hq (ih h)
      | early hq hp h => exact .early hq hp (ih h)
  | split hq h' ih =>
      cases h with
      | cons _ h => exact .split hq (ih (.cons _ h))
      | split hq' h =>
          rw [List.append_assoc]
          exact .split (htrans hq hq') (ih (.split hq' h))
      | early hq' hp' h => exact .split (htrans hq hq') (ih (.early hq' hp' h))
  | early hq hp h' ih =>
      cases h with
      | cons _ h => exact .early hq hp (ih h)
      | split hq' h => exact .split (htrans hq hq') (ih h)
      | early hq' hp' h => exact .early (htrans hq hq') (htrans hp' hp) (ih h)

end Splits

end Splits

/-! ## Machines that can be stopped anywhere -/

/-- What a byte that is not refused does inside an element of kind `k`. -/
inductive Inside (M : Machine σ κ ν π) (element : σ → Option κ) (part : κ → π → π → Prop) (s : σ)
    (k : κ) (o : Outcome σ κ ν π) : Prop where
  /-- It is part of the element. A machine that sets no mark at the start of a
      segment sets one here. -/
  | stay (hnext : o.next = .more) (hstate : element o.state = some k)
      (hactions : o.actions = [.mark k] ∨ o.actions = [] ∧ M.resume s = some k)
      (hpart : ∀ q, part k q (M.shown s) → part k q (M.shown o.state))
  /-- It is the first one behind the element. -/
  | behind (p : π) (rest : List (Action κ ν π)) (hactions : o.actions = .data k p :: rest)
      (hpart : ∀ q, part k q (M.shown s) → part k q p)
      (hearly : M.resume s = none → part k p (M.shown s))
  /-- It is the last one of the element. -/
  | last (p : π) (rest : List (Action κ ν π)) (hactions : o.actions = .mark k :: .dataTo k p :: rest)
      (hpart : ∀ q, part k q (M.shown s) → part k q p)

/-- The mark fits the state: it is there wherever a segment would begin with one. -/
structure Fits (M : Machine σ κ ν π) (element : σ → Option κ) (s : σ) (marked : Marked κ) : Prop where
  element : ∀ {k : κ} {text : List UInt8}, marked = some (k, text) → element s = some k
  resume : ∀ {k : κ}, M.resume s = some k → ∃ text, marked = some (k, text)

/-- The reports of a machine do not depend on the segments it is given, up to cuts. -/
structure Tidy (M : Machine σ κ ν π) (element : σ → Option κ) (part : κ → π → π → Prop) : Prop where
  refl : ∀ {s : σ} {k : κ}, element s = some k → part k (M.shown s) (M.shown s)
  trans : ∀ {k : κ} {p q r : π}, part k p q → part k q r → part k p r
  resume : ∀ {s : σ} {k : κ}, M.resume s = some k → element s = some k
  inside : ∀ {s : σ} {k : κ} (b : UInt8), element s = some k → (M.step s b).next ≠ .error →
    Inside M element part s k (M.step s b)
  fits : ∀ {s : σ} {marked : Marked κ} (b : UInt8), Fits M element s marked →
    (M.step s b).next = .more →
      Fits M element (M.step s b).state (extend b (acts b marked (M.step s b).actions).1)

/-- The marks of two machines in one state, of which the second one was stopped
    and has reported `pre` of the element that both are in. -/
inductive Linked (M : Machine σ κ ν π) (element : σ → Option κ) (part : κ → π → π → Prop) (s : σ) :
    Marked κ → Marked κ → List (Event κ ν π) → Prop where
  | same (marked : Marked κ) : Linked M element part s marked marked []
  | within (k : κ) (q : π) (a t : List UInt8) (hs : element s = some k)
      (hq : part k q (M.shown s)) :
      Linked M element part s (some (k, a ++ t)) (some (k, t)) [.data k q a]
  | stopped (k : κ) (a : List UInt8) (hs : element s = some k) (hresume : M.resume s = none) :
      Linked M element part s (some (k, a)) none [.data k (M.shown s) a]

section Tidy

variable {M : Machine σ κ ν π} {element : σ → Option κ} {part : κ → π → π → Prop}

/-- What one byte keeps of two linked machines: either they stay linked and
    report nothing, or the reports are the same up to cuts and so are the marks. -/
theorem Tidy.step (hM : Tidy M element part) {s : σ} {m m' : Marked κ} {pre : List (Event κ ν π)}
    (b : UInt8) (hlink : Linked M element part s m m' pre) (hnext : (M.step s b).next ≠ .error) :
    let o := M.step s b
    let r := acts b m o.actions
    let r' := acts b m' o.actions
    (o.next = .more ∧ r.2 = [] ∧ r'.2 = [] ∧
        Linked M element part o.state (extend b r.1) (extend b r'.1) pre) ∨
      (r'.1 = r.1 ∧ ∀ {es es'}, Splits part es es' → Splits part (r.2 ++ es) (pre ++ r'.2 ++ es')) := by
  cases hlink with
  | same => exact .inr ⟨rfl, fun h => h.append_left _⟩
  | within k q a t hs hq =>
      cases hM.inside b hs hnext with
      | stay hmore hstate hactions hpart =>
          refine .inl ⟨hmore, ?_⟩
          have hlinked := Linked.within (M := M) k q a (t ++ [b]) hstate (hpart _ hq)
          rcases hactions with hactions | ⟨hactions, -⟩
          all_goals
            rw [hactions]
            refine ⟨rfl, rfl, ?_⟩
            simpa [acts, act, extend] using hlinked
      | behind p rest hactions hpart hearly =>
          refine .inr ?_
          rw [hactions]
          refine ⟨rfl, fun h => ?_⟩
          simp only [acts, act, List.cons_append, List.nil_append]
          exact .split (hpart _ hq) (.cons _ (h.append_left _))
      | last p rest hactions hpart =>
          refine .inr ?_
          rw [hactions]
          refine ⟨rfl, fun h => ?_⟩
          simp only [acts, act, Option.isSome_some, if_true, List.cons_append, List.nil_append,
            List.append_assoc]
          exact .split (hpart _ hq) (.cons _ (h.append_left _))
  | stopped k a hs hresume =>
      cases hM.inside b hs hnext with
      | stay hmore hstate hactions hpart =>
          refine .inl ⟨hmore, ?_⟩
          rcases hactions with hactions | ⟨-, hcontra⟩
          · rw [hactions]
            exact ⟨rfl, rfl, .within k _ a [b] hstate (hpart _ (hM.refl hs))⟩
          · rw [hresume] at hcontra
            cases hcontra
      | behind p rest hactions hpart hearly =>
          refine .inr ?_
          rw [hactions]
          refine ⟨rfl, fun h => ?_⟩
          simp only [acts, act, List.cons_append, List.nil_append]
          exact .early (hpart _ (hM.refl hs)) (hearly hresume) (h.append_left _)
      | last p rest hactions hpart =>
          refine .inr ?_
          rw [hactions]
          refine ⟨rfl, fun h => ?_⟩
          simp only [acts, act, Option.isSome_some, Option.isSome_none, Bool.false_eq_true, if_true,
            if_false, List.cons_append, List.nil_append]
          exact .split (hpart _ (hM.refl hs)) (.cons _ (h.append_left _))

theorem reports_cons {r : Scan σ κ ν π} {es : List (Event κ ν π)} {n : Nat} :
    M.reports { r with events := es ++ r.events, count := n } = es ++ M.reports r := by
  unfold Machine.reports
  split <;> simp_all

theorem mem_reports {r : Scan σ κ ν π} {e : Event κ ν π} (h : e ∈ r.events) : e ∈ M.reports r := by
  unfold Machine.reports
  split
  · exact List.mem_append_left _ h
  · exact h

theorem reports_more {r : Scan σ κ ν π} (h : r.next = .more) :
    M.reports r = r.events ++ leftover r.marked (M.shown r.state) := by
  unfold Machine.reports
  rw [h]

/-- Linked machines end in the same state, and what the second one has reported
    and goes on to report is what the first one does, up to cuts. -/
theorem Tidy.scan (hM : Tidy M element part) {s : σ} {m m' : Marked κ} {pre : List (Event κ ν π)}
    {bs : List UInt8} (hlink : Linked M element part s m m' pre)
    (hnext : (scan M.step s m bs).next ≠ .error) :
    let r := Pieces.scan M.step s m bs
    let r' := Pieces.scan M.step s m' bs
    r'.state = r.state ∧ r'.count = r.count ∧ r'.next = r.next ∧
      Splits part (M.reports r) (pre ++ M.reports r') := by
  induction bs generalizing s m m' pre with
  | nil =>
      refine ⟨rfl, rfl, rfl, ?_⟩
      cases hlink with
      | same => exact .refl _
      | within k q a t hs hq => exact .split hq (.refl _)
      | stopped k a hs hresume => exact .refl _
  | cons b bs ih =>
      cases hb : (M.step s b).next with
      | error =>
          rw [scan_error hb] at hnext
          exact absurd rfl hnext
      | more =>
          have hstep := hM.step b hlink (by rw [hb]; simp)
          rw [scan_more hb] at hnext ⊢
          rw [scan_more hb]
          simp only [reports_cons]
          rcases hstep with ⟨-, hr, hr', hlink⟩ | ⟨hmark, hsplits⟩
          · obtain ⟨hstate, hcount, hsame, hsplits⟩ := ih hlink hnext
            refine ⟨hstate, congrArg Nat.succ hcount, hsame, ?_⟩
            rw [hr, hr', List.nil_append, List.nil_append]
            exact hsplits
          · rw [hmark]
            refine ⟨rfl, rfl, rfl, ?_⟩
            rw [← List.append_assoc]
            exact hsplits (.refl _)
      | exit =>
          have hstep := hM.step b hlink (by rw [hb]; simp)
          rw [scan_exit hb, scan_exit hb]
          refine ⟨rfl, rfl, rfl, ?_⟩
          rcases hstep with ⟨hmore, -⟩ | ⟨-, hsplits⟩
          · rw [hb] at hmore
            cases hmore
          · simpa [Machine.reports] using hsplits (.refl [])

/-- The marks of a machine fit its states. -/
theorem Tidy.fits_scan (hM : Tidy M element part) {s : σ} {m : Marked κ} {bs : List UInt8}
    (hfits : Fits M element s m) (hnext : (Pieces.scan M.step s m bs).next = .more) :
    Fits M element (Pieces.scan M.step s m bs).state (Pieces.scan M.step s m bs).marked := by
  induction bs generalizing s m with
  | nil => exact hfits
  | cons b bs ih =>
      cases hb : (M.step s b).next with
      | more =>
          rw [scan_more hb] at hnext ⊢
          exact ih (hM.fits b hfits hb) hnext
      | exit =>
          rw [scan_exit hb] at hnext
          cases hnext
      | error =>
          rw [scan_error hb] at hnext
          cases hnext

/-- A machine that is stopped at the end of a segment is linked to one that is not. -/
theorem linked_of_fits (hM : Tidy M element part) {s : σ} {m : Marked κ}
    (hfits : Fits M element s m) :
    Linked M element part s m ((M.resume s).map fun k => (k, [])) (leftover m (M.shown s)) := by
  cases hm : m with
  | none =>
      cases hr : M.resume s with
      | none => exact .same none
      | some k =>
          obtain ⟨text, htext⟩ := hfits.resume hr
          rw [hm] at htext
          cases htext
  | some marked =>
      obtain ⟨k, text⟩ := marked
      have hs := hfits.element hm
      cases hr : M.resume s with
      | none => exact .stopped k text hs hr
      | some k' =>
          obtain ⟨text', htext⟩ := hfits.resume hr
          rw [hm] at htext
          cases htext
          simpa [leftover] using Linked.within (M := M) k _ text [] hs (hM.refl hs)

theorem fits_segment (hM : Tidy M element part) (s : σ) :
    Fits M element s ((M.resume s).map fun k => (k, [])) := by
  refine ⟨fun h => ?_, fun h => ⟨[], by rw [h]; rfl⟩⟩
  obtain ⟨k', hk', heq⟩ := Option.map_eq_some_iff.mp h
  cases heq
  exact hM.resume hk'

/-- Cutting a segment in two: the first part is used up, and the second part
    ends as the segment does, with the same reports up to cuts. -/
theorem Tidy.segment_append (hM : Tidy M element part) {s : σ} {xs ys : List UInt8} (hys : ys ≠ [])
    (huses : M.Uses s (xs ++ ys)) :
    let r := M.segment s xs
    let r' := M.segment r.state ys
    r.next = .more ∧ M.Uses r.state ys ∧ r'.state = (M.segment s (xs ++ ys)).state ∧
      Splits part (M.reports (M.segment s (xs ++ ys))) (M.reports r ++ M.reports r') := by
  obtain ⟨hnext, hcount⟩ := huses
  have hmore : (M.segment s xs).next = .more := by
    by_contra hstop
    unfold Machine.segment at hcount hstop
    have hle : (Pieces.scan M.step s ((M.resume s).map fun k => (k, [])) xs).count ≤ xs.length :=
      scan_count_le
    have hpos : 0 < ys.length := List.length_pos_iff.mpr hys
    rw [scan_stop hstop, List.length_append] at hcount
    omega
  unfold Machine.Uses
  unfold Machine.segment at hmore hnext hcount ⊢
  rw [scan_append hmore] at hnext hcount ⊢
  have hfits := hM.fits_scan (fits_segment hM s) hmore
  obtain ⟨hstate, hused, hsame, hsplits⟩ := hM.scan (linked_of_fits hM hfits) hnext
  refine ⟨hmore, ⟨?_, ?_⟩, hstate, ?_⟩
  · rw [hsame]
    exact hnext
  · rw [hused]
    simp only [List.length_append, scan_count hmore] at hcount
    omega
  · rw [reports_cons, reports_more hmore, List.append_assoc]
    exact hsplits.append_left _

/-- However a segment is cut, the machine uses up the parts and ends in the same
    state, with the same reports up to cuts. -/
theorem Tidy.feed (hM : Tidy M element part) {s : σ} {bs : List UInt8} {segments : List (List UInt8)}
    (hsegments : ∀ xs ∈ segments, xs ≠ []) (huses : M.Uses s (bs ++ segments.flatten)) :
    M.UsesAll s (bs :: segments) ∧
      (M.feed s (bs :: segments)).1 = (M.segment s (bs ++ segments.flatten)).state ∧
      Splits part (M.reports (M.segment s (bs ++ segments.flatten)))
        (M.feed s (bs :: segments)).2 := by
  induction segments generalizing s bs with
  | nil =>
      simp only [List.flatten_nil, List.append_nil] at huses ⊢
      simpa [Machine.UsesAll, Machine.feed, huses] using Splits.refl _
  | cons xs segments ih =>
      have hys : (xs :: segments).flatten ≠ [] := by
        simp [hsegments xs List.mem_cons_self]
      obtain ⟨hmore, hrest, hstate, hsplits⟩ := hM.segment_append hys huses
      obtain ⟨hall, hend, hcuts⟩ := ih (fun ys h => hsegments ys (List.mem_cons_of_mem _ h)) hrest
      refine ⟨⟨⟨by rw [hmore]; simp, scan_count hmore⟩, hall⟩, hend.trans hstate, ?_⟩
      exact hsplits.trans hM.trans (hcuts.append_left _)

end Tidy

end Pieces

end QGServer
