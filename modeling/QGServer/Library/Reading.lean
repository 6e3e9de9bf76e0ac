-- SUMMARY: Rules for what a machine makes of a text that is put together from parts, and reports with the cuts taken out.
import QGServer.Library.Pieces

/-!
# Reading

`Reads` is what a machine makes of a text: where it is behind it and what it has
reported. The rules put the reading of a text together from that of its parts,
down to single bytes.

A `Report` is a report without most of what it shows of the machine. Cut elements
are put together again by `joined`, so the joined reports of a text do not depend
on the segments it comes in (`Splits.joined_eq`).
-/

namespace QGServer

namespace Pieces

variable {σ κ ν π δ τ ρ : Type*}

/-! ## Reports without cuts -/

/-- What a report tells: `δ` is what is kept of the kind of an element, `τ` of a notice. -/
inductive Report (δ τ : Type*) where
  | data (d : δ) (text : List UInt8)
  | notice (t : τ)
  deriving DecidableEq, Repr

def Event.report (g : κ → π → δ) (f : ν → π → τ) : Event κ ν π → Report δ τ
  | .data k p text => .data (g k p) text
  | .notify n p => .notice (f n p)

section Joined

variable [DecidableEq δ]

/-- Put a report in front; it becomes one with a piece of the same element. -/
def Report.glue : Report δ τ → List (Report δ τ) → List (Report δ τ)
  | .data d text, .data d' text' :: rs =>
    if d = d' then .data d (text ++ text') :: rs else .data d text :: .data d' text' :: rs
  | r, rs => r :: rs

/-- The reports with adjacent pieces put together. -/
def joined (rs : List (Report δ τ)) : List (Report δ τ) := rs.foldr Report.glue []

theorem joined_cons (r : Report δ τ) (rs : List (Report δ τ)) :
    joined (r :: rs) = r.glue (joined rs) := rfl

theorem Report.glue_glue (d : δ) (a b : List UInt8) (rs : List (Report δ τ)) :
    (Report.data d a).glue ((Report.data d b).glue rs) = (Report.data d (a ++ b)).glue rs := by
  cases rs with
  | nil => simp [glue]
  | cons r rs =>
      cases r with
      | notice t => simp [glue]
      | data d' text =>
          by_cases hd : d = d'
          · subst hd
            simp [glue]
          · simp [glue, hd]

/-- Cuts do not change the joined reports, if the pieces of an element show the same of
    its kind. -/
theorem Splits.joined_eq {part : κ → π → π → Prop} {es es' : List (Event κ ν π)} {g : κ → π → δ}
    (f : ν → π → τ) (hpart : ∀ {k p q}, part k q p → g k q = g k p) (h : Splits part es es') :
    joined (es'.map (Event.report g f)) = joined (es.map (Event.report g f)) := by
  induction h with
  | nil => rfl
  | cons e h ih =>
      rw [List.map_cons, List.map_cons, joined_cons, joined_cons, ih]
  | split hq h ih =>
      rw [List.map_cons, joined_cons, ih, List.map_cons, joined_cons, List.map_cons, joined_cons]
      simp only [Event.report, hpart hq]
      exact Report.glue_glue _ _ _ _
  | early hq hp h ih =>
      rw [List.map_cons, List.map_cons, joined_cons, joined_cons, ih]
      simp only [Event.report, hpart hq]

/-- The second report does not go on with the element of the first one. -/
def Report.Apart : Report δ τ → Report δ τ → Prop
  | .data d _, .data d' _ => d ≠ d'
  | _, _ => True

theorem Report.glue_apart {r r' : Report δ τ} (h : r.Apart r') (rs : List (Report δ τ)) :
    r.glue (r' :: rs) = r :: r' :: rs := by
  cases r with
  | notice t => rfl
  | data d text =>
      cases r' with
      | notice t => rfl
      | data d' text' => exact if_neg h

/-- Where no report goes on with the element before it, nothing is joined. -/
theorem joined_of_isChain {rs : List (Report δ τ)} (h : rs.IsChain Report.Apart) :
    joined rs = rs := by
  induction rs with
  | nil => rfl
  | cons r rs ih =>
      cases rs with
      | nil =>
          cases r <;> rfl
      | cons r' rs =>
          rw [List.isChain_cons_cons] at h
          rw [joined_cons, ih h.2]
          exact Report.glue_apart h.1 rs

end Joined

/-! ## Reading -/

/-- From `s` with the mark `m` the machine uses up `bs` and reports `es`, and it
    goes on from `s'` with the mark `m'`. -/
def Reads (step : σ → UInt8 → Outcome σ κ ν π) (s : σ) (m : Marked κ) (bs : List UInt8)
    (es : List (Event κ ν π)) (s' : σ) (m' : Marked κ) : Prop :=
  scan step s m bs = ⟨s', m', es, bs.length, .more⟩

section Reads

variable {step : σ → UInt8 → Outcome σ κ ν π} {s s' s'' : σ} {m m' m'' : Marked κ}
  {bs bs' : List UInt8} {es es' : List (Event κ ν π)} {b : UInt8}

namespace Reads

protected theorem nil : Reads step s m [] [] s m := rfl

theorem next (h : Reads step s m bs es s' m') : (scan step s m bs).next = .more := by
  rw [show scan step s m bs = _ from h]

theorem append (h : Reads step s m bs es s' m') (h' : Reads step s' m' bs' es' s'' m'') :
    Reads step s m (bs ++ bs') (es ++ es') s'' m'' := by
  have hscan : scan step s m bs = ⟨s', m', es, bs.length, .more⟩ := h
  have hscan' : scan step s' m' bs' = ⟨s'', m'', es', bs'.length, .more⟩ := h'
  unfold Reads
  rw [scan_append h.next, hscan]
  dsimp only
  rw [hscan', List.length_append]

/-- One byte. -/
theorem byte (hnext : (step s b).next = .more) (hstate : (step s b).state = s')
    (hacts : acts b m (step s b).actions = (m', es)) :
    Reads step s m [b] es s' (extend b m') := by
  unfold Reads
  rw [scan_more hnext, hacts, hstate]
  simp

/-- A byte that does nothing outside of elements. -/
theorem quiet (hstep : step s b = ⟨s', [], .more⟩) : Reads step s none [b] [] s' none := by
  have hacts : acts b (none : Marked κ) (step s b).actions = (none, []) := by
    rw [hstep]
    rfl
  exact byte (by rw [hstep]) (by rw [hstep]) hacts

/-- The loop rule for the bytes inside an element: `f` is what a byte makes of
    the state, and `Inv` speaks of the bytes that are still to come. -/
theorem element {k : κ} (f : σ → UInt8 → σ) (Inv : List UInt8 → σ → Prop)
    (hstep : ∀ s b bs, Inv (b :: bs) s → (step s b).state = f s b ∧ (step s b).next = .more ∧
      ((step s b).actions = [] ∨ (step s b).actions = [.mark k]) ∧ Inv bs (f s b))
    (text : List UInt8) (h : Inv bs s) :
    Reads step s (some (k, text)) bs [] (bs.foldl f s) (some (k, text ++ bs)) := by
  induction bs generalizing s text with
  | nil =>
      rw [List.append_nil]
      exact .nil
  | cons b bs ih =>
      obtain ⟨hstate, hnext, hactions, hrest⟩ := hstep s b bs h
      have hacts : acts b (some (k, text)) (step s b).actions = (some (k, text), []) := by
        rcases hactions with hactions | hactions <;> rw [hactions] <;> rfl
      have hbyte := byte hnext hstate hacts
      have happend := hbyte.append (ih (text ++ [b]) hrest)
      rw [List.append_assoc] at happend
      exact happend

/-- The same for an element whose first byte sets the mark. -/
theorem marked {k : κ} (f : σ → UInt8 → σ) (Inv : List UInt8 → σ → Prop)
    (hstep : ∀ s b bs, Inv (b :: bs) s → (step s b).state = f s b ∧ (step s b).next = .more ∧
      (step s b).actions = [.mark k] ∧ Inv bs (f s b)) (hne : bs ≠ []) (h : Inv bs s) :
    Reads step s none bs [] (bs.foldl f s) (some (k, bs)) := by
  cases bs with
  | nil => exact absurd rfl hne
  | cons b bs =>
      obtain ⟨hstate, hnext, hactions, hrest⟩ := hstep s b bs h
      have hacts : acts b (none : Marked κ) (step s b).actions = (some (k, []), []) := by
        rw [hactions]
        rfl
      have hothers := element (k := k) f Inv
        (fun s b bs h => ⟨(hstep s b bs h).1, (hstep s b bs h).2.1, .inr (hstep s b bs h).2.2.1,
          (hstep s b bs h).2.2.2⟩) [b] hrest
      exact (byte hnext hstate hacts).append hothers

end Reads

/-! ## What is told of a text -/

/-- Between two places outside of elements, the machine uses up `bs` and tells `rs`,
    where `f` is what a report tells. -/
def Tells (step : σ → UInt8 → Outcome σ κ ν π) (f : Event κ ν π → ρ) (s : σ) (bs : List UInt8)
    (rs : List ρ) (s' : σ) : Prop :=
  ∃ es, Reads step s none bs es s' none ∧ es.map f = rs

variable {f : Event κ ν π → ρ} {rs rs' : List ρ}

namespace Tells

protected theorem nil : Tells step f s [] [] s := ⟨[], .nil, rfl⟩

theorem append (h : Tells step f s bs rs s') (h' : Tells step f s' bs' rs' s'') :
    Tells step f s (bs ++ bs') (rs ++ rs') s'' := by
  obtain ⟨es, hreads, rfl⟩ := h
  obtain ⟨es', hreads', rfl⟩ := h'
  exact ⟨es ++ es', hreads.append hreads', List.map_append⟩

theorem quiet (hstep : step s b = ⟨s', [], .more⟩) : Tells step f s [b] [] s' :=
  ⟨[], .quiet hstep, rfl⟩

/-- A byte that only gives notices. -/
theorem notices (ns : List (ν × π)) (hstep : step s b = ⟨s', ns.map fun n => .notify n.1 n.2, .more⟩) :
    Tells step f s [b] (ns.map fun n => f (.notify n.1 n.2)) s' := by
  have hacts : acts b (none : Marked κ) (step s b).actions =
      (none, ns.map fun n => .notify n.1 n.2) := by
    rw [hstep]
    clear hstep
    induction ns with
    | nil => rfl
    | cons n ns ih =>
        rw [List.map_cons, acts]
        dsimp only [act] at ih ⊢
        rw [ih]
        rfl
  exact ⟨_, .byte (by rw [hstep]) (by rw [hstep]) hacts, by simp⟩

/-- Texts that lead from states of `Inv` back there, one after another. -/
theorem flatMap {ι : Type*} (text : ι → List UInt8) (told : ι → List ρ) (Inv : σ → Prop)
    {xs : List ι}
    (h : ∀ x ∈ xs, ∀ s, Inv s → ∃ s', Tells step f s (text x) (told x) s' ∧ Inv s') (hs : Inv s) :
    ∃ s', Tells step f s (xs.flatMap text) (xs.flatMap told) s' ∧ Inv s' := by
  induction xs generalizing s with
  | nil => exact ⟨s, .nil, hs⟩
  | cons x xs ih =>
      rw [List.forall_mem_cons] at h
      obtain ⟨s', hx, hs'⟩ := h.1 s hs
      obtain ⟨s'', hxs, hs''⟩ := ih h.2 hs'
      exact ⟨s'', hx.append hxs, hs''⟩

end Tells

/-- Before the last byte of `bs` nothing tells `r`. -/
def Late (step : σ → UInt8 → Outcome σ κ ν π) (f : Event κ ν π → ρ) (r : ρ) (s : σ)
    (bs : List UInt8) : Prop :=
  bs ≠ [] ∧ ∀ e ∈ (scan step s none bs.dropLast).events, f e ≠ r

namespace Late

variable {r : ρ}

theorem of_reads {m : Marked κ} (h : Reads step s none bs es s' m) (hr : r ∉ es.map f) (b : UInt8) :
    Late step f r s (bs ++ [b]) := by
  refine ⟨by simp, fun e he heq => ?_⟩
  rw [List.dropLast_concat, show scan step s none bs = _ from h] at he
  apply hr
  rw [← heq]
  exact List.mem_map_of_mem he

/-- A text in front of it that does not tell `r`. -/
theorem append (h : Tells step f s bs rs s') (hr : r ∉ rs) (hlate : Late step f r s' bs') :
    Late step f r s (bs ++ bs') := by
  obtain ⟨es, hreads, rfl⟩ := h
  refine ⟨by simp [hlate.1], fun e he => ?_⟩
  rw [List.dropLast_append_of_ne_nil hlate.1, scan_append hreads.next,
    show scan step s none bs = _ from hreads, List.mem_append] at he
  rcases he with he | he
  · exact fun heq => hr (heq ▸ List.mem_map_of_mem he)
  · exact hlate.2 e he

end Late

end Reads

/-- A machine that has told the last part of a text stands outside of elements, so
    a segment that begins there is read as the text would go on. -/
theorem Tells.uses {M : Machine σ κ ν π} {f : Event κ ν π → ρ} {s s' : σ} {bs : List UInt8}
    {rs : List ρ} (hresume : M.resume s = none) (h : Tells M.step f s bs rs s') :
    M.Uses s bs ∧ (M.segment s bs).state = s' ∧
      (M.reports (M.segment s bs)).map f = rs := by
  obtain ⟨es, hreads, hes⟩ := h
  have hsegment : M.segment s bs = ⟨s', none, es, bs.length, .more⟩ := by
    unfold Machine.segment
    rw [hresume]
    exact hreads
  unfold Machine.Uses
  rw [hsegment]
  refine ⟨⟨by simp, rfl⟩, rfl, ?_⟩
  rw [reports_more rfl]
  simpa [leftover] using hes

end Pieces

end QGServer
