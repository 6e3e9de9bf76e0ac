-- SUMMARY: Complete requests, in one piece and in segments: what the parser reports of them.
import QGServer.HttpParser.RequestLine

/-!
# Complete requests

A request is complete if the parser uses it up and finds the end of a message
with its last byte. In one piece there is one call of `on_url`; in segments there
is one more for each cut inside the URL.
-/

namespace QGServer

namespace HttpParser

section Complete

variable {w : Bytes}

/-- A complete request: a new parser uses it up and finds the end of a message
    with its last byte. -/
structure Complete (w : Bytes) : Prop where
  accepts : Accepts .init w
  ends : finishes (execute .init w).events = true
  first : ∀ n < w.length, finishes (execute .init (w.take n)).events = false

instance : Decidable (Complete w) :=
  decidable_of_iff (Accepts .init w ∧ finishes (execute .init w).events = true ∧
      ∀ n < w.length, finishes (execute .init (w.take n)).events = false)
    ⟨fun h => ⟨h.1, h.2.1, h.2.2⟩, fun h => ⟨h.accepts, h.ends, h.first⟩⟩

theorem Complete.ne_nil (h : Complete w) : w ≠ [] := by
  rintro rfl
  cases h.ends

theorem Complete.uses (h : Complete w) : byteMachine.Uses .init w :=
  (accepts_iff rfl h.ne_nil).mp h.accepts

theorem Complete.events_eq (h : Complete w) :
    (execute .init w).events = byteMachine.reports (byteMachine.segment .init w) := by
  rw [execute_of_uses rfl h.ne_nil h.uses]

/-- A proper part of it is read without an error, and the message has not ended. -/
theorem Complete.cut {x y : Bytes} (h : Complete (x ++ y)) (hy : y ≠ []) :
    (byteMachine.segment .init x).next = .more ∧
      finishes (byteMachine.reports (byteMachine.segment .init x)) = false := by
  have hmore : (byteMachine.segment .init x).next = .more :=
    (byteMachine_tidy.segment_append hy h.uses).1
  refine ⟨hmore, ?_⟩
  by_cases hx : x = []
  · subst hx
    rfl
  · have huses : byteMachine.Uses .init x := ⟨by rw [hmore]; simp, Pieces.scan_count hmore⟩
    have hfirst := h.first x.length (by simpa using List.length_pos_iff.mpr hy)
    rw [List.take_left, execute_of_uses rfl hx huses] at hfirst
    exact hfirst

theorem Complete.endsLast (h : Complete w) : EndsLast (execute .init w).events := by
  obtain ⟨x, b, rfl⟩ : ∃ x b, w = x ++ [b] := by
    rcases List.eq_nil_or_concat w with hnil | ⟨x, b, hw⟩
    · exact absurd hnil h.ne_nil
    · exact ⟨x, b, by rw [hw, List.concat_eq_append]⟩
  obtain ⟨hmore, hopen⟩ := h.cut (List.cons_ne_nil b [])
  have hnext := h.uses.1
  rw [h.events_eq]
  unfold Pieces.Machine.segment at hmore hopen hnext ⊢
  rw [Pieces.reports_more hmore, finishes_append, Bool.or_eq_false_iff] at hopen
  rw [Pieces.scan_append hmore] at hnext ⊢
  rw [Pieces.reports_cons]
  have hfits := byteMachine_tidy.fits_scan (Pieces.fits_segment byteMachine_tidy .init) hmore
  exact .append hopen.1 (endsLast_byte hfits (Pieces.scan_accepted hnext))

theorem Complete.readsUrl (h : Complete w) :
    ReadsUrl [] .newlines (linePhase w) (byteMachine.segment .init w) := by
  have hlast := h.endsLast
  rw [h.events_eq] at hlast
  have hmark : [] ++ markedUrl ((byteMachine.resume .init).map fun k => (k, [])) =
      LinePhase.newlines.text := rfl
  exact scan_urls (Pieces.fits_segment byteMachine_tidy .init) rfl hmark h.uses.1 hlast

/-- The URL of a complete request has ended. -/
theorem Complete.done (h : Complete w) : ∃ url, linePhase w = .done url := by
  have hends := h.ends
  rw [h.events_eq] at hends
  exact h.readsUrl.done hends

/-- The URL of a request. -/
def urlOf (w : Bytes) : Bytes := (linePhase w).text

theorem Complete.urls (h : Complete w) : splitUrls [] (execute .init w).events = [urlOf w] := by
  obtain ⟨url, hurl⟩ := h.done
  have hscan := h.readsUrl.urls []
  rw [List.append_nil, hurl] at hscan
  rw [h.events_eq, hscan, urlOf, hurl]
  rfl

theorem Complete.finals (h : Complete w) :
    ∀ final ∈ (bodyFinals (execute .init w).events).dropLast, final = false := by
  have hlast := h.endsLast
  rw [h.events_eq] at hlast ⊢
  exact scan_bodies (Pieces.fits_segment byteMachine_tidy .init) h.uses.1 hlast

/-! ### In segments -/

theorem EndsLast.splits {es es' : List Event} (h : Pieces.Splits SamePart es es')
    (hends : EndsLast es) : EndsLast es' := by
  induction h with
  | nil => trivial
  | cons e h ih =>
      cases e with
      | data k q text => exact ih hends
      | notify n q =>
          cases n with
          | messageComplete =>
              rw [show _ = [] from hends] at h
              cases h
              rfl
          | _ => exact ih hends
  | split hq h ih => exact ih hends
  | early hq hp h ih => exact ih hends

theorem bodyFinals_splits {es es' : List Event} (h : Pieces.Splits SamePart es es') :
    (bodyFinals es' = [] ↔ bodyFinals es = []) ∧
      ((∀ final ∈ (bodyFinals es).dropLast, final = false) →
        ∀ final ∈ (bodyFinals es').dropLast, final = false) := by
  have hcons : ∀ {b : Bool} {bs bs' : List Bool}, (bs' = [] ↔ bs = []) →
      ((∀ final ∈ bs.dropLast, final = false) → ∀ final ∈ bs'.dropLast, final = false) →
      (∀ final ∈ (b :: bs).dropLast, final = false) → ∀ final ∈ (b :: bs').dropLast, final = false := by
    intro b bs bs' hnil hrest hall
    by_cases hbs : bs = []
    · rw [hnil.mpr hbs]
      simp
    · have hbs' : bs' ≠ [] := fun h => hbs (hnil.mp h)
      rw [List.dropLast_cons_of_ne_nil hbs] at hall
      rw [List.dropLast_cons_of_ne_nil hbs', List.forall_mem_cons]
      rw [List.forall_mem_cons] at hall
      exact ⟨hall.1, hrest hall.2⟩
  induction h with
  | nil => exact ⟨Iff.rfl, id⟩
  | cons e h ih =>
      cases e with
      | notify n q => exact ih
      | data k q text =>
          cases k with
          | body => exact ⟨by simp [bodyFinals], hcons ih.1 ih.2⟩
          | _ => exact ih
  | @split es es' k p q a b hq h ih =>
      cases k with
      | body =>
          have hfinal : q.bodyIsFinal = false := hq.2 rfl
          refine ⟨by simp [bodyFinals], fun hall => ?_⟩
          have hne : bodyFinals es' ≠ [] := fun hnil => by simpa [bodyFinals] using ih.1.mp hnil
          simp only [bodyFinals]
          rw [List.dropLast_cons_of_ne_nil hne, List.forall_mem_cons]
          exact ⟨hfinal, ih.2 hall⟩
      | _ => exact ih
  | @early es es' k p q a hq hp h ih =>
      cases k with
      | body =>
          have hfinal : q.bodyIsFinal = false := hq.2 rfl
          have hfinal' : p.bodyIsFinal = false := hp.2 rfl
          refine ⟨by simp [bodyFinals], ?_⟩
          simp only [bodyFinals, hfinal, hfinal']
          exact hcons ih.1 ih.2
      | _ => exact ih

/-- The calls of `on_url` when a complete request comes in segments. -/
theorem Complete.urls_segments {segments : List Bytes} (h : Complete segments.flatten)
    (hsegments : ∀ data ∈ segments, data ≠ []) :
    splitUrls [] (executeAll .init segments).2 = LinePhase.newlines.allUrls segments := by
  obtain ⟨data, segments, rfl⟩ : ∃ data rest, segments = data :: rest := by
    refine List.exists_cons_of_ne_nil fun hnil => h.ne_nil ?_
    rw [hnil]
    rfl
  obtain ⟨huses, hstate, hsplits⟩ := byteMachine_tidy.feed
    (fun xs hxs => hsegments xs (List.mem_cons_of_mem _ hxs)) h.uses
  obtain ⟨-, hfeed⟩ := executeAll_eq rfl hsegments huses
  have hlast := h.endsLast
  rw [h.events_eq] at hlast
  rw [hfeed]
  have hreads : LinePhase.newlines.Reads .init := rfl
  exact feed_urls (.inl hreads) huses (hlast.splits hsplits)

/-- There is one call at each cut inside the URL, and one at its end. -/
theorem allUrls_eq {phase : LinePhase} {url : Bytes} {segments : List Bytes}
    (hphase : ∀ text, phase ≠ .done text)
    (hdone : segments.flatten.foldl LinePhase.step phase = .done url) :
    ∃ opens, phase.allUrls segments = opens ++ [url] ∧ ∀ text, text ∈ opens ↔
      ∃ i, i + 1 < segments.length ∧
        ((segments.take (i + 1)).flatten.foldl LinePhase.step phase).openUrl = some text := by
  induction segments generalizing phase with
  | nil => exact absurd hdone (hphase url)
  | cons data segments ih =>
      rw [List.flatten_cons, List.foldl_append] at hdone
      have hshift : ∀ i, ((data :: segments).take (i + 1)).flatten.foldl LinePhase.step phase =
          (segments.take i).flatten.foldl LinePhase.step (data.foldl LinePhase.step phase) := by
        intro i
        rw [List.take_succ_cons, List.flatten_cons, List.foldl_append]
      have hnew : ∀ phase', phase.newUrls phase' = LinePhase.newlines.newUrls phase' := by
        intro phase'
        cases phase with
        | done text => exact absurd rfl (hphase text)
        | _ => rfl
      simp only [LinePhase.allUrls, hshift, hnew, List.length_cons, Nat.add_lt_add_iff_right]
      generalize data.foldl LinePhase.step phase = phase' at hdone ⊢
      by_cases hopen : ∃ text, phase' = .done text
      · obtain ⟨text, rfl⟩ := hopen
        rw [LinePhase.foldl_done] at hdone
        cases hdone
        refine ⟨[], by rw [LinePhase.allUrls_done]; rfl, fun text => ?_⟩
        simp [LinePhase.openUrl]
      · obtain ⟨opens, hopens, hmem⟩ := ih (fun text htext => hopen ⟨text, htext⟩) hdone
        -- the cut behind `data` is the first one, and the others follow it
        have hcuts : ∀ text, (∃ i, i < segments.length ∧
            ((segments.take i).flatten.foldl LinePhase.step phase').openUrl = some text) ↔
            phase'.openUrl = some text ∨ text ∈ opens := by
          intro text
          rw [hmem]
          constructor
          · rintro ⟨i, hi, hcut⟩
            cases i with
            | zero => exact .inl hcut
            | succ i => exact .inr ⟨i, hi, hcut⟩
          · rintro (hcut | ⟨i, hi, hcut⟩)
            · refine ⟨0, List.length_pos_iff.mpr ?_, hcut⟩
              rintro rfl
              exact hopen ⟨url, hdone⟩
            · exact ⟨i + 1, hi, hcut⟩
        simp only [hcuts, hopens]
        cases phase' with
        | url text =>
            refine ⟨text :: opens, rfl, fun text' => ?_⟩
            simp [LinePhase.openUrl, eq_comm]
        | done text => exact absurd ⟨text, rfl⟩ hopen
        | _ => exact ⟨opens, rfl, fun text => by simp [LinePhase.openUrl]⟩

end Complete

end HttpParser

end QGServer
