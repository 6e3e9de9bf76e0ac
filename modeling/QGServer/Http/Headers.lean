-- SUMMARY: The headers that the callbacks of one request collect, and when the last one is among them.
import Mathlib.Data.List.Induction
import QGServer.Http.Context

/-!
# Headers

A header is put into the map when the next one begins, if it has a name, and the
last one when the headers are complete, if it has a value.
-/

namespace QGServer

/-- A header, in the pieces that the callbacks get. An empty text is one empty piece. -/
structure HeaderField where
  namePieces : List Bytes
  valuePieces : List Bytes
  namePieces_ne_nil : namePieces ≠ []
  valuePieces_ne_nil : valuePieces ≠ []
  name_ne_nil : namePieces.flatten ≠ []

namespace HeaderField

def name (f : HeaderField) : Bytes := f.namePieces.flatten

def value (f : HeaderField) : Bytes := f.valuePieces.flatten

def pair (f : HeaderField) : Bytes × Bytes := (f.name, f.value)

end HeaderField

/-! ## The map -/

section Emplace

variable {headers : List (Bytes × Bytes)} {field : Bytes × Bytes}

theorem emplace_of_mem (h : field.1 ∈ headers.map Prod.fst) : emplace headers field = headers := by
  obtain ⟨entry, hentry, heq⟩ := List.mem_map.mp h
  refine if_pos (List.any_eq_true.mpr ⟨entry, hentry, ?_⟩)
  exact decide_eq_true heq

theorem emplace_of_notMem (h : field.1 ∉ headers.map Prod.fst) :
    emplace headers field = headers ++ [field] := by
  refine if_neg fun hany => h ?_
  obtain ⟨entry, hentry, heq⟩ := List.any_eq_true.mp hany
  exact List.mem_map.mpr ⟨entry, hentry, of_decide_eq_true heq⟩

end Emplace

namespace HTTPRequest

/-! ## The callbacks of a header -/

/-- The calls for one header. -/
def collectField (r : HTTPRequest) (f : HeaderField) : HTTPRequest :=
  f.valuePieces.foldl (fun r buf => r.headerValueCallBack buf)
    (f.namePieces.foldl (fun r buf => r.headerFieldCallBack buf) r)

/-- The calls for the headers of a request, up to `headerCompleteCallBack`. -/
def collectHeaders (r : HTTPRequest) (fields : List HeaderField) : HTTPRequest :=
  (fields.foldl collectField r).headerCompleteCallBack

/-- No header has been seen. -/
structure NoHeader (r : HTTPRequest) : Prop where
  headers : r.headers = []
  lastFiledValue : r.lastFiledValue = ([], [])

variable {r : HTTPRequest} {pieces : List Bytes} {f : HeaderField} {fields : List HeaderField}

theorem foldl_headerValueCallBack (h : pieces ≠ []) :
    pieces.foldl (fun r buf => r.headerValueCallBack buf) r =
      { r with
        lastFiledValue := (r.lastFiledValue.1, r.lastFiledValue.2 ++ pieces.flatten)
        lastHeaderElement := .value } := by
  induction pieces generalizing r with
  | nil => exact absurd rfl h
  | cons buf pieces ih =>
      cases pieces with
      | nil => simp [headerValueCallBack]
      | cons buf' pieces =>
          rw [List.foldl_cons, ih (List.cons_ne_nil _ _)]
          simp [headerValueCallBack]

/-- Behind the first piece of a name the others are appended. -/
theorem foldl_headerFieldCallBack_of_field (h : r.lastHeaderElement = .field) :
    pieces.foldl (fun r buf => r.headerFieldCallBack buf) r =
      { r with lastFiledValue := (r.lastFiledValue.1 ++ pieces.flatten, r.lastFiledValue.2) } := by
  induction pieces generalizing r with
  | nil => simp
  | cons buf pieces ih =>
      have hstep : r.headerFieldCallBack buf =
          { r with lastFiledValue := (r.lastFiledValue.1 ++ buf, r.lastFiledValue.2) } := by
        unfold headerFieldCallBack
        simp [h]
      have hrest := @ih { r with lastFiledValue := (r.lastFiledValue.1 ++ buf, r.lastFiledValue.2) } h
      rw [List.foldl_cons, hstep, hrest]
      simp

/-- The first piece of a name puts the header before it into the map. -/
theorem foldl_headerFieldCallBack
    (hlast : r.lastHeaderElement ≠ .field ∨ r.lastFiledValue = ([], [])) (h : pieces ≠ []) :
    pieces.foldl (fun r buf => r.headerFieldCallBack buf) r =
      { r with
        headers := if r.lastFiledValue.1 ≠ [] then emplace r.headers r.lastFiledValue else r.headers
        lastFiledValue := (pieces.flatten, [])
        lastHeaderElement := .field } := by
  cases pieces with
  | nil => exact absurd rfl h
  | cons buf pieces =>
      have hstep : r.headerFieldCallBack buf =
          { r with
            headers :=
              if r.lastFiledValue.1 ≠ [] then emplace r.headers r.lastFiledValue else r.headers
            lastFiledValue := (buf, [])
            lastHeaderElement := .field } := by
        unfold headerFieldCallBack
        by_cases hfield : r.lastHeaderElement = .field
        · have hempty := hlast.resolve_left (not_not.mpr hfield)
          simp [hfield, hempty]
        · simp [hfield]
      rw [List.foldl_cons, hstep, foldl_headerFieldCallBack_of_field rfl]
      simp

theorem collectField_eq
    (hlast : r.lastHeaderElement ≠ .field ∨ r.lastFiledValue = ([], [])) :
    r.collectField f =
      { r with
        headers := if r.lastFiledValue.1 ≠ [] then emplace r.headers r.lastFiledValue else r.headers
        lastFiledValue := f.pair
        lastHeaderElement := .value } := by
  unfold collectField
  rw [foldl_headerFieldCallBack hlast f.namePieces_ne_nil,
    foldl_headerValueCallBack f.valuePieces_ne_nil]
  simp [HeaderField.pair, HeaderField.name, HeaderField.value]

/-- Before the headers are complete, all but the last one are in the map. -/
theorem foldl_collectField (hr : r.NoHeader)
    (hnames : ((fields ++ [f]).map HeaderField.name).Nodup) :
    (fields ++ [f]).foldl collectField r =
      { r with
        headers := fields.map HeaderField.pair
        lastFiledValue := f.pair
        lastHeaderElement := .value } := by
  induction fields using List.reverseRecOn generalizing f with
  | nil =>
      rw [List.nil_append, List.foldl_cons, List.foldl_nil, collectField_eq (.inr hr.lastFiledValue)]
      simp [hr.headers, hr.lastFiledValue]
  | append_singleton fields g ih =>
      rw [List.map_append, List.nodup_append] at hnames
      have hname : g.name ≠ [] := g.name_ne_nil
      have hnew : g.pair.1 ∉ (fields.map HeaderField.pair).map Prod.fst := by
        have hnodup := hnames.1
        rw [List.map_append, List.nodup_append] at hnodup
        rw [List.map_map]
        intro hmem
        exact hnodup.2.2 _ hmem g.name (by simp) rfl
      rw [List.foldl_append, ih hnames.1, List.foldl_cons, List.foldl_nil,
        collectField_eq (.inl (by simp)), emplace_of_notMem hnew]
      simp [HeaderField.pair, hname]

/-- The end of a message adds no header whose name is there. -/
theorem messageCompleteCallBack_headers (h : r.lastFiledValue.1 ∈ r.headers.map Prod.fst) :
    r.messageCompleteCallBack.headers = r.headers := by
  unfold messageCompleteCallBack headerCompleteCallBack
  dsimp only
  split_ifs
  · exact emplace_of_mem h
  · rfl

/-! ## The property -/

/-- The map holds the headers, and the end of the message does not change it. -/
structure Collected (fields : List HeaderField) (r : HTTPRequest) : Prop where
  headers : ∀ name value,
    (name, value) ∈ r.headers ↔ ∃ f ∈ fields, f.name = name ∧ f.value = value
  complete : r.messageCompleteCallBack.headers = r.headers

/-- The state when the headers are complete. -/
theorem collectHeaders_concat (hr : r.NoHeader)
    (hnames : ((fields ++ [f]).map HeaderField.name).Nodup) :
    r.collectHeaders (fields ++ [f]) =
      { r with
        headers := if f.value ≠ [] then (fields ++ [f]).map HeaderField.pair
          else fields.map HeaderField.pair
        lastFiledValue := f.pair
        lastHeaderElement := .value } := by
  have hnew : f.pair.1 ∉ (fields.map HeaderField.pair).map Prod.fst := by
    rw [List.map_append, List.nodup_append] at hnames
    rw [List.map_map]
    intro hmem
    exact hnames.2.2 _ hmem f.name (by simp) rfl
  unfold collectHeaders
  rw [foldl_collectField hr hnames]
  unfold headerCompleteCallBack
  dsimp only
  rw [emplace_of_notMem hnew]
  by_cases hvalue : f.value = []
  · simp [HeaderField.pair, hvalue]
  · simp [HeaderField.pair, hvalue]

/-- All headers are collected exactly if the last one has a value. -/
theorem collected_iff (hr : r.NoHeader) (hnames : (fields.map HeaderField.name).Nodup) :
    (r.collectHeaders fields).Collected fields ↔ ∀ f ∈ fields.getLast?, f.value ≠ [] := by
  rcases List.eq_nil_or_concat fields with rfl | ⟨fields, f, rfl⟩
  · refine ⟨fun _ f hf => (nomatch hf), fun _ => ⟨?_, ?_⟩⟩
    · simp [collectHeaders, headerCompleteCallBack, hr.headers, hr.lastFiledValue]
    · simp [collectHeaders, messageCompleteCallBack, headerCompleteCallBack, hr.lastFiledValue]
  · rw [List.concat_eq_append] at hnames ⊢
    rw [collectHeaders_concat hr hnames, List.getLast?_concat]
    simp only [Option.mem_some_iff, forall_eq']
    constructor
    · intro hcollected hvalue
      have hmem := (hcollected.headers f.name f.value).mpr ⟨f, by simp, rfl, rfl⟩
      rw [if_neg (not_not.mpr hvalue)] at hmem
      obtain ⟨g, hg, hpair⟩ := List.mem_map.mp hmem
      rw [List.map_append, List.nodup_append] at hnames
      exact hnames.2.2 g.name (List.mem_map_of_mem hg) f.name (by simp) (Prod.mk.inj hpair).1
    · intro hvalue
      refine ⟨fun name value => ?_, ?_⟩
      · rw [if_pos hvalue, List.mem_map]
        simp only [HeaderField.pair, Prod.mk.injEq]
      · have hold : f.pair.1 ∈ ((fields ++ [f]).map HeaderField.pair).map Prod.fst := by simp
        rw [if_pos hvalue]
        exact messageCompleteCallBack_headers hold

/-! ## Headers of two requests -/

/-- `Host: a`, with the name in two pieces. -/
def hostField : HeaderField := ⟨[bytes "Ho", bytes "st"], [bytes "a"], by simp, by simp, by decide⟩

/-- A header without a value. -/
def emptyField : HeaderField := ⟨[bytes "A"], [[]], by simp, by simp, by decide⟩

theorem collected_iff_two :
    (new.collectHeaders [emptyField, hostField]).Collected [emptyField, hostField] :=
  (collected_iff ⟨rfl, rfl⟩ (by decide)).mpr (by decide)

/-- The last header has no value. -/
theorem not_collected :
    ¬ ∀ (r : HTTPRequest) (fields : List HeaderField), r.NoHeader →
      (fields.map HeaderField.name).Nodup → (r.collectHeaders fields).Collected fields := by
  intro hclaim
  have hcollected := hclaim .new [emptyField] ⟨rfl, rfl⟩ (by decide)
  exact absurd ((hcollected.headers (bytes "A") []).mpr ⟨emptyField, by simp, rfl, rfl⟩) (by decide)

end HTTPRequest

end QGServer
