-- SUMMARY: Requests that come in segments: when parse leaves the same request as for one piece.
import QGServer.Http.Callbacks

/-!
# Segmentation

However a complete request is cut, the callbacks collect the same of it, except
for the parts of the URL: `urlCallBack` splits what there is of the URL at every
cut inside it, and adds the parts to those it has. Where one of these cannot be
split, it aborts.
-/

namespace QGServer

/-! ## What cuts change -/

namespace HTTPRequest

open HttpParser

/-- A request without the parts of its URL. -/
def core (r : HTTPRequest) : HTTPRequest :=
  { r with requestPath := [], queryString := [], fragment := [] }

section Collect

variable {r r' : HTTPRequest} {e : Event} {es es' : List Event} {p q : HttpParser} {a b : Bytes}
  {k : DataCallback}

theorem core_headerComplete (r : HTTPRequest) :
    r.headerCompleteCallBack.core = r.core.headerCompleteCallBack.core := by
  by_cases hvalue : r.lastFiledValue.2 = [] <;> simp [headerCompleteCallBack, core, hvalue]

theorem core_collect (r : HTTPRequest) (e : Event) : (r.collect e).core = (r.core.collect e).core := by
  cases e with
  | data k p buf =>
      cases k with
      | headerField =>
          by_cases hlast : r.lastHeaderElement = .field
          · simp [collect, headerFieldCallBack, core, hlast]
          · by_cases hname : r.lastFiledValue.1 = [] <;>
              simp [collect, headerFieldCallBack, core, hlast, hname]
      | _ => rfl
  | notify n p =>
      cases n with
      | headersComplete => exact core_headerComplete r
      | messageComplete =>
          exact congrArg (fun r : HTTPRequest => { r with messageIsEnd := true }) (core_headerComplete r)
      | _ => rfl

theorem core_foldl (h : r.core = r'.core) :
    (es.foldl collect r).core = (es.foldl collect r').core := by
  induction es generalizing r r' with
  | nil => exact h
  | cons e es ih => exact ih (by rw [core_collect, h, ← core_collect])

/-- A piece of an element and the rest of it do the same as the whole. -/
theorem core_split (hq : SamePart k q p) :
    ((r.collect (.data k q a)).collect (.data k p b)).core = (r.collect (.data k p (a ++ b))).core := by
  cases k with
  | url => simp [collect, core]
  | headerField =>
      by_cases hlast : r.lastHeaderElement = .field <;>
        simp [collect, headerFieldCallBack, core, hlast]
  | headerValue => simp [collect, headerValueCallBack, core]
  | body => simp [collect, core]

theorem core_early (hq : SamePart k q p) (hp : SamePart k p q) :
    (r.collect (.data k q a)).core = (r.collect (.data k p a)).core := by
  cases k with
  | url => simp [collect, core, hq.1 rfl]
  | headerField => rfl
  | headerValue => rfl
  | body => simp [collect, core, hq.2 rfl, hp.2 rfl]

/-- Cuts of elements change nothing but the parts of the URL. -/
theorem core_splits (h : Pieces.Splits SamePart es es') :
    (es'.foldl collect r).core = (es.foldl collect r).core := by
  induction h generalizing r with
  | nil => rfl
  | cons e h ih => exact ih
  | split hq h ih => exact ih.trans (core_foldl (core_split hq))
  | early hq hp h ih => exact ih.trans (core_foldl (core_early hq hp))

/-- Only `urlCallBack` adds parts of the URL. -/
theorem parts_collect (he : ∀ p buf, e ≠ .data .url p buf) :
    (r.collect e).requestUrl = r.requestUrl ∧ (r.collect e).requestPath = r.requestPath ∧
      (r.collect e).queryString = r.queryString ∧ (r.collect e).fragment = r.fragment := by
  have hcomplete : ∀ r : HTTPRequest, r.headerCompleteCallBack.requestUrl = r.requestUrl ∧
      r.headerCompleteCallBack.requestPath = r.requestPath ∧
      r.headerCompleteCallBack.queryString = r.queryString ∧
      r.headerCompleteCallBack.fragment = r.fragment := by
    intro r
    unfold headerCompleteCallBack
    split <;> exact ⟨rfl, rfl, rfl, rfl⟩
  cases e with
  | data k p buf =>
      cases k with
      | url => exact absurd rfl (he p buf)
      | headerField =>
          by_cases hlast : r.lastHeaderElement = .field <;>
            simp [collect, headerFieldCallBack, hlast]
      | _ => exact ⟨rfl, rfl, rfl, rfl⟩
  | notify n p =>
      cases n with
      | headersComplete => exact hcomplete r
      | messageComplete => exact hcomplete r
      | _ => exact ⟨rfl, rfl, rfl, rfl⟩

/-- The parts of every URL that is split are added. -/
theorem parts_foldl :
    (es.foldl collect r).requestPath =
        r.requestPath ++ (splitUrls r.requestUrl es).flatMap (urlText .path) ∧
      (es.foldl collect r).queryString =
        r.queryString ++ (splitUrls r.requestUrl es).flatMap (urlText .query) ∧
      (es.foldl collect r).fragment =
        r.fragment ++ (splitUrls r.requestUrl es).flatMap (urlText .fragment) := by
  induction es generalizing r with
  | nil => simp [splitUrls]
  | cons e es ih =>
      rw [List.foldl_cons]
      obtain ⟨hpath, hquery, hfragment⟩ := @ih (r.collect e)
      rw [hpath, hquery, hfragment]
      have hother : (∀ p buf, e ≠ .data .url p buf) → splitUrls r.requestUrl (e :: es) =
          splitUrls r.requestUrl es := by
        intro he
        cases e with
        | data k p buf => cases k <;> first | rfl | exact absurd rfl (he p buf)
        | notify n p => rfl
      by_cases he : ∃ p buf, e = .data .url p buf
      · obtain ⟨p, buf, rfl⟩ := he
        simp [collect, splitUrls]
      · have he' : ∀ p buf, e ≠ .data .url p buf := fun p buf heq => he ⟨p, buf, heq⟩
        obtain ⟨hurl, hpath, hquery, hfragment⟩ := parts_collect (r := r) he'
        rw [hurl, hpath, hquery, hfragment, hother he']
        exact ⟨rfl, rfl, rfl⟩

theorem messageIsEnd_foldl :
    (es.foldl collect r).messageIsEnd = (r.messageIsEnd || finishes es) := by
  have hcomplete : ∀ r : HTTPRequest, r.headerCompleteCallBack.messageIsEnd = r.messageIsEnd := by
    intro r
    unfold headerCompleteCallBack
    split <;> rfl
  have hstep : ∀ (r : HTTPRequest) (e : Event),
      (r.collect e).messageIsEnd = (r.messageIsEnd || finishes [e]) := by
    intro r e
    cases e with
    | data k p buf =>
        cases k with
        | headerField =>
            by_cases hlast : r.lastHeaderElement = .field <;>
              simp [collect, headerFieldCallBack, hlast, finishes]
        | _ => simp [collect, headerValueCallBack, finishes]
    | notify n p =>
        cases n with
        | headersComplete => simp [collect, hcomplete, finishes]
        | messageComplete => simp [collect, messageCompleteCallBack, finishes]
        | _ => simp [collect, finishes]
  induction es generalizing r with
  | nil => exact (Bool.or_false _).symm
  | cons e es ih =>
      rw [List.foldl_cons, ih, hstep, Bool.or_assoc, ← finishes_append]
      rfl

end Collect

end HTTPRequest

/-! ## Calls of `parse` -/

namespace HTTPContext

open HttpParser HTTPRequest

variable {c c' : HTTPContext} {data w : Bytes} {segments xs ys : List Bytes} {n : Int}

/-- `parse` of segments, one after another. -/
def parseAll (c : HTTPContext) : List Bytes → Except Fault HTTPContext
  | [] => .ok c
  | data :: segments => do
    let r ← c.parse data
    r.1.parseAll segments

theorem parse_of_accepts (hlen : data.length < intLimit) (h : Accepts c.parser data) :
    c.parse data = (c.request.callBacks (execute c.parser data).events).map fun request =>
      ((⟨(execute c.parser data).parser, request⟩ : HTTPContext), (data.length : Int)) := by
  have hint : toInt data.length = data.length := toInt_of_lt hlen
  rw [parse_eq (.inl (by rw [hint]; exact Int.natCast_nonneg _)), hint]
  unfold parseLen
  rw [Int.toNat_natCast, List.take_length]
  dsimp only
  rw [if_neg (by simp [h.nparsed, h.httpErrno]), h.nparsed]

theorem callBacks_append (r : HTTPRequest) (es es' : List Event) :
    r.callBacks (es ++ es') = r.callBacks es >>= fun r => r.callBacks es' := List.foldlM_append

theorem parseAll_of_accepts (hlen : ∀ data ∈ segments, data.length < intLimit)
    (h : AcceptsAll c.parser segments) :
    c.parseAll segments = (c.request.callBacks (executeAll c.parser segments).2).map fun request =>
      ⟨(executeAll c.parser segments).1, request⟩ := by
  induction segments generalizing c with
  | nil => rfl
  | cons data segments ih =>
      obtain ⟨haccept, hrest⟩ := h
      rw [parseAll, parse_of_accepts (hlen data List.mem_cons_self) haccept, executeAll]
      dsimp only
      rw [callBacks_append]
      cases c.request.callBacks (execute c.parser data).events with
      | error f => rfl
      | ok request =>
          exact @ih ⟨(execute c.parser data).parser, request⟩
            (fun d hd => hlen d (List.mem_cons_of_mem _ hd)) hrest

/-! ### In one piece -/

theorem bodies_of_finals {finals : List Bool} (h : ∀ final ∈ finals.dropLast, final = false) :
    ∀ final ∈ (false :: finals).dropLast, final = false := by
  cases finals with
  | nil => simp
  | cons final finals =>
      rw [List.dropLast_cons_of_ne_nil (List.cons_ne_nil _ _), List.forall_mem_cons]
      exact ⟨rfl, h⟩

theorem acceptable_complete (hw : Complete w) :
    HTTPRequest.new.Acceptable (execute .init w).events ↔
      (parseUrl (urlOf w) false).isSome = true := by
  rw [HTTPRequest.acceptable_iff]
  change (∀ url ∈ splitUrls [] _, _) ∧ _ ↔ _
  rw [hw.urls]
  refine ⟨fun h => h.1 _ (List.mem_singleton_self _), fun h => ⟨?_, bodies_of_finals hw.finals⟩⟩
  intro url hurl
  rw [List.mem_singleton.mp hurl]
  exact h

/-- A call that gets a complete request of some length leaves what the callbacks
    collect. -/
theorem parse_complete (hw : Complete w) (hlen : w.length < intLimit)
    (hurl : (parseUrl (urlOf w) false).isSome = true) :
    HTTPContext.new.parse w = .ok (⟨(execute .init w).parser,
      (execute .init w).events.foldl HTTPRequest.collect .new⟩, w.length) := by
  rw [parse_of_accepts hlen hw.accepts]
  change ((HTTPRequest.new.callBacks (execute .init w).events).map _ : Except Fault _) = _
  rw [HTTPRequest.callBacks_eq, if_pos ((acceptable_complete hw).mpr hurl)]
  rfl

theorem parse_aborts (hw : Complete w) (hlen : w.length < intLimit)
    (hurl : ¬ (parseUrl (urlOf w) false).isSome = true) :
    HTTPContext.new.parse w = .error .abort := by
  rw [parse_of_accepts hlen hw.accepts]
  change ((HTTPRequest.new.callBacks (execute .init w).events).map _ : Except Fault _) = _
  rw [HTTPRequest.callBacks_eq, if_neg (mt (acceptable_complete hw).mp hurl)]
  rfl

/-- The size of a longer one does not fit `parse`. -/
theorem parse_long (hw : Complete w) (hlen : intLimit ≤ w.length)
    (h : HTTPContext.new.parse w = .ok (c, n)) : c.request.messageIsEnd = false := by
  by_cases hneg : toInt w.length < 0
  · have hoverrun : HTTPContext.new.parse w = .error .overrun := if_pos ⟨hneg, rfl⟩
    rw [hoverrun] at h
    cases h
  · have hpos : 0 ≤ toInt w.length := Int.not_lt.mp hneg
    have hshort : (toInt w.length).toNat < w.length := by
      have hlt : toInt w.length < intLimit := toInt_lt _
      omega
    rw [parse_eq (.inl hpos)] at h
    by_cases haccept : HTTPContext.new.request.Acceptable
        (HTTPContext.new.parser.execute (w.take (toInt w.length).toNat)).events
    · rw [parseLen_ok haccept] at h
      obtain ⟨hc, -⟩ := Prod.mk.inj (Except.ok.inj h)
      rw [← hc, HTTPRequest.messageIsEnd_foldl, Bool.or_eq_false_iff]
      exact ⟨rfl, hw.first _ hshort⟩
    · rw [parseLen_abort haccept] at h
      cases h

theorem parse_complete_iff (hw : Complete w) :
    (∃ c n, HTTPContext.new.parse w = .ok (c, n) ∧ c.request.messageIsEnd = true) ↔
      w.length < intLimit ∧ (parseUrl (urlOf w) false).isSome = true := by
  constructor
  · rintro ⟨c, n, hparse, hend⟩
    have hlen : w.length < intLimit := by
      refine Nat.lt_of_not_le fun hlong => ?_
      rw [parse_long hw hlong hparse] at hend
      cases hend
    refine ⟨hlen, ?_⟩
    by_contra hurl
    rw [parse_aborts hw hlen hurl] at hparse
    cases hparse
  · rintro ⟨hlen, hurl⟩
    exact ⟨_, _, parse_complete hw hlen hurl, HTTPRequest.messageIsEnd_foldl.trans hw.ends⟩

/-! ### In segments -/

theorem finishes_splits {es es' : List Event} (h : Pieces.Splits SamePart es es') :
    finishes es' = finishes es := by
  induction h with
  | nil => rfl
  | cons e h ih =>
      unfold finishes at ih ⊢
      rw [List.any_cons, List.any_cons, ih]
  | split hq h ih => exact ih
  | early hq hp h ih => exact ih

/-- In segments, the message ends with the last one. -/
theorem finishes_open (hw : Complete (xs ++ ys).flatten) (hsegments : ∀ data ∈ xs ++ ys, data ≠ [])
    (hys : ys ≠ []) :
    AcceptsAll .init xs ∧ finishes (executeAll .init xs).2 = false := by
  by_cases hxs : xs = []
  · subst hxs
    exact ⟨trivial, rfl⟩
  · have hrest : ys.flatten ≠ [] := by
      obtain ⟨data, ys, rfl⟩ := List.exists_cons_of_ne_nil hys
      simp [hsegments data (by simp)]
    have hfirst : xs.flatten ≠ [] := by
      obtain ⟨data, xs, rfl⟩ := List.exists_cons_of_ne_nil hxs
      simp [hsegments data (by simp)]
    rw [List.flatten_append] at hw
    obtain ⟨hmore, -⟩ := hw.cut hrest
    have huses : byteMachine.Uses .init xs.flatten := ⟨by rw [hmore]; simp, Pieces.scan_count hmore⟩
    obtain ⟨haccepts, -, hsplits⟩ := execute_segments rfl
      (fun data hdata => hsegments data (List.mem_append_left _ hdata)) hxs
      ((accepts_iff rfl hfirst).mpr huses)
    refine ⟨haccepts, ?_⟩
    have hlength : xs.flatten.length < (xs.flatten ++ ys.flatten).length := by
      have hpos : 0 < ys.flatten.length := List.length_pos_iff.mpr hrest
      rw [List.length_append]
      omega
    have hopen := hw.first _ hlength
    rw [List.take_left] at hopen
    rw [finishes_splits hsplits]
    exact hopen

theorem parseAll_messageIsEnd {c : HTTPContext} (hlen : ∀ data ∈ segments, data.length < intLimit)
    (haccepts : AcceptsAll .init segments) (h : HTTPContext.new.parseAll segments = .ok c) :
    c.request.messageIsEnd = finishes (executeAll .init segments).2 := by
  have hparse := @HTTPContext.parseAll_of_accepts HTTPContext.new segments hlen haccepts
  rw [h] at hparse
  change _ = ((HTTPRequest.new.callBacks (executeAll .init segments).2).map _ : Except Fault _) at hparse
  rw [callBacks_eq] at hparse
  split at hparse
  · cases hparse
    rw [messageIsEnd_foldl]
    rfl
  · cases hparse

/-- The requests have the same contents. -/
structure SameRequest (r r' : HTTPRequest) : Prop where
  method : r'.method = r.method
  requestUrl : r'.requestUrl = r.requestUrl
  requestPath : r'.requestPath = r.requestPath
  queryString : r'.queryString = r.queryString
  fragment : r'.fragment = r.fragment
  headers : r'.headers = r.headers
  body : r'.body = r.body
  messageIsEnd : r'.messageIsEnd = r.messageIsEnd

/-- A URL that can be split, and that has neither a path nor a query nor a fragment. -/
structure Bare (url : Bytes) : Prop where
  accepted : (parseUrl url false).isSome = true
  path : urlText .path url = []
  query : urlText .query url = []
  fragment : urlText .fragment url = []

instance {url : Bytes} : Decidable (Bare url) :=
  decidable_of_iff ((parseUrl url false).isSome = true ∧ urlText .path url = [] ∧
      urlText .query url = [] ∧ urlText .fragment url = [])
    ⟨fun h => ⟨h.1, h.2.1, h.2.2.1, h.2.2.2⟩, fun h => ⟨h.accepted, h.path, h.query, h.fragment⟩⟩

/-- Wherever a cut is inside the URL, what comes before it is bare. -/
def CutsBare (segments : List Bytes) : Prop :=
  ∀ i < segments.length, ∀ url ∈ (linePhase (segments.take i).flatten).openUrl, Bare url

instance {segments : List Bytes} : Decidable (CutsBare segments) :=
  inferInstanceAs (Decidable (∀ i < segments.length, ∀ _ ∈ (linePhase _).openUrl, _))

/-- The request is parsed in one piece and in segments, and is the same. -/
def ParsesAlike (w : Bytes) (segments : List Bytes) : Prop :=
  ∃ c n c', HTTPContext.new.parse w = .ok (c, n) ∧ HTTPContext.new.parseAll segments = .ok c' ∧
    c.request.messageIsEnd = true ∧ SameRequest c.request c'.request

theorem length_le_of_mem_flatten {α : Type*} {xs : List α} {xss : List (List α)} (h : xs ∈ xss) :
    xs.length ≤ xss.flatten.length := (List.sublist_flatten_of_mem h).length_le

/-- The segments are parsed if every URL that is put together can be split. -/
theorem parseAll_complete (hw : Complete segments.flatten)
    (hlen : segments.flatten.length < intLimit) (hsegments : ∀ data ∈ segments, data ≠ []) :
    HTTPContext.new.parseAll segments =
      if ∀ url ∈ LinePhase.newlines.allUrls segments, (parseUrl url false).isSome = true then
        .ok ⟨(executeAll .init segments).1,
          (executeAll .init segments).2.foldl HTTPRequest.collect .new⟩
      else .error .abort := by
  have hne : segments ≠ [] := fun hnil => hw.ne_nil (by rw [hnil]; rfl)
  obtain ⟨haccepts, -, hsplits⟩ := execute_segments rfl hsegments hne hw.accepts
  have hlens : ∀ data ∈ segments, data.length < intLimit := fun data hdata =>
    (length_le_of_mem_flatten hdata).trans_lt hlen
  have hacceptable : HTTPRequest.new.Acceptable (executeAll .init segments).2 ↔
      ∀ url ∈ LinePhase.newlines.allUrls segments, (parseUrl url false).isSome = true := by
    rw [HTTPRequest.acceptable_iff, ← hw.urls_segments hsegments]
    exact and_iff_left (bodies_of_finals ((bodyFinals_splits hsplits).2 hw.finals))
  have hparse := @parseAll_of_accepts HTTPContext.new segments hlens haccepts
  rw [hparse]
  change ((HTTPRequest.new.callBacks (executeAll .init segments).2).map _ : Except Fault _) = _
  rw [HTTPRequest.callBacks_eq]
  simp only [hacceptable]
  split <;> rfl

/-- Cuts that are not in the URL change nothing, and the others add the parts of
    what comes before them. -/
theorem sameRequest_iff {opens : List Bytes} (hw : Complete segments.flatten)
    (hsegments : ∀ data ∈ segments, data ≠ [])
    (hopens : LinePhase.newlines.allUrls segments = opens ++ [urlOf segments.flatten]) :
    SameRequest ((execute .init segments.flatten).events.foldl HTTPRequest.collect .new)
        ((executeAll .init segments).2.foldl HTTPRequest.collect .new) ↔
      ∀ url ∈ opens, urlText .path url = [] ∧ urlText .query url = [] ∧ urlText .fragment url = [] := by
  have hne : segments ≠ [] := fun hnil => hw.ne_nil (by rw [hnil]; rfl)
  obtain ⟨-, -, hsplits⟩ := execute_segments rfl hsegments hne hw.accepts
  have hcore := @HTTPRequest.core_splits .new _ _ hsplits
  obtain ⟨hpath, hquery, hfragment⟩ :=
    @HTTPRequest.parts_foldl .new (execute .init segments.flatten).events
  obtain ⟨hpath', hquery', hfragment'⟩ :=
    @HTTPRequest.parts_foldl .new (executeAll .init segments).2
  have hurls : ∀ field,
      (splitUrls HTTPRequest.new.requestUrl (execute .init segments.flatten).events).flatMap
        (urlText field) = urlText field (urlOf segments.flatten) := by
    intro field
    change (splitUrls [] _).flatMap _ = _
    rw [hw.urls, List.flatMap_singleton]
  have hurls' : ∀ field,
      (splitUrls HTTPRequest.new.requestUrl (executeAll .init segments).2).flatMap (urlText field) =
        opens.flatMap (urlText field) ++ urlText field (urlOf segments.flatten) := by
    intro field
    change (splitUrls [] _).flatMap _ = _
    rw [hw.urls_segments hsegments, hopens, List.flatMap_append, List.flatMap_singleton]
  rw [hurls] at hpath hquery hfragment
  rw [hurls'] at hpath' hquery' hfragment'
  have hsame : ∀ {field : UrlField} {t t' : Bytes},
      t = [] ++ urlText field (urlOf segments.flatten) →
      t' = [] ++ (opens.flatMap (urlText field) ++ urlText field (urlOf segments.flatten)) →
      (t' = t ↔ ∀ url ∈ opens, urlText field url = []) := by
    intro field t t' ht ht'
    rw [ht, ht', List.nil_append, List.nil_append, List.append_left_eq_self, List.flatMap_eq_nil_iff]
  constructor
  · intro h url hurl
    exact ⟨(hsame hpath hpath').mp h.requestPath url hurl,
      (hsame hquery hquery').mp h.queryString url hurl,
      (hsame hfragment hfragment').mp h.fragment url hurl⟩
  · intro h
    refine ⟨(congrArg HTTPRequest.method hcore :), (congrArg HTTPRequest.requestUrl hcore :), ?_, ?_, ?_,
      (congrArg HTTPRequest.headers hcore :), (congrArg HTTPRequest.body hcore :),
      (congrArg HTTPRequest.messageIsEnd hcore :)⟩
    · exact (hsame hpath hpath').mpr fun url hurl => (h url hurl).1
    · exact (hsame hquery hquery').mpr fun url hurl => (h url hurl).2.1
    · exact (hsame hfragment hfragment').mpr fun url hurl => (h url hurl).2.2

/-- The segments before a cut inside the URL are those that `allUrls` finds open. -/
theorem cuts_iff {P : Bytes → Prop} {opens : List Bytes} (hopens : ∀ text, text ∈ opens ↔
    ∃ i, i + 1 < segments.length ∧
      ((segments.take (i + 1)).flatten.foldl LinePhase.step .newlines).openUrl = some text) :
    (∀ i < segments.length, ∀ url ∈ (linePhase (segments.take i).flatten).openUrl, P url) ↔
      ∀ url ∈ opens, P url := by
  constructor
  · intro h url hurl
    obtain ⟨i, hi, hcut⟩ := (hopens url).mp hurl
    exact h (i + 1) hi url hcut
  · intro h i hi url hcut
    cases i with
    | zero => cases hcut
    | succ i => exact h url ((hopens url).mpr ⟨i, hi, hcut⟩)

/-- A complete request that is cut in segments gives the same request as in one
    piece exactly if its size fits an `int`, its URL can be split, and no cut
    leaves a part of the URL behind that is not bare. -/
theorem parsesAlike_iff (hw : Complete w) (hsegments : ∀ data ∈ segments, data ≠ [])
    (hcut : segments.flatten = w) :
    ParsesAlike w segments ↔ w.length < intLimit ∧
      (parseUrl (urlOf w) false).isSome = true ∧ CutsBare segments := by
  subst hcut
  obtain ⟨url, hdone⟩ := hw.done
  obtain ⟨opens, hopens, hmem⟩ := allUrls_eq (by simp) hdone
  have hurl : urlOf segments.flatten = url := by rw [urlOf, hdone]; rfl
  rw [← hurl] at hopens
  have hcuts : CutsBare segments ↔ ∀ url ∈ opens, Bare url := cuts_iff hmem
  rw [hcuts]
  constructor
  · rintro ⟨c, n, c', hparse, hall, hend, hsame⟩
    obtain ⟨hlen, hok⟩ := (parse_complete_iff hw).mp ⟨c, n, hparse, hend⟩
    rw [parse_complete hw hlen hok] at hparse
    obtain ⟨rfl, -⟩ := Prod.mk.inj (Except.ok.inj hparse)
    rw [parseAll_complete hw hlen hsegments, hopens] at hall
    split at hall
    · rename_i haccepted
      cases hall
      refine ⟨hlen, hok, fun url hurl => ?_⟩
      obtain ⟨hpath, hquery, hfragment⟩ := (sameRequest_iff hw hsegments hopens).mp hsame url hurl
      exact ⟨haccepted url (List.mem_append_left _ hurl), hpath, hquery, hfragment⟩
    · cases hall
  · rintro ⟨hlen, hok, hbare⟩
    have haccepted : ∀ url ∈ LinePhase.newlines.allUrls segments,
        (parseUrl url false).isSome = true := by
      intro url hurl
      rw [hopens] at hurl
      rcases List.mem_append.mp hurl with hurl | hurl
      · exact (hbare url hurl).accepted
      · rw [List.mem_singleton.mp hurl]
        exact hok
    refine ⟨_, _, _, parse_complete hw hlen hok,
      (parseAll_complete hw hlen hsegments).trans (if_pos haccepted),
      HTTPRequest.messageIsEnd_foldl.trans hw.ends,
      (sameRequest_iff hw hsegments hopens).mpr fun url hurl => ?_⟩
    exact ⟨(hbare url hurl).path, (hbare url hurl).query, (hbare url hurl).fragment⟩

/-- Cuts in the method, behind the host of an absolute URL and in a header. -/
theorem parsesAlike_iff_bare :
    ParsesAlike (bytes "GET http://ab/c HTTP/1.1\r\nHost: a\r\n\r\n")
      [bytes "GE", bytes "T http://a", bytes "b/c HTTP/1.1\r\nHo", bytes "st: a\r\n\r\n"] := by
  refine (parsesAlike_iff ?_ ?_ ?_).mpr ⟨?_, ?_, ?_⟩
  all_goals decide +kernel

/-- A cut in the path: what comes before it is part of the path twice. -/
theorem not_parsesAlike :
    ¬ ∀ (w : Bytes) (segments : List Bytes), Complete w → (∀ data ∈ segments, data ≠ []) →
      segments.flatten = w → ParsesAlike w segments := by
  intro hclaim
  obtain ⟨c, n, c', hparse, hall, -, hsame⟩ := hclaim (bytes "GET /ab HTTP/1.1\r\n\r\n")
    [bytes "GET /a", bytes "b HTTP/1.1\r\n\r\n"] (by decide +kernel) (by decide) (by decide)
  have hpath : (HTTPContext.new.parse (bytes "GET /ab HTTP/1.1\r\n\r\n")).toOption.map
      (fun r => r.1.request.requestPath) = some (bytes "/ab") := by decide +kernel
  have hpath' : (HTTPContext.new.parseAll [bytes "GET /a", bytes "b HTTP/1.1\r\n\r\n"]).toOption.map
      (fun c => c.request.requestPath) = some (bytes "/a/ab") := by decide +kernel
  rw [hparse] at hpath
  rw [hall] at hpath'
  have heq : bytes "/a/ab" = bytes "/ab" :=
    (Option.some.inj hpath').symm.trans (hsame.requestPath.trans (Option.some.inj hpath))
  exact absurd heq (by decide)

end HTTPContext

/-! ## Aborts -/

namespace HTTPServer

open HttpParser

variable {c : HTTPContext} {ls : List (Environment × Bytes)}

theorem receive_waits {env : Environment} {data : Bytes} {c' : HTTPContext} {n : Int}
    (hparse : c.parse data = .ok (c', n)) (hn : 0 ≤ n) (hend : c'.request.messageIsEnd = false) :
    receive c (env, data) = some c' := by
  have hcome : handleMessageCome env data c = .ok (c', []) := by
    rw [handleMessageCome_ok hparse]
    unfold handleParsed
    rw [if_neg (Int.not_lt.mpr hn), hend]
    rfl
  unfold receive
  rw [hcome]
  rfl

/-- Segments that the parser accepts reach an abort exactly if one call of `parse` does:
    before the last one the message has not ended, so that nothing is answered. -/
theorem receive_noAbort_parseAll (haccepts : AcceptsAll c.parser (ls.map Prod.snd))
    (hlen : ∀ l ∈ ls, l.2.length < intLimit)
    (hopen : ∀ xs ys c', ls.map Prod.snd = xs ++ ys → xs ≠ [] → ys ≠ [] →
      c.parseAll xs = .ok c' → c'.request.messageIsEnd = false) :
    Runs.Along receive (fun c l => handleMessageCome l.1 l.2 c ≠ .error .abort) c ls ↔
      c.parseAll (ls.map Prod.snd) ≠ .error .abort := by
  induction ls generalizing c with
  | nil => exact iff_of_true trivial (by rintro ⟨⟩)
  | cons l ls ih =>
      obtain ⟨env, data⟩ := l
      obtain ⟨haccept, hrest⟩ := haccepts
      rw [List.forall_mem_cons] at hlen
      have hdata := HTTPContext.parse_of_accepts hlen.1 haccept
      rw [HTTPRequest.callBacks_eq] at hdata
      split at hdata
      · generalize (execute c.parser data).events.foldl HTTPRequest.collect c.request = request
          at hdata
        change c.parse data = .ok (⟨(execute c.parser data).parser, request⟩, (data.length : Int))
          at hdata
        have hall : ∀ xs, c.parseAll (data :: xs) =
            HTTPContext.parseAll ⟨(execute c.parser data).parser, request⟩ xs := by
          intro xs
          change (c.parse data >>= _) = _
          rw [hdata]
          rfl
        have hfine : handleMessageCome env data c ≠ .error .abort := by
          rw [Ne, handleMessageCome_abort_iff, ← HTTPContext.parse_abort_iff, hdata]
          rintro ⟨⟩
        change (_ ∧ _) ↔ c.parseAll (data :: ls.map Prod.snd) ≠ _
        rw [hall, and_iff_right hfine]
        by_cases hls : ls = []
        · subst hls
          exact iff_of_true (fun _ _ => trivial) (by rintro ⟨⟩)
        · have hend := hopen [data] (ls.map Prod.snd) _ rfl (by simp) (by simpa using hls) (hall [])
          rw [receive_waits hdata (Int.natCast_nonneg _) hend]
          simp only [Option.some.injEq, forall_eq']
          refine ih hrest hlen.2 fun xs ys c' hsplit hxs hys hparse => ?_
          apply hopen (data :: xs) ys c' (by rw [List.map_cons, hsplit]; rfl) (by simp) hys
          rw [hall, hparse]
      · have hcome := @handleMessageCome_error env _ _ _ hdata
        refine iff_of_false (fun h => h.1 hcome) (not_not.mpr ?_)
        change (c.parse data >>= _) = _
        rw [hdata]
        rfl

/-- A complete request in segments reaches no abort exactly if its URL can be split, and
    with it what there is of the URL at every cut inside it. -/
theorem receive_noAbort_complete (hw : Complete (ls.map Prod.snd).flatten)
    (hlen : (ls.map Prod.snd).flatten.length < intLimit) (hsegments : ∀ l ∈ ls, l.2 ≠ []) :
    Runs.Along receive (fun c l => handleMessageCome l.1 l.2 c ≠ .error .abort) .new ls ↔
      (parseUrl (urlOf (ls.map Prod.snd).flatten) false).isSome = true ∧
        ∀ i < ls.length, ∀ url ∈ (linePhase ((ls.map Prod.snd).take i).flatten).openUrl,
          (parseUrl url false).isSome = true := by
  have hnonempty : ∀ data ∈ ls.map Prod.snd, data ≠ [] := by
    intro data hdata
    obtain ⟨l, hl, rfl⟩ := List.mem_map.mp hdata
    exact hsegments l hl
  have hlens : ∀ data ∈ ls.map Prod.snd, data.length < intLimit := fun data hdata =>
    (HTTPContext.length_le_of_mem_flatten hdata).trans_lt hlen
  have hne : ls.map Prod.snd ≠ [] := fun hnil => hw.ne_nil (by rw [hnil]; rfl)
  have haccepts := (execute_segments rfl hnonempty hne hw.accepts).1
  have hparse := receive_noAbort_parseAll haccepts (fun l hl => hlens _ (List.mem_map_of_mem hl))
    (fun xs ys c' hsplit hxs hys hparse => by
      rw [hsplit] at hw hnonempty hlens
      obtain ⟨haccepts', hopen⟩ := HTTPContext.finishes_open hw hnonempty hys
      rw [HTTPContext.parseAll_messageIsEnd
        (fun data hdata => hlens data (List.mem_append_left _ hdata)) haccepts' hparse, hopen])
  obtain ⟨url, hdone⟩ := hw.done
  obtain ⟨opens, hopens, hmem⟩ := allUrls_eq (by simp) hdone
  have hurl : urlOf (ls.map Prod.snd).flatten = url := by rw [urlOf, hdone]; rfl
  have hcuts := @HTTPContext.cuts_iff _ (fun url => (parseUrl url false).isSome = true) _ hmem
  rw [List.length_map] at hcuts
  have hall : (∀ url ∈ LinePhase.newlines.allUrls (ls.map Prod.snd),
      (parseUrl url false).isSome = true) ↔
        (parseUrl url false).isSome = true ∧ ∀ url ∈ opens, (parseUrl url false).isSome = true := by
    rw [hopens, List.forall_mem_append, List.forall_mem_singleton, and_comm]
  rw [hparse, HTTPContext.parseAll_complete hw hlen hnonempty, hcuts, hurl, ← hall]
  split_ifs with hurls
  · exact iff_of_true (by rintro ⟨⟩) hurls
  · exact iff_of_false (not_not.mpr rfl) hurls

/-- A cut in the schema: what there is of the URL then cannot be split. -/
example : ¬ Runs.Along receive (fun c l => handleMessageCome l.1 l.2 c ≠ .error .abort) .new
    [(.empty, bytes "GET h"), (.empty, bytes "ttp://a/ HTTP/1.1\r\n\r\n")] := by
  rw [receive_noAbort_complete (by decide +kernel) (by decide +kernel) (by decide +kernel)]
  decide +kernel

end HTTPServer

end QGServer
