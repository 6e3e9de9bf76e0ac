-- SUMMARY: The request that a message is stored in: what the callbacks collect of a message in any segments.
import QGServer.HttpParser.RoundTrip
import QGServer.Http.Headers
import QGServer.Http.Segmentation
import QGServer.Http.UrlParts

/-!
# Stored messages

`parseAll_text_iff`: the callbacks of `HTTPContext` store a message in the request,
all of it, if its target is a path, no two headers share a name, and the last
header has a value. The segments may be cut anywhere but inside of the target.

The callbacks see the parser, but what they do depends on the reports alone,
except for the mark of a final body. `told` is what they do with a report.
-/

namespace QGServer

namespace HeaderLine

def pair (l : HeaderLine) : Bytes × Bytes := (l.name, l.value)

end HeaderLine

namespace MessageBody

/-- The bytes of the body, without the sizes of chunks. -/
def content : MessageBody → Bytes
  | empty => []
  | sized content => content
  | chunks cs _ => cs.flatten

def trailers : MessageBody → List (Bytes × Bytes)
  | chunks _ trailers => trailers
  | _ => []

end MessageBody

namespace Message

/-- The headers of a message, and behind them the trailers. -/
def fields (m : Message) : List (Bytes × Bytes) := m.lines.map HeaderLine.pair ++ m.body.trailers

/-- A message of which a request can hold everything. -/
structure Storable (m : Message) : Prop where
  path : m.target.head? = some (byte '/')
  names : (m.fields.map Prod.fst).Nodup
  value : ∀ f ∈ m.fields.getLast?, f.2 ≠ []
  length : m.text.length < intLimit

instance (m : Message) : Decidable m.Storable :=
  decidable_of_iff (m.target.head? = some (byte '/') ∧ (m.fields.map Prod.fst).Nodup ∧
      (∀ f ∈ m.fields.getLast?, f.2 ≠ []) ∧ m.text.length < intLimit)
    ⟨fun h => ⟨h.1, h.2.1, h.2.2.1, h.2.2.2⟩, fun h => ⟨h.1, h.2, h.3, h.4⟩⟩

/-- The request holds the message, and is complete. -/
structure StoredIn (m : Message) (r : HTTPRequest) : Prop where
  method : r.method = some m.method
  requestUrl : r.requestUrl = m.target
  requestPath : r.requestPath = pathText m.target
  queryString : r.queryString = queryText m.target
  fragment : r.fragment = fragmentText m.target
  headers : r.headers = m.fields
  body : r.body = m.body.content
  messageIsEnd : r.messageIsEnd = true

end Message

namespace HTTPRequest

open HttpParser

/-! ## What the callbacks do with a report -/

/-- What a callback that returns leaves, but for the mark of a final body. -/
def told (r : HTTPRequest) : Report → HTTPRequest
  | .data (.url method) text =>
    let url := r.requestUrl ++ text
    { r with
      method := some method
      requestUrl := url
      queryString := r.queryString ++ urlText .query url
      fragment := r.fragment ++ urlText .fragment url
      requestPath := r.requestPath ++ urlText .path url }
  | .data .headerField text => r.headerFieldCallBack text
  | .data .headerValue text => r.headerValueCallBack text
  | .data .body text => { r with body := r.body ++ text }
  | .notice (.headersComplete, _) => r.headerCompleteCallBack
  | .notice (.messageComplete, _) => r.messageCompleteCallBack
  | .notice _ => r

def unmarked (r : HTTPRequest) : HTTPRequest := { r with bodyIsFinal := false }

section Told

variable {r : HTTPRequest} {fs : List (Bytes × Bytes)} {name value : Bytes}

theorem unmarked_headerComplete (r : HTTPRequest) :
    r.headerCompleteCallBack.unmarked = r.unmarked.headerCompleteCallBack := by
  unfold headerCompleteCallBack unmarked
  dsimp only
  split <;> rfl

theorem unmarked_collect (r : HTTPRequest) (e : Event) :
    (r.collect e).unmarked = r.unmarked.told (report e) := by
  cases e with
  | data k p buf =>
      cases k with
      | headerField =>
          change (r.headerFieldCallBack buf).unmarked = r.unmarked.headerFieldCallBack buf
          unfold headerFieldCallBack unmarked
          dsimp only
          split <;> rfl
      | _ => rfl
  | notify n p =>
      cases n with
      | headersComplete => exact unmarked_headerComplete r
      | messageComplete =>
          exact congrArg (fun r : HTTPRequest => { r with messageIsEnd := true })
            (unmarked_headerComplete r)
      | _ => rfl

theorem unmarked_foldl (es : List Event) (r : HTTPRequest) :
    (es.foldl collect r).unmarked = (es.map report).foldl told r.unmarked := by
  induction es generalizing r with
  | nil => rfl
  | cons e es ih =>
      rw [List.foldl_cons, ih, unmarked_collect]
      rfl

/-! ## Headers -/

/-- A request without its headers. -/
def bare (r : HTTPRequest) : HTTPRequest :=
  { r with headers := [], lastFiledValue := ([], []), lastHeaderElement := .none }

/-- The headers `fs` have been told. The last of them may not be in the map yet. -/
inductive Gathered (r : HTTPRequest) : List (Bytes × Bytes) → Prop where
  | none (hr : r.NoHeader) : Gathered r []
  | some (fs : List (Bytes × Bytes)) (f : Bytes × Bytes) (hlast : r.lastFiledValue = f)
      (helement : r.lastHeaderElement = .value)
      (hheaders : r.headers = fs ∨ r.headers = fs ++ [f]) : Gathered r (fs ++ [f])

theorem Gathered.congr {r' : HTTPRequest} (h : r.Gathered fs) (hheaders : r'.headers = r.headers)
    (hlast : r'.lastFiledValue = r.lastFiledValue)
    (helement : r'.lastHeaderElement = r.lastHeaderElement) : r'.Gathered fs := by
  cases h with
  | none hr => exact .none ⟨hheaders.trans hr.headers, hlast.trans hr.lastFiledValue⟩
  | some fs f hf he hh => exact .some fs f (hlast.trans hf) (helement.trans he) (by rwa [hheaders])

theorem emplace_last {headers fs : List (Bytes × Bytes)} {f : Bytes × Bytes}
    (hnames : ((fs ++ [f]).map Prod.fst).Nodup) (h : headers = fs ∨ headers = fs ++ [f]) :
    emplace headers f = fs ++ [f] := by
  rcases h with rfl | rfl
  · apply emplace_of_notMem
    rw [List.map_append, List.nodup_append] at hnames
    intro hmem
    exact hnames.2.2 _ hmem f.1 (by simp) rfl
  · exact emplace_of_mem (by simp)

/-- The next header puts the one before it into the map. -/
theorem Gathered.field (h : r.Gathered fs) (hne : ∀ f ∈ fs, f.1 ≠ []) (hname : name ≠ [])
    (hnames : (fs.map Prod.fst).Nodup) :
    let r' := (r.told (.data .headerField name)).told (.data .headerValue value)
    r'.Gathered (fs ++ [(name, value)]) ∧ r'.bare = r.bare := by
  let field : HeaderField := ⟨[name], [value], by simp, by simp, by simpa using hname⟩
  have hpair : field.pair = (name, value) := by
    simp [field, HeaderField.pair, HeaderField.name, HeaderField.value]
  have hfield : (r.told (.data .headerField name)).told (.data .headerValue value) =
      r.collectField field := rfl
  dsimp only
  rw [hfield]
  cases h with
  | none hr =>
      rw [collectField_eq (.inr hr.lastFiledValue), hpair, hr.lastFiledValue, hr.headers]
      exact ⟨.some [] (name, value) rfl rfl (.inl rfl), rfl⟩
  | some fs f hlast helement hheaders =>
      have hlastName : r.lastFiledValue.1 ≠ [] := by
        rw [hlast]
        exact hne f (by simp)
      have hemplace := emplace_last hnames hheaders
      rw [collectField_eq (.inl (by rw [helement]; simp)), hpair, if_pos hlastName, hlast, hemplace]
      exact ⟨.some (fs ++ [f]) (name, value) rfl rfl (.inl rfl), rfl⟩

theorem Gathered.lines (ls : List HeaderLine) (h : r.Gathered fs) (hne : ∀ f ∈ fs, f.1 ≠ [])
    (hls : ∀ l ∈ ls, l.name ≠ []) (hnames : ((fs ++ ls.map HeaderLine.pair).map Prod.fst).Nodup) :
    let r' := (ls.flatMap HeaderLine.reports).foldl told r
    r'.Gathered (fs ++ ls.map HeaderLine.pair) ∧ r'.bare = r.bare := by
  induction ls generalizing r fs with
  | nil =>
      dsimp only
      rw [List.map_nil, List.append_nil]
      exact ⟨h, rfl⟩
  | cons l ls ih =>
      rw [List.forall_mem_cons] at hls
      have hfs : (fs.map Prod.fst).Nodup := by
        rw [List.map_append, List.nodup_append] at hnames
        exact hnames.1
      obtain ⟨hfirst, hbare⟩ :
          ((r.told (.data .headerField l.name)).told (.data .headerValue l.value)).Gathered
            (fs ++ [(l.name, l.value)]) ∧ _ := h.field hne hls.1 hfs
      have hsplit : fs ++ (l :: ls).map HeaderLine.pair =
          (fs ++ [(l.name, l.value)]) ++ ls.map HeaderLine.pair := by
        simp [HeaderLine.pair]
      rw [hsplit] at hnames ⊢
      have hne' : ∀ f ∈ fs ++ [(l.name, l.value)], f.1 ≠ [] := by
        intro f hf
        rcases List.mem_append.mp hf with hf | hf
        · exact hne f hf
        · rw [List.mem_singleton.mp hf]
          exact hls.1
      obtain ⟨hrest, hbare'⟩ := ih hfirst hne' hls.2 hnames
      exact ⟨hrest, hbare'.trans hbare⟩

theorem Gathered.complete (h : r.Gathered fs) (hnames : (fs.map Prod.fst).Nodup) :
    r.headerCompleteCallBack.Gathered fs ∧ r.headerCompleteCallBack.bare = r.bare ∧
      ((∀ f ∈ fs.getLast?, f.2 ≠ []) → r.headerCompleteCallBack.headers = fs) := by
  unfold headerCompleteCallBack
  cases h with
  | none hr =>
      rw [if_neg (by simp [hr.lastFiledValue])]
      exact ⟨.none hr, rfl, fun _ => hr.headers⟩
  | some fs f hlast helement hheaders =>
      have hemplace := emplace_last hnames hheaders
      by_cases hvalue : f.2 = []
      · rw [if_neg (by simp [hlast, hvalue])]
        refine ⟨.some fs f hlast helement hheaders, rfl, fun hall => absurd hvalue ?_⟩
        exact hall f (by simp)
      · rw [if_pos (by rwa [hlast])]
        rw [← hlast] at hemplace
        refine ⟨.some fs f hlast helement (.inr ?_), rfl, fun _ => ?_⟩ <;> rw [← hlast, hemplace]

/-! ## Bodies -/

theorem foldl_told_chunks (cs : List Bytes) (r : HTTPRequest) :
    (cs.flatMap chunkReports).foldl told r = { r with body := r.body ++ cs.flatten } := by
  induction cs generalizing r with
  | nil => simp
  | cons c cs ih =>
      rw [List.flatMap_cons, List.foldl_append, ih]
      simp [chunkReports, told]

theorem Gathered.body {b : MessageBody} (h : r.Gathered fs) (hne : ∀ f ∈ fs, f.1 ≠ [])
    (hb : b.Proper) (hnames : ((fs ++ b.trailers).map Prod.fst).Nodup) :
    let r' := b.reports.foldl told r
    r'.Gathered (fs ++ b.trailers) ∧ r'.bare = { r with body := r.body ++ b.content }.bare := by
  cases b with
  | empty =>
      dsimp only [MessageBody.trailers, MessageBody.content]
      rw [List.append_nil, List.append_nil]
      exact ⟨h, rfl⟩
  | sized content =>
      dsimp only [MessageBody.trailers, MessageBody.content]
      rw [List.append_nil]
      by_cases hcontent : content = []
      · subst hcontent
        rw [List.append_nil]
        exact ⟨h, rfl⟩
      · rw [show (MessageBody.sized content).reports = [.data .body content] from if_neg hcontent]
        exact ⟨h.congr rfl rfl rfl, rfl⟩
  | chunks cs trailers =>
      obtain ⟨-, htrailers, -⟩ := hb
      let r₁ : HTTPRequest := { r with body := r.body ++ cs.flatten }
      have hpairs : (trailers.map fun f => HeaderLine.field f.1 f.2).map HeaderLine.pair = trailers := by
        rw [List.map_map]
        exact List.map_id _
      have hfold : (MessageBody.chunks cs trailers).reports.foldl told r =
          ((trailers.map fun f => HeaderLine.field f.1 f.2).flatMap HeaderLine.reports).foldl told r₁ := by
        unfold MessageBody.reports
        rw [List.foldl_append, List.foldl_append, List.foldl_append, foldl_told_chunks]
        rfl
      have hlines := Gathered.lines (trailers.map fun f => HeaderLine.field f.1 f.2)
        (show r₁.Gathered fs from h.congr rfl rfl rfl) hne
        (by
          intro l hl
          obtain ⟨f, hf, rfl⟩ := List.mem_map.mp hl
          exact (htrailers f hf).1.ne_nil)
        (by rw [hpairs]; exact hnames)
      rw [hpairs] at hlines
      dsimp only
      rw [hfold]
      exact hlines

end Told

end HTTPRequest

/-! ## Messages -/

namespace Message

open HttpParser HTTPRequest

variable {m : Message}

theorem name_ne_nil {l : HeaderLine} (h : l.Proper) : l.name ≠ [] := by
  cases l with
  | field name value => exact h.1.ne_nil
  | contentLength n =>
      change bytes "Content-Length" ≠ []
      decide
  | _ => decide

theorem target_length_lt (m : Message) : m.target.length < 2 ^ 16 := by
  have hle := m.head_le
  unfold headText requestLine at hle
  simp only [List.length_append] at hle
  have hmax : maxHeaderSize / 2 < 2 ^ 16 := by decide
  omega

theorem target_live (m : Message) : Live .reqSpacesBeforeUrl m.target := by
  intro hdead
  have hends := m.target_ends
  rw [hdead] at hends
  cases hends

theorem Storable.exists_target (hm : m.Storable) : ∃ chs, m.target = byte '/' :: chs := by
  have hpath := hm.path
  cases htarget : m.target with
  | nil =>
      rw [htarget] at hpath
      cases hpath
  | cons ch chs =>
      rw [htarget] at hpath
      cases hpath
      exact ⟨chs, rfl⟩

/-- 16 bits are enough for every part of the target. -/
theorem Storable.urlText (hm : m.Storable) :
    urlText .path m.target = pathText m.target ∧ urlText .query m.target = queryText m.target ∧
      urlText .fragment m.target = fragmentText m.target := by
  have hlength := m.target_length_lt
  have hlive := m.target_live
  obtain ⟨chs, htarget⟩ := hm.exists_target
  rw [htarget] at hlength hlive ⊢
  have hshort : ∀ {text : Bytes} {off : Nat}, text <+: (byte '/' :: chs).drop off → off < 2 ^ 16 →
      storedText (byte '/' :: chs) off text = text := by
    intro text off hstands hoff
    rw [storedText_eq_iff hstands]
    refine .inr ⟨?_, .inl hoff⟩
    calc text.length ≤ ((byte '/' :: chs).drop off).length := hstands.length_le
      _ ≤ (byte '/' :: chs).length := by simp
      _ < 2 ^ 16 := hlength
  obtain ⟨hpath, hquery, hfragment⟩ := urlText_origin hlive
  refine ⟨hpath.trans ?_, hquery.trans ?_, hfragment.trans ?_⟩
  · exact hshort (pathText_stands _) (by decide)
  · by_cases hnil : queryText (byte '/' :: chs) = []
    · rw [hnil, storedText_nil]
    · refine hshort (queryText_stands _) (Nat.lt_of_le_of_lt ?_ hlength)
      have hpos : 0 < (queryText (byte '/' :: chs)).length := List.length_pos_iff.mpr hnil
      have hle := (queryText_stands (byte '/' :: chs)).length_le
      rw [List.length_drop] at hle
      omega
  · exact hshort (fragmentText_stands _) (by omega)

/-- What the callbacks collect of the reports of a message. -/
theorem Storable.foldl_told (hm : m.Storable) :
    m.StoredIn (m.reports.foldl told HTTPRequest.new) := by
  have hnames := hm.names
  unfold fields at hnames
  have hlinesNames : ((m.lines.map HeaderLine.pair).map Prod.fst).Nodup := by
    rw [List.map_append, List.nodup_append] at hnames
    exact hnames.1
  have hne : ∀ l ∈ m.lines, l.name ≠ [] := fun l hl => name_ne_nil (m.lines_proper l hl)
  let r₁ : HTTPRequest := HTTPRequest.new.told (.data (.url m.method) m.target)
  let r₂ := (m.lines.flatMap HeaderLine.reports).foldl told r₁
  let r₄ := m.body.reports.foldl told r₂.headerCompleteCallBack
  have hfold : m.reports.foldl told HTTPRequest.new = r₄.messageCompleteCallBack := by
    unfold Message.reports
    rw [List.foldl_append, List.foldl_append, List.foldl_append, List.foldl_append]
    rfl
  have hgathered₁ : r₁.Gathered [] := .none ⟨rfl, rfl⟩
  obtain ⟨hgathered₂, hbare₂⟩ := hgathered₁.lines m.lines (by simp) hne hlinesNames
  change r₂.Gathered _ at hgathered₂
  change r₂.bare = _ at hbare₂
  obtain ⟨hgathered₃, hbare₃, -⟩ := hgathered₂.complete hlinesNames
  obtain ⟨hgathered₄, hbare₄⟩ := hgathered₃.body
    (by
      intro f hf
      obtain ⟨l, hl, rfl⟩ := List.mem_map.mp hf
      exact hne l hl)
    m.body_proper hnames
  change r₄.Gathered m.fields at hgathered₄
  change r₄.bare = _ at hbare₄
  obtain ⟨-, hbare₅, hheaders⟩ := hgathered₄.complete hm.names
  have hbody : r₂.headerCompleteCallBack.body = [] :=
    (congrArg HTTPRequest.body hbare₃).trans (congrArg HTTPRequest.body hbare₂)
  have hbare : r₄.headerCompleteCallBack.bare = { r₁ with body := m.body.content }.bare := by
    rw [hbare₅, hbare₄, hbody]
    exact congrArg (fun r : HTTPRequest => { r with body := m.body.content }) (hbare₃.trans hbare₂)
  obtain ⟨hpath, hquery, hfragment⟩ := hm.urlText
  rw [hfold]
  exact
    { method := congrArg HTTPRequest.method hbare
      requestUrl := congrArg HTTPRequest.requestUrl hbare
      requestPath := (congrArg HTTPRequest.requestPath hbare).trans hpath
      queryString := (congrArg HTTPRequest.queryString hbare).trans hquery
      fragment := (congrArg HTTPRequest.fragment hbare).trans hfragment
      headers := hheaders hm.value
      body := congrArg HTTPRequest.body hbare
      messageIsEnd := rfl }

/-- The mark of a final body is no part of what is stored. -/
theorem StoredIn.of_unmarked {r : HTTPRequest} (h : m.StoredIn r.unmarked) : m.StoredIn r :=
  ⟨h.method, h.requestUrl, h.requestPath, h.queryString, h.fragment, h.headers, h.body, h.messageIsEnd⟩

theorem StoredIn.same {r r' : HTTPRequest} (h : m.StoredIn r) (h' : m.StoredIn r') :
    HTTPContext.SameRequest r r' :=
  { method := h'.method.trans h.method.symm
    requestUrl := h'.requestUrl.trans h.requestUrl.symm
    requestPath := h'.requestPath.trans h.requestPath.symm
    queryString := h'.queryString.trans h.queryString.symm
    fragment := h'.fragment.trans h.fragment.symm
    headers := h'.headers.trans h.headers.symm
    body := h'.body.trans h.body.symm
    messageIsEnd := h'.messageIsEnd.trans h.messageIsEnd.symm }

theorem StoredIn.of_same {r r' : HTTPRequest} (h : m.StoredIn r) (hsame : HTTPContext.SameRequest r r') :
    m.StoredIn r' :=
  { method := hsame.method.trans h.method
    requestUrl := hsame.requestUrl.trans h.requestUrl
    requestPath := hsame.requestPath.trans h.requestPath
    queryString := hsame.queryString.trans h.queryString
    fragment := hsame.fragment.trans h.fragment
    headers := hsame.headers.trans h.headers
    body := hsame.body.trans h.body
    messageIsEnd := hsame.messageIsEnd.trans h.messageIsEnd }

theorem Storable.foldl_collect (hm : m.Storable) :
    m.StoredIn ((execute .init m.text).events.foldl collect .new) := by
  apply StoredIn.of_unmarked
  rw [unmarked_foldl, (complete_text m).2]
  exact hm.foldl_told

/-! ### The URL -/

/-- The URLs that `urlCallBack` splits, as reports tell them. -/
def toldUrls (url : Bytes) : List Report → List Bytes
  | [] => []
  | .data (.url _) text :: rs => (url ++ text) :: toldUrls (url ++ text) rs
  | _ :: rs => toldUrls url rs

theorem splitUrls_eq (es : List Event) (url : Bytes) :
    splitUrls url es = toldUrls url (es.map report) := by
  induction es generalizing url with
  | nil => rfl
  | cons e es ih =>
      cases e with
      | notify n p => exact ih url
      | data k p text =>
          cases k with
          | url => exact congrArg _ (ih (url ++ text))
          | _ => exact ih url

theorem toldUrls_quiet {rs : List Report} (h : ∀ method text, .data (.url method) text ∉ rs)
    (url : Bytes) : toldUrls url rs = [] := by
  induction rs with
  | nil => rfl
  | cons r rs ih =>
      have hrest := ih fun method text hmem => h method text (List.mem_cons_of_mem _ hmem)
      cases r with
      | notice t => exact hrest
      | data d text =>
          cases d with
          | url method => exact absurd List.mem_cons_self (h method text)
          | _ => exact hrest

theorem url_notMem_lines (ls : List HeaderLine) (method : HttpMethod) (text : Bytes) :
    .data (.url method) text ∉ ls.flatMap HeaderLine.reports := by
  simp [HeaderLine.reports]

theorem url_notMem_body (b : MessageBody) (method : HttpMethod) (text : Bytes) :
    .data (.url method) text ∉ b.reports := by
  cases b with
  | empty => simp [MessageBody.reports]
  | sized content =>
      by_cases hcontent : content = []
      · rw [show (MessageBody.sized content).reports = [] from if_pos hcontent]
        simp
      · rw [show (MessageBody.sized content).reports = [.data .body content] from if_neg hcontent]
        simp
  | chunks cs trailers =>
      have hlines := url_notMem_lines (trailers.map fun f => HeaderLine.field f.1 f.2) method text
      unfold MessageBody.reports
      simp only [List.mem_append, hlines]
      simp [chunkReports]

theorem urlOf_text (m : Message) : urlOf m.text = m.target := by
  obtain ⟨hcomplete, hevents⟩ := complete_text m
  have hurls := hcomplete.urls
  rw [splitUrls_eq, hevents] at hurls
  have hrest : toldUrls m.target (m.lines.flatMap HeaderLine.reports ++
      [.notice (.headersComplete, some m.head)] ++ m.body.reports ++
      [.notice (.messageComplete, none)]) = [] := by
    apply toldUrls_quiet
    intro method text
    simp [url_notMem_body, HeaderLine.reports]
  have htold : toldUrls [] m.reports = [m.target] := by
    unfold Message.reports
    simp only [List.append_assoc] at hrest ⊢
    exact congrArg (m.target :: ·) hrest
  rw [htold] at hurls
  exact (List.cons.inj hurls).1.symm

theorem Storable.parseUrl_isSome (hm : m.Storable) : (parseUrl m.target false).isSome = true := by
  have hlive := m.target_live
  obtain ⟨chs, htarget⟩ := hm.exists_target
  rw [htarget] at hlive ⊢
  rw [parseUrl_origin hlive]
  rfl

end Message

namespace HTTPContext

open HttpParser

variable {m : Message} {segments : List Bytes}

/-- The URLs that are put together of the target, the last of which is all of it. -/
theorem exists_opens (htext : segments.flatten = m.text) :
    ∃ opens, LinePhase.newlines.allUrls segments = opens ++ [urlOf segments.flatten] ∧
      (CutsBare segments ↔ ∀ url ∈ opens, Bare url) := by
  obtain ⟨hcomplete, -⟩ := complete_text m
  rw [← htext] at hcomplete
  obtain ⟨url, hdone⟩ := hcomplete.done
  obtain ⟨opens, hopens, hmem⟩ := allUrls_eq (by simp) hdone
  refine ⟨opens, ?_, cuts_iff hmem⟩
  rw [hopens, urlOf, hdone]
  rfl

/-- If no cut is inside of the target, the URLs can be split, and the callbacks collect
    what they collect of the text in one piece. -/
theorem parseAll_collected (hm : m.Storable) (hsegments : ∀ data ∈ segments, data ≠ [])
    (htext : segments.flatten = m.text) (hcuts : CutsBare segments) :
    ∃ c, HTTPContext.new.parseAll segments = .ok c ∧ m.StoredIn c.request := by
  obtain ⟨opens, hopens, hbare⟩ := exists_opens htext
  obtain ⟨hcomplete, -⟩ := complete_text m
  have hstored := hm.foldl_collect
  rw [← htext] at hcomplete hstored
  have haccepted : ∀ url ∈ LinePhase.newlines.allUrls segments, (parseUrl url false).isSome = true := by
    intro url hurl
    rw [hopens] at hurl
    rcases List.mem_append.mp hurl with hurl | hurl
    · exact (hbare.mp hcuts url hurl).accepted
    · rw [List.mem_singleton.mp hurl, htext, Message.urlOf_text]
      exact hm.parseUrl_isSome
  have hlen : segments.flatten.length < intLimit := by
    rw [htext]
    exact hm.length
  have hsame := (sameRequest_iff hcomplete hsegments hopens).mpr fun url hurl =>
    have h := hbare.mp hcuts url hurl
    ⟨h.path, h.query, h.fragment⟩
  exact ⟨_, (parseAll_complete hcomplete hlen hsegments).trans (if_pos haccepted), hstored.of_same hsame⟩

/-- A message is stored as a whole, whatever segments it comes in, exactly if no cut is
    inside of the target. -/
theorem parseAll_text_iff (hm : m.Storable) (hsegments : ∀ data ∈ segments, data ≠ [])
    (htext : segments.flatten = m.text) :
    (∃ c, HTTPContext.new.parseAll segments = .ok c ∧ m.StoredIn c.request) ↔ CutsBare segments := by
  refine ⟨?_, parseAll_collected hm hsegments htext⟩
  rintro ⟨c, hparse, hstored⟩
  obtain ⟨opens, hopens, hbare⟩ := exists_opens htext
  obtain ⟨hcomplete, -⟩ := complete_text m
  have hwhole := hm.foldl_collect
  rw [← htext] at hcomplete hwhole
  have hlen : segments.flatten.length < intLimit := by
    rw [htext]
    exact hm.length
  rw [parseAll_complete hcomplete hlen hsegments] at hparse
  split at hparse
  · rename_i haccepted
    cases hparse
    rw [hbare]
    intro url hurl
    obtain ⟨hpath, hquery, hfragment⟩ :=
      (sameRequest_iff hcomplete hsegments hopens).mp (hwhole.same hstored) url hurl
    exact ⟨haccepted url (by simp [hopens, hurl]), hpath, hquery, hfragment⟩
  · cases hparse

/-- Cuts in the method, in front of the target, in a header and in a chunk size. -/
theorem parseAll_text_iff_chunked :
    ∃ c, HTTPContext.new.parseAll [bytes "PO", bytes "ST ", bytes "/a?b HTTP/1.1\r\nHost: c\r\nTransfer-En",
        bytes "coding: chunked\r\n\r\n1", bytes "\r\nd\r\n0\r\nE: f\r\n\r\n"] = .ok c ∧
      chunkedRequest.StoredIn c.request :=
  (parseAll_text_iff (by decide +kernel) (by decide) (by decide +kernel)).mpr (by decide +kernel)

end HTTPContext

end QGServer
