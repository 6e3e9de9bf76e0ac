-- SUMMARY: What urlCallBack cuts out of a URL that begins with a slash, and when 16 bits are enough for it.
import QGServer.HttpParser.AcceptedUrl
import QGServer.Http.Callbacks

/-!
# The parts of a URL

`urlCallBack` cuts the path, the query and the fragment out of the URL by offsets
and lengths of 16 bits. A header may be five times as long as one of these can
count.
-/

namespace QGServer

open HttpParser

/-! ## Offsets of 16 bits -/

/-- What is cut out for a text at `off`. -/
def storedText (url : Bytes) (off : Nat) (text : Bytes) : Bytes :=
  (url.drop (toUint16 off)).take (toUint16 text.length)

/-- The length of a text fits in 16 bits, and so does its offset, or the text also
    stands where the lower 16 bits of the offset point to. -/
structure Addressable (url : Bytes) (off : Nat) (text : Bytes) : Prop where
  length : text.length < 2 ^ 16
  place : off < 2 ^ 16 ∨ text <+: url.drop (off % 2 ^ 16)

section Stored

variable {url text : Bytes} {off : Nat}

theorem storedText_nil : storedText url off [] = [] := List.take_zero

theorem storedText_eq_iff (hat : text <+: url.drop off) :
    storedText url off text = text ↔ text = [] ∨ Addressable url off text := by
  unfold storedText toUint16
  constructor
  · intro h
    by_cases hne : text = []
    · exact .inl hne
    · have hlength : text.length < 2 ^ 16 := by
        calc text.length = ((url.drop (off % 2 ^ 16)).take (text.length % 2 ^ 16)).length := by rw [h]
          _ ≤ text.length % 2 ^ 16 := List.length_take_le _ _
          _ < 2 ^ 16 := Nat.mod_lt _ (by decide)
      exact .inr ⟨hlength, .inr (h ▸ List.take_prefix _ _)⟩
  · rintro (rfl | ⟨hlength, hplace⟩)
    · exact storedText_nil
    · have hprefix : text <+: url.drop (off % 2 ^ 16) := by
        refine hplace.elim (fun hoff => ?_) id
        rwa [Nat.mod_eq_of_lt hoff]
      rw [Nat.mod_eq_of_lt hlength]
      exact (List.prefix_iff_eq_take.mp hprefix).symm

theorem pathText_stands (url : Bytes) : pathText url <+: url.drop 0 := List.takeWhile_prefix _

theorem queryText_stands (url : Bytes) :
    queryText url <+: url.drop ((pathText url).length + 1) := by
  unfold queryText
  dsimp only
  split_ifs
  · rw [List.tail_drop]
    exact List.takeWhile_prefix _
  · exact List.nil_prefix

theorem fragmentText_stands (url : Bytes) :
    fragmentText url <+: url.drop (url.length - (fragmentText url).length) := by
  have hsuffix : fragmentText url <:+ url := by
    unfold fragmentText
    exact (List.dropWhile_suffix _).trans ((List.tail_suffix _).trans (List.dropWhile_suffix _))
  rw [← List.suffix_iff_eq_drop.mp hsuffix]

end Stored

namespace HTTPRequest

/-! ## The property -/

/-- The parts of the URL are in the request. -/
structure Decomposed (url : Bytes) (r : HTTPRequest) : Prop where
  path : r.requestPath = pathText url
  query : r.queryString = queryText url
  fragment : r.fragment = fragmentText url

/-- 16 bits are enough for the parts of the URL. -/
structure FitsFields (url : Bytes) : Prop where
  path : (pathText url).length < 2 ^ 16
  query : queryText url = [] ∨ Addressable url ((pathText url).length + 1) (queryText url)
  fragment : fragmentText url = [] ∨
    Addressable url (url.length - (fragmentText url).length) (fragmentText url)

section Parts

variable {data url chs : Bytes} {p : HttpParser}

theorem text_span {f : UrlField} {off : Nat} {text : Bytes} {u : HttpParserUrl}
    (h : u f = if text = [] then none else some ⟨toUint16 off, toUint16 text.length⟩) :
    ((u f).map fun span => span.text url).getD [] = storedText url off text := by
  rw [h]
  split_ifs with hnil
  · rw [hnil, storedText_nil]
    rfl
  · rfl

/-- What the request gets of a URL that begins with a slash. -/
theorem urlText_origin (hlive : Live .reqSpacesBeforeUrl (byte '/' :: chs)) :
    let url := byte '/' :: chs
    urlText .path url = storedText url 0 (pathText url) ∧
      urlText .query url = storedText url ((pathText url).length + 1) (queryText url) ∧
      urlText .fragment url =
        storedText url (url.length - (fragmentText url).length) (fragmentText url) := by
  dsimp only
  unfold urlText
  rw [parseUrl_origin hlive]
  dsimp only
  refine ⟨text_span ?_, text_span ?_, text_span ?_⟩
  all_goals unfold originFields
  · rw [HttpParserUrl.addField_ne (by decide), HttpParserUrl.addField_ne (by decide),
      HttpParserUrl.addField_self rfl]
  · rw [HttpParserUrl.addField_ne (by decide), HttpParserUrl.addField_self]
    rw [HttpParserUrl.addField_ne (by decide)]
    rfl
  · rw [HttpParserUrl.addField_self]
    rw [HttpParserUrl.addField_ne (by decide), HttpParserUrl.addField_ne (by decide)]
    rfl

theorem live_origin {s : ParserState} (h : UrlRead s (byte '/' :: chs)) :
    Live .reqSpacesBeforeUrl (byte '/' :: chs) := by
  obtain ⟨s₀, hs₀, hstate⟩ := h.state
  have hfirst : parseUrlChar s₀ (byte '/') = parseUrlChar .reqSpacesBeforeUrl (byte '/') := by
    rcases hs₀ with rfl | rfl <;> decide
  unfold Live
  rw [List.foldl_cons, ← hfirst]
  exact fun hdead => h.live (hstate.symm.trans hdead)

theorem urlCallBack_origin (hlive : Live .reqSpacesBeforeUrl (byte '/' :: chs)) :
    ∃ r, new.urlCallBack p (byte '/' :: chs) = .ok r ∧
      r.requestPath = urlText .path (byte '/' :: chs) ∧
      r.queryString = urlText .query (byte '/' :: chs) ∧
      r.fragment = urlText .fragment (byte '/' :: chs) := by
  have hsome : (parseUrl (new.requestUrl ++ byte '/' :: chs) false).isSome = true := by
    change (parseUrl (byte '/' :: chs) false).isSome = true
    rw [parseUrl_origin hlive]
    rfl
  refine ⟨_, urlCallBack_eq.trans (if_pos hsome), ?_, ?_, ?_⟩ <;> rfl

theorem decomposes_iff (hlive : Live .reqSpacesBeforeUrl (byte '/' :: chs)) :
    (∃ r, new.urlCallBack p (byte '/' :: chs) = .ok r ∧ Decomposed (byte '/' :: chs) r) ↔
      FitsFields (byte '/' :: chs) := by
  obtain ⟨hpath, hquery, hfragment⟩ := urlText_origin hlive
  obtain ⟨r, hr, hrpath, hrquery, hrfragment⟩ := @urlCallBack_origin chs p hlive
  have hne : pathText (byte '/' :: chs) ≠ [] := by
    rw [pathText_cons (by decide) (by decide)]
    exact List.cons_ne_nil _ _
  have hiff : Decomposed (byte '/' :: chs) r ↔ FitsFields (byte '/' :: chs) := by
    constructor
    · rintro ⟨hp, hq, hf⟩
      rw [hrpath, hpath, storedText_eq_iff (pathText_stands _)] at hp
      rw [hrquery, hquery, storedText_eq_iff (queryText_stands _)] at hq
      rw [hrfragment, hfragment, storedText_eq_iff (fragmentText_stands _)] at hf
      exact ⟨(hp.resolve_left hne).length, hq, hf⟩
    · rintro ⟨hp, hq, hf⟩
      refine ⟨?_, ?_, ?_⟩
      · rw [hrpath, hpath, storedText_eq_iff (pathText_stands _)]
        exact .inr ⟨hp, .inl (by decide)⟩
      · rw [hrquery, hquery, storedText_eq_iff (queryText_stands _)]
        exact hq
      · rw [hrfragment, hfragment, storedText_eq_iff (fragmentText_stands _)]
        exact hf
  rw [← hiff]
  constructor
  · rintro ⟨r', hr', hdecomposed⟩
    rw [hr] at hr'
    cases hr'
    exact hdecomposed
  · exact fun hdecomposed => ⟨r, hr, hdecomposed⟩

/-- A URL that the parser accepts and reports in one piece is decomposed exactly if
    16 bits are enough for its parts. -/
theorem decomposed_iff (haccepts : Accepts .init data)
    (hurl : .data .url p url ∈ (execute .init data).events) (hslash : url.head? = some (byte '/')) :
    (∃ r, new.urlCallBack p url = .ok r ∧ Decomposed url r) ↔ FitsFields url := by
  obtain ⟨s, hread⟩ := urlRead_of_event haccepts hurl
  obtain ⟨chs, rfl⟩ : ∃ chs, url = byte '/' :: chs := by
    cases url with
    | nil => cases hslash
    | cons ch chs =>
        cases hslash
        exact ⟨chs, rfl⟩
  exact decomposes_iff (live_origin hread)

/-- The reports hold the text as one of a URL. -/
def reportsText (text : Bytes) : Event → Bool
  | .data .url _ t => t = text
  | _ => false

theorem exists_of_reportsText {text : Bytes} {es : List Event} (h : es.any (reportsText text) = true) :
    ∃ q, .data .url q text ∈ es := by
  obtain ⟨e, he, hreports⟩ := List.any_eq_true.mp h
  cases e with
  | notify n q => cases hreports
  | data k q t =>
      cases k with
      | url =>
          rw [← of_decide_eq_true hreports]
          exact ⟨q, he⟩
      | _ => cases hreports

/-- A short URL with a query and a fragment. -/
theorem decomposed_iff_short :
    ∃ q r, new.urlCallBack q (bytes "/a?b##c") = .ok r ∧ Decomposed (bytes "/a?b##c") r := by
  have haccepts : Accepts .init (bytes "GET /a?b##c HTTP/1.1\r\n\r\n") := by decide +kernel
  have hreports : (execute .init (bytes "GET /a?b##c HTTP/1.1\r\n\r\n")).events.any
      (reportsText (bytes "/a?b##c")) = true := by decide +kernel
  obtain ⟨q, hurl⟩ := exists_of_reportsText hreports
  have hfits : FitsFields (bytes "/a?b##c") :=
    ⟨by decide, .inr ⟨by decide, .inl (by decide)⟩, .inr ⟨by decide, .inl (by decide)⟩⟩
  exact ⟨q, (decomposed_iff haccepts hurl (by decide)).mpr hfits⟩

theorem pathText_letters (n : Nat) :
    pathText (byte '/' :: List.replicate n (byte 'a')) = byte '/' :: List.replicate n (byte 'a') := by
  rw [pathText_cons (by decide) (by decide)]
  unfold pathText
  rw [List.takeWhile_replicate, if_pos (by decide)]

/-- The length of a path of 2¹⁶ + 1 characters is stored as 1. -/
theorem not_decomposed :
    ¬ ∀ (data url : Bytes) (p : HttpParser), Accepts .init data →
      .data .url p url ∈ (execute .init data).events → url.head? = some (byte '/') →
      ∃ r, new.urlCallBack p url = .ok r ∧ Decomposed url r := by
  intro hclaim
  obtain ⟨n, hn⟩ : ∃ n, n = 2 ^ 16 := ⟨_, rfl⟩
  obtain ⟨haccepts, q, hurl⟩ := accepts_longUrl (scan_letters hn)
  obtain ⟨s, hread⟩ := urlRead_of_event haccepts hurl
  have hfits := (decomposes_iff (live_origin hread)).mp (hclaim _ _ q haccepts hurl rfl)
  have hpath := hfits.path
  rw [pathText_letters, List.length_cons, List.length_replicate, hn] at hpath
  exact absurd hpath (by decide)

end Parts

end HTTPRequest

end QGServer
