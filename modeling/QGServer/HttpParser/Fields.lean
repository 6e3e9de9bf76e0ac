-- SUMMARY: The parts of a URL that begins with a slash, and the fields that http_parser_parse_url finds in it.
import QGServer.HttpParser.Url

/-!
# Fields of a URL

The character machine goes through the path, the query and the fragment of a URL
in this order. Each field that is not empty begins where its text does, and has
its length, both as far as 16 bits hold them.
-/

namespace QGServer

/-! ## The parts of a URL -/

/-- The longest prefix without `?` and `#`. -/
def pathText (url : Bytes) : Bytes := url.takeWhile fun ch => ch ≠ byte '?' && ch ≠ byte '#'

/-- The text behind the first `?`, if no `#` comes before it, up to the next `#`. -/
def queryText (url : Bytes) : Bytes :=
  let rest := url.drop (pathText url).length
  if rest.head? = some (byte '?') then rest.tail.takeWhile (· ≠ byte '#') else []

/-- The text behind the first `#`, without the `#` that it begins with. -/
def fragmentText (url : Bytes) : Bytes :=
  (url.dropWhile (· ≠ byte '#')).tail.dropWhile (· = byte '#')

section Texts

variable {ch : UInt8} {url : Bytes}

theorem pathText_cons (hquery : ch ≠ byte '?') (hfragment : ch ≠ byte '#') :
    pathText (ch :: url) = ch :: pathText url := by
  simp [pathText, hquery, hfragment]

theorem queryText_cons (hquery : ch ≠ byte '?') (hfragment : ch ≠ byte '#') :
    queryText (ch :: url) = queryText url := by
  unfold queryText
  rw [pathText_cons hquery hfragment]
  rfl

theorem fragmentText_cons (hfragment : ch ≠ byte '#') :
    fragmentText (ch :: url) = fragmentText url := by
  simp [fragmentText, hfragment]

theorem texts_question :
    pathText (byte '?' :: url) = [] ∧ queryText (byte '?' :: url) = url.takeWhile (· ≠ byte '#') := by
  have hpath : pathText (byte '?' :: url) = [] := by simp [pathText]
  refine ⟨hpath, ?_⟩
  simp [queryText, hpath]

theorem texts_hash :
    pathText (byte '#' :: url) = [] ∧ queryText (byte '#' :: url) = [] ∧
      fragmentText (byte '#' :: url) = url.dropWhile (· = byte '#') := by
  have hpath : pathText (byte '#' :: url) = [] := by simp [pathText]
  have hne : byte '#' ≠ byte '?' := by decide
  refine ⟨hpath, ?_, ?_⟩
  · simp [queryText, hpath, hne]
  · simp [fragmentText]

end Texts

/-! ## The character machine -/

/-- The machine gets through the characters. -/
def Live (s : ParserState) (chs : Bytes) : Prop := chs.foldl parseUrlChar s ≠ .dead

section Machine

variable {s : ParserState} {ch : UInt8} {chs : Bytes}

theorem parseUrlChar_dead : parseUrlChar .dead ch = .dead := ite_self ParserState.dead

theorem foldl_dead (chs : Bytes) : chs.foldl parseUrlChar .dead = .dead := by
  induction chs with
  | nil => rfl
  | cons ch chs ih => rw [List.foldl_cons, parseUrlChar_dead, ih]

theorem Live.head (h : Live s (ch :: chs)) : parseUrlChar s ch ≠ .dead := by
  intro hdead
  unfold Live at h
  rw [List.foldl_cons, hdead, foldl_dead] at h
  exact h rfl

theorem Live.tail (h : Live s (ch :: chs)) : Live (parseUrlChar s ch) chs := h

/-- A machine that goes on has passed the test for blanks. -/
theorem not_blank (h : parseUrlChar s ch ≠ .dead) :
    ¬ (ch = byte ' ' || ch = CR || ch = LF || ch = 9 || ch = 12) = true :=
  fun hblank => h (if_pos hblank)

/-- The last branch of a state leads nowhere. -/
theorem of_ite_dead {c : Prop} [Decidable c] {s' : ParserState}
    (h : (if c then s' else .dead) ≠ .dead) : (if c then s' else .dead) = s' := by
  by_cases hc : c
  · exact if_pos hc
  · exact absurd (if_neg hc) h

theorem parseUrlChar_path (h : parseUrlChar .reqPath ch ≠ .dead) :
    parseUrlChar .reqPath ch =
      if ch = byte '?' then .reqQueryStringStart
      else if ch = byte '#' then .reqFragmentStart
      else .reqPath := by
  have hquery : parseUrlChar .reqPath (byte '?') = .reqQueryStringStart := by decide
  have hfragment : parseUrlChar .reqPath (byte '#') = .reqFragmentStart := by decide
  have hblank := not_blank h
  split_ifs with hch hch'
  · rw [hch, hquery]
  · rw [hch', hfragment]
  · unfold parseUrlChar at h ⊢
    rw [if_neg hblank] at h ⊢
    dsimp only at h ⊢
    rw [if_neg hch, if_neg hch'] at h ⊢
    exact of_ite_dead h

theorem parseUrlChar_query (hs : s = .reqQueryStringStart ∨ s = .reqQueryString)
    (h : parseUrlChar s ch ≠ .dead) :
    parseUrlChar s ch = if ch = byte '#' then .reqFragmentStart else .reqQueryString := by
  have hfragment : parseUrlChar s (byte '#') = .reqFragmentStart := by
    rcases hs with rfl | rfl <;> decide
  have hblank := not_blank h
  split_ifs with hch
  · rw [hch, hfragment]
  · rcases hs with rfl | rfl
    all_goals
      unfold parseUrlChar at h ⊢
      rw [if_neg hblank] at h ⊢
      dsimp only at h ⊢
      rw [if_neg hch] at h ⊢
      by_cases hurl : isUrlChar ch = true
      · rw [if_pos hurl]
      · rw [if_neg hurl] at h ⊢
        exact of_ite_dead h

theorem parseUrlChar_fragmentStart (h : parseUrlChar .reqFragmentStart ch ≠ .dead) :
    parseUrlChar .reqFragmentStart ch = if ch = byte '#' then .reqFragmentStart else .reqFragment := by
  have hfragment : parseUrlChar .reqFragmentStart (byte '#') = .reqFragmentStart := by decide
  have hblank := not_blank h
  split_ifs with hch
  · rw [hch, hfragment]
  · unfold parseUrlChar at h ⊢
    rw [if_neg hblank] at h ⊢
    dsimp only at h ⊢
    rw [if_neg hch] at h ⊢
    by_cases hurl : isUrlChar ch = true
    · rw [if_pos hurl]
    · rw [if_neg hurl] at h ⊢
      exact of_ite_dead h

theorem parseUrlChar_fragment (h : parseUrlChar .reqFragment ch ≠ .dead) :
    parseUrlChar .reqFragment ch = .reqFragment := by
  have hblank := not_blank h
  unfold parseUrlChar at h ⊢
  rw [if_neg hblank] at h ⊢
  dsimp only at h ⊢
  exact of_ite_dead h

end Machine

/-! ## The loop -/

namespace HttpParserUrl

/-- A field of the given text, at position `i`. -/
def addField (u : HttpParserUrl) (f : UrlField) (i : Nat) (text : Bytes) : HttpParserUrl :=
  if text = [] then u else Function.update u f (some ⟨toUint16 i, toUint16 text.length⟩)

@[simp] theorem addField_nil (u : HttpParserUrl) (f : UrlField) (i : Nat) : u.addField f i [] = u :=
  if_pos rfl

theorem addField_ne {u : HttpParserUrl} {f g : UrlField} (h : g ≠ f) (i : Nat) (text : Bytes) :
    u.addField f i text g = u g := by
  unfold addField
  split
  · rfl
  · exact Function.update_of_ne h _ _

theorem addField_self {u : HttpParserUrl} {f : UrlField} (h : u f = none) (i : Nat) (text : Bytes) :
    u.addField f i text f =
      if text = [] then none else some ⟨toUint16 i, toUint16 text.length⟩ := by
  unfold addField
  split
  · exact h
  · exact Function.update_self ..

theorem update_same {u : HttpParserUrl} {f : UrlField} {span : UrlSpan} (h : u f = some span) :
    Function.update u f (some span) = u := by
  rw [← h, Function.update_eq_self]

theorem begin_self (u : HttpParserUrl) (f : UrlField) (i : Nat) :
    u.begin f i f = some ⟨toUint16 i, toUint16 1⟩ := Function.update_self ..

/-- A field that begins and grows is the text that it grew to. -/
theorem update_begin (u : HttpParserUrl) (f : UrlField) (i : Nat) (ch : UInt8) (chs : Bytes) :
    Function.update (u.begin f i) f (some ⟨toUint16 i, toUint16 (1 + chs.length)⟩) =
      u.addField f i (ch :: chs) := by
  unfold HttpParserUrl.begin addField
  rw [Function.update_idem, if_neg (List.cons_ne_nil _ _), List.length_cons, Nat.add_comm]

end HttpParserUrl

section Loop

open HttpParserUrl

variable {s s' : ParserState} {ch : UInt8} {chs : Bytes} {i n : Nat} {off : Nat}
  {old : Option UrlField} {f : UrlField} {found : Bool} {u : HttpParserUrl}

theorem toUint16_succ (n : Nat) : toUint16 (toUint16 n + 1) = toUint16 (n + 1) :=
  Nat.mod_add_mod n (2 ^ 16) 1

theorem parseUrlLoop_delimiter (hs : parseUrlChar s ch = s') (hlive : s' ≠ .dead)
    (hfield : s'.urlField = none) :
    parseUrlLoop (ch :: chs) i s old found u = parseUrlLoop chs (i + 1) s' old found u := by
  rw [parseUrlLoop, hs]
  simp only [hlive, hfield, if_false]

theorem parseUrlLoop_begin (hs : parseUrlChar s ch = s') (hlive : s' ≠ .dead)
    (hat : s' ≠ .reqServerWithAt) (hfield : s'.urlField = some f) (hold : old ≠ some f) :
    parseUrlLoop (ch :: chs) i s old found u =
      parseUrlLoop chs (i + 1) s' (some f) found (u.begin f i) := by
  rw [parseUrlLoop, hs]
  simp only [hlive, hfield, hold, hat, if_false, decide_false, Bool.or_false]

theorem parseUrlLoop_grow (hs : parseUrlChar s ch = s') (hlive : s' ≠ .dead)
    (hat : s' ≠ .reqServerWithAt) (hfield : s'.urlField = some f)
    (hu : u f = some ⟨off, toUint16 n⟩) :
    parseUrlLoop (ch :: chs) i s (some f) found u =
      parseUrlLoop chs (i + 1) s' (some f) found
        (Function.update u f (some ⟨off, toUint16 (n + 1)⟩)) := by
  rw [parseUrlLoop, hs]
  simp only [hlive, hfield, hat, if_false, if_true, decide_false, Bool.or_false]
  unfold HttpParserUrl.grow
  rw [hu, Option.map_some, toUint16_succ]

/-- The fragment goes to the end. -/
theorem parseUrlLoop_fragment (hlive : Live .reqFragment chs)
    (hu : u .fragment = some ⟨off, toUint16 n⟩) :
    parseUrlLoop chs i .reqFragment (some .fragment) found u =
      some (Function.update u .fragment (some ⟨off, toUint16 (n + chs.length)⟩), found) := by
  induction chs generalizing i n u with
  | nil =>
      rw [parseUrlLoop, List.length_nil, Nat.add_zero, update_same hu]
  | cons ch chs ih =>
      have hs := parseUrlChar_fragment hlive.head
      have hrest := hlive.tail
      rw [hs] at hrest
      rw [parseUrlLoop_grow hs (by decide) (by decide) rfl hu,
        ih hrest (Function.update_self ..), Function.update_idem, List.length_cons,
        Nat.add_right_comm n 1, Nat.add_assoc]

/-- Behind a `#` the others are skipped. -/
theorem parseUrlLoop_fragmentStart (hlive : Live .reqFragmentStart chs)
    (hold : old ≠ some .fragment) :
    parseUrlLoop chs i .reqFragmentStart old found u =
      some (u.addField .fragment (i + chs.length - (chs.dropWhile (· = byte '#')).length)
        (chs.dropWhile (· = byte '#')), found) := by
  induction chs generalizing i with
  | nil => rfl
  | cons ch chs ih =>
      have hs := parseUrlChar_fragmentStart hlive.head
      have hrest := hlive.tail
      by_cases hch : ch = byte '#'
      · rw [if_pos hch] at hs
        rw [hs] at hrest
        rw [parseUrlLoop_delimiter hs (by decide) rfl, ih hrest,
          List.dropWhile_cons_of_pos (by simpa using hch), List.length_cons,
          Nat.add_right_comm i, Nat.add_assoc]
      · rw [if_neg hch] at hs
        rw [hs] at hrest
        rw [parseUrlLoop_begin hs (by decide) (by decide) rfl hold,
          parseUrlLoop_fragment hrest (begin_self ..), update_begin _ _ _ ch,
          List.dropWhile_cons_of_neg (by simpa using hch), Nat.add_sub_cancel]

theorem parseUrlLoop_query (hlive : Live .reqQueryString chs)
    (hu : u .query = some ⟨off, toUint16 n⟩) :
    parseUrlLoop chs i .reqQueryString (some .query) found u =
      some (addField (Function.update u .query
          (some ⟨off, toUint16 (n + (chs.takeWhile (· ≠ byte '#')).length)⟩)) .fragment
        (i + chs.length - (fragmentText chs).length) (fragmentText chs), found) := by
  induction chs generalizing i n u with
  | nil =>
      rw [List.takeWhile_nil, List.length_nil, Nat.add_zero, update_same hu]
      rfl
  | cons ch chs ih =>
      have hs := parseUrlChar_query (.inr rfl) hlive.head
      have hrest := hlive.tail
      by_cases hch : ch = byte '#'
      · subst hch
        rw [if_pos rfl] at hs
        rw [hs] at hrest
        rw [parseUrlLoop_delimiter hs (by decide) rfl,
          parseUrlLoop_fragmentStart hrest (by decide),
          texts_hash.2.2, List.takeWhile_cons_of_neg (by simp), List.length_nil, Nat.add_zero n,
          update_same hu, List.length_cons, Nat.add_right_comm i, Nat.add_assoc]
      · rw [if_neg hch] at hs
        rw [hs] at hrest
        rw [parseUrlLoop_grow hs (by decide) (by decide) rfl hu,
          ih hrest (Function.update_self ..), Function.update_idem, fragmentText_cons hch,
          List.takeWhile_cons_of_pos (by simpa using hch), List.length_cons, List.length_cons,
          Nat.add_right_comm n 1, Nat.add_right_comm i 1, Nat.add_assoc, Nat.add_assoc]

theorem parseUrlLoop_queryStart (hlive : Live .reqQueryStringStart chs)
    (hquery : old ≠ some .query) (hfragment : old ≠ some .fragment) :
    parseUrlLoop chs i .reqQueryStringStart old found u =
      some ((u.addField .query i (chs.takeWhile (· ≠ byte '#'))).addField .fragment
        (i + chs.length - (fragmentText chs).length) (fragmentText chs), found) := by
  cases chs with
  | nil => rfl
  | cons ch chs =>
      have hs := parseUrlChar_query (.inl rfl) hlive.head
      have hrest := hlive.tail
      by_cases hch : ch = byte '#'
      · subst hch
        rw [if_pos rfl] at hs
        rw [hs] at hrest
        rw [parseUrlLoop_delimiter hs (by decide) rfl, parseUrlLoop_fragmentStart hrest hfragment,
          texts_hash.2.2, List.takeWhile_cons_of_neg (by simp), addField_nil, List.length_cons,
          Nat.add_right_comm i, Nat.add_assoc]
      · rw [if_neg hch] at hs
        rw [hs] at hrest
        rw [parseUrlLoop_begin hs (by decide) (by decide) rfl hquery,
          parseUrlLoop_query hrest (begin_self ..), update_begin _ _ _ ch, fragmentText_cons hch,
          List.takeWhile_cons_of_pos (by simpa using hch), List.length_cons,
          Nat.add_right_comm i 1, Nat.add_assoc]

theorem parseUrlLoop_path (hlive : Live .reqPath chs) (hu : u .path = some ⟨off, toUint16 n⟩) :
    parseUrlLoop chs i .reqPath (some .path) found u =
      some ((addField (Function.update u .path (some ⟨off, toUint16 (n + (pathText chs).length)⟩))
          .query (i + (pathText chs).length + 1) (queryText chs)).addField .fragment
        (i + chs.length - (fragmentText chs).length) (fragmentText chs), found) := by
  induction chs generalizing i n u with
  | nil => exact congrArg (fun u => some (u, found)) (update_same hu).symm
  | cons ch chs ih =>
      have hs := parseUrlChar_path hlive.head
      have hrest := hlive.tail
      by_cases hquery : ch = byte '?'
      · subst hquery
        rw [if_pos rfl] at hs
        rw [hs] at hrest
        have hne : byte '?' ≠ byte '#' := by decide
        rw [parseUrlLoop_delimiter hs (by decide) rfl,
          parseUrlLoop_queryStart hrest (by decide) (by decide), texts_question.1, texts_question.2,
          fragmentText_cons hne, List.length_nil, Nat.add_zero n, Nat.add_zero i, update_same hu,
          List.length_cons, Nat.add_right_comm i 1, Nat.add_assoc]
      · by_cases hfragment : ch = byte '#'
        · subst hfragment
          rw [if_neg hquery, if_pos rfl] at hs
          rw [hs] at hrest
          rw [parseUrlLoop_delimiter hs (by decide) rfl,
            parseUrlLoop_fragmentStart hrest (by decide), texts_hash.1, texts_hash.2.1,
            texts_hash.2.2, List.length_nil, Nat.add_zero n, update_same hu, addField_nil,
            List.length_cons, Nat.add_right_comm i 1, Nat.add_assoc]
        · rw [if_neg hquery, if_neg hfragment] at hs
          rw [hs] at hrest
          rw [parseUrlLoop_grow hs (by decide) (by decide) rfl hu,
            ih hrest (Function.update_self ..), Function.update_idem,
            pathText_cons hquery hfragment, queryText_cons hquery hfragment,
            fragmentText_cons hfragment, List.length_cons, List.length_cons,
            Nat.add_right_comm n 1, Nat.add_right_comm i 1, Nat.add_assoc n, Nat.add_assoc i,
            Nat.add_right_comm i 1, Nat.add_assoc i, Nat.add_assoc i chs.length]

end Loop

/-! ## http_parser_parse_url -/

/-- The fields of a URL that begins with a slash. -/
def originFields (url : Bytes) : HttpParserUrl :=
  ((HttpParserUrl.empty.addField .path 0 (pathText url)).addField .query
    ((pathText url).length + 1) (queryText url)).addField .fragment
      (url.length - (fragmentText url).length) (fragmentText url)

theorem originFields_of_host {url : Bytes} {f : UrlField} (hpath : f ≠ .path) (hquery : f ≠ .query)
    (hfragment : f ≠ .fragment) : originFields url f = none := by
  unfold originFields
  rw [HttpParserUrl.addField_ne hfragment, HttpParserUrl.addField_ne hquery,
    HttpParserUrl.addField_ne hpath]
  rfl

/-- A URL that begins with a slash has no host to be checked. -/
theorem parseUrl_origin {chs : Bytes} (hlive : Live .reqSpacesBeforeUrl (byte '/' :: chs)) :
    parseUrl (byte '/' :: chs) false = some (originFields (byte '/' :: chs)) := by
  have hs : parseUrlChar .reqSpacesBeforeUrl (byte '/') = .reqPath := by decide
  have hrest := hlive.tail
  rw [hs] at hrest
  have hquery : byte '/' ≠ byte '?' := by decide
  have hfragment : byte '/' ≠ byte '#' := by decide
  have hloop : parseUrlLoop (byte '/' :: chs) 0 .reqSpacesBeforeUrl none false .empty =
      some (originFields (byte '/' :: chs), false) := by
    rw [parseUrlLoop_begin hs (by decide) (by decide) rfl (by decide),
      parseUrlLoop_path hrest (HttpParserUrl.begin_self ..),
      HttpParserUrl.update_begin _ _ _ (byte '/')]
    unfold originFields
    rw [pathText_cons hquery hfragment, queryText_cons hquery hfragment,
      fragmentText_cons hfragment, List.length_cons, List.length_cons, Nat.zero_add,
      Nat.add_comm 1 (pathText chs).length, Nat.add_comm 1 chs.length]
  have hhost : splitHost (byte '/' :: chs) (originFields (byte '/' :: chs)) false =
      some (originFields (byte '/' :: chs)) := by
    unfold splitHost
    rw [originFields_of_host (by decide) (by decide) (by decide),
      originFields_of_host (by decide) (by decide) (by decide)]
    rfl
  unfold parseUrl
  rw [if_neg (List.cons_ne_nil _ _)]
  simp only [Bool.false_eq_true, if_false, Bool.false_and, hloop, Option.bind_eq_bind,
    Option.bind_some, hhost]
  unfold checkPort
  rw [originFields_of_host (by decide) (by decide) (by decide)]

end QGServer
