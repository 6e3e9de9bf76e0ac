-- SUMMARY: Bounds of the parser's integers: what is read from strings is there, and nothing wraps.
import Mathlib.Data.List.GetD
import QGServer.HttpParser.Segments

/-!
# Bounds

The fields of a parser are bit-fields and machine integers: `index` has 7 bits, `nread`
32 and `content_length` 64. The model has natural numbers. This is what the handlers
see to: whatever bytes come, no field leaves its range, `index` stays within the string
that is being matched, and no header gives the content length that stands for none.

`readBy_inRange` says so of every state the parser is in while it reads, not only of
those between two segments.
-/

namespace QGServer

/-- The string that is being matched. -/
def HeaderState.word : HeaderState → Option Bytes
  | .matchingConnection => some (bytes "connection")
  | .matchingProxyConnection => some (bytes "proxy-connection")
  | .matchingContentLength => some (bytes "content-length")
  | .matchingTransferEncoding => some (bytes "transfer-encoding")
  | .matchingUpgrade | .matchingConnectionUpgrade => some (bytes "upgrade")
  | .matchingTransferEncodingChunked => some (bytes "chunked")
  | .matchingConnectionKeepAlive => some (bytes "keep-alive")
  | .matchingConnectionClose => some (bytes "close")
  | _ => none

/-- The last position that can be behind the parser. -/
def HeaderState.reach (h : HeaderState) : Nat :=
  match h.word with
  -- there are letters to come
  | some word => word.length - 2
  | none =>
    match h with
    | .c | .matchingTransferEncodingTokenStart | .matchingConnectionTokenStart => 0
    | .co => 1
    | .con => 2
    | _ => 16

namespace HttpParser

/-! ## Ranges -/

/-- What holds of the numbers of a parser in every state. -/
structure Ranged (p : HttpParser) : Prop where
  index : p.index ≤ 16
  contentLength : p.contentLength ≤ ullongMax
  /-- A content length that was given is none that stands for none. -/
  given : p.flags.contentLength = true → p.contentLength < ullongMax
  httpMajor : p.httpMajor ≤ 9
  httpMinor : p.httpMinor ≤ 9

/-- What holds in the states that read with `index` or count down `contentLength`. -/
structure InRange (p : HttpParser) : Prop extends Ranged p where
  /-- The terminating null is the last that is read. -/
  method : p.state = .reqMethod → p.index ≤ p.method.string.length
  letters : Looping p → p.index ≤ p.headerState.reach
  body : p.state = .bodyIdentity ∨ p.state = .chunkData → 0 < p.contentLength

/-- The states of which `InRange` says nothing more than `Ranged`. -/
def plain : ParserState → Bool
  | .reqMethod | .headerField | .headerValue | .bodyIdentity | .chunkData => false
  | _ => true

/-- The parser behind a byte is in range, and the header has not grown. A byte that is
    refused leaves an error. -/
structure Stays (p : HttpParser) (o : Outcome) : Prop where
  inRange : InRange o.state.1
  nread : o.state.1.nread ≤ p.nread
  refused : o.next = .error → o.state.1.httpErrno ≠ .ok

section Handlers

variable {p q : HttpParser} {inner : Option Nat} {ch : UInt8} {e : HttpErrno} {o : Outcome}

theorem inRange_of_plain (h : Ranged p) (hs : plain p.state = true) : InRange p := by
  refine ⟨h, fun hm => ?_, fun hl => ?_, fun hb => ?_⟩
  · rw [hm] at hs
    cases hs
  · rcases hl with hl | hl <;> rw [hl] at hs <;> cases hs
  · rcases hb with hb | hb <;> rw [hb] at hs <;> cases hs

/-- The letters that are still to come are there. -/
theorem InRange.lt_length (h : InRange p) (hloop : Looping p) {word : Bytes}
    (hword : p.headerState.word = some word) : p.index + 1 < word.length := by
  have hreach := h.letters hloop
  unfold HeaderState.reach at hreach
  rw [hword] at hreach
  dsimp only at hreach
  have hlong : 2 ≤ word.length := by
    revert hword
    cases p.headerState <;> simp only [HeaderState.word, Option.some.injEq, reduceCtorEq, false_implies]
    all_goals
      rintro rfl
      decide
  omega

/-- Of these alone `Ranged` speaks. -/
def numbers (p : HttpParser) : Nat × Nat × Bool × Nat × Nat :=
  (p.index, p.contentLength, p.flags.contentLength, p.httpMajor, p.httpMinor)

theorem Ranged.of_numbers (h : Ranged p) (heq : numbers q = numbers p) : Ranged q := by
  obtain ⟨hindex, hlength, hgiven, hmajor, hminor⟩ := h
  simp only [numbers, Prod.mk.injEq] at heq
  obtain ⟨hi, hl, hg, hma, hmi⟩ := heq
  refine ⟨hi ▸ hindex, hl ▸ hlength, fun hflag => ?_, hma ▸ hmajor, hmi ▸ hminor⟩
  rw [hl]
  exact hgiven (hg ▸ hflag)

/-! ### Outcomes -/

theorem Stays.before {a : Action} (h : Stays p o) : Stays p (before a o) :=
  ⟨h.inRange, h.nread, h.refused⟩

theorem stays_next {inner : Option Nat} {next : Pieces.Next} (h : InRange q) (hn : q.nread ≤ p.nread)
    (hnext : next ≠ .error) : Stays p ⟨(q, inner), [], next⟩ :=
  ⟨h, hn, fun herror => absurd herror hnext⟩

theorem stays_more (h : InRange p) : Stays p (more p) := stays_next h le_rfl (by decide)

theorem stays_refuse (h : InRange q) (hn : q.nread ≤ p.nread) (he : e ≠ .ok) : Stays p (fail e q) :=
  ⟨⟨h.toRanged.of_numbers rfl, h.method, h.letters, h.body⟩, hn, fun _ => he⟩

/-- Nothing is changed but the error. -/
theorem stays_fail (h : InRange p) (he : e ≠ .ok) : Stays p (fail e p) := stays_refuse h le_rfl he

/-- On to a state that reads without `index` and counts nothing down. -/
theorem stays_plain {inner : Option Nat} {next : Pieces.Next} (h : Ranged p) (hs : plain q.state = true)
    (heq : numbers q = numbers p) (hn : q.nread ≤ p.nread) (hnext : next ≠ .error) :
    Stays p ⟨(q, inner), [], next⟩ :=
  stays_next (inRange_of_plain (h.of_numbers heq) hs) hn hnext

theorem stays_goto {s : ParserState} (h : Ranged p) (hs : plain s = true) : Stays p (goto s p) :=
  stays_plain h hs rfl le_rfl (by decide)

theorem stays_strictGoto {expected : UInt8} {s : ParserState} (h : InRange p) (hs : plain s = true) :
    Stays p (strictGoto ch expected s p) := by
  unfold strictGoto
  split
  · exact stays_fail h (by decide)
  · exact stays_goto h.toRanged hs

/-! ### The end of a message -/

theorem plain_newMessage (p : HttpParser) : plain (newMessage p) = true := by
  unfold newMessage
  split <;> rfl

theorem stays_messageDone (h : Ranged p) : Stays p (messageDone p) := by
  unfold messageDone
  dsimp only
  refine Stays.before ?_
  split
  · exact stays_plain h (plain_newMessage p) rfl le_rfl (by decide)
  · exact stays_plain h (plain_newMessage p) rfl le_rfl (by decide)

theorem stays_headersDone (h : InRange p) : Stays p (headersDone p ch) := by
  have hzero : Ranged { p with nread := 0 } := h.toRanged.of_numbers rfl
  have hcomplete := plain_newMessage { p with nread := 0 }
  unfold headersDone
  dsimp only
  split
  · exact stays_fail h (by decide)
  · split
    · exact Stays.before (stays_plain h.toRanged hcomplete rfl (Nat.zero_le _) (by decide))
    · split
      · exact stays_plain h.toRanged rfl rfl (Nat.zero_le _) (by decide)
      · split
        · exact stays_refuse ⟨hzero, h.method, h.letters, h.body⟩ (Nat.zero_le _) (by decide)
        · split
          · exact Stays.before (stays_plain h.toRanged hcomplete rfl (Nat.zero_le _) (by decide))
          · rename_i hpos
            split
            · refine stays_next ⟨hzero.of_numbers rfl, fun hs => (by cases hs), fun hs => ?_, fun _ => ?_⟩
                (Nat.zero_le _) (by decide)
              · rcases hs with hs | hs <;> cases hs
              · exact Nat.pos_of_ne_zero hpos
            · exact Stays.before (stays_plain h.toRanged hcomplete rfl (Nat.zero_le _) (by decide))

theorem stays_headersAlmostDone (h : InRange p) : Stays p (headersAlmostDone p ch) := by
  unfold headersAlmostDone
  dsimp only
  split
  · exact stays_fail h (by decide)
  · split
    · have hdone := stays_messageDone (p := { p with state := .messageDone }) (h.toRanged.of_numbers rfl)
      exact Stays.before ⟨hdone.inRange, hdone.nread, hdone.refused⟩
    · split
      · exact stays_fail h (by decide)
      · refine Stays.before ?_
        have hdone := @stays_headersDone
          { p with
            state := .headersDone
            upgrade := if p.flags.upgrade && p.flags.connectionUpgrade then true
              else p.method = .connect } ch (inRange_of_plain (h.toRanged.of_numbers rfl) rfl)
        exact ⟨hdone.inRange, hdone.nread, hdone.refused⟩

/-! ### The request line -/

theorem stays_dead (h : InRange p) : Stays p (dead p ch) := by
  unfold dead
  split
  · exact stays_more h
  · exact stays_fail h (by decide)

theorem length_string (m : HttpMethod) : 1 ≤ m.string.length ∧ m.string.length ≤ 11 := by
  cases m <;> decide

theorem stays_startReq (h : InRange p) (hs : plain p.state = true) : Stays p (startReq p ch) := by
  have hnew : Ranged { p with flags := .zero, contentLength := ullongMax } :=
    ⟨h.index, le_rfl, fun hflag => (by cases hflag), h.httpMajor, h.httpMinor⟩
  have hfirst : Ranged { p with flags := .zero, contentLength := ullongMax, index := 1 } :=
    ⟨Nat.le_add_left 1 15, le_rfl, fun hflag => (by cases hflag), h.httpMajor, h.httpMinor⟩
  unfold startReq
  split
  · exact stays_more h
  · dsimp only
    split
    · exact stays_refuse (inRange_of_plain hnew hs) le_rfl (by decide)
    · split
      · exact stays_refuse (inRange_of_plain (hfirst.of_numbers rfl) hs) le_rfl (by decide)
      · rename_i m hm
        refine Stays.before (stays_next ⟨hfirst.of_numbers rfl, fun _ => (length_string m).1, fun hl => ?_,
          fun hb => ?_⟩ le_rfl (by decide))
        · rcases hl with hl | hl <;> cases hl
        · rcases hb with hb | hb <;> cases hb

/-- Where a letter is not the one of the method so far, the method that takes over is
    long enough. -/
theorem lt_length_of_methodSwitch {m m' : HttpMethod} {i : Nat}
    (h : methodSwitch.lookup (m, i, ch) = some m') : i < m'.string.length := by
  have hall : ∀ x ∈ methodSwitch, x.1.2.1 < x.2.string.length := by decide
  obtain ⟨l₁, l₂, heq, -⟩ := List.lookup_eq_some_iff.mp h
  exact hall ((m, i, ch), m') (heq ▸ List.mem_append_right _ List.mem_cons_self)

theorem stays_reqMethod (h : InRange p) (hs : p.state = .reqMethod) : Stays p (reqMethod p ch) := by
  have hmethod := h.method hs
  have hlong := (length_string p.method).2
  -- the next letter of a method
  have hnext : ∀ m : HttpMethod, p.index + 1 ≤ m.string.length →
      Stays p (more { p with method := m, index := p.index + 1 }) := by
    intro m hm
    have hlong := (length_string m).2
    refine stays_next ⟨⟨?_, h.contentLength, h.given, h.httpMajor, h.httpMinor⟩, fun _ => hm,
      fun hl => ?_, fun hb => ?_⟩ le_rfl (by decide)
    · change p.index + 1 ≤ 16
      omega
    · rcases hl with hl | hl <;> cases hs.symm.trans hl
    · rcases hb with hb | hb <;> cases hs.symm.trans hb
  unfold reqMethod
  dsimp only
  split
  · exact stays_fail h (by decide)
  · rename_i hnull
    split
    · refine stays_next (inRange_of_plain ⟨?_, h.contentLength, h.given, h.httpMajor, h.httpMinor⟩ rfl)
        le_rfl (by decide)
      change p.index + 1 ≤ 16
      omega
    · split
      · rename_i hmatched
        apply hnext p.method
        -- behind the last letter there is the null
        by_contra hlt
        rw [List.getD_eq_default _ _ (by omega)] at hmatched
        exact hnull hmatched
      · split
        · split
          · rename_i m hm
            exact hnext m (lt_length_of_methodSwitch hm)
          · exact stays_fail h (by decide)
        · exact stays_fail h (by decide)

theorem plain_of_url {s : ParserState} (h : placeOf s = .element .url) : plain s = true := by
  revert h
  cases s <;> decide

theorem stays_urlChar (h : InRange p) (s : ParserState) : Stays p (urlChar p s ch) := by
  unfold urlChar
  dsimp only
  split
  · rename_i hdead
    have hplain : plain (parseUrlChar s ch) = true := by
      rw [hdead]
      rfl
    exact stays_refuse (inRange_of_plain (h.toRanged.of_numbers rfl) hplain) le_rfl (by decide)
  · rename_i hdead
    exact stays_goto h.toRanged (plain_of_url ((placeOf_parseUrlChar s).resolve_left hdead))

theorem stays_reqSpacesBeforeUrl (h : InRange p) : Stays p (reqSpacesBeforeUrl p ch) := by
  unfold reqSpacesBeforeUrl
  split
  · exact stays_more h
  · exact Stays.before (stays_urlChar h _)

theorem stays_reqSchema (h : InRange p) : Stays p (reqSchema p ch) := by
  unfold reqSchema
  split
  · exact stays_fail h (by decide)
  · exact stays_urlChar h _

theorem stays_reqUrl (h : InRange p) : Stays p (reqUrl p ch) := by
  unfold reqUrl
  split
  · exact Stays.before (stays_plain h.toRanged rfl rfl le_rfl (by decide))
  · split
    · have hplain : plain (if ch = CR then .reqLineAlmostDone else .headerFieldStart) = true := by
        split <;> rfl
      exact Stays.before (stays_next
        (inRange_of_plain ⟨h.index, h.contentLength, h.given, Nat.zero_le _, le_rfl⟩ hplain) le_rfl
        (by decide))
    · exact stays_urlChar h _

theorem stays_reqHttpStart (h : InRange p) : Stays p (reqHttpStart p ch) := by
  unfold reqHttpStart
  split
  · exact stays_more h
  · split
    · exact stays_goto h.toRanged rfl
    · split
      · exact stays_goto h.toRanged rfl
      · exact stays_fail h (by decide)

theorem digit_le (h : isNum ch = true) : ch.toNat - 48 ≤ 9 := by
  unfold isNum at h
  rw [Bool.and_eq_true, decide_eq_true_eq, decide_eq_true_eq, UInt8.le_iff_toNat_le] at h
  have hle : ch.toNat ≤ 57 := h.2
  omega

theorem stays_reqHttpMajor (h : InRange p) : Stays p (reqHttpMajor p ch) := by
  unfold reqHttpMajor
  split
  · exact stays_fail h (by decide)
  · rename_i hnum
    have hdigit := digit_le (by simpa using hnum)
    exact stays_next (inRange_of_plain ⟨h.index, h.contentLength, h.given, hdigit, h.httpMinor⟩ rfl) le_rfl
      (by decide)

theorem stays_reqHttpMinor (h : InRange p) : Stays p (reqHttpMinor p ch) := by
  unfold reqHttpMinor
  split
  · exact stays_fail h (by decide)
  · rename_i hnum
    have hdigit := digit_le (by simpa using hnum)
    exact stays_next (inRange_of_plain ⟨h.index, h.contentLength, h.given, h.httpMajor, hdigit⟩ rfl) le_rfl
      (by decide)

theorem stays_reqHttpDot (h : InRange p) : Stays p (reqHttpDot p ch) := by
  unfold reqHttpDot
  split
  · exact stays_fail h (by decide)
  · exact stays_goto h.toRanged rfl

theorem stays_reqHttpEnd (h : InRange p) : Stays p (reqHttpEnd p ch) := by
  unfold reqHttpEnd
  split
  · exact stays_goto h.toRanged rfl
  · split
    · exact stays_goto h.toRanged rfl
    · exact stays_fail h (by decide)

theorem stays_reqLineAlmostDone (h : InRange p) : Stays p (reqLineAlmostDone p ch) := by
  unfold reqLineAlmostDone
  split
  · exact stays_fail h (by decide)
  · exact stays_goto h.toRanged rfl

/-! ### Matching -/

theorem reach_le (h : HeaderState) : h.reach ≤ 16 := by
  cases h <;> decide

/-- A letter of the string that is being matched. -/
theorem le_reach_matchWord {word : Bytes} {c : UInt8} {stay miss hit : HeaderState} {i : Nat}
    (hword : stay.word = some word) (hmiss : miss.reach = 16) (hhit : hit.reach = 16)
    (hlong : 2 ≤ word.length ∧ word.length ≤ 17) (hi : i ≤ stay.reach) :
    i + 1 ≤ (matchWord word (i + 1) c stay miss hit).reach := by
  have hstay : stay.reach = word.length - 2 := by
    unfold HeaderState.reach
    rw [hword]
  unfold matchWord
  split
  · omega
  · split
    · omega
    · omega

/-- In the states that match letters. -/
theorem inRange_of_looping (hl : Looping q) (hindex : q.index ≤ q.headerState.reach)
    (h : Ranged { q with index := 0 }) : InRange q := by
  refine ⟨⟨hindex.trans (reach_le _), h.contentLength, h.given, h.httpMajor, h.httpMinor⟩, fun hs => ?_,
    fun _ => hindex, fun hs => ?_⟩
  · rcases hl with hl | hl <;> rw [hl] at hs <;> cases hs
  · rcases hl with hl | hl <;> rw [hl] at hs <;> rcases hs with hs | hs <;> cases hs

theorem Ranged.rewind (h : Ranged p) : Ranged { p with index := 0 } :=
  ⟨Nat.zero_le _, h.contentLength, h.given, h.httpMajor, h.httpMinor⟩

theorem contentLength_setFlag (h : HeaderState) (f : ParserFlags) :
    (setFlag h f).contentLength = f.contentLength := by
  cases h <;> rfl

/-! ### Header names -/

theorem stays_headerFieldStart (h : InRange p) : Stays p (headerFieldStart p ch) := by
  unfold headerFieldStart
  split
  · exact stays_goto h.toRanged rfl
  · split
    · have hdone := @stays_headersAlmostDone { p with state := .headersAlmostDone } ch
        (inRange_of_plain (h.toRanged.of_numbers rfl) rfl)
      exact ⟨hdone.inRange, hdone.nread, hdone.refused⟩
    · dsimp only
      split
      · exact stays_fail h (by decide)
      · exact Stays.before (stays_next
          (inRange_of_looping (.inl rfl) (Nat.zero_le _) (h.toRanged.rewind.of_numbers rfl)) le_rfl
          (by decide))

theorem ranged_headerFieldChar (h : Ranged p) (c : UInt8) :
    Ranged { headerFieldChar p ch c with index := 0 } := by
  refine h.rewind.of_numbers ?_
  unfold headerFieldChar
  dsimp only
  split <;> try split_ifs
  all_goals rfl

theorem le_reach_headerFieldChar (h : p.index ≤ p.headerState.reach) (c : UInt8) :
    (headerFieldChar p ch c).index ≤ (headerFieldChar p ch c).headerState.reach := by
  have hsame := h
  unfold headerFieldChar
  dsimp only
  split
  all_goals try
    rename_i hs
    rw [hs] at h
  · refine (Nat.succ_le_succ h).trans ?_
    dsimp only
    split <;> decide
  · refine (Nat.succ_le_succ h).trans ?_
    dsimp only
    split <;> decide
  · refine (Nat.succ_le_succ h).trans ?_
    dsimp only
    split
    · decide
    · split <;> decide
  · exact le_reach_matchWord rfl rfl rfl (by decide) h
  · exact le_reach_matchWord rfl rfl rfl (by decide) h
  · exact le_reach_matchWord rfl rfl rfl (by decide) h
  · have hmatch : p.index + 1 ≤ (matchWord (bytes "transfer-encoding") (p.index + 1) c
        .matchingTransferEncoding .general .transferEncoding).reach :=
      le_reach_matchWord rfl rfl rfl (by decide) h
    split <;> exact hmatch
  · exact le_reach_matchWord rfl rfl rfl (by decide) h
  -- the name was complete
  iterate 4
    · split
      · exact h
      · exact hsame
  · exact hsame

theorem stays_headerField (h : InRange p) (hs : p.state = .headerField) : Stays p (headerField p ch) := by
  have hletters := h.letters (.inl hs)
  unfold headerField
  dsimp only
  split
  · have hmatches := @headerFieldChar_matches p ch (token ch)
    exact stays_next (inRange_of_looping (.inl (hmatches.state.trans hs))
      (le_reach_headerFieldChar hletters _) (ranged_headerFieldChar h.toRanged _)) hmatches.nread.le
      (by decide)
  · split
    · exact stays_fail h (by decide)
    · split
      · exact Stays.before (stays_plain h.toRanged rfl rfl le_rfl (by decide))
      · exact stays_fail h (by decide)

/-! ### Header values -/

theorem ne_ok_of_contentLengthDigit (h : contentLengthDigit p ch = .error e) : e ≠ .ok := by
  unfold contentLengthDigit at h
  split_ifs at h
  all_goals
    cases h
    decide

theorem ne_ok_of_headerValueFirst (h : headerValueFirst p ch = .error e) : e ≠ .ok := by
  unfold headerValueFirst at h
  dsimp only at h
  split at h <;> try split_ifs at h
  all_goals
    cases h
    try decide

theorem ne_ok_of_headerValueChar (h : headerValueChar p ch = .error e) : e ≠ .ok := by
  unfold headerValueChar at h
  dsimp only at h
  split at h <;> try split_ifs at h
  all_goals
    first
    | exact ne_ok_of_contentLengthDigit h
    | cases h
      try decide

theorem ranged_headerValueFirst (h : Ranged p) (hok : headerValueFirst p ch = .ok q) :
    Ranged q ∧ q.index = p.index := by
  unfold headerValueFirst at hok
  dsimp only at hok
  split at hok <;> try split_ifs at hok
  all_goals cases hok
  all_goals try exact ⟨h.of_numbers rfl, rfl⟩
  -- the first digit of a content length
  rename_i hnum _
  have hdigit : ch.toNat - 48 ≤ 9 := digit_le (by simpa using hnum)
  have hlt : ch.toNat - 48 < ullongMax := hdigit.trans_lt (by decide)
  exact ⟨⟨h.index, hlt.le, fun _ => hlt, h.httpMajor, h.httpMinor⟩, rfl⟩

theorem stays_headerValueStart (h : Ranged p) : Stays p (headerValueStart p ch) := by
  have hzero : Ranged { p with state := .headerValue, index := 0 } := h.rewind.of_numbers rfl
  unfold headerValueStart
  refine Stays.before ?_
  split
  · rename_i q hfirst
    obtain ⟨hranged, hindex⟩ := ranged_headerValueFirst hzero hfirst
    have hmatches := headerValueFirst_matches hfirst
    exact stays_next (inRange_of_looping (.inr hmatches.state) (hindex.trans_le (Nat.zero_le _))
      hranged.rewind) hmatches.nread.le (by decide)
  · rename_i herror
    exact stays_refuse (inRange_of_looping (.inr rfl) (Nat.zero_le _) hzero) le_rfl
      (ne_ok_of_headerValueFirst herror)

theorem stays_headerValueDiscardWs (h : InRange p) : Stays p (headerValueDiscardWs p ch) := by
  unfold headerValueDiscardWs
  split
  · exact stays_more h
  · split
    · exact stays_goto h.toRanged rfl
    · split
      · exact stays_goto h.toRanged rfl
      · exact stays_headerValueStart h.toRanged

/-- A number of which another digit is read is not too large, and it does not become the
    one that stands for none. -/
theorem ranged_contentLengthDigit (h : Ranged p) (hok : contentLengthDigit p ch = .ok q) :
    Ranged q ∧ q.index = p.index ∧ q.headerState.reach = 16 := by
  unfold contentLengthDigit at hok
  split_ifs at hok with hblank hnum hlarge
  · cases hok
    exact ⟨h.of_numbers rfl, rfl, rfl⟩
  · cases hok
    have hdigit : ch.toNat - 48 ≤ 9 := digit_le (by simpa using hnum)
    have hlt : p.contentLength * 10 + (ch.toNat - 48) < ullongMax := by
      unfold ullongMax at hlarge ⊢
      omega
    exact ⟨⟨h.index, hlt.le, fun _ => hlt, h.httpMajor, h.httpMinor⟩, rfl, rfl⟩

theorem inRange_headerValueChar (h : InRange p) (hs : p.state = .headerValue)
    (hok : headerValueChar p ch = .ok q) : InRange q := by
  have hl : Looping q := .inr ((headerValueChar_matches hok).state.trans hs)
  have hletters := h.letters (.inr hs)
  have hranged := h.toRanged.rewind
  -- another digit of a content length
  have hdigit : contentLengthDigit p ch = .ok q → InRange q := by
    intro hdigit
    obtain ⟨hranged, hindex, hreach⟩ := ranged_contentLengthDigit h.toRanged hdigit
    exact inRange_of_looping hl ((hindex.trans_le h.index).trans hreach.ge) hranged.rewind
  unfold headerValueChar at hok
  dsimp only at hok
  split at hok
  all_goals try
    rename_i hstate
    rw [hstate] at hletters
  · cases hok
    exact h
  · cases hok
    exact h
  · cases hok
    exact h
  · split at hok
    · cases hok
      exact h
    · exact hdigit hok
  · exact hdigit hok
  · split at hok
    · cases hok
      exact h
    · cases hok
  · cases hok
    exact inRange_of_looping hl (hletters.trans (Nat.zero_le _)) (hranged.of_numbers rfl)
  · cases hok
    exact inRange_of_looping hl (le_reach_matchWord rfl rfl rfl (by decide) hletters)
      (hranged.of_numbers rfl)
  · split at hok
    · cases hok
      exact inRange_of_looping hl (Nat.zero_le _) (hranged.of_numbers rfl)
    · cases hok
      exact h
  · cases hok
    exact inRange_of_looping hl (hletters.trans (Nat.zero_le _)) (hranged.of_numbers rfl)
  iterate 3
    · cases hok
      exact inRange_of_looping hl (le_reach_matchWord rfl rfl rfl (by decide) hletters)
        (hranged.of_numbers rfl)
  · split at hok
    · cases hok
      exact inRange_of_looping hl (Nat.zero_le _) (hranged.of_numbers rfl)
    · cases hok
      exact h
  · split at hok
    · cases hok
      exact inRange_of_looping hl h.index (hranged.of_numbers rfl)
    · cases hok
      exact h
  -- a connection token is complete
  iterate 3
    · split at hok
      · cases hok
        refine inRange_of_looping hl (Nat.zero_le _) (hranged.of_numbers ?_)
        simp only [numbers, contentLength_setFlag]
      · split at hok
        · cases hok
          exact inRange_of_looping hl h.index (hranged.of_numbers rfl)
        · cases hok
          exact h
  · cases hok
    exact inRange_of_looping hl h.index (hranged.of_numbers rfl)

theorem stays_headerAlmostDone (h : InRange p) : Stays p (headerAlmostDone p ch) := by
  unfold headerAlmostDone
  split
  · exact stays_fail h (by decide)
  · exact stays_goto h.toRanged rfl

theorem stays_headerValue (h : InRange p) (hs : p.state = .headerValue) :
    Stays p (headerValue p inner ch) := by
  have hends : InRange { p with state := .headerAlmostDone } :=
    inRange_of_plain (h.toRanged.of_numbers rfl) rfl
  unfold headerValue
  dsimp only
  split
  · exact stays_next h le_rfl (by decide)
  · split
    · refine Stays.before ?_
      split
      · exact stays_refuse hends le_rfl (by decide)
      · exact stays_next hends le_rfl (by decide)
    · split
      · split
        · exact stays_refuse hends le_rfl (by decide)
        · have hnext := @stays_headerAlmostDone _ ch hends
          exact Stays.before ⟨hnext.inRange, hnext.nread, hnext.refused⟩
      · split
        · exact stays_fail h (by decide)
        · split
          · rename_i q hchar
            exact stays_next (inRange_headerValueChar h hs hchar) (headerValueChar_matches hchar).nread.le
              (by decide)
          · rename_i herror
            exact stays_fail h (ne_ok_of_headerValueChar herror)

/-- The flag of a value does not count. -/
theorem Ranged.setFlag (h : Ranged p) (hs : HeaderState) (s : ParserState) :
    Ranged { p with flags := HttpParser.setFlag hs p.flags, state := s } := by
  refine h.of_numbers ?_
  simp only [numbers, contentLength_setFlag]

theorem stays_headerValueLws (h : InRange p) : Stays p (headerValueLws p ch) := by
  unfold headerValueLws
  split
  · have hstart := @stays_headerValueStart { p with
        headerState := if p.headerState = .contentLengthNum then .contentLengthWs else p.headerState
        state := .headerValueStart } ch (h.toRanged.of_numbers rfl)
    exact ⟨hstart.inRange, hstart.nread, hstart.refused⟩
  · have hnext := @stays_headerFieldStart { p with
        flags := setFlag p.headerState p.flags, state := .headerFieldStart } ch
      (inRange_of_plain (h.toRanged.setFlag _ _) rfl)
    exact ⟨hnext.inRange, hnext.nread, hnext.refused⟩

theorem stays_headerValueDiscardLws (h : InRange p) : Stays p (headerValueDiscardLws p ch) := by
  unfold headerValueDiscardLws
  split
  · exact stays_goto h.toRanged rfl
  · split
    · exact stays_fail h (by decide)
    · have hnext := @stays_headerFieldStart { p with
          flags := setFlag p.headerState p.flags, state := .headerFieldStart } ch
        (inRange_of_plain (h.toRanged.setFlag _ _) rfl)
      exact Stays.before (Stays.before ⟨hnext.inRange, hnext.nread, hnext.refused⟩)

/-! ### Bodies -/

/-- What is counted down is not zero yet. -/
theorem Ranged.countDown (h : Ranged p) (hpos : 0 < p.contentLength) :
    Ranged { p with contentLength := p.contentLength - 1 } := by
  have hlt : p.contentLength - 1 < ullongMax := by
    have hle := h.contentLength
    omega
  exact ⟨h.index, hlt.le, fun _ => hlt, h.httpMajor, h.httpMinor⟩

theorem stays_bodyIdentity (h : InRange p) (hs : p.state = .bodyIdentity) : Stays p (bodyIdentity p) := by
  have hless := h.toRanged.countDown (h.body (.inl hs))
  unfold bodyIdentity
  dsimp only
  refine Stays.before ?_
  split
  · refine Stays.before ?_
    have hdone := @stays_messageDone { p with contentLength := p.contentLength - 1, state := .messageDone }
      (hless.of_numbers rfl)
    exact ⟨hdone.inRange, hdone.nread, hdone.refused⟩
  · rename_i hlast
    refine stays_next ⟨hless, fun hm => ?_, fun hl => ?_, fun _ => Nat.pos_of_ne_zero hlast⟩ le_rfl
      (by decide)
    · cases hs.symm.trans hm
    · rcases hl with hl | hl <;> cases hs.symm.trans hl

theorem stays_chunkData (h : InRange p) (hs : p.state = .chunkData) : Stays p (chunkData p) := by
  have hless := h.toRanged.countDown (h.body (.inr hs))
  unfold chunkData
  dsimp only
  refine Stays.before ?_
  split
  · exact stays_next (inRange_of_plain (hless.of_numbers rfl) rfl) le_rfl (by decide)
  · rename_i hlast
    refine stays_next ⟨hless, fun hm => ?_, fun hl => ?_, fun _ => Nat.pos_of_ne_zero hlast⟩ le_rfl
      (by decide)
    · cases hs.symm.trans hm
    · rcases hl with hl | hl <;> cases hs.symm.trans hl

theorem stays_chunkDataAlmostDone (h : InRange p) : Stays p (chunkDataAlmostDone p ch) := by
  unfold chunkDataAlmostDone
  split
  · exact stays_fail h (by decide)
  · exact Stays.before (stays_plain h.toRanged rfl rfl le_rfl (by decide))

theorem stays_chunkDataDone (h : InRange p) : Stays p (chunkDataDone p ch) := by
  unfold chunkDataDone
  split
  · exact stays_fail h (by decide)
  · exact Stays.before (stays_plain h.toRanged rfl rfl (Nat.zero_le _) (by decide))

theorem unhex_le {v : Nat} (h : unhex ch = some v) : v ≤ 15 := by
  unfold unhex at h
  split_ifs at h with hnum hhex hhigh
  · cases h
    exact (digit_le hnum).trans (by decide)
  · cases h
    unfold isHex at hhex
    rw [Bool.or_eq_true, or_iff_right hnum, Bool.and_eq_true, decide_eq_true_eq, decide_eq_true_eq,
      UInt8.le_iff_toNat_le (b := byte 'f')] at hhex
    have hle : (lower ch).toNat ≤ 102 := hhex.2
    omega
  · cases h
    exact Nat.zero_le _

theorem stays_chunkSizeStart (h : InRange p) : Stays p (chunkSizeStart p ch) := by
  unfold chunkSizeStart
  split
  · exact stays_fail h (by decide)
  · rename_i v hv
    have hlt : v < ullongMax := (unhex_le hv).trans_lt (by decide)
    exact stays_next (inRange_of_plain ⟨h.index, hlt.le, fun _ => hlt, h.httpMajor, h.httpMinor⟩ rfl)
      le_rfl (by decide)

theorem stays_chunkSize (h : InRange p) (hs : plain p.state = true) : Stays p (chunkSize p ch) := by
  unfold chunkSize
  split
  · exact stays_goto h.toRanged rfl
  · split
    · split
      · exact stays_goto h.toRanged rfl
      · exact stays_fail h (by decide)
    · rename_i v hv
      split
      · exact stays_fail h (by decide)
      · rename_i hlarge
        have hdigit := unhex_le hv
        have hlt : p.contentLength * 16 + v < ullongMax := by
          unfold ullongMax at hlarge ⊢
          omega
        exact stays_next (inRange_of_plain ⟨h.index, hlt.le, fun _ => hlt, h.httpMajor, h.httpMinor⟩ hs)
          le_rfl (by decide)

theorem stays_chunkParameters (h : InRange p) : Stays p (chunkParameters p ch) := by
  unfold chunkParameters
  split
  · exact stays_goto h.toRanged rfl
  · exact stays_more h

theorem stays_chunkSizeAlmostDone (h : InRange p) : Stays p (chunkSizeAlmostDone p ch) := by
  unfold chunkSizeAlmostDone
  split
  · exact stays_fail h (by decide)
  · dsimp only
    split
    · exact Stays.before (stays_plain h.toRanged rfl rfl (Nat.zero_le _) (by decide))
    · rename_i hpos
      refine Stays.before (stays_next ⟨h.toRanged.of_numbers rfl, fun hm => (by cases hm), fun hl => ?_,
        fun _ => Nat.pos_of_ne_zero hpos⟩ (Nat.zero_le _) (by decide))
      rcases hl with hl | hl <;> cases hl

/-! ### The switch -/

theorem stays_dispatch (h : InRange p) : Stays p (dispatch p inner ch) := by
  unfold dispatch
  split
  all_goals
    rename_i hs
    have hplain : plain p.state = plain _ := congrArg plain hs
  · exact stays_dead h
  · exact stays_startReq h hplain
  · exact stays_reqMethod h hs
  · exact stays_reqSpacesBeforeUrl h
  iterate 4 exact stays_reqSchema h
  iterate 7 exact stays_reqUrl h
  · exact stays_reqHttpStart h
  iterate 6 exact stays_strictGoto h rfl
  · exact stays_reqHttpMajor h
  · exact stays_reqHttpDot h
  · exact stays_reqHttpMinor h
  · exact stays_reqHttpEnd h
  · exact stays_reqLineAlmostDone h
  · exact stays_headerFieldStart h
  · exact stays_headerField h hs
  · exact stays_headerValueDiscardWs h
  · exact stays_strictGoto h rfl
  · exact stays_headerValueDiscardLws h
  · exact stays_headerValueStart h.toRanged
  · exact stays_headerValue h hs
  · exact stays_headerValueLws h
  · exact stays_headerAlmostDone h
  · exact stays_chunkSizeStart h
  · exact stays_chunkSize h hplain
  · exact stays_chunkParameters h
  · exact stays_chunkSizeAlmostDone h
  · exact stays_headersAlmostDone h
  · exact stays_headersDone h
  · exact stays_chunkData h hs
  · exact stays_chunkDataAlmostDone h
  · exact stays_chunkDataDone h
  · exact stays_bodyIdentity h hs
  · exact stays_messageDone h.toRanged

/-- A byte keeps the parser in range and is counted at most once. If it is refused there
    is an error. -/
theorem inRange_onByte {c : Cursor} (h : InRange c.1) (ch : UInt8) :
    InRange (onByte c ch).state.1 ∧ (onByte c ch).state.1.nread ≤ c.1.nread + 1 ∧
      ((onByte c ch).next = .error → (onByte c ch).state.1.httpErrno ≠ .ok) := by
  obtain ⟨p, inner⟩ := c
  have hcounted : InRange { p with nread := p.nread + 1 } :=
    ⟨h.toRanged.of_numbers rfl, h.method, h.letters, h.body⟩
  unfold onByte
  dsimp only
  split
  · split
    · have hfail := stays_fail (e := .headerOverflow) hcounted (by decide)
      exact ⟨hfail.inRange, hfail.nread, hfail.refused⟩
    · have hstays := @stays_dispatch _ inner ch hcounted
      exact ⟨hstays.inRange, hstays.nread, hstays.refused⟩
  · have hstays := @stays_dispatch p none ch h
    exact ⟨hstays.inRange, hstays.nread.trans (Nat.le_succ _), hstays.refused⟩

/-! ## The size of the header -/

/-- The byte with which an inner loop ends is within the limit. -/
theorem nread_le_of_leaves {c : Cursor} (hc : InLoop c) (hinner : c.2.isSome = true)
    (hnext : (onByte c ch).next ≠ .error) (hleaves : (onByte c ch).state.2 = none) :
    c.1.nread + 1 ≤ maxHeaderSize := by
  obtain ⟨n, hn⟩ := Option.isSome_iff_exists.mp hinner
  by_contra hlimit
  rcases over_step ch hinner (hc.looping hn) (by omega) with herror | ⟨-, -, hover⟩
  · exact hnext herror
  · have hsome := hover.inner
    rw [hleaves] at hsome
    cases hsome

/-- In the outer loop the header is within its limit. In an inner loop all bytes of the
    segment may have been added to it. -/
structure Counted (n : Nat) (c : Cursor) : Prop where
  inRange : InRange c.1
  inLoop : InLoop c
  outer : c.2 = none → c.1.nread ≤ maxHeaderSize
  nread : c.1.nread ≤ maxHeaderSize + n

theorem nread_le_of_outer {c : Cursor} {n : Nat} (h : Counted n c) (hnext : (onByte c ch).next ≠ .error)
    (hleaves : (onByte c ch).state.2 = none) : (onByte c ch).state.1.nread ≤ maxHeaderSize := by
  obtain ⟨p, inner⟩ := c
  cases inner with
  | some n =>
      exact (inRange_onByte h.inRange ch).2.1.trans (nread_le_of_leaves h.inLoop rfl hnext hleaves)
  | none =>
      have hwithin : p.nread ≤ maxHeaderSize := h.outer rfl
      have hcounted : InRange { p with nread := p.nread + 1 } :=
        ⟨h.inRange.toRanged.of_numbers rfl, h.inRange.method, h.inRange.letters, h.inRange.body⟩
      revert hnext
      unfold onByte
      dsimp only
      split
      · split
        · intro hnext
          exact absurd rfl hnext
        · rename_i hlimit
          intro _
          have hle : p.nread + 1 ≤ maxHeaderSize := by simpa using hlimit
          exact (stays_dispatch hcounted).nread.trans hle
      · intro _
        exact (stays_dispatch h.inRange).nread.trans hwithin

theorem counted_onByte {c : Cursor} {n : Nat} (h : Counted n c) (hnext : (onByte c ch).next = .more) :
    Counted (n + 1) (onByte c ch).state := by
  obtain ⟨hrange, hnread, -⟩ := inRange_onByte h.inRange ch
  exact ⟨hrange, onByte_inLoop h.inLoop hnext, nread_le_of_outer h (by rw [hnext]; decide),
    hnread.trans (Nat.succ_le_succ h.nread)⟩

/-- A message does not end in an inner loop. -/
theorem outer_of_exit {c : Cursor} (h : (onByte c ch).next = .exit) : (onByte c ch).state.2 = none := by
  obtain ⟨p, inner⟩ := c
  have hmoves : Moves p (onByte (p, inner) ch) := onByte_moves
  have hmove := hmoves (by rw [h]; decide)
  by_cases hloop : Looping p
  · exfalso
    revert h
    unfold onByte dispatch
    rcases hloop with hs | hs
    · simp only [hs, ParserState.parsingHeader, if_true]
      unfold headerField
      dsimp only
      split_ifs
      all_goals
        intro h
        cases h
    · simp only [hs, ParserState.parsingHeader, if_true]
      unfold headerValue headerAlmostDone
      dsimp only
      split_ifs
      all_goals try split
      all_goals
        intro h
        cases h
  · exact hmove.1.outer hloop

theorem counted_scan {c : Cursor} {n : Nat} (h : Counted n c) (marked : Pieces.Marked DataCallback)
    (bs : Bytes) :
    let r := Pieces.scan onByte c marked bs
    InRange r.state.1 ∧ r.state.1.nread ≤ maxHeaderSize + (n + bs.length) ∧
      (r.next = .more → r.state.2 = none → r.state.1.nread ≤ maxHeaderSize) ∧
      (r.next = .exit → r.state.1.nread ≤ maxHeaderSize) ∧
      (r.next = .error → r.state.1.httpErrno ≠ .ok) := by
  induction bs generalizing c n marked with
  | nil => exact ⟨h.inRange, h.nread, fun _ => h.outer, fun h => (by cases h), fun h => (by cases h)⟩
  | cons b bs ih =>
      obtain ⟨hrange, hnread, hrefused⟩ := inRange_onByte h.inRange b
      have hlast : (onByte c b).state.1.nread ≤ maxHeaderSize + (n + (b :: bs).length) := by
        refine hnread.trans ((Nat.succ_le_succ h.nread).trans ?_)
        rw [List.length_cons]
        omega
      cases hnext : (onByte c b).next with
      | more =>
          rw [Pieces.scan_more hnext]
          obtain ⟨hrange, hnread, hends⟩ := ih (counted_onByte h hnext)
            (Pieces.extend b (Pieces.acts b marked (onByte c b).actions).1)
          refine ⟨hrange, hnread.trans_eq ?_, hends⟩
          rw [List.length_cons]
          omega
      | exit =>
          rw [Pieces.scan_exit hnext]
          exact ⟨hrange, hlast, fun h => (by cases h),
            fun _ => nread_le_of_outer h (by rw [hnext]; decide) (outer_of_exit hnext),
            fun h => (by cases h)⟩
      | error =>
          rw [Pieces.scan_error hnext]
          exact ⟨hrange, hlast, fun h => (by cases h), fun h => (by cases h), fun _ => hrefused hnext⟩

end Handlers

/-! ## Segments -/

/-- The parser between two segments, as long as there is no error. -/
structure Rested (p : HttpParser) : Prop where
  inRange : InRange p
  nread : p.nread ≤ maxHeaderSize

theorem rested_init : Rested .init := by
  refine ⟨inRange_of_plain ⟨?_, ?_, fun h => (by cases h), ?_, ?_⟩ rfl, ?_⟩
  all_goals exact Nat.zero_le _

section Segments

variable {p : HttpParser}

theorem Rested.counted (h : Rested p) : Counted 0 (p, none) :=
  ⟨h.inRange, inLoop_none rfl, fun _ => h.nread, h.nread⟩

theorem rested_execute (h : p.httpErrno = .ok → Rested p) (data : Bytes)
    (hok : (execute p data).parser.httpErrno = .ok) : Rested (execute p data).parser := by
  revert hok
  unfold execute
  split
  · exact h
  · rename_i hp
    have hrested := h (not_not.mp hp)
    split
    · split
      · exact h
      · intro hok
        cases hok
    · obtain ⟨hrange, -, houter, hexit, hrefused⟩ :=
        counted_scan hrested.counted ((resumed p.state).map fun k => (k, [])) data
      unfold finish
      dsimp only
      split
      · rename_i hnext
        exact fun _ => ⟨hrange, hexit hnext⟩
      · rename_i hnext
        exact fun hok => absurd hok (hrefused hnext)
      · rename_i hnext
        split
        · intro hok
          cases hok
        · rename_i hlimit
          refine fun _ => ⟨hrange, ?_⟩
          cases hinner : (Pieces.scan onByte (p, none) ((resumed p.state).map fun k => (k, []))
              data).state.2 with
          | none => exact houter hnext hinner
          | some n =>
              rw [hinner, Option.isSome_some, Bool.true_and, decide_eq_true_eq] at hlimit
              exact Nat.not_lt.mp hlimit

theorem rested_executeAll (h : p.httpErrno = .ok → Rested p) (segments : List Bytes)
    (hok : (executeAll p segments).1.httpErrno = .ok) : Rested (executeAll p segments).1 := by
  induction segments generalizing p with
  | nil => exact h hok
  | cons data segments ih => exact ih (rested_execute h data) hok

end Segments

/-- The parser when it has read `n` bytes of the segment `data`. -/
def readBy (p : HttpParser) (data : Bytes) (n : Nat) : HttpParser :=
  (Pieces.scan onByte (p, none) ((resumed p.state).map fun k => (k, [])) (data.take n)).state.1

/-- Whatever bytes have come, and wherever the parser is in its segment: its numbers are in
    range. The count of the header stays below its limit but for the bytes of one segment,
    so it does not wrap either when segments have less than 4 GiB. -/
theorem readBy_inRange (segments : List Bytes) (data : Bytes) (n : Nat)
    (hok : (executeAll .init segments).1.httpErrno = .ok) :
    let p := readBy (executeAll .init segments).1 data n
    InRange p ∧ p.nread ≤ maxHeaderSize + data.length := by
  have hrested := rested_executeAll (fun _ => rested_init) segments hok
  obtain ⟨hrange, hnread, -⟩ := counted_scan hrested.counted
    ((resumed (executeAll .init segments).1.state).map fun k => (k, [])) (data.take n)
  refine ⟨hrange, hnread.trans ?_⟩
  rw [Nat.zero_add]
  exact Nat.add_le_add_left (List.length_take_le' n data) _

/-- In the middle of the size of a chunk. -/
theorem readBy_inRange_chunk :
    (readBy (executeAll .init [bytes "POST / HTTP/1.1\r\nTransfer-Enc"]).1
        (bytes "oding: chunked\r\n\r\nff\r\n") 20).contentLength = 255 ∧
      InRange (readBy (executeAll .init [bytes "POST / HTTP/1.1\r\nTransfer-Enc"]).1
        (bytes "oding: chunked\r\n\r\nff\r\n") 20) :=
  ⟨by decide +kernel, (readBy_inRange _ _ 20 (by decide +kernel)).1⟩

end HttpParser

end QGServer
