-- SUMMARY: What the parser makes of header lines: names, values, and which of them it looks at itself.
import QGServer.HttpParser.ReadRequestLine

/-!
# Reading header lines

The name of a header is matched with the names that the parser knows, character by
character. `nameKey` is where the matching stands behind a name, and `Matched` what
it then says about the name.
-/

namespace QGServer

namespace HttpParser

open Pieces (Reads Tells)

section Lines

variable {p q : HttpParser} {ch : UInt8} {k : Known}

/-! ## Words -/

/-- A matcher that has `read` behind it misses, hits, or stays on the word. -/
theorem matchWord_cases {word read : Bytes} {c : UInt8} (stay miss hit : HeaderState)
    (hread : read <+: word) (hc : c ≠ 0) :
    matchWord word read.length c stay miss hit = miss ∨
      matchWord word read.length c stay miss hit = hit ∧ read ++ [c] = word ∨
      matchWord word read.length c stay miss hit = stay ∧ read ++ [c] <+: word := by
  obtain ⟨rest, rfl⟩ := hread
  unfold matchWord
  rw [List.getD_eq_getElem?_getD, List.getElem?_append_right le_rfl, Nat.sub_self, List.length_append]
  cases rest with
  | nil => simp [hc]
  | cons d rest =>
      rw [List.getElem?_cons_zero, Option.getD_some]
      by_cases hcd : c = d
      · subst hcd
        have hle : ¬ (read.length > read.length + (c :: rest).length || decide (c ≠ c)) = true := by
          simp
        rw [if_neg hle]
        by_cases hrest : rest = []
        · subst hrest
          exact .inr (.inl ⟨if_pos rfl, rfl⟩)
        · have hlen : ¬ read.length = read.length + (c :: rest).length - 1 := by
            have hpos : 0 < rest.length := List.length_pos_iff.mpr hrest
            rw [List.length_cons]
            omega
          refine .inr (.inr ⟨if_neg hlen, ?_⟩)
          exact ⟨rest, by simp⟩
      · exact .inl (if_pos (by simp [hcd]))

/-! ## Header names -/

/-- Where the matching of a header name stands: the state, the index, and whether
    `Transfer-Encoding` was met. -/
abbrev NameKey := HeaderState × Nat × Bool

/-- The state behind the first character. -/
def firstKey (c : UInt8) : HeaderState :=
  if c = byte 'c' then .c
  else if c = byte 'p' then .matchingProxyConnection
  else if c = byte 't' then .matchingTransferEncoding
  else if c = byte 'u' then .matchingUpgrade
  else .general

def nameStep (key : NameKey) (c : UInt8) : NameKey :=
  let q := headerFieldChar { HttpParser.init with headerState := key.1, index := key.2.1 } 0 c
  (q.headerState, q.index, key.2.2 || q.headerState = .transferEncoding)

/-- The key behind a name in lower case. -/
def nameKey : Bytes → NameKey
  | [] => (.general, 0, false)
  | c :: cs => cs.foldl nameStep (firstKey c, 0, false)

/-- The flags when a name has been read. -/
def metEncoding (met : Bool) (f : ParserFlags) : ParserFlags :=
  if met then { f with transferEncoding := true } else f

/-- What a character of a name does. -/
def nameChar (p : HttpParser) (ch : UInt8) : HttpParser := headerFieldChar p.count ch (token ch)

theorem headerFieldChar_eq {c : UInt8} (hch : ch ≠ byte ' ') :
    headerFieldChar p ch c =
      let key := nameStep (p.headerState, p.index, false) c
      { p with headerState := key.1, index := key.2.1, flags := metEncoding key.2.2 p.flags } := by
  have hnull : (0 : UInt8) ≠ byte ' ' := by decide
  obtain ⟨state, headerState, index, flags, nread, contentLength, httpMajor, httpMinor, method,
    httpErrno, upgrade⟩ := p
  cases headerState
  case matchingTransferEncoding =>
    simp only [headerFieldChar, nameStep, metEncoding]
    unfold matchWord
    split_ifs <;> simp_all
  all_goals
    simp only [headerFieldChar, nameStep, metEncoding, matchWord, HttpParser.init, hch, hnull, ne_eq,
      not_false_eq_true, if_true, Bool.false_or]
    try split_ifs
  all_goals simp_all

theorem nameStep_met (key : NameKey) (c : UInt8) :
    nameStep key c =
      ((nameStep (key.1, key.2.1, false) c).1, (nameStep (key.1, key.2.1, false) c).2.1,
        key.2.2 || (nameStep (key.1, key.2.1, false) c).2.2) := by
  unfold nameStep
  simp

theorem metEncoding_or (met met' : Bool) (f : ParserFlags) :
    metEncoding met' (metEncoding met f) = metEncoding (met || met') f := by
  cases met <;> cases met' <;> rfl

theorem foldl_nameChar (chs : Bytes) (hchs : ∀ ch ∈ chs, ch ≠ byte ' ') (met : Bool)
    (flags : ParserFlags) (p : HttpParser) (hflags : p.flags = metEncoding met flags) :
    let key := (chs.map token).foldl nameStep (p.headerState, p.index, met)
    chs.foldl nameChar p =
      { p with
        headerState := key.1
        index := key.2.1
        flags := metEncoding key.2.2 flags
        nread := p.nread + chs.length } := by
  induction chs generalizing p met with
  | nil =>
      change p = { p with flags := metEncoding met flags }
      rw [← hflags]
  | cons ch chs ih =>
      rw [List.forall_mem_cons] at hchs
      have hchar : nameChar p ch = _ := headerFieldChar_eq (p := p.count) (c := token ch) hchs.1
      have hmet := nameStep_met (p.headerState, p.index, met) (token ch)
      have hrest := ih hchs.2 (nameStep (p.headerState, p.index, met) (token ch)).2.2 (nameChar p ch) (by
        rw [hchar, hmet]
        change metEncoding _ p.flags = _
        rw [hflags, metEncoding_or]
        rfl)
      rw [List.foldl_cons, hrest, List.map_cons, List.foldl_cons]
      have hkey : ((nameChar p ch).headerState, (nameChar p ch).index,
          (nameStep (p.headerState, p.index, met) (token ch)).2.2) =
            nameStep (p.headerState, p.index, met) (token ch) := by
        rw [hchar, hmet]
        rfl
      rw [hkey, hchar, List.length_cons, Nat.add_comm chs.length, ← Nat.add_assoc]
      rfl

theorem token_ne_zero (h : token ch ≠ 0) :
    ch ≠ byte ' ' ∧ ch ≠ CR ∧ ch ≠ LF ∧ ch ≠ 9 ∧ ch ≠ byte ':' := by
  refine ⟨?_, ?_, ?_, ?_, ?_⟩ <;> rintro rfl <;> exact h rfl

/-! ### Names without a meaning -/

/-- The states in which the matching of a name has not come to an end. -/
def unmatched : HeaderState → Bool
  | .general | .c | .co | .con | .matchingConnection | .matchingProxyConnection
  | .matchingContentLength | .matchingTransferEncoding | .matchingUpgrade => true
  | _ => false

/-- What a state says about the name that has been read, in lower case. -/
def Matched (read : Bytes) (index : Nat) : HeaderState → Prop
  | .general => True
  | .c => index + 1 = read.length ∧ read = bytes "c"
  | .co => index + 1 = read.length ∧ read = bytes "co"
  | .con => index + 1 = read.length ∧ read = bytes "con"
  | .matchingConnection => index + 1 = read.length ∧ read <+: bytes "connection"
  | .matchingProxyConnection => index + 1 = read.length ∧ read <+: bytes "proxy-connection"
  | .matchingContentLength => index + 1 = read.length ∧ read <+: bytes "content-length"
  | .matchingTransferEncoding => index + 1 = read.length ∧ read <+: bytes "transfer-encoding"
  | .matchingUpgrade => index + 1 = read.length ∧ read <+: bytes "upgrade"
  | .connection => read = bytes "connection" ∨ read = bytes "proxy-connection"
  | .contentLength => read = bytes "content-length"
  | .transferEncoding => read = bytes "transfer-encoding"
  | .upgrade => read = bytes "upgrade"
  | _ => False

theorem matched_first (c : UInt8) : Matched [c] 0 (firstKey c) := by
  unfold firstKey
  split_ifs with hc hp ht hu
  · rw [hc]
    exact ⟨rfl, rfl⟩
  · rw [hp]
    exact ⟨rfl, by decide⟩
  · rw [ht]
    exact ⟨rfl, by decide⟩
  · rw [hu]
    exact ⟨rfl, by decide⟩
  · trivial

/-- A matcher that has begun says the same of the longer name. -/
theorem matched_word {word read : Bytes} {index : Nat} {c : UInt8} {stay : HeaderState}
    (hit : HeaderState)
    (hstay : ∀ read index, Matched read index stay ↔ index + 1 = read.length ∧ read <+: word)
    (hhit : ∀ index, Matched word index hit) (hc : c ≠ 0) (h : Matched read index stay) :
    Matched (read ++ [c]) (index + 1) (matchWord word (index + 1) c stay .general hit) := by
  obtain ⟨hindex, hread⟩ := (hstay read index).mp h
  rw [hindex]
  rcases matchWord_cases stay .general hit hread hc with
    hmiss | ⟨hword, hend⟩ | ⟨hgoes, hprefix⟩
  · rw [hmiss]
    trivial
  · rw [hword, hend]
    exact hhit _
  · rw [hgoes, hstay, List.length_append]
    exact ⟨rfl, hprefix⟩

theorem matched_step {read : Bytes} {key : NameKey} {c : UInt8} (hc : c ≠ 0)
    (h : Matched read key.2.1 key.1) :
    Matched (read ++ [c]) (nameStep key c).2.1 (nameStep key c).1 := by
  obtain ⟨headerState, index, met⟩ := key
  dsimp only at h
  have hnull : (0 : UInt8) ≠ byte ' ' := by decide
  unfold nameStep headerFieldChar
  dsimp only
  cases headerState with
  | c =>
      obtain ⟨hindex, rfl⟩ := h
      dsimp only
      split_ifs with ho
      · rw [ho, hindex]
        exact ⟨rfl, rfl⟩
      · trivial
  | co =>
      obtain ⟨hindex, rfl⟩ := h
      dsimp only
      split_ifs with hn
      · rw [hn, hindex]
        exact ⟨rfl, rfl⟩
      · trivial
  | con =>
      obtain ⟨hindex, rfl⟩ := h
      dsimp only
      split_ifs with hn ht
      · rw [hn, hindex]
        exact ⟨rfl, by decide⟩
      · rw [ht, hindex]
        exact ⟨rfl, by decide⟩
      · trivial
  | matchingConnection => exact matched_word _ (fun _ _ => Iff.rfl) (fun _ => .inl rfl) hc h
  | matchingProxyConnection => exact matched_word _ (fun _ _ => Iff.rfl) (fun _ => .inr rfl) hc h
  | matchingContentLength => exact matched_word _ (fun _ _ => Iff.rfl) (fun _ => rfl) hc h
  | matchingUpgrade => exact matched_word _ (fun _ _ => Iff.rfl) (fun _ => rfl) hc h
  | matchingTransferEncoding =>
      have hword := matched_word .transferEncoding (fun _ _ => Iff.rfl) (fun _ => rfl) hc h
      dsimp only
      split_ifs <;> exact hword
  | general => trivial
  | connection | contentLength | transferEncoding | upgrade =>
      dsimp only
      rw [if_pos hnull]
      trivial
  | _ => exact h.elim

/-- A plain name leaves the matching open, and no `Transfer-Encoding` was met. -/
theorem plain_nameKey {name : Bytes} (h : PlainName name) :
    unmatched (nameKey (name.map token)).1 = true ∧ (nameKey (name.map token)).2.2 = false := by
  have hfold : ∀ (cs read : Bytes) (key : NameKey), (∀ c ∈ cs, c ≠ 0) →
      read ++ cs = name.map token → Matched read key.2.1 key.1 → key.2.2 = false →
        Matched (name.map token) (cs.foldl nameStep key).2.1 (cs.foldl nameStep key).1 ∧
          (cs.foldl nameStep key).2.2 = false := by
    intro cs
    induction cs with
    | nil =>
        intro read key _ hread hmatched hmet
        rw [List.append_nil] at hread
        rw [← hread]
        exact ⟨hmatched, hmet⟩
    | cons c cs ih =>
        intro read key hcs hread hmatched hmet
        rw [List.forall_mem_cons] at hcs
        have hnext := matched_step hcs.1 hmatched
        rw [List.foldl_cons]
        refine ih (read ++ [c]) _ hcs.2 (by rw [← hread]; simp) hnext ?_
        have hstate : (nameStep key c).1 ≠ .transferEncoding := by
          intro hstate
          rw [hstate] at hnext
          refine h.notTransferEncoding ⟨cs, ?_⟩
          rw [← hread, ← (show read ++ [c] = _ from hnext)]
          simp
        unfold nameStep at hstate ⊢
        dsimp only at hstate ⊢
        rw [hmet]
        simpa using hstate
  cases hname : name.map token with
  | nil => exact absurd (List.map_eq_nil_iff.mp hname) h.ne_nil
  | cons c cs =>
      have hcs : ∀ d ∈ c :: cs, d ≠ 0 := by
        rw [← hname, List.forall_mem_map]
        exact h.token
      obtain ⟨hmatched, hmet⟩ := hfold cs [c] (firstKey c, 0, false)
        (fun d hd => hcs d (List.mem_cons_of_mem _ hd)) (by rw [hname]; rfl) (matched_first c) rfl
      refine ⟨?_, hmet⟩
      have hunknown := h.unknown
      have hencoding := h.notTransferEncoding
      change unmatched (cs.foldl nameStep (firstKey c, 0, false)).1 = true
      generalize (cs.foldl nameStep (firstKey c, 0, false)).2.1 = index at hmatched
      generalize (cs.foldl nameStep (firstKey c, 0, false)).1 = headerState at hmatched ⊢
      cases headerState with
      | connection =>
          refine absurd ?_ hunknown
          rcases hmatched with heq | heq <;> rw [heq] <;> decide
      | contentLength | upgrade =>
          refine absurd ?_ hunknown
          rw [show name.map token = _ from hmatched]
          decide
      | transferEncoding =>
          refine absurd ?_ hencoding
          have hname : name.map token = _ := hmatched
          exact hname ▸ List.prefix_rfl
      | _ => first | rfl | exact hmatched.elim

/-! ## Where a line begins -/

/-- What the parser knows when the value that it has read is the last line of its header. -/
def settled (p : HttpParser) : Known := { p.known with flags := setFlag p.headerState p.flags }

theorem settled_eq {headerState : HeaderState} (hstate : p.headerState = headerState)
    (hk : p.known = k) : p.settled = { k with flags := setFlag headerState k.flags } := by
  rw [← hstate, ← hk]
  rfl

/-- A line may begin here, and if it does the parser knows `k`. An empty value is
    told only then. -/
inductive AtLine (p : HttpParser) (k : Known) : List Report → Prop where
  | start (hs : p.state = .headerFieldStart) (hk : p.known = k) : AtLine p k []
  | value (hs : p.state = .headerValueLws) (hk : p.settled = k) : AtLine p k []
  | empty (hs : p.state = .headerValueDiscardLws) (hlength : p.headerState ≠ .contentLength)
      (hk : p.settled = k) : AtLine p k [.data .headerValue []]

/-- The first byte of a line is taken as it is at the start of a header. -/
theorem AtLine.step {rs : List Report} (h : AtLine p k rs) (ch : UInt8) (hspace : ch ≠ byte ' ') (htab : ch ≠ 9)
    (hn : p.nread < maxHeaderSize) :
    ∃ q es, q.known = k ∧ q.nread = p.nread + 1 ∧ es.map (report) = rs ∧
      (byteMachine.step p ch).state = (headerFieldStart q ch).state.1 ∧
      (byteMachine.step p ch).next = (headerFieldStart q ch).next ∧
      Pieces.acts ch none (byteMachine.step p ch).actions =
        ((Pieces.acts ch none (headerFieldStart q ch).actions).1,
          es ++ (Pieces.acts ch none (headerFieldStart q ch).actions).2) := by
  have hblank : ¬ (ch = byte ' ' || decide (ch = 9)) = true := by simp [hspace, htab]
  cases h with
  | start hs hk =>
      rw [step_head (by rw [hs]; rfl) hn]
      refine ⟨p.count, [], hk, rfl, rfl, ?_⟩
      have hdispatch : dispatch p.count none ch = headerFieldStart p.count ch := by
        have hstate : p.count.state = .headerFieldStart := hs
        unfold dispatch
        rw [hstate]
      rw [hdispatch]
      exact ⟨rfl, rfl, rfl⟩
  | value hs hk =>
      rw [step_head (by rw [hs]; rfl) hn]
      let q : HttpParser :=
        { p.count with flags := setFlag p.headerState p.flags, state := .headerFieldStart }
      refine ⟨q, [], hk, rfl, rfl, ?_⟩
      have hdispatch : dispatch p.count none ch = headerFieldStart q ch := by
        have hstate : p.count.state = .headerValueLws := hs
        unfold dispatch
        rw [hstate]
        exact if_neg hblank
      rw [hdispatch]
      exact ⟨rfl, rfl, rfl⟩
  | empty hs hlength hk =>
      rw [step_head (by rw [hs]; rfl) hn]
      let q : HttpParser :=
        { p.count with flags := setFlag p.headerState p.flags, state := .headerFieldStart }
      refine ⟨q, [.data .headerValue q []], hk, rfl, rfl, ?_⟩
      have hdispatch : dispatch p.count none ch =
          before (.mark .headerValue) (before (.data .headerValue q) (headerFieldStart q ch)) := by
        have hstate : p.count.state = .headerValueDiscardLws := hs
        unfold dispatch
        rw [hstate]
        unfold headerValueDiscardLws
        rw [if_neg hblank]
        exact if_neg hlength
      rw [hdispatch]
      exact ⟨rfl, rfl, rfl⟩

/-- A line end in place of a line ends the head. -/
theorem AtLine.tells_cr {rs : List Report} (h : AtLine p k rs) (hn : p.nread < maxHeaderSize) :
    ∃ q, Tells byteMachine.step report p [CR] rs q ∧ q.state = .headersAlmostDone ∧ q.known = k ∧
      q.nread = p.nread + 1 := by
  obtain ⟨q, es, hk, hread, hes, hstate, hnext, hacts⟩ :=
    h.step CR (by decide) (by decide) hn
  have hstart : headerFieldStart q CR = goto .headersAlmostDone q := rfl
  rw [hstart] at hstate hnext hacts
  refine ⟨{ q with state := .headersAlmostDone }, ⟨es ++ [], ?_, by rw [List.append_nil, hes]⟩, rfl,
    hk, hread⟩
  exact Reads.byte hnext hstate hacts

/-! ### Names -/

theorem reads_name {rs : List Report} {name : Bytes} (h : AtLine p k rs) (hne : name ≠ [])
    (hname : ∀ ch ∈ name, token ch ≠ 0) (hn : p.nread + name.length ≤ maxHeaderSize) :
    ∃ q es, Reads byteMachine.step p none name es q (some (.headerField, name)) ∧
      es.map (report) = rs ∧ q.state = .headerField ∧
      q.headerState = (nameKey (name.map token)).1 ∧
      q.known = { k with flags := metEncoding (nameKey (name.map token)).2.2 k.flags } ∧
      q.nread = p.nread + name.length := by
  cases name with
  | nil => exact absurd rfl hne
  | cons ch chs =>
      rw [List.forall_mem_cons] at hname
      rw [List.length_cons] at hn
      obtain ⟨hspace, hcr, hlf, htab, -⟩ := token_ne_zero hname.1
      obtain ⟨q, es, hk, hread, hes, hstate, hnext, hacts⟩ := h.step ch hspace htab (by omega)
      let q₁ : HttpParser :=
        { q with index := 0, state := .headerField, headerState := firstKey (token ch) }
      have hstart : headerFieldStart q ch = before (.mark .headerField) (more q₁) := by
        unfold headerFieldStart
        rw [if_neg hcr, if_neg hlf]
        exact if_neg hname.1
      rw [hstart] at hstate hnext hacts
      have hfirst : Reads byteMachine.step p none [ch] (es ++ []) q₁ (some (.headerField, [ch])) :=
        Reads.byte hnext hstate hacts
      -- the other characters are matched one after another
      have hrest : Reads byteMachine.step q₁ (some (.headerField, [ch])) chs [] (chs.foldl nameChar q₁)
          (some (.headerField, [ch] ++ chs)) := by
        apply Reads.element nameChar (fun bs p => p.state = .headerField ∧ (∀ b ∈ bs, token b ≠ 0) ∧
          p.nread + bs.length ≤ maxHeaderSize)
        · rintro p b bs ⟨hs, hbs, hn⟩
          rw [List.forall_mem_cons] at hbs
          rw [List.length_cons] at hn
          have hdispatch : dispatch p.count none b = within 0 (nameChar p b) := by
            have hstate : p.count.state = .headerField := hs
            unfold dispatch
            rw [hstate]
            exact if_pos hbs.1
          rw [step_head (by rw [hs]; rfl) (by omega), hdispatch]
          have hchar := headerFieldChar_eq (p := p.count) (c := token b) (token_ne_zero hbs.1).1
          refine ⟨rfl, rfl, .inl rfl, ?_, hbs.2, ?_⟩
          · unfold nameChar
            rw [hchar]
            exact hs
          · unfold nameChar
            rw [hchar]
            change p.nread + 1 + bs.length ≤ maxHeaderSize
            omega
        · refine ⟨rfl, hname.2, ?_⟩
          change q.nread + chs.length ≤ maxHeaderSize
          omega
      have hfold := foldl_nameChar chs (fun b hb => (token_ne_zero (hname.2 b hb)).1) false
        k.flags q₁ (by rw [← hk]; rfl)
      dsimp only at hfold
      rw [hfold] at hrest
      refine ⟨_, _, hfirst.append hrest, by simpa using hes, rfl, rfl, ?_, ?_⟩
      · rw [← hk]
        rfl
      · change q.nread + chs.length = p.nread + (chs.length + 1)
        omega

/-- A name with the colon and the blank behind it. -/
theorem tells_name {rs : List Report} {name : Bytes} (h : AtLine p k rs) (hne : name ≠ [])
    (hname : ∀ ch ∈ name, token ch ≠ 0) (hn : p.nread + (name.length + 2) ≤ maxHeaderSize) :
    ∃ q, Tells byteMachine.step report p (name ++ bytes ": ") (rs ++ [.data .headerField name]) q ∧
      q.state = .headerValueDiscardWs ∧ q.headerState = (nameKey (name.map token)).1 ∧
      q.known = { k with flags := metEncoding (nameKey (name.map token)).2.2 k.flags } ∧
      q.nread = p.nread + (name.length + 2) := by
  obtain ⟨q, es, hreads, hes, hs, hkey, hk, hread⟩ := reads_name h hne hname (by omega)
  let q₁ : HttpParser := { q.count with state := .headerValueDiscardWs }
  have hcolon : Reads byteMachine.step q (some (.headerField, name)) [byte ':']
      [.data .headerField q₁ name] q₁ none := by
    have hstep : byteMachine.step q (byte ':') = ⟨q₁, [.data .headerField q₁], .more⟩ := by
      have hstate : q.count.state = .headerField := hs
      have hlimit : ¬ q.count.nread > maxHeaderSize := by
        change ¬ q.nread + 1 > maxHeaderSize
        omega
      have hdispatch : dispatch q.count none (byte ':') = callbackData .headerField q₁ := by
        have hcolon : ¬ token (byte ':') ≠ 0 := by decide
        have hfield : dispatch q.count none (byte ':') = headerField q.count (byte ':') := by
          unfold dispatch
          rw [hstate]
        rw [hfield]
        unfold headerField
        dsimp only
        rw [if_neg hcolon, if_neg hlimit]
        rfl
      rw [step_head (by rw [hs]; rfl) (by omega), hdispatch]
      rfl
    have hacts : Pieces.acts (byte ':') (some (.headerField, name)) (byteMachine.step q (byte ':')).actions =
        (none, [.data .headerField q₁ name]) := by
      rw [hstep]
      rfl
    exact Reads.byte (by rw [hstep]) (by rw [hstep]) hacts
  have hblank : Reads byteMachine.step q₁ none [byte ' '] [] q₁.count none := by
    apply Reads.quiet
    rw [step_head (p := q₁) rfl (by change q.nread + 1 < _; omega)]
    rfl
  refine ⟨q₁.count, ⟨_, hreads.append (hcolon.append hblank), ?_⟩, rfl, hkey, hk, ?_⟩
  · rw [List.map_append, hes]
    rfl
  · change q.nread + 1 + 1 = _
    omega

end Lines

end HttpParser

end QGServer
