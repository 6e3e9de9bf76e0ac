-- SUMMARY: What the parser makes of a request line: the method, the target and the version, one after another.
import QGServer.HttpParser.Fields
import QGServer.HttpParser.RequestLine
import QGServer.HttpParser.Messages

/-!
# Reading a request line

The parser on the parts of a well-formed request line. What it knows of the message
is `Known`; the rest of its state, which matches words and counts bytes, is only
described where a part ends.
-/

namespace QGServer

namespace HttpParser

open Pieces (Reads Tells)

/-- What is kept of the kind of an element. -/
def elementOf (k : DataCallback) (p : HttpParser) : Element :=
  match k with
  | .url => .url p.method
  | .headerField => .headerField
  | .headerValue => .headerValue
  | .body => .body

/-- What is kept of a notice. -/
def noticeOf (n : NotifyCallback) (p : HttpParser) : Notice :=
  (n, if n = .headersComplete then some ⟨p.method, p.httpMajor, p.httpMinor, p.shouldKeepAlive⟩
    else none)

/-- What is kept of a call. -/
def report : Event → Report := Pieces.Event.report elementOf noticeOf

/-- What the parser knows of the message that it is in. -/
structure Known where
  method : HttpMethod
  httpMajor : Nat
  httpMinor : Nat
  flags : ParserFlags
  contentLength : Nat
  upgrade : Bool

def known (p : HttpParser) : Known :=
  ⟨p.method, p.httpMajor, p.httpMinor, p.flags, p.contentLength, p.upgrade⟩

/-- `COUNT_HEADER_SIZE` for one byte. -/
def count (p : HttpParser) : HttpParser := { p with nread := p.nread + 1 }

section Head

variable {p q : HttpParser} {ch : UInt8} {k : Known}

/-! ## One byte -/

theorem step_head (hs : p.state.parsingHeader = true) (hn : p.nread < maxHeaderSize) :
    byteMachine.step p ch =
      ⟨(dispatch p.count none ch).state.1, (dispatch p.count none ch).actions,
        (dispatch p.count none ch).next⟩ := by
  have hover : ¬ (p.nread + 1 > maxHeaderSize) := Nat.not_lt.mpr hn
  change (let o := onByte (p, none) ch; (⟨o.state.1, o.actions, o.next⟩ : Pieces.Outcome _ _ _ _)) = _
  unfold onByte
  simp only [hs, if_true, Option.isNone_none, Bool.true_and, decide_eq_true_eq, hover, if_false]
  rfl

theorem step_behind (hs : p.state.parsingHeader = false) :
    byteMachine.step p ch =
      ⟨(dispatch p none ch).state.1, (dispatch p none ch).actions, (dispatch p none ch).next⟩ := by
  change (let o := onByte (p, none) ch; (⟨o.state.1, o.actions, o.next⟩ : Pieces.Outcome _ _ _ _)) = _
  unfold onByte
  simp only [hs, Bool.false_eq_true, if_false]

/-- A byte of the head that only changes the state. -/
theorem tells_more (hs : p.state.parsingHeader = true) (hn : p.nread < maxHeaderSize)
    (h : dispatch p.count none ch = more q) : Tells byteMachine.step report p [ch] [] q := by
  apply Tells.quiet
  rw [step_head hs hn, h]
  rfl

/-- A byte of the head that ends with a notice. -/
theorem tells_notify {n : NotifyCallback} (hs : p.state.parsingHeader = true)
    (hn : p.nread < maxHeaderSize) (h : dispatch p.count none ch = callbackNotify n q) :
    Tells byteMachine.step report p [ch] [.notice (noticeOf n q)] q := by
  refine Tells.notices [(n, q)] ?_
  rw [step_head hs hn, h]
  rfl

/-! ## The method -/

/-- The cases of `s_req_method` that go on, without the space behind the method. -/
def methodStep (m : HttpMethod × Nat) (ch : UInt8) : Option (HttpMethod × Nat) :=
  if ch = m.1.string.getD m.2 0 then some (m.1, m.2 + 1)
  else (methodSwitch.lookup (m.1, m.2, ch)).map fun m' => (m', m.2 + 1)

/-- A character of a method. -/
def isMethodChar (ch : UInt8) : Bool := (byte 'A' ≤ ch && ch ≤ byte 'Z') || ch = byte '-'

theorem reqMethod_letter {m : HttpMethod × Nat} (hch : isMethodChar ch = true)
    (h : methodStep (p.method, p.index) ch = some m) :
    reqMethod p ch = more { p with method := m.1, index := m.2 } := by
  have hnull : ¬ ch = 0 := by
    rintro rfl
    exact absurd hch (by decide)
  have hspace : ¬ ch = byte ' ' := by
    rintro rfl
    exact absurd hch (by decide)
  unfold isMethodChar at hch
  unfold methodStep at h
  unfold reqMethod
  dsimp only at h ⊢
  simp only [hnull, hspace, decide_false, Bool.false_and, Bool.false_eq_true, if_false, hch, if_true]
  split_ifs at h ⊢
  · cases h
    rfl
  · obtain ⟨m', hm', rfl⟩ := Option.map_eq_some_iff.mp h
    rw [hm']

/-- The letters of a method are all read, and they lead to the method. -/
def readsMethod (m : HttpMethod) : Bool :=
  match m.string with
  | [] => false
  | ch :: chs =>
    match startMethod ch with
    | none => false
    | some m' =>
      isAlpha ch && ch ≠ CR && ch ≠ LF && chs.all isMethodChar &&
        chs.foldlM methodStep (m', 1) == some (m, m.string.length)

theorem readsMethod_all (m : HttpMethod) : readsMethod m = true := by
  cases m <;> decide +kernel

theorem tells_methodLetters {chs : Bytes} {m : HttpMethod × Nat} (hs : p.state = .reqMethod)
    (hchs : ∀ ch ∈ chs, isMethodChar ch = true)
    (hfold : chs.foldlM methodStep (p.method, p.index) = some m)
    (hn : p.nread + chs.length ≤ maxHeaderSize) :
    Tells byteMachine.step report p chs []
      { p with method := m.1, index := m.2, nread := p.nread + chs.length } := by
  induction chs generalizing p with
  | nil =>
      cases hfold
      exact .nil
  | cons ch chs ih =>
      rw [List.forall_mem_cons] at hchs
      rw [List.length_cons] at hn
      rw [List.foldlM_cons] at hfold
      obtain ⟨m', hm', hfold⟩ := Option.bind_eq_some_iff.mp hfold
      have hbyte : dispatch p.count none ch = more { p.count with method := m'.1, index := m'.2 } := by
        have hstate : p.count.state = .reqMethod := hs
        unfold dispatch
        rw [hstate]
        exact reqMethod_letter hchs.1 hm'
      have hfirst := tells_more (by rw [hs]; rfl) (by omega) hbyte
      have hrest := @ih { p.count with method := m'.1, index := m'.2 } hs hchs.2 hfold
        (by simp only [count]; omega)
      rw [List.length_cons, Nat.add_comm chs.length, ← Nat.add_assoc]
      exact hfirst.append hrest

/-- The method and the space behind it. -/
theorem tells_method (m : HttpMethod) (hs : p.state = .startReq)
    (hn : p.nread + (m.string.length + 1) ≤ maxHeaderSize) :
    ∃ q, Tells byteMachine.step report p (m.string ++ bytes " ") [.notice (.messageBegin, none)] q ∧
      q.state = .reqSpacesBeforeUrl ∧ q.method = m ∧ q.flags = .zero ∧ q.contentLength = ullongMax ∧
      q.upgrade = p.upgrade ∧ q.nread = p.nread + (m.string.length + 1) := by
  have hreads := readsMethod_all m
  unfold readsMethod at hreads
  split at hreads
  · cases hreads
  · rename_i ch chs hstring
    split at hreads
    · cases hreads
    · rename_i m' hstart
      simp only [Bool.and_eq_true, beq_iff_eq, List.all_eq_true, ne_eq,
        decide_not, Bool.not_eq_true', decide_eq_false_iff_not] at hreads
      obtain ⟨⟨⟨⟨halpha, hcr⟩, hlf⟩, hchs⟩, hfold⟩ := hreads
      rw [hstring, List.length_cons] at hn hfold
      -- the first letter resets the parser
      let p₁ : HttpParser := { p.count with
        flags := .zero, contentLength := ullongMax, method := m', index := 1, state := .reqMethod }
      have hfirst : Tells byteMachine.step report p [ch] [.notice (.messageBegin, none)] p₁ := by
        refine tells_notify (n := .messageBegin) (by rw [hs]; rfl) (by omega) ?_
        have hstate : p.count.state = .startReq := hs
        unfold dispatch
        rw [hstate]
        unfold startReq
        simp only [hcr, hlf, decide_false, Bool.or_self, Bool.false_eq_true, if_false, halpha,
          Bool.not_true, hstart]
        rfl
      have hletters := @tells_methodLetters p₁ chs _ rfl hchs hfold
        (by simp only [p₁, count]; omega)
      let p₂ : HttpParser := { p₁ with
        method := m, index := chs.length + 1, nread := p₁.nread + chs.length }
      have hspace : Tells byteMachine.step report p₂ (bytes " ") []
          { p₂.count with state := .reqSpacesBeforeUrl, index := chs.length + 2 } := by
        apply tells_more (p := p₂) rfl (by simp only [p₂, p₁, count]; omega)
        change reqMethod p₂.count (byte ' ') = _
        have hend : p₂.count.method.string.getD p₂.count.index 0 = 0 := by
          change m.string.getD (chs.length + 1) 0 = 0
          rw [hstring]
          simp
        unfold reqMethod
        dsimp only
        rw [hend]
        rfl
      refine ⟨{ p₂.count with state := .reqSpacesBeforeUrl, index := chs.length + 2 }, ?_, rfl, rfl,
        rfl, rfl, rfl, ?_⟩
      · rw [hstring]
        exact (hfirst.append hletters).append hspace
      · rw [hstring]
        simp only [p₂, p₁, count, List.length_cons]
        omega

/-! ## The target -/

theorem dispatch_target (hp : p.place = .element .url) (hlive : parseUrlChar p.state ch ≠ .dead) :
    dispatch p none ch = goto (parseUrlChar p.state ch) p := by
  have hblank := not_blank hlive
  simp only [Bool.or_eq_true, decide_eq_true_eq, not_or] at hblank
  obtain ⟨⟨⟨⟨hspace, hcr⟩, hlf⟩, -⟩, -⟩ := hblank
  have hchar : urlChar p p.state ch = goto (parseUrlChar p.state ch) p := by
    unfold urlChar
    exact if_neg hlive
  rcases @dispatch_url p ch hp with h | h
  · rw [h, ← hchar]
    unfold reqSchema
    simp only [hspace, hcr, hlf, decide_false, Bool.or_self, Bool.false_eq_true, if_false]
  · rw [h, ← hchar]
    unfold reqUrl
    simp only [hspace, hcr, hlf, decide_false, Bool.or_self, Bool.false_eq_true, if_false]

/-- What a character of the target does. -/
def targetChar (p : HttpParser) (ch : UInt8) : HttpParser :=
  { p.count with state := parseUrlChar p.state ch }

theorem foldl_targetChar (chs : Bytes) (p : HttpParser) :
    chs.foldl targetChar p =
      { p with state := chs.foldl parseUrlChar p.state, nread := p.nread + chs.length } := by
  induction chs generalizing p with
  | nil => rfl
  | cons ch chs ih =>
      rw [List.foldl_cons, ih, List.length_cons, Nat.add_comm chs.length, ← Nat.add_assoc]
      rfl

theorem live_of_isUrlEnd {s : ParserState} {chs : Bytes}
    (h : isUrlEnd (chs.foldl parseUrlChar s) = true) : Live s chs := by
  intro hdead
  rw [hdead] at h
  cases h

theorem reads_target {target : Bytes} (hs : p.state = .reqSpacesBeforeUrl) (hm : p.method ≠ .connect)
    (hends : isUrlEnd (target.foldl parseUrlChar .reqSpacesBeforeUrl) = true)
    (hn : p.nread + target.length ≤ maxHeaderSize) :
    Reads byteMachine.step p none target [] (target.foldl targetChar p) (some (.url, target)) := by
  cases target with
  | nil => cases hends
  | cons ch chs =>
      rw [List.length_cons] at hn
      rw [List.foldl_cons] at hends
      have hlive := live_of_isUrlEnd hends
      have hchar : parseUrlChar .reqSpacesBeforeUrl ch ≠ .dead := by
        intro hdead
        rw [hdead] at hlive
        exact hlive (foldl_dead chs)
      have hspace : ¬ ch = byte ' ' := by
        rintro rfl
        exact hchar rfl
      -- the first character sets the mark
      have hfirst : Reads byteMachine.step p none [ch] [] (targetChar p ch) (some (.url, [ch])) := by
        have hstep : byteMachine.step p ch = ⟨targetChar p ch, [.mark .url], .more⟩ := by
          have hstate : p.count.state = .reqSpacesBeforeUrl := hs
          have hmethod : ¬ p.count.method = .connect := hm
          rw [step_head (by rw [hs]; rfl) (by omega)]
          unfold dispatch
          rw [hstate]
          unfold reqSpacesBeforeUrl
          rw [if_neg hspace, if_neg hmethod]
          unfold urlChar
          dsimp only
          rw [if_neg hchar]
          unfold targetChar
          rw [hs]
          rfl
        have hacts : Pieces.acts ch none (byteMachine.step p ch).actions = (some (.url, []), []) := by
          rw [hstep]
          rfl
        exact Reads.byte (by rw [hstep]) (by rw [hstep]) hacts
      -- the others are those of the URL
      have hrest : Reads byteMachine.step (targetChar p ch) (some (.url, [ch])) chs []
          (chs.foldl targetChar (targetChar p ch)) (some (.url, [ch] ++ chs)) := by
        apply Reads.element targetChar (fun bs p => p.place = .element .url ∧ Live p.state bs ∧
          p.nread + bs.length ≤ maxHeaderSize)
        · rintro p b bs ⟨hplace, hlive, hn⟩
          rw [List.length_cons] at hn
          have hstate : p.state.parsingHeader = true := by
            unfold place at hplace
            cases hs : p.state <;> rw [hs] at hplace <;> first | rfl | cases hplace
          have hnext := hlive.head
          rw [step_head hstate (by omega), dispatch_target (p := p.count) hplace hnext]
          refine ⟨rfl, rfl, .inl rfl, (placeOf_parseUrlChar p.state).resolve_left hnext, hlive.tail, ?_⟩
          change p.nread + 1 + bs.length ≤ maxHeaderSize
          omega
        · have hstate : (targetChar p ch).state = parseUrlChar .reqSpacesBeforeUrl ch := by
            rw [← hs]
            rfl
          refine ⟨?_, ?_, ?_⟩
          · unfold place
            rw [hstate]
            exact (placeOf_parseUrlChar _).resolve_left hchar
          · rw [hstate]
            exact hlive
          · change p.nread + 1 + chs.length ≤ maxHeaderSize
            omega
      exact hfirst.append hrest

/-- The target and the space behind it. -/
theorem tells_target {target : Bytes} (hs : p.state = .reqSpacesBeforeUrl) (hm : p.method ≠ .connect)
    (hends : isUrlEnd (target.foldl parseUrlChar .reqSpacesBeforeUrl) = true)
    (hn : p.nread + (target.length + 1) ≤ maxHeaderSize) :
    Tells byteMachine.step report p (target ++ bytes " ") [.data (.url p.method) target]
      { p with state := .reqHttpStart, nread := p.nread + (target.length + 1) } := by
  have htarget := reads_target hs hm hends (by omega)
  rw [foldl_targetChar, hs] at htarget
  generalize target.foldl parseUrlChar .reqSpacesBeforeUrl = s at hends htarget
  let p₁ : HttpParser := { p with state := s, nread := p.nread + target.length }
  let p₂ : HttpParser := { p₁.count with state := .reqHttpStart }
  have hspace : Reads byteMachine.step p₁ (some (.url, target)) (bytes " ") [.data .url p₂ target]
      p₂ none := by
    have hstep : byteMachine.step p₁ (byte ' ') = ⟨p₂, [.data .url p₂], .more⟩ := by
      rw [step_head (by cases s <;> first | rfl | cases hends) (by change p.nread + _ < _; omega)]
      have hreq : dispatch p₁.count none (byte ' ') = reqUrl p₁.count (byte ' ') := by
        cases s <;> first | rfl | cases hends
      rw [hreq]
      rfl
    have hacts : Pieces.acts (byte ' ') (some (.url, target)) (byteMachine.step p₁ (byte ' ')).actions =
        (none, [.data .url p₂ target]) := by
      rw [hstep]
      rfl
    exact Reads.byte (by rw [hstep]) (by rw [hstep]) hacts
  exact ⟨_, htarget.append hspace, rfl⟩

/-! ## The version -/

theorem isNum_digit {n : Nat} (h : n < 10) :
    isNum (UInt8.ofNat (48 + n)) = true ∧ (UInt8.ofNat (48 + n)).toNat - 48 = n := by
  revert n
  decide +kernel

/-- The version and the line end behind it. -/
theorem tells_version {httpMajor httpMinor : Nat} (hs : p.state = .reqHttpStart)
    (hmajor : httpMajor < 10) (hminor : httpMinor < 10) (hn : p.nread + 10 ≤ maxHeaderSize) :
    Tells byteMachine.step report p (versionText httpMajor httpMinor ++ [CR, LF]) []
      { p with
        state := .headerFieldStart
        httpMajor := httpMajor
        httpMinor := httpMinor
        nread := p.nread + 10 } := by
  obtain ⟨hmajorNum, hmajorVal⟩ := isNum_digit hmajor
  obtain ⟨hminorNum, hminorVal⟩ := isNum_digit hminor
  -- the parser in a state of the version, behind `n` of its bytes
  let at' (s : ParserState) (n : Nat) : HttpParser := { p with state := s, nread := p.nread + n }
  have hstart : p = at' .reqHttpStart 0 := by
    rw [← hs]
    rfl
  have hconst : ∀ (s s' : ParserState) (n : Nat) (ch : UInt8), s.parsingHeader = true → n < 10 →
      dispatch (at' s n).count none ch = more (at' s' (n + 1)) →
        Tells byteMachine.step report (at' s n) [ch] [] (at' s' (n + 1)) := by
    intro s s' n ch hheader hlt h
    exact tells_more hheader (by change p.nread + n < _; omega) h
  have hslash : Tells byteMachine.step report p (bytes "HTTP/") [] (at' .reqHttpMajor 5) := by
    rw [hstart]
    have h₁ := hconst .reqHttpStart .reqHttpH 0 (byte 'H') rfl (by decide) rfl
    have h₂ := hconst .reqHttpH .reqHttpHT 1 (byte 'T') rfl (by decide) rfl
    have h₃ := hconst .reqHttpHT .reqHttpHTT 2 (byte 'T') rfl (by decide) rfl
    have h₄ := hconst .reqHttpHTT .reqHttpHTTP 3 (byte 'P') rfl (by decide) rfl
    have h₅ := hconst .reqHttpHTTP .reqHttpMajor 4 (byte '/') rfl (by decide) rfl
    exact (((h₁.append h₂).append h₃).append h₄).append h₅
  let p₆ : HttpParser := { at' .reqHttpDot 6 with httpMajor := httpMajor }
  let p₇ : HttpParser := { p₆.count with state := .reqHttpMinor }
  let p₈ : HttpParser := { p₇.count with httpMinor := httpMinor, state := .reqHttpEnd }
  let p₉ : HttpParser := { p₈.count with state := .reqLineAlmostDone }
  have hbig : Tells byteMachine.step report (at' .reqHttpMajor 5) [UInt8.ofNat (48 + httpMajor)] [] p₆ := by
    refine tells_more rfl (by change p.nread + 5 < _; omega) ?_
    change reqHttpMajor _ _ = _
    unfold reqHttpMajor
    rw [hmajorNum, hmajorVal]
    rfl
  have hdot : Tells byteMachine.step report p₆ [byte '.'] [] p₇ :=
    tells_more rfl (by change p.nread + 6 < _; omega) rfl
  have hsmall : Tells byteMachine.step report p₇ [UInt8.ofNat (48 + httpMinor)] [] p₈ := by
    refine tells_more rfl (by change p.nread + 6 + 1 < _; omega) ?_
    change reqHttpMinor _ _ = _
    unfold reqHttpMinor
    rw [hminorNum, hminorVal]
    rfl
  have hcr : Tells byteMachine.step report p₈ [CR] [] p₉ :=
    tells_more rfl (by change p.nread + 6 + 1 + 1 < _; omega) rfl
  have hlf : Tells byteMachine.step report p₉ [LF] [] { p₉.count with state := .headerFieldStart } :=
    tells_more rfl (by change p.nread + 6 + 1 + 1 + 1 < _; omega) rfl
  exact ((hslash.append ((hbig.append hdot).append hsmall)).append (hcr.append hlf))

/-! ## The request line -/

theorem tells_requestLine (m : HttpMethod) {target : Bytes} {httpMajor httpMinor : Nat}
    (hs : p.state = .startReq) (hm : m ≠ .connect)
    (hends : isUrlEnd (target.foldl parseUrlChar .reqSpacesBeforeUrl) = true)
    (hmajor : httpMajor < 10) (hminor : httpMinor < 10)
    (hn : p.nread + (requestLine m target httpMajor httpMinor).length ≤ maxHeaderSize) :
    ∃ q, Tells byteMachine.step report p (requestLine m target httpMajor httpMinor)
        [.notice (.messageBegin, none), .data (.url m) target] q ∧
      q.state = .headerFieldStart ∧ q.known = ⟨m, httpMajor, httpMinor, .zero, ullongMax, p.upgrade⟩ ∧
      q.nread = p.nread + (requestLine m target httpMajor httpMinor).length := by
  have hlen : (requestLine m target httpMajor httpMinor).length =
      m.string.length + 1 + (target.length + 1) + 10 := by
    unfold requestLine
    rw [List.length_append, List.length_append, List.length_append, List.length_append]
    rfl
  rw [hlen] at hn ⊢
  obtain ⟨p₁, hmethod, hs₁, rfl, hflags, hcontent, hupgrade, hn₁⟩ := tells_method m hs (by omega)
  have htarget := tells_target hs₁ hm hends (by omega)
  have hversion := tells_version
    (p := { p₁ with state := .reqHttpStart, nread := p₁.nread + (target.length + 1) })
    rfl hmajor hminor (by dsimp only; omega)
  refine ⟨_, (hmethod.append htarget).append hversion, rfl, ?_, ?_⟩
  · unfold known
    dsimp only
    rw [hflags, hcontent, hupgrade]
  · dsimp only
    omega

end Head

end HttpParser

end QGServer
