-- SUMMARY: What one byte can do to the parser: inversion of the handlers by the place in a message.
import QGServer.HttpParser.Execute

/-!
# The grammar of a message

A request is read in the order start, request line, headers, and perhaps a body;
the elements that are reported with their text lie in between. `Move` says what
a byte that is accepted can do at each place, and `dispatch_moves` that the
handlers do nothing else.
-/

namespace QGServer

namespace HttpParser

/-! ## Places -/

/-- Where in a message a state is. -/
inductive Place where
  /-- Between two messages. -/
  | start
  /-- In the request line, before the URL. -/
  | line
  /-- In an element that is reported with its text. -/
  | element (k : DataCallback)
  /-- Anywhere else before the end of the message. -/
  | head
  deriving DecidableEq

def placeOf : ParserState → Place
  | .dead | .startReq => .start
  | .reqMethod | .reqSpacesBeforeUrl => .line
  | .bodyIdentity | .chunkData | .chunkDataAlmostDone => .element .body
  | s => match resumed s with
    | some k => .element k
    | none => .head

/-- The place of the parser. -/
def place (p : HttpParser) : Place := placeOf p.state

/-- The element that the parser is in. -/
def element (p : HttpParser) : Option DataCallback :=
  match p.place with
  | .element k => some k
  | _ => none

theorem element_eq_some {p : HttpParser} {k : DataCallback} :
    p.element = some k ↔ p.place = .element k := by
  unfold element
  split <;> simp_all

/-- A mark at the start of a segment is one of the element. -/
theorem place_of_resumed {s : ParserState} {k : DataCallback} (h : resumed s = some k) :
    placeOf s = .element k := by
  cases s <;> simp_all [placeOf, resumed]

/-- Only in a body there is no mark at the start of a segment. -/
theorem resumed_of_place {s : ParserState} {k : DataCallback} (h : placeOf s = .element k)
    (hk : k ≠ .body) : resumed s = some k := by
  cases s <;> simp_all [placeOf, resumed]

theorem resumed_body {s : ParserState} (h : placeOf s = .element .body) : resumed s = none := by
  cases s <;> simp_all [placeOf, resumed]

theorem not_final_of_body {p : HttpParser} (h : p.place = .element .body) :
    p.bodyIsFinal = false := by
  unfold place at h
  unfold bodyIsFinal
  cases hs : p.state <;> simp_all [placeOf, resumed]

theorem place_newMessage (p : HttpParser) : placeOf (newMessage p) = .start := by
  unfold newMessage
  split <;> rfl

/-! ## Moves -/

/-- The notices as actions. -/
def notices (ns : List (NotifyCallback × HttpParser)) : List Action :=
  ns.map fun (n, q) => .notify n q

/-- What a byte does after the URL and outside of elements. -/
inductive HeadMove (o : Outcome) : Prop where
  /-- It stays there, or a body begins behind it. -/
  | notices (ns : List (NotifyCallback × HttpParser)) (hns : ∀ n ∈ ns, n.1 ≠ .messageComplete)
      (hactions : o.actions = HttpParser.notices ns) (hnext : o.next = .more)
      (hplace : o.state.1.place = .head ∨ o.state.1.place = .element .body)
      (hinner : o.state.2 = none)
  /-- It begins the name or the value of a header. -/
  | begins (k : DataCallback) (hk : k = .headerField ∨ k = .headerValue)
      (hactions : o.actions = [.mark k]) (hnext : o.next = .more)
      (hplace : o.state.1.place = .element k) (hinner : o.state.2 = none)
  /-- It is the last one of the message. -/
  | complete (ns : List (NotifyCallback × HttpParser)) (hns : ∀ n ∈ ns, n.1 ≠ .messageComplete)
      (q : HttpParser) (hactions : o.actions = HttpParser.notices ns ++ [.notify .messageComplete q])
      (hplace : o.state.1.place = .start) (hinner : o.state.2 = none)

/-- What a byte that is not refused does. Only a header name or value has an
    inner loop. -/
inductive Move (p : HttpParser) (o : Outcome) : Prop where
  | blank (hp : p.place = .start) (hactions : o.actions = []) (hnext : o.next = .more)
      (hplace : o.state.1.place = .start) (hinner : o.state.2 = none)
  | messageBegin (q : HttpParser) (hp : p.place = .start)
      (hactions : o.actions = [.notify .messageBegin q]) (hnext : o.next = .more)
      (hplace : o.state.1.place = .line) (hinner : o.state.2 = none)
  | line (hp : p.place = .line) (hactions : o.actions = []) (hnext : o.next = .more)
      (hplace : o.state.1.place = .line) (hinner : o.state.2 = none)
  | url (hp : p.place = .line) (hactions : o.actions = [.mark .url]) (hnext : o.next = .more)
      (hplace : o.state.1.place = .element .url) (hinner : o.state.2 = none)
  /-- It is part of an element other than the body. -/
  | inside (k : DataCallback) (hk : k ≠ .body) (hp : p.place = .element k)
      (hactions : o.actions = []) (hnext : o.next = .more) (hplace : o.state.1.place = .element k)
      (hmethod : o.state.1.method = p.method) (hinner : k = .url → o.state.2 = none)
  /-- It is the first one behind an element other than the body. -/
  | behind (k : DataCallback) (hk : k ≠ .body) (q : HttpParser) (hp : p.place = .element k)
      (hactions : o.actions = [.data k q]) (hnext : o.next = .more)
      (hplace : o.state.1.place = .head) (hmethod : q.method = p.method) (hinner : o.state.2 = none)
  | head (hp : p.place = .head) (h : HeadMove o)
  /-- It is the first one behind a header without value. -/
  | emptyValue (q : HttpParser) (o' : Outcome) (hp : p.place = .head)
      (ho : o = before (.mark .headerValue) (before (.data .headerValue q) o')) (h : HeadMove o')
  | body (hp : p.place = .element .body) (hactions : o.actions = [.mark .body])
      (hnext : o.next = .more) (hplace : o.state.1.place = .element .body) (hinner : o.state.2 = none)
  /-- It is the last one of a body with a length, and of the message. -/
  | bodyEnd (q q' : HttpParser) (hp : p.place = .element .body)
      (hactions : o.actions = [.mark .body, .dataTo .body q, .notify .messageComplete q'])
      (hfinal : q.bodyIsFinal = true) (hplace : o.state.1.place = .start) (hinner : o.state.2 = none)
  /-- It is the first one behind a chunk. -/
  | chunkEnd (q : HttpParser) (hp : p.place = .element .body) (hactions : o.actions = [.data .body q])
      (hnext : o.next = .more) (hfinal : q.bodyIsFinal = false) (hplace : o.state.1.place = .head)
      (hinner : o.state.2 = none)

/-- The outcome refuses the byte, or does one of the moves and no error is set. -/
def Moves (p : HttpParser) (o : Outcome) : Prop :=
  o.next ≠ .error → Move p o ∧ o.state.1.httpErrno = p.httpErrno

/-- The same behind the URL. -/
def HeadMoves (p : HttpParser) (o : Outcome) : Prop :=
  o.next ≠ .error → HeadMove o ∧ o.state.1.httpErrno = p.httpErrno

section Handlers

variable {p q : HttpParser} {ch : UInt8} {e : HttpErrno}

theorem moves_fail : Moves p (fail e q) := fun h => absurd rfl h

theorem headMoves_fail : HeadMoves p (fail e q) := fun h => absurd rfl h

theorem moves_head (hp : p.place = .head) {o : Outcome} (h : HeadMoves p o) : Moves p o :=
  fun hnext => ⟨.head hp (h hnext).1, (h hnext).2⟩

/-- On to another state behind the URL. -/
theorem headMoves_more (hq : q.place = .head ∨ q.place = .element .body)
    (he : q.httpErrno = p.httpErrno) : HeadMoves p (more q) :=
  fun _ => ⟨.notices [] (by simp) rfl rfl hq rfl, he⟩

theorem headMoves_notify {n : NotifyCallback} (hn : n ≠ .messageComplete)
    (hq : q.place = .head ∨ q.place = .element .body) (he : q.httpErrno = p.httpErrno) :
    HeadMoves p (callbackNotify n q) :=
  fun _ => ⟨.notices [(n, q)] (by simpa using hn) rfl rfl hq rfl, he⟩

theorem headMoves_complete (hq : q.place = .start) (he : q.httpErrno = p.httpErrno) {o : Outcome}
    (ho : o.actions = []) (hstate : o.state = (q, none)) :
    HeadMoves p (before (.notify .messageComplete q) o) := by
  refine fun _ => ⟨.complete [] (by simp) q ?_ ?_ ?_, ?_⟩
  · simp [before, ho, notices]
  · simpa [before, hstate] using hq
  · simp [before, hstate]
  · simpa [before, hstate] using he

/-- A notice that comes first. -/
theorem headMoves_before {n : NotifyCallback} (hn : n ≠ .messageComplete) {o : Outcome}
    (h : HeadMoves p o) (hmark : ∀ k, o.actions ≠ [.mark k]) :
    HeadMoves p (before (.notify n q) o) := by
  intro hnext
  refine ⟨?_, (h hnext).2⟩
  cases (h hnext).1 with
  | notices ns hns hactions hnext hplace hinner =>
      refine .notices ((n, q) :: ns) ?_ ?_ hnext hplace hinner
      · simpa [hn] using hns
      · simp [before, hactions, notices]
  | begins k hk hactions => exact absurd hactions (hmark k)
  | complete ns hns q' hactions hplace hinner =>
      refine .complete ((n, q) :: ns) ?_ q' ?_ hplace hinner
      · simpa [hn] using hns
      · simp [before, hactions, notices]

/-! ### The request line -/

theorem startReq_moves (hp : p.place = .start) : Moves p (startReq p ch) := by
  unfold startReq
  split
  · exact fun _ => ⟨.blank hp rfl rfl hp rfl, rfl⟩
  · dsimp only
    split
    · exact moves_fail
    · split
      · exact moves_fail
      · exact fun _ => ⟨.messageBegin _ hp rfl rfl rfl rfl, rfl⟩

theorem dead_moves (hp : p.place = .start) : Moves p (dead p ch) := by
  unfold dead
  split
  · exact fun _ => ⟨.blank hp rfl rfl hp rfl, rfl⟩
  · exact moves_fail

theorem reqMethod_moves (hp : p.place = .line) : Moves p (reqMethod p ch) := by
  unfold reqMethod
  dsimp only
  split
  · exact moves_fail
  · split
    · exact fun _ => ⟨.line hp rfl rfl rfl rfl, rfl⟩
    · split
      · exact fun _ => ⟨.line hp rfl rfl hp rfl, rfl⟩
      · split
        · split
          · exact fun _ => ⟨.line hp rfl rfl hp rfl, rfl⟩
          · exact moves_fail
        · exact moves_fail

theorem placeOf_parseServerChar :
    parseServerChar ch = .dead ∨ placeOf (parseServerChar ch) = .element .url := by
  unfold parseServerChar
  split_ifs <;> first | exact .inl rfl | exact .inr rfl

/-- The machine of URL characters stays in the URL. -/
theorem placeOf_parseUrlChar (s : ParserState) :
    parseUrlChar s ch = .dead ∨ placeOf (parseUrlChar s ch) = .element .url := by
  cases s <;> unfold parseUrlChar <;> dsimp only <;> split_ifs
  all_goals
    first
    | exact .inl rfl
    | exact .inr rfl
    | exact placeOf_parseServerChar

theorem reqSpacesBeforeUrl_moves (hp : p.place = .line) : Moves p (reqSpacesBeforeUrl p ch) := by
  unfold reqSpacesBeforeUrl urlChar
  dsimp only
  split
  · exact fun _ => ⟨.line hp rfl rfl hp rfl, rfl⟩
  · generalize (if p.method = .connect then ParserState.reqServerStart else .reqSpacesBeforeUrl) = s
    split
    · exact fun h => absurd rfl h
    · rename_i hdead
      exact fun _ => ⟨.url hp rfl rfl ((placeOf_parseUrlChar s).resolve_left hdead) rfl, rfl⟩

theorem urlChar_moves (hp : p.place = .element .url) : Moves p (urlChar p p.state ch) := by
  unfold urlChar
  dsimp only
  split
  · exact moves_fail
  · rename_i hdead
    exact fun _ => ⟨.inside .url (by simp) hp rfl rfl
      ((placeOf_parseUrlChar p.state).resolve_left hdead) rfl fun _ => rfl, rfl⟩

theorem reqSchema_moves (hp : p.place = .element .url) : Moves p (reqSchema p ch) := by
  unfold reqSchema
  split
  · exact moves_fail
  · exact urlChar_moves hp

theorem reqUrl_moves (hp : p.place = .element .url) : Moves p (reqUrl p ch) := by
  unfold reqUrl
  split
  · exact fun _ => ⟨.behind .url (by simp) _ hp rfl rfl rfl rfl rfl, rfl⟩
  · split
    · refine fun _ => ⟨.behind .url (by simp) _ hp rfl rfl ?_ rfl rfl, rfl⟩
      change placeOf (if ch = CR then _ else _) = _
      split <;> rfl
    · exact urlChar_moves hp

/-! ### Behind the URL -/

theorem strictGoto_headMoves {expected : UInt8} {s : ParserState} (hs : placeOf s = .head) :
    HeadMoves p (strictGoto ch expected s p) := by
  unfold strictGoto
  split
  · exact headMoves_fail
  · exact headMoves_more (.inl hs) rfl

theorem reqHttpStart_headMoves (hp : p.place = .head) : HeadMoves p (reqHttpStart p ch) := by
  unfold reqHttpStart
  split_ifs
  · exact headMoves_more (.inl hp) rfl
  · exact headMoves_more (.inl rfl) rfl
  · exact headMoves_more (.inl rfl) rfl
  · exact headMoves_fail

theorem reqHttpMajor_headMoves : HeadMoves p (reqHttpMajor p ch) := by
  unfold reqHttpMajor
  split_ifs
  · exact headMoves_fail
  · exact headMoves_more (.inl rfl) rfl

theorem reqHttpDot_headMoves : HeadMoves p (reqHttpDot p ch) := by
  unfold reqHttpDot
  split_ifs
  · exact headMoves_fail
  · exact headMoves_more (.inl rfl) rfl

theorem reqHttpMinor_headMoves : HeadMoves p (reqHttpMinor p ch) := by
  unfold reqHttpMinor
  split_ifs
  · exact headMoves_fail
  · exact headMoves_more (.inl rfl) rfl

theorem reqHttpEnd_headMoves : HeadMoves p (reqHttpEnd p ch) := by
  unfold reqHttpEnd
  split_ifs
  · exact headMoves_more (.inl rfl) rfl
  · exact headMoves_more (.inl rfl) rfl
  · exact headMoves_fail

theorem reqLineAlmostDone_headMoves : HeadMoves p (reqLineAlmostDone p ch) := by
  unfold reqLineAlmostDone
  split_ifs
  · exact headMoves_fail
  · exact headMoves_more (.inl rfl) rfl

theorem messageDone_actions :
    (messageDone p).actions = [.notify .messageComplete { p with state := newMessage p }] := by
  unfold messageDone
  dsimp only
  split <;> rfl

theorem messageDone_place : (messageDone p).state.1.place = .start := by
  unfold messageDone
  dsimp only
  split <;> exact place_newMessage p

theorem messageDone_inner : (messageDone p).state.2 = none := by
  unfold messageDone
  dsimp only
  split <;> rfl

theorem messageDone_errno : (messageDone p).state.1.httpErrno = p.httpErrno := by
  unfold messageDone
  dsimp only
  split <;> rfl

theorem messageDone_headMoves : HeadMoves p (messageDone p) :=
  fun _ => ⟨.complete [] (by simp) _ messageDone_actions messageDone_place messageDone_inner,
    messageDone_errno⟩

theorem headersDone_headMoves : HeadMoves p (headersDone p ch) := by
  unfold headersDone
  dsimp only
  have hstart : ({ p with nread := 0, state := newMessage { p with nread := 0 } } : HttpParser).place
      = .start := place_newMessage _
  split_ifs
  · exact headMoves_fail
  · exact headMoves_complete hstart rfl rfl rfl
  · exact headMoves_more (.inl rfl) rfl
  · exact headMoves_fail
  · exact headMoves_complete hstart rfl rfl rfl
  · exact headMoves_more (.inr rfl) rfl
  · exact headMoves_complete hstart rfl rfl rfl

/-- Where the headers end no element begins. -/
theorem headersDone_actions (k : DataCallback) : (headersDone p ch).actions ≠ [.mark k] := by
  unfold headersDone
  dsimp only
  split_ifs <;> simp [fail, before, exit, goto, more, callbackNotify]

theorem headersAlmostDone_headMoves : HeadMoves p (headersAlmostDone p ch) := by
  unfold headersAlmostDone
  dsimp only
  split_ifs
  · exact headMoves_fail
  · exact headMoves_before (by simp) messageDone_headMoves (by simp [messageDone_actions])
  · exact headMoves_fail
  all_goals exact headMoves_before (by simp) headersDone_headMoves headersDone_actions

theorem headerFieldStart_headMoves : HeadMoves p (headerFieldStart p ch) := by
  unfold headerFieldStart
  split_ifs
  · exact headMoves_more (.inl rfl) rfl
  · exact headersAlmostDone_headMoves
  · dsimp only
    split
    · exact headMoves_fail
    · exact fun _ => ⟨.begins .headerField (.inl rfl) rfl rfl rfl rfl, rfl⟩

/-! ### Headers -/

/-- The matchers of headers leave the rest of the parser alone. -/
structure Matches (p q : HttpParser) : Prop where
  state : q.state = p.state
  method : q.method = p.method
  nread : q.nread = p.nread
  httpErrno : q.httpErrno = p.httpErrno

theorem headerValueFirst_matches (h : headerValueFirst p ch = .ok q) : Matches p q := by
  unfold headerValueFirst at h
  dsimp only at h
  split at h <;> try split_ifs at h
  all_goals
    cases h
    exact ⟨rfl, rfl, rfl, rfl⟩

theorem headerFieldChar_matches {c : UInt8} : Matches p (headerFieldChar p ch c) := by
  unfold headerFieldChar
  dsimp only
  split <;> try split_ifs
  all_goals exact ⟨rfl, rfl, rfl, rfl⟩

theorem contentLengthDigit_matches (h : contentLengthDigit p ch = .ok q) : Matches p q := by
  unfold contentLengthDigit at h
  split_ifs at h
  all_goals
    cases h
    exact ⟨rfl, rfl, rfl, rfl⟩

theorem headerValueChar_matches (h : headerValueChar p ch = .ok q) : Matches p q := by
  unfold headerValueChar at h
  dsimp only at h
  split at h <;> try split_ifs at h
  all_goals
    first
    | exact contentLengthDigit_matches h
    | cases h
      exact ⟨rfl, rfl, rfl, rfl⟩

theorem headerField_moves (hs : p.state = .headerField) : Moves p (headerField p ch) := by
  have hp : p.place = .element .headerField := by simp [place, hs, placeOf, resumed]
  unfold headerField
  dsimp only
  split_ifs
  · exact fun _ => ⟨.inside .headerField (by simp) hp rfl rfl
      ((congrArg placeOf headerFieldChar_matches.state).trans hp) headerFieldChar_matches.method
      (by simp), headerFieldChar_matches.httpErrno⟩
  · exact moves_fail
  · exact fun _ => ⟨.behind .headerField (by simp) _ hp rfl rfl rfl rfl rfl, rfl⟩
  · exact moves_fail

theorem headerValueStart_headMoves : HeadMoves p (headerValueStart p ch) := by
  unfold headerValueStart
  split
  · rename_i q hq
    exact fun _ => ⟨.begins .headerValue (.inr rfl) rfl rfl
      (congrArg placeOf (headerValueFirst_matches hq).state) rfl,
      (headerValueFirst_matches hq).httpErrno⟩
  · exact fun h => absurd rfl h

theorem headerValueDiscardWs_headMoves (hp : p.place = .head) :
    HeadMoves p (headerValueDiscardWs p ch) := by
  unfold headerValueDiscardWs
  split_ifs
  · exact headMoves_more (.inl hp) rfl
  · exact headMoves_more (.inl rfl) rfl
  · exact headMoves_more (.inl rfl) rfl
  · exact headerValueStart_headMoves

theorem headerAlmostDone_headMoves : HeadMoves p (headerAlmostDone p ch) := by
  unfold headerAlmostDone
  split_ifs
  · exact headMoves_fail
  · exact headMoves_more (.inl rfl) rfl

theorem headerValue_moves {inner : Option Nat} (hs : p.state = .headerValue) :
    Moves p (headerValue p inner ch) := by
  have hp : p.place = .element .headerValue := by simp [place, hs, placeOf, resumed]
  unfold headerValue
  dsimp only
  split_ifs
  · exact fun _ => ⟨.inside .headerValue (by simp) hp rfl rfl hp rfl (by simp), rfl⟩
  · exact fun h => absurd rfl h
  · exact fun _ => ⟨.behind .headerValue (by simp) _ hp rfl rfl rfl rfl rfl, rfl⟩
  · exact moves_fail
  · rename_i hlf _
    subst hlf
    exact fun _ => ⟨.behind .headerValue (by simp) _ hp rfl rfl rfl rfl rfl, rfl⟩
  · exact moves_fail
  all_goals
    split
    · rename_i q hq
      have hmatch := headerValueChar_matches hq
      exact fun _ => ⟨.inside .headerValue (by simp) hp rfl rfl
        ((congrArg placeOf hmatch.state).trans hp) hmatch.method (by simp), hmatch.httpErrno⟩
    · exact moves_fail

theorem headerValueLws_headMoves : HeadMoves p (headerValueLws p ch) := by
  unfold headerValueLws
  split
  · exact headerValueStart_headMoves
  · exact headerFieldStart_headMoves

theorem headerValueDiscardLws_moves (hp : p.place = .head) :
    Moves p (headerValueDiscardLws p ch) := by
  unfold headerValueDiscardLws
  dsimp only
  split_ifs
  · exact moves_head hp (headMoves_more (.inl rfl) rfl)
  · exact moves_fail
  · exact fun hnext => ⟨.emptyValue _ _ hp rfl (headerFieldStart_headMoves hnext).1,
      (headerFieldStart_headMoves hnext).2⟩

/-! ### Bodies -/

theorem bodyIdentity_moves (hs : p.state = .bodyIdentity) : Moves p (bodyIdentity p) := by
  have hp : p.place = .element .body := by simp [place, hs, placeOf]
  unfold bodyIdentity
  dsimp only
  split
  · intro _
    exact ⟨.bodyEnd _ _ hp (congrArg (fun as => _ :: _ :: as) messageDone_actions) rfl
      messageDone_place messageDone_inner, messageDone_errno⟩
  · exact fun _ => ⟨.body hp rfl rfl hp rfl, rfl⟩

theorem chunkSizeStart_headMoves : HeadMoves p (chunkSizeStart p ch) := by
  unfold chunkSizeStart
  split
  · exact headMoves_fail
  · exact headMoves_more (.inl rfl) rfl

theorem chunkSize_headMoves (hp : p.place = .head) : HeadMoves p (chunkSize p ch) := by
  unfold chunkSize
  split
  · exact headMoves_more (.inl rfl) rfl
  · split <;> split_ifs
    · exact headMoves_more (.inl rfl) rfl
    · exact headMoves_fail
    · exact headMoves_fail
    · exact headMoves_more (.inl hp) rfl

theorem chunkParameters_headMoves (hp : p.place = .head) : HeadMoves p (chunkParameters p ch) := by
  unfold chunkParameters
  split_ifs
  · exact headMoves_more (.inl rfl) rfl
  · exact headMoves_more (.inl hp) rfl

theorem chunkSizeAlmostDone_headMoves : HeadMoves p (chunkSizeAlmostDone p ch) := by
  unfold chunkSizeAlmostDone
  split
  · exact headMoves_fail
  · dsimp only
    split
    · exact headMoves_notify (by simp) (.inl rfl) rfl
    · exact headMoves_notify (by simp) (.inr rfl) rfl

theorem chunkData_moves (hs : p.state = .chunkData) : Moves p (chunkData p) := by
  have hp : p.place = .element .body := by simp [place, hs, placeOf]
  unfold chunkData
  dsimp only
  split
  · exact fun _ => ⟨.body hp rfl rfl rfl rfl, rfl⟩
  · exact fun _ => ⟨.body hp rfl rfl hp rfl, rfl⟩

theorem chunkDataAlmostDone_moves (hs : p.state = .chunkDataAlmostDone) :
    Moves p (chunkDataAlmostDone p ch) := by
  have hp : p.place = .element .body := by simp [place, hs, placeOf]
  unfold chunkDataAlmostDone
  split
  · exact moves_fail
  · exact fun _ => ⟨.chunkEnd _ hp rfl rfl rfl rfl rfl, rfl⟩

theorem chunkDataDone_headMoves : HeadMoves p (chunkDataDone p ch) := by
  unfold chunkDataDone
  split
  · exact headMoves_fail
  · exact headMoves_notify (by simp) (.inl rfl) rfl

/-! ### The switch -/

/-- Every accepted byte is one of the moves. -/
theorem dispatch_moves {inner : Option Nat} : Moves p (dispatch p inner ch) := by
  have hplace : ∀ {s : ParserState}, p.state = s → p.place = placeOf s := fun h => congrArg placeOf h
  unfold dispatch
  split
  all_goals
    rename_i hs
    have hp := hplace hs
    simp only [placeOf, resumed] at hp
  · exact dead_moves hp
  · exact startReq_moves hp
  · exact reqMethod_moves hp
  · exact reqSpacesBeforeUrl_moves hp
  iterate 4 exact reqSchema_moves hp
  iterate 7 exact reqUrl_moves hp
  · exact moves_head hp (reqHttpStart_headMoves hp)
  iterate 6 exact moves_head hp (strictGoto_headMoves rfl)
  · exact moves_head hp reqHttpMajor_headMoves
  · exact moves_head hp reqHttpDot_headMoves
  · exact moves_head hp reqHttpMinor_headMoves
  · exact moves_head hp reqHttpEnd_headMoves
  · exact moves_head hp reqLineAlmostDone_headMoves
  · exact moves_head hp headerFieldStart_headMoves
  · exact headerField_moves hs
  · exact moves_head hp (headerValueDiscardWs_headMoves hp)
  · exact moves_head hp (strictGoto_headMoves rfl)
  · exact headerValueDiscardLws_moves hp
  · exact moves_head hp headerValueStart_headMoves
  · exact headerValue_moves hs
  · exact moves_head hp headerValueLws_headMoves
  · exact moves_head hp headerAlmostDone_headMoves
  · exact moves_head hp chunkSizeStart_headMoves
  · exact moves_head hp (chunkSize_headMoves hp)
  · exact moves_head hp (chunkParameters_headMoves hp)
  · exact moves_head hp chunkSizeAlmostDone_headMoves
  · exact moves_head hp headersAlmostDone_headMoves
  · exact moves_head hp headersDone_headMoves
  · exact chunkData_moves hs
  · exact chunkDataAlmostDone_moves hs
  · exact moves_head hp chunkDataDone_headMoves
  · exact bodyIdentity_moves hs
  · exact moves_head hp messageDone_headMoves

end Handlers

end HttpParser

end QGServer
