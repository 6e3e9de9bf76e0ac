-- SUMMARY: The sizes of bodies: whatever bytes come, what is reported of a body has the size that was announced.
import QGServer.HttpParser.Bounds

/-!
# Sizes of bodies

A head announces a body of some size, and so does the line before a chunk. `account`
keeps the books: a report of body data must not be longer than what is still owed, and
nothing may be owed when a chunk or a message is complete or another one begins.

`executeAll_account`: the books are right for every input, whatever segments it comes in
and also if it is refused in the end, and what is owed is what the parser expects.
-/

namespace QGServer

namespace HttpParser

/-! ## The books -/

/-- The size of the body that follows a head, chunks apart. Behind a head of `CONNECT`
    the rest is in a different protocol. -/
def announced (p : HttpParser) : Nat :=
  if p.upgrade && p.method = .connect then 0
  else if p.flags.chunked || p.contentLength = ullongMax then 0
  else p.contentLength

/-- What is owed after a report, if it was allowed. -/
def account (owed : Nat) : Event → Option Nat
  | .data .body _ text => if text.length ≤ owed then some (owed - text.length) else none
  | .data _ _ _ => some owed
  | .notify .headersComplete p => if owed = 0 then some p.announced else none
  | .notify .chunkHeader p => if owed = 0 then some p.contentLength else none
  | .notify _ _ => if owed = 0 then some 0 else none

def accountAll (owed : Nat) (es : List Event) : Option Nat := es.foldlM account owed

/-- What the parser still expects of a body or a chunk. -/
def expected (p : HttpParser) : Nat :=
  match p.state with
  | .bodyIdentity | .chunkData => p.contentLength
  | .headersDone => p.announced
  | _ => 0

/-- The part of the body that has been seen and not yet reported. -/
def unreported : Pieces.Marked DataCallback → Nat
  | some (.body, text) => text.length
  | _ => 0

/-- The books agree with the parser, the mark and its text. -/
structure Owes (p : HttpParser) (marked : Pieces.Marked DataCallback) (owed : Nat) : Prop where
  element : ∀ k text, marked = some (k, text) → p.place = .element k
  owed : owed = p.expected + unreported marked

/-- The mark behind a byte. -/
def markedBehind (ch : UInt8) (next : Pieces.Next) (marked : Pieces.Marked DataCallback) :
    Pieces.Marked DataCallback :=
  match next with
  | .more => Pieces.extend ch marked
  | _ => none

/-- The reports of a byte are allowed, and the books agree behind it, unless it is refused. -/
structure Keeps (marked : Pieces.Marked DataCallback) (ch : UInt8) (owed : Nat) (o : Outcome) :
    Prop where
  allowed : let r := Pieces.acts ch marked o.actions
    ∃ owed', accountAll owed r.2 = some owed' ∧
      (o.next ≠ .error → Owes o.state.1 (markedBehind ch o.next r.1) owed')

section Books

variable {p q : HttpParser} {marked : Pieces.Marked DataCallback} {ch : UInt8} {owed owed' : Nat}
  {o : Outcome} {e : HttpErrno} {k : DataCallback}

theorem accountAll_append (es es' : List Event) :
    accountAll owed (es ++ es') = (accountAll owed es).bind fun n => accountAll n es' := by
  unfold accountAll
  rw [List.foldlM_append]
  rfl

/-- The states in which no body is read and none has just been announced. -/
def quiet : ParserState → Bool
  | .bodyIdentity | .chunkData | .chunkDataAlmostDone | .headersDone => false
  | _ => true

theorem expected_of_body (h : p.state = .bodyIdentity ∨ p.state = .chunkData) :
    p.expected = p.contentLength := by
  unfold expected
  rcases h with h | h
  · rw [h]
  · rw [h]

theorem expected_of_quiet (h : quiet p.state = true) : p.expected = 0 := by
  unfold expected
  split
  · rename_i hs
    rw [hs] at h
    cases h
  · rename_i hs
    rw [hs] at h
    cases h
  · rename_i hs
    rw [hs] at h
    cases h
  · rfl

theorem place_of_quiet (h : quiet p.state = true) : p.place ≠ .element .body := by
  have hstate : ∀ s, quiet s = true → placeOf s ≠ .element .body := by
    intro s
    cases s <;> decide
  exact hstate _ h

/-- Between bodies nothing is owed. -/
theorem owes_quiet (hq : quiet p.state = true)
    (hm : ∀ k text, marked = some (k, text) → p.place = .element k) : Owes p marked 0 := by
  refine ⟨hm, ?_⟩
  have hnone : unreported marked = 0 := by
    unfold unreported
    split
    · rename_i text
      exact absurd (hm .body text rfl) (place_of_quiet hq)
    · rfl
  rw [expected_of_quiet hq, hnone]

theorem Owes.of_quiet (h : Owes p marked owed) (hq : quiet p.state = true) : owed = 0 := by
  rw [h.owed, expected_of_quiet hq, Nat.zero_add]
  unfold unreported
  split
  · rename_i text
    exact absurd (h.element .body text rfl) (place_of_quiet hq)
  · rfl

/-- Outside of elements there is no mark. -/
theorem Owes.marked_eq_none (h : Owes p marked owed) (hp : ∀ k, p.place ≠ .element k) :
    marked = none := by
  cases marked with
  | none => rfl
  | some m => exact absurd (h.element m.1 m.2 rfl) (hp m.1)

theorem extend_eq_some {text : Bytes} (h : Pieces.extend ch marked = some (k, text)) :
    ∃ before, marked = some (k, before) ∧ text = before ++ [ch] := by
  obtain ⟨⟨k', before⟩, hm, heq⟩ := Option.map_eq_some_iff.mp h
  obtain ⟨rfl, rfl⟩ := Prod.mk.inj heq
  exact ⟨before, hm, rfl⟩

/-! ### Outcomes -/

theorem keeps_fail : Keeps marked ch owed (fail e q) := ⟨owed, rfl, fun h => absurd rfl h⟩

/-- The byte goes on to a state between bodies. -/
theorem keeps_quiet {inner : Option Nat} (hq : quiet q.state = true)
    (hm : ∀ k text, marked = some (k, text) → q.place = .element k) :
    Keeps marked ch 0 ⟨(q, inner), [], .more⟩ := by
  refine ⟨0, rfl, fun _ => owes_quiet hq fun k text hk => ?_⟩
  obtain ⟨before, hbefore, -⟩ := extend_eq_some hk
  exact hm k before hbefore

theorem keeps_goto {s : ParserState} (hs : quiet s = true) : Keeps none ch 0 (goto s p) :=
  keeps_quiet hs fun _ _ h => (by cases h)

theorem keeps_more (hq : quiet q.state = true) : Keeps none ch 0 (more q) :=
  keeps_quiet hq fun _ _ h => (by cases h)

theorem keeps_exit (hq : quiet q.state = true) : Keeps none ch 0 (exit q) :=
  ⟨0, rfl, fun _ => owes_quiet hq fun _ _ h => (by cases h)⟩

theorem keeps_strictGoto {expected : UInt8} {s : ParserState} (hs : quiet s = true) :
    Keeps none ch 0 (strictGoto ch expected s p) := by
  unfold strictGoto
  split
  · exact keeps_fail
  · exact keeps_goto hs

/-- A notice that is allowed comes first. -/
theorem keeps_notify {n : NotifyCallback} (hn : account owed (.notify n q) = some owed')
    (h : Keeps marked ch owed' o) : Keeps marked ch owed (before (.notify n q) o) := by
  obtain ⟨owed'', haccount, howes⟩ := h
  refine ⟨owed'', ?_, howes⟩
  change accountAll owed (.notify n q :: _) = _
  unfold accountAll
  rw [List.foldlM_cons, hn]
  exact haccount

/-- Text that is not of a body is reported first. -/
theorem keeps_data (hk : k ≠ .body) (h : Keeps none ch owed o) :
    Keeps marked ch owed (before (.data k q) o) := by
  obtain ⟨owed', haccount, howes⟩ := h
  refine ⟨owed', ?_, ?_⟩
  · cases marked with
    | none => exact haccount
    | some m =>
        change accountAll owed (.data k q m.2 :: _) = _
        unfold accountAll
        rw [List.foldlM_cons]
        cases k with
        | body => exact absurd rfl hk
        | _ => exact haccount
  · cases marked with
    | none => exact howes
    | some m => exact howes

theorem keeps_mark (h : Keeps (some (k, [])) ch owed o) : Keeps none ch owed (before (.mark k) o) :=
  ⟨h.allowed⟩

/-- The text of the element has begun with the byte. -/
theorem keeps_begun {inner : Option Nat} (hq : quiet q.state = true) (hk : q.place = .element k) :
    Keeps (some (k, [])) ch 0 ⟨(q, inner), [], .more⟩ := by
  refine keeps_quiet hq fun k' text h => ?_
  cases h
  exact hk

/-! ### The end of a message -/

theorem quiet_newMessage (p : HttpParser) : quiet (newMessage p) = true := by
  unfold newMessage
  split <;> rfl

theorem keeps_messageDone : Keeps none ch 0 (messageDone p) := by
  unfold messageDone
  dsimp only
  refine keeps_notify rfl ?_
  split
  · exact keeps_exit (quiet_newMessage p)
  · exact keeps_more (quiet_newMessage p)

/-- What has been announced begins, or there is nothing to come. -/
theorem keeps_headersDone : Keeps none ch p.announced (headersDone p ch) := by
  have hquiet := quiet_newMessage { p with nread := 0 }
  -- the message ends with its head
  have hends : ∀ {o : Outcome}, p.announced = 0 → Keeps none ch 0 o →
      Keeps none ch p.announced (before
        (.notify .messageComplete { p with nread := 0, state := newMessage { p with nread := 0 } }) o) := by
    intro o hnone ho
    rw [hnone]
    exact keeps_notify rfl ho
  unfold headersDone
  dsimp only
  split
  · exact keeps_fail
  · split
    · rename_i hupgrade
      refine hends ?_ (keeps_exit hquiet)
      unfold announced
      grind
    · rename_i hupgrade
      have hconnect : ¬ (p.upgrade && p.method = .connect) = true := by grind
      split
      · rename_i hchunked
        have hnone : p.announced = 0 := by
          unfold announced
          rw [if_neg hconnect, hchunked]
          rfl
        rw [hnone]
        exact keeps_goto rfl
      · rename_i hchunked
        have hsize : p.announced = if p.contentLength = ullongMax then 0 else p.contentLength := by
          unfold announced
          rw [if_neg hconnect]
          simp [hchunked]
        split
        · exact keeps_fail
        · split
          · rename_i hzero
            refine hends ?_ (keeps_more hquiet)
            rw [hsize, hzero]
            split <;> rfl
          · rename_i hzero
            split
            · rename_i hmax
              refine ⟨p.announced, rfl, fun _ => ⟨fun _ _ h => (by cases h), ?_⟩⟩
              rw [hsize, if_neg hmax]
              rfl
            · rename_i hmax
              refine hends ?_ (keeps_more hquiet)
              rw [hsize, if_pos (not_not.mp hmax)]

theorem keeps_headersAlmostDone : Keeps none ch 0 (headersAlmostDone p ch) := by
  unfold headersAlmostDone
  dsimp only
  split
  · exact keeps_fail
  · split
    · exact keeps_notify rfl keeps_messageDone
    · split
      · exact keeps_fail
      · exact keeps_notify rfl keeps_headersDone

theorem keeps_headerFieldStart : Keeps none ch 0 (headerFieldStart p ch) := by
  unfold headerFieldStart
  split
  · exact keeps_goto rfl
  · split
    · exact keeps_headersAlmostDone
    · dsimp only
      split
      · exact keeps_fail
      · exact keeps_mark (keeps_begun rfl rfl)

/-! ### The request line -/

/-- There is no mark but one of the element. -/
abbrev Marks (p : HttpParser) (marked : Pieces.Marked DataCallback) : Prop :=
  ∀ k text, marked = some (k, text) → p.place = .element k

theorem quiet_of_url {s : ParserState} (h : placeOf s = .element .url) : quiet s = true := by
  revert h
  cases s <;> decide

theorem keeps_startReq (hq : quiet p.state = true) : Keeps none ch 0 (startReq p ch) := by
  unfold startReq
  split
  · exact keeps_more hq
  · dsimp only
    split
    · exact keeps_fail
    · split
      · exact keeps_fail
      · exact keeps_notify rfl (keeps_more rfl)

theorem keeps_dead (hq : quiet p.state = true) : Keeps none ch 0 (dead p ch) := by
  unfold dead
  split
  · exact keeps_more hq
  · exact keeps_fail

theorem keeps_reqMethod (hq : quiet p.state = true) : Keeps none ch 0 (reqMethod p ch) := by
  unfold reqMethod
  dsimp only
  split
  · exact keeps_fail
  · split
    · exact keeps_more rfl
    · split
      · exact keeps_more hq
      · split
        · split
          · exact keeps_more hq
          · exact keeps_fail
        · exact keeps_fail

/-- A character of the URL, with a mark or with none. -/
theorem keeps_urlChar (s : ParserState) (hm : ∀ k text, marked = some (k, text) → k = .url) :
    Keeps marked ch 0 (urlChar p s ch) := by
  unfold urlChar
  dsimp only
  split
  · exact keeps_fail
  · rename_i hdead
    have hplace := (placeOf_parseUrlChar s).resolve_left hdead
    refine keeps_quiet (quiet_of_url hplace) fun k text hk => ?_
    rw [hm k text hk]
    exact hplace

theorem keeps_reqSpacesBeforeUrl (hq : quiet p.state = true) :
    Keeps none ch 0 (reqSpacesBeforeUrl p ch) := by
  unfold reqSpacesBeforeUrl
  split
  · exact keeps_more hq
  · refine keeps_mark (keeps_urlChar _ fun k text h => ?_)
    cases h
    rfl

theorem url_of_marks (hm : Marks p marked) (hp : p.place = .element .url) (k : DataCallback)
    (text : Bytes) (h : marked = some (k, text)) : k = .url := by
  have hk := (hm k text h).symm.trans hp
  exact (Place.element.inj hk)

theorem keeps_reqSchema (hm : Marks p marked) (hp : p.place = .element .url) :
    Keeps marked ch 0 (reqSchema p ch) := by
  unfold reqSchema
  split
  · exact keeps_fail
  · exact keeps_urlChar _ (url_of_marks hm hp)

theorem keeps_reqUrl (hm : Marks p marked) (hp : p.place = .element .url) :
    Keeps marked ch 0 (reqUrl p ch) := by
  unfold reqUrl
  split
  · exact keeps_data (by decide) (keeps_more rfl)
  · split
    · refine keeps_data (by decide) (keeps_more ?_)
      dsimp only
      split <;> rfl
    · exact keeps_urlChar _ (url_of_marks hm hp)

theorem keeps_reqHttpStart (hq : quiet p.state = true) : Keeps none ch 0 (reqHttpStart p ch) := by
  unfold reqHttpStart
  split
  · exact keeps_more hq
  · split
    · exact keeps_goto rfl
    · split
      · exact keeps_goto rfl
      · exact keeps_fail

theorem keeps_reqHttpMajor : Keeps none ch 0 (reqHttpMajor p ch) := by
  unfold reqHttpMajor
  split
  · exact keeps_fail
  · exact keeps_more rfl

theorem keeps_reqHttpDot : Keeps none ch 0 (reqHttpDot p ch) := by
  unfold reqHttpDot
  split
  · exact keeps_fail
  · exact keeps_goto rfl

theorem keeps_reqHttpMinor : Keeps none ch 0 (reqHttpMinor p ch) := by
  unfold reqHttpMinor
  split
  · exact keeps_fail
  · exact keeps_more rfl

theorem keeps_reqHttpEnd : Keeps none ch 0 (reqHttpEnd p ch) := by
  unfold reqHttpEnd
  split
  · exact keeps_goto rfl
  · split
    · exact keeps_goto rfl
    · exact keeps_fail

theorem keeps_reqLineAlmostDone : Keeps none ch 0 (reqLineAlmostDone p ch) := by
  unfold reqLineAlmostDone
  split
  · exact keeps_fail
  · exact keeps_goto rfl

/-! ### Headers -/

theorem keeps_headerField (hs : p.state = .headerField) (hm : Marks p marked) :
    Keeps marked ch 0 (headerField p ch) := by
  unfold headerField
  dsimp only
  split
  · have hstate := (@headerFieldChar_matches p ch (token ch)).state
    refine keeps_quiet ?_ fun k text hk => (congrArg placeOf hstate).trans (hm k text hk)
    rw [hstate, hs]
    rfl
  · split
    · exact keeps_fail
    · split
      · exact keeps_data (by decide) (keeps_more rfl)
      · exact keeps_fail

theorem keeps_headerValueStart : Keeps none ch 0 (headerValueStart p ch) := by
  unfold headerValueStart
  refine keeps_mark ?_
  split
  · rename_i q hfirst
    have hstate : q.state = .headerValue := (headerValueFirst_matches hfirst).state
    refine keeps_begun ?_ ?_
    · rw [hstate]
      rfl
    · exact congrArg placeOf hstate
  · exact keeps_fail

theorem keeps_headerValueDiscardWs (hq : quiet p.state = true) :
    Keeps none ch 0 (headerValueDiscardWs p ch) := by
  unfold headerValueDiscardWs
  split
  · exact keeps_more hq
  · split
    · exact keeps_goto rfl
    · split
      · exact keeps_goto rfl
      · exact keeps_headerValueStart

theorem keeps_headerAlmostDone : Keeps none ch 0 (headerAlmostDone p ch) := by
  unfold headerAlmostDone
  split
  · exact keeps_fail
  · exact keeps_goto rfl

theorem keeps_headerValue {inner : Option Nat} (hs : p.state = .headerValue) (hm : Marks p marked) :
    Keeps marked ch 0 (headerValue p inner ch) := by
  have hq : quiet p.state = true := by
    rw [hs]
    rfl
  unfold headerValue
  dsimp only
  split
  · exact keeps_quiet hq hm
  · split
    · refine keeps_data (by decide) ?_
      split
      · exact keeps_fail
      · exact keeps_more rfl
    · split
      · split
        · exact keeps_fail
        · exact keeps_data (by decide) keeps_headerAlmostDone
      · split
        · exact keeps_fail
        · split
          · rename_i q hchar
            have hstate := (headerValueChar_matches hchar).state
            refine keeps_quiet ?_ fun k text hk => (congrArg placeOf hstate).trans (hm k text hk)
            rw [hstate]
            exact hq
          · exact keeps_fail

theorem keeps_headerValueLws : Keeps none ch 0 (headerValueLws p ch) := by
  unfold headerValueLws
  split
  · exact keeps_headerValueStart
  · exact keeps_headerFieldStart

theorem keeps_headerValueDiscardLws : Keeps none ch 0 (headerValueDiscardLws p ch) := by
  unfold headerValueDiscardLws
  split
  · exact keeps_goto rfl
  · split
    · exact keeps_fail
    · exact keeps_mark (keeps_data (by decide) keeps_headerFieldStart)

/-! ### Bodies -/

/-- A byte of a body is marked: the mark is set, and its text has the same size. -/
theorem keeps_markBody (hm : ∀ k text, marked = some (k, text) → k = .body)
    (h : ∀ text : Bytes, unreported marked = text.length → Keeps (some (.body, text)) ch owed o) :
    Keeps marked ch owed (before (.mark .body) o) := by
  cases marked with
  | none => exact ⟨(h [] rfl).allowed⟩
  | some m =>
      obtain ⟨k, text⟩ := m
      obtain rfl := hm k text rfl
      exact ⟨(h text rfl).allowed⟩

theorem body_of_marks (h : Owes p marked owed) (hp : p.place = .element .body) (k : DataCallback)
    (text : Bytes) (hk : marked = some (k, text)) : k = .body := by
  have hplace := (h.element k text hk).symm.trans hp
  exact Place.element.inj hplace

/-- The body goes on behind its byte. -/
theorem keeps_bodyMore {text : Bytes} (hplace : q.place = .element .body)
    (howed : owed = q.expected + (text.length + 1)) : Keeps (some (.body, text)) ch owed (more q) := by
  refine ⟨owed, rfl, fun _ => ⟨fun k text' hk => ?_, ?_⟩⟩
  · cases hk
    exact hplace
  · change owed = q.expected + (text ++ [ch]).length
    rw [List.length_append, List.length_singleton]
    exact howed

/-- The last byte of a body is reported, and the message ends. -/
theorem keeps_bodyIdentity (hs : p.state = .bodyIdentity) (hpos : 0 < p.contentLength)
    (h : Owes p marked owed) : Keeps marked ch owed (bodyIdentity p) := by
  have howed := h.owed
  rw [expected_of_body (.inl hs)] at howed
  have hplace : p.place = .element .body := by
    rw [place, hs]
    rfl
  unfold bodyIdentity
  dsimp only
  refine keeps_markBody (body_of_marks h hplace) fun text htext => ?_
  rw [htext] at howed
  split
  · rename_i hlast
    obtain ⟨owed', haccount, howes⟩ :=
      @keeps_messageDone { p with contentLength := p.contentLength - 1, state := .messageDone } ch
    refine ⟨owed', ?_, howes⟩
    change accountAll owed (.data .body _ (text ++ [ch]) :: _) = _
    have hall : account owed (.data .body
        { p with contentLength := p.contentLength - 1, state := .messageDone } (text ++ [ch])) = some 0 := by
      rw [account, List.length_append, List.length_singleton, if_pos (by omega)]
      exact congrArg some (by omega)
    unfold accountAll
    rw [List.foldlM_cons, hall]
    exact haccount
  · refine keeps_bodyMore hplace ?_
    rw [expected_of_body (p := { p with contentLength := p.contentLength - 1 }) (.inl hs)]
    dsimp only
    omega

theorem keeps_chunkData (hs : p.state = .chunkData) (hpos : 0 < p.contentLength)
    (h : Owes p marked owed) : Keeps marked ch owed (chunkData p) := by
  have howed := h.owed
  rw [expected_of_body (.inr hs)] at howed
  have hplace : p.place = .element .body := by
    rw [place, hs]
    rfl
  unfold chunkData
  dsimp only
  refine keeps_markBody (body_of_marks h hplace) fun text htext => ?_
  rw [htext] at howed
  split
  · rename_i hlast
    refine keeps_bodyMore rfl ?_
    change owed = 0 + _
    omega
  · refine keeps_bodyMore hplace ?_
    rw [expected_of_body (p := { p with contentLength := p.contentLength - 1 }) (.inr hs)]
    dsimp only
    omega

theorem keeps_chunkDataAlmostDone (hs : p.state = .chunkDataAlmostDone) (h : Owes p marked owed) :
    Keeps marked ch owed (chunkDataAlmostDone p ch) := by
  have howed := h.owed
  rw [expected, hs] at howed
  have hplace : p.place = .element .body := by
    rw [place, hs]
    rfl
  unfold chunkDataAlmostDone
  split
  · exact keeps_fail
  · cases marked with
    | none =>
        obtain rfl : owed = 0 := howed
        have hmore : Keeps none ch 0 (more { p with state := .chunkDataDone }) := keeps_more rfl
        exact ⟨hmore.allowed⟩
    | some m =>
        obtain ⟨k, text⟩ := m
        obtain rfl := body_of_marks h hplace k text rfl
        obtain rfl : owed = text.length := howed.trans (Nat.zero_add _)
        refine ⟨0, ?_, fun _ => owes_quiet rfl fun _ _ h => (by cases h)⟩
        change accountAll text.length [.data .body _ text] = some 0
        unfold accountAll
        rw [List.foldlM_cons, account, if_pos le_rfl, Nat.sub_self]
        rfl

theorem keeps_chunkSizeStart : Keeps none ch 0 (chunkSizeStart p ch) := by
  unfold chunkSizeStart
  split
  · exact keeps_fail
  · exact keeps_more rfl

theorem keeps_chunkSize (hq : quiet p.state = true) : Keeps none ch 0 (chunkSize p ch) := by
  unfold chunkSize
  split
  · exact keeps_goto rfl
  · split
    · split
      · exact keeps_goto rfl
      · exact keeps_fail
    · split
      · exact keeps_fail
      · exact keeps_more hq

theorem keeps_chunkParameters (hq : quiet p.state = true) : Keeps none ch 0 (chunkParameters p ch) := by
  unfold chunkParameters
  split
  · exact keeps_goto rfl
  · exact keeps_more hq

theorem keeps_chunkSizeAlmostDone : Keeps none ch 0 (chunkSizeAlmostDone p ch) := by
  unfold chunkSizeAlmostDone
  split
  · exact keeps_fail
  · dsimp only
    split
    · rename_i hzero
      have hnone : account 0 (.notify .chunkHeader { p with nread := 0 }) = some 0 := congrArg some hzero
      exact keeps_notify hnone (keeps_more rfl)
    · have hsize : account 0 (.notify .chunkHeader { p with nread := 0 }) = some p.contentLength := rfl
      exact keeps_notify hsize ⟨p.contentLength, rfl, fun _ => ⟨fun _ _ h => (by cases h), rfl⟩⟩

theorem keeps_chunkDataDone : Keeps none ch 0 (chunkDataDone p ch) := by
  unfold chunkDataDone
  split
  · exact keeps_fail
  · exact keeps_notify rfl (keeps_more rfl)

/-! ### The switch -/

/-- Whatever byte comes, the books stay right. -/
theorem keeps_dispatch {inner : Option Nat} (hrange : InRange p) (h : Owes p marked owed) :
    Keeps marked ch owed (dispatch p inner ch) := by
  -- outside of elements there is no mark, and between bodies nothing is owed
  have hplain : ∀ {o : Outcome}, quiet p.state = true → (∀ k, p.place ≠ .element k) →
      Keeps none ch 0 o → Keeps marked ch owed o := by
    intro o hq hp ho
    rw [h.marked_eq_none hp, h.of_quiet hq]
    exact ho
  have hinside : ∀ {o : Outcome}, quiet p.state = true → Keeps marked ch 0 o → Keeps marked ch owed o := by
    intro o hq ho
    rw [h.of_quiet hq]
    exact ho
  unfold dispatch
  split
  all_goals
    rename_i hs
    have hplace : p.place = placeOf _ := congrArg placeOf hs
    have hquiet : quiet p.state = quiet _ := congrArg quiet hs
    simp only [placeOf, resumed] at hplace
    have hother : ∀ k, p.place = .start ∨ p.place = .line ∨ p.place = .head → p.place ≠ .element k := by
      rintro k (hp | hp | hp) <;> rw [hp] <;> simp
  · exact hplain hquiet (fun k => hother k (.inl hplace)) (keeps_dead hquiet)
  · exact hplain hquiet (fun k => hother k (.inl hplace)) (keeps_startReq hquiet)
  · exact hplain hquiet (fun k => hother k (.inr (.inl hplace))) (keeps_reqMethod hquiet)
  · exact hplain hquiet (fun k => hother k (.inr (.inl hplace))) (keeps_reqSpacesBeforeUrl hquiet)
  iterate 4 exact hinside hquiet (keeps_reqSchema h.element hplace)
  iterate 7 exact hinside hquiet (keeps_reqUrl h.element hplace)
  · exact hplain hquiet (fun k => hother k (.inr (.inr hplace))) (keeps_reqHttpStart hquiet)
  iterate 6 exact hplain hquiet (fun k => hother k (.inr (.inr hplace))) (keeps_strictGoto rfl)
  · exact hplain hquiet (fun k => hother k (.inr (.inr hplace))) keeps_reqHttpMajor
  · exact hplain hquiet (fun k => hother k (.inr (.inr hplace))) keeps_reqHttpDot
  · exact hplain hquiet (fun k => hother k (.inr (.inr hplace))) keeps_reqHttpMinor
  · exact hplain hquiet (fun k => hother k (.inr (.inr hplace))) keeps_reqHttpEnd
  · exact hplain hquiet (fun k => hother k (.inr (.inr hplace))) keeps_reqLineAlmostDone
  · exact hplain hquiet (fun k => hother k (.inr (.inr hplace))) keeps_headerFieldStart
  · exact hinside hquiet (keeps_headerField hs h.element)
  · exact hplain hquiet (fun k => hother k (.inr (.inr hplace))) (keeps_headerValueDiscardWs hquiet)
  · exact hplain hquiet (fun k => hother k (.inr (.inr hplace))) (keeps_strictGoto rfl)
  · exact hplain hquiet (fun k => hother k (.inr (.inr hplace))) keeps_headerValueDiscardLws
  · exact hplain hquiet (fun k => hother k (.inr (.inr hplace))) keeps_headerValueStart
  · exact hinside hquiet (keeps_headerValue hs h.element)
  · exact hplain hquiet (fun k => hother k (.inr (.inr hplace))) keeps_headerValueLws
  · exact hplain hquiet (fun k => hother k (.inr (.inr hplace))) keeps_headerAlmostDone
  · exact hplain hquiet (fun k => hother k (.inr (.inr hplace))) keeps_chunkSizeStart
  · exact hplain hquiet (fun k => hother k (.inr (.inr hplace))) (keeps_chunkSize hquiet)
  · exact hplain hquiet (fun k => hother k (.inr (.inr hplace))) (keeps_chunkParameters hquiet)
  · exact hplain hquiet (fun k => hother k (.inr (.inr hplace))) keeps_chunkSizeAlmostDone
  · exact hplain hquiet (fun k => hother k (.inr (.inr hplace))) keeps_headersAlmostDone
  · -- the head has just been announced
    have hnone := h.marked_eq_none fun k => hother k (.inr (.inr hplace))
    have howed := h.owed
    rw [expected, hs, hnone] at howed
    obtain rfl : owed = p.announced := howed
    rw [hnone]
    exact keeps_headersDone
  · exact keeps_chunkData hs (hrange.body (.inr hs)) h
  · exact keeps_chunkDataAlmostDone hs h
  · exact hplain hquiet (fun k => hother k (.inr (.inr hplace))) keeps_chunkDataDone
  · exact keeps_bodyIdentity hs (hrange.body (.inl hs)) h
  · exact hplain hquiet (fun k => hother k (.inr (.inr hplace))) keeps_messageDone

theorem keeps_onByte {c : Cursor} (hrange : InRange c.1) (h : Owes c.1 marked owed) (ch : UInt8) :
    Keeps marked ch owed (onByte c ch) := by
  unfold onByte
  dsimp only
  split
  · split
    · exact keeps_fail
    · exact keeps_dispatch ⟨hrange.toRanged.of_numbers rfl, hrange.method, hrange.letters, hrange.body⟩
        ⟨h.element, h.owed⟩
  · exact keeps_dispatch hrange h

/-! ## Segments -/

theorem owes_scan {c : Cursor} (hrange : InRange c.1) (h : Owes c.1 marked owed) (bs : Bytes) :
    let r := Pieces.scan onByte c marked bs
    ∃ owed', accountAll owed r.events = some owed' ∧
      (r.next = .more → Owes r.state.1 r.marked owed') ∧ (r.next = .exit → Owes r.state.1 none owed') := by
  induction bs generalizing c marked owed with
  | nil => exact ⟨owed, rfl, fun _ => h, fun h => (by cases h)⟩
  | cons b bs ih =>
      obtain ⟨owed', haccount, howes⟩ := keeps_onByte hrange h b
      cases hnext : (onByte c b).next with
      | more =>
          rw [Pieces.scan_more hnext]
          dsimp only
          have hbehind := howes (by rw [hnext]; simp)
          rw [hnext] at hbehind
          obtain ⟨owed'', hrest, hlast⟩ := ih (inRange_onByte hrange b).1 hbehind
          refine ⟨owed'', ?_, hlast⟩
          rw [accountAll_append, haccount]
          exact hrest
      | exit =>
          rw [Pieces.scan_exit hnext]
          have hbehind := howes (by rw [hnext]; simp)
          rw [hnext] at hbehind
          exact ⟨owed', haccount, fun h => (by cases h), fun _ => hbehind⟩
      | error =>
          rw [Pieces.scan_error hnext]
          exact ⟨owed', haccount, fun h => (by cases h), fun h => (by cases h)⟩

/-- At the end of a segment the marked text is reported. -/
theorem owes_leftover (h : Owes p marked owed) :
    ∃ owed', accountAll owed (Pieces.leftover marked p) = some owed' ∧ Owes p none owed' := by
  have hrest : ∀ {n}, n = p.expected → Owes p none n :=
    fun hn => ⟨fun _ _ h => (by cases h), hn⟩
  have howed := h.owed
  cases marked with
  | none => exact ⟨owed, rfl, hrest howed⟩
  | some m =>
      obtain ⟨k, text⟩ := m
      cases k with
      | body =>
          change owed = p.expected + text.length at howed
          refine ⟨owed - text.length, ?_, hrest (by omega)⟩
          change accountAll owed [.data .body p text] = _
          unfold accountAll
          rw [List.foldlM_cons, account, if_pos (by omega)]
          rfl
      | _ => exact ⟨owed, rfl, hrest howed⟩

theorem owes_execute (hrested : p.httpErrno = .ok → Rested p) (h : p.httpErrno = .ok → Owes p none owed)
    (data : Bytes) :
    ∃ owed', accountAll owed (execute p data).events = some owed' ∧
      ((execute p data).parser.httpErrno = .ok → Owes (execute p data).parser none owed') := by
  unfold execute
  split
  · exact ⟨owed, rfl, h⟩
  · rename_i hok
    split
    · split
      · exact ⟨owed, rfl, h⟩
      · exact ⟨owed, rfl, fun h => (by cases h)⟩
    · have howes := h (not_not.mp hok)
      have hcounted := (hrested (not_not.mp hok)).counted
      have hresumed : Owes p ((resumed p.state).map fun k => (k, [])) owed := by
        refine ⟨fun k text hk => ?_, ?_⟩
        · obtain ⟨k', hk', heq⟩ := Option.map_eq_some_iff.mp hk
          obtain ⟨rfl, -⟩ := Prod.mk.inj heq
          exact place_of_resumed hk'
        · rw [howes.owed]
          cases resumed p.state with
          | none => rfl
          | some k => cases k <;> rfl
      obtain ⟨owed', haccount, hmore, hexit⟩ := owes_scan hcounted.inRange hresumed data
      obtain ⟨-, -, -, -, hrefused⟩ := counted_scan hcounted ((resumed p.state).map fun k => (k, [])) data
      unfold finish
      dsimp only
      split
      · rename_i hnext
        exact ⟨owed', haccount, fun _ => hexit hnext⟩
      · rename_i hnext
        exact ⟨owed', haccount, fun hok => absurd hok (hrefused hnext)⟩
      · rename_i hnext
        split
        · exact ⟨owed', haccount, fun h => (by cases h)⟩
        · obtain ⟨owed'', hleft, hlast⟩ := owes_leftover (hmore hnext)
          refine ⟨owed'', ?_, fun _ => hlast⟩
          rw [accountAll_append, haccount]
          exact hleft

theorem owes_executeAll (hrested : p.httpErrno = .ok → Rested p)
    (h : p.httpErrno = .ok → Owes p none owed) (segments : List Bytes) :
    ∃ owed', accountAll owed (executeAll p segments).2 = some owed' ∧
      ((executeAll p segments).1.httpErrno = .ok → Owes (executeAll p segments).1 none owed') := by
  induction segments generalizing p owed with
  | nil => exact ⟨owed, rfl, h⟩
  | cons data segments ih =>
      obtain ⟨owed', haccount, howes⟩ := owes_execute hrested h data
      obtain ⟨owed'', hrest, hlast⟩ := ih (rested_execute hrested data) howes
      refine ⟨owed'', ?_, hlast⟩
      change accountAll owed ((execute p data).events ++ _) = _
      rw [accountAll_append, haccount]
      exact hrest

end Books

/-- Whatever bytes come, in whatever segments: of each body and each chunk the parser
    reports as much as was announced before it says that it is complete, and never more.
    As long as nothing is refused, it expects the rest. -/
theorem executeAll_account (segments : List Bytes) :
    ∃ owed, accountAll 0 (executeAll .init segments).2 = some owed ∧
      ((executeAll .init segments).1.httpErrno = .ok → owed = (executeAll .init segments).1.expected) := by
  have hinit : Owes .init none 0 := owes_quiet rfl fun _ _ h => (by cases h)
  obtain ⟨owed, haccount, howes⟩ := owes_executeAll (fun _ => rested_init) (fun _ => hinit) segments
  exact ⟨owed, haccount, fun hok => (howes hok).owed⟩

/-- A chunk of which two bytes of three have come, in two segments. -/
example : accountAll 0 (executeAll .init [bytes "POST / HTTP/1.1\r\nTransfer-Encoding: chunked\r\n\r\n3\r\na",
    bytes "b"]).2 = some 1 := by decide +kernel

end HttpParser

end QGServer
