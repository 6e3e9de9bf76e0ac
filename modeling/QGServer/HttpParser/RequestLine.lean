-- SUMMARY: Where the URL of a request is in its bytes, and which calls of on_url a segment leads to.
import QGServer.HttpParser.MessageEnd

/-!
# The request line

`linePhase` finds the URL of a request without the parser. The parser reads the
request line in the same phases, so the calls of `on_url` follow from the phases
at the two ends of a segment: there is one at the end of the URL, and one at the
end of each segment that ends inside it.
-/

namespace QGServer

namespace HttpParser

/-! ## Phases -/

/-- How far the start of a request has been read. -/
inductive LinePhase where
  /-- Empty lines in front of the request. -/
  | newlines
  | method
  /-- The blanks before the URL. -/
  | spaces
  /-- Inside the URL, with what there is of it. -/
  | url (text : Bytes)
  /-- Behind the URL. -/
  | done (text : Bytes)
  deriving DecidableEq, Repr

/-- The bytes that end a URL. -/
def endsUrl (ch : UInt8) : Bool := ch = byte ' ' || ch = CR || ch = LF

namespace LinePhase

def step (phase : LinePhase) (ch : UInt8) : LinePhase :=
  match phase with
  | .newlines => if ch = CR || ch = LF then .newlines else .method
  | .method => if ch = byte ' ' then .spaces else .method
  | .spaces => if ch = byte ' ' then .spaces else .url [ch]
  | .url text => if endsUrl ch then .done text else .url (text ++ [ch])
  | .done text => .done text

/-- The URL as far as it has been read. -/
def text : LinePhase → Bytes
  | .url text | .done text => text
  | _ => []

def beforeUrl : LinePhase → Bool
  | .newlines | .method | .spaces => true
  | _ => false

/-- The part of a URL that has not ended. -/
def openUrl : LinePhase → Option Bytes
  | .url text => some text
  | _ => none

/-- The parser is where the phase says. -/
def Reads (phase : LinePhase) (p : HttpParser) : Prop :=
  match phase with
  | .newlines => p.state = .startReq
  | .method => p.state = .reqMethod
  | .spaces => p.state = .reqSpacesBeforeUrl
  | .url _ => p.place = .element .url
  | .done _ => p.place = .head ∨ ∃ k, k ≠ .url ∧ p.place = .element k

end LinePhase

/-- The phase of the bytes of a request. -/
def linePhase (bs : Bytes) : LinePhase := bs.foldl LinePhase.step .newlines

/-! ## One byte -/

section Byte

variable {p : HttpParser} {ch : UInt8} {phase : LinePhase} {text : Bytes}

/-- In front of the body, bytes are counted. -/
theorem onByte_header (hs : p.state.parsingHeader = true)
    (hnext : (onByte (p, none) ch).next ≠ .error) :
    onByte (p, none) ch = dispatch { p with nread := p.nread + 1 } none ch := by
  unfold onByte at hnext ⊢
  simp only [hs, if_true, Option.isNone_none, Bool.true_and, decide_eq_true_eq] at hnext ⊢
  split_ifs at hnext ⊢ with hlimit
  · exact absurd rfl hnext
  · rfl

theorem startReq_state (hs : p.state = .startReq) (hnext : (startReq p ch).next ≠ .error) :
    (startReq p ch).state.1.state = if ch = CR || ch = LF then .startReq else .reqMethod := by
  unfold startReq at hnext ⊢
  split_ifs at hnext ⊢
  · exact hs
  · exact absurd rfl hnext
  · dsimp only at hnext ⊢
    split at hnext
    · exact absurd rfl hnext
    · rfl

/-- No method has a blank in its name. -/
theorem method_ne_space (m : HttpMethod) (i : Nat) : m.string.getD i 0 ≠ byte ' ' := by
  have hall : ∀ b ∈ m.string, b ≠ byte ' ' := by
    cases m <;> decide +kernel
  rw [List.getD_eq_getElem?_getD]
  cases h : m.string[i]? with
  | none => decide
  | some b => exact hall b (List.mem_of_getElem? h)

theorem reqMethod_state (hs : p.state = .reqMethod) (hnext : (reqMethod p ch).next ≠ .error) :
    (reqMethod p ch).state.1.state = if ch = byte ' ' then .reqSpacesBeforeUrl else .reqMethod := by
  have hspace := method_ne_space p.method p.index
  unfold reqMethod at hnext ⊢
  generalize p.method.string.getD p.index 0 = matched at hnext hspace ⊢
  by_cases hch : ch = byte ' '
  · subst hch
    rw [if_pos rfl]
    by_cases hmatched : matched = 0
    · rw [hmatched]
      rfl
    · have hletter : ¬ ((byte 'A' ≤ byte ' ' && byte ' ' ≤ byte 'Z') || byte ' ' = byte '-') = true := by
        decide
      have hnull : ¬ byte ' ' = 0 := by decide
      simp only [hmatched, hspace.symm, hletter, hnull, if_false, decide_false, Bool.and_false,
        Bool.false_eq_true] at hnext
      exact absurd rfl hnext
  · rw [if_neg hch]
    simp only [hch, decide_false, Bool.false_and, Bool.false_eq_true, if_false] at hnext ⊢
    split at hnext
    · exact absurd rfl hnext
    · rename_i hnull
      rw [if_neg hnull]
      split at hnext
      · rename_i hmatched
        rw [if_pos hmatched]
        exact hs
      · rename_i hmatched
        rw [if_neg hmatched]
        split at hnext
        · rename_i hletter
          rw [if_pos hletter]
          split at hnext
          · exact hs
          · exact absurd rfl hnext
        · exact absurd rfl hnext

theorem urlChar_actions (s : ParserState) : (urlChar p s ch).actions = [] := by
  unfold urlChar
  dsimp only
  split <;> rfl

theorem reqSpacesBeforeUrl_actions :
    (reqSpacesBeforeUrl p ch).actions = if ch = byte ' ' then [] else [.mark .url] := by
  unfold reqSpacesBeforeUrl
  split
  · rfl
  · exact congrArg (_ :: ·) (urlChar_actions _)

theorem dispatch_url (hp : p.place = .element .url) :
    dispatch p none ch = reqSchema p ch ∨ dispatch p none ch = reqUrl p ch := by
  unfold place at hp
  unfold dispatch
  generalize p.state = s at hp ⊢
  cases s with
  | reqSchema | reqSchemaSlash | reqSchemaSlashSlash | reqServerStart => exact .inl rfl
  | reqServer | reqServerWithAt | reqPath | reqQueryStringStart | reqQueryString
  | reqFragmentStart | reqFragment => exact .inr rfl
  | _ => exact absurd hp (by decide)

/-- Inside the URL the parser looks for its end. -/
theorem url_actions (hp : p.place = .element .url) (hnext : (dispatch p none ch).next ≠ .error) :
    (dispatch p none ch).actions = [] ↔ endsUrl ch = false := by
  unfold endsUrl
  rcases @dispatch_url p ch hp with heq | heq
  · rw [heq] at hnext ⊢
    unfold reqSchema at hnext ⊢
    split at hnext
    · exact absurd rfl hnext
    · rename_i hends
      rw [if_neg hends]
      exact iff_of_true (urlChar_actions _) (Bool.eq_false_iff.mpr hends)
  · rw [heq]
    unfold reqUrl
    split
    · rename_i hch
      exact iff_of_false (by simp [callbackData, before]) (by simp [hch])
    · rename_i hch
      split
      · rename_i hend
        refine iff_of_false (by simp [callbackData, before]) ?_
        rw [Bool.not_eq_false, Bool.or_assoc, hend, Bool.or_true]
      · rename_i hend
        refine iff_of_true (urlChar_actions _) ?_
        simpa [hch] using hend

/-- What a byte does in front of the URL. -/
inductive LineMove (o : Outcome) : Prop where
  | quiet (hactions : o.actions = [] ∨ ∃ q, o.actions = [.notify .messageBegin q])
      (hplace : o.state.1.place = .start ∨ o.state.1.place = .line)
  | url (hactions : o.actions = [.mark .url]) (hplace : o.state.1.place = .element .url)

theorem Move.line_cases {o : Outcome} (h : Move p o) (hp : p.place = .start ∨ p.place = .line) :
    o.next = .more ∧ LineMove o := by
  cases h with
  | blank hp' hactions hnext hplace => exact ⟨hnext, .quiet (.inl hactions) (.inl hplace)⟩
  | messageBegin q hp' hactions hnext hplace =>
      exact ⟨hnext, .quiet (.inr ⟨q, hactions⟩) (.inr hplace)⟩
  | line hp' hactions hnext hplace => exact ⟨hnext, .quiet (.inl hactions) (.inr hplace)⟩
  | url hp' hactions hnext hplace => exact ⟨hnext, .url hactions hplace⟩
  | inside k hk hp' => simp [hp'] at hp
  | behind k hk q hp' => simp [hp'] at hp
  | head hp' => simp [hp'] at hp
  | emptyValue q o' hp' => simp [hp'] at hp
  | body hp' => simp [hp'] at hp
  | bodyEnd q q' hp' => simp [hp'] at hp
  | chunkEnd q hp' => simp [hp'] at hp

theorem LineMove.actions_of_quiet {o : Outcome} (h : LineMove o)
    (hp : o.state.1.place = .start ∨ o.state.1.place = .line) :
    o.actions = [] ∨ ∃ q, o.actions = [.notify .messageBegin q] := by
  cases h with
  | quiet hactions => exact hactions
  | url hactions hplace => simp [hplace] at hp

/-- The parser reads what comes before the URL. -/
theorem reads_line (hreads : phase.Reads p) (hline : phase.beforeUrl = true)
    (hnext : (onByte (p, none) ch).next ≠ .error) :
    let o := onByte (p, none) ch
    o.next = .more ∧ (phase.step ch).Reads o.state.1 ∧
      ((phase.step ch = .url [ch] ∧ o.actions = [.mark .url]) ∨
        ((phase.step ch).beforeUrl = true ∧
          (o.actions = [] ∨ ∃ q, o.actions = [.notify .messageBegin q]))) := by
  have hmove : Move p (onByte (p, none) ch) := (onByte_moves hnext).1
  have hquiet : ∀ {next : LinePhase}, next.Reads (onByte (p, none) ch).state.1 →
      next.beforeUrl = true → LineMove (onByte (p, none) ch) →
      (onByte (p, none) ch).actions = [] ∨
        ∃ q, (onByte (p, none) ch).actions = [.notify .messageBegin q] := by
    intro next hreads hline hmove
    refine hmove.actions_of_quiet ?_
    cases next with
    | newlines => exact .inl (congrArg placeOf hreads)
    | method => exact .inr (congrArg placeOf hreads)
    | spaces => exact .inr (congrArg placeOf hreads)
    | url text => cases hline
    | done text => cases hline
  dsimp only
  cases phase with
  | newlines =>
      obtain ⟨hmore, hlineMove⟩ := hmove.line_cases (.inl (congrArg placeOf hreads))
      have heq : onByte (p, none) ch = startReq { p with nread := p.nread + 1 } ch := by
        rw [onByte_header (by rw [hreads]; rfl) hnext, dispatch, hreads]
      have hstate := startReq_state (p := { p with nread := p.nread + 1 }) hreads (heq ▸ hnext)
      rw [← heq] at hstate
      have hreads' : (LinePhase.newlines.step ch).Reads (onByte (p, none) ch).state.1 := by
        rw [LinePhase.step]
        split at hstate <;> simpa [LinePhase.Reads, *] using hstate
      have hbefore : (LinePhase.newlines.step ch).beforeUrl = true := by
        rw [LinePhase.step]
        split <;> rfl
      exact ⟨hmore, hreads', .inr ⟨hbefore, hquiet hreads' hbefore hlineMove⟩⟩
  | method =>
      obtain ⟨hmore, hlineMove⟩ := hmove.line_cases (.inr (congrArg placeOf hreads))
      have heq : onByte (p, none) ch = reqMethod { p with nread := p.nread + 1 } ch := by
        rw [onByte_header (by rw [hreads]; rfl) hnext, dispatch, hreads]
      have hstate := reqMethod_state (p := { p with nread := p.nread + 1 }) hreads (heq ▸ hnext)
      rw [← heq] at hstate
      have hreads' : (LinePhase.method.step ch).Reads (onByte (p, none) ch).state.1 := by
        rw [LinePhase.step]
        split at hstate <;> simpa [LinePhase.Reads, *] using hstate
      have hbefore : (LinePhase.method.step ch).beforeUrl = true := by
        rw [LinePhase.step]
        split <;> rfl
      exact ⟨hmore, hreads', .inr ⟨hbefore, hquiet hreads' hbefore hlineMove⟩⟩
  | spaces =>
      obtain ⟨hmore, hlineMove⟩ := hmove.line_cases (.inr (congrArg placeOf hreads))
      have heq : onByte (p, none) ch = reqSpacesBeforeUrl { p with nread := p.nread + 1 } ch := by
        rw [onByte_header (by rw [hreads]; rfl) hnext, dispatch, hreads]
      refine ⟨hmore, ?_⟩
      rw [LinePhase.step]
      split
      · rename_i hch
        have hreads' : LinePhase.spaces.Reads (onByte (p, none) ch).state.1 := by
          rw [heq, reqSpacesBeforeUrl, if_pos hch]
          exact hreads
        exact ⟨hreads', .inr ⟨rfl, hquiet hreads' rfl hlineMove⟩⟩
      · rename_i hch
        have hactions : (onByte (p, none) ch).actions = [.mark .url] := by
          rw [heq, reqSpacesBeforeUrl_actions, if_neg hch]
        cases hlineMove with
        | quiet hquiet => simp [hactions] at hquiet
        | url _ hplace => exact ⟨hplace, .inl ⟨rfl, hactions⟩⟩
  | url text => cases hline
  | done text => cases hline

/-- The parser reads the URL. -/
theorem reads_url (hp : p.place = .element .url) (hnext : (onByte (p, none) ch).next ≠ .error) :
    let o := onByte (p, none) ch
    o.next = .more ∧
      if endsUrl ch then (∃ q, o.actions = [.data .url q]) ∧ o.state.1.place = .head
      else o.actions = [] ∧ o.state.1.place = .element .url := by
  have hheader : p.state.parsingHeader = true := by
    unfold place at hp
    generalize p.state = s at hp ⊢
    cases s <;> first | rfl | exact absurd hp (by decide)
  have hactions : (onByte (p, none) ch).actions = [] ↔ endsUrl ch = false := by
    have heq := onByte_header hheader hnext
    rw [heq] at hnext ⊢
    exact url_actions (p := { p with nread := p.nread + 1 }) hp hnext
  dsimp only
  cases (onByte_moves hnext).1 with
  | inside k hk hp' hnone hmore hplace =>
      obtain rfl : k = .url := by simpa [hp] using hp'.symm
      rw [hactions.mp hnone]
      exact ⟨hmore, hnone, hplace⟩
  | behind k hk q hp' hdata hmore hplace =>
      obtain rfl : k = .url := by simpa [hp] using hp'.symm
      have hends : endsUrl ch = true := by
        rw [← Bool.not_eq_false, ← hactions, hdata]
        simp
      rw [if_pos hends]
      exact ⟨hmore, ⟨q, hdata⟩, hplace⟩
  | blank hp' => simp [hp] at hp'
  | messageBegin q hp' => simp [hp] at hp'
  | line hp' => simp [hp] at hp'
  | url hp' => simp [hp] at hp'
  | head hp' => simp [hp] at hp'
  | emptyValue q o' hp' => simp [hp] at hp'
  | body hp' => simp [hp] at hp'
  | bodyEnd q q' hp' => simp [hp] at hp'
  | chunkEnd q hp' => simp [hp] at hp'

/-- The action reports a part of a URL. -/
def reportsUrl : Action → Bool
  | .data .url _ | .dataTo .url _ => true
  | _ => false

/-- Behind the URL no URL is reported, and the parser stays there up to the end
    of the message. -/
structure BehindUrl (o : Outcome) : Prop where
  actions : ∀ a ∈ o.actions, reportsUrl a = false
  goes : o.next = .more ∧ (LinePhase.done []).Reads o.state.1 ∨
    ∃ as q, o.actions = as ++ [.notify .messageComplete q]

theorem reportsUrl_notices (ns : List (NotifyCallback × HttpParser)) :
    ∀ a ∈ notices ns, reportsUrl a = false := by
  intro a ha
  obtain ⟨n, -, rfl⟩ := List.mem_map.mp ha
  rfl

theorem HeadMove.behindUrl {o : Outcome} (h : HeadMove o) : BehindUrl o := by
  cases h with
  | notices ns hns hactions hnext hplace =>
      refine ⟨fun a ha => reportsUrl_notices ns a (hactions ▸ ha), .inl ⟨hnext, ?_⟩⟩
      exact hplace.imp_right fun hbody => ⟨.body, by simp, hbody⟩
  | begins k hk hactions hnext hplace =>
      refine ⟨fun a ha => ?_, .inl ⟨hnext, .inr ⟨k, ?_, hplace⟩⟩⟩
      · rw [hactions, List.mem_singleton] at ha
        rw [ha]
        rfl
      · rcases hk with rfl | rfl <;> simp
  | complete ns hns q hactions hplace =>
      refine ⟨fun a ha => ?_, .inr ⟨_, q, hactions⟩⟩
      rw [hactions, List.mem_append, List.mem_singleton] at ha
      rcases ha with ha | rfl
      · exact reportsUrl_notices ns a ha
      · rfl

theorem BehindUrl.before {o : Outcome} {a : Action} (h : BehindUrl o) (ha : reportsUrl a = false) :
    BehindUrl (before a o) := by
  refine ⟨fun a' ha' => ?_, h.goes.imp_right ?_⟩
  · rcases List.mem_cons.mp ha' with rfl | ha'
    · exact ha
    · exact h.actions a' ha'
  · rintro ⟨as, q, hactions⟩
    exact ⟨a :: as, q, congrArg (a :: ·) hactions⟩

theorem reads_done (hreads : (LinePhase.done text).Reads p)
    (hnext : (onByte (p, none) ch).next ≠ .error) : BehindUrl (onByte (p, none) ch) := by
  have hplace : p.place ≠ .start ∧ p.place ≠ .line ∧ p.place ≠ .element .url := by
    rcases hreads with hp | ⟨k, hk, hp⟩
    · simp [hp]
    · simp [hp, hk]
  cases (onByte_moves hnext).1 with
  | blank hp => exact absurd hp hplace.1
  | messageBegin q hp => exact absurd hp hplace.1
  | line hp => exact absurd hp hplace.2.1
  | url hp => exact absurd hp hplace.2.1
  | inside k hk hp hactions hnext hinside =>
      refine ⟨fun a ha => ?_, .inl ⟨hnext, .inr ⟨k, ?_, hinside⟩⟩⟩
      · rw [hactions] at ha
        cases ha
      · rintro rfl
        exact hplace.2.2 hp
  | behind k hk q hp hactions hnext hbehind =>
      refine ⟨fun a ha => ?_, .inl ⟨hnext, .inl hbehind⟩⟩
      rw [hactions, List.mem_singleton] at ha
      rw [ha]
      cases k with
      | url => exact absurd hp hplace.2.2
      | _ => rfl
  | head hp h => exact h.behindUrl
  | emptyValue q o' hp ho h =>
      rw [ho]
      exact (h.behindUrl.before rfl).before rfl
  | body hp hactions hnext hbody =>
      refine ⟨fun a ha => ?_, .inl ⟨hnext, .inr ⟨.body, by simp, hbody⟩⟩⟩
      rw [hactions, List.mem_singleton] at ha
      rw [ha]
      rfl
  | bodyEnd q q' hp hactions =>
      refine ⟨fun a ha => ?_, .inr ⟨[.mark .body, .dataTo .body q], q', hactions⟩⟩
      rw [hactions] at ha
      rcases List.mem_cons.mp ha with rfl | ha
      · rfl
      · rcases List.mem_cons.mp ha with rfl | ha
        · rfl
        · rw [List.mem_singleton.mp ha]
          rfl
  | chunkEnd q hp hactions hnext hfinal hhead =>
      refine ⟨fun a ha => ?_, .inl ⟨hnext, .inl hhead⟩⟩
      rw [hactions, List.mem_singleton] at ha
      rw [ha]
      rfl

end Byte

/-! ## Calls of `on_url` -/

/-- The URLs that `urlCallBack` has put together when it splits them: `url` and
    the pieces so far. -/
def splitUrls (url : Bytes) : List Event → List Bytes
  | [] => []
  | .data .url _ text :: es => (url ++ text) :: splitUrls (url ++ text) es
  | _ :: es => splitUrls url es

/-- The part of the URL that is marked. -/
def markedUrl : Pieces.Marked DataCallback → Bytes
  | some (.url, text) => text
  | _ => []

/-- The URLs that are split while the parser gets from one phase to another one. -/
def LinePhase.newUrls (phase phase' : LinePhase) : List Bytes :=
  match phase with
  | .done _ => []
  | _ =>
    match phase' with
    | .url text | .done text => [text]
    | _ => []

/-- The URL that ends at a byte. -/
def LinePhase.ended (phase : LinePhase) (ch : UInt8) : List Bytes :=
  match phase with
  | .url text => if endsUrl ch then [text] else []
  | _ => []

theorem LinePhase.text_beforeUrl {phase : LinePhase} (h : phase.beforeUrl = true) :
    phase.text = [] := by
  cases phase <;> first | rfl | cases h

@[simp] theorem LinePhase.foldl_done (bs : Bytes) (text : Bytes) :
    bs.foldl LinePhase.step (.done text) = .done text := by
  induction bs with
  | nil => rfl
  | cons b bs ih => exact ih

section Scan

variable {p : HttpParser} {ch : UInt8} {phase : LinePhase} {url : Bytes}
  {marked : Pieces.Marked DataCallback}

theorem splitUrls_of_not_url {es : List Event} (h : ∀ p text, .data .url p text ∉ es)
    (es' : List Event) : splitUrls url (es ++ es') = splitUrls url es' := by
  induction es with
  | nil => rfl
  | cons e es ih =>
      have hrest := ih fun p text hmem => h p text (List.mem_cons_of_mem _ hmem)
      cases e with
      | notify n p => exact hrest
      | data k p text =>
          cases k with
          | url => exact absurd List.mem_cons_self (h p text)
          | _ => exact hrest

theorem splitUrls_acts {as : List Action} (h : ∀ a ∈ as, reportsUrl a = false) (es : List Event) :
    splitUrls url ((Pieces.acts ch marked as).2 ++ es) = splitUrls url es := by
  refine splitUrls_of_not_url (fun p text hmem => ?_) es
  rcases Pieces.mem_acts hmem with ⟨k, q, t, heq, hmem⟩ | ⟨n, q, heq, -⟩
  · cases heq
    rcases hmem with hmem | hmem <;> cases h _ hmem
  · cases heq

theorem markedUrl_done {text : Bytes} (hfits : Fits p marked)
    (hreads : (LinePhase.done text).Reads p) : markedUrl marked = [] := by
  cases hm : marked with
  | none => rfl
  | some m =>
      obtain ⟨k, t⟩ := m
      have hp := element_eq_some.mp (hfits.element hm)
      cases k with
      | url =>
          rcases hreads with hhead | ⟨k, hk, hk'⟩
          · simp [hp] at hhead
          · exact absurd (Place.element.inj (hp.symm.trans hk')) hk.symm
      | _ => rfl

theorem marked_url (hfits : Fits p marked) (hp : p.place = .element .url) :
    marked = some (.url, markedUrl marked) := by
  obtain ⟨t, rfl⟩ := hfits.resume (k := .url) (resumed_of_place hp (by simp))
  rfl

theorem marked_line (hfits : Fits p marked) (hreads : phase.Reads p)
    (hline : phase.beforeUrl = true) : marked = none := by
  refine marked_eq_none hfits fun k hk => ?_
  have hs : p.state = .startReq ∨ p.state = .reqMethod ∨ p.state = .reqSpacesBeforeUrl := by
    cases phase with
    | newlines => exact .inl hreads
    | method => exact .inr (.inl hreads)
    | spaces => exact .inr (.inr hreads)
    | url text => cases hline
    | done text => cases hline
  unfold place at hk
  rcases hs with hs | hs | hs <;> rw [hs] at hk <;> cases hk

/-- What is left of the URL at the end of a segment. -/
theorem splitUrls_leftover (hfits : Fits p marked) (hreads : phase.Reads p)
    (hurl : url ++ markedUrl marked = phase.text) (es : List Event) :
    splitUrls url (Pieces.leftover marked p ++ es) =
      phase.newUrls phase ++ splitUrls phase.text es := by
  have hline : phase.beforeUrl = true → splitUrls url (Pieces.leftover marked p ++ es) =
      splitUrls phase.text es := by
    intro hline
    have hnone := marked_line hfits hreads hline
    subst hnone
    rw [← hurl]
    change splitUrls url es = splitUrls (url ++ []) es
    rw [List.append_nil]
  cases phase with
  | newlines => exact hline rfl
  | method => exact hline rfl
  | spaces => exact hline rfl
  | url text =>
      rw [marked_url hfits hreads]
      simp [Pieces.leftover, splitUrls, LinePhase.newUrls, hurl, LinePhase.text]
  | done text =>
      have hnone := markedUrl_done hfits hreads
      rw [hnone, List.append_nil] at hurl
      subst hurl
      cases marked with
      | none => rfl
      | some m =>
          obtain ⟨k, t⟩ := m
          cases k with
          | url =>
              have hp := element_eq_some.mp (hfits.element rfl)
              rcases hreads with hhead | ⟨k, hk, hk'⟩
              · simp [hp] at hhead
              · exact absurd (Place.element.inj (hp.symm.trans hk')) hk.symm
          | _ => rfl

theorem newUrls_step (phase : LinePhase) (ch : UInt8) (bs : Bytes) :
    phase.newUrls (bs.foldl LinePhase.step (phase.step ch)) =
      phase.ended ch ++ (phase.step ch).newUrls (bs.foldl LinePhase.step (phase.step ch)) := by
  cases phase with
  | newlines =>
      rw [LinePhase.step]
      split <;> rfl
  | method =>
      rw [LinePhase.step]
      split <;> rfl
  | spaces =>
      rw [LinePhase.step]
      split <;> rfl
  | url text =>
      rw [LinePhase.step, LinePhase.ended]
      split
      · rw [LinePhase.foldl_done]
        rfl
      · rfl
  | done text => rfl

/-- What one byte does to the URL: the parser reads on, or the message ends. -/
inductive UrlStep (url : Bytes) (phase : LinePhase) (ch : UInt8) (marked : Pieces.Marked DataCallback)
    (o : Pieces.Outcome HttpParser DataCallback NotifyCallback HttpParser) : Prop where
  | goes (url' : Bytes) (hnext : o.next = .more) (hreads : (phase.step ch).Reads o.state)
      (hurl : url' ++ markedUrl (Pieces.extend ch (Pieces.acts ch marked o.actions).1) =
        (phase.step ch).text)
      (hurls : ∀ es, splitUrls url ((Pieces.acts ch marked o.actions).2 ++ es) =
        phase.ended ch ++ splitUrls url' es)
      (hquiet : finishes (Pieces.acts ch marked o.actions).2 = true → ∃ text, phase = .done text)
  | finishes (text : Bytes) (hphase : phase = .done text) (hurl : url = text)
      (hurls : ∀ es, splitUrls url ((Pieces.acts ch marked o.actions).2 ++ es) = splitUrls url es)
      (hends : ∃ es q, (Pieces.acts ch marked o.actions).2 = es ++ [.notify .messageComplete q])

theorem url_step (hfits : Fits p marked) (hreads : phase.Reads p)
    (hurl : url ++ markedUrl marked = phase.text) (hnext : (byteMachine.step p ch).next ≠ .error) :
    UrlStep url phase ch marked (byteMachine.step p ch) := by
  have hline : phase.beforeUrl = true → phase.ended ch = [] →
      UrlStep url phase ch marked (byteMachine.step p ch) := by
    intro hbefore hended
    have hnone := marked_line hfits hreads hbefore
    subst hnone
    obtain ⟨hmore, hreads', hline⟩ := reads_line hreads hbefore hnext
    have htext : url = [] := by
      rw [← List.append_nil url]
      exact hurl.trans (LinePhase.text_beforeUrl hbefore)
    subst htext
    rcases hline with ⟨hstep, hactions⟩ | ⟨hbefore', hactions⟩
    · have hacts : (byteMachine.step p ch).actions = [.mark .url] := hactions
      refine .goes [] hmore hreads' ?_ (fun es => ?_) fun hfinishes => ?_
      · rw [hacts, hstep]
        rfl
      · rw [hacts, hended]
        rfl
      · rw [hacts] at hfinishes
        cases hfinishes
    · have hacts : (Pieces.acts ch none (byteMachine.step p ch).actions).1 = none ∧
          (∀ es, splitUrls [] ((Pieces.acts ch none (byteMachine.step p ch).actions).2 ++ es) =
            splitUrls [] es) ∧
          finishes (Pieces.acts ch none (byteMachine.step p ch).actions).2 = false := by
        change (Pieces.acts ch none (onByte (p, none) ch).actions).1 = none ∧
          (∀ es, splitUrls [] ((Pieces.acts ch none (onByte (p, none) ch).actions).2 ++ es) = _) ∧
          finishes (Pieces.acts ch none (onByte (p, none) ch).actions).2 = false
        rcases hactions with hactions | ⟨q, hactions⟩
        all_goals
          rw [hactions]
          exact ⟨rfl, fun _ => rfl, rfl⟩
      refine .goes [] hmore hreads' ?_ (fun es => ?_) fun hfinishes => ?_
      · rw [hacts.1, LinePhase.text_beforeUrl hbefore']
        rfl
      · rw [hacts.2.1, hended]
        rfl
      · rw [hacts.2.2] at hfinishes
        cases hfinishes
  cases phase with
  | newlines => exact hline rfl rfl
  | method => exact hline rfl rfl
  | spaces => exact hline rfl rfl
  | url text =>
      obtain ⟨hmore, hstep⟩ := reads_url hreads hnext
      have hmarked := marked_url hfits hreads
      have hacts : ∀ {as}, (onByte (p, none) ch).actions = as →
          Pieces.acts ch marked (byteMachine.step p ch).actions =
            Pieces.acts ch (some (.url, markedUrl marked)) as := by
        intro as has
        rw [← hmarked, ← has]
        rfl
      by_cases hch : endsUrl ch = true
      · rw [if_pos hch] at hstep
        obtain ⟨⟨q, hactions⟩, hhead⟩ := hstep
        refine .goes text hmore ?_ ?_ (fun es => ?_) fun hfinishes => ?_
        · rw [LinePhase.step, if_pos hch]
          exact .inl hhead
        · rw [hacts hactions, LinePhase.step, if_pos hch]
          exact List.append_nil text
        · rw [hacts hactions, LinePhase.ended, if_pos hch]
          simp [Pieces.acts, Pieces.act, splitUrls, hurl, LinePhase.text]
        · rw [hacts hactions] at hfinishes
          cases hfinishes
      · rw [if_neg hch] at hstep
        obtain ⟨hactions, hinside⟩ := hstep
        refine .goes url hmore ?_ ?_ (fun es => ?_) fun hfinishes => ?_
        · rw [LinePhase.step, if_neg hch]
          exact hinside
        · rw [hacts hactions, LinePhase.step, if_neg hch]
          change url ++ (markedUrl marked ++ [ch]) = text ++ [ch]
          rw [← List.append_assoc, hurl]
          rfl
        · rw [hacts hactions, LinePhase.ended, if_neg hch]
          rfl
        · rw [hacts hactions] at hfinishes
          cases hfinishes
  | done text =>
      obtain ⟨hactions, hgoes⟩ := reads_done hreads hnext
      have hnone := markedUrl_done hfits hreads
      rw [hnone, List.append_nil] at hurl
      rcases hgoes with ⟨hmore, hstays⟩ | ⟨as, q, heq⟩
      · refine .goes url hmore hstays ?_ (fun es => splitUrls_acts hactions es) fun _ => ⟨text, rfl⟩
        have hdone : (LinePhase.done text).Reads (byteMachine.step p ch).state := hstays
        rw [markedUrl_done (byteMachine_fits hfits hmore) hdone, List.append_nil]
        exact hurl
      · refine .finishes text rfl hurl (fun es => splitUrls_acts hactions es)
          ⟨(Pieces.acts ch marked as).2, q, ?_⟩
        change (Pieces.acts ch marked (onByte (p, none) ch).actions).2 = _
        rw [heq, Pieces.acts_append]
        rfl

abbrev ByteScan := Pieces.Scan HttpParser DataCallback NotifyCallback HttpParser

/-- What the parser has reported of the URL when it has got from `phase` to
    `phase'`, and where it is. -/
structure ReadsUrl (url : Bytes) (phase phase' : LinePhase) (r : ByteScan) : Prop where
  urls : ∀ es, splitUrls url (byteMachine.reports r ++ es) =
    phase.newUrls phase' ++ splitUrls phase'.text es
  reads : phase'.Reads r.state ∨
    (∃ text, phase' = .done text) ∧ finishes (byteMachine.reports r) = true
  done : finishes (byteMachine.reports r) = true → ∃ text, phase' = .done text

theorem scan_urls {bs : Bytes} (hfits : Fits p marked) (hreads : phase.Reads p)
    (hurl : url ++ markedUrl marked = phase.text)
    (hnext : (Pieces.scan byteMachine.step p marked bs).next ≠ .error)
    (hends : EndsLast (byteMachine.reports (Pieces.scan byteMachine.step p marked bs))) :
    ReadsUrl url phase (bs.foldl LinePhase.step phase)
      (Pieces.scan byteMachine.step p marked bs) := by
  induction bs generalizing p marked phase url with
  | nil =>
      refine ⟨splitUrls_leftover hfits hreads hurl, .inl hreads, fun hfinishes => ?_⟩
      cases (finishes_leftover marked p).symm.trans hfinishes
  | cons b bs ih =>
      rw [List.foldl_cons]
      have hb : (byteMachine.step p b).next ≠ .error := Pieces.scan_accepted hnext
      cases url_step hfits hreads hurl hb with
      | goes url' hmore hreads' hurl' hurls hquiet =>
          rw [Pieces.scan_more hmore] at hnext hends ⊢
          rw [Pieces.reports_cons] at hends
          obtain ⟨hrest, hstate, hdone⟩ :=
            ih (byteMachine_fits hfits hmore) hreads' hurl' hnext hends.right
          refine ⟨fun es => ?_, ?_, fun hfinishes => ?_⟩
          · rw [Pieces.reports_cons, List.append_assoc, hurls, hrest, newUrls_step, List.append_assoc]
          · refine hstate.imp_right (And.imp_right fun hfinishes => ?_)
            rw [Pieces.reports_cons, finishes_append, hfinishes, Bool.or_true]
          · rw [Pieces.reports_cons, finishes_append, Bool.or_eq_true] at hfinishes
            refine hfinishes.elim (fun hnow => ?_) hdone
            obtain ⟨text, rfl⟩ := hquiet hnow
            exact ⟨text, LinePhase.foldl_done bs text⟩
      | finishes text hphase hsame hurls hlast =>
          subst hphase hsame
          obtain ⟨es, q, hes⟩ := hlast
          have hreports : byteMachine.reports (Pieces.scan byteMachine.step p marked (b :: bs)) =
              (Pieces.acts b marked (byteMachine.step p b).actions).2 := by
            cases hnext' : (byteMachine.step p b).next with
            | error => exact absurd hnext' hb
            | exit =>
                rw [Pieces.scan_exit hnext']
                rfl
            | more =>
                rw [Pieces.scan_more hnext', Pieces.reports_cons, hes] at hends ⊢
                rw [hends.nil_of_complete, List.append_nil]
          rw [LinePhase.step, LinePhase.foldl_done]
          refine ⟨fun es => ?_, .inr ⟨⟨url, rfl⟩, ?_⟩, fun _ => ⟨url, rfl⟩⟩
          · rw [hreports, hurls]
            rfl
          · rw [hreports, hes, finishes_append]
            exact Bool.or_true _

/-- The URLs that are split while segments are read one after another. -/
def LinePhase.allUrls (phase : LinePhase) : List Bytes → List Bytes
  | [] => []
  | data :: segments =>
    let phase' := data.foldl LinePhase.step phase
    phase.newUrls phase' ++ phase'.allUrls segments

theorem LinePhase.allUrls_done (text : Bytes) (segments : List Bytes) :
    (LinePhase.done text).allUrls segments = [] := by
  induction segments with
  | nil => rfl
  | cons data segments ih => simpa [allUrls, newUrls] using ih

theorem feed_urls {segments : List Bytes}
    (hreads : phase.Reads p ∨ (∃ text, phase = .done text) ∧ (byteMachine.feed p segments).2 = [])
    (huses : byteMachine.UsesAll p segments) (hends : EndsLast (byteMachine.feed p segments).2) :
    splitUrls phase.text (byteMachine.feed p segments).2 = phase.allUrls segments := by
  induction segments generalizing p phase with
  | nil => rfl
  | cons data segments ih =>
      rcases hreads with hreads | ⟨⟨text, rfl⟩, hnil⟩
      · obtain ⟨⟨hnext, -⟩, hrest⟩ := huses
        have hmark : phase.text ++ markedUrl ((byteMachine.resume p).map fun k => (k, [])) =
            phase.text := by
          cases byteMachine.resume p with
          | none => exact List.append_nil _
          | some k => cases k <;> exact List.append_nil _
        have hfirst := scan_urls (Pieces.fits_segment byteMachine_tidy p) hreads hmark hnext hends.left
        rw [Pieces.Machine.feed, LinePhase.allUrls]
        refine (hfirst.urls _).trans (congrArg _ (ih ?_ hrest hends.right))
        refine hfirst.reads.imp_right (And.imp_right fun hfinishes => ?_)
        exact hends.nil_of_finishes hfinishes
      · rw [hnil, LinePhase.allUrls_done]
        rfl

end Scan

end HttpParser

end QGServer
