-- SUMMARY: The URLs that the parser reports have gone through the character machine, and a long one gets through.
import QGServer.HttpParser.Fields
import QGServer.HttpParser.RequestLine

/-!
# Accepted URLs

The parser checks the characters of a URL one by one, with the machine that
`http_parser_parse_url` uses, so what it reports as a URL is live.
-/

namespace QGServer

namespace HttpParser

/-! ## One byte -/

/-- The parser has read the text of a URL, from where a URL can begin, and is in
    the state `s`. -/
structure UrlRead (s : ParserState) (text : Bytes) : Prop where
  ne_nil : text ≠ []
  state : ∃ s₀, (s₀ = .reqSpacesBeforeUrl ∨ s₀ = .reqServerStart) ∧ text.foldl parseUrlChar s₀ = s
  live : s ≠ .dead

/-- A marked URL has been read. -/
def MarkRead (p : HttpParser) (marked : Pieces.Marked DataCallback) : Prop :=
  ∀ text, marked = some (.url, text) → UrlRead p.state text

section Byte

variable {p : HttpParser} {ch : UInt8} {marked : Pieces.Marked DataCallback}

theorem UrlRead.concat {s : ParserState} {text : Bytes} (h : UrlRead s text)
    (hlive : parseUrlChar s ch ≠ .dead) : UrlRead (parseUrlChar s ch) (text ++ [ch]) := by
  obtain ⟨s₀, hs₀, hstate⟩ := h.state
  refine ⟨by simp, ⟨s₀, hs₀, ?_⟩, hlive⟩
  rw [List.foldl_append, hstate]
  rfl

theorem urlChar_state {s : ParserState} (h : (urlChar p s ch).next ≠ .error) :
    (urlChar p s ch).state.1.state = parseUrlChar s ch ∧ parseUrlChar s ch ≠ .dead := by
  unfold urlChar at h ⊢
  dsimp only at h ⊢
  split_ifs at h ⊢ with hdead
  · exact absurd rfl h
  · exact ⟨rfl, hdead⟩

theorem urlRead_first {s : ParserState} (hs : s = .reqSpacesBeforeUrl ∨ s = .reqServerStart)
    (h : (urlChar p s ch).next ≠ .error) : UrlRead (urlChar p s ch).state.1.state [ch] := by
  obtain ⟨hstate, hlive⟩ := urlChar_state h
  rw [hstate]
  exact ⟨List.cons_ne_nil _ _, ⟨s, hs, rfl⟩, hlive⟩

theorem reqSchema_of_accepted (h : (reqSchema p ch).next ≠ .error) :
    reqSchema p ch = urlChar p p.state ch := by
  unfold reqSchema at h ⊢
  split_ifs at h ⊢
  · exact absurd rfl h
  · rfl

theorem reqUrl_of_quiet (h : (reqUrl p ch).actions = []) : reqUrl p ch = urlChar p p.state ch := by
  unfold reqUrl at h ⊢
  by_cases hblank : ch = byte ' '
  · rw [if_pos hblank] at h
    cases h
  · rw [if_neg hblank] at h ⊢
    by_cases hend : (ch = CR || ch = LF) = true
    · rw [if_pos hend] at h
      cases h
    · rw [if_neg hend]

theorem onByte_url (hp : p.place = .element .url) (hnext : (onByte (p, none) ch).next ≠ .error)
    (hactions : (onByte (p, none) ch).actions = []) :
    (onByte (p, none) ch).state.1.state = parseUrlChar p.state ch ∧
      parseUrlChar p.state ch ≠ .dead := by
  have hheader : p.state.parsingHeader = true := by
    unfold place at hp
    generalize p.state = s at hp ⊢
    cases s <;> first | rfl | exact absurd hp (by decide)
  have hbyte := onByte_header hheader hnext
  rw [hbyte] at hnext hactions ⊢
  have hurl : dispatch { p with nread := p.nread + 1 } none ch =
      urlChar { p with nread := p.nread + 1 } p.state ch := by
    rcases @dispatch_url { p with nread := p.nread + 1 } ch hp with heq | heq
    · rw [heq] at hnext ⊢
      exact reqSchema_of_accepted hnext
    · rw [heq] at hactions ⊢
      exact reqUrl_of_quiet hactions
  rw [hurl] at hnext ⊢
  exact urlChar_state hnext

theorem reqMethod_actions : (reqMethod p ch).actions = [] := by
  unfold reqMethod
  dsimp only
  split_ifs
  all_goals first
    | rfl
    | split <;> rfl

/-- The first character of a URL. -/
theorem onByte_line (hp : p.place = .line) (hnext : (onByte (p, none) ch).next ≠ .error)
    (hactions : (onByte (p, none) ch).actions = [.mark .url]) :
    UrlRead (onByte (p, none) ch).state.1.state [ch] := by
  have hstate : p.state = .reqMethod ∨ p.state = .reqSpacesBeforeUrl := by
    unfold place at hp
    generalize p.state = s at hp ⊢
    cases s <;> first | exact .inl rfl | exact .inr rfl | exact absurd hp (by decide)
  have hheader : p.state.parsingHeader = true := by
    rcases hstate with hs | hs <;> rw [hs] <;> rfl
  have hbyte := onByte_header hheader hnext
  rw [hbyte] at hnext hactions ⊢
  rcases hstate with hs | hs
  · have heq : dispatch { p with nread := p.nread + 1 } none ch =
        reqMethod { p with nread := p.nread + 1 } ch := by rw [dispatch, hs]
    rw [heq, reqMethod_actions] at hactions
    cases hactions
  · have heq : dispatch { p with nread := p.nread + 1 } none ch =
        reqSpacesBeforeUrl { p with nread := p.nread + 1 } ch := by rw [dispatch, hs]
    rw [heq] at hnext hactions ⊢
    unfold reqSpacesBeforeUrl at hnext hactions ⊢
    split_ifs at hnext hactions ⊢
    · cases hactions
    · exact urlRead_first (.inr rfl) hnext
    · exact urlRead_first (.inl rfl) hnext

theorem HeadMove.place_ne_url {o : Outcome} (h : HeadMove o) : o.state.1.place ≠ .element .url := by
  intro hplace
  cases h with
  | notices ns hns hactions hnext hplace' => rcases hplace' with h | h <;> cases hplace.symm.trans h
  | begins k hk hactions hnext hplace' =>
      cases hplace.symm.trans hplace'
      rcases hk with hk | hk <;> cases hk
  | complete ns hns q hactions hplace' => cases hplace.symm.trans hplace'

/-- Outside of a URL none is reported. -/
theorem reportsUrl_outside (hp : p.place ≠ .element .url)
    (hnext : (onByte (p, none) ch).next ≠ .error) :
    ∀ a ∈ (onByte (p, none) ch).actions, reportsUrl a = false := by
  have hline : p.place = .start ∨ p.place = .line →
      ∀ a ∈ (onByte (p, none) ch).actions, reportsUrl a = false := by
    intro hline a ha
    cases ((onByte_moves hnext).1.line_cases hline).2 with
    | quiet hactions =>
        rcases hactions with hactions | ⟨q, hactions⟩
        · simp [hactions] at ha
        · rw [hactions, List.mem_singleton] at ha
          rw [ha]
          rfl
    | url hactions =>
        rw [hactions, List.mem_singleton] at ha
        rw [ha]
        rfl
  cases hplace : p.place with
  | start => exact hline (.inl hplace)
  | line => exact hline (.inr hplace)
  | head => exact (@reads_done p ch [] (.inl hplace) hnext).1
  | element k =>
      have hk : k ≠ .url := fun hk => hp (hk ▸ hplace)
      exact (@reads_done p ch [] (.inr ⟨k, hk, hplace⟩) hnext).1

/-- A URL begins with the byte that leads into it. -/
theorem markRead_begins (hfits : Fits p marked) (hp : p.place ≠ .element .url)
    (hnext : (byteMachine.step p ch).next = .more) :
    MarkRead (byteMachine.step p ch).state
      (Pieces.extend ch (Pieces.acts ch marked (byteMachine.step p ch).actions).1) := by
  intro text hmarked
  have hplace : (byteMachine.step p ch).state.place = .element .url :=
    element_eq_some.mp ((byteMachine_fits hfits hnext).element hmarked)
  have hne : (onByte (p, none) ch).next ≠ .error := by
    intro herror
    cases hnext.symm.trans herror
  change (onByte (p, none) ch).state.1.place = .element .url at hplace
  cases (onByte_moves hne).1 with
  | url hline hactions =>
      have hnone : marked = none := marked_eq_none hfits (by simp [hline])
      have hacts : (byteMachine.step p ch).actions = [.mark .url] := hactions
      subst hnone
      rw [hacts] at hmarked
      cases hmarked
      exact onByte_line hline hne hactions
  | inside k hk hp' hactions hmore hplace' =>
      rw [hplace] at hplace'
      cases hplace'
      exact absurd hp' hp
  | blank hp' hactions hmore hplace' => cases hplace.symm.trans hplace'
  | messageBegin q hp' hactions hmore hplace' => cases hplace.symm.trans hplace'
  | line hp' hactions hmore hplace' => cases hplace.symm.trans hplace'
  | behind k hk q hp' hactions hmore hplace' => cases hplace.symm.trans hplace'
  | body hp' hactions hmore hplace' => cases hplace.symm.trans hplace'
  | bodyEnd q q' hp' hactions hfinal hplace' => cases hplace.symm.trans hplace'
  | chunkEnd q hp' hactions hmore hfinal hplace' => cases hplace.symm.trans hplace'
  | head hp' h => exact absurd hplace h.place_ne_url
  | emptyValue q o' hp' ho h =>
      rw [ho] at hplace
      exact absurd hplace h.place_ne_url

/-- A byte reports a URL that has been read, and keeps a mark of one. -/
theorem url_read (hfits : Fits p marked) (hread : MarkRead p marked)
    (hnext : (byteMachine.step p ch).next ≠ .error) :
    (∀ q text, .data .url q text ∈ (Pieces.acts ch marked (byteMachine.step p ch).actions).2 →
      ∃ s, UrlRead s text) ∧
    ((byteMachine.step p ch).next = .more → MarkRead (byteMachine.step p ch).state
      (Pieces.extend ch (Pieces.acts ch marked (byteMachine.step p ch).actions).1)) := by
  by_cases hp : p.place = .element .url
  · have hmarked := marked_url hfits hp
    have htext := hread _ hmarked
    obtain ⟨-, hstep⟩ := reads_url hp hnext
    rw [hmarked]
    by_cases hch : endsUrl ch = true
    · rw [if_pos hch] at hstep
      obtain ⟨⟨q, hactions⟩, -⟩ := hstep
      have hacts : (byteMachine.step p ch).actions = [.data .url q] := hactions
      rw [hacts]
      refine ⟨fun q' text hmem => ?_, fun _ text heq => nomatch heq⟩
      cases List.mem_singleton.mp hmem
      exact ⟨_, htext⟩
    · rw [if_neg hch] at hstep
      have hacts : (byteMachine.step p ch).actions = [] := hstep.1
      rw [hacts]
      refine ⟨fun q' text hmem => (nomatch hmem), fun _ text heq => ?_⟩
      cases heq
      obtain ⟨hstate, hlive⟩ := onByte_url hp hnext hstep.1
      have hnew := htext.concat hlive
      rw [← hstate] at hnew
      exact hnew
  · refine ⟨fun q text hmem => ?_, markRead_begins hfits hp⟩
    have hquiet := reportsUrl_outside hp hnext
    rcases Pieces.mem_acts hmem with ⟨k, q', t, heq, hmem⟩ | ⟨n, q', heq, -⟩
    · cases heq
      rcases hmem with hmem | hmem <;> cases hquiet _ hmem
    · cases heq

end Byte

/-! ## A segment -/

section Segment

variable {p : HttpParser} {data bs : Bytes} {marked : Pieces.Marked DataCallback}

theorem scan_read (hfits : Fits p marked) (hread : MarkRead p marked)
    (hnext : (Pieces.scan byteMachine.step p marked bs).next ≠ .error) (q : HttpParser)
    (text : Bytes)
    (h : .data .url q text ∈ byteMachine.reports (Pieces.scan byteMachine.step p marked bs)) :
    ∃ s, UrlRead s text := by
  induction bs generalizing p marked with
  | nil =>
      cases marked with
      | none => cases h
      | some m =>
          obtain ⟨k, t⟩ := m
          cases List.mem_singleton.mp h
          exact ⟨_, hread _ rfl⟩
  | cons b bs ih =>
      have hb : (byteMachine.step p b).next ≠ .error := Pieces.scan_accepted hnext
      obtain ⟨hreports, hkeeps⟩ := url_read hfits hread hb
      cases hstep : (byteMachine.step p b).next with
      | error => exact absurd hstep hb
      | exit =>
          rw [Pieces.scan_exit hstep] at h
          exact hreports q text h
      | more =>
          rw [Pieces.scan_more hstep] at h hnext
          rw [Pieces.reports_cons, List.mem_append] at h
          exact h.elim (hreports q text) (ih (byteMachine_fits hfits hstep) (hkeeps hstep) hnext)

/-- What a new parser reports as a URL in an accepted segment has been read. -/
theorem urlRead_of_event (haccepts : Accepts .init data)
    (h : .data .url p bs ∈ (execute .init data).events) : ∃ s, UrlRead s bs := by
  by_cases hdata : data = []
  · subst hdata
    cases h
  · have huses := (accepts_iff rfl hdata).mp haccepts
    rw [execute_of_uses rfl hdata huses] at h
    exact scan_read (Pieces.fits_segment byteMachine_tidy .init) (fun text hmarked => nomatch hmarked)
      huses.1 p bs h

/-! ## A long URL -/

theorem onByte_counted {ch : UInt8} (hs : p.state.parsingHeader = true)
    (hlimit : p.nread < maxHeaderSize) :
    onByte (p, none) ch = dispatch { p with nread := p.nread + 1 } none ch := by
  have hnread : ¬ p.nread + 1 > maxHeaderSize := by omega
  unfold onByte
  simp only [hs, if_true, Option.isNone_none, Bool.true_and, decide_eq_true_eq]
  rw [if_neg hnread]

theorem dispatch_path (hs : p.state = .reqPath) :
    dispatch { p with nread := p.nread + 1 } none (byte 'a') =
      more { p with nread := p.nread + 1 } := by
  have hchar : parseUrlChar .reqPath (byte 'a') = .reqPath := by decide
  cases p
  cases hs
  unfold dispatch reqUrl urlChar
  dsimp only
  rw [if_neg (by decide), if_neg (by decide), hchar]
  rfl

/-- A path is read as long as the header is not too large. -/
theorem scan_path {text : Bytes} {n : Nat} (hs : p.state = .reqPath)
    (hlimit : p.nread + n ≤ maxHeaderSize) :
    Pieces.scan byteMachine.step p (some (.url, text)) (List.replicate n (byte 'a')) =
      ⟨{ p with nread := p.nread + n }, some (.url, text ++ List.replicate n (byte 'a')), [], n,
        .more⟩ := by
  induction n generalizing p text with
  | zero => simp
  | succ n ih =>
      have hstep : byteMachine.step p (byte 'a') = ⟨{ p with nread := p.nread + 1 }, [], .more⟩ := by
        have hheader : p.state.parsingHeader = true := by rw [hs]; rfl
        have hbyte := @onByte_counted p (byte 'a') hheader (by omega)
        rw [dispatch_path hs] at hbyte
        unfold byteMachine
        simp only [hbyte]
        rfl
      have hmore : (byteMachine.step p (byte 'a')).next = .more := by rw [hstep]
      have hrest := @ih { p with nread := p.nread + 1 } (text ++ [byte 'a']) hs (by dsimp only; omega)
      rw [List.replicate_succ, Pieces.scan_more hmore, hstep]
      dsimp only [Pieces.acts, Pieces.extend, Option.map_some]
      rw [hrest]
      simp [Nat.add_comm, Nat.add_left_comm]

end Segment

/-- The parser at the first letter of a path. -/
def atPath : HttpParser := (byteMachine.segment .init (bytes "GET /")).state

/-- The parser behind 2¹⁶ letters. -/
def atEnd : HttpParser := { atPath with nread := atPath.nread + 2 ^ 16 }

/-- What stands behind the URL of a request without headers. -/
def requestEnd : Bytes := bytes "HTTP/1.1\r\n\r\n"

theorem segment_atPath :
    (byteMachine.segment .init (bytes "GET /")).marked = some (.url, [byte '/']) ∧
      (byteMachine.segment .init (bytes "GET /")).count = 5 ∧
      (byteMachine.segment .init (bytes "GET /")).next = .more := by decide +kernel

theorem atEnd_space :
    atEnd.place = .element .url ∧ (byteMachine.step atEnd (byte ' ')).next = .more := by
  decide +kernel

theorem scan_requestEnd :
    (Pieces.scan byteMachine.step (byteMachine.step atEnd (byte ' ')).state none
        requestEnd).next ≠ .error ∧
      (Pieces.scan byteMachine.step (byteMachine.step atEnd (byte ' ')).state none
        requestEnd).count = requestEnd.length := by
  decide +kernel

section LongUrl

variable {letters : Bytes}
  (hletters : Pieces.scan byteMachine.step atPath (some (.url, [byte '/'])) letters =
    ⟨atEnd, some (.url, byte '/' :: letters), [], letters.length, .more⟩)

include hletters

/-- The URL is reported with the blank behind it. -/
theorem scan_longUrl :
    let r := Pieces.scan byteMachine.step atPath (some (.url, [byte '/']))
      (letters ++ byte ' ' :: requestEnd)
    r.next ≠ .error ∧ r.count = letters.length + (requestEnd.length + 1) ∧
      ∃ q, .data .url q (byte '/' :: letters) ∈ r.events := by
  obtain ⟨hplace, hspace⟩ := atEnd_space
  have haccepted : (byteMachine.step atEnd (byte ' ')).next ≠ .error := by simp [hspace]
  obtain ⟨-, hstep⟩ := reads_url hplace haccepted
  rw [if_pos (by decide)] at hstep
  obtain ⟨⟨q, hactions⟩, -⟩ := hstep
  have hacts : (byteMachine.step atEnd (byte ' ')).actions = [.data .url q] := hactions
  obtain ⟨hnext, hend⟩ := scan_requestEnd
  have hmore : (Pieces.scan byteMachine.step atPath (some (.url, [byte '/'])) letters).next =
      .more := by rw [hletters]
  rw [Pieces.scan_append hmore, hletters]
  dsimp only
  rw [Pieces.scan_more hspace, hacts]
  refine ⟨hnext, ?_, q, List.mem_cons_self⟩
  exact congrArg (fun n => letters.length + (n + 1)) hend

/-- The parser accepts the request, and reports the URL in one piece. -/
theorem accepts_longUrl :
    let w := bytes "GET /" ++ (letters ++ byte ' ' :: requestEnd)
    Accepts .init w ∧ ∃ q, .data .url q (byte '/' :: letters) ∈ (execute .init w).events := by
  dsimp only
  have hne : bytes "GET /" ++ (letters ++ byte ' ' :: requestEnd) ≠ [] :=
    List.append_ne_nil_of_left_ne_nil (by decide) _
  obtain ⟨hmarked, hcount, hmore⟩ := segment_atPath
  obtain ⟨hnext, hrest, q, hevent⟩ := scan_longUrl hletters
  have hsegment : byteMachine.segment .init (bytes "GET /" ++ (letters ++ byte ' ' :: requestEnd)) =
      let r := byteMachine.segment .init (bytes "GET /")
      let rest := Pieces.scan byteMachine.step r.state r.marked
        (letters ++ byte ' ' :: requestEnd)
      { rest with events := r.events ++ rest.events, count := r.count + rest.count } :=
    Pieces.scan_append hmore
  have hstate : (byteMachine.segment .init (bytes "GET /")).state = atPath := rfl
  dsimp only at hsegment
  rw [hmarked, hcount, hstate] at hsegment
  have huses : byteMachine.Uses .init (bytes "GET /" ++ (letters ++ byte ' ' :: requestEnd)) := by
    unfold Pieces.Machine.Uses
    rw [hsegment]
    refine ⟨hnext, ?_⟩
    have hstart : (bytes "GET /").length = 5 := by decide
    simp only [List.length_append, List.length_cons, hstart]
    exact congrArg (5 + ·) hrest
  refine ⟨(accepts_iff rfl hne).mpr huses, q, ?_⟩
  rw [execute_of_uses rfl hne huses, hsegment]
  exact Pieces.mem_reports (List.mem_append_right _ hevent)

end LongUrl

theorem scan_letters {n : Nat} (hn : n = 2 ^ 16) :
    Pieces.scan byteMachine.step atPath (some (.url, [byte '/'])) (List.replicate n (byte 'a')) =
      ⟨atEnd, some (.url, byte '/' :: List.replicate n (byte 'a')), [],
        (List.replicate n (byte 'a')).length, .more⟩ := by
  have hstate : atPath.state = .reqPath := by decide +kernel
  have hlimit : atPath.nread + 2 ^ 16 ≤ maxHeaderSize := by decide +kernel
  rw [List.length_replicate, scan_path hstate (hn ▸ hlimit)]
  unfold atEnd
  rw [hn]
  rfl

end HttpParser

end QGServer
