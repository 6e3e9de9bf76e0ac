-- SUMMARY: Whole messages, one after another and in any segments: the parser tells what the client has written.
import QGServer.HttpParser.ReadLines
import QGServer.HttpParser.Requests

/-!
# Round trip

`executeAll_text`: the text of messages is read back. However it is cut into
segments, the parser uses all of it up and tells each message's method, target,
headers and body, in the order in which they were written.
-/

namespace QGServer

namespace Framing

def isLength : Framing → Bool
  | length _ => true
  | chunked => false

/-- The length that is known behind the line, if it was `n` before. -/
def lengthAfter (n : Nat) : Framing → Nat
  | length m => m
  | chunked => n

end Framing

namespace HttpParser

open Pieces (Reads Tells Late)

/-- What is told when a message has ended. -/
abbrev messageEnd : Report := .notice (.messageComplete, none)

section Framing

variable {p q : HttpParser} {k : Known} {ls : List HeaderLine}

/-! ## What a head says about the body -/

/-- What the parser knows behind lines. -/
theorem foldl_tell (ls : List HeaderLine) (k : Known) :
    ls.foldl Known.tell k = { k with
      flags := { k.flags with
        connectionKeepAlive := k.flags.connectionKeepAlive || HeaderLine.keepAlive ∈ ls
        connectionClose := k.flags.connectionClose || HeaderLine.close ∈ ls
        chunked := k.flags.chunked || Framing.chunked ∈ ls.filterMap HeaderLine.framing
        transferEncoding :=
          k.flags.transferEncoding || Framing.chunked ∈ ls.filterMap HeaderLine.framing
        contentLength := k.flags.contentLength ||
          (ls.filterMap HeaderLine.framing).any Framing.isLength }
      contentLength := (ls.filterMap HeaderLine.framing).foldl Framing.lengthAfter k.contentLength } := by
  induction ls generalizing k with
  | nil => simp
  | cons l ls ih =>
      rw [List.foldl_cons, ih]
      cases l <;>
        simp [Known.tell, List.filterMap_cons, HeaderLine.framing, Framing.isLength,
          Framing.lengthAfter]

/-- Without a length, every line fits. -/
theorem fitsAll_of_notMem (h : ∀ n, .length n ∉ ls.filterMap HeaderLine.framing) (k : Known) :
    FitsAll k ls := by
  induction ls generalizing k with
  | nil => trivial
  | cons l ls ih =>
      cases l with
      | contentLength n => exact absurd List.mem_cons_self (h n)
      | _ => exact ⟨trivial, ih (fun n hn => h n (by simp_all [HeaderLine.framing])) _⟩

/-- One length fits if there was none before. -/
theorem fitsAll_length {n : Nat} (hn : n < bodyLimit)
    (h : ls.filterMap HeaderLine.framing = [.length n]) (hk : k.flags.contentLength = false) :
    FitsAll k ls := by
  induction ls generalizing k with
  | nil => trivial
  | cons l ls ih =>
      cases l with
      | contentLength m =>
          obtain ⟨hm, hrest⟩ := List.cons.inj h
          cases hm
          exact ⟨⟨hk, hn⟩, fitsAll_of_notMem (fun i => by rw [hrest]; simp) _⟩
      | chunked => cases (List.cons.inj h).1
      | _ => exact ⟨trivial, ih h hk⟩

theorem fitsAll_body {b : MessageBody} (h : ls.filterMap HeaderLine.framing = b.framing)
    (hb : b.Proper) (hk : k.flags.contentLength = false) : FitsAll k ls := by
  cases b with
  | empty => exact fitsAll_of_notMem (fun n => by rw [h]; simp [MessageBody.framing]) k
  | sized content => exact fitsAll_length hb h hk
  | chunks cs trailers => exact fitsAll_of_notMem (fun n => by rw [h]; simp [MessageBody.framing]) k

/-! ## The end of a head -/

/-- `http_should_keep_alive`, on what the parser knows. -/
def Known.keepAlive (k : Known) : Bool :=
  if k.httpMajor > 0 && k.httpMinor > 0 then !k.flags.connectionClose
  else k.flags.connectionKeepAlive

/-- The state behind a message. -/
def Known.next (k : Known) : ParserState := if k.keepAlive then .startReq else .dead

def Known.head (k : Known) : Head := ⟨k.method, k.httpMajor, k.httpMinor, k.keepAlive⟩

theorem newMessage_known (hk : p.known = k) : newMessage p = k.next := by
  rw [← hk]
  rfl

theorem report_headersComplete (hk : p.known = k) :
    report (.notify .headersComplete p) = .notice (.headersComplete, some k.head) := by
  rw [← hk]
  rfl

/-- The parser at the last byte of a head, which is not the head of trailers. -/
theorem headersAlmostDone_eq (htrailing : p.flags.trailing = false) (hupgrade : p.flags.upgrade = false)
    (hm : p.method ≠ .connect)
    (hboth : ¬ (p.flags.transferEncoding && p.flags.contentLength) = true) :
    headersAlmostDone p LF =
      let q : HttpParser := { p with state := .headersDone, upgrade := false }
      before (.notify .headersComplete q) (headersDone q LF) := by
  have hconnect : (if p.flags.upgrade && p.flags.connectionUpgrade then true
      else decide (p.method = .connect)) = false := by
    rw [hupgrade]
    exact decide_eq_false hm
  unfold headersAlmostDone
  rw [if_neg (by decide), htrailing, if_neg (by decide), if_neg hboth]
  dsimp only
  rw [hconnect]

/-- Where the parser is behind a head, or behind a message without trailers. -/
structure Behind (s : ParserState) (k : Known) (p : HttpParser) : Prop where
  state : p.state = s
  known : p.known = k
  nread : p.nread = 0
  upgrade : p.upgrade = false

/-- The head can be followed by HTTP, and its length is not in doubt. -/
structure EndsHead (k : Known) : Prop where
  trailing : k.flags.trailing = false
  upgrade : k.flags.upgrade = false
  method : k.method ≠ .connect
  framing : ¬ (k.flags.transferEncoding && k.flags.contentLength) = true

theorem AtLine.messageEnd_notMem {rs : List Report} (h : AtLine p k rs) : messageEnd ∉ rs := by
  cases h <;> simp [messageEnd]

/-- The line end behind the lines: the last line tells the rest of what it has to tell, and
    then `headersAlmostDone` decides. -/
theorem AtLine.tells_lineEnd {rs : List Report} (h : AtLine p k rs) (hn : p.nread + 2 ≤ maxHeaderSize) :
    ∃ q, Tells byteMachine.step report p [CR] rs q ∧ Late byteMachine.step report messageEnd p [CR, LF] ∧
      q.known = k ∧ q.nread = p.nread + 1 ∧
      byteMachine.step q LF = ⟨(headersAlmostDone q.count LF).state.1,
        (headersAlmostDone q.count LF).actions, (headersAlmostDone q.count LF).next⟩ := by
  obtain ⟨q, hcr, hs, hknown, hread⟩ := h.tells_cr (by omega)
  have hdispatch : dispatch q.count none LF = headersAlmostDone q.count LF := by
    have hstate : q.count.state = .headersAlmostDone := hs
    unfold dispatch
    rw [hstate]
  have hstep : byteMachine.step q LF = _ := step_head (by rw [hs]; rfl) (by omega)
  rw [hdispatch] at hstep
  have hlate : Late byteMachine.step report messageEnd p [CR, LF] := by
    obtain ⟨es, hreads, hes⟩ := hcr
    exact .of_reads hreads (by rw [hes]; exact h.messageEnd_notMem) LF
  exact ⟨q, hcr, hlate, hknown, hread, hstep⟩

/-- The line end behind the lines, from what the parser does when the headers are done. -/
theorem tells_headEnd {rs : List Report} {s : ParserState} (extra : List Notice) (h : AtLine p k rs)
    (hk : EndsHead k)
    (hdone : ∀ q : HttpParser, q.known = { k with upgrade := false } → ∃ ns q',
      headersDone q LF = ⟨(q', none), notices ns, .more⟩ ∧ Behind s { k with upgrade := false } q' ∧
        (ns.map fun n => noticeOf n.1 n.2) = extra)
    (hn : p.nread + 2 ≤ maxHeaderSize) :
    ∃ q, Tells byteMachine.step report p [CR, LF]
        (rs ++ .notice (.headersComplete, some k.head) :: extra.map .notice) q ∧
      Late byteMachine.step report messageEnd p [CR, LF] ∧
      Behind s { k with upgrade := false } q := by
  obtain ⟨q, hcr, hlate, hknown, hread, hdecides⟩ := h.tells_lineEnd hn
  let q₁ : HttpParser := { q.count with state := .headersDone, upgrade := false }
  have hknown₁ : q₁.known = { k with upgrade := false } := by
    rw [← hknown]
    rfl
  obtain ⟨ns, q', hdone, hbehind, hextra⟩ := hdone q₁ hknown₁
  have hflags : q.flags = k.flags := congrArg Known.flags hknown
  have hlf : Tells byteMachine.step report q [LF]
      (.notice (.headersComplete, some k.head) :: extra.map .notice) q' := by
    have hstep : byteMachine.step q LF = ⟨q', notices ((.headersComplete, q₁) :: ns), .more⟩ := by
      have hmethod : q.method = k.method := congrArg Known.method hknown
      have heq := headersAlmostDone_eq (p := q.count) (hflags ▸ hk.trailing) (hflags ▸ hk.upgrade)
        (hmethod ▸ hk.method) (hflags ▸ hk.framing)
      rw [hdecides, heq]
      dsimp only
      rw [hdone]
      rfl
    have htold := Tells.notices (f := report) _ hstep
    simp only [List.map_cons, report_headersComplete hknown₁] at htold
    rw [← hextra, List.map_map]
    exact htold
  exact ⟨q', hcr.append hlf, hlate, hbehind⟩

theorem headersDone_eq (hupgrade : p.upgrade = false) :
    headersDone p LF =
      let q : HttpParser := { p with nread := 0 }
      let complete : HttpParser := { q with state := newMessage q }
      if q.flags.chunked then goto .chunkSizeStart q
      else if q.flags.transferEncoding then fail .invalidTransferEncoding q
      else if q.contentLength = 0 then callbackNotify .messageComplete complete
      else if q.contentLength ≠ ullongMax then goto .bodyIdentity q
      else callbackNotify .messageComplete complete := by
  unfold headersDone
  rw [if_neg (by decide)]
  dsimp only
  rw [if_neg (by simp [hupgrade])]

/-- The body comes in chunks. -/
theorem headersDone_chunked (hk : p.known = k) (hupgrade : p.upgrade = false)
    (hchunked : k.flags.chunked = true) :
    headersDone p LF = goto .chunkSizeStart { p with nread := 0 } := by
  subst hk
  rw [headersDone_eq hupgrade]
  exact if_pos hchunked

/-- The body has a length. -/
theorem headersDone_length (hk : p.known = k) (hupgrade : p.upgrade = false)
    (hchunked : k.flags.chunked = false) (hencoding : k.flags.transferEncoding = false)
    (hpos : k.contentLength ≠ 0) (hlength : k.contentLength ≠ ullongMax) :
    headersDone p LF = goto .bodyIdentity { p with nread := 0 } := by
  subst hk
  dsimp only [known] at hchunked hencoding hpos hlength
  rw [headersDone_eq hupgrade]
  dsimp only
  rw [if_neg (ne_true_of_eq_false hchunked), if_neg (ne_true_of_eq_false hencoding), if_neg hpos,
    if_pos hlength]

/-- There is no body. -/
theorem headersDone_empty (hk : p.known = k) (hupgrade : p.upgrade = false)
    (hchunked : k.flags.chunked = false) (hencoding : k.flags.transferEncoding = false)
    (hlength : k.contentLength = 0 ∨ k.contentLength = ullongMax) :
    headersDone p LF =
      callbackNotify .messageComplete { p with nread := 0, state := k.next } := by
  have hnext := newMessage_known (p := { p with nread := 0 }) hk
  subst hk
  dsimp only [known] at hchunked hencoding hlength
  rw [headersDone_eq hupgrade, ← hnext]
  dsimp only
  rw [if_neg (ne_true_of_eq_false hchunked), if_neg (ne_true_of_eq_false hencoding)]
  rcases hlength with hlength | hlength
  · rw [if_pos hlength]
  · have hpos : ¬ p.contentLength = 0 := by
      rw [hlength]
      decide
    rw [if_neg hpos, if_neg (not_not.mpr hlength)]

/-! ## A body with a length -/

/-- What a byte of the body does that is not the last one. -/
def bodyByte (p : HttpParser) (_ : UInt8) : HttpParser :=
  { p with contentLength := p.contentLength - 1 }

theorem foldl_bodyByte (bs : Bytes) (p : HttpParser) :
    bs.foldl bodyByte p = { p with contentLength := p.contentLength - bs.length } := by
  induction bs generalizing p with
  | nil => rfl
  | cons b bs ih =>
      rw [List.foldl_cons, ih, List.length_cons, Nat.add_comm, Nat.sub_add_eq]
      rfl

theorem messageDone_known (hk : p.known = k) (hupgrade : p.upgrade = false) :
    messageDone p =
      ⟨({ p with state := k.next }, none), [.notify .messageComplete { p with state := k.next }], .more⟩ := by
  rw [← newMessage_known hk]
  unfold messageDone
  dsimp only
  rw [hupgrade]
  rfl

theorem tells_sized {content : Bytes} (h : Behind .bodyIdentity k p) (hne : content ≠ [])
    (hlength : k.contentLength = content.length) :
    ∃ q, Tells byteMachine.step report p content
        [.data .body content, .notice (.messageComplete, none)] q ∧
      Late byteMachine.step report messageEnd p content ∧
      Behind k.next { k with contentLength := 0 } q := by
  obtain ⟨xs, b, rfl⟩ : ∃ xs b, content = xs ++ [b] := by
    rcases List.eq_nil_or_concat content with hnil | ⟨xs, b, hcontent⟩
    · exact absurd hnil hne
    · exact ⟨xs, b, by rw [hcontent, List.concat_eq_append]⟩
  have hcontent : p.contentLength = xs.length + 1 := by
    rw [show p.contentLength = k.contentLength from congrArg Known.contentLength h.known, hlength]
    simp
  -- all bytes but the last one
  let p₁ : HttpParser := { p with contentLength := 1 }
  let mark : Pieces.Marked DataCallback := if xs = [] then none else some (.body, xs)
  have hfirst : Reads byteMachine.step p none xs [] p₁ mark := by
    have hfold : xs.foldl bodyByte p = p₁ := by
      rw [foldl_bodyByte, hcontent, Nat.add_sub_cancel_left]
    by_cases hxs : xs = []
    · subst hxs
      rw [show mark = none from if_pos rfl, ← hfold]
      exact .nil
    · rw [show mark = some (.body, xs) from if_neg hxs, ← hfold]
      refine Reads.marked bodyByte
        (fun bs p => p.state = .bodyIdentity ∧ p.contentLength = bs.length + 1) ?_ hxs
        ⟨h.state, hcontent⟩
      rintro p b bs ⟨hs, hlen⟩
      rw [List.length_cons] at hlen
      have hdispatch : dispatch p none b = before (.mark .body) (more (bodyByte p b)) := by
        have hpos : ¬ p.contentLength - 1 = 0 := by omega
        unfold dispatch
        rw [hs]
        unfold bodyIdentity
        dsimp only
        rw [if_neg hpos]
        rfl
      rw [step_behind (by rw [hs]; rfl), hdispatch]
      refine ⟨rfl, rfl, rfl, hs, ?_⟩
      change p.contentLength - 1 = bs.length + 1
      omega
  let q : HttpParser := { p₁ with contentLength := 0, state := .messageDone }
  have hk : q.known = { k with contentLength := 0 } := by
    rw [← h.known]
    rfl
  let q' : HttpParser := { q with state := k.next }
  have hlast : Reads byteMachine.step p₁ mark [b]
      [.data .body q (xs ++ [b]), .notify .messageComplete q'] q' none := by
    have hstep : byteMachine.step p₁ b =
        ⟨q', [.mark .body, .dataTo .body q, .notify .messageComplete q'], .more⟩ := by
      have hdispatch : dispatch p₁ none b =
          before (.mark .body) (before (.dataTo .body q) (messageDone q)) := by
        have hs : p₁.state = .bodyIdentity := h.state
        unfold dispatch
        rw [hs]
        rfl
      have hdone := messageDone_known hk h.upgrade
      rw [step_behind (by rw [show p₁.state = _ from h.state]; rfl), hdispatch, hdone]
      rfl
    have hacts : Pieces.acts b mark (byteMachine.step p₁ b).actions =
        (none, [.data .body q (xs ++ [b]), .notify .messageComplete q']) := by
      rw [hstep]
      by_cases hxs : xs = []
      · subst hxs
        rfl
      · rw [show mark = some (.body, xs) from if_neg hxs]
        rfl
    exact Reads.byte (by rw [hstep]) (by rw [hstep]) hacts
  exact ⟨q', ⟨_, hfirst.append hlast, rfl⟩, .of_reads hfirst (by simp) b, rfl, hk, h.nread, h.upgrade⟩

/-! ## Chunks -/

theorem tells_hexDigits {ds : List Nat} {n : Nat} (hs : p.state = .chunkSize)
    (hds : ∀ d ∈ ds, d < 16) (hvalue : digitsFrom 16 p.contentLength ds = n) (hlimit : n < bodyLimit)
    (hn : p.nread + ds.length ≤ maxHeaderSize) :
    Tells byteMachine.step report p (ds.map digitByte) []
      { p with contentLength := n, nread := p.nread + ds.length } := by
  induction ds generalizing p with
  | nil =>
      cases hvalue
      exact .nil
  | cons d ds ih =>
      rw [List.forall_mem_cons] at hds
      rw [List.length_cons] at hn
      obtain ⟨hhex, hcr⟩ := hex_digit hds.1
      have hle := le_digitsFrom (show 0 < 16 by decide) (p.contentLength * 16 + d) ds
      change digitsFrom 16 (p.contentLength * 16 + d) ds = n at hvalue
      let p₁ : HttpParser := { p.count with contentLength := p.contentLength * 16 + d }
      have hbyte : Tells byteMachine.step report p [digitByte d] [] p₁ := by
        refine tells_more (by rw [hs]; rfl) (by omega) ?_
        have hstate : p.count.state = .chunkSize := hs
        have hsmall : ¬ (ullongMax - 16) / 16 < p.contentLength := by
          unfold bodyLimit at hlimit
          unfold ullongMax
          omega
        unfold dispatch
        rw [hstate]
        unfold chunkSize
        rw [if_neg hcr, hhex]
        exact if_neg hsmall
      have hrest := @ih p₁ hs hds.2 hvalue (by change p.nread + 1 + _ ≤ _; omega)
      rw [List.length_cons, Nat.add_comm ds.length, ← Nat.add_assoc]
      exact hbyte.append hrest

/-- The line with the size of a chunk. After the last chunk there may be headers. -/
theorem tells_chunkSize {n : Nat} (h : Behind .chunkSizeStart k p) (hlimit : n < bodyLimit) :
    ∃ q, Tells byteMachine.step report p (numeral 16 n ++ [CR, LF]) [.notice (.chunkHeader, none)] q ∧
      Behind (if n = 0 then .headerFieldStart else .chunkData)
        { k with
          contentLength := n
          flags := if n = 0 then { k.flags with trailing := true } else k.flags } q := by
  have hlen : (numeral 16 n).length ≤ 16 := by
    unfold numeral
    rw [List.length_map]
    refine (Nat.length_toDigits_le_iff (by decide) (by decide)).mpr (hlimit.trans ?_)
    decide
  obtain ⟨ds, htext, hne, hds, hvalue⟩ := numeral_digits (show 1 < 16 by decide) n
  rw [htext, List.length_map] at hlen
  have hmax : maxHeaderSize = 81920 := rfl
  have hread := h.nread
  rw [htext]
  cases ds with
  | nil => exact absurd rfl hne
  | cons d ds =>
      rw [List.forall_mem_cons] at hds
      rw [List.length_cons] at hlen
      obtain ⟨hhex, -⟩ := hex_digit hds.1
      let p₁ : HttpParser := { p.count with contentLength := d, state := .chunkSize }
      have hfirst : Tells byteMachine.step report p [digitByte d] [] p₁ := by
        refine tells_more (by rw [h.state]; rfl) (by omega) ?_
        have hstate : p.count.state = .chunkSizeStart := h.state
        unfold dispatch
        rw [hstate]
        unfold chunkSizeStart
        rw [hhex]
      have hdigits := tells_hexDigits (p := p₁) (n := n) rfl hds.2 (by simpa [digitsFrom] using hvalue)
        hlimit (by change p.nread + 1 + _ ≤ _; omega)
      let p₂ : HttpParser := { p₁ with contentLength := n, nread := p₁.nread + ds.length }
      let p₃ : HttpParser := { p₂.count with state := .chunkSizeAlmostDone }
      have hcr : Tells byteMachine.step report p₂ [CR] [] p₃ :=
        tells_more rfl (by change p.nread + 1 + _ < _; omega) rfl
      let q : HttpParser :=
        if n = 0 then
          { p₃.count with
            nread := 0, flags := { p.flags with trailing := true }, state := .headerFieldStart }
        else { p₃.count with nread := 0, state := .chunkData }
      have hlf : Tells byteMachine.step report p₃ [LF] [.notice (noticeOf .chunkHeader q)] q :=
        tells_notify rfl (by change p.nread + 1 + _ + 1 < _; omega) rfl
      refine ⟨q, (hfirst.append hdigits).append (hcr.append hlf), ?_⟩
      have hk := h.known
      subst hk
      by_cases hzero : n = 0
      · simp only [q, if_pos hzero]
        exact ⟨rfl, rfl, rfl, h.upgrade⟩
      · simp only [q, if_neg hzero]
        exact ⟨rfl, rfl, rfl, h.upgrade⟩

/-- What a byte of a chunk does. -/
def chunkByte (p : HttpParser) (_ : UInt8) : HttpParser :=
  let p := { p with contentLength := p.contentLength - 1 }
  if p.contentLength = 0 then { p with state := .chunkDataAlmostDone } else p

theorem chunkByte_eq (hs : p.state = .chunkData) (b : UInt8) :
    dispatch p none b = before (.mark .body) (more (chunkByte p b)) := by
  unfold dispatch
  rw [hs]
  unfold chunkData chunkByte
  dsimp only
  split <;> rfl

theorem foldl_chunkByte {bs : Bytes} (hne : bs ≠ []) (hlength : p.contentLength = bs.length) :
    bs.foldl chunkByte p = { p with contentLength := 0, state := .chunkDataAlmostDone } := by
  induction bs generalizing p with
  | nil => exact absurd rfl hne
  | cons b bs ih =>
      rw [List.length_cons] at hlength
      rw [List.foldl_cons]
      by_cases hbs : bs = []
      · subst hbs
        have hzero : p.contentLength - 1 = 0 := by
          rw [hlength]
          rfl
        unfold chunkByte
        rw [List.foldl_nil, hzero]
        rfl
      · have hpos : 0 < bs.length := List.length_pos_iff.mpr hbs
        have hmore : chunkByte p b = { p with contentLength := p.contentLength - 1 } := by
          unfold chunkByte
          exact if_neg (by dsimp only; omega)
        rw [ih hbs (by rw [hmore]; dsimp only; omega), hmore]

theorem tells_chunkData {chunk : Bytes} (h : Behind .chunkData k p) (hne : chunk ≠ [])
    (hlength : k.contentLength = chunk.length) :
    ∃ q, Tells byteMachine.step report p (chunk ++ [CR, LF])
        [.data .body chunk, .notice (.chunkComplete, none)] q ∧
      Behind .chunkSizeStart { k with contentLength := 0 } q := by
  have hcontent : p.contentLength = chunk.length := by
    rw [← hlength, ← h.known]
    rfl
  let p₁ : HttpParser := { p with contentLength := 0, state := .chunkDataAlmostDone }
  have hdata : Reads byteMachine.step p none chunk [] p₁ (some (.body, chunk)) := by
    rw [show p₁ = chunk.foldl chunkByte p from (foldl_chunkByte hne hcontent).symm]
    refine Reads.marked chunkByte
      (fun bs p => bs ≠ [] → p.state = .chunkData ∧ p.contentLength = bs.length) ?_ hne
      fun _ => ⟨h.state, hcontent⟩
    intro p b bs hinv
    obtain ⟨hs, hlen⟩ := hinv (List.cons_ne_nil _ _)
    rw [step_behind (by rw [hs]; rfl), chunkByte_eq hs]
    refine ⟨rfl, rfl, rfl, fun hbs => ?_⟩
    have hpos : 0 < bs.length := List.length_pos_iff.mpr hbs
    rw [List.length_cons] at hlen
    unfold chunkByte
    rw [if_neg (by dsimp only; omega)]
    exact ⟨hs, by dsimp only; omega⟩
  let p₂ : HttpParser := { p₁ with state := .chunkDataDone }
  have hcr : Reads byteMachine.step p₁ (some (.body, chunk)) [CR] [.data .body p₂ chunk] p₂ none := by
    have hstep : byteMachine.step p₁ CR = ⟨p₂, [.data .body p₂], .more⟩ := by
      rw [step_behind (p := p₁) rfl]
      rfl
    have hacts : Pieces.acts CR (some (.body, chunk)) (byteMachine.step p₁ CR).actions =
        (none, [.data .body p₂ chunk]) := by
      rw [hstep]
      rfl
    exact Reads.byte (by rw [hstep]) (by rw [hstep]) hacts
  let q : HttpParser := { p₂ with nread := 0, state := .chunkSizeStart }
  have hlf : Tells byteMachine.step report p₂ [LF] [.notice (.chunkComplete, none)] q := by
    refine Tells.notices [(NotifyCallback.chunkComplete, q)] ?_
    rw [step_behind (p := p₂) rfl]
    rfl
  have htold : Tells byteMachine.step report p (chunk ++ [CR]) [.data .body chunk] p₂ :=
    ⟨_, hdata.append hcr, rfl⟩
  have happend := htold.append hlf
  rw [List.append_assoc] at happend
  refine ⟨q, happend, rfl, ?_, rfl, h.upgrade⟩
  rw [← h.known]
  rfl

theorem tells_chunk {chunk : Bytes} {n : Nat}
    (h : Behind .chunkSizeStart { k with contentLength := n } p) (hne : chunk ≠ [])
    (hlimit : chunk.length < bodyLimit) :
    ∃ q, Tells byteMachine.step report p (chunkText chunk) (chunkReports chunk) q ∧
      Behind .chunkSizeStart { k with contentLength := 0 } q := by
  have hpos : ¬ chunk.length = 0 := fun hzero => hne (List.length_eq_zero_iff.mp hzero)
  obtain ⟨q, hsize, hbehind⟩ := tells_chunkSize h hlimit
  simp only [if_neg hpos] at hbehind
  obtain ⟨q', hdata, hbehind'⟩ := tells_chunkData hbehind hne rfl
  have happend := hsize.append hdata
  refine ⟨q', ?_, hbehind'⟩
  unfold chunkText
  rw [List.append_assoc (numeral 16 chunk.length ++ [CR, LF])]
  exact happend

/-! ### Trailers -/

theorem tells_trailerEnd {rs : List Report} (h : AtLine p k rs) (htrailing : k.flags.trailing = true)
    (hupgrade : k.upgrade = false) (hn : p.nread + 2 ≤ maxHeaderSize) :
    ∃ q, Tells byteMachine.step report p [CR, LF]
        (rs ++ [.notice (.chunkComplete, none), .notice (.messageComplete, none)]) q ∧
      Late byteMachine.step report messageEnd p [CR, LF] ∧
      q.state = k.next ∧ q.nread = p.nread + 2 := by
  obtain ⟨q, hcr, hlate, hk, hread, hdecides⟩ := h.tells_lineEnd hn
  let q₁ : HttpParser := { q.count with state := .messageDone }
  let q₂ : HttpParser := { q₁ with state := k.next }
  have hlf : Tells byteMachine.step report q [LF]
      [.notice (.chunkComplete, none), .notice (.messageComplete, none)] q₂ := by
    refine Tells.notices [(NotifyCallback.chunkComplete, q₁), (NotifyCallback.messageComplete, q₂)] ?_
    have hflags : q.count.flags.trailing = true := by
      rw [← htrailing, ← hk]
      rfl
    have hdone : messageDone q₁ = _ :=
      messageDone_known hk ((congrArg Known.upgrade hk).trans hupgrade)
    rw [hdecides]
    unfold headersAlmostDone
    rw [if_neg (by decide), if_pos hflags]
    dsimp only
    rw [hdone]
    rfl
  refine ⟨q₂, hcr.append hlf, hlate, rfl, ?_⟩
  change q.nread + 1 = _
  omega

theorem messageEnd_notMem_lines (ls : List HeaderLine) :
    messageEnd ∉ ls.flatMap HeaderLine.reports := by
  simp [HeaderLine.reports]

theorem messageEnd_notMem_chunks (cs : List Bytes) : messageEnd ∉ cs.flatMap chunkReports := by
  simp [chunkReports]

/-- Lines between what comes first and what ends them: what the last line has still to tell
    is told with the end. -/
theorem tells_lines_between {q₁ q₂ q₃ : HttpParser} {w w' : Bytes} {first told rs rest : List Report}
    {ls : List HeaderLine} (hfirst : Tells byteMachine.step report p w first q₁)
    (hlines : Tells byteMachine.step report q₁ (ls.flatMap HeaderLine.text) told q₂)
    (htold : told ++ rs = ls.flatMap HeaderLine.reports)
    (hend : Tells byteMachine.step report q₂ w' (rs ++ rest) q₃) (hnotMem : messageEnd ∉ first)
    (hlate : Late byteMachine.step report messageEnd q₂ w') :
    Tells byteMachine.step report p (w ++ ls.flatMap HeaderLine.text ++ w')
        (first ++ ls.flatMap HeaderLine.reports ++ rest) q₃ ∧
      Late byteMachine.step report messageEnd p (w ++ ls.flatMap HeaderLine.text ++ w') := by
  have hall := (hfirst.append hlines).append hend
  rw [← List.append_assoc _ rs, List.append_assoc _ told rs, htold] at hall
  refine ⟨hall, .append (hfirst.append hlines) ?_ hlate⟩
  rw [List.mem_append, not_or]
  exact ⟨hnotMem, fun hmem => messageEnd_notMem_lines ls (htold ▸ List.mem_append_left rs hmem)⟩

/-- Trailers say nothing to the parser. -/
theorem foldl_tell_fields (fields : List (Bytes × Bytes)) (k : Known) :
    (fields.map fun f => HeaderLine.field f.1 f.2).foldl Known.tell k = k := by
  induction fields with
  | nil => rfl
  | cons f fields ih =>
      rw [List.map_cons, List.foldl_cons]
      exact ih

theorem tells_chunks {cs : List Bytes} {trailers : List (Bytes × Bytes)}
    (h : Behind .chunkSizeStart k p) (hproper : (MessageBody.chunks cs trailers).Proper) :
    ∃ q, Tells byteMachine.step report p (MessageBody.chunks cs trailers).text
        ((MessageBody.chunks cs trailers).reports ++ [.notice (.messageComplete, none)]) q ∧
      Late byteMachine.step report messageEnd p (MessageBody.chunks cs trailers).text ∧
      q.state = k.next ∧ q.nread ≤ maxHeaderSize / 2 := by
  obtain ⟨hcs, htrailers, hsize⟩ := hproper
  obtain ⟨q, hchunks, n, hbehind⟩ := Tells.flatMap chunkText chunkReports
    (fun p => ∃ n, Behind .chunkSizeStart { k with contentLength := n } p)
    (fun c (hc : c ∈ cs) p ⟨n, hp⟩ => by
      obtain ⟨q, htells, hq⟩ := tells_chunk hp (hcs c hc).1 (hcs c hc).2
      exact ⟨q, htells, 0, hq⟩)
    ⟨k.contentLength, h⟩
  obtain ⟨q₁, hzero, hlast⟩ := tells_chunkSize hbehind (n := 0) (by decide)
  simp only [if_true] at hlast
  have hread := hlast.nread
  have hmax : maxHeaderSize / 2 ≤ maxHeaderSize := Nat.div_le_self _ _
  obtain ⟨q₂, told, rs, hlines, hline, htold, hread'⟩ := tells_lines
    (trailers.map fun f => HeaderLine.field f.1 f.2) (.start hlast.state hlast.known)
    (by rw [List.forall_mem_map]; exact htrailers)
    (fitsAll_of_notMem (fun n hn => by
      obtain ⟨l, hl, hframing⟩ := List.mem_filterMap.mp hn
      obtain ⟨f, -, rfl⟩ := List.mem_map.mp hl
      cases hframing) _) (by change q₁.nread + (fieldsText trailers).length ≤ _; omega)
  rw [foldl_tell_fields] at hline
  change q₂.nread = q₁.nread + (fieldsText trailers).length at hread'
  have hk : q₁.upgrade = false := hlast.upgrade
  have hupgrade : k.upgrade = false := by
    have hupgrade := congrArg Known.upgrade hlast.known
    exact hupgrade.symm.trans hk
  obtain ⟨q₃, hend, hlate, hstate, hread''⟩ := tells_trailerEnd hline rfl hupgrade (by omega)
  obtain ⟨hall, htext⟩ := tells_lines_between (hchunks.append hzero) hlines htold hend
    (by simp [messageEnd_notMem_chunks cs]) hlate
  refine ⟨q₃, ?_, htext, hstate, by omega⟩
  have hreports : ((MessageBody.chunks cs trailers).reports ++ [.notice (.messageComplete, none)] :
      List Report) = cs.flatMap chunkReports ++ [.notice (.chunkHeader, none)] ++
        (trailers.map fun f => HeaderLine.field f.1 f.2).flatMap HeaderLine.reports ++
        [.notice (.chunkComplete, none), .notice (.messageComplete, none)] :=
    List.append_assoc _ _ _
  rw [hreports]
  exact hall

end Framing

/-! ## Messages -/

section Messages

variable {p : HttpParser}

/-- What the parser knows behind the lines of a message. -/
def linesKnown (m : Message) (upgrade : Bool) : Known :=
  m.lines.foldl Known.tell ⟨m.method, m.httpMajor, m.httpMinor, .zero, ullongMax, upgrade⟩

theorem linesKnown_keepAlive (m : Message) (upgrade : Bool) :
    (linesKnown m upgrade).keepAlive = m.keepAlive := by
  unfold linesKnown
  rw [foldl_tell]
  simp [Known.keepAlive, Message.keepAlive, ParserFlags.zero]

theorem linesKnown_endsHead (m : Message) (upgrade : Bool) : EndsHead (linesKnown m upgrade) := by
  have hframing := m.framing
  unfold linesKnown
  rw [foldl_tell, hframing]
  refine ⟨rfl, rfl, m.method_ne, ?_⟩
  cases m.body <;> simp [MessageBody.framing, ParserFlags.zero, Framing.isLength]

/-- The state of the parser behind a message. -/
def Message.next (m : Message) : ParserState := if m.keepAlive then .startReq else .dead

theorem tells_body (m : Message) {upgrade : Bool} {rs : List Report}
    (h : AtLine p (linesKnown m upgrade) rs) (hn : p.nread + 2 ≤ maxHeaderSize) :
    ∃ q, Tells byteMachine.step report p ([CR, LF] ++ m.body.text)
        (rs ++ ([.notice (.headersComplete, some m.head)] ++ m.body.reports ++
          [.notice (.messageComplete, none)])) q ∧
      Late byteMachine.step report messageEnd p ([CR, LF] ++ m.body.text) ∧
      q.state = Message.next m ∧ q.nread ≤ maxHeaderSize / 2 := by
  have hends := linesKnown_endsHead m upgrade
  have hkeep := linesKnown_keepAlive m upgrade
  have hframing := m.framing
  have hknown := foldl_tell m.lines ⟨m.method, m.httpMajor, m.httpMinor, .zero, ullongMax, upgrade⟩
  change linesKnown m upgrade = _ at hknown
  rw [hframing] at hknown
  have hhead : (linesKnown m upgrade).head = m.head := by
    unfold Known.head Message.head
    rw [hkeep, hknown]
  let k : Known := { linesKnown m upgrade with upgrade := false }
  have hnext : k.next = Message.next m := by
    unfold Known.next Message.next
    rw [← hkeep]
    rfl
  have hempty : k.contentLength = 0 ∨ k.contentLength = ullongMax → k.flags.chunked = false →
      k.flags.transferEncoding = false → ∃ q, Tells byteMachine.step report p [CR, LF]
        (rs ++ [.notice (.headersComplete, some m.head), .notice (.messageComplete, none)]) q ∧
        Late byteMachine.step report messageEnd p [CR, LF] ∧
        q.state = Message.next m ∧ q.nread ≤ maxHeaderSize / 2 := by
    intro hlength hchunked hencoding
    obtain ⟨q, htells, hlate, hbehind⟩ := tells_headEnd [(.messageComplete, none)] h hends (fun q hk => by
      have hdone := headersDone_empty hk (congrArg Known.upgrade hk) hchunked hencoding hlength
      exact ⟨[(.messageComplete, _)], _, hdone, ⟨rfl, hk, rfl, congrArg Known.upgrade hk⟩, rfl⟩) hn
    rw [hhead] at htells
    exact ⟨q, htells, hlate, hbehind.state.trans hnext, by rw [hbehind.nread]; exact Nat.zero_le _⟩
  have hnotMem : messageEnd ∉ rs ++ [.notice (.headersComplete, some m.head)] := by
    simp [h.messageEnd_notMem]
  cases hbody : m.body with
  | empty =>
      rw [hbody] at hknown
      obtain ⟨q, htells, hlate, hstate, hread⟩ := hempty (.inr (by simp only [k, hknown]; rfl))
        (by simp only [k, hknown]; rfl) (by simp only [k, hknown]; rfl)
      exact ⟨q, htells, hlate, hstate, hread⟩
  | sized content =>
      have hproper := m.body_proper
      rw [hbody] at hknown hproper
      have hlength : k.contentLength = content.length := by simp only [k, hknown]; rfl
      have hchunked : k.flags.chunked = false := by simp only [k, hknown]; rfl
      have hencoding : k.flags.transferEncoding = false := by simp only [k, hknown]; rfl
      by_cases hcontent : content = []
      · obtain ⟨q, htells, hlate, hstate, hread⟩ := hempty (.inl (by rw [hlength, hcontent]; rfl))
          hchunked hencoding
        subst hcontent
        exact ⟨q, htells, hlate, hstate, hread⟩
      · have hlimit : content.length < bodyLimit := hproper
        have hpos : k.contentLength ≠ 0 := by
          rw [hlength]
          exact fun hzero => hcontent (List.length_eq_zero_iff.mp hzero)
        have hmax : k.contentLength ≠ ullongMax := by
          rw [hlength]
          exact (hlimit.trans (by decide)).ne
        obtain ⟨q, htells, -, hbehind⟩ := tells_headEnd [] h hends (fun q hk => by
          have hdone := headersDone_length hk (congrArg Known.upgrade hk) hchunked hencoding hpos hmax
          exact ⟨[], _, hdone, ⟨rfl, hk, rfl, congrArg Known.upgrade hk⟩, rfl⟩) hn
        obtain ⟨q', htells', hlate, hbehind'⟩ := tells_sized hbehind hcontent hlength
        rw [hhead] at htells
        have hall := htells.append htells'
        rw [List.append_assoc] at hall
        refine ⟨q', ?_, .append htells hnotMem hlate, hbehind'.state.trans hnext,
          by rw [hbehind'.nread]; exact Nat.zero_le _⟩
        have hreports : (MessageBody.sized content).reports = [.data .body content] := if_neg hcontent
        rw [hreports]
        exact hall
  | chunks cs trailers =>
      have hproper := m.body_proper
      rw [hbody] at hknown hproper
      have hchunked : k.flags.chunked = true := by simp only [k, hknown]; rfl
      obtain ⟨q, htells, -, hbehind⟩ := tells_headEnd [] h hends (fun q hk => by
        have hdone := headersDone_chunked hk (congrArg Known.upgrade hk) hchunked
        exact ⟨[], _, hdone, ⟨rfl, hk, rfl, congrArg Known.upgrade hk⟩, rfl⟩) hn
      obtain ⟨q', htells', hlate, hstate, hread⟩ := tells_chunks hbehind hproper
      rw [hhead] at htells
      have hall := htells.append htells'
      rw [List.append_assoc] at hall
      exact ⟨q', hall, .append htells hnotMem hlate, hstate.trans hnext, hread⟩

theorem tells_message (m : Message) (hs : p.state = .startReq) (hn : p.nread ≤ maxHeaderSize / 2) :
    ∃ q, Tells byteMachine.step report p m.text m.reports q ∧
      Late byteMachine.step report messageEnd p m.text ∧ q.state = Message.next m ∧
      q.nread ≤ maxHeaderSize / 2 := by
  have hhalf : maxHeaderSize / 2 + maxHeaderSize / 2 ≤ maxHeaderSize := by decide
  have hsize := m.head_le
  unfold headText at hsize
  rw [List.length_append, List.length_append] at hsize
  change _ + _ + 2 ≤ _ at hsize
  obtain ⟨q₁, hline, hs₁, hk₁, hread₁⟩ := tells_requestLine m.method hs m.method_ne m.target_ends
    m.httpMajor_lt m.httpMinor_lt (by omega)
  obtain ⟨q₂, told, rs, hlines, hline₂, htold, hread₂⟩ := tells_lines m.lines (.start hs₁ hk₁)
    m.lines_proper (fitsAll_body m.framing m.body_proper rfl) (by omega)
  obtain ⟨q₃, hbody, hlate, hstate, hread₃⟩ := tells_body m hline₂ (by omega)
  obtain ⟨hall, htext⟩ := tells_lines_between hline hlines htold hbody (by simp) hlate
  rw [← List.append_assoc _ [CR, LF]] at hall htext
  refine ⟨q₃, ?_, htext, hstate, hread₃⟩
  have hreports : m.reports = [.notice (.messageBegin, none), .data (.url m.method) m.target] ++
      m.lines.flatMap HeaderLine.reports ++ ([.notice (.headersComplete, some m.head)] ++
        m.body.reports ++ [.notice (.messageComplete, none)]) := by
    unfold Message.reports
    simp only [List.append_assoc]
  rw [hreports]
  exact hall

theorem finishes_eq_true_iff {es : List Event} :
    finishes es = true ↔ messageEnd ∈ es.map report := by
  unfold finishes
  rw [List.any_eq_true, List.mem_map]
  apply exists_congr
  intro e
  apply and_congr_right
  intro _
  cases e with
  | data k q text => simp [report, Pieces.Event.report]
  | notify n q => cases n <;> simp [report, Pieces.Event.report, noticeOf]

theorem finishes_eq_false {es : List Event} (h : ∀ e ∈ es, report e ≠ messageEnd) :
    finishes es = false := by
  rw [← Bool.not_eq_true, finishes_eq_true_iff, List.mem_map]
  rintro ⟨e, he, hend⟩
  exact h e he hend

/-- A text that tells the end of a message with its last byte is a complete request. -/
theorem complete_of_late {w : Bytes} {rs : List Report} {q : HttpParser}
    (htells : Tells byteMachine.step report .init w rs q)
    (hlate : Late byteMachine.step report messageEnd .init w) (hend : messageEnd ∈ rs) :
    Complete w ∧ (execute .init w).events.map report = rs := by
  obtain ⟨hne, hbefore⟩ := hlate
  obtain ⟨huses, -, hreports⟩ := Tells.uses (M := byteMachine) rfl htells
  have hevents : (execute .init w).events.map report = rs := by
    rw [execute_of_uses rfl hne huses]
    exact hreports
  refine ⟨⟨(accepts_iff rfl hne).mpr huses, ?_, ?_⟩, hevents⟩
  · rw [finishes_eq_true_iff, hevents]
    exact hend
  · intro n hn
    by_cases hzero : w.take n = []
    · rw [hzero]
      rfl
    · have hrest : w.drop n ≠ [] := by
        rw [← List.length_pos_iff, List.length_drop]
        omega
      rw [← List.take_append_drop n w] at huses
      have hmore := (byteMachine_tidy.segment_append hrest huses).1
      have huses' : byteMachine.Uses .init (w.take n) := ⟨by rw [hmore]; simp, Pieces.scan_count hmore⟩
      rw [execute_of_uses rfl hzero huses']
      dsimp only
      rw [Pieces.reports_more hmore, finishes_append, finishes_leftover, Bool.or_false]
      apply finishes_eq_false
      intro e he
      apply hbefore
      have hsplit : w.dropLast = w.take n ++ (w.drop n).dropLast := by
        rw [← List.dropLast_append_of_ne_nil hrest, List.take_append_drop]
      have hscan : (Pieces.scan byteMachine.step .init none (w.take n)).next = .more := hmore
      rw [hsplit, Pieces.scan_append hscan]
      exact List.mem_append_left _ he

/-- The text of a message is a complete request. -/
theorem complete_text (m : Message) :
    Complete m.text ∧ (execute .init m.text).events.map report = m.reports := by
  obtain ⟨q, htells, hlate, -⟩ := tells_message m (p := .init) rfl (Nat.zero_le _)
  exact complete_of_late htells hlate (by simp [Message.reports, messageEnd])

/-- Messages of which all but the last one keep the connection. -/
theorem tells_messages {ms : List Message} (hkeep : ∀ m ∈ ms.dropLast, m.keepAlive = true) :
    ∃ q, Tells byteMachine.step report .init (ms.flatMap Message.text) (ms.flatMap Message.reports) q := by
  rcases List.eq_nil_or_concat ms with rfl | ⟨ms, m, rfl⟩
  · exact ⟨.init, .nil⟩
  · rw [List.concat_eq_append] at hkeep ⊢
    rw [List.dropLast_concat] at hkeep
    obtain ⟨q, hfirst, hs, hn⟩ := Tells.flatMap Message.text Message.reports
      (fun p : HttpParser => p.state = .startReq ∧ p.nread ≤ maxHeaderSize / 2)
      (fun m hm p ⟨hs, hn⟩ => by
        obtain ⟨q, htells, -, hstate, hread⟩ := tells_message m hs hn
        refine ⟨q, htells, ?_, hread⟩
        rw [hstate, Message.next, hkeep m hm]
        rfl)
      (⟨rfl, Nat.zero_le _⟩ : HttpParser.init.state = .startReq ∧ _)
    obtain ⟨q', hlast, -⟩ := tells_message m hs hn
    refine ⟨q', ?_⟩
    rw [List.flatMap_append, List.flatMap_append, List.flatMap_singleton, List.flatMap_singleton]
    exact hfirst.append hlast

end Messages

/-! ## Nothing to join

No two reports of a message are pieces of one element. -/

section Apart

variable {r : Report} {rs : List Report} {t : Notice}

theorem chain_notice (h : rs.IsChain Pieces.Report.Apart) :
    (Pieces.Report.notice t :: rs).IsChain Pieces.Report.Apart := by
  cases rs with
  | nil => exact .singleton _
  | cons r rs => exact .cons_cons trivial h

theorem chain_before_notice (h : (Pieces.Report.notice t :: rs).IsChain Pieces.Report.Apart) :
    (r :: .notice t :: rs).IsChain Pieces.Report.Apart := by
  refine .cons_cons ?_ h
  cases r <;> trivial

theorem chain_lines (ls : List HeaderLine) (hr : ∀ text, r ≠ .data .headerField text)
    (h : (Pieces.Report.notice t :: rs).IsChain Pieces.Report.Apart) :
    (r :: (ls.flatMap HeaderLine.reports ++ .notice t :: rs)).IsChain Pieces.Report.Apart := by
  induction ls generalizing r with
  | nil => exact chain_before_notice h
  | cons l ls ih =>
      have hapart : r.Apart (.data .headerField l.name) := by
        cases r with
        | notice t => trivial
        | data d text =>
            rintro rfl
            exact hr text rfl
      have hvalue : Element.headerField ≠ Element.headerValue := by decide
      exact .cons_cons hapart (.cons_cons hvalue (ih (by simp)))

theorem chain_body (b : MessageBody) (h : rs.IsChain Pieces.Report.Apart) :
    (b.reports ++ .notice t :: rs).IsChain Pieces.Report.Apart := by
  cases b with
  | empty => exact chain_notice h
  | sized content =>
      change ((if content = [] then [] else [.data .body content]) ++ .notice t :: rs :
        List Report).IsChain Pieces.Report.Apart
      split
      · exact chain_notice h
      · exact chain_before_notice (chain_notice h)
  | chunks cs trailers =>
      have hend : ([.notice (.chunkHeader, none)] ++
          (trailers.map fun f => HeaderLine.field f.1 f.2).flatMap HeaderLine.reports ++
          [.notice (.chunkComplete, none)] ++ .notice t :: rs : List Report).IsChain
            Pieces.Report.Apart := by
        have hlines := chain_lines (r := .notice (.chunkHeader, none)) (t := (.chunkComplete, none))
          (trailers.map fun f => HeaderLine.field f.1 f.2) (by simp) (chain_notice (chain_notice (t := t) h))
        simpa using hlines
      unfold MessageBody.reports
      induction cs with
      | nil => simpa using hend
      | cons c cs ih => exact chain_notice (chain_before_notice (chain_notice ih))

theorem chain_message (m : Message) (h : rs.IsChain Pieces.Report.Apart) :
    (m.reports ++ rs).IsChain Pieces.Report.Apart := by
  have hlines := chain_lines (r := .data (.url m.method) m.target) m.lines (by simp)
    (chain_notice (t := (.headersComplete, some m.head))
      (chain_body (t := (.messageComplete, none)) m.body h))
  have hall := chain_notice (t := (.messageBegin, none)) hlines
  simpa [Message.reports] using hall

theorem chain_messages (ms : List Message) :
    (ms.flatMap Message.reports).IsChain Pieces.Report.Apart := by
  induction ms with
  | nil => exact .nil
  | cons m ms ih => exact chain_message m ih

end Apart

/-! ## Segments -/

/-- The pieces of an element show the same of its kind. -/
theorem elementOf_part {k : DataCallback} {p q : HttpParser} (h : SamePart k q p) :
    elementOf k q = elementOf k p := by
  cases k with
  | url => exact congrArg Element.url (h.1 rfl)
  | _ => rfl

/-- However the text of messages is cut into segments, the parser uses all of it
    and tells the messages, with the pieces of each element put together. -/
theorem executeAll_text {ms : List Message} {segments : List Bytes}
    (hkeep : ∀ m ∈ ms.dropLast, m.keepAlive = true) (hsegments : ∀ data ∈ segments, data ≠ [])
    (htext : segments.flatten = ms.flatMap Message.text) :
    AcceptsAll .init segments ∧
      Pieces.joined ((executeAll .init segments).2.map report) =
        ms.flatMap Message.reports := by
  obtain ⟨q, htells⟩ := tells_messages hkeep
  rw [← htext] at htells
  by_cases hne : segments = []
  · subst hne
    obtain ⟨es, hreads, hes⟩ := htells
    cases hreads
    exact ⟨trivial, hes⟩
  · have hflatten : segments.flatten ≠ [] := by
      obtain ⟨data, rest, rfl⟩ := List.exists_cons_of_ne_nil hne
      simp [hsegments data List.mem_cons_self]
    obtain ⟨huses, -, hreports⟩ := Tells.uses (M := byteMachine) rfl htells
    have haccepts := (accepts_iff rfl hflatten).mpr huses
    obtain ⟨hall, -, hsplits⟩ := execute_segments rfl hsegments hne haccepts
    refine ⟨hall, ?_⟩
    have hjoined : Pieces.joined ((executeAll .init segments).2.map report) =
        Pieces.joined ((execute .init segments.flatten).events.map report) :=
      Pieces.Splits.joined_eq noticeOf (fun hpart => elementOf_part hpart) hsplits
    rw [hjoined, execute_of_uses rfl hflatten huses, hreports]
    exact Pieces.joined_of_isChain (chain_messages ms)

/-- A request without a body, with a header whose value is empty. -/
def emptyRequest : Message where
  method := .msearch
  target := bytes "*"
  httpMajor := 1
  httpMinor := 0
  lines := [.keepAlive, .field (bytes "Mx") []]
  body := .empty
  method_ne := by decide
  target_ends := by decide
  httpMajor_lt := by decide
  httpMinor_lt := by decide
  lines_proper := by decide
  framing := rfl
  body_proper := by decide
  head_le := by decide

/-- A request with a chunk and a trailer. -/
def chunkedRequest : Message where
  method := .post
  target := bytes "/a?b"
  httpMajor := 1
  httpMinor := 1
  lines := [.field (bytes "Host") (bytes "c"), .chunked]
  body := .chunks [bytes "d"] [(bytes "E", bytes "f")]
  method_ne := by decide
  target_ends := by decide
  httpMajor_lt := by decide
  httpMinor_lt := by decide
  lines_proper := by decide
  framing := rfl
  body_proper := by decide
  head_le := by decide

/-- Two requests, cut inside a method, a header name and a chunk. -/
theorem executeAll_text_two :
    Pieces.joined ((executeAll .init [bytes "M-SEARCH * HTTP/1.0\r\nConnection: keep-alive\r\nMx: \r\n\r\nPO",
        bytes "ST /a?b HTTP/1.1\r\nHost: c\r\nTransfer-En",
        bytes "coding: chunked\r\n\r\n1\r", bytes "\nd\r\n0\r\nE: f\r\n\r\n"]).2.map
          report) = emptyRequest.reports ++ chunkedRequest.reports :=
  (@executeAll_text [emptyRequest, chunkedRequest] _ (by decide) (by decide) (by decide)).2

end HttpParser

end QGServer
