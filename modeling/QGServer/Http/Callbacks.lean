-- SUMMARY: What the callbacks of one parser call collect, exactly when one of them aborts, and what cuts of elements change.
import QGServer.HttpParser.Requests
import QGServer.Http.Server

/-!
# The callbacks

The callbacks collect the reports of the parser in the request; two of them can
abort. `callBacks_eq` says when they do, and what the request is otherwise. Of
what is collected only the parts of the URL depend on how elements are cut.
-/

namespace QGServer

namespace HTTPRequest

open HttpParser

/-! ## Collecting -/

/-- What a field of an accepted URL holds. -/
def urlText (field : UrlField) (url : Bytes) : Bytes :=
  match parseUrl url false with
  | some u => ((u field).map fun span => span.text url).getD []
  | none => []

/-- What a callback that returns leaves. -/
def collect (r : HTTPRequest) : Event → HTTPRequest
  | .data .url p buf =>
    let url := r.requestUrl ++ buf
    { r with
      method := some p.method
      requestUrl := url
      queryString := r.queryString ++ urlText .query url
      fragment := r.fragment ++ urlText .fragment url
      requestPath := r.requestPath ++ urlText .path url }
  | .data .headerField _ buf => r.headerFieldCallBack buf
  | .data .headerValue _ buf => r.headerValueCallBack buf
  | .data .body p buf => { r with body := r.body ++ buf, bodyIsFinal := p.bodyIsFinal }
  | .notify .headersComplete _ => r.headerCompleteCallBack
  | .notify .messageComplete _ => r.messageCompleteCallBack
  | .notify .messageBegin _ | .notify .chunkHeader _ | .notify .chunkComplete _ => r

/-- Every URL that is put together can be split, and no piece of a body comes
    after a final one. -/
structure Acceptable (r : HTTPRequest) (es : List Event) : Prop where
  urls : ∀ url ∈ splitUrls r.requestUrl es, (parseUrl url false).isSome = true
  bodies : ∀ final ∈ (r.bodyIsFinal :: bodyFinals es).dropLast, final = false

instance {r : HTTPRequest} {es : List Event} : Decidable (r.Acceptable es) :=
  decidable_of_iff
    ((∀ url ∈ splitUrls r.requestUrl es, (parseUrl url false).isSome = true) ∧
      ∀ final ∈ (r.bodyIsFinal :: bodyFinals es).dropLast, final = false)
    ⟨fun h => ⟨h.1, h.2⟩, fun h => ⟨h.urls, h.bodies⟩⟩

section Collect

variable {r r' : HTTPRequest} {e : Event} {es es' : List Event} {p : HttpParser} {buf : Bytes}

theorem fillURLSubStr_eq {u : HttpParserUrl} {field : UrlField}
    (hu : parseUrl r.requestUrl false = some u)
    (hfield : field = .query ∨ field = .fragment ∨ field = .path) :
    r.fillURLSubStr u field = .ok { r with
      queryString := if field = .query then r.queryString ++ urlText .query r.requestUrl
        else r.queryString
      fragment := if field = .fragment then r.fragment ++ urlText .fragment r.requestUrl
        else r.fragment
      requestPath := if field = .path then r.requestPath ++ urlText .path r.requestUrl
        else r.requestPath } := by
  have houtside : field.outsideHost = true := by
    rcases hfield with rfl | rfl | rfl <;> rfl
  cases hspan : u field with
  | none =>
      have htext : urlText field r.requestUrl = [] := by simp [urlText, hu, hspan]
      rcases hfield with rfl | rfl | rfl <;> simp [fillURLSubStr, hspan, htext]
  | some span =>
      have htext : urlText field r.requestUrl = span.text r.requestUrl := by simp [urlText, hu, hspan]
      have hoff := parseUrl_off hu houtside hspan
      rcases hfield with rfl | rfl | rfl <;>
        simp [fillURLSubStr, hspan, htext, appendSubStr, hoff, Except.map]

theorem urlCallBack_eq :
    r.urlCallBack p buf =
      if (parseUrl (r.requestUrl ++ buf) false).isSome then .ok (r.collect (.data .url p buf))
      else .error .abort := by
  unfold urlCallBack
  dsimp only
  split
  · rename_i hnone
    rw [hnone]
    rfl
  · rename_i u hu
    rw [hu]
    simp only [List.foldlM_cons, List.foldlM_nil, Option.isSome_some, if_true]
    rw [fillURLSubStr_eq hu (.inl rfl)]
    change (fillURLSubStr _ u .fragment >>= _) = _
    rw [fillURLSubStr_eq hu (.inr (.inl rfl))]
    change (fillURLSubStr _ u .path >>= _) = _
    rw [fillURLSubStr_eq hu (.inr (.inr rfl))]
    rfl

theorem acceptable_iff :
    r.Acceptable es ↔ (∀ url ∈ splitUrls r.requestUrl es, (parseUrl url false).isSome = true) ∧
      ∀ final ∈ (r.bodyIsFinal :: bodyFinals es).dropLast, final = false :=
  ⟨fun h => ⟨h.urls, h.bodies⟩, fun h => ⟨h.1, h.2⟩⟩

theorem acceptable_nil : r.Acceptable [] := ⟨by simp [splitUrls], by simp [bodyFinals]⟩

theorem acceptable_url :
    r.Acceptable (.data .url p buf :: es) ↔
      (parseUrl (r.requestUrl ++ buf) false).isSome = true ∧
        (r.collect (.data .url p buf)).Acceptable es := by
  rw [acceptable_iff, acceptable_iff]
  simp [splitUrls, bodyFinals, collect, and_assoc]

theorem acceptable_body :
    r.Acceptable (.data .body p buf :: es) ↔
      r.bodyIsFinal = false ∧ (r.collect (.data .body p buf)).Acceptable es := by
  rw [acceptable_iff, acceptable_iff]
  simp [splitUrls, bodyFinals, collect, and_left_comm]

/-- The other callbacks return, whatever the request is. -/
inductive Quiet : Event → Prop where
  | headerField (p : HttpParser) (buf : Bytes) : Quiet (.data .headerField p buf)
  | headerValue (p : HttpParser) (buf : Bytes) : Quiet (.data .headerValue p buf)
  | notify (n : NotifyCallback) (p : HttpParser) : Quiet (.notify n p)

theorem headerCompleteCallBack_frame :
    r.headerCompleteCallBack.requestUrl = r.requestUrl ∧
      r.headerCompleteCallBack.bodyIsFinal = r.bodyIsFinal := by
  unfold headerCompleteCallBack
  split <;> exact ⟨rfl, rfl⟩

theorem collect_quiet (he : Quiet e) :
    (r.collect e).requestUrl = r.requestUrl ∧ (r.collect e).bodyIsFinal = r.bodyIsFinal := by
  cases he with
  | headerField p buf =>
      unfold collect headerFieldCallBack
      dsimp only
      split <;> exact ⟨rfl, rfl⟩
  | headerValue p buf => exact ⟨rfl, rfl⟩
  | notify n p =>
      cases n with
      | headersComplete => exact headerCompleteCallBack_frame
      | messageComplete => exact headerCompleteCallBack_frame (r := r)
      | _ => exact ⟨rfl, rfl⟩

theorem acceptable_quiet (he : Quiet e) : r.Acceptable (e :: es) ↔ (r.collect e).Acceptable es := by
  obtain ⟨hurl, hfinal⟩ := collect_quiet (r := r) he
  rw [acceptable_iff, acceptable_iff, hurl, hfinal]
  cases he <;> exact Iff.rfl

theorem callBack_quiet (he : Quiet e) : r.callBack e = .ok (r.collect e) := by
  cases he with
  | notify n p => cases n <;> rfl
  | _ => rfl

/-- The callbacks of a call of the parser abort unless what it reports is
    acceptable, and collect it otherwise. -/
theorem callBacks_eq :
    r.callBacks es = if r.Acceptable es then .ok (es.foldl collect r) else .error .abort := by
  induction es generalizing r with
  | nil => exact (if_pos acceptable_nil).symm
  | cons e es ih =>
      have hstep : r.callBacks (e :: es) = r.callBack e >>= fun r' => r'.callBacks es := rfl
      have hquiet : ∀ {e : Event}, Quiet e → (r.callBack e >>= fun r' => r'.callBacks es) =
          if r.Acceptable (e :: es) then .ok (es.foldl collect (r.collect e))
          else .error .abort := by
        intro e he
        rw [callBack_quiet he, if_congr (acceptable_quiet he) rfl rfl]
        exact ih
      rw [hstep]
      cases e with
      | notify n p => exact hquiet (.notify n p)
      | data k p buf =>
          cases k with
          | headerField => exact hquiet (.headerField p buf)
          | headerValue => exact hquiet (.headerValue p buf)
          | url =>
              rw [if_congr acceptable_url rfl rfl]
              change (r.urlCallBack p buf >>= _) = _
              rw [urlCallBack_eq]
              by_cases hurl : (parseUrl (r.requestUrl ++ buf) false).isSome = true
              · simp only [hurl, if_true, true_and]
                exact ih
              · simp only [hurl]
                rfl
          | body =>
              rw [if_congr acceptable_body rfl rfl]
              by_cases hfinal : r.bodyIsFinal = false
              · simp only [hfinal, true_and]
                change (r.bodyCallBack p buf >>= _) = _
                unfold bodyCallBack markBodyFinal
                simp only [hfinal]
                exact ih
              · rw [Bool.not_eq_false] at hfinal
                change (r.bodyCallBack p buf >>= _) = _
                unfold bodyCallBack markBodyFinal
                simp only [hfinal]
                rfl

end Collect

end HTTPRequest

/-! ## Aborts -/

namespace HTTPContext

/-- What the parser reports of a segment is acceptable. -/
def Acceptable (c : HTTPContext) (data : Bytes) : Prop :=
  toInt data.length < 0 ∨
    c.request.Acceptable (c.parser.execute (data.take (toInt data.length).toNat)).events

instance {c : HTTPContext} {data : Bytes} : Decidable (c.Acceptable data) :=
  inferInstanceAs (Decidable (_ ∨ _))

variable {c : HTTPContext} {data : Bytes}

theorem parse_eq (h : 0 ≤ toInt data.length ∨ c.parser.httpErrno ≠ .ok) :
    c.parse data = c.parseLen data (toInt data.length) := by
  unfold parse
  refine if_neg fun hneg => ?_
  exact h.elim (fun hlen => absurd hneg.1 (Int.not_lt.mpr hlen)) fun herrno => herrno hneg.2

theorem parseLen_ok {len : Int}
    (h : c.request.Acceptable (c.parser.execute (data.take len.toNat)).events) :
    c.parseLen data len =
      let r := c.parser.execute (data.take len.toNat)
      .ok (⟨r.parser, r.events.foldl HTTPRequest.collect c.request⟩,
        if (r.nparsed : Int) ≠ len ∨ r.parser.httpErrno ≠ .ok then -1 else r.nparsed) := by
  unfold parseLen
  dsimp only
  rw [HTTPRequest.callBacks_eq, if_pos h]
  rfl

theorem parseLen_abort {len : Int}
    (h : ¬ c.request.Acceptable (c.parser.execute (data.take len.toNat)).events) :
    c.parseLen data len = .error .abort := by
  unfold parseLen
  dsimp only
  rw [HTTPRequest.callBacks_eq, if_neg h]
  rfl

theorem execute_events_of_errno {p : HttpParser} (h : p.httpErrno ≠ .ok) :
    (p.execute data).events = [] := by
  unfold HttpParser.execute
  rw [if_pos h]

theorem acceptable_iff (h : 0 ≤ toInt data.length ∨ c.parser.httpErrno ≠ .ok) :
    c.Acceptable data ↔
      c.request.Acceptable (c.parser.execute (data.take (toInt data.length).toNat)).events := by
  refine ⟨fun haccept => haccept.elim (fun hneg => ?_) id, .inr⟩
  rw [execute_events_of_errno (h.resolve_left (Int.not_le.mpr hneg))]
  exact HTTPRequest.acceptable_nil

theorem parse_abort_iff : c.parse data = .error .abort ↔ ¬ c.Acceptable data := by
  by_cases hlen : 0 ≤ toInt data.length ∨ c.parser.httpErrno ≠ .ok
  · rw [acceptable_iff hlen, parse_eq hlen]
    by_cases haccept : c.request.Acceptable
        (c.parser.execute (data.take (toInt data.length).toNat)).events
    · rw [parseLen_ok haccept]
      exact ⟨fun heq => (nomatch heq), fun hnot => absurd haccept hnot⟩
    · rw [parseLen_abort haccept]
      exact ⟨fun _ => haccept, fun _ => rfl⟩
  · rw [not_or, Int.not_le, not_not] at hlen
    have hparse : c.parse data = .error .overrun := if_pos hlen
    rw [hparse]
    exact ⟨fun heq => (nomatch heq), fun hnot => absurd (.inl hlen.1) hnot⟩

end HTTPContext

namespace HTTPServer

variable {env : Environment} {data : Bytes} {c : HTTPContext}

theorem handleMessageCome_abort_iff :
    handleMessageCome env data c = .error .abort ↔ ¬ c.Acceptable data := by
  rw [← HTTPContext.parse_abort_iff]
  cases hparse : c.parse data with
  | error f =>
      rw [handleMessageCome_error hparse]
      exact ⟨fun h => congrArg _ (Except.error.inj h), fun h => congrArg _ (Except.error.inj h)⟩
  | ok r =>
      obtain ⟨c', n⟩ := r
      rw [handleMessageCome_ok hparse]
      refine ⟨fun h => ?_, fun h => nomatch h⟩
      unfold handleParsed at h
      split_ifs at h
      cases hanswer : answer env c'.request with
      | error f =>
          rw [hanswer] at h
          cases h
          rcases answer_error hanswer with hf | hf <;> cases hf
      | ok response =>
          rw [hanswer] at h
          cases h

/-- The context after a segment has been received, if the process is still alive. -/
def receive (c : HTTPContext) (l : Environment × Bytes) : Option HTTPContext :=
  (handleMessageCome l.1 l.2 c).toOption.map Prod.fst

end HTTPServer

end QGServer
