-- SUMMARY: Requests that come together in one segment: how many of them are answered.
import QGServer.Http.Segmentation
import QGServer.Http.Files

/-!
# Pipelining

`handleMessageCome` looks at the request once, after the parser has used up the
whole segment, so it writes at most one answer for all requests of a segment.
-/

namespace QGServer

namespace HttpParser

/-- The messages that end are of version 1.1, and the connection is to be kept. -/
def keepAliveOnly (es : List Event) : Bool :=
  es.all fun
    | .notify .messageComplete q => q.httpMajor = 1 && q.httpMinor = 1 && q.shouldKeepAlive
    | _ => true

/-- A complete request that leaves the connection open for the next one. -/
structure KeepAliveRequest (w : Bytes) : Prop where
  complete : Complete w
  keepAlive : keepAliveOnly (execute .init w).events = true

instance {w : Bytes} : Decidable (KeepAliveRequest w) :=
  decidable_of_iff (Complete w ∧ keepAliveOnly (execute .init w).events = true)
    ⟨fun h => ⟨h.1, h.2⟩, fun h => ⟨h.complete, h.keepAlive⟩⟩

end HttpParser

namespace HTTPServer

open HttpParser HTTPRequest

variable {env : Environment} {w : Bytes} {reqs : List Bytes}

/-! ## The property -/

/-- What a new connection answers to a request that comes alone. -/
def AnswersAlone (env : Environment) (w response : Bytes) : Prop :=
  ∃ c calls, handleMessageCome env w .new = .ok (c, calls) ∧
    calls.filter Call.isWrite = [.write response]

/-- The requests of one segment are answered one by one, each as it would be alone. -/
def AnswersEach (env : Environment) (reqs : List Bytes) : Prop :=
  ∃ c calls responses, handleMessageCome env reqs.flatten .new = .ok (c, calls) ∧
    calls.filter Call.isWrite = responses.map .write ∧
      List.Forall₂ (AnswersAlone env) reqs responses

/-! ## One request -/

/-- A segment in which no message ends is not answered. -/
theorem answersAlone_parse {response : Bytes} (h : AnswersAlone env w response) :
    ∃ c n, HTTPContext.new.parse w = .ok (c, n) ∧ c.request.messageIsEnd = true ∧
      answer env c.request = .ok response := by
  obtain ⟨c, calls, hhandle, hcalls⟩ := h
  cases handled hhandle with
  | refused c' n hparse hn => cases hcalls
  | waits c' n hparse hn hend => cases hcalls
  | answered c' n response' hparse hn hend hanswer =>
      cases hcalls
      exact ⟨c', n, hparse, hend, hanswer⟩

theorem requestPath_complete (hw : Complete w) :
    ((execute .init w).events.foldl HTTPRequest.collect .new).requestPath =
      urlText .path (urlOf w) := by
  rw [HTTPRequest.parts_foldl.1]
  change [] ++ (splitUrls [] _).flatMap _ = _
  rw [hw.urls, List.flatMap_singleton, List.nil_append]

/-- A complete request that comes alone is answered exactly if it can be parsed
    and its file has a size. -/
theorem answersAlone_iff (hw : Complete w) :
    (∃ response, AnswersAlone env w response) ↔ w.length < intLimit ∧
      (parseUrl (urlOf w) false).isSome = true ∧ Readable env (urlText .path (urlOf w)) := by
  constructor
  · rintro ⟨response, h⟩
    obtain ⟨c, n, hparse, hend, hanswer⟩ := answersAlone_parse h
    obtain ⟨hlen, hurl⟩ := (HTTPContext.parse_complete_iff hw).mp ⟨c, n, hparse, hend⟩
    rw [HTTPContext.parse_complete hw hlen hurl] at hparse
    obtain ⟨rfl, -⟩ := Prod.mk.inj (Except.ok.inj hparse)
    refine ⟨hlen, hurl, ?_⟩
    rw [← requestPath_complete hw]
    exact answer_ok_iff.mp ⟨response, hanswer⟩
  · rintro ⟨hlen, hurl, hfile⟩
    rw [← requestPath_complete hw] at hfile
    obtain ⟨response, hanswer⟩ := answer_ok_iff.mpr hfile
    have hend := @HTTPRequest.messageIsEnd_foldl .new (execute .init w).events
    rw [hw.ends, Bool.or_true] at hend
    refine ⟨response, .new, [.write response], ?_, rfl⟩
    rw [handleMessageCome_ok (HTTPContext.parse_complete hw hlen hurl), handleParsed,
      if_neg (Int.not_lt.mpr (Int.natCast_nonneg _)),
      if_pos hend]
    dsimp only
    rw [hanswer]
    rfl

/-! ## Several requests -/

theorem AnswersEach.length_le (h : AnswersEach env reqs) : reqs.length ≤ 1 := by
  obtain ⟨c, calls, responses, hhandle, hcalls, hall⟩ := h
  calc reqs.length = responses.length := hall.length_eq
    _ = (calls.filter Call.isWrite).length := by rw [hcalls, List.length_map]
    _ ≤ calls.length := List.length_filter_le _ _
    _ ≤ 1 := (handled hhandle).calls_le

/-- Complete keep-alive requests in one segment are answered one by one exactly if
    there is only one, it can be parsed and its file has a size. -/
theorem answersEach_iff (hne : reqs ≠ []) (hreqs : ∀ w ∈ reqs, KeepAliveRequest w) :
    AnswersEach env reqs ↔ ∃ w, reqs = [w] ∧ w.length < intLimit ∧
      (parseUrl (urlOf w) false).isSome = true ∧ Readable env (urlText .path (urlOf w)) := by
  constructor
  · intro heach
    have hone := heach.length_le
    obtain ⟨c, calls, responses, hhandle, hcalls, hall⟩ := heach
    obtain ⟨w, rfl⟩ : ∃ w, reqs = [w] :=
      List.length_eq_one_iff.mp (le_antisymm hone (List.length_pos_iff.mpr hne))
    obtain ⟨response, -, halone, -, -⟩ := List.forall₂_cons_left_iff.mp hall
    refine ⟨w, rfl, ?_⟩
    exact (answersAlone_iff (hreqs w (List.mem_singleton_self w)).complete).mp ⟨response, halone⟩
  · rintro ⟨w, rfl, hw⟩
    have hcomplete : Complete w := (hreqs w (List.mem_singleton_self w)).complete
    obtain ⟨response, halone⟩ := (answersAlone_iff hcomplete).mpr hw
    obtain ⟨c, calls, hhandle, hcalls⟩ := halone
    refine ⟨c, calls, [response], ?_, hcalls, .cons ⟨c, calls, hhandle, hcalls⟩ .nil⟩
    rw [List.flatten_singleton]
    exact hhandle

theorem answersEach_iff_one :
    AnswersEach .empty [bytes "GET /a HTTP/1.1\r\n\r\n"] := by
  refine (answersEach_iff (by simp) ?_).mpr ⟨_, rfl, ?_, ?_, ?_⟩
  · decide +kernel
  · decide +kernel
  · decide +kernel
  · intro size hsize
    cases hsize

/-- Two requests for two files get one answer. -/
theorem not_answersEach :
    ¬ ∀ (env : Environment) (reqs : List Bytes), reqs ≠ [] → (∀ w ∈ reqs, KeepAliveRequest w) →
      AnswersEach env reqs := by
  intro hclaim
  have heach := hclaim .empty [bytes "GET /a HTTP/1.1\r\n\r\n", bytes "GET /b HTTP/1.1\r\n\r\n"]
    (by simp) (by decide +kernel)
  exact absurd heach.length_le (by decide)

end HTTPServer

end QGServer
