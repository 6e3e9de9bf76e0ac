-- SUMMARY: Serving a file: when the handler returns at all, and when a client gets the bytes of the file.
import QGServer.Http.Callbacks
import QGServer.Http.Framing

/-!
# Files

`defaultHandleRequest` asks `stat` for the size of a file and opens it again to
read it. If the second call fails, `tellg` is -1 and the vector for the bytes
cannot be built. A directory can be opened, but its end may be at `2 ^ 63 - 1`, and
there is no memory for so much. An empty file has no content, for which `toString`
writes the status.
-/

namespace QGServer

/-! ## Request paths -/

namespace HTTPRequest

open HttpParser

theorem plain_urlText (field : UrlField) (url : Bytes) : Plain (urlText field url) := by
  unfold urlText
  split
  · rename_i u hu
    obtain ⟨hcr, hlf⟩ := parseUrl_plain hu
    cases u field with
    | none => exact ⟨by simp, by simp⟩
    | some span =>
        have hsub : ∀ ch, ch ∈ span.text url → ch ∈ url := fun ch h =>
          List.mem_of_mem_drop (List.mem_of_mem_take h)
        exact ⟨fun h => hcr (hsub _ h), fun h => hlf (hsub _ h)⟩
  · exact ⟨by simp, by simp⟩

theorem plain_collect {r : HTTPRequest} (h : Plain r.requestPath) (e : Event) :
    Plain (r.collect e).requestPath := by
  cases e with
  | notify n p =>
      cases n with
      | headersComplete | messageComplete =>
          unfold collect messageCompleteCallBack headerCompleteCallBack
          split_ifs <;> exact h
      | _ => exact h
  | data k p buf =>
      cases k with
      | url => exact h.append (plain_urlText .path _)
      | headerField =>
          unfold collect headerFieldCallBack
          dsimp only
          split_ifs <;> exact h
      | _ => exact h

theorem plain_foldl {r : HTTPRequest} (h : Plain r.requestPath) (es : List Event) :
    Plain (es.foldl collect r).requestPath := by
  induction es generalizing r with
  | nil => exact h
  | cons e es ih => exact ih (plain_collect h e)

end HTTPRequest

namespace HTTPContext

/-- The contexts of a connection: segments are parsed, and the context is reset. -/
inductive Reachable : HTTPContext → Prop where
  | new : Reachable .new
  | parse (c c' : HTTPContext) (data : Bytes) (n : Int) (hc : Reachable c)
      (h : c.parse data = .ok (c', n)) : Reachable c'

variable {c c' : HTTPContext} {data : Bytes} {n : Int}

theorem plain_parse (hc : Plain c.request.requestPath) (h : c.parse data = .ok (c', n)) :
    Plain c'.request.requestPath := by
  unfold parse at h
  split_ifs at h
  by_cases haccept :
      c.request.Acceptable (c.parser.execute (data.take (toInt data.length).toNat)).events
  · rw [parseLen_ok haccept] at h
    obtain ⟨rfl, -⟩ := Prod.mk.inj (Except.ok.inj h)
    exact HTTPRequest.plain_foldl hc _
  · rw [parseLen_abort haccept] at h
    cases h

/-- The path of a request is part of a line. -/
theorem Reachable.plain (h : Reachable c) : Plain c.request.requestPath := by
  induction h with
  | new => exact ⟨by decide, by decide⟩
  | parse c c' data n hc h ih => exact plain_parse ih h

end HTTPContext

/-! ## A response for every outcome -/

namespace HTTPServer

/-- The files that `readFile` builds a vector for. -/
def filesRead (env : Environment) (request : HTTPRequest) : List Bytes :=
  let path := filePath request.requestPath
  match env.stat path with
  | some size => if size > kMaxFileSize then [] else [path]
  | none => []

/-- The handler returns with a status, and no vector is built with a negative size. -/
structure YieldsResponse (env : Environment) (request : HTTPRequest) (response : HTTPResponse) :
    Prop where
  returns : ∃ r, defaultHandleRequest env request response = .ok r ∧ r.status ≠ []
  sizes : ∀ path ∈ filesRead env request, 0 ≤ (env.file path).tellg

/-- The file for a path has a size that there is memory for, unless it does not exist or
    is too large. -/
def Readable (env : Environment) (path : Bytes) : Prop :=
  ∀ size ∈ env.stat (filePath path), size ≤ kMaxFileSize →
    0 ≤ (env.file (filePath path)).tellg ∧ (env.file (filePath path)).tellg ≤ env.memory

variable {env : Environment} {request : HTTPRequest} {response : HTTPResponse}

theorem defaultHandleRequest_ok_iff (response : HTTPResponse) :
    (∃ r, defaultHandleRequest env request response = .ok r) ↔ Readable env request.requestPath := by
  unfold defaultHandleRequest Readable
  dsimp only
  cases hstat : env.stat (filePath request.requestPath) with
  | none => simp
  | some size =>
      by_cases hlarge : size > kMaxFileSize
      · simp [hlarge, Int.not_le.mpr hlarge]
      · have hread : (∃ r, (readFile env (filePath request.requestPath)).map
            (fun content => (HTTPResponse.setStatus 200 (response.setHeader (bytes "FilePath")
              (filePath request.requestPath))).setContent content) = .ok r) ↔
              0 ≤ (env.file (filePath request.requestPath)).tellg ∧
                (env.file (filePath request.requestPath)).tellg ≤ env.memory := by
          rw [← Int.not_lt, ← Int.not_lt]
          unfold readFile
          dsimp only
          split_ifs with htell hmemory
          · simp [Except.map, htell]
          · simp [Except.map, hmemory]
          · simp [Except.map, htell, hmemory]
        simpa [hlarge, Int.not_lt.mp hlarge] using hread

/-- Every way to return sets a status. There is none for 401. -/
theorem status_cases {r : HTTPResponse} (h : defaultHandleRequest env request response = .ok r) :
    r.status = bytes "404 Not Found" ∨ r.status = bytes "500 Internal Server Error" ∨
      r.status = bytes "200 OK" := by
  unfold defaultHandleRequest at h
  dsimp only at h
  split at h
  · cases h
    exact .inl rfl
  · split_ifs at h
    · cases h
      exact .inr (.inl rfl)
    · cases hread : readFile env (filePath request.requestPath) with
      | error f =>
          rw [hread] at h
          cases h
      | ok content =>
          rw [hread] at h
          cases h
          exact .inr (.inr rfl)

theorem status_ne_nil {r : HTTPResponse} (h : defaultHandleRequest env request response = .ok r) :
    r.status ≠ [] := by
  rcases status_cases h with hs | hs | hs <;> rw [hs] <;> decide

theorem answer_ok_iff :
    (∃ response, answer env request = .ok response) ↔ Readable env request.requestPath := by
  rw [← defaultHandleRequest_ok_iff .new]
  unfold answer
  cases defaultHandleRequest env request .new <;> simp [Except.map]

/-- A file that is read has a size. -/
theorem Readable.nonneg (h : Readable env request.requestPath) :
    ∀ path ∈ filesRead env request, 0 ≤ (env.file path).tellg := by
  intro path hpath
  unfold filesRead at hpath
  dsimp only at hpath
  split at hpath
  · rename_i size hstat
    split_ifs at hpath with hlarge
    · cases hpath
    · rw [List.mem_singleton.mp hpath]
      exact (h size hstat (Int.not_lt.mp hlarge)).1
  · cases hpath

/-- A request yields a response exactly if a file that is to be read can be opened and
    fits into memory. -/
theorem yieldsResponse_iff :
    YieldsResponse env request response ↔ Readable env request.requestPath := by
  constructor
  · intro h
    obtain ⟨r, hr, -⟩ := h.returns
    exact (defaultHandleRequest_ok_iff response).mp ⟨r, hr⟩
  · intro h
    obtain ⟨r, hr⟩ := (defaultHandleRequest_ok_iff response).mpr h
    exact ⟨⟨r, hr, status_ne_nil hr⟩, h.nonneg⟩

/-- The root of the documents is a directory. -/
example : answer (.one (some 4096) ⟨2 ^ 63 - 1, []⟩ []) .new = .error .badAlloc := by rfl

/-- A file that exists and cannot be opened. -/
theorem not_yieldsResponse :
    ¬ ∀ (env : Environment) (request : HTTPRequest) (response : HTTPResponse),
      YieldsResponse env request response := by
  intro h
  have hyields := h (.one (some 10) ⟨-1, []⟩ []) .new .new
  exact absurd (hyields.sizes (bytes ".") (by decide)) (by decide)

/-! ## The bytes of a file -/

/-- A regular file that can be read, and is not too large. -/
structure HoldsFile (env : Environment) (path content : Bytes) : Prop where
  stat : env.stat (filePath path) = some (content.length : Int)
  file : env.file (filePath path) = ⟨content.length, content⟩
  size : (content.length : Int) ≤ kMaxFileSize

/-- What is written is a response of status 200, and a client takes `content` as
    its body. -/
def ServesFile (calls : List Call) (content : Bytes) : Prop :=
  ∃ response, calls = [.write response] ∧ bytes "HTTP/1.1 200 OK\r\n" <+: response ∧
    decodeResponse response = some (content, [])

/-- The calls that build the response for a file. -/
def fileCalls (path content : Bytes) : List ResponseCall :=
  [.setHeader (bytes "FilePath") (filePath path), .setStatus 200, .setContent content]

section Serve

variable {readBuf content : Bytes} {c c' : HTTPContext} {n : Int}

theorem plain_filePath {path : Bytes} (h : Plain path) : Plain (filePath path) :=
  Plain.append (by decide) h

theorem readFile_holds {path : Bytes} (h : HoldsFile env path content) :
    readFile env (filePath path) = .ok content := by
  have hmemory := h.size.trans env.enough
  unfold readFile
  simp only [h.file]
  rw [if_neg (by omega), if_neg (Int.not_lt.mpr hmemory), Int.toNat_natCast, List.take_left]

theorem answer_holds (h : HoldsFile env request.requestPath content) :
    answer env request = .ok
      ((HTTPResponse.build (fileCalls request.requestPath content)).toString env.timeOfDay) := by
  unfold answer defaultHandleRequest
  simp only [h.stat]
  rw [if_neg (Int.not_lt.mpr h.size), readFile_holds h]
  rfl

/-- A client takes the content, unless there is none, off the response for a file. -/
theorem decodeResponse_file (hpath : Plain request.requestPath) (htime : Plain env.timeOfDay) :
    decodeResponse
        ((HTTPResponse.build (fileCalls request.requestPath content)).toString env.timeOfDay) =
      some (if content = [] then bytes "200 OK" else content, []) := by
  have hcalls : ∀ call ∈ fileCalls request.requestPath content, call.Plain := by
    simp only [fileCalls, List.forall_mem_cons]
    exact ⟨⟨by decide, plain_filePath hpath⟩, trivial, trivial, by simp⟩
  obtain ⟨ls, hframed⟩ := HTTPResponse.framed_build hcalls
  have hdecode := HTTPResponse.decodeResponse_toString hframed htime.1 []
  rw [List.append_nil] at hdecode
  exact hdecode

/-- A request for a file that can be read is answered with the bytes of the file
    exactly if there are any. -/
theorem servesFile_iff (hc : c.Reachable) (hparse : c.parse readBuf = .ok (c', n)) (hn : 0 ≤ n)
    (hend : c'.request.messageIsEnd = true) (htime : Plain env.timeOfDay)
    (hfile : HoldsFile env c'.request.requestPath content) :
    (∃ c'' calls, handleMessageCome env readBuf c = .ok (c'', calls) ∧ ServesFile calls content) ↔
      content ≠ [] := by
  have hpath : Plain c'.request.requestPath := (hc.parse c c' readBuf n hparse).plain
  have hcome := @handleMessageCome_ok env readBuf c c' n hparse
  unfold handleParsed at hcome
  rw [if_neg (Int.not_lt.mpr hn), if_pos hend, answer_holds hfile] at hcome
  have hdecode := @decodeResponse_file env c'.request content hpath htime
  constructor
  · rintro ⟨c'', calls, hhandle, response, rfl, -, hbody⟩ rfl
    rw [hcome] at hhandle
    cases hhandle
    rw [hdecode] at hbody
    cases hbody
  · intro hne
    rw [if_neg hne] at hdecode
    refine ⟨_, _, hcome, _, rfl, ?_, hdecode⟩
    have hline : bytes "HTTP/1.1 200 OK\r\n" =
        bytes "HTTP/1.1 " ++ bytes "200 OK" ++ bytes "\r\n" := by decide
    rw [hline]
    exact HTTPResponse.statusLine_prefix _
      (HTTPResponse.build (fileCalls c'.request.requestPath content))

/-- A request for the path `/a`. -/
theorem parse_get :
    ∃ c' : HTTPContext, HTTPContext.new.parse (bytes "GET /a HTTP/1.1\r\n\r\n") = .ok (c', 19) ∧
      c'.request.messageIsEnd = true ∧ c'.request.method = some .get ∧
      c'.request.requestPath = bytes "/a" := by
  have hget : (HTTPContext.new.parse (bytes "GET /a HTTP/1.1\r\n\r\n")).toOption.map
      (fun r => (r.2, r.1.request.messageIsEnd, r.1.request.method, r.1.request.requestPath)) =
        some (19, true, some .get, bytes "/a") := by
    decide +kernel
  cases hparse : HTTPContext.new.parse (bytes "GET /a HTTP/1.1\r\n\r\n") with
  | error f =>
      rw [hparse] at hget
      cases hget
  | ok r =>
      rw [hparse] at hget
      simp only [Except.toOption, Option.map_some, Option.some.injEq, Prod.mk.injEq] at hget
      exact ⟨r.1, by rw [← hget.1], hget.2⟩

theorem servesFile_iff_one :
    ∃ c calls, handleMessageCome (.one (some 2) ⟨2, bytes "hi"⟩ [])
        (bytes "GET /a HTTP/1.1\r\n\r\n") .new = .ok (c, calls) ∧
      ServesFile calls (bytes "hi") := by
  obtain ⟨c', hparse, hend, -⟩ := parse_get
  have hfile : HoldsFile (.one (some 2) ⟨2, bytes "hi"⟩ [])
      c'.request.requestPath (bytes "hi") := ⟨rfl, rfl, by decide⟩
  exact (servesFile_iff .new hparse (by decide) hend ⟨by decide, by decide⟩ hfile).mpr (by decide)

/-- A file without bytes is sent as the text of the status. -/
theorem not_servesFile :
    ¬ ∀ (env : Environment) (readBuf content : Bytes) (c c' : HTTPContext) (n : Int), c.Reachable →
      c.parse readBuf = .ok (c', n) → 0 ≤ n → c'.request.messageIsEnd = true →
      Plain env.timeOfDay → HoldsFile env c'.request.requestPath content →
      ∃ c'' calls, handleMessageCome env readBuf c = .ok (c'', calls) ∧ ServesFile calls content := by
  intro hclaim
  obtain ⟨c', hparse, hend, -⟩ := parse_get
  have hempty : HoldsFile (.one (some 0) ⟨0, []⟩ []) c'.request.requestPath [] :=
    ⟨rfl, rfl, by decide⟩
  obtain ⟨c, calls, hcome, response, rfl, -, hbody⟩ :=
    hclaim _ _ [] .new c' 19 .new hparse (by decide) hend ⟨by decide, by decide⟩ hempty
  rw [handleMessageCome_ok hparse, handleParsed, if_neg (by decide), if_pos hend,
    answer_holds hempty] at hcome
  cases hcome
  rw [decodeResponse_file (HTTPContext.Reachable.new.parse _ _ _ _ hparse).plain
    ⟨by decide, by decide⟩] at hbody
  cases hbody

end Serve

end HTTPServer

end QGServer
