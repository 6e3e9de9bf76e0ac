-- SUMMARY: Exchanges on a connection: requests in segments, and the documents that a client reads off the responses.
import QGServer.Http.Files
import QGServer.Http.StoreMessage

/-!
# Exchanges

A client sends messages, each in segments of its own, and reads the responses off
the stream that `handleMessageCome` writes. `handleAll_exchanges`: it gets the
document for each of its messages, in order, and nothing is left over. What this
takes of a message, of its segments, of the file and of the clock is in `Exchange`.
-/

namespace QGServer

/-! ## Documents -/

namespace HTTPServer

open HttpParser HTTPRequest

section Document

variable {env : Environment} {request : HTTPRequest} {path response : Bytes}

/-- The calls of the file handler that build the response for a path. -/
def handlerCalls (env : Environment) (path : Bytes) : List ResponseCall :=
  .setHeader (bytes "FilePath") (filePath path) ::
    match env.stat (filePath path) with
    | none => [.setStatus 404]
    | some size =>
      if size > kMaxFileSize then [.setStatus 401, .setContent (bytes "file size up to server bound")]
      else
        match readFile env (filePath path) with
        | .ok content => [.setStatus 200, .setContent content]
        | .error _ => []

/-- The response for a path. -/
def responseFor (env : Environment) (path : Bytes) : HTTPResponse := .build (handlerCalls env path)

/-- What a client gets for a path: the bytes of the file, or what there is to say of it.
    Of an empty file that is `200 OK`. -/
def document (env : Environment) (path : Bytes) : Bytes := (responseFor env path).body

theorem defaultHandleRequest_eq (h : Readable env request.requestPath) :
    defaultHandleRequest env request .new = .ok (responseFor env request.requestPath) := by
  unfold Readable at h
  unfold defaultHandleRequest responseFor handlerCalls
  dsimp only
  cases hstat : env.stat (filePath request.requestPath) with
  | none => rfl
  | some size =>
      rw [hstat] at h
      dsimp only
      by_cases hlarge : size > kMaxFileSize
      · rw [if_pos hlarge, if_pos hlarge]
        rfl
      · obtain ⟨htell, hmemory⟩ := h size rfl (Int.not_lt.mp hlarge)
        rw [if_neg hlarge, if_neg hlarge]
        unfold readFile
        dsimp only
        rw [if_neg (Int.not_lt.mpr htell), if_neg (Int.not_lt.mpr hmemory)]
        rfl

theorem answer_eq (h : Readable env request.requestPath) :
    answer env request = .ok ((responseFor env request.requestPath).toString env.timeOfDay) := by
  unfold answer
  rw [defaultHandleRequest_eq h]
  rfl

theorem plain_handlerCalls (hpath : Plain path) : ∀ call ∈ handlerCalls env path, call.Plain := by
  have hfirst : (ResponseCall.setHeader (bytes "FilePath") (filePath path)).Plain :=
    ⟨by decide, plain_filePath hpath⟩
  unfold handlerCalls
  rw [List.forall_mem_cons]
  refine ⟨hfirst, ?_⟩
  cases env.stat (filePath path) with
  | none =>
      intro call hcall
      rw [List.mem_singleton.mp hcall]
      trivial
  | some size =>
      dsimp only
      split_ifs
      · simp [ResponseCall.Plain]
      · cases readFile env (filePath path) <;> simp [ResponseCall.Plain]

/-- The client takes the response for a path off the stream, and has the document. -/
theorem decodeResponse_responseFor (hpath : Plain path) {date : Bytes} (hdate : Plain date)
    (rest : Bytes) :
    decodeResponse ((responseFor env path).toString date ++ rest) = some (document env path, rest) := by
  obtain ⟨ls, hframed⟩ := HTTPResponse.framed_build (@plain_handlerCalls env path hpath)
  exact HTTPResponse.decodeResponse_toString hframed hdate.1 rest

theorem toString_ne_nil (r : HTTPResponse) (date : Bytes) : r.toString date ≠ [] := by
  intro hnil
  have hline := HTTPResponse.statusLine_prefix date r
  rw [hnil, List.prefix_nil, List.append_eq_nil_iff] at hline
  exact absurd hline.2 (by decide)

/-- What is in a file that can be read, is not empty and not too large. -/
theorem document_holdsFile {content : Bytes} (h : HoldsFile env path content) (hne : content ≠ []) :
    document env path = content := by
  unfold document responseFor handlerCalls
  rw [h.stat]
  dsimp only
  rw [if_neg (Int.not_lt.mpr h.size), readFile_holds h]
  exact if_neg hne

end Document

/-! ## Segments -/

/-- The message callback, for segments that come one after another. -/
def handleAll (c : HTTPContext) : List (Environment × Bytes) → Except Fault (HTTPContext × List Call)
  | [] => .ok (c, [])
  | (env, data) :: ls => do
    let r ← handleMessageCome env data c
    let rest ← handleAll r.1 ls
    return (rest.1, r.2 ++ rest.2)

section Segments

variable {c c' c'' : HTTPContext} {ls ls' : List (Environment × Bytes)} {calls calls' : List Call}

theorem handleAll_append (h : handleAll c ls = .ok (c', calls))
    (h' : handleAll c' ls' = .ok (c'', calls')) :
    handleAll c (ls ++ ls') = .ok (c'', calls ++ calls') := by
  induction ls generalizing c calls with
  | nil =>
      cases h
      exact h'
  | cons l ls ih =>
      obtain ⟨env, data⟩ := l
      change (handleMessageCome env data c >>= _) = _ at h
      change (handleMessageCome env data c >>= _) = _
      cases hcome : handleMessageCome env data c with
      | error f =>
          rw [hcome] at h
          cases h
      | ok r =>
          rw [hcome] at h
          change (handleAll r.1 ls >>= _) = _ at h
          change (handleAll r.1 (ls ++ ls') >>= _) = _
          cases hrest : handleAll r.1 ls with
          | error f =>
              rw [hrest] at h
              cases h
          | ok rest =>
              obtain ⟨c₁, calls₁⟩ := rest
              rw [hrest] at h
              cases h
              rw [ih hrest, List.append_assoc]
              rfl

theorem parseAll_append (xs ys : List Bytes) (c : HTTPContext) :
    c.parseAll (xs ++ ys) = c.parseAll xs >>= fun c' => c'.parseAll ys := by
  induction xs generalizing c with
  | nil => rfl
  | cons data xs ih =>
      change (c.parse data >>= fun r => r.1.parseAll (xs ++ ys)) =
        ((c.parse data >>= fun r => r.1.parseAll xs) >>= fun c' => c'.parseAll ys)
      cases c.parse data with
      | error f => rfl
      | ok r => exact ih r.1

theorem parseAll_append_ok {xs : List Bytes} (h : c.parseAll xs = .ok c') (ys : List Bytes) :
    c.parseAll (xs ++ ys) = c'.parseAll ys := by
  rw [parseAll_append, h]
  rfl

/-- Segments that are parsed before the message ends lead to no calls. -/
theorem handleAll_waits (haccepts : AcceptsAll c.parser (ls.map Prod.snd))
    (hlen : ∀ l ∈ ls, l.2.length < intLimit) (hparse : c.parseAll (ls.map Prod.snd) = .ok c')
    (hopen : ∀ xs ys c'', ls.map Prod.snd = xs ++ ys → xs ≠ [] → c.parseAll xs = .ok c'' →
      c''.request.messageIsEnd = false) : handleAll c ls = .ok (c', []) := by
  induction ls generalizing c with
  | nil =>
      cases hparse
      rfl
  | cons l ls ih =>
      obtain ⟨env, data⟩ := l
      obtain ⟨haccept, hrest⟩ := haccepts
      rw [List.forall_mem_cons] at hlen
      have hdata := HTTPContext.parse_of_accepts hlen.1 haccept
      change (c.parse data >>= fun r => r.1.parseAll (ls.map Prod.snd)) = _ at hparse
      cases hcallbacks : c.request.callBacks (execute c.parser data).events with
      | error f =>
          rw [hcallbacks] at hdata
          change c.parse data = .error f at hdata
          rw [hdata] at hparse
          cases hparse
      | ok request =>
          rw [hcallbacks] at hdata
          change c.parse data = .ok (⟨(execute c.parser data).parser, request⟩, (data.length : Int)) at hdata
          rw [hdata] at hparse
          have hfirst : c.parseAll [data] = .ok ⟨(execute c.parser data).parser, request⟩ := by
            change (c.parse data >>= _) = _
            rw [hdata]
            rfl
          have hend := hopen [data] (ls.map Prod.snd) _ rfl (by simp) hfirst
          have hcome : handleMessageCome env data c =
              .ok (⟨(execute c.parser data).parser, request⟩, []) := by
            rw [handleMessageCome_ok hdata]
            unfold handleParsed
            rw [if_neg (by omega), hend]
            rfl
          have hothers := ih (c := ⟨(execute c.parser data).parser, request⟩) hrest hlen.2 hparse
            (fun xs ys c'' hsplit hne hxs => by
              apply hopen (data :: xs) ys c'' (by rw [List.map_cons, hsplit]; rfl) (by simp)
              change (c.parse data >>= _) = _
              rw [hdata]
              exact hxs)
          change (handleMessageCome env data c >>= _) = _
          rw [hcome]
          change (handleAll _ ls >>= _) = _
          rw [hothers]
          rfl

end Segments

/-! ## One request -/

section Request

variable {segments : List Bytes}

theorem acceptsAll_append (p : HttpParser) (xs ys : List Bytes) :
    AcceptsAll p (xs ++ ys) ↔ AcceptsAll p xs ∧ AcceptsAll (executeAll p xs).1 ys := by
  induction xs generalizing p with
  | nil => exact (and_iff_right trivial).symm
  | cons data xs ih =>
      change (_ ∧ AcceptsAll _ (xs ++ ys)) ↔ (_ ∧ AcceptsAll _ xs) ∧ _
      rw [ih, and_assoc]
      rfl

theorem parser_parseAll {c : HTTPContext} (hlen : ∀ data ∈ segments, data.length < intLimit)
    (haccepts : AcceptsAll .init segments) (h : HTTPContext.new.parseAll segments = .ok c) :
    c.parser = (executeAll .init segments).1 := by
  have hparse := @HTTPContext.parseAll_of_accepts HTTPContext.new segments hlen haccepts
  rw [h] at hparse
  cases hcallbacks : HTTPContext.new.request.callBacks (executeAll HTTPContext.new.parser segments).2 with
  | error f =>
      rw [hcallbacks] at hparse
      cases hparse
  | ok request =>
      rw [hcallbacks] at hparse
      cases hparse
      rfl

/-- A segment with which a message ends is answered. -/
theorem handleAll_last {c c' : HTTPContext} {env : Environment} {data : Bytes}
    (hlen : data.length < intLimit) (haccept : Accepts c.parser data)
    (hparse : c.parseAll [data] = .ok c') (hend : c'.request.messageIsEnd = true)
    (hreadable : Readable env c'.request.requestPath) :
    handleAll c [(env, data)] =
      .ok (.new, [.write ((responseFor env c'.request.requestPath).toString env.timeOfDay)]) := by
  have hvalue := HTTPContext.parse_of_accepts hlen haccept
  change (c.parse data >>= fun r => r.1.parseAll []) = _ at hparse
  cases hcallbacks : c.request.callBacks (execute c.parser data).events with
  | error f =>
      rw [hcallbacks] at hvalue
      change c.parse data = .error f at hvalue
      rw [hvalue] at hparse
      cases hparse
  | ok request =>
      rw [hcallbacks] at hvalue
      change c.parse data = .ok (_, (data.length : Int)) at hvalue
      rw [hvalue] at hparse
      cases hparse
      have hcome := @handleMessageCome_ok env _ _ _ _ hvalue
      unfold handleParsed at hcome
      rw [if_neg (by omega), if_pos hend, answer_eq hreadable] at hcome
      change (handleMessageCome env data c >>= _) = _
      rw [hcome]
      rfl

end Request

end HTTPServer

/-! ## Exchanges -/

open HttpParser HTTPServer HTTPContext

/-- A message in segments, and what the callback meets outside when they come. The
    answer depends on what is there when the last one comes. -/
structure Exchange where
  message : Message
  early : List (Environment × Bytes)
  env : Environment
  last : Bytes
  /-- Its target is a path, no header name comes twice, the last header value is not
      empty, and its size fits an `int`. -/
  storable : message.Storable
  nonempty : ∀ data ∈ early.map Prod.snd ++ [last], data ≠ []
  text : (early.map Prod.snd ++ [last]).flatten = message.text
  /-- No cut is inside of the target. -/
  cuts : CutsBare (early.map Prod.snd ++ [last])
  /-- There is no file for the path, or it is too large, or there is memory for its size. -/
  readable : Readable env (pathText message.target)
  /-- The date is part of a line. -/
  timeOfDay : Plain env.timeOfDay

namespace Exchange

def segments (x : Exchange) : List (Environment × Bytes) := x.early ++ [(x.env, x.last)]

def path (x : Exchange) : Bytes := pathText x.message.target

/-- The bytes that are written for the message. -/
def response (x : Exchange) : Bytes := (responseFor x.env x.path).toString x.env.timeOfDay

theorem path_plain (x : Exchange) : Plain x.path := by
  obtain ⟨hpath, -⟩ := x.storable.urlText
  unfold path
  rw [← hpath]
  exact HTTPRequest.plain_urlText .path _

/-- The message is answered when its last segment comes, and the context is new again. -/
theorem handleAll_segments (x : Exchange) :
    handleAll .new x.segments = .ok (.new, [.write x.response]) := by
  obtain ⟨hcomplete, -⟩ := complete_text x.message
  rw [← x.text] at hcomplete
  have hlen : ∀ data ∈ x.early.map Prod.snd ++ [x.last], data.length < intLimit := by
    intro data hdata
    apply Nat.lt_of_le_of_lt (HTTPContext.length_le_of_mem_flatten hdata)
    rw [x.text]
    exact x.storable.length
  obtain ⟨c, hparse, hstored⟩ := HTTPContext.parseAll_collected x.storable x.nonempty x.text x.cuts
  have hall := (execute_segments rfl x.nonempty (by simp) hcomplete.accepts).1
  obtain ⟨haccepts, hacceptLast, -⟩ := (acceptsAll_append _ _ _).mp hall
  have hlenEarly : ∀ data ∈ x.early.map Prod.snd, data.length < intLimit := fun data hdata =>
    hlen data (List.mem_append_left _ hdata)
  cases hearly : HTTPContext.new.parseAll (x.early.map Prod.snd) with
  | error f =>
      rw [parseAll_append, hearly] at hparse
      cases hparse
  | ok c₁ =>
      rw [parseAll_append_ok hearly] at hparse
      -- what comes before the last segment
      have hwaits : handleAll .new x.early = .ok (c₁, []) := by
        refine handleAll_waits haccepts ?_ hearly ?_
        · exact fun l hl => hlenEarly l.2 (List.mem_map_of_mem hl)
        · intro xs ys c'' hsplit hxs hparse'
          rw [hsplit, List.append_assoc] at hcomplete hlen
          have hnonempty := x.nonempty
          rw [hsplit, List.append_assoc] at hnonempty
          obtain ⟨haccepts', hopen⟩ := finishes_open hcomplete hnonempty (by simp)
          rw [parseAll_messageIsEnd (fun data hdata => hlen data (List.mem_append_left _ hdata))
            haccepts' hparse', hopen]
      -- the last segment
      have haccept : Accepts c₁.parser x.last := by
        rw [parser_parseAll hlenEarly haccepts hearly]
        exact hacceptLast
      have hpath : c.request.requestPath = x.path := hstored.requestPath
      have hlast := @handleAll_last _ _ x.env _ (hlen x.last (by simp)) haccept hparse
        hstored.messageIsEnd (by rw [hpath]; exact x.readable)
      rw [hpath] at hlast
      exact handleAll_append hwaits hlast

/-- What a call gives to the connection to be sent. -/
def written : Call → Bytes
  | .write data => data
  | _ => []

theorem handleAll_flatMap (xs : List Exchange) :
    handleAll .new (xs.flatMap segments) = .ok (.new, xs.map fun x => .write x.response) := by
  induction xs with
  | nil => rfl
  | cons x xs ih =>
      rw [List.flatMap_cons, List.map_cons]
      exact handleAll_append x.handleAll_segments ih

theorem decodeAll_responses (xs : List Exchange) :
    Framing.decodeAll decodeResponse (xs.flatMap response) =
      some (xs.map fun x => document x.env x.path) := by
  refine Framing.decodeAll_flatMap (fun x _ => toString_ne_nil _ _) fun x _ rest => ?_
  exact decodeResponse_responseFor x.path_plain x.timeOfDay rest

/-- Whatever a client asks for in exchanges, it reads the documents off the stream of
    responses in the order of its messages, and the connection is not shut down. -/
theorem handleAll_exchanges (xs : List Exchange) :
    ∃ calls, handleAll .new (xs.flatMap segments) = .ok (.new, calls) ∧
      (∀ call ∈ calls, call.isWrite = true) ∧
      Framing.decodeAll decodeResponse (calls.flatMap written) =
        some (xs.map fun x => document x.env x.path) := by
  refine ⟨_, handleAll_flatMap xs, ?_, ?_⟩
  · intro call hcall
    obtain ⟨x, -, rfl⟩ := List.mem_map.mp hcall
    rfl
  · rw [List.flatMap_map]
    exact decodeAll_responses xs

/-- A file system with one file, whose bytes look like the end of a head. -/
def oneFile : Environment :=
  { Environment.empty with
    stat := fun path => if path = bytes "./a" then some 6 else none
    file := fun _ => ⟨6, bytes "\r\n\r\nhi"⟩ }

theorem readable_oneFile (path : Bytes) : Readable oneFile path :=
  fun _ _ _ => ⟨Int.natCast_nonneg 6, (by decide : (6 : Int) ≤ kMaxFileSize)⟩

/-- A request for the file, cut in front of the target, in a header and in a chunk size. -/
def getFile : Exchange where
  message := chunkedRequest
  early := [(.empty, bytes "POST "), (.empty, bytes "/a?b HTTP/1.1\r\nHost: c\r\nTransfer-En"),
    (.empty, bytes "coding: chunked\r\n\r\n1")]
  env := oneFile
  last := bytes "\r\nd\r\n0\r\nE: f\r\n\r\n"
  storable := by decide +kernel
  nonempty := by decide
  text := by decide +kernel
  cuts := by decide +kernel
  readable := readable_oneFile _
  timeOfDay := ⟨by decide, by decide⟩

/-- The same request before there is such a file. -/
def getNothing : Exchange where
  message := chunkedRequest
  early := []
  env := .empty
  last := chunkedRequest.text
  storable := by decide +kernel
  nonempty := by decide +kernel
  text := by decide +kernel
  cuts := by decide +kernel
  readable _ hsize := nomatch hsize
  timeOfDay := ⟨by decide, by decide⟩

example : [getNothing, getFile].map (fun x => document x.env x.path) =
    [bytes "404 Not Found", bytes "\r\n\r\nhi"] := by decide +kernel

end Exchange

end QGServer
