-- SUMMARY: HTTPResponse, the default file handler, and HTTPServer's callbacks as user code of a connection.
import QGServer.Core.Session
import QGServer.Http.Context

/-!
# HTTPServer

`src/core/http/http_response.{h,cpp}` and `http_server.{h,cpp}`. What a callback
takes from outside is an `Environment`: the file system, the time of day, and how
large a file fits into memory.
-/

namespace QGServer

/-! ## Responses -/

/-- `HTTPResponse`, without the file name, which nothing reads. -/
structure HTTPResponse where
  status : Bytes
  headers : Bytes
  content : Bytes
  deriving DecidableEq, Repr

namespace HTTPResponse

def new : HTTPResponse := ⟨[], [], []⟩

def setStatus (code : Int) (r : HTTPResponse) : HTTPResponse :=
  { r with
    status :=
      if code = 200 then bytes "200 OK"
      else if code = 404 then bytes "404 Not Found"
      else if code = 400 then bytes "400 Bad Request"
      else if code = 405 then bytes "405 Method is not allowed"
      else if code = 413 then bytes "413 Payload Too Large"
      else if code = 505 then bytes "505 Version Not Supported"
      else bytes "500 Internal Server Error" }

def setHeader (field value : Bytes) (r : HTTPResponse) : HTTPResponse :=
  { r with headers := r.headers ++ (field ++ bytes ": ") ++ (value ++ bytes "\r\n") }

def setContent (content : Bytes) (r : HTTPResponse) : HTTPResponse := { r with content := content }

/-- `toString`, at the time `date`. -/
def toString (date : Bytes) (r : HTTPResponse) : Bytes :=
  let contentLen := if r.content = [] then r.status.length else r.content.length
  bytes "HTTP/1.1 " ++ r.status ++ bytes "\r\n" ++
  bytes "Server: QG Server (MacOs)\r\n" ++
  bytes "Date: " ++ date ++ bytes "\r\n" ++
  bytes "Content-Type: text/html\r\n" ++
  bytes "Connection: keep-alive\r\n" ++
  bytes "Content-Length: " ++ bytes (Nat.repr contentLen) ++ bytes "\r\n" ++
  r.headers ++
  bytes "\r\n" ++
  (if r.content = [] then r.status else r.content)

end HTTPResponse

/-! ## Files -/

/-- An `ifstream` opened at its end: the value of `tellg`, and the bytes that
    `read` gives from the start. -/
structure FileStream where
  tellg : Int
  data : Bytes
  deriving Repr

def HTTPServer.kMaxFileSize : Int := 100 * 1024 * 1024

/-- What a callback takes from outside. Other allocations are not looked at: they are
    for what is no larger. -/
structure Environment where
  /-- `st_size`, if `stat` succeeds. -/
  stat : Bytes → Option Int
  file : Bytes → FileStream
  timeOfDay : Bytes
  /-- The size of the largest file that there is memory for. -/
  memory : Int
  enough : HTTPServer.kMaxFileSize ≤ memory

/-- All paths are those of one file, if there is one. -/
def Environment.one (stat : Option Int) (file : FileStream) (timeOfDay : Bytes) : Environment :=
  { stat := fun _ => stat, file := fun _ => file, timeOfDay := timeOfDay
    memory := HTTPServer.kMaxFileSize, enough := le_rfl }

/-- A file system without files, when the clock reads 0. -/
def Environment.empty : Environment := .one none ⟨-1, []⟩ (bytes "Thu Jan  1 00:00:00 1970 GMT")

/-- `readFile`. A negative size is larger than any vector can be. The end of a directory
    may be at `2 ^ 63 - 1`, which is larger than any memory. -/
def readFile (env : Environment) (fileName : Bytes) : Except Fault Bytes :=
  let ifs := env.file fileName
  if ifs.tellg < 0 then .error .lengthError
  else if env.memory < ifs.tellg then .error .badAlloc
  else .ok ((ifs.data ++ List.replicate ifs.tellg.toNat 0).take ifs.tellg.toNat)

/-! ## HTTPServer -/

namespace HTTPServer

/-- The path of the file that is served for a request path. -/
def filePath (requestPath : Bytes) : Bytes := bytes "." ++ requestPath

def defaultHandleRequest (env : Environment) (request : HTTPRequest) (response : HTTPResponse) :
    Except Fault HTTPResponse :=
  let path := filePath request.requestPath
  let response := response.setHeader (bytes "FilePath") path
  match env.stat path with
  | none => .ok (response.setStatus 404)
  | some size =>
    if size > kMaxFileSize then
      .ok ((response.setStatus 401).setContent (bytes "file size up to server bound"))
    else (readFile env path).map fun content => (response.setStatus 200).setContent content

/-- What `handleMessageCome` writes for a request. -/
def answer (env : Environment) (request : HTTPRequest) : Except Fault Bytes :=
  (defaultHandleRequest env request .new).map (HTTPResponse.toString env.timeOfDay)

/-- `handleMessageCome` with the value of `parse`. -/
def handleParsed (env : Environment) (context : HTTPContext) (nparse : Int) :
    Except Fault (HTTPContext × List Call) :=
  if nparse < 0 then .ok (context, [.shutdown])
  else if context.request.messageIsEnd then
    (answer env context.request).map fun response => (context.reset, [.write response])
  else .ok (context, [])

def handleMessageCome (env : Environment) (readBuf : Bytes) (context : HTTPContext) :
    Except Fault (HTTPContext × List Call) := do
  let r ← context.parse readBuf
  handleParsed env r.1 r.2

def handleWriteComplete (context : HTTPContext) : List Call :=
  if context.parser.shouldKeepAlive then [] else [.shutdown]

/-- `any_cast` of the connection's context. -/
def withContext {α : Type*} (f : HTTPContext → Except Fault α) : Option HTTPContext → Except Fault α
  | some context => f context
  | none => .error .badAnyCast

/-- The callbacks that the constructor sets. -/
def userCode : UserCode (Option HTTPContext) Environment where
  connectionCome _ _ := .ok (some .new, [])
  message env readBuf := withContext fun context => do
    let (context, calls) ← handleMessageCome env readBuf context
    return (some context, calls)
  writeComplete _ _ := withContext fun context => .ok (some context, handleWriteComplete context)

/-! ## What a segment leads to -/

section Handled

variable {env : Environment} {readBuf : Bytes} {c c' : HTTPContext} {n : Int}

/-- `handleMessageCome` returns: the segment was refused, or a request is answered,
    or more of it is needed. -/
inductive Handled (env : Environment) (readBuf : Bytes) (c : HTTPContext) :
    HTTPContext → List Call → Prop where
  | refused (c' : HTTPContext) (n : Int) (hparse : c.parse readBuf = .ok (c', n)) (hn : n < 0) :
      Handled env readBuf c c' [.shutdown]
  | answered (c' : HTTPContext) (n : Int) (response : Bytes)
      (hparse : c.parse readBuf = .ok (c', n)) (hn : 0 ≤ n)
      (hend : c'.request.messageIsEnd = true) (hanswer : answer env c'.request = .ok response) :
      Handled env readBuf c .new [.write response]
  | waits (c' : HTTPContext) (n : Int) (hparse : c.parse readBuf = .ok (c', n)) (hn : 0 ≤ n)
      (hend : c'.request.messageIsEnd = false) : Handled env readBuf c c' []

theorem handleMessageCome_ok (h : c.parse readBuf = .ok (c', n)) :
    handleMessageCome env readBuf c = handleParsed env c' n := by
  unfold handleMessageCome
  rw [h]
  rfl

theorem handleMessageCome_error {f : Fault} (h : c.parse readBuf = .error f) :
    handleMessageCome env readBuf c = .error f := by
  unfold handleMessageCome
  rw [h]
  rfl

theorem handled {calls : List Call} (h : handleMessageCome env readBuf c = .ok (c', calls)) :
    Handled env readBuf c c' calls := by
  cases hparse : c.parse readBuf with
  | error f =>
      rw [handleMessageCome_error hparse] at h
      cases h
  | ok r =>
      obtain ⟨c₁, n⟩ := r
      rw [handleMessageCome_ok hparse] at h
      unfold handleParsed at h
      split_ifs at h with hn hend
      · cases h
        exact .refused _ n hparse hn
      · generalize hanswer : answer env c₁.request = r at h
        cases r with
        | error f => cases h
        | ok response =>
            cases h
            exact .answered _ n response hparse (Int.not_lt.mp hn) hend hanswer
      · cases h
        exact .waits _ n hparse (Int.not_lt.mp hn) (Bool.eq_false_of_not_eq_true hend)

/-- Only a file without a size, or with too large a one, keeps a request from being
    answered. -/
theorem answer_error {request : HTTPRequest} {f : Fault} (h : answer env request = .error f) :
    f = .lengthError ∨ f = .badAlloc := by
  unfold answer defaultHandleRequest at h
  dsimp only at h
  split at h
  · cases h
  · split_ifs at h
    · cases h
    · unfold readFile at h
      dsimp only at h
      split_ifs at h
      · cases h
        exact .inl rfl
      · cases h
        exact .inr rfl
      · cases h

/-- The calls of a message callback: one at most. -/
theorem Handled.calls_le {calls : List Call} (h : Handled env readBuf c c' calls) :
    calls.length ≤ 1 := by
  cases h <;> simp

theorem handleWriteComplete_cases (c : HTTPContext) :
    c.parser.shouldKeepAlive = true ∧ handleWriteComplete c = [] ∨
      c.parser.shouldKeepAlive = false ∧ handleWriteComplete c = [.shutdown] := by
  unfold handleWriteComplete
  cases c.parser.shouldKeepAlive <;> simp

theorem withContext_some {α : Type*} (f : HTTPContext → Except Fault α) (c : HTTPContext) :
    withContext f (some c) = f c := rfl

/-- The message callback puts the context back. -/
theorem userCode_message (context : Option HTTPContext) :
    userCode.message env readBuf context =
      withContext (fun c => (handleMessageCome env readBuf c).map fun r => (some r.1, r.2))
        context := by
  have hbind : ∀ r : Except Fault (HTTPContext × List Call),
      (do let (context, calls) ← r; return (some context, calls)) =
        r.map fun r => (some r.1, r.2) := by
    intro r
    cases r <;> rfl
  rw [← funext fun c => hbind (handleMessageCome env readBuf c)]
  simp only [userCode]

theorem message_ok {context context' : Option HTTPContext} {calls : List Call}
    (h : userCode.message env readBuf context = .ok (context', calls)) :
    ∃ c c', context = some c ∧ context' = some c' ∧ Handled env readBuf c c' calls := by
  cases context with
  | none => cases h
  | some c =>
      rw [userCode_message, withContext_some] at h
      generalize hcome : handleMessageCome env readBuf c = r at h
      cases r with
      | error f => cases h
      | ok r =>
          cases h
          exact ⟨c, r.1, rfl, rfl, handled hcome⟩

theorem writeComplete_ok {context context' : Option HTTPContext} {calls : List Call}
    (h : userCode.writeComplete env readBuf context = .ok (context', calls)) :
    ∃ c, context = some c ∧ context' = some c ∧ calls = handleWriteComplete c := by
  cases context with
  | none => cases h
  | some c =>
      cases h
      exact ⟨c, rfl, rfl, rfl⟩

theorem connectionCome_ok {context context' : Option HTTPContext} {calls : List Call}
    (h : userCode.connectionCome env context = .ok (context', calls)) :
    context' = some .new ∧ calls = [] := by
  cases h
  exact ⟨rfl, rfl⟩

end Handled

end HTTPServer

end QGServer
