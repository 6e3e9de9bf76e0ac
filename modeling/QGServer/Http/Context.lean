-- SUMMARY: HTTPRequest, the parser callbacks that fill it, and HTTPContext, which feeds the parser.
import QGServer.HttpParser.Execute

/-!
# HTTPContext

`src/core/http/http_request.h` and `http_context.{h,cpp}`. A callback gives the
request it leaves, or it ends the process.

Of an `HTTPRequest` the fields that nothing reads are left out, and so is the
parser's pointer back to its context.
-/

namespace QGServer

/-! ## Requests -/

/-- `last_header_element`. The constructor leaves it uninitialised; until the
    first header `none` and `field` make no difference, since `last_filed_value` is
    empty. -/
inductive HeaderElement where
  | none | field | value
  deriving DecidableEq, Repr

structure HTTPRequest where
  method : Option HttpMethod
  requestPath : Bytes
  requestUrl : Bytes
  fragment : Bytes
  queryString : Bytes
  body : Bytes
  lastHeaderElement : HeaderElement
  headers : List (Bytes × Bytes)
  lastFiledValue : Bytes × Bytes
  bodyIsFinal : Bool
  messageIsEnd : Bool
  deriving DecidableEq, Repr

/-- A `std::map`, which keeps the value that a key has. -/
def emplace (headers : List (Bytes × Bytes)) (field : Bytes × Bytes) : List (Bytes × Bytes) :=
  if headers.any fun h => h.1 = field.1 then headers else headers ++ [field]

namespace HTTPRequest

def new : HTTPRequest :=
  { method := none, requestPath := [], requestUrl := [], fragment := [], queryString := []
    body := [], lastHeaderElement := .none, headers := [], lastFiledValue := ([], [])
    bodyIsFinal := false, messageIsEnd := false }

/-! ## Callbacks -/

/-- `target.append(url, off, len)`. -/
def appendSubStr (target url : Bytes) (span : UrlSpan) : Except Fault Bytes :=
  if span.off ≤ url.length then .ok (target ++ span.text url) else .error .outOfRange

/-- `fillURLSubStr`. -/
def fillURLSubStr (r : HTTPRequest) (u : HttpParserUrl) (field : UrlField) :
    Except Fault HTTPRequest :=
  let fill (target : Bytes) (set : Bytes → HTTPRequest) : Except Fault HTTPRequest :=
    match u field with
    | some span => (appendSubStr target r.requestUrl span).map set
    | none => .ok r
  match field with
  | .query => fill r.queryString fun s => { r with queryString := s }
  | .fragment => fill r.fragment fun s => { r with fragment := s }
  | .path => fill r.requestPath fun s => { r with requestPath := s }
  | _ => .error .abort

def urlCallBack (p : HttpParser) (buf : Bytes) (r : HTTPRequest) : Except Fault HTTPRequest :=
  let r := { r with requestUrl := r.requestUrl ++ buf }
  match parseUrl r.requestUrl false with
  | none => .error .abort
  | some u =>
    [UrlField.query, .fragment, .path].foldlM (fun r field => r.fillURLSubStr u field)
      { r with method := some p.method }

def headerFieldCallBack (buf : Bytes) (r : HTTPRequest) : HTTPRequest :=
  let r :=
    if r.lastHeaderElement ≠ .field then
      { r with
        headers := if r.lastFiledValue.1 ≠ [] then emplace r.headers r.lastFiledValue else r.headers
        lastFiledValue := ([], []) }
    else r
  { r with
    lastFiledValue := (r.lastFiledValue.1 ++ buf, r.lastFiledValue.2), lastHeaderElement := .field }

def headerValueCallBack (buf : Bytes) (r : HTTPRequest) : HTTPRequest :=
  { r with
    lastFiledValue := (r.lastFiledValue.1, r.lastFiledValue.2 ++ buf), lastHeaderElement := .value }

/-- `isBodyFinal`. -/
def markBodyFinal (p : HttpParser) (r : HTTPRequest) : Except Fault HTTPRequest :=
  if r.bodyIsFinal then .error .abort else .ok { r with bodyIsFinal := p.bodyIsFinal }

def bodyCallBack (p : HttpParser) (buf : Bytes) (r : HTTPRequest) : Except Fault HTTPRequest :=
  markBodyFinal p { r with body := r.body ++ buf }

def headerCompleteCallBack (r : HTTPRequest) : HTTPRequest :=
  if r.lastFiledValue.2 ≠ [] then { r with headers := emplace r.headers r.lastFiledValue } else r

def messageCompleteCallBack (r : HTTPRequest) : HTTPRequest :=
  { r.headerCompleteCallBack with messageIsEnd := true }

/-- `defaultParserSettig`. -/
def callBack (r : HTTPRequest) : HttpParser.Event → Except Fault HTTPRequest
  | .data .url p buf => r.urlCallBack p buf
  | .data .headerField _ buf => .ok (r.headerFieldCallBack buf)
  | .data .headerValue _ buf => .ok (r.headerValueCallBack buf)
  | .data .body p buf => r.bodyCallBack p buf
  | .notify .headersComplete _ => .ok r.headerCompleteCallBack
  | .notify .messageComplete _ => .ok r.messageCompleteCallBack
  -- `defaultTriggerCallBack`
  | .notify .messageBegin _ | .notify .chunkHeader _ | .notify .chunkComplete _ => .ok r

/-- The callbacks of one call of the parser, up to the one that does not return. -/
def callBacks (r : HTTPRequest) (es : List HttpParser.Event) : Except Fault HTTPRequest :=
  es.foldlM callBack r

end HTTPRequest

/-! ## Contexts -/

structure HTTPContext where
  parser : HttpParser
  request : HTTPRequest
  deriving DecidableEq, Repr

namespace HTTPContext

def new : HTTPContext := ⟨.init, .new⟩

def reset (_ : HTTPContext) : HTTPContext := ⟨.init, .new⟩

/-- `parse` with the size as an `int`. -/
def parseLen (data : Bytes) (len : Int) (c : HTTPContext) : Except Fault (HTTPContext × Int) :=
  let r := c.parser.execute (data.take len.toNat)
  (c.request.callBacks r.events).map fun request => (⟨r.parser, request⟩,
    if (r.nparsed : Int) ≠ len ∨ r.parser.httpErrno ≠ .ok then -1 else r.nparsed)

/-- `HTTPContext::parse`: the context it leaves and its value. A negative size would
    make the parser compute an address far behind the string, unless it returns at
    once. -/
def parse (data : Bytes) (c : HTTPContext) : Except Fault (HTTPContext × Int) :=
  if toInt data.length < 0 ∧ c.parser.httpErrno = .ok then .error .overrun
  else c.parseLen data (toInt data.length)

end HTTPContext

end QGServer
