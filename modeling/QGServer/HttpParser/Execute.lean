-- SUMMARY: http_parser_execute for requests: one handler for each state, the loop over a segment, and its callbacks.
import QGServer.Library.Pieces
import QGServer.HttpParser.Url

/-!
# http_parser_execute

The state machine of `src/lib/http-parser/http_parser.c`, one definition for each
`case` (or for a group of cases that share their text). `REEXECUTE` is the call
of the next handler on the same byte.

The loops inside `s_header_field` and `s_header_value` and the jumps over a body
are taken byte by byte. What this must keep of the inner loops is when the
header size is checked: `COUNT_HEADER_SIZE` runs for every byte of the outer
loop, but for the bytes of an inner loop only once at its end. So the machine
remembers whether it is in an inner loop.

The callbacks of an `HTTPContext` return 0 and leave the parser alone. They are
reported in the order of their calls, each with the parser as it is then.
-/

namespace QGServer

/-! ## Reports -/

/-- The callbacks with data, `on_` followed by the name. -/
inductive DataCallback where
  | url | headerField | headerValue | body
  deriving DecidableEq, Repr

/-- The callbacks without data. -/
inductive NotifyCallback where
  | messageBegin | headersComplete | messageComplete | chunkHeader | chunkComplete
  deriving DecidableEq, Repr

namespace HttpParser

abbrev Action := Pieces.Action DataCallback NotifyCallback HttpParser

/-- A call of a callback. -/
abbrev Event := Pieces.Event DataCallback NotifyCallback HttpParser

/-- The parser, and in an inner loop the number of bytes that the loop for
    general values has looked at. -/
abbrev Cursor := HttpParser × Option Nat

abbrev Outcome := Pieces.Outcome Cursor DataCallback NotifyCallback HttpParser

/-- Go on with the next byte in the outer loop. -/
def more (p : HttpParser) : Outcome := ⟨(p, none), [], .more⟩

/-- Go on with the next byte in an inner loop. -/
def within (n : Nat) (p : HttpParser) : Outcome := ⟨(p, some n), [], .more⟩

/-- `SET_ERRNO(e)` and leave. -/
def fail (e : HttpErrno) (p : HttpParser) : Outcome := ⟨({ p with httpErrno := e }, none), [], .error⟩

/-- Leave with the byte used. -/
def exit (p : HttpParser) : Outcome := ⟨(p, none), [], .exit⟩

/-- An action that comes first. -/
def before (a : Action) (o : Outcome) : Outcome := { o with actions := a :: o.actions }

/-- `UPDATE_STATE` and go on. -/
def goto (s : ParserState) (p : HttpParser) : Outcome := more { p with state := s }

/-- `CALLBACK_DATA`. -/
def callbackData (k : DataCallback) (p : HttpParser) : Outcome := before (.data k p) (more p)

/-- `CALLBACK_NOTIFY`. -/
def callbackNotify (n : NotifyCallback) (p : HttpParser) : Outcome := before (.notify n p) (more p)

/-- `STRICT_CHECK(ch != expected)`, and on to `s`. -/
def strictGoto (ch expected : UInt8) (s : ParserState) (p : HttpParser) : Outcome :=
  if ch ≠ expected then fail .strict p else goto s p

/-- `NEW_MESSAGE`. -/
def newMessage (p : HttpParser) : ParserState := if p.shouldKeepAlive then .startReq else .dead

/-! ## The request line -/

/-- The method that a first letter stands for until the second one is seen. -/
def startMethod (ch : UInt8) : Option HttpMethod :=
  ([('A', .acl), ('B', .bind), ('C', .connect), ('D', .delete), ('G', .get), ('H', .head),
    ('L', .lock), ('M', .mkcol), ('N', .notify), ('O', .options), ('P', .post), ('R', .report),
    ('S', .subscribe), ('T', .trace), ('U', .unlock)] : List (Char × HttpMethod)).lookup
      (Char.ofNat ch.toNat)

def startReq (p : HttpParser) (ch : UInt8) : Outcome :=
  if ch = CR || ch = LF then more p
  else
    let p := { p with flags := .zero, contentLength := ullongMax }
    if !isAlpha ch then fail .invalidMethod p
    else match startMethod ch with
    | none => fail .invalidMethod { p with method := .delete, index := 1 }
    | some m => callbackNotify .messageBegin { p with method := m, index := 1, state := .reqMethod }

/-- The method that takes over when the letter at a position is not the one of
    the method so far. -/
def methodSwitch : List ((HttpMethod × Nat × UInt8) × HttpMethod) :=
  [((.post, 1, byte 'U'), .put),
   ((.post, 1, byte 'A'), .patch),
   ((.post, 1, byte 'R'), .propfind),
   ((.put, 2, byte 'R'), .purge),
   ((.connect, 1, byte 'H'), .checkout),
   ((.connect, 2, byte 'P'), .copy),
   ((.mkcol, 1, byte 'O'), .move),
   ((.mkcol, 1, byte 'E'), .merge),
   ((.mkcol, 1, byte '-'), .msearch),
   ((.mkcol, 2, byte 'A'), .mkactivity),
   ((.mkcol, 3, byte 'A'), .mkcalendar),
   ((.subscribe, 1, byte 'E'), .search),
   ((.subscribe, 1, byte 'O'), .source),
   ((.report, 2, byte 'B'), .rebind),
   ((.propfind, 4, byte 'P'), .proppatch),
   ((.lock, 1, byte 'I'), .link),
   ((.unlock, 2, byte 'S'), .unsubscribe),
   ((.unlock, 2, byte 'B'), .unbind),
   ((.unlock, 3, byte 'I'), .unlink)]

def reqMethod (p : HttpParser) (ch : UInt8) : Outcome :=
  -- the terminating null of the C string
  let matched := p.method.string.getD p.index 0
  if ch = 0 then fail .invalidMethod p
  else if ch = byte ' ' && matched = 0 then
    more { p with state := .reqSpacesBeforeUrl, index := p.index + 1 }
  else if ch = matched then more { p with index := p.index + 1 }
  else if (byte 'A' ≤ ch && ch ≤ byte 'Z') || ch = byte '-' then
    match methodSwitch.lookup (p.method, p.index, ch) with
    | some m => more { p with method := m, index := p.index + 1 }
    | none => fail .invalidMethod p
  else fail .invalidMethod p

/-- A character of the URL, read from state `s`. -/
def urlChar (p : HttpParser) (s : ParserState) (ch : UInt8) : Outcome :=
  let s := parseUrlChar s ch
  if s = .dead then fail .invalidUrl { p with state := s } else goto s p

def reqSpacesBeforeUrl (p : HttpParser) (ch : UInt8) : Outcome :=
  if ch = byte ' ' then more p
  else before (.mark .url)
    (urlChar p (if p.method = .connect then .reqServerStart else .reqSpacesBeforeUrl) ch)

/-- `s_req_schema` to `s_req_server_start`, where the URL cannot end. -/
def reqSchema (p : HttpParser) (ch : UInt8) : Outcome :=
  if ch = byte ' ' || ch = CR || ch = LF then fail .invalidUrl p else urlChar p p.state ch

/-- `s_req_server` to `s_req_fragment`. -/
def reqUrl (p : HttpParser) (ch : UInt8) : Outcome :=
  if ch = byte ' ' then callbackData .url { p with state := .reqHttpStart }
  else if ch = CR || ch = LF then
    callbackData .url { p with
      httpMajor := 0, httpMinor := 9
      state := if ch = CR then .reqLineAlmostDone else .headerFieldStart }
  else urlChar p p.state ch

def reqHttpStart (p : HttpParser) (ch : UInt8) : Outcome :=
  if ch = byte ' ' then more p
  else if ch = byte 'H' then goto .reqHttpH p
  else if ch = byte 'I' && p.method = .source then goto .reqHttpI p
  else fail .invalidConstant p

def reqHttpMajor (p : HttpParser) (ch : UInt8) : Outcome :=
  if !isNum ch then fail .invalidVersion p
  else more { p with httpMajor := ch.toNat - 48, state := .reqHttpDot }

def reqHttpDot (p : HttpParser) (ch : UInt8) : Outcome :=
  if ch ≠ byte '.' then fail .invalidVersion p else goto .reqHttpMinor p

def reqHttpMinor (p : HttpParser) (ch : UInt8) : Outcome :=
  if !isNum ch then fail .invalidVersion p
  else more { p with httpMinor := ch.toNat - 48, state := .reqHttpEnd }

def reqHttpEnd (p : HttpParser) (ch : UInt8) : Outcome :=
  if ch = CR then goto .reqLineAlmostDone p
  else if ch = LF then goto .headerFieldStart p
  else fail .invalidVersion p

def reqLineAlmostDone (p : HttpParser) (ch : UInt8) : Outcome :=
  if ch ≠ LF then fail .lfExpected p else goto .headerFieldStart p

/-! ## The end of a message -/

def messageDone (p : HttpParser) : Outcome :=
  let p := { p with state := newMessage p }
  before (.notify .messageComplete p) (if p.upgrade then exit p else more p)

def headersDone (p : HttpParser) (ch : UInt8) : Outcome :=
  if ch ≠ LF then fail .strict p
  else
    let p := { p with nread := 0 }
    let hasBody := p.flags.chunked || (p.contentLength > 0 && p.contentLength ≠ ullongMax)
    let complete := { p with state := newMessage p }
    if p.upgrade && (p.method = .connect || !hasBody) then
      -- the rest of the message is in a different protocol
      before (.notify .messageComplete complete) (exit complete)
    else if p.flags.chunked then goto .chunkSizeStart p
    else if p.flags.transferEncoding then fail .invalidTransferEncoding p
    else if p.contentLength = 0 then callbackNotify .messageComplete complete
    else if p.contentLength ≠ ullongMax then goto .bodyIdentity p
    else callbackNotify .messageComplete complete

def headersAlmostDone (p : HttpParser) (ch : UInt8) : Outcome :=
  if ch ≠ LF then fail .strict p
  else if p.flags.trailing then
    let p := { p with state := .messageDone }
    before (.notify .chunkComplete p) (messageDone p)
  else if p.flags.transferEncoding && p.flags.contentLength then fail .unexpectedContentLength p
  else
    let p := { p with
      state := .headersDone
      upgrade := if p.flags.upgrade && p.flags.connectionUpgrade then true
        else p.method = .connect }
    before (.notify .headersComplete p) (headersDone p ch)

/-! ## Header names -/

/-- The state of a matcher that has `index` characters of `word` behind it and
    sees `c`. -/
def matchWord (word : Bytes) (index : Nat) (c : UInt8) (stay miss hit : HeaderState) : HeaderState :=
  if index > word.length || c ≠ word.getD index 0 then miss
  else if index = word.length - 1 then hit
  else stay

def headerFieldStart (p : HttpParser) (ch : UInt8) : Outcome :=
  if ch = CR then goto .headersAlmostDone p
  else if ch = LF then headersAlmostDone { p with state := .headersAlmostDone } ch
  else
    let c := token ch
    if c = 0 then fail .invalidHeaderToken p
    else
      before (.mark .headerField) (more { p with
        index := 0
        state := .headerField
        headerState :=
          if c = byte 'c' then .c
          else if c = byte 'p' then .matchingProxyConnection
          else if c = byte 't' then .matchingTransferEncoding
          else if c = byte 'u' then .matchingUpgrade
          else .general })

/-- The cases of `header_state` for a character of a header name, `c` in lower
    case. -/
def headerFieldChar (p : HttpParser) (ch c : UInt8) : HttpParser :=
  let index := p.index + 1
  let matching (word : String) (stay hit : HeaderState) : HttpParser :=
    { p with index := index, headerState := matchWord (bytes word) index c stay .general hit }
  match p.headerState with
  | .c => { p with index := index, headerState := if c = byte 'o' then .co else .general }
  | .co => { p with index := index, headerState := if c = byte 'n' then .con else .general }
  | .con =>
    { p with
      index := index
      headerState :=
        if c = byte 'n' then .matchingConnection
        else if c = byte 't' then .matchingContentLength
        else .general }
  | .matchingConnection => matching "connection" .matchingConnection .connection
  | .matchingProxyConnection => matching "proxy-connection" .matchingProxyConnection .connection
  | .matchingContentLength => matching "content-length" .matchingContentLength .contentLength
  | .matchingTransferEncoding =>
    let p := matching "transfer-encoding" .matchingTransferEncoding .transferEncoding
    if p.headerState = .transferEncoding then
      { p with flags := { p.flags with transferEncoding := true } }
    else p
  | .matchingUpgrade => matching "upgrade" .matchingUpgrade .upgrade
  | .connection | .contentLength | .transferEncoding | .upgrade =>
    if ch ≠ byte ' ' then { p with headerState := .general } else p
  | _ => p

def headerField (p : HttpParser) (ch : UInt8) : Outcome :=
  let c := token ch
  if c ≠ 0 then within 0 (headerFieldChar p ch c)
  -- the loop has ended, and its bytes are counted
  else if p.nread > maxHeaderSize then fail .headerOverflow p
  else if ch = byte ':' then callbackData .headerField { p with state := .headerValueDiscardWs }
  else fail .invalidHeaderToken p

/-! ## Header values -/

/-- The cases of `header_state` for the first character of a value. -/
def headerValueFirst (p : HttpParser) (ch : UInt8) : Except HttpErrno HttpParser :=
  let c := lower ch
  match p.headerState with
  | .upgrade => .ok { p with flags := { p.flags with upgrade := true }, headerState := .general }
  | .transferEncoding =>
    .ok { p with
      headerState := if c = byte 'c' then .matchingTransferEncodingChunked
        else .matchingTransferEncodingToken }
  | .matchingTransferEncodingTokenStart | .contentLengthWs | .matchingConnectionTokenStart => .ok p
  | .contentLength =>
    if !isNum ch then .error .invalidContentLength
    else if p.flags.contentLength then .error .unexpectedContentLength
    else .ok { p with
      flags := { p.flags with contentLength := true }
      contentLength := ch.toNat - 48
      headerState := .contentLengthNum }
  | .connection =>
    .ok { p with
      headerState :=
        if c = byte 'k' then .matchingConnectionKeepAlive
        else if c = byte 'c' then .matchingConnectionClose
        else if c = byte 'u' then .matchingConnectionUpgrade
        else .matchingConnectionToken }
  | _ => .ok { p with headerState := .general }

def headerValueStart (p : HttpParser) (ch : UInt8) : Outcome :=
  before (.mark .headerValue)
    (match headerValueFirst { p with state := .headerValue, index := 0 } ch with
    | .ok p => more p
    | .error e => fail e { p with state := .headerValue, index := 0 })

def headerValueDiscardWs (p : HttpParser) (ch : UInt8) : Outcome :=
  if ch = byte ' ' || ch = 9 then more p
  else if ch = CR then goto .headerValueDiscardWsAlmostDone p
  else if ch = LF then goto .headerValueDiscardLws p
  else headerValueStart p ch

/-- Another digit of the content length. -/
def contentLengthDigit (p : HttpParser) (ch : UInt8) : Except HttpErrno HttpParser :=
  if ch = byte ' ' then .ok { p with headerState := .contentLengthWs }
  else if !isNum ch then .error .invalidContentLength
  else if (ullongMax - 10) / 10 < p.contentLength then .error .invalidContentLength
  else .ok { p with
    contentLength := p.contentLength * 10 + (ch.toNat - 48), headerState := .contentLengthNum }

/-- The flag of a connection token that is complete. -/
def setFlag (h : HeaderState) (f : ParserFlags) : ParserFlags :=
  match h with
  | .connectionKeepAlive => { f with connectionKeepAlive := true }
  | .connectionClose => { f with connectionClose := true }
  | .connectionUpgrade => { f with connectionUpgrade := true }
  | .transferEncodingChunked => { f with chunked := true }
  | _ => f

/-- The cases of `h_state` for a character of a value. -/
def headerValueChar (p : HttpParser) (ch : UInt8) : Except HttpErrno HttpParser :=
  let c := lower ch
  let matching (word : String) (stay miss hit : HeaderState) : HttpParser :=
    { p with
      index := p.index + 1
      headerState := matchWord (bytes word) (p.index + 1) c stay miss hit }
  match p.headerState with
  | .general => .ok p
  | .connection | .transferEncoding => .ok p
  | .contentLength => if ch = byte ' ' then .ok p else contentLengthDigit p ch
  | .contentLengthNum => contentLengthDigit p ch
  | .contentLengthWs => if ch = byte ' ' then .ok p else .error .invalidContentLength
  | .matchingTransferEncodingTokenStart =>
    .ok { p with
      headerState :=
        if c = byte 'c' then .matchingTransferEncodingChunked
        else if token c ≠ 0 then .matchingTransferEncodingToken
        else if c = byte ' ' || c = 9 then .matchingTransferEncodingTokenStart
        else .general }
  | .matchingTransferEncodingChunked =>
    .ok (matching "chunked" .matchingTransferEncodingChunked .matchingTransferEncodingToken
      .transferEncodingChunked)
  | .matchingTransferEncodingToken =>
    if ch = byte ',' then
      .ok { p with headerState := .matchingTransferEncodingTokenStart, index := 0 }
    else .ok p
  | .matchingConnectionTokenStart =>
    .ok { p with
      headerState :=
        if c = byte 'k' then .matchingConnectionKeepAlive
        else if c = byte 'c' then .matchingConnectionClose
        else if c = byte 'u' then .matchingConnectionUpgrade
        else if token c ≠ 0 then .matchingConnectionToken
        else if c = byte ' ' || c = 9 then .matchingConnectionTokenStart
        else .general }
  | .matchingConnectionKeepAlive =>
    .ok (matching "keep-alive" .matchingConnectionKeepAlive .matchingConnectionToken
      .connectionKeepAlive)
  | .matchingConnectionClose =>
    .ok (matching "close" .matchingConnectionClose .matchingConnectionToken .connectionClose)
  | .matchingConnectionUpgrade =>
    .ok (matching "upgrade" .matchingConnectionUpgrade .matchingConnectionToken .connectionUpgrade)
  | .matchingConnectionToken =>
    if ch = byte ',' then .ok { p with headerState := .matchingConnectionTokenStart, index := 0 }
    else .ok p
  | .transferEncodingChunked =>
    if ch ≠ byte ' ' then .ok { p with headerState := .matchingTransferEncodingToken } else .ok p
  | .connectionKeepAlive | .connectionClose | .connectionUpgrade =>
    if ch = byte ',' then
      .ok { p with
        flags := setFlag p.headerState p.flags
        headerState := .matchingConnectionTokenStart, index := 0 }
    else if ch ≠ byte ' ' then .ok { p with headerState := .matchingConnectionToken }
    else .ok p
  | _ => .ok { p with headerState := .general }

def headerAlmostDone (p : HttpParser) (ch : UInt8) : Outcome :=
  if ch ≠ LF then fail .lfExpected p else goto .headerValueLws p

/-- `inner` is the number of bytes that the loop for general values has looked at
    since it began. When it has looked at `max_header_size` of them it ends
    behind the last one, and the loop around it skips a byte. -/
def headerValue (p : HttpParser) (inner : Option Nat) (ch : UInt8) : Outcome :=
  if p.headerState = .general && inner = some maxHeaderSize then within 0 p
  else if ch = CR then
    let p := { p with state := .headerAlmostDone }
    before (.data .headerValue p)
      (if p.nread > maxHeaderSize then fail .headerOverflow p else more p)
  else if ch = LF then
    let p := { p with state := .headerAlmostDone }
    if p.nread > maxHeaderSize then fail .headerOverflow p
    else before (.data .headerValue p) (headerAlmostDone p ch)
  else if !isHeaderChar ch then fail .invalidHeaderToken p
  else match headerValueChar p ch with
  | .ok p' => within (if p.headerState = .general then inner.getD 0 + 1 else 0) p'
  | .error e => fail e p

def headerValueLws (p : HttpParser) (ch : UInt8) : Outcome :=
  if ch = byte ' ' || ch = 9 then
    headerValueStart
      { p with
        -- obsolete line folding counts as a blank
        headerState := if p.headerState = .contentLengthNum then .contentLengthWs else p.headerState
        state := .headerValueStart } ch
  else headerFieldStart
    { p with flags := setFlag p.headerState p.flags, state := .headerFieldStart } ch

def headerValueDiscardLws (p : HttpParser) (ch : UInt8) : Outcome :=
  if ch = byte ' ' || ch = 9 then goto .headerValueDiscardWs p
  -- an empty content length is not allowed
  else if p.headerState = .contentLength then fail .invalidContentLength p
  else
    -- the value was empty
    let p := { p with flags := setFlag p.headerState p.flags, state := .headerFieldStart }
    before (.mark .headerValue) (before (.data .headerValue p) (headerFieldStart p ch))

/-! ## Bodies -/

def bodyIdentity (p : HttpParser) : Outcome :=
  let p := { p with contentLength := p.contentLength - 1 }
  before (.mark .body)
    (if p.contentLength = 0 then
      let p := { p with state := .messageDone }
      before (.dataTo .body p) (messageDone p)
    else more p)

def chunkSizeStart (p : HttpParser) (ch : UInt8) : Outcome :=
  match unhex ch with
  | none => fail .invalidChunkSize p
  | some v => more { p with contentLength := v, state := .chunkSize }

def chunkSize (p : HttpParser) (ch : UInt8) : Outcome :=
  if ch = CR then goto .chunkSizeAlmostDone p
  else match unhex ch with
  | none =>
    if ch = byte ';' || ch = byte ' ' then goto .chunkParameters p else fail .invalidChunkSize p
  | some v =>
    if (ullongMax - 16) / 16 < p.contentLength then fail .invalidContentLength p
    else more { p with contentLength := p.contentLength * 16 + v }

def chunkParameters (p : HttpParser) (ch : UInt8) : Outcome :=
  if ch = CR then goto .chunkSizeAlmostDone p else more p

def chunkSizeAlmostDone (p : HttpParser) (ch : UInt8) : Outcome :=
  if ch ≠ LF then fail .strict p
  else
    let p := { p with nread := 0 }
    callbackNotify .chunkHeader
      (if p.contentLength = 0 then
        { p with flags := { p.flags with trailing := true }, state := .headerFieldStart }
      else { p with state := .chunkData })

def chunkData (p : HttpParser) : Outcome :=
  let p := { p with contentLength := p.contentLength - 1 }
  before (.mark .body)
    (if p.contentLength = 0 then goto .chunkDataAlmostDone p else more p)

def chunkDataAlmostDone (p : HttpParser) (ch : UInt8) : Outcome :=
  if ch ≠ CR then fail .strict p else callbackData .body { p with state := .chunkDataDone }

def chunkDataDone (p : HttpParser) (ch : UInt8) : Outcome :=
  if ch ≠ LF then fail .strict p
  else callbackNotify .chunkComplete { p with nread := 0, state := .chunkSizeStart }

/-! ## The loop -/

def dead (p : HttpParser) (ch : UInt8) : Outcome :=
  if ch = CR || ch = LF then more p else fail .closedConnection p

/-- The `switch` over the states. -/
def dispatch (p : HttpParser) (inner : Option Nat) (ch : UInt8) : Outcome :=
  match p.state with
  | .dead => p.dead ch
  | .startReq => p.startReq ch
  | .reqMethod => p.reqMethod ch
  | .reqSpacesBeforeUrl => p.reqSpacesBeforeUrl ch
  | .reqSchema | .reqSchemaSlash | .reqSchemaSlashSlash | .reqServerStart => p.reqSchema ch
  | .reqServer | .reqServerWithAt | .reqPath | .reqQueryStringStart | .reqQueryString
  | .reqFragmentStart | .reqFragment => p.reqUrl ch
  | .reqHttpStart => p.reqHttpStart ch
  | .reqHttpH => p.strictGoto ch (byte 'T') .reqHttpHT
  | .reqHttpHT => p.strictGoto ch (byte 'T') .reqHttpHTT
  | .reqHttpHTT => p.strictGoto ch (byte 'P') .reqHttpHTTP
  | .reqHttpHTTP => p.strictGoto ch (byte '/') .reqHttpMajor
  | .reqHttpI => p.strictGoto ch (byte 'C') .reqHttpIC
  | .reqHttpIC => p.strictGoto ch (byte 'E') .reqHttpHTTP
  | .reqHttpMajor => p.reqHttpMajor ch
  | .reqHttpDot => p.reqHttpDot ch
  | .reqHttpMinor => p.reqHttpMinor ch
  | .reqHttpEnd => p.reqHttpEnd ch
  | .reqLineAlmostDone => p.reqLineAlmostDone ch
  | .headerFieldStart => p.headerFieldStart ch
  | .headerField => p.headerField ch
  | .headerValueDiscardWs => p.headerValueDiscardWs ch
  | .headerValueDiscardWsAlmostDone => p.strictGoto ch LF .headerValueDiscardLws
  | .headerValueDiscardLws => p.headerValueDiscardLws ch
  | .headerValueStart => p.headerValueStart ch
  | .headerValue => p.headerValue inner ch
  | .headerValueLws => p.headerValueLws ch
  | .headerAlmostDone => p.headerAlmostDone ch
  | .chunkSizeStart => p.chunkSizeStart ch
  | .chunkSize => p.chunkSize ch
  | .chunkParameters => p.chunkParameters ch
  | .chunkSizeAlmostDone => p.chunkSizeAlmostDone ch
  | .headersAlmostDone => p.headersAlmostDone ch
  | .headersDone => p.headersDone ch
  | .chunkData => p.chunkData
  | .chunkDataAlmostDone => p.chunkDataAlmostDone ch
  | .chunkDataDone => p.chunkDataDone ch
  | .bodyIdentity => p.bodyIdentity
  | .messageDone => p.messageDone

/-- One byte. A byte of an inner loop is counted, but not checked yet. -/
def onByte (c : Cursor) (ch : UInt8) : Outcome :=
  let (p, inner) := c
  if p.state.parsingHeader then
    let p := { p with nread := p.nread + 1 }
    if inner.isNone && p.nread > maxHeaderSize then fail .headerOverflow p else p.dispatch inner ch
  else p.dispatch none ch

/-- The mark that is set again at the start of a segment. -/
def resumed : ParserState → Option DataCallback
  | .headerField => some .headerField
  | .headerValue => some .headerValue
  | .reqPath | .reqSchema | .reqSchemaSlash | .reqSchemaSlashSlash | .reqServerStart | .reqServer
  | .reqServerWithAt | .reqQueryStringStart | .reqQueryString | .reqFragmentStart
  | .reqFragment => some .url
  | _ => none

/-- The parser after a call, the callbacks it made and the value it returned. -/
structure Executed where
  parser : HttpParser
  events : List Event
  nparsed : Nat

/-- The end of a call with `length` bytes, behind its loop. -/
def finish (length : Nat) (r : Pieces.Scan Cursor DataCallback NotifyCallback HttpParser) :
    Executed :=
  let (p, inner) := r.state
  match r.next with
  | .exit | .error => ⟨p, r.events, r.count⟩
  | .more =>
    if inner.isSome && p.nread > maxHeaderSize then
      ⟨{ p with httpErrno := .headerOverflow }, r.events, length - 1⟩
    else ⟨p, r.events ++ Pieces.leftover r.marked p, length⟩

/-- `http_parser_execute`. -/
def execute (p : HttpParser) (data : Bytes) : Executed :=
  if p.httpErrno ≠ .ok then ⟨p, [], 0⟩
  else if data = [] then
    if p.state = .dead || p.state = .startReq then ⟨p, [], 0⟩
    else ⟨{ p with httpErrno := .invalidEofState }, [], 1⟩
  else
    finish data.length (Pieces.scan onByte (p, none) ((resumed p.state).map fun k => (k, [])) data)

end HttpParser

end QGServer
