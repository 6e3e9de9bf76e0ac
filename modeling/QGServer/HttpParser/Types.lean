-- SUMMARY: The state of http_parser, its enumerations and its character tables.
import QGServer.Util.Types

/-!
# http_parser: data

`struct http_parser` and the tables of `src/lib/http-parser`, as far as a
parser of type `HTTP_REQUEST` uses them: the states of responses, `F_SKIPBODY`
(the callback that would ask for it always returns 0) and lenient headers are
left out. The library is built with `HTTP_PARSER_STRICT`, its default.

A parser is a member of an `HTTPContext`, which feeds it strings whose length is
an `int`, so `nread` stays below `2 ^ 32`; `index` counts along the short
strings that headers are matched with.
-/

namespace QGServer

/-! ## Enumerations -/

/-- `enum http_method`. -/
inductive HttpMethod where
  | delete | get | head | post | put
  | connect | options | trace
  | copy | lock | mkcol | move | propfind | proppatch | search | unlock | bind | rebind | unbind | acl
  | report | mkactivity | checkout | merge
  | msearch | notify | subscribe | unsubscribe
  | patch | purge | mkcalendar | link | unlink | source
  deriving DecidableEq, Repr

/-- `method_strings`. -/
def HttpMethod.string : HttpMethod → Bytes
  | .delete => bytes "DELETE"
  | .get => bytes "GET"
  | .head => bytes "HEAD"
  | .post => bytes "POST"
  | .put => bytes "PUT"
  | .connect => bytes "CONNECT"
  | .options => bytes "OPTIONS"
  | .trace => bytes "TRACE"
  | .copy => bytes "COPY"
  | .lock => bytes "LOCK"
  | .mkcol => bytes "MKCOL"
  | .move => bytes "MOVE"
  | .propfind => bytes "PROPFIND"
  | .proppatch => bytes "PROPPATCH"
  | .search => bytes "SEARCH"
  | .unlock => bytes "UNLOCK"
  | .bind => bytes "BIND"
  | .rebind => bytes "REBIND"
  | .unbind => bytes "UNBIND"
  | .acl => bytes "ACL"
  | .report => bytes "REPORT"
  | .mkactivity => bytes "MKACTIVITY"
  | .checkout => bytes "CHECKOUT"
  | .merge => bytes "MERGE"
  | .msearch => bytes "M-SEARCH"
  | .notify => bytes "NOTIFY"
  | .subscribe => bytes "SUBSCRIBE"
  | .unsubscribe => bytes "UNSUBSCRIBE"
  | .patch => bytes "PATCH"
  | .purge => bytes "PURGE"
  | .mkcalendar => bytes "MKCALENDAR"
  | .link => bytes "LINK"
  | .unlink => bytes "UNLINK"
  | .source => bytes "SOURCE"

/-- The values of `enum http_errno` that a request can end with. -/
inductive HttpErrno where
  | ok
  | invalidEofState
  | headerOverflow
  | closedConnection
  | invalidVersion
  | invalidMethod
  | invalidUrl
  | lfExpected
  | invalidHeaderToken
  | invalidContentLength
  | unexpectedContentLength
  | invalidChunkSize
  | invalidTransferEncoding
  | invalidConstant
  | strict
  deriving DecidableEq, Repr

/-- `enum state`. -/
inductive ParserState where
  | dead
  | startReq
  | reqMethod
  | reqSpacesBeforeUrl
  | reqSchema
  | reqSchemaSlash
  | reqSchemaSlashSlash
  | reqServerStart
  | reqServer
  | reqServerWithAt
  | reqPath
  | reqQueryStringStart
  | reqQueryString
  | reqFragmentStart
  | reqFragment
  | reqHttpStart
  | reqHttpH
  | reqHttpHT
  | reqHttpHTT
  | reqHttpHTTP
  | reqHttpI
  | reqHttpIC
  | reqHttpMajor
  | reqHttpDot
  | reqHttpMinor
  | reqHttpEnd
  | reqLineAlmostDone
  | headerFieldStart
  | headerField
  | headerValueDiscardWs
  | headerValueDiscardWsAlmostDone
  | headerValueDiscardLws
  | headerValueStart
  | headerValue
  | headerValueLws
  | headerAlmostDone
  | chunkSizeStart
  | chunkSize
  | chunkParameters
  | chunkSizeAlmostDone
  | headersAlmostDone
  | headersDone
  | chunkData
  | chunkDataAlmostDone
  | chunkDataDone
  | bodyIdentity
  | messageDone
  deriving DecidableEq, Repr

/-- `PARSING_HEADER`: the states up to `s_headers_done`. -/
def ParserState.parsingHeader : ParserState → Bool
  | .chunkData | .chunkDataAlmostDone | .chunkDataDone | .bodyIdentity | .messageDone => false
  | _ => true

/-- `enum header_states`. -/
inductive HeaderState where
  | general
  | c
  | co
  | con
  | matchingConnection
  | matchingProxyConnection
  | matchingContentLength
  | matchingTransferEncoding
  | matchingUpgrade
  | connection
  | contentLength
  | contentLengthNum
  | contentLengthWs
  | transferEncoding
  | upgrade
  | matchingTransferEncodingTokenStart
  | matchingTransferEncodingChunked
  | matchingTransferEncodingToken
  | matchingConnectionTokenStart
  | matchingConnectionKeepAlive
  | matchingConnectionClose
  | matchingConnectionUpgrade
  | matchingConnectionToken
  | transferEncodingChunked
  | connectionKeepAlive
  | connectionClose
  | connectionUpgrade
  deriving DecidableEq, Repr

/-- The bits of `http_parser.flags`. -/
structure ParserFlags where
  chunked : Bool
  connectionKeepAlive : Bool
  connectionClose : Bool
  connectionUpgrade : Bool
  trailing : Bool
  upgrade : Bool
  contentLength : Bool
  transferEncoding : Bool
  deriving DecidableEq, Repr

/-- `flags = 0`. -/
def ParserFlags.zero : ParserFlags := ⟨false, false, false, false, false, false, false, false⟩

/-! ## The parser -/

/-- `struct http_parser`. -/
structure HttpParser where
  state : ParserState
  headerState : HeaderState
  index : Nat
  flags : ParserFlags
  nread : Nat
  contentLength : Nat
  httpMajor : Nat
  httpMinor : Nat
  method : HttpMethod
  httpErrno : HttpErrno
  upgrade : Bool
  deriving DecidableEq, Repr

/-- `http_parser_init(parser, HTTP_REQUEST)`: all members are zero but the state. -/
def HttpParser.init : HttpParser :=
  { state := .startReq, headerState := .general, index := 0, flags := .zero, nread := 0
    contentLength := 0, httpMajor := 0, httpMinor := 0, method := .delete, httpErrno := .ok
    upgrade := false }

/-- `ULLONG_MAX`, which stands for no content length. -/
def ullongMax : Nat := 2 ^ 64 - 1

/-- `HTTP_MAX_HEADER_SIZE`. -/
def maxHeaderSize : Nat := 80 * 1024

/-- `http_should_keep_alive`. A request never needs the end of file to end. -/
def HttpParser.shouldKeepAlive (p : HttpParser) : Bool :=
  if p.httpMajor > 0 && p.httpMinor > 0 then !p.flags.connectionClose
  else p.flags.connectionKeepAlive

/-- `http_body_is_final`. -/
def HttpParser.bodyIsFinal (p : HttpParser) : Bool := p.state == .messageDone

/-! ## Characters -/

/-- The byte of an ASCII character. -/
abbrev byte (c : Char) : UInt8 := c.toUInt8

abbrev CR : UInt8 := 13
abbrev LF : UInt8 := 10

/-- `LOWER`. -/
def lower (c : UInt8) : UInt8 := c ||| 0x20

/-- `IS_ALPHA`. -/
def isAlpha (c : UInt8) : Bool := byte 'a' ≤ lower c && lower c ≤ byte 'z'

/-- `IS_NUM`. -/
def isNum (c : UInt8) : Bool := byte '0' ≤ c && c ≤ byte '9'

/-- `IS_ALPHANUM`. -/
def isAlphanum (c : UInt8) : Bool := isAlpha c || isNum c

/-- `IS_HEX`. -/
def isHex (c : UInt8) : Bool := isNum c || (byte 'a' ≤ lower c && lower c ≤ byte 'f')

/-- `IS_MARK`. -/
def isMark (c : UInt8) : Bool := c ∈ bytes "-_.!~*'()"

/-- `IS_USERINFO_CHAR`. -/
def isUserinfoChar (c : UInt8) : Bool := isAlphanum c || isMark c || c ∈ bytes "%;:&=+$,"

/-- `IS_HOST_CHAR`. -/
def isHostChar (c : UInt8) : Bool := isAlphanum c || c ∈ bytes ".-"

/-- `normal_url_char`, 8 characters in a byte. The bytes that the initializer
    does not name are 0, so no character from 128 on is one. -/
def normalUrlChar : List UInt8 :=
  [0, 0, 0, 0,
   -- not a blank, not `#`, not `?`
   0xf6, 0xff, 0xff, 0x7f,
   0xff, 0xff, 0xff, 0xff,
   -- not the delete character
   0xff, 0xff, 0xff, 0x7f]

/-- `IS_URL_CHAR`, the bit of `normal_url_char` at `c`. -/
def isUrlChar (c : UInt8) : Bool :=
  (normalUrlChar.getD (c >>> 3).toNat 0 >>> (c &&& 7)) &&& 1 = 1

/-- `IS_HEADER_CHAR`. -/
def isHeaderChar (c : UInt8) : Bool := c = CR || c = LF || c = 9 || (31 < c && c ≠ 127)

/-- `tokens`: a token character in lower case, 0 for every other character. -/
def tokens : List UInt8 :=
  [0, 0, 0, 0, 0, 0, 0, 0,
   0, 0, 0, 0, 0, 0, 0, 0,
   0, 0, 0, 0, 0, 0, 0, 0,
   0, 0, 0, 0, 0, 0, 0, 0,
   -- blank to quote
   32, 33, 0, 35, 36, 37, 38, 39,
   0, 0, 42, 43, 0, 45, 46, 0,
   48, 49, 50, 51, 52, 53, 54, 55,
   56, 57, 0, 0, 0, 0, 0, 0,
   -- from `A` on, in lower case
   0, 97, 98, 99, 100, 101, 102, 103,
   104, 105, 106, 107, 108, 109, 110, 111,
   112, 113, 114, 115, 116, 117, 118, 119,
   120, 121, 122, 0, 0, 0, 94, 95,
   96, 97, 98, 99, 100, 101, 102, 103,
   104, 105, 106, 107, 108, 109, 110, 111,
   112, 113, 114, 115, 116, 117, 118, 119,
   120, 121, 122, 0, 124, 0, 126, 0]

/-- `TOKEN`, which is `STRICT_TOKEN` here. -/
def token (c : UInt8) : UInt8 := if c = byte ' ' then 0 else tokens.getD c.toNat 0

/-- `unhex`, with `none` for -1. The initializer names 128 of the 256 entries,
    and the others are 0. -/
def unhex (c : UInt8) : Option Nat :=
  if isNum c then some (c.toNat - 48)
  else if isHex c then some ((lower c).toNat - 87)
  else if 128 ≤ c then some 0
  else none

end QGServer
