-- SUMMARY: Requests as a client writes them: the request line, the header lines, and a body with a length or in chunks.
import QGServer.Library.Reading
import QGServer.HttpParser.Segments

/-!
# Messages

What a request is for, apart from the parser: a method, a target, header lines,
and perhaps a body, which is announced by one of the lines. `Message.text` writes
one, and `Message.reports` says what a reader is to be told of it.

Of the headers the parser itself looks at, `HeaderLine` has the ones that a
client without upgrades needs. The bounds are those of a parser that has to read
any number of messages one after another.
-/

namespace QGServer

open HttpParser

/-! ## Numerals -/

/-- A number as text, in base 10 or 16. -/
def numeral (base n : Nat) : Bytes := (Nat.toDigits base n).map Char.toUInt8

/-! ## Header lines -/

/-- A line of a head. -/
inductive HeaderLine where
  | field (name value : Bytes)
  /-- The connection stays open. -/
  | keepAlive
  /-- The connection is closed. -/
  | close
  | contentLength (n : Nat)
  /-- The body comes in chunks. -/
  | chunked
  deriving DecidableEq, Repr

/-- What is behind the head of a message. -/
inductive Framing where
  | length (n : Nat)
  | chunked
  deriving DecidableEq, Repr

namespace HeaderLine

def name : HeaderLine → Bytes
  | field name _ => name
  | keepAlive | close => bytes "Connection"
  | contentLength _ => bytes "Content-Length"
  | chunked => bytes "Transfer-Encoding"

def value : HeaderLine → Bytes
  | field _ value => value
  | keepAlive => bytes "keep-alive"
  | close => bytes "close"
  | contentLength n => numeral 10 n
  | chunked => bytes "chunked"

def text (l : HeaderLine) : Bytes := l.name ++ bytes ": " ++ l.value ++ [CR, LF]

/-- What the line says about the body. -/
def framing : HeaderLine → Option Framing
  | contentLength n => some (.length n)
  | chunked => some .chunked
  | _ => none

end HeaderLine

/-- The names of the headers that the parser looks at, but for `Transfer-Encoding`. -/
def knownNames : List Bytes :=
  [bytes "connection", bytes "proxy-connection", bytes "content-length", bytes "upgrade"]

/-- A header name without a meaning for the parser. It takes every name that
    begins with `Transfer-Encoding` for that header. -/
structure PlainName (name : Bytes) : Prop where
  ne_nil : name ≠ []
  token : ∀ ch ∈ name, token ch ≠ 0
  unknown : name.map QGServer.token ∉ knownNames
  notTransferEncoding : ¬ bytes "transfer-encoding" <+: name.map QGServer.token

-- not by a search through all bytes
instance (name : Bytes) : Decidable (PlainName name) :=
  have : Decidable (∀ ch ∈ name, token ch ≠ 0) := List.decidableBAll (fun ch => token ch ≠ 0) name
  decidable_of_iff (name ≠ [] ∧ (∀ ch ∈ name, token ch ≠ 0) ∧ name.map QGServer.token ∉ knownNames ∧
      ¬ bytes "transfer-encoding" <+: name.map QGServer.token)
    ⟨fun h => ⟨h.1, h.2.1, h.2.2.1, h.2.2.2⟩, fun h => ⟨h.1, h.2, h.3, h.4⟩⟩

/-- A character of a header value. -/
def isValueChar (ch : UInt8) : Bool := ch ≠ CR && ch ≠ LF && isHeaderChar ch

/-- A header value, which does not begin with a blank. -/
structure PlainValue (value : Bytes) : Prop where
  chars : ∀ ch ∈ value, isValueChar ch = true
  head : ∀ ch ∈ value.head?, ch ≠ byte ' ' ∧ ch ≠ 9

instance (value : Bytes) : Decidable (PlainValue value) :=
  have : Decidable (∀ ch ∈ value, isValueChar ch = true) := List.decidableBAll (isValueChar · = true) value
  have : Decidable (∀ ch ∈ value.head?, ch ≠ byte ' ' ∧ ch ≠ 9) := Option.decidableForallMem value.head?
  decidable_of_iff ((∀ ch ∈ value, isValueChar ch = true) ∧
      ∀ ch ∈ value.head?, ch ≠ byte ' ' ∧ ch ≠ 9)
    ⟨fun h => ⟨h.1, h.2⟩, fun h => ⟨h.1, h.2⟩⟩

/-- A header that may stand in any message. -/
def PlainField (f : Bytes × Bytes) : Prop := PlainName f.1 ∧ PlainValue f.2

instance (f : Bytes × Bytes) : Decidable (PlainField f) := inferInstanceAs (Decidable (_ ∧ _))

/-- The line is one of a well-formed head. -/
def HeaderLine.Proper : HeaderLine → Prop
  | field name value => PlainField (name, value)
  | _ => True

instance : DecidablePred HeaderLine.Proper := fun l => by
  cases l <;> unfold HeaderLine.Proper <;> infer_instance

/-! ## Bodies -/

/-- No body is longer than what a size can be of. -/
def bodyLimit : Nat := 2 ^ 63

inductive MessageBody where
  | empty
  | sized (content : Bytes)
  | chunks (chunks : List Bytes) (trailers : List (Bytes × Bytes))
  deriving DecidableEq, Repr

/-- A chunk with its size and the line end behind it. -/
def chunkText (chunk : Bytes) : Bytes := numeral 16 chunk.length ++ [CR, LF] ++ chunk ++ [CR, LF]

/-- The lines of headers. -/
def fieldsText (fields : List (Bytes × Bytes)) : Bytes :=
  (fields.map fun f => HeaderLine.field f.1 f.2).flatMap HeaderLine.text

namespace MessageBody

def text : MessageBody → Bytes
  | empty => []
  | sized content => content
  | chunks cs trailers =>
    cs.flatMap chunkText ++ (bytes "0" ++ [CR, LF]) ++ fieldsText trailers ++ [CR, LF]

/-- What the head has to say about the body. -/
def framing : MessageBody → List Framing
  | empty => []
  | sized content => [.length content.length]
  | chunks _ _ => [.chunked]

def Proper : MessageBody → Prop
  | empty => True
  | sized content => content.length < bodyLimit
  | chunks cs trailers =>
    (∀ c ∈ cs, c ≠ [] ∧ c.length < bodyLimit) ∧ (∀ f ∈ trailers, PlainField f) ∧
      (fieldsText trailers).length + 2 ≤ maxHeaderSize / 2

instance : DecidablePred Proper := fun b => by
  cases b <;> unfold Proper <;> infer_instance

end MessageBody

/-! ## Messages -/

/-- The states in which a URL can end. -/
def isUrlEnd : ParserState → Bool
  | .reqServer | .reqServerWithAt | .reqPath | .reqQueryStringStart | .reqQueryString
  | .reqFragmentStart | .reqFragment => true
  | _ => false

def versionText (httpMajor httpMinor : Nat) : Bytes :=
  bytes "HTTP/" ++ [UInt8.ofNat (48 + httpMajor), byte '.', UInt8.ofNat (48 + httpMinor)]

def requestLine (method : HttpMethod) (target : Bytes) (httpMajor httpMinor : Nat) : Bytes :=
  method.string ++ bytes " " ++ (target ++ bytes " ") ++ (versionText httpMajor httpMinor ++ [CR, LF])

/-- The head of a message: the request line, lines, and a line end. -/
def headText (method : HttpMethod) (target : Bytes) (httpMajor httpMinor : Nat)
    (lines : List HeaderLine) : Bytes :=
  requestLine method target httpMajor httpMinor ++ lines.flatMap HeaderLine.text ++ [CR, LF]

/-- A well-formed request. The lines announce the body. -/
structure Message where
  method : HttpMethod
  target : Bytes
  httpMajor : Nat
  httpMinor : Nat
  lines : List HeaderLine
  body : MessageBody
  /-- The end of a `CONNECT` request is the end of HTTP. -/
  method_ne : method ≠ .connect
  target_ends : isUrlEnd (target.foldl parseUrlChar .reqSpacesBeforeUrl) = true
  httpMajor_lt : httpMajor < 10
  httpMinor_lt : httpMinor < 10
  lines_proper : ∀ l ∈ lines, l.Proper
  framing : lines.filterMap HeaderLine.framing = body.framing
  body_proper : body.Proper
  /-- What is left of the header size behind the trailers of another message. -/
  head_le : (headText method target httpMajor httpMinor lines).length ≤ maxHeaderSize / 2

/-- What a reader learns from a head as a whole. -/
structure Head where
  method : HttpMethod
  httpMajor : Nat
  httpMinor : Nat
  keepAlive : Bool
  deriving DecidableEq, Repr

/-- An element of a message; the one with the URL shows the method. -/
inductive Element where
  | url (method : HttpMethod)
  | headerField
  | headerValue
  | body
  deriving DecidableEq, Repr

/-- A notice, with the head where it is complete. -/
abbrev Notice := NotifyCallback × Option Head

abbrev Report := Pieces.Report Element Notice

def HeaderLine.reports (l : HeaderLine) : List Report :=
  [.data .headerField l.name, .data .headerValue l.value]

def chunkReports (chunk : Bytes) : List Report :=
  [.notice (.chunkHeader, none), .data .body chunk, .notice (.chunkComplete, none)]

def MessageBody.reports : MessageBody → List Report
  | empty => []
  | sized content => if content = [] then [] else [.data .body content]
  | chunks cs trailers =>
    cs.flatMap chunkReports ++ [.notice (.chunkHeader, none)] ++
      (trailers.map fun f => HeaderLine.field f.1 f.2).flatMap HeaderLine.reports ++
      [.notice (.chunkComplete, none)]

namespace Message

def text (m : Message) : Bytes :=
  headText m.method m.target m.httpMajor m.httpMinor m.lines ++ m.body.text

/-- The connection stays open behind the message. -/
def keepAlive (m : Message) : Bool :=
  if m.httpMajor > 0 && m.httpMinor > 0 then HeaderLine.close ∉ m.lines
  else HeaderLine.keepAlive ∈ m.lines

def head (m : Message) : Head := ⟨m.method, m.httpMajor, m.httpMinor, m.keepAlive⟩

def reports (m : Message) : List Report :=
  [.notice (.messageBegin, none), .data (.url m.method) m.target] ++ m.lines.flatMap HeaderLine.reports ++
    [.notice (.headersComplete, some m.head)] ++ m.body.reports ++
    [.notice (.messageComplete, none)]

end Message

end QGServer
