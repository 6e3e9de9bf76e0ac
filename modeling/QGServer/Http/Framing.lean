-- SUMMARY: What a client reads back from a stream of responses: the head up to the first blank line, and Content-Length bytes.
import QGServer.Http.Server
import QGServer.Library.Framing

/-!
# Response framing

`toString` writes lines of its own, among them the length of the body, in front
of the headers that were set. A client that goes by the first blank line and the
first `Content-Length` header finds the body, whatever bytes it is made of.
-/

namespace QGServer

/-! ## Numbers -/

/-- The number that digits stand for. -/
def digitsValue (s : Bytes) : Nat := s.foldl (fun n ch => 10 * n + (ch.toNat - (byte '0').toNat)) 0

/-- A decimal number. -/
def decimal (s : Bytes) : Option Nat := if s ≠ [] ∧ s.all isNum then some (digitsValue s) else none

theorem toNat_toUInt8 {c : Char} (h : c.isDigit = true) : c.toUInt8.toNat = c.toNat := by
  have hle : c.toNat ≤ '9'.toNat := (Char.isDigit_iff_toNat.mp h).2
  have hlt : c.toNat < 2 ^ 8 := hle.trans_lt (by decide)
  exact (UInt32.toNat_toUInt8 c.val).trans (Nat.mod_eq_of_lt hlt)

theorem isNum_toUInt8 {c : Char} (h : c.isDigit = true) : isNum c.toUInt8 = true := by
  obtain ⟨hge, hle⟩ := Char.isDigit_iff_toNat.mp h
  unfold isNum
  rw [Bool.and_eq_true, decide_eq_true_eq, decide_eq_true_eq, UInt8.le_iff_toNat_le,
    UInt8.le_iff_toNat_le, toNat_toUInt8 h]
  exact ⟨hge, hle⟩

theorem digitsValue_map {cs : List Char} (h : ∀ c ∈ cs, c.isDigit = true) :
    digitsValue (cs.map Char.toUInt8) = Nat.ofDigitChars 10 cs 0 := by
  unfold digitsValue
  rw [Nat.ofDigitChars_eq_foldl, List.foldl_map]
  generalize 0 = n
  induction cs generalizing n with
  | nil => rfl
  | cons c cs ih =>
      rw [List.forall_mem_cons] at h
      rw [List.foldl_cons, List.foldl_cons, toNat_toUInt8 h.1]
      exact ih h.2 _

/-- A number that is printed is read back. -/
theorem decimal_repr (n : Nat) : decimal (bytes (Nat.repr n)) = some n := by
  unfold decimal bytes
  rw [Nat.toList_repr]
  have hdigits : ∀ c ∈ Nat.toDigits 10 n, c.isDigit = true := fun c hc =>
    Nat.isDigit_of_mem_toDigits (by decide) le_rfl hc
  rw [if_pos, digitsValue_map hdigits, Nat.ofDigitChars_ten_toDigits]
  refine ⟨fun hnil => Nat.toDigits_ne_nil (List.map_eq_nil_iff.mp hnil), ?_⟩
  rw [List.all_map, List.all_eq_true]
  exact fun c hc => isNum_toUInt8 (hdigits c hc)

/-! ## The client -/

/-- Header names are compared without regard to case. -/
def lowerName (name : Bytes) : Bytes := name.map fun ch => if isAlpha ch then lower ch else ch

/-- The value in a header line, if the line has this name. -/
def headerValue (name line : Bytes) : Option Bytes :=
  (Framing.cutAt [byte ':'] line).bind fun (field, value) =>
    if lowerName field = name then some (value.dropWhile (· = byte ' ')) else none

/-- The first `Content-Length` header of a head, behind the status line. -/
def contentLength (head : Bytes) : Option Nat :=
  ((Framing.splitLines CR LF head).tail.findSome? (headerValue (bytes "content-length"))).bind decimal

/-- Cut the head off, and as many bytes as it says. -/
def decodeResponse (s : Bytes) : Option (Bytes × Bytes) := do
  let (head, rest) ← Framing.cutAt [CR, LF, CR, LF] s
  let n ← contentLength head
  if n ≤ rest.length then some (rest.take n, rest.drop n) else none

section HeaderValue

variable {name field value : Bytes}

theorem headerValue_append (hfield : byte ':' ∉ field) :
    headerValue name (field ++ byte ':' :: value) =
      if lowerName field = name then some (value.dropWhile (· = byte ' ')) else none := by
  unfold headerValue
  have hself : Framing.cutAt [byte ':'] (byte ':' :: value) = some ([], value) :=
    Framing.cutAt_append_self (List.cons_ne_nil _ _)
  rw [Framing.cutAt_append_of_notMem hfield, hself]
  simp

end HeaderValue

/-! ## Building a response -/

/-- A call that builds a response. -/
inductive ResponseCall where
  | setStatus (code : Int)
  | setHeader (field value : Bytes)
  | setContent (content : Bytes)

/-- The text holds no CR and no LF. -/
def Plain (s : Bytes) : Prop := CR ∉ s ∧ LF ∉ s

instance (s : Bytes) : Decidable (Plain s) := inferInstanceAs (Decidable (_ ∧ _))

theorem Plain.append {s t : Bytes} (hs : Plain s) (ht : Plain t) : Plain (s ++ t) := by
  unfold Plain at *
  simp [hs, ht]

namespace ResponseCall

def apply (r : HTTPResponse) : ResponseCall → HTTPResponse
  | setStatus code => r.setStatus code
  | setHeader field value => r.setHeader field value
  | setContent content => r.setContent content

/-- Names and values of headers hold no CR and no LF. -/
def Plain : ResponseCall → Prop
  | setHeader field value => QGServer.Plain field ∧ QGServer.Plain value
  | _ => True

instance : DecidablePred Plain := fun call => by
  cases call <;> unfold Plain <;> infer_instance

end ResponseCall

namespace HTTPResponse

/-- The response that some calls build. -/
def build (calls : List ResponseCall) : HTTPResponse := calls.foldl ResponseCall.apply .new

/-- The body that `toString` writes. -/
def body (r : HTTPResponse) : Bytes := if r.content = [] then r.status else r.content

/-- The lines that `toString` puts in front of the headers. -/
def ownLines (date : Bytes) (r : HTTPResponse) : List Bytes :=
  [bytes "HTTP/1.1 " ++ r.status, bytes "Server: QG Server (MacOs)", bytes "Date: " ++ date,
    bytes "Content-Type: text/html", bytes "Connection: keep-alive",
    bytes "Content-Length: " ++ bytes (Nat.repr r.body.length)]

/-- The status is part of a line, and the headers are lines. -/
structure Framed (r : HTTPResponse) (ls : List Bytes) : Prop where
  status : CR ∉ r.status
  headers : r.headers = ls.flatMap (· ++ [CR, LF])
  lines : ∀ l ∈ ls, CR ∉ l ∧ l ≠ []

variable {r : HTTPResponse} {ls : List Bytes}

theorem framed_new : Framed .new [] := ⟨by decide, rfl, by simp⟩

theorem Framed.apply {call : ResponseCall} (h : r.Framed ls) (hcall : call.Plain) :
    ∃ ls', (call.apply r).Framed ls' := by
  cases call with
  | setStatus code =>
      refine ⟨ls, ?_, h.headers, h.lines⟩
      simp only [ResponseCall.apply, setStatus]
      split_ifs <;> decide
  | setContent content => exact ⟨ls, h.status, h.headers, h.lines⟩
  | setHeader field value =>
      obtain ⟨⟨hfield, -⟩, ⟨hvalue, -⟩⟩ := hcall
      refine ⟨ls ++ [field ++ bytes ": " ++ value], h.status, ?_, ?_⟩
      · rw [List.flatMap_append, List.flatMap_singleton, ← h.headers]
        simp only [ResponseCall.apply, setHeader, List.append_assoc]
        rfl
      · intro l hl
        rcases List.mem_append.mp hl with hl | hl
        · exact h.lines l hl
        · rw [List.mem_singleton.mp hl]
          have hcolon : CR ∉ bytes ": " := by decide
          refine ⟨by simp [hfield, hvalue, hcolon], ?_⟩
          simp [bytes]

theorem framed_build {calls : List ResponseCall} (h : ∀ call ∈ calls, call.Plain) :
    ∃ ls, (build calls).Framed ls := by
  have hfold : ∀ r, (∃ ls, Framed r ls) → ∃ ls, (calls.foldl ResponseCall.apply r).Framed ls := by
    induction calls with
    | nil => exact fun r hr => hr
    | cons call calls ih =>
        rw [List.forall_mem_cons] at h
        exact fun r ⟨ls, hr⟩ => ih h.2 _ (hr.apply h.1)
  exact hfold _ ⟨[], framed_new⟩

/-- What `toString` writes: lines, a blank line, and the body. -/
theorem toString_eq (date : Bytes) (h : r.Framed ls) :
    r.toString date =
      [CR, LF].intercalate (r.ownLines date ++ ls) ++ [CR, LF, CR, LF] ++ r.body := by
  have hne : r.ownLines date ++ ls ≠ [] := by simp [ownLines]
  have hlines := @Framing.flatMap_append_eq_intercalate _ [CR, LF] _ hne
  have hcrlf : ([CR, LF, CR, LF] : Bytes) = [CR, LF] ++ [CR, LF] := rfl
  rw [hcrlf, ← List.append_assoc, ← hlines, List.flatMap_append, ← h.headers]
  have hbody : (if r.content = [] then r.status.length else r.content.length) = r.body.length := by
    unfold body
    split <;> rfl
  have hend : bytes "\r\n" = [CR, LF] := rfl
  have hserver : bytes "Server: QG Server (MacOs)\r\n" =
      bytes "Server: QG Server (MacOs)" ++ [CR, LF] := by decide
  have htype : bytes "Content-Type: text/html\r\n" =
      bytes "Content-Type: text/html" ++ [CR, LF] := by decide
  have hconnection : bytes "Connection: keep-alive\r\n" =
      bytes "Connection: keep-alive" ++ [CR, LF] := by decide
  unfold toString
  simp only [hbody, hend, hserver, htype, hconnection]
  simp only [ownLines, List.flatMap_cons, List.flatMap_nil, List.append_assoc, List.append_nil]
  simp only [body]

theorem statusLine_prefix (date : Bytes) (r : HTTPResponse) :
    bytes "HTTP/1.1 " ++ r.status ++ bytes "\r\n" <+: r.toString date := by
  unfold toString
  simp only [List.append_assoc, List.prefix_append_right_inj]
  exact List.prefix_append _ _

theorem isNum_of_mem_digits {n : Nat} {ch : UInt8} (h : ch ∈ bytes (Nat.repr n)) :
    isNum ch = true := by
  unfold bytes at h
  rw [Nat.toList_repr] at h
  obtain ⟨c, hc, rfl⟩ := List.mem_map.mp h
  exact isNum_toUInt8 (Nat.isDigit_of_mem_toDigits (by decide) le_rfl hc)

theorem ownLines_plain {date : Bytes} (hstatus : CR ∉ r.status) (hdate : CR ∉ date) :
    ∀ l ∈ r.ownLines date, CR ∉ l ∧ l ≠ [] := by
  have hdigits : CR ∉ bytes (Nat.repr r.body.length) :=
    fun hmem => absurd (isNum_of_mem_digits hmem) (by decide)
  have hfirst : CR ∉ bytes "HTTP/1.1 " := by decide
  have hname : CR ∉ bytes "Date: " := by decide
  have hlength : CR ∉ bytes "Content-Length: " := by decide
  simp only [ownLines, List.forall_mem_cons, List.mem_append, not_or, hstatus, hdate, hdigits,
    hfirst, hname, hlength, not_false_eq_true, and_self, true_and, List.not_mem_nil,
    IsEmpty.forall_iff, implies_true, and_true]
  refine ⟨?_, ⟨?_, ?_⟩, ?_, ⟨?_, ?_⟩, ⟨?_, ?_⟩, ?_⟩
  all_goals first
    | decide
    | exact List.append_ne_nil_of_left_ne_nil (by decide) _

/-- No other line in front of the headers is named `Content-Length`. -/
theorem findSome_ownLines (date : Bytes) (ls : List Bytes) :
    ((r.ownLines date ++ ls).tail.findSome? (headerValue (bytes "content-length"))) =
      some (bytes (Nat.repr r.body.length)) := by
  have hline : ∀ {line rest field value}, line = field ++ byte ':' :: value → byte ':' ∉ field →
      lowerName field ≠ bytes "content-length" →
      (line :: rest).findSome? (headerValue (bytes "content-length")) =
        rest.findSome? (headerValue (bytes "content-length")) := by
    intro line rest field value hline hfield hname
    rw [List.findSome?_cons, hline, headerValue_append hfield, if_neg hname]
  have hdigits : (bytes (Nat.repr r.body.length)).dropWhile (· = byte ' ') =
      bytes (Nat.repr r.body.length) := by
    cases hds : bytes (Nat.repr r.body.length) with
    | nil => rfl
    | cons ch ds =>
        refine List.dropWhile_cons_of_neg fun hspace => ?_
        have hnum : isNum ch = true := isNum_of_mem_digits (hds ▸ List.mem_cons_self)
        rw [of_decide_eq_true hspace] at hnum
        exact absurd hnum (by decide)
  have hserver : bytes "Server: QG Server (MacOs)" =
      bytes "Server" ++ byte ':' :: bytes " QG Server (MacOs)" := by decide
  have hdate : bytes "Date: " ++ date = bytes "Date" ++ byte ':' :: byte ' ' :: date := by
    have hsplit : bytes "Date: " = bytes "Date" ++ [byte ':', byte ' '] := by decide
    rw [hsplit, List.append_assoc]
    rfl
  have htype : bytes "Content-Type: text/html" =
      bytes "Content-Type" ++ byte ':' :: bytes " text/html" := by decide
  have hconnection : bytes "Connection: keep-alive" =
      bytes "Connection" ++ byte ':' :: bytes " keep-alive" := by decide
  have hlast : bytes "Content-Length: " ++ bytes (Nat.repr r.body.length) =
      bytes "Content-Length" ++ byte ':' :: (byte ' ' :: bytes (Nat.repr r.body.length)) := by
    have hsplit : bytes "Content-Length: " = bytes "Content-Length" ++ [byte ':', byte ' '] := by
      decide
    rw [hsplit, List.append_assoc]
    rfl
  rw [ownLines, List.cons_append, List.tail_cons]
  simp only [List.cons_append, List.nil_append]
  rw [hline hserver (by decide) (by decide), hline hdate (by decide) (by decide),
    hline htype (by decide) (by decide), hline hconnection (by decide) (by decide)]
  have hname : lowerName (bytes "Content-Length") = bytes "content-length" := by decide
  rw [List.findSome?_cons, hlast, headerValue_append (by decide), if_pos hname,
    List.dropWhile_cons_of_pos (by decide), hdigits]

/-- The client takes the response off the stream and gets its body. -/
theorem decodeResponse_toString {date : Bytes} (h : r.Framed ls) (hdate : CR ∉ date) (rest : Bytes) :
    decodeResponse (r.toString date ++ rest) = some (r.body, rest) := by
  have hlines : ∀ l ∈ r.ownLines date ++ ls, CR ∉ l ∧ l ≠ [] := by
    intro l hl
    exact (List.mem_append.mp hl).elim (ownLines_plain h.status hdate l) (h.lines l)
  have hne : r.ownLines date ++ ls ≠ [] := by simp [ownLines]
  have hcut : Framing.cutAt [CR, LF, CR, LF]
      ([CR, LF].intercalate (r.ownLines date ++ ls) ++ [CR, LF, CR, LF] ++ (r.body ++ rest)) =
        some ([CR, LF].intercalate (r.ownLines date ++ ls), r.body ++ rest) :=
    Framing.cutAt_blank (by decide) hne hlines
  have hlength : contentLength ([CR, LF].intercalate (r.ownLines date ++ ls)) =
      some r.body.length := by
    unfold contentLength
    rw [Framing.splitLines_intercalate hne fun l hl => (hlines l hl).1, findSome_ownLines]
    exact decimal_repr _
  unfold decodeResponse
  rw [toString_eq date h, List.append_assoc _ r.body, hcut]
  simp only [Option.bind_eq_bind, Option.bind_some, hlength]
  rw [if_pos (by simp), List.take_left, List.drop_left]

/-- A stream of responses comes apart into their bodies. -/
theorem decodeAll_toString (responses : List (Bytes × List ResponseCall))
    (hdate : ∀ r ∈ responses, Plain r.1) (hcalls : ∀ r ∈ responses, ∀ call ∈ r.2, call.Plain) :
    Framing.decodeAll decodeResponse (responses.flatMap fun r => (build r.2).toString r.1) =
      some (responses.map fun r => (build r.2).body) := by
  refine Framing.decodeAll_flatMap (fun r _ => ?_) fun r hr rest => ?_
  · intro hnil
    have hline := statusLine_prefix r.1 (build r.2)
    rw [hnil, List.prefix_nil, List.append_eq_nil_iff] at hline
    exact absurd hline.2 (by decide)
  · obtain ⟨ls, hframed⟩ := framed_build (hcalls r hr)
    exact decodeResponse_toString hframed (hdate r hr).1 rest

/-- One response has a content that looks like the end of a head, the other none. -/
theorem decodeAll_toString_two :
    Framing.decodeAll decodeResponse
        ([(bytes "today", [.setStatus 200, .setHeader (bytes "A") [], .setContent (bytes "x\r\n\r\ny")]),
          (bytes "today", [ResponseCall.setStatus 404])].flatMap fun r => (build r.2).toString r.1) =
      some [bytes "x\r\n\r\ny", bytes "404 Not Found"] :=
  decodeAll_toString
    [(bytes "today", [.setStatus 200, .setHeader (bytes "A") [], .setContent (bytes "x\r\n\r\ny")]),
      (bytes "today", [.setStatus 404])] (by decide) (by decide)

end HTTPResponse

end QGServer
