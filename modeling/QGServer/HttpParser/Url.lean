-- SUMMARY: The URL parser of http_parser: the character machine, the host machine and http_parser_parse_url.
import Mathlib.Logic.Function.Basic
import QGServer.HttpParser.Types

/-!
# URLs

`parse_url_char`, which `http_parser_execute` validates a URL with, and
`http_parser_parse_url`, which cuts a URL into its fields with the same machine.
The offsets and lengths of the fields are `uint16_t`. `u->port` is left out:
nothing reads it.
-/

namespace QGServer

/-! ## Characters of a URL -/

/-- The cases of `parse_url_char` for the server part. -/
def parseServerChar (ch : UInt8) : ParserState :=
  if ch = byte '/' then .reqPath
  else if ch = byte '?' then .reqQueryStringStart
  else if ch = byte '@' then .reqServerWithAt
  else if isUserinfoChar ch || ch = byte '[' || ch = byte ']' then .reqServer
  else .dead

/-- `parse_url_char`. -/
def parseUrlChar (s : ParserState) (ch : UInt8) : ParserState :=
  if ch = byte ' ' || ch = CR || ch = LF || ch = 9 || ch = 12 then .dead
  else match s with
  | .reqSpacesBeforeUrl =>
    if ch = byte '/' || ch = byte '*' then .reqPath
    else if isAlpha ch then .reqSchema
    else .dead
  | .reqSchema =>
    if isAlpha ch then .reqSchema
    else if ch = byte ':' then .reqSchemaSlash
    else .dead
  | .reqSchemaSlash => if ch = byte '/' then .reqSchemaSlashSlash else .dead
  | .reqSchemaSlashSlash => if ch = byte '/' then .reqServerStart else .dead
  | .reqServerWithAt => if ch = byte '@' then .dead else parseServerChar ch
  | .reqServerStart | .reqServer => parseServerChar ch
  | .reqPath =>
    if isUrlChar ch then .reqPath
    else if ch = byte '?' then .reqQueryStringStart
    else if ch = byte '#' then .reqFragmentStart
    else .dead
  | .reqQueryStringStart | .reqQueryString =>
    if isUrlChar ch then .reqQueryString
    -- an extra `?` is part of the query
    else if ch = byte '?' then .reqQueryString
    else if ch = byte '#' then .reqFragmentStart
    else .dead
  | .reqFragmentStart =>
    if isUrlChar ch then .reqFragment
    else if ch = byte '?' then .reqFragment
    else if ch = byte '#' then .reqFragmentStart
    else .dead
  | .reqFragment =>
    if isUrlChar ch || ch = byte '?' || ch = byte '#' then .reqFragment else .dead
  | _ => .dead

/-! ## Fields -/

/-- `enum http_parser_url_fields`. -/
inductive UrlField where
  | schema | host | port | path | query | fragment | userinfo
  deriving DecidableEq, Repr

/-- An entry of `field_data`, both members `uint16_t`. -/
structure UrlSpan where
  off : Nat
  len : Nat
  deriving DecidableEq, Repr

/-- A value stored in a `uint16_t`. -/
def toUint16 (n : Nat) : Nat := n % 2 ^ 16

/-- `struct http_parser_url`: the entry of a field is there if its bit in
    `field_set` is. -/
abbrev HttpParserUrl := UrlField → Option UrlSpan

namespace HttpParserUrl

/-- `http_parser_parse_url` clears `field_set`. -/
def empty : HttpParserUrl := fun _ => none

/-- Begin field `uf` at position `i`. -/
def begin (u : HttpParserUrl) (uf : UrlField) (i : Nat) : HttpParserUrl :=
  Function.update u uf (some ⟨toUint16 i, 1⟩)

/-- `field_data[uf].len++`. -/
def grow (u : HttpParserUrl) (uf : UrlField) : HttpParserUrl :=
  Function.update u uf ((u uf).map fun span => { span with len := toUint16 (span.len + 1) })

end HttpParserUrl

/-- The text of `buf` at an entry of `field_data`. -/
def UrlSpan.text (span : UrlSpan) (buf : Bytes) : Bytes := (buf.drop span.off).take span.len

/-! ## Hosts -/

/-- `enum http_host_state`. -/
inductive HostState where
  | dead
  | userinfoStart
  | userinfo
  | hostStart
  | hostV6Start
  | host
  | hostV6
  | hostV6End
  | hostV6ZoneStart
  | hostV6Zone
  | hostPortStart
  | hostPort
  deriving DecidableEq, Repr

/-- The zone identifier of a host. -/
def parseZoneChar (ch : UInt8) : HostState :=
  if isAlphanum ch || ch ∈ bytes "%.-_~" then .hostV6Zone else .dead

/-- `http_parse_host_char`. -/
def parseHostChar (s : HostState) (ch : UInt8) : HostState :=
  match s with
  | .userinfo | .userinfoStart =>
    if ch = byte '@' then .hostStart
    else if isUserinfoChar ch then .userinfo
    else .dead
  | .hostStart =>
    if ch = byte '[' then .hostV6Start
    else if isHostChar ch then .host
    else .dead
  | .host =>
    if isHostChar ch then .host
    else if ch = byte ':' then .hostPortStart
    else .dead
  | .hostV6End => if ch = byte ':' then .hostPortStart else .dead
  | .hostV6 =>
    if ch = byte ']' then .hostV6End
    else if isHex ch || ch = byte ':' || ch = byte '.' then .hostV6
    else if ch = byte '%' then .hostV6ZoneStart
    else .dead
  | .hostV6Start => if isHex ch || ch = byte ':' || ch = byte '.' then .hostV6 else .dead
  | .hostV6Zone => if ch = byte ']' then .hostV6End else parseZoneChar ch
  | .hostV6ZoneStart => parseZoneChar ch
  | .hostPort | .hostPortStart => if isNum ch then .hostPort else .dead
  | .dead => .dead

/-- What a character that leads from `s` to `s'` does to the fields. -/
def hostField (s s' : HostState) (i : Nat) (u : HttpParserUrl) : HttpParserUrl :=
  let host (begins : Bool) :=
    Function.update u .host ((u .host).map fun span =>
      ⟨if begins then toUint16 i else span.off, toUint16 (span.len + 1)⟩)
  match s' with
  | .host => host (s != .host)
  | .hostV6 => host (s != .hostV6)
  | .hostV6ZoneStart | .hostV6Zone => host false
  | .hostPort => if s != .hostPort then u.begin .port i else u.grow .port
  | .userinfo => if s != .userinfo then u.begin .userinfo i else u.grow .userinfo
  | _ => u

/-- The states in which a host cannot end. -/
def HostState.unfinished : HostState → Bool
  | .hostStart | .hostV6Start | .hostV6 | .hostV6ZoneStart | .hostV6Zone | .hostPortStart
  | .userinfo | .userinfoStart => true
  | _ => false

/-- The loop of `http_parse_host`, at position `i`. -/
def parseHostLoop : Bytes → Nat → HostState → HttpParserUrl → Option HttpParserUrl
  | [], _, s, u => if s.unfinished then none else some u
  | ch :: chs, i, s, u =>
    let s' := parseHostChar s ch
    if s' = .dead then none else parseHostLoop chs (i + 1) s' (hostField s s' i u)

/-- `http_parse_host`, for the host at `span`; `none` for a value other than 0. -/
def parseHost (buf : Bytes) (u : HttpParserUrl) (span : UrlSpan) (foundAt : Bool) :
    Option HttpParserUrl :=
  parseHostLoop (span.text buf) span.off (if foundAt then .userinfoStart else .hostStart)
    (Function.update u .host (some { span with len := 0 }))

/-! ## http_parser_parse_url -/

/-- The field that the characters of a state belong to; the states of delimiters
    have none. -/
def ParserState.urlField : ParserState → Option UrlField
  | .reqSchema => some .schema
  | .reqServer | .reqServerWithAt => some .host
  | .reqPath => some .path
  | .reqQueryString => some .query
  | .reqFragment => some .fragment
  | _ => none

/-- The loop of `http_parser_parse_url`, at position `i`. -/
def parseUrlLoop : Bytes → Nat → ParserState → Option UrlField → Bool → HttpParserUrl →
    Option (HttpParserUrl × Bool)
  | [], _, _, _, foundAt, u => some (u, foundAt)
  | ch :: chs, i, s, oldUf, foundAt, u =>
    let s := parseUrlChar s ch
    if s = .dead then none
    else match s.urlField with
    | none => parseUrlLoop chs (i + 1) s oldUf foundAt u
    | some uf =>
      let foundAt := foundAt || s = .reqServerWithAt
      if oldUf = some uf then parseUrlLoop chs (i + 1) s oldUf foundAt (u.grow uf)
      else parseUrlLoop chs (i + 1) s (some uf) foundAt (u.begin uf i)

/-- The number a port's text stands for, in an `unsigned long`; `none` above 65535. -/
def portValue : Bytes → Nat → Option Nat
  | [], v => some v
  | ch :: chs, v =>
    let v := (((v : Int) * 10 + ((ch.toNat : Int) - 48)) % 2 ^ 64).toNat
    if v > 0xffff then none else portValue chs v

/-- The check of the host, if there is one. -/
def splitHost (buf : Bytes) (u : HttpParserUrl) (foundAt : Bool) : Option HttpParserUrl :=
  match u .host with
  | some span => parseHost buf u span foundAt
  -- a host must be there if a schema is
  | none => if (u .schema).isSome then none else some u

/-- The check of the port, if there is one. -/
def checkPort (buf : Bytes) (u : HttpParserUrl) : Option HttpParserUrl :=
  match u .port with
  | some span => (portValue (span.text buf) 0).map fun _ => u
  | none => some u

/-- `http_parser_parse_url`; `none` for a value other than 0. -/
def parseUrl (buf : Bytes) (isConnect : Bool) : Option HttpParserUrl :=
  if buf = [] then none
  else do
    let (u, foundAt) ← parseUrlLoop buf 0
      (if isConnect then .reqServerStart else .reqSpacesBeforeUrl) none false .empty
    let u ← splitHost buf u foundAt
    -- a CONNECT request can only have host and port
    if isConnect && !((u .host).isSome && (u .port).isSome && [UrlField.schema, .path, .query,
        .fragment, .userinfo].all fun uf => (u uf).isNone) then none
    else checkPort buf u

/-! ## Offsets -/

section Offsets

variable {buf chs : Bytes} {u u' : HttpParserUrl} {f : UrlField} {span : UrlSpan} {i : Nat}

/-- The fields that `http_parse_host` does not look for. -/
def UrlField.outsideHost : UrlField → Bool
  | .host | .port | .userinfo => false
  | _ => true

theorem hostField_of_outside {s s' : HostState} (hf : f.outsideHost = true) :
    hostField s s' i u f = u f := by
  have hhost : f ≠ .host := by rintro rfl; cases hf
  have hport : f ≠ .port := by rintro rfl; cases hf
  have huser : f ≠ .userinfo := by rintro rfl; cases hf
  unfold hostField
  cases s' <;> simp [HttpParserUrl.begin, HttpParserUrl.grow, hhost]
  all_goals split <;> simp [hport, huser]

theorem parseHostLoop_of_outside {s : HostState} (hf : f.outsideHost = true)
    (h : parseHostLoop chs i s u = some u') : u' f = u f := by
  induction chs generalizing i s u with
  | nil =>
      unfold parseHostLoop at h
      split_ifs at h
      cases h
      rfl
  | cons ch chs ih =>
      unfold parseHostLoop at h
      dsimp only at h
      split_ifs at h
      exact (ih h).trans (hostField_of_outside hf)

theorem parseHost_of_outside {foundAt : Bool} (hf : f.outsideHost = true)
    (h : parseHost buf u span foundAt = some u') : u' f = u f := by
  refine (parseHostLoop_of_outside hf h).trans (Function.update_of_ne ?_ _ _)
  rintro rfl
  cases hf

/-- Every field begins at a position that has been read. -/
def HttpParserUrl.Before (u : HttpParserUrl) (n : Nat) : Prop :=
  ∀ f span, u f = some span → span.off ≤ n

theorem HttpParserUrl.Before.begin (h : u.Before i) : (u.begin f i).Before (i + 1) := by
  intro g span hg
  unfold HttpParserUrl.begin at hg
  rw [Function.update_apply] at hg
  split_ifs at hg
  · cases hg
    exact (Nat.mod_le _ _).trans (Nat.le_succ i)
  · exact (h _ _ hg).trans (Nat.le_succ i)

theorem HttpParserUrl.Before.grow (h : u.Before i) : (u.grow f).Before (i + 1) := by
  intro g span hg
  unfold HttpParserUrl.grow at hg
  rw [Function.update_apply] at hg
  split_ifs at hg
  · obtain ⟨span', hspan, rfl⟩ := Option.map_eq_some_iff.mp hg
    exact (h _ _ hspan).trans (Nat.le_succ i)
  · exact (h _ _ hg).trans (Nat.le_succ i)

theorem parseUrlLoop_before {s : ParserState} {oldUf : Option UrlField} {foundAt foundAt' : Bool}
    (hu : u.Before i) (h : parseUrlLoop chs i s oldUf foundAt u = some (u', foundAt')) :
    u'.Before (i + chs.length) := by
  induction chs generalizing i s oldUf foundAt u with
  | nil =>
      cases h
      exact hu
  | cons ch chs ih =>
      have hlength : i + (ch :: chs).length = i + 1 + chs.length := by
        simp only [List.length_cons]
        omega
      rw [hlength]
      unfold parseUrlLoop at h
      dsimp only at h
      split_ifs at h
      split at h
      · exact ih (fun _ _ hg => (hu _ _ hg).trans (Nat.le_succ i)) h
      · split_ifs at h
        · exact ih hu.grow h
        · exact ih hu.begin h

theorem splitHost_of_outside {foundAt : Bool} (hf : f.outsideHost = true)
    (h : splitHost buf u foundAt = some u') : u' f = u f := by
  unfold splitHost at h
  split at h
  · exact parseHost_of_outside hf h
  · split_ifs at h
    cases h
    rfl

theorem checkPort_eq (h : checkPort buf u = some u') : u' = u := by
  unfold checkPort at h
  split at h
  · obtain ⟨_, -, rfl⟩ := Option.map_eq_some_iff.mp h
    rfl
  · cases h
    rfl

/-- A field other than those of the host begins inside the URL or at its end. -/
theorem parseUrl_off {isConnect : Bool} (h : parseUrl buf isConnect = some u)
    (hf : f.outsideHost = true) (hspan : u f = some span) : span.off ≤ buf.length := by
  unfold parseUrl at h
  split at h
  · cases h
  · obtain ⟨⟨u₁, foundAt⟩, hloop, h⟩ := Option.bind_eq_some_iff.mp h
    obtain ⟨u₂, hhost, h⟩ := Option.bind_eq_some_iff.mp h
    have hempty : HttpParserUrl.empty.Before 0 := fun _ _ hg => nomatch hg
    have hbefore := parseUrlLoop_before hempty hloop
    split at h
    · cases h
    · rw [checkPort_eq h, splitHost_of_outside hf hhost] at hspan
      simpa using hbefore f span hspan

/-! ## Characters -/

theorem parseUrlChar_lineEnd {s : ParserState} {ch : UInt8} (h : ch = CR ∨ ch = LF) :
    parseUrlChar s ch = .dead := by
  unfold parseUrlChar
  rw [if_pos]
  rcases h with rfl | rfl <;> simp

theorem parseUrlLoop_plain {s : ParserState} {oldUf : Option UrlField} {foundAt foundAt' : Bool}
    (h : parseUrlLoop chs i s oldUf foundAt u = some (u', foundAt')) :
    ∀ ch ∈ chs, ch ≠ CR ∧ ch ≠ LF := by
  induction chs generalizing i s oldUf foundAt u with
  | nil => simp
  | cons ch chs ih =>
      unfold parseUrlLoop at h
      dsimp only at h
      split_ifs at h with hdead
      refine List.forall_mem_cons.mpr ⟨?_, ?_⟩
      · rw [← not_or]
        exact fun hch => hdead (parseUrlChar_lineEnd hch)
      · split at h
        · exact ih h
        · split_ifs at h
          · exact ih h
          · exact ih h

/-- A URL that is split is part of one line. -/
theorem parseUrl_plain {isConnect : Bool} (h : parseUrl buf isConnect = some u) :
    CR ∉ buf ∧ LF ∉ buf := by
  unfold parseUrl at h
  split at h
  · cases h
  · obtain ⟨⟨u₁, foundAt⟩, hloop, -⟩ := Option.bind_eq_some_iff.mp h
    have hplain := parseUrlLoop_plain hloop
    exact ⟨fun hmem => (hplain CR hmem).1 rfl, fun hmem => (hplain LF hmem).2 rfl⟩

end Offsets

end QGServer
