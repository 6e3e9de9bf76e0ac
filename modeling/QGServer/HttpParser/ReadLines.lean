-- SUMMARY: What the parser makes of header values, and of whole lines: the words and numbers that it reads in them.
import Mathlib.Tactic.IntervalCases
import QGServer.HttpParser.ReadHeaders

/-!
# Reading values

A value is text, unless the name before it is one that the parser knows. Then it is
matched with a word, or its digits are added up.
-/

namespace QGServer

open HttpParser

/-! ## Numerals -/

section Numeral

variable {base n : Nat}

def digitByte (d : Nat) : UInt8 := (Nat.digitChar d).toUInt8

/-- The number that digits stand for, behind the number `n`. -/
def digitsFrom (base n : Nat) (ds : List Nat) : Nat := ds.foldl (fun n d => n * base + d) n

theorem le_digitsFrom {base : Nat} (hbase : 0 < base) (n : Nat) (ds : List Nat) : n ≤ digitsFrom base n ds := by
  induction ds generalizing n with
  | nil => exact le_rfl
  | cons d ds ih =>
      calc n ≤ n * base := Nat.le_mul_of_pos_right n hbase
        _ ≤ n * base + d := Nat.le_add_right _ _
        _ ≤ digitsFrom base (n * base + d) ds := ih _

/-- A numeral is made of digits that stand for its number. -/
theorem numeral_digits (hbase : 1 < base) (n : Nat) :
    ∃ ds : List Nat, numeral base n = ds.map digitByte ∧ ds ≠ [] ∧ (∀ d ∈ ds, d < base) ∧
      digitsFrom base 0 ds = n := by
  induction n using Nat.strong_induction_on with
  | _ n ih =>
      by_cases hlt : n < base
      · refine ⟨[n], ?_, List.cons_ne_nil _ _, by simpa using hlt, ?_⟩
        · unfold numeral
          rw [Nat.toDigits_of_lt_base hlt]
          rfl
        · simp [digitsFrom]
      · have hle : base ≤ n := Nat.not_lt.mp hlt
        obtain ⟨ds, htext, -, hds, hvalue⟩ :=
          ih (n / base) (Nat.div_lt_self (by omega) hbase)
        refine ⟨ds ++ [n % base], ?_, by simp, ?_, ?_⟩
        · unfold numeral at htext ⊢
          rw [Nat.toDigits_of_base_le hbase hle, List.map_append, htext, List.map_append]
          rfl
        · intro d hd
          rcases List.mem_append.mp hd with hd | hd
          · exact hds d hd
          · rw [List.mem_singleton.mp hd]
            exact Nat.mod_lt n (by omega)
        · unfold digitsFrom at hvalue ⊢
          rw [List.foldl_append, hvalue]
          exact Nat.div_add_mod' n base

theorem decimal_digit {d : Nat} (h : d < 10) :
    isNum (digitByte d) = true ∧ (digitByte d).toNat - 48 = d ∧ isValueChar (digitByte d) = true ∧
      digitByte d ≠ byte ' ' ∧ digitByte d ≠ 9 := by
  revert d
  decide +kernel

theorem hex_digit {d : Nat} (h : d < 16) : unhex (digitByte d) = some d ∧ digitByte d ≠ CR := by
  revert d
  decide +kernel

end Numeral

namespace HttpParser

open Pieces (Reads Tells)

section Values

variable {p q : HttpParser} {ch : UInt8} {k : Known} {value : Bytes}

/-! ## Values -/

theorem isValueChar_cases (h : isValueChar ch = true) :
    ch ≠ CR ∧ ch ≠ LF ∧ isHeaderChar ch = true := by
  unfold isValueChar at h
  simpa [and_assoc] using h

/-- The characters of a value behind the first one: `f` is what one of them does,
    and `Inv` what the matching needs of those that are still to come. -/
theorem reads_value {v : UInt8} {vs : Bytes} (f : HttpParser → UInt8 → HttpParser)
    (Inv : Bytes → HttpParser → Prop) (hs : p.state = .headerValueDiscardWs) (hv : isValueChar v = true)
    (hblank : v ≠ byte ' ' ∧ v ≠ 9)
    (hfirst : headerValueFirst { p.count with state := .headerValue, index := 0 } v = .ok q)
    (hstep : ∀ q b bs, Inv (b :: bs) q →
      isValueChar b = true ∧ headerValueChar q.count b = .ok (f q b) ∧ Inv bs (f q b))
    (hinv : Inv vs q) (hn : p.nread + (vs.length + 1) ≤ maxHeaderSize) :
    Reads byteMachine.step p none (v :: vs) [] (vs.foldl f q) (some (.headerValue, v :: vs)) ∧
      (vs.foldl f q).state = .headerValue ∧ (vs.foldl f q).nread = p.nread + (vs.length + 1) ∧
      Inv [] (vs.foldl f q) := by
  have hq := headerValueFirst_matches hfirst
  obtain ⟨hcr, hlf, -⟩ := isValueChar_cases hv
  have hbyte : Reads byteMachine.step p none [v] [] q (some (.headerValue, [v])) := by
    have hstep : byteMachine.step p v = ⟨q, [.mark .headerValue], .more⟩ := by
      have hstart : dispatch p.count none v = headerValueStart p.count v := by
        have hstate : p.count.state = .headerValueDiscardWs := hs
        have hnot : ¬ (v = byte ' ' || decide (v = 9)) = true := by simp [hblank]
        unfold dispatch
        rw [hstate]
        unfold headerValueDiscardWs
        rw [if_neg hnot, if_neg hcr, if_neg hlf]
      rw [step_head (by rw [hs]; rfl) (by omega), hstart]
      unfold headerValueStart
      rw [hfirst]
      rfl
    have hacts : Pieces.acts v none (byteMachine.step p v).actions = (some (.headerValue, []), []) := by
      rw [hstep]
      rfl
    exact Reads.byte (by rw [hstep]) (by rw [hstep]) hacts
  have hnext : ∀ q b bs, q.state = .headerValue ∧ q.nread + (b :: bs).length ≤ maxHeaderSize ∧
      Inv (b :: bs) q →
        dispatch q.count none b = within (if q.headerState = .general then 1 else 0) (f q b) ∧
        (f q b).state = .headerValue ∧ (f q b).nread = q.nread + 1 ∧ Inv bs (f q b) := by
    rintro q b bs ⟨hs, hn, hinv⟩
    obtain ⟨hb, hchar, hinv⟩ := hstep q b bs hinv
    obtain ⟨hcr, hlf, hheader⟩ := isValueChar_cases hb
    have hf := headerValueChar_matches hchar
    refine ⟨?_, hf.state.trans hs, hf.nread, hinv⟩
    have hstate : q.count.state = .headerValue := hs
    have hinner : ¬ (q.count.headerState = .general && decide (none = some maxHeaderSize)) = true := by
      simp
    unfold dispatch
    rw [hstate]
    unfold headerValue
    rw [if_neg hinner, if_neg hcr, if_neg hlf, hheader, hchar]
    rfl
  have hrest : Reads byteMachine.step q (some (.headerValue, [v])) vs [] (vs.foldl f q)
      (some (.headerValue, [v] ++ vs)) := by
    apply Reads.element f
      (fun bs q => q.state = .headerValue ∧ q.nread + bs.length ≤ maxHeaderSize ∧ Inv bs q)
    · rintro q b bs hall
      obtain ⟨hdispatch, hs, hread, hinv⟩ := hnext q b bs hall
      have hlen := hall.2.1
      rw [List.length_cons] at hlen
      rw [step_head (by rw [hall.1]; rfl) (by omega), hdispatch]
      exact ⟨rfl, rfl, .inl rfl, hs, by omega, hinv⟩
    · refine ⟨hq.state, ?_, hinv⟩
      rw [hq.nread]
      change p.nread + 1 + vs.length ≤ maxHeaderSize
      omega
  have hend : ∀ (bs : Bytes) (q : HttpParser), q.state = .headerValue →
      q.nread + bs.length ≤ maxHeaderSize → Inv bs q → (bs.foldl f q).state = .headerValue ∧
        (bs.foldl f q).nread = q.nread + bs.length ∧ Inv [] (bs.foldl f q) := by
    intro bs
    induction bs with
    | nil => exact fun q hs _ hinv => ⟨hs, rfl, hinv⟩
    | cons b bs ih =>
        intro q hs hn hinv
        obtain ⟨-, hs', hread, hinv'⟩ := hnext q b bs ⟨hs, hn, hinv⟩
        rw [List.length_cons] at hn ⊢
        obtain ⟨hstate, hnread, hlast⟩ := ih (f q b) hs' (by omega) hinv'
        exact ⟨hstate, by rw [List.foldl_cons, hnread]; omega, hlast⟩
  have hread : q.nread = p.nread + 1 := hq.nread
  obtain ⟨hstate, hnread, hlast⟩ := hend vs q hq.state (by omega) hinv
  exact ⟨hbyte.append hrest, hstate, by omega, hlast⟩

/-- The parser reads the value, and knows `k` when it ends. -/
def ReadsValue (p : HttpParser) (value : Bytes) (k : Known) : Prop :=
  ∃ q, Reads byteMachine.step p none value [] q (some (.headerValue, value)) ∧
    q.state = .headerValue ∧ q.settled = k ∧ q.nread = p.nread + value.length

theorem headerValueFirst_unmatched (ch : UInt8) (h : unmatched p.headerState = true) :
    headerValueFirst p ch = .ok { p with headerState := .general } := by
  obtain ⟨state, headerState, index, flags, nread, contentLength, httpMajor, httpMinor, method,
    httpErrno, upgrade⟩ := p
  cases headerState <;> first | rfl | cases h

theorem headerValueChar_general (ch : UInt8) (h : p.headerState = .general) : headerValueChar p ch = .ok p := by
  unfold headerValueChar
  dsimp only
  rw [h]

/-- A value that does not matter. -/
theorem readsValue_plain (hs : p.state = .headerValueDiscardWs) (hmatch : unmatched p.headerState = true)
    (hvalue : PlainValue value) (hne : value ≠ []) (hn : p.nread + value.length ≤ maxHeaderSize) :
    ReadsValue p value p.known := by
  cases value with
  | nil => exact absurd rfl hne
  | cons v vs =>
      have hchars := hvalue.chars
      rw [List.forall_mem_cons] at hchars
      have hfirst := headerValueFirst_unmatched v
        (p := { p.count with state := .headerValue, index := 0 }) hmatch
      obtain ⟨hreads, hstate, hread, hgeneral, hknown⟩ := reads_value (fun q _ => q.count)
        (fun bs q => (∀ b ∈ bs, isValueChar b = true) ∧ q.headerState = .general ∧
          q.known = p.known) hs hchars.1 (hvalue.head v rfl) hfirst (by
          rintro q b bs ⟨hbs, hgeneral, hk⟩
          rw [List.forall_mem_cons] at hbs
          have hchar := headerValueChar_general (p := q.count) b hgeneral
          exact ⟨hbs.1, hchar, hbs.2, hgeneral, hk⟩) ⟨hchars.2, rfl, rfl⟩ hn
      exact ⟨_, hreads, hstate, settled_eq hknown.1 hknown.2, hread⟩

/-! ### Words -/

/-- The word is the first character and those that are matched one by one. -/
theorem readsValue_word {word : Bytes} {start : HeaderState} (stay miss hit : HeaderState)
    (v : UInt8) (vs : Bytes) (hword : word = v :: vs) (hvs : vs ≠ [])
    (hchars : ∀ ch ∈ word, isValueChar ch = true ∧ lower ch = ch ∧ ch ≠ 0)
    (hblank : v ≠ byte ' ' ∧ v ≠ 9)
    (hfirst : ∀ p : HttpParser, p.headerState = start →
      headerValueFirst p v = .ok { p with headerState := stay })
    (hstep : ∀ (p : HttpParser) (ch : UInt8), p.headerState = stay → headerValueChar p ch = .ok
      { p with
        index := p.index + 1
        headerState := matchWord word (p.index + 1) (lower ch) stay miss hit })
    (hs : p.state = .headerValueDiscardWs) (hstart : p.headerState = start)
    (hn : p.nread + word.length ≤ maxHeaderSize) :
    ReadsValue p word { p.known with flags := setFlag hit p.flags } := by
  subst hword
  have hv := hchars v List.mem_cons_self
  -- what has been read is the word up to the index, and all of it is a hit
  let Inv (bs : Bytes) (q : HttpParser) : Prop := q.known = p.known ∧
    (bs = [] ∧ q.headerState = hit ∨ bs ≠ [] ∧ q.headerState = stay ∧
      ∃ read, read.length = q.index + 1 ∧ read ++ bs = v :: vs)
  obtain ⟨hreads, hstate, hread, hlast⟩ := reads_value
    (fun q ch => { q.count with
      index := q.index + 1
      headerState := matchWord (v :: vs) (q.index + 1) (lower ch) stay miss hit })
    Inv hs hv.1 hblank
    (hfirst { p.count with state := .headerValue, index := 0 } hstart) (by
      rintro q b bs ⟨hk, ⟨hnil, -⟩ | ⟨-, hstay, read, hindex, hread⟩⟩
      · cases hnil
      have hb : b ∈ v :: vs := by
        rw [← hread]
        exact List.mem_append_right _ List.mem_cons_self
      have hchar := hchars b hb
      refine ⟨hchar.1, hstep q.count b hstay, hk, ?_⟩
      dsimp only
      have hhead : (v :: vs).getD (q.index + 1) 0 = b := by
        rw [← hread, ← hindex, List.getD_eq_getElem?_getD, List.getElem?_append_right le_rfl]
        simp
      have hle : ¬ (q.index + 1 > (v :: vs).length ||
          decide (lower b ≠ (v :: vs).getD (q.index + 1) 0)) = true := by
        rw [hhead, hchar.2.1, ← hread, List.length_append, hindex, List.length_cons]
        simp only [ne_eq, not_true_eq_false, decide_false, Bool.or_false, gt_iff_lt, decide_eq_true_eq]
        omega
      unfold matchWord
      rw [if_neg hle]
      by_cases hbs : bs = []
      · subst hbs
        refine .inl ⟨rfl, if_pos ?_⟩
        rw [← hread, List.length_append, hindex]
        rfl
      · have hpos : 0 < bs.length := List.length_pos_iff.mpr hbs
        refine .inr ⟨hbs, if_neg ?_, read ++ [b], by simp [hindex], by simp [← hread]⟩
        rw [← hread, List.length_append, List.length_cons, hindex]
        omega) ⟨rfl, .inr ⟨hvs, rfl, [v], rfl, rfl⟩⟩ hn
  rcases hlast.2 with ⟨-, hhit⟩ | ⟨hcontra, -⟩
  · exact ⟨_, hreads, hstate, settled_eq hhit hlast.1, hread⟩
  · exact absurd rfl hcontra

theorem readsValue_keepAlive (hs : p.state = .headerValueDiscardWs)
    (hstart : p.headerState = .connection) (hn : p.nread + 10 ≤ maxHeaderSize) :
    ReadsValue p (bytes "keep-alive")
      { p.known with flags := { p.flags with connectionKeepAlive := true } } := by
  refine readsValue_word .matchingConnectionKeepAlive .matchingConnectionToken .connectionKeepAlive
    (byte 'k') (bytes "eep-alive") rfl (by decide) (by decide +kernel)
    (by decide) ?_ ?_ hs hstart hn
  · intro p h
    unfold headerValueFirst
    dsimp only
    rw [h]
    rfl
  · intro p ch h
    unfold headerValueChar
    dsimp only
    rw [h]

theorem readsValue_close (hs : p.state = .headerValueDiscardWs)
    (hstart : p.headerState = .connection) (hn : p.nread + 5 ≤ maxHeaderSize) :
    ReadsValue p (bytes "close") { p.known with flags := { p.flags with connectionClose := true } } := by
  refine readsValue_word .matchingConnectionClose .matchingConnectionToken .connectionClose
    (byte 'c') (bytes "lose") rfl (by decide) (by decide +kernel)
    (by decide) ?_ ?_ hs hstart hn
  · intro p h
    unfold headerValueFirst
    dsimp only
    rw [h]
    rfl
  · intro p ch h
    unfold headerValueChar
    dsimp only
    rw [h]

theorem readsValue_chunked (hs : p.state = .headerValueDiscardWs)
    (hstart : p.headerState = .transferEncoding) (hn : p.nread + 7 ≤ maxHeaderSize) :
    ReadsValue p (bytes "chunked") { p.known with flags := { p.flags with chunked := true } } := by
  refine readsValue_word .matchingTransferEncodingChunked .matchingTransferEncodingToken
    .transferEncodingChunked (byte 'c') (bytes "hunked") rfl (by decide) (by decide +kernel)
    (by decide) ?_ ?_ hs hstart hn
  · intro p h
    unfold headerValueFirst
    dsimp only
    rw [h]
    rfl
  · intro p ch h
    unfold headerValueChar
    dsimp only
    rw [h]

/-! ### Numbers -/

theorem contentLengthDigit_ok {d : Nat} (hd : d < 10) (h : p.contentLength * 10 + d < bodyLimit) :
    contentLengthDigit p (digitByte d) =
      .ok { p with contentLength := p.contentLength * 10 + d, headerState := .contentLengthNum } := by
  obtain ⟨hnum, hvalue, -, hspace, -⟩ := decimal_digit hd
  have hlimit : ¬ (ullongMax - 10) / 10 < p.contentLength := by
    unfold bodyLimit at h
    unfold ullongMax
    omega
  unfold contentLengthDigit
  rw [if_neg hspace, hnum, if_neg hlimit, hvalue]
  rfl

theorem headerValueFirst_number (h : p.headerState = .contentLength)
    (hfirst : p.flags.contentLength = false) {d : Nat} (hd : d < 10) :
    headerValueFirst p (digitByte d) = .ok { p with
      flags := { p.flags with contentLength := true }
      contentLength := d
      headerState := .contentLengthNum } := by
  obtain ⟨hnum, hvalue, -⟩ := decimal_digit hd
  unfold headerValueFirst
  dsimp only
  rw [h]
  dsimp only
  rw [hnum, hfirst, hvalue]
  rfl

theorem readsValue_number {n : Nat} (hs : p.state = .headerValueDiscardWs)
    (hstart : p.headerState = .contentLength) (hfirst : p.flags.contentLength = false)
    (hlimit : n < bodyLimit) (hn : p.nread + (numeral 10 n).length ≤ maxHeaderSize) :
    ReadsValue p (numeral 10 n)
      { p.known with flags := { p.flags with contentLength := true }, contentLength := n } := by
  obtain ⟨ds, htext, hne, hds, hvalue⟩ := numeral_digits (show 1 < 10 by decide) n
  rw [htext] at hn ⊢
  cases ds with
  | nil => exact absurd rfl hne
  | cons d ds =>
      rw [List.forall_mem_cons] at hds
      rw [List.map_cons, List.length_cons] at hn
      rw [List.map_cons]
      obtain ⟨-, -, hchar, hblank⟩ := decimal_digit hds.1
      have hok := headerValueFirst_number (p := { p.count with state := .headerValue, index := 0 })
        hstart hfirst hds.1
      -- the digits that are still to come make the number of the one so far
      let Inv (bs : Bytes) (q : HttpParser) : Prop := q.headerState = .contentLengthNum ∧
        q.known =
          { p.known with
            flags := { p.flags with contentLength := true }, contentLength := q.contentLength } ∧
        ∃ ds : List Nat, bs = ds.map digitByte ∧ (∀ d ∈ ds, d < 10) ∧
          digitsFrom 10 q.contentLength ds = n
      obtain ⟨hreads, hstate, hread, hlast⟩ := reads_value
        (fun q ch => { q.count with
          contentLength := q.contentLength * 10 + (ch.toNat - 48), headerState := .contentLengthNum })
        Inv hs hchar hblank hok (by
          rintro q b bs ⟨hnum, hk, ds, hbs, hds, hvalue⟩
          cases ds with
          | nil => cases hbs
          | cons d ds =>
              obtain ⟨rfl, rfl⟩ := List.cons.inj hbs
              rw [List.forall_mem_cons] at hds
              obtain ⟨-, hdigit, hchar, -⟩ := decimal_digit hds.1
              have hle := le_digitsFrom (show 0 < 10 by decide) (q.contentLength * 10 + d) ds
              change digitsFrom 10 (q.contentLength * 10 + d) ds = n at hvalue
              have hok := contentLengthDigit_ok (p := q.count) hds.1
                (by change q.contentLength * 10 + d < bodyLimit; omega)
              refine ⟨hchar, ?_, rfl, ?_, ds, rfl, hds.2, ?_⟩
              · have hstate : q.count.headerState = .contentLengthNum := hnum
                unfold headerValueChar
                dsimp only
                rw [hstate, hdigit]
                exact hok
              · have hrest : ∀ m, ({ q.known with contentLength := m } : Known) =
                    { p.known with
                      flags := { p.flags with contentLength := true }, contentLength := m } := by
                  intro m
                  rw [hk]
                exact hrest _
              · dsimp only
                rw [hdigit]
                exact hvalue) ⟨rfl, rfl, ds, rfl, hds.2, by simpa [digitsFrom] using hvalue⟩
        (by rw [List.length_map] at hn ⊢; exact hn)
      obtain ⟨hnum, hk, ds', hnil, -, hend⟩ := hlast
      rw [eq_comm, List.map_eq_nil_iff] at hnil
      subst hnil
      refine ⟨_, hreads, hstate, ?_, hread⟩
      rw [settled_eq hnum hk, ← hend]
      rfl

/-! ## Lines -/

/-- The line end behind a value. -/
theorem tells_value (h : ReadsValue p value k) (hn : p.nread + (value.length + 2) ≤ maxHeaderSize) :
    ∃ q, Tells byteMachine.step report p (value ++ [CR, LF]) [.data .headerValue value] q ∧
      AtLine q k [] ∧ q.nread = p.nread + (value.length + 2) := by
  obtain ⟨q, hreads, hs, hk, hread⟩ := h
  let q₁ : HttpParser := { q.count with state := .headerAlmostDone }
  have hcr : Reads byteMachine.step q (some (.headerValue, value)) [CR] [.data .headerValue q₁ value]
      q₁ none := by
    have hstep : byteMachine.step q CR = ⟨q₁, [.data .headerValue q₁], .more⟩ := by
      have hvalue : dispatch q.count none CR = headerValue q.count none CR := by
        have hstate : q.count.state = .headerValue := hs
        unfold dispatch
        rw [hstate]
      have hinner : ¬ (q.count.headerState = .general && decide (none = some maxHeaderSize)) = true := by
        simp
      have hlimit : ¬ q₁.nread > maxHeaderSize := by
        change ¬ q.nread + 1 > maxHeaderSize
        omega
      rw [step_head (by rw [hs]; rfl) (by omega), hvalue]
      unfold headerValue
      rw [if_neg hinner, if_pos rfl]
      dsimp only
      rw [if_neg hlimit]
      rfl
    have hacts : Pieces.acts CR (some (.headerValue, value)) (byteMachine.step q CR).actions =
        (none, [.data .headerValue q₁ value]) := by
      rw [hstep]
      rfl
    exact Reads.byte (by rw [hstep]) (by rw [hstep]) hacts
  have hlf : Reads byteMachine.step q₁ none [LF] [] { q₁.count with state := .headerValueLws } none := by
    apply Reads.quiet
    rw [step_head (p := q₁) rfl (by change q.nread + 1 < _; omega)]
    rfl
  refine ⟨{ q₁.count with state := .headerValueLws }, ⟨_, hreads.append (hcr.append hlf), rfl⟩,
    .value rfl hk, ?_⟩
  change q.nread + 1 + 1 = _
  omega

/-- An empty value, which is told when the next line begins. -/
theorem tells_emptyValue (hs : p.state = .headerValueDiscardWs)
    (hmatch : unmatched p.headerState = true) (hn : p.nread + 2 ≤ maxHeaderSize) :
    ∃ q, Tells byteMachine.step report p [CR, LF] [] q ∧
      AtLine q p.known [.data .headerValue []] ∧ q.nread = p.nread + 2 := by
  let p₁ : HttpParser := { p.count with state := .headerValueDiscardWsAlmostDone }
  let p₂ : HttpParser := { p₁.count with state := .headerValueDiscardLws }
  have hcr : Tells byteMachine.step report p [CR] [] p₁ := by
    refine tells_more (by rw [hs]; rfl) (by omega) ?_
    have hstate : p.count.state = .headerValueDiscardWs := hs
    unfold dispatch
    rw [hstate]
    rfl
  have hlf : Tells byteMachine.step report p₁ [LF] [] p₂ :=
    tells_more rfl (by change p.nread + 1 < _; omega) rfl
  have hlength : p.headerState ≠ .contentLength := by
    intro hlength
    rw [hlength] at hmatch
    cases hmatch
  have hflags : setFlag p.headerState p.flags = p.flags := by
    cases hkey : p.headerState <;> rw [hkey] at hmatch <;> first | rfl | cases hmatch
  refine ⟨p₂, hcr.append hlf, .empty rfl hlength ?_, rfl⟩
  change { p.known with flags := setFlag p.headerState p.flags } = _
  rw [hflags]
  rfl

end Values

/-- What the parser knows behind a line. -/
def Known.tell (k : Known) : HeaderLine → Known
  | .field _ _ => k
  | .keepAlive => { k with flags := { k.flags with connectionKeepAlive := true } }
  | .close => { k with flags := { k.flags with connectionClose := true } }
  | .contentLength n =>
    { k with flags := { k.flags with contentLength := true }, contentLength := n }
  | .chunked => { k with flags := { k.flags with transferEncoding := true, chunked := true } }

/-- A line that the parser can take where it knows `k`. -/
def Known.Fits (k : Known) : HeaderLine → Prop
  | .contentLength n => k.flags.contentLength = false ∧ n < bodyLimit
  | _ => True

section Line

variable {p : HttpParser} {k : Known} {rs : List Report} {name value : Bytes}

/-- A line, from what the parser makes of its value. -/
theorem tells_line_of_value (k' : Known) (h : AtLine p k rs) (hne : name ≠ []) (hname : ∀ ch ∈ name, token ch ≠ 0)
    (hvalue : ∀ q : HttpParser, q.state = .headerValueDiscardWs →
      q.headerState = (nameKey (name.map token)).1 →
      q.known = { k with flags := metEncoding (nameKey (name.map token)).2.2 k.flags } →
      q.nread + value.length ≤ maxHeaderSize → ReadsValue q value k')
    (hn : p.nread + (name ++ bytes ": " ++ value ++ [CR, LF]).length ≤ maxHeaderSize) :
    ∃ q, Tells byteMachine.step report p (name ++ bytes ": " ++ value ++ [CR, LF])
        (rs ++ [.data .headerField name, .data .headerValue value]) q ∧ AtLine q k' [] ∧
      q.nread = p.nread + (name ++ bytes ": " ++ value ++ [CR, LF]).length := by
  have hlen : (name ++ bytes ": " ++ value ++ [CR, LF]).length =
      name.length + 2 + (value.length + 2) := by
    rw [List.length_append, List.length_append, List.length_append]
    rfl
  rw [hlen] at hn ⊢
  obtain ⟨q, hreads, hs, hkey, hk, hread⟩ := tells_name h hne hname (by omega)
  obtain ⟨q', hreads', hline, hread'⟩ := tells_value (hvalue q hs hkey hk (by omega)) (by omega)
  refine ⟨q', ?_, hline, by omega⟩
  have happend := hreads.append hreads'
  simp only [List.append_assoc] at happend ⊢
  exact happend

theorem tells_field (h : AtLine p k rs) (hname : PlainName name) (hvalue : PlainValue value)
    (hn : p.nread + (name ++ bytes ": " ++ value ++ [CR, LF]).length ≤ maxHeaderSize) :
    ∃ q told rs', Tells byteMachine.step report p (name ++ bytes ": " ++ value ++ [CR, LF]) told q ∧
      AtLine q k rs' ∧ told ++ rs' = rs ++ [.data .headerField name, .data .headerValue value] ∧
      q.nread = p.nread + (name ++ bytes ": " ++ value ++ [CR, LF]).length := by
  obtain ⟨hmatch, hmet⟩ := plain_nameKey hname
  by_cases hempty : value = []
  · subst hempty
    rw [List.append_nil] at hn ⊢
    have hlen : (name ++ bytes ": " ++ [CR, LF]).length = name.length + 2 + 2 := by
      rw [List.length_append, List.length_append]
      rfl
    rw [hlen] at hn ⊢
    obtain ⟨q, hreads, hs, hkey, hk, hread⟩ := tells_name h hname.ne_nil hname.token (by omega)
    obtain ⟨q', hreads', hline, hread'⟩ :=
      tells_emptyValue hs (by rw [hkey]; exact hmatch) (by omega)
    rw [hk, hmet] at hline
    have happend := hreads.append hreads'
    rw [List.append_nil] at happend
    refine ⟨q', _, _, happend, hline, ?_, by omega⟩
    rw [List.append_assoc]
    rfl
  · obtain ⟨q, htells, hline, hread⟩ := tells_line_of_value k h hname.ne_nil hname.token
      (fun q hs hkey hk hn => by
        have hreads := readsValue_plain hs (by rw [hkey]; exact hmatch) hvalue hempty hn
        rw [hk, hmet] at hreads
        exact hreads) hn
    exact ⟨q, _, [], htells, hline, List.append_nil _, hread⟩

/-- A line with a name that the parser knows. -/
theorem tells_known {l : HeaderLine} {headerState : HeaderState} {i : Nat} {met : Bool}
    (h : AtLine p k rs) (hkey : nameKey (l.name.map token) = (headerState, i, met))
    (hname : l.name ≠ [] ∧ ∀ ch ∈ l.name, token ch ≠ 0)
    (hvalue : ∀ q : HttpParser, q.state = .headerValueDiscardWs → q.headerState = headerState →
      q.known = { k with flags := metEncoding met k.flags } →
      q.nread + l.value.length ≤ maxHeaderSize → ReadsValue q l.value (k.tell l))
    (hn : p.nread + l.text.length ≤ maxHeaderSize) :
    ∃ q told rs', Tells byteMachine.step report p l.text told q ∧ AtLine q (k.tell l) rs' ∧
      told ++ rs' = rs ++ l.reports ∧ q.nread = p.nread + l.text.length := by
  obtain ⟨q, htells, hline, hread⟩ := tells_line_of_value _ h hname.1 hname.2
    (fun q hs hstate hk hn => by
      rw [hkey] at hstate hk
      exact hvalue q hs hstate hk hn) hn
  exact ⟨q, _, [], htells, hline, List.append_nil _, hread⟩

theorem tells_line {l : HeaderLine} (h : AtLine p k rs) (hl : l.Proper) (hfits : k.Fits l)
    (hn : p.nread + l.text.length ≤ maxHeaderSize) :
    ∃ q told rs', Tells byteMachine.step report p l.text told q ∧ AtLine q (k.tell l) rs' ∧
      told ++ rs' = rs ++ l.reports ∧ q.nread = p.nread + l.text.length := by
  cases l with
  | field name value => exact tells_field h hl.1 hl.2 hn
  | keepAlive =>
      have hkey : nameKey (HeaderLine.keepAlive.name.map token) = (.connection, 9, false) := by
        decide +kernel
      refine tells_known h hkey (by decide +kernel) (fun q hs hstate hk hn => ?_) hn
      have hreads := readsValue_keepAlive hs hstate hn
      rw [hk, show q.flags = k.flags from congrArg Known.flags hk] at hreads
      exact hreads
  | close =>
      have hkey : nameKey (HeaderLine.close.name.map token) = (.connection, 9, false) := by
        decide +kernel
      refine tells_known h hkey (by decide +kernel) (fun q hs hstate hk hn => ?_) hn
      have hreads := readsValue_close hs hstate hn
      rw [hk, show q.flags = k.flags from congrArg Known.flags hk] at hreads
      exact hreads
  | contentLength n =>
      have hkey : nameKey ((bytes "Content-Length").map token) = (.contentLength, 13, false) := by
        decide +kernel
      have hname : bytes "Content-Length" ≠ [] ∧ ∀ ch ∈ bytes "Content-Length", token ch ≠ 0 := by
        decide +kernel
      refine tells_known h hkey hname (fun q hs hstate hk hn => ?_) hn
      have hflags : q.flags = k.flags := congrArg Known.flags hk
      have hreads := readsValue_number hs hstate (by rw [hflags]; exact hfits.1) hfits.2 hn
      rw [hk, hflags] at hreads
      exact hreads
  | chunked =>
      have hkey : nameKey (HeaderLine.chunked.name.map token) = (.transferEncoding, 16, true) := by
        decide +kernel
      refine tells_known h hkey (by decide +kernel) (fun q hs hstate hk hn => ?_) hn
      have hflags : q.flags = metEncoding true k.flags := congrArg Known.flags hk
      have hreads := readsValue_chunked hs hstate hn
      rw [hk, hflags] at hreads
      exact hreads

/-! ### Several lines -/

/-- Each line fits what the parser knows of those before it. -/
def FitsAll (k : Known) : List HeaderLine → Prop
  | [] => True
  | l :: ls => k.Fits l ∧ FitsAll (k.tell l) ls

theorem tells_lines (ls : List HeaderLine) (h : AtLine p k rs) (hls : ∀ l ∈ ls, l.Proper)
    (hfits : FitsAll k ls) (hn : p.nread + (ls.flatMap HeaderLine.text).length ≤ maxHeaderSize) :
    ∃ q told rs', Tells byteMachine.step report p (ls.flatMap HeaderLine.text) told q ∧
      AtLine q (ls.foldl Known.tell k) rs' ∧ told ++ rs' = rs ++ ls.flatMap HeaderLine.reports ∧
      q.nread = p.nread + (ls.flatMap HeaderLine.text).length := by
  induction ls generalizing p k rs with
  | nil => exact ⟨p, [], rs, .nil, h, by simp, rfl⟩
  | cons l ls ih =>
      rw [List.forall_mem_cons] at hls
      rw [List.flatMap_cons, List.length_append] at hn ⊢
      obtain ⟨q, told, rs₁, htells, hline, heq, hread⟩ := tells_line h hls.1 hfits.1 (by omega)
      obtain ⟨q', told', rs₂, htells', hline', heq', hread'⟩ := ih hline hls.2 hfits.2 (by omega)
      refine ⟨q', told ++ told', rs₂, htells.append htells', hline', ?_, by omega⟩
      rw [List.append_assoc, heq', ← List.append_assoc, heq, List.append_assoc, List.flatMap_cons]

end Line

end HttpParser

end QGServer
