-- SUMMARY: The parser byte by byte, and why its reports do not depend on the segments up to cuts.
import QGServer.HttpParser.Grammar

/-!
# Segments

`byteMachine` is the parser with the header size checked at every byte. It is a
tidy machine, so cutting a segment changes its reports only in that elements are
cut. `execute` checks the size late in its inner loops; a segment that it
accepts is one that `byteMachine` accepts, with the same reports.
-/

namespace QGServer

namespace HttpParser

/-! ## Byte by byte -/

abbrev Machine := Pieces.Machine HttpParser DataCallback NotifyCallback HttpParser

/-- The parser, with every byte taken in the outer loop. -/
def byteMachine : Machine where
  step p ch :=
    let o := onByte (p, none) ch
    ⟨o.state.1, o.actions, o.next⟩
  shown := id
  resume p := resumed p.state

/-- A callback that sees `q` with a first part of an element does the same as if
    it saw `p`, the parser at the end of the element. -/
def SamePart (k : DataCallback) (q p : HttpParser) : Prop :=
  (k = .url → q.method = p.method) ∧ (k = .body → q.bodyIsFinal = false)

section Tidy

variable {p q : HttpParser} {o : Outcome} {ch : UInt8} {inner : Option Nat}

theorem Move.congr (h : Move q o) (hplace : p.place = q.place) (hmethod : p.method = q.method) :
    Move p o := by
  cases h with
  | blank hp => exact .blank (hplace.trans hp) ‹_› ‹_› ‹_› ‹_›
  | messageBegin r hp => exact .messageBegin r (hplace.trans hp) ‹_› ‹_› ‹_› ‹_›
  | line hp => exact .line (hplace.trans hp) ‹_› ‹_› ‹_› ‹_›
  | url hp => exact .url (hplace.trans hp) ‹_› ‹_› ‹_› ‹_›
  | inside k hk hp hactions hnext hp' hm hinner =>
      exact .inside k hk (hplace.trans hp) hactions hnext hp' (hm.trans hmethod.symm) hinner
  | behind k hk r hp hactions hnext hp' hm hinner =>
      exact .behind k hk r (hplace.trans hp) hactions hnext hp' (hm.trans hmethod.symm) hinner
  | head hp h => exact .head (hplace.trans hp) h
  | emptyValue r o' hp ho h => exact .emptyValue r o' (hplace.trans hp) ho h
  | body hp => exact .body (hplace.trans hp) ‹_› ‹_› ‹_› ‹_›
  | bodyEnd r r' hp => exact .bodyEnd r r' (hplace.trans hp) ‹_› ‹_› ‹_› ‹_›
  | chunkEnd r hp => exact .chunkEnd r (hplace.trans hp) ‹_› ‹_› ‹_› ‹_› ‹_›

/-- Every byte that is not refused does one of the moves. -/
theorem onByte_moves : Moves p (onByte (p, inner) ch) := by
  unfold onByte
  dsimp only
  split
  · split
    · exact moves_fail
    · exact fun h => ⟨(dispatch_moves h).1.congr rfl rfl, (dispatch_moves h).2⟩
  · exact dispatch_moves

theorem byteMachine_inside {k : DataCallback} (hp : p.element = some k)
    (hnext : (byteMachine.step p ch).next ≠ .error) :
    Pieces.Inside byteMachine element SamePart p k (byteMachine.step p ch) := by
  rw [element_eq_some] at hp
  cases (onByte_moves hnext).1 with
  | blank hp' => simp [hp] at hp'
  | messageBegin r hp' => simp [hp] at hp'
  | line hp' => simp [hp] at hp'
  | url hp' => simp [hp] at hp'
  | head hp' => simp [hp] at hp'
  | emptyValue r o' hp' => simp [hp] at hp'
  | inside k' hk hp' hactions hmore hplace hmethod =>
      obtain rfl : k = k' := by simpa [hp] using hp'
      refine .stay hmore (element_eq_some.mpr hplace) (.inr ⟨hactions, resumed_of_place hp hk⟩) ?_
      exact fun r hr => ⟨fun hu => (hr.1 hu).trans hmethod.symm, hr.2⟩
  | behind k' hk r hp' hactions hmore hplace hmethod =>
      obtain rfl : k = k' := by simpa [hp] using hp'
      refine .behind r [] hactions (fun r' hr => ⟨fun hu => (hr.1 hu).trans hmethod.symm, hr.2⟩) ?_
      intro hnone
      exact absurd (resumed_of_place hp hk) (by simp [show resumed p.state = none from hnone])
  | body hp' hactions hmore hplace =>
      obtain rfl : k = .body := by simpa [hp] using hp'
      exact .stay hmore (element_eq_some.mpr hplace) (.inl hactions)
        fun r hr => ⟨fun hu => absurd hu (by simp), hr.2⟩
  | bodyEnd r r' hp' hactions hfinal hplace =>
      obtain rfl : k = .body := by simpa [hp] using hp'
      exact .last r _ hactions fun r hr => ⟨fun hu => absurd hu (by simp), hr.2⟩
  | chunkEnd r hp' hactions hmore hfinal hplace =>
      obtain rfl : k = .body := by simpa [hp] using hp'
      exact .behind r [] hactions (fun r hr => ⟨fun hu => absurd hu (by simp), hr.2⟩)
        fun _ => ⟨fun hu => absurd hu (by simp), fun _ => hfinal⟩

abbrev Fits := Pieces.Fits byteMachine element

theorem fits_none (h : resumed p.state = none) : Fits p none :=
  ⟨fun heq => (nomatch heq), fun hr => absurd hr (by simp [byteMachine, h])⟩

theorem fits_some {k : DataCallback} {text : Bytes} (h : p.place = .element k) :
    Fits p (some (k, text)) := by
  refine ⟨fun heq => ?_, fun {k'} hr => ?_⟩
  · cases heq
    exact element_eq_some.mpr h
  · have hk : p.place = .element k' := place_of_resumed hr
    obtain rfl : k = k' := by simpa [h] using hk
    exact ⟨text, rfl⟩

theorem resumed_eq_none (h : p.place = .start ∨ p.place = .line ∨ p.place = .head ∨
    p.place = .element .body) : resumed p.state = none := by
  cases hr : resumed p.state with
  | none => rfl
  | some k =>
      have hk : p.place = .element k := place_of_resumed hr
      rcases h with h | h | h | h
      · simp [h] at hk
      · simp [h] at hk
      · simp [h] at hk
      · exact absurd (resumed_body h) (by simp [hr])

/-- Outside of elements there is no mark. -/
theorem marked_eq_none {marked : Pieces.Marked DataCallback} (h : Fits p marked)
    (hp : ∀ k, p.place ≠ .element k) : marked = none := by
  cases marked with
  | none => rfl
  | some m => exact absurd (element_eq_some.mp (h.element rfl)) (hp _)

theorem acts_notices (ch : UInt8) (ns : List (NotifyCallback × HttpParser)) (as : List Action) :
    (Pieces.acts ch none (notices ns ++ as)).1 = (Pieces.acts ch none as).1 := by
  induction ns with
  | nil => rfl
  | cons n ns ih => exact ih

theorem fits_headMove (h : HeadMove o) :
    Fits o.state.1 (Pieces.extend ch (Pieces.acts ch none o.actions).1) := by
  cases h with
  | notices ns hns hactions hnext hplace =>
      have hacts := acts_notices ch ns []
      rw [List.append_nil] at hacts
      rw [hactions, hacts]
      exact fits_none (resumed_eq_none (hplace.elim (.inr ∘ .inr ∘ .inl) (.inr ∘ .inr ∘ .inr)))
  | begins k hk hactions hnext hplace =>
      rw [hactions]
      exact fits_some hplace
  | complete ns hns q hactions hplace =>
      rw [hactions, acts_notices]
      exact fits_none (resumed_eq_none (.inl hplace))

theorem byteMachine_fits {marked : Pieces.Marked DataCallback} (hfits : Fits p marked)
    (hnext : (byteMachine.step p ch).next = .more) :
    Fits (byteMachine.step p ch).state
      (Pieces.extend ch (Pieces.acts ch marked (byteMachine.step p ch).actions).1) := by
  have hnone := marked_eq_none hfits
  have hne : (onByte (p, none) ch).next ≠ .error := by
    intro herror
    have : (byteMachine.step p ch).next = .error := herror
    rw [hnext] at this
    cases this
  change Fits (onByte (p, none) ch).state.1
    (Pieces.extend ch (Pieces.acts ch marked (onByte (p, none) ch).actions).1)
  cases (onByte_moves hne).1 with
  | blank hp hactions hmore hplace =>
      rw [hnone (by simp [hp]), hactions]
      exact fits_none (resumed_eq_none (.inl hplace))
  | messageBegin q hp hactions hmore hplace =>
      rw [hnone (by simp [hp]), hactions]
      exact fits_none (resumed_eq_none (.inr (.inl hplace)))
  | line hp hactions hmore hplace =>
      rw [hnone (by simp [hp]), hactions]
      exact fits_none (resumed_eq_none (.inr (.inl hplace)))
  | url hp hactions hmore hplace =>
      rw [hnone (by simp [hp]), hactions]
      exact fits_some hplace
  | inside k hk hp hactions hmore hplace hmethod =>
      obtain ⟨text, rfl⟩ := hfits.resume (k := k) (resumed_of_place hp hk)
      rw [hactions]
      exact fits_some hplace
  | behind k hk q hp hactions hmore hplace hmethod =>
      obtain ⟨text, rfl⟩ := hfits.resume (k := k) (resumed_of_place hp hk)
      rw [hactions]
      exact fits_none (resumed_eq_none (.inr (.inr (.inl hplace))))
  | head hp h =>
      rw [hnone (by simp [hp])]
      exact fits_headMove h
  | emptyValue q o' hp ho h =>
      rw [hnone (by simp [hp]), ho]
      change Fits o'.state.1 (Pieces.extend ch (Pieces.acts ch none o'.actions).1)
      exact fits_headMove h
  | body hp hactions hmore hplace =>
      rw [hactions]
      cases marked with
      | none => exact fits_some hplace
      | some m =>
          obtain ⟨k, text⟩ := m
          obtain rfl : k = .body := by
            simpa [hp] using (element_eq_some.mp (hfits.element rfl)).symm
          exact fits_some hplace
  | bodyEnd q q' hp hactions hfinal hplace =>
      rw [hactions]
      cases marked <;> exact fits_none (resumed_eq_none (.inl hplace))
  | chunkEnd q hp hactions hmore hfinal hplace =>
      rw [hactions]
      cases marked <;> exact fits_none (resumed_eq_none (.inr (.inr (.inl hplace))))

theorem byteMachine_tidy : Pieces.Tidy byteMachine element SamePart where
  refl h := ⟨fun _ => rfl, fun hk => not_final_of_body (hk ▸ element_eq_some.mp h)⟩
  trans h h' := ⟨fun hk => (h.1 hk).trans (h'.1 hk), h.2⟩
  resume h := element_eq_some.mpr (place_of_resumed h)
  inside _ := byteMachine_inside
  fits _ := byteMachine_fits

end Tidy

/-! ## Inner loops -/

section Inner

variable {p : HttpParser} {c : Cursor} {o : Outcome} {inner : Option Nat} {ch : UInt8}

/-- The states with an inner loop. -/
def Looping (p : HttpParser) : Prop := p.state = .headerField ∨ p.state = .headerValue

/-- The cursor is in an inner loop only where there is one. -/
structure InLoop (c : Cursor) : Prop where
  looping : ∀ {n : Nat}, c.2 = some n → Looping c.1
  le : ∀ {n : Nat}, c.2 = some n → n ≤ c.1.nread

theorem inLoop_none (h : c.2 = none) : InLoop c :=
  ⟨fun hn => absurd hn (by simp [h]), fun hn => absurd hn (by simp [h])⟩

/-- The other states go on in the outer loop. -/
theorem Move.outer (h : Move p o) (hloop : ¬ Looping p) : o.state.2 = none := by
  cases h with
  | inside k hk hp hactions hnext hplace hmethod hinner =>
      refine hinner ?_
      have hs := resumed_of_place hp hk
      cases k with
      | url => rfl
      | body => exact absurd rfl hk
      | headerField =>
          exact absurd (.inl (by cases hp : p.state <;> simp_all [resumed])) hloop
      | headerValue =>
          exact absurd (.inr (by cases hp : p.state <;> simp_all [resumed])) hloop
  | head hp h => cases h <;> assumption
  | emptyValue q o' hp ho h =>
      rw [ho]
      cases h <;> assumption
  | _ => assumption

/-- A byte of an inner loop, while the header size is within its limit, does what
    it does in the outer loop. -/
theorem onByte_inner (ch : UInt8) (hc : InLoop (p, inner)) (hlimit : p.nread < maxHeaderSize) :
    (onByte (p, inner) ch).state.1 = (onByte (p, none) ch).state.1 ∧
      (onByte (p, inner) ch).actions = (onByte (p, none) ch).actions ∧
      (onByte (p, inner) ch).next = (onByte (p, none) ch).next := by
  cases inner with
  | none => exact ⟨rfl, rfl, rfl⟩
  | some n =>
      have hle := hc.le rfl
      have hmax : ¬ maxHeaderSize < p.nread + 1 := by omega
      have hn : n ≠ maxHeaderSize := by dsimp only at hle; omega
      unfold onByte dispatch
      rcases hc.looping rfl with hs | hs
      · dsimp only at hs
        simp [hs, ParserState.parsingHeader, hmax]
      · dsimp only at hs
        simp only [hs, ParserState.parsingHeader, Option.isNone_some, Option.isNone_none, hmax,
          decide_false, Bool.and_false, Bool.false_eq_true, if_true, if_false]
        unfold headerValue
        simp only [Option.some.injEq, hn, reduceCtorEq, decide_false, Bool.and_false,
          Bool.false_eq_true, if_false]
        split_ifs
        all_goals
          first
          | exact ⟨rfl, rfl, rfl⟩
          | split <;> exact ⟨rfl, rfl, rfl⟩

/-- The result of a byte of an inner loop that counts: the loop goes on or the
    parser leaves it. -/
theorem onByte_inLoop (hc : InLoop (p, inner)) (hnext : (onByte (p, inner) ch).next = .more) :
    InLoop (onByte (p, inner) ch).state := by
  have hmoves : Moves p (onByte (p, inner) ch) := onByte_moves
  have hmove := hmoves (by rw [hnext]; simp)
  by_cases hloop : Looping p
  · have hle : inner.getD 0 ≤ p.nread := by
      cases inner with
      | none => exact Nat.zero_le _
      | some n => exact hc.le rfl
    unfold onByte dispatch
    rcases hloop with hs | hs
    · simp only [hs, ParserState.parsingHeader, if_true]
      split
      · exact inLoop_none rfl
      · unfold headerField
        dsimp only
        split_ifs
        · refine ⟨fun _ => .inl (headerFieldChar_matches.state), fun h => ?_⟩
          cases h
          exact Nat.zero_le _
        all_goals exact inLoop_none rfl
    · simp only [hs, ParserState.parsingHeader, if_true]
      split
      · exact inLoop_none rfl
      · unfold headerValue
        dsimp only
        split_ifs
        · refine ⟨fun _ => .inr rfl, fun h => ?_⟩
          cases h
          exact Nat.zero_le _
        · exact inLoop_none rfl
        · exact inLoop_none rfl
        · exact inLoop_none rfl
        · exact inLoop_none (by unfold headerAlmostDone before; split <;> rfl)
        · exact inLoop_none rfl
        all_goals
          split
          · rename_i q hq
            have hmatch := headerValueChar_matches hq
            refine ⟨fun _ => .inr hmatch.state, fun h => ?_⟩
            cases h
            have hnread : q.nread = p.nread + 1 := hmatch.nread
            simp only [within]
            omega
          · exact inLoop_none rfl
  · exact inLoop_none (hmove.1.outer hloop)

/-- The inner loop has counted more than the limit. It is noticed when the loop ends. -/
structure Over (c : Cursor) : Prop where
  inner : c.2.isSome = true
  limit : maxHeaderSize < c.1.nread

theorem over_step (ch : UInt8) (hinner : c.2.isSome = true) (hloop : Looping c.1)
    (hlimit : maxHeaderSize ≤ c.1.nread) :
    (onByte c ch).next = .error ∨
      (onByte c ch).next = .more ∧ Looping (onByte c ch).state.1 ∧ Over (onByte c ch).state := by
  obtain ⟨p, inner⟩ := c
  obtain ⟨n, rfl⟩ := Option.isSome_iff_exists.mp hinner
  have hmax : maxHeaderSize < p.nread + 1 := Nat.lt_succ_of_le hlimit
  unfold onByte dispatch
  rcases hloop with hs | hs
  · dsimp only at hs
    simp only [hs, ParserState.parsingHeader, Option.isNone_some, Bool.false_and, Bool.false_eq_true,
      if_true, if_false]
    unfold headerField
    dsimp only
    split_ifs
    · refine .inr ⟨rfl, .inl headerFieldChar_matches.state, rfl, ?_⟩
      change maxHeaderSize < (headerFieldChar _ _ _).nread
      rw [headerFieldChar_matches.nread]
      exact hmax
    · exact .inl rfl
  · dsimp only at hs
    simp only [hs, ParserState.parsingHeader, Option.isNone_some, Bool.false_and, Bool.false_eq_true,
      if_true, if_false]
    unfold headerValue
    dsimp only
    split_ifs
    · exact .inr ⟨rfl, .inr rfl, rfl, hmax⟩
    · exact .inl rfl
    · exact .inl rfl
    · exact .inl rfl
    all_goals
      split
      · rename_i q hq
        have hmatch := headerValueChar_matches hq
        exact .inr ⟨rfl, .inr hmatch.state, rfl, hmax.trans_eq hmatch.nread.symm⟩
      · exact .inl rfl

/-- However the segment goes on, the parser ends with an error or over the limit. -/
theorem over_scan {marked : Pieces.Marked DataCallback} {bs : Bytes} (hloop : Looping c.1)
    (h : Over c) :
    (Pieces.scan onByte c marked bs).next = .error ∨
      (Pieces.scan onByte c marked bs).next = .more ∧
        Over (Pieces.scan onByte c marked bs).state := by
  induction bs generalizing c marked with
  | nil => exact .inr ⟨rfl, h⟩
  | cons b bs ih =>
      rcases over_step b h.inner hloop h.limit.le with herror | ⟨hmore, hloop', hover⟩
      · rw [Pieces.scan_error herror]
        exact .inl rfl
      · rw [Pieces.scan_more hmore]
        exact ih hloop' hover

/-- A byte that is not refused and does not lead over the limit is one of the outer
    loop. -/
theorem onByte_eq {bs : Bytes} {marked : Pieces.Marked DataCallback} (hc : InLoop (p, inner))
    (hnext : (Pieces.scan onByte (p, inner) marked (ch :: bs)).next ≠ .error)
    (hover : (Pieces.scan onByte (p, inner) marked (ch :: bs)).next = .more →
      ¬ Over (Pieces.scan onByte (p, inner) marked (ch :: bs)).state) :
    byteMachine.step p ch = ⟨(onByte (p, inner) ch).state.1, (onByte (p, inner) ch).actions,
      (onByte (p, inner) ch).next⟩ := by
  by_cases hlimit : p.nread < maxHeaderSize
  · obtain ⟨hstate, hactions, hsame⟩ := onByte_inner ch hc hlimit
    rw [hstate, hactions, hsame]
    rfl
  · cases inner with
    | none => rfl
    | some n =>
        exfalso
        rcases over_step (c := (p, some n)) ch rfl (hc.looping rfl) (Nat.not_lt.mp hlimit)
          with herror | ⟨hmore, hloop, hbyte⟩
        · rw [Pieces.scan_error herror] at hnext
          exact hnext rfl
        · rw [Pieces.scan_more hmore] at hnext hover
          rcases over_scan hloop hbyte with herror | ⟨hend, hscan⟩
          · exact hnext herror
          · exact hover hend hscan

/-- A segment that does not end over the limit is scanned as `byteMachine` does. -/
theorem scan_eq {marked : Pieces.Marked DataCallback} {bs : Bytes} (hc : InLoop (p, inner))
    (hnext : (Pieces.scan onByte (p, inner) marked bs).next ≠ .error)
    (hover : (Pieces.scan onByte (p, inner) marked bs).next = .more →
      ¬ Over (Pieces.scan onByte (p, inner) marked bs).state) :
    let r := Pieces.scan onByte (p, inner) marked bs
    Pieces.scan byteMachine.step p marked bs = ⟨r.state.1, r.marked, r.events, r.count, r.next⟩ := by
  induction bs generalizing p inner marked with
  | nil => rfl
  | cons b bs ih =>
      have hbyte := onByte_eq hc hnext hover
      cases hb : (onByte (p, inner) b).next with
      | error =>
          rw [Pieces.scan_error hb] at hnext
          exact absurd rfl hnext
      | exit =>
          have hb' : (byteMachine.step p b).next = .exit := by rw [hbyte]; exact hb
          rw [Pieces.scan_exit hb, Pieces.scan_exit hb', hbyte]
      | more =>
          have hb' : (byteMachine.step p b).next = .more := by rw [hbyte]; exact hb
          have hstate := onByte_inLoop hc hb
          rw [Pieces.scan_more hb] at hnext hover
          rw [Pieces.scan_more hb, Pieces.scan_more hb', hbyte]
          have hrest := ih hstate hnext hover
          dsimp only at hrest ⊢
          rw [hrest]

/-! ## The other way round -/

/-- In an inner loop the header size stays within the limit if it was below it. -/
theorem onByte_nread (hlimit : p.nread < maxHeaderSize)
    (hnext : (onByte (p, inner) ch).next = .more)
    (hinner : (onByte (p, inner) ch).state.2.isSome = true) :
    (onByte (p, inner) ch).state.1.nread ≤ maxHeaderSize := by
  have hmoves : Moves p (onByte (p, inner) ch) := onByte_moves
  have hmax : ¬ maxHeaderSize < p.nread + 1 := Nat.not_lt.mpr hlimit
  by_cases hloop : Looping p
  · unfold onByte dispatch at hnext hinner ⊢
    rcases hloop with hs | hs
    · simp only [hs, ParserState.parsingHeader, if_true, hmax, decide_false, Bool.and_false,
        Bool.false_eq_true, if_false] at hnext hinner ⊢
      unfold headerField at hnext hinner ⊢
      dsimp only at hnext hinner ⊢
      split_ifs at hnext hinner ⊢
      · change (headerFieldChar _ _ _).nread ≤ _
        rw [headerFieldChar_matches.nread]
        exact hlimit
      all_goals cases hinner
    · simp only [hs, ParserState.parsingHeader, if_true, hmax, decide_false, Bool.and_false,
        Bool.false_eq_true, if_false] at hnext hinner ⊢
      unfold headerValue at hnext hinner ⊢
      dsimp only at hnext hinner ⊢
      split_ifs at hnext hinner ⊢
      · exact hlimit
      · cases hinner
      · unfold headerAlmostDone before at hinner
        split at hinner <;> cases hinner
      · cases hinner
      all_goals
        split
        · rename_i q hq
          exact (headerValueChar_matches hq).nread.trans_le hlimit
        · rename_i e he
          rw [he] at hinner
          cases hinner
  · rw [(hmoves (by rw [hnext]; simp)).1.outer hloop] at hinner
    cases hinner

/-- A header that is longer than the limit is refused in the outer loop. -/
theorem byteMachine_limit (hloop : Looping p) (hnext : (byteMachine.step p ch).next ≠ .error) :
    p.nread < maxHeaderSize := by
  refine Nat.lt_of_not_le fun hle => hnext ?_
  have hmax : maxHeaderSize < p.nread + 1 := Nat.lt_succ_of_le hle
  change (onByte (p, none) ch).next = .error
  unfold onByte
  rcases hloop with hs | hs
  all_goals
    simp only [hs, ParserState.parsingHeader, if_true, hmax, Option.isNone_none, decide_true,
      Bool.and_self]
    rfl

/-- What `byteMachine` accepts is accepted with inner loops. -/
theorem scan_accepts {marked : Pieces.Marked DataCallback} {bs : Bytes} (hc : InLoop (p, inner))
    (hlimit : inner.isSome = true → p.nread ≤ maxHeaderSize)
    (hnext : (Pieces.scan byteMachine.step p marked bs).next ≠ .error) :
    (Pieces.scan onByte (p, inner) marked bs).next ≠ .error ∧
      ((Pieces.scan onByte (p, inner) marked bs).next = .more →
        ¬ Over (Pieces.scan onByte (p, inner) marked bs).state) := by
  induction bs generalizing p inner marked with
  | nil => exact ⟨hnext, fun _ h => absurd (hlimit h.inner) (Nat.not_le.mpr h.limit)⟩
  | cons b bs ih =>
      have hb : (byteMachine.step p b).next ≠ .error := Pieces.scan_accepted hnext
      have hsame : (onByte (p, inner) b).state.1 = (byteMachine.step p b).state ∧
          (onByte (p, inner) b).actions = (byteMachine.step p b).actions ∧
          (onByte (p, inner) b).next = (byteMachine.step p b).next := by
        cases inner with
        | none => exact ⟨rfl, rfl, rfl⟩
        | some n => exact onByte_inner b hc (byteMachine_limit (hc.looping rfl) hb)
      obtain ⟨hstate, hactions, hnext'⟩ := hsame
      cases hmore : (byteMachine.step p b).next with
      | error => exact absurd hmore hb
      | exit =>
          rw [hmore] at hnext'
          rw [Pieces.scan_exit hnext']
          exact ⟨by simp, fun hend => nomatch hend⟩
      | more =>
          rw [hmore] at hnext'
          rw [Pieces.scan_more hmore] at hnext
          rw [Pieces.scan_more hnext', hactions]
          refine ih (onByte_inLoop hc hnext') ?_ ?_
          · intro hinner
            have hmoves : Moves p (onByte (p, inner) b) := onByte_moves
            have hloop : Looping p := by
              by_contra hloop
              rw [(hmoves (by rw [hnext']; simp)).1.outer hloop] at hinner
              cases hinner
            exact onByte_nread (byteMachine_limit hloop hb) hnext' hinner
          · rw [hstate]
            exact hnext

end Inner

/-! ## Calls of `execute` -/

section Calls

variable {p : HttpParser} {data : Bytes}

/-- The call uses up its segment and sets no error. -/
structure Accepts (p : HttpParser) (data : Bytes) : Prop where
  nparsed : (execute p data).nparsed = data.length
  httpErrno : (execute p data).parser.httpErrno = .ok

instance : Decidable (Accepts p data) :=
  decidable_of_iff ((execute p data).nparsed = data.length ∧ (execute p data).parser.httpErrno = .ok)
    ⟨fun h => ⟨h.1, h.2⟩, fun h => ⟨h.nparsed, h.httpErrno⟩⟩

theorem scan_httpErrno {marked : Pieces.Marked DataCallback} {bs : Bytes}
    (hnext : (Pieces.scan byteMachine.step p marked bs).next ≠ .error) :
    (Pieces.scan byteMachine.step p marked bs).state.httpErrno = p.httpErrno := by
  induction bs generalizing p marked with
  | nil => rfl
  | cons b bs ih =>
      have hmoves : Moves p (onByte (p, none) b) := onByte_moves
      have hne : (byteMachine.step p b).next ≠ .error := Pieces.scan_accepted hnext
      cases hb : (byteMachine.step p b).next with
      | error => exact absurd hb hne
      | exit =>
          rw [Pieces.scan_exit hb]
          exact (hmoves hne).2
      | more =>
          rw [Pieces.scan_more hb] at hnext ⊢
          exact (ih hnext).trans (hmoves hne).2

theorem execute_eq (hp : p.httpErrno = .ok) (hdata : data ≠ []) :
    execute p data = finish data.length
      (Pieces.scan onByte (p, none) ((resumed p.state).map fun k => (k, [])) data) := by
  unfold execute
  simp only [hp, ne_eq, not_true_eq_false, if_false, hdata]

abbrev Scan := Pieces.Scan Cursor DataCallback NotifyCallback HttpParser

/-- A call that uses up its segment has not met an error, not even a header that
    is found too long at its end. -/
theorem finish_uses {r : Scan} {n : Nat} (hn : 0 < n) (hlt : r.next = .error → r.count < n)
    (h : (finish n r).nparsed = n) : r.next ≠ .error ∧ (r.next = .more → ¬ Over r.state) := by
  obtain ⟨⟨q, inner⟩, marked, events, count, next⟩ := r
  cases next with
  | more =>
      refine ⟨by simp, fun _ hover => ?_⟩
      obtain ⟨hinner, hlimit⟩ := hover
      simp only [finish, hinner, hlimit, decide_true, Bool.and_self, if_true] at h
      omega
  | exit => exact ⟨by simp, fun hend => nomatch hend⟩
  | error => exact absurd h (hlt rfl).ne

theorem finish_eq {r : Scan} {n : Nat} (hnext : r.next ≠ .error)
    (hover : r.next = .more → ¬ Over r.state) (hcount : r.count = n) :
    finish n r = ⟨r.state.1,
      byteMachine.reports ⟨r.state.1, r.marked, r.events, r.count, r.next⟩, n⟩ := by
  obtain ⟨⟨q, inner⟩, marked, events, count, next⟩ := r
  cases next with
  | more =>
      have hlimit : ¬ (inner.isSome && decide (q.nread > maxHeaderSize)) = true := by
        rw [Bool.and_eq_true, decide_eq_true_eq]
        exact fun h => hover rfl ⟨h.1, h.2⟩
      simp only [finish, hlimit]
      rfl
  | exit => exact congrArg _ hcount
  | error => exact absurd rfl hnext

theorem finish_nparsed {r : Scan} {n : Nat} (hnext : r.next ≠ .error)
    (hover : r.next = .more → ¬ Over r.state) (hcount : r.next = .more → r.count = n)
    (h : (finish n r).nparsed = n) : r.count = n := by
  obtain ⟨⟨q, inner⟩, marked, events, count, next⟩ := r
  cases next with
  | more => exact hcount rfl
  | exit => exact h
  | error => exact absurd rfl hnext

theorem segment_eq (p : HttpParser) (data : Bytes) :
    byteMachine.segment p data =
      Pieces.scan byteMachine.step p ((resumed p.state).map fun k => (k, [])) data := rfl

/-- The reports of a segment that `byteMachine` uses up. -/
theorem execute_of_uses (hp : p.httpErrno = .ok) (hdata : data ≠ []) (h : byteMachine.Uses p data) :
    execute p data =
      ⟨(byteMachine.segment p data).state, byteMachine.reports (byteMachine.segment p data),
        data.length⟩ := by
  obtain ⟨hnext, hcount⟩ := h
  rw [segment_eq] at hnext hcount ⊢
  obtain ⟨haccept, hover⟩ := scan_accepts (inLoop_none rfl) (by simp) hnext
  have heq := scan_eq (inLoop_none rfl) haccept hover
  dsimp only at heq
  rw [heq] at hcount ⊢
  rw [execute_eq hp hdata]
  exact finish_eq haccept hover hcount

/-- A segment is accepted if `byteMachine` uses it up. -/
theorem accepts_iff (hp : p.httpErrno = .ok) (hdata : data ≠ []) :
    Accepts p data ↔ byteMachine.Uses p data := by
  constructor
  · intro h
    have hn := h.nparsed
    rw [execute_eq hp hdata] at hn
    obtain ⟨hnext, hover⟩ := finish_uses (List.length_pos_iff.mpr hdata) Pieces.scan_count_lt hn
    have hcount := finish_nparsed hnext hover Pieces.scan_count hn
    have heq := scan_eq (inLoop_none rfl) hnext hover
    unfold Pieces.Machine.Uses
    rw [segment_eq, heq]
    exact ⟨hnext, hcount⟩
  · intro h
    have heq := execute_of_uses hp hdata h
    refine ⟨by rw [heq], ?_⟩
    rw [heq]
    exact (scan_httpErrno h.1).trans hp

theorem Accepts.execute_eq (hp : p.httpErrno = .ok) (hdata : data ≠ []) (h : Accepts p data) :
    execute p data =
      ⟨(byteMachine.segment p data).state, byteMachine.reports (byteMachine.segment p data),
        data.length⟩ :=
  execute_of_uses hp hdata ((accepts_iff hp hdata).mp h)

/-! ## Segments -/

/-- Calls of `execute`, one for each segment. -/
def executeAll (p : HttpParser) : List Bytes → HttpParser × List Event
  | [] => (p, [])
  | data :: segments =>
    let r := execute p data
    let rest := executeAll r.parser segments
    (rest.1, r.events ++ rest.2)

/-- Every call uses up its segment and sets no error. -/
def AcceptsAll (p : HttpParser) : List Bytes → Prop
  | [] => True
  | data :: segments => Accepts p data ∧ AcceptsAll (execute p data).parser segments

/-- The calls are those of `byteMachine`. -/
theorem executeAll_eq {segments : List Bytes} (hp : p.httpErrno = .ok)
    (hsegments : ∀ data ∈ segments, data ≠ []) (h : byteMachine.UsesAll p segments) :
    AcceptsAll p segments ∧ executeAll p segments = byteMachine.feed p segments := by
  induction segments generalizing p with
  | nil => exact ⟨trivial, rfl⟩
  | cons data segments ih =>
      obtain ⟨huses, hrest⟩ := h
      have hdata : data ≠ [] := hsegments data List.mem_cons_self
      have haccept := (accepts_iff hp hdata).mpr huses
      have heq := execute_of_uses hp hdata huses
      have hok : (byteMachine.segment p data).state.httpErrno = .ok :=
        (scan_httpErrno huses.1).trans hp
      obtain ⟨haccepts, hfeed⟩ := ih hok (fun d hd => hsegments d (List.mem_cons_of_mem _ hd)) hrest
      refine ⟨⟨haccept, ?_⟩, ?_⟩
      · rw [heq]
        exact haccepts
      · rw [executeAll, heq, hfeed]
        rfl

/-- The state and the reports of a parser do not depend on the segments in which it
    gets its bytes, up to cuts of elements. -/
theorem execute_segments {segments : List Bytes} (hp : p.httpErrno = .ok)
    (hsegments : ∀ data ∈ segments, data ≠ []) (hne : segments ≠ [])
    (h : Accepts p segments.flatten) :
    AcceptsAll p segments ∧ (executeAll p segments).1 = (execute p segments.flatten).parser ∧
      Pieces.Splits SamePart (execute p segments.flatten).events (executeAll p segments).2 := by
  obtain ⟨data, segments, rfl⟩ := List.exists_cons_of_ne_nil hne
  have hdata : data ++ segments.flatten ≠ [] := by
    simp [hsegments data List.mem_cons_self]
  rw [List.flatten_cons] at h ⊢
  have huses := (accepts_iff hp hdata).mp h
  have hrest : ∀ d ∈ segments, d ≠ [] := fun d hd => hsegments d (List.mem_cons_of_mem _ hd)
  obtain ⟨hall, hstate, hsplits⟩ := byteMachine_tidy.feed hrest huses
  obtain ⟨haccepts, hfeed⟩ := executeAll_eq hp hsegments hall
  rw [hfeed, execute_of_uses hp hdata huses]
  exact ⟨haccepts, hstate, hsplits⟩

end Calls

end HttpParser

end QGServer
