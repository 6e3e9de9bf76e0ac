-- SUMMARY: What the parser reports at the end of a message: the notice comes last, and only the last piece of a body is final.
import QGServer.HttpParser.Segments

/-!
# The end of a message

The byte that ends a message leads to the notice of its end and to nothing behind
it. A piece of a body is final only if the notice follows it.
-/

namespace QGServer

namespace HttpParser

/-! ## Reports -/

/-- The parser has found the end of a message. -/
def finishes (es : List Event) : Bool :=
  es.any fun
    | .notify .messageComplete _ => true
    | _ => false

/-- The values of `http_body_is_final` in the calls of `bodyCallBack`. -/
def bodyFinals : List Event → List Bool
  | [] => []
  | .data .body p _ :: es => p.bodyIsFinal :: bodyFinals es
  | _ :: es => bodyFinals es

theorem finishes_append (es es' : List Event) :
    finishes (es ++ es') = (finishes es || finishes es') := List.any_append

theorem finishes_leftover (marked : Pieces.Marked DataCallback) (p : HttpParser) :
    finishes (Pieces.leftover marked p) = false := by
  cases marked <;> rfl

/-- Nothing is reported behind the end of a message. -/
def EndsLast : List Event → Prop
  | [] => True
  | .notify .messageComplete _ :: es => es = []
  | _ :: es => EndsLast es

theorem EndsLast.right {es es' : List Event} (h : EndsLast (es ++ es')) : EndsLast es' := by
  induction es with
  | nil => exact h
  | cons e es ih =>
      refine ih ?_
      cases e with
      | data k p text => exact h
      | notify n p =>
          cases n with
          | messageComplete =>
              rw [show es ++ es' = [] from h]
              trivial
          | _ => exact h

theorem EndsLast.left {es es' : List Event} (h : EndsLast (es ++ es')) : EndsLast es := by
  induction es with
  | nil => trivial
  | cons e es ih =>
      cases e with
      | data k p text => exact ih h
      | notify n p =>
          cases n with
          | messageComplete => exact (List.append_eq_nil_iff.mp h).1
          | _ => exact ih h

theorem EndsLast.nil_of_complete {es es' : List Event} {q : HttpParser}
    (h : EndsLast (es ++ [.notify .messageComplete q] ++ es')) : es' = [] := by
  rw [List.append_assoc] at h
  exact h.right

theorem EndsLast.nil_of_finishes {es es' : List Event} (h : EndsLast (es ++ es'))
    (hfinishes : finishes es = true) : es' = [] := by
  induction es with
  | nil => cases hfinishes
  | cons e es ih =>
      cases e with
      | data k p text => exact ih h hfinishes
      | notify n p =>
          cases n with
          | messageComplete => exact (List.append_eq_nil_iff.mp h).2
          | _ => exact ih h hfinishes

theorem EndsLast.append {es es' : List Event} (h : finishes es = false) (h' : EndsLast es') :
    EndsLast (es ++ es') := by
  induction es with
  | nil => exact h'
  | cons e es ih =>
      cases e with
      | data k q text => exact ih h
      | notify n q =>
          cases n with
          | messageComplete => cases h
          | _ => exact ih h

/-! ## One byte -/

section Ends

variable {p : HttpParser} {ch : UInt8} {marked : Pieces.Marked DataCallback}

/-- The action is part of the end of a message: the last piece of a body, or the
    notice itself. -/
def endsMessage : Action → Bool
  | .data .body q | .dataTo .body q => q.bodyIsFinal
  | .notify .messageComplete _ => true
  | _ => false

/-- Whether a byte is the last one of a message. The last piece of a body comes
    with the notice. -/
inductive EndMove (o : Outcome) : Prop where
  | inner (hactions : ∀ a ∈ o.actions, endsMessage a = false)
  | last (as : List Action) (q : HttpParser) (hactions : o.actions = as ++ [.notify .messageComplete q])
      (has : (∀ a ∈ as, endsMessage a = false) ∨ ∃ q', as = [.mark .body, .dataTo .body q'])
      (hplace : o.state.1.place = .start)

theorem HeadMove.ends {o : Outcome} (h : HeadMove o) :
    (∀ a ∈ o.actions, endsMessage a = false) ∨ ∃ as q, (∀ a ∈ as, endsMessage a = false) ∧
      o.actions = as ++ [.notify .messageComplete q] ∧ o.state.1.place = .start := by
  have hnotices : ∀ ns : List (NotifyCallback × HttpParser), (∀ n ∈ ns, n.1 ≠ .messageComplete) →
      ∀ a ∈ HttpParser.notices ns, endsMessage a = false := by
    intro ns hns a ha
    obtain ⟨n, hn, rfl⟩ := List.mem_map.mp ha
    have hne := hns n hn
    obtain ⟨n, q⟩ := n
    cases n <;> first | rfl | exact absurd rfl hne
  cases h with
  | notices ns hns hactions =>
      left
      rw [hactions]
      exact hnotices ns hns
  | begins k hk hactions =>
      left
      intro a ha
      rw [hactions, List.mem_singleton] at ha
      rw [ha]
      rfl
  | complete ns hns q hactions hplace => exact .inr ⟨_, q, hnotices ns hns, hactions, hplace⟩

theorem Move.endMove {o : Outcome} (h : Move p o) : EndMove o := by
  have hone : ∀ {a : Action}, o.actions = [a] → endsMessage a = false → EndMove o := by
    intro a hactions ha
    refine .inner fun a' ha' => ?_
    rw [hactions, List.mem_singleton] at ha'
    rw [ha', ha]
  have hnone : o.actions = [] → EndMove o := by
    intro hactions
    refine .inner fun a ha => ?_
    rw [hactions] at ha
    cases ha
  cases h with
  | blank hp hactions => exact hnone hactions
  | messageBegin q hp hactions => exact hone hactions rfl
  | line hp hactions => exact hnone hactions
  | url hp hactions => exact hone hactions rfl
  | inside k hk hp hactions => exact hnone hactions
  | behind k hk q hp hactions =>
      refine hone hactions ?_
      cases k <;> first | rfl | exact absurd rfl hk
  | head hp h =>
      rcases h.ends with hinner | ⟨as, q, has, hactions, hplace⟩
      · exact .inner hinner
      · exact .last as q hactions (.inl has) hplace
  | emptyValue q o' hp ho h =>
      have hvalue : ∀ as, (∀ a ∈ as, endsMessage a = false) →
          ∀ a ∈ [.mark .headerValue, .data .headerValue q] ++ as, endsMessage a = false := by
        intro as has a ha
        rcases List.mem_append.mp ha with ha | ha
        · simp only [List.mem_cons, List.not_mem_nil, or_false] at ha
          rcases ha with rfl | rfl <;> rfl
        · exact has a ha
      subst ho
      rcases h.ends with hinner | ⟨as, q', has, hactions, hplace⟩
      · exact .inner (hvalue _ hinner)
      · refine .last ([.mark .headerValue, .data .headerValue q] ++ as) q' ?_ (.inl (hvalue as has))
          hplace
        change _ :: _ :: o'.actions = _
        rw [hactions]
        rfl
  | body hp hactions => exact hone hactions rfl
  | bodyEnd q q' hp hactions hfinal hplace => exact .last _ q' hactions (.inr ⟨q, rfl⟩) hplace
  | chunkEnd q hp hactions hnext hfinal => exact hone hactions hfinal

theorem exists_of_mem_bodyFinals {es : List Event} {final : Bool} (h : final ∈ bodyFinals es) :
    ∃ q text, .data .body q text ∈ es ∧ q.bodyIsFinal = final := by
  induction es with
  | nil => cases h
  | cons e es ih =>
      have hrest : final ∈ bodyFinals es →
          ∃ q text, .data .body q text ∈ e :: es ∧ q.bodyIsFinal = final := by
        intro h
        obtain ⟨q, text, hmem, hq⟩ := ih h
        exact ⟨q, text, List.mem_cons_of_mem _ hmem, hq⟩
      cases e with
      | notify n q => exact hrest h
      | data k q text =>
          cases k with
          | body =>
              rcases List.mem_cons.mp h with rfl | h
              · exact ⟨q, text, List.mem_cons_self, rfl⟩
              · exact hrest h
          | _ => exact hrest h

theorem bodyFinals_append (es es' : List Event) :
    bodyFinals (es ++ es') = bodyFinals es ++ bodyFinals es' := by
  induction es with
  | nil => rfl
  | cons e es ih =>
      cases e with
      | notify n q => exact ih
      | data k q text => cases k <;> simp [bodyFinals, ih]

/-- Actions inside a message do not report its end. -/
theorem acts_inner {as : List Action} (h : ∀ a ∈ as, endsMessage a = false) :
    finishes (Pieces.acts ch marked as).2 = false ∧
      ∀ final ∈ bodyFinals (Pieces.acts ch marked as).2, final = false := by
  constructor
  · rw [finishes, List.any_eq_false]
    intro e he
    rcases Pieces.mem_acts he with ⟨k, q, text, rfl, -⟩ | ⟨n, q, rfl, hmem⟩
    · simp
    · cases n with
      | messageComplete => cases h _ hmem
      | _ => simp
  · intro final hfinal
    obtain ⟨q, text, he, rfl⟩ := exists_of_mem_bodyFinals hfinal
    rcases Pieces.mem_acts he with ⟨k, q', t, heq, hmem⟩ | ⟨n, q', heq, -⟩
    · cases heq
      exact hmem.elim (h _) (h _)
    · cases heq

/-- What one byte reports of the end of a message. -/
inductive EndStep (marked : Pieces.Marked DataCallback) (ch : UInt8)
    (o : Pieces.Outcome HttpParser DataCallback NotifyCallback HttpParser) : Prop where
  | inner (hfinishes : finishes (Pieces.acts ch marked o.actions).2 = false)
      (hfinals : ∀ final ∈ bodyFinals (Pieces.acts ch marked o.actions).2, final = false)
  | last (es : List Event) (q : HttpParser)
      (hacts : (Pieces.acts ch marked o.actions).2 = es ++ [.notify .messageComplete q])
      (hfinishes : finishes es = false) (hfinals : ∀ final ∈ (bodyFinals es).dropLast, final = false)
      (hplace : o.state.place = .start)

theorem end_step (hnext : (byteMachine.step p ch).next ≠ .error) :
    EndStep marked ch (byteMachine.step p ch) := by
  have hactions : (byteMachine.step p ch).actions = (onByte (p, none) ch).actions := rfl
  cases (onByte_moves hnext).1.endMove with
  | inner h =>
      obtain ⟨hfinishes, hfinals⟩ := acts_inner h
      exact .inner hfinishes hfinals
  | last as q h has hplace =>
      refine .last (Pieces.acts ch marked as).2 q ?_ ?_ ?_ hplace
      · rw [hactions, h, Pieces.acts_append]
        rfl
      · rcases has with has | ⟨q', rfl⟩
        · exact (acts_inner has).1
        · cases marked <;> rfl
      · rcases has with has | ⟨q', rfl⟩
        · exact fun final hfinal => (acts_inner has).2 final ((List.dropLast_prefix _).subset hfinal)
        · cases marked <;> simp [Pieces.acts, Pieces.act, bodyFinals]

/-! ## Whole segments -/

theorem mem_dropLast_append {α : Type*} {a : α} {xs ys : List α} (h : a ∈ (xs ++ ys).dropLast) :
    a ∈ xs ∨ a ∈ ys.dropLast := by
  by_cases hys : ys = []
  · rw [hys, List.append_nil] at h
    exact .inl ((List.dropLast_prefix _).subset h)
  · rw [List.dropLast_append_of_ne_nil hys] at h
    exact List.mem_append.mp h

/-- Only the last piece of a body is final. -/
theorem scan_bodies {bs : Bytes} (hfits : Fits p marked)
    (hnext : (Pieces.scan byteMachine.step p marked bs).next ≠ .error)
    (hends : EndsLast (byteMachine.reports (Pieces.scan byteMachine.step p marked bs))) :
    ∀ final ∈ (bodyFinals (byteMachine.reports
      (Pieces.scan byteMachine.step p marked bs))).dropLast, final = false := by
  induction bs generalizing p marked with
  | nil =>
      intro final hfinal
      obtain ⟨q, text, he, rfl⟩ := exists_of_mem_bodyFinals ((List.dropLast_prefix _).subset hfinal)
      change _ ∈ Pieces.leftover marked p at he
      cases marked with
      | none => cases he
      | some m =>
          obtain ⟨k, t⟩ := m
          cases List.mem_singleton.mp he
          exact not_final_of_body (element_eq_some.mp (hfits.element rfl))
  | cons b bs ih =>
      have hb : (byteMachine.step p b).next ≠ .error := Pieces.scan_accepted hnext
      cases hmore : (byteMachine.step p b).next with
      | error => exact absurd hmore hb
      | exit =>
          rw [Pieces.scan_exit hmore]
          intro final hfinal
          change final ∈ (bodyFinals
            (Pieces.acts b marked (byteMachine.step p b).actions).2).dropLast at hfinal
          cases @end_step p b marked hb with
          | inner hfinishes hfinals => exact hfinals final ((List.dropLast_prefix _).subset hfinal)
          | last es q hacts hfinishes hfinals =>
              rw [hacts, bodyFinals_append] at hfinal
              exact hfinals final (by simpa [bodyFinals] using hfinal)
      | more =>
          rw [Pieces.scan_more hmore] at hnext hends ⊢
          rw [Pieces.reports_cons] at hends ⊢
          intro final hfinal
          cases @end_step p b marked hb with
          | inner hfinishes hfinals =>
              rw [bodyFinals_append] at hfinal
              refine (mem_dropLast_append hfinal).elim (hfinals final) fun hrest => ?_
              exact ih (byteMachine_fits hfits hmore) hnext hends.right final hrest
          | last es q hacts hfinishes hfinals =>
              rw [hacts] at hends hfinal
              rw [hends.nil_of_complete, List.append_nil, bodyFinals_append] at hfinal
              exact hfinals final (by simpa [bodyFinals] using hfinal)

theorem endsLast_leftover (marked : Pieces.Marked DataCallback) (p : HttpParser) :
    EndsLast (Pieces.leftover marked p) := by
  cases marked <;> trivial

/-- The notice of the end of a message is the last report of a byte. -/
theorem endsLast_byte (hfits : Fits p marked) (hnext : (byteMachine.step p ch).next ≠ .error) :
    EndsLast (byteMachine.reports (Pieces.scan byteMachine.step p marked [ch])) := by
  have hreports : byteMachine.reports (Pieces.scan byteMachine.step p marked [ch]) =
      (Pieces.acts ch marked (byteMachine.step p ch).actions).2 ++
        if (byteMachine.step p ch).next = .more then
          Pieces.leftover (Pieces.extend ch (Pieces.acts ch marked (byteMachine.step p ch).actions).1)
            (byteMachine.step p ch).state
        else [] := by
    cases hmore : (byteMachine.step p ch).next with
    | error => exact absurd hmore hnext
    | exit =>
        rw [Pieces.scan_exit hmore, if_neg (by simp), List.append_nil]
        rfl
    | more =>
        rw [Pieces.scan_more hmore, Pieces.reports_cons, if_pos rfl]
        rfl
  rw [hreports]
  cases @end_step p ch marked hnext with
  | inner hfinishes hfinals =>
      refine .append hfinishes ?_
      split
      · exact endsLast_leftover _ _
      · trivial
  | last es q hacts hfinishes hfinals hplace =>
      have hleft : (if (byteMachine.step p ch).next = .more then
          Pieces.leftover (Pieces.extend ch (Pieces.acts ch marked (byteMachine.step p ch).actions).1)
            (byteMachine.step p ch).state
          else ([] : List Event)) = [] := by
        split
        · rename_i hmore
          rw [marked_eq_none (byteMachine_fits hfits hmore) (by simp [hplace])]
          rfl
        · rfl
      rw [hacts, hleft, List.append_nil]
      exact .append hfinishes rfl

end Ends

end HttpParser

end QGServer
