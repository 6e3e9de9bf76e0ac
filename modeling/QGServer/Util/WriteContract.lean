-- SUMMARY: What the value of the write helper says about the bytes the kernel accepted, and when it says too much.
import Mathlib.Algebra.BigOperators.Group.List.Basic
import QGServer.Util.RWTool

/-!
# The value of qg::write

`qg::write` counts the bytes that the kernel accepts, but passes the whole buffer
to every call of `::write`. A second call that accepts bytes accepts those at the
start of the buffer again.
-/

namespace QGServer

namespace KernelWrite

variable {size : Nat}

/-- The numbers of bytes accepted in the calls before the first failure. -/
def front : List (KernelWrite size) → List Nat
  | .accepted r _ :: rs => r :: front rs
  | _ => []

/-- The first error. -/
def firstError : List (KernelWrite size) → Option Errno
  | .accepted _ _ :: rs => firstError rs
  | .error e :: _ => some e
  | [] => none

/-- The call accepts at least one byte. -/
def TakesBytes : KernelWrite size → Prop
  | .accepted r _ => 0 < r
  | .error _ => False

instance : DecidablePred (@TakesBytes size) := fun r => by
  cases r <;> unfold TakesBytes <;> infer_instance

end KernelWrite

open KernelWrite

/-! ## The contract -/

/-- What callers take the value for: a count of the bytes accepted, which are those
    at the start of the buffer, each once; and while bytes are accepted the loop
    ends after as many calls as there are bytes. -/
structure WriteContract (buffer : Bytes) (rs : List (KernelWrite buffer.length)) : Prop where
  accepted : ∀ v sent rest, qgWrite rs 0 [] = some (v, sent, rest) → 0 ≤ v →
    sent = List.range v.toNat ∧ v ≤ buffer.length
  returns : buffer ≠ [] → buffer.length ≤ rs.length →
    (∀ r ∈ rs.take buffer.length, r.TakesBytes) →
      ∃ v sent rest, qgWrite rs 0 [] = some (v, sent, rest) ∧
        rs.length ≤ rest.length + buffer.length

/-- A call accepts some of the bytes, and a later one accepts bytes too. -/
def TakesAgain (size : Nat) : List Nat → Prop
  | [] => False
  | 0 :: ns => TakesAgain size ns
  | (r + 1) :: ns => r + 1 < size ∧ ∃ n ∈ ns, 0 < n

/-- The loop ends without a fatal error, or is to end: the numbers of bytes accepted
    add up to the size at some call, or the first failure is `EAGAIN`, or bytes are
    accepted in as many calls as there are bytes. -/
structure Ends {size : Nat} (rs : List (KernelWrite size)) : Prop where
  ends : (∃ n, ((front rs).take n).sum = size) ∨ firstError rs = some .eagain ∨
    (size ≤ (front rs).length ∧ ∀ n ∈ (front rs).take size, 0 < n)

/-! ## Lists of counts -/

section Counts

variable {size : Nat} {ns ms : List Nat}

theorem count_zero_flatMap (ns : List Nat) :
    (ns.flatMap List.range).count 0 = ns.countP (0 < ·) := by
  induction ns with
  | nil => rfl
  | cons n ns ih =>
      rw [List.flatMap_cons, List.count_append, ih, List.countP_cons, Nat.add_comm]
      rw [List.count_range]
      simp

theorem flatMap_range_of_zero (h : ns.countP (0 < ·) = 0) : ns.flatMap List.range = [] ∧ ns.sum = 0 := by
  rw [List.countP_eq_zero] at h
  have hzero : ∀ n ∈ ns, n = 0 := fun n hn => Nat.eq_zero_of_not_pos (by simpa using h n hn)
  refine ⟨List.flatMap_eq_nil_iff.mpr fun n hn => ?_, List.sum_eq_zero hzero⟩
  rw [hzero n hn]
  rfl

/-- If at most one call accepts bytes, their positions are those at the start. -/
theorem flatMap_range_of_le_one (h : ns.countP (0 < ·) ≤ 1) :
    ns.flatMap List.range = List.range ns.sum := by
  induction ns with
  | nil => rfl
  | cons n ns ih =>
      rw [List.countP_cons] at h
      cases n with
      | zero =>
          rw [List.flatMap_cons, List.sum_cons, Nat.zero_add]
          exact ih h
      | succ n =>
          have hrest : ns.countP (0 < ·) = 0 := by
            simp only [Nat.succ_pos, decide_true, if_true] at h
            omega
          obtain ⟨hnil, hsum⟩ := flatMap_range_of_zero hrest
          rw [List.flatMap_cons, hnil, List.append_nil, List.sum_cons, hsum, Nat.add_zero]

theorem countP_le_one_of_range {v : Nat} (h : ns.flatMap List.range = List.range v) :
    ns.countP (0 < ·) ≤ 1 := by
  rw [← count_zero_flatMap, h, List.count_range]
  split <;> simp

theorem TakesAgain.two_le (h : TakesAgain size ns) : 2 ≤ ns.countP (0 < ·) := by
  induction ns with
  | nil => exact h.elim
  | cons n ns ih =>
      rw [List.countP_cons]
      cases n with
      | zero => exact ih h
      | succ n =>
          have hpos : 0 < ns.countP (0 < ·) := by
            simpa [List.countP_pos_iff] using h.2
          simp only [Nat.succ_pos, decide_true, if_true]
          omega

/-- Counts that add up to the size hold those of both calls. -/
theorem TakesAgain.two_le_of_sum (h : TakesAgain size ns) (hsize : 0 < size) (hms : ms <+: ns)
    (hsum : ms.sum = size) : 2 ≤ ms.countP (0 < ·) := by
  induction ns generalizing ms with
  | nil => exact h.elim
  | cons n ns ih =>
      cases ms with
      | nil =>
          rw [List.sum_nil] at hsum
          exact absurd hsum hsize.ne
      | cons m ms =>
          obtain ⟨rfl, hrest⟩ := List.cons_prefix_cons.mp hms
          rw [List.countP_cons]
          rw [List.sum_cons] at hsum
          cases m with
          | zero => exact ih h hrest ((Nat.zero_add _).symm.trans hsum)
          | succ m =>
              have hlt := h.1
              have hpos : 0 < ms.countP (0 < ·) := by
                refine Nat.pos_of_ne_zero fun hzero => ?_
                have hnone := (flatMap_range_of_zero hzero).2
                omega
              simp only [Nat.succ_pos, decide_true, if_true]
              omega

/-- Before the last of two calls that accept bytes the size has not been reached. -/
theorem takesAgain_of_two_le (htwo : 2 ≤ ns.countP (0 < ·)) (hle : ∀ n ∈ ns, n ≤ size)
    (hsum : ∀ ms, ms <+: ns → ms ≠ [] → ms ≠ ns → ms.sum ≠ size) : TakesAgain size ns := by
  induction ns with
  | nil => simp at htwo
  | cons n ns ih =>
      rw [List.countP_cons] at htwo
      cases n with
      | zero =>
          refine ih htwo (fun n hn => hle n (List.mem_cons_of_mem _ hn)) fun ms hms hne hproper => ?_
          have hcons := hsum (0 :: ms) (List.cons_prefix_cons.mpr ⟨rfl, hms⟩) (List.cons_ne_nil _ _)
            fun heq => hproper (List.cons.inj heq).2
          rwa [List.sum_cons, Nat.zero_add] at hcons
      | succ n =>
          have hpos : 0 < ns.countP (0 < ·) := by
            simp only [Nat.succ_pos, decide_true, if_true] at htwo
            omega
          refine ⟨Nat.lt_of_le_of_ne (hle _ List.mem_cons_self) ?_, ?_⟩
          · have hne : [n + 1] ≠ (n + 1) :: ns := by
              intro heq
              rw [← (List.cons.inj heq).2] at hpos
              cases hpos
            have hfirst := hsum [n + 1] (List.cons_prefix_cons.mpr ⟨rfl, List.nil_prefix⟩)
              (List.cons_ne_nil _ _) hne
            rwa [List.sum_singleton] at hfirst
          · simpa [List.countP_pos_iff] using hpos

theorem TakesAgain.size_pos (h : TakesAgain size ns) : 0 < size := by
  induction ns with
  | nil => exact h.elim
  | cons n ns ih =>
      cases n with
      | zero => exact ih h
      | succ n => exact Nat.zero_lt_of_lt h.1

theorem TakesAgain.mono (h : TakesAgain size ms) (hms : ms <+: ns) : TakesAgain size ns := by
  induction ns generalizing ms with
  | nil =>
      rw [List.prefix_nil.mp hms] at h
      exact h
  | cons n ns ih =>
      cases ms with
      | nil => exact h.elim
      | cons m ms =>
          obtain ⟨rfl, hrest⟩ := List.cons_prefix_cons.mp hms
          cases m with
          | zero => exact ih (show TakesAgain size ms from h) hrest
          | succ m =>
              obtain ⟨hlt, n, hn, hpos⟩ := h
              exact ⟨hlt, n, hrest.subset hn, hpos⟩

theorem sum_le_of_le_one (h : ns.countP (0 < ·) ≤ 1) (hle : ∀ n ∈ ns, n ≤ size) :
    ns.sum ≤ size := by
  induction ns with
  | nil => exact Nat.zero_le _
  | cons n ns ih =>
      rw [List.countP_cons] at h
      rw [List.sum_cons]
      cases n with
      | zero =>
          rw [Nat.zero_add]
          exact ih h fun n hn => hle n (List.mem_cons_of_mem _ hn)
      | succ n =>
          have hrest : ns.countP (0 < ·) = 0 := by
            simp only [Nat.succ_pos, decide_true, if_true] at h
            omega
          rw [(flatMap_range_of_zero hrest).2, Nat.add_zero]
          exact hle _ List.mem_cons_self

end Counts

/-! ## The loop -/

section Loop

variable {size : Nat} {rs rest : List (KernelWrite size)} {cnt : Nat} {sent sent' : List Nat}
  {v : Int}

theorem front_le {n : Nat} (h : n ∈ front rs) : n ≤ size := by
  induction rs with
  | nil => cases h
  | cons r rs ih =>
      cases r with
      | error e => cases h
      | accepted r le =>
          rcases List.mem_cons.mp h with rfl | h
          · exact le
          · exact ih h

/-- The first results accept bytes if and only if the first counts are positive. -/
theorem takes_iff {k : Nat} : (k ≤ rs.length ∧ ∀ r ∈ rs.take k, r.TakesBytes) ↔
    k ≤ (front rs).length ∧ ∀ n ∈ (front rs).take k, 0 < n := by
  induction rs generalizing k with
  | nil => simp [front]
  | cons r rs ih =>
      cases k with
      | zero => simp
      | succ k =>
          cases r with
          | error e => simp [front, TakesBytes]
          | accepted r le =>
              have htakes : (accepted r le).TakesBytes ↔ 0 < r := Iff.rfl
              simp only [front, List.take_succ_cons, List.length_cons, Nat.add_le_add_iff_right,
                List.forall_mem_cons, htakes]
              rw [and_left_comm, ih, and_left_comm]

/-- How a call that has accepted `ns` ends. -/
inductive Written (rs : List (KernelWrite size)) (cnt : Nat) (ns : List Nat) :
    Int → List (KernelWrite size) → Prop where
  | complete (rest : List (KernelWrite size)) (hsum : cnt + ns.sum = size) :
      Written rs cnt ns size rest
  | again (rest : List (KernelWrite size)) (hfront : ns = front rs)
      (herror : firstError rs = some .eagain) : Written rs cnt ns ((cnt + ns.sum : Nat) : Int) rest
  | fatal (rest : List (KernelWrite size)) (herror : firstError rs ≠ some .eagain)
      (hlength : rest.length + (front rs).length < rs.length) : Written rs cnt ns (-1) rest

/-- A call that returns has accepted some of the first counts, and has gone on while
    they did not add up to the size. -/
theorem qgWrite_written (h : qgWrite rs cnt sent = some (v, sent', rest)) :
    ∃ ns, ns <+: front rs ∧ sent' = sent ++ ns.flatMap List.range ∧
      (∀ ms, ms <+: ns → ms ≠ [] → ms ≠ ns → cnt + ms.sum ≠ size) ∧ Written rs cnt ns v rest := by
  induction rs generalizing cnt sent with
  | nil => cases h
  | cons r rs ih =>
      cases r with
      | error e =>
          have hnone : ∀ ms : List Nat, ms <+: [] → ms ≠ [] → ms ≠ [] → cnt + ms.sum ≠ size :=
            fun ms hms hne => absurd (List.prefix_nil.mp hms) hne
          by_cases he : e = .eagain
          · subst he
            rw [qgWrite_eagain] at h
            cases h
            exact ⟨[], List.nil_prefix, (List.append_nil _).symm, hnone, .again _ rfl rfl⟩
          · rw [qgWrite_error he] at h
            cases h
            refine ⟨[], List.nil_prefix, (List.append_nil _).symm, hnone, .fatal _ ?_ ?_⟩
            · simpa [firstError] using he
            · simp [front]
      | accepted r le =>
          rw [qgWrite_accepted] at h
          split_ifs at h with hsize
          · cases h
            refine ⟨[r], List.cons_prefix_cons.mpr ⟨rfl, List.nil_prefix⟩, ?_, ?_, ?_⟩
            · rw [List.flatMap_singleton]
            · intro ms hms hne hproper
              cases ms with
              | nil => exact absurd rfl hne
              | cons m ms =>
                  obtain ⟨rfl, hnil⟩ := List.cons_prefix_cons.mp hms
                  exact absurd (congrArg (m :: ·) (List.prefix_nil.mp hnil)) hproper
            · exact .complete _ (by simpa using hsize)
          · obtain ⟨ns, hns, hsent, hsum, hwritten⟩ := ih h
            refine ⟨r :: ns, List.cons_prefix_cons.mpr ⟨rfl, hns⟩, ?_, ?_, ?_⟩
            · rw [hsent, List.append_assoc, List.flatMap_cons]
            · intro ms hms hne hproper
              cases ms with
              | nil => exact absurd rfl hne
              | cons m ms =>
                  obtain ⟨rfl, hrest⟩ := List.cons_prefix_cons.mp hms
                  rw [List.sum_cons, ← Nat.add_assoc]
                  by_cases hnil : ms = []
                  · rw [hnil, List.sum_nil, Nat.add_zero]
                    exact hsize
                  · exact hsum ms hrest hnil fun heq => hproper (congrArg _ heq)
            · have hadd : cnt + (r :: ns).sum = cnt + r + ns.sum := by
                rw [List.sum_cons, Nat.add_assoc]
              cases hwritten with
              | complete rest hsum' => exact .complete _ (hadd.trans hsum')
              | again rest hfront herror =>
                  rw [← hadd]
                  exact .again _ (congrArg (r :: ·) hfront) herror
              | fatal rest herror hlength =>
                  exact .fatal _ herror (Nat.succ_lt_succ hlength)

/-- The loop ends where the counts add up to the size. -/
theorem qgWrite_of_sum {n : Nat} (hne : cnt ≠ size) (h : cnt + ((front rs).take n).sum = size) :
    ∃ sent' rest, qgWrite rs cnt sent = some ((size : Int), sent', rest) := by
  induction rs generalizing cnt sent n with
  | nil => simp [front, hne] at h
  | cons r rs ih =>
      cases r with
      | error e => simp [front, hne] at h
      | accepted r le =>
          cases n with
          | zero => exact absurd h hne
          | succ n =>
              rw [front, List.take_succ_cons, List.sum_cons, ← Nat.add_assoc] at h
              rw [qgWrite_accepted]
              split_ifs with hsize
              · exact ⟨_, _, rfl⟩
              · exact ih hsize h

theorem qgWrite_of_eagain (h : firstError rs = some .eagain) :
    ∃ v sent' rest, qgWrite rs cnt sent = some (v, sent', rest) ∧ 0 ≤ v := by
  induction rs generalizing cnt sent with
  | nil => cases h
  | cons r rs ih =>
      cases r with
      | error e =>
          obtain rfl : e = .eagain := Option.some.inj h
          exact ⟨_, _, _, qgWrite_eagain, Int.natCast_nonneg cnt⟩
      | accepted r le =>
          rw [qgWrite_accepted]
          split_ifs with hsize
          · exact ⟨_, _, _, rfl, Int.natCast_nonneg size⟩
          · exact ih h

/-- If the first call accepts bytes and no later one does, it accepts all of them. -/
theorem qgWrite_of_once (hpos : 0 < size)
    (htakes : size ≤ (front rs).length ∧ ∀ n ∈ (front rs).take size, 0 < n)
    (honce : ¬ TakesAgain size (front rs)) :
    ∃ v sent rest, qgWrite rs 0 [] = some (v, sent, rest) ∧ rs.length ≤ rest.length + size := by
  obtain ⟨hlen, hall⟩ := htakes
  cases rs with
  | nil => exact absurd hlen (Nat.not_le.mpr hpos)
  | cons r rs =>
      cases r with
      | error e => exact absurd hlen (Nat.not_le.mpr hpos)
      | accepted r le =>
          rw [qgWrite_accepted, Nat.zero_add]
          by_cases hsize : r = size
          · rw [if_pos hsize]
            exact ⟨_, _, _, rfl, Nat.add_le_add_left hpos _⟩
          · exfalso
            have hlt : r < size := Nat.lt_of_le_of_ne le hsize
            have hr : 0 < r := hall r (by
              obtain ⟨k, rfl⟩ := Nat.exists_eq_succ_of_ne_zero hpos.ne'
              exact List.mem_cons_self)
            obtain ⟨k, rfl⟩ : ∃ k, size = k + 2 := ⟨size - 2, by omega⟩
            cases hfront : front rs with
            | nil => simp [front, hfront] at hlen
            | cons n ns =>
                obtain ⟨m, rfl⟩ := Nat.exists_eq_succ_of_ne_zero hr.ne'
                refine honce ⟨hlt, n, ?_, hall n ?_⟩
                · rw [hfront]
                  exact List.mem_cons_self
                · rw [front, hfront]
                  simp

end Loop

/-! ## When the contract is met -/

section Contract

variable {buffer : Bytes} {rs : List (KernelWrite buffer.length)}

/-- A value that is not an error, after bytes were accepted twice. -/
theorem not_accepted_of_takesAgain (hagain : TakesAgain buffer.length (front rs)) {v : Int}
    {sent : List Nat} {rest : List (KernelWrite buffer.length)}
    (h : qgWrite rs 0 [] = some (v, sent, rest)) (hv : 0 ≤ v)
    (hpos : 0 < buffer.length) : sent ≠ List.range v.toNat := by
  obtain ⟨ns, hns, rfl, -, hwritten⟩ := qgWrite_written h
  rw [List.nil_append]
  intro heq
  have hone := countP_le_one_of_range heq
  have htwo : 2 ≤ ns.countP (0 < ·) := by
    cases hwritten with
    | complete rest hsum => exact hagain.two_le_of_sum hpos hns ((Nat.zero_add _).symm.trans hsum)
    | again rest hfront herror =>
        rw [hfront]
        exact hagain.two_le
    | fatal rest herror hlength => exact absurd hv (by decide)
  omega

/-- The value of a call that accepts bytes only once. -/
theorem accepted_of_once (honce : ¬ (TakesAgain buffer.length (front rs) ∧ Ends rs)) {v : Int}
    {sent : List Nat} {rest : List (KernelWrite buffer.length)}
    (h : qgWrite rs 0 [] = some (v, sent, rest)) (hv : 0 ≤ v) :
    sent = List.range v.toNat ∧ v ≤ buffer.length := by
  obtain ⟨ns, hns, rfl, hsum, hwritten⟩ := qgWrite_written h
  simp only [Nat.zero_add] at hsum
  have hle : ∀ n ∈ ns, n ≤ buffer.length := fun n hn => front_le (hns.subset hn)
  rw [List.nil_append]
  cases hwritten with
  | complete rest hsize =>
      rw [Nat.zero_add] at hsize
      have hone : ns.countP (0 < ·) ≤ 1 := by
        by_contra htwo
        have hagain := takesAgain_of_two_le (Nat.lt_of_not_le htwo) hle hsum
        refine honce ⟨hagain.mono hns, ⟨.inl ⟨ns.length, ?_⟩⟩⟩
        rw [← List.prefix_iff_eq_take.mp hns, hsize]
      rw [flatMap_range_of_le_one hone, hsize]
      exact ⟨rfl, le_rfl⟩
  | again rest hfront herror =>
      have hone : ns.countP (0 < ·) ≤ 1 := by
        by_contra htwo
        have hagain := takesAgain_of_two_le (Nat.lt_of_not_le htwo) hle hsum
        exact honce ⟨hagain.mono hns, ⟨.inr (.inl herror)⟩⟩
      rw [flatMap_range_of_le_one hone, Nat.zero_add, Int.toNat_natCast]
      exact ⟨rfl, Int.ofNat_le.mpr (sum_le_of_le_one hone hle)⟩
  | fatal rest herror hlength => exact absurd hv (by decide)

/-- The contract is met if and only if bytes are accepted by one call at most, or two
    calls accept bytes and the loop ends in a fatal error or waits for a result. -/
theorem writeContract_iff (buffer : Bytes) (rs : List (KernelWrite buffer.length)) :
    WriteContract buffer rs ↔ ¬ (TakesAgain buffer.length (front rs) ∧ Ends rs) := by
  constructor
  · rintro hcontract ⟨hagain, ⟨hends⟩⟩
    have hpos : 0 < buffer.length := hagain.size_pos
    have hbad : ∀ v sent rest, qgWrite rs 0 [] = some (v, sent, rest) → ¬ 0 ≤ v :=
      fun v sent rest h hv =>
        not_accepted_of_takesAgain hagain h hv hpos (hcontract.accepted v sent rest h hv).1
    rcases hends with ⟨n, hsum⟩ | herror | htakes
    · obtain ⟨sent, rest, h⟩ := qgWrite_of_sum hpos.ne ((Nat.zero_add _).trans hsum)
      exact hbad _ _ _ h (Int.natCast_nonneg _)
    · obtain ⟨v, sent, rest, h, hv⟩ := qgWrite_of_eagain herror
      exact hbad _ _ _ h hv
    · obtain ⟨hlen, hall⟩ := takes_iff.mpr htakes
      obtain ⟨v, sent, rest, h, hused⟩ := hcontract.returns (List.length_pos_iff.mp hpos) hlen hall
      obtain ⟨ns, -, -, -, hwritten⟩ := qgWrite_written h
      cases hwritten with
      | complete => exact hbad _ _ _ h (Int.natCast_nonneg _)
      | again => exact hbad _ _ _ h (Int.natCast_nonneg _)
      | fatal rest herror hlength =>
          have := htakes.1
          omega
  · intro honce
    refine ⟨fun v sent rest h hv => accepted_of_once honce h hv, fun hne hlen hall => ?_⟩
    have htakes := takes_iff.mp ⟨hlen, hall⟩
    refine qgWrite_of_once (List.length_pos_iff.mpr hne) htakes fun hagain => ?_
    exact honce ⟨hagain, ⟨.inr (.inr htakes)⟩⟩

/-- The kernel accepts one of three bytes, and then two. -/
theorem not_writeContract :
    ¬ ∀ (buffer : Bytes) (rs : List (KernelWrite buffer.length)), WriteContract buffer rs := by
  intro h
  have hbad := h (bytes "abc") [.accepted 1 (by decide), .accepted 2 (by decide)]
  exact absurd (hbad.accepted 3 [0, 0, 1] [] rfl (by decide)).1 (by decide)

/-- The bytes that are accepted under the contract. -/
theorem WriteContract.bytesAt (h : WriteContract buffer rs) {v : Int} {sent : List Nat}
    {rest : List (KernelWrite buffer.length)} (hwrite : qgWrite rs 0 [] = some (v, sent, rest))
    (hv : 0 ≤ v) : QGServer.bytesAt buffer sent = buffer.take v.toNat := by
  rw [(h.accepted v sent rest hwrite hv).1, bytesAt_range]

end Contract

end QGServer
