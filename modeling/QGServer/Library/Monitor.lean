-- SUMMARY: A mutex and a condition variable between any number of threads: exclusion, signals that are not lost, termination.
import Mathlib.Algebra.Order.BigOperators.Group.Finset
import Mathlib.Data.Fintype.BigOperators
import QGServer.Library.Runs

/-!
# Monitors

Threads share a value behind a mutex. A call locks the mutex, tests the value, and
either leaves with a result or waits at the condition variable; who waits gives the
mutex back, and tests again when it has been woken and has the mutex once more. To
leave, a call may notify one of those who wait. A thread may also wake without a
notice.

`Signals` is what the calls must agree on so that no notice is lost: some measure of
the value says how many of those who wait could go on, it is zero if a call waits,
and it grows only with a notice. Then there are never more who could go on than
threads that have been woken and have not tested yet.
-/

namespace Monitor

/-- What a thread does that has the mutex and tests the value. -/
inductive Section (σ ρ : Type*) where
  | wait
  | leave (shared : σ) (notifies : Bool) (result : ρ)

/-- Where a thread is in a call. -/
inductive Place (ω ρ : Type*) where
  | out
  /-- Blocked at the mutex, for the first time. -/
  | entering (op : ω)
  /-- It has the mutex and is about to test. -/
  | inside (op : ω) (again : Bool)
  | asleep (op : ω)
  /-- Blocked at the mutex, to test again. -/
  | woken (op : ω)
  /-- It has the mutex and its result. -/
  | leaving (result : ρ)
  deriving DecidableEq, Repr

namespace Place

variable {ω ρ : Type*}

def isAsleep : Place ω ρ → Bool
  | asleep _ => true
  | _ => false

/-- The thread has the mutex. -/
def holds : Place ω ρ → Bool
  | inside _ _ | leaving _ => true
  | _ => false

/-- The thread has been woken and has not tested since. -/
def signal : Place ω ρ → Nat
  | inside _ true | woken _ => 1
  | _ => 0

/-- A bound on the steps that the thread can take, with those it lets others take. -/
def cost : Place ω ρ → Nat
  | out | asleep _ => 0
  | leaving _ => 1
  | inside _ true => 2
  | woken _ => 3
  | inside _ false => 6
  | entering _ => 7

end Place

structure State (τ σ ω ρ : Type*) where
  shared : σ
  owner : Option τ
  place : τ → Place ω ρ

inductive Label (τ ω : Type*) where
  | call (t : τ) (op : ω)
  | lock (t : τ)
  /-- The test, and what follows up to the return. `chosen` is who is notified. -/
  | run (t : τ) (chosen : Option τ)
  | unlock (t : τ)
  /-- A spurious wake-up. -/
  | wake (t : τ)
  deriving DecidableEq, Repr

/-- Neither a new call nor a spurious wake-up. -/
def Label.quiet {τ ω : Type*} : Label τ ω → Bool
  | call _ _ | wake _ => false
  | _ => true

section Steps

variable {τ σ ω ρ : Type*} [DecidableEq τ]

def State.start (shared : σ) : State τ σ ω ρ := ⟨shared, none, fun _ => .out⟩

def State.move (s : State τ σ ω ρ) (t : τ) (p : Place ω ρ) : State τ σ ω ρ :=
  { s with place := Function.update s.place t p }

/-- One of those who sleep is woken, if there is one. -/
def State.notify [Fintype τ] (s : State τ σ ω ρ) : Bool → Option τ → Option (State τ σ ω ρ)
  | false, none => some s
  | false, some _ => none
  | true, none => if ∀ u, (s.place u).isAsleep = false then some s else none
  | true, some u =>
    match s.place u with
    | .asleep op => some (s.move u (.woken op))
    | _ => none

def step [Fintype τ] (body : ω → σ → Section σ ρ) (s : State τ σ ω ρ) :
    Label τ ω → Option (State τ σ ω ρ)
  | .call t op =>
    match s.place t with
    | .out => some (s.move t (.entering op))
    | _ => none
  | .lock t =>
    if s.owner.isSome then none
    else
      match s.place t with
      | .entering op => some ({ s with owner := some t }.move t (.inside op false))
      | .woken op => some ({ s with owner := some t }.move t (.inside op true))
      | _ => none
  | .run t chosen =>
    match s.place t with
    | .inside op _ =>
      match body op s.shared with
      | .wait => if chosen.isSome then none else some ({ s with owner := none }.move t (.asleep op))
      | .leave shared notifies r => ({ s with shared := shared }.move t (.leaving r)).notify notifies chosen
    | _ => none
  | .unlock t =>
    match s.place t with
    | .leaving _ => some ({ s with owner := none }.move t .out)
    | _ => none
  | .wake t =>
    match s.place t with
    | .asleep op => some (s.move t (.woken op))
    | _ => none

/-- What a step can do. -/
inductive Move (body : ω → σ → Section σ ρ) (s : State τ σ ω ρ) :
    Label τ ω → State τ σ ω ρ → Prop
  | call {t : τ} {op : ω} (hplace : s.place t = .out) :
      Move body s (.call t op) (s.move t (.entering op))
  | lock {t : τ} {op : ω} (hfree : s.owner = none) (hplace : s.place t = .entering op) :
      Move body s (.lock t) ({ s with owner := some t }.move t (.inside op false))
  | relock {t : τ} {op : ω} (hfree : s.owner = none) (hplace : s.place t = .woken op) :
      Move body s (.lock t) ({ s with owner := some t }.move t (.inside op true))
  | wait {t : τ} {op : ω} {again : Bool} (hplace : s.place t = .inside op again)
      (hbody : body op s.shared = .wait) :
      Move body s (.run t none) ({ s with owner := none }.move t (.asleep op))
  | leave {t : τ} {op : ω} {again : Bool} {shared : σ} {r : ρ} (hplace : s.place t = .inside op again)
      (hbody : body op s.shared = .leave shared false r) :
      Move body s (.run t none) ({ s with shared := shared }.move t (.leaving r))
  | leaveAlone {t : τ} {op : ω} {again : Bool} {shared : σ} {r : ρ}
      (hplace : s.place t = .inside op again) (hbody : body op s.shared = .leave shared true r)
      (hnone : ∀ u, (s.place u).isAsleep = false) :
      Move body s (.run t none) ({ s with shared := shared }.move t (.leaving r))
  | leaveNotify {t u : τ} {op op' : ω} {again : Bool} {shared : σ} {r : ρ}
      (hplace : s.place t = .inside op again) (hbody : body op s.shared = .leave shared true r)
      (hasleep : s.place u = .asleep op') :
      Move body s (.run t (some u)) (({ s with shared := shared }.move t (.leaving r)).move u (.woken op'))
  | unlock {t : τ} {r : ρ} (hplace : s.place t = .leaving r) :
      Move body s (.unlock t) ({ s with owner := none }.move t .out)
  | wake {t : τ} {op : ω} (hplace : s.place t = .asleep op) :
      Move body s (.wake t) (s.move t (.woken op))

theorem place_move (s : State τ σ ω ρ) (t : τ) (p : Place ω ρ) : (s.move t p).place t = p := by
  simp [State.move]

theorem place_move_of_ne {t u : τ} (s : State τ σ ω ρ) (p : Place ω ρ) (h : u ≠ t) :
    (s.move t p).place u = s.place u := by
  simp [State.move, h]

theorem isAsleep_eq {p : Place ω ρ} (h : p.isAsleep = true) : ∃ op, p = .asleep op := by
  cases p with
  | asleep op => exact ⟨op, rfl⟩
  | _ => cases h

variable [Fintype τ] {body : ω → σ → Section σ ρ} {s s' : State τ σ ω ρ} {l : Label τ ω}

theorem step_cases (h : step body s l = some s') : Move body s l s' := by
  cases l with
  | call t op =>
      simp only [step] at h
      split at h
      · cases h
        exact .call ‹_›
      · cases h
  | lock t =>
      simp only [step] at h
      split at h
      · cases h
      · rename_i howner
        have hfree : s.owner = none := by simpa using howner
        split at h
        · cases h
          exact .lock hfree ‹_›
        · cases h
          exact .relock hfree ‹_›
        · cases h
  | run t chosen =>
      simp only [step] at h
      split at h
      · rename_i op again hplace
        cases hbody : body op s.shared with
        | wait =>
            rw [hbody] at h
            cases chosen with
            | none =>
                cases h
                exact .wait hplace hbody
            | some u => cases h
        | leave shared notifies r =>
            rw [hbody] at h
            -- the thread itself does not sleep
            have hothers : ∀ u op', (({ s with shared := shared } : State τ σ ω ρ).move t
                (.leaving r)).place u = .asleep op' → s.place u = .asleep op' := by
              intro u op' hu
              by_cases hne : u = t
              · subst hne
                rw [place_move] at hu
                cases hu
              · rwa [place_move_of_ne _ _ hne] at hu
            cases notifies with
            | false =>
                cases chosen with
                | none =>
                    cases h
                    exact .leave hplace hbody
                | some u => cases h
            | true =>
                cases chosen with
                | none =>
                    simp only [State.notify] at h
                    split at h
                    · rename_i hnone
                      cases h
                      refine .leaveAlone hplace hbody fun u => ?_
                      by_cases hne : u = t
                      · rw [hne, hplace]
                        rfl
                      · have hu := hnone u
                        rwa [place_move_of_ne _ _ hne] at hu
                    · cases h
                | some u =>
                    simp only [State.notify] at h
                    split at h
                    · rename_i op' hu
                      cases h
                      exact .leaveNotify hplace hbody (hothers u op' hu)
                    · cases h
      · cases h
  | unlock t =>
      simp only [step] at h
      split at h
      · cases h
        exact .unlock ‹_›
      · cases h
  | wake t =>
      simp only [step] at h
      split at h
      · cases h
        exact .wake ‹_›
      · cases h

/-! ## Sums over the threads -/

/-- The sum of the weights of all threads. -/
def weigh (w : Place ω ρ → Nat) (s : State τ σ ω ρ) : Nat := ∑ t, w (s.place t)

/-- How a sum changes when one thread moves. -/
theorem weigh_move (w : Place ω ρ → Nat) (s : State τ σ ω ρ) (t : τ) (p : Place ω ρ) :
    weigh w (s.move t p) + w (s.place t) = weigh w s + w p := by
  have hupdate : (fun u => w ((s.move t p).place u)) = Function.update (fun u => w (s.place u)) t (w p) := by
    funext u
    by_cases hne : u = t
    · subst hne
      rw [place_move, Function.update_self]
    · rw [place_move_of_ne _ _ hne, Function.update_of_ne hne]
  unfold weigh
  rw [hupdate, Finset.sum_update_of_mem (Finset.mem_univ t),
    ← Finset.sum_sdiff (Finset.subset_univ {t}), Finset.sum_singleton]
  omega

/-! ## Exclusion -/

/-- Exactly the owner of the mutex is in the critical section. -/
def Exclusive (s : State τ σ ω ρ) : Prop := ∀ t, (s.place t).holds = true ↔ s.owner = some t

omit [Fintype τ]

omit [DecidableEq τ] in
theorem exclusive_start (shared : σ) : Exclusive (.start shared : State τ σ ω ρ) := fun _ =>
  ⟨fun h => (by cases h), fun h => (by cases h)⟩

theorem Exclusive.move (h : Exclusive s) {t : τ} {p : Place ω ρ} (hp : p.holds = (s.place t).holds) :
    Exclusive (s.move t p) := by
  intro u
  by_cases hne : u = t
  · subst hne
    rw [place_move, hp]
    exact h u
  · rw [place_move_of_ne _ _ hne]
    exact h u

omit [DecidableEq τ] in
theorem Exclusive.shared (h : Exclusive s) (shared : σ) : Exclusive { s with shared := shared } := h

theorem Exclusive.take (h : Exclusive s) (hfree : s.owner = none) {t : τ} {p : Place ω ρ}
    (hp : p.holds = true) : Exclusive ({ s with owner := some t }.move t p) := by
  intro u
  by_cases hne : u = t
  · subst hne
    rw [place_move]
    exact iff_of_true hp rfl
  · rw [place_move_of_ne _ _ hne]
    have hu := h u
    rw [hfree] at hu
    refine iff_of_false (fun hholds => ?_) fun howner => hne (Option.some.inj howner).symm
    cases hu.mp hholds

theorem Exclusive.give (h : Exclusive s) {t : τ} (ht : (s.place t).holds = true) {p : Place ω ρ}
    (hp : p.holds = false) : Exclusive ({ s with owner := none }.move t p) := by
  intro u
  by_cases hne : u = t
  · subst hne
    rw [place_move, hp]
    exact iff_of_false Bool.false_ne_true fun howner => (by cases howner)
  · rw [place_move_of_ne _ _ hne]
    refine iff_of_false (fun hholds => hne ?_) fun howner => (by cases howner)
    exact Option.some.inj (((h u).mp hholds).symm.trans ((h t).mp ht))

theorem exclusive_move (h : Exclusive s) {l : Label τ ω} (hmove : Move body s l s') : Exclusive s' := by
  have hinside : ∀ {t op again}, s.place t = .inside op again → (s.place t).holds = true := by
    intro t op again hplace
    rw [hplace]
    rfl
  cases hmove with
  | call hplace => exact h.move (by rw [hplace]; rfl)
  | lock hfree hplace => exact h.take hfree rfl
  | relock hfree hplace => exact h.take hfree rfl
  | wait hplace hbody => exact h.give (hinside hplace) rfl
  | @leave t op again shared r hplace hbody =>
      exact (h.shared shared).move (t := t) (p := .leaving r) (hinside hplace).symm
  | @leaveAlone t op again shared r hplace hbody hnone =>
      exact (h.shared shared).move (t := t) (p := .leaving r) (hinside hplace).symm
  | @leaveNotify t u op op' again shared r hplace hbody hasleep =>
      have hleaving := (h.shared shared).move (t := t) (p := .leaving r) (hinside hplace).symm
      refine hleaving.move ?_
      have hne : u ≠ t := by
        rintro rfl
        rw [hplace] at hasleep
        cases hasleep
      rw [place_move_of_ne _ _ hne]
      change _ = (s.place u).holds
      rw [hasleep]
      rfl
  | unlock hplace => exact h.give (by rw [hplace]; rfl) rfl
  | wake hplace => exact h.move (by rw [hplace]; rfl)

end Steps

/-! ## Signals -/

section Signals

variable {τ σ ω ρ : Type*} [DecidableEq τ] [Fintype τ]

/-- What the calls agree on. `avail` is how many of those who wait could go on,
    `waits` are the calls that may wait, and `ok` the calls that are made. -/
structure Signals (body : ω → σ → Section σ ρ) (waits : ω → Bool) (ok : ω → Prop)
    (avail : σ → Nat) : Prop where
  wait : ∀ op s, body op s = .wait → waits op = true ∧ avail s = 0
  leave : ∀ op s s' notifies r, ok op → body op s = .leave s' notifies r →
    avail s' ≤ avail s + notifies.toNat
  /-- Who was woken takes what it was woken for. -/
  take : ∀ op s s' notifies r, waits op = true → body op s = .leave s' notifies r →
    notifies = false ∧ avail s' < avail s

/-- The call that the thread is in. -/
def Place.Fits (waits : ω → Bool) (ok : ω → Prop) : Place ω ρ → Prop
  | .out | .leaving _ => True
  | .entering op | .inside op false => ok op
  | .inside op true | .asleep op | .woken op => ok op ∧ waits op = true

/-- What holds in every state of a run. If a thread sleeps, not more could go on than
    have been woken. -/
structure Heard (waits : ω → Bool) (ok : ω → Prop) (avail : σ → Nat) (s : State τ σ ω ρ) : Prop where
  exclusive : Exclusive s
  fits : ∀ t, (s.place t).Fits waits ok
  heard : ∀ t, (s.place t).isAsleep = true → avail s.shared ≤ weigh Place.signal s

variable {body : ω → σ → Section σ ρ} {waits : ω → Bool} {ok : ω → Prop} {avail : σ → Nat}
  {s s' : State τ σ ω ρ} {l : Label τ ω}

omit [DecidableEq τ] in
theorem heard_start (shared : σ) : Heard waits ok avail (.start shared : State τ σ ω ρ) :=
  ⟨exclusive_start shared, fun _ => trivial, fun _ h => (by cases h)⟩

omit [Fintype τ] in
theorem fits_move {t : τ} {p : Place ω ρ} (h : ∀ u, (s.place u).Fits waits ok)
    (hp : p.Fits waits ok) (u : τ) : ((s.move t p).place u).Fits waits ok := by
  by_cases hne : u = t
  · subst hne
    rw [place_move]
    exact hp
  · rw [place_move_of_ne _ _ hne]
    exact h u

omit [Fintype τ] in
/-- A thread that moves to a place where it does not sleep puts nobody to sleep. -/
theorem asleep_of_move {t u : τ} {p : Place ω ρ} (hp : p.isAsleep = false)
    (h : ((s.move t p).place u).isAsleep = true) : (s.place u).isAsleep = true := by
  by_cases hne : u = t
  · subst hne
    rw [place_move, hp] at h
    cases h
  · rwa [place_move_of_ne _ _ hne] at h

omit [Fintype τ] in
theorem Fits.inside {op : ω} {again : Bool} (h : Place.Fits waits ok (.inside op again : Place ω ρ)) :
    ok op ∧ (again = true → waits op = true) := by
  cases again with
  | true => exact ⟨h.1, fun _ => h.2⟩
  | false => exact ⟨h, fun h => (by cases h)⟩

omit [DecidableEq τ] [Fintype τ] in
/-- A thread tests and leaves: it has used up a signal if it had one. -/
theorem Signals.leave_le (hsignals : Signals body waits ok avail) {op : ω} {again notifies : Bool}
    {shared : σ} {r : ρ} (hfits : Place.Fits waits ok (.inside op again : Place ω ρ))
    (hbody : body op s.shared = .leave shared notifies r) :
    avail shared + (Place.inside op again : Place ω ρ).signal ≤ avail s.shared + notifies.toNat := by
  cases again with
  | true =>
      obtain ⟨rfl, htake⟩ := hsignals.take _ _ _ _ _ hfits.2 hbody
      exact htake
  | false => exact hsignals.leave _ _ _ _ _ hfits hbody

theorem heard_move (hsignals : Signals body waits ok avail) (h : Heard waits ok avail s)
    (hok : ∀ t op, l = .call t op → ok op) (hmove : Move body s l s') : Heard waits ok avail s' := by
  refine ⟨exclusive_move h.exclusive hmove, ?_, ?_⟩
  · -- the calls stay what they are
    cases hmove with
    | @call t op hplace => exact fits_move h.fits (hok t op rfl)
    | @lock t op hfree hplace =>
        have hop := h.fits t
        rw [hplace] at hop
        exact fits_move (s := { s with owner := some t }) h.fits hop
    | @relock t op hfree hplace =>
        have hop := h.fits t
        rw [hplace] at hop
        exact fits_move (s := { s with owner := some t }) h.fits hop
    | @wait t op again hplace hbody =>
        have hop := h.fits t
        rw [hplace] at hop
        exact fits_move (s := { s with owner := none }) h.fits
          ⟨(Fits.inside hop).1, (hsignals.wait _ _ hbody).1⟩
    | @leave t op again shared r hplace hbody =>
        exact fits_move (s := { s with shared := shared }) h.fits trivial
    | @leaveAlone t op again shared r hplace hbody hnone =>
        exact fits_move (s := { s with shared := shared }) h.fits trivial
    | @leaveNotify t u op op' again shared r hplace hbody hasleep =>
        have hop := h.fits u
        rw [hasleep] at hop
        exact fits_move (fits_move (s := { s with shared := shared }) h.fits trivial) hop
    | @unlock t r hplace => exact fits_move (s := { s with owner := none }) h.fits trivial
    | @wake t op hplace =>
        have hop := h.fits t
        rw [hplace] at hop
        exact fits_move h.fits hop
  · -- the signals
    intro u hu
    cases hmove with
    | @call t op hplace =>
        have hweigh := weigh_move Place.signal s t (.entering op)
        have hle := h.heard u (asleep_of_move rfl hu)
        rw [hplace] at hweigh
        exact hle.trans hweigh.ge
    | @lock t op hfree hplace =>
        have hweigh := weigh_move Place.signal { s with owner := some t } t (.inside op false)
        have hle := h.heard u (asleep_of_move rfl hu)
        change _ + (s.place t).signal = weigh _ s + _ at hweigh
        rw [hplace] at hweigh
        exact hle.trans hweigh.ge
    | @relock t op hfree hplace =>
        have hweigh := weigh_move Place.signal { s with owner := some t } t (.inside op true)
        have hle := h.heard u (asleep_of_move rfl hu)
        change _ + (s.place t).signal = weigh _ s + _ at hweigh
        rw [hplace] at hweigh
        exact hle.trans (Nat.le_of_add_le_add_right hweigh.ge)
    | wait hplace hbody =>
        change avail s.shared ≤ _
        rw [(hsignals.wait _ _ hbody).2]
        exact Nat.zero_le _
    | @leave t op again shared r hplace hbody =>
        have hfits := h.fits t
        have hweigh := weigh_move Place.signal { s with shared := shared } t (.leaving r)
        change _ + (s.place t).signal = weigh _ s + 0 at hweigh
        rw [hplace] at hfits hweigh
        have hleave := hsignals.leave_le hfits hbody
        have hle := h.heard u (asleep_of_move rfl hu)
        change avail shared ≤ _
        rw [Bool.toNat_false] at hleave
        omega
    | @leaveAlone t op again shared r hplace hbody hnone =>
        have hasleep : (s.place u).isAsleep = true := asleep_of_move rfl hu
        rw [hnone u] at hasleep
        cases hasleep
    | @leaveNotify t v op op' again shared r hplace hbody hasleep =>
        have hne : v ≠ t := by
          rintro rfl
          rw [hplace] at hasleep
          cases hasleep
        have hfits := h.fits t
        have hweigh := weigh_move Place.signal { s with shared := shared } t (.leaving r)
        have hweigh' := weigh_move Place.signal
          (({ s with shared := shared } : State τ σ ω ρ).move t (.leaving r)) v (.woken op')
        change _ + (s.place t).signal = weigh _ s + 0 at hweigh
        rw [place_move_of_ne _ _ hne] at hweigh'
        change _ + (s.place v).signal = _ + 1 at hweigh'
        rw [hplace] at hfits hweigh
        rw [hasleep] at hweigh'
        change _ + 0 = _ at hweigh'
        have hleave := hsignals.leave_le hfits hbody
        have hle := h.heard v (by rw [hasleep]; rfl)
        change avail shared ≤ _
        rw [Bool.toNat_true] at hleave
        omega
    | @unlock t r hplace =>
        have hweigh := weigh_move Place.signal { s with owner := none } t .out
        have hle := h.heard u (asleep_of_move rfl hu)
        change _ + (s.place t).signal = weigh _ s + _ at hweigh
        rw [hplace] at hweigh
        exact hle.trans hweigh.ge
    | @wake t op hplace =>
        have hweigh := weigh_move Place.signal s t (.woken op)
        have hle := h.heard u (asleep_of_move rfl hu)
        rw [hplace] at hweigh
        change _ + 0 = _ + 1 at hweigh
        change avail s.shared ≤ _
        omega

/-! ## Termination -/

omit [DecidableEq τ] in
theorem weigh_cost_le (s : State τ σ ω ρ) : weigh Place.cost s ≤ 7 * Fintype.card τ := by
  have hplace : ∀ p : Place ω ρ, p.cost ≤ 7 := by
    intro p
    cases p with
    | inside op again => cases again <;> simp [Place.cost]
    | _ => simp [Place.cost]
  calc weigh Place.cost s ≤ ∑ _t : τ, 7 := Finset.sum_le_sum fun t _ => hplace _
    _ = 7 * Fintype.card τ := by simp [Nat.mul_comm]

/-- Every step without a new call or a spurious wake-up lowers the cost. -/
theorem cost_lt (hsignals : Signals body waits ok avail) (h : Heard waits ok avail s)
    (hquiet : l.quiet = true) (hmove : Move body s l s') :
    weigh Place.cost s' < weigh Place.cost s := by
  -- testing is worth more than what comes after it
  have hinside : ∀ {op : ω} {again : Bool}, 2 ≤ (Place.inside op again : Place ω ρ).cost := by
    intro op again
    cases again <;> simp [Place.cost]
  cases hmove with
  | call hplace => cases hquiet
  | @lock t op hfree hplace =>
      have hweigh := weigh_move Place.cost { s with owner := some t } t (.inside op false)
      change _ + (s.place t).cost = weigh _ s + 6 at hweigh
      rw [hplace] at hweigh
      change _ + 7 = _ at hweigh
      omega
  | @relock t op hfree hplace =>
      have hweigh := weigh_move Place.cost { s with owner := some t } t (.inside op true)
      change _ + (s.place t).cost = weigh _ s + 2 at hweigh
      rw [hplace] at hweigh
      change _ + 3 = _ at hweigh
      omega
  | @wait t op again hplace hbody =>
      have hweigh := weigh_move Place.cost { s with owner := none } t (.asleep op)
      change _ + (s.place t).cost = weigh _ s + 0 at hweigh
      rw [hplace] at hweigh
      have := @hinside op again
      omega
  | @leave t op again shared r hplace hbody =>
      have hweigh := weigh_move Place.cost { s with shared := shared } t (.leaving r)
      change _ + (s.place t).cost = weigh _ s + 1 at hweigh
      rw [hplace] at hweigh
      have := @hinside op again
      omega
  | @leaveAlone t op again shared r hplace hbody hnone =>
      have hweigh := weigh_move Place.cost { s with shared := shared } t (.leaving r)
      change _ + (s.place t).cost = weigh _ s + 1 at hweigh
      rw [hplace] at hweigh
      have := @hinside op again
      omega
  | @leaveNotify t v op op' again shared r hplace hbody hasleep =>
      have hne : v ≠ t := by
        rintro rfl
        rw [hplace] at hasleep
        cases hasleep
      -- who notifies has not waited
      have hfirst : again = false := by
        cases again with
        | false => rfl
        | true =>
            have hfits := h.fits t
            rw [hplace] at hfits
            cases (hsignals.take _ _ _ _ _ hfits.2 hbody).1
      subst hfirst
      have hweigh := weigh_move Place.cost { s with shared := shared } t (.leaving r)
      have hweigh' := weigh_move Place.cost
        (({ s with shared := shared } : State τ σ ω ρ).move t (.leaving r)) v (.woken op')
      change _ + (s.place t).cost = weigh _ s + 1 at hweigh
      rw [place_move_of_ne _ _ hne] at hweigh'
      change _ + (s.place v).cost = _ + 3 at hweigh'
      rw [hplace] at hweigh
      change _ + 6 = _ at hweigh
      rw [hasleep] at hweigh'
      change _ + 0 = _ at hweigh'
      omega
  | @unlock t r hplace =>
      have hweigh := weigh_move Place.cost { s with owner := none } t .out
      change _ + (s.place t).cost = weigh _ s + 0 at hweigh
      rw [hplace] at hweigh
      change _ + 1 = _ at hweigh
      omega
  | wake hplace => cases hquiet

/-- No thread can move but by a new call or a spurious wake-up. -/
def Stuck (body : ω → σ → Section σ ρ) (s : State τ σ ω ρ) : Prop :=
  ∀ l : Label τ ω, l.quiet = true → step body s l = none

theorem stuck_of_places (hplaces : ∀ t, s.place t = .out ∨ (s.place t).isAsleep = true) :
    Stuck body s := by
  have hplace : ∀ {t p}, s.place t = p → p = .out ∨ p.isAsleep = true := fun h => h ▸ hplaces _
  intro l hquiet
  refine Option.eq_none_iff_forall_ne_some.mpr fun s' hstep => ?_
  cases step_cases hstep with
  | call h | wake h => cases hquiet
  | lock hfree h | relock hfree h => rcases hplace h with hp | hp <;> cases hp
  | wait h | leave h | leaveAlone h | leaveNotify h | unlock h =>
      rcases hplace h with hp | hp <;> cases hp

/-- Who has tested can leave, and somebody is notified if somebody sleeps. -/
theorem exists_notify (s : State τ σ ω ρ) (notifies : Bool) :
    ∃ chosen s', s.notify notifies chosen = some s' := by
  cases notifies with
  | false => exact ⟨none, s, rfl⟩
  | true =>
      by_cases hnone : ∀ u, (s.place u).isAsleep = false
      · exact ⟨none, s, if_pos hnone⟩
      · obtain ⟨u, hu⟩ := not_forall.mp hnone
        obtain ⟨op, hop⟩ := isAsleep_eq (Bool.eq_true_of_not_eq_false hu)
        refine ⟨some u, s.move u (.woken op), ?_⟩
        simp [State.notify, hop]

/-- Where no thread can move, each has returned or sleeps, and who sleeps could not go on. -/
theorem places_of_stuck (h : Heard waits ok avail s) (hstuck : Stuck body s) :
    (∀ t, s.place t = .out ∨ (s.place t).isAsleep = true) ∧
      ∀ t, (s.place t).isAsleep = true → avail s.shared = 0 := by
  have hholds : ∀ t, (s.place t).holds = false := by
    intro t
    cases hplace : s.place t with
    | inside op again =>
        exfalso
        cases hbody : body op s.shared with
        | wait =>
            have hnone := hstuck (.run t none) rfl
            simp [step, hplace, hbody] at hnone
        | leave shared notifies r =>
            obtain ⟨chosen, s', hs'⟩ :=
              exists_notify (({ s with shared := shared } : State τ σ ω ρ).move t (.leaving r)) notifies
            have hnone := hstuck (.run t chosen) rfl
            simp [step, hplace, hbody, hs'] at hnone
    | leaving r =>
        have hnone := hstuck (.unlock t) rfl
        simp [step, hplace] at hnone
    | _ => rfl
  have hfree : s.owner = none := by
    refine Option.eq_none_iff_forall_ne_some.mpr fun t howner => ?_
    have htrue := (h.exclusive t).mpr howner
    rw [hholds t] at htrue
    cases htrue
  have hplaces : ∀ t, s.place t = .out ∨ (s.place t).isAsleep = true := by
    intro t
    have hheld := hholds t
    cases hplace : s.place t with
    | out => exact .inl rfl
    | asleep op => exact .inr rfl
    | entering op =>
        have hnone := hstuck (.lock t) rfl
        simp [step, hplace, hfree] at hnone
    | woken op =>
        have hnone := hstuck (.lock t) rfl
        simp [step, hplace, hfree] at hnone
    | inside op again =>
        rw [hplace] at hheld
        cases hheld
    | leaving r =>
        rw [hplace] at hheld
        cases hheld
  refine ⟨hplaces, fun t ht => ?_⟩
  have hsignals : weigh Place.signal s = 0 := by
    refine Finset.sum_eq_zero fun u _ => ?_
    rcases hplaces u with hout | hasleep
    · rw [hout]
      rfl
    · obtain ⟨op, hop⟩ := isAsleep_eq hasleep
      rw [hop]
      rfl
  have hle := h.heard t ht
  rw [hsignals] at hle
  exact Nat.le_zero.mp hle

/-! ## Runs -/

theorem heard_step (hsignals : Signals body waits ok avail) (s : State τ σ ω ρ) (l : Label τ ω)
    (s' : State τ σ ω ρ) (h : Heard waits ok avail s) (hok : ∀ t op, l = .call t op → ok op)
    (hstep : step body s l = some s') : Heard waits ok avail s' :=
  heard_move hsignals h hok (step_cases hstep)

omit [DecidableEq τ] [Fintype τ] in
theorem ok_of_quiet (hquiet : l.quiet = true) (t : τ) (op : ω) (hl : l = .call t op) : ok op := by
  rw [hl] at hquiet
  cases hquiet

/-- A run without new calls and spurious wake-ups is no longer than the cost. -/
theorem length_le_cost (hsignals : Signals body waits ok avail) {ls : List (Label τ ω)}
    (h : Heard waits ok avail s) (hquiet : ∀ l ∈ ls, l.quiet = true)
    (hrun : Runs.exec (step body) s ls = some s') :
    ls.length + weigh Place.cost s' ≤ weigh Place.cost s ∧ Heard waits ok avail s' := by
  induction ls generalizing s with
  | nil =>
      cases hrun
      exact ⟨(Nat.zero_add _).le, h⟩
  | cons l ls ih =>
      rw [List.forall_mem_cons] at hquiet
      obtain ⟨u, hu, hrun⟩ := Option.bind_eq_some_iff.mp hrun
      have hheard := heard_step hsignals _ _ _ h (ok_of_quiet hquiet.1) hu
      have hcost := cost_lt hsignals h hquiet.1 (step_cases hu)
      obtain ⟨hlength, hlast⟩ := ih hheard hquiet.2 hrun
      refine ⟨?_, hlast⟩
      rw [List.length_cons]
      omega

/-- Such a run can be carried on until no thread can move. -/
theorem exists_stuck (hsignals : Signals body waits ok avail) (h : Heard waits ok avail s) :
    ∃ ls s', (∀ l ∈ ls, l.quiet = true) ∧ Runs.exec (step body) s ls = some s' ∧ Stuck body s' := by
  induction hn : weigh Place.cost s using Nat.strong_induction_on generalizing s with
  | _ n ih =>
      by_cases hstuck : Stuck body s
      · exact ⟨[], s, by simp, rfl, hstuck⟩
      · obtain ⟨l, hl⟩ := not_forall.mp hstuck
        obtain ⟨hquiet, hsome⟩ := Classical.not_imp.mp hl
        obtain ⟨u, hu⟩ := Option.ne_none_iff_exists'.mp hsome
        have hheard := heard_step hsignals _ _ _ h (ok_of_quiet hquiet) hu
        have hcost := cost_lt hsignals h hquiet (step_cases hu)
        obtain ⟨ls, s', hall, hrun, hend⟩ := ih _ (hn ▸ hcost) hheard rfl
        refine ⟨l :: ls, s', List.forall_mem_cons.mpr ⟨hquiet, hall⟩, ?_, hend⟩
        rw [Runs.exec_cons, hu]
        exact hrun

end Signals

end Monitor
