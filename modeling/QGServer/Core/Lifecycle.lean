-- SUMMARY: The order of the user callbacks of a connection, and the one that is never called.
import QGServer.Core.Accounting
import QGServer.Core.Requests

/-!
# Callbacks of a connection

`handleConnection` calls the connection-come callback, `handleRead` the message
callback, and the functors of a send that is complete the write-complete
callback. The server keeps a connection-close callback as well, but gives its
connections `closeAtBaseLoop` in its place, and nothing calls it.

What has been called so far is read off the history of a run.
-/

namespace QGServer

/-- The callbacks that a user of the server sets. -/
inductive UserCallback where
  | connectionCome
  | message
  | writeComplete
  | connectionClose
  deriving DecidableEq, Repr

/-- The callback belongs between the first and the last one. -/
def UserCallback.isMiddle : UserCallback → Bool
  | .message | .writeComplete => true
  | _ => false

/-! ## One step of one connection -/

namespace Session

variable {κ ε : Type*} {user : UserCode κ ε} {s s' : Session κ} {l : Label ε}

/-- The user callback that a step calls. No step calls `connectionClose`. -/
def invoked (s : Session κ) : Label ε → Option UserCallback
  | .readable rs _ =>
    match s.conn.handleRead rs with
    | some (.message _, _, []) => if s.alive then some .message else none
    | _ => none
  | .runIo _ _ =>
    match s.io.front with
    | some .handleConnection => some .connectionCome
    | some (.writeComplete _) => some .writeComplete
    | _ => none
  | _ => none

/-- The first callback is called by `handleConnection`, the others come after it. -/
theorem invoked_cases (hlife : s.Lifetime) (h : step user s l = some s') {c : UserCallback}
    (hc : s.invoked l = some c) :
    c = .connectionCome ∧ s.Unopened ∨ c.isMiddle = true ∧ ¬ s.Unopened := by
  have hfault := step_fault h
  unfold step at h
  simp only [hfault, Option.isSome_none, Bool.false_eq_true, if_false] at h
  cases l with
  | readable rs env =>
      simp only [Option.ite_none_right_eq_some, Bool.and_eq_true] at h
      obtain ⟨⟨-, hreading⟩, -⟩ := h
      refine .inr ⟨?_, hlife.open_of_reading hreading⟩
      simp only [invoked] at hc
      split at hc
      · split at hc
        · obtain rfl := Option.some.inj hc
          rfl
        · cases hc
      · cases hc
  | runIo w env =>
      simp only [invoked] at hc
      split at hc
      · rename_i hfront
        refine .inl ⟨(Option.some.inj hc).symm, ?_⟩
        simp [Unopened, BatchQueue.waiting_start hfront]
      · rename_i buf hfront
        obtain rfl := Option.some.inj hc
        exact .inr ⟨rfl, hlife.open_of_front hfront (by simp)⟩
      · cases hc
  | _ => cases hc

/-- Only `handleConnection` registers a handler. -/
theorem come_of_registers {r : Result} (hmade : s.made l = some r)
    (hr : .registerHandler ∈ r.effects) : s.invoked l = some .connectionCome := by
  cases l with
  | readable rs env =>
      simp only [made] at hmade
      split at hmade
      · obtain rfl := Option.some.inj hmade
        exact absurd hr TcpConnection.ordinary_close.registers
      · obtain rfl := Option.some.inj hmade
        exact absurd hr TcpConnection.ordinary_handleClose.registers
      · cases hmade
  | writable w =>
      simp only [made, Except.toOption] at hmade
      split at hmade
      · rename_i r' hw
        obtain rfl := Option.some.inj hmade
        exact absurd hr (TcpConnection.ordinary_handleWrite hw).registers
      · cases hmade
  | call =>
      simp only [made] at hmade
      split at hmade
      · obtain rfl := Option.some.inj hmade
        exact absurd hr (TcpConnection.ordinary_call _).registers
      · cases hmade
  | runIo w env =>
      simp only [made] at hmade
      split at hmade
      · rename_i hfront
        simp [invoked, hfront]
      · rename_i data hfront
        simp only [Except.toOption] at hmade
        split at hmade
        · rename_i r' hw
          obtain rfl := Option.some.inj hmade
          exact absurd hr (TcpConnection.ordinary_writeInLoop hw).registers
        · cases hmade
      · obtain rfl := Option.some.inj hmade
        simp [TcpConnection.closeConnection] at hr
      · cases hmade
  | _ => cases hmade

theorem made_of_come (h : s.invoked l = some .connectionCome) :
    s.made l = some s.conn.handleConnection := by
  cases l with
  | readable rs env =>
      simp only [invoked] at h
      split at h
      · split at h <;> cases h
      · cases h
  | runIo w env =>
      simp only [invoked] at h
      split at h
      · rename_i hfront
        simp [made, hfront]
      · cases h
      · cases h
  | _ => cases h

/-- A connection that has seen no callback still has its first functor to run. -/
theorem unopened_step (hlife : s.Lifetime) (h : step user s l = some s') (halive : s'.fault = none) :
    s'.Unopened ↔ s.Unopened ∧ s.invoked l = none := by
  have hmove := pollerMove_of_move hlife (step_cases h halive) halive
  generalize hmade : s.made l = r at hmove
  cases hinvoked : s.invoked l with
  | none =>
      rw [and_iff_left rfl]
      cases hmove with
      | silent hregistered hunopened hinterest => exact hunopened
      | tells hr hupdates hregistered hunopened hinterest => exact hunopened
      | closes hbefore hafter hunopened hinterest => exact hunopened
      | opens hbefore hafter hregistered hinterest =>
          have hcome := come_of_registers hmade (by simp [TcpConnection.handleConnection])
          rw [hinvoked] at hcome
          cases hcome
  | some c =>
      refine iff_of_false ?_ (by simp)
      rcases invoked_cases hlife h hinvoked with ⟨rfl, hbefore⟩ | ⟨-, hbefore⟩
      · rw [made_of_come hinvoked] at hmade
        cases hmove with
        | silent hregistered hunopened hinterest => cases hmade
        | opens hbefore hafter hregistered hinterest => exact hafter
        | tells hr hupdates hregistered hunopened hinterest =>
            obtain rfl := Option.some.inj hmade
            exact absurd hr.registers (by simp [TcpConnection.handleConnection])
        | closes hregistered hafter hunopened hinterest =>
            have heffects := congrArg Result.effects (Option.some.inj hmade)
            cases heffects
      · cases hmove with
        | silent hregistered hunopened hinterest => exact mt hunopened.mp hbefore
        | opens hopen hafter hregistered hinterest => exact hafter
        | tells hr hupdates hregistered hunopened hinterest => exact mt hunopened.mp hbefore
        | closes hregistered hafter hunopened hinterest => exact mt hunopened.mp hbefore

end Session

/-! ## The server -/

namespace Server

variable {κ ε : Type*} {user : UserCode κ ε} {context : κ} {s s' : Server κ} {l : Label ε} {i : Nat}

/-- The user callback that a step calls for connection `i`. -/
def invoked (s : Server κ) (l : Label ε) (i : Nat) : Option UserCallback :=
  (s.worksFor l).bind fun (k, l) => if k = i then (s.session k).invoked l else none

/-- The user callbacks called for connection `i`, in the order of the calls. -/
def callbacks (i : Nat) : List (Server κ × Label ε) → List UserCallback
  | [] => []
  | (s, l) :: past => callbacks i past ++ (s.invoked l i).toList

/-- The callbacks follow the lifecycle of the connection: it comes, messages and
    completions follow in any number, and once `closeConnection` has run the
    connection-close callback has been the last one. -/
structure Lifecycle (i : Nat) (h : Server κ × List (Server κ × Label ε)) : Prop where
  order : ∃ middle : List UserCallback, (∀ c ∈ middle, c.isMiddle = true) ∧
    callbacks i h.2 <+: .connectionCome :: middle ++ [.connectionClose]
  closed : 0 < (h.1.connection i).closed → (callbacks i h.2).getLast? = some .connectionClose

/-- A step that calls a callback for a connection is one of its session. -/
theorem invoked_eq_some {c : UserCallback} (h : s.invoked l i = some c) :
    ∃ l', s.worksFor l = some (i, l') ∧ (s.session i).invoked l' = some c := by
  obtain ⟨⟨k, l'⟩, hworks, hc⟩ := Option.bind_eq_some_iff.mp h
  rw [Option.ite_none_right_eq_some] at hc
  obtain ⟨rfl, hc⟩ := hc
  exact ⟨l', hworks, hc⟩

theorem invoked_cases (hheld : s.Held) (h : s.step user context l = some s') {c : UserCallback}
    (hc : s.invoked l i = some c) :
    i < s.constructed ∧
      (c = .connectionCome ∧ (s.session i).Unopened ∨
        c.isMiddle = true ∧ ¬ (s.session i).Unopened) := by
  obtain ⟨l', hworks, hc⟩ := invoked_eq_some hc
  obtain ⟨hi, σ, -, hσ⟩ := stepsAs_of_worksFor hheld.toGood h hworks
  exact ⟨hi, Session.invoked_cases (hheld.sessions i hi).toLifetime hσ hc⟩

theorem unopened_step (hheld : s.Held) (h : s.step user context l = some s')
    (hl : ∀ fd, l = .accept fd → s' = s) (halive : s'.fault = none) (hi : i < s.constructed) :
    (s'.session i).Unopened ↔ (s.session i).Unopened ∧ s.invoked l i = none := by
  cases hworks : s.worksFor l with
  | none =>
      have hmove := pollerMove_step hheld h hl halive hi
      have hmade : s.madeFor l i = none := by simp [madeFor, hworks]
      rw [hmade] at hmove
      have hinvoked : s.invoked l i = none := by simp [invoked, hworks]
      rw [hinvoked, and_iff_left rfl]
      cases hmove with
      | silent hregistered hunopened hinterest => exact hunopened
  | some kl =>
      obtain ⟨k, l'⟩ := kl
      obtain ⟨hk, σ, hacts, hσ⟩ := stepsAs_of_worksFor hheld.toGood h hworks
      have hinvoked : s.invoked l i = if k = i then (s.session k).invoked l' else none := by
        simp [invoked, hworks]
      rw [hinvoked]
      split
      · rename_i hik
        subst hik
        rw [hacts.session]
        have hfault : σ.fault = none := by
          rw [← hacts.session]
          exact fault_session halive
        exact Session.unopened_step (hheld.sessions k hk).toLifetime hσ hfault
      · rename_i hik
        rw [hacts.frame.others i (Ne.symm hik), and_iff_left rfl]

/-! ## The callbacks of a run -/

/-- The step does not run `closeConnection` for connection `i`. -/
def Spares (i : Nat) (s : Server κ) (l : Label ε) : Prop := s.closes l ≠ some i

instance (s : Server κ) (l : Label ε) : Decidable (s.Spares i l) :=
  inferInstanceAs (Decidable (s.closes l ≠ some i))

/-- What every history of a run satisfies. -/
structure Called (i : Nat) (h : Server κ × List (Server κ × Label ε)) : Prop where
  reachable : h.1.Reachable
  order : callbacks i h.2 = [] ∨ ∃ middle : List UserCallback,
    (∀ c ∈ middle, c.isMiddle = true) ∧ callbacks i h.2 = .connectionCome :: middle
  unbuilt : h.1.constructed ≤ i → callbacks i h.2 = [] ∧ (h.1.connection i).closed = 0
  unopened : h.1.fault = none → i < h.1.constructed →
    ((h.1.session i).Unopened ↔ callbacks i h.2 = [])
  closed : (h.1.connection i).closed = 0 ↔ ∀ x ∈ h.2, x.1.Spares i x.2

theorem called_start (context : κ) (threads : Nat) (highWater : Int) (i : Nat) :
    Called i (start context threads highWater, ([] : List (Server κ × Label ε))) := by
  refine ⟨reachable_start context threads highWater, .inl rfl, fun _ => ⟨rfl, rfl⟩, ?_, ?_⟩
  · intro _ hi
    cases hi
  · exact iff_of_true rfl (by simp)

theorem closes_run {j : Nat} {w : WriteOutcome} {env : ε}
    (h : s.step user context (.run j w env) = some s') :
    s.closes (.run j w env : Label ε) = some i ↔
      (s.loops j).queue.front = some (.io i .closeConnection) := by
  have hfault := step_fault h
  unfold step at h
  simp only [hfault, Option.isSome_none, Bool.false_eq_true, if_false] at h
  split at h
  · rename_i f hframe hfront
    simp only [closes, hfault, hframe, hfront, Option.some.injEq]
    cases f with
    | io k f => cases f <;> simp
    | handleConnectionClose k => simp
  · cases h

/-- The server closes a connection where its session does. -/
theorem closes_iff (hgood : s.Good) (h : s.step user context l = some s') {k : Nat}
    {l' : Session.Label ε} (hworks : s.worksFor l = some (k, l')) :
    s.closes l = some i ↔ k = i ∧ (s.session k).Closes l' := by
  cases l with
  | run j w env =>
      rw [closes_run h]
      rcases steps_run hgood h with ⟨k', f, hfront, -⟩ | ⟨k', hfront, -⟩
      · obtain ⟨-, rfl⟩ := hgood.functors _ _ _ (BatchQueue.mem_all_of_front hfront)
        simp only [worksFor, hfront, Option.map_some] at hworks
        cases hworks
        rw [Session.closes_runIo, mem_io_of_front hfront, hfront]
        simp
      · simp only [worksFor, hfront, Option.map_some] at hworks
        cases hworks
        rw [hfront]
        simp [Session.Closes]
  | call j =>
      obtain ⟨f, -, heq⟩ := Option.map_eq_some_iff.mp hworks
      cases heq
      simp [closes, Session.Closes]
  | leave j =>
      obtain ⟨f, -, heq⟩ := Option.map_eq_some_iff.mp hworks
      cases heq
      simp [closes, Session.Closes]
  | readable k' rs env =>
      cases hworks
      simp [closes, Session.Closes]
  | writable k' w =>
      cases hworks
      simp [closes, Session.Closes]
  | _ => cases hworks

/-- What works for no connection changes none. -/
theorem connection_idle (hgood : s.Good) (h : s.step user context l = some s')
    (hl : ∀ fd, l = .accept fd → s' = s) (hworks : s.worksFor l = none) :
    s'.connection = s.connection := by
  have hfault := step_fault h
  rcases idle_of_worksFor hgood h hworks with ⟨fd, rfl⟩ | ⟨j, rfl⟩ | ⟨j, rfl⟩
  · rw [hl fd rfl]
  · unfold step at h
    simp only [hfault, Option.isSome_none, Bool.false_eq_true, if_false,
      Option.ite_none_right_eq_some, Option.some.injEq] at h
    obtain ⟨-, rfl⟩ := h
    rfl
  · unfold step at h
    simp only [hfault, Option.isSome_none, Bool.false_eq_true, if_false,
      Option.ite_none_right_eq_some, Option.some.injEq] at h
    obtain ⟨-, rfl⟩ := h
    rfl

theorem closed_step (hgood : s.Good) (h : s.step user context l = some s')
    (hl : ∀ fd, l = .accept fd → s' = s) :
    (s'.connection i).closed = 0 ↔ (s.connection i).closed = 0 ∧ s.Spares i l := by
  cases hworks : s.worksFor l with
  | none =>
      have hspares : s.closes l = none := by
        rcases idle_of_worksFor hgood h hworks with ⟨fd, rfl⟩ | ⟨j, rfl⟩ | ⟨j, rfl⟩ <;> rfl
      rw [connection_idle hgood h hl hworks, Spares, hspares]
      simp
  | some kl =>
      obtain ⟨k, l'⟩ := kl
      obtain ⟨hk, σ, hacts, hσ⟩ := stepsAs_of_worksFor hgood h hworks
      unfold Spares
      rw [Ne, closes_iff hgood h hworks]
      by_cases hik : k = i
      · subst hik
        rw [← hacts.session] at hσ
        have hclosed : ∀ t : Server κ, (t.session k).closed = (t.connection k).closed := fun _ => rfl
        rcases Session.closed_step hσ with ⟨hnot, heq⟩ | ⟨hcloses, heq⟩
        · rw [← hclosed, heq, hclosed]
          simp [hnot]
        · rw [← hclosed, heq]
          simp [hcloses]
      · have hsame := congrArg Session.closed (hacts.frame.others i (Ne.symm hik))
        change (s'.connection i).closed = (s.connection i).closed at hsame
        rw [hsame]
        simp [hik]

theorem callbacks_cons (s : Server κ) (l : Label ε) (past : List (Server κ × Label ε)) :
    callbacks i ((s, l) :: past) = callbacks i past ++ (s.invoked l i).toList := rfl

/-- A callback is called in its turn. -/
theorem order_step {past : List (Server κ × Label ε)} (hcalled : Called i (s, past))
    (h : s.step user context l = some s') :
    callbacks i ((s, l) :: past) = [] ∨ ∃ middle : List UserCallback,
      (∀ c ∈ middle, c.isMiddle = true) ∧
        callbacks i ((s, l) :: past) = .connectionCome :: middle := by
  have hfault := step_fault h
  rw [callbacks_cons]
  cases hinvoked : s.invoked l i with
  | none =>
      rw [Option.toList_none, List.append_nil]
      exact hcalled.order
  | some c =>
      obtain ⟨hi, hc⟩ := invoked_cases (hcalled.reachable.held hfault) h hinvoked
      have hunopened := hcalled.unopened hfault hi
      right
      rcases hc with ⟨rfl, hbefore⟩ | ⟨hmiddle, hbefore⟩
      · rw [hunopened.mp hbefore]
        exact ⟨[], by simp, rfl⟩
      · rcases hcalled.order with hnone | ⟨middle, hall, heq⟩
        · exact absurd (hunopened.mpr hnone) hbefore
        · refine ⟨middle ++ [c], fun c' hc' => ?_, by simp [heq]⟩
          rcases List.mem_append.mp hc' with hc' | hc'
          · exact hall c' hc'
          · rw [List.mem_singleton.mp hc']
            exact hmiddle

/-- `handleNewCon` calls nothing. -/
theorem called_accept {fd : Nat} {past : List (Server κ × Label ε)} (hcalled : Called i (s, past))
    (hfault : s.fault = none) (hfree : s.fdFree fd = true)
    (hreachable : (s.handleNewCon context fd).Reachable) :
    Called i (s.handleNewCon context fd, (s, .accept fd) :: past) := by
  have hsame : callbacks i ((s, .accept fd) :: past) = callbacks i past := by
    simp [callbacks_cons, invoked, worksFor]
  have hconstructed : (s.handleNewCon context fd).constructed = s.constructed + 1 := rfl
  have hclosed : ((s.handleNewCon context fd).connection i).closed = (s.connection i).closed := by
    by_cases hi : i = s.constructed
    · subst hi
      rw [(hcalled.unbuilt le_rfl).2]
      simp [handleNewCon]
    · simp [handleNewCon, Function.update_of_ne hi]
  refine ⟨hreachable, hsame ▸ hcalled.order, fun hi => ?_, fun _ hi => ?_, ?_⟩
  · rw [hsame, hclosed]
    exact hcalled.unbuilt (le_trans (Nat.le_succ _) hi)
  · rw [hsame]
    rcases lt_constructed_handleNewCon hi with hi | rfl
    · rw [session_handleNewCon_of_lt hfree hi]
      exact hcalled.unopened hfault hi
    · rw [session_handleNewCon hcalled.reachable.toOwned hfault]
      refine iff_of_true ?_ (hcalled.unbuilt le_rfl).1
      simp [Session.Unopened, Session.start]
  · rw [hclosed, hcalled.closed]
    simp [Spares, closes]

theorem called_step (h : Server κ × List (Server κ × Label ε)) (l : Label ε)
    (h' : Server κ × List (Server κ × Label ε)) (hcalled : Called i h)
    (hrecord : Runs.record (step user context) h l = some h') : Called i h' := by
  obtain ⟨s, past⟩ := h
  obtain ⟨s', past'⟩ := h'
  obtain ⟨hstep, rfl⟩ := Runs.record_eq_some hrecord
  have hfault := step_fault hstep
  have hheld := hcalled.reachable.held hfault
  have hreachable := reachable_step s l s' hcalled.reachable hstep
  rcases step_new_or_frame hstep with ⟨fd, rfl, hfree, rfl⟩ | hl
  · exact called_accept hcalled hfault hfree hreachable
  · obtain ⟨hconstructed, -⟩ := step_frame hheld.toGood hstep hl
    have hclosed := closed_step (i := i) hheld.toGood hstep hl
    refine ⟨hreachable, order_step hcalled hstep, fun hi => ?_, fun halive hi => ?_, ?_⟩
    · rw [hconstructed] at hi
      obtain ⟨hnone, hzero⟩ := hcalled.unbuilt hi
      refine ⟨?_, hclosed.mpr ⟨hzero, fun hcloses => ?_⟩⟩
      · rw [callbacks_cons, hnone]
        cases hinvoked : s.invoked l i with
        | none => rfl
        | some c => exact absurd (invoked_cases hheld hstep hinvoked).1 (not_lt.mpr hi)
      · obtain ⟨-, j, hfront⟩ := closes_eq_some hcloses
        obtain ⟨hlt, -⟩ := hheld.functors _ _ _ (BatchQueue.mem_all_of_front hfront)
        exact absurd hlt (not_lt.mpr hi)
    · rw [hconstructed] at hi
      rw [unopened_step hheld hstep hl halive hi, hcalled.unopened hfault hi, callbacks_cons,
        List.append_eq_nil_iff, Option.toList_eq_nil_iff]
    · rw [hclosed, hcalled.closed, List.forall_mem_cons, and_comm]

/-- The callbacks so far are as the lifecycle has them until `closeConnection`
    has run. -/
theorem Called.lifecycle_iff {h : Server κ × List (Server κ × Label ε)} (hcalled : Called i h) :
    Lifecycle i h ↔ (h.1.connection i).closed = 0 := by
  constructor
  · intro hcycle
    by_contra hclosed
    have hlast := hcycle.closed (Nat.pos_of_ne_zero hclosed)
    have hmem := List.mem_of_getLast? hlast
    rcases hcalled.order with hnone | ⟨middle, hall, heq⟩
    · rw [hnone] at hmem
      cases hmem
    · rw [heq] at hmem
      rcases List.mem_cons.mp hmem with hfalse | hmem
      · cases hfalse
      · cases hall _ hmem
  · intro hclosed
    refine ⟨?_, fun hpos => absurd hclosed (Nat.pos_iff_ne_zero.mp hpos)⟩
    rcases hcalled.order with hnone | ⟨middle, hall, heq⟩
    · exact ⟨[], by simp, hnone ▸ List.nil_prefix⟩
    · exact ⟨middle, hall, heq ▸ List.prefix_append _ _⟩

/-- In every run the callbacks of a connection follow its lifecycle exactly as
    long as `closeConnection` has not run for it. -/
theorem lifecycle_run_iff (user : UserCode κ ε) (context : κ) (threads : Nat) (highWater : Int)
    (i : Nat) {ls : List (Label ε)} {h : Server κ × List (Server κ × Label ε)}
    (hrun : Runs.exec (Runs.record (step user context)) (start context threads highWater, []) ls
      = some h) :
    Lifecycle i h ↔
      Runs.Along (step user context) (Spares i) (start context threads highWater) ls := by
  have hcalled : Called i h :=
    Runs.exec_preserves called_step (called_start context threads highWater i) hrun
  have hpast : (∀ x ∈ h.2, x.1.Spares i x.2) ↔ _ :=
    Runs.along_iff_record (P := fun s l => s.Spares i l) hrun
  rw [hcalled.lifecycle_iff, hcalled.closed, hpast]
  simp

/-- A connection that has come and got its message. -/
theorem lifecycle_run_iff_message :
    ∃ h, Runs.exec (Runs.record (step hangsUp ())) (start () 1 100, []) (reused.take 8) = some h ∧
      callbacks 0 h.2 = [.connectionCome, .message] ∧ Lifecycle 0 h := by
  have hrun : ((Runs.exec (Runs.record (step hangsUp ())) (start () 1 100, [])
      (reused.take 8)).map fun h => callbacks 0 h.2) = some [.connectionCome, .message] := by
    decide +kernel
  obtain ⟨h, hh, hcallbacks⟩ := Option.map_eq_some_iff.mp hrun
  exact ⟨h, hh, hcallbacks, (lifecycle_run_iff hangsUp () 1 100 0 hh).mpr (by decide +kernel)⟩

/-- The user closes, both loops do their part, and nobody is told. -/
theorem lifecycle_hangsUp :
    ¬ ∀ (user : UserCode Unit Unit) (ls : List (Label Unit))
        (h : Server Unit × List (Server Unit × Label Unit)),
      Runs.exec (Runs.record (step user ())) (start () 1 100, []) ls = some h →
        ∀ i, Lifecycle i h := by
  intro hclaim
  have hrun : ((Runs.exec (Runs.record (step hangsUp ())) (start () 1 100, []) reused).any
      fun h => decide (0 < (h.1.connection 0).closed ∧
        (callbacks 0 h.2).getLast? ≠ some .connectionClose)) = true := by
    decide +kernel
  obtain ⟨h, hh, hclosed⟩ := Option.any_eq_true _ _ |>.mp hrun
  obtain ⟨hpos, hlast⟩ := of_decide_eq_true hclosed
  exact hlast ((hclaim hangsUp reused h hh 0).closed hpos)

end Server

end QGServer
