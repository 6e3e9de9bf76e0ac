-- SUMMARY: Which member function a step runs, and what that asks of the poller.
import QGServer.Core.Registry

/-!
# Requests to the poller

A step runs at most one member function of one connection to its end. This says
which one and with what result, so that what depends on the requests made can be
followed next to the server. A connection that changes its interest says so, and
it is registered and removed by its first and its last functor only.
-/

namespace QGServer

/-! ## Member functions -/

/-- The member function registers and removes no handler and reports every change
    of interest; it adds no interest in errors. -/
structure TellsPoller (c : TcpConnection) (r : Result) : Prop extends Ordinary r where
  told : .updateHandler ∈ r.effects ∨ r.conn.eventHandler = c.eventHandler
  noError : c.eventHandler.ievents.getLsbD 2 = false → r.conn.eventHandler.ievents.getLsbD 2 = false

namespace EventHandler

variable {h : EventHandler}

theorem noError_setIEvents {iev : Events} (hiev : iev.getLsbD 2 = false)
    (hh : h.ievents.getLsbD 2 = false) : (h.setIEvents iev).ievents.getLsbD 2 = false := by
  rw [setIEvents, BitVec.getLsbD_or, BitVec.getLsbD_and, hiev, hh]
  rfl

theorem noError_disableWrite (hh : h.ievents.getLsbD 2 = false) :
    h.disableWrite.ievents.getLsbD 2 = false := by
  rw [disableWrite, BitVec.getLsbD_and, hh]
  rfl

theorem noError_disableAll (h : EventHandler) : h.disableAll.ievents.getLsbD 2 = false :=
  BitVec.getLsbD_zero

end EventHandler

namespace TcpConnection

variable {c : TcpConnection}

theorem tellsPoller_handleClose : TellsPoller c c.handleClose :=
  ⟨ordinary_handleClose, .inl (by simp [handleClose]),
    fun _ => EventHandler.noError_disableAll c.eventHandler⟩

theorem tellsPoller_close : TellsPoller c c.close := by
  refine ⟨ordinary_close, ?_, fun h => ?_⟩
  · unfold close
    dsimp only
    split
    · exact .inr rfl
    · exact .inl (by simp [handleClose])
  · unfold close
    dsimp only
    split
    · exact h
    · exact EventHandler.noError_disableAll c.eventHandler

theorem tellsPoller_call (a : Call) : TellsPoller c (a.run c) := by
  cases a with
  | write data => exact ⟨ordinary_call _, .inr rfl, id⟩
  | shutdown => exact ⟨ordinary_call _, .inr rfl, id⟩
  | close => exact tellsPoller_close

/-- What `bufferRest` does to the interest. -/
theorem bufferRest_interest {data : Bytes} {n : Int} {effects : List Effect} {r : Result}
    (h : c.bufferRest data n effects = .ok r) :
    r.conn.eventHandler = c.eventHandler ∨
      r.conn.eventHandler = c.eventHandler.enableWrite ∧ .updateHandler ∈ r.effects := by
  unfold bufferRest at h
  split at h
  · cases h
  · dsimp only at h
    split at h
    · cases h
      exact .inr ⟨rfl, by simp⟩
    · cases h
      exact .inl rfl

theorem tellsPoller_of_bufferRest {data : Bytes} {n : Int} {effects : List Effect} {r : Result}
    (hr : Ordinary r) (h : c.bufferRest data n effects = .ok r) : TellsPoller c r := by
  rcases bufferRest_interest h with heq | ⟨heq, hmem⟩
  · exact ⟨hr, .inr heq, fun hc => heq ▸ hc⟩
  · exact ⟨hr, .inl hmem, fun hc => heq ▸ EventHandler.noError_setIEvents (by decide) hc⟩

theorem tellsPoller_writeInLoop {data : Bytes} {w : WriteOutcome} {r : Result}
    (h : c.writeInLoop data w = .ok r) : TellsPoller c r := by
  have hr := ordinary_writeInLoop h
  unfold writeInLoop at h
  cases hconn : c.disconnected with
  | true =>
      rw [hconn, if_pos rfl] at h
      cases h
      exact ⟨hr, .inr rfl, id⟩
  | false =>
      simp only [hconn, Bool.false_eq_true, if_false, and_false] at h
      split at h
      · exact tellsPoller_of_bufferRest hr h
      · exact tellsPoller_of_bufferRest hr h

theorem tellsPoller_handleWrite {w : WriteOutcome} {r : Result} (h : c.handleWrite w = .ok r) :
    TellsPoller c r := by
  have hr := ordinary_handleWrite h
  unfold handleWrite at h
  split at h
  · cases h
    exact ⟨hr, .inr rfl, id⟩
  · dsimp only at h
    split at h
    · split at h
      · cases h
      · split at h
        · cases h
          exact ⟨hr, .inl (by simp), EventHandler.noError_disableWrite⟩
        · cases h
          exact ⟨hr, .inr rfl, id⟩
    · cases h
      exact ⟨hr, .inl (by simp [handleClose]), fun _ => EventHandler.noError_disableAll c.eventHandler⟩

end TcpConnection

/-! ## Sessions -/

namespace Session

variable {κ ε : Type*} {user : UserCode κ ε} {s s' : Session κ} {l : Label ε}

/-- The result of the member function that a step runs to its end. -/
def made (s : Session κ) : Label ε → Option Result
  | .readable rs _ =>
    match s.conn.handleRead rs with
    | some (.close, c, []) => some c.close
    | some (.error, c, []) => some c.handleClose
    | _ => none
  | .writable w => (s.conn.handleWrite w).toOption
  | .call =>
    match s.frame with
    | some ⟨c :: _, _⟩ => some (c.run s.conn)
    | _ => none
  | .runIo w _ =>
    match s.io.front with
    | some .handleConnection => some s.conn.handleConnection
    | some (.writeInLoop data) => (s.conn.writeInLoop data w).toOption
    | some .closeConnection => some s.conn.closeConnection
    | _ => none
  | _ => none

/-- `handleConnection` has not run. -/
def Unopened (s : Session κ) : Prop := .handleConnection ∈ s.io.waiting

/-- What a step that lets the process live can be to the poller. -/
inductive PollerMove (s : Session κ) : Option Result → Session κ → Prop where
  /-- Nothing is asked for. -/
  | silent {t} (hregistered : t.registered = s.registered) (hunopened : t.Unopened ↔ s.Unopened)
      (hinterest : t.conn.eventHandler = s.conn.eventHandler) : PollerMove s none t
  | opens {t} (hbefore : s.Unopened) (hafter : ¬ t.Unopened) (hregistered : t.registered = true)
      (hinterest : t.conn.eventHandler = s.conn.eventHandler.enableRead) :
      PollerMove s (some s.conn.handleConnection) t
  | tells {r t} (hr : TellsPoller s.conn r)
      (hupdates : .updateHandler ∈ r.effects → s.registered = true)
      (hregistered : t.registered = s.registered) (hunopened : t.Unopened ↔ s.Unopened)
      (hinterest : t.conn.eventHandler = r.conn.eventHandler) : PollerMove s (some r) t
  | closes {t} (hbefore : s.registered = true) (hafter : t.registered = false)
      (hunopened : t.Unopened ↔ s.Unopened)
      (hinterest : t.conn.eventHandler = s.conn.eventHandler) :
      PollerMove s (some s.conn.closeConnection) t

/-- A request for an update of the handler is carried out only if it is registered. -/
theorem registered_of_updates {es : List Effect} (hregisters : .registerHandler ∉ es)
    (hremoves : .removeHandler ∉ es) (hdec : .decConnection ∉ es)
    (halive : (es.foldl request s).fault = none) (hmem : .updateHandler ∈ es) :
    s.registered = true := by
  induction es generalizing s with
  | nil => cases hmem
  | cons e es ih =>
      rw [List.foldl_cons] at halive
      have hone : (s.request e).fault = none := by
        by_contra hfault
        rw [foldl_request_of_fault es hfault] at halive
        exact hfault halive
      obtain ⟨-, hcarry⟩ := request_alive e hone
      rcases List.mem_cons.mp hmem with rfl | hmem
      · by_contra hreg
        rw [hcarry] at hone
        simp [carryOut, hreg, fail] at hone
      · have hreg : (s.request e).registered = s.registered := by
          rw [hcarry]
          cases e with
          | registerHandler => exact absurd List.mem_cons_self hregisters
          | removeHandler => exact absurd List.mem_cons_self hremoves
          | updateHandler =>
              simp only [carryOut]
              split <;> rfl
          | _ => rfl
        rw [← hreg]
        exact ih (fun he => hregisters (by simp [he])) (fun he => hremoves (by simp [he]))
          (fun he => hdec (by simp [he])) halive hmem

/-- No request touches the connection, its context or the callback that runs. -/
theorem kept_foldl (es : List Effect) :
    (es.foldl request s).conn = s.conn ∧ (es.foldl request s).context = s.context ∧
      (es.foldl request s).frame = s.frame := by
  induction es generalizing s with
  | nil => exact ⟨rfl, rfl, rfl⟩
  | cons e es ih =>
      have hone : (s.request e).conn = s.conn ∧ (s.request e).context = s.context ∧
          (s.request e).frame = s.frame := by
        unfold request
        split
        · exact ⟨rfl, rfl, rfl⟩
        · cases e with
          | updateHandler =>
              simp only [carryOut]
              split <;> exact ⟨rfl, rfl, rfl⟩
          | removeHandler =>
              simp only [carryOut]
              split <;> exact ⟨rfl, rfl, rfl⟩
          | _ => exact ⟨rfl, rfl, rfl⟩
      obtain ⟨hconn, hcontext, hframe⟩ := @ih (s.request e)
      exact ⟨hconn.trans hone.1, hcontext.trans hone.2.1, hframe.trans hone.2.2⟩

theorem conn_perform (r : Result) : (s.perform r).conn = r.conn :=
  (kept_foldl (s := { s with conn := r.conn }) r.effects).1

theorem context_perform (r : Result) : (s.perform r).context = s.context :=
  (kept_foldl (s := { s with conn := r.conn }) r.effects).2.1

theorem frame_perform (r : Result) : (s.perform r).frame = s.frame :=
  (kept_foldl (s := { s with conn := r.conn }) r.effects).2.2

/-- Carrying out what a member function asks for, from a session that differs
    from `s` in nothing the poller sees. -/
theorem pollerMove_perform {t : Session κ} {r : Result} (hr : TellsPoller s.conn r)
    (hregistered : t.registered = s.registered) (hunopened : t.Unopened ↔ s.Unopened)
    (halive : (t.perform r).fault = none) : PollerMove s (some r) (t.perform r) := by
  obtain ⟨hreg, -, hmem⟩ := registered_foldl (s := { t with conn := r.conn })
    hr.registers hr.removes hr.closed
  refine .tells hr (fun hupdates => ?_) (hreg.trans hregistered) (hmem.trans hunopened) ?_
  · rw [← hregistered]
    exact registered_of_updates (s := { t with conn := r.conn }) hr.registers hr.removes hr.closed
      halive hupdates
  · rw [conn_perform]

theorem unopened_start {f : IoFunctor} (hfront : s.io.front = some f) (hf : f ≠ .handleConnection) :
    Unopened { s with io := s.io.start } ↔ s.Unopened := by
  unfold Unopened
  rw [BatchQueue.waiting_start hfront, List.mem_cons, or_iff_right (Ne.symm hf)]

theorem tellsPoller_congr {c c' : TcpConnection} {r : Result} (h : TellsPoller c r)
    (heq : c.eventHandler = c'.eventHandler) : TellsPoller c' r :=
  ⟨h.toOrdinary, heq ▸ h.told, heq ▸ h.noError⟩

/-- Every step that lets the process live. -/
theorem pollerMove_of_move (hlife : s.Lifetime) (hmove : Move user s l s')
    (halive : s'.fault = none) : PollerMove s (s.made l) s' := by
  cases hmove with
  | @message rs env buf c context calls hpolling hreading hlives hrs huser =>
      have hmade : s.made (.readable rs env : Label ε) = none := by simp [made, hrs]
      rw [hmade]
      exact .silent rfl Iff.rfl (TcpConnection.handleRead_frame hrs).1
  | @readClose rs env c hpolling hreading hlives hrs =>
      have hmade : s.made (.readable rs env : Label ε) = some c.close := by simp [made, hrs]
      rw [hmade]
      have heq := (TcpConnection.handleRead_frame hrs).1
      exact pollerMove_perform (tellsPoller_congr TcpConnection.tellsPoller_close heq) rfl Iff.rfl
        halive
  | @readError rs env c hpolling hreading hlives hrs =>
      have hmade : s.made (.readable rs env : Label ε) = some c.handleClose := by simp [made, hrs]
      rw [hmade]
      have heq := (TcpConnection.handleRead_frame hrs).1
      exact pollerMove_perform (tellsPoller_congr TcpConnection.tellsPoller_handleClose heq) rfl
        Iff.rfl halive
  | @writable w r hpolling hwriting hlives hw =>
      have hmade : s.made (.writable w : Label ε) = some r := by simp [made, hw, Except.toOption]
      rw [hmade]
      exact pollerMove_perform (TcpConnection.tellsPoller_handleWrite hw) rfl Iff.rfl halive
  | @call c calls fromRead hframe =>
      have hmade : s.made (.call : Label ε) = some (c.run s.conn) := by simp [made, hframe]
      rw [hmade]
      exact pollerMove_perform (t := { s with frame := some ⟨calls, fromRead⟩ })
        (TcpConnection.tellsPoller_call c) rfl Iff.rfl halive
  | @leave fromRead hframe =>
      refine .silent rfl Iff.rfl ?_
      cases fromRead <;> rfl
  | popIo hpolling =>
      refine .silent rfl ?_ rfl
      unfold Unopened
      rw [BatchQueue.waiting_popAll (idle_of_polling hpolling)]
  | @handleConnection w env context calls hfront huser =>
      have hmade : s.made (.runIo w env : Label ε) = some s.conn.handleConnection := by
        simp [made, hfront]
      rw [hmade]
      have hwaiting := BatchQueue.waiting_start hfront
      have hbefore : s.Unopened := by
        unfold Unopened
        rw [hwaiting]
        exact List.mem_cons_self
      have hfresh := hlife.fresh hbefore
      have hfault : s.fault = none :=
        fault_of_perform (s := { s with io := s.io.start }) (r := s.conn.handleConnection) halive
      rw [perform_handleConnection (s := { s with io := s.io.start }) hfault]
      refine .opens hbefore ?_ rfl rfl
      rw [hfresh.io] at hwaiting
      change ¬ IoFunctor.handleConnection ∈ s.io.start.waiting
      rw [← (List.cons.inj hwaiting).2]
      exact List.not_mem_nil
  | @writeInLoop data w env r hfront hlives hw =>
      have hmade : s.made (.runIo w env : Label ε) = some r := by
        simp [made, hfront, hw, Except.toOption]
      rw [hmade]
      exact pollerMove_perform (t := { s with io := s.io.start })
        (TcpConnection.tellsPoller_writeInLoop hw) rfl (unopened_start hfront (by simp)) halive
  | @writeComplete buf w env context calls hfront huser =>
      have hmade : s.made (.runIo w env : Label ε) = none := by simp [made, hfront]
      rw [hmade]
      exact .silent rfl (unopened_start hfront (by simp)) rfl
  | @closeConnection w env hfront =>
      have hmade : s.made (.runIo w env : Label ε) = some s.conn.closeConnection := by
        simp [made, hfront]
      rw [hmade]
      obtain ⟨hreg, hperform⟩ := perform_closeConnection halive
      rw [hperform]
      exact .closes hreg rfl (unopened_start hfront (by simp)) rfl
  | doneIo hrunning hframe =>
      refine .silent rfl ?_ rfl
      unfold Unopened
      rw [BatchQueue.waiting_finish hrunning]
  | popBase hidle => exact .silent rfl Iff.rfl rfl
  | runBase hfront =>
      refine .silent rfl ?_ rfl
      unfold Unopened
      simp
  | doneBase hrunning => exact .silent rfl Iff.rfl rfl

/-- A step that moves functors only. -/
theorem PollerMove.refl (s : Session κ) : PollerMove s none s := .silent rfl Iff.rfl rfl

/-- The handler of a session is registered only after `handleConnection`. -/
theorem PollerMove.opened {r : Option Result} (h : PollerMove s r s')
    (hs : s.registered = true → ¬ s.Unopened) : s'.registered = true → ¬ s'.Unopened := by
  cases h with
  | silent hregistered hunopened hinterest =>
      rw [hregistered, hunopened]
      exact hs
  | opens hbefore hafter hregistered hinterest => exact fun _ => hafter
  | tells hr hupdates hregistered hunopened hinterest =>
      rw [hregistered, hunopened]
      exact hs
  | closes hbefore hafter hunopened hinterest =>
      intro hreg
      rw [hafter] at hreg
      cases hreg

/-- No step makes a connection interested in errors. -/
theorem PollerMove.noError {r : Option Result} (h : PollerMove s r s')
    (hs : s.conn.eventHandler.ievents.getLsbD 2 = false) :
    s'.conn.eventHandler.ievents.getLsbD 2 = false := by
  cases h with
  | silent hregistered hunopened hinterest => rwa [hinterest]
  | opens hbefore hafter hregistered hinterest =>
      rw [hinterest]
      exact EventHandler.noError_setIEvents (by decide) hs
  | tells hr hupdates hregistered hunopened hinterest =>
      rw [hinterest]
      exact hr.noError hs
  | closes hbefore hafter hunopened hinterest => rwa [hinterest]

end Session

/-! ## The server -/

namespace Server

variable {κ ε : Type*} {user : UserCode κ ε} {context : κ} {s s' : Server κ} {l : Label ε}

/-- The connection that a step works for, and the step of its session. -/
def worksFor (s : Server κ) : Label ε → Option (Nat × Session.Label ε)
  | .readable i rs env => some (i, .readable rs env)
  | .writable i w => some (i, .writable w)
  | .call j => (s.loops j).frame.map fun (i, _) => (i, .call)
  | .leave j => (s.loops j).frame.map fun (i, _) => (i, .leave)
  | .run j w env => (s.loops j).queue.front.map fun
    | .io i _ => (i, .runIo w env)
    | .handleConnectionClose i => (i, .runBase)
  | _ => none

/-- The member function that a step runs to its end, with its connection. -/
def made (s : Server κ) (l : Label ε) : Option (Nat × Result) :=
  (s.worksFor l).bind fun (i, l) => ((s.session i).made l).map fun r => (i, r)

/-- The part of it that connection `i` sees. -/
def madeFor (s : Server κ) (l : Label ε) (i : Nat) : Option Result :=
  (s.worksFor l).bind fun (k, l) => if k = i then (s.session k).made l else none

theorem madeFor_of_made {i : Nat} {r : Result} (h : s.made l = some (i, r)) :
    s.madeFor l i = some r ∧ ∀ k, k ≠ i → s.madeFor l k = none := by
  obtain ⟨⟨k, l'⟩, hworks, hmade⟩ := Option.bind_eq_some_iff.mp h
  obtain ⟨r', hr', heq⟩ := Option.map_eq_some_iff.mp hmade
  cases heq
  unfold madeFor
  rw [hworks]
  refine ⟨?_, fun k' hk' => ?_⟩
  · simpa using hr'
  · simp [Ne.symm hk']

theorem madeFor_of_none (h : s.made l = none) (i : Nat) : s.madeFor l i = none := by
  unfold made at h
  unfold madeFor
  cases hworks : s.worksFor l with
  | none => rfl
  | some kl =>
      obtain ⟨k, l'⟩ := kl
      rw [hworks] at h
      simp only [Option.bind_some, Option.map_eq_none_iff] at h
      simp [h]

/-- A step that works for a connection is a step of its session. -/
theorem stepsAs_of_worksFor (hgood : s.Good) (h : s.step user context l = some s') {k : Nat}
    {l' : Session.Label ε} (hworks : s.worksFor l = some (k, l')) : StepsAs user k l' s s' := by
  cases l with
  | accept fd => cases hworks
  | readable i rs env =>
      cases hworks
      exact steps_readable hgood h
  | writable i w =>
      cases hworks
      exact steps_writable hgood h
  | call j =>
      obtain ⟨i, f, hf, hsteps⟩ := steps_call hgood h
      simp only [worksFor, hf, Option.map_some] at hworks
      cases hworks
      exact hsteps
  | leave j =>
      obtain ⟨i, f, hf, hsteps⟩ := steps_leave hgood h
      simp only [worksFor, hf, Option.map_some] at hworks
      cases hworks
      exact hsteps
  | pop j => cases hworks
  | run j w env =>
      rcases steps_run hgood h with ⟨i, f, hfront, hsteps⟩ | ⟨i, hfront, hsteps⟩
      · simp only [worksFor, hfront, Option.map_some] at hworks
        cases hworks
        exact hsteps
      · simp only [worksFor, hfront, Option.map_some] at hworks
        cases hworks
        exact hsteps
  | done j => cases hworks

theorem lt_of_made (hgood : s.Good) (h : s.step user context l = some s') {k : Nat} {r : Result}
    (hmade : s.made l = some (k, r)) : k < s.constructed := by
  obtain ⟨⟨k', l'⟩, hworks, hmap⟩ := Option.bind_eq_some_iff.mp hmade
  obtain ⟨r', -, heq⟩ := Option.map_eq_some_iff.mp hmap
  cases heq
  exact (stepsAs_of_worksFor hgood h hworks).1

/-- The steps that work for no connection. -/
theorem idle_of_worksFor (hgood : s.Good) (h : s.step user context l = some s')
    (hworks : s.worksFor l = none) :
    (∃ fd, l = .accept fd) ∨ (∃ j, l = .pop j) ∨ ∃ j, l = .done j := by
  cases l with
  | accept fd => exact .inl ⟨fd, rfl⟩
  | readable i rs env => cases hworks
  | writable i w => cases hworks
  | call j =>
      obtain ⟨i, f, hf, -⟩ := steps_call hgood h
      simp [worksFor, hf] at hworks
  | leave j =>
      obtain ⟨i, f, hf, -⟩ := steps_leave hgood h
      simp [worksFor, hf] at hworks
  | pop j => exact .inr (.inl ⟨j, rfl⟩)
  | run j w env =>
      rcases steps_run hgood h with ⟨i, f, hfront, -⟩ | ⟨i, hfront, -⟩
      · simp [worksFor, hfront] at hworks
      · simp [worksFor, hfront] at hworks
  | done j => exact .inr (.inr ⟨j, rfl⟩)

/-- The functors that a loop takes or drops are not seen by the poller. -/
theorem pollerMove_pop {j : Nat} (h : s.step user context (.pop j) = some s') (i : Nat) :
    Session.PollerMove (s.session i) none (s'.session i) := by
  have hfault := step_fault h
  unfold step at h
  simp only [hfault, Option.isSome_none, Bool.false_eq_true, if_false,
    Option.ite_none_right_eq_some, Option.some.injEq] at h
  obtain ⟨hpolling, rfl⟩ := h
  rw [session_popAll]
  refine .silent rfl ?_ rfl
  unfold Session.Unopened
  dsimp only
  split
  · rename_i hloop
    subst hloop
    rw [BatchQueue.waiting_popAll (Session.idle_of_polling (polling_session hpolling))]
  · exact Iff.rfl

theorem pollerMove_done {j : Nat} (h : s.step user context (.done j) = some s') (i : Nat) :
    Session.PollerMove (s.session i) none (s'.session i) := by
  have hfault := step_fault h
  unfold step at h
  simp only [hfault, Option.isSome_none, Bool.false_eq_true, if_false,
    Option.ite_none_right_eq_some, Bool.and_eq_true, Option.some.injEq] at h
  obtain ⟨⟨hrunning, -⟩, rfl⟩ := h
  rw [session_finish j hrunning]
  refine .silent rfl ?_ rfl
  unfold Session.Unopened
  dsimp only
  split
  · rename_i hio
    rw [BatchQueue.waiting_finish hio.2]
  · exact Iff.rfl

/-- A step that builds no connection and lets the process live, as each
    connection shows it to its poller. -/
theorem pollerMove_step (hheld : s.Held) (h : s.step user context l = some s')
    (hl : ∀ fd, l = .accept fd → s' = s) (halive : s'.fault = none) {i : Nat}
    (hi : i < s.constructed) :
    Session.PollerMove (s.session i) (s.madeFor l i) (s'.session i) := by
  cases hworks : s.worksFor l with
  | none =>
      have hmade : s.madeFor l i = none := by simp [madeFor, hworks]
      rw [hmade]
      rcases idle_of_worksFor hheld.toGood h hworks with ⟨fd, rfl⟩ | ⟨j, rfl⟩ | ⟨j, rfl⟩
      · obtain rfl := hl fd rfl
        exact .refl _
      · exact pollerMove_pop h i
      · exact pollerMove_done h i
  | some kl =>
      obtain ⟨k, l'⟩ := kl
      obtain ⟨hk, σ, hacts, hσ⟩ := stepsAs_of_worksFor hheld.toGood h hworks
      have hmade : s.madeFor l i = if k = i then (s.session k).made l' else none := by
        simp [madeFor, hworks]
      rw [hmade]
      split
      · rename_i hik
        subst hik
        rw [hacts.session]
        have hfault : σ.fault = none := by
          rw [← hacts.session]
          exact fault_session halive
        exact Session.pollerMove_of_move (hheld.sessions k hk).toLifetime
          (Session.step_cases hσ hfault) hfault
      · rename_i hik
        rw [hacts.frame.others i (Ne.symm hik)]
        exact .refl _

end Server

end QGServer
