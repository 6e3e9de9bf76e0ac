-- SUMMARY: When a session is torn down only once, and what its handler map entry and its accounting then say.
import QGServer.Core.Lifetime

/-!
# Teardown happens once

Every call of `handleClose` starts a teardown of its own: nothing in it looks
whether one is under way. While the connection is interested in reading, none
is; so the event handlers start at most one, and a user's `close()` is safe if
it comes before that or finds content to send.
-/

namespace QGServer

/-! ## What member functions ask for -/

/-- The member function starts at most one teardown and leaves the handler map
    as it is. -/
structure Ordinary (r : Result) : Prop where
  closing : r.effects.count .closeCallBack ≤ 1
  registers : .registerHandler ∉ r.effects
  removes : .removeHandler ∉ r.effects
  closed : .decConnection ∉ r.effects

namespace TcpConnection

variable {c : TcpConnection}

theorem ordinary_handleClose : Ordinary c.handleClose := by
  constructor <;> simp [handleClose]

theorem ordinary_close : Ordinary c.close := by
  unfold close
  dsimp only
  split
  · constructor <;> simp
  · exact ordinary_handleClose

theorem ordinary_call (a : Call) : Ordinary (a.run c) := by
  cases a with
  | write data => constructor <;> simp [Call.run, write]
  | shutdown => constructor <;> simp [Call.run, shutdown]
  | close => exact ordinary_close

theorem noClose_writeInLoop {data : Bytes} {w : WriteOutcome} {r : Result}
    (h : c.writeInLoop data w = .ok r) : .closeCallBack ∉ r.effects := by
  intro he
  cases writeInLoop_output h he

theorem ordinary_writeInLoop {data : Bytes} {w : WriteOutcome} {r : Result}
    (h : c.writeInLoop data w = .ok r) : Ordinary r := by
  refine ⟨?_, fun he => ?_, fun he => ?_, fun he => ?_⟩
  · rw [List.count_eq_zero_of_not_mem (noClose_writeInLoop h)]
    exact Nat.zero_le 1
  · cases writeInLoop_output h he
  · cases writeInLoop_output h he
  · cases writeInLoop_output h he

theorem ordinary_handleWrite {w : WriteOutcome} {r : Result} (h : c.handleWrite w = .ok r) :
    Ordinary r := by
  unfold handleWrite at h
  split at h
  · cases h
    constructor <;> simp
  · dsimp only at h
    split at h
    · split at h
      · cases h
      · split at h <;> cases h <;> constructor <;> simp
    · cases h
      constructor <;> simp [handleClose]

/-- What `writeInLoop` did before it threw was output. -/
theorem thrown_writeInLoop {data : Bytes} {w : WriteOutcome} {e : Thrown}
    (h : c.writeInLoop data w = .error e) : .decConnection ∉ e.effects := by
  have hrest : ∀ n effects, c.bufferRest data n effects = .error e → e.effects = effects := by
    intro n effects heq
    unfold bufferRest at heq
    split at heq
    · cases heq
      rfl
    · dsimp only at heq
      split at heq <;> cases heq
  unfold writeInLoop at h
  cases hconn : c.disconnected with
  | true =>
      rw [hconn, if_pos rfl] at h
      cases h
  | false =>
      simp only [hconn, Bool.false_eq_true, if_false, and_false] at h
      split at h
      · rw [hrest _ _ h]
        split <;> simp
      · rw [hrest _ _ h]
        simp

theorem thrown_handleWrite {w : WriteOutcome} {e : Thrown} (h : c.handleWrite w = .error e) :
    .decConnection ∉ e.effects := by
  unfold handleWrite at h
  split at h
  · cases h
  · dsimp only at h
    split at h
    · split at h
      · cases h
        simp
      · split at h <;> cases h
    · cases h

end TcpConnection

namespace Session

variable {κ ε : Type*} {user : UserCode κ ε} {s s' : Session κ} {l : Label ε}

/-! ## Counting teardowns -/

/-- The teardowns that were started, each counted where it has got to. -/
def teardowns (s : Session κ) : Nat :=
  s.base.waiting.length + s.io.waiting.count .closeConnection + s.closed

theorem closing_iff : s.Closing ↔ 0 < s.teardowns := by
  have hbase : s.base.waiting ≠ [] ↔ 0 < s.base.waiting.length := List.length_pos_iff.symm
  have hio : .closeConnection ∈ s.io.waiting ↔ 0 < s.io.waiting.count .closeConnection :=
    List.count_pos_iff.symm
  unfold Closing teardowns
  rw [hbase, hio]
  omega

/-- What a session that is torn down in time satisfies. -/
structure Once (s : Session κ) : Prop where
  teardowns : s.teardowns ≤ 1
  registered : s.registered = true ↔ .handleConnection ∉ s.io.waiting ∧ s.closed = 0

theorem once_start (context : κ) : (start context).Once := by
  refine ⟨?_, ?_⟩
  · simp [Session.teardowns, start, BatchQueue.waiting, BatchQueue.empty, BatchQueue.push]
  · simp [start, BatchQueue.waiting, BatchQueue.empty, BatchQueue.push]

/-- Each request for a close starts one teardown, no other request does. -/
theorem teardowns_foldl {es : List Effect} (hdec : .decConnection ∉ es) :
    (es.foldl request s).teardowns ≤ s.teardowns + es.count .closeCallBack := by
  induction es generalizing s with
  | nil => simp
  | cons e es ih =>
      have hrest := ih (s := s.request e) fun he => hdec (by simp [he])
      have hone : (s.request e).teardowns ≤ s.teardowns + if e = .closeCallBack then 1 else 0 := by
        unfold request
        split
        · omega
        · cases e with
          | decConnection => exact absurd List.mem_cons_self hdec
          | closeCallBack =>
              simp [carryOut, Session.teardowns]
              omega
          | updateHandler =>
              simp only [carryOut]
              split <;> simp [Session.teardowns, fail]
          | removeHandler =>
              simp only [carryOut]
              split <;> simp [Session.teardowns, fail]
          | _ => simp [carryOut, Session.teardowns, List.count_append]
      have hcount : (e :: es).count .closeCallBack
          = es.count .closeCallBack + if e = .closeCallBack then 1 else 0 := by
        rw [List.count_cons]
        simp
      rw [List.foldl_cons, hcount]
      omega

/-- Requests that are no part of opening and closing leave what `Once` says of the
    handler map. -/
theorem registered_foldl {es : List Effect} (hregisters : .registerHandler ∉ es)
    (hremoves : .removeHandler ∉ es) (hdec : .decConnection ∉ es) :
    (es.foldl request s).registered = s.registered ∧ (es.foldl request s).closed = s.closed ∧
      (.handleConnection ∈ (es.foldl request s).io.waiting ↔
        .handleConnection ∈ s.io.waiting) := by
  induction es generalizing s with
  | nil => simp
  | cons e es ih =>
      obtain ⟨hreg, hclosed, hmem⟩ := ih (s := s.request e) (fun he => hregisters (by simp [he]))
        (fun he => hremoves (by simp [he])) fun he => hdec (by simp [he])
      have hone : (s.request e).registered = s.registered ∧ (s.request e).closed = s.closed ∧
          (.handleConnection ∈ (s.request e).io.waiting ↔ .handleConnection ∈ s.io.waiting) := by
        unfold request
        split
        · simp
        · cases e with
          | decConnection => exact absurd List.mem_cons_self hdec
          | registerHandler => exact absurd List.mem_cons_self hregisters
          | removeHandler => exact absurd List.mem_cons_self hremoves
          | updateHandler =>
              simp only [carryOut]
              split <;> simp [fail]
          | _ => simp [carryOut]
      rw [List.foldl_cons]
      exact ⟨hreg.trans hone.1, hclosed.trans hone.2.1, hmem.trans hone.2.2⟩

/-- Carrying out the requests of a member function: it may start a teardown only
    if none was started before. -/
theorem Once.perform {r : Result} (h : s.Once) (hr : Ordinary r)
    (hclose : .closeCallBack ∈ r.effects → s.teardowns = 0) : (s.perform r).Once := by
  obtain ⟨hreg, hclosed, hmem⟩ := registered_foldl (s := { s with conn := r.conn })
    hr.registers hr.removes hr.closed
  refine ⟨?_, ?_⟩
  · have hle : (s.perform r).teardowns ≤ s.teardowns + r.effects.count .closeCallBack :=
      teardowns_foldl (s := { s with conn := r.conn }) hr.closed
    have hone := h.teardowns
    have hcount := hr.closing
    by_cases hzero : r.effects.count .closeCallBack = 0
    · omega
    · have hmem : .closeCallBack ∈ r.effects := List.count_pos_iff.mp (by omega)
      have := hclose hmem
      omega
  · unfold Session.perform
    rw [hreg, hclosed, hmem]
    exact h.registered

/-! ## One step -/

/-- A callback calls `close` only on a connection that still reads or has content
    to send. -/
def ClosesInTime (s : Session κ) (l : Label ε) : Prop :=
  s.callMade l = some .close →
    s.conn.eventHandler.isReading = true ∨ s.conn.hasContentToSend = true

instance (s : Session κ) (l : Label ε) : Decidable (ClosesInTime s l) :=
  inferInstanceAs (Decidable (_ → _))

theorem teardowns_of_not_quiet (h : s.Lifetime) (hquiet : ¬ s.conn.Quiet) : s.teardowns = 0 := by
  by_contra hne
  exact hquiet (h.quiet (closing_iff.mpr (by omega)))

theorem teardowns_of_reading (h : s.Lifetime) (hr : s.conn.eventHandler.isReading = true) :
    s.teardowns = 0 :=
  teardowns_of_not_quiet h fun hquiet => by simp [hquiet.reading] at hr

theorem teardowns_of_writing (h : s.Lifetime) (hw : s.conn.eventHandler.isWriting = true) :
    s.teardowns = 0 :=
  teardowns_of_not_quiet h fun hquiet => by simp [hquiet.writing] at hw

/-- `close()` with content to send only marks the connection. -/
theorem noClose_of_content {c : TcpConnection} (h : c.hasContentToSend = true) :
    .closeCallBack ∉ c.close.effects := by
  have hcontent : TcpConnection.hasContentToSend { c with disconnected := true } = true := h
  simp [TcpConnection.close, hcontent]

/-- Starting a functor that neither opens nor closes the connection. -/
theorem Once.start (h : s.Once) {f : IoFunctor} (hfront : s.io.front = some f)
    (hopens : f ≠ .handleConnection) (hcloses : f ≠ .closeConnection) :
    Once { s with io := s.io.start } := by
  have hwaiting := BatchQueue.waiting_start hfront
  refine ⟨?_, ?_⟩
  · have hone := h.teardowns
    unfold Session.teardowns at hone ⊢
    rw [hwaiting, List.count_cons_of_ne hcloses] at hone
    exact hone
  · have hreg := h.registered
    rw [hwaiting, List.mem_cons, or_iff_right (Ne.symm hopens)] at hreg
    exact hreg

/-- `Once` does not see how a queue holds what waits in it. -/
theorem Once.congr (h : s.Once) (hio : s'.io.waiting = s.io.waiting)
    (hbase : s'.base.waiting = s.base.waiting) (hregistered : s'.registered = s.registered)
    (hclosed : s'.closed = s.closed) : s'.Once := by
  refine ⟨?_, ?_⟩
  · unfold Session.teardowns
    rw [hio, hbase, hclosed]
    exact h.teardowns
  · rw [hio, hregistered, hclosed]
    exact h.registered

theorem once_move (h : s.Once) (hlife : s.Lifetime) (hmove : Move user s l s')
    (hintime : s.ClosesInTime l) (halive : s'.fault = none) : s'.Once := by
  cases hmove with
  | message hpolling hreading hlives hrs huser => exact h.congr rfl rfl rfl rfl
  | readClose hpolling hreading hlives hrs =>
      exact h.perform TcpConnection.ordinary_close fun _ => teardowns_of_reading hlife hreading
  | readError hpolling hreading hlives hrs =>
      exact h.perform TcpConnection.ordinary_handleClose fun _ =>
        teardowns_of_reading hlife hreading
  | writable hpolling hwriting hlives hw =>
      exact h.perform (TcpConnection.ordinary_handleWrite hw) fun _ =>
        teardowns_of_writing hlife hwriting
  | @call c calls fromRead hframe =>
      have hframed : Once { s with frame := some ⟨calls, fromRead⟩ } := h.congr rfl rfl rfl rfl
      have hclose : .closeCallBack ∈ (c.run s.conn).effects → s.teardowns = 0 := by
        intro hmem
        cases c with
        | write data => simp [Call.run, TcpConnection.write] at hmem
        | shutdown => simp [Call.run, TcpConnection.shutdown] at hmem
        | close =>
            rcases hintime (callMade_call hframe) with hreading | hcontent
            · exact teardowns_of_reading hlife hreading
            · exact absurd hmem (noClose_of_content hcontent)
      exact hframed.perform (TcpConnection.ordinary_call c) hclose
  | leave hframe => exact h.congr rfl rfl rfl rfl
  | popIo hpolling =>
      exact h.congr (BatchQueue.waiting_popAll (idle_of_polling hpolling)) rfl rfl rfl
  | handleConnection hfront huser =>
      have hwaiting := BatchQueue.waiting_start hfront
      have hfresh := hlife.fresh (by simp [hwaiting])
      have hstart : s.io.start.waiting = [] := by
        rw [hfresh.io] at hwaiting
        exact (List.cons.inj hwaiting).2.symm
      have hzero : s.teardowns = 0 := by
        by_contra hne
        exact hfresh.notClosing (closing_iff.mpr (by omega))
      have hfault : s.fault = none :=
        fault_of_perform (s := { s with io := s.io.start }) (r := s.conn.handleConnection) halive
      rw [perform_handleConnection (s := { s with io := s.io.start }) hfault]
      unfold Session.teardowns at hzero
      refine ⟨?_, ?_⟩
      · simp only [Session.teardowns, hstart, List.count_nil]
        omega
      · simp only [hstart, List.not_mem_nil, not_false_eq_true, true_and, true_iff]
        omega
  | writeInLoop hfront hlives hw =>
      have hstart := h.start hfront (by simp) (by simp)
      exact hstart.perform (TcpConnection.ordinary_writeInLoop hw) fun hmem =>
        absurd hmem (TcpConnection.noClose_writeInLoop hw)
  | writeComplete hfront huser => exact (h.start hfront (by simp) (by simp)).congr rfl rfl rfl rfl
  | closeConnection hfront =>
      have hwaiting := BatchQueue.waiting_start hfront
      have hone := h.teardowns
      unfold Session.teardowns at hone
      rw [hwaiting, List.count_cons_self] at hone
      rw [(perform_closeConnection halive).2]
      refine ⟨?_, ?_⟩
      · simp only [Session.teardowns]
        omega
      · simp
  | doneIo hrunning hframe => exact h.congr (BatchQueue.waiting_finish hrunning) rfl rfl rfl
  | popBase hidle => exact h.congr rfl (BatchQueue.waiting_popAll hidle) rfl rfl
  | runBase hfront =>
      have hone := h.teardowns
      have hwaiting := BatchQueue.waiting_start hfront
      refine ⟨?_, ?_⟩
      · unfold Session.teardowns at hone ⊢
        rw [hwaiting, List.length_cons] at hone
        simp only [BatchQueue.waiting_push, List.count_append, List.count_singleton_self]
        omega
      · simpa using h.registered
  | doneBase hrunning => exact h.congr rfl (BatchQueue.waiting_finish hrunning) rfl rfl

/-! ## No `shared_ptr` comes back -/

theorem alive_of_holds {f : IoFunctor} (hmem : f ∈ s.io.all) (hf : f.holds = true) :
    s.alive = true := by
  have hany : s.io.all.any IoFunctor.holds = true := List.any_eq_true.mpr ⟨f, hmem, hf⟩
  simp [alive, hany]

theorem alive_of_frame {f : Frame} (hf : s.frame = some f) : s.alive = true := by
  simp [alive, hf]

/-- Fewer functors hold no more than before. -/
theorem alive_of_subset (h : s'.alive = true) (hio : s'.io.all ⊆ s.io.all)
    (hbase : s'.base.all ⊆ s.base.all) (hentry : s'.entry = s.entry)
    (hframe : s'.frame = s.frame) : s.alive = true := by
  simp only [alive, Bool.or_eq_true, List.any_eq_true, Bool.not_eq_true',
    List.isEmpty_eq_false_iff] at h ⊢
  rw [hentry, hframe] at h
  rcases h with ((h | ⟨f, hmem, hf⟩) | h) | h
  · exact .inl (.inl (.inl h))
  · exact .inl (.inl (.inr ⟨f, hio hmem, hf⟩))
  · obtain ⟨f, hmem⟩ := List.exists_mem_of_ne_nil _ h
    exact .inl (.inr (List.ne_nil_of_mem (hbase hmem)))
  · exact .inr h

/-- A connection that is alive after a move was alive before. -/
theorem alive_move (hmove : Move user s l s') (h : s'.alive = true) : s.alive = true := by
  cases hmove with
  | message hpolling hreading hlives hrs huser => exact hlives
  | readClose hpolling hreading hlives hrs => exact hlives
  | readError hpolling hreading hlives hrs => exact hlives
  | writable hpolling hwriting hlives hw => exact hlives
  | call hframe => exact alive_of_frame hframe
  | leave hframe => exact alive_of_frame hframe
  | popIo hpolling =>
      exact alive_of_subset h BatchQueue.all_popAll_subset (List.Subset.refl _) rfl rfl
  | handleConnection hfront huser => exact alive_of_holds (BatchQueue.mem_all_of_front hfront) rfl
  | writeInLoop hfront hlives hw => exact hlives
  | writeComplete hfront huser => exact alive_of_holds (BatchQueue.mem_all_of_front hfront) rfl
  | closeConnection hfront => exact alive_of_holds (BatchQueue.mem_all_of_front hfront) rfl
  | doneIo hrunning hframe =>
      exact alive_of_subset h BatchQueue.all_finish_sublist.subset (List.Subset.refl _) rfl rfl
  | popBase hidle =>
      exact alive_of_subset h (List.Subset.refl _) BatchQueue.all_popAll_subset rfl rfl
  | runBase hfront =>
      have hne : s.base.all ≠ [] := List.ne_nil_of_mem (BatchQueue.mem_all_of_front hfront)
      simp [alive, hne]
  | doneBase hrunning =>
      exact alive_of_subset h (List.Subset.refl _) BatchQueue.all_finish_sublist.subset rfl rfl

/-! ## Runs of a session -/

theorem exec_of_fault {ls : List (Label ε)} (hfault : s.fault ≠ none)
    (h : Runs.exec (step user) s ls = some s') : s' = s := by
  cases ls with
  | nil => exact (Option.some.inj h).symm
  | cons l ls =>
      obtain ⟨t, ht, -⟩ := Option.bind_eq_some_iff.mp h
      exact absurd (step_fault ht) hfault

/-- What a run that the process survives and whose callbacks close in time keeps. -/
theorem once_run {ls : List (Label ε)} (hlife : s.Lifetime) (honce : s.Once)
    (hintime : Runs.Along (step user) ClosesInTime s ls)
    (h : Runs.exec (step user) s ls = some s') (halive : s'.fault = none) :
    s'.Lifetime ∧ s'.Once ∧ (s'.alive = true → s.alive = true) := by
  induction ls generalizing s with
  | nil =>
      obtain rfl := Option.some.inj h
      exact ⟨hlife, honce, id⟩
  | cons l ls ih =>
      obtain ⟨t, ht, hrest⟩ := Option.bind_eq_some_iff.mp h
      have htfault : t.fault = none := by
        by_contra hfault
        obtain rfl := exec_of_fault hfault hrest
        exact hfault halive
      have hmove := step_cases ht htfault
      have htlife := lifetime_move hlife hmove htfault
      have htonce := once_move honce hlife hmove hintime.1 htfault
      obtain ⟨hlife', honce', hback⟩ := ih htlife htonce (hintime.2 t ht) hrest
      exact ⟨hlife', honce', fun h' => alive_move hmove (hback h')⟩

/-- Until `closeConnection` has run, someone holds the connection. -/
theorem alive_of_not_closed (hlife : s.Lifetime) (hclosed : s.closed = 0) : s.alive = true := by
  rcases hlife.held with hentry | hclose | hpos
  · simp [alive, hentry]
  · exact alive_of_holds (BatchQueue.mem_all_of_waiting hclose) rfl
  · omega

/-- The handler of a connection is registered only while someone holds the
    connection. -/
theorem alive_of_registered (hlife : s.Lifetime) (honce : s.Once) (h : s.registered = true) :
    s.alive = true :=
  alive_of_not_closed hlife (honce.registered.mp h).2

/-! ## How often `closeConnection` runs -/

theorem closed_foldl {es : List Effect} (hdec : .decConnection ∉ es) :
    (es.foldl request s).closed = s.closed := by
  induction es generalizing s with
  | nil => rfl
  | cons e es ih =>
      have hone : (s.request e).closed = s.closed := by
        unfold request
        split
        · rfl
        · cases e with
          | decConnection => exact absurd List.mem_cons_self hdec
          | updateHandler =>
              simp only [carryOut]
              split <;> rfl
          | removeHandler =>
              simp only [carryOut]
              split <;> rfl
          | _ => rfl
      rw [List.foldl_cons, ih fun he => hdec (by simp [he]), hone]

theorem closed_perform {r : Result} (hdec : .decConnection ∉ r.effects) :
    (s.perform r).closed = s.closed :=
  closed_foldl (s := { s with conn := r.conn }) hdec

theorem closed_enter (r : Except Fault (κ × List Call)) (fromRead : Bool) :
    (s.enter r fromRead).closed = s.closed := by
  cases r <;> rfl

theorem closed_throughThis {f : Session κ → Session κ} (h : (f s).closed = s.closed) :
    (s.throughThis f).closed = s.closed := by
  unfold throughThis
  split
  · exact h
  · rfl

theorem closed_attempt {r : Except Thrown Result}
    (hok : ∀ r', r = .ok r' → .decConnection ∉ r'.effects)
    (herror : ∀ e, r = .error e → .decConnection ∉ e.effects) :
    (s.attempt r).closed = s.closed := by
  cases r with
  | ok r' => exact closed_perform (hok r' rfl)
  | error e => exact closed_foldl (herror e rfl)

theorem closed_closeConnection {c : TcpConnection} (hfault : s.fault = none) :
    (s.perform c.closeConnection).closed = s.closed + 1 := by
  cases hreg : s.registered <;>
    simp [perform, TcpConnection.closeConnection, request, carryOut, hfault, hreg, fail]

/-- The step runs `closeConnection`. -/
def Closes (s : Session κ) (l : Label ε) : Prop :=
  (∃ w env, l = .runIo w env) ∧ s.io.front = some .closeConnection

theorem not_closes (hl : ∀ w env, l ≠ .runIo w env) : ¬ s.Closes l :=
  fun ⟨⟨w, env, h⟩, _⟩ => hl w env h

theorem closes_runIo {w : WriteOutcome} {env : ε} :
    Closes s (.runIo w env) ↔ s.io.front = some .closeConnection :=
  and_iff_right ⟨w, env, rfl⟩

/-- Only running `closeConnection` counts, and it counts once. -/
theorem closed_step (h : step user s l = some s') :
    ¬ s.Closes l ∧ s'.closed = s.closed ∨ s.Closes l ∧ s'.closed = s.closed + 1 := by
  have hfault := step_fault h
  unfold step at h
  simp only [hfault, Option.isSome_none, Bool.false_eq_true, if_false] at h
  cases l with
  | readable rs env =>
      refine .inl ⟨not_closes (by simp), ?_⟩
      simp only [Option.ite_none_right_eq_some] at h
      obtain ⟨-, h⟩ := h
      unfold handleRead at h
      split at h
      · obtain rfl := Option.some.inj h
        exact closed_throughThis (closed_enter _ _)
      · obtain rfl := Option.some.inj h
        exact closed_throughThis (closed_perform TcpConnection.ordinary_close.closed)
      · obtain rfl := Option.some.inj h
        exact closed_throughThis (closed_perform TcpConnection.ordinary_handleClose.closed)
      · cases h
  | writable w =>
      refine .inl ⟨not_closes (by simp), ?_⟩
      simp only [Option.ite_none_right_eq_some, Option.some.injEq] at h
      obtain ⟨-, rfl⟩ := h
      exact closed_throughThis (closed_attempt
        (fun r hr => (TcpConnection.ordinary_handleWrite hr).closed)
        fun e he => TcpConnection.thrown_handleWrite he)
  | call =>
      refine .inl ⟨not_closes (by simp), ?_⟩
      simp only at h
      split at h
      · obtain rfl := Option.some.inj h
        exact closed_perform (TcpConnection.ordinary_call _).closed
      · cases h
  | leave =>
      refine .inl ⟨not_closes (by simp), ?_⟩
      simp only at h
      split at h
      · obtain rfl := Option.some.inj h
        rfl
      · cases h
  | popIo =>
      refine .inl ⟨not_closes (by simp), ?_⟩
      simp only [Option.ite_none_right_eq_some, Option.some.injEq] at h
      obtain ⟨-, rfl⟩ := h
      rfl
  | runIo w env =>
      rw [closes_runIo]
      simp only at h
      split at h
      · rename_i f hframe hfront
        obtain rfl := Option.some.inj h
        rw [hfront, Option.some.injEq]
        cases f with
        | handleConnection =>
            refine .inl ⟨by simp, (closed_enter _ _).trans ?_⟩
            exact closed_perform (by simp [TcpConnection.handleConnection])
        | writeInLoop data =>
            exact .inl ⟨by simp, closed_throughThis (closed_attempt
              (fun r hr => (TcpConnection.ordinary_writeInLoop hr).closed)
              fun e he => TcpConnection.thrown_writeInLoop he)⟩
        | writeComplete buf => exact .inl ⟨by simp, closed_enter _ _⟩
        | closeConnection => exact .inr ⟨rfl, closed_closeConnection rfl⟩
      · cases h
  | doneIo =>
      refine .inl ⟨not_closes (by simp), ?_⟩
      simp only [Option.ite_none_right_eq_some, Option.some.injEq] at h
      obtain ⟨-, rfl⟩ := h
      rfl
  | popBase =>
      refine .inl ⟨not_closes (by simp), ?_⟩
      simp only [Option.ite_none_right_eq_some, Option.some.injEq] at h
      obtain ⟨-, rfl⟩ := h
      rfl
  | runBase =>
      refine .inl ⟨not_closes (by simp), ?_⟩
      simp only at h
      split at h
      · obtain rfl := Option.some.inj h
        rfl
      · cases h
  | doneBase =>
      refine .inl ⟨not_closes (by simp), ?_⟩
      simp only [Option.ite_none_right_eq_some, Option.some.injEq] at h
      obtain ⟨-, rfl⟩ := h
      rfl

end Session

end QGServer
