-- SUMMARY: The invariants of a session's teardown, and when no functor bound to the raw this outlives the connection.
import QGServer.Core.Moves

/-!
# The lifetime of a connection

Teardown runs through both loops: `handleClose` asks the base loop to forget the
connection, the base loop asks the io loop to run `closeConnection`, and the
last `shared_ptr` goes with that functor. From the first of these on the
connection is quiet: it is disconnected and interested in no event. Until the
last of them someone holds a `shared_ptr`.

`TcpConnection::write` binds the raw `this`, so a write is safe only if its
functor comes before `closeConnection` in the queue.
-/

namespace QGServer

/-! ## Quiet connections -/

/-- The connection is disconnected and interested in neither event. -/
structure TcpConnection.Quiet (c : TcpConnection) : Prop where
  disconnected : c.disconnected = true
  reading : c.eventHandler.isReading = false
  writing : c.eventHandler.isWriting = false

/-- What a member function other than `handleConnection` and `closeConnection`
    does to a connection that is being torn down, and when it starts that. -/
structure KeepsQuiet (c : TcpConnection) (r : Result) : Prop where
  quiet : c.Quiet → r.conn.Quiet
  closing : .closeCallBack ∈ r.effects → r.conn.Quiet
  closed : .decConnection ∉ r.effects

/-- The effects of sending. -/
def Effect.isOutput : Effect → Bool
  | .write _ _ | .addWriteComplete _ | .updateHandler => true
  | _ => false

/-- The member function queues no further `writeInLoop`. -/
def Result.NoWrites (r : Result) : Prop := ∀ data, .addWriteInLoop data ∉ r.effects

/-- For a connection that reads, the state before does not matter. -/
theorem KeepsQuiet.of_reading {c c' : TcpConnection} {r : Result} (h : KeepsQuiet c' r)
    (hreading : c.eventHandler.isReading = true) : KeepsQuiet c r := by
  refine ⟨fun hquiet => ?_, h.closing, h.closed⟩
  rw [hquiet.reading] at hreading
  cases hreading

namespace TcpConnection

variable {c : TcpConnection}

theorem quiet_handleClose (h : c.disconnected = true) : c.handleClose.conn.Quiet :=
  ⟨h, EventHandler.isReading_disableAll c.eventHandler,
    EventHandler.isWriting_disableAll c.eventHandler⟩

theorem keepsQuiet_handleClose (h : c.disconnected = true) : KeepsQuiet c c.handleClose :=
  ⟨fun _ => quiet_handleClose h, fun _ => quiet_handleClose h, by simp [handleClose]⟩

theorem keepsQuiet_close : KeepsQuiet c c.close := by
  unfold close
  dsimp only
  split
  · exact ⟨fun hquiet => ⟨rfl, hquiet.reading, hquiet.writing⟩, by simp, by simp⟩
  · exact ⟨fun _ => quiet_handleClose rfl, fun _ => quiet_handleClose rfl, by simp [handleClose]⟩

theorem keepsQuiet_call (a : Call) : KeepsQuiet c (a.run c) := by
  cases a with
  | write data => exact ⟨id, by simp [Call.run, write], by simp [Call.run, write]⟩
  | shutdown => exact ⟨id, by simp [Call.run, shutdown], by simp [Call.run, shutdown]⟩
  | close => exact keepsQuiet_close

theorem handleRead_frame {rs rest : List (KernelRead defaultReadBuffSize)} {o : ReadOutcome}
    {c' : TcpConnection} (h : c.handleRead rs = some (o, c', rest)) :
    c'.eventHandler = c.eventHandler ∧ (o ≠ .error → c'.disconnected = c.disconnected) ∧
      (o = .error → c'.disconnected = true) ∧ c'.sendfileFd = c.sendfileFd ∧
      c'.writeBuf = c.writeBuf := by
  unfold handleRead at h
  rw [Option.map_eq_some_iff] at h
  obtain ⟨⟨cnt, readBuf, rest'⟩, -, h⟩ := h
  dsimp only at h
  split at h
  · cases h
    simp
  · split at h
    · cases h
      simp
    · cases h
      simp

/-- `bufferRest` only adds to `write_buf_` and asks for write events. -/
theorem bufferRest_frame {data : Bytes} {n : Int} {effects : List Effect} {r : Result}
    (h : c.bufferRest data n effects = .ok r) :
    r.conn.disconnected = c.disconnected ∧
      ∀ e ∈ r.effects, e ∈ effects ∨ e = .updateHandler := by
  unfold bufferRest at h
  split at h
  · cases h
  · dsimp only at h
    split at h
    · cases h
      simp
    · cases h
      exact ⟨rfl, fun e he => .inl he⟩

/-- What a call of `writeInLoop` that returns does: nothing if the connection is
    disconnected, and else nothing but output. -/
theorem writeInLoop_frame {data : Bytes} {w : WriteOutcome} {r : Result}
    (h : c.writeInLoop data w = .ok r) :
    (c.disconnected = true ∧ r = ⟨c, []⟩) ∨
      (c.disconnected = false ∧ r.conn.disconnected = false ∧
        ∀ e ∈ r.effects, e.isOutput = true) := by
  unfold writeInLoop at h
  cases hconn : c.disconnected with
  | true =>
      rw [hconn, if_pos rfl] at h
      exact .inl ⟨rfl, (Except.ok.inj h).symm⟩
  | false =>
      right
      simp only [hconn, Bool.false_eq_true, if_false, and_false] at h
      split at h
      · obtain ⟨hdisc, heffects⟩ := bufferRest_frame h
        refine ⟨rfl, hdisc.trans hconn, fun e he => ?_⟩
        rcases heffects e he with hmem | rfl
        · rcases List.mem_cons.mp hmem with rfl | hmem
          · rfl
          · split at hmem
            · rw [List.mem_singleton.mp hmem]
              rfl
            · cases hmem
        · rfl
      · obtain ⟨hdisc, heffects⟩ := bufferRest_frame h
        refine ⟨rfl, hdisc.trans hconn, fun e he => ?_⟩
        rcases heffects e he with hmem | rfl
        · cases hmem
        · rfl

theorem writeInLoop_output {data : Bytes} {w : WriteOutcome} {r : Result}
    (h : c.writeInLoop data w = .ok r) {e : Effect} (he : e ∈ r.effects) : e.isOutput = true := by
  rcases writeInLoop_frame h with ⟨-, rfl⟩ | ⟨-, -, heffects⟩
  · cases he
  · exact heffects e he

theorem keepsQuiet_writeInLoop {data : Bytes} {w : WriteOutcome} {r : Result}
    (h : c.writeInLoop data w = .ok r) : KeepsQuiet c r := by
  refine ⟨fun hquiet => ?_, fun he => ?_, fun he => ?_⟩
  · rcases writeInLoop_frame h with ⟨-, rfl⟩ | ⟨hconn, -⟩
    · exact hquiet
    · rw [hquiet.disconnected] at hconn
      cases hconn
  · cases writeInLoop_output h he
  · cases writeInLoop_output h he

theorem keepsQuiet_handleWrite {w : WriteOutcome} {r : Result} (h : c.handleWrite w = .ok r) :
    KeepsQuiet c r := by
  unfold handleWrite at h
  split at h
  · cases h
    exact ⟨id, by simp, by simp⟩
  · dsimp only at h
    split at h
    · split at h
      · cases h
      · split at h
        · cases h
          refine ⟨fun hquiet => ⟨hquiet.disconnected, ?_, ?_⟩, by simp, by simp⟩
          · exact (EventHandler.isReading_disableWrite _).trans hquiet.reading
          · exact EventHandler.isWriting_disableWrite _
        · cases h
          exact ⟨fun hquiet => ⟨hquiet.disconnected, hquiet.reading, hquiet.writing⟩, by simp,
            by simp⟩
    · cases h
      exact ⟨fun _ => quiet_handleClose rfl, fun _ => quiet_handleClose rfl, by simp [handleClose]⟩

theorem noWrites_handleClose : c.handleClose.NoWrites := by
  simp [Result.NoWrites, handleClose]

theorem noWrites_close : c.close.NoWrites := by
  unfold close
  dsimp only
  split
  · simp [Result.NoWrites]
  · exact noWrites_handleClose

theorem noWrites_writeInLoop {data : Bytes} {w : WriteOutcome} {r : Result}
    (h : c.writeInLoop data w = .ok r) : r.NoWrites := by
  intro data he
  cases writeInLoop_output h he

theorem noWrites_handleWrite {w : WriteOutcome} {r : Result} (h : c.handleWrite w = .ok r) :
    r.NoWrites := by
  unfold handleWrite at h
  split at h
  · cases h
    simp [Result.NoWrites]
  · dsimp only at h
    split at h
    · split at h
      · cases h
      · split at h <;> cases h <;> simp [Result.NoWrites]
    · cases h
      simp [Result.NoWrites, handleClose]

end TcpConnection

namespace Session

variable {κ ε : Type*} {user : UserCode κ ε} {s s' : Session κ} {l : Label ε}

/-! ## The invariant -/

/-- A teardown has been asked for. -/
def Closing (s : Session κ) : Prop :=
  s.base.waiting ≠ [] ∨ .closeConnection ∈ s.io.waiting ∨ 0 < s.closed

/-- `handleConnection` has not run: nothing else has happened either. -/
structure Fresh (s : Session κ) : Prop where
  io : s.io.waiting = [.handleConnection]
  notClosing : ¬ s.Closing
  frame : s.frame = none
  reading : s.conn.eventHandler.isReading = false
  writing : s.conn.eventHandler.isWriting = false

structure Lifetime (s : Session κ) : Prop where
  fresh : .handleConnection ∈ s.io.waiting → s.Fresh
  quiet : s.Closing → s.conn.Quiet
  held : s.entry = true ∨ .closeConnection ∈ s.io.waiting ∨ 0 < s.closed

theorem lifetime_start (context : κ) : (start context).Lifetime := by
  have hidle : ¬ (start context).Closing := by
    simp [Closing, start, BatchQueue.empty, BatchQueue.push, BatchQueue.waiting]
  exact ⟨fun _ => ⟨rfl, hidle, rfl, EventHandler.isReading_new, EventHandler.isWriting_new⟩,
    fun h => absurd h hidle, .inl rfl⟩

/-- The invariant of a connection that is open. -/
theorem lifetime_of_open (hopen : .handleConnection ∉ s.io.waiting)
    (hquiet : s.Closing → s.conn.Quiet)
    (hheld : s.entry = true ∨ .closeConnection ∈ s.io.waiting ∨ 0 < s.closed) : s.Lifetime :=
  ⟨fun hmem => absurd hmem hopen, hquiet, hheld⟩

/-! ## Opening and closing -/

theorem fault_of_perform {r : Result} (h : (s.perform r).fault = none) : s.fault = none := by
  by_contra hfault
  have hsame : s.perform r = { s with conn := r.conn } :=
    foldl_request_of_fault r.effects hfault
  rw [hsame] at h
  exact hfault h

theorem perform_handleConnection {c : TcpConnection} (h : s.fault = none) :
    s.perform c.handleConnection
      = { s with conn := c.handleConnection.conn, registered := true } := by
  simp [perform, TcpConnection.handleConnection, request, carryOut, h]

theorem perform_closeConnection {c : TcpConnection}
    (h : (s.perform c.closeConnection).fault = none) :
    s.registered = true ∧ s.perform c.closeConnection
      = { s with conn := { c with disconnected := true }, registered := false,
                 closed := s.closed + 1 } := by
  have hfault := fault_of_perform h
  cases hreg : s.registered with
  | true => simp [perform, TcpConnection.closeConnection, request, carryOut, hfault, hreg]
  | false =>
      simp [perform, TcpConnection.closeConnection, request, carryOut, hfault, hreg, fail] at h

/-- Carrying out the requests of a member function keeps the invariant, once the
    connection is open. -/
theorem Lifetime.perform {r : Result} (h : s.Lifetime) (hopen : .handleConnection ∉ s.io.waiting)
    (hr : KeepsQuiet s.conn r) (halive : (s.perform r).fault = none) :
    (s.perform r).Lifetime ∧ .handleConnection ∉ (s.perform r).io.waiting := by
  let P : Session κ → Prop := fun t =>
    t.Lifetime ∧ .handleConnection ∉ t.io.waiting ∧ t.conn = r.conn
  have hstart : P { s with conn := r.conn } :=
    ⟨lifetime_of_open hopen (fun hclosing => hr.quiet (h.quiet hclosing)) h.held, hopen, rfl⟩
  have hend : P (s.perform r) := by
    refine foldl_request_induction ?_ hstart halive
    rintro t e he - hcarried ⟨hlife, hopen, hconn⟩
    cases e with
    | closeCallBack =>
        refine ⟨lifetime_of_open hopen (fun _ => ?_) hlife.held, hopen, hconn⟩
        simpa [carryOut, hconn] using hr.closing he
    | decConnection => exact absurd he hr.closed
    | addWriteComplete buf =>
        have hopen' : .handleConnection ∉ (t.io.push (.writeComplete buf)).waiting := by
          simpa using hopen
        refine ⟨lifetime_of_open hopen' (fun hclosing => ?_) ?_, hopen', hconn⟩
        · exact hlife.quiet (by simpa [Closing, carryOut] using hclosing)
        · simpa [carryOut] using hlife.held
    | addWriteInLoop data =>
        have hopen' : .handleConnection ∉ (t.io.push (.writeInLoop data)).waiting := by
          simpa using hopen
        refine ⟨lifetime_of_open hopen' (fun hclosing => ?_) ?_, hopen', hconn⟩
        · exact hlife.quiet (by simpa [Closing, carryOut] using hclosing)
        · simpa [carryOut] using hlife.held
    | write p handed => exact ⟨lifetime_of_open hopen hlife.quiet hlife.held, hopen, hconn⟩
    | shutdown => exact ⟨lifetime_of_open hopen hlife.quiet hlife.held, hopen, hconn⟩
    | registerHandler => exact ⟨lifetime_of_open hopen hlife.quiet hlife.held, hopen, hconn⟩
    | updateHandler =>
        simp only [carryOut] at hcarried ⊢
        split
        · exact ⟨hlife, hopen, hconn⟩
        · exact ⟨lifetime_of_open hopen hlife.quiet hlife.held, hopen, hconn⟩
    | removeHandler =>
        simp only [carryOut] at hcarried ⊢
        split
        · exact ⟨lifetime_of_open hopen hlife.quiet hlife.held, hopen, hconn⟩
        · exact ⟨lifetime_of_open hopen hlife.quiet hlife.held, hopen, hconn⟩
  exact ⟨hend.1, hend.2.1⟩

theorem Lifetime.open_of_reading (h : s.Lifetime) (hr : s.conn.eventHandler.isReading = true) :
    .handleConnection ∉ s.io.waiting := by
  intro hmem
  rw [(h.fresh hmem).reading] at hr
  cases hr

theorem Lifetime.open_of_writing (h : s.Lifetime) (hw : s.conn.eventHandler.isWriting = true) :
    .handleConnection ∉ s.io.waiting := by
  intro hmem
  rw [(h.fresh hmem).writing] at hw
  cases hw

theorem Lifetime.open_of_frame (h : s.Lifetime) {f : Frame} (hf : s.frame = some f) :
    .handleConnection ∉ s.io.waiting := by
  intro hmem
  rw [(h.fresh hmem).frame] at hf
  cases hf

theorem Lifetime.open_of_front (h : s.Lifetime) {f : IoFunctor} (hfront : s.io.front = some f)
    (hf : f ≠ .handleConnection) : .handleConnection ∉ s.io.waiting := by
  intro hmem
  have hwaiting := (h.fresh hmem).io
  rw [BatchQueue.waiting_start hfront] at hwaiting
  exact hf (List.cons.inj hwaiting).1

/-- Starting a functor that neither opens nor closes the connection. -/
theorem Lifetime.start (h : s.Lifetime) {f : IoFunctor} (hfront : s.io.front = some f)
    (hopens : f ≠ .handleConnection) (hcloses : f ≠ .closeConnection) :
    Lifetime { s with io := s.io.start } ∧ .handleConnection ∉ s.io.start.waiting := by
  have hwaiting := BatchQueue.waiting_start hfront
  have hopen := h.open_of_front hfront hopens
  have hopen' : .handleConnection ∉ s.io.start.waiting := by
    intro hmem
    exact hopen (by simp [hwaiting, hmem])
  have hiff : .closeConnection ∈ s.io.waiting ↔ .closeConnection ∈ s.io.start.waiting := by
    rw [hwaiting, List.mem_cons, or_iff_right (Ne.symm hcloses)]
  refine ⟨lifetime_of_open hopen' (fun hclosing => h.quiet ?_) ?_, hopen'⟩
  · unfold Closing at hclosing ⊢
    rw [hiff]
    exact hclosing
  · rw [← hiff]
    exact h.held

/-- The invariant does not see how a queue holds what waits in it. -/
theorem Lifetime.congr (h : s.Lifetime) (hio : s'.io.waiting = s.io.waiting)
    (hbase : s'.base.waiting = s.base.waiting) (hconn : s'.conn = s.conn)
    (hframe : s'.frame = s.frame) (hentry : s'.entry = s.entry) (hclosed : s'.closed = s.closed) :
    s'.Lifetime := by
  have hclosing : s'.Closing ↔ s.Closing := by
    simp [Closing, hio, hbase, hclosed]
  refine ⟨fun hmem => ?_, fun hcl => ?_, ?_⟩
  · rw [hio] at hmem
    have hfresh := h.fresh hmem
    refine ⟨hio.trans hfresh.io, fun hcl => hfresh.notClosing (hclosing.mp hcl),
      hframe.trans hfresh.frame, ?_, ?_⟩
    · exact hconn ▸ hfresh.reading
    · exact hconn ▸ hfresh.writing
  · exact hconn ▸ h.quiet (hclosing.mp hcl)
  · rw [hio, hentry, hclosed]
    exact h.held

theorem idle_of_polling (h : s.polling = true) : s.io.idle = true := by
  simp only [polling, Bool.and_eq_true] at h
  exact h.1

theorem lifetime_move (h : s.Lifetime) (hmove : Move user s l s') (halive : s'.fault = none) :
    s'.Lifetime := by
  cases hmove with
  | message hpolling hreading hlives hrs huser =>
      refine lifetime_of_open (h.open_of_reading hreading) (fun hclosing => ?_) h.held
      have hquiet := (h.quiet hclosing).reading
      rw [hquiet] at hreading
      cases hreading
  | @readClose rs env c hpolling hreading hlives hrs =>
      have hr := (@TcpConnection.keepsQuiet_close c).of_reading hreading
      exact (h.perform (h.open_of_reading hreading) hr halive).1
  | @readError rs env c hpolling hreading hlives hrs =>
      have hdisc := (TcpConnection.handleRead_frame hrs).2.2.1 rfl
      have hr := (TcpConnection.keepsQuiet_handleClose hdisc).of_reading hreading
      exact (h.perform (h.open_of_reading hreading) hr halive).1
  | writable hpolling hwriting hlives hw =>
      have hr := TcpConnection.keepsQuiet_handleWrite hw
      exact (h.perform (h.open_of_writing hwriting) hr halive).1
  | @call c calls fromRead hframe =>
      have hopen := h.open_of_frame hframe
      have hlife : Lifetime { s with frame := some ⟨calls, fromRead⟩ } :=
        lifetime_of_open hopen h.quiet h.held
      exact (hlife.perform hopen (TcpConnection.keepsQuiet_call c) halive).1
  | @leave fromRead hframe =>
      refine lifetime_of_open (h.open_of_frame hframe) (fun hclosing => ?_) h.held
      have hquiet := h.quiet hclosing
      dsimp only
      split
      · exact ⟨hquiet.disconnected, hquiet.reading, hquiet.writing⟩
      · exact hquiet
  | popIo hpolling =>
      exact h.congr (BatchQueue.waiting_popAll (idle_of_polling hpolling)) rfl rfl rfl rfl rfl
  | handleConnection hfront huser =>
      have hwaiting := BatchQueue.waiting_start hfront
      have hfresh := h.fresh (by simp [hwaiting])
      have hstart : s.io.start.waiting = [] := by
        rw [hfresh.io] at hwaiting
        exact (List.cons.inj hwaiting).2.symm
      have hclosing := hfresh.notClosing
      have hfault : s.fault = none :=
        fault_of_perform (s := { s with io := s.io.start }) (r := s.conn.handleConnection) halive
      rw [perform_handleConnection (s := { s with io := s.io.start }) hfault]
      refine lifetime_of_open (by simp [hstart]) (fun hcl => absurd hcl ?_) ?_
      · simp only [Closing, hstart, List.not_mem_nil, false_or] at hclosing ⊢
        tauto
      · have hheld := h.held
        simp only [Closing] at hclosing
        tauto
  | writeInLoop hfront hlives hw =>
      obtain ⟨hlife, hopen⟩ := h.start hfront (by simp) (by simp)
      exact (hlife.perform hopen (TcpConnection.keepsQuiet_writeInLoop hw) halive).1
  | writeComplete hfront huser =>
      obtain ⟨hlife, hopen⟩ := h.start hfront (by simp) (by simp)
      exact lifetime_of_open hopen hlife.quiet hlife.held
  | closeConnection hfront =>
      have hwaiting := BatchQueue.waiting_start hfront
      have hopen := h.open_of_front hfront (by simp)
      have hquiet : s.conn.Quiet := h.quiet (.inr (.inl (by simp [hwaiting])))
      obtain ⟨-, hperform⟩ := perform_closeConnection halive
      rw [hperform]
      refine lifetime_of_open ?_ (fun _ => ⟨rfl, hquiet.reading, hquiet.writing⟩)
        (.inr (.inr (Nat.succ_pos _)))
      intro hmem
      exact hopen (by simp [hwaiting, hmem])
  | doneIo hrunning hframe => exact h.congr (BatchQueue.waiting_finish hrunning) rfl rfl rfl rfl rfl
  | popBase hidle => exact h.congr rfl (BatchQueue.waiting_popAll hidle) rfl rfl rfl rfl
  | runBase hfront =>
      have hclosing : s.Closing := .inl (by simp [BatchQueue.waiting_start hfront])
      have hopen : .handleConnection ∉ s.io.waiting := fun hmem =>
        (h.fresh hmem).notClosing hclosing
      exact lifetime_of_open (by simpa using hopen) (fun _ => h.quiet hclosing)
        (.inr (.inl (by simp)))
  | doneBase hrunning => exact h.congr rfl (BatchQueue.waiting_finish hrunning) rfl rfl rfl rfl

/-! ## The order of writes and the close -/

/-- Nothing is written behind `closeConnection`. -/
structure Ordered (s : Session κ) : Prop where
  order : s.io.waiting.Pairwise fun f g =>
    f = .closeConnection → ∀ data, g ≠ .writeInLoop data
  closed : 0 < s.closed → ∀ data, .writeInLoop data ∉ s.io.waiting

theorem ordered_start (context : κ) : (start context).Ordered := by
  refine ⟨?_, fun h => absurd h (by simp [start])⟩
  simp [start, BatchQueue.waiting, BatchQueue.empty, BatchQueue.push]

/-- The call that a step makes for the running callback. -/
def callMade (s : Session κ) : Label ε → Option Call
  | .call => s.frame.bind fun f => f.calls.head?
  | _ => none

theorem callMade_call {c : Call} {calls : List Call} {fromRead : Bool}
    (h : s.frame = some ⟨c :: calls, fromRead⟩) :
    s.callMade (.call : Label ε) = some c := by
  simp [callMade, h]

/-- A callback calls `write` only while no `closeConnection` is queued or has run. -/
def WritesInTime (s : Session κ) (l : Label ε) : Prop :=
  (s.callMade l).any Call.isWrite = true → .closeConnection ∉ s.io.waiting ∧ s.closed = 0

instance (s : Session κ) (l : Label ε) : Decidable (WritesInTime s l) :=
  inferInstanceAs (Decidable (_ → _))

/-- The step runs a `writeInLoop` functor, which is bound to the raw `this`. -/
def runsRawWrite (s : Session κ) : Label ε → Bool
  | .runIo _ _ => s.fault.isNone && s.io.front.any (!·.holds)
  | _ => false

/-- A `writeInLoop` functor is run only on a connection that is alive. -/
def WritesAlive (s : Session κ) (l : Label ε) : Prop := s.runsRawWrite l = true → s.alive = true

instance (s : Session κ) (l : Label ε) : Decidable (WritesAlive s l) :=
  inferInstanceAs (Decidable (_ → _))

theorem Ordered.sublist (h : s.Ordered) (hio : s'.io.waiting.Sublist s.io.waiting)
    (hclosed : s'.closed = s.closed) : s'.Ordered :=
  ⟨h.order.sublist hio, fun hpos data hmem =>
    h.closed (hclosed ▸ hpos) data (hio.subset hmem)⟩

theorem Ordered.perform {r : Result} (h : s.Ordered) (hdec : .decConnection ∉ r.effects)
    (hwrites : r.NoWrites ∨ .closeConnection ∉ s.io.waiting ∧ s.closed = 0)
    (halive : (s.perform r).fault = none) : (s.perform r).Ordered := by
  let P : Session κ → Prop := fun t =>
    t.Ordered ∧ (r.NoWrites ∨ .closeConnection ∉ t.io.waiting ∧ t.closed = 0)
  have hend : P (s.perform r) := by
    refine foldl_request_induction ?_ (P := P) ⟨⟨h.order, h.closed⟩, hwrites⟩ halive
    rintro t e he - - ⟨hord, hwrites⟩
    cases e with
    | addWriteComplete buf =>
        refine ⟨⟨?_, fun hpos data hmem => ?_⟩, by simpa [carryOut] using hwrites⟩
        · simp [carryOut, List.pairwise_append, hord.order]
        · exact hord.closed hpos data (by simpa [carryOut] using hmem)
    | addWriteInLoop data =>
        rcases hwrites with hno | ⟨hclose, hclosed⟩
        · exact absurd he (hno data)
        · refine ⟨⟨?_, fun hpos => ?_⟩, .inr ⟨by simpa [carryOut] using hclose, hclosed⟩⟩
          · simp only [carryOut, BatchQueue.waiting_push, List.pairwise_append,
              List.pairwise_singleton, List.mem_singleton, forall_eq, true_and]
            exact ⟨hord.order, fun f hf heq => absurd (heq ▸ hf) hclose⟩
          · simp only [carryOut, hclosed] at hpos
            omega
    | decConnection => exact absurd he hdec
    | closeCallBack => exact ⟨⟨hord.order, hord.closed⟩, hwrites⟩
    | write p handed => exact ⟨⟨hord.order, hord.closed⟩, hwrites⟩
    | shutdown => exact ⟨⟨hord.order, hord.closed⟩, hwrites⟩
    | registerHandler => exact ⟨⟨hord.order, hord.closed⟩, hwrites⟩
    | updateHandler =>
        simp only [carryOut]
        split <;> exact ⟨⟨hord.order, hord.closed⟩, hwrites⟩
    | removeHandler =>
        simp only [carryOut]
        split <;> exact ⟨⟨hord.order, hord.closed⟩, hwrites⟩
  exact hend.1

theorem ordered_start_front {f : IoFunctor} (h : s.Ordered) (hfront : s.io.front = some f) :
    Ordered { s with io := s.io.start } := by
  have hwaiting := BatchQueue.waiting_start hfront
  exact h.sublist (by simp [hwaiting]) rfl

theorem ordered_move (h : s.Ordered) (hmove : Move user s l s') (hintime : s.WritesInTime l)
    (halive : s'.fault = none) : s'.Ordered := by
  cases hmove with
  | message hpolling hreading hlives hrs huser => exact ⟨h.order, h.closed⟩
  | readClose hpolling hreading hlives hrs =>
      exact h.perform TcpConnection.keepsQuiet_close.closed (.inl TcpConnection.noWrites_close)
        halive
  | readError hpolling hreading hlives hrs =>
      exact h.perform (by simp [TcpConnection.handleClose])
        (.inl TcpConnection.noWrites_handleClose) halive
  | writable hpolling hwriting hlives hw =>
      exact h.perform (TcpConnection.keepsQuiet_handleWrite hw).closed
        (.inl (TcpConnection.noWrites_handleWrite hw)) halive
  | @call c calls fromRead hframe =>
      have hord : Ordered { s with frame := some ⟨calls, fromRead⟩ } := ⟨h.order, h.closed⟩
      refine hord.perform (TcpConnection.keepsQuiet_call c).closed ?_ halive
      cases c with
      | write data =>
          exact .inr (hintime (by simp [callMade_call hframe, Call.isWrite]))
      | shutdown => exact .inl (by simp [Result.NoWrites, Call.run, TcpConnection.shutdown])
      | close => exact .inl TcpConnection.noWrites_close
  | leave hframe => exact ⟨h.order, h.closed⟩
  | popIo hpolling =>
      refine h.sublist ?_ rfl
      rw [BatchQueue.waiting_popAll (idle_of_polling hpolling)]
  | handleConnection hfront huser =>
      have hord := ordered_start_front h hfront
      have hfault : s.fault = none :=
        fault_of_perform (s := { s with io := s.io.start }) (r := s.conn.handleConnection) halive
      rw [perform_handleConnection (s := { s with io := s.io.start }) hfault]
      exact ⟨hord.order, hord.closed⟩
  | writeInLoop hfront hlives hw =>
      exact (ordered_start_front h hfront).perform (TcpConnection.keepsQuiet_writeInLoop hw).closed
        (.inl (TcpConnection.noWrites_writeInLoop hw)) halive
  | writeComplete hfront huser => exact (ordered_start_front h hfront).sublist (.refl _) rfl
  | closeConnection hfront =>
      have hord := (ordered_start_front h hfront).order
      have horder := h.order
      rw [BatchQueue.waiting_start hfront, List.pairwise_cons] at horder
      rw [(perform_closeConnection halive).2]
      refine ⟨hord, fun _ data hmem => ?_⟩
      exact horder.1 _ hmem rfl data rfl
  | doneIo hrunning hframe =>
      refine h.sublist ?_ rfl
      rw [BatchQueue.waiting_finish hrunning]
  | popBase hidle => exact ⟨h.order, h.closed⟩
  | runBase hfront =>
      refine ⟨?_, fun hpos data hmem => h.closed hpos data (by simpa using hmem)⟩
      simp [List.pairwise_append, h.order]
  | doneBase hrunning => exact ⟨h.order, h.closed⟩

/-! ## Whole runs -/

/-- A functor bound to the raw `this` finds the connection alive. -/
theorem alive_of_front {data : Bytes} (hlife : s.Lifetime) (hord : s.Ordered)
    (hfront : s.io.front = some (.writeInLoop data)) : s.alive = true := by
  have hclosed : ¬ 0 < s.closed := fun hpos =>
    hord.closed hpos data (by simp [BatchQueue.waiting_start hfront])
  rcases hlife.held with hentry | hclose | hpos
  · simp [alive, hentry]
  · have hmem : .closeConnection ∈ s.io.all := BatchQueue.mem_all_of_waiting hclose
    have hany : s.io.all.any IoFunctor.holds = true := List.any_eq_true.mpr ⟨_, hmem, rfl⟩
    simp [alive, hany]
  · exact absurd hpos hclosed

/-- The invariants of a session that lives. -/
def Safe (s : Session κ) : Prop := s.fault = none → s.Lifetime ∧ s.Ordered

theorem safe_step (s : Session κ) (l : Label ε) (s' : Session κ) (h : s.Safe)
    (hintime : s.WritesInTime l) (hstep : s.step user l = some s') : s'.Safe := by
  intro halive
  have hmove := step_cases hstep halive
  obtain ⟨hlife, hord⟩ := h (step_fault hstep)
  exact ⟨lifetime_move hlife hmove halive, ordered_move hord hmove hintime halive⟩

theorem writesAlive_of_safe (s : Session κ) (l : Label ε) (h : s.Safe) (_ : s.WritesInTime l) :
    s.WritesAlive l := by
  intro hruns
  cases l with
  | runIo w env =>
      simp only [runsRawWrite, Bool.and_eq_true, Option.isNone_iff_eq_none, Option.any_eq_true]
        at hruns
      obtain ⟨halive, f, hfront, hraw⟩ := hruns
      obtain ⟨hlife, hord⟩ := h halive
      cases f with
      | writeInLoop data => exact alive_of_front hlife hord hfront
      | handleConnection => simp [IoFunctor.holds] at hraw
      | writeComplete buf => simp [IoFunctor.holds] at hraw
      | closeConnection => simp [IoFunctor.holds] at hraw
  | _ => simp [runsRawWrite] at hruns

/-- In every run whose callbacks write in time, `writeInLoop` is run only on a
    connection that is alive. -/
theorem writeInLoop_alive (user : UserCode κ ε) (context : κ) {ls : List (Label ε)}
    (hintime : Runs.Along (step user) WritesInTime (start context) ls) :
    Runs.Along (step user) WritesAlive (start context) ls :=
  Runs.along_of_invariant safe_step writesAlive_of_safe
    (fun _ => ⟨lifetime_start context, ordered_start context⟩) hintime

/-! ## A run in which the write comes late -/

/-- A user that answers every message with itself and writes `!` when the
    answer is out. -/
def talker : UserCode Unit Unit where
  connectionCome _ _ := .ok ((), [])
  message _ buf _ := .ok ((), [.write buf])
  writeComplete _ _ _ := .ok ((), [.write [33]])

/-- The connection is opened, a message comes and its answer is written at once. -/
def answered : List (Label Unit) :=
  [.popIo, .runIo ⟨0, []⟩ (), .leave, .doneIo,
    .readable [.data ⟨[97], by decide, by decide⟩, .error .eagain] (), .call, .leave,
    .popIo, .runIo ⟨1, [97]⟩ (), .doneIo]

/-- The peer closes before the write-complete functor runs, and the base loop is
    fast enough to put `closeConnection` into the same batch. -/
def closedInBatch : List (Label Unit) :=
  [.readable [.eof] (), .popBase, .runBase, .doneBase,
    .popIo, .runIo ⟨0, []⟩ (), .call, .leave, .doneIo, .runIo ⟨0, []⟩ (), .doneIo,
    .popIo, .runIo ⟨0, []⟩ ()]

/-- A user that answers every message with itself, and no more. -/
def answerer : UserCode Unit Unit := { talker with writeComplete := fun _ _ _ => .ok ((), []) }

/-- The peer closes before the functor of the answer runs, and `closeConnection` comes
    into the same batch, behind it. -/
def closedBehindAnswer : List (Label Unit) :=
  [.popIo, .runIo ⟨0, []⟩ (), .leave, .doneIo,
    .readable [.data ⟨[97], by decide, by decide⟩, .error .eagain] (), .call, .leave,
    .readable [.eof] (), .popBase, .runBase, .doneBase,
    .popIo, .runIo ⟨0, []⟩ (), .doneIo, .runIo ⟨0, []⟩ (), .doneIo]

/-- The functor of the answer finds its connection, which only `closeConnection` behind it
    in the batch still holds. -/
theorem writeInLoop_alive_answered :
    (∃ s, Runs.exec (step answerer) (start ()) closedBehindAnswer = some s ∧ s.closed = 1) ∧
      Runs.Along (step answerer) WritesInTime (start ()) closedBehindAnswer ∧
      Runs.Along (step answerer) WritesAlive (start ()) closedBehindAnswer := by
  have hrun : (Runs.exec (step answerer) (start ()) closedBehindAnswer).any
      (fun s => decide (s.closed = 1)) = true := by
    decide +kernel
  obtain ⟨s, hs, hclosed⟩ := (Option.any_eq_true _ _).mp hrun
  have hintime : Runs.Along (step answerer) WritesInTime (start ()) closedBehindAnswer := by
    decide +kernel
  exact ⟨⟨s, hs, of_decide_eq_true hclosed⟩, hintime, writeInLoop_alive answerer () hintime⟩

/-- The write-complete callback writes behind `closeConnection`, and the functor
    runs on the destroyed connection. -/
theorem writeInLoop_after_free :
    ¬ ∀ (κ ε : Type) (user : UserCode κ ε) (context : κ) (ls : List (Label ε)),
        Runs.Along (step user) WritesAlive (start context) ls := by
  intro h
  exact absurd (h Unit Unit talker () (answered ++ closedInBatch)) (by decide +kernel)

end Session

end QGServer
