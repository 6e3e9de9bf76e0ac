-- SUMMARY: Graceful close: when everything written before close() reaches the kernel, and when a closed connection is stranded.
import QGServer.Core.Outbound
import QGServer.Core.Requests

/-!
# Graceful close

Output on its way to the kernel is in a queued `writeInLoop` functor or in
`write_buf_`. `close()` looks at `write_buf_` only: it calls `handleClose` at
once if that is empty, and else leaves the rest of the teardown to `handleWrite`,
which does not know of it. From then on every `writeInLoop` drops its data.

The steps of a run are recorded, and what was written, handed over and dropped
is read off the record.
-/

namespace QGServer

/-- The output that a functor carries. -/
def IoFunctor.output : IoFunctor → Bytes
  | .writeInLoop data => data
  | _ => []

/-- The functor that a request puts into the queue of the io loop. -/
def Effect.functor : Effect → Option IoFunctor
  | .addWriteComplete buf => some (.writeComplete buf)
  | .addWriteInLoop data => some (.writeInLoop data)
  | _ => none

/-- The output that a request puts into the queue. -/
def Effect.output : Effect → Bytes
  | .addWriteInLoop data => data
  | _ => []

namespace Session

variable {κ ε : Type*} {user : UserCode κ ε} {s s' : Session κ} {l : Label ε}

/-! ## What a step does to the output -/

/-- The output that waits in `writeInLoop` functors. -/
def queuedOutput (s : Session κ) : Bytes := s.io.waiting.flatMap IoFunctor.output

/-- The bytes that a step passes to `qg::write`, and the outcome. -/
def sends (s : Session κ) : Label ε → Option (Bytes × WriteOutcome)
  | .writable w => if s.conn.writeBuf.isEmpty then none else some (s.conn.writeBuf, w)
  | .runIo w _ =>
    match s.io.front with
    | some (.writeInLoop data) =>
      if s.conn.disconnected || !s.conn.canWriteDirect then none else some (data, w)
    | _ => none
  | _ => none

/-- The bytes that the kernel takes in a step. -/
def handsOver (s : Session κ) (l : Label ε) : Bytes := (s.sends l).elim [] fun (_, w) => w.handed

/-- The bytes that a callback passes to `write`. -/
def writes (s : Session κ) (l : Label ε) : Bytes :=
  match s.callMade l with
  | some (.write data) => data
  | _ => []

/-- `handleRead` gets to its call of `close` or to its error path. -/
def readEnds (s : Session κ) (o : TcpConnection.ReadOutcome) : Label ε → Bool
  | .readable rs _ => (s.conn.handleRead rs).any fun (o', _, rest) => o' = o && rest.isEmpty
  | _ => false

/-- The step runs `close()`, called by a callback or by `handleRead`. -/
def runsClose (s : Session κ) (l : Label ε) : Bool :=
  s.callMade l == some .close || s.readEnds .close l

/-- The step runs `handleClose`. -/
def runsHandleClose (s : Session κ) (l : Label ε) : Bool :=
  (s.made l).any fun r => r.effects.contains .closeCallBack

/-- The step runs `writeInLoop` with data, and the data is dropped. -/
def drops (s : Session κ) : Label ε → Bool
  | .runIo _ _ =>
    match s.io.front with
    | some (.writeInLoop data) => s.conn.disconnected && !data.isEmpty
    | _ => false
  | _ => false

/-! ## What a run has done so far -/

/-- The steps taken, the last one first. -/
abbrev Past (κ ε : Type*) := List (Session κ × Label ε)

/-- `close()` has been called. -/
def closeCalled (past : Past κ ε) : Bool := past.any fun (s, l) => s.runsClose l

/-- The bytes passed to `write` before `close()` was called. -/
def written : Past κ ε → Bytes
  | [] => []
  | (s, l) :: past => if closeCalled past then written past else written past ++ s.writes l

/-- The bytes that the kernel has taken. -/
def handedOver : Past κ ε → Bytes
  | [] => []
  | (s, l) :: past => handedOver past ++ s.handsOver l

/-- Some data has been dropped. -/
def dropped (past : Past κ ε) : Bool := past.any fun (s, l) => s.drops l

/-- The io loop has handled an event since it last took its functors. -/
def eventHandled : Past κ ε → Bool
  | [] => false
  | (_, .readable _ _) :: _ => true
  | (_, .writable _) :: _ => true
  | (_, .popIo) :: _ => false
  | _ :: past => eventHandled past

/-! ## The property -/

/-- When `handleClose` runs after a call of `close()`, what was written before
    that call has been handed to the kernel. -/
def HandsOverFirst (h : Session κ × Past κ ε) (l : Label ε) : Prop :=
  h.1.runsHandleClose l = true → closeCalled h.2 = true ∨ h.1.runsClose l = true →
    written h.2 <+: handedOver h.2

/-- Between two iterations of the io loop the connection is disconnected and has
    no output left, and `handleClose` has not been called. -/
structure Stranded (h : Session κ × Past κ ε) : Prop where
  fault : h.1.fault = none
  polling : h.1.polling = true
  iteration : eventHandled h.2 = false
  disconnected : h.1.conn.disconnected = true
  writeBuf : h.1.conn.writeBuf = []
  queued : ∀ data, .writeInLoop data ∉ h.1.io.waiting
  notClosing : ¬ h.1.Closing

/-- `qg::write` succeeds: the kernel takes a prefix of the bytes and the count is
    its length. -/
def NoWriteError (h : Session κ × Past κ ε) (l : Label ε) : Prop :=
  ∀ q ∈ h.1.sends l, q.2.handed <+: q.1 ∧ q.2.ret = q.2.handed.length

/-- `close()` is called when no data waits in a functor or has been dropped; after
    it no read fails while `write_buf_` has content, and `handleWrite` never sends
    the last of it. The counts of `qg::write` fit an `int`. -/
structure ClosesCleanly (h : Session κ × Past κ ε) (l : Label ε) : Prop where
  close : h.1.runsClose l = true → closeCalled h.2 = false →
    h.1.queuedOutput = [] ∧ dropped h.2 = false
  error : h.1.readEnds .error l = true → closeCalled h.2 = true → h.1.conn.writeBuf = []
  last : ∀ q ∈ h.1.sends l, h.1.conn.disconnected = true → q.2.handed ≠ q.1
  count : ∀ q ∈ h.1.sends l, q.2.ret < intLimit

/-! ## One step -/

/-- What a step does to the output: it goes on in order unless it is dropped, on
    a disconnected connection it only leaves `write_buf_`, and a connection that
    is left disconnected without output is torn down or has just sent its last. -/
structure Carries (s : Session κ) (l : Label ε) (s' : Session κ) : Prop where
  sendfileFd : s'.conn.sendfileFd = s.conn.sendfileFd
  stream : s.drops l = false → s.handsOver l ++ s'.conn.writeBuf ++ s'.queuedOutput
    = s.conn.writeBuf ++ s.queuedOutput ++ s.writes l
  buffered : s.conn.disconnected = true → s.handsOver l ++ s'.conn.writeBuf = s.conn.writeBuf
  disconnected : s.conn.disconnected = true → s'.conn.disconnected = true
  close : s.runsClose l = true →
    s'.conn.disconnected = true ∧ s'.conn.writeBuf = s.conn.writeBuf ∧ s.handsOver l = [] ∧
      s.writes l = []
  torn : s'.conn.disconnected = true → s'.conn.writeBuf = [] → s'.Closing ∨
    s.conn.disconnected = true ∧ (s.conn.writeBuf = [] ∨ ∃ q ∈ s.sends l, q.2.handed = q.1)
  closing : s.Closing → s'.Closing

/-- A step that has nothing to do with output. -/
theorem Carries.of_same (hconn : s'.conn.writeBuf = s.conn.writeBuf)
    (hfd : s'.conn.sendfileFd = s.conn.sendfileFd)
    (hdisconnected : s'.conn.disconnected = s.conn.disconnected)
    (hqueue : s'.queuedOutput = s.queuedOutput) (hsends : s.handsOver l = [])
    (hwrites : s.writes l = []) (hclose : s.runsClose l = false) (hclosing : s.Closing → s'.Closing) :
    s.Carries l s' := by
  refine ⟨hfd, fun _ => ?_, fun _ => ?_, fun h => hdisconnected.trans h, fun h => ?_, fun h hbuf => ?_,
    hclosing⟩
  · rw [hsends, hwrites, hconn, hqueue, List.nil_append, List.append_nil]
  · rw [hsends, hconn, List.nil_append]
  · rw [hclose] at h
    cases h
  · exact .inr ⟨hdisconnected ▸ h, .inl (hconn ▸ hbuf)⟩

/-- A step that disconnects: `close()`, or the start or the end of the teardown. -/
theorem Carries.of_disconnects (hconn : s'.conn.writeBuf = s.conn.writeBuf)
    (hfd : s'.conn.sendfileFd = s.conn.sendfileFd) (hdisconnected : s'.conn.disconnected = true)
    (hqueue : s'.queuedOutput = s.queuedOutput) (hsends : s.handsOver l = [])
    (hwrites : s.writes l = []) (hclosing : s.Closing → s'.Closing)
    (htorn : s.conn.writeBuf = [] → s'.Closing) : s.Carries l s' := by
  refine ⟨hfd, fun _ => ?_, fun _ => ?_, fun _ => hdisconnected,
    fun _ => ⟨hdisconnected, hconn, hsends, hwrites⟩, fun _ hbuf => .inl (htorn (hconn ▸ hbuf)),
    hclosing⟩
  · rw [hsends, hwrites, hconn, hqueue, List.nil_append, List.append_nil]
  · rw [hsends, hconn, List.nil_append]

/-- The functors that requests put into the queue of the io loop. -/
theorem waiting_foldl {es : List Effect} (halive : (es.foldl request s).fault = none) :
    (es.foldl request s).io.waiting = s.io.waiting ++ es.filterMap Effect.functor := by
  induction es generalizing s with
  | nil => simp
  | cons e es ih =>
      rw [List.foldl_cons] at halive ⊢
      have hone : (s.request e).fault = none := by
        by_contra hfault
        rw [foldl_request_of_fault es hfault] at halive
        exact hfault halive
      have hqueue : (s.request e).io.waiting = s.io.waiting ++ e.functor.toList := by
        obtain ⟨-, hcarry⟩ := request_alive e hone
        rw [hcarry]
        cases e with
        | updateHandler =>
            simp only [carryOut]
            split <;> simp [fail, Effect.functor]
        | removeHandler =>
            simp only [carryOut]
            split <;> simp [fail, Effect.functor]
        | _ => simp [carryOut, Effect.functor]
      rw [ih halive, hqueue, List.append_assoc]
      cases e <;> simp [List.filterMap_cons, Effect.functor]

theorem flatMap_output (es : List Effect) :
    (es.filterMap Effect.functor).flatMap IoFunctor.output = es.flatMap Effect.output := by
  induction es with
  | nil => rfl
  | cons e es ih =>
      cases e <;> simp [List.filterMap_cons, Effect.functor, Effect.output, IoFunctor.output, ih]

theorem closing_foldl {es : List Effect} (halive : (es.foldl request s).fault = none)
    (h : s.Closing ∨ .closeCallBack ∈ es) : (es.foldl request s).Closing := by
  induction es generalizing s with
  | nil => simpa using h
  | cons e es ih =>
      rw [List.foldl_cons] at halive ⊢
      have hone : (s.request e).fault = none := by
        by_contra hfault
        rw [foldl_request_of_fault es hfault] at halive
        exact hfault halive
      obtain ⟨-, hcarry⟩ := request_alive e hone
      refine ih halive ?_
      rw [List.mem_cons, ← or_assoc] at h
      refine h.imp_left fun hfirst => ?_
      rw [hcarry]
      rcases hfirst with hclosing | rfl
      · unfold Closing at hclosing ⊢
        cases e with
        | updateHandler =>
            simp only [carryOut]
            split <;> exact hclosing
        | removeHandler =>
            simp only [carryOut]
            split <;> exact hclosing
        | closeCallBack => simp [carryOut]
        | decConnection => simp [carryOut]
        | addWriteComplete buf =>
            simp only [carryOut, BatchQueue.waiting_push, List.mem_append]
            tauto
        | addWriteInLoop data =>
            simp only [carryOut, BatchQueue.waiting_push, List.mem_append]
            tauto
        | _ => exact hclosing
      · simp [Closing, carryOut]

theorem waiting_perform {r : Result} (halive : (s.perform r).fault = none) :
    (s.perform r).io.waiting = s.io.waiting ++ r.effects.filterMap Effect.functor :=
  waiting_foldl (s := { s with conn := r.conn }) halive

theorem queuedOutput_perform {r : Result} (halive : (s.perform r).fault = none) :
    (s.perform r).queuedOutput = s.queuedOutput ++ r.effects.flatMap Effect.output := by
  rw [queuedOutput, waiting_perform halive, List.flatMap_append, flatMap_output]
  rfl

theorem closing_perform {r : Result} (halive : (s.perform r).fault = none)
    (h : s.Closing ∨ .closeCallBack ∈ r.effects) : (s.perform r).Closing :=
  closing_foldl (s := { s with conn := r.conn }) halive h

theorem queuedOutput_write {c : TcpConnection} {data : Bytes}
    (halive : (s.perform (c.write data)).fault = none) :
    (s.perform (c.write data)).queuedOutput = s.queuedOutput ++ data := by
  rw [queuedOutput_perform halive]
  simp [TcpConnection.write, Effect.output]

/-- `close()` on a connection that differs in nothing but `read_buf_`. -/
theorem carries_close {t : Session κ} {c : TcpConnection} (hfd : s.conn.sendfileFd < 0)
    (hbuf : c.writeBuf = s.conn.writeBuf) (hsame : c.sendfileFd = s.conn.sendfileFd)
    (hqueue : t.queuedOutput = s.queuedOutput) (hclosing : s.Closing → t.Closing)
    (hsends : s.handsOver l = []) (hwrites : s.writes l = [])
    (halive : (t.perform c.close).fault = none) : s.Carries l (t.perform c.close) := by
  have heffects : c.close.effects.flatMap Effect.output = [] := by
    unfold TcpConnection.close
    dsimp only
    split <;> simp [TcpConnection.handleClose, Effect.output]
  have hconn : c.close.conn.writeBuf = c.writeBuf ∧ c.close.conn.sendfileFd = c.sendfileFd ∧
      c.close.conn.disconnected = true := by
    unfold TcpConnection.close
    dsimp only
    split <;> simp [TcpConnection.handleClose]
  refine .of_disconnects ?_ ?_ ?_ ?_ hsends hwrites
    (fun h => closing_perform halive (.inl (hclosing h))) fun hempty => ?_
  · rw [conn_perform, hconn.1, hbuf]
  · rw [conn_perform, hconn.2.1, hsame]
  · rw [conn_perform, hconn.2.2]
  · rw [queuedOutput_perform halive, heffects, List.append_nil, hqueue]
  · refine closing_perform halive (.inr ?_)
    have hnone : ¬ (0 ≤ c.sendfileFd) := by
      rw [hsame]
      exact not_le.mpr hfd
    simp [TcpConnection.close, TcpConnection.hasContentToSend, hbuf, hempty, hnone,
      TcpConnection.handleClose]

theorem queuedOutput_start {f : IoFunctor} (hfront : s.io.front = some f) :
    s.queuedOutput = f.output ++ queuedOutput { s with io := s.io.start } := by
  rw [queuedOutput, BatchQueue.waiting_start hfront]
  rfl

theorem closing_start {f : IoFunctor} (hfront : s.io.front = some f) (hf : f ≠ .closeConnection)
    (h : s.Closing) : Closing { s with io := s.io.start } := by
  unfold Closing at h ⊢
  rw [BatchQueue.waiting_start hfront, List.mem_cons, or_iff_right (Ne.symm hf)] at h
  exact h

/-- A successful write is one that takes a prefix. -/
theorem taken_of_noWriteError {past : Past κ ε} {p : Bytes} {w : WriteOutcome}
    (hok : NoWriteError (s, past) l) (hclean : ClosesCleanly (s, past) l)
    (hsends : s.sends l = some (p, w)) :
    ∃ r, w = .taken p r ∧ r ≤ p.length ∧ r < intLimit ∧ w.handed = p.take r := by
  obtain ⟨hpart, hret⟩ := hok (p, w) hsends
  have hcount := hclean.count (p, w) hsends
  have htake : w.handed = p.take w.handed.length := List.prefix_iff_eq_take.mp hpart
  refine ⟨w.handed.length, ?_, hpart.length_le, ?_, htake⟩
  · rw [WriteOutcome.taken, ← htake, ← hret]
  · rw [hret] at hcount
    exact_mod_cast hcount

/-- A member function that neither connects nor disconnects and queues no output. -/
theorem carries_perform {t : Session κ} {r : Result} (halive : (t.perform r).fault = none)
    (hfd : r.conn.sendfileFd = s.conn.sendfileFd)
    (hdisconnected : r.conn.disconnected = s.conn.disconnected)
    (houtput : r.effects.flatMap Effect.output = []) (hclosing : s.Closing → t.Closing)
    (hclose : s.runsClose l = false)
    (hstream : s.drops l = false → s.handsOver l ++ r.conn.writeBuf ++ t.queuedOutput
      = s.conn.writeBuf ++ s.queuedOutput ++ s.writes l)
    (hbuffered : s.conn.disconnected = true → s.handsOver l ++ r.conn.writeBuf = s.conn.writeBuf)
    (hlast : s.conn.disconnected = true → r.conn.writeBuf = [] →
      s.conn.writeBuf = [] ∨ ∃ q ∈ s.sends l, q.2.handed = q.1) :
    s.Carries l (t.perform r) := by
  have hqueue : (t.perform r).queuedOutput = t.queuedOutput := by
    rw [queuedOutput_perform halive, houtput, List.append_nil]
  have hconn : (t.perform r).conn = r.conn := conn_perform r
  refine ⟨hconn ▸ hfd, fun h => ?_, fun h => ?_, fun h => ?_, fun h => ?_, fun h hbuf => .inr ?_,
    fun h => closing_perform halive (.inl (hclosing h))⟩
  · rw [hconn, hqueue]
    exact hstream h
  · rw [hconn]
    exact hbuffered h
  · rw [hconn, hdisconnected]
    exact h
  · rw [hclose] at h
    cases h
  · rw [hconn, hdisconnected] at h
    rw [hconn] at hbuf
    exact ⟨h, hlast h hbuf⟩

/-- `handleWrite` takes from the front of `write_buf_`. -/
theorem carries_writable {w : WriteOutcome} {r : Result} {past : Past κ ε}
    (hok : NoWriteError (s, past) (.writable w : Label ε))
    (hclean : ClosesCleanly (s, past) (.writable w : Label ε))
    (hw : s.conn.handleWrite w = .ok r) (halive : (s.perform r).fault = none) :
    s.Carries (.writable w : Label ε) (s.perform r) := by
  cases hempty : s.conn.writeBuf.isEmpty with
  | true =>
      obtain rfl : ⟨s.conn, []⟩ = r := by simpa [TcpConnection.handleWrite, hempty] using hw
      exact .of_same rfl rfl rfl rfl (by simp [handsOver, sends, hempty]) rfl rfl id
  | false =>
      have hsends : s.sends (.writable w : Label ε) = some (s.conn.writeBuf, w) := by
        simp [sends, hempty]
      obtain ⟨n, hw', hn, hint, hhanded⟩ := taken_of_noWriteError hok hclean hsends
      have hbuf : s.conn.writeBuf ≠ [] := by simpa using hempty
      obtain ⟨eventHandler, hok'⟩ := Outbound.handleWrite_taken hbuf hint hn
      rw [hw', hok'] at hw
      obtain rfl := Except.ok.inj hw
      have hhands : s.handsOver (.writable w : Label ε) = s.conn.writeBuf.take n := by
        simp [handsOver, hsends, hhanded]
      have htake := List.take_append_drop n s.conn.writeBuf
      refine carries_perform halive rfl rfl ?_ id rfl (fun _ => ?_) (fun _ => ?_)
        fun _ hrest => .inr ⟨_, hsends, ?_⟩
      · dsimp only
        split <;> simp [Effect.output]
      · rw [hhands, htake]
        exact (List.append_nil _).symm
      · rw [hhands, htake]
      · dsimp only at hrest
        rw [hrest, List.append_nil] at htake
        exact hhanded.trans htake

/-- `writeInLoop` sends, buffers or drops. -/
theorem carries_writeInLoop {data : Bytes} {w : WriteOutcome} {env : ε} {r : Result}
    {past : Past κ ε} (hok : NoWriteError (s, past) (.runIo w env))
    (hclean : ClosesCleanly (s, past) (.runIo w env))
    (hfront : s.io.front = some (.writeInLoop data)) (hw : s.conn.writeInLoop data w = .ok r)
    (halive : (perform r { s with io := s.io.start }).fault = none) :
    s.Carries (.runIo w env) (perform r { s with io := s.io.start }) := by
  have hstart : s.queuedOutput = data ++ queuedOutput { s with io := s.io.start } :=
    queuedOutput_start hfront
  have hclosing : s.Closing → Closing { s with io := s.io.start } :=
    closing_start hfront (by simp)
  have hwrites : s.writes (.runIo w env) = [] := rfl
  cases hconn : s.conn.disconnected with
  | true =>
      obtain rfl : ⟨s.conn, []⟩ = r := by simpa [TcpConnection.writeInLoop, hconn] using hw
      have hhands : s.handsOver (.runIo w env) = [] := by
        simp [handsOver, sends, hfront, hconn]
      refine carries_perform halive rfl rfl rfl hclosing rfl (fun hdrops => ?_) (fun _ => ?_)
        fun _ hbuf => .inl hbuf
      · have hdata : data = [] := by simpa [drops, hfront, hconn] using hdrops
        rw [hhands, hstart, hdata, hwrites, List.append_nil]
        rfl
      · rw [hhands]
        rfl
  | false =>
      have hnot : ¬ s.conn.disconnected = true := by simp [hconn]
      cases hdirect : s.conn.canWriteDirect with
      | true =>
          have hsends : s.sends (.runIo w env) = some (data, w) := by
            simp [sends, hfront, hconn, hdirect]
          obtain ⟨n, hw', hn, hint, hhanded⟩ := taken_of_noWriteError hok hclean hsends
          obtain ⟨eventHandler, updates, hupdates, hok'⟩ :=
            Outbound.writeInLoop_direct hconn hdirect hint hn
          rw [hw', hok'] at hw
          obtain rfl := Except.ok.inj hw
          have hhands : s.handsOver (.runIo w env) = data.take n := by
            simp [handsOver, hsends, hhanded]
          have hbuf : s.conn.writeBuf = [] := by
            simp only [TcpConnection.canWriteDirect, Bool.and_eq_true, List.isEmpty_iff] at hdirect
            exact hdirect.2
          refine carries_perform halive rfl rfl ?_ hclosing rfl (fun _ => ?_)
            (fun h => absurd h hnot) fun h => absurd h hnot
          · rcases hupdates with rfl | rfl <;> dsimp only <;> split <;> simp [Effect.output]
          · rw [hhands, hwrites, hstart, hbuf, List.nil_append, List.take_append_drop,
              List.nil_append, List.append_nil]
      | false =>
          obtain ⟨eventHandler, updates, hupdates, hok'⟩ :=
            @Outbound.writeInLoop_buffered data w s.conn hconn hdirect
          rw [hok'] at hw
          obtain rfl := Except.ok.inj hw
          have hhands : s.handsOver (.runIo w env) = [] := by
            simp [handsOver, sends, hfront, hdirect]
          refine carries_perform halive rfl rfl ?_ hclosing rfl (fun _ => ?_)
            (fun h => absurd h hnot) fun h => absurd h hnot
          · rcases hupdates with rfl | rfl <;> simp [Effect.output]
          · rw [hhands, hwrites, hstart, List.nil_append, List.append_nil, List.append_assoc]

/-- What a functor does that writes nothing. -/
theorem handsOver_runIo {f : IoFunctor} {w : WriteOutcome} {env : ε}
    (hfront : s.io.front = some f) (hf : f.holds = true) : s.handsOver (.runIo w env) = [] := by
  cases f with
  | writeInLoop data => cases hf
  | _ => simp [handsOver, sends, hfront]

/-- A call that a callback makes. -/
theorem carries_call {c : Call} {calls : List Call} {fromRead : Bool}
    (hfd : s.conn.sendfileFd < 0) (hframe : s.frame = some ⟨c :: calls, fromRead⟩)
    (halive : (perform (c.run s.conn) { s with frame := some ⟨calls, fromRead⟩ }).fault = none) :
    s.Carries (.call : Label ε) (perform (c.run s.conn) { s with frame := some ⟨calls, fromRead⟩ }) := by
  have hmade : s.callMade (.call : Label ε) = some c := callMade_call hframe
  cases c with
  | write data =>
      have hqueue : queuedOutput (perform (s.conn.write data)
          { s with frame := some ⟨calls, fromRead⟩ }) = s.queuedOutput ++ data :=
        queuedOutput_write halive
      have hconn : (perform (s.conn.write data)
          { s with frame := some ⟨calls, fromRead⟩ }).conn = s.conn := conn_perform _
      have hwrites : s.writes (.call : Label ε) = data := by simp [writes, hmade]
      refine ⟨congrArg _ hconn, fun _ => ?_, fun _ => ?_, fun h => ?_, fun h => ?_, fun h hbuf => ?_,
        fun h => closing_perform halive (.inl h)⟩
      · change [] ++ _ ++ queuedOutput (perform (s.conn.write data) _) = _
        rw [hqueue, hwrites, List.nil_append, List.append_assoc]
        exact congrArg (·.writeBuf ++ (s.queuedOutput ++ data)) hconn
      · exact congrArg TcpConnection.writeBuf hconn
      · exact (congrArg TcpConnection.disconnected hconn).trans h
      · simp [runsClose, hmade, readEnds] at h
      · exact .inr ⟨(congrArg TcpConnection.disconnected hconn).symm.trans h,
          .inl ((congrArg TcpConnection.writeBuf hconn).symm.trans hbuf)⟩
  | shutdown =>
      refine .of_same ?_ ?_ ?_ ?_ rfl ?_ ?_ fun h => closing_perform halive (.inl h)
      · exact congrArg TcpConnection.writeBuf (conn_perform _)
      · exact congrArg TcpConnection.sendfileFd (conn_perform _)
      · exact congrArg TcpConnection.disconnected (conn_perform _)
      · rw [queuedOutput_perform halive]
        simp [Call.run, TcpConnection.shutdown, Effect.output, queuedOutput]
      · simp [writes, hmade]
      · simp [runsClose, hmade, readEnds]
  | close =>
      have hwrites : s.writes (.call : Label ε) = [] := by simp [writes, hmade]
      exact carries_close hfd rfl rfl rfl id rfl hwrites halive

theorem carries_move {past : Past κ ε} (hfd : s.conn.sendfileFd < 0)
    (hok : NoWriteError (s, past) l) (hclean : ClosesCleanly (s, past) l)
    (hmove : Move user s l s') (halive : s'.fault = none) : s.Carries l s' := by
  cases hmove with
  | @message rs env buf c context calls hpolling hreading hlives hrs huser =>
      obtain ⟨-, hdisconnected, -, hsendfile, hbuf⟩ := TcpConnection.handleRead_frame hrs
      exact .of_same hbuf hsendfile (hdisconnected (by simp)) rfl rfl rfl
        (by simp [runsClose, callMade, readEnds, hrs]) id
  | @readClose rs env c hpolling hreading hlives hrs =>
      obtain ⟨-, -, -, hsendfile, hbuf⟩ := TcpConnection.handleRead_frame hrs
      exact carries_close hfd hbuf hsendfile rfl id rfl rfl halive
  | @readError rs env c hpolling hreading hlives hrs =>
      obtain ⟨-, -, hdisconnected, hsendfile, hbuf⟩ := TcpConnection.handleRead_frame hrs
      have hclosing : (s.perform c.handleClose).Closing :=
        closing_perform halive (.inr (by simp [TcpConnection.handleClose]))
      refine .of_disconnects ?_ ?_ ?_ ?_ rfl rfl (fun _ => hclosing) fun _ => hclosing
      · rw [conn_perform]
        exact hbuf
      · rw [conn_perform]
        exact hsendfile
      · rw [conn_perform]
        exact hdisconnected rfl
      · rw [queuedOutput_perform halive]
        simp [TcpConnection.handleClose, Effect.output]
  | writable hpolling hwriting hlives hw => exact carries_writable hok hclean hw halive
  | @call c calls fromRead hframe => exact carries_call hfd hframe halive
  | @leave fromRead hframe =>
      refine .of_same ?_ ?_ ?_ rfl rfl rfl rfl id <;> cases fromRead <;> rfl
  | popIo hpolling =>
      have hwaiting := BatchQueue.waiting_popAll (idle_of_polling hpolling)
      refine .of_same rfl rfl rfl ?_ rfl rfl rfl fun h => ?_
      · simp [queuedOutput, hwaiting]
      · simpa [Closing, hwaiting] using h
  | @handleConnection w env context calls hfront huser =>
      have hfault : s.fault = none :=
        fault_of_perform (s := { s with io := s.io.start }) (r := s.conn.handleConnection) halive
      rw [perform_handleConnection (s := { s with io := s.io.start }) hfault]
      refine .of_same rfl rfl rfl ?_ (handsOver_runIo hfront rfl) rfl rfl
        (closing_start hfront (by simp))
      rw [queuedOutput_start hfront]
      rfl
  | writeInLoop hfront hlives hw => exact carries_writeInLoop hok hclean hfront hw halive
  | writeComplete hfront huser =>
      refine .of_same rfl rfl rfl ?_ (handsOver_runIo hfront rfl) rfl rfl
        (closing_start hfront (by simp))
      rw [queuedOutput_start hfront]
      rfl
  | closeConnection hfront =>
      obtain ⟨-, hperform⟩ := perform_closeConnection halive
      rw [hperform]
      have hclosing : Closing { s with
          conn := { s.conn with disconnected := true }, io := s.io.start, registered := false
          closed := s.closed + 1 } := .inr (.inr (Nat.succ_pos _))
      refine .of_disconnects rfl rfl rfl ?_ (handsOver_runIo hfront rfl) rfl (fun _ => hclosing)
        fun _ => hclosing
      rw [queuedOutput_start hfront]
      rfl
  | doneIo hrunning hframe =>
      have hwaiting := BatchQueue.waiting_finish hrunning
      refine .of_same rfl rfl rfl ?_ rfl rfl rfl fun h => ?_
      · simp [queuedOutput, hwaiting]
      · simpa [Closing, hwaiting] using h
  | popBase hidle =>
      refine .of_same rfl rfl rfl rfl rfl rfl rfl fun h => ?_
      simpa [Closing, BatchQueue.waiting_popAll hidle] using h
  | runBase hfront =>
      refine .of_same rfl rfl rfl ?_ rfl rfl rfl fun _ => .inr (.inl (by simp))
      simp [queuedOutput, IoFunctor.output]
  | doneBase hrunning =>
      refine .of_same rfl rfl rfl rfl rfl rfl rfl fun h => ?_
      simpa [Closing, BatchQueue.waiting_finish hrunning] using h

/-! ## Whole runs -/

/-- What every history of a run satisfies while the process lives. -/
structure Tracked (h : Session κ × Past κ ε) : Prop where
  sendfileFd : h.1.conn.sendfileFd < 0
  opened : closeCalled h.2 = false → dropped h.2 = false →
    handedOver h.2 ++ h.1.conn.writeBuf ++ h.1.queuedOutput = written h.2
  closed : closeCalled h.2 = true →
    h.1.conn.disconnected = true ∧ handedOver h.2 ++ h.1.conn.writeBuf = written h.2
  torn : h.1.conn.disconnected = true → h.1.conn.writeBuf = [] → h.1.Closing

theorem tracked_start (context : κ) : Tracked (start context, ([] : Past κ ε)) := by
  refine ⟨Int.negSucc_lt_zero 0, fun _ _ => rfl, fun h => ?_, fun h => ?_⟩
  · cases h
  · cases h

/-- What `close()` is called on has all its output in the hands of the kernel or
    in `write_buf_`. -/
theorem handedOver_of_close {h : Session κ × Past κ ε} (htracked : Tracked h)
    (hclean : ClosesCleanly h l) (hclose : h.1.runsClose l = true) :
    handedOver h.2 ++ h.1.conn.writeBuf = written h.2 := by
  cases hcalled : closeCalled h.2 with
  | true => exact (htracked.closed hcalled).2
  | false =>
      obtain ⟨hqueue, hdropped⟩ := hclean.close hclose hcalled
      have hall := htracked.opened hcalled hdropped
      rwa [hqueue, List.append_nil] at hall

theorem tracked_of_carries {past : Past κ ε} (htracked : Tracked (s, past))
    (hclean : ClosesCleanly (s, past) l) (hcarries : s.Carries l s') :
    Tracked (s', (s, l) :: past) := by
  have hcalled : closeCalled ((s, l) :: past) = (s.runsClose l || closeCalled past) := rfl
  have hdropped : dropped ((s, l) :: past) = (s.drops l || dropped past) := rfl
  have hhanded : handedOver ((s, l) :: past) = handedOver past ++ s.handsOver l := rfl
  have hwritten : written ((s, l) :: past)
      = if closeCalled past then written past else written past ++ s.writes l := rfl
  refine ⟨hcarries.sendfileFd ▸ htracked.sendfileFd, fun hopen hkept => ?_, fun hclosed => ?_,
    fun hdisconnected hbuf => ?_⟩
  · rw [hcalled, Bool.or_eq_false_iff] at hopen
    rw [hdropped, Bool.or_eq_false_iff] at hkept
    have hall : handedOver past ++ s.conn.writeBuf ++ s.queuedOutput = written past :=
      htracked.opened hopen.2 hkept.2
    rw [hhanded, hwritten, hopen.2, if_neg Bool.false_ne_true, ← hall]
    simpa [List.append_assoc] using hcarries.stream hkept.1
  · rw [hhanded, hwritten]
    cases hbefore : closeCalled past with
    | true =>
        obtain ⟨hdisconnected, hall⟩ := htracked.closed hbefore
        refine ⟨hcarries.disconnected hdisconnected, ?_⟩
        rw [if_pos rfl, List.append_assoc, hcarries.buffered hdisconnected]
        exact hall
    | false =>
        rw [hcalled, hbefore, Bool.or_false] at hclosed
        obtain ⟨hdisconnected, hbuf, hhands, hwrites⟩ := hcarries.close hclosed
        refine ⟨hdisconnected, ?_⟩
        rw [if_neg Bool.false_ne_true, hhands, hwrites, hbuf, List.append_nil, List.append_nil]
        exact handedOver_of_close htracked hclean hclosed
  · rcases hcarries.torn hdisconnected hbuf with hclosing | ⟨hbefore, hempty | ⟨q, hq, hall⟩⟩
    · exact hclosing
    · exact hcarries.closing (htracked.torn hbefore hempty)
    · exact absurd hall (hclean.last q hq hbefore)

/-- The histories of the runs under the two conditions. -/
def Sound (h : Session κ × Past κ ε) : Prop := h.1.fault = none → Tracked h

theorem sound_step (h : Session κ × Past κ ε) (l : Label ε) (h' : Session κ × Past κ ε)
    (hsound : Sound h) (hok : NoWriteError h l ∧ ClosesCleanly h l)
    (hrecord : Runs.record (step user) h l = some h') : Sound h' := by
  obtain ⟨s, past⟩ := h
  obtain ⟨s', past'⟩ := h'
  obtain ⟨hstep, rfl⟩ := Runs.record_eq_some hrecord
  intro halive
  have htracked := hsound (step_fault hstep)
  exact tracked_of_carries htracked hok.2
    (carries_move htracked.sendfileFd hok.1 hok.2 (step_cases hstep halive) halive)

/-- `close()` calls `handleClose` only if `write_buf_` is empty. -/
theorem writeBuf_of_close {c : TcpConnection} (h : .closeCallBack ∈ c.close.effects) :
    c.writeBuf = [] := by
  unfold TcpConnection.close at h
  dsimp only at h
  split at h
  · cases h
  · rename_i hcontent
    simp only [TcpConnection.hasContentToSend, Bool.or_eq_true, not_or] at hcontent
    simpa using hcontent.1

/-- `handleClose` runs in `close()`, on the error path of `handleRead`, or after
    a failed write. -/
theorem runsHandleClose_cases {h : Session κ × Past κ ε} (hok : NoWriteError h l)
    (hclean : ClosesCleanly h l) (hcloses : h.1.runsHandleClose l = true) :
    h.1.runsClose l = true ∧ h.1.conn.writeBuf = [] ∨
      h.1.runsClose l = false ∧ h.1.readEnds .error l = true := by
  obtain ⟨s, past⟩ := h
  obtain ⟨r, hmade, hr⟩ := Option.any_eq_true _ _ |>.mp hcloses
  have hmem : .closeCallBack ∈ r.effects := by simpa using hr
  cases l with
  | readable rs env =>
      simp only [made] at hmade
      split at hmade
      · rename_i c hrs
        obtain rfl := Option.some.inj hmade
        obtain ⟨-, -, -, -, hbuf⟩ := TcpConnection.handleRead_frame hrs
        refine .inl ⟨?_, hbuf.symm.trans (writeBuf_of_close hmem)⟩
        simp [runsClose, callMade, readEnds, hrs]
      · rename_i c hrs
        exact .inr ⟨by simp [runsClose, callMade, readEnds, hrs], by simp [readEnds, hrs]⟩
      · cases hmade
  | writable w =>
      exfalso
      simp only [made, Except.toOption] at hmade
      split at hmade
      · rename_i r' hw
        obtain rfl := Option.some.inj hmade
        by_cases hbuf : s.conn.writeBuf = []
        · obtain rfl : ⟨s.conn, []⟩ = r' := by simpa [TcpConnection.handleWrite, hbuf] using hw
          cases hmem
        · have hsends : s.sends (.writable w : Label ε) = some (s.conn.writeBuf, w) := by
            simp [sends, hbuf]
          obtain ⟨n, hw', hn, hint, -⟩ := taken_of_noWriteError hok hclean hsends
          obtain ⟨eventHandler, hok'⟩ := Outbound.handleWrite_taken hbuf hint hn
          rw [hw', hok'] at hw
          obtain rfl := Except.ok.inj hw
          dsimp only at hmem
          split at hmem <;> simp at hmem
      · cases hmade
  | call =>
      simp only [made] at hmade
      split at hmade
      · rename_i c calls fromRead hframe
        obtain rfl := Option.some.inj hmade
        have hcall : s.callMade (.call : Label ε) = some c := callMade_call hframe
        cases c with
        | close => exact .inl ⟨by simp [runsClose, hcall], writeBuf_of_close hmem⟩
        | write data => simp [Call.run, TcpConnection.write] at hmem
        | shutdown => simp [Call.run, TcpConnection.shutdown] at hmem
      · cases hmade
  | runIo w env =>
      exfalso
      simp only [made] at hmade
      split at hmade
      · obtain rfl := Option.some.inj hmade
        simp [TcpConnection.handleConnection] at hmem
      · simp only [Except.toOption] at hmade
        split at hmade
        · rename_i r' hw
          obtain rfl := Option.some.inj hmade
          exact TcpConnection.noClose_writeInLoop hw hmem
        · cases hmade
      · obtain rfl := Option.some.inj hmade
        simp [TcpConnection.closeConnection] at hmem
      · cases hmade
  | _ => cases hmade

theorem handsOverFirst_of_tracked {h : Session κ × Past κ ε} (htracked : Tracked h)
    (hok : NoWriteError h l) (hclean : ClosesCleanly h l) : HandsOverFirst h l := by
  intro hcloses hcalled
  have hall : handedOver h.2 ++ h.1.conn.writeBuf = written h.2 ∧ h.1.conn.writeBuf = [] := by
    rcases runsHandleClose_cases hok hclean hcloses with ⟨hclose, hbuf⟩ | ⟨hnot, herror⟩
    · exact ⟨handedOver_of_close htracked hclean hclose, hbuf⟩
    · rw [hnot, or_iff_left Bool.false_ne_true] at hcalled
      exact ⟨(htracked.closed hcalled).2, hclean.error herror hcalled⟩
  rw [hall.2, List.append_nil] at hall
  exact hall.1 ▸ List.prefix_rfl

/-- In every run without write errors in which connections are closed cleanly,
    what was written before `close()` is in the hands of the kernel when
    `handleClose` runs, and no connection is left stranded. -/
theorem graceful_close (user : UserCode κ ε) (context : κ) {ls : List (Label ε)}
    {h : Session κ × Past κ ε}
    (hok : Runs.Along (Runs.record (step user)) NoWriteError (start context, []) ls)
    (hclean : Runs.Along (Runs.record (step user)) ClosesCleanly (start context, []) ls)
    (hrun : Runs.exec (Runs.record (step user)) (start context, []) ls = some h) :
    Runs.Along (Runs.record (step user)) HandsOverFirst (start context, []) ls ∧ ¬ Stranded h := by
  have hboth := hok.and hclean
  have hstart : Sound (start context, ([] : Past κ ε)) := fun _ => tracked_start context
  refine ⟨Runs.along_of_exec sound_step ?_ hstart hboth hrun, fun hstranded => ?_⟩
  · intro h l h' hsound hok hrecord
    obtain ⟨hstep, -⟩ := Runs.record_eq_some hrecord
    exact handsOverFirst_of_tracked (hsound (step_fault hstep)) hok.1 hok.2
  · have htracked : Tracked h :=
      Runs.exec_invariant sound_step hstart hboth hrun hstranded.fault
    exact hstranded.notClosing (htracked.torn hstranded.disconnected hstranded.writeBuf)

/-! ## Runs -/

instance (h : Session κ × Past κ ε) (l : Label ε) : Decidable (HandsOverFirst h l) :=
  inferInstanceAs (Decidable (_ → _ → _))

instance (h : Session κ × Past κ ε) (l : Label ε) : Decidable (NoWriteError h l) :=
  inferInstanceAs (Decidable (∀ q ∈ h.1.sends l, _))

instance (h : Session κ × Past κ ε) (l : Label ε) : Decidable (ClosesCleanly h l) :=
  decidable_of_iff
    ((h.1.runsClose l = true → closeCalled h.2 = false →
        h.1.queuedOutput = [] ∧ dropped h.2 = false) ∧
      (h.1.readEnds .error l = true → closeCalled h.2 = true → h.1.conn.writeBuf = []) ∧
      (∀ q ∈ h.1.sends l, h.1.conn.disconnected = true → q.2.handed ≠ q.1) ∧
      ∀ q ∈ h.1.sends l, q.2.ret < intLimit)
    ⟨fun ⟨hclose, herror, hlast, hcount⟩ => ⟨hclose, herror, hlast, hcount⟩,
      fun h => ⟨h.close, h.error, h.last, h.count⟩⟩

/-- A user that answers a message with its own bytes, and closes if it is told to. -/
def echo : UserCode Unit (List Call) where
  connectionCome _ _ := .ok ((), [])
  message calls buf _ := .ok ((), .write buf :: calls)
  writeComplete _ _ _ := .ok ((), [])

/-- A connection comes. -/
def comes : List (Label (List Call)) := [.popIo, .runIo ⟨0, []⟩ [], .leave, .doneIo]

/-- Three bytes come, and the callback has `calls` left after its answer. -/
def asks (calls : List Call) : Label (List Call) :=
  .readable [.data ⟨[97, 98, 99], by decide, by decide⟩, .error .eagain] calls

/-- The answer is written, and then the peer closes. -/
def closedAfterwards : List (Label (List Call)) :=
  comes ++ [asks [], .call, .leave, .popIo, .runIo ⟨3, [97, 98, 99]⟩ [], .doneIo, .popIo,
    .runIo ⟨0, []⟩ [], .leave, .doneIo, .readable [.eof] []]

/-- The callback writes its answer and closes. -/
def closedAtOnce : List (Label (List Call)) := comes ++ [asks [.close], .call, .call]

/-- The kernel takes a part of the answer, the peer closes, and then the kernel
    takes the rest. -/
def closedWhileWriting : List (Label (List Call)) :=
  comes ++ [asks [], .call, .leave, .popIo, .runIo ⟨1, [97]⟩ [], .doneIo, .readable [.eof] [],
    .writable ⟨2, [98, 99]⟩, .popIo, .runIo ⟨0, []⟩ [], .leave, .doneIo]

theorem graceful_close_afterwards :
    ∃ h, Runs.exec (Runs.record (step echo)) (start (), []) closedAfterwards = some h ∧
      h.1.Closing ∧ written h.2 = [97, 98, 99] ∧
      Runs.Along (Runs.record (step echo)) HandsOverFirst (start (), []) closedAfterwards ∧
      ¬ Stranded h := by
  have hrun : ((Runs.exec (Runs.record (step echo)) (start (), []) closedAfterwards).any
      fun h => decide (h.1.base.waiting ≠ [] ∧ written h.2 = [97, 98, 99])) = true := by
    decide +kernel
  obtain ⟨h, hh, hend⟩ := Option.any_eq_true _ _ |>.mp hrun
  obtain ⟨hbase, hwritten⟩ := of_decide_eq_true hend
  exact ⟨h, hh, .inl hbase, hwritten,
    graceful_close echo () (by decide +kernel) (by decide +kernel) hh⟩

/-- Both ways to close while there is output go wrong. -/
theorem not_graceful_close :
    (¬ ∀ (user : UserCode Unit (List Call)) (ls : List (Label (List Call)))
        (h : Session Unit × Past Unit (List Call)),
      Runs.Along (Runs.record (step user)) NoWriteError (start (), []) ls →
        Runs.exec (Runs.record (step user)) (start (), []) ls = some h →
          Runs.Along (Runs.record (step user)) HandsOverFirst (start (), []) ls) ∧
      ¬ ∀ (user : UserCode Unit (List Call)) (ls : List (Label (List Call)))
          (h : Session Unit × Past Unit (List Call)),
        Runs.Along (Runs.record (step user)) NoWriteError (start (), []) ls →
          Runs.exec (Runs.record (step user)) (start (), []) ls = some h → ¬ Stranded h := by
  constructor
  · intro hclaim
    have hrun : (Runs.exec (Runs.record (step echo)) (start (), []) closedAtOnce).isSome = true := by
      decide +kernel
    obtain ⟨h, hh⟩ := Option.isSome_iff_exists.mp hrun
    exact absurd (hclaim echo closedAtOnce h (by decide +kernel) hh) (by decide +kernel)
  · intro hclaim
    have hrun : ((Runs.exec (Runs.record (step echo)) (start (), []) closedWhileWriting).any
        fun h => decide (h.1.fault = none ∧ h.1.polling = true ∧ eventHandled h.2 = false ∧
          h.1.conn.disconnected = true ∧ h.1.conn.writeBuf = [] ∧ h.1.io.waiting = [] ∧
          h.1.base.waiting = [] ∧ h.1.closed = 0)) = true := by
      decide +kernel
    obtain ⟨h, hh, hend⟩ := Option.any_eq_true _ _ |>.mp hrun
    obtain ⟨hfault, hpolling, hiteration, hdisconnected, hbuf, hio, hbase, hclosed⟩ :=
      of_decide_eq_true hend
    refine hclaim echo closedWhileWriting h (by decide +kernel) hh
      ⟨hfault, hpolling, hiteration, hdisconnected, hbuf, ?_, ?_⟩
    · simp [hio]
    · simp [Closing, hio, hbase, hclosed]

end Session

end QGServer
