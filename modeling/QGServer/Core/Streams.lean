-- SUMMARY: What the kernel gets of a connection's output in any run: a prefix of what was written, also when writes fail.
import QGServer.Core.FailedWrite
import QGServer.Core.GracefulClose
import QGServer.Util.WriteContract

/-!
# Streams

Output goes from `write` to a queued functor, from there to `write_buf_` or to
the kernel, and from `write_buf_` to the kernel. Whoever moves, and whatever the
kernel takes of what it is offered, it has got a prefix of what was written; while
the connection is not disconnected the rest is still there, in order.

Unlike for a graceful close, nothing is asked of the callbacks here, and writes
may fail.
-/

namespace QGServer

/-! ## The kernel -/

/-- A prefix of `p` is taken. The value is its length, unless the call fails. -/
def WriteOutcome.Takes (p : Bytes) (w : WriteOutcome) : Prop :=
  w.handed <+: p ∧ (w.ret = -1 ∨ w.ret = w.handed.length ∧ w.ret < intLimit)

instance (p : Bytes) (w : WriteOutcome) : Decidable (w.Takes p) :=
  inferInstanceAs (Decidable (_ ∧ _))

/-- A call of `qg::write` in which at most one `::write` accepts bytes takes a prefix. -/
theorem takes_of_qgWriteOutcome {p : Bytes} {rs : List (KernelWrite p.length)} {w : WriteOutcome}
    (hlen : p.length < intLimit) (honce : (KernelWrite.front rs).countP (0 < ·) ≤ 1)
    (h : qgWriteOutcome p rs = some w) : w.Takes p := by
  obtain ⟨⟨v, sent, rest⟩, hwrite, rfl⟩ := Option.map_eq_some_iff.mp h
  obtain ⟨ns, hbegins, hsent, -, hwritten⟩ := qgWrite_written hwrite
  have hcount : ns.countP (0 < ·) ≤ 1 := hbegins.sublist.countP_le.trans honce
  have hsum : ns.sum ≤ p.length :=
    sum_le_of_le_one hcount fun n hn => front_le (hbegins.subset hn)
  have hhanded : bytesAt p sent = p.take ns.sum := by
    rw [hsent, List.nil_append, flatMap_range_of_le_one hcount, bytesAt_range]
  have hlength : (bytesAt p sent).length = ns.sum := by
    rw [hhanded, List.length_take, Nat.min_eq_left hsum]
  have hvalue : v = -1 ∨ v = ns.sum := by
    cases hwritten with
    | complete _ hsize => exact .inr (by rw [← hsize, Nat.zero_add])
    | again _ _ _ => exact .inr (by rw [Nat.zero_add])
    | fatal _ _ _ => exact .inl rfl
  refine ⟨?_, hvalue.imp_right fun hv => ?_⟩
  · change bytesAt p sent <+: p
    rw [hhanded]
    exact List.take_prefix _ _
  · change v = (bytesAt p sent).length ∧ v < intLimit
    rw [hlength, hv]
    exact ⟨rfl, by exact_mod_cast hsum.trans_lt hlen⟩

namespace Session

variable {κ ε : Type*} {user : UserCode κ ε} {s s' : Session κ} {l : Label ε}

/-! ## The property -/

/-- Of what the step passes to `qg::write` the kernel takes a prefix. -/
def TakesPrefix (h : Session κ × Past κ ε) (l : Label ε) : Prop :=
  ∀ q ∈ h.1.sends l, q.2.Takes q.1

instance (h : Session κ × Past κ ε) (l : Label ε) : Decidable (TakesPrefix h l) :=
  inferInstanceAs (Decidable (∀ q ∈ h.1.sends l, _))

/-- The output that has been written and that the kernel has not got. -/
def unsent (s : Session κ) : Bytes := s.conn.writeBuf ++ s.queuedOutput

/-- The kernel has a prefix of what was written, and it has all but what is unsent
    as long as the connection is not disconnected. -/
structure InOrder (h : Session κ × Past κ ε) : Prop where
  prefix_ : handedOver h.2 <+: written h.2
  complete : h.1.conn.disconnected = false → handedOver h.2 ++ h.1.unsent = written h.2

/-! ## One step -/

/-- What a step does to the output. -/
structure Streams (s : Session κ) (l : Label ε) (s' : Session κ) : Prop where
  sendfileFd : s'.conn.sendfileFd = s.conn.sendfileFd
  /-- What the kernel gets comes next. -/
  next : s.handsOver l = [] ∨ s.conn.disconnected = false ∧ s.handsOver l <+: s.unsent ∨
    s.conn.eventHandler.isWriting = true ∧ s.handsOver l <+: s.conn.writeBuf
  /-- Where write events are asked for, `write_buf_` comes next. -/
  held : s'.conn.eventHandler.isWriting = true → s'.conn.disconnected = false ∨
    s.conn.eventHandler.isWriting = true ∧ s.handsOver l ++ s'.conn.writeBuf = s.conn.writeBuf
  open_ : s'.conn.disconnected = false → s.conn.disconnected = false ∧ s.runsClose l = false ∧
    s.handsOver l ++ s'.unsent = s.unsent ++ s.writes l

/-- A step that hands nothing over and leaves `write_buf_` alone. -/
theorem Streams.of_kept (hfd : s'.conn.sendfileFd = s.conn.sendfileFd)
    (hbuf : s'.conn.writeBuf = s.conn.writeBuf) (hhands : s.handsOver l = [])
    (hwriting : s'.conn.eventHandler.isWriting = true → s.conn.eventHandler.isWriting = true)
    (hopen : s'.conn.disconnected = false → s.conn.disconnected = false ∧ s.runsClose l = false ∧
      s'.queuedOutput = s.queuedOutput ++ s.writes l) : s.Streams l s' := by
  refine ⟨hfd, .inl hhands, fun hw => .inr ⟨hwriting hw, ?_⟩, fun hdisconnected => ?_⟩
  · rw [hhands, hbuf, List.nil_append]
  · obtain ⟨hbefore, hclose, hqueue⟩ := hopen hdisconnected
    refine ⟨hbefore, hclose, ?_⟩
    unfold unsent
    rw [hhands, hbuf, hqueue, List.nil_append, List.append_assoc]

/-- A step that disconnects. -/
theorem Streams.of_closed (hfd : s'.conn.sendfileFd = s.conn.sendfileFd)
    (hbuf : s'.conn.writeBuf = s.conn.writeBuf) (hhands : s.handsOver l = [])
    (hwriting : s'.conn.eventHandler.isWriting = true → s.conn.eventHandler.isWriting = true)
    (hdisconnected : s'.conn.disconnected = true) : s.Streams l s' := by
  refine .of_kept hfd hbuf hhands hwriting fun hopen => ?_
  rw [hdisconnected] at hopen
  cases hopen

theorem streams_close {t : Session κ} {c : TcpConnection} (hfd : c.sendfileFd = s.conn.sendfileFd)
    (hbuf : c.writeBuf = s.conn.writeBuf) (hhandler : c.eventHandler = s.conn.eventHandler)
    (hhands : s.handsOver l = []) : s.Streams l (t.perform c.close) := by
  have hclose : c.close.conn.sendfileFd = c.sendfileFd ∧ c.close.conn.writeBuf = c.writeBuf ∧
      c.close.conn.disconnected = true ∧
      (c.close.conn.eventHandler.isWriting = true → c.eventHandler.isWriting = true) := by
    unfold TcpConnection.close
    dsimp only
    split
    · exact ⟨rfl, rfl, rfl, id⟩
    · refine ⟨rfl, rfl, rfl, fun hw => ?_⟩
      rw [TcpConnection.handleClose, EventHandler.isWriting_disableAll] at hw
      cases hw
  apply Streams.of_closed
  · rw [conn_perform, hclose.1, hfd]
  · rw [conn_perform, hclose.2.1, hbuf]
  · exact hhands
  · rw [conn_perform, ← hhandler]
    exact hclose.2.2.2
  · rw [conn_perform]
    exact hclose.2.2.1

/-- `handleClose` takes the interest away. -/
theorem streams_handleClose {t : Session κ} {c : TcpConnection} (es : List Effect)
    (hdisconnected : c.disconnected = true) (hfd : c.sendfileFd = s.conn.sendfileFd)
    (hnext : s.handsOver l = [] ∨ s.conn.eventHandler.isWriting = true ∧
      s.handsOver l <+: s.conn.writeBuf) :
    s.Streams l (t.perform { c.handleClose with effects := es }) := by
  refine ⟨?_, hnext.imp_right .inr, fun hw => ?_, fun hopen => ?_⟩
  · rw [conn_perform]
    exact hfd
  · rw [conn_perform, TcpConnection.handleClose, EventHandler.isWriting_disableAll] at hw
    cases hw
  · rw [conn_perform, TcpConnection.handleClose, hdisconnected] at hopen
    cases hopen

/-- A write that does not fail takes a prefix. -/
theorem taken_of_takesPrefix {p : Bytes} {w : WriteOutcome} (hbegins : w.handed <+: p)
    (hret : w.ret = w.handed.length) (hlimit : w.ret < intLimit) :
    ∃ r, w = .taken p r ∧ r ≤ p.length ∧ r < intLimit ∧ w.handed = p.take r := by
  have htake : w.handed = p.take w.handed.length := List.prefix_iff_eq_take.mp hbegins
  refine ⟨w.handed.length, ?_, hbegins.length_le, ?_, htake⟩
  · rw [WriteOutcome.taken, ← htake, ← hret]
  · rw [hret] at hlimit
    exact_mod_cast hlimit

/-- A direct write that fails throws. -/
theorem writeInLoop_throws {c : TcpConnection} {data : Bytes} {w : WriteOutcome}
    (hconn : c.disconnected = false) (hdirect : c.canWriteDirect = true) (hret : w.ret = -1) :
    ∃ e, c.writeInLoop data w = .error e := by
  have hint : toInt w.ret = -1 := by
    rw [hret]
    rfl
  unfold TcpConnection.writeInLoop
  rw [hconn, hdirect, hint]
  simp only [Bool.false_eq_true, if_false, if_true, and_false]
  unfold TcpConnection.bufferRest
  rw [TcpConnection.substr_neg]
  exact ⟨_, rfl⟩

theorem streams_writable {w : WriteOutcome} {r : Result} {past : Past κ ε}
    (hok : TakesPrefix (s, past) (.writable w : Label ε))
    (hwriting : s.conn.eventHandler.isWriting = true) (hw : s.conn.handleWrite w = .ok r)
    (halive : (s.perform r).fault = none) : s.Streams (.writable w : Label ε) (s.perform r) := by
  cases hempty : s.conn.writeBuf.isEmpty with
  | true =>
      obtain rfl : ⟨s.conn, []⟩ = r := by simpa [TcpConnection.handleWrite, hempty] using hw
      refine .of_kept rfl rfl (by simp [handsOver, sends, hempty]) id fun hopen => ⟨hopen, rfl, ?_⟩
      exact (List.append_nil _).symm
  | false =>
      have hsends : s.sends (.writable w : Label ε) = some (s.conn.writeBuf, w) := by
        simp [sends, hempty]
      obtain ⟨hbegins, hret⟩ : w.Takes s.conn.writeBuf := hok _ hsends
      have hhands : s.handsOver (.writable w : Label ε) = w.handed := by simp [handsOver, hsends]
      rcases hret with hret | ⟨hret, hlimit⟩
      · -- the write fails, and the connection is closed
        have hnegative : ¬ 0 ≤ toInt w.ret := by
          rw [hret]
          decide
        obtain rfl : _ = r := by
          simpa only [TcpConnection.handleWrite, hempty, Bool.false_eq_true, if_false, hnegative,
            Except.ok.injEq] using hw
        exact streams_handleClose _ rfl rfl (.inr ⟨hwriting, by rw [hhands]; exact hbegins⟩)
      · obtain ⟨n, hw', hn, hint, hhanded⟩ := taken_of_takesPrefix hbegins hret hlimit
        have hbuf : s.conn.writeBuf ≠ [] := by simpa using hempty
        obtain ⟨eventHandler, hok'⟩ := Outbound.handleWrite_taken hbuf hint hn
        rw [hw', hok'] at hw
        obtain rfl := Except.ok.inj hw
        have hrest : w.handed ++ s.conn.writeBuf.drop n = s.conn.writeBuf := by
          rw [hhanded]
          exact List.take_append_drop n s.conn.writeBuf
        refine ⟨?_, .inr (.inr ⟨hwriting, by rw [hhands]; exact hbegins⟩), fun _ => .inr ⟨hwriting, ?_⟩,
          fun hopen => ⟨?_, rfl, ?_⟩⟩
        · rw [conn_perform]
        · rw [conn_perform, hhands]
          exact hrest
        · rw [conn_perform] at hopen
          exact hopen
        · unfold unsent
          rw [conn_perform, queuedOutput_perform halive, hhands]
          dsimp only
          rw [← List.append_assoc, ← List.append_assoc, hrest]
          have hnone : (Effect.write s.conn.writeBuf (s.conn.writeBuf.take n) ::
              (if s.conn.writeBuf.drop n = [] then [Effect.updateHandler, .addWriteComplete []]
                else [])).flatMap Effect.output = [] := by
            split <;> simp [Effect.output]
          rw [hnone]
          rfl

theorem streams_writeInLoop {data : Bytes} {w : WriteOutcome} {env : ε} {r : Result}
    {past : Past κ ε} (hok : TakesPrefix (s, past) (.runIo w env))
    (hfront : s.io.front = some (.writeInLoop data)) (hw : s.conn.writeInLoop data w = .ok r)
    (halive : (perform r { s with io := s.io.start }).fault = none) :
    s.Streams (.runIo w env) (perform r { s with io := s.io.start }) := by
  have hstart : s.queuedOutput = data ++ queuedOutput { s with io := s.io.start } :=
    queuedOutput_start hfront
  cases hconn : s.conn.disconnected with
  | true =>
      obtain rfl : ⟨s.conn, []⟩ = r := by simpa [TcpConnection.writeInLoop, hconn] using hw
      exact .of_closed rfl rfl (by simp [handsOver, sends, hfront, hconn]) id hconn
  | false =>
      -- what is common to the two paths: `rest` goes to the end of `write_buf_`
      have hpath : ∀ {rest : Bytes} {handler : EventHandler} {es : List Effect},
          s.conn.writeBuf ++ data = s.handsOver (.runIo w env : Label ε) ++ (s.conn.writeBuf ++ rest) →
          s.handsOver (.runIo w env : Label ε) <+: s.unsent → es.flatMap Effect.output = [] →
          (perform ⟨{ s.conn with writeBuf := s.conn.writeBuf ++ rest, eventHandler := handler }, es⟩
            { s with io := s.io.start }).fault = none →
          s.Streams (.runIo w env)
            (perform ⟨{ s.conn with writeBuf := s.conn.writeBuf ++ rest, eventHandler := handler }, es⟩
              { s with io := s.io.start }) := by
        intro rest handler es hsplit hbegins hes halive
        refine ⟨?_, .inr (.inl ⟨hconn, hbegins⟩), fun _ => .inl ?_, fun _ => ⟨hconn, rfl, ?_⟩⟩
        · rw [conn_perform]
        · rw [conn_perform]
          exact hconn
        · unfold unsent
          rw [conn_perform, queuedOutput_perform halive, hes, hstart]
          dsimp only
          rw [← List.append_assoc _ _ (queuedOutput _ ++ []), ← hsplit, List.append_nil,
            List.append_assoc]
          exact (List.append_nil _).symm
      cases hdirect : s.conn.canWriteDirect with
      | true =>
          have hsends : s.sends (.runIo w env) = some (data, w) := by
            simp [sends, hfront, hconn, hdirect]
          have hhands : s.handsOver (.runIo w env : Label ε) = w.handed := by simp [handsOver, hsends]
          obtain ⟨hbegins, hret⟩ : w.Takes data := hok _ hsends
          have hbuf : s.conn.writeBuf = [] := by
            simp only [TcpConnection.canWriteDirect, Bool.and_eq_true, List.isEmpty_iff] at hdirect
            exact hdirect.2
          rcases hret with hret | ⟨hret, hlimit⟩
          · -- `substr` throws, and the process does not live on
            obtain ⟨e, he⟩ := writeInLoop_throws (w := w) hconn hdirect hret
            rw [he] at hw
            cases hw
          · obtain ⟨n, hw', hn, hint, hhanded⟩ := taken_of_takesPrefix hbegins hret hlimit
            obtain ⟨handler, updates, hupdates, hok'⟩ :=
              Outbound.writeInLoop_direct hconn hdirect hint hn
            rw [hw', hok'] at hw
            obtain rfl := Except.ok.inj hw
            refine hpath ?_ ?_ ?_ halive
            · rw [hhands, hbuf, List.nil_append, List.nil_append, hhanded, List.take_append_drop]
            · rw [hhands]
              unfold unsent
              rw [hbuf, List.nil_append, hstart]
              exact hbegins.trans (List.prefix_append _ _)
            · rcases hupdates with rfl | rfl <;> split <;> simp [Effect.output]
      | false =>
          obtain ⟨handler, updates, hupdates, hok'⟩ :=
            @Outbound.writeInLoop_buffered data w s.conn hconn hdirect
          rw [hok'] at hw
          obtain rfl := Except.ok.inj hw
          have hhands : s.handsOver (.runIo w env) = [] := by
            simp [handsOver, sends, hfront, hdirect]
          refine hpath ?_ ?_ ?_ halive
          · rw [hhands, List.nil_append]
          · rw [hhands]
            exact List.nil_prefix
          · rcases hupdates with rfl | rfl <;> simp [Effect.output]

theorem streams_call {c : Call} {calls : List Call} {fromRead : Bool}
    (hframe : s.frame = some ⟨c :: calls, fromRead⟩)
    (halive : (perform (c.run s.conn) { s with frame := some ⟨calls, fromRead⟩ }).fault = none) :
    s.Streams (.call : Label ε) (perform (c.run s.conn) { s with frame := some ⟨calls, fromRead⟩ }) := by
  have hmade : s.callMade (.call : Label ε) = some c := callMade_call hframe
  cases c with
  | write data =>
      have hconn : (perform (s.conn.write data)
          { s with frame := some ⟨calls, fromRead⟩ }).conn = s.conn := conn_perform _
      have hwrites : s.writes (.call : Label ε) = data := by simp [writes, hmade]
      refine .of_kept (congrArg _ hconn) (congrArg _ hconn) rfl (fun hw => ?_) fun hopen => ⟨?_, ?_, ?_⟩
      · exact (congrArg (·.eventHandler.isWriting) hconn).symm.trans hw
      · exact (congrArg TcpConnection.disconnected hconn).symm.trans hopen
      · simp [runsClose, hmade, readEnds]
      · rw [hwrites]
        exact queuedOutput_write halive
  | shutdown =>
      have hconn : (perform s.conn.shutdown { s with frame := some ⟨calls, fromRead⟩ }).conn = s.conn :=
        conn_perform _
      refine .of_kept (congrArg _ hconn) (congrArg _ hconn) rfl (fun hw => ?_) fun hopen => ⟨?_, ?_, ?_⟩
      · exact (congrArg (·.eventHandler.isWriting) hconn).symm.trans hw
      · exact (congrArg TcpConnection.disconnected hconn).symm.trans hopen
      · simp [runsClose, hmade, readEnds]
      · rw [queuedOutput_perform halive]
        simp [Call.run, TcpConnection.shutdown, Effect.output, queuedOutput, writes, hmade]
  | close => exact streams_close rfl rfl rfl rfl

/-- A functor that carries no output is started. -/
theorem queuedOutput_quiet {f : IoFunctor} (hfront : s.io.front = some f) (hf : f.output = []) :
    queuedOutput { s with io := s.io.start } = s.queuedOutput := by
  rw [queuedOutput_start hfront, hf]
  rfl

theorem streams_move {past : Past κ ε} (hok : TakesPrefix (s, past) l) (hmove : Move user s l s')
    (halive : s'.fault = none) : s.Streams l s' := by
  -- a step after which the same output waits
  have hsame : ∀ {t : Session κ}, t.conn.sendfileFd = s.conn.sendfileFd →
      t.conn.writeBuf = s.conn.writeBuf → t.conn.disconnected = s.conn.disconnected →
      t.conn.eventHandler.isWriting = s.conn.eventHandler.isWriting →
      t.queuedOutput = s.queuedOutput → s.handsOver l = [] → s.writes l = [] →
      s.runsClose l = false → s.Streams l t := by
    intro t hfd hbuf hdisconnected hwriting hqueue hhands hwrites hclose
    refine .of_kept hfd hbuf hhands (fun hw => hwriting ▸ hw) fun hopen => ⟨?_, hclose, ?_⟩
    · rw [← hdisconnected]
      exact hopen
    · rw [hqueue, hwrites, List.append_nil]
  cases hmove with
  | @message rs env buf c context calls hpolling hreading hlives hrs huser =>
      obtain ⟨hhandler, hdisconnected, -, hsendfile, hbuf⟩ := TcpConnection.handleRead_frame hrs
      exact hsame hsendfile hbuf (hdisconnected (by simp)) (congrArg _ hhandler) rfl rfl rfl
        (by simp [runsClose, callMade, readEnds, hrs])
  | @readClose rs env c hpolling hreading hlives hrs =>
      obtain ⟨hhandler, -, -, hsendfile, hbuf⟩ := TcpConnection.handleRead_frame hrs
      exact streams_close hsendfile hbuf hhandler rfl
  | @readError rs env c hpolling hreading hlives hrs =>
      obtain ⟨-, -, hdisconnected, hsendfile, -⟩ := TcpConnection.handleRead_frame hrs
      exact streams_handleClose _ (hdisconnected rfl) hsendfile (.inl rfl)
  | writable hpolling hwriting hlives hw => exact streams_writable hok hwriting hw halive
  | call hframe => exact streams_call hframe halive
  | @leave fromRead hframe =>
      cases fromRead with
      | true => exact hsame rfl rfl rfl rfl rfl rfl rfl rfl
      | false => exact hsame rfl rfl rfl rfl rfl rfl rfl rfl
  | popIo hpolling =>
      have hqueue : queuedOutput { s with io := s.io.popAll } = s.queuedOutput := by
        simp [queuedOutput, BatchQueue.waiting_popAll (idle_of_polling hpolling)]
      exact hsame rfl rfl rfl rfl hqueue rfl rfl rfl
  | @handleConnection w env context calls hfront huser =>
      have hfault : s.fault = none :=
        fault_of_perform (s := { s with io := s.io.start }) (r := s.conn.handleConnection) halive
      rw [perform_handleConnection (s := { s with io := s.io.start }) hfault]
      exact hsame rfl rfl rfl (EventHandler.isWriting_enableRead _) (queuedOutput_quiet hfront rfl)
        (handsOver_runIo hfront rfl) rfl rfl
  | writeInLoop hfront hlives hw => exact streams_writeInLoop hok hfront hw halive
  | writeComplete hfront huser =>
      exact hsame rfl rfl rfl rfl (queuedOutput_quiet hfront rfl) (handsOver_runIo hfront rfl) rfl rfl
  | closeConnection hfront =>
      rw [(perform_closeConnection halive).2]
      exact .of_closed rfl rfl (handsOver_runIo hfront rfl) id rfl
  | doneIo hrunning hframe =>
      have hqueue : queuedOutput { s with io := s.io.finish } = s.queuedOutput := by
        simp [queuedOutput, BatchQueue.waiting_finish hrunning]
      exact hsame rfl rfl rfl rfl hqueue rfl rfl rfl
  | popBase hidle => exact hsame rfl rfl rfl rfl rfl rfl rfl rfl
  | runBase hfront =>
      refine hsame rfl rfl rfl rfl ?_ rfl rfl rfl
      simp [queuedOutput, IoFunctor.output]
  | doneBase hrunning => exact hsame rfl rfl rfl rfl rfl rfl rfl rfl

/-! ## Whole runs -/

/-- What every history of a run satisfies while the process lives. -/
structure Streamed (h : Session κ × Past κ ε) : Prop where
  inOrder : InOrder h
  held : h.1.conn.eventHandler.isWriting = true →
    handedOver h.2 ++ h.1.conn.writeBuf <+: written h.2
  notClosed : h.1.conn.disconnected = false → closeCalled h.2 = false

theorem streamed_start (context : κ) : Streamed (start context, ([] : Past κ ε)) :=
  ⟨⟨List.prefix_rfl, fun _ => rfl⟩, fun _ => List.prefix_rfl, fun _ => rfl⟩

theorem streamed_of_streams {past : Past κ ε} (h : Streamed (s, past)) (hstreams : s.Streams l s') :
    Streamed (s', (s, l) :: past) := by
  have hhanded : handedOver ((s, l) :: past) = handedOver past ++ s.handsOver l := rfl
  have hwritten : written ((s, l) :: past)
      = if closeCalled past then written past else written past ++ s.writes l := rfl
  have hcalled : closeCalled ((s, l) :: past) = (s.runsClose l || closeCalled past) := rfl
  have hgrows : written past <+: written ((s, l) :: past) := by
    rw [hwritten]
    split
    · exact List.prefix_rfl
    · exact List.prefix_append _ _
  have hcomplete : s'.conn.disconnected = false →
      handedOver ((s, l) :: past) ++ s'.unsent = written ((s, l) :: past) := by
    intro hopen
    obtain ⟨hbefore, -, hstream⟩ := hstreams.open_ hopen
    have hall : handedOver past ++ s.unsent = written past := h.inOrder.complete hbefore
    have hnot : closeCalled past = false := h.notClosed hbefore
    rw [hhanded, hwritten, hnot, if_neg Bool.false_ne_true, List.append_assoc, hstream, ← hall,
      List.append_assoc]
  have hbegins : handedOver ((s, l) :: past) <+: written ((s, l) :: past) := by
    refine List.IsPrefix.trans ?_ hgrows
    rw [hhanded]
    rcases hstreams.next with hnone | ⟨hopen, hnext⟩ | ⟨hwriting, hnext⟩
    · rw [hnone, List.append_nil]
      exact h.inOrder.prefix_
    · have hall : handedOver past ++ s.unsent = written past := h.inOrder.complete hopen
      rw [← hall, List.prefix_append_right_inj]
      exact hnext
    · refine List.IsPrefix.trans ?_ (h.held hwriting)
      rw [List.prefix_append_right_inj]
      exact hnext
  refine ⟨⟨hbegins, hcomplete⟩, fun hwriting => ?_, fun hopen => ?_⟩
  · rcases hstreams.held hwriting with hopen | ⟨hbefore, hbuf⟩
    · have hall := hcomplete hopen
      unfold unsent at hall
      rw [← hall, ← List.append_assoc]
      exact List.prefix_append _ _
    · refine List.IsPrefix.trans ?_ hgrows
      rw [hhanded, List.append_assoc]
      change handedOver past ++ (s.handsOver l ++ s'.conn.writeBuf) <+: _
      rw [hbuf]
      exact h.held hbefore
  · obtain ⟨hbefore, hclose, -⟩ := hstreams.open_ hopen
    rw [hcalled, hclose, h.notClosed hbefore]
    rfl

/-- The histories of runs in which the kernel takes prefixes. -/
def KeepsOrder (h : Session κ × Past κ ε) : Prop := h.1.fault = none → Streamed h

theorem keepsOrder_step (h : Session κ × Past κ ε) (l : Label ε) (h' : Session κ × Past κ ε)
    (horder : KeepsOrder h) (hok : TakesPrefix h l)
    (hrecord : Runs.record (step user) h l = some h') : KeepsOrder h' := by
  obtain ⟨s, past⟩ := h
  obtain ⟨s', past'⟩ := h'
  obtain ⟨hstep, rfl⟩ := Runs.record_eq_some hrecord
  intro halive
  exact streamed_of_streams (horder (step_fault hstep)) (streams_move hok (step_cases hstep halive) halive)

theorem streamed_run {context : κ} {ls : List (Label ε)} {h : Session κ × Past κ ε}
    (hok : Runs.Along (Runs.record (step user)) TakesPrefix (start context, []) ls)
    (hrun : Runs.exec (Runs.record (step user)) (start context, []) ls = some h)
    (halive : h.1.fault = none) : Streamed h := by
  have hstart : KeepsOrder (start context, ([] : Past κ ε)) := fun _ => streamed_start context
  exact Runs.exec_invariant keepsOrder_step hstart hok hrun halive

/-- Whatever the user does, whoever moves, and however much the kernel takes: it has
    a prefix of what was written, and the rest is still there until the connection is
    disconnected. -/
theorem inOrder_run (user : UserCode κ ε) (context : κ) {ls : List (Label ε)} {h : Session κ × Past κ ε}
    (hok : Runs.Along (Runs.record (step user)) TakesPrefix (start context, []) ls)
    (hrun : Runs.exec (Runs.record (step user)) (start context, []) ls = some h)
    (halive : h.1.fault = none) : InOrder h :=
  (streamed_run hok hrun halive).inOrder

/-- The kernel takes one byte of an answer and then all but one of the rest, and
    then the connection is reset. -/
def resetWhileWriting : List (Label (List Call)) :=
  comes ++ [asks [.write [100]], .call, .call, .leave, .popIo, .runIo ⟨1, [97]⟩ [], .doneIo,
    .runIo ⟨0, []⟩ [], .doneIo, .writable ⟨2, [98, 99]⟩, .writable ⟨-1, []⟩]

theorem inOrder_run_reset :
    ∃ h, Runs.exec (Runs.record (step echo)) (start (), []) resetWhileWriting = some h ∧
      handedOver h.2 = [97, 98, 99] ∧ written h.2 = [97, 98, 99, 100] ∧ InOrder h := by
  have hrun : ((Runs.exec (Runs.record (step echo)) (start (), []) resetWhileWriting).any
      fun h => decide (h.1.fault = none ∧ handedOver h.2 = [97, 98, 99] ∧
        written h.2 = [97, 98, 99, 100])) = true := by
    decide +kernel
  obtain ⟨h, hh, hend⟩ := Option.any_eq_true _ _ |>.mp hrun
  obtain ⟨hfault, hhanded, hwritten⟩ := of_decide_eq_true hend
  exact ⟨h, hh, hhanded, hwritten, inOrder_run echo () (by decide +kernel) hh hfault⟩

end Session

end QGServer
