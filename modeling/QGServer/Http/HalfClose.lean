-- SUMMARY: Half-close: when no output follows shutdown().
import QGServer.Core.GracefulClose
import QGServer.Http.Server

/-!
# Half-close

`shutdown()` closes the sending side of the socket at once and changes nothing in
the connection. What is in `write_buf_` or waits in a functor is still passed to
`::write`, and the answers to requests that come later are as well.
-/

namespace QGServer

namespace TcpConnection

variable {c : TcpConnection}

theorem disconnected_close : c.close.conn.disconnected = true := by
  unfold close
  dsimp only
  split <;> rfl

/-- `handleWrite` does not connect. -/
theorem open_of_handleWrite {w : WriteOutcome} {r : Result} (h : c.handleWrite w = .ok r)
    (hopen : r.conn.disconnected = false) : c.disconnected = false := by
  unfold handleWrite at h
  split at h
  · cases h
    exact hopen
  · dsimp only at h
    split at h
    · split at h
      · cases h
      · split at h <;> cases h <;> exact hopen
    · cases h
      cases hopen

end TcpConnection

namespace Session

variable {κ ε : Type*} {user : UserCode κ ε} {s s' : Session κ} {l : Label ε}

/-! ## Connections without output -/

/-- Nothing is left that could be sent. -/
structure Flushed (s : Session κ) : Prop where
  open_ : s.conn.disconnected = false → s.conn.writeBuf = [] ∧ s.queuedOutput = []
  writing : s.conn.eventHandler.isWriting = true → s.conn.writeBuf = []

instance (s : Session κ) : Decidable s.Flushed :=
  decidable_of_iff
    ((s.conn.disconnected = false → s.conn.writeBuf = [] ∧ s.queuedOutput = []) ∧
      (s.conn.eventHandler.isWriting = true → s.conn.writeBuf = []))
    ⟨fun ⟨hopen, hwriting⟩ => ⟨hopen, hwriting⟩, fun h => ⟨h.open_, h.writing⟩⟩

theorem Flushed.congr (h : s.Flushed) (hdisconnected : s'.conn.disconnected = s.conn.disconnected)
    (hbuf : s'.conn.writeBuf = s.conn.writeBuf)
    (hwriting : s'.conn.eventHandler.isWriting = s.conn.eventHandler.isWriting)
    (hqueue : s'.queuedOutput = s.queuedOutput) : s'.Flushed := by
  refine ⟨fun hopen => ?_, fun hw => ?_⟩
  · rw [hbuf, hqueue]
    exact h.open_ (hdisconnected ▸ hopen)
  · rw [hbuf]
    exact h.writing (hwriting ▸ hw)

theorem flushed_of_disconnected (hdisconnected : s.conn.disconnected = true)
    (hwriting : s.conn.eventHandler.isWriting = true → s.conn.writeBuf = []) : s.Flushed := by
  refine ⟨fun hopen => ?_, hwriting⟩
  rw [hdisconnected] at hopen
  cases hopen

/-- A functor that carries no output. -/
theorem Flushed.start (h : s.Flushed) {f : IoFunctor} (hfront : s.io.front = some f)
    (hf : f.output = []) : Flushed { s with io := s.io.start } := by
  refine h.congr rfl rfl rfl ?_
  rw [queuedOutput_start hfront, hf]
  rfl

/-- `close()` leaves the interest alone or takes it away. -/
theorem flushed_close {t : Session κ} {c : TcpConnection}
    (hwriting : c.eventHandler.isWriting = true → c.writeBuf = []) : (t.perform c.close).Flushed := by
  have hclose : c.close.conn.writeBuf = c.writeBuf ∧
      (c.close.conn.eventHandler.isWriting = true → c.eventHandler.isWriting = true) := by
    unfold TcpConnection.close
    dsimp only
    split
    · exact ⟨rfl, id⟩
    · refine ⟨rfl, fun hw => ?_⟩
      rw [TcpConnection.handleClose, EventHandler.isWriting_disableAll] at hw
      cases hw
  refine flushed_of_disconnected ?_ fun hw => ?_
  · rw [conn_perform]
    exact TcpConnection.disconnected_close
  · rw [conn_perform] at hw ⊢
    exact hclose.1.trans (hwriting (hclose.2 hw))

theorem output_of_isOutput {e : Effect} (h : e.isOutput = true) : e.output = [] := by
  cases e with
  | addWriteInLoop data => cases h
  | _ => rfl

theorem substr_nil {n : Int} {rest : Bytes} (h : substr [] n = .ok rest) : rest = [] := by
  unfold substr at h
  split at h
  · cases h
    simp
  · cases h

/-- Writing nothing on a connection without output. -/
theorem writeInLoop_nil {c : TcpConnection} {w : WriteOutcome} {r : Result}
    (hbuf : c.writeBuf = []) (hopen : c.disconnected = false) (h : c.writeInLoop [] w = .ok r) :
    r.conn.writeBuf = [] := by
  have hrest : ∀ {n : Int} {effects : List Effect},
      c.bufferRest [] n effects = .ok r → r.conn.writeBuf = [] := by
    intro n effects hr
    unfold TcpConnection.bufferRest at hr
    split at hr
    · cases hr
    · rename_i rest hsubstr
      rw [substr_nil hsubstr, hbuf] at hr
      dsimp only at hr
      split at hr <;> cases hr <;> rfl
  unfold TcpConnection.writeInLoop at h
  simp only [hopen, Bool.false_eq_true, if_false, and_false] at h
  split at h
  · exact hrest h
  · exact hrest h

theorem flushed_move (h : s.Flushed) (hmove : Move user s l s') (halive : s'.fault = none)
    (hwrites : s.conn.disconnected = false → s.writes l = []) : s'.Flushed := by
  cases hmove with
  | @message rs env buf c context calls hpolling hreading hlives hrs huser =>
      obtain ⟨hhandler, hdisconnected, -, -, hbuf⟩ := TcpConnection.handleRead_frame hrs
      exact h.congr (hdisconnected (by simp)) hbuf (congrArg EventHandler.isWriting hhandler) rfl
  | @readClose rs env c hpolling hreading hlives hrs =>
      obtain ⟨hhandler, -, -, -, hbuf⟩ := TcpConnection.handleRead_frame hrs
      refine flushed_close fun hw => hbuf.trans (h.writing ?_)
      rw [← hhandler]
      exact hw
  | @readError rs env c hpolling hreading hlives hrs =>
      obtain ⟨-, -, hdisconnected, -, -⟩ := TcpConnection.handleRead_frame hrs
      refine flushed_of_disconnected ?_ fun hw => ?_
      · rw [conn_perform]
        exact hdisconnected rfl
      · rw [conn_perform, TcpConnection.handleClose, EventHandler.isWriting_disableAll] at hw
        cases hw
  | @writable w r hpolling hwriting hlives hw =>
      have hbuf := h.writing hwriting
      obtain rfl : ⟨s.conn, []⟩ = r := by simpa [TcpConnection.handleWrite, hbuf] using hw
      exact h
  | @call c calls fromRead hframe =>
      have hmade : s.callMade (.call : Label ε) = some c := callMade_call hframe
      have hconn : ∀ r : Result, (perform r { s with frame := some ⟨calls, fromRead⟩ }).conn = r.conn :=
        fun r => conn_perform r
      cases c with
      | write data =>
          cases hclosed : s.conn.disconnected with
          | true =>
              refine flushed_of_disconnected ?_ ?_
              · rw [hconn]
                exact hclosed
              · rw [hconn]
                exact h.writing
          | false =>
              have hdata : data = [] := by simpa [writes, hmade] using hwrites hclosed
              have hqueue := @queuedOutput_write _ _ s.conn data halive
              refine h.congr ?_ ?_ ?_ (hqueue.trans (by rw [hdata, List.append_nil]; rfl))
              · rw [hconn]
                rfl
              · rw [hconn]
                rfl
              · rw [hconn]
                rfl
      | shutdown =>
          refine h.congr ?_ ?_ ?_ ?_
          · rw [hconn]
            rfl
          · rw [hconn]
            rfl
          · rw [hconn]
            rfl
          · rw [queuedOutput_perform halive]
            simp [Call.run, TcpConnection.shutdown, Effect.output, queuedOutput]
      | close => exact flushed_close h.writing
  | @leave fromRead hframe =>
      cases fromRead with
      | true => exact h.congr rfl rfl rfl rfl
      | false => exact h.congr rfl rfl rfl rfl
  | popIo hpolling =>
      refine h.congr rfl rfl rfl ?_
      simp [queuedOutput, BatchQueue.waiting_popAll (idle_of_polling hpolling)]
  | @handleConnection w env context calls hfront huser =>
      have hfault : s.fault = none :=
        fault_of_perform (s := { s with io := s.io.start }) (r := s.conn.handleConnection) halive
      rw [perform_handleConnection (s := { s with io := s.io.start }) hfault]
      exact (h.start hfront rfl).congr rfl rfl (EventHandler.isWriting_enableRead _) rfl
  | @writeInLoop data w env r hfront hlives hw =>
      rcases TcpConnection.writeInLoop_frame hw with ⟨hclosed, rfl⟩ | ⟨hopen, hstill, heffects⟩
      · exact flushed_of_disconnected hclosed h.writing
      · obtain ⟨hbuf, hqueue⟩ := h.open_ hopen
        rw [queuedOutput_start hfront, List.append_eq_nil_iff] at hqueue
        obtain ⟨hdata, hqueue⟩ := hqueue
        obtain rfl : data = [] := hdata
        have hrest : (perform r { s with io := s.io.start }).conn.writeBuf = [] := by
          rw [conn_perform]
          exact writeInLoop_nil hbuf hopen hw
        refine ⟨fun _ => ⟨hrest, ?_⟩, fun _ => hrest⟩
        rw [queuedOutput_perform halive, hqueue, List.nil_append, List.flatMap_eq_nil_iff]
        exact fun e he => output_of_isOutput (heffects e he)
  | writeComplete hfront huser => exact (h.start hfront rfl).congr rfl rfl rfl rfl
  | closeConnection hfront =>
      rw [(perform_closeConnection halive).2]
      exact flushed_of_disconnected rfl h.writing
  | doneIo hrunning hframe =>
      refine h.congr rfl rfl rfl ?_
      simp [queuedOutput, BatchQueue.waiting_finish hrunning]
  | popBase hidle => exact h.congr rfl rfl rfl rfl
  | runBase hfront =>
      refine h.congr rfl rfl rfl ?_
      simp [queuedOutput, IoFunctor.output]
  | doneBase hrunning => exact h.congr rfl rfl rfl rfl

/-- A step that is possible passes no bytes to `::write`. -/
theorem sends_of_flushed (h : s.Flushed) (hstep : step user s l = some s') {q : Bytes × WriteOutcome}
    (hq : q ∈ s.sends l) : q.1 = [] := by
  have hfault := step_fault hstep
  unfold step at hstep
  simp only [hfault, Option.isSome_none, Bool.false_eq_true, if_false] at hstep
  cases l with
  | writable w =>
      simp only [Option.ite_none_right_eq_some, Bool.and_eq_true] at hstep
      simp [sends, h.writing hstep.1.2] at hq
  | runIo w env =>
      simp only [sends, Option.mem_def] at hq
      split at hq
      · rename_i data hfront
        rw [Option.ite_none_left_eq_some] at hq
        obtain ⟨hopen, hq⟩ := hq
        simp only [Bool.or_eq_true, not_or, Bool.not_eq_true] at hopen
        obtain ⟨-, hqueue⟩ := h.open_ hopen.1
        rw [queuedOutput_start hfront, List.append_eq_nil_iff] at hqueue
        rw [← Option.some.inj hq]
        exact hqueue.1
      · cases hq
  | _ => cases hq

/-- No step connects again. -/
theorem open_of_move (hmove : Move user s l s') (halive : s'.fault = none)
    (hopen : s'.conn.disconnected = false) : s.conn.disconnected = false := by
  cases hmove with
  | message hpolling hreading hlives hrs huser =>
      rw [← (TcpConnection.handleRead_frame hrs).2.1 (by simp)]
      exact hopen
  | @readClose rs env c hpolling hreading hlives hrs =>
      rw [conn_perform, TcpConnection.disconnected_close] at hopen
      cases hopen
  | readError hpolling hreading hlives hrs =>
      rw [conn_perform, TcpConnection.handleClose,
        (TcpConnection.handleRead_frame hrs).2.2.1 rfl] at hopen
      cases hopen
  | writable hpolling hwriting hlives hw =>
      rw [conn_perform] at hopen
      exact TcpConnection.open_of_handleWrite hw hopen
  | @call c calls fromRead hframe =>
      rw [conn_perform] at hopen
      cases c with
      | write data => exact hopen
      | shutdown => exact hopen
      | close =>
          rw [Call.run, TcpConnection.disconnected_close] at hopen
          cases hopen
  | @leave fromRead hframe =>
      cases fromRead with
      | true => exact hopen
      | false => exact hopen
  | @writeInLoop data w env r hfront hlives hw =>
      rw [conn_perform] at hopen
      rcases TcpConnection.writeInLoop_frame hw with ⟨-, rfl⟩ | ⟨hbefore, -⟩
      · exact hopen
      · exact hbefore
  | closeConnection hfront =>
      rw [(perform_closeConnection halive).2] at hopen
      cases hopen
  | handleConnection hfront huser =>
      change (perform s.conn.handleConnection _).conn.disconnected = false at hopen
      rw [conn_perform] at hopen
      exact hopen
  | _ => exact hopen

/-! ## The property -/

/-- `shutdown()` has been called. -/
def shutdownCalled (past : Past κ ε) : Bool := past.any fun (s, l) => s.callMade l == some .shutdown

/-- After `shutdown()` no bytes are passed to `::write`. -/
def SilentAfterShutdown (h : Session κ × Past κ ε) (l : Label ε) : Prop :=
  shutdownCalled h.2 = true → ∀ q ∈ h.1.sends l, q.1 = []

instance (h : Session κ × Past κ ε) (l : Label ε) : Decidable (SilentAfterShutdown h l) :=
  inferInstanceAs (Decidable (_ → ∀ q ∈ h.1.sends l, _))

/-- The message that the step passes to the message callback. -/
def received (s : Session κ) : Label ε → Option Bytes
  | .readable rs _ =>
    match s.conn.handleRead rs with
    | some (.message buf, _, []) => some buf
    | _ => none
  | _ => none

end Session

/-! ## HTTPServer -/

namespace HTTPServer

open Session

/-- `parse` has returned, with a request that is complete. -/
def isComplete : Except Fault (HTTPContext × Int) → Bool
  | .ok (c, n) => 0 ≤ n && c.request.messageIsEnd
  | .error _ => false

/-- The bytes complete a request. -/
def completes (buf : Bytes) (context : HTTPContext) : Bool := isComplete (context.parse buf)

/-- `shutdown()` is called when nothing is left that could be sent, and what is
    received later on an open connection completes no request. -/
structure ShutsDownCleanly (h : Session (Option HTTPContext) × Past (Option HTTPContext) Environment)
    (l : Label Environment) : Prop where
  flushed : h.1.callMade l = some .shutdown → h.1.Flushed
  unanswered : shutdownCalled h.2 = true → h.1.conn.disconnected = false →
    ∀ buf ∈ h.1.received l, ∀ context ∈ h.1.context, completes buf context = false

instance (h : Session (Option HTTPContext) × Past (Option HTTPContext) Environment)
    (l : Label Environment) : Decidable (ShutsDownCleanly h l) :=
  decidable_of_iff
    ((h.1.callMade l = some .shutdown → h.1.Flushed) ∧
      (shutdownCalled h.2 = true → h.1.conn.disconnected = false →
        ∀ buf ∈ h.1.received l, ∀ context ∈ h.1.context, completes buf context = false))
    ⟨fun ⟨hflushed, hunanswered⟩ => ⟨hflushed, hunanswered⟩, fun h => ⟨h.flushed, h.unanswered⟩⟩

/-- What every history satisfies while the process lives. -/
structure Quiesced (h : Session (Option HTTPContext) × Past (Option HTTPContext) Environment) :
    Prop where
  calls : ∀ f ∈ h.1.frame, f.calls.length ≤ 1
  flushed : shutdownCalled h.2 = true → h.1.Flushed
  silent : shutdownCalled h.2 = true → h.1.conn.disconnected = false →
    ∀ f ∈ h.1.frame, ∀ data, .write data ∉ f.calls

theorem completes_eq {buf : Bytes} {c c' : HTTPContext} {n : Int}
    (hparse : c.parse buf = .ok (c', n)) :
    completes buf c = (decide (0 ≤ n) && c'.request.messageIsEnd) := by
  unfold completes
  rw [hparse]
  rfl

/-- Only a request that is complete is answered. -/
theorem completes_of_write {env : Environment} {buf data : Bytes} {c c' : HTTPContext}
    {calls : List Call} (h : Handled env buf c c' calls) (hdata : .write data ∈ calls) :
    completes buf c = true := by
  cases h with
  | refused n hparse hn =>
      have hcall : Call.write data = .shutdown := List.mem_singleton.mp hdata
      cases hcall
  | waits n hparse hn hend => cases hdata
  | answered c₁ n response hparse hn hend hanswer =>
      rw [completes_eq hparse]
      exact Bool.and_eq_true_iff.mpr ⟨decide_eq_true hn, hend⟩

variable {s s' : Session (Option HTTPContext)} {l : Label Environment}
  {past : Past (Option HTTPContext) Environment}

/-- The callbacks make one call at most, so none is left after it. -/
theorem calls_move (h : ∀ f ∈ s.frame, f.calls.length ≤ 1) (hmove : Move userCode s l s') :
    ∀ f ∈ s'.frame, f.calls.length ≤ 1 := by
  cases hmove with
  | message hpolling hreading hlives hrs huser =>
      obtain ⟨c, c', -, -, hhandled⟩ := message_ok huser
      intro f hf
      obtain rfl := Option.some.inj hf
      exact hhandled.calls_le
  | @call c calls fromRead hframe =>
      rw [frame_perform]
      intro f hf
      obtain rfl := Option.some.inj hf
      have hle := h _ hframe
      simp only [List.length_cons] at hle
      exact Nat.le_of_succ_le hle
  | leave hframe => exact fun f hf => by cases hf
  | handleConnection hfront huser =>
      obtain ⟨-, rfl⟩ := connectionCome_ok huser
      intro f hf
      obtain rfl := Option.some.inj hf
      exact Nat.zero_le 1
  | writeComplete hfront huser =>
      obtain ⟨c, -, -, rfl⟩ := writeComplete_ok huser
      intro f hf
      obtain rfl := Option.some.inj hf
      rcases handleWriteComplete_cases c with ⟨-, hcalls⟩ | ⟨-, hcalls⟩ <;> simp [hcalls]
  | readClose hpolling hreading hlives hrs => rwa [frame_perform]
  | readError hpolling hreading hlives hrs => rwa [frame_perform]
  | writable hpolling hwriting hlives hw => rwa [frame_perform]
  | writeInLoop hfront hlives hw => rwa [frame_perform]
  | closeConnection hfront => rwa [frame_perform]
  | _ => exact h

theorem silent_move (hquiesced : Quiesced (s, past)) (hclean : ShutsDownCleanly (s, past) l)
    (hmove : Move userCode s l s') (halive : s'.fault = none)
    (hcalled : shutdownCalled ((s, l) :: past) = true) (hopen : s'.conn.disconnected = false) :
    ∀ f ∈ s'.frame, ∀ data, .write data ∉ f.calls := by
  have hbefore := open_of_move hmove halive hopen
  have hboth : s.callMade l = some .shutdown ∨ shutdownCalled past = true := by
    simpa [shutdownCalled] using hcalled
  have hsame : s.callMade l ≠ some .shutdown → ∀ f ∈ s.frame, ∀ data, .write data ∉ f.calls :=
    fun hnot => hquiesced.silent (hboth.resolve_left hnot) hbefore
  cases hmove with
  | @message rs env buf c context calls hpolling hreading hlives hrs huser =>
      obtain ⟨c₀, c', hcontext, -, hhandled⟩ := message_ok huser
      have hpast : shutdownCalled past = true := hboth.resolve_left (by simp [callMade])
      have hreceived : buf ∈ s.received (.readable rs env : Label Environment) := by
        simp [received, hrs]
      have hnot := hclean.unanswered hpast hbefore buf hreceived c₀ hcontext
      intro f hf data hdata
      obtain rfl := Option.some.inj hf
      rw [completes_of_write hhandled hdata] at hnot
      cases hnot
  | @call c calls fromRead hframe =>
      rw [frame_perform]
      intro f hf data hdata
      obtain rfl := Option.some.inj hf
      have hle := hquiesced.calls _ hframe
      have hnil : calls = [] :=
        List.length_eq_zero_iff.mp (Nat.le_zero.mp (Nat.le_of_succ_le_succ hle))
      rw [hnil] at hdata
      cases hdata
  | leave hframe => exact fun f hf => by cases hf
  | handleConnection hfront huser =>
      obtain ⟨-, rfl⟩ := connectionCome_ok huser
      intro f hf data hdata
      obtain rfl := Option.some.inj hf
      cases hdata
  | writeComplete hfront huser =>
      obtain ⟨c, -, -, rfl⟩ := writeComplete_ok huser
      intro f hf data hdata
      obtain rfl := Option.some.inj hf
      rcases handleWriteComplete_cases c with ⟨-, hcalls⟩ | ⟨-, hcalls⟩ <;> simp [hcalls] at hdata
  | readClose hpolling hreading hlives hrs =>
      rw [frame_perform]
      exact hsame (by simp [callMade])
  | readError hpolling hreading hlives hrs =>
      rw [frame_perform]
      exact hsame (by simp [callMade])
  | writable hpolling hwriting hlives hw =>
      rw [frame_perform]
      exact hsame (by simp [callMade])
  | writeInLoop hfront hlives hw =>
      rw [frame_perform]
      exact hsame (by simp [callMade])
  | closeConnection hfront =>
      rw [frame_perform]
      exact hsame (by simp [callMade])
  | _ => exact hsame (by simp [callMade])

theorem quiesced_move (hquiesced : Quiesced (s, past)) (hclean : ShutsDownCleanly (s, past) l)
    (hmove : Move userCode s l s') (halive : s'.fault = none) : Quiesced (s', (s, l) :: past) := by
  refine ⟨calls_move hquiesced.calls hmove, fun hcalled => ?_, silent_move hquiesced hclean hmove halive⟩
  have hboth : s.callMade l = some .shutdown ∨ shutdownCalled past = true := by
    simpa [shutdownCalled] using hcalled
  rcases hboth with hnow | hbefore
  · exact flushed_move (hclean.flushed hnow) hmove halive fun _ => by simp [writes, hnow]
  · refine flushed_move (hquiesced.flushed hbefore) hmove halive fun hopen => ?_
    have hsilent := hquiesced.silent hbefore hopen
    cases hmove with
    | @call c calls fromRead hframe =>
        have hmade : s.callMade (.call : Label Environment) = some c := callMade_call hframe
        cases c with
        | write data => exact absurd List.mem_cons_self (hsilent _ hframe data)
        | shutdown => simp [writes, hmade]
        | close => simp [writes, hmade]
    | _ => rfl

/-- The histories of the runs that shut down cleanly. -/
def Sound (h : Session (Option HTTPContext) × Past (Option HTTPContext) Environment) : Prop :=
  h.1.fault = none → Quiesced h

theorem sound_step (h : Session (Option HTTPContext) × Past (Option HTTPContext) Environment)
    (l : Label Environment) (h' : Session (Option HTTPContext) × Past (Option HTTPContext) Environment)
    (hsound : Sound h) (hclean : ShutsDownCleanly h l)
    (hrecord : Runs.record (step userCode) h l = some h') : Sound h' := by
  obtain ⟨s, past⟩ := h
  obtain ⟨s', past'⟩ := h'
  obtain ⟨hstep, rfl⟩ := Runs.record_eq_some hrecord
  intro halive
  exact quiesced_move (hsound (step_fault hstep)) hclean (step_cases hstep halive) halive

theorem sound_start : Sound (start none, []) := by
  refine fun _ => ⟨fun f hf => ?_, fun h => ?_, fun h => ?_⟩
  · cases hf
  · cases h
  · cases h

/-- In every run that shuts down cleanly, no bytes are passed to `::write` after
    `shutdown()`. -/
theorem silent_after_shutdown {ls : List (Label Environment)}
    {h : Session (Option HTTPContext) × Past (Option HTTPContext) Environment}
    (hclean : Runs.Along (Runs.record (step userCode)) ShutsDownCleanly (start none, []) ls)
    (hrun : Runs.exec (Runs.record (step userCode)) (start none, []) ls = some h) :
    Runs.Along (Runs.record (step userCode)) SilentAfterShutdown (start none, []) ls := by
  refine Runs.along_of_exec sound_step ?_ sound_start hclean hrun
  intro h l h' hsound hclean hrecord hcalled q hq
  obtain ⟨hstep, -⟩ := Runs.record_eq_some hrecord
  exact sends_of_flushed ((hsound (step_fault hstep)).flushed hcalled) hstep hq

/-! ## Runs -/

/-- A connection comes. -/
def comes : List (Label Environment) :=
  [.popIo, .runIo ⟨0, []⟩ .empty, .leave, .doneIo]

/-- A request for a page that is not there, in one piece. -/
def asks : Label Environment :=
  .readable [.data ⟨bytes "GET /a HTTP/1.1\r\n\r\n", by decide, by decide⟩, .error .eagain] .empty

/-- The request is answered, and the kernel takes `n` bytes of the answer. -/
def answers (n : Nat) : List (Label Environment) :=
  [asks, .call, .leave, .popIo, .runIo ⟨n, []⟩ .empty, .doneIo]

/-- The write-complete callback runs and calls `shutdown()`. -/
def completesWrite : List (Label Environment) :=
  [.popIo, .runIo ⟨0, []⟩ .empty, .call, .leave, .doneIo]

/-- The beginning of another request comes. -/
def beginsAgain : List (Label Environment) :=
  [.readable [.data ⟨bytes "GET /b HTTP/1.1\r\n", by decide, by decide⟩, .error .eagain] .empty, .leave]

/-- What is received after `shutdown()` is parsed, but it is not all of a request. -/
theorem silent_after_shutdown_answered :
    ∃ h, Runs.exec (Runs.record (step userCode)) (start none, [])
        (comes ++ answers 186 ++ completesWrite ++ beginsAgain) = some h ∧
      shutdownCalled h.2 = true ∧ h.1.context.map (fun c => c.request.requestUrl) = some (bytes "/b") ∧
      Runs.Along (Runs.record (step userCode)) SilentAfterShutdown (start none, [])
        (comes ++ answers 186 ++ completesWrite ++ beginsAgain) := by
  have hrun : ((Runs.exec (Runs.record (step userCode)) (start none, [])
      (comes ++ answers 186 ++ completesWrite ++ beginsAgain)).any fun h =>
        decide (shutdownCalled h.2 = true ∧
          h.1.context.map (fun c => c.request.requestUrl) = some (bytes "/b"))) = true := by
    decide +kernel
  obtain ⟨h, hh, hend⟩ := Option.any_eq_true _ _ |>.mp hrun
  obtain ⟨hcalled, hurl⟩ := of_decide_eq_true hend
  exact ⟨h, hh, hcalled, hurl, silent_after_shutdown (by decide +kernel) hh⟩

/-- Two requests, the second one after the first one is answered. -/
theorem not_silent_after_shutdown :
    ¬ ∀ (ls : List (Label Environment))
        (h : Session (Option HTTPContext) × Past (Option HTTPContext) Environment),
      Runs.exec (Runs.record (step userCode)) (start none, []) ls = some h →
        Runs.Along (Runs.record (step userCode)) SilentAfterShutdown (start none, []) ls := by
  intro hclaim
  have hrun : (Runs.exec (Runs.record (step userCode)) (start none, [])
      (comes ++ answers 186 ++ completesWrite ++ answers 186)).isSome = true := by
    decide +kernel
  obtain ⟨h, hh⟩ := Option.isSome_iff_exists.mp hrun
  exact absurd (hclaim _ h hh) (by decide +kernel)

end HTTPServer

end QGServer
