-- SUMMARY: The keep-alive decision: whose request handleWriteComplete decides by.
import QGServer.Core.Lifecycle
import QGServer.Http.HalfClose

/-!
# Keep-alive

`handleWriteComplete` asks `http_should_keep_alive` of the parser of the context.
But the parser is initialised again as soon as a request is answered, so when the
functor runs it knows nothing of that request, only of the bytes received since.

Which requests a write-complete functor is about is kept in a ledger: an answer
is queued, then it is given to the socket, and the functor that is queued when
all output has left reports every answer that was given to the socket before.
-/

namespace QGServer

namespace HttpParser

/-- The verdicts of `http_should_keep_alive` on the messages that are completed. -/
def verdicts (es : List Event) : List Bool :=
  es.filterMap fun
    | .notify .messageComplete p => some p.shouldKeepAlive
    | _ => none

/-- `http_parser_execute` on a string whose length is an `int`. -/
def read (p : HttpParser) (buf : Bytes) : Executed := p.execute (buf.take (toInt buf.length).toNat)

/-- A new parser that has been given the strings one after another. -/
def fed (segments : List Bytes) : HttpParser := segments.foldl (fun p buf => (p.read buf).parser) .init

end HttpParser

/-- The functor is a write-complete callback. -/
def IoFunctor.isNotice : IoFunctor → Bool
  | .writeComplete _ => true
  | _ => false

/-- The write-complete functors that a member function queues. -/
def Result.notices (r : Result) : Nat := (r.effects.filterMap Effect.functor).countP IoFunctor.isNotice

namespace HTTPServer

open Session HttpParser

/-! ## Which requests an answer is for -/

/-- The verdicts on the requests whose answers are under way. -/
structure Ledger where
  /-- For each answer that waits in a functor. -/
  queued : List (List Bool)
  /-- For the answers given to the socket, until all output has left. -/
  given : List Bool
  /-- For each write-complete functor that waits, the answers it reports. -/
  reported : List (List Bool)
  deriving DecidableEq, Repr

abbrev History := Past (Option HTTPContext) Environment

/-- The bytes that a step passes to `handleMessageCome`, with its context, if they
    complete a request. -/
def answered (s : Session (Option HTTPContext)) (l : Label Environment) : Option (HTTPContext × Bytes) :=
  (s.received l).bind fun buf => s.context.bind fun c =>
    if completes buf c then some (c, buf) else none

/-- The write-complete functors that a step queues. -/
def notices (s : Session (Option HTTPContext)) (l : Label Environment) : Nat :=
  (s.made l).elim 0 Result.notices

/-- All output has left: the answers given to the socket are reported. -/
def Ledger.report (n : Nat) (b : Ledger) : Ledger :=
  if n = 0 then b else { b with given := [], reported := b.reported ++ [b.given] }

def Ledger.after (b : Ledger) (s : Session (Option HTTPContext)) (l : Label Environment) : Ledger :=
  match l with
  | .readable _ _ =>
    match answered s l with
    | some (c, buf) => { b with queued := b.queued ++ [verdicts (c.parser.read buf).events] }
    | none => b
  | .writable _ => b.report (notices s l)
  | .runIo _ _ =>
    match s.io.front with
    | some (.writeInLoop _) =>
      -- a disconnected connection drops its answers
      if s.conn.disconnected then { b with queued := b.queued.tail }
      else Ledger.report (notices s l)
        { b with queued := b.queued.tail, given := b.given ++ b.queued.headD [] }
    | some (.writeComplete _) => { b with reported := b.reported.tail }
    | _ => b
  | _ => b

def ledger : History → Ledger
  | [] => ⟨[], [], []⟩
  | (s, l) :: past => (ledger past).after s l

/-- The strings received since the last one that completed a request. -/
def since : History → List Bytes
  | [] => []
  | (s, l) :: past =>
    match s.received l with
    | none => since past
    | some buf => if (answered s l).isSome then [] else since past ++ [buf]

/-! ## The decision -/

/-- The step runs a write-complete functor. -/
def reports (s : Session (Option HTTPContext)) : Label Environment → Bool
  | .runIo _ _ =>
    match s.io.front with
    | some (.writeComplete _) => true
    | _ => false
  | _ => false

/-- `handleWriteComplete` calls `shutdown()` exactly if the requests that are
    answered asked for that. -/
def DecidesByRequest (h : Session (Option HTTPContext) × History) (l : Label Environment) : Prop :=
  reports h.1 l = true → ∀ verdicts ∈ (ledger h.2).reported.head?, ∀ keepAlive ∈ verdicts,
    ∀ c ∈ h.1.context, .shutdown ∈ handleWriteComplete c ↔ keepAlive = false

/-- The bytes received since the last answered request ask for the same as the
    requests that are answered. -/
def RestAgrees (h : Session (Option HTTPContext) × History) (l : Label Environment) : Prop :=
  reports h.1 l = true → ∀ verdicts ∈ (ledger h.2).reported.head?, ∀ keepAlive ∈ verdicts,
    (fed (since h.2)).shouldKeepAlive = keepAlive

instance (h : Session (Option HTTPContext) × History) (l : Label Environment) :
    Decidable (DecidesByRequest h l) :=
  inferInstanceAs (Decidable (_ → ∀ verdicts ∈ (ledger h.2).reported.head?, ∀ _ ∈ verdicts,
    ∀ _ ∈ h.1.context, _))

instance (h : Session (Option HTTPContext) × History) (l : Label Environment) :
    Decidable (RestAgrees h l) :=
  inferInstanceAs (Decidable (_ → ∀ verdicts ∈ (ledger h.2).reported.head?, ∀ _ ∈ verdicts, _))

/-! ## What the ledger reports -/

section Notices

open TcpConnection

variable {κ : Type*} {s : Session κ} {c : TcpConnection} {r : Result}

theorem notices_perform (halive : (s.perform r).fault = none) :
    (s.perform r).io.waiting.countP IoFunctor.isNotice
      = s.io.waiting.countP IoFunctor.isNotice + r.notices := by
  rw [waiting_perform halive, List.countP_append]
  rfl

theorem notices_handleClose (c : TcpConnection) : c.handleClose.notices = 0 := rfl

theorem notices_close (c : TcpConnection) : c.close.notices = 0 := by
  unfold TcpConnection.close
  dsimp only
  split <;> rfl

theorem notices_run (call : Call) (c : TcpConnection) : (call.run c).notices = 0 := by
  cases call with
  | write data => rfl
  | shutdown => rfl
  | close => exact notices_close c

theorem notices_handleWrite {w : WriteOutcome} (h : c.handleWrite w = .ok r) : r.notices ≤ 1 := by
  unfold TcpConnection.handleWrite at h
  dsimp only at h
  split at h
  · cases h
    exact Nat.zero_le 1
  · split at h
    · split at h
      · cases h
      · split at h
        · cases h
          exact le_rfl
        · cases h
          exact Nat.zero_le 1
    · cases h
      exact Nat.zero_le 1

theorem notices_bufferRest {data : Bytes} {n : Int} {es : List Effect}
    (h : c.bufferRest data n es = .ok r) :
    r.notices = (es.filterMap Effect.functor).countP IoFunctor.isNotice := by
  unfold TcpConnection.bufferRest at h
  dsimp only at h
  split at h
  · cases h
  · split at h
    · cases h
      simp [Result.notices, Effect.functor]
    · cases h
      rfl

theorem notices_writeInLoop {data : Bytes} {w : WriteOutcome} (h : c.writeInLoop data w = .ok r) :
    r.notices ≤ 1 ∧ (c.disconnected = true → r.notices = 0) := by
  unfold TcpConnection.writeInLoop at h
  dsimp only at h
  split at h
  · cases h
    exact ⟨Nat.zero_le 1, fun _ => rfl⟩
  · rename_i hconnected
    refine ⟨?_, fun hdisconnected => absurd hdisconnected hconnected⟩
    split at h
    · rw [if_neg (by simp [hconnected])] at h
      rw [notices_bufferRest h]
      split
      · exact le_rfl
      · exact Nat.zero_le 1
    · rw [notices_bufferRest h]
      exact Nat.zero_le 1

end Notices

theorem reported_report (b : Ledger) {n : Nat} (hn : n ≤ 1) :
    (b.report n).reported.length = b.reported.length + n := by
  unfold Ledger.report
  split
  · rename_i hzero
    rw [hzero]
    rfl
  · rename_i hpos
    rw [List.length_append, le_antisymm hn (Nat.pos_of_ne_zero hpos)]
    rfl

/-- The ledger has an entry for each write-complete functor that waits. -/
def Entered (h : Session (Option HTTPContext) × History) : Prop :=
  (ledger h.2).reported.length = h.1.io.waiting.countP IoFunctor.isNotice

/-! ## The parser -/

/-- `parse` leaves what the parser makes of the string. -/
theorem parser_parse {buf : Bytes} {c c' : HTTPContext} {n : Int}
    (h : c.parse buf = .ok (c', n)) : c'.parser = (c.parser.read buf).parser := by
  unfold HTTPContext.parse at h
  split at h
  · cases h
  · unfold HTTPContext.parseLen at h
    dsimp only at h
    generalize c.request.callBacks _ = r at h
    cases r with
    | error f => cases h
    | ok request =>
        cases h
        rfl

theorem fed_append (segments : List Bytes) (buf : Bytes) :
    fed (segments ++ [buf]) = ((fed segments).read buf).parser := by
  simp [fed]

/-- The parser has been given what was received since it was initialised. -/
structure Parsed (h : Session (Option HTTPContext) × History) : Prop where
  lifetime : h.1.Lifetime
  unopened : h.1.Unopened ↔ h.1.context = none
  fresh : h.1.context = none → since h.2 = []
  parser : ∀ c ∈ h.1.context, c.parser = fed (since h.2)

variable {s s' : Session (Option HTTPContext)} {l : Label Environment} {past : History}

/-- A step that does not touch the context. -/
theorem Parsed.of_same (h : Parsed (s, past)) (hlife : s'.Lifetime)
    (hunopened : s'.Unopened ↔ s.Unopened ∧ s.invoked l = none) (hcontext : s'.context = s.context)
    (hinvoked : s.context = none → s.invoked l = none) (hreceived : s.received l = none) :
    Parsed (s', (s, l) :: past) := by
  have hsince : since ((s, l) :: past) = since past := by simp [since, hreceived]
  refine ⟨hlife, ?_, fun hnone => ?_, fun c hc => ?_⟩
  · change s'.Unopened ↔ s'.context = none
    rw [hunopened, hcontext, h.unopened]
    exact and_iff_left_of_imp hinvoked
  · rw [hsince]
    exact h.fresh (hcontext ▸ hnone)
  · rw [hsince]
    exact h.parser c (hcontext ▸ hc)

theorem answered_eq {buf : Bytes} {c : HTTPContext} (hreceived : s.received l = some buf)
    (hcontext : s.context = some c) :
    answered s l = if completes buf c then some (c, buf) else none := by
  rw [answered, hreceived, Option.bind_some, hcontext, Option.bind_some]

theorem since_received {buf : Bytes} {c : HTTPContext} (hreceived : s.received l = some buf)
    (hcontext : s.context = some c) :
    since ((s, l) :: past) = if completes buf c then [] else since past ++ [buf] := by
  rw [since, hreceived]
  dsimp only
  rw [answered_eq hreceived hcontext]
  generalize completes buf c = complete
  cases complete <;> rfl

/-- A segment goes to the parser of the context, and a request that is complete
    is answered and forgotten. -/
theorem parser_handled {env : Environment} {buf : Bytes} {c c' : HTTPContext} {calls : List Call}
    {segments : List Bytes} (hc : c.parser = fed segments) (h : Handled env buf c c' calls) :
    c'.parser = fed (if completes buf c then [] else segments ++ [buf]) := by
  cases h with
  | refused c₁ n hparse hn =>
      rw [completes_eq hparse, decide_eq_false (Int.not_le.mpr hn), Bool.false_and,
        if_neg Bool.false_ne_true, fed_append, ← hc]
      exact parser_parse hparse
  | answered c₁ n response hparse hn hend hanswer =>
      rw [completes_eq hparse, decide_eq_true hn, hend]
      rfl
  | waits c₁ n hparse hn hend =>
      rw [completes_eq hparse, hend, Bool.and_false, if_neg Bool.false_ne_true, fed_append, ← hc]
      exact parser_parse hparse

theorem parsed_move (h : Parsed (s, past)) (hstep : step userCode s l = some s')
    (halive : s'.fault = none) : Parsed (s', (s, l) :: past) := by
  have hmove := step_cases hstep halive
  have hlife : s'.Lifetime := lifetime_move h.lifetime hmove halive
  have hunopened : s'.Unopened ↔ s.Unopened ∧ s.invoked l = none :=
    unopened_step h.lifetime hstep halive
  have hsame : s'.context = s.context → (s.context = none → s.invoked l = none) →
      s.received l = none → Parsed (s', (s, l) :: past) := h.of_same hlife hunopened
  cases hmove with
  | @message rs env buf c context calls hpolling hreading hlives hrs huser =>
      obtain ⟨c₀, c', hcontext, rfl, hhandled⟩ := message_ok huser
      have hreceived : s.received (.readable rs env : Label Environment) = some buf := by
        simp [received, hrs]
      have hopen : ¬ s.Unopened := fun hopen => by
        rw [h.unopened.mp hopen] at hcontext
        cases hcontext
      refine ⟨hlife, iff_of_false (fun h => hopen (hunopened.mp h).1) (by simp),
        fun hnone => (by cases hnone), fun c hc => ?_⟩
      obtain rfl := Option.some.inj hc
      rw [since_received hreceived hcontext]
      exact parser_handled (h.parser c₀ hcontext) hhandled
  | @handleConnection w env context calls hfront huser =>
      obtain ⟨rfl, -⟩ := connectionCome_ok huser
      have hbefore : s.Unopened := by simp [Unopened, BatchQueue.waiting_start hfront]
      have hinvoked : s.invoked (.runIo w env : Label Environment) ≠ none := by
        simp [invoked, hfront]
      refine ⟨hlife, iff_of_false (fun h => hinvoked (hunopened.mp h).2) (by simp),
        fun hnone => (by cases hnone), fun c hc => ?_⟩
      obtain rfl := Option.some.inj hc
      change _ = fed (since past)
      rw [h.fresh (h.unopened.mp hbefore)]
      rfl
  | writeComplete hfront huser =>
      obtain ⟨c, hcontext, rfl, -⟩ := writeComplete_ok huser
      refine hsame hcontext.symm (fun hnone => ?_) rfl
      rw [hcontext] at hnone
      cases hnone
  | readClose hpolling hreading hlives hrs =>
      exact hsame (context_perform _) (fun _ => by simp [invoked, hrs]) (by simp [received, hrs])
  | readError hpolling hreading hlives hrs =>
      exact hsame (context_perform _) (fun _ => by simp [invoked, hrs]) (by simp [received, hrs])
  | writable hpolling hwriting hlives hw => exact hsame (context_perform _) (fun _ => rfl) rfl
  | call hframe => exact hsame (context_perform _) (fun _ => rfl) rfl
  | writeInLoop hfront hlives hw =>
      exact hsame (context_perform _) (fun _ => by simp [invoked, hfront]) rfl
  | closeConnection hfront =>
      exact hsame (context_perform _) (fun _ => by simp [invoked, hfront]) rfl
  | _ => exact hsame rfl (fun _ => rfl) rfl

/-- A step that neither queues nor runs a write-complete functor. -/
theorem Entered.of_same (h : Entered (s, past))
    (hreported : ((ledger past).after s l).reported = (ledger past).reported)
    (hwaiting : s'.io.waiting.countP IoFunctor.isNotice = s.io.waiting.countP IoFunctor.isNotice) :
    Entered (s', (s, l) :: past) := by
  change ((ledger past).after s l).reported.length = _
  rw [hreported, hwaiting]
  exact h

/-- A functor that is no write-complete callback leaves those that wait. -/
theorem notices_start {f : IoFunctor} (hfront : s.io.front = some f) (hf : f.isNotice = false) :
    s.io.start.waiting.countP IoFunctor.isNotice = s.io.waiting.countP IoFunctor.isNotice := by
  rw [BatchQueue.waiting_start hfront, List.countP_cons_of_neg]
  rw [hf]
  exact Bool.false_ne_true

/-- A member function that queues no write-complete functor. -/
theorem notices_quiet {t : Session (Option HTTPContext)} {r : Result} {n : Nat}
    (hwaiting : t.io.waiting.countP IoFunctor.isNotice = n) (hnone : r.notices = 0)
    (halive : (t.perform r).fault = none) :
    (t.perform r).io.waiting.countP IoFunctor.isNotice = n := by
  rw [notices_perform halive, hnone, Nat.add_zero, hwaiting]

theorem entered_move (h : Entered (s, past)) (hmove : Move userCode s l s')
    (halive : s'.fault = none) : Entered (s', (s, l) :: past) := by
  cases hmove with
  | message hpolling hreading hlives hrs huser =>
      refine h.of_same ?_ rfl
      dsimp only [Ledger.after]
      split <;> rfl
  | readClose hpolling hreading hlives hrs =>
      refine h.of_same ?_ (notices_quiet rfl (notices_close _) halive)
      dsimp only [Ledger.after]
      split <;> rfl
  | readError hpolling hreading hlives hrs =>
      refine h.of_same ?_ (notices_quiet rfl (notices_handleClose _) halive)
      dsimp only [Ledger.after]
      split <;> rfl
  | @writable w r hpolling hwriting hlives hw =>
      have hmade : notices s (.writable w : Label Environment) = r.notices := by
        simp [notices, made, hw, Except.toOption]
      change ((ledger past).report (notices s _)).reported.length = _
      rw [hmade, reported_report _ (notices_handleWrite hw), notices_perform halive]
      exact congrArg (· + r.notices) h
  | call hframe => exact h.of_same rfl (notices_quiet rfl (notices_run _ _) halive)
  | handleConnection hfront huser =>
      refine h.of_same (by simp [Ledger.after, hfront]) ?_
      exact notices_quiet (notices_start hfront rfl) rfl halive
  | @writeInLoop data w env r hfront hlives hw =>
      have hmade : notices s (.runIo w env : Label Environment) = r.notices := by
        simp [notices, made, hfront, hw, Except.toOption]
      obtain ⟨hone, hdropped⟩ := notices_writeInLoop hw
      change ((ledger past).after s _).reported.length = _
      rw [notices_perform halive, notices_start hfront rfl, ← h]
      simp only [Ledger.after, hfront, hmade]
      split
      · rename_i hdisconnected
        rw [hdropped hdisconnected]
        rfl
      · exact reported_report _ hone
  | @writeComplete buf w env context calls hfront huser =>
      have hwaiting := List.countP_cons_of_pos (p := IoFunctor.isNotice) (a := .writeComplete buf)
        (l := s.io.start.waiting) rfl
      rw [← BatchQueue.waiting_start hfront, ← h] at hwaiting
      change ((ledger past).after s _).reported.length = s.io.start.waiting.countP _
      simp only [Ledger.after, hfront, List.length_tail]
      exact Nat.sub_eq_of_eq_add hwaiting
  | closeConnection hfront =>
      refine h.of_same (by simp [Ledger.after, hfront]) ?_
      exact notices_quiet (notices_start hfront rfl) rfl halive
  | popIo hpolling =>
      exact h.of_same rfl (congrArg _ (BatchQueue.waiting_popAll (idle_of_polling hpolling)))
  | doneIo hrunning hframe => exact h.of_same rfl (congrArg _ (BatchQueue.waiting_finish hrunning))
  | runBase hfront =>
      refine h.of_same rfl ?_
      simp [IoFunctor.isNotice]
  | _ => exact h.of_same rfl rfl

/-! ## Whole runs -/

/-- The histories of all runs. -/
def Kept (h : Session (Option HTTPContext) × History) : Prop :=
  h.1.fault = none → Parsed h ∧ Entered h

theorem kept_start : Kept (start none, []) := by
  refine fun _ => ⟨⟨lifetime_start none, iff_of_true ?_ rfl, fun _ => rfl, fun c hc => ?_⟩, rfl⟩
  · simp [Unopened, start]
  · cases hc

theorem kept_step (h : Session (Option HTTPContext) × History) (l : Label Environment)
    (h' : Session (Option HTTPContext) × History) (hkept : Kept h)
    (hrecord : Runs.record (step userCode) h l = some h') : Kept h' := by
  obtain ⟨s, past⟩ := h
  obtain ⟨s', past'⟩ := h'
  obtain ⟨hstep, rfl⟩ := Runs.record_eq_some hrecord
  intro halive
  obtain ⟨hparsed, hentered⟩ := hkept (step_fault hstep)
  exact ⟨parsed_move hparsed hstep halive, entered_move hentered (step_cases hstep halive) halive⟩

/-- A write-complete functor that runs has answers to report. -/
theorem entered_run {ls : List (Label Environment)} {h : Session (Option HTTPContext) × History}
    (hrun : Runs.exec (Runs.record (step userCode)) (start none, []) ls = some h)
    (halive : h.1.fault = none) : Entered h :=
  (Runs.exec_preserves kept_step kept_start hrun halive).2

/-- `handleWriteComplete` decides by the bytes received since. -/
theorem shutdown_mem_iff {h : Session (Option HTTPContext) × History} (hparsed : Parsed h)
    {c : HTTPContext} (hc : c ∈ h.1.context) :
    .shutdown ∈ handleWriteComplete c ↔ (fed (since h.2)).shouldKeepAlive = false := by
  rw [← hparsed.parser c hc]
  rcases handleWriteComplete_cases c with ⟨hkeep, hcalls⟩ | ⟨hkeep, hcalls⟩ <;> simp [hkeep, hcalls]

/-- A write-complete functor runs only after `handleConnection`. -/
theorem context_of_reports {h : Session (Option HTTPContext) × History} (hparsed : Parsed h)
    {l : Label Environment} (hl : reports h.1 l = true) : ∃ c, h.1.context = some c := by
  refine Option.ne_none_iff_exists'.mp fun hnone => ?_
  have hio := (hparsed.lifetime.fresh (hparsed.unopened.mpr hnone)).io
  cases l with
  | runIo w env =>
      simp only [reports] at hl
      split at hl
      · rename_i buf hfront
        rw [BatchQueue.waiting_start hfront] at hio
        cases (List.cons.inj hio).1
      · cases hl
  | _ => cases hl

/-- In every run of the server's callbacks on a connection, `handleWriteComplete`
    decides by the requests that are answered exactly if the bytes received since
    ask for the same. -/
theorem decidesByRequest_run_iff {ls : List (Label Environment)}
    {h : Session (Option HTTPContext) × History}
    (hrun : Runs.exec (Runs.record (step userCode)) (start none, []) ls = some h) :
    Runs.Along (Runs.record (step userCode)) DecidesByRequest (start none, []) ls ↔
      Runs.Along (Runs.record (step userCode)) RestAgrees (start none, []) ls := by
  refine Runs.along_congr_of_exec kept_step (fun h l h' hkept hrecord => ?_) kept_start hrun
  obtain ⟨hstep, -⟩ := Runs.record_eq_some hrecord
  have hparsed := (hkept (step_fault hstep)).1
  refine imp_congr_right fun hl => forall₄_congr fun verdicts _ keepAlive _ => ?_
  obtain ⟨c, hc⟩ := context_of_reports hparsed hl
  constructor
  · intro hdecides
    have hiff := (shutdown_mem_iff hparsed hc).symm.trans (hdecides c hc)
    cases hkeep : keepAlive with
    | true => simpa [hkeep] using hiff
    | false => simpa [hkeep] using hiff
  · intro hagrees c' hc'
    rw [shutdown_mem_iff hparsed hc', hagrees]

/-- A request that asks to close the connection. -/
def asksToClose : Label Environment :=
  .readable [.data ⟨bytes "GET /a HTTP/1.1\r\nConnection: close\r\n\r\n", by decide, by decide⟩,
    .error .eagain] .empty

/-- It is answered, all of the answer leaves, and the write-complete callback runs. -/
def closes : List (Label Environment) :=
  comes ++ asksToClose :: (answers 186).tail ++ completesWrite

theorem decidesByRequest_run_iff_close :
    ∃ h, Runs.exec (Runs.record (step userCode)) (start none, []) closes = some h ∧
      shutdownCalled h.2 = true ∧
      Runs.Along (Runs.record (step userCode)) DecidesByRequest (start none, []) closes := by
  have hrun : ((Runs.exec (Runs.record (step userCode)) (start none, []) closes).any
      fun h => shutdownCalled h.2) = true := by
    decide +kernel
  obtain ⟨h, hh, hcalled⟩ := Option.any_eq_true _ _ |>.mp hrun
  exact ⟨h, hh, hcalled, (decidesByRequest_run_iff hh).mpr (by decide +kernel)⟩

/-- The request does not ask to close the connection, but `shutdown()` is called. -/
theorem not_decidesByRequest :
    ¬ ∀ (ls : List (Label Environment)) (h : Session (Option HTTPContext) × History),
      Runs.exec (Runs.record (step userCode)) (start none, []) ls = some h →
        Runs.Along (Runs.record (step userCode)) DecidesByRequest (start none, []) ls := by
  intro hclaim
  have hrun : (Runs.exec (Runs.record (step userCode)) (start none, [])
      (comes ++ answers 186 ++ completesWrite)).isSome = true := by
    decide +kernel
  obtain ⟨h, hh⟩ := Option.isSome_iff_exists.mp hrun
  exact absurd (hclaim _ h hh) (by decide +kernel)

end HTTPServer

end QGServer
