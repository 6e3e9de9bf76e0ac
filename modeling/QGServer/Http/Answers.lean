-- SUMMARY: What a client decodes of a connection in any run: the documents for the requests that came, in order.
import QGServer.Core.Streams
import QGServer.Http.Exchange
import QGServer.Http.KeepAlive

/-!
# Answers

`documents_run` goes from one end of a connection to the other. The segments
that a client has sent come to `handleMessageCome` one by one; what it writes
goes through the queue and `write_buf_` to the kernel, which takes as much as it
likes. Of the bytes it has taken so far the client decodes a document for each
request that has been answered, the right one, and in the order of the requests.
-/

namespace QGServer

/-! ## What a client decodes -/

/-- A response that is whole is one in a longer stream. -/
theorem stable_decodeResponse : Framing.Stable decodeResponse := by
  intro s t b rest h
  unfold decodeResponse at h ⊢
  simp only [Option.bind_eq_bind] at h ⊢
  obtain ⟨⟨head, behind⟩, hcut, h⟩ := Option.bind_eq_some_iff.mp h
  obtain ⟨n, hlength, h⟩ := Option.bind_eq_some_iff.mp h
  rw [Framing.cutAt_append hcut, Option.bind_some, hlength, Option.bind_some]
  split at h
  · rename_i hle
    cases h
    have hlonger : n ≤ (behind ++ t).length :=
      hle.trans (by rw [List.length_append]; exact Nat.le_add_right _ _)
    dsimp only
    rw [if_pos hlonger, List.take_append_of_le_length hle, List.drop_append_of_le_length hle]
  · cases h

namespace HTTPServer

open HttpParser

section Segments

variable {c c' : HTTPContext} {ls ls' : List (Environment × Bytes)} {calls : List Call}

/-- The first segments are handled as if no more came. -/
theorem handleAll_prefix (hbegins : ls <+: ls') (h : handleAll c ls' = .ok (c', calls)) :
    ∃ c₁ first, handleAll c ls = .ok (c₁, first) ∧ first <+: calls := by
  induction ls' generalizing c ls calls with
  | nil =>
      rw [List.prefix_nil.mp hbegins]
      exact ⟨c, [], rfl, List.nil_prefix⟩
  | cons l ls' ih =>
      cases ls with
      | nil => exact ⟨c, [], rfl, List.nil_prefix⟩
      | cons l₀ ls =>
          obtain ⟨rfl, hrest⟩ := List.cons_prefix_cons.mp hbegins
          obtain ⟨env, data⟩ := l₀
          change (handleMessageCome env data c >>= _) = _ at h
          cases hcome : handleMessageCome env data c with
          | error f =>
              rw [hcome] at h
              cases h
          | ok r =>
              rw [hcome] at h
              change (handleAll r.1 ls' >>= _) = _ at h
              cases hothers : handleAll r.1 ls' with
              | error f =>
                  rw [hothers] at h
                  cases h
              | ok rest =>
                  rw [hothers] at h
                  cases h
                  obtain ⟨c₁, first, hfirst, hcalls⟩ := ih hrest hothers
                  refine ⟨c₁, r.2 ++ first, ?_, (List.prefix_append_right_inj _).mpr hcalls⟩
                  change (handleMessageCome env data c >>= _) = _
                  rw [hcome]
                  change (handleAll r.1 ls >>= _) = _
                  rw [hfirst]
                  rfl

end Segments

end HTTPServer

namespace HTTPServer

open Session HttpParser

variable {s s' : Session (Option HTTPContext)} {l : Label Environment} {past : History}

/-! ## What came and what was written -/

/-- The segment that a step passes to `handleMessageCome`, and what it meets outside. -/
def arrival (s : Session (Option HTTPContext)) (l : Label Environment) : Option (Environment × Bytes) :=
  match l with
  | .readable _ env => (s.received l).map fun buf => (env, buf)
  | _ => none

/-- The segments that have come, the first one first. -/
def arrivals : History → List (Environment × Bytes)
  | [] => []
  | (s, l) :: past => arrivals past ++ (arrival s l).toList

/-- The bytes that callbacks have passed to `write`. -/
def asked : History → Bytes
  | [] => []
  | (s, l) :: past => asked past ++ s.writes l

/-- What the running callback has still to write. -/
def pending (s : Session (Option HTTPContext)) : Bytes :=
  match s.frame with
  | some f => f.calls.flatMap Exchange.written
  | none => []

theorem written_eq_asked {past : History} (h : closeCalled past = false) : written past = asked past := by
  induction past with
  | nil => rfl
  | cons step past ih =>
      obtain ⟨s, l⟩ := step
      change (s.runsClose l || closeCalled past) = false at h
      rw [Bool.or_eq_false_iff] at h
      change (if closeCalled past then written past else written past ++ s.writes l) =
        asked past ++ s.writes l
      rw [h.2, if_neg Bool.false_ne_true, ih h.2]

theorem written_begins (past : History) : written past <+: asked past := by
  induction past with
  | nil => exact List.prefix_rfl
  | cons step past ih =>
      obtain ⟨s, l⟩ := step
      change (if closeCalled past then written past else written past ++ s.writes l) <+:
        asked past ++ s.writes l
      split
      · exact ih.trans (List.prefix_append _ _)
      · rename_i hopen
        rw [written_eq_asked (Bool.eq_false_of_not_eq_true hopen)]

/-! ## One step -/

/-- The context is what the segments have led to, and what they have led to has been
    written, but for what the running callback has still to write. -/
structure Answering (h : Session (Option HTTPContext) × History) : Prop where
  fresh : h.1.context = none → arrivals h.2 = []
  handled : ∃ c calls, handleAll .new (arrivals h.2) = .ok (c, calls) ∧
    (∀ c' ∈ h.1.context, c' = c) ∧ asked h.2 ++ pending h.1 = calls.flatMap Exchange.written

/-- A step without a segment that neither calls nor writes. -/
theorem Answering.of_same (h : Answering (s, past)) (hcontext : s'.context = s.context)
    (hpending : pending s' = pending s) (harrival : arrival s l = none) (hwrites : s.writes l = []) :
    Answering (s', (s, l) :: past) := by
  have harrivals : arrivals ((s, l) :: past) = arrivals past := by
    rw [arrivals, harrival]
    exact List.append_nil _
  have hasked : asked ((s, l) :: past) = asked past := by
    rw [asked, hwrites, List.append_nil]
  obtain ⟨c, calls, hall, hc, hwritten⟩ := h.handled
  refine ⟨fun hnone => ?_, c, calls, ?_, ?_, ?_⟩
  · rw [harrivals]
    exact h.fresh (hcontext ▸ hnone)
  · rw [harrivals]
    exact hall
  · change ∀ c' ∈ s'.context, c' = c
    rw [hcontext]
    exact hc
  · rw [hasked]
    change asked past ++ pending s' = _
    rw [hpending]
    exact hwritten

theorem frame_of_runIo {w : WriteOutcome} {env : Environment}
    (h : step userCode s (.runIo w env) = some s') : s.frame = none := by
  have hfault := step_fault h
  unfold step at h
  simp only [hfault, Option.isSome_none, Bool.false_eq_true, if_false] at h
  split at h
  · rename_i hframe _
    exact hframe
  · cases h

theorem frame_of_polling (h : s.polling = true) : s.frame = none := by
  simp only [polling, Bool.and_eq_true, Option.isNone_iff_eq_none] at h
  exact h.2

/-- The message callback of the server is `handleMessageCome`. -/
theorem handleMessageCome_of_message {env : Environment} {buf : Bytes} {c c' : HTTPContext}
    {calls : List Call} (h : userCode.message env buf (some c) = .ok (some c', calls)) :
    handleMessageCome env buf c = .ok (c', calls) := by
  rw [userCode_message, withContext_some] at h
  cases hcome : handleMessageCome env buf c with
  | error f =>
      rw [hcome] at h
      cases h
  | ok r =>
      rw [hcome] at h
      cases h
      rfl

theorem pending_none (h : s.frame = none) : pending s = [] := by
  unfold pending
  rw [h]

theorem pending_some {f : Frame} (h : s.frame = some f) :
    pending s = f.calls.flatMap Exchange.written := by
  unfold pending
  rw [h]

theorem pending_congr (h : s'.frame = s.frame) : pending s' = pending s := by
  unfold pending
  rw [h]

/-- A segment comes. -/
theorem answering_message {rs : List (KernelRead TcpConnection.defaultReadBuffSize)}
    {env : Environment} {buf : Bytes} {conn : TcpConnection} {context : Option HTTPContext}
    {calls : List Call} (h : Answering (s, past)) (hpolling : s.polling = true)
    (hrs : s.conn.handleRead rs = some (.message buf, conn, []))
    (huser : userCode.message env buf s.context = .ok (context, calls)) :
    Answering ({ s with conn := conn, context := context, frame := some ⟨calls, true⟩ },
      (s, .readable rs env) :: past) := by
  obtain ⟨c₀, c', hcontext, rfl, -⟩ := message_ok huser
  have harrival : arrival s (.readable rs env) = some (env, buf) := by
    simp [arrival, received, hrs]
  rw [hcontext] at huser
  have hcome := handleMessageCome_of_message huser
  obtain ⟨c, before, hall, hc, hwritten⟩ := h.handled
  have hsame : c₀ = c := hc c₀ (by rw [hcontext]; rfl)
  subst hsame
  have hone : handleAll c₀ [(env, buf)] = .ok (c', calls) := by
    change (handleMessageCome env buf c₀ >>= _) = _
    rw [hcome]
    change Except.ok (c', calls ++ []) = _
    rw [List.append_nil]
  change asked past ++ pending s = _ at hwritten
  rw [pending_none (frame_of_polling hpolling), List.append_nil] at hwritten
  refine ⟨fun hnone => (by cases hnone), c', before ++ calls, ?_, ?_, ?_⟩
  · rw [arrivals, harrival]
    exact handleAll_append hall hone
  · intro c₁ hc₁
    exact (Option.some.inj hc₁).symm
  · change (asked past ++ []) ++ calls.flatMap Exchange.written = _
    rw [List.append_nil, hwritten, List.flatMap_append]

/-- The callback makes a call. -/
theorem answering_call {c : Call} {calls : List Call} {fromRead : Bool} (h : Answering (s, past))
    (hframe : s.frame = some ⟨c :: calls, fromRead⟩) :
    Answering (perform (c.run s.conn) { s with frame := some ⟨calls, fromRead⟩ },
      (s, .call) :: past) := by
  have hmade : s.callMade (.call : Label Environment) = some c := callMade_call hframe
  have hwrites : s.writes (.call : Label Environment) = Exchange.written c := by
    unfold writes
    rw [hmade]
    cases c <;> rfl
  have hpending : pending (perform (c.run s.conn) { s with frame := some ⟨calls, fromRead⟩ }) =
      calls.flatMap Exchange.written := (pending_congr (frame_perform _)).trans rfl
  obtain ⟨c₀, before, hall, hc, hwritten⟩ := h.handled
  have harrivals : arrivals ((s, .call) :: past) = arrivals past := List.append_nil _
  refine ⟨fun hnone => ?_, c₀, before, ?_, ?_, ?_⟩
  · rw [harrivals]
    apply h.fresh
    change (perform (c.run s.conn) { s with frame := some ⟨calls, fromRead⟩ }).context = none at hnone
    rw [context_perform] at hnone
    exact hnone
  · rw [harrivals]
    exact hall
  · intro c' hc'
    apply hc
    change c' ∈ (perform (c.run s.conn) { s with frame := some ⟨calls, fromRead⟩ }).context at hc'
    rw [context_perform] at hc'
    exact hc'
  · change asked past ++ s.writes .call ++ pending (perform _ _) = _
    rw [hwrites, hpending, ← hwritten, pending_some hframe, List.flatMap_cons, List.append_assoc]

theorem answering_move (h : Answering (s, past)) (hparsed : Parsed (s, past))
    (hstep : step userCode s l = some s') (halive : s'.fault = none) :
    Answering (s', (s, l) :: past) := by
  cases step_cases hstep halive with
  | message hpolling hreading hlives hrs huser => exact answering_message h hpolling hrs huser
  | readClose hpolling hreading hlives hrs =>
      exact h.of_same (context_perform _) (pending_congr (frame_perform _))
        (by simp [arrival, received, hrs]) rfl
  | readError hpolling hreading hlives hrs =>
      exact h.of_same (context_perform _) (pending_congr (frame_perform _))
        (by simp [arrival, received, hrs]) rfl
  | writable hpolling hwriting hlives hw =>
      exact h.of_same (context_perform _) (pending_congr (frame_perform _)) rfl rfl
  | call hframe => exact answering_call h hframe
  | leave hframe =>
      refine h.of_same rfl ?_ rfl rfl
      rw [pending_some hframe]
      rfl
  | @handleConnection w env context calls hfront huser =>
      obtain ⟨rfl, rfl⟩ := connectionCome_ok huser
      have hnone : s.context = none := by
        apply hparsed.unopened.mp
        simp [Unopened, BatchQueue.waiting_start hfront]
      obtain ⟨c, before, hall, -, hwritten⟩ := h.handled
      have harrivals : arrivals past = [] := h.fresh hnone
      change handleAll .new (arrivals past) = _ at hall
      rw [harrivals] at hall
      cases hall
      refine ⟨fun h => (by cases h), .new, [], ?_, fun c' hc' => (Option.some.inj hc').symm, ?_⟩
      · change handleAll .new (arrivals past ++ []) = _
        rw [harrivals]
        rfl
      · change (asked past ++ []) ++ [] = _
        change asked past ++ pending s = _ at hwritten
        rw [pending_none (frame_of_runIo hstep), List.append_nil] at hwritten
        rw [List.append_nil, List.append_nil]
        exact hwritten
  | writeInLoop hfront hlives hw =>
      exact h.of_same (context_perform _) (pending_congr (frame_perform _)) rfl rfl
  | @writeComplete buf w env context calls hfront huser =>
      obtain ⟨c, hcontext, rfl, hcalls⟩ := writeComplete_ok huser
      refine h.of_same hcontext.symm ?_ rfl rfl
      rw [pending_none (frame_of_runIo hstep)]
      change calls.flatMap Exchange.written = []
      rw [hcalls]
      rcases handleWriteComplete_cases c with ⟨-, hnone⟩ | ⟨-, hone⟩
      · rw [hnone]
        rfl
      · rw [hone]
        rfl
  | closeConnection hfront =>
      exact h.of_same (context_perform _) (pending_congr (frame_perform _)) rfl rfl
  | _ => exact h.of_same rfl rfl rfl rfl

/-! ## Whole runs -/

/-- The histories of all runs. -/
def KeepsAnswering (h : Session (Option HTTPContext) × History) : Prop :=
  Kept h ∧ (h.1.fault = none → Answering h)

theorem keepsAnswering_step (h : Session (Option HTTPContext) × History) (l : Label Environment)
    (h' : Session (Option HTTPContext) × History) (hkeeps : KeepsAnswering h)
    (hrecord : Runs.record (step userCode) h l = some h') : KeepsAnswering h' := by
  refine ⟨kept_step h l h' hkeeps.1 hrecord, ?_⟩
  obtain ⟨s, past⟩ := h
  obtain ⟨s', past'⟩ := h'
  obtain ⟨hstep, rfl⟩ := Runs.record_eq_some hrecord
  intro halive
  have hfault := step_fault hstep
  exact answering_move (hkeeps.2 hfault) (hkeeps.1 hfault).1 hstep halive

theorem answering_run {ls : List (Label Environment)} {h : Session (Option HTTPContext) × History}
    (hrun : Runs.exec (Runs.record (step userCode)) (start none, []) ls = some h)
    (halive : h.1.fault = none) : Answering h := by
  have hstart : KeepsAnswering (start none, []) :=
    ⟨kept_start, fun _ => ⟨fun _ => rfl, .new, [], rfl, fun c hc => (by cases hc), rfl⟩⟩
  exact (Runs.exec_preserves keepsAnswering_step hstart hrun).2 halive

/-! ## What the client has got -/

/-- The bytes that were asked to be written are the first responses. -/
theorem asked_begins {h : Session (Option HTTPContext) × History} {xs : List Exchange}
    (hanswering : Answering h) (hcame : arrivals h.2 <+: xs.flatMap Exchange.segments) :
    asked h.2 ++ pending h.1 <+: xs.flatMap Exchange.response := by
  obtain ⟨c, calls, hall, -, hwritten⟩ := hanswering.handled
  obtain ⟨c₁, first, hfirst, hcalls⟩ := handleAll_prefix hcame (Exchange.handleAll_flatMap xs)
  rw [hall] at hfirst
  cases hfirst
  obtain ⟨rest, hrest⟩ := hcalls
  have hresponses : (xs.map fun x => Call.write x.response).flatMap Exchange.written =
      xs.flatMap Exchange.response := List.flatMap_map _ _ _
  rw [hwritten, ← hresponses, ← hrest, List.flatMap_append]
  exact List.prefix_append _ _

theorem asked_eq {h : Session (Option HTTPContext) × History} {xs : List Exchange}
    (hanswering : Answering h) (hcame : arrivals h.2 = xs.flatMap Exchange.segments)
    (hframe : h.1.frame = none) : asked h.2 = xs.flatMap Exchange.response := by
  obtain ⟨c, calls, hall, -, hwritten⟩ := hanswering.handled
  rw [hcame, Exchange.handleAll_flatMap] at hall
  cases hall
  rw [pending_none hframe, List.append_nil] at hwritten
  rw [hwritten]
  exact List.flatMap_map _ _ _

/-- Whoever moves and however much the kernel takes of what it is offered: what a
    client finds in the bytes the kernel has taken are the documents for its first
    messages, in their order. It finds all of them if all segments have come, the
    callback has returned, nothing is unsent and the connection is still there. -/
theorem documents_run {xs : List Exchange} {ls : List (Label Environment)}
    {h : Session (Option HTTPContext) × History}
    (hok : Runs.Along (Runs.record (step userCode)) TakesPrefix (start none, []) ls)
    (hrun : Runs.exec (Runs.record (step userCode)) (start none, []) ls = some h)
    (halive : h.1.fault = none) (hcame : arrivals h.2 <+: xs.flatMap Exchange.segments) :
    Framing.decodeSome decodeResponse (handedOver h.2) <+: (xs.map fun x => document x.env x.path) ∧
      (arrivals h.2 = xs.flatMap Exchange.segments → h.1.frame = none → h.1.unsent = [] →
        h.1.conn.disconnected = false →
        Framing.decodeAll decodeResponse (handedOver h.2) =
          some (xs.map fun x => document x.env x.path)) := by
  have hstreamed := streamed_run hok hrun halive
  have hanswering := answering_run hrun halive
  refine ⟨?_, fun hall hframe hunsent hopen => ?_⟩
  · apply Framing.decodeSome_prefix stable_decodeResponse
    · intro x _
      have hone := @decodeResponse_responseFor x.env _ x.path_plain _ x.timeOfDay []
      rw [List.append_nil] at hone
      exact hone
    · have hasked : asked h.2 <+: xs.flatMap Exchange.response :=
        (List.prefix_append _ _).trans (asked_begins hanswering hcame)
      exact hstreamed.inOrder.prefix_.trans ((written_begins h.2).trans hasked)
  · have hcomplete := hstreamed.inOrder.complete hopen
    rw [hunsent, List.append_nil, written_eq_asked (hstreamed.notClosed hopen),
      asked_eq hanswering hall hframe] at hcomplete
    rw [hcomplete]
    exact Exchange.decodeAll_responses xs

end HTTPServer

end QGServer
