-- SUMMARY: What a step of a session can do while the process lives.
import QGServer.Core.Session

/-!
# Moves

One lemma says everything a step can do that does not end the process. The
invariants of sessions are proved from it, and from an induction rule for the
requests of a member function.
-/

namespace QGServer

namespace Session

variable {κ ε : Type*} {user : UserCode κ ε} {s s' : Session κ} {l : Label ε}

/-! ## Effects -/

theorem request_of_fault (e : Effect) (h : s.fault ≠ none) : s.request e = s := by
  have hsome : s.fault.isSome = true := Option.isSome_iff_ne_none.mpr h
  simp [request, hsome]

theorem foldl_request_of_fault (es : List Effect) (h : s.fault ≠ none) :
    es.foldl request s = s := by
  induction es with
  | nil => rfl
  | cons e es ih => rw [List.foldl_cons, request_of_fault e h, ih]

/-- A request that lets the process live was carried out. -/
theorem request_alive (e : Effect) (h : (s.request e).fault = none) :
    s.fault = none ∧ s.request e = s.carryOut e := by
  by_cases hfault : s.fault = none
  · exact ⟨hfault, by simp [request, hfault]⟩
  · rw [request_of_fault e hfault] at h
    exact absurd h hfault

/-- The induction rule of effects: what each request that lets the process live
    preserves holds after all of them. -/
theorem foldl_request_induction {P : Session κ → Prop} {es : List Effect}
    (hstep : ∀ (t : Session κ) (e : Effect), e ∈ es → t.fault = none →
      (t.carryOut e).fault = none → P t → P (t.carryOut e))
    (hs : P s) (h : (es.foldl request s).fault = none) : P (es.foldl request s) := by
  induction es generalizing s with
  | nil => exact hs
  | cons e es ih =>
      rw [List.foldl_cons] at h ⊢
      have halive : (s.request e).fault = none := by
        by_contra hfault
        rw [foldl_request_of_fault es hfault] at h
        exact hfault h
      obtain ⟨hfault, hcarry⟩ := request_alive e halive
      rw [hcarry] at halive h ⊢
      exact ih (fun t e he => hstep t e (by simp [he]))
        (hstep s e (by simp) hfault halive hs) h

/-! ## Steps that let the process live -/

/-- Everything a step that lets the process live can do. -/
inductive Move (user : UserCode κ ε) (s : Session κ) : Label ε → Session κ → Prop where
  | message {rs env buf c context calls} (hpolling : s.polling = true)
      (hreading : s.conn.eventHandler.isReading = true) (hlives : s.alive = true)
      (hrs : s.conn.handleRead rs = some (.message buf, c, []))
      (huser : user.message env buf s.context = .ok (context, calls)) :
      Move user s (.readable rs env)
        { s with conn := c, context := context, frame := some ⟨calls, true⟩ }
  | readClose {rs env c} (hpolling : s.polling = true)
      (hreading : s.conn.eventHandler.isReading = true) (hlives : s.alive = true)
      (hrs : s.conn.handleRead rs = some (.close, c, [])) :
      Move user s (.readable rs env) (s.perform c.close)
  | readError {rs env c} (hpolling : s.polling = true)
      (hreading : s.conn.eventHandler.isReading = true) (hlives : s.alive = true)
      (hrs : s.conn.handleRead rs = some (.error, c, [])) :
      Move user s (.readable rs env) (s.perform c.handleClose)
  | writable {w r} (hpolling : s.polling = true)
      (hwriting : s.conn.eventHandler.isWriting = true) (hlives : s.alive = true)
      (hw : s.conn.handleWrite w = .ok r) :
      Move user s (.writable w) (s.perform r)
  | call {c calls fromRead} (hframe : s.frame = some ⟨c :: calls, fromRead⟩) :
      Move user s .call (perform (c.run s.conn) { s with frame := some ⟨calls, fromRead⟩ })
  | leave {fromRead} (hframe : s.frame = some ⟨[], fromRead⟩) :
      Move user s .leave
        { s with frame := none, conn := if fromRead then s.conn.handleReadEnd else s.conn }
  | popIo (hpolling : s.polling = true) : Move user s .popIo { s with io := s.io.popAll }
  | handleConnection {w env context calls} (hfront : s.io.front = some .handleConnection)
      (huser : user.connectionCome env s.context = .ok (context, calls)) :
      Move user s (.runIo w env)
        { perform s.conn.handleConnection { s with io := s.io.start } with
          context := context, frame := some ⟨calls, false⟩ }
  | writeInLoop {data w env r} (hfront : s.io.front = some (.writeInLoop data))
      (hlives : alive { s with io := s.io.start } = true) (hw : s.conn.writeInLoop data w = .ok r) :
      Move user s (.runIo w env) (perform r { s with io := s.io.start })
  | writeComplete {buf w env context calls} (hfront : s.io.front = some (.writeComplete buf))
      (huser : user.writeComplete env buf s.context = .ok (context, calls)) :
      Move user s (.runIo w env)
        { s with io := s.io.start, context := context, frame := some ⟨calls, false⟩ }
  | closeConnection {w env} (hfront : s.io.front = some .closeConnection) :
      Move user s (.runIo w env) (perform s.conn.closeConnection { s with io := s.io.start })
  | doneIo (hrunning : s.io.running = true) (hframe : s.frame = none) :
      Move user s .doneIo { s with io := s.io.finish }
  | popBase (hidle : s.base.idle = true) : Move user s .popBase { s with base := s.base.popAll }
  | runBase (hfront : s.base.front = some .handleConnectionClose) :
      Move user s .runBase
        { s with base := s.base.start, entry := false, io := s.io.push .closeConnection }
  | doneBase (hrunning : s.base.running = true) :
      Move user s .doneBase { s with base := s.base.finish }

theorem throughThis_alive {f : Session κ → Session κ} (h : (s.throughThis f).fault = none) :
    s.alive = true ∧ s.throughThis f = f s := by
  unfold throughThis at h ⊢
  split
  · exact ⟨‹_›, rfl⟩
  · rename_i hdead
    rw [if_neg hdead] at h
    simp [fail] at h

theorem attempt_alive {r : Except Thrown Result} (h : (s.attempt r).fault = none) :
    ∃ r', r = .ok r' ∧ s.attempt r = s.perform r' := by
  cases r with
  | ok r => exact ⟨r, rfl, rfl⟩
  | error e => simp [attempt, fail] at h

theorem enter_alive {r : Except Fault (κ × List Call)} {fromRead : Bool}
    (h : (s.enter r fromRead).fault = none) :
    ∃ context calls, r = .ok (context, calls) ∧
      s.enter r fromRead = { s with context := context, frame := some ⟨calls, fromRead⟩ } := by
  cases r with
  | ok r => exact ⟨r.1, r.2, rfl, rfl⟩
  | error e => simp [enter, fail] at h

theorem step_fault (h : s.step user l = some s') : s.fault = none := by
  unfold step at h
  split at h
  · cases h
  · rename_i hfault
    simpa using hfault

theorem step_cases (h : s.step user l = some s') (halive : s'.fault = none) :
    Move user s l s' := by
  have hfault : ¬ s.fault.isSome = true := by simp [step_fault h]
  unfold step at h
  rw [if_neg hfault] at h
  cases l with
  | readable rs env =>
      simp only [Option.ite_none_right_eq_some, Bool.and_eq_true] at h
      obtain ⟨⟨hpolling, hreading⟩, h⟩ := h
      unfold handleRead at h
      split at h
      · rename_i buf c hrs
        obtain rfl := Option.some.inj h
        obtain ⟨hlives, hthis⟩ := throughThis_alive halive
        rw [hthis] at halive ⊢
        obtain ⟨context, calls, huser, henter⟩ := enter_alive halive
        rw [henter]
        exact .message hpolling hreading hlives hrs huser
      · rename_i c hrs
        obtain rfl := Option.some.inj h
        obtain ⟨hlives, hthis⟩ := throughThis_alive halive
        rw [hthis]
        exact .readClose hpolling hreading hlives hrs
      · rename_i c hrs
        obtain rfl := Option.some.inj h
        obtain ⟨hlives, hthis⟩ := throughThis_alive halive
        rw [hthis]
        exact .readError hpolling hreading hlives hrs
      · cases h
  | writable w =>
      simp only [Option.ite_none_right_eq_some, Bool.and_eq_true, Option.some.injEq] at h
      obtain ⟨⟨hpolling, hwriting⟩, rfl⟩ := h
      obtain ⟨hlives, hthis⟩ := throughThis_alive halive
      rw [hthis] at halive ⊢
      obtain ⟨r, hw, hattempt⟩ := attempt_alive halive
      rw [hattempt]
      exact .writable hpolling hwriting hlives hw
  | call =>
      simp only at h
      split at h
      · rename_i hframe
        obtain rfl := Option.some.inj h
        exact .call hframe
      · cases h
  | leave =>
      simp only at h
      split at h
      · rename_i hframe
        obtain rfl := Option.some.inj h
        exact .leave hframe
      · cases h
  | popIo =>
      simp only [Option.ite_none_right_eq_some, Option.some.injEq] at h
      obtain ⟨hpolling, rfl⟩ := h
      exact .popIo hpolling
  | runIo w env =>
      simp only at h
      split at h
      · rename_i f hframe hfront
        obtain rfl := Option.some.inj h
        cases f with
        | handleConnection =>
            obtain ⟨context, calls, huser, henter⟩ := enter_alive halive
            rw [runIo, henter]
            exact .handleConnection hfront huser
        | writeInLoop data =>
            obtain ⟨hconn, hthis⟩ := throughThis_alive halive
            simp only [runIo] at halive ⊢
            rw [hthis] at halive ⊢
            obtain ⟨r, hw, hattempt⟩ := attempt_alive halive
            rw [hattempt]
            exact .writeInLoop hfront hconn hw
        | writeComplete buf =>
            obtain ⟨context, calls, huser, henter⟩ := enter_alive halive
            rw [runIo, henter]
            exact .writeComplete hfront huser
        | closeConnection =>
            rw [runIo]
            exact .closeConnection hfront
      · cases h
  | doneIo =>
      simp only [Option.ite_none_right_eq_some, Bool.and_eq_true, Option.isNone_iff_eq_none,
        Option.some.injEq] at h
      obtain ⟨⟨hrunning, hframe⟩, rfl⟩ := h
      exact .doneIo hrunning hframe
  | popBase =>
      simp only [Option.ite_none_right_eq_some, Option.some.injEq] at h
      obtain ⟨hidle, rfl⟩ := h
      exact .popBase hidle
  | runBase =>
      simp only at h
      split at h
      · rename_i hfront
        obtain rfl := Option.some.inj h
        exact .runBase hfront
      · cases h
  | doneBase =>
      simp only [Option.ite_none_right_eq_some, Option.some.injEq] at h
      obtain ⟨hrunning, rfl⟩ := h
      exact .doneBase hrunning

end Session
end QGServer
