-- SUMMARY: The server's accounting over all runs: closes happen once, handlers are found, and the connection counter is exact.
import Mathlib.Algebra.BigOperators.Group.Finset.Basic
import QGServer.Core.Registry

/-!
# Accounting

What the sessions say of each connection, put together for the server: while
every callback closes in time, `closeConnection` runs at most once for a
connection, it finds the handler of the connection registered, and
`connection_number_` is the number of the connections that are not closed.
-/

namespace QGServer

namespace Server

variable {κ ε : Type*} {s s' : Server κ} {user : UserCode κ ε} {context : κ} {l : Label ε}

/-! ## Conditions on steps -/

/-- The call that a step makes, with its connection. -/
def callMade (s : Server κ) : Label ε → Option (Nat × Call)
  | .call j =>
    match (s.loops j).frame with
    | some (i, ⟨c :: _, _⟩) => some (i, c)
    | _ => none
  | _ => none

/-- A callback calls `close` only on a connection that still reads or has content
    to send. -/
def ClosesInTime (s : Server κ) (l : Label ε) : Prop :=
  ∀ p ∈ s.callMade l, p.2 = .close →
    (s.connection p.1).conn.eventHandler.isReading = true ∨
      (s.connection p.1).conn.hasContentToSend = true

instance (s : Server κ) (l : Label ε) : Decidable (ClosesInTime s l) :=
  inferInstanceAs (Decidable (∀ p ∈ s.callMade l, _))

/-- The connection whose `closeConnection` a step runs. -/
def closes (s : Server κ) : Label ε → Option Nat
  | .run j _ _ =>
    match s.fault, (s.loops j).frame, (s.loops j).queue.front with
    | none, none, some (.io i .closeConnection) => some i
    | _, _, _ => none
  | _ => none

/-- `removeHandler` finds the handler it is asked to remove. -/
def RemovesRegistered (s : Server κ) (l : Label ε) : Prop :=
  ∀ i ∈ s.closes l, (s.handlerOf i).isSome = true

instance (s : Server κ) (l : Label ε) : Decidable (RemovesRegistered s l) :=
  inferInstanceAs (Decidable (∀ i ∈ s.closes l, _))

/-- The number of connections whose `closeConnection` has run. -/
def closedCount (s : Server κ) : Nat :=
  (List.range s.constructed).countP fun i => 0 < (s.connection i).closed

/-- A callback that closes in time closes in time in its session. -/
theorem along_sessionLabels (ho : s.Owned) (h : s.ClosesInTime l) (i : Nat) :
    Runs.Along (Session.step user) Session.ClosesInTime (s.session i) (s.sessionLabels i l) := by
  have hquiet : ∀ ls : List (Session.Label ε), (∀ l ∈ ls, l ≠ .call) →
      ∀ σ : Session κ, Runs.Along (Session.step user) Session.ClosesInTime σ ls := by
    intro ls
    induction ls with
    | nil => intros; trivial
    | cons l' ls ih =>
        intro hls σ
        refine ⟨fun hcall => ?_, fun σ' _ => ih (fun l hl => hls l (by simp [hl])) σ'⟩
        have hne := hls l' (by simp)
        cases l' <;> simp_all [Session.callMade]
  cases l with
  | call j =>
      simp only [sessionLabels]
      split
      · rename_i hany
        obtain ⟨⟨k, f⟩, hf, hk⟩ := (Option.any_eq_true _ _).mp hany
        obtain rfl : k = i := by simpa using hk
        obtain ⟨hkn, rfl⟩ := ho.frames _ _ _ hf
        refine ⟨fun hcall => ?_, fun _ _ => trivial⟩
        have hframe : (s.session k).frame = some f := by simp [session, hf]
        obtain ⟨calls, fromRead⟩ := f
        cases calls with
        | nil => simp [Session.callMade, hframe] at hcall
        | cons c calls =>
            obtain rfl : c = .close := by simpa [Session.callMade, hframe] using hcall
            exact h (k, .close) (by simp [callMade, hf]) rfl
      · trivial
  | accept fd => trivial
  | readable k rs env =>
      refine hquiet _ ?_ _
      simp only [sessionLabels]
      split <;> simp
  | writable k w =>
      refine hquiet _ ?_ _
      simp only [sessionLabels]
      split <;> simp
  | leave j =>
      refine hquiet _ ?_ _
      simp only [sessionLabels]
      split <;> simp
  | pop j =>
      refine hquiet _ ?_ _
      simp only [sessionLabels]
      split <;> split <;> simp
  | run j w env =>
      refine hquiet _ ?_ _
      simp only [sessionLabels]
      split
      · split <;> simp
      · split <;> simp
      · simp
  | done j =>
      refine hquiet _ ?_ _
      simp only [sessionLabels]
      split <;> split <;> simp

/-! ## The invariant -/

/-- The total number of runs of `closeConnection`. -/
def closedTotal (s : Server κ) : Nat :=
  (Finset.range s.constructed).sum fun i => (s.connection i).closed

structure Live (s : Server κ) : Prop extends Good s where
  sessions : ∀ i < s.constructed, (s.session i).Lifetime ∧ (s.session i).Once

structure Sound (s : Server κ) : Prop where
  live : s.fault = none → s.Live
  number : s.connectionNumber + s.closedTotal = s.constructed
  closed : ∀ i < s.constructed, (s.connection i).closed ≤ 1

theorem sound_start (context : κ) (threads : Nat) (highWater : Int) :
    (start context threads highWater).Sound := by
  refine ⟨fun _ => ⟨good_start context threads highWater, ?_⟩, ?_, ?_⟩
  · intro i hi
    cases hi
  · simp [start, closedTotal]
  · intro i hi
    cases hi

theorem closedTotal_of_others {k : Nat} (hk : k < s.constructed)
    (hconstructed : s'.constructed = s.constructed)
    (hothers : ∀ i, i ≠ k → (s'.connection i).closed = (s.connection i).closed) :
    s'.closedTotal + (s.connection k).closed = s.closedTotal + (s'.connection k).closed := by
  have hmem : k ∈ Finset.range s.constructed := Finset.mem_range.mpr hk
  unfold closedTotal
  rw [hconstructed, ← Finset.add_sum_erase _ _ hmem, ← Finset.add_sum_erase _ _ hmem]
  have hrest : ((Finset.range s.constructed).erase k).sum (fun i => (s'.connection i).closed)
      = ((Finset.range s.constructed).erase k).sum fun i => (s.connection i).closed :=
    Finset.sum_congr rfl fun i hi => hothers i (Finset.ne_of_mem_erase hi)
  omega

/-- A session whose descriptors stay, in a server whose sessions run on. -/
theorem live_of_sessions (hlive : s.Live) (hconstructed : s'.constructed = s.constructed)
    (hfd : ∀ i, (s'.connection i).fd = (s.connection i).fd) (ho : s'.Owned)
    (hsessions : ∀ i < s.constructed, (s'.session i).Lifetime ∧ (s'.session i).Once ∧
      ((s'.session i).alive = true → (s.session i).alive = true)) : s'.Live := by
  refine ⟨?_, fun i hi => ?_⟩
  · refine good_of_sessions hlive.toGood hconstructed hfd ho (fun i hi => (hsessions i hi).2.2)
      fun i hi hreg => ?_
    obtain ⟨hlife, honce, -⟩ := hsessions i hi
    exact Session.alive_of_registered hlife honce hreg
  · obtain ⟨hlife, honce, -⟩ := hsessions i (hconstructed ▸ hi)
    exact ⟨hlife, honce⟩

theorem live_accept {fd : Nat} (hlive : s.Live) (hfault : s.fault = none)
    (hfree : s.fdFree fd = true) : (s.handleNewCon context fd).Live := by
  refine ⟨good_accept hlive.toGood hfault hfree, fun i hi => ?_⟩
  rcases lt_constructed_handleNewCon hi with hi | rfl
  · rw [session_handleNewCon_of_lt hfree hi]
    exact hlive.sessions i hi
  · rw [session_handleNewCon hlive.toOwned hfault]
    exact ⟨Session.lifetime_start context, Session.once_start context⟩

theorem sound_accept {fd : Nat} (h : s.Sound) (hfault : s.fault = none)
    (hfree : s.fdFree fd = true) : (s.handleNewCon context fd).Sound := by
  have hold : ∀ i < s.constructed,
      ((s.handleNewCon context fd).connection i).closed = (s.connection i).closed := by
    intro i hi
    simp [handleNewCon, Function.update_of_ne hi.ne]
  have hnew : ((s.handleNewCon context fd).connection s.constructed).closed = 0 := by
    simp [handleNewCon]
  refine ⟨fun _ => live_accept (h.live hfault) hfault hfree, ?_, fun i hi => ?_⟩
  · have htotal : (s.handleNewCon context fd).closedTotal = s.closedTotal := by
      unfold closedTotal
      change (Finset.range (s.constructed + 1)).sum _ = _
      rw [Finset.sum_range_succ, hnew, Nat.add_zero]
      exact Finset.sum_congr rfl fun i hi => hold i (Finset.mem_range.mp hi)
    have hnumber := h.number
    rw [htotal]
    simp only [handleNewCon, addFunctor, setLoop, Nat.cast_add, Nat.cast_one]
    omega
  · rcases Nat.lt_succ_iff_lt_or_eq.mp hi with hi | rfl
    · rw [hold i hi]
      exact h.closed i hi
    · omega

/-- The step that runs `closeConnection` of a connection is its first. -/
theorem closed_le_one {σ σ' : Session κ} {l' : Session.Label ε} (honce : σ.Once)
    (hclosed : σ.closed ≤ 1) (h : σ.step user l' = some σ') : σ'.closed ≤ 1 := by
  rcases Session.closed_step h with ⟨-, heq⟩ | ⟨⟨-, hfront⟩, heq⟩
  · omega
  · have hone := honce.teardowns
    unfold Session.teardowns at hone
    rw [BatchQueue.waiting_start hfront, List.count_cons_self] at hone
    omega

/-- Who counts in a step: one connection that takes a step of its session, or none. -/
theorem step_count (hgood : s.Good) (h : s.step user context l = some s')
    (hl : ∀ fd, l = .accept fd → s' = s) :
    (s'.connectionNumber = s.connectionNumber ∧
        ∀ i, (s'.connection i).closed = (s.connection i).closed) ∨
      ∃ k < s.constructed, (∃ l', (s.session k).step user l' = some (s'.session k)) ∧
        s'.connectionNumber + (s'.connection k).closed
          = s.connectionNumber + (s.connection k).closed ∧
        ∀ i, i ≠ k → (s'.connection i).closed = (s.connection i).closed := by
  rcases step_cases hgood h with ⟨rfl, -⟩ | ⟨fd, rfl, -, hnew⟩ | ⟨k, l', ⟨hk, σ, hacts, hσ⟩, -⟩ |
    ⟨j, rfl⟩ | ⟨j, rfl⟩
  · exact .inl ⟨rfl, fun _ => rfl⟩
  · obtain rfl := hl fd rfl
    exact .inl ⟨rfl, fun _ => rfl⟩
  · refine .inr ⟨k, hk, ⟨l', ?_⟩, hacts.number, fun i hi => ?_⟩
    · rw [hacts.session]
      exact hσ
    · exact congrArg Session.closed (hacts.frame.others i hi)
  · have hfault := step_fault h
    unfold step at h
    simp only [hfault, Option.isSome_none, Bool.false_eq_true, if_false,
      Option.ite_none_right_eq_some, Option.some.injEq] at h
    obtain ⟨-, rfl⟩ := h
    exact .inl ⟨rfl, fun _ => rfl⟩
  · have hfault := step_fault h
    unfold step at h
    simp only [hfault, Option.isSome_none, Bool.false_eq_true, if_false,
      Option.ite_none_right_eq_some, Option.some.injEq] at h
    obtain ⟨-, rfl⟩ := h
    exact .inl ⟨rfl, fun _ => rfl⟩

theorem sound_step (s : Server κ) (l : Label ε) (s' : Server κ) (h : s.Sound)
    (hintime : s.ClosesInTime l) (hstep : s.step user context l = some s') : s'.Sound := by
  have hfault := step_fault hstep
  have hlive := h.live hfault
  rcases step_new_or_frame hstep with ⟨fd, -, hfree, rfl⟩ | hl
  · exact sound_accept h hfault hfree
  · obtain ⟨hconstructed, hfd, -, ho⟩ := step_frame hlive.toGood hstep hl
    refine ⟨fun halive => ?_, ?_, fun i hi => ?_⟩
    · refine live_of_sessions hlive hconstructed hfd ho fun i hi => ?_
      obtain ⟨hlife, honce⟩ := hlive.sessions i hi
      exact Session.once_run hlife honce (along_sessionLabels hlive.toOwned hintime i)
        (step_session hlive.toGood hstep hi) (fault_session halive)
    · have hnumber := h.number
      rcases step_count hlive.toGood hstep hl with ⟨hsame, hclosed⟩ | ⟨k, hk, -, hcount, hothers⟩
      · have htotal : s'.closedTotal = s.closedTotal := by
          unfold closedTotal
          rw [hconstructed]
          exact Finset.sum_congr rfl fun i _ => hclosed i
        rw [hsame, htotal, hconstructed]
        exact hnumber
      · have htotal := closedTotal_of_others hk hconstructed hothers
        rw [hconstructed]
        omega
    · rw [hconstructed] at hi
      have hbefore := h.closed i hi
      rcases step_count hlive.toGood hstep hl with ⟨-, hclosed⟩ | ⟨k, hk, ⟨l', hσ⟩, -, hothers⟩
      · rw [hclosed i]
        exact hbefore
      · by_cases hik : i = k
        · subst hik
          exact closed_le_one (hlive.sessions i hi).2 hbefore hσ
        · rw [hothers i hik]
          exact hbefore

/-! ## All runs -/

/-- If nothing is closed twice, the total counts the closed connections. -/
theorem closedTotal_eq_closedCount (h : ∀ i < s.constructed, (s.connection i).closed ≤ 1) :
    s.closedTotal = s.closedCount := by
  unfold closedTotal closedCount
  generalize s.constructed = n at h ⊢
  induction n with
  | zero => rfl
  | succ n ih =>
      have hn := h n (Nat.lt_succ_self n)
      rw [Finset.sum_range_succ, List.range_succ, List.countP_append,
        ih fun i hi => h i (Nat.lt_succ_of_lt hi)]
      rcases Nat.le_one_iff_eq_zero_or_eq_one.mp hn with hzero | hone
      · simp [hzero]
      · simp [hone]

theorem closes_eq_some {i : Nat} (h : s.closes l = some i) :
    s.fault = none ∧ ∃ j, (s.loops j).queue.front = some (.io i .closeConnection) := by
  unfold closes at h
  split at h
  · rename_i j _ _
    split at h
    · rename_i hfault _ hfront
      obtain rfl := Option.some.inj h
      exact ⟨hfault, j, hfront⟩
    · cases h
  · cases h

/-- `closeConnection` finds the handler that `handleConnection` registered. -/
theorem registered_of_closing {σ : Session κ} (hlife : σ.Lifetime) (honce : σ.Once)
    (hfront : σ.io.front = some .closeConnection) : σ.registered = true := by
  refine honce.registered.mpr ⟨hlife.open_of_front hfront (by simp), ?_⟩
  have hone := honce.teardowns
  unfold Session.teardowns at hone
  rw [BatchQueue.waiting_start hfront, List.count_cons_self] at hone
  omega

theorem removesRegistered_of_sound (s : Server κ) (l : Label ε) (h : s.Sound)
    (_ : s.ClosesInTime l) : s.RemovesRegistered l := by
  intro i hi
  obtain ⟨hfault, j, hfront⟩ := closes_eq_some hi
  have hlive := h.live hfault
  obtain ⟨hk, rfl⟩ := hlive.functors _ _ _ (BatchQueue.mem_all_of_front hfront)
  obtain ⟨hlife, honce⟩ := hlive.sessions i hk
  have hregistered := registered_of_closing hlife honce (mem_io_of_front hfront)
  have hhandler : s.handlerOf i = some i := by simpa [session, handlerOf] using hregistered
  rw [hhandler]
  rfl

/-- The numbers agree: no connection is closed twice, and the counter is the
    number of connections that are not closed. -/
structure Accounted (s : Server κ) : Prop where
  closed : ∀ i < s.constructed, (s.connection i).closed ≤ 1
  number : s.connectionNumber = s.constructed - s.closedCount
  nonneg : 0 ≤ s.connectionNumber

theorem accounted_of_sound (h : s.Sound) : s.Accounted := by
  have htotal := closedTotal_eq_closedCount h.closed
  have hle : s.closedCount ≤ s.constructed := by
    have hcount := List.countP_le_length (p := fun i => decide (0 < (s.connection i).closed))
      (l := List.range s.constructed)
    rwa [List.length_range] at hcount
  have hnumber := h.number
  refine ⟨h.closed, ?_, ?_⟩ <;> omega

/-- In every run whose callbacks close in time, every state reached is accounted
    for and `removeHandler` always finds its handler. -/
theorem accounting (user : UserCode κ ε) (context : κ) (threads : Nat) (highWater : Int)
    {ls : List (Label ε)} {s : Server κ}
    (hintime : Runs.Along (step user context) ClosesInTime (start context threads highWater) ls)
    (h : Runs.exec (step user context) (start context threads highWater) ls = some s) :
    s.Accounted ∧
      Runs.Along (step user context) RemovesRegistered (start context threads highWater) ls := by
  have hsound := sound_start context threads highWater
  exact ⟨accounted_of_sound (Runs.exec_invariant sound_step hsound hintime h),
    Runs.along_of_invariant sound_step removesRegistered_of_sound hsound hintime⟩

/-! ## Runs with one and with two closes -/

/-- A user that answers every message with itself and closes when the answer is out. -/
def answersOnce : UserCode Unit Unit where
  connectionCome _ _ := .ok ((), [])
  message _ buf _ := .ok ((), [.write buf])
  writeComplete _ _ _ := .ok ((), [.close])

/-- A user that closes twice when a message comes. -/
def closesTwice : UserCode Unit Unit where
  connectionCome _ _ := .ok ((), [])
  message _ _ _ := .ok ((), [.close, .close])
  writeComplete _ _ _ := .ok ((), [])

/-- Two connections come, and a message on the first one. -/
def opened : List (Label Unit) :=
  [.accept 7, .accept 8, .pop 1, .run 1 ⟨0, []⟩ (), .leave 1, .done 1,
    .run 1 ⟨0, []⟩ (), .leave 1, .done 1,
    .readable 0
      [.data ⟨[97], Nat.one_pos, TcpConnection.one_le_defaultReadBuffSize⟩, .error .eagain] ()]

/-- The message is answered, and the first connection is torn down. -/
def answeredOnce : List (Label Unit) :=
  opened ++ [.call 1, .leave 1, .pop 1, .run 1 ⟨1, [97]⟩ (), .done 1,
    .pop 1, .run 1 ⟨0, []⟩ (), .call 1, .leave 1, .done 1,
    .pop 0, .run 0 ⟨0, []⟩ (), .done 0, .pop 1, .run 1 ⟨0, []⟩ (), .done 1]

/-- Both closes go their way to the base loop and back. -/
def closedTwice : List (Label Unit) :=
  opened ++ [.call 1, .call 1, .leave 1,
    .pop 0, .run 0 ⟨0, []⟩ (), .done 0, .run 0 ⟨0, []⟩ (), .done 0,
    .pop 1, .run 1 ⟨0, []⟩ (), .done 1, .run 1 ⟨0, []⟩ ()]

/-- A run whose callbacks close in time: one of two connections is left. -/
theorem accounting_answeredOnce :
    ∃ s, Runs.exec (step answersOnce ()) (start () 1 100) answeredOnce = some s ∧ s.Accounted ∧
      Runs.Along (step answersOnce ()) RemovesRegistered (start () 1 100) answeredOnce := by
  have hintime : Runs.Along (step answersOnce ()) ClosesInTime (start () 1 100) answeredOnce := by
    decide +kernel
  have hrun : (Runs.exec (step answersOnce ()) (start () 1 100) answeredOnce).isSome = true := by
    decide +kernel
  obtain ⟨s, hs⟩ := Option.isSome_iff_exists.mp hrun
  exact ⟨s, hs, accounting answersOnce () 1 100 hintime hs⟩

/-- `closeConnection` runs twice: the counter is wrong, and the second run finds
    no handler. -/
theorem accounting_closedTwice :
    ¬ ∀ (user : UserCode Unit Unit) (ls : List (Label Unit)) (s : Server Unit),
        Runs.exec (step user ()) (start () 1 100) ls = some s →
          s.Accounted ∧ Runs.Along (step user ()) RemovesRegistered (start () 1 100) ls := by
  intro h
  have hrun : (Runs.exec (step closesTwice ()) (start () 1 100) closedTwice).isSome = true := by
    decide +kernel
  obtain ⟨s, hs⟩ := Option.isSome_iff_exists.mp hrun
  exact absurd (h closesTwice closedTwice s hs).2 (by decide +kernel)

end Server

end QGServer
