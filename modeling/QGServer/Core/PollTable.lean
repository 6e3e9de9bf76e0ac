-- SUMMARY: What the tables of the pollers come to: write readiness is never asked for, and when a handler can be removed.
import QGServer.Core.Accounting
import QGServer.Core.PolledServer

/-!
# The poll tables over all runs

The entry of a connection has in `events` exactly the interest of the
connection. But the bits of `EventMode` are the `si_code` values: `kEventWrite`
is the bit that `poll` calls `POLLPRI`, and `POLLOUT` is the bit of
`kEventError`, which no connection is ever interested in.

`removeHandler` finds the entry of its handler under its index whatever was
removed before; that the entry has no event is up to the polls since
`handleClose`.
-/

namespace QGServer

namespace PolledServer

variable {κ ε : Type*} {fds : OwnFds} {user : UserCode κ ε} {context : κ}

/-! ## Write readiness -/

/-- Connection `i` is registered, has output in `write_buf_`, and `handleClose`
    has not been called. -/
def WantsWrite (p : PolledServer κ) (i : Nat) : Prop :=
  i < p.server.constructed ∧ (p.server.session i).registered = true ∧
    (p.server.connection i).conn.writeBuf ≠ [] ∧ ¬ (p.server.session i).Closing

/-- The entry under the index of the connection asks for `POLLOUT`. -/
def AsksPollOut (p : PolledServer κ) (i : Nat) : Prop :=
  ((p.pollerOf i).entry (.connection i)).any (fun pfd => pfd.events &&& POLLOUT != 0) = true

instance (s : Session κ) : Decidable s.Closing :=
  inferInstanceAs (Decidable (_ ∨ _ ∨ _))

instance (p : PolledServer κ) (i : Nat) : Decidable (p.WantsWrite i) :=
  inferInstanceAs (Decidable (_ ∧ _))

instance (p : PolledServer κ) (i : Nat) : Decidable (p.AsksPollOut i) :=
  inferInstanceAs (Decidable (_ = _))

/-- The entry of a registered connection has its descriptor and its interest. -/
theorem Linked.entry {s : PolledServer κ × History κ ε} (h : Linked fds s) {i : Nat}
    (hi : i < s.1.server.constructed) (hreg : (s.1.server.session i).registered = true) :
    ∃ pfd, (s.1.pollerOf i).entry (.connection i) = some pfd ∧
      pfd.fd = (s.1.server.connection i).fd ∧
      pfd.events = (s.1.server.connection i).conn.eventHandler.ievents.setWidth 16 ∧
      pfd.revents = lastReport i s.2 := by
  have hconn := h.connections i hi
  have hok := h.pollers (s.1.server.connection i).loop
  have hregistered := hconn.registered.mpr hreg
  obtain ⟨pfd, hpfd, hfd⟩ := hok.wf.entry_of_registered hregistered
  have hview : (s.1.pollerOf i).view (.connection i) = some pfd :=
    (Pollpoller.view_of_registered hregistered).trans hpfd
  refine ⟨pfd, hpfd, hfd.trans hconn.handle, ?_, ?_⟩
  · rw [hok.synced _ pfd hview]
    exact congrArg (fun x => x.ievents.setWidth 16) hconn.interest
  · have hreport := hconn.reported hreg
    rw [hview] at hreport
    exact Option.some.inj hreport

theorem not_asksPollOut {p : PolledServer κ} (h : p.NoError) (i : Nat) : ¬ p.AsksPollOut i := by
  intro hasks
  obtain ⟨pfd, hpfd, hbit⟩ := (Option.any_eq_true _ _).mp hasks
  have hzero := h _ pfd (List.mem_of_getElem? hpfd)
  rw [bne_iff_ne] at hbit
  apply hbit
  have htwo : POLLOUT = BitVec.twoPow 16 2 := by decide
  rw [htwo, BitVec.and_twoPow, hzero]
  rfl

/-- In every state reached, the claim on write readiness is met only where no
    connection has output to wait for. -/
theorem writeReadiness_iff (fds : OwnFds) (user : UserCode κ ε) (context : κ) (threads : Nat)
    (highWater : Int) {ls : List (Label ε)} {p : PolledServer κ}
    (h : Runs.exec (step fds user context) (start fds context threads highWater) ls = some p) :
    (∀ i, p.WantsWrite i → p.AsksPollOut i) ↔ ∀ i, ¬ p.WantsWrite i := by
  obtain ⟨past, hinv⟩ := invariant_of_exec h
  exact forall_congr' fun i => iff_of_eq
    (congrArg (p.WantsWrite i → ·) (eq_false (not_asksPollOut hinv.noError i)))

/-- The pipes of the wakers and the listening socket of the runs below. -/
def ownFds : OwnFds := { waker := fun j => 2 * j + 3, accepter := 4, distinct := by decide }

/-- A connection comes to loop 1 and gets the descriptor 7. -/
def connected : List (Label Unit) :=
  [.server (.accept 7), .server (.pop 1), .server (.run 1 ⟨0, []⟩ ()), .server (.leave 1),
    .server (.done 1)]

/-- A message comes, and its first call is made. -/
def messageCame : List (Label Unit) :=
  [.wait 1 (.ready fun fd => if fd = 7 then 0x1 else 0),
    .server (.readable 0
      [.data ⟨[97], Nat.one_pos, TcpConnection.one_le_defaultReadBuffSize⟩, .error .eagain] ()),
    .server (.call 1), .server (.leave 1)]

/-- The socket takes nothing of the answer. -/
def answerBlocked : List (Label Unit) :=
  connected ++ messageCame ++ [.server (.pop 1), .server (.run 1 ⟨0, []⟩ ()), .server (.done 1)]

/-- When the connection has come nothing waits to be written, and later the answer does. -/
theorem writeReadiness_iff_connected :
    ∃ p q, Runs.exec (step ownFds Session.talker ()) (start ownFds () 1 100) connected = some p ∧
      Runs.exec (step ownFds Session.talker ()) (start ownFds () 1 100) answerBlocked = some q ∧
      ¬ p.WantsWrite 0 ∧ q.WantsWrite 0 ∧
      ((∀ i, p.WantsWrite i → p.AsksPollOut i) ↔ ∀ i, ¬ p.WantsWrite i) ∧
      ((∀ i, q.WantsWrite i → q.AsksPollOut i) ↔ ∀ i, ¬ q.WantsWrite i) := by
  have hconnected : (Runs.exec (step ownFds Session.talker ()) (start ownFds () 1 100)
      connected).any (fun p => decide (¬ p.WantsWrite 0)) = true := by
    decide +kernel
  have hblocked : (Runs.exec (step ownFds Session.talker ()) (start ownFds () 1 100)
      answerBlocked).any (fun q => decide (q.WantsWrite 0)) = true := by
    decide +kernel
  obtain ⟨p, hp, hquiet⟩ := (Option.any_eq_true _ _).mp hconnected
  obtain ⟨q, hq, hwants⟩ := (Option.any_eq_true _ _).mp hblocked
  exact ⟨p, q, hp, hq, of_decide_eq_true hquiet, of_decide_eq_true hwants,
    writeReadiness_iff ownFds Session.talker () 1 100 hp,
    writeReadiness_iff ownFds Session.talker () 1 100 hq⟩

/-- An answer that the socket does not take waits without `POLLOUT`. -/
theorem writeReadiness_blocked :
    ¬ ∀ (ls : List (Label Unit)) (p : PolledServer Unit),
        Runs.exec (step ownFds Session.talker ()) (start ownFds () 1 100) ls = some p →
          ∀ i, p.WantsWrite i → p.AsksPollOut i := by
  intro h
  have hrun : (Runs.exec (step ownFds Session.talker ()) (start ownFds () 1 100)
      answerBlocked).any (fun p => decide (p.WantsWrite 0 ∧ ¬ p.AsksPollOut 0)) = true := by
    decide +kernel
  obtain ⟨p, hp, hblocked⟩ := (Option.any_eq_true _ _).mp hrun
  obtain ⟨hwants, hnot⟩ := of_decide_eq_true hblocked
  exact hnot (h answerBlocked p hp 0 hwants)

/-! ## Removing handlers -/

/-- The connection whose `closeConnection` gets to `removeHandler` of the poller:
    the loop has found the handler. -/
def removes (p : PolledServer κ) : Label ε → Option Nat
  | .server l => (p.server.closes l).filter fun i => (p.server.handlerOf i).isSome
  | .wait _ _ => none

/-- The assertions at the head of `removeHandler` hold. -/
def AssertionsHold (s : PolledServer κ × History κ ε) (l : Label ε) : Prop :=
  ∀ i ∈ s.1.removes l, (s.1.pollerOf i).Removable (.connection i)

/-- The last `poll` since the last update of its handler, if there was one, has
    reported nothing for the descriptor of the connection. -/
def NothingReported (s : PolledServer κ × History κ ε) (l : Label ε) : Prop :=
  ∀ i ∈ s.1.removes l, lastReport i s.2 = 0

instance (s : PolledServer κ × History κ ε) (l : Label ε) : Decidable (AssertionsHold s l) :=
  inferInstanceAs (Decidable (∀ i ∈ s.1.removes l, _))

/-- `closeConnection` gets to the poller only for a registered connection. -/
theorem Linked.registered_of_removes {s : PolledServer κ × History κ ε} {l : Label ε} {i : Nat}
    (h : Invariant fds s) (hi : s.1.removes l = some i) :
    Linked fds s ∧ i < s.1.server.constructed ∧ (s.1.server.session i).registered = true := by
  cases l with
  | wait j res => cases hi
  | server l =>
      obtain ⟨hcloses, hsome⟩ := Option.filter_eq_some_iff.mp hi
      obtain ⟨hfault, j, hfront⟩ := Server.closes_eq_some hcloses
      have hlinked := h.linked hfault
      obtain ⟨hk, rfl⟩ := hlinked.held.functors _ _ _ (BatchQueue.mem_all_of_front hfront)
      refine ⟨hlinked, hk, ?_⟩
      have halive := Server.alive_of_front rfl hfront
      rw [← Server.isSome_handlerOf (hlinked.held.ownHandler hk halive)]
      exact hsome

/-- Index and map are in order, so only the third assertion can fail. -/
theorem assertionsHold_iff (s : PolledServer κ × History κ ε) (l : Label ε)
    (h : Invariant fds s) : AssertionsHold s l ↔ NothingReported s l := by
  refine forall₂_congr fun i hi => ?_
  obtain ⟨hlinked, hk, hreg⟩ := Linked.registered_of_removes h hi
  obtain ⟨pfd, hpfd, -, -, hrevents⟩ := hlinked.entry hk hreg
  have hwf := (hlinked.pollers (s.1.server.connection i).loop).wf
  have hregistered := (hlinked.connections i hk).registered.mpr hreg
  constructor
  · intro hr
    have hclean := hr.clean
    rw [hpfd] at hclean
    rw [← hrevents]
    exact Option.some.inj hclean
  · intro hzero
    have hindex := hwf.index _ _ hregistered
    have hlt := hwf.places.lt_length (Pollpoller.place_of_registered hregistered)
    refine ⟨⟨hindex, ?_⟩, hregistered, ?_⟩
    · exact (Int.toNat_lt hindex).mp hlt
    · rw [hpfd, Option.map_some, hrevents, hzero]

/-- The assertions hold whenever `closeConnection` gets to them, exactly if no
    last poll has reported anything for the connection that is removed. -/
theorem assertionsHold_run_iff (fds : OwnFds) (user : UserCode κ ε) (context : κ) (threads : Nat)
    (highWater : Int) (ls : List (Label ε)) :
    Runs.Along (Runs.record (step fds user context)) AssertionsHold
        (start fds context threads highWater, []) ls ↔
      Runs.Along (Runs.record (step fds user context)) NothingReported
        (start fds context threads highWater, []) ls :=
  Runs.along_congr_of_preserves invariant_step assertionsHold_iff
    (invariant_start fds context threads highWater)

/-- The callback closes; before `closeConnection` is there, the loop polls once
    more, and the peer has hung up. -/
def hungUpBetween : List (Label Unit) :=
  connected ++ messageCame ++
    [.wait 1 (.ready fun fd => if fd = 7 then 0x10 else 0), .server (.pop 0),
      .server (.run 0 ⟨0, []⟩ ()), .server (.done 0), .server (.pop 1)]

theorem assertionsHold_hungUpBetween :
    ¬ ∀ (user : UserCode Unit Unit) (ls : List (Label Unit)),
        Runs.Along (Runs.record (step ownFds user ())) AssertionsHold
          (start ownFds () 1 100, []) ls := by
  intro h
  have hrun : ((Runs.exec (Runs.record (step ownFds Server.hangsUp ())) (start ownFds () 1 100, [])
      hungUpBetween).any fun s => decide (¬ AssertionsHold s (.server (.run 1 ⟨0, []⟩ ())))) = true := by
    decide +kernel
  obtain ⟨s, hs, hfails⟩ := (Option.any_eq_true _ _).mp hrun
  have hholds := (h Server.hangsUp (hungUpBetween ++ [.server (.run 1 ⟨0, []⟩ ())])).at hs
  exact of_decide_eq_true hfails hholds

end PolledServer

end QGServer
