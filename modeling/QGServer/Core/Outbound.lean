-- SUMMARY: The outbound stream of a connection over all interleavings of its senders: order, exactness and completion notices.
import QGServer.Library.Outbox
import QGServer.Library.Runs
import QGServer.Core.TcpConnection

/-!
# The outbound stream

A connection has two senders, the direct path of `writeInLoop` and `handleWrite`.
The state below adds to the connection what a run has done with its output: the
bytes handed to the kernel, the bytes accepted and the number of write-complete
functors queued. Bytes handed and `write_buf_` together are an outbox, and every
step is one acceptance followed by one transfer, as long as the lengths fit the
`int`s that the code keeps them in.
-/

namespace QGServer

open TcpConnection

/-! ## The system -/

/-- A connection and the history of its output. -/
structure Outbound where
  conn : TcpConnection
  handed : Bytes
  accepted : Bytes
  completions : Nat
  fault : Option Fault
  deriving DecidableEq, Repr

/-- What can happen on the io loop, with the number of bytes the kernel takes. -/
inductive OutboundOp where
  | writeInLoop (data : Bytes) (r : Nat)
  | handleWrite (r : Nat)
  /-- `close()`, from a user callback or from `handleRead` at end of file. -/
  | close
  /-- The error path of `handleRead`. -/
  | readError
  | closeConnection
  deriving DecidableEq, Repr

/-- The third argument of `qg::write`: an `int` converted to `qg_size_t`. -/
def sizeArg (n : Int) : Int := n % 2 ^ 64

namespace Outbound

/-- A connection that `handleConnection` has just registered. -/
def start : Outbound :=
  { conn := TcpConnection.new.handleConnection.conn
    handed := [], accepted := [], completions := 0, fault := none }

/-- Record one request of a member function. -/
def record (s : Outbound) : Effect → Outbound
  | .write _ handed => { s with handed := s.handed ++ handed }
  | .addWriteComplete _ => { s with completions := s.completions + 1 }
  | _ => s

/-- Take over what a member function did, or that it threw. -/
def finish (s : Outbound) : Except Thrown Result → Outbound
  | .ok r => r.effects.foldl record { s with conn := r.conn }
  | .error e => { e.effects.foldl record s with fault := some e.fault }

/-- The data that an operation adds to the stream: `writeInLoop` drops its data
    once `disconnected_` is set. -/
def offered (s : Outbound) : OutboundOp → Bytes
  | .writeInLoop data _ => if s.conn.disconnected then [] else data
  | _ => []

/-- The number of bytes that an operation hands to the kernel. -/
def taken (s : Outbound) : OutboundOp → Nat
  | .writeInLoop _ r => if s.conn.disconnected || !s.conn.canWriteDirect then 0 else r
  | .handleWrite r => if s.conn.writeBuf.isEmpty then 0 else r
  | _ => 0

/-- `qg::write` takes at most as many bytes as it is offered. -/
def possible (s : Outbound) : OutboundOp → Bool
  | .writeInLoop data r => r ≤ data.length && (r : Int) ≤ sizeArg (toInt data.length)
  | .handleWrite r => r ≤ s.conn.writeBuf.length
  | _ => true

/-- The member function that an operation runs. -/
def call (c : TcpConnection) : OutboundOp → Except Thrown Result
  | .writeInLoop data r => c.writeInLoop data (.taken data r)
  | .handleWrite r => c.handleWrite (.taken c.writeBuf r)
  | .close => .ok c.close
  | .readError => .ok (handleClose { c with disconnected := true })
  | .closeConnection => .ok c.closeConnection

def step (s : Outbound) (op : OutboundOp) : Option Outbound :=
  if s.fault.isSome || !s.possible op then none
  else
    some (finish { s with accepted := s.accepted ++ s.offered op } (call s.conn op))

/-- The bytes handed to the kernel and the bytes in `write_buf_`. -/
def outbox (s : Outbound) : Outbox UInt8 := ⟨s.handed, s.conn.writeBuf⟩

/-- The outbox with the data in hand. -/
def inHand (s : Outbound) (op : OutboundOp) : Outbox UInt8 := s.outbox.accept (s.offered op)

/-! ## One step -/

/-- The condition under which a step keeps the stream exact: on the path that
    writes, the count that `qg::write` returns fits an `int`, and it equals the
    length of the data as an `int` only if it is that length. -/
def Fits (s : Outbound) : OutboundOp → Prop
  | .writeInLoop data r =>
    s.conn.disconnected = false → s.conn.canWriteDirect = true →
      r < intLimit ∧ (0 < r → (r : Int) = toInt data.length → r = data.length)
  | .handleWrite r => s.conn.writeBuf ≠ [] → r < intLimit
  | _ => True

/-- What a call may change besides the output: the interest mask. -/
theorem bufferRest_ok {data : Bytes} {n : Nat} {c : TcpConnection} (effects : List Effect)
    (hn : n ≤ data.length) :
    ∃ eventHandler updates, (updates = [] ∨ updates = [.updateHandler]) ∧
      c.bufferRest data n effects = .ok
        { conn := { c with writeBuf := c.writeBuf ++ data.drop n, eventHandler := eventHandler }
          effects := effects ++ updates } := by
  unfold bufferRest
  rw [substr_ofNat hn]
  dsimp only
  split
  · exact ⟨_, [.updateHandler], .inr rfl, rfl⟩
  · exact ⟨c.eventHandler, [], .inl rfl, by simp⟩


/-- A direct write whose count fits an `int`: the kernel takes `r` bytes, and
    the notice is asked for if that is the length as an `int`. -/
theorem writeInLoop_direct {data : Bytes} {r : Nat} {c : TcpConnection}
    (hconn : c.disconnected = false) (hdirect : c.canWriteDirect = true) (hint : r < intLimit)
    (hr : r ≤ data.length) :
    ∃ eventHandler updates, (updates = [] ∨ updates = [.updateHandler]) ∧
      c.writeInLoop data (.taken data r) = .ok
        { conn := { c with writeBuf := c.writeBuf ++ data.drop r, eventHandler := eventHandler }
          effects := .write data (data.take r) ::
            (if 0 < (r : Int) ∧ (r : Int) = toInt data.length ∧ c.sendfileFd < 0
              then [.addWriteComplete c.writeBuf] else []) ++ updates } := by
  obtain ⟨eventHandler, updates, hupdates, hok⟩ := bufferRest_ok (c := c)
    (.write data (data.take r) ::
      (if 0 < (r : Int) ∧ (r : Int) = toInt data.length ∧ c.sendfileFd < 0
        then [.addWriteComplete c.writeBuf] else [])) hr
  refine ⟨eventHandler, updates, hupdates, ?_⟩
  rw [← hok]
  simp [writeInLoop, WriteOutcome.taken, toInt_of_lt hint, hconn, hdirect]

theorem writeInLoop_buffered {data : Bytes} {w : WriteOutcome} {c : TcpConnection}
    (hconn : c.disconnected = false) (hdirect : c.canWriteDirect = false) :
    ∃ eventHandler updates, (updates = [] ∨ updates = [.updateHandler]) ∧
      c.writeInLoop data w = .ok
        { conn := { c with writeBuf := c.writeBuf ++ data, eventHandler := eventHandler }
          effects := updates } := by
  obtain ⟨eventHandler, updates, hupdates, hok⟩ :=
    bufferRest_ok (c := c) [] (Nat.zero_le data.length)
  refine ⟨eventHandler, updates, hupdates, ?_⟩
  simpa [writeInLoop, hconn, hdirect] using hok

theorem handleWrite_taken {r : Nat} {c : TcpConnection} (hbuf : c.writeBuf ≠ [])
    (hint : r < intLimit) (hr : r ≤ c.writeBuf.length) :
    ∃ eventHandler, c.handleWrite (.taken c.writeBuf r) = .ok
        { conn := { c with writeBuf := c.writeBuf.drop r, eventHandler := eventHandler }
          effects := .write c.writeBuf (c.writeBuf.take r) ::
            (if c.writeBuf.drop r = [] then [.updateHandler, .addWriteComplete []] else []) } := by
  have hne : c.writeBuf.isEmpty = false := by simpa using hbuf
  have hret : toInt (WriteOutcome.taken c.writeBuf r).ret = r := toInt_of_lt hint
  unfold handleWrite
  rw [hret, hne]
  simp only [Bool.false_eq_true, if_false, Int.natCast_nonneg, if_true, substr_ofNat hr]
  by_cases hrest : c.writeBuf.drop r = []
  · refine ⟨c.eventHandler.disableWrite, ?_⟩
    simp only [hrest, List.isEmpty_nil, if_true, WriteOutcome.taken]
  · have hempty : (c.writeBuf.drop r).isEmpty = false := by simpa using hrest
    refine ⟨c.eventHandler, ?_⟩
    simp only [hrest, hempty, Bool.false_eq_true, if_false, WriteOutcome.taken]

/-- What one step does: it accepts the data on offer and transfers what the
    kernel takes, and it asks for one notice exactly if that empties the outbox. -/
structure Exact (s : Outbound) (op : OutboundOp) (s' : Outbound) : Prop where
  fault : s'.fault = none
  sendfileFd : s'.conn.sendfileFd = s.conn.sendfileFd
  accepted : s'.accepted = s.accepted ++ s.offered op
  outbox : s'.outbox = (s.inHand op).transfer (s.taken op)
  completions : s'.completions =
    s.completions + if Outbox.Emptied (s.inHand op) s'.outbox then 1 else 0


theorem step_eq_some {s s' : Outbound} {op : OutboundOp} (h : step s op = some s') :
    s.fault = none ∧ s.possible op = true ∧
      s' = finish { s with accepted := s.accepted ++ s.offered op } (call s.conn op) := by
  unfold step at h
  split at h
  · cases h
  · rename_i hguard
    simp only [Bool.or_eq_true, Bool.not_eq_true', not_or, Bool.not_eq_true, Option.isSome_eq_false_iff,
      Option.isNone_iff_eq_none, Bool.not_eq_false] at hguard
    exact ⟨hguard.1, hguard.2, (Option.some.inj h).symm⟩

/-- Requests that are neither a write nor a notice leave the history alone. -/
theorem foldl_record_updates {updates : List Effect} {s : Outbound}
    (h : updates = [] ∨ updates = [.updateHandler]) : updates.foldl record s = s := by
  rcases h with rfl | rfl <;> rfl

/-- The test of `writeInLoop` on `nwrite` and `len` says whether everything was
    written. -/
theorem notice_iff_emptied {data : Bytes} {r : Nat} (hint : r < intLimit) (hr : r ≤ data.length)
    (hlen : 0 < r → (r : Int) = toInt data.length → r = data.length) :
    (0 < (r : Int) ∧ (r : Int) = toInt data.length) ↔ data ≠ [] ∧ data.length ≤ r := by
  constructor
  · rintro ⟨hpos, heq⟩
    have hpos' : 0 < r := by exact_mod_cast hpos
    have hall := hlen hpos' heq
    refine ⟨?_, hall.ge⟩
    rintro rfl
    simp at hall
    omega
  · rintro ⟨hne, hle⟩
    have hpos : 0 < data.length := List.length_pos_iff.mpr hne
    obtain rfl : r = data.length := by omega
    exact ⟨by exact_mod_cast hpos, (toInt_of_lt hint).symm⟩

theorem exact_writeInLoop {s : Outbound} {data : Bytes} {r : Nat} (hfault : s.fault = none)
    (hfd : s.conn.sendfileFd < 0) (hfits : s.Fits (.writeInLoop data r))
    (hr : r ≤ data.length) :
    Exact s (.writeInLoop data r)
      (finish { s with accepted := s.accepted ++ s.offered (.writeInLoop data r) }
        (call s.conn (.writeInLoop data r))) := by
  cases hconn : s.conn.disconnected with
  | true =>
      have hcall : call s.conn (.writeInLoop data r) = .ok ⟨s.conn, []⟩ := by
        simp [call, writeInLoop, hconn]
      rw [hcall]
      refine ⟨hfault, rfl, rfl, ?_, ?_⟩
      · simp [outbox, inHand, offered, taken, hconn, finish]
      · simp [outbox, inHand, offered, hconn, finish, Outbox.Emptied]
  | false =>
      cases hdirect : s.conn.canWriteDirect with
      | false =>
          obtain ⟨eventHandler, updates, hupdates, hcall⟩ :=
            @writeInLoop_buffered data (.taken data r) s.conn hconn hdirect
          rw [call, hcall]
          simp only [finish, foldl_record_updates hupdates]
          refine ⟨hfault, rfl, rfl, ?_, ?_⟩
          · simp [outbox, inHand, offered, taken, hconn, hdirect, Outbox.accept]
          · simp [outbox, inHand, offered, hconn, Outbox.accept, Outbox.Emptied]
      | true =>
          obtain ⟨hint, hlen⟩ := hfits hconn hdirect
          obtain ⟨eventHandler, updates, hupdates, hcall⟩ :=
            writeInLoop_direct hconn hdirect hint hr
          have hbuf : s.conn.writeBuf = [] := by
            simp only [canWriteDirect, Bool.and_eq_true, List.isEmpty_iff] at hdirect
            exact hdirect.2
          have hnotice := notice_iff_emptied hint hr hlen
          rw [call, hcall]
          simp only [finish, List.foldl_append, foldl_record_updates hupdates]
          by_cases hall : data ≠ [] ∧ data.length ≤ r
          · rw [if_pos ⟨(hnotice.mpr hall).1, (hnotice.mpr hall).2, hfd⟩]
            refine ⟨hfault, rfl, rfl, ?_, ?_⟩
            · simp [outbox, inHand, offered, taken, hconn, hdirect, hbuf, record, Outbox.accept,
                Outbox.transfer]
            · simpa [outbox, inHand, offered, hconn, hbuf, record, Outbox.accept,
                Outbox.Emptied] using hall
          · rw [if_neg fun hcode => hall (hnotice.mp ⟨hcode.1, hcode.2.1⟩)]
            refine ⟨hfault, rfl, rfl, ?_, ?_⟩
            · simp [outbox, inHand, offered, taken, hconn, hdirect, hbuf, record, Outbox.accept,
                Outbox.transfer]
            · simpa [outbox, inHand, offered, hconn, hbuf, record, Outbox.accept,
                Outbox.Emptied] using hall

theorem exact_handleWrite {s : Outbound} {r : Nat} (hfault : s.fault = none)
    (hfits : s.Fits (.handleWrite r)) (hr : r ≤ s.conn.writeBuf.length) :
    Exact s (.handleWrite r)
      (finish { s with accepted := s.accepted ++ s.offered (.handleWrite r) }
        (call s.conn (.handleWrite r))) := by
  by_cases hbuf : s.conn.writeBuf = []
  · have hcall : call s.conn (.handleWrite r) = .ok ⟨s.conn, []⟩ := by
      simp [call, handleWrite, hbuf]
    rw [hcall]
    refine ⟨hfault, rfl, rfl, ?_, ?_⟩
    · simp [outbox, inHand, offered, taken, finish, hbuf]
    · simp [outbox, inHand, offered, finish, hbuf, Outbox.Emptied]
  · obtain ⟨eventHandler, hcall⟩ := handleWrite_taken hbuf (hfits hbuf) hr
    rw [call, hcall]
    simp only [finish]
    by_cases hrest : s.conn.writeBuf.drop r = []
    · rw [if_pos hrest]
      refine ⟨hfault, rfl, rfl, ?_, ?_⟩
      · simp [outbox, inHand, offered, taken, record, hbuf, Outbox.transfer]
      · simp [outbox, inHand, offered, record, hbuf, hrest, Outbox.Emptied]
    · rw [if_neg hrest]
      refine ⟨hfault, rfl, rfl, ?_, ?_⟩
      · simp [outbox, inHand, offered, taken, record, hbuf, Outbox.transfer]
      · simp only [List.foldl, record, outbox, inHand, offered, Outbox.accept_nil,
          Outbox.Emptied, hrest, and_false, if_false, Nat.add_zero]

/-- The operations that close: none of them touches the output. -/
theorem exact_closing {s : Outbound} {op : OutboundOp} {r : Result} (hfault : s.fault = none)
    (hop : op = .close ∨ op = .readError ∨ op = .closeConnection) (hcall : call s.conn op = .ok r)
    (hbuf : r.conn.writeBuf = s.conn.writeBuf) (hfd : r.conn.sendfileFd = s.conn.sendfileFd)
    (hrecord : ∀ t : Outbound, r.effects.foldl record t = t) :
    Exact s op (finish { s with accepted := s.accepted ++ s.offered op } (call s.conn op)) := by
  have hoffered : s.offered op = [] := by
    rcases hop with rfl | rfl | rfl <;> rfl
  have htaken : s.taken op = 0 := by
    rcases hop with rfl | rfl | rfl <;> rfl
  rw [hcall]
  simp only [finish, hrecord]
  refine ⟨hfault, hfd, rfl, ?_, ?_⟩
  · simp [outbox, inHand, hoffered, htaken, hbuf]
  · simp [outbox, inHand, hoffered, hbuf, Outbox.Emptied]

theorem exact_step {s s' : Outbound} {op : OutboundOp} (hfd : s.conn.sendfileFd < 0)
    (hfits : s.Fits op) (h : step s op = some s') : Exact s op s' := by
  obtain ⟨hfault, hpossible, rfl⟩ := step_eq_some h
  cases op with
  | writeInLoop data r =>
      simp only [possible, Bool.and_eq_true, decide_eq_true_eq] at hpossible
      exact exact_writeInLoop hfault hfd hfits hpossible.1
  | handleWrite r =>
      exact exact_handleWrite hfault hfits (by simpa [possible] using hpossible)
  | close =>
      by_cases hcontent : hasContentToSend { s.conn with disconnected := true } = true
      · refine exact_closing hfault (.inl rfl) (r := ⟨{ s.conn with disconnected := true }, []⟩)
          ?_ rfl rfl fun _ => rfl
        simp [call, close, hcontent]
      · refine exact_closing hfault (.inl rfl)
          (r := handleClose { s.conn with disconnected := true }) ?_ rfl rfl fun _ => rfl
        simp [call, close, hcontent]
  | readError => exact exact_closing hfault (.inr (.inl rfl)) rfl rfl rfl fun _ => rfl
  | closeConnection => exact exact_closing hfault (.inr (.inr rfl)) rfl rfl rfl fun _ => rfl

/-! ## Whole runs -/

/-- What holds between the steps. -/
structure Inv (s : Outbound) : Prop where
  fault : s.fault = none
  sendfileFd : s.conn.sendfileFd < 0
  stream : s.handed ++ s.conn.writeBuf = s.accepted

theorem inv_start : start.Inv := ⟨rfl, by decide, rfl⟩

theorem Exact.inv {s s' : Outbound} {op : OutboundOp} (hinv : s.Inv) (h : Exact s op s') :
    s'.Inv := by
  refine ⟨h.fault, h.sendfileFd ▸ hinv.sendfileFd, ?_⟩
  have htotal : s'.outbox.total = s.accepted ++ s.offered op := by
    rw [h.outbox, Outbox.total_transfer, inHand, Outbox.total_accept, ← hinv.stream]
    rfl
  rw [h.accepted, ← htotal]
  rfl

theorem inv_step (s : Outbound) (op : OutboundOp) (s' : Outbound) (hinv : s.Inv)
    (hfits : s.Fits op) (h : step s op = some s') : s'.Inv :=
  (exact_step hinv.sendfileFd hfits h).inv hinv

/-- The step asks for one notice if it takes the outstanding output from
    something to nothing, and for none otherwise. -/
def CompletesExactly (s : Outbound) (op : OutboundOp) : Prop :=
  ∀ s', step s op = some s' →
    s'.completions = s.completions + if Outbox.Emptied (s.inHand op) s'.outbox then 1 else 0

/-- In every run whose counts fit: no step throws, the bytes handed to the
    kernel and `write_buf_` are the accepted data in order, and every step
    completes exactly. -/
theorem outbound_exact {ops : List OutboundOp} {s : Outbound}
    (hfits : Runs.Along step Fits start ops) (hrun : Runs.exec step start ops = some s) :
    s.fault = none ∧ s.handed ++ s.conn.writeBuf = s.accepted ∧
      Runs.Along step CompletesExactly start ops := by
  have hinv : s.Inv := Runs.exec_invariant inv_step inv_start hfits hrun
  refine ⟨hinv.fault, hinv.stream, ?_⟩
  refine Runs.along_of_invariant inv_step ?_ inv_start hfits
  intro s op hinv hfits s' hstep
  exact (exact_step hinv.sendfileFd hfits hstep).completions

/-- A partial write, the rest by `handleWrite`: one notice, at the end. -/
theorem outbound_exact_partial :
    Runs.Along step Fits start [.writeInLoop [1, 2, 3] 1, .handleWrite 2] ∧
      ∃ s, Runs.exec step start [.writeInLoop [1, 2, 3] 1, .handleWrite 2] = some s ∧
        s.fault = none ∧ s.handed ++ s.conn.writeBuf = s.accepted ∧
          Runs.Along step CompletesExactly start [.writeInLoop [1, 2, 3] 1, .handleWrite 2] := by
  have hfits : Runs.Along step Fits start [.writeInLoop [1, 2, 3] 1, .handleWrite 2] := by
    refine ⟨fun _ _ => ⟨by decide, by decide⟩, fun s' _ => ⟨fun _ => by decide, fun _ _ => trivial⟩⟩
  exact ⟨hfits, _, rfl, outbound_exact hfits rfl⟩

/-- Data whose length is one as an `int`. -/
def longData : Bytes := List.replicate (2 ^ 32 + 1) 0

theorem length_longData : longData.length = 2 ^ 32 + 1 := List.length_replicate

theorem toInt_longData : toInt longData.length = 1 := by
  rw [length_longData]
  decide

/-- A direct write of `2 ^ 32 + 1` bytes, of which the kernel takes one: `len` is
    one, so the notice is asked for with `2 ^ 32` bytes outstanding. -/
theorem outbound_completes_early :
    ¬ ∀ (ops : List OutboundOp) (s : Outbound), Runs.exec step start ops = some s →
        s.fault = none ∧ s.handed ++ s.conn.writeBuf = s.accepted ∧
          Runs.Along step CompletesExactly start ops := by
  intro h
  have hlen := length_longData
  have hpossible : start.possible (.writeInLoop longData 1) = true := by
    simp only [possible, toInt_longData, Bool.and_eq_true, decide_eq_true_eq]
    exact ⟨by omega, by decide⟩
  obtain ⟨eventHandler, updates, hupdates, hcall⟩ :=
    @writeInLoop_direct longData 1 start.conn rfl rfl (by decide) (by omega)
  have hnotice : 0 < ((1 : Nat) : Int) ∧ ((1 : Nat) : Int) = toInt longData.length ∧
      start.conn.sendfileFd < 0 := by
    rw [toInt_longData]
    decide
  rw [if_pos hnotice] at hcall
  have hstep : step start (.writeInLoop longData 1) = some
      (finish { start with accepted := start.accepted ++ start.offered (.writeInLoop longData 1) }
        (call start.conn (.writeInLoop longData 1))) := by
    unfold step
    rw [hpossible]
    rfl
  obtain ⟨-, -, hexact, -⟩ := h [.writeInLoop longData 1] _ (by rw [Runs.exec_cons, hstep]; rfl)
  have hcompletions := hexact _ hstep
  rw [call, hcall] at hcompletions
  simp only [finish, List.foldl_append, foldl_record_updates hupdates] at hcompletions
  have hleft : longData.drop 1 ≠ [] := by
    intro hnil
    have hzero := congrArg List.length hnil
    rw [List.length_drop, hlen] at hzero
    simp at hzero
  rw [if_neg fun hemptied => hleft hemptied.2] at hcompletions
  exact absurd hcompletions (by simp [record, start])

end Outbound

end QGServer
