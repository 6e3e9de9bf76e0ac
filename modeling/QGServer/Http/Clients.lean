-- SUMMARY: All clients of the server: each one gets the documents for its own requests, whatever the others do.
import QGServer.Core.Histories
import QGServer.Http.Answers

/-!
# Clients

The whole system: an accepter, any number of io loops, any number of connections under
descriptors that are used again, and the HTTP callbacks. What a client gets that sends
its messages in exchanges depends on these alone (`clients_run`): a message that shares a
segment with another one, or that is cut inside of its target, is not answered by itself.
-/

namespace QGServer

namespace HTTPServer

open HttpParser
open Session (handedOver)

/-- A history of the server with the HTTP callbacks. -/
abbrev ServerHistory :=
  Server (Option HTTPContext) × List (Server (Option HTTPContext) × Server.Label Environment)

/-- The steps of connection `i`. -/
abbrev ServerHistory.ofConnection (h : ServerHistory) (i : Nat) : History :=
  Server.historyOf userCode i h.2

/-- Of what the steps pass to `qg::write` the kernel takes prefixes. -/
def TakesPrefixes (past : History) : Prop := ∀ x ∈ past, ∀ q ∈ x.1.sends x.2, q.2.Takes q.1

instance (past : History) : Decidable (TakesPrefixes past) :=
  inferInstanceAs (Decidable (∀ x ∈ past, ∀ q ∈ x.1.sends x.2, _))

/-- No callback runs, nothing is unsent and the connection is still there. -/
def Settled (σ : Session (Option HTTPContext)) : Prop :=
  σ.frame = none ∧ σ.unsent = [] ∧ σ.conn.disconnected = false

instance (σ : Session (Option HTTPContext)) : Decidable (Settled σ) :=
  inferInstanceAs (Decidable (_ ∧ _ ∧ _))

/-- Whatever the loops and the other clients do and in whatever order: if what has come
    from client `i` begins the segments of exchanges, what it finds in the bytes that the
    kernel has taken for it are the documents for its first messages, in their order. It
    finds all of them when all segments have come and the connection is settled. -/
theorem clients_run {threads : Nat} {highWater : Int} {ls : List (Server.Label Environment)}
    {h : ServerHistory}
    (hrun : Runs.exec (Runs.record (Server.step userCode none))
      (Server.start none threads highWater, []) ls = some h)
    (halive : h.1.fault = none) {i : Nat} (hi : i < h.1.constructed)
    (hok : TakesPrefixes (h.ofConnection i)) {xs : List Exchange}
    (hcame : arrivals (h.ofConnection i) <+: xs.flatMap Exchange.segments) :
    Framing.decodeSome decodeResponse (handedOver (h.ofConnection i)) <+:
        (xs.map fun x => document x.env x.path) ∧
      (arrivals (h.ofConnection i) = xs.flatMap Exchange.segments → Settled (h.1.session i) →
        Framing.decodeAll decodeResponse (handedOver (h.ofConnection i)) =
          some (xs.map fun x => document x.env x.path)) := by
  obtain ⟨ls, hls⟩ := (Server.projects_exec hrun).sessions halive i hi
  have hsends : ∀ x ∈ h.ofConnection i, ∀ q ∈ x.1.sends x.2, q.2.Takes q.1 := hok
  have halong : Runs.Along (Session.step userCode) (fun s l => ∀ q ∈ s.sends l, q.2.Takes q.1)
      (Session.start none) ls := ((Runs.along_iff_record hls).mp hsends).2
  obtain ⟨hfirst, hall⟩ :=
    documents_run (Runs.along_record.mpr halong) hls (Server.fault_session halive) hcame
  exact ⟨hfirst, fun hcame hsettled => hall hcame hsettled.1 hsettled.2.1 hsettled.2.2⟩

/-- Two clients come, each to a loop of its own. The second one asks first, for what is
    there, and the first one for what is not; their steps are mixed. -/
def twoClients : List (Server.Label Environment) :=
  [.accept 7, .accept 8, .pop 1, .run 1 ⟨0, []⟩ .empty, .pop 2, .run 2 ⟨0, []⟩ .empty, .leave 1, .leave 2,
    .done 2, .done 1,
    .readable 1 [.data ⟨chunkedRequest.text, by decide +kernel, by decide +kernel⟩, .error .eagain]
      Exchange.oneFile,
    .readable 0 [.data ⟨chunkedRequest.text, by decide +kernel, by decide +kernel⟩, .error .eagain] .empty,
    .call 1, .call 2, .leave 1, .leave 2, .pop 2, .pop 1, .run 1 ⟨100, Exchange.getNothing.response.take 100⟩
      .empty,
    .run 2 ⟨171, Exchange.getFile.response⟩ .empty, .done 2, .done 1,
    .writable 0 ⟨86, Exchange.getNothing.response.drop 100⟩]

/-- The request for the file in one piece. -/
def getFileAtOnce : Exchange :=
  { Exchange.getNothing with
    env := Exchange.oneFile
    readable := Exchange.getFile.readable
    timeOfDay := Exchange.getFile.timeOfDay }

set_option maxRecDepth 20000 in
theorem arrivals_twoClients :
    (Runs.exec (Runs.record (Server.step userCode none)) (Server.start none 2 100, []) twoClients).map
        (fun h : ServerHistory => (arrivals (h.ofConnection 0), arrivals (h.ofConnection 1))) =
      some ([Exchange.getNothing].flatMap Exchange.segments, [getFileAtOnce].flatMap Exchange.segments) := by
  with_unfolding_all rfl

theorem clients_run_two :
    ∃ h : ServerHistory,
      Runs.exec (Runs.record (Server.step userCode none)) (Server.start none 2 100, []) twoClients =
        some h ∧
      Framing.decodeAll decodeResponse (handedOver (h.ofConnection 0)) = some [bytes "404 Not Found"] ∧
      Framing.decodeAll decodeResponse (handedOver (h.ofConnection 1)) = some [bytes "\r\n\r\nhi"] := by
  have hrun : ((Runs.exec (Runs.record (Server.step userCode none)) (Server.start none 2 100, [])
      twoClients).any fun h : ServerHistory => decide (h.1.fault = none ∧ h.1.constructed = 2 ∧
        ∀ i < (2 : Nat), Settled (h.1.session i) ∧ TakesPrefixes (h.ofConnection i))) = true := by
    decide +kernel
  obtain ⟨h, hh, hend⟩ := Option.any_eq_true _ _ |>.mp hrun
  obtain ⟨halive, hconstructed, hall⟩ := of_decide_eq_true hend
  have harrivals := arrivals_twoClients
  rw [hh] at harrivals
  obtain ⟨hfirst, hsecond⟩ := Prod.mk.inj (Option.some.inj harrivals)
  -- what each client finds
  have hfinds : ∀ i < 2, ∀ xs : List Exchange, arrivals (h.ofConnection i) = xs.flatMap Exchange.segments →
      Framing.decodeAll decodeResponse (handedOver (h.ofConnection i)) =
        some (xs.map fun x => document x.env x.path) := by
    intro i hi xs hcame
    obtain ⟨hsettled, hok⟩ := hall i hi
    exact (clients_run hh halive (hconstructed ▸ hi) hok (hcame ▸ List.prefix_rfl)).2 hcame hsettled
  refine ⟨h, hh, (hfinds 0 (by decide) _ hfirst).trans ?_, (hfinds 1 (by decide) _ hsecond).trans ?_⟩
  · decide +kernel
  · decide +kernel

end HTTPServer

end QGServer
