-- SUMMARY: The loop of each connection: dealt out in turn, and the only one that works for it.
import Mathlib.Data.Int.CardIntervalMod
import QGServer.Core.LoopThreadPool
import QGServer.Core.Registry

/-!
# Confinement

`getNextLoop` deals the connections out to the io loops in turn. From then on all work
for a connection is done by its own loop: its callbacks run there, its functors are
queued there and its handler is registered there. The base loop has nothing of it but
the request to forget it. So no two threads are ever in the same connection, and the
loops have the same number of connections but for one (`confined_run`).
-/

namespace QGServer

namespace Server

variable {κ ε : Type*} {user : UserCode κ ε} {context : κ} {s s' : Server κ} {i : Nat}

/-! ## Dealing -/

/-- The loop of the connection that is constructed as number `i`. -/
def share (threads i : Nat) : Nat := if threads = 0 then 0 else i % threads + 1

/-- The number of connections that loop `j` has got. -/
def load (s : Server κ) (j : Nat) : Nat := s.constructed.count fun i => (s.connection i).loop = j

/-- All work for a connection is where it belongs. -/
structure Confined (threads : Nat) (s : Server κ) : Prop where
  callbacks : ∀ j i f, (s.loops j).frame = some (i, f) → j = share threads i
  functors : ∀ j i f, .io i f ∈ (s.loops j).queue.all → j = share threads i
  handlers : ∀ j fd i, (s.loops j).handlerMap fd = some i → j = share threads i
  closes : ∀ j i, .handleConnectionClose i ∈ (s.loops j).queue.all → j = 0

/-- The pool, which only `handleNewCon` uses. -/
def pool (s : Server κ) : Nat × Nat := (s.threads, s.curPos)

/-- Whose turn it is, and what has been dealt out. -/
structure Dealt (threads : Nat) (s : Server κ) : Prop where
  size : s.threads = threads
  curPos : threads ≠ 0 → s.curPos = s.constructed % threads
  loops : ∀ i < s.constructed, (s.connection i).loop = share threads i

/-! ## The pool is left alone -/

theorem pool_ite {c : Prop} [Decidable c] {t t' : Server κ} (h : t.pool = s.pool) (h' : t'.pool = s.pool) :
    (if c then t else t').pool = s.pool := by
  split
  · exact h
  · exact h'

theorem pool_carryOut (e : Effect) : (s.carryOut i e).pool = s.pool := by
  cases e with
  | registerHandler => exact pool_ite rfl rfl
  | updateHandler => exact pool_ite rfl rfl
  | removeHandler => exact pool_ite rfl rfl
  | _ => rfl

theorem pool_request (e : Effect) : (s.request i e).pool = s.pool := pool_ite rfl (pool_carryOut e)

theorem pool_foldl (es : List Effect) : (es.foldl (request i) s).pool = s.pool := by
  induction es generalizing s with
  | nil => rfl
  | cons e es ih => exact ih.trans (pool_request e)

theorem pool_perform (r : Result) : (s.perform i r).pool = s.pool := pool_foldl r.effects

theorem pool_attempt (r : Except Thrown Result) : (s.attempt i r).pool = s.pool := by
  cases r with
  | ok r => exact pool_perform r
  | error e => exact pool_foldl e.effects

theorem pool_enter (r : Except Fault (κ × List Call)) (fromRead : Bool) :
    (s.enter i r fromRead).pool = s.pool := by
  cases r <;> rfl

theorem pool_throughThis {f : Server κ → Server κ} (hf : ∀ t : Server κ, (f t).pool = t.pool) :
    (s.throughThis i f).pool = s.pool := pool_ite (hf s) rfl

theorem pool_handleRead {rs : List (KernelRead TcpConnection.defaultReadBuffSize)} {env : ε}
    (h : s.handleRead user i rs env = some s') : s'.pool = s.pool := by
  unfold handleRead at h
  split at h
  · cases h
    exact pool_throughThis fun t => pool_enter _ true
  · cases h
    exact pool_throughThis fun t => pool_perform _
  · cases h
    exact pool_throughThis fun t => pool_perform _
  · cases h

theorem pool_runFunctor (w : WriteOutcome) (env : ε) (f : Functor) :
    (s.runFunctor user w env f).pool = s.pool := by
  cases f with
  | handleConnectionClose i => rfl
  | io i f =>
      cases f with
      | handleConnection => exact (pool_enter _ false).trans (pool_perform _)
      | writeInLoop data => exact pool_throughThis fun t => pool_attempt _
      | writeComplete buf => exact pool_enter _ false
      | closeConnection => exact pool_perform _

theorem pool_step {l : Label ε} (h : s.step user context l = some s')
    (hl : ∀ fd, l = .accept fd → s' = s) : s'.pool = s.pool := by
  have hfault := step_fault h
  unfold step at h
  simp only [hfault, Option.isSome_none, Bool.false_eq_true, if_false] at h
  cases l with
  | accept fd => rw [hl fd rfl]
  | readable i rs env =>
      simp only [Option.ite_none_right_eq_some] at h
      exact pool_handleRead h.2
  | writable i w =>
      simp only [Option.ite_none_right_eq_some, Option.some.injEq] at h
      obtain ⟨-, rfl⟩ := h
      exact pool_throughThis fun t => pool_attempt _
  | call j =>
      dsimp only at h
      split at h
      · cases h
        exact pool_perform _
      · cases h
  | leave j =>
      dsimp only at h
      split at h
      · cases h
        split <;> rfl
      · cases h
  | pop j =>
      simp only [Option.ite_none_right_eq_some, Option.some.injEq] at h
      obtain ⟨-, rfl⟩ := h
      rfl
  | run j w env =>
      dsimp only at h
      split at h
      · cases h
        exact pool_runFunctor w env _
      · cases h
  | done j =>
      simp only [Option.ite_none_right_eq_some, Option.some.injEq] at h
      obtain ⟨-, rfl⟩ := h
      rfl

/-! ## In turn -/

theorem dealt_start (context : κ) (threads : Nat) (highWater : Int) :
    Dealt threads (start context threads highWater) :=
  ⟨rfl, fun _ => (Nat.zero_mod _).symm, fun _ hi => (by cases hi)⟩

theorem getNextLoop_of_dealt {threads : Nat} (h : Dealt threads s) :
    s.getNextLoop.1 = share threads s.constructed ∧
      (threads ≠ 0 → s.getNextLoop.2 = (s.constructed + 1) % threads) := by
  unfold getNextLoop share
  rw [h.size]
  split
  · rename_i hzero
    exact ⟨rfl, fun hne => absurd hzero hne⟩
  · rename_i hne
    have hcur := h.curPos hne
    refine ⟨congrArg (· + 1) hcur, fun _ => ?_⟩
    dsimp only
    rw [hcur]
    exact LoopThreadPool.mod_add_one _ _ (Nat.pos_of_ne_zero hne)

theorem dealt_handleNewCon {threads fd : Nat} (h : Dealt threads s) :
    Dealt threads (s.handleNewCon context fd) := by
  obtain ⟨hloop, hcur⟩ := getNextLoop_of_dealt h
  refine ⟨h.size, hcur, fun i hi => ?_⟩
  rcases lt_constructed_handleNewCon hi with hi | rfl
  · simpa [handleNewCon, Function.update_of_ne hi.ne] using h.loops i hi
  · simpa [handleNewCon] using hloop

theorem dealt_step {threads : Nat} (hgood : s.Good) {l : Label ε} (h : Dealt threads s)
    (hstep : s.step user context l = some s') : Dealt threads s' := by
  rcases step_new_or_frame hstep with ⟨fd, -, -, rfl⟩ | hl
  · exact dealt_handleNewCon h
  · obtain ⟨hconstructed, -, hloop, -⟩ := step_frame hgood hstep hl
    obtain ⟨hthreads, hcur⟩ := Prod.mk.inj (pool_step hstep hl)
    refine ⟨hthreads.trans h.size, fun hne => ?_, fun i hi => ?_⟩
    · rw [hcur, hconstructed]
      exact h.curPos hne
    · rw [hloop]
      exact h.loops i (hconstructed ▸ hi)

theorem confined_of_dealt {threads : Nat} (ho : s.Owned) (h : Dealt threads s) : Confined threads s := by
  refine ⟨fun j i f hf => ?_, fun j i f hf => ?_, fun j fd i hf => ?_, fun j i hf => (ho.closes j i hf).2⟩
  · obtain ⟨hi, rfl⟩ := ho.frames j i f hf
    exact h.loops i hi
  · obtain ⟨hi, rfl⟩ := ho.functors j i f hf
    exact h.loops i hi
  · obtain ⟨hi, -, rfl⟩ := ho.handlers j fd i hf
    exact h.loops i hi

/-! ## Loads -/

/-- What loop `j` has got, of as many connections as there are. -/
theorem load_of_dealt {threads j : Nat} (h : Dealt threads s) (hj : j < threads) :
    s.load (j + 1) = s.constructed / threads + if j < s.constructed % threads then 1 else 0 := by
  have hpos : 0 < threads := (Nat.zero_le j).trans_lt hj
  have hcount : s.load (j + 1) = s.constructed.count (· ≡ j [MOD threads]) := by
    unfold load
    rw [Nat.count_eq_card_filter_range, Nat.count_eq_card_filter_range]
    congr 1
    refine Finset.filter_congr fun i hi => ?_
    rw [h.loops i (Finset.mem_range.mp hi), share, if_neg hpos.ne', Nat.succ_inj, Nat.ModEq,
      Nat.mod_eq_of_lt hj]
  rw [hcount, Nat.count_modEq_card _ hpos, Nat.mod_eq_of_lt hj]

/-- In every state of every run, whatever the loops and the clients do: the work for
    connection `i` is done by loop `i % threads + 1` alone (by the base loop, if there are
    no threads), and no loop has got two connections more than another one. -/
theorem confined_run (user : UserCode κ ε) (context : κ) (threads : Nat) (highWater : Int)
    {ls : List (Label ε)} (h : Runs.exec (step user context) (start context threads highWater) ls = some s) :
    Confined threads s ∧ ∀ j < threads, ∀ j' < threads, s.load (j + 1) ≤ s.load (j' + 1) + 1 := by
  have hpreserved : ∀ (t : Server κ) (l : Label ε) (t' : Server κ), t.Reachable ∧ Dealt threads t →
      t.step user context l = some t' → t'.Reachable ∧ Dealt threads t' := by
    intro t l t' ht hstep
    have hgood := (ht.1.held (step_fault hstep)).toGood
    exact ⟨reachable_step t l t' ht.1 hstep, dealt_step hgood ht.2 hstep⟩
  obtain ⟨hreachable, hdealt⟩ := Runs.exec_preserves hpreserved
    ⟨reachable_start context threads highWater, dealt_start context threads highWater⟩ h
  refine ⟨confined_of_dealt hreachable.toOwned hdealt, fun j hj j' hj' => ?_⟩
  rw [load_of_dealt hdealt hj, load_of_dealt hdealt hj']
  split <;> omega

/-- Three connections for two loops, which both work. -/
theorem confined_run_three :
    ∃ s, Runs.exec (step hangsUp ()) (start () 2 100)
        [.accept 7, .accept 8, .pop 1, .accept 9, .run 1 ⟨0, []⟩ (), .pop 2, .run 2 ⟨0, []⟩ ()] = some s ∧
      (s.load 1, s.load 2) = (2, 1) ∧ Confined 2 s := by
  have hrun : ((Runs.exec (step hangsUp ()) (start () 2 100) [.accept 7, .accept 8, .pop 1, .accept 9,
      .run 1 ⟨0, []⟩ (), .pop 2, .run 2 ⟨0, []⟩ ()]).map fun s => (s.load 1, s.load 2)) = some (2, 1) := by
    decide +kernel
  obtain ⟨s, hs, hloads⟩ := Option.map_eq_some_iff.mp hrun
  exact ⟨s, hs, hloads, (confined_run hangsUp () 2 100 hs).1⟩

end Server

end QGServer
