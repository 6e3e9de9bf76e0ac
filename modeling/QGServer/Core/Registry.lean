-- SUMMARY: connections_ under reuse of descriptors: no entry is ever replaced or erased for another connection.
import QGServer.Core.Projection

/-!
# The registry

`connections_` is keyed by descriptor, and a descriptor is given out again once
the connection that held it is destroyed. Until then someone holds a
`shared_ptr`: the registry itself, a functor of one of the two loops or a
callback. So the connections that are alive have descriptors of their own, and
each operation on `connections_` finds its own entry or none. Nothing here
depends on `handleClose` being called once only.
-/

namespace QGServer

/-! ## One connection -/

namespace Session

variable {κ ε : Type*} {user : UserCode κ ε} {s s' : Session κ} {l : Label ε}

/-- What holds of a session however often it is closed: its handler is
    registered before `closeConnection` runs, and not again. -/
structure Held (s : Session κ) : Prop extends Lifetime s where
  registered : s.registered = true → s.closed = 0

theorem held_start (context : κ) : (start context).Held :=
  ⟨lifetime_start context, fun _ => rfl⟩

theorem Held.alive (h : s.Held) (hreg : s.registered = true) : s.alive = true :=
  alive_of_not_closed h.toLifetime (h.registered hreg)

/-- Member functions other than `handleConnection` and `closeConnection` do not
    touch the handler map. -/
theorem registered_perform {r : Result} (hr : Ordinary r)
    (h : s.registered = true → s.closed = 0) :
    (s.perform r).registered = true → (s.perform r).closed = 0 := by
  obtain ⟨hreg, hclosed, -⟩ := registered_foldl (s := { s with conn := r.conn })
    hr.registers hr.removes hr.closed
  unfold perform
  rw [hreg, hclosed]
  exact h

theorem held_move (h : s.Held) (hmove : Move user s l s') (halive : s'.fault = none) :
    s'.Held := by
  refine ⟨lifetime_move h.toLifetime hmove halive, ?_⟩
  have hreg := h.registered
  cases hmove with
  | message hpolling hreading hlives hrs huser => exact hreg
  | readClose hpolling hreading hlives hrs =>
      exact registered_perform TcpConnection.ordinary_close hreg
  | readError hpolling hreading hlives hrs =>
      exact registered_perform TcpConnection.ordinary_handleClose hreg
  | writable hpolling hwriting hlives hw =>
      exact registered_perform (TcpConnection.ordinary_handleWrite hw) hreg
  | call hframe => exact registered_perform (TcpConnection.ordinary_call _) hreg
  | leave hframe => exact hreg
  | popIo hpolling => exact hreg
  | handleConnection hfront huser =>
      have hfresh := h.fresh (by simp [BatchQueue.waiting_start hfront])
      have hfault : s.fault = none :=
        fault_of_perform (s := { s with io := s.io.start }) (r := s.conn.handleConnection) halive
      rw [perform_handleConnection (s := { s with io := s.io.start }) hfault]
      intro _
      by_contra hne
      exact hfresh.notClosing (.inr (.inr (Nat.pos_of_ne_zero hne)))
  | writeInLoop hfront hlives hw =>
      exact registered_perform (TcpConnection.ordinary_writeInLoop hw) hreg
  | writeComplete hfront huser => exact hreg
  | closeConnection hfront =>
      rw [(perform_closeConnection halive).2]
      intro hfalse
      cases hfalse
  | doneIo hrunning hframe => exact hreg
  | popBase hidle => exact hreg
  | runBase hfront => exact hreg
  | doneBase hrunning => exact hreg

/-- What a run that the process survives keeps. -/
theorem held_run {ls : List (Label ε)} (h : s.Held)
    (hrun : Runs.exec (step user) s ls = some s') (halive : s'.fault = none) :
    s'.Held ∧ (s'.alive = true → s.alive = true) := by
  induction ls generalizing s with
  | nil =>
      obtain rfl := Option.some.inj hrun
      exact ⟨h, id⟩
  | cons l ls ih =>
      obtain ⟨t, ht, hrest⟩ := Option.bind_eq_some_iff.mp hrun
      have htfault : t.fault = none := by
        by_contra hfault
        obtain rfl := exec_of_fault hfault hrest
        exact hfault halive
      have hmove := step_cases ht htfault
      obtain ⟨hheld, hback⟩ := ih (held_move h hmove htfault) hrest
      exact ⟨hheld, fun h' => alive_move hmove (hback h')⟩

end Session

/-! ## Descriptors of the connections that are alive -/

namespace Server

variable {κ ε : Type*} {s s' : Server κ} {user : UserCode κ ε} {context : κ} {l : Label ε}

/-- A step that builds no connection leaves the numbering alone. -/
theorem step_frame (hgood : s.Good) (h : s.step user context l = some s')
    (hl : ∀ fd, l = .accept fd → s' = s) :
    s'.constructed = s.constructed ∧ (∀ i, (s'.connection i).fd = (s.connection i).fd) ∧
      (∀ i, (s'.connection i).loop = (s.connection i).loop) ∧ s'.Owned := by
  rcases step_cases hgood h with ⟨rfl, -⟩ | ⟨fd, rfl, -, hnew⟩ | ⟨k, l', ⟨-, σ, hacts, -⟩, -⟩ |
    ⟨j, rfl⟩ | ⟨j, rfl⟩
  · exact ⟨rfl, fun _ => rfl, fun _ => rfl, hgood.toOwned⟩
  · obtain rfl := hl fd rfl
    exact ⟨rfl, fun _ => rfl, fun _ => rfl, hgood.toOwned⟩
  · exact ⟨hacts.frame.constructed, hacts.frame.fd, hacts.frame.loop,
      hacts.frame.owned hgood.toOwned⟩
  · have hfault := step_fault h
    unfold step at h
    simp only [hfault, Option.isSome_none, Bool.false_eq_true, if_false,
      Option.ite_none_right_eq_some, Option.some.injEq] at h
    obtain ⟨-, rfl⟩ := h
    exact ⟨rfl, fun _ => rfl, fun _ => rfl,
      owned_setQueue hgood.toOwned BatchQueue.all_popAll_subset⟩
  · have hfault := step_fault h
    unfold step at h
    simp only [hfault, Option.isSome_none, Bool.false_eq_true, if_false,
      Option.ite_none_right_eq_some, Option.some.injEq] at h
    obtain ⟨-, rfl⟩ := h
    exact ⟨rfl, fun _ => rfl, fun _ => rfl,
      owned_setQueue hgood.toOwned BatchQueue.all_finish_sublist.subset⟩

/-- The handler of a connection is that of a connection that was constructed. -/
theorem Owned.lt_of_registered (h : s.Owned) {i : Nat} (hreg : (s.session i).registered = true) :
    i < s.constructed := by
  have hmem : (s.loops (s.connection i).loop).handlerMap (s.connection i).fd = some i := by
    simpa [session] using hreg
  exact (h.handlers _ _ _ hmem).1

/-- Descriptors stay apart while no connection comes back to life. -/
theorem good_of_sessions (hgood : s.Good) (hconstructed : s'.constructed = s.constructed)
    (hfd : ∀ i, (s'.connection i).fd = (s.connection i).fd) (ho : s'.Owned)
    (hback : ∀ i < s.constructed, s'.alive i = true → s.alive i = true)
    (hreg : ∀ i < s.constructed, (s'.session i).registered = true → s'.alive i = true) :
    s'.Good := by
  refine ⟨ho, fun i j hi hj hai haj hfds => ?_, fun i h => ?_⟩
  · rw [hconstructed] at hi hj
    rw [hfd, hfd] at hfds
    exact hgood.distinct i j hi hj (hback i hi hai) (hback j hj haj) hfds
  · exact hreg i (hconstructed ▸ ho.lt_of_registered h) h

/-- The connections after `handleNewCon` are the ones before it and the new one. -/
theorem lt_constructed_handleNewCon {fd i : Nat}
    (hi : i < (s.handleNewCon context fd).constructed) : i < s.constructed ∨ i = s.constructed :=
  Nat.lt_succ_iff_lt_or_eq.mp hi

/-- The kernel gives a new connection a descriptor that no other one holds. -/
theorem good_accept {fd : Nat} (hgood : s.Good) (hfault : s.fault = none)
    (hfree : s.fdFree fd = true) : (s.handleNewCon context fd).Good := by
  have hnew : (s.handleNewCon context fd).session s.constructed = .start context :=
    session_handleNewCon hgood.toOwned hfault
  have hold : ∀ i < s.constructed, (s.handleNewCon context fd).session i = s.session i :=
    fun i hi => session_handleNewCon_of_lt hfree hi
  have ho : (s.handleNewCon context fd).Owned := owned_handleNewCon hgood.toOwned
  have hfdOld : ∀ i < s.constructed,
      ((s.handleNewCon context fd).connection i).fd = (s.connection i).fd := by
    intro i hi
    simp [handleNewCon, Function.update_of_ne hi.ne]
  have hfdNew : ((s.handleNewCon context fd).connection s.constructed).fd = fd := by
    simp [handleNewCon]
  have hback : ∀ i < s.constructed,
      (s.handleNewCon context fd).alive i = s.alive i := by
    intro i hi
    unfold alive
    rw [hold i hi]
  refine ⟨ho, fun i j hi hj hai haj hfds => ?_, fun i hreg => ?_⟩
  · rcases lt_constructed_handleNewCon hi with hi | rfl <;>
      rcases lt_constructed_handleNewCon hj with hj | rfl
    · rw [hfdOld i hi, hfdOld j hj] at hfds
      exact hgood.distinct i j hi hj (hback i hi ▸ hai) (hback j hj ▸ haj) hfds
    · rw [hfdOld i hi, hfdNew] at hfds
      exact absurd hfds (fdFree_iff.mp hfree i hi (hback i hi ▸ hai))
    · rw [hfdOld j hj, hfdNew] at hfds
      exact absurd hfds.symm (fdFree_iff.mp hfree j hj (hback j hj ▸ haj))
    · rfl
  · rcases lt_constructed_handleNewCon (ho.lt_of_registered hreg) with hi | rfl
    · rw [hold i hi] at hreg
      rw [hback i hi]
      exact hgood.registered i hreg
    · rw [hnew] at hreg
      cases hreg

/-! ## The invariant -/

/-- The server is sound as to who holds what, and so are its sessions. -/
structure Held (s : Server κ) : Prop extends Good s where
  sessions : ∀ i < s.constructed, (s.session i).Held

/-- What every state reached satisfies, the last one of a process that died included. -/
structure Reachable (s : Server κ) : Prop extends Owned s where
  held : s.fault = none → s.Held

theorem good_start (context : κ) (threads : Nat) (highWater : Int) :
    (start context threads highWater).Good := by
  refine ⟨⟨?_, ?_, ?_, ?_, ?_⟩, ?_, ?_⟩
  · intro l fd i h
    cases h
  · intro fd i h
    cases h
  · intro l i f h
    cases h
  · intro l i h
    cases h
  · intro l i f h
    cases h
  · intro i j hi
    cases hi
  · intro i h
    cases h

theorem reachable_start (context : κ) (threads : Nat) (highWater : Int) :
    (start context threads highWater).Reachable := by
  have hgood := good_start context threads highWater
  exact ⟨hgood.toOwned, fun _ => ⟨hgood, fun i hi => by cases hi⟩⟩

/-- A step either builds a connection under a free descriptor or leaves the
    numbering alone. -/
theorem step_new_or_frame (h : s.step user context l = some s') :
    (∃ fd, l = .accept fd ∧ s.fdFree fd = true ∧ s' = s.handleNewCon context fd) ∨
      ∀ fd, l = .accept fd → s' = s := by
  cases l with
  | accept fd =>
      rcases step_accept h with rfl | ⟨hfree, rfl⟩
      · exact .inr fun _ _ => rfl
      · exact .inl ⟨fd, rfl, hfree, rfl⟩
  | _ => exact .inr fun _ hl => by cases hl

theorem held_accept {fd : Nat} (h : s.Held) (hfault : s.fault = none)
    (hfree : s.fdFree fd = true) : (s.handleNewCon context fd).Held := by
  refine ⟨good_accept h.toGood hfault hfree, fun i hi => ?_⟩
  rcases lt_constructed_handleNewCon hi with hi | rfl
  · rw [session_handleNewCon_of_lt hfree hi]
    exact h.sessions i hi
  · rw [session_handleNewCon h.toOwned hfault]
    exact Session.held_start context

theorem reachable_step (s : Server κ) (l : Label ε) (s' : Server κ) (h : s.Reachable)
    (hstep : s.step user context l = some s') : s'.Reachable := by
  have hfault := step_fault hstep
  have hheld := h.held hfault
  rcases step_new_or_frame hstep with ⟨fd, -, hfree, rfl⟩ | hl
  · have hnew : (s.handleNewCon context fd).Held := held_accept hheld hfault hfree
    exact ⟨hnew.toOwned, fun _ => hnew⟩
  · obtain ⟨hconstructed, hfd, -, ho⟩ := step_frame hheld.toGood hstep hl
    refine ⟨ho, fun halive => ?_⟩
    have hsessions : ∀ i < s.constructed,
        (s'.session i).Held ∧ ((s'.session i).alive = true → (s.session i).alive = true) :=
      fun i hi => Session.held_run (hheld.sessions i hi) (step_session hheld.toGood hstep hi)
        (fault_session halive)
    refine ⟨?_, fun i hi => (hsessions i (hconstructed ▸ hi)).1⟩
    exact good_of_sessions hheld.toGood hconstructed hfd ho (fun i hi => (hsessions i hi).2)
      fun i hi hreg => (hsessions i hi).1.alive hreg

/-! ## Entries -/

/-- Every entry is that of a connection which is not destroyed, under its own
    descriptor. -/
def EntriesAlive (s : Server κ) : Prop :=
  ∀ fd i, s.connections fd = some i →
    i < s.constructed ∧ (s.connection i).fd = fd ∧ s.alive i = true

theorem Owned.entriesAlive (h : s.Owned) : s.EntriesAlive := by
  intro fd i hentry
  obtain ⟨hi, rfl⟩ := h.entries fd i hentry
  refine ⟨hi, rfl, ?_⟩
  simp [alive, Session.alive, session, hentry]

/-- The descriptor under which a step makes `handleNewCon` enter a connection. -/
def enters (s : Server κ) : Label ε → Option Nat
  | .accept fd =>
    if s.fault.isNone && s.polling 0 && s.fdFree fd && s.connectionNumber ≤ s.connectionHighWater
    then some fd else none
  | _ => none

/-- A step enters a connection exactly if it accepts one. -/
theorem enters_cases (h : s.step user context l = some s') :
    (∃ fd, l = .accept fd ∧ s.enters l = some fd ∧ s.fdFree fd = true ∧
        s' = s.handleNewCon context fd) ∨
      s.enters l = none ∧ ∀ fd, l = .accept fd → s' = s := by
  cases l with
  | accept fd =>
      have hfault := step_fault h
      unfold step at h
      simp only [hfault, Option.isSome_none, Bool.false_eq_true, if_false,
        Option.ite_none_right_eq_some, Bool.and_eq_true] at h
      obtain ⟨⟨hpolling, hfree⟩, h⟩ := h
      split at h
      · rename_i hhigh
        refine .inr ⟨?_, fun _ _ => (Option.some.inj h).symm⟩
        simp [enters, not_le.mpr hhigh]
      · rename_i hhigh
        refine .inl ⟨fd, rfl, ?_, hfree, (Option.some.inj h).symm⟩
        simp [enters, hfault, hpolling, hfree, not_lt.mp hhigh]
  | _ => exact .inr ⟨rfl, fun _ hl => by cases hl⟩

/-- The connection for which a step runs `handleConnectionClose`. -/
def forgets (s : Server κ) : Label ε → Option Nat
  | .run j _ _ =>
    match s.fault, (s.loops j).frame, (s.loops j).queue.front with
    | none, none, some (.handleConnectionClose i) => some i
    | _, _, _ => none
  | _ => none

/-- `handleNewCon` overwrites no entry, and `handleConnectionClose` erases the
    entry of its own connection or none. -/
structure KeepsEntries (s : Server κ) (l : Label ε) : Prop where
  enters : ∀ fd ∈ s.enters l, s.connections fd = none
  forgets : ∀ i ∈ s.forgets l,
    s.connections (s.connection i).fd = none ∨ s.connections (s.connection i).fd = some i

/-- A descriptor that the kernel gives out has no entry. -/
theorem Owned.entry_of_free {fd : Nat} (h : s.Owned) (hfree : s.fdFree fd = true) :
    s.connections fd = none := by
  cases hentry : s.connections fd with
  | none => rfl
  | some i =>
      obtain ⟨hi, hfd, halive⟩ := h.entriesAlive fd i hentry
      exact absurd hfd (fdFree_iff.mp hfree i hi halive)

/-- The functor that asks for a connection to be forgotten holds it. -/
theorem alive_of_forgetting {i : Nat} (hmem : .handleConnectionClose i ∈ (s.loops 0).queue.all) :
    s.alive i = true := by
  have hbase : .handleConnectionClose ∈ (s.session i).base.all := by
    have hmap : Functor.baseOf i (.handleConnectionClose i) = some .handleConnectionClose := by
      simp [Functor.baseOf]
    simp only [BatchQueue.all, List.mem_append] at hmem ⊢
    exact hmem.imp (fun h => List.mem_filterMap.mpr ⟨_, h, hmap⟩)
      fun h => List.mem_filterMap.mpr ⟨_, h, hmap⟩
  have hne : (s.session i).base.all ≠ [] := List.ne_nil_of_mem hbase
  simp [alive, Session.alive, hne]

theorem forgets_eq_some {i : Nat} (h : s.forgets l = some i) :
    s.fault = none ∧ ∃ j, (s.loops j).queue.front = some (.handleConnectionClose i) := by
  unfold forgets at h
  split at h
  · rename_i j _ _
    split at h
    · rename_i hfault _ hfront
      obtain rfl := Option.some.inj h
      exact ⟨hfault, j, hfront⟩
    · cases h
  · cases h

theorem keepsEntries_of_reachable (h : s.Reachable) (l : Label ε) : s.KeepsEntries l := by
  constructor
  · intro fd hfd
    unfold enters at hfd
    split at hfd
    · rename_i fd'
      rw [Option.mem_def, Option.ite_none_right_eq_some] at hfd
      obtain ⟨hcond, hfd⟩ := hfd
      obtain rfl := Option.some.inj hfd
      simp only [Bool.and_eq_true] at hcond
      exact h.entry_of_free hcond.1.2
    · cases hfd
  · intro i hi
    obtain ⟨hfault, j, hfront⟩ := forgets_eq_some hi
    obtain ⟨hk, rfl⟩ := h.closes _ _ (BatchQueue.mem_all_of_front hfront)
    have halive := alive_of_forgetting (BatchQueue.mem_all_of_front hfront)
    have hown := (h.held hfault).ownEntry hk halive
    cases hentry : s.connections (s.connection i).fd with
    | none => exact .inl rfl
    | some k => exact .inr (by rw [hown k hentry])

/-- In every run, whatever the loops do and however often a connection is closed,
    the entries are sound and every operation on `connections_` keeps to its own. -/
theorem registry_sound (user : UserCode κ ε) (context : κ) (threads : Nat) (highWater : Int)
    {ls : List (Label ε)} {s : Server κ}
    (h : Runs.exec (step user context) (start context threads highWater) ls = some s) :
    s.EntriesAlive ∧
      Runs.Along (step user context) KeepsEntries (start context threads highWater) ls := by
  have hstart := reachable_start context threads highWater
  have hend : s.Reachable := Runs.exec_preserves reachable_step hstart h
  exact ⟨hend.toOwned.entriesAlive,
    Runs.along_of_preserves reachable_step (fun _ l ht => keepsEntries_of_reachable ht l) hstart⟩

/-! ## A run in which a descriptor is used again -/

/-- A user that closes when a message comes. -/
def hangsUp : UserCode Unit Unit where
  connectionCome _ _ := .ok ((), [])
  message _ _ _ := .ok ((), [.close])
  writeComplete _ _ _ := .ok ((), [])

/-- A connection comes and is closed, and the next one gets its descriptor. -/
def reused : List (Label Unit) :=
  [.accept 7, .pop 1, .run 1 ⟨0, []⟩ (), .leave 1, .done 1,
    .readable 0
      [.data ⟨[97], Nat.one_pos, TcpConnection.one_le_defaultReadBuffSize⟩, .error .eagain] (),
    .call 1, .leave 1, .pop 0, .run 0 ⟨0, []⟩ (), .done 0, .pop 1, .run 1 ⟨0, []⟩ (), .done 1,
    .accept 7]

theorem registry_sound_reused :
    ∃ s, Runs.exec (step hangsUp ()) (start () 1 100) reused = some s ∧
      s.connections 7 = some 1 ∧ s.EntriesAlive ∧
      Runs.Along (step hangsUp ()) KeepsEntries (start () 1 100) reused := by
  have hrun : ((Runs.exec (step hangsUp ()) (start () 1 100) reused).bind
      fun s => s.connections 7) = some 1 := by
    decide +kernel
  obtain ⟨s, hs, hentry⟩ := Option.bind_eq_some_iff.mp hrun
  exact ⟨s, hs, hentry, registry_sound hangsUp () 1 100 hs⟩

end Server

end QGServer
