-- SUMMARY: The history of each connection in a run of the server, which is a history of its session.
import QGServer.Core.Registry
import QGServer.Core.Streams

/-!
# Histories of connections

A step of the server is a run of each session (`step_session`). So the whole run is one
as well, from the session as it is constructed: `historyOf` cuts out of what the server
has done what it has done for one connection. What is proved of the runs of sessions
then holds of every connection of the server, whatever goes on at the others.
-/

namespace QGServer

namespace Server

variable {κ ε : Type*} (user : UserCode κ ε)

/-- The steps of a session, the last one first. -/
def replay (σ : Session κ) : List (Session.Label ε) → Session.Past κ ε
  | [] => []
  | l :: ls =>
    match Session.step user σ l with
    | some σ' => replay σ' ls ++ [(σ, l)]
    | none => []

/-- The steps of the session of connection `i`, the last one first. -/
def historyOf (i : Nat) : List (Server κ × Label ε) → Session.Past κ ε
  | [] => []
  | (s, l) :: past =>
    (if i < s.constructed then replay user (s.session i) (s.sessionLabels i l) else []) ++
      historyOf i past

variable {user} {context : κ}

theorem exec_replay {σ σ' : Session κ} {ls : List (Session.Label ε)} {past : Session.Past κ ε}
    (h : Runs.exec (Session.step user) σ ls = some σ') :
    Runs.exec (Runs.record (Session.step user)) (σ, past) ls =
      some (σ', replay user σ ls ++ past) := by
  induction ls generalizing σ past with
  | nil =>
      cases h
      rfl
  | cons l ls ih =>
      obtain ⟨u, hu, h⟩ := Option.bind_eq_some_iff.mp h
      have hrecord : Runs.record (Session.step user) (σ, past) l = some (u, (σ, l) :: past) := by
        rw [Runs.record, hu]
        rfl
      rw [Runs.exec_cons, hrecord, Option.bind_some, ih h, replay, hu, List.append_assoc]
      rfl

/-- What every history of the server satisfies. -/
structure Projects (user : UserCode κ ε) (context : κ) (h : Server κ × List (Server κ × Label ε)) :
    Prop where
  reachable : h.1.Reachable
  fresh : ∀ i, h.1.constructed ≤ i → historyOf user i h.2 = []
  sessions : h.1.fault = none → ∀ i < h.1.constructed, ∃ ls : List (Session.Label ε),
    Runs.exec (Runs.record (Session.step user)) (Session.start context, []) ls =
      some (h.1.session i, historyOf user i h.2)

theorem projects_start (threads : Nat) (highWater : Int) :
    Projects user context (start context threads highWater, []) :=
  ⟨reachable_start context threads highWater, fun _ _ => rfl, fun _ _ hi => (by cases hi)⟩

/-- The session of a connection that is there goes on. -/
theorem exec_historyOf {s s' : Server κ} {l : Label ε} {past : List (Server κ × Label ε)} {i : Nat}
    (hgood : s.Good) (hi : i < s.constructed) (hstep : s.step user context l = some s')
    {ls : List (Session.Label ε)}
    (h : Runs.exec (Runs.record (Session.step user)) (Session.start context, []) ls =
      some (s.session i, historyOf user i past)) :
    Runs.exec (Runs.record (Session.step user)) (Session.start context, [])
        (ls ++ s.sessionLabels i l) =
      some (s'.session i, historyOf user i ((s, l) :: past)) := by
  rw [Runs.exec_append, h, Option.bind_some, exec_replay (step_session hgood hstep hi), historyOf,
    if_pos hi]

theorem projects_step (h : Server κ × List (Server κ × Label ε)) (l : Label ε)
    (h' : Server κ × List (Server κ × Label ε)) (hprojects : Projects user context h)
    (hrecord : Runs.record (step user context) h l = some h') : Projects user context h' := by
  obtain ⟨s, past⟩ := h
  obtain ⟨s', past'⟩ := h'
  obtain ⟨hstep, rfl⟩ := Runs.record_eq_some hrecord
  have hfault : s.fault = none := step_fault hstep
  have hgood : s.Good := (hprojects.reachable.held hfault).toGood
  have hgone : ∀ i, s.constructed ≤ i → historyOf user i ((s, l) :: past) = [] := by
    intro i hi
    rw [historyOf, if_neg hi.not_gt, List.nil_append]
    exact hprojects.fresh i hi
  have hthere : ∀ i < s.constructed, ∃ ls : List (Session.Label ε),
      Runs.exec (Runs.record (Session.step user)) (Session.start context, []) ls =
        some (s'.session i, historyOf user i ((s, l) :: past)) := by
    intro i hi
    obtain ⟨ls, hls⟩ := hprojects.sessions hfault i hi
    exact ⟨_, exec_historyOf hgood hi hstep hls⟩
  refine ⟨reachable_step s l s' hprojects.reachable hstep, ?_, ?_⟩
  · intro i hi
    apply hgone
    rcases step_new_or_frame hstep with ⟨fd, -, hfree, rfl⟩ | hl
    · exact (Nat.le_succ _).trans hi
    · exact (step_frame hgood hstep hl).1 ▸ hi
  · intro halive i hi
    rcases step_new_or_frame hstep with ⟨fd, -, hfree, rfl⟩ | hl
    · rcases lt_constructed_handleNewCon hi with hi | rfl
      · exact hthere i hi
      · -- the connection that has just been constructed
        refine ⟨[], ?_⟩
        rw [hgone _ le_rfl]
        change some (Session.start context, []) = some (_, [])
        rw [session_handleNewCon hgood.toOwned hfault]
    · exact hthere i ((step_frame hgood hstep hl).1 ▸ hi)

theorem projects_exec {threads : Nat} {highWater : Int} {ls : List (Label ε)}
    {h : Server κ × List (Server κ × Label ε)}
    (hrun : Runs.exec (Runs.record (step user context)) (start context threads highWater, []) ls =
      some h) : Projects user context h :=
  Runs.exec_preserves projects_step (projects_start threads highWater) hrun

/-- Every run of the server is, for each of its connections, a run of one session from
    its construction on, with the history that is the connection's own. -/
theorem projects_run (user : UserCode κ ε) (context : κ) (threads : Nat) (highWater : Int)
    {ls : List (Label ε)} {h : Server κ × List (Server κ × Label ε)}
    (hrun : Runs.exec (Runs.record (step user context)) (start context threads highWater, []) ls =
      some h) (halive : h.1.fault = none) {i : Nat} (hi : i < h.1.constructed) :
    ∃ ls : List (Session.Label ε),
      Runs.exec (Runs.record (Session.step user)) (Session.start context, []) ls =
        some (h.1.session i, historyOf user i h.2) :=
  (projects_exec hrun).sessions halive i hi

/-- A connection that is closed by its user, and another one under its descriptor: in the
    history of the second nothing has happened. -/
theorem projects_run_reused :
    ∃ h, Runs.exec (Runs.record (step hangsUp ())) (start () 1 100, []) reused = some h ∧
      historyOf hangsUp 1 h.2 = [] ∧ ∃ ls : List (Session.Label Unit),
        Runs.exec (Runs.record (Session.step hangsUp)) (Session.start (), []) ls =
          some (h.1.session 0, historyOf hangsUp 0 h.2) := by
  have hrun : ((Runs.exec (Runs.record (step hangsUp ())) (start () 1 100, []) reused).any
      fun h => decide (h.1.fault = none ∧ h.1.constructed = 2) &&
        (historyOf hangsUp 1 h.2).isEmpty) = true := by
    decide +kernel
  obtain ⟨h, hh, hend⟩ := Option.any_eq_true _ _ |>.mp hrun
  obtain ⟨hsound, hfresh⟩ := Bool.and_eq_true_iff.mp hend
  obtain ⟨halive, hconstructed⟩ := of_decide_eq_true hsound
  exact ⟨h, hh, List.isEmpty_iff.mp hfresh,
    projects_run hangsUp () 1 100 hh halive (hconstructed ▸ Nat.zero_lt_two)⟩

end Server

end QGServer
