-- SUMMARY: The connection counter of the accepter, its high-water mark, and when the two keep to the configured limit.
import Mathlib.Tactic.Ring
import QGServer.Library.Runs
import QGServer.Util.Types

/-!
# The accepter

`Accepter` (`src/core/accepter.{h,cpp}`), as far as it counts connections: the
loop of `handleRead` takes new ones in the base loop, and `closeConnection` of
`TcpConnection` ends them in an io loop. The counter is changed by one loop at a
time.
-/

namespace QGServer

structure Accepter where
  connectionNumber : Int
  connectionHighWater : Int
  /-- The connections that have not run `closeConnection`. -/
  live : Nat
  deriving DecidableEq, Repr

namespace Accepter

def defaultConnectionHighWater : Int := 2000

/-- The constructor. -/
def new (maxConnections : Int32) : Accepter :=
  let water := toInt (maxConnections.toInt - 10)
  { connectionNumber := 0
    connectionHighWater := if defaultConnectionHighWater > water then defaultConnectionHighWater
      else water
    live := 0 }

def incConnection (a : Accepter) : Accepter :=
  { a with connectionNumber := toInt (a.connectionNumber + 1) }

def decConnection (a : Accepter) : Accepter :=
  { a with connectionNumber := toInt (a.connectionNumber - 1) }

inductive Label where
  /-- `accept` gives a descriptor to the loop of `handleRead`, which closes it or has
      a `TcpConnection` made. -/
  | accept
  /-- `closeConnection` of a connection. -/
  | closeConnection
  deriving DecidableEq, Repr

def step (a : Accepter) : Label → Option Accepter
  | .accept =>
    if a.connectionNumber > a.connectionHighWater then some a
    else some { a.incConnection with live := a.live + 1 }
  | .closeConnection => if a.live = 0 then none else some { a.decConnection with live := a.live - 1 }

section Bound

variable {a a' : Accepter} {m : Int32} {l : Label}

theorem toInt_of_range {n : Int} (hlow : -(2 ^ 31) ≤ n) (hhigh : n < 2 ^ 31) : toInt n = n := by
  unfold toInt
  rw [Int.bmod_eq_of_le] <;> omega

/-- The counter is right, and at most one more than the mark. -/
structure Counted (water : Int) (a : Accepter) : Prop where
  mark : a.connectionHighWater = water
  exact : a.connectionNumber = a.live
  le : a.connectionNumber ≤ water + 1

theorem Counted.step {water : Int} (hwater : water + 1 < 2 ^ 31) (h : a.Counted water)
    (hstep : step a l = some a') : a'.Counted water := by
  obtain ⟨hmark, hexact, hle⟩ := h
  cases l with
  | accept =>
      unfold Accepter.step at hstep
      dsimp only at hstep
      split at hstep
      · cases hstep
        exact ⟨hmark, hexact, hle⟩
      · rename_i hlow
        cases hstep
        have hnumber : toInt (a.connectionNumber + 1) = a.connectionNumber + 1 :=
          toInt_of_range (by omega) (by omega)
        refine ⟨hmark, ?_, ?_⟩
        · simp only [incConnection, hnumber]
          omega
        · simp only [incConnection, hnumber]
          omega
  | closeConnection =>
      unfold Accepter.step at hstep
      dsimp only at hstep
      split at hstep
      · cases hstep
      · rename_i hlive
        cases hstep
        have hnumber : toInt (a.connectionNumber - 1) = a.connectionNumber - 1 :=
          toInt_of_range (by omega) (by omega)
        refine ⟨hmark, ?_, ?_⟩
        · simp only [decConnection, hnumber]
          omega
        · simp only [decConnection, hnumber]
          omega

/-- The mark is below the limit from 2001 connections on. -/
theorem connectionHighWater_lt (hm : 2001 ≤ m.toInt) :
    (new m).connectionHighWater + 1 ≤ m.toInt := by
  have hlt := m.toInt_lt
  have hwater : toInt (m.toInt - 10) = m.toInt - 10 := toInt_of_range (by omega) (by omega)
  unfold new defaultConnectionHighWater
  simp only [hwater]
  split <;> omega

/-- New connections up to one more than the mark are taken. -/
theorem exec_accept {k : Nat} (hk : a.connectionNumber + k ≤ a.connectionHighWater + 1)
    (hlow : 0 ≤ a.connectionNumber) (hint : a.connectionNumber + k < 2 ^ 31) :
    ∃ a', Runs.exec Accepter.step a (List.replicate k .accept) = some a' ∧
      a'.connectionNumber = a.connectionNumber + k := by
  induction k generalizing a with
  | zero => exact ⟨a, rfl, by simp⟩
  | succ k ih =>
      have hnumber : toInt (a.connectionNumber + 1) = a.connectionNumber + 1 :=
        toInt_of_range (by omega) (by omega)
      have htake : ¬ a.connectionNumber > a.connectionHighWater := by omega
      have hstep : Accepter.step a .accept = some { a.incConnection with live := a.live + 1 } := by
        simp only [Accepter.step, htake, if_false]
      have hnext : ({ a.incConnection with live := a.live + 1 } : Accepter).connectionNumber
          = a.connectionNumber + 1 := hnumber
      obtain ⟨a', hrun, hend⟩ := ih (a := { a.incConnection with live := a.live + 1 })
        (by rw [hnext]; change _ ≤ a.connectionHighWater + 1; omega) (by omega)
        (by rw [hnext]; omega)
      refine ⟨a', ?_, ?_⟩
      · rw [List.replicate_succ, Runs.exec_cons, hstep]
        exact hrun
      · rw [hend, hnext]
        push_cast
        ring

/-- The mark is at least the default one. -/
theorem default_le : defaultConnectionHighWater ≤ (new m).connectionHighWater := by
  unfold new
  dsimp only
  split <;> omega

/-- The counter keeps to the configured limit in every run if and only if the limit is
    larger than the default mark. -/
theorem connectionNumber_le_iff (m : Int32) :
    (∀ labels a, Runs.exec step (new m) labels = some a → a.connectionNumber ≤ m.toInt) ↔
      2001 ≤ m.toInt := by
  constructor
  · intro h
    by_contra hm
    have hstart : 0 ≤ m.toInt := h [] (new m) rfl
    have hdefault : defaultConnectionHighWater ≤ (new m).connectionHighWater := default_le
    unfold defaultConnectionHighWater at hdefault
    have hzero : (new m).connectionNumber = 0 := rfl
    obtain ⟨a, hrun, hnumber⟩ := exec_accept (a := new m) (k := m.toInt.toNat + 1)
      (by omega) (by omega) (by omega)
    have hle := h _ a hrun
    omega
  · intro hm labels a hrun
    have hmark := connectionHighWater_lt hm
    have hlt := m.toInt_lt
    have hdefault : defaultConnectionHighWater ≤ (new m).connectionHighWater := default_le
    unfold defaultConnectionHighWater at hdefault
    have hzero : (new m).connectionNumber = 0 := rfl
    have hinv : a.Counted (new m).connectionHighWater :=
      Runs.exec_preserves (fun _ _ _ hinv hstep => Counted.step (by omega) hinv hstep)
        ⟨rfl, rfl, by omega⟩ hrun
    have hle := hinv.le
    omega

/-- The limit of the test programs is exceeded by its first extra connection. -/
theorem connectionNumber_exceeds : ¬ ∀ labels a, Runs.exec step (new 100) labels = some a →
    a.connectionNumber ≤ (100 : Int32).toInt := by
  intro h
  obtain ⟨a, hrun, hnumber⟩ : ∃ a, Runs.exec step (new 100) (List.replicate 101 .accept) = some a ∧
      a.connectionNumber = 101 :=
    ⟨⟨101, 2000, 101⟩, by decide +kernel, rfl⟩
  have hle := h _ a hrun
  rw [hnumber] at hle
  exact absurd hle (by decide)

end Bound

end Accepter

end QGServer
