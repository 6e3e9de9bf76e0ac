-- SUMMARY: Byte strings, the narrowing to `int`, and the ways a call can end the process.
import Mathlib.Data.List.Basic
import Mathlib.Algebra.Order.Ring.Int

/-!
# Types

`qg_string` and `buf_t` (`src/util/type.h`) are lists of bytes. `int` is 32 bits
wide: a wider value stored in one keeps its value modulo `2 ^ 32`, read as a
signed number.
-/

namespace QGServer

/-- `std::string`. -/
abbrev Bytes := List UInt8

/-- The bytes of an ASCII literal. -/
def bytes (s : String) : Bytes := s.toList.map Char.toUInt8

/-! ## `int` -/

/-- The value an `int` has after `n` was stored in it. -/
def toInt (n : Int) : Int := n.bmod (2 ^ 32)

/-- One more than the largest `int`. -/
def intLimit : Nat := 2 ^ 31

theorem toInt_of_lt {n : Nat} (h : n < intLimit) : toInt n = n := by
  unfold toInt intLimit at *
  rw [Int.bmod_eq_of_le] <;> omega

theorem toInt_lt (n : Int) : toInt n < intLimit := by
  unfold toInt intLimit
  have h := @Int.bmod_lt n (2 ^ 32) (by decide)
  omega

theorem toInt_add_toInt (m n : Int) : toInt (toInt m + n) = toInt (m + n) := by
  simp [toInt]

/-! ## How a call can end the process -/

/-- What ends the process instead of letting a call return. -/
inductive Fault where
  /-- `abort()` or `assert(0)` in a parser callback. -/
  | abort
  /-- A failed `assert`. -/
  | assertFailed
  /-- `std::out_of_range`, thrown by `substr` and `append`. -/
  | outOfRange
  /-- `std::length_error`, thrown by a vector built from a negative size. -/
  | lengthError
  /-- `std::bad_alloc`. -/
  | badAlloc
  /-- `std::bad_any_cast`. -/
  | badAnyCast
  /-- A member function called through a pointer to a destroyed object. -/
  | useAfterFree
  /-- A read past the end of a buffer. -/
  | overrun
  deriving DecidableEq, Repr

/-- `s.substr(pos)`. The position arrives as a `size_t`, so a negative `int` is
    past the end of every string. -/
def substr (s : Bytes) (pos : Int) : Except Fault Bytes :=
  if 0 ≤ pos ∧ pos ≤ s.length then .ok (s.drop pos.toNat) else .error .outOfRange

theorem substr_ofNat {s : Bytes} {n : Nat} (h : n ≤ s.length) :
    substr s n = .ok (s.drop n) := by
  simp [substr, h]

end QGServer
