-- SUMMARY: Time stamps in microseconds, and adding seconds to them through a double.
import Mathlib.Algebra.Order.Ring.Int
import Mathlib.Tactic.Positivity

/-!
# TimeStamp

`src/util/time_stamp.h`. A time stamp is its count of microseconds, which the
source has in 64 bits. `addTime` has the seconds as a `double`: the conversion and
the product round to the nearest `double`, and both are integers. The cast of the
product and the sum can leave the 64 bits, and then they are undefined: `addTime`
has no value. Nowhere else are time stamps added.
-/

namespace QGServer

/-- `n` is a `qg_int64_t`. -/
def IsInt64 (n : Int) : Prop := -2 ^ 63 ≤ n ∧ n < 2 ^ 63

instance (n : Int) : Decidable (IsInt64 n) := inferInstanceAs (Decidable (_ ∧ _))

/-- `TimeStamp`, by `unix_time_stamp_`. Nothing is said here of its 64 bits: where a sum
    must not leave them, `addTime` says so. -/
abbrev TimeStamp := Int

namespace TimeStamp

def kMicroSecondsPerSecond : Int := 1000 * 1000

def toMilliseconds (t : TimeStamp) : Int := t.tdiv 1000

end TimeStamp

/-- The `double` nearest to an integer that is not negative, the even one of two. -/
def roundDouble (n : Nat) : Nat :=
  -- below `2 ^ 53` the unit is 1
  let unit := 2 ^ (n.log2 - 52)
  let q := n / unit
  let r := n % unit
  if 2 * r < unit ∨ 2 * r = unit ∧ q % 2 = 0 then q * unit else (q + 1) * unit

/-- The `double` nearest to an integer. -/
def toDouble (n : Int) : Int := n.sign * roundDouble n.natAbs

/-- The product in `addTime`. -/
def microseconds (seconds : Int) : Int := toDouble (toDouble seconds * TimeStamp.kMicroSecondsPerSecond)

/-- The cast of the product and the sum are undefined out of 64 bits, and have no value here. -/
def addTime (timeStamp : TimeStamp) (seconds : Int) : Option TimeStamp :=
  let delta := microseconds seconds
  if IsInt64 delta ∧ IsInt64 (timeStamp + delta) then some (timeStamp + delta) else none

theorem toDouble_nonneg {n : Int} (hn : 0 ≤ n) : 0 ≤ toDouble n :=
  mul_nonneg (Int.sign_nonneg_iff.mpr hn) (Int.natCast_nonneg _)

theorem addTime_eq_some {t t' : TimeStamp} {seconds : Int} :
    addTime t seconds = some t' ↔
      (IsInt64 (microseconds seconds) ∧ IsInt64 (t + microseconds seconds)) ∧
        t + microseconds seconds = t' := by
  unfold addTime
  rw [Option.ite_none_right_eq_some, Option.some.injEq]

theorem microseconds_nonneg {seconds : Int} (h : 0 ≤ seconds) : 0 ≤ microseconds seconds :=
  toDouble_nonneg (mul_nonneg (toDouble_nonneg h) (by decide))

/-- Time that is not negative does not lead back. -/
theorem le_of_addTime {t t' : TimeStamp} {seconds : Int} (h : 0 ≤ seconds)
    (hadd : addTime t seconds = some t') : t ≤ t' := by
  obtain ⟨-, rfl⟩ := addTime_eq_some.mp hadd
  exact Int.le_add_of_nonneg_right (microseconds_nonneg h)

theorem toDouble_nonpos {n : Int} (hn : n ≤ 0) : toDouble n ≤ 0 :=
  mul_nonpos_of_nonpos_of_nonneg (Int.sign_nonpos_iff.mpr hn) (Int.natCast_nonneg _)

theorem roundDouble_pos {n : Nat} (hn : 0 < n) : 0 < roundDouble n := by
  have hunit : 0 < 2 ^ (n.log2 - 52) := Nat.two_pow_pos _
  have hle : 2 ^ (n.log2 - 52) ≤ n :=
    (Nat.pow_le_pow_right Nat.two_pos (Nat.sub_le _ _)).trans (Nat.log2_self_le hn.ne')
  have hq : 0 < n / 2 ^ (n.log2 - 52) := Nat.div_pos hle hunit
  unfold roundDouble
  dsimp only
  split
  · exact Nat.mul_pos hq hunit
  · exact Nat.mul_pos (Nat.succ_pos _) hunit

theorem toDouble_pos {n : Int} (hn : 0 < n) : 0 < toDouble n := by
  have hround := roundDouble_pos (Int.natAbs_pos.mpr hn.ne')
  rw [toDouble, Int.sign_eq_one_of_pos hn, one_mul]
  exact_mod_cast hround

theorem microseconds_pos {seconds : Int} (h : 0 < seconds) : 0 < microseconds seconds :=
  toDouble_pos (mul_pos (toDouble_pos h) (by decide))

theorem microseconds_nonpos {seconds : Int} (h : seconds ≤ 0) : microseconds seconds ≤ 0 :=
  toDouble_nonpos (mul_nonpos_of_nonpos_of_nonneg (toDouble_nonpos h) (by decide))

/-- An integer that its unit divides is a double. -/
theorem toDouble_of_dvd {n : Int} (hn : 2 ^ (n.natAbs.log2 - 52) ∣ n.natAbs) : toDouble n = n := by
  have hround : roundDouble n.natAbs = n.natAbs := by
    unfold roundDouble
    dsimp only
    rw [Nat.mod_eq_zero_of_dvd hn, if_pos (.inl (Nat.two_pow_pos _))]
    exact Nat.div_mul_cancel hn
  rw [toDouble, hround]
  exact Int.sign_mul_natAbs n

/-- The unit of an integer below a power of two. -/
theorem log2_sub_le {n k : Nat} (hn : n < 2 ^ (53 + k)) : n.log2 - 52 ≤ k := by
  rcases Nat.eq_zero_or_pos n with rfl | hpos
  · exact Nat.zero_le k
  · have hlog := (Nat.log2_lt hpos.ne').mpr hn
    omega

/-- Up to `2 ^ 53` the integers are doubles. -/
theorem toDouble_of_lt {n : Int} (hn : n.natAbs < 2 ^ 53) : toDouble n = n := by
  apply toDouble_of_dvd
  rw [Nat.le_zero.mp (log2_sub_le hn)]
  exact one_dvd _

/-- Below `2 ^ 59` microseconds the `double` arithmetic is exact: a million has the
    factor `2 ^ 6`. -/
theorem microseconds_eq {seconds : Int} (h : 0 ≤ seconds)
    (hlt : seconds * TimeStamp.kMicroSecondsPerSecond < 2 ^ 59) :
    microseconds seconds = seconds * TimeStamp.kMicroSecondsPerSecond := by
  have hmicro : TimeStamp.kMicroSecondsPerSecond = 1000000 := rfl
  unfold microseconds
  rw [hmicro] at hlt ⊢
  have hexact : toDouble seconds = seconds := toDouble_of_lt (by omega)
  rw [hexact]
  apply toDouble_of_dvd
  have hunit : (2 : Nat) ^ 6 ∣ (seconds * 1000000).natAbs := by
    rw [Int.natAbs_mul]
    exact Dvd.dvd.mul_left (by decide) _
  exact (Nat.pow_dvd_pow 2 (log2_sub_le (by omega))).trans hunit

example : [2 ^ 53 + 1, 2 ^ 53 + 3, -(2 ^ 54 + 3)].map toDouble =
    [2 ^ 53, 2 ^ 53 + 4, -(2 ^ 54 + 4)] := by
  decide +kernel

end QGServer
