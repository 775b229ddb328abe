import Mathlib.Algebra.Order.Ring.Int
import Mathlib.Tactic.Common

/-!
The 32 bits of a machine's binary floating-point number and how a machine compares two.
-/

/-- A number's sign bit, its eight bits of exponent and the rest of its magnitude. -/
structure Binary32 where
  bits : BitVec 32
deriving DecidableEq, Repr

namespace Binary32

def magnitude (x : Binary32) : Nat := x.bits.toNat % 2 ^ 31

/-- A magnitude past infinity's is no number. -/
def isNaN (x : Binary32) : Bool := 2 ^ 31 - 2 ^ 23 < x.magnitude

/-- Where a number stands on the line: its magnitude's bits under its sign. -/
def place (x : Binary32) : Int :=
  if x.bits.toNat < 2 ^ 31 then (x.magnitude : Int) else -(x.magnitude : Int)

/-- Whether `x > y`, which holds of no NaN. -/
def larger (x y : Binary32) : Bool := !x.isNaN && !y.isNaN && decide (y.place < x.place)

/-- Whether `x == y`, which holds of no NaN and of the two zeros. -/
def equals (x y : Binary32) : Bool := !x.isNaN && !y.isNaN && decide (x.place = y.place)

def negInf : Binary32 := ⟨0xFF800000#32⟩

/-- The place of a number, and one below every number's for a NaN. -/
def standing (x : Binary32) : Int := if x.isNaN then -2 ^ 31 else x.place

/-- `x + 0`, which is `x` but for the negative zero. -/
def plusZero (x : Binary32) : Binary32 := if x.bits = 0x80000000#32 then ⟨0#32⟩ else x

theorem negInf_isNaN : negInf.isNaN = false := rfl

theorem standing_negInf : negInf.standing = -(2 ^ 31 - 2 ^ 23) := rfl

theorem negInf_le_place {x : Binary32} (h : x.isNaN = false) : -(2 ^ 31 - 2 ^ 23) ≤ x.place := by
  have hm : x.magnitude ≤ 2 ^ 31 - 2 ^ 23 := by simpa [isNaN] using h
  unfold place
  split <;> omega

/-- No number stands below negative infinity. -/
theorem negInf_le {x : Binary32} (h : x.isNaN = false) : negInf.standing ≤ x.standing := by
  have hplace := negInf_le_place h
  rw [standing_negInf, standing, h, if_neg (by decide)]
  exact hplace

theorem larger_iff {x y : Binary32} (hy : y.isNaN = false) :
    x.larger y = true ↔ y.standing < x.standing := by
  have hplace := negInf_le_place hy
  unfold larger standing
  rw [hy]
  cases hx : x.isNaN with
  | true =>
    simp only [Bool.not_true, Bool.false_and, Bool.false_eq_true, if_true, if_false, false_iff]
    omega
  | false => simp

theorem equals_iff {x y : Binary32} (hy : y.isNaN = false) :
    x.equals y = true ↔ x.standing = y.standing := by
  have hplace := negInf_le_place hy
  unfold equals standing
  rw [hy]
  cases hx : x.isNaN with
  | true =>
    simp only [Bool.not_true, Bool.false_and, Bool.false_eq_true, if_true, if_false, false_iff]
    omega
  | false => simp

theorem place_plusZero (x : Binary32) : x.plusZero.place = x.place := by
  unfold plusZero
  split
  next h =>
    unfold place magnitude
    rw [h]
    decide
  next => rfl

theorem plusZero_ne (x : Binary32) : x.plusZero.bits.toNat ≠ 2 ^ 31 := by
  unfold plusZero
  split
  next => decide
  next h => exact fun he => h (BitVec.eq_of_toNat_eq he)

/-- What stands above a number is one. -/
theorem isNaN_of_lt {x y : Binary32} (hy : y.isNaN = false) (h : y.standing < x.standing) :
    x.isNaN = false := by
  have hplace := negInf_le_place hy
  unfold standing at h
  rw [hy] at h
  cases hx : x.isNaN with
  | true =>
    rw [hx] at h
    simp only [if_true, Bool.false_eq_true, if_false] at h
    omega
  | false => rfl

theorem larger_of_isNaN {x y : Binary32} (hy : y.isNaN = true) : x.larger y = false := by
  simp [larger, hy]

end Binary32
