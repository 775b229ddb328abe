import Mathlib.Tactic.Linarith
import Mathlib.Tactic.Positivity
import Mathlib.Tactic.Ring

/-!
The 64-bit integers of a chat template: Python's results or an error.
-/

namespace Llmx

namespace TemplateInts

/-- How a computation fails: the render raises, a signed computation leaves 64 bits, or an item is
read that is not there. -/
inductive Fault where
  | raised (message : String)
  | wrapped
  | outOfRange
deriving DecidableEq, Repr

def kIntMax : Int := 2 ^ 63 - 1

def kIntMin : Int := -2 ^ 63

def Fits (x : Int) : Prop := kIntMin ≤ x ∧ x ≤ kIntMax

instance (x : Int) : Decidable (Fits x) := by
  unfold Fits
  infer_instance

/-- A signed computation of the machine. -/
def signed (x : Int) : Except Fault Int := if Fits x then .ok x else .error .wrapped

def quotient (a b : Int) : Except Fault Int :=
  if b = 0 then .error .wrapped else signed (a.tdiv b)

def remainder (a b : Int) : Except Fault Int :=
  if b = 0 ∨ a = kIntMin ∧ b = -1 then .error .wrapped else .ok (a.tmod b)

def overflow : Except Fault Int := .error (.raised "an integer past 64 bits is not supported")

def addInt (a b : Int) : Except Fault Int :=
  if 0 < b then
    (signed (kIntMax - b)).bind fun top => if top < a then overflow else signed (a + b)
  else if b < 0 then
    (signed (kIntMin - b)).bind fun low => if a < low then overflow else signed (a + b)
  else signed (a + b)

def subInt (a b : Int) : Except Fault Int :=
  if b < 0 then
    (signed (kIntMax + b)).bind fun top => if top < a then overflow else signed (a - b)
  else if 0 < b then
    (signed (kIntMin + b)).bind fun low => if a < low then overflow else signed (a - b)
  else signed (a - b)

/-- Whether a product passes 64 bits, its factors not 0 and not -1. -/
def mulPast (a b : Int) : Except Fault Bool :=
  if 0 < a then
    if 0 < b then (quotient kIntMax b).map fun q => decide (q < a)
    else (quotient kIntMin a).map fun q => decide (b < q)
  else if 0 < b then (quotient kIntMin b).map fun q => decide (a < q)
  else (quotient kIntMax b).map fun q => decide (a < q)

def mulInt (a b : Int) : Except Fault Int :=
  if a = 0 ∨ b = 0 then .ok 0
  else if a = -1 then if b = kIntMin then overflow else signed (-b)
  else if b = -1 then if a = kIntMin then overflow else signed (-a)
  else (mulPast a b).bind fun past => if past then overflow else signed (a * b)

def floorDiv (a b : Int) : Except Fault Int :=
  if a = kIntMin ∧ b = -1 then overflow
  else
    (quotient a b).bind fun q => (remainder a b).bind fun r =>
      if r ≠ 0 ∧ decide (a < 0) ≠ decide (b < 0) then signed (q - 1) else .ok q

def floorMod (a b : Int) : Except Fault Int :=
  if b = -1 then .ok 0
  else
    (remainder a b).bind fun r =>
      if r ≠ 0 ∧ decide (r < 0) ≠ decide (b < 0) then signed (r + b) else .ok r

/-- `r` times `base` to the power `e`, by squaring. -/
def powFrom (r base : Int) (e : Nat) : Except Fault Int :=
  if e = 0 then .ok r
  else
    (if e % 2 = 1 then mulInt r base else .ok r).bind fun r =>
      (if 1 < e then mulInt base base else .ok base).bind fun base => powFrom r base (e / 2)
termination_by e
decreasing_by omega

inductive ArithOp where
  | add
  | sub
  | mul
  | floorDiv
  | mod
  | pow
deriving DecidableEq, Repr

/-- An operator on two integers, a power's exponent not negative. -/
def arithmetic (op : ArithOp) (m n : Int) : Except Fault Int :=
  if op = .floorDiv ∧ n = 0 then .error (.raised "integer division or modulo by zero")
  else if op = .mod ∧ n = 0 then .error (.raised "integer modulo by zero")
  else
    match op with
    | .add => addInt m n
    | .sub => subInt m n
    | .mul => mulInt m n
    | .floorDiv => floorDiv m n
    | .mod => floorMod m n
    | .pow => powFrom 1 m n.toNat

/-- Python's result of an operator, whose integers have no bound. -/
def pythonInt : ArithOp → Int → Int → Int
  | .add, m, n => m + n
  | .sub, m, n => m - n
  | .mul, m, n => m * n
  | .floorDiv, m, n => m.fdiv n
  | .mod, m, n => m.fmod n
  | .pow, m, n => m ^ n.toNat

/-- An exact result, or the error of one that does not fit. -/
def exactInt (x : Int) : Except Fault Int := if Fits x then .ok x else overflow

variable {a b : Int}

theorem signed_ok {x : Int} (h : Fits x) : signed x = .ok x := if_pos h

theorem exactInt_ok {x : Int} (h : Fits x) : exactInt x = .ok x := if_pos h

theorem exactInt_past {x : Int} (h : ¬Fits x) : exactInt x = overflow := if_neg h

/-- A result checked for exactly what does not fit. -/
theorem checked {p : Prop} [Decidable p] {x : Int} (h : p ↔ ¬Fits x) :
    (if p then overflow else signed x) = exactInt x := by
  by_cases hx : Fits x
  · rw [if_neg fun hp => h.mp hp hx, signed_ok hx, exactInt_ok hx]
  · rw [if_pos (h.mpr hx), exactInt_past hx]

theorem signed_exact {x : Int} (h : Fits x) : signed x = exactInt x :=
  (signed_ok h).trans (exactInt_ok h).symm

theorem addInt_exact (ha : Fits a) (hb : Fits b) : addInt a b = exactInt (a + b) := by
  unfold Fits kIntMin kIntMax at ha hb
  unfold addInt
  split
  next hpos =>
    rw [signed_ok (by unfold Fits kIntMin kIntMax; omega)]
    apply checked
    unfold Fits kIntMin kIntMax
    omega
  next hpos =>
    split
    next hneg =>
      rw [signed_ok (by unfold Fits kIntMin kIntMax; omega)]
      apply checked
      unfold Fits kIntMin kIntMax
      omega
    next hneg =>
      apply signed_exact
      unfold Fits kIntMin kIntMax
      omega

theorem subInt_exact (ha : Fits a) (hb : Fits b) : subInt a b = exactInt (a - b) := by
  unfold Fits kIntMin kIntMax at ha hb
  unfold subInt
  split
  next hneg =>
    rw [signed_ok (by unfold Fits kIntMin kIntMax; omega)]
    apply checked
    unfold Fits kIntMin kIntMax
    omega
  next hneg =>
    split
    next hpos =>
      rw [signed_ok (by unfold Fits kIntMin kIntMax; omega)]
      apply checked
      unfold Fits kIntMin kIntMax
      omega
    next hpos =>
      apply signed_exact
      unfold Fits kIntMin kIntMax
      omega

/-- A quotient fits but for the least integer's by -1. -/
theorem quotient_ok (ha : Fits a) (hb : b ≠ 0) (h : ¬(a = kIntMin ∧ b = -1)) :
    quotient a b = .ok (a.tdiv b) := by
  have hsize := Int.natAbs_tdiv a b
  have hle := Int.natAbs_tdiv_le_natAbs a b
  unfold quotient
  rw [if_neg hb]
  apply signed_ok
  unfold Fits kIntMin kIntMax at *
  by_cases hone : b.natAbs = 1
  · by_cases hpos : b = 1
    · rw [hpos, Int.tdiv_one]
      exact ha
    · have hminus : b = -1 := by omega
      rw [hminus, Int.tdiv_neg, Int.tdiv_one]
      omega
  · have hhalf : a.natAbs.div b.natAbs ≤ a.natAbs / 2 :=
      Nat.div_le_div_left (show 2 ≤ b.natAbs by omega) (by omega)
    omega

theorem remainder_ok (hb : b ≠ 0) (h : ¬(a = kIntMin ∧ b = -1)) :
    remainder a b = .ok (a.tmod b) :=
  if_neg (not_or.mpr ⟨hb, h⟩)

/-- A factor passes a bound's quotient exactly where the product passes the bound. -/
theorem tdiv_lt_iff {x y q : Int} (hq : 0 < q) (hx : 0 ≤ x) : x.tdiv q < y ↔ x < y * q := by
  rw [Int.tdiv_eq_ediv_of_nonneg hx]
  exact Int.ediv_lt_iff_lt_mul hq

theorem lt_neg_tdiv_iff {x y q : Int} (hq : 0 < q) (hx : 0 ≤ x) : y < -x.tdiv q ↔ y * q < -x := by
  have hiff := tdiv_lt_iff (y := -y) hq hx
  rw [Int.neg_mul] at hiff
  omega

theorem mulPast_spec (ha : a ≠ 0) (hb : b ≠ 0) :
    mulPast a b = .ok (decide (¬Fits (a * b))) := by
  have hmax : Fits kIntMax := by decide
  have hmin : Fits kIntMin := by decide
  have hmaxmin : kIntMax ≠ kIntMin := by decide
  have hmin' : kIntMin = -2 ^ 63 := Eq.refl _
  have hmax0 : 0 ≤ kIntMax := by decide
  unfold mulPast
  split
  next hapos =>
    split
    next hbpos =>
      have hprod := Int.mul_pos hapos hbpos
      rw [quotient_ok hmax hb fun h => hmaxmin h.1]
      have hiff := tdiv_lt_iff (y := a) hbpos hmax0
      apply congrArg Except.ok
      rw [decide_eq_decide, hiff]
      unfold Fits
      omega
    next hbneg =>
      have hprod := Int.mul_neg_of_pos_of_neg hapos (show b < 0 by omega)
      rw [quotient_ok hmin ha fun h => by omega]
      have hiff := lt_neg_tdiv_iff (y := b) hapos (show (0 : Int) ≤ 2 ^ 63 by decide)
      rw [← Int.neg_tdiv, ← hmin'] at hiff
      apply congrArg Except.ok
      rw [decide_eq_decide, hiff, Int.mul_comm b a]
      unfold Fits
      omega
  next haneg =>
    split
    next hbpos =>
      have hprod := Int.mul_neg_of_neg_of_pos (show a < 0 by omega) hbpos
      rw [quotient_ok hmin hb fun h => by omega]
      have hiff := lt_neg_tdiv_iff (y := a) hbpos (show (0 : Int) ≤ 2 ^ 63 by decide)
      rw [← Int.neg_tdiv, ← hmin'] at hiff
      apply congrArg Except.ok
      rw [decide_eq_decide, hiff]
      unfold Fits
      omega
    next hbneg =>
      have hprod := Int.mul_pos_of_neg_of_neg (show a < 0 by omega) (show b < 0 by omega)
      rw [quotient_ok hmax hb fun h => hmaxmin h.1]
      have hiff := lt_neg_tdiv_iff (y := a) (show 0 < -b by omega) hmax0
      rw [Int.tdiv_neg, Int.neg_neg, Int.mul_neg] at hiff
      apply congrArg Except.ok
      rw [decide_eq_decide, hiff]
      unfold Fits
      omega

theorem mulInt_exact (ha : Fits a) (hb : Fits b) : mulInt a b = exactInt (a * b) := by
  have hzero : Fits 0 := by decide
  unfold mulInt
  split
  next hany =>
    have hprod : a * b = 0 := by
      rcases hany with rfl | rfl
      · exact Int.zero_mul b
      · exact Int.mul_zero a
    rw [hprod, exactInt_ok hzero]
  next hnone =>
    obtain ⟨ha0, hb0⟩ := not_or.mp hnone
    split
    next hminus =>
      rw [hminus, Int.neg_mul, Int.one_mul]
      apply checked
      unfold Fits kIntMin kIntMax at *
      omega
    next =>
      split
      next hminus =>
        rw [hminus, Int.mul_neg, Int.mul_one]
        apply checked
        unfold Fits kIntMin kIntMax at *
        omega
      next =>
        rw [mulPast_spec ha0 hb0]
        apply checked
        rw [decide_eq_true_eq]

/-- Where the division leaves a remainder the quotient is well inside. -/
theorem tdiv_inside (ha : Fits a) (hr : a.tmod b ≠ 0) : -2 ^ 62 ≤ a.tdiv b ∧ a.tdiv b ≤ 2 ^ 62 := by
  have hsize := Int.natAbs_tdiv a b
  have hb : b.natAbs ≠ 1 := by
    intro hone
    have hdvd : b ∣ a := Int.natAbs_dvd.mp (hone ▸ one_dvd a)
    exact hr (Int.tmod_eq_zero_of_dvd hdvd)
  have hle : a.natAbs.div b.natAbs ≤ a.natAbs / 2 := by
    by_cases hzero : b.natAbs = 0
    · rw [hzero]
      show a.natAbs / 0 ≤ _
      rw [Nat.div_zero]
      exact Nat.zero_le _
    · exact Nat.div_le_div_left (show 2 ≤ b.natAbs by omega) (by omega)
  unfold Fits kIntMin kIntMax at ha
  omega

theorem floorDiv_exact (ha : Fits a) (hb : b ≠ 0) : floorDiv a b = exactInt (a.fdiv b) := by
  unfold floorDiv
  split
  next hleast =>
    obtain ⟨rfl, rfl⟩ := hleast
    exact (exactInt_past (by decide)).symm
  next hmost =>
    have hquot := quotient_ok ha hb hmost
    have hfits : Fits (a.tdiv b) := by
      unfold quotient signed at hquot
      rw [if_neg hb] at hquot
      split at hquot
      next hfits => exact hfits
      next => cases hquot
    have hdvd := Int.dvd_iff_tmod_eq_zero (a := b) (b := a)
    have hfloor := Int.fdiv_eq_tdiv (a := a) (b := b)
    rw [hquot, remainder_ok hb hmost]
    show (if a.tmod b ≠ 0 ∧ decide (a < 0) ≠ decide (b < 0) then signed (a.tdiv b - 1)
      else .ok (a.tdiv b)) = _
    by_cases hr : a.tmod b = 0
    · rw [if_pos (hdvd.mpr hr), Int.sub_zero] at hfloor
      rw [if_neg fun h => h.1 hr, hfloor, exactInt_ok hfits]
    · obtain ⟨hlow, hhigh⟩ := tdiv_inside ha hr
      have hless : Fits (a.tdiv b - 1) := by
        unfold Fits kIntMin kIntMax
        omega
      rw [if_neg (mt hdvd.mp hr)] at hfloor
      by_cases han : a < 0
      · by_cases hbn : b < 0
        · rw [if_neg (by omega), if_neg (by omega), Int.sign_eq_neg_one_of_neg hbn] at hfloor
          rw [if_neg fun h => h.2 (by rw [decide_eq_true han, decide_eq_true hbn]), hfloor]
          exact (exactInt_ok hfits).symm.trans (congrArg exactInt (Int.sub_zero _).symm)
        · rw [if_neg (by omega), if_pos (by omega),
            Int.sign_eq_one_of_pos (by omega)] at hfloor
          rw [if_pos ⟨hr, by rw [decide_eq_true han, decide_eq_false hbn]; decide⟩, hfloor]
          exact signed_exact hless
      · by_cases hbn : b < 0
        · rw [if_pos (by omega), if_neg (by omega)] at hfloor
          rw [if_pos ⟨hr, by rw [decide_eq_false han, decide_eq_true hbn]; decide⟩, hfloor]
          exact signed_exact hless
        · rw [if_pos (by omega), if_pos (by omega), Int.sub_zero] at hfloor
          rw [if_neg fun h => h.2 (by rw [decide_eq_false han, decide_eq_false hbn]), hfloor,
            exactInt_ok hfits]

theorem floorMod_exact (hfb : Fits b) (hb : b ≠ 0) :
    floorMod a b = exactInt (a.fmod b) := by
  have hmod := Int.fmod_eq_tmod (a := a) (b := b)
  have hdvd := Int.dvd_iff_tmod_eq_zero (a := b) (b := a)
  have hsize := Int.natAbs_tmod a b
  have hlt := Nat.mod_lt a.natAbs (show 0 < b.natAbs by omega)
  unfold floorMod
  split
  next hminus =>
    have hall : b ∣ a := ⟨-a, by rw [hminus, Int.neg_mul_neg, Int.one_mul]⟩
    rw [if_pos hall, hdvd.mp hall] at hmod
    rw [hmod]
    exact (exactInt_ok (by decide)).symm
  next hminus =>
    rw [remainder_ok hb fun h => hminus h.2]
    show (if a.tmod b ≠ 0 ∧ decide (a.tmod b < 0) ≠ decide (b < 0) then signed (a.tmod b + b)
      else .ok (a.tmod b)) = _
    have hfits : Fits (a.tmod b) := by
      unfold Fits kIntMin kIntMax at hfb ⊢
      omega
    by_cases hr : a.tmod b = 0
    · rw [if_pos (hdvd.mpr hr), Int.add_zero] at hmod
      rw [if_neg fun h => h.1 hr, hmod, exactInt_ok hfits]
    · rw [if_neg (mt hdvd.mp hr)] at hmod
      by_cases han : a < 0
      · have hneg : a.tmod b < 0 := by
          have hle := Int.tmod_nonneg b (show 0 ≤ -a by omega)
          rw [Int.neg_tmod] at hle
          omega
        by_cases hbn : b < 0
        · rw [if_neg (by omega), if_neg (by omega), Int.toNat_of_nonpos (Int.le_of_lt hbn)] at hmod
          rw [if_neg fun h => h.2 (by rw [decide_eq_true hneg, decide_eq_true hbn]), hmod]
          exact (exactInt_ok hfits).symm.trans (congrArg exactInt (Int.add_zero _).symm)
        · rw [if_neg (by omega), if_pos (by omega), Int.natAbs_of_nonneg (by omega)] at hmod
          rw [if_pos ⟨hr, by rw [decide_eq_true hneg, decide_eq_false hbn]; decide⟩, hmod]
          apply signed_exact
          unfold Fits kIntMin kIntMax at hfb ⊢
          omega
      · have hnonneg : 0 ≤ a.tmod b := Int.tmod_nonneg b (by omega)
        have hpos : ¬a.tmod b < 0 := by omega
        by_cases hbn : b < 0
        · rw [if_pos (by omega), if_neg (by omega)] at hmod
          rw [if_pos ⟨hr, by rw [decide_eq_false hpos, decide_eq_true hbn]; decide⟩, hmod]
          apply signed_exact
          unfold Fits kIntMin kIntMax at hfb ⊢
          omega
        · rw [if_pos (by omega), if_pos (by omega), Int.add_zero] at hmod
          rw [if_neg fun h => h.2 (by rw [decide_eq_false hpos, decide_eq_false hbn]), hmod,
            exactInt_ok hfits]

/-- What does not fit does not fit any further from zero. -/
theorem not_fits_mul {x y : Int} (h : ¬Fits x) (hy : 1 ≤ y) : ¬Fits (x * y) := by
  unfold Fits kIntMin kIntMax at *
  intro hfits
  apply h
  rcases Int.le_total 0 x with hx | hx
  · have := Int.mul_le_mul_of_nonneg_left hy hx
    omega
  · have := mul_le_mul_of_nonpos_left hy hx
    omega

/-- A square past 64 bits is past them beside any factor but zero. -/
theorem not_fits_square {x r : Int} (h : ¬Fits (x * x)) (hr : r ≠ 0) : ¬Fits (r * (x * x)) := by
  have hpast : 2 ^ 63 < x * x := by
    unfold Fits kIntMin kIntMax at h
    have hsquare : 0 ≤ x * x := mul_self_nonneg x
    by_cases hsmall : x.natAbs ≤ 3037000499
    · have hle := Nat.mul_le_mul hsmall hsmall
      have habs := Int.natAbs_mul_self (a := x)
      omega
    · have hle := Nat.mul_le_mul (show 3037000500 ≤ x.natAbs by omega)
        (show 3037000500 ≤ x.natAbs by omega)
      have habs := Int.natAbs_mul_self (a := x)
      omega
  unfold Fits kIntMin kIntMax
  intro hfits
  rcases Int.lt_or_gt_of_ne hr with hneg | hpos
  · have := Int.mul_le_mul_of_nonneg_right (show r ≤ -1 by omega) (show 0 ≤ x * x by omega)
    omega
  · have := Int.mul_le_mul_of_nonneg_right (show 1 ≤ r by omega) (show 0 ≤ x * x by omega)
    omega

theorem one_le_square_pow {x : Int} (h : x ≠ 0) (k : Nat) : 1 ≤ (x * x) ^ k := by
  have hsquare := mul_self_pos.mpr h
  exact Int.pow_pos hsquare

theorem pow_halves (base : Int) (e : Nat) :
    base ^ e = base ^ (e % 2) * (base * base) ^ (e / 2) := by
  rw [← pow_two, ← pow_mul, ← pow_add]
  congr 1
  omega

/-- The power is exact, or the error where it does not fit: no square is taken that is not used. -/
theorem powFrom_exact {r base : Int} {e : Nat} (hr : Fits r) (hbase : Fits base)
    (hzero : r ≠ 0 ∨ base = 0) : powFrom r base e = exactInt (r * base ^ e) := by
  induction e using Nat.strongRecOn generalizing r base with
  | ind e ih =>
    rw [powFrom]
    split
    next he => rw [he, pow_zero, Int.mul_one, exactInt_ok hr]
    next he =>
      have hnext : ∀ r : Int, Fits r → (r ≠ 0 ∨ base = 0) →
          ((if 1 < e then mulInt base base else .ok base).bind fun base =>
            powFrom r base (e / 2)) = exactInt (r * (base * base) ^ (e / 2)) := by
        intro r hr hzero
        split
        next hmore =>
          rw [mulInt_exact hbase hbase]
          by_cases hsquare : Fits (base * base)
          · rw [exactInt_ok hsquare]
            refine ih (e / 2) (by omega) hr hsquare ?_
            rcases hzero with hzero | hzero
            · exact Or.inl hzero
            · exact Or.inr (by rw [hzero, Int.mul_zero])
          · have hne : base ≠ 0 := by
              intro hb
              rw [hb] at hsquare
              exact hsquare (by decide)
            have hpast := not_fits_mul
              (not_fits_square hsquare (hzero.resolve_right hne))
              (one_le_square_pow hne (e / 2 - 1))
            have hpow : r * (base * base) * (base * base) ^ (e / 2 - 1) =
                r * (base * base) ^ (e / 2) := by
              rw [Int.mul_assoc, ← pow_succ', Nat.sub_add_cancel (by omega)]
            rw [hpow] at hpast
            rw [exactInt_past hsquare, exactInt_past hpast]
            exact Eq.refl _
        next hlast =>
          have hhalf : e / 2 = 0 := by omega
          show powFrom r base (e / 2) = _
          rw [hhalf, powFrom, if_pos (Eq.refl 0), pow_zero, Int.mul_one, exactInt_ok hr]
      rw [pow_halves]
      split
      next hodd =>
        rw [hodd, pow_one, ← Int.mul_assoc, mulInt_exact hr hbase]
        by_cases hprod : Fits (r * base)
        · rw [exactInt_ok hprod]
          refine hnext (r * base) hprod ?_
          rcases hzero with hzero | hzero
          · by_cases hb : base = 0
            · exact Or.inr hb
            · exact Or.inl (mul_ne_zero hzero hb)
          · exact Or.inr hzero
        · have hne : base ≠ 0 := by
            intro hb
            rw [hb, Int.mul_zero] at hprod
            exact hprod (by decide)
          rw [exactInt_past hprod, exactInt_past (not_fits_mul hprod (one_le_square_pow hne _))]
          exact Eq.refl _
      next heven =>
        have hmod : e % 2 = 0 := by omega
        rw [hmod, pow_zero, Int.one_mul]
        exact hnext r hr hzero

/-- An operator gives Python's integer where it fits, and the error where it does not or where it
divides by zero. -/
theorem arithmetic_exact (op : ArithOp) {m n : Int} (hm : Fits m) (hn : Fits n) :
    arithmetic op m n =
      if (op = .floorDiv ∨ op = .mod) ∧ n = 0 then arithmetic op 0 0
      else exactInt (pythonInt op m n) := by
  cases op with
  | add => exact addInt_exact hm hn
  | sub => exact subInt_exact hm hn
  | mul => exact mulInt_exact hm hn
  | floorDiv =>
    unfold arithmetic
    by_cases hzero : n = 0
    · rw [if_pos ⟨Eq.refl _, hzero⟩, if_pos ⟨Or.inl (Eq.refl _), hzero⟩]
      exact Eq.refl _
    · rw [if_neg fun h => hzero h.2, if_neg fun h => hzero h.2, if_neg fun h => hzero h.2]
      exact floorDiv_exact hm hzero
  | mod =>
    unfold arithmetic
    by_cases hzero : n = 0
    · rw [if_neg (fun h => by cases h.1), if_pos ⟨Eq.refl _, hzero⟩,
        if_pos ⟨Or.inr (Eq.refl _), hzero⟩]
      exact Eq.refl _
    · rw [if_neg fun h => hzero h.2, if_neg fun h => hzero h.2, if_neg fun h => hzero h.2]
      exact floorMod_exact hn hzero
  | pow =>
    have hpow := powFrom_exact (e := n.toNat) (show Fits 1 by decide) hm (Or.inl (by decide))
    rw [Int.one_mul] at hpow
    exact hpow

end TemplateInts

end Llmx
