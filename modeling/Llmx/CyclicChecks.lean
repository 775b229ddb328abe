import Mathlib.Algebra.Order.Ring.Int
import Mathlib.Tactic.Common

/-!
Cyclic redundancy checks, least significant bit first: a register shifted through a message by a
polynomial, one to one in the register, and one to one in any stretch of the message it can hold.
-/

namespace CyclicChecks

variable {w : Nat}

/-- The register one bit on. -/
def shift (poly c : BitVec w) : BitVec w :=
  if c.getLsbD 0 then (c >>> 1) ^^^ poly else c >>> 1

def single (b : Bool) : BitVec w := if b then 1#w else 0#w

/-- A bit of the message enters. -/
def bit (poly c : BitVec w) (b : Bool) : BitVec w := shift poly (c ^^^ single b)

def feed (poly c : BitVec w) (bits : List Bool) : BitVec w := bits.foldl (bit poly) c

/-- The number whose bits are these, the first the least. -/
def value : List Bool → BitVec w
  | [] => 0#w
  | b :: bits => (value bits <<< 1) ^^^ single b

/-- A number's `n` least bits. -/
def bitsOf (n v : Nat) : List Bool := (List.range n).map v.testBit

/-- A polynomial whose highest coefficient below the leading one is set, as every one of a check with
a constant term is when its bits are reversed. -/
def Tops (poly : BitVec w) : Prop := ∀ i, i + 1 = w → poly.getLsbD i = true

variable {poly c d : BitVec w} {bits bits' : List Bool}

theorem xor_self_cancel (a b p : BitVec w) : (a ^^^ p) ^^^ (b ^^^ p) = a ^^^ b := by
  ext i hi
  simp only [BitVec.getElem_xor]
  cases a[i] <;> cases b[i] <;> cases p[i] <;> simp

theorem shift_xor (a b : BitVec w) : shift poly (a ^^^ b) = shift poly a ^^^ shift poly b := by
  have hswap : ∀ x y : BitVec w, x ^^^ y ^^^ poly = x ^^^ poly ^^^ y := fun x y => by
    rw [BitVec.xor_assoc, BitVec.xor_comm y, BitVec.xor_assoc]
  unfold shift
  rw [BitVec.getLsbD_xor, BitVec.ushiftRight_xor_distrib]
  cases a.getLsbD 0 <;> cases b.getLsbD 0
  · simp
  · simp [BitVec.xor_assoc]
  · simp [hswap]
  · simp [xor_self_cancel]

theorem shift_eq_zero (hp : Tops poly) (h : shift poly c = 0#w) : c = 0#w := by
  apply BitVec.eq_of_getLsbD_eq
  intro i hi
  have htop : c.getLsbD 0 = false := by
    by_contra hlow
    rw [Bool.not_eq_false] at hlow
    have hset : (shift poly c).getLsbD (w - 1) = true := by
      unfold shift
      rw [if_pos hlow, BitVec.getLsbD_xor, hp (w - 1) (by omega), BitVec.getLsbD_ushiftRight,
        BitVec.getLsbD_of_ge c (1 + (w - 1)) (by omega)]
      simp
    rw [h] at hset
    simp at hset
  unfold shift at h
  rw [htop, if_neg Bool.false_ne_true] at h
  cases i with
  | zero => simp [htop]
  | succ i =>
    have := congrArg (fun x => x.getLsbD i) h
    simpa [BitVec.getLsbD_ushiftRight, Nat.add_comm] using this

/-- Shifting loses nothing. -/
theorem shift_inj (hp : Tops poly) (h : shift poly c = shift poly d) : c = d := by
  have hzero : shift poly (c ^^^ d) = 0#w := by
    rw [shift_xor, h, BitVec.xor_self]
  have hxor := shift_eq_zero hp hzero
  have hback : (c ^^^ d) ^^^ d = d := by rw [hxor, BitVec.zero_xor]
  rwa [BitVec.xor_assoc, BitVec.xor_self, BitVec.xor_zero] at hback

theorem feed_append (c : BitVec w) (xs ys : List Bool) :
    feed poly c (xs ++ ys) = feed poly (feed poly c xs) ys := List.foldl_append

theorem feed_cons (c : BitVec w) (b : Bool) :
    feed poly c (b :: bits) = feed poly (bit poly c b) bits := List.foldl_cons

theorem feed_inj (hp : Tops poly) (h : feed poly c bits = feed poly d bits) : c = d := by
  induction bits generalizing c d with
  | nil => exact h
  | cons b bits ih =>
    rw [feed_cons, feed_cons] at h
    have hxor := shift_inj hp (ih h)
    have := congrArg (· ^^^ single b) hxor
    simpa [BitVec.xor_assoc] using this

theorem value_getLsbD_ge {i : Nat} (h : bits.length ≤ i) :
    (value bits : BitVec w).getLsbD i = false := by
  induction bits generalizing i with
  | nil => simp [value]
  | cons b bits ih =>
    rw [List.length_cons] at h
    cases i with
    | zero => omega
    | succ i =>
      have hrest := ih (show bits.length ≤ i by omega)
      cases b
      · simp [value, single, BitVec.getLsbD_shiftLeft, hrest]
      · simp [value, single, BitVec.getLsbD_shiftLeft, hrest, BitVec.getLsbD_one]

/-- Bits the register can hold enter it together. -/
theorem bit_value {b : Bool} (h : bits.length < w) :
    shift poly (c ^^^ value (b :: bits)) = bit poly c b ^^^ value bits := by
  have hshift : shift poly (value bits <<< 1) = value bits := by
    have hlow : ((value bits : BitVec w) <<< 1).getLsbD 0 = false := by
      simp [BitVec.getLsbD_shiftLeft]
    unfold shift
    rw [hlow, if_neg Bool.false_ne_true]
    apply BitVec.eq_of_getLsbD_eq
    intro i hi
    rw [BitVec.getLsbD_ushiftRight, BitVec.getLsbD_shiftLeft]
    by_cases hin : 1 + i < w
    · simp [hin]
    · simp [hin, value_getLsbD_ge (show bits.length ≤ i by omega)]
  rw [value, bit, BitVec.xor_comm (value bits <<< 1), ← BitVec.xor_assoc, shift_xor (c ^^^ single b), hshift]

def shifts (poly : BitVec w) : Nat → BitVec w → BitVec w
  | 0, c => c
  | n + 1, c => shifts poly n (shift poly c)

theorem feed_eq_shifts (h : bits.length ≤ w) :
    feed poly c bits = shifts poly bits.length (c ^^^ value bits) := by
  induction bits generalizing c with
  | nil => simp [feed, shifts, value]
  | cons b bits ih =>
    rw [List.length_cons] at h
    rw [feed_cons, ih (by omega), ← bit_value (by omega), List.length_cons, shifts]

theorem shifts_inj (hp : Tops poly) {n : Nat} (h : shifts poly n c = shifts poly n d) : c = d := by
  induction n generalizing c d with
  | zero => exact h
  | succ n ih => exact shift_inj hp (ih h)

theorem value_getLsbD {b : Bool} {i : Nat} (hi : i < w) :
    (value (b :: bits) : BitVec w).getLsbD i =
      if i = 0 then b else (value bits : BitVec w).getLsbD (i - 1) := by
  rw [value, BitVec.getLsbD_xor, BitVec.getLsbD_shiftLeft]
  cases b <;> cases i <;> simp [single, hi]

theorem value_inj (hlen : bits.length = bits'.length) (hw : bits.length ≤ w)
    (h : (value bits : BitVec w) = value bits') : bits = bits' := by
  induction bits generalizing bits' with
  | nil => exact (List.length_eq_zero_iff.mp hlen.symm).symm
  | cons b bits ih =>
    cases bits' with
    | nil => simp at hlen
    | cons b' bits' =>
      rw [List.length_cons] at hw
      simp only [List.length_cons, Nat.add_right_cancel_iff] at hlen
      have hbit : ∀ i < w, (value (b :: bits) : BitVec w).getLsbD i =
          if i = 0 then b else (value bits : BitVec w).getLsbD (i - 1) := fun i => value_getLsbD
      have hbit' : ∀ i < w, (value (b' :: bits') : BitVec w).getLsbD i =
          if i = 0 then b' else (value bits' : BitVec w).getLsbD (i - 1) := fun i => value_getLsbD
      have hfirst : b = b' := by
        have h0 := hbit 0 (by omega)
        rw [h, hbit' 0 (by omega), if_pos (Eq.refl _), if_pos (Eq.refl _)] at h0
        exact h0.symm
      have hrest : (value bits : BitVec w) = value bits' := by
        apply BitVec.eq_of_getLsbD_eq
        intro i hi
        by_cases hin : i + 1 < w
        · have h1 := hbit (i + 1) hin
          rw [h, hbit' (i + 1) hin, if_neg (Nat.succ_ne_zero i), if_neg (Nat.succ_ne_zero i)] at h1
          exact h1.symm
        · rw [value_getLsbD_ge (by omega), value_getLsbD_ge (by omega)]
      rw [hfirst, ih hlen (by omega) hrest]

/-- A change within a stretch the register can hold changes the check, whatever comes before and
after. -/
theorem feed_changed (hp : Tops poly) (before after : List Bool) (hlen : bits.length = bits'.length)
    (hw : bits.length ≤ w) (hne : bits ≠ bits') :
    feed poly c (before ++ bits ++ after) ≠ feed poly c (before ++ bits' ++ after) := by
  intro h
  rw [feed_append, feed_append, feed_append, feed_append] at h
  have hmid := feed_inj hp h
  generalize feed poly c before = mid at hmid
  rw [feed_eq_shifts hw, feed_eq_shifts (by omega), hlen] at hmid
  have hvalue := shifts_inj hp hmid
  have hback := congrArg (mid ^^^ ·) hvalue
  simp only [← BitVec.xor_assoc, BitVec.xor_self, BitVec.zero_xor] at hback
  exact hne (value_inj hlen hw hback)

theorem getLsbD_value (bits : List Bool) {i : Nat} (hi : i < w) :
    (value bits : BitVec w).getLsbD i = bits.getD i false := by
  induction bits generalizing i with
  | nil => simp [value]
  | cons b bits ih =>
    rw [value_getLsbD hi]
    cases i with
    | zero => simp
    | succ i => simpa using ih (show i < w by omega)

theorem value_bitsOf (v : Nat) : (value (bitsOf w v) : BitVec w) = BitVec.ofNat w v := by
  apply BitVec.eq_of_getLsbD_eq
  intro i hi
  rw [getLsbD_value _ hi, BitVec.getLsbD_ofNat]
  simp [bitsOf, hi]

theorem length_bitsOf (n v : Nat) : (bitsOf n v).length = n := by simp [bitsOf]

theorem bitsOf_inj {n a b : Nat} (ha : a < 2 ^ n) (hb : b < 2 ^ n) (h : bitsOf n a = bitsOf n b) :
    a = b := by
  apply Nat.eq_of_testBit_eq
  intro i
  by_cases hi : i < n
  · have := congrArg (fun l : List Bool => l[i]?) h
    simpa [bitsOf, hi] using this
  · have hpow : 2 ^ n ≤ 2 ^ i := Nat.pow_le_pow_right (by omega) (by omega)
    rw [Nat.testBit_lt_two_pow (by omega), Nat.testBit_lt_two_pow (by omega)]

theorem bitsOf_add (m n v : Nat) : bitsOf (m + n) v = bitsOf m v ++ bitsOf n (v / 2 ^ m) := by
  unfold bitsOf
  rw [List.range_add, List.map_append, List.map_map]
  congr 1
  apply List.map_congr_left
  intro i _
  rw [Function.comp_apply, Nat.testBit_div_two_pow, Nat.add_comm]

theorem bitsOf_mod (n v : Nat) : bitsOf n (v % 2 ^ n) = bitsOf n v := by
  unfold bitsOf
  apply List.map_congr_left
  intro i hi
  rw [List.mem_range] at hi
  simp [hi]

end CyclicChecks
