import Llmx.Binary32
import Llmx.Rounding
import Mathlib.Data.Nat.Bitwise

namespace Llmx

open FloatCodes

def f32ToF16 (f : Binary32) : BitVec 16 :=
  let u := f.bits.toNat
  let s := (u >>> 16) &&& 0x8000
  let e := (u >>> 23) &&& 0xff
  let m := u &&& 0x7fffff
  if e = 0xff then BitVec.ofNat 16 (s ||| 0x7c00 ||| (if m ≠ 0 then 0x0200 else 0))
  else
    let es : Int := (e : Int) - 127 + 15
    if 31 ≤ es then BitVec.ofNat 16 (s ||| 0x7c00)
    else if es ≤ 0 then
      if es < -10 then BitVec.ofNat 16 s
      else
        let m := m ||| 0x800000
        let shift := (14 - es).toNat
        let half := m >>> shift
        let rem := m &&& ((1 <<< shift) - 1)
        let halfway := 1 <<< (shift - 1)
        let half := if halfway < rem ∨ rem = halfway ∧ half &&& 1 ≠ 0 then half + 1 else half
        BitVec.ofNat 16 (s ||| half)
    else
      let rem := m &&& 0x1fff
      let h := (es.toNat <<< 10) + (m >>> 13)
      let h := if 0x1000 < rem ∨ rem = 0x1000 ∧ h &&& 1 ≠ 0 then h + 1 else h
      if 0x7c00 ≤ h then BitVec.ofNat 16 (s ||| 0x7c00) else BitVec.ofNat 16 (s ||| h)

/-- The mantissa shifted up until its bit 10 is set, and by how many places. -/
def shiftUp : Nat → Nat → Nat → Nat × Nat
  | 0, m, k => (m, k)
  | fuel + 1, m, k => if m &&& 0x400 = 0 then shiftUp fuel (m <<< 1) (k + 1) else (m, k)

def f16ToF32 (h : BitVec 16) : Binary32 :=
  let sign := (h.toNat &&& 0x8000) <<< 16
  let e := (h.toNat >>> 10) &&& 0x1f
  let m := h.toNat &&& 0x3ff
  ⟨BitVec.ofNat 32 (
    if e = 0 then
      if m = 0 then sign
      else
        let up := shiftUp 10 m 0
        sign ||| ((113 - up.2) <<< 23) ||| ((up.1 &&& 0x3ff) <<< 13)
    else if e = 0x1f then sign ||| 0x7f800000 ||| (m <<< 13)
    else sign ||| ((e + 112) <<< 23) ||| (m <<< 13))⟩

def f32ToBf16 (f : Binary32) : BitVec 16 :=
  let bits := f.bits.toNat
  if 0x7f800000 < bits &&& 0x7fffffff then BitVec.ofNat 16 ((bits >>> 16) ||| 0x40)
  else BitVec.ofNat 16 ((bits + 0x7fff + ((bits >>> 16) &&& 1)) >>> 16)

def bf16ToF32 (b : BitVec 16) : Binary32 := ⟨BitVec.ofNat 32 (b.toNat <<< 16)⟩

section Words

/-- A word of `k` low bits under a higher one. -/
theorem join_low {s c k : Nat} (hc : c < 2 ^ k) : s * 2 ^ k ||| c = s * 2 ^ k + c := by
  rw [Nat.mul_comm, Nat.two_pow_add_eq_or_of_lt hc]

theorem mask_low (u k : Nat) : u &&& (2 ^ k - 1) = u % 2 ^ k := Nat.and_two_pow_sub_one_eq_mod u k

/-- A word's top bit alone. -/
theorem mask_top {u k : Nat} (hu : u < 2 ^ (k + 1)) : u &&& 2 ^ k = u / 2 ^ k * 2 ^ k := by
  rw [Nat.and_two_pow, Nat.testBit_eq_decide_div_mod_eq]
  have hlt : u / 2 ^ k < 2 := by
    rw [Nat.div_lt_iff_lt_mul (Nat.two_pow_pos k), ← Nat.pow_succ']
    exact hu
  generalize u / 2 ^ k = q at hlt ⊢
  rcases (by omega : q = 0 ∨ q = 1) with h | h
  · simp [h]
  · simp [h]

theorem odd_iff (n : Nat) : n &&& 1 ≠ 0 ↔ n % 2 = 1 := by
  rw [show n &&& 1 = n % 2 from mask_low n 1]
  omega

variable (f : Binary32)

theorem bits_eq : f.bits.toNat = f.bits.toNat / 2 ^ 31 * 2 ^ 31 + f.magnitude := by
  have := Nat.div_add_mod f.bits.toNat (2 ^ 31)
  rw [Binary32.magnitude]
  omega

theorem sign_lt : f.bits.toNat / 2 ^ 31 < 2 := by
  have := f.bits.isLt
  omega

theorem isNaN_iff : f.isNaN = true ↔ 0x7f800000 < f.magnitude := by
  rw [Binary32.isNaN, decide_eq_true_eq]
  norm_num

theorem sign_half : (f.bits.toNat >>> 16) &&& 0x8000 = f.bits.toNat / 2 ^ 31 * 2 ^ 15 := by
  have hlt : f.bits.toNat >>> 16 < 2 ^ (15 + 1) := by
    rw [Nat.shiftRight_eq_div_pow]
    have := f.bits.isLt
    omega
  rw [show (0x8000 : Nat) = 2 ^ 15 from Eq.refl _, mask_top hlt, Nat.shiftRight_eq_div_pow,
    Nat.div_div_eq_div_mul, ← Nat.pow_add]

theorem exponent_field : (f.bits.toNat >>> 23) &&& 0xff = f.magnitude / 2 ^ 23 := by
  rw [show (0xff : Nat) = 2 ^ 8 - 1 from Eq.refl _, mask_low, Nat.shiftRight_eq_div_pow,
    Binary32.magnitude]
  omega

theorem mantissa_field : f.bits.toNat &&& 0x7fffff = f.magnitude % 2 ^ 23 := by
  rw [show (0x7fffff : Nat) = 2 ^ 23 - 1 from Eq.refl _, mask_low, Binary32.magnitude]
  omega

end Words

/-- A sign over `k` low bits, as a word. -/
theorem toNat_signed {sign c k w : Nat} (hs : sign < 2) (hc : c < 2 ^ k) (hw : w = k + 1) :
    (BitVec.ofNat w (sign * 2 ^ k ||| c)).toNat = sign * 2 ^ k + c := by
  subst hw
  rw [join_low hc, BitVec.toNat_ofNat, Nat.mod_eq_of_lt]
  rw [Nat.pow_succ]
  have := Nat.mul_le_mul_right (2 ^ k) (Nat.le_of_lt_succ hs)
  omega

/-- The sign and the rest of a word read back. -/
theorem split_signed {sign c k w : Nat} {b : BitVec w} (hc : c < 2 ^ k)
    (hb : b.toNat = sign * 2 ^ k + c) : b.toNat / 2 ^ k = sign ∧ b.toNat % 2 ^ k = c := by
  rw [hb, Nat.mul_comm]
  exact ⟨by rw [Nat.mul_add_div (Nat.two_pow_pos k), Nat.div_eq_of_lt hc, Nat.add_zero],
    by rw [Nat.mul_add_mod, Nat.mod_eq_of_lt hc]⟩

/-- The half a float's magnitude rounds to, infinity's code standing for the next power of two. -/
def HalfOf (n c : Nat) : Prop :=
  Nearest (fun d => magnitude 10 d * 2 ^ 125) 0x7c00 (magnitude 23 n) c

theorem half_mono : StrictMono fun d => magnitude 10 d * 2 ^ 125 := fun _ _ h =>
  Nat.mul_lt_mul_of_pos_right (magnitude_strictMono 10 h) (Nat.two_pow_pos 125)

theorem halfOf_overflow {n : Nat} (h : 143 * 2 ^ 23 ≤ n) : HalfOf n 0x7c00 := by
  refine nearest_top half_mono ?_
  have hle := (magnitude_strictMono 23).monotone h
  have htop : magnitude 10 0x7c00 * 2 ^ 125 = 2 ^ 165 := by
    rw [show (0x7c00 : Nat) = 31 * 2 ^ 10 + 0 from Eq.refl _, magnitude_normal (by omega) (by omega)]
    norm_num
  have hfirst : magnitude 23 (143 * 2 ^ 23) = 2 ^ 165 := by
    rw [show 143 * 2 ^ 23 = 143 * 2 ^ 23 + 0 from Eq.refl _, magnitude_normal (by omega) (by omega)]
    norm_num
  exact htop.trans_le (hfirst.symm.trans_le hle)

theorem halfOf_underflow {n : Nat} (h : n < 102 * 2 ^ 23) : HalfOf n 0 := by
  refine nearest_of_neighbors half_mono (by omega) (by omega) fun _ => Or.inl ?_
  have hlt := magnitude_strictMono 23 h
  have hone : magnitude 10 (0 + 1) = 1 := magnitude_eq_self (by omega)
  have hzero : magnitude 10 0 = 0 := magnitude_eq_self (by omega)
  have hlast : magnitude 23 (102 * 2 ^ 23) = 2 ^ 124 := by
    rw [show 102 * 2 ^ 23 = 102 * 2 ^ 23 + 0 from Eq.refl _, magnitude_normal (by omega) (by omega)]
    norm_num
  rw [hone, hzero]
  omega

/-- Below the first normal half the whole significand is shifted. -/
theorem halfOf_subnormal {e m : Nat} (hlo : 102 ≤ e) (hhi : e ≤ 112) (hm : m < 2 ^ 23) :
    HalfOf (e * 2 ^ 23 + m) (roundEven (2 ^ 23 + m) (126 - e)) ∧
      roundEven (2 ^ 23 + m) (126 - e) ≤ 2 ^ 10 := by
  have hquot : (2 ^ 23 + m) / 2 ^ (126 - e) < 2 ^ 10 := by
    rw [Nat.div_lt_iff_lt_mul (Nat.two_pow_pos _), ← Nat.pow_add]
    have := Nat.pow_le_pow_right (n := 2) (by omega) (show 24 ≤ 10 + (126 - e) by omega)
    omega
  have hle : roundEven (2 ^ 23 + m) (126 - e) ≤ 2 ^ 10 := by
    unfold roundEven
    split <;> omega
  refine ⟨?_, hle⟩
  have hsmall : Nearest (fun c => magnitude 10 c * 2 ^ (126 - e)) 0x7c00 (2 ^ 23 + m)
      (roundEven (2 ^ 23 + m) (126 - e)) :=
    roundEven_nearest_small 10 (2 ^ 23 + m) (by omega) (by omega) (by omega)
  have hnear := hsmall.scale (Nat.two_pow_pos (e - 1))
  have hunit : ∀ d, magnitude 10 d * 2 ^ (126 - e) * 2 ^ (e - 1) = magnitude 10 d * 2 ^ 125 := by
    intro d
    rw [Nat.mul_assoc, ← Nat.pow_add]
    congr 2
    omega
  unfold HalfOf
  rw [magnitude_normal (by omega) hm]
  simpa only [hunit] using hnear

/-- From it on the code is rounded with the exponent rebiased. -/
theorem halfOf_normal {e m : Nat} (hlo : 113 ≤ e) (hhi : e < 143) (hm : m < 2 ^ 23) :
    HalfOf (e * 2 ^ 23 + m) (roundEven ((e - 112) * 2 ^ 23 + m) 13) ∧
      roundEven ((e - 112) * 2 ^ 23 + m) 13 ≤ 0x7c00 := by
  have hle : roundEven ((e - 112) * 2 ^ 23 + m) 13 ≤ 0x7c00 := by
    unfold roundEven
    split <;> omega
  refine ⟨?_, hle⟩
  have hnear := (roundEven_nearest 10 ((e - 112) * 2 ^ 23 + m) (k := 13) (by omega) hle).scale
    (Nat.two_pow_pos 112)
  have hunit : ∀ d, magnitude 10 d * 2 ^ 13 * 2 ^ 112 = magnitude 10 d * 2 ^ 125 := by
    intro d
    rw [Nat.mul_assoc, ← Nat.pow_add]
  have hvalue : magnitude (10 + 13) ((e - 112) * 2 ^ 23 + m) * 2 ^ 112 =
      magnitude 23 (e * 2 ^ 23 + m) := by
    rw [magnitude_normal (p := 10 + 13) (by omega) hm, magnitude_normal (by omega) hm, Nat.mul_assoc,
      ← Nat.pow_add]
    congr 2
    omega
  rw [hvalue] at hnear
  unfold HalfOf
  simpa only [hunit] using hnear

/-- A narrowed float: its sign over the nearest half, a NaN's over one past infinity's code. -/
theorem f32ToF16_spec (f : Binary32) : ∃ c < 2 ^ 15,
    (f32ToF16 f).toNat = f.bits.toNat / 2 ^ 31 * 2 ^ 15 + c ∧
      (f.isNaN = true → 0x7c00 < c) ∧ (f.isNaN = false → HalfOf f.magnitude c) := by
  have hsign := sign_lt f
  have hmag : f.magnitude < 2 ^ 31 := Nat.mod_lt _ (by omega)
  have hm : f.magnitude % 2 ^ 23 < 2 ^ 23 := Nat.mod_lt _ (by omega)
  have hsplit : f.magnitude = f.magnitude / 2 ^ 23 * 2 ^ 23 + f.magnitude % 2 ^ 23 := by omega
  have hnan := isNaN_iff f
  unfold f32ToF16
  simp only [sign_half, exponent_field, mantissa_field]
  generalize f.magnitude / 2 ^ 23 = e at hsplit ⊢
  generalize f.magnitude % 2 ^ 23 = m at hm hsplit ⊢
  split
  next he =>
    rw [Nat.lor_assoc]
    by_cases hz : m = 0
    · refine ⟨0x7c00, by omega, ?_, fun h => ?_, fun _ => halfOf_overflow (by omega)⟩
      · rw [if_neg (by omega)]
        exact toNat_signed (c := 0x7c00) hsign (by omega) (Eq.refl _)
      · have := hnan.mp h
        omega
    · refine ⟨0x7e00, by omega, ?_, fun _ => by omega, fun h => ?_⟩
      · rw [if_pos hz]
        exact toNat_signed (c := 0x7e00) hsign (by omega) (Eq.refl _)
      · have : f.isNaN = true := hnan.mpr (by omega)
        rw [h] at this
        cases this
  next he =>
    have hfinite : ¬ f.isNaN = true := by
      rw [hnan]
      omega
    split
    next hover =>
      exact ⟨0x7c00, by omega, toNat_signed hsign (by omega) (Eq.refl _), fun h => absurd h hfinite,
        fun _ => halfOf_overflow (by omega)⟩
    next hover =>
      split
      next hsub =>
        split
        next hunder =>
          refine ⟨0, by omega, ?_, fun h => absurd h hfinite, fun _ => halfOf_underflow (by omega)⟩
          have := toNat_signed (w := 16) hsign (c := 0) (by omega) (Eq.refl _)
          rwa [Nat.or_zero] at this
        next hunder =>
          have hsig : m ||| 0x800000 = 2 ^ 23 + m := by
            rw [Nat.lor_comm, show (0x800000 : Nat) = 1 * 2 ^ 23 from Eq.refl _, join_low hm,
              Nat.one_mul]
          have hshift : (14 - ((e : Int) - 127 + 15)).toNat = 126 - e := by omega
          obtain ⟨hnear, hle⟩ := halfOf_subnormal (e := e) (by omega) (by omega) hm
          refine ⟨roundEven (2 ^ 23 + m) (126 - e), by omega, ?_, fun h => absurd h hfinite,
            fun _ => by rw [hsplit]; exact hnear⟩
          have hround : (if 1 <<< (126 - e - 1) < (2 ^ 23 + m) &&& (1 <<< (126 - e) - 1) ∨
              (2 ^ 23 + m) &&& (1 <<< (126 - e) - 1) = 1 <<< (126 - e - 1) ∧
                (2 ^ 23 + m) >>> (126 - e) &&& 1 ≠ 0 then (2 ^ 23 + m) >>> (126 - e) + 1
              else (2 ^ 23 + m) >>> (126 - e)) = roundEven (2 ^ 23 + m) (126 - e) := by
            simp only [Nat.one_shiftLeft, mask_low, Nat.shiftRight_eq_div_pow, odd_iff, roundEven]
            split <;> simp
          rw [hsig, hshift, hround]
          exact toNat_signed hsign (by omega) (Eq.refl _)
      next hnormal =>
        have hes : ((e : Int) - 127 + 15).toNat = e - 112 := by omega
        obtain ⟨hnear, hle⟩ := halfOf_normal (e := e) (by omega) (by omega) hm
        have hround : (if 0x1000 < m &&& 0x1fff ∨
            m &&& 0x1fff = 0x1000 ∧ ((e - 112) <<< 10 + m >>> 13) &&& 1 ≠ 0
              then (e - 112) <<< 10 + m >>> 13 + 1 else (e - 112) <<< 10 + m >>> 13) =
            roundEven ((e - 112) * 2 ^ 23 + m) 13 := by
          have hquot : ((e - 112) * 2 ^ 23 + m) / 2 ^ 13 = (e - 112) * 2 ^ 10 + m / 2 ^ 13 := by
            omega
          have hrem : ((e - 112) * 2 ^ 23 + m) % 2 ^ 13 = m % 2 ^ 13 := by omega
          rw [show (0x1fff : Nat) = 2 ^ 13 - 1 from Eq.refl _, mask_low]
          simp only [Nat.shiftLeft_eq, Nat.shiftRight_eq_div_pow, odd_iff, roundEven, hquot, hrem]
          split <;> simp_all
        rw [hes, hround]
        refine ⟨roundEven ((e - 112) * 2 ^ 23 + m) 13, by omega, ?_, fun h => absurd h hfinite,
          fun _ => by rw [hsplit]; exact hnear⟩
        split
        · rw [show roundEven ((e - 112) * 2 ^ 23 + m) 13 = 0x7c00 by omega]
          exact toNat_signed hsign (by omega) (Eq.refl _)
        · exact toNat_signed hsign (by omega) (Eq.refl _)

/-- Narrowing keeps the sign and NaNs, and gives the nearest half, the even one of a tie. -/
theorem f32_to_f16_nearest (f : Binary32) :
    (f32ToF16 f).toNat / 2 ^ 15 = f.bits.toNat / 2 ^ 31 ∧
      (f.isNaN = true ↔ 0x7c00 < (f32ToF16 f).toNat % 2 ^ 15) ∧
      (f.isNaN = false → Nearest (fun d => magnitude 10 d * 2 ^ 125) 0x7c00
        (magnitude 23 f.magnitude) ((f32ToF16 f).toNat % 2 ^ 15)) := by
  obtain ⟨c, hc, hword, hnan, hnear⟩ := f32ToF16_spec f
  obtain ⟨hs, hlow⟩ := split_signed hc hword
  rw [hs, hlow]
  refine ⟨Eq.refl _, ⟨hnan, fun h => ?_⟩, hnear⟩
  cases hf : f.isNaN with
  | true => exact Eq.refl _
  | false =>
    have := (hnear hf).1
    omega

/-- A subnormal mantissa is shifted until its leading bit stands where a normal one's does. -/
theorem shiftUp_spec {fuel m : Nat} (hpos : 0 < m) (hlt : m < 2 ^ 11) (hfuel : 2 ^ 10 ≤ m * 2 ^ fuel)
    (k : Nat) : ∃ j ≤ fuel, shiftUp fuel m k = (m * 2 ^ j, k + j) ∧ 2 ^ 10 ≤ m * 2 ^ j ∧
      m * 2 ^ j < 2 ^ 11 := by
  induction fuel generalizing m k with
  | zero => exact ⟨0, le_rfl, by simp [shiftUp], by omega, by omega⟩
  | succ fuel ih =>
    have hbit : m &&& 0x400 = m / 2 ^ 10 * 2 ^ 10 := mask_top (k := 10) hlt
    unfold shiftUp
    rw [hbit]
    split
    next hlow =>
      have hsmall : m < 2 ^ 10 := by omega
      have hdouble : m <<< 1 = 2 * m := by
        rw [Nat.shiftLeft_eq]
        omega
      have hnext : m * 2 ^ (fuel + 1) = 2 * m * 2 ^ fuel := by ring
      rw [hnext] at hfuel
      obtain ⟨j, hj, hup, hlo, hhi⟩ := ih (m := 2 * m) (by omega) (by omega) hfuel (k + 1)
      have hpow : 2 * m * 2 ^ j = m * 2 ^ (j + 1) := by ring
      refine ⟨j + 1, by omega, ?_, by omega, by omega⟩
      rw [hdouble, hup, hpow]
      congr 1
      omega
    next hhigh => exact ⟨0, by omega, by simp, by omega, by omega⟩

/-- A sign, an exponent and the top bits of a mantissa, as a float's word. -/
theorem toNat_fields {sign x y : Nat} (hs : sign < 2) (hx : x < 2 ^ 8) (hy : y < 2 ^ 10) :
    (BitVec.ofNat 32 (sign * 2 ^ 31 ||| x <<< 23 ||| y <<< 13)).toNat =
      sign * 2 ^ 31 + (x * 2 ^ 23 + y * 2 ^ 13) := by
  have hall : x * 2 ^ 23 + y * 2 ^ 13 < 2 ^ 31 := by omega
  have hlow : y * 2 ^ 13 < 2 ^ 10 * 2 ^ 13 := Nat.mul_lt_mul_of_pos_right hy (Nat.two_pow_pos 13)
  rw [← Nat.pow_add] at hlow
  rw [Nat.lor_assoc, Nat.shiftLeft_eq, Nat.shiftLeft_eq, join_low hlow]
  exact toNat_signed hs hall (Eq.refl _)

/-- A widened half: its sign over a float of the same value, infinity and NaNs over theirs. -/
theorem f16ToF32_spec (h : BitVec 16) : ∃ w < 2 ^ 31,
    (f16ToF32 h).bits.toNat = h.toNat / 2 ^ 15 * 2 ^ 31 + w ∧
      (h.toNat % 2 ^ 15 < 0x7c00 → w < 0x7f800000 ∧
        magnitude 23 w = magnitude 10 (h.toNat % 2 ^ 15) * 2 ^ 125) ∧
      (h.toNat % 2 ^ 15 = 0x7c00 → w = 0x7f800000) ∧
      (0x7c00 < h.toNat % 2 ^ 15 → 0x7f800000 < w) := by
  have hlt := h.isLt
  have hsign : h.toNat / 2 ^ 15 < 2 := by omega
  have hs : (h.toNat &&& 0x8000) <<< 16 = h.toNat / 2 ^ 15 * 2 ^ 31 := by
    rw [show (0x8000 : Nat) = 2 ^ 15 from Eq.refl _, mask_top (by omega), Nat.shiftLeft_eq,
      Nat.mul_assoc, ← Nat.pow_add]
  have he : (h.toNat >>> 10) &&& 0x1f = h.toNat % 2 ^ 15 / 2 ^ 10 := by
    rw [show (0x1f : Nat) = 2 ^ 5 - 1 from Eq.refl _, mask_low, Nat.shiftRight_eq_div_pow]
    omega
  have hm : h.toNat &&& 0x3ff = h.toNat % 2 ^ 15 % 2 ^ 10 := by
    rw [show (0x3ff : Nat) = 2 ^ 10 - 1 from Eq.refl _, mask_low]
    omega
  have hsplit : h.toNat % 2 ^ 15 =
      h.toNat % 2 ^ 15 / 2 ^ 10 * 2 ^ 10 + h.toNat % 2 ^ 15 % 2 ^ 10 := by omega
  have hmlt : h.toNat % 2 ^ 15 % 2 ^ 10 < 2 ^ 10 := Nat.mod_lt _ (by omega)
  have helt : h.toNat % 2 ^ 15 / 2 ^ 10 < 32 := by omega
  unfold f16ToF32
  simp only [hs, he, hm]
  generalize h.toNat % 2 ^ 15 / 2 ^ 10 = e at hsplit helt ⊢
  generalize h.toNat % 2 ^ 15 % 2 ^ 10 = m at hsplit hmlt ⊢
  by_cases hzero : e = 0
  · rw [if_pos hzero]
    by_cases hmz : m = 0
    · rw [if_pos hmz]
      have := toNat_signed (w := 32) (k := 31) hsign (c := 0) (by omega) (Eq.refl _)
      rw [Nat.or_zero] at this
      refine ⟨0, by omega, this, fun _ => ⟨by omega, ?_⟩, by omega, by omega⟩
      rw [hsplit, hzero, hmz, magnitude_eq_self (by omega), magnitude_eq_self (by omega)]
      simp
    · rw [if_neg hmz]
      have hfuel : 2 ^ 10 ≤ m * 2 ^ 10 := by omega
      obtain ⟨j, hj, hup, hlo, hhi⟩ := shiftUp_spec (by omega) (by omega) hfuel 0
      rw [hup]
      dsimp only
      rw [show (0x3ff : Nat) = 2 ^ 10 - 1 from Eq.refl _, mask_low]
      have hrem : m * 2 ^ j % 2 ^ 10 = m * 2 ^ j - 2 ^ 10 := by omega
      rw [toNat_fields hsign (by omega) (Nat.mod_lt _ (by omega))]
      refine ⟨_, ?_, Eq.refl _, fun _ => ⟨?_, ?_⟩, by omega, by omega⟩
      · omega
      · omega
      · have hsig : (2 ^ 23 + m * 2 ^ j % 2 ^ 10 * 2 ^ 13) = m * 2 ^ j * 2 ^ 13 := by omega
        rw [magnitude_normal (by omega) (by omega), hsig, hsplit, hzero, Nat.zero_mul, Nat.zero_add,
          magnitude_eq_self (by omega), Nat.zero_add, Nat.mul_assoc, Nat.mul_assoc, ← Nat.pow_add,
          ← Nat.pow_add]
        have hexp : j + (13 + (113 - j - 1)) = 125 := by omega
        rw [hexp]
  · rw [if_neg hzero]
    by_cases hlast : e = 31
    · rw [if_pos hlast]
      have := toNat_fields hsign (x := 255) (by omega) hmlt
      refine ⟨_, ?_, this, by omega, by omega, by omega⟩
      omega
    · rw [if_neg hlast, toNat_fields hsign (by omega) hmlt]
      refine ⟨_, ?_, Eq.refl _, fun _ => ⟨?_, ?_⟩, by omega, by omega⟩
      · omega
      · omega
      · have hsig : (2 ^ 23 + m * 2 ^ 13) = (2 ^ 10 + m) * 2 ^ 13 := by ring
        rw [magnitude_normal (by omega) (by omega), hsig, hsplit, magnitude_normal (by omega) hmlt,
          Nat.mul_assoc, Nat.mul_assoc, ← Nat.pow_add, ← Nat.pow_add]
        congr 2
        omega

/-- Widening is exact, and narrowing takes every half but a NaN back to itself. -/
theorem f16_round_trip (h : BitVec 16) :
    (f16ToF32 h).bits.toNat / 2 ^ 31 = h.toNat / 2 ^ 15 ∧
      (h.toNat % 2 ^ 15 < 0x7c00 → (f16ToF32 h).magnitude < 0x7f800000 ∧
        magnitude 23 (f16ToF32 h).magnitude = magnitude 10 (h.toNat % 2 ^ 15) * 2 ^ 125) ∧
      (h.toNat % 2 ^ 15 = 0x7c00 → (f16ToF32 h).magnitude = 0x7f800000) ∧
      ((f16ToF32 h).isNaN = true ↔ 0x7c00 < h.toNat % 2 ^ 15) ∧
      ((f16ToF32 h).isNaN = false → f32ToF16 (f16ToF32 h) = h) := by
  obtain ⟨w, hw, hword, hfin, hinf, hnan⟩ := f16ToF32_spec h
  obtain ⟨hs, hlow⟩ := split_signed hw hword
  have hmag : (f16ToF32 h).magnitude = w := hlow
  have hisnan : (f16ToF32 h).isNaN = true ↔ 0x7f800000 < w := by
    rw [isNaN_iff, hmag]
  have hnum : (f16ToF32 h).isNaN = false ↔ h.toNat % 2 ^ 15 ≤ 0x7c00 := by
    rw [← Bool.not_eq_true, hisnan]
    constructor
    · intro hle
      by_contra hgt
      have := hnan (by omega)
      omega
    · intro hle
      rcases Nat.lt_or_eq_of_le hle with hlt | heq
      · have := (hfin hlt).1
        omega
      · have := hinf heq
        omega
  rw [hmag]
  refine ⟨hs, hfin, hinf, ?_, fun hn => ?_⟩
  · rw [← Bool.not_eq_false, hnum]
    omega
  obtain ⟨c, hc, hback, -, hnear⟩ := f32ToF16_spec (f16ToF32 h)
  have hnear := hnear hn
  rw [hmag] at hnear
  have hle := hnum.mp hn
  have hself : HalfOf w (h.toNat % 2 ^ 15) := by
    rcases Nat.lt_or_eq_of_le hle with hlt | heq
    · exact nearest_of_eq half_mono hle (hfin hlt).2.symm
    · rw [heq, hinf heq]
      exact halfOf_overflow (by omega)
  apply BitVec.eq_of_toNat_eq
  rw [hback, hs, Nearest.unique half_mono hnear hself]
  omega

/-- A sum over a half's worth of dropped bits is the rounding. -/
theorem add_half_shift (n : Nat) : (n + 0x7fff + n / 2 ^ 16 % 2) / 2 ^ 16 = roundEven n 16 := by
  unfold roundEven
  split <;> omega

/-- The same for the shorter half of the exponent's range of a float. -/
theorem f32_to_bf16_nearest (f : Binary32) :
    (f32ToBf16 f).toNat / 2 ^ 15 = f.bits.toNat / 2 ^ 31 ∧
      (f.isNaN = true ↔ 0x7f80 < (f32ToBf16 f).toNat % 2 ^ 15) ∧
      (f.isNaN = false → Nearest (fun d => magnitude 7 d * 2 ^ 16) 0x7f80
        (magnitude 23 f.magnitude) ((f32ToBf16 f).toNat % 2 ^ 15)) := by
  have hsign := sign_lt f
  have hbits := bits_eq f
  have hmag : f.magnitude < 2 ^ 31 := Nat.mod_lt _ (by omega)
  have hmask : f.bits.toNat &&& 0x7fffffff = f.magnitude := by
    rw [show (0x7fffffff : Nat) = 2 ^ 31 - 1 from Eq.refl _, mask_low, Binary32.magnitude]
  have hnan := isNaN_iff f
  unfold f32ToBf16
  dsimp only
  rw [hmask]
  generalize f.bits.toNat / 2 ^ 31 = sign at hsign hbits ⊢
  generalize f.magnitude = n at hbits hmag hnan ⊢
  rw [hbits]
  have hhigh : (sign * 2 ^ 31 + n) >>> 16 = sign * 2 ^ 15 + n / 2 ^ 16 := by
    rw [Nat.shiftRight_eq_div_pow]
    omega
  by_cases hlarge : 0x7f800000 < n
  · rw [if_pos hlarge, hhigh]
    have hor : (sign * 2 ^ 15 + n / 2 ^ 16) ||| 0x40 =
        sign * 2 ^ 15 ||| (n / 2 ^ 16 ||| 0x40) := by
      rw [← join_low (k := 15) (by omega), Nat.lor_assoc]
    have hlow : n / 2 ^ 16 ||| 0x40 < 2 ^ 15 := Nat.or_lt_two_pow (by omega) (by omega)
    have hquiet : 0x7f80 < n / 2 ^ 16 ||| 0x40 := by
      have hquot : n / 2 ^ 16 = 255 * 2 ^ 7 + n / 2 ^ 16 % 2 ^ 7 := by omega
      rw [hquot, ← join_low (Nat.mod_lt _ (by omega)), Nat.lor_assoc,
        join_low (Nat.or_lt_two_pow (Nat.mod_lt _ (by omega)) (by omega))]
      have : 0x40 ≤ n / 2 ^ 16 % 2 ^ 7 ||| 0x40 := Nat.right_le_or
      omega
    rw [hor]
    obtain ⟨hs, hrest⟩ := split_signed hlow (toNat_signed hsign hlow (Eq.refl 16))
    rw [hs, hrest]
    refine ⟨Eq.refl _, ⟨fun _ => hquiet, fun _ => hnan.mpr hlarge⟩, fun hn => ?_⟩
    rw [hnan.mpr hlarge] at hn
    cases hn
  · have hround : (sign * 2 ^ 31 + n + 0x7fff + ((sign * 2 ^ 31 + n) >>> 16 &&& 1)) >>> 16 =
        sign * 2 ^ 15 + roundEven n 16 := by
      rw [hhigh, ← add_half_shift, show (1 : Nat) = 2 ^ 1 - 1 from Eq.refl _, mask_low,
        Nat.shiftRight_eq_div_pow]
      omega
    have hle : roundEven n 16 ≤ 0x7f80 := by
      unfold roundEven
      split <;> omega
    rw [if_neg hlarge, hround, ← join_low (k := 15) (by omega)]
    have hlow : roundEven n 16 < 2 ^ 15 := by omega
    obtain ⟨hs, hrest⟩ := split_signed hlow (toNat_signed hsign hlow (Eq.refl 16))
    rw [hs, hrest]
    refine ⟨Eq.refl _, ⟨fun h => absurd (hnan.mp h) hlarge, fun h => by omega⟩, fun _ => ?_⟩
    exact roundEven_nearest 7 n (by omega) hle

/-- Widening a bfloat is exact, and narrowing takes it back, a NaN to its quiet one. -/
theorem bf16_round_trip (b : BitVec 16) :
    (bf16ToF32 b).bits.toNat / 2 ^ 31 = b.toNat / 2 ^ 15 ∧
      magnitude 23 (bf16ToF32 b).magnitude = magnitude 7 (b.toNat % 2 ^ 15) * 2 ^ 16 ∧
      ((bf16ToF32 b).isNaN = true ↔ 0x7f80 < b.toNat % 2 ^ 15) ∧
      f32ToBf16 (bf16ToF32 b) =
        if (bf16ToF32 b).isNaN then BitVec.ofNat 16 (b.toNat ||| 0x40) else b := by
  have hlt := b.isLt
  have hbits : (bf16ToF32 b).bits.toNat = b.toNat * 2 ^ 16 := by
    rw [bf16ToF32, BitVec.toNat_ofNat, Nat.shiftLeft_eq]
    omega
  have hmag : (bf16ToF32 b).magnitude = b.toNat % 2 ^ 15 * 2 ^ 16 + 0 := by
    rw [Binary32.magnitude, hbits]
    omega
  have hnan : (bf16ToF32 b).isNaN = true ↔ 0x7f80 < b.toNat % 2 ^ 15 := by
    rw [isNaN_iff, hmag]
    omega
  refine ⟨by rw [hbits]; omega, ?_, hnan, ?_⟩
  · rw [hmag, show (23 : Nat) = 7 + 16 from Eq.refl _, magnitude_fine 7 16 _ (by omega)]
    ring
  · have hmask : b.toNat * 2 ^ 16 &&& 0x7fffffff = b.toNat % 2 ^ 15 * 2 ^ 16 := by
      rw [show (0x7fffffff : Nat) = 2 ^ 31 - 1 from Eq.refl _, mask_low]
      omega
    have hhigh : (b.toNat * 2 ^ 16) >>> 16 = b.toNat := by
      rw [Nat.shiftRight_eq_div_pow]
      omega
    unfold f32ToBf16
    dsimp only
    rw [hbits, hmask, hhigh]
    by_cases hn : (bf16ToF32 b).isNaN = true
    · have hlarge := hnan.mp hn
      rw [if_pos hn, if_pos (by omega)]
    · have hsmall := mt hnan.mpr hn
      rw [if_neg hn, if_neg (by omega)]
      have hsum : (b.toNat * 2 ^ 16 + 0x7fff + b.toNat % 2 ^ 1) / 2 ^ 16 = b.toNat := by omega
      rw [show (1 : Nat) = 2 ^ 1 - 1 from Eq.refl _, mask_low, Nat.shiftRight_eq_div_pow, hsum]
      exact BitVec.ofNat_toNat 16 b

end Llmx
