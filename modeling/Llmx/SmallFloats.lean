import Llmx.HalfFloats
import Mathlib.Tactic.IntervalCases

namespace Llmx

open FloatCodes

namespace ModelFormats

/-- The sign a code of `k` bits below it takes from a float. -/
def signBit (x : Binary32) (k : Nat) : Nat := if 2 ^ 31 ≤ x.bits.toNat then 2 ^ k else 0

/-- The nearest E4M3 code: `a` scaled by a power of two is exact, so `nearbyint` of it rounds
`a` in units of `2 ^ -149`. -/
def e4m3Code (x : Binary32) : BitVec 8 :=
  if x.isNaN then 0x7F#8
  else
    let a := x.magnitude
    let sign := signBit x 7
    if 0x43E80000 ≤ a then BitVec.ofNat 8 (sign ||| 0x7E)
    else if a < 0x3C800000 then BitVec.ofNat 8 (sign ||| roundEven (magnitude 23 a) 140)
    else
      let e : Int := (a / 2 ^ 23 : Nat) - 126
      let t := roundEven (magnitude 23 a) (145 + e).toNat
      BitVec.ofNat 8 (sign ||| (((e + 6).toNat <<< 3) + (t - 8)))

/-- The sign of a code's value and its magnitude in units of `2 ^ -149`; none where it is NaN. -/
def e4m3Value (c : BitVec 8) : Option (Bool × Nat) :=
  let e := (c.toNat >>> 3) &&& 15
  let m := c.toNat &&& 7
  if e = 15 ∧ m = 7 then none
  else some (c.toNat &&& 0x80 ≠ 0, if e ≠ 0 then (8 + m) * 2 ^ (e + 139) else m * 2 ^ 140)

/-- Whether a float's magnitude is past the one of code `t`, which holds of no NaN. -/
def above (x : Binary32) (t : Nat) : Nat := if x.isNaN = false ∧ t < x.magnitude then 1 else 0

def atLeast (x : Binary32) (t : Nat) : Nat := if x.isNaN = false ∧ t ≤ x.magnitude then 1 else 0

def e2m1Code (x : Binary32) : BitVec 4 :=
  let m := above x 0x3E800000 + atLeast x 0x3F400000 + above x 0x3FA00000 + atLeast x 0x3FE00000 +
    above x 0x40200000 + atLeast x 0x40600000 + above x 0x40A00000
  BitVec.ofNat 4 (signBit x 3 ||| m)

def e2m1Magnitudes : List Nat := [0, 1, 2, 3, 4, 6, 8, 12]

/-- The sign of a code's value and its magnitude in units of `2 ^ -149`, the table's halves. -/
def e2m1Value (c : BitVec 4) : Bool × Nat :=
  (c.toNat &&& 8 ≠ 0, e2m1Magnitudes.getD (c.toNat &&& 7) 0 * 2 ^ 148)

/-- Half an unsigned E4M3 scale in units of `2 ^ -149`. -/
def nvfp4Scale (scale : BitVec 8) : Nat :=
  if scale = 0#8 ∨ scale = 127#8 then 0
  else
    let exponent := (scale.toNat >>> 3) &&& 15
    let mantissa := scale.toNat &&& 7
    if exponent ≠ 0 then (8 + mantissa) * 2 ^ (exponent + 138) else mantissa * 2 ^ 139

def mxfp4Scale (e : BitVec 8) : Binary32 :=
  ⟨BitVec.ofNat 32 (if e.toNat ≤ 1 then 0x00200000 <<< e.toNat else (e.toNat - 1) <<< 23)⟩

theorem signBit_eq (x : Binary32) (k : Nat) : signBit x k = x.bits.toNat / 2 ^ 31 * 2 ^ k := by
  have := sign_lt x
  unfold signBit
  split
  · rw [show x.bits.toNat / 2 ^ 31 = 1 by omega, Nat.one_mul]
  · rw [show x.bits.toNat / 2 ^ 31 = 0 by omega, Nat.zero_mul]

/-- Bits shifted in below change no rounding of those above. -/
theorem roundEven_mul (v j : Nat) {k : Nat} (hk : 0 < k) :
    roundEven (v * 2 ^ j) (k + j) = roundEven v k := by
  have hj : 0 < 2 ^ j := Nat.two_pow_pos j
  have hquot : v * 2 ^ j / 2 ^ (k + j) = v / 2 ^ k := by
    rw [Nat.pow_add, Nat.mul_div_mul_right _ _ hj]
  have hrem : v * 2 ^ j % 2 ^ (k + j) = v % 2 ^ k * 2 ^ j := by
    rw [Nat.pow_add, Nat.mul_mod_mul_right]
  have hhalf : 2 ^ (k + j - 1) = 2 ^ (k - 1) * 2 ^ j := by
    rw [← Nat.pow_add]
    congr 1
    omega
  unfold roundEven
  simp only [hquot, hrem, hhalf, Nat.mul_lt_mul_right hj, Nat.mul_left_inj hj.ne']

theorem e4m3_mono : StrictMono fun d => magnitude 3 d * 2 ^ 140 := fun _ _ h =>
  Nat.mul_lt_mul_of_pos_right (magnitude_strictMono 3 h) (Nat.two_pow_pos 140)

/-- The code a magnitude is nearest to, the last for all past it. -/
def E4m3Of (n c : Nat) : Prop :=
  Nearest (fun d => magnitude 3 d * 2 ^ 140) 0x7E (magnitude 23 n) c

theorem e4m3Of_saturated {n : Nat} (h : 0x43E80000 ≤ n) : E4m3Of n 0x7E := by
  refine nearest_top e4m3_mono ?_
  have hle := (magnitude_strictMono 23).monotone h
  have htop : magnitude 3 0x7E * 2 ^ 140 = 14 * 2 ^ 154 := by
    rw [show (0x7E : Nat) = 15 * 2 ^ 3 + 6 from Eq.refl _, magnitude_normal (by omega) (by omega)]
    norm_num
  have hfirst : magnitude 23 0x43E80000 = 29 * 2 ^ 153 := by
    rw [show 0x43E80000 = 135 * 2 ^ 23 + 13 * 2 ^ 19 from Eq.refl _,
      magnitude_normal (by omega) (by omega)]
    norm_num
  refine htop.trans_le (le_trans ?_ (hfirst.symm.trans_le hle))
  norm_num

theorem e4m3Of_subnormal {n : Nat} (h : n < 0x3C800000) :
    E4m3Of n (roundEven (magnitude 23 n) 140) ∧ roundEven (magnitude 23 n) 140 ≤ 8 := by
  have hlt := magnitude_strictMono 23 h
  have hlast : magnitude 23 0x3C800000 = 8 * 2 ^ 140 := by
    rw [show 0x3C800000 = 121 * 2 ^ 23 + 0 from Eq.refl _, magnitude_normal (by omega) (by omega)]
    norm_num
  have hquot : magnitude 23 n / 2 ^ 140 < 8 := by
    rw [Nat.div_lt_iff_lt_mul (Nat.two_pow_pos _), ← hlast]
    exact hlt
  have hle : roundEven (magnitude 23 n) 140 ≤ 8 := by
    unfold roundEven
    split <;> omega
  exact ⟨roundEven_nearest_small 3 _ (by omega) (by omega) (by omega), hle⟩

theorem e4m3Of_normal {e m : Nat} (hlo : 121 ≤ e) (hm : m < 2 ^ 23)
    (hhi : e * 2 ^ 23 + m < 0x43E80000) :
    E4m3Of (e * 2 ^ 23 + m)
        ((e - 120) * 8 + (roundEven (magnitude 23 (e * 2 ^ 23 + m)) (e + 19) - 8)) ∧
      (e - 120) * 8 + (roundEven (magnitude 23 (e * 2 ^ 23 + m)) (e + 19) - 8) ≤ 0x7E := by
  have hexp : e + 19 = 20 + (e - 1) := by omega
  have hround : roundEven (magnitude 23 (e * 2 ^ 23 + m)) (e + 19) = roundEven (2 ^ 23 + m) 20 := by
    rw [magnitude_normal (by omega) hm, hexp, roundEven_mul _ _ (by omega)]
  have hcode : (e - 120) * 8 + (roundEven (2 ^ 23 + m) 20 - 8) =
      roundEven ((e - 120) * 2 ^ 23 + m) 20 := by
    have hquot : (2 ^ 23 + m) / 2 ^ 20 = 8 + m / 2 ^ 20 := by omega
    have hrem : (2 ^ 23 + m) % 2 ^ 20 = m % 2 ^ 20 := by omega
    have hquot' : ((e - 120) * 2 ^ 23 + m) / 2 ^ 20 = (e - 120) * 8 + m / 2 ^ 20 := by omega
    have hrem' : ((e - 120) * 2 ^ 23 + m) % 2 ^ 20 = m % 2 ^ 20 := by omega
    have hodd : (8 + m / 2 ^ 20) % 2 = ((e - 120) * 8 + m / 2 ^ 20) % 2 := by omega
    unfold roundEven
    rw [hquot, hrem, hquot', hrem', hodd]
    split <;> omega
  have hle : roundEven ((e - 120) * 2 ^ 23 + m) 20 ≤ 0x7E := by
    unfold roundEven
    split <;> omega
  rw [hround, hcode]
  refine ⟨?_, hle⟩
  have hnear := (roundEven_nearest 3 ((e - 120) * 2 ^ 23 + m) (k := 20) (by omega) hle).scale
    (Nat.two_pow_pos 120)
  have hunit : ∀ d, magnitude 3 d * 2 ^ 20 * 2 ^ 120 = magnitude 3 d * 2 ^ 140 := by
    intro d
    rw [Nat.mul_assoc, ← Nat.pow_add]
  have hvalue : magnitude 23 ((e - 120) * 2 ^ 23 + m) * 2 ^ 120 =
      magnitude 23 (e * 2 ^ 23 + m) := by
    have hpow : e - 120 - 1 + 120 = e - 1 := by omega
    rw [magnitude_normal (by omega) hm, magnitude_normal (by omega) hm, Nat.mul_assoc,
      ← Nat.pow_add, hpow]
  rw [show 3 + 20 = 23 from Eq.refl _, hvalue] at hnear
  unfold E4m3Of
  simpa only [hunit] using hnear

/-- A NaN's code, or the sign over the nearest one, saturating at the last. -/
theorem e4m3Code_spec (x : Binary32) :
    (x.isNaN = true → e4m3Code x = 0x7F#8) ∧
      (x.isNaN = false → ∃ c < 2 ^ 7, (e4m3Code x).toNat = x.bits.toNat / 2 ^ 31 * 2 ^ 7 + c ∧
        E4m3Of x.magnitude c) := by
  have hsign := sign_lt x
  have hm : x.magnitude % 2 ^ 23 < 2 ^ 23 := Nat.mod_lt _ (by omega)
  have hsplit : x.magnitude = x.magnitude / 2 ^ 23 * 2 ^ 23 + x.magnitude % 2 ^ 23 := by omega
  unfold e4m3Code
  refine ⟨fun hn => if_pos hn, fun hn => ?_⟩
  rw [if_neg (by rw [hn]; exact Bool.false_ne_true)]
  dsimp only
  rw [signBit_eq]
  by_cases hlarge : 0x43E80000 ≤ x.magnitude
  · rw [if_pos hlarge]
    exact ⟨0x7E, by omega, toNat_signed hsign (by omega) (Eq.refl _), e4m3Of_saturated hlarge⟩
  rw [if_neg hlarge]
  by_cases hsmall : x.magnitude < 0x3C800000
  · rw [if_pos hsmall]
    obtain ⟨hnear, hle⟩ := e4m3Of_subnormal hsmall
    exact ⟨_, by omega, toNat_signed hsign (by omega) (Eq.refl _), hnear⟩
  rw [if_neg hsmall]
  have hexp : (145 + ((x.magnitude / 2 ^ 23 : Nat) - 126 : Int)).toNat =
      x.magnitude / 2 ^ 23 + 19 := by omega
  have hfield : (((x.magnitude / 2 ^ 23 : Nat) - 126 : Int) + 6).toNat =
      x.magnitude / 2 ^ 23 - 120 := by omega
  obtain ⟨hnear, hle⟩ := e4m3Of_normal (e := x.magnitude / 2 ^ 23) (by omega) hm (by omega)
  rw [← hsplit] at hnear hle
  rw [hexp, hfield, Nat.shiftLeft_eq]
  exact ⟨_, by omega, toNat_signed hsign (by omega) (Eq.refl _), hnear⟩

theorem e4m3Value_eq (c : BitVec 8) : e4m3Value c =
    if c.toNat % 2 ^ 7 = 0x7F then none
    else some (decide (c.toNat / 2 ^ 7 = 1), magnitude 3 (c.toNat % 2 ^ 7) * 2 ^ 140) := by
  have hlt := c.isLt
  have he : (c.toNat >>> 3) &&& 15 = c.toNat % 2 ^ 7 / 2 ^ 3 := by
    rw [show (15 : Nat) = 2 ^ 4 - 1 from Eq.refl _, mask_low, Nat.shiftRight_eq_div_pow]
    omega
  have hm : c.toNat &&& 7 = c.toNat % 2 ^ 7 % 2 ^ 3 := by
    rw [show (7 : Nat) = 2 ^ 3 - 1 from Eq.refl _, mask_low]
    omega
  have hs : c.toNat &&& 0x80 = c.toNat / 2 ^ 7 * 2 ^ 7 := mask_top (k := 7) (by omega)
  have hmlt : c.toNat % 2 ^ 7 % 2 ^ 3 < 2 ^ 3 := Nat.mod_lt _ (by omega)
  have hsplit : c.toNat % 2 ^ 7 = c.toNat % 2 ^ 7 / 2 ^ 3 * 2 ^ 3 + c.toNat % 2 ^ 7 % 2 ^ 3 := by
    omega
  unfold e4m3Value
  dsimp only
  rw [he, hm, hs]
  by_cases hlast : c.toNat % 2 ^ 7 = 0x7F
  · rw [if_pos hlast, if_pos (by omega)]
  · rw [if_neg hlast, if_neg (by omega)]
    congr 2
    · rw [decide_eq_decide]
      omega
    · generalize c.toNat % 2 ^ 7 / 2 ^ 3 = e at hsplit ⊢
      generalize c.toNat % 2 ^ 7 % 2 ^ 3 = m at hsplit hmlt ⊢
      rw [hsplit]
      by_cases hz : e = 0
      · have hsmall : e * 2 ^ 3 + m ≤ 2 ^ (3 + 1) := by omega
        have hself : e * 2 ^ 3 + m = m := by omega
        rw [if_neg (by omega), magnitude_eq_self hsmall, hself]
      · have hpow : e - 1 + 140 = e + 139 := by omega
        rw [if_pos hz, magnitude_normal (by omega) hmlt, Nat.mul_assoc, ← Nat.pow_add, hpow,
          show (8 : Nat) = 2 ^ 3 from Eq.refl _]

/-- E4M3 codes are the nearest to what they hold, saturating, with ties to the even code; a code's
value is held exactly and coded back as itself. -/
theorem e4m3_nearest (x : Binary32) :
    (x.isNaN = true → e4m3Code x = 0x7F#8) ∧
      (x.isNaN = false → (e4m3Code x).toNat / 2 ^ 7 = x.bits.toNat / 2 ^ 31 ∧
        Nearest (fun d => magnitude 3 d * 2 ^ 140) 0x7E (magnitude 23 x.magnitude)
          ((e4m3Code x).toNat % 2 ^ 7) ∧
        ∀ c, e4m3Value c = some (decide (x.bits.toNat / 2 ^ 31 = 1), magnitude 23 x.magnitude) →
          e4m3Code x = c) := by
  obtain ⟨hnan, hnum⟩ := e4m3Code_spec x
  refine ⟨hnan, fun hn => ?_⟩
  obtain ⟨c, hc, hword, hnear⟩ := hnum hn
  obtain ⟨hs, hlow⟩ := split_signed hc hword
  rw [hs, hlow]
  refine ⟨Eq.refl _, hnear, fun d hd => ?_⟩
  rw [e4m3Value_eq] at hd
  split at hd
  next => cases hd
  next hlast =>
    obtain ⟨hsign, hvalue⟩ := Prod.mk.inj (Option.some.inj hd)
    have hdlt := d.isLt
    have hslt := sign_lt x
    have hself : E4m3Of x.magnitude (d.toNat % 2 ^ 7) :=
      nearest_of_eq e4m3_mono (by omega) hvalue
    have heq := Nearest.unique e4m3_mono hnear hself
    rw [decide_eq_decide] at hsign
    apply BitVec.eq_of_toNat_eq
    omega

theorem e2m1_mono : StrictMono fun d => magnitude 1 d * 2 ^ 148 := fun _ _ h =>
  Nat.mul_lt_mul_of_pos_right (magnitude_strictMono 1 h) (Nat.two_pow_pos 148)

theorem above_cases {x : Binary32} (hn : x.isNaN = false) {t e m v : Nat} (ht : t = e * 2 ^ 23 + m)
    (he : 0 < e) (hm : m < 2 ^ 23) (hv : (2 ^ 23 + m) * 2 ^ (e - 1) = v) :
    above x t = 1 ∧ v < magnitude 23 x.magnitude ∨
      above x t = 0 ∧ magnitude 23 x.magnitude ≤ v := by
  have hmono := (magnitude_strictMono 23).lt_iff_lt (a := t) (b := x.magnitude)
  rw [ht, magnitude_normal he hm, hv, ← ht] at hmono
  by_cases hlt : t < x.magnitude
  · exact Or.inl ⟨if_pos ⟨hn, hlt⟩, hmono.mpr hlt⟩
  · exact Or.inr ⟨if_neg fun h => hlt h.2, Nat.le_of_not_lt (mt hmono.mp hlt)⟩

theorem atLeast_cases {x : Binary32} (hn : x.isNaN = false) {t e m v : Nat}
    (ht : t = e * 2 ^ 23 + m) (he : 0 < e) (hm : m < 2 ^ 23)
    (hv : (2 ^ 23 + m) * 2 ^ (e - 1) = v) :
    atLeast x t = 1 ∧ v ≤ magnitude 23 x.magnitude ∨
      atLeast x t = 0 ∧ magnitude 23 x.magnitude < v := by
  have hmono := (magnitude_strictMono 23).le_iff_le (a := t) (b := x.magnitude)
  rw [ht, magnitude_normal he hm, hv, ← ht] at hmono
  by_cases hle : t ≤ x.magnitude
  · exact Or.inl ⟨if_pos ⟨hn, hle⟩, hmono.mpr hle⟩
  · exact Or.inr ⟨if_neg fun h => hle h.2, Nat.lt_of_not_le (mt hmono.mp hle)⟩

/-- Where a float stands among the seven midpoints is which code is nearest. -/
theorem e2m1Count {x : Binary32} (hn : x.isNaN = false) :
    ∃ c ≤ 7, above x 0x3E800000 + atLeast x 0x3F400000 + above x 0x3FA00000 +
        atLeast x 0x3FE00000 + above x 0x40200000 + atLeast x 0x40600000 + above x 0x40A00000 = c ∧
      Nearest (fun d => magnitude 1 d * 2 ^ 148) 7 (magnitude 23 x.magnitude) c := by
  have h1 := above_cases hn (t := 0x3E800000) (e := 125) (m := 0) (v := 1 * 2 ^ 147) (by norm_num)
    (by omega) (by omega) (by norm_num)
  have h3 := atLeast_cases hn (t := 0x3F400000) (e := 126) (m := 2 ^ 22) (v := 3 * 2 ^ 147)
    (by norm_num) (by omega) (by omega) (by norm_num)
  have h5 := above_cases hn (t := 0x3FA00000) (e := 127) (m := 2 ^ 21) (v := 5 * 2 ^ 147)
    (by norm_num) (by omega) (by omega) (by norm_num)
  have h7 := atLeast_cases hn (t := 0x3FE00000) (e := 127) (m := 3 * 2 ^ 21) (v := 7 * 2 ^ 147)
    (by norm_num) (by omega) (by omega) (by norm_num)
  have h10 := above_cases hn (t := 0x40200000) (e := 128) (m := 2 ^ 21) (v := 10 * 2 ^ 147)
    (by norm_num) (by omega) (by omega) (by norm_num)
  have h14 := atLeast_cases hn (t := 0x40600000) (e := 128) (m := 3 * 2 ^ 21) (v := 14 * 2 ^ 147)
    (by norm_num) (by omega) (by omega) (by norm_num)
  have h20 := above_cases hn (t := 0x40A00000) (e := 129) (m := 2 ^ 21) (v := 20 * 2 ^ 147)
    (by norm_num) (by omega) (by omega) (by norm_num)
  generalize above x 0x3E800000 = a1 at h1 ⊢
  generalize atLeast x 0x3F400000 = a3 at h3 ⊢
  generalize above x 0x3FA00000 = a5 at h5 ⊢
  generalize atLeast x 0x3FE00000 = a7 at h7 ⊢
  generalize above x 0x40200000 = a10 at h10 ⊢
  generalize atLeast x 0x40600000 = a14 at h14 ⊢
  generalize above x 0x40A00000 = a20 at h20 ⊢
  generalize magnitude 23 x.magnitude = n at h1 h3 h5 h7 h10 h14 h20 ⊢
  have hregion : ∃ c ≤ 7, a1 + a3 + a5 + a7 + a10 + a14 + a20 = c ∧
      (0 < c → [0, 1, 3, 5, 7, 10, 14, 20].getD c 0 * 2 ^ 147 < n ∨
        [0, 1, 3, 5, 7, 10, 14, 20].getD c 0 * 2 ^ 147 = n ∧ c % 2 = 0) ∧
      (c < 7 → n < [0, 1, 3, 5, 7, 10, 14, 20].getD (c + 1) 0 * 2 ^ 147 ∨
        n = [0, 1, 3, 5, 7, 10, 14, 20].getD (c + 1) 0 * 2 ^ 147 ∧ c % 2 = 0) := by
    rcases h1 with ⟨h1, l1⟩ | ⟨h1, l1⟩
    · rcases h3 with ⟨h3, l3⟩ | ⟨h3, l3⟩
      · rcases h5 with ⟨h5, l5⟩ | ⟨h5, l5⟩
        · rcases h7 with ⟨h7, l7⟩ | ⟨h7, l7⟩
          · rcases h10 with ⟨h10, l10⟩ | ⟨h10, l10⟩
            · rcases h14 with ⟨h14, l14⟩ | ⟨h14, l14⟩
              · rcases h20 with ⟨h20, l20⟩ | ⟨h20, l20⟩
                · exact ⟨7, by omega, by omega, by simp; omega, by simp⟩
                · exact ⟨6, by omega, by omega, by simp; omega, by simp; omega⟩
              · exact ⟨5, by omega, by omega, by simp; omega, by simp; omega⟩
            · exact ⟨4, by omega, by omega, by simp; omega, by simp; omega⟩
          · exact ⟨3, by omega, by omega, by simp; omega, by simp; omega⟩
        · exact ⟨2, by omega, by omega, by simp; omega, by simp; omega⟩
      · exact ⟨1, by omega, by omega, by simp; omega, by simp; omega⟩
    · exact ⟨0, by omega, by omega, by simp, by simp; omega⟩
  obtain ⟨c, hc, hsum, hlo, hhi⟩ := hregion
  have hmids : ∀ c < 7, magnitude 1 c + magnitude 1 (c + 1) =
      [0, 1, 3, 5, 7, 10, 14, 20].getD (c + 1) 0 := by decide
  have hunit : ∀ m, m * 2 ^ 148 = 2 * (m * 2 ^ 147) := fun m => by ring
  refine ⟨c, hc, hsum, nearest_of_neighbors e2m1_mono hc (fun hpos => ?_) fun hlt => ?_⟩
  · have hmid := hmids (c - 1) (by omega)
    rw [Nat.sub_add_cancel hpos] at hmid
    have hlo := hlo hpos
    rw [← Nat.add_mul, hmid]
    rw [hunit]
    generalize [0, 1, 3, 5, 7, 10, 14, 20].getD c 0 * 2 ^ 147 = mid at hlo ⊢
    omega
  · have hmid := hmids c hlt
    have hhi := hhi hlt
    rw [← Nat.add_mul, hmid]
    rw [hunit]
    generalize [0, 1, 3, 5, 7, 10, 14, 20].getD (c + 1) 0 * 2 ^ 147 = mid at hhi ⊢
    omega

theorem e2m1Code_spec (x : Binary32) : ∃ c ≤ 7,
    (e2m1Code x).toNat = x.bits.toNat / 2 ^ 31 * 2 ^ 3 + c ∧
      (x.isNaN = true → c = 0) ∧
      (x.isNaN = false →
        Nearest (fun d => magnitude 1 d * 2 ^ 148) 7 (magnitude 23 x.magnitude) c) := by
  have hsign := sign_lt x
  unfold e2m1Code
  dsimp only
  rw [signBit_eq]
  cases hn : x.isNaN with
  | true =>
    refine ⟨0, by omega, ?_, fun _ => Eq.refl _, fun h => by cases h⟩
    have hzero : ∀ t, above x t = 0 ∧ atLeast x t = 0 := by
      intro t
      simp [above, atLeast, hn]
    simp only [hzero, Nat.add_zero]
    exact toNat_signed (k := 3) (c := 0) hsign (by omega) (Eq.refl _)
  | false =>
    obtain ⟨c, hc, hcount, hnear⟩ := e2m1Count hn
    rw [hcount]
    exact ⟨c, hc, toNat_signed hsign (by omega) (Eq.refl _), fun h => (by cases h), fun _ => hnear⟩

theorem e2m1Value_eq (c : BitVec 4) : e2m1Value c =
    (decide (c.toNat / 2 ^ 3 = 1), magnitude 1 (c.toNat % 2 ^ 3) * 2 ^ 148) := by
  have hs : c.toNat &&& 8 = c.toNat / 2 ^ 3 * 2 ^ 3 := mask_top (k := 3) (by have := c.isLt; omega)
  have hm : c.toNat &&& 7 = c.toNat % 2 ^ 3 := mask_low _ 3
  have htable : ∀ m < 2 ^ 3, e2m1Magnitudes.getD m 0 = magnitude 1 m := by decide
  have hlt := c.isLt
  unfold e2m1Value
  rw [hs, hm, htable _ (Nat.mod_lt _ (by omega))]
  congr 1
  rw [decide_eq_decide]
  omega

/-- E2M1 codes are the nearest to what they hold, with ties to the even code; a code's value is
held exactly and coded back as itself. -/
theorem e2m1_nearest (x : Binary32) :
    (e2m1Code x).toNat / 2 ^ 3 = x.bits.toNat / 2 ^ 31 ∧
      (x.isNaN = true → (e2m1Code x).toNat % 2 ^ 3 = 0) ∧
      (x.isNaN = false →
        Nearest (fun d => magnitude 1 d * 2 ^ 148) 7 (magnitude 23 x.magnitude)
          ((e2m1Code x).toNat % 2 ^ 3) ∧
        ∀ c, e2m1Value c = (decide (x.bits.toNat / 2 ^ 31 = 1), magnitude 23 x.magnitude) →
          e2m1Code x = c) := by
  obtain ⟨c, hc, hword, hnan, hnum⟩ := e2m1Code_spec x
  obtain ⟨hs, hlow⟩ := split_signed (show c < 2 ^ 3 by omega) hword
  rw [hs, hlow]
  refine ⟨Eq.refl _, hnan, fun hn => ⟨hnum hn, fun d hd => ?_⟩⟩
  rw [e2m1Value_eq] at hd
  obtain ⟨hsign, hvalue⟩ := Prod.mk.inj hd
  have hdlt := d.isLt
  have hslt := sign_lt x
  have heq := Nearest.unique e2m1_mono (hnum hn)
    (nearest_of_eq e2m1_mono (c := d.toNat % 2 ^ 3) (by omega) hvalue)
  rw [decide_eq_decide] at hsign
  apply BitVec.eq_of_toNat_eq
  omega

/-- The scales of the two block formats: half an E4M3 value but where that is NaN, and half a
power of two of the exponent byte, held exactly. -/
theorem block_scales (s : BitVec 8) :
    (s.toNat % 2 ^ 7 ≠ 0x7F → nvfp4Scale s * 2 = magnitude 3 (s.toNat % 2 ^ 7) * 2 ^ 140) ∧
      nvfp4Scale 127#8 = 0 ∧
      (mxfp4Scale s).bits.toNat < 0x7f800000 ∧
      magnitude 23 (mxfp4Scale s).magnitude = 2 ^ (s.toNat + 21) := by
  have hlt := s.isLt
  have he : (s.toNat >>> 3) &&& 15 = s.toNat % 2 ^ 7 / 2 ^ 3 := by
    rw [show (15 : Nat) = 2 ^ 4 - 1 from Eq.refl _, mask_low, Nat.shiftRight_eq_div_pow]
    omega
  have hm : s.toNat &&& 7 = s.toNat % 2 ^ 7 % 2 ^ 3 := by
    rw [show (7 : Nat) = 2 ^ 3 - 1 from Eq.refl _, mask_low]
    omega
  have hmlt : s.toNat % 2 ^ 7 % 2 ^ 3 < 2 ^ 3 := Nat.mod_lt _ (by omega)
  have hsplit : s.toNat % 2 ^ 7 = s.toNat % 2 ^ 7 / 2 ^ 3 * 2 ^ 3 + s.toNat % 2 ^ 7 % 2 ^ 3 := by
    omega
  refine ⟨fun hlast => ?_, Eq.refl _, ?_, ?_⟩
  · unfold nvfp4Scale
    dsimp only
    rw [he, hm]
    by_cases hz : s = 0#8 ∨ s = 127#8
    · rw [if_pos hz]
      rcases hz with hz | hz
      · rw [hz]
        simp [magnitude]
      · rw [hz] at hlast
        exact absurd (Eq.refl _) hlast
    · rw [if_neg hz]
      generalize s.toNat % 2 ^ 7 / 2 ^ 3 = e at hsplit ⊢
      generalize s.toNat % 2 ^ 7 % 2 ^ 3 = m at hsplit hmlt ⊢
      rw [hsplit]
      by_cases hez : e = 0
      · have hsmall : e * 2 ^ 3 + m ≤ 2 ^ (3 + 1) := by omega
        have hself : e * 2 ^ 3 + m = m := by omega
        rw [if_neg (by omega), magnitude_eq_self hsmall, hself]
        ring
      · have hpow : e - 1 + 140 = e + 138 + 1 := by omega
        rw [if_pos hez, Nat.mul_assoc, ← Nat.pow_succ, magnitude_normal (by omega) hmlt,
          Nat.mul_assoc, ← Nat.pow_add, hpow, show (8 : Nat) = 2 ^ 3 from Eq.refl _]
  · unfold mxfp4Scale
    rw [BitVec.toNat_ofNat]
    split
    next hone =>
      rcases (by omega : s.toNat = 0 ∨ s.toNat = 1) with h | h
      · rw [h]
        decide
      · rw [h]
        decide
    next hmore =>
      rw [Nat.shiftLeft_eq]
      omega
  · by_cases hone : s.toNat ≤ 1
    · have hbits : (mxfp4Scale s).magnitude = 0x00200000 <<< s.toNat := by
        rcases (by omega : s.toNat = 0 ∨ s.toNat = 1) with h | h
        · simp [mxfp4Scale, Binary32.magnitude, h]
        · simp [mxfp4Scale, Binary32.magnitude, h]
      rw [hbits, Nat.shiftLeft_eq, show (0x00200000 : Nat) = 2 ^ 21 from Eq.refl _, ← Nat.pow_add,
        magnitude_eq_self (Nat.pow_le_pow_right (by omega) (by omega)), Nat.add_comm]
    · have hbits : (mxfp4Scale s).magnitude = (s.toNat - 1) * 2 ^ 23 + 0 := by
        rw [mxfp4Scale, if_neg hone, Binary32.magnitude, BitVec.toNat_ofNat, Nat.shiftLeft_eq]
        omega
      have hpow : 23 + (s.toNat - 1 - 1) = s.toNat + 21 := by omega
      rw [hbits, magnitude_normal (by omega) (by omega), Nat.add_zero, ← Nat.pow_add, hpow]

end ModelFormats

end Llmx
