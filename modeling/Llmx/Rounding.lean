import Mathlib.Data.Nat.Dist
import Mathlib.Tactic.Ring

/-!
Magnitudes of binary formats by their codes, counted in units of the smallest, and rounding to
the nearest of them, ties to the even code.
-/

namespace FloatCodes

/-- The magnitude of code `u` under `p` bits of mantissa: below `2 ^ p` the code itself, above it
a significand of `p + 1` bits doubled once for each exponent past the first. -/
def magnitude (p u : Nat) : Nat :=
  if u < 2 ^ p then u else (2 ^ p + u % 2 ^ p) * 2 ^ (u / 2 ^ p - 1)

/-- How far the next code's magnitude is. -/
def ulp (p u : Nat) : Nat := 2 ^ (u / 2 ^ p - 1)

theorem ulp_pos (p u : Nat) : 0 < ulp p u := Nat.two_pow_pos _

theorem magnitude_succ (p u : Nat) : magnitude p (u + 1) = magnitude p u + ulp p u := by
  have hp : 0 < 2 ^ p := Nat.two_pow_pos p
  have hdm := Nat.div_add_mod u (2 ^ p)
  have hmod := Nat.mod_lt u hp
  unfold magnitude ulp
  by_cases hlast : u % 2 ^ p + 1 = 2 ^ p
  · have hnext : u + 1 = 2 ^ p * (u / 2 ^ p + 1) := by
      rw [Nat.mul_add]
      omega
    have hdiv : (u + 1) / 2 ^ p = u / 2 ^ p + 1 := by
      rw [hnext, Nat.mul_div_cancel_left _ hp]
    have hrem : (u + 1) % 2 ^ p = 0 := by
      rw [hnext, Nat.mul_mod_right]
    rw [hdiv, hrem, Nat.add_zero, Nat.add_sub_cancel]
    by_cases hu : u < 2 ^ p
    · have hzero := Nat.div_eq_of_lt hu
      have hself := Nat.mod_eq_of_lt hu
      rw [if_pos hu, if_neg (by omega), hzero, pow_zero, Nat.mul_one]
      omega
    · obtain ⟨e, he⟩ : ∃ e, u / 2 ^ p = e + 1 :=
        ⟨u / 2 ^ p - 1, by have := Nat.div_pos (Nat.le_of_not_lt hu) hp; omega⟩
      rw [if_neg hu, if_neg (by omega), he, Nat.add_sub_cancel, pow_succ]
      calc 2 ^ p * (2 ^ e * 2) = (2 ^ p + 2 ^ p) * 2 ^ e := by ring
        _ = (2 ^ p + (u % 2 ^ p + 1)) * 2 ^ e := by rw [hlast]
        _ = (2 ^ p + u % 2 ^ p) * 2 ^ e + 2 ^ e := by ring
  · have hdiv : (u + 1) / 2 ^ p = u / 2 ^ p := by
      apply Nat.div_eq_of_lt_le
      · rw [Nat.mul_comm]
        omega
      · rw [Nat.succ_mul, Nat.mul_comm]
        omega
    have hrem : (u + 1) % 2 ^ p = u % 2 ^ p + 1 := by
      have := Nat.div_add_mod (u + 1) (2 ^ p)
      rw [hdiv] at this
      omega
    rw [hdiv, hrem]
    by_cases hu : u < 2 ^ p
    · have hzero := Nat.div_eq_of_lt hu
      have hself := Nat.mod_eq_of_lt hu
      rw [if_pos hu, if_pos (by omega), hzero]
      simp
    · rw [if_neg hu, if_neg (by omega)]
      ring

theorem magnitude_lt_succ (p u : Nat) : magnitude p u < magnitude p (u + 1) := by
  rw [magnitude_succ]
  exact Nat.lt_add_of_pos_right (ulp_pos p u)

theorem magnitude_strictMono (p : Nat) : StrictMono (magnitude p) :=
  strictMono_nat_of_lt_succ (magnitude_lt_succ p)

/-- Small codes are their magnitudes. -/
theorem magnitude_eq_self {p u : Nat} (h : u ≤ 2 ^ (p + 1)) : magnitude p u = u := by
  induction u with
  | zero => simp [magnitude]
  | succ u ih =>
    rw [magnitude_succ, ih (by omega), ulp]
    have hp : 0 < 2 ^ p := Nat.two_pow_pos p
    have hdiv : u / 2 ^ p < 2 := by
      rw [Nat.div_lt_iff_lt_mul hp]
      rw [pow_succ] at h
      omega
    have hexp : u / 2 ^ p - 1 = 0 := by omega
    rw [hexp, pow_zero]

/-- The magnitude of a code by its exponent, the first or a later one, and its mantissa. -/
theorem magnitude_normal {p e m : Nat} (he : 0 < e) (hm : m < 2 ^ p) :
    magnitude p (e * 2 ^ p + m) = (2 ^ p + m) * 2 ^ (e - 1) := by
  have hp : 0 < 2 ^ p := Nat.two_pow_pos p
  have hdiv : (e * 2 ^ p + m) / 2 ^ p = e := by
    rw [Nat.mul_comm, Nat.mul_add_div hp, Nat.div_eq_of_lt hm, Nat.add_zero]
  have hmod : (e * 2 ^ p + m) % 2 ^ p = m := by
    rw [Nat.mul_comm, Nat.mul_add_mod, Nat.mod_eq_of_lt hm]
  have hge : 1 * 2 ^ p ≤ e * 2 ^ p := Nat.mul_le_mul_right _ he
  rw [magnitude, if_neg (by omega), hdiv, hmod]

/-- The codes of `k` more bits fill the gap after a code evenly. -/
theorem magnitude_fine (p k c : Nat) {d : Nat} (hd : d < 2 ^ k) :
    magnitude (p + k) (c * 2 ^ k + d) = 2 ^ k * magnitude p c + d * ulp p c := by
  have hk : 0 < 2 ^ k := Nat.two_pow_pos k
  have hlow : (c * 2 ^ k + d) / 2 ^ k = c := by
    rw [Nat.mul_comm, Nat.mul_add_div hk, Nat.div_eq_of_lt hd, Nat.add_zero]
  have hdiv : (c * 2 ^ k + d) / 2 ^ (p + k) = c / 2 ^ p := by
    rw [Nat.add_comm p k, pow_add, ← Nat.div_div_eq_div_mul, hlow]
  have hmod : (c * 2 ^ k + d) % 2 ^ (p + k) = c % 2 ^ p * 2 ^ k + d := by
    rw [Nat.add_comm p k, pow_add, Nat.mod_mul, hlow, Nat.mul_comm c, Nat.mul_add_mod,
      Nat.mod_eq_of_lt hd]
    ring
  have hlt : c * 2 ^ k + d < 2 ^ (p + k) ↔ c < 2 ^ p := by
    rw [pow_add, ← Nat.div_lt_iff_lt_mul hk, hlow]
  unfold magnitude ulp
  rw [hdiv, hmod]
  by_cases hc : c < 2 ^ p
  · rw [if_pos hc, if_pos (hlt.mpr hc), Nat.div_eq_of_lt hc]
    simp only [Nat.zero_sub, pow_zero]
    ring
  · rw [if_neg hc, if_neg fun h => hc (hlt.mp h), pow_add]
    ring

/-- Of the codes up to `top` the one whose value is nearest `x`, the even one of two as near. -/
def Nearest (value : Nat → Nat) (top x c : Nat) : Prop :=
  c ≤ top ∧ ∀ d ≤ top, d ≠ c → Nat.dist x (value c) < Nat.dist x (value d) ∨
    Nat.dist x (value c) = Nat.dist x (value d) ∧ c % 2 = 0

variable {value : Nat → Nat} {top x c : Nat}

/-- It is enough to look at the midpoints on either side. -/
theorem nearest_of_neighbors (mono : StrictMono value) (hc : c ≤ top)
    (lo : 0 < c → value (c - 1) + value c < 2 * x ∨
      value (c - 1) + value c = 2 * x ∧ c % 2 = 0)
    (hi : c < top → 2 * x < value c + value (c + 1) ∨
      2 * x = value c + value (c + 1) ∧ c % 2 = 0) : Nearest value top x c := by
  refine ⟨hc, fun d hd hne => ?_⟩
  unfold Nat.dist
  rcases Nat.lt_or_gt_of_ne hne with hlt | hgt
  · have hle : value d ≤ value (c - 1) := mono.monotone (by omega)
    have hstep : value (c - 1) < value c := mono (by omega)
    have hlo := lo (by omega)
    omega
  · have hle : value (c + 1) ≤ value d := mono.monotone (by omega)
    have hstep : value c < value (c + 1) := mono (by omega)
    have hhi := hi (by omega)
    omega

theorem nearest_of_eq (mono : StrictMono value) (hc : c ≤ top) (hx : value c = x) :
    Nearest value top x c := by
  refine nearest_of_neighbors mono hc (fun hpos => Or.inl ?_) fun hlt => Or.inl ?_
  · have : value (c - 1) < value c := mono (by omega)
    omega
  · have : value c < value (c + 1) := mono (by omega)
    omega

/-- A value past the last code's is nearest it. -/
theorem nearest_top (mono : StrictMono value) (hx : value top ≤ x) : Nearest value top x top := by
  refine nearest_of_neighbors mono le_rfl (fun hpos => Or.inl ?_) (fun hlt => by omega)
  have : value (top - 1) < value top := mono (by omega)
  omega

theorem Nearest.unique (mono : StrictMono value) {d : Nat} (hc : Nearest value top x c)
    (hd : Nearest value top x d) : c = d := by
  have hwlog : ∀ a b, Nearest value top x a → Nearest value top x b → ¬ a < b := by
    intro a b ha hb hlt
    have hab := ha.2 b hb.1 (by omega)
    have hba := hb.2 a ha.1 (by omega)
    have hmid := ha.2 (a + 1) (by have := hb.1; omega) (by omega)
    have h1 : value a < value (a + 1) := mono (by omega)
    have h2 : value (a + 1) < value b := mono (by omega)
    unfold Nat.dist at hab hba hmid
    omega
  rcases Nat.lt_trichotomy c d with hlt | heq | hgt
  · exact absurd hlt (hwlog c d hc hd)
  · exact heq
  · exact absurd hgt (hwlog d c hd hc)

/-- The last `k` bits of `v` rounded off, a tie to the even quotient. -/
def roundEven (v k : Nat) : Nat :=
  v / 2 ^ k +
    if 2 ^ (k - 1) < v % 2 ^ k ∨ v % 2 ^ k = 2 ^ (k - 1) ∧ v / 2 ^ k % 2 = 1 then 1 else 0

/-- Where `v` stands among the halves below and above the quotient it rounds to. -/
theorem roundEven_between (v : Nat) {k : Nat} (hk : 0 < k) {c : Nat} (hc : roundEven v k = c) :
    (0 < c → (c - 1) * 2 ^ k + 2 ^ (k - 1) < v ∨
        (c - 1) * 2 ^ k + 2 ^ (k - 1) = v ∧ c % 2 = 0) ∧
      (v < c * 2 ^ k + 2 ^ (k - 1) ∨ v = c * 2 ^ k + 2 ^ (k - 1) ∧ c % 2 = 0) := by
  obtain ⟨j, rfl⟩ : ∃ j, k = j + 1 := ⟨k - 1, by omega⟩
  have hdm := Nat.div_add_mod v (2 ^ (j + 1))
  have hmod := Nat.mod_lt v (Nat.two_pow_pos (j + 1))
  have hhalf : 2 ^ (j + 1) = 2 * 2 ^ j := by ring
  have hpos : 0 < 2 ^ j := Nat.two_pow_pos j
  unfold roundEven at hc
  rw [Nat.add_sub_cancel] at hc ⊢
  generalize v / 2 ^ (j + 1) = q at hc hdm
  generalize v % 2 ^ (j + 1) = r at hc hdm hmod
  rw [Nat.mul_comm] at hdm
  split at hc
  next hup =>
    subst hc
    rw [Nat.add_sub_cancel, Nat.succ_mul]
    omega
  next hdown =>
    rw [Nat.add_zero] at hc
    subst hc
    refine ⟨fun hq => Or.inl ?_, by omega⟩
    have : q * 2 ^ (j + 1) = (q - 1) * 2 ^ (j + 1) + 2 ^ (j + 1) := by
      rw [← Nat.succ_mul]
      congr 1
      omega
    omega

/-- Rounding a code's last bits off rounds its magnitude to the nearest. -/
theorem roundEven_nearest (p v : Nat) {k : Nat} (hk : 0 < k)
    (htop : roundEven v k ≤ top) :
    Nearest (fun c => magnitude p c * 2 ^ k) top (magnitude (p + k) v) (roundEven v k) := by
  have hmono : StrictMono fun c => magnitude p c * 2 ^ k := fun a b h =>
    Nat.mul_lt_mul_of_pos_right (magnitude_strictMono p h) (Nat.two_pow_pos k)
  obtain ⟨hlo, hhi⟩ := roundEven_between v hk (Eq.refl _)
  have hmid : ∀ c, 2 * magnitude (p + k) (c * 2 ^ k + 2 ^ (k - 1)) =
      magnitude p c * 2 ^ k + magnitude p (c + 1) * 2 ^ k := by
    intro c
    obtain ⟨j, rfl⟩ : ∃ j, k = j + 1 := ⟨k - 1, by omega⟩
    rw [Nat.add_sub_cancel, magnitude_fine p (j + 1) c (Nat.pow_lt_pow_right (by omega) (by omega)),
      magnitude_succ]
    ring
  generalize roundEven v k = c at hlo hhi htop
  refine nearest_of_neighbors hmono htop (fun hc => ?_) fun _ => ?_
  · have hpred := hmid (c - 1)
    rw [Nat.sub_add_cancel hc] at hpred
    rw [← hpred]
    rcases hlo hc with hlt | ⟨heq, heven⟩
    · exact Or.inl (Nat.mul_lt_mul_of_pos_left (magnitude_strictMono _ hlt) (by omega))
    · exact Or.inr ⟨by rw [heq], heven⟩
  · rw [← hmid c]
    rcases hhi with hlt | ⟨heq, heven⟩
    · exact Or.inl (Nat.mul_lt_mul_of_pos_left (magnitude_strictMono _ hlt) (by omega))
    · exact Or.inr ⟨by rw [heq], heven⟩

/-- Rounding an integer's last bits off where the codes are their magnitudes. -/
theorem roundEven_nearest_small (p v : Nat) {k : Nat} (hk : 0 < k) (htop : roundEven v k ≤ top)
    (hsmall : roundEven v k < 2 ^ (p + 1)) :
    Nearest (fun c => magnitude p c * 2 ^ k) top v (roundEven v k) := by
  have hmono : StrictMono fun c => magnitude p c * 2 ^ k := fun a b h =>
    Nat.mul_lt_mul_of_pos_right (magnitude_strictMono p h) (Nat.two_pow_pos k)
  obtain ⟨hlo, hhi⟩ := roundEven_between v hk (Eq.refl _)
  have hhalf : 2 ^ k = 2 * 2 ^ (k - 1) := by
    obtain ⟨j, rfl⟩ : ∃ j, k = j + 1 := ⟨k - 1, by omega⟩
    rw [Nat.add_sub_cancel]
    ring
  generalize roundEven v k = c at hlo hhi htop hsmall
  refine nearest_of_neighbors hmono htop (fun hc => ?_) fun _ => ?_
  · rw [magnitude_eq_self (by omega), magnitude_eq_self (by omega)]
    have hpred : c * 2 ^ k = (c - 1) * 2 ^ k + 2 ^ k := by
      rw [← Nat.succ_mul]
      congr 1
      omega
    have := hlo hc
    omega
  · rw [magnitude_eq_self (by omega), magnitude_eq_self (by omega)]
    have hsucc : (c + 1) * 2 ^ k = c * 2 ^ k + 2 ^ k := Nat.succ_mul _ _
    omega

/-- A wider unit moves no nearest. -/
theorem Nearest.scale (h : Nearest value top x c) {m : Nat} (hm : 0 < m) :
    Nearest (fun d => value d * m) top (x * m) c := by
  refine ⟨h.1, fun d hd hne => ?_⟩
  simp only [Nat.dist, ← Nat.sub_mul, ← Nat.add_mul]
  rcases h.2 d hd hne with hlt | ⟨heq, heven⟩
  · exact Or.inl (Nat.mul_lt_mul_of_pos_right hlt hm)
  · refine Or.inr ⟨?_, heven⟩
    unfold Nat.dist at heq
    rw [heq]

end FloatCodes
