import Llmx.BitLists
import Mathlib.Data.List.Count

/-!
Canonical codes: the shorter codes first, the codes of one length in the order of their symbols.
-/

namespace Llmx

namespace CanonicalCodes

open BitLists

variable (lengths : List Nat)

/-- How many codes have length `len`; a symbol of length 0 has no code. -/
def perLength (len : Nat) : Nat := if len = 0 then 0 else lengths.count len

def firstCode : Nat → Nat
  | 0 => 0
  | len + 1 => 2 * (firstCode len + perLength lengths len)

/-- How many codes are shorter than `len`. -/
def shorter : Nat → Nat
  | 0 => 0
  | len + 1 => shorter len + perLength lengths len

/-- How many symbols before `s` have a code of its length. -/
def rank (s : Nat) : Nat := (lengths.take s).count (lengths.getD s 0)

def code (s : Nat) : Nat := firstCode lengths (lengths.getD s 0) + rank lengths s

def codeword (s : Nat) : List Bool := highBits (lengths.getD s 0) (code lengths s)

/-- The place of a symbol among those with a code, by length. -/
def slot (s : Nat) : Nat := shorter lengths (lengths.getD s 0) + rank lengths s

/-- What the codes take of `2 ^ most`, a code of length `most` taking one. -/
def shares (most : Nat) : List Nat → Nat
  | [] => 0
  | len :: lengths => (if len = 0 then 0 else 2 ^ (most - len)) + shares most lengths

def NotOversubscribed (most : Nat) : Prop := shares most lengths ≤ 2 ^ most

instance (most : Nat) : Decidable (NotOversubscribed lengths most) :=
  inferInstanceAs (Decidable (_ ≤ _))

variable {lengths}

theorem perLength_pos {len : Nat} (h : 0 < len) : perLength lengths len = lengths.count len :=
  if_neg (by omega)

theorem shares_filter_le (most len : Nat) (lengths : List Nat) :
    shares most (lengths.filter (· ≤ len)) ≤ shares most lengths := by
  induction lengths with
  | nil => exact Nat.le_refl _
  | cons l lengths ih =>
    rw [List.filter_cons]
    split
    next =>
      rw [shares, shares]
      omega
    next =>
      rw [shares]
      omega

theorem shares_filter_zero (most : Nat) (lengths : List Nat) :
    shares most (lengths.filter (· ≤ 0)) = 0 := by
  induction lengths with
  | nil => rfl
  | cons l lengths ih =>
    rw [List.filter_cons]
    split
    next h =>
      have hl : l = 0 := by simpa using h
      rw [shares, ih, if_pos hl]
    next => exact ih

theorem shares_filter_succ (most len : Nat) (lengths : List Nat) :
    shares most (lengths.filter (· ≤ len + 1)) =
      shares most (lengths.filter (· ≤ len)) + lengths.count (len + 1) * 2 ^ (most - (len + 1)) := by
  induction lengths with
  | nil => simp [shares]
  | cons l lengths ih =>
    rw [List.filter_cons, List.filter_cons, List.count_cons]
    rcases Nat.lt_trichotomy l (len + 1) with h | h | h
    · have h1 : decide (l ≤ len + 1) = true := decide_eq_true (by omega)
      have h2 : decide (l ≤ len) = true := decide_eq_true (by omega)
      have h3 : (l == len + 1) = false := beq_eq_false_iff_ne.mpr (by omega)
      simp only [h1, h2, h3, if_true, shares, ih]
      simp only [Bool.false_eq_true, if_false, Nat.add_zero]
      omega
    · subst h
      have h2 : ¬ decide (len + 1 ≤ len) = true := by simp
      rw [if_pos (by simp), if_neg h2, shares, ih, if_neg (by omega), if_pos (by simp)]
      rw [Nat.add_mul, Nat.one_mul]
      omega
    · have h1 : ¬ decide (l ≤ len + 1) = true := by simpa using h
      have h2 : ¬ decide (l ≤ len) = true := by simpa using by omega
      have h3 : ¬ (l == len + 1) = true := by simpa using by omega
      rw [if_neg h1, if_neg h2, if_neg h3, ih]
      simp only [Nat.add_zero]

theorem shares_upTo {most len : Nat} (h : len ≤ most) :
    shares most (lengths.filter (· ≤ len)) =
      (firstCode lengths len + perLength lengths len) * 2 ^ (most - len) := by
  induction len with
  | zero =>
    rw [shares_filter_zero]
    simp [firstCode, perLength]
  | succ len ih =>
    have hpow : 2 ^ (most - len) = 2 * 2 ^ (most - (len + 1)) := by
      rw [show most - len = most - (len + 1) + 1 by omega, Nat.pow_succ']
    have hp : perLength lengths (len + 1) = lengths.count (len + 1) := perLength_pos (by omega)
    rw [shares_filter_succ, ih (by omega), hpow, firstCode, hp]
    ring

theorem firstCode_add_le {most len : Nat} (hn : NotOversubscribed lengths most) (h : len ≤ most) :
    firstCode lengths len + perLength lengths len ≤ 2 ^ len := by
  have hle := Nat.le_trans (shares_filter_le most len lengths) hn
  rw [shares_upTo h] at hle
  have hpow : 2 ^ most = 2 ^ len * 2 ^ (most - len) := by
    rw [← Nat.pow_add]
    congr 1
    omega
  rw [hpow] at hle
  exact Nat.le_of_mul_le_mul_right hle (Nat.two_pow_pos _)

/-- Every shorter code lies below what a longer one begins with. -/
theorem firstCode_grows (lengths : List Nat) (len k : Nat) :
    (firstCode lengths len + perLength lengths len) * 2 ^ (k + 1) ≤
      firstCode lengths (len + k + 1) := by
  induction k with
  | zero =>
    rw [firstCode]
    omega
  | succ k ih =>
    have hpow : 2 ^ (k + 1 + 1) = 2 * 2 ^ (k + 1) := Nat.pow_succ'
    rw [show len + (k + 1) + 1 = len + k + 1 + 1 by omega, firstCode, hpow]
    calc (firstCode lengths len + perLength lengths len) * (2 * 2 ^ (k + 1))
        = 2 * ((firstCode lengths len + perLength lengths len) * 2 ^ (k + 1)) := by ring
      _ ≤ 2 * firstCode lengths (len + k + 1) := Nat.mul_le_mul_left 2 ih
      _ ≤ _ := by omega

theorem count_take_succ {s : Nat} (h : s < lengths.length) (len : Nat) :
    (lengths.take (s + 1)).count len =
      (lengths.take s).count len + if lengths.getD s 0 = len then 1 else 0 := by
  rw [List.take_add_one, List.count_append, List.getD_eq_getElem?_getD,
    List.getElem?_eq_getElem h]
  simp [List.count_singleton]

theorem rank_lt {s : Nat} (h : s < lengths.length) :
    rank lengths s < lengths.count (lengths.getD s 0) := by
  have hle := (List.take_sublist (s + 1) lengths).count_le (lengths.getD s 0)
  rw [count_take_succ h, if_pos rfl] at hle
  unfold rank
  omega

theorem rank_lt_rank {s t : Nat} (hst : s < t) (ht : t < lengths.length)
    (h : lengths.getD s 0 = lengths.getD t 0) : rank lengths s < rank lengths t := by
  have hle := ((List.take_sublist (s + 1) (lengths.take t))).count_le (lengths.getD t 0)
  rw [List.take_take, Nat.min_eq_left hst, count_take_succ (by omega), if_pos h] at hle
  unfold rank
  rw [h]
  omega

theorem shorter_mono {a b : Nat} (h : a ≤ b) : shorter lengths a ≤ shorter lengths b := by
  induction h with
  | refl => exact Nat.le_refl _
  | step _ ih => exact Nat.le_trans ih (Nat.le_add_right _ _)

theorem perLength_cons (l : Nat) (ls : List Nat) (len : Nat) :
    perLength (l :: ls) len = perLength ls len + if 0 < l ∧ l = len then 1 else 0 := by
  unfold perLength
  rw [List.count_cons]
  by_cases hl : len = 0
  · rw [if_pos hl, if_pos hl, if_neg (by omega)]
  · rw [if_neg hl, if_neg hl]
    by_cases he : l = len
    · rw [if_pos (beq_iff_eq.mpr he), if_pos ⟨by omega, he⟩]
    · rw [if_neg (by simpa using he), if_neg fun h => he h.2]

theorem shorter_cons (l : Nat) (ls : List Nat) (len : Nat) :
    shorter (l :: ls) len = shorter ls len + if 0 < l ∧ l < len then 1 else 0 := by
  induction len with
  | zero => rw [shorter, shorter, if_neg (by omega)]
  | succ len ih =>
    rw [shorter, shorter, ih, perLength_cons]
    rcases Nat.lt_trichotomy l len with h | h | h
    · rw [if_neg (by omega : ¬(0 < l ∧ l = len))]
      by_cases h0 : 0 < l
      · rw [if_pos ⟨h0, h⟩, if_pos ⟨h0, by omega⟩]
        omega
      · rw [if_neg fun h => h0 h.1, if_neg fun h => h0 h.1]
        omega
    · rw [if_neg (by omega : ¬(0 < l ∧ l < len))]
      by_cases h0 : 0 < l
      · rw [if_pos ⟨h0, h⟩, if_pos ⟨h0, by omega⟩]
        omega
      · rw [if_neg fun h => h0 h.1, if_neg fun h => h0 h.1]
        omega
    · rw [if_neg (by omega), if_neg (by omega), if_neg (by omega)]
      omega

theorem shorter_le_length (lengths : List Nat) (len : Nat) :
    shorter lengths len ≤ lengths.length := by
  induction lengths with
  | nil =>
    induction len with
    | zero => exact Nat.le_refl _
    | succ len ih => simpa [shorter, perLength] using ih
  | cons l ls ih =>
    rw [shorter_cons, List.length_cons]
    split <;> omega

theorem slot_lt {s : Nat} (h : s < lengths.length) (hs : lengths.getD s 0 ≠ 0) :
    slot lengths s < shorter lengths (lengths.getD s 0 + 1) := by
  have hr := rank_lt h
  unfold slot
  rw [shorter, perLength_pos (by omega)]
  omega

theorem slot_lt_length {s : Nat} (h : s < lengths.length) (hs : lengths.getD s 0 ≠ 0) :
    slot lengths s < lengths.length :=
  Nat.lt_of_lt_of_le (slot_lt h hs) (shorter_le_length lengths _)

theorem slot_ne {s t : Nat} (hst : s < t) (ht : t < lengths.length) (hs0 : lengths.getD s 0 ≠ 0)
    (ht0 : lengths.getD t 0 ≠ 0) : slot lengths s ≠ slot lengths t := by
  have h1 := slot_lt (by omega) hs0
  have h2 := slot_lt ht ht0
  rcases Nat.lt_trichotomy (lengths.getD s 0) (lengths.getD t 0) with h | h | h
  · have hm : shorter lengths (lengths.getD s 0 + 1) ≤ _ := shorter_mono h
    unfold slot at h1 ⊢
    omega
  · have hr := rank_lt_rank hst ht h
    unfold slot
    rw [h]
    omega
  · have hm : shorter lengths (lengths.getD t 0 + 1) ≤ _ := shorter_mono h
    unfold slot at h2 ⊢
    omega

end CanonicalCodes

end Llmx
