import Mathlib.Algebra.Order.Ring.Int
import Mathlib.Data.Nat.Basic
import Mathlib.Tactic.Common

/-!
A function on an interval of the naturals cut into its maximal constant
stretches, and little-endian numbers of a fixed number of bytes.
-/

namespace Stretches

universe u

variable {κ : Type u}

/-- `ss` cuts `[lo, hi)` where `f` changes: each stretch ends at its first component and has its
second as the value of `f` throughout. -/
inductive Splits (f : Nat → κ) : Nat → Nat → List (Nat × κ) → Prop
  | nil {hi} : Splits f hi hi []
  | cons {lo stop hi c ss} : lo < stop → stop ≤ hi → (∀ r, lo ≤ r → r < stop → f r = c) →
      (stop < hi → f stop ≠ c) → Splits f stop hi ss → Splits f lo hi ((stop, c) :: ss)

theorem Splits.stop_le {f : Nat → κ} {lo hi : Nat} {ss : List (Nat × κ)} (h : Splits f lo hi ss) :
    ∀ s ∈ ss, s.1 ≤ hi := by
  induction h with
  | nil => simp
  | cons _ hle _ _ _ ih =>
    rw [List.forall_mem_cons]
    exact ⟨hle, ih⟩

/-- The value of each stretch is taken at some row. -/
theorem Splits.taken {f : Nat → κ} {lo hi : Nat} {ss : List (Nat × κ)} (h : Splits f lo hi ss) :
    ∀ s ∈ ss, ∃ r, r < hi ∧ f r = s.2 := by
  induction h with
  | nil => simp
  | @cons lo stop hi c ss hlt hle hin _ _ ih =>
    rw [List.forall_mem_cons]
    exact ⟨⟨lo, by omega, hin lo le_rfl hlt⟩, ih⟩

theorem Splits.congr {f g : Nat → κ} {lo hi : Nat} {ss : List (Nat × κ)} (h : Splits f lo hi ss)
    (hfg : ∀ r, lo ≤ r → r < hi → f r = g r) : Splits g lo hi ss := by
  induction h with
  | nil => exact .nil
  | cons hlt hle hin hout _ ih =>
    refine .cons hlt hle (fun r hlo hhi => ?_) (fun hs => ?_) (ih fun r hlo hhi => ?_)
    · rw [← hfg r hlo (by omega), hin r hlo hhi]
    · rw [← hfg _ (by omega) hs]
      exact hout hs
    · exact hfg r (by omega) hhi

/-- A function is cut in one way only. -/
theorem Splits.unique {f : Nat → κ} {lo hi : Nat} {ss ss' : List (Nat × κ)}
    (h : Splits f lo hi ss) (h' : Splits f lo hi ss') : ss = ss' := by
  induction h generalizing ss' with
  | nil =>
    cases h' with
    | nil => rfl
    | cons hlt hle => omega
  | @cons lo stop hi c ss hlt hle hin hout _ ih =>
    cases h' with
    | nil => omega
    | @cons _ stop' _ c' ss' hlt' hle' hin' hout' hs' =>
      have hc : c = c' := by rw [← hin lo le_rfl hlt, hin' lo le_rfl hlt']
      subst hc
      have hstop : stop = stop' := by
        by_contra hne
        rcases Nat.lt_or_gt_of_ne hne with hlt'' | hgt
        · exact hout (by omega) (hin' stop (by omega) hlt'')
        · exact hout' (by omega) (hin stop' (by omega) hgt)
      subst hstop
      rw [ih hs']

/-- The cut determines the function. -/
theorem Splits.determines {f g : Nat → κ} {lo hi : Nat} {ss : List (Nat × κ)}
    (h : Splits f lo hi ss) (h' : Splits g lo hi ss) : ∀ r, lo ≤ r → r < hi → f r = g r := by
  induction h with
  | nil => omega
  | @cons lo stop hi c ss hlt hle hin hout _ ih =>
    cases h' with
    | cons _ _ hin' _ hs' =>
      intro r hlo hhi
      rcases Nat.lt_or_ge r stop with hr | hr
      · rw [hin r hlo hr, hin' r hlo hr]
      · exact ih hs' r hr hhi

theorem Splits.eq_iff {f g : Nat → κ} {lo hi : Nat} {ss ss' : List (Nat × κ)}
    (h : Splits f lo hi ss) (h' : Splits g lo hi ss') :
    ss = ss' ↔ ∀ r, lo ≤ r → r < hi → f r = g r := by
  constructor
  · rintro rfl
    exact h.determines h'
  · intro hfg
    exact (h.congr hfg).unique h'

/-- The low `n` bytes of a number, lowest first. -/
def leBytes : Nat → Nat → List UInt8
  | 0, _ => []
  | n + 1, v => UInt8.ofNat (v % 256) :: leBytes n (v / 256)

@[simp] theorem length_leBytes (n v : Nat) : (leBytes n v).length = n := by
  induction n generalizing v with
  | zero => rfl
  | succ n ih => simp [leBytes, ih]

theorem leBytes_inj {n v w : Nat} (hv : v < 256 ^ n) (hw : w < 256 ^ n)
    (h : leBytes n v = leBytes n w) : v = w := by
  induction n generalizing v w with
  | zero => omega
  | succ n ih =>
    simp only [leBytes, List.cons.injEq] at h
    have hmod : v % 256 = w % 256 := by
      have := congrArg UInt8.toNat h.1
      simpa using this
    have hdiv : v / 256 = w / 256 := by
      refine ih ?_ ?_ h.2 <;> omega
    omega

/-- Numbers of one width, read back off the front. -/
theorem leBytes_append_inj {n v w : Nat} {x y : List UInt8} (hv : v < 256 ^ n) (hw : w < 256 ^ n)
    (h : leBytes n v ++ x = leBytes n w ++ y) : v = w ∧ x = y := by
  obtain ⟨h1, h2⟩ := List.append_inj h (by simp)
  exact ⟨leBytes_inj hv hw h1, h2⟩

theorem flatMap_append_inj {α β : Type*} {f : α → List β} {n : Nat}
    (hlen : ∀ a, (f a).length = n) (hinj : ∀ a b, f a = f b → a = b) {l l' : List α}
    {x y : List β} (hl : l.length = l'.length) (h : l.flatMap f ++ x = l'.flatMap f ++ y) :
    l = l' ∧ x = y := by
  induction l generalizing l' with
  | nil =>
    cases l' with
    | nil => exact ⟨rfl, by simpa using h⟩
    | cons _ _ => simp at hl
  | cons a l ih =>
    cases l' with
    | nil => simp at hl
    | cons b l' =>
      simp only [List.flatMap_cons, List.append_assoc] at h
      obtain ⟨h1, h2⟩ := List.append_inj h (by rw [hlen, hlen])
      obtain ⟨h3, h4⟩ := ih (by simpa using hl) h2
      exact ⟨by rw [hinj _ _ h1, h3], h4⟩

end Stretches
