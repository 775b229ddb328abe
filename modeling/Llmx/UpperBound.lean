import Mathlib.Tactic.Common

namespace Llmx

/-- The first of `len` places from `first` with `p`, found by halving; `p` holds from some place
on. -/
def upperBound (p : Nat → Bool) (first len : Nat) : Nat :=
  if len = 0 then first
  else if p (first + len / 2) then upperBound p first (len / 2)
  else upperBound p (first + len / 2 + 1) (len - len / 2 - 1)
termination_by len

theorem upperBound_spec {p : Nat → Bool} {first len : Nat}
    (hp : ∀ j k, j ≤ k → k < first + len → p j = true → p k = true) :
    first ≤ upperBound p first len ∧ upperBound p first len ≤ first + len ∧
      (∀ k, first ≤ k → k < upperBound p first len → p k = false) ∧
        ∀ k, upperBound p first len ≤ k → k < first + len → p k = true := by
  induction first, len using upperBound.induct (p := p) with
  | case1 first =>
    rw [upperBound, if_pos rfl]
    exact ⟨by omega, by omega, fun k h1 h2 => by omega, fun k h1 h2 => by omega⟩
  | case2 first len hlen hmid ih =>
    rw [upperBound, if_neg hlen, if_pos hmid]
    obtain ⟨h1, h2, h3, h4⟩ := ih fun j k hjk hk => hp j k hjk (by omega)
    refine ⟨h1, by omega, h3, fun k hk hlt => ?_⟩
    rcases Nat.lt_or_ge k (first + len / 2) with hk' | hk'
    · exact h4 k hk hk'
    · exact hp _ k hk' hlt hmid
  | case3 first len hlen hmid ih =>
    rw [upperBound, if_neg hlen, if_neg hmid]
    obtain ⟨h1, h2, h3, h4⟩ := ih fun j k hjk hk => hp j k hjk (by omega)
    refine ⟨by omega, by omega, fun k hk hlt => ?_, fun k hk hlt => h4 k hk (by omega)⟩
    rcases Nat.lt_or_ge (first + len / 2) k with hk' | hk'
    · exact h3 k (by omega) hlt
    · exact eq_false_of_ne_true fun h => hmid (hp k _ hk' (by omega) h)

end Llmx
