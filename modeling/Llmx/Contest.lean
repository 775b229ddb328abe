import Mathlib.Algebra.Order.Ring.Int
import Mathlib.Data.List.Basic
import Mathlib.Data.List.Induction
import Mathlib.Tactic.Common

/-!
How far two lists agree from the start, and a scan for the entrant of the
greatest value in which entrants of one kind win ties and the others lose them.
-/

namespace Contest

universe u

section Agreement

variable {τ : Type u} [DecidableEq τ]

/-- How many entries two lists share from the start. -/
def agree : List τ → List τ → Nat
  | a :: as, b :: bs => if a = b then agree as bs + 1 else 0
  | _, _ => 0

attribute [local simp] agree

theorem agree_le_left (as bs : List τ) : agree as bs ≤ as.length := by
  fun_induction agree as bs with
  | case1 a as bs ih => simpa using ih
  | case2 => exact Nat.zero_le _
  | case3 => exact Nat.zero_le _

theorem agree_comm (as bs : List τ) : agree as bs = agree bs as := by
  fun_induction agree as bs with
  | case1 a as bs ih => rw [agree, if_pos rfl, ih]
  | case2 a as b bs hne => rw [agree, if_neg (Ne.symm hne)]
  | case3 as bs h =>
    cases as with
    | nil => cases bs <;> rfl
    | cons a as =>
      cases bs with
      | nil => rfl
      | cons b bs => exact (h a as b bs rfl rfl).elim

theorem agree_le_right (as bs : List τ) : agree as bs ≤ bs.length :=
  agree_comm as bs ▸ agree_le_left bs as

theorem agree_self (as : List τ) : agree as as = as.length := by
  induction as with
  | nil => rfl
  | cons a as ih => rw [agree, if_pos rfl, ih, List.length_cons]

/-- Two lists share their first `n` entries when they have as many and agree that far. -/
theorem le_agree_iff {as bs : List τ} {n : Nat} (ha : n ≤ as.length) (hb : n ≤ bs.length) :
    n ≤ agree as bs ↔ as.take n = bs.take n := by
  induction as generalizing bs n with
  | nil =>
    obtain rfl : n = 0 := by simpa using ha
    simp
  | cons a as ih =>
    cases bs with
    | nil =>
      obtain rfl : n = 0 := by simpa using hb
      simp
    | cons b bs =>
      cases n with
      | zero => simp
      | succ n =>
        have hrec : n ≤ agree as bs ↔ as.take n = bs.take n :=
          ih (by simpa using ha) (by simpa using hb)
        rw [agree, List.take_succ_cons, List.take_succ_cons, List.cons.injEq]
        by_cases hab : a = b
        · rw [if_pos hab, Nat.add_le_add_iff_right, hrec]
          simp [hab]
        · rw [if_neg hab]
          simp [hab]

/-- A prefix agrees as far as the whole list does and it reaches. -/
theorem agree_of_prefix {as whole bs : List τ} (h : as <+: whole) :
    agree as bs = min as.length (agree whole bs) := by
  obtain ⟨rest, rfl⟩ := h
  induction as generalizing bs with
  | nil => simp [agree]
  | cons a as ih =>
    cases bs with
    | nil => simp [agree]
    | cons b bs =>
      rw [List.cons_append, agree, agree, ih, List.length_cons]
      split <;> omega

end Agreement

section Scan

variable {α : Type u}

/-- The best entrant so far after `x`: of value above the best's, or no lower where `x` wins ties
and has any value. -/
def keep (tie : α → Bool) (value : α → Nat) (best : Option α) (x : α) : Option α :=
  let top := (best.map value).getD 0
  if tie x then (if value x ≠ 0 ∧ top ≤ value x then some x else best)
  else if top < value x then some x else best

/-- The best entrant of a list scanned in order. -/
def scan (tie : α → Bool) (value : α → Nat) (xs : List α) : Option α :=
  xs.foldl (keep tie value) none

/-- `w` stands where it wins a scan: none before it is worth more, or as much unless `w` wins ties,
and none after it is worth more, or as much where that one wins ties. -/
structure Wins (tie : α → Bool) (value : α → Nat) (before : List α) (w : α) (after : List α) :
    Prop where
  worth : 0 < value w
  earlier : ∀ x ∈ before, value x < value w ∨ tie w = true ∧ value x = value w
  later : ∀ x ∈ after, value x < value w ∨ tie x = false ∧ value x = value w

theorem keep_none {tie : α → Bool} {value : α → Nat} {x : α} :
    keep tie value none x = if value x ≠ 0 then some x else none := by
  unfold keep
  dsimp only [Option.map_none, Option.getD_none]
  split <;> split <;> split <;> first | rfl | omega

theorem keep_some {tie : α → Bool} {value : α → Nat} {w x : α} (hw : 0 < value w) :
    keep tie value (some w) x =
      if value w < value x ∨ tie x = true ∧ value x = value w then some x else some w := by
  unfold keep
  dsimp only [Option.map_some, Option.getD_some]
  cases htie : tie x with
  | true =>
    simp only [if_true, true_and]
    split <;> split <;> first | rfl | omega
  | false =>
    simp only [Bool.false_eq_true, if_false, false_and, or_false]

theorem foldl_keep_later {tie : α → Bool} {value : α → Nat} {w : α} {after : List α}
    (hw : 0 < value w)
    (h : ∀ x ∈ after, value x < value w ∨ tie x = false ∧ value x = value w) :
    after.foldl (keep tie value) (some w) = some w := by
  induction after with
  | nil => rfl
  | cons x xs ih =>
    have hx := h x (by simp)
    rw [List.foldl_cons, keep_some hw, if_neg]
    · exact ih fun y hy => h y (List.mem_cons_of_mem _ hy)
    · rcases hx with hx | ⟨htie, heq⟩
      · omega
      · rw [htie]
        simp only [Bool.false_eq_true, false_and, or_false]
        omega

/-- What a scan keeps was in the list. -/
theorem foldl_keep_mem {tie : α → Bool} {value : α → Nat} {xs : List α} {best : Option α} {w : α}
    (h : xs.foldl (keep tie value) best = some w) : best = some w ∨ w ∈ xs := by
  induction xs generalizing best with
  | nil => exact Or.inl h
  | cons x xs ih =>
    rcases ih h with hk | hk
    · have hcase : keep tie value best x = some x ∨ keep tie value best x = best := by
        unfold keep
        dsimp only
        split <;> split <;> simp
      rcases hcase with hc | hc
      · rw [hc] at hk
        obtain rfl := Option.some.inj hk
        exact Or.inr (by simp)
      · exact Or.inl (hc ▸ hk)
    · exact Or.inr (List.mem_cons_of_mem _ hk)

theorem scan_of_wins {tie : α → Bool} {value : α → Nat} {before after : List α} {w : α}
    (h : Wins tie value before w after) : scan tie value (before ++ w :: after) = some w := by
  unfold scan
  rw [List.foldl_append, List.foldl_cons]
  have hkeep : keep tie value (before.foldl (keep tie value) none) w = some w := by
    cases hb : before.foldl (keep tie value) none with
    | none =>
      rw [keep_none, if_pos (Nat.pos_iff_ne_zero.mp h.worth)]
    | some b =>
      have hmem := (foldl_keep_mem hb).resolve_left (by simp)
      unfold keep
      dsimp only [Option.map_some, Option.getD_some]
      have hworth := h.worth
      rcases h.earlier b hmem with hlt | ⟨htie, heq⟩
      · split <;> first | rfl | exact if_pos (by omega)
      · rw [htie, if_pos rfl, if_pos (by omega)]
  rw [hkeep]
  exact foldl_keep_later h.worth h.later

/-- A scan keeps nothing where nothing has any value, and else the entrant that wins it. -/
theorem scan_cases (tie : α → Bool) (value : α → Nat) (xs : List α) :
    (scan tie value xs = none ∧ ∀ x ∈ xs, value x = 0) ∨
      ∃ before w after, xs = before ++ w :: after ∧ Wins tie value before w after := by
  induction xs using List.reverseRecOn with
  | nil => exact Or.inl ⟨rfl, by simp⟩
  | append_singleton xs x ih =>
    rcases ih with ⟨hnone, hzero⟩ | ⟨before, w, after, rfl, hw⟩
    · by_cases hx : value x = 0
      · refine Or.inl ⟨?_, ?_⟩
        · have hs : scan tie value (xs ++ [x]) = keep tie value (scan tie value xs) x := by
            simp [scan]
          rw [hs, hnone, keep_none, if_neg (not_not_intro hx)]
        · intro y hy
          rcases List.mem_append.mp hy with hy | hy
          · exact hzero y hy
          · rwa [List.mem_singleton.mp hy]
      · refine Or.inr ⟨xs, x, [], rfl, Nat.pos_of_ne_zero hx, fun y hy => ?_, by simp⟩
        have := hzero y hy
        omega
    · have hworth := hw.worth
      by_cases hx : value w < value x ∨ tie x = true ∧ value x = value w
      · refine Or.inr ⟨before ++ w :: after, x, [], rfl, by omega, fun y hy => ?_, by simp⟩
        have hle : value y ≤ value w := by
          rcases List.mem_append.mp hy with hy | hy
          · rcases hw.earlier y hy with h | h <;> omega
          · rcases List.mem_cons.mp hy with rfl | hy
            · exact le_rfl
            · rcases hw.later y hy with h | h <;> omega
        rcases hx with hx | ⟨htie, heq⟩
        · exact Or.inl (by omega)
        · rcases Nat.lt_or_ge (value y) (value x) with hlt | hge
          · exact Or.inl hlt
          · exact Or.inr ⟨htie, by omega⟩
      · refine Or.inr ⟨before, w, after ++ [x], by simp, hw.worth, hw.earlier, fun y hy => ?_⟩
        rcases List.mem_append.mp hy with hy | hy
        · exact hw.later y hy
        · obtain rfl := List.mem_singleton.mp hy
          rcases Nat.lt_or_ge (value y) (value w) with hlt | hge
          · exact Or.inl hlt
          · right
            have heq : value y = value w := by omega
            refine ⟨?_, heq⟩
            cases htie : tie y with
            | false => rfl
            | true => exact absurd (Or.inr ⟨htie, heq⟩) hx

/-- Where another measure of the entrants is nowhere greater and the winner's is the same, the same
entrant wins. -/
theorem scan_eq_of_le {tie : α → Bool} {value least : α → Nat} {xs : List α}
    (hle : ∀ x ∈ xs, least x ≤ value x)
    (hsame : ∀ w, scan tie value xs = some w → least w = value w) :
    scan tie least xs = scan tie value xs := by
  rcases scan_cases tie value xs with ⟨hnone, hzero⟩ | ⟨before, w, after, rfl, hw⟩
  · rcases scan_cases tie least xs with ⟨hnone', -⟩ | ⟨before, w, after, rfl, hw⟩
    · rw [hnone, hnone']
    · have h₁ := hw.worth
      have h₂ := hle w (by simp)
      have h₃ := hzero w (by simp)
      omega
  · have hscan := scan_of_wins hw
    have heq := hsame w hscan
    rw [hscan]
    apply scan_of_wins
    refine ⟨by rw [heq]; exact hw.worth, fun x hx => ?_, fun x hx => ?_⟩
    · have h₁ := hle x (by simp [hx])
      rw [heq]
      rcases hw.earlier x hx with h | ⟨htie, h⟩
      · exact Or.inl (by omega)
      · rcases Nat.lt_or_ge (least x) (value w) with hlt | hge
        · exact Or.inl hlt
        · exact Or.inr ⟨htie, by omega⟩
    · have h₁ := hle x (by simp [hx])
      rw [heq]
      rcases hw.later x hx with h | ⟨htie, h⟩
      · exact Or.inl (by omega)
      · rcases Nat.lt_or_ge (least x) (value w) with hlt | hge
        · exact Or.inl hlt
        · exact Or.inr ⟨htie, by omega⟩

end Scan

end Contest
