import Mathlib.Algebra.Order.Ring.Int
import Mathlib.Data.List.Basic
import Mathlib.Tactic.Common

/-!
Pieces laid end to end on a line of places, and memories written run by run.
-/

namespace Tiling

universe u v

variable {α : Type u}

/-- The pieces of `xs`, each `size` places from `place`, follow one another from `a` to `b`. -/
def Tiles (place size : α → Nat) : List α → Nat → Nat → Prop
  | [], a, b => a = b
  | x :: xs, a, b => place x = a ∧ Tiles place size xs (a + size x) b

/-- Whether a piece of `size` places from `place` holds place `i`. -/
def holds (place size i : Nat) : Bool := decide (place ≤ i ∧ i < place + size)

theorem holds_iff {place size i : Nat} :
    holds place size i = true ↔ place ≤ i ∧ i < place + size := by
  simp [holds]

/-- How many pieces hold place `i`. -/
def covering (place size : α → Nat) (xs : List α) (i : Nat) : Nat :=
  xs.countP fun x => holds (place x) (size x) i

@[simp]
theorem covering_nil {place size : α → Nat} {i : Nat} : covering place size [] i = 0 := rfl

theorem covering_cons {place size : α → Nat} {x : α} {xs : List α} {i : Nat} :
    covering place size (x :: xs) i =
      (if place x ≤ i ∧ i < place x + size x then 1 else 0) + covering place size xs i := by
  simp [covering, List.countP_cons, holds, Nat.add_comm]

@[simp]
theorem covering_append {place size : α → Nat} {xs ys : List α} {i : Nat} :
    covering place size (xs ++ ys) i = covering place size xs i + covering place size ys i := by
  simp [covering]

theorem Tiles.le {place size : α → Nat} {xs : List α} {a b : Nat}
    (h : Tiles place size xs a b) : a ≤ b := by
  induction xs generalizing a with
  | nil => exact Nat.le_of_eq h
  | cons x xs ih =>
    have := ih h.2
    omega

theorem Tiles.append {place size : α → Nat} {xs ys : List α} {a b c : Nat}
    (h : Tiles place size xs a b) (h' : Tiles place size ys b c) :
    Tiles place size (xs ++ ys) a c := by
  induction xs generalizing a with
  | nil => exact (show a = b from h) ▸ h'
  | cons x xs ih => exact ⟨h.1, ih h.2⟩

/-- Pieces laid end to end hold every place between their ends once, and no other. -/
theorem Tiles.covering {place size : α → Nat} {xs : List α} {a b : Nat}
    (h : Tiles place size xs a b) (i : Nat) :
    covering place size xs i = if a ≤ i ∧ i < b then 1 else 0 := by
  induction xs generalizing a with
  | nil =>
    have : a = b := h
    rw [covering_nil, if_neg (by omega)]
  | cons x xs ih =>
    obtain ⟨hx, hxs⟩ := h
    have hle := hxs.le
    rw [covering_cons, ih hxs, hx]
    split <;> split <;> split <;> omega

theorem covering_pos {place size : α → Nat} {xs : List α} {i : Nat} {x : α} (hx : x ∈ xs)
    (hi : place x ≤ i ∧ i < place x + size x) : 0 < covering place size xs i :=
  List.countP_pos_iff.mpr ⟨x, hx, holds_iff.mpr hi⟩

theorem not_held_of_covering {place size : α → Nat} {xs : List α} {i : Nat}
    (h : covering place size xs i = 0) : ∀ x ∈ xs, ¬(place x ≤ i ∧ i < place x + size x) := by
  intro x hx hi
  have hpos := covering_pos hx hi
  omega

theorem exists_of_covering {place size : α → Nat} {xs : List α} {i : Nat}
    (h : 0 < covering place size xs i) : ∃ x ∈ xs, place x ≤ i ∧ i < place x + size x := by
  obtain ⟨x, hx, hi⟩ := List.countP_pos_iff.mp h
  exact ⟨x, hx, holds_iff.mp hi⟩

/-- Where one piece holds a place, any two that do are the same. -/
theorem eq_of_covering_one {place size : α → Nat} {xs : List α} {i : Nat}
    (h : covering place size xs i = 1) {x y : α} (hx : x ∈ xs) (hy : y ∈ xs)
    (hxi : place x ≤ i ∧ i < place x + size x) (hyi : place y ≤ i ∧ i < place y + size y) :
    x = y := by
  induction xs with
  | nil => cases hx
  | cons z zs ih =>
    rw [covering_cons] at h
    rcases List.mem_cons.mp hx with hxz | hxs
    · rw [← hxz, if_pos hxi] at h
      have hrest : covering place size zs i = 0 := by omega
      rcases List.mem_cons.mp hy with hyz | hys
      · rw [hxz, hyz]
      · exact absurd hyi (not_held_of_covering hrest y hys)
    · have hpos := covering_pos hxs hxi
      rcases List.mem_cons.mp hy with hyz | hys
      · rw [← hyz, if_pos hyi] at h
        omega
      · exact ih (by split at h <;> omega) hxs hys

variable {γ : Type v}

/-- Memory `mem` after `size` places from `place` are given the values of `f`. -/
def put (mem : Nat → γ) (place size : Nat) (f : Nat → γ) : Nat → γ :=
  fun i => if place ≤ i ∧ i < place + size then f i else mem i

/-- Memory `mem` after each piece is written in order. -/
def putAll (place size : α → Nat) (value : α → Nat → γ) (xs : List α) (mem : Nat → γ) : Nat → γ :=
  xs.foldl (fun m x => put m (place x) (size x) (value x)) mem

theorem putAll_eq_of_not_held {place size : α → Nat} {value : α → Nat → γ} {xs : List α}
    {mem : Nat → γ} {i : Nat} (h : ∀ x ∈ xs, ¬(place x ≤ i ∧ i < place x + size x)) :
    putAll place size value xs mem i = mem i := by
  induction xs generalizing mem with
  | nil => rfl
  | cons x xs ih =>
    have hput : put mem (place x) (size x) (value x) i = mem i := if_neg (h x (by simp))
    rw [putAll, List.foldl_cons]
    exact (ih fun y hy => h y (List.mem_cons_of_mem _ hy)).trans hput

/-- A place every piece that holds it gives the same value ends with that value. -/
theorem putAll_eq_of_held {place size : α → Nat} {value : α → Nat → γ} {xs : List α}
    {mem : Nat → γ} {i : Nat} {v : γ}
    (hv : ∀ x ∈ xs, place x ≤ i ∧ i < place x + size x → value x i = v)
    (h : mem i = v ∨ ∃ x ∈ xs, place x ≤ i ∧ i < place x + size x) :
    putAll place size value xs mem i = v := by
  induction xs generalizing mem with
  | nil => exact h.resolve_right (by simp)
  | cons x xs ih =>
    refine ih (fun y hy => hv y (List.mem_cons_of_mem _ hy)) ?_
    by_cases hx : place x ≤ i ∧ i < place x + size x
    · apply Or.inl
      show (if place x ≤ i ∧ i < place x + size x then value x i else mem i) = v
      rw [if_pos hx]
      exact hv x (by simp) hx
    · rcases h with h | ⟨y, hy, hyi⟩
      · apply Or.inl
        show (if place x ≤ i ∧ i < place x + size x then value x i else mem i) = v
        rw [if_neg hx]
        exact h
      · rcases List.mem_cons.mp hy with rfl | hy
        · exact absurd hyi hx
        · exact Or.inr ⟨y, hy, hyi⟩

end Tiling
