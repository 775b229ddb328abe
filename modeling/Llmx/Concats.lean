import Mathlib.Algebra.BigOperators.Group.List.Basic
import Mathlib.Algebra.Order.Ring.Int

namespace Llmx

namespace Concats

variable {α β : Type} {w : α → Nat}

/-- What the pieces before the `k`th count together. -/
def before (w : α → Nat) (xs : List α) (k : Nat) : Nat := ((xs.take k).map w).sum

@[simp] theorem before_zero (w : α → Nat) (xs : List α) : before w xs 0 = 0 := by
  simp [before]

@[simp] theorem before_cons (w : α → Nat) (x : α) (xs : List α) (k : Nat) :
    before w (x :: xs) (k + 1) = w x + before w xs k := by
  simp [before]

theorem before_succ {xs : List α} {k : Nat} {x : α} (h : xs[k]? = some x) :
    before w xs (k + 1) = before w xs k + w x := by
  induction xs generalizing k with
  | nil => simp at h
  | cons y ys ih =>
    cases k with
    | zero =>
      rw [List.getElem?_cons_zero] at h
      obtain rfl := Option.some.inj h
      simp
    | succ k =>
      rw [List.getElem?_cons_succ] at h
      rw [before_cons, before_cons, ih h]
      omega

theorem before_mono {xs : List α} {j k : Nat} (h : j ≤ k) :
    before w xs j ≤ before w xs k := by
  induction xs generalizing j k with
  | nil => simp [before]
  | cons x xs ih =>
    cases j with
    | zero => simp
    | succ j =>
      obtain ⟨k, rfl⟩ : ∃ k', k = k' + 1 := ⟨k - 1, by omega⟩
      rw [before_cons, before_cons]
      have := ih (j := j) (k := k) (by omega)
      omega

theorem length_flatMap_before {f : α → List β} (hf : ∀ x, (f x).length = w x) (xs : List α) :
    (xs.flatMap f).length = before w xs xs.length := by
  induction xs with
  | nil => simp
  | cons x xs ih =>
    rw [List.flatMap_cons, List.length_append, ih, hf, List.length_cons, before_cons]

/-- The `j`th of the `k`th piece stands after the pieces before. -/
theorem getElem?_flatMap_before {f : α → List β} (hf : ∀ x, (f x).length = w x) {xs : List α}
    {j k : Nat} {x : α} (hx : xs[k]? = some x) (hj : j < w x) :
    (xs.flatMap f)[before w xs k + j]? = (f x)[j]? := by
  induction xs generalizing k with
  | nil => simp at hx
  | cons y ys ih =>
    rw [List.flatMap_cons]
    cases k with
    | zero =>
      rw [List.getElem?_cons_zero] at hx
      obtain rfl := Option.some.inj hx
      rw [before_zero, Nat.zero_add, List.getElem?_append_left (by rw [hf]; exact hj)]
    | succ k =>
      rw [List.getElem?_cons_succ] at hx
      rw [before_cons, Nat.add_assoc, ← hf y, List.getElem?_append_right (by omega),
        Nat.add_sub_cancel_left]
      exact ih hx

/-- What stands anywhere is of some piece. -/
theorem exists_of_getElem?_flatMap {f : α → List β} (hf : ∀ x, (f x).length = w x)
    {xs : List α} {i : Nat} {b : β} (h : (xs.flatMap f)[i]? = some b) :
    ∃ k x j, xs[k]? = some x ∧ j < w x ∧ (f x)[j]? = some b ∧ i = before w xs k + j := by
  induction xs generalizing i with
  | nil => simp at h
  | cons y ys ih =>
    rw [List.flatMap_cons] at h
    rcases Nat.lt_or_ge i (f y).length with hi | hi
    · rw [List.getElem?_append_left hi] at h
      exact ⟨0, y, i, by simp, by rw [← hf]; exact hi, h, by simp⟩
    · rw [List.getElem?_append_right hi] at h
      obtain ⟨k, x, j, hx, hj, hb, hi'⟩ := ih h
      refine ⟨k + 1, x, j, by simpa using hx, hj, hb, ?_⟩
      rw [before_cons, ← hf y]
      omega

end Concats

end Llmx
