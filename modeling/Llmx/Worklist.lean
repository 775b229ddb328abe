import Mathlib.Algebra.Order.Ring.Int
import Mathlib.Data.List.Basic
import Mathlib.Tactic.Common

/-!
Reachability by a worklist: nodes start at labels and end at labels, and a
node is reached when it starts at the first label or where a reached one ends.
-/

namespace Worklist

universe u v

variable {α : Type u} {δ : Type v} (starts : δ → List α) (ends : α → List δ)

inductive Reached (first : δ) : α → Prop
  | root {i} : i ∈ starts first → Reached first i
  | step {i j e} : Reached first i → e ∈ ends i → j ∈ starts e → Reached first j

/-- Whatever is marked has its labels followed or on the worklist. -/
structure Closing (starts : δ → List α) (ends : α → List δ) (first : δ) (todo : List δ)
    (reached : List α) : Prop where
  root : first ∈ todo ∨ ∀ i ∈ starts first, i ∈ reached
  step : ∀ i ∈ reached, ∀ e ∈ ends i, e ∈ todo ∨ ∀ j ∈ starts e, j ∈ reached

variable {starts ends}

/-- Once every label is followed, all that is reached is marked. -/
theorem Closing.mem {first : δ} {reached : List α} (h : Closing starts ends first [] reached) {i : α}
    (hi : Reached starts ends first i) : i ∈ reached := by
  induction hi with
  | root hi => exact h.root.resolve_left (by simp) _ hi
  | step _ he hj ih => exact (h.step _ ih _ he).resolve_left (by simp) _ hj

variable [DecidableEq α]

variable (starts ends) in
/-- The nodes marked when the labels of the worklist, its newest first, are followed. -/
def mark : Nat → List δ → List α → List α
  | 0, _, reached => reached
  | _ + 1, [], reached => reached
  | fuel + 1, e :: todo, reached =>
    let new := (starts e).filter (· ∉ reached)
    mark fuel ((new.flatMap ends).reverse ++ todo) (reached ++ new)

/-- What is marked is reached. -/
theorem reached_of_mark {first : δ} {fuel : Nat} {todo : List δ} {reached : List α}
    (htodo : ∀ e ∈ todo, e = first ∨ ∃ i, Reached starts ends first i ∧ e ∈ ends i)
    (hreached : ∀ i ∈ reached, Reached starts ends first i) :
    ∀ i ∈ mark starts ends fuel todo reached, Reached starts ends first i := by
  induction fuel generalizing todo reached with
  | zero => exact hreached
  | succ fuel ih =>
    cases todo with
    | nil => exact hreached
    | cons e todo =>
      rw [List.forall_mem_cons] at htodo
      have hnew : ∀ i ∈ (starts e).filter (· ∉ reached), Reached starts ends first i := by
        intro i hi
        have hi := (List.mem_filter.mp hi).1
        obtain rfl | ⟨g, hg, he⟩ := htodo.1
        · exact .root hi
        · exact .step hg he hi
      refine ih (fun x hx => ?_) (fun i hi => ?_)
      · rcases List.mem_append.mp hx with hx | hx
        · obtain ⟨i, hi, hx⟩ := List.mem_flatMap.mp (List.mem_reverse.mp hx)
          exact Or.inr ⟨i, hnew i hi, hx⟩
        · exact htodo.2 x hx
      · rcases List.mem_append.mp hi with hi | hi
        · exact hreached i hi
        · exact hnew i hi

/-- The labels still to come: those of the worklist and of every node not marked. -/
def debt (ends : α → List δ) (all : List α) (todo : List δ) (reached : List α) : Nat :=
  todo.length + ((all.filter (· ∉ reached)).map fun i => (ends i).length).sum

theorem debt_step (ends : α → List δ) (todo : List δ) (reached : List α) {all : List α} {e : δ}
    (hall : all.Nodup)
    (hstarts : (starts e).Nodup) (hsub : ∀ i ∈ starts e, i ∈ all) :
    debt ends all ((((starts e).filter (· ∉ reached)).flatMap ends).reverse ++ todo)
      (reached ++ (starts e).filter (· ∉ reached)) + 1 = debt ends all (e :: todo) reached := by
  generalize hnew : (starts e).filter (· ∉ reached) = new
  have hmem : ∀ i, i ∈ new ↔ i ∈ starts e ∧ i ∉ reached := by
    intro i
    simp [← hnew]
  have hnodup : new.Nodup := hnew ▸ hstarts.filter _
  have hperm : (all.filter (· ∉ reached)).Perm (new ++ all.filter (· ∉ reached ++ new)) := by
    refine (List.perm_ext_iff_of_nodup (hall.filter _) ?_).mpr fun i => ?_
    · rw [List.nodup_append]
      refine ⟨hnodup, hall.filter _, fun i hi j hj => ?_⟩
      rintro rfl
      simp [hi] at hj
    · have := hsub i
      have := hmem i
      simp only [List.mem_append, List.mem_filter, decide_eq_true_eq]
      grind
  have hsum := (hperm.map fun i => (ends i).length).sum_nat
  rw [List.map_append, List.sum_append] at hsum
  simp only [debt, hsum, List.length_append, List.length_reverse, List.length_flatMap,
    List.length_cons]
  omega

theorem Closing.follow {first e : δ} {todo : List δ} {reached : List α}
    (h : Closing starts ends first (e :: todo) reached) :
    Closing starts ends first ((((starts e).filter (· ∉ reached)).flatMap ends).reverse ++ todo)
      (reached ++ (starts e).filter (· ∉ reached)) := by
  have hin : ∀ i ∈ starts e, i ∈ reached ++ (starts e).filter (· ∉ reached) := by
    intro i hi
    by_cases hr : i ∈ reached <;> simp [hi, hr]
  have hkeep : ∀ d, (d ∈ e :: todo ∨ ∀ j ∈ starts d, j ∈ reached) →
      d ∈ (((starts e).filter (· ∉ reached)).flatMap ends).reverse ++ todo ∨
        ∀ j ∈ starts d, j ∈ reached ++ (starts e).filter (· ∉ reached) := by
    rintro d (hd | hd)
    · rcases List.mem_cons.mp hd with rfl | hd
      · exact Or.inr hin
      · exact Or.inl (List.mem_append_right _ hd)
    · exact Or.inr fun j hj => List.mem_append_left _ (hd j hj)
  refine ⟨hkeep first h.root, fun i hi d hd => ?_⟩
  rcases List.mem_append.mp hi with hi | hi
  · exact hkeep d (h.step i hi d hd)
  · exact Or.inl (List.mem_append_left _
      (List.mem_reverse.mpr (List.mem_flatMap.mpr ⟨i, hi, hd⟩)))

/-- With a turn for each label, all that is reached is marked. -/
theorem mark_of_reached {first : δ} {all : List α} (hall : all.Nodup)
    (hstarts : ∀ e, (starts e).Nodup) (hsub : ∀ e, ∀ i ∈ starts e, i ∈ all) {fuel : Nat}
    {todo : List δ} {reached : List α} (hfuel : debt ends all todo reached ≤ fuel)
    (hclosing : Closing starts ends first todo reached) {i : α}
    (hi : Reached starts ends first i) : i ∈ mark starts ends fuel todo reached := by
  induction fuel generalizing todo reached with
  | zero =>
    have hnil : todo = [] := List.eq_nil_of_length_eq_zero (by unfold debt at hfuel; omega)
    subst hnil
    exact hclosing.mem hi
  | succ fuel ih =>
    cases todo with
    | nil => exact hclosing.mem hi
    | cons e todo =>
      have hdebt := debt_step ends todo reached hall (hstarts e) (hsub e)
      exact ih (by omega) hclosing.follow

end Worklist
