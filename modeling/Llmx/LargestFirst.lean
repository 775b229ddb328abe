import Mathlib.Data.List.Sort
import Mathlib.Order.Lattice

/-!
Heaps, selections and sorts that put larger values first, as any implementation of a standard
library may do them.
-/

namespace Llmx

variable {α : Type} [LinearOrder α]

/-- No value is above its parent's place in the order, so the least one stands in front. -/
def IsHeap (l : List α) : Prop :=
  ∀ i (h : i < l.length), 0 < i → l[(i - 1) / 2] ≤ l[i]

def Descending (l : List α) : Prop := l.Pairwise (· ≥ ·)

/-- The algorithms under the order that puts larger values first, and what is promised of them. -/
structure LargestFirst (α : Type) [LinearOrder α] where
  pushHeap : List α → List α
  popHeap : List α → List α
  sortHeap : List α → List α
  nthElement : List α → Nat → List α
  sort : List α → List α
  push : ∀ l x, IsHeap l → (pushHeap (l ++ [x])).Perm (l ++ [x]) ∧ IsHeap (pushHeap (l ++ [x]))
  pop : ∀ x l, IsHeap (x :: l) → ∃ rest, popHeap (x :: l) = rest ++ [x] ∧ rest.Perm l ∧ IsHeap rest
  heap_sort : ∀ l, IsHeap l → (sortHeap l).Perm l ∧ Descending (sortHeap l)
  nth : ∀ l n, n < l.length → (nthElement l n).Perm l ∧
    ∀ a ∈ (nthElement l n).take n, ∀ b ∈ (nthElement l n).drop n, b ≤ a
  full_sort : ∀ l, (sort l).Perm l ∧ Descending (sort l)

theorem IsHeap.front_le {x : α} {l : List α} (h : IsHeap (x :: l)) : ∀ y ∈ x :: l, x ≤ y := by
  have hall : ∀ i (hi : i < (x :: l).length), x ≤ (x :: l)[i] := by
    intro i
    induction i using Nat.strongRecOn with
    | _ i ih =>
      intro hi
      rcases Nat.eq_zero_or_pos i with rfl | hpos
      · exact le_refl x
      · exact le_trans (ih ((i - 1) / 2) (by omega) (by omega)) (h i hi hpos)
  intro y hy
  obtain ⟨i, hi, rfl⟩ := List.getElem_of_mem hy
  exact hall i hi

theorem isHeap_nil : IsHeap ([] : List α) := fun _ h => absurd h (Nat.not_lt_zero _)

theorem isHeap_of_ascending {l : List α} (h : l.Pairwise (· ≤ ·)) : IsHeap l := by
  intro i hi hpos
  exact List.pairwise_iff_getElem.mp h ((i - 1) / 2) i (by omega) hi (by omega)

theorem Descending.eq {l l' : List α} (h : Descending l) (h' : Descending l') (hp : l.Perm l') :
    l = l' :=
  hp.eq_of_pairwise (fun _ _ _ _ hab hba => le_antisymm hba hab) h h'

theorem ascending_insertionSort (l : List α) :
    (l.insertionSort (· ≤ ·)).Pairwise (· ≤ ·) :=
  List.pairwise_insertionSort _ l

theorem descending_insertionSort (l : List α) : Descending (l.insertionSort (· ≥ ·)) :=
  List.pairwise_insertionSort _ l

/-- Where none of the rest is above any of them, some values sorted are the first of all. -/
theorem Descending.eq_take {l a b first : List α} (h : Descending l) (hp : (a ++ b).Perm l)
    (hbest : ∀ x ∈ a, ∀ y ∈ b, y ≤ x) (hfirst : first.Perm a) (hsorted : Descending first) :
    first = l.take a.length := by
  have hrest := List.perm_insertionSort (· ≥ ·) b
  have hall : Descending (first ++ b.insertionSort (· ≥ ·)) := by
    apply List.pairwise_append.mpr
    refine ⟨hsorted, descending_insertionSort b, fun x hx y hy => ?_⟩
    exact hbest x (hfirst.mem_iff.mp hx) y (hrest.mem_iff.mp hy)
  have hwhole := hall.eq h ((hfirst.append hrest).trans hp)
  rw [← hwhole, ← hfirst.length_eq, List.take_left]

theorem Descending.perm_take {l a b : List α} (h : Descending l) (hp : (a ++ b).Perm l)
    (hbest : ∀ x ∈ a, ∀ y ∈ b, y ≤ x) : a.Perm (l.take a.length) := by
  have hsort := List.perm_insertionSort (· ≥ ·) a
  rw [← h.eq_take hp hbest hsort (descending_insertionSort a)]
  exact hsort.symm

namespace LargestFirst

variable (std : LargestFirst α)

/-- A selection puts the first values in front, in some order. -/
theorem nth_take {l r : List α} {n : Nat} (h : Descending l) (hr : r.Perm l)
    (hn : n < r.length) : ((std.nthElement r n).take n).Perm (l.take n) := by
  obtain ⟨hperm, hparted⟩ := std.nth r n hn
  have hlen : ((std.nthElement r n).take n).length = n := by
    rw [List.length_take, hperm.length_eq]
    omega
  have hwhole : ((std.nthElement r n).take n ++ (std.nthElement r n).drop n).Perm l := by
    rw [List.take_append_drop]
    exact hperm.trans hr
  have htake := h.perm_take hwhole hparted
  rw [hlen] at htake
  exact htake

theorem sort_take {l r : List α} {n : Nat} (h : Descending l) (hr : r.Perm (l.take n)) :
    std.sort r = l.take n := by
  obtain ⟨hperm, hsorted⟩ := std.full_sort r
  exact hsorted.eq (h.sublist (List.take_sublist n l)) (hperm.trans hr)

/-- A value no less than the front takes its place on a heap, and what is there is no less. -/
theorem replace {x y : α} {l : List α} (h : IsHeap (x :: l)) (hy : x ≤ y) :
    IsHeap (std.pushHeap ((std.popHeap (x :: l)).dropLast ++ [y])) ∧
      (std.pushHeap ((std.popHeap (x :: l)).dropLast ++ [y])).Perm (y :: l) ∧
      ∀ z ∈ std.pushHeap ((std.popHeap (x :: l)).dropLast ++ [y]), x ≤ z := by
  obtain ⟨rest, hpop, hrest, hheap⟩ := std.pop x l h
  rw [hpop, List.dropLast_concat]
  obtain ⟨hpush, hnew⟩ := std.push rest y hheap
  have hperm := (hpush.trans (List.perm_append_singleton y rest)).trans (hrest.cons y)
  refine ⟨hnew, hperm, fun z hz => ?_⟩
  rcases List.mem_cons.mp (hperm.subset hz) with rfl | hz
  · exact hy
  · exact h.front_le z (List.mem_cons_of_mem _ hz)

/-- A heap sorted is the first of all the values where none of the others is above its front. -/
theorem sortHeap_take {l heap out : List α} (h : Descending l) (hheap : IsHeap heap)
    (hperm : (heap ++ out).Perm l) (hout : ∀ x ∈ heap.head?, ∀ y ∈ out, y ≤ x) :
    std.sortHeap heap = l.take heap.length := by
  obtain ⟨hsorted, hdesc⟩ := std.heap_sort heap hheap
  refine h.eq_take hperm (fun x hx y hy => ?_) hsorted hdesc
  cases heap with
  | nil => exact absurd hx List.not_mem_nil
  | cons f heap => exact (hout f (Eq.refl _) y hy).trans (hheap.front_le x hx)

/-- The plainest implementation: every step sorts. -/
def plain : LargestFirst α where
  pushHeap l := l.insertionSort (· ≤ ·)
  popHeap l := (l.drop 1).insertionSort (· ≤ ·) ++ l.take 1
  sortHeap l := l.insertionSort (· ≥ ·)
  nthElement l _ := l.insertionSort (· ≥ ·)
  sort l := l.insertionSort (· ≥ ·)
  push l x _ := ⟨List.perm_insertionSort _ _, isHeap_of_ascending (ascending_insertionSort _)⟩
  pop x l _ := ⟨l.insertionSort (· ≤ ·), rfl, List.perm_insertionSort _ _,
    isHeap_of_ascending (ascending_insertionSort l)⟩
  heap_sort l _ := ⟨List.perm_insertionSort _ _, descending_insertionSort l⟩
  nth l n _ := by
    refine ⟨List.perm_insertionSort _ _, ?_⟩
    have hsorted := descending_insertionSort l
    unfold Descending at hsorted
    rw [← List.take_append_drop n (l.insertionSort (· ≥ ·))] at hsorted
    exact (List.pairwise_append.mp hsorted).2.2
  full_sort l := ⟨List.perm_insertionSort _ _, descending_insertionSort l⟩

end LargestFirst

end Llmx
