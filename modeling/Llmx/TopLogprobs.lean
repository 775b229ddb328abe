import Llmx.RankHeap

namespace Llmx

namespace Logprobs

open Sampler (Beats)

/-- An id of a row of logits; the order puts the more likely above. -/
structure RowId (s : Nat → Binary32) where
  id : Nat
deriving DecidableEq, Repr

instance (s : Nat → Binary32) : LinearOrder (RowId s) where
  le a b := Beats s b.id a.id
  le_refl a := Beats.refl s a.id
  le_trans _ _ _ h h' := h'.trans h
  le_antisymm a b h h' := congrArg RowId.mk (h'.antisymm h)
  le_total a b := by
    show Beats s b.id a.id ∨ Beats s a.id b.id
    unfold Beats
    omega
  toDecidableLE a b := inferInstanceAs (Decidable (Beats s b.id a.id))

structure TokenLogprob (φ : Type) where
  id : Nat
  logprob : φ
deriving DecidableEq, Repr

/-- The order the heap is kept under. -/
def before (s : Nat → Binary32) (a b : Nat) : Bool :=
  (s a).larger (s b) || (s a).equals (s b) && decide (a < b)

variable {s : Nat → Binary32} (std : LargestFirst (RowId s))

/-- An id put on the heap, or in place of the least likely where its logit is larger. -/
def consider (k : Nat) (best : List (RowId s)) (v : Nat) : List (RowId s) :=
  if best.length < k then std.pushHeap (best ++ [⟨v % 2 ^ 32⟩])
  else
    match best with
    | [] => []
    | front :: rest =>
      if (s v).larger (s front.id) then
        std.pushHeap ((std.popHeap (front :: rest)).dropLast ++ [⟨v % 2 ^ 32⟩])
      else front :: rest

/-- The row's ids in turn, none where no entry is asked for. -/
def bestIds (n k : Nat) : List (RowId s) :=
  if k = 0 then [] else (List.range n).foldl (consider std k) []

/-- The `k` most likely tokens of a row of `n` logits, `logprob` giving a logit's log-probability. -/
def topLogprobs {φ : Type} (logprob : Binary32 → φ) (n k : Nat) : List (TokenLogprob φ) :=
  (std.sortHeap (bestIds std n (min k n))).map fun a => ⟨a.id, logprob (s a.id)⟩

section Order

variable {a b : Nat}

theorem lt_iff {x y : RowId s} : x < y ↔ Beats s y.id x.id ∧ x.id ≠ y.id := by
  rw [lt_iff_le_and_ne]
  exact and_congr Iff.rfl (not_congr ⟨congrArg RowId.id, congrArg RowId.mk⟩)

/-- The heap's order is the ids' own on a row of numbers. -/
theorem before_iff (hb : (s b).isNaN = false) :
    before s a b = true ↔ (⟨b⟩ : RowId s) < ⟨a⟩ := by
  unfold before
  rw [lt_iff, Bool.or_eq_true, Bool.and_eq_true, Binary32.larger_iff hb, Binary32.equals_iff hb,
    decide_eq_true_iff]
  show _ ↔ Beats s a b ∧ b ≠ a
  constructor
  · intro h
    rcases h with h | ⟨h, hlt⟩
    · exact ⟨.inl h, fun heq => by rw [heq] at h; omega⟩
    · exact ⟨.inr ⟨h.symm, Nat.le_of_lt hlt⟩, Nat.ne_of_gt hlt⟩
  · intro ⟨h, hne⟩
    exact h.imp_right fun h => ⟨h.1.symm, Nat.lt_of_le_of_ne h.2 (Ne.symm hne)⟩

end Order

/-- Of the first `i` ids, `min k i` on a heap and the others, none above the heap's front. -/
structure Kept (k i : Nat) (best : List (RowId s)) : Prop where
  heap : IsHeap best
  length : best.length = min k i
  others : ∃ out, (best ++ out).Perm ((List.range i).map RowId.mk) ∧
    ∀ x ∈ best.head?, ∀ y ∈ out, y ≤ x

theorem range_map_succ (i : Nat) : (List.range (i + 1)).map (RowId.mk (s := s)) =
    (List.range i).map RowId.mk ++ [⟨i⟩] := by
  rw [List.range_succ, List.map_append]
  exact Eq.refl _

variable {std} {k i : Nat} {best : List (RowId s)}

theorem Kept.push (h : Kept k i best) (hi : i < k) :
    Kept k (i + 1) (std.pushHeap (best ++ [⟨i⟩])) := by
  have hlength := h.length
  obtain ⟨out, hperm, -⟩ := h.others
  obtain ⟨hpush, hheap⟩ := std.push best ⟨i⟩ h.heap
  have hall := hperm.length_eq
  rw [List.length_append, List.length_map, List.length_range] at hall
  obtain rfl : out = [] := List.eq_nil_of_length_eq_zero (by omega)
  rw [List.append_nil] at hperm
  refine ⟨hheap, ?_, [], ?_, fun x _ y hy => absurd hy List.not_mem_nil⟩
  · rw [hpush.length_eq, List.length_append, List.length_singleton]
    omega
  · rw [List.append_nil, range_map_succ]
    exact hpush.trans (hperm.append_right _)

theorem Kept.replace {front : RowId s} {rest : List (RowId s)} (h : Kept k i (front :: rest))
    (hfull : k ≤ i) (hbetter : front ≤ ⟨i⟩) :
    Kept k (i + 1) (std.pushHeap ((std.popHeap (front :: rest)).dropLast ++ [⟨i⟩])) := by
  have hlength := h.length
  obtain ⟨out, hperm, hout⟩ := h.others
  obtain ⟨hheap, hnew, hall⟩ := std.replace h.heap hbetter
  refine ⟨hheap, ?_, out ++ [front], ?_, fun x hx y hy => ?_⟩
  · rw [hnew.length_eq, List.length_cons]
    rw [List.length_cons] at hlength
    omega
  · rw [range_map_succ]
    have hswap : (std.pushHeap ((std.popHeap (front :: rest)).dropLast ++ [⟨i⟩]) ++
        (out ++ [front])).Perm (front :: rest ++ out ++ [⟨i⟩]) := by
      refine (hnew.append_right (out ++ [front])).trans ?_
      rw [List.perm_iff_count]
      intro a
      simp only [List.count_append, List.count_cons, List.count_nil]
      omega
    exact hswap.trans (hperm.append_right _)
  · have hx := hall x (List.mem_of_head? hx)
    rcases List.mem_append.mp hy with hy | hy
    · exact (hout front (Eq.refl _) y hy).trans hx
    · rw [List.mem_singleton.mp hy]
      exact hx

/-- An id no better than the least likely kept is left out. -/
theorem Kept.pass {front : RowId s} {rest : List (RowId s)} (h : Kept k i (front :: rest))
    (hfull : k ≤ i) (hworse : ⟨i⟩ ≤ front) : Kept k (i + 1) (front :: rest) := by
  have hlength := h.length
  obtain ⟨out, hperm, hout⟩ := h.others
  refine ⟨h.heap, by omega, out ++ [⟨i⟩], ?_, fun x hx y hy => ?_⟩
  · rw [range_map_succ, ← List.append_assoc]
    exact hperm.append_right _
  · cases hx
    rcases List.mem_append.mp hy with hy | hy
    · exact hout front (Eq.refl _) y hy
    · rw [List.mem_singleton.mp hy]
      exact hworse

theorem Kept.consider (h : Kept k i best) (hk : 0 < k) {n : Nat} (hi : i < n) (hids : n ≤ 2 ^ 32)
    (hnumbers : ∀ j < n, (s j).isNaN = false) : Kept k (i + 1) (consider std k best i) := by
  have hlength := h.length
  have hwrap : i % 2 ^ 32 = i := Nat.mod_eq_of_lt (Nat.lt_of_lt_of_le hi hids)
  unfold Logprobs.consider
  rw [hwrap]
  split
  next hroom => exact h.push (by omega)
  next hfull =>
    cases best with
    | nil =>
      rw [List.length_nil] at hfull
      exact absurd hk hfull
    | cons front rest =>
      obtain ⟨out, hperm, -⟩ := h.others
      obtain ⟨j, hj, hfront⟩ := List.mem_map.mp (hperm.subset List.mem_cons_self)
      have hearlier := List.mem_range.mp hj
      obtain rfl : j = front.id := congrArg RowId.id hfront
      have hnumber := hnumbers front.id (by omega)
      dsimp only
      split
      next hlarger =>
        rw [Binary32.larger_iff hnumber] at hlarger
        exact h.replace (by omega) (.inl hlarger)
      next hsmaller =>
        rw [Binary32.larger_iff hnumber] at hsmaller
        refine h.pass (by omega) ?_
        show Beats s front.id i
        unfold Beats
        omega

theorem kept_ids {n : Nat} (hk : 0 < k) (hids : n ≤ 2 ^ 32)
    (hnumbers : ∀ j < n, (s j).isNaN = false) (hi : i ≤ n) :
    Kept k i ((List.range i).foldl (consider std k) []) := by
  induction i with
  | zero =>
    refine ⟨isHeap_nil, (Nat.min_zero k).symm, [], List.Perm.refl _, fun x hx => ?_⟩
    cases hx
  | succ i ih =>
    rw [List.range_succ, List.foldl_append]
    exact (ih (by omega)).consider hk (by omega) hids hnumbers

/-- The ids of a row, by higher logit and then lower id. -/
def sortedIds (s : Nat → Binary32) (n : Nat) : List Nat :=
  (List.range n).insertionSort (Beats s)

theorem sortedIds_descending (s : Nat → Binary32) (n : Nat) :
    Descending ((sortedIds s n).map (RowId.mk (s := s))) := by
  have total : Std.Total (Beats s) := ⟨fun a b => by unfold Beats; omega⟩
  have trans : IsTrans Nat (Beats s) := ⟨fun _ _ _ => Beats.trans⟩
  unfold Descending
  rw [List.pairwise_map]
  exact List.pairwise_insertionSort _ _

theorem bestIds_sorted {n : Nat} (hids : n ≤ 2 ^ 32) (hnumbers : ∀ j < n, (s j).isNaN = false)
    (hk : k ≤ n) : std.sortHeap (bestIds std n k) = ((sortedIds s n).map RowId.mk).take k := by
  unfold bestIds
  split
  next hzero =>
    rw [hzero, List.take_zero]
    exact List.Perm.eq_nil (std.heap_sort [] isHeap_nil).1
  next hpos =>
    have hkept : Kept k n ((List.range n).foldl (consider std k) []) :=
      kept_ids (Nat.pos_of_ne_zero hpos) hids hnumbers (Nat.le_refl n)
    obtain ⟨out, hperm, hout⟩ := hkept.others
    have hall : ((List.range n).map (RowId.mk (s := s))).Perm ((sortedIds s n).map RowId.mk) :=
      ((List.perm_insertionSort _ _).symm).map _
    rw [std.sortHeap_take (sortedIds_descending s n) hkept.heap (hperm.trans hall) hout,
      hkept.length, Nat.min_eq_left hk]

/-- The entries are the first of the row's ids sorted, as many as are asked for or there are. -/
theorem topLogprobs_first {φ : Type} (std : LargestFirst (RowId s)) (logprob : Binary32 → φ)
    {n : Nat} (hids : n ≤ 2 ^ 32) (hnumbers : ∀ j < n, (s j).isNaN = false) (k : Nat) :
    (topLogprobs std logprob n k).length = min k n ∧
      (topLogprobs std logprob n k).map TokenLogprob.id = (sortedIds s n).take k ∧
      ∀ t ∈ topLogprobs std logprob n k, t.logprob = logprob (s t.id) := by
  have hsorted : std.sortHeap (bestIds std n (min k n)) = _ :=
    bestIds_sorted hids hnumbers (Nat.min_le_right k n)
  have hlength : (sortedIds s n).length = n := by
    unfold sortedIds
    rw [List.length_insertionSort, List.length_range]
  unfold topLogprobs
  rw [hsorted]
  refine ⟨?_, ?_, fun t ht => ?_⟩
  · rw [List.length_map, List.length_take, List.length_map, hlength]
    omega
  · rw [List.map_map, List.map_take, List.map_map, List.take_eq_take_min (i := k), hlength]
    exact congrArg (List.take (min k n)) (List.map_id _)
  · obtain ⟨a, -, rfl⟩ := List.mem_map.mp ht
    exact Eq.refl _

/-- Ties and infinities: ids 1 and 3 are the least negative infinity's equals, 0 and 2 tie above. -/
theorem topLogprobs_first_ties :
    (topLogprobs LargestFirst.plain (s := fun i => if i % 2 = 0 then ⟨0x3F800000#32⟩
        else Binary32.negInf) (fun x => x.bits) 4 3).map TokenLogprob.id = [0, 2, 1] :=
  (topLogprobs_first LargestFirst.plain (fun x => x.bits) (n := 4) (by decide) (by decide) 3).2.1.trans
    (by decide)

end Logprobs

end Llmx
