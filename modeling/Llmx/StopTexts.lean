import Mathlib.Data.List.Infix
import Mathlib.Algebra.Order.Ring.Int

/-!
Where the first of several texts begins in a list, and the ends of the list that may still grow
into one of them.
-/

namespace StopTexts

universe u

variable {α : Type u}

/-- One of the texts, not empty, is at a place. -/
def IsAt (texts : List (List α)) (s : List α) (i : Nat) : Prop :=
  ∃ t ∈ texts, t ≠ [] ∧ t <+: s.drop i

/-- An end that one of the texts begins with and goes on after. -/
def Open (texts : List (List α)) (e : List α) : Prop := ∃ t ∈ texts, e <+: t ∧ e.length < t.length

variable {texts : List (List α)} {s s' : List α} {i : Nat}

theorem isAt_nil : ¬ IsAt texts [] i := by
  intro ⟨t, _, hne, hpre⟩
  rw [List.drop_nil] at hpre
  exact hne (List.prefix_nil.mp hpre)

theorem isAt_succ {c : α} : IsAt texts (c :: s) (i + 1) ↔ IsAt texts s i := Iff.of_eq (Eq.refl _)

theorem IsAt.lt (h : IsAt texts s i) : i < s.length := by
  obtain ⟨t, -, hne, hpre⟩ := h
  have hpos := List.length_pos_iff.mpr hne
  have hlen := hpre.length_le
  rw [List.length_drop] at hlen
  omega

/-- A text in a list is in a longer one. -/
theorem IsAt.append (h : IsAt texts s i) (more : List α) : IsAt texts (s ++ more) i := by
  have hlt := h.lt
  obtain ⟨t, ht, hne, hpre⟩ := h
  refine ⟨t, ht, hne, ?_⟩
  rw [List.drop_append_of_le_length (Nat.le_of_lt hlt)]
  exact hpre.trans (List.prefix_append _ _)

theorem isAt_take {k : Nat} (h : IsAt texts (s.take k) i) : IsAt texts s i := by
  have happend := h.append (s.drop k)
  rw [List.take_append_drop] at happend
  exact happend

theorem isAt_append_left {g : List α} : IsAt texts (g ++ s) (g.length + i) ↔ IsAt texts s i := by
  unfold IsAt
  rw [← List.drop_drop, List.drop_left]

/-- A text in a longer list alone is cut by the end of the shorter one. -/
theorem IsAt.open (h : IsAt texts (s ++ s') i) (hnot : ¬ IsAt texts s i) (hi : i ≤ s.length) :
    Open texts (s.drop i) := by
  obtain ⟨t, ht, hne, hpre⟩ := h
  rw [List.drop_append_of_le_length hi] at hpre
  have hlong : (s.drop i).length < t.length := by
    apply Nat.lt_of_not_le
    intro hle
    exact hnot ⟨t, ht, hne, List.prefix_of_prefix_length_le hpre (List.prefix_append _ _) hle⟩
  exact ⟨t, ht, List.prefix_of_prefix_length_le (List.prefix_append _ _) hpre (Nat.le_of_lt hlong),
    hlong⟩

variable [DecidableEq α]

/-- The first place one of the texts is at. -/
def first (texts : List (List α)) : List α → Option Nat
  | [] => none
  | c :: cs =>
    if texts.any fun t => !t.isEmpty && t.isPrefixOf (c :: cs) then some 0
    else (first texts cs).map (· + 1)

/-- A list up to the first of the texts in it. -/
def upTo (texts : List (List α)) (s : List α) : List α :=
  match first texts s with
  | some i => s.take i
  | none => s

theorem any_iff : (texts.any fun t => !t.isEmpty && t.isPrefixOf s) = true ↔ IsAt texts s 0 := by
  simp [IsAt, List.any_eq_true]

theorem first_none : first texts s = none ↔ ∀ i, ¬ IsAt texts s i := by
  induction s with
  | nil => exact ⟨fun _ _ => isAt_nil, fun _ => Eq.refl _⟩
  | cons c cs ih =>
    rw [first]
    split
    next hany =>
      constructor
      · intro h
        cases h
      · intro h
        exact absurd (any_iff.mp hany) (h 0)
    next hany =>
      rw [Option.map_eq_none_iff, ih]
      constructor
      · intro h i
        cases i with
        | zero => exact fun hat => hany (any_iff.mpr hat)
        | succ i => exact fun hat => h i (isAt_succ.mp hat)
      · intro h i hat
        exact h (i + 1) (isAt_succ.mpr hat)

theorem first_some : first texts s = some i ↔ IsAt texts s i ∧ ∀ j < i, ¬ IsAt texts s j := by
  induction s generalizing i with
  | nil =>
    constructor
    · intro h
      cases h
    · intro h
      exact absurd h.1 isAt_nil
  | cons c cs ih =>
    rw [first]
    split
    next hany =>
      have hzero := any_iff.mp hany
      constructor
      · intro h
        obtain rfl := Option.some.inj h
        exact ⟨hzero, fun j hj => absurd hj (Nat.not_lt_zero j)⟩
      · intro h
        cases i with
        | zero => exact Eq.refl _
        | succ i => exact absurd hzero (h.2 0 (Nat.succ_pos i))
    next hany =>
      have hzero : ¬ IsAt texts (c :: cs) 0 := fun hat => hany (any_iff.mpr hat)
      constructor
      · intro h
        obtain ⟨k, hk, rfl⟩ := Option.map_eq_some_iff.mp h
        obtain ⟨hat, hless⟩ := ih.mp hk
        refine ⟨isAt_succ.mpr hat, fun j hj => ?_⟩
        cases j with
        | zero => exact hzero
        | succ j => exact fun h' => hless j (Nat.lt_of_succ_lt_succ hj) (isAt_succ.mp h')
      · intro h
        cases i with
        | zero => exact absurd h.1 hzero
        | succ i =>
          have hrest : first texts cs = some i :=
            ih.mpr ⟨isAt_succ.mp h.1, fun j hj hat => h.2 (j + 1) (by omega) (isAt_succ.mpr hat)⟩
          rw [hrest]
          exact Eq.refl _

theorem first_congr {texts' : List (List α)} {s' : List α}
    (h : ∀ i, IsAt texts s i ↔ IsAt texts' s' i) : first texts s = first texts' s' := by
  cases hf : first texts' s' with
  | none => exact first_none.mpr fun i hat => first_none.mp hf i ((h i).mp hat)
  | some k =>
    obtain ⟨hat, hless⟩ := first_some.mp hf
    exact first_some.mpr ⟨(h k).mpr hat, fun j hj hat => hless j hj ((h j).mp hat)⟩

/-- A place of one of the texts has a first one not after it. -/
theorem IsAt.first_le (h : IsAt texts s i) : ∃ j ≤ i, first texts s = some j := by
  cases hf : first texts s with
  | none => exact absurd h (first_none.mp hf i)
  | some j => exact ⟨j, Nat.le_of_not_lt fun hlt => (first_some.mp hf).2 i hlt h, Eq.refl _⟩

theorem upTo_some (h : first texts s = some i) : upTo texts s = s.take i := by
  unfold upTo
  rw [h]

theorem upTo_none (h : first texts s = none) : upTo texts s = s := by
  unfold upTo
  rw [h]

/-- No text is left before the first. -/
theorem not_isAt_upTo : ¬ IsAt texts (upTo texts s) i := by
  intro h
  cases hf : first texts s with
  | none =>
    rw [upTo_none hf] at h
    exact first_none.mp hf i h
  | some k =>
    rw [upTo_some hf] at h
    have hlt := h.lt
    rw [List.length_take] at hlt
    exact (first_some.mp hf).2 i (by omega) (isAt_take h)

end StopTexts
