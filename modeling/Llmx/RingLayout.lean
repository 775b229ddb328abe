import Mathlib.Algebra.Order.Ring.Int
import Mathlib.Data.List.Basic
import Mathlib.Tactic.Common

/-!
Intervals handed out of `[0, size)` round a ring: each behind the newest one,
or from 0 again once that does not fit, and given up oldest first.
An interval is its base and its length.
-/

namespace RingLayout

/-- Intervals laid end to end from `b` to `e`, none empty. -/
def Laid : Nat → List (Nat × Nat) → Nat → Prop
  | b, [], e => b = e
  | b, r :: q, e => r.1 = b ∧ 0 < r.2 ∧ Laid (b + r.2) q e

/-- The rows a list of intervals takes. -/
def total (q : List (Nat × Nat)) : Nat := (q.map Prod.snd).sum

@[simp] theorem total_nil : total [] = 0 := rfl

@[simp] theorem total_cons (r : Nat × Nat) (q : List (Nat × Nat)) :
    total (r :: q) = r.2 + total q := by simp [total]

@[simp] theorem total_append (p q : List (Nat × Nat)) : total (p ++ q) = total p + total q := by
  simp [total]

theorem Laid.total_eq {b e : Nat} {q : List (Nat × Nat)} (h : Laid b q e) : b + total q = e := by
  induction q generalizing b with
  | nil => simpa [Laid] using h
  | cons r q ih =>
    have hh := ih h.2.2
    simp only [total_cons]
    omega

theorem Laid.mem {b e : Nat} {q : List (Nat × Nat)} (h : Laid b q e) :
    ∀ r ∈ q, b ≤ r.1 ∧ r.1 + r.2 ≤ e ∧ 0 < r.2 := by
  induction q generalizing b with
  | nil => simp
  | cons x q ih =>
    intro r hr
    have hl := h.2.2.total_eq
    rcases List.mem_cons.mp hr with rfl | hr
    · obtain ⟨he, hp, _⟩ := h
      exact ⟨by omega, by omega, hp⟩
    · obtain ⟨ha, hb, hc⟩ := ih h.2.2 r hr
      exact ⟨by omega, hb, hc⟩

theorem Laid.ordered {b e : Nat} {q : List (Nat × Nat)} (h : Laid b q e) :
    q.Pairwise (fun x y => x.1 + x.2 ≤ y.1) := by
  induction q generalizing b with
  | nil => exact List.Pairwise.nil
  | cons x q ih =>
    refine List.pairwise_cons.mpr ⟨?_, ih h.2.2⟩
    intro y hy
    have hx := h.1
    have := (h.2.2.mem y hy).1
    omega

theorem Laid.push {b e n : Nat} {q : List (Nat × Nat)} (h : Laid b q e) (hn : 0 < n) :
    Laid b (q ++ [(e, n)]) (e + n) := by
  induction q generalizing b with
  | nil =>
    have he : b = e := h
    exact ⟨he.symm, hn, by simp [Laid, he]⟩
  | cons x q ih => exact ⟨h.1, h.2.1, ih h.2.2⟩

theorem Laid.head {b e : Nat} {q : List (Nat × Nat)} (h : Laid b q e) {r : Nat × Nat}
    (hr : q.head? = some r) : r.1 = b := by
  cases q with
  | nil => simp at hr
  | cons x q =>
    cases Option.some.inj hr
    exact h.1

theorem Laid.last {b e : Nat} {q : List (Nat × Nat)} (h : Laid b q e) {r : Nat × Nat}
    (hr : q.getLast? = some r) : r.1 + r.2 = e := by
  induction q generalizing b with
  | nil => simp at hr
  | cons x q ih =>
    cases q with
    | nil =>
      have hx : x = r := by simpa using hr
      have hb := h.1
      have he : b + x.2 = e := h.2.2
      subst hx
      omega
    | cons y q => exact ih h.2.2 (by simpa using hr)

/-- The intervals held, oldest first: `high` end to end up to a gap at the top,
and behind it, once the ring has turned, `low` from 0 up to where `high` starts.
The gap was too short for the interval that turned it. -/
def Ring (size : Nat) (q : List (Nat × Nat)) : Prop :=
  ∃ high low : List (Nat × Nat), ∃ t e h : Nat,
    q = high ++ low ∧ Laid t high e ∧ Laid 0 low h ∧ e ≤ size ∧
      (low = [] ∨ (high ≠ [] ∧ h ≤ t ∧ ∀ r, low.head? = some r → size < e + r.2))

theorem Ring.nil (size : Nat) : Ring size [] :=
  ⟨[], [], 0, 0, 0, rfl, rfl, rfl, Nat.zero_le _, Or.inl rfl⟩

theorem Ring.tail {size : Nat} {r : Nat × Nat} {q : List (Nat × Nat)} (h : Ring size (r :: q)) :
    Ring size q := by
  obtain ⟨high, low, t, e, hl, eq, laid, laid0, he, turn⟩ := h
  cases high with
  | nil =>
    rcases turn with rfl | ⟨hne, _⟩
    · simp at eq
    · exact absurd rfl hne
  | cons x high =>
    simp only [List.cons_append, List.cons.injEq] at eq
    obtain ⟨rfl, rfl⟩ := eq
    have hte := laid.total_eq
    cases high with
    | nil =>
      -- The last old interval goes, so what was laid from 0 is all there is.
      rcases turn with rfl | ⟨_, hht, _⟩
      · exact Ring.nil size
      · exact ⟨low, [], 0, hl, 0, by simp, laid0, rfl, by omega, Or.inl rfl⟩
    | cons y high =>
      refine ⟨y :: high, low, t + r.2, e, hl, rfl, laid.2.2, laid0, he, ?_⟩
      rcases turn with hn | ⟨_, hht, hgap⟩
      · exact Or.inl hn
      · exact Or.inr ⟨by simp, by omega, hgap⟩

theorem Ring.drop {size : Nat} {q : List (Nat × Nat)} (h : Ring size q) (k : Nat) :
    Ring size (q.drop k) := by
  induction k generalizing q with
  | zero => exact h
  | succ k ih =>
    cases q with
    | nil => simpa using h
    | cons r q => exact ih h.tail

theorem Ring.mem {size : Nat} {q : List (Nat × Nat)} (h : Ring size q) :
    ∀ r ∈ q, 0 < r.2 ∧ r.1 + r.2 ≤ size := by
  obtain ⟨high, low, t, e, hl, rfl, laid, laid0, he, turn⟩ := h
  intro r hr
  rcases List.mem_append.mp hr with hr | hr
  · obtain ⟨_, hb, hp⟩ := laid.mem r hr
    exact ⟨hp, by omega⟩
  · obtain ⟨_, hb, hp⟩ := laid0.mem r hr
    rcases turn with rfl | ⟨_, hht, _⟩
    · simp at hr
    · have := laid.total_eq
      exact ⟨hp, by omega⟩

theorem Ring.disjoint {size : Nat} {q : List (Nat × Nat)} (h : Ring size q) :
    q.Pairwise (fun x y => x.1 + x.2 ≤ y.1 ∨ y.1 + y.2 ≤ x.1) := by
  obtain ⟨high, low, t, e, hl, rfl, laid, laid0, he, turn⟩ := h
  refine List.pairwise_append.mpr ⟨laid.ordered.imp Or.inl, laid0.ordered.imp Or.inl, ?_⟩
  intro x hx y hy
  rcases turn with rfl | ⟨_, hht, _⟩
  · simp at hy
  · have h1 := (laid.mem x hx).1
    have h2 := (laid0.mem y hy).2.1
    right
    omega

/-- Where the next interval of length `n` goes, `size` where none fits. -/
def place (size : Nat) (q : List (Nat × Nat)) (n : Nat) : Nat :=
  match q.head?, q.getLast? with
  | some front, some back =>
    if front.1 < back.1 + back.2 then
      if n ≤ size - (back.1 + back.2) then back.1 + back.2
      else if n ≤ front.1 then 0
      else size
    else if n ≤ front.1 - (back.1 + back.2) then back.1 + back.2
    else size
  | _, _ => if n ≤ size then 0 else size

theorem place_of_laid {size t e n : Nat} {q : List (Nat × Nat)} (h : Laid t q e) (hne : q ≠ []) :
    place size q n =
      if n ≤ size - e then e else if n ≤ t then 0 else size := by
  obtain ⟨f, hf⟩ := Option.isSome_iff_exists.mp (List.isSome_head?.mpr hne)
  obtain ⟨l, hl⟩ := Option.isSome_iff_exists.mp (List.getLast?_isSome.mpr hne)
  have ht := h.head hf
  have he := h.last hl
  have hpos := (h.mem f (List.mem_of_mem_head? hf)).2
  simp only [place, hf, hl, ht, he, if_pos (show t < e by omega)]

theorem place_of_turned {size t e h n : Nat} {high low : List (Nat × Nat)} (laid : Laid t high e)
    (laid0 : Laid 0 low h) (hhigh : high ≠ []) (hlow : low ≠ []) (hht : h ≤ t) :
    place size (high ++ low) n = if n ≤ t - h then h else size := by
  obtain ⟨f, hf⟩ := Option.isSome_iff_exists.mp (List.isSome_head?.mpr hhigh)
  obtain ⟨l, hl⟩ := Option.isSome_iff_exists.mp (List.getLast?_isSome.mpr hlow)
  have ht := laid.head hf
  have hh := laid0.last hl
  have hf' : (high ++ low).head? = some f := by simp [List.head?_append, hf]
  have hl' : (high ++ low).getLast? = some l := by simp [List.getLast?_append, hl]
  simp only [place, hf', hl', ht, hh, if_neg (show ¬t < h by omega)]

/-- An interval put where `place` says keeps the ring. -/
theorem Ring.push {size n : Nat} {q : List (Nat × Nat)} (h : Ring size q) (hn : 0 < n)
    (hp : place size q n ≠ size) : Ring size (q ++ [(place size q n, n)]) := by
  obtain ⟨high, low, t, e, hl, rfl, laid, laid0, he, turn⟩ := h
  have hte := laid.total_eq
  by_cases hlow : low = []
  · subst hlow
    simp only [List.append_nil] at hp ⊢
    by_cases hhigh : high = []
    · subst hhigh
      simp only [place, List.head?_nil, List.nil_append] at hp ⊢
      split at hp
      next hfit =>
        rw [if_pos hfit]
        exact ⟨[(0, n)], [], 0, n, 0, rfl, ⟨rfl, hn, by simp [Laid]⟩, rfl, hfit, Or.inl rfl⟩
      next => exact absurd rfl hp
    · rw [place_of_laid laid hhigh] at hp ⊢
      split at hp
      next htop =>
        rw [if_pos htop]
        exact ⟨high ++ [(e, n)], [], t, e + n, 0, by simp, laid.push hn, rfl, by omega, Or.inl rfl⟩
      next htop =>
        rw [if_neg htop]
        split at hp
        next hlo =>
          rw [if_pos hlo]
          refine ⟨high, [(0, n)], t, e, n, rfl, laid, ⟨rfl, hn, by simp [Laid]⟩, he,
            Or.inr ⟨hhigh, hlo, ?_⟩⟩
          intro r hr
          cases Option.some.inj hr
          omega
        next => exact absurd rfl hp
  · obtain ⟨hhigh, hht, hgap⟩ := turn.resolve_left hlow
    rw [place_of_turned laid laid0 hhigh hlow hht] at hp ⊢
    split at hp
    next hfit =>
      rw [if_pos hfit]
      refine ⟨high, low ++ [(hl, n)], t, e, hl + n, by simp, laid, laid0.push hn, he,
        Or.inr ⟨hhigh, by omega, ?_⟩⟩
      intro r hr
      obtain ⟨f, hf⟩ := Option.isSome_iff_exists.mp (List.isSome_head?.mpr hlow)
      rw [List.head?_append, hf] at hr
      exact hgap r (hf.trans hr)
    next => exact absurd rfl hp

/-- While it and the intervals held take at most half the ring, an interval has a place.
Once the ring has turned, the gap at its top is shorter than the interval that turned it,
so what is lost there is less than what is held. -/
theorem Ring.place_lt {size n : Nat} {q : List (Nat × Nat)} (h : Ring size q) (hn : 0 < n)
    (room : 2 * (n + total q) ≤ size) : place size q n < size := by
  obtain ⟨high, low, t, e, hl, rfl, laid, laid0, he, turn⟩ := h
  have hte := laid.total_eq
  have hh := laid0.total_eq
  simp only [total_append] at room
  by_cases hlow : low = []
  · subst hlow
    simp only [List.append_nil, total_nil] at room ⊢
    by_cases hhigh : high = []
    · subst hhigh
      simp only [place, List.head?_nil, if_pos (show n ≤ size by omega)]
      omega
    · rw [place_of_laid laid hhigh]
      split
      · omega
      · rw [if_pos (by omega)]
        omega
  · obtain ⟨hhigh, hht, hgap⟩ := turn.resolve_left hlow
    obtain ⟨f, hf⟩ := Option.isSome_iff_exists.mp (List.isSome_head?.mpr hlow)
    have hg := hgap f hf
    have hfl : f.2 ≤ total low := by
      cases low with
      | nil => simp at hf
      | cons x low =>
        cases Option.some.inj hf
        simp
    rw [place_of_turned laid laid0 hhigh hlow hht, if_pos (by omega)]
    omega

theorem place_nil_lt {size n : Nat} (hn : 0 < n) (room : n ≤ size) : place size [] n < size := by
  simp only [place, List.head?_nil, if_pos room]
  omega

end RingLayout
