import Mathlib.Algebra.Order.Ring.Int
import Mathlib.Order.Lattice
import Mathlib.Order.Basic
import Mathlib.Tactic.Common

/-!
The best way through a row of stages: stage after stage takes a number of
items, in order, and a score grows with what each takes. A table keeps, after
each stage and for each number of items taken, the best score and what the last
stage took.
-/

namespace Layered

universe u v

variable {σ : Type u} {S : Type v} (moves : σ → Nat → List Nat) (step : σ → Nat → Nat → S → S)

/-- Every stage, from `i` items on, takes a number it may take. -/
def Walk : Nat → List (σ × Nat) → Prop
  | _, [] => True
  | i, (a, k) :: w => k ∈ moves a i ∧ Walk (i + k) w

/-- The score after the stages of a walk. -/
def value : S → Nat → List (σ × Nat) → S
  | s, _, [] => s
  | s, i, (a, k) :: w => value (step a i k s) (i + k) w

variable {moves step}

theorem walk_append {i : Nat} {w w' : List (σ × Nat)} :
    Walk moves i (w ++ w') ↔ Walk moves i w ∧ Walk moves (i + (w.map Prod.snd).sum) w' := by
  induction w generalizing i with
  | nil => simp [Walk]
  | cons x w ih => simp [Walk, ih, and_assoc, Nat.add_assoc]

theorem value_append {s : S} {i : Nat} {w w' : List (σ × Nat)} :
    value step s i (w ++ w') = value step (value step s i w) (i + (w.map Prod.snd).sum) w' := by
  induction w generalizing s i with
  | nil => simp [value]
  | cons x w ih => simp [value, ih, Nat.add_assoc]

theorem walk_mem {i : Nat} {w : List (σ × Nat)} (h : Walk moves i w) {x : σ × Nat} (hx : x ∈ w) :
    ∃ j, x.2 ∈ moves x.1 j := by
  induction w generalizing i with
  | nil => cases hx
  | cons y w ih =>
    obtain ⟨hy, h⟩ := h
    rcases List.mem_cons.mp hx with rfl | hx
    · exact ⟨i, hy⟩
    · exact ih h hx

theorem zip_reverse_cons {done : List σ} {ks : List Nat} (h : ks.length = done.length) (a : σ)
    (k : Nat) : (a :: done).reverse.zip (ks ++ [k]) = done.reverse.zip ks ++ [(a, k)] := by
  rw [List.reverse_cons, List.zip_append (by rw [h, List.length_reverse])]
  rfl

theorem snd_zip_sum {done : List σ} {ks : List Nat} (h : ks.length = done.length) :
    ((done.reverse.zip ks).map Prod.snd).sum = ks.sum := by
  rw [List.map_snd_zip (by rw [h, List.length_reverse])]

/-- A walk goes on with one more stage by what it may take. -/
theorem walk_concat {done : List σ} {ks : List Nat} (h : ks.length = done.length) {a : σ}
    {k : Nat} : Walk moves 0 ((a :: done).reverse.zip (ks ++ [k])) ↔
      Walk moves 0 (done.reverse.zip ks) ∧ k ∈ moves a ks.sum := by
  rw [zip_reverse_cons h, walk_append, snd_zip_sum h, Nat.zero_add]
  simp [Walk]

theorem value_concat {done : List σ} {ks : List Nat} (h : ks.length = done.length) {a : σ}
    {k : Nat} {s : S} : value step s 0 ((a :: done).reverse.zip (ks ++ [k])) =
      step a ks.sum k (value step s 0 (done.reverse.zip ks)) := by
  rw [zip_reverse_cons h, value_append, snd_zip_sum h, Nat.zero_add]
  rfl

/-- A cell of the table: a score and what the last stage took for it. -/
abbrev Row (S : Type v) := List (Option (S × Nat))

variable (moves step)

/-- What a stage tries, cell by cell of the row before it. -/
def tries (n : Nat) (a : σ) (row : Row S) : List (Nat × S × Nat) :=
  (List.range n).flatMap fun i =>
    match row[i]? with
    | some (some (s, _)) => (moves a i).map fun k => (i + k, step a i k s, k)
    | _ => []

variable {moves step}

theorem mem_tries {n : Nat} {a : σ} {row : Row S} {c : Nat} {b : S × Nat} :
    (c, b) ∈ tries moves step n a row ↔ ∃ i s k', i < n ∧ row[i]? = some (some (s, k')) ∧
      b.2 ∈ moves a i ∧ c = i + b.2 ∧ b.1 = step a i b.2 s := by
  unfold tries
  rw [List.mem_flatMap]
  constructor
  · rintro ⟨i, hi, h⟩
    split at h
    next s k' hrow =>
      obtain ⟨k, hk, heq⟩ := List.mem_map.mp h
      cases heq
      exact ⟨i, s, k', List.mem_range.mp hi, hrow, hk, rfl, rfl⟩
    next => cases h
  · rintro ⟨i, s, k', hi, hrow, hk, rfl, hb⟩
    refine ⟨i, List.mem_range.mpr hi, ?_⟩
    rw [hrow]
    exact List.mem_map.mpr ⟨b.2, hk, by rw [← hb]⟩

theorem mem_tried {xs : List (Nat × S × Nat)} {c : Nat} {b : S × Nat} :
    b ∈ (xs.filter fun x => x.1 == c).map Prod.snd ↔ (c, b) ∈ xs := by
  simp only [List.mem_map, List.mem_filter, beq_iff_eq]
  constructor
  · rintro ⟨x, ⟨hx, rfl⟩, rfl⟩
    exact hx
  · intro h
    exact ⟨(c, b), ⟨h, rfl⟩, rfl⟩

variable [LinearOrder S]

/-- The better of what a cell holds and what is tried there, the first tried when equal. -/
def lower {α : Type} (cell : Option (S × α)) (x : S × α) : Option (S × α) :=
  if cell.all fun b => x.1 < b.1 then some x else cell

/-- A score tried at a cell. -/
def relax (row : Row S) (x : Nat × S × Nat) : Row S :=
  row.modify x.1 fun cell => lower cell x.2

variable (moves step)

/-- The row after the stages `done`, the last one first, of `n` items. -/
def rowAfter (n : Nat) (s₀ : S) : List σ → Row S
  | [] => some (s₀, 0) :: List.replicate n none
  | a :: done => (tries moves step n a (rowAfter n s₀ done)).foldl relax (List.replicate (n + 1) none)

/-- What each stage took for the best score of `c` items, read back from the last one. -/
def readBack (n : Nat) (s₀ : S) : List σ → Nat → List Nat
  | [], _ => []
  | a :: done, c =>
    let k := (((rowAfter moves step n s₀ (a :: done))[c]?.join).map Prod.snd).getD 0
    readBack n s₀ done (c - k) ++ [k]

variable {moves step}

theorem lower_from {α : Type} {cell : Option (S × α)} {x b : S × α}
    (h : lower cell x = some b) : cell = some b ∨ x = b := by
  unfold lower at h
  split at h
  · exact Or.inr (Option.some.inj h)
  · exact Or.inl h

theorem lower_le {α : Type} {cell : Option (S × α)} {x b : S × α}
    (h : cell = some b ∨ x = b) : ∃ b', lower cell x = some b' ∧ b'.1 ≤ b.1 := by
  unfold lower
  cases cell with
  | none =>
    obtain rfl : x = b := by simpa using h
    exact ⟨x, by simp, le_refl _⟩
  | some a =>
    by_cases hlt : x.1 < a.1
    · refine ⟨x, by simp [hlt], ?_⟩
      rcases h with h | rfl
      · cases h
        exact le_of_lt hlt
      · exact le_refl _
    · refine ⟨a, by simp [hlt], ?_⟩
      rcases h with h | rfl
      · cases h
        exact le_refl _
      · exact le_of_not_gt hlt

/-- A cell ends with what it held or with something tried. -/
theorem foldl_lower_from {α : Type} {xs : List (S × α)} {cell : Option (S × α)} {b : S × α}
    (h : xs.foldl lower cell = some b) : cell = some b ∨ b ∈ xs := by
  induction xs generalizing cell with
  | nil => exact Or.inl h
  | cons x xs ih =>
    rcases ih h with h | h
    · rcases lower_from h with h | rfl
      · exact Or.inl h
      · exact Or.inr List.mem_cons_self
    · exact Or.inr (List.mem_cons_of_mem _ h)

/-- A cell ends with no more than what it held and than anything tried. -/
theorem foldl_lower_le {α : Type} {xs : List (S × α)} {cell : Option (S × α)} {b : S × α}
    (h : cell = some b ∨ b ∈ xs) : ∃ b', xs.foldl lower cell = some b' ∧ b'.1 ≤ b.1 := by
  induction xs generalizing cell b with
  | nil =>
    rcases h with h | h
    · exact ⟨b, h, le_refl _⟩
    · cases h
  | cons x xs ih =>
    rw [List.mem_cons, ← or_assoc, @eq_comm _ b x] at h
    rcases h with h | h
    · obtain ⟨b', hb', hle⟩ := lower_le h
      obtain ⟨b'', hb'', hle'⟩ := ih (Or.inl hb')
      exact ⟨b'', hb'', le_trans hle' hle⟩
    · exact ih (Or.inr h)

/-- Each cell of a row sees only what is tried there. -/
theorem getElem?_foldl_relax (xs : List (Nat × S × Nat)) (row : Row S) (c : Nat) :
    (xs.foldl relax row)[c]? =
      row[c]?.map fun cell => ((xs.filter fun x => x.1 == c).map Prod.snd).foldl lower cell := by
  induction xs generalizing row with
  | nil => simp
  | cons x xs ih =>
    rw [List.foldl_cons, ih, relax, List.getElem?_modify]
    by_cases hx : x.1 = c
    · simp [hx, Function.comp_def]
    · simp [hx]

/-- The cells of a later row, each what is tried there. -/
theorem getElem?_rowAfter_cons {n : Nat} {s₀ : S} {a : σ} {done : List σ} {c : Nat} :
    (rowAfter moves step n s₀ (a :: done))[c]? =
      if c < n + 1 then some
        ((((tries moves step n a (rowAfter moves step n s₀ done)).filter fun x => x.1 == c).map
          Prod.snd).foldl lower none) else none := by
  rw [rowAfter, getElem?_foldl_relax, List.getElem?_replicate]
  split <;> rfl

variable (moves step) in
theorem length_readBack (n : Nat) (s₀ : S) (done : List σ) (c : Nat) :
    (readBack moves step n s₀ done c).length = done.length := by
  induction done generalizing c with
  | nil => rfl
  | cons a done ih => simp [readBack, ih]

/-- A cell's score is that of a walk, the one read back from it. -/
theorem rowAfter_sound {n : Nat} {s₀ : S} {done : List σ} {c : Nat} {s : S} {k : Nat}
    (h : (rowAfter moves step n s₀ done)[c]? = some (some (s, k))) :
    let ks := readBack moves step n s₀ done c
    Walk moves 0 (done.reverse.zip ks) ∧ ks.sum = c ∧
      value step s₀ 0 (done.reverse.zip ks) = s := by
  induction done generalizing c s k with
  | nil =>
    cases c with
    | zero =>
      have hs : s₀ = s := by
        have : (s₀, 0) = (s, k) := by simpa [rowAfter] using h
        exact congrArg Prod.fst this
      exact ⟨trivial, rfl, hs⟩
    | succ c =>
      simp only [rowAfter, List.getElem?_cons_succ, List.getElem?_replicate] at h
      split at h <;> simp at h
  | cons a done ih =>
    have hcell := h
    rw [getElem?_rowAfter_cons, Option.ite_none_right_eq_some, Option.some.injEq] at hcell
    have hmem := mem_tried.mp ((foldl_lower_from hcell.2).resolve_left (by simp))
    obtain ⟨i, s', k', hi, hrow, hk, hc, hs⟩ := mem_tries.mp hmem
    obtain ⟨hwalk, hsum, hval⟩ := ih hrow
    have hlen := length_readBack moves step n s₀ done i
    have hback : readBack moves step n s₀ (a :: done) c =
        readBack moves step n s₀ done i ++ [k] := by
      have hci : c - k = i := by simp only at hc; omega
      simp only [readBack, h, Option.join_some, Option.map_some, Option.getD_some, hci]
    dsimp only
    rw [hback, walk_concat hlen, value_concat hlen, hsum, hval, List.sum_append, hsum]
    exact ⟨⟨hwalk, hk⟩, by simpa using hc.symm, hs.symm⟩

/-- No walk over the stages scores below the cell of what it takes. -/
theorem rowAfter_complete {n : Nat} (s₀ : S) (hpos : ∀ a i k, k ∈ moves a i → 1 ≤ k ∧ i + k ≤ n)
    (hmono : ∀ a i k s s', s ≤ s' → step a i k s ≤ step a i k s') {done : List σ} {ks : List Nat}
    (hlen : ks.length = done.length) (hwalk : Walk moves 0 (done.reverse.zip ks)) :
    ∃ b, (rowAfter moves step n s₀ done)[ks.sum]? = some (some b) ∧
      b.1 ≤ value step s₀ 0 (done.reverse.zip ks) := by
  induction done generalizing ks with
  | nil =>
    obtain rfl : ks = [] := List.eq_nil_of_length_eq_zero hlen
    exact ⟨(s₀, 0), rfl, le_refl _⟩
  | cons a done ih =>
    obtain ⟨ks, k, rfl⟩ : ∃ ks' k, ks = ks' ++ [k] := by
      have hne : ks ≠ [] := by
        rintro rfl
        simp at hlen
      exact ⟨ks.dropLast, ks.getLast hne, (List.dropLast_concat_getLast hne).symm⟩
    have hlen' : ks.length = done.length := by simpa using hlen
    obtain ⟨hwalk, hk⟩ := (walk_concat hlen').mp hwalk
    obtain ⟨b, hb, hle⟩ := ih hlen' hwalk
    obtain ⟨hk₁, hkn⟩ := hpos _ _ _ hk
    have htry : (ks.sum + k, step a ks.sum k b.1, k) ∈
        tries moves step n a (rowAfter moves step n s₀ done) :=
      mem_tries.mpr ⟨ks.sum, b.1, b.2, by omega, hb, hk, rfl, rfl⟩
    obtain ⟨b', hb', hle'⟩ := foldl_lower_le
      (Or.inr (mem_tried.mpr htry) : none = some _ ∨ _)
    have hcell : (ks ++ [k]).sum = ks.sum + k := by simp
    refine ⟨b', by rw [hcell, getElem?_rowAfter_cons, if_pos (by omega), hb'], ?_⟩
    rw [value_concat hlen']
    exact le_trans hle' (hmono _ _ _ _ _ hle)

end Layered
