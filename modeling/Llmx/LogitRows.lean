import Llmx.Runs
import Llmx.RingLayout

namespace Llmx

open Runs RingLayout

/-- A run of logits rows; `back` once it came back before every run taken before it had. -/
structure Run where
  base : Nat
  n : Nat
  back : Bool
deriving DecidableEq, Repr

/-- The logits rows of a context and the runs taken of them, oldest first. -/
structure LogitRows where
  size : Nat
  runs : List Run
deriving DecidableEq, Repr

/-- The first row of a run of `n` rows, or `size` when none fits, and the rows after it. -/
def takeRows (rows : LogitRows) (n : Nat) : Nat × LogitRows :=
  if n = 0 then (0, rows)
  else
    let base :=
      match rows.runs.head?, rows.runs.getLast? with
      | some front, some newest =>
        let tail := front.base
        let head := newest.base + newest.n
        if tail < head then
          if n ≤ rows.size - head then head
          else if n ≤ tail then 0
          else rows.size
        else if n ≤ tail - head then head
        else rows.size
      | _, _ => if n ≤ rows.size then 0 else rows.size
    if base ≠ rows.size then (base, { rows with runs := rows.runs ++ [⟨base, n, false⟩] })
    else (base, rows)

/-- The first run at `base` that is still held comes back. -/
def markBack (base : Nat) : List Run → List Run
  | [] => []
  | r :: runs =>
    if r.base = base ∧ r.back = false then { r with back := true } :: runs
    else r :: markBack base runs

def giveRows (rows : LogitRows) (base n : Nat) : LogitRows :=
  if n = 0 then rows
  else { rows with runs := (markBack base rows.runs).dropWhile Run.back }

def Run.span (r : Run) : Nat × Nat := (r.base, r.n)

def LogitRows.spans (rows : LogitRows) : List (Nat × Nat) := rows.runs.map Run.span

/-- The spans of the runs not given back. -/
def LogitRows.held (rows : LogitRows) : List (Nat × Nat) :=
  (rows.runs.filter (fun r => !r.back)).map Run.span

theorem takeRows_zero (rows : LogitRows) : takeRows rows 0 = (0, rows) := by simp [takeRows]

/-- What `takeRows` computes is the ring's place for the run. -/
theorem takeRows_eq_place {rows : LogitRows} {n : Nat} (hn : 0 < n) :
    takeRows rows n =
      if place rows.size rows.spans n ≠ rows.size then
        (place rows.size rows.spans n,
          { rows with runs := rows.runs ++ [⟨place rows.size rows.spans n, n, false⟩] })
      else (rows.size, rows) := by
  have hp : place rows.size rows.spans n =
      match rows.runs.head?, rows.runs.getLast? with
      | some front, some newest =>
        if front.base < newest.base + newest.n then
          if n ≤ rows.size - (newest.base + newest.n) then newest.base + newest.n
          else if n ≤ front.base then 0
          else rows.size
        else if n ≤ front.base - (newest.base + newest.n) then newest.base + newest.n
        else rows.size
      | _, _ => if n ≤ rows.size then 0 else rows.size := by
    simp only [place, LogitRows.spans, List.head?_map, List.getLast?_map]
    cases rows.runs.head? <;> cases rows.runs.getLast? <;> rfl
  simp only [takeRows, if_neg (show n ≠ 0 by omega), ← hp]
  split
  · rfl
  next h => rw [not_ne_iff.mp h]

@[simp] theorem markBack_spans (base : Nat) (runs : List Run) :
    (markBack base runs).map Run.span = runs.map Run.span := by
  induction runs with
  | nil => rfl
  | cons r runs ih =>
    simp only [markBack]
    split
    · rfl
    · simp [ih]

theorem giveRows_spans {rows : LogitRows} (base n : Nat) (h : Ring rows.size rows.spans) :
    Ring (giveRows rows base n).size (giveRows rows base n).spans := by
  unfold giveRows
  split
  · exact h
  · obtain ⟨k, hk⟩ : ∃ k, (markBack base rows.runs).dropWhile Run.back =
        (markBack base rows.runs).drop k :=
      ⟨_, List.dropWhile_eq_drop_findIdx_not⟩
    simp only [LogitRows.spans, hk, List.map_drop, markBack_spans]
    exact h.drop k

theorem filter_held_dropWhile (runs : List Run) :
    (runs.dropWhile Run.back).filter (fun r => !r.back) = runs.filter (fun r => !r.back) := by
  induction runs with
  | nil => rfl
  | cons r runs ih =>
    cases hb : r.back with
    | true => simp [hb, ih]
    | false => simp [hb]

/-- A run that comes back is the held one at its base: held runs have distinct bases. -/
theorem markBack_held {base n : Nat} {runs : List Run}
    (distinct : (runs.map Run.span).Pairwise (fun x y => x.1 ≠ y.1))
    (hm : (base, n) ∈ (runs.filter (fun r => !r.back)).map Run.span) :
    ((markBack base runs).filter (fun r => !r.back)).map Run.span =
      ((runs.filter (fun r => !r.back)).map Run.span).erase (base, n) := by
  induction runs with
  | nil => simp at hm
  | cons r runs ih =>
    obtain ⟨hr, hrest⟩ := List.pairwise_cons.mp distinct
    have hdiff : ∀ x ∈ runs, r.base ≠ x.base := fun x hx => hr x.span (List.mem_map_of_mem hx)
    cases hb : r.back with
    | true =>
      simp only [List.filter_cons, hb, Bool.not_true, Bool.false_eq_true, ↓reduceIte] at hm ⊢
      simpa [markBack, hb] using ih hrest hm
    | false =>
      simp only [List.filter_cons, hb, Bool.not_false, ↓reduceIte, List.map_cons] at hm ⊢
      by_cases hbase : r.base = base
      · have hspan : r.span = (base, n) := by
          rcases List.mem_cons.mp hm with h | h
          · exact h.symm
          · obtain ⟨x, hx, hxe⟩ := List.mem_map.mp h
            have := hdiff x (List.mem_filter.mp hx).1
            simp only [Run.span, Prod.mk.injEq] at hxe
            omega
        simp [markBack, hb, hbase, hspan]
      · have hspan : r.span ≠ (base, n) := fun h => hbase (congrArg Prod.fst h)
        have hm' := (List.mem_cons.mp hm).resolve_left (Ne.symm hspan)
        simp [markBack, hb, hbase, hspan, ih hrest hm']

/-- Every run taken and given back: the rows, and the runs its passes hold. -/
structure RowsRun where
  rows : LogitRows
  held : List (Nat × Nat)
deriving DecidableEq, Repr

inductive RowsEvent
  | take (n : Nat)
  | give (base n : Nat)
deriving DecidableEq, Repr

/-- Passes take runs, and give back runs they hold, each once, in any order;
a pass without rows gives nothing back. -/
def RowsRun.step (s : RowsRun) : RowsEvent → Option RowsRun
  | .take n =>
    let (base, rows) := takeRows s.rows n
    if n = 0 ∨ base = s.rows.size then some { s with rows := rows }
    else some ⟨rows, (base, n) :: s.held⟩
  | .give base n =>
    if n = 0 then some { s with rows := giveRows s.rows base n }
    else if (base, n) ∈ s.held then some ⟨giveRows s.rows base n, s.held.erase (base, n)⟩
    else none

def rowsMachine (size : Nat) : Machine RowsRun RowsEvent where
  start s := s = ⟨⟨size, []⟩, []⟩
  step := RowsRun.step

structure RowsRun.Inv (size : Nat) (s : RowsRun) : Prop where
  size_eq : s.rows.size = size
  ring : Ring size s.rows.spans
  held_perm : s.held.Perm s.rows.held
  oldest_held : ∀ r, s.rows.runs.head? = some r → r.back = false

theorem ring_bases_distinct {size : Nat} {q : List (Nat × Nat)} (h : Ring size q) :
    q.Pairwise (fun x y => x.1 ≠ y.1) := by
  refine List.Pairwise.imp_of_mem ?_ h.disjoint
  intro x y hx hy hd
  have := (h.mem x hx).1
  have := (h.mem y hy).1
  omega

theorem RowsRun.inv_take {size n : Nat} {s : RowsRun} (h : s.Inv size) (hn : 0 < n)
    (hp : place size s.rows.spans n ≠ size) :
    RowsRun.Inv size ⟨{ s.rows with runs := s.rows.runs ++ [⟨place size s.rows.spans n, n, false⟩] },
      (place size s.rows.spans n, n) :: s.held⟩ := by
  refine ⟨h.size_eq, ?_, ?_, ?_⟩
  · simpa [LogitRows.spans, Run.span] using h.ring.push hn hp
  · simp only [LogitRows.held, List.filter_append, List.map_append]
    exact (h.held_perm.cons _).trans (List.perm_append_singleton _ _).symm
  · intro r hr
    rw [List.head?_append] at hr
    cases hrun : s.rows.runs.head? with
    | none =>
      simp only [hrun, Option.none_or, List.head?_cons, Option.some.injEq] at hr
      rw [← hr]
    | some f =>
      simp only [hrun, Option.some_or, Option.some.injEq] at hr
      exact h.oldest_held r (hrun.trans (congrArg some hr))

theorem RowsRun.inv_give {size base n : Nat} {s : RowsRun} (h : s.Inv size) (hn : n ≠ 0)
    (hm : (base, n) ∈ s.held) :
    RowsRun.Inv size ⟨giveRows s.rows base n, s.held.erase (base, n)⟩ := by
  have hsize := h.size_eq
  have hring : Ring s.rows.size s.rows.spans := by rw [hsize]; exact h.ring
  refine ⟨?_, ?_, ?_, ?_⟩
  · simp [giveRows, hn, hsize]
  · have hg := giveRows_spans base n hring
    have he : (giveRows s.rows base n).size = size := by simp [giveRows, hn, hsize]
    rwa [he] at hg
  · have hmark := markBack_held (ring_bases_distinct hring) (h.held_perm.mem_iff.mp hm)
    simp only [LogitRows.held, giveRows, hn, ↓reduceIte, filter_held_dropWhile, hmark]
    exact h.held_perm.erase _
  · intro r hr
    simp only [giveRows, hn, ↓reduceIte] at hr
    have := List.head?_dropWhile_not Run.back (markBack base s.rows.runs)
    rw [hr] at this
    simpa using this

theorem RowsRun.inv_step {size : Nat} {s t : RowsRun} {e : RowsEvent} (h : s.Inv size)
    (he : s.step e = some t) : t.Inv size := by
  have hsize := h.size_eq
  cases e with
  | take n =>
    by_cases hn : n = 0
    · subst hn
      simp only [step, takeRows_zero, true_or, ↓reduceIte, Option.some.injEq] at he
      exact he ▸ h
    · simp only [step, takeRows_eq_place (Nat.pos_of_ne_zero hn), hn, false_or, hsize] at he
      by_cases hp : place size s.rows.spans n = size
      · simp only [hp, ne_eq, not_true_eq_false, ↓reduceIte, Option.some.injEq] at he
        exact he ▸ h
      · simp only [hp, ne_eq, not_false_eq_true, ↓reduceIte, Option.some.injEq] at he
        rw [← he]
        simpa only [hsize] using inv_take h (Nat.pos_of_ne_zero hn) hp
  | give base n =>
    simp only [step] at he
    split at he
    next hn =>
      cases Option.some.inj he
      subst hn
      simpa [giveRows] using h
    next hn =>
      split at he
      next hm =>
        cases Option.some.inj he
        exact inv_give h hn hm
      next => simp at he

theorem rowsMachine_inv {size : Nat} {s : RowsRun} (h : Reach (rowsMachine size) s) :
    s.Inv size := by
  refine h.invariant (RowsRun.Inv size) ?_ (fun _ _ _ hs he => RowsRun.inv_step hs he)
  rintro s rfl
  exact ⟨rfl, Ring.nil size, List.Perm.refl _, by simp⟩

theorem takeRows_fits_iff {rows : LogitRows} {n : Nat} (hn : 0 < n)
    (hp : place rows.size rows.spans n < rows.size) :
    (takeRows rows n).1 < rows.size ∧
      (takeRows rows n).2.runs = rows.runs ++ [⟨(takeRows rows n).1, n, false⟩] := by
  rw [takeRows_eq_place hn, if_pos (by omega)]
  exact ⟨hp, rfl⟩

/-- The runs in the queue never overlap and lie within the rows, those held are the ones
not given back, and a run has room while half the rows hold it and the queue, or no run is held. -/
theorem logitRows_never_collide_nor_run_out {size : Nat} {s : RowsRun}
    (h : Reach (rowsMachine size) s) :
    s.rows.runs.Pairwise (fun x y => x.base + x.n ≤ y.base ∨ y.base + y.n ≤ x.base) ∧
    (∀ r ∈ s.rows.runs, 0 < r.n ∧ r.base + r.n ≤ size) ∧
    s.held.Perm ((s.rows.runs.filter (fun r => !r.back)).map fun r => (r.base, r.n)) ∧
    (∀ n, 1 ≤ n → n + (s.rows.runs.map Run.n).sum ≤ size / 2 →
      (takeRows s.rows n).1 < size ∧
        (takeRows s.rows n).2.runs = s.rows.runs ++ [⟨(takeRows s.rows n).1, n, false⟩]) ∧
    (∀ n, 1 ≤ n → n ≤ size → s.held = [] →
      (takeRows s.rows n).1 < size ∧
        (takeRows s.rows n).2.runs = s.rows.runs ++ [⟨(takeRows s.rows n).1, n, false⟩]) := by
  have inv := rowsMachine_inv h
  have hsize := inv.size_eq
  refine ⟨List.pairwise_map.mp inv.ring.disjoint, ?_, inv.held_perm, ?_, ?_⟩
  · intro r hr
    exact inv.ring.mem r.span (List.mem_map_of_mem hr)
  · intro n hn room
    have htotal : total s.rows.spans = (s.rows.runs.map Run.n).sum := by
      simp [total, LogitRows.spans, Function.comp_def, Run.span]
    have hp := inv.ring.place_lt (n := n) (by omega) (by omega)
    rw [← hsize] at hp ⊢
    exact takeRows_fits_iff (by omega) hp
  · intro n hn room hnone
    have hruns : s.rows.runs = [] := by
      cases hr : s.rows.runs with
      | nil => rfl
      | cons r runs =>
        -- An oldest run not given back is held.
        have hb := inv.oldest_held r (by simp [hr])
        have hperm := inv.held_perm
        rw [hnone, LogitRows.held, hr] at hperm
        simp [hb] at hperm
    have hp : place size [] n < size := place_nil_lt (by omega) room
    rw [← hsize] at hp ⊢
    exact takeRows_fits_iff (by omega) (by simpa [LogitRows.spans, hruns] using hp)

theorem logitRows_turned_ring :
    (⟨8, [⟨3, 3, false⟩, ⟨0, 3, false⟩]⟩ : LogitRows).runs.Pairwise
      (fun x y => x.base + x.n ≤ y.base ∨ y.base + y.n ≤ x.base) :=
  (logitRows_never_collide_nor_run_out
    (reach_of_play (m := rowsMachine 8) [.take 3, .take 3, .give 0 3, .take 3] rfl rfl)).1

end Llmx
