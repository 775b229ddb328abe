import Mathlib.Tactic.Common

/-!
Regular expressions whose alternatives are ordered, matched by backtracking: the ways to match are
listed as they are tried, the greedy ones longest first, and the first is the match.
-/

namespace Llmx

namespace OrderedRegex

variable {α : Type}

inductive Regex (α : Type)
  | one (p : α → Bool)
  | many (p : α → Bool)
  | upTo (n : Nat) (p : α → Bool)
  | seq (r t : Regex α)
  | either (r t : Regex α)
  | notAhead (p : α → Bool)

def starts (p : α → Bool) (s : List α) : Bool := s.head?.any p

def manyEnds (p : α → Bool) : List α → List Nat
  | [] => [0]
  | c :: s => if p c then (manyEnds p s).map (· + 1) ++ [0] else [0]

def upToEnds (p : α → Bool) : Nat → List α → List Nat
  | 0, _ => [0]
  | _ + 1, [] => [0]
  | n + 1, c :: s => if p c then (upToEnds p n s).map (· + 1) ++ [0] else [0]

/-- How much of a text each way to match takes, in the order they are tried. -/
def ends : Regex α → List α → List Nat
  | .one p, s => if starts p s then [1] else []
  | .many p, s => manyEnds p s
  | .upTo n p, s => upToEnds p n s
  | .seq r t, s => (ends r s).flatMap fun k => (ends t (s.drop k)).map (k + ·)
  | .either r t, s => ends r s ++ ends t s
  | .notAhead p, s => if starts p s then [] else [0]

def first (r : Regex α) (s : List α) : Option Nat := (ends r s).head?

def plus (p : α → Bool) : Regex α := .seq (.one p) (.many p)

def maybe (p : α → Bool) : Regex α := .upTo 1 p

/-- One character of each kind in turn. -/
def literal : List (α → Bool) → Regex α
  | [] => .upTo 0 fun _ => false
  | p :: ps => .seq (.one p) (literal ps)

def eitherOf : List (Regex α) → Regex α
  | [] => .one fun _ => false
  | r :: rs => .either r (eitherOf rs)

def fitsEach : List (α → Bool) → List α → Bool
  | [], _ => true
  | _ :: _, [] => false
  | p :: ps, c :: s => p c && fitsEach ps s

/-- Whether every match takes a character. -/
def eats : Regex α → Bool
  | .one _ => true
  | .many _ => false
  | .upTo _ _ => false
  | .seq r t => eats r || eats t
  | .either r t => eats r && eats t
  | .notAhead _ => false

def run (p : α → Bool) (s : List α) : Nat := (s.takeWhile p).length

/-- The length up to the last that has `p`, 0 where none has. -/
def upToLast (p : α → Bool) : List α → Nat
  | [] => 0
  | c :: s => if upToLast p s ≠ 0 then upToLast p s + 1 else if p c then 1 else 0

attribute [local simp] manyEnds upToEnds ends literal eitherOf fitsEach eats upToLast

variable {p q w : α → Bool} {r t u : Regex α} {s : List α} {c : α}

@[simp] theorem starts_cons : starts p (c :: s) = p c := Eq.refl _

@[simp] theorem starts_nil : starts p ([] : List α) = false := Eq.refl _

@[simp] theorem run_nil : run p [] = 0 := Eq.refl _

theorem run_cons : run p (c :: s) = if p c then run p s + 1 else 0 := by
  unfold run
  rw [List.takeWhile_cons]
  split
  next => exact Eq.refl _
  next => exact Eq.refl _

theorem run_le (p : α → Bool) (s : List α) : run p s ≤ s.length :=
  (List.takeWhile_prefix p).length_le

theorem run_pos_iff : 0 < run p s ↔ starts p s = true := by
  cases s with
  | nil => simp
  | cons c s =>
    rw [run_cons, starts_cons]
    split
    next h => exact iff_of_true (Nat.succ_pos _) h
    next h => exact iff_of_false (Nat.lt_irrefl 0) h

/-- What stops a run does not have its property. -/
theorem starts_drop_run (p : α → Bool) (s : List α) : starts p (s.drop (run p s)) = false := by
  induction s with
  | nil => exact Eq.refl _
  | cons c s ih =>
    rw [run_cons]
    split
    next => exact ih
    next h => exact eq_false_of_ne_true h

theorem first_either : first (.either r t) s = (first r s).or (first t s) := List.head?_append

theorem first_seq : first (.seq r t) s =
    (ends r s).findSome? fun k => (first t (s.drop k)).map (k + ·) := by
  show List.head? (List.flatMap _ _) = _
  rw [List.head?_flatMap]
  congr 1
  funext k
  rw [List.head?_map]
  exact Eq.refl _

theorem first_seq_some {k j : Nat} (hr : first r s = some k) (ht : first t (s.drop k) = some j) :
    first (.seq r t) s = some (k + j) := by
  obtain ⟨rest, hends⟩ := List.head?_eq_some_iff.mp hr
  rw [first_seq, hends, List.findSome?_cons, ht]
  exact Eq.refl _

theorem first_seq_none (hr : first r s = none) : first (.seq r t) s = none := by
  rw [first_seq, List.head?_eq_none_iff.mp hr]
  exact Eq.refl _

theorem ends_seq_assoc : ends (.seq (.seq r t) u) s = ends (.seq r (.seq t u)) s := by
  simp only [ends, List.flatMap_assoc, List.flatMap_map, List.map_flatMap, List.map_map]
  congr 1
  funext k
  congr 1
  funext j
  rw [List.drop_drop]
  congr 1
  funext i
  exact Nat.add_assoc k j i

theorem first_seq_assoc : first (.seq (.seq r t) u) s = first (.seq r (.seq t u)) s := by
  unfold first
  rw [ends_seq_assoc]

theorem first_one_seq : first (.seq (.one p) t) s =
    if starts p s then (first t (s.drop 1)).map (1 + ·) else none := by
  rw [first_seq, ends]
  split
  next =>
    rw [List.findSome?_cons]
    split
    next h => exact h.symm
    next h => rw [h]; exact Eq.refl _
  next => exact Eq.refl _

/-- An optional character is tried first. -/
theorem first_maybe_seq : first (.seq (maybe p) t) s =
    if starts p s then ((first t (s.drop 1)).map (1 + ·)).or (first t s) else first t s := by
  have hnone : (first t (s.drop 0)).map (0 + ·) = first t s := by
    rw [List.drop_zero]
    cases first t s with
    | none => exact Eq.refl _
    | some k => exact congrArg some (Nat.zero_add k)
  rw [first_seq, maybe, ends]
  cases s with
  | nil =>
    rw [upToEnds, starts_nil, if_neg Bool.false_ne_true, List.findSome?_singleton]
    exact hnone
  | cons c s =>
    rw [upToEnds, upToEnds, starts_cons]
    split
    next =>
      show List.findSome? _ [1, 0] = _
      rw [List.findSome?_cons]
      split
      next h => rw [h]; exact Eq.refl _
      next h =>
        rw [h, List.findSome?_singleton]
        exact hnone
    next =>
      rw [List.findSome?_singleton]
      exact hnone

/-- A greedy run gives back what it took, the last first. -/
theorem first_many_seq_cons : first (.seq (.many w) t) (c :: s) =
    if w c then ((first (.seq (.many w) t) s).map (· + 1)).or (first t (c :: s))
    else first t (c :: s) := by
  have hnone : (first t ((c :: s).drop 0)).map (0 + ·) = first t (c :: s) := by
    rw [List.drop_zero]
    cases first t (c :: s) with
    | none => exact Eq.refl _
    | some k => exact congrArg some (Nat.zero_add k)
  rw [first_seq, ends, manyEnds]
  split
  next =>
    rw [List.findSome?_append, List.findSome?_singleton, hnone, List.findSome?_map, first_seq, ends,
      List.map_findSome?]
    have heach : (fun k => (first t (s.drop k)).map (k + 1 + ·)) =
        fun k => ((first t (s.drop k)).map (k + ·)).map (· + 1) := by
      funext k
      cases first t (s.drop k) with
      | none => exact Eq.refl _
      | some j => exact congrArg some (Nat.add_right_comm k 1 j)
    exact congrArg (fun f => ((manyEnds w s).findSome? f).or (first t (c :: s))) heach
  next =>
    rw [List.findSome?_singleton]
    exact hnone

theorem first_many_seq_nil : first (.seq (.many w) t) [] = first t [] := by
  rw [first_seq, ends, manyEnds, List.findSome?_singleton, List.drop_zero]
  cases first t [] with
  | none => exact Eq.refl _
  | some k => exact congrArg some (Nat.zero_add k)

theorem first_many (p : α → Bool) (s : List α) : first (.many p) s = some (run p s) := by
  induction s with
  | nil => exact Eq.refl _
  | cons c s ih =>
    unfold first at ih ⊢
    rw [ends] at ih ⊢
    rw [manyEnds, run_cons]
    split
    next =>
      rw [List.head?_append, List.head?_map, ih]
      exact Eq.refl _
    next => exact Eq.refl _

theorem first_upTo (p : α → Bool) (n : Nat) (s : List α) :
    first (.upTo n p) s = some (min n (run p s)) := by
  induction n generalizing s with
  | zero =>
    rw [Nat.zero_min]
    exact Eq.refl _
  | succ n ih =>
    cases s with
    | nil => exact Eq.refl _
    | cons c s =>
      have ih := ih s
      unfold first at ih ⊢
      rw [ends] at ih ⊢
      rw [upToEnds, run_cons]
      split
      next =>
        rw [List.head?_append, List.head?_map, ih, Nat.succ_min_succ]
        exact Eq.refl _
      next => exact Eq.refl _

theorem first_plus (p : α → Bool) (s : List α) :
    first (plus p) s = if starts p s then some (run p s) else none := by
  unfold plus
  rw [first_one_seq]
  cases s with
  | nil => exact Eq.refl _
  | cons c s =>
    rw [starts_cons, run_cons]
    split
    next =>
      show (first (.many p) s).map _ = _
      rw [first_many]
      exact congrArg some (Nat.add_comm 1 _)
    next => exact Eq.refl _

theorem first_plus_seq (p : α → Bool) (t : Regex α) (s : List α) : first (.seq (plus p) t) s =
    if starts p s then (first (.seq (.many p) t) (s.drop 1)).map (1 + ·) else none := by
  unfold plus
  rw [first_seq_assoc, first_one_seq]

theorem upToLast_eq_zero : upToLast p s = 0 ↔ ∀ c ∈ s, p c = false := by
  induction s with
  | nil => exact iff_of_true (Eq.refl _) fun c hc => absurd hc List.not_mem_nil
  | cons c s ih =>
    rw [upToLast, List.forall_mem_cons]
    split
    next hne => exact iff_of_false (Nat.succ_ne_zero _) fun h => hne (ih.mpr h.2)
    next hzero =>
      have hall := ih.mp (not_not.mp hzero)
      split
      next hp => exact iff_of_false Nat.one_ne_zero fun h => Bool.false_ne_true (h.1.symm.trans hp)
      next hp => exact iff_of_true (Eq.refl _) ⟨eq_false_of_ne_true hp, hall⟩

theorem upToLast_concat (p : α → Bool) (s : List α) (c : α) :
    upToLast p (s ++ [c]) = if p c then s.length + 1 else upToLast p s := by
  induction s with
  | nil => exact Eq.refl _
  | cons d s ih =>
    rw [List.cons_append, upToLast, ih, upToLast, List.length_cons]
    by_cases hp : p c = true
    · rw [if_pos hp, if_pos hp, if_pos (Nat.succ_ne_zero _)]
    · rw [if_neg hp, if_neg hp]

theorem upToLast_le (p : α → Bool) (s : List α) : upToLast p s ≤ s.length := by
  induction s with
  | nil => exact Nat.le_refl _
  | cons c s ih =>
    rw [upToLast, List.length_cons]
    split
    next => omega
    next =>
      split
      next => omega
      next => omega

/-- A run up to the last of a kind of its characters. -/
theorem first_many_seq_plus {s : List α}
    (hsub : ∀ c ∈ s, q c = true → w c = true) :
    first (.seq (.many w) (plus q)) s =
      if upToLast q (s.takeWhile w) = 0 then none else some (upToLast q (s.takeWhile w)) := by
  induction s with
  | nil =>
    rw [first_many_seq_nil, first_plus]
    exact Eq.refl _
  | cons c s ih =>
    have hc := hsub c List.mem_cons_self
    have hrest : ∀ d ∈ s, q d = true → w d = true := fun d hd => hsub d (List.mem_cons_of_mem c hd)
    rw [first_many_seq_cons, first_plus, starts_cons, ih hrest, List.takeWhile_cons]
    by_cases hw : w c = true
    · rw [if_pos hw, if_pos hw, upToLast]
      by_cases hzero : upToLast q (s.takeWhile w) = 0
      · rw [if_pos hzero, if_neg (not_not.mpr hzero)]
        have hrun : run q s = 0 := by
          by_contra hne
          have hstart := run_pos_iff.mp (Nat.pos_of_ne_zero hne)
          cases s with
          | nil => exact Bool.false_ne_true hstart
          | cons d s =>
            have hd : q d = true := hstart
            have hmem : d ∈ (d :: s).takeWhile w := by
              rw [List.takeWhile_cons, if_pos (hrest d List.mem_cons_self hd)]
              exact List.mem_cons_self
            exact Bool.false_ne_true ((upToLast_eq_zero.mp hzero d hmem).symm.trans hd)
        rw [run_cons, hrun]
        by_cases hq : q c = true
        · rw [if_pos hq, if_pos hq]
          exact Eq.refl _
        · rw [if_neg hq, if_neg hq]
          exact Eq.refl _
      · rw [if_neg hzero, if_pos hzero, if_neg (Nat.succ_ne_zero _)]
        exact Eq.refl _
    · have hq : ¬ q c = true := fun h => hw (hc h)
      rw [if_neg hw, if_neg hw, if_neg hq]
      exact Eq.refl _

theorem first_notAhead (p : α → Bool) (s : List α) :
    first (.notAhead p) s = if starts p s then none else some 0 := by
  unfold first
  rw [ends]
  split
  next => exact Eq.refl _
  next => exact Eq.refl _

/-- A run that nothing else may follow gives back its last character. -/
theorem first_many_notAhead (hnot : ∀ c, q c = !w c) (s : List α) :
    first (.seq (.many w) (.notAhead q)) s =
      if run w s = s.length then some (run w s)
      else if run w s = 0 then none else some (run w s - 1) := by
  induction s with
  | nil =>
    rw [first_many_seq_nil, first_notAhead]
    exact Eq.refl _
  | cons c s ih =>
    rw [first_many_seq_cons, first_notAhead, starts_cons, ih, run_cons, hnot, List.length_cons]
    by_cases hw : w c = true
    · rw [if_pos hw, if_pos hw, hw]
      by_cases hall : run w s = s.length
      · rw [if_pos hall, if_pos (show run w s + 1 = s.length + 1 by omega)]
        exact Eq.refl _
      · rw [if_neg hall, if_neg (show ¬ run w s + 1 = s.length + 1 by omega),
          if_neg (Nat.succ_ne_zero _)]
        by_cases hzero : run w s = 0
        · rw [if_pos hzero, hzero]
          exact Eq.refl _
        · rw [if_neg hzero]
          exact congrArg some (Nat.sub_add_cancel (Nat.pos_of_ne_zero hzero))
    · rw [if_neg hw, if_neg hw, if_neg (show ¬ 0 = s.length + 1 by omega), if_pos (Eq.refl _),
        eq_false_of_ne_true hw]
      exact Eq.refl _

theorem first_plus_notAhead (hnot : ∀ c, q c = !w c) (s : List α) :
    first (.seq (plus w) (.notAhead q)) s =
      if run w s = 0 then none
      else if run w s = s.length then some (run w s)
      else if run w s = 1 then none else some (run w s - 1) := by
  rw [first_plus_seq]
  cases s with
  | nil => exact Eq.refl _
  | cons c s =>
    rw [starts_cons, run_cons, List.length_cons]
    by_cases hw : w c = true
    · rw [if_pos hw, if_pos hw, if_neg (Nat.succ_ne_zero _), List.drop_one, List.tail_cons,
        first_many_notAhead hnot]
      by_cases hall : run w s = s.length
      · rw [if_pos hall, if_pos (show run w s + 1 = s.length + 1 by omega)]
        exact congrArg some (Nat.add_comm 1 _)
      · rw [if_neg hall, if_neg (show ¬ run w s + 1 = s.length + 1 by omega)]
        by_cases hzero : run w s = 0
        · rw [if_pos hzero, if_pos (show run w s + 1 = 1 by omega)]
          exact Eq.refl _
        · rw [if_neg hzero, if_neg (show ¬ run w s + 1 = 1 by omega)]
          refine congrArg some ?_
          show 1 + (run w s - 1) = run w s + 1 - 1
          omega
    · rw [if_neg hw, if_neg hw, if_pos (Eq.refl _)]

theorem manyEnds_le {k : Nat} (h : k ∈ manyEnds p s) : k ≤ s.length := by
  induction s generalizing k with
  | nil => exact Nat.le_of_eq (List.mem_singleton.mp h)
  | cons c s ih =>
    rw [manyEnds] at h
    split at h
    next =>
      rcases List.mem_append.mp h with h | h
      · obtain ⟨j, hj, rfl⟩ := List.mem_map.mp h
        exact Nat.succ_le_succ (ih hj)
      · rw [List.mem_singleton.mp h]
        exact Nat.zero_le _
    next =>
      rw [List.mem_singleton.mp h]
      exact Nat.zero_le _

theorem upToEnds_le {n k : Nat} (h : k ∈ upToEnds p n s) : k ≤ s.length := by
  induction n generalizing s k with
  | zero =>
    rw [List.mem_singleton.mp h]
    exact Nat.zero_le _
  | succ n ih =>
    cases s with
    | nil => exact Nat.le_of_eq (List.mem_singleton.mp h)
    | cons c s =>
      rw [upToEnds] at h
      split at h
      next =>
        rcases List.mem_append.mp h with h | h
        · obtain ⟨j, hj, rfl⟩ := List.mem_map.mp h
          exact Nat.succ_le_succ (ih hj)
        · rw [List.mem_singleton.mp h]
          exact Nat.zero_le _
      next =>
        rw [List.mem_singleton.mp h]
        exact Nat.zero_le _

theorem ends_le (r : Regex α) {s : List α} {k : Nat} (h : k ∈ ends r s) : k ≤ s.length := by
  induction r generalizing s k with
  | one p =>
    rw [ends] at h
    split at h
    next hstart =>
      rw [List.mem_singleton.mp h]
      cases s with
      | nil => exact absurd hstart Bool.false_ne_true
      | cons c s => exact Nat.succ_le_succ (Nat.zero_le _)
    next => exact absurd h List.not_mem_nil
  | many p => exact manyEnds_le h
  | upTo n p => exact upToEnds_le h
  | seq r t ihr iht =>
    obtain ⟨j, hj, hk⟩ := List.mem_flatMap.mp h
    obtain ⟨i, hi, rfl⟩ := List.mem_map.mp hk
    have hleft := ihr hj
    have hright := iht hi
    rw [List.length_drop] at hright
    omega
  | either r t ihr iht =>
    rcases List.mem_append.mp h with h | h
    · exact ihr h
    · exact iht h
  | notAhead p =>
    rw [ends] at h
    split at h
    next => exact absurd h List.not_mem_nil
    next =>
      rw [List.mem_singleton.mp h]
      exact Nat.zero_le _

theorem eats_pos {r : Regex α} (hr : eats r = true) {s : List α} {k : Nat} (h : k ∈ ends r s) :
    0 < k := by
  induction r generalizing s k with
  | one p =>
    rw [ends] at h
    split at h
    next =>
      rw [List.mem_singleton.mp h]
      exact Nat.one_pos
    next => exact absurd h List.not_mem_nil
  | many p => exact absurd hr Bool.false_ne_true
  | upTo n p => exact absurd hr Bool.false_ne_true
  | seq r t ihr iht =>
    obtain ⟨j, hj, hk⟩ := List.mem_flatMap.mp h
    obtain ⟨i, hi, rfl⟩ := List.mem_map.mp hk
    rcases Bool.or_eq_true_iff.mp hr with hr | ht
    · have := ihr hr hj
      omega
    · have := iht ht hi
      omega
  | either r t ihr iht =>
    obtain ⟨hr, ht⟩ := Bool.and_eq_true_iff.mp hr
    rcases List.mem_append.mp h with h | h
    · exact ihr hr h
    · exact iht ht h
  | notAhead p => exact absurd hr Bool.false_ne_true

theorem first_pos {k : Nat} (hr : eats r = true) (h : first r s = some k) : 0 < k :=
  eats_pos hr (List.mem_of_head? h)

theorem first_literal (ps : List (α → Bool)) (s : List α) :
    first (literal ps) s = if fitsEach ps s then some ps.length else none := by
  induction ps generalizing s with
  | nil => exact Eq.refl _
  | cons p ps ih =>
    rw [literal, first_one_seq, ih]
    cases s with
    | nil => exact Eq.refl _
    | cons c s =>
      rw [starts_cons, fitsEach]
      by_cases hp : p c = true
      · rw [if_pos hp, hp, Bool.true_and, List.drop_one, List.tail_cons]
        split
        next => exact congrArg some (Nat.add_comm 1 _)
        next => exact Eq.refl _
      · rw [if_neg hp, eq_false_of_ne_true hp]
        exact Eq.refl _

theorem first_eitherOf (rs : List (Regex α)) (s : List α) :
    first (eitherOf rs) s = rs.findSome? fun r => first r s := by
  induction rs with
  | nil =>
    unfold first eitherOf
    rw [ends]
    split
    next h => cases s with
      | nil => exact absurd h Bool.false_ne_true
      | cons c s => exact absurd h Bool.false_ne_true
    next => exact Eq.refl _
  | cons r rs ih =>
    rw [eitherOf, first_either, ih, List.findSome?_cons]
    cases first r s with
    | none => exact Eq.refl _
    | some k => exact Eq.refl _

theorem first_le {k : Nat} (h : first r s = some k) : k ≤ s.length :=
  ends_le r (List.mem_of_head? h)

/-- The text is one match after another, each of one character or more. -/
inductive Successive (r : Regex α) : List α → List (List α) → Prop
  | nil : Successive r [] []
  | cons {k : Nat} {s : List α} {pieces : List (List α)} : first r s = some k → 0 < k →
    Successive r (s.drop k) pieces → Successive r s (s.take k :: pieces)

/-- The text before a match, where there is one. -/
def between (gap : List α) : List (List α) := if gap.isEmpty then [] else [gap]

/-- Every match as a piece of its own, and the text between matches; `gap` is what no match has
been found in so far, and an empty match is none. -/
def isolate (r : Regex α) (gap s : List α) : List (List α) :=
  match s with
  | [] => between gap
  | c :: rest =>
    match first r (c :: rest) with
    | some (k + 1) => between gap ++ (c :: rest).take (k + 1) :: isolate r [] (rest.drop k)
    | _ => isolate r (gap ++ [c]) rest
termination_by s.length
decreasing_by
  · rw [List.length_drop, List.length_cons]
    omega
  · exact Nat.lt_succ_self rest.length

theorem isolate_nil (r : Regex α) (gap : List α) : isolate r gap [] = between gap := by
  rw [isolate]

theorem isolate_match {k : Nat} {gap : List α} (h : first r s = some k) (hk : 0 < k) :
    isolate r gap s = between gap ++ s.take k :: isolate r [] (s.drop k) := by
  cases s with
  | nil => exact absurd (first_le h) (Nat.not_le.mpr hk)
  | cons c s =>
    obtain ⟨k, rfl⟩ := Nat.exists_eq_succ_of_ne_zero (Nat.ne_of_gt hk)
    rw [isolate, h]
    exact Eq.refl _

theorem isolate_skip {gap : List α} (h : (first r (c :: s)).getD 0 = 0) :
    isolate r gap (c :: s) = isolate r (gap ++ [c]) s := by
  rw [isolate]
  split
  next k hk =>
    rw [hk] at h
    cases h
  next => exact Eq.refl _

theorem between_flatten (gap : List α) : (between gap).flatten = gap := by
  cases gap with
  | nil => exact Eq.refl _
  | cons c gap => exact List.append_nil _

theorem between_ne {gap piece : List α} (h : piece ∈ between gap) : piece ≠ [] := by
  cases gap with
  | nil => exact absurd h List.not_mem_nil
  | cons c gap =>
    rw [List.mem_singleton.mp h]
    exact List.cons_ne_nil _ _

theorem isolate_none {gap : List α} (h : ∀ k < s.length, (first r (s.drop k)).getD 0 = 0) :
    isolate r gap s = between (gap ++ s) := by
  induction s generalizing gap with
  | nil => rw [isolate_nil, List.append_nil]
  | cons c s ih =>
    rw [isolate_skip (h 0 (Nat.zero_lt_succ _)), ih, List.append_assoc, List.singleton_append]
    intro k hk
    exact h (k + 1) (Nat.succ_lt_succ hk)

theorem isolate_flatten (r : Regex α) (gap s : List α) :
    (isolate r gap s).flatten = gap ++ s := by
  fun_induction isolate r gap s with
  | case1 gap => rw [between_flatten, List.append_nil]
  | case2 gap c rest k hk ih =>
    rw [List.flatten_append, between_flatten, List.flatten_cons, ih, List.nil_append]
    show gap ++ ((c :: rest).take (k + 1) ++ (c :: rest).drop (k + 1)) = _
    rw [List.take_append_drop]
  | case3 gap c rest hk ih => rw [ih, List.append_assoc, List.singleton_append]

theorem isolate_ne {gap piece : List α} (h : piece ∈ isolate r gap s) : piece ≠ [] := by
  revert h
  fun_induction isolate r gap s with
  | case1 gap => exact fun h => between_ne h
  | case2 gap c rest k hk ih =>
    intro h
    rcases List.mem_append.mp h with h | h
    · exact between_ne h
    · rcases List.mem_cons.mp h with rfl | h
      · exact List.cons_ne_nil _ _
      · exact ih h
  | case3 gap c rest hk ih => exact ih

theorem Successive.flatten {pieces : List (List α)} (h : Successive r s pieces) :
    pieces.flatten = s := by
  induction h with
  | nil => exact Eq.refl _
  | cons hfirst hk hrest ih => rw [List.flatten_cons, ih, List.take_append_drop]

theorem Successive.ne {pieces : List (List α)} (h : Successive r s pieces) :
    ∀ piece ∈ pieces, piece ≠ [] := by
  induction h with
  | nil => exact fun piece h => absurd h List.not_mem_nil
  | @cons k s pieces hfirst hk hrest ih =>
    intro piece hpiece
    rcases List.mem_cons.mp hpiece with rfl | hpiece
    · have hle := first_le hfirst
      intro hnil
      have hlength := congrArg List.length hnil
      rw [List.length_take, List.length_nil] at hlength
      omega
    · exact ih piece hpiece

/-- The place after the characters from `k` on that have `p`, before `stop`. -/
def scan (p : α → Bool) (s : List α) (stop k : Nat) : Nat :=
  if k < stop then if s[k]?.any p then scan p s stop (k + 1) else k else k
termination_by stop - k

theorem scan_eq {stop k : Nat} (hstop : stop ≤ s.length) :
    scan p s stop k = k + run p ((s.take stop).drop k) := by
  fun_induction scan p s stop k with
  | case1 k hk hp ih =>
    have hlt : k < (s.take stop).length := by
      rw [List.length_take]
      omega
    rw [ih, List.drop_eq_getElem_cons hlt, run_cons, List.getElem_take]
    rw [List.getElem?_eq_getElem (by omega)] at hp
    rw [if_pos (show p s[k] = true from hp)]
    omega
  | case2 k hk hp =>
    have hlt : k < (s.take stop).length := by
      rw [List.length_take]
      omega
    rw [List.drop_eq_getElem_cons hlt, run_cons, List.getElem_take]
    rw [List.getElem?_eq_getElem (by omega)] at hp
    rw [if_neg (show ¬ p s[k] = true from hp)]
    exact Eq.refl _
  | case3 k hk =>
    rw [List.drop_of_length_le (by rw [List.length_take]; omega)]
    exact Eq.refl _

theorem scan_stop {stop k : Nat} (h : s[k]?.any p = false) : scan p s stop k = k := by
  rw [scan, h]
  split
  next => exact Eq.refl _
  next => exact Eq.refl _

theorem scan_all {k : Nat} : scan p s s.length k = k + run p (s.drop k) := by
  rw [scan_eq (Nat.le_refl _), List.take_length]

section Views

variable {β : Type}

/-- The same expression over characters seen through `f`. -/
def comap (f : β → α) : Regex α → Regex β
  | .one p => .one (p ∘ f)
  | .many p => .many (p ∘ f)
  | .upTo n p => .upTo n (p ∘ f)
  | .seq r t => .seq (comap f r) (comap f t)
  | .either r t => .either (comap f r) (comap f t)
  | .notAhead p => .notAhead (p ∘ f)

theorem starts_comap (f : β → α) (p : α → Bool) (s : List β) :
    starts (p ∘ f) s = starts p (s.map f) := by
  cases s with
  | nil => exact Eq.refl _
  | cons c s => exact Eq.refl _

theorem manyEnds_comap (f : β → α) (p : α → Bool) (s : List β) :
    manyEnds (p ∘ f) s = manyEnds p (s.map f) := by
  induction s with
  | nil => exact Eq.refl _
  | cons c s ih =>
    rw [List.map_cons, manyEnds, manyEnds, ih]
    exact Eq.refl _

theorem upToEnds_comap (f : β → α) (p : α → Bool) (n : Nat) (s : List β) :
    upToEnds (p ∘ f) n s = upToEnds p n (s.map f) := by
  induction n generalizing s with
  | zero => exact Eq.refl _
  | succ n ih =>
    cases s with
    | nil => exact Eq.refl _
    | cons c s =>
      rw [List.map_cons, upToEnds, upToEnds, ih]
      exact Eq.refl _

theorem ends_comap (f : β → α) (r : Regex α) (s : List β) :
    ends (comap f r) s = ends r (s.map f) := by
  induction r generalizing s with
  | one p => rw [comap, ends, ends, starts_comap]
  | many p => exact manyEnds_comap f p s
  | upTo n p => exact upToEnds_comap f p n s
  | seq r t ihr iht =>
    rw [comap, ends, ends, ihr]
    congr 1
    funext k
    rw [iht, List.map_drop]
  | either r t ihr iht => rw [comap, ends, ends, ihr, iht]
  | notAhead p => rw [comap, ends, ends, starts_comap]

theorem first_comap (f : β → α) (r : Regex α) (s : List β) :
    first (comap f r) s = first r (s.map f) := by
  unfold first
  rw [ends_comap]

end Views

section Slices

def slice (s : List α) (i e : Nat) : List α := (s.take e).drop i

variable {i e k : Nat}

theorem slice_all (s : List α) : slice s 0 s.length = s := by
  unfold slice
  rw [List.take_length, List.drop_zero]

theorem slice_empty (s : List α) (i : Nat) : slice s i i = [] := by
  apply List.drop_of_length_le
  rw [List.length_take]
  exact Nat.min_le_left _ _

theorem slice_length (he : e ≤ s.length) : (slice s i e).length = e - i := by
  unfold slice
  rw [List.length_drop, List.length_take, Nat.min_eq_left he]

theorem slice_cons (hi : i < e) (he : e ≤ s.length) :
    slice s i e = s[i] :: slice s (i + 1) e := by
  have hlt : i < (s.take e).length := by
    rw [List.length_take]
    omega
  unfold slice
  rw [List.drop_eq_getElem_cons hlt, List.getElem_take]

theorem slice_drop (s : List α) (i e k : Nat) : (slice s i e).drop k = slice s (i + k) e := by
  unfold slice
  rw [List.drop_drop]

theorem slice_take (h : i + k ≤ e) : (slice s i e).take k = slice s i (i + k) := by
  unfold slice
  rw [List.take_drop, List.take_take, Nat.min_eq_left h]

theorem slice_concat (hi : i ≤ e) (he : e < s.length) :
    slice s i (e + 1) = slice s i e ++ [s[e]] := by
  unfold slice
  rw [List.take_succ_eq_append_getElem he, List.drop_append_of_le_length]
  rw [List.length_take]
  omega

theorem slice_map {β : Type} (f : α → β) (s : List α) (i e : Nat) :
    slice (s.map f) i e = (slice s i e).map f := by
  unfold slice
  rw [← List.map_take, ← List.map_drop]

theorem scan_slice (he : e ≤ s.length) : scan p s e k = k + run p (slice s k e) := scan_eq he

theorem run_take (p : α → Bool) (n : Nat) (s : List α) : run p (s.take n) = min n (run p s) := by
  induction n generalizing s with
  | zero => exact (Nat.zero_min _).symm
  | succ n ih =>
    cases s with
    | nil => exact (Nat.min_zero _).symm
    | cons c s =>
      rw [List.take_succ_cons, run_cons, run_cons]
      split
      next => rw [ih, Nat.succ_min_succ]
      next => exact (Nat.min_zero _).symm

end Slices

end OrderedRegex

end Llmx
