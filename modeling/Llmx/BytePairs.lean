import Llmx.ReplyText
import Mathlib.Logic.Relation
import Mathlib.Algebra.Order.Ring.Int
import Mathlib.Data.List.Chain

/-!
Byte-pair merging of a word: the ranks the loop looks up by joined text, and the merge list's own
encoding, whose ranks are the pairs'.
-/

namespace Llmx

namespace BytePairs

/-- The two symbols of a merge list's entry, cut at its first space. -/
def pairOf (entry : Bytes) : Bytes × Bytes :=
  (entry.takeWhile (· ≠ 32), (entry.dropWhile (· ≠ 32)).tail)

def merged (entry : Bytes) : Bytes := (pairOf entry).1 ++ (pairOf entry).2

/-- The number of the last entry of a key: a later entry overwrites an earlier one. -/
def lastEntry {κ : Type} [DecidableEq κ] (key : Bytes → κ) (merges : List Bytes) (k : κ) :
    Option Nat :=
  merges.zipIdx.foldl (fun found e => if key e.1 = k then some e.2 else found) none

/-- A joined text's rank, in 32 bits. -/
def mergeRank (merges : List Bytes) (text : Bytes) : Option Nat :=
  (lastEntry merged merges text).map (· % 2 ^ 32)

theorem leadLength_pos (c : UInt8) : 0 < Utf8.leadLength c := by
  unfold Utf8.leadLength
  split
  next => omega
  next =>
    split
    next => omega
    next =>
      split
      next => omega
      next => omega

/-- A word's characters, each as long as its lead byte announces. -/
def characters : Bytes → List Bytes
  | [] => []
  | c :: cs =>
    (c :: cs).take (Utf8.leadLength c) :: characters ((c :: cs).drop (Utf8.leadLength c))
termination_by word => word.length
decreasing_by
  have := leadLength_pos c
  rw [List.length_drop, List.length_cons]
  omega

/-- A place as an `int` holds it. -/
def int32 (i : Nat) : Int :=
  if i % 2 ^ 32 < 2 ^ 31 then (i % 2 ^ 32 : Nat) else (i % 2 ^ 32 : Nat) - 2 ^ 32

/-- The scan of the adjacent pairs from place `i` on for the lowest rank below `best`. -/
def findBest (rank : Bytes → Option Nat) : List Bytes → Nat → Nat → Int → Int
  | x :: y :: rest, i, best, bestPos =>
    match rank (x ++ y) with
    | some r =>
      if r < best then findBest rank (y :: rest) (i + 1) r (int32 i)
      else findBest rank (y :: rest) (i + 1) best bestPos
    | none => findBest rank (y :: rest) (i + 1) best bestPos
  | _, _, _, bestPos => bestPos

/-- The symbol at a place and the one after it made one. -/
def joinAt : List Bytes → Nat → List Bytes
  | x :: y :: rest, 0 => (x ++ y) :: rest
  | x :: rest, i + 1 => x :: joinAt rest i
  | sym, _ => sym

def mergeOnce (merges : List Bytes) (sym : List Bytes) : Option (List Bytes) :=
  let bestPos := findBest (mergeRank merges) sym 0 (2 ^ 32 - 1) (-1)
  if bestPos < 0 then none else some (joinAt sym bestPos.toNat)

/-- A pair's rank at a place, none where there is no pair or it has none. -/
def rankAt (rank : Bytes × Bytes → Option Nat) (sym : List Bytes) (i : Nat) : Option Nat :=
  (sym.zip sym.tail)[i]?.bind rank

/-- The place of the lowest rank, leftmost among equals. -/
def Lowest (rank : Bytes × Bytes → Option Nat) (sym : List Bytes) (i : Nat) : Prop :=
  ∃ r, rankAt rank sym i = some r ∧
    ∀ j q, rankAt rank sym j = some q → r < q ∨ r = q ∧ i ≤ j

/-- The rank the scan finds of a pair: that of its joined text, where it is below `best`. -/
def below (rank : Bytes → Option Nat) (best : Nat) (p : Bytes × Bytes) : Option Nat :=
  (rank (p.1 ++ p.2)).filter (· < best)

variable {rank : Bytes → Option Nat} {x y : Bytes} {rest sym : List Bytes}

theorem rankAt_succ {ranks : Bytes × Bytes → Option Nat} (i : Nat) :
    rankAt ranks (x :: y :: rest) (i + 1) = rankAt ranks (y :: rest) i :=
  Eq.refl _

theorem rankAt_zero {ranks : Bytes × Bytes → Option Nat} :
    rankAt ranks (x :: y :: rest) 0 = ranks (x, y) :=
  Eq.refl _

theorem below_eq_some {best r : Nat} {p : Bytes × Bytes} :
    below rank best p = some r ↔ rank (p.1 ++ p.2) = some r ∧ r < best := by
  unfold below
  rw [Option.filter_eq_some_iff, decide_eq_true_eq]

theorem findBest_skip {i best : Nat} {bestPos : Int} (h : below rank best (x, y) = none) :
    findBest rank (x :: y :: rest) i best bestPos =
      findBest rank (y :: rest) (i + 1) best bestPos := by
  rw [findBest]
  split
  next r hr =>
    have hlt : ¬r < best := by
      intro hlt
      have hsome : below rank best (x, y) = some r := below_eq_some.mpr ⟨hr, hlt⟩
      rw [h] at hsome
      cases hsome
    exact if_neg hlt
  next => exact Eq.refl _

theorem findBest_take {i best r : Nat} {bestPos : Int} (h : below rank best (x, y) = some r) :
    findBest rank (x :: y :: rest) i best bestPos =
      findBest rank (y :: rest) (i + 1) r (int32 i) := by
  obtain ⟨hr, hlt⟩ := below_eq_some.mp h
  rw [findBest, hr]
  exact if_pos hlt

theorem rankAt_below {best r q : Nat} {i : Nat} (h : rankAt (below rank best) sym i = some q)
    (hlt : q < r) : rankAt (below rank r) sym i = some q := by
  obtain ⟨p, hp, hq⟩ := Option.bind_eq_some_iff.mp h
  exact Option.bind_eq_some_iff.mpr ⟨p, hp, below_eq_some.mpr ⟨(below_eq_some.mp hq).1, hlt⟩⟩

theorem rankAt_lt {best q : Nat} {i : Nat} (h : rankAt (below rank best) sym i = some q) :
    q < best := by
  obtain ⟨p, hp, hq⟩ := Option.bind_eq_some_iff.mp h
  exact (below_eq_some.mp hq).2

/-- The scan ends on the lowest rank below the best so far, or keeps that one's place. -/
theorem findBest_spec (i best : Nat) (bestPos : Int) :
    (∃ k, Lowest (below rank best) sym k ∧ findBest rank sym i best bestPos = int32 (i + k)) ∨
      (∀ k, rankAt (below rank best) sym k = none) ∧
        findBest rank sym i best bestPos = bestPos := by
  induction sym generalizing i best bestPos with
  | nil => exact Or.inr ⟨fun k => Eq.refl _, Eq.refl _⟩
  | cons x sym ih =>
    cases sym with
    | nil => exact Or.inr ⟨fun k => Eq.refl _, Eq.refl _⟩
    | cons y rest =>
      cases hfirst : below rank best (x, y) with
      | none =>
        rw [findBest_skip hfirst]
        obtain ⟨k, ⟨r, hr, hmin⟩, heq⟩ | ⟨hnone, heq⟩ := ih (i + 1) best bestPos
        · refine Or.inl ⟨k + 1, ⟨r, hr, ?_⟩, ?_⟩
          · intro j q hq
            cases j with
            | zero =>
              rw [rankAt_zero, hfirst] at hq
              cases hq
            | succ j =>
              have := hmin j q hq
              omega
          · rw [heq]
            congr 1
            omega
        · refine Or.inr ⟨fun k => ?_, heq⟩
          cases k with
          | zero => exact hfirst
          | succ k => exact hnone k
      | some first =>
        rw [findBest_take hfirst]
        obtain ⟨k, ⟨r, hr, hmin⟩, heq⟩ | ⟨hnone, heq⟩ := ih (i + 1) first (int32 i)
        · have hlt := rankAt_lt hr
          have hless := (below_eq_some.mp hfirst).2
          obtain ⟨p, hp, hq⟩ := Option.bind_eq_some_iff.mp hr
          refine Or.inl ⟨k + 1, ⟨r, ?_, ?_⟩, ?_⟩
          · exact Option.bind_eq_some_iff.mpr
              ⟨p, hp, below_eq_some.mpr ⟨(below_eq_some.mp hq).1, by omega⟩⟩
          · intro j q hj
            cases j with
            | zero =>
              rw [rankAt_zero, hfirst] at hj
              obtain rfl := Option.some.inj hj
              exact Or.inl hlt
            | succ j =>
              by_cases hqf : q < first
              · have := hmin j q (rankAt_below hj hqf)
                omega
              · omega
          · rw [heq]
            congr 1
            omega
        · refine Or.inl ⟨0, ⟨first, hfirst, ?_⟩, heq⟩
          intro j q hj
          cases j with
          | zero =>
            rw [rankAt_zero, hfirst] at hj
            obtain rfl := Option.some.inj hj
            exact Or.inr ⟨Eq.refl _, Nat.le_refl _⟩
          | succ j =>
            by_cases hqf : q < first
            · rw [rankAt_succ] at hj
              have hnone := hnone j
              rw [rankAt_below hj hqf] at hnone
              cases hnone
            · omega

theorem Lowest.inside {ranks : Bytes × Bytes → Option Nat} {i : Nat} (h : Lowest ranks sym i) :
    i + 1 < sym.length := by
  obtain ⟨r, hr, -⟩ := h
  obtain ⟨p, hp, -⟩ := Option.bind_eq_some_iff.mp hr
  have hlt := (List.getElem?_eq_some_iff.mp hp).1
  rw [List.length_zip, List.length_tail] at hlt
  omega

theorem Lowest.unique {ranks : Bytes × Bytes → Option Nat} {i j : Nat} (h : Lowest ranks sym i)
    (h' : Lowest ranks sym j) : i = j := by
  obtain ⟨r, hr, hmin⟩ := h
  obtain ⟨q, hq, hmin'⟩ := h'
  have := hmin j q hq
  have := hmin' i r hr
  omega

theorem int32_le (i : Nat) : (int32 i).toNat ≤ i := by
  unfold int32
  split
  next => omega
  next => omega

/-- The ranks the loop goes by: those of the joined texts, but the greatest a rank can be. -/
def textRank (merges : List Bytes) : Bytes × Bytes → Option Nat :=
  below (mergeRank merges) (2 ^ 32 - 1)

variable {merges : List Bytes}

/-- The loop joins the pair whose text ranks lowest, where an `int` holds its place. -/
theorem mergeOnce_iff {sym' : List Bytes} :
    mergeOnce merges sym = some sym' ↔
      ∃ k, Lowest (textRank merges) sym k ∧ 0 ≤ int32 k ∧ sym' = joinAt sym (int32 k).toNat := by
  unfold mergeOnce
  dsimp only
  obtain ⟨k, hk, heq⟩ | ⟨hnone, heq⟩ := @findBest_spec (mergeRank merges) sym 0 (2 ^ 32 - 1) (-1)
  · rw [Nat.zero_add] at heq
    rw [heq]
    constructor
    · intro h
      split at h
      next => cases h
      next hpos => exact ⟨k, hk, by omega, (Option.some.inj h).symm⟩
    · intro h
      obtain ⟨k', hk', hpos, rfl⟩ := h
      obtain rfl := hk.unique hk'
      exact if_neg (by omega)
  · rw [heq, if_pos (by decide)]
    constructor
    · intro h
      cases h
    · intro h
      obtain ⟨k, ⟨r, hr, -⟩, -⟩ := h
      have hnone := hnone k
      unfold textRank at hr
      rw [hr] at hnone
      cases hnone

theorem length_joinAt {i : Nat} (h : i + 1 < sym.length) :
    (joinAt sym i).length + 1 = sym.length := by
  induction sym generalizing i with
  | nil => cases h
  | cons x sym ih =>
    cases i with
    | zero =>
      cases sym with
      | nil => exact absurd h (Nat.lt_irrefl 1)
      | cons y rest => exact Eq.refl _
    | succ i =>
      have hrest := ih (Nat.lt_of_succ_lt_succ h)
      cases sym with
      | nil => cases hrest
      | cons y rest => exact congrArg (· + 1) hrest

theorem length_mergeOnce {sym' : List Bytes} (h : mergeOnce merges sym = some sym') :
    sym'.length < sym.length := by
  obtain ⟨k, hk, -, rfl⟩ := mergeOnce_iff.mp h
  have hin := hk.inside
  have hle := int32_le k
  have hlen := length_joinAt (show (int32 k).toNat + 1 < sym.length by omega)
  omega

/-- The merge loop. -/
def mergeAll (merges : List Bytes) (sym : List Bytes) : List Bytes :=
  match _h : mergeOnce merges sym with
  | none => sym
  | some sym' => mergeAll merges sym'
termination_by sym.length
decreasing_by exact length_mergeOnce _h

/-- The symbols before each pass of the loop, and those it ends with. -/
def stages (merges : List Bytes) (sym : List Bytes) : List (List Bytes) :=
  match _h : mergeOnce merges sym with
  | none => [sym]
  | some sym' => sym :: stages merges sym'
termination_by sym.length
decreasing_by exact length_mergeOnce _h

def bpe (merges : List Bytes) (word : Bytes) : List Bytes := mergeAll merges (characters word)

/-- A pair's place in the merge list, none where no entry is that pair. -/
def pairRank (merges : List Bytes) : Bytes × Bytes → Option Nat := lastEntry pairOf merges

/-- A merge by the list: of the adjacent pairs that are entries, the lowest, leftmost among equals,
is joined. -/
def Merges (merges : List Bytes) (sym sym' : List Bytes) : Prop :=
  ∃ i, Lowest (pairRank merges) sym i ∧ sym' = joinAt sym i

/-- Every pass of the loop is a merge by the list, it ends where the list has no pair left, and the
symbols make up the word. -/
def FollowsList (merges : List Bytes) (word : Bytes) : Prop :=
  (stages merges (characters word)).IsChain (Merges merges) ∧
    (∀ sym, ¬Merges merges (bpe merges word) sym) ∧ (bpe merges word).flatten = word

/-- The pair the list ranks lowest is the one whose joined text is, as an `int` holds its place. -/
def Clear (merges : List Bytes) (sym : List Bytes) : Prop :=
  ∀ i : Nat, Lowest (pairRank merges) sym i ↔
    ∃ k, Lowest (textRank merges) sym k ∧ int32 k = i

theorem Merges.unique {sym' sym'' : List Bytes} (h : Merges merges sym sym')
    (h' : Merges merges sym sym'') : sym' = sym'' := by
  obtain ⟨i, hi, rfl⟩ := h
  obtain ⟨j, hj, rfl⟩ := h'
  rw [hi.unique hj]

theorem characters_flatten (word : Bytes) : (characters word).flatten = word := by
  induction word using characters.induct with
  | case1 =>
    rw [characters]
    exact Eq.refl _
  | case2 c cs ih => rw [characters, List.flatten_cons, ih, List.take_append_drop]

theorem characters_nonempty {word : Bytes} : ∀ x ∈ characters word, x ≠ [] := by
  induction word using characters.induct with
  | case1 =>
    rw [characters]
    exact List.forall_mem_nil _
  | case2 c cs ih =>
    rw [characters, List.forall_mem_cons]
    refine ⟨?_, ih⟩
    obtain ⟨n, hn⟩ := Nat.exists_eq_succ_of_ne_zero (Nat.ne_of_gt (leadLength_pos c))
    rw [hn]
    exact List.cons_ne_nil _ _

theorem joinAt_flatten (sym : List Bytes) (i : Nat) : (joinAt sym i).flatten = sym.flatten := by
  induction sym generalizing i with
  | nil => exact Eq.refl _
  | cons x sym ih =>
    cases i with
    | zero =>
      cases sym with
      | nil => exact Eq.refl _
      | cons y rest =>
        rw [joinAt, List.flatten_cons, List.flatten_cons, List.flatten_cons, List.append_assoc]
    | succ i => rw [joinAt, List.flatten_cons, List.flatten_cons, ih]

theorem joinAt_nonempty {i : Nat} (h : ∀ x ∈ sym, x ≠ []) : ∀ x ∈ joinAt sym i, x ≠ [] := by
  induction sym generalizing i with
  | nil => exact h
  | cons x sym ih =>
    obtain ⟨hx, hsym⟩ := List.forall_mem_cons.mp h
    cases i with
    | zero =>
      cases sym with
      | nil => exact h
      | cons y rest =>
        rw [joinAt, List.forall_mem_cons]
        refine ⟨?_, (List.forall_mem_cons.mp hsym).2⟩
        intro hnil
        exact hx (List.append_eq_nil_iff.mp hnil).1
    | succ i =>
      rw [joinAt, List.forall_mem_cons]
      exact ⟨hx, ih hsym⟩

/-- Symbols that are not empty tell the place a join was made at. -/
theorem joinAt_inj {i j : Nat} (h : ∀ x ∈ sym, x ≠ []) (hi : i + 1 < sym.length)
    (hj : j + 1 < sym.length) (heq : joinAt sym i = joinAt sym j) : i = j := by
  have hgrows : ∀ x y : Bytes, y ≠ [] → x ++ y ≠ x := by
    intro x y hy hxy
    exact hy (List.append_right_eq_self.mp hxy)
  induction sym generalizing i j with
  | nil => cases hi
  | cons x sym ih =>
    obtain ⟨-, hsym⟩ := List.forall_mem_cons.mp h
    cases sym with
    | nil => exact absurd hi (by rw [List.length_singleton]; omega)
    | cons y rest =>
      obtain ⟨hy, -⟩ := List.forall_mem_cons.mp hsym
      cases i with
      | zero =>
        cases j with
        | zero => exact Eq.refl _
        | succ j => exact absurd (List.cons.inj heq).1 (hgrows x y hy)
      | succ i =>
        cases j with
        | zero => exact absurd (List.cons.inj heq).1.symm (hgrows x y hy)
        | succ j =>
          rw [ih hsym (Nat.lt_of_succ_lt_succ hi) (Nat.lt_of_succ_lt_succ hj)
            (List.cons.inj heq).2]

theorem mergeAll_none (h : mergeOnce merges sym = none) : mergeAll merges sym = sym := by
  rw [mergeAll]
  split
  next => exact Eq.refl _
  next hsome => rw [h] at hsome; cases hsome

theorem mergeAll_some {sym' : List Bytes} (h : mergeOnce merges sym = some sym') :
    mergeAll merges sym = mergeAll merges sym' := by
  rw [mergeAll]
  split
  next hnone => rw [h] at hnone; cases hnone
  next sym'' hsome =>
    rw [h] at hsome
    rw [Option.some.inj hsome]

theorem stages_none (h : mergeOnce merges sym = none) : stages merges sym = [sym] := by
  rw [stages]
  split
  next => exact Eq.refl _
  next hsome => rw [h] at hsome; cases hsome

theorem stages_some {sym' : List Bytes} (h : mergeOnce merges sym = some sym') :
    stages merges sym = sym :: stages merges sym' := by
  rw [stages]
  split
  next hnone => rw [h] at hnone; cases hnone
  next sym'' hsome =>
    rw [h] at hsome
    rw [Option.some.inj hsome]

theorem stages_head (merges sym : List Bytes) : ∃ later, stages merges sym = sym :: later := by
  cases h : mergeOnce merges sym with
  | none => exact ⟨[], stages_none h⟩
  | some sym' => exact ⟨_, stages_some h⟩

/-- The loop keeps the word's bytes. -/
theorem mergeAll_flatten (merges sym : List Bytes) :
    (mergeAll merges sym).flatten = sym.flatten := by
  induction sym using mergeAll.induct merges with
  | case1 sym h => rw [mergeAll_none h]
  | case2 sym sym' h ih =>
    obtain ⟨k, -, -, rfl⟩ := mergeOnce_iff.mp h
    rw [mergeAll_some h, ih, joinAt_flatten]

theorem bpe_flatten (merges : List Bytes) (word : Bytes) : (bpe merges word).flatten = word := by
  unfold bpe
  rw [mergeAll_flatten, characters_flatten]

/-- A pass does what the list says exactly where its pair's joined text comes first too. -/
theorem mergeOnce_merges_iff (h : ∀ x ∈ sym, x ≠ []) :
    (∀ sym', mergeOnce merges sym = some sym' ↔ Merges merges sym sym') ↔ Clear merges sym := by
  constructor
  · intro hall i
    constructor
    · intro hi
      obtain ⟨k, hk, hpos, heq⟩ := mergeOnce_iff.mp ((hall (joinAt sym i)).mpr ⟨i, hi, Eq.refl _⟩)
      have hin := hk.inside
      have hle := int32_le k
      have hplace := joinAt_inj h hi.inside (by omega) heq
      exact ⟨k, hk, by omega⟩
    · intro hi
      obtain ⟨k, hk, hint⟩ := hi
      have hin := hk.inside
      have hle := int32_le k
      have hplace : (int32 k).toNat = i := by omega
      obtain ⟨j, hj, heq⟩ := (hall (joinAt sym i)).mp
        (mergeOnce_iff.mpr ⟨k, hk, by omega, by rw [hplace]⟩)
      obtain rfl := joinAt_inj h (by omega) hj.inside heq
      exact hj
  · intro hclear sym'
    rw [mergeOnce_iff]
    constructor
    · intro hk
      obtain ⟨k, hk, hpos, rfl⟩ := hk
      exact ⟨(int32 k).toNat, (hclear _).mpr ⟨k, hk, by omega⟩, Eq.refl _⟩
    · intro hi
      obtain ⟨i, hi, rfl⟩ := hi
      obtain ⟨k, hk, hint⟩ := (hclear i).mp hi
      have hplace : (int32 k).toNat = i := by omega
      exact ⟨k, hk, by omega, by rw [hplace]⟩

/-- Symbols are clear where no adjacent pair's text is joined otherwise by a later entry, nor by one
where the pair is none. -/
theorem clear_of_own (hown : ∀ p ∈ sym.zip sym.tail, textRank merges p = pairRank merges p)
    (hlen : sym.length ≤ 2 ^ 31) : Clear merges sym := by
  have hrank : ∀ i, rankAt (textRank merges) sym i = rankAt (pairRank merges) sym i := by
    intro i
    apply Option.bind_congr
    intro p hp
    exact hown p (List.mem_of_getElem? hp)
  have hlowest : ∀ i, Lowest (textRank merges) sym i ↔ Lowest (pairRank merges) sym i := by
    intro i
    unfold Lowest
    simp only [hrank]
  intro i
  constructor
  · intro hi
    have hin := hi.inside
    refine ⟨i, (hlowest i).mpr hi, ?_⟩
    unfold int32
    rw [if_pos (by omega), Nat.mod_eq_of_lt (by omega)]
  · intro hk
    obtain ⟨k, hk, hint⟩ := hk
    have hin := hk.inside
    unfold int32 at hint
    rw [if_pos (by omega), Nat.mod_eq_of_lt (by omega)] at hint
    obtain rfl := Int.ofNat.inj hint
    exact (hlowest k).mp hk

/-- The loop from given symbols on follows the list exactly where all the list's own merges reach is
clear. -/
theorem follows_iff (h : ∀ x ∈ sym, x ≠ []) :
    ((stages merges sym).IsChain (Merges merges) ∧
        ∀ sym', ¬Merges merges (mergeAll merges sym) sym') ↔
      ∀ sym', Relation.ReflTransGen (Merges merges) sym sym' → Clear merges sym' := by
  induction sym using mergeAll.induct merges with
  | case1 sym hnone =>
    rw [stages_none hnone, mergeAll_none hnone]
    have hiff := @mergeOnce_merges_iff sym merges h
    constructor
    · intro hends sym' hreach
      rcases hreach.cases_head with rfl | ⟨mid, hmid, -⟩
      · apply hiff.mp
        intro sym'
        rw [hnone]
        exact ⟨fun hsome => (by cases hsome), fun hmerge => absurd hmerge (hends.2 sym')⟩
      · exact absurd hmid (hends.2 mid)
    · intro hclear
      refine ⟨List.isChain_singleton _, ?_⟩
      intro sym' hmerge
      have hsome := (hiff.mpr (hclear sym Relation.ReflTransGen.refl) sym').mpr hmerge
      rw [hnone] at hsome
      cases hsome
  | case2 sym next hnext ih =>
    have hrest : ∀ x ∈ next, x ≠ [] := by
      obtain ⟨k, -, -, rfl⟩ := mergeOnce_iff.mp hnext
      exact joinAt_nonempty h
    have ih := ih hrest
    have hiff := @mergeOnce_merges_iff sym merges h
    obtain ⟨later, hlater⟩ := stages_head merges next
    rw [stages_some hnext, mergeAll_some hnext, hlater, List.isChain_cons_cons, ← hlater,
      and_assoc, ih]
    constructor
    · intro hfirst sym' hreach
      obtain ⟨hfirst, hall⟩ := hfirst
      rcases hreach.cases_head with rfl | ⟨mid, hmid, hreach⟩
      · apply hiff.mp
        intro sym'
        rw [hnext]
        constructor
        · intro hsome
          rw [← Option.some.inj hsome]
          exact hfirst
        · intro hmerge
          rw [hfirst.unique hmerge]
      · rw [← hfirst.unique hmid] at hreach
        exact hall sym' hreach
    · intro hclear
      have hfirst := (hiff.mpr (hclear sym Relation.ReflTransGen.refl) next).mp hnext
      exact ⟨hfirst, fun sym' hreach => hclear sym' (Relation.ReflTransGen.head hfirst hreach)⟩

end BytePairs

end Llmx
