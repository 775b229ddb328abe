import Mathlib.Data.List.Basic
import Mathlib.Data.List.TakeWhile
import Mathlib.Tactic.Common

namespace Llmx

/-- The rows a text prompt keeps at its start when no turn end marks a leading block. -/
def cutLead : Nat := 64

/-- A cut of rows: the prompt keeps its first `lead` rows and those from `fromRow` on; `atMarker`
says both are cut points. -/
structure RowCut where
  lead : Nat
  fromRow : Nat
  atMarker : Bool
deriving DecidableEq, Repr

/-- The cut at the first cut point `j` or more steps past the leading block, the fewest that fit. -/
def stepCut (points : List Nat) (lead n fit step : Nat) (hstep : 0 < step) (j : Nat) :
    Option RowCut :=
  if lead + j * step < n then
    match points.find? fun p => lead + j * step ≤ p with
    | none => none
    | some p =>
      if n ≤ p then none
      else if lead + (n - p) ≤ fit then some ⟨lead, p, true⟩
      else stepCut points lead n fit step hstep (j + 1)
  else none
termination_by n - (lead + j * step)
decreasing_by
  rw [Nat.add_mul, Nat.one_mul]
  omega

/-- The cut a whole number of steps past the leading block, where that is short of a step. -/
def wholeStepCut (points : List Nat) (n fit step : Nat) : Option RowCut :=
  match points with
  | [] => none
  | front :: _ =>
    if h : front < step then stepCut points front n fit step (Nat.zero_lt_of_lt h) 1 else none

/-- The cut at the first cut point after the leading block that leaves at most the room. -/
def markerCut (points : List Nat) (n fit : Nat) : Option RowCut :=
  match points with
  | [] => none
  | front :: rest =>
    if front < n then
      ((rest.takeWhile (· < n)).find? fun p => front + (n - p) ≤ fit).map fun p => ⟨front, p, true⟩
    else none

/-- The steps a cut at no marker goes, `j` or more. -/
def plainSteps (lead n fit step : Nat) (hstep : 0 < step) (j : Nat) : Nat :=
  if lead + j * step < n ∧ fit < lead + (n - (lead + j * step)) then
    plainSteps lead n fit step hstep (j + 1)
  else j
termination_by n - (lead + j * step)
decreasing_by
  rw [Nat.add_mul, Nat.one_mul]
  omega

def plainLead (step : Nat) : Nat := min cutLead (step / 2)

def plainCut (n fit step : Nat) (hstep : 0 < step) : RowCut :=
  ⟨plainLead step, plainLead step + plainSteps (plainLead step) n fit step hstep 1 * step, false⟩

/-- The cut of a text prompt of `n` rows to at most `fit`, in steps of `step` rows. -/
def cutRows (points : List Nat) (n fit step : Nat) : RowCut :=
  if h : n ≤ fit ∨ step = 0 then ⟨0, 0, false⟩
  else ((wholeStepCut points n fit step).or (markerCut points n fit)).getD
    (plainCut n fit step (by omega))

/-- `p` is the first of the points at row `t` or later. -/
def FirstPoint (points : List Nat) (t p : Nat) : Prop :=
  p ∈ points ∧ t ≤ p ∧ ∀ q ∈ points, t ≤ q → p ≤ q

theorem FirstPoint.mono {points : List Nat} {t t' p p' : Nat} (h : FirstPoint points t p)
    (h' : FirstPoint points t' p') (htt : t ≤ t') : p ≤ p' :=
  h.2.2 p' h'.1 (htt.trans h'.2.1)

theorem firstPoint_of_find? {points : List Nat} (hs : points.Pairwise (· < ·)) {t p : Nat}
    (h : (points.find? fun p => t ≤ p) = some p) : FirstPoint points t p := by
  induction points with
  | nil => cases h
  | cons q qs ih =>
    obtain ⟨hq, hqs⟩ := List.pairwise_cons.mp hs
    rw [List.find?_cons] at h
    split at h
    next hle =>
      obtain rfl := Option.some.inj h
      refine ⟨by simp, by simpa using hle, fun r hr _ => ?_⟩
      rcases List.mem_cons.mp hr with rfl | hr
      · exact Nat.le_refl r
      · exact Nat.le_of_lt (hq r hr)
    next hle =>
      have hle : ¬t ≤ q := by simpa using hle
      obtain ⟨hmem, ht, hleast⟩ := ih hqs h
      refine ⟨List.mem_cons_of_mem _ hmem, ht, fun r hr htr => ?_⟩
      rcases List.mem_cons.mp hr with rfl | hr
      · exact absurd htr hle
      · exact hleast r hr htr

theorem not_firstPoint_of_find? {points : List Nat} {t t' p : Nat}
    (h : (points.find? fun p => t ≤ p) = none) (htt : t ≤ t') : ¬FirstPoint points t' p := by
  intro hp
  have := List.find?_eq_none.mp h p hp.1
  have := hp.2.1
  simp only [decide_eq_true_eq] at *
  omega

theorem stepCut_some {points : List Nat} (hs : points.Pairwise (· < ·)) {lead n fit step j : Nat}
    {hstep : 0 < step} {c : RowCut} (h : stepCut points lead n fit step hstep j = some c) :
    ∃ i p, c = ⟨lead, p, true⟩ ∧ j ≤ i ∧ FirstPoint points (lead + i * step) p ∧ p < n ∧
      lead + (n - p) ≤ fit ∧ ∀ i', j ≤ i' → i' < i → ∀ p', FirstPoint points (lead + i' * step) p' →
        fit < lead + (n - p') := by
  fun_induction stepCut points lead n fit step hstep j with
  | case1 => cases h
  | case2 => cases h
  | case3 j hj p hp hpn hfit =>
    obtain rfl := Option.some.inj h
    exact ⟨j, p, rfl, Nat.le_refl j, firstPoint_of_find? hs hp, by omega, hfit,
      fun i' hi hi' => absurd hi' (by omega)⟩
  | case4 j hj p hp hpn hfit ih =>
    obtain ⟨i, q, hc, hji, hq, hqn, hqfit, hleast⟩ := ih h
    refine ⟨i, q, hc, by omega, hq, hqn, hqfit, fun i' hi hi' p' hp' => ?_⟩
    by_cases heq : i' = j
    · rw [heq] at hp'
      have := (firstPoint_of_find? hs hp).mono hp' (Nat.le_refl _)
      have := hp'.mono (firstPoint_of_find? hs hp) (Nat.le_refl _)
      omega
    · exact hleast i' (by omega) hi' p' hp'
  | case5 => cases h

theorem stepCut_none {points : List Nat} (hs : points.Pairwise (· < ·)) {lead n fit step j : Nat}
    {hstep : 0 < step} (h : stepCut points lead n fit step hstep j = none) :
    ∀ i p, j ≤ i → FirstPoint points (lead + i * step) p → p < n → fit < lead + (n - p) := by
  fun_induction stepCut points lead n fit step hstep j with
  | case1 j hj hp =>
    intro i p hji hfirst
    have := Nat.mul_le_mul_right step hji
    exact absurd hfirst (not_firstPoint_of_find? hp (by omega))
  | case2 j hj p hp hpn =>
    intro i q hji hfirst hqn
    have := Nat.mul_le_mul_right step hji
    have := (firstPoint_of_find? hs hp).mono hfirst (by omega)
    omega
  | case3 => cases h
  | case4 j hj p hp hpn hfit ih =>
    intro i q hji hfirst hqn
    by_cases heq : i = j
    · rw [heq] at hfirst
      have := hfirst.mono (firstPoint_of_find? hs hp) (Nat.le_refl _)
      omega
    · exact ih h i q (by omega) hfirst hqn
  | case5 j hj =>
    intro i p hji hfirst hpn
    have := Nat.mul_le_mul_right step hji
    have := hfirst.2.1
    omega

theorem plainSteps_spec (lead n fit step : Nat) (hstep : 0 < step) (j : Nat) :
    j ≤ plainSteps lead n fit step hstep j ∧
      ¬(lead + plainSteps lead n fit step hstep j * step < n ∧
        fit < lead + (n - (lead + plainSteps lead n fit step hstep j * step))) ∧
      ∀ i, j ≤ i → i < plainSteps lead n fit step hstep j →
        lead + i * step < n ∧ fit < lead + (n - (lead + i * step)) := by
  fun_induction plainSteps lead n fit step hstep j with
  | case1 j hgo ih =>
    obtain ⟨hle, hstop, hleast⟩ := ih
    refine ⟨by omega, hstop, fun i hi hi' => ?_⟩
    by_cases heq : i = j
    · rw [heq]
      exact hgo
    · exact hleast i (by omega) hi'
  | case2 j hstop => exact ⟨Nat.le_refl j, hstop, fun i hi hi' => absurd hi' (by omega)⟩

/-- How a prompt over its room is cut: a whole number of steps past its leading block, at the first
cut point that leaves the room, or whole steps past the plain lead. -/
inductive CutBy (points : List Nat) (n fit step : Nat) : RowCut → Prop
  | whole (front : Nat) (rest : List Nat) (i p : Nat) (head : points = front :: rest)
      (short : front < step) (pos : 1 ≤ i) (first : FirstPoint points (front + i * step) p)
      (inside : p < n) (room : front + (n - p) ≤ fit)
      (least : ∀ i', 1 ≤ i' → i' < i → ∀ p', FirstPoint points (front + i' * step) p' →
        fit < front + (n - p')) : CutBy points n fit step ⟨front, p, true⟩
  | marker (front : Nat) (rest : List Nat) (q : Nat) (head : points = front :: rest)
      (noStep : front < step → ∀ i p, 1 ≤ i → FirstPoint points (front + i * step) p → p < n →
        fit < front + (n - p)) (mem : q ∈ rest) (inside : q < n) (room : front + (n - q) ≤ fit)
      (least : ∀ p ∈ rest, p < q → fit < front + (n - p)) : CutBy points n fit step ⟨front, q, true⟩
  | plain (j : Nat) (noPoint : ∀ front rest, points = front :: rest → front < n → ∀ q ∈ rest, q < n →
        fit < front + (n - q)) (pos : 1 ≤ j)
      (stop : ¬(plainLead step + j * step < n ∧
        fit < plainLead step + (n - (plainLead step + j * step))))
      (least : ∀ i, 1 ≤ i → i < j → plainLead step + i * step < n ∧
        fit < plainLead step + (n - (plainLead step + i * step))) :
      CutBy points n fit step ⟨plainLead step, plainLead step + j * step, false⟩

theorem wholeStepCut_some {points : List Nat} (hs : points.Pairwise (· < ·)) {n fit step : Nat}
    {c : RowCut} (h : wholeStepCut points n fit step = some c) : CutBy points n fit step c := by
  unfold wholeStepCut at h
  split at h
  · cases h
  next front rest =>
    split at h
    next hshort =>
      obtain ⟨i, p, rfl, hi, hfirst, hpn, hfit, hleast⟩ := stepCut_some hs h
      exact .whole front rest i p rfl hshort hi hfirst hpn hfit hleast
    · cases h

theorem wholeStepCut_none {front : Nat} {rest : List Nat} (hs : (front :: rest).Pairwise (· < ·))
    {n fit step : Nat} (h : wholeStepCut (front :: rest) n fit step = none) (hshort : front < step) :
    ∀ i p, 1 ≤ i → FirstPoint (front :: rest) (front + i * step) p → p < n →
      fit < front + (n - p) := by
  unfold wholeStepCut at h
  dsimp only at h
  rw [dif_pos hshort] at h
  exact stepCut_none hs h

theorem mem_takeWhile_lt {points : List Nat} (hs : points.Pairwise (· < ·)) {n q : Nat} :
    q ∈ points.takeWhile (· < n) ↔ q ∈ points ∧ q < n := by
  induction points with
  | nil => simp
  | cons p ps ih =>
    obtain ⟨hp, hps⟩ := List.pairwise_cons.mp hs
    rw [List.takeWhile_cons]
    split
    next hlt =>
      have hlt : p < n := by simpa using hlt
      rw [List.mem_cons, List.mem_cons, ih hps]
      constructor
      · rintro (rfl | ⟨hq, hqn⟩)
        · exact ⟨Or.inl rfl, hlt⟩
        · exact ⟨Or.inr hq, hqn⟩
      · rintro ⟨rfl | hq, hqn⟩
        · exact Or.inl rfl
        · exact Or.inr ⟨hq, hqn⟩
    next hlt =>
      have hlt : ¬p < n := by simpa using hlt
      constructor
      · intro h
        cases h
      · rintro ⟨hq, hqn⟩
        rcases List.mem_cons.mp hq with rfl | hq
        · exact absurd hqn hlt
        · have := hp q hq
          omega

theorem markerCut_some {points : List Nat} (hs : points.Pairwise (· < ·)) {n fit step : Nat}
    {c : RowCut} (hw : wholeStepCut points n fit step = none) (h : markerCut points n fit = some c) :
    CutBy points n fit step c := by
  unfold markerCut at h
  split at h
  · cases h
  next front rest =>
    split at h
    next hfront =>
      obtain ⟨q, hq, rfl⟩ := Option.map_eq_some_iff.mp h
      obtain ⟨-, hrest⟩ := List.pairwise_cons.mp hs
      obtain ⟨hroom, as, bs, hsplit, hbefore⟩ := List.find?_eq_some_iff_append.mp hq
      have hmem := (mem_takeWhile_lt hrest).mp (List.mem_of_find?_eq_some hq)
      refine .marker front rest q rfl (wholeStepCut_none hs hw) hmem.1 hmem.2
        (by simpa using hroom) fun p hp hpq => ?_
      have hin : p ∈ rest.takeWhile (· < n) :=
        (mem_takeWhile_lt hrest).mpr ⟨hp, Nat.lt_trans hpq hmem.2⟩
      have hsorted : (rest.takeWhile (· < n)).Pairwise (· < ·) :=
        hrest.sublist (List.takeWhile_sublist _)
      rw [hsplit] at hin hsorted
      obtain ⟨-, htail, -⟩ := List.pairwise_append.mp hsorted
      rcases List.mem_append.mp hin with hin | hin
      · simpa using hbefore p hin
      · rcases List.mem_cons.mp hin with rfl | hin
        · omega
        · have := (List.pairwise_cons.mp htail).1 p hin
          omega
    · cases h

theorem markerCut_none {front : Nat} {rest : List Nat} (hs : (front :: rest).Pairwise (· < ·))
    {n fit : Nat} (h : markerCut (front :: rest) n fit = none) (hfront : front < n) :
    ∀ q ∈ rest, q < n → fit < front + (n - q) := by
  unfold markerCut at h
  dsimp only at h
  rw [if_pos hfront, Option.map_eq_none_iff, List.find?_eq_none] at h
  intro q hq hqn
  have := h q ((mem_takeWhile_lt (List.pairwise_cons.mp hs).2).mpr ⟨hq, hqn⟩)
  simpa using this

/-- A prompt over its room is cut in one of the three ways. -/
theorem cutRows_cutBy {points : List Nat} (hs : points.Pairwise (· < ·)) {n fit step : Nat}
    (hn : fit < n) (hstep : 0 < step) :
    CutBy points n fit step (cutRows points n fit step) := by
  unfold cutRows
  rw [dif_neg (by omega)]
  cases hw : wholeStepCut points n fit step with
  | some c => exact wholeStepCut_some hs hw
  | none =>
    rw [Option.none_or]
    cases hm : markerCut points n fit with
    | some c => exact markerCut_some hs hw hm
    | none =>
      obtain ⟨hpos, hstop, hleast⟩ := plainSteps_spec (plainLead step) n fit step hstep 1
      refine .plain _ (fun front rest heq hfront => ?_) hpos hstop hleast
      subst heq
      exact markerCut_none hs hm hfront

/-- A cut that leaves rows keeps at most the room, its leading block first, and at a marker it keeps
from cut points. -/
theorem CutBy.window {points : List Nat} (hs : points.Pairwise (· < ·)) {n fit step : Nat}
    {c : RowCut} (h : CutBy points n fit step c) :
    (c.fromRow < n → c.lead + (n - c.fromRow) ≤ fit) ∧ c.lead ≤ c.fromRow ∧
      (c.atMarker = true → c.lead ∈ points ∧ c.fromRow ∈ points) := by
  cases h with
  | whole front rest i p head _ _ first _ room _ =>
    have := first.2.1
    exact ⟨fun _ => room, by dsimp only; omega, fun _ => ⟨by simp [head], first.1⟩⟩
  | marker front rest q head _ mem _ room _ =>
    subst head
    have := (List.pairwise_cons.mp hs).1 q mem
    exact ⟨fun _ => room, Nat.le_of_lt this, fun _ => ⟨by simp, List.mem_cons_of_mem _ mem⟩⟩
  | plain j _ _ stop _ =>
    refine ⟨fun hlt => ?_, Nat.le_add_right _ _, fun hm => by cases hm⟩
    dsimp only at hlt ⊢
    omega

/-- A cut at the first cut point a whole number of steps past its leading block. -/
def WholeStep (points : List Nat) (step : Nat) (c : RowCut) : Prop :=
  c.atMarker = true ∧ ∃ j, 1 ≤ j ∧ FirstPoint points (c.lead + j * step) c.fromRow

section Growth

variable {points more : List Nat} {n n' fit step : Nat}

theorem FirstPoint.append {t p : Nat} (h : FirstPoint points t p)
    (hmore : ∀ q ∈ more, p ≤ q) : FirstPoint (points ++ more) t p := by
  refine ⟨List.mem_append_left _ h.1, h.2.1, fun q hq htq => ?_⟩
  rcases List.mem_append.mp hq with hq | hq
  · exact h.2.2 q hq htq
  · exact hmore q hq

theorem FirstPoint.of_append {t p : Nat} (h : FirstPoint (points ++ more) t p)
    (hmore : ∀ q ∈ more, p < q) : FirstPoint points t p := by
  refine ⟨?_, h.2.1, fun q hq => h.2.2 q (List.mem_append_left _ hq)⟩
  rcases List.mem_append.mp h.1 with hp | hp
  · exact hp
  · exact absurd (hmore p hp) (Nat.lt_irrefl p)

/-- The points of a longer prompt begin with those of the shorter, and the rest lie past it. -/
theorem exists_more (hs : points.Pairwise (· < ·)) (n : Nat) :
    ∃ more, points = points.filter (· ≤ n) ++ more ∧ ∀ q ∈ more, n < q := by
  induction points with
  | nil => exact ⟨[], rfl, by simp⟩
  | cons p ps ih =>
    obtain ⟨hp, hps⟩ := List.pairwise_cons.mp hs
    rw [List.filter_cons]
    split
    next hle =>
      obtain ⟨more, heq, hmore⟩ := ih hps
      exact ⟨more, by rw [List.cons_append, ← heq], hmore⟩
    next hle =>
      have hle : ¬p ≤ n := by simpa using hle
      have hnone : ps.filter (· ≤ n) = [] := by
        rw [List.filter_eq_nil_iff]
        intro q hq
        have := hp q hq
        simp only [decide_eq_true_eq]
        omega
      refine ⟨p :: ps, by rw [hnone, List.nil_append], fun q hq => ?_⟩
      rcases List.mem_cons.mp hq with rfl | hq
      · omega
      · have := hp q hq
        omega

/-- What the cut of a longer prompt says of the shorter's. -/
def Stays (points : List Nat) (n n' fit step : Nat) (c c' : RowCut) : Prop :=
  (c.fromRow ≤ c'.fromRow ∨ c.atMarker = true ∧ c'.atMarker = false ∨
    c.atMarker = false ∧ c'.atMarker = true ∧ n ≤ c.fromRow) ∧
  (c.lead + (n' - c.fromRow) ≤ fit → c'.fromRow = c.fromRow ∨
    c'.atMarker = true ∧ n ≤ c'.fromRow ∧ ¬WholeStep points step c)

/-- Where the longer prompt's leading block ends within the shorter, it is the shorter's. -/
theorem head_of_append {front : Nat} {rest : List Nat} (heq : points ++ more = front :: rest)
    (hmore : ∀ q ∈ more, n < q) (hfront : front ≤ n) :
    ∃ tail, points = front :: tail ∧ rest = tail ++ more := by
  cases points with
  | nil =>
    rw [List.nil_append] at heq
    have := hmore front (by simp [heq])
    omega
  | cons p ps =>
    obtain ⟨rfl, hrest⟩ := List.cons.inj heq
    exact ⟨ps, rfl, hrest.symm⟩

/-- A marker's cut of the longer prompt keeps the shorter's leading block. -/
theorem tail_of_append {front : Nat} {rest : List Nat} (heq : points ++ more = front :: rest)
    (hs : (points ++ more).Pairwise (· < ·)) (hmore : ∀ q ∈ more, n < q) (hfront : front ≤ n) :
    ∃ tail, points = front :: tail ∧ (∀ q, q ∈ points → front < q → q ∈ tail ∧ q ∈ rest) ∧
      (∀ q ∈ rest, q ≤ n → q ∈ tail) ∧ ∀ q ∈ rest, front < q := by
  obtain ⟨tail, rfl, rfl⟩ := head_of_append heq hmore hfront
  refine ⟨tail, rfl, fun q hq hlt => ?_, fun q hq hle => ?_, fun q hq => ?_⟩
  · rcases List.mem_cons.mp hq with rfl | hq
    · omega
    · exact ⟨hq, List.mem_append_left _ hq⟩
  · rcases List.mem_append.mp hq with hq | hq
    · exact hq
    · have := hmore q hq
      omega
  · exact (List.pairwise_cons.mp (heq ▸ hs)).1 q hq

theorem CutBy.whole_stays {front p i : Nat} {rest : List Nat} {c' : RowCut} (hmore : ∀ q ∈ more, n < q) (hn : fit < n)
    (hnn : n ≤ n') (head : points = front :: rest) (short : front < step) (pos : 1 ≤ i)
    (first : FirstPoint points (front + i * step) p) (inside : p < n)
    (least : ∀ i', 1 ≤ i' → i' < i → ∀ p', FirstPoint points (front + i' * step) p' →
      fit < front + (n - p'))
    (h' : CutBy (points ++ more) n' fit step c') :
    Stays points n n' fit step ⟨front, p, true⟩ c' := by
  have hfirst : FirstPoint (points ++ more) (front + i * step) p :=
    first.append fun q hq => by have := hmore q hq; omega
  have hfrontp : front < p := by
    have := first.2.1
    have := Nat.mul_le_mul_right step pos
    omega
  cases h' with
  | whole front' rest' i' p' head' _ pos' first' _ room' least' =>
    obtain ⟨tail, htail, -⟩ := head_of_append head' hmore (show front' ≤ n by omega)
    obtain rfl : front = front' := (List.cons.inj (head.symm.trans htail)).1
    refine ⟨Or.inl ?_, fun hfit => Or.inl ?_⟩
    · show p ≤ p'
      by_contra hlt
      have hq := first'.of_append fun q hq => by have := hmore q hq; omega
      have hii : i' < i := by
        by_contra hge
        have hmul := Nat.mul_le_mul_right step (show i ≤ i' by omega)
        have := first.mono hq (by omega)
        omega
      have := least i' pos' hii p' hq
      omega
    · show p' = p
      rcases Nat.lt_trichotomy i' i with hlt | rfl | hlt
      · have hmul := Nat.mul_le_mul_right step (Nat.le_of_lt hlt)
        have hle := first'.mono hfirst (by omega)
        have := least i' pos' hlt p' (first'.of_append fun q hq => by have := hmore q hq; omega)
        omega
      · exact Nat.le_antisymm (first'.mono hfirst (Nat.le_refl _)) (hfirst.mono first' (Nat.le_refl _))
      · have := least' i pos hlt p hfirst
        dsimp only at hfit
        omega
  | marker front' rest' q head' noStep' mem' _ room' least' =>
    obtain ⟨tail, htail, -⟩ := head_of_append head' hmore (show front' ≤ n by omega)
    obtain rfl : front = front' := (List.cons.inj (head.symm.trans htail)).1
    have hpast := noStep' short i p pos hfirst (by omega)
    refine ⟨Or.inl ?_, fun hfit => ?_⟩
    · show p ≤ q
      omega
    · dsimp only at hfit
      omega
  | plain j noPoint' _ _ _ =>
    refine ⟨Or.inr (Or.inl ⟨rfl, rfl⟩), fun hfit => ?_⟩
    have hmem : p ∈ rest ++ more := by
      have := first.1
      rw [head] at this
      rcases List.mem_cons.mp this with rfl | hp
      · omega
      · exact List.mem_append_left _ hp
    have := noPoint' front (rest ++ more) (by rw [head]; rfl) (by omega) p hmem (by omega)
    dsimp only at hfit
    omega

theorem CutBy.marker_stays {front q : Nat} {rest : List Nat} {c' : RowCut}
    (hs : (points ++ more).Pairwise (· < ·)) (hmore : ∀ q ∈ more, n < q) (hn : fit < n)
    (hnn : n ≤ n') (head : points = front :: rest)
    (noStep : front < step → ∀ i p, 1 ≤ i → FirstPoint points (front + i * step) p → p < n →
      fit < front + (n - p))
    (mem : q ∈ rest) (inside : q < n) (room : front + (n - q) ≤ fit)
    (least : ∀ p ∈ rest, p < q → fit < front + (n - p))
    (h' : CutBy (points ++ more) n' fit step c') :
    Stays points n n' fit step ⟨front, q, true⟩ c' := by
  have hq : q ∈ points := by
    rw [head]
    exact List.mem_cons_of_mem _ mem
  cases h' with
  | whole front' rest' i' p' head' short' pos' first' _ room' _ =>
    obtain ⟨tail, htail, -⟩ := head_of_append head' hmore (show front' ≤ n by omega)
    obtain rfl : front = front' := (List.cons.inj (head.symm.trans htail)).1
    have hpast : n ≤ p' := by
      by_contra hlt
      have := noStep short' i' p' pos'
        (first'.of_append fun q hq => by have := hmore q hq; omega) (by omega)
      omega
    refine ⟨Or.inl (show q ≤ p' by omega), fun _ => Or.inr ⟨rfl, hpast, ?_⟩⟩
    rintro ⟨-, j, hj, hfirst⟩
    have := noStep short' j q hj hfirst inside
    omega
  | marker front' rest' q' head' noStep' mem' inside' room' least' =>
    obtain ⟨tail, htail, hin, hback, -⟩ :=
      tail_of_append head' hs hmore (show front' ≤ n by omega)
    obtain ⟨rfl, rfl⟩ := List.cons.inj (head.symm.trans htail)
    have hnot : ¬q' < q := by
      intro hlt
      have := least q' (hback q' mem' (by omega)) hlt
      omega
    refine ⟨Or.inl (show q ≤ q' by omega), fun hfit => Or.inl ?_⟩
    show q' = q
    by_contra hne
    have hfront : front < q := by
      have := (List.pairwise_cons.mp (head ▸ hs.sublist (List.sublist_append_left points more))).1
      exact this q mem
    have := least' q (hin q hq hfront).2 (by omega)
    dsimp only at hfit
    omega
  | plain j noPoint' _ _ _ =>
    have := noPoint' front (rest ++ more) (by rw [head]; rfl) (by omega) q
      (List.mem_append_left _ mem) (by omega)
    refine ⟨Or.inr (Or.inl ⟨rfl, rfl⟩), fun hfit => ?_⟩
    dsimp only at hfit
    omega

theorem CutBy.plain_stays {j : Nat} {c' : RowCut}
    (hs : (points ++ more).Pairwise (· < ·)) (hmore : ∀ q ∈ more, n < q) (hn : fit < n)
    (hnn : n ≤ n')
    (noPoint : ∀ front rest, points = front :: rest → front < n → ∀ q ∈ rest, q < n →
      fit < front + (n - q))
    (pos : 1 ≤ j)
    (least : ∀ i, 1 ≤ i → i < j → plainLead step + i * step < n ∧
      fit < plainLead step + (n - (plainLead step + i * step)))
    (h' : CutBy (points ++ more) n' fit step c') :
    Stays points n n' fit step ⟨plainLead step, plainLead step + j * step, false⟩ c' := by
  have hmarked : ∀ front p, n ≤ p →
      Stays points n n' fit step ⟨plainLead step, plainLead step + j * step, false⟩
        ⟨front, p, true⟩ := by
    intro front p hpast
    refine ⟨?_, fun _ => Or.inr ⟨rfl, hpast, fun hw => by cases hw.1⟩⟩
    by_cases hlt : plainLead step + j * step < n
    · exact Or.inl (show plainLead step + j * step ≤ p by omega)
    · exact Or.inr (Or.inr ⟨rfl, rfl, Nat.le_of_not_lt hlt⟩)
  have hold : ∀ front rest p, points ++ more = front :: rest → p ∈ rest →
      front + (n' - p) ≤ fit → n ≤ p := by
    intro front rest p head hp room
    obtain ⟨tail, htail, -, hback, hfront⟩ := tail_of_append head hs hmore (show front ≤ n by omega)
    by_contra hlt
    have := hfront p hp
    have := noPoint front tail htail (by omega) p (hback p hp (by omega)) (by omega)
    omega
  cases h' with
  | whole front' rest' i' p' head' short' pos' first' _ room' _ =>
    apply hmarked
    have hmem := first'.1
    rw [head'] at hmem
    apply hold front' rest' p' head' _ room'
    have := first'.2.1
    have := Nat.mul_le_mul_right step pos'
    rcases List.mem_cons.mp hmem with hp | hp
    · omega
    · exact hp
  | marker front' rest' q head' _ mem' _ room' _ =>
    exact hmarked front' q (hold front' rest' q head' mem' room')
  | plain j' _ pos' stop' least' =>
    have hle : j ≤ j' := by
      by_contra hlt
      have := least j' pos' (by omega)
      omega
    refine ⟨Or.inl ?_, fun hfit => Or.inl ?_⟩
    · have := Nat.mul_le_mul_right step hle
      show plainLead step + j * step ≤ plainLead step + j' * step
      omega
    · have heq : j' = j := by
        by_contra hne
        have := least' j pos (by omega)
        dsimp only at hfit
        omega
      rw [heq]

/-- The cut of a longer prompt is never before the shorter's, unless only one of the two is at cut
points, and is the shorter's while that leaves the room, unless a new cut point serves. -/
theorem CutBy.stays {c c' : RowCut} (hs : (points ++ more).Pairwise (· < ·))
    (hmore : ∀ q ∈ more, n < q) (hn : fit < n) (hnn : n ≤ n') (h : CutBy points n fit step c)
    (h' : CutBy (points ++ more) n' fit step c') : Stays points n n' fit step c c' := by
  cases h with
  | whole front rest i p head short pos first inside _ least =>
    exact whole_stays hmore hn hnn head short pos first inside least h'
  | marker front rest q head noStep mem inside room least =>
    exact marker_stays hs hmore hn hnn head noStep mem inside room least h'
  | plain j noPoint pos _ least => exact plain_stays hs hmore hn hnn noPoint pos least h'

end Growth

/-- A cut keeps a window that fits, from cut points at a marker; and the cut of a longer prompt is
never before the shorter's, unless only one of the two is at cut points, and is the shorter's while
that leaves the room, unless a cut point past the shorter prompt serves. -/
theorem cutRows_stays {points : List Nat} {n n' fit step : Nat} (hs : points.Pairwise (· < ·))
    (hn : fit < n) (hnn : n ≤ n') (hstep : 0 < step) :
    ((cutRows points n' fit step).fromRow < n' →
      (cutRows points n' fit step).lead + (n' - (cutRows points n' fit step).fromRow) ≤ fit ∧
        (cutRows points n' fit step).lead ≤ (cutRows points n' fit step).fromRow ∧
        ((cutRows points n' fit step).atMarker = true →
          (cutRows points n' fit step).lead ∈ points ∧
            (cutRows points n' fit step).fromRow ∈ points)) ∧
      Stays (points.filter (· ≤ n)) n n' fit step (cutRows (points.filter (· ≤ n)) n fit step)
        (cutRows points n' fit step) := by
  have hlong := cutRows_cutBy hs (show fit < n' by omega) hstep
  obtain ⟨hroom, hlead, hmarker⟩ := hlong.window hs
  refine ⟨fun hlt => ⟨hroom hlt, hlead, hmarker⟩, ?_⟩
  have hsorted : (points.filter (· ≤ n)).Pairwise (· < ·) := hs.sublist List.filter_sublist
  have hshort := cutRows_cutBy hsorted hn hstep
  obtain ⟨more, heq, hmore⟩ := exists_more hs n
  generalize cutRows points n' fit step = c' at *
  generalize points.filter (· ≤ n) = before at *
  subst heq
  exact hshort.stays hs hmore hn hnn hlong

theorem cutRows_stays_one_point :
    Stays [9, 26] 37 38 20 10 (cutRows [9, 26] 37 20 10) (cutRows [9, 26] 38 20 10) :=
  (cutRows_stays (show [9, 26].Pairwise (· < ·) by decide) (show 20 < 37 by omega)
    (show 37 ≤ 38 by omega) (show 0 < 10 by omega)).2

/-- One row more and the cut goes back, to whole steps past another lead; and a cut that still fits
moves on where the new rows bring a cut point a whole step on. -/
theorem not_cutRows_stays :
    (¬∀ (points : List Nat) (n n' fit step : Nat), points.Pairwise (· < ·) → fit < n → n ≤ n' →
      0 < step → (cutRows (points.filter (· ≤ n)) n fit step).fromRow ≤
        (cutRows points n' fit step).fromRow) ∧
    ¬∀ (points : List Nat) (n n' fit step : Nat), points.Pairwise (· < ·) → fit < n → n ≤ n' →
      0 < step →
      (cutRows (points.filter (· ≤ n)) n fit step).lead +
        (n' - (cutRows (points.filter (· ≤ n)) n fit step).fromRow) ≤ fit →
      (cutRows points n' fit step).fromRow =
        (cutRows (points.filter (· ≤ n)) n fit step).fromRow := by
  refine ⟨fun h => ?_, fun h => ?_⟩
  · have hback := h [9, 26] 37 38 20 10 (by decide) (by decide) (by decide) (by decide)
    revert hback
    decide +kernel
  · have hmoved := h [2, 13, 16, 33] 32 34 20 10 (by decide) (by decide) (by decide) (by decide)
    revert hmoved
    decide +kernel

end Llmx
