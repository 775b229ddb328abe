import Llmx.PromptSlice

namespace Llmx

namespace Slicing

theorem halvings_mono {a b : Nat} (h : a ≤ b) : halvings a ≤ halvings b := by
  induction b using Nat.strongRecOn generalizing a with
  | _ b ih =>
    rw [halvings, halvings.eq_1 b]
    split
    · exact Nat.zero_le _
    next ha =>
      rw [if_neg (by omega)]
      exact Nat.succ_le_succ (ih (b / 2) (by omega) (Nat.div_le_div_right h))

theorem depthBand_mono {a b : Nat} (h : a ≤ b) : depthBand a ≤ depthBand b :=
  halvings_mono (Nat.div_le_div_right h)

theorem equal_le_iff {rows n r : Nat} (hn : 0 < n) : equal rows n ≤ r ↔ rows ≤ n * r := by
  unfold equal
  rw [← Nat.lt_succ_iff, Nat.div_lt_iff_lt_mul hn, Nat.succ_mul, Nat.mul_comm r n]
  omega

theorem equal_anti {rows n m : Nat} (hn : 0 < n) (h : n ≤ m) : equal rows m ≤ equal rows n := by
  rw [equal_le_iff (by omega)]
  have hrows := (equal_le_iff hn).mp (Nat.le_refl (equal rows n))
  exact hrows.trans (Nat.mul_le_mul_right _ h)

theorem equal_pos {rows n : Nat} (hrows : 0 < rows) (hn : 0 < n) : 0 < equal rows n := by
  by_contra hno
  have hle : rows ≤ n * 0 := (equal_le_iff hn).mp (by omega)
  omega

theorem equal_le {rows n : Nat} (hn : 0 < n) : equal rows n ≤ rows :=
  (equal_le_iff hn).mpr (Nat.le_mul_of_pos_left rows hn)

/-- One slice more is left to run before a row than past its slice. -/
theorem equal_step {left r : Nat} (hleft : 0 < left) (hr : 0 < r) :
    equal left r = equal (left - r) r + 1 := by
  unfold equal
  by_cases hle : r ≤ left
  · have hsplit : left + r - 1 = (left - r + r - 1) + r := by omega
    rw [hsplit, Nat.add_div_right _ hr]
  · have hone : left + r - 1 = left - 1 + r := by omega
    have hzero : left - r = 0 := by omega
    rw [hone, Nat.add_div_right _ hr, hzero, Nat.div_eq_of_lt (by omega : left - 1 < r),
      Nat.div_eq_of_lt (by omega : 0 + r - 1 < r)]

theorem equal_zero {r : Nat} (hr : 0 < r) : equal 0 r = 0 := by
  unfold equal
  exact Nat.div_eq_of_lt (by omega)

/-- No cost of a stage is negative. -/
def NonNeg (lines : List StageLine) : Prop :=
  ∀ l ∈ lines, 0 ≤ l.fixedMs ∧ 0 ≤ l.rowMs

theorem StageLine.at_nonneg {l : StageLine} (h : 0 ≤ l.fixedMs ∧ 0 ≤ l.rowMs) (rows : Nat) :
    0 ≤ l.at rows := by
  unfold StageLine.at
  have hrow := mul_nonneg (Nat.cast_nonneg (α := ℚ) rows) h.2
  linarith [h.1]

/-- The last stage finishes last, and at no negative time. -/
def LastEnds (finish : List ℚ) : Prop :=
  0 ≤ finish.getLastD 0 ∧ ∀ f ∈ finish, f ≤ finish.getLastD 0

theorem length_pipelineFrom (prev : ℚ) (finish : List ℚ) (lines : List StageLine) (rows : Nat) :
    (pipelineFrom prev finish lines rows).length = finish.length := by
  induction finish generalizing prev lines with
  | nil => simp [pipelineFrom]
  | cons f finish ih =>
    cases lines with
    | nil => simp [pipelineFrom]
    | cons l lines => simp [pipelineFrom, ih]

/-- A stage runs a slice after what it already runs. -/
theorem pipelineFrom_runs (prev : ℚ) {finish : List ℚ} {lines : List StageLine} (rows : Nat)
    (hlen : lines.length = finish.length) {s : Nat} (hs : s < finish.length) :
    finish.getD s 0 + (lines.getD s default).at rows ≤
      (pipelineFrom prev finish lines rows).getD s 0 := by
  induction finish generalizing prev lines s with
  | nil => simp at hs
  | cons f finish ih =>
    cases lines with
    | nil => simp at hlen
    | cons l lines =>
      cases s with
      | zero =>
        simp only [pipelineFrom, List.getD_cons_zero]
        linarith [le_max_right prev f]
      | succ s =>
        simp only [pipelineFrom, List.getD_cons_succ]
        exact ih _ (by simpa using hlen) (by simpa using hs)

theorem pipelineFrom_ends (prev : ℚ) {finish : List ℚ} {lines : List StageLine} (rows : Nat)
    (hlen : lines.length = finish.length) (hcost : NonNeg lines) :
    prev ≤ (pipelineFrom prev finish lines rows).getLastD prev ∧
      ∀ f ∈ pipelineFrom prev finish lines rows,
        f ≤ (pipelineFrom prev finish lines rows).getLastD prev := by
  induction finish generalizing prev lines with
  | nil => simp [pipelineFrom]
  | cons f finish ih =>
    cases lines with
    | nil => simp at hlen
    | cons l lines =>
      have hl := StageLine.at_nonneg (hcost l List.mem_cons_self) rows
      have hprev := le_max_left prev f
      have hlen' : lines.length = finish.length := by simpa using hlen
      obtain ⟨hlast, hall⟩ := ih (max prev f + l.at rows) hlen'
        (fun l' hl' => hcost l' (List.mem_cons_of_mem _ hl'))
      simp only [pipelineFrom, List.getLastD_cons]
      refine ⟨by linarith, fun g hg => ?_⟩
      rcases List.mem_cons.mp hg with rfl | hg
      · exact hlast
      · exact hall g hg

theorem pipelineAdd_zero (finish : List ℚ) (lines : List StageLine) (rows : Nat) :
    pipelineAdd finish lines rows 0 = pipelineFrom 0 finish lines rows := by
  simp [pipelineAdd]

theorem leastOf_le {x : ℚ} {xs : List ℚ} (h : x ∈ xs) : leastOf xs ≤ x := by
  have hfold : ∀ (l : List ℚ) (a : ℚ), l.foldl min a ≤ a ∧ ∀ y ∈ l, l.foldl min a ≤ y := by
    intro l
    induction l with
    | nil => simp
    | cons b l ih =>
      intro a
      obtain ⟨hfirst, hrest⟩ := ih (min a b)
      refine ⟨hfirst.trans (min_le_left a b), fun y hy => ?_⟩
      rcases List.mem_cons.mp hy with rfl | hy
      · exact hfirst.trans (min_le_right a y)
      · exact hrest y hy
  cases xs with
  | nil => simp at h
  | cons a xs =>
    rcases List.mem_cons.mp h with rfl | h
    · exact (hfold xs x).1
    · exact (hfold xs a).2 x h

theorem le_leastOf {xs : List ℚ} (h : ∀ x ∈ xs, 0 ≤ x) : 0 ≤ leastOf xs := by
  have hfold : ∀ (l : List ℚ) (a : ℚ), 0 ≤ a → (∀ y ∈ l, 0 ≤ y) → 0 ≤ l.foldl min a := by
    intro l
    induction l with
    | nil => exact fun a ha _ => ha
    | cons b l ih =>
      intro a ha hall
      exact ih (min a b) (le_min ha (hall b List.mem_cons_self))
        (fun y hy => hall y (List.mem_cons_of_mem _ hy))
  cases xs with
  | nil => exact le_refl 0
  | cons a xs =>
    exact hfold xs a (h a List.mem_cons_self) (fun y hy => h y (List.mem_cons_of_mem _ hy))

theorem foldl_max_le {α : Type} {t : α → ℚ} {x : ℚ} (l : List α) {a : ℚ} :
    l.foldl (fun t' s => max t' (t s)) a ≤ x ↔ a ≤ x ∧ ∀ s ∈ l, t s ≤ x := by
  induction l generalizing a with
  | nil => simp
  | cons s l ih =>
    rw [List.foldl_cons, ih, max_le_iff]
    simp only [List.forall_mem_cons, and_assoc]

/-- Every slice of a cut meets a line of its own for each stage, none of them negative. -/
structure Pricing.Sound (p : Pricing) : Prop where
  stages_pos : 0 < p.stages
  backlog : p.backlog.length = p.stages
  covered : ∀ i < p.rows, p.linesAt i ∈ p.bands
  length : ∀ b ∈ p.bands, b.length = p.stages
  cost : ∀ b ∈ p.bands, NonNeg b

namespace Pricing

variable {p : Pricing}

theorem Sound.getD_nonneg (h : p.Sound) {b : List StageLine} (hb : b ∈ p.bands) {s : Nat}
    (hs : s < p.stages) : 0 ≤ (b.getD s default).fixedMs ∧ 0 ≤ (b.getD s default).rowMs := by
  have hlt : s < b.length := by rw [h.length b hb]; exact hs
  rw [List.getD_eq_getElem _ _ hlt]
  exact h.cost b hb _ (List.getElem_mem hlt)

theorem Sound.fixed_nonneg (h : p.Sound) {s : Nat} (hs : s < p.stages) : 0 ≤ p.fixed s := by
  apply le_leastOf
  intro x hx
  obtain ⟨b, hb, rfl⟩ := List.mem_map.mp hx
  exact (h.getD_nonneg hb hs).1

theorem least_le {n : Nat} {x : ℚ} : p.least n ≤ x ↔
    0 ≤ x ∧ ∀ s < p.stages, p.backlog.getD s 0 + n * p.fixed s + p.row s * p.rows ≤ x := by
  unfold least
  rw [foldl_max_le (t := fun s => p.backlog.getD s 0 + n * p.fixed s + p.row s * p.rows)]
  simp only [List.mem_range]

theorem Sound.least_mono (h : p.Sound) {n m : Nat} (hnm : n ≤ m) : p.least n ≤ p.least m := by
  obtain ⟨hzero, hall⟩ := least_le.mp (le_refl (p.least m))
  refine least_le.mpr ⟨hzero, fun s hs => ?_⟩
  have hcast : (n : ℚ) ≤ m := Nat.cast_le.mpr hnm
  have hmul := mul_le_mul_of_nonneg_right hcast (h.fixed_nonneg hs)
  linarith [hall s hs]

/-- A stage runs every slice left, each for at least its least costs. -/
theorem Sound.run_ends (h : p.Sound) {r : Nat} (hr : 0 < r) (left i : Nat)
    (hleft : left = p.rows - i) (finish : List ℚ) (hlen : finish.length = p.stages) :
    (∀ s < p.stages, finish.getD s 0 + (equal left r : ℚ) * p.fixed s + p.row s * left ≤
      (p.run r i finish).getD s 0) ∧
    (p.run r i finish).length = p.stages ∧
    (i < p.rows ∨ LastEnds finish → LastEnds (p.run r i finish)) := by
  induction left using Nat.strongRecOn generalizing i finish with
  | _ left ih =>
    rw [run]
    split
    next hin =>
      have hmem := h.covered i hin.1
      have hlines : (p.linesAt i).length = finish.length := by rw [h.length _ hmem, hlen]
      rw [pipelineAdd_zero]
      have hlen' : (pipelineFrom 0 finish (p.linesAt i) (min r (p.rows - i))).length =
          p.stages := by rw [length_pipelineFrom, hlen]
      obtain ⟨hruns, hstages, hends⟩ := ih (left - r) (by omega) (i + r) (by omega) _ hlen'
      have hlast := pipelineFrom_ends 0 (min r (p.rows - i)) hlines (h.cost _ hmem)
      refine ⟨fun s hs => ?_, hstages, fun _ => hends (Or.inr hlast)⟩
      have hslice := pipelineFrom_runs 0 (min r (p.rows - i)) hlines (hlen ▸ hs)
      have hfixed : p.fixed s ≤ ((p.linesAt i).getD s default).fixedMs :=
        leastOf_le (List.mem_map_of_mem hmem)
      have hrow : p.row s ≤ ((p.linesAt i).getD s default).rowMs :=
        leastOf_le (List.mem_map_of_mem hmem)
      have hcount : (equal left r : ℚ) = (equal (left - r) r : ℚ) + 1 := by
        rw [equal_step (by omega) hr]
        push_cast
        rfl
      have hrows : (left : ℚ) = ((min r (p.rows - i) : Nat) : ℚ) + ((left - r : Nat) : ℚ) := by
        rw [← Nat.cast_add]
        congr 1
        omega
      have hmul := mul_le_mul_of_nonneg_left hrow
        (Nat.cast_nonneg (α := ℚ) (min r (p.rows - i)))
      have hnext := hruns s hs
      unfold StageLine.at at hslice
      rw [hcount, hrows]
      linarith
    next hout =>
      have hzero : left = 0 := by omega
      subst hzero
      refine ⟨fun s _ => ?_, hlen, fun hor => hor.resolve_left (fun hlt => hout ⟨hlt, hr⟩)⟩
      rw [equal_zero hr]
      simp

/-- No cut ends before its least time, and none at a negative one. -/
theorem Sound.least_le_finish (h : p.Sound) (hrows : 0 < p.rows) {r : Nat} (hr : 0 < r) :
    p.least (equal p.rows r) ≤ p.finish r := by
  obtain ⟨hruns, hlen, hends⟩ := h.run_ends hr p.rows 0 rfl p.backlog h.backlog
  obtain ⟨hzero, hall⟩ := hends (Or.inl hrows)
  refine least_le.mpr ⟨hzero, fun s hs => (hruns s hs).trans ?_⟩
  have hlt : s < (p.run r 0 p.backlog).length := hlen.symm ▸ hs
  rw [List.getD_eq_getElem _ _ hlt]
  exact hall _ (List.getElem_mem hlt)

theorem Sound.finish_nonneg (h : p.Sound) (hrows : 0 < p.rows) {r : Nat} (hr : 0 < r) :
    0 ≤ p.finish r :=
  (least_le.mp (h.least_le_finish hrows hr)).1

/-- The finish of the equal cut into `n`. -/
def cut (p : Pricing) (n : Nat) : ℚ := p.finish (equal p.rows n)

/-- Of the cuts into `n0` slices up to before `n`, `b` is the first that ends earliest. -/
structure FirstBest (p : Pricing) (n0 n b : Nat) : Prop where
  first : n0 ≤ b
  last : b < n
  best : ∀ m, n0 ≤ m → m < n → p.cut b ≤ p.cut m
  before : ∀ m, n0 ≤ m → m < b → p.cut b < p.cut m

theorem FirstBest.extend {n0 n n' b : Nat} (h : p.FirstBest n0 n b) (hn : n ≤ n')
    (hall : ∀ m, n ≤ m → m < n' → p.cut b ≤ p.cut m) : p.FirstBest n0 n' b where
  first := h.first
  last := h.last.trans_le hn
  best := by
    intro m hm hm'
    by_cases hlt : m < n
    · exact h.best m hm hlt
    · exact hall m (by omega) hm'
  before := h.before

/-- Where the search has come to, the cuts before `n` tried. -/
structure Reached (p : Pricing) (n0 n : Nat) (s : Search) : Prop where
  start : n = n0 → s = ⟨-1, 0, 0⟩
  best : n0 < n → ∃ b, p.FirstBest n0 n b ∧ s.best = p.cut b ∧ s.bestR = equal p.rows b
  last : n0 < n → s.last = equal p.rows (n - 1)

/-- Once the least time of a cut is no better, no further cut is. -/
theorem Sound.no_better (h : p.Sound) (hrows : 0 < p.rows) {n m : Nat} (hn : 0 < n)
    (hnm : n ≤ m) {x : ℚ} (hx : x ≤ p.least (equal p.rows (equal p.rows n))) : x ≤ p.cut m := by
  have hpos : 0 < equal p.rows m := equal_pos hrows (by omega)
  have hcount : equal p.rows (equal p.rows n) ≤ equal p.rows (equal p.rows m) :=
    equal_anti hpos (equal_anti hn hnm)
  exact hx.trans ((h.least_mono hcount).trans (h.least_le_finish hrows hpos))

theorem Reached.skip {n0 n : Nat} {s : Search} (h : p.Reached n0 n s) (hlt : n0 < n)
    (hlast : equal p.rows n = s.last) : p.Reached n0 (n + 1) s where
  start := fun he => by omega
  best := by
    intro _
    obtain ⟨b, hb, hbest, hr⟩ := h.best hlt
    refine ⟨b, hb.extend (by omega) ?_, hbest, hr⟩
    intro m hm hm'
    obtain rfl : m = n := by omega
    have hsame : p.cut m = p.cut (m - 1) := by
      unfold cut
      rw [hlast, h.last hlt]
    rw [hsame]
    exact hb.best (m - 1) (by omega) (by omega)
  last := fun _ => hlast.symm

theorem Reached.take (h : p.Sound) (hrows : 0 < p.rows) (hnone : p.increment = none)
    {n0 n : Nat} (hn0 : 0 < n0) (hle : n0 ≤ n) {s : Search} (hs : p.Reached n0 n s) :
    p.Reached n0 (n + 1) (s.take p (equal p.rows n)) := by
  have hexceeds : p.exceeds (equal p.rows n) = false := by
    unfold exceeds
    rw [hnone]
  unfold Search.take
  rw [hexceeds, if_neg Bool.false_ne_true]
  split
  next hbetter =>
    refine ⟨fun he => by omega, fun _ => ⟨n, ?_, rfl, rfl⟩, fun _ => rfl⟩
    have hbefore : ∀ m, n0 ≤ m → m < n → p.cut n < p.cut m := by
      intro m hm hm'
      obtain ⟨b, hb, hbest, -⟩ := hs.best (by omega)
      have hpos : 0 < equal p.rows b := equal_pos hrows (by have := hb.first; omega)
      have hnonneg : 0 ≤ s.best := hbest.symm ▸ h.finish_nonneg hrows hpos
      have hlt := hbetter.resolve_left (not_lt.mpr hnonneg)
      have hm'' := hb.best m hm hm'
      rw [hbest] at hlt
      exact lt_of_lt_of_le hlt hm''
    refine ⟨hle, by omega, fun m hm hm' => ?_, hbefore⟩
    rcases Nat.lt_succ_iff_lt_or_eq.mp hm' with hlt | rfl
    · exact (hbefore m hm hlt).le
    · exact le_refl _
  next hno =>
    rw [not_or, not_lt, not_lt] at hno
    have hlt : n0 < n := by
      rcases Nat.eq_or_lt_of_le hle with he | hlt
      · have hstart := hs.start he.symm
        rw [hstart] at hno
        have hneg : (0 : ℚ) ≤ -1 := hno.1
        linarith
      · exact hlt
    refine ⟨fun he => by omega, fun _ => ?_, fun _ => rfl⟩
    obtain ⟨b, hb, hbest, hr⟩ := hs.best hlt
    refine ⟨b, hb.extend (by omega) ?_, hbest, hr⟩
    intro m hm hm'
    obtain rfl : m = n := by omega
    have hge := hno.2
    rw [hbest] at hge
    exact hge

/-- The search keeps the first best cut of all. -/
theorem Sound.search_best (h : p.Sound) (hrows : 0 < p.rows) (hnone : p.increment = none)
    {n0 : Nat} (hn0 : 0 < n0) (hle0 : n0 ≤ p.rows) (left : Nat) {n : Nat} {s : Search}
    (hleft : left + n = p.rows + 1) (hle : n0 ≤ n) (hs : p.Reached n0 n s) :
    ∃ b, p.FirstBest n0 (p.rows + 1) b ∧ (search p left n s).best = p.cut b ∧
      (search p left n s).bestR = equal p.rows b := by
  induction left generalizing n s with
  | zero =>
    obtain rfl : n = p.rows + 1 := by omega
    exact hs.best (by omega)
  | succ left ih =>
    simp only [search]
    split
    next hstop =>
      have hlt : n0 < n := by
        rcases Nat.eq_or_lt_of_le hle with he | hlt
        · have hstart := hs.start he.symm
          rw [hstart] at hstop
          have hneg : (0 : ℚ) ≤ -1 := hstop.1
          linarith
        · exact hlt
      obtain ⟨b, hb, hbest, hr⟩ := hs.best hlt
      refine ⟨b, hb.extend (by omega) ?_, hbest, hr⟩
      intro m hm _
      rw [← hbest]
      exact h.no_better hrows (by omega) hm hstop.2
    next =>
      rw [if_neg (by simp [hnone])]
      split
      next hlast =>
        apply ih (by omega) (by omega)
        apply hs.skip _ hlast
        rcases Nat.eq_or_lt_of_le hle with he | hlt
        · have hpos : 0 < equal p.rows n := equal_pos hrows (by omega)
          rw [hlast, hs.start he.symm] at hpos
          exact absurd hpos (Nat.lt_irrefl 0)
        · exact hlt
      next => exact ih (by omega) (by omega) (hs.take h hrows hnone hn0 hle)

end Pricing

/-- Whatever the bounds, the best slice is that of a cut tried. -/
theorem search_tried (p : Pricing) {n0 : Nat} (left : Nat) {n : Nat} {s : Search} (hle : n0 ≤ n)
    (hs : s.best < 0 ∨ ∃ m, n0 ≤ m ∧ s.bestR = equal p.rows m) :
    (search p left n s).best < 0 ∨ ∃ m, n0 ≤ m ∧ (search p left n s).bestR = equal p.rows m := by
  induction left generalizing n s with
  | zero => exact hs
  | succ left ih =>
    simp only [search]
    split
    next => exact hs
    next =>
      split
      next => exact hs
      next =>
        split
        next => exact ih (by omega) hs
        next =>
          apply ih (by omega)
          unfold Search.take
          split
          next => exact hs
          next =>
            split
            next => exact Or.inr ⟨n, hle, rfl⟩
            next => exact hs

theorem equal_le_cap {rows cap n : Nat} (hrows : 0 < rows) (hcap : 0 < cap)
    (hn : firstCount rows cap ≤ n) : equal rows n ≤ cap := by
  have hpos : 0 < firstCount rows cap := equal_pos hrows hcap
  rw [equal_le_iff (by omega), Nat.mul_comm]
  exact (equal_le_iff hcap).mp hn

theorem searched_within (p : Pricing) {cap : Nat} (hrows : 0 < p.rows) (hcap : 0 < cap)
    (hfloor : p.floor = min (min p.rows cap) kSliceFloor) :
    1 ≤ searched p cap ∧ searched p cap ≤ min p.rows cap := by
  have hpos : 0 < firstCount p.rows cap := equal_pos hrows hcap
  have htried := search_tried p (p.rows + 1 - firstCount p.rows cap)
    (Nat.le_refl (firstCount p.rows cap)) (s := ⟨-1, 0, 0⟩) (Or.inl (by norm_num))
  simp only [searched]
  split
  next =>
    rw [hfloor]
    unfold kSliceFloor
    omega
  next hno =>
    obtain ⟨m, hm, hr⟩ := htried.resolve_left hno
    have hle := equal_le_cap hrows hcap hm
    have hone : 0 < equal p.rows m := equal_pos hrows (by omega)
    rw [hr]
    omega

theorem Pricing.Sound.searched_best {p : Pricing} (h : p.Sound) (hrows : 0 < p.rows)
    (hnone : p.increment = none) {cap : Nat} (hcap : 0 < cap) :
    ∃ n, p.FirstBest (firstCount p.rows cap) (p.rows + 1) n ∧
      searched p cap = equal p.rows n := by
  have hpos : 0 < firstCount p.rows cap := equal_pos hrows hcap
  have hle : firstCount p.rows cap ≤ p.rows := equal_le hcap
  obtain ⟨n, hn, hbest, hr⟩ := h.search_best hrows hnone hpos hle
    (p.rows + 1 - firstCount p.rows cap) (s := ⟨-1, 0, 0⟩) (by omega) (Nat.le_refl _)
    ⟨fun _ => rfl, fun hlt => absurd hlt (Nat.lt_irrefl _),
      fun hlt => absurd hlt (Nat.lt_irrefl _)⟩
  have hnpos : 0 < n := hpos.trans_le hn.first
  have hnonneg : 0 ≤ p.cut n := h.finish_nonneg hrows (equal_pos hrows hnpos)
  have hmin : equal p.rows n ≤ p.rows := equal_le hnpos
  refine ⟨n, hn, ?_⟩
  simp only [searched]
  rw [hbest, hr, if_neg (not_lt.mpr hnonneg)]
  omega

theorem mem_fillBelow {below b : List StageLine} {bands : List (List StageLine)}
    (h : b ∈ fillBelow below bands) : b = below ∨ b ∈ bands ∧ b ≠ [] := by
  induction bands generalizing below with
  | nil => simp [fillBelow] at h
  | cons c bands ih =>
    simp only [fillBelow] at h
    split at h
    next =>
      rcases List.mem_cons.mp h with rfl | h
      · exact Or.inl rfl
      · rcases ih h with he | ⟨hmem, hne⟩
        · exact Or.inl he
        · exact Or.inr ⟨List.mem_cons_of_mem _ hmem, hne⟩
    next hc =>
      have hne : c ≠ [] := by simpa using hc
      rcases List.mem_cons.mp h with rfl | h
      · exact Or.inr ⟨List.mem_cons_self, hne⟩
      · rcases ih h with rfl | ⟨hmem, hne'⟩
        · exact Or.inr ⟨List.mem_cons_self, hne⟩
        · exact Or.inr ⟨List.mem_cons_of_mem _ hmem, hne'⟩

theorem length_fillBelow (below : List StageLine) (bands : List (List StageLine)) :
    (fillBelow below bands).length = bands.length := by
  induction bands generalizing below with
  | nil => simp [fillBelow]
  | cons b bands ih =>
    simp only [fillBelow]
    split <;> simp [ih]

theorem length_filled (bands : List (List StageLine)) : (filled bands).length = bands.length := by
  cases bands with
  | nil => simp [filled]
  | cons b bands => simp [filled, length_fillBelow]

/-- In every band a slice may start in, the lines of all stages cost nothing negative. -/
def CostsNonNeg (start rows stages : Nat) (lines : Nat → List StageLine) : Prop :=
  ∀ band, depthBand start ≤ band → band ≤ depthBand (start + rows - 1) →
    (lines band).length = stages → NonNeg (lines band)

theorem mem_filled_ownBands {start rows stages : Nat} {lines : Nat → List StageLine}
    {b : List StageLine} (hrows : 0 < rows) (hpriced : Priced start rows stages lines)
    (hstages : 2 ≤ stages) (hb : b ∈ filled (ownBands start rows stages lines)) :
    ∃ band, depthBand start ≤ band ∧ band ≤ depthBand (start + rows - 1) ∧
      b = lines band ∧ b.length = stages := by
  have hown : b ∈ ownBands start rows stages lines ∧ b ≠ [] := by
    unfold ownBands at hb ⊢
    rw [List.range_succ_eq_map, List.map_cons, Nat.add_zero, if_pos hpriced.1] at hb ⊢
    rcases List.mem_cons.mp hb with rfl | hb
    · refine ⟨List.mem_cons_self, fun he => ?_⟩
      have hlen := hpriced.1
      rw [he] at hlen
      simp only [List.length_nil] at hlen
      omega
    · rcases mem_fillBelow hb with rfl | ⟨hmem, hne⟩
      · refine ⟨List.mem_cons_self, fun he => ?_⟩
        have hlen := hpriced.1
        rw [he] at hlen
        simp only [List.length_nil] at hlen
        omega
      · exact ⟨List.mem_cons_of_mem _ hmem, hne⟩
  obtain ⟨hmem, hne⟩ := hown
  obtain ⟨i, hi, rfl⟩ := List.mem_map.mp hmem
  have hlt := List.mem_range.mp hi
  split at hne
  next hlen =>
    have hmono : depthBand start ≤ depthBand (start + rows - 1) := depthBand_mono (by omega)
    rw [if_pos hlen]
    exact ⟨depthBand start + i, by omega, by omega, rfl, hlen⟩
  next => exact absurd rfl hne

theorem pricing_sound {start rows stages : Nat} {lines : Nat → List StageLine} (cap : Nat)
    (backlog : List ℚ) (increment : Option ℚ) (hrows : 0 < rows) (hstages : 2 ≤ stages)
    (hpriced : Priced start rows stages lines) (hcost : CostsNonNeg start rows stages lines) :
    (pricing start rows stages lines cap backlog increment).Sound where
  stages_pos := by
    show 0 < stages
    omega
  backlog := by
    show ((backlog ++ List.replicate stages 0).take stages).length = stages
    simp
  covered := by
    intro i hi
    have hlast : depthBand (start + i) ≤ depthBand (start + rows - 1) := by
      apply depthBand_mono
      have hlt : i < rows := hi
      omega
    have hlt : depthBand (start + i) - depthBand start <
        (filled (ownBands start rows stages lines)).length := by
      rw [length_filled, ownBands, List.length_map, List.length_range]
      omega
    show (filled (ownBands start rows stages lines)).getD
      (depthBand (start + i) - depthBand start) [] ∈ filled (ownBands start rows stages lines)
    rw [List.getD_eq_getElem _ _ hlt]
    exact List.getElem_mem hlt
  length := by
    intro b hb
    obtain ⟨-, -, -, -, hlen⟩ := mem_filled_ownBands hrows hpriced hstages hb
    exact hlen
  cost := by
    intro b hb
    obtain ⟨band, hlo, hhi, rfl, hlen⟩ := mem_filled_ownBands hrows hpriced hstages hb
    exact hcost band hlo hhi hlen

theorem promptSlice_within (start : Nat) {rows : Nat} (stages : Nat)
    (lines : Nat → List StageLine) (cap : Nat) (backlog : List ℚ) (increment : Option ℚ)
    (hrows : 0 < rows) :
    1 ≤ promptSlice start rows stages lines cap backlog increment ∧
      promptSlice start rows stages lines cap backlog increment ≤ min rows (max 1 cap) := by
  unfold promptSlice
  rw [if_neg (by omega)]
  split
  next => omega
  next hstages =>
    split
    next =>
      exact searched_within (pricing start rows stages lines (max 1 cap) backlog increment) hrows
        (by omega) rfl
    next =>
      have hpos : 0 < equal rows (2 * stages) := equal_pos hrows (by omega)
      omega

end Slicing

end Llmx
