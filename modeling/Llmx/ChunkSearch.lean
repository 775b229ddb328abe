import Llmx.PriceTable
import Mathlib.Data.Finset.Card
import Mathlib.Data.Finset.Range
import Mathlib.Data.Nat.Cast.Order.Ring

namespace Llmx

namespace PriceTable

/-- What the bracket of slices measured against a target says of them. -/
structure Bracket.Of (target : ℚ) (slices : List (Nat × ℚ)) (b : Bracket) : Prop where
  any : b.any = true ↔ slices ≠ []
  over_target : 0 < b.hi → ∃ ms, (b.hi, ms) ∈ slices ∧ target < ms
  within : ∀ e ∈ slices, 0 < e.1 → b.hi = 0 ∨ e.1 < b.hi → e.2 ≤ target
  lo_within : 0 < b.lo → ∃ ms, (b.lo, ms) ∈ slices ∧ ms ≤ target ∧ (b.hi = 0 ∨ b.lo < b.hi)
  lo_most : ∀ e ∈ slices, e.2 ≤ target → b.hi = 0 ∨ e.1 < b.hi → e.1 ≤ b.lo

theorem high_spec (target : ℚ) (slices : List (Nat × ℚ))
    (h : slices.Pairwise fun a b => a.1 < b.1) :
    let b := slices.foldl (Bracket.high target) ⟨0, 0, 0, false⟩
    (b.any = true ↔ slices ≠ []) ∧ b.lo = 0 ∧
      (0 < b.hi → ∃ ms, (b.hi, ms) ∈ slices ∧ target < ms) ∧
      ∀ e ∈ slices, 0 < e.1 → b.hi = 0 ∨ e.1 < b.hi → e.2 ≤ target := by
  induction slices using List.reverseRecOn with
  | nil => simp
  | append_singleton slices a ih =>
    obtain ⟨hfront, -, hlast⟩ := List.pairwise_append.mp h
    obtain ⟨-, hlo, hhi, hwithin⟩ := ih hfront
    simp only [List.foldl_append, List.foldl_cons, List.foldl_nil]
    generalize slices.foldl (Bracket.high target) ⟨0, 0, 0, false⟩ = b at *
    unfold Bracket.high
    split
    next hover =>
      obtain ⟨hms, hzero⟩ := hover
      refine ⟨by simp, hlo, fun _ => ⟨a.2, by simp, hms⟩, fun e he hpos hlt => ?_⟩
      dsimp only at hlt
      rcases List.mem_append.mp he with he | he
      · exact hwithin e he hpos (Or.inl hzero)
      · obtain rfl := List.mem_singleton.mp he
        omega
    next hnot =>
      refine ⟨by simp, hlo, ?_, fun e he hpos hlt => ?_⟩
      · intro hpos
        obtain ⟨ms, hmem, hms⟩ := hhi hpos
        exact ⟨ms, List.mem_append_left _ hmem, hms⟩
      · dsimp only at hlt
        rcases List.mem_append.mp he with he | he
        · exact hwithin e he hpos hlt
        · obtain rfl := List.mem_singleton.mp he
          by_contra hover
          rcases Nat.eq_zero_or_pos b.hi with hzero | hhipos
          · exact hnot ⟨not_le.mp hover, hzero⟩
          · obtain ⟨ms, hmem, -⟩ := hhi hhipos
            have hbefore := hlast (b.hi, ms) hmem e (List.mem_singleton.mpr rfl)
            dsimp only at hbefore
            omega

theorem low_spec (target : ℚ) (slices : List (Nat × ℚ)) {b0 : Bracket} (hlo0 : b0.lo = 0)
    (h : slices.Pairwise fun a b => a.1 < b.1) :
    let b := slices.foldl (Bracket.low target) b0
    b.any = b0.any ∧ b.hi = b0.hi ∧
      (0 < b.lo → ∃ ms, (b.lo, ms) ∈ slices ∧ ms ≤ target ∧ (b.hi = 0 ∨ b.lo < b.hi)) ∧
      ∀ e ∈ slices, e.2 ≤ target → b.hi = 0 ∨ e.1 < b.hi → e.1 ≤ b.lo := by
  induction slices using List.reverseRecOn with
  | nil => simp [hlo0]
  | append_singleton slices a ih =>
    obtain ⟨hfront, -, hlast⟩ := List.pairwise_append.mp h
    obtain ⟨hany, hhi, hlo, hmost⟩ := ih hfront
    simp only [List.foldl_append, List.foldl_cons, List.foldl_nil]
    generalize slices.foldl (Bracket.low target) b0 = b at *
    unfold Bracket.low
    split
    next hin =>
      refine ⟨hany, hhi, fun _ => ⟨a.2, by simp, hin⟩, fun e he _ _ => ?_⟩
      rcases List.mem_append.mp he with he | he
      · exact (hlast e he a (List.mem_singleton.mpr rfl)).le
      · obtain rfl := List.mem_singleton.mp he
        exact Nat.le_refl _
    next hnot =>
      refine ⟨hany, hhi, ?_, fun e he hms hlt => ?_⟩
      · intro hpos
        obtain ⟨ms, hmem, hms⟩ := hlo hpos
        exact ⟨ms, List.mem_append_left _ hmem, hms⟩
      · rcases List.mem_append.mp he with he | he
        · exact hmost e he hms hlt
        · obtain rfl := List.mem_singleton.mp he
          exact absurd ⟨hms, hlt⟩ hnot

theorem bracketOf_spec (target : ℚ) {slices : List (Nat × ℚ)}
    (h : slices.Pairwise fun a b => a.1 < b.1) :
    (bracketOf target slices).Of target slices := by
  obtain ⟨hany, hzero, hover, hwithin⟩ := high_spec target slices h
  obtain ⟨hany', hhi, hlo, hmost⟩ := low_spec target slices hzero h
  unfold bracketOf
  refine ⟨by rw [hany', hany], ?_, ?_, hlo, hmost⟩
  · rw [hhi]
    exact hover
  · rw [hhi]
    exact hwithin

theorem slices_sorted (t : PriceTable) (cls band : Nat) :
    (t.slices cls band).Pairwise fun a b => a.1 < b.1 := by
  unfold slices
  refine List.Pairwise.filterMap _ ?_ t.chunks.sorted
  intro a a' hlt b hb b' hb'
  split at hb
  next ha =>
    split at hb'
    next ha' =>
      obtain rfl := Option.some.inj hb
      obtain rfl := Option.some.inj hb'
      have hkeys : toLex (ofLex a.1) < toLex (ofLex a'.1) := hlt
      rcases Prod.Lex.toLex_lt_toLex.mp hkeys with hcls | ⟨-, hrest⟩
      · omega
      · have hrest' : toLex (ofLex (ofLex a.1).2) < toLex (ofLex (ofLex a'.1).2) := hrest
        rcases Prod.Lex.toLex_lt_toLex.mp hrest' with hband | ⟨-, hrows⟩
        · omega
        · exact hrows
    next => simp at hb'
  next => simp at hb

theorem mem_slices {t : PriceTable} {cls band rows : Nat} {ms : ℚ} :
    (rows, ms) ∈ t.slices cls band ↔
      ∃ c : Cell, (toLex (cls, toLex (band, rows)), c) ∈ t.chunks.entries ∧ c.lastMs = ms := by
  unfold slices
  rw [List.mem_filterMap]
  constructor
  · intro h
    obtain ⟨⟨k, c⟩, hmem, he⟩ := h
    dsimp only at he
    split at he
    next hk =>
      obtain ⟨rfl, rfl⟩ := hk
      obtain ⟨rfl, rfl⟩ := Prod.mk.inj (Option.some.inj he)
      exact ⟨c, hmem, rfl⟩
    next => simp at he
  · intro h
    obtain ⟨c, hmem, rfl⟩ := h
    exact ⟨_, hmem, by simp⟩

/-- A stage's time for a slice: none is negative, more rows take no less, and the rows of a step
take the same. -/
structure StageTime where
  ms : Nat → ℚ
  nonneg : ∀ rows, 0 ≤ ms rows
  mono : ∀ rows rows', rows ≤ rows' → ms rows ≤ ms rows'
  steps : ∀ rows, ms (stepOf rows) = ms rows

/-- Every measure of the class in the band is one of the stage's time. -/
def Observes (t : PriceTable) (f : StageTime) (cls band : Nat) : Prop :=
  ∀ e ∈ t.slices cls band, kPieceStep ∣ e.1 ∧ e.2 = f.ms e.1

theorem dvd_stepOf (rows : Nat) : kPieceStep ∣ stepOf rows := Nat.dvd_mul_left _ _

theorem stepOf_of_dvd {rows : Nat} (h : kPieceStep ∣ rows) : stepOf rows = rows := by
  unfold stepOf kPieceStep at *
  omega

theorem le_stepOf (rows : Nat) : rows ≤ stepOf rows := by
  unfold stepOf kPieceStep
  omega

theorem stepOf_mono {rows rows' : Nat} (h : rows ≤ rows') : stepOf rows ≤ stepOf rows' :=
  Nat.mul_le_mul_right _ (Nat.div_le_div_right (by omega))

section

variable {toSize : ℚ → Nat} {f : StageTime} {cls band : Nat} {target : ℚ} {most : Nat}

theorem mem_slices_observeChunk {t : PriceTable} {rows : Nat} {ms : ℚ} {e : Nat × ℚ} :
    e ∈ (t.observeChunk ⟨cls, band, rows⟩ ms).slices cls band ↔
      e = (stepOf rows, ms) ∨ e ∈ t.slices cls band ∧ e.1 ≠ stepOf rows := by
  obtain ⟨rows', ms'⟩ := e
  rw [mem_slices, mem_slices]
  unfold observeChunk
  constructor
  · intro h
    obtain ⟨c, hmem, rfl⟩ := h
    rcases SortedMap.mem_set.mp hmem with he | ⟨hold, hne⟩
    · obtain ⟨hk, rfl⟩ := Prod.mk.inj he
      have hrows : rows' = stepOf rows := congrArg (fun k => (ofLex (ofLex k).2).2) hk
      rw [hrows]
      exact Or.inl rfl
    · refine Or.inr ⟨⟨c, hold, rfl⟩, fun hrows => hne ?_⟩
      dsimp only at hrows ⊢
      rw [hrows]
      rfl
  · intro h
    rcases h with he | ⟨⟨c, hmem, rfl⟩, hne⟩
    · obtain ⟨rfl, rfl⟩ := Prod.mk.inj he
      exact ⟨_, SortedMap.mem_set.mpr (Or.inl rfl), rfl⟩
    · refine ⟨c, SortedMap.mem_set.mpr (Or.inr ⟨hmem, fun hk => hne ?_⟩), rfl⟩
      exact congrArg (fun k => (ofLex (ofLex k).2).2) hk

/-- Measuring a slice again as before changes no measure. -/
theorem slices_observeChunk_same {t : PriceTable} {rows : Nat} {ms : ℚ}
    (h : (stepOf rows, ms) ∈ t.slices cls band) :
    (t.observeChunk ⟨cls, band, rows⟩ ms).slices cls band = t.slices cls band := by
  obtain ⟨c, hmem, rfl⟩ := mem_slices.mp h
  exact SortedMap.filterMap_set hmem rfl

theorem Observes.observeChunk {t : PriceTable} (h : t.Observes f cls band) (rows : Nat) :
    (t.observeChunk ⟨cls, band, rows⟩ (f.ms rows)).Observes f cls band := by
  intro e he
  rcases mem_slices_observeChunk.mp he with rfl | ⟨hold, -⟩
  · exact ⟨dvd_stepOf rows, (f.steps rows).symm⟩
  · exact h e hold

theorem observes_empty (f : StageTime) (cls band : Nat) : empty.Observes f cls band := by
  intro e he
  simp [slices, empty, SortedMap.empty] at he

/-- One round of the search: the slice it gives is run as a pass of its own and observed. -/
def round (toSize : ℚ → Nat) (f : StageTime) (cls band : Nat) (target : ℚ) (most : Nat)
    (t : PriceTable) : PriceTable :=
  let rows := chunkRows toSize t cls band target most
  (t.observe ⟨0, 0, [⟨cls, band, rows⟩]⟩ (f.ms rows)).getD t

theorem round_eq (t : PriceTable) : round toSize f cls band target most t =
    t.observeChunk ⟨cls, band, chunkRows toSize t cls band target most⟩
      (f.ms (chunkRows toSize t cls band target most)) := by
  have hnonneg := f.nonneg (chunkRows toSize t cls band target most)
  unfold round observe
  dsimp only
  rw [if_neg (not_lt.mpr hnonneg), if_pos rfl]
  rfl

theorem bracket_of (t : PriceTable) (cls band : Nat) (target : ℚ) :
    (t.bracket cls band target).Of target (t.slices cls band) :=
  bracketOf_spec target (t.slices_sorted cls band)

theorem chunkRows_congr {t t' : PriceTable} (hsame : t'.slices cls band = t.slices cls band)
    (hne : t.slices cls band ≠ []) :
    chunkRows toSize t' cls band target most = chunkRows toSize t cls band target most := by
  have hany : (t.bracket cls band target).any = true :=
    (t.bracket_of cls band target).any.mpr hne
  have hbracket : t'.bracket cls band target = t.bracket cls band target := by
    unfold bracket
    rw [hsame]
  unfold chunkRows
  dsimp only
  rw [hbracket, hany, if_pos rfl, if_pos rfl]

/-- The slice the search gives is one it has measured. -/
def Settled (toSize : ℚ → Nat) (f : StageTime) (cls band : Nat) (target : ℚ) (most : Nat)
    (t : PriceTable) : Prop :=
  (stepOf (chunkRows toSize t cls band target most),
    f.ms (chunkRows toSize t cls band target most)) ∈ t.slices cls band

theorem Settled.round {t : PriceTable} (h : Settled toSize f cls band target most t) :
    Settled toSize f cls band target most (round toSize f cls band target most t) ∧
      chunkRows toSize (round toSize f cls band target most t) cls band target most =
        chunkRows toSize t cls band target most := by
  have hsame : (PriceTable.round toSize f cls band target most t).slices cls band =
      t.slices cls band := by
    rw [round_eq]
    exact slices_observeChunk_same h
  have hrows : chunkRows toSize (PriceTable.round toSize f cls band target most t) cls band
      target most = chunkRows toSize t cls band target most :=
    chunkRows_congr hsame (List.ne_nil_of_mem h)
  refine ⟨?_, hrows⟩
  unfold Settled
  rw [hrows, hsame]
  exact h

theorem Settled.stays {t : PriceTable} (h : Settled toSize f cls band target most t) (n : Nat) :
    chunkRows toSize ((PriceTable.round toSize f cls band target most)^[n] t) cls band target
      most = chunkRows toSize t cls band target most := by
  induction n generalizing t with
  | zero => rfl
  | succ n ih =>
    rw [Function.iterate_succ_apply, ih h.round.1]
    exact h.round.2

theorem Settled.stays_from {t : PriceTable} {n m : Nat} (hm : n ≤ m)
    (h : Settled toSize f cls band target most
      ((PriceTable.round toSize f cls band target most)^[n] t)) :
    chunkRows toSize ((PriceTable.round toSize f cls band target most)^[m] t) cls band target
      most = chunkRows toSize ((PriceTable.round toSize f cls band target most)^[n] t) cls band
      target most := by
  have hstays := h.stays (m - n)
  rw [← Function.iterate_add_apply, Nat.sub_add_cancel hm] at hstays
  exact hstays

theorem chunkRows_le (toSize : ℚ → Nat) (t : PriceTable) (cls band : Nat) (target : ℚ)
    (most : Nat) : chunkRows toSize t cls band target most ≤ most :=
  Nat.min_le_left _ _

/-- The sizes up to the limit that are not measured. -/
def unmeasured (t : PriceTable) (cls band most : Nat) : Finset Nat :=
  (Finset.range (stepOf most + 1)).filter fun rows => ∀ e ∈ t.slices cls band, e.1 ≠ rows

/-- A round that has not settled measures one size more. -/
theorem unmeasured_round {t : PriceTable} (ht : t.Observes f cls band)
    (h : ¬Settled toSize f cls band target most t) :
    ((round toSize f cls band target most t).unmeasured cls band most).card <
      (t.unmeasured cls band most).card := by
  have hle := stepOf_mono (chunkRows_le toSize t cls band target most)
  rw [round_eq]
  unfold Settled at h
  generalize chunkRows toSize t cls band target most = rows at *
  apply Finset.card_lt_card
  apply Finset.ssubset_iff_subset_ne.mpr
  constructor
  · intro r hr
    obtain ⟨hrange, hall⟩ := Finset.mem_filter.mp hr
    refine Finset.mem_filter.mpr ⟨hrange, fun e he heq => ?_⟩
    by_cases hnew : e.1 = stepOf rows
    · have hnot := hall (stepOf rows, f.ms rows) (mem_slices_observeChunk.mpr (Or.inl rfl))
      exact hnot (hnew.symm.trans heq)
    · exact hall e (mem_slices_observeChunk.mpr (Or.inr ⟨he, hnew⟩)) heq
  · intro heq
    have hold : stepOf rows ∈ t.unmeasured cls band most := by
      refine Finset.mem_filter.mpr ⟨Finset.mem_range.mpr (by omega), fun e he hrows => h ?_⟩
      have hms : e.2 = f.ms rows := by
        rw [(ht e he).2, hrows, f.steps]
      have hpair : e = (stepOf rows, f.ms rows) := Prod.ext hrows hms
      exact hpair ▸ he
    rw [← heq] at hold
    obtain ⟨-, hall⟩ := Finset.mem_filter.mp hold
    exact hall (stepOf rows, f.ms rows) (mem_slices_observeChunk.mpr (Or.inl rfl)) rfl

theorem exists_settled (toSize : ℚ → Nat) (target : ℚ) (most : Nat) {t : PriceTable}
    (ht : t.Observes f cls band) :
    ∃ n, Settled toSize f cls band target most
        ((round toSize f cls band target most)^[n] t) ∧
      ((round toSize f cls band target most)^[n] t).Observes f cls band := by
  generalize hcount : (t.unmeasured cls band most).card = count
  induction count using Nat.strongRecOn generalizing t with
  | _ count ih =>
    by_cases hsettled : Settled toSize f cls band target most t
    · exact ⟨0, hsettled, ht⟩
    · have hless := unmeasured_round ht hsettled
      have hobserves : (round toSize f cls band target most t).Observes f cls band := by
        rw [round_eq]
        exact ht.observeChunk _
      obtain ⟨n, hn⟩ := ih _ (hcount ▸ hless) hobserves rfl
      exact ⟨n + 1, hn⟩

/-- The largest slice within the target, in steps, the limit, or one step where even that is
over. -/
def Right (f : StageTime) (target : ℚ) (most rows : Nat) : Prop :=
  f.ms rows ≤ target ∧ target < f.ms (rows + kPieceStep) ∨
    rows = most ∧ f.ms rows ≤ target ∨
    rows = kPieceStep ∧ target < f.ms rows

/-- What a bracket says of measures of `f`: its ends are in steps and on their sides. -/
theorem Observes.bracket_ends {t : PriceTable} (ht : t.Observes f cls band) (target : ℚ) :
    (0 < (t.bracket cls band target).hi → kPieceStep ∣ (t.bracket cls band target).hi ∧
      target < f.ms (t.bracket cls band target).hi) ∧
    (0 < (t.bracket cls band target).lo → kPieceStep ∣ (t.bracket cls band target).lo ∧
      f.ms (t.bracket cls band target).lo ≤ target ∧
      ((t.bracket cls band target).hi = 0 ∨
        (t.bracket cls band target).lo < (t.bracket cls band target).hi)) := by
  have hb := t.bracket_of cls band target
  constructor
  · intro hpos
    obtain ⟨ms, hmem, hms⟩ := hb.over_target hpos
    obtain ⟨hdvd, he⟩ := ht _ hmem
    dsimp only at hdvd he
    exact ⟨hdvd, he ▸ hms⟩
  · intro hpos
    obtain ⟨ms, hmem, hms, hlt⟩ := hb.lo_within hpos
    obtain ⟨hdvd, he⟩ := ht _ hmem
    dsimp only at hdvd he
    exact ⟨hdvd, he ▸ hms, hlt⟩

/-- Which side of the bracket a measured slice is on. -/
theorem Observes.measured_side {t : PriceTable} (ht : t.Observes f cls band) (target : ℚ)
    {rows : Nat} (hrows : 0 < rows) (hmem : (stepOf rows, f.ms rows) ∈ t.slices cls band) :
    (f.ms rows ≤ target → stepOf rows ≤ (t.bracket cls band target).lo) ∧
      (target < f.ms rows → 0 < (t.bracket cls band target).hi ∧
        (t.bracket cls band target).hi ≤ stepOf rows) := by
  have hb := t.bracket_of cls band target
  obtain ⟨hhi, -⟩ := ht.bracket_ends target
  have hpos := hrows.trans_le (le_stepOf rows)
  constructor
  · intro hms
    apply hb.lo_most _ hmem hms
    rcases Nat.eq_zero_or_pos (t.bracket cls band target).hi with hzero | hhipos
    · exact Or.inl hzero
    · refine Or.inr (by_contra fun hge => ?_)
      have hmono := f.mono _ _ (not_lt.mp hge)
      dsimp only at hmono
      rw [f.steps] at hmono
      exact absurd (hmono.trans hms) (not_le.mpr (hhi hhipos).2)
  · intro hms
    have hout : ¬((t.bracket cls band target).hi = 0 ∨
        stepOf rows < (t.bracket cls band target).hi) :=
      fun hin => absurd (hb.within _ hmem hpos hin) (not_le.mpr hms)
    omega

/-- A slice the search gives again is the right one. -/
theorem Settled.right {t : PriceTable} (h : Settled toSize f cls band target most t)
    (hmost : kPieceStep ≤ most) (ht : t.Observes f cls band) :
    Right f target most (chunkRows toSize t cls band target most) := by
  have hany : (t.bracket cls band target).any = true :=
    (t.bracket_of cls band target).any.mpr (List.ne_nil_of_mem h)
  obtain ⟨hhi, hlo⟩ := ht.bracket_ends target
  unfold Settled at h
  have hrows : chunkRows toSize t cls band target most =
      min most (max kPieceStep ((t.bracket cls band target).rows toSize target)) := by
    unfold chunkRows
    dsimp only
    rw [hany, if_pos rfl]
  generalize chunkRows toSize t cls band target most = rows at *
  have hstep : kPieceStep ≤ rows := by omega
  obtain ⟨hin, hover⟩ := ht.measured_side target
    (by unfold kPieceStep at hstep; omega) h
  generalize t.bracket cls band target = b at *
  have hle := le_stepOf rows
  unfold Bracket.rows at hrows
  unfold Right
  split at hrows
  next hzero =>
    right
    right
    have hms : target < f.ms rows := by
      by_contra hnot
      have := hin (not_lt.mp hnot)
      unfold kPieceStep at hstep
      omega
    refine ⟨?_, hms⟩
    obtain ⟨hpos, hhile⟩ := hover hms
    obtain ⟨hdvd, -⟩ := hhi hpos
    have hhalf : min (b.hi / 2) (toSize (b.hi * target / b.hiMs)) ≤ b.hi / 2 :=
      Nat.min_le_left _ _
    generalize min (b.hi / 2) (toSize (b.hi * target / b.hiMs)) = x at *
    unfold stepOf kPieceStep at *
    omega
  next hne =>
    obtain ⟨hlodvd, hlows, hside⟩ := hlo (Nat.pos_of_ne_zero hne)
    split at hrows
    next hnone =>
      right
      left
      have hms : f.ms rows ≤ target := by
        by_contra hnot
        have hpos := (hover (not_le.mp hnot)).1
        omega
      have hlow := hin hms
      exact ⟨by omega, hms⟩
    next hsome =>
      obtain ⟨hhidvd, hhims⟩ := hhi (Nat.pos_of_ne_zero hsome)
      have hlt := hside.resolve_left hsome
      split at hrows
      next hwide =>
        right
        left
        have hms : f.ms rows ≤ target := by
          by_contra hnot
          have hhigh := (hover (not_le.mp hnot)).2
          unfold stepOf kPieceStep at *
          omega
        have hlow := hin hms
        refine ⟨?_, hms⟩
        unfold kPieceStep at *
        omega
      next hnarrow =>
        have hnext : b.hi = b.lo + kPieceStep := by
          unfold kPieceStep at *
          omega
        rcases Nat.lt_or_ge most b.lo with hlimit | hfits
        · right
          left
          have hms := f.mono rows b.lo (by omega)
          exact ⟨by omega, hms.trans hlows⟩
        · left
          have heq : rows = b.lo := by
            unfold kPieceStep at *
            omega
          rw [heq, ← hnext]
          exact ⟨hlows, hhims⟩

end

/-- The search settles: after some rounds it keeps giving one slice, the largest within the
target, the limit, or one step where even that is over. -/
theorem chunkRows_settles (toSize : ℚ → Nat) (f : StageTime) (cls band : Nat) (target : ℚ)
    {most : Nat} (hmost : kPieceStep ≤ most) {t : PriceTable} (ht : t.Observes f cls band) :
    ∃ n rows, (∀ m, n ≤ m →
        chunkRows toSize ((round toSize f cls band target most)^[m] t) cls band target most =
          rows) ∧
      (f.ms rows ≤ target ∧ target < f.ms (rows + kPieceStep) ∨
        rows = most ∧ f.ms rows ≤ target ∨
        rows = kPieceStep ∧ target < f.ms rows) := by
  obtain ⟨n, hsettled, hobserves⟩ := exists_settled toSize target most ht
  exact ⟨n, _, fun m hm => Settled.stays_from hm hsettled, hsettled.right hmost hobserves⟩

/-- A stage that takes no time. -/
def noTime : StageTime := ⟨fun _ => 0, fun _ => le_refl 0, fun _ _ _ => le_refl 0, fun _ => rfl⟩

/-- A stage that takes a millisecond a row, in steps. -/
def stepTime : StageTime where
  ms rows := stepOf rows
  nonneg rows := Nat.cast_nonneg (stepOf rows)
  mono _ _ h := Nat.cast_le.mpr (stepOf_mono h)
  steps rows := by rw [stepOf_of_dvd (dvd_stepOf rows)]

/-- A limit between two steps is given as it is, rounded neither up nor down. -/
theorem not_chunkRows_settles_in_steps :
    ¬∀ (toSize : ℚ → Nat) (f : StageTime) (cls band : Nat) (target : ℚ) (most : Nat),
      kPieceStep ≤ most → ∀ t : PriceTable, t.Observes f cls band →
        ∃ n rows, (∀ m, n ≤ m →
            chunkRows toSize ((round toSize f cls band target most)^[m] t) cls band target most =
              rows) ∧
          (f.ms rows ≤ target ∧ target < f.ms (rows + kPieceStep) ∨
            (rows = stepOf most ∨ rows = most / kPieceStep * kPieceStep) ∨
            rows = kPieceStep ∧ target < f.ms rows) := by
  intro h
  have hmost : kPieceStep ≤ 17 := by decide
  obtain ⟨n, rows, hgives, hright⟩ := h (fun x => x.floor.toNat) noTime 0 0 0 17 hmost
    empty (observes_empty noTime 0 0)
  obtain ⟨n', hsettled, hobserves⟩ :=
    exists_settled (fun x => x.floor.toNat) 0 17 (observes_empty noTime 0 0)
  have hlimit := hsettled.right hmost hobserves
  rw [← Settled.stays_from (Nat.le_max_right n n') hsettled, hgives _ (Nat.le_max_left n n')] at hlimit
  have hnever : ∀ r, ¬(0 : ℚ) < noTime.ms r := fun r => lt_irrefl 0
  have hrows : rows = 17 := by
    rcases hlimit with ⟨-, hlt⟩ | ⟨heq, -⟩ | ⟨-, hlt⟩
    · exact absurd hlt (hnever _)
    · exact heq
    · exact absurd hlt (hnever _)
  subst hrows
  rcases hright with ⟨-, hlt⟩ | hstep | ⟨-, hlt⟩
  · exact hnever _ hlt
  · revert hstep
    decide
  · exact hnever _ hlt

theorem chunkRows_settles_step_time :
    ∃ n rows, (∀ m, n ≤ m →
        chunkRows (fun x => x.floor.toNat)
          ((round (fun x => x.floor.toNat) stepTime 0 0 100 512)^[m] empty) 0 0 100 512 =
          rows) ∧
      (stepTime.ms rows ≤ 100 ∧ 100 < stepTime.ms (rows + kPieceStep) ∨
        rows = 512 ∧ stepTime.ms rows ≤ 100 ∨
        rows = kPieceStep ∧ 100 < stepTime.ms rows) :=
  chunkRows_settles (fun x => x.floor.toNat) stepTime 0 0 100 (by decide)
    (observes_empty stepTime 0 0)

end PriceTable

end Llmx
