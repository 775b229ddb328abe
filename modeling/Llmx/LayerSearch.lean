import Llmx.Fallible
import Llmx.LayerPlan

namespace Llmx

open Fallible

theorem map_count_spansFrom (d i : Nat) (counts : List Nat) :
    (spansFrom d i counts).map Span.count = counts := by
  induction counts generalizing d i with
  | nil => rfl
  | cons c counts ih => rw [spansFrom, List.map_cons, ih]

/-- The layers a split gives each device. -/
def LayerSplit.counts (out : LayerSplit) : List Nat := out.stages.map SplitStage.count

namespace SplitRequest

variable (r : SplitRequest)

/-- The head's rows among what a device of a set holds. -/
def headNeed (used : List Nat) (sp : Span) : Nat :=
  r.headRows sp.device (used.getLast? == some sp.device)

variable {r}

theorem stage_count {h : HostNeed} {embed output : Nat} {sp : Span} {st : SplitStage}
    (hst : r.stage h embed output sp = .ok st) : st.count = sp.count := by
  simp only [stage] at hst
  split at hst
  next hc =>
    cases hst
    exact hc.symm
  next =>
    split at hst
    next =>
      cases hst
      rfl
    next => cases hst

/-- What a stage is checked for is all that its device needs besides the head's rows. -/
theorem held_eq {used : List Nat} {embed output : Nat} (sp : Span)
    (he : used.head? = some embed) (ho : used.getLast? = some output) :
    let st := r.stageFor (r.hostFor used) embed output sp
    st.weights + st.cache + st.other + r.headNeed used sp = r.fullNeed used sp := by
  have hfirst : (used.head? == some sp.device) = (sp.device == embed) := by
    rw [he, Bool.eq_iff_iff, beq_iff_eq, beq_iff_eq, Option.some.injEq, eq_comm]
  have hlast : (used.getLast? == some sp.device) = (sp.device == output) := by
    rw [ho, Bool.eq_iff_iff, beq_iff_eq, beq_iff_eq, Option.some.injEq, eq_comm]
  simp only [stageFor, headNeed, fullNeed, need, hfirst, hlast]
  omega

theorem stage_ok_iff {used : List Nat} {embed output : Nat} {sp : Span} (hc : sp.count ≠ 0)
    (he : used.head? = some embed) (ho : used.getLast? = some output) :
    (∃ st, r.stage (r.hostFor used) embed output sp = .ok st) ↔
      r.fits sp.device (r.fullNeed used sp - r.headNeed used sp) := by
  have hheld := r.held_eq sp he ho
  rw [← hheld, Nat.add_sub_cancel]
  simp only [stage, if_neg hc]
  split
  next h => exact ⟨fun _ => h, fun _ => ⟨_, rfl⟩⟩
  next h =>
    constructor
    · rintro ⟨st, hst⟩
      cases hst
    · intro hfits
      exact absurd hfits h

theorem usedDevices_ends {counts : List Nat} (hne : usedDevices counts ≠ []) :
    ∃ embed output, (usedDevices counts).head? = some embed ∧
      (usedDevices counts).getLast? = some output :=
  ⟨_, _, List.head?_eq_some_head hne, List.getLast?_eq_some_getLast hne⟩

theorem usedDevices_ne_nil {counts : List Nat} (hp : r.Partition counts) (hL : 1 ≤ r.depth) :
    usedDevices counts ≠ [] := by
  intro hnil
  have hpicks : picks counts = [] := by
    rw [← map_fst_picks, List.map_eq_nil_iff] at hnil
    exact hnil
  have hsum := sum_picks counts
  rw [hpicks, hp.2] at hsum
  simp only [List.map_nil, List.sum_nil] at hsum
  omega

/-- Filling a plan's stages in refuses it exactly for what is checked there. -/
theorem fill_ok_iff {counts : List Nat} (hne : usedDevices counts ≠ []) :
    (∃ out, r.fill counts = .ok out) ↔ r.hostFits (r.hostFor (usedDevices counts)) ∧
      ∀ sp ∈ usedSpans counts, r.fits sp.device
        (r.fullNeed (usedDevices counts) sp - r.headNeed (usedDevices counts) sp) := by
  obtain ⟨embed, output, he, ho⟩ := usedDevices_ends hne
  have hstages : (∃ stages, (spansFrom 0 0 counts).mapM
      (r.stage (r.hostFor (usedDevices counts)) embed output) = .ok stages) ↔
      ∀ sp ∈ usedSpans counts, r.fits sp.device
        (r.fullNeed (usedDevices counts) sp - r.headNeed (usedDevices counts) sp) := by
    rw [exists_mapM]
    constructor
    · intro h sp hsp
      obtain ⟨hsp, hc⟩ := List.mem_filter.mp hsp
      exact (stage_ok_iff (by simpa using hc) he ho).mp (h sp hsp)
    · intro h sp hsp
      by_cases hc : sp.count = 0
      · exact ⟨_, by rw [stage, if_pos hc]⟩
      · exact (stage_ok_iff hc he ho).mpr (h sp (List.mem_filter.mpr ⟨hsp, by simpa using hc⟩))
  rw [← hstages]
  unfold fill
  rw [he, ho]
  dsimp only
  constructor
  · rintro ⟨out, h⟩
    split at h
    next => cases h
    next stages hmap =>
      split at h
      next hhost => exact ⟨hhost, stages, hmap⟩
      next => cases h
  · rintro ⟨hhost, stages, hmap⟩
    rw [hmap]
    dsimp only
    rw [if_pos hhost]
    exact ⟨_, rfl⟩

theorem fill_counts {counts : List Nat} {out : LayerSplit} (h : r.fill counts = .ok out) :
    out.counts = counts := by
  simp only [fill] at h
  split at h
  next embed output _ _ =>
    split at h
    next => cases h
    next stages hmap =>
      split at h
      next =>
        cases h
        have hcount : stages.map SplitStage.count = (spansFrom 0 0 counts).map Span.count := by
          have hall := mapM_ok_iff.mp hmap
          apply List.ext_getElem
          · simp [hall.length_eq]
          · intro d hd hd'
            rw [List.getElem_map, List.getElem_map]
            exact stage_count (hall.get (by simpa using hd') (by simpa using hd))
        rw [LayerSplit.counts, hcount, map_count_spansFrom]
      next => cases h
  next => cases h

theorem ks_pos {h : HostNeed} {as : List Role} {ks : List Nat} (hlen : ks.length = as.length)
    (hw : Layered.Walk (r.takes h) 0 (as.zip ks)) : ∀ k ∈ ks, 1 ≤ k := by
  intro k hk
  have hzip : (as.zip ks).map Prod.snd = ks := List.map_snd_zip (by omega)
  rw [← hzip] at hk
  obtain ⟨x, hx, rfl⟩ := List.mem_map.mp hk
  obtain ⟨i, hi⟩ := Layered.walk_mem hw hx
  exact (r.takes_pos hi).1

theorem planOf_iff {used ks : List Nat} {s : Score} :
    r.planOf used = some (s, ks) ↔ used.length ≤ r.depth ∧ r.hostFits (r.hostFor used) ∧
      (∃ k, (Layered.rowAfter (r.takes (r.hostFor used)) (r.extend (r.hostFor used)) r.depth
        (toLex (0, toLex (0, 0))) (roles used).reverse)[r.depth]? = some (some (s, k))) ∧
      ks = Layered.readBack (r.takes (r.hostFor used)) (r.extend (r.hostFor used)) r.depth
        (toLex (0, toLex (0, 0))) (roles used).reverse r.depth := by
  simp only [planOf]
  split
  next hcond =>
    simp only [Bool.or_eq_true, decide_eq_true_eq, Bool.not_eq_true'] at hcond
    constructor
    · intro h
      cases h
    · rintro ⟨hlen, hhost, -⟩
      rcases hcond with hcond | hcond
      · omega
      · simp [hcond] at hhost
  next hcond =>
    simp only [Bool.or_eq_true, decide_eq_true_eq, Bool.not_eq_true', not_or, Nat.not_lt,
      Bool.not_eq_false] at hcond
    split
    next s' k hrow =>
      rw [hrow]
      constructor
      · intro h
        obtain ⟨rfl, rfl⟩ := Prod.mk.inj (Option.some.inj h)
        exact ⟨hcond.1, hcond.2, ⟨k, rfl⟩, rfl⟩
      · rintro ⟨-, -, ⟨k', hk⟩, rfl⟩
        obtain ⟨rfl, -⟩ := Prod.mk.inj (Option.some.inj (Option.some.inj hk))
        rfl
    next hrow =>
      constructor
      · intro h
        cases h
      · rintro ⟨-, -, ⟨k, hk⟩, -⟩
        exact absurd hk (hrow s k)

/-- A set's plan fits and scores as it says, on the devices of the set. -/
theorem planOf_sound {p : Nat → Bool} {used ks : List Nat} {s : Score}
    (hu : (List.range r.devices.length).filter p = used) (h : r.planOf used = some (s, ks)) :
    r.Partition (r.spread used ks) ∧ r.Feasible (r.spread used ks) ∧
      r.planScore (r.spread used ks) = s := by
  obtain ⟨-, hhost, ⟨k, hrow⟩, hks⟩ := planOf_iff.mp h
  obtain ⟨hwalk, hsum, hval⟩ := Layered.rowAfter_sound hrow
  rw [List.reverse_reverse, ← hks] at hwalk hval
  rw [← hks] at hsum
  have hlen : ks.length = used.length := by rw [hks, Layered.length_readBack]; simp [roles]
  have hpicks := picks_spread hu hlen (ks_pos (by simp [roles, hlen]) hwalk)
  have hused : usedDevices (r.spread used ks) = used := by
    rw [← map_fst_picks, hpicks, List.map_fst_zip (by omega)]
  have htaken : (picks (r.spread used ks)).map Prod.snd = ks := by
    rw [hpicks, List.map_snd_zip (by omega)]
  have hp : r.Partition (r.spread used ks) :=
    ⟨by simp [spread], by rw [← sum_picks, htaken, hsum]⟩
  refine ⟨hp, ⟨by rw [hused]; exact hhost, (walk_iff hp).mp ?_⟩, ?_⟩
  · rw [hused, htaken]
    exact hwalk
  · rw [← value_eq, hused, htaken]
    exact hval

theorem extend_le (h : HostNeed) (a : Role) (i k : Nat) {s s' : Score} (hs : s ≤ s') :
    r.extend h a i k s ≤ r.extend h a i k s' := by
  unfold extend
  rw [Prod.Lex.le_iff] at hs
  split
  next =>
    rw [Prod.Lex.toLex_le_toLex]
    rcases hs with hs | ⟨hs, hs'⟩
    · exact Or.inl (by simpa using hs)
    · exact Or.inr ⟨by simpa using hs, hs'⟩
  next =>
    rw [Prod.Lex.toLex_le_toLex]
    rcases hs with hs | ⟨hs, hs'⟩
    · exact Or.inl hs
    · exact Or.inr ⟨hs, max_le_max hs' (le_refl _)⟩

/-- A set's plan scores no more than any that fits on the devices of the set. -/
theorem planOf_complete {counts : List Nat} (hp : r.Partition counts) (hf : r.Feasible counts) :
    ∃ s ks, r.planOf (usedDevices counts) = some (s, ks) ∧ s ≤ r.planScore counts := by
  have hlen : ((picks counts).map Prod.snd).length = (usedDevices counts).length := by
    rw [← map_fst_picks, List.length_map, List.length_map]
  have hdepth : ((picks counts).map Prod.snd).length ≤ r.depth := by
    rw [← hp.2, ← sum_picks]
    apply List.length_le_sum_of_one_le
    intro k hk
    obtain ⟨p, hp, rfl⟩ := List.mem_map.mp hk
    exact picks_pos hp
  have hwalk := (walk_iff hp).mpr hf.2
  rw [← List.reverse_reverse (roles (usedDevices counts))] at hwalk
  have hmono : ∀ a i k s s', s ≤ s' → r.extend (r.hostFor (usedDevices counts)) a i k s ≤
      r.extend (r.hostFor (usedDevices counts)) a i k s' := fun a i k s s' => extend_le _ a i k
  obtain ⟨⟨s, k⟩, hrow, hle⟩ := Layered.rowAfter_complete (toLex (0, toLex (0, 0)))
    (fun a i k => r.takes_pos) hmono (by rw [hlen, List.length_reverse]; simp [roles]) hwalk
  rw [sum_picks, hp.2] at hrow
  rw [List.reverse_reverse, value_eq] at hle
  exact ⟨s, _, planOf_iff.mpr ⟨hlen ▸ hdepth, hf.1, ⟨k, hrow⟩, rfl⟩, hle⟩

/-- Every set of devices is that of a mask. -/
theorem exists_mask {counts : List Nat} (hp : r.Partition counts) (hL : 1 ≤ r.depth) :
    ∃ mask ∈ List.range' 1 (2 ^ r.devices.length - 1), r.usedOf mask = usedDevices counts := by
  let mask := Nat.ofBits fun d : Fin r.devices.length => decide (counts.getD d 0 ≠ 0)
  have hused : r.usedOf mask = usedDevices counts := by
    rw [usedDevices_eq, hp.1]
    exact List.filter_congr fun d hd => Nat.testBit_ofBits_lt _ d (List.mem_range.mp hd)
  have hlt : mask < 2 ^ r.devices.length := Nat.ofBits_lt_two_pow _
  have hpos : mask ≠ 0 := by
    intro h
    apply usedDevices_ne_nil hp hL
    rw [← hused, h]
    simp [usedOf]
  exact ⟨mask, List.mem_range'_1.mpr (by omega), hused⟩

theorem mem_setPlans {x : Score × List Nat} :
    x ∈ r.setPlans ↔ ∃ mask ∈ List.range' 1 (2 ^ r.devices.length - 1), ∃ ks,
      r.planOf (r.usedOf mask) = some (x.1, ks) ∧ r.spread (r.usedOf mask) ks = x.2 := by
  unfold setPlans
  rw [List.mem_filterMap]
  constructor
  · rintro ⟨mask, hmask, h⟩
    obtain ⟨⟨s, ks⟩, hplan, rfl⟩ := Option.map_eq_some_iff.mp h
    exact ⟨mask, hmask, ks, hplan, rfl⟩
  · rintro ⟨mask, hmask, ks, hplan, hks⟩
    refine ⟨mask, hmask, ?_⟩
    rw [hplan, Option.map_some]
    exact congrArg some (Prod.ext rfl hks)

theorem balanced_sound {counts : List Nat} {s : Score} (h : r.balanced = some (s, counts)) :
    r.Partition counts ∧ r.Feasible counts ∧ r.planScore counts = s := by
  have hmem := (Layered.foldl_lower_from h).resolve_left (by simp)
  obtain ⟨mask, -, ks, hplan, rfl⟩ := mem_setPlans.mp hmem
  exact planOf_sound rfl hplan

theorem balanced_complete {counts : List Nat} (hL : 1 ≤ r.depth) (hp : r.Partition counts)
    (hf : r.Feasible counts) : ∃ b, r.balanced = some b ∧ b.1 ≤ r.planScore counts := by
  obtain ⟨mask, hmask, hused⟩ := exists_mask hp hL
  obtain ⟨s, ks, hplan, hle⟩ := planOf_complete hp hf
  rw [← hused] at hplan
  have hmem : (s, r.spread (r.usedOf mask) ks) ∈ r.setPlans :=
    mem_setPlans.mpr ⟨mask, hmask, ks, hplan, rfl⟩
  obtain ⟨b, hb, hble⟩ := Layered.foldl_lower_le (Or.inr hmem : none = some _ ∨ _)
  exact ⟨b, hb, le_trans hble hle⟩

theorem check_nil (hd : r.devices ≠ []) (hL : 1 ≤ r.depth) (hN : r.devices.length ≤ 16)
    (hcache : r.fp.cache = [] ∨ r.fp.cache.length = r.depth)
    (hlookups : r.fp.lookups = [] ∨ r.fp.lookups.length = r.depth) : r.check [] = .ok () := by
  have hcache' : (!r.fp.cache.isEmpty && r.fp.cache.length ≠ r.depth) = false := by
    rcases hcache with h | h <;> simp [h]
  have hlookups' : (!r.fp.lookups.isEmpty && r.fp.lookups.length ≠ r.depth) = false := by
    rcases hlookups with h | h <;> simp [h]
  rw [check, if_neg (by simpa using hd), if_neg (by omega), checkSplit, if_neg (by omega)]
  simp only [List.isEmpty_nil, if_true]
  rw [if_neg (by rw [hcache']; exact Bool.false_ne_true),
    if_neg (by rw [hlookups']; exact Bool.false_ne_true)]

/-- Without shares a split is the search's plan filled in. -/
theorem splitLayers_nil {out : LayerSplit} (h : r.splitLayers [] = .ok out) :
    (∃ s, r.balanced = some (s, out.counts)) ∧ r.fill out.counts = .ok out := by
  unfold splitLayers at h
  split at h
  next => cases h
  next =>
    split at h
    next => cases h
    next counts hcounts =>
      simp only [layerCounts, List.isEmpty_nil, if_true] at hcounts
      split at hcounts
      next s counts' hbest =>
        cases hcounts
        rw [fill_counts h]
        exact ⟨⟨s, hbest⟩, h⟩
      next => cases hcounts

theorem Feasible.fill {counts : List Nat} (hL : 1 ≤ r.depth) (hp : r.Partition counts)
    (hf : r.Feasible counts) : ∃ out, r.fill counts = .ok out :=
  (fill_ok_iff (usedDevices_ne_nil hp hL)).mpr
    ⟨hf.1, fun sp hsp => r.fits_of_le (Nat.sub_le _ _) (hf.2 sp hsp)⟩

end SplitRequest

/-- Three layers of five bytes, on a device with twelve bytes free and the host. -/
def deviceAndHost : SplitRequest :=
  let layer : Matrix := ⟨0, 1, 5, 5, true⟩
  { (default : SplitRequest) with
    fp := { (default : Footprint) with layers := [[layer], [layer], [layer]] }
    devices := [{ (default : DeviceBudget) with name := "gpu", bytes := some 12 },
      { (default : DeviceBudget) with name := "cpu", bytes := some 100, host := true }]
    rows := 1
    slots := 1
    page := 4096 }

end Llmx
