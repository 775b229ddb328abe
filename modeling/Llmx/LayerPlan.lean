import Llmx.LayerSplit
import Mathlib.Data.List.Nodup
import Mathlib.Algebra.Order.BigOperators.Group.List
import Mathlib.Algebra.Order.Ring.Nat

namespace Llmx

/-- The spans of devices that take layers in turn from `i`. -/
def chain : Nat → List (Nat × Nat) → List Span
  | _, [] => []
  | i, (d, k) :: ps => ⟨d, i, k⟩ :: chain (i + k) ps

theorem map_device_chain (i : Nat) (ps : List (Nat × Nat)) :
    (chain i ps).map Span.device = ps.map Prod.fst := by
  induction ps generalizing i with
  | nil => rfl
  | cons p ps ih => simp [chain, ih]

theorem filter_spansFrom (g : Nat → Nat) (d i n : Nat) :
    ((spansFrom d i ((List.range' d n).map g)).filter fun sp => sp.count ≠ 0) =
      chain i (((List.range' d n).filter fun d => g d ≠ 0).map fun d => (d, g d)) := by
  induction n generalizing d i with
  | zero => rfl
  | succ n ih =>
    rw [List.range'_succ, List.map_cons, spansFrom, List.filter_cons, List.filter_cons, ih]
    by_cases hg : g d = 0
    · simp [hg]
    · simp [hg, chain]

/-- The devices that run layers, with how many. -/
def picks (counts : List Nat) : List (Nat × Nat) :=
  ((List.range counts.length).filter fun d => counts.getD d 0 ≠ 0).map fun d =>
    (d, counts.getD d 0)

theorem map_getD_range (counts : List Nat) :
    (List.range counts.length).map (fun d => counts.getD d 0) = counts := by
  apply List.ext_getElem
  · simp
  · intro d hd hd'
    simp [hd']

theorem usedSpans_eq (counts : List Nat) : usedSpans counts = chain 0 (picks counts) := by
  have h := filter_spansFrom (fun d => counts.getD d 0) 0 0 counts.length
  rw [← List.range_eq_range', map_getD_range] at h
  exact h

theorem usedDevices_eq (counts : List Nat) :
    usedDevices counts = (List.range counts.length).filter fun d => counts.getD d 0 ≠ 0 := by
  rw [usedDevices, usedSpans_eq, map_device_chain, picks, List.map_map]
  exact List.map_id _

theorem map_fst_picks (counts : List Nat) : (picks counts).map Prod.fst = usedDevices counts := by
  rw [usedDevices, usedSpans_eq, map_device_chain]

theorem usedDevices_nodup (counts : List Nat) : (usedDevices counts).Nodup := by
  rw [usedDevices_eq]
  exact List.nodup_range.filter _

theorem picks_pos {counts : List Nat} {p : Nat × Nat} (hp : p ∈ picks counts) : 1 ≤ p.2 := by
  obtain ⟨d, hd, rfl⟩ := List.mem_map.mp hp
  have hne := (List.mem_filter.mp hd).2
  simp only [ne_eq, decide_not, Bool.not_eq_eq_eq_not, Bool.not_true, decide_eq_false_iff_not] at hne
  exact Nat.pos_of_ne_zero hne

theorem sum_filter_ne_zero (g : Nat → Nat) (ds : List Nat) :
    ((ds.filter fun d => g d ≠ 0).map g).sum = (ds.map g).sum := by
  induction ds with
  | nil => rfl
  | cons d ds ih =>
    rw [List.filter_cons]
    by_cases hd : g d = 0
    · simpa [hd] using ih
    · simpa [hd] using ih

theorem sum_picks (counts : List Nat) : ((picks counts).map Prod.snd).sum = counts.sum := by
  have h := sum_filter_ne_zero (fun d => counts.getD d 0) (List.range counts.length)
  rw [map_getD_range] at h
  rw [picks, List.map_map]
  exact h

/-- A device's role among those that run layers. -/
def roleIn (used : List Nat) (d : Nat) : Role :=
  ⟨d, used.head? == some d, used.getLast? == some d⟩

theorem roles_eq {used : List Nat} (h : used.Nodup) : roles used = used.map (roleIn used) := by
  apply List.ext_getElem
  · simp [roles]
  · intro j hj hj'
    have hlen : j < used.length := by simpa [roles] using hj
    have hfirst : (j == 0) = (used.head? == some used[j]) := by
      rw [List.head?_eq_getElem?, List.getElem?_eq_getElem (by omega), Bool.eq_iff_iff,
        beq_iff_eq, beq_iff_eq, Option.some.injEq, h.getElem_inj_iff, eq_comm]
    have hlast : (j + 1 == used.length) = (used.getLast? == some used[j]) := by
      rw [List.getLast?_eq_getElem?, List.getElem?_eq_getElem (by omega), Bool.eq_iff_iff,
        beq_iff_eq, beq_iff_eq, Option.some.injEq, h.getElem_inj_iff]
      omega
    simp [roles, roleIn, hfirst, hlast]

/-- Only the last device of a set has nothing after it. -/
theorem getLast?_iff_nil {used pre post : List Nat} {d : Nat} (h : used.Nodup)
    (hu : used = pre ++ d :: post) : used.getLast? = some d ↔ post = [] := by
  subst hu
  constructor
  · intro hd
    by_contra hpost
    have hmem : d ∈ post := by
      rw [List.getLast?_append_cons, List.getLast?_cons, List.getLast?_eq_getLast_of_ne_nil hpost]
        at hd
      have := Option.some.inj hd
      simp only [Option.getD_some] at this
      exact this ▸ List.getLast_mem hpost
    exact (List.nodup_cons.mp (List.nodup_append.mp h).2.1).1 hmem
  · rintro rfl
    simp

/-- Looking a device up among the set gives what it took. -/
theorem map_lookup_zip {used ks : List Nat} (hu : used.Nodup) (hlen : ks.length = used.length) :
    used.map (fun d => ((used.zip ks).lookup d).getD 0) = ks := by
  induction used generalizing ks with
  | nil => exact (List.eq_nil_of_length_eq_zero hlen).symm
  | cons d used ih =>
    cases ks with
    | nil => simp at hlen
    | cons k ks =>
      obtain ⟨hd, hu⟩ := List.nodup_cons.mp hu
      have hrest : used.map (fun e => (((d, k) :: used.zip ks).lookup e).getD 0) =
          used.map fun e => ((used.zip ks).lookup e).getD 0 := by
        apply List.map_congr_left
        intro e he
        have hne : (e == d) = false := beq_eq_false_iff_ne.mpr fun h => hd (h ▸ he)
        rw [List.lookup_cons, hne]
      rw [List.zip_cons_cons, List.map_cons, hrest, ih hu (by simpa using hlen)]
      simp

theorem lookup_zip_eq_none {used ks : List Nat} {d : Nat} (hd : d ∉ used) :
    (used.zip ks).lookup d = none := by
  rw [List.lookup_eq_none_iff]
  rintro ⟨e, k⟩ hx
  have he := (List.of_mem_zip hx).1
  simpa using fun h : d = e => hd (h ▸ he)

theorem lookup_zip_pos {used ks : List Nat} (hu : used.Nodup) (hlen : ks.length = used.length)
    (hpos : ∀ k ∈ ks, 1 ≤ k) {d : Nat} (hd : d ∈ used) :
    1 ≤ ((used.zip ks).lookup d).getD 0 := by
  have h := List.mem_map_of_mem (f := fun d => ((used.zip ks).lookup d).getD 0) hd
  rw [map_lookup_zip hu hlen] at h
  exact hpos _ h

namespace SplitRequest

variable {r : SplitRequest}

theorem getD_spread {used ks : List Nat} {d : Nat} (hd : d < r.devices.length) :
    (r.spread used ks).getD d 0 = ((used.zip ks).lookup d).getD 0 := by
  simp [spread, hd]

/-- Spreading what a set took over the devices runs layers on that set. -/
theorem filter_spread {p : Nat → Bool} {used ks : List Nat}
    (hu : (List.range r.devices.length).filter p = used) (hlen : ks.length = used.length)
    (hpos : ∀ k ∈ ks, 1 ≤ k) :
    ((List.range (r.spread used ks).length).filter fun d => (r.spread used ks).getD d 0 ≠ 0) =
      used := by
  have hnodup : used.Nodup := hu ▸ List.nodup_range.filter _
  have hlength : (r.spread used ks).length = r.devices.length := by simp [spread]
  rw [hlength]
  refine Eq.trans (List.filter_congr fun d hd => ?_) hu
  have hd := List.mem_range.mp hd
  rw [getD_spread hd]
  have hmem : d ∈ used ↔ p d := by simp [← hu, hd]
  cases hp : p d with
  | true =>
    have := lookup_zip_pos hnodup hlen hpos (hmem.mpr hp)
    exact decide_eq_true (by omega)
  | false =>
    rw [lookup_zip_eq_none (by rw [hmem, hp]; exact Bool.false_ne_true)]
    rfl

/-- Each device of the set keeps what it took. -/
theorem picks_spread {p : Nat → Bool} {used ks : List Nat}
    (hu : (List.range r.devices.length).filter p = used) (hlen : ks.length = used.length)
    (hpos : ∀ k ∈ ks, 1 ≤ k) : picks (r.spread used ks) = used.zip ks := by
  have htaken : used.map (fun d => (r.spread used ks).getD d 0) = ks := by
    refine Eq.trans (List.map_congr_left fun d hd => ?_)
      (map_lookup_zip (hu ▸ List.nodup_range.filter _) hlen)
    rw [← hu] at hd
    exact getD_spread (List.mem_range.mp (List.mem_filter.mp hd).1)
  rw [picks, filter_spread hu hlen hpos, List.map_prod_left_eq_zip, htaken]

end SplitRequest

theorem mem_takeWhile_range' {p : Nat → Bool} (hp : ∀ k k', k ≤ k' → p k' → p k) {s n k : Nat} :
    k ∈ (List.range' s n).takeWhile p ↔ s ≤ k ∧ k < s + n ∧ p k := by
  induction n generalizing s with
  | zero => simp; omega
  | succ n ih =>
    rw [List.range'_succ, List.takeWhile_cons]
    split
    next hs =>
      rw [List.mem_cons, ih]
      constructor
      · rintro (rfl | ⟨h₁, h₂, h₃⟩)
        · exact ⟨by omega, by omega, hs⟩
        · exact ⟨by omega, by omega, h₃⟩
      · rintro ⟨h₁, h₂, h₃⟩
        by_cases hk : k = s
        · exact Or.inl hk
        · exact Or.inr ⟨by omega, by omega, h₃⟩
    next hs =>
      constructor
      · intro h
        cases h
      · rintro ⟨h₁, -, h₃⟩
        exact absurd (hp s k h₁ h₃) hs

theorem sum_take_le {xs : List Nat} {i j : Nat} (h : i ≤ j) : (xs.take i).sum ≤ (xs.take j).sum := by
  obtain ⟨k, rfl⟩ := Nat.exists_eq_add_of_le h
  rw [List.take_add, List.sum_append]
  omega

namespace SplitRequest

variable (r : SplitRequest)

theorem cached_le {i j : Nat} (h : i ≤ j) : r.cached i ≤ r.cached j := sum_take_le h

theorem weightsBelow_le (d : Nat) {i j : Nat} (h : i ≤ j) :
    r.weightsBelow d i ≤ r.weightsBelow d j := by
  unfold weightsBelow
  rw [List.map_take, List.map_take]
  exact sum_take_le h

theorem lookupBelow_le {i j : Nat} (h : i ≤ j) : r.lookupBelow i ≤ r.lookupBelow j := by
  unfold lookupBelow
  rw [List.map_take, List.map_take]
  exact sum_take_le h

theorem replicas_le (i : Nat) {k k' : Nat} (h : k ≤ k') : r.replicas i k ≤ r.replicas i k' := by
  apply List.sum_le_sum
  intro s _
  have hread : (List.range' i k).any (fun j => r.fp.reads[j]? == some (Int.ofNat s)) →
      (List.range' i k').any fun j => r.fp.reads[j]? == some (Int.ofNat s) := by
    rw [List.any_eq_true, List.any_eq_true]
    rintro ⟨j, hj, hs⟩
    exact ⟨j, List.mem_range'_1.mpr (by have := List.mem_range'_1.mp hj; omega), hs⟩
  split
  next hk => rw [if_pos (hread hk)]
  next => exact Nat.zero_le _

/-- What a device holds grows with the layers it runs. -/
theorem need_le (d i : Nat) (first last : Bool) (h : HostNeed) {k k' : Nat} (hk : k ≤ k') :
    r.need d i k first last h ≤ r.need d i k' first last h := by
  have hw := r.weightsBelow_le d (Nat.add_le_add_left hk i)
  have hl := r.lookupBelow_le (Nat.add_le_add_left hk i)
  have hc := r.cached_le (Nat.add_le_add_left hk i)
  have hr := r.replicas_le i hk
  unfold need
  omega

theorem fits_iff {d bytes : Nat} :
    r.fits d bytes ↔ ∀ free, (r.device d).bytes = some free → bytes ≤ free := by
  unfold fits
  cases (r.device d).bytes with
  | none => simp
  | some free => simp

theorem fits_of_le {d m n : Nat} (h : m ≤ n) (hn : r.fits d n) : r.fits d m :=
  r.fits_iff.mpr fun free hfree => Nat.le_trans h (r.fits_iff.mp hn free hfree)

/-- Stopping at the first count that does not fit leaves out none that does. -/
theorem mem_takes {h : HostNeed} {a : Role} {i k : Nat} (hi : i < r.depth) :
    k ∈ r.takes h a i ↔ (if a.last then k = r.depth - i else 1 ≤ k ∧ i + k ≤ r.depth) ∧
      r.fits a.device (r.need a.device i k a.first a.last h) := by
  unfold takes
  rw [if_pos hi]
  split
  next =>
    rw [List.takeWhile_cons, List.takeWhile_nil]
    split
    next hfits =>
      rw [List.mem_singleton]
      constructor
      · rintro rfl
        exact ⟨rfl, hfits⟩
      · exact And.left
    next hfits =>
      constructor
      · intro hk
        cases hk
      · rintro ⟨rfl, hk⟩
        exact absurd hk hfits
  next =>
    rw [mem_takeWhile_range' fun k k' hk => r.fits_of_le (r.need_le _ _ _ _ _ hk)]
    constructor
    · rintro ⟨h₁, h₂, h₃⟩
      exact ⟨⟨h₁, by omega⟩, h₃⟩
    · rintro ⟨⟨h₁, h₂⟩, h₃⟩
      exact ⟨h₁, by omega, h₃⟩

theorem takes_pos {h : HostNeed} {a : Role} {i k : Nat} (hk : k ∈ r.takes h a i) :
    1 ≤ k ∧ i + k ≤ r.depth := by
  by_cases hi : i < r.depth
  · obtain ⟨hk, -⟩ := (r.mem_takes hi).mp hk
    split at hk
    · omega
    · exact hk
  · simp [takes, hi] at hk

/-- Layers for every device that add to the model's. -/
def Partition (counts : List Nat) : Prop :=
  counts.length = r.devices.length ∧ counts.sum = r.depth

/-- What a device of a set holds with the layers of a span. -/
def fullNeed (used : List Nat) (sp : Span) : Nat :=
  r.need sp.device sp.first sp.count (used.head? == some sp.device)
    (used.getLast? == some sp.device) (r.hostFor used)

/-- Every device that runs layers and the host are within budget. -/
def Feasible (counts : List Nat) : Prop :=
  r.hostFits (r.hostFor (usedDevices counts)) ∧
    ∀ sp ∈ usedSpans counts, r.fits sp.device (r.fullNeed (usedDevices counts) sp)

/-- The layers on devices that read in place, then the largest load of another device. -/
def planScore (counts : List Nat) : Score :=
  let inPlace (sp : Span) : Bool := (r.device sp.device).host
  toLex ((((usedSpans counts).filter inPlace).map Span.count).sum,
    (((usedSpans counts).filter fun sp => !inPlace sp).map fun sp =>
      (toLex (sp.count, r.fullNeed (usedDevices counts) sp) : Nat ×ₗ Nat)).foldl max (toLex (0, 0)))

/-- The search walks exactly the plans whose devices all fit. -/
theorem walk_chain {used : List Nat} {ps : List (Nat × Nat)} {i : Nat} (hpos : ∀ p ∈ ps, 1 ≤ p.2)
    (hsum : i + (ps.map Prod.snd).sum = r.depth)
    (hlast : ∀ pre p post, ps = pre ++ p :: post → (used.getLast? = some p.1 ↔ post = [])) :
    Layered.Walk (r.takes (r.hostFor used)) i (ps.map fun p => (roleIn used p.1, p.2)) ↔
      ∀ sp ∈ chain i ps, r.fits sp.device (r.fullNeed used sp) := by
  induction ps generalizing i with
  | nil => simp [Layered.Walk, chain]
  | cons p ps ih =>
    obtain ⟨d, k⟩ := p
    have hk : 1 ≤ k := hpos (d, k) List.mem_cons_self
    simp only [List.map_cons, List.sum_cons] at hsum
    have hend := hlast [] (d, k) ps rfl
    have hrest : (if (roleIn used d).last then k = r.depth - i else 1 ≤ k ∧ i + k ≤ r.depth) := by
      split
      next h =>
        obtain rfl := hend.mp (by simpa [roleIn] using h)
        simp only [List.map_nil, List.sum_nil] at hsum
        omega
      next => omega
    have hih := ih (i := i + k) (fun p hp => hpos p (List.mem_cons_of_mem _ hp)) (by omega)
      (fun pre p post h => hlast ((d, k) :: pre) p post (by rw [h]; rfl))
    rw [List.map_cons, Layered.Walk, r.mem_takes (by omega), hih, chain, List.forall_mem_cons]
    constructor
    · rintro ⟨⟨-, hfits⟩, hps⟩
      exact ⟨hfits, hps⟩
    · rintro ⟨hfits, hps⟩
      exact ⟨⟨hrest, hfits⟩, hps⟩

/-- The score of a walk splits into the layers in place and the largest load. -/
theorem value_chain {used : List Nat} {ps : List (Nat × Nat)} {i : Nat} {s : Score} :
    Layered.value (r.extend (r.hostFor used)) s i (ps.map fun p => (roleIn used p.1, p.2)) =
      toLex ((ofLex s).1 +
          (((chain i ps).filter fun sp => (r.device sp.device).host).map Span.count).sum,
        (((chain i ps).filter fun sp => !(r.device sp.device).host).map fun sp =>
          (toLex (sp.count, r.fullNeed used sp) : Nat ×ₗ Nat)).foldl max (ofLex s).2) := by
  induction ps generalizing i s with
  | nil => rfl
  | cons p ps ih =>
    obtain ⟨d, k⟩ := p
    rw [List.map_cons, Layered.value, ih, chain]
    cases hhost : (r.device d).host with
    | true => simp [extend, roleIn, hhost, Nat.add_assoc]
    | false => simp [extend, roleIn, hhost, fullNeed]

theorem roles_zip (counts : List Nat) :
    (roles (usedDevices counts)).zip ((picks counts).map Prod.snd) =
      (picks counts).map fun p => (roleIn (usedDevices counts) p.1, p.2) := by
  rw [roles_eq (usedDevices_nodup counts), ← map_fst_picks, List.map_map, List.zip_map']
  rfl

variable {r}

theorem walk_iff {counts : List Nat} (hp : r.Partition counts) :
    Layered.Walk (r.takes (r.hostFor (usedDevices counts))) 0
        ((roles (usedDevices counts)).zip ((picks counts).map Prod.snd)) ↔
      ∀ sp ∈ usedSpans counts, r.fits sp.device (r.fullNeed (usedDevices counts) sp) := by
  rw [roles_zip, r.walk_chain (fun p => picks_pos) (by rw [sum_picks, Nat.zero_add, hp.2]),
    usedSpans_eq]
  intro pre p post h
  have hu : usedDevices counts = pre.map Prod.fst ++ p.1 :: post.map Prod.fst := by
    rw [← map_fst_picks, h, List.map_append, List.map_cons]
  rw [getLast?_iff_nil (usedDevices_nodup counts) hu, List.map_eq_nil_iff]

theorem value_eq (counts : List Nat) :
    Layered.value (r.extend (r.hostFor (usedDevices counts))) (toLex (0, toLex (0, 0))) 0
        ((roles (usedDevices counts)).zip ((picks counts).map Prod.snd)) =
      r.planScore counts := by
  rw [roles_zip, r.value_chain, planScore, usedSpans_eq]
  simp

end SplitRequest

end Llmx
