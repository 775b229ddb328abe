import Llmx.LayerSearch

namespace Llmx

theorem length_foldl_modify (xs : List (Nat × Nat)) (count : List Nat) :
    (xs.foldl (fun count x => count.modify x.2 (· + 1)) count).length = count.length := by
  induction xs generalizing count with
  | nil => rfl
  | cons x xs ih => rw [List.foldl_cons, ih, List.length_modify]

theorem sum_modify_succ {count : List Nat} {d : Nat} (hd : d < count.length) :
    (count.modify d (· + 1)).sum = count.sum + 1 := by
  induction count generalizing d with
  | nil => cases hd
  | cons c count ih =>
    cases d with
    | zero =>
      rw [List.modify_zero_cons, List.sum_cons, List.sum_cons]
      omega
    | succ d =>
      rw [List.modify_succ_cons, List.sum_cons, List.sum_cons,
        ih (Nat.lt_of_succ_lt_succ hd)]
      omega

/-- Each layer given out is one more. -/
theorem sum_foldl_modify {xs : List (Nat × Nat)} {count : List Nat}
    (h : ∀ x ∈ xs, x.2 < count.length) :
    (xs.foldl (fun count x => count.modify x.2 (· + 1)) count).sum = count.sum + xs.length := by
  induction xs generalizing count with
  | nil => rfl
  | cons x xs ih =>
    obtain ⟨hx, hxs⟩ := List.forall_mem_cons.mp h
    rw [List.foldl_cons, ih (by simpa using hxs), sum_modify_succ hx, List.length_cons]
    omega

/-- The whole parts and the remainders of a proportion add to the whole. -/
theorem sum_div_add_sum_mod (L S : Nat) (shares : List Nat) :
    (shares.map fun s => L * s / S).sum * S + (shares.map fun s => L * s % S).sum =
      L * shares.sum := by
  induction shares with
  | nil => simp
  | cons s shares ih =>
    have hs := Nat.div_add_mod' (L * s) S
    simp only [List.map_cons, List.sum_cons, Nat.add_mul, Nat.mul_add]
    omega

theorem sum_mod_le (L : Nat) {S : Nat} (hS : 0 < S) (shares : List Nat) :
    (shares.map fun s => L * s % S).sum ≤ shares.length * S := by
  induction shares with
  | nil => simp
  | cons s shares ih =>
    have hs := Nat.mod_lt (L * s) hS
    simp only [List.map_cons, List.sum_cons, List.length_cons, Nat.add_mul]
    omega

/-- Shares give every device its layers and no layer twice. -/
theorem shareCounts_partition (L : Nat) {shares : List Nat} (h : 0 < shares.sum) :
    (shareCounts L shares).length = shares.length ∧ (shareCounts L shares).sum = L := by
  have hwhole := sum_div_add_sum_mod L shares.sum shares
  have hrest := sum_mod_le L h shares
  have hgiven : (shares.map fun s => L * s / shares.sum).sum ≤ L := by
    apply Nat.le_of_mul_le_mul_right _ h
    omega
  have hleft : L - (shares.map fun s => L * s / shares.sum).sum ≤ shares.length := by
    apply Nat.le_of_mul_le_mul_right _ h
    rw [Nat.sub_mul]
    omega
  have horder : (shareOrder L shares).length = shares.length := by simp [shareOrder]
  have hdevice : ∀ x ∈ shareOrder L shares, x.2 < shares.length := by
    intro x hx
    obtain ⟨⟨s, d⟩, hsd, rfl⟩ := List.mem_map.mp ((List.mem_insertionSort _).mp hx)
    exact (List.mem_zipIdx' hsd).1
  constructor
  · exact (length_foldl_modify _ _).trans (List.length_map _)
  · refine (sum_foldl_modify ?_).trans ?_
    · intro x hx
      rw [List.length_map]
      exact hdevice x (List.mem_of_mem_take hx)
    · rw [List.length_take]
      omega

theorem sum_map_toNat {shares : List Int} (h : ∀ s ∈ shares, 0 ≤ s) :
    ((shares.map Int.toNat).sum : Int) = shares.sum := by
  induction shares with
  | nil => rfl
  | cons s shares ih =>
    obtain ⟨hs, hshares⟩ := List.forall_mem_cons.mp h
    have hih := ih hshares
    simp only [List.map_cons, List.sum_cons]
    omega

theorem checkSplit_nonneg {devices : Nat} {shares : List Int} (hne : shares ≠ [])
    (h : checkSplit devices shares = .ok ()) : ∀ s ∈ shares, 0 ≤ s := by
  have hempty : shares.isEmpty = false := by simpa using hne
  unfold checkSplit at h
  simp only [hempty, Bool.false_eq_true, if_false] at h
  split at h
  next => cases h
  split at h
  next => cases h
  split at h
  next => cases h
  next hneg =>
    intro s hs
    by_contra hlt
    exact hneg (List.any_eq_true.mpr ⟨s, hs, by simpa using hlt⟩)

/-- A request that is not refused has a proportion of the layers for every device. -/
theorem checkSplit_shares {devices : Nat} {shares : List Int} (hne : shares ≠ [])
    (h : checkSplit devices shares = .ok ()) :
    shares.length = devices ∧ 0 < (shares.map Int.toNat).sum := by
  have hempty : shares.isEmpty = false := by simpa using hne
  have hsum := sum_map_toNat (checkSplit_nonneg hne h)
  unfold checkSplit at h
  simp only [hempty, Bool.false_eq_true, if_false] at h
  split at h
  next => cases h
  split at h
  next => cases h
  next hlen =>
    split at h
    next => cases h
    split at h
    next => cases h
    next hzero => exact ⟨by omega, by omega⟩

namespace SplitRequest

variable {r : SplitRequest} {shares : List Int}

theorem check_depth (h : r.check shares = .ok ()) : 1 ≤ r.depth := by
  unfold check at h
  split at h
  next => cases h
  split at h
  next => cases h
  next hL => omega

theorem check_shares (h : r.check shares = .ok ()) :
    checkSplit r.devices.length shares = .ok () := by
  unfold check at h
  split at h
  next => cases h
  split at h
  next => cases h
  split at h
  next => cases h
  next hcheck => exact hcheck

theorem check_of_ok {out : LayerSplit} (h : r.splitLayers shares = .ok out) :
    r.check shares = .ok () := by
  unfold splitLayers at h
  split at h
  next => cases h
  next hcheck => exact hcheck

/-- The layers that shares give the devices. -/
theorem partition_shares (hne : shares ≠ []) (h : r.check shares = .ok ()) :
    r.Partition (shareCounts r.depth (shares.map Int.toNat)) := by
  obtain ⟨hlen, hsum⟩ := checkSplit_shares hne (check_shares h)
  obtain ⟨hlen', hsum'⟩ := shareCounts_partition r.depth hsum
  rw [List.length_map, hlen] at hlen'
  exact ⟨hlen', hsum'⟩

/-- With shares a split is their layers filled in. -/
theorem splitLayers_shares (hne : shares ≠ []) (h : r.check shares = .ok ()) :
    r.splitLayers shares = r.fill (shareCounts r.depth (shares.map Int.toNat)) := by
  have hempty : shares.isEmpty = false := by simpa using hne
  rw [splitLayers, h]
  simp only [layerCounts, hempty, Bool.false_eq_true, if_false]

/-- By either path a split's layers add up and its stages were filled in and checked. -/
theorem partition_fill {out : LayerSplit} (h : r.splitLayers shares = .ok out) :
    r.Partition out.counts ∧ r.fill out.counts = .ok out := by
  by_cases hne : shares = []
  · subst hne
    obtain ⟨⟨s, hbest⟩, hfill⟩ := splitLayers_nil h
    exact ⟨(balanced_sound hbest).1, hfill⟩
  · have hcheck := check_of_ok h
    rw [splitLayers_shares hne hcheck] at h
    rw [fill_counts h]
    exact ⟨partition_shares hne hcheck, h⟩

variable (r) in
/-- The device that carries the host's needs has them in its budget, else they fit the host. -/
def HostHolds (counts : List Nat) : Prop :=
  let h := r.hostFor (usedDevices counts)
  match h.carrier with
  | some d => ∀ free, (r.device d).bytes = some free → h.need ≤ free
  | none => ∀ room, r.hostRoom = some room → h.need ≤ room

theorem hostNeed_le {used : List Nat} {sp : Span}
    (h : (r.hostFor used).carrier = some sp.device) :
    (r.hostFor used).need ≤ r.fullNeed used sp - r.headNeed used sp := by
  simp only [fullNeed, headNeed, need, overhead, h, if_true]
  omega

theorem hostHolds_of_ok {counts : List Nat} (hne : usedDevices counts ≠ [])
    (h : ∃ out, r.fill counts = .ok out) : r.HostHolds counts := by
  obtain ⟨hhost, hfits⟩ := (fill_ok_iff hne).mp h
  unfold HostHolds
  dsimp only
  split
  next d hd =>
    intro free hfree
    obtain ⟨sp, hsp, rfl⟩ := List.mem_map.mp (List.mem_of_find?_eq_some hd)
    exact Nat.le_trans (hostNeed_le hd) (r.fits_iff.mp (hfits sp hsp) free hfree)
  next hd =>
    intro room hroom
    unfold hostFits at hhost
    rw [hd, hroom] at hhost
    simpa using hhost

end SplitRequest

/-- One layer of eight bytes on a device, which argmax passes take four bytes more. -/
def argmaxDevice (bytes : Option Nat) : SplitRequest :=
  { (default : SplitRequest) with
    fp := { (default : Footprint) with
      layers := [[⟨0, 1, 8, 8, true⟩]]
      argmaxPerRow := 4
      argmaxRows := 1 }
    devices := [{ (default : DeviceBudget) with name := "gpu", bytes := bytes, argmax := true }]
    rows := 1
    slots := 1
    page := 4096 }

end Llmx
