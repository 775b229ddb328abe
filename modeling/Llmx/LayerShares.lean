import Llmx.LayerChecks
import Mathlib.Algebra.Order.BigOperators.Group.List

namespace Llmx

/-- What falls to a device of the layers handed out one by one. -/
theorem getElem?_foldl_modify (xs : List (Nat × Nat)) (count : List Nat) (d : Nat) :
    (xs.foldl (fun count x => count.modify x.2 (· + 1)) count)[d]? =
      (count[d]?).map (· + (xs.map Prod.snd).count d) := by
  induction xs generalizing count with
  | nil => simp
  | cons x xs ih =>
    rw [List.foldl_cons, ih, List.getElem?_modify, List.map_cons, List.count_cons]
    cases hd : count[d]? with
    | none => simp
    | some c =>
      by_cases hx : x.2 = d
      · simp [hx]
        omega
      · simp [hx]

theorem sum_le_mul {xs : List Nat} {S : Nat} (h : ∀ x ∈ xs, x ≤ S) : xs.sum ≤ xs.length * S := by
  induction xs with
  | nil => simp
  | cons x xs ih =>
    obtain ⟨hx, hxs⟩ := List.forall_mem_cons.mp h
    have hrest := ih hxs
    rw [List.sum_cons, List.length_cons, Nat.add_mul]
    omega

/-- Of numbers below `S`, the largest first, the first `k` are not zero where all add up to `k`
times `S`. -/
theorem pos_of_mem_take {xs : List Nat} {k S : Nat} (hs : xs.Pairwise fun a b => b ≤ a)
    (hlt : ∀ x ∈ xs, x < S) (hsum : xs.sum = k * S) : ∀ x ∈ xs.take k, 0 < x := by
  intro x hx
  obtain ⟨i, hi, rfl⟩ := List.mem_iff_getElem.mp hx
  rw [List.length_take] at hi
  rw [List.getElem_take]
  by_contra hzero
  have hrest : ∀ y ∈ xs.drop i, y ≤ 0 := by
    intro y hy
    obtain ⟨j, hj, rfl⟩ := List.mem_iff_getElem.mp hy
    rw [List.length_drop] at hj
    rw [List.getElem_drop]
    by_cases hj0 : j = 0
    · subst j
      exact Nat.le_of_not_lt hzero
    · have := List.pairwise_iff_getElem.mp hs i (i + j) (by omega) (by omega) (by omega)
      omega
  have htail := sum_le_mul hrest
  have hfirst : ∀ y ∈ xs.take i, y ≤ S := fun y hy => Nat.le_of_lt (hlt y (List.mem_of_mem_take hy))
  have hhead := sum_le_mul hfirst
  have hsplit := congrArg List.sum (List.take_append_drop i xs)
  rw [List.sum_append] at hsplit
  have hS : 0 < S := Nat.lt_of_le_of_lt (Nat.zero_le _) (hlt xs[i] (List.getElem_mem _))
  have hik : i * S + S ≤ k * S := by
    rw [← Nat.succ_mul]
    exact Nat.mul_le_mul_right S (by omega)
  rw [List.length_take, Nat.min_eq_left (by omega)] at hhead
  omega

section Shares

variable {L : Nat} {shares : List Nat}

theorem shareOrder_perm (L : Nat) (shares : List Nat) :
    (shareOrder L shares).Perm (shares.zipIdx.map fun x => (L * x.1 % shares.sum, x.2)) :=
  List.perm_insertionSort _ _

theorem shareOrder_sorted (L : Nat) (shares : List Nat) :
    ((shareOrder L shares).map Prod.fst).Pairwise fun a b => b ≤ a := by
  rw [List.pairwise_map]
  exact List.pairwise_insertionSort _ _

theorem shareOrder_devices (L : Nat) (shares : List Nat) :
    ((shareOrder L shares).map Prod.snd).Nodup := by
  have hperm := (shareOrder_perm L shares).map Prod.snd
  rw [List.map_map] at hperm
  have hindex : Prod.snd ∘ (fun x : Nat × Nat => (L * x.1 % shares.sum, x.2)) = Prod.snd := by
    funext x
    exact Eq.refl _
  rw [hindex, List.zipIdx_map_snd] at hperm
  exact hperm.nodup_iff.mpr (List.nodup_range')

theorem shareOrder_remainders (L : Nat) (shares : List Nat) :
    ((shareOrder L shares).map Prod.fst).Perm (shares.map fun s => L * s % shares.sum) := by
  have hperm := (shareOrder_perm L shares).map Prod.fst
  rw [List.map_map] at hperm
  have hshare : Prod.fst ∘ (fun x : Nat × Nat => (L * x.1 % shares.sum, x.2)) =
      (fun s => L * s % shares.sum) ∘ Prod.fst := by
    funext x
    exact Eq.refl _
  rw [hshare, ← List.map_map, List.zipIdx_map_fst] at hperm
  exact hperm

theorem mem_shareOrder {x : Nat × Nat} (h : x ∈ shareOrder L shares) :
    ∃ s, shares[x.2]? = some s ∧ x.1 = L * s % shares.sum := by
  obtain ⟨⟨s, d⟩, hsd, rfl⟩ := List.mem_map.mp ((shareOrder_perm L shares).mem_iff.mp h)
  exact ⟨s, List.mem_zipIdx_iff_getElem?.mp hsd, Eq.refl _⟩

/-- The layers the whole parts leave. -/
def shareRest (L : Nat) (shares : List Nat) : Nat :=
  L - (shares.map fun s => L * s / shares.sum).sum

/-- The remainders add up to the layers that are left, each a whole `shares.sum`. -/
theorem sum_remainders (L : Nat) (shares : List Nat) :
    (shares.map fun s => L * s % shares.sum).sum = shareRest L shares * shares.sum := by
  have hwhole := sum_div_add_sum_mod L shares.sum shares
  unfold shareRest
  rw [Nat.sub_mul]
  omega

/-- Only devices with a remainder get one of the layers that are left. -/
theorem remainder_pos (h : 0 < shares.sum) {x : Nat × Nat}
    (hx : x ∈ (shareOrder L shares).take (shareRest L shares)) : 0 < x.1 := by
  have hperm := shareOrder_remainders L shares
  refine pos_of_mem_take (shareOrder_sorted L shares) (S := shares.sum) (k := shareRest L shares)
    ?_ ?_ x.1 ?_
  · intro y hy
    obtain ⟨s, hs, rfl⟩ := List.mem_map.mp (hperm.mem_iff.mp hy)
    exact Nat.mod_lt _ h
  · rw [hperm.sum_eq, sum_remainders]
  · rw [← List.map_take]
    exact List.mem_map_of_mem hx

/-- The layers that are left are fewer than the devices. -/
theorem shareRest_lt (h : 0 < shares.sum) : shareRest L shares < (shareOrder L shares).length := by
  have hlen : (shareOrder L shares).length = shares.length := by
    rw [(shareOrder_perm L shares).length_eq, List.length_map, List.length_zipIdx]
  rw [hlen]
  apply Nat.lt_of_mul_lt_mul_right (a := shares.sum)
  rw [← sum_remainders]
  cases shares with
  | nil => cases h
  | cons s rest =>
    have hrest := sum_mod_le L h rest
    have hs := Nat.mod_lt (L * s) h
    rw [List.map_cons, List.sum_cons, List.length_cons, Nat.succ_mul]
    omega

/-- A device gets its whole part, or one more where it has a remainder. -/
theorem shareCounts_get (h : 0 < shares.sum) {d s : Nat} (hs : shares[d]? = some s) :
    ∃ c, (shareCounts L shares)[d]? = some c ∧
      (c = L * s / shares.sum ∨ c = L * s / shares.sum + 1 ∧ 0 < L * s % shares.sum) := by
  have hget := getElem?_foldl_modify ((shareOrder L shares).take (shareRest L shares))
    (shares.map fun s => L * s / shares.sum) d
  rw [List.getElem?_map, hs, Option.map_some, Option.map_some] at hget
  refine ⟨_, hget, ?_⟩
  have hnodup : (((shareOrder L shares).take (shareRest L shares)).map Prod.snd).Nodup := by
    rw [List.map_take]
    exact (shareOrder_devices L shares).sublist (List.take_sublist _ _)
  by_cases hmem : d ∈ ((shareOrder L shares).take (shareRest L shares)).map Prod.snd
  · right
    rw [List.count_eq_one_of_mem hnodup hmem]
    refine ⟨Eq.refl _, ?_⟩
    obtain ⟨x, hx, rfl⟩ := List.mem_map.mp hmem
    obtain ⟨s', hs', hx1⟩ := mem_shareOrder (List.mem_of_mem_take hx)
    have hpos := remainder_pos h hx
    rw [hs] at hs'
    obtain rfl := Option.some.inj hs'
    omega
  · left
    rw [List.count_eq_zero_of_not_mem hmem]
    exact Eq.refl _

end Shares

/-- A whole part, or one more where a remainder is, is within less than one of the proportion. -/
theorem near_of_whole {L s S c : Nat} (hS : 0 < S)
    (h : c = L * s / S ∨ c = L * s / S + 1 ∧ 0 < L * s % S) :
    c * S < L * s + S ∧ L * s < c * S + S ∧ (s = 0 → c = 0) := by
  have hsplit := Nat.div_add_mod' (L * s) S
  have hrest := Nat.mod_lt (L * s) hS
  rcases h with rfl | ⟨rfl, hpos⟩
  · refine ⟨by omega, by omega, fun h0 => ?_⟩
    rw [h0, Nat.mul_zero, Nat.zero_div]
  · rw [Nat.succ_mul]
    refine ⟨by omega, by omega, fun h0 => ?_⟩
    rw [h0, Nat.mul_zero, Nat.zero_mod] at hpos
    omega

/-- The layers that accepted shares give: all of them, each device's proportion within less than one
and none where its share is zero, with no more handed out one by one than there are devices; nothing
passes the machine's integers where the layers do not. -/
theorem shares_apportion (L : Nat) {devices : Nat} {shares : List Int} (hne : shares ≠ [])
    (h : checkSplit devices shares = .ok ()) :
    let ss := shares.map Int.toNat
    let counts := shareCounts L ss
    counts.length = devices ∧ counts.sum = L ∧
      (∀ d c : Nat, counts[d]? = some c → ∃ s : Int, shares[d]? = some s ∧ 0 ≤ s ∧
        (c : Int) * shares.sum < L * s + shares.sum ∧ L * s < (c : Int) * shares.sum + shares.sum ∧
        (s = 0 → c = 0)) ∧
      shareRest L ss < (shareOrder L ss).length ∧
      (∀ x ∈ shareOrder L ss, x.2 < devices) ∧
      (L < 2 ^ 31 → (∀ s ∈ shares, s < 2 ^ 31) → (∀ s ∈ ss, L * s < 2 ^ 64) ∧
        ∀ c ∈ counts, c < 2 ^ 31) := by
  dsimp only
  obtain ⟨hlen, hsum⟩ := checkSplit_shares hne h
  obtain ⟨hcounts, htotal⟩ := shareCounts_partition L hsum
  rw [List.length_map, hlen] at hcounts
  have hwhole := sum_map_toNat (checkSplit_nonneg hne h)
  refine ⟨hcounts, htotal, ?_, shareRest_lt hsum, ?_, ?_⟩
  · intro d c hc
    have hd : d < shares.length := by
      have := (List.getElem?_eq_some_iff.mp hc).1
      omega
    have hs := List.getElem?_eq_getElem hd
    have hs0 := checkSplit_nonneg hne h shares[d] (List.getElem_mem hd)
    have hnat : (shares.map Int.toNat)[d]? = some shares[d].toNat := by
      rw [List.getElem?_map, hs, Option.map_some]
    obtain ⟨c', hc', hcase⟩ := shareCounts_get (L := L) hsum hnat
    rw [hc'] at hc
    obtain rfl := Option.some.inj hc
    refine ⟨shares[d], hs, hs0, ?_⟩
    obtain ⟨s, hs⟩ := Int.eq_ofNat_of_zero_le hs0
    rw [hs, Int.toNat_natCast] at hcase
    rw [hs, ← hwhole]
    obtain ⟨hlow, hhigh, hzero⟩ := near_of_whole hsum hcase
    exact ⟨mod_cast hlow, mod_cast hhigh, fun h0 => hzero (mod_cast h0)⟩
  · intro x hx
    obtain ⟨s, hs, -⟩ := mem_shareOrder hx
    have := (List.getElem?_eq_some_iff.mp hs).1
    rw [List.length_map] at this
    omega
  · intro hL hshares
    constructor
    · intro s hs
      obtain ⟨t, ht, rfl⟩ := List.mem_map.mp hs
      have htop := hshares t ht
      have hmul : L * t.toNat ≤ 2 ^ 31 * 2 ^ 31 := Nat.mul_le_mul (by omega) (by omega)
      omega
    · intro c hc
      have := List.le_sum_of_mem hc
      omega

theorem shares_apportion_three :
    checkSplit 3 [2, 0, 5] = .ok () ∧ shareCounts 36 [2, 0, 5] = [10, 0, 26] ∧
      shareRest 36 [2, 0, 5] < 3 := by
  have h : checkSplit 3 [2, 0, 5] = .ok () := by decide
  obtain ⟨-, -, -, hrest, -, -⟩ := shares_apportion 36 (by decide) h
  exact ⟨h, by decide, hrest⟩

end Llmx
