import Llmx.Ranking
import Mathlib.Data.List.GetD

namespace Llmx

namespace Sampler

theorem toNat_orderBits (x : Binary32) : (orderBits x).toNat =
    if x.bits.toNat < 2 ^ 31 then 2 ^ 31 + x.bits.toNat else 2 ^ 32 - 1 - x.bits.toNat := by
  unfold orderBits
  rw [BitVec.msb_eq_decide]
  have hlt := x.bits.isLt
  by_cases h : x.bits.toNat < 2 ^ 31
  · have hmsb : decide (2 ^ (32 - 1) ≤ x.bits.toNat) = false := by
      rw [decide_eq_false_iff_not]
      omega
    rw [hmsb, if_neg Bool.false_ne_true, if_pos h, BitVec.toNat_or]
    show x.bits.toNat ||| 2 ^ 31 * 1 = _
    rw [Nat.or_comm, ← Nat.two_pow_add_eq_or_of_lt h 1, Nat.mul_one]
  · have hmsb : decide (2 ^ (32 - 1) ≤ x.bits.toNat) = true := by
      rw [decide_eq_true_iff]
      omega
    rw [hmsb, if_pos rfl, if_neg h, BitVec.toNat_not]

theorem orderBits_place (x : Binary32) : ((orderBits x.plusZero).toNat : Int) =
    if 0 ≤ x.place then 2 ^ 31 + x.place else 2 ^ 31 - 1 + x.place := by
  have hlt := x.bits.isLt
  rw [toNat_orderBits, ← Binary32.place_plusZero]
  have hzero : x.plusZero.bits.toNat ≠ 2 ^ 31 := Binary32.plusZero_ne x
  have hlt' := x.plusZero.bits.isLt
  unfold Binary32.place Binary32.magnitude
  generalize x.plusZero.bits.toNat = b at *
  split
  · split <;> omega
  · split <;> omega

theorem rankKey_lt {a b : Binary32} {i j : Nat} (hi : i < 2 ^ 32) (hj : j < 2 ^ 32) :
    rankKey a i < rankKey b j ↔ a.place < b.place ∨ a.place = b.place ∧ j < i := by
  have ha := orderBits_place a
  have hb := orderBits_place b
  have hlta := (orderBits a.plusZero).isLt
  have hltb := (orderBits b.plusZero).isLt
  unfold rankKey
  rw [BitVec.toNat_not, BitVec.toNat_not, BitVec.toNat_ofNat, BitVec.toNat_ofNat,
    Nat.mod_eq_of_lt hi, Nat.mod_eq_of_lt hj]
  generalize (orderBits a.plusZero).toNat = x at *
  generalize (orderBits b.plusZero).toNat = y at *
  split at ha <;> split at hb <;> omega

theorem keyId_rankKey (a : Binary32) {i : Nat} (hi : i < 2 ^ 32) : keyId (rankKey a i) = i := by
  unfold keyId rankKey
  rw [BitVec.toNat_not, BitVec.toNat_not, BitVec.toNat_ofNat, BitVec.toNat_ofNat,
    Nat.mod_eq_of_lt hi]
  omega

instance (s : Nat → Binary32) (b j : Nat) : Decidable (Beats s b j) :=
  inferInstanceAs (Decidable (_ ∨ _))

theorem mem_taking {n skip i : Nat} : i ∈ taking n skip ↔ i < n ∧ i ≠ skip := by
  simp [taking]

theorem taking_succ (skip i : Nat) :
    taking (i + 1) skip = taking i skip ++ if i = skip then [] else [i] := by
  unfold taking
  rw [List.range_succ, List.filter_append]
  congr 1
  by_cases h : i = skip <;> simp [h]

namespace Row

/-- A row of numbers whose ids fit 32 bits, with some of the ids taking part kept. -/
structure Sound (r : Row) : Prop where
  ids : r.n ≤ 2 ^ 32
  number : ∀ i < r.n, (r.s i).isNaN = false
  kept_pos : 0 < r.kept
  kept_le : r.kept ≤ r.m

/-- The ids taking part, the best first. -/
def order (r : Row) : List Nat := (taking r.n r.skip).insertionSort (Beats r.s)

/-- The keys of the ids taking part, the best first. -/
def best (r : Row) : List Nat := r.order.map r.key

variable {r : Row}

theorem length_taking (r : Row) : (taking r.n r.skip).length = r.m := by
  have hcount : ∀ n, (taking n r.skip).length = if r.skip < n then n - 1 else n := by
    intro n
    induction n with
    | zero => simp [taking]
    | succ n ih =>
      rw [taking_succ, List.length_append, ih]
      by_cases h : n = r.skip
      · rw [if_pos h, if_neg (by omega), if_pos (by omega)]
        simp only [List.length_nil]
        omega
      · rw [if_neg h]
        simp only [List.length_singleton]
        split <;> split <;> omega
  exact hcount r.n

theorem Sound.key_lt (h : r.Sound) {i j : Nat} (hi : i < r.n) (hj : j < r.n) :
    r.key i < r.key j ↔
      (r.s i).standing < (r.s j).standing ∨ (r.s i).standing = (r.s j).standing ∧ j < i := by
  have hids := h.ids
  unfold key
  rw [rankKey_lt (by omega) (by omega)]
  simp [Binary32.standing, h.number i hi, h.number j hj]

theorem Sound.keyId_key (h : r.Sound) {i : Nat} (hi : i < r.n) : keyId (r.key i) = i := by
  have hids := h.ids
  exact keyId_rankKey _ (by omega)

theorem Sound.key_le (h : r.Sound) {i j : Nat} (hi : i < r.n) (hj : j < r.n)
    (hb : Beats r.s i j) : r.key j ≤ r.key i := by
  by_contra hlt
  have hkey := (h.key_lt hi hj).mp (not_le.mp hlt)
  unfold Beats at hb
  omega

theorem order_perm (r : Row) : r.order.Perm (taking r.n r.skip) := List.perm_insertionSort _ _

theorem order_pairwise (r : Row) : r.order.Pairwise (Beats r.s) := by
  have total : Std.Total (Beats r.s) := ⟨fun a b => by unfold Beats; omega⟩
  have trans : IsTrans Nat (Beats r.s) := ⟨fun _ _ _ => Beats.trans⟩
  exact List.pairwise_insertionSort _ _

theorem mem_order {i : Nat} : i ∈ r.order ↔ i < r.n ∧ i ≠ r.skip :=
  r.order_perm.mem_iff.trans mem_taking

theorem length_order (r : Row) : r.order.length = r.m :=
  r.order_perm.length_eq.trans r.length_taking

theorem length_best (r : Row) : r.best.length = r.m := by
  rw [best, List.length_map, length_order]

theorem best_perm (r : Row) : ((taking r.n r.skip).map r.key).Perm r.best :=
  (r.order_perm.map r.key).symm

theorem Sound.best_descending (h : r.Sound) : Descending r.best := by
  unfold Descending best
  rw [List.pairwise_map]
  refine r.order_pairwise.imp_of_mem fun hi hj hb => ?_
  exact h.key_le (mem_order.mp hi).1 (mem_order.mp hj).1 hb

theorem Sound.best_nodup (h : r.Sound) : r.best.Nodup := by
  refine r.best_perm.nodup_iff.mp ?_
  apply List.Nodup.map_on
  · intro i hi j hj he
    rw [← h.keyId_key (mem_taking.mp hi).1, ← h.keyId_key (mem_taking.mp hj).1, he]
  · exact List.nodup_range.filter _

/-- The keys below the last ranked one are those of the ids not yet ranked. -/
theorem Sound.filter_below (h : r.Sound) {c : Nat} (hpos : 0 < c) (hc : c ≤ r.m) :
    r.best.filter (fun key => decide (key < r.best.getD (c - 1) 0)) = r.best.drop c := by
  have hlen := r.length_best
  have hin : c - 1 < r.best.length := by omega
  have hat : r.best.getD (c - 1) 0 = r.best[c - 1] := List.getD_eq_getElem _ _ hin
  have habove : ∀ i (hi : i < r.best.length), i < c → r.best.getD (c - 1) 0 ≤ r.best[i] := by
    intro i hi hic
    rw [hat]
    rcases Nat.lt_or_ge i (c - 1) with hlt | hge
    · exact List.pairwise_iff_getElem.mp h.best_descending i (c - 1) hi (by omega) hlt
    · obtain rfl : i = c - 1 := by omega
      exact le_refl _
  have hbelow : ∀ i (hi : i < r.best.length), c ≤ i → r.best[i] < r.best.getD (c - 1) 0 := by
    intro i hi hic
    rw [hat]
    have hle := List.pairwise_iff_getElem.mp h.best_descending (c - 1) i (by omega) hi (by omega)
    have hne := List.pairwise_iff_getElem.mp h.best_nodup (c - 1) i (by omega) hi (by omega)
    exact lt_of_le_of_ne hle (Ne.symm hne)
  generalize r.best.getD (c - 1) 0 = last at *
  have hfront : (r.best.take c).filter (fun key => decide (key < last)) = [] := by
    rw [List.filter_eq_nil_iff]
    intro key hkey
    obtain ⟨i, hi, rfl⟩ := List.getElem_of_mem hkey
    rw [List.length_take] at hi
    rw [List.getElem_take, decide_eq_true_iff, not_lt]
    exact habove i (by omega) (by omega)
  have hrest : (r.best.drop c).filter (fun key => decide (key < last)) = r.best.drop c := by
    rw [List.filter_eq_self]
    intro key hkey
    obtain ⟨i, hi, rfl⟩ := List.getElem_of_mem hkey
    rw [List.length_drop] at hi
    rw [List.getElem_drop, decide_eq_true_iff]
    exact hbelow (c + i) (by omega) (by omega)
  calc r.best.filter (fun key => decide (key < last))
      = (r.best.take c ++ r.best.drop c).filter (fun key => decide (key < last)) := by
        rw [List.take_append_drop]
    _ = r.best.drop c := by rw [List.filter_append, hfront, hrest, List.nil_append]

end Row

end Sampler

namespace Sampler

namespace Ranking

/-- Of the ids before `i` taking part, some `c` whose keys are on a heap and no worse than any
other's. -/
structure Best (r : Row) (c i : Nat) (keys : List Nat) : Prop where
  heap : IsHeap keys
  length : keys.length = c
  others : ∃ out, (keys ++ out).Perm ((taking i r.skip).map r.key) ∧ ∀ y ∈ out, y ≤ keys.headD 0

variable {r : Row} {c i : Nat} {keys : List Nat}

/-- The front of the heap is the key of an id. -/
theorem Best.front (h : Best r c i keys) (hc : 0 < c) :
    ∃ j, j < i ∧ j ≠ r.skip ∧ keys.headD 0 = r.key j := by
  have hlen := h.length
  obtain ⟨out, hperm, -⟩ := h.others
  cases keys with
  | nil =>
    simp only [List.length_nil] at hlen
    omega
  | cons x l =>
    have hmem : x ∈ (taking i r.skip).map r.key := hperm.subset (by simp)
    obtain ⟨j, hj, rfl⟩ := List.mem_map.mp hmem
    obtain ⟨hlt, hne⟩ := mem_taking.mp hj
    exact ⟨j, hlt, hne, rfl⟩

/-- An id no better than the front is left out. -/
theorem Best.pass (h : Best r c i keys) (hi : i ≠ r.skip → r.key i ≤ keys.headD 0) :
    Best r c (i + 1) keys := by
  obtain ⟨out, hperm, hout⟩ := h.others
  refine ⟨h.heap, h.length, ?_⟩
  rw [taking_succ]
  split
  next =>
    rw [List.append_nil]
    exact ⟨out, hperm, hout⟩
  next hne =>
    refine ⟨out ++ [r.key i], ?_, fun y hy => ?_⟩
    · rw [← List.append_assoc, List.map_append]
      exact hperm.append_right _
    · rcases List.mem_append.mp hy with hy | hy
      · exact hout y hy
      · obtain rfl := List.mem_singleton.mp hy
        exact hi hne

/-- A better id takes the place of the front, and the new front is no worse. -/
theorem Best.replace (std : LargestFirst Nat) (h : Best r c i keys) (hc : 0 < c) (hne : i ≠ r.skip)
    (hbetter : keys.headD 0 < r.key i) :
    Best r c (i + 1) (std.pushHeap ((std.popHeap keys).dropLast ++ [r.key i])) ∧
      keys.headD 0 ≤ (std.pushHeap ((std.popHeap keys).dropLast ++ [r.key i])).headD 0 := by
  have hlen := h.length
  obtain ⟨out, hperm, hout⟩ := h.others
  cases keys with
  | nil =>
    simp only [List.length_nil] at hlen
    omega
  | cons x l =>
    obtain ⟨hnewheap, hnew, hall⟩ := std.replace h.heap hbetter.le
    simp only [List.headD_cons] at hout ⊢
    generalize std.pushHeap ((std.popHeap (x :: l)).dropLast ++ [r.key i]) = new at *
    have hfront : x ≤ new.headD 0 := by
      cases new with
      | nil => exact absurd hnew.length_eq (Nat.succ_ne_zero _).symm
      | cons y new => exact hall y List.mem_cons_self
    refine ⟨⟨hnewheap, hnew.length_eq.trans hlen, out ++ [x], ?_, fun y hy => ?_⟩, hfront⟩
    · rw [taking_succ, if_neg hne, List.map_append]
      have hswap : (new ++ (out ++ [x])).Perm ((x :: l) ++ out ++ [r.key i]) := by
        refine (hnew.append_right (out ++ [x])).trans ?_
        rw [List.perm_iff_count]
        intro a
        simp only [List.count_append, List.count_cons, List.count_nil]
        omega
      exact hswap.trans (hperm.append_right _)
    · rcases List.mem_append.mp hy with hy | hy
      · exact (hout y hy).trans hfront
      · obtain rfl := List.mem_singleton.mp hy
        exact hfront

/-- The score held against the next ones is the front's. -/
structure Held.Sound (r : Row) (c i : Nat) (h : Held) : Prop where
  best : Best r c i h.keys
  worst : h.worst = r.s (keyId (h.keys.headD 0))

/-- A score below the worst held one has the smaller key. -/
theorem Held.Sound.key_lt (hr : r.Sound) {h : Held} (hs : h.Sound r c i) (hc : 0 < c)
    (hi : i ≤ r.n) {j : Nat} (hj : j < r.n) (hworse : h.worst.larger (r.s j) = true) :
    r.key j < h.keys.headD 0 := by
  obtain ⟨f, hf, -, hfront⟩ := hs.best.front hc
  have hworst := hs.worst
  rw [hfront, hr.keyId_key (by omega)] at hworst
  rw [hworst, Binary32.larger_iff (hr.number j hj)] at hworse
  rw [hfront]
  exact (hr.key_lt hj (by omega)).mpr (Or.inl hworse)

theorem Held.Sound.consider (std : LargestFirst Nat) (hr : r.Sound) {h : Held}
    (hs : h.Sound r c i) (hc : 0 < c) (hi : i < r.n) :
    (h.consider std r i).Sound r c (i + 1) ∧
      h.keys.headD 0 ≤ (h.consider std r i).keys.headD 0 := by
  unfold Held.consider
  split
  next hpass =>
    refine ⟨⟨hs.best.pass fun hne => ?_, hs.worst⟩, le_refl _⟩
    exact (hs.key_lt hr hc hi.le hi (hpass.resolve_right hne)).le
  next hread =>
    rw [not_or] at hread
    split
    next hbetter =>
      obtain ⟨hbest, hfront⟩ := hs.best.replace std hc hread.2 hbetter
      exact ⟨⟨hbest, rfl⟩, hfront⟩
    next hno => exact ⟨⟨hs.best.pass fun _ => not_lt.mp hno, hs.worst⟩, le_refl _⟩

/-- The worst score held only rises, so what was below it before the eight stays out. -/
theorem Held.Sound.eight (std : LargestFirst Nat) (hr : r.Sound) {h : Held} (hs : h.Sound r c i) (hc : 0 < c)
    (hi : i + 8 ≤ r.n) : (h.eight std r i).Sound r c (i + 8) := by
  have hlanes : ∀ k ≤ 8,
      ((List.range k).foldl
        (fun h' l => if h.worst.larger (r.s (i + l)) then h' else h'.consider std r (i + l))
        h).Sound r c (i + k) ∧
      h.keys.headD 0 ≤ ((List.range k).foldl
        (fun h' l => if h.worst.larger (r.s (i + l)) then h' else h'.consider std r (i + l))
        h).keys.headD 0 := by
    intro k hk
    induction k with
    | zero => exact ⟨hs, le_refl _⟩
    | succ k ih =>
      obtain ⟨hsound, hfront⟩ := ih (by omega)
      rw [List.range_succ, List.foldl_append, List.foldl_cons, List.foldl_nil]
      generalize (List.range k).foldl _ h = h' at *
      split
      next hworse =>
        have hkey := hs.key_lt hr hc (by omega) (by omega : i + k < r.n) hworse
        exact ⟨⟨hsound.best.pass fun _ => hkey.le.trans hfront, hsound.worst⟩, hfront⟩
      next =>
        obtain ⟨hnext, hrise⟩ := hsound.consider std hr hc (by omega)
        exact ⟨hnext, hfront.trans hrise⟩
  exact (hlanes 8 (le_refl 8)).1

theorem Held.Sound.eights (std : LargestFirst Nat) (hr : r.Sound) (hc : 0 < c) (left : Nat)
    {h : Held}
    (hs : h.Sound r c i) (hi : i ≤ r.n) (hleft : left = r.n - i) :
    (Ranking.eights std r i h).2.Sound r c (Ranking.eights std r i h).1 ∧
      (Ranking.eights std r i h).1 ≤ r.n := by
  induction left using Nat.strongRecOn generalizing i h with
  | _ left ih =>
    rw [Ranking.eights]
    split
    next hin => exact ih (r.n - (i + 8)) (by omega) (hs.eight std hr hc hin) hin rfl
    next => exact ⟨hs, hi⟩

theorem Held.Sound.tail (std : LargestFirst Nat) (hr : r.Sound) (hc : 0 < c) (k : Nat) {h : Held}
    (hs : h.Sound r c i) (hk : i + k ≤ r.n) :
    ((List.range' i k).foldl (Held.consider std r) h).Sound r c (i + k) := by
  induction k generalizing i h with
  | zero => exact hs
  | succ k ih =>
    rw [List.range'_succ, List.foldl_cons, Nat.add_comm k 1, ← Nat.add_assoc]
    exact ih (hs.consider std hr hc (by omega)).1 (by omega)

/-- The heap is filled with the first ids taking part. -/
theorem fill_spec {std : LargestFirst Nat} (hcm : c ≤ r.m) (left : Nat) (hi : i ≤ r.n) (hleft : left = r.n - i)
    (hheap : IsHeap keys) (hperm : keys.Perm ((taking i r.skip).map r.key))
    (hlen : keys.length ≤ c) :
    Best r c (fill std r c i keys).1 (fill std r c i keys).2 ∧ (fill std r c i keys).1 ≤ r.n := by
  induction left using Nat.strongRecOn generalizing i keys with
  | _ left ih =>
    rw [fill]
    split
    next hin =>
      split
      next hskip =>
        refine ih (r.n - (i + 1)) (by omega) (by omega) rfl hheap ?_ hlen
        rw [taking_succ, if_pos hskip, List.append_nil]
        exact hperm
      next hne =>
        obtain ⟨hpush, hpushheap⟩ := std.push keys (r.key i) hheap
        refine ih (r.n - (i + 1)) (by omega) (by omega) rfl hpushheap ?_ ?_
        · rw [taking_succ, if_neg hne, List.map_append]
          exact hpush.trans (hperm.append_right _)
        · rw [hpush.length_eq, List.length_append, List.length_singleton]
          omega
    next hout =>
      refine ⟨⟨hheap, ?_, [], ?_, by simp⟩, hi⟩
      · show keys.length = c
        rcases Nat.lt_or_ge i r.n with hlt | hge
        · have hfull : ¬keys.length < c := fun hshort => hout ⟨hlt, hshort⟩
          omega
        · obtain rfl : i = r.n := by omega
          have hall := hperm.length_eq
          rw [List.length_map, r.length_taking] at hall
          omega
      · rw [List.append_nil]
        exact hperm

/-- The heap pass gives the best keys in rank order. -/
theorem heapSelect_eq (std : LargestFirst Nat) (hr : r.Sound) (hc : 0 < c) (hcm : c ≤ r.m) :
    heapSelect std r c = r.best.take c := by
  obtain ⟨hfill, hle⟩ : Best r c (fill std r c 0 []).1 (fill std r c 0 []).2 ∧
      (fill std r c 0 []).1 ≤ r.n :=
    fill_spec hcm (r.n - 0) (Nat.zero_le _) rfl isHeap_nil (by simp [taking]) (Nat.zero_le c)
  have hstart : (Held.of r (fill std r c 0 []).2).Sound r c (fill std r c 0 []).1 := ⟨hfill, rfl⟩
  obtain ⟨heights, hle'⟩ := hstart.eights std hr hc _ hle rfl
  have htail := heights.tail std hr hc
    (r.n - (eights std r (fill std r c 0 []).1 (Held.of r (fill std r c 0 []).2)).1) (by omega)
  unfold heapSelect
  dsimp only
  generalize eights std r (fill std r c 0 []).1 (Held.of r (fill std r c 0 []).2) = rest at *
  generalize (List.range' rest.1 (r.n - rest.1)).foldl (Held.consider std r) rest.2 = h at *
  rw [Nat.add_sub_cancel' hle'] at htail
  obtain ⟨hheap, hlen, out, hperm, hout⟩ := htail.best
  rw [std.sortHeap_take hr.best_descending hheap (hperm.trans r.best_perm) (fun x hx => ?_), hlen]
  cases hkeys : h.keys with
  | nil =>
    rw [hkeys] at hx
    cases hx
  | cons f l =>
    rw [hkeys] at hx hout
    cases hx
    exact hout

end Ranking

end Sampler

end Llmx
