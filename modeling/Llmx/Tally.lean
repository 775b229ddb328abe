import Llmx.SlotPool
import Mathlib.Data.Multiset.Count
import Mathlib.Data.Finset.Card
import Mathlib.Data.Finset.Range
import Mathlib.Tactic.Common
import Mathlib.Data.List.GetD

/-!
References to shared things, as multisets: what goes when some of them are dropped.
-/

namespace References

variable {α : Type} [DecidableEq α] {held added dropped left : Multiset α}

/-- Of the references `held`, with more of the same things `added`, some are dropped. -/
structure Dropping (held added dropped left : Multiset α) : Prop where
  total : held + added = dropped + left
  known : ∀ x ∈ added, x ∈ held
  part : dropped ≤ held

namespace Dropping

omit [DecidableEq α] in
theorem left_sub (d : Dropping held added dropped left) {x : α} (hx : x ∈ left) : x ∈ held := by
  have hsum : x ∈ held + added := by
    rw [d.total]
    exact Multiset.mem_add.mpr (.inr hx)
  rcases Multiset.mem_add.mp hsum with hheld | hadded
  · exact hheld
  · exact d.known x hadded

/-- A thing goes where its references are all dropped and none is added. -/
theorem gone_iff (d : Dropping held added dropped left) (x : α) :
    x ∈ held ∧ x ∉ left ↔
      x ∉ added ∧ dropped.count x ≠ 0 ∧ dropped.count x = held.count x := by
  have htotal := congrArg (Multiset.count x) d.total
  have hpart := Multiset.le_iff_count.mp d.part x
  have hknown := d.known x
  simp only [Multiset.count_add] at htotal
  simp only [← Multiset.count_pos] at hknown ⊢
  omega

end Dropping

/-- The things referred to before are those referred to after and those that went. -/
theorem Dropping.card {held added dropped left : Multiset Nat}
    (d : Dropping held added dropped left) {n : Nat} (hlt : ∀ x ∈ held, x < n) {p : Nat → Bool}
    (hp : ∀ x, x < n → (p x = true ↔
      x ∉ added ∧ dropped.count x ≠ 0 ∧ dropped.count x = held.count x)) :
    held.toFinset.card = left.toFinset.card + (List.range n).countP p := by
  have hgone : ∀ x, x ∈ ((List.range n).filter p).toFinset ↔ x ∈ held ∧ x ∉ left := by
    intro x
    rw [List.mem_toFinset, List.mem_filter, List.mem_range]
    constructor
    · intro ⟨hx, hpx⟩
      exact (d.gone_iff x).mpr ((hp x hx).mp hpx)
    · intro hx
      exact ⟨hlt x hx.1, (hp x (hlt x hx.1)).mpr ((d.gone_iff x).mp hx)⟩
  have hunion : held.toFinset = left.toFinset ∪ ((List.range n).filter p).toFinset := by
    ext x
    rw [Finset.mem_union, hgone, Multiset.mem_toFinset, Multiset.mem_toFinset]
    have := @left_sub _ _ _ _ _ d x
    tauto
  have hdisjoint : Disjoint left.toFinset ((List.range n).filter p).toFinset := by
    rw [Finset.disjoint_left]
    intro x hx hgo
    exact ((hgone x).mp hgo).2 (Multiset.mem_toFinset.mp hx)
  have hnodup : ((List.range n).filter p).Nodup := List.nodup_range.filter p
  rw [hunion, Finset.card_union_of_disjoint hdisjoint, List.toFinset_card_of_nodup hnodup,
    List.countP_eq_length_filter]

end References

namespace Llmx

/-- Each id counted up in a vector of counts of 32 bits. -/
def tally (refs ids : List Nat) : List Nat :=
  ids.foldl (fun refs id => refs.set id (SlotPool.refUp (refs.getD id 0))) refs

/-- Each id's count set back to zero. -/
def wipe (refs ids : List Nat) : List Nat := ids.foldl (fun refs id => refs.set id 0) refs

/-- The ids whose references are all among those counted. -/
def allCounted (refs total : List Nat) : Nat :=
  (List.range refs.length).countP fun id =>
    refs.getD id 0 ≠ 0 ∧ refs.getD id 0 = total.getD id 0

theorem tally_length (refs ids : List Nat) : (tally refs ids).length = refs.length := by
  induction ids generalizing refs with
  | nil => exact Eq.refl _
  | cons x ids ih =>
    unfold tally at ih ⊢
    rw [List.foldl_cons, ih, List.length_set]

theorem wipe_length (refs ids : List Nat) : (wipe refs ids).length = refs.length := by
  induction ids generalizing refs with
  | nil => exact Eq.refl _
  | cons x ids ih =>
    unfold wipe at ih ⊢
    rw [List.foldl_cons, ih, List.length_set]

theorem tally_getD {refs ids : List Nat} {id : Nat} (hid : id < refs.length)
    (hlt : refs.getD id 0 + ids.count id < 4294967296) :
    (tally refs ids).getD id 0 = refs.getD id 0 + ids.count id := by
  induction ids generalizing refs with
  | nil => exact Eq.refl _
  | cons x ids ih =>
    have hcons : tally refs (x :: ids) =
        tally (refs.set x (SlotPool.refUp (refs.getD x 0))) ids := Eq.refl _
    rw [hcons]
    by_cases hx : x = id
    · obtain rfl := hx
      rw [List.count_cons_self] at hlt ⊢
      have hset : (refs.set x (SlotPool.refUp (refs.getD x 0))).getD x 0 = refs.getD x 0 + 1 := by
        rw [SlotPool.Counts.getD_set hid, if_pos (Eq.refl x), SlotPool.refUp]
        omega
      rw [ih (by rwa [List.length_set]) (by omega), hset]
      omega
    · rw [List.count_cons_of_ne hx] at hlt ⊢
      have hset : (refs.set x (SlotPool.refUp (refs.getD x 0))).getD id 0 = refs.getD id 0 := by
        rw [List.getD_eq_getElem?_getD, List.getElem?_set_ne hx, ← List.getD_eq_getElem?_getD]
      rw [ih (by rwa [List.length_set]) (by omega), hset]

theorem wipe_getD {refs ids : List Nat} {id : Nat} (hid : id < refs.length) :
    (wipe refs ids).getD id 0 = if id ∈ ids then 0 else refs.getD id 0 := by
  induction ids generalizing refs with
  | nil => simp [wipe]
  | cons x ids ih =>
    have hcons : wipe refs (x :: ids) = wipe (refs.set x 0) ids := Eq.refl _
    rw [hcons, ih (by rwa [List.length_set])]
    by_cases hx : x = id
    · obtain rfl := hx
      rw [SlotPool.Counts.getD_set hid]
      simp
    · rw [List.getD_eq_getElem?_getD, List.getElem?_set_ne hx, ← List.getD_eq_getElem?_getD]
      simp [Ne.symm hx]

/-- The counting pass finds how many things go, where the counts of all the references fit. -/
theorem allCounted_eq {total ids kept : List Nat} {held left : Multiset Nat} {n : Nat}
    (d : References.Dropping held ↑kept ↑ids left) (hlt : ∀ x ∈ held, x < n)
    (hcount : ∀ x ∈ held, total.getD x 0 = held.count x)
    (hfits : ∀ x ∈ held, held.count x < 4294967296) :
    held.toFinset.card = left.toFinset.card +
      allCounted (wipe (tally (List.replicate n 0) ids) kept) total := by
  have hlen : (wipe (tally (List.replicate n 0) ids) kept).length = n := by
    rw [wipe_length, tally_length, List.length_replicate]
  unfold allCounted
  rw [hlen]
  refine d.card hlt fun x hx => ?_
  have hle := Multiset.le_iff_count.mp d.part x
  rw [Multiset.coe_count] at hle
  have hzero : (List.replicate n 0).getD x 0 = 0 := List.getD_replicate 0 hx
  have hsmall : ids.count x < 4294967296 := by
    by_cases hin : x ∈ held
    · have := hfits x hin
      omega
    · rw [Multiset.count_eq_zero.mpr hin] at hle
      omega
  have htally : (tally (List.replicate n 0) ids).getD x 0 = ids.count x := by
    rw [tally_getD (by rwa [List.length_replicate]) (by rw [hzero]; omega), hzero]
    omega
  rw [decide_eq_true_iff, wipe_getD (by rwa [tally_length, List.length_replicate]), htally,
    Multiset.mem_coe, Multiset.coe_count]
  split
  next hkept => simp [hkept]
  next hkept =>
    simp only [hkept, not_false_eq_true, true_and]
    refine and_congr_right fun hne => ?_
    have hin : x ∈ held := Multiset.count_pos.mp (by omega)
    rw [hcount x hin]

end Llmx
