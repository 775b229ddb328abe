import Mathlib.Algebra.Order.Ring.Int
import Mathlib.Data.List.Forall2

/-!
The slabs of host memory a copy takes: idle ones kept and freed, and new ones, device by device.
-/

namespace Llmx

/-- The slabs the devices lack, and those they have past their need. -/
def shortBy (need idle : List Nat) : Nat := (List.zipWith (fun n i => n - i) need idle).sum

def spareSlabs (need idle : List Nat) : List Nat := List.zipWith (fun n i => i - n) need idle

/-- The slabs freed while those alive and the shortfall pass the limit, latest devices first, and
those alive then. -/
def dropFrom (shortfall limit : Nat) : List Nat → List Nat → Nat → List Nat × Nat
  | n :: need, i :: idle, alive =>
    let later := dropFrom shortfall limit need idle alive
    if limit < later.2 + shortfall then
      let drop := min (i - n) (later.2 + shortfall - limit)
      (drop :: later.1, later.2 - drop)
    else (0 :: later.1, later.2)
  | _, _, alive => ([], alive)

def slabsToFree (need idle : List Nat) (alive limit : Nat) : Option (List Nat) :=
  if shortBy need idle = 0 then some (List.replicate need.length 0)
  else
    let freed := dropFrom (shortBy need idle) limit need idle alive
    if limit < freed.2 + shortBy need idle then none else some freed.1

structure CopySlabs where
  drop : List Nat
  dropped : Nat
  fresh : Nat
deriving DecidableEq, Repr

/-- What each device lacks once its slabs are freed. -/
def lackingSlabs : List Nat → List Nat → List Nat → List Nat
  | n :: need, i :: idle, d :: drop => (n - (i - d)) :: lackingSlabs need idle drop
  | _, _, _ => []

def copySlabs (need idle : List Nat) (alive limit : Nat) : Option CopySlabs :=
  (slabsToFree need idle alive limit).map fun drop =>
    ⟨drop, drop.sum, (lackingSlabs need idle drop).sum⟩

/-- What is freed is spare, and all of it as much as the limit asks for. -/
theorem dropFrom_spec (shortfall limit : Nat) {need idle : List Nat} {alive : Nat}
    (hlen : need.length = idle.length) (halive : (spareSlabs need idle).sum ≤ alive) :
    List.Forall₂ (· ≤ ·) (dropFrom shortfall limit need idle alive).1 (spareSlabs need idle) ∧
      (dropFrom shortfall limit need idle alive).1.sum =
        min (spareSlabs need idle).sum (alive + shortfall - limit) ∧
      (dropFrom shortfall limit need idle alive).2 =
        alive - (dropFrom shortfall limit need idle alive).1.sum := by
  induction need generalizing idle with
  | nil =>
    cases idle with
    | nil => exact ⟨List.Forall₂.nil, (Nat.zero_min _).symm, Eq.refl _⟩
    | cons i idle => cases hlen
  | cons n need ih =>
    cases idle with
    | nil => cases hlen
    | cons i idle =>
      have hspare : spareSlabs (n :: need) (i :: idle) = (i - n) :: spareSlabs need idle := Eq.refl _
      rw [hspare, List.sum_cons] at halive ⊢
      obtain ⟨hle, hsum, hleft⟩ := ih (Nat.succ.inj hlen) (by omega)
      unfold dropFrom
      dsimp only
      split
      next hover =>
        refine ⟨List.Forall₂.cons (Nat.min_le_left _ _) hle, ?_, ?_⟩
        · rw [List.sum_cons]
          omega
        · rw [List.sum_cons]
          omega
      next hunder =>
        refine ⟨List.Forall₂.cons (Nat.zero_le _) hle, ?_, ?_⟩
        · rw [List.sum_cons]
          omega
        · rw [List.sum_cons]
          omega

/-- Freeing spare slabs alone leaves the shortfall as it is. -/
theorem lacking_of_spare {need idle drop : List Nat} (hlen : need.length = idle.length)
    (h : List.Forall₂ (· ≤ ·) drop (spareSlabs need idle)) :
    (lackingSlabs need idle drop).sum = shortBy need idle := by
  induction need generalizing idle drop with
  | nil => cases drop <;> exact Eq.refl _
  | cons n need ih =>
    cases idle with
    | nil => cases hlen
    | cons i idle =>
      cases h with
      | @cons d _ drop _ hd hdrop =>
        have hrest := ih (Nat.succ.inj hlen) hdrop
        have hd : d ≤ i - n := hd
        unfold shortBy at hrest ⊢
        rw [lackingSlabs, List.sum_cons, List.zipWith_cons_cons, List.sum_cons, hrest]
        omega

/-- No plan allocates less than the shortfall, nor wins more room than the spare slabs. -/
theorem lacking_ge {need idle plan : List Nat} (hlen : need.length = idle.length)
    (h : List.Forall₂ (· ≤ ·) plan idle) :
    shortBy need idle ≤ (lackingSlabs need idle plan).sum ∧
      plan.sum + shortBy need idle ≤
        (spareSlabs need idle).sum + (lackingSlabs need idle plan).sum := by
  induction need generalizing idle plan with
  | nil =>
    cases idle with
    | nil =>
      cases h
      exact ⟨Nat.le_refl _, Nat.le_refl _⟩
    | cons i idle => cases hlen
  | cons n need ih =>
    cases idle with
    | nil => cases hlen
    | cons i idle =>
      cases h with
      | @cons d _ drop _ hd hdrop =>
        obtain ⟨hshort, hroom⟩ := ih (Nat.succ.inj hlen) hdrop
        unfold shortBy at hshort hroom ⊢
        unfold spareSlabs at hroom ⊢
        rw [lackingSlabs, List.zipWith_cons_cons, List.zipWith_cons_cons]
        simp only [List.sum_cons]
        constructor <;> omega

theorem forall₂_sum_le {xs ys : List Nat} (h : List.Forall₂ (· ≤ ·) xs ys) : xs.sum ≤ ys.sum := by
  induction h with
  | nil => exact Nat.le_refl _
  | cons hxy _ ih =>
    rw [List.sum_cons, List.sum_cons]
    omega

theorem spareSlabs_le (need idle : List Nat) : (spareSlabs need idle).sum ≤ idle.sum := by
  unfold spareSlabs
  induction need generalizing idle with
  | nil => exact Nat.zero_le _
  | cons n need ih =>
    cases idle with
    | nil => exact Nat.le_refl _
    | cons i idle =>
      have hrest := ih idle
      rw [List.zipWith_cons_cons, List.sum_cons, List.sum_cons]
      omega

/-- What each device lacks, device by device. -/
theorem lackingSlabs_get {need idle drop : List Nat} (hlen : need.length = idle.length)
    (hdrop : drop.length = need.length) :
    (lackingSlabs need idle drop).length = need.length ∧
      ∀ k n i d : Nat, need[k]? = some n → idle[k]? = some i → drop[k]? = some d →
        (lackingSlabs need idle drop)[k]? = some (n - (i - d)) := by
  induction need generalizing idle drop with
  | nil =>
    obtain rfl := List.eq_nil_of_length_eq_zero hdrop
    exact ⟨Eq.refl _, fun k n i d hn => by cases hn⟩
  | cons n need ih =>
    cases idle with
    | nil => cases hlen
    | cons i idle =>
      cases drop with
      | nil => cases hdrop
      | cons d drop =>
        obtain ⟨hcount, hget⟩ := ih (Nat.succ.inj hlen) (Nat.succ.inj hdrop)
        refine ⟨congrArg Nat.succ hcount, fun k n' i' d' hn hi hd => ?_⟩
        cases k with
        | zero =>
          obtain rfl := Option.some.inj hn
          obtain rfl := Option.some.inj hi
          obtain rfl := Option.some.inj hd
          exact Eq.refl _
        | succ k => exact hget k n' i' d' hn hi hd

/-- What is freed, where a copy's slabs are found at all. -/
theorem slabsToFree_spec {need idle : List Nat} {alive limit : Nat}
    (hlen : need.length = idle.length) (halive : idle.sum ≤ alive) :
    (slabsToFree need idle alive limit = none ↔ 0 < shortBy need idle ∧
      limit < alive - (spareSlabs need idle).sum + shortBy need idle) ∧
    ∀ drop, slabsToFree need idle alive limit = some drop →
      List.Forall₂ (· ≤ ·) drop (spareSlabs need idle) ∧
        (shortBy need idle = 0 ∧ drop.sum = 0 ∨ 0 < shortBy need idle ∧
          drop.sum = alive + shortBy need idle - limit) := by
  have hspare := spareSlabs_le need idle
  obtain ⟨hle, hsum, hleft⟩ := dropFrom_spec (shortBy need idle) limit hlen (hspare.trans halive)
  unfold slabsToFree
  split
  next hzero =>
    refine ⟨⟨fun h => (by cases h), fun h => absurd h.1 (by omega)⟩, fun drop hdrop => ?_⟩
    obtain rfl := Option.some.inj hdrop
    refine ⟨?_, Or.inl ⟨hzero, by rw [List.sum_replicate_nat, Nat.mul_zero]⟩⟩
    have hlength : (List.replicate need.length 0).length = (spareSlabs need idle).length := by
      unfold spareSlabs
      rw [List.length_replicate, List.length_zipWith]
      omega
    refine List.forall₂_iff_get.mpr ⟨hlength, fun k hk _ => ?_⟩
    rw [List.get_eq_getElem, List.getElem_replicate]
    exact Nat.zero_le _
  next hshort =>
    dsimp only
    split
    next hover =>
      refine ⟨⟨fun _ => ⟨by omega, by omega⟩, fun _ => Eq.refl _⟩, fun drop hdrop => by cases hdrop⟩
    next hunder =>
      refine ⟨⟨fun h => (by cases h), fun h => by omega⟩, fun drop hdrop => ?_⟩
      obtain rfl := Option.some.inj hdrop
      exact ⟨hle, Or.inr ⟨by omega, by omega⟩⟩

end Llmx
