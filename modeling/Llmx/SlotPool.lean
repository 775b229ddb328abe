import Mathlib.Data.Multiset.Dedup
import Mathlib.Data.Multiset.Range
import Mathlib.Algebra.Order.Ring.Int
import Mathlib.Algebra.Order.Group.Multiset
import Mathlib.Tactic.Abel

namespace Llmx

/-- The slots of a model's recurrent state: `live` for sequences holding a state, `kept` for states
kept at a position, `marks` for states kept while a verify runs past them. -/
structure SlotPool where
  free : List Nat
  refs : List Nat
  markBuffers : List Nat
  live : Nat
  kept : Nat
  marks : Nat
  liveHeld : Nat
  keptHeld : Nat
  markHeld : Nat
deriving DecidableEq, Repr

namespace SlotPool

def configure (live checkpoints marks : Nat) : SlotPool where
  free := (List.range (live + checkpoints + marks)).reverse
  refs := List.replicate (live + checkpoints + marks) 0
  markBuffers := (List.range marks).reverse
  live := live
  kept := checkpoints
  marks := marks
  liveHeld := 0
  keptHeld := 0
  markHeld := 0

/-- The slot at the back of the free list, which must not be empty. -/
def take (p : SlotPool) : Option (Nat × SlotPool) :=
  p.free.getLast?.map fun s => (s, { p with free := p.free.dropLast })

/-- `none` where the free list is read empty; refused where every live slot is held. -/
def acquire (p : SlotPool) : Option (Option Nat × SlotPool) :=
  if p.liveHeld = p.live then some (none, p)
  else (p.take).map fun (s, p) => (some s, { p with liveHeld := p.liveHeld + 1 })

def release (p : SlotPool) (s : Nat) : SlotPool :=
  { p with free := p.free ++ [s], liveHeld := p.liveHeld - 1 }

def available (p : SlotPool) : Nat := p.live - p.liveHeld

def acquireKept (p : SlotPool) : Option (Option Nat × SlotPool) :=
  if p.keptHeld = p.kept then some (none, p)
  else (p.take).map fun (s, p) =>
    (some s, { p with keptHeld := p.keptHeld + 1, refs := p.refs.set s 1 })

/-- A count of 32 bits, one up or down. -/
def refUp (r : Nat) : Nat := (r + 1) % 4294967296

def refDown (r : Nat) : Nat := if r = 0 then 4294967295 else r - 1

def retain (p : SlotPool) (s : Nat) : SlotPool :=
  { p with refs := p.refs.set s (refUp (p.refs.getD s 0)) }

def releaseKept (p : SlotPool) (s : Nat) : SlotPool :=
  let r := refDown (p.refs.getD s 0)
  let p := { p with refs := p.refs.set s r }
  if r ≠ 0 then p else { p with free := p.free ++ [s], keptHeld := p.keptHeld - 1 }

/-- A live slot becomes a checkpoint's. -/
def keepLive (p : SlotPool) (s : Nat) : Option SlotPool :=
  if p.keptHeld = p.kept then none
  else some { p with
    liveHeld := p.liveHeld - 1, keptHeld := p.keptHeld + 1, refs := p.refs.set s 1 }

def keptAvailable (p : SlotPool) : Nat := p.kept - p.keptHeld

/-- A live slot becomes a mark's. -/
def markLive (p : SlotPool) : Option SlotPool :=
  if p.markHeld = p.marks then none
  else some { p with liveHeld := p.liveHeld - 1, markHeld := p.markHeld + 1 }

/-- A mark's slot goes back to being a sequence's live slot. -/
def unmark (p : SlotPool) : SlotPool :=
  { p with markHeld := p.markHeld - 1, liveHeld := p.liveHeld + 1 }

def releaseMark (p : SlotPool) (s : Nat) : SlotPool :=
  { p with free := p.free ++ [s], markHeld := p.markHeld - 1 }

def acquireMarkBuffer (p : SlotPool) : Option (Nat × SlotPool) :=
  p.markBuffers.getLast?.map fun b => (b, { p with markBuffers := p.markBuffers.dropLast })

def releaseMarkBuffer (p : SlotPool) (b : Nat) : SlotPool :=
  { p with markBuffers := p.markBuffers ++ [b] }

def slots (p : SlotPool) : Nat := p.live + p.kept + p.marks

end SlotPool

/-- Each slot is free, live, a mark's or some checkpoints', whose number its count is, and each
buffer is free or a mark's. -/
structure SlotPool.Counts (p : SlotPool) (live marked kept buffers : Multiset Nat) : Prop where
  places : (p.free : Multiset Nat) + live + marked + kept.dedup = Multiset.range p.slots
  buffers : (p.markBuffers : Multiset Nat) + buffers = Multiset.range p.marks
  size : p.refs.length = p.slots
  refs : ∀ s, p.refs.getD s 0 = kept.count s
  liveHeld : p.liveHeld = live.card
  markHeld : p.markHeld = marked.card
  keptHeld : p.keptHeld = kept.dedup.card
  kept_le : p.keptHeld ≤ p.kept
  marks_le : p.markHeld ≤ p.marks

namespace SlotPool.Counts

variable {p q : SlotPool} {l m k b : Multiset Nat} {x : Nat}

theorem cast {l' m' k' b' : Multiset Nat} (c : p.Counts l m k b) (hl : l' = l) (hm : m' = m)
    (hk : k' = k) (hb : b' = b) : p.Counts l' m' k' b' := by
  rw [hl, hm, hk, hb]
  exact c

theorem getLast_split {xs : List Nat} (hx : xs.getLast? = some x) :
    (xs : Multiset Nat) = x ::ₘ (xs.dropLast : Multiset Nat) := by
  have hsplit := List.dropLast_append_getLast? _ hx
  conv_lhs => rw [← hsplit]
  rw [← Multiset.coe_add, Multiset.coe_singleton, add_comm, Multiset.singleton_add]

theorem coe_snoc (xs : List Nat) (x : Nat) :
    ((xs ++ [x] : List Nat) : Multiset Nat) = x ::ₘ (xs : Multiset Nat) := by
  rw [← Multiset.coe_add, Multiset.coe_singleton, add_comm, Multiset.singleton_add]

/-- No slot is in two places. -/
theorem apart (c : p.Counts l m k b) (s : Nat) :
    p.free.count s + l.count s + m.count s + k.dedup.count s ≤ 1 := by
  have hcount := congrArg (Multiset.count s) c.places
  simp only [Multiset.count_add, Multiset.coe_count] at hcount
  rw [hcount]
  exact Multiset.nodup_iff_count_le_one.mp (Multiset.nodup_range _) s

theorem free_length (c : p.Counts l m k b) :
    p.free.length + p.liveHeld + p.markHeld + p.keptHeld = p.slots := by
  have hcard := congrArg Multiset.card c.places
  simp only [Multiset.card_add, Multiset.coe_card, Multiset.card_range] at hcard
  rw [c.liveHeld, c.markHeld, c.keptHeld]
  exact hcard

theorem mem_lt (c : p.Counts l m k b) {s : Nat}
    (hs : s ∈ (p.free : Multiset Nat) + l + m + k.dedup) : s < p.slots := by
  rw [c.places] at hs
  exact Multiset.mem_range.mp hs

theorem take_some {s : Nat} (ht : p.take = some (s, q)) :
    q = { p with free := p.free.dropLast } ∧
      (p.free : Multiset Nat) = s ::ₘ (p.free.dropLast : Multiset Nat) := by
  obtain ⟨y, hy, he⟩ := Option.map_eq_some_iff.mp ht
  obtain ⟨rfl, rfl⟩ := Prod.mk.inj he
  exact ⟨rfl, getLast_split hy⟩

/-- The free list is never read empty while a side has room. -/
theorem take_ne_none (c : p.Counts l m k b)
    (hroom : p.liveHeld + p.markHeld + p.keptHeld < p.slots) : p.take ≠ none := by
  have hlen := c.free_length
  intro hnone
  rw [take, Option.map_eq_none_iff, List.getLast?_eq_none_iff] at hnone
  rw [hnone, List.length_nil] at hlen
  omega

/-- A live slot is there for a sequence the live side lets in. -/
theorem acquire_room (c : p.Counts l m k b) (hlive : p.liveHeld < p.live) :
    ∃ x q, p.acquire = some (some x, q) ∧ q.liveHeld = p.liveHeld + 1 ∧ q.live = p.live ∧
      q.keptHeld = p.keptHeld ∧ q.kept = p.kept := by
  have hk := c.kept_le
  have hm := c.marks_le
  have hne := c.take_ne_none (by unfold slots; omega)
  obtain ⟨⟨x, q⟩, hq⟩ := Option.ne_none_iff_exists'.mp hne
  obtain ⟨rfl, -⟩ := take_some hq
  refine ⟨x, { p with free := p.free.dropLast, liveHeld := p.liveHeld + 1 }, ?_, rfl, rfl, rfl, rfl⟩
  rw [SlotPool.acquire, if_neg (by omega), hq]
  rfl

theorem acquireKept_room (c : p.Counts l m k b) (hlive : p.liveHeld ≤ p.live)
    (hkept : p.keptHeld < p.kept) :
    ∃ x q, p.acquireKept = some (some x, q) ∧ q.keptHeld = p.keptHeld + 1 ∧ q.kept = p.kept ∧
      q.liveHeld = p.liveHeld ∧ q.live = p.live := by
  have hm := c.marks_le
  have hne := c.take_ne_none (by unfold slots; omega)
  obtain ⟨⟨x, q⟩, hq⟩ := Option.ne_none_iff_exists'.mp hne
  obtain ⟨rfl, -⟩ := take_some hq
  refine ⟨x, { p with free := p.free.dropLast, keptHeld := p.keptHeld + 1, refs := p.refs.set x 1 },
    ?_, rfl, rfl, rfl, rfl⟩
  rw [SlotPool.acquireKept, if_neg (by omega), hq]
  rfl

theorem acquireKept_ne_none (c : p.Counts l m k b) (hlive : p.liveHeld ≤ p.live) :
    p.acquireKept ≠ none := by
  by_cases hkept : p.keptHeld = p.kept
  · rw [SlotPool.acquireKept, if_pos hkept]
    exact Option.some_ne_none _
  · have hk := c.kept_le
    obtain ⟨x, q, hq, -⟩ := c.acquireKept_room hlive (by omega)
    rw [hq]
    exact Option.some_ne_none _

theorem acquire {s : Nat} (c : p.Counts l m k b) (ha : p.acquire = some (some s, q)) :
    q.Counts (s ::ₘ l) m k b := by
  unfold SlotPool.acquire at ha
  split at ha
  · simp at ha
  · obtain ⟨⟨y, r⟩, ht, he⟩ := Option.map_eq_some_iff.mp ha
    obtain ⟨rfl, rfl⟩ : y = s ∧ _ = q := by simpa using he
    obtain ⟨rfl, hfree⟩ := take_some ht
    refine ⟨?_, c.buffers, c.size, c.refs, ?_, c.markHeld, c.keptHeld, c.kept_le, c.marks_le⟩
    · refine Eq.trans ?_ c.places
      simp only [hfree, ← Multiset.singleton_add]
      abel
    · simp [c.liveHeld]

theorem release (c : p.Counts (x ::ₘ l) m k b) : (p.release x).Counts l m k b := by
  refine ⟨?_, c.buffers, c.size, c.refs, ?_, c.markHeld, c.keptHeld, c.kept_le, c.marks_le⟩
  · refine Eq.trans ?_ c.places
    simp only [SlotPool.release, coe_snoc, ← Multiset.singleton_add]
    abel
  · simp [SlotPool.release, c.liveHeld]

theorem getD_set {xs : List Nat} {i j v : Nat} (hi : i < xs.length) :
    (xs.set i v).getD j 0 = if i = j then v else xs.getD j 0 := by
  simp only [List.getD_eq_getElem?_getD, List.getElem?_set]
  split
  next hij => simp
  next => rfl

/-- A slot of no checkpoint becomes the first one's. -/
theorem count_first {s : Nat} (c : p.Counts l m k b) (hs : s < p.slots) (hno : s ∉ k) (t : Nat) :
    (p.refs.set s 1).getD t 0 = (s ::ₘ k).count t := by
  rw [getD_set (by rw [c.size]; exact hs), c.refs]
  split
  next hst => rw [← hst, Multiset.count_cons_self, Multiset.count_eq_zero.mpr hno]
  next hst => rw [Multiset.count_cons_of_ne (Ne.symm hst)]

/-- A slot that is free or live is no checkpoint's. -/
theorem not_kept {s : Nat} (c : p.Counts l m k b) (hs : s ∈ (p.free : Multiset Nat) + l) :
    s ∉ k := by
  intro hk
  have hone := c.apart s
  have hf := Multiset.count_pos.mpr hs
  have hd := Multiset.count_pos.mpr (Multiset.mem_dedup.mpr hk)
  rw [Multiset.count_add, Multiset.coe_count] at hf
  omega

theorem acquireKept {s : Nat} (c : p.Counts l m k b) (ha : p.acquireKept = some (some s, q)) :
    q.Counts l m (s ::ₘ k) b := by
  unfold SlotPool.acquireKept at ha
  split at ha
  · simp at ha
  next hroom =>
    obtain ⟨⟨y, r⟩, ht, he⟩ := Option.map_eq_some_iff.mp ha
    obtain ⟨rfl, hfree⟩ := take_some ht
    clear ht ha
    obtain ⟨rfl, rfl⟩ : y = s ∧ _ = q := by simpa using he
    have hno := c.not_kept (s := y) (by simp [hfree])
    have hlt := c.mem_lt (s := y) (by simp [hfree])
    have hk := c.kept_le
    refine ⟨?_, c.buffers, ?_, c.count_first hlt hno, c.liveHeld, c.markHeld, ?_, ?_, c.marks_le⟩
    · refine Eq.trans ?_ c.places
      rw [Multiset.dedup_cons_of_notMem hno]
      simp only [hfree, ← Multiset.singleton_add]
      abel
    · simpa [slots] using c.size
    · simp [Multiset.dedup_cons_of_notMem hno, c.keptHeld]
    · dsimp only
      omega

theorem retain (c : p.Counts l m (x ::ₘ k) b) (hfits : (x ::ₘ k).count x + 1 < 4294967296) :
    (p.retain x).Counts l m (x ::ₘ x ::ₘ k) b := by
  have hlt := c.mem_lt (s := x) (by simp)
  have hx : x ∈ x ::ₘ k := Multiset.mem_cons_self x _
  refine ⟨?_, c.buffers, ?_, fun t => ?_, c.liveHeld, c.markHeld, ?_, c.kept_le, c.marks_le⟩
  · rw [Multiset.dedup_cons_of_mem hx]
    exact c.places
  · simpa [SlotPool.retain, slots] using c.size
  · rw [SlotPool.retain, getD_set (by rw [c.size]; exact hlt), c.refs, c.refs]
    split
    next hxt => rw [← hxt, refUp, Nat.mod_eq_of_lt hfits, Multiset.count_cons_self x (x ::ₘ k)]
    next hxt => rw [Multiset.count_cons_of_ne (Ne.symm hxt) (x ::ₘ k)]
  · rw [Multiset.dedup_cons_of_mem hx]
    exact c.keptHeld

theorem releaseKept (c : p.Counts l m (x ::ₘ k) b) :
    (p.releaseKept x).Counts l m k b := by
  have hlt := c.mem_lt (s := x) (by simp)
  have hk := c.kept_le
  have hkept := c.keptHeld
  have hdown : refDown (p.refs.getD x 0) = k.count x := by
    rw [c.refs]
    rw [Multiset.count_cons_self, refDown, if_neg (Nat.succ_ne_zero _), Nat.add_sub_cancel]
  have hcount : ∀ t, (p.refs.set x (k.count x)).getD t 0 = k.count t := by
    intro t
    rw [getD_set (by rw [c.size]; exact hlt), c.refs]
    split
    next hxt => rw [hxt]
    next hxt => rw [Multiset.count_cons_of_ne (Ne.symm hxt)]
  simp only [SlotPool.releaseKept, hdown]
  split
  next hmore =>
    have hx : x ∈ k := Multiset.count_ne_zero.mp hmore
    have hplaces := c.places
    rw [Multiset.dedup_cons_of_mem hx] at hkept hplaces
    exact ⟨hplaces, c.buffers, by simpa [slots] using c.size, hcount, c.liveHeld, c.markHeld,
      hkept, hk, c.marks_le⟩
  next hlast =>
    have hx : x ∉ k := Multiset.count_eq_zero.mp (by simpa using hlast)
    rw [Multiset.dedup_cons_of_notMem hx, Multiset.card_cons] at hkept
    refine ⟨?_, c.buffers, by simpa [slots] using c.size, hcount, c.liveHeld, c.markHeld, ?_, ?_,
      c.marks_le⟩
    · refine Eq.trans ?_ c.places
      rw [Multiset.dedup_cons_of_notMem hx]
      simp only [coe_snoc, ← Multiset.singleton_add]
      abel
    · dsimp only
      omega
    · dsimp only
      omega

theorem keepLive (c : p.Counts (x ::ₘ l) m k b) (ha : p.keepLive x = some q) :
    q.Counts l m (x ::ₘ k) b := by
  have hno := c.not_kept (s := x) (by simp)
  have hlt := c.mem_lt (s := x) (by simp)
  have hk := c.kept_le
  unfold SlotPool.keepLive at ha
  split at ha
  · cases ha
  next hroom =>
    obtain rfl := Option.some.inj ha
    refine ⟨?_, c.buffers, by simpa [slots] using c.size, c.count_first hlt hno, ?_, c.markHeld,
      ?_, ?_, c.marks_le⟩
    · refine Eq.trans ?_ c.places
      rw [Multiset.dedup_cons_of_notMem hno]
      simp only [← Multiset.singleton_add]
      abel
    · simp [c.liveHeld]
    · simp [Multiset.dedup_cons_of_notMem hno, c.keptHeld]
    · dsimp only
      omega

theorem markLive (c : p.Counts (x ::ₘ l) m k b) (ha : p.markLive = some q) :
    q.Counts l (x ::ₘ m) k b := by
  have hm := c.marks_le
  unfold SlotPool.markLive at ha
  split at ha
  · cases ha
  next hroom =>
    obtain rfl := Option.some.inj ha
    refine ⟨?_, c.buffers, c.size, c.refs, by simp [c.liveHeld], by simp [c.markHeld], c.keptHeld,
      c.kept_le, by dsimp only; omega⟩
    refine Eq.trans ?_ c.places
    simp only [← Multiset.singleton_add]
    abel

theorem unmark (c : p.Counts l (x ::ₘ m) k b) : p.unmark.Counts (x ::ₘ l) m k b := by
  have hm := c.marks_le
  refine ⟨?_, c.buffers, c.size, c.refs, by simp [SlotPool.unmark, c.liveHeld],
    by simp [SlotPool.unmark, c.markHeld], c.keptHeld, c.kept_le, (Nat.sub_le _ _).trans hm⟩
  refine Eq.trans ?_ c.places
  simp only [SlotPool.unmark, ← Multiset.singleton_add]
  abel

theorem releaseMark (c : p.Counts l (x ::ₘ m) k b) : (p.releaseMark x).Counts l m k b := by
  have hm := c.marks_le
  refine ⟨?_, c.buffers, c.size, c.refs, c.liveHeld, by simp [SlotPool.releaseMark, c.markHeld],
    c.keptHeld, c.kept_le, (Nat.sub_le _ _).trans hm⟩
  refine Eq.trans ?_ c.places
  simp only [SlotPool.releaseMark, coe_snoc, ← Multiset.singleton_add]
  abel

theorem acquireMarkBuffer (c : p.Counts l m k b) (ha : p.acquireMarkBuffer = some (x, q)) :
    q.Counts l m k (x ::ₘ b) := by
  obtain ⟨y, hy, he⟩ := Option.map_eq_some_iff.mp ha
  obtain ⟨rfl, rfl⟩ := Prod.mk.inj he
  refine ⟨c.places, ?_, c.size, c.refs, c.liveHeld, c.markHeld, c.keptHeld, c.kept_le, c.marks_le⟩
  refine Eq.trans ?_ c.buffers
  simp only [getLast_split hy, ← Multiset.singleton_add]
  abel

theorem releaseMarkBuffer (c : p.Counts l m k (x ::ₘ b)) :
    (p.releaseMarkBuffer x).Counts l m k b := by
  refine ⟨c.places, ?_, c.size, c.refs, c.liveHeld, c.markHeld, c.keptHeld, c.kept_le, c.marks_le⟩
  refine Eq.trans ?_ c.buffers
  simp only [SlotPool.releaseMarkBuffer, coe_snoc, ← Multiset.singleton_add]
  abel

theorem configure (live checkpoints marks : Nat) :
    (SlotPool.configure live checkpoints marks).Counts 0 0 0 0 := by
  have hrange : ∀ n, ((List.range n).reverse : Multiset Nat) = Multiset.range n := fun n =>
    Multiset.coe_reverse _
  refine ⟨?_, ?_, by simp [SlotPool.configure, slots], fun s => ?_, rfl, rfl, rfl,
    Nat.zero_le _, Nat.zero_le _⟩
  · simp [SlotPool.configure, slots, hrange]
  · simp [SlotPool.configure, hrange]
  · by_cases hs : s < live + checkpoints + marks <;>
      simp [SlotPool.configure, List.getD_eq_getElem?_getD, hs]

end SlotPool.Counts

end Llmx
