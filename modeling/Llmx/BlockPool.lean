import Mathlib.Data.Multiset.Count
import Mathlib.Data.Finset.Card
import Mathlib.Tactic.Common

namespace Llmx

/-- The block ids handed out, dense from zero, and their reference counts. -/
structure BlockPool where
  max : Nat
  next : Nat
  free : List Nat
  refs : List Nat
deriving DecidableEq, Repr

namespace BlockPool

def inUse (p : BlockPool) : Nat := p.next - p.free.length

/-- A pool of `max` blocks, as many as an int32 id names at most, while no block is held. -/
def configure (p : BlockPool) (max : Nat) : Option BlockPool :=
  if p.inUse ≠ 0 then none else some ⟨max, 0, [], []⟩

/-- The id freed last, else a new one; `none` where the budget is exhausted. -/
def alloc (p : BlockPool) : Option (Nat × BlockPool) :=
  match p.free.getLast? with
  | some id => some (id, { p with free := p.free.dropLast, refs := p.refs.set id 1 })
  | none =>
    if p.max ≤ p.next then none
    else some (p.next, { p with next := p.next + 1, refs := p.refs ++ [1] })

/-- `none` for a free block and for a count that would overflow. -/
def retain (p : BlockPool) (id : Nat) : Option BlockPool :=
  match p.refs[id]? with
  | some r =>
    if r = 0 then none
    else if r = 4294967295 then none
    else some { p with refs := p.refs.set id (r + 1) }
  | none => none

/-- `none` for a block released twice. -/
def release (p : BlockPool) (id : Nat) : Option BlockPool :=
  match p.refs[id]? with
  | some r =>
    if r = 0 then none
    else some { p with
      refs := p.refs.set id (r - 1)
      free := if r - 1 = 0 then p.free ++ [id] else p.free }
  | none => none

/-- The pool counts the references `held`, and every id it handed out that nobody holds is on the
free list, once. -/
structure Counts (p : BlockPool) (held : Multiset Nat) : Prop where
  size : p.refs.length = p.next
  lt : ∀ id ∈ held, id < p.next
  count : ∀ id < p.next, p.refs[id]? = some (held.count id)
  nodup : p.free.Nodup
  free : ∀ id, id ∈ p.free ↔ id < p.next ∧ id ∉ held

namespace Counts

variable {p q : BlockPool} {held : Multiset Nat} {id : Nat}

/-- A block taken was nobody's. -/
theorem alloc (h : p.Counts held) (ha : p.alloc = some (id, q)) :
    q.Counts (id ::ₘ held) ∧ id ∉ held := by
  have hs := h.size
  unfold BlockPool.alloc at ha
  split at ha
  next last hlast =>
    obtain ⟨rfl, rfl⟩ := Prod.mk.inj (Option.some.inj ha)
    have hsplit : p.free.dropLast ++ [last] = p.free := List.dropLast_append_getLast? _ hlast
    obtain ⟨hlt, hfree⟩ := (h.free last).mp (by rw [← hsplit]; simp)
    obtain ⟨hnd, hlast'⟩ : p.free.dropLast.Nodup ∧ last ∉ p.free.dropLast := by
      have hnd := h.nodup
      rw [← hsplit, List.nodup_append] at hnd
      exact ⟨hnd.1, fun hin => hnd.2.2 _ hin _ (by simp) rfl⟩
    have hmem : ∀ i, i ∈ p.free ↔ i ∈ p.free.dropLast ∨ i = last := by
      intro i
      conv_lhs => rw [← hsplit]
      simp
    refine ⟨⟨by simpa using hs, ?_, fun i hi => ?_, hnd, fun i => ?_⟩, hfree⟩
    · simpa [hlt] using h.lt
    · rw [List.getElem?_set, Multiset.count_cons, h.count i hi]
      grind [Multiset.count_eq_zero]
    · have := h.free i
      grind
  next =>
    split at ha
    · cases ha
    next =>
      obtain ⟨rfl, rfl⟩ := Prod.mk.inj (Option.some.inj ha)
      have hfree : p.next ∉ held := fun hin => absurd (h.lt _ hin) (by omega)
      refine ⟨⟨by simp [hs], ?_, fun i hi => ?_, h.nodup, fun i => ?_⟩, hfree⟩
      · intro i hi
        have := h.lt i
        grind
      · have := h.count i
        rw [Multiset.count_cons]
        grind [Multiset.count_eq_zero]
      · have := h.free i
        grind

theorem retain (h : p.Counts held) (hr : p.retain id = some q) :
    q.Counts (id ::ₘ held) ∧ id ∈ held := by
  have hs := h.size
  unfold BlockPool.retain at hr
  split at hr
  next r hget =>
    split at hr
    · cases hr
    split at hr
    · cases hr
    next hpos _ =>
      cases hr
      have hlt : id < p.next := by grind
      have hcount : r = held.count id := by
        have := h.count id hlt
        grind
      have hin : id ∈ held := Multiset.count_pos.mp (by omega)
      refine ⟨⟨by simpa using hs, ?_, fun i hi => ?_, h.nodup, fun i => ?_⟩, hin⟩
      · simpa [hlt] using h.lt
      · have := h.count i hi
        rw [Multiset.count_cons]
        grind
      · have := h.free i
        grind
  · cases hr

/-- A block somebody holds can be released. -/
theorem release (h : p.Counts (id ::ₘ held)) : ∃ q, p.release id = some q ∧ q.Counts held := by
  have hlt : id < p.next := h.lt id (by simp)
  have hs := h.size
  have hget : p.refs[id]? = some (held.count id + 1) := by
    simpa using h.count id hlt
  simp only [BlockPool.release, hget, Nat.add_one_ne_zero, ↓reduceIte, Nat.add_sub_cancel,
    Option.some.injEq, exists_eq_left']
  refine ⟨by simpa using hs, fun i hi => h.lt i (by simp [hi]), fun i hi => ?_, ?_, fun i => ?_⟩
  · have := h.count i hi
    rw [Multiset.count_cons] at this
    grind
  · have hf := h.free id
    have hnd := h.nodup
    grind
  · have := h.free i
    grind [Multiset.count_eq_zero]

/-- The ids in use are the distinct ids held. -/
theorem inUse (h : p.Counts held) : p.inUse = held.toFinset.card := by
  have hunion : p.free.toFinset ∪ held.toFinset = Finset.range p.next := by
    ext id
    have hf := h.free id
    have hl := h.lt id
    simp only [Finset.mem_union, List.mem_toFinset, Multiset.mem_toFinset, Finset.mem_range]
    grind
  have hdisj : Disjoint p.free.toFinset held.toFinset := by
    rw [Finset.disjoint_left]
    intro id hfree hheld
    exact ((h.free id).mp (List.mem_toFinset.mp hfree)).2 (Multiset.mem_toFinset.mp hheld)
  have hcard := Finset.card_union_of_disjoint hdisj
  rw [hunion, Finset.card_range, List.toFinset_card_of_nodup h.nodup] at hcard
  unfold BlockPool.inUse
  omega

theorem configure (h : p.Counts held) {max : Nat} (hc : p.configure max = some q) :
    held = 0 ∧ q.Counts 0 := by
  unfold BlockPool.configure at hc
  split at hc
  · cases hc
  next hzero =>
    cases hc
    rw [h.inUse, not_not, Finset.card_eq_zero, Multiset.toFinset_eq_empty] at hzero
    exact ⟨hzero, by simp, by simp, by simp, by simp, by simp⟩

end Counts

end BlockPool

end Llmx
