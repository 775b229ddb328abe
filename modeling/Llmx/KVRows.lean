import Llmx.KVBudget
import Mathlib.Tactic.Ring

/-!
Equal stretches of a list, read and replaced by number.
-/

namespace Slabs

universe u

variable {α : Type u} {size : Nat}

/-- The `i`-th stretch of `size` places. -/
def slab (size : Nat) (cells : List α) (i : Nat) : List α := (cells.drop (i * size)).take size

/-- `xs` over the places from `place` on. -/
def overwrite (cells : List α) (place : Nat) (xs : List α) : List α :=
  cells.take place ++ xs ++ cells.drop (place + xs.length)

theorem length_overwrite {cells xs : List α} {place : Nat} (h : place + xs.length ≤ cells.length) :
    (overwrite cells place xs).length = cells.length := by
  simp only [overwrite, List.length_append, List.length_take, List.length_drop]
  omega

theorem getElem?_overwrite {cells xs : List α} {place : Nat} (h : place + xs.length ≤ cells.length)
    (j : Nat) : (overwrite cells place xs)[j]? =
      if place ≤ j ∧ j < place + xs.length then xs[j - place]? else cells[j]? := by
  have htake : (cells.take place).length = place := by
    rw [List.length_take]
    omega
  unfold overwrite
  rw [List.append_assoc, List.getElem?_append, htake]
  by_cases hlo : j < place
  · rw [if_pos hlo, if_neg (by omega), List.getElem?_take_of_lt hlo]
  · rw [if_neg hlo, List.getElem?_append]
    by_cases hhi : j < place + xs.length
    · rw [if_pos (by omega), if_pos (by omega)]
    · rw [if_neg (by omega), if_neg (by omega), List.getElem?_drop]
      congr 1
      omega

theorem getElem?_slab (cells : List α) (i j : Nat) :
    (slab size cells i)[j]? = if j < size then cells[i * size + j]? else none := by
  simp only [slab, List.getElem?_take, List.getElem?_drop]

/-- A stretch replaced is the one read there; the others stay. -/
theorem slab_overwrite {cells xs : List α} {i : Nat} (hxs : xs.length = size)
    (h : (i + 1) * size ≤ cells.length) (j : Nat) :
    slab size (overwrite cells (i * size) xs) j = if j = i then xs else slab size cells j := by
  have hfit : i * size + xs.length ≤ cells.length := by
    rw [hxs, ← Nat.succ_mul]
    exact h
  apply List.ext_getElem?
  intro k
  rw [getElem?_slab, getElem?_overwrite hfit, hxs]
  by_cases hji : j = i
  · subst hji
    rw [if_pos (Eq.refl j)]
    by_cases hk : k < size
    · rw [if_pos hk, if_pos (by omega), Nat.add_sub_cancel_left]
    · rw [if_neg hk]
      exact (List.getElem?_eq_none (by omega)).symm
  · rw [if_neg hji, getElem?_slab]
    by_cases hk : k < size
    · rw [if_pos hk, if_pos hk, if_neg]
      rintro ⟨hlo, hhi⟩
      rcases Nat.lt_or_gt_of_ne hji with hlt | hlt
      · have := Nat.mul_le_mul_right size (Nat.succ_le_of_lt hlt)
        rw [Nat.succ_mul] at this
        omega
      · have := Nat.mul_le_mul_right size (Nat.succ_le_of_lt hlt)
        rw [Nat.succ_mul] at this
        omega
    · rw [if_neg hk, if_neg hk]

/-- What stands behind the cells is not read through them. -/
theorem slab_append {cells : List α} {i : Nat} (h : (i + 1) * size ≤ cells.length)
    (more : List α) : slab size (cells ++ more) i = slab size cells i := by
  apply List.ext_getElem?
  intro k
  rw [getElem?_slab, getElem?_slab]
  split
  next hk =>
    rw [List.getElem?_append_left]
    rw [Nat.succ_mul] at h
    omega
  next => exact Eq.refl _

/-- The stretches of a list in turn are the list. -/
theorem flatMap_slab (xs : List α) (n : Nat) :
    (List.range n).flatMap (slab size xs) = xs.take (n * size) := by
  induction n with
  | zero => simp
  | succ n ih =>
    rw [List.range_succ, List.flatMap_append, ih, Nat.succ_mul, List.take_add]
    simp [slab]

end Slabs

namespace Llmx

open Slabs

/-- The shape of one storage's cells on every layer. -/
structure KVShape where
  blockTokens : Nat
  heads : Nat
  dim : Nat
  layers : Nat
  maxBlocks : Nat
  pos : 0 < blockTokens

/-- The blocks a storage has backed and the cells of each layer's two sides. -/
structure BlockKVStorage (E : Type) where
  backed : Nat
  keys : List (List E)
  values : List (List E)
deriving DecidableEq, Repr

namespace KVShape

variable {E : Type} (g : KVShape)

def blockCells : Nat := g.heads * g.blockTokens * g.dim

/-- The blocks backed once block `id` is written. -/
def growthTarget (backed id : Nat) : Nat := max (id + 1) (min g.maxBlocks (backed * 2))

/-- The old cells at the front of zeroed ones. -/
def grown (zero : E) (want : Nat) (old : List E) : List E :=
  old ++ List.replicate (want * g.blockCells - old.length) zero

/-- Block `id` backed; none where the growth throws, which leaves the storage as it was. -/
def ensure (zero : E) (refused : List Nat) (st : BlockKVStorage E) (id : Nat) :
    Option (BlockKVStorage E) :=
  if id < st.backed then some st
  else if g.maxBlocks ≤ id then none
  else if refused.contains id then none
  else
    let want := g.growthTarget st.backed id
    some ⟨want, st.keys.map (g.grown zero want), st.values.map (g.grown zero want)⟩

/-- The blocks rows `t` up to `stop` land in backed, block after block, and whether all were. -/
def ensureRows (zero : E) (refused table : List Nat) (stop : Nat) :
    Nat → Nat → BlockKVStorage E → Bool × BlockKVStorage E
  | 0, _, st => (true, st)
  | fuel + 1, t, st =>
    if t < stop then
      match g.ensure zero refused st (table.getD (t / g.blockTokens) 0) with
      | some st =>
        ensureRows zero refused table stop fuel (t + (g.blockTokens - t % g.blockTokens)) st
      | none => (false, st)
    else (true, st)

/-- Whether a view of `s` may be written on `layer`. -/
def validateWriteView (layer : Nat) (s : KVSequence) : Bool :=
  let used := blocksFor (s.length + s.pending) g.blockTokens
  let first := if s.pending ≠ 0 then s.length / g.blockTokens else used
  layer < g.layers ∧ used ≤ s.blocks.length ∧
    ∀ b < used, first ≤ b → s.blocks.getD b 0 < g.maxBlocks

/-- Whether a view of `s` may be read on `layer`. -/
def checkReadView (st : BlockKVStorage E) (layer : Nat) (s : KVSequence) : Bool :=
  let used := blocksFor (s.length + s.pending) g.blockTokens
  layer < g.layers ∧ used ≤ s.blocks.length ∧
    ∀ b < used, s.blocks.getD b 0 < st.backed

/-- The blocks of each view's rows backed, view after view. -/
def ensureViews (zero : E) (refused : List Nat) :
    List KVSequence → BlockKVStorage E → Bool × BlockKVStorage E
  | [], st => (true, st)
  | s :: views, st =>
    match g.ensureRows zero refused s.blocks (s.length + s.pending) s.pending s.length st with
    | (true, st) => ensureViews zero refused views st
    | (false, st) => (false, st)

/-- Where a head's cells of row `t` in block `id` start. -/
def cell (id h t : Nat) : Nat := id * g.blockCells + (h * g.blockTokens + t) * g.dim

/-- One row stored, head after head. -/
def storeRow (cells : List E) (id t : Nat) (row : List E) : List E :=
  (List.range g.heads).foldl
    (fun cells h => overwrite cells (g.cell id h t) ((row.drop (h * g.dim)).take g.dim)) cells

/-- Row `n` of the rows a pass brings. -/
def rowOf (rows : List E) (n : Nat) : List E :=
  (rows.drop (n * (g.heads * g.dim))).take (g.heads * g.dim)

/-- The rows of one view stored, the first of them row `row0` of the pass. -/
def storeView (cells rows : List E) (row0 : Nat) (s : KVSequence) : List E :=
  (List.range s.pending).foldl
    (fun cells b =>
      let t := s.length + b
      g.storeRow cells (s.blocks.getD (t / g.blockTokens) 0) (t % g.blockTokens)
        (g.rowOf rows (row0 + b))) cells

def storeViews (rows : List E) : Nat → List KVSequence → List E → List E
  | _, [], cells => cells
  | row0, s :: views, cells =>
    storeViews rows (row0 + s.pending) views (g.storeView cells rows row0 s)

/-- The rows of every view written on `layer`, and whether the write returned rather than threw. -/
def kvWrite (zero : E) (refused : List Nat) (layer : Nat) (views : List KVSequence)
    (k v : List E) (st : BlockKVStorage E) : Bool × BlockKVStorage E :=
  if ¬ ∀ s ∈ views, g.validateWriteView layer s = true then (false, st)
  else
    let cells := (views.map KVSequence.pending).sum * g.heads * g.dim
    if k.length < cells ∨ v.length < cells then (false, st)
    else
      match g.ensureViews zero refused views st with
      | (false, st) => (false, st)
      | (true, st) =>
        (true, { st with
          keys := st.keys.modify layer (g.storeViews k 0 views)
          values := st.values.modify layer (g.storeViews v 0 views) })

/-- A row as attention reads it, head after head. -/
def readRow (cells : List E) (id t : Nat) : List E :=
  (List.range g.heads).flatMap fun h => (cells.drop (g.cell id h t)).take g.dim

/-! What one row's write does to the cells. -/

/-- The stretch a head's cells of row `t` in block `id` are. -/
def segment (id h t : Nat) : Nat := (id * g.heads + h) * g.blockTokens + t

theorem cell_eq (id h t : Nat) : g.cell id h t = g.segment id h t * g.dim := by
  simp only [cell, segment, blockCells]
  ring

theorem readRow_eq (cells : List E) (id t : Nat) :
    g.readRow cells id t =
      (List.range g.heads).flatMap fun h => slab g.dim cells (g.segment id h t) := by
  simp only [readRow, cell_eq, slab]

theorem pair_inj {a b m x y : Nat} (hx : x < m) (hy : y < m) (h : a * m + x = b * m + y) :
    a = b ∧ x = y := by
  have hdiv := congrArg (· / m) h
  have hmod := congrArg (· % m) h
  simp only [Nat.mul_comm _ m, Nat.mul_add_div (by omega : m > 0), Nat.div_eq_of_lt hx,
    Nat.div_eq_of_lt hy, Nat.mul_add_mod, Nat.mod_eq_of_lt hx, Nat.mod_eq_of_lt hy] at hdiv hmod
  omega

variable {g}

theorem segment_inj {id id' h h' t t' : Nat} (hh : h < g.heads) (hh' : h' < g.heads)
    (ht : t < g.blockTokens) (ht' : t' < g.blockTokens)
    (heq : g.segment id h t = g.segment id' h' t') : id = id' ∧ h = h' ∧ t = t' := by
  obtain ⟨hhead, htok⟩ := pair_inj ht ht' heq
  obtain ⟨hid, hh⟩ := pair_inj hh hh' hhead
  exact ⟨hid, hh, htok⟩

theorem segment_fits {backed id h t : Nat} (hid : id < backed) (hh : h < g.heads)
    (ht : t < g.blockTokens) : (g.segment id h t + 1) * g.dim ≤ backed * g.blockCells := by
  have hhead : id * g.heads + h + 1 ≤ backed * g.heads := by
    have := Nat.mul_le_mul_right g.heads (Nat.succ_le_of_lt hid)
    rw [Nat.succ_mul] at this
    omega
  have htok : g.segment id h t + 1 ≤ backed * g.heads * g.blockTokens := by
    have := Nat.mul_le_mul_right g.blockTokens hhead
    rw [Nat.succ_mul] at this
    unfold segment
    omega
  calc (g.segment id h t + 1) * g.dim ≤ backed * g.heads * g.blockTokens * g.dim :=
        Nat.mul_le_mul_right _ htok
    _ = backed * g.blockCells := by simp only [blockCells]; ring

/-- Cells of whole blocks, `backed` of them. -/
def Whole (g : KVShape) (backed : Nat) (cells : List E) : Prop :=
  cells.length = backed * g.blockCells

/-- The first `n` heads of a row stored: their cells are the row's, the others stay. -/
theorem storeHeads {cells row : List E} {backed id t : Nat} (hw : g.Whole backed cells)
    (hid : id < backed) (ht : t < g.blockTokens) (hrow : row.length = g.heads * g.dim) {n : Nat}
    (hn : n ≤ g.heads) {out : List E}
    (hout : out = (List.range n).foldl
      (fun cells h => overwrite cells (g.cell id h t) ((row.drop (h * g.dim)).take g.dim)) cells) :
    g.Whole backed out ∧
      (∀ h < n, slab g.dim out (g.segment id h t) = slab g.dim row h) ∧
      ∀ x, (∀ h < n, x ≠ g.segment id h t) → slab g.dim out x = slab g.dim cells x := by
  induction n generalizing out with
  | zero =>
    subst hout
    exact ⟨hw, by simp, fun x hx => Eq.refl _⟩
  | succ n ih =>
    rw [List.range_succ, List.foldl_append] at hout
    simp only [List.foldl_cons, List.foldl_nil] at hout
    obtain ⟨hmid, hread, hkeep⟩ := ih (by omega) (Eq.refl _)
    generalize (List.range n).foldl _ cells = mid at hout hmid hread hkeep
    have hlen : ((row.drop (n * g.dim)).take g.dim).length = g.dim := by
      have := Nat.mul_le_mul_right g.dim hn
      rw [Nat.succ_mul] at this
      rw [List.length_take, List.length_drop, hrow]
      omega
    have hfits : (g.segment id n t + 1) * g.dim ≤ mid.length := by
      rw [hmid]
      exact segment_fits hid (by omega) ht
    rw [cell_eq] at hout
    have hget := slab_overwrite hlen hfits
    have hplace : g.segment id n t * g.dim + ((row.drop (n * g.dim)).take g.dim).length ≤
        mid.length := by
      rw [hlen, ← Nat.succ_mul]
      exact hfits
    subst hout
    refine ⟨(length_overwrite hplace).trans hmid, fun h hh => ?_, fun x hx => ?_⟩
    · rw [hget]
      by_cases hhn : h = n
      · subst hhn
        simp [slab]
      · rw [if_neg, hread h (by omega)]
        intro heq
        exact hhn (segment_inj (by omega) (by omega) ht ht heq).2.1
    · rw [hget, if_neg (hx n (by omega))]
      exact hkeep x fun h hh => hx h (by omega)

/-- A row stored is the row read there, and no other row changes. -/
theorem storeRow_spec {cells row : List E} {backed id t : Nat} (hw : g.Whole backed cells)
    (hid : id < backed) (ht : t < g.blockTokens) (hrow : row.length = g.heads * g.dim) :
    g.Whole backed (g.storeRow cells id t row) ∧ g.readRow (g.storeRow cells id t row) id t = row ∧
      ∀ id' t', t' < g.blockTokens → (id', t') ≠ (id, t) →
        g.readRow (g.storeRow cells id t row) id' t' = g.readRow cells id' t' := by
  obtain ⟨hwhole, hread, hkeep⟩ := storeHeads hw hid ht hrow le_rfl (Eq.refl _)
  refine ⟨hwhole, ?_, fun id' t' ht' hne => ?_⟩
  · rw [readRow_eq]
    have hflat : (List.range g.heads).flatMap
        (fun h => slab g.dim (g.storeRow cells id t row) (g.segment id h t)) =
          (List.range g.heads).flatMap (slab g.dim row) := by
      refine List.flatMap_congr fun h hh => ?_
      exact hread h (List.mem_range.mp hh)
    rw [hflat, flatMap_slab, ← hrow, List.take_length]
  · rw [readRow_eq, readRow_eq]
    refine List.flatMap_congr fun h hh => ?_
    refine hkeep _ fun h' hh' heq => hne ?_
    obtain ⟨hid', -, ht'⟩ := segment_inj (List.mem_range.mp hh) hh' ht' ht heq
    rw [hid', ht']

theorem length_rowOf {rows : List E} {n : Nat} (h : (n + 1) * (g.heads * g.dim) ≤ rows.length) :
    (g.rowOf rows n).length = g.heads * g.dim := by
  rw [Nat.succ_mul] at h
  rw [rowOf, List.length_take, List.length_drop]
  omega

/-- Where row `pos` of a table lies. -/
def slot (g : KVShape) (blocks : List Nat) (pos : Nat) : Nat × Nat :=
  (blocks.getD (pos / g.blockTokens) 0, pos % g.blockTokens)

/-- The rows of a view stored each where its table says, and no other row changed. -/
theorem storeView_spec {cells rows : List E} {backed row0 : Nat} {s : KVSequence}
    (hw : g.Whole backed cells)
    (hlong : (row0 + s.pending) * (g.heads * g.dim) ≤ rows.length)
    (hbacked : ∀ b < s.pending, (g.slot s.blocks (s.length + b)).1 < backed)
    (hapart : ∀ b < s.pending, ∀ b' < s.pending,
      g.slot s.blocks (s.length + b) = g.slot s.blocks (s.length + b') → b = b') :
    g.Whole backed (g.storeView cells rows row0 s) ∧
      (∀ b < s.pending, g.readRow (g.storeView cells rows row0 s)
        (g.slot s.blocks (s.length + b)).1 (g.slot s.blocks (s.length + b)).2 =
          g.rowOf rows (row0 + b)) ∧
      ∀ id t, t < g.blockTokens → (∀ b < s.pending, (id, t) ≠ g.slot s.blocks (s.length + b)) →
        g.readRow (g.storeView cells rows row0 s) id t = g.readRow cells id t := by
  have hfold : ∀ n ≤ s.pending, ∀ out, out = (List.range n).foldl
      (fun cells b => g.storeRow cells (g.slot s.blocks (s.length + b)).1
        (g.slot s.blocks (s.length + b)).2 (g.rowOf rows (row0 + b))) cells →
      g.Whole backed out ∧
        (∀ b < n, g.readRow out (g.slot s.blocks (s.length + b)).1
          (g.slot s.blocks (s.length + b)).2 = g.rowOf rows (row0 + b)) ∧
        ∀ id t, t < g.blockTokens → (∀ b < n, (id, t) ≠ g.slot s.blocks (s.length + b)) →
          g.readRow out id t = g.readRow cells id t := by
    intro n
    induction n with
    | zero =>
      intro _ out hout
      subst hout
      exact ⟨hw, by simp, fun id t _ _ => Eq.refl _⟩
    | succ n ih =>
      intro hn out hout
      rw [List.range_succ, List.foldl_append] at hout
      simp only [List.foldl_cons, List.foldl_nil] at hout
      obtain ⟨hmid, hread, hkeep⟩ := ih (by omega) _ (Eq.refl _)
      generalize (List.range n).foldl _ cells = mid at hout hmid hread hkeep
      have hrow : (g.rowOf rows (row0 + n)).length = g.heads * g.dim :=
        length_rowOf (le_trans (Nat.mul_le_mul_right _ (by omega)) hlong)
      obtain ⟨hout', hself, hother⟩ := storeRow_spec (t := (g.slot s.blocks (s.length + n)).2) hmid
        (hbacked n (by omega)) (Nat.mod_lt _ g.pos) hrow
      subst hout
      refine ⟨hout', fun b hb => ?_, fun id t ht hne => ?_⟩
      · by_cases hbn : b = n
        · subst hbn
          exact hself
        · have hne : g.slot s.blocks (s.length + b) ≠ g.slot s.blocks (s.length + n) :=
            fun heq => hbn (hapart b (by omega) n (by omega) heq)
          exact (hother _ _ (Nat.mod_lt _ g.pos) hne).trans (hread b (by omega))
      · rw [hother id t ht (hne n (by omega))]
        exact hkeep id t ht fun b hb => hne b (by omega)
  exact hfold s.pending le_rfl _ (Eq.refl _)

/-- Growth leaves every row of a block backed before it as it was. -/
theorem grown_spec {cells : List E} {backed want : Nat} (hw : g.Whole backed cells)
    (hle : backed ≤ want) (zero : E) :
    g.Whole want (g.grown zero want cells) ∧
      ∀ id t, id < backed → t < g.blockTokens →
        g.readRow (g.grown zero want cells) id t = g.readRow cells id t := by
  have hcells := Nat.mul_le_mul_right g.blockCells hle
  have hwhole : cells.length = backed * g.blockCells := hw
  refine ⟨?_, fun id t hid ht => ?_⟩
  · simp only [Whole, grown, List.length_append, List.length_replicate]
    omega
  · rw [readRow_eq, readRow_eq]
    refine List.flatMap_congr fun h hh => ?_
    refine slab_append ?_ _
    rw [hwhole]
    exact segment_fits hid (List.mem_range.mp hh) ht

/-- Row `pos` of a table as attention reads it on a side's `layer`. -/
def read (g : KVShape) (backed : Nat) (side : List (List E)) (layer : Nat) (blocks : List Nat)
    (pos : Nat) : Option (List E) :=
  (side[layer]?).bind fun cells => (blocks[pos / g.blockTokens]?).bind fun id =>
    if id < backed then some (g.readRow cells id (pos % g.blockTokens)) else none

theorem read_iff {backed layer pos : Nat} {side : List (List E)} {blocks : List Nat}
    {row : List E} : g.read backed side layer blocks pos = some row ↔
      ∃ cells id, side[layer]? = some cells ∧ blocks[pos / g.blockTokens]? = some id ∧
        id < backed ∧ g.readRow cells id (pos % g.blockTokens) = row := by
  simp only [read, Option.bind_eq_some_iff, Option.ite_none_right_eq_some, Option.some.injEq]
  constructor
  · intro ⟨cells, hcells, id, hid, hlt, hrow⟩
    exact ⟨cells, id, hcells, hid, hlt, hrow⟩
  · intro ⟨cells, id, hcells, hid, hlt, hrow⟩
    exact ⟨cells, hcells, id, hid, hlt, hrow⟩

/-- One side's cells on every layer, whole blocks each. -/
structure Side (g : KVShape) (backed : Nat) (side : List (List E)) : Prop where
  length : side.length = g.layers
  whole : ∀ cells ∈ side, g.Whole backed cells

/-- A side grown: what was read before is read still. -/
structure Grows (g : KVShape) (st st' : BlockKVStorage E) : Prop where
  keys : g.Side st'.backed st'.keys
  values : g.Side st'.backed st'.values
  le : st.backed ≤ st'.backed
  readKeys : ∀ layer blocks pos row, g.read st.backed st.keys layer blocks pos = some row →
    g.read st'.backed st'.keys layer blocks pos = some row
  readValues : ∀ layer blocks pos row, g.read st.backed st.values layer blocks pos = some row →
    g.read st'.backed st'.values layer blocks pos = some row

variable {st st' st'' : BlockKVStorage E}

theorem Grows.refl (hk : g.Side st.backed st.keys) (hv : g.Side st.backed st.values) :
    g.Grows st st :=
  ⟨hk, hv, le_rfl, fun _ _ _ _ h => h, fun _ _ _ _ h => h⟩

theorem Grows.trans (h : g.Grows st st') (h' : g.Grows st' st'') : g.Grows st st'' :=
  ⟨h'.keys, h'.values, h.le.trans h'.le,
    fun layer blocks pos row hr => h'.readKeys _ _ _ _ (h.readKeys layer blocks pos row hr),
    fun layer blocks pos row hr => h'.readValues _ _ _ _ (h.readValues layer blocks pos row hr)⟩

theorem Side.grown {backed want : Nat} {side : List (List E)} (h : g.Side backed side)
    (hle : backed ≤ want) (zero : E) :
    g.Side want (side.map (g.grown zero want)) ∧
      ∀ layer blocks pos row, g.read backed side layer blocks pos = some row →
        g.read want (side.map (g.grown zero want)) layer blocks pos = some row := by
  refine ⟨⟨by rw [List.length_map, h.length], fun cells hc => ?_⟩, fun layer blocks pos row hr => ?_⟩
  · obtain ⟨old, hold, rfl⟩ := List.mem_map.mp hc
    exact (grown_spec (h.whole old hold) hle zero).1
  · obtain ⟨cells, id, hcells, hid, hlt, hrow⟩ := read_iff.mp hr
    refine read_iff.mpr ⟨_, id, by rw [List.getElem?_map, hcells, Option.map_some], hid,
      by omega, ?_⟩
    rw [(grown_spec (h.whole cells (List.mem_of_getElem? hcells)) hle zero).2 id _ hlt
      (Nat.mod_lt _ g.pos)]
    exact hrow

theorem ensure_grows {zero : E} {refused : List Nat} {id : Nat}
    (hk : g.Side st.backed st.keys) (hv : g.Side st.backed st.values)
    (h : g.ensure zero refused st id = some st') : g.Grows st st' ∧ id < st'.backed := by
  unfold ensure at h
  split at h
  next hlt =>
    cases h
    exact ⟨.refl hk hv, hlt⟩
  next hlt =>
    split at h
    · cases h
    split at h
    · cases h
    cases h
    have hle : st.backed ≤ g.growthTarget st.backed id := by
      unfold growthTarget
      omega
    have hid : id < g.growthTarget st.backed id := by
      unfold growthTarget
      omega
    exact ⟨⟨(hk.grown hle zero).1, (hv.grown hle zero).1, hle, (hk.grown hle zero).2,
      (hv.grown hle zero).2⟩, hid⟩

/-- Every block rows `t` up to `stop` land in is backed where the growth went through. -/
theorem ensureRows_grows {zero : E} {refused table : List Nat} {stop fuel t : Nat} {ok : Bool}
    (hk : g.Side st.backed st.keys) (hv : g.Side st.backed st.values) (hfuel : stop ≤ t + fuel)
    (h : g.ensureRows zero refused table stop fuel t st = (ok, st')) :
    g.Grows st st' ∧ (ok = true → ∀ pos, t ≤ pos → pos < stop →
      (g.slot table pos).1 < st'.backed) := by
  induction fuel generalizing t st with
  | zero =>
    cases h
    exact ⟨.refl hk hv, fun _ pos hlo hhi => by omega⟩
  | succ fuel ih =>
    unfold ensureRows at h
    split at h
    next hlt =>
      split at h
      next mid hmid =>
        obtain ⟨hgrow, hid⟩ := ensure_grows hk hv hmid
        have hstep : 0 < g.blockTokens - t % g.blockTokens := by
          have := Nat.mod_lt t g.pos
          omega
        obtain ⟨hrest, hall⟩ := ih hgrow.keys hgrow.values (by omega) h
        refine ⟨hgrow.trans hrest, fun hok pos hlo hhi => ?_⟩
        by_cases hnear : pos < t + (g.blockTokens - t % g.blockTokens)
        · have hsame : pos / g.blockTokens = t / g.blockTokens := by
            have hdm := Nat.div_add_mod t g.blockTokens
            have hmod := Nat.mod_lt t g.pos
            apply Nat.div_eq_of_lt_le
            · rw [Nat.mul_comm]
              omega
            · rw [Nat.succ_mul, Nat.mul_comm]
              omega
          rw [slot, hsame]
          exact lt_of_lt_of_le hid hrest.le
        · exact hall hok pos (by omega) hhi
      next =>
        cases h
        exact ⟨.refl hk hv, fun hok => by cases hok⟩
    next =>
      cases h
      exact ⟨.refl hk hv, fun _ pos hlo hhi => by omega⟩

theorem ensureViews_grows {zero : E} {refused : List Nat} {views : List KVSequence} {ok : Bool}
    (hk : g.Side st.backed st.keys) (hv : g.Side st.backed st.values)
    (h : g.ensureViews zero refused views st = (ok, st')) :
    g.Grows st st' ∧ (ok = true → ∀ s ∈ views, ∀ b < s.pending,
      (g.slot s.blocks (s.length + b)).1 < st'.backed) := by
  induction views generalizing st with
  | nil =>
    cases h
    exact ⟨.refl hk hv, by simp⟩
  | cons s views ih =>
    unfold ensureViews at h
    split at h
    next mid hmid =>
      obtain ⟨hgrow, hall⟩ := ensureRows_grows hk hv le_rfl hmid
      obtain ⟨hrest, hviews⟩ := ih hgrow.keys hgrow.values h
      refine ⟨hgrow.trans hrest, fun hok u hu b hb => ?_⟩
      rcases List.mem_cons.mp hu with heq | hu
      · subst heq
        exact lt_of_lt_of_le (hall (Eq.refl _) _ (by omega) (by omega)) hrest.le
      · exact hviews hok u hu b hb
    next mid hmid =>
      cases h
      exact ⟨(ensureRows_grows hk hv le_rfl hmid).1, fun hok => by cases hok⟩

/-- One view's rows written on one side: they read back, and a row elsewhere stays. -/
theorem Side.storeView {backed layer row0 : Nat} {side : List (List E)} {rows : List E}
    {s : KVSequence} (h : g.Side backed side)
    (hlong : (row0 + s.pending) * (g.heads * g.dim) ≤ rows.length)
    (hbacked : ∀ b < s.pending, (g.slot s.blocks (s.length + b)).1 < backed)
    (hapart : ∀ b < s.pending, ∀ b' < s.pending,
      g.slot s.blocks (s.length + b) = g.slot s.blocks (s.length + b') → b = b') :
    g.Side backed (side.modify layer fun cells => g.storeView cells rows row0 s) ∧
      (layer < g.layers → ∀ b < s.pending, (s.length + b) / g.blockTokens < s.blocks.length →
        g.read backed (side.modify layer fun cells => g.storeView cells rows row0 s) layer s.blocks
          (s.length + b) = some (g.rowOf rows (row0 + b))) ∧
      ∀ l blocks pos row, g.read backed side l blocks pos = some row →
        (l = layer → ∀ b < s.pending, ∀ id, blocks[pos / g.blockTokens]? = some id →
          (id, pos % g.blockTokens) ≠ g.slot s.blocks (s.length + b)) →
        g.read backed (side.modify layer fun cells => g.storeView cells rows row0 s) l blocks pos =
          some row := by
  refine ⟨⟨by rw [List.length_modify, h.length], fun cells hc => ?_⟩, fun hl b hb hcover => ?_,
    fun l blocks pos row hr hne => ?_⟩
  · obtain ⟨j, hj, rfl⟩ := List.getElem_of_mem hc
    rw [List.getElem_modify]
    have hold := h.whole _ (List.getElem_mem (by simpa using hj))
    split
    · exact (storeView_spec hold hlong hbacked hapart).1
    · exact hold
  · rw [← h.length] at hl
    have hold := h.whole _ (List.getElem_mem hl)
    refine read_iff.mpr ⟨g.storeView side[layer] rows row0 s,
      s.blocks[(s.length + b) / g.blockTokens], ?_,
      List.getElem?_eq_getElem hcover, ?_, ?_⟩
    · rw [List.getElem?_modify_eq, List.getElem?_eq_getElem hl]
      exact Eq.refl _
    · have := hbacked b hb
      simpa [slot, List.getD_eq_getElem?_getD, hcover] using this
    · have := (storeView_spec hold hlong hbacked hapart).2.1 b hb
      simpa [slot, List.getD_eq_getElem?_getD, hcover] using this
  · obtain ⟨cells, id, hcells, hid, hlt, hrow⟩ := read_iff.mp hr
    by_cases hl : l = layer
    · subst hl
      have hold := h.whole _ (List.mem_of_getElem? hcells)
      refine read_iff.mpr ⟨g.storeView cells rows row0 s, id, ?_, hid, hlt, ?_⟩
      · rw [List.getElem?_modify_eq, hcells]
        exact Eq.refl _
      rw [(storeView_spec hold hlong hbacked hapart).2.2 id _ (Nat.mod_lt _ g.pos)
        fun b hb => hne (Eq.refl _) b hb id hid]
      exact hrow
    · refine read_iff.mpr ⟨cells, id, ?_, hid, hlt, hrow⟩
      rw [List.getElem?_modify_ne _ _ (Ne.symm hl)]
      exact hcells

end KVShape

end Llmx
