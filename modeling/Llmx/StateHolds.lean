import Llmx.SlotPool

namespace Llmx

/-- A hold on a mark: one of the pool's buffers and, where the mark took the sequence's live slot,
that slot. -/
structure MarkHold where
  buffer : Nat
  slot : Nat
  owns : Bool
deriving DecidableEq, Repr

/-- A state kept at a position: one reference to a checkpoint's slot. -/
structure Checkpoint where
  slot : Nat
  pos : Nat
deriving DecidableEq, Repr

structure Mark where
  hold : Option MarkHold
  ran : Bool
  pos : Nat
deriving DecidableEq, Repr

def Mark.gone (m : Mark) : Mark := { m with hold := none, ran := false }

/-- One history on a model that keeps a state: its first stage's committed length, its holds, the
mark's hold a deferred retract still has, and its passes in flight. -/
structure Sequence where
  length : Nat
  state : Option Nat
  kept : Option Checkpoint
  mark : Mark
  deferred : Option MarkHold
  flights : Nat
deriving DecidableEq, Repr

def Sequence.fresh : Sequence := ⟨0, none, none, ⟨none, false, 0⟩, none, 0⟩

def MarkHold.take (p : SlotPool) (state : Option Nat) : Option (MarkHold × SlotPool) :=
  p.acquireMarkBuffer.bind fun (b, p) =>
    match state with
    | none => some (⟨b, 0, false⟩, p)
    | some s => (p.markLive).map fun p => (⟨b, s, true⟩, p)

def MarkHold.release (m : MarkHold) (p : SlotPool) : SlotPool :=
  (if m.owns then p.releaseMark m.slot else p).releaseMarkBuffer m.buffer

/-- A sequence beside the pool its holds are in. -/
structure SlotHolder where
  pool : SlotPool
  seq : Sequence

namespace SlotHolder

def releaseState (h : SlotHolder) : SlotHolder :=
  match h.seq.state with
  | none => h
  | some x => ⟨h.pool.release x, { h.seq with state := none }⟩

def releaseKept (h : SlotHolder) : SlotHolder :=
  match h.seq.kept with
  | none => h
  | some c => ⟨h.pool.releaseKept c.slot, { h.seq with kept := none }⟩

/-- The deferred retract's parts have run, so the mark's hold goes back. -/
def settle (h : SlotHolder) : SlotHolder :=
  match h.seq.deferred with
  | none => h
  | some m => ⟨m.release h.pool, { h.seq with deferred := none }⟩

def dropMark (h : SlotHolder) : SlotHolder :=
  match h.seq.mark.hold with
  | none => ⟨h.pool, { h.seq with mark := h.seq.mark.gone }⟩
  | some m => ⟨m.release h.pool, { h.seq with mark := h.seq.mark.gone }⟩

/-- The mark's slot adopted as the live one, for the one a pass wrote. -/
def adopt (h : SlotHolder) (x : Nat) : SlotHolder :=
  ⟨h.releaseState.pool.unmark, { h.releaseState.seq with state := some x }⟩

def restoreMark (h : SlotHolder) : SlotHolder :=
  match h.seq.mark.hold with
  | none => h
  | some m =>
    let h := if m.owns then h.adopt m.slot else h.releaseState
    ⟨h.pool.releaseMarkBuffer m.buffer, { h.seq with mark := h.seq.mark.gone }⟩

def cut (h : SlotHolder) (n : Nat) : SlotHolder :=
  ⟨h.pool, { h.seq with length := min h.seq.length n }⟩

def reset (h : SlotHolder) : SlotHolder :=
  if h.seq.flights ≠ 0 then h
  else (h.settle.dropMark.cut 0).releaseKept.releaseState

def mark (h : SlotHolder) : SlotHolder :=
  if h.seq.flights ≠ 0 then h
  else
    let h := h.settle
    if h.seq.mark.hold.isSome then h
    else
      match MarkHold.take h.pool h.seq.state with
      | none => h
      | some (m, p) => ⟨p, { h.seq with state := none, mark := ⟨some m, false, h.seq.length⟩ }⟩

def keep (h : SlotHolder) : SlotHolder :=
  if h.seq.flights ≠ 0 then h
  else
    let h := h.settle
    if h.seq.mark.hold.isSome ∨ h.seq.kept.any (·.pos = h.seq.length) then h
    else
      match h.seq.state with
      | none => h
      | some x =>
        let h := h.releaseKept
        match h.pool.keepLive x with
        | none => h
        | some p => ⟨p, { h.seq with state := none, kept := some ⟨x, h.seq.length⟩ }⟩

/-- A checkpoint past `length` goes, and the live slot with it. -/
def rewindKept (h : SlotHolder) (length : Nat) : SlotHolder :=
  let h := if h.seq.kept.any (length < ·.pos) then h.releaseKept else h
  h.releaseState

def rewind (h : SlotHolder) (length : Nat) : SlotHolder :=
  if h.seq.mark.hold.isSome ∧ h.seq.mark.pos ≤ length then
    h.restoreMark.cut h.seq.mark.pos
  else
    let h := h.dropMark.rewindKept length
    h.cut ((h.seq.kept.map (·.pos)).getD 0)

/-- A failed pass undone by lengths alone where `byLength` says the caches allow it. -/
def rewindByLength (h : SlotHolder) (length : Nat) (byLength : Bool) : Option SlotHolder :=
  if byLength = false ∨ length = 0 ∨ h.seq.mark.hold.isSome ∨ h.seq.state = none then none
  else some (h.cut length)

/-- How the state's rerun inside a mark ends. -/
inductive Rerun
  | here
  | deferred
  | failed
deriving DecidableEq, Repr

/-- The mark's hold moved to the deferred retract. -/
def deferHold (h : SlotHolder) : SlotHolder :=
  ⟨h.pool, { h.seq with deferred := h.seq.mark.hold, mark := h.seq.mark.gone }⟩

def retract (h : SlotHolder) (length : Nat) (rerun : Rerun) : SlotHolder :=
  if h.seq.flights ≠ 0 then h
  else
    let h := h.settle
    let m := h.seq.mark
    if m.hold.isSome ∧ m.ran ∧ m.pos < length ∧ length < h.seq.length then
      match rerun with
      | .failed => h
      | .here => h.dropMark.cut length
      | .deferred => h.deferHold.cut length
    else if h.seq.length ≤ length then
      if m.ran then h.dropMark else h.restoreMark
    else h.rewind length

/-- A live slot for the sequence's first pass; `none` where there is none to take. -/
def takeState (h : SlotHolder) : Option SlotHolder :=
  match h.seq.state with
  | some _ => some h
  | none =>
    match h.pool.acquire with
    | some (some x, p) => some ⟨p, { h.seq with state := some x }⟩
    | _ => none

/-- A checkpoint moved in, the one it replaces returned. -/
def keepAt (h : SlotHolder) (c : Checkpoint) : SlotHolder :=
  ⟨h.releaseKept.pool, { h.releaseKept.seq with kept := some c }⟩

def destroy (h : SlotHolder) : SlotHolder :=
  ⟨(h.settle.dropMark.releaseKept.releaseState).pool, Sequence.fresh⟩

/-- Another sequence moved over this one. -/
def assign (h : SlotHolder) (s : Sequence) : SlotHolder :=
  ⟨(h.releaseState.releaseKept.dropMark.settle).pool, s⟩

end SlotHolder

def bag (o : Option Nat) : Multiset Nat := o.toList

@[simp] theorem bag_none : bag none = 0 := rfl

@[simp] theorem bag_some (x : Nat) : bag (some x) = {x} := rfl

def MarkHold.owned (m : MarkHold) : Option Nat := if m.owns then some m.slot else none

namespace Sequence

def live (s : Sequence) : Multiset Nat := bag s.state

def marked (s : Sequence) : Multiset Nat :=
  bag (s.mark.hold.bind MarkHold.owned) + bag (s.deferred.bind MarkHold.owned)

def checkpoints (s : Sequence) : Multiset Nat := bag (s.kept.map Checkpoint.slot)

def buffers (s : Sequence) : Multiset Nat :=
  bag (s.mark.hold.map MarkHold.buffer) + bag (s.deferred.map MarkHold.buffer)

end Sequence

/-- A sequence that holds nothing. -/
structure Sequence.Empty (s : Sequence) : Prop where
  state : s.state = none
  kept : s.kept = none
  mark : s.mark.hold = none
  deferred : s.deferred = none

namespace Sequence.Empty

variable {s : Sequence}

theorem live (e : s.Empty) : s.live = 0 := by rw [Sequence.live, e.state, bag_none]

theorem marked (e : s.Empty) : s.marked = 0 := by
  rw [Sequence.marked, e.mark, e.deferred, Option.bind_none, bag_none, add_zero]

theorem checkpoints (e : s.Empty) : s.checkpoints = 0 := by
  rw [Sequence.checkpoints, e.kept, Option.map_none, bag_none]

theorem buffers (e : s.Empty) : s.buffers = 0 := by
  rw [Sequence.buffers, e.mark, e.deferred, Option.map_none, bag_none, add_zero]

end Sequence.Empty

theorem SlotHolder.destroyed_empty (h : SlotHolder) :
    (h.settle.dropMark.releaseKept.releaseState).seq.Empty := by
  obtain ⟨p, n, state, kept, ⟨hold, ran, pos⟩, deferred, flights⟩ := h
  cases state <;> cases kept <;> cases hold <;> cases deferred <;> exact ⟨rfl, rfl, rfl, rfl⟩

theorem SlotHolder.vacated_empty (h : SlotHolder) :
    (h.releaseState.releaseKept.dropMark.settle).seq.Empty := by
  obtain ⟨p, n, state, kept, ⟨hold, ran, pos⟩, deferred, flights⟩ := h
  cases state <;> cases kept <;> cases hold <;> cases deferred <;> exact ⟨rfl, rfl, rfl, rfl⟩

/-- The pool counts the sequence's holds beside those of all the others. -/
def SlotHolder.Frame (h : SlotHolder) (l m k b : Multiset Nat) : Prop :=
  h.pool.Counts (h.seq.live + l) (h.seq.marked + m) (h.seq.checkpoints + k) (h.seq.buffers + b)

theorem MarkHold.release_counts {d : MarkHold} {p : SlotPool} {l m k b : Multiset Nat}
    (c : p.Counts l (bag d.owned + m) k (d.buffer ::ₘ b)) : (d.release p).Counts l m k b := by
  unfold MarkHold.release
  unfold MarkHold.owned at c
  split
  next howns =>
    rw [if_pos howns, bag_some, Multiset.singleton_add] at c
    exact c.releaseMark.releaseMarkBuffer
  next howns =>
    rw [if_neg howns, bag_none, zero_add] at c
    exact c.releaseMarkBuffer

theorem MarkHold.take_counts {d : MarkHold} {p q : SlotPool} {state : Option Nat}
    {l m k b : Multiset Nat} (c : p.Counts (bag state + l) m k b)
    (ht : MarkHold.take p state = some (d, q)) :
    q.Counts l (bag d.owned + m) k (d.buffer ::ₘ b) := by
  obtain ⟨⟨x, r⟩, hx, ht⟩ := Option.bind_eq_some_iff.mp ht
  have c := c.acquireMarkBuffer hx
  cases state with
  | none =>
    obtain ⟨rfl, rfl⟩ := Prod.mk.inj (Option.some.inj ht)
    rw [bag_none, zero_add] at c
    exact c.cast rfl (zero_add m) rfl rfl
  | some y =>
    obtain ⟨r', hr, ht⟩ := Option.map_eq_some_iff.mp ht
    obtain ⟨rfl, rfl⟩ := Prod.mk.inj ht
    rw [bag_some, Multiset.singleton_add] at c
    exact (c.markLive hr).cast rfl (Multiset.singleton_add y m) rfl rfl

namespace SlotHolder.Frame

variable {h : SlotHolder} {l m k b : Multiset Nat} {n : Nat}

theorem cut (f : h.Frame l m k b) : (h.cut n).Frame l m k b := f

theorem releaseState (f : h.Frame l m k b) : h.releaseState.Frame l m k b := by
  unfold SlotHolder.releaseState
  split
  · exact f
  next x hx =>
    have c : h.pool.Counts _ _ _ _ := f
    rw [Sequence.live, hx, bag_some, Multiset.singleton_add] at c
    exact c.release.cast (zero_add l) rfl rfl rfl

theorem releaseKept (f : h.Frame l m k b) : h.releaseKept.Frame l m k b := by
  unfold SlotHolder.releaseKept
  split
  · exact f
  next x hx =>
    have c : h.pool.Counts _ _ _ _ := f
    rw [Sequence.checkpoints, hx, Option.map_some, bag_some, Multiset.singleton_add] at c
    exact c.releaseKept.cast rfl rfl (zero_add k) rfl

/-- The mark's hold apart from the deferred one. -/
theorem marked_split {d : MarkHold} (f : h.Frame l m k b) (hd : h.seq.mark.hold = some d) :
    h.pool.Counts (h.seq.live + l) (bag d.owned + (bag (h.seq.deferred.bind MarkHold.owned) + m))
      (h.seq.checkpoints + k)
      (d.buffer ::ₘ (bag (h.seq.deferred.map MarkHold.buffer) + b)) := by
  have c : h.pool.Counts _ _ _ _ := f
  rw [Sequence.marked, Sequence.buffers, hd, add_assoc, add_assoc, Option.map_some, bag_some,
    Multiset.singleton_add] at c
  exact c

/-- The deferred hold apart from the mark's. -/
theorem deferred_split {d : MarkHold} (f : h.Frame l m k b) (hd : h.seq.deferred = some d) :
    h.pool.Counts (h.seq.live + l) (bag d.owned + (bag (h.seq.mark.hold.bind MarkHold.owned) + m))
      (h.seq.checkpoints + k)
      (d.buffer ::ₘ (bag (h.seq.mark.hold.map MarkHold.buffer) + b)) := by
  have c : h.pool.Counts _ _ _ _ := f
  rw [Sequence.marked, Sequence.buffers, hd, Option.bind_some, Option.map_some, bag_some,
    add_comm _ (bag d.owned), add_comm _ ({d.buffer} : Multiset Nat), add_assoc, add_assoc,
    Multiset.singleton_add] at c
  exact c

theorem settle (f : h.Frame l m k b) : h.settle.Frame l m k b := by
  unfold SlotHolder.settle
  split
  · exact f
  next d hd =>
    have c := MarkHold.release_counts (f.deferred_split hd)
    exact c.cast rfl (congrArg (· + m) (add_zero _)) rfl (congrArg (· + b) (add_zero _))

theorem dropMark (f : h.Frame l m k b) : h.dropMark.Frame l m k b := by
  unfold SlotHolder.dropMark
  split
  next hd =>
    have c : h.pool.Counts _ _ _ _ := f
    rw [Sequence.marked, Sequence.buffers, hd] at c
    exact c
  next d hd =>
    have c := MarkHold.release_counts (f.marked_split hd)
    exact c.cast rfl (congrArg (· + m) (zero_add _)) rfl (congrArg (· + b) (zero_add _))

@[simp] theorem releaseState_mark : h.releaseState.seq.mark = h.seq.mark := by
  unfold SlotHolder.releaseState
  split <;> rfl

@[simp] theorem releaseState_state : h.releaseState.seq.state = none := by
  unfold SlotHolder.releaseState
  split
  next hs => exact hs
  next => rfl

theorem restoreMark (f : h.Frame l m k b) : h.restoreMark.Frame l m k b := by
  unfold SlotHolder.restoreMark
  split
  · exact f
  next d hd =>
    have fs := f.releaseState
    have c := fs.marked_split (by rw [releaseState_mark, hd])
    rw [Sequence.live, releaseState_state, bag_none, zero_add] at c
    split
    next howns =>
      rw [MarkHold.owned, if_pos howns, bag_some, Multiset.singleton_add] at c
      exact c.unmark.releaseMarkBuffer.cast (Multiset.singleton_add _ _)
        (congrArg (· + m) (zero_add _)) rfl (congrArg (· + b) (zero_add _))
    next howns =>
      rw [MarkHold.owned, if_neg howns, bag_none, zero_add] at c
      refine c.releaseMarkBuffer.cast ?_ (congrArg (· + m) (zero_add _)) rfl
        (congrArg (· + b) (zero_add _))
      rw [Sequence.live, releaseState_state, bag_none, zero_add]

theorem reset (f : h.Frame l m k b) : h.reset.Frame l m k b := by
  unfold SlotHolder.reset
  split
  · exact f
  · exact f.settle.dropMark.cut.releaseKept.releaseState

@[simp] theorem settle_deferred : h.settle.seq.deferred = none := by
  unfold SlotHolder.settle
  split
  next hd => exact hd
  next => rfl

@[simp] theorem releaseKept_state : h.releaseKept.seq.state = h.seq.state := by
  unfold SlotHolder.releaseKept
  split <;> rfl

@[simp] theorem releaseKept_kept : h.releaseKept.seq.kept = none := by
  unfold SlotHolder.releaseKept
  split
  next hk => exact hk
  next => rfl

theorem mark (f : h.Frame l m k b) : h.mark.Frame l m k b := by
  unfold SlotHolder.mark
  split
  · exact f
  · have fs := f.settle
    dsimp only
    split
    · exact fs
    next hno =>
      have hd : h.settle.seq.mark.hold = none := by simpa using hno
      split
      · exact fs
      next d q ht =>
        have c := MarkHold.take_counts fs ht
        refine c.cast (zero_add l) ?_ rfl ?_
        · rw [Sequence.marked, Sequence.marked, hd, settle_deferred, Option.bind_none, bag_none,
            add_zero, zero_add, zero_add]
          rfl
        · rw [Sequence.buffers, Sequence.buffers, hd, settle_deferred, Option.map_none, bag_none,
            add_zero, zero_add, zero_add]
          exact Multiset.singleton_add _ _

theorem keep (f : h.Frame l m k b) : h.keep.Frame l m k b := by
  unfold SlotHolder.keep
  split
  · exact f
  · have fs := f.settle
    dsimp only
    split
    · exact fs
    · split
      · exact fs
      next x hx =>
        have fk := fs.releaseKept
        split
        · exact fk
        next q hq =>
          have c : h.settle.releaseKept.pool.Counts _ _ _ _ := fk
          rw [Sequence.live, releaseKept_state, hx, bag_some, Multiset.singleton_add,
            Sequence.checkpoints, releaseKept_kept, Option.map_none, bag_none, zero_add] at c
          exact (c.keepLive hq).cast (zero_add l) rfl (Multiset.singleton_add _ _) rfl

theorem rewindKept (f : h.Frame l m k b) : (h.rewindKept n).Frame l m k b := by
  unfold SlotHolder.rewindKept
  dsimp only
  split
  · exact f.releaseKept.releaseState
  · exact f.releaseState

theorem rewind (f : h.Frame l m k b) : (h.rewind n).Frame l m k b := by
  unfold SlotHolder.rewind
  split
  · exact f.restoreMark.cut
  · exact f.dropMark.rewindKept.cut

theorem rewindByLength {h' : SlotHolder} {ok : Bool} (f : h.Frame l m k b)
    (hr : h.rewindByLength n ok = some h') : h'.Frame l m k b := by
  unfold SlotHolder.rewindByLength at hr
  split at hr
  · cases hr
  · cases Option.some.inj hr
    exact f.cut

theorem deferHold (f : h.Frame l m k b) (hd : h.seq.deferred = none) :
    h.deferHold.Frame l m k b := by
  have c : h.pool.Counts _ _ _ _ := f
  rw [Sequence.marked, Sequence.buffers, hd, Option.bind_none, Option.map_none, bag_none,
    add_comm _ (0 : Multiset Nat), add_comm _ (0 : Multiset Nat)] at c
  exact c

theorem retract {r : Rerun} (f : h.Frame l m k b) : (h.retract n r).Frame l m k b := by
  unfold SlotHolder.retract
  split
  · exact f
  · have fs := f.settle
    dsimp only
    split
    · cases r with
      | here => exact fs.dropMark.cut
      | deferred => exact (fs.deferHold settle_deferred).cut
      | failed => exact fs
    · split
      · split
        · exact fs.dropMark
        · exact fs.restoreMark
      · exact fs.rewind

theorem takeState {h' : SlotHolder} (f : h.Frame l m k b) (ht : h.takeState = some h') :
    h'.Frame l m k b := by
  unfold SlotHolder.takeState at ht
  split at ht
  · cases Option.some.inj ht
    exact f
  next hs =>
    split at ht
    next x p ha =>
      cases Option.some.inj ht
      have c : h.pool.Counts _ _ _ _ := f
      rw [Sequence.live, hs, bag_none, zero_add] at c
      exact (c.acquire ha).cast (Multiset.singleton_add _ _) rfl rfl rfl
    · cases ht

theorem keepAt {c : Checkpoint} (f : h.Frame l m (c.slot ::ₘ k) b) :
    (h.keepAt c).Frame l m k b := by
  have c : h.releaseKept.pool.Counts _ _ _ _ := f.releaseKept
  rw [Sequence.checkpoints, releaseKept_kept, Option.map_none, bag_none, zero_add] at c
  exact c.cast rfl rfl (Multiset.singleton_add _ _) rfl

/-- Sequences that hold nothing are alike to the pool. -/
theorem swap {p : SlotPool} {s t : Sequence} (f : (SlotHolder.mk p s).Frame l m k b) (hs : s.Empty)
    (ht : t.Empty) : (SlotHolder.mk p t).Frame l m k b := by
  have c : p.Counts (s.live + l) (s.marked + m) (s.checkpoints + k) (s.buffers + b) := f
  rw [hs.live, hs.marked, hs.checkpoints, hs.buffers] at c
  show p.Counts (t.live + l) (t.marked + m) (t.checkpoints + k) (t.buffers + b)
  rw [ht.live, ht.marked, ht.checkpoints, ht.buffers]
  exact c

theorem destroy (f : h.Frame l m k b) : h.destroy.Frame l m k b := by
  have fs := f.settle.dropMark.releaseKept.releaseState
  exact fs.swap h.destroyed_empty ⟨rfl, rfl, rfl, rfl⟩

end SlotHolder.Frame

end Llmx
