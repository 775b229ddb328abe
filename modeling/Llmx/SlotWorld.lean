import Llmx.StateHolds
import Llmx.Runs
import Mathlib.Algebra.BigOperators.Group.List.Basic
import Mathlib.Data.List.Sort

namespace Llmx

structure StateEntry where
  seq : Nat
  n : Nat
  keep : Bool
  wantLogits : Bool
deriving DecidableEq, Repr

/-- A pass slot: its entries and where it found each, the checkpoints their last stage gives them,
and the stages run. -/
structure StatePass where
  inFlight : Bool
  entries : List StateEntry
  start : List Nat
  kept : List (Option Checkpoint)
  ran : Nat
deriving DecidableEq, Repr

def StatePass.idle : StatePass := ⟨false, [], [], [], 0⟩

structure SlotWorld where
  stages : Nat
  contextLength : Nat
  markRows : Nat
  blockTokens : List Nat
  pool : SlotPool
  seqs : List Sequence
  passes : List StatePass
deriving DecidableEq, Repr

inductive SlotEvent
  | make
  | mark (i : Nat)
  | keep (i : Nat)
  | reset (i : Nat)
  | retract (i length : Nat) (rerun : SlotHolder.Rerun)
  | restoreMark (i : Nat)
  | dropMark (i : Nat)
  | releaseSettled (i : Nat)
  | fork (i length : Nat)
  | restoreHost (length : Nat)
  | move (i j : Nat)
  | destroy (i : Nat)
  | beginPass (k : Nat) (entries : List StateEntry)
  | commit (k : Nat)
  | endPass (k : Nat)
  | fail (k : Nat) (byLength : Nat → Bool)
  | abort (k : Nat) (byLength : Nat → Nat → Bool)

namespace SlotWorld

def seqAt (w : SlotWorld) (i : Nat) : Sequence := w.seqs.getD i Sequence.fresh

def put (w : SlotWorld) (i : Nat) (h : SlotHolder) : SlotWorld :=
  { w with pool := h.pool, seqs := w.seqs.set i h.seq }

def on (w : SlotWorld) (i : Nat) (f : SlotHolder → SlotHolder) : SlotWorld :=
  match w.seqs[i]? with
  | none => w
  | some s => w.put i (f ⟨w.pool, s⟩)

def each {α : Type} (w : SlotWorld) (xs : List α) (seq : α → Nat) (f : α → SlotHolder → SlotHolder) :
    SlotWorld :=
  xs.foldl (fun w x => w.on (seq x) (f x)) w

def push (w : SlotWorld) (h : SlotHolder) : SlotWorld :=
  { w with pool := h.pool, seqs := w.seqs ++ [h.seq] }

/-- A second history at the source's checkpoint, which must be at its length. -/
def fork (w : SlotWorld) (i length : Nat) : SlotWorld :=
  let src := w.seqAt i
  if src.flights ≠ 0 ∨ src.mark.hold.isSome then w
  else
    match src.kept with
    | none => w
    | some c =>
      if c.pos ≠ length ∨ src.length < length then w
      else w.push ⟨w.pool.retain c.slot, { Sequence.fresh with length := length, kept := some c }⟩

/-- A history copied back from host memory, its state in a checkpoint's slot. -/
def restoreHost (w : SlotWorld) (length : Nat) : Option SlotWorld :=
  match w.pool.acquireKept with
  | none => none
  | some (none, _) => some w
  | some (some x, p) =>
    some (w.push ⟨p, { Sequence.fresh with length := length, kept := some ⟨x, length⟩ }⟩)

/-- What a sequence moved from keeps. -/
def movedFrom (s : Sequence) : Sequence :=
  { Sequence.fresh with mark := { s.mark with hold := none }, flights := s.flights }

def move (w : SlotWorld) (i j : Nat) : SlotWorld :=
  match w.seqs[i]?, w.seqs[j]? with
  | some s, some t =>
    if i = j then w
    else
      let w := w.put i ⟨w.pool, movedFrom s⟩
      w.put j (SlotHolder.assign ⟨w.pool, t⟩ s)
  | _, _ => w

def passAt (w : SlotWorld) (k : Nat) : StatePass := w.passes.getD k StatePass.idle

def setPass (w : SlotWorld) (k : Nat) (p : StatePass) : SlotWorld :=
  { w with passes := w.passes.set k p }

/-- A sequence in flight continues only alone and unmarked, each of its passes in flight holding it
alone, past its first stage and not wanting its logits. -/
def MayContinue (w : SlotWorld) (entries : List StateEntry) (e : StateEntry) : Prop :=
  (w.seqAt e.seq).flights = 0 ∨
    (entries.length = 1 ∧ (w.seqAt e.seq).mark.hold = none ∧
      ∀ o ∈ w.passes, o.inFlight → ∀ f ∈ o.entries, f.seq = e.seq →
        o.entries.length = 1 ∧ o.ran ≠ 0 ∧ f.wantLogits = false)

instance (w : SlotWorld) (entries : List StateEntry) (e : StateEntry) :
    Decidable (w.MayContinue entries e) :=
  inferInstanceAs (Decidable (_ ∨ _))

def fresh (w : SlotWorld) (entries : List StateEntry) : Nat :=
  entries.countP fun e => (w.seqAt e.seq).state.isNone

def keeps (entries : List StateEntry) : Nat := entries.countP StateEntry.keep

/-- What a pass needs of an entry: rows within the context, and of a mark one pass, within the rows
it saves, with no checkpoint. -/
def EntryFits (w : SlotWorld) (e : StateEntry) : Prop :=
  let s := w.seqAt e.seq
  e.seq < w.seqs.length ∧ e.n ≠ 0 ∧ s.length + e.n ≤ w.contextLength ∧
    (s.mark.hold.isSome → s.mark.ran = false ∧ e.n ≤ w.markRows ∧ e.keep = false) ∧
    (e.keep → ∀ t ∈ w.blockTokens, (s.length + e.n) % t = 0)

instance (w : SlotWorld) (e : StateEntry) : Decidable (w.EntryFits e) :=
  inferInstanceAs (Decidable (_ ∧ _ ∧ _ ∧ (_ → _ ∧ _ ∧ _) ∧ (_ → _)))

structure MayBegin (w : SlotWorld) (k : Nat) (entries : List StateEntry) : Prop where
  slot : k < w.passes.length
  idle : (w.passAt k).inFlight = false
  some : entries ≠ []
  once : (entries.map StateEntry.seq).Nodup
  continues : ∀ e ∈ entries, w.MayContinue entries e
  fits : ∀ e ∈ entries, w.EntryFits e
  live : w.fresh entries ≤ w.pool.available
  kept : keeps entries ≤ w.pool.keptAvailable

instance (w : SlotWorld) (k : Nat) (entries : List StateEntry) :
    Decidable (w.MayBegin k entries) :=
  decidable_of_iff
    (k < w.passes.length ∧ (w.passAt k).inFlight = false ∧ entries ≠ [] ∧
      (entries.map StateEntry.seq).Nodup ∧ (∀ e ∈ entries, w.MayContinue entries e) ∧
      (∀ e ∈ entries, w.EntryFits e) ∧ w.fresh entries ≤ w.pool.available ∧
      keeps entries ≤ w.pool.keptAvailable)
    ⟨fun ⟨a, b, c, d, e, f, g, h⟩ => ⟨a, b, c, d, e, f, g, h⟩,
      fun ⟨a, b, c, d, e, f, g, h⟩ => ⟨a, b, c, d, e, f, g, h⟩⟩

def takeState (w : SlotWorld) (i : Nat) : Option SlotWorld :=
  match w.seqs[i]? with
  | none => some w
  | some s => (SlotHolder.takeState ⟨w.pool, s⟩).map (w.put i)

def takeStates : SlotWorld → List StateEntry → Option SlotWorld
  | w, [] => some w
  | w, e :: es => (w.takeState e.seq).bind fun w => takeStates w es

/-- A checkpoint's slot for each entry that keeps its state, at the position given. -/
def keepSlots : SlotPool → List (StateEntry × Nat) → Option (List (Option Checkpoint) × SlotPool)
  | p, [] => some ([], p)
  | p, (e, pos) :: es =>
    if e.keep then
      match p.acquireKept with
      | some (some x, p) => (keepSlots p es).map fun (ks, p) => (some ⟨x, pos⟩ :: ks, p)
      | _ => none
    else (keepSlots p es).map fun (ks, p) => (none :: ks, p)

def releaseAll (p : SlotPool) (kept : List (Option Checkpoint)) : SlotPool :=
  kept.foldl (fun p c => match c with | none => p | some c => p.releaseKept c.slot) p

def clearKept (w : SlotWorld) (k : Nat) : SlotWorld :=
  { w with pool := releaseAll w.pool (w.passAt k).kept }.setPass k { w.passAt k with kept := [] }

def launch (h : SlotHolder) : SlotHolder :=
  let m := { h.seq.mark with ran := h.seq.mark.hold.isSome }
  ⟨h.pool, { h.seq with mark := m, flights := h.seq.flights + 1 }⟩

/-- A pass planned: what it refuses changes nothing; `none` where a slot its checks promised is not
there to take. -/
def beginPass (w : SlotWorld) (k : Nat) (entries : List StateEntry) : Option SlotWorld :=
  if w.MayBegin k entries then
    ((w.clearKept k).takeStates entries).bind fun w =>
      let start := entries.map fun e => (w.seqAt e.seq).length
      let w := w.each entries StateEntry.seq fun _ => launch
      let ends := entries.map fun e => (e, (w.seqAt e.seq).length + e.n)
      (keepSlots w.pool ends).map fun (kept, p) =>
        { w with pool := p }.setPass k ⟨true, entries, start, kept, 0⟩
  else some w

/-- Entry `e`'s checkpoint moved from the pass to its sequence. -/
def moveKept (k : Nat) (w : SlotWorld) (e : Nat) : SlotWorld :=
  let p := w.passAt k
  match p.entries[e]?, p.kept[e]? with
  | some en, some (some c) =>
    match w.seqs[en.seq]? with
    | none => w
    | some s =>
      (w.put en.seq (SlotHolder.keepAt ⟨w.pool, s⟩ c)).setPass k { p with kept := p.kept.set e none }
  | _, _ => w

def lengthen (n : Nat) (h : SlotHolder) : SlotHolder :=
  ⟨h.pool, { h.seq with length := h.seq.length + n }⟩

/-- The pass's next stage committed. -/
def commit (w : SlotWorld) (k : Nat) : SlotWorld :=
  let p := w.passAt k
  if p.inFlight = false ∨ w.stages ≤ p.ran then w
  else
    let w := if p.ran = 0 then w.each p.entries StateEntry.seq fun e => lengthen e.n else w
    let w := if p.ran + 1 = w.stages then
      (List.range p.entries.length).foldl (moveKept k) w else w
    w.setPass k { w.passAt k with ran := p.ran + 1 }

def land (h : SlotHolder) : SlotHolder := ⟨h.pool, { h.seq with flights := h.seq.flights - 1 }⟩

/-- The pass leaves flight, and its sequences with it. -/
def release (w : SlotWorld) (k : Nat) : SlotWorld :=
  let w := w.each (w.passAt k).entries StateEntry.seq fun _ => land
  w.setPass k { w.passAt k with inFlight := false }

def endPass (w : SlotWorld) (k : Nat) : SlotWorld :=
  let p := w.passAt k
  if p.inFlight = false ∨ p.ran < w.stages then w else w.release k

def undo (byLength : Nat → Bool) (x : StateEntry × Nat) (h : SlotHolder) : SlotHolder :=
  (h.rewindByLength x.2 (byLength x.1.seq)).getD (h.rewind x.2)

/-- Every entry's history back to where the pass found it, then the pass out of flight. -/
def rollBack (w : SlotWorld) (k : Nat) (byLength : Nat → Bool) : SlotWorld :=
  let p := w.passAt k
  if p.inFlight = false then w
  else
    let w := w.each (p.entries.zip p.start) (fun x => x.1.seq) (undo byLength)
    (w.clearKept k).release k

/-- The later passes of the sequences of the pass in slot `k`, newest first. -/
def later (w : SlotWorld) (k : Nat) : List Nat :=
  let p := w.passAt k
  let isLater (j : Nat) : Bool :=
    let o := w.passAt j
    j ≠ k && o.inFlight && o.entries.length == 1 &&
      (p.entries.zip p.start).any fun x =>
        o.entries.any (·.seq == x.1.seq) && x.2 < o.start.headD 0
  ((List.range w.passes.length).filter isLater).insertionSort
    fun a b => (w.passAt b).start.headD 0 ≤ (w.passAt a).start.headD 0

def abort (w : SlotWorld) (k : Nat) (byLength : Nat → Nat → Bool) : SlotWorld :=
  if (w.passAt k).inFlight = false then w
  else ((w.later k).foldl (fun w j => w.rollBack j (byLength j)) w).rollBack k (byLength k)

/-- Every event of the model's callers; a move or a destruction in flight, which they must not make,
is let through. -/
def step (w : SlotWorld) : SlotEvent → Option SlotWorld
  | .make => some (w.push ⟨w.pool, Sequence.fresh⟩)
  | .mark i => some (w.on i SlotHolder.mark)
  | .keep i => some (w.on i SlotHolder.keep)
  | .reset i => some (w.on i SlotHolder.reset)
  | .retract i length rerun => some (w.on i fun h => h.retract length rerun)
  | .restoreMark i => some (w.on i SlotHolder.restoreMark)
  | .dropMark i => some (w.on i SlotHolder.dropMark)
  | .releaseSettled i => some (w.on i SlotHolder.settle)
  | .fork i length => some (w.fork i length)
  | .restoreHost length => w.restoreHost length
  | .move i j => some (w.move i j)
  | .destroy i => some (w.on i SlotHolder.destroy)
  | .beginPass k entries => w.beginPass k entries
  | .commit k => some (w.commit k)
  | .endPass k => some (w.endPass k)
  | .fail k byLength => some (w.rollBack k byLength)
  | .abort k byLength => some (w.abort k byLength)

end SlotWorld

end Llmx
