import Llmx.BlockPool
import Llmx.Runs

namespace Llmx

/-- Whole blocks of `blockTokens` for `tokens` positions. -/
def blocksFor (tokens blockTokens : Nat) : Nat :=
  tokens / blockTokens + if tokens % blockTokens ≠ 0 then 1 else 0

/-- One sequence's block table and committed length; the `pending` rows of a step in progress
follow it. -/
structure KVSequence where
  bound : Bool
  blockTokens : Nat
  length : Nat
  pending : Nat
  blocks : List Nat
deriving DecidableEq, Repr

/-- The table cut to its first `keep` blocks, the last one released first. -/
def shrinkTo (p : BlockPool) (blocks : List Nat) (keep : Nat) : Option (BlockPool × List Nat) :=
  ((blocks.drop keep).reverse.foldlM BlockPool.release p).map fun p => (p, blocks.take keep)

/-- Up to `k` blocks onto the table, and whether the budget held them. -/
def takeBlocks : Nat → BlockPool → List Nat → Bool × BlockPool × List Nat
  | 0, p, blocks => (true, p, blocks)
  | k + 1, p, blocks =>
    match p.alloc with
    | some (id, p) => takeBlocks k p (blocks ++ [id])
    | none => (false, p, blocks)

/-- Each of the ids shared once more onto the table, and whether every count held it. -/
def retainBlocks : List Nat → BlockPool → List Nat → Bool × BlockPool × List Nat
  | [], p, blocks => (true, p, blocks)
  | id :: ids, p, blocks =>
    match p.retain id with
    | some p => retainBlocks ids p (blocks ++ [id])
    | none => (false, p, blocks)

namespace KVSequence

/-- A sequence bound to no pool, as a move leaves the one it takes from. -/
def blank : KVSequence := ⟨false, 1, 0, 0, []⟩

def commit (s : KVSequence) : KVSequence :=
  { s with length := s.length + s.pending, pending := 0 }

def abort (p : BlockPool) (s : KVSequence) : Option (BlockPool × KVSequence) :=
  (shrinkTo p s.blocks (blocksFor s.length s.blockTokens)).map fun (p, blocks) =>
    (p, { s with blocks := blocks, pending := 0 })

/-- The history rolled back to `length`. -/
def truncate (p : BlockPool) (s : KVSequence) (length : Nat) : Option (BlockPool × KVSequence) :=
  let s := { s with length := if length < s.length then length else s.length, pending := 0 }
  (shrinkTo p s.blocks (blocksFor s.length s.blockTokens)).map fun (p, blocks) =>
    (p, { s with blocks := blocks })

def reset (p : BlockPool) (s : KVSequence) : Option (BlockPool × KVSequence) := truncate p s 0

def releaseAll (p : BlockPool) (s : KVSequence) : Option (BlockPool × KVSequence) :=
  (if s.bound then shrinkTo p s.blocks 0 else some (p, s.blocks)).map fun (p, blocks) =>
    (p, { s with blocks := blocks, length := 0, pending := 0 })

/-- Whether a step of `n` rows would write into a block another sequence shares. -/
def appendShared (p : BlockPool) (s : KVSequence) (n : Nat) : Bool :=
  n ≠ 0 ∧ s.length % s.blockTokens ≠ 0 ∧
    1 < p.refs.getD (s.blocks.getD (s.length / s.blockTokens) 0) 0

/-- Positions `[length, length + n)` made addressable, and whether the step returned rather than
threw. -/
def prepare (p : BlockPool) (s : KVSequence) (n : Nat) : Option (Bool × BlockPool × KVSequence) :=
  if s.bound = false then some (false, p, s)
  else if s.pending ≠ 0 then some (false, p, s)
  else if 18446744073709551615 - s.length < n then some (false, p, s)
  else if appendShared p s n then some (false, p, s)
  else
    match takeBlocks (blocksFor (s.length + n) s.blockTokens - s.blocks.length) p s.blocks with
    | (true, p, blocks) => some (true, p, { s with blocks := blocks, pending := n })
    | (false, p, blocks) =>
      (abort p { s with blocks := blocks }).map fun (p, s) => (false, p, s)

/-- A second history holding the first `length` tokens, whole blocks of them, shared; none where
the fork threw, and then nothing stays retained. -/
def fork (p : BlockPool) (s : KVSequence) (length : Nat) :
    Option (BlockPool × Option KVSequence) :=
  if s.bound = false then some (p, none)
  else if s.pending ≠ 0 then some (p, none)
  else if s.length < length ∨ length % s.blockTokens ≠ 0 then some (p, none)
  else
    match retainBlocks (s.blocks.take (length / s.blockTokens)) p [] with
    | (true, p, blocks) => some (p, some ⟨true, s.blockTokens, length, 0, blocks⟩)
    | (false, p, blocks) =>
      (releaseAll p ⟨true, s.blockTokens, 0, 0, blocks⟩).map fun (p, _) => (p, none)

end KVSequence

/-- A pool and the sequences that share it. -/
structure KVCache where
  pool : BlockPool
  seqs : List KVSequence
deriving DecidableEq, Repr

/-- The calls on a pool and on its sequences, which an index names. -/
inductive KVCall
  | configure (max : Nat)
  | default
  | bind (blockTokens : Nat)
  | prepare (i n : Nat)
  | commit (i : Nat)
  | abort (i : Nat)
  | truncate (i length : Nat)
  | reset (i : Nat)
  | fork (i length : Nat)
  | moveNew (i : Nat)
  | moveTo (i j : Nat)
  | destroy (i : Nat)
deriving DecidableEq, Repr

namespace KVCache

open KVSequence

/-- Sequence `i` changed, with the pool, by `f`. -/
def on (c : KVCache) (i : Nat) (f : KVSequence → Option (BlockPool × KVSequence)) :
    Option KVCache :=
  (c.seqs[i]?).bind fun s => (f s).map fun (p, t) => ⟨p, c.seqs.set i t⟩

/-- A call that throws leaves what the code leaves then; `none` is a call on no sequence, a budget
past the int32 ids, or the end of the process. -/
def step (c : KVCache) : KVCall → Option KVCache
  | .configure max =>
    if 2147483648 < max then none
    else some { c with pool := (c.pool.configure max).getD c.pool }
  | .default => some { c with seqs := c.seqs ++ [blank] }
  | .bind blockTokens =>
    some (if blockTokens = 0 then c
      else { c with seqs := c.seqs ++ [⟨true, blockTokens, 0, 0, []⟩] })
  | .prepare i n => c.on i fun s => (prepare c.pool s n).map fun (_, p, s) => (p, s)
  | .commit i => c.on i fun s => some (c.pool, commit s)
  | .abort i => c.on i fun s => abort c.pool s
  | .truncate i length => c.on i fun s => truncate c.pool s length
  | .reset i => c.on i fun s => reset c.pool s
  | .fork i length =>
    (c.seqs[i]?).bind fun s => (fork c.pool s length).map fun (p, f) => ⟨p, c.seqs ++ f.toList⟩
  | .moveNew i => (c.seqs[i]?).map fun s => { c with seqs := c.seqs.set i blank ++ [s] }
  | .moveTo i j =>
    (c.seqs[i]?).bind fun s => (c.seqs[j]?).bind fun o =>
      if i = j then some c
      else (releaseAll c.pool s).map fun (p, t) => ⟨p, (c.seqs.set i o).set j t⟩
  | .destroy i =>
    (c.seqs[i]?).bind fun s =>
      (releaseAll c.pool s).map fun (p, _) => ⟨p, c.seqs.eraseIdx i⟩

/-- A pool not yet configured, and no sequence. -/
def machine : Runs.Machine KVCache KVCall where
  start c := c = ⟨⟨0, 0, [], []⟩, []⟩
  step := step

/-- The sequences a call names are there, and its budget has int32 ids. -/
def Names (c : KVCache) : KVCall → Prop
  | .configure max => max ≤ 2147483648
  | .default | .bind _ => True
  | .prepare i _ | .commit i | .abort i | .truncate i _ | .reset i | .fork i _ | .moveNew i
  | .destroy i => i < c.seqs.length
  | .moveTo i j => i < c.seqs.length ∧ j < c.seqs.length

end KVCache

end Llmx
