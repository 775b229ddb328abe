import Llmx.Worklist
import Mathlib.Data.List.DropRight

namespace Llmx

/-- A file: a segment, the blocks of tokens `first` to `endTok`, or a state at `endTok`. `below` is
the digest of the history under `first`, `ends` the digest at each whole block from there. -/
structure IndexFile (D : Type) where
  key : Nat
  state : Bool
  first : Nat
  endTok : Nat
  below : D
  ends : List D
  used : Int
  back : Bool
  unproved : Nat
deriving DecidableEq, Repr

/-- One file of a path, and how far it is used. -/
structure Piece where
  key : Nat
  first : Nat
  endTok : Nat
  use : Nat
deriving DecidableEq, Repr

/-- What of a history is on disk: the segments of its path, the tokens they cover, how far whole
segments reach and the state the path ends at. -/
structure DiskPath where
  pieces : List Piece
  length : Nat
  whole : Nat
  state : Option Nat
deriving DecidableEq, Repr

def segmentTokens : Nat := 1024

section

variable {D : Type} [DecidableEq D]

/-- How many of a segment's digests from block `start` on are the history's. -/
def sharedEnds (d : List D) (blocks : Nat) : Nat → List D → Nat
  | _, [] => 0
  | start, e :: es =>
    if start < blocks ∧ d[start + 1]? = some e then sharedEnds d blocks (start + 1) es + 1 else 0

/-- Whether the file is a segment that may continue the history at block `start`. -/
def continues (d : List D) (block : Nat) (unproved : Bool) (start : Nat) (f : IndexFile D) : Bool :=
  d[start]? = some f.below ∧ f.state = false ∧ f.first = start * block ∧
    (f.unproved = 0 ∨ unproved = true)

/-- The file of the most shared blocks, the first of them, and a proved one before another. -/
def better (d : List D) (blocks start : Nat) (best : Option (IndexFile D) × Nat)
    (f : IndexFile D) : Option (IndexFile D) × Nat :=
  let k := sharedEnds d blocks start f.ends
  if best.2 < k ∨ (k ≠ 0 ∧ k = best.2 ∧ (best.1.any fun g => g.unproved ≠ 0) ∧ f.unproved = 0) then
    (some f, k)
  else best

def bestFrom (files : List (IndexFile D)) (d : List D) (block blocks : Nat) (unproved : Bool)
    (start : Nat) : Option (IndexFile D) × Nat :=
  (files.filter (continues d block unproved start)).foldl (better d blocks start) (none, 0)

/-- The path from block `start` on, whole segments up to there. -/
def walk (files : List (IndexFile D)) (d : List D) (block blocks : Nat) (unproved : Bool) :
    Nat → Nat → DiskPath
  | 0, start => ⟨[], start * block, start * block, none⟩
  | fuel + 1, start =>
    if start < blocks then
      match bestFrom files d block blocks unproved start with
      | (none, _) => ⟨[], start * block, start * block, none⟩
      | (some best, shared) =>
        let piece : Piece := ⟨best.key, best.first, best.endTok, (start + shared) * block⟩
        if shared < best.ends.length then
          ⟨[piece], (start + shared) * block, start * block, none⟩
        else
          let p := walk files d block blocks unproved fuel (start + shared)
          { p with pieces := piece :: p.pieces }
    else ⟨[], start * block, start * block, none⟩

/-- The last state at block `start`, a proved one before another. -/
def stateAt (files : List (IndexFile D)) (d : List D) (block : Nat) (unproved : Bool)
    (start : Nat) : Option Nat :=
  files.foldl (fun key f =>
    if d[start]? = some f.below ∧ f.state = true ∧ f.endTok = start * block ∧
        (unproved = true ∨ f.unproved = 0) ∧ (key = none ∨ f.unproved = 0) then
      some f.key
    else key) none

/-- The highest state at or below block `start`: where it is, and its key. -/
def highestState (files : List (IndexFile D)) (d : List D) (block : Nat) (unproved : Bool) :
    Nat → Option (Nat × Nat)
  | 0 => (stateAt files d block unproved 0).map fun key => (0, key)
  | start + 1 =>
    match stateAt files d block unproved (start + 1) with
    | some key => some ((start + 1) * block, key)
    | none => highestState files d block unproved start

/-- The last piece used up to `length` at most. -/
def cutLast (length : Nat) : List Piece → List Piece
  | [] => []
  | [p] => [{ p with use := min p.use length }]
  | p :: ps => p :: cutLast length ps

/-- A path that ends at the highest state on it. -/
def endAtState (p : DiskPath) (state : Option (Nat × Nat)) : DiskPath :=
  let length := (state.map Prod.fst).getD 0
  ⟨cutLast length (p.pieces.rdropWhile fun piece => length ≤ piece.first), length,
    min p.whole length, state.map Prod.snd⟩

/-- The whole blocks of a history of `n` tokens that its digests name. -/
def wholeBlocks (d : List D) (block n : Nat) : Nat := min (n / block) (d.length - 1)

/-- The path of the history whose digests are `d`, up to `n` tokens. -/
def path (files : List (IndexFile D)) (d : List D) (block n : Nat) (state unproved : Bool) :
    DiskPath :=
  let blocks := wholeBlocks d block n
  let p := walk files d block blocks unproved blocks 0
  if state then endAtState p (highestState files d block unproved (p.length / block)) else p

/-- The ranges from `start` to `stop`, cut at every multiple of the segment's tokens. -/
def cutRanges : Nat → Nat → Nat → List (Nat × Nat)
  | 0, _, _ => []
  | fuel + 1, start, stop =>
    if start < stop then
      let mid := min stop ((start / segmentTokens + 1) * segmentTokens)
      (start, mid) :: cutRanges fuel mid stop
    else []

/-- The token ranges of a history that are not on disk yet, each one segment to write. -/
def missing (files : List (IndexFile D)) (d : List D) (block n : Nat) : List (Nat × Nat) :=
  let stop := wholeBlocks d block n * block
  let p := path files d block n false false
  cutRanges stop (if stop ≤ p.length then stop else p.whole) stop

/-- The files but the first of a key, and whether there was one. -/
def remove (files : List (IndexFile D)) (key : Nat) : Bool × List (IndexFile D) :=
  (files.any (·.key = key), files.eraseP (·.key = key))

/-- The files at each digest, as indices. -/
def startsAt (files : List (IndexFile D)) (e : D) : List Nat :=
  (List.range files.length).filter fun i => files[i]?.map (·.below) = some e

def endsAt (files : List (IndexFile D)) (i : Nat) : List D := (files[i]?.map (·.ends)).getD []

/-- The files no path from the root reaches; the states among them with `states`. -/
def unreachable (root : D) (files : List (IndexFile D)) (states : Bool) : List Nat :=
  let fuel := 1 + (files.map fun f => f.ends.length).sum
  let reached := Worklist.mark (startsAt files) (endsAt files) fuel [root] []
  (List.range files.length).filterMap fun i =>
    match files[i]? with
    | some f => if i ∉ reached ∧ (states = true ∨ f.state = false) then some f.key else none
    | none => none

end

end Llmx
