import Llmx.SortedMap
import Mathlib.Algebra.Order.Ring.Rat
import Mathlib.Data.Prod.Lex

namespace Llmx

/-- What a measured cost keeps of its old value at a new measure. -/
def kCostKeep : ℚ := 3 / 4

def forget (old now : ℚ) : ℚ :=
  if 0 < old then kCostKeep * old + (1 - kCostKeep) * now else now

def kPieceStep : Nat := 16

/-- The decode passes of a band that a decode cell stays fresh for. -/
def kPriceHorizon : Nat := 100

/-- One slice of a pass, by its row class, depth band and rows. -/
structure PassWork.Chunk where
  cls : Nat
  band : Nat
  rows : Nat
deriving DecidableEq, Repr

structure PassWork where
  decodeRows : Nat
  decodeBand : Nat
  chunks : List PassWork.Chunk
deriving DecidableEq, Repr

/-- A cell's forgetting mean, its last measure, and its band's passes at that measure. -/
structure PriceTable.Cell where
  ms : ℚ
  lastMs : ℚ
  samples : Nat
  passes : Nat
deriving DecidableEq, Repr, Inhabited

/-- A stage's measured prices, times being exact: decode rows by band and rows, a slice by its
class, band and rows in steps. -/
structure PriceTable where
  decode : SortedMap (Nat ×ₗ Nat) PriceTable.Cell
  decodePasses : SortedMap Nat Nat
  chunks : SortedMap (Nat ×ₗ Nat ×ₗ Nat) PriceTable.Cell

namespace PriceTable

def empty : PriceTable := ⟨SortedMap.empty, SortedMap.empty, SortedMap.empty⟩

def stepOf (rows : Nat) : Nat := (rows + kPieceStep - 1) / kPieceStep * kPieceStep

def fresh (newest passes : Nat) : Bool := newest - passes < kPriceHorizon

/-- A cell after its next measure; one of decode rows alone starts its mean at the second. -/
def measured (c : Cell) (ms : ℚ) (aged rowsAlone : Bool) : Cell where
  ms := if aged then ms else if c.samples ≠ 0 ∨ rowsAlone = false then forget c.ms ms else c.ms
  lastMs := ms
  samples := c.samples + 1
  passes := c.passes

/-- A band's decode cells in the order of their rows. -/
def decodeCells (t : PriceTable) (band : Nat) : List (Nat × Cell) :=
  t.decode.entries.filterMap fun e =>
    if (ofLex e.1).1 = band then some ((ofLex e.1).2, e.2) else none

/-- The nearest priced cell above, else below. -/
def nearest (cells : List (Nat × Cell)) (rows : Nat) : Option ℚ :=
  match (cells.filter fun e => rows ≤ e.1).find? fun e => 0 < e.2.ms with
  | some e => some e.2.ms
  | none =>
    ((cells.filter fun e => e.1 < rows).reverse.find? fun e => 0 < e.2.ms).map fun e => e.2.ms

/-- Decode rows' price in the nearest of the lowest `bands` bands, from the top down. -/
def decodeMsBelow (t : PriceTable) (rows : Nat) : Nat → ℚ
  | 0 => 0
  | band + 1 =>
    match nearest (t.decodeCells band) rows with
    | some ms => ms
    | none => t.decodeMsBelow rows band

def decodeMs (t : PriceTable) (band rows : Nat) : ℚ := t.decodeMsBelow rows (band + 1)

def chunkKey (c : PassWork.Chunk) : Nat ×ₗ Nat ×ₗ Nat := toLex (c.cls, toLex (c.band, stepOf c.rows))

def observeDecode (t : PriceTable) (band rows : Nat) (ms : ℚ) : PriceTable :=
  let n := (t.decodePasses.find? band).getD 0
  let c := (t.decode.find? (toLex (band, rows))).getD default
  let aged := c.samples ≠ 0 ∧ fresh n c.passes = false
  { t with
    decodePasses := t.decodePasses.set band (n + 1)
    decode := t.decode.set (toLex (band, rows))
      (measured { c with passes := n + 1 } ms aged true) }

def observeChunk (t : PriceTable) (c : PassWork.Chunk) (ms : ℚ) : PriceTable :=
  { t with
    chunks := t.chunks.set (chunkKey c)
      (measured ((t.chunks.find? (chunkKey c)).getD default) ms false false) }

/-- A measured stage time; none where it prices nothing. -/
def observe (t : PriceTable) (w : PassWork) (ms : ℚ) : Option PriceTable :=
  if ms < 0 then none
  else
    match w.chunks with
    | [] =>
      if w.decodeRows = 0 then none
      else some (t.observeDecode w.decodeBand w.decodeRows ms)
    | [c] =>
      if w.decodeRows = 0 then some (t.observeChunk c ms)
      else
        let d := t.decodeMs w.decodeBand w.decodeRows
        if 0 < d ∧ d < ms then some (t.observeChunk c (ms - d)) else none
    | _ => none

/-- A class's measured slices in a band, each its rows and its last measure, in the order of their
rows. -/
def slices (t : PriceTable) (cls band : Nat) : List (Nat × ℚ) :=
  t.chunks.entries.filterMap fun e =>
    if (ofLex e.1).1 = cls ∧ (ofLex (ofLex e.1).2).1 = band then
      some ((ofLex (ofLex e.1).2).2, e.2.lastMs)
    else none

/-- The smallest measured slice over a target and the largest within it below that, 0 for none. -/
structure Bracket where
  lo : Nat
  hi : Nat
  hiMs : ℚ
  any : Bool
deriving DecidableEq, Repr

def Bracket.high (target : ℚ) (b : Bracket) (e : Nat × ℚ) : Bracket :=
  if target < e.2 ∧ b.hi = 0 then { b with hi := e.1, hiMs := e.2, any := true }
  else { b with any := true }

def Bracket.low (target : ℚ) (b : Bracket) (e : Nat × ℚ) : Bracket :=
  if e.2 ≤ target ∧ (b.hi = 0 ∨ e.1 < b.hi) then { b with lo := e.1 } else b

def bracketOf (target : ℚ) (slices : List (Nat × ℚ)) : Bracket :=
  slices.foldl (Bracket.low target) (slices.foldl (Bracket.high target) ⟨0, 0, 0, false⟩)

def bracket (t : PriceTable) (cls band : Nat) (target : ℚ) : Bracket :=
  bracketOf target (t.slices cls band)

/-- What the search reads next of a class measured in the band. `toSize` makes a size of a time
quotient; where it is out of a size's range it may be any. -/
def Bracket.rows (toSize : ℚ → Nat) (b : Bracket) (target : ℚ) : Nat :=
  if b.lo = 0 then
    min (b.hi / 2) (toSize (b.hi * target / b.hiMs)) / kPieceStep * kPieceStep
  else if b.hi = 0 then 2 * b.lo
  else if kPieceStep < b.hi - b.lo then (b.lo + b.hi) / 2 / kPieceStep * kPieceStep
  else b.lo

/-- Where the search of a class not measured in a band starts: at the nearest of the `bands` below
it that is measured. -/
def startRows (t : PriceTable) (cls : Nat) (target : ℚ) : Nat → Nat
  | 0 => kPieceStep
  | band + 1 =>
    if (t.bracket cls band target).any then max kPieceStep (t.bracket cls band target).lo
    else t.startRows cls target band

def chunkRows (toSize : ℚ → Nat) (t : PriceTable) (cls band : Nat) (target : ℚ) (most : Nat) :
    Nat :=
  let b := t.bracket cls band target
  min most (max kPieceStep (if b.any then b.rows toSize target else t.startRows cls target band))

end PriceTable

end Llmx
