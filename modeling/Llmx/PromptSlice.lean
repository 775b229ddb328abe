import Mathlib.Algebra.Order.Ring.Rat
import Mathlib.Data.List.GetD
import Mathlib.Tactic.Linarith

namespace Llmx

namespace Slicing

def kBandTokens : Nat := 4096

/-- How often `d` is halved until nothing is left. -/
def halvings (d : Nat) : Nat :=
  if d = 0 then 0 else halvings (d / 2) + 1
termination_by d
decreasing_by omega

def depthBand (depth : Nat) : Nat := halvings (depth / kBandTokens)

/-- A stage's time for a slice as a measured line, times being exact. -/
structure StageLine where
  fixedMs : ℚ
  rowMs : ℚ
deriving DecidableEq, Repr, Inhabited

def StageLine.at (l : StageLine) (rows : Nat) : ℚ := l.fixedMs + rows * l.rowMs

def kSliceFloor : Nat := 128

/-- Each stage's finish once a slice has run it, `prev` the finish of the stage before. -/
def pipelineFrom : ℚ → List ℚ → List StageLine → Nat → List ℚ
  | prev, f :: finish, l :: lines, rows =>
    (max prev f + l.at rows) :: pipelineFrom (max prev f + l.at rows) finish lines rows
  | _, finish, _, _ => finish

def pipelineAdd (finish : List ℚ) (lines : List StageLine) (rows first : Nat) : List ℚ :=
  finish.take first ++ pipelineFrom 0 (finish.drop first) (lines.drop first) rows

/-- The slice size of the equal cut of `rows` into `n`. -/
def equal (rows n : Nat) : Nat := (rows + n - 1) / n

/-- The lines of the bands from the first to the last row's, none where a stage lacks one. -/
def ownBands (start rows stages : Nat) (lines : Nat → List StageLine) : List (List StageLine) :=
  (List.range (depthBand (start + rows - 1) - depthBand start + 1)).map fun b =>
    if (lines (depthBand start + b)).length = stages then lines (depthBand start + b) else []

/-- A band without lines takes those of the band below it. -/
def fillBelow : List StageLine → List (List StageLine) → List (List StageLine)
  | _, [] => []
  | below, b :: bands =>
    if b.isEmpty then below :: fillBelow below bands else b :: fillBelow b bands

def filled : List (List StageLine) → List (List StageLine)
  | [] => []
  | b :: bands => b :: fillBelow b bands

/-- The least of some costs, an infinite one before the first. -/
def leastOf : List ℚ → ℚ
  | [] => 0
  | x :: xs => xs.foldl min x

/-- What the search over the equal cuts reads. -/
structure Pricing where
  start : Nat
  rows : Nat
  stages : Nat
  bands : List (List StageLine)
  backlog : List ℚ
  increment : Option ℚ
  floor : Nat

namespace Pricing

def linesAt (p : Pricing) (row : Nat) : List StageLine :=
  p.bands.getD (depthBand (p.start + row) - depthBand p.start) []

def fixed (p : Pricing) (s : Nat) : ℚ :=
  leastOf (p.bands.map fun b => (b.getD s default).fixedMs)

def row (p : Pricing) (s : Nat) : ℚ :=
  leastOf (p.bands.map fun b => (b.getD s default).rowMs)

/-- No cut of `n` slices ends before this. -/
def least (p : Pricing) (n : Nat) : ℚ :=
  (List.range p.stages).foldl
    (fun t s => max t (p.backlog.getD s 0 + n * p.fixed s + p.row s * p.rows)) 0

/-- The stages' finishes once the slices of size `r` from row `i` on have run. -/
def run (p : Pricing) (r i : Nat) (finish : List ℚ) : List ℚ :=
  if i < p.rows ∧ 0 < r then
    p.run r (i + r) (pipelineAdd finish (p.linesAt i) (min r (p.rows - i)) 0)
  else finish
termination_by p.rows - i

/-- When the last stage is done with the cut into slices of size `r`. -/
def finish (p : Pricing) (r : Nat) : ℚ := (p.run r 0 p.backlog).getLastD 0

/-- A first slice of size `r` leaves the last stage later than the bound allows. -/
def exceeds (p : Pricing) (r : Nat) : Bool :=
  match p.increment with
  | none => false
  | some ms =>
    ms < (pipelineAdd p.backlog (p.bands.getD 0 []) r 0).getLastD 0 - p.backlog.getLastD 0

end Pricing

structure Search where
  best : ℚ
  bestR : Nat
  last : Nat

def Search.take (p : Pricing) (s : Search) (r : Nat) : Search :=
  if p.exceeds r then { s with last := r }
  else if s.best < 0 ∨ p.finish r < s.best then ⟨p.finish r, r, r⟩
  else { s with last := r }

/-- The cuts into `n` slices and more, `left` of them, are tried until no further one can be
better. -/
def search (p : Pricing) : Nat → Nat → Search → Search
  | 0, _, s => s
  | left + 1, n, s =>
    if 0 ≤ s.best ∧ s.best ≤ p.least (equal p.rows (equal p.rows n)) then s
    else if p.increment.isSome ∧ equal p.rows n < p.floor then s
    else if equal p.rows n = s.last then search p left (n + 1) s
    else search p left (n + 1) (s.take p (equal p.rows n))

/-- What is read of the prompt's bands once they are priced. -/
def pricing (start rows stages : Nat) (lines : Nat → List StageLine) (cap : Nat)
    (backlog : List ℚ) (increment : Option ℚ) : Pricing where
  start := start
  rows := rows
  stages := stages
  bands := filled (ownBands start rows stages lines)
  backlog := (backlog ++ List.replicate stages 0).take stages
  increment := increment
  floor := min (min rows cap) kSliceFloor

/-- The bands of the first and the middle row have lines of their own. -/
def Priced (start rows stages : Nat) (lines : Nat → List StageLine) : Prop :=
  (lines (depthBand start)).length = stages ∧
    (lines (depthBand (start + rows / 2))).length = stages

instance (start rows stages : Nat) (lines : Nat → List StageLine) :
    Decidable (Priced start rows stages lines) :=
  inferInstanceAs (Decidable (_ ∧ _))

def firstCount (rows cap : Nat) : Nat := (rows + cap - 1) / cap

def searched (p : Pricing) (cap : Nat) : Nat :=
  let s := search p (p.rows + 1 - firstCount p.rows cap) (firstCount p.rows cap) ⟨-1, 0, 0⟩
  if s.best < 0 then p.floor else min p.rows s.bestR

/-- The rows of a prompt's next slice; no increment is an infinite one. -/
def promptSlice (start rows stages : Nat) (lines : Nat → List StageLine) (cap : Nat)
    (backlog : List ℚ) (increment : Option ℚ) : Nat :=
  if rows = 0 then 0
  else if stages < 2 then min rows (max 1 cap)
  else if Priced start rows stages lines then
    searched (pricing start rows stages lines (max 1 cap) backlog increment) (max 1 cap)
  else
    min (min rows (max 1 cap))
      (max (min kSliceFloor (max 1 cap)) (equal rows (2 * stages)))

end Slicing

end Llmx
