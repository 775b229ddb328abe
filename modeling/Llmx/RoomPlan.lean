import Mathlib.Data.List.Sort
import Mathlib.Data.Prod.Lex

namespace Llmx

/-- A running request as `makeRoom` sees it: its first admission, whether it may be paused, the
blocks its history would keep as a donor, per pool, and whether a pass in flight holds it. -/
structure Holder where
  admission : Nat
  uncapped : Bool
  kept : List Nat
  flying : Bool
deriving DecidableEq, Repr

/-- The victims of a plan, in the order it takes them: donors by index, then running requests to
pause by index, each with whether the donor its history becomes goes too. -/
structure Victims where
  donors : List Nat
  paused : List (Nat × Bool)
deriving DecidableEq, Repr

structure Taken extends Victims where
  enough : Bool
  wait : Bool
deriving DecidableEq, Repr

/-- What dropping the victims of a plan together frees, per pool. -/
abbrev Gain := Victims → List Nat

def Victims.empty (v : Victims) : Bool := v.donors.isEmpty && v.paused.isEmpty

/-- Nothing is freed by an empty plan, of which the gain is not asked. -/
def gained (need : List Nat) (gain : Gain) (v : Victims) : List Nat :=
  if v.empty then List.replicate need.length 0 else gain v

def fits (free need : List Nat) (gain : Gain) (v : Victims) : Bool :=
  let g := gained need gain v
  (List.range need.length).all fun s => need.getD s 0 ≤ free.getD s 0 + g.getD s 0

/-- Two answers of the gain, a pool past the end of one freeing nothing. -/
def sameGain (a b : List Nat) : Bool :=
  (List.range (max a.length b.length)).all fun s => a.getD s 0 == b.getD s 0

section

variable (free need : List Nat) (gain : Gain)

/-- The plan with other victims, asked anew whether it is enough. -/
def Taken.ask (t : Taken) (v : Victims) : Taken :=
  { t with toVictims := v, enough := fits free need gain v }

/-- Donors go one by one until the plan is enough. -/
def takeDonors : List Nat → Taken → Taken
  | [], t => t
  | d :: victims, t =>
    if t.enough then t
    else takeDonors victims (t.ask free need gain { t.toVictims with donors := t.donors ++ [d] })

/-- Running requests are paused one by one until the plan is enough, each giving its headroom
and, if still short, its donor. -/
def pauseLater (active : List Holder) : List Nat → Taken → Taken
  | [], t => t
  | i :: later, t =>
    if t.enough then t
    else
      let h := active.getD i ⟨0, false, [], false⟩
      let t1 := { t with wait := t.wait || h.flying }
      let t1 := t1.ask free need gain { t.toVictims with paused := t.paused ++ [(i, false)] }
      if t1.enough || h.kept.all (· == 0) then pauseLater active later t1
      else
        pauseLater active later
          (t1.ask free need gain { t.toVictims with paused := t.paused ++ [(i, true)] })

/-- From the last donor down, one that frees nothing beside the other victims goes back. -/
def giveBackDonors : Nat → Taken → Taken
  | 0, t => t
  | i + 1, t =>
    let without := { t.toVictims with donors := t.donors.eraseIdx i }
    if sameGain (gained need gain without) (gained need gain t.toVictims) then
      giveBackDonors i { t with toVictims := without }
    else giveBackDonors i t

end

/-- The donors in the order they go: the forked one last or, with `keepFirst`, first. -/
def donorOrder (order : List Nat) (keep : Nat) (keepFirst : Bool) : List Nat :=
  let kept := keep ∈ order
  (if kept ∧ keepFirst then [keep] else []) ++ order.filter (· ≠ keep) ++
    (if kept ∧ !keepFirst then [keep] else [])

/-- The uncapped requests admitted after `after`. -/
def pausable (active : List Holder) (after : Nat) : List Nat :=
  (List.range active.length).filter fun i =>
    let h := active.getD i ⟨0, false, [], false⟩
    h.uncapped && after < h.admission

/-- An order a sort by admission, latest first, may leave them in. -/
def LatestFirst (active : List Holder) (after : Nat) (later : List Nat) : Prop :=
  later.Perm (pausable active after) ∧
    later.Pairwise (fun a b => (active.getD b ⟨0, false, [], false⟩).admission ≤
      (active.getD a ⟨0, false, [], false⟩).admission)

def latestFirst (active : List Holder) (after : Nat) : List Nat :=
  (pausable active after).insertionSort (fun a b =>
    (active.getD b ⟨0, false, [], false⟩).admission ≤
      (active.getD a ⟨0, false, [], false⟩).admission)

/-- Who gives up blocks for `need` beside `free`: donors in `order`, then, with `preempt`, the
requests of `later`; nothing is taken unless the whole is enough. -/
def makeRoomBy (later : List Nat) (free order : List Nat) (keep : Nat) (keepFirst : Bool)
    (active : List Holder) (preempt : Bool) (need : List Nat) (gain : Gain) : Taken :=
  let t : Taken := ⟨⟨[], []⟩, fits free need gain ⟨[], []⟩, false⟩
  let t := takeDonors free need gain (donorOrder order keep keepFirst) t
  let t := if preempt && !t.enough then pauseLater free need gain active later t else t
  if t.enough then giveBackDonors need gain t.donors.length t else ⟨⟨[], []⟩, false, false⟩

def makeRoom (free order : List Nat) (keep : Nat) (keepFirst : Bool) (active : List Holder)
    (after : Nat) (preempt : Bool) (need : List Nat) (gain : Gain) : Taken :=
  makeRoomBy (latestFirst active after) free order keep keepFirst active preempt need gain

theorem latestFirst_spec (active : List Holder) (after : Nat) :
    LatestFirst active after (latestFirst active after) := by
  refine ⟨List.perm_insertionSort _ _, ?_⟩
  have total : Std.Total (fun a b => (active.getD b ⟨0, false, [], false⟩).admission ≤
      (active.getD a ⟨0, false, [], false⟩).admission) := ⟨fun _ _ => Nat.le_total _ _⟩
  have trans : IsTrans Nat (fun a b => (active.getD b ⟨0, false, [], false⟩).admission ≤
      (active.getD a ⟨0, false, [], false⟩).admission) := ⟨fun _ _ _ h h' => h'.trans h⟩
  exact List.pairwise_insertionSort _ _

end Llmx
