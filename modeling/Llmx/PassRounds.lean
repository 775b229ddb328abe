import Llmx.Runs
import Mathlib.Data.List.Sort

namespace Llmx

open Runs

/-- A pass slot as the round sees it: whether a pass is in flight in it, the pass's place in
formation order, the stages recorded, and whether a thread is recording its next stage. -/
structure Flight where
  live : Bool
  formed : Nat
  ran : Nat
  recording : Bool
deriving DecidableEq, Repr

def Flight.empty : Flight := ⟨false, 0, 0, false⟩

/-- What a round records, in order, and the slots it retires, oldest first. -/
structure Steps where
  advance : List (Nat × Nat)
  retire : List Nat
deriving DecidableEq, Repr

def slotAt (slots : List Flight) (k : Nat) : Flight := slots.getD k Flight.empty

/-- One slot of a stage's scan: the oldest waiting pass so far, and whether one is being recorded. -/
def pickSlot (slots : List Flight) (s : Nat) (acc : Option Nat × Bool) (k : Nat) :
    Option Nat × Bool :=
  let f := slotAt slots k
  if f.live = false ∨ f.ran ≠ s then acc
  else if f.recording then (acc.1, true)
  else
    match acc.1 with
    | none => (some k, acc.2)
    | some pick => if f.formed < (slotAt slots pick).formed then (some k, acc.2) else acc

def pickStage (slots : List Flight) (s : Nat) : Option Nat × Bool :=
  (List.range slots.length).foldl (pickSlot slots s) (none, false)

def stageAdvance (slots : List Flight) (s : Nat) : Option (Nat × Nat) :=
  match pickStage slots s with
  | (some k, false) => some (k, s)
  | _ => none

/-- From the last stage down to the first, each stage records the oldest pass waiting for it;
every pass whose last stage was recorded retires, oldest first. -/
def roundSteps (slots : List Flight) (stages : Nat) : Steps where
  advance := (List.range stages).reverse.filterMap (stageAdvance slots)
  retire :=
    ((List.range slots.length).filter
      (fun k => (slotAt slots k).live && (slotAt slots k).ran == stages)).insertionSort
      (fun a b => (slotAt slots a).formed ≤ (slotAt slots b).formed)

/-- The scheduler between two of its steps: its slots, the passes formed, that count as the round
began, what is left of the round's steps, the stages it put off until the devices' are on their
way, and, in what order, each (stage, pass) recorded and each pass retired, newest first. -/
structure Rounds where
  slots : List Flight
  formed : Nat
  formedBefore : Nat
  todo : List (Nat × Nat)
  retiring : List Nat
  host : List (Nat × Nat)
  recorded : List (Nat × Nat)
  retired : List Nat
deriving DecidableEq, Repr

/-- How a stage handed to a pass ends: recorded there and then, begun on the stage's thread,
or failed. -/
inductive Outcome
  | completes
  | begins
  | fails
deriving DecidableEq, Repr

inductive RoundEvent
  | collect (k : Nat) (ok : Bool)
  | abort (k : Nat)
  | round
  | putOff
  | advance (out : Outcome)
  | advanceHost (out : Outcome)
  | retire (ok : Bool)
  | form (k : Nat)
deriving DecidableEq, Repr

/-- The slot is free again. -/
def Flight.vacate (f : Flight) : Flight := { f with live := false, recording := false }

/-- A recording that ended well: one stage on. -/
def Flight.recorded (f : Flight) : Flight := { f with recording := false, ran := f.ran + 1 }

def Rounds.vacate (st : Rounds) (k : Nat) : Rounds :=
  { st with slots := st.slots.set k (slotAt st.slots k).vacate }

/-- Whether a pass is being recorded at stage `s`. -/
def recordingAt (slots : List Flight) (s : Nat) : Bool :=
  slots.any (fun f => f.live && f.recording && f.ran == s)

/-- Whether a pass waits for the first stage or is being recorded there. -/
def firstStageHeld (slots : List Flight) : Bool :=
  slots.any (fun f => f.live && f.ran == 0)

/-- Stage `s` of the pass in slot `k`: left for a later round while the stage is recording. -/
def Rounds.advance (st : Rounds) (k s : Nat) (out : Outcome) : Rounds :=
  let f := slotAt st.slots k
  if recordingAt st.slots s then st
  else
    let st := { st with recorded := (s, f.formed) :: st.recorded }
    match out with
    | .completes => { st with slots := st.slots.set k { f with ran := f.ran + 1 } }
    | .begins => { st with slots := st.slots.set k { f with recording := true } }
    | .fails => st.vacate k

def Rounds.step (stages : Nat) (st : Rounds) : RoundEvent → Option Rounds
  | .collect k ok =>
    let f := slotAt st.slots k
    if f.live && f.recording then
      if ok then
        some { st with slots := st.slots.set k f.recorded }
      else some (st.vacate k)
    else none
  | .abort k => if (slotAt st.slots k).live then some (st.vacate k) else none
  | .round =>
    if st.todo = [] ∧ st.retiring = [] ∧ st.host = [] then
      let steps := roundSteps st.slots stages
      some { st with todo := steps.advance, retiring := steps.retire, formedBefore := st.formed }
    else none
  | .putOff =>
    match st.todo with
    | [] => none
    | a :: todo => some { st with todo := todo, host := st.host ++ [a] }
  | .advance out =>
    match st.todo with
    | [] => none
    | (k, s) :: todo =>
      let st := { st with todo := todo }
      -- A failure may have vacated what this round's steps still name.
      if (slotAt st.slots k).live = false ∨ (slotAt st.slots k).ran ≠ s then some st
      else some (st.advance k s out)
  | .advanceHost out =>
    match st.todo, st.retiring, st.host with
    | [], [], (k, s) :: host =>
      let st := { st with host := host }
      let f := slotAt st.slots k
      -- A new pass may have taken an emptied slot, which a later stage put off is not for.
      if f.live && f.ran == s && (s == 0 || f.formed ≤ st.formedBefore) then
        some (st.advance k s out)
      else some st
    | _, _, _ => none
  | .retire ok =>
    match st.todo, st.retiring with
    | [], k :: retiring =>
      let st := { st with retiring := retiring }
      let f := slotAt st.slots k
      if f.live then
        some { st.vacate k with retired := if ok then f.formed :: st.retired else st.retired }
      else some st
    | _, _ => none
  | .form k =>
    if st.todo = [] ∧ st.retiring = [] ∧ k < st.slots.length ∧ (slotAt st.slots k).live = false ∧
        firstStageHeld st.slots = false then
      some { st with slots := st.slots.set k ⟨true, st.formed + 1, 0, false⟩,
                     formed := st.formed + 1, todo := [(k, 0)] }
    else none

def roundMachine (stages slots : Nat) : Machine Rounds RoundEvent where
  start st := st = ⟨List.replicate slots Flight.empty, 0, 0, [], [], [], [], []⟩
  step := Rounds.step stages

end Llmx
