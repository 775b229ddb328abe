import Llmx.ToolCallSplit

namespace Llmx

open Tags

/-- A call in the function format as the whole text has it: its function's name and, in order, the
key and the text of each parameter it closes. -/
structure XmlCall where
  name : Bytes
  params : List (Bytes × Bytes)
deriving DecidableEq, Repr

namespace ToolCallSplit

/-- The text after a function's closing tag, without the call's where it follows. -/
def afterFunction (s : Bytes) : Bytes :=
  if toolClose.isPrefixOf (s.dropWhile blank) then (s.dropWhile blank).drop toolClose.length else s

/-- The parameters a text after a call's opening closes in the call, and the text after it. -/
def readParams (s : Bytes) : List (Bytes × Bytes) × Bytes :=
  if paramOpen.isPrefixOf (s.dropWhile blank) then
    match _h : parameter (s.dropWhile blank) with
    | none => ([], [])
    | some (key, v, rest) =>
      let (params, after) := readParams rest
      ((key, chomp v) :: params, after)
  else if fnClose.isPrefixOf (s.dropWhile blank) then
    ([], afterFunction ((s.dropWhile blank).drop fnClose.length))
  else if toolClose.isPrefixOf (s.dropWhile blank) then
    ([], (s.dropWhile blank).drop toolClose.length)
  else
    match _h : s.dropWhile blank with
    | [] => ([], [])
    | _ :: u => readParams (u.dropWhile (· != '<'.toUInt8))
termination_by s.length
decreasing_by
  · have hlt := parameter_lt _h
    have hle := (List.dropWhile_suffix (l := s) blank).length_le
    omega
  · have hle := (List.dropWhile_suffix (l := s) blank).length_le
    have hnext := (List.dropWhile_suffix (l := u) (· != '<'.toUInt8)).length_le
    rw [_h, List.length_cons] at hle
    omega

theorem afterFunction_le (s : Bytes) : (afterFunction s).length ≤ s.length := by
  have hle := (List.dropWhile_suffix (l := s) blank).length_le
  unfold afterFunction
  split
  next =>
    rw [List.length_drop]
    omega
  next => exact Nat.le_refl _

theorem readParams_le (s : Bytes) : (readParams s).2.length ≤ s.length := by
  fun_induction readParams s with
  | case1 => exact Nat.zero_le _
  | case2 s hpre key v rest h params after hrest ih =>
    have hlt := parameter_lt h
    have hle := (List.dropWhile_suffix (l := s) blank).length_le
    rw [hrest] at ih
    dsimp only at ih ⊢
    omega
  | case3 s =>
    have hle := (List.dropWhile_suffix (l := s) blank).length_le
    refine (afterFunction_le _).trans ?_
    rw [List.length_drop]
    omega
  | case4 s =>
    have hle := (List.dropWhile_suffix (l := s) blank).length_le
    dsimp only
    rw [List.length_drop]
    omega
  | case5 => exact Nat.zero_le _
  | case6 s _ _ _ c u h ih =>
    have hle := (List.dropWhile_suffix (l := s) blank).length_le
    have hnext := (List.dropWhile_suffix (l := u) (· != '<'.toUInt8)).length_le
    rw [h, List.length_cons] at hle
    omega

/-- The calls a whole text has, or its first where it may have one only. -/
def readCalls (single : Bool) (s : Bytes) : List XmlCall :=
  match _h : split toolOpen s with
  | none => []
  | some (_, rest) =>
    match _hx : xmlHead rest with
    | .opens (name, inner) =>
      ⟨name, (readParams inner).1⟩ ::
        if single then [] else readCalls single (readParams inner).2
    | .may => readCalls single rest
    | .cannot => readCalls single rest
termination_by s.length
decreasing_by
  · have hlt := split_lt (List.cons_ne_nil _ _) _h
    have hin := xmlHead_lt _hx
    have hle := readParams_le inner
    omega
  · exact split_lt (List.cons_ne_nil _ _) _h
  · exact split_lt (List.cons_ne_nil _ _) _h

/-- The calls of a text after a call's tag. -/
def headCalls (single : Bool) (s : Bytes) : List XmlCall :=
  match xmlHead s with
  | .opens (name, inner) =>
    ⟨name, (readParams inner).1⟩ :: if single then [] else readCalls single (readParams inner).2
  | .may => readCalls single s
  | .cannot => readCalls single s

theorem readCalls_none {single : Bool} {s : Bytes} (h : split toolOpen s = none) :
    readCalls single s = [] := by
  rw [readCalls]
  split
  next => exact Eq.refl _
  next hs =>
    rw [h] at hs
    cases hs

theorem readCalls_some {single : Bool} {s lead rest : Bytes}
    (h : split toolOpen s = some (lead, rest)) : readCalls single s = headCalls single rest := by
  rw [readCalls]
  split
  next hs =>
    rw [h] at hs
    cases hs
  next l r hs =>
    rw [h] at hs
    cases hs
    unfold headCalls
    split
    next name inner hx => simp only [hx]
    next hx => simp only [hx]
    next hx => simp only [hx]

theorem readParams_none {s : Bytes} (hp : paramOpen.isPrefixOf (s.dropWhile blank) = true)
    (h : parameter (s.dropWhile blank) = none) : readParams s = ([], []) := by
  rw [readParams, if_pos hp]
  split
  next => exact Eq.refl _
  next hs =>
    rw [h] at hs
    cases hs

theorem readParams_some {s key v rest : Bytes}
    (hp : paramOpen.isPrefixOf (s.dropWhile blank) = true)
    (h : parameter (s.dropWhile blank) = some (key, v, rest)) :
    readParams s = ((key, chomp v) :: (readParams rest).1, (readParams rest).2) := by
  rw [readParams, if_pos hp]
  split
  next hs =>
    rw [h] at hs
    cases hs
  next k u r hs =>
    rw [h] at hs
    cases hs
    exact Eq.refl _

theorem readParams_nil {s : Bytes} (h : s.dropWhile blank = []) : readParams s = ([], []) := by
  rw [readParams, h, if_neg (by decide), if_neg (by decide), if_neg (by decide)]

/-- The tags a call's text may go on with. -/
def innerTags : List Bytes := [paramOpen, fnClose, toolClose]

def NoTag (s : Bytes) : Prop := ∀ tag ∈ innerTags, ¬ tag <+: s

theorem readParams_pass {s u : Bytes} {c : UInt8} (hno : NoTag (c :: u))
    (h : s.dropWhile blank = c :: u) :
    readParams s = readParams (u.dropWhile (· != '<'.toUInt8)) := by
  have h1 := hno paramOpen (by decide)
  have h2 := hno fnClose (by decide)
  have h3 := hno toolClose (by decide)
  rw [← List.isPrefixOf_iff_prefix] at h1 h2 h3
  rw [readParams, h, if_neg h1, if_neg h2, if_neg h3]

/-- Blanks before the rest of a call change nothing. -/
theorem readParams_congr {s t : Bytes} (h : s.dropWhile blank = t.dropWhile blank) :
    readParams s = readParams t := by
  rw [readParams, readParams, h]

end ToolCallSplit

end Llmx
