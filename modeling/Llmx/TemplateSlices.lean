import Llmx.Fallible
import Llmx.TemplateInts

/-!
Slices and ranges of a chat template.
-/

namespace Llmx

namespace TemplateInts

def raised {β : Type} (message : String) : Except Fault β := .error (.raised message)

structure SliceRange where
  start : Int
  step : Int
  count : Int
deriving DecidableEq, Repr

/-- A slice's bound in a sequence of `n` items, none for one that is absent. -/
def clampBound (n st : Int) (bound : Option Int) (missing : Int) : Except Fault Int :=
  match bound with
  | none => .ok missing
  | some x =>
    if x < 0 then
      (signed (-n)).bind fun low =>
        (if x < low then .ok (-1) else signed (x + n)).map fun x =>
          if x < 0 then (if st < 0 then -1 else 0) else x
    else if n ≤ x then (if st < 0 then signed (n - 1) else .ok n)
    else .ok x

/-- The items from `a` on before `b`, `st` apart: their distance less one, over the step, and one. -/
def countBetween (low high st : Int) : Except Fault Int :=
  (signed (high - low)).bind fun d => (signed (d - 1)).bind fun d =>
    (quotient d st).bind fun q => signed (q + 1)

def sliceRange (n : Int) (start stop step : Option Int) : Except Fault SliceRange :=
  let st := step.getD 1
  if st = 0 then raised "slice step cannot be zero"
  else if st = kIntMin then raised "an integer past 64 bits is not supported"
  else
    (if st < 0 then signed (n - 1) else .ok 0).bind fun first =>
      (clampBound n st start first).bind fun a =>
        (clampBound n st stop (if st < 0 then -1 else n)).bind fun b =>
          (if 0 < st ∧ a < b then countBetween a b st
            else if st < 0 ∧ b < a then (signed (-st)).bind fun back => countBetween b a back
            else .ok 0).map fun count => ⟨a, st, count⟩

def itemAt {α : Type} (items : List α) (x : Int) : Except Fault α :=
  if x < 0 then .error .outOfRange
  else
    match items[x.toNat]? with
    | none => .error .outOfRange
    | some v => .ok v

/-- `count` items from `x` on, the place advanced past each. -/
def sliceItems {α : Type} (items : List α) (step : Int) : Nat → Int → Except Fault (List α)
  | 0, _ => .ok []
  | count + 1, x =>
    (itemAt items x).bind fun v => (signed (x + step)).bind fun next =>
      (sliceItems items step count next).map fun vs => v :: vs

/-- The slice of a sequence; of a string, that of its characters. -/
def slice {α : Type} (items : List α) (start stop step : Option Int) : Except Fault (List α) :=
  (sliceRange items.length start stop step).bind fun r =>
    sliceItems items r.step r.count.toNat r.start

/-- A signed number taken as an unsigned one. -/
def unsigned (x : Int) : Nat := (x % 2 ^ 64).toNat

def kMaxRange : Nat := 100000

def rangeCount (start stop step : Int) : Nat :=
  if 0 < step ∧ start < stop then
    (unsigned (unsigned stop - unsigned start - 1) / unsigned step + 1) % 2 ^ 64
  else if step < 0 ∧ stop < start then
    (unsigned (unsigned start - unsigned stop - 1) / unsigned (0 - unsigned step) + 1) % 2 ^ 64
  else 0

def rangeItem (start step : Int) (k : Nat) : Except Fault Int :=
  (signed (k * step)).bind fun d => signed (start + d)

def range (start stop step : Int) : Except Fault (List Int) :=
  if step = 0 then raised "range() arg 3 must not be zero"
  else if kMaxRange < rangeCount start stop step then
    raised "Range too big. The sandbox blocks ranges larger than MAX_RANGE (100000)."
  else (List.range (rangeCount start stop step)).mapM (rangeItem start step)

/-- The steps from `a` that stay before `b`, and the numbers they reach. -/
def stepsBefore (a b st : Int) : Nat :=
  if 0 < st then ((b - a + st - 1) / st).toNat
  else if st < 0 then ((a - b + -st - 1) / -st).toNat
  else 0

def progression (a b st : Int) : List Int :=
  (List.range (stepsBefore a b st)).map fun k : Nat => a + k * st

/-- Python's bound of a slice: counted from the end where negative, no further than the ends. -/
def pythonBound (n st : Int) (bound : Option Int) (missing : Int) : Int :=
  match bound with
  | none => missing
  | some x =>
    let x := if x < 0 then x + n else x
    if st < 0 then max (-1) (min x (n - 1)) else max 0 (min x n)

/-- The places Python's slice of `n` items takes, in order. -/
def pythonSlice (n : Int) (start stop step : Option Int) : List Int :=
  let st := step.getD 1
  progression (pythonBound n st start (if st < 0 then n - 1 else 0))
    (pythonBound n st stop (if st < 0 then -1 else n)) st

theorem lt_ceil_iff {d st : Int} (hst : 0 < st) (k : Nat) :
    k < ((d + st - 1) / st).toNat ↔ k * st < d := by
  have hle := Int.le_ediv_iff_mul_le (a := (k : Int) + 1) (b := d + st - 1) hst
  rw [Int.add_mul, Int.one_mul] at hle
  have hcast : k < ((d + st - 1) / st).toNat ↔ (k : Int) + 1 ≤ (d + st - 1) / st := by omega
  rw [hcast, hle]
  omega

/-- The steps are those that stay on this side of `b`. -/
theorem lt_stepsBefore {a b st : Int} (k : Nat) :
    k < stepsBefore a b st ↔ 0 < st ∧ a + k * st < b ∨ st < 0 ∧ b < a + k * st := by
  unfold stepsBefore
  split
  next hpos =>
    rw [lt_ceil_iff hpos]
    omega
  next hpos =>
    split
    next hneg =>
      rw [lt_ceil_iff (show 0 < -st by omega), Int.mul_neg]
      omega
    next hneg => omega

theorem mem_progression {a b st x : Int} :
    x ∈ progression a b st ↔
      ∃ k : Nat, x = a + k * st ∧ (0 < st ∧ x < b ∨ st < 0 ∧ b < x) := by
  unfold progression
  rw [List.mem_map]
  constructor
  · intro h
    obtain ⟨k, hk, rfl⟩ := h
    exact ⟨k, Eq.refl _, (lt_stepsBefore k).mp (List.mem_range.mp hk)⟩
  · intro h
    obtain ⟨k, rfl, hk⟩ := h
    exact ⟨k, List.mem_range.mpr ((lt_stepsBefore k).mpr hk), Eq.refl _⟩

theorem clampBound_spec {n st missing : Int} {bound : Option Int} (hn : 0 ≤ n) (hfit : n ≤ kIntMax)
    (hb : ∀ x, bound = some x → Fits x) :
    clampBound n st bound missing = .ok (pythonBound n st bound missing) := by
  unfold kIntMax at hfit
  unfold clampBound pythonBound
  cases bound with
  | none => exact Eq.refl _
  | some x =>
    have hx := hb x (Eq.refl _)
    unfold Fits kIntMin kIntMax at hx
    dsimp only
    by_cases hneg : x < 0
    · rw [if_pos hneg, if_pos hneg, signed_ok (by unfold Fits kIntMin kIntMax; omega)]
      show Except.map _ (if x < -n then .ok (-1) else signed (x + n)) = _
      by_cases hlow : x < -n
      · rw [if_pos hlow]
        show Except.ok (if (-1 : Int) < 0 then (if st < 0 then -1 else 0) else -1) = _
        rw [if_pos (by omega)]
        apply congrArg Except.ok
        split
        next => omega
        next => omega
      · rw [if_neg hlow, signed_ok (by unfold Fits kIntMin kIntMax; omega)]
        show Except.ok (if x + n < 0 then (if st < 0 then -1 else 0) else x + n) = _
        rw [if_neg (by omega)]
        apply congrArg Except.ok
        split
        next => omega
        next => omega
    · rw [if_neg hneg, if_neg hneg]
      by_cases hhigh : n ≤ x
      · rw [if_pos hhigh]
        by_cases hst : st < 0
        · rw [if_pos hst, if_pos hst, signed_ok (by unfold Fits kIntMin kIntMax; omega)]
          apply congrArg Except.ok
          omega
        · rw [if_neg hst, if_neg hst]
          apply congrArg Except.ok
          omega
      · rw [if_neg hhigh]
        apply congrArg Except.ok
        split
        next => omega
        next => omega

theorem pythonBound_range {n st missing : Int} {bound : Option Int} (hn : 0 ≤ n)
    (hmissing : if st < 0 then -1 ≤ missing ∧ missing ≤ n - 1 else 0 ≤ missing ∧ missing ≤ n) :
    if st < 0 then -1 ≤ pythonBound n st bound missing ∧ pythonBound n st bound missing ≤ n - 1
    else 0 ≤ pythonBound n st bound missing ∧ pythonBound n st bound missing ≤ n := by
  unfold pythonBound
  cases bound with
  | none => exact hmissing
  | some x =>
    dsimp only
    split
    next hst => omega
    next hst => omega

theorem countBetween_spec {low high st : Int} (hlt : low < high) (hst : 0 < st)
    (hroom : high - low ≤ kIntMax) :
    countBetween low high st = .ok ((high - low + st - 1) / st).toNat := by
  have hsplit : high - low + st - 1 = high - low - 1 + st := by omega
  have hnonneg : 0 ≤ (high - low - 1) / st := Int.ediv_nonneg (by omega) (by omega)
  have hle : (high - low - 1) / st ≤ high - low - 1 := Int.ediv_le_self _ (by omega)
  have hmin : kIntMin = -2 ^ 63 := Eq.refl _
  unfold countBetween
  rw [signed_ok (by unfold Fits; omega)]
  show ((signed (high - low - 1)).bind fun d => (quotient d st).bind fun q => signed (q + 1)) = _
  rw [signed_ok (by unfold Fits; omega)]
  show ((quotient (high - low - 1) st).bind fun q => signed (q + 1)) = _
  rw [quotient_ok (by unfold Fits; omega) (by omega) (by omega),
    Int.tdiv_eq_ediv_of_nonneg (by omega)]
  show signed ((high - low - 1) / st + 1) = _
  rw [signed_ok (by unfold Fits; omega), hsplit, Int.add_ediv_of_dvd_right (Int.dvd_refl st),
    Int.ediv_self (by omega), Int.toNat_of_nonneg (by omega)]

/-- A slice starts and goes on as Python's does. -/
theorem sliceRange_spec {n : Int} {start stop step : Option Int} (hn : 0 ≤ n) (hfit : n ≤ kIntMax)
    (hstart : ∀ x, start = some x → Fits x) (hstop : ∀ x, stop = some x → Fits x)
    (hstep : ∀ x, step = some x → Fits x) (hzero : step ≠ some 0) (hleast : step ≠ some kIntMin) :
    let st := step.getD 1
    let a := pythonBound n st start (if st < 0 then n - 1 else 0)
    sliceRange n start stop step =
      .ok ⟨a, st, stepsBefore a (pythonBound n st stop (if st < 0 then -1 else n)) st⟩ := by
  have hmax : kIntMax = 2 ^ 63 - 1 := Eq.refl _
  have hmin : kIntMin = -2 ^ 63 := Eq.refl _
  unfold sliceRange
  dsimp only
  generalize hgiven : step.getD 1 = st
  obtain ⟨hst0, hst, hstmin⟩ : st ≠ 0 ∧ Fits st ∧ st ≠ kIntMin := by
    cases step with
    | none =>
      obtain rfl : 1 = st := hgiven
      decide
    | some x =>
      obtain rfl : x = st := hgiven
      exact ⟨fun h => hzero (congrArg some h), hstep x (Eq.refl _),
        fun h => hleast (congrArg some h)⟩
  have hfirst : (if st < 0 then signed (n - 1) else .ok 0) = .ok (if st < 0 then n - 1 else 0) := by
    split
    next => exact signed_ok (by unfold Fits; omega)
    next => exact Eq.refl _
  have ha : if st < 0 then -1 ≤ pythonBound n st start (if st < 0 then n - 1 else 0) ∧
      pythonBound n st start (if st < 0 then n - 1 else 0) ≤ n - 1
      else 0 ≤ pythonBound n st start (if st < 0 then n - 1 else 0) ∧
        pythonBound n st start (if st < 0 then n - 1 else 0) ≤ n := by
    refine pythonBound_range hn ?_
    split
    next => omega
    next => omega
  have hb : if st < 0 then -1 ≤ pythonBound n st stop (if st < 0 then -1 else n) ∧
      pythonBound n st stop (if st < 0 then -1 else n) ≤ n - 1
      else 0 ≤ pythonBound n st stop (if st < 0 then -1 else n) ∧
        pythonBound n st stop (if st < 0 then -1 else n) ≤ n := by
    refine pythonBound_range hn ?_
    split
    next => omega
    next => omega
  rw [if_neg hst0, if_neg hstmin, hfirst]
  show (clampBound n st start (if st < 0 then n - 1 else 0)).bind _ = _
  rw [clampBound_spec hn hfit hstart]
  show (clampBound n st stop (if st < 0 then -1 else n)).bind _ = _
  rw [clampBound_spec hn hfit hstop]
  show Except.map _ _ = _
  generalize pythonBound n st start (if st < 0 then n - 1 else 0) = a at *
  generalize pythonBound n st stop (if st < 0 then -1 else n) = b at *
  unfold Fits at hst
  have hcount : (if 0 < st ∧ a < b then countBetween a b st
      else if st < 0 ∧ b < a then (signed (-st)).bind fun back => countBetween b a back
      else .ok 0) = .ok (stepsBefore a b st : Int) := by
    have hnone := @lt_stepsBefore a b st 0
    rcases Int.lt_or_gt_of_ne hst0 with hneg | hpos
    · rw [if_pos hneg] at ha hb
      rw [if_neg (by omega)]
      by_cases hlt : b < a
      · rw [if_pos ⟨hneg, hlt⟩, signed_ok (by unfold Fits; omega)]
        show countBetween b a (-st) = _
        rw [countBetween_spec hlt (by omega) (by omega)]
        unfold stepsBefore
        rw [if_neg (by omega), if_pos hneg]
      · have hzero : stepsBefore a b st = 0 := by omega
        rw [if_neg (by omega), hzero]
        exact Eq.refl _
    · rw [if_neg (by omega)] at ha hb
      by_cases hlt : a < b
      · rw [if_pos ⟨hpos, hlt⟩, countBetween_spec hlt hpos (by omega)]
        unfold stepsBefore
        rw [if_pos hpos]
      · have hzero : stepsBefore a b st = 0 := by omega
        rw [if_neg (by omega), if_neg (by omega), hzero]
        exact Eq.refl _
  rw [hcount]
  exact Eq.refl _

/-- Items are read in range, and the place past the last must fit too. -/
theorem sliceItems_iff {α : Type} {items : List α} {st : Int} {count : Nat} {x : Int}
    (hin : ∀ k : Nat, k < count → 0 ≤ x + k * st ∧ x + k * st < items.length) :
    (∃ vs, sliceItems items st count x = .ok vs ∧
      List.Forall₂ (fun y v => items[Int.toNat y]? = some v)
        ((List.range count).map fun k : Nat => x + k * st) vs) ↔
      ∀ k : Nat, k < count → Fits (x + k * st + st) := by
  induction count generalizing x with
  | zero =>
    exact ⟨fun _ k hk => absurd hk (Nat.not_lt_zero k),
      fun _ => ⟨[], Eq.refl _, List.Forall₂.nil⟩⟩
  | succ count ih =>
    have hshift : ∀ k : Nat, x + ((k + 1 : Nat) : Int) * st = x + st + k * st := by
      intro k
      rw [Int.natCast_succ, Int.add_mul, Int.one_mul]
      omega
    have hfirst := hin 0 (Nat.zero_lt_succ _)
    have hfirst0 : x + ((0 : Nat) : Int) * st = x := by
      rw [Int.natCast_zero, Int.zero_mul, Int.add_zero]
    rw [hfirst0] at hfirst
    have hrest := ih (x := x + st) (fun k hk => by
      rw [← hshift]
      exact hin (k + 1) (Nat.succ_lt_succ hk))
    obtain ⟨v, hv⟩ : ∃ v, items[x.toNat]? = some v :=
      ⟨_, List.getElem?_eq_getElem (by omega)⟩
    have hread : itemAt items x = .ok v := by
      unfold itemAt
      rw [if_neg (by omega), hv]
    have hplaces : ((List.range (count + 1)).map fun k : Nat => x + k * st) =
        x :: (List.range count).map fun k : Nat => x + st + k * st := by
      rw [List.range_succ_eq_map, List.map_cons, List.map_map, hfirst0]
      congr 1
      apply List.map_congr_left
      intro k hk
      exact hshift k
    rw [hplaces]
    constructor
    · intro h
      obtain ⟨vs, hvs, hall⟩ := h
      unfold sliceItems at hvs
      obtain ⟨v', hv', hvs⟩ := Fallible.exists_of_bind hvs
      obtain ⟨next, hnext, hvs⟩ := Fallible.exists_of_bind hvs
      obtain ⟨rest, hrest', rfl⟩ := Fallible.exists_of_map hvs
      unfold signed at hnext
      split at hnext
      next hfits =>
        obtain rfl := Except.ok.inj hnext
        cases hall with
        | cons hhead htail =>
          have hlater := hrest.mp ⟨rest, hrest', htail⟩
          intro k hk
          cases k with
          | zero =>
            rw [hfirst0]
            exact hfits
          | succ k =>
            rw [hshift]
            exact hlater k (Nat.lt_of_succ_lt_succ hk)
      next => cases hnext
    · intro h
      have hfits := h 0 (Nat.zero_lt_succ _)
      rw [hfirst0] at hfits
      obtain ⟨rest, hrest', htail⟩ := hrest.mpr fun k hk => by
        rw [← hshift]
        exact h (k + 1) (Nat.succ_lt_succ hk)
      refine ⟨v :: rest, ?_, List.Forall₂.cons hv htail⟩
      unfold sliceItems
      rw [hread]
      show ((signed (x + st)).bind fun next => _) = _
      rw [signed_ok hfits]
      show (sliceItems items st count (x + st)).map (fun vs => v :: vs) = _
      rw [hrest']
      exact Eq.refl _

theorem unsigned_of_nonneg {x : Int} (h : 0 ≤ x) (hlt : x < 2 ^ 64) : (unsigned x : Int) = x := by
  unfold unsigned
  omega

/-- The distance in unsigned arithmetic counts the steps, whatever the signs. -/
theorem unsigned_count {low high st : Int} (hlow : Fits low) (hhigh : Fits high) (hlt : low < high)
    (hst : 0 < st) (hfit : st ≤ 2 ^ 63) {step : Nat} (hstep : (step : Int) = st) :
    (unsigned (unsigned high - unsigned low - 1) / step + 1) % 2 ^ 64 =
      ((high - low + st - 1) / st).toNat := by
  unfold Fits kIntMin kIntMax at hlow hhigh
  have hdistance : (unsigned (unsigned high - unsigned low - 1) : Int) = high - low - 1 := by
    unfold unsigned
    omega
  have hsplit : high - low + st - 1 = high - low - 1 + st := by omega
  have hquot : ((unsigned (unsigned high - unsigned low - 1) / step : Nat) : Int) =
      (high - low - 1) / st := by
    rw [Int.natCast_ediv, hdistance, hstep]
  have hnonneg : 0 ≤ (high - low - 1) / st := Int.ediv_nonneg (by omega) (by omega)
  have hle : (high - low - 1) / st ≤ high - low - 1 := Int.ediv_le_self _ (by omega)
  rw [hsplit, Int.add_ediv_of_dvd_right (Int.dvd_refl st), Int.ediv_self (by omega)]
  omega

theorem rangeCount_eq {start stop step : Int} (hstart : Fits start) (hstop : Fits stop)
    (hstep : Fits step) : rangeCount start stop step = stepsBefore start stop step := by
  have hnone := @lt_stepsBefore start stop step 0
  unfold Fits kIntMin kIntMax at hstep
  unfold rangeCount
  split
  next hup =>
    rw [unsigned_count hstart hstop hup.2 hup.1 (by omega)
      (unsigned_of_nonneg (by omega) (by omega))]
    unfold stepsBefore
    rw [if_pos hup.1]
  next hup =>
    split
    next hdown =>
      have hback : (unsigned (0 - unsigned step) : Int) = -step := by
        unfold unsigned
        omega
      rw [unsigned_count hstop hstart hdown.2 (show 0 < -step by omega) (by omega) hback]
      unfold stepsBefore
      rw [if_neg (by omega), if_pos hdown.1]
    next hdown => omega

/-- An item is found exactly where its distance from the start fits. -/
theorem rangeItem_iff {start step : Int} {k : Nat} (h : Fits (start + k * step)) :
    rangeItem start step k = .ok (start + k * step) ↔ Fits (k * step) := by
  constructor
  · intro hitem
    obtain ⟨d, hd, -⟩ := Fallible.exists_of_bind hitem
    unfold signed at hd
    split at hd
    next hfits => exact hfits
    next => cases hd
  · intro hfits
    unfold rangeItem
    rw [signed_ok hfits]
    exact signed_ok h

theorem range_iff {start stop step : Int} (hstart : Fits start) (hstop : Fits stop)
    (hstep : Fits step) (hzero : step ≠ 0)
    (hmost : (progression start stop step).length ≤ kMaxRange) :
    range start stop step = .ok (progression start stop step) ↔
      ∀ x ∈ progression start stop step, Fits (x - start) := by
  have hlen : (progression start stop step).length = stepsBefore start stop step := by
    unfold progression
    rw [List.length_map, List.length_range]
  have hitems : ∀ k : Nat, k < stepsBefore start stop step → Fits (start + k * step) := by
    intro k hk
    have hbefore := (lt_stepsBefore k).mp hk
    unfold Fits at *
    rcases hbefore with ⟨hpos, hlt⟩ | ⟨hneg, hlt⟩
    · have := Int.mul_nonneg (Int.natCast_nonneg k) (Int.le_of_lt hpos)
      omega
    · have := Int.mul_nonneg (Int.natCast_nonneg k) (show 0 ≤ -step by omega)
      rw [Int.mul_neg] at this
      omega
  have hall : (∀ x ∈ progression start stop step, Fits (x - start)) ↔
      ∀ k : Nat, k < stepsBefore start stop step → Fits (k * step) := by
    unfold progression
    rw [List.forall_mem_map]
    constructor
    · intro h k hk
      have hfits := h k (List.mem_range.mpr hk)
      rw [add_sub_cancel_left] at hfits
      exact hfits
    · intro h k hk
      rw [add_sub_cancel_left]
      exact h k (List.mem_range.mp hk)
  unfold range
  rw [if_neg hzero, rangeCount_eq hstart hstop hstep, if_neg (by omega), Fallible.mapM_ok_iff, hall]
  unfold progression
  rw [List.forall₂_map_right_iff, List.forall₂_same]
  constructor
  · intro h k hk
    exact (rangeItem_iff (hitems k hk)).mp (h k (List.mem_range.mpr hk))
  · intro h k hk
    have hk := List.mem_range.mp hk
    exact (rangeItem_iff (hitems k hk)).mpr (h k hk)

/-- What a template asks of its integers: an operator, a slice, or a range. -/
inductive IntAsk (α : Type) where
  | arith (op : ArithOp) (m n : Int)
  | slice (items : List α) (start stop step : Option Int)
  | range (start stop step : Int)

/-- What the machine can hold, a power's exponent not negative, a step that is not 0 and of a slice
not the least integer, and of a range no more items than it may have. -/
def IntAsk.Valid {α : Type} : IntAsk α → Prop
  | .arith op m n => Fits m ∧ Fits n ∧ (op = .pow → 0 ≤ n)
  | .slice items start stop step =>
    (items.length : Int) ≤ kIntMax ∧ (∀ x, start = some x → Fits x) ∧
      (∀ x, stop = some x → Fits x) ∧ (∀ x, step = some x → Fits x) ∧ step ≠ some 0 ∧
      step ≠ some kIntMin
  | .range start stop step =>
    Fits start ∧ Fits stop ∧ Fits step ∧ step ≠ 0 ∧
      (progression start stop step).length ≤ kMaxRange

/-- Python's answer, or the error exactly where an operator's does not fit or divides by zero; no
signed computation leaves 64 bits. -/
def IntAsk.Exact {α : Type} : IntAsk α → Prop
  | .arith op m n =>
    if (op = .floorDiv ∨ op = .mod) ∧ n = 0 ∨ ¬Fits (pythonInt op m n) then
      ∃ message, arithmetic op m n = .error (.raised message)
    else arithmetic op m n = .ok (pythonInt op m n)
  | .slice items start stop step =>
    ∃ vs, TemplateInts.slice items start stop step = .ok vs ∧
      List.Forall₂ (fun x v => items[Int.toNat x]? = some v)
        (pythonSlice items.length start stop step) vs ∧
      ∀ x ∈ pythonSlice items.length start stop step, 0 ≤ x ∧ x < items.length
  | .range start stop step => TemplateInts.range start stop step = .ok (progression start stop step)

/-- No item's place and the step together pass the greatest integer, and no item of a range is
further from its start than an integer can say. -/
def IntAsk.Stays {α : Type} : IntAsk α → Prop
  | .arith _ _ _ => True
  | .slice items start stop step =>
    ∀ x ∈ pythonSlice items.length start stop step, x + step.getD 1 ≤ kIntMax
  | .range start stop step => ∀ x ∈ progression start stop step, Fits (x - start)

theorem arith_exact {op : ArithOp} {m n : Int} (hm : Fits m) (hn : Fits n) :
    if (op = .floorDiv ∨ op = .mod) ∧ n = 0 ∨ ¬Fits (pythonInt op m n) then
      ∃ message, arithmetic op m n = .error (.raised message)
    else arithmetic op m n = .ok (pythonInt op m n) := by
  rw [arithmetic_exact op hm hn]
  by_cases hzero : (op = .floorDiv ∨ op = .mod) ∧ n = 0
  · rw [if_pos (Or.inl hzero), if_pos hzero]
    obtain ⟨rfl | rfl, -⟩ := hzero
    · exact ⟨_, Eq.refl _⟩
    · exact ⟨_, Eq.refl _⟩
  · rw [if_neg hzero]
    by_cases hfits : Fits (pythonInt op m n)
    · rw [if_neg (not_or.mpr ⟨hzero, not_not.mpr hfits⟩), exactInt_ok hfits]
    · rw [if_pos (Or.inr hfits), exactInt_past hfits]
      exact ⟨_, Eq.refl _⟩

/-- The places of a slice are in the sequence. -/
theorem pythonSlice_inside {n : Int} {start stop step : Option Int} (hn : 0 ≤ n) {x : Int}
    (hx : x ∈ pythonSlice n start stop step) : 0 ≤ x ∧ x < n := by
  unfold pythonSlice at hx
  dsimp only at hx
  generalize step.getD 1 = st at hx
  obtain ⟨k, rfl, hside⟩ := mem_progression.mp hx
  rcases hside with ⟨hpos, hlt⟩ | ⟨hneg, hlt⟩
  · have ha := @pythonBound_range n st (if st < 0 then n - 1 else 0) start hn
      (by rw [if_neg (by omega), if_neg (by omega)]; omega)
    have hb := @pythonBound_range n st (if st < 0 then -1 else n) stop hn
      (by rw [if_neg (by omega), if_neg (by omega)]; omega)
    rw [if_neg (by omega)] at ha hb
    have := Int.mul_nonneg (Int.natCast_nonneg k) (Int.le_of_lt hpos)
    omega
  · have ha := @pythonBound_range n st (if st < 0 then n - 1 else 0) start hn
      (by rw [if_pos hneg, if_pos hneg]; omega)
    have hb := @pythonBound_range n st (if st < 0 then -1 else n) stop hn
      (by rw [if_pos hneg, if_pos hneg]; omega)
    rw [if_pos hneg] at ha hb
    have := Int.mul_nonneg (Int.natCast_nonneg k) (show 0 ≤ -st by omega)
    rw [Int.mul_neg] at this
    omega

theorem slice_iff {α : Type} {items : List α} {start stop step : Option Int}
    (h : (IntAsk.slice items start stop step).Valid) :
    (IntAsk.slice items start stop step).Exact ↔ (IntAsk.slice items start stop step).Stays := by
  obtain ⟨hlen, hstart, hstop, hstep, hzero, hleast⟩ := h
  have hn := Int.natCast_nonneg items.length
  have hrange := sliceRange_spec hn hlen hstart hstop hstep hzero hleast
  have hinside := fun x => @pythonSlice_inside items.length start stop step hn x
  have hst : kIntMin < step.getD 1 := by
    cases step with
    | none => exact (by decide : kIntMin < 1)
    | some x =>
      have hx := hstep x (Eq.refl _)
      have hne : x ≠ kIntMin := fun hx' => hleast (congrArg some hx')
      unfold Fits at hx
      show kIntMin < x
      omega
  unfold IntAsk.Exact IntAsk.Stays TemplateInts.slice
  unfold pythonSlice progression at *
  dsimp only at *
  rw [hrange]
  generalize pythonBound _ _ start _ = a at *
  generalize pythonBound _ _ stop _ = b at *
  generalize step.getD 1 = st at *
  show (∃ vs, sliceItems items st (stepsBefore a b st) a = .ok vs ∧ _) ↔ _
  have hin : ∀ k : Nat, k < stepsBefore a b st → 0 ≤ a + k * st ∧ a + k * st < items.length :=
    fun k hk => hinside _ (List.mem_map_of_mem (List.mem_range.mpr hk))
  have hstays : (∀ x ∈ (List.range (stepsBefore a b st)).map fun k : Nat => a + k * st,
      x + st ≤ kIntMax) ↔ ∀ k : Nat, k < stepsBefore a b st → Fits (a + k * st + st) := by
    rw [List.forall_mem_map]
    constructor
    · intro h k hk
      have hplace := hin k hk
      exact ⟨by omega, h k (List.mem_range.mpr hk)⟩
    · intro h k hk
      exact (h k (List.mem_range.mp hk)).2
  rw [hstays, ← sliceItems_iff hin]
  constructor
  · intro h
    obtain ⟨vs, hvs, hall, -⟩ := h
    exact ⟨vs, hvs, hall⟩
  · intro h
    obtain ⟨vs, hvs, hall⟩ := h
    exact ⟨vs, hvs, hall, hinside⟩

/-- Python's integers or an error, and no signed computation past 64 bits, exactly where no slice's
place and step together pass the greatest integer and no item of a range is too far from its start. -/
theorem intAsk_exact_iff {α : Type} {i : IntAsk α} (h : i.Valid) : i.Exact ↔ i.Stays := by
  cases i with
  | arith op m n => exact ⟨fun _ => trivial, fun _ => arith_exact h.1 h.2.1⟩
  | slice items start stop step => exact slice_iff h
  | range start stop step =>
    obtain ⟨hstart, hstop, hstep, hzero, hmost⟩ := h
    exact range_iff hstart hstop hstep hzero hmost

instance {α : Type} (i : IntAsk α) : Decidable i.Valid := by
  cases i with
  | arith op m n => exact inferInstanceAs (Decidable (Fits m ∧ Fits n ∧ (op = .pow → 0 ≤ n)))
  | slice items start stop step =>
    exact inferInstanceAs (Decidable ((items.length : Int) ≤ kIntMax ∧ (∀ x ∈ start, Fits x) ∧
      (∀ x ∈ stop, Fits x) ∧ (∀ x ∈ step, Fits x) ∧ step ≠ some 0 ∧ step ≠ some kIntMin))
  | range start stop step =>
    exact inferInstanceAs (Decidable (Fits start ∧ Fits stop ∧ Fits step ∧ step ≠ 0 ∧
      (progression start stop step).length ≤ kMaxRange))

instance {α : Type} (i : IntAsk α) : Decidable i.Stays := by
  cases i with
  | arith op m n => exact inferInstanceAs (Decidable True)
  | slice items start stop step =>
    exact inferInstanceAs (Decidable (∀ x ∈ pythonSlice items.length start stop step,
      x + step.getD 1 ≤ kIntMax))
  | range start stop step =>
    exact inferInstanceAs (Decidable (∀ x ∈ progression start stop step, Fits (x - start)))

theorem intAsk_exact_backwards :
    (IntAsk.slice [1, 2, 3] (some (-1)) none (some (-2))).Exact ∧
      ¬(IntAsk.slice [1, 2, 3] (some 2) none (some kIntMax)).Exact := by
  constructor
  · exact (intAsk_exact_iff (by decide)).mpr (by decide)
  · exact fun h => absurd ((intAsk_exact_iff (by decide)).mp h) (by decide)

/-- A step past the last item wraps, and so does an item's distance from the start of a range. -/
theorem intAsk_wraps :
    (IntAsk.slice [1, 2] (some 1) none (some kIntMax)).Valid ∧
      slice [1, 2] (some 1) none (some kIntMax) = .error .wrapped ∧
      (IntAsk.range kIntMin kIntMax (2 ^ 62) : IntAsk Nat).Valid ∧
      range kIntMin kIntMax (2 ^ 62) = .error .wrapped := by
  decide

end TemplateInts

end Llmx
