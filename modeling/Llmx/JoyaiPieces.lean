import Mathlib.Algebra.Order.Ring.Int
import Llmx.OrderedRegex
import Llmx.ReplyText

namespace Llmx

namespace JoyaiPieces

open OrderedRegex (Regex eitherOf maybe plus run scan starts upToLast slice isolate comap between)

/-- A character of a text, the place of its first byte in 32 bits. -/
structure CodePoint where
  cp : Nat
  place : Nat
  bits : UInt8
deriving DecidableEq, Repr

def kL : UInt8 := 1

def kM : UInt8 := 2

def kN : UInt8 := 4

def kP : UInt8 := 8

def kS : UInt8 := 16

def kW : UInt8 := 32

def has (mask : UInt8) (c : CodePoint) : Bool := c.bits &&& mask != 0

def isNl (c : CodePoint) : Bool := c.cp == 13 || c.cp == 10

def isBlank (c : CodePoint) : Bool := c.cp == 32

def isKanaHan (c : CodePoint) : Bool :=
  (0x4E00 ≤ c.cp && c.cp ≤ 0x9FA5) || (0x3040 ≤ c.cp && c.cp ≤ 0x30FF)

def isAsciiLetter (c : CodePoint) : Bool := c.cp < 0x80 && has kL c

def isAsciiMark (c : CodePoint) : Bool := c.cp < 0x80 && has (kP ||| kS) c

/-- What may come before a word's letters and marks. -/
def isLead (c : CodePoint) : Bool := !isNl c && !has (kL ||| kP ||| kS) c

def numbers (t : List CodePoint) (i e : Nat) : Nat := scan (has kN) t (min e (i + 3)) i - i

def kanaHan (t : List CodePoint) (i e : Nat) : Nat := scan isKanaHan t e i - i

/-- The length up to the last newline among `n` characters from `i`. -/
def lastNl (t : List CodePoint) (i : Nat) : Nat → Option Nat
  | 0 => none
  | n + 1 => if t[i + n]?.any isNl then some (n + 1) else lastNl t i n

def spaces (t : List CodePoint) (i e : Nat) : Nat :=
  let k := scan (has kW) t e i
  match lastNl t i (k - i) with
  | some n => n
  | none => if k = e ∧ i < k then k - i else if i + 1 < k then k - 1 - i else k - i

def marks (t : List CodePoint) (i e : Nat) : Nat :=
  let j := if t[i]?.any isBlank then i + 1 else i
  let k := scan (has (kP ||| kS)) t e j
  if j < k then scan isNl t e k - i else spaces t i e

def words (t : List CodePoint) (i e : Nat) : Nat :=
  if t[i]?.any isAsciiMark && (decide (i + 1 < e) && t[i + 1]?.any isAsciiLetter) then
    scan isAsciiLetter t e (i + 1) - i
  else
    let k := scan (has (kL ||| kM)) t e (i + 1)
    if t[i]?.any isLead && decide (i + 1 < k) then k - i
    else
      let k := scan (has (kL ||| kM)) t e i
      if i < k then k - i else marks t i e

/-- The bytes of the character a text begins with: one where they are no valid UTF-8. -/
def symbolLength (s : Bytes) : Nat :=
  if (Utf8.validLength s).getD 0 = 0 then 1 else (Utf8.validLength s).getD 0

def codeOf (s : Bytes) : Nat :=
  let len := (Utf8.validLength s).getD 0
  if 1 < len then
    ((s.drop 1).take (len - 1)).foldl (fun cp b => cp <<< 6 ||| (b.toNat &&& 0x3F))
      ((s.getD 0 0).toNat &&& (0x7F >>> len))
  else (s.getD 0 0).toNat

def bitsOf (of : Nat → UInt8) (s : Bytes) : UInt8 :=
  if (Utf8.validLength s).getD 0 = 0 then 0 else of (codeOf s)

theorem symbolLength_pos (s : Bytes) : 0 < symbolLength s := by
  unfold symbolLength
  split
  next => exact Nat.one_pos
  next h => exact Nat.pos_of_ne_zero h

/-- The characters of a text from byte `i` on, each with its bytes. -/
def symbols (of : Nat → UInt8) (text : Bytes) (i : Nat) : List (CodePoint × Bytes) :=
  if i < text.length then
    (⟨codeOf (text.drop i), i % 2 ^ 32, bitsOf of (text.drop i)⟩,
      (text.drop i).take (symbolLength (text.drop i))) ::
        symbols of text (i + symbolLength (text.drop i))
  else []
termination_by text.length - i
decreasing_by
  have := symbolLength_pos (text.drop i)
  omega

def codePoints (of : Nat → UInt8) (text : Bytes) (i : Nat) : List CodePoint :=
  if i < text.length then
    ⟨codeOf (text.drop i), i % 2 ^ 32, bitsOf of (text.drop i)⟩ ::
      codePoints of text (i + symbolLength (text.drop i))
  else []
termination_by text.length - i
decreasing_by
  have := symbolLength_pos (text.drop i)
  omega

/-- The loop over one piece, up to `e`: the matches from `i` on and what is between them, from
`gap` on. -/
def cutRange (m : Nat → Nat) (e gap i : Nat) : List (Nat × Nat) :=
  if i < e then
    if m i = 0 then cutRange m e gap (i + 1)
    else
      (if gap < i then [(gap, i)] else []) ++ (i, i + m i) :: cutRange m e (i + m i) (i + m i)
  else if gap < e then [(gap, e)]
  else []
termination_by e - i

def matchers : List (List CodePoint → Nat → Nat → Nat) := [numbers, kanaHan, words]

def cutAll (t : List CodePoint) (pieces : List (Nat × Nat))
    (m : List CodePoint → Nat → Nat → Nat) : List (Nat × Nat) :=
  pieces.flatMap fun be => cutRange (fun i => m t i be.2) be.2 be.1 be.1

def ranges (t : List CodePoint) : List (Nat × Nat) := matchers.foldl (cutAll t) [(0, t.length)]

def placeOf (t : List CodePoint) (i : Nat) : Nat := (t[i]?.map CodePoint.place).getD 0

def textOf (text : Bytes) (t : List CodePoint) (be : Nat × Nat) : Bytes :=
  let start := placeOf t be.1
  let stop := if be.2 < t.length then placeOf t be.2 else text.length
  (text.drop start).take (if start ≤ stop then stop - start else 2 ^ 64 + stop - start)

def pretokenize (of : Nat → UInt8) (text : Bytes) : List Bytes :=
  let t := codePoints of text 0
  (ranges t).map (textOf text t)

/-- Runs of one to three numbers. -/
def numbersRule : Regex CodePoint := .seq (.one (has kN)) (.upTo 2 (has kN))

def kanaHanRule : Regex CodePoint := plus isKanaHan

/-- The word rule: an ASCII mark before ASCII letters; letters and marks, after a character that is
none of newline, letter, punctuation and symbol; punctuation and symbols after a space, with the
newlines after them; white space up to its last newline, to its end or but its last, or all. -/
def wordsRule : Regex CodePoint :=
  eitherOf [.seq (.one isAsciiMark) (plus isAsciiLetter),
    .seq (maybe isLead) (plus (has (kL ||| kM))),
    .seq (maybe isBlank) (.seq (plus (has (kP ||| kS))) (.many isNl)),
    .seq (.many (has kW)) (plus isNl),
    .seq (plus (has kW)) (.notAhead fun c => !has kW c),
    plus (has kW)]

/-- Each rule's split of the pieces of the one before. -/
def splits (of : Nat → UInt8) (text : Bytes) : List (List (CodePoint × Bytes)) :=
  [numbersRule, kanaHanRule, wordsRule].foldl
    (fun pieces r => pieces.flatMap (isolate (comap Prod.fst r) [])) [symbols of text 0]

/-- The classes a table is to give: a space is no punctuation or symbol, newlines are white space. -/
structure Plain (of : Nat → UInt8) : Prop where
  blank : of 32 &&& (kP ||| kS) = 0
  cr : of 13 &&& kW ≠ 0
  lf : of 10 &&& kW ≠ 0

section Rules

variable {t : List CodePoint} {i e : Nat}

theorem any_getElem {p : CodePoint → Bool} (hi : i < t.length) : t[i]?.any p = p t[i] := by
  rw [List.getElem?_eq_getElem hi]
  exact Eq.refl _

theorem starts_slice {p : CodePoint → Bool} (hi : i < e) (he : e ≤ t.length) :
    starts p (slice t i e) = t[i]?.any p := by
  rw [OrderedRegex.slice_cons hi he, any_getElem (by omega)]
  exact Eq.refl _

theorem starts_next {p : CodePoint → Bool} (he : e ≤ t.length) :
    starts p (slice t (i + 1) e) = (decide (i + 1 < e) && t[i + 1]?.any p) := by
  by_cases hnext : i + 1 < e
  · rw [starts_slice hnext he, decide_eq_true hnext, Bool.true_and]
  · have hnil : slice t (i + 1) e = [] := by
      apply List.eq_nil_of_length_eq_zero
      rw [OrderedRegex.slice_length he]
      omega
    rw [hnil, decide_eq_false hnext, Bool.false_and]
    exact Eq.refl _

theorem scan_sub {p : CodePoint → Bool} (he : e ≤ t.length) :
    scan p t e i - i = run p (slice t i e) := by
  rw [OrderedRegex.scan_slice he]
  omega

theorem numbers_eq (hi : i < e) (he : e ≤ t.length) :
    numbers t i e = (OrderedRegex.first numbersRule (slice t i e)).getD 0 := by
  have hmin : slice t i (min e (i + 3)) = (slice t i e).take 3 := by
    unfold slice
    rw [List.take_drop, List.take_take, Nat.min_comm]
  unfold numbers numbersRule
  rw [scan_sub (by omega), hmin, OrderedRegex.run_take, OrderedRegex.first_one_seq,
    OrderedRegex.slice_cons hi he, OrderedRegex.starts_cons, OrderedRegex.run_cons, List.drop_one,
    List.tail_cons, OrderedRegex.first_upTo]
  split
  next =>
    show min 3 (run (has kN) _ + 1) = 1 + min 2 (run (has kN) _)
    omega
  next => exact Eq.refl _

theorem kanaHan_eq (he : e ≤ t.length) :
    kanaHan t i e = (OrderedRegex.first kanaHanRule (slice t i e)).getD 0 := by
  unfold kanaHan kanaHanRule
  rw [scan_sub he, OrderedRegex.first_plus]
  split
  next => exact Eq.refl _
  next hno =>
    have hzero : ¬ 0 < run isKanaHan (slice t i e) := fun h => hno (OrderedRegex.run_pos_iff.mp h)
    exact Nat.eq_zero_of_not_pos hzero

theorem lastNl_eq (n : Nat) (hn : i + n ≤ t.length) : lastNl t i n =
    if upToLast isNl (slice t i (i + n)) = 0 then none
    else some (upToLast isNl (slice t i (i + n))) := by
  induction n with
  | zero =>
    rw [Nat.add_zero, OrderedRegex.slice_empty]
    exact Eq.refl _
  | succ n ih =>
    rw [lastNl, ih (by omega), any_getElem (by omega), ← Nat.add_assoc,
      OrderedRegex.slice_concat (Nat.le_add_right i n) (by omega), OrderedRegex.upToLast_concat,
      OrderedRegex.slice_length (by omega), Nat.add_sub_cancel_left]
    by_cases hnl : isNl t[i + n] = true
    · rw [if_pos hnl, if_pos hnl, if_neg (Nat.succ_ne_zero n)]
    · rw [if_neg hnl, if_neg hnl]

theorem spaces_eq (hi : i < e) (he : e ≤ t.length)
    (hnl : ∀ c ∈ slice t i e, isNl c = true → has kW c = true) :
    some (spaces t i e) =
      ((OrderedRegex.first (.seq (.many (has kW)) (plus isNl)) (slice t i e)).or
        ((OrderedRegex.first (.seq (plus (has kW)) (.notAhead fun c => !has kW c))
          (slice t i e)).or
          (OrderedRegex.first (plus (has kW)) (slice t i e)))).or (some 0) := by
  have hle := OrderedRegex.run_le (has kW) (slice t i e)
  rw [OrderedRegex.slice_length he] at hle
  have htake : slice t i (i + run (has kW) (slice t i e)) =
      (slice t i e).takeWhile (has kW) := by
    rw [← OrderedRegex.slice_take (show i + run (has kW) (slice t i e) ≤ e by omega)]
    exact (List.prefix_iff_eq_take.mp (List.takeWhile_prefix _)).symm
  have hlast := lastNl_eq (t := t) (i := i) (run (has kW) (slice t i e)) (by omega)
  rw [htake] at hlast
  unfold spaces
  dsimp only
  rw [OrderedRegex.first_many_seq_plus hnl,
    OrderedRegex.first_plus_notAhead (fun _ => Eq.refl _), OrderedRegex.first_plus,
    OrderedRegex.slice_length he, OrderedRegex.scan_slice he, Nat.add_sub_cancel_left, hlast]
  by_cases hzero : upToLast isNl ((slice t i e).takeWhile (has kW)) = 0
  · rw [if_pos hzero, Option.none_or]
    have hstart := OrderedRegex.run_pos_iff (p := has kW) (s := slice t i e)
    generalize run (has kW) (slice t i e) = n at hle hstart ⊢
    show some (if i + n = e ∧ i < i + n then n else if i + 1 < i + n then i + n - 1 - i
      else n) = _
    by_cases hnone : n = 0
    · rw [if_pos hnone, Option.none_or, if_neg (show ¬ (i + n = e ∧ i < i + n) by omega),
        if_neg (show ¬ i + 1 < i + n by omega), if_neg (fun h => by have := hstart.mpr h; omega)]
      refine congrArg some ?_
      omega
    · rw [if_neg hnone, if_pos (hstart.mp (Nat.pos_of_ne_zero hnone))]
      by_cases hall : n = e - i
      · rw [if_pos hall, if_pos (show i + n = e ∧ i < i + n by omega)]
        refine congrArg some ?_
        omega
      · rw [if_neg hall, if_neg (show ¬ (i + n = e ∧ i < i + n) by omega)]
        by_cases hone : n = 1
        · rw [if_pos hone, if_neg (show ¬ i + 1 < i + n by omega)]
          refine congrArg some ?_
          omega
        · rw [if_neg hone, if_pos (show i + 1 < i + n by omega)]
          refine congrArg some ?_
          omega
  · rw [if_neg hzero]
    exact Eq.refl _

theorem first_marks (s : List CodePoint) :
    OrderedRegex.first (.seq (plus (has (kP ||| kS))) (.many isNl)) s =
      if starts (has (kP ||| kS)) s then
        some (run (has (kP ||| kS)) s + run isNl (s.drop (run (has (kP ||| kS)) s)))
      else none := by
  have hplus := OrderedRegex.first_plus (has (kP ||| kS)) s
  split
  next hstart =>
    rw [if_pos hstart] at hplus
    exact OrderedRegex.first_seq_some hplus (OrderedRegex.first_many _ _)
  next hstart =>
    rw [if_neg hstart] at hplus
    exact OrderedRegex.first_seq_none hplus

theorem marks_eq (hi : i < e) (he : e ≤ t.length)
    (hblank : ∀ c ∈ slice t i e, isBlank c = true → has (kP ||| kS) c = false) :
    some (marks t i e) =
      (OrderedRegex.first (.seq (maybe isBlank) (.seq (plus (has (kP ||| kS))) (.many isNl)))
        (slice t i e)).or (some (spaces t i e)) := by
  have hplus : ∀ j, i ≤ j → some (if j < scan (has (kP ||| kS)) t e j then
        scan isNl t e (scan (has (kP ||| kS)) t e j) - i else spaces t i e) =
      ((OrderedRegex.first (.seq (plus (has (kP ||| kS))) (.many isNl)) (slice t j e)).map
        (j - i + ·)).or (some (spaces t i e)) := by
    intro j hj
    rw [OrderedRegex.scan_slice he, OrderedRegex.scan_slice he, first_marks,
      OrderedRegex.slice_drop]
    have hstart := OrderedRegex.run_pos_iff (p := has (kP ||| kS)) (s := slice t j e)
    by_cases hpos : 0 < run (has (kP ||| kS)) (slice t j e)
    · rw [if_pos (by omega), if_pos (hstart.mp hpos)]
      refine congrArg some ?_
      show _ = j - i + (_ + _)
      omega
    · rw [if_neg (by omega), if_neg fun h => hpos (hstart.mpr h)]
      exact Eq.refl _
  have hcons := OrderedRegex.slice_cons hi he
  unfold marks
  dsimp only
  rw [OrderedRegex.first_maybe_seq, starts_slice hi he]
  by_cases hb : t[i]?.any isBlank = true
  · have hmark : starts (has (kP ||| kS)) (slice t i e) = false := by
      rw [any_getElem (by omega)] at hb
      rw [hcons]
      exact hblank _ (by rw [hcons]; exact List.mem_cons_self) hb
    have hnone : OrderedRegex.first (.seq (plus (has (kP ||| kS))) (.many isNl)) (slice t i e) =
        none := by
      rw [first_marks, hmark]
      exact Eq.refl _
    rw [if_pos hb, if_pos hb, hplus (i + 1) (Nat.le_succ i), hnone, Option.or_none,
      OrderedRegex.slice_drop, Nat.add_sub_cancel_left]
  · rw [if_neg hb, if_neg hb, hplus _ (Nat.le_refl i), Nat.sub_self]
    cases OrderedRegex.first (.seq (plus (has (kP ||| kS))) (.many isNl)) (slice t i e) with
    | none => exact Eq.refl _
    | some k => exact congrArg some (Nat.zero_add k)

theorem first_plus_slice (p : CodePoint → Bool) (s : List CodePoint) :
    OrderedRegex.first (plus p) s = if 0 < run p s then some (run p s) else none := by
  rw [OrderedRegex.first_plus]
  split
  next h => exact (if_pos (OrderedRegex.run_pos_iff.mpr h)).symm
  next h => exact (if_neg fun h' => h (OrderedRegex.run_pos_iff.mp h')).symm

theorem words_eq (hi : i < e) (he : e ≤ t.length)
    (hblank : ∀ c ∈ slice t i e, isBlank c = true → has (kP ||| kS) c = false)
    (hnl : ∀ c ∈ slice t i e, isNl c = true → has kW c = true) :
    words t i e = (OrderedRegex.first wordsRule (slice t i e)).getD 0 := by
  have hnone : OrderedRegex.first (.one fun _ => false) (slice t i e) = none :=
    OrderedRegex.first_eitherOf [] (slice t i e)
  have hrest : some (words t i e) = (OrderedRegex.first wordsRule (slice t i e)).or (some 0) := by
    unfold wordsRule
    simp only [eitherOf, OrderedRegex.first_either]
    rw [hnone, Option.or_none, Option.or_assoc, Option.or_assoc, Option.or_assoc,
      ← spaces_eq hi he hnl, ← marks_eq hi he hblank, OrderedRegex.first_one_seq,
      OrderedRegex.first_maybe_seq, starts_slice hi he, starts_slice hi he, first_plus_slice,
      first_plus_slice, first_plus_slice, OrderedRegex.slice_drop]
    unfold words
    dsimp only
    rw [← starts_next he, OrderedRegex.scan_slice he, OrderedRegex.scan_slice he,
      OrderedRegex.scan_slice he]
    have hletter := OrderedRegex.run_pos_iff (p := isAsciiLetter) (s := slice t (i + 1) e)
    generalize starts isAsciiLetter (slice t (i + 1) e) = letter at hletter ⊢
    generalize run isAsciiLetter (slice t (i + 1) e) = a at hletter ⊢
    generalize run (has (kL ||| kM)) (slice t (i + 1) e) = b
    generalize run (has (kL ||| kM)) (slice t i e) = c
    generalize t[i]?.any isAsciiMark = mark
    generalize t[i]?.any isLead = lead
    by_cases hmark : mark = true ∧ letter = true
    · rw [if_pos (Bool.and_eq_true_iff.mpr hmark), if_pos hmark.1, if_pos (hletter.mpr hmark.2)]
      refine congrArg some ?_
      show i + 1 + a - i = 1 + a
      omega
    · have hno : (if mark = true then (if 0 < a then some a else none).map (1 + ·) else none) =
          (none : Option Nat) := by
        split
        next h => rw [if_neg fun ha => hmark ⟨h, hletter.mp ha⟩]; exact Eq.refl _
        next => exact Eq.refl _
      rw [if_neg fun h => hmark (Bool.and_eq_true_iff.mp h), hno, Option.none_or]
      have hword : (if i < i + c then some (i + c - i) else some (marks t i e)) =
          (if 0 < c then some c else none).or (some (marks t i e)) := by
        by_cases hc : 0 < c
        · rw [if_pos (show i < i + c by omega), if_pos hc, Nat.add_sub_cancel_left]
          exact Eq.refl _
        · rw [if_neg (show ¬ i < i + c by omega), if_neg hc]
          exact Eq.refl _
      have hbranch : some (if i < i + c then i + c - i else marks t i e) =
          (if 0 < c then some c else none).or (some (marks t i e)) := by
        rw [← hword]
        exact apply_ite some _ _ _
      by_cases hlead : lead = true
      · by_cases hb : 0 < b
        · rw [if_pos (by rw [hlead]; exact decide_eq_true (show i + 1 < i + 1 + b by omega)),
            if_pos hlead, if_pos hb]
          refine congrArg some ?_
          show i + 1 + b - i = 1 + b
          omega
        · rw [if_neg (fun h => by
              have h := of_decide_eq_true (Bool.and_eq_true_iff.mp h).2
              omega), if_pos hlead, if_neg hb]
          exact hbranch
      · rw [if_neg fun h => hlead (Bool.and_eq_true_iff.mp h).1, if_neg hlead]
        exact hbranch
  cases hfirst : OrderedRegex.first wordsRule (slice t i e) with
  | none =>
    rw [hfirst] at hrest
    exact Option.some.inj hrest
  | some k =>
    rw [hfirst] at hrest
    exact Option.some.inj hrest

end Rules

section Ranges

variable {α : Type} {S : List α} {r : Regex α} {m : Nat → Nat} {e : Nat}

theorem between_slice {gap i : Nat} (hi : i ≤ S.length) :
    (if gap < i then [(gap, i)] else []).map (fun be => slice S be.1 be.2) =
      between (slice S gap i) := by
  unfold between
  by_cases hgap : gap < i
  · have hne : slice S gap i ≠ [] := by
      intro h
      have hlength := OrderedRegex.slice_length (i := gap) hi
      rw [h, List.length_nil] at hlength
      omega
    rw [if_pos hgap, if_neg fun h => hne (List.isEmpty_iff.mp h)]
    exact Eq.refl _
  · have hnil : slice S gap i = [] := by
      apply List.eq_nil_of_length_eq_zero
      rw [OrderedRegex.slice_length hi]
      omega
    rw [if_neg hgap, hnil]
    exact Eq.refl _

/-- The loop's ranges are the pieces of the split. -/
theorem cutRange_slices (he : e ≤ S.length)
    (hm : ∀ i < e, m i = (OrderedRegex.first r (slice S i e)).getD 0) (gap i : Nat) (hgap : gap ≤ i)
    (hi : i ≤ e) : (cutRange m e gap i).map (fun be => slice S be.1 be.2) =
      isolate r (slice S gap i) (slice S i e) := by
  fun_induction cutRange m e gap i with
  | case1 gap i hlt hzero ih =>
    rw [ih (by omega) (by omega), OrderedRegex.slice_concat hgap (by omega),
      OrderedRegex.slice_cons hlt he, OrderedRegex.isolate_skip]
    rw [← OrderedRegex.slice_cons hlt he, ← hm i hlt, hzero]
  | case2 gap i hlt hne ih =>
    obtain ⟨k, hk⟩ : ∃ k, OrderedRegex.first r (slice S i e) = some k := by
      cases hfirst : OrderedRegex.first r (slice S i e) with
      | none =>
        rw [hm i hlt, hfirst] at hne
        exact absurd (Eq.refl _) hne
      | some k => exact ⟨k, Eq.refl _⟩
    have hmk : m i = k := by rw [hm i hlt, hk, Option.getD_some]
    have hle := OrderedRegex.first_le hk
    rw [OrderedRegex.slice_length he] at hle
    have ih := ih (Nat.le_refl _) (by omega)
    rw [hmk] at hne ih ⊢
    rw [OrderedRegex.isolate_match hk (Nat.pos_of_ne_zero hne), List.map_append, List.map_cons, ih,
      between_slice (by omega), OrderedRegex.slice_empty, OrderedRegex.slice_drop,
      OrderedRegex.slice_take (by omega)]
  | case3 gap i hnot hopen =>
    obtain rfl : i = e := by omega
    rw [OrderedRegex.slice_empty, OrderedRegex.isolate_nil, ← between_slice he, if_pos hopen]
  | case4 gap i hnot hclosed =>
    obtain rfl : i = e := by omega
    rw [OrderedRegex.slice_empty, OrderedRegex.isolate_nil, ← between_slice he, if_neg hclosed]

theorem cutRange_within (hm : ∀ i < e, m i ≤ e - i) (gap i : Nat) (hi : i ≤ e) :
    ∀ be ∈ cutRange m e gap i, be.1 < be.2 ∧ be.2 ≤ e := by
  fun_induction cutRange m e gap i with
  | case1 gap i hlt hzero ih => exact ih (by omega)
  | case2 gap i hlt hne ih =>
    have hle := hm i hlt
    intro be hbe
    rcases List.mem_append.mp hbe with h | h
    · split at h
      next hgap =>
        rw [List.mem_singleton.mp h]
        exact ⟨hgap, hi⟩
      next => exact absurd h List.not_mem_nil
    · rcases List.mem_cons.mp h with rfl | h
      · exact ⟨by show i < i + m i; omega, by show i + m i ≤ e; omega⟩
      · exact ih (by omega) be h
  | case3 gap i hnot hopen =>
    intro be hbe
    rw [List.mem_singleton.mp hbe]
    exact ⟨hopen, Nat.le_refl e⟩
  | case4 gap i hnot hclosed => exact fun be hbe => absurd hbe List.not_mem_nil

/-- Ranges of characters, none empty. -/
def Within (n : Nat) (pieces : List (Nat × Nat)) : Prop := ∀ be ∈ pieces, be.1 < be.2 ∧ be.2 ≤ n

end Ranges

section Splits

variable {S : List (CodePoint × Bytes)} {t : List CodePoint}

theorem cutAll_slices (ht : t = S.map Prod.fst) {m : List CodePoint → Nat → Nat → Nat}
    {r : Regex CodePoint} (hm : ∀ i e, i < e → e ≤ t.length →
      m t i e = (OrderedRegex.first r (slice t i e)).getD 0)
    {pieces : List (Nat × Nat)} (hpieces : ∀ be ∈ pieces, be.1 ≤ be.2 ∧ be.2 ≤ t.length) :
    (cutAll t pieces m).map (fun be => slice S be.1 be.2) =
        (pieces.map fun be => slice S be.1 be.2).flatMap (isolate (comap Prod.fst r) []) ∧
      Within t.length (cutAll t pieces m) := by
  have hlength : t.length = S.length := by rw [ht, List.length_map]
  have hm' : ∀ i e, i < e → e ≤ t.length →
      m t i e = (OrderedRegex.first (comap Prod.fst r) (slice S i e)).getD 0 := by
    intro i e hi he
    rw [hm i e hi he, OrderedRegex.first_comap, ← OrderedRegex.slice_map, ht]
  refine ⟨?_, fun be hbe => ?_⟩
  · unfold cutAll
    rw [List.map_flatMap, List.flatMap_map]
    apply List.flatMap_congr
    intro be hbe
    obtain ⟨hle, hmost⟩ := hpieces be hbe
    rw [cutRange_slices (by omega) (fun i hi => hm' i be.2 hi hmost) be.1 be.1 (Nat.le_refl _) hle,
      OrderedRegex.slice_empty]
  · obtain ⟨pair, hpair, hbe⟩ := List.mem_flatMap.mp hbe
    obtain ⟨hle, hmost⟩ := hpieces pair hpair
    have hroom : ∀ i < pair.2, m t i pair.2 ≤ pair.2 - i := by
      intro i hi
      rw [hm i pair.2 hi hmost]
      cases hfirst : OrderedRegex.first r (slice t i pair.2) with
      | none => exact Nat.zero_le _
      | some k =>
        have h := OrderedRegex.first_le hfirst
        rw [OrderedRegex.slice_length hmost] at h
        exact h
    obtain ⟨hlt, hin⟩ := cutRange_within hroom pair.1 pair.1 hle be hbe
    exact ⟨hlt, hin.trans hmost⟩

/-- The classes of a text's characters are as the word rule needs them. -/
structure PlainText (t : List CodePoint) : Prop where
  blank : ∀ c ∈ t, isBlank c = true → has (kP ||| kS) c = false
  newline : ∀ c ∈ t, isNl c = true → has kW c = true

theorem mem_slice {α : Type} {l : List α} {i e : Nat} {c : α} (h : c ∈ slice l i e) : c ∈ l :=
  List.mem_of_mem_take (List.mem_of_mem_drop h)

theorem ranges_slices (ht : t = S.map Prod.fst) (hplain : PlainText t) :
    (ranges t).map (fun be => slice S be.1 be.2) =
        [numbersRule, kanaHanRule, wordsRule].foldl
          (fun pieces r => pieces.flatMap (isolate (comap Prod.fst r) [])) [S] ∧
      Within t.length (ranges t) := by
  have hlength : t.length = S.length := by rw [ht, List.length_map]
  have hwhole : ∀ be ∈ [((0, t.length) : Nat × Nat)], be.1 ≤ be.2 ∧ be.2 ≤ t.length := by
    intro be hbe
    rw [List.mem_singleton.mp hbe]
    exact ⟨Nat.zero_le _, Nat.le_refl _⟩
  have hweak : ∀ {pieces : List (Nat × Nat)}, Within t.length pieces →
      ∀ be ∈ pieces, be.1 ≤ be.2 ∧ be.2 ≤ t.length :=
    fun h be hbe => ⟨Nat.le_of_lt (h be hbe).1, (h be hbe).2⟩
  obtain ⟨h1, hin1⟩ := cutAll_slices ht (fun i e hi he => numbers_eq hi he) hwhole
  obtain ⟨h2, hin2⟩ := cutAll_slices ht (fun i e _ he => kanaHan_eq he) (hweak hin1)
  obtain ⟨h3, hin3⟩ := cutAll_slices ht (fun i e hi he => words_eq hi he
    (fun c hc => hplain.blank c (mem_slice hc)) fun c hc => hplain.newline c (mem_slice hc))
    (hweak hin2)
  refine ⟨?_, hin3⟩
  show (cutAll t (cutAll t (cutAll t [(0, t.length)] numbers) kanaHan) words).map _ = _
  rw [h3, h2, h1]
  have hS : ([((0, t.length) : Nat × Nat)].map fun be => slice S be.1 be.2) = [S] := by
    show [slice S 0 t.length] = [S]
    rw [hlength, OrderedRegex.slice_all]
  rw [hS]
  exact Eq.refl _

end Splits

section Texts

variable {of : Nat → UInt8} {text : Bytes}

theorem symbolLength_le {i : Nat} (hi : i < text.length) :
    i + symbolLength (text.drop i) ≤ text.length := by
  have hdrop := List.drop_eq_getElem_cons hi
  unfold symbolLength
  split
  next => omega
  next =>
    cases hvalid : Utf8.validLength (text.drop i) with
    | none => show i + 0 ≤ text.length; omega
    | some n =>
      rw [hdrop] at hvalid
      have h := Utf8.validLength_le hvalid
      rw [List.length_drop] at h
      show i + n ≤ text.length
      omega

theorem codePoints_eq (of : Nat → UInt8) (text : Bytes) (i : Nat) :
    codePoints of text i = (symbols of text i).map Prod.fst := by
  fun_induction codePoints of text i with
  | case1 i hi ih =>
    rw [symbols, if_pos hi, List.map_cons, ih]
  | case2 i hi =>
    rw [symbols, if_neg hi]
    exact Eq.refl _

theorem symbols_bytes (of : Nat → UInt8) (text : Bytes) (i : Nat) :
    (symbols of text i).flatMap Prod.snd = text.drop i := by
  fun_induction symbols of text i with
  | case1 i hi ih =>
    rw [List.flatMap_cons, ih, ← List.drop_drop, List.take_append_drop]
  | case2 i hi =>
    rw [List.drop_of_length_le (Nat.le_of_not_lt hi)]
    exact Eq.refl _

theorem symbols_ne (of : Nat → UInt8) (text : Bytes) (i : Nat) :
    ∀ s ∈ symbols of text i, s.2 ≠ [] := by
  fun_induction symbols of text i with
  | case1 i hi ih =>
    intro s hs
    rcases List.mem_cons.mp hs with rfl | hs
    · intro h
      have hlength := congrArg List.length h
      have hpos := symbolLength_pos (text.drop i)
      rw [List.length_take, List.length_drop, List.length_nil] at hlength
      omega
    · exact ih s hs
  | case2 i hi => exact fun s hs => absurd hs List.not_mem_nil

/-- The bytes before the `k`-th character. -/
def offset (S : List (CodePoint × Bytes)) (k : Nat) : Nat :=
  ((S.take k).flatMap Prod.snd).length

theorem symbols_place (of : Nat → UInt8) (text : Bytes) (i k : Nat)
    (hk : k < (symbols of text i).length) :
    ((symbols of text i)[k]).1.place = (i + offset (symbols of text i) k) % 2 ^ 32 := by
  fun_induction symbols of text i generalizing k with
  | case1 i hi ih =>
    cases k with
    | zero => exact Eq.refl _
    | succ k =>
      have hin := symbolLength_le hi
      have hbytes : ((text.drop i).take (symbolLength (text.drop i))).length =
          symbolLength (text.drop i) := by
        rw [List.length_take, List.length_drop]
        omega
      rw [List.getElem_cons_succ, ih k (Nat.lt_of_succ_lt_succ hk)]
      unfold offset
      rw [List.take_succ_cons, List.flatMap_cons, List.length_append, hbytes, Nat.add_assoc]
  | case2 i hi => exact absurd hk (Nat.not_lt_zero k)

theorem offset_le (S : List (CodePoint × Bytes)) {b e : Nat} (h : b ≤ e) :
    offset S b ≤ offset S e := by
  have hsplit : S.take e = S.take b ++ (S.take e).drop b := by
    have htake : (S.take e).take b = S.take b := by
      rw [List.take_take, Nat.min_eq_left h]
    rw [← htake, List.take_append_drop]
  unfold offset
  rw [hsplit, List.flatMap_append, List.length_append]
  exact Nat.le_add_right _ _

theorem flatMap_drop (S : List (CodePoint × Bytes)) (k : Nat) :
    (S.flatMap Prod.snd).drop (offset S k) = (S.drop k).flatMap Prod.snd := by
  have hsplit : S.flatMap Prod.snd = (S.take k).flatMap Prod.snd ++ (S.drop k).flatMap Prod.snd := by
    rw [← List.flatMap_append, List.take_append_drop]
  rw [hsplit]
  exact List.drop_left

/-- A piece's text is its characters' bytes, where no place is past 32 bits. -/
theorem textOf_eq (hlong : text.length ≤ 2 ^ 32) {be : Nat × Nat}
    (hlt : be.1 < be.2) (hin : be.2 ≤ (codePoints of text 0).length) :
    textOf text (codePoints of text 0) be =
      (slice (symbols of text 0) be.1 be.2).flatMap Prod.snd := by
  obtain ⟨b, e⟩ := be
  have hbytes := symbols_bytes of text 0
  rw [List.drop_zero] at hbytes
  have hcodes := codePoints_eq of text 0
  have hplaces := symbols_place of text 0
  have hne := symbols_ne of text 0
  rw [hcodes, List.length_map] at hin
  rw [hcodes]
  generalize symbols of text 0 = S at hbytes hplaces hne hin ⊢
  dsimp only at hlt hin ⊢
  have hoffset : ∀ k < S.length, offset S k < text.length := by
    intro k hk
    have hdrop := flatMap_drop S k
    have hcons : (S.drop k).flatMap Prod.snd ≠ [] := by
      rw [List.drop_eq_getElem_cons hk, List.flatMap_cons]
      exact fun h => hne _ (List.getElem_mem hk) (List.append_eq_nil_iff.mp h).1
    by_contra hge
    rw [hbytes, List.drop_of_length_le (Nat.le_of_not_lt hge)] at hdrop
    exact hcons hdrop.symm
  have hplace : ∀ k < S.length, placeOf (S.map Prod.fst) k = offset S k := by
    intro k hk
    have hmod := hplaces k hk
    rw [Nat.zero_add, Nat.mod_eq_of_lt (Nat.lt_of_lt_of_le (hoffset k hk) hlong)] at hmod
    unfold placeOf
    rw [List.getElem?_map, List.getElem?_eq_getElem hk]
    exact hmod
  have hstop : (if e < (S.map Prod.fst).length then placeOf (S.map Prod.fst) e else text.length) =
      offset S e := by
    split
    next h => exact hplace e (by rw [List.length_map] at h; exact h)
    next h =>
      rw [List.length_map] at h
      unfold offset
      rw [List.take_of_length_le (Nat.le_of_not_lt h), hbytes]
  have hmono := offset_le S (Nat.le_of_lt hlt)
  have hrange : offset S e - offset S b = ((slice S b e).flatMap Prod.snd).length := by
    have hsplit : S.take e = S.take b ++ slice S b e := by
      have htake : (S.take e).take b = S.take b := by
        rw [List.take_take, Nat.min_eq_left (Nat.le_of_lt hlt)]
      unfold slice
      rw [← htake, List.take_append_drop]
    unfold offset
    rw [hsplit, List.flatMap_append, List.length_append, Nat.add_sub_cancel_left]
  have hrest : S.drop b = slice S b e ++ S.drop e := by
    have hdrop : slice S b e = (S.drop b).take (e - b) := by
      unfold slice
      rw [List.take_drop, Nat.add_sub_cancel' (Nat.le_of_lt hlt)]
    have hend : S.drop e = (S.drop b).drop (e - b) := by
      rw [List.drop_drop, Nat.add_sub_cancel' (Nat.le_of_lt hlt)]
    rw [hdrop, hend, List.take_append_drop]
  unfold textOf
  dsimp only
  rw [hstop, hplace b (by omega), if_pos hmono, ← hbytes, flatMap_drop, hrest, List.flatMap_append,
    hrange]
  exact List.take_left

/-- The bits a character's bytes bring its code to. -/
theorem continued_foldl {rest : Bytes} {count code result : Nat}
    (h : Utf8.continued rest count code = some (some result)) :
    (rest.take count).foldl (fun cp b => cp <<< 6 ||| (b.toNat &&& 0x3F)) code = result := by
  fun_induction Utf8.continued rest count code with
  | case1 rest code =>
    rw [List.take_zero]
    exact Option.some.inj (Option.some.inj h)
  | case2 count code => cases h
  | case3 code c cs count htail => cases h
  | case4 code c cs count htail ih =>
    rw [List.take_succ_cons, List.foldl_cons]
    exact ih h

theorem codeOf_ascii {c : UInt8} (hc : c.toNat < 0x80) (rest : Bytes) (of : Nat → UInt8) :
    codeOf (c :: rest) = c.toNat ∧ bitsOf of (c :: rest) = of c.toNat := by
  have hvalid : Utf8.validLength (c :: rest) = some 1 := by
    rw [Utf8.validLength, if_pos hc]
  have hcode : codeOf (c :: rest) = c.toNat := by
    unfold codeOf
    rw [hvalid]
    exact Eq.refl _
  refine ⟨hcode, ?_⟩
  unfold bitsOf
  rw [hvalid, hcode]
  exact Eq.refl _

/-- No bytes past ASCII are read as an ASCII character. -/
theorem codeOf_high {c : UInt8} (hc : ¬ c.toNat < 0x80) (rest : Bytes) :
    0x80 ≤ codeOf (c :: rest) := by
  unfold codeOf
  dsimp only
  split
  next hlen =>
    cases hvalid : Utf8.validLength (c :: rest) with
    | none =>
      rw [hvalid] at hlen
      exact absurd hlen (by decide)
    | some n =>
      rw [hvalid, Option.getD_some] at hlen
      simp only [Utf8.validLength, if_neg hc] at hvalid
      split at hvalid
      next => exact absurd (Option.some.inj hvalid) (by omega)
      next count code minimum hlead =>
        split at hvalid
        next => exact absurd (Option.some.inj hvalid) (by omega)
        next =>
          split at hvalid
          next => cases hvalid
          next => exact absurd (Option.some.inj hvalid) (by omega)
          next result hcont =>
            split at hvalid
            next => exact absurd (Option.some.inj hvalid) (by omega)
            next hok =>
              have hn := Option.some.inj hvalid
              have hfold := continued_foldl hcont
              have hcode : code = c.toNat &&& (0x7F >>> n) := by
                subst hn
                unfold Utf8.lead at hlead
                split at hlead
                next => cases hlead; exact Eq.refl _
                next =>
                  split at hlead
                  next => cases hlead; exact Eq.refl _
                  next =>
                    split at hlead
                    next => cases hlead; exact Eq.refl _
                    next => cases hlead
              have hmin : 0x80 ≤ minimum := by
                rcases Utf8.lead_some hlead with h | h | h
                · omega
                · omega
                · omega
              rw [Option.getD_some, List.drop_one, List.tail_cons, List.getD_cons_zero, ← hcode,
                ← hn, Nat.add_sub_cancel, hfold]
              omega
  next => exact Nat.le_of_not_lt hc

theorem plainText (hof : Plain of) (text : Bytes) (i : Nat) :
    PlainText (codePoints of text i) := by
  have hascii : ∀ c ∈ codePoints of text i, c.cp < 0x80 → c.bits = of c.cp := by
    fun_induction codePoints of text i with
    | case1 i hi ih =>
      intro c hc hlow
      rcases List.mem_cons.mp hc with rfl | hc
      · dsimp only at hlow ⊢
        rw [List.drop_eq_getElem_cons hi] at hlow ⊢
        by_cases hbyte : text[i].toNat < 0x80
        · obtain ⟨hcode, hbits⟩ := codeOf_ascii hbyte (text.drop (i + 1)) of
          rw [hcode, hbits]
        · have hhigh := codeOf_high hbyte (text.drop (i + 1))
          omega
      · exact ih c hc hlow
    | case2 i hi => exact fun c hc => absurd hc List.not_mem_nil
  constructor
  · intro c hc hblank
    have hcp : c.cp = 32 := beq_iff_eq.mp hblank
    unfold has
    rw [hascii c hc (by omega), hcp, hof.blank]
    exact Eq.refl _
  · intro c hc hnl
    rcases Bool.or_eq_true_iff.mp hnl with h | h
    · have hcp : c.cp = 13 := beq_iff_eq.mp h
      unfold has
      rw [hascii c hc (by omega), hcp]
      exact bne_iff_ne.mpr hof.cr
    · have hcp : c.cp = 10 := beq_iff_eq.mp h
      unfold has
      rw [hascii c hc (by omega), hcp]
      exact bne_iff_ne.mpr hof.lf

theorem splits_flatten (of : Nat → UInt8) (text : Bytes) :
    (splits of text).flatten = symbols of text 0 := by
  have hstep : ∀ (r : Regex CodePoint) (pieces : List (List (CodePoint × Bytes))),
      (pieces.flatMap (isolate (comap Prod.fst r) [])).flatten = pieces.flatten := by
    intro r pieces
    induction pieces with
    | nil => exact Eq.refl _
    | cons piece pieces ih =>
      rw [List.flatMap_cons, List.flatten_append, ih, OrderedRegex.isolate_flatten, List.nil_append,
        List.flatten_cons]
  show List.flatten (List.flatMap _ (List.flatMap _ (List.flatMap _ _))) = _
  rw [hstep, hstep, hstep, List.flatten_singleton]

end Texts

/-- Where the classes are plain and no place is past 32 bits, the pieces are the three splits'. -/
theorem pretokenize_splits {of : Nat → UInt8} (hof : Plain of) {text : Bytes}
    (hlong : text.length ≤ 2 ^ 32) :
    pretokenize of text = (splits of text).map (fun piece => piece.flatMap Prod.snd) ∧
      (pretokenize of text).flatten = text ∧ ∀ piece ∈ pretokenize of text, piece ≠ [] := by
  have hcodes := codePoints_eq of text 0
  obtain ⟨hslices, hwithin⟩ := ranges_slices hcodes (plainText hof text 0)
  have hpieces : pretokenize of text =
      (ranges (codePoints of text 0)).map fun be =>
        (slice (symbols of text 0) be.1 be.2).flatMap Prod.snd := by
    apply List.map_congr_left
    intro be hbe
    exact textOf_eq hlong (hwithin be hbe).1 (hwithin be hbe).2
  have hsplits : pretokenize of text =
      (splits of text).map fun piece => piece.flatMap Prod.snd := by
    unfold splits
    rw [hpieces, ← hslices, List.map_map]
    exact Eq.refl _
  refine ⟨hsplits, ?_, fun piece hpiece hempty => ?_⟩
  · have hbytes := symbols_bytes of text 0
    rw [← splits_flatten of text, List.drop_zero, ← List.flatMap_id, List.flatMap_assoc] at hbytes
    rw [hsplits]
    exact hbytes
  · rw [hpieces] at hpiece
    obtain ⟨be, hbe, rfl⟩ := List.mem_map.mp hpiece
    obtain ⟨hlt, hin⟩ := hwithin be hbe
    rw [hcodes, List.length_map] at hin
    rw [OrderedRegex.slice_cons hlt hin, List.flatMap_cons] at hempty
    exact symbols_ne of text 0 _ (List.getElem_mem _) (List.append_eq_nil_iff.mp hempty).1

/-- Classes that give a space punctuation. -/
def spaceMark (cp : Nat) : UInt8 := if cp = 32 then kP else 0

/-- Classes that know one digit. -/
def digitOnly (cp : Nat) : UInt8 := if cp = 49 then kN else 0

theorem pretokenize_splits_plain :
    pretokenize (fun cp => if cp ≤ 32 then kW else kL) [97, 32, 98] =
        (splits (fun cp => if cp ≤ 32 then kW else kL) [97, 32, 98]).map
          (fun piece => piece.flatMap Prod.snd) ∧
      (pretokenize (fun cp => if cp ≤ 32 then kW else kL) [97, 32, 98]).flatten = [97, 32, 98] ∧
      ¬ ∃ piece ∈ pretokenize (fun cp => if cp ≤ 32 then kW else kL) [97, 32, 98], piece = [] := by
  have hplain : Plain fun cp => if cp ≤ 32 then kW else kL :=
    ⟨by decide, by decide, by decide⟩
  have hlong : [(97 : UInt8), 32, 98].length ≤ 2 ^ 32 := by decide
  obtain ⟨hsplits, hflatten, hne⟩ := pretokenize_splits hplain hlong
  exact ⟨hsplits, hflatten, fun h => h.elim fun piece hpiece => hne piece hpiece.1 hpiece.2⟩

section Unmatched

variable {t : List CodePoint} {i e : Nat}

theorem any_none {p : CodePoint → Bool} (h : ∀ c ∈ t, p c = false) (i : Nat) :
    t[i]?.any p = false := by
  cases hi : t[i]? with
  | none => exact Eq.refl _
  | some c => exact h c (List.mem_of_getElem? hi)

theorem numbers_none (h : t[i]?.any (has kN) = false) : numbers t i e = 0 := by
  unfold numbers
  rw [OrderedRegex.scan_stop h, Nat.sub_self]

theorem kanaHan_none (h : ∀ c ∈ t, isKanaHan c = false) : kanaHan t i e = 0 := by
  unfold kanaHan
  rw [OrderedRegex.scan_stop (any_none h i), Nat.sub_self]

theorem words_none (hletter : ∀ c ∈ t, has (kL ||| kM) c = false)
    (hmark : ∀ c ∈ t, has (kP ||| kS) c = false) (hwhite : ∀ c ∈ t, has kW c = false) :
    words t i e = 0 := by
  have hascii : ∀ c ∈ t, isAsciiMark c = false := by
    intro c hc
    unfold isAsciiMark
    rw [hmark c hc, Bool.and_false]
  have hscan : ∀ {p : CodePoint → Bool}, (∀ c ∈ t, p c = false) → ∀ k, scan p t e k = k :=
    fun h k => OrderedRegex.scan_stop (any_none h k)
  have hspaces : spaces t i e = 0 := by
    unfold spaces
    dsimp only
    rw [hscan hwhite, Nat.sub_self, lastNl]
    dsimp only
    rw [if_neg (by omega), if_neg (by omega)]
  unfold words marks
  dsimp only
  rw [any_none hascii, Bool.false_and, if_neg Bool.false_ne_true, hscan hletter, hscan hletter,
    if_neg (by simp), if_neg (Nat.lt_irrefl i), hscan hmark, if_neg (Nat.lt_irrefl _), hspaces]

theorem cutRange_skip {m : Nat → Nat} {gap k : Nat} (hik : i ≤ k) (hke : k ≤ e)
    (h : ∀ j, i ≤ j → j < k → m j = 0) : cutRange m e gap i = cutRange m e gap k := by
  induction k with
  | zero => rw [Nat.le_zero.mp hik]
  | succ k ih =>
    by_cases hlast : i = k + 1
    · rw [hlast]
    · rw [ih (by omega) (by omega) fun j hj hlt => h j hj (by omega), cutRange,
        if_pos (show k < e by omega), if_pos (h k (by omega) (by omega))]

theorem cutRange_end {m : Nat → Nat} {gap : Nat} (h : gap < e) :
    cutRange m e gap e = [(gap, e)] := by
  rw [cutRange, if_neg (Nat.lt_irrefl e), if_pos h]

theorem cutAll_none {m : List CodePoint → Nat → Nat → Nat} {pieces : List (Nat × Nat)}
    (hpieces : ∀ be ∈ pieces, be.1 < be.2) (h : ∀ be ∈ pieces, ∀ i < be.2, m t i be.2 = 0) :
    cutAll t pieces m = pieces := by
  induction pieces with
  | nil => exact Eq.refl _
  | cons be pieces ih =>
    have hlt := hpieces be List.mem_cons_self
    have ih := ih (fun p hp => hpieces p (List.mem_cons_of_mem _ hp))
      fun p hp => h p (List.mem_cons_of_mem _ hp)
    unfold cutAll at ih ⊢
    rw [List.flatMap_cons, ih, cutRange_skip (Nat.le_of_lt hlt) (Nat.le_refl _)
      fun j _ hj => h be List.mem_cons_self j hj, cutRange_end hlt]
    exact Eq.refl _

/-- Where every byte is a character of its own. -/
theorem symbols_ascii (of : Nat → UInt8) (text : Bytes) (i : Nat)
    (hascii : ∀ b ∈ text, b.toNat < 0x80) : symbols of text i =
      (text.drop i).mapIdx fun k b => (⟨b.toNat, (i + k) % 2 ^ 32, of b.toNat⟩, [b]) := by
  fun_induction symbols of text i with
  | case1 i hi ih =>
    have hdrop := List.drop_eq_getElem_cons hi
    have hbyte := hascii _ (List.getElem_mem hi)
    obtain ⟨hcode, hbits⟩ := codeOf_ascii hbyte (text.drop (i + 1)) of
    have hlen : symbolLength (text.drop i) = 1 := by
      rw [hdrop]
      unfold symbolLength
      rw [Utf8.validLength, if_pos hbyte]
      exact Eq.refl _
    rw [ih, hlen, hdrop, List.mapIdx_cons, hcode, hbits]
    refine congrArg₂ List.cons (Eq.refl _) ?_
    congr 1
    funext k b
    rw [Nat.add_right_comm, Nat.add_assoc]
  | case2 i hi =>
    rw [List.drop_of_length_le (Nat.le_of_not_lt hi)]
    exact Eq.refl _

theorem blank_whole : pretokenize spaceMark [32, 1] = [[32, 1]] := by
  have hcodes : codePoints spaceMark [32, 1] 0 = [⟨32, 0, 8⟩, ⟨1, 1, 0⟩] := by
    rw [codePoints_eq, symbols_ascii _ _ _ (by simp)]
    exact Eq.refl _
  have hranges : ranges [⟨32, 0, 8⟩, ⟨1, 1, 0⟩] = [(0, 2)] := by
    have hnone : ∀ c ∈ [(⟨32, 0, 8⟩ : CodePoint), ⟨1, 1, 0⟩], has kN c = false := by decide
    have hpos : ∀ be ∈ [((0, 2) : Nat × Nat)], be.1 < be.2 := by decide
    show cutAll _ (cutAll _ (cutAll _ [(0, 2)] _) _) _ = _
    rw [cutAll_none hpos fun _ _ i _ => numbers_none (any_none hnone i),
      cutAll_none hpos fun _ _ _ _ => kanaHan_none (by decide), cutAll_none hpos]
    intro be hbe i hi
    rw [List.mem_singleton.mp hbe] at hi ⊢
    have hi : i < 2 := hi
    obtain rfl | rfl : i = 0 ∨ i = 1 := by omega
    · simp +decide [words, marks, spaces, scan]
    · simp +decide [words, marks, spaces, scan]
  unfold pretokenize
  dsimp only
  rw [hcodes, hranges]
  exact Eq.refl _

theorem newline_whole {b : UInt8} (hb : b = 13 ∨ b = 10) :
    pretokenize (fun _ => 0) [b, 1] = [[b, 1]] := by
  have hascii : ∀ c ∈ [b, 1], c.toNat < 0x80 := by
    rcases hb with rfl | rfl
    · simp
    · simp
  have hcodes : codePoints (fun _ => 0) [b, 1] 0 = [⟨b.toNat, 0, 0⟩, ⟨1, 1, 0⟩] := by
    rw [codePoints_eq, symbols_ascii _ _ _ hascii]
    exact Eq.refl _
  have hranges : ranges [⟨b.toNat, 0, 0⟩, ⟨1, 1, 0⟩] = [(0, 2)] := by
    have hnone : ∀ mask, ∀ c ∈ [(⟨b.toNat, 0, 0⟩ : CodePoint), ⟨1, 1, 0⟩], has mask c = false := by
      simp [has]
    have hkana : ∀ c ∈ [(⟨b.toNat, 0, 0⟩ : CodePoint), ⟨1, 1, 0⟩], isKanaHan c = false := by
      rcases hb with rfl | rfl
      · decide
      · decide
    have hpos : ∀ be ∈ [((0, 2) : Nat × Nat)], be.1 < be.2 := by decide
    show cutAll _ (cutAll _ (cutAll _ [(0, 2)] _) _) _ = _
    rw [cutAll_none hpos fun _ _ i _ => numbers_none (any_none (hnone kN) i),
      cutAll_none hpos fun _ _ _ _ => kanaHan_none hkana, cutAll_none hpos fun _ _ _ _ =>
        words_none (hnone _) (hnone _) (hnone _)]
  unfold pretokenize
  dsimp only
  rw [hcodes, hranges]
  exact Eq.refl _

theorem blank_split : (splits spaceMark [32, 1]).map (fun piece => piece.flatMap Prod.snd) =
    [[32], [1]] := by
  unfold splits
  rw [symbols_ascii _ _ _ (by simp)]
  show (List.flatMap _ (List.flatMap _ (List.flatMap (isolate (comap Prod.fst numbersRule) [])
    [[(⟨32, 0, 8⟩, [32]), (⟨1, 1, 0⟩, [1])]]))).map _ = _
  rw [List.flatMap_singleton, OrderedRegex.isolate_none (by decide)]
  show (List.flatMap _ (List.flatMap (isolate (comap Prod.fst kanaHanRule) []) [_])).map _ = _
  rw [List.flatMap_singleton, OrderedRegex.isolate_none (by decide)]
  show (List.flatMap (isolate (comap Prod.fst wordsRule) []) [_]).map _ = _
  rw [List.flatMap_singleton, OrderedRegex.isolate_match (k := 1) (by decide) Nat.one_pos,
    OrderedRegex.isolate_none (by decide)]
  exact Eq.refl _

theorem newline_split {b : UInt8} (hb : b = 13 ∨ b = 10) :
    (splits (fun _ => 0) [b, 1]).map (fun piece => piece.flatMap Prod.snd) = [[b], [1]] := by
  unfold splits
  rw [symbols_ascii _ _ _ (by rcases hb with rfl | rfl <;> simp)]
  show (List.flatMap _ (List.flatMap _ (List.flatMap (isolate (comap Prod.fst numbersRule) [])
    [[(⟨b.toNat, 0, 0⟩, [b]), (⟨1, 1, 0⟩, [1])]]))).map _ = _
  rw [List.flatMap_singleton, OrderedRegex.isolate_none (by rcases hb with rfl | rfl <;> decide)]
  show (List.flatMap _ (List.flatMap (isolate (comap Prod.fst kanaHanRule) []) [_])).map _ = _
  rw [List.flatMap_singleton, OrderedRegex.isolate_none (by rcases hb with rfl | rfl <;> decide)]
  show (List.flatMap (isolate (comap Prod.fst wordsRule) []) [_]).map _ = _
  rw [List.flatMap_singleton, OrderedRegex.isolate_match (k := 1)
    (by rcases hb with rfl | rfl <;> decide) Nat.one_pos,
    OrderedRegex.isolate_none (by rcases hb with rfl | rfl <;> decide)]
  exact Eq.refl _

/-- A place past 32 bits is not the byte's: the piece before it is empty. -/
theorem long_empty {n : Nat} (hpos : 0 < n) (hn : n % 2 ^ 32 = 0) :
    [] ∈ pretokenize digitOnly (List.replicate n 1 ++ [49]) := by
  have hascii : ∀ b ∈ List.replicate n (1 : UInt8) ++ [49], b.toNat < 0x80 := by
    intro b hb
    rcases List.mem_append.mp hb with h | h
    · rw [List.eq_of_mem_replicate h]
      decide
    · rw [List.mem_singleton.mp h]
      decide
  have hcodes := codePoints_eq digitOnly (List.replicate n 1 ++ [49]) 0
  rw [symbols_ascii _ _ _ hascii, List.drop_zero] at hcodes
  have hlength : (codePoints digitOnly (List.replicate n 1 ++ [49]) 0).length = n + 1 := by
    rw [hcodes, List.length_map, List.length_mapIdx, List.length_append, List.length_replicate]
    exact Eq.refl _
  have hdigit : (codePoints digitOnly (List.replicate n 1 ++ [49]) 0)[n]? = some ⟨49, 0, kN⟩ := by
    rw [hcodes, List.getElem?_map, List.getElem?_mapIdx, List.getElem?_append_right (by simp)]
    simpa [digitOnly] using hn
  have hother : ∀ i < n, (codePoints digitOnly (List.replicate n 1 ++ [49]) 0)[i]? =
      some ⟨1, i % 2 ^ 32, 0⟩ := by
    intro i hi
    rw [hcodes, List.getElem?_map, List.getElem?_mapIdx, List.getElem?_append_left (by simp [hi])]
    simp [hi, digitOnly]
  unfold pretokenize
  dsimp only
  generalize codePoints digitOnly (List.replicate n 1 ++ [49]) 0 = t at hlength hdigit hother ⊢
  have hmem : ∀ c ∈ t, c = ⟨49, 0, kN⟩ ∨ ∃ place, c = ⟨1, place, 0⟩ := by
    intro c hc
    obtain ⟨k, hk, rfl⟩ := List.mem_iff_getElem.mp hc
    rw [hlength] at hk
    by_cases hlast : k = n
    · subst hlast
      exact .inl (Option.some.inj ((List.getElem?_eq_getElem _).symm.trans hdigit))
    · exact .inr ⟨_, Option.some.inj ((List.getElem?_eq_getElem _).symm.trans
        (hother k (by omega)))⟩
  have hmask : ∀ mask, kN &&& mask = 0 → ∀ c ∈ t, has mask c = false := by
    intro mask hm c hc
    unfold has
    rcases hmem c hc with rfl | ⟨place, rfl⟩
    · rw [hm]
      exact Eq.refl _
    · simp
  have hkana : ∀ c ∈ t, isKanaHan c = false := by
    intro c hc
    rcases hmem c hc with rfl | ⟨place, rfl⟩
    · decide
    · exact Eq.refl _
  have hnumber : numbers t n (n + 1) = 1 := by
    unfold numbers
    rw [show min (n + 1) (n + 3) = n + 1 by omega, scan, if_pos (Nat.lt_succ_self n), hdigit,
      Option.any_some, if_pos (by decide), scan, if_neg (Nat.lt_irrefl _), Nat.add_sub_cancel_left]
  have hother' : ∀ i, 0 ≤ i → i < n → numbers t i (n + 1) = 0 := by
    intro i _ hi
    apply numbers_none
    rw [hother i hi]
    exact (bne_eq_false_iff_eq.mpr (UInt8.zero_and : 0 &&& kN = 0))
  have hnumbers : cutAll t [(0, t.length)] numbers = [(0, n), (n, n + 1)] := by
    unfold cutAll
    rw [hlength, List.flatMap_singleton, cutRange_skip (Nat.zero_le n) (Nat.le_succ n) hother',
      cutRange, if_pos (Nat.lt_succ_self n), if_neg (by omega), if_pos hpos, hnumber, cutRange,
      if_neg (Nat.lt_irrefl _), if_neg (Nat.lt_irrefl _)]
    exact Eq.refl _
  have hpieces : ∀ be ∈ [((0, n) : Nat × Nat), (n, n + 1)], be.1 < be.2 := by
    intro be hbe
    simp only [List.mem_cons, List.not_mem_nil, or_false] at hbe
    rcases hbe with rfl | rfl
    · exact hpos
    · exact Nat.lt_succ_self n
  have hranges : ranges t = [(0, n), (n, n + 1)] := by
    show cutAll t (cutAll t (cutAll t [(0, t.length)] numbers) kanaHan) words = _
    rw [hnumbers, cutAll_none hpieces fun _ _ _ _ => kanaHan_none hkana,
      cutAll_none hpieces fun _ _ _ _ => words_none (hmask _ (by decide)) (hmask _ (by decide))
        (hmask _ (by decide))]
  have hstart : placeOf t 0 = 0 := by
    unfold placeOf
    rw [hother 0 hpos]
    exact Nat.zero_mod _
  have hstop : placeOf t n = 0 := by
    unfold placeOf
    rw [hdigit]
    exact Eq.refl _
  rw [hranges]
  apply List.mem_cons.mpr
  left
  unfold textOf
  dsimp only
  rw [hlength, if_pos (Nat.lt_succ_self n), hstart, hstop, if_pos (Nat.le_refl 0), Nat.sub_zero,
    List.take_zero]

/-- A space with punctuation, a newline that is no white space and a place past 32 bits. -/
theorem splits_missed :
    pretokenize spaceMark [32, 1] ≠
        (splits spaceMark [32, 1]).map (fun piece => piece.flatMap Prod.snd) ∧
      pretokenize (fun _ => 0) [13, 1] ≠
        (splits (fun _ => 0) [13, 1]).map (fun piece => piece.flatMap Prod.snd) ∧
      pretokenize (fun _ => 0) [10, 1] ≠
        (splits (fun _ => 0) [10, 1]).map (fun piece => piece.flatMap Prod.snd) ∧
      [] ∈ pretokenize digitOnly (List.replicate (2 ^ 32) 1 ++ [49]) := by
  refine ⟨?_, ?_, ?_, long_empty (Nat.two_pow_pos 32) (Nat.mod_self _)⟩
  · rw [blank_whole, blank_split]
    decide
  · rw [newline_whole (.inl (Eq.refl _)), newline_split (.inl (Eq.refl _))]
    decide
  · rw [newline_whole (.inr (Eq.refl _)), newline_split (.inr (Eq.refl _))]
    decide

end Unmatched

end JoyaiPieces

end Llmx
