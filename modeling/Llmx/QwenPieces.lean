import Llmx.BytePairs
import Llmx.OrderedRegex

namespace Llmx

namespace QwenPieces

open OrderedRegex (Regex Successive eitherOf eats fitsEach literal maybe plus run scan starts upToLast)

def isSpace (c : UInt8) : Bool :=
  c == ' '.toUInt8 || c == '\t'.toUInt8 || c == '\n'.toUInt8 || c == '\r'.toUInt8 || c == 12 ||
    c == 11

def isAsciiLetter (c : UInt8) : Bool :=
  ('a'.toUInt8 ≤ c && c ≤ 'z'.toUInt8) || ('A'.toUInt8 ≤ c && c ≤ 'Z'.toUInt8)

def isDigit (c : UInt8) : Bool := '0'.toUInt8 ≤ c && c ≤ '9'.toUInt8

/-- A byte of a character past ASCII is a letter. -/
def isLetter (c : UInt8) : Bool := isAsciiLetter c || 0x80 ≤ c

def isNl (c : UInt8) : Bool := c == '\r'.toUInt8 || c == '\n'.toUInt8

def toLower (c : UInt8) : UInt8 :=
  if 'A'.toUInt8 ≤ c ∧ c ≤ 'Z'.toUInt8 then c + 32 else c

def ieq (a b : UInt8) : Bool := toLower a == toLower b

def quote : UInt8 := 39

def contractions : List Bytes :=
  [['s'.toUInt8], ['t'.toUInt8], ascii ['r', 'e'], ascii ['v', 'e'], ['m'.toUInt8],
    ascii ['l', 'l'], ['d'.toUInt8]].map (quote :: ·)

/-- The contraction's letters, in either case. -/
def letters (q : Bytes) : List (UInt8 → Bool) := q.map fun a c => ieq c a

def contraction (text : Bytes) (i : Nat) : Option Nat :=
  if text.getD i 0 = quote then
    (contractions.find? fun q => fitsEach (letters q) (text.drop i)).map fun q => i + q.length
  else none

def word (text : Bytes) (i : Nat) : Option Nat :=
  let c0 := text.getD i 0
  let j := if !isNl c0 && !isLetter c0 && !isDigit c0 then i + 1 else i
  let k := scan isLetter text text.length j
  if j < k then some k else none

def digit (text : Bytes) (i : Nat) : Option Nat :=
  if isDigit (text.getD i 0) then some (i + 1) else none

def isMark (c : UInt8) : Bool := !(isSpace c || isLetter c || isDigit c)

def marks (text : Bytes) (i : Nat) : Option Nat :=
  let j := if text.getD i 0 = ' '.toUInt8 then i + 1 else i
  let k := scan isMark text text.length j
  if j < k then some (scan isNl text text.length k) else none

/-- The last newline from `i` on among `n` bytes. -/
def lastNl (text : Bytes) (i n : Nat) : Option Nat :=
  (List.range' i n).foldl (fun last q => if isNl (text.getD q 0) then some q else last) none

def newlines (text : Bytes) (i : Nat) : Option Nat :=
  let k := scan isSpace text text.length i
  (lastNl text i (k - i)).map (· + 1)

def spacesBefore (text : Bytes) (i : Nat) : Option Nat :=
  let k := scan isSpace text text.length i
  if i < k then
    let e := if k < text.length then k - 1 else k
    if i < e then some e else none
  else none

def spaces (text : Bytes) (i : Nat) : Option Nat :=
  let k := scan isSpace text text.length i
  if i < k then some k else none

/-- Where the piece from `i` on ends, by the first alternative that matches. -/
def cutAt (text : Bytes) (i : Nat) : Option Nat :=
  (contraction text i).or <| (word text i).or <| (digit text i).or <| (marks text i).or <|
    (newlines text i).or <| (spacesBefore text i).or <| spaces text i

/-- The file's expression: contractions in either case; letters after a character that is none of
newline, letter and digit; a digit; other characters after a space, with the newlines after them;
spaces up to their last newline; spaces that end the text or leave one; spaces. -/
def alternatives : List (Regex UInt8) :=
  [eitherOf (contractions.map fun q => literal (letters q)),
    .seq (maybe fun c => !isNl c && !isLetter c && !isDigit c) (plus isLetter),
    .one isDigit,
    .seq (maybe (· == ' '.toUInt8)) (.seq (plus isMark) (.many isNl)),
    .seq (.many isSpace) (plus isNl),
    .seq (plus isSpace) (.notAhead fun c => !isSpace c),
    plus isSpace]

def expression : Regex UInt8 := eitherOf alternatives

section Alternatives

variable {text : Bytes} {i : Nat}

theorem drop_eq (hi : i < text.length) : text.drop i = text.getD i 0 :: text.drop (i + 1) := by
  rw [List.drop_eq_getElem_cons hi, List.getD_eq_getElem?_getD, List.getElem?_eq_getElem hi,
    Option.getD_some]

theorem map_zero_add (o : Option Nat) : o.map (0 + ·) = o := by
  cases o with
  | none => exact Eq.refl _
  | some k => exact congrArg some (Nat.zero_add k)

theorem isNl_isSpace (c : UInt8) (h : isNl c = true) : isSpace c = true := by
  unfold isNl at h
  unfold isSpace
  rcases Bool.or_eq_true_iff.mp h with h | h
  · rw [beq_iff_eq.mp h]
    decide
  · rw [beq_iff_eq.mp h]
    decide

theorem toLower_quote {c : UInt8} (h : ieq c quote = true) : c = quote := by
  have hq : toLower quote = quote := by decide
  unfold ieq at h
  have h := beq_iff_eq.mp h
  rw [hq] at h
  unfold toLower at h
  split at h
  next hupper =>
    have hlow : 65 ≤ c.toNat := UInt8.le_iff_toNat_le.mp hupper.1
    have hhigh : c.toNat ≤ 90 := UInt8.le_iff_toNat_le.mp hupper.2
    have h := congrArg UInt8.toNat h
    rw [UInt8.toNat_add] at h
    have hn : quote.toNat = 39 := by decide
    have h32 : (32 : UInt8).toNat = 32 := by decide
    omega
  next => exact h

theorem contraction_eq (hi : i < text.length) : contraction text i =
    (OrderedRegex.first (eitherOf (contractions.map fun q => literal (letters q)))
      (text.drop i)).map (i + ·) := by
  have hfind : ∀ qs : List Bytes,
      (qs.find? fun q => fitsEach (letters q) (text.drop i)).map (fun q => i + q.length) =
        (OrderedRegex.first (eitherOf (qs.map fun q => literal (letters q)))
          (text.drop i)).map (i + ·) := by
    intro qs
    induction qs with
    | nil =>
      rw [List.map_nil, OrderedRegex.first_eitherOf]
      exact Eq.refl _
    | cons q qs ih =>
      rw [List.map_cons, eitherOf, OrderedRegex.first_either, OrderedRegex.first_literal,
        List.find?_cons]
      by_cases hq : fitsEach (letters q) (text.drop i) = true
      · rw [hq, if_pos (Eq.refl _)]
        exact congrArg (fun n => some (i + n)) (List.length_map _).symm
      · rw [eq_false_of_ne_true hq, if_neg Bool.false_ne_true]
        exact ih
  unfold contraction
  split
  next => exact hfind contractions
  next hne =>
    rw [← hfind]
    have hnone : (contractions.find? fun q => fitsEach (letters q) (text.drop i)) = none := by
      apply List.find?_eq_none.mpr
      intro q hq hfits
      obtain ⟨q', -, rfl⟩ := List.mem_map.mp hq
      rw [drop_eq hi] at hfits
      obtain ⟨hhead, -⟩ := Bool.and_eq_true_iff.mp hfits
      exact hne (toLower_quote hhead)
    rw [hnone]
    exact Eq.refl _

theorem word_eq (hi : i < text.length) : word text i =
    (OrderedRegex.first (.seq (maybe fun c => !isNl c && !isLetter c && !isDigit c) (plus isLetter))
      (text.drop i)).map (i + ·) := by
  have hplus : ∀ j, i ≤ j →
      (if j < scan isLetter text text.length j then some (scan isLetter text text.length j)
        else none) =
        (OrderedRegex.first (plus isLetter) (text.drop j)).map (j + ·) := by
    intro j hj
    rw [OrderedRegex.scan_all, OrderedRegex.first_plus]
    by_cases hpos : 0 < run isLetter (text.drop j)
    · rw [if_pos (by omega), if_pos (OrderedRegex.run_pos_iff.mp hpos)]
      exact Eq.refl _
    · rw [if_neg (by omega), if_neg fun h => hpos (OrderedRegex.run_pos_iff.mpr h)]
      exact Eq.refl _
  unfold word
  dsimp only
  rw [hplus _ (by split <;> omega), OrderedRegex.first_maybe_seq, drop_eq hi,
    OrderedRegex.starts_cons]
  by_cases hc : (!isNl (text.getD i 0) && !isLetter (text.getD i 0) && !isDigit (text.getD i 0)) =
      true
  · have hletter : isLetter (text.getD i 0) = false := by
      have h := (Bool.and_eq_true_iff.mp (Bool.and_eq_true_iff.mp hc).1).2
      simpa using h
    have hnone : OrderedRegex.first (plus isLetter) (text.getD i 0 :: text.drop (i + 1)) = none := by
      rw [OrderedRegex.first_plus, OrderedRegex.starts_cons, hletter]
      exact Eq.refl _
    rw [if_pos hc, if_pos hc, hnone, Option.or_none, List.drop_one, List.tail_cons]
    cases OrderedRegex.first (plus isLetter) (text.drop (i + 1)) with
    | none => exact Eq.refl _
    | some k => exact congrArg some (Nat.add_assoc i 1 k)
  · rw [if_neg hc, if_neg hc, ← drop_eq hi]

theorem digit_eq (hi : i < text.length) :
    digit text i = (OrderedRegex.first (.one isDigit) (text.drop i)).map (i + ·) := by
  unfold digit OrderedRegex.first
  rw [OrderedRegex.ends, drop_eq hi, OrderedRegex.starts_cons]
  split
  next => exact Eq.refl _
  next => exact Eq.refl _

theorem first_marks (s : Bytes) : OrderedRegex.first (.seq (plus isMark) (.many isNl)) s =
    if starts isMark s then some (run isMark s + run isNl (s.drop (run isMark s))) else none := by
  have hplus := OrderedRegex.first_plus isMark s
  split
  next hstart =>
    rw [if_pos hstart] at hplus
    exact OrderedRegex.first_seq_some hplus (OrderedRegex.first_many _ _)
  next hstart =>
    rw [if_neg hstart] at hplus
    exact OrderedRegex.first_seq_none hplus

theorem marks_eq (hi : i < text.length) : marks text i =
    (OrderedRegex.first
      (.seq (maybe (· == ' '.toUInt8)) (.seq (plus isMark) (.many isNl))) (text.drop i)).map
        (i + ·) := by
  have hplus : ∀ j, (if j < scan isMark text text.length j then
        some (scan isNl text text.length (scan isMark text text.length j)) else none) =
      (OrderedRegex.first (.seq (plus isMark) (.many isNl)) (text.drop j)).map (j + ·) := by
    intro j
    rw [OrderedRegex.scan_all, OrderedRegex.scan_all, first_marks, List.drop_drop]
    by_cases hpos : 0 < run isMark (text.drop j)
    · rw [if_pos (by omega), if_pos (OrderedRegex.run_pos_iff.mp hpos)]
      exact congrArg some (Nat.add_assoc j _ _)
    · rw [if_neg (by omega), if_neg fun h => hpos (OrderedRegex.run_pos_iff.mpr h)]
      exact Eq.refl _
  unfold marks
  dsimp only
  rw [hplus, OrderedRegex.first_maybe_seq, drop_eq hi, OrderedRegex.starts_cons]
  by_cases hc : text.getD i 0 = ' '.toUInt8
  · have hnone : OrderedRegex.first (.seq (plus isMark) (.many isNl))
        (text.getD i 0 :: text.drop (i + 1)) = none := by
      rw [first_marks, OrderedRegex.starts_cons, hc]
      exact if_neg (by decide)
    rw [if_pos hc, if_pos (beq_iff_eq.mpr hc), hnone, Option.or_none, List.drop_one,
      List.tail_cons]
    cases OrderedRegex.first (.seq (plus isMark) (.many isNl)) (text.drop (i + 1)) with
    | none => exact Eq.refl _
    | some k => exact congrArg some (Nat.add_assoc i 1 k)
  · rw [if_neg hc, if_neg fun h => hc (beq_iff_eq.mp h), ← drop_eq hi]

theorem lastNl_eq (n : Nat) (hn : i + n ≤ text.length) :
    lastNl text i n = if upToLast isNl ((text.drop i).take n) = 0 then none
      else some (i + upToLast isNl ((text.drop i).take n) - 1) := by
  induction n with
  | zero => exact Eq.refl _
  | succ n ih =>
    have hlt : n < (text.drop i).length := by
      rw [List.length_drop]
      omega
    have hget : (text.drop i)[n] = text.getD (i + n) 0 := by
      rw [List.getElem_drop, List.getD_eq_getElem?_getD, List.getElem?_eq_getElem (by omega),
        Option.getD_some]
    have hlength : ((text.drop i).take n).length = n := by
      rw [List.length_take]
      omega
    have ih := ih (by omega)
    unfold lastNl at ih ⊢
    rw [List.range'_concat, List.foldl_append, List.foldl_cons, List.foldl_nil, ih,
      List.take_succ_eq_append_getElem hlt, OrderedRegex.upToLast_concat, hlength, hget, Nat.one_mul]
    by_cases hnl : isNl (text.getD (i + n) 0) = true
    · rw [if_pos hnl, if_pos hnl, if_neg (Nat.succ_ne_zero n)]
      exact Eq.refl _
    · rw [if_neg hnl, if_neg hnl]

theorem newlines_eq (hi : i < text.length) : newlines text i =
    (OrderedRegex.first (.seq (.many isSpace) (plus isNl)) (text.drop i)).map (i + ·) := by
  have hle := OrderedRegex.run_le isSpace (text.drop i)
  rw [List.length_drop] at hle
  have hsub : i + run isSpace (text.drop i) - i = run isSpace (text.drop i) := by omega
  have htake : (text.drop i).take (run isSpace (text.drop i)) = (text.drop i).takeWhile isSpace :=
    (List.prefix_iff_eq_take.mp (List.takeWhile_prefix isSpace)).symm
  unfold newlines
  dsimp only
  rw [OrderedRegex.scan_all, hsub, lastNl_eq _ (by omega), htake,
    OrderedRegex.first_many_seq_plus fun c _ => isNl_isSpace c]
  by_cases hzero : upToLast isNl ((text.drop i).takeWhile isSpace) = 0
  · rw [if_pos hzero, if_pos hzero]
    exact Eq.refl _
  · rw [if_neg hzero, if_neg hzero]
    refine congrArg some ?_
    show i + upToLast isNl _ - 1 + 1 = i + upToLast isNl _
    omega

theorem spacesBefore_eq (hi : i < text.length) : spacesBefore text i =
    (OrderedRegex.first (.seq (plus isSpace) (.notAhead fun c => !isSpace c))
      (text.drop i)).map (i + ·) := by
  have hle := OrderedRegex.run_le isSpace (text.drop i)
  rw [List.length_drop] at hle
  unfold spacesBefore
  dsimp only
  rw [OrderedRegex.scan_all, OrderedRegex.first_plus_notAhead (fun _ => Eq.refl _), List.length_drop]
  generalize run isSpace (text.drop i) = n at hle ⊢
  by_cases hzero : n = 0
  · rw [if_pos hzero, if_neg (show ¬ i < i + n by omega)]
    exact Eq.refl _
  · rw [if_neg hzero, if_pos (show i < i + n by omega)]
    by_cases hall : n = text.length - i
    · rw [if_pos hall, if_neg (show ¬ i + n < text.length by omega),
        if_pos (show i < i + n by omega)]
      exact Eq.refl _
    · rw [if_neg hall, if_pos (show i + n < text.length by omega)]
      by_cases hone : n = 1
      · rw [if_pos hone, if_neg (show ¬ i < i + n - 1 by omega)]
        exact Eq.refl _
      · rw [if_neg hone, if_pos (show i < i + n - 1 by omega)]
        refine congrArg some ?_
        show i + n - 1 = i + (n - 1)
        omega

theorem spaces_eq : spaces text i =
    (OrderedRegex.first (plus isSpace) (text.drop i)).map (i + ·) := by
  unfold spaces
  dsimp only
  rw [OrderedRegex.scan_all, OrderedRegex.first_plus]
  by_cases hpos : 0 < run isSpace (text.drop i)
  · rw [if_pos (by omega), if_pos (OrderedRegex.run_pos_iff.mp hpos)]
    exact Eq.refl _
  · rw [if_neg (by omega), if_neg fun h => hpos (OrderedRegex.run_pos_iff.mpr h)]
    exact Eq.refl _

/-- The scans find what the expression matches. -/
theorem cutAt_eq (hi : i < text.length) :
    cutAt text i = (OrderedRegex.first expression (text.drop i)).map (i + ·) := by
  unfold cutAt expression alternatives
  rw [contraction_eq hi, word_eq hi, digit_eq hi, marks_eq hi, newlines_eq hi, spacesBefore_eq hi,
    spaces_eq]
  simp only [eitherOf, OrderedRegex.first_either, Option.map_or]
  have hnone : OrderedRegex.first (.one fun _ => false) (text.drop i) = none :=
    OrderedRegex.first_eitherOf [] (text.drop i)
  rw [hnone, Option.map_none, Option.or_none]

theorem expression_eats : eats expression = true := by decide

/-- Some alternative matches every byte. -/
theorem expression_matches (c : UInt8) (s : Bytes) :
    (OrderedRegex.first expression (c :: s)).isSome = true := by
  unfold expression
  rw [OrderedRegex.first_eitherOf, List.findSome?_isSome_iff]
  by_cases hspace : isSpace c = true
  · refine ⟨plus isSpace, by simp [alternatives], ?_⟩
    rw [OrderedRegex.first_plus, OrderedRegex.starts_cons, if_pos hspace]
    exact Eq.refl _
  · by_cases hletter : isLetter c = true
    · refine ⟨.seq (maybe fun c => !isNl c && !isLetter c && !isDigit c) (plus isLetter),
        by simp [alternatives], ?_⟩
      rw [OrderedRegex.first_maybe_seq, OrderedRegex.starts_cons, hletter, if_neg (by simp),
        OrderedRegex.first_plus, OrderedRegex.starts_cons, if_pos hletter]
      exact Eq.refl _
    · by_cases hdigit : isDigit c = true
      · refine ⟨.one isDigit, by simp [alternatives], ?_⟩
        unfold OrderedRegex.first
        rw [OrderedRegex.ends, OrderedRegex.starts_cons, if_pos hdigit]
        exact Eq.refl _
      · refine ⟨.seq (maybe (· == ' '.toUInt8)) (.seq (plus isMark) (.many isNl)),
          by simp [alternatives], ?_⟩
        have hmark : isMark c = true := by
          unfold isMark
          rw [eq_false_of_ne_true hspace, eq_false_of_ne_true hletter,
            eq_false_of_ne_true hdigit]
          exact Eq.refl _
        have hhere : OrderedRegex.first (.seq (plus isMark) (.many isNl)) (c :: s) = some
            (run isMark (c :: s) + run isNl ((c :: s).drop (run isMark (c :: s)))) := by
          rw [first_marks, OrderedRegex.starts_cons, if_pos hmark]
        rw [OrderedRegex.first_maybe_seq, hhere]
        split
        next =>
          cases (OrderedRegex.first (.seq (plus isMark) (.many isNl)) ((c :: s).drop 1)).map
              (1 + ·) with
          | none => exact Eq.refl _
          | some k => exact Eq.refl _
        next => exact Eq.refl _

theorem cutAt_some (hi : i < text.length) :
    ∃ k, OrderedRegex.first expression (text.drop i) = some k ∧ 0 < k ∧ cutAt text i = some (i + k) := by
  have hsome := expression_matches (text.getD i 0) (text.drop (i + 1))
  rw [← drop_eq hi] at hsome
  obtain ⟨k, hk⟩ := Option.isSome_iff_exists.mp hsome
  refine ⟨k, hk, OrderedRegex.first_pos expression_eats hk, ?_⟩
  rw [cutAt_eq hi, hk]
  exact Eq.refl _

end Alternatives

/-- Where the piece from `i` on ends; where no alternative matches, after the bytes its lead byte
announces. -/
def endAt (text : Bytes) (i : Nat) : Nat :=
  (cutAt text i).getD (i + Utf8.leadLength (text.getD i 0))

theorem endAt_gt {text : Bytes} {i : Nat} (hi : i < text.length) : i < endAt text i := by
  obtain ⟨k, -, hk, hcut⟩ := cutAt_some hi
  unfold endAt
  rw [hcut]
  show i < i + k
  omega

def piecesFrom (text : Bytes) (i : Nat) : List Bytes :=
  if i < text.length then
    (text.drop i).take (endAt text i - i) :: piecesFrom text (endAt text i)
  else []
termination_by text.length - i
decreasing_by
  have := endAt_gt (by assumption : i < text.length)
  omega

def pretokenize (text : Bytes) : List Bytes := piecesFrom text 0

theorem piecesFrom_successive (text : Bytes) (i : Nat) :
    Successive expression (text.drop i) (piecesFrom text i) := by
  fun_induction piecesFrom text i with
  | case1 i hi ih =>
    obtain ⟨k, hfirst, hk, hcut⟩ := cutAt_some hi
    have hend : endAt text i = i + k := by
      unfold endAt
      rw [hcut]
      exact Eq.refl _
    rw [hend, Nat.add_sub_cancel_left]
    rw [hend, ← List.drop_drop] at ih
    exact .cons hfirst hk ih
  | case2 i hi =>
    rw [List.drop_of_length_le (Nat.le_of_not_lt hi)]
    exact .nil

/-- The pieces are the expression's matches one after another, with no byte between them, and every
byte begins a match. -/
theorem pretokenize_matches (text : Bytes) :
    Successive expression text (pretokenize text) ∧ (pretokenize text).flatten = text ∧
      (∀ piece ∈ pretokenize text, piece ≠ []) ∧
        ∀ i < text.length, (cutAt text i).isSome = true := by
  have hmatches : Successive expression text (pretokenize text) := piecesFrom_successive text 0
  refine ⟨hmatches, hmatches.flatten, hmatches.ne, fun i hi => ?_⟩
  obtain ⟨k, -, -, hcut⟩ := cutAt_some hi
  rw [hcut]
  exact Eq.refl _

end QwenPieces

end Llmx
