import Llmx.ReplySplit
import Llmx.StopTexts

namespace Llmx

/-- A reply's text cut at the first stop text, as far as it is still open. -/
structure StopTrim where
  held : Bytes
  hit : Bool
deriving DecidableEq, Repr

namespace StopTrim

open StopTexts (IsAt Open first upTo)

/-- Where a text is first in another. -/
def find (text : Bytes) : Bytes → Option Nat
  | [] => if text = [] then some 0 else none
  | c :: cs => if text.isPrefixOf (c :: cs) then some 0 else (find text cs).map (· + 1)

/-- The smaller of two places, none being past every other. -/
def least : Option Nat → Option Nat → Option Nat
  | none, b => b
  | a, none => a
  | some a, some b => some (min a b)

/-- Where the first stop text is in what is held. -/
def cut (held : Bytes) : List Bytes → Option Nat
  | [] => none
  | s :: stops => if s = [] then cut held stops else least (find s held) (cut held stops)

/-- The longest end from `len` bytes down that begins `s`, where it is longer than `keep`. -/
def longerEnd (s held : Bytes) (keep : Nat) : Nat → Nat
  | 0 => keep
  | len + 1 =>
    if len + 1 ≤ keep then keep
    else if held.drop (held.length - (len + 1)) = s.take (len + 1) then len + 1
    else longerEnd s held keep len

/-- The longest end of `held` a stop text may still grow from; an empty one's length less one is
past every other. -/
def openEnd (held : Bytes) : List Bytes → Nat → Nat
  | [], keep => keep
  | s :: stops, keep =>
    openEnd held stops
      (longerEnd s held keep (if s = [] then held.length else min (s.length - 1) held.length))

/-- The part of `piece`, with what was held, that is given out. -/
def feed (stops : List Bytes) (t : StopTrim) (piece : Bytes) : Bytes × StopTrim :=
  if t.hit then ([], t)
  else
    let held := t.held ++ piece
    match cut held stops with
    | some i => (held.take i, ⟨[], true⟩)
    | none =>
      let keep := openEnd held stops 0
      (held.take (held.length - keep), ⟨held.drop (held.length - keep), false⟩)

def finish (t : StopTrim) : Bytes × StopTrim := (t.held, { t with held := [] })

/-- What feeding the pieces gives out, and the state after. -/
def feedAll (stops : List Bytes) : StopTrim → List Bytes → Bytes × StopTrim
  | t, [] => ([], t)
  | t, piece :: pieces =>
    let fed := t.feed stops piece
    let rest := feedAll stops fed.2 pieces
    (fed.1 ++ rest.1, rest.2)

def new : StopTrim := ⟨[], false⟩

/-- What the pieces give out. -/
def given (stops : List Bytes) (pieces : List Bytes) : Bytes := (feedAll stops new pieces).1

/-- A reply's text in pieces, with its end where no stop text was hit. -/
def trimmed (stops : List Bytes) (pieces : List Bytes) : Bytes :=
  let fed := feedAll stops new pieces
  if fed.2.hit then fed.1 else fed.1 ++ fed.2.finish.1

variable {stops : List Bytes} {held : Bytes}

theorem find_eq {text : Bytes} (hne : text ≠ []) (held : Bytes) :
    find text held = first [text] held := by
  induction held with
  | nil => exact if_neg hne
  | cons c cs ih =>
    rw [find, first, ih]
    simp [hne]

theorem isAt_cons {s : Bytes} {i : Nat} :
    IsAt (s :: stops) held i ↔ IsAt [s] held i ∨ IsAt stops held i := by
  simp only [IsAt, List.exists_mem_cons_iff, List.mem_singleton, exists_eq_left]

theorem first_cons (s : Bytes) (stops : List Bytes) (held : Bytes) :
    first (s :: stops) held = least (first [s] held) (first stops held) := by
  cases hone : first [s] held with
  | none =>
    have hnot := StopTexts.first_none.mp hone
    exact StopTexts.first_congr fun i => isAt_cons.trans (or_iff_right (hnot i))
  | some a =>
    obtain ⟨ha, hless⟩ := StopTexts.first_some.mp hone
    cases hrest : first stops held with
    | none =>
      have hnot := StopTexts.first_none.mp hrest
      refine (StopTexts.first_congr fun i => ?_).trans hone
      exact isAt_cons.trans (or_iff_left (hnot i))
    | some b =>
      obtain ⟨hb, hless'⟩ := StopTexts.first_some.mp hrest
      refine StopTexts.first_some.mpr ⟨isAt_cons.mpr ?_, fun j hj hat => ?_⟩
      · rcases Nat.le_total a b with hle | hle
        · exact .inl (by rw [Nat.min_eq_left hle]; exact ha)
        · exact .inr (by rw [Nat.min_eq_right hle]; exact hb)
      · rcases isAt_cons.mp hat with h | h
        · exact hless j (by omega) h
        · exact hless' j (by omega) h

/-- The cut is at the first stop text. -/
theorem cut_eq (held : Bytes) (stops : List Bytes) : cut held stops = first stops held := by
  induction stops with
  | nil =>
    symm
    apply StopTexts.first_none.mpr
    rintro i ⟨t, ht, -⟩
    exact absurd ht List.not_mem_nil
  | cons s stops ih =>
    rw [cut, ih]
    split
    next hnil =>
      apply StopTexts.first_congr
      intro i
      constructor
      · rintro ⟨t, ht, h⟩
        exact ⟨t, List.mem_cons_of_mem _ ht, h⟩
      · rintro ⟨t, ht, h⟩
        rcases List.mem_cons.mp ht with rfl | ht
        · exact absurd hnil h.1
        · exact ⟨t, ht, h⟩
    next hne => rw [first_cons, find_eq hne]

/-- `k` bytes from the end of `held` begin `s`. -/
def Begins (s held : Bytes) (k : Nat) : Prop := held.drop (held.length - k) = s.take k

theorem longerEnd_spec (s held : Bytes) (keep n : Nat) :
    keep ≤ longerEnd s held keep n ∧
      (longerEnd s held keep n = keep ∨
        longerEnd s held keep n ≤ n ∧ Begins s held (longerEnd s held keep n)) ∧
      ∀ k ≤ n, Begins s held k → k ≤ longerEnd s held keep n := by
  induction n with
  | zero => exact ⟨Nat.le_refl _, .inl (Eq.refl _), fun k hk _ => hk.trans (Nat.zero_le _)⟩
  | succ n ih =>
    rw [longerEnd]
    split
    next hle => exact ⟨Nat.le_refl _, .inl (Eq.refl _), fun k hk _ => hk.trans hle⟩
    next hgt =>
      split
      next heq => exact ⟨by omega, .inr ⟨Nat.le_refl _, heq⟩, fun k hk _ => hk⟩
      next hne =>
        obtain ⟨hkeep, hor, hmost⟩ := ih
        refine ⟨hkeep, ?_, fun k hk hbegins => ?_⟩
        · rcases hor with h | ⟨hle, h⟩
          · exact .inl h
          · exact .inr ⟨hle.trans (Nat.le_succ n), h⟩
        · rcases Nat.lt_or_eq_of_le hk with hlt | rfl
          · exact hmost k (Nat.le_of_lt_succ hlt) hbegins
          · exact absurd hbegins hne

theorem Begins.open {s : Bytes} {k : Nat} (h : Begins s held k) (hs : s ∈ stops)
    (hk : k < s.length) : Open stops (held.drop (held.length - k)) := by
  refine ⟨s, hs, ?_, ?_⟩
  · rw [h]
    exact List.take_prefix _ _
  · rw [h, List.length_take]
    omega

/-- What is kept is an end a stop text may grow from, the longest. -/
theorem openEnd_spec (held : Bytes) (stops : List Bytes) (keep : Nat) :
    keep ≤ openEnd held stops keep ∧
      (openEnd held stops keep = keep ∨ openEnd held stops keep ≤ held.length ∧
        Open stops (held.drop (held.length - openEnd held stops keep))) ∧
      ∀ k ≤ held.length, Open stops (held.drop (held.length - k)) →
        k ≤ openEnd held stops keep := by
  induction stops generalizing keep with
  | nil =>
    refine ⟨Nat.le_refl _, .inl (Eq.refl _), ?_⟩
    rintro k - ⟨t, ht, -⟩
    exact absurd ht List.not_mem_nil
  | cons s stops ih =>
    rw [openEnd]
    generalize hn : (if s = [] then held.length else min (s.length - 1) held.length) = n
    obtain ⟨hkeep, hor, hmost⟩ := longerEnd_spec s held keep n
    obtain ⟨hkeep', hor', hmost'⟩ := ih (longerEnd s held keep n)
    have hcons : ∀ {e : Bytes}, Open stops e → Open (s :: stops) e :=
      fun hopen => hopen.imp fun t h => ⟨List.mem_cons_of_mem _ h.1, h.2⟩
    have hlen : n ≤ held.length := by
      rw [← hn]
      split <;> omega
    refine ⟨hkeep.trans hkeep', ?_, fun k hk hopen => ?_⟩
    · rcases hor' with heq | ⟨hle, hopen⟩
      · rw [heq]
        rcases hor with h | ⟨hle, hbegins⟩
        · exact .inl h
        · by_cases hnil : s = []
          · have hzero := congrArg List.length hbegins
            rw [hnil, List.take_nil, List.length_nil, List.length_drop] at hzero
            rw [hnil] at hkeep hle
            exact .inl (by rw [hnil]; omega)
          · refine .inr ⟨hle.trans hlen, hbegins.open List.mem_cons_self ?_⟩
            have hpos := List.length_pos_iff.mpr hnil
            rw [if_neg hnil] at hn
            omega
      · exact .inr ⟨hle, hcons hopen⟩
    · obtain ⟨t, ht, hpre, hlt⟩ := hopen
      rcases List.mem_cons.mp ht with rfl | ht
      · have hdrop : (held.drop (held.length - k)).length = k := by
          rw [List.length_drop]
          omega
        have hbegins : Begins t held k := by
          have heq := List.prefix_iff_eq_take.mp hpre
          rw [hdrop] at heq
          exact heq
        rw [hdrop] at hlt
        refine (hmost k ?_ hbegins).trans hkeep'
        rw [← hn]
        split <;> omega
      · exact hmost' k hk ⟨t, ht, hpre, hlt⟩

/-- The pieces so far hold no stop text: all of them but what may still grow into one is given
out. -/
structure Over (stops : List Bytes) (t : StopTrim) (out text : Bytes) : Prop where
  hit : t.hit = false
  split : out ++ t.held = text
  clean : first stops text = none
  held : t.held = [] ∨ Open stops t.held
  longest : ∀ i < out.length, ¬ Open stops (text.drop i)

variable {t : StopTrim} {out text : Bytes}

theorem Over.new (stops : List Bytes) : Over stops new [] [] :=
  ⟨Eq.refl _, Eq.refl _, Eq.refl _, .inl (Eq.refl _), fun _ hi => absurd hi (Nat.not_lt_zero _)⟩

/-- A stop text that more text completes begins in what is held or after. -/
theorem Over.place_ge (h : Over stops t out text) {more : Bytes} {i : Nat}
    (hat : IsAt stops (text ++ more) i) : out.length ≤ i := by
  apply Nat.le_of_not_lt
  intro hlt
  have hlen := congrArg List.length h.split
  rw [List.length_append] at hlen
  exact h.longest i hlt (hat.open (StopTexts.first_none.mp h.clean i) (by omega))

theorem Over.first_eq (h : Over stops t out text) (more : Bytes) :
    first stops (text ++ more) = (first stops (t.held ++ more)).map (out.length + ·) := by
  have htext : text ++ more = out ++ (t.held ++ more) := by rw [← h.split, List.append_assoc]
  cases hf : first stops (t.held ++ more) with
  | none =>
    apply StopTexts.first_none.mpr
    intro i hat
    obtain ⟨j, rfl⟩ := Nat.exists_eq_add_of_le (h.place_ge hat)
    rw [htext, StopTexts.isAt_append_left] at hat
    exact StopTexts.first_none.mp hf j hat
  | some k =>
    obtain ⟨hk, hless⟩ := StopTexts.first_some.mp hf
    refine StopTexts.first_some.mpr ⟨?_, fun j hj hat => ?_⟩
    · rw [htext]
      exact StopTexts.isAt_append_left.mpr hk
    · obtain ⟨j, rfl⟩ := Nat.exists_eq_add_of_le (h.place_ge hat)
      rw [htext, StopTexts.isAt_append_left] at hat
      exact hless j (Nat.lt_of_add_lt_add_left hj) hat

/-- A piece that completes no stop text. -/
theorem Over.feed (h : Over stops t out text) {piece : Bytes}
    (hnone : first stops (text ++ piece) = none) :
    Over stops (t.feed stops piece).2 (out ++ (t.feed stops piece).1) (text ++ piece) := by
  have hcut : cut (t.held ++ piece) stops = none := by
    rw [cut_eq]
    rw [h.first_eq] at hnone
    exact Option.map_eq_none_iff.mp hnone
  have htext : out ++ (t.held ++ piece) = text ++ piece := by rw [← List.append_assoc, h.split]
  unfold StopTrim.feed
  rw [if_neg (by rw [h.hit]; exact Bool.false_ne_true)]
  dsimp only
  rw [hcut]
  dsimp only
  obtain ⟨-, hor, hmost⟩ := openEnd_spec (t.held ++ piece) stops 0
  generalize openEnd (t.held ++ piece) stops 0 = keep at hor hmost
  generalize t.held ++ piece = held at htext hor hmost
  refine ⟨Eq.refl _, ?_, hnone, ?_, fun i hi hopen => ?_⟩
  · rw [List.append_assoc, List.take_append_drop, htext]
  · rcases hor with rfl | ⟨-, hopen⟩
    · exact .inl (List.drop_eq_nil_of_le (Nat.le_refl _))
    · exact .inr hopen
  · rw [List.length_append, List.length_take] at hi
    by_cases hlt : i < out.length
    · refine h.longest i hlt ?_
      have hle : i ≤ text.length := by
        have hlen := congrArg List.length h.split
        rw [List.length_append] at hlen
        omega
      rw [List.drop_append_of_le_length hle] at hopen
      obtain ⟨s, hs, hpre, hless⟩ := hopen
      rw [List.length_append] at hless
      exact ⟨s, hs, (List.prefix_append _ _).trans hpre, by omega⟩
    · obtain ⟨j, rfl⟩ := Nat.exists_eq_add_of_le (Nat.le_of_not_lt hlt)
      rw [← htext, ← List.drop_drop, List.drop_left] at hopen
      have hback : held.length - (held.length - j) = j := by omega
      have hkeep := hmost (held.length - j) (Nat.sub_le _ _) (by rw [hback]; exact hopen)
      omega

/-- A piece that completes a stop text. -/
theorem Over.feed_hit (h : Over stops t out text) {piece : Bytes} {i : Nat}
    (hsome : first stops (text ++ piece) = some i) :
    out ++ (t.feed stops piece).1 = (text ++ piece).take i ∧ (t.feed stops piece).2 = ⟨[], true⟩ := by
  rw [h.first_eq] at hsome
  obtain ⟨k, hk, rfl⟩ := Option.map_eq_some_iff.mp hsome
  rw [← cut_eq] at hk
  unfold StopTrim.feed
  rw [if_neg (by rw [h.hit]; exact Bool.false_ne_true)]
  dsimp only
  rw [hk]
  refine ⟨?_, Eq.refl _⟩
  rw [← h.split, List.append_assoc, List.take_length_add_append]

theorem feedAll_hit (pieces : List Bytes) : feedAll stops ⟨[], true⟩ pieces = ([], ⟨[], true⟩) := by
  induction pieces with
  | nil => exact Eq.refl _
  | cons piece pieces ih =>
    show (_ ++ (feedAll stops ⟨[], true⟩ pieces).1, (feedAll stops ⟨[], true⟩ pieces).2) = _
    rw [ih]
    exact Eq.refl _

/-- Pieces fed one after another: none of them completes a stop text, or one does and the text up
to it is given out. -/
theorem Over.feedAll (h : Over stops t out text) (pieces : List Bytes) :
    (first stops (text ++ pieces.flatten) = none ∧
      Over stops (feedAll stops t pieces).2 (out ++ (feedAll stops t pieces).1)
        (text ++ pieces.flatten)) ∨
      ∃ pre post i, pieces = pre ++ post ∧ first stops (text ++ pre.flatten) = some i ∧
        out ++ (feedAll stops t pieces).1 = (text ++ pre.flatten).take i ∧
        (feedAll stops t pieces).2 = ⟨[], true⟩ := by
  induction pieces generalizing t out text with
  | nil =>
    refine .inl ⟨?_, ?_⟩
    · rw [List.flatten_nil, List.append_nil]
      exact h.clean
    · rw [List.flatten_nil, List.append_nil]
      show Over stops t (out ++ []) text
      rw [List.append_nil]
      exact h
  | cons piece pieces ih =>
    have hout : out ++ (StopTrim.feedAll stops t (piece :: pieces)).1 =
        out ++ (t.feed stops piece).1 ++
          (StopTrim.feedAll stops (t.feed stops piece).2 pieces).1 :=
      (List.append_assoc _ _ _).symm
    have hend : (StopTrim.feedAll stops t (piece :: pieces)).2 =
        (StopTrim.feedAll stops (t.feed stops piece).2 pieces).2 := Eq.refl _
    rw [hout, hend, List.flatten_cons, ← List.append_assoc]
    cases hf : first stops (text ++ piece) with
    | none =>
      rcases ih (h.feed hf) with hleft | ⟨pre, post, i, rfl, hi, hcut, hstate⟩
      · exact .inl hleft
      · refine .inr ⟨piece :: pre, post, i, Eq.refl _, ?_, ?_, hstate⟩
        · rw [List.flatten_cons, ← List.append_assoc]
          exact hi
        · rw [List.flatten_cons, ← List.append_assoc]
          exact hcut
    | some i =>
      obtain ⟨hcut, hstate⟩ := h.feed_hit hf
      rw [hstate, feedAll_hit, List.append_nil]
      refine .inr ⟨[piece], pieces, i, Eq.refl _, ?_, ?_, Eq.refl _⟩
      · rw [List.flatten_singleton]
        exact hf
      · rw [List.flatten_singleton]
        exact hcut

/-- A stop text is whole in some first pieces, and one that begins before the first of these in the
text is whole in all of them only. -/
def Overtaken (stops pieces : List Bytes) : Prop :=
  ∃ pre post i j, pieces = pre ++ post ∧ first stops pre.flatten = some i ∧ j < i ∧
    IsAt stops pieces.flatten j

/-- The pieces give the text up to its first stop text, without a stop text, and nothing else on the
way; what is held back on it may still grow into a stop text. -/
structure Cuts (stops pieces : List Bytes) : Prop where
  whole : trimmed stops pieces = upTo stops pieces.flatten
  clean : ∀ i, ¬ IsAt stops (trimmed stops pieces) i
  soFar : ∀ pre post, pieces = pre ++ post → given stops pre <+: upTo stops pieces.flatten
  waits : ∀ pre post, pieces = pre ++ post → first stops pre.flatten = none →
    ∃ held, given stops pre ++ held = pre.flatten ∧ (held = [] ∨ Open stops held)

variable {pieces : List Bytes}

theorem given_cases (stops pieces : List Bytes) :
    (first stops pieces.flatten = none ∧
      Over stops (feedAll stops new pieces).2 (given stops pieces) pieces.flatten) ∨
      ∃ pre post i, pieces = pre ++ post ∧ first stops pre.flatten = some i ∧
        given stops pieces = pre.flatten.take i ∧
        (feedAll stops new pieces).2 = ⟨[], true⟩ :=
  (Over.new stops).feedAll pieces

/-- What comes out is the text up to the first stop text of some first pieces, all of them where
these have none. -/
theorem trimmed_eq (stops pieces : List Bytes) : ∃ pre post, pieces = pre ++ post ∧
    trimmed stops pieces = upTo stops pre.flatten ∧ (first stops pre.flatten = none → post = []) := by
  unfold trimmed
  dsimp only
  rcases given_cases stops pieces with ⟨hnone, hover⟩ | ⟨pre, post, i, heq, hi, hgiven, hstate⟩
  · refine ⟨pieces, [], (List.append_nil _).symm, ?_, fun _ => Eq.refl _⟩
    rw [if_neg (by rw [hover.hit]; exact Bool.false_ne_true), StopTexts.upTo_none hnone]
    exact hover.split
  · refine ⟨pre, post, heq, ?_, fun h => ?_⟩
    · rw [if_pos (by rw [hstate]), StopTexts.upTo_some hi]
      exact hgiven
    · rw [hi] at h
      cases h

theorem not_overtaken {pre post : List Bytes} {i : Nat} (h : ¬ Overtaken stops (pre ++ post))
    (hi : first stops pre.flatten = some i) :
    upTo stops (pre ++ post).flatten = pre.flatten.take i := by
  obtain ⟨hat, -⟩ := StopTexts.first_some.mp hi
  have hwhole : first stops (pre ++ post).flatten = some i := by
    refine StopTexts.first_some.mpr ⟨?_, fun j hj hat' => ?_⟩
    · rw [List.flatten_append]
      exact hat.append _
    · exact h ⟨pre, post, i, j, Eq.refl _, hi, hj, hat'⟩
  rw [StopTexts.upTo_some hwhole, List.flatten_append,
    List.take_append_of_le_length (Nat.le_of_lt hat.lt)]

/-- What has been given out while there is no stop text is not cut again. -/
theorem Over.prefix_upTo (h : Over stops t out text) (more : Bytes) :
    out <+: upTo stops (text ++ more) := by
  have hpre : out <+: text ++ more := by
    rw [← h.split, List.append_assoc]
    exact List.prefix_append _ _
  cases hf : first stops (text ++ more) with
  | none =>
    rw [StopTexts.upTo_none hf]
    exact hpre
  | some k =>
    rw [StopTexts.upTo_some hf]
    have hle := h.place_ge (StopTexts.first_some.mp hf).1
    exact List.prefix_take_iff.mpr ⟨hpre, hle⟩

theorem cuts_of_not_overtaken (h : ¬ Overtaken stops pieces) : Cuts stops pieces := by
  have hwhole : trimmed stops pieces = upTo stops pieces.flatten := by
    obtain ⟨pre, post, rfl, htrimmed, hend⟩ := trimmed_eq stops pieces
    rw [htrimmed]
    cases hf : first stops pre.flatten with
    | none => rw [hend hf, List.append_nil]
    | some i => rw [not_overtaken h hf, StopTexts.upTo_some hf]
  refine ⟨hwhole, fun i => ?_, fun pre post heq => ?_, fun pre post heq hnone => ?_⟩
  · rw [hwhole]
    exact StopTexts.not_isAt_upTo
  · rcases given_cases stops pre with ⟨-, hover⟩ | ⟨pre', post', i, hpre, hi, hgiven, -⟩
    · rw [heq, List.flatten_append]
      exact hover.prefix_upTo _
    · rw [hpre, List.append_assoc] at heq
      rw [heq] at h ⊢
      rw [not_overtaken h hi, hgiven]
  · rcases given_cases stops pre with ⟨-, hover⟩ | ⟨pre', post', i, hpre, hi, -, -⟩
    · exact ⟨_, hover.split, hover.held⟩
    · have hat := (StopTexts.first_some.mp hi).1.append post'.flatten
      rw [← List.flatten_append, ← hpre] at hat
      exact absurd hat (StopTexts.first_none.mp hnone i)

theorem feedAll_append (t : StopTrim) (pre post : List Bytes) : feedAll stops t (pre ++ post) =
    ((feedAll stops t pre).1 ++ (feedAll stops (feedAll stops t pre).2 post).1,
      (feedAll stops (feedAll stops t pre).2 post).2) := by
  induction pre generalizing t with
  | nil => exact Eq.refl _
  | cons piece pre ih =>
    rw [List.cons_append, feedAll, ih, feedAll]
    dsimp only
    rw [List.append_assoc]

theorem given_prefix (stops pre post : List Bytes) :
    given stops pre <+: trimmed stops (pre ++ post) := by
  unfold given trimmed
  rw [feedAll_append]
  dsimp only
  split
  · exact List.prefix_append _ _
  · rw [List.append_assoc]
    exact List.prefix_append _ _

/-- A reply is cut at its first stop text however it arrives, except where a piece completes a stop
text before one that begins earlier is whole. -/
theorem stop_trim_cuts_iff (stops pieces : List Bytes) :
    Cuts stops pieces ↔ ¬ Overtaken stops pieces := by
  refine ⟨fun hcuts ⟨pre, post, i, j, heq, hi, hj, hat⟩ => ?_, cuts_of_not_overtaken⟩
  obtain ⟨k, hk, hfirst⟩ := hat.first_le
  have hgiven : given stops pre <+: pieces.flatten.take k := by
    rw [← StopTexts.upTo_some hfirst, ← hcuts.whole, heq]
    exact given_prefix stops pre post
  have hlen := hgiven.length_le
  rw [List.length_take] at hlen
  rcases given_cases stops pre with ⟨hnone, -⟩ | ⟨pre', post', i', hpre, hi', hcut, -⟩
  · rw [hi] at hnone
    cases hnone
  · have hat' := (StopTexts.first_some.mp hi').1
    have hlt := hat'.lt
    have hwhole := hat'.append post'.flatten
    rw [← List.flatten_append, ← hpre] at hwhole
    have hle : i ≤ i' := Nat.le_of_not_lt fun h => (StopTexts.first_some.mp hi).2 i' h hwhole
    rw [hcut, List.length_take] at hlen
    omega

/-- `bc` is whole in the first piece, inside the `abcd` the second one ends. -/
theorem inner_stop_first : ¬ Cuts [ascii ['a', 'b', 'c', 'd'], ascii ['b', 'c']]
    [ascii ['a', 'b', 'c'], ascii ['d']] := by
  intro h
  exact absurd h.whole (by decide)

end StopTrim

end Llmx
