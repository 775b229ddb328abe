import Llmx.ToolCallCuts

namespace Llmx

open Tags

namespace ToolCallSplit

variable {δ : Type}

section Reading

variable (conv : Json.Conversion δ) (single : Bool)

/-- A text in the JSON format: its content, its calls, and the text after each tag that opens or
seems to open a call. -/
structure JsonReading where
  content : Bytes
  calls : List ToolCall
  openings : List Bytes

def readJson (s : Bytes) : JsonReading :=
  match _h : split toolOpen s with
  | none => ⟨s, [], []⟩
  | some (lead, rest) =>
    match _hx : jsonHead conv rest with
    | .opens (name, inner) =>
      match _hc : split toolClose inner with
      | none => ⟨lead.rdropWhile blank, [⟨name, closed inner⟩], [rest]⟩
      | some (args, after) =>
        let next := if single then ⟨[], [], []⟩ else readJson after
        ⟨lead.rdropWhile blank ++ next.content.dropWhile blank,
          ⟨name, closed args⟩ :: next.calls, rest :: next.openings⟩
    | .may =>
      let next := readJson rest
      ⟨lead ++ toolOpen ++ next.content, next.calls, rest :: next.openings⟩
    | .cannot =>
      let next := readJson rest
      ⟨lead ++ toolOpen ++ next.content, next.calls, rest :: next.openings⟩
termination_by s.length
decreasing_by
  · have hlt := split_lt toolOpen_ne _h
    have hin := jsonHead_lt _hx
    have hafter := split_lt toolClose_ne _hc
    omega
  · exact split_lt toolOpen_ne _h
  · exact split_lt toolOpen_ne _h

variable {conv single} {s lead rest inner name : Bytes}

theorem readJson_none (h : split toolOpen s = none) : readJson conv single s = ⟨s, [], []⟩ := by
  rw [readJson]
  split
  next => exact Eq.refl _
  next hs => cases h.symm.trans hs

theorem readJson_refused (h : split toolOpen s = some (lead, rest))
    (hx : ∀ call, jsonHead conv rest ≠ .opens call) : readJson conv single s =
      ⟨lead ++ toolOpen ++ (readJson conv single rest).content, (readJson conv single rest).calls,
        rest :: (readJson conv single rest).openings⟩ := by
  rw [readJson]
  split
  next hs => cases h.symm.trans hs
  next hs =>
    cases h.symm.trans hs
    split
    next hopens => exact absurd hopens (hx _)
    next => exact Eq.refl _
    next => exact Eq.refl _

theorem readJson_endless (h : split toolOpen s = some (lead, rest))
    (hx : jsonHead conv rest = .opens (name, inner)) (hc : split toolClose inner = none) :
    readJson conv single s = ⟨lead.rdropWhile blank, [⟨name, closed inner⟩], [rest]⟩ := by
  rw [readJson]
  split
  next hs => cases h.symm.trans hs
  next hs =>
    cases h.symm.trans hs
    split
    next hopens =>
      cases hx.symm.trans hopens
      split
      next => exact Eq.refl _
      next hclosed => cases hc.symm.trans hclosed
    next hmay => cases hx.symm.trans hmay
    next hcannot => cases hx.symm.trans hcannot

/-- The text after a call, where more of it is read. -/
def readAfter (conv : Json.Conversion δ) (single : Bool) (after : Bytes) : JsonReading :=
  if single then ⟨[], [], []⟩ else readJson conv single after

theorem readJson_closed {args after : Bytes} (h : split toolOpen s = some (lead, rest))
    (hx : jsonHead conv rest = .opens (name, inner))
    (hc : split toolClose inner = some (args, after)) : readJson conv single s =
      ⟨lead.rdropWhile blank ++ (readAfter conv single after).content.dropWhile blank,
        ⟨name, closed args⟩ :: (readAfter conv single after).calls,
        rest :: (readAfter conv single after).openings⟩ := by
  rw [readJson]
  split
  next hs => cases h.symm.trans hs
  next hs =>
    cases h.symm.trans hs
    split
    next hopens =>
      cases hx.symm.trans hopens
      split
      next hnone => cases hc.symm.trans hnone
      next hclosed =>
        cases hc.symm.trans hclosed
        exact Eq.refl _
    next hmay => cases hx.symm.trans hmay
    next hcannot => cases hx.symm.trans hcannot

variable (conv single)

/-- The openings after a call's opening. -/
def argsOpenings (inner : Bytes) : List Bytes :=
  ((split toolClose inner).map fun r => (readAfter conv single r.2).openings).getD []

/-- The openings from the text after an opening tag on. -/
def headOpenings (rest : Bytes) : List Bytes :=
  rest :: match jsonHead conv rest with
    | .opens (_, inner) => argsOpenings conv single inner
    | .may => (readJson conv single rest).openings
    | .cannot => (readJson conv single rest).openings

variable {conv single}

theorem readJson_openings (h : split toolOpen s = some (lead, rest)) :
    (readJson conv single s).openings = headOpenings conv single rest := by
  unfold headOpenings
  split
  next name inner hx =>
    unfold argsOpenings
    cases hc : split toolClose inner with
    | none =>
      rw [readJson_endless h hx hc]
      exact Eq.refl _
    | some r =>
      obtain ⟨args, after⟩ := r
      rw [readJson_closed h hx hc]
      exact Eq.refl _
  next hx =>
    rw [readJson_refused h fun call hcall => by cases hx.symm.trans hcall]
  next hx =>
    rw [readJson_refused h fun call hcall => by cases hx.symm.trans hcall]

end Reading

section Strings

variable {s t r tag : Bytes}

theorem quoted_eq (h : quoted s = some (t, r)) : s = t ++ r := by
  fun_induction quoted s generalizing t r with
  | case1 => cases h
  | case2 s =>
    cases h
    exact Eq.refl _
  | case3 => cases h
  | case4 d s hc ih =>
    obtain ⟨⟨u, r'⟩, hu, h⟩ := Option.map_eq_some_iff.mp h
    cases h
    rw [ih hu]
    exact Eq.refl _
  | case5 c s hc hb ih =>
    obtain ⟨⟨u, r'⟩, hu, h⟩ := Option.map_eq_some_iff.mp h
    cases h
    rw [ih hu]
    exact Eq.refl _

theorem quoted_end (h : quoted s = some (t, r)) : ∃ u, t = u ++ ['"'.toUInt8] := by
  fun_induction quoted s generalizing t r with
  | case1 => cases h
  | case2 s =>
    cases h
    exact ⟨[], Eq.refl _⟩
  | case3 => cases h
  | case4 d s hc ih =>
    obtain ⟨⟨u, r'⟩, hu, h⟩ := Option.map_eq_some_iff.mp h
    cases h
    obtain ⟨u', rfl⟩ := ih hu
    exact ⟨'\\'.toUInt8 :: d :: u', Eq.refl _⟩
  | case5 c s hc hb ih =>
    obtain ⟨⟨u, r'⟩, hu, h⟩ := Option.map_eq_some_iff.mp h
    cases h
    obtain ⟨u', rfl⟩ := ih hu
    exact ⟨c :: u', Eq.refl _⟩

/-- Where a string ends does not depend on the text after it. -/
theorem quoted_swap (h : quoted s = some (t, r)) (r' : Bytes) :
    quoted (t ++ r') = some (t, r') := by
  fun_induction quoted s generalizing t r with
  | case1 => cases h
  | case2 s =>
    cases h
    exact (quoted_cons _ _).trans (if_pos (Eq.refl _))
  | case3 => cases h
  | case4 d s hc ih =>
    obtain ⟨⟨u, r⟩, hu, h⟩ := Option.map_eq_some_iff.mp h
    cases h
    show quoted ('\\'.toUInt8 :: d :: (u ++ r')) = _
    rw [quoted_escape, ih hu]
    exact Eq.refl _
  | case5 c s hc hb ih =>
    obtain ⟨⟨u, r⟩, hu, h⟩ := Option.map_eq_some_iff.mp h
    cases h
    rw [List.cons_append, quoted_cons, if_neg hc, if_neg hb, ih hu]
    exact Eq.refl _

theorem quoted_plain {v : Bytes} (hquote : '"'.toUInt8 ∉ v) (hslash : '\\'.toUInt8 ∉ v)
    (s : Bytes) : quoted (v ++ s) = (quoted s).map fun x => (v ++ x.1, x.2) := by
  induction v with
  | nil =>
    rw [List.nil_append]
    cases quoted s with
    | none => exact Eq.refl _
    | some x => exact Eq.refl _
  | cons c v ih =>
    obtain ⟨hc, hv⟩ := not_or.mp fun h => hquote (List.mem_cons.mpr h)
    obtain ⟨hd, hw⟩ := not_or.mp fun h => hslash (List.mem_cons.mpr h)
    rw [List.cons_append, quoted_cons, if_neg (fun h => hc h.symm), if_neg (fun h => hd h.symm),
      ih hv hw, Option.map_map]
    exact Eq.refl _

theorem quoted_first {x : Bytes} (hquote : '"'.toUInt8 ∉ x) (hslash : '\\'.toUInt8 ∉ x)
    (z : Bytes) : quoted (x ++ '"'.toUInt8 :: z) = some (x ++ ['"'.toUInt8], z) := by
  rw [quoted_plain hquote hslash, quoted_cons, if_pos (Eq.refl _)]
  exact Eq.refl _

/-- A tag that opens with its only angle bracket and holds no quote or backslash. -/
structure PlainTag (tag : Bytes) : Prop where
  head : tag.head? = some '<'.toUInt8
  tail : '<'.toUInt8 ∉ tag.tail
  quote : '"'.toUInt8 ∉ tag
  slash : '\\'.toUInt8 ∉ tag
  long : 2 ≤ tag.length

theorem toolOpen_plain : PlainTag toolOpen :=
  ⟨by decide, by decide, by decide, by decide, by decide⟩

theorem toolClose_plain : PlainTag toolClose :=
  ⟨by decide, by decide, by decide, by decide, by decide⟩

/-- A string goes on after a tag in it as it would after none. -/
theorem quoted_skip (htag : PlainTag tag) {b : Bytes}
    (h : quoted (b ++ (tag ++ s)) = some (b ++ (tag ++ t), r)) : quoted s = some (t, r) := by
  have hpart : ∀ {v : Bytes}, '"'.toUInt8 ∉ v → '\\'.toUInt8 ∉ v →
      quoted (v ++ s) = some (v ++ t, r) → quoted s = some (t, r) := by
    intro v hquote hslash hv
    rw [quoted_plain hquote hslash] at hv
    obtain ⟨x, hs, heq⟩ := Option.map_eq_some_iff.mp hv
    have ht : v ++ x.1 = v ++ t := congrArg Prod.fst heq
    have hr : x.2 = r := congrArg Prod.snd heq
    exact hs.trans (congrArg some (Prod.ext (List.append_cancel_left ht) hr))
  have hlong := htag.long
  induction hn : b.length using Nat.strong_induction_on generalizing b with
  | _ n ih =>
    cases b with
    | nil => exact hpart htag.quote htag.slash h
    | cons c b =>
      rw [List.length_cons] at hn
      rw [List.cons_append, quoted_cons] at h
      split at h
      next =>
        have hnil : [] = b ++ (tag ++ t) :=
          (List.cons.inj (congrArg Prod.fst (Option.some.inj h))).2
        have hlength := congrArg List.length hnil
        rw [List.length_append, List.length_append, List.length_nil] at hlength
        omega
      next =>
        split at h
        next =>
          cases b with
          | nil =>
            obtain ⟨d, tail, rfl⟩ := List.exists_cons_of_length_pos (by omega : 0 < tag.length)
            obtain ⟨x, hs, heq⟩ := Option.map_eq_some_iff.mp h
            have ht : c :: d :: x.1 = c :: d :: (tail ++ t) := congrArg Prod.fst heq
            have hr : x.2 = r := congrArg Prod.snd heq
            have ht := (List.cons.inj (List.cons.inj ht).2).2
            exact hpart (fun h => htag.quote (List.mem_cons_of_mem _ h))
              (fun h => htag.slash (List.mem_cons_of_mem _ h))
              (hs.trans (congrArg some (Prod.ext ht hr)))
          | cons d b =>
            obtain ⟨x, hs, heq⟩ := Option.map_eq_some_iff.mp h
            have ht : c :: d :: x.1 = c :: d :: (b ++ (tag ++ t)) := congrArg Prod.fst heq
            have hr : x.2 = r := congrArg Prod.snd heq
            have ht := (List.cons.inj (List.cons.inj ht).2).2
            rw [List.length_cons] at hn
            exact ih b.length (by omega) (hs.trans (congrArg some (Prod.ext ht hr))) (Eq.refl _)
        next =>
          obtain ⟨x, hs, heq⟩ := Option.map_eq_some_iff.mp h
          have ht : c :: x.1 = c :: (b ++ (tag ++ t)) := congrArg Prod.fst heq
          have hr : x.2 = r := congrArg Prod.snd heq
          have ht := (List.cons.inj ht).2
          exact ih b.length (by omega) (hs.trans (congrArg some (Prod.ext ht hr))) (Eq.refl _)

end Strings

section Heads

variable {conv : Json.Conversion δ} {s t r tag l name inner w z : Bytes}

theorem not_mem_of_blank {c : UInt8} (hw : ∀ b ∈ w, blank b = true) (hc : blank c = false) :
    c ∉ w := by
  intro hmem
  rw [hw c hmem] at hc
  cases hc

theorem append_place {pre q r : Bytes} {c : UInt8} (hc : c ∉ pre) (h : pre ++ q = l ++ c :: r) :
    ∃ m, l = pre ++ m ∧ q = m ++ c :: r := by
  rcases List.append_eq_append_iff.mp h with ⟨m, hl, hq⟩ | ⟨m, hpre, hr⟩
  · exact ⟨m, hl, hq⟩
  · cases m with
    | nil => exact ⟨[], by rw [hpre, List.append_nil, List.append_nil], hr.symm⟩
    | cons d m =>
      refine absurd ?_ hc
      rw [hpre, (List.cons.inj hr).1]
      exact List.mem_append_right _ List.mem_cons_self

theorem literal_parts {l : Bytes} (h : literal l s = .opens r) (hl : l ≠ []) :
    ∃ w, s = w ++ (l ++ r) ∧ ∀ b ∈ w, blank b = true := by
  refine ⟨s.takeWhile blank, ?_, fun b hb => List.mem_takeWhile_imp hb⟩
  rw [← (literal_opens hl).mp h, List.takeWhile_append_dropWhile]

theorem jsonName_parts (h : jsonName conv s = .opens (name, r)) : ∃ w t,
    s = w ++ '"'.toUInt8 :: (t ++ r) ∧ (∀ b ∈ w, blank b = true) ∧
      quoted (t ++ r) = some (t, r) := by
  have hs := List.takeWhile_append_dropWhile (p := blank) (l := s)
  unfold jsonName at h
  split at h
  next => cases h
  next c u hu =>
    split at h
    next => cases h
    next hc =>
      split at h
      next => cases h
      next t rest hq =>
        split at h
        next n _ =>
          split at h
          next => cases h
          next =>
            cases h
            refine ⟨s.takeWhile blank, t, ?_, fun b hb => List.mem_takeWhile_imp hb, ?_⟩
            · rw [← quoted_eq hq, ← not_not.mp hc, ← hu, hs]
            · rw [← quoted_eq hq]
              exact hq
        next => cases h

/-- An opening's parts: what is before its name's text, the text with its closing quote, and what is
after it, before the arguments. -/
structure HeadParts (s inner pre body mid : Bytes) : Prop where
  whole : s = pre ++ (body ++ (mid ++ inner))
  starts : ∃ x z, pre = x ++ '"'.toUInt8 :: 'n'.toUInt8 :: z ∧ '"'.toUInt8 ∉ x ∧ '\\'.toUInt8 ∉ x
  before : '<'.toUInt8 ∉ pre
  body : quoted (body ++ (mid ++ inner)) = some (body, mid ++ inner)
  comma : ∃ w v, mid = w ++ ','.toUInt8 :: v ∧ ∀ b ∈ w, blank b = true
  after : '<'.toUInt8 ∉ mid

theorem jsonHead_parts (h : jsonHead conv s = .opens (name, inner)) :
    ∃ pre body mid, HeadParts s inner pre body mid := by
  obtain ⟨s1, h1, h⟩ := Opening_bind h
  obtain ⟨s2, h2, h⟩ := Opening_bind h
  obtain ⟨s3, h3, h⟩ := Opening_bind h
  obtain ⟨⟨n, s4⟩, h4, h⟩ := Opening_bind h
  obtain ⟨s5, h5, h⟩ := Opening_bind h
  obtain ⟨s6, h6, h⟩ := Opening_bind h
  obtain ⟨s7, h7, h⟩ := Opening_bind h
  obtain ⟨w1, hs, hw1⟩ := literal_parts h1 (List.cons_ne_nil _ _)
  obtain ⟨w2, hs1, hw2⟩ := literal_parts h2 (List.cons_ne_nil _ _)
  obtain ⟨w3, hs2, hw3⟩ := literal_parts h3 (List.cons_ne_nil _ _)
  obtain ⟨w4, t, hs3, hw4, hq⟩ := jsonName_parts h4
  obtain ⟨w5, hs4, hw5⟩ := literal_parts h5 (List.cons_ne_nil _ _)
  obtain ⟨w6, hs5, hw6⟩ := literal_parts h6 (List.cons_ne_nil _ _)
  obtain ⟨w7, hs6, hw7⟩ := literal_parts h7 (List.cons_ne_nil _ _)
  have hs7 : s7 = s7.takeWhile blank ++ inner := by
    split at h
    next => cases h
    next =>
      cases h
      exact List.takeWhile_append_dropWhile.symm
  have hw8 : ∀ b ∈ s7.takeWhile blank, blank b = true := fun b hb => List.mem_takeWhile_imp hb
  generalize s7.takeWhile blank = w8 at hs7 hw8
  have hless : ∀ {w : Bytes}, (∀ b ∈ w, blank b = true) → '<'.toUInt8 ∉ w :=
    fun hw => not_mem_of_blank hw (by decide)
  have hquote : ∀ {w : Bytes}, (∀ b ∈ w, blank b = true) → '"'.toUInt8 ∉ w :=
    fun hw => not_mem_of_blank hw (by decide)
  have hslash : ∀ {w : Bytes}, (∀ b ∈ w, blank b = true) → '\\'.toUInt8 ∉ w :=
    fun hw => not_mem_of_blank hw (by decide)
  refine ⟨w1 ++ ascii ['\x7b'] ++ w2 ++ ascii ['"', 'n', 'a', 'm', 'e', '"'] ++ w3 ++ ascii [':'] ++
    w4 ++ ['"'.toUInt8], t, w5 ++ ascii [','] ++ w6 ++
    ascii ['"', 'a', 'r', 'g', 'u', 'm', 'e', 'n', 't', 's', '"'] ++ w7 ++ ascii [':'] ++ w8, ?_⟩
  have hafter : s4 = w5 ++ ascii [','] ++ w6 ++
      ascii ['"', 'a', 'r', 'g', 'u', 'm', 'e', 'n', 't', 's', '"'] ++ w7 ++ ascii [':'] ++ w8 ++
      inner := by
    rw [hs4, hs5, hs6, hs7]
    simp only [List.append_assoc]
  refine ⟨?_, ?_, ?_, ?_, ?_, ?_⟩
  · rw [← hafter, hs, hs1, hs2, hs3]
    simp only [List.append_assoc, List.singleton_append]
  · refine ⟨w1 ++ ascii ['\x7b'] ++ w2, ascii ['a', 'm', 'e', '"'] ++ (w3 ++ (ascii [':'] ++
      (w4 ++ ['"'.toUInt8]))), ?_, ?_, ?_⟩
    · simp only [List.append_assoc]
      exact Eq.refl _
    · simp only [List.mem_append, not_or]
      exact ⟨⟨hquote hw1, by decide⟩, hquote hw2⟩
    · simp only [List.mem_append, not_or]
      exact ⟨⟨hslash hw1, by decide⟩, hslash hw2⟩
  · simp only [List.mem_append, not_or]
    exact ⟨⟨⟨⟨⟨⟨⟨hless hw1, by decide⟩, hless hw2⟩, by decide⟩, hless hw3⟩, by decide⟩, hless hw4⟩,
      by decide⟩
  · rw [← hafter]
    exact hq
  · refine ⟨w5, w6 ++ (ascii ['"', 'a', 'r', 'g', 'u', 'm', 'e', 'n', 't', 's', '"'] ++
      (w7 ++ (ascii [':'] ++ w8))), ?_, hw5⟩
    simp only [List.append_assoc]
    exact Eq.refl _
  · simp only [List.mem_append, not_or]
    exact ⟨⟨⟨⟨⟨⟨hless hw5, by decide⟩, hless hw6⟩, by decide⟩, hless hw7⟩, by decide⟩, hless hw8⟩

theorem name_comma (hw : ∀ b ∈ w, blank b = true) (h : 'n'.toUInt8 :: r = w ++ ','.toUInt8 :: z) :
    False := by
  cases w with
  | nil =>
    have hn := (List.cons.inj h).1
    revert hn
    decide
  | cons b w =>
    have hb := hw b List.mem_cons_self
    rw [← (List.cons.inj h).1] at hb
    revert hb
    decide

/-- The text of a name goes on to its closing quote and the comma after it. -/
def NameRest (s : Bytes) : Prop :=
  ∃ t w z, quoted s = some (t, w ++ ','.toUInt8 :: z) ∧ ∀ b ∈ w, blank b = true

theorem NameRest.shut (h : NameRest s) (call : Bytes × Bytes) : jsonHead conv s ≠ .opens call := by
  intro hopens
  obtain ⟨t, w, z, hq, hw⟩ := h
  obtain ⟨pre, body, mid, hparts⟩ := jsonHead_parts hopens
  obtain ⟨x, y, hpre, hquote, hslash⟩ := hparts.starts
  have hs := hparts.whole
  rw [hpre, List.append_assoc] at hs
  rw [hs, List.cons_append, quoted_first hquote hslash] at hq
  have hrest : 'n'.toUInt8 :: (y ++ (body ++ (mid ++ call.2))) = w ++ ','.toUInt8 :: z :=
    congrArg Prod.snd (Option.some.inj hq)
  exact name_comma hw hrest

/-- A tag that begins in the end of a string is in it whole. -/
theorem tag_whole {m after : Bytes} (htag : PlainTag tag) (hm : m ≠ [])
    (hq : quoted s = some (l ++ m, after)) (h : tag ++ r = m ++ after) :
    ∃ t, m = tag ++ t ∧ r = t ++ after := by
  rcases List.append_eq_append_iff.mp h with ⟨t, hm', hr⟩ | ⟨t, htail, -⟩
  · exact ⟨t, hm', hr⟩
  · obtain ⟨q, hlast⟩ := quoted_end hq
    refine absurd ?_ htag.quote
    have hboth := congrArg List.getLast? hlast
    rw [List.getLast?_append, List.getLast?_concat, List.getLast?_eq_some_getLast hm] at hboth
    have hin : '"'.toUInt8 ∈ m :=
      List.mem_of_getLast? ((List.getLast?_eq_some_getLast hm).trans hboth)
    rw [htail]
    exact List.mem_append_left _ hin

/-- A tag in the text of an opening is in its arguments or in its name. -/
theorem tag_place {pre body mid : Bytes} (htag : PlainTag tag) (hp : HeadParts s inner pre body mid)
    (h : s = l ++ (tag ++ r)) : (∃ m, inner = m ++ (tag ++ r)) ∨ NameRest r := by
  obtain ⟨u, hu⟩ := List.head?_eq_some_iff.mp htag.head
  have hcons : tag ++ r = '<'.toUInt8 :: (u ++ r) := by
    rw [hu]
    exact Eq.refl _
  have hs := hp.whole.symm.trans h
  rw [hcons] at hs
  obtain ⟨m, -, hbody⟩ := append_place hp.before hs
  rw [← hcons] at hbody
  rcases List.append_eq_append_iff.mp hbody with ⟨m', -, hmid⟩ | ⟨m', hb, hrest⟩
  · rw [hcons] at hmid
    obtain ⟨m2, -, hinner⟩ := append_place hp.after hmid
    rw [hcons]
    exact .inl ⟨m2, hinner⟩
  · by_cases hm' : m' = []
    · rw [hm', List.nil_append, hcons] at hrest
      obtain ⟨m2, -, hinner⟩ := append_place (l := []) hp.after hrest.symm
      rw [hcons]
      exact .inl ⟨m2, hinner⟩
    · have hq := hp.body
      rw [hb] at hq
      obtain ⟨t2, rfl, hr⟩ := tag_whole htag hm' hq hrest
      obtain ⟨w, v, hcomma, hw⟩ := hp.comma
      rw [hcomma, List.append_assoc, List.append_assoc, List.append_assoc] at hq
      refine .inr ⟨t2, w, v ++ inner, ?_, hw⟩
      rw [hr, hcomma, List.append_assoc]
      exact quoted_skip htag hq

/-- The next opening after a call's is in its arguments or after the call. -/
theorem opening_after {call : Bytes × Bytes} (h : jsonHead conv (l ++ (toolOpen ++ r)) =
    .opens (name, inner)) (hr : jsonHead conv r = .opens call) :
    ∃ m, inner = m ++ (toolOpen ++ r) := by
  obtain ⟨pre, body, mid, hparts⟩ := jsonHead_parts h
  rcases tag_place toolOpen_plain hparts (Eq.refl _) with hin | hname
  · exact hin
  · exact absurd hr (hname.shut call)

/-- A tag in the rest of a name, or after it and its comma. -/
theorem name_place (htag : PlainTag tag) (hq : quoted s = some (t, w ++ ','.toUInt8 :: z))
    (hw : ∀ b ∈ w, blank b = true) (h : s = l ++ (tag ++ r)) :
    (∃ t', t = l ++ (tag ++ t') ∧ quoted r = some (t', w ++ ','.toUInt8 :: z)) ∨
      ∃ m, l = t ++ (w ++ ','.toUInt8 :: m) := by
  obtain ⟨u, hu⟩ := List.head?_eq_some_iff.mp htag.head
  have hcons : tag ++ r = '<'.toUInt8 :: (u ++ r) := by
    rw [hu]
    exact Eq.refl _
  have hs := (quoted_eq hq).symm.trans h
  have hless : '<'.toUInt8 ∉ w ++ [','.toUInt8] := by
    intro hmem
    rcases List.mem_append.mp hmem with hmem | hmem
    · exact not_mem_of_blank hw (by decide) hmem
    · revert hmem
      decide
  rcases List.append_eq_append_iff.mp hs with ⟨m, hl, hrest⟩ | ⟨m, ht, hrest⟩
  · have hrest : (w ++ [','.toUInt8]) ++ z = m ++ '<'.toUInt8 :: (u ++ r) := by
      rw [List.append_assoc, ← hcons]
      exact hrest
    obtain ⟨m', hm, -⟩ := append_place hless hrest
    refine .inr ⟨m', ?_⟩
    rw [hl, hm, List.append_assoc, List.singleton_append]
  · by_cases hm : m = []
    · have hrest : (w ++ [','.toUInt8]) ++ z = [] ++ '<'.toUInt8 :: (u ++ r) := by
        rw [List.append_assoc, List.nil_append, ← hcons, hrest, hm]
        exact Eq.refl _
      obtain ⟨m', hnil, -⟩ := append_place hless hrest
      have hlength := congrArg List.length hnil
      rw [List.length_append, List.length_append, List.length_singleton, List.length_nil] at hlength
      omega
    · rw [ht] at hq
      obtain ⟨t', rfl, hr⟩ := tag_whole htag hm hq hrest
      refine .inl ⟨t', ht, ?_⟩
      rw [h, hr] at hq
      rw [hr]
      exact quoted_skip htag hq

end Heads

section Places

variable {tag a b s l r x y q : Bytes}

/-- Two tags in a text are at one place, or one of them is whole before the other. -/
theorem tags_apart (ha : PlainTag a) (hb : PlainTag b) (h : x ++ (a ++ r) = y ++ (b ++ q)) :
    (x = y ∧ a ++ r = b ++ q) ∨ (∃ m, x = y ++ (b ++ m) ∧ q = m ++ (a ++ r)) ∨
      ∃ m, y = x ++ (a ++ m) ∧ r = m ++ (b ++ q) := by
  have hpass : ∀ {c d m v z : Bytes}, PlainTag c → PlainTag d → m ≠ [] →
      c ++ v = m ++ (d ++ z) → ∃ n, m = c ++ n ∧ v = n ++ (d ++ z) := by
    intro c d m v z hc hd hm heq
    obtain ⟨u, hu⟩ := List.head?_eq_some_iff.mp hc.head
    obtain ⟨w, hw⟩ := List.head?_eq_some_iff.mp hd.head
    have htail := hc.tail
    rw [hu, List.tail_cons] at htail
    obtain ⟨e, m', rfl⟩ := List.exists_cons_of_ne_nil hm
    rw [hu, hw, List.cons_append, List.cons_append] at heq
    obtain ⟨he, hrest⟩ := List.cons.inj heq
    obtain ⟨n, hm', hv⟩ := append_place htail hrest
    refine ⟨n, ?_, ?_⟩
    · rw [hu, hm', ← he]
      exact Eq.refl _
    · rw [hv, hw]
      exact Eq.refl _
  rcases List.append_eq_append_iff.mp h with ⟨m, hy, har⟩ | ⟨m, hx, hbq⟩
  · by_cases hm : m = []
    · rw [hm, List.append_nil] at hy
      rw [hm, List.nil_append] at har
      exact .inl ⟨hy.symm, har⟩
    · obtain ⟨n, hn, hr⟩ := hpass ha hb hm har
      exact .inr (.inr ⟨n, by rw [hy, hn], hr⟩)
  · by_cases hm : m = []
    · rw [hm, List.append_nil] at hx
      rw [hm, List.nil_append] at hbq
      exact .inl ⟨hx, hbq.symm⟩
    · obtain ⟨n, hn, hq⟩ := hpass hb ha hm hbq
      exact .inr (.inl ⟨n, by rw [hx, hn], hq⟩)

theorem PlainTag.ne_nil (htag : PlainTag tag) : tag ≠ [] := by
  intro hnil
  have hlong := htag.long
  rw [hnil, List.length_nil] at hlong
  omega

theorem split_place (h : split tag s = some (a, b)) : s = a ++ (tag ++ b) := by
  rw [← List.append_assoc]
  exact split_eq h

/-- What is before a tag's first place has none. -/
theorem split_lead (ht : tag ≠ []) (h : split tag s = some (a, b)) : split tag a = none := by
  cases ha : split tag a with
  | none => exact Eq.refl _
  | some parts =>
    obtain ⟨l, m⟩ := parts
    have hpos := List.length_pos_iff.mpr ht
    have hmore := split_more (y := tag ++ b) ha
    rw [← List.append_assoc, ← split_eq h] at hmore
    have hb := congrArg Prod.snd (Option.some.inj (h.symm.trans hmore))
    have hlength : b.length = (m ++ (tag ++ b)).length := congrArg List.length hb
    rw [List.length_append, List.length_append] at hlength
    omega

/-- A tag in a text is at its first place or after it. -/
theorem first_place (htag : PlainTag tag) (h : split tag s = some (a, b))
    (hs : s = l ++ (tag ++ r)) :
    (l = a ∧ r = b) ∨ ∃ m, l = a ++ (tag ++ m) ∧ b = m ++ (tag ++ r) := by
  rcases tags_apart htag htag (hs.symm.trans (split_place h)) with ⟨hl, hr⟩ | hafter | ⟨m, ha, -⟩
  · exact .inl ⟨hl, List.append_cancel_left hr⟩
  · exact .inr hafter
  · refine absurd ?_ ((split_none htag.ne_nil).mp (split_lead htag.ne_nil h))
    exact ⟨l, m, by rw [ha, List.append_assoc]⟩

end Places

section Picks

variable {conv : Json.Conversion δ} {single : Bool} {s lead rest name inner args after l : Bytes}
  {w z : Bytes} {calls : List ToolCall} {call : ToolCall}

/-- Calls a text has one after another, each at an opening after the one before has closed. -/
inductive Picks (conv : Json.Conversion δ) : Bytes → List ToolCall → Prop
  | nothing (s : Bytes) : Picks conv s []
  | endless {lead rest name inner : Bytes} (hx : jsonHead conv rest = .opens (name, inner))
      (hc : split toolClose inner = none) :
      Picks conv (lead ++ (toolOpen ++ rest)) [⟨name, closed inner⟩]
  | closed {lead rest name inner args after : Bytes} {calls : List ToolCall}
      (hx : jsonHead conv rest = .opens (name, inner))
      (hc : split toolClose inner = some (args, after)) (h : Picks conv after calls) :
      Picks conv (lead ++ (toolOpen ++ rest)) (⟨name, closed args⟩ :: calls)

theorem Picks.prepend (h : Picks conv s calls) (l : Bytes) : Picks conv (l ++ s) calls := by
  cases h with
  | nothing => exact .nothing _
  | endless hx hc =>
    rw [← List.append_assoc]
    exact .endless hx hc
  | closed hx hc h =>
    rw [← List.append_assoc]
    exact .closed hx hc h

/-- A call picked: where it opens, what it is, and the picks from there on. -/
structure Picked (conv : Json.Conversion δ) (rest : Bytes) (call : ToolCall)
    (calls : List ToolCall) (name inner : Bytes) : Prop where
  opens : jsonHead conv rest = .opens (name, inner)
  picks : ∀ l, Picks conv (l ++ (toolOpen ++ rest)) (call :: calls)
  ends : (split toolClose inner = none ∧ call = ⟨name, closed inner⟩ ∧ calls = []) ∨
    ∃ args after, split toolClose inner = some (args, after) ∧ call = ⟨name, closed args⟩ ∧
      Picks conv after calls

theorem Picks.picked (h : Picks conv s (call :: calls)) : ∃ l rest name inner,
    s = l ++ (toolOpen ++ rest) ∧ Picked conv rest call calls name inner := by
  cases h with
  | endless hx hc =>
    exact ⟨_, _, _, _, Eq.refl _, hx, fun _ => .endless hx hc, .inl ⟨hc, Eq.refl _, Eq.refl _⟩⟩
  | closed hx hc h =>
    exact ⟨_, _, _, _, Eq.refl _, hx, fun _ => .closed hx hc h,
      .inr ⟨_, _, hc, Eq.refl _, h⟩⟩

theorem jsonHead_suffix (h : jsonHead conv s = .opens (name, inner)) : ∃ k, s = k ++ inner := by
  obtain ⟨pre, body, mid, hparts⟩ := jsonHead_parts h
  refine ⟨pre ++ (body ++ mid), ?_⟩
  rw [hparts.whole]
  simp only [List.append_assoc]

/-- The calls picked from a call's opening on are in its arguments or after it. -/
theorem Picks.inside (h : Picks conv rest calls) (hx : jsonHead conv rest = .opens (name, inner)) :
    Picks conv inner calls := by
  cases calls with
  | nil => exact .nothing _
  | cons call calls =>
    obtain ⟨l, r, name', inner', rfl, hpicked⟩ := h.picked
    obtain ⟨m, rfl⟩ := opening_after hx hpicked.opens
    exact hpicked.picks m

theorem Picks.le_one (h : Picks conv s calls) (hc : split toolClose s = none) :
    calls.length ≤ 1 := by
  cases calls with
  | nil => exact Nat.zero_le _
  | cons call calls =>
    obtain ⟨l, r, name, inner, rfl, hpicked⟩ := h.picked
    rcases hpicked.ends with ⟨-, -, rfl⟩ | ⟨args, after, hclose, -⟩
    · exact Nat.le_refl _
    · obtain ⟨k, rfl⟩ := jsonHead_suffix hpicked.opens
      refine absurd ?_ ((split_none toolClose_ne).mp hc)
      refine ⟨l ++ (toolOpen ++ (k ++ args)), after, ?_⟩
      rw [split_eq hclose]
      simp only [List.append_assoc]

/-- All calls picked from a text but the first are after its first closing tag. -/
theorem Picks.behind (h : Picks conv s calls) (hc : split toolClose s = some (args, after)) :
    ∃ later, Picks conv after later ∧ calls.length ≤ later.length + 1 := by
  cases calls with
  | nil => exact ⟨[], .nothing _, Nat.zero_le _⟩
  | cons call calls =>
    obtain ⟨l, r, name, inner, hs, hpicked⟩ := h.picked
    rcases hpicked.ends with ⟨-, -, rfl⟩ | ⟨args', after', hclose, -, hlater⟩
    · exact ⟨[], .nothing _, Nat.le_refl _⟩
    · obtain ⟨k, hr⟩ := jsonHead_suffix hpicked.opens
      have hplace : s = l ++ (toolOpen ++ (k ++ args')) ++ (toolClose ++ after') := by
        rw [hs, hr, split_eq hclose]
        simp only [List.append_assoc]
      refine ⟨calls, ?_, Nat.le_refl _⟩
      rcases first_place toolClose_plain hc hplace with ⟨-, rfl⟩ | ⟨m, -, rfl⟩
      · exact hlater
      · rw [← List.append_assoc]
        exact hlater.prepend _

/-- Of the calls picked from a text, those from its first opening tag on. -/
theorem Picks.first (h : Picks conv s calls) (hs : split toolOpen s = some (lead, rest)) :
    Picks conv rest calls ∨ ∃ call later name inner, calls = call :: later ∧
      Picked conv rest call later name inner := by
  cases calls with
  | nil => exact .inl (.nothing _)
  | cons call calls =>
    obtain ⟨l, r, name, inner, hplace, hpicked⟩ := h.picked
    rcases first_place toolOpen_plain hs hplace with ⟨-, rfl⟩ | ⟨m, -, rfl⟩
    · exact .inr ⟨call, calls, name, inner, Eq.refl _, hpicked⟩
    · exact .inl (hpicked.picks m)

/-- A text has no more calls one after another than are read from it. -/
theorem picks_le (hsingle : single = false) :
    ∀ calls, Picks conv s calls → calls.length ≤ (readJson conv single s).calls.length := by
  fun_induction readJson conv single s with
  | case1 s hs =>
    intro calls h
    cases calls with
    | nil => exact Nat.zero_le _
    | cons call calls =>
      obtain ⟨l, r, name, inner, rfl, -⟩ := h.picked
      exact absurd ⟨l, r, List.append_assoc _ _ _⟩ ((split_none toolOpen_ne).mp hs)
  | case2 s lead rest hs name inner hx hc =>
    intro calls h
    rcases h.first hs with hrest | ⟨call, later, name', inner', rfl, hpicked⟩
    · exact (hrest.inside hx).le_one hc
    · cases hx.symm.trans hpicked.opens
      rcases hpicked.ends with ⟨-, -, rfl⟩ | ⟨args, after, hclose, -⟩
      · exact Nat.le_refl _
      · cases hc.symm.trans hclose
  | case3 s lead rest hs name inner hx args after hc next ih =>
    intro calls h
    have hnext : next = readJson conv single after :=
      if_neg (by rw [hsingle]; exact Bool.false_ne_true)
    rw [hnext]
    rcases h.first hs with hrest | ⟨call, later, name', inner', rfl, hpicked⟩
    · obtain ⟨later, hlater, hle⟩ := (hrest.inside hx).behind hc
      exact hle.trans (Nat.succ_le_succ (ih later hlater))
    · cases hx.symm.trans hpicked.opens
      rcases hpicked.ends with ⟨hnone, -⟩ | ⟨args', after', hclose, -, hlater⟩
      · cases hc.symm.trans hnone
      · cases hc.symm.trans hclose
        exact Nat.succ_le_succ (ih later hlater)
  | case4 s lead rest hs hx next ih =>
    intro calls h
    rcases h.first hs with hrest | ⟨call, later, name', inner', -, hpicked⟩
    · exact ih calls hrest
    · cases hx.symm.trans hpicked.opens
  | case5 s lead rest hs hx next ih =>
    intro calls h
    rcases h.first hs with hrest | ⟨call, later, name', inner', -, hpicked⟩
    · exact ih calls hrest
    · cases hx.symm.trans hpicked.opens

theorem count_trimmed (s : Bytes) :
    (s.rdropWhile blank).count '<'.toUInt8 = s.count '<'.toUInt8 := by
  have hs : s.rdropWhile blank ++ s.rtakeWhile blank = s := List.rdropWhile_append_rtakeWhile
  have hblank : ∀ b ∈ s.rtakeWhile blank, blank b = true := fun b hb => List.mem_rtakeWhile_imp hb
  conv_rhs => rw [← hs]
  rw [List.count_append, List.count_eq_zero.mpr (not_mem_of_blank hblank (by decide))]
  exact Eq.refl _

theorem count_closed (s : Bytes) : (closed s).count '<'.toUInt8 = s.count '<'.toUInt8 := by
  unfold closed dropBrace
  split
  next hlast =>
    obtain ⟨e, he⟩ := List.getLast?_eq_some_iff.mp hlast
    rw [← count_trimmed s, he, List.dropLast_concat, count_trimmed, List.count_append]
    exact Eq.refl _
  next => exact count_trimmed s

/-- Calls picked from a call's opening on that begin with it: the text after it is the rest of the
name of an opening in its arguments. -/
theorem Picks.spans (h : Picks conv s (⟨name, ToolCallSplit.closed args⟩ :: calls))
    (hx : jsonHead conv s = .opens (name, inner)) (hc : split toolClose inner = some (args, after))
    (hcalls : calls = (readJson conv false after).calls) : NameRest after := by
  obtain ⟨l, r, name', inner', hplace, hpicked⟩ := (h.inside hx).picked
  rcases tags_apart toolClose_plain toolOpen_plain ((split_place hc).symm.trans hplace) with
    ⟨-, hsame⟩ | ⟨m, hargs, hr⟩ | ⟨m, -, hafter⟩
  · have hsecond := congrArg (fun l => (l.drop 1).head?) hsame
    exact absurd (Option.some.inj hsecond) (by decide)
  · obtain ⟨pre, body, mid, hparts⟩ := jsonHead_parts hpicked.opens
    rcases tag_place toolClose_plain hparts hr with ⟨m', hinner⟩ | hname
    · have hm : m = pre ++ (body ++ (mid ++ m')) := by
        have hwhole := hr.symm.trans hparts.whole
        rw [hinner] at hwhole
        have hboth : m ++ (toolClose ++ after) =
            pre ++ (body ++ (mid ++ m')) ++ (toolClose ++ after) := by
          rw [hwhole]
          simp only [List.append_assoc]
        exact List.append_cancel_right hboth
      rcases hpicked.ends with ⟨hnone, -⟩ | ⟨args', after', hclose, hcall, -⟩
      · exact absurd ⟨m', after, by rw [hinner, List.append_assoc]⟩
          ((split_none toolClose_ne).mp hnone)
      · have hboth : ToolCallSplit.closed args = ToolCallSplit.closed args' :=
          congrArg ToolCall.arguments hcall
        have hcount : args.count '<'.toUInt8 = args'.count '<'.toUInt8 := by
          rw [← count_closed args, hboth, count_closed]
        have hle : args'.count '<'.toUInt8 ≤ m'.count '<'.toUInt8 := by
          rcases first_place toolClose_plain hclose hinner with ⟨rfl, -⟩ | ⟨n, rfl, -⟩
          · exact Nat.le_refl _
          · rw [List.count_append]
            exact Nat.le_add_right _ _
        have htag : toolOpen.count '<'.toUInt8 = 1 := by decide
        rw [hargs, hm] at hcount
        simp only [List.count_append] at hcount
        omega
    · exact hname
  · have hle := picks_le (Eq.refl _) _ (hpicked.picks m)
    rw [← hafter, hcalls, List.length_cons] at hle
    omega

/-- A text that goes on a name keeps it and its comma. -/
theorem content_name (hw : ∀ b ∈ w, blank b = true) :
    ∀ t, quoted s = some (t, w ++ ','.toUInt8 :: z) →
      ∃ more, (readJson conv single s).content = t ++ (w ++ ','.toUInt8 :: more) := by
  have htrim : ∀ t m : Bytes, (t ++ (w ++ ','.toUInt8 :: m)).rdropWhile blank =
      t ++ (w ++ ','.toUInt8 :: m.rdropWhile blank) := by
    intro t m
    have hcomma := List.rdropWhile_concat_neg blank (t ++ w) ','.toUInt8 (by decide)
    have hmore := rdropWhile_append (x := m) hcomma
    simp only [List.append_assoc, List.singleton_append] at hmore
    exact hmore
  have hplace : ∀ {s lead rest t : Bytes}, split toolOpen s = some (lead, rest) →
      quoted s = some (t, w ++ ','.toUInt8 :: z) →
      (∃ t', t = lead ++ (toolOpen ++ t') ∧ quoted rest = some (t', w ++ ','.toUInt8 :: z)) ∨
        ∃ m, lead = t ++ (w ++ ','.toUInt8 :: m) :=
    fun hs hq => name_place toolOpen_plain hq hw (split_place hs)
  have hrefused : ∀ {s lead rest content : Bytes}, split toolOpen s = some (lead, rest) →
      (∀ t, quoted rest = some (t, w ++ ','.toUInt8 :: z) →
        ∃ more, content = t ++ (w ++ ','.toUInt8 :: more)) →
      ∀ t, quoted s = some (t, w ++ ','.toUInt8 :: z) →
        ∃ more, lead ++ toolOpen ++ content = t ++ (w ++ ','.toUInt8 :: more) := by
    intro s lead rest content hs ih t hq
    rcases hplace hs hq with ⟨t', rfl, hr⟩ | ⟨m, rfl⟩
    · obtain ⟨more, rfl⟩ := ih t' hr
      exact ⟨more, by simp only [List.append_assoc]⟩
    · exact ⟨m ++ (toolOpen ++ content), by simp only [List.append_assoc, List.cons_append]⟩
  fun_induction readJson conv single s with
  | case1 s hs =>
    intro t hq
    exact ⟨z, quoted_eq hq⟩
  | case2 s lead rest hs name inner hx hc =>
    intro t hq
    rcases hplace hs hq with ⟨t', -, hr⟩ | ⟨m, rfl⟩
    · exact absurd hx (NameRest.shut ⟨t', w, z, hr, hw⟩ _)
    · exact ⟨_, htrim t m⟩
  | case3 s lead rest hs name inner hx args after hc next ih =>
    intro t hq
    rcases hplace hs hq with ⟨t', -, hr⟩ | ⟨m, rfl⟩
    · exact absurd hx (NameRest.shut ⟨t', w, z, hr, hw⟩ _)
    · refine ⟨m.rdropWhile blank ++ next.content.dropWhile blank, ?_⟩
      rw [htrim]
      simp only [List.append_assoc, List.cons_append]
  | case4 s lead rest hs hx next ih => exact hrefused hs ih
  | case5 s lead rest hs hx next ih => exact hrefused hs ih

/-- The content of a text that goes on a name is none that opens a call's. -/
theorem NameRest.apart {x y : Bytes} (h : NameRest s) (hquote : '"'.toUInt8 ∉ x)
    (hslash : '\\'.toUInt8 ∉ x) : x ++ '"'.toUInt8 :: 'n'.toUInt8 :: y ≠
      (readJson conv single s).content.dropWhile blank := by
  intro heq
  obtain ⟨t, w, z, hq, hw⟩ := h
  obtain ⟨more, hmore⟩ : ∃ more, (readJson conv single s).content = _ := content_name hw t hq
  have hfull := quoted_swap hq (w ++ ','.toUInt8 :: more)
  generalize (readJson conv single s).content = content at heq hmore
  rw [← hmore, ← List.takeWhile_append_dropWhile (p := blank) (l := content), ← heq] at hfull
  have hblank : ∀ b ∈ content.takeWhile blank, blank b = true :=
    fun b hb => List.mem_takeWhile_imp hb
  rw [quoted_plain (not_mem_of_blank hblank (by decide)) (not_mem_of_blank hblank (by decide)),
    quoted_first hquote hslash] at hfull
  exact name_comma hw (congrArg Prod.snd (Option.some.inj hfull))

end Picks

end ToolCallSplit

end Llmx
