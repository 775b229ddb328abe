import Llmx.ToolCallReader

namespace Llmx

open Tags

namespace ToolCallSplit

theorem toolOpen_ne : toolOpen ≠ [] := List.cons_ne_nil _ _

theorem toolClose_ne : toolClose ≠ [] := List.cons_ne_nil _ _

theorem fnOpen_ne : fnOpen ≠ [] := List.cons_ne_nil _ _

theorem innerTags_apart : ∀ a ∈ innerTags, ∀ b ∈ innerTags, a <+: b → a = b := by decide

/-- A tag opens where it begins and nowhere later. -/
theorem innerTags_tail : ∀ tag ∈ innerTags, tag.head? = some '<'.toUInt8 ∧
    '<'.toUInt8 ∉ tag.tail := by decide

/-- What is let go of a text keeps what may still begin a tag. -/
theorem cut_held (tag s : Bytes) : ∃ held,
    s = (s.take (s.length - overlap tag s)).rdropWhile blank ++ held ∧
      overlap tag s ≤ held.length := by
  have hle := overlap_le tag s
  obtain ⟨tail, htail⟩ := List.rdropWhile_prefix blank (s.take (s.length - overlap tag s))
  refine ⟨tail ++ s.drop (s.length - overlap tag s), ?_, ?_⟩
  · rw [← List.append_assoc, htail, List.take_append_drop]
  · rw [List.length_append, List.length_drop]
    omega

theorem take_eq_take {l t : Bytes} (h : t.take l.length = l.take t.length) : t <+: l ∨ l <+: t := by
  rcases Nat.le_total t.length l.length with hle | hle
  · rw [List.take_of_length_le hle] at h
    exact .inl (h ▸ List.take_prefix _ _)
  · rw [List.take_of_length_le (l := l) hle] at h
    exact .inr (h ▸ List.take_prefix _ _)

theorem take_eq_take_of {l t : Bytes} (h : t <+: l ∨ l <+: t) :
    t.take l.length = l.take t.length := by
  rcases h with h | h
  · rw [List.take_of_length_le h.length_le, ← List.prefix_iff_eq_take.mp h]
  · rw [List.take_of_length_le h.length_le, ← List.prefix_iff_eq_take.mp h]

theorem literal_opens {l s r : Bytes} (hl : l ≠ []) :
    literal l s = .opens r ↔ s.dropWhile blank = l ++ r := by
  unfold literal
  generalize s.dropWhile blank = t
  dsimp only
  constructor
  · intro h
    split at h
    next => cases h
    split at h
    next => cases h
    next heq =>
      split at h
      next => cases h
      next hlen =>
        cases h
        have hpre : l <+: t := by
          rcases take_eq_take (not_not.mp heq) with hpre | hpre
          · rw [hpre.eq_of_length (by have := hpre.length_le; omega)]
          · exact hpre
        exact (List.prefix_iff_eq_append.mp hpre).symm
  · rintro rfl
    rw [if_neg (by simp [hl]), if_neg, if_neg, List.drop_left]
    · rw [List.length_append]
      omega
    · exact not_not.mpr (take_eq_take_of (.inr (List.prefix_append l r)))

theorem literal_cannot {l s : Bytes} :
    literal l s = .cannot ↔ ¬ s.dropWhile blank <+: l ∧ ¬ l <+: s.dropWhile blank := by
  unfold literal
  generalize s.dropWhile blank = t
  dsimp only
  constructor
  · intro h
    split at h
    next => cases h
    split at h
    next hne => exact not_or.mp fun hpre => hne (take_eq_take_of hpre)
    split at h
    next => cases h
    next => cases h
  · rintro ⟨hone, htwo⟩
    rw [if_neg, if_pos]
    · intro heq
      rcases take_eq_take heq with h | h
      · exact hone h
      · exact htwo h
    · rintro rfl
      exact hone List.nil_prefix

theorem literal_may {l s : Bytes} (h : literal l s = .may) : s.dropWhile blank <+: l := by
  unfold literal at h
  generalize s.dropWhile blank = t at h ⊢
  dsimp only at h
  split at h
  next hnil =>
    rw [hnil]
    exact List.nil_prefix
  split at h
  next => cases h
  next heq =>
    split at h
    next hlen =>
      rcases take_eq_take (not_not.mp heq) with hpre | hpre
      · exact hpre
      · exact absurd hpre.length_le (by omega)
    next => cases h

theorem literal_opens_more {l s r : Bytes} (y : Bytes) (hl : l ≠ []) (h : literal l s = .opens r) :
    literal l (s ++ y) = .opens (r ++ y) := by
  rw [literal_opens hl] at h ⊢
  rw [dropWhile_append (by rw [h]; simp [hl]), h, List.append_assoc]

theorem literal_cannot_more {l s : Bytes} (y : Bytes) (h : literal l s = .cannot) :
    literal l (s ++ y) = .cannot := by
  rw [literal_cannot] at h ⊢
  obtain ⟨hone, htwo⟩ := h
  have hne : s.dropWhile blank ≠ [] := fun hnil => hone (by rw [hnil]; exact List.nil_prefix)
  rw [dropWhile_append hne]
  refine ⟨fun hpre => hone ((List.prefix_append _ y).trans hpre), fun hpre => ?_⟩
  rcases List.prefix_or_prefix_of_prefix hpre (List.prefix_append _ y) with h | h
  · exact htwo h
  · exact hone h

theorem xmlHead_opens_more {s name rest : Bytes} (y : Bytes) (h : xmlHead s = .opens (name, rest)) :
    xmlHead (s ++ y) = .opens (name, rest ++ y) := by
  obtain ⟨t, ht, h⟩ := Opening_bind h
  unfold xmlHead
  rw [literal_opens_more y fnOpen_ne ht]
  dsimp only [Opening.bind]
  cases hd : t.dropWhile fun c => !endsName c with
  | nil =>
    rw [hd] at h
    cases h
  | cons c r =>
    rw [hd] at h
    dsimp only at h
    have hne : (t.dropWhile fun c => !endsName c) ≠ [] := by
      rw [hd]
      exact List.cons_ne_nil _ _
    rw [dropWhile_append hne, hd, takeWhile_append hne]
    dsimp only [List.cons_append]
    split at h
    next => cases h
    next hname =>
      cases h
      rw [if_neg hname]

theorem xmlHead_cannot_more {s : Bytes} (y : Bytes) (h : xmlHead s = .cannot) :
    xmlHead (s ++ y) = .cannot := by
  unfold xmlHead at h ⊢
  cases hl : literal fnOpen s with
  | may =>
    rw [hl] at h
    cases h
  | cannot =>
    rw [literal_cannot_more y hl]
    exact Eq.refl _
  | opens t =>
    rw [hl] at h
    rw [literal_opens_more y fnOpen_ne hl]
    dsimp only [Opening.bind] at h ⊢
    cases hd : t.dropWhile fun c => !endsName c with
    | nil =>
      rw [hd] at h
      cases h
    | cons c r =>
      have hne : (t.dropWhile fun c => !endsName c) ≠ [] := by
        rw [hd]
        exact List.cons_ne_nil _ _
      rw [hd] at h
      rw [dropWhile_append hne, hd, takeWhile_append hne]
      dsimp only [List.cons_append] at h ⊢
      split at h
      next hname => rw [if_pos hname]
      next => cases h

/-- Whether a text opens a call is settled by as much of it as decides so. -/
def Settled (head : Bytes → Opening (Bytes × Bytes)) : Prop :=
  ∀ s y, (∀ name rest, head s = .opens (name, rest) → head (s ++ y) = .opens (name, rest ++ y)) ∧
    (head s = .cannot → head (s ++ y) = .cannot)

theorem Opening_bind_cannot {α β : Type} {o : Opening α} {f : α → Opening β}
    (h : o.bind f = .cannot) : o = .cannot ∨ ∃ a, o = .opens a ∧ f a = .cannot := by
  cases o with
  | opens a => exact .inr ⟨a, Eq.refl _, h⟩
  | may => cases h
  | cannot => exact .inl (Eq.refl _)

theorem Settled.after_literal {head : Bytes → Opening (Bytes × Bytes)} {l : Bytes} (hl : l ≠ [])
    (h : Settled head) : Settled fun s => (literal l s).bind head := by
  refine fun s y => ⟨fun name rest hx => ?_, fun hx => ?_⟩
  · obtain ⟨t, ht, hx⟩ := Opening_bind hx
    dsimp only
    rw [literal_opens_more y hl ht]
    exact (h t y).1 name rest hx
  · rcases Opening_bind_cannot hx with hx | ⟨t, ht, hx⟩
    · dsimp only
      rw [literal_cannot_more y hx]
      exact Eq.refl _
    · dsimp only
      rw [literal_opens_more y hl ht]
      exact (h t y).2 hx

variable {δ : Type} {conv : Json.Conversion δ}

theorem quoted_cons (c : UInt8) (s : Bytes) : quoted (c :: s) =
    if c = '"'.toUInt8 then some ([c], s)
    else if c = '\\'.toUInt8 then
      s.head?.bind fun d => (quoted s.tail).map fun r => (c :: d :: r.1, r.2)
    else (quoted s).map fun r => (c :: r.1, r.2) := by
  cases s with
  | nil =>
    unfold quoted
    exact Eq.refl _
  | cons d s =>
    conv_lhs => unfold quoted
    exact Eq.refl _

theorem quoted_escape (d : UInt8) (s : Bytes) : quoted ('\\'.toUInt8 :: d :: s) =
    (quoted s).map fun r => ('\\'.toUInt8 :: d :: r.1, r.2) := by
  rw [quoted_cons, if_neg (by decide), if_pos (Eq.refl _)]
  exact Eq.refl _

theorem quoted_more {s t rest : Bytes} (y : Bytes) (h : quoted s = some (t, rest)) :
    quoted (s ++ y) = some (t, rest ++ y) := by
  fun_induction quoted s generalizing t rest with
  | case1 => cases h
  | case2 s =>
    cases h
    rw [List.cons_append, quoted_cons, if_pos (Eq.refl _)]
  | case3 => cases h
  | case4 d s hc ih =>
    obtain ⟨⟨u, r⟩, hu, h⟩ := Option.map_eq_some_iff.mp h
    cases h
    rw [List.cons_append, List.cons_append, quoted_escape, ih hu]
    exact Eq.refl _
  | case5 c s hc hb ih =>
    obtain ⟨⟨u, r⟩, hu, h⟩ := Option.map_eq_some_iff.mp h
    cases h
    rw [List.cons_append, quoted_cons, if_neg hc, if_neg hb, ih hu]
    exact Eq.refl _

theorem jsonName_settled : Settled (jsonName conv) := by
  intro s y
  unfold jsonName
  cases hs : s.dropWhile blank with
  | nil =>
    refine ⟨fun _ _ h => ?_, fun h => ?_⟩
    · cases h
    · cases h
  | cons c u =>
    rw [dropWhile_append (by rw [hs]; exact List.cons_ne_nil _ _), hs]
    dsimp only [List.cons_append]
    by_cases hc : c ≠ '"'.toUInt8
    · rw [if_pos hc, if_pos hc]
      refine ⟨fun _ _ h => ?_, fun _ => Eq.refl _⟩
      cases h
    rw [if_neg hc, if_neg hc]
    cases hq : quoted u with
    | none =>
      refine ⟨fun _ _ h => ?_, fun h => ?_⟩
      · cases h
      · cases h
    | some r =>
      obtain ⟨t, rest⟩ := r
      rw [quoted_more y hq]
      dsimp only
      split
      next n hparsed =>
        split
        next =>
          refine ⟨fun _ _ h => ?_, fun _ => Eq.refl _⟩
          cases h
        next =>
          refine ⟨fun _ _ h => ?_, fun h => ?_⟩
          · cases h
            exact Eq.refl _
          · cases h
      next =>
        refine ⟨fun _ _ h => ?_, fun _ => Eq.refl _⟩
        cases h

theorem Settled.after_name {head : Bytes → Bytes → Opening (Bytes × Bytes)}
    (h : ∀ name, Settled (head name)) :
    Settled fun s => (jsonName conv s).bind fun r => head r.1 r.2 := by
  refine fun s y => ⟨fun name rest hx => ?_, fun hx => ?_⟩
  · obtain ⟨⟨n, t⟩, ht, hx⟩ := Opening_bind hx
    dsimp only
    rw [(jsonName_settled s y).1 n t ht]
    exact (h n t y).1 name rest hx
  · rcases Opening_bind_cannot hx with hx | ⟨⟨n, t⟩, ht, hx⟩
    · dsimp only
      rw [(jsonName_settled s y).2 hx]
      exact Eq.refl _
    · dsimp only
      rw [(jsonName_settled s y).1 n t ht]
      exact (h n t y).2 hx

theorem jsonHead_settled : Settled (jsonHead conv) := by
  have hlast : ∀ name : Bytes, Settled fun s =>
      if s.dropWhile blank = [] then .may else .opens (name, s.dropWhile blank) := by
    intro name s y
    dsimp only
    by_cases hs : s.dropWhile blank = []
    · rw [if_pos hs]
      refine ⟨fun _ _ h => ?_, fun h => ?_⟩
      · cases h
      · cases h
    · rw [if_neg hs, dropWhile_append hs, if_neg (List.append_ne_nil_of_left_ne_nil hs y)]
      refine ⟨fun _ _ h => ?_, fun h => ?_⟩
      · cases h
        exact Eq.refl _
      · cases h
  have htail := fun name => (((hlast name).after_literal
    (l := ascii [':']) (List.cons_ne_nil _ _)).after_literal
    (l := ascii ['"', 'a', 'r', 'g', 'u', 'm', 'e', 'n', 't', 's', '"'])
    (List.cons_ne_nil _ _)).after_literal (l := ascii [',']) (List.cons_ne_nil _ _)
  exact (((Settled.after_name htail).after_literal (l := ascii [':'])
    (List.cons_ne_nil _ _)).after_literal (l := ascii ['"', 'n', 'a', 'm', 'e', '"'])
    (List.cons_ne_nil _ _)).after_literal (l := ascii ['\x7b']) (List.cons_ne_nil _ _)

theorem head_settled (c : ToolCallSplit) :
    Settled fun s => head conv { c with buf := s } := by
  unfold head
  intro s y
  by_cases hc : c.format = .json
  · dsimp only
    rw [if_pos hc, if_pos hc]
    exact jsonHead_settled s y
  · dsimp only
    rw [if_neg hc, if_neg hc]
    exact ⟨fun _ _ h => xmlHead_opens_more y h, xmlHead_cannot_more y⟩

theorem not_mem_blanks {s : Bytes} {c : UInt8} (hc : blank c = false)
    (h : c ∉ s.dropWhile blank) : c ∉ s := by
  intro hmem
  rw [← List.takeWhile_append_dropWhile (p := blank) (l := s)] at hmem
  rcases List.mem_append.mp hmem with hmem | hmem
  · rw [List.mem_takeWhile_imp hmem] at hc
    cases hc
  · exact h hmem

/-- An opening that may still go on has no tag's end, and so no tag that closes the call. -/
theorem xmlHead_may {s : Bytes} (h : xmlHead s = .may) : split toolClose s = none := by
  have hend : '>'.toUInt8 ∉ s := by
    refine not_mem_blanks (by decide) ?_
    unfold xmlHead at h
    cases hl : literal fnOpen s with
    | may =>
      intro hmem
      have hin := (literal_may hl).subset hmem
      revert hin
      decide
    | cannot =>
      rw [hl] at h
      cases h
    | opens t =>
      rw [(literal_opens fnOpen_ne).mp hl]
      rw [hl] at h
      dsimp only [Opening.bind] at h
      cases hd : t.dropWhile fun c => !endsName c with
      | nil =>
        intro hmem
        rcases List.mem_append.mp hmem with hmem | hmem
        · revert hmem
          decide
        · have hname := List.dropWhile_eq_nil_iff.mp hd _ hmem
          revert hname
          decide
      | cons c r =>
        rw [hd] at h
        dsimp only at h
        split at h
        next => cases h
        next => cases h
  rw [split_none toolClose_ne]
  intro hin
  exact hend (hin.subset (by decide))

theorem parameter_more {s key v rest : Bytes} (y : Bytes) (hp : paramOpen <+: s)
    (h : parameter s = some (key, v, rest)) : parameter (s ++ y) = some (key, v, rest ++ y) := by
  obtain ⟨⟨k, t⟩, hk, h⟩ := Option.bind_eq_some_iff.mp h
  obtain ⟨⟨u, r⟩, hu, h⟩ := Option.map_eq_some_iff.mp h
  cases h
  unfold parameter
  rw [List.drop_append_of_le_length hp.length_le, split_more hk]
  dsimp only [Option.bind_some]
  rw [split_more hu]
  exact Eq.refl _

/-- Two tags neither of which begins the other do not both begin a text. -/
theorem not_prefix_more {tag s y : Bytes} (hone : ¬ tag <+: s) (htwo : ¬ s <+: tag) :
    ¬ tag <+: s ++ y := by
  intro h
  rcases List.prefix_or_prefix_of_prefix h (List.prefix_append s y) with h | h
  · exact hone h
  · exact htwo h

theorem NoTag.more {s : Bytes} (y : Bytes) (h : NoTag s)
    (hbegun : ∀ tag ∈ innerTags, ¬ s <+: tag) : NoTag (s ++ y) :=
  fun tag ht => not_prefix_more (h tag ht) (hbegun tag ht)

theorem NoTag.of_head {c : UInt8} {u : Bytes} (hc : c ≠ '<'.toUInt8) : NoTag (c :: u) := by
  intro tag ht hp
  have hhead := (innerTags_tail tag ht).1
  obtain ⟨w, hw⟩ := hp
  cases tag with
  | nil => cases hhead
  | cons d tag =>
    cases hhead
    exact hc (List.cons.inj hw).1.symm

theorem begun_iff {s : Bytes} : (s = [] ∨ begins paramOpen s ∨ begins fnClose s ∨
    begins toolClose s) ↔ ∃ tag ∈ innerTags, s <+: tag := by
  simp only [begins, List.isPrefixOf_iff_prefix, innerTags, List.mem_cons, List.not_mem_nil,
    or_false, exists_eq_or_imp, exists_eq_left]
  refine ⟨fun h => ?_, .inr⟩
  rcases h with rfl | h
  · exact .inl List.nil_prefix
  · exact h

theorem NoTag.of_not {s : Bytes} (hparam : ¬ paramOpen.isPrefixOf s = true)
    (hfn : ¬ fnClose.isPrefixOf s = true) (htool : ¬ toolClose.isPrefixOf s = true) : NoTag s := by
  simp only [List.isPrefixOf_iff_prefix] at hparam hfn htool
  intro tag ht
  simp only [innerTags, List.mem_cons, List.not_mem_nil, or_false] at ht
  rcases ht with rfl | rfl | rfl
  · exact hparam
  · exact hfn
  · exact htool

theorem past_blanks {w : Bytes} (hw : ∀ c ∈ w, blank c = true) (u : Bytes) :
    (w ++ u).dropWhile (· != '<'.toUInt8) = u.dropWhile (· != '<'.toUInt8) := by
  refine List.dropWhile_append_of_pos fun c hc => ?_
  have hblank := hw c hc
  simp only [bne_iff_ne]
  rintro rfl
  revert hblank
  decide

/-- Text without a tag is passed over up to the next wherever it is cut. -/
theorem readParams_next (s : Bytes) :
    readParams (s.dropWhile (· != '<'.toUInt8)) = readParams s := by
  have hw : ∀ c ∈ s.takeWhile blank, blank c = true := fun c hc => List.mem_takeWhile_imp hc
  have hs := List.takeWhile_append_dropWhile (p := blank) (l := s)
  cases ht : s.dropWhile blank with
  | nil =>
    rw [ht, List.append_nil] at hs
    have hnil := past_blanks hw []
    rw [List.append_nil, hs] at hnil
    rw [hnil, readParams_nil ht]
    exact readParams_nil (Eq.refl _)
  | cons c u =>
    rw [ht] at hs
    have hcut := past_blanks hw (c :: u)
    rw [hs] at hcut
    by_cases hc : c = '<'.toUInt8
    · rw [hcut, List.dropWhile_cons_of_neg (by simp [hc])]
      refine readParams_congr ?_
      rw [ht, List.dropWhile_cons_of_neg]
      rw [hc]
      decide
    · rw [hcut, List.dropWhile_cons_of_pos (by simpa using hc), readParams_pass (.of_head hc) ht]

/-- One tag at most begins a text. -/
theorem not_isPrefixOf {a b s : Bytes} (ha : a ∈ innerTags) (hb : b ∈ innerTags) (hne : a ≠ b)
    (h : a <+: s) : ¬ b.isPrefixOf s = true := by
  intro hother
  rcases List.prefix_or_prefix_of_prefix h (List.isPrefixOf_iff_prefix.mp hother) with hp | hp
  · exact hne (innerTags_apart a ha b hb hp)
  · exact hne (innerTags_apart b hb a ha hp).symm

theorem readParams_fnClose {s : Bytes} (h : fnClose <+: s.dropWhile blank) : readParams s =
    ([], afterFunction ((s.dropWhile blank).drop fnClose.length)) := by
  have hparam : ¬ paramOpen.isPrefixOf (s.dropWhile blank) = true :=
    not_isPrefixOf (show fnClose ∈ innerTags by decide) (by decide) (by decide) h
  rw [readParams, if_neg hparam, if_pos (List.isPrefixOf_iff_prefix.mpr h)]

theorem readParams_toolClose {s : Bytes} (h : toolClose <+: s.dropWhile blank) : readParams s =
    ([], (s.dropWhile blank).drop toolClose.length) := by
  have hparam : ¬ paramOpen.isPrefixOf (s.dropWhile blank) = true :=
    not_isPrefixOf (show toolClose ∈ innerTags by decide) (by decide) (by decide) h
  have hfn : ¬ fnClose.isPrefixOf (s.dropWhile blank) = true :=
    not_isPrefixOf (show toolClose ∈ innerTags by decide) (by decide) (by decide) h
  rw [readParams, if_neg hparam, if_neg hfn, if_pos (List.isPrefixOf_iff_prefix.mpr h)]

/-- Text before the next tag is passed over, cut off or not. -/
theorem readParams_cut {c : UInt8} {u y : Bytes} (hno : NoTag (c :: u ++ y))
    (hc : blank c = false) :
    readParams (u.dropWhile (· != '<'.toUInt8) ++ y) = readParams (c :: u ++ y) := by
  have hblank : (c :: u ++ y).dropWhile blank = c :: (u ++ y) :=
    List.dropWhile_cons_of_neg (by rw [hc]; decide)
  rw [readParams_pass hno hblank, List.append_eq, ← dropWhile_trimmed, readParams_next]

/-- A text that ends inside a tag closes no parameter. -/
theorem readParams_begun {s tag : Bytes} (htag : tag ∈ innerTags) (hp : s.dropWhile blank <+: tag)
    (hne : s.dropWhile blank ≠ tag) : readParams s = ([], []) := by
  cases ht : s.dropWhile blank with
  | nil => exact readParams_nil ht
  | cons c u =>
    rw [ht] at hp hne
    have hno : NoTag (c :: u) := by
      intro other ho hother
      have heq := innerTags_apart other ho tag htag (hother.trans hp)
      rw [heq] at hother
      exact hne (hp.eq_of_length (Nat.le_antisymm hp.length_le hother.length_le))
    have htail : '<'.toUInt8 ∉ u := by
      intro hmem
      obtain ⟨w, rfl⟩ := hp
      exact (innerTags_tail _ htag).2 (List.mem_append_left w hmem)
    have hnil : u.dropWhile (· != '<'.toUInt8) = [] := by
      refine List.dropWhile_eq_nil_iff.mpr fun d hd => ?_
      simp only [bne_iff_ne]
      rintro rfl
      exact htail hd
    rw [readParams_pass hno ht, hnil]
    exact readParams_nil (Eq.refl _)

end ToolCallSplit

end Llmx
