import Llmx.JsonNumbers

namespace Llmx

namespace Json

theorem literal_reads (text s : Bytes) : Reads (fun r => s = text ++ r) (literal text s) := by
  unfold literal
  split
  next h =>
    obtain ⟨r, rfl⟩ := List.isPrefixOf_iff_prefix.mp h
    show text ++ r = text ++ (text ++ r).drop text.length
    rw [List.drop_left]
  · exact ⟨by decide, by decide⟩

theorem literal_complete (text r : Bytes) : literal text (text ++ r) = .ok r := by
  rw [literal, if_pos (List.isPrefixOf_iff_prefix.mpr ⟨r, rfl⟩), List.drop_left]

variable {δ : Type} {conv : Conversion δ}

theorem IsElements.space {m : Nat} {w t : Bytes} {vs : List (Value δ)} (hw : Ws w)
    (h : IsElements conv m t vs) : IsElements conv m (w ++ t) vs := by
  cases h with
  | last ha hv hb =>
    rw [← List.append_assoc, ← List.append_assoc]
    exact .last (hw.append ha) hv hb
  | more ha hv hb hrest =>
    rw [← List.append_assoc, ← List.append_assoc, ← List.append_assoc]
    exact .more (hw.append ha) hv hb hrest

theorem IsMembers.space {m : Nat} {w t : Bytes} {kvs : List (Bytes × Value δ)} (hw : Ws w)
    (h : IsMembers conv m t kvs) : IsMembers conv m (w ++ t) kvs := by
  cases h with
  | @last n a k b c t d key v ha hk hb hc hv hd =>
    have := IsMembers.last (hw.append ha) hk hb hc hv hd
    simpa only [List.append_assoc] using this
  | @more n a k b c t d rest key v kvs ha hk hb hc hv hd hrest =>
    have := IsMembers.more (hw.append ha) hk hb hc hv hd hrest
    simpa only [List.append_assoc] using this

section Containers

variable {m : Nat} {s : Bytes}

theorem parseArray_reads {elements : Bytes → Except Error (List (Value δ) × Bytes)}
    (h : ∀ s', s'.length < s.length → Reads (fun vr => ∃ t, IsElements conv m t vr.1 ∧
      s' = t ++ ']'.toUInt8 :: vr.2) (elements s')) :
    Reads (fun vr => ∃ a t, Ws a ∧ IsValue conv (m + 1) t vr.1 ∧ s = a ++ t ++ vr.2)
      (parseArray elements s) := by
  refine (expect_reads _ s).bind ?_
  rintro s1 ⟨a, ha, rfl⟩
  obtain ⟨w, hw, hs⟩ := ws_spaces s1
  refine (peek_reads (ws s1)).bind ?_
  rintro c ⟨r, hr⟩
  split
  next hc =>
    rw [hr, hc] at hs
    refine ⟨a, _, ha, .emptyArray hw, ?_⟩
    rw [hr, hs]
    simp only [List.append_assoc, List.cons_append, List.nil_append, List.tail_cons]
  next hc =>
    have hle := ws_length_le s1
    refine (h (ws s1) ?_).bind ?_
    · rw [List.length_append, List.length_cons]
      omega
    rintro ⟨vs, s2⟩ ⟨t, ht, heq⟩
    dsimp only at ht heq
    refine ⟨a, _, ha, .array (ht.space hw), ?_⟩
    rw [hs, heq]
    simp only [List.append_assoc, List.cons_append, List.nil_append]

theorem parseObject_reads {members : Bytes → Except Error (List (Bytes × Value δ) × Bytes)}
    (h : ∀ s', s'.length < s.length → Reads (fun vr => ∃ t, IsMembers conv m t vr.1 ∧
      s' = t ++ '\x7d'.toUInt8 :: vr.2) (members s')) :
    Reads (fun vr => ∃ a t, Ws a ∧ IsValue conv (m + 1) t vr.1 ∧ s = a ++ t ++ vr.2)
      (parseObject members s) := by
  refine (expect_reads _ s).bind ?_
  rintro s1 ⟨a, ha, rfl⟩
  obtain ⟨w, hw, hs⟩ := ws_spaces s1
  refine (peek_reads (ws s1)).bind ?_
  rintro c ⟨r, hr⟩
  split
  next hc =>
    rw [hr, hc] at hs
    refine ⟨a, _, ha, .emptyObject hw, ?_⟩
    rw [hr, hs]
    simp only [List.append_assoc, List.cons_append, List.nil_append, List.tail_cons]
  next hc =>
    have hle := ws_length_le s1
    refine (h (ws s1) ?_).bind ?_
    · rw [List.length_append, List.length_cons]
      omega
    rintro ⟨kvs, s2⟩ ⟨t, ht, heq⟩
    dsimp only at ht heq
    refine ⟨a, _, ha, .object (ht.space hw), ?_⟩
    rw [hs, heq]
    simp only [List.append_assoc, List.cons_append, List.nil_append]

end Containers

/-- What the three reads of values give with so much fuel: texts of the grammar, whose nesting and
the depth they are read at are 256 together. -/
structure Sound (conv : Conversion δ) (n : Nat) : Prop where
  value : ∀ m depth s, depth + m = 256 → 2 * s.length + 1 ≤ n →
    Reads (fun vr => ∃ a t, Ws a ∧ IsValue conv m t vr.1 ∧ s = a ++ t ++ vr.2)
      (parseValue conv n depth s)
  elements : ∀ m depth s, depth + m = 256 → 2 * s.length + 2 ≤ n →
    Reads (fun vr => ∃ t, IsElements conv m t vr.1 ∧ s = t ++ ']'.toUInt8 :: vr.2)
      (parseElements conv n depth s)
  members : ∀ m depth s, depth + m = 256 → 2 * s.length + 2 ≤ n →
    Reads (fun vr => ∃ t, IsMembers conv m t vr.1 ∧ s = t ++ '\x7d'.toUInt8 :: vr.2)
      (parseMembers conv n depth s)

theorem parseValue_reads {n m depth : Nat} {s : Bytes} (ih : Sound conv n)
    (hdepth : depth + m = 256) (hn : 2 * s.length + 1 ≤ n + 1) :
    Reads (fun vr => ∃ a t, Ws a ∧ IsValue conv m t vr.1 ∧ s = a ++ t ++ vr.2)
      (parseValue conv (n + 1) depth s) := by
  obtain ⟨a, ha, hs⟩ := ws_spaces s
  have hle := ws_length_le s
  rw [parseValue]
  refine (peek_reads (ws s)).bind ?_
  rintro c ⟨r, hr⟩
  split
  next hopen =>
    split
    · exact ⟨by decide, by decide⟩
    next hlimit =>
      obtain ⟨m, rfl⟩ : ∃ k, m = k + 1 := ⟨m - 1, by omega⟩
      have hback : ∀ vr : Value δ × Bytes, (∃ b t, Ws b ∧ IsValue conv (m + 1) t vr.1 ∧
          ws s = b ++ t ++ vr.2) → ∃ b t, Ws b ∧ IsValue conv (m + 1) t vr.1 ∧
          s = b ++ t ++ vr.2 := by
        rintro vr ⟨b, t, hb, ht, heq⟩
        refine ⟨a ++ b, t, ha.append hb, ht, ?_⟩
        rw [hs, heq]
        simp only [List.append_assoc]
      split
      next hbrace =>
        refine (parseObject_reads fun s' hs' => ?_).mono hback
        exact ih.members m (depth + 1) s' (by omega) (by omega)
      next hbracket =>
        refine (parseArray_reads fun s' hs' => ?_).mono hback
        exact ih.elements m (depth + 1) s' (by omega) (by omega)
  next hscalar =>
    have hword : ∀ (text : Bytes) (v : Value δ), IsValue conv m text v →
        Reads (fun vr : Value δ × Bytes => ∃ b t, Ws b ∧ IsValue conv m t vr.1 ∧
          s = b ++ t ++ vr.2) (literal text (ws s) >>= fun s => .ok (v, s)) := by
      intro text v hv
      refine (literal_reads text (ws s)).bind ?_
      rintro s' heq
      refine ⟨a, text, ha, hv, ?_⟩
      rw [hs, heq, List.append_assoc]
    split
    next hquote =>
      refine (parseString_reads (ws s)).bind ?_
      rintro ⟨str, s'⟩ ⟨w, t, hw, ht, heq⟩
      refine ⟨a ++ w, t, ha.append hw, .string ht, ?_⟩
      rw [hs, heq]
      simp only [List.append_assoc]
    · split
      · exact hword _ _ .true
      · split
        · exact hword _ _ .false
        · split
          · exact hword _ _ .null
          · refine (parseNumber_reads conv (s := ws s) ?_).mono ?_
            · rw [hr]
              exact List.cons_ne_nil _ _
            rintro ⟨v, s'⟩ ⟨t, int, frac, exp, num, hnum, hrange, hv, heq⟩
            dsimp only at hv heq
            subst hv
            refine ⟨a, t, ha, .number hnum hrange, ?_⟩
            rw [hs, heq, List.append_assoc]

theorem parseElements_reads {n m depth : Nat} {s : Bytes} (ih : Sound conv n)
    (hdepth : depth + m = 256) (hn : 2 * s.length + 2 ≤ n + 1) :
    Reads (fun vr => ∃ t, IsElements conv m t vr.1 ∧ s = t ++ ']'.toUInt8 :: vr.2)
      (parseElements conv (n + 1) depth s) := by
  rw [parseElements]
  refine (ih.value m depth s hdepth (by omega)).bind ?_
  rintro ⟨v, s1⟩ ⟨a, t, ha, ht, rfl⟩
  obtain ⟨b, hb, hs1⟩ := ws_spaces s1
  refine (peek_reads (ws s1)).bind ?_
  rintro c ⟨r, hr⟩
  dsimp only at ht hn ⊢
  rw [hr] at hs1
  simp only [hs1, List.length_append, List.length_cons] at hn
  split
  next hc =>
    rw [hr, List.tail_cons]
    refine (ih.elements m depth r hdepth (by omega)).bind ?_
    rintro ⟨vs, s2⟩ ⟨rest, hrest, heq⟩
    refine ⟨_, .more ha ht hb hrest, ?_⟩
    rw [hs1, heq, hc]
    simp only [List.append_assoc, List.cons_append]
  · split
    next hc =>
      refine ⟨_, .last ha ht hb, ?_⟩
      rw [hr, hs1, hc]
      simp only [List.append_assoc, List.tail_cons]
    · exact ⟨by decide, by decide⟩

theorem parseMembers_reads {n m depth : Nat} {s : Bytes} (ih : Sound conv n)
    (hdepth : depth + m = 256) (hn : 2 * s.length + 2 ≤ n + 1) :
    Reads (fun vr => ∃ t, IsMembers conv m t vr.1 ∧ s = t ++ '\x7d'.toUInt8 :: vr.2)
      (parseMembers conv (n + 1) depth s) := by
  obtain ⟨a, ha, hs⟩ := ws_spaces s
  rw [parseMembers]
  refine (parseString_reads (ws s)).bind ?_
  rintro ⟨key, s1⟩ ⟨a', k, ha', hk, heq⟩
  obtain ⟨b, hb, hs1⟩ := ws_spaces s1
  refine (expect_reads _ (ws s1)).bind ?_
  rintro s2 ⟨b', hb', heq'⟩
  dsimp only at hk heq
  rw [heq, hs1, heq'] at hs
  simp only [hs, List.length_append, List.length_cons] at hn
  refine (ih.value m depth s2 hdepth (by omega)).bind ?_
  rintro ⟨v, s3⟩ ⟨c, t, hc, ht, rfl⟩
  obtain ⟨d, hd, hs3⟩ := ws_spaces s3
  refine (peek_reads (ws s3)).bind ?_
  rintro e ⟨r, hr⟩
  dsimp only at ht hn hs ⊢
  rw [hr] at hs3
  simp only [hs3, List.length_append, List.length_cons] at hn
  split
  next he =>
    rw [hr, List.tail_cons]
    refine (ih.members m depth r hdepth (by omega)).bind ?_
    rintro ⟨kvs, s4⟩ ⟨rest, hrest, heq''⟩
    refine ⟨_, .more (ha.append ha') hk (hb.append hb') hc ht hd hrest, ?_⟩
    rw [hs, hs3, heq'', he]
    simp only [List.append_assoc, List.cons_append]
  · split
    next he =>
      refine ⟨_, .last (ha.append ha') hk (hb.append hb') hc ht hd, ?_⟩
      rw [hr, hs, hs3, he]
      simp only [List.append_assoc, List.cons_append, List.tail_cons]
    · exact ⟨by decide, by decide⟩

theorem sound (conv : Conversion δ) (n : Nat) : Sound conv n := by
  induction n with
  | zero =>
    constructor
    · intro m depth s _ hn
      exact absurd hn (Nat.not_succ_le_zero _)
    · intro m depth s _ hn
      exact absurd hn (Nat.not_succ_le_zero _)
    · intro m depth s _ hn
      exact absurd hn (Nat.not_succ_le_zero _)
  | succ n ih =>
    exact ⟨fun _ _ _ => parseValue_reads ih, fun _ _ _ => parseElements_reads ih,
      fun _ _ _ => parseMembers_reads ih⟩

theorem parse_reads (conv : Conversion δ) (s : Bytes) : Reads (IsDocument conv s) (parse conv s) := by
  obtain ⟨w, hw, hs⟩ := ws_spaces s
  refine ((sound conv _).value 256 0 (ws s) rfl (Nat.le_refl _)).bind ?_
  rintro ⟨v, r⟩ ⟨a, t, ha, ht, heq⟩
  obtain ⟨b, hb, hr⟩ := ws_spaces r
  dsimp only at ht heq ⊢
  split
  · exact ⟨by decide, by decide⟩
  next hend =>
    rw [not_not.mp hend, List.append_nil] at hr
    refine ⟨w ++ a, t, b, hw.append ha, ht, hb, ?_⟩
    rw [hs, heq, hr]
    simp only [List.append_assoc]

end Json

end Llmx
