import Llmx.JsonGrammar
import Llmx.ToolCallOpenings
import Llmx.ReplyText

namespace Llmx

open Tags

theorem quoteByte_hex : ∀ n < 16, Json.hexDigit
    ((ascii ['0', '1', '2', '3', '4', '5', '6', '7', '8', '9', 'a', 'b', 'c', 'd', 'e', 'f']).getD
      n 0) = some n := by decide

theorem quoteByte_high {c : UInt8} (hc : ¬ c < 0x80) : quoteByte c = [c] := by
  unfold quoteByte
  rw [if_neg, if_neg]
  · exact fun hlt => hc (UInt8.lt_trans hlt (by decide))
  · rintro (rfl | rfl)
    · exact hc (by decide)
    · exact hc (by decide)

theorem chars_quoteByte {c : UInt8} {t d : Bytes} (hc : c < 0x80) (h : Json.Chars t d) :
    Json.Chars (quoteByte c ++ t) (c :: d) := by
  unfold quoteByte
  split
  next hshort =>
    refine .short ?_ h
    unfold Json.shortEscape
    rw [if_pos]
    rcases hshort with rfl | rfl
    · exact .inl (Eq.refl _)
    · exact .inr (.inl (Eq.refl _))
  next hplain =>
    obtain ⟨hquote, hback⟩ := not_or.mp hplain
    split
    next hctl =>
      have hlt : c.toNat < 32 := UInt8.lt_iff_toNat_lt.mp hctl
      have hhi : (c >>> 4).toNat = c.toNat / 16 := by
        rw [UInt8.toNat_shiftRight, Nat.shiftRight_eq_div_pow]
        exact Eq.refl _
      have hlo : (c &&& 0x0F).toNat = c.toNat % 16 := by
        rw [UInt8.toNat_and]
        exact Nat.and_two_pow_sub_one_eq_mod c.toNat 4
      have hx := quoteByte_hex (c >>> 4).toNat (by omega)
      have hy := quoteByte_hex (c &&& 0x0F).toNat (by omega)
      have hsur : ¬ Utf8.Surrogate c.toNat := fun hs => by
        have := hs.1
        omega
      have hzero : Json.hexDigit '0'.toUInt8 = some 0 := by decide
      have hchars := Json.Chars.unicode
        ⟨_, _, _, _, 0, 0, _, _, Eq.refl _, hzero, hzero, hx, hy, by omega⟩ hsur h
      rw [Utf8.encode_toNat hc] at hchars
      exact hchars
    next hctl => exact .plain (UInt8.not_lt.mp hctl) hc hquote hback h

theorem flatMap_quoteByte {s : Bytes} (h : ∀ c ∈ s, ¬ c < 0x80) : s.flatMap quoteByte = s := by
  induction s with
  | nil => exact Eq.refl _
  | cons c s ih =>
    rw [List.flatMap_cons, quoteByte_high (h c List.mem_cons_self),
      ih fun d hd => h d (List.mem_cons_of_mem c hd)]
    exact Eq.refl _

/-- Quoted text is the string of it. -/
theorem quote_string {s : Bytes} (h : Utf8.Valid s) : Json.IsString (quote s) s := by
  refine ⟨s.flatMap quoteByte, ?_, Eq.refl _⟩
  obtain ⟨ps, hps, rfl⟩ := h
  induction ps with
  | nil => exact .nil
  | cons p ps ih =>
    have hp := hps p List.mem_cons_self
    have hrest := ih fun q hq => hps q (List.mem_cons_of_mem p hq)
    rw [List.flatMap_cons, List.flatMap_append]
    by_cases hlow : p < 0x80
    · have hc : UInt8.ofNat p < 0x80 := by
        rw [UInt8.lt_iff_toNat_lt, Utf8.toNat_byte (by omega)]
        exact hlow
      rw [Utf8.encode_ascii hlow, List.flatMap_singleton]
      exact chars_quoteByte hc hrest
    · rw [flatMap_quoteByte fun c hc => Utf8.encode_high hp.1 (by omega) hc]
      exact .utf8 hp (by omega) hrest

namespace ToolCallSplit

theorem innerTags_ascii : ∀ tag ∈ innerTags, tag ≠ [] ∧ Utf8.isAscii tag = true := by decide

theorem blank_ascii {c : UInt8} (h : blank c = true) : c < 0x80 := by
  simp only [blank, Bool.or_eq_true, beq_iff_eq] at h
  rcases h with ((rfl | rfl) | rfl) | rfl
  · decide
  · decide
  · decide
  · decide

theorem valid_trimmed {s : Bytes} (h : Utf8.Valid s) : Utf8.Valid (s.dropWhile blank) := by
  rw [← List.takeWhile_append_dropWhile (p := blank) (l := s)] at h
  exact h.drop (Utf8.isAscii_iff.mpr fun c hc => blank_ascii (List.mem_takeWhile_imp hc))

theorem valid_split {tag s a b : Bytes} (ht : tag ≠ [] ∧ Utf8.isAscii tag = true)
    (h : Utf8.Valid s) (hs : split tag s = some (a, b)) : Utf8.Valid a ∧ Utf8.Valid b := by
  rw [split_eq hs] at h
  exact h.around ht.1 ht.2

theorem valid_after {tag s : Bytes} (ht : Utf8.isAscii tag = true) (h : Utf8.Valid s)
    (hp : tag <+: s) : Utf8.Valid (s.drop tag.length) := by
  obtain ⟨t, rfl⟩ := hp
  rw [List.drop_left]
  exact h.drop ht

theorem valid_chomp {s : Bytes} (h : Utf8.Valid s) : Utf8.Valid (chomp s) := by
  have hlast : ∀ t : Bytes, Utf8.Valid t →
      Utf8.Valid (if t.getLast? = some '\n'.toUInt8 then t.dropLast else t) := by
    intro t ht
    split
    next hend =>
      obtain ⟨u, rfl⟩ := List.getLast?_eq_some_iff.mp hend
      rw [List.dropLast_concat]
      exact (ht.cut (by decide)).1
    next => exact ht
  unfold chomp
  refine hlast _ ?_
  cases s with
  | nil => exact h
  | cons c s =>
    dsimp only
    split
    next hc => exact Utf8.Valid.tail (by rw [hc]; decide) h
    next => exact h

theorem valid_parameter {s key v rest : Bytes} (h : Utf8.Valid s) (hp : paramOpen <+: s)
    (hs : parameter s = some (key, v, rest)) :
    Utf8.Valid key ∧ Utf8.Valid v ∧ Utf8.Valid rest := by
  obtain ⟨⟨k, t⟩, hk, hs⟩ := Option.bind_eq_some_iff.mp hs
  obtain ⟨⟨u, r⟩, hu, hs⟩ := Option.map_eq_some_iff.mp hs
  cases hs
  obtain ⟨hkey, ht⟩ := valid_split (by decide)
    (valid_after (innerTags_ascii paramOpen (by decide)).2 h hp) hk
  obtain ⟨hv, hrest⟩ := valid_split (by decide) ht hu
  exact ⟨hkey, hv, hrest⟩

theorem valid_afterFunction {s : Bytes} (h : Utf8.Valid s) : Utf8.Valid (afterFunction s) := by
  unfold afterFunction
  split
  next hp =>
    exact valid_after (innerTags_ascii toolClose (by decide)).2 (valid_trimmed h)
      (List.isPrefixOf_iff_prefix.mp hp)
  next => exact h

/-- A text's parameters are text, and so is what follows them. -/
theorem valid_readParams {s : Bytes} (h : Utf8.Valid s) :
    (∀ p ∈ (readParams s).1, Utf8.Valid p.1 ∧ Utf8.Valid p.2) ∧ Utf8.Valid (readParams s).2 := by
  have hnone : ∀ p ∈ ([] : List (Bytes × Bytes)), Utf8.Valid p.1 ∧ Utf8.Valid p.2 := by
    intro p hp
    cases hp
  fun_induction readParams s with
  | case1 => exact ⟨hnone, .nil⟩
  | case2 s hpre key v rest hs params after hrest ih =>
    obtain ⟨hkey, hv, hafter⟩ :=
      valid_parameter (valid_trimmed h) (List.isPrefixOf_iff_prefix.mp hpre) hs
    obtain ⟨hparams, hend⟩ := ih hafter
    rw [hrest] at hparams hend
    refine ⟨fun p hp => ?_, hend⟩
    rcases List.mem_cons.mp hp with rfl | hp
    · exact ⟨hkey, valid_chomp hv⟩
    · exact hparams p hp
  | case3 s _ hp =>
    refine ⟨hnone, valid_afterFunction ?_⟩
    exact valid_after (innerTags_ascii fnClose (by decide)).2 (valid_trimmed h)
      (List.isPrefixOf_iff_prefix.mp hp)
  | case4 s _ _ hp =>
    exact ⟨hnone, valid_after (innerTags_ascii toolClose (by decide)).2 (valid_trimmed h)
      (List.isPrefixOf_iff_prefix.mp hp)⟩
  | case5 => exact ⟨hnone, .nil⟩
  | case6 s _ _ _ c u hs ih =>
    have ht := valid_trimmed h
    rw [hs] at ht
    exact ih (Utf8.Valid.dropWhile (x := [c]) (by decide) ht)

theorem valid_xmlHead {s name rest : Bytes} (h : Utf8.Valid s)
    (hs : xmlHead s = .opens (name, rest)) : Utf8.Valid rest := by
  obtain ⟨t, ht, hs⟩ := Opening_bind hs
  have hall := (literal_opens fnOpen_ne).mp ht
  have hv := valid_trimmed h
  rw [hall] at hv
  have htail := hv.drop (by decide)
  have hsplit := List.takeWhile_append_dropWhile (p := fun c => !endsName c) (l := t)
  split at hs
  next => cases hs
  next c r hd =>
    dsimp only at hs
    split at hs
    next => cases hs
    next hno =>
      cases hs
      have hc : c = '>'.toUInt8 := not_not.mp (not_or.mp hno).1
      rw [hd, hc] at hsplit
      rw [← hsplit] at htail
      exact (htail.cut (by decide)).2

theorem valid_readCalls {single : Bool} {s : Bytes} (h : Utf8.Valid s) :
    ∀ call ∈ readCalls single s, ∀ p ∈ call.params, Utf8.Valid p.1 ∧ Utf8.Valid p.2 := by
  have hopen : ∀ {s a b : Bytes}, Utf8.Valid s → split toolOpen s = some (a, b) →
      Utf8.Valid b := fun hs hb => (valid_split (by decide) hs hb).2
  fun_induction readCalls single s with
  | case1 =>
    intro call hcall
    cases hcall
  | case2 s a rest hs name inner hx ih =>
    have hinner := valid_readParams (valid_xmlHead (hopen h hs) hx)
    intro call hcall
    rcases List.mem_cons.mp hcall with rfl | hcall
    · exact hinner.1
    · split at hcall
      next => cases hcall
      next => exact ih hinner.2 call hcall
  | case3 s a rest hs hx ih => exact ih (hopen h hs)
  | case4 s a rest hs hx ih => exact ih (hopen h hs)

end ToolCallSplit

end Llmx
