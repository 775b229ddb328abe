import Llmx.JsonExact
import Llmx.TemplateText
import Llmx.ToolCallQuotes

namespace Llmx

namespace TemplateJson

open Json

/-- A code point is read back from its bytes. -/
theorem decodeAt_encode {p : Nat} (hp : Utf8.Scalar p) (r : Bytes) :
    ∃ c cs, Utf8.encode p = c :: cs ∧ decodeAt c (cs ++ r) = (p, cs.length + 1) := by
  have hvalid := Utf8.validLength_encode hp r
  have henc := Utf8.encode_eq p hp.1
  cases he : Utf8.encode p with
  | nil =>
    rw [he] at henc
    split at henc
    next => cases henc
    split at henc
    next => cases henc
    split at henc
    next => cases henc
    next => cases henc
  | cons c cs =>
    refine ⟨c, cs, Eq.refl _, ?_⟩
    rw [he, List.cons_append, List.length_cons] at hvalid
    rw [he, List.map_cons] at henc
    unfold decodeAt
    rw [hvalid, Option.getD_some]
    dsimp only
    rw [if_neg (Nat.succ_ne_zero _), Nat.add_sub_cancel, List.take_left]
    have h5 : ∀ x : Nat, x &&& 0x1F = x % 32 := fun x => Nat.and_two_pow_sub_one_eq_mod x 5
    have h4 : ∀ x : Nat, x &&& 0x0F = x % 16 := fun x => Nat.and_two_pow_sub_one_eq_mod x 4
    have h3 : ∀ x : Nat, x &&& 0x07 = x % 8 := fun x => Nat.and_two_pow_sub_one_eq_mod x 3
    split at henc
    next =>
      obtain ⟨hc, hcs⟩ := List.cons.inj henc
      rw [List.map_eq_nil_iff.mp hcs, hc]
      exact Eq.refl _
    split at henc
    next =>
      obtain ⟨hc, hcs⟩ := List.cons.inj henc
      obtain ⟨d, ds, rfl, hd, hds⟩ := List.map_eq_cons_iff.mp hcs
      rw [List.map_eq_nil_iff.mp hds]
      refine Prod.ext ?_ (Eq.refl _)
      show (c.toNat &&& 0x1F) <<< 6 ||| (d.toNat &&& 0x3F) = p
      rw [Utf8.or_tail, h5]
      omega
    split at henc
    next =>
      obtain ⟨hc, hcs⟩ := List.cons.inj henc
      obtain ⟨d, ds, rfl, hd, hds⟩ := List.map_eq_cons_iff.mp hcs
      obtain ⟨e, es, rfl, he', hes⟩ := List.map_eq_cons_iff.mp hds
      rw [List.map_eq_nil_iff.mp hes]
      refine Prod.ext ?_ (Eq.refl _)
      show ((c.toNat &&& 0x0F) <<< 6 ||| (d.toNat &&& 0x3F)) <<< 6 ||| (e.toNat &&& 0x3F) = p
      rw [Utf8.or_tail, Utf8.or_tail, h4]
      omega
    next =>
      obtain ⟨hc, hcs⟩ := List.cons.inj henc
      obtain ⟨d, ds, rfl, hd, hds⟩ := List.map_eq_cons_iff.mp hcs
      obtain ⟨e, es, rfl, he', hes⟩ := List.map_eq_cons_iff.mp hds
      obtain ⟨f, fs, rfl, hf, hfs⟩ := List.map_eq_cons_iff.mp hes
      rw [List.map_eq_nil_iff.mp hfs]
      have hle := hp.1
      refine Prod.ext ?_ (Eq.refl _)
      show (((c.toNat &&& 0x07) <<< 6 ||| (d.toNat &&& 0x3F)) <<< 6 ||| (e.toNat &&& 0x3F)) <<< 6 |||
        (f.toNat &&& 0x3F) = p
      rw [Utf8.or_tail, Utf8.or_tail, Utf8.or_tail, h3]
      omega

theorem jsonChars_encode {p : Nat} (hp : Utf8.Scalar p) (ensureAscii : Bool) (r : Bytes) :
    jsonChars ensureAscii (Utf8.encode p ++ r) =
      jsonChar ensureAscii p (Utf8.encode p) ++ jsonChars ensureAscii r := by
  obtain ⟨c, cs, he, hdecode⟩ := decodeAt_encode hp r
  rw [he, List.cons_append, jsonChars, hdecode]
  dsimp only
  have htake : (c :: (cs ++ r)).take (cs.length + 1) = c :: cs := by
    rw [List.take_succ_cons, List.take_left]
  have hdrop : (c :: (cs ++ r)).drop (cs.length + 1) = r := by
    rw [List.drop_succ_cons, List.drop_left]
  rw [htake, hdrop]

theorem hexLower_digit : ∀ n < 16, hexDigit (hexLower n) = some n := by decide

theorem escapeU_hex {n : Nat} (h : n < 0x10000) :
    ∃ h', escapeU n = '\\'.toUInt8 :: 'u'.toUInt8 :: h' ∧ IsHex4 h' n := by
  refine ⟨_, Eq.refl _, _, _, _, _, n / 4096, n / 256 % 16, n / 16 % 16, n % 16, Eq.refl _,
    hexLower_digit _ ?_, hexLower_digit _ ?_, hexLower_digit _ ?_, hexLower_digit _ ?_, ?_⟩
  · omega
  · omega
  · omega
  · omega
  · omega

theorem shortLetter_escape {p : Nat} {letter : UInt8} (h : shortLetter p = some letter) :
    p < 0x80 ∧ shortEscape letter = some (UInt8.ofNat p) ∧ letter < 0x80 := by
  have hall : ∀ p < 0x80, ((shortLetter p).all fun letter =>
      decide (shortEscape letter = some (UInt8.ofNat p) ∧ letter < 0x80)) = true := by decide
  have hp : p < 0x80 := by
    unfold shortLetter at h
    grind
  have hletter := hall p hp
  rw [h] at hletter
  exact ⟨hp, of_decide_eq_true hletter⟩

/-- A character's text in a string. -/
theorem chars_jsonChar {p : Nat} {t d : Bytes} (hp : Utf8.Scalar p) (ensureAscii : Bool)
    (h : Chars t d) :
    Chars (jsonChar ensureAscii p (Utf8.encode p) ++ t) (Utf8.encode p ++ d) := by
  unfold jsonChar
  split
  next letter hletter =>
    obtain ⟨hlow, hescape, -⟩ := shortLetter_escape hletter
    rw [Utf8.encode_ascii hlow]
    exact .short hescape h
  next hnone =>
    have hquote : p ≠ 34 := by
      rintro rfl
      cases hnone
    have hback : p ≠ 92 := by
      rintro rfl
      cases hnone
    split
    next hctl =>
      obtain ⟨x, hx, hhex⟩ := escapeU_hex (n := p) (by omega)
      rw [hx]
      exact .unicode hhex hp.2 h
    next hctl =>
      split
      next hraw =>
        by_cases hlow : p < 0x80
        · have hnat : (UInt8.ofNat p).toNat = p := Utf8.toNat_byte (by omega)
          rw [Utf8.encode_ascii hlow]
          refine .plain ?_ ?_ ?_ ?_ h
          · rw [UInt8.le_iff_toNat_le, hnat]
            exact Nat.le_of_not_lt hctl
          · rw [UInt8.lt_iff_toNat_lt, hnat]
            exact hlow
          · intro heq
            rw [heq] at hnat
            exact hquote hnat.symm
          · intro heq
            rw [heq] at hnat
            exact hback hnat.symm
        · exact .utf8 hp (by omega) h
      next hraw =>
        split
        next hhigh =>
          have hle := hp.1
          have hmod : (p - 0x10000) &&& 0x3FF = (p - 0x10000) % 1024 :=
            Nat.and_two_pow_sub_one_eq_mod _ 10
          have hdiv : (p - 0x10000) >>> 10 = (p - 0x10000) / 1024 := Nat.shiftRight_eq_div_pow _ _
          rw [hmod, hdiv]
          obtain ⟨x, hx, hhi⟩ := escapeU_hex (n := 0xD800 + (p - 0x10000) / 1024) (by omega)
          obtain ⟨y, hy, hlo⟩ := escapeU_hex (n := 0xDC00 + (p - 0x10000) % 1024) (by omega)
          have hpair := Chars.pair hhi (by omega) (by omega) hlo (by omega) (by omega) h
          have hcode : 0x10000 + (0xD800 + (p - 0x10000) / 1024 - 0xD800) * 0x400 +
              (0xDC00 + (p - 0x10000) % 1024 - 0xDC00) = p := by omega
          rw [hcode] at hpair
          rw [hx, hy]
          exact hpair
        next hhigh =>
          obtain ⟨x, hx, hhex⟩ := escapeU_hex (n := p) (by omega)
          rw [hx]
          exact .unicode hhex hp.2 h

/-- Text written as a string is the string of it. -/
theorem jsonString_string {s : Bytes} (ensureAscii : Bool) (h : Utf8.Valid s) :
    IsString (jsonString s ensureAscii) s := by
  refine ⟨jsonChars ensureAscii s, ?_, Eq.refl _⟩
  obtain ⟨ps, hps, rfl⟩ := h
  induction ps with
  | nil =>
    rw [List.flatMap_nil, jsonChars]
    exact .nil
  | cons p ps ih =>
    have hp := hps p List.mem_cons_self
    rw [List.flatMap_cons, jsonChars_encode hp]
    exact chars_jsonChar hp ensureAscii (ih fun q hq => hps q (List.mem_cons_of_mem p hq))

theorem decimal_digit {n : Nat} (h : n < 10) : isDigit (UInt8.ofNat (48 + n)) = true := by
  have hall : ∀ m < 10, isDigit (UInt8.ofNat (48 + m)) = true := by decide
  exact hall n h

theorem decimal_digits (n : Nat) : Digits (decimal n) := by
  fun_induction decimal n with
  | case1 n h =>
    refine ⟨List.cons_ne_nil _ _, fun c hc => ?_⟩
    rw [List.mem_singleton.mp hc]
    exact decimal_digit h
  | case2 n h ih =>
    refine ⟨fun hnil => List.cons_ne_nil _ _ (List.append_eq_nil_iff.mp hnil).2, fun c hc => ?_⟩
    rcases List.mem_append.mp hc with hc | hc
    · exact ih.2 c hc
    · rw [List.mem_singleton.mp hc]
      exact decimal_digit (Nat.mod_lt _ (by omega))

theorem decimal_head {n : Nat} (h : 0 < n) : (decimal n).head? ≠ some '0'.toUInt8 := by
  fun_induction decimal n with
  | case1 n hn =>
    have hall : ∀ m < 10, 0 < m → UInt8.ofNat (48 + m) ≠ '0'.toUInt8 := by decide
    exact fun heq => hall n hn h (Option.some.inj heq)
  | case2 n hn ih =>
    rw [List.head?_append_of_ne_nil _ (decimal_digits (n / 10)).1]
    exact ih (by omega)

theorem decimal_integral (n : Nat) : IsIntegral (decimal n) := by
  by_cases hzero : n = 0
  · refine .inl ?_
    rw [hzero, decimal]
    exact Eq.refl _
  · exact .inr ⟨decimal_digits n, decimal_head (Nat.pos_of_ne_zero hzero)⟩

theorem integerText_number (i : Int) :
    ∃ int, IsNumber (integerText i) int [] [] := by
  refine ⟨decimal i.natAbs, ⟨?_, decimal_integral _, .inl (Eq.refl _), .inl (Eq.refl _)⟩⟩
  unfold integerText
  split
  next => exact ⟨['-'.toUInt8], .inr (Eq.refl _), by simp⟩
  next => exact ⟨[], .inl (Eq.refl _), by simp⟩

end TemplateJson

end Llmx
