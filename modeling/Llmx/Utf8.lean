import Llmx.ReplySplit

namespace Llmx

namespace Utf8

/-- The UTF-8 bytes of a code point up to U+10FFFF. -/
def encode (cp : Nat) : Bytes :=
  if cp < 0x80 then [UInt8.ofNat cp]
  else if cp < 0x800 then [UInt8.ofNat (0xC0 ||| cp >>> 6), UInt8.ofNat (0x80 ||| (cp &&& 0x3F))]
  else if cp < 0x10000 then
    [UInt8.ofNat (0xE0 ||| cp >>> 12), UInt8.ofNat (0x80 ||| ((cp >>> 6) &&& 0x3F)),
      UInt8.ofNat (0x80 ||| (cp &&& 0x3F))]
  else
    [UInt8.ofNat (0xF0 ||| cp >>> 18), UInt8.ofNat (0x80 ||| ((cp >>> 12) &&& 0x3F)),
      UInt8.ofNat (0x80 ||| ((cp >>> 6) &&& 0x3F)), UInt8.ofNat (0x80 ||| (cp &&& 0x3F))]

/-- What a lead byte announces: the bytes after it, its bits of the code and the least code of
that length. -/
def lead (first : Nat) : Option (Nat × Nat × Nat) :=
  if 0xC2 ≤ first ∧ first ≤ 0xDF then some (1, first &&& 0x1F, 0x80)
  else if 0xE0 ≤ first ∧ first ≤ 0xEF then some (2, first &&& 0x0F, 0x800)
  else if 0xF0 ≤ first ∧ first ≤ 0xF4 then some (3, first &&& 0x07, 0x10000)
  else none

/-- The code `count` continuation bytes bring `code` to, `none` inside where one is no continuation
byte; `none` where a byte past the end is read. -/
def continued : Bytes → Nat → Nat → Option (Option Nat)
  | _, 0, code => some (some code)
  | [], _ + 1, _ => none
  | c :: cs, count + 1, code =>
    if c.toNat &&& 0xC0 ≠ 0x80 then some none
    else continued cs count ((code <<< 6) ||| (c.toNat &&& 0x3F))

def Surrogate (code : Nat) : Prop := 0xD800 ≤ code ∧ code ≤ 0xDFFF

instance : DecidablePred Surrogate := fun _ => inferInstanceAs (Decidable (_ ∧ _))

/-- The length of the valid UTF-8 sequence a text begins with, or 0; `none` where a byte past the
end is read. -/
def validLength : Bytes → Option Nat
  | [] => none
  | first :: rest =>
    if first.toNat < 0x80 then some 1
    else
      match lead first.toNat with
      | none => some 0
      | some (count, code, minimum) =>
        if rest.length < count then some 0
        else
          match continued rest count code with
          | none => none
          | some none => some 0
          | some (some code) =>
            if code < minimum ∨ 0x10FFFF < code ∨ Surrogate code then some 0 else some (count + 1)

def Scalar (cp : Nat) : Prop := cp ≤ 0x10FFFF ∧ ¬ Surrogate cp

theorem tail_iff : ∀ c < 256, c &&& 0xC0 = 0x80 ↔ 0x80 ≤ c ∧ c < 0xC0 := by
  decide +kernel

theorem and_tail (c : Nat) : c &&& 0x3F = c % 64 := Nat.and_two_pow_sub_one_eq_mod c 6

theorem or_tail {code c : Nat} : (code <<< 6) ||| (c &&& 0x3F) = code * 64 + c % 64 := by
  have hlt : c % 64 < 2 ^ 6 := Nat.mod_lt _ (by decide)
  rw [and_tail, Nat.shiftLeft_eq, Nat.mul_comm, ← Nat.two_pow_add_eq_or_of_lt hlt]

theorem tail_byte {x : Nat} : 0x80 ||| (x &&& 0x3F) = 0x80 + x % 64 := by
  have hlt : x % 64 < 2 ^ 7 := (Nat.mod_lt x (by decide)).trans (by decide)
  rw [and_tail]
  exact (Nat.two_pow_add_eq_or_of_lt hlt 1).symm

theorem toNat_byte {x : Nat} (hx : x < 256) : (UInt8.ofNat x).toNat = x :=
  UInt8.toNat_ofNat_of_lt' hx

/-- The bytes of a code point by division. -/
theorem encode_eq (cp : Nat) (h : cp ≤ 0x10FFFF) :
    (encode cp).map UInt8.toNat =
      if cp < 0x80 then [cp]
      else if cp < 0x800 then [0xC0 + cp / 64, 0x80 + cp % 64]
      else if cp < 0x10000 then [0xE0 + cp / 4096, 0x80 + cp / 64 % 64, 0x80 + cp % 64]
      else [0xF0 + cp / 262144, 0x80 + cp / 4096 % 64, 0x80 + cp / 64 % 64, 0x80 + cp % 64] := by
  have hc0 : ∀ x < 32, 0xC0 ||| x = 0xC0 + x := by decide
  have he0 : ∀ x < 16, 0xE0 ||| x = 0xE0 + x := by decide
  have hf0 : ∀ x < 8, 0xF0 ||| x = 0xF0 + x := by decide
  unfold encode
  simp only [Nat.shiftRight_eq_div_pow, tail_byte]
  split
  · simp only [List.map_cons, List.map_nil]
    rw [toNat_byte (by omega)]
  · split
    · rw [hc0 _ (by omega)]
      simp only [List.map_cons, List.map_nil]
      rw [toNat_byte (by omega), toNat_byte (by omega)]
    · split
      · rw [he0 _ (by omega)]
        simp only [List.map_cons, List.map_nil]
        rw [toNat_byte (by omega), toNat_byte (by omega), toNat_byte (by omega)]
      · rw [hf0 _ (by omega)]
        simp only [List.map_cons, List.map_nil]
        rw [toNat_byte (by omega), toNat_byte (by omega), toNat_byte (by omega),
          toNat_byte (by omega)]

theorem map_toNat_inj {a b : Bytes} (h : a.map UInt8.toNat = b.map UInt8.toNat) : a = b :=
  List.map_injective_iff.mpr (fun _ _ => UInt8.toNat_inj.mp) h

@[simp] theorem continued_zero (rest : Bytes) (code : Nat) :
    continued rest 0 code = some (some code) := by
  cases rest <;> rfl

theorem continued_ne_none {rest : Bytes} {count : Nat} (code : Nat) (h : count ≤ rest.length) :
    continued rest count code ≠ none := by
  induction count generalizing rest code with
  | zero =>
    rw [continued_zero]
    exact Option.some_ne_none _
  | succ n ih =>
    cases rest with
    | nil => exact absurd h (Nat.not_succ_le_zero n)
    | cons c cs =>
      rw [continued]
      split
      · exact Option.some_ne_none _
      · exact ih _ (Nat.le_of_succ_le_succ h)

/-- No byte past the end is read. -/
theorem validLength_ne_none {c : UInt8} {rest : Bytes} : validLength (c :: rest) ≠ none := by
  simp only [validLength]
  split
  · exact Option.some_ne_none _
  · split
    · exact Option.some_ne_none _
    next count code minimum hlead =>
      split
      · exact Option.some_ne_none _
      next hlen =>
        have hne := continued_ne_none code (Nat.le_of_not_lt hlen)
        split
        next hnone => exact absurd hnone hne
        · exact Option.some_ne_none _
        · split <;> exact Option.some_ne_none _

/-- Continuation bytes read: how many, and the code in base 64. -/
theorem continued_some {rest : Bytes} {count code result : Nat}
    (h : continued rest (count + 1) code = some (some result)) :
    ∃ c cs, rest = c :: cs ∧ 0x80 ≤ c.toNat ∧ c.toNat < 0xC0 ∧
      continued cs count (code * 64 + c.toNat % 64) = some (some result) := by
  cases rest with
  | nil => cases h
  | cons c cs =>
    rw [continued] at h
    split at h
    · cases h
    next htail =>
      obtain ⟨hlo, hhi⟩ := (tail_iff _ c.toNat_lt).mp (not_not.mp htail)
      rw [or_tail] at h
      exact ⟨c, cs, rfl, hlo, hhi, h⟩

theorem lead_some {first count code minimum : Nat}
    (h : lead first = some (count, code, minimum)) :
    (count = 1 ∧ code = first % 32 ∧ minimum = 0x80 ∧ 0xC2 ≤ first ∧ first ≤ 0xDF) ∨
      (count = 2 ∧ code = first % 16 ∧ minimum = 0x800 ∧ 0xE0 ≤ first ∧ first ≤ 0xEF) ∨
      (count = 3 ∧ code = first % 8 ∧ minimum = 0x10000 ∧ 0xF0 ≤ first ∧ first ≤ 0xF4) := by
  unfold lead at h
  rw [show first &&& 0x1F = first % 32 from Nat.and_two_pow_sub_one_eq_mod first 5,
    show first &&& 0x0F = first % 16 from Nat.and_two_pow_sub_one_eq_mod first 4,
    show first &&& 0x07 = first % 8 from Nat.and_two_pow_sub_one_eq_mod first 3] at h
  split at h
  next hr =>
    cases h
    exact .inl ⟨rfl, rfl, rfl, hr⟩
  · split at h
    next hr =>
      cases h
      exact .inr (.inl ⟨rfl, rfl, rfl, hr⟩)
    · split at h
      next hr =>
        cases h
        exact .inr (.inr ⟨rfl, rfl, rfl, hr⟩)
      · cases h

/-- A length is that of a code point's bytes, the text's first. -/
theorem validLength_sound {c : UInt8} {rest : Bytes} {n : Nat}
    (h : validLength (c :: rest) = some n) (hn : n ≠ 0) :
    ∃ p tail, Scalar p ∧ c :: rest = encode p ++ tail ∧ (encode p).length = n ∧
      (0x80 ≤ c.toNat → 0x80 ≤ p) := by
  simp only [validLength] at h
  split at h
  next hascii =>
    cases h
    refine ⟨c.toNat, rest, ⟨by omega, fun hs => ?_⟩, ?_, ?_, fun hc => hc⟩
    · obtain ⟨hlo, -⟩ := hs
      omega
    · rw [encode, if_pos hascii, UInt8.ofNat_toNat]
      rfl
    · rw [encode, if_pos hascii]
      rfl
  next hhigh =>
    split at h
    next => exact absurd (Option.some.inj h).symm hn
    next count code minimum hlead =>
      split at h
      · exact absurd (Option.some.inj h).symm hn
      · split at h
        · cases h
        · exact absurd (Option.some.inj h).symm hn
        next p hcont =>
          split at h
          · exact absurd (Option.some.inj h).symm hn
          next hok =>
            cases h
            have hp : p ≤ 0x10FFFF := by omega
            have hsur : ¬ Surrogate p := fun hs => hok (.inr (.inr hs))
            have henc := encode_eq p hp
            rcases lead_some hlead with ⟨rfl, rfl, rfl, hlo, hhi⟩ | ⟨rfl, rfl, rfl, hlo, hhi⟩ |
              ⟨rfl, rfl, rfl, hlo, hhi⟩
            · obtain ⟨c1, cs, rfl, h1, h1', hcont⟩ := continued_some hcont
              rw [continued_zero] at hcont
              cases hcont
              rw [if_neg (by omega), if_pos (by omega)] at henc
              have he : encode (c.toNat % 32 * 64 + c1.toNat % 64) = [c, c1] := by
                refine map_toNat_inj (henc.trans ?_)
                simp only [List.map_cons, List.map_nil, List.cons.injEq, and_true]
                omega
              exact ⟨_, cs, ⟨hp, hsur⟩, by rw [he]; rfl, by rw [he]; rfl, fun _ => by omega⟩
            · obtain ⟨c1, cs, rfl, h1, h1', hcont⟩ := continued_some hcont
              obtain ⟨c2, cs, rfl, h2, h2', hcont⟩ := continued_some hcont
              rw [continued_zero] at hcont
              cases hcont
              rw [if_neg (by omega), if_neg (by omega), if_pos (by omega)] at henc
              have he : encode ((c.toNat % 16 * 64 + c1.toNat % 64) * 64 + c2.toNat % 64) =
                  [c, c1, c2] := by
                refine map_toNat_inj (henc.trans ?_)
                simp only [List.map_cons, List.map_nil, List.cons.injEq, and_true]
                omega
              exact ⟨_, cs, ⟨hp, hsur⟩, by rw [he]; rfl, by rw [he]; rfl, fun _ => by omega⟩
            · obtain ⟨c1, cs, rfl, h1, h1', hcont⟩ := continued_some hcont
              obtain ⟨c2, cs, rfl, h2, h2', hcont⟩ := continued_some hcont
              obtain ⟨c3, cs, rfl, h3, h3', hcont⟩ := continued_some hcont
              rw [continued_zero] at hcont
              cases hcont
              rw [if_neg (by omega), if_neg (by omega), if_neg (by omega)] at henc
              have he : encode (((c.toNat % 8 * 64 + c1.toNat % 64) * 64 + c2.toNat % 64) * 64 +
                  c3.toNat % 64) = [c, c1, c2, c3] := by
                refine map_toNat_inj (henc.trans ?_)
                simp only [List.map_cons, List.map_nil, List.cons.injEq, and_true]
                omega
              exact ⟨_, cs, ⟨hp, hsur⟩, by rw [he]; rfl, by rw [he]; rfl, fun _ => by omega⟩

theorem continued_cons {c : UInt8} {cs : Bytes} {count code : Nat} (hlo : 0x80 ≤ c.toNat)
    (hhi : c.toNat < 0xC0) :
    continued (c :: cs) (count + 1) code = continued cs count (code * 64 + c.toNat % 64) := by
  rw [continued, if_neg (not_not.mpr ((tail_iff _ c.toNat_lt).mpr ⟨hlo, hhi⟩)), or_tail]

theorem lead_two {first : Nat} (hlo : 0xC2 ≤ first) (hhi : first ≤ 0xDF) :
    lead first = some (1, first % 32, 0x80) := by
  rw [lead, if_pos ⟨hlo, hhi⟩, show first &&& 0x1F = first % 32 from
    Nat.and_two_pow_sub_one_eq_mod first 5]

theorem lead_three {first : Nat} (hlo : 0xE0 ≤ first) (hhi : first ≤ 0xEF) :
    lead first = some (2, first % 16, 0x800) := by
  rw [lead, if_neg (by omega), if_pos ⟨hlo, hhi⟩, show first &&& 0x0F = first % 16 from
    Nat.and_two_pow_sub_one_eq_mod first 4]

theorem lead_four {first : Nat} (hlo : 0xF0 ≤ first) (hhi : first ≤ 0xF4) :
    lead first = some (3, first % 8, 0x10000) := by
  rw [lead, if_neg (by omega), if_neg (by omega), if_pos ⟨hlo, hhi⟩,
    show first &&& 0x07 = first % 8 from Nat.and_two_pow_sub_one_eq_mod first 3]

/-- A code point's bytes are valid. -/
theorem validLength_encode {p : Nat} (hp : Scalar p) (r : Bytes) :
    validLength (encode p ++ r) = some (encode p).length := by
  obtain ⟨hle, hsur⟩ := hp
  have henc := encode_eq p hle
  by_cases h1 : p < 0x80
  · rw [encode, if_pos h1]
    simp only [List.cons_append, List.nil_append, validLength]
    rw [toNat_byte (by omega), if_pos h1]
    rfl
  rw [if_neg h1] at henc
  by_cases h2 : p < 0x800
  · rw [if_pos h2] at henc
    obtain ⟨a, as, he, ha, henc⟩ := List.map_eq_cons_iff.mp henc
    obtain ⟨b, bs, rfl, hb, henc⟩ := List.map_eq_cons_iff.mp henc
    rw [List.map_eq_nil_iff.mp henc] at he
    rw [he]
    simp only [List.cons_append, List.nil_append, validLength]
    rw [if_neg (by omega), lead_two (by omega) (by omega)]
    dsimp only
    rw [if_neg (by simp), continued_cons (by omega) (by omega), continued_zero]
    have hcode : a.toNat % 32 * 64 + b.toNat % 64 = p := by omega
    dsimp only
    rw [hcode, if_neg (by rw [not_or, not_or]; exact ⟨by omega, by omega, hsur⟩)]
    rfl
  rw [if_neg h2] at henc
  by_cases h3 : p < 0x10000
  · rw [if_pos h3] at henc
    obtain ⟨a, as, he, ha, henc⟩ := List.map_eq_cons_iff.mp henc
    obtain ⟨b, bs, rfl, hb, henc⟩ := List.map_eq_cons_iff.mp henc
    obtain ⟨d, ds, rfl, hd, henc⟩ := List.map_eq_cons_iff.mp henc
    rw [List.map_eq_nil_iff.mp henc] at he
    rw [he]
    simp only [List.cons_append, List.nil_append, validLength]
    rw [if_neg (by omega), lead_three (by omega) (by omega)]
    dsimp only
    rw [if_neg (by simp), continued_cons (by omega) (by omega),
      continued_cons (by omega) (by omega), continued_zero]
    have hcode : (a.toNat % 16 * 64 + b.toNat % 64) * 64 + d.toNat % 64 = p := by omega
    dsimp only
    rw [hcode, if_neg (by rw [not_or, not_or]; exact ⟨by omega, by omega, hsur⟩)]
    rfl
  · rw [if_neg h3] at henc
    obtain ⟨a, as, he, ha, henc⟩ := List.map_eq_cons_iff.mp henc
    obtain ⟨b, bs, rfl, hb, henc⟩ := List.map_eq_cons_iff.mp henc
    obtain ⟨d, ds, rfl, hd, henc⟩ := List.map_eq_cons_iff.mp henc
    obtain ⟨f, fs, rfl, hf, henc⟩ := List.map_eq_cons_iff.mp henc
    rw [List.map_eq_nil_iff.mp henc] at he
    rw [he]
    simp only [List.cons_append, List.nil_append, validLength]
    rw [if_neg (by omega), lead_four (by omega) (by omega)]
    dsimp only
    rw [if_neg (by simp), continued_cons (by omega) (by omega),
      continued_cons (by omega) (by omega), continued_cons (by omega) (by omega), continued_zero]
    have hcode : ((a.toNat % 8 * 64 + b.toNat % 64) * 64 + d.toNat % 64) * 64 + f.toNat % 64 = p := by
      omega
    dsimp only
    rw [hcode, if_neg (by rw [not_or, not_or]; exact ⟨by omega, by omega, hsur⟩)]
    rfl

/-- The first byte of a code point's bytes is below U+0080 only where the point is. -/
theorem encode_head {p : Nat} (hp : p ≤ 0x10FFFF) (hhigh : 0x80 ≤ p) :
    ∃ c cs, encode p = c :: cs ∧ 0x80 ≤ c.toNat := by
  have henc := encode_eq p hp
  rw [if_neg (by omega)] at henc
  split at henc
  · obtain ⟨a, as, he, ha, -⟩ := List.map_eq_cons_iff.mp henc
    exact ⟨a, as, he, by omega⟩
  · split at henc
    · obtain ⟨a, as, he, ha, -⟩ := List.map_eq_cons_iff.mp henc
      exact ⟨a, as, he, by omega⟩
    · obtain ⟨a, as, he, ha, -⟩ := List.map_eq_cons_iff.mp henc
      exact ⟨a, as, he, by omega⟩

end Utf8

end Llmx
