import Llmx.BytePairs

/-!
The letters a byte-level vocabulary is written in: each byte is one printable character, and a
token's text is read back character by character.
-/

namespace Llmx

namespace ByteLetters

open BytePairs

/-- The bytes whose character is the one of that code point. -/
def isPlain (b : Nat) : Bool := (33 ≤ b && b ≤ 126) || (161 ≤ b && b ≤ 255 && b != 173)

/-- The code points of bytes `0` to `255`; `n` counts those that are not plain. -/
def addCode (codes : List Nat × Nat) (b : Nat) : List Nat × Nat :=
  if isPlain b then (codes.1 ++ [b], codes.2) else (codes.1 ++ [256 + codes.2], codes.2 + 1)

def byteCodes : List Nat := ((List.range 256).foldl addCode ([], 0)).1

def byteToChar (b : UInt8) : Bytes := Utf8.encode (byteCodes.getD b.toNat 0)

def charToByte (ch : Bytes) : Option UInt8 :=
  ((List.range 256).map UInt8.ofNat).find? fun b => byteToChar b == ch

def byteEncode (raw : Bytes) : Bytes := raw.flatMap byteToChar

/-- A character as the text has it where it is no byte's. -/
def decodeChar (ch : Bytes) : Bytes := ((charToByte ch).map fun b => [b]).getD ch

def decodeToken (tok : Bytes) : Bytes := (characters tok).flatMap decodeChar

/-- The code points in closed form. -/
def codeOf (b : Nat) : Nat :=
  if isPlain b then b else if b ≤ 32 then 256 + b else if b ≤ 160 then 162 + b else 323

theorem byteCodes_eq : byteCodes = (List.range 256).map codeOf := by decide +kernel

theorem codeOf_spec {b : Nat} (hb : b < 256) :
    codeOf b = b ∧ (33 ≤ b ∧ b ≤ 126 ∨ 161 ≤ b) ∨
      codeOf b = 256 + b ∧ b ≤ 32 ∨ codeOf b = 162 + b ∧ 127 ≤ b ∧ b ≤ 160 ∨
      codeOf b = 323 ∧ b = 173 := by
  unfold codeOf isPlain
  simp only [Bool.or_eq_true, Bool.and_eq_true, decide_eq_true_eq, bne_iff_ne]
  split
  next => omega
  next =>
    split
    next => omega
    next => split <;> omega

theorem codeOf_lt {b : Nat} (hb : b < 256) : codeOf b < 0x800 := by
  have := codeOf_spec hb
  omega

theorem codeOf_inj {a b : Nat} (ha : a < 256) (hb : b < 256) (h : codeOf a = codeOf b) : a = b := by
  have := codeOf_spec ha
  have := codeOf_spec hb
  omega

/-- A byte's character is the byte below 128, else two bytes led by one that announces them. -/
theorem byteToChar_eq (b : UInt8) :
    codeOf b.toNat = b.toNat ∧ b.toNat < 0x80 ∧ byteToChar b = [b] ∨
      0x80 ≤ codeOf b.toNat ∧ (byteToChar b).map UInt8.toNat =
        [0xC0 + codeOf b.toNat / 64, 0x80 + codeOf b.toNat % 64] := by
  have hb : b.toNat < 256 := b.toNat_lt
  have hlt := codeOf_lt hb
  have heq : byteToChar b = Utf8.encode (codeOf b.toNat) := by
    unfold byteToChar
    rw [byteCodes_eq]
    simp [hb]
  have hencode := Utf8.encode_eq (codeOf b.toNat) (by omega)
  rw [← heq] at hencode
  by_cases hlow : codeOf b.toNat < 0x80
  · rw [if_pos hlow] at hencode
    have hspec := codeOf_spec hb
    have hself : codeOf b.toNat = b.toNat := by omega
    refine Or.inl ⟨hself, by omega, Utf8.map_toNat_inj ?_⟩
    rw [hencode, hself]
    simp
  · rw [if_neg hlow, if_pos hlt] at hencode
    exact Or.inr ⟨by omega, hencode⟩

theorem byteToChar_inj {a b : UInt8} (h : byteToChar a = byteToChar b) : a = b := by
  have ha := byteToChar_eq a
  have hb := byteToChar_eq b
  rw [h] at ha
  apply UInt8.toNat_inj.mp
  apply codeOf_inj a.toNat_lt b.toNat_lt
  obtain ⟨hca, -, ha⟩ | ⟨hca, ha⟩ := ha
  · obtain ⟨hcb, -, hb⟩ | ⟨hcb, hb⟩ := hb
    · rw [ha] at hb
      simp_all
    · simp [ha] at hb
  · obtain ⟨hcb, -, hb⟩ | ⟨hcb, hb⟩ := hb
    · simp [hb] at ha
    · rw [ha] at hb
      simp only [List.cons.injEq, and_true] at hb
      omega

theorem charToByte_byteToChar (b : UInt8) : charToByte (byteToChar b) = some b := by
  have hmem : b ∈ (List.range 256).map UInt8.ofNat :=
    List.mem_map.mpr ⟨b.toNat, List.mem_range.mpr b.toNat_lt, by simp⟩
  cases hfind : charToByte (byteToChar b) with
  | none =>
    have := List.find?_eq_none.mp hfind b hmem
    simp at this
  | some a =>
    have := List.find?_some hfind
    rw [byteToChar_inj (beq_iff_eq.mp this)]

theorem charToByte_some {ch : Bytes} {b : UInt8} (h : charToByte ch = some b) :
    ch = byteToChar b := by
  have := List.find?_some h
  exact (beq_iff_eq.mp this).symm

theorem leadLength_byteToChar (b : UInt8) :
    ∃ c cs, byteToChar b = c :: cs ∧ Utf8.leadLength c = (c :: cs).length := by
  obtain ⟨-, hlow, hone⟩ | ⟨hhigh, htwo⟩ := byteToChar_eq b
  · refine ⟨b, [], hone, ?_⟩
    unfold Utf8.leadLength
    simp only [UInt8.le_iff_toNat_le]
    rw [if_neg (by simp; omega), if_neg (by simp; omega), if_neg (by simp; omega)]
    simp
  · have hlt := codeOf_lt b.toNat_lt
    obtain ⟨c, cs, hcs⟩ : ∃ c cs, byteToChar b = c :: cs := by
      cases hch : byteToChar b with
      | nil => simp [hch] at htwo
      | cons c cs => exact ⟨c, cs, Eq.refl _⟩
    rw [hcs] at htwo
    have hlen := congrArg List.length htwo
    have hc : c.toNat = 0xC0 + codeOf b.toNat / 64 := by simp at htwo; exact htwo.1
    refine ⟨c, cs, hcs, ?_⟩
    unfold Utf8.leadLength
    simp only [UInt8.le_iff_toNat_le]
    rw [if_neg (by simp; omega), if_neg (by simp; omega), if_pos (by simp; omega)]
    simp at hlen
    simp [hlen]

theorem characters_cons {c : UInt8} {cs rest : Bytes}
    (h : Utf8.leadLength c = (c :: cs).length) :
    characters (c :: cs ++ rest) = (c :: cs) :: characters rest := by
  rw [List.cons_append, characters, h, ← List.cons_append, List.take_left, List.drop_left]

theorem characters_byteEncode (raw rest : Bytes) :
    characters (byteEncode raw ++ rest) = raw.map byteToChar ++ characters rest := by
  induction raw with
  | nil => simp [byteEncode]
  | cons b raw ih =>
    obtain ⟨c, cs, hcs, hlead⟩ := leadLength_byteToChar b
    have hsplit : byteEncode (b :: raw) ++ rest = c :: cs ++ (byteEncode raw ++ rest) := by
      simp [byteEncode, hcs]
    rw [hsplit, characters_cons hlead, ih, List.map_cons, hcs, List.cons_append]

theorem characters_nil : characters [] = [] := by rw [characters]

/-- A token made of bytes' characters reads back as those bytes. -/
theorem decodeToken_byteEncode (raw : Bytes) : decodeToken (byteEncode raw) = raw := by
  have h := characters_byteEncode raw []
  rw [List.append_nil, characters_nil, List.append_nil] at h
  unfold decodeToken
  rw [h, List.flatMap_map]
  have hone : ∀ b, decodeChar (byteToChar b) = [b] := fun b => by
    simp [decodeChar, charToByte_byteToChar]
  simp [hone]

/-- A token no character of which reads back as another's byte. -/
def Clean (tok : Bytes) : Prop :=
  ∀ ch ∈ characters tok, ∀ b, charToByte ch = some b → ch = [b]

instance : DecidablePred Clean := fun tok =>
  decidable_of_iff (∀ ch ∈ characters tok, (charToByte ch).all fun b => ch == [b])
    (by simp [Clean, Option.all_eq_true])

theorem decodeChar_length (ch : Bytes) :
    (decodeChar ch).length ≤ ch.length ∧
      ((decodeChar ch).length = ch.length ↔ ∀ b, charToByte ch = some b → ch = [b]) := by
  unfold decodeChar
  cases h : charToByte ch with
  | none => simp
  | some b =>
    have hch := charToByte_some h
    obtain ⟨-, -, hone⟩ | ⟨-, htwo⟩ := byteToChar_eq b
    · rw [hch, hone]
      simp
    · have hlen := congrArg List.length htwo
      rw [List.length_map, ← hch] at hlen
      have hne : ch ≠ [b] := by
        intro heq
        rw [heq] at hlen
        simp at hlen
      simp [hlen, hne]

theorem flatMap_decodeChar_length (chs : List Bytes) :
    (chs.flatMap decodeChar).length ≤ chs.flatten.length ∧
      ((chs.flatMap decodeChar).length = chs.flatten.length ↔
        ∀ ch ∈ chs, ∀ b, charToByte ch = some b → ch = [b]) := by
  induction chs with
  | nil => simp
  | cons ch chs ih =>
    have h := decodeChar_length ch
    rw [List.forall_mem_cons, ← h.2, ← ih.2]
    simp only [List.flatMap_cons, List.flatten_cons, List.length_append]
    omega

/-- Reading a token back never lengthens it, and keeps its length exactly where it is clean. -/
theorem decodeToken_length (tok : Bytes) :
    (decodeToken tok).length ≤ tok.length ∧
      ((decodeToken tok).length = tok.length ↔ Clean tok) := by
  have h := flatMap_decodeChar_length (characters tok)
  rw [characters_flatten] at h
  exact h

theorem decodeToken_clean {tok : Bytes} (h : Clean tok) : decodeToken tok = tok := by
  have hchars : ∀ ch ∈ characters tok, decodeChar ch = ch := by
    intro ch hch
    unfold decodeChar
    cases hbyte : charToByte ch with
    | none => simp
    | some b => simp [h ch hch b hbyte]
  unfold decodeToken
  rw [List.flatMap_congr hchars, List.flatMap_id', characters_flatten]

theorem characters_ascii {tok : Bytes} (h : ∀ c ∈ tok, c < 0x80) :
    characters tok = tok.map fun c => [c] := by
  induction tok with
  | nil => simp [characters_nil]
  | cons c tok ih =>
    obtain ⟨hc, hrest⟩ := List.forall_mem_cons.mp h
    have hlead : Utf8.leadLength c = [c].length := by
      have : c.toNat < 128 := UInt8.lt_iff_toNat_lt.mp hc
      unfold Utf8.leadLength
      simp only [UInt8.le_iff_toNat_le]
      rw [if_neg (by simp; omega), if_neg (by simp; omega), if_neg (by simp; omega)]
      simp
    have := @characters_cons c [] tok hlead
    rw [List.singleton_append] at this
    rw [this, ih hrest, List.map_cons]

theorem clean_ascii {tok : Bytes} (h : ∀ c ∈ tok, c < 0x80) : Clean tok := by
  intro ch hch b hb
  rw [characters_ascii h] at hch
  obtain ⟨c, -, rfl⟩ := List.mem_map.mp hch
  have heq := charToByte_some hb
  obtain ⟨-, -, hone⟩ | ⟨-, htwo⟩ := byteToChar_eq b
  · rw [heq, hone]
  · simp [← heq] at htwo

theorem not_clean_letter {b : UInt8} (h : byteToChar b ≠ [b]) : ¬ Clean (byteToChar b) := by
  have hchars := characters_byteEncode [b] []
  rw [List.append_nil, characters_nil, List.append_nil] at hchars
  have hone : byteEncode [b] = byteToChar b := by simp [byteEncode]
  rw [hone, List.map_singleton] at hchars
  intro hclean
  exact h (hclean (byteToChar b) (by simp [hchars]) b (charToByte_byteToChar b))

section Merging

variable {merges : List Bytes}

theorem joinAt_map (pieces : List Bytes) (i : Nat) :
    joinAt (pieces.map byteEncode) i = (joinAt pieces i).map byteEncode := by
  induction pieces generalizing i with
  | nil => simp [joinAt]
  | cons x pieces ih =>
    cases i with
    | zero =>
      cases pieces with
      | nil => simp [joinAt]
      | cons y rest => simp [joinAt, byteEncode]
    | succ i => simp [joinAt, ih]

/-- Merging never splits a byte's character: the symbols stand for pieces of the bytes. -/
theorem mergeAll_pieces (sym pieces : List Bytes) (h : sym = pieces.map byteEncode) :
    ∃ parts : List Bytes, mergeAll merges sym = parts.map byteEncode ∧
      parts.flatten = pieces.flatten := by
  induction sym using mergeAll.induct merges generalizing pieces with
  | case1 sym hnone => exact ⟨pieces, by rw [mergeAll_none hnone, h], Eq.refl _⟩
  | case2 sym sym' hsome ih =>
    obtain ⟨k, -, -, hjoin⟩ := mergeOnce_iff.mp hsome
    rw [h, joinAt_map] at hjoin
    obtain ⟨parts, hparts, hflat⟩ := ih _ hjoin
    exact ⟨parts, by rw [mergeAll_some hsome, hparts], by rw [hflat, joinAt_flatten]⟩

theorem bpe_byteEncode (merges : List Bytes) (raw : Bytes) :
    ∃ parts : List Bytes, bpe merges (byteEncode raw) = parts.map byteEncode ∧
      parts.flatten = raw := by
  have h := characters_byteEncode raw []
  rw [List.append_nil, characters_nil, List.append_nil] at h
  have hpieces : characters (byteEncode raw) = (raw.map fun b => [b]).map byteEncode := by
    rw [h]
    simp [byteEncode]
  obtain ⟨parts, hparts, hflat⟩ := @mergeAll_pieces merges _ _ hpieces
  exact ⟨parts, hparts, by rw [hflat, ← List.flatMap_def, List.flatMap_singleton']⟩

end Merging

end ByteLetters

end Llmx
