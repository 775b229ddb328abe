import Llmx.InflateTables

namespace Llmx

namespace Inflate

open BitLists CanonicalCodes Deflate Triples

theorem octetBits_inj {a b : Bytes} {r : List Bool} (h : octetBits a ++ r = octetBits b) :
    b.take a.length = a ∧ octetBits (b.drop a.length) = r := by
  induction a generalizing b with
  | nil => exact ⟨List.take_zero, h.symm⟩
  | cons c a ih =>
    cases b with
    | nil => exact absurd (congrArg List.length h) (by simp [octetBits, lowBits_length])
    | cons d b =>
      have hsplit : lowBits 8 c.toNat ++ (octetBits a ++ r) = lowBits 8 d.toNat ++ octetBits b := by
        rw [← List.append_assoc]
        exact h
      obtain ⟨hbyte, hrest⟩ :=
        List.append_inj hsplit ((lowBits_length 8 _).trans (lowBits_length 8 _).symm)
      have hvalue := congrArg number hbyte
      rw [number_lowBits, number_lowBits, Nat.mod_eq_of_lt c.toNat_lt,
        Nat.mod_eq_of_lt d.toNat_lt] at hvalue
      obtain ⟨h1, h2⟩ := ih hrest
      rw [List.length_cons, List.take_succ_cons, h1, UInt8.toNat_inj.mp hvalue]
      exact ⟨rfl, h2⟩

theorem xor_ones {len : Nat} (h : len < 65536) : len ^^^ 0xffff = 65535 - len := by
  apply Nat.eq_of_testBit_eq
  intro i
  have hsub := Nat.testBit_two_pow_sub_succ (n := 16) h i
  rw [Nat.testBit_xor, show 65535 - len = 2 ^ 16 - (len + 1) by omega, hsub,
    show 0xffff = 2 ^ 16 - 1 from rfl, Nat.testBit_two_pow_sub_one]
  by_cases hi : i < 16
  · simp [hi]
  · have hpow : 2 ^ 16 ≤ 2 ^ i := Nat.pow_le_pow_right (by decide) (by omega)
    have hbit : len.testBit i = false := Nat.testBit_lt_two_pow (by omega)
    simp [hi, hbit]

theorem gap_lt (offset : Nat) : gap offset < 8 := Nat.mod_lt _ (by decide)

theorem gap_add (offset : Nat) : (offset + gap offset) % 8 = 0 := by
  unfold gap
  omega

theorem Reading.aligned {p : Bytes} {b : Bits} {rest : List Bool} (h : Reading p b rest)
    (hrest : 8 ∣ rest.length) : b.count = 0 ∧ octetBits (p.drop b.place) = rest := by
  have hlen := h.length_eq
  have hfew := h.few
  have hcount : b.count = 0 := by omega
  have hr := h.rest_eq
  rw [hcount, lowBits, List.nil_append] at hr
  exact ⟨hcount, hr.symm⟩

theorem storedBits_length (padding offset : Nat) (bytes : Bytes) :
    (storedBits padding offset bytes).length = gap offset + 32 + 8 * bytes.length := by
  simp only [storedBits, List.length_append, lowBits_length, octetBits_length]
  omega

theorem stored_within {limit padding offset m : Nat} {out bytes : Bytes}
    (hlen : bytes.length < 65536)
    (hm : (offset + (storedBits padding offset bytes).length + m) % 8 = 0) (hm8 : m < 8) :
    Within limit m (stored limit out) (storedBits padding offset bytes) (out ++ bytes) := by
  intro p b rest hrest h
  have hgap := gap_add offset
  rw [storedBits_length] at hm
  have hdvd : 8 ∣ rest.length := by omega
  rw [storedBits, List.append_assoc] at h
  obtain ⟨b1, h1, hr1, _, _⟩ := align_holds h (by rw [lowBits_length]; exact gap_lt offset) (by
    simp only [List.length_append, lowBits_length, octetBits_length]
    omega)
  rw [List.append_assoc] at hr1
  obtain ⟨b2, h2, hr2⟩ := get_lowBits (by decide) (by omega : bytes.length < 2 ^ 16) p b1 _ hr1
  rw [List.append_assoc] at hr2
  obtain ⟨b3, h3, hr3⟩ :=
    get_lowBits (by decide) (by omega : 65535 - bytes.length < 2 ^ 16) p b2 _ hr2
  obtain ⟨hcount, hbits⟩ := hr3.aligned (by
    rw [List.length_append, octetBits_length]
    omega)
  obtain ⟨htake, hdrop⟩ := octetBits_inj hbits.symm
  have hin : b3.place + bytes.length ≤ b3.p.length := by
    have hl := congrArg List.length htake
    rw [List.length_take, List.length_drop] at hl
    have hp := hr3.place_le
    rw [hr3.data]
    omega
  have hrun : stored limit out b =
      if limit < out.length + bytes.length then .error (.runtime tooMany) b3
      else .ok (out ++ (b3.p.drop b3.place).take bytes.length)
        { b3 with place := b3.place + bytes.length } := by
    have hcheck : ¬ bytes.length ^^^ 0xffff ≠ 65535 - bytes.length := fun h => h (xor_ones hlen)
    unfold stored
    rw [bind_ok h1, bind_ok h2, bind_ok h3, if_neg hcheck]
    exact if_neg (by omega)
  rw [hrun, List.length_append]
  constructor
  · intro hle
    refine ⟨{ b3 with place := b3.place + bytes.length }, ?_, ⟨⟨hr3.data, ?_, hr3.buf_lt, ?_⟩, hr3.few⟩⟩
    · rw [if_neg (by omega), hr3.data, htake]
    · show b3.place + bytes.length ≤ p.length
      rw [← hr3.data]
      exact hin
    · show rest = lowBits b3.count b3.buf ++ octetBits (p.drop (b3.place + bytes.length))
      rw [hcount, lowBits, List.nil_append, ← List.drop_drop]
      exact hdrop.symm
  · intro hlt
    exact ⟨b3, if_pos hlt⟩

/-- The fixed codes; the two distance codes no match has make no other code longer. -/
theorem fixedCodes : LengthsValid 15 Inflate.fixedLit ∧ LengthsValid 15 Inflate.fixedDist ∧
    Inflate.fixedLit = Deflate.fixedLit ∧ ∀ s < 30, Inflate.fixedDist.getD s 0 ≠ 0 ∧
      codeword Deflate.fixedDist s = codeword Inflate.fixedDist s := by decide +kernel

theorem buildBoth_reads {lit dist : List Nat} (hlit : LengthsValid 15 lit)
    (hdist : LengthsValid 15 dist) :
    Reads (buildBoth lit dist) [] (table lit, table dist) :=
  (build_reads (lengths_lt hlit (by decide)) hlit.2).of_nil_bind
    ((build_reads (lengths_lt hdist (by decide)) hdist.2).bind_pure rfl)

theorem codeword_length (lengths : List Nat) (s : Nat) :
    (codeword lengths s).length = lengths.getD s 0 := highBits_length _ _

/-- Every token has bits, and so has the end of a block. -/
theorem tokens_lt_bits {lit dist : List Nat} {tokens : List Token} {out : Bytes}
    (ht : TokensValid lit dist out tokens) :
    tokens.length < (tokensBits lit dist tokens).length := by
  induction tokens generalizing out with
  | nil =>
    have hpos : lit.getD 256 0 ≠ 0 := ht
    rw [tokensBits, List.flatMap_nil, List.nil_append, codeword_length, List.length_nil]
    omega
  | cons t tokens ih =>
    obtain ⟨ht, hts⟩ := ht
    have hnext := ih hts
    have hpos : 0 < (t.bits lit dist).length := by
      cases t with
      | literal byte =>
        have hb : lit.getD byte.toNat 0 ≠ 0 := ht
        rw [Token.bits, codeword_length]
        omega
      | copy length distance =>
        have hb := ht.2.2.2.2.2.1
        rw [Token.bits, List.length_append, codeword_length]
        omega
    rw [tokensBits, List.flatMap_cons, List.append_assoc, List.length_append, ← tokensBits,
      List.length_cons]
    omega

/-- What a block holds after its first three bits. -/
def body (offset : Nat) : Block → List Bool
  | .stored padding bytes => storedBits padding (offset + 3) bytes
  | .fixed tokens => tokensBits Deflate.fixedLit Deflate.fixedDist tokens
  | .dynamic d tokens => d.bits ++ tokensBits d.lit d.dist tokens

def kind : Block → Nat
  | .stored _ _ => 0
  | .fixed _ => 1
  | .dynamic _ _ => 2

theorem kind_lt (b : Block) : kind b < 2 ^ 2 := by
  cases b
  next => exact (by decide : 0 < 4)
  next => exact (by decide : 1 < 4)
  next => exact (by decide : 2 < 4)

theorem block_bits (b : Block) (last : Bool) (offset : Nat) :
    b.bits last offset = [last] ++ (lowBits 2 (kind b) ++ body offset b) := by
  cases b <;> rfl

theorem tokensValid_end {lit dist : List Nat} {tokens : List Token} {out : Bytes}
    (ht : TokensValid lit dist out tokens) : lit.getD 256 0 ≠ 0 := by
  induction tokens generalizing out with
  | nil => exact ht
  | cons t tokens ih => exact ih ht.2

theorem block_within {limit offset m rounds : Nat} {out : Bytes} {b : Block}
    (hb : b.Valid 30 out) (hout : out.length ≤ limit) (hrounds : (body offset b).length ≤ rounds)
    (hm : (offset + 3 + (body offset b).length + m) % 8 = 0 ∨ kind b ≠ 0) (hm8 : m < 8) :
    Within limit m (block limit rounds (kind b) out) (body offset b) (b.expand out) := by
  cases b with
  | stored padding bytes =>
    have hm := hm.resolve_right fun h => h rfl
    show Within limit m (block limit rounds 0 out) _ _
    rw [block, if_pos rfl]
    exact stored_within hb hm hm8
  | fixed tokens =>
    have hlt := tokens_lt_bits hb
    obtain ⟨hlit, hdist, heq, hcodes⟩ := fixedCodes
    show Within limit m (block limit rounds 1 out) _ _
    rw [block, if_neg (by decide), if_pos rfl]
    refine Within.after (v := []) (buildBoth_reads hlit hdist) ?_
    refine codes_within (fun s hs => ?_) (fun s hs _ => ?_) hb hout
      (Nat.lt_of_lt_of_le hlt hrounds) m
    · rw [← heq] at hs ⊢
      exact codeword_reads hlit (by decide) hs
    · obtain ⟨hs0, hcode⟩ := hcodes s hs
      rw [hcode]
      exact codeword_reads hdist (by decide) hs0
  | dynamic d tokens =>
    obtain ⟨hd, ht⟩ := hb
    have hlt := tokens_lt_bits ht
    have hbody : (d.bits ++ tokensBits d.lit d.dist tokens).length ≤ rounds := hrounds
    rw [List.length_append] at hbody
    show Within limit m (block limit rounds 2 out) _ _
    rw [block, if_neg (by decide), if_neg (by decide), if_pos rfl]
    refine Within.after (dynamicTables_reads hd (tokensValid_end ht)) ?_
    exact codes_within (fun s hs => codeword_reads hd.lit_valid (by decide) hs)
      (fun s _ hs => codeword_reads hd.dist_valid (by decide) hs) ht hout (by omega) m

theorem length_expandBlock (b : Block) (out : Bytes) : out.length ≤ (b.expand out).length := by
  cases b with
  | stored padding bytes =>
    rw [Block.expand, List.length_append]
    omega
  | fixed tokens => exact length_expandTokens tokens out
  | dynamic d tokens => exact length_expandTokens tokens out

theorem length_expandBlocks (bs : List Block) (out : Bytes) :
    out.length ≤ (bs.foldl Block.expand out).length := by
  induction bs generalizing out with
  | nil => exact Nat.le_refl _
  | cons b bs ih => exact Nat.le_trans (length_expandBlock b out) (ih _)

theorem blocks_within {limit offset m symbols rounds : Nat} {out : Bytes} {bs : List Block}
    (hbs : BlocksValid 30 out bs) (hne : bs ≠ []) (hout : out.length ≤ limit)
    (hsymbols : (blocksBits offset bs).length ≤ symbols)
    (hrounds : (blocksBits offset bs).length ≤ rounds)
    (hm : (offset + (blocksBits offset bs).length + m) % 8 = 0) :
    Within limit m (blocks limit symbols rounds out) (blocksBits offset bs)
      (bs.foldl Block.expand out) := by
  induction bs generalizing offset out rounds with
  | nil => exact absurd rfl hne
  | cons b bs ih =>
    obtain ⟨hb, hbs⟩ := hbs
    have hlen : (b.bits bs.isEmpty offset).length = 3 + (body offset b).length := by
      rw [block_bits]
      simp only [List.length_append, lowBits_length, List.length_cons, List.length_nil]
      omega
    rw [blocksBits, List.length_append, hlen] at hsymbols hrounds hm
    obtain ⟨rounds, rfl⟩ : ∃ r, rounds = r + 1 := ⟨rounds - 1, by omega⟩
    rw [blocksBits, hlen, block_bits, blocks, List.append_assoc, List.append_assoc,
      List.foldl_cons]
    refine Within.after (get_bit _) (Within.after (get_lowBits (by decide) (kind_lt b)) ?_)
    refine Within.bind (block_within hb hout (by omega) ?_ (Nat.mod_lt _ (by decide)))
      (fun hle => ?_) (length_expandBlocks _ _)
    · exact Or.inl (by omega)
    · cases bs with
      | nil =>
        rw [show (List.isEmpty ([] : List Block)).toNat = 1 from rfl, if_pos (by decide)]
        exact Within.of_reads Reads.pure hle
      | cons c bs =>
        rw [show (List.isEmpty (c :: bs)).toNat = 0 from rfl, if_neg (fun h => h rfl)]
        exact ih hbs (List.cons_ne_nil _ _) hle (by omega) (by omega) (by omega)

end Inflate

end Llmx
