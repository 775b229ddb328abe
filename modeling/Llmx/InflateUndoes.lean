import Llmx.InflateBlocks

namespace Llmx

namespace Inflate

open BitLists CanonicalCodes Deflate Triples

theorem adlerLow_concat (out : Bytes) (c : UInt8) :
    adlerLow (out ++ [c]) = adlerLow out + c.toNat := by
  simp [adlerLow]
  omega

/-- The sum of the sums of the beginnings of `out`. -/
def sumOfSums (out : Bytes) : Nat :=
  ((List.range out.length).map fun i => adlerLow (out.take (i + 1))).sum

theorem sumOfSums_concat (out : Bytes) (c : UInt8) :
    sumOfSums (out ++ [c]) = sumOfSums out + adlerLow (out ++ [c]) := by
  have hmap : (List.range out.length).map (fun i => adlerLow ((out ++ [c]).take (i + 1))) =
      (List.range out.length).map fun i => adlerLow (out.take (i + 1)) := by
    apply List.map_congr_left
    intro i hi
    rw [List.take_append_of_le_length (List.mem_range.mp hi)]
  have hlast : (out ++ [c]).take (out.length + 1) = out ++ [c] :=
    List.take_of_length_le (Nat.le_of_eq List.length_append)
  unfold sumOfSums
  rw [List.length_append, List.length_singleton, List.range_succ, List.map_append, List.sum_append,
    hmap, List.map_singleton, List.sum_singleton, hlast]

theorem adler_fold (out : Bytes) :
    out.foldl adlerStep (1, 0) = (adlerLow out % 65521, sumOfSums out % 65521) := by
  induction out using List.reverseRecOn with
  | nil => rfl
  | append_singleton out c ih =>
    rw [List.foldl_append, ih, List.foldl_cons, List.foldl_nil, sumOfSums_concat, adlerLow_concat]
    unfold adlerStep
    simp only [Nat.mod_add_mod, Nat.add_mod_mod]

theorem adler_eq (out : Bytes) : adler out = adler32 out := by
  have hlt : adlerLow out % 65521 < 2 ^ 16 :=
    Nat.lt_trans (Nat.mod_lt _ (by decide)) (by decide)
  unfold adler adler32
  rw [adler_fold, or_low hlt]
  rfl

theorem wanted_highBytes {p : Bytes} {place check : Nat} (hcheck : check < 2 ^ 32)
    (h : p.drop place = highBytes check) : wanted p place = check := by
  have hget : ∀ i, p.getD (place + i) 0 = (highBytes check).getD i 0 := by
    intro i
    rw [← h, List.getD_eq_getElem?_getD, List.getD_eq_getElem?_getD, List.getElem?_drop]
  have h0 := hget 0
  rw [Nat.add_zero] at h0
  unfold wanted
  rw [h0, hget 1, hget 2, hget 3]
  show (UInt8.ofNat (check / 2 ^ 24)).toNat <<< 24 ||| (UInt8.ofNat (check / 2 ^ 16)).toNat <<< 16
    ||| (UInt8.ofNat (check / 2 ^ 8)).toNat <<< 8 ||| (UInt8.ofNat check).toNat = check
  simp only [UInt8.toNat_ofNat']
  rw [or_bytes (Nat.mod_lt _ (by decide)) (Nat.mod_lt _ (by decide)) (Nat.mod_lt _ (by decide))]
  omega

section Streams

variable {s : ZlibStream}

theorem bits_length (s : ZlibStream) : s.bits.length % 8 = 0 := by
  have h := gap_add (blocksBits 0 s.blocks).length
  rw [ZlibStream.bits, List.length_append, lowBits_length]
  exact h

theorem highBytes_length (check : Nat) : (highBytes check).length = 4 := rfl

theorem blocksBits_pos {bs : List Block} (h : bs ≠ []) (offset : Nat) :
    3 ≤ (blocksBits offset bs).length := by
  cases bs with
  | nil => exact absurd rfl h
  | cons b bs =>
    rw [blocksBits, block_bits]
    simp only [List.length_append, lowBits_length, List.length_singleton]
    omega

theorem bytes_length (s : ZlibStream) (check : Nat) :
    (s.bytes check).length = 2 + (s.bits.length / 8 + 4) := by
  simp only [ZlibStream.bytes, List.length_cons, List.length_append, octets_length, highBytes_length]
  omega

theorem header_passes (hs : s.Valid 30) {limit : Nat} (hlimit : limit < 2 ^ 63) (check : Nat) :
    inflateZlib (s.bytes check) limit = outcome (inflated limit (8 * (s.bytes check).length)
      ⟨(s.bytes check).drop 2, 0, 0, 0⟩) := by
  have hlen := bytes_length s check
  have hpos := blocksBits_pos hs.blocks_ne 0
  have hbits : (blocksBits 0 s.blocks).length ≤ s.bits.length := by
    rw [ZlibStream.bits, List.length_append]
    omega
  have hm := hs.method
  have hw := hs.window
  have hc := hs.check
  have hd := hs.no_dictionary
  have hcmf : (s.bytes check).getD 0 0 = s.cmf := rfl
  have hflg : (s.bytes check).getD 1 0 = s.flg := rfl
  have hlow : s.cmf.toNat &&& 15 = s.cmf.toNat % 16 := Nat.and_two_pow_sub_one_eq_mod _ 4
  have hhigh : s.cmf.toNat >>> 4 = s.cmf.toNat / 16 := Nat.shiftRight_eq_div_pow _ 4
  have hdict : s.flg.toNat &&& 32 = 0 := by
    have hbit : s.flg.toNat.testBit 5 = false := by
      rw [Nat.testBit_eq_decide_div_mod_eq, hd]
      rfl
    apply Nat.eq_of_testBit_eq
    intro i
    rw [show 32 = 2 ^ 5 from rfl, Nat.testBit_and, Nat.testBit_two_pow, Nat.zero_testBit]
    by_cases hi : 5 = i
    · rw [← hi, hbit, Bool.false_and]
    · rw [decide_eq_false hi, Bool.and_false]
  unfold inflateZlib
  rw [if_neg (by omega), hcmf, hflg, hlow, hhigh, if_neg (by omega), if_neg (fun h => h hc),
    if_neg (fun h => h hdict), if_neg (by omega)]

/-- A stream's first byte on: all its bits are left, then its checksum. -/
theorem starts_reading (s : ZlibStream) (check : Nat) :
    Reading ((s.bytes check).drop 2) ⟨(s.bytes check).drop 2, 0, 0, 0⟩
      (s.bits ++ octetBits (highBytes check)) := by
  have hbits := bits_length s
  refine ⟨⟨rfl, Nat.zero_le _, Nat.one_pos, ?_⟩, Nat.succ_pos 7⟩
  show _ = octetBits (octets (s.bits.length / 8) s.bits ++ highBytes check)
  rw [octetBits_append, octetBits_octets (by omega)]

theorem checkedSum_end {p : Bytes} {b : Bits} {check : Nat} (hcheck : check < 2 ^ 32)
    (h : Reading p b (octetBits (highBytes check))) (out : Bytes) :
    checkedSum out b = if check = adler32 out then .ok out
      else .error (.runtime "inflate: the Adler-32 check fails") := by
  obtain ⟨hcount, hbits⟩ := h.aligned (by
    rw [octetBits_length]
    exact Nat.dvd_mul_right 8 _)
  have hdrop := octetBits_inj ((List.append_nil _).trans hbits.symm)
  have hlen := congrArg List.length hbits
  rw [octetBits_length, octetBits_length, highBytes_length, List.length_drop] at hlen
  have hplace := h.place_le
  have htail : p.drop b.place = highBytes check := by
    rw [← hdrop.1, List.take_of_length_le]
    rw [List.length_drop, highBytes_length]
    omega
  unfold checkedSum
  rw [hcount, h.data, if_neg (by omega), Nat.zero_div, Nat.sub_zero, if_neg (by omega),
    wanted_highBytes hcheck htail, adler_eq]
  by_cases he : check = adler32 out
  · rw [if_pos he, if_neg (fun hne => hne he.symm)]
  · rw [if_neg he, if_pos (Ne.symm he)]

/-- Whatever blocks a stream is of and whatever checksum it carries, what comes of it is decided
by how many bytes it expands to and by their Adler-32 alone. -/
theorem inflateZlib_bytes (hs : s.Valid 30) {limit check : Nat} (hlimit : limit < 2 ^ 63)
    (hcheck : check < 2 ^ 32) :
    inflateZlib (s.bytes check) limit =
      if limit < s.expand.length then .error (.runtime tooMany)
      else if check = adler32 s.expand then .ok s.expand
      else .error (.runtime "inflate: the Adler-32 check fails") := by
  have hlen := bytes_length s check
  have hbits8 := bits_length s
  have hsplit : s.bits.length = (blocksBits 0 s.blocks).length +
      gap (blocksBits 0 s.blocks).length := by
    rw [ZlibStream.bits, List.length_append, lowBits_length]
  have hgap := gap_lt (blocksBits 0 s.blocks).length
  have hstart := starts_reading s check
  rw [ZlibStream.bits, List.append_assoc] at hstart
  have hrest : (lowBits (gap (blocksBits 0 s.blocks).length) s.padding ++
      octetBits (highBytes check)).length % 8 = gap (blocksBits 0 s.blocks).length := by
    rw [List.length_append, lowBits_length, octetBits_length]
    omega
  have hwithin : Within limit (gap (blocksBits 0 s.blocks).length)
      (blocks limit (8 * (s.bytes check).length) (8 * (s.bytes check).length) [])
      (blocksBits 0 s.blocks) s.expand :=
    blocks_within hs.blocks_valid hs.blocks_ne (Nat.zero_le _) (by omega) (by omega) (by omega)
  obtain ⟨hok, herr⟩ := hwithin _ _ _ hrest hstart
  rw [header_passes hs hlimit]
  unfold inflated
  by_cases hover : limit < s.expand.length
  · obtain ⟨b1, h1⟩ := herr hover
    rw [bind_error h1, if_pos hover]
    rfl
  · obtain ⟨b1, h1, hr1⟩ := hok (by omega)
    obtain ⟨b2, h2, hr2, _⟩ := align_holds hr1 (by rw [lowBits_length]; exact hgap) (by
      rw [octetBits_length]
      exact Nat.dvd_mul_right 8 _)
    rw [bind_ok h1, bind_ok h2, if_neg hover, ← checkedSum_end hcheck hr2]
    rfl

end Streams

/-- A description of six literal and length codes and three distance codes, described by every kind
of run. -/
def someCodes : Description where
  lit := (List.range 286).map fun s =>
    if s = 65 then 1 else if s = 66 ∨ s = 256 ∨ s = 262 then 3 else if s = 263 ∨ s = 285 then 4
    else 0
  dist := [1, 0, 0, 2, 2]
  lens := (List.range 19).map fun s => if s ≤ 4 ∨ 16 ≤ s then 3 else 0
  sent := 18
  runs := [.zeros 65, .one 1, .one 3, .zeros 138, .zeros 51, .one 3, .zeros 5, .one 3, .one 4,
    .zeros 21, .one 4, .one 1, .one 0, .one 0, .one 2, .one 2]

def someStream : ZlibStream where
  cmf := 0x78
  flg := 0x9c
  blocks := [.stored 5 [1, 2, 3], .fixed [.literal 65, .copy 7 2, .copy 13 9], .stored 99 [9],
    .dynamic someCodes [.literal 66, .copy 258 5, .copy 8 1]]
  padding := 3

theorem someStream_valid : someStream.Valid 30 := by decide +kernel

theorem someStream_sizes :
    ¬ 600 < someStream.expand.length ∧ 20 < someStream.expand.length ∧
      adler someStream.expand < 2 ^ 32 ∧ 7 ≠ adler someStream.expand := by decide +kernel

theorem someStream_inflates :
    inflateZlib (someStream.bytes (adler32 someStream.expand)) 600 = .ok someStream.expand ∧
      inflateZlib (someStream.bytes 7) 600 =
        .error (.runtime "inflate: the Adler-32 check fails") ∧
      inflateZlib (someStream.bytes 7) 20 = .error (.runtime tooMany) := by
  obtain ⟨hroom, hfull, hsum, hne⟩ := someStream_sizes
  rw [adler_eq] at hsum hne
  have hsame : adler32 someStream.expand = adler32 someStream.expand := Eq.refl _
  have hlimit : 600 < 2 ^ 63 := by decide
  have h7 : 7 < 2 ^ 32 := by decide
  refine ⟨?_, ?_, ?_⟩
  · exact (inflateZlib_bytes someStream_valid hlimit hsum).trans
      ((if_neg hroom).trans (if_pos hsame))
  · exact (inflateZlib_bytes someStream_valid hlimit h7).trans ((if_neg hroom).trans (if_neg hne))
  · exact (inflateZlib_bytes someStream_valid (by decide : 20 < 2 ^ 63) h7).trans (if_pos hfull)

/-- A block that gives 31 distance codes no length, as a compressor may. -/
def manyDistances : Description where
  lit := (List.range 257).map fun s => if s = 65 ∨ s = 256 then 1 else 0
  dist := List.replicate 31 0
  lens := (List.range 19).map fun s => if s = 1 ∨ s = 18 then 1 else 0
  sent := 18
  runs := [.zeros 65, .one 1, .zeros 138, .zeros 52, .one 1, .zeros 31]

def oneByte : ZlibStream := ⟨0x78, 0x9c, [.dynamic manyDistances [.literal 65]], 0⟩

/-- What a call was refused with. -/
def refusal (r : Except Error Bytes) : Option Error :=
  match r with
  | .ok _ => none
  | .error e => some e

theorem not_every_stream_inflates :
    (oneByte.Valid 32 ∧ oneByte.expand = [65] ∧
      refusal (inflateZlib (oneByte.bytes (adler32 oneByte.expand)) 1) =
        some (.runtime "inflate: too many codes in a dynamic block")) ∧
    someStream.Valid 32 ∧ someStream.expand.length ≤ 2 ^ 63 ∧
      refusal (inflateZlib (someStream.bytes (adler32 someStream.expand)) (2 ^ 63)) =
        some .length := by
  decide +kernel

end Inflate

end Llmx
