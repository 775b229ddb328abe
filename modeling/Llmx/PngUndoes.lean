import Llmx.PngPasses
import Llmx.InflateUndoes

namespace Llmx

namespace Png

theorem be32_highBytes {n : Nat} (h : n < 2 ^ 32) (rest : Bytes) :
    be32 (Deflate.highBytes n ++ rest) = n := by
  unfold be32 Deflate.highBytes
  simp only [List.cons_append, List.getD_cons_zero, List.getD_cons_succ, UInt8.toNat_ofNat']
  omega

theorem crc32_lt (p : Bytes) : crc32 p < 2 ^ 32 := UInt32.toNat_lt _

theorem highBytes_length (n : Nat) : (Deflate.highBytes n).length = 4 := rfl

/-- A chunk is read whole, whatever follows it. -/
theorem readChunks_chunk (maxPixels fuel : Nat) (type data rest : Bytes) (s : Chunks)
    (htype : type.length = 4) (hdata : data.length < 2 ^ 32) :
    readChunks maxPixels (fuel + 1) (chunk type data ++ rest) s =
      (readChunk maxPixels type data s).bind fun s' =>
        if type = kIEND then .ok s' else readChunks maxPixels fuel rest s' := by
  have hsplit : chunk type data ++ rest = Deflate.highBytes data.length ++
      (type ++ (data ++ (Deflate.highBytes (crc32 (type ++ data)) ++ rest))) := by
    simp only [chunk, List.append_assoc]
  have hlen : be32 (chunk type data ++ rest) = data.length := by
    rw [hsplit, be32_highBytes hdata]
  have hall : (chunk type data ++ rest).length = data.length + 12 + rest.length := by
    rw [hsplit]
    simp only [List.length_append, highBytes_length, htype]
    omega
  have h4 : (chunk type data ++ rest).drop 4 =
      type ++ (data ++ (Deflate.highBytes (crc32 (type ++ data)) ++ rest)) := by
    rw [hsplit]
    exact List.drop_left' (highBytes_length _)
  have h8 : (chunk type data ++ rest).drop 8 =
      data ++ (Deflate.highBytes (crc32 (type ++ data)) ++ rest) := by
    rw [show 8 = 4 + 4 by omega, ← List.drop_drop, h4]
    exact List.drop_left' htype
  have hcrc : (chunk type data ++ rest).drop (8 + data.length) =
      Deflate.highBytes (crc32 (type ++ data)) ++ rest := by
    rw [← List.drop_drop, h8, List.drop_left]
  have hnext : (chunk type data ++ rest).drop (data.length + 12) = rest := by
    rw [show data.length + 12 = 8 + data.length + 4 by omega, ← List.drop_drop, hcrc]
    exact List.drop_left' (highBytes_length _)
  have htake : ((chunk type data ++ rest).drop 4).take 4 = type := by
    rw [h4]
    exact List.take_left' htype
  have hread : ((chunk type data ++ rest).drop 8).take data.length = data := by
    rw [h8, List.take_left]
  rw [readChunks]
  dsimp only
  rw [hlen, if_neg (by omega), if_neg (by omega), htake, hread, hcrc,
    be32_highBytes (crc32_lt _), if_neg (by simp), hnext]

theorem readChunks_next {maxPixels : Nat} {type data : Bytes} {s s' : Chunks}
    (htype : type.length = 4) (hdata : data.length < 2 ^ 32)
    (hread : readChunk maxPixels type data s = .ok s') (hne : type ≠ kIEND) (fuel : Nat)
    (rest : Bytes) :
    readChunks maxPixels (fuel + 1) (chunk type data ++ rest) s =
      readChunks maxPixels fuel rest s' := by
  have h := readChunks_chunk maxPixels fuel type data rest s htype hdata
  rw [hread] at h
  exact h.trans (if_neg hne)

theorem kIEND_length : kIEND.length = 4 := by decide

theorem kIDAT_length : kIDAT.length = 4 := by decide

theorem depthOk_eq {m : Image} (hm : m.Valid) : depthOk m.header.color m.header.depth = true := by
  have h := hm.depth
  unfold depthOk
  simp only [List.mem_cons, List.not_mem_nil, or_false] at h
  simp only [Bool.or_eq_true, Bool.and_eq_true, beq_iff_eq]
  omega

theorem readHeader_bytes {m : Image} (hm : m.Valid) {maxPixels : Nat}
    (hmax : m.header.w * m.header.h ≤ maxPixels) :
    readHeader maxPixels m.header.bytes = .ok m.header := by
  have hw := hm.width
  have hh := hm.height
  have hcolor : m.header.color ≤ 6 ∧ m.header.depth ≤ 8 := by
    have h := hm.depth
    simp only [List.mem_cons, List.not_mem_nil, or_false] at h
    omega
  have hinterlace := hm.interlace
  have hbw : be32 m.header.bytes = m.header.w := by
    unfold Header.bytes
    rw [List.append_assoc]
    exact be32_highBytes (by omega) _
  have hbh : be32 (m.header.bytes.drop 4) = m.header.h := by
    unfold Header.bytes
    rw [List.append_assoc]
    exact be32_highBytes (by omega) _
  have hdepth : (m.header.bytes.getD 8 0).toNat = m.header.depth := by
    show (UInt8.ofNat m.header.depth).toNat = _
    rw [UInt8.toNat_ofNat']
    omega
  have hcol : (m.header.bytes.getD 9 0).toNat = m.header.color := by
    show (UInt8.ofNat m.header.color).toNat = _
    rw [UInt8.toNat_ofNat']
    omega
  have hint : (m.header.bytes.getD 12 0).toNat = m.header.interlace := by
    show (UInt8.ofNat m.header.interlace).toNat = _
    rw [UInt8.toNat_ofNat']
    omega
  have hmethods : m.header.bytes.getD 10 0 = 0 ∧ m.header.bytes.getD 11 0 = 0 := ⟨rfl, rfl⟩
  unfold readHeader
  dsimp only
  rw [hbw, hbh, hdepth, hcol, hint, hmethods.1, hmethods.2, depthOk_eq hm, if_neg (by omega),
    if_neg (by simp; omega), if_neg (by omega), if_neg (by simp), if_neg (by omega)]

theorem readChunk_idat (maxPixels : Nat) (data : Bytes) (hd : Header) (idat palette : Bytes) :
    readChunk maxPixels kIDAT data ⟨some hd, idat, palette⟩ =
      .ok ⟨some hd, idat ++ data, palette⟩ := by
  simp [readChunk, kIDAT, kIHDR, kPLTE]

theorem readChunk_iend (maxPixels : Nat) (hd : Header) (idat palette : Bytes) :
    readChunk maxPixels kIEND [] ⟨some hd, idat, palette⟩ = .ok ⟨some hd, idat, palette⟩ := by
  simp [readChunk, kIEND, kIDAT, kIHDR, kPLTE]

/-- The cut deflated bytes are put together again. -/
theorem readChunks_cuts {maxPixels : Nat} {hd : Header} {palette : Bytes} {cuts : List Bytes}
    (hcuts : ∀ cut ∈ cuts, cut.length < 2 ^ 32) (idat : Bytes) {fuel : Nat}
    (hfuel : cuts.length < fuel) :
    readChunks maxPixels fuel (cuts.flatMap (chunk kIDAT) ++ chunk kIEND [])
        ⟨some hd, idat, palette⟩ = .ok ⟨some hd, idat ++ cuts.flatten, palette⟩ := by
  induction cuts generalizing idat fuel with
  | nil =>
    obtain ⟨fuel, rfl⟩ := Nat.exists_eq_add_of_lt hfuel
    have h := readChunks_chunk maxPixels (0 + fuel) kIEND [] [] ⟨some hd, idat, palette⟩
      kIEND_length (Nat.two_pow_pos 32)
    rw [readChunk_iend, List.append_nil] at h
    simp only [Except.bind, if_true] at h
    rw [List.flatten_nil, List.append_nil]
    exact h
  | cons cut cuts ih =>
    obtain ⟨fuel, rfl⟩ := Nat.exists_eq_add_of_lt hfuel
    have hne : kIDAT ≠ kIEND := by decide
    have hnext := ih (fun c hc => hcuts c (List.mem_cons_of_mem _ hc)) (idat ++ cut)
      (by rw [List.length_cons]; omega : cuts.length < (cut :: cuts).length + fuel)
    rw [List.flatMap_cons, List.append_assoc, List.flatten_cons,
      readChunks_next kIDAT_length (hcuts cut List.mem_cons_self)
        (readChunk_idat maxPixels cut hd idat palette) hne, hnext, List.append_assoc]

theorem adler32_lt (out : Bytes) : Deflate.adler32 out < 2 ^ 32 := by
  unfold Deflate.adler32
  omega

theorem chunk_length (type data : Bytes) :
    (chunk type data).length = type.length + data.length + 8 := by
  simp only [chunk, List.length_append, highBytes_length]
  omega

theorem cuts_length_le (cuts : List Bytes) :
    cuts.length ≤ (cuts.flatMap (chunk kIDAT)).length := by
  induction cuts with
  | nil => exact Nat.zero_le _
  | cons cut cuts ih =>
    have h := chunk_length kIDAT cut
    rw [List.flatMap_cons, List.length_append, List.length_cons]
    omega

section Decoded

variable {m : Image} {ch : Choices} {maxPixels : Nat}

theorem readChunk_ihdr (hm : m.Valid) (hmax : m.header.w * m.header.h ≤ maxPixels) :
    readChunk maxPixels kIHDR m.header.bytes ⟨none, [], []⟩ = .ok ⟨some m.header, [], []⟩ := by
  have hlen : m.header.bytes.length = 13 := by simp [Header.bytes, highBytes_length]
  unfold readChunk
  rw [if_neg (fun h => h.2 (Eq.refl _)), if_pos (Eq.refl _), if_neg (by simp [hlen]),
    readHeader_bytes hm hmax]
  exact Eq.refl _

theorem readChunk_plte (hm : m.Valid) (hne : m.palette ≠ []) :
    readChunk maxPixels kPLTE (paletteBytes m.palette) ⟨some m.header, [], []⟩ =
      .ok ⟨some m.header, [], paletteBytes m.palette⟩ := by
  have hlen := paletteBytes_length m.palette
  have hmost := hm.palette
  have hpos := List.length_pos_iff.mpr hne
  have htype : kPLTE ≠ kIHDR := by decide
  unfold readChunk
  rw [if_neg (by simp), if_neg htype, if_pos (Eq.refl _), if_neg (by omega)]

/-- What the chunks of a file give. -/
theorem readChunks_file (hm : m.Valid) (hc : ch.For m)
    (hmax : m.header.w * m.header.h ≤ maxPixels) :
    readChunks maxPixels (m.file ch).length ((m.file ch).drop 8) ⟨none, [], []⟩ =
      .ok ⟨some m.header, ch.cuts.flatten, paletteBytes m.palette⟩ := by
  have hhead : m.header.bytes.length = 13 := by simp [Header.bytes, highBytes_length]
  have hcount := cuts_length_le ch.cuts
  have hfirst := chunk_length kIHDR m.header.bytes
  have hdrop : (m.file ch).drop 8 = chunk kIHDR m.header.bytes ++
      ((if m.palette = [] then [] else chunk kPLTE (paletteBytes m.palette)) ++
        (ch.cuts.flatMap (chunk kIDAT) ++ chunk kIEND [])) := List.drop_left' (Eq.refl 8)
  have hlast := chunk_length kIEND []
  have hsize := congrArg List.length hdrop
  rw [List.length_drop, List.length_append, List.length_append, List.length_append] at hsize
  obtain ⟨fuel, hfuel⟩ : ∃ k, (m.file ch).length = k + ch.cuts.length + 3 :=
    ⟨(m.file ch).length - ch.cuts.length - 3, by omega⟩
  have hi : kIHDR ≠ kIEND := by decide
  have hp : kPLTE ≠ kIEND := by decide
  have hli : kIHDR.length = 4 := by decide
  have hlp : kPLTE.length = 4 := by decide
  rw [hdrop, hfuel, readChunks_next hli (by omega) (readChunk_ihdr hm hmax) hi]
  by_cases hne : m.palette = []
  · rw [if_pos hne, List.nil_append, hne]
    exact readChunks_cuts hc.length [] (by omega)
  · have hlen := paletteBytes_length m.palette
    have hmost := hm.palette
    rw [if_neg hne, readChunks_next hlp (by omega) (readChunk_plte hm hne) hp]
    exact readChunks_cuts hc.length [] (by omega)

end Decoded

end Png

end Llmx
