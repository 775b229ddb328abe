import Llmx.Deflate
import Llmx.InflateHuffman

namespace Llmx

namespace Inflate

open BitLists CanonicalCodes Deflate Triples

/-- With `m` bits beyond whole bytes after the bits `w`, `x` takes them and answers `out`, or
refuses them where `out` is over the limit. -/
def Within (limit m : Nat) (x : Take Bytes) (w : List Bool) (out : Bytes) : Prop :=
  ∀ p b rest, rest.length % 8 = m → Reading p b (w ++ rest) →
    (out.length ≤ limit → ∃ b', x b = .ok out b' ∧ Reading p b' rest) ∧
      (limit < out.length → ∃ b', x b = .error (.runtime tooMany) b')

section Rules

variable {α : Type} {limit m : Nat} {x : Take Bytes} {f : Bytes → Take Bytes} {w v : List Bool}
  {out out' : Bytes}

theorem Within.of_reads (hx : Reads x w out) (hout : out.length ≤ limit) :
    Within limit m x w out := by
  intro p b rest _ h
  exact ⟨fun _ => hx p b rest h, fun hlt => by omega⟩

theorem Within.of_fail (hout : limit < out.length) : Within limit m (fail tooMany) w out := by
  intro p b rest _ _
  exact ⟨fun hle => by omega, fun _ => ⟨b, rfl⟩⟩

theorem Within.after {a : α} {y : Take α} {g : α → Take Bytes} (hy : Reads y v a)
    (hg : Within limit m (g a) w out) : Within limit m (y >>= g) (v ++ w) out := by
  intro p b rest hm h
  rw [List.append_assoc] at h
  obtain ⟨b1, h1, hr1⟩ := hy p b _ h
  rw [bind_ok h1]
  exact hg p b1 rest hm hr1

theorem Within.after_nil {a : α} {y : Take α} {g : α → Take Bytes} (hy : Reads y w a)
    (hg : Within limit m (g a) [] out) : Within limit m (y >>= g) w out := by
  have h := Within.after hy hg
  rwa [List.append_nil] at h

theorem Within.bind (hx : Within limit ((v.length + m) % 8) x w out)
    (hf : out.length ≤ limit → Within limit m (f out) v out') (hle : out.length ≤ out'.length) :
    Within limit m (x >>= f) (w ++ v) out' := by
  intro p b rest hm h
  rw [List.append_assoc] at h
  have hrest : (v ++ rest).length % 8 = (v.length + m) % 8 := by
    rw [List.length_append]
    omega
  obtain ⟨hok, herr⟩ := hx p b _ hrest h
  by_cases hout : out.length ≤ limit
  · obtain ⟨b1, h1, hr1⟩ := hok hout
    rw [bind_ok h1]
    exact hf hout p b1 rest hm hr1
  · obtain ⟨b1, h1⟩ := herr (by omega)
    exact ⟨fun hle' => by omega, fun _ => ⟨b1, bind_error h1⟩⟩

end Rules

theorem lastWithin_spec (first : Nat → Nat) (n : Nat) {x : Nat} (h : first 0 ≤ x) (hn : 0 < n) :
    lastWithin first n x < n ∧ first (lastWithin first n x) ≤ x ∧
      (lastWithin first n x + 1 < n → x < first (lastWithin first n x + 1)) := by
  induction n with
  | zero => omega
  | succ n ih =>
    rw [lastWithin]
    split
    next hle => exact ⟨by omega, hle, fun hlt => by omega⟩
    next hgt =>
      have hpos : 0 < n := by
        apply Nat.pos_of_ne_zero
        intro h0
        rw [h0] at hgt
        exact hgt h
      obtain ⟨h1, h2, h3⟩ := ih hpos
      refine ⟨by omega, h2, fun _ => ?_⟩
      by_cases hlast : lastWithin first n x + 1 < n
      · exact h3 hlast
      · rw [show lastWithin first n x + 1 = n by omega]
        omega

theorem length_tables {i : Nat} (h : i < 29) :
    kLengthBase.getD i 0 = lengthFirst i ∧ kLengthExtra.getD i 0 = lengthExtra i := by
  have hall : ∀ i < 29, kLengthBase.getD i 0 = lengthFirst i ∧
      kLengthExtra.getD i 0 = lengthExtra i := by decide
  exact hall i h

/-- Each distance symbol's values end where the next one's begin, and the last one's at the most. -/
theorem distances : (∀ i < 30, kDistBase.getD i 0 = distanceFirst i ∧
      kDistExtra.getD i 0 = distanceExtra i) ∧
    (∀ i < 29, distanceFirst (i + 1) ≤ distanceFirst i + 2 ^ distanceExtra i) ∧
      distanceFirst 29 + 2 ^ distanceExtra 29 = 32769 := by decide +kernel

theorem dist_tables {i : Nat} (h : i < 30) :
    kDistBase.getD i 0 = distanceFirst i ∧ kDistExtra.getD i 0 = distanceExtra i :=
  distances.1 i h

theorem lengthSymbol_spec {length : Nat} (h3 : 3 ≤ length) (h258 : length ≤ 258) :
    lengthSymbol length < 29 ∧ lengthFirst (lengthSymbol length) ≤ length ∧
      length - lengthFirst (lengthSymbol length) < 2 ^ lengthExtra (lengthSymbol length) := by
  have hnext : ∀ i < 28, lengthFirst (i + 1) ≤ lengthFirst i + 2 ^ lengthExtra i := by decide
  obtain ⟨h1, h2, hlast⟩ := lastWithin_spec lengthFirst 29 h3 (by decide)
  refine ⟨h1, h2, ?_⟩
  show length - lengthFirst (lastWithin lengthFirst 29 length) < _
  by_cases hi : lastWithin lengthFirst 29 length + 1 < 29
  · have hlt := hlast hi
    have hle := hnext _ (by omega : lastWithin lengthFirst 29 length < 28)
    unfold lengthSymbol
    omega
  · have he : lastWithin lengthFirst 29 length = 28 := by omega
    unfold lengthSymbol
    rw [he]
    show length - 258 < 1
    omega

theorem distanceSymbol_spec {distance : Nat} (h1 : 1 ≤ distance) (hmost : distance ≤ 32768) :
    distanceSymbol distance < 30 ∧ distanceFirst (distanceSymbol distance) ≤ distance ∧
      distance - distanceFirst (distanceSymbol distance) <
        2 ^ distanceExtra (distanceSymbol distance) := by
  obtain ⟨_, hnext, hend⟩ := distances
  obtain ⟨hlt, h2, hlast⟩ := lastWithin_spec distanceFirst 30 h1 (by decide)
  refine ⟨hlt, h2, ?_⟩
  unfold distanceSymbol
  by_cases hi : lastWithin distanceFirst 30 distance + 1 < 30
  · have hlt := hlast hi
    have hle := hnext _ (by omega : lastWithin distanceFirst 30 distance < 29)
    omega
  · have he : lastWithin distanceFirst 30 distance = 29 := by omega
    rw [he] at h2 ⊢
    omega

/-- Bytes copied one by one from before the end are the last ones over and over. -/
theorem copyBytes_eq {d : Nat} {out : Bytes} (h0 : 0 < d) (hd : d ≤ out.length) (m k : Nat) :
    copyBytes m (out.length - d + k)
        (out ++ (List.range k).map fun i => out.getD (out.length - d + i % d) 0) =
      out ++ (List.range (k + m)).map fun i => out.getD (out.length - d + i % d) 0 := by
  induction m generalizing k with
  | zero => rfl
  | succ m ih =>
    have hread : (out ++ (List.range k).map fun i => out.getD (out.length - d + i % d) 0).getD
        (out.length - d + k) 0 = out.getD (out.length - d + k % d) 0 := by
      rw [List.getD_eq_getElem?_getD, List.getElem?_append]
      by_cases hk : k < d
      · rw [if_pos (by omega), Nat.mod_eq_of_lt hk, List.getD_eq_getElem?_getD]
      · have hmod : (k - d) % d = k % d := (Nat.mod_eq_sub_mod (by omega)).symm
        rw [if_neg (by omega), show out.length - d + k - out.length = k - d by omega,
          List.getElem?_map, List.getElem?_range (by omega), Option.map_some, Option.getD_some,
          hmod]
    have hnext := ih (k + 1)
    rw [List.range_succ, List.map_append, ← List.append_assoc] at hnext
    rw [copyBytes, hread, show k + (m + 1) = k + 1 + m by omega]
    exact hnext

section Tokens

variable {limit m : Nat} {lit dist : List Nat} {litTable distTable : Huffman}

theorem copied_within {out : Bytes} {length distance : Nat}
    (hdist : ∀ s < 30, dist.getD s 0 ≠ 0 → Reads distTable.decode (codeword dist s) s)
    (ht : (Token.copy length distance).Valid lit dist out) :
    Within limit m (copied limit distTable (lengthSymbol length) out)
      (lowBits (lengthExtra (lengthSymbol length)) (length - lengthFirst (lengthSymbol length)) ++
        (codeword dist (distanceSymbol distance) ++
          lowBits (distanceExtra (distanceSymbol distance))
            (distance - distanceFirst (distanceSymbol distance))))
      ((Token.copy length distance).expand out) := by
  obtain ⟨h3, h258, h1, hmost, hin, _, hcode⟩ := ht
  obtain ⟨hi, hfirst, hextra⟩ := lengthSymbol_spec h3 h258
  obtain ⟨hj, hfar, hdextra⟩ := distanceSymbol_spec h1 hmost
  obtain ⟨hbase, hkextra⟩ := length_tables hi
  obtain ⟨hdbase, hkdextra⟩ := dist_tables hj
  have hsmall : ∀ i < 29, lengthExtra i ≤ 16 := by decide
  have hdsmall : ∀ i < 30, distanceExtra i ≤ 16 := by decide
  have hexpand : ((Token.copy length distance).expand out).length = out.length + length := by
    rw [Token.expand, List.length_append, List.length_map, List.length_range]
  have hcopy := copyBytes_eq h1 hin length 0
  rw [Nat.add_zero, List.range_zero, List.map_nil, List.append_nil, Nat.zero_add] at hcopy
  unfold copied
  rw [hkextra]
  refine (Within.after (get_lowBits (hsmall _ hi) hextra) ?_)
  refine (Within.after (hdist _ hj hcode) ?_)
  rw [if_neg (by omega), hkdextra, hbase, hdbase, show lengthFirst (lengthSymbol length) +
    (length - lengthFirst (lengthSymbol length)) = length by omega]
  refine Within.after_nil (get_lowBits (hdsmall _ hj) hdextra) ?_
  rw [show distanceFirst (distanceSymbol distance) +
    (distance - distanceFirst (distanceSymbol distance)) = distance by omega, if_neg (by omega)]
  split
  next hlt => exact Within.of_fail (by omega)
  next hle =>
    rw [hcopy]
    exact Within.of_reads Reads.pure (by omega)

theorem length_expandToken (t : Token) (out : Bytes) :
    out.length ≤ (t.expand out).length := by
  cases t <;> rw [Token.expand, List.length_append] <;> omega

theorem length_expandTokens (tokens : List Token) (out : Bytes) :
    out.length ≤ (tokens.foldl Token.expand out).length := by
  induction tokens generalizing out with
  | nil => exact Nat.le_refl _
  | cons t tokens ih => exact Nat.le_trans (length_expandToken t out) (ih _)

theorem codes_within (hlit : ∀ s, lit.getD s 0 ≠ 0 → Reads litTable.decode (codeword lit s) s)
    (hdist : ∀ s < 30, dist.getD s 0 ≠ 0 → Reads distTable.decode (codeword dist s) s)
    {tokens : List Token} {out : Bytes} (ht : TokensValid lit dist out tokens)
    (hout : out.length ≤ limit) {rounds : Nat} (hrounds : tokens.length < rounds) (m : Nat) :
    Within limit m (codes limit litTable distTable rounds out) (tokensBits lit dist tokens)
      (tokens.foldl Token.expand out) := by
  induction tokens generalizing out rounds m with
  | nil =>
    obtain ⟨rounds, rfl⟩ : ∃ r, rounds = r + 1 := ⟨rounds - 1, by omega⟩
    rw [codes]
    refine Within.of_reads ((hlit 256 ht).bind_pure ?_) hout
    rw [if_neg (by decide), if_pos rfl]
    rfl
  | cons t tokens ih =>
    rw [List.length_cons] at hrounds
    obtain ⟨rounds, rfl⟩ : ∃ r, rounds = r + 1 := ⟨rounds - 1, by omega⟩
    obtain ⟨ht, hts⟩ := ht
    have hgrown := length_expandTokens tokens (t.expand out)
    have hbits : tokensBits lit dist (t :: tokens) =
        t.bits lit dist ++ tokensBits lit dist tokens := by
      rw [tokensBits, List.flatMap_cons, List.append_assoc, tokensBits]
    rw [hbits, codes, List.foldl_cons]
    cases t with
    | literal byte =>
      have hlt : byte.toNat < 256 := byte.toNat_lt
      have hlen : (Token.expand out (.literal byte)).length = out.length + 1 := List.length_append
      refine Within.after (hlit _ ht) ?_
      rw [if_pos hlt]
      split
      next hfull => exact Within.of_fail (by omega)
      next hroom =>
        rw [UInt8.ofNat_toNat]
        exact ih hts (by omega) (by omega) m
    | copy length distance =>
      have hi := (lengthSymbol_spec ht.1 ht.2.1).1
      rw [Token.bits, List.append_assoc]
      refine Within.after (hlit _ ht.2.2.2.2.2.1) ?_
      rw [if_neg (by omega), if_neg (by omega), if_neg (by omega), Nat.add_sub_cancel_left]
      refine Within.bind (copied_within hdist ht) (fun hle => ?_) hgrown
      exact ih hts hle (by omega) m

end Tokens

end Inflate

namespace Inflate

open BitLists CanonicalCodes Deflate

theorem readCodeLengths_reads {lens : List Nat} (h : ∀ len ∈ lens, len ≤ 7) (is cl : List Nat) :
    Reads (readCodeLengths is cl) (is.flatMap fun s => lowBits 3 (lens.getD s 0))
      (is.foldl (fun cl i => cl.set i (lens.getD i 0)) cl) := by
  induction is generalizing cl with
  | nil => exact Reads.pure
  | cons i is ih =>
    have hlt : lens.getD i 0 < 2 ^ 3 := by
      rw [List.getD_eq_getElem?_getD]
      cases hi : lens[i]? with
      | none => decide
      | some len =>
        have hle := h len (List.mem_of_getElem? hi)
        show len < 8
        omega
    exact (get_lowBits (by decide) hlt).bind (ih _)

theorem foldl_set_getD (f : Nat → Nat) (is cl : List Nat) (h : ∀ i ∈ is, i < cl.length) (j : Nat) :
    (is.foldl (fun cl i => cl.set i (f i)) cl).getD j 0 =
      if j ∈ is then f j else cl.getD j 0 := by
  induction is generalizing cl with
  | nil => rfl
  | cons i is ih =>
    have hi := h i List.mem_cons_self
    rw [List.foldl_cons, ih _ fun i hi => by
      rw [List.length_set]
      exact h i (List.mem_cons_of_mem _ hi)]
    rw [getD_set _ _ _ _ _ hi]
    by_cases hj : j ∈ is
    · rw [if_pos hj, if_pos (List.mem_cons_of_mem _ hj)]
    · rw [if_neg hj]
      by_cases he : i = j
      · rw [if_pos he, he, if_pos List.mem_cons_self]
      · rw [if_neg he, if_neg fun hm => (List.mem_cons.mp hm).elim (fun h => he h.symm) hj]

theorem foldl_set_length (f : Nat → Nat) (is cl : List Nat) :
    (is.foldl (fun cl i => cl.set i (f i)) cl).length = cl.length := by
  induction is generalizing cl with
  | nil => rfl
  | cons i is ih => rw [List.foldl_cons, ih, List.length_set]

theorem mem_order {j : Nat} (h : j < 19) : j ∈ order := by
  have hall : ∀ j < 19, j ∈ order := by decide
  exact hall j h

theorem lt_of_mem_order {j : Nat} (h : j ∈ order) : j < 19 := by
  have hall : ∀ j ∈ order, j < 19 := by decide
  exact hall j h

/-- The code lengths sent are all of them, the others being 0. -/
theorem sent_lengths {lens : List Nat} {sent : Nat} (hlen : lens.length = 19)
    (hunsent : ∀ s ∈ order.drop sent, lens.getD s 0 = 0) :
    (order.take sent).foldl (fun cl i => cl.set i (lens.getD i 0)) (List.replicate 19 0) =
      lens := by
  apply List.ext_getElem?
  intro j
  have hl := foldl_set_length (fun i => lens.getD i 0) (order.take sent) (List.replicate 19 0)
  rw [List.length_replicate] at hl
  by_cases hj : j < 19
  · have hget := foldl_set_getD (fun i => lens.getD i 0) (order.take sent) (List.replicate 19 0)
      (fun i hi => by
        rw [List.length_replicate]
        exact lt_of_mem_order (List.mem_of_mem_take hi)) j
    have hzero : (List.replicate 19 0).getD j 0 = 0 := by
      rw [List.getD_eq_getElem?_getD, List.getElem?_replicate]
      split <;> rfl
    have heq : ((order.take sent).foldl (fun cl i => cl.set i (lens.getD i 0))
        (List.replicate 19 0)).getD j 0 = lens.getD j 0 := by
      rw [hget]
      split
      next => rfl
      next hnot =>
        have hmem := mem_order hj
        rw [← List.take_append_drop sent order] at hmem
        rcases List.mem_append.mp hmem with hm | hm
        · exact absurd hm hnot
        · rw [hunsent j hm, hzero]
    rw [List.getD_eq_getElem?_getD, List.getD_eq_getElem?_getD,
      List.getElem?_eq_getElem (by omega), List.getElem?_eq_getElem (by omega)] at heq
    rw [List.getElem?_eq_getElem (by omega), List.getElem?_eq_getElem (by omega)]
    exact congrArg some heq
  · rw [List.getElem?_eq_none (by omega), List.getElem?_eq_none (by omega)]

theorem lt_length_of_getD {xs : List Nat} {s : Nat} (h : xs.getD s 0 ≠ 0) : s < xs.length := by
  apply Decidable.byContradiction
  intro hs
  rw [List.getD_eq_getElem?_getD, List.getElem?_eq_none (by omega)] at h
  exact h rfl

theorem lengths_lt {most : Nat} {lengths : List Nat} (h : LengthsValid most lengths)
    (hmost : most ≤ 15) : ∀ len ∈ lengths, len < 16 := fun len hlen => by
  have hle := h.1 len hlen
  omega

theorem codeword_reads {most : Nat} {lengths : List Nat} (h : LengthsValid most lengths)
    (hmost : most ≤ 15) {s : Nat} (hs : lengths.getD s 0 ≠ 0) :
    Reads (table lengths).decode (codeword lengths s) s :=
  decode_reads (lengths_lt h hmost) h.2 (lt_length_of_getD hs) hs

theorem repeatOf_reads {lens l : List Nat} {r : LengthRun} (hr : r.Valid lens l) (h : 16 ≤ r.symbol) :
    ∃ t, Reads (repeatOf r.symbol l) r.extra t ∧ r.grow l = l ++ List.replicate t.2 t.1 ∧
      0 < t.2 := by
  obtain ⟨_, hr⟩ := hr
  cases r with
  | one len =>
    have hle : len ≤ 15 := hr
    have hge : 16 ≤ len := h
    omega
  | again times =>
    obtain ⟨hne, h3, h6⟩ := hr
    refine ⟨(l.getD (l.length - 1) 0, times), ?_, rfl, by show 0 < times; omega⟩
    have hlen : l.length ≠ 0 := fun h0 => hne (List.eq_nil_of_length_eq_zero h0)
    have hget : Reads (get 2) (lowBits 2 (times - 3)) (times - 3) :=
      get_lowBits (by decide) (by omega)
    show Reads (repeatOf 16 l) _ _
    rw [repeatOf, if_pos rfl, if_neg hlen]
    exact hget.bind_pure (by rw [show 3 + (times - 3) = times by omega])
  | zeros times =>
    obtain ⟨h3, h138⟩ := hr
    refine ⟨(0, times), ?_, rfl, by show 0 < times; omega⟩
    unfold LengthRun.symbol LengthRun.extra
    by_cases h10 : times ≤ 10
    · have hget : Reads (get 3) (lowBits 3 (times - 3)) (times - 3) :=
        get_lowBits (by decide) (by omega)
      simp only [if_pos h10]
      rw [repeatOf, if_neg (by decide), if_pos rfl]
      exact hget.bind_pure (by rw [show 3 + (times - 3) = times by omega])
    · have hget : Reads (get 7) (lowBits 7 (times - 11)) (times - 11) :=
        get_lowBits (by decide) (by omega)
      simp only [if_neg h10]
      rw [repeatOf, if_neg (by decide), if_neg (by decide)]
      exact hget.bind_pure (by rw [show 11 + (times - 11) = times by omega])

theorem foldl_grow_length (runs : List LengthRun) (l : List Nat) :
    l.length ≤ (runs.foldl LengthRun.grow l).length := by
  induction runs generalizing l with
  | nil => exact Nat.le_refl _
  | cons r runs ih =>
    have h : l.length ≤ (r.grow l).length := by
      cases r <;> simp only [LengthRun.grow, List.length_append] <;> omega
    exact Nat.le_trans h (ih _)

theorem readLengths_reads {lens : List Nat} (hlens : LengthsValid 7 lens) {runs : List LengthRun}
    {l : List Nat} (hruns : LengthRunsValid lens l runs) {total rounds : Nat}
    (htotal : (runs.foldl LengthRun.grow l).length = total) (hrounds : total - l.length < rounds) :
    Reads (readLengths (table lens) total rounds l) (runs.flatMap (LengthRun.bits lens))
      (runs.foldl LengthRun.grow l) := by
  induction runs generalizing l rounds with
  | nil =>
    obtain ⟨rounds, rfl⟩ : ∃ r, rounds = r + 1 := ⟨rounds - 1, by omega⟩
    have hle : total ≤ l.length := Nat.le_of_eq htotal.symm
    rw [readLengths, if_pos hle]
    exact Reads.pure
  | cons r runs ih =>
    obtain ⟨rounds, rfl⟩ : ∃ r, rounds = r + 1 := ⟨rounds - 1, by omega⟩
    obtain ⟨hr, hruns⟩ := hruns
    have hgrown := foldl_grow_length runs (r.grow l)
    rw [List.foldl_cons] at htotal
    rw [htotal] at hgrown
    have hdecode := codeword_reads hlens (by decide) hr.1
    rw [List.flatMap_cons, LengthRun.bits, List.append_assoc, List.foldl_cons]
    by_cases hsym : r.symbol < 16
    · obtain ⟨len, hlen⟩ : ∃ len, r = .one len := by
        cases r with
        | one len => exact ⟨len, rfl⟩
        | again times =>
          have hlt : 16 < 16 := hsym
          omega
        | zeros times =>
          unfold LengthRun.symbol at hsym
          simp only at hsym
          split at hsym <;> omega
      subst hlen
      have hgrow : (LengthRun.grow l (.one len)).length = l.length + 1 := List.length_append
      have hnext := ih hruns htotal (by omega : total - (LengthRun.grow l (.one len)).length < rounds)
      rw [readLengths, if_neg (by omega)]
      refine hdecode.bind ?_
      rw [if_pos hsym]
      exact hnext
    · obtain ⟨t, ht, hgrow, hpos⟩ := repeatOf_reads hr (by omega)
      have hlen : (r.grow l).length = l.length + t.2 := by
        rw [hgrow, List.length_append, List.length_replicate]
      have hnext := ih hruns htotal (by omega : total - (r.grow l).length < rounds)
      rw [readLengths, if_neg (by omega)]
      refine hdecode.bind ?_
      rw [if_neg hsym]
      refine ht.bind ?_
      show Reads (if total < l.length + t.2 then _ else _) _ _
      rw [if_neg (by omega), ← hgrow]
      exact hnext

theorem describedTables_reads {d : Description} (hd : d.Valid 30) (hend : d.lit.getD 256 0 ≠ 0) :
    Reads (describedTables d.lit.length d.dist.length d.sent)
      (((codeOrder.take d.sent).flatMap fun s => lowBits 3 (d.lens.getD s 0)) ++
        d.runs.flatMap (LengthRun.bits d.lens)) (table d.lit, table d.dist) := by
  have hlit := hd.lit_length
  have hdist := hd.dist_length
  have hcl := readCodeLengths_reads hd.lens_valid.1 (order.take d.sent) (List.replicate 19 0)
  rw [sent_lengths hd.lens_length hd.unsent] at hcl
  have hlens := build_reads (lengths_lt hd.lens_valid (by decide)) hd.lens_valid.2
  have htotal : (d.runs.foldl LengthRun.grow []).length = d.lit.length + d.dist.length := by
    rw [hd.runs_eq, List.length_append]
  have hruns := readLengths_reads hd.lens_valid hd.runs_valid htotal
    (by omega : _ < d.lit.length + d.dist.length + 1)
  rw [hd.runs_eq] at hruns
  have hbuild : Reads (buildBoth d.lit d.dist) [] (table d.lit, table d.dist) :=
    (build_reads (lengths_lt hd.lit_valid (by decide)) hd.lit_valid.2).of_nil_bind
      ((build_reads (lengths_lt hd.dist_valid (by decide)) hd.dist_valid.2).bind_pure rfl)
  have hl256 : (d.lit ++ d.dist).getD 256 0 = d.lit.getD 256 0 := by
    rw [List.getD_eq_getElem?_getD, List.getD_eq_getElem?_getD, List.getElem?_append_left (by omega)]
  rw [describedTables, if_neg (by omega)]
  refine hcl.bind (hlens.of_nil_bind (hruns.bind_nil ?_))
  rw [hl256, if_neg hend, List.take_left, List.drop_left]
  exact hbuild

theorem dynamicTables_reads {d : Description} (hd : d.Valid 30) (hend : d.lit.getD 256 0 ≠ 0) :
    Reads dynamicTables d.bits (table d.lit, table d.dist) := by
  have hlit := hd.lit_length
  have hdist := hd.dist_length
  have hsent := hd.sent_bounds
  have h := describedTables_reads hd hend
  rw [show d.lit.length = d.lit.length - 257 + 257 by omega,
    show d.dist.length = d.dist.length - 1 + 1 by omega,
    show describedTables (d.lit.length - 257 + 257) (d.dist.length - 1 + 1) d.sent =
      describedTables (d.lit.length - 257 + 257) (d.dist.length - 1 + 1) (d.sent - 4 + 4) by
        rw [show d.sent - 4 + 4 = d.sent by omega]] at h
  have h1 : Reads (get 5) (lowBits 5 (d.lit.length - 257)) (d.lit.length - 257) :=
    get_lowBits (by decide) (by omega)
  have h2 : Reads (get 5) (lowBits 5 (d.dist.length - 1)) (d.dist.length - 1) :=
    get_lowBits (by decide) (by omega)
  have h3 : Reads (get 4) (lowBits 4 (d.sent - 4)) (d.sent - 4) :=
    get_lowBits (by decide) (by omega)
  exact h1.bind (h2.bind (h3.bind h))

end Inflate

end Llmx
