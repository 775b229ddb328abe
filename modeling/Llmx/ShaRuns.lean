import Llmx.ShaStandard

namespace Llmx

namespace Hub

open Fips180 (Word)

/-- Bytes in lower-case hexadecimal digits. -/
def hexText (bytes : Bytes) : Bytes :=
  bytes.flatMap fun b => [ShaStream.hexDigits.getD (b.toNat / 16) 0,
    ShaStream.hexDigits.getD (b.toNat % 16) 0]

/-- The standard's digest of a message. -/
def standardDigest (sha256 : Bool) (m : Bytes) : Bytes :=
  if sha256 then Fips180.sha256.digest m else Fips180.sha1.digest m

theorem hexText_append (a b : Bytes) : hexText (a ++ b) = hexText a ++ hexText b :=
  List.flatMap_append

theorem hexWord_eq (w : Word) : ShaStream.hexWord w = hexText (Fips180.bigEndian 4 w.toNat) := by
  have hbytes : Fips180.bigEndian 4 w.toNat = [UInt8.ofNat (w.toNat / 256 / 256 / 256),
      UInt8.ofNat (w.toNat / 256 / 256), UInt8.ofNat (w.toNat / 256), UInt8.ofNat w.toNat] :=
    Eq.refl _
  have hnibble : ∀ k : UInt32, k.toNat < 32 →
      ((w >>> k) &&& 15).toNat = w.toNat / 2 ^ k.toNat % 16 := by
    intro k hk
    rw [UInt32.toNat_and, UInt32.toNat_shiftRight, Nat.mod_eq_of_lt hk, Nat.shiftRight_eq_div_pow]
    exact Nat.and_two_pow_sub_one_eq_mod _ 4
  rw [hbytes]
  unfold ShaStream.hexWord hexText
  simp only [List.map_cons, List.map_nil, List.flatMap_cons, List.flatMap_nil, List.append_nil,
    List.cons_append, List.nil_append, UInt8.toNat_ofNat']
  have hpair : ∀ d, (w.toNat / 2 ^ d % 256 / 16 = w.toNat / 2 ^ (d + 4) % 16) ∧
      w.toNat / 2 ^ d % 256 % 16 = w.toNat / 2 ^ d % 16 := by
    intro d
    rw [Nat.pow_add, ← Nat.div_div_eq_div_mul]
    omega
  rw [hnibble 28 (by decide), hnibble 24 (by decide), hnibble 20 (by decide),
    hnibble 16 (by decide), hnibble 12 (by decide), hnibble 8 (by decide), hnibble 4 (by decide),
    hnibble 0 (by decide)]
  have h24 := hpair 24
  have h16 := hpair 16
  have h8 := hpair 8
  have h0 := hpair 0
  rw [Nat.pow_zero, Nat.div_one] at h0
  simp only [Nat.reducePow, Nat.reduceAdd] at h24 h16 h8 h0
  simp only [Nat.reducePow, Nat.reduceMul, UInt32.reduceToNat, Nat.div_one,
    Nat.div_div_eq_div_mul, h24, h16, h8, h0]

/-- The words of a hash's text. -/
def stateWords (sha256 : Bool) (t : Words) : List Word :=
  [t.a, t.b, t.c, t.d, t.e] ++ if sha256 then [t.f, t.g, t.h] else []

namespace ShaStream

theorem length_bytes (n : Nat) :
    [56, 48, 40, 32, 24, 16, 8, 0].map (fun k => UInt8.ofNat (n >>> k)) =
      Fips180.bigEndian 8 n := by
  simp only [Fips180.bigEndian, List.nil_append, List.cons_append, List.map_cons, List.map_nil,
    Nat.shiftRight_eq_div_pow, Nat.div_div_eq_div_mul, Nat.reducePow, Nat.reduceMul, Nat.div_one]

/-- What ends a message is its padding, from the end of its whole blocks on. -/
theorem lastBlocks_eq (m : Bytes) :
    Fips180.pad m = m.take (m.length / 64 * 64) ++
        (lastBlocks (m.drop (m.length / 64 * 64)) (m.length * 8)).2 ∧
      (Fips180.pad m).length / 64 = m.length / 64 +
        (lastBlocks (m.drop (m.length / 64 * 64)) (m.length * 8)).1 := by
  have hsplit := (List.take_append_drop (m.length / 64 * 64) m).symm
  have hlen : (m.drop (m.length / 64 * 64)).length = m.length % 64 := by
    rw [List.length_drop]
    omega
  rw [Fips180.pad_length]
  unfold Fips180.pad Fips180.zeroBytes lastBlocks
  dsimp only
  rw [length_bytes, Nat.mul_comm m.length 8]
  generalize m.drop (m.length / 64 * 64) = pending at hsplit hlen
  have hfront : ∀ rest, m ++ rest = m.take (m.length / 64 * 64) ++ (pending ++ rest) := by
    intro rest
    rw [← List.append_assoc, ← hsplit]
  have hended : (pending ++ [(0x80 : UInt8)]).length = m.length % 64 + 1 := by
    rw [List.length_append, hlen, List.length_singleton]
  split
  next hmore =>
    rw [hended] at hmore
    have hzeros : zeros (64 - (m.length % 64 + 1)) ++ zeros (56 - 0) =
        List.replicate ((119 - m.length % 64) % 64) 0 := by
      unfold zeros
      rw [List.replicate_append_replicate]
      congr 1
      omega
    rw [hended]
    refine ⟨?_, ?_⟩
    · rw [← hzeros, List.append_nil, List.length_nil]
      simp only [List.append_assoc]
      exact hfront _
    · rw [List.length_append, hended, zeros, List.length_replicate]
      omega
  next hless =>
    rw [hended] at hless ⊢
    have hzeros : zeros (56 - (m.length % 64 + 1)) =
        List.replicate ((119 - m.length % 64) % 64) 0 := by
      unfold zeros
      congr 1
      omega
    refine ⟨?_, ?_⟩
    · rw [hzeros, List.nil_append]
      simp only [List.append_assoc]
      exact hfront _
    · rw [List.length_nil]
      omega

/-- A hash's text is the standard's digest of its message. -/
theorem hex_ofBytes (sha256 : Bool) (m : Bytes) :
    (ofBytes sha256 m).hex = hexText (standardDigest sha256 m) := by
  obtain ⟨hpad, hcount⟩ := lastBlocks_eq m
  have hpadlen : (Fips180.pad m).length / 64 * 64 ≤ (Fips180.pad m).length := Nat.div_mul_le_self _ _
  have htake : (m.take (m.length / 64 * 64)).length = m.length / 64 * 64 := by
    rw [List.length_take]
    omega
  have hmlen := Nat.le_of_eq htake.symm
  have hend : blocks sha256 (lastBlocks (m.drop (m.length / 64 * 64)) (m.length * 8)).1
      (blocks sha256 (m.length / 64) (firstWords sha256) m)
      (lastBlocks (m.drop (m.length / 64 * 64)) (m.length * 8)).2 =
      blocks sha256 ((Fips180.pad m).length / 64) (firstWords sha256) (Fips180.pad m) := by
    rw [hcount, blocks_add, hpad, blocks_append sha256 _ _ hmlen, List.drop_left' htake]
    congr 1
    have hwhole := blocks_append sha256 (m.length / 64) (firstWords sha256) hmlen
      (m.drop (m.length / 64 * 64))
    rw [List.take_append_drop] at hwhole
    exact hwhole
  have hwords : ∀ (h : List Word), h.flatMap hexWord =
      hexText (h.flatMap fun w => Fips180.bigEndian 4 w.toNat) := by
    intro h
    induction h with
    | nil => exact Eq.refl _
    | cons w h ih => rw [List.flatMap_cons, List.flatMap_cons, hexText_append, ih, hexWord_eq]
  have hhex : (ofBytes sha256 m).hex = hexText ((stateWords sha256
      (blocks sha256 ((Fips180.pad m).length / 64) (firstWords sha256) (Fips180.pad m))).flatMap
        fun w => Fips180.bigEndian 4 w.toNat) := by
    rw [← hwords, ← hend]
    exact Eq.refl _
  rw [hhex, standardDigest]
  cases sha256 with
  | true =>
    have hover := @blocks_over _ _ true Words.eight (fun s data hlen => block256_eq hlen s)
      ((Fips180.pad m).length / 64) (firstWords true) _ hpadlen
    rw [firstWords_eq] at hover
    rw [if_pos (Eq.refl _), Fips180.Hash.digest, ← hover]
    exact Eq.refl _
  | false =>
    have hover := @blocks_over _ _ false Words.five (fun s data hlen => block1_eq hlen s)
      ((Fips180.pad m).length / 64) (firstWords false) _ hpadlen
    rw [if_neg Bool.false_ne_true, Fips180.Hash.digest]
    exact congrArg (fun s => hexText ((Fips180.sha1.words s).flatMap _)) hover

end ShaStream

/-- What a hash is asked. -/
inductive ShaCall
  | update (data : Bytes)
  | hex
deriving DecidableEq, Repr

/-- What it answers: `refused` where it raises. -/
inductive ShaAnswer
  | done
  | refused
  | text (digits : Bytes)
deriving DecidableEq, Repr

namespace ShaStream

/-- The hash after a call, and what it answers; a call that raises leaves it as it was. -/
def call (s : ShaStream) : ShaCall → ShaStream × ShaAnswer
  | .update data =>
    match s.update data with
    | some t => (t, .done)
    | none => (s, .refused)
  | .hex => (s, .text s.hex)

def run (s : ShaStream) : List ShaCall → ShaStream × List ShaAnswer
  | [] => (s, [])
  | c :: cs => ((run (s.call c).1 cs).1, (s.call c).2 :: (run (s.call c).1 cs).2)

end ShaStream

/-- What a message is after a call, and what the standard answers of it: as long as it is below 2^61
bytes it goes on. -/
def standardCall (sha256 : Bool) (m : Bytes) : ShaCall → Bytes × ShaAnswer
  | .update data =>
    if data ≠ [] ∧ 2 ^ 61 ≤ m.length + data.length then (m, .refused) else (m ++ data, .done)
  | .hex => (m, .text (hexText (standardDigest sha256 m)))

def standardRun (sha256 : Bool) (m : Bytes) : List ShaCall → Bytes × List ShaAnswer
  | [] => (m, [])
  | c :: cs =>
    ((standardRun sha256 (standardCall sha256 m c).1 cs).1,
      (standardCall sha256 m c).2 :: (standardRun sha256 (standardCall sha256 m c).1 cs).2)

namespace ShaStream

variable {m : Bytes}

theorem standardCall_lt (sha256 : Bool) (hm : m.length < 2 ^ 61) (c : ShaCall) :
    (standardCall sha256 m c).1.length < 2 ^ 61 := by
  cases c with
  | hex => exact hm
  | update data =>
    unfold standardCall
    dsimp only
    split
    next => exact hm
    next hnot =>
      rw [List.length_append]
      by_cases hnil : data = []
      · rw [hnil]
        exact hm
      · exact Nat.lt_of_not_le fun h => hnot ⟨hnil, h⟩

/-- A call on the hash of a message is the standard's on the message. -/
theorem call_ofBytes (sha256 : Bool) (hm : m.length < 2 ^ 61) (c : ShaCall) :
    (ofBytes sha256 m).call c =
      (ofBytes sha256 (standardCall sha256 m c).1, (standardCall sha256 m c).2) := by
  cases c with
  | hex => exact Prod.ext (Eq.refl _) (congrArg ShaAnswer.text (hex_ofBytes sha256 m))
  | update data =>
    unfold call standardCall
    dsimp only
    by_cases hlong : data ≠ [] ∧ 2 ^ 61 ≤ m.length + data.length
    · have hnone : (ofBytes sha256 m).update data = none := by
        unfold update
        rw [if_neg fun h => hlong.1 (List.length_eq_zero_iff.mp h)]
        exact if_pos (show (2 ^ 64 - 1) / 8 - m.length < data.length by omega)
      rw [if_pos hlong, hnone]
    · rw [if_neg hlong]
      by_cases hnil : data = []
      · rw [hnil, List.append_nil]
        exact Eq.refl _
      · have hlt := Nat.lt_of_not_le fun h => hlong ⟨hnil, h⟩
        rw [update_ofBytes sha256 (by omega)]

theorem run_ofBytes (sha256 : Bool) (hm : m.length < 2 ^ 61) (cs : List ShaCall) :
    (ofBytes sha256 m).run cs =
      (ofBytes sha256 (standardRun sha256 m cs).1, (standardRun sha256 m cs).2) := by
  induction cs generalizing m with
  | nil => exact Eq.refl _
  | cons c cs ih =>
    have hrest := ih (standardCall_lt sha256 hm c)
    rw [run, call_ofBytes sha256 hm c]
    dsimp only
    rw [hrest]
    exact Eq.refl _

/-- Pieces fed one after another, as calls. -/
def updates (pieces : List Bytes) : List ShaCall := pieces.map .update

theorem standardRun_updates (sha256 : Bool) {pieces : List Bytes}
    (h : (m ++ pieces.flatten).length < 2 ^ 61) :
    (standardRun sha256 m (updates pieces)).1 = m ++ pieces.flatten := by
  induction pieces generalizing m with
  | nil => exact (List.append_nil m).symm
  | cons piece pieces ih =>
    rw [List.flatten_cons, ← List.append_assoc] at h ⊢
    have hfits : ¬ (piece ≠ [] ∧ 2 ^ 61 ≤ m.length + piece.length) := by
      rw [List.length_append, List.length_append] at h
      omega
    show (standardRun sha256 (standardCall sha256 m (.update piece)).1 (updates pieces)).1 = _
    rw [standardCall, if_neg hfits]
    exact ih h

/-- A hash is the standard's of the message whatever pieces it comes in and whatever is asked on
the way, and data that would make it too long is refused and changes nothing. -/
theorem hash_is_standard (sha256 : Bool) :
    (∀ calls, ((new sha256).run calls).2 = (standardRun sha256 [] calls).2) ∧
      ∀ pieces : List Bytes, pieces.flatten.length < 2 ^ 61 →
        ((new sha256).run (updates pieces)).1.hex =
          hexText (standardDigest sha256 pieces.flatten) := by
  have hnew : new sha256 = ofBytes sha256 [] := Eq.refl _
  have hzero : ([] : Bytes).length < 2 ^ 61 := by decide
  refine ⟨fun calls => ?_, fun pieces hlen => ?_⟩
  · rw [hnew, run_ofBytes sha256 hzero]
  · rw [hnew, run_ofBytes sha256 hzero, standardRun_updates sha256 hlen]
    exact hex_ofBytes sha256 pieces.flatten

/-- `abc` in two pieces and an empty one. -/
theorem hash_is_standard_abc :
    ((new true).run (updates [ascii ['a'], [], ascii ['b', 'c']])).1.hex =
    hexText (standardDigest true (ascii ['a', 'b', 'c'])) :=
  (hash_is_standard true).2 [ascii ['a'], [], ascii ['b', 'c']] (by decide)

end ShaStream

end Hub

end Llmx
