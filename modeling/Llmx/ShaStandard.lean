import Llmx.ShaStream
import Llmx.Fips180
import Llmx.BitLists

namespace Llmx

namespace Hub

open Fips180 (Word)

/-- The words of a state as the standard's. -/
def Words.eight (s : Words) : Fips180.Eight := ⟨s.a, s.b, s.c, s.d, s.e, s.f, s.g, s.h⟩

def Words.five (s : Words) : Fips180.Five := ⟨s.a, s.b, s.c, s.d, s.e⟩

/-- The constants are the roots' bits. -/
theorem k256_eq : k256 = (List.range 64).map Fips180.k256 := by decide +kernel

theorem firstWords_eq : (firstWords true).eight = Fips180.sha256.start := by decide +kernel

theorem k256_getD {t : Nat} (h : t < 64) : k256.getD t 0 = Fips180.k256 t := by
  rw [k256_eq, List.getD_eq_getElem?_getD, List.getElem?_map, List.getElem?_range h]
  exact Eq.refl _

section Bits

theorem or_eq_ch (x y z : Word) : (x &&& y) ||| (~~~x &&& z) = Fips180.ch x y z := by
  unfold Fips180.ch
  apply UInt32.toBitVec_inj.mp
  ext i
  simp only [UInt32.toBitVec_or, UInt32.toBitVec_and, UInt32.toBitVec_xor, UInt32.toBitVec_not,
    BitVec.getElem_or, BitVec.getElem_and, BitVec.getElem_xor, BitVec.getElem_not]
  cases x.toBitVec[i] <;> simp

theorem or_eq_maj (x y z : Word) : (x &&& y) ||| (x &&& z) ||| (y &&& z) = Fips180.maj x y z := by
  unfold Fips180.maj
  apply UInt32.toBitVec_inj.mp
  ext i
  simp only [UInt32.toBitVec_or, UInt32.toBitVec_and, UInt32.toBitVec_xor,
    BitVec.getElem_or, BitVec.getElem_and, BitVec.getElem_xor]
  cases x.toBitVec[i] <;> cases y.toBitVec[i] <;> simp

theorem rotate_rotl (x : Word) : rotate x 31 = Fips180.rotl 1 x ∧ rotate x 27 = Fips180.rotl 5 x ∧
    rotate x 2 = Fips180.rotl 30 x :=
  ⟨UInt32.or_comm _ _, UInt32.or_comm _ _, UInt32.or_comm _ _⟩

end Bits

section Schedules

variable (data : Bytes)

theorem blockWords_length : (blockWords data).length = 16 := by
  unfold blockWords
  rw [List.length_map, List.length_range]

variable {data}

theorem take_four (h : 4 ≤ data.length) : data.take 4 =
    [data.getD 0 0, data.getD 1 0, data.getD 2 0, data.getD 3 0] := by
  match data, h with
  | _ :: _ :: _ :: _ :: _, _ => exact Eq.refl _

theorem four_bytes {t : Nat} (h : 4 * t + 4 ≤ data.length) : (data.drop (4 * t)).take 4 =
    [data.getD (4 * t) 0, data.getD (4 * t + 1) 0, data.getD (4 * t + 2) 0,
      data.getD (4 * t + 3) 0] := by
  have hget : ∀ i, (data.drop (4 * t)).getD i 0 = data.getD (4 * t + i) 0 := by
    intro i
    rw [List.getD_eq_getElem?_getD, List.getD_eq_getElem?_getD, List.getElem?_drop]
  have hlen : 4 ≤ (data.drop (4 * t)).length := by
    rw [List.length_drop]
    omega
  rw [take_four hlen, hget, hget, hget, hget]
  exact Eq.refl _

theorem blockWord_eq (hlen : 64 ≤ data.length) {t : Nat} (ht : t < 16) :
    blockWord data t = Fips180.wordOf (data.take 64) t := by
  have htake : ∀ i < 64, data.getD i 0 = (data.take 64).getD i 0 := by
    intro i hi
    rw [List.getD_eq_getElem?_getD, List.getD_eq_getElem?_getD, List.getElem?_take_of_lt hi]
  have hbytes : 4 * t + 4 ≤ (data.take 64).length := by
    rw [List.length_take]
    omega
  unfold blockWord Fips180.wordOf
  rw [four_bytes hbytes, htake _ (by omega), htake _ (by omega), htake _ (by omega),
    htake _ (by omega)]
  generalize (data.take 64).getD (4 * t) 0 = a
  generalize (data.take 64).getD (4 * t + 1) 0 = b
  generalize (data.take 64).getD (4 * t + 2) 0 = c
  generalize (data.take 64).getD (4 * t + 3) 0 = d
  have ha := a.toNat_lt
  have hb := b.toNat_lt
  have hc := c.toNat_lt
  have hd := d.toNat_lt
  apply UInt32.toNat_inj.mp
  refine (BitLists.toNat_bytes a b c d).trans ?_
  rw [UInt32.toNat_ofNat']
  simp only [List.foldl_cons, List.foldl_nil]
  omega

/-- Words put after others in the order of a schedule are the schedule's. -/
theorem extended {f : List Word → List Word} {schedule : Nat → Word} {w : List Word}
    (hf : ∀ w, 16 ≤ w.length → (∀ i < w.length, w.getD i 0 = schedule i) →
      f w = w ++ [schedule w.length])
    (hlen : w.length = 16) (hw : ∀ i < 16, w.getD i 0 = schedule i) (n : Nat) :
    (f^[n] w).length = 16 + n ∧ ∀ i < 16 + n, (f^[n] w).getD i 0 = schedule i := by
  induction n with
  | zero => exact ⟨hlen, hw⟩
  | succ n ih =>
    obtain ⟨hmore, hget⟩ := ih
    rw [Function.iterate_succ_apply']
    generalize f^[n] w = v at hmore hget
    rw [hf v (by omega) (by rw [hmore]; exact hget)]
    refine ⟨?_, fun i hi => ?_⟩
    · rw [List.length_append, hmore, List.length_singleton]
      omega
    · rcases Nat.lt_or_ge i v.length with hlt | hge
      · rw [List.getD_eq_getElem?_getD, List.getElem?_append_left hlt,
          ← List.getD_eq_getElem?_getD]
        exact hget i (by omega)
      · have heq : i = v.length := by omega
        rw [heq, List.getD_eq_getElem?_getD, List.getElem?_concat_length]
        exact Eq.refl _

theorem blockWords_getD (hlen : 64 ≤ data.length) {i : Nat} (hi : i < 16) :
    (blockWords data).getD i 0 = Fips180.wordOf (data.take 64) i := by
  unfold blockWords
  rw [List.getD_eq_getElem?_getD, List.getElem?_map, List.getElem?_range hi]
  exact blockWord_eq hlen hi

theorem sum_backwards (a b c d : Word) : a + b + c + d = d + c + b + a := by ac_rfl

theorem sigmas_eq (x : Word) :
    rotate x 7 ^^^ rotate x 18 ^^^ (x >>> 3) = Fips180.smallSigma0 x ∧
      rotate x 17 ^^^ rotate x 19 ^^^ (x >>> 10) = Fips180.smallSigma1 x :=
  ⟨Eq.refl _, Eq.refl _⟩

/-- A block's schedule is the standard's for any reading of its first words. -/
theorem schedule256_words {m : Nat → Word} (hm : ∀ i < 16, (blockWords data).getD i 0 = m i)
    {i : Nat} (hi : i < 64) :
    (extend256^[48] (blockWords data)).getD i 0 = Fips180.schedule256 m i := by
  refine (extended (fun w h16 hw => ?_) (blockWords_length data) (fun i hi => ?_) 48).2 i hi
  · unfold extend256
    dsimp only
    rw [hw _ (by omega), hw _ (by omega), hw _ (by omega), hw _ (by omega),
      (sigmas_eq _).1, (sigmas_eq _).2, sum_backwards, ← Fips180.schedule256_next h16]
  · rw [hm i hi, Fips180.schedule256_first hi]

theorem schedule256_getD (hlen : 64 ≤ data.length) {i : Nat} (hi : i < 64) :
    (extend256^[48] (blockWords data)).getD i 0 =
      Fips180.schedule256 (Fips180.wordOf (data.take 64)) i :=
  schedule256_words (fun _ h => blockWords_getD hlen h) hi

theorem schedule1_getD (hlen : 64 ≤ data.length) {i : Nat} (hi : i < 80) :
    (extend1^[64] (blockWords data)).getD i 0 =
      Fips180.schedule1 (Fips180.wordOf (data.take 64)) i := by
  refine (extended (fun w h16 hw => ?_) (blockWords_length data) (fun i hi => ?_) 64).2 i hi
  · unfold extend1
    dsimp only
    rw [hw _ (by omega), hw _ (by omega), hw _ (by omega), hw _ (by omega),
      Fips180.schedule1_next h16, (rotate_rotl _).1]
  · rw [blockWords_getD hlen hi, Fips180.schedule1_first hi]

end Schedules

section Blocks

variable {data : Bytes}

/-- The rounds of a block, one by one. -/
theorem rounds_eq {σ : Type} {f : Words → Nat → Words} {g : σ → Nat → σ} (view : Words → σ)
    (n : Nat) (hstep : ∀ s, ∀ i < n, view (f s i) = g (view s) i) (s : Words) :
    view ((List.range n).foldl f s) = (List.range n).foldl g (view s) := by
  induction n with
  | zero => exact Eq.refl _
  | succ n ih =>
    rw [List.range_succ, List.foldl_append, List.foldl_append, List.foldl_cons, List.foldl_nil,
      List.foldl_cons, List.foldl_nil, hstep _ n (Nat.lt_succ_self n),
      ih fun s i hi => hstep s i (Nat.lt_succ_of_lt hi)]

theorem block256_eq (hlen : 64 ≤ data.length) (s : Words) : (block256 s data).eight =
    Fips180.sha256.compress (Fips180.wordOf (data.take 64)) s.eight := by
  have hrounds := rounds_eq (f := round256 (extend256^[48] (blockWords data)))
    (g := Fips180.round256 (Fips180.schedule256 (Fips180.wordOf (data.take 64)))) Words.eight 64
    (fun s i hi => ?_) s
  · show Words.eight (s.add _) = _
    unfold Fips180.sha256
    dsimp only
    rw [← hrounds]
    exact Eq.refl _
  · unfold round256 Fips180.round256
    dsimp only
    rw [k256_getD hi, schedule256_getD hlen hi]
    exact Eq.refl _

theorem f1_eq (i : Nat) (b c d : Word) :
    (if i < 20 then (b &&& c) ||| (~~~b &&& d)
      else if i < 40 ∨ 60 ≤ i then b ^^^ c ^^^ d
      else (b &&& c) ||| (b &&& d) ||| (c &&& d)) = Fips180.f1 i b c d := by
  unfold Fips180.f1
  rw [or_eq_ch, or_eq_maj]
  split
  next => exact Eq.refl _
  split
  next h =>
    split
    next => exact Eq.refl _
    next h40 =>
      rw [if_neg (by omega)]
      exact Eq.refl _
  next h =>
    rw [if_neg (by omega), if_pos (by omega)]

theorem block1_eq (hlen : 64 ≤ data.length) (s : Words) : (block1 s data).five =
    Fips180.sha1.compress (Fips180.wordOf (data.take 64)) s.five := by
  have hrounds := rounds_eq (f := round1 (extend1^[64] (blockWords data)))
    (g := Fips180.round1 (Fips180.schedule1 (Fips180.wordOf (data.take 64)))) Words.five 80
    (fun s i hi => ?_) s
  · show Words.five (s.add _) = _
    unfold Fips180.sha1
    dsimp only
    rw [← hrounds]
    exact Eq.refl _
  · unfold round1 Fips180.round1
    dsimp only
    rw [f1_eq, schedule1_getD hlen hi]
    unfold Words.five
    dsimp only
    rw [(rotate_rotl _).2.1, (rotate_rotl _).2.2]
    exact Eq.refl _

/-- Whole blocks one after another. -/
theorem blocks_over {σ : Type} {h : Fips180.Hash σ} {sha256 : Bool} (view : Words → σ)
    (hblock : ∀ s data, 64 ≤ data.length →
      view (if sha256 then block256 s data else block1 s data) =
        h.compress (Fips180.wordOf (data.take 64)) (view s))
    (n : Nat) (s : Words) {data : Bytes} (hlen : n * 64 ≤ data.length) :
    view (blocks sha256 n s data) = h.over n data (view s) := by
  induction n generalizing s data with
  | zero => exact Eq.refl _
  | succ n ih =>
    have hrest : n * 64 ≤ (data.drop 64).length := by
      rw [List.length_drop]
      omega
    rw [blocks, ih _ hrest, hblock _ _ (by omega)]
    exact Eq.refl _

end Blocks

end Hub

end Llmx
