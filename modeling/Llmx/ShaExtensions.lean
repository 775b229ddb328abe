import Llmx.ShaStandard
import Llmx.ShaVectors
import Mathlib.Logic.Function.Basic

namespace Llmx

namespace Hub

open Vectors
open Fips180 (Word)

def wordOrder : Vec := setEpi64x 0x0c0d0e0f08090a0b 0x0405060700010203

/-- The words of the last four groups, each at its group's place. -/
abbrev Ring := Fin 4 → Vec

structure Lanes where
  abef : Vec
  cdgh : Vec
  ring : Ring

/-- The words of group `g`, from the block or from the four groups before. -/
def groupWords (data : Bytes) (w : Ring) (g : Nat) : Vec :=
  if g < 4 then shuffleEpi8 (loadBytes data (16 * g)) wordOrder
  else
    let a := w (Fin.ofNat 4 g)
    let b := w (Fin.ofNat 4 (g + 1))
    let c := w (Fin.ofNat 4 (g + 2))
    let d := w (Fin.ofNat 4 (g + 3))
    sha256msg2Epu32 (addEpi32 (sha256msg1Epu32 a b) (alignrEpi8 d c 4)) d

def group (data : Bytes) (s : Lanes) (g : Nat) : Lanes :=
  let m := groupWords data s.ring g
  let x := addEpi32 m (loadWords k256 (4 * g))
  let cdgh := sha256rnds2Epu32 s.cdgh s.abef x
  ⟨sha256rnds2Epu32 s.abef cdgh (shuffleEpi32 x 0x0E), cdgh,
    Function.update s.ring (Fin.ofNat 4 g) m⟩

/-- A block, its ring holding `unset` before it is written. -/
def extensionsBlock (unset : Ring) (abef cdgh : Vec) (data : Bytes) : Vec × Vec :=
  let s := (List.range 16).foldl (group data) ⟨abef, cdgh, unset⟩
  (addEpi32 s.abef abef, addEpi32 s.cdgh cdgh)

def extensionsBlocks (unset : Nat → Ring) : Nat → Vec → Vec → Bytes → Vec × Vec
  | 0, abef, cdgh, _ => (abef, cdgh)
  | n + 1, abef, cdgh, data =>
    let p := extensionsBlock (unset n) abef cdgh data
    extensionsBlocks unset n p.1 p.2 (data.drop 64)

def sha256Extensions (unset : Nat → Ring) (state : Words) (data : Bytes) (n : Nat) : Words :=
  let dcba : Vec := ⟨state.a, state.b, state.c, state.d⟩
  let hgfe : Vec := ⟨state.e, state.f, state.g, state.h⟩
  let cdab := shuffleEpi32 dcba 0xB1
  let efgh := shuffleEpi32 hgfe 0x1B
  let p := extensionsBlocks unset n (alignrEpi8 cdab efgh 8) (blendEpi16 efgh cdab 0xF0) data
  let feba := shuffleEpi32 p.1 0x1B
  let dchg := shuffleEpi32 p.2 0xB1
  let low := blendEpi16 feba dchg 0xF0
  let high := alignrEpi8 dchg feba 8
  ⟨low.w0, low.w1, low.w2, low.w3, high.w0, high.w1, high.w2, high.w3⟩

/-- The portable code's blocks. -/
def sha256Portable (state : Words) (data : Bytes) (n : Nat) : Words := blocks true n state data

/-- A state's words in the order the round instruction takes them. -/
def Words.abef (s : Words) : Vec := ⟨s.f, s.e, s.b, s.a⟩

def Words.cdgh (s : Words) : Vec := ⟨s.h, s.g, s.d, s.c⟩

section Rounds

variable {w : List Word} {i : Nat}

/-- A round of the instruction is a round of the portable code. -/
theorem step_eq (s : Words) :
    step s.eight (w.getD i 0 + k256.getD i 0) = (round256 w s i).eight := by
  have hsum : ∀ c e k x h : Word, c + e + (x + k) + h = h + e + c + k + x := by
    intro c e k x h
    ac_rfl
  have ht : Fips180.ch s.e s.f s.g + Fips180.bigSigma1 s.e + (w.getD i 0 + k256.getD i 0) + s.h =
      s.h + Fips180.bigSigma1 s.e + Fips180.ch s.e s.f s.g + k256.getD i 0 + w.getD i 0 :=
    hsum _ _ _ _ _
  unfold step
  show (let t := Fips180.ch s.e s.f s.g + Fips180.bigSigma1 s.e + _ + s.h
    (⟨t + Fips180.maj s.a s.b s.c + Fips180.bigSigma0 s.a, s.a, s.b, s.c, t + s.d, s.e, s.f, s.g⟩ :
      Fips180.Eight)) = _
  rw [ht]
  dsimp only
  rw [UInt32.add_assoc, UInt32.add_comm (Fips180.maj s.a s.b s.c), UInt32.add_comm _ s.d]
  exact Eq.refl _

/-- Two rounds leave the first two words of each half as the other's last two. -/
theorem rounds_two (s : Words) (k : Vec) (h0 : k.w0 = w.getD i 0 + k256.getD i 0)
    (h1 : k.w1 = w.getD (i + 1) 0 + k256.getD (i + 1) 0) :
    sha256rnds2Epu32 s.cdgh s.abef k = (round256 w (round256 w s i) (i + 1)).abef ∧
      s.abef = (round256 w (round256 w s i) (i + 1)).cdgh := by
  have hstep : step (step s.eight k.w0) k.w1 = (round256 w (round256 w s i) (i + 1)).eight := by
    rw [h0, h1, step_eq, step_eq]
  refine ⟨?_, Eq.refl _⟩
  unfold sha256rnds2Epu32
  show (let t := step (step s.eight k.w0) k.w1; Vec.mk t.f t.e t.b t.a) = _
  rw [hstep]
  exact Eq.refl _

end Rounds

section Groups

variable {data : Bytes}

/-- The words of a group are four of a schedule's. -/
def fourWords (w : List Word) (g : Nat) : Vec := loadWords w (4 * g)

/-- The ring before group `g` holds the words of the four groups before it. -/
def RingHolds (w : List Word) (ring : Ring) (g : Nat) : Prop :=
  ∀ j, j < g → g ≤ j + 4 → ring (Fin.ofNat 4 j) = fourWords w j

theorem RingHolds.next {w : List Word} {ring : Ring} {g : Nat} (h : RingHolds w ring g) :
    RingHolds w (Function.update ring (Fin.ofNat 4 g) (fourWords w g)) (g + 1) := by
  intro j hj hnear
  rcases Nat.lt_or_ge j g with hlt | hge
  · have hne : Fin.ofNat 4 j ≠ Fin.ofNat 4 g := by
      intro heq
      have hval := congrArg Fin.val heq
      rw [Fin.val_ofNat, Fin.val_ofNat] at hval
      omega
    rw [Function.update_of_ne hne]
    exact h j hlt (by omega)
  · obtain rfl : j = g := by omega
    exact Function.update_self _ _ _

/-- A schedule's words go on from those before them. -/
theorem schedule_next (data : Bytes) {i : Nat} (hi : 16 ≤ i) (hlast : i < 64) :
    (extend256^[48] (blockWords data)).getD i 0 =
      (extend256^[48] (blockWords data)).getD (i - 16) 0 +
        Fips180.smallSigma0 ((extend256^[48] (blockWords data)).getD (i - 15) 0) +
        (extend256^[48] (blockWords data)).getD (i - 7) 0 +
        Fips180.smallSigma1 ((extend256^[48] (blockWords data)).getD (i - 2) 0) := by
  have hwords : ∀ k < 64, (extend256^[48] (blockWords data)).getD k 0 =
      Fips180.schedule256 (fun t => (blockWords data).getD t 0) k :=
    fun k hk => schedule256_words (fun _ _ => Eq.refl _) hk
  rw [hwords i hlast, hwords _ (by omega), hwords _ (by omega), hwords _ (by omega),
    hwords _ (by omega), sum_backwards, Fips180.schedule256_next hi]

theorem schedule_first {i : Nat} (hi : i < 16) :
    (extend256^[48] (blockWords data)).getD i 0 = blockWord data i := by
  have hwords : (extend256^[48] (blockWords data)).getD i 0 =
      Fips180.schedule256 (fun t => (blockWords data).getD t 0) i :=
    schedule256_words (fun _ _ => Eq.refl _) (by omega)
  rw [hwords, Fips180.schedule256_first hi]
  unfold blockWords
  rw [List.getD_eq_getElem?_getD, List.getElem?_map, List.getElem?_range hi]
  exact Eq.refl _

theorem ofNat_four (j : Nat) : Fin.ofNat 4 (j + 4) = Fin.ofNat 4 j := by
  apply Fin.ext
  rw [Fin.val_ofNat, Fin.val_ofNat, Nat.add_mod_right]

theorem groupWords_first {ring : Ring} {g : Nat} (hg : g < 4) :
    groupWords data ring g = fourWords (extend256^[48] (blockWords data)) g := by
  have hturned : ∀ i, turned data (4 * i) = blockWord data i := fun i => Eq.refl _
  have hlane : ∀ k < 4, turned data (16 * g + 4 * k) =
      (extend256^[48] (blockWords data)).getD (4 * g + k) 0 := by
    intro k hk
    rw [schedule_first (by omega), ← hturned]
    congr 1
    omega
  unfold groupWords wordOrder fourWords loadWords
  rw [if_pos hg, shuffle_turned]
  have h0 := hlane 0 (by omega)
  have h1 := hlane 1 (by omega)
  have h2 := hlane 2 (by omega)
  have h3 := hlane 3 (by omega)
  rw [← h1, ← h2, ← h3]
  exact congrArg (fun x => Vec.mk x _ _ _) h0

theorem groupWords_next {ring : Ring} {j : Nat} (hj : j + 4 < 16)
    (h : RingHolds (extend256^[48] (blockWords data)) ring (j + 4)) :
    groupWords data ring (j + 4) = fourWords (extend256^[48] (blockWords data)) (j + 4) := by
  have hnext : ∀ k, 16 ≤ 4 * j + (k + 16) → 4 * j + (k + 16) < 64 → _ :=
    fun k => schedule_next data
  generalize extend256^[48] (blockWords data) = w at h hnext ⊢
  obtain ⟨v, hv⟩ : ∃ v : Nat → Word, ∀ k, v k = w.getD (4 * j + k) 0 := ⟨_, fun _ => Eq.refl _⟩
  have hfour : ∀ m, fourWords w (j + m) =
      ⟨v (4 * m), v (4 * m + 1), v (4 * m + 2), v (4 * m + 3)⟩ := by
    intro m
    rw [hv, hv, hv, hv, ← Nat.add_assoc, ← Nat.add_assoc, ← Nat.add_assoc, ← Nat.mul_add]
    exact Eq.refl _
  have hword : ∀ k < 4, v (k + 16) = v k + Fips180.smallSigma0 (v (k + 1)) + v (k + 9) +
      Fips180.smallSigma1 (v (k + 14)) := by
    intro k hk
    have hsum := hnext k (by omega) (by omega)
    have h16 : 4 * j + (k + 16) - 16 = 4 * j + k := by omega
    have h15 : 4 * j + (k + 16) - 15 = 4 * j + (k + 1) := by omega
    have h7 : 4 * j + (k + 16) - 7 = 4 * j + (k + 9) := by omega
    have h2 : 4 * j + (k + 16) - 2 = 4 * j + (k + 14) := by omega
    rw [h16, h15, h7, h2] at hsum
    rw [hv, hv, hv, hv, hv]
    exact hsum
  have hplace : ∀ m < 4, ring (Fin.ofNat 4 (j + m)) = fourWords w (j + m) :=
    fun m hm => h (j + m) (by omega) (by omega)
  have hback : ∀ m, Fin.ofNat 4 (j + 4 + m) = Fin.ofNat 4 (j + m) := by
    intro m
    rw [Nat.add_right_comm, ofNat_four]
  have ha := hplace 0 (by omega)
  have h0 := hback 0
  have h17 := hword 1 (by omega)
  unfold groupWords
  rw [if_neg (by omega), hback 1, hback 2, hback 3, hplace 1 (by omega), hplace 2 (by omega),
    hplace 3 (by omega), show Fin.ofNat 4 (j + 4) = Fin.ofNat 4 (j + 0) from h0, ha,
    hfour 0, hfour 1, hfour 2, hfour 3, hfour 4]
  dsimp only
  rw [alignr_four]
  have h16 := hword 0 (by omega)
  have h18 := hword 2 (by omega)
  have h19 := hword 3 (by omega)
  show sha256msg2Epu32 (addEpi32 (sha256msg1Epu32 ⟨v 0, v 1, v 2, v 3⟩ ⟨v 4, v 5, v 6, v 7⟩)
    ⟨v 9, v 10, v 11, v 12⟩) ⟨v 12, v 13, v 14, v 15⟩ = ⟨v 16, v 17, v 18, v 19⟩
  rw [h19, h18, h17, h16]
  exact Eq.refl _

theorem groupWords_eq {ring : Ring} {g : Nat} (hg : g < 16)
    (h : RingHolds (extend256^[48] (blockWords data)) ring g) :
    groupWords data ring g = fourWords (extend256^[48] (blockWords data)) g := by
  rcases Nat.lt_or_ge g 4 with hlt | hge
  · exact groupWords_first hlt
  · obtain ⟨j, rfl⟩ := Nat.exists_eq_add_of_le' hge
    exact groupWords_next hg h

/-- A group's four rounds. -/
theorem group_rounds {w : List Word} {ring : Ring} {g : Nat} (s : Words)
    (hm : groupWords data ring g = fourWords w g) :
    group data ⟨s.abef, s.cdgh, ring⟩ g =
      ⟨([4 * g, 4 * g + 1, 4 * g + 2, 4 * g + 3].foldl (round256 w) s).abef,
        ([4 * g, 4 * g + 1, 4 * g + 2, 4 * g + 3].foldl (round256 w) s).cdgh,
        Function.update ring (Fin.ofNat 4 g) (fourWords w g)⟩ := by
  obtain ⟨x, hx⟩ : ∃ x, x = addEpi32 (fourWords w g) (loadWords k256 (4 * g)) := ⟨_, Eq.refl _⟩
  obtain ⟨habef, hcdgh⟩ := rounds_two (w := w) (i := 4 * g) s x (by rw [hx]; exact Eq.refl _)
    (by rw [hx]; exact Eq.refl _)
  obtain ⟨habef', hcdgh'⟩ := rounds_two (w := w) (i := 4 * g + 2)
    (round256 w (round256 w s (4 * g)) (4 * g + 1)) (shuffleEpi32 x 0x0E)
    (by rw [hx]; exact Eq.refl _) (by rw [hx]; exact Eq.refl _)
  unfold group
  dsimp only
  rw [hm, ← hx, habef, hcdgh, habef', hcdgh']
  exact Eq.refl _

theorem range_four (n : Nat) : List.range (4 * (n + 1)) =
    List.range (4 * n) ++ [4 * n, 4 * n + 1, 4 * n + 2, 4 * n + 3] := by
  show List.range (4 * n + 1 + 1 + 1 + 1) = _
  rw [List.range_succ, List.range_succ, List.range_succ, List.range_succ, List.append_assoc,
    List.append_assoc, List.append_assoc]
  exact Eq.refl _

/-- After `n` groups the registers hold the state after four rounds of each. -/
theorem groups_rounds (data : Bytes) (unset : Ring) (s : Words) {n : Nat} (hn : n ≤ 16) :
    ∃ ring, RingHolds (extend256^[48] (blockWords data)) ring n ∧
      (List.range n).foldl (group data) ⟨s.abef, s.cdgh, unset⟩ =
        ⟨((List.range (4 * n)).foldl (round256 (extend256^[48] (blockWords data))) s).abef,
          ((List.range (4 * n)).foldl (round256 (extend256^[48] (blockWords data))) s).cdgh,
          ring⟩ := by
  induction n with
  | zero => exact ⟨unset, fun j hj => absurd hj (Nat.not_lt_zero j), Eq.refl _⟩
  | succ n ih =>
    obtain ⟨ring, hring, hrun⟩ := ih (by omega)
    refine ⟨_, hring.next, ?_⟩
    rw [List.range_succ, List.foldl_append, List.foldl_cons, List.foldl_nil, hrun,
      group_rounds _ (groupWords_eq (by omega) hring), range_four, List.foldl_append]

end Groups

section Blocks

theorem add_abef (s t : Words) : addEpi32 t.abef s.abef = (s.add t).abef := by
  unfold addEpi32 Words.abef Words.add
  dsimp only
  rw [UInt32.add_comm t.f, UInt32.add_comm t.e, UInt32.add_comm t.b, UInt32.add_comm t.a]

theorem add_cdgh (s t : Words) : addEpi32 t.cdgh s.cdgh = (s.add t).cdgh := by
  unfold addEpi32 Words.cdgh Words.add
  dsimp only
  rw [UInt32.add_comm t.h, UInt32.add_comm t.g, UInt32.add_comm t.d, UInt32.add_comm t.c]

theorem extensionsBlock_eq (unset : Ring) (s : Words) (data : Bytes) :
    extensionsBlock unset s.abef s.cdgh data = ((block256 s data).abef, (block256 s data).cdgh) := by
  obtain ⟨ring, -, hrun⟩ := groups_rounds data unset s (Nat.le_refl 16)
  unfold extensionsBlock block256
  dsimp only
  rw [hrun, add_abef, add_cdgh]

theorem extensionsBlocks_eq (unset : Nat → Ring) (n : Nat) (s : Words) (data : Bytes) :
    extensionsBlocks unset n s.abef s.cdgh data =
      ((blocks true n s data).abef, (blocks true n s data).cdgh) := by
  induction n generalizing s data with
  | zero => exact Eq.refl _
  | succ n ih =>
    rw [extensionsBlocks, extensionsBlock_eq]
    exact ih (block256 s data) (data.drop 64)

/-- The SHA instructions leave the state the portable code leaves. -/
theorem extensions_eq_portable (unset : Nat → Ring) (state : Words) (data : Bytes) (n : Nat) :
    sha256Extensions unset state data n = sha256Portable state data n := by
  have habef : alignrEpi8 (shuffleEpi32 ⟨state.a, state.b, state.c, state.d⟩ 0xB1)
      (shuffleEpi32 ⟨state.e, state.f, state.g, state.h⟩ 0x1B) 8 = state.abef := alignr_eight _ _
  have hcdgh : blendEpi16 (shuffleEpi32 ⟨state.e, state.f, state.g, state.h⟩ 0x1B)
      (shuffleEpi32 ⟨state.a, state.b, state.c, state.d⟩ 0xB1) 0xF0 = state.cdgh := blend_high _ _
  unfold sha256Extensions sha256Portable
  dsimp only
  rw [habef, hcdgh, extensionsBlocks_eq, blend_high, alignr_eight]
  exact Eq.refl _

end Blocks

end Hub

end Llmx
