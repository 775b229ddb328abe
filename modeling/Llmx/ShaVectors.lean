import Llmx.BitLists
import Llmx.Fips180

/-!
The vector instructions of x86 that SHA-256 is written with: shuffles, alignment, blends and sums of
128-bit registers, and two rounds and the schedule of the hash.
-/

namespace Vectors

open Llmx
open Fips180 (Word)

/-- A register by its 32-bit words, the lowest first. -/
structure Vec where
  w0 : Word
  w1 : Word
  w2 : Word
  w3 : Word
deriving DecidableEq, Repr

/-- A word of the first four bytes, the lowest first. -/
def word (b : List UInt8) : Word :=
  ((b.getD 3 0).toUInt32 <<< 24) ||| ((b.getD 2 0).toUInt32 <<< 16) |||
    ((b.getD 1 0).toUInt32 <<< 8) ||| (b.getD 0 0).toUInt32

def wordBytes (x : Word) : List UInt8 :=
  [x.toUInt8, (x >>> 8).toUInt8, (x >>> 16).toUInt8, (x >>> 24).toUInt8]

namespace Vec

def bytes (v : Vec) : List UInt8 :=
  wordBytes v.w0 ++ (wordBytes v.w1 ++ (wordBytes v.w2 ++ wordBytes v.w3))

/-- The register whose bytes a list begins with. -/
def ofBytes (b : List UInt8) : Vec := ⟨word b, word (b.drop 4), word (b.drop 8), word (b.drop 12)⟩

def lane (v : Vec) (k : Nat) : Word := [v.w0, v.w1, v.w2, v.w3].getD k 0

end Vec

def setEpi64x (high low : UInt64) : Vec :=
  ⟨low.toUInt32, (low >>> 32).toUInt32, high.toUInt32, (high >>> 32).toUInt32⟩

def loadBytes (data : List UInt8) (i : Nat) : Vec := Vec.ofBytes (data.drop i)

def loadWords (words : List Word) (i : Nat) : Vec :=
  ⟨words.getD i 0, words.getD (i + 1) 0, words.getD (i + 2) 0, words.getD (i + 3) 0⟩

/-- Each word the one that two bits of `imm` name. -/
def shuffleEpi32 (v : Vec) (imm : Nat) : Vec :=
  ⟨v.lane (imm % 4), v.lane (imm / 4 % 4), v.lane (imm / 16 % 4), v.lane (imm / 64 % 4)⟩

/-- Each byte the one that a byte of `order` names by its low bits, zero where its top bit is set. -/
def shuffleEpi8 (v order : Vec) : Vec :=
  Vec.ofBytes (order.bytes.map fun k => if 128 ≤ k then 0 else v.bytes.getD (k.toNat % 16) 0)

/-- The bytes from `n` on of `b` and then `a`. -/
def alignrEpi8 (a b : Vec) (n : Nat) : Vec := Vec.ofBytes ((b.bytes ++ a.bytes).drop n)

/-- Each pair of bytes from `b` where its bit of `imm` is set, else from `a`. -/
def blendEpi16 (a b : Vec) (imm : Nat) : Vec :=
  Vec.ofBytes ((List.range 16).map fun k =>
    if imm.testBit (k / 2) then b.bytes.getD k 0 else a.bytes.getD k 0)

def addEpi32 (a b : Vec) : Vec := ⟨a.w0 + b.w0, a.w1 + b.w1, a.w2 + b.w2, a.w3 + b.w3⟩

def sha256msg1Epu32 (a b : Vec) : Vec :=
  ⟨a.w0 + Fips180.smallSigma0 a.w1, a.w1 + Fips180.smallSigma0 a.w2,
    a.w2 + Fips180.smallSigma0 a.w3, a.w3 + Fips180.smallSigma0 b.w0⟩

/-- The last two of the four words need the first two. -/
def sha256msg2Epu32 (a b : Vec) : Vec :=
  let x0 := a.w0 + Fips180.smallSigma1 b.w2
  let x1 := a.w1 + Fips180.smallSigma1 b.w3
  ⟨x0, x1, a.w2 + Fips180.smallSigma1 x0, a.w3 + Fips180.smallSigma1 x1⟩

/-- A round, `wk` the sum of its word and constant. -/
def step (s : Fips180.Eight) (wk : Word) : Fips180.Eight :=
  let t := Fips180.ch s.e s.f s.g + Fips180.bigSigma1 s.e + wk + s.h
  ⟨t + Fips180.maj s.a s.b s.c + Fips180.bigSigma0 s.a, s.a, s.b, s.c, t + s.d, s.e, s.f, s.g⟩

/-- Two rounds, `a` holding C, D, G and H from the top and `b` A, B, E and F. -/
def sha256rnds2Epu32 (a b k : Vec) : Vec :=
  let s := step (step ⟨b.w3, b.w2, a.w3, a.w2, b.w1, b.w0, a.w1, a.w0⟩ k.w0) k.w1
  ⟨s.f, s.e, s.b, s.a⟩

section Bytes

theorem toNat_wordBytes (x : Word) : (wordBytes x).map UInt8.toNat =
    [x.toNat % 2 ^ 8, x.toNat / 2 ^ 8 % 2 ^ 8, x.toNat / 2 ^ 16 % 2 ^ 8,
      x.toNat / 2 ^ 24 % 2 ^ 8] := by
  simp [wordBytes, Nat.shiftRight_eq_div_pow]

theorem word_wordBytes (x : Word) (rest : List UInt8) : word (wordBytes x ++ rest) = x := by
  have hx := x.toNat_lt
  have hbytes := toNat_wordBytes x
  obtain ⟨h0, hbytes⟩ := List.cons.inj hbytes
  obtain ⟨h1, hbytes⟩ := List.cons.inj hbytes
  obtain ⟨h2, hbytes⟩ := List.cons.inj hbytes
  obtain ⟨h3, -⟩ := List.cons.inj hbytes
  apply UInt32.toNat_inj.mp
  refine (BitLists.toNat_bytes (x >>> 24).toUInt8 (x >>> 16).toUInt8 (x >>> 8).toUInt8
    x.toUInt8).trans ?_
  rw [h0, h1, h2, h3]
  omega

theorem wordBytes_word (b : List UInt8) :
    wordBytes (word b) = [b.getD 0 0, b.getD 1 0, b.getD 2 0, b.getD 3 0] := by
  have h := BitLists.toNat_bytes (b.getD 3 0) (b.getD 2 0) (b.getD 1 0) (b.getD 0 0)
  have h0 := (b.getD 0 0).toNat_lt
  have h1 := (b.getD 1 0).toNat_lt
  have h2 := (b.getD 2 0).toNat_lt
  have h3 := (b.getD 3 0).toNat_lt
  apply (List.map_inj_right fun _ _ => UInt8.toNat_inj.mp).mp
  rw [toNat_wordBytes, word, h]
  simp only [List.map_cons, List.map_nil]
  refine List.cons_eq_cons.mpr ⟨by omega, List.cons_eq_cons.mpr ⟨by omega,
    List.cons_eq_cons.mpr ⟨by omega, List.cons_eq_cons.mpr ⟨by omega, Eq.refl _⟩⟩⟩⟩

theorem ofBytes_words (x y z u : Word) (rest : List UInt8) :
    Vec.ofBytes (wordBytes x ++ (wordBytes y ++ (wordBytes z ++ (wordBytes u ++ rest)))) =
      ⟨x, y, z, u⟩ := by
  show Vec.mk (word (wordBytes x ++ _)) (word (wordBytes y ++ _)) (word (wordBytes z ++ _))
    (word (wordBytes u ++ _)) = _
  rw [word_wordBytes, word_wordBytes, word_wordBytes, word_wordBytes]

end Bytes

section Words

variable (a b : Vec)

theorem alignr_four : alignrEpi8 a b 4 = ⟨b.w1, b.w2, b.w3, a.w0⟩ := ofBytes_words _ _ _ _ _

theorem alignr_eight : alignrEpi8 a b 8 = ⟨b.w2, b.w3, a.w0, a.w1⟩ := ofBytes_words _ _ _ _ _

theorem blend_high : blendEpi16 a b 0xF0 = ⟨a.w0, a.w1, b.w2, b.w3⟩ := ofBytes_words _ _ _ _ []

/-- A word of four bytes, the highest first. -/
def turned (data : List UInt8) (i : Nat) : Word :=
  word [data.getD (i + 3) 0, data.getD (i + 2) 0, data.getD (i + 1) 0, data.getD i 0]

theorem bytes_loadBytes (data : List UInt8) (i : Nat) :
    (loadBytes data i).bytes = (List.range 16).map fun k => data.getD (i + k) 0 := by
  have hdrop : ∀ n k, ((data.drop i).drop n).getD k 0 = data.getD (i + (n + k)) 0 := by
    intro n k
    rw [List.getD_eq_getElem?_getD, List.getElem?_drop, List.getElem?_drop,
      List.getD_eq_getElem?_getD]
  have hfirst : ∀ k, (data.drop i).getD k 0 = data.getD (i + k) 0 := fun k => by
    rw [List.getD_eq_getElem?_getD, List.getElem?_drop, List.getD_eq_getElem?_getD]
  unfold loadBytes Vec.ofBytes Vec.bytes
  dsimp only
  rw [wordBytes_word, wordBytes_word, wordBytes_word, wordBytes_word]
  simp only [hdrop, hfirst]
  exact Eq.refl _

theorem turnedOrder_bytes : (setEpi64x 0x0c0d0e0f08090a0b 0x0405060700010203).bytes =
    [3, 2, 1, 0, 7, 6, 5, 4, 11, 10, 9, 8, 15, 14, 13, 12] := by decide

/-- The shuffle that turns the bytes of each word round. -/
theorem shuffle_turned (data : List UInt8) (i : Nat) :
    shuffleEpi8 (loadBytes data i) (setEpi64x 0x0c0d0e0f08090a0b 0x0405060700010203) =
      ⟨turned data i, turned data (i + 4), turned data (i + 8), turned data (i + 12)⟩ := by
  unfold shuffleEpi8
  rw [turnedOrder_bytes, bytes_loadBytes]
  exact Eq.refl _

end Words

end Vectors
