import Mathlib.Algebra.Order.Ring.Int

/-!
SHA-1 and SHA-256 of whole bytes, as the Secure Hash Standard gives them: its functions, constants,
padding and message schedules, a hash as a fold of its compression over the padded blocks.
-/

namespace Fips180

abbrev Word := UInt32

def rotr (n : Word) (x : Word) : Word := (x >>> n) ||| (x <<< (32 - n))

def rotl (n : Word) (x : Word) : Word := (x <<< n) ||| (x >>> (32 - n))

def ch (x y z : Word) : Word := (x &&& y) ^^^ (~~~x &&& z)

def maj (x y z : Word) : Word := (x &&& y) ^^^ (x &&& z) ^^^ (y &&& z)

def parity (x y z : Word) : Word := x ^^^ y ^^^ z

def bigSigma0 (x : Word) : Word := rotr 2 x ^^^ rotr 13 x ^^^ rotr 22 x

def bigSigma1 (x : Word) : Word := rotr 6 x ^^^ rotr 11 x ^^^ rotr 25 x

def smallSigma0 (x : Word) : Word := rotr 7 x ^^^ rotr 18 x ^^^ (x >>> 3)

def smallSigma1 (x : Word) : Word := rotr 17 x ^^^ rotr 19 x ^^^ (x >>> 10)

section Roots

/-- The largest number from `r` on, with `bits` bits more, whose `k`th power is at most `n`. -/
def rootFrom (k n : Nat) : Nat → Nat → Nat
  | 0, r => r
  | bits + 1, r => rootFrom k n bits (if (r + 2 ^ bits) ^ k ≤ n then r + 2 ^ bits else r)

theorem rootFrom_spec {k n : Nat} (bits r : Nat) (hlow : r ^ k ≤ n) (hhigh : n < (r + 2 ^ bits) ^ k) :
    rootFrom k n bits r ^ k ≤ n ∧ n < (rootFrom k n bits r + 1) ^ k := by
  induction bits generalizing r with
  | zero => exact ⟨hlow, hhigh⟩
  | succ bits ih =>
    have hdouble : r + 2 ^ bits + 2 ^ bits = r + 2 ^ (bits + 1) := by
      rw [Nat.pow_succ]
      omega
    rw [rootFrom]
    split
    next hle => exact ih _ hle (by rw [hdouble]; exact hhigh)
    next hgt => exact ih _ hlow (Nat.lt_of_not_le hgt)

/-- The first 32 bits of the fractional part of the `k`th root of `p`. -/
def rootBits (k p : Nat) : Word := UInt32.ofNat (rootFrom k (p * 2 ^ (32 * k)) 37 0)

def isPrime (p : Nat) : Bool := 2 ≤ p && (List.range p).all fun d => d < 2 || p % d != 0

/-- The first 64 primes. -/
def primes : List Nat := (List.range 312).filter isPrime

theorem primes_small : primes.length = 64 ∧ ∀ p ∈ primes, p < 312 := by decide +kernel

/-- A root's bits are those of its whole part and 32 past the point, the whole part dropped. -/
theorem rootBits_spec {k p : Nat} (hk : 2 ≤ k) (hp : p ∈ primes) :
    ∃ r, r ^ k ≤ p * 2 ^ (32 * k) ∧ p * 2 ^ (32 * k) < (r + 1) ^ k ∧
      rootBits k p = UInt32.ofNat r := by
  have hsmall := primes_small.2 p hp
  have hpow : 2 ^ 10 ≤ 2 ^ (5 * k) := Nat.pow_le_pow_right (by decide) (by omega)
  have hsplit : (0 + 2 ^ 37) ^ k = 2 ^ (5 * k) * 2 ^ (32 * k) := by
    rw [Nat.zero_add, ← Nat.pow_mul, ← Nat.pow_add]
    congr 1
    omega
  have hlow : (0 : Nat) ^ k ≤ p * 2 ^ (32 * k) := by
    rw [Nat.zero_pow (by omega)]
    exact Nat.zero_le _
  have hhigh : p * 2 ^ (32 * k) < (0 + 2 ^ 37) ^ k := by
    rw [hsplit]
    exact Nat.mul_lt_mul_of_pos_right (by omega) (Nat.two_pow_pos _)
  obtain ⟨hle, hlt⟩ := rootFrom_spec 37 0 hlow hhigh
  exact ⟨_, hle, hlt, Eq.refl _⟩

end Roots

/-- The constants of SHA-256, from the cube roots of the first 64 primes. -/
def k256 (t : Nat) : Word := rootBits 3 (primes.getD t 0)

/-- The constants of SHA-1. -/
def k1 (t : Nat) : Word :=
  if t < 20 then 0x5a827999 else if t < 40 then 0x6ed9eba1
  else if t < 60 then 0x8f1bbcdc else 0xca62c1d6

/-- The logical functions of SHA-1. -/
def f1 (t : Nat) : Word → Word → Word → Word :=
  if t < 20 then ch else if t < 40 then parity else if t < 60 then maj else parity

def schedule256 (m : Nat → Word) (t : Nat) : Word :=
  if _h : t < 16 then m t
  else
    smallSigma1 (schedule256 m (t - 2)) + schedule256 m (t - 7) +
      smallSigma0 (schedule256 m (t - 15)) + schedule256 m (t - 16)
termination_by t
decreasing_by all_goals omega

def schedule1 (m : Nat → Word) (t : Nat) : Word :=
  if _h : t < 16 then m t
  else
    rotl 1 (schedule1 m (t - 3) ^^^ schedule1 m (t - 8) ^^^ schedule1 m (t - 14) ^^^
      schedule1 m (t - 16))
termination_by t
decreasing_by all_goals omega

section Schedules

variable {m : Nat → Word} {t : Nat}

theorem schedule256_first (h : t < 16) : schedule256 m t = m t := by
  rw [schedule256, dif_pos h]

theorem schedule256_next (h : 16 ≤ t) : schedule256 m t =
    smallSigma1 (schedule256 m (t - 2)) + schedule256 m (t - 7) +
      smallSigma0 (schedule256 m (t - 15)) + schedule256 m (t - 16) := by
  rw [schedule256, dif_neg (Nat.not_lt.mpr h)]

theorem schedule1_first (h : t < 16) : schedule1 m t = m t := by
  rw [schedule1, dif_pos h]

theorem schedule1_next (h : 16 ≤ t) : schedule1 m t =
    rotl 1 (schedule1 m (t - 3) ^^^ schedule1 m (t - 8) ^^^ schedule1 m (t - 14) ^^^
      schedule1 m (t - 16)) := by
  rw [schedule1, dif_neg (Nat.not_lt.mpr h)]

end Schedules

/-- A hash function by its state, its first value, what a block's words make of a value, and the
words of the digest. -/
structure Hash (σ : Type) where
  start : σ
  compress : (Nat → Word) → σ → σ
  words : σ → List Word

structure Eight where
  a : Word
  b : Word
  c : Word
  d : Word
  e : Word
  f : Word
  g : Word
  h : Word
deriving DecidableEq, Repr

structure Five where
  a : Word
  b : Word
  c : Word
  d : Word
  e : Word
deriving DecidableEq, Repr

def round256 (w : Nat → Word) (s : Eight) (t : Nat) : Eight :=
  let t1 := s.h + bigSigma1 s.e + ch s.e s.f s.g + k256 t + w t
  let t2 := bigSigma0 s.a + maj s.a s.b s.c
  ⟨t1 + t2, s.a, s.b, s.c, s.d + t1, s.e, s.f, s.g⟩

def round1 (w : Nat → Word) (s : Five) (t : Nat) : Five :=
  ⟨rotl 5 s.a + f1 t s.b s.c s.d + s.e + k1 t + w t, s.a, rotl 30 s.b, s.c, s.d⟩

def sha256 : Hash Eight where
  start :=
    ⟨rootBits 2 2, rootBits 2 3, rootBits 2 5, rootBits 2 7, rootBits 2 11, rootBits 2 13,
      rootBits 2 17, rootBits 2 19⟩
  compress m s :=
    let r := (List.range 64).foldl (round256 (schedule256 m)) s
    ⟨s.a + r.a, s.b + r.b, s.c + r.c, s.d + r.d, s.e + r.e, s.f + r.f, s.g + r.g, s.h + r.h⟩
  words s := [s.a, s.b, s.c, s.d, s.e, s.f, s.g, s.h]

def sha1 : Hash Five where
  start := ⟨0x67452301, 0xefcdab89, 0x98badcfe, 0x10325476, 0xc3d2e1f0⟩
  compress m s :=
    let r := (List.range 80).foldl (round1 (schedule1 m)) s
    ⟨s.a + r.a, s.b + r.b, s.c + r.c, s.d + r.d, s.e + r.e⟩
  words s := [s.a, s.b, s.c, s.d, s.e]

/-- A number in so many bytes, the highest first. -/
def bigEndian : Nat → Nat → List UInt8
  | 0, _ => []
  | k + 1, n => bigEndian k (n / 256) ++ [UInt8.ofNat n]

/-- The zero bytes before the length, the fewest that end it at the end of a block. -/
def zeroBytes (length : Nat) : Nat := (119 - length % 64) % 64

/-- A message with the bit 1, the zero bits and its length in bits after it. -/
def pad (m : List UInt8) : List UInt8 :=
  m ++ [0x80] ++ List.replicate (zeroBytes m.length) 0 ++ bigEndian 8 (8 * m.length)

/-- Word `t` of a block, its first byte the highest. -/
def wordOf (block : List UInt8) (t : Nat) : Word :=
  UInt32.ofNat (((block.drop (4 * t)).take 4).foldl (fun n b => n * 256 + b.toNat) 0)

def Hash.over {σ : Type} (h : Hash σ) : Nat → List UInt8 → σ → σ
  | 0, _, s => s
  | n + 1, m, s => h.over n (m.drop 64) (h.compress (wordOf (m.take 64)) s)

/-- The digest of a message. -/
def Hash.digest {σ : Type} (h : Hash σ) (m : List UInt8) : List UInt8 :=
  (h.words (h.over ((pad m).length / 64) (pad m) h.start)).flatMap fun w => bigEndian 4 w.toNat

theorem bigEndian_length (k n : Nat) : (bigEndian k n).length = k := by
  induction k generalizing n with
  | zero => exact Eq.refl _
  | succ k ih => rw [bigEndian, List.length_append, ih, List.length_singleton]

theorem pad_length (m : List UInt8) :
    (pad m).length = m.length + 1 + zeroBytes m.length + 8 := by
  unfold pad
  rw [List.length_append, List.length_append, List.length_append, List.length_singleton,
    List.length_replicate, bigEndian_length]

theorem pad_whole (m : List UInt8) : (pad m).length % 64 = 0 := by
  rw [pad_length, zeroBytes]
  omega

end Fips180
