import Llmx.CanonicalCodes
import Llmx.ReplySplit

/-!
What a compressor writes: the blocks of a deflate stream, every choice it has in them, what they
expand to, and their bits inside a zlib stream.
-/

namespace Llmx

namespace Deflate

open BitLists CanonicalCodes

inductive Token
  | literal (byte : UInt8)
  | copy (length distance : Nat)
deriving DecidableEq, Repr

/-- The extra bits of the length symbols, four symbols to a number of them, the last symbol alone. -/
def lengthExtra (i : Nat) : Nat := if i = 28 then 0 else (i - 4) / 4

def lengthFirst (i : Nat) : Nat :=
  if i = 28 then 258 else 3 + ((List.range i).map fun j => 2 ^ lengthExtra j).sum

/-- The extra bits of the distance symbols, two symbols to a number of them. -/
def distanceExtra (i : Nat) : Nat := (i - 2) / 2

def distanceFirst (i : Nat) : Nat := 1 + ((List.range i).map fun j => 2 ^ distanceExtra j).sum

/-- The last of `n` symbols whose first value is at most `x`. -/
def lastWithin (first : Nat → Nat) : Nat → Nat → Nat
  | 0, _ => 0
  | n + 1, x => if first n ≤ x then n else lastWithin first n x

def lengthSymbol (length : Nat) : Nat := lastWithin lengthFirst 29 length

def distanceSymbol (distance : Nat) : Nat := lastWithin distanceFirst 30 distance

section Tokens

variable (lit dist : List Nat)

def Token.bits : Token → List Bool
  | .literal byte => codeword lit byte.toNat
  | .copy length distance =>
    codeword lit (257 + lengthSymbol length) ++
      (lowBits (lengthExtra (lengthSymbol length)) (length - lengthFirst (lengthSymbol length)) ++
        (codeword dist (distanceSymbol distance) ++
          lowBits (distanceExtra (distanceSymbol distance))
            (distance - distanceFirst (distanceSymbol distance))))

/-- A match repeats the `distance` bytes before it for as long as it is. -/
def Token.expand (out : Bytes) : Token → Bytes
  | .literal byte => out ++ [byte]
  | .copy length distance =>
    out ++ (List.range length).map fun i => out.getD (out.length - distance + i % distance) 0

/-- What a token uses has a code, and a match is inside the output so far. -/
def Token.Valid (out : Bytes) : Token → Prop
  | .literal byte => lit.getD byte.toNat 0 ≠ 0
  | .copy length distance =>
    3 ≤ length ∧ length ≤ 258 ∧ 1 ≤ distance ∧ distance ≤ 32768 ∧ distance ≤ out.length ∧
      lit.getD (257 + lengthSymbol length) 0 ≠ 0 ∧ dist.getD (distanceSymbol distance) 0 ≠ 0

def TokensValid : Bytes → List Token → Prop
  | _, [] => lit.getD 256 0 ≠ 0
  | out, t :: ts => t.Valid lit dist out ∧ TokensValid (t.expand out) ts

instance decidableTokenValid (out : Bytes) : (t : Token) → Decidable (t.Valid lit dist out)
  | .literal byte => inferInstanceAs (Decidable (lit.getD byte.toNat 0 ≠ 0))
  | .copy length distance =>
    inferInstanceAs (Decidable (3 ≤ length ∧ length ≤ 258 ∧ 1 ≤ distance ∧ distance ≤ 32768 ∧
      distance ≤ out.length ∧ lit.getD (257 + lengthSymbol length) 0 ≠ 0 ∧
        dist.getD (distanceSymbol distance) 0 ≠ 0))

instance decidableTokensValid :
    (out : Bytes) → (ts : List Token) → Decidable (TokensValid lit dist out ts)
  | _, [] => inferInstanceAs (Decidable (lit.getD 256 0 ≠ 0))
  | out, t :: ts =>
    @instDecidableAnd _ _ (decidableTokenValid lit dist out t)
      (decidableTokensValid (t.expand out) ts)

def tokensBits (tokens : List Token) : List Bool :=
  (tokens.flatMap (Token.bits lit dist)) ++ codeword lit 256

end Tokens

def fixedLit : List Nat :=
  (List.range 288).map fun s => if s < 144 then 8 else if s < 256 then 9 else if s < 280 then 7 else 8

def fixedDist : List Nat := List.replicate 32 5

/-- A step of describing code lengths: one, the one before again, or zeros. -/
inductive LengthRun
  | one (len : Nat)
  | again (times : Nat)
  | zeros (times : Nat)
deriving DecidableEq, Repr

def LengthRun.symbol : LengthRun → Nat
  | .one len => len
  | .again _ => 16
  | .zeros times => if times ≤ 10 then 17 else 18

def LengthRun.extra : LengthRun → List Bool
  | .one _ => []
  | .again times => lowBits 2 (times - 3)
  | .zeros times => if times ≤ 10 then lowBits 3 (times - 3) else lowBits 7 (times - 11)

def LengthRun.grow (l : List Nat) : LengthRun → List Nat
  | .one len => l ++ [len]
  | .again times => l ++ List.replicate times (l.getD (l.length - 1) 0)
  | .zeros times => l ++ List.replicate times 0

def LengthRun.Valid (lens l : List Nat) (r : LengthRun) : Prop :=
  lens.getD r.symbol 0 ≠ 0 ∧
    match r with
    | .one len => len ≤ 15
    | .again times => l ≠ [] ∧ 3 ≤ times ∧ times ≤ 6
    | .zeros times => 3 ≤ times ∧ times ≤ 138

def LengthRunsValid (lens : List Nat) : List Nat → List LengthRun → Prop
  | _, [] => True
  | l, r :: rs => r.Valid lens l ∧ LengthRunsValid lens (r.grow l) rs

instance decidableRunValid (lens l : List Nat) : (r : LengthRun) → Decidable (r.Valid lens l)
  | .one len => inferInstanceAs (Decidable (lens.getD len 0 ≠ 0 ∧ len ≤ 15))
  | .again times =>
    inferInstanceAs (Decidable (lens.getD 16 0 ≠ 0 ∧ l ≠ [] ∧ 3 ≤ times ∧ times ≤ 6))
  | .zeros times =>
    inferInstanceAs (Decidable (lens.getD (LengthRun.zeros times).symbol 0 ≠ 0 ∧ 3 ≤ times ∧ times ≤ 138))

instance decidableRunsValid (lens : List Nat) :
    (l : List Nat) → (rs : List LengthRun) → Decidable (LengthRunsValid lens l rs)
  | _, [] => isTrue trivial
  | l, r :: rs =>
    @instDecidableAnd _ _ (decidableRunValid lens l r) (decidableRunsValid lens (r.grow l) rs)

/-- The order the code lengths' own code lengths are sent in. -/
def codeOrder : List Nat := [16, 17, 18, 0, 8, 7, 9, 6, 10, 5, 11, 4, 12, 3, 13, 2, 14, 1, 15]

/-- The lengths of a dynamic block's codes, and how they are described: by runs in a code of their
own, of whose lengths `sent` are sent. -/
structure Description where
  lit : List Nat
  dist : List Nat
  lens : List Nat
  sent : Nat
  runs : List LengthRun
deriving DecidableEq, Repr

/-- Code lengths up to `most` that are not oversubscribed. -/
def LengthsValid (most : Nat) (lengths : List Nat) : Prop :=
  (∀ len ∈ lengths, len ≤ most) ∧ NotOversubscribed lengths 15

instance (most : Nat) (lengths : List Nat) : Decidable (LengthsValid most lengths) :=
  inferInstanceAs (Decidable ((∀ len ∈ lengths, len ≤ most) ∧ NotOversubscribed lengths 15))

/-- With at most `mostDist` distance code lengths. -/
structure Description.Valid (mostDist : Nat) (d : Description) : Prop where
  lit_length : 257 ≤ d.lit.length ∧ d.lit.length ≤ 286
  dist_length : 1 ≤ d.dist.length ∧ d.dist.length ≤ mostDist
  lens_length : d.lens.length = 19
  sent_bounds : 4 ≤ d.sent ∧ d.sent ≤ 19
  lit_valid : LengthsValid 15 d.lit
  dist_valid : LengthsValid 15 d.dist
  lens_valid : LengthsValid 7 d.lens
  unsent : ∀ s ∈ codeOrder.drop d.sent, d.lens.getD s 0 = 0
  runs_valid : LengthRunsValid d.lens [] d.runs
  runs_eq : d.runs.foldl LengthRun.grow [] = d.lit ++ d.dist

instance (mostDist : Nat) (d : Description) : Decidable (d.Valid mostDist) :=
  decidable_of_iff
    (((257 ≤ d.lit.length ∧ d.lit.length ≤ 286) ∧ (1 ≤ d.dist.length ∧ d.dist.length ≤ mostDist) ∧
      d.lens.length = 19 ∧ (4 ≤ d.sent ∧ d.sent ≤ 19)) ∧ LengthsValid 15 d.lit ∧
        LengthsValid 15 d.dist ∧ LengthsValid 7 d.lens ∧
          (∀ s ∈ codeOrder.drop d.sent, d.lens.getD s 0 = 0) ∧ LengthRunsValid d.lens [] d.runs ∧
            d.runs.foldl LengthRun.grow [] = d.lit ++ d.dist)
    ⟨fun ⟨⟨h1, h2, h3, h4⟩, h5, h6, h7, h8, h9, h10⟩ => ⟨h1, h2, h3, h4, h5, h6, h7, h8, h9, h10⟩,
      fun ⟨h1, h2, h3, h4, h5, h6, h7, h8, h9, h10⟩ =>
        ⟨⟨h1, h2, h3, h4⟩, h5, h6, h7, h8, h9, h10⟩⟩

def LengthRun.bits (lens : List Nat) (r : LengthRun) : List Bool := codeword lens r.symbol ++ r.extra

def Description.bits (d : Description) : List Bool :=
  lowBits 5 (d.lit.length - 257) ++ (lowBits 5 (d.dist.length - 1) ++ (lowBits 4 (d.sent - 4) ++
    (((codeOrder.take d.sent).flatMap fun s => lowBits 3 (d.lens.getD s 0)) ++
      d.runs.flatMap (LengthRun.bits d.lens))))

/-- The bits before a stored block's lengths are those of `padding`. -/
inductive Block
  | stored (padding : Nat) (bytes : Bytes)
  | fixed (tokens : List Token)
  | dynamic (d : Description) (tokens : List Token)
deriving DecidableEq, Repr

def Block.expand (out : Bytes) : Block → Bytes
  | .stored _ bytes => out ++ bytes
  | .fixed tokens => tokens.foldl Token.expand out
  | .dynamic _ tokens => tokens.foldl Token.expand out

def Block.Valid (mostDist : Nat) (out : Bytes) : Block → Prop
  | .stored _ bytes => bytes.length < 65536
  | .fixed tokens => TokensValid fixedLit fixedDist out tokens
  | .dynamic d tokens => d.Valid mostDist ∧ TokensValid d.lit d.dist out tokens

instance decidableBlockValid (mostDist : Nat) (out : Bytes) :
    (b : Block) → Decidable (b.Valid mostDist out)
  | .stored _ bytes => inferInstanceAs (Decidable (bytes.length < 65536))
  | .fixed tokens => decidableTokensValid fixedLit fixedDist out tokens
  | .dynamic d tokens =>
    inferInstanceAs (Decidable (d.Valid mostDist ∧ TokensValid d.lit d.dist out tokens))

/-- The bits to the next whole byte. -/
def gap (offset : Nat) : Nat := (8 - offset % 8) % 8

def storedBits (padding offset : Nat) (bytes : Bytes) : List Bool :=
  lowBits (gap offset) padding ++ (lowBits 16 bytes.length ++
    (lowBits 16 (65535 - bytes.length) ++ octetBits bytes))

/-- A block's bits after `offset` bits of the stream. -/
def Block.bits (last : Bool) (offset : Nat) : Block → List Bool
  | .stored padding bytes => last :: (lowBits 2 0 ++ storedBits padding (offset + 3) bytes)
  | .fixed tokens => last :: (lowBits 2 1 ++ tokensBits fixedLit fixedDist tokens)
  | .dynamic d tokens => last :: (lowBits 2 2 ++ (d.bits ++ tokensBits d.lit d.dist tokens))

def blocksBits : Nat → List Block → List Bool
  | _, [] => []
  | offset, b :: bs =>
    b.bits bs.isEmpty offset ++ blocksBits (offset + (b.bits bs.isEmpty offset).length) bs

def BlocksValid (mostDist : Nat) : Bytes → List Block → Prop
  | _, [] => True
  | out, b :: bs => b.Valid mostDist out ∧ BlocksValid mostDist (b.expand out) bs

instance decidableBlocksValid (mostDist : Nat) :
    (out : Bytes) → (bs : List Block) → Decidable (BlocksValid mostDist out bs)
  | _, [] => isTrue trivial
  | out, b :: bs =>
    @instDecidableAnd _ _ (decidableBlockValid mostDist out b)
      (decidableBlocksValid mostDist (b.expand out) bs)

/-- A zlib stream but for its checksum; the bits after the last block's are those of `padding`. -/
structure ZlibStream where
  cmf : UInt8
  flg : UInt8
  blocks : List Block
  padding : Nat
deriving DecidableEq, Repr

def ZlibStream.expand (s : ZlibStream) : Bytes := s.blocks.foldl Block.expand []

structure ZlibStream.Valid (mostDist : Nat) (s : ZlibStream) : Prop where
  method : s.cmf.toNat % 16 = 8
  window : s.cmf.toNat / 16 ≤ 7
  check : (s.cmf.toNat * 256 + s.flg.toNat) % 31 = 0
  no_dictionary : s.flg.toNat / 32 % 2 = 0
  blocks_ne : s.blocks ≠ []
  blocks_valid : BlocksValid mostDist [] s.blocks

instance (mostDist : Nat) (s : ZlibStream) : Decidable (s.Valid mostDist) :=
  decidable_of_iff
    (s.cmf.toNat % 16 = 8 ∧ s.cmf.toNat / 16 ≤ 7 ∧ (s.cmf.toNat * 256 + s.flg.toNat) % 31 = 0 ∧
      s.flg.toNat / 32 % 2 = 0 ∧ s.blocks ≠ [] ∧ BlocksValid mostDist [] s.blocks)
    ⟨fun ⟨h1, h2, h3, h4, h5, h6⟩ => ⟨h1, h2, h3, h4, h5, h6⟩,
      fun ⟨h1, h2, h3, h4, h5, h6⟩ => ⟨h1, h2, h3, h4, h5, h6⟩⟩

def ZlibStream.bits (s : ZlibStream) : List Bool :=
  blocksBits 0 s.blocks ++ lowBits (gap (blocksBits 0 s.blocks).length) s.padding

/-- A number's four bytes, the highest first. -/
def highBytes (n : Nat) : Bytes :=
  [UInt8.ofNat (n / 2 ^ 24), UInt8.ofNat (n / 2 ^ 16), UInt8.ofNat (n / 2 ^ 8), UInt8.ofNat n]

/-- The stream's bytes, with the checksum it is given. -/
def ZlibStream.bytes (s : ZlibStream) (check : Nat) : Bytes :=
  s.cmf :: s.flg :: (octets (s.bits.length / 8) s.bits ++ highBytes check)

def adlerLow (out : Bytes) : Nat := 1 + (out.map UInt8.toNat).sum

/-- The Adler-32 of `out`: its bytes' sum from 1, and the sum of those of its beginnings. -/
def adler32 (out : Bytes) : Nat :=
  ((List.range out.length).map fun i => adlerLow (out.take (i + 1))).sum % 65521 * 65536 +
    adlerLow out % 65521

end Deflate

end Llmx
