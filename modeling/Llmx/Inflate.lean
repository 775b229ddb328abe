import Llmx.ReplySplit
import Llmx.Triples
import Mathlib.Algebra.Order.Ring.Int

namespace Llmx

namespace Inflate

/-- What a stream is refused with; `length` is the vector's own, asked to hold more than it can,
and `unfinished` a loop's that was given too few rounds. -/
inductive Error
  | runtime (what : String)
  | logic (what : String)
  | length
  | unfinished
deriving DecidableEq, Repr

structure Bits where
  p : Bytes
  place : Nat
  buf : Nat
  count : Nat
deriving DecidableEq, Repr

abbrev Take := EStateM Error Bits

def fail {α : Type} (what : String) : Take α := fun b => .error (.runtime what) b

def unfinished {α : Type} : Take α := fun b => .error .unfinished b

/-- A byte a round; `k` rounds are enough for `k` bits. -/
def fill (k : Nat) : Nat → Take Unit
  | 0 => pure ()
  | rounds + 1 => fun b =>
    if b.count < k then
      if b.p.length ≤ b.place then .error (.runtime "inflate: the stream ends inside a block") b
      else fill k rounds
        { b with
          buf := (b.buf ||| (b.p.getD b.place 0).toNat <<< b.count) % 2 ^ 32
          place := b.place + 1
          count := b.count + 8 }
    else .ok () b

def takeBits (k : Nat) : Take Nat := fun b =>
  .ok (b.buf &&& (1 <<< k - 1)) { b with buf := b.buf >>> k, count := b.count - k }

def get (k : Nat) : Take Nat := do
  fill k k
  takeBits k

def align : Take Unit := fun b =>
  .ok () { b with buf := b.buf >>> (b.count &&& 7), count := b.count - (b.count &&& 7) }

structure Huffman where
  counts : List Nat
  symbols : List Nat
deriving DecidableEq, Repr

def increment (xs : List Nat) (k : Nat) : List Nat := xs.set k (xs.getD k 0 + 1)

/-- The codes of each length, those of length 0 left out. -/
def countLengths (lengths : List Nat) : List Nat :=
  (lengths.foldl increment (List.replicate 16 0)).set 0 0

def leftOver (counts : List Nat) : List Nat → Int → Take Unit
  | [], _ => pure ()
  | len :: lens, left =>
    if 2 * left - counts.getD len 0 < 0 then fail "inflate: a Huffman code is oversubscribed"
    else leftOver counts lens (2 * left - counts.getD len 0)

def offsets (counts : List Nat) : List Nat :=
  (List.range' 1 14).foldl
    (fun offs len => offs.set (len + 1) (offs.getD len 0 + counts.getD len 0))
    (List.replicate 16 0)

def placeSymbol (lengths : List Nat) (t : List Nat × List Nat) (i : Nat) : List Nat × List Nat :=
  if lengths.getD i 0 = 0 then t
  else (increment t.1 (lengths.getD i 0), t.2.set (t.1.getD (lengths.getD i 0) 0) i)

/-- The symbols by their code's length, those of one length in their own order. -/
def sortSymbols (counts lengths : List Nat) : List Nat :=
  ((List.range lengths.length).foldl (placeSymbol lengths)
    (offsets counts, List.replicate lengths.length 0)).2

def build (lengths : List Nat) : Take Huffman := do
  leftOver (countLengths lengths) (List.range' 1 15) 1
  pure ⟨countLengths lengths, sortSymbols (countLengths lengths) lengths⟩

/-- The rounds for the lengths from `len` on. -/
def Huffman.decodeFrom (h : Huffman) : Nat → Nat → Nat → Nat → Nat → Take Nat
  | 0, _, _, _, _ => fail "inflate: a code that no Huffman table holds"
  | rounds + 1, len, code, first, index => do
    let bit ← get 1
    if (code ||| bit) < first + h.counts.getD len 0 then
      pure (h.symbols.getD (index + (code ||| bit) - first) 0)
    else
      h.decodeFrom rounds (len + 1) ((code ||| bit) <<< 1) ((first + h.counts.getD len 0) <<< 1)
        (index + h.counts.getD len 0)

def Huffman.decode (h : Huffman) : Take Nat := h.decodeFrom 15 1 0 0 0

def kLengthBase : List Nat :=
  [3, 4, 5, 6, 7, 8, 9, 10, 11, 13, 15, 17, 19, 23, 27, 31, 35, 43, 51, 59, 67, 83, 99, 115, 131,
    163, 195, 227, 258]

def kLengthExtra : List Nat :=
  [0, 0, 0, 0, 0, 0, 0, 0, 1, 1, 1, 1, 2, 2, 2, 2, 3, 3, 3, 3, 4, 4, 4, 4, 5, 5, 5, 5, 0]

def kDistBase : List Nat :=
  [1, 2, 3, 4, 5, 7, 9, 13, 17, 25, 33, 49, 65, 97, 129, 193, 257, 385, 513, 769, 1025, 1537, 2049,
    3073, 4097, 6145, 8193, 12289, 16385, 24577]

def kDistExtra : List Nat :=
  [0, 0, 0, 0, 1, 1, 2, 2, 3, 3, 4, 4, 5, 5, 6, 6, 7, 7, 8, 8, 9, 9, 10, 10, 11, 11, 12, 12, 13,
    13]

def tooMany : String := "inflate: the stream holds more bytes than the image"

def copyBytes : Nat → Nat → Bytes → Bytes
  | 0, _, out => out
  | len + 1, start, out => copyBytes len (start + 1) (out ++ [out.getD start 0])

/-- The match whose length has code `li`. -/
def copied (limit : Nat) (dist : Huffman) (li : Nat) (out : Bytes) : Take Bytes := do
  let extra ← get (kLengthExtra.getD li 0)
  let di ← dist.decode
  if 30 ≤ di then fail "inflate: an invalid distance code"
  else do
    let far ← get (kDistExtra.getD di 0)
    if out.length < kDistBase.getD di 0 + far then
      fail "inflate: a distance before the start of the stream"
    else if limit < out.length + (kLengthBase.getD li 0 + extra) then fail tooMany
    else
      pure (copyBytes (kLengthBase.getD li 0 + extra)
        (out.length - (kDistBase.getD di 0 + far)) out)

def codes (limit : Nat) (lit dist : Huffman) : Nat → Bytes → Take Bytes
  | 0, _ => unfinished
  | rounds + 1, out => do
    let sym ← lit.decode
    if sym < 256 then
      if limit ≤ out.length then fail tooMany
      else codes limit lit dist rounds (out ++ [UInt8.ofNat sym])
    else if sym = 256 then pure out
    else if 29 ≤ sym - 257 then fail "inflate: an invalid length code"
    else do
      let out ← copied limit dist (sym - 257) out
      codes limit lit dist rounds out

def storedBytes (limit len : Nat) (out : Bytes) : Take Bytes := fun b =>
  if b.p.length < b.place + len then
    .error (.runtime "inflate: the stream ends inside a stored block") b
  else if limit < out.length + len then .error (.runtime tooMany) b
  else .ok (out ++ (b.p.drop b.place).take len) { b with place := b.place + len }

def stored (limit : Nat) (out : Bytes) : Take Bytes := do
  align
  let len ← get 16
  let nlen ← get 16
  if len ^^^ 0xffff ≠ nlen then fail "inflate: a stored block's length check fails"
  else storedBytes limit len out

def fixedLit : List Nat :=
  List.replicate 144 8 ++ List.replicate 112 9 ++ List.replicate 24 7 ++ List.replicate 8 8

def fixedDist : List Nat := List.replicate 30 5

def order : List Nat := [16, 17, 18, 0, 8, 7, 9, 6, 10, 5, 11, 4, 12, 3, 13, 2, 14, 1, 15]

def readCodeLengths : List Nat → List Nat → Take (List Nat)
  | [], cl => pure cl
  | i :: is, cl => do
    let len ← get 3
    readCodeLengths is (cl.set i len)

/-- The length repeated and how often, for a symbol from 16 on. -/
def repeatOf (sym : Nat) (l : List Nat) : Take (Nat × Nat) :=
  if sym = 16 then
    if l.length = 0 then fail "inflate: a repeat with no length before it"
    else do
      let more ← get 2
      pure (l.getD (l.length - 1) 0, 3 + more)
  else if sym = 17 then do
    let more ← get 3
    pure (0, 3 + more)
  else do
    let more ← get 7
    pure (0, 11 + more)

/-- The lengths read so far are `l`. -/
def readLengths (lens : Huffman) (total : Nat) : Nat → List Nat → Take (List Nat)
  | 0, _ => unfinished
  | rounds + 1, l =>
    if total ≤ l.length then pure l
    else do
      let sym ← lens.decode
      if sym < 16 then readLengths lens total rounds (l ++ [sym])
      else do
        let (v, rep) ← repeatOf sym l
        if total < l.length + rep then fail "inflate: code lengths past the table"
        else readLengths lens total rounds (l ++ List.replicate rep v)

def buildBoth (lit dist : List Nat) : Take (Huffman × Huffman) := do
  let lit ← build lit
  let dist ← build dist
  pure (lit, dist)

/-- The tables, for `hlit` and `hdist` lengths described by `hclen` code lengths. -/
def describedTables (hlit hdist hclen : Nat) : Take (Huffman × Huffman) :=
  if 286 < hlit ∨ 30 < hdist then fail "inflate: too many codes in a dynamic block"
  else do
    let cl ← readCodeLengths (order.take hclen) (List.replicate 19 0)
    let lens ← build cl
    let l ← readLengths lens (hlit + hdist) (hlit + hdist + 1) []
    if l.getD 256 0 = 0 then fail "inflate: a dynamic block without an end code"
    else buildBoth (l.take hlit) (l.drop hlit)

def dynamicTables : Take (Huffman × Huffman) := do
  let hlit ← get 5
  let hdist ← get 5
  let hclen ← get 4
  describedTables (hlit + 257) (hdist + 1) (hclen + 4)

def block (limit rounds type : Nat) (out : Bytes) : Take Bytes :=
  if type = 0 then stored limit out
  else if type = 1 then do
    let t ← buildBoth fixedLit fixedDist
    codes limit t.1 t.2 rounds out
  else if type = 2 then do
    let t ← dynamicTables
    codes limit t.1 t.2 rounds out
  else fail "inflate: an invalid block type"

/-- Every block takes bits, and every code of one does: `symbols` and `rounds` of at least the
stream's bits are enough. -/
def blocks (limit symbols : Nat) : Nat → Bytes → Take Bytes
  | 0, _ => unfinished
  | rounds + 1, out => do
    let last ← get 1
    let type ← get 2
    let out ← block limit symbols type out
    if last ≠ 0 then pure out else blocks limit symbols rounds out

def adlerStep (s : Nat × Nat) (c : UInt8) : Nat × Nat :=
  ((s.1 + c.toNat) % 65521, (s.2 + (s.1 + c.toNat) % 65521) % 65521)

def adler (out : Bytes) : Nat :=
  (out.foldl adlerStep (1, 0)).2 <<< 16 ||| (out.foldl adlerStep (1, 0)).1

/-- The four bytes from `place`, the first the highest. -/
def wanted (p : Bytes) (place : Nat) : Nat :=
  (p.getD place 0).toNat <<< 24 ||| (p.getD (place + 1) 0).toNat <<< 16
    ||| (p.getD (place + 2) 0).toNat <<< 8 ||| (p.getD (place + 3) 0).toNat

/-- The end of a stream, the bits up to the next byte dropped. -/
def checkedSum (out : Bytes) (b : Bits) : Except Error Bytes :=
  if 32 ≤ b.count then .error (.logic "inflate: more than a word buffered")
  else if b.p.length < b.place - b.count / 8 + 4 then
    .error (.runtime "inflate: the stream ends before its Adler-32")
  else if adler out ≠ wanted b.p (b.place - b.count / 8) then
    .error (.runtime "inflate: the Adler-32 check fails")
  else .ok out

def inflated (limit symbols : Nat) : Take Bytes := do
  let out ← blocks limit symbols symbols []
  align
  pure out

def outcome (r : EStateM.Result Error Bits Bytes) : Except Error Bytes :=
  match r with
  | .ok out b => checkedSum out b
  | .error e _ => .error e

/-- A vector holds below `2 ^ 63` bytes, and asking it for room for more throws. -/
def inflateZlib (p : Bytes) (limit : Nat) : Except Error Bytes :=
  if p.length < 6 then .error (.runtime "inflate: the stream is too short for a zlib header")
  else if (p.getD 0 0).toNat &&& 15 ≠ 8 ∨ 7 < (p.getD 0 0).toNat >>> 4 then
    .error (.runtime "inflate: not a deflate stream")
  else if ((p.getD 0 0).toNat * 256 + (p.getD 1 0).toNat) % 31 ≠ 0 then
    .error (.runtime "inflate: the zlib header check fails")
  else if (p.getD 1 0).toNat &&& 32 ≠ 0 then
    .error (.runtime "inflate: a preset dictionary is not supported")
  else if 2 ^ 63 ≤ limit then .error .length
  else outcome (inflated limit (8 * p.length) ⟨p.drop 2, 0, 0, 0⟩)

end Inflate

end Llmx
