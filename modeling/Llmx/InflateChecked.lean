import Llmx.CanonicalCodes
import Llmx.Inflate

/-!
The inflater with every access checked: an index outside its array, a whole byte left in the
buffer after a read and a symbol answered for a code that is not its own end the run.
-/

namespace Llmx

namespace Inflate

inductive Fault
  | outside
  | buffered
  | unassigned
  | refused (e : Error)
deriving DecidableEq, Repr

abbrev Checked := EStateM Fault Bits

namespace Checked

def fail {α : Type} (what : String) : Checked α := fun b => .error (.refused (.runtime what)) b

def fault {α : Type} (f : Fault) : Checked α := fun b => .error f b

def unfinished {α : Type} : Checked α := fun b => .error (.refused .unfinished) b

def item {α : Type} (xs : List α) (i : Nat) : Checked α := fun b =>
  match xs[i]? with
  | none => .error .outside b
  | some x => .ok x b

def setItem {α : Type} (xs : List α) (i : Nat) (x : α) : Checked (List α) := fun b =>
  if i < xs.length then .ok (xs.set i x) b else .error .outside b

def load (byte : UInt8) : Checked Unit := fun b =>
  .ok ()
    { b with
      buf := (b.buf ||| byte.toNat <<< b.count) % 2 ^ 32
      place := b.place + 1
      count := b.count + 8 }

def fill (k : Nat) : Nat → Checked Unit
  | 0 => pure ()
  | rounds + 1 => do
    let b ← EStateM.get
    if b.count < k then
      if b.p.length ≤ b.place then fail "inflate: the stream ends inside a block"
      else do
        let byte ← item b.p b.place
        load byte
        fill k rounds
    else pure ()

def takeBits (k : Nat) : Checked Nat := fun b =>
  if 8 ≤ b.count - k then .error .buffered b
  else .ok (b.buf &&& (1 <<< k - 1)) { b with buf := b.buf >>> k, count := b.count - k }

def get (k : Nat) : Checked Nat := do
  fill k k
  takeBits k

def align : Checked Unit := fun b =>
  .ok () { b with buf := b.buf >>> (b.count &&& 7), count := b.count - (b.count &&& 7) }

/-- A code's table, with the lengths it is of. -/
structure Table where
  lengths : List Nat
  counts : List Nat
  symbols : List Nat
deriving DecidableEq, Repr

def countLengths (lengths : List Nat) : List Nat → List Nat → Checked (List Nat)
  | [], counts => pure counts
  | i :: is, counts => do
    let len ← item lengths i
    let count ← item counts len
    let counts ← setItem counts len (count + 1)
    countLengths lengths is counts

def leftOver (counts : List Nat) : List Nat → Int → Checked Unit
  | [], _ => pure ()
  | len :: lens, left => do
    let count ← item counts len
    if 2 * left - count < 0 then fail "inflate: a Huffman code is oversubscribed"
    else leftOver counts lens (2 * left - count)

def offsets (counts : List Nat) : List Nat → List Nat → Checked (List Nat)
  | [], offs => pure offs
  | len :: lens, offs => do
    let off ← item offs len
    let count ← item counts len
    let offs ← setItem offs (len + 1) (off + count)
    offsets counts lens offs

def sortSymbols (lengths : List Nat) : List Nat → List Nat × List Nat →
    Checked (List Nat × List Nat)
  | [], t => pure t
  | i :: is, t => do
    let len ← item lengths i
    if len = 0 then sortSymbols lengths is t
    else do
      let off ← item t.1 len
      let symbols ← setItem t.2 off i
      let offs ← setItem t.1 len (off + 1)
      sortSymbols lengths is (offs, symbols)

/-- The table of the first `n` of an array's lengths. -/
def build (lengths : List Nat) (n : Nat) : Checked Table := do
  let counts ← countLengths lengths (List.range n) (List.replicate 16 0)
  let counts ← setItem counts 0 0
  leftOver counts (List.range' 1 15) 1
  let offs ← offsets counts (List.range' 1 14) (List.replicate 16 0)
  let t ← sortSymbols lengths (List.range n) (offs, List.replicate n 0)
  pure ⟨lengths.take n, counts, t.2⟩

/-- The symbol at a place of the table, where it is the one whose code has been read. -/
def Table.symbol (t : Table) (len code i : Nat) : Checked Nat := do
  let s ← item t.symbols i
  let l ← item t.lengths s
  if l = len ∧ CanonicalCodes.code t.lengths s = code then pure s else fault .unassigned

def Table.decodeFrom (t : Table) : Nat → Nat → Nat → Nat → Nat → Checked Nat
  | 0, _, _, _, _ => fail "inflate: a code that no Huffman table holds"
  | rounds + 1, len, code, first, index => do
    let bit ← get 1
    let count ← item t.counts len
    if (code ||| bit) < first + count then
      if index + (code ||| bit) < first then fault .outside
      else t.symbol len (code ||| bit) (index + (code ||| bit) - first)
    else
      t.decodeFrom rounds (len + 1) ((code ||| bit) <<< 1) ((first + count) <<< 1) (index + count)

def Table.decode (t : Table) : Checked Nat := t.decodeFrom 15 1 0 0 0

def copyBytes : Nat → Nat → Bytes → Checked Bytes
  | 0, _, out => pure out
  | len + 1, start, out => do
    let byte ← item out start
    copyBytes len (start + 1) (out ++ [byte])

def copied (limit : Nat) (dist : Table) (li : Nat) (out : Bytes) : Checked Bytes := do
  let base ← item kLengthBase li
  let bits ← item kLengthExtra li
  let extra ← get bits
  let di ← dist.decode
  if 30 ≤ di then fail "inflate: an invalid distance code"
  else do
    let near ← item kDistBase di
    let bits ← item kDistExtra di
    let far ← get bits
    if out.length < near + far then fail "inflate: a distance before the start of the stream"
    else if limit < out.length + (base + extra) then fail tooMany
    else copyBytes (base + extra) (out.length - (near + far)) out

def codes (limit : Nat) (lit dist : Table) : Nat → Bytes → Checked Bytes
  | 0, _ => unfinished
  | rounds + 1, out => do
    let sym ← lit.decode
    if sym < 256 then
      if limit ≤ out.length then fail tooMany
      else codes limit lit dist rounds (out ++ [UInt8.ofNat sym])
    else if sym = 256 then pure out
    else if 29 ≤ sym - 257 then fail "inflate: an invalid length code"
    else do
      let out ← copied limit dist (sym - 257) out
      codes limit lit dist rounds out

/-- A stored block's bytes, the reader standing right before them. -/
def storedBytes (limit len : Nat) (out : Bytes) : Checked Bytes := fun b =>
  if b.count ≠ 0 then .error .buffered b
  else if b.p.length < b.place + len then
    .error (.refused (.runtime "inflate: the stream ends inside a stored block")) b
  else if limit < out.length + len then .error (.refused (.runtime tooMany)) b
  else .ok (out ++ (b.p.drop b.place).take len) { b with place := b.place + len }

def stored (limit : Nat) (out : Bytes) : Checked Bytes := do
  align
  let len ← get 16
  let nlen ← get 16
  if len ^^^ 0xffff ≠ nlen then fail "inflate: a stored block's length check fails"
  else storedBytes limit len out

/-- The lengths of the code lengths' code, for the places of `order` from `i` on. -/
def readCodeLengths : List Nat → List Nat → Checked (List Nat)
  | [], cl => pure cl
  | i :: is, cl => do
    let len ← get 3
    let j ← item order i
    let cl ← setItem cl j len
    readCodeLengths is cl

def repeatOf (sym i : Nat) (l : List Nat) : Checked (Nat × Nat) :=
  if sym = 16 then
    if i = 0 then fail "inflate: a repeat with no length before it"
    else do
      let v ← item l (i - 1)
      let more ← get 2
      pure (v, 3 + more)
  else if sym = 17 then do
    let more ← get 3
    pure (0, 3 + more)
  else do
    let more ← get 7
    pure (0, 11 + more)

def writeRepeat (v : Nat) : Nat → Nat → List Nat → Checked (List Nat)
  | 0, _, l => pure l
  | rep + 1, i, l => do
    let l ← setItem l i v
    writeRepeat v rep (i + 1) l

/-- The lengths, written into `l` from `i` on. -/
def readLengths (lens : Table) (total : Nat) : Nat → Nat → List Nat → Checked (List Nat)
  | 0, _, _ => unfinished
  | rounds + 1, i, l =>
    if total ≤ i then pure l
    else do
      let sym ← lens.decode
      if sym < 16 then do
        let l ← setItem l i sym
        readLengths lens total rounds (i + 1) l
      else do
        let r ← repeatOf sym i l
        if total < i + r.2 then fail "inflate: code lengths past the table"
        else do
          let l ← writeRepeat r.1 r.2 i l
          readLengths lens total rounds (i + r.2) l

def buildBoth (lit : List Nat) (n : Nat) (dist : List Nat) (k : Nat) : Checked (Table × Table) := do
  let lit ← build lit n
  let dist ← build dist k
  pure (lit, dist)

def describedTables (hlit hdist hclen : Nat) : Checked (Table × Table) :=
  if 286 < hlit ∨ 30 < hdist then fail "inflate: too many codes in a dynamic block"
  else do
    let cl ← readCodeLengths (List.range hclen) (List.replicate 19 0)
    let lens ← build cl 19
    let l ← readLengths lens (hlit + hdist) (hlit + hdist + 1) 0 (List.replicate 316 0)
    let stop ← item l 256
    if stop = 0 then fail "inflate: a dynamic block without an end code"
    else buildBoth l hlit (l.drop hlit) hdist

def dynamicTables : Checked (Table × Table) := do
  let hlit ← get 5
  let hdist ← get 5
  let hclen ← get 4
  describedTables (hlit + 257) (hdist + 1) (hclen + 4)

def block (limit rounds type : Nat) (out : Bytes) : Checked Bytes :=
  if type = 0 then stored limit out
  else if type = 1 then do
    let t ← buildBoth fixedLit 288 fixedDist 30
    codes limit t.1 t.2 rounds out
  else if type = 2 then do
    let t ← dynamicTables
    codes limit t.1 t.2 rounds out
  else fail "inflate: an invalid block type"

def blocks (limit symbols : Nat) : Nat → Bytes → Checked Bytes
  | 0, _ => unfinished
  | rounds + 1, out => do
    let last ← get 1
    let type ← get 2
    let out ← block limit symbols type out
    if last ≠ 0 then pure out else blocks limit symbols rounds out

def sumCheck (out : Bytes) : Checked Bytes := do
  let b ← EStateM.get
  if 32 ≤ b.count then fault (.refused (.logic "inflate: more than a word buffered"))
  else if b.p.length < b.place - b.count / 8 + 4 then
    fail "inflate: the stream ends before its Adler-32"
  else do
    let q0 ← item b.p (b.place - b.count / 8)
    let q1 ← item b.p (b.place - b.count / 8 + 1)
    let q2 ← item b.p (b.place - b.count / 8 + 2)
    let q3 ← item b.p (b.place - b.count / 8 + 3)
    if adler out ≠ (q0.toNat <<< 24 ||| q1.toNat <<< 16 ||| q2.toNat <<< 8 ||| q3.toNat) then
      fail "inflate: the Adler-32 check fails"
    else pure out

def inflated (limit symbols : Nat) : Checked Bytes := do
  let out ← blocks limit symbols symbols []
  align
  sumCheck out

def outcome (r : EStateM.Result Fault Bits Bytes) : Except Fault Bytes :=
  match r with
  | .ok out _ => .ok out
  | .error f _ => .error f

/-- The stream after its first two bytes, which are read where they are. -/
def headed (cmf flg : UInt8) (p : Bytes) (limit : Nat) : Except Fault Bytes :=
  if cmf.toNat &&& 15 ≠ 8 ∨ 7 < cmf.toNat >>> 4 then
    .error (.refused (.runtime "inflate: not a deflate stream"))
  else if (cmf.toNat * 256 + flg.toNat) % 31 ≠ 0 then
    .error (.refused (.runtime "inflate: the zlib header check fails"))
  else if flg.toNat &&& 32 ≠ 0 then
    .error (.refused (.runtime "inflate: a preset dictionary is not supported"))
  else if 2 ^ 63 ≤ limit then .error (.refused .length)
  else outcome (inflated limit (8 * p.length) ⟨p.drop 2, 0, 0, 0⟩)

def inflateZlib (p : Bytes) (limit : Nat) : Except Fault Bytes :=
  if p.length < 6 then
    .error (.refused (.runtime "inflate: the stream is too short for a zlib header"))
  else
    match p[0]?, p[1]? with
    | some cmf, some flg => headed cmf flg p limit
    | _, _ => .error .outside

end Checked

end Inflate

end Llmx
