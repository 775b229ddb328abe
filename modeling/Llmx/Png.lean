import Llmx.Inflate

namespace Llmx

namespace Png

open Inflate (Error)

def raise {α : Type} (what : String) : Except Error α := .error (.runtime what)

/-- An 8-bit RGB image, three bytes a pixel. -/
structure Raster where
  width : Nat
  height : Nat
  rgb : Bytes
deriving DecidableEq

abbrev Rgb := UInt8 × UInt8 × UInt8

def kMaxDecodedPixels : Nat := 89478485

def Raster.new (w h : Nat) : Raster := ⟨w, h, List.replicate (w * h * 3) 0⟩

/-- Where the bytes of a pixel begin. -/
def Raster.place (r : Raster) (x y : Nat) : Nat := (y * r.width + x) * 3

def Raster.pixel (r : Raster) (x y : Nat) : Rgb :=
  (r.rgb.getD (r.place x y) 0, r.rgb.getD (r.place x y + 1) 0, r.rgb.getD (r.place x y + 2) 0)

def Raster.put (r : Raster) (x y : Nat) (px : Rgb) : Raster :=
  let i := r.place x y
  { r with rgb := ((r.rgb.set i px.1).set (i + 1) px.2.1).set (i + 2) px.2.2 }

def be32 (p : Bytes) : Nat :=
  (p.getD 0 0).toNat * 2 ^ 24 + (p.getD 1 0).toNat * 2 ^ 16 + (p.getD 2 0).toNat * 2 ^ 8 +
    (p.getD 3 0).toNat

def crcStep (c : UInt32) : UInt32 :=
  if c &&& 1 = 1 then (0xedb88320 : UInt32) ^^^ (c >>> 1) else c >>> 1

/-- An entry of the table of remainders. -/
def crcEntry (i : UInt32) : UInt32 := (List.range 8).foldl (fun c _ => crcStep c) i

def crcByte (c : UInt32) (b : UInt8) : UInt32 :=
  crcEntry ((c ^^^ b.toUInt32) &&& 0xff) ^^^ (c >>> 8)

def crc32 (p : Bytes) : Nat := (p.foldl crcByte 0xffffffff ^^^ 0xffffffff).toNat

def away (p a : Int) : Int := if p > a then p - a else a - p

def paeth (a b c : UInt8) : UInt8 :=
  let p : Int := a.toNat + b.toNat - c.toNat
  if away p a.toNat ≤ away p b.toNat ∧ away p a.toNat ≤ away p c.toNat then a
  else if away p b.toNat ≤ away p c.toNat then b
  else c

/-- The byte of a line after `cur`, from the one stored, under filter `f`; `up` is the line above,
if there is one. -/
def unfilterByte (f : UInt8) (bpp : Nat) (up : Option Bytes) (cur : Bytes) (v : UInt8) :
    Except Error UInt8 :=
  let x := cur.length
  let a := if bpp ≤ x then cur.getD (x - bpp) 0 else 0
  let b := up.elim 0 fun up => up.getD x 0
  let c := up.elim 0 fun up => if bpp ≤ x then up.getD (x - bpp) 0 else 0
  if f = 0 then .ok v
  else if f = 1 then .ok (v + a)
  else if f = 2 then .ok (v + b)
  else if f = 3 then .ok (v + UInt8.ofNat ((a.toNat + b.toNat) / 2))
  else if f = 4 then .ok (v + paeth a b c)
  else raise "png: an invalid filter type"

def unfilterLine (f : UInt8) (bpp : Nat) (up : Option Bytes) : Bytes → Bytes → Except Error Bytes
  | cur, [] => .ok cur
  | cur, v :: rest => (unfilterByte f bpp up cur v).bind fun b =>
    unfilterLine f bpp up (cur ++ [b]) rest

/-- The filters of `rows` lines of `stride` bytes reversed, each led by its filter byte. -/
def unfilter (stride bpp : Nat) : Nat → Option Bytes → Bytes → Except Error (List Bytes)
  | 0, _, _ => .ok []
  | rows + 1, up, data =>
    (unfilterLine (data.getD 0 0) bpp up [] ((data.drop 1).take stride)).bind fun line =>
      (unfilter stride bpp rows (some line) (data.drop (stride + 1))).bind fun lines =>
        .ok (line :: lines)

structure Header where
  w : Nat
  h : Nat
  depth : Nat
  color : Nat
  interlace : Nat
deriving DecidableEq

/-- What the chunks read so far gave. -/
structure Chunks where
  header : Option Header
  idat : Bytes
  palette : Bytes
deriving DecidableEq

def depthOk (color depth : Nat) : Bool :=
  (color == 0 && (depth == 1 || depth == 2 || depth == 4 || depth == 8)) ||
    (color == 3 && (depth == 1 || depth == 2 || depth == 4 || depth == 8)) ||
      ((color == 2 || color == 4 || color == 6) && depth == 8)

def readHeader (maxPixels : Nat) (data : Bytes) : Except Error Header :=
  let w := be32 data
  let h := be32 (data.drop 4)
  let depth := (data.getD 8 0).toNat
  let color := (data.getD 9 0).toNat
  let interlace := (data.getD 12 0).toNat
  if w = 0 ∨ h = 0 ∨ 0x7fffffff < w ∨ 0x7fffffff < h then raise "png: an invalid image size"
  else if data.getD 10 0 ≠ 0 ∨ data.getD 11 0 ≠ 0 ∨ 1 < interlace then
    raise "png: an unknown compression, filter or interlace method"
  else if depth = 16 then raise "png: 16-bit samples are not supported"
  else if ¬ depthOk color depth then raise "png: an invalid color type and bit depth"
  else if maxPixels < w * h then raise "png: the image has more pixels than the limit"
  else .ok ⟨w, h, depth, color, interlace⟩

def kIHDR : Bytes := [73, 72, 68, 82]

def kPLTE : Bytes := [80, 76, 84, 69]

def kIDAT : Bytes := [73, 68, 65, 84]

def kIEND : Bytes := [73, 69, 78, 68]

def readChunk (maxPixels : Nat) (type data : Bytes) (s : Chunks) : Except Error Chunks :=
  if s.header = none ∧ type ≠ kIHDR then raise "png: the first chunk is not IHDR"
  else if type = kIHDR then
    if s.header ≠ none ∨ data.length ≠ 13 then raise "png: a malformed IHDR"
    else (readHeader maxPixels data).bind fun header => .ok { s with header := some header }
  else if type = kPLTE then
    if data.length % 3 ≠ 0 ∨ data.length = 0 ∨ 768 < data.length then raise "png: a malformed PLTE"
    else .ok { s with palette := data }
  else if type = kIDAT then .ok { s with idat := s.idat ++ data }
  else .ok s

/-- The chunks from `rest` on, up to IEND. -/
def readChunks (maxPixels : Nat) : Nat → Bytes → Chunks → Except Error Chunks
  | 0, _, _ => .error .unfinished
  | fuel + 1, rest, s =>
    if rest.length < 12 then raise "png: the file ends inside a chunk"
    else if rest.length - 12 < be32 rest then
      raise "png: a chunk runs past the end of the file"
    else
      let type := (rest.drop 4).take 4
      let data := (rest.drop 8).take (be32 rest)
      if crc32 (type ++ data) ≠ be32 (rest.drop (8 + be32 rest)) then
        raise "png: a chunk's CRC fails"
      else (readChunk maxPixels type data s).bind fun s' =>
        if type = kIEND then .ok s' else readChunks maxPixels fuel (rest.drop (be32 rest + 12)) s'

structure Pass where
  x0 : Nat
  y0 : Nat
  dx : Nat
  dy : Nat
deriving DecidableEq

/-- The passes of Adam7. -/
def adam7 : List Pass :=
  [⟨0, 0, 8, 8⟩, ⟨4, 0, 8, 8⟩, ⟨0, 4, 4, 8⟩, ⟨2, 0, 4, 4⟩, ⟨0, 2, 2, 4⟩, ⟨1, 0, 2, 2⟩, ⟨0, 1, 1, 2⟩]

def whole : List Pass := [⟨0, 0, 1, 1⟩]

def Header.passes (hd : Header) : List Pass := if hd.interlace ≠ 0 then adam7 else whole

def Pass.columns (ps : Pass) (w : Nat) : Nat :=
  if ps.x0 < w then (w - ps.x0 + ps.dx - 1) / ps.dx else 0

def Pass.rows (ps : Pass) (h : Nat) : Nat :=
  if ps.y0 < h then (h - ps.y0 + ps.dy - 1) / ps.dy else 0

def Header.channels (hd : Header) : Nat :=
  if hd.color = 2 then 3 else if hd.color = 4 then 2 else if hd.color = 6 then 4 else 1

def Header.bitsPerPixel (hd : Header) : Nat := hd.channels * hd.depth

def Header.bpp (hd : Header) : Nat := (hd.bitsPerPixel + 7) / 8

def Header.stride (hd : Header) (ps : Pass) : Nat := (ps.columns hd.w * hd.bitsPerPixel + 7) / 8

def Header.passBytes (hd : Header) (ps : Pass) : Nat :=
  if ps.columns hd.w ≠ 0 ∧ ps.rows hd.h ≠ 0 then ps.rows hd.h * (hd.stride ps + 1) else 0

def Header.expected (hd : Header) : Nat := (hd.passes.map hd.passBytes).sum

def paletteEntry (palette : Bytes) (v : Nat) : Except Error Rgb :=
  if palette.length ≤ v * 3 then raise "png: a palette index past the palette"
  else .ok (palette.getD (v * 3) 0, palette.getD (v * 3 + 1) 0, palette.getD (v * 3 + 2) 0)

/-- Pixel `x` of a line as RGB. -/
def Header.pixel (hd : Header) (palette line : Bytes) (x : Nat) : Except Error Rgb :=
  if hd.depth < 8 then
    let bit := x * hd.depth
    let v := ((line.getD (bit / 8) 0).toNat >>> (8 - hd.depth - bit % 8)) &&& (2 ^ hd.depth - 1)
    if hd.color = 3 then paletteEntry palette v
    else
      let g := UInt8.ofNat (v * (255 / (2 ^ hd.depth - 1)))
      .ok (g, g, g)
  else
    let s := line.drop (x * hd.channels)
    if hd.color = 3 then paletteEntry palette (s.getD 0 0).toNat
    else if hd.channels ≤ 2 then .ok (s.getD 0 0, s.getD 0 0, s.getD 0 0)
    else .ok (s.getD 0 0, s.getD 1 0, s.getD 2 0)

/-- A pixel written: where, and its RGB. -/
structure Write where
  x : Nat
  y : Nat
  px : Rgb
deriving DecidableEq

def Header.lineWrites (hd : Header) (palette : Bytes) (ps : Pass) (y : Nat) (line : Bytes) :
    Except Error (List Write) :=
  (List.range (ps.columns hd.w)).mapM fun x =>
    (hd.pixel palette line x).map fun px => ⟨ps.x0 + x * ps.dx, ps.y0 + y * ps.dy, px⟩

def Header.linesWrites (hd : Header) (palette : Bytes) (ps : Pass) :
    Nat → List Bytes → Except Error (List Write)
  | _, [] => .ok []
  | y, line :: lines => (hd.lineWrites palette ps y line).bind fun ws =>
    (hd.linesWrites palette ps (y + 1) lines).bind fun more => .ok (ws ++ more)

/-- The pixels of the passes in the order they are written, the lines of each from `raw` on. -/
def Header.passWrites (hd : Header) (palette : Bytes) :
    List Pass → Bytes → Except Error (List Write)
  | [], _ => .ok []
  | ps :: rest, raw =>
    if ps.columns hd.w = 0 ∨ ps.rows hd.h = 0 then hd.passWrites palette rest raw
    else (unfilter (hd.stride ps) hd.bpp (ps.rows hd.h) none raw).bind fun lines =>
      (hd.linesWrites palette ps 0 lines).bind fun ws =>
        (hd.passWrites palette rest (raw.drop (ps.rows hd.h * (hd.stride ps + 1)))).bind fun more =>
          .ok (ws ++ more)

def signature : Bytes := [0x89, 80, 78, 71, 0x0d, 0x0a, 0x1a, 0x0a]

def isPng (p : Bytes) : Bool := signature.isPrefixOf p

/-- The image's size and every pixel it writes, in order. -/
def decodeWrites (p : Bytes) (maxPixels : Nat) : Except Error (Header × List Write) :=
  if ¬ isPng p then raise "png: not a PNG file"
  else (readChunks maxPixels p.length (p.drop 8) ⟨none, [], []⟩).bind fun s =>
    match s.header with
    | none => raise "png: the first chunk is not IHDR"
    | some hd =>
      if hd.color = 3 ∧ s.palette = [] then raise "png: a palette image without a PLTE"
      else if s.idat = [] then raise "png: no image data"
      else (Inflate.inflateZlib s.idat hd.expected).bind fun raw =>
        if raw.length ≠ hd.expected then raise "png: the image data is shorter than the image"
        else if 2 ^ 63 ≤ hd.w * hd.h * 3 then .error .length
        else (hd.passWrites s.palette hd.passes raw).bind fun ws => .ok (hd, ws)

def drawn (hd : Header) (ws : List Write) : Raster :=
  ws.foldl (fun img w => img.put w.x w.y w.px) (Raster.new hd.w hd.h)

def decodePng (p : Bytes) (maxPixels : Nat) : Except Error Raster :=
  (decodeWrites p maxPixels).map fun r => drawn r.1 r.2

end Png

end Llmx
