import Llmx.Png
import Llmx.Deflate

/-!
What an encoder writes: an image's samples packed into lines, the lines filtered pass by pass, and
the chunks of the file around their deflated bytes.
-/

namespace Llmx

namespace Png

open BitLists

/-- An image of samples, and its palette where its color type has one. -/
structure Image where
  header : Header
  palette : List Rgb
  sample : Nat → Nat → List Nat

/-- A color type and bit depth there is, and samples that fit them. -/
structure Image.Valid (m : Image) : Prop where
  width : 1 ≤ m.header.w ∧ m.header.w < 2 ^ 31
  height : 1 ≤ m.header.h ∧ m.header.h < 2 ^ 31
  depth : m.header.color ∈ [0, 3] ∧ m.header.depth ∈ [1, 2, 4, 8] ∨
    m.header.color ∈ [2, 4, 6] ∧ m.header.depth = 8
  interlace : m.header.interlace ≤ 1
  samples : ∀ x y, (m.sample x y).length = m.header.channels
  fits : ∀ x y, ∀ v ∈ m.sample x y, v < 2 ^ m.header.depth
  palette : m.palette.length ≤ 256
  indexed : m.header.color = 3 → m.palette ≠ [] ∧ ∀ x y, ∀ v ∈ m.sample x y, v < m.palette.length

/-- The RGB a pixel stands for. -/
def Image.rgb (m : Image) (x y : Nat) : Rgb :=
  let s := m.sample x y
  if m.header.color = 3 then m.palette.getD (s.getD 0 0) (0, 0, 0)
  else if m.header.color = 2 ∨ m.header.color = 6 then
    (UInt8.ofNat (s.getD 0 0), UInt8.ofNat (s.getD 1 0), UInt8.ofNat (s.getD 2 0))
  else
    let g := UInt8.ofNat (s.getD 0 0 * 255 / (2 ^ m.header.depth - 1))
    (g, g, g)

/-- The number whose bits these are, the highest first. -/
def highNumber (bits : List Bool) : Nat :=
  bits.foldl (fun n b => 2 * n + b.toNat) 0

/-- Bits in bytes, the highest bit of a byte first. -/
def packBits : Nat → List Bool → Bytes
  | 0, _ => []
  | n + 1, bits => UInt8.ofNat (highNumber (bits.take 8)) :: packBits n (bits.drop 8)

def paethPredictor (a b c : UInt8) : UInt8 :=
  let p : Int := a.toNat + b.toNat - c.toNat
  let pa := (p - a.toNat).natAbs
  let pb := (p - b.toNat).natAbs
  let pc := (p - c.toNat).natAbs
  if pa ≤ pb ∧ pa ≤ pc then a else if pb ≤ pc then b else c

/-- What filter `f` takes off a byte with `a` before it, `b` above it and `c` before that. -/
def predictor (f : Nat) (a b c : UInt8) : UInt8 :=
  match f with
  | 0 => 0
  | 1 => a
  | 2 => b
  | 3 => UInt8.ofNat ((a.toNat + b.toNat) / 2)
  | _ => paethPredictor a b c

/-- The byte `bpp` before place `x`, 0 before the line. -/
def before (bpp : Nat) (line : Bytes) (x : Nat) : UInt8 :=
  if bpp ≤ x then line.getD (x - bpp) 0 else 0

/-- The bytes of a line after `done` filtered, with `up` the line above, empty above the first. -/
def filterFrom (f bpp : Nat) (up : Bytes) (done : Bytes) : Bytes → Bytes
  | [] => []
  | v :: rest =>
    (v - predictor f (before bpp done done.length) (up.getD done.length 0)
      (before bpp up done.length)) :: filterFrom f bpp up (done ++ [v]) rest

/-- What an encoder is free to choose: each line's filter, the bits that fill up its last byte, and
how the deflated bytes are cut. -/
structure Choices where
  filter : Pass → Nat → Nat
  padding : Pass → Nat → Nat → Bool
  cuts : List Bytes

/-- The bits of a line of a pass, its pixels' samples one after another. -/
def Image.lineBits (m : Image) (ps : Pass) (y : Nat) : List Bool :=
  (List.range (ps.columns m.header.w)).flatMap fun x =>
    (m.sample (ps.x0 + x * ps.dx) (ps.y0 + y * ps.dy)).flatMap (highBits m.header.depth)

def Image.line (m : Image) (ch : Choices) (ps : Pass) (y : Nat) : Bytes :=
  packBits (m.header.stride ps) (m.lineBits ps y ++
    (List.range (m.header.stride ps * 8)).map (ch.padding ps y))

/-- `rows` lines of a pass from line `y` on, each led by its filter. -/
def Image.lines (m : Image) (ch : Choices) (ps : Pass) : Nat → Nat → Bytes → Bytes
  | 0, _, _ => []
  | rows + 1, y, up =>
    UInt8.ofNat (ch.filter ps y) ::
      (filterFrom (ch.filter ps y) m.header.bpp up [] (m.line ch ps y) ++
        m.lines ch ps rows (y + 1) (m.line ch ps y))

def Image.passData (m : Image) (ch : Choices) (ps : Pass) : Bytes :=
  if ps.columns m.header.w = 0 ∨ ps.rows m.header.h = 0 then []
  else m.lines ch ps (ps.rows m.header.h) 0 []

/-- What the encoder deflates. -/
def Image.data (m : Image) (ch : Choices) : Bytes :=
  m.header.passes.flatMap (m.passData ch)

def chunk (type data : Bytes) : Bytes :=
  Deflate.highBytes data.length ++ type ++ data ++ Deflate.highBytes (crc32 (type ++ data))

def Header.bytes (hd : Header) : Bytes :=
  Deflate.highBytes hd.w ++ Deflate.highBytes hd.h ++
    [UInt8.ofNat hd.depth, UInt8.ofNat hd.color, 0, 0, UInt8.ofNat hd.interlace]

def paletteBytes (palette : List Rgb) : Bytes :=
  palette.flatMap fun px => [px.1, px.2.1, px.2.2]

def Image.file (m : Image) (ch : Choices) : Bytes :=
  signature ++ (chunk kIHDR m.header.bytes ++
    ((if m.palette = [] then [] else chunk kPLTE (paletteBytes m.palette)) ++
      (ch.cuts.flatMap (chunk kIDAT) ++ chunk kIEND [])))

/-- Choices there are for an image: filters of the five types, and cuts of what a compressor makes
of its data. -/
structure Choices.For (ch : Choices) (m : Image) : Prop where
  filter : ∀ ps y, ch.filter ps y ≤ 4
  length : ∀ cut ∈ ch.cuts, cut.length < 2 ^ 32
  deflated : ∃ s : Deflate.ZlibStream, s.Valid 30 ∧ s.expand = m.data ch ∧
    ch.cuts.flatten = s.bytes (Deflate.adler32 s.expand)

theorem highNumber_go (n : Nat) (bits : List Bool) :
    bits.foldl (fun n b => 2 * n + b.toNat) n = n * 2 ^ bits.length + highNumber bits := by
  unfold highNumber
  induction bits generalizing n with
  | nil => simp
  | cons b bits ih =>
    rw [List.foldl_cons, List.foldl_cons, ih, ih (2 * 0 + b.toNat), List.length_cons, Nat.pow_succ]
    ring

theorem highNumber_append (a b : List Bool) :
    highNumber (a ++ b) = highNumber a * 2 ^ b.length + highNumber b := by
  conv_lhs => rw [highNumber, List.foldl_append]
  exact highNumber_go _ b

theorem highNumber_lt (bits : List Bool) : highNumber bits < 2 ^ bits.length := by
  induction bits with
  | nil => exact Nat.one_pos
  | cons b bits ih =>
    have happ := highNumber_append [b] bits
    have hb := Bool.toNat_le b
    have hone : highNumber [b] = b.toNat := by simp [highNumber]
    rw [hone] at happ
    rw [show b :: bits = [b] ++ bits from rfl, happ, List.length_append, Nat.pow_add]
    have hmul := Nat.mul_le_mul_right (2 ^ bits.length) hb
    simp only [List.length_singleton]
    omega

theorem highNumber_highBits (k n : Nat) : highNumber (highBits k n) = n % 2 ^ k := by
  induction k generalizing n with
  | zero => simp [highBits, highNumber, Nat.mod_one]
  | succ k ih =>
    have happ := highNumber_append [n / 2 ^ k % 2 == 1] (highBits k n)
    have hone : highNumber [n / 2 ^ k % 2 == 1] = n / 2 ^ k % 2 := by
      simp [highNumber, toNat_odd]
    rw [show highBits (k + 1) n = [n / 2 ^ k % 2 == 1] ++ highBits k n from rfl, happ, hone, ih,
      highBits_length, Nat.mod_pow_succ]
    ring

/-- A number's bits in the middle of others'. -/
theorem highNumber_middle (a v c : List Bool) :
    highNumber (a ++ v ++ c) / 2 ^ c.length % 2 ^ v.length = highNumber v := by
  have hc := highNumber_lt c
  have hv := highNumber_lt v
  rw [highNumber_append, highNumber_append, Nat.add_comm,
    Nat.add_mul_div_right _ _ (Nat.two_pow_pos _), Nat.div_eq_of_lt hc, Nat.zero_add, Nat.add_comm,
    Nat.add_mul_mod_self_right, Nat.mod_eq_of_lt hv]

theorem packBits_length (n : Nat) (bits : List Bool) : (packBits n bits).length = n := by
  induction n generalizing bits with
  | zero => rfl
  | succ n ih => simp [packBits, ih]

theorem packBits_getD {n i : Nat} (bits : List Bool) (h : i < n) :
    ((packBits n bits).getD i 0).toNat = highNumber ((bits.drop (8 * i)).take 8) := by
  induction n generalizing bits i with
  | zero => omega
  | succ n ih =>
    cases i with
    | zero =>
      have hlt := highNumber_lt (bits.take 8)
      have hle := Nat.pow_le_pow_right Nat.two_pos (List.length_take_le 8 bits)
      show (UInt8.ofNat (highNumber (bits.take 8))).toNat = _
      rw [UInt8.toNat_ofNat', Nat.mod_eq_of_lt (by omega)]
      rfl
    | succ i =>
      show ((packBits n (bits.drop 8)).getD i 0).toNat = _
      rw [ih (bits.drop 8) (by omega), List.drop_drop, show 8 * (i + 1) = 8 + 8 * i by omega]

section Blocks

variable {α β : Type} {f : α → List β} {k : Nat}

theorem flatMap_drop {l : List α} (h : ∀ a ∈ l, (f a).length = k) (i : Nat) :
    (l.flatMap f).drop (i * k) = (l.drop i).flatMap f := by
  induction l generalizing i with
  | nil => simp
  | cons a l ih =>
    cases i with
    | zero => simp
    | succ i =>
      have ha := h a List.mem_cons_self
      rw [List.flatMap_cons, Nat.succ_mul, Nat.add_comm, ← List.drop_drop,
        List.drop_left' ha, ih fun b hb => h b (List.mem_cons_of_mem _ hb)]
      rfl

theorem flatMap_length {l : List α} (h : ∀ a ∈ l, (f a).length = k) :
    (l.flatMap f).length = l.length * k := by
  induction l with
  | nil => simp
  | cons a l ih =>
    rw [List.flatMap_cons, List.length_append, h a List.mem_cons_self,
      ih fun b hb => h b (List.mem_cons_of_mem _ hb), List.length_cons, Nat.succ_mul, Nat.add_comm]

/-- Lists of one length put together: the `j`th of the `i`th. -/
theorem flatMap_getD {l : List α} (h : ∀ a ∈ l, (f a).length = k) {i j : Nat} {a : α} {d : β}
    (hi : l[i]? = some a) (hj : j < k) : (l.flatMap f).getD (i * k + j) d = (f a).getD j d := by
  obtain ⟨hlt, rfl⟩ := List.getElem?_eq_some_iff.mp hi
  have hdrop := flatMap_drop h i
  have hcons := List.drop_eq_getElem_cons hlt
  have hlen := h l[i] (List.getElem_mem hlt)
  rw [hcons, List.flatMap_cons] at hdrop
  have hget : (l.flatMap f).getD (i * k + j) d = ((l.flatMap f).drop (i * k)).getD j d := by
    rw [List.getD_eq_getElem?_getD, List.getD_eq_getElem?_getD, List.getElem?_drop]
  rw [hget, hdrop, List.getD_eq_getElem?_getD, List.getElem?_append_left (by omega),
    List.getD_eq_getElem?_getD]

end Blocks

/-- A sample in its byte, of a line of samples of `depth` bits. -/
theorem packed_sample {depth n k : Nat} {samples : List Nat} {v : Nat} (pad : List Bool)
    (hdepth : depth ∈ [1, 2, 4, 8]) (hk : samples[k]? = some v) (hv : v < 2 ^ depth)
    (hn : samples.length * depth ≤ n * 8) (hpad : n * 8 ≤ pad.length) :
    ((packBits n (samples.flatMap (highBits depth) ++ pad)).getD (k * depth / 8) 0).toNat /
        2 ^ (8 - depth - k * depth % 8) % 2 ^ depth = v ∧
      depth + k * depth % 8 ≤ 8 := by
  obtain ⟨hlt, rfl⟩ := List.getElem?_eq_some_iff.mp hk
  have hr : depth + k * depth % 8 ≤ 8 := by
    simp only [List.mem_cons, List.not_mem_nil, or_false] at hdepth
    rcases hdepth with rfl | rfl | rfl | rfl <;> omega
  have hpos : 0 < depth := by
    simp only [List.mem_cons, List.not_mem_nil, or_false] at hdepth
    omega
  have hend : (k + 1) * depth ≤ samples.length * depth := Nat.mul_le_mul_right _ hlt
  rw [Nat.succ_mul] at hend
  have hbyte : k * depth / 8 < n := by omega
  have hconst : ∀ a ∈ samples, (highBits depth a).length = depth := fun a _ => highBits_length _ _
  have hall := flatMap_length hconst
  refine ⟨?_, hr⟩
  rw [packBits_getD _ hbyte]
  have hsplit8 : 8 = k * depth % 8 + (depth + (8 - depth - k * depth % 8)) := by omega
  have hat : 8 * (k * depth / 8) + k * depth % 8 = k * depth := Nat.div_add_mod _ _
  have hbits : (samples.flatMap (highBits depth) ++ pad).drop (k * depth) =
      highBits depth samples[k] ++ ((samples.drop (k + 1)).flatMap (highBits depth) ++ pad) := by
    rw [List.drop_append_of_le_length (by omega), flatMap_drop hconst,
      List.drop_eq_getElem_cons hlt, List.flatMap_cons, List.append_assoc]
  generalize hT : (samples.flatMap (highBits depth) ++ pad).drop (8 * (k * depth / 8)) = T
  have hTr : T.drop (k * depth % 8) =
      highBits depth samples[k] ++ ((samples.drop (k + 1)).flatMap (highBits depth) ++ pad) := by
    rw [← hT, List.drop_drop, hat, hbits]
  have hmiddle : (T.drop (k * depth % 8)).take depth = highBits depth samples[k] := by
    rw [hTr]
    exact List.take_left' (highBits_length _ _)
  have hlast : ((T.drop (k * depth % 8)).drop depth).take (8 - depth - k * depth % 8) =
      ((samples.drop (k + 1)).flatMap (highBits depth) ++ pad).take
        (8 - depth - k * depth % 8) := by
    rw [hTr, List.drop_left' (highBits_length _ _)]
  have htake : T.take 8 = T.take (k * depth % 8) ++ highBits depth samples[k] ++
      ((samples.drop (k + 1)).flatMap (highBits depth) ++ pad).take
        (8 - depth - k * depth % 8) := by
    conv_lhs => rw [hsplit8, List.take_add, List.take_add, hmiddle, hlast]
    rw [List.append_assoc]
  have hlen : (((samples.drop (k + 1)).flatMap (highBits depth) ++ pad).take
      (8 - depth - k * depth % 8)).length = 8 - depth - k * depth % 8 := by
    rw [List.length_take, List.length_append]
    omega
  have hmid := highNumber_middle (T.take (k * depth % 8)) (highBits depth samples[k])
    (((samples.drop (k + 1)).flatMap (highBits depth) ++ pad).take (8 - depth - k * depth % 8))
  rw [hlen, highBits_length] at hmid
  rw [htake, hmid, highNumber_highBits, Nat.mod_eq_of_lt hv]

theorem away_eq (p a : Int) : away p a = ((p - a).natAbs : Int) := by
  unfold away
  split <;> omega

theorem paeth_eq (a b c : UInt8) : paeth a b c = paethPredictor a b c := by
  unfold paeth paethPredictor
  simp only [away_eq, Nat.cast_le]

/-- A filtered byte is undone where the bytes before it and above it are there again. -/
theorem unfilterByte_filtered {f : Nat} (hf : f ≤ 4) (bpp : Nat) {up : Option Bytes} (done : Bytes)
    (v : UInt8) :
    unfilterByte (UInt8.ofNat f) bpp up done
      (v - predictor f (before bpp done done.length) ((up.getD []).getD done.length 0)
        (before bpp (up.getD []) done.length)) = .ok v := by
  have hb : up.elim 0 (fun up => up.getD done.length 0) = (up.getD []).getD done.length 0 := by
    cases up <;> simp
  have hc : up.elim 0 (fun up => if bpp ≤ done.length then up.getD (done.length - bpp) 0 else 0) =
      before bpp (up.getD []) done.length := by
    cases up <;> simp [before]
  unfold unfilterByte
  dsimp only
  rw [hb, hc]
  have hcases : f = 0 ∨ f = 1 ∨ f = 2 ∨ f = 3 ∨ f = 4 := by omega
  rcases hcases with rfl | rfl | rfl | rfl | rfl
  · simp [predictor]
  · rw [if_neg (by decide), if_pos (by decide)]
    exact congrArg Except.ok (UInt8.sub_add_cancel _ _)
  · rw [if_neg (by decide), if_neg (by decide), if_pos (by decide)]
    exact congrArg Except.ok (UInt8.sub_add_cancel _ _)
  · rw [if_neg (by decide), if_neg (by decide), if_neg (by decide), if_pos (by decide)]
    exact congrArg Except.ok (UInt8.sub_add_cancel _ _)
  · rw [if_neg (by decide), if_neg (by decide), if_neg (by decide), if_neg (by decide),
      if_pos (by decide), paeth_eq]
    exact congrArg Except.ok (UInt8.sub_add_cancel _ _)

theorem unfilterLine_filterFrom {f : Nat} (hf : f ≤ 4) (bpp : Nat) (up : Option Bytes)
    (done line : Bytes) :
    unfilterLine (UInt8.ofNat f) bpp up done (filterFrom f bpp (up.getD []) done line) =
      .ok (done ++ line) := by
  induction line generalizing done with
  | nil =>
    rw [List.append_nil]
    rfl
  | cons v line ih =>
    show (unfilterByte (UInt8.ofNat f) bpp up done _).bind _ = _
    rw [unfilterByte_filtered hf]
    show unfilterLine _ bpp up (done ++ [v]) (filterFrom f bpp (up.getD []) (done ++ [v]) line) = _
    rw [ih, List.append_assoc]
    rfl

theorem filterFrom_length (f bpp : Nat) (up done line : Bytes) :
    (filterFrom f bpp up done line).length = line.length := by
  induction line generalizing done with
  | nil => rfl
  | cons v line ih => simp [filterFrom, ih]

section Drawn

variable {m : Image} {ch : Choices} {ps : Pass}

theorem line_length (m : Image) (ch : Choices) (ps : Pass) (y : Nat) :
    (m.line ch ps y).length = m.header.stride ps := packBits_length _ _

theorem lines_length (m : Image) (ch : Choices) (ps : Pass) (rows y : Nat) (up : Bytes) :
    (m.lines ch ps rows y up).length = rows * (m.header.stride ps + 1) := by
  induction rows generalizing y up with
  | zero => simp [Image.lines]
  | succ rows ih =>
    simp only [Image.lines, List.length_cons, List.length_append, filterFrom_length, line_length,
      ih]
    rw [Nat.succ_mul]
    omega

/-- The lines of a pass come back from their filtered bytes, whatever follows these. -/
theorem unfilter_lines (hfilter : ∀ ps y, ch.filter ps y ≤ 4) (rows y : Nat) (up : Option Bytes)
    (rest : Bytes) :
    unfilter (m.header.stride ps) m.header.bpp rows up (m.lines ch ps rows y (up.getD []) ++ rest) =
      .ok ((List.range' y rows).map (m.line ch ps)) := by
  induction rows generalizing y up with
  | zero => rfl
  | succ rows ih =>
    have hlen := filterFrom_length (ch.filter ps y) m.header.bpp (up.getD []) [] (m.line ch ps y)
    rw [line_length] at hlen
    have hline : (filterFrom (ch.filter ps y) m.header.bpp (up.getD []) [] (m.line ch ps y) ++
        m.lines ch ps rows (y + 1) (m.line ch ps y) ++ rest).take (m.header.stride ps) =
        filterFrom (ch.filter ps y) m.header.bpp (up.getD []) [] (m.line ch ps y) := by
      rw [List.append_assoc]
      exact List.take_left' hlen
    have hrest : (filterFrom (ch.filter ps y) m.header.bpp (up.getD []) [] (m.line ch ps y) ++
        m.lines ch ps rows (y + 1) (m.line ch ps y) ++ rest).drop (m.header.stride ps) =
        m.lines ch ps rows (y + 1) (m.line ch ps y) ++ rest := by
      rw [List.append_assoc]
      exact List.drop_left' hlen
    unfold unfilter
    simp only [Image.lines, List.cons_append, List.getD_cons_zero, List.drop_succ_cons,
      List.drop_zero]
    rw [hline, hrest, unfilterLine_filterFrom (hfilter ps y)]
    show (unfilter _ _ rows (some (m.line ch ps y)) _).bind _ = _
    have hnext := ih (y + 1) (some (m.line ch ps y))
    rw [Option.getD_some] at hnext
    rw [hnext]
    rfl

/-- The samples of a line of a pass. -/
def Image.rowSamples (m : Image) (ps : Pass) (y : Nat) : List Nat :=
  (List.range (ps.columns m.header.w)).flatMap fun x =>
    m.sample (ps.x0 + x * ps.dx) (ps.y0 + y * ps.dy)

theorem lineBits_eq (m : Image) (ps : Pass) (y : Nat) :
    m.lineBits ps y = (m.rowSamples ps y).flatMap (highBits m.header.depth) := by
  unfold Image.lineBits Image.rowSamples
  rw [List.flatMap_assoc]

theorem rowSamples_length (hm : m.Valid) (ps : Pass) (y : Nat) :
    (m.rowSamples ps y).length = ps.columns m.header.w * m.header.channels := by
  unfold Image.rowSamples
  rw [flatMap_length fun x _ => hm.samples _ _, List.length_range]

theorem rowSamples_get (hm : m.Valid) (ps : Pass) (y : Nat) {x c : Nat}
    (hx : x < ps.columns m.header.w) (hc : c < m.header.channels) :
    (m.rowSamples ps y)[x * m.header.channels + c]? =
      some ((m.sample (ps.x0 + x * ps.dx) (ps.y0 + y * ps.dy)).getD c 0) := by
  have hlen := rowSamples_length hm ps y
  have hmul : x * m.header.channels + m.header.channels ≤
      ps.columns m.header.w * m.header.channels := by
    rw [← Nat.succ_mul]
    exact Nat.mul_le_mul_right _ hx
  have hlt : x * m.header.channels + c < (m.rowSamples ps y).length := by omega
  have hget := flatMap_getD (l := List.range (ps.columns m.header.w))
    (f := fun x => m.sample (ps.x0 + x * ps.dx) (ps.y0 + y * ps.dy)) (d := 0)
    (fun x _ => hm.samples _ _) (List.getElem?_range hx) hc
  rw [← hget, List.getElem?_eq_getElem hlt, List.getD_eq_getElem?_getD]
  exact congrArg some (by rw [← Image.rowSamples, List.getElem?_eq_getElem hlt]; rfl)

theorem depth_mem (hm : m.Valid) : m.header.depth ∈ [1, 2, 4, 8] := by
  rcases hm.depth with h | h
  · exact h.2
  · rw [h.2]
    simp

/-- A sample of a line, in its byte. -/
theorem line_sample (hm : m.Valid) (y : Nat) {x c : Nat} (hx : x < ps.columns m.header.w)
    (hc : c < m.header.channels) :
    ((m.line ch ps y).getD ((x * m.header.channels + c) * m.header.depth / 8) 0).toNat /
        2 ^ (8 - m.header.depth - (x * m.header.channels + c) * m.header.depth % 8) %
          2 ^ m.header.depth =
      (m.sample (ps.x0 + x * ps.dx) (ps.y0 + y * ps.dy)).getD c 0 := by
  have hlen := rowSamples_length hm ps y
  have hget := rowSamples_get hm ps y hx hc
  have hfits : (m.sample (ps.x0 + x * ps.dx) (ps.y0 + y * ps.dy)).getD c 0 <
      2 ^ m.header.depth := by
    have hcl := hm.samples (ps.x0 + x * ps.dx) (ps.y0 + y * ps.dy)
    rw [List.getD_eq_getElem?_getD, List.getElem?_eq_getElem (by omega)]
    exact hm.fits _ _ _ (List.getElem_mem _)
  have hroom : (m.rowSamples ps y).length * m.header.depth ≤ m.header.stride ps * 8 := by
    rw [hlen, Nat.mul_assoc]
    unfold Header.stride Header.bitsPerPixel
    omega
  have h := packed_sample ((List.range (m.header.stride ps * 8)).map (ch.padding ps y))
    (depth_mem hm) hget hfits hroom (by rw [List.length_map, List.length_range])
  unfold Image.line
  rw [lineBits_eq]
  exact h.1

theorem paletteBytes_length (palette : List Rgb) :
    (paletteBytes palette).length = palette.length * 3 :=
  flatMap_length fun _ _ => rfl

theorem paletteEntry_bytes {palette : List Rgb} {v : Nat} (hv : v < palette.length) :
    paletteEntry (paletteBytes palette) v = .ok (palette.getD v (0, 0, 0)) := by
  have hget : ∀ c < 3, (paletteBytes palette).getD (v * 3 + c) 0 =
      [palette[v].1, palette[v].2.1, palette[v].2.2].getD c 0 := fun c hc =>
    flatMap_getD (f := fun px : Rgb => [px.1, px.2.1, px.2.2]) (fun _ _ => rfl)
      (List.getElem?_eq_getElem hv) hc
  unfold paletteEntry
  rw [if_neg (by rw [paletteBytes_length]; omega), hget 1 (by decide), hget 2 (by decide),
    show v * 3 = v * 3 + 0 from rfl, hget 0 (by decide)]
  have hentry : palette.getD v (0, 0, 0) = palette[v] := by
    rw [List.getD_eq_getElem?_getD, List.getElem?_eq_getElem hv]
    rfl
  rw [hentry]
  rfl

/-- A pixel of a line is read as the RGB of its sample. -/
theorem pixel_line (hm : m.Valid) (y : Nat) {x : Nat} (hx : x < ps.columns m.header.w) :
    m.header.pixel (paletteBytes m.palette) (m.line ch ps y) x =
      .ok (m.rgb (ps.x0 + x * ps.dx) (ps.y0 + y * ps.dy)) := by
  have hsample : ∀ c < m.header.channels,
      ((m.line ch ps y).getD ((x * m.header.channels + c) * m.header.depth / 8) 0).toNat /
          2 ^ (8 - m.header.depth - (x * m.header.channels + c) * m.header.depth % 8) %
            2 ^ m.header.depth =
        (m.sample (ps.x0 + x * ps.dx) (ps.y0 + y * ps.dy)).getD c 0 := fun c hc =>
    line_sample hm y hx hc
  have hindex : ∀ c < m.header.channels, m.header.color = 3 →
      (m.sample (ps.x0 + x * ps.dx) (ps.y0 + y * ps.dy)).getD c 0 < m.palette.length := by
    intro c hc hcolor
    have hcl := hm.samples (ps.x0 + x * ps.dx) (ps.y0 + y * ps.dy)
    rw [List.getD_eq_getElem?_getD, List.getElem?_eq_getElem (by omega)]
    exact (hm.indexed hcolor).2 _ _ _ (List.getElem_mem _)
  unfold Header.pixel Image.rgb
  generalize m.sample (ps.x0 + x * ps.dx) (ps.y0 + y * ps.dy) = s at *
  dsimp only
  by_cases hdepth : m.header.depth < 8
  · have hcolor : m.header.color ∈ [0, 3] ∧ m.header.depth ∈ [1, 2, 4, 8] := by
      rcases hm.depth with h | h
      · exact h
      · omega
    have hchannels : m.header.channels = 1 := by
      unfold Header.channels
      simp only [List.mem_cons, List.not_mem_nil, or_false] at hcolor
      split_ifs <;> omega
    have hv := hsample 0 (by omega)
    have hi := hindex 0 (by omega)
    rw [hchannels, Nat.mul_one, Nat.add_zero] at hv
    rw [if_pos hdepth, Nat.shiftRight_eq_div_pow, Nat.and_two_pow_sub_one_eq_mod, hv]
    by_cases hc3 : m.header.color = 3
    · rw [if_pos hc3, if_pos hc3, paletteEntry_bytes (hi hc3)]
    · have hc0 : ¬ (m.header.color = 2 ∨ m.header.color = 6) := by
        simp only [List.mem_cons, List.not_mem_nil, or_false] at hcolor
        omega
      rw [if_neg hc3, if_neg hc3, if_neg hc0]
      have hscale : s.getD 0 0 * (255 / (2 ^ m.header.depth - 1)) =
          s.getD 0 0 * 255 / (2 ^ m.header.depth - 1) := by
        have hd := hcolor.2
        simp only [List.mem_cons, List.not_mem_nil, or_false] at hd
        rcases hd with hd | hd | hd | hd <;> rw [hd] <;> omega
      rw [hscale]
  · have hd8 : m.header.depth = 8 := by
      have hd := depth_mem hm
      simp only [List.mem_cons, List.not_mem_nil, or_false] at hd
      omega
    have hbyte : ∀ c < m.header.channels,
        ((m.line ch ps y).drop (x * m.header.channels)).getD c 0 = UInt8.ofNat (s.getD c 0) := by
      intro c hc
      have hv := hsample c hc
      rw [hd8, Nat.mul_div_cancel _ (by decide), Nat.mul_mod_left, Nat.sub_self,
        Nat.pow_zero, Nat.div_one] at hv
      rw [List.getD_eq_getElem?_getD, List.getElem?_drop, ← List.getD_eq_getElem?_getD, ← hv]
      apply UInt8.toNat_inj.mp
      rw [UInt8.toNat_ofNat', Nat.mod_mod]
      have hlt := UInt8.toNat_lt ((m.line ch ps y).getD (x * m.header.channels + c) 0)
      omega
    rw [if_neg hdepth]
    by_cases hc3 : m.header.color = 3
    · have hone : m.header.channels = 1 := by
        unfold Header.channels
        split_ifs <;> omega
      have hi := hindex 0 (by omega) hc3
      have hfit := hm.palette
      rw [if_pos hc3, if_pos hc3, hbyte 0 (by omega), UInt8.toNat_ofNat',
        Nat.mod_eq_of_lt (by omega), paletteEntry_bytes hi]
    · rw [if_neg hc3, if_neg hc3, hd8]
      by_cases htwo : m.header.channels ≤ 2
      · have hno : ¬ (m.header.color = 2 ∨ m.header.color = 6) := by
          unfold Header.channels at htwo
          split_ifs at htwo <;> omega
        have hpos : 0 < m.header.channels := by
          unfold Header.channels
          split_ifs <;> omega
        rw [if_pos htwo, if_neg hno, hbyte 0 hpos]
        have hscale : s.getD 0 0 * 255 / (2 ^ 8 - 1) = s.getD 0 0 := by omega
        rw [hscale]
      · have hyes : m.header.color = 2 ∨ m.header.color = 6 := by
          unfold Header.channels at htwo
          split_ifs at htwo <;> omega
        rw [if_neg htwo, if_pos hyes, hbyte 0 (by omega), hbyte 1 (by omega), hbyte 2 (by omega)]

end Drawn

end Png

end Llmx
