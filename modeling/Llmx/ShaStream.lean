import Llmx.ReplySplit
import Mathlib.Algebra.Order.Ring.Int

namespace Llmx

namespace Hub

def k256 : List UInt32 := [
  0x428a2f98, 0x71374491, 0xb5c0fbcf, 0xe9b5dba5, 0x3956c25b, 0x59f111f1, 0x923f82a4, 0xab1c5ed5,
  0xd807aa98, 0x12835b01, 0x243185be, 0x550c7dc3, 0x72be5d74, 0x80deb1fe, 0x9bdc06a7, 0xc19bf174,
  0xe49b69c1, 0xefbe4786, 0x0fc19dc6, 0x240ca1cc, 0x2de92c6f, 0x4a7484aa, 0x5cb0a9dc, 0x76f988da,
  0x983e5152, 0xa831c66d, 0xb00327c8, 0xbf597fc7, 0xc6e00bf3, 0xd5a79147, 0x06ca6351, 0x14292967,
  0x27b70a85, 0x2e1b2138, 0x4d2c6dfc, 0x53380d13, 0x650a7354, 0x766a0abb, 0x81c2c92e, 0x92722c85,
  0xa2bfe8a1, 0xa81a664b, 0xc24b8b70, 0xc76c51a3, 0xd192e819, 0xd6990624, 0xf40e3585, 0x106aa070,
  0x19a4c116, 0x1e376c08, 0x2748774c, 0x34b0bcb5, 0x391c0cb3, 0x4ed8aa4a, 0x5b9cca4f, 0x682e6ff3,
  0x748f82ee, 0x78a5636f, 0x84c87814, 0x8cc70208, 0x90befffa, 0xa4506ceb, 0xbef9a3f7, 0xc67178f2]

def rotate (x n : UInt32) : UInt32 := (x >>> n) ||| (x <<< (32 - n))

structure Words where
  a : UInt32
  b : UInt32
  c : UInt32
  d : UInt32
  e : UInt32
  f : UInt32
  g : UInt32
  h : UInt32
deriving DecidableEq, Repr

def Words.add (s t : Words) : Words :=
  ⟨s.a + t.a, s.b + t.b, s.c + t.c, s.d + t.d, s.e + t.e, s.f + t.f, s.g + t.g, s.h + t.h⟩

/-- A block's word `i`, its first byte the highest. -/
def blockWord (data : Bytes) (i : Nat) : UInt32 :=
  ((data.getD (4 * i) 0).toUInt32 <<< 24) ||| ((data.getD (4 * i + 1) 0).toUInt32 <<< 16) |||
    ((data.getD (4 * i + 2) 0).toUInt32 <<< 8) ||| (data.getD (4 * i + 3) 0).toUInt32

def blockWords (data : Bytes) : List UInt32 := (List.range 16).map (blockWord data)

def extend256 (w : List UInt32) : List UInt32 :=
  let i := w.length
  let x := w.getD (i - 15) 0
  let y := w.getD (i - 2) 0
  let s0 := rotate x 7 ^^^ rotate x 18 ^^^ (x >>> 3)
  let s1 := rotate y 17 ^^^ rotate y 19 ^^^ (y >>> 10)
  w ++ [w.getD (i - 16) 0 + s0 + w.getD (i - 7) 0 + s1]

def round256 (w : List UInt32) (s : Words) (i : Nat) : Words :=
  let s1 := rotate s.e 6 ^^^ rotate s.e 11 ^^^ rotate s.e 25
  let t1 := s.h + s1 + ((s.e &&& s.f) ^^^ (~~~s.e &&& s.g)) + k256.getD i 0 + w.getD i 0
  let s0 := rotate s.a 2 ^^^ rotate s.a 13 ^^^ rotate s.a 22
  let t2 := s0 + ((s.a &&& s.b) ^^^ (s.a &&& s.c) ^^^ (s.b &&& s.c))
  ⟨t1 + t2, s.a, s.b, s.c, s.d + t1, s.e, s.f, s.g⟩

def block256 (state : Words) (data : Bytes) : Words :=
  state.add ((List.range 64).foldl (round256 (extend256^[48] (blockWords data))) state)

def extend1 (w : List UInt32) : List UInt32 :=
  let i := w.length
  w ++ [rotate (w.getD (i - 3) 0 ^^^ w.getD (i - 8) 0 ^^^ w.getD (i - 14) 0 ^^^ w.getD (i - 16) 0) 31]

/-- A round of the five words; the others stay zero. -/
def round1 (w : List UInt32) (s : Words) (i : Nat) : Words :=
  let f := if i < 20 then (s.b &&& s.c) ||| (~~~s.b &&& s.d)
    else if i < 40 ∨ 60 ≤ i then s.b ^^^ s.c ^^^ s.d
    else (s.b &&& s.c) ||| (s.b &&& s.d) ||| (s.c &&& s.d)
  let k := if i < 20 then 0x5a827999 else if i < 40 then 0x6ed9eba1
    else if i < 60 then 0x8f1bbcdc else 0xca62c1d6
  ⟨rotate s.a 27 + f + s.e + k + w.getD i 0, s.a, rotate s.b 2, s.c, s.d, 0, 0, 0⟩

def block1 (state : Words) (data : Bytes) : Words :=
  state.add ((List.range 80).foldl (round1 (extend1^[64] (blockWords data))) state)

def blocks (sha256 : Bool) : Nat → Words → Bytes → Words
  | 0, state, _ => state
  | n + 1, state, data =>
    blocks sha256 n (if sha256 then block256 state data else block1 state data) (data.drop 64)

/-- A hash under way; `pending` holds the bytes used of its block. -/
structure ShaStream where
  sha256 : Bool
  state : Words
  pending : Bytes
  bytes : Nat
deriving DecidableEq, Repr

def firstWords (sha256 : Bool) : Words :=
  if sha256 then
    ⟨0x6a09e667, 0xbb67ae85, 0x3c6ef372, 0xa54ff53a, 0x510e527f, 0x9b05688c, 0x1f83d9ab, 0x5be0cd19⟩
  else ⟨0x67452301, 0xefcdab89, 0x98badcfe, 0x10325476, 0xc3d2e1f0, 0, 0, 0⟩

namespace ShaStream

def new (sha256 : Bool) : ShaStream := ⟨sha256, firstWords sha256, [], 0⟩

/-- The block begun, hashed once it is full. -/
def close (s : ShaStream) (pending rest : Bytes) : ShaStream × Bytes :=
  if pending.length = 64 then
    ({ s with state := blocks s.sha256 1 s.state pending, pending := [] }, rest)
  else ({ s with pending := pending }, rest)

/-- The block begun filled up, with what is left of the data. -/
def topUp (s : ShaStream) (data : Bytes) : ShaStream × Bytes :=
  if s.pending.length ≠ 0 then
    s.close (s.pending ++ data.take (min data.length (64 - s.pending.length)))
      (data.drop (min data.length (64 - s.pending.length)))
  else (s, data)

def whole (s : ShaStream) (data : Bytes) : ShaStream × Bytes :=
  if 64 ≤ data.length then
    ({ s with state := blocks s.sha256 (data.length / 64) s.state data },
      data.drop (data.length / 64 * 64))
  else (s, data)

def keep (s : ShaStream) (data : Bytes) : ShaStream :=
  if data.length ≠ 0 then { s with pending := data } else s

def absorb (s : ShaStream) (data : Bytes) : ShaStream :=
  let topped := s.topUp data
  let left := topped.1.whole topped.2
  left.1.keep left.2

/-- The hash over more data; too much of it is refused. -/
def update (s : ShaStream) (data : Bytes) : Option ShaStream :=
  if data.length = 0 then some s
  else if (2 ^ 64 - 1) / 8 - s.bytes < data.length then none
  else some (absorb { s with bytes := s.bytes + data.length } data)

def hexDigits : Bytes := ascii "0123456789abcdef".toList

def hexWord (w : UInt32) : Bytes :=
  [28, 24, 20, 16, 12, 8, 4, 0].map fun k : UInt32 => hexDigits.getD ((w >>> k) &&& 15).toNat 0

def zeros (n : Nat) : Bytes := List.replicate n 0

/-- The blocks that end a hash, from its last bytes on and the length in bits. -/
def lastBlocks (pending : Bytes) (bits : Nat) : Nat × Bytes :=
  let ended := pending ++ [0x80]
  let whole := if 56 < ended.length then ended ++ zeros (64 - ended.length) else []
  let tail := if 56 < ended.length then [] else ended
  (whole.length / 64 + 1, whole ++ tail ++ zeros (56 - tail.length) ++
    [56, 48, 40, 32, 24, 16, 8, 0].map fun k => UInt8.ofNat (bits >>> k))

def hex (s : ShaStream) : Bytes :=
  let (n, data) := lastBlocks s.pending (s.bytes * 8)
  let t := blocks s.sha256 n s.state data
  ([t.a, t.b, t.c, t.d, t.e] ++ if s.sha256 then [t.f, t.g, t.h] else []).flatMap hexWord

/-- The hash of a whole message: its blocks one after another, and what is left of it. -/
def ofBytes (sha256 : Bool) (m : Bytes) : ShaStream :=
  ⟨sha256, blocks sha256 (m.length / 64) (firstWords sha256) m, m.drop (m.length / 64 * 64),
    m.length⟩

theorem blocks_add (sha256 : Bool) (n k : Nat) (state : Words) (data : Bytes) :
    blocks sha256 (n + k) state data =
      blocks sha256 k (blocks sha256 n state data) (data.drop (n * 64)) := by
  induction n generalizing state data with
  | zero => simp [blocks]
  | succ n ih =>
    rw [Nat.succ_add, blocks, blocks, ih, List.drop_drop, Nat.succ_mul, Nat.add_comm 64]

theorem block_take (sha256 : Bool) (state : Words) {data data' : Bytes}
    (h : data.take 64 = data'.take 64) :
    (if sha256 then block256 state data else block1 state data) =
      if sha256 then block256 state data' else block1 state data' := by
  have hget : ∀ j < 64, data.getD j 0 = data'.getD j 0 := by
    intro j hj
    have hj' := congrArg (fun l => l[j]?) h
    simp only [List.getElem?_take, if_pos hj] at hj'
    rw [List.getD_eq_getElem?_getD, List.getD_eq_getElem?_getD, hj']
  have hwords : blockWords data = blockWords data' := by
    apply List.map_congr_left
    intro i hi
    have hi := List.mem_range.mp hi
    unfold blockWord
    rw [hget (4 * i) (by omega), hget (4 * i + 1) (by omega), hget (4 * i + 2) (by omega),
      hget (4 * i + 3) (by omega)]
  unfold block256 block1
  rw [hwords]

theorem blocks_append (sha256 : Bool) (n : Nat) (state : Words) {data : Bytes}
    (h : n * 64 ≤ data.length) (more : Bytes) :
    blocks sha256 n state (data ++ more) = blocks sha256 n state data := by
  induction n generalizing state data with
  | zero => rfl
  | succ n ih =>
    have hlen : 64 ≤ data.length := by omega
    have htake : (data ++ more).take 64 = data.take 64 := List.take_append_of_le_length hlen
    rw [blocks, blocks, block_take sha256 state htake, List.drop_append_of_le_length hlen]
    apply ih
    rw [List.length_drop]
    omega

/-- A stream over the blocks of `m`, with the rest of it kept. -/
structure Over (s : ShaStream) (m : Bytes) : Prop where
  state : s.state = blocks s.sha256 (m.length / 64) (firstWords s.sha256) m
  pending : s.pending = m.drop (m.length / 64 * 64)

variable {s : ShaStream} {m data : Bytes}

theorem Over.pending_length (h : s.Over m) : s.pending.length = m.length % 64 := by
  rw [h.pending, List.length_drop]
  omega

theorem drop_whole_append (m data : Bytes) : (m ++ data).drop (m.length / 64 * 64) =
    m.drop (m.length / 64 * 64) ++ data :=
  List.drop_append_of_le_length (by omega)

/-- A message that goes on within the block begun. -/
theorem Over.short (h : s.Over m) (hlen : m.length % 64 + data.length < 64) (total : Nat) :
    Over ⟨s.sha256, s.state, s.pending ++ data, total⟩ (m ++ data) := by
  have hdiv : (m ++ data).length / 64 = m.length / 64 := by
    rw [List.length_append]
    omega
  constructor
  · show s.state = blocks s.sha256 _ _ _
    rw [hdiv, blocks_append s.sha256 (m.length / 64) _ (by omega) data]
    exact h.state
  · show s.pending ++ data = _
    rw [hdiv, drop_whole_append, h.pending]

/-- A message that goes on to the end of a block. -/
theorem Over.whole {n : Nat} (h : s.Over m) (hlen : m.length % 64 + data.length = n * 64)
    (total : Nat) :
    Over ⟨s.sha256, blocks s.sha256 n s.state (s.pending ++ data), [], total⟩ (m ++ data) := by
  have hdiv : (m ++ data).length / 64 = m.length / 64 + n := by
    rw [List.length_append]
    omega
  constructor
  · show blocks s.sha256 n s.state _ = blocks s.sha256 _ _ _
    rw [hdiv, blocks_add, drop_whole_append,
      blocks_append s.sha256 (m.length / 64) (firstWords s.sha256) (by omega) data, h.state, h.pending]
  · show [] = _
    rw [hdiv]
    apply Eq.symm
    apply List.drop_eq_nil_of_le
    rw [List.length_append]
    omega

/-- The stream `t` is `s` over some of the data too, with `rest` of it left. -/
structure Took (s : ShaStream) (m data : Bytes) (t : ShaStream) (rest : Bytes) : Prop where
  fed : ∃ d, data = d ++ rest ∧ t.Over (m ++ d)
  sha256_eq : t.sha256 = s.sha256
  bytes_eq : t.bytes = s.bytes
  none : t.pending = [] ∨ rest = []

theorem Over.topUp (h : s.Over m) (data : Bytes) :
    Took s m data (s.topUp data).1 (s.topUp data).2 := by
  have hpending := h.pending_length
  unfold ShaStream.topUp
  split
  next hne =>
    have hsplit := (List.take_append_drop (min data.length (64 - s.pending.length)) data).symm
    have htake : (data.take (min data.length (64 - s.pending.length))).length =
        min data.length (64 - s.pending.length) := by
      rw [List.length_take]
      omega
    unfold close
    split
    next hfull =>
      rw [List.length_append] at hfull
      have hlen : m.length % 64 +
          (data.take (min data.length (64 - s.pending.length))).length = 1 * 64 := by omega
      have hone := h.whole hlen s.bytes
      exact ⟨⟨_, hsplit, hone⟩, rfl, rfl, .inl rfl⟩
    next hpart =>
      rw [List.length_append] at hpart
      have hlen : m.length % 64 +
          (data.take (min data.length (64 - s.pending.length))).length < 64 := by omega
      have hshort := h.short hlen s.bytes
      refine ⟨⟨_, hsplit, hshort⟩, rfl, rfl, .inr (List.drop_eq_nil_of_le ?_)⟩
      omega
  next hzero =>
    refine ⟨⟨[], rfl, ?_⟩, rfl, rfl, .inl ?_⟩
    · rw [List.append_nil]
      exact h
    · exact List.length_eq_zero_iff.mp (not_not.mp hzero)

theorem Over.wholeBlocks (h : s.Over m) (hnone : s.pending = [] ∨ data = []) :
    Took s m data (s.whole data).1 (s.whole data).2 ∧ (s.whole data).2.length < 64 := by
  have hpending := h.pending_length
  unfold ShaStream.whole
  split
  next hle =>
    have hnil : s.pending = [] := by
      rcases hnone with hnil | hnil
      · exact hnil
      · rw [hnil] at hle
        simp at hle
    rw [hnil, List.length_nil] at hpending
    have hsplit := (List.take_append_drop (data.length / 64 * 64) data).symm
    have htake : (data.take (data.length / 64 * 64)).length = data.length / 64 * 64 := by
      rw [List.length_take]
      omega
    have hlen : m.length % 64 + (data.take (data.length / 64 * 64)).length =
        data.length / 64 * 64 := by omega
    have hover := h.whole hlen s.bytes
    have hblocks := blocks_append s.sha256 (data.length / 64) s.state (Nat.le_of_eq htake.symm)
      (data.drop (data.length / 64 * 64))
    rw [← hsplit] at hblocks
    rw [hnil, List.nil_append, ← hblocks] at hover
    refine ⟨⟨⟨_, hsplit, ?_⟩, rfl, rfl, .inl hnil⟩, ?_⟩
    · rw [hnil]
      exact hover
    · rw [List.length_drop]
      omega
  next hlt =>
    refine ⟨⟨⟨[], rfl, ?_⟩, rfl, rfl, hnone⟩, Nat.lt_of_not_le hlt⟩
    rw [List.append_nil]
    exact h

theorem Over.keep (h : s.Over m) (hnone : s.pending = [] ∨ data = []) (hlen : data.length < 64) :
    (s.keep data).Over (m ++ data) := by
  have hpending := h.pending_length
  unfold ShaStream.keep
  split
  next hne =>
    have hnil : s.pending = [] := hnone.resolve_right fun hnil => hne (by rw [hnil]; rfl)
    rw [hnil, List.length_nil] at hpending
    have hshort := h.short (show m.length % 64 + data.length < 64 by omega) s.bytes
    rw [hnil, List.nil_append] at hshort
    exact hshort
  next hzero =>
    rw [List.length_eq_zero_iff.mp (not_not.mp hzero), List.append_nil]
    exact h

theorem keep_sha256 (s : ShaStream) (data : Bytes) : (s.keep data).sha256 = s.sha256 := by
  unfold ShaStream.keep
  split_ifs <;> rfl

theorem keep_bytes (s : ShaStream) (data : Bytes) : (s.keep data).bytes = s.bytes := by
  unfold ShaStream.keep
  split_ifs <;> rfl

theorem Over.absorb (h : s.Over m) (data : Bytes) :
    (s.absorb data).Over (m ++ data) ∧ (s.absorb data).sha256 = s.sha256 ∧
      (s.absorb data).bytes = s.bytes := by
  obtain ⟨⟨d, hd, hover⟩, hsha, hbytes, hnone⟩ := h.topUp data
  obtain ⟨⟨⟨e, he, hover⟩, hsha', hbytes', hnone'⟩, hlt⟩ := hover.wholeBlocks hnone
  have hlast := hover.keep hnone' hlt
  rw [List.append_assoc, List.append_assoc, ← he, ← hd] at hlast
  exact ⟨hlast, (keep_sha256 _ _).trans (hsha'.trans hsha),
    (keep_bytes _ _).trans (hbytes'.trans hbytes)⟩

theorem Over.eq_ofBytes (h : s.Over m) {sha256 : Bool} (hsha : s.sha256 = sha256)
    (hbytes : s.bytes = m.length) : s = ofBytes sha256 m := by
  obtain ⟨own, state, pending, bytes⟩ := s
  obtain ⟨hstate, hpending⟩ := h
  have hsha : own = sha256 := hsha
  have hbytes : bytes = m.length := hbytes
  have hstate : state = blocks own (m.length / 64) (firstWords own) m := hstate
  have hpending : pending = m.drop (m.length / 64 * 64) := hpending
  unfold ofBytes
  rw [hstate, hpending, hbytes, hsha]

/-- Data hashed after a message is hashed as its end. -/
theorem update_ofBytes (sha256 : Bool) (hfits : m.length + data.length ≤ (2 ^ 64 - 1) / 8) :
    (ofBytes sha256 m).update data = some (ofBytes sha256 (m ++ data)) := by
  unfold update
  split
  next h0 => rw [List.length_eq_zero_iff.mp h0, List.append_nil]
  next hne =>
    rw [if_neg (by show ¬ (2 ^ 64 - 1) / 8 - m.length < data.length; omega)]
    have hover : Over ⟨sha256, blocks sha256 (m.length / 64) (firstWords sha256) m,
      m.drop (m.length / 64 * 64), m.length + data.length⟩ m := ⟨rfl, rfl⟩
    obtain ⟨hdone, hsha, hbytes⟩ := hover.absorb data
    apply congrArg some
    exact hdone.eq_ofBytes hsha (hbytes.trans List.length_append.symm)

end ShaStream

end Hub

end Llmx
