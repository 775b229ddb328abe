import Llmx.CyclicChecks
import Llmx.GgufYields
import Llmx.KVRows

/-!
The bytes of an entry of the disk tier: runs over slabs of memory as one stream, and the checksum the
entry's file is checked with.
-/

namespace Llmx

open Gguf (leValue)
open CyclicChecks
open Stretches

namespace Crc32c

/-- Castagnoli's polynomial, its bits reversed. -/
def poly : BitVec 32 := 0x82F63B78#32

/-- The instruction on a byte: its bits enter the register, least first. -/
def mmU8 (c : BitVec 32) (b : UInt8) : BitVec 32 := feed poly c (bitsOf 8 b.toNat)

/-- The instruction on eight bytes, the register in the low half. -/
def mmU64 (c : BitVec 64) (v : Nat) : BitVec 64 :=
  (feed poly (c.setWidth 32) (bitsOf 64 v)).setWidth 64

/-- The loop over eight bytes at a time, and what it leaves. -/
def words (c : BitVec 64) (data : Bytes) : BitVec 64 × Bytes :=
  if 8 ≤ data.length then words (mmU64 c (leValue (data.take 8))) (data.drop 8) else (c, data)
termination_by data.length
decreasing_by
  rw [List.length_drop]
  omega

def crc32c (crc : BitVec 32) (data : Bytes) : BitVec 32 :=
  let left := words ((~~~crc).setWidth 64) data
  ~~~(left.2.foldl mmU8 (left.1.setWidth 32))

def byteBits (data : Bytes) : List Bool := data.flatMap fun b => bitsOf 8 b.toNat

theorem bits_leValue (data : Bytes) : bitsOf (8 * data.length) (leValue data) = byteBits data := by
  induction data with
  | nil => simp [bitsOf, byteBits]
  | cons b data ih =>
    have hb := b.toNat_lt
    have hvalue : leValue (b :: data) = b.toNat + 256 * leValue data := Eq.refl _
    have hdiv : leValue (b :: data) / 2 ^ 8 = leValue data := by omega
    have hmod : leValue (b :: data) % 2 ^ 8 = b.toNat := by omega
    rw [List.length_cons, Nat.mul_succ, Nat.add_comm, bitsOf_add, hdiv, ih, ← bitsOf_mod, hmod]
    simp [byteBits]

theorem foldl_mmU8 (c : BitVec 32) (data : Bytes) :
    data.foldl mmU8 c = feed poly c (byteBits data) := by
  induction data generalizing c with
  | nil => simp [feed, byteBits]
  | cons b data ih =>
    have hbits : byteBits (b :: data) = bitsOf 8 b.toNat ++ byteBits data := by simp [byteBits]
    rw [List.foldl_cons, ih, hbits, feed_append, mmU8]

theorem words_eq (c : BitVec 64) (data : Bytes) :
    (words c data).2.foldl mmU8 ((words c data).1.setWidth 32) =
      feed poly (c.setWidth 32) (byteBits data) := by
  fun_induction words c data with
  | case1 c data hlong ih =>
    have hlen : (data.take 8).length = 8 := by
      rw [List.length_take]
      omega
    have hbits := bits_leValue (data.take 8)
    rw [hlen] at hbits
    have hsplit : byteBits data = byteBits (data.take 8) ++ byteBits (data.drop 8) := by
      unfold byteBits
      rw [← List.flatMap_append, List.take_append_drop]
    rw [ih, hsplit, feed_append, ← hbits]
    simp [mmU64]
  | case2 c data hshort => exact foldl_mmU8 _ _

/-- Eight bytes at a time or one, the check is that of the bits. -/
theorem crc32c_eq (crc : BitVec 32) (data : Bytes) :
    crc32c crc data = ~~~feed poly (~~~crc) (byteBits data) := by
  unfold crc32c
  dsimp only
  rw [words_eq]
  simp

theorem crc32c_append (crc : BitVec 32) (a b : Bytes) :
    crc32c (crc32c crc a) b = crc32c crc (a ++ b) := by
  have hsplit : byteBits (a ++ b) = byteBits a ++ byteBits b := List.flatMap_append
  rw [crc32c_eq, crc32c_eq, crc32c_eq, hsplit, feed_append, BitVec.not_not]

example : crc32c 0 (ascii "123456789".toList) = 0xE3069283#32 := by decide +kernel

theorem tops_poly : Tops poly := by
  intro i hi
  obtain rfl : i = 31 := by omega
  decide

theorem length_byteBits (data : Bytes) : (byteBits data).length = 8 * data.length := by
  induction data with
  | nil => simp [byteBits]
  | cons b data ih =>
    have hbits : byteBits (b :: data) = bitsOf 8 b.toNat ++ byteBits data := by simp [byteBits]
    rw [hbits, List.length_append, ih, length_bitsOf, List.length_cons]
    omega

theorem byteBits_inj {a b : Bytes} (h : byteBits a = byteBits b) : a = b := by
  induction a generalizing b with
  | nil =>
    have hlen := congrArg List.length h
    rw [length_byteBits, length_byteBits, List.length_nil] at hlen
    exact (List.length_eq_zero_iff.mp (by omega)).symm
  | cons x a ih =>
    cases b with
    | nil =>
      have hlen := congrArg List.length h
      rw [length_byteBits, length_byteBits, List.length_cons, List.length_nil] at hlen
      omega
    | cons y b =>
      have hx : byteBits (x :: a) = bitsOf 8 x.toNat ++ byteBits a := by simp [byteBits]
      have hy : byteBits (y :: b) = bitsOf 8 y.toNat ++ byteBits b := by simp [byteBits]
      rw [hx, hy] at h
      obtain ⟨hfirst, hrest⟩ := List.append_inj h (by rw [length_bitsOf, length_bitsOf])
      have hbyte := UInt8.toNat_inj.mp (bitsOf_inj x.toNat_lt y.toNat_lt hfirst)
      rw [hbyte, ih hrest]

/-- Alike but for four bytes from `p` on. -/
structure FourApart (p : Nat) (a b : Bytes) : Prop where
  length : a.length = b.length
  rest : ∀ i, i < p ∨ p + 4 ≤ i → a[i]? = b[i]?

theorem FourApart.drop {p : Nat} {a b : Bytes} (h : FourApart p a b) (n : Nat) :
    FourApart (p - n) (a.drop n) (b.drop n) := by
  refine ⟨by rw [List.length_drop, List.length_drop, h.length], fun i hi => ?_⟩
  rw [List.getElem?_drop, List.getElem?_drop]
  exact h.rest _ (by omega)

theorem FourApart.take {p : Nat} {a b : Bytes} (h : FourApart p a b) (n : Nat) :
    FourApart p (a.take n) (b.take n) := by
  refine ⟨by rw [List.length_take, List.length_take, h.length], fun i hi => ?_⟩
  rw [List.getElem?_take, List.getElem?_take, h.rest i hi]

/-- A change within four bytes is never missed. -/
theorem FourApart.feed_ne {p : Nat} {a b : Bytes} (h : FourApart p a b) (hne : a ≠ b)
    (c : BitVec 32) : feed poly c (byteBits a) ≠ feed poly c (byteBits b) := by
  have hsplit : ∀ z : Bytes, byteBits z =
      byteBits (z.take p) ++ byteBits ((z.drop p).take 4) ++ byteBits (z.drop (p + 4)) := by
    intro z
    unfold byteBits
    rw [← List.flatMap_append, ← List.flatMap_append, ← List.drop_drop, List.append_assoc,
      List.take_append_drop, List.take_append_drop]
  have hbefore : a.take p = b.take p := by
    apply List.ext_getElem?
    intro i
    rw [List.getElem?_take, List.getElem?_take]
    by_cases hi : i < p
    · simp [hi, h.rest i (Or.inl hi)]
    · simp [hi]
  have hafter : a.drop (p + 4) = b.drop (p + 4) := by
    apply List.ext_getElem?
    intro i
    rw [List.getElem?_drop, List.getElem?_drop]
    exact h.rest _ (by omega)
  have hlen := congrArg (fun n => min 4 (n - p)) h.length
  have hmid : byteBits ((a.drop p).take 4) ≠ byteBits ((b.drop p).take 4) := by
    intro heq
    apply hne
    rw [← List.take_append_drop p a, ← List.take_append_drop p b, hbefore,
      ← List.take_append_drop 4 (a.drop p), ← List.take_append_drop 4 (b.drop p),
      List.drop_drop, List.drop_drop, hafter, byteBits_inj heq]
  rw [hsplit a, hsplit b, hbefore, hafter]
  refine feed_changed tops_poly _ _ ?_ ?_ hmid
  · simpa [length_byteBits] using hlen
  · rw [length_byteBits, List.length_take]
    omega

theorem FourApart.crc32c_ne {p : Nat} {a b : Bytes} (h : FourApart p a b) (hne : a ≠ b)
    (crc : BitVec 32) : crc32c crc a ≠ crc32c crc b := by
  rw [crc32c_eq, crc32c_eq]
  intro heq
  have hback := congrArg (fun v : BitVec 32 => ~~~v) heq
  simp only [BitVec.not_not] at hback
  exact h.feed_ne hne _ hback

/-- A check put behind its bytes leaves the register where every such check does. -/
theorem crc32c_residue (data : Bytes) {s : Bytes} (hs : s.length = 4) :
    (crc32c 0 data).toNat = leValue s ↔
      feed poly (~~~0#32) (byteBits (data ++ s)) = shifts poly 32 (~~~0#32) := by
  have hbits := bits_leValue s
  rw [hs] at hbits
  have hlt : leValue s < 2 ^ 32 := by
    have := Gguf.leValue_lt s
    rw [hs] at this
    omega
  have hsplit : byteBits (data ++ s) = byteBits data ++ bitsOf 32 (leValue s) := by
    rw [hbits]
    exact List.flatMap_append
  rw [hsplit, feed_append, feed_eq_shifts (by rw [length_bitsOf]), length_bitsOf, value_bitsOf,
    crc32c_eq]
  generalize feed poly (~~~0#32) (byteBits data) = m
  have hones : m ^^^ ~~~0#32 = ~~~m := by
    ext i hi
    simp only [BitVec.getElem_xor, BitVec.getElem_not, BitVec.getElem_zero]
    cases m[i] <;> simp
  have hflip : ∀ v : BitVec 32, m ^^^ v = ~~~0#32 ↔ ~~~m = v := by
    intro v
    constructor
    · intro h
      have hback := congrArg (m ^^^ ·) h
      simp only [← BitVec.xor_assoc, BitVec.xor_self, BitVec.zero_xor] at hback
      rw [hback, hones]
    · intro h
      rw [← h, ← hones, ← BitVec.xor_assoc, BitVec.xor_self, BitVec.zero_xor]
  constructor
  · intro h
    rw [(hflip _).mpr]
    rw [← h, BitVec.ofNat_toNat, BitVec.setWidth_eq]
  · intro h
    rw [(hflip _).mp (shifts_inj tops_poly h), BitVec.toNat_ofNat, Nat.mod_eq_of_lt hlt]

end Crc32c

/-- Host-visible memory by buffer and place. -/
abbrev Memory := Nat → Nat → UInt8

/-- A run of an entry: `bytes` at `offset` of its slabs taken end to end. -/
structure StoreRun where
  slabs : List Nat
  bytes : Nat
  offset : Nat
deriving DecidableEq, Repr

/-- A stretch of one slab. -/
structure SlabSpan where
  buffer : Nat
  inside : Nat
  count : Nat
deriving DecidableEq, Repr

namespace StoreRuns

/-- The run a payload offset lies in, those after it, and where in it. -/
def skipRuns : List StoreRun → Nat → List StoreRun × Nat
  | [], place => ([], place)
  | r :: runs, place =>
    if r.bytes ≤ place then skipRuns runs (place - r.bytes) else (r :: runs, place)

/-- The copies of the loop, `n` bytes from `place` of the first run on, `none` where a run or slab is
read that is not there. -/
def spans (slab : Nat) : Nat → List StoreRun → Nat → Nat → Option (List SlabSpan)
  | _, _, _, 0 => some []
  | 0, _, _, _ + 1 => none
  | _ + 1, [], _, _ + 1 => none
  | fuel + 1, r :: runs, place, n + 1 =>
    let inside := (r.offset + place) % slab
    let k := min (n + 1) (min (slab - inside) (r.bytes - place))
    (r.slabs[(r.offset + place) / slab]?).bind fun buffer =>
      (if place + k = r.bytes then spans slab fuel runs 0 (n + 1 - k)
        else spans slab fuel (r :: runs) (place + k) (n + 1 - k)).map fun rest =>
          ⟨buffer, inside, k⟩ :: rest

/-- The copies of `n` bytes at payload offset `place`. -/
def streamSpans (slab : Nat) (runs : List StoreRun) (place n : Nat) : Option (List SlabSpan) :=
  let skipped := skipRuns runs place
  spans slab (n + skipped.1.length) skipped.1 skipped.2 n

def copyOut (mem : Memory) (s : SlabSpan) : Bytes :=
  (List.range s.count).map fun i => mem s.buffer (s.inside + i)

def copyIn (mem : Memory) (s : SlabSpan) (data : Bytes) : Memory := fun buffer place =>
  if buffer = s.buffer ∧ s.inside ≤ place ∧ place < s.inside + s.count then
    data.getD (place - s.inside) 0
  else mem buffer place

def gather (mem : Memory) (ss : List SlabSpan) : Bytes := ss.flatMap (copyOut mem)

def scatter : Memory → List SlabSpan → Bytes → Memory
  | mem, [], _ => mem
  | mem, s :: ss, data => scatter (copyIn mem s (data.take s.count)) ss (data.drop s.count)

/-- Where the bytes of a run lie, in order. -/
def placesOf (slab : Nat) (r : StoreRun) : List (Nat × Nat) :=
  (List.range r.bytes).map fun i =>
    (r.slabs.getD ((r.offset + i) / slab) 0, (r.offset + i) % slab)

def places (slab : Nat) (runs : List StoreRun) : List (Nat × Nat) := runs.flatMap (placesOf slab)

/-- A run's slabs hold it; one of no bytes has the slab its offset is in. -/
def Fits (slab : Nat) (r : StoreRun) : Prop :=
  ∀ i, i = 0 ∨ i < r.bytes → (r.offset + i) / slab < r.slabs.length

def spanPlaces (s : SlabSpan) : List (Nat × Nat) :=
  (List.range s.count).map fun i => (s.buffer, s.inside + i)

variable {slab : Nat} {runs : List StoreRun} {mem : Memory}

theorem length_placesOf (r : StoreRun) : (placesOf slab r).length = r.bytes := by simp [placesOf]

theorem length_places (runs : List StoreRun) :
    (places slab runs).length = (runs.map StoreRun.bytes).sum := by
  simp [places, List.length_flatMap, length_placesOf]

/-- A stretch of a run within one slab. -/
theorem placesOf_span {r : StoreRun} {place k : Nat} (hin : place + k ≤ r.bytes)
    (hslab : (r.offset + place) % slab + k ≤ slab) {buffer : Nat}
    (hbuffer : r.slabs[(r.offset + place) / slab]? = some buffer) :
    ((placesOf slab r).drop place).take k =
      spanPlaces ⟨buffer, (r.offset + place) % slab, k⟩ := by
  apply List.ext_getElem
  · simp [placesOf, spanPlaces]
    omega
  · intro i h _
    simp only [placesOf, List.length_take, List.length_drop, List.length_map,
      List.length_range] at h
    have hi : i < k := by omega
    have hpos : 0 < slab := by omega
    have hdm := Nat.div_add_mod (r.offset + place) slab
    have heq : r.offset + (place + i) =
        (r.offset + place) % slab + i + slab * ((r.offset + place) / slab) := by omega
    have hdiv : (r.offset + (place + i)) / slab = (r.offset + place) / slab := by
      rw [heq, Nat.add_mul_div_left _ _ hpos, Nat.div_eq_of_lt (by omega), Nat.zero_add]
    have hmod : (r.offset + (place + i)) % slab = (r.offset + place) % slab + i := by
      rw [heq, Nat.add_mul_mod_self_left, Nat.mod_eq_of_lt (by omega)]
    simp [placesOf, spanPlaces, hdiv, hmod, hbuffer]

theorem take_split {α : Type} (l : List α) (place k m : Nat) :
    (l.drop place).take (k + m) = (l.drop place).take k ++ (l.drop (place + k)).take m := by
  rw [List.take_add, List.drop_drop]

/-- The copies are the payload's places in order. -/
theorem spans_spec (hslab : 0 < slab) (fuel : Nat) (runs : List StoreRun) (place n : Nat)
    (hfits : ∀ r ∈ runs, Fits slab r) (hplace : ∀ r ∈ runs.head?, place = 0 ∨ place < r.bytes)
    (hroom : place + n ≤ (places slab runs).length) (hfuel : n + runs.length ≤ fuel) :
    ∃ ss, spans slab fuel runs place n = some ss ∧
      ss.flatMap spanPlaces = ((places slab runs).drop place).take n := by
  induction fuel generalizing runs place n with
  | zero =>
    obtain rfl : n = 0 := by omega
    exact ⟨[], by simp [spans], by simp⟩
  | succ fuel ih =>
    cases n with
    | zero => exact ⟨[], by simp [spans], by simp⟩
    | succ n =>
      cases runs with
      | nil => simp [places] at hroom
      | cons r runs =>
        obtain ⟨hr, hruns⟩ := List.forall_mem_cons.mp hfits
        have hstart : place = 0 ∨ place < r.bytes := hplace r (by simp)
        have hcons : places slab (r :: runs) = placesOf slab r ++ places slab runs := by
          simp [places]
        have hlen := @length_placesOf slab r
        have hlength : (places slab (r :: runs)).length = r.bytes + (places slab runs).length := by
          rw [hcons, List.length_append, hlen]
        rw [List.length_cons] at hfuel
        have hmod := Nat.mod_lt (r.offset + place) hslab
        have hbuffer : r.slabs[(r.offset + place) / slab]? =
            some (r.slabs.getD ((r.offset + place) / slab) 0) := by
          rw [List.getD_eq_getElem?_getD, List.getElem?_eq_getElem (hr place hstart),
            Option.getD_some]
        obtain ⟨k, hk⟩ : ∃ k, k = min (n + 1)
            (min (slab - (r.offset + place) % slab) (r.bytes - place)) := ⟨_, Eq.refl _⟩
        have hspan := placesOf_span (show place + k ≤ r.bytes by omega)
          (show (r.offset + place) % slab + k ≤ slab by omega) hbuffer
        have htake : ((places slab (r :: runs)).drop place).take k =
            spanPlaces ⟨r.slabs.getD ((r.offset + place) / slab) 0, (r.offset + place) % slab, k⟩ := by
          rw [← hspan, hcons, List.drop_append_of_le_length (by omega),
            List.take_append_of_le_length (by rw [List.length_drop]; omega)]
        have hsplit := take_split (places slab (r :: runs)) place k (n + 1 - k)
        rw [show k + (n + 1 - k) = n + 1 by omega, htake] at hsplit
        rw [spans]
        simp only [hbuffer, Option.bind_some, ← hk]
        by_cases hend : place + k = r.bytes
        · obtain ⟨ss, hss, hplaces⟩ := ih runs 0 (n + 1 - k) hruns (fun r _ => Or.inl (Eq.refl _))
            (by omega) (by omega)
          refine ⟨_, by rw [if_pos hend, hss, Option.map_some], ?_⟩
          have hdrop : (places slab (r :: runs)).drop (place + k) = (places slab runs).drop 0 := by
            rw [hcons, hend, ← hlen, List.drop_left, List.drop_zero]
          rw [List.flatMap_cons, hplaces, hsplit, hdrop]
        · obtain ⟨ss, hss, hplaces⟩ := ih (r :: runs) (place + k) (n + 1 - k) hfits
            (fun r' hr' => by
              obtain rfl : r = r' := by simpa using hr'
              exact Or.inr (by omega))
            (by omega) (by rw [List.length_cons]; omega)
          refine ⟨_, by rw [if_neg hend, hss, Option.map_some], ?_⟩
          rw [List.flatMap_cons, hplaces, hsplit]

theorem skipRuns_spec (runs : List StoreRun) (place : Nat) :
    (∀ r ∈ (skipRuns runs place).1, r ∈ runs) ∧
      (∀ r ∈ (skipRuns runs place).1.head?, (skipRuns runs place).2 < r.bytes) ∧
      ∀ slab, (places slab runs).drop place =
        (places slab (skipRuns runs place).1).drop (skipRuns runs place).2 := by
  induction runs generalizing place with
  | nil => simp [skipRuns]
  | cons r runs ih =>
    rw [skipRuns]
    by_cases hskip : r.bytes ≤ place
    · rw [if_pos hskip]
      obtain ⟨hmem, hhead, hdrop⟩ := ih (place - r.bytes)
      refine ⟨fun r' hr' => List.mem_cons_of_mem _ (hmem r' hr'), hhead, fun slab => ?_⟩
      have hcons : places slab (r :: runs) = placesOf slab r ++ places slab runs := by
        simp [places]
      rw [hcons, List.drop_append, length_placesOf, List.drop_of_length_le, List.nil_append]
      · exact hdrop slab
      · rw [length_placesOf]
        exact hskip
    · rw [if_neg hskip]
      refine ⟨fun r' hr' => hr', fun r' hr' => ?_, fun slab => Eq.refl _⟩
      obtain rfl : r = r' := by simpa using hr'
      exact Nat.not_le.mp hskip

/-- The copies of a stretch of the payload are its places in order. -/
theorem streamSpans_spec (hslab : 0 < slab) (hfits : ∀ r ∈ runs, Fits slab r) {place n : Nat}
    (hroom : place + n ≤ (places slab runs).length) :
    ∃ ss, streamSpans slab runs place n = some ss ∧
      ss.flatMap spanPlaces = ((places slab runs).drop place).take n := by
  obtain ⟨hmem, hhead, hdrop⟩ := skipRuns_spec runs place
  have hlen := congrArg List.length (hdrop slab)
  rw [List.length_drop, List.length_drop] at hlen
  rw [hdrop slab]
  unfold streamSpans
  dsimp only
  cases n with
  | zero => exact ⟨[], by simp [spans], by simp⟩
  | succ n =>
    exact spans_spec hslab _ _ _ _ (fun r hr => hfits r (hmem r hr))
      (fun r hr => Or.inr (hhead r hr)) (by omega) (Nat.le_refl _)

theorem gather_spec (mem : Memory) (ss : List SlabSpan) :
    gather mem ss = (ss.flatMap spanPlaces).map fun p => mem p.1 p.2 := by
  unfold gather
  rw [List.map_flatMap]
  apply List.flatMap_congr
  intro s _
  simp [copyOut, spanPlaces]

/-- Bytes written one after another at places. -/
def writeAll : Memory → List (Nat × Nat) → Bytes → Memory
  | mem, p :: ps, b :: bs =>
    writeAll (fun buffer place => if (buffer, place) = p then b else mem buffer place) ps bs
  | mem, _, _ => mem

theorem writeAll_other {ps : List (Nat × Nat)} {bs : Bytes} {p : Nat × Nat} (hp : p ∉ ps) :
    writeAll mem ps bs p.1 p.2 = mem p.1 p.2 := by
  induction ps generalizing mem bs with
  | nil => simp [writeAll]
  | cons q ps ih =>
    cases bs with
    | nil => simp [writeAll]
    | cons b bs =>
      rw [List.mem_cons, not_or] at hp
      rw [writeAll, ih hp.2, if_neg hp.1]

theorem writeAll_get {ps : List (Nat × Nat)} {bs : Bytes} (hnodup : ps.Nodup)
    (hlen : ps.length = bs.length) : ps.map (fun p => writeAll mem ps bs p.1 p.2) = bs := by
  induction ps generalizing mem bs with
  | nil => exact (List.length_eq_zero_iff.mp hlen.symm).symm
  | cons q ps ih =>
    cases bs with
    | nil => simp at hlen
    | cons b bs =>
      obtain ⟨hq, hps⟩ := List.nodup_cons.mp hnodup
      have hrest := @ih (fun buffer place => if (buffer, place) = q then b else mem buffer place) bs
        hps (by simpa using hlen)
      rw [List.map_cons]
      simp only [writeAll]
      rw [hrest, writeAll_other hq]
      simp

theorem writeAll_append {ps qs : List (Nat × Nat)} {as bs : Bytes} (hlen : ps.length = as.length) :
    writeAll mem (ps ++ qs) (as ++ bs) = writeAll (writeAll mem ps as) qs bs := by
  induction ps generalizing mem as with
  | nil =>
    obtain rfl := List.length_eq_zero_iff.mp hlen.symm
    simp [writeAll]
  | cons p ps ih =>
    cases as with
    | nil => simp at hlen
    | cons a as => exact ih (by simpa using hlen)

theorem copyIn_eq (mem : Memory) (s : SlabSpan) {data : Bytes} (hlen : data.length = s.count) :
    copyIn mem s data = writeAll mem (spanPlaces s) data := by
  have hnodup : (spanPlaces s).Nodup := by
    refine List.Nodup.map (fun i j h => ?_) List.nodup_range
    have := (Prod.mk.inj h).2
    omega
  have hget := @writeAll_get mem (spanPlaces s) data hnodup (by simp [spanPlaces, hlen])
  funext buffer place
  unfold copyIn
  by_cases hin : buffer = s.buffer ∧ s.inside ≤ place ∧ place < s.inside + s.count
  · obtain ⟨rfl, hlo, hhi⟩ := hin
    rw [if_pos ⟨Eq.refl _, hlo, hhi⟩]
    have hi := congrArg (fun l : Bytes => l[place - s.inside]?) hget
    simp only [spanPlaces, List.map_map, List.getElem?_map] at hi
    rw [List.getElem?_range (by omega)] at hi
    simp only [Option.map_some, Function.comp_apply] at hi
    rw [Nat.add_sub_cancel' hlo] at hi
    rw [List.getD_eq_getElem?_getD, ← hi, Option.getD_some]
    exact Eq.refl _
  · rw [if_neg hin]
    have hnot : (buffer, place) ∉ spanPlaces s := by
      intro hmem
      obtain ⟨i, hi, heq⟩ := List.mem_map.mp hmem
      rw [List.mem_range] at hi
      obtain ⟨rfl, rfl⟩ := Prod.mk.inj heq
      exact hin ⟨Eq.refl _, by omega, by omega⟩
    exact (@writeAll_other mem _ data _ hnot).symm

theorem scatter_spec (mem : Memory) (ss : List SlabSpan) {data : Bytes}
    (hlen : (ss.flatMap spanPlaces).length = data.length) :
    scatter mem ss data = writeAll mem (ss.flatMap spanPlaces) data := by
  induction ss generalizing mem data with
  | nil =>
    obtain rfl := List.length_eq_zero_iff.mp hlen.symm
    simp [scatter, writeAll]
  | cons s ss ih =>
    rw [List.flatMap_cons, List.length_append] at hlen
    have hcount : (spanPlaces s).length = s.count := by simp [spanPlaces]
    have htake : (data.take s.count).length = s.count := by
      rw [List.length_take]
      omega
    have hrest : (ss.flatMap spanPlaces).length = (data.drop s.count).length := by
      rw [List.length_drop]
      omega
    rw [scatter, copyIn_eq mem s htake, ih _ hrest, List.flatMap_cons,
      ← writeAll_append (by omega), List.take_append_drop]

end StoreRuns

end Llmx
