import Llmx.Fallible
import Llmx.StoreRuns

/-!
An entry file of the disk tier: a header of what it holds and its chunks' checksums, then the payload
in chunks, written from runs of slabs and read back into others.
-/

namespace Llmx

open Gguf (leValue leValue_leBytes word)
open Stretches
open StoreRuns

namespace DiskEntry

open Crc32c (crc32c FourApart byteBits crc32c_residue)

def kAlign : Nat := 2 ^ 20

def kChunk : Nat := 2 ^ 22

def kVersion : Nat := 2

/-- The text and its closing zero. -/
def kMagic : Bytes := ascii "llmx-disk-entry".toList ++ [0]

/-- Sizes are counted in machine words. -/
def roundUp (n a : Nat) : Nat := a * (word (n + a - 1) / a)

def chunks (payload : Nat) : Nat := word (payload + kChunk - 1) / kChunk

def headerBytes (blob runs chunkCount : Nat) : Nat :=
  roundUp (word (16 + 4 + 32 + 8 + 4 + 8 * runs + 8 + 4 * chunkCount + blob + 4)) kAlign

def payloadOf (layout : List Nat) : Nat := word layout.sum

def fileBytes (blob : Nat) (layout : List Nat) : Nat :=
  word (headerBytes blob layout.length (chunks (payloadOf layout)) + roundUp (payloadOf layout) kAlign)

inductive EntryError
  | runsApart
  | header
  | layout
  | short
  | checksum
  | outside
deriving DecidableEq, Repr

def EntryError.what : EntryError → String
  | runsApart => "disk cache: runs that do not add up to the entry's layout"
  | header => "an entry whose header is not this server's or fails its checksum"
  | layout => "an entry of another layout"
  | short => "an entry shorter than its header says"
  | checksum => "an entry that fails its checksum"
  | outside => "a run or slab that is not there"

/-- A call's layout: the one given, which its runs must add up to, or the runs' own sizes. -/
def layoutOf (runs : List StoreRun) (layout : List Nat) : Except EntryError (List Nat) :=
  let layout := if layout.isEmpty then runs.map StoreRun.bytes else layout
  if word (runs.map StoreRun.bytes).sum ≠ word layout.sum then .error .runsApart else .ok layout

def zeros (n : Nat) : Bytes := List.replicate n 0

/-- A write at an offset, zeros in a gap before it. -/
def writeAt (file : Bytes) (offset : Nat) (data : Bytes) : Bytes :=
  (file ++ zeros (offset - file.length)).take offset ++ data ++ file.drop (offset + data.length)

/-- Up to `n` bytes from an offset on, as many as there are. -/
def readAt (file : Bytes) (offset n : Nat) : Bytes := (file.drop offset).take n

structure EntryHeader where
  blob : Bytes
  layout : List Nat
  crcs : List Nat
  size : Nat
deriving DecidableEq, Repr

/-- The header's fields before its checksum. -/
def headerFields (identity blob : Bytes) (layout crcs : List Nat) : Bytes :=
  kMagic ++ leBytes 4 kVersion ++ identity ++ leBytes 8 blob.length ++ leBytes 4 layout.length ++
    layout.flatMap (leBytes 8) ++ leBytes 8 crcs.length ++ crcs.flatMap (leBytes 4) ++ blob

def headerOf (identity blob : Bytes) (layout crcs : List Nat) (head : Nat) : Bytes :=
  let fields := headerFields identity blob layout crcs
  fields ++ leBytes 4 (crc32c 0 fields).toNat ++ zeros (head - (fields.length + 4))

/-- The chunk's bytes gathered from the runs. -/
def chunkOf (mem : Memory) (slab : Nat) (runs : List StoreRun) (c n : Nat) :
    Except EntryError Bytes :=
  match streamSpans slab runs (kChunk * c) n with
  | some ss => .ok (gather mem ss)
  | none => .error .outside

/-- The loop over the chunks: the file so far and the checksums. -/
def writeChunks (mem : Memory) (slab : Nat) (runs : List StoreRun) (payload head : Nat) :
    Nat → Nat → Bytes × List Nat → Except EntryError (Bytes × List Nat)
  | 0, _, st => .ok st
  | left + 1, c, st => do
    let n := min kChunk (payload - kChunk * c)
    let data ← chunkOf mem slab runs c n
    writeChunks mem slab runs payload head left (c + 1)
      (writeAt st.1 (head + kChunk * c) (data ++ zeros (roundUp n kAlign - n)),
        st.2 ++ [(crc32c 0 data).toNat])

/-- The file a write puts together. -/
def writeEntry (identity : Bytes) (mem : Memory) (slab : Nat) (runs : List StoreRun)
    (layout : List Nat) (blob : Bytes) : Except EntryError Bytes := do
  let payload := payloadOf layout
  let head := headerBytes blob.length layout.length (chunks payload)
  let st ← writeChunks mem slab runs payload head (chunks payload) 0 ([], [])
  return writeAt st.1 0 (headerOf identity blob layout st.2 head)

def readHeader (file identity : Bytes) : Option EntryHeader :=
  let first := readAt file 0 kAlign
  if first.length ≠ kAlign then none
  else if first.take 16 ≠ kMagic then none
  else if leValue ((first.drop 16).take 4) ≠ kVersion ∨ (first.drop 20).take 32 ≠ identity then none
  else
    let blob := leValue ((first.drop 52).take 8)
    let runs := leValue ((first.drop 60).take 4)
    if 4096 < runs then none
    else
      let chunkCount := leValue ((first.drop (64 + 8 * runs)).take 8)
      if 2 ^ 32 < chunkCount ∨ 2 ^ 32 < blob then none
      else
        let size := headerBytes blob runs chunkCount
        let all := first ++ readAt file kAlign (size - kAlign)
        if kAlign < size ∧ (readAt file kAlign (size - kAlign)).length ≠ size - kAlign then none
        else
          let stop := 72 + 8 * runs + 4 * chunkCount + blob
          if (crc32c 0 (all.take stop)).toNat ≠ leValue ((all.drop stop).take 4) then none
          else
            let layout := (List.range runs).map fun i => leValue ((all.drop (64 + 8 * i)).take 8)
            let crcs := (List.range chunkCount).map fun i =>
              leValue ((all.drop (72 + 8 * runs + 4 * i)).take 4)
            if chunks (payloadOf layout) ≠ chunkCount then none
            else
              some ⟨(all.drop (72 + 8 * runs + 4 * chunkCount)).take blob, layout, crcs, size⟩

/-- The loop over the chunks of a read: the memory it leaves, and why it stopped where it did. -/
def readChunks (file : Bytes) (slab : Nat) (runs : List StoreRun) (payload size : Nat) :
    Nat → List Nat → Memory → Memory × Option EntryError
  | _, [], mem => (mem, none)
  | c, crc :: crcs, mem =>
    let n := min kChunk (payload - kChunk * c)
    let data := readAt file (size + kChunk * c) (roundUp n kAlign)
    if data.length < n then (mem, some .short)
    else if (crc32c 0 (data.take n)).toNat ≠ crc then (mem, some .checksum)
    else
      match streamSpans slab runs (kChunk * c) n with
      | some ss => readChunks file slab runs payload size (c + 1) crcs (scatter mem ss (data.take n))
      | none => (mem, some .outside)

def readEntry (file identity : Bytes) (slab : Nat) (runs : List StoreRun) (layout : List Nat)
    (mem : Memory) : Memory × Option EntryError :=
  match readHeader file identity with
  | none => (mem, some .header)
  | some h =>
    if h.layout ≠ layout then (mem, some .layout)
    else readChunks file slab runs (payloadOf h.layout) h.size 0 h.crcs mem

section Sizes

/-- Sizes a machine holds. -/
structure Held (blob : Bytes) (layout : List Nat) : Prop where
  blob : blob.length < 2 ^ 60
  runs : layout.length < 2 ^ 32
  payload : layout.sum < 2 ^ 60

variable {blob : Bytes} {layout : List Nat}

theorem kAlign_eq : kAlign = 1048576 := by decide

theorem kChunk_eq : kChunk = 4194304 := by decide

theorem Held.payloadOf (h : Held blob layout) : payloadOf layout = layout.sum :=
  Nat.mod_eq_of_lt (by have := h.payload; omega)

theorem chunks_eq {payload : Nat} (h : payload < 2 ^ 60) :
    chunks payload = (payload + 4194303) / 4194304 := by
  unfold chunks word
  rw [kChunk_eq, Nat.mod_eq_of_lt (by omega)]
  omega

theorem roundUp_eq {n : Nat} (h : n < 2 ^ 62) :
    roundUp n kAlign = 1048576 * ((n + 1048575) / 1048576) := by
  unfold roundUp word
  rw [kAlign_eq, Nat.mod_eq_of_lt (by omega)]
  omega

theorem headerBytes_eq {b runs count : Nat} (hb : b < 2 ^ 60) (hruns : runs < 2 ^ 32)
    (hcount : count < 2 ^ 40) :
    headerBytes b runs count =
      1048576 * ((76 + 8 * runs + 4 * count + b + 1048575) / 1048576) := by
  unfold headerBytes word
  rw [roundUp_eq (Nat.lt_of_le_of_lt (Nat.mod_le _ _) (by omega)), Nat.mod_eq_of_lt (by omega)]
  congr 2
  omega

theorem length_headerFields {identity : Bytes} (hid : identity.length = 32) (crcs : List Nat) :
    (headerFields identity blob layout crcs).length =
      72 + 8 * layout.length + 4 * crcs.length + blob.length := by
  have hmagic : kMagic.length = 16 := by decide
  have hall : ∀ (w : Nat) (vs : List Nat), (vs.flatMap (leBytes w)).length = w * vs.length := by
    intro w vs
    simp [List.length_flatMap, Nat.mul_comm]
  unfold headerFields
  simp only [List.length_append, length_leBytes, hall, hmagic, hid]
  omega

theorem length_headerOf {identity : Bytes} (hid : identity.length = 32) (crcs : List Nat)
    {head : Nat} (hhead : 76 + 8 * layout.length + 4 * crcs.length + blob.length ≤ head) :
    (headerOf identity blob layout crcs head).length = head := by
  have := @length_headerFields blob layout identity hid crcs
  unfold headerOf zeros
  simp only [List.length_append, length_leBytes, List.length_replicate]
  omega

end Sizes

section Fields

/-- A field read at its place. -/
theorem take_field {before field after : Bytes} {place n : Nat} (hplace : before.length = place)
    (hn : field.length = n) : ((before ++ (field ++ after)).drop place).take n = field := by
  rw [← hplace, List.drop_left, ← hn, List.take_left]

theorem take_fields {w : Nat} {vs : List Nat} (hvs : ∀ v ∈ vs, v < 256 ^ w) (before after : Bytes) :
    ((List.range vs.length).map fun i =>
      leValue (((before ++ (vs.flatMap (leBytes w) ++ after)).drop (before.length + w * i)).take w)) =
        vs := by
  apply List.ext_getElem
  · simp
  · intro i hi hi'
    have hsplit : vs.flatMap (leBytes w) =
        (vs.take i).flatMap (leBytes w) ++ (leBytes w vs[i] ++ (vs.drop (i + 1)).flatMap (leBytes w)) := by
      conv_lhs => rw [← List.take_append_drop i vs, List.drop_eq_getElem_cons hi']
      rw [List.flatMap_append, List.flatMap_cons]
    have hlen : ((vs.take i).flatMap (leBytes w)).length = w * i := by
      simp [List.length_flatMap, Nat.mul_comm, Nat.min_eq_left (Nat.le_of_lt hi')]
    rw [List.getElem_map, List.getElem_range, hsplit]
    have hbytes : before ++ ((vs.take i).flatMap (leBytes w) ++
        (leBytes w vs[i] ++ (vs.drop (i + 1)).flatMap (leBytes w)) ++ after) =
          (before ++ (vs.take i).flatMap (leBytes w)) ++
            (leBytes w vs[i] ++ ((vs.drop (i + 1)).flatMap (leBytes w) ++ after)) := by
      simp
    rw [hbytes, take_field (by rw [List.length_append, hlen]) (length_leBytes _ _)]
    exact leValue_leBytes (hvs _ (List.getElem_mem hi'))

theorem window {file : Bytes} {a o n : Nat} (h : o + n ≤ a) :
    ((file.take a).drop o).take n = (file.drop o).take n := by
  rw [List.drop_take, List.take_take, Nat.min_eq_left (by omega)]

theorem length_readAt {file : Bytes} {o n : Nat} (h : o + n ≤ file.length) :
    (readAt file o n).length = n := by
  unfold readAt
  rw [List.length_take, List.length_drop]
  omega

theorem take_readAt (file : Bytes) {a b : Nat} (h : a ≤ b) :
    file.take a ++ readAt file a (b - a) = file.take b := by
  have hadd : a + (b - a) = b := Nat.add_sub_cancel' h
  rw [readAt, ← List.take_add, hadd]

/-- What a file begins with, by its fields. -/
structure Laid (identity blob : Bytes) (layout crcs : List Nat) (file : Bytes) : Prop where
  magic : file.take 16 = kMagic
  version : leValue ((file.drop 16).take 4) = kVersion
  identity : (file.drop 20).take 32 = identity
  blobBytes : leValue ((file.drop 52).take 8) = blob.length
  runs : leValue ((file.drop 60).take 4) = layout.length
  count : leValue ((file.drop (64 + 8 * layout.length)).take 8) = crcs.length
  sizes : ((List.range layout.length).map fun i =>
    leValue ((file.drop (64 + 8 * i)).take 8)) = layout
  sums : ((List.range crcs.length).map fun i =>
    leValue ((file.drop (72 + 8 * layout.length + 4 * i)).take 4)) = crcs
  text : (file.drop (72 + 8 * layout.length + 4 * crcs.length)).take blob.length = blob

/-- The numbers fit their fields. -/
structure Sayable (blob : Bytes) (layout crcs : List Nat) : Prop where
  blob : blob.length < 2 ^ 64
  runs : layout.length < 2 ^ 32
  layout : ∀ v ∈ layout, v < 2 ^ 64
  count : crcs.length < 2 ^ 64
  crcs : ∀ v ∈ crcs, v < 2 ^ 32

theorem laid_headerFields {identity blob : Bytes} {layout crcs : List Nat}
    (hid : identity.length = 32) (h : Sayable blob layout crcs) (rest : Bytes) :
    Laid identity blob layout crcs (headerFields identity blob layout crcs ++ rest) := by
  have hmagic : kMagic.length = 16 := by decide
  have hlen : ∀ (w : Nat) (vs : List Nat), (vs.flatMap (leBytes w)).length = w * vs.length := by
    intro w vs
    simp [List.length_flatMap, Nat.mul_comm]
  obtain ⟨hblob, hruns, hlayout, hcount, hcrcs⟩ := h
  have hv : kVersion < 256 ^ 4 := by decide
  refine ⟨?_, ?_, ?_, ?_, ?_, ?_, ?_, ?_, ?_⟩
  · unfold headerFields
    simp only [List.append_assoc]
    rw [← hmagic, List.take_left]
  · have h := @take_field kMagic (leBytes 4 kVersion) (identity ++ (leBytes 8 blob.length ++
      (leBytes 4 layout.length ++ (layout.flatMap (leBytes 8) ++ (leBytes 8 crcs.length ++
        (crcs.flatMap (leBytes 4) ++ (blob ++ rest))))))) 16 4 hmagic (length_leBytes _ _)
    unfold headerFields
    simp only [List.append_assoc]
    rw [h, leValue_leBytes hv]
  · have h := @take_field (kMagic ++ leBytes 4 kVersion) identity (leBytes 8 blob.length ++
      (leBytes 4 layout.length ++ (layout.flatMap (leBytes 8) ++ (leBytes 8 crcs.length ++
        (crcs.flatMap (leBytes 4) ++ (blob ++ rest)))))) 20 32 (by simp [hmagic]) hid
    unfold headerFields
    simp only [List.append_assoc] at h ⊢
    exact h
  · have h := @take_field (kMagic ++ leBytes 4 kVersion ++ identity) (leBytes 8 blob.length)
      (leBytes 4 layout.length ++ (layout.flatMap (leBytes 8) ++ (leBytes 8 crcs.length ++
        (crcs.flatMap (leBytes 4) ++ (blob ++ rest))))) 52 8 (by simp [hmagic, hid])
        (length_leBytes _ _)
    unfold headerFields
    simp only [List.append_assoc] at h ⊢
    rw [h, leValue_leBytes (by omega)]
  · have h := @take_field (kMagic ++ leBytes 4 kVersion ++ identity ++ leBytes 8 blob.length)
      (leBytes 4 layout.length) (layout.flatMap (leBytes 8) ++ (leBytes 8 crcs.length ++
        (crcs.flatMap (leBytes 4) ++ (blob ++ rest)))) 60 4 (by simp [hmagic, hid])
        (length_leBytes _ _)
    unfold headerFields
    simp only [List.append_assoc] at h ⊢
    rw [h, leValue_leBytes (by omega)]
  · have h := @take_field (kMagic ++ leBytes 4 kVersion ++ identity ++ leBytes 8 blob.length ++
      leBytes 4 layout.length ++ layout.flatMap (leBytes 8)) (leBytes 8 crcs.length)
      (crcs.flatMap (leBytes 4) ++ (blob ++ rest)) (64 + 8 * layout.length) 8
      (by simp only [List.length_append, hmagic, hid, hlen, length_leBytes]) (length_leBytes _ _)
    unfold headerFields
    simp only [List.append_assoc] at h ⊢
    rw [h, leValue_leBytes (by omega)]
  · have h := @take_fields 8 layout (fun v hv => by have := hlayout v hv; omega)
      (kMagic ++ leBytes 4 kVersion ++ identity ++ leBytes 8 blob.length ++ leBytes 4 layout.length)
      (leBytes 8 crcs.length ++ (crcs.flatMap (leBytes 4) ++ (blob ++ rest)))
    simp only [List.length_append, hmagic, hid, length_leBytes] at h
    unfold headerFields
    simp only [List.append_assoc] at h ⊢
    exact h
  · have h := @take_fields 4 crcs (fun v hv => by have := hcrcs v hv; omega)
      (kMagic ++ leBytes 4 kVersion ++ identity ++ leBytes 8 blob.length ++ leBytes 4 layout.length ++
        layout.flatMap (leBytes 8) ++ leBytes 8 crcs.length) (blob ++ rest)
    simp only [List.length_append, hmagic, hid, hlen, length_leBytes] at h
    unfold headerFields
    simp only [List.append_assoc] at h ⊢
    rw [show 16 + 4 + 32 + 8 + 4 + 8 * layout.length + 8 = 72 + 8 * layout.length by omega] at h
    exact h
  · have h := @take_field (kMagic ++ leBytes 4 kVersion ++ identity ++ leBytes 8 blob.length ++
      leBytes 4 layout.length ++ layout.flatMap (leBytes 8) ++ leBytes 8 crcs.length ++
        crcs.flatMap (leBytes 4)) blob rest (72 + 8 * layout.length + 4 * crcs.length) blob.length
      (by simp only [List.length_append, hmagic, hid, hlen, length_leBytes]; omega) (Eq.refl _)
    unfold headerFields
    simp only [List.append_assoc] at h ⊢
    exact h

end Fields

section Headers

variable {identity blob : Bytes} {layout crcs : List Nat} {head : Nat}

theorem readHeader_eq (hid : identity.length = 32) (h : Sayable blob layout crcs)
    (hhead : head = headerBytes blob.length layout.length crcs.length)
    (halign : kAlign ≤ head) (hroom : 76 + 8 * layout.length + 4 * crcs.length + blob.length ≤ head)
    (body : Bytes) :
    readHeader (headerOf identity blob layout crcs head ++ body) identity =
      if 4096 < layout.length then none
      else if 2 ^ 32 < crcs.length ∨ 2 ^ 32 < blob.length then none
      else if chunks (payloadOf layout) ≠ crcs.length then none
      else some ⟨blob, layout, crcs, head⟩ := by
  have hlaid := laid_headerFields hid h (leBytes 4 (crc32c 0 (headerFields identity blob layout
    crcs)).toNat ++ zeros (head - ((headerFields identity blob layout crcs).length + 4)) ++ body)
  have hfields := @length_headerFields blob layout identity hid crcs
  have hlength := @length_headerOf blob layout identity hid crcs head hroom
  obtain ⟨file, hfile⟩ : ∃ file, file = headerOf identity blob layout crcs head ++ body :=
    ⟨_, Eq.refl _⟩
  have hcontents : file = headerFields identity blob layout crcs ++ (leBytes 4 (crc32c 0
      (headerFields identity blob layout crcs)).toNat ++
        zeros (head - ((headerFields identity blob layout crcs).length + 4)) ++ body) := by
    rw [hfile, headerOf]
    simp
  rw [← hcontents] at hlaid
  have hlen : head ≤ file.length := by
    rw [hfile, List.length_append, hlength]
    omega
  have hfirst : readAt file 0 kAlign = file.take kAlign := by simp [readAt]
  have hfirstLen : (file.take kAlign).length = kAlign := by
    rw [List.length_take]
    omega
  have hrestLen : (readAt file kAlign (head - kAlign)).length = head - kAlign :=
    length_readAt (by rw [Nat.add_sub_cancel' halign]; exact hlen)
  have hall := take_readAt file halign
  have hstop : file.take (72 + 8 * layout.length + 4 * crcs.length + blob.length) =
      headerFields identity blob layout crcs := by
    rw [hcontents, ← hfields, List.take_left]
  have hsum : leValue ((file.drop (72 + 8 * layout.length + 4 * crcs.length + blob.length)).take 4) =
      (crc32c 0 (headerFields identity blob layout crcs)).toNat := by
    rw [hcontents, ← hfields, List.drop_left, List.append_assoc]
    have htake : ∀ rest : Bytes, (leBytes 4 (crc32c 0 (headerFields identity blob layout
        crcs)).toNat ++ rest).take 4 =
          leBytes 4 (crc32c 0 (headerFields identity blob layout crcs)).toNat :=
      fun rest => List.take_left' (length_leBytes _ _)
    have hlt := (crc32c 0 (headerFields identity blob layout crcs)).isLt
    rw [htake, leValue_leBytes (by omega)]
  obtain ⟨hmagic, hversion, hidentity, hblob, hruns, hcount, hsizes, hsums, htext⟩ := hlaid
  have hsmall : 76 + 8 * 4096 ≤ kAlign := by decide
  rw [← hfile]
  unfold readHeader
  dsimp only
  rw [hfirst, if_neg (by simp [hfirstLen])]
  rw [List.take_take, Nat.min_eq_left (by omega), hmagic, if_neg (by simp)]
  rw [window (show 16 + 4 ≤ kAlign by omega), window (show 20 + 32 ≤ kAlign by omega), hversion,
    hidentity, if_neg (by simp)]
  rw [window (show 52 + 8 ≤ kAlign by omega), window (show 60 + 4 ≤ kAlign by omega), hblob, hruns]
  by_cases hmany : 4096 < layout.length
  · rw [if_pos hmany, if_pos hmany]
  · rw [if_neg hmany, if_neg hmany,
      window (show 64 + 8 * layout.length + 8 ≤ kAlign by omega), hcount]
    by_cases hlong : 2 ^ 32 < crcs.length ∨ 2 ^ 32 < blob.length
    · rw [if_pos hlong, if_pos hlong]
    · rw [if_neg hlong, if_neg hlong, ← hhead, hall, if_neg (by simp [hrestLen])]
      rw [List.take_take, Nat.min_eq_left (by omega), hstop, window (by omega), hsum,
        if_neg (by simp)]
      have hsizes' : ((List.range layout.length).map fun i =>
          leValue (((file.take head).drop (64 + 8 * i)).take 8)) = layout := by
        conv_rhs => rw [← hsizes]
        apply List.map_congr_left
        intro i hi
        rw [List.mem_range] at hi
        rw [window (by omega)]
      have hsums' : ((List.range crcs.length).map fun i =>
          leValue (((file.take head).drop (72 + 8 * layout.length + 4 * i)).take 4)) = crcs := by
        conv_rhs => rw [← hsums]
        apply List.map_congr_left
        intro i hi
        rw [List.mem_range] at hi
        rw [window (by omega)]
      rw [hsizes', hsums', window (by omega), htext]

end Headers

section Chunks

/-- The `c`-th chunk of a payload, what pads it to the alignment, and all of them up to one. -/
def chunkData (P : Bytes) (c : Nat) : Bytes := (P.drop (kChunk * c)).take kChunk

def padded (P : Bytes) (c : Nat) : Bytes :=
  chunkData P c ++ zeros (roundUp (chunkData P c).length kAlign - (chunkData P c).length)

def body (P : Bytes) (n : Nat) : Bytes := (List.range n).flatMap (padded P)

def sumOf (P : Bytes) (c : Nat) : Nat := (crc32c 0 (chunkData P c)).toNat

def fileAfter (P : Bytes) (head c : Nat) : Bytes := if c = 0 then [] else zeros head ++ body P c

variable {P : Bytes}

theorem length_chunkData (P : Bytes) (c : Nat) :
    (chunkData P c).length = min kChunk (P.length - kChunk * c) := by
  unfold chunkData
  rw [List.length_take, List.length_drop]

theorem chunk_lt (hP : P.length < 2 ^ 60) {c : Nat} (hc : c < chunks P.length) :
    kChunk * c < P.length := by
  rw [chunks_eq hP] at hc
  rw [kChunk_eq]
  omega

theorem chunk_full (hP : P.length < 2 ^ 60) {c : Nat} (hc : c + 1 < chunks P.length) :
    kChunk * (c + 1) < P.length := chunk_lt hP hc

theorem chunks_end (hP : P.length < 2 ^ 60) : P.length ≤ kChunk * chunks P.length := by
  rw [chunks_eq hP, kChunk_eq]
  omega

theorem roundUp_chunk (P : Bytes) (c : Nat) :
    (chunkData P c).length ≤ roundUp (chunkData P c).length kAlign := by
  have hle : (chunkData P c).length ≤ kChunk := by
    rw [length_chunkData]
    exact Nat.min_le_left _ _
  rw [kChunk_eq] at hle
  rw [roundUp_eq (by omega)]
  omega

theorem length_padded (P : Bytes) (c : Nat) :
    (padded P c).length = roundUp (chunkData P c).length kAlign := by
  have := roundUp_chunk P c
  unfold padded zeros
  rw [List.length_append, List.length_replicate]
  omega

theorem roundUp_kChunk : roundUp kChunk kAlign = kChunk := by
  have h := @roundUp_eq kChunk (by rw [kChunk_eq]; omega)
  rw [h, kChunk_eq]

theorem length_body (hP : P.length < 2 ^ 60) {n : Nat} (hn : n = 0 ∨ n < chunks P.length) :
    (body P n).length = kChunk * n := by
  induction n with
  | zero => simp [body]
  | succ n ih =>
    have hfull := chunk_full hP (show n + 1 < chunks P.length by omega)
    have hchunk : (chunkData P n).length = kChunk := by
      rw [length_chunkData]
      rw [Nat.mul_succ] at hfull
      omega
    have hround := roundUp_kChunk
    have hrest := ih (by omega)
    have hcons : body P (n + 1) = body P n ++ padded P n := by
      simp [body, List.range_succ]
    rw [hcons, List.length_append, hrest, length_padded, hchunk, hround, Nat.mul_succ]

theorem writeAt_end (file data : Bytes) {o : Nat} (h : file.length = o) :
    writeAt file o data = file ++ data := by
  subst h
  simp [writeAt, zeros]

theorem writeAt_gap (o : Nat) (data : Bytes) : writeAt [] o data = zeros o ++ data := by
  simp [writeAt, zeros]

theorem writeAt_first (P data : Bytes) (head : Nat) :
    writeAt (fileAfter P head 0) (head + kChunk * 0) data = zeros head ++ data := by
  have hfile : fileAfter P head 0 = [] := if_pos (Eq.refl 0)
  have hzero : head + kChunk * 0 = head := Nat.add_zero _
  rw [hfile, hzero, writeAt_gap]

theorem writeAt_padded (hP : P.length < 2 ^ 60) {head c : Nat} (hc : c < chunks P.length) :
    writeAt (fileAfter P head c) (head + kChunk * c) (padded P c) = fileAfter P head (c + 1) := by
  have hcons : body P (c + 1) = body P c ++ padded P c := by simp [body, List.range_succ]
  have hafter : fileAfter P head (c + 1) = zeros head ++ (body P c ++ padded P c) := by
    rw [fileAfter, if_neg (Nat.succ_ne_zero c), hcons]
  rw [hafter]
  by_cases hzero : c = 0
  · have hnil : body P 0 = [] := by simp [body]
    rw [hzero, writeAt_first, hnil, List.nil_append]
  · have hlen := length_body hP (Or.inr hc)
    rw [fileAfter, if_neg hzero, writeAt_end _ _ (by simp [zeros, hlen]), List.append_assoc]

variable {mem : Memory} {slab : Nat} {runs : List StoreRun}

/-- The bytes of the runs, in order. -/
def payloadBytes (mem : Memory) (slab : Nat) (runs : List StoreRun) : Bytes :=
  (places slab runs).map fun p => mem p.1 p.2

theorem length_payloadBytes :
    (payloadBytes mem slab runs).length = (runs.map StoreRun.bytes).sum := by
  rw [payloadBytes, List.length_map, length_places]

theorem take_min {α : Type} (l : List α) (n : Nat) : l.take (min n l.length) = l.take n := by
  rw [List.take_eq_take_iff]
  omega

/-- A chunk gathered from the runs is the payload's. -/
theorem chunkOf_eq (hslab : 0 < slab) (hfits : ∀ r ∈ runs, Fits slab r) {c : Nat}
    (hc : kChunk * c ≤ (payloadBytes mem slab runs).length) :
    chunkOf mem slab runs c (min kChunk ((payloadBytes mem slab runs).length - kChunk * c)) =
      .ok (chunkData (payloadBytes mem slab runs) c) := by
  have hlen : (payloadBytes mem slab runs).length = (places slab runs).length := by
    rw [payloadBytes, List.length_map]
  obtain ⟨ss, hss, hplaces⟩ := @streamSpans_spec slab runs hslab hfits (kChunk * c)
    (min kChunk ((payloadBytes mem slab runs).length - kChunk * c)) (by omega)
  unfold chunkOf
  rw [hss]
  dsimp only
  have hmap : ((places slab runs).drop (kChunk * c)).map (fun p => mem p.1 p.2) =
      (payloadBytes mem slab runs).drop (kChunk * c) := List.map_drop
  rw [gather_spec, hplaces, List.map_take, hmap, ← List.length_drop, take_min, chunkData]

theorem writeChunks_eq (hslab : 0 < slab) (hfits : ∀ r ∈ runs, Fits slab r) {head : Nat}
    (hP : (payloadBytes mem slab runs).length < 2 ^ 60) (left c : Nat)
    (hc : c + left = chunks (payloadBytes mem slab runs).length) :
    writeChunks mem slab runs (payloadBytes mem slab runs).length head left c
        (fileAfter (payloadBytes mem slab runs) head c,
          (List.range c).map (sumOf (payloadBytes mem slab runs))) =
      .ok (fileAfter (payloadBytes mem slab runs) head (c + left),
        (List.range (c + left)).map (sumOf (payloadBytes mem slab runs))) := by
  induction left generalizing c with
  | zero => simp [writeChunks]
  | succ left ih =>
    have hlt := chunk_lt hP (show c < chunks (payloadBytes mem slab runs).length by omega)
    have hnext := ih (c + 1) (by omega)
    have hstep := @writeAt_padded (payloadBytes mem slab runs) hP head c (by omega)
    have hsums : (List.range c).map (sumOf (payloadBytes mem slab runs)) ++
        [(crc32c 0 (chunkData (payloadBytes mem slab runs) c)).toNat] =
          (List.range (c + 1)).map (sumOf (payloadBytes mem slab runs)) := by
      simp [List.range_succ, sumOf]
    rw [writeChunks]
    dsimp only
    rw [chunkOf_eq hslab hfits (Nat.le_of_lt hlt), ← length_chunkData, Fallible.ok_bind, hsums]
    unfold padded at hstep
    rw [hstep, hnext, show c + 1 + left = c + (left + 1) by omega]

/-- What a write puts in the file: the header, and the chunks behind it. -/
theorem writeEntry_eq {identity blob : Bytes} {layout : List Nat} (hid : identity.length = 32)
    (hheld : Held blob layout) (hslab : 0 < slab) (hfits : ∀ r ∈ runs, Fits slab r)
    (hsum : (runs.map StoreRun.bytes).sum = layout.sum) :
    writeEntry identity mem slab runs layout blob =
      .ok (headerOf identity blob layout
          ((List.range (chunks layout.sum)).map (sumOf (payloadBytes mem slab runs)))
          (headerBytes blob.length layout.length (chunks layout.sum)) ++
        body (payloadBytes mem slab runs) (chunks layout.sum)) := by
  have hlen : (payloadBytes mem slab runs).length = layout.sum := by
    rw [length_payloadBytes, hsum]
  have hP : (payloadBytes mem slab runs).length < 2 ^ 60 := by
    rw [hlen]
    exact hheld.payload
  obtain ⟨head, hhead⟩ : ∃ head, head = headerBytes blob.length layout.length (chunks layout.sum) :=
    ⟨_, Eq.refl _⟩
  have hchunks := @writeChunks_eq mem slab runs hslab hfits head hP (chunks layout.sum) 0
    (by rw [hlen, Nat.zero_add])
  have hcount : chunks layout.sum = (layout.sum + 4194303) / 4194304 := chunks_eq hheld.payload
  have hheader := @length_headerOf blob layout identity hid
    ((List.range (chunks layout.sum)).map (sumOf (payloadBytes mem slab runs))) head (by
      have hblob := hheld.blob
      have hruns := hheld.runs
      have hpayload := hheld.payload
      rw [hhead, headerBytes_eq hblob hruns (by omega), List.length_map, List.length_range]
      omega)
  have hstart : fileAfter (payloadBytes mem slab runs) head 0 = [] := if_pos (Eq.refl 0)
  have hdrop : (fileAfter (payloadBytes mem slab runs) head (chunks layout.sum)).drop head =
      body (payloadBytes mem slab runs) (chunks layout.sum) := by
    unfold fileAfter
    by_cases hzero : chunks layout.sum = 0
    · rw [if_pos hzero, hzero]
      simp [body]
    · have hzeros : (zeros head).length = head := by simp [zeros]
      rw [if_neg hzero]
      exact List.drop_left' hzeros
  rw [hstart, hlen] at hchunks
  simp only [List.range_zero, List.map_nil, Nat.zero_add] at hchunks
  unfold writeEntry
  dsimp only
  rw [hheld.payloadOf, ← hhead, hchunks, Fallible.ok_bind]
  dsimp only
  unfold writeAt
  rw [List.take_zero, List.nil_append, Nat.zero_add, hheader, hdrop]
  exact Eq.refl _

/-- The bytes of chunk `c` on behind a header. -/
theorem readAt_body {P header : Bytes} (hP : P.length < 2 ^ 60) {c : Nat}
    (hc : c < chunks P.length) :
    readAt (header ++ body P (chunks P.length)) (header.length + kChunk * c)
      (roundUp (chunkData P c).length kAlign) = padded P c := by
  have hsplit : body P (chunks P.length) =
      body P c ++ (padded P c ++ (List.range' (c + 1) (chunks P.length - (c + 1))).flatMap (padded P)) := by
    have hrange : List.range (chunks P.length) =
        List.range c ++ (c :: List.range' (c + 1) (chunks P.length - (c + 1))) := by
      obtain ⟨k, hk⟩ : ∃ k, chunks P.length = c + (k + 1) := ⟨chunks P.length - (c + 1), by omega⟩
      have hsub : c + (k + 1) - (c + 1) = k := by omega
      rw [hk, hsub, List.range_eq_range', List.range_eq_range', ← List.range'_append,
        List.range'_succ]
      simp
    unfold body
    rw [hrange, List.flatMap_append, List.flatMap_cons]
  have hlen := length_body hP (Or.inr hc)
  unfold readAt
  rw [← List.drop_drop, List.drop_left, hsplit, ← hlen, List.drop_left, ← length_padded,
    List.take_left]

/-- A chunk that passes its checksum goes to its places. -/
theorem readChunks_cons (hslab : 0 < slab) (hfits : ∀ r ∈ runs, Fits slab r) {file : Bytes}
    {size c : Nat} {crcs : List Nat} (hlen : (places slab runs).length = P.length)
    (hc : kChunk * c ≤ P.length)
    (hread : readAt file (size + kChunk * c) (roundUp (chunkData P c).length kAlign) = padded P c) :
    readChunks file slab runs P.length size c (sumOf P c :: crcs) mem =
      readChunks file slab runs P.length size (c + 1) crcs
        (writeAll mem (((places slab runs).drop (kChunk * c)).take kChunk) (chunkData P c)) := by
  have hn := length_chunkData P c
  have htake : (padded P c).take (chunkData P c).length = chunkData P c := List.take_left
  have hlong : ¬ (padded P c).length < (chunkData P c).length := by
    rw [padded, List.length_append]
    omega
  obtain ⟨ss, hss, hplaces⟩ := @streamSpans_spec slab runs hslab hfits (kChunk * c)
    (chunkData P c).length (by omega)
  have hchunk : ((places slab runs).drop (kChunk * c)).take (chunkData P c).length =
      ((places slab runs).drop (kChunk * c)).take kChunk := by
    rw [hn, ← hlen, ← List.length_drop, take_min]
  have hcount : (ss.flatMap spanPlaces).length = (chunkData P c).length := by
    rw [hplaces, List.length_take, List.length_drop]
    omega
  rw [readChunks, ← hn, hread, if_neg hlong, htake, if_neg (by simp [sumOf]), hss]
  show readChunks _ _ _ _ _ _ _ (scatter mem ss (chunkData P c)) = _
  rw [scatter_spec mem ss hcount, hplaces, hchunk]

/-- Chunks that pass their checksums fill their places in order. -/
theorem readChunks_append (hslab : 0 < slab) (hfits : ∀ r ∈ runs, Fits slab r) {file : Bytes}
    {size : Nat} (hP : P.length < 2 ^ 60) (hlen : (places slab runs).length = P.length)
    (more : List Nat) (left c : Nat) (hc : c + left ≤ chunks P.length)
    (hread : ∀ k, c ≤ k → k < c + left →
      readAt file (size + kChunk * k) (roundUp (chunkData P k).length kAlign) = padded P k) :
    readChunks file slab runs P.length size c ((List.range' c left).map (sumOf P) ++ more) mem =
      readChunks file slab runs P.length size (c + left) more
        (writeAll mem (((places slab runs).drop (kChunk * c)).take (kChunk * left))
          ((P.drop (kChunk * c)).take (kChunk * left))) := by
  induction left generalizing c mem with
  | zero => simp [writeAll]
  | succ left ih =>
    have hlt := chunk_lt hP (show c < chunks P.length by omega)
    have hstep := @readChunks_cons P mem slab runs hslab hfits file size c
      ((List.range' (c + 1) left).map (sumOf P) ++ more) hlen (Nat.le_of_lt hlt)
      (hread c (Nat.le_refl _) (by omega))
    have hnext := @ih (writeAll mem (((places slab runs).drop (kChunk * c)).take kChunk)
      (chunkData P c)) (c + 1) (by omega) fun k hk hlt => hread k (by omega) (by omega)
    have hsplit : ∀ {α : Type} (l : List α), (l.drop (kChunk * c)).take (kChunk * (left + 1)) =
        (l.drop (kChunk * c)).take kChunk ++ (l.drop (kChunk * (c + 1))).take (kChunk * left) := by
      intro α l
      have hmul : kChunk * (left + 1) = kChunk + kChunk * left := by
        rw [Nat.mul_succ, Nat.add_comm]
      rw [hmul, List.take_add, List.drop_drop, Nat.mul_succ]
    have hequal : (((places slab runs).drop (kChunk * c)).take kChunk).length =
        ((P.drop (kChunk * c)).take kChunk).length := by
      rw [List.length_take, List.length_take, List.length_drop, List.length_drop, hlen]
    rw [List.range'_succ, List.map_cons, List.cons_append, hstep, hnext, hsplit, hsplit,
      writeAll_append hequal, show c + 1 + left = c + (left + 1) by omega]
    exact Eq.refl _

/-- A read of a whole file fills the runs with the payload. -/
theorem readChunks_eq (hslab : 0 < slab) (hfits : ∀ r ∈ runs, Fits slab r) {header : Bytes}
    (hP : P.length < 2 ^ 60) (hlen : (places slab runs).length = P.length) :
    readChunks (header ++ body P (chunks P.length)) slab runs P.length header.length 0
        ((List.range (chunks P.length)).map (sumOf P)) mem =
      (writeAll mem (places slab runs) P, none) := by
  have h := @readChunks_append P mem slab runs hslab hfits (header ++ body P (chunks P.length))
    header.length hP hlen [] (chunks P.length) 0 (by omega) fun k _ hk =>
      readAt_body hP (by omega)
  have hend := chunks_end hP
  rw [List.append_nil, ← List.range_eq_range', Nat.mul_zero, List.drop_zero, List.drop_zero,
    List.take_of_length_le hend, List.take_of_length_le (by rw [hlen]; exact hend)] at h
  rw [h, readChunks]

theorem length_body_all (hP : P.length < 2 ^ 60) :
    (body P (chunks P.length)).length = roundUp P.length kAlign := by
  have hcount := chunks_eq hP
  cases hq : chunks P.length with
  | zero =>
    rw [roundUp_eq (by omega)]
    simp [body]
    omega
  | succ q =>
    have hcons : body P (q + 1) = body P q ++ padded P q := by simp [body, List.range_succ]
    have hlen := @length_body P hP q (Or.inr (by omega))
    rw [hcons, List.length_append, hlen, length_padded, length_chunkData, kChunk_eq,
      roundUp_eq (by omega), roundUp_eq (by omega)]
    omega

end Chunks

/-- What reads back: the entry's blob and layout, and its payload in the runs given, the rest of
memory as it was. -/
structure ReadsBack (identity : Bytes) (mem : Memory) (slab : Nat) (runs : List StoreRun)
    (layout : List Nat) (blob file : Bytes) : Prop where
  header : ∃ crcs size, readHeader file identity = some ⟨blob, layout, crcs, size⟩
  payload : ∀ (slab' : Nat) (runs' : List StoreRun) (mem' : Memory), 0 < slab' →
    (∀ r ∈ runs', Fits slab' r) → (runs'.map StoreRun.bytes).sum = layout.sum →
      (places slab' runs').Nodup →
        (readEntry file identity slab' runs' layout mem').2 = none ∧
        payloadBytes (readEntry file identity slab' runs' layout mem').1 slab' runs' =
          payloadBytes mem slab runs ∧
        ∀ p ∉ places slab' runs',
          (readEntry file identity slab' runs' layout mem').1 p.1 p.2 = mem' p.1 p.2

section Entries

variable {identity blob : Bytes} {layout : List Nat} {mem : Memory} {slab : Nat}
  {runs : List StoreRun}

/-- The header of a written entry as a read finds it. -/
theorem readHeader_written (hid : identity.length = 32) (hheld : Held blob layout)
    (hsizes : ∀ v ∈ layout, v < 2 ^ 64) (P rest : Bytes) (hP : P.length = layout.sum) :
    readHeader (headerOf identity blob layout ((List.range (chunks layout.sum)).map (sumOf P))
        (headerBytes blob.length layout.length (chunks layout.sum)) ++ rest) identity =
      if 4096 < layout.length then none
      else if 2 ^ 32 < chunks layout.sum ∨ 2 ^ 32 < blob.length then none
      else some ⟨blob, layout, (List.range (chunks layout.sum)).map (sumOf P),
        headerBytes blob.length layout.length (chunks layout.sum)⟩ := by
  have hblob := hheld.blob
  have hruns := hheld.runs
  have hpayload := hheld.payload
  have hcount := chunks_eq hpayload
  have hhead := headerBytes_eq hblob hruns (show chunks layout.sum < 2 ^ 40 by omega)
  have hlen : ((List.range (chunks layout.sum)).map (sumOf P)).length = chunks layout.sum := by
    rw [List.length_map, List.length_range]
  have hsay : Sayable blob layout ((List.range (chunks layout.sum)).map (sumOf P)) := by
    refine ⟨by omega, hruns, hsizes, by omega, fun v hv => ?_⟩
    obtain ⟨c, -, rfl⟩ := List.mem_map.mp hv
    exact (crc32c 0 (chunkData P c)).isLt
  have h := @readHeader_eq identity blob layout ((List.range (chunks layout.sum)).map (sumOf P))
    (headerBytes blob.length layout.length (chunks layout.sum)) hid hsay (by rw [hlen])
    (by rw [kAlign_eq]; omega) (by rw [hlen]; omega) rest
  rw [h, hlen, hheld.payloadOf]
  have hsame : ¬ chunks layout.sum ≠ chunks layout.sum := by simp
  rw [if_neg hsame]

/-- An entry file holds what was put, whatever runs it came from and go to: it is as long as its
room was counted, and reads back exactly where its sizes are no more than a read takes. -/
theorem entry_reads_back (hid : identity.length = 32) (hheld : Held blob layout)
    (hsizes : ∀ v ∈ layout, v < 2 ^ 64) (hslab : 0 < slab) (hfits : ∀ r ∈ runs, Fits slab r)
    (hsum : (runs.map StoreRun.bytes).sum = layout.sum) :
    ∃ file, writeEntry identity mem slab runs layout blob = .ok file ∧
      file.length = fileBytes blob.length layout ∧
      (readHeader file identity ≠ none ↔
        layout.length ≤ 4096 ∧ blob.length ≤ 2 ^ 32 ∧ chunks layout.sum ≤ 2 ^ 32) ∧
      (readHeader file identity ≠ none → ReadsBack identity mem slab runs layout blob file) := by
  have hlen : (payloadBytes mem slab runs).length = layout.sum := by
    rw [length_payloadBytes, hsum]
  have hblob := hheld.blob
  have hruns := hheld.runs
  have hpayload := hheld.payload
  have hcount := chunks_eq hpayload
  have hhead := headerBytes_eq hblob hruns (show chunks layout.sum < 2 ^ 40 by omega)
  have hP : (payloadBytes mem slab runs).length < 2 ^ 60 := by
    rw [hlen]
    exact hpayload
  have hheader := @length_headerOf blob layout identity hid
    ((List.range (chunks layout.sum)).map (sumOf (payloadBytes mem slab runs)))
    (headerBytes blob.length layout.length (chunks layout.sum)) (by
      rw [hhead, List.length_map, List.length_range]
      omega)
  have hbody := length_body_all hP
  have hread := readHeader_written hid hheld hsizes (payloadBytes mem slab runs)
    (body (payloadBytes mem slab runs) (chunks layout.sum)) hlen
  refine ⟨_, writeEntry_eq hid hheld hslab hfits hsum, ?_, ?_, ?_⟩
  · rw [List.length_append, hheader, ← hlen, hbody, hlen, fileBytes, hheld.payloadOf]
    have hround := @roundUp_eq layout.sum (by omega)
    exact (Nat.mod_eq_of_lt (by rw [hhead, hround]; omega)).symm
  · rw [hread]
    by_cases hmany : 4096 < layout.length
    · rw [if_pos hmany]
      exact ⟨fun h => absurd (Eq.refl _) h, fun h => by omega⟩
    · rw [if_neg hmany]
      by_cases hlong : 2 ^ 32 < chunks layout.sum ∨ 2 ^ 32 < blob.length
      · rw [if_pos hlong]
        exact ⟨fun h => absurd (Eq.refl _) h, fun h => by omega⟩
      · rw [if_neg hlong]
        exact ⟨fun _ => by omega, fun _ => by simp⟩
  · intro hsome
    have hfound : readHeader (headerOf identity blob layout
        ((List.range (chunks layout.sum)).map (sumOf (payloadBytes mem slab runs)))
        (headerBytes blob.length layout.length (chunks layout.sum)) ++
          body (payloadBytes mem slab runs) (chunks layout.sum)) identity =
        some ⟨blob, layout, (List.range (chunks layout.sum)).map (sumOf (payloadBytes mem slab runs)),
          headerBytes blob.length layout.length (chunks layout.sum)⟩ := by
      rw [hread] at hsome ⊢
      split at hsome
      next => exact absurd (Eq.refl _) hsome
      next hmany =>
        rw [if_neg hmany]
        split at hsome
        next => exact absurd (Eq.refl _) hsome
        next hlong => rw [if_neg hlong]
    refine ⟨⟨_, _, hfound⟩, fun slab' runs' mem' hslab' hfits' hsum' hnodup => ?_⟩
    have hplaces : (places slab' runs').length = (payloadBytes mem slab runs).length := by
      rw [length_places, hsum', hlen]
    have hall := @readChunks_eq (payloadBytes mem slab runs) mem' slab' runs' hslab' hfits'
      (headerOf identity blob layout
        ((List.range (chunks layout.sum)).map (sumOf (payloadBytes mem slab runs)))
        (headerBytes blob.length layout.length (chunks layout.sum))) hP hplaces
    have hresult : readEntry (headerOf identity blob layout
        ((List.range (chunks layout.sum)).map (sumOf (payloadBytes mem slab runs)))
        (headerBytes blob.length layout.length (chunks layout.sum)) ++
          body (payloadBytes mem slab runs) (chunks layout.sum)) identity slab' runs' layout mem' =
        (writeAll mem' (places slab' runs') (payloadBytes mem slab runs), none) := by
      rw [hlen, hheader] at hall
      unfold readEntry
      rw [hfound]
      dsimp only
      rw [if_neg (by simp), hheld.payloadOf, hall]
    rw [hresult]
    exact ⟨Eq.refl _, writeAll_get hnodup hplaces, fun p hp => writeAll_other hp⟩

/-- Five bytes over the seam of two slabs. -/
theorem entry_reads_back_seam : ∃ file,
    writeEntry (zeros 32) (fun _ place => UInt8.ofNat place) 4 [⟨[7, 9], 5, 2⟩] [5] [1, 2] = .ok file ∧
      file.length = fileBytes 2 [5] ∧
      (readHeader file (zeros 32) ≠ none ↔
        [5].length ≤ 4096 ∧ [1, 2].length ≤ 2 ^ 32 ∧ chunks [5].sum ≤ 2 ^ 32) ∧
      (readHeader file (zeros 32) ≠ none →
        ReadsBack (zeros 32) (fun _ place => UInt8.ofNat place) 4 [⟨[7, 9], 5, 2⟩] [5] [1, 2] file) := by
  have hid : (zeros 32).length = 32 := by simp [zeros]
  have hheld : Held [1, 2] [5] := ⟨by simp, by simp, by simp⟩
  refine entry_reads_back hid hheld (by simp) (by omega) (fun r hr => ?_) (by simp)
  obtain rfl := List.mem_singleton.mp hr
  intro i hi
  simp at hi ⊢
  omega

end Entries

section Changes

/-- The bytes a read checks: the header's to the end of its checksum, and each chunk's data. -/
def Checked (e : EntryHeader) (i : Nat) : Prop :=
  i < 76 + 8 * e.layout.length + 4 * e.crcs.length + e.blob.length ∨
    ∃ c < e.crcs.length, e.size + kChunk * c ≤ i ∧
      i < e.size + kChunk * c + min kChunk (payloadOf e.layout - kChunk * c)

/-- The bytes of the three counts a header is measured by. -/
def Counts (e : EntryHeader) (i : Nat) : Prop :=
  52 ≤ i ∧ i < 64 ∨ 64 + 8 * e.layout.length ≤ i ∧ i < 72 + 8 * e.layout.length

variable {file identity blob : Bytes} {layout : List Nat} {slab : Nat} {runs : List StoreRun}

/-- What a header that is read says of its file. -/
structure Found (file : Bytes) (b n q : Nat) (e : EntryHeader) : Prop where
  blob : b = leValue ((file.drop 52).take 8)
  runs : n = leValue ((file.drop 60).take 4)
  count : q = leValue ((file.drop (64 + 8 * n)).take 8)
  size : e.size = headerBytes b n q
  long : 76 + 8 * n + 4 * q + b ≤ file.length
  sum : (crc32c 0 (file.take (72 + 8 * n + 4 * q + b))).toNat =
    leValue ((file.drop (72 + 8 * n + 4 * q + b)).take 4)
  layout : e.layout = (List.range n).map fun i => leValue ((file.drop (64 + 8 * i)).take 8)
  crcs : e.crcs = (List.range q).map fun i => leValue ((file.drop (72 + 8 * n + 4 * i)).take 4)
  text : e.blob.length = b

theorem length_of_readAt {a size : Nat} (halign : a ≤ size) (hfirst : (file.take a).length = a)
    (hrest : ¬ (a < size ∧ (readAt file a (size - a)).length ≠ size - a)) : size ≤ file.length := by
  rw [List.length_take] at hfirst
  rw [readAt, List.length_take, List.length_drop] at hrest
  omega

theorem found_of_readHeader {e : EntryHeader} (h : readHeader file identity = some e) :
    ∃ b n q, Found file b n q e := by
  have hfirst : readAt file 0 kAlign = file.take kAlign := by simp [readAt]
  have hsmall : 76 + 8 * 4096 ≤ kAlign := by decide
  unfold readHeader at h
  dsimp only at h
  rw [hfirst] at h
  by_cases hlen : (file.take kAlign).length ≠ kAlign
  · rw [if_pos hlen] at h
    cases h
  rw [if_neg hlen] at h
  by_cases hmagic : (file.take kAlign).take 16 ≠ kMagic
  · rw [if_pos hmagic] at h
    cases h
  rw [if_neg hmagic] at h
  split at h
  next => cases h
  next =>
    rw [window (show 52 + 8 ≤ kAlign by omega), window (show 60 + 4 ≤ kAlign by omega)] at h
    obtain ⟨n, hn⟩ : ∃ n, n = leValue ((file.drop 60).take 4) := ⟨_, Eq.refl _⟩
    obtain ⟨b, hb⟩ : ∃ b, b = leValue ((file.drop 52).take 8) := ⟨_, Eq.refl _⟩
    rw [← hn, ← hb] at h
    by_cases hmany : 4096 < n
    · rw [if_pos hmany] at h
      cases h
    rw [if_neg hmany, window (show 64 + 8 * n + 8 ≤ kAlign by omega)] at h
    obtain ⟨q, hq⟩ : ∃ q, q = leValue ((file.drop (64 + 8 * n)).take 8) := ⟨_, Eq.refl _⟩
    rw [← hq] at h
    by_cases hlong : 2 ^ 32 < q ∨ 2 ^ 32 < b
    · rw [if_pos hlong] at h
      cases h
    rw [if_neg hlong] at h
    obtain ⟨size, hsize⟩ : ∃ size, size = headerBytes b n q := ⟨_, Eq.refl _⟩
    rw [← hsize] at h
    have heq := @headerBytes_eq b n q (by omega) (by omega) (by omega)
    have halign : kAlign ≤ size := by
      rw [hsize, heq, kAlign_eq]
      omega
    have hroom : 76 + 8 * n + 4 * q + b ≤ size := by
      rw [hsize, heq]
      omega
    rw [take_readAt file halign] at h
    split at h
    next => cases h
    next hshort =>
      split at h
      next => cases h
      next hsum =>
        split at h
        next => cases h
        next =>
          have hlength := length_of_readAt halign (not_not.mp hlen) hshort
          rw [not_not, List.take_take, Nat.min_eq_left (by omega), window (by omega)] at hsum
          obtain rfl := Option.some.inj h
          refine ⟨b, n, q, hb, hn, hq, hsize, by omega, hsum, ?_, ?_, ?_⟩
          · apply List.map_congr_left
            intro i hi
            rw [List.mem_range] at hi
            rw [window (by omega)]
          · apply List.map_congr_left
            intro i hi
            rw [List.mem_range] at hi
            rw [window (by omega)]
          · rw [List.length_take, List.length_drop, List.length_take]
            omega

theorem window_congr {file file' : Bytes} {o k : Nat}
    (h : ∀ i, o ≤ i → i < o + k → file'[i]? = file[i]?) :
    (file'.drop o).take k = (file.drop o).take k := by
  apply List.ext_getElem?
  intro i
  rw [List.getElem?_take, List.getElem?_take]
  by_cases hi : i < k
  · rw [if_pos hi, if_pos hi, List.getElem?_drop, List.getElem?_drop]
    exact h _ (by omega) (by omega)
  · rw [if_neg hi, if_neg hi]

variable {file' : Bytes} {b n q : Nat} {e e' : EntryHeader}

/-- The start of a file says what its header is. -/
theorem Found.same (h : Found file b n q e) (h' : Found file' b n q e')
    (hsame : file'.take (76 + 8 * n + 4 * q + b) = file.take (76 + 8 * n + 4 * q + b)) :
    e'.layout = e.layout ∧ e'.crcs = e.crcs ∧ e'.size = e.size := by
  have hwindow : ∀ o k, o + k ≤ 76 + 8 * n + 4 * q + b →
      (file'.drop o).take k = (file.drop o).take k := by
    intro o k hk
    rw [← window hk, hsame, window hk]
  refine ⟨?_, ?_, h'.size.trans h.size.symm⟩
  · rw [h.layout, h'.layout]
    apply List.map_congr_left
    intro i hi
    rw [List.mem_range] at hi
    rw [hwindow _ _ (by omega)]
  · rw [h.crcs, h'.crcs]
    apply List.map_congr_left
    intro i hi
    rw [List.mem_range] at hi
    rw [hwindow _ _ (by omega)]

/-- A header changed within four bytes is not read, whatever the change is to. -/
theorem Found.eq_of_fourApart {p : Nat} (h : Found file b n q e) (h' : Found file' b n q e')
    (hfour : FourApart p file' file) :
    file'.take (76 + 8 * n + 4 * q + b) = file.take (76 + 8 * n + 4 * q + b) := by
  have hresidue : ∀ {f : Bytes} {e : EntryHeader}, Found f b n q e →
      CyclicChecks.feed Crc32c.poly (~~~0#32) (byteBits (f.take (76 + 8 * n + 4 * q + b))) =
        CyclicChecks.shifts Crc32c.poly 32 (~~~0#32) := by
    intro f e hf
    have hlong := hf.long
    have hsplit : f.take (76 + 8 * n + 4 * q + b) =
        f.take (72 + 8 * n + 4 * q + b) ++ (f.drop (72 + 8 * n + 4 * q + b)).take 4 := by
      rw [← List.take_add]
      congr 1
      omega
    rw [hsplit]
    refine (crc32c_residue _ ?_).mp hf.sum
    rw [List.length_take, List.length_drop]
    omega
  by_contra hne
  exact (hfour.take _).feed_ne hne _ ((hresidue h').trans (hresidue h).symm)

theorem le_roundUp {m : Nat} (h : m ≤ kChunk) : m ≤ roundUp m kAlign := by
  rw [kChunk_eq] at h
  rw [roundUp_eq (by omega)]
  omega

/-- The bytes of the data of chunk `c`, as the file has them. -/
def chunkIn (file : Bytes) (size payload c : Nat) : Bytes :=
  (file.drop (size + kChunk * c)).take (min kChunk (payload - kChunk * c))

/-- Every chunk of a read that ended well passed its checksum. -/
theorem sums_of_readChunks {payload size c : Nat} {crcs : List Nat} {mem : Memory}
    (h : (readChunks file slab runs payload size c crcs mem).2 = none) (k : Nat)
    (hk : k < crcs.length) :
    (crc32c 0 (chunkIn file size payload (c + k))).toNat = crcs[k] := by
  induction crcs generalizing c k mem with
  | nil => simp at hk
  | cons crc crcs ih =>
    rw [readChunks] at h
    split at h
    next => cases h
    next =>
      split at h
      next => cases h
      next hsum =>
        have htake : (readAt file (size + kChunk * c)
            (roundUp (min kChunk (payload - kChunk * c)) kAlign)).take
              (min kChunk (payload - kChunk * c)) = chunkIn file size payload c := by
          rw [readAt, List.take_take, Nat.min_eq_left (le_roundUp (Nat.min_le_left _ _)), chunkIn]
        rw [not_not, htake] at hsum
        cases hspans : streamSpans slab runs (kChunk * c) (min kChunk (payload - kChunk * c)) with
        | none =>
          rw [hspans] at h
          cases h
        | some ss =>
          rw [hspans] at h
          cases k with
          | zero => exact hsum
          | succ k =>
            have hrest := ih h k (by simpa using hk)
            rw [show c + 1 + k = c + (k + 1) by omega] at hrest
            exact hrest

/-- A file that a read takes is taken no more once bytes it checks are changed within four, whatever
the change is to, unless it is to the counts the header is measured by. -/
theorem changed_refused {mem mem' : Memory} {slab' : Nat} {runs' : List StoreRun}
    {layout' : List Nat} {p : Nat} (he : readHeader file identity = some e)
    (hread : (readEntry file identity slab runs layout mem).2 = none)
    (hfour : FourApart p file' file) (hcounts : ∀ i, Counts e i → file'[i]? = file[i]?)
    (hdiff : ∃ i, Checked e i ∧ file'[i]? ≠ file[i]?) :
    (readEntry file' identity slab' runs' layout' mem').2 ≠ none := by
  intro hread'
  unfold readEntry at hread hread'
  rw [he] at hread
  cases he' : readHeader file' identity with
  | none =>
    rw [he'] at hread'
    cases hread'
  | some e' =>
    rw [he'] at hread'
    dsimp only at hread hread'
    split at hread
    next => cases hread
    next =>
      split at hread'
      next => cases hread'
      next =>
        obtain ⟨b, n, q, h⟩ := found_of_readHeader he
        obtain ⟨b', n', q', h'⟩ := found_of_readHeader he'
        have hn : e.layout.length = n := by rw [h.layout, List.length_map, List.length_range]
        have hq : e.crcs.length = q := by rw [h.crcs, List.length_map, List.length_range]
        have hlow : ∀ i, 52 ≤ i → i < 64 → file'[i]? = file[i]? := fun i hlo hhi =>
          hcounts i (Or.inl ⟨hlo, hhi⟩)
        have hhigh : ∀ i, 64 + 8 * n ≤ i → i < 64 + 8 * n + 8 → file'[i]? = file[i]? :=
          fun i hlo hhi => hcounts i (Or.inr (by rw [hn]; omega))
        obtain rfl : b' = b := by
          rw [h'.blob, h.blob, window_congr fun i hlo hhi => hlow i hlo (by omega)]
        obtain rfl : n' = n := by
          rw [h'.runs, h.runs, window_congr fun i hlo hhi => hlow i (by omega) (by omega)]
        obtain rfl : q' = q := by
          rw [h'.count, h.count, window_congr hhigh]
        have hstart := h.eq_of_fourApart h' hfour
        obtain ⟨hlayout, hcrcs, hsize⟩ := h.same h' hstart
        rw [hlayout, hcrcs, hsize] at hread'
        obtain ⟨i, hi, hne⟩ := hdiff
        apply hne
        rcases hi with hi | ⟨c, hc, hlo, hhi⟩
        · rw [hn, hq, h.text] at hi
          have := congrArg (fun l : Bytes => l[i]?) hstart
          simpa only [List.getElem?_take, if_pos hi] using this
        · have hsum := sums_of_readChunks hread c hc
          have hsum' := sums_of_readChunks hread' c hc
          rw [Nat.zero_add] at hsum hsum'
          have hsame : chunkIn file' e.size (payloadOf e.layout) c =
              chunkIn file e.size (payloadOf e.layout) c := by
            by_contra hne
            refine ((hfour.drop _).take _).crc32c_ne hne 0 (BitVec.eq_of_toNat_eq ?_)
            exact hsum'.trans hsum.symm
          have hat := congrArg (fun l : Bytes => l[i - (e.size + kChunk * c)]?) hsame
          have hin : i - (e.size + kChunk * c) < min kChunk (payloadOf e.layout - kChunk * c) := by
            omega
          have hplace : e.size + kChunk * c + (i - (e.size + kChunk * c)) = i := by omega
          simpa only [chunkIn, List.getElem?_take, if_pos hin, List.getElem?_drop, hplace] using hat

/-- An entry of nothing fills nothing. -/
theorem readEntry_nothing {size : Nat} {mem : Memory}
    (he : readHeader file identity = some ⟨blob, [], [], size⟩) :
    (readEntry file identity slab runs [] mem).2 = none := by
  unfold readEntry
  rw [he]
  dsimp only
  rw [if_neg (by simp), readChunks]

/-- The checksum of an entry of nothing made one more. -/
theorem changed_refused_empty : ∃ file file' : Bytes, file' ≠ file ∧
    readHeader file (zeros 32) ≠ none ∧
      (readEntry file' (zeros 32) 1 [] [] fun _ _ => 0).2 ≠ none := by
  have hid : (zeros 32).length = 32 := by simp [zeros]
  have hheld : Held [] [] := ⟨by simp, by simp, by simp⟩
  have hchunks : chunks 0 = 0 := by rw [chunks_eq (by omega)]
  have hhead := @readHeader_written (zeros 32) [] [] hid hheld (by simp) [] [] (by simp)
  have hsize := @headerBytes_eq 0 0 0 (by omega) (by omega) (by omega)
  simp only [List.sum_nil, List.length_nil, hchunks, List.range_zero, List.map_nil,
    List.append_nil] at hhead
  rw [if_neg (by omega), if_neg (by omega)] at hhead
  have hlen := @length_headerOf [] [] (zeros 32) hid [] (headerBytes 0 0 0) (by
    rw [hsize, List.length_nil, List.length_nil]
    omega)
  generalize headerOf (zeros 32) [] [] [] (headerBytes 0 0 0) = file at hhead hlen
  have hlong : 72 < file.length := by
    rw [hlen, hsize]
    omega
  generalize headerBytes 0 0 0 = size at hhead hlen
  clear hsize hlen
  have hother : file.set 72 (file.getD 72 0 + 1) ≠ file := by
    intro h
    have hat := congrArg (fun l : Bytes => l[72]?) h
    simp [hlong] at hat
  refine ⟨file, file.set 72 (file.getD 72 0 + 1), hother, by simp [hhead], ?_⟩
  have hread := @readEntry_nothing file (zeros 32) [] 1 [] size (fun _ _ => 0) hhead
  have hfour : FourApart 72 (file.set 72 (file.getD 72 0 + 1)) file := by
    refine ⟨by simp, fun i hi => ?_⟩
    rw [List.getElem?_set_ne (by omega)]
  refine changed_refused hhead hread hfour (fun i hi => ?_) ⟨72, ?_, ?_⟩
  · simp only [Counts, List.length_nil] at hi
    rw [List.getElem?_set_ne (by omega)]
  · exact Or.inl (by simp)
  · simp [hlong]

end Changes

end DiskEntry

end Llmx
