import Llmx.GgufRoundTrip
import Llmx.GgufSpans

namespace Llmx

namespace Gguf

open Fallible Stretches Triples

variable {limits : Limits} {file : File} {p : Nat}

theorem WellTyped.known {levels : Nat} {v : MetaValue} (h : WellTyped limits levels v) :
    (valueType v.vtype).isSome := by
  cases h <;> exact rfl

theorem writeKv_back {kv : List (Bytes × MetaValue)} {keys : List Bytes}
    (hvalues : ∀ item ∈ kv, item.1.length ≤ limits.string ∧
      WellTyped limits maxArrayDepth item.2)
    (hkeys : (kv.map Prod.fst).Nodup) (hnew : ∀ key ∈ kv.map Prod.fst, key ∉ keys) :
    ∃ bytes, writeKv kv = .ok bytes ∧ kv.length * 13 ≤ bytes.length ∧
      ∀ file p, Yields file p (readKv limits kv.length keys) bytes kv := by
  induction kv generalizing keys with
  | nil => exact ⟨[], by rw [writeKv], by simp, fun _ _ => Yields.pure⟩
  | cons item kv ih =>
    obtain ⟨key, v⟩ := item
    rw [List.forall_mem_cons] at hvalues
    rw [List.map_cons, List.nodup_cons] at hkeys
    rw [List.map_cons, List.forall_mem_cons] at hnew
    obtain ⟨⟨hstring, hv⟩, hvalues⟩ := hvalues
    have hlater : ∀ k ∈ kv.map Prod.fst, k ∉ key :: keys := by
      intro k hk hmem
      rcases List.mem_cons.mp hmem with rfl | hmem
      · exact hkeys.1 hk
      · exact hnew.2 k hk hmem
    obtain ⟨rest, hrest, hleast, hread⟩ := ih hvalues hkeys.2 hlater
    obtain ⟨value, hvalue, hmin, hback⟩ := hv.readBack
    obtain ⟨width, hwidth, hpos, htype⟩ := isSome_minimumValueSize hv.known
    have hwide := hmin width hwidth
    refine ⟨writeString key ++ (leBytes 4 v.vtype ++ value) ++ rest, ?_, ?_, fun file p => ?_⟩
    · rw [writeKv, writeMetaValue, hvalue, hrest]
      exact rfl
    · simp only [writeString, List.length_append, length_leBytes, List.length_cons]
      omega
    · rw [List.append_assoc, List.length_cons]
      apply (Yields.string hstring).bind
      apply Yields.ite_neg hnew.1
      have hmeta : ∀ p, Yields file p (readMetaValue limits) (leBytes 4 v.vtype ++ value) v :=
        fun p => (Yields.int (by omega)).bind (hback file _)
      exact (hmeta _).bind (hread file _).bind_pure

/-- A tensor a file's table can say. -/
structure Sayable (limits : Limits) (t : TensorInfo) : Prop where
  name : t.name.length ≤ limits.string
  rank : t.ne.length ≤ 4
  dims : ∀ d ∈ t.ne, d < 2 ^ 64
  type : t.type < 2 ^ 32

theorem length_flatMap_leBytes (width : Nat) (ns : List Nat) :
    (ns.flatMap (leBytes width)).length = ns.length * width := by
  induction ns with
  | nil => simp
  | cons n ns ih =>
    rw [List.flatMap_cons, List.length_append, ih, length_leBytes, List.length_cons]
    rw [Nat.add_mul]
    omega

theorem Yields.tensorInfo {t : TensorInfo} (h : Sayable limits t) (hoffset : t.offset < 2 ^ 64) :
    Yields file p (readTensorInfo limits) (writeTensorInfo t t.offset) t := by
  have hrank := h.rank
  apply (Yields.string h.name).bind
  apply (Yields.int (by omega)).bind
  apply Yields.ite_neg (by omega)
  apply Yields.require_bind
  · simp only [List.length_append, length_flatMap_leBytes, length_leBytes]
    omega
  apply Yields.reserve_bind
  apply (Yields.many fun d hd p => Yields.int (h.dims d hd)).bind
  exact (Yields.int h.type).bind (Yields.int hoffset).bind_pure

/-- The tensors with the offsets their data is laid out at, from `offset` to `last`. -/
inductive Placed (alignment : Nat) :
    List TensorInfo → Nat → List TensorInfo → Nat → Prop
  | nil {offset} : Placed alignment [] offset [] offset
  | cons {t ts offset bytes stop next ts' last} : t.dataSize = .ok bytes →
      checkedAdd offset bytes = .ok stop → alignedSize stop alignment = .ok next →
      Placed alignment ts next ts' last →
      Placed alignment (t :: ts) offset ({ t with offset := offset } :: ts') last

theorem writeTensorInfos_placed {alignment offset : Nat} {ts : List TensorInfo} {infos : Bytes}
    (h : writeTensorInfos alignment ts offset = .ok infos) :
    ∃ ts' last, Placed alignment ts offset ts' last ∧
      infos = ts'.flatMap fun t => writeTensorInfo t t.offset := by
  induction ts generalizing offset infos with
  | nil =>
    obtain rfl := Except.ok.inj h
    exact ⟨[], offset, Placed.nil, by simp⟩
  | cons t ts ih =>
    rw [writeTensorInfos] at h
    obtain ⟨bytes, hbytes, h⟩ := exists_of_bind h
    obtain ⟨stop, hstop, h⟩ := exists_of_bind h
    obtain ⟨next, hnext, h⟩ := exists_of_bind h
    obtain ⟨rest, hrest, h⟩ := exists_of_bind h
    obtain rfl := Except.ok.inj h
    obtain ⟨ts', last, hplaced, hinfos⟩ := ih hrest
    refine ⟨_, last, Placed.cons hbytes hstop hnext hplaced, ?_⟩
    rw [List.flatMap_cons, ← hinfos]
    exact rfl

theorem padding_mod {a : Nat} (ha : 0 < a) (n : Nat) : (n + (a - n % a) % a) % a = 0 := by
  have hlt := Nat.mod_lt n ha
  by_cases hz : n % a = 0
  · rw [hz, Nat.sub_zero, Nat.mod_self, Nat.add_zero]
    exact hz
  · rw [Nat.mod_eq_of_lt (show a - n % a < a by omega), Nat.add_mod,
      Nat.mod_eq_of_lt (show a - n % a < a by omega),
      show n % a + (a - n % a) = a by omega, Nat.mod_self]

theorem length_padTo (out : Bytes) (a : Nat) :
    (padTo out a).length = out.length + (a - out.length % a) % a := by
  simp [padTo]

/-- Offsets laid out from an aligned one are aligned and grow by each tensor's bytes. -/
theorem Placed.spaced {alignment offset last : Nat} {ts ts' : List TensorInfo}
    (h : Placed alignment ts offset ts' last) (ha : 0 < alignment)
    (hoffset : offset % alignment = 0) :
    offset ≤ last ∧ last % alignment = 0 ∧
      (∀ t ∈ ts', t.offset % alignment = 0 ∧ offset ≤ t.offset ∧
        ∃ bytes, t.dataSize = .ok bytes ∧ t.offset + bytes ≤ last) ∧
      ts'.Pairwise fun t u => ∀ bytes, t.dataSize = .ok bytes → t.offset + bytes ≤ u.offset := by
  induction h with
  | nil => exact ⟨Nat.le_refl _, hoffset, by simp, List.Pairwise.nil⟩
  | @cons t ts offset bytes stop next ts' last hbytes hstop hnext _ ih =>
    have hstop := checkedAdd_eq hstop
    have hnext := alignedSize_eq hnext
    have hmod : next % alignment = 0 := by rw [hnext]; exact padding_mod ha stop
    obtain ⟨hle, hlast, hts, hpairs⟩ := ih hmod
    refine ⟨by omega, hlast, ?_, ?_⟩
    · rw [List.forall_mem_cons]
      refine ⟨⟨hoffset, Nat.le_refl offset, bytes, hbytes, ?_⟩, fun t' ht' => ?_⟩
      · show offset + bytes ≤ last
        omega
      · obtain ⟨hmod', hge, hsize⟩ := hts t' ht'
        exact ⟨hmod', by omega, hsize⟩
    · refine List.pairwise_cons.mpr ⟨fun u hu n hn => ?_, hpairs⟩
      obtain ⟨_, hge, _⟩ := hts u hu
      obtain rfl : bytes = n := Except.ok.inj (hbytes.symm.trans hn)
      show offset + bytes ≤ u.offset
      omega

theorem Placed.shapes {alignment offset last : Nat} {ts ts' : List TensorInfo}
    (h : Placed alignment ts offset ts' last) :
    ts'.map (fun t => (t.name, t.ne, t.type)) = ts.map fun t => (t.name, t.ne, t.type) := by
  induction h with
  | nil => simp
  | cons _ _ _ _ ih => rw [List.map_cons, List.map_cons, ih]

theorem checkExtents_of {alignment available : Nat} {ts : List TensorInfo}
    (h : ∀ t ∈ ts, t.offset % alignment = 0 ∧
      ∃ bytes, t.dataSize = .ok bytes ∧ t.offset + bytes ≤ available) :
    checkExtents alignment available ts = .ok () := by
  induction ts with
  | nil => rw [checkExtents]
  | cons t ts ih =>
    rw [List.forall_mem_cons] at h
    obtain ⟨⟨haligned, bytes, hbytes, hfit⟩, hts⟩ := h
    rw [checkExtents, hbytes]
    dsimp only
    rw [if_neg (by omega), if_neg (by omega)]
    exact ih hts

/-- What is written after an aligned start puts each tensor's bytes at its offset. -/
theorem writeData_placed {m : Model} {bytesOf : Nat → Option Bytes}
    {alignment offset last start k : Nat} {ts ts' : List TensorInfo} {out : Bytes}
    (h : Placed alignment ts offset ts' last) (hts : m.tensors.drop k = ts)
    (hdata : ∀ i t n, m.tensors[i]? = some t → t.dataSize = .ok n →
      n ≤ ((bytesOf i).getD []).length)
    (hout : out.length = start + offset) (hstart : start % alignment = 0) :
    ∃ data, writeData m bytesOf alignment (List.range' k ts.length) out = .ok (out ++ data) ∧
      out.length + data.length = start + last ∧
      ∀ i t n, ts'[i]? = some t → t.dataSize = .ok n →
        ((out ++ data).drop (start + t.offset)).take n = ((bytesOf (k + i)).getD []).take n := by
  induction h generalizing k out with
  | nil =>
    refine ⟨[], ?_, by simpa using hout, by simp⟩
    rw [List.length_nil, List.range'_zero, writeData, List.append_nil]
  | @cons t ts offset bytes stop next ts' last hbytes hstop hnext _ ih =>
    have hstop := checkedAdd_eq hstop
    have hnext := alignedSize_eq hnext
    have hk : m.tensors[k]? = some t := by
      rw [← List.head?_drop, hts, List.head?_cons]
    have hlen := hdata k t bytes hk hbytes
    generalize hb : ((bytesOf k).getD []).take bytes = written
    have hwritten : written.length = bytes := by
      rw [← hb, List.length_take]
      omega
    have hmod : (out ++ written).length % alignment = stop % alignment := by
      rw [List.length_append, hwritten, hout, Nat.add_assoc, ← hstop, Nat.add_mod, hstart,
        Nat.zero_add, Nat.mod_mod]
    have hpad : (padTo (out ++ written) alignment).length = start + next := by
      rw [length_padTo, hmod, List.length_append]
      omega
    have hrest : m.tensors.drop (k + 1) = ts := by
      rw [← List.tail_drop, hts, List.tail_cons]
    obtain ⟨data, hrun, hend, hat⟩ := ih hrest hpad
    generalize hz : List.replicate ((alignment - (out ++ written).length % alignment) % alignment)
      (0 : UInt8) = zeros
    have hpadded : padTo (out ++ written) alignment = out ++ (written ++ zeros) := by
      rw [padTo, hz, List.append_assoc]
    rw [hpadded] at hrun hend hat
    refine ⟨written ++ zeros ++ data, ?_, ?_, ?_⟩
    · rw [List.length_cons, List.range'_succ, writeData, Model.tensorBytes, hk]
      show (do
        let bytes ← t.dataSize
        writeData m bytesOf alignment _ (padTo (out ++ ((bytesOf k).getD []).take bytes) _)) = _
      rw [hbytes]
      show writeData m bytesOf alignment _ (padTo (out ++ ((bytesOf k).getD []).take bytes) _) = _
      rw [hb, hpadded, hrun, List.append_assoc]
    · simp only [List.length_append] at hend ⊢
      omega
    · intro i t' n ht' hn
      cases i with
      | zero =>
        obtain rfl := Option.some.inj ht'
        obtain rfl : bytes = n := Except.ok.inj (hbytes.symm.trans hn)
        show ((out ++ _).drop (start + offset)).take bytes = ((bytesOf k).getD []).take bytes
        rw [← hout, List.drop_left, List.append_assoc, hb]
        exact List.take_left' hwritten
      | succ i =>
        have hat := hat i t' n ht' hn
        rw [List.append_assoc] at hat
        rw [hat, Nat.add_right_comm, Nat.add_assoc]

/-- A model in memory that a file can say: its tensors' bytes are in its blob. -/
structure InMemory (limits : Limits) (m : Model) : Prop where
  memory : m.segments = []
  kvCount : m.kv.length ≤ limits.kv
  tensorCount : m.tensors.length ≤ limits.tensors
  keys : (m.kv.map Prod.fst).Nodup
  names : (m.tensors.map TensorInfo.name).Nodup
  values : ∀ item ∈ m.kv, item.1.length ≤ limits.string ∧
    WellTyped limits maxArrayDepth item.2
  plain : ∀ item ∈ m.kv, isSplitKey item.1 = false
  tensors : ∀ t ∈ m.tensors, Sayable limits t
  data : ∀ (i : Nat) (t : TensorInfo), m.tensors[i]? = some t →
    ∃ bytes, t.dataSize = .ok bytes ∧ m.offsets.getD i 0 + bytes ≤ m.blob.length

/-- Tensor `i`'s bytes in a model's blob. -/
def Model.bytesAt (m : Model) (i bytes : Nat) : Bytes :=
  (m.blob.drop (m.offsets.getD i 0)).take bytes

theorem InMemory.tensorData {m : Model} (h : InMemory limits m) (i : Nat) :
    (m.tensorData i).getD [] = m.blob.drop (m.offsets.getD i 0) := by
  unfold Model.tensorData
  rw [h.memory, List.isEmpty_nil, if_pos rfl]
  split
  next hempty => simp [List.isEmpty_iff.mp hempty]
  next => exact Option.getD_some

theorem fileAlignment_ok {kv : List (Bytes × MetaValue)} {alignment : Nat}
    (h : fileAlignment kv = .ok alignment) : 0 < alignment ∧ alignment % floatAlign = 0 := by
  unfold fileAlignment at h
  split at h
  · obtain rfl := Except.ok.inj h
    decide
  · split at h
    · cases h
    next hvalid =>
      obtain rfl := Except.ok.inj h
      unfold floatAlign
      omega

namespace Yields

variable {β : Type} {c : Bytes} {d : β}

theorem position_bind {f : Nat → Read β} (hf : Yields file p (f p) c d) :
    Yields file p (position >>= f) c d :=
  hf

theorem size_bind {f : Nat → Read β} (hf : Yields file p (f file.size) c d) :
    Yields file p (size >>= f) c d :=
  hf

end Yields

theorem Placed.sayable {alignment offset last : Nat} {ts ts' : List TensorInfo}
    (h : Placed alignment ts offset ts' last) (hts : ∀ t ∈ ts, Sayable limits t) :
    ∀ t ∈ ts', Sayable limits t := by
  induction h with
  | nil => exact hts
  | cons _ _ _ _ ih =>
    rw [List.forall_mem_cons] at hts ⊢
    exact ⟨⟨hts.1.name, hts.1.rank, hts.1.dims, hts.1.type⟩, ih hts.2⟩

theorem length_writeTensorInfos (ts : List TensorInfo) :
    ts.length * 24 ≤ (ts.flatMap fun t => writeTensorInfo t t.offset).length := by
  induction ts with
  | nil => simp
  | cons t ts ih =>
    have hone : 24 ≤ (writeTensorInfo t t.offset).length := by
      simp only [writeTensorInfo, writeString, List.length_append, length_leBytes]
      omega
    rw [List.flatMap_cons, List.length_cons, List.length_append]
    omega

/-- The tensors laid out lie in what follows the header. -/
theorem Yields.extents {alignment last q : Nat} {kv : List (Bytes × MetaValue)}
    {ts ts' : List TensorInfo} {head : Bytes} (hplaced : Placed alignment ts 0 ts' last)
    (hpos : 0 < alignment) (hsize : file.size = (padTo head alignment).length + last)
    (hq : q = head.length) :
    Yields file q (do
      let p ← position
      let dataStart ← raise (alignedSize p alignment)
      let total ← size
      if total < dataStart then throw (.failure "GGUF data section exceeds file extent")
      else do
        raise (checkExtents alignment (total - dataStart) ts')
        return (⟨kv, ts', dataStart⟩ : Header)) [] ⟨kv, ts', (padTo head alignment).length⟩ := by
  obtain ⟨_, _, hspaced, _⟩ := hplaced.spaced hpos (Nat.zero_mod alignment)
  have hpad := length_padTo head alignment
  have hlt := file.size_lt
  have haligned : alignedSize q alignment = .ok (padTo head alignment).length := by
    rw [hpad, hq]
    apply checkedAdd_of_le
    unfold sizeMax
    omega
  have hextents :
      checkExtents alignment (file.size - (padTo head alignment).length) ts' = .ok () := by
    apply checkExtents_of
    intro t ht
    obtain ⟨haligned, _, bytes, hbytes, hfit⟩ := hspaced t ht
    exact ⟨haligned, bytes, hbytes, by omega⟩
  apply Yields.position_bind
  apply Yields.raise_bind haligned
  apply Yields.size_bind
  apply Yields.ite_neg (by omega)
  exact Yields.raise_bind hextents Yields.pure

/-- The header of what is written is read back, each tensor at the offset its data is laid out
at. -/
theorem readHeader_written {m : Model} (hm : InMemory limits m) {alignment last : Nat}
    {kv infos head : Bytes} {ts' : List TensorInfo}
    (halignment : fileAlignment m.kv = .ok alignment) (hkv : writeKv m.kv = .ok kv)
    (hplaced : Placed alignment m.tensors 0 ts' last)
    (hinfos : infos = ts'.flatMap fun t => writeTensorInfo t t.offset)
    (hhead : head = fileStart m.tensors.length m.kv.length ++ (kv ++ infos))
    (hsize : file.size = (padTo head alignment).length + last) :
    Yields file 0 (readHeader limits) head ⟨m.kv, ts', (padTo head alignment).length⟩ := by
  obtain ⟨kv', hkv', hleast, hread⟩ :=
    writeKv_back hm.values hm.keys fun key _ => List.not_mem_nil (a := key)
  obtain rfl : kv = kv' := Except.ok.inj (hkv.symm.trans hkv')
  have hpos := (fileAlignment_ok halignment).1
  obtain ⟨_, _, hspaced, _⟩ := hplaced.spaced hpos (Nat.zero_mod alignment)
  have hcount : ts'.length = m.tensors.length := by
    simpa using congrArg List.length hplaced.shapes
  have hinfosLength := length_writeTensorInfos ts'
  rw [← hinfos, hcount] at hinfosLength
  have hlt := file.size_lt
  have hpad := length_padTo head alignment
  have hkvCount := hm.kvCount
  have htensorCount := hm.tensorCount
  have hkvLimit := limits.kv_lt
  have htensorLimit := limits.tensors_lt
  have hbytes : head = leBytes 4 magic ++ (leBytes 4 version ++ (leBytes 8 m.tensors.length ++
      (leBytes 8 m.kv.length ++ (kv ++ (infos ++ []))))) := by
    rw [hhead, fileStart]
    simp only [List.append_assoc, List.append_nil]
  have hlength := congrArg List.length hbytes
  simp only [List.length_append, length_leBytes, List.length_nil] at hlength
  have hyields : Yields file 0 (readHeader limits) (leBytes 4 magic ++ (leBytes 4 version ++
      (leBytes 8 m.tensors.length ++ (leBytes 8 m.kv.length ++ (kv ++ (infos ++ []))))))
      ⟨m.kv, ts', (padTo head alignment).length⟩ := by
    apply (Yields.int (by decide)).bind
    apply Yields.ite_neg (by omega)
    apply (Yields.int (by decide)).bind
    apply Yields.ite_neg (by omega)
    apply (Yields.int (by omega)).bind
    apply (Yields.int (by omega)).bind
    apply Yields.remaining_bind
    intro left hleft
    simp only [List.length_append, List.length_nil] at hleft
    apply Yields.ite_neg (by omega)
    apply Yields.reserve_bind
    apply Yields.reserve_bind
    apply (hread _ _).bind
    apply Yields.raise_bind halignment
    have hmany : ∀ q, Yields file q (readMany (readTensorInfo limits) m.tensors.length) infos
        ts' := by
      intro q
      rw [hinfos, ← hcount]
      apply Yields.many
      intro t ht q
      obtain ⟨_, _, bytes, _, hfit⟩ := hspaced t ht
      exact Yields.tensorInfo (hplaced.sayable hm.tensors t ht) (by omega)
    apply (hmany _).bind
    apply Yields.extents hplaced hpos hsize
    rw [hlength]
    simp only [length_leBytes]
    omega
  rwa [← hbytes] at hyields

theorem File.slice_ofBytes {bytes : Bytes} (h : bytes.length < 2 ^ 63) {p n : Nat}
    (hp : p + n ≤ bytes.length) : (File.ofBytes bytes h).slice p n = (bytes.drop p).take n := by
  apply List.ext_getElem
  · simp [File.slice]
    omega
  · intro k hk _
    have hk : k < n := by simpa [File.slice] using hk
    have hget : p + k < bytes.length := by omega
    simp [File.slice, File.ofBytes, hget]

theorem File.ofBytes_holds {head rest : Bytes} (h : (head ++ rest).length < 2 ^ 63) :
    (File.ofBytes (head ++ rest) h).Holds 0 head := by
  have hle : 0 + head.length ≤ (head ++ rest).length := by
    rw [List.length_append]
    omega
  refine ⟨hle, ?_⟩
  rw [File.slice_ofBytes h hle, List.drop_zero, List.take_left]

theorem find_none {kv : List (Bytes × MetaValue)} {key : Bytes}
    (h : ∀ item ∈ kv, item.1 ≠ key) : find kv key = none := by
  unfold find
  rw [List.find?_eq_none.mpr (by simpa using h), Option.map_none]

theorem splitInfo_plain {kv : List (Bytes × MetaValue)}
    (h : ∀ item ∈ kv, isSplitKey item.1 = false) : splitInfo kv = .ok ⟨0, 1, 0, false⟩ := by
  have hkeys : ∀ item ∈ kv, item.1 ≠ splitNo ∧ item.1 ≠ splitCount ∧ item.1 ≠ splitTensors := by
    intro item hitem
    have hplain := h item hitem
    unfold isSplitKey at hplain
    simpa [and_assoc] using hplain
  unfold splitInfo
  rw [find_none fun item hitem => (hkeys item hitem).1,
    find_none fun item hitem => (hkeys item hitem).2.1,
    find_none fun item hitem => (hkeys item hitem).2.2]

theorem joinOffsets_of {base : Nat} {ts : List TensorInfo}
    (h : ∀ t ∈ ts, t.offset % floatAlign = 0 ∧ base + t.offset ≤ sizeMax) :
    joinOffsets base ts = .ok (ts.map fun t => base + t.offset) := by
  induction ts with
  | nil => rw [joinOffsets, List.map_nil]
  | cons t ts ih =>
    rw [List.forall_mem_cons] at h
    rw [joinOffsets, if_neg (by omega), checkedAdd_of_le h.1.2, ih h.2]
    exact rfl

/-- A file without split keys is read as one data section, every tensor where its header says. -/
theorem readGguf_single {files : Files} {path : Bytes} {header : Header} {r : Reader}
    (hfile : files path = some file)
    (hheader : readHeader limits (Reader.new file) = .ok header r)
    (hcount : header.tensors.length ≤ limits.tensors)
    (hplain : ∀ item ∈ header.kv, isSplitKey item.1 = false)
    (hnames : (header.tensors.map TensorInfo.name).Nodup)
    (hoffsets : ∀ t ∈ header.tensors, t.offset % floatAlign = 0 ∧ t.offset ≤ file.size) :
    ∃ m, readGguf limits files path = .ok m ∧ m.kv = header.kv ∧ m.tensors = header.tensors ∧
      m.offsets = header.tensors.map TensorInfo.offset ∧
      (header.tensors ≠ [] → m.segments =
        [⟨path, none, header.dataStart, 0, file.size - header.dataStart, 0⟩]) := by
  have hlimit := limits.tensors_lt
  have hlt := file.size_lt
  have hinput : readInput limits files path 0 =
      .ok (header, ⟨path, header.dataStart, file.size, 0, header.tensors.length⟩) := by
    rw [readInput_some hfile, hheader, inputOf]
    rw [checkedAdd_of_le (by unfold sizeMax; omega), Nat.zero_add, ok_bind,
      if_neg (Nat.not_lt.mpr hcount)]
    exact rfl
  have htable : readTable limits files path header
      ⟨path, header.dataStart, file.size, 0, header.tensors.length⟩ ⟨0, 1, 0, false⟩ =
      .ok ⟨header.tensors, (header.tensors.map TensorInfo.name).reverse ++ [],
        [⟨path, header.dataStart, file.size, 0, header.tensors.length⟩]⟩ := by
    unfold readTable checkTensors
    rw [if_neg (by simp), if_neg (by simp), insertNames_of hnames (by simp)]
    exact rfl
  unfold readGguf
  rw [hinput, ok_bind]
  dsimp only
  rw [splitInfo_plain hplain, ok_bind, htable, ok_bind, layOut]
  dsimp only
  by_cases hempty : header.tensors = []
  · rw [hempty, List.length_nil, if_pos rfl, layOut, ok_bind]
    exact ⟨_, rfl, rfl, rfl, rfl, fun h => absurd rfl h⟩
  · have hpos : 0 < header.tensors.length := List.length_pos_iff.mpr hempty
    have hjoin : joinOffsets 0 ((header.tensors.drop 0).take (header.tensors.length - 0)) =
        .ok (header.tensors.map fun t => 0 + t.offset) := by
      rw [List.drop_zero, Nat.sub_zero, List.take_length]
      apply joinOffsets_of
      intro t ht
      have hoffset := hoffsets t ht
      unfold sizeMax
      omega
    have hstop : checkedAdd 0 (file.size - header.dataStart) =
        .ok (0 + (file.size - header.dataStart)) := checkedAdd_of_le (by unfold sizeMax; omega)
    obtain ⟨next, hnext⟩ : ∃ next,
        alignedSize (0 + (file.size - header.dataStart)) floatAlign = .ok next := by
      refine ⟨_, checkedAdd_of_le ?_⟩
      unfold sizeMax floatAlign
      omega
    rw [if_neg (by omega), hjoin, ok_bind, hstop, ok_bind, hnext, ok_bind, layOut, ok_bind,
      pure_bind]
    refine ⟨_, rfl, rfl, rfl, ?_, fun _ => rfl⟩
    simp

theorem writeTensorInfos_of_placed {alignment offset last : Nat} {ts ts' : List TensorInfo}
    (h : Placed alignment ts offset ts' last) :
    ∃ infos, writeTensorInfos alignment ts offset = .ok infos := by
  induction h with
  | nil => exact ⟨[], by rw [writeTensorInfos]⟩
  | cons hbytes hstop hnext _ ih =>
    obtain ⟨rest, hrest⟩ := ih
    rw [writeTensorInfos, hbytes, ok_bind, hstop, ok_bind, hnext, ok_bind, hrest, ok_bind]
    exact ⟨_, rfl⟩

theorem InMemory.checkMapped {m : Model} (h : InMemory limits m) {is : List Nat}
    (his : ∀ i ∈ is, i < m.tensors.length) : Gguf.checkMapped m m.tensorData is = .ok () := by
  induction is with
  | nil => rw [Gguf.checkMapped]
  | cons i is ih =>
    rw [List.forall_mem_cons] at his
    rw [Gguf.checkMapped]
    split
    · exact ih his.2
    next hnone =>
      have hget := List.getElem?_eq_getElem his.1
      obtain ⟨bytes, hbytes, hfit⟩ := h.data i _ hget
      have hempty := h.tensorData i
      rw [Option.not_isSome_iff_eq_none.mp hnone, Option.getD_none] at hempty
      have hlength := congrArg List.length hempty
      rw [List.length_nil, List.length_drop] at hlength
      unfold Model.tensorBytes
      rw [hget]
      dsimp only
      rw [hbytes, ok_bind, if_neg (by omega)]
      exact ih his.2

/-- A model in memory is written wherever its data can be laid out in machine words. -/
theorem InMemory.written {m : Model} (h : InMemory limits m) {alignment last : Nat}
    {ts' : List TensorInfo} (halignment : fileAlignment m.kv = .ok alignment)
    (hplaced : Placed alignment m.tensors 0 ts' last) :
    ∃ bytes, writeGguf m m.tensorData = .ok bytes := by
  obtain ⟨kv, hkv, _⟩ := writeKv_back h.values h.keys fun key _ => List.not_mem_nil (a := key)
  obtain ⟨infos, hinfos⟩ := writeTensorInfos_of_placed hplaced
  have hpos := (fileAlignment_ok halignment).1
  have hdata : ∀ i t n, m.tensors[i]? = some t → t.dataSize = .ok n →
      n ≤ ((m.tensorData i).getD []).length := by
    intro i t n ht hn
    obtain ⟨n', hn', hfit⟩ := h.data i t ht
    obtain rfl : n = n' := Except.ok.inj (hn.symm.trans hn')
    rw [h.tensorData, List.length_drop]
    omega
  generalize hhead : fileStart m.tensors.length m.kv.length ++ (kv ++ infos) = head
  have hstart : (padTo head alignment).length % alignment = 0 := by
    rw [length_padTo]
    exact padding_mod hpos head.length
  obtain ⟨data, hrun, _⟩ :=
    writeData_placed hplaced (List.drop_zero) hdata (Nat.add_zero _).symm hstart
  unfold writeGguf
  rw [halignment, ok_bind, h.checkMapped (by simp), ok_bind, hkv, ok_bind, hinfos, ok_bind, hhead,
    List.range_eq_range', hrun]
  exact ⟨_, rfl⟩

/-- A written file is its header, padded, and data laid out tensor by tensor. -/
theorem writeGguf_placed {m : Model} (hm : InMemory limits m) {bytes : Bytes}
    (h : writeGguf m m.tensorData = .ok bytes) :
    ∃ alignment kv ts' last data, fileAlignment m.kv = .ok alignment ∧ writeKv m.kv = .ok kv ∧
      Placed alignment m.tensors 0 ts' last ∧
      ∃ head, head = fileStart m.tensors.length m.kv.length ++
          (kv ++ ts'.flatMap fun t => writeTensorInfo t t.offset) ∧
        bytes = padTo head alignment ++ data ∧
        bytes.length = (padTo head alignment).length + last ∧
        ∀ i t n, ts'[i]? = some t → t.dataSize = .ok n →
          (bytes.drop ((padTo head alignment).length + t.offset)).take n = m.bytesAt i n := by
  obtain ⟨alignment, halignment, h⟩ := exists_of_bind h
  obtain ⟨_, _, h⟩ := exists_of_bind h
  obtain ⟨kv, hkv, h⟩ := exists_of_bind h
  obtain ⟨infos, hinfos, h⟩ := exists_of_bind h
  obtain ⟨ts', last, hplaced, rfl⟩ := writeTensorInfos_placed hinfos
  have hpos := (fileAlignment_ok halignment).1
  generalize hhead : fileStart m.tensors.length m.kv.length ++
    (kv ++ ts'.flatMap fun t => writeTensorInfo t t.offset) = head at h
  have hstart : (padTo head alignment).length % alignment = 0 := by
    rw [length_padTo]
    exact padding_mod hpos head.length
  have hdata : ∀ i t n, m.tensors[i]? = some t → t.dataSize = .ok n →
      n ≤ ((m.tensorData i).getD []).length := by
    intro i t n ht hn
    obtain ⟨n', hn', hfit⟩ := hm.data i t ht
    obtain rfl : n = n' := Except.ok.inj (hn.symm.trans hn')
    rw [hm.tensorData, List.length_drop]
    omega
  obtain ⟨data, hrun, hlength, hat⟩ :=
    writeData_placed hplaced (List.drop_zero) hdata (Nat.add_zero _).symm hstart
  rw [← List.range_eq_range', h] at hrun
  obtain rfl := Except.ok.inj hrun
  refine ⟨alignment, kv, ts', last, data, halignment, hkv, hplaced, head, hhead.symm, rfl, ?_, ?_⟩
  · rw [List.length_append, hlength]
  · intro i t n ht hn
    rw [hat i t n ht hn, hm.tensorData, Nat.zero_add]
    exact rfl

/-- What is written of a model is read back as the model: its metadata, its tensors, and at each
tensor's offset in the data its bytes. -/
theorem written_read_back {m : Model} (hm : InMemory limits m) {bytes : Bytes}
    (h : writeGguf m m.tensorData = .ok bytes) (hsize : bytes.length < 2 ^ 63) {files : Files}
    {path : Bytes} (hfile : files path = some (File.ofBytes bytes hsize)) :
    ∃ m' start, readGguf limits files path = .ok m' ∧ m'.kv = m.kv ∧
      m'.tensors.map (fun t => (t.name, t.ne, t.type)) =
        m.tensors.map (fun t => (t.name, t.ne, t.type)) ∧
      (∀ (i : Nat) (t : TensorInfo), m'.tensors[i]? = some t →
        ∃ n, t.dataSize = .ok n ∧ m'.span i = .ok ⟨path, start + t.offset, n⟩ ∧
          start + t.offset + n ≤ bytes.length ∧
          (bytes.drop (start + t.offset)).take n = m.bytesAt i n) ∧
      m'.tensors.Pairwise fun t u => ∀ n, t.dataSize = .ok n → t.offset + n ≤ u.offset := by
  obtain ⟨alignment, kv, ts', last, data, halignment, hkv, hplaced, head, hhead, hbytes, hlength,
    hat⟩ := writeGguf_placed hm h
  obtain ⟨hpos, hfloat⟩ := fileAlignment_ok halignment
  obtain ⟨_, _, hspaced, hpairs⟩ := hplaced.spaced hpos (Nat.zero_mod alignment)
  have hshapes := hplaced.shapes
  have hcount : ts'.length = m.tensors.length := by simpa using congrArg List.length hshapes
  have hnames : ts'.map TensorInfo.name = m.tensors.map TensorInfo.name := by
    have := congrArg (List.map Prod.fst) hshapes
    simpa [List.map_map, Function.comp_def] using this
  have hheader : Yields (File.ofBytes bytes hsize) 0 (readHeader limits) head
      ⟨m.kv, ts', (padTo head alignment).length⟩ :=
    readHeader_written hm halignment hkv hplaced rfl hhead hlength
  have hholds : (File.ofBytes bytes hsize).Holds 0 head := by
    have hsplit : ∃ rest, bytes = head ++ rest := by
      rw [hbytes, padTo, List.append_assoc]
      exact ⟨_, rfl⟩
    obtain ⟨rest, rfl⟩ := hsplit
    exact File.ofBytes_holds hsize
  obtain ⟨log, hrun⟩ := hheader hholds []
  generalize hstart : (padTo head alignment).length = start at hrun hlength hat
  have htensors := hm.tensorCount
  have hlt : ∀ t ∈ ts', t.offset % floatAlign = 0 ∧ t.offset ≤ bytes.length := by
    intro t ht
    obtain ⟨hmod, _, n, _, hfit⟩ := hspaced t ht
    refine ⟨?_, by omega⟩
    exact Nat.mod_eq_zero_of_dvd
      ((Nat.dvd_of_mod_eq_zero hfloat).trans (Nat.dvd_of_mod_eq_zero hmod))
  have hread : readHeader limits (Reader.new (File.ofBytes bytes hsize)) =
      .ok (⟨m.kv, ts', start⟩ : Header) _ := hrun
  obtain ⟨m', hm', hkv', htensors', hoffsets', hsegments⟩ := readGguf_single hfile hread
    (by rw [hcount]; exact htensors) hm.plain (by rw [hnames]; exact hm.names) hlt
  refine ⟨m', start, hm', hkv', by rw [htensors', hshapes], ?_, by rwa [htensors']⟩
  intro i t ht
  rw [htensors'] at ht
  have hmem : t ∈ ts' := List.mem_of_getElem? ht
  obtain ⟨_, _, n, hn, hfit⟩ := hspaced t hmem
  have hsegments := hsegments (List.ne_nil_of_mem hmem)
  have hoffset : m'.offsets[i]? = some t.offset := by
    rw [hoffsets', List.getElem?_map, ht, Option.map_some]
  refine ⟨n, hn, ?_, by omega, hat i t n ht hn⟩
  have hsegment : m'.segmentOf i =
      some ⟨path, none, start, 0, (File.ofBytes bytes hsize).size - start, 0⟩ := by
    apply Model.segmentOf_eq (j := 0)
    · rw [hsegments]
      exact rfl
    · intro k s hk hs
      obtain rfl : k = 0 := by omega
      rw [hsegments] at hs
      obtain rfl := Option.some.inj hs
      exact Nat.zero_le i
    · intro k s hk hs
      rw [hsegments] at hs
      obtain ⟨hlt, _⟩ := List.getElem?_eq_some_iff.mp hs
      rw [List.length_singleton] at hlt
      omega
  rw [Model.span_eq hsegment (by rw [htensors']; exact ht) hn,
    Model.place_eq hoffset (by omega) (Nat.zero_le _) (by dsimp only; omega), Nat.sub_zero]

def smallLimits : Limits :=
  ⟨2 ^ 30, 2 ^ 30, 2 ^ 30, 2 ^ 30, by decide, by decide, by decide, by decide⟩

/-- One entry of metadata and a tensor of two floats. -/
def smallModel : Model :=
  ⟨[(ascii ['a'], .unsigned ValueType.uint8.id 7)], [⟨ascii ['w'], [2], 0, 0⟩],
    [1, 2, 3, 4, 5, 6, 7, 8], [], [0]⟩

def smallBytes : Bytes :=
  fileStart 1 1 ++ (writeString (ascii ['a']) ++ (leBytes 4 0 ++ [7])) ++
    (writeString (ascii ['w']) ++ (leBytes 4 1 ++ (leBytes 8 2 ++ (leBytes 4 0 ++ leBytes 8 0)))) ++
    (List.replicate 25 0 ++ ([1, 2, 3, 4, 5, 6, 7, 8] ++ List.replicate 24 0))

theorem smallModel_inMemory : InMemory smallLimits smallModel where
  memory := by exact rfl
  kvCount := by decide
  tensorCount := by decide
  keys := by decide
  names := by decide
  values := by
    intro item hitem
    obtain rfl := List.mem_singleton.mp hitem
    exact ⟨by decide, WellTyped.uint8 (by decide)⟩
  plain := by decide
  tensors := by
    intro t ht
    obtain rfl := List.mem_singleton.mp ht
    exact ⟨by decide, by decide, by decide, by decide⟩
  data := by
    intro i t ht
    cases i with
    | zero =>
      obtain rfl := Option.some.inj ht
      exact ⟨8, rfl, by decide⟩
    | succ i => cases ht

theorem smallBytes_length : smallBytes.length < 2 ^ 63 := by
  simp [smallBytes, fileStart, writeString, ascii]

set_option maxRecDepth 4000 in
theorem smallModel_written : writeGguf smallModel smallModel.tensorData = .ok smallBytes := by
  exact rfl

theorem smallModel_read_back :
    ∃ m' start, readGguf smallLimits
        (fun _ => some (File.ofBytes smallBytes smallBytes_length)) (ascii ['m']) = .ok m' ∧
      m'.kv = smallModel.kv ∧
      m'.tensors.map (fun t => (t.name, t.ne, t.type)) =
        smallModel.tensors.map (fun t => (t.name, t.ne, t.type)) ∧
      (∀ (i : Nat) (t : TensorInfo), m'.tensors[i]? = some t →
        ∃ n, t.dataSize = .ok n ∧ m'.span i = .ok ⟨ascii ['m'], start + t.offset, n⟩ ∧
          start + t.offset + n ≤ smallBytes.length ∧
          (smallBytes.drop (start + t.offset)).take n = smallModel.bytesAt i n) ∧
      m'.tensors.Pairwise fun t u => ∀ n, t.dataSize = .ok n → t.offset + n ≤ u.offset :=
  written_read_back smallModel_inMemory smallModel_written smallBytes_length rfl

end Gguf

end Llmx
