import Llmx.GgufReader
import Llmx.UpperBound

namespace Llmx

namespace Gguf

def checkedAdd (a b : Nat) : Except Error Nat :=
  if sizeMax - a < b then .error (.runtime "GGUF size addition overflow") else .ok (a + b)

def alignedSize (value alignment : Nat) : Except Error Nat :=
  checkedAdd value ((alignment - value % alignment) % alignment)

structure TensorInfo where
  name : Bytes
  ne : List Nat
  type : Nat
  offset : Nat
deriving DecidableEq, Repr

/-- What the quantization layer refuses, raised here. -/
def raised {α : Type} (x : Except String α) : Except Error α :=
  match x with
  | .ok a => .ok a
  | .error what => .error (.runtime what)

/-- The tensor's bytes. -/
def TensorInfo.dataSize (t : TensorInfo) : Except Error Nat :=
  raised (⟨byteText t.name, t.ne, t.type⟩ : Llmx.TensorInfo).dataSize

/-- The bytes of rows of `ne[0]` values of storage type `qt`, in machine words that keep nothing of
what passes their size. -/
def TensorInfo.machineBytes (t : TensorInfo) (qt : StorageType) : Nat :=
  let elements := if 0 ∈ t.ne then 0 else t.ne.foldl (fun n d => word (n * d)) 1
  let rows := if elements ≠ 0 then elements / t.ne.headD 1 else 0
  word (word (t.ne.headD 1 / qt.blockSize * rows) * qt.typeSize)

/-- A file's data section among those of a model: where it starts in the file, the offset of its
first byte, its size, and the index of its first tensor; `file` once it is mapped. -/
structure Segment where
  path : Bytes
  file : Option File
  start : Nat
  base : Nat
  size : Nat
  first : Nat

structure Model where
  kv : List (Bytes × MetaValue)
  tensors : List TensorInfo
  blob : Bytes
  segments : List Segment
  offsets : List Nat

structure FileSpan where
  path : Bytes
  offset : Nat
  bytes : Nat
deriving DecidableEq, Repr

def find (kv : List (Bytes × MetaValue)) (key : Bytes) : Option MetaValue :=
  (kv.find? fun item => item.1 == key).map Prod.snd

namespace Model

/-- The segment of the file holding tensor `i`, the last whose first tensor is not past it. -/
def segmentOf (m : Model) (i : Nat) : Option Segment :=
  m.segments[upperBound (fun k => (m.segments[k]?).any fun s => i < s.first) 0 m.segments.length
    - 1]?

/-- The extent the offsets address. -/
def payloadSize (m : Model) : Nat :=
  match m.segments.getLast? with
  | some s => word (s.base + s.size)
  | none => m.blob.length

def tensorBytes (m : Model) (i : Nat) : Except Error Nat :=
  match m.tensors[i]? with
  | some t => t.dataSize
  | none => .error .pastEnd

/-- Where tensor `i` starts in its file. -/
def place (m : Model) (s : Segment) (i : Nat) : Nat :=
  word (s.start + word (m.offsets.getD i 0 + 2 ^ 64 - s.base))

/-- What is in memory from tensor `i`'s first byte on, `none` where that is nowhere. -/
def tensorData (m : Model) (i : Nat) : Option Bytes :=
  if m.segments.isEmpty then
    if m.blob.isEmpty then none else some (m.blob.drop (m.offsets.getD i 0))
  else
    (m.segmentOf i).bind fun s => s.file.map fun f => f.slice (m.place s i) (f.size - m.place s i)

/-- Where tensor `i`'s bytes lie in its file. -/
def span (m : Model) (i : Nat) : Except Error FileSpan :=
  match m.segmentOf i with
  | none =>
    .error (.logic ("GGUF model has no file: " ++
      byteText (((m.tensors[i]?).map TensorInfo.name).getD [])))
  | some s => do
    let bytes ← m.tensorBytes i
    return ⟨s.path, m.place s i, bytes⟩

end Model

def generalAlignment : Bytes :=
  ascii ['g', 'e', 'n', 'e', 'r', 'a', 'l', '.', 'a', 'l', 'i', 'g', 'n', 'm', 'e', 'n', 't']

def fileAlignment (kv : List (Bytes × MetaValue)) : Except Error Nat :=
  match find kv generalAlignment with
  | none => .ok 32
  | some value =>
    if value.vtype ≠ ValueType.uint32.id ∨ value.u = 0 ∨ value.u % 8 ≠ 0 ∨ 2 ^ 32 - 1 < value.u then
      .error (.runtime "invalid GGUF general.alignment")
    else .ok value.u

def magic : Nat := 0x46554747

def version : Nat := 3

/-- The metadata's entries, `keys` those read before. -/
def readKv (limits : Limits) : Nat → List Bytes → Read (List (Bytes × MetaValue))
  | 0, _ => pure []
  | n + 1, keys => do
    let key ← readString limits
    if key ∈ keys then throw (.runtime ("duplicate GGUF metadata: " ++ byteText key))
    else do
      let value ← readMetaValue limits
      let rest ← readKv limits n (key :: keys)
      return (key, value) :: rest

def readTensorInfo (limits : Limits) : Read TensorInfo := do
  let name ← readString limits
  let nd ← readInt 4
  if 4 < nd then throw (.runtime "unsupported GGUF tensor rank")
  else do
    require (nd * 8 + 12)
    reserve nd 8
    let ne ← readMany (readInt 8) nd
    let type ← readInt 4
    let offset ← readInt 8
    return ⟨name, ne, type, offset⟩

/-- Whether each tensor lies, aligned, in the `available` bytes of a data section. -/
def checkExtents (alignment available : Nat) : List TensorInfo → Except Error Unit
  | [] => .ok ()
  | t :: ts =>
    match t.dataSize with
    | .error e => .error e
    | .ok bytes =>
      if t.offset % alignment ≠ 0 then .error (.runtime "unaligned GGUF tensor offset")
      else if available < t.offset ∨ available - t.offset < bytes then
        .error (.failure "GGUF tensor exceeds file extent")
      else checkExtents alignment available ts

/-- What a file says before its data, and where that starts. -/
structure Header where
  kv : List (Bytes × MetaValue)
  tensors : List TensorInfo
  dataStart : Nat

def readHeader (limits : Limits) : Read Header := do
  let m ← readInt 4
  if m ≠ magic then throw (.runtime "not a GGUF file (bad magic)")
  else do
    let ver ← readInt 4
    if ver ≠ version then throw (.runtime "unsupported GGUF version")
    else do
      let ntc ← readInt 8
      let nkv ← readInt 8
      let left ← remaining
      if left / 24 < ntc ∨ left / 13 < nkv ∨ limits.tensors < ntc ∨ limits.kv < nkv then
        throw (.runtime "GGUF entry count exceeds file or allocation limit")
      else do
        reserve nkv 13
        reserve ntc 24
        let kv ← readKv limits nkv []
        let alignment ← raise (fileAlignment kv)
        let tensors ← readMany (readTensorInfo limits) ntc
        let p ← position
        let dataStart ← raise (alignedSize p alignment)
        let total ← size
        if total < dataStart then throw (.failure "GGUF data section exceeds file extent")
        else do
          raise (checkExtents alignment (total - dataStart) tensors)
          return ⟨kv, tensors, dataStart⟩

end Gguf

namespace Gguf

/-- One file of a model: where its data starts, its size as its header was read, and the model's
tensors it holds, from `first` to `stop`. -/
structure Input where
  path : Bytes
  dataStart : Nat
  size : Nat
  first : Nat
  stop : Nat

/-- What is under each path. -/
abbrev Files := Bytes → Option File

/-- A file of `size` bytes whose header was read or refused, its tensors the model's from `first`
on. -/
def inputOf (limits : Limits) (path : Bytes) (first size : Nat) :
    EStateM.Result Error Reader Header → Except Error (Header × Input)
  | .error e _ => .error e
  | .ok header _ => do
    let total ← checkedAdd first header.tensors.length
    if limits.tensors < total then
      throw (.runtime "GGUF tensor count exceeds allocation limit")
    else return (header, ⟨path, header.dataStart, size, first, total⟩)

def readInput (limits : Limits) (files : Files) (path : Bytes) (first : Nat) :
    Except Error (Header × Input) :=
  match files path with
  | none => .error (.runtime ("cannot open file: " ++ byteText path))
  | some file => inputOf limits path first file.size (readHeader limits (Reader.new file))

structure Split where
  no : Nat
  count : Nat
  tensors : Nat
  present : Bool
deriving DecidableEq, Repr

def splitNo : Bytes := ascii ['s', 'p', 'l', 'i', 't', '.', 'n', 'o']

def splitCount : Bytes := ascii ['s', 'p', 'l', 'i', 't', '.', 'c', 'o', 'u', 'n', 't']

def splitTensors : Bytes :=
  ascii ['s', 'p', 'l', 'i', 't', '.', 't', 'e', 'n', 's', 'o', 'r', 's', '.', 'c', 'o', 'u', 'n',
    't']

def invalidSplit : Error := .runtime "invalid GGUF split metadata"

/-- What a file says of the set of shards it is of. -/
def splitInfo (kv : List (Bytes × MetaValue)) : Except Error Split :=
  match find kv splitNo, find kv splitCount, find kv splitTensors with
  | none, none, none => .ok ⟨0, 1, 0, false⟩
  | some no, some count, some tensors =>
    if no.vtype ≠ ValueType.uint16.id ∨ count.vtype ≠ ValueType.uint16.id ∨
        tensors.vtype ≠ ValueType.int32.id ∨ count.u = 0 ∨ count.u ≤ no.u ∨ tensors.i < 0 then
      .error invalidSplit
    else .ok ⟨no.u % 2 ^ 16, count.u % 2 ^ 16, tensors.i.toNat, true⟩
  | _, _, _ => .error invalidSplit

mutual

def equalValue : MetaValue → MetaValue → Bool
  | ⟨vtype, u, i, fb, f64, b, s, arr⟩, o =>
    vtype == o.vtype &&
      match valueType vtype with
      | some .uint8 | some .uint16 | some .uint32 | some .uint64 => u == o.u
      | some .int8 | some .int16 | some .int32 | some .int64 => i == o.i
      | some .float32 => fb == o.fb
      | some .float64 => f64 == o.f64
      | some .bool => b == o.b
      | some .string => s == o.s
      | some .array => u == o.u && arr.length == o.arr.length && equalValues arr o.arr
      | none => false

def equalValues : List MetaValue → List MetaValue → Bool
  | [], _ => true
  | _, [] => true
  | v :: vs, o :: os => equalValue v o && equalValues vs os

end

def decimal (n : Nat) : Bytes := (Nat.toDigits 10 n).map Char.toUInt8

/-- A number's digits, five of them. -/
def fiveDigits (n : Nat) : Bytes :=
  List.replicate (5 - (decimal n).length) '0'.toUInt8 ++ decimal n

def splitSuffix (no count : Nat) : Bytes :=
  ascii ['-'] ++ fiveDigits (no + 1) ++ ascii ['-', 'o', 'f', '-'] ++ fiveDigits count ++
    ascii ['.', 'g', 'g', 'u', 'f']

def duplicateTensor (name : Bytes) : Error :=
  .runtime ("duplicate GGUF tensor: " ++ byteText name)

/-- The names with those of the tensors, refused where one is there already. -/
def insertNames : List TensorInfo → List Bytes → Except Error (List Bytes)
  | [], names => .ok names
  | t :: ts, names =>
    if t.name ∈ names then .error (duplicateTensor t.name) else insertNames ts (t.name :: names)

def countMismatch : Error := .runtime "GGUF split tensor count mismatch"

def checkTensors (split : Split) (tensors : List TensorInfo) (total : Nat) (names : List Bytes) :
    Except Error (List Bytes) :=
  if split.present ∧ split.tensors < total then .error countMismatch
  else insertNames tensors names

/-- Whether a shard's metadata is the first's, but for what differs between shards. -/
def checkShared (kv : List (Bytes × MetaValue)) : List (Bytes × MetaValue) → Except Error Unit
  | [] => .ok ()
  | (key, value) :: rest =>
    if key = splitNo ∨ key = generalAlignment then checkShared kv rest
    else if (find kv key).any (equalValue · value) then checkShared kv rest
    else .error (.runtime ("inconsistent GGUF shard metadata: " ++ byteText key))

/-- What is known of a set of files: their tensors, those tensors' names, and the files. -/
structure Table where
  tensors : List TensorInfo
  names : List Bytes
  inputs : List Input

/-- The shards from `index` on, `n` of them. -/
def readShards (limits : Limits) (files : Files) (stem : Bytes) (kv : List (Bytes × MetaValue))
    (split : Split) : Nat → Nat → Table → Except Error Table
  | 0, _, table => .ok table
  | n + 1, index, table => do
    let (header, input) ← readInput limits files (stem ++ splitSuffix index split.count)
      table.tensors.length
    let next ← splitInfo header.kv
    if next.present = false ∨ next.no ≠ index ∨ next.count ≠ split.count ∨
        next.tensors ≠ split.tensors then
      throw (.runtime "inconsistent GGUF split metadata")
    else do
      checkShared kv header.kv
      let names ← checkTensors split header.tensors input.stop table.names
      readShards limits files stem kv split n (index + 1)
        ⟨table.tensors ++ header.tensors, names, table.inputs ++ [input]⟩

/-- The path without the first shard's suffix, where there are more. -/
def shardStem (path : Bytes) (split : Split) : Except Error Bytes :=
  let suffix := splitSuffix 0 split.count
  if split.count ≤ 1 then .ok []
  else if path.length < suffix.length ∨ path.drop (path.length - suffix.length) ≠ suffix then
    .error (.runtime ("GGUF shard filename must end in " ++ byteText suffix))
  else .ok (path.take (path.length - suffix.length))

/-- The tensors of a set, its first shard read. -/
def readTable (limits : Limits) (files : Files) (path : Bytes) (header : Header) (input : Input)
    (split : Split) : Except Error Table :=
  if split.present then
    if split.no ≠ 0 then
      .error (.runtime "open the first GGUF shard (split.no must be zero)")
    else do
      let stem ← shardStem path split
      let names ← checkTensors split header.tensors header.tensors.length []
      let table ← readShards limits files stem header.kv split (split.count - 1) 1
        ⟨header.tensors, names, [input]⟩
      if table.tensors.length ≠ split.tensors then throw countMismatch else return table
  else do
    let names ← checkTensors split header.tensors header.tensors.length []
    return ⟨header.tensors, names, [input]⟩

def floatAlign : Nat := 4

/-- The tensors' offsets among the model's, their file's data at `base`. -/
def joinOffsets (base : Nat) : List TensorInfo → Except Error (List Nat)
  | [] => .ok []
  | t :: ts =>
    if t.offset % floatAlign ≠ 0 then .error (.runtime "GGUF tensor offset is not float aligned")
    else do
      let offset ← checkedAdd base t.offset
      let rest ← joinOffsets base ts
      return offset :: rest

/-- The files' data sections one after another from `base`, those of metadata alone left out. -/
def layOut (tensors : List TensorInfo) :
    List Input → Nat → Except Error (List Nat × List Segment)
  | [], _ => .ok ([], [])
  | f :: fs, base =>
    if f.first = f.stop then layOut tensors fs base
    else do
      let offsets ← joinOffsets base ((tensors.drop f.first).take (f.stop - f.first))
      let stop ← checkedAdd base (f.size - f.dataStart)
      let next ← alignedSize stop floatAlign
      let (restOffsets, rest) ← layOut tensors fs next
      return (offsets ++ restOffsets,
        ⟨f.path, none, f.dataStart, base, f.size - f.dataStart, f.first⟩ :: rest)

def isSplitKey (key : Bytes) : Bool := key == splitNo || key == splitCount || key == splitTensors

/-- A file, or the first shard of a set and the shards beside it, every tensor laid out in its
file. -/
def readGguf (limits : Limits) (files : Files) (path : Bytes) : Except Error Model := do
  let (header, input) ← readInput limits files path 0
  let split ← splitInfo header.kv
  let table ← readTable limits files path header input split
  let (offsets, segments) ← layOut table.tensors table.inputs 0
  let kv := if split.present then header.kv.filter fun item => !isSplitKey item.1 else header.kv
  return ⟨kv, table.tensors, [], segments, offsets⟩

def pushTensors (base : Nat) : List TensorInfo → List Nat → EStateM Error Model Unit
  | [], _ => pure ()
  | t :: ts, offsets => do
    let offset ← raise (checkedAdd base (offsets.headD 0))
    modify fun m => { m with offsets := m.offsets ++ [offset], tensors := m.tensors ++ [t] }
    pushTensors base ts offsets.tail

def pushSegments (base first : Nat) : List Segment → EStateM Error Model Unit
  | [] => pure ()
  | s :: ss => do
    let joined ← raise (checkedAdd base s.base)
    modify fun m =>
      { m with segments := m.segments ++ [{ s with base := joined, first := s.first + first }] }
    pushSegments base first ss

/-- The tensors of `other` joined to the model's as files after its own. -/
def append (other : Model) : EStateM Error Model Unit := fun m =>
  if m.segments.isEmpty ∨ other.segments.isEmpty then
    .error (.logic "GGUF: only the tensors of files are joined") m
  else
    match insertNames other.tensors (m.tensors.map TensorInfo.name) with
    | .error e => .error e m
    | .ok _ =>
      match alignedSize m.payloadSize floatAlign with
      | .error e => .error e m
      | .ok base =>
        (do
          pushTensors base other.tensors other.offsets
          pushSegments base m.tensors.length other.segments) m

end Gguf

end Llmx
