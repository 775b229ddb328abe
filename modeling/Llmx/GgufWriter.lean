import Llmx.GgufFiles

namespace Llmx

namespace Gguf

open Stretches

def leSigned (width : Nat) (i : Int) : Bytes := leBytes width (i % (256 ^ width : Nat)).toNat

def writeString (s : Bytes) : Bytes := leBytes 8 s.length ++ s

mutual

def writeTypedValue : MetaValue → Except Error Bytes
  | ⟨vtype, u, i, fb, f64, b, s, arr⟩ =>
    match valueType vtype with
    | some .uint8 => .ok (leBytes 1 u)
    | some .int8 => .ok (leSigned 1 i)
    | some .uint16 => .ok (leBytes 2 u)
    | some .int16 => .ok (leSigned 2 i)
    | some .uint32 => .ok (leBytes 4 u)
    | some .int32 => .ok (leSigned 4 i)
    | some .float32 => .ok (leBytes 4 fb)
    | some .bool => .ok (leBytes 1 (if b then 1 else 0))
    | some .string => .ok (writeString s)
    | some .array => do
      let elements ← writeElements arr
      return leBytes 4 u ++ (leBytes 8 arr.length ++ elements)
    | some .uint64 => .ok (leBytes 8 u)
    | some .int64 => .ok (leSigned 8 i)
    | some .float64 => .ok (leBytes 8 f64)
    | none => .error (.runtime unknownType)

def writeElements : List MetaValue → Except Error Bytes
  | [] => .ok []
  | v :: vs => do
    let value ← writeTypedValue v
    let rest ← writeElements vs
    return value ++ rest

end

def writeMetaValue (v : MetaValue) : Except Error Bytes := do
  let value ← writeTypedValue v
  return leBytes 4 v.vtype ++ value

def writeKv : List (Bytes × MetaValue) → Except Error Bytes
  | [] => .ok []
  | (key, value) :: rest => do
    let value ← writeMetaValue value
    let rest ← writeKv rest
    return writeString key ++ value ++ rest

def writeTensorInfo (t : TensorInfo) (offset : Nat) : Bytes :=
  writeString t.name ++ (leBytes 4 t.ne.length ++
    (t.ne.flatMap (leBytes 8) ++ (leBytes 4 t.type ++ leBytes 8 offset)))

/-- The tensor table, the first tensor's data at `offset` of the data section. -/
def writeTensorInfos (alignment : Nat) : List TensorInfo → Nat → Except Error Bytes
  | [], _ => .ok []
  | t :: ts, offset => do
    let bytes ← t.dataSize
    let stop ← checkedAdd offset bytes
    let next ← alignedSize stop alignment
    let rest ← writeTensorInfos alignment ts next
    return writeTensorInfo t offset ++ rest

/-- The output with zeros up to the next multiple of `align`. -/
def padTo (out : Bytes) (align : Nat) : Bytes :=
  out ++ List.replicate ((align - out.length % align) % align) 0

/-- The tensors' bytes, each padded, after what is written. -/
def writeData (m : Model) (bytesOf : Nat → Option Bytes) (alignment : Nat) :
    List Nat → Bytes → Except Error Bytes
  | [], out => .ok out
  | i :: is, out => do
    let bytes ← m.tensorBytes i
    writeData m bytesOf alignment is (padTo (out ++ ((bytesOf i).getD []).take bytes) alignment)

/-- Whether every tensor that has bytes has them in memory. -/
def checkMapped (m : Model) (bytesOf : Nat → Option Bytes) : List Nat → Except Error Unit
  | [] => .ok ()
  | i :: is =>
    if (bytesOf i).isSome then checkMapped m bytesOf is
    else do
      let bytes ← m.tensorBytes i
      if bytes ≠ 0 then
        throw (.runtime ("GGUF tensor is not mapped: " ++
          byteText (((m.tensors[i]?).map TensorInfo.name).getD [])))
      else checkMapped m bytesOf is

def fileStart (tensors kv : Nat) : Bytes :=
  leBytes 4 magic ++ (leBytes 4 version ++ (leBytes 8 tensors ++ leBytes 8 kv))

/-- The bytes of the file a model is written to, tensor `i`'s those from `bytesOf i` on. -/
def writeGguf (m : Model) (bytesOf : Nat → Option Bytes) : Except Error Bytes := do
  let alignment ← fileAlignment m.kv
  checkMapped m bytesOf (List.range m.tensors.length)
  let kv ← writeKv m.kv
  let infos ← writeTensorInfos alignment m.tensors 0
  writeData m bytesOf alignment (List.range m.tensors.length)
    (padTo (fileStart m.tensors.length m.kv.length ++ (kv ++ infos)) alignment)

end Gguf

end Llmx
