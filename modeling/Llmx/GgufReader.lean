import Llmx.ShardTensors
import Llmx.ReplySplit
import Llmx.Stretches
import Mathlib.Algebra.Order.Ring.Int
import Mathlib.Tactic.IntervalCases

namespace Llmx

namespace Gguf

open Stretches

instance : LawfulBEq Bytes := inferInstanceAs (LawfulBEq (List UInt8))

/-- A byte string as a message shows it, a character a byte. -/
def byteText (s : Bytes) : String := String.ofList (s.map fun c => Char.ofNat c.toNat)

/-- What a machine word keeps of a number. -/
def word (n : Nat) : Nat := n % 2 ^ 64

/-- A file: its bytes by position, its size as a stream tells it. -/
structure File where
  size : Nat
  byte : Nat → UInt8
  size_lt : size < 2 ^ 63

def File.slice (f : File) (position bytes : Nat) : Bytes :=
  (List.range bytes).map fun k => f.byte (position + k)

def File.ofBytes (bytes : Bytes) (h : bytes.length < 2 ^ 63) : File :=
  ⟨bytes.length, fun k => bytes.getD k 0, h⟩

/-- What a read raises: a stream's failure or another's; `pastEnd` is the stream's own, where it
is asked for bytes it does not have. -/
inductive Error
  | failure (what : String)
  | runtime (what : String)
  | logic (what : String)
  | pastEnd
deriving DecidableEq, Repr

/-- Room taken for `count` things of at least `width` bytes, with `left` bytes of the file left. -/
structure Reserve where
  count : Nat
  width : Nat
  left : Nat
deriving DecidableEq, Repr

structure Reader where
  file : File
  position : Nat
  reserved : List Reserve

def Reader.new (file : File) : Reader := ⟨file, 0, []⟩

def Reader.remaining (r : Reader) : Nat := word (r.file.size + 2 ^ 64 - r.position)

abbrev Read := EStateM Error Reader

/-- The most a string, an array and the two tables can hold. -/
structure Limits where
  string : Nat
  array : Nat
  kv : Nat
  tensors : Nat
  string_lt : string < 2 ^ 63
  array_lt : array < 2 ^ 63
  kv_lt : kv < 2 ^ 63
  tensors_lt : tensors < 2 ^ 63

def require (bytes : Nat) : Read Unit := fun r =>
  if r.remaining < bytes then .error (.failure "GGUF field exceeds file extent") r else .ok () r

/-- The stream's read: it fails where it has too few bytes. -/
def streamRead (bytes : Nat) : Read Bytes := fun r =>
  if r.file.size < r.position + bytes then .error .pastEnd r
  else .ok (r.file.slice r.position bytes) { r with position := word (r.position + bytes) }

def read (bytes : Nat) : Read Bytes := do
  require bytes
  if 2 ^ 63 - 1 < bytes then throw (.runtime "GGUF field exceeds stream size limit")
  else streamRead bytes

def remaining : Read Nat := fun r => .ok r.remaining r

def position : Read Nat := fun r => .ok r.position r

def size : Read Nat := fun r => .ok r.file.size r

def reserve (count width : Nat) : Read Unit := fun r =>
  .ok () { r with reserved := ⟨count, width, r.remaining⟩ :: r.reserved }

/-- The number little-endian bytes hold. -/
def leValue (s : Bytes) : Nat := s.foldr (fun c v => c.toNat + 256 * v) 0

def readInt (bytes : Nat) : Read Nat := do
  let s ← read bytes
  return leValue s

def readMany {α : Type} (x : Read α) : Nat → Read (List α)
  | 0 => pure []
  | n + 1 => do
    let a ← x
    let rest ← readMany x n
    return a :: rest

def readString (limits : Limits) : Read Bytes := do
  let n ← readInt 8
  require n
  if limits.string < n then throw (.runtime "GGUF string exceeds allocation limit")
  else do
    reserve n 1
    if n ≠ 0 then read n else return []

inductive ValueType
  | uint8
  | int8
  | uint16
  | int16
  | uint32
  | int32
  | float32
  | bool
  | string
  | array
  | uint64
  | int64
  | float64
deriving DecidableEq, Repr

def ValueType.id : ValueType → Nat
  | uint8 => 0
  | int8 => 1
  | uint16 => 2
  | int16 => 3
  | uint32 => 4
  | int32 => 5
  | float32 => 6
  | bool => 7
  | string => 8
  | array => 9
  | uint64 => 10
  | int64 => 11
  | float64 => 12

def valueTypes : List ValueType :=
  [.uint8, .int8, .uint16, .int16, .uint32, .int32, .float32, .bool, .string, .array, .uint64,
    .int64, .float64]

def valueType (id : Nat) : Option ValueType := valueTypes[id]?

theorem valueType_id (t : ValueType) : valueType t.id = some t := by
  cases t <;> rfl

theorem id_of_valueType {id : Nat} {t : ValueType} (h : valueType id = some t) : t.id = id := by
  obtain ⟨hlt, _⟩ := List.getElem?_eq_some_iff.mp h
  have hlt : id < 13 := hlt
  interval_cases id <;> (cases Option.some.inj h; rfl)

/-- A value of metadata: its type and, of the other fields, the one the type uses. Doubles and
floats are kept as their bits; `u` is also an array's element type. -/
structure MetaValue where
  vtype : Nat
  u : Nat
  i : Int
  fb : Nat
  f64 : Nat
  b : Bool
  s : Bytes
  arr : List MetaValue

namespace MetaValue

def blank (vtype : Nat) : MetaValue := ⟨vtype, 0, 0, 0, 0, false, [], []⟩

def unsigned (vtype u : Nat) : MetaValue := { blank vtype with u := u }

def signed (vtype : Nat) (i : Int) : MetaValue := { blank vtype with i := i }

end MetaValue

def unknownType : String := "unknown GGUF metadata value type"

def ValueType.minimumSize : ValueType → Nat
  | uint8 | int8 | bool => 1
  | uint16 | int16 => 2
  | uint32 | int32 | float32 => 4
  | uint64 | int64 | float64 | string => 8
  | array => 12

/-- The fewest bytes a bare value of a type takes. -/
def minimumValueSize (id : Nat) : Except Error Nat :=
  match valueType id with
  | some t => .ok t.minimumSize
  | none => .error (.runtime unknownType)

def maxArrayDepth : Nat := 256

def raise {σ α : Type} (x : Except Error α) : EStateM Error σ α :=
  match x with
  | .ok a => pure a
  | .error e => throw e

def readScalar (width : Nat) (value : Nat → MetaValue) : Read MetaValue := do
  let x ← readInt width
  return value x

/-- A bare value of type `t`, `levels` arrays deep at most; an array gives its elements' type once,
in front of them. -/
def readTypedValue (limits : Limits) (levels t : Nat) : Read MetaValue :=
  match valueType t with
  | some .uint8 => readScalar 1 (.unsigned t)
  | some .int8 => readScalar 1 fun x => .signed t (Int.bmod x (2 ^ 8))
  | some .uint16 => readScalar 2 (.unsigned t)
  | some .int16 => readScalar 2 fun x => .signed t (Int.bmod x (2 ^ 16))
  | some .uint32 => readScalar 4 (.unsigned t)
  | some .int32 => readScalar 4 fun x => .signed t (Int.bmod x (2 ^ 32))
  | some .float32 => readScalar 4 fun x => { MetaValue.blank t with fb := x }
  | some .bool => readScalar 1 fun x => { MetaValue.blank t with b := x ≠ 0 }
  | some .string => do
    let s ← readString limits
    return { MetaValue.blank t with s := s }
  | some .array =>
    match levels with
    | 0 => throw (.runtime "GGUF array nesting limit exceeded")
    | levels + 1 => do
      let et ← readInt 4
      let cnt ← readInt 8
      let width ← raise (minimumValueSize et)
      let left ← remaining
      if left / width < cnt then throw (.failure "GGUF array exceeds file extent")
      else if limits.array < cnt then throw (.runtime "GGUF array exceeds allocation limit")
      else do
        reserve cnt width
        let arr ← readMany (readTypedValue limits levels et) cnt
        return { MetaValue.blank t with u := et, arr := arr }
  | some .uint64 => readScalar 8 (.unsigned t)
  | some .int64 => readScalar 8 fun x => .signed t (Int.bmod x (2 ^ 64))
  | some .float64 => readScalar 8 fun x => { MetaValue.blank t with f64 := x }
  | none => throw (.runtime unknownType)

def readMetaValue (limits : Limits) : Read MetaValue := do
  let t ← readInt 4
  readTypedValue limits maxArrayDepth t

end Gguf

end Llmx
