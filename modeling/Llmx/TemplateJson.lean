import Llmx.JsonGrammar
import Mathlib.Algebra.Order.Ring.Int
import Mathlib.Data.List.Sort

namespace Llmx

/-- A template's value; `other` stands for the kinds JSON has nothing for, by their class. -/
inductive TemplateValue (φ : Type) where
  | none
  | bool (b : Bool)
  | int (i : Int)
  | float (f : φ)
  | str (s : Bytes)
  | list (items : List (TemplateValue φ))
  | tuple (items : List (TemplateValue φ))
  | dict (items : List (Bytes × TemplateValue φ))
  | other (cls : Bytes)

namespace TemplateJson

/-- How a writer or a reader of JSON raises. -/
inductive Fault
  | tooLong
  | notSerializable (cls : Bytes)
  | wholeNumber
  | tooDeep
deriving DecidableEq, Repr

def kMaxBuilt : Nat := 2 ^ 28

def kMaxValueDepth : Nat := 100

structure JsonStyle where
  ensureAscii : Bool
  indented : Bool
  indent : Bytes
  itemSep : Bytes
  keySep : Bytes
  sortKeys : Bool
deriving DecidableEq, Repr

/-- The code point a text begins with, and its length in bytes; a byte that starts no character
is one of its own. -/
def decodeAt (c : UInt8) (rest : Bytes) : Nat × Nat :=
  let len := (Utf8.validLength (c :: rest)).getD 0
  if len = 0 then (0xDC00 ||| c.toNat, 1)
  else if len = 1 then (c.toNat, 1)
  else
    let mask := if len = 2 then 0x1F else if len = 3 then 0x0F else 0x07
    ((rest.take (len - 1)).foldl (fun cp d => (cp <<< 6) ||| (d.toNat &&& 0x3F)) (c.toNat &&& mask),
      len)

def hexLower (n : Nat) : UInt8 :=
  (ascii ['0', '1', '2', '3', '4', '5', '6', '7', '8', '9', 'a', 'b', 'c', 'd', 'e', 'f']).getD n 0

/-- A number up to U+FFFF in an escape. -/
def escapeU (n : Nat) : Bytes :=
  ['\\'.toUInt8, 'u'.toUInt8, hexLower (n / 4096), hexLower (n / 256 % 16), hexLower (n / 16 % 16),
    hexLower (n % 16)]

/-- The letter of a code point's short escape. -/
def shortLetter (c : Nat) : Option UInt8 :=
  if c = 34 then some '"'.toUInt8
  else if c = 92 then some '\\'.toUInt8
  else if c = 10 then some 'n'.toUInt8
  else if c = 13 then some 'r'.toUInt8
  else if c = 9 then some 't'.toUInt8
  else if c = 8 then some 'b'.toUInt8
  else if c = 12 then some 'f'.toUInt8
  else none

def jsonChar (ensureAscii : Bool) (c : Nat) (bytes : Bytes) : Bytes :=
  match shortLetter c with
  | some letter => ['\\'.toUInt8, letter]
  | none =>
    if c < 0x20 then escapeU c
    else if c < 0x80 ∨ ensureAscii = false then bytes
    else if 0xFFFF < c then
      escapeU (0xD800 + ((c - 0x10000) >>> 10)) ++ escapeU (0xDC00 + ((c - 0x10000) &&& 0x3FF))
    else escapeU c

theorem decodeAt_pos (c : UInt8) (rest : Bytes) : 0 < (decodeAt c rest).2 := by
  unfold decodeAt
  dsimp only
  split
  next => exact Nat.one_pos
  split
  next => exact Nat.one_pos
  next hlen _ => exact Nat.pos_of_ne_zero hlen

def jsonChars (ensureAscii : Bool) : Bytes → Bytes
  | [] => []
  | c :: rest =>
    jsonChar ensureAscii (decodeAt c rest).1 ((c :: rest).take (decodeAt c rest).2) ++
      jsonChars ensureAscii ((c :: rest).drop (decodeAt c rest).2)
termination_by s => s.length
decreasing_by
  have hpos := decodeAt_pos c rest
  rw [List.length_drop, List.length_cons]
  omega

def jsonString (s : Bytes) (ensureAscii : Bool) : Bytes :=
  '"'.toUInt8 :: jsonChars ensureAscii s ++ ['"'.toUInt8]

def decimal (n : Nat) : Bytes :=
  if n < 10 then [UInt8.ofNat (48 + n)] else decimal (n / 10) ++ [UInt8.ofNat (48 + n % 10)]

def integerText (i : Int) : Bytes :=
  if i < 0 then '-'.toUInt8 :: decimal i.natAbs else decimal i.natAbs

/-- Whether a text comes before another byte by byte. -/
def textLt : Bytes → Bytes → Bool
  | _, [] => false
  | [], _ :: _ => true
  | a :: s, b :: t => if a < b then true else if b < a then false else textLt s t

/-- A dict's items in the order they are written in. -/
def arrange {α : Type} (sortKeys : Bool) (items : List (Bytes × α)) : List (Bytes × α) :=
  if sortKeys then items.insertionSort fun a b => textLt b.1 a.1 = false else items

/-- A writer at a level, after what is written so far. -/
abbrev Dumper := Nat → Bytes → Except Fault Bytes

def indentation (style : JsonStyle) : Nat → Bytes → Except Fault Bytes
  | 0, out => .ok out
  | n + 1, out =>
    if kMaxBuilt < (out ++ style.indent).length then .error .tooLong
    else indentation style n (out ++ style.indent)

def newline (style : JsonStyle) (depth : Nat) (out : Bytes) : Except Fault Bytes :=
  if style.indented then indentation style depth (out ++ ['\n'.toUInt8]) else .ok out

/-- A container's items from one on. -/
def dumpItems (style : JsonStyle) (level : Nat) : Bool → List Dumper → Bytes → Except Fault Bytes
  | _, [], out => .ok out
  | first, dump :: dumps, out => do
    let out ← newline style (level + 1) (if first then out else out ++ style.itemSep)
    let out ← dump (level + 1) out
    dumpItems style level false dumps out

def dumpContainer (style : JsonStyle) (left right : UInt8) (dumps : List Dumper) : Dumper :=
  fun level out =>
    if dumps.isEmpty then .ok (out ++ [left, right])
    else do
      let out ← dumpItems style level true dumps (out ++ [left])
      let out ← newline style level out
      .ok (out ++ [right])

/-- A key written before its item. -/
def dumpMember (style : JsonStyle) (key : Bytes) (dump : Dumper) : Dumper :=
  fun level out => dump level (out ++ jsonString key style.ensureAscii ++ style.keySep)

/-- What is written only where what is written so far is not too long. -/
def checked (dump : Dumper) : Dumper :=
  fun level out => if kMaxBuilt < out.length then .error .tooLong else dump level out

def put (text : Bytes) : Dumper := fun _ out => .ok (out ++ text)

variable {φ : Type} (floatText : φ → Bytes)

mutual

def jsonDump (style : JsonStyle) : TemplateValue φ → Dumper
  | .none => checked (put (ascii ['n', 'u', 'l', 'l']))
  | .bool b =>
    checked (put (ascii (if b then ['t', 'r', 'u', 'e'] else ['f', 'a', 'l', 's', 'e'])))
  | .int i => checked (put (integerText i))
  | .float f => checked (put (floatText f))
  | .str s => checked (put (jsonString s style.ensureAscii))
  | .list items =>
    checked (dumpContainer style '['.toUInt8 ']'.toUInt8 (jsonDumps style items))
  | .tuple items =>
    checked (dumpContainer style '['.toUInt8 ']'.toUInt8 (jsonDumps style items))
  | .dict items =>
    checked (dumpContainer style '\x7b'.toUInt8 '\x7d'.toUInt8
      ((arrange style.sortKeys (memberDumps style items)).map Prod.snd))
  | .other cls => checked fun _ _ => .error (.notSerializable cls)

def jsonDumps (style : JsonStyle) : List (TemplateValue φ) → List Dumper
  | [] => []
  | v :: vs => jsonDump style v :: jsonDumps style vs

/-- What writes each item of a dict, under its key. -/
def memberDumps (style : JsonStyle) : List (Bytes × TemplateValue φ) → List (Bytes × Dumper)
  | [] => []
  | (key, v) :: items => (key, dumpMember style key (jsonDump style v)) :: memberDumps style items

end

variable {δ : Type}

mutual

/-- How deep a value's containers nest. -/
def depth : TemplateValue φ → Nat
  | .list items => depths items + 1
  | .tuple items => depths items + 1
  | .dict items => memberDepths items + 1
  | _ => 0

def depths : List (TemplateValue φ) → Nat
  | [] => 0
  | v :: vs => max (depth v) (depths vs)

def memberDepths : List (Bytes × TemplateValue φ) → Nat
  | [] => 0
  | (_, v) :: items => max (depth v) (memberDepths items)

end

/-- A container as it is built, within the depth values may nest. -/
def hold (v : TemplateValue φ) : Except Fault (TemplateValue φ) :=
  if kMaxValueDepth < depth v then .error .tooDeep else .ok v

/-- A name set in an object: its value changed in place, or put last. -/
def set (key : Bytes) (v : TemplateValue φ) :
    List (Bytes × TemplateValue φ) → List (Bytes × TemplateValue φ)
  | [] => [(key, v)]
  | (k, w) :: items => if k = key then (k, v) :: items else (k, w) :: set key v items

variable (toFloat : δ → φ) (large : δ → Bool) (toInt : δ → Int)

mutual

/-- A JSON value as the template reads it, `large` the numbers of 2^53 or more and `toInt` the
conversion of a double to an integer. -/
def templateValue : Json.Value δ → Except Fault (TemplateValue φ)
  | .null => .ok .none
  | .bool b => .ok (.bool b)
  | .number num whole =>
    if whole = false then .ok (.float (toFloat num))
    else if large num then .error .wholeNumber
    else .ok (.int (toInt num))
  | .string s => .ok (.str s)
  | .array vs => do
    let items ← templateValues vs
    hold (.list items)
  | .object kvs => do
    let items ← templateMembers [] kvs
    hold (.dict items)

def templateValues : List (Json.Value δ) → Except Fault (List (TemplateValue φ))
  | [] => .ok []
  | v :: vs => do
    let item ← templateValue v
    let items ← templateValues vs
    .ok (item :: items)

def templateMembers : List (Bytes × TemplateValue φ) → List (Bytes × Json.Value δ) →
    Except Fault (List (Bytes × TemplateValue φ))
  | o, [] => .ok o
  | o, (key, v) :: kvs => do
    let item ← templateValue v
    templateMembers (set key item o) kvs

end

end TemplateJson

end Llmx
