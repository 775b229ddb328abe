import Llmx.Utf8

namespace Llmx

namespace Json

/-- Why a parse raises; `pastEnd` stands for a byte read past the input and `fuel` for none. -/
inductive Error
  | unexpectedEnd
  | expectedCharacter
  | truncatedUnicodeEscape
  | invalidUnicodeEscape
  | invalidUtf8
  | missingLowSurrogate
  | invalidLowSurrogate
  | unpairedLowSurrogate
  | invalidStringEscape
  | unescapedControl
  | unterminatedString
  | objectSyntax
  | arraySyntax
  | invalidLiteral
  | expectedNumber
  | missingFractionDigits
  | missingExponentDigits
  | outsideRange
  | underflows
  | nestingLimit
  | trailingData
  | pastEnd
  | fuel
deriving DecidableEq, Repr

inductive Value (δ : Type) where
  | null
  | bool (b : Bool)
  | number (num : δ) (whole : Bool)
  | string (str : Bytes)
  | array (arr : List (Value δ))
  | object (obj : List (Bytes × Value δ))
deriving Repr

/-- Number text read as a double, `none` where it has none, and which doubles are zero. -/
structure Conversion (δ : Type) where
  read : Bytes → Option δ
  isZero : δ → Bool

def isSpace (c : UInt8) : Bool :=
  c == ' '.toUInt8 || c == '\t'.toUInt8 || c == '\n'.toUInt8 || c == '\r'.toUInt8

def ws (s : Bytes) : Bytes := s.dropWhile isSpace

def peek : Bytes → Except Error UInt8
  | [] => .error .unexpectedEnd
  | c :: _ => .ok c

def expect (c : UInt8) (s : Bytes) : Except Error Bytes :=
  match ws s with
  | [] => .error .unexpectedEnd
  | d :: rest => if d = c then .ok rest else .error .expectedCharacter

def hexDigit (c : UInt8) : Option Nat :=
  if '0'.toUInt8 ≤ c ∧ c ≤ '9'.toUInt8 then some (c.toNat - 48)
  else if 'a'.toUInt8 ≤ c ∧ c ≤ 'f'.toUInt8 then some (c.toNat - 97 + 10)
  else if 'A'.toUInt8 ≤ c ∧ c ≤ 'F'.toUInt8 then some (c.toNat - 65 + 10)
  else none

def hexDigits : Nat → Nat → Bytes → Except Error (Nat × Bytes)
  | 0, value, s => .ok (value, s)
  | _ + 1, _, [] => .error .pastEnd
  | n + 1, value, c :: s =>
    match hexDigit c with
    | none => .error .invalidUnicodeEscape
    | some digit => hexDigits n ((value <<< 4) ||| digit) s

def hex4 (s : Bytes) : Except Error (Nat × Bytes) :=
  if s.length < 4 then .error .truncatedUnicodeEscape else hexDigits 4 0 s

/-- The byte a one-letter escape stands for. -/
def shortEscape (e : UInt8) : Option UInt8 :=
  if e = '"'.toUInt8 ∨ e = '\\'.toUInt8 ∨ e = '/'.toUInt8 then some e
  else if e = 'b'.toUInt8 then some 8
  else if e = 'f'.toUInt8 then some 12
  else if e = 'n'.toUInt8 then some 10
  else if e = 'r'.toUInt8 then some 13
  else if e = 't'.toUInt8 then some 9
  else none

/-- The code point of a Unicode escape, whose low half follows a high one in an escape of its own. -/
def unicodeEscape (s : Bytes) : Except Error (Nat × Bytes) := do
  let (code, s) ← hex4 s
  if 0xD800 ≤ code ∧ code ≤ 0xDBFF then
    match s with
    | b :: u :: s =>
      if b ≠ '\\'.toUInt8 ∨ u ≠ 'u'.toUInt8 then .error .missingLowSurrogate
      else do
        let (low, s) ← hex4 s
        if low < 0xDC00 ∨ 0xDFFF < low then .error .invalidLowSurrogate
        else .ok (0x10000 + ((code - 0xD800) <<< 10) + low - 0xDC00, s)
    | _ => .error .missingLowSurrogate
  else if 0xDC00 ≤ code ∧ code ≤ 0xDFFF then .error .unpairedLowSurrogate
  else .ok (code, s)

/-- What a parsed string goes on with. -/
def prepend (out : Bytes) (rest : Except Error (Bytes × Bytes)) : Except Error (Bytes × Bytes) :=
  rest.map fun (str, s) => (out ++ str, s)

/-- The bytes of a string after its opening quote. -/
def stringBody : Nat → Bytes → Except Error (Bytes × Bytes)
  | 0, _ => .error .fuel
  | _ + 1, [] => .error .unterminatedString
  | n + 1, c :: s =>
    if c = '"'.toUInt8 then .ok ([], s)
    else if c = '\\'.toUInt8 then
      match s with
      | [] => .error .unexpectedEnd
      | e :: s =>
        match shortEscape e with
        | some b => prepend [b] (stringBody n s)
        | none =>
          if e = 'u'.toUInt8 then do
            let (code, s) ← unicodeEscape s
            prepend (Utf8.encode code) (stringBody n s)
          else .error .invalidStringEscape
    else if c < 0x20 then .error .unescapedControl
    else if 0x80 ≤ c then
      match Utf8.validLength (c :: s) with
      | none => .error .pastEnd
      | some 0 => .error .invalidUtf8
      | some length =>
        prepend ((c :: s).take length) (stringBody n ((c :: s).drop length))
    else prepend [c] (stringBody n s)

def parseString (s : Bytes) : Except Error (Bytes × Bytes) := do
  let s ← expect '"'.toUInt8 s
  stringBody (s.length + 1) s

def isDigit (c : UInt8) : Bool := '0'.toUInt8 ≤ c && c ≤ '9'.toUInt8

/-- Whether a digit comes next. -/
def digit : Bytes → Bool
  | [] => false
  | c :: _ => isDigit c

def literal (text s : Bytes) : Except Error Bytes :=
  if text.isPrefixOf s then .ok (s.drop text.length) else .error .invalidLiteral

/-- A number's sign and integral digits. -/
def integral (s : Bytes) : Except Error (Bytes × Bytes) :=
  match s with
  | [] => .error .pastEnd
  | c :: rest =>
    let sign : Bytes := if c = '-'.toUInt8 then [c] else []
    let s := if c = '-'.toUInt8 then rest else s
    if digit s = false then .error .expectedNumber
    else
      match s with
      | [] => .error .pastEnd
      | d :: rest =>
        if d = '0'.toUInt8 then .ok (sign ++ [d], rest)
        else .ok (sign ++ s.takeWhile isDigit, s.dropWhile isDigit)

def fraction (s : Bytes) : Except Error (Bytes × Bytes) :=
  match s with
  | [] => .ok ([], s)
  | c :: rest =>
    if c = '.'.toUInt8 then
      if digit rest = false then .error .missingFractionDigits
      else .ok (c :: rest.takeWhile isDigit, rest.dropWhile isDigit)
    else .ok ([], s)

/-- An exponent's sign. -/
def exponentSign : Bytes → Bytes × Bytes
  | [] => ([], [])
  | c :: s => if c = '+'.toUInt8 ∨ c = '-'.toUInt8 then ([c], s) else ([], c :: s)

def exponent (s : Bytes) : Except Error (Bytes × Bytes) :=
  match s with
  | [] => .ok ([], s)
  | c :: rest =>
    if c = 'e'.toUInt8 ∨ c = 'E'.toUInt8 then
      let (sign, rest) := exponentSign rest
      if digit rest = false then .error .missingExponentDigits
      else .ok (c :: sign ++ rest.takeWhile isDigit, rest.dropWhile isDigit)
    else .ok ([], s)

/-- A digit other than zero before a number's exponent. -/
def nonzero (text : Bytes) : Bool :=
  (text.takeWhile fun c => c != 'e'.toUInt8 && c != 'E'.toUInt8).any fun c =>
    '1'.toUInt8 ≤ c && c ≤ '9'.toUInt8

variable {δ : Type}

def parseNumber (conv : Conversion δ) (s : Bytes) : Except Error (Value δ × Bytes) := do
  let (int, s) ← integral s
  let (frac, s) ← fraction s
  let (exp, s) ← exponent s
  let text := int ++ frac ++ exp
  match conv.read text with
  | none => .error .outsideRange
  | some num =>
    if conv.isZero num && nonzero text then .error .underflows
    else .ok (.number num (frac.isEmpty && exp.isEmpty), s)

def parseArray (elements : Bytes → Except Error (List (Value δ) × Bytes)) (s : Bytes) :
    Except Error (Value δ × Bytes) := do
  let s ← expect '['.toUInt8 s
  let s := ws s
  let c ← peek s
  if c = ']'.toUInt8 then .ok (.array [], s.tail)
  else do
    let (arr, s) ← elements s
    .ok (.array arr, s)

def parseObject (members : Bytes → Except Error (List (Bytes × Value δ) × Bytes)) (s : Bytes) :
    Except Error (Value δ × Bytes) := do
  let s ← expect '\x7b'.toUInt8 s
  let s := ws s
  let c ← peek s
  if c = '\x7d'.toUInt8 then .ok (.object [], s.tail)
  else do
    let (obj, s) ← members s
    .ok (.object obj, s)

mutual

def parseValue (conv : Conversion δ) : Nat → Nat → Bytes → Except Error (Value δ × Bytes)
  | 0, _, _ => .error .fuel
  | n + 1, depth, s => do
    let s := ws s
    let c ← peek s
    if c = '\x7b'.toUInt8 ∨ c = '['.toUInt8 then
      if depth = 256 then .error .nestingLimit
      else if c = '\x7b'.toUInt8 then parseObject (parseMembers conv n (depth + 1)) s
      else parseArray (parseElements conv n (depth + 1)) s
    else if c = '"'.toUInt8 then do
      let (str, s) ← parseString s
      .ok (.string str, s)
    else if c = 't'.toUInt8 then do
      let s ← literal (ascii ['t', 'r', 'u', 'e']) s
      .ok (.bool true, s)
    else if c = 'f'.toUInt8 then do
      let s ← literal (ascii ['f', 'a', 'l', 's', 'e']) s
      .ok (.bool false, s)
    else if c = 'n'.toUInt8 then do
      let s ← literal (ascii ['n', 'u', 'l', 'l']) s
      .ok (.null, s)
    else parseNumber conv s

/-- An array's values from the first to its closing bracket. -/
def parseElements (conv : Conversion δ) :
    Nat → Nat → Bytes → Except Error (List (Value δ) × Bytes)
  | 0, _, _ => .error .fuel
  | n + 1, depth, s => do
    let (v, s) ← parseValue conv n depth s
    let s := ws s
    let c ← peek s
    if c = ','.toUInt8 then do
      let (vs, s) ← parseElements conv n depth s.tail
      .ok (v :: vs, s)
    else if c = ']'.toUInt8 then .ok ([v], s.tail)
    else .error .arraySyntax

/-- An object's members from the first to its closing brace. -/
def parseMembers (conv : Conversion δ) :
    Nat → Nat → Bytes → Except Error (List (Bytes × Value δ) × Bytes)
  | 0, _, _ => .error .fuel
  | n + 1, depth, s => do
    let (key, s) ← parseString (ws s)
    let s ← expect ':'.toUInt8 (ws s)
    let (v, s) ← parseValue conv n depth s
    let s := ws s
    let c ← peek s
    if c = ','.toUInt8 then do
      let (kvs, s) ← parseMembers conv n depth s.tail
      .ok ((key, v) :: kvs, s)
    else if c = '\x7d'.toUInt8 then .ok ([(key, v)], s.tail)
    else .error .objectSyntax

end

/-- The value of a document, or why it has none. -/
def parse (conv : Conversion δ) (s : Bytes) : Except Error (Value δ) := do
  let s := ws s
  let (v, s) ← parseValue conv (2 * s.length + 1) 0 s
  if ws s ≠ [] then .error .trailingData else .ok v

end Json

end Llmx
