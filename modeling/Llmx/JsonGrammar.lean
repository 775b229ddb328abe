import Llmx.JsonParser

namespace Llmx

namespace Json

def Ws (w : Bytes) : Prop := ∀ c ∈ w, isSpace c = true

/-- Four hexadecimal digits and the code they spell. -/
def IsHex4 (h : Bytes) (code : Nat) : Prop :=
  ∃ a b c d x y z w, h = [a, b, c, d] ∧ hexDigit a = some x ∧ hexDigit b = some y ∧
    hexDigit c = some z ∧ hexDigit d = some w ∧ code = ((x * 16 + y) * 16 + z) * 16 + w

/-- The text between a string's quotes and the bytes it stands for: characters past U+001F but the
quote and the backslash, in UTF-8, and escapes, those of surrogates in pairs. -/
inductive Chars : Bytes → Bytes → Prop
  | nil : Chars [] []
  | plain {c t d} : 0x20 ≤ c → c < 0x80 → c ≠ '"'.toUInt8 → c ≠ '\\'.toUInt8 → Chars t d →
      Chars (c :: t) (c :: d)
  | utf8 {p t d} : Utf8.Scalar p → 0x80 ≤ p → Chars t d →
      Chars (Utf8.encode p ++ t) (Utf8.encode p ++ d)
  | short {e b t d} : shortEscape e = some b → Chars t d → Chars ('\\'.toUInt8 :: e :: t) (b :: d)
  | unicode {h p t d} : IsHex4 h p → ¬ Utf8.Surrogate p → Chars t d →
      Chars ('\\'.toUInt8 :: 'u'.toUInt8 :: h ++ t) (Utf8.encode p ++ d)
  | pair {h l high low t d} : IsHex4 h high → 0xD800 ≤ high → high ≤ 0xDBFF → IsHex4 l low →
      0xDC00 ≤ low → low ≤ 0xDFFF → Chars t d →
      Chars ('\\'.toUInt8 :: 'u'.toUInt8 :: h ++ '\\'.toUInt8 :: 'u'.toUInt8 :: l ++ t)
        (Utf8.encode (0x10000 + (high - 0xD800) * 0x400 + (low - 0xDC00)) ++ d)

def IsString (t str : Bytes) : Prop :=
  ∃ body, Chars body str ∧ t = '"'.toUInt8 :: body ++ ['"'.toUInt8]

def Digits (ds : Bytes) : Prop := ds ≠ [] ∧ ∀ c ∈ ds, isDigit c = true

/-- The integral digits of a number: zero, or digits that do not begin with it. -/
def IsIntegral (int : Bytes) : Prop :=
  int = ['0'.toUInt8] ∨ (Digits int ∧ int.head? ≠ some '0'.toUInt8)

def IsFraction (frac : Bytes) : Prop := frac = [] ∨ ∃ ds, Digits ds ∧ frac = '.'.toUInt8 :: ds

def IsExponent (exp : Bytes) : Prop :=
  exp = [] ∨ ∃ e sign ds, (e = 'e'.toUInt8 ∨ e = 'E'.toUInt8) ∧
    (sign = [] ∨ sign = ['+'.toUInt8] ∨ sign = ['-'.toUInt8]) ∧ Digits ds ∧ exp = e :: sign ++ ds

/-- A number's integral digits, fraction and exponent, as the grammar has them. -/
structure IsNumber (t int frac exp : Bytes) : Prop where
  text : ∃ sign, (sign = [] ∨ sign = ['-'.toUInt8]) ∧ t = sign ++ int ++ frac ++ exp
  int : IsIntegral int
  frac : IsFraction frac
  exp : IsExponent exp

variable {δ : Type}

/-- Number text within double range: it has a double, which is zero only where the number is. -/
def InRange (conv : Conversion δ) (t : Bytes) (num : δ) : Prop :=
  conv.read t = some num ∧ (conv.isZero num = true → nonzero t = false)

mutual

/-- A value's text, its arrays and objects nested at most so deep. -/
inductive IsValue (conv : Conversion δ) : Nat → Bytes → Value δ → Prop
  | null {n} : IsValue conv n (ascii ['n', 'u', 'l', 'l']) .null
  | true {n} : IsValue conv n (ascii ['t', 'r', 'u', 'e']) (.bool true)
  | false {n} : IsValue conv n (ascii ['f', 'a', 'l', 's', 'e']) (.bool false)
  | number {n t int frac exp num} : IsNumber t int frac exp → InRange conv t num →
      IsValue conv n t (.number num (decide (frac = [] ∧ exp = [])))
  | string {n t str} : IsString t str → IsValue conv n t (.string str)
  | emptyArray {n w} : Ws w → IsValue conv (n + 1) ('['.toUInt8 :: w ++ [']'.toUInt8]) (.array [])
  | array {n t vs} : IsElements conv n t vs →
      IsValue conv (n + 1) ('['.toUInt8 :: t ++ [']'.toUInt8]) (.array vs)
  | emptyObject {n w} : Ws w →
      IsValue conv (n + 1) ('\x7b'.toUInt8 :: w ++ ['\x7d'.toUInt8]) (.object [])
  | object {n t kvs} : IsMembers conv n t kvs →
      IsValue conv (n + 1) ('\x7b'.toUInt8 :: t ++ ['\x7d'.toUInt8]) (.object kvs)

inductive IsElements (conv : Conversion δ) : Nat → Bytes → List (Value δ) → Prop
  | last {n a t b v} : Ws a → IsValue conv n t v → Ws b → IsElements conv n (a ++ t ++ b) [v]
  | more {n a t b rest v vs} : Ws a → IsValue conv n t v → Ws b → IsElements conv n rest vs →
      IsElements conv n (a ++ t ++ b ++ ','.toUInt8 :: rest) (v :: vs)

inductive IsMembers (conv : Conversion δ) : Nat → Bytes → List (Bytes × Value δ) → Prop
  | last {n a k b c t d key v} : Ws a → IsString k key → Ws b → Ws c → IsValue conv n t v → Ws d →
      IsMembers conv n (a ++ k ++ b ++ ':'.toUInt8 :: c ++ t ++ d) [(key, v)]
  | more {n a k b c t d rest key v kvs} : Ws a → IsString k key → Ws b → Ws c →
      IsValue conv n t v → Ws d → IsMembers conv n rest kvs →
      IsMembers conv n (a ++ k ++ b ++ ':'.toUInt8 :: c ++ t ++ d ++ ','.toUInt8 :: rest)
        ((key, v) :: kvs)

end

/-- One value and whitespace around it, its arrays and objects at most 256 deep. -/
def IsDocument (conv : Conversion δ) (s : Bytes) (v : Value δ) : Prop :=
  ∃ a t b, Ws a ∧ IsValue conv 256 t v ∧ Ws b ∧ s = a ++ t ++ b

end Json

end Llmx
