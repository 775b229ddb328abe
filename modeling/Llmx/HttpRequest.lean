import Llmx.ReplySplit
import Mathlib.Algebra.Order.Ring.Int

namespace Llmx

namespace Http

structure Request where
  method : Bytes
  path : Bytes
  query : Bytes
  headers : List (Bytes × Bytes)
  body : Bytes
deriving DecidableEq, Repr

structure Limits where
  maxHeaderBytes : Nat := 64 * 1024
  maxBodyBytes : Nat := 64 * 1024 * 1024
deriving DecidableEq, Repr

/-- What a read ends in: a request, or the status it is refused with, 0 for none at all. -/
inductive Outcome
  | request (req : Request)
  | refused (status : Nat)
deriving DecidableEq, Repr

/-- The bytes still to come and how many each read brings, where so many are asked for and left. -/
structure Arrival where
  rest : Bytes
  sizes : List Nat
deriving DecidableEq, Repr

/-- What a read of at most so many bytes brings: some of those left, none only at the end. -/
def Arrival.recvSome (a : Arrival) (n : Nat) : Bytes × Arrival :=
  let size := max 1 (min n (a.sizes.headD n))
  (a.rest.take size, ⟨a.rest.drop size, a.sizes.tail⟩)

theorem recvSome_lt {a : Arrival} {n : Nat} (h : (a.recvSome n).1 ≠ []) :
    (a.recvSome n).2.rest.length < a.rest.length := by
  have hpos := List.length_pos_iff.mpr h
  simp only [Arrival.recvSome, List.length_take, List.length_drop] at hpos ⊢
  omega

def crlf : Bytes := ascii ['\r', '\n']

def blankLine : Bytes := crlf ++ crlf

def lower (c : UInt8) : UInt8 := if 'A'.toUInt8 ≤ c ∧ c ≤ 'Z'.toUInt8 then c + 32 else c

def isBlank (c : UInt8) : Bool := c == ' '.toUInt8 || c == '\t'.toUInt8

def setHeader (key value : Bytes) : List (Bytes × Bytes) → List (Bytes × Bytes)
  | [] => [(key, value)]
  | (k, v) :: headers => if k = key then (k, value) :: headers else (k, v) :: setHeader key value headers

def header (req : Request) (key : Bytes) : Option Bytes :=
  (req.headers.find? fun kv => kv.1 == key).map Prod.snd

/-- The lines of the headers, the rest of the text where no line end is left. -/
def lines : Nat → Bytes → List Bytes
  | 0, _ => []
  | n + 1, s =>
    if s = [] then []
    else
      match Tags.split crlf s with
      | none => [s]
      | some (line, rest) => line :: lines n rest

def parseHeaders : List Bytes → List (Bytes × Bytes) → Option (List (Bytes × Bytes))
  | [], headers => some headers
  | h :: hs, headers =>
    if h = [] then parseHeaders hs headers
    else
      match Tags.split [':'.toUInt8] h with
      | none => none
      | some (key, value) =>
        if key = [] then none
        else parseHeaders hs (setHeader (key.map lower) ((value.dropWhile isBlank).rdropWhile isBlank) headers)

def parseHead (head : Bytes) : Option Request :=
  let (line, rest) := (Tags.split crlf head).getD (head, [])
  match Tags.split [' '.toUInt8] line with
  | none => none
  | some (method, rest') =>
    match Tags.split [' '.toUInt8] rest' with
    | none => none
    | some (target, version) =>
      if version ≠ ascii ['H', 'T', 'T', 'P', '/', '1', '.', '1'] ∧
          version ≠ ascii ['H', 'T', 'T', 'P', '/', '1', '.', '0'] then none
      else if target.head? ≠ some '/'.toUInt8 then none
      else
        let (path, query) := (Tags.split ['?'.toUInt8] target).getD (target, [])
        (parseHeaders (lines (rest.length + 1) rest) []).map fun headers =>
          ⟨method, path, query, headers, []⟩

def isSpace (c : UInt8) : Bool := c == ' '.toUInt8 || (9 ≤ c && c ≤ 13)

def isDigit (c : UInt8) : Bool := '0'.toUInt8 ≤ c && c ≤ '9'.toUInt8

def digitsValue (ds : Bytes) : Nat := ds.foldl (fun n c => n * 10 + (c.toNat - 48)) 0

/-- A decimal number up to the text's first zero byte, as 64 bits hold it: a larger one is the
largest, and after a minus sign it is taken from 2^64. -/
def strtoull (value : Bytes) : Option Nat :=
  let text := value.takeWhile (· != 0)
  let body := text.dropWhile isSpace
  let negative := body.head? == some '-'.toUInt8
  let body := if negative || body.head? == some '+'.toUInt8 then body.tail else body
  let digits := body.takeWhile isDigit
  if digits = [] then if text = [] then some 0 else none
  else if body.dropWhile isDigit ≠ [] then none
  else
    let v := digitsValue digits
    if 2 ^ 64 ≤ v then some (2 ^ 64 - 1)
    else if negative then some ((2 ^ 64 - v) % 2 ^ 64)
    else some v

/-- A head's request and the length of its body, or the status it is refused with. -/
def checkHead (limits : Limits) (head : Bytes) : Except Nat (Request × Nat) :=
  match parseHead head with
  | none => .error 400
  | some req =>
    let length :=
      match header req (ascii ['c', 'o', 'n', 't', 'e', 'n', 't', '-', 'l', 'e', 'n', 'g', 't', 'h']) with
      | none => some 0
      | some value => strtoull value
    match length with
    | none => .error 400
    | some length =>
      if (header req (ascii ['t', 'r', 'a', 'n', 's', 'f', 'e', 'r', '-',
          'e', 'n', 'c', 'o', 'd', 'i', 'n', 'g'])).isSome then .error 400
      else if limits.maxBodyBytes < length then .error 413
      else .ok (req, length)

/-- The bytes read through the blank line that ends the head, and where the body starts. -/
def readHead (limits : Limits) (head : Bytes) (a : Arrival) : Except Nat (Bytes × Nat × Arrival) :=
  if limits.maxHeaderBytes < head.length then .error 431
  else if _h : (a.recvSome 4096).1 = [] then .error (if head = [] then 0 else 400)
  else
    match Tags.split blankLine (head ++ (a.recvSome 4096).1) with
    | some (before, _) =>
      .ok (head ++ (a.recvSome 4096).1, before.length + 4, (a.recvSome 4096).2)
    | none => readHead limits (head ++ (a.recvSome 4096).1) (a.recvSome 4096).2
termination_by a.rest.length
decreasing_by exact recvSome_lt _h

/-- The body, from what came with the head. -/
def readBody (length : Nat) (body : Bytes) (a : Arrival) : Option Bytes :=
  if length ≤ body.length then some body
  else if _h : (a.recvSome (min 16384 (length - body.length))).1 = [] then none
  else
    readBody length (body ++ (a.recvSome (min 16384 (length - body.length))).1)
      (a.recvSome (min 16384 (length - body.length))).2
termination_by a.rest.length
decreasing_by exact recvSome_lt _h

def readRequest (limits : Limits) (a : Arrival) : Outcome :=
  match readHead limits [] a with
  | .error status => .refused status
  | .ok (head, bodyStart, a) =>
    match checkHead limits (head.take (bodyStart - 4)) with
    | .error status => .refused status
    | .ok (req, length) =>
      if length < (head.drop bodyStart).length then .refused 400
      else
        match readBody length (head.drop bodyStart) a with
        | none => .refused 400
        | some body => .request { req with body := body }

end Http

end Llmx
