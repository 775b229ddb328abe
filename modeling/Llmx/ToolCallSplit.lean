import Llmx.JsonParser

namespace Llmx

open Tags

inductive ToolFormat
  | none
  | json
  | xml
deriving DecidableEq, Repr

/-- How a parameter's value is written: as a string, as JSON where it is JSON, or as JSON where it
is an object or an array. -/
inductive ToolValue
  | text
  | json
  | structured
deriving DecidableEq, Repr

/-- For each tool by name, how each parameter it declares is written. -/
abbrev ToolTypes := List (Bytes × List (Bytes × ToolValue))

structure ToolCallDelta where
  index : Nat
  name : Bytes
  arguments : Bytes
deriving DecidableEq, Repr

structure ToolCallParts where
  content : Bytes
  calls : List ToolCallDelta
deriving DecidableEq, Repr

inductive ToolCallState
  | text
  | head
  | jsonArgs
  | xmlParams
  | xmlClose
  | done
deriving DecidableEq, Repr

structure ToolCallSplit where
  format : ToolFormat
  typed : ToolTypes
  single : Bool
  state : ToolCallState
  buf : Bytes
  space : Bytes
  name : Bytes
  calls : Nat
  params : Nat
  afterCall : Bool

/-- Whether a text opens something, and how it goes on after it, or may still, or cannot. -/
inductive Opening (α : Type)
  | opens (a : α)
  | may
  | cannot
deriving DecidableEq, Repr

def Opening.bind {α β : Type} (o : Opening α) (f : α → Opening β) : Opening β :=
  match o with
  | .opens a => f a
  | .may => .may
  | .cannot => .cannot

def toolOpen : Bytes := ascii ['<', 't', 'o', 'o', 'l', '_', 'c', 'a', 'l', 'l', '>']

def toolClose : Bytes := ascii ['<', '/', 't', 'o', 'o', 'l', '_', 'c', 'a', 'l', 'l', '>']

def fnOpen : Bytes := ascii ['<', 'f', 'u', 'n', 'c', 't', 'i', 'o', 'n', '=']

def fnClose : Bytes := ascii ['<', '/', 'f', 'u', 'n', 'c', 't', 'i', 'o', 'n', '>']

def paramOpen : Bytes := ascii ['<', 'p', 'a', 'r', 'a', 'm', 'e', 't', 'e', 'r', '=']

def paramClose : Bytes :=
  ascii ['<', '/', 'p', 'a', 'r', 'a', 'm', 'e', 't', 'e', 'r', '>']

/-- A character of a string quoted. -/
def quoteByte (c : UInt8) : Bytes :=
  if c = '"'.toUInt8 ∨ c = '\\'.toUInt8 then ['\\'.toUInt8, c]
  else if c < 0x20 then
    let hex := ascii ['0', '1', '2', '3', '4', '5', '6', '7', '8', '9', 'a', 'b', 'c', 'd', 'e', 'f']
    ascii ['\\', 'u', '0', '0'] ++
      [hex.getD (c >>> 4).toNat 0, hex.getD (c &&& 0x0F).toNat 0]
  else [c]

def quote (text : Bytes) : Bytes :=
  '"'.toUInt8 :: text.flatMap quoteByte ++ ['"'.toUInt8]

namespace ToolCallSplit

def blank (c : UInt8) : Bool :=
  c == ' '.toUInt8 || c == '\n'.toUInt8 || c == '\r'.toUInt8 || c == '\t'.toUInt8

def new (format : ToolFormat) (typed : ToolTypes) (single : Bool) : ToolCallSplit :=
  ⟨format, typed, single, .text, [], [], [], 0, 0, false⟩

def text (c : ToolCallSplit) (out : ToolCallParts) (s : Bytes) : ToolCallSplit × ToolCallParts :=
  let t := if c.afterCall then s.dropWhile blank else s
  ({ c with afterCall := c.afterCall && t.isEmpty }, { out with content := out.content ++ t })

/-- The call's next arguments, onto its last piece where it has one in this output. -/
def arguments (c : ToolCallSplit) (out : ToolCallParts) (s : Bytes) : ToolCallParts :=
  if s = [] then out
  else
    match out.calls.getLast? with
    | some d =>
      if d.index = c.calls - 1 then
        { out with calls := out.calls.dropLast ++ [{ d with arguments := d.arguments ++ s }] }
      else { out with calls := out.calls ++ [⟨c.calls - 1, [], s⟩] }
    | none => { out with calls := out.calls ++ [⟨c.calls - 1, [], s⟩] }

def start (c : ToolCallSplit) (out : ToolCallParts) (name : Bytes) :
    ToolCallSplit × ToolCallParts :=
  ({ c with name := name, calls := c.calls + 1, space := [], params := 0 },
    { out with calls := out.calls ++ [⟨c.calls, name, []⟩] })

def endCall (c : ToolCallSplit) : ToolCallSplit :=
  { c with state := if c.single then .done else .text, afterCall := true }

/-- An opening that does not parse goes back to the content. -/
def refuse (c : ToolCallSplit) (out : ToolCallParts) : ToolCallSplit × ToolCallParts :=
  let (c, out) := c.text out (c.space ++ toolOpen)
  ({ c with space := [], state := .text }, out)

/-- A literal after whitespace. -/
def literal (l s : Bytes) : Opening Bytes :=
  let t := s.dropWhile blank
  if t = [] then .may
  else if t.take l.length ≠ l.take t.length then .cannot
  else if t.length < l.length then .may
  else .opens (t.drop l.length)

/-- A JSON string's text after its opening quote, its closing quote included, and the rest. -/
def quoted : Bytes → Option (Bytes × Bytes)
  | [] => none
  | c :: s =>
    if c = '"'.toUInt8 then some ([c], s)
    else if c = '\\'.toUInt8 then
      match s with
      | [] => none
      | d :: s => (quoted s).map fun (t, rest) => (c :: d :: t, rest)
    else (quoted s).map fun (t, rest) => (c :: t, rest)

variable {δ : Type}

/-- A JSON call's name where it may have one. -/
def jsonName (conv : Json.Conversion δ) (s : Bytes) : Opening (Bytes × Bytes) :=
  match s.dropWhile blank with
  | [] => .may
  | c :: s =>
    if c ≠ '"'.toUInt8 then .cannot
    else
      match quoted s with
      | none => .may
      | some (t, rest) =>
        match Json.parse conv (c :: t) with
        | .ok (.string name) => if name = [] then .cannot else .opens (name, rest)
        | _ => .cannot

/-- The opening of a JSON call: its name, and the text from its arguments on. -/
def jsonHead (conv : Json.Conversion δ) (s : Bytes) : Opening (Bytes × Bytes) :=
  (literal (ascii ['\x7b']) s).bind fun s =>
  (literal (ascii ['"', 'n', 'a', 'm', 'e', '"']) s).bind fun s =>
  (literal (ascii [':']) s).bind fun s =>
  (jsonName conv s).bind fun (name, s) =>
  (literal (ascii [',']) s).bind fun s =>
  (literal (ascii ['"', 'a', 'r', 'g', 'u', 'm', 'e', 'n', 't', 's', '"']) s).bind fun s =>
  (literal (ascii [':']) s).bind fun s =>
    if s.dropWhile blank = [] then .may else .opens (name, s.dropWhile blank)

def endsName (c : UInt8) : Bool :=
  c == '>'.toUInt8 || c == '\n'.toUInt8 || c == '<'.toUInt8

/-- The opening of a function call: its name, and the text after its tag. -/
def xmlHead (s : Bytes) : Opening (Bytes × Bytes) :=
  (literal fnOpen s).bind fun t =>
    match t.dropWhile fun c => !endsName c with
    | [] => .may
    | c :: rest =>
      let name := t.takeWhile fun c => !endsName c
      if c ≠ '>'.toUInt8 ∨ name = [] then .cannot else .opens (name, rest)

def kindOf (typed : ToolTypes) (name key : Bytes) : ToolValue :=
  ((typed.lookup name).bind fun params => params.lookup key).getD .structured

def trim (v : Bytes) : Bytes := (v.dropWhile blank).rdropWhile blank

/-- Whether a value is passed on as the JSON its trimmed text is. -/
def passes (kind : ToolValue) : Json.Value δ → Bool
  | .array _ | .object _ => kind ≠ .text
  | _ => kind = .json

/-- A parameter's value as JSON text. -/
def value (conv : Json.Conversion δ) (typed : ToolTypes) (name key v : Bytes) : Bytes :=
  let kind := kindOf typed name key
  if kind ≠ .text then
    match Json.parse conv (trim v) with
    | .ok parsed => if passes kind parsed then trim v else quote v
    | .error _ => quote v
  else quote v

/-- A value without the newline it opens with and the one it closes with. -/
def chomp (v : Bytes) : Bytes :=
  let v := match v with
    | c :: rest => if c = '\n'.toUInt8 then rest else v
    | [] => v
  if v.getLast? = some '\n'.toUInt8 then v.dropLast else v

def turnText (c : ToolCallSplit) (out : ToolCallParts) (last : Bool) :
    ToolCallSplit × ToolCallParts × Bool :=
  match split toolOpen c.buf with
  | some (lead, rest) =>
    let before := lead.rdropWhile blank
    let (c, out) := { c with space := lead.drop before.length }.text out before
    ({ c with buf := rest, state := .head }, out, true)
  | none =>
    let cut := if last then c.buf
      else (c.buf.take (c.buf.length - overlap toolOpen c.buf)).rdropWhile blank
    let (d, out) := c.text out cut
    ({ d with buf := c.buf.drop cut.length }, out, false)

def head (conv : Json.Conversion δ) (c : ToolCallSplit) : Opening (Bytes × Bytes) :=
  if c.format = .json then jsonHead conv c.buf else xmlHead c.buf

def turnHead (conv : Json.Conversion δ) (c : ToolCallSplit) (out : ToolCallParts) (last : Bool) :
    ToolCallSplit × ToolCallParts × Bool :=
  match c.head conv with
  | .opens (name, rest) =>
    let (c, out) := c.start out name
    ({ c with buf := rest, state := if c.format = .json then .jsonArgs else .xmlParams }, out, true)
  | .may =>
    if last ∨ (split toolClose c.buf).isSome then
      let (c, out) := c.refuse out
      (c, out, true)
    else (c, out, false)
  | .cannot =>
    let (c, out) := c.refuse out
    (c, out, true)

/-- Without the brace of the call's object and the whitespace before it. -/
def dropBrace (s : Bytes) : Bytes :=
  if s.getLast? = some '\x7d'.toUInt8 then s.dropLast.rdropWhile blank else s

def turnJson (c : ToolCallSplit) (out : ToolCallParts) (last : Bool) :
    ToolCallSplit × ToolCallParts × Bool :=
  match split toolClose c.buf with
  | some (args, rest) =>
    (endCall { c with buf := rest }, c.arguments out (dropBrace (args.rdropWhile blank)), true)
  | none =>
    if last then
      (endCall { c with buf := [] }, c.arguments out (dropBrace (c.buf.rdropWhile blank)), true)
    else
      let cut := dropBrace
        ((c.buf.take (c.buf.length - overlap toolClose c.buf)).rdropWhile blank)
      ({ c with buf := c.buf.drop cut.length }, c.arguments out cut, false)

def closeObject (c : ToolCallSplit) (out : ToolCallParts) : ToolCallParts :=
  c.arguments out (ascii (if c.params ≠ 0 then ['\x7d'] else ['\x7b', '\x7d']))

/-- A parameter's key, its text and what follows its closing tag. -/
def parameter (s : Bytes) : Option (Bytes × Bytes × Bytes) :=
  (split (ascii ['>']) (s.drop paramOpen.length)).bind fun (key, s) =>
    (split paramClose s).map fun (v, rest) => (key, v, rest)

/-- Whether the text begins a tag it is too short for. -/
def begins (tag s : Bytes) : Bool := s.isPrefixOf tag

def turnParams (conv : Json.Conversion δ) (c : ToolCallSplit) (out : ToolCallParts) (last : Bool) :
    ToolCallSplit × ToolCallParts × Bool :=
  let c := { c with buf := c.buf.dropWhile blank }
  let cutShort := (endCall { c with buf := [] }, c.closeObject out, true)
  if paramOpen.isPrefixOf c.buf then
    match parameter c.buf with
    | none => if last then cutShort else (c, out, false)
    | some (key, v, rest) =>
      let args := ascii (if c.params ≠ 0 then [',', ' '] else ['\x7b']) ++ quote key ++
        ascii [':', ' '] ++ value conv c.typed c.name key (chomp v)
      ({ c with buf := rest, params := c.params + 1 }, c.arguments out args, true)
  else if fnClose.isPrefixOf c.buf then
    ({ c with buf := c.buf.drop fnClose.length, state := .xmlClose }, c.closeObject out, true)
  else if toolClose.isPrefixOf c.buf then
    (endCall { c with buf := c.buf.drop toolClose.length }, c.closeObject out, true)
  else if c.buf = [] ∨ begins paramOpen c.buf ∨ begins fnClose c.buf ∨ begins toolClose c.buf then
    if last then cutShort else (c, out, false)
  else
    ({ c with buf := (c.buf.drop 1).dropWhile (· != '<'.toUInt8) }, out, true)

def turnClose (c : ToolCallSplit) (out : ToolCallParts) (last : Bool) :
    ToolCallSplit × ToolCallParts × Bool :=
  let s := c.buf.dropWhile blank
  if toolClose.isPrefixOf s then
    (endCall { c with buf := s.drop toolClose.length }, out, true)
  else if last = false ∧ (s = [] ∨ begins toolClose s) then (c, out, false)
  else if last ∧ s = [] then (endCall { c with buf := [] }, out, false)
  else (endCall c, out, true)

/-- One turn of the loop, and whether another follows. -/
def turn (conv : Json.Conversion δ) (c : ToolCallSplit) (out : ToolCallParts) (last : Bool) :
    ToolCallSplit × ToolCallParts × Bool :=
  match c.state with
  | .done => ({ c with buf := [] }, out, false)
  | .text => c.turnText out last
  | .head => c.turnHead conv out last
  | .jsonArgs => c.turnJson out last
  | .xmlParams => c.turnParams conv out last
  | .xmlClose => c.turnClose out last

/-- What the loop uses up with each turn: bytes, or a call's state for the text after it. -/
def left (c : ToolCallSplit) : Nat :=
  2 * c.buf.length + if c.state = .text ∨ c.state = .done then 0 else 1

theorem literal_lt {l s r : Bytes} (hl : l ≠ []) (h : literal l s = .opens r) :
    r.length < s.length := by
  unfold literal at h
  have hdrop := (List.dropWhile_suffix (l := s) blank).length_le
  have hpos := List.length_pos_iff.mpr hl
  generalize s.dropWhile blank = t at h hdrop
  dsimp only at h
  split at h
  next => cases h
  split at h
  next => cases h
  split at h
  next => cases h
  next hlen =>
    cases h
    rw [List.length_drop]
    omega

theorem Opening_bind {α β : Type} {o : Opening α} {f : α → Opening β} {b : β}
    (h : o.bind f = .opens b) : ∃ a, o = .opens a ∧ f a = .opens b := by
  cases o with
  | opens a => exact ⟨a, Eq.refl _, h⟩
  | may => cases h
  | cannot => cases h

theorem xmlHead_lt {s name rest : Bytes} (h : xmlHead s = .opens (name, rest)) :
    rest.length < s.length := by
  obtain ⟨t, ht, h⟩ := Opening_bind h
  have hlt := literal_lt (List.cons_ne_nil _ _) ht
  have hdrop := (List.dropWhile_suffix (l := t) fun c => !endsName c).length_le
  split at h
  next => cases h
  next c r heq =>
    rw [heq, List.length_cons] at hdrop
    dsimp only at h
    split at h
    next => cases h
    next =>
      cases h
      omega

theorem quoted_le {s t rest : Bytes} (h : quoted s = some (t, rest)) : rest.length ≤ s.length := by
  fun_induction quoted s generalizing t rest with
  | case1 => cases h
  | case2 s =>
    cases h
    rw [List.length_cons]
    omega
  | case3 => cases h
  | case4 s d hc ih =>
    obtain ⟨⟨u, r⟩, hu, h⟩ := Option.map_eq_some_iff.mp h
    cases h
    have := ih hu
    simp only [List.length_cons]
    omega
  | case5 c s hc hb ih =>
    obtain ⟨⟨u, r⟩, hu, h⟩ := Option.map_eq_some_iff.mp h
    cases h
    have := ih hu
    rw [List.length_cons]
    omega

theorem jsonName_le {conv : Json.Conversion δ} {s name rest : Bytes}
    (h : jsonName conv s = .opens (name, rest)) : rest.length ≤ s.length := by
  have hdrop := (List.dropWhile_suffix (l := s) blank).length_le
  unfold jsonName at h
  split at h
  next => cases h
  next c r heq =>
    rw [heq, List.length_cons] at hdrop
    split at h
    next => cases h
    split at h
    next => cases h
    next t u hq =>
      have hle := quoted_le hq
      split at h
      next n hn =>
        split at h
        next => cases h
        next =>
          cases h
          omega
      next => cases h

theorem jsonHead_lt {conv : Json.Conversion δ} {s name rest : Bytes}
    (h : jsonHead conv s = .opens (name, rest)) : rest.length < s.length := by
  obtain ⟨s1, h1, h⟩ := Opening_bind h
  obtain ⟨s2, h2, h⟩ := Opening_bind h
  obtain ⟨s3, h3, h⟩ := Opening_bind h
  obtain ⟨⟨n, s4⟩, h4, h⟩ := Opening_bind h
  obtain ⟨s5, h5, h⟩ := Opening_bind h
  obtain ⟨s6, h6, h⟩ := Opening_bind h
  obtain ⟨s7, h7, h⟩ := Opening_bind h
  have hle := jsonName_le h4
  have hlt1 := literal_lt (List.cons_ne_nil _ _) h1
  have hlt2 := literal_lt (List.cons_ne_nil _ _) h2
  have hlt3 := literal_lt (List.cons_ne_nil _ _) h3
  have hlt5 := literal_lt (List.cons_ne_nil _ _) h5
  have hlt6 := literal_lt (List.cons_ne_nil _ _) h6
  have hlt7 := literal_lt (List.cons_ne_nil _ _) h7
  have hdrop := (List.dropWhile_suffix (l := s7) blank).length_le
  split at h
  next => cases h
  next =>
    cases h
    omega

theorem split_lt {tag s a b : Bytes} (ht : tag ≠ []) (h : split tag s = some (a, b)) :
    b.length < s.length := by
  have hpos := List.length_pos_iff.mpr ht
  rw [split_eq h, List.length_append, List.length_append]
  omega

theorem parameter_lt {s key v rest : Bytes} (h : parameter s = some (key, v, rest)) :
    rest.length < s.length := by
  obtain ⟨⟨k, t⟩, hk, h⟩ := Option.bind_eq_some_iff.mp h
  obtain ⟨⟨u, r⟩, hu, h⟩ := Option.map_eq_some_iff.mp h
  cases h
  have h1 := split_lt (List.cons_ne_nil _ _) hk
  have h2 := split_lt (List.cons_ne_nil _ _) hu
  rw [List.length_drop] at h1
  omega

theorem left_le (c : ToolCallSplit) : c.left ≤ 2 * c.buf.length + 1 := by
  unfold left
  split <;> omega

theorem left_endCall (c : ToolCallSplit) : (endCall c).left = 2 * c.buf.length := by
  unfold left endCall
  cases c.single <;> simp

theorem left_inside {c : ToolCallSplit} (ht : c.state ≠ .text) (hd : c.state ≠ .done) :
    c.left = 2 * c.buf.length + 1 := by
  unfold left
  rw [if_neg (by simp [ht, hd])]

theorem turnText_left {c d : ToolCallSplit} {out out' : ToolCallParts} {last : Bool}
    (h : c.turnText out last = (d, out', true)) : d.left < 2 * c.buf.length := by
  unfold turnText at h
  split at h
  next lead rest hs =>
    cases h
    have hlt := split_lt (List.cons_ne_nil _ _) hs
    refine Nat.lt_of_le_of_lt (left_le _) ?_
    dsimp only
    omega
  next => cases h

theorem head_lt {conv : Json.Conversion δ} {c : ToolCallSplit} {name rest : Bytes}
    (h : c.head conv = .opens (name, rest)) : rest.length < c.buf.length := by
  unfold head at h
  split at h
  next => exact jsonHead_lt h
  next => exact xmlHead_lt h

theorem refuse_left (c : ToolCallSplit) (out : ToolCallParts) :
    (c.refuse out).1.left = 2 * c.buf.length := by
  unfold refuse left text
  simp

theorem turnHead_left {conv : Json.Conversion δ} {c d : ToolCallSplit} {out out' : ToolCallParts}
    {last : Bool} (h : c.turnHead conv out last = (d, out', true)) :
    d.left < 2 * c.buf.length + 1 := by
  have hrefuse := refuse_left c out
  unfold turnHead at h
  split at h
  next name rest hs =>
    cases h
    have hlt := head_lt hs
    refine Nat.lt_of_le_of_lt (left_le _) ?_
    dsimp only
    omega
  next =>
    split at h
    next =>
      cases h
      exact hrefuse ▸ Nat.lt_succ_self _
    next => cases h
  next =>
    cases h
    exact hrefuse ▸ Nat.lt_succ_self _

theorem turnJson_left {c d : ToolCallSplit} {out out' : ToolCallParts} {last : Bool}
    (h : c.turnJson out last = (d, out', true)) : d.left < 2 * c.buf.length + 1 := by
  unfold turnJson at h
  split at h
  next args rest hs =>
    cases h
    have hlt := split_lt (List.cons_ne_nil _ _) hs
    rw [left_endCall]
    dsimp only
    omega
  next =>
    split at h
    next =>
      cases h
      rw [left_endCall]
      dsimp only
      rw [List.length_nil]
      omega
    next => cases h

theorem turnParams_left {conv : Json.Conversion δ} {c d : ToolCallSplit}
    {out out' : ToolCallParts} {last : Bool} (h : c.turnParams conv out last = (d, out', true)) :
    d.left < 2 * c.buf.length + 1 := by
  have hdrop := (List.dropWhile_suffix (l := c.buf) blank).length_le
  unfold turnParams at h
  generalize c.buf.dropWhile blank = s at h hdrop
  dsimp only at h
  have hcut : ∀ c' : ToolCallSplit, (endCall { c' with buf := [] }).left < 2 * c.buf.length + 1 := by
    intro c'
    rw [left_endCall]
    dsimp only
    rw [List.length_nil]
    omega
  split at h
  next =>
    split at h
    next =>
      split at h
      next =>
        cases h
        exact hcut _
      next => cases h
    next key v rest hp =>
      cases h
      have hlt := parameter_lt hp
      refine Nat.lt_of_le_of_lt (left_le _) ?_
      dsimp only
      omega
  split at h
  next hpre =>
    cases h
    have hlen := (List.isPrefixOf_iff_prefix.mp hpre).length_le
    have hpos : 0 < fnClose.length := Nat.succ_pos _
    refine Nat.lt_of_le_of_lt (left_le _) ?_
    dsimp only
    rw [List.length_drop]
    omega
  split at h
  next =>
    cases h
    rw [left_endCall]
    dsimp only
    rw [List.length_drop]
    omega
  split at h
  next =>
    split at h
    next =>
      cases h
      exact hcut _
    next => cases h
  next hno =>
    cases h
    have hne : s ≠ [] := fun hnil => hno (.inl hnil)
    have hpos := List.length_pos_iff.mpr hne
    have hnext := (List.dropWhile_suffix (l := s.drop 1) (· != '<'.toUInt8)).length_le
    rw [List.length_drop] at hnext
    refine Nat.lt_of_le_of_lt (left_le _) ?_
    dsimp only
    omega

theorem turnClose_left {c d : ToolCallSplit} {out out' : ToolCallParts} {last : Bool}
    (h : c.turnClose out last = (d, out', true)) : d.left < 2 * c.buf.length + 1 := by
  have hdrop := (List.dropWhile_suffix (l := c.buf) blank).length_le
  unfold turnClose at h
  generalize c.buf.dropWhile blank = s at h hdrop
  dsimp only at h
  split at h
  next =>
    cases h
    rw [left_endCall]
    dsimp only
    rw [List.length_drop]
    omega
  split at h
  next => cases h
  split at h
  next => cases h
  next =>
    cases h
    rw [left_endCall]
    omega

/-- Each turn of the loop that goes on uses something up. -/
theorem turn_left {conv : Json.Conversion δ} {c d : ToolCallSplit} {out out' : ToolCallParts}
    {last : Bool} (h : c.turn conv out last = (d, out', true)) : d.left < c.left := by
  have hinside := @left_inside c
  unfold turn at h
  split at h
  next => cases h
  next hs =>
    have hlt := turnText_left h
    unfold left at hlt ⊢
    rw [if_pos (Or.inl hs)]
    exact hlt
  next hs =>
    rw [hinside (by simp [hs]) (by simp [hs])]
    exact turnHead_left h
  next hs =>
    rw [hinside (by simp [hs]) (by simp [hs])]
    exact turnJson_left h
  next hs =>
    rw [hinside (by simp [hs]) (by simp [hs])]
    exact turnParams_left h
  next hs =>
    rw [hinside (by simp [hs]) (by simp [hs])]
    exact turnClose_left h

/-- The loop, to the turn it returns at. -/
def step (conv : Json.Conversion δ) (c : ToolCallSplit) (out : ToolCallParts) (last : Bool) :
    ToolCallSplit × ToolCallParts :=
  match _h : c.turn conv out last with
  | (d, out, true) => step conv d out last
  | (d, out, false) => (d, out)
termination_by c.left
decreasing_by exact turn_left _h

def feed (conv : Json.Conversion δ) (c : ToolCallSplit) (piece : Bytes) :
    ToolCallSplit × ToolCallParts :=
  step conv { c with buf := c.buf ++ piece } ⟨[], []⟩ false

def finish (conv : Json.Conversion δ) (c : ToolCallSplit) : ToolCallSplit × ToolCallParts :=
  step conv c ⟨[], []⟩ true

/-- The pieces fed in turn, and the pieces of calls they gave. -/
def feedAll (conv : Json.Conversion δ) (c : ToolCallSplit) :
    List Bytes → ToolCallSplit × List ToolCallDelta
  | [] => (c, [])
  | piece :: pieces =>
    let (c, out) := c.feed conv piece
    let (c, calls) := feedAll conv c pieces
    (c, out.calls ++ calls)

/-- A reply fed in pieces and finished. -/
def run (conv : Json.Conversion δ) (format : ToolFormat) (typed : ToolTypes) (single : Bool)
    (pieces : List Bytes) : ToolCallSplit × List ToolCallDelta :=
  let (c, calls) := (new format typed single).feedAll conv pieces
  let (c, out) := c.finish conv
  (c, calls ++ out.calls)

/-- The arguments of call `k` in all. -/
def argumentsOf (k : Nat) (calls : List ToolCallDelta) : Bytes :=
  (calls.filter fun d => d.index == k).flatMap ToolCallDelta.arguments

end ToolCallSplit

end Llmx
