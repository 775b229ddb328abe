import Llmx.Tags

namespace Llmx

open Tags

abbrev Bytes := List UInt8

/-- The bytes of ASCII characters. -/
def ascii (s : List Char) : Bytes := s.map Char.toUInt8

def isNewline (c : UInt8) : Bool := c == 10

def thinkOpen : Bytes := ascii ['<', 't', 'h', 'i', 'n', 'k', '>']

def thinkClose : Bytes := ascii ['<', '/', 't', 'h', 'i', 'n', 'k', '>']

inductive ReplyState
  | start
  | reasoning
  | reply
  | plain
deriving DecidableEq, Repr

structure ReplySplit where
  state : ReplyState
  held : Bytes
  reasoningStarted : Bool
  replyStarted : Bool
deriving DecidableEq, Repr

structure ReplyParts where
  reasoning : Bytes
  content : Bytes
deriving DecidableEq, Repr

namespace ReplyParts

def append (a b : ReplyParts) : ReplyParts := ⟨a.reasoning ++ b.reasoning, a.content ++ b.content⟩

def empty : ReplyParts := ⟨[], []⟩

end ReplyParts

namespace ReplySplit

def new (opened : Bool) : ReplySplit :=
  ⟨if opened then .reasoning else .start, [], false, false⟩

/-- The reasoning's next part, without the newlines that open it and, where it is the last, those
that close it. -/
def reason (r : ReplySplit) (s : Bytes) (last : Bool) : ReplySplit × Bytes :=
  let t := if r.reasoningStarted then s else s.dropWhile isNewline
  ({ r with reasoningStarted := r.reasoningStarted || !t.isEmpty },
    if last then t.rdropWhile isNewline else t)

def reply (r : ReplySplit) (s : Bytes) : ReplySplit × Bytes :=
  let t := if r.replyStarted then s else s.dropWhile isNewline
  ({ r with replyStarted := r.replyStarted || !t.isEmpty }, t)

def takeReasoning (r : ReplySplit) (piece : Bytes) : ReplySplit × ReplyParts :=
  let held := r.held ++ piece
  match split thinkClose held with
  | some (before, rest) =>
    let (r, reasoning) := r.reason before true
    let (r, content) := reply { r with held := [], state := .reply } rest
    (r, ⟨reasoning, content⟩)
  | none =>
    let cut := (held.take (held.length - overlap thinkClose held)).rdropWhile isNewline
    let (r, reasoning) := r.reason cut false
    ({ r with held := held.drop cut.length }, ⟨reasoning, []⟩)

/-- A start decided once what follows its newlines can no longer become the opening tag. -/
def takeStart (r : ReplySplit) (piece : Bytes) : ReplySplit × ReplyParts :=
  let held := r.held ++ piece
  let s := held.dropWhile isNewline
  if s.length < thinkOpen.length ∧ s = thinkOpen.take s.length then
    ({ r with held := held }, .empty)
  else if s.take thinkOpen.length = thinkOpen then
    takeReasoning { r with held := [], state := .reasoning } (s.drop thinkOpen.length)
  else ({ r with held := [], state := .plain }, ⟨[], held⟩)

def take (r : ReplySplit) (piece : Bytes) : ReplySplit × ReplyParts :=
  match r.state with
  | .plain => (r, ⟨[], piece⟩)
  | .reply =>
    let (r, content) := r.reply piece
    (r, ⟨[], content⟩)
  | .start => r.takeStart piece
  | .reasoning => r.takeReasoning piece

def finish (r : ReplySplit) : ReplyParts :=
  match r.state with
  | .start => ⟨[], r.held⟩
  | .reasoning => ⟨(r.reason r.held true).2, []⟩
  | _ => .empty

def feedAll (r : ReplySplit) : List Bytes → ReplySplit × ReplyParts
  | [] => (r, .empty)
  | piece :: pieces =>
    let (r, out) := r.take piece
    let (r, rest) := r.feedAll pieces
    (r, out.append rest)

/-- What a reply fed in pieces gives in all. -/
def run (opened : Bool) (pieces : List Bytes) : ReplyParts :=
  let (r, out) := (new opened).feedAll pieces
  out.append r.finish

end ReplySplit

/-- An assistant turn split over its whole text: its content, and its reasoning where it has one. -/
def assistantTurn (text : Bytes) : Bytes × Option Bytes :=
  match split thinkClose text, splitLast thinkClose text with
  | some (before, _), some (_, reply) =>
    let reasoning := before.rdropWhile isNewline
    let reasoning := match splitLast thinkOpen reasoning with
      | some (_, after) => after
      | none => reasoning
    (reply.dropWhile isNewline, some (reasoning.dropWhile isNewline))
  | _, _ => (text, none)

/-- Newlines off both ends. -/
def trimmed (s : Bytes) : Bytes := (s.dropWhile isNewline).rdropWhile isNewline

/-- What follows the opening of a reply's reasoning, where it has one. -/
def opening (opened : Bool) (text : Bytes) : Option Bytes :=
  if opened then some text
  else
    let s := text.dropWhile isNewline
    if thinkOpen.isPrefixOf s then some (s.drop thinkOpen.length) else none

/-- The split a whole reply should have: the reasoning up to the first closing tag, the content
after it, and all of it content where no reasoning opens. -/
def splitReply (opened : Bool) (text : Bytes) : ReplyParts :=
  match opening opened text with
  | none => ⟨[], text⟩
  | some body =>
    match split thinkClose body with
    | none => ⟨trimmed body, []⟩
    | some (reasoning, content) => ⟨trimmed reasoning, content.dropWhile isNewline⟩

end Llmx
