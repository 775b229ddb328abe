import Llmx.Runs

namespace Llmx

open Runs

/-- What a reader does with its piece. -/
inductive Phase
  | waiting
  | filling
  | filled (bytes : Nat)
  | leaving
  | ended
deriving DecidableEq, Repr

structure Reader where
  piece : Nat
  phase : Phase
deriving DecidableEq, Repr

structure Full where
  piece : Nat
  slot : Nat
  bytes : Nat
deriving DecidableEq, Repr

/-- A stream of pieces: how many, its slots and readers, and what a read of a piece leaves in its
slot with the bytes it read, `none` where it throws. -/
structure Stream (β : Type) where
  count : Nat
  slots : Nat
  readers : Nat
  fill : Nat → Option (β × Nat)

variable {β : Type}

/-- The slots made: no more than there are pieces. -/
def Stream.size (m : Stream β) : Nat := min m.slots m.count

def Stream.threads (m : Stream β) : Nat := min m.readers m.size

/-- The ring a stream goes through; a failure is the piece whose read threw. -/
structure ReadRing (β : Type) where
  ring : List β
  next : Nat
  consumed : Nat
  ready : List Nat
  got : List Nat
  readers : List Reader
  running : Nat
  stopped : Bool
  failed : Option Nat
deriving DecidableEq, Repr

/-- What a call for the next piece answers. -/
inductive Answer
  | full (f : Full)
  | nothing
  | throws (piece : Nat)
deriving DecidableEq, Repr

/-- The next piece, where the call does not wait. -/
def ReadRing.nextPiece (m : Stream β) (r : ReadRing β) (wait : Bool) :
    Option (Answer × ReadRing β) :=
  if m.count ≤ r.next then some (.nothing, r)
  else
    let slot := r.next % m.size
    if r.ready[slot]? = some (r.next + 1) then
      some (.full ⟨r.next, slot, (r.got[slot]?).getD 0⟩, { r with next := r.next + 1 })
    else
      match r.failed with
      | some piece => some (.throws piece, r)
      | none => if wait then none else some (.nothing, r)

def ReadRing.free (r : ReadRing β) (piece : Nat) : ReadRing β :=
  { r with consumed := max r.consumed (piece + 1) }

def ReadRing.stop (r : ReadRing β) : ReadRing β := { r with stopped := true }

def ReadRing.setReader (r : ReadRing β) (j : Nat) (reader : Reader) : ReadRing β :=
  { r with readers := r.readers.set j reader }

/-- What a reader does between two looks at the lock; `write` is a part of a read that lands in its
slot before the read is done. -/
inductive ReaderMove (β : Type)
  | take
  | write (b : β)
  | finish
  | publish
  | leave
deriving DecidableEq, Repr

/-- A reader's move, `none` where it cannot be made. -/
def ReadRing.move (m : Stream β) (r : ReadRing β) (j : Nat) (reader : Reader) :
    ReaderMove β → Option (ReadRing β)
  | .take =>
    if reader.phase = .waiting then
      if m.count ≤ reader.piece ∨ r.stopped then some (r.setReader j { reader with phase := .leaving })
      else if reader.piece < r.consumed + m.size then
        some (r.setReader j { reader with phase := .filling })
      else none
    else none
  | .write b =>
    if reader.phase = .filling then some { r with ring := r.ring.set (reader.piece % m.size) b }
    else none
  | .finish =>
    if reader.phase = .filling then
      match m.fill reader.piece with
      | some (b, bytes) =>
        some ({ r with ring := r.ring.set (reader.piece % m.size) b }.setReader j
          { reader with phase := .filled bytes })
      | none =>
        some ({ r with failed := r.failed <|> some reader.piece }.setReader j
          { reader with phase := .leaving })
    else none
  | .publish =>
    match reader.phase with
    | .filled bytes =>
      some ({ r with
        got := r.got.set (reader.piece % m.size) bytes
        ready := r.ready.set (reader.piece % m.size) (reader.piece + 1) }.setReader j
          ⟨reader.piece + m.threads, .waiting⟩)
    | _ => none
  | .leave =>
    if reader.phase = .leaving then
      some ({ r with running := r.running - 1 }.setReader j { reader with phase := .ended })
    else none

/-- A ring with what its consumer was given, each with its slot's bytes then, and whether a call
threw. -/
structure RingRun (β : Type) where
  ring : ReadRing β
  given : List (Full × Option β)
  threw : Bool
deriving DecidableEq, Repr

inductive RingEvent (β : Type)
  | reader (j : Nat) (move : ReaderMove β)
  | next (wait : Bool)
  | free (piece : Nat)
  | stop
deriving DecidableEq, Repr

/-- Events at the lock's grain; a piece is given back only once it was given. -/
def RingRun.step (m : Stream β) (s : RingRun β) : RingEvent β → Option (RingRun β)
  | .reader j move =>
    match s.ring.readers[j]? with
    | none => none
    | some reader => (s.ring.move m j reader move).map fun ring => { s with ring := ring }
  | .next wait =>
    match s.ring.nextPiece m wait with
    | none => none
    | some (.full f, ring) =>
      some { s with ring := ring, given := s.given ++ [(f, s.ring.ring[f.slot]?)] }
    | some (.nothing, ring) => some { s with ring := ring }
    | some (.throws _, ring) => some { s with ring := ring, threw := true }
  | .free piece =>
    if piece < s.ring.next then some { s with ring := s.ring.free piece } else none
  | .stop => some { s with ring := s.ring.stop }

/-- A ring as its readers start: its pages hold anything. -/
structure RingRun.Started (m : Stream β) (s : RingRun β) : Prop where
  ring : s.ring.ring.length = m.size
  next : s.ring.next = 0
  consumed : s.ring.consumed = 0
  ready : s.ring.ready = List.replicate m.size 0
  got : s.ring.got = List.replicate m.size 0
  readers : s.ring.readers = (List.range m.threads).map fun j => ⟨j, .waiting⟩
  running : s.ring.running = m.threads
  stopped : s.ring.stopped = false
  failed : s.ring.failed = none
  given : s.given = []
  threw : s.threw = false

def ringMachine (m : Stream β) : Machine (RingRun β) (RingEvent β) where
  start := RingRun.Started m
  step := RingRun.step m

end Llmx
