import Llmx.HotRowsIndex
import Llmx.Tiling

namespace Llmx

open Runs

namespace WeightRows

structure FileReader where
  content : Bytes
  direct : Bool
  granule : Nat
  pos : 0 < granule

/-- A read from `offset`: `come` is how many bytes the system's calls give it in all, `none` where
one fails. -/
def FileReader.read (f : FileReader) (offset bytes : Nat) (come : Option Nat) : Option Bytes :=
  if f.direct = true ∧ (offset % f.granule ≠ 0 ∨ bytes % f.granule ≠ 0) then none
  else come.map fun n => (f.content.drop offset).take (min n bytes)

/-- Bytes copied to a place of a scratch's rows. -/
structure Copy where
  place : Nat
  bytes : Bytes
deriving DecidableEq

/-- The span of `bytes` at `offset` read through a window of `capacity`, from `done` bytes on, for
the rows' `place`. -/
def readAligned (f : FileReader) (offset place bytes capacity : Nat) (come : Nat → Option Nat)
    (done : Nat) : Option (List Copy) :=
  if done < bytes then
    let start := offset + done
    let aligned := start / f.granule * f.granule
    let lead := start - aligned
    let room := if lead < capacity then capacity - lead else 0
    let take := min (bytes - done) room
    if take = 0 then none
    else
      let request := (lead + take + f.granule - 1) / f.granule * f.granule
      (f.read aligned request (come done)).bind fun got =>
        if got.length < lead ∨ got.length - lead < take then none
        else
          (readAligned f offset place bytes capacity come (done + take)).map
            (⟨place + done, (got.drop lead).take take⟩ :: ·)
  else some []
termination_by bytes - done
decreasing_by
  show bytes - (done + take) < bytes - done
  omega

/-- A table's rows in its file, whose extent the file holds. -/
structure Table where
  type : Nat
  columns : Nat
  rows : Nat
  rowBytes : Nat
  offset : Nat
  reader : FileReader
  ids : rows ≤ 2 ^ 32
  extent : offset + rows * rowBytes ≤ reader.content.length

def Table.fileRow (t : Table) (id : Nat) : Bytes :=
  (t.reader.content.drop (t.offset + id * t.rowBytes)).take t.rowBytes

def kReadThreads : Nat := 16

inductive Pending
  | none
  | running
  | done
  | failed
deriving DecidableEq

/-- `unique` is the counted part of the scratch's ids. -/
structure Scratch where
  type : Nat
  columns : Nat
  rowBytes : Nat
  maxRows : Nat
  raw : Nat → UInt8
  remap : Nat → Nat
  unique : List Nat
  requested : Nat
  started : Bool
  pending : Pending

/-- An order the sort may leave: the places of the ids, the ids ascending. -/
def Sorts (ids order : List Nat) : Prop :=
  order.Perm (List.range ids.length) ∧
    order.Pairwise fun a b => ids.getD a 0 ≤ ids.getD b 0

instance (ids order : List Nat) : Decidable (Sorts ids order) := inferInstanceAs (Decidable (_ ∧ _))

/-- The ids once each, and which of them each request is. -/
structure Gathered where
  unique : List Nat
  remap : Nat → Nat

def gatherOne (ids : List Nat) (g : Gathered) (i : Nat) : Gathered :=
  let unique := if g.unique.getLast? = some (ids.getD i 0) then g.unique
    else g.unique ++ [ids.getD i 0]
  ⟨unique, Function.update g.remap i (unique.length - 1)⟩

def gather (ids : List Nat) (g : Gathered) (order : List Nat) : Gathered :=
  order.foldl (gatherOne ids) g

/-- A read begun: whether it was, and the scratch. It waits for one that runs; `order` is what the
sort leaves, `launched` whether the task starts. -/
def start (t : Table) (ids order : List Nat) (launched : Bool) (s : Scratch) :
    Option (Bool × Scratch) :=
  if s.pending = .running then none
  else if s.type ≠ t.type ∨ s.columns ≠ t.columns ∨ s.rowBytes ≠ t.rowBytes ∨
      s.maxRows < ids.length ∨ ids.any (t.rows ≤ ·) then
    some (false, { s with pending := .none, started := false })
  else if ids = [] then
    some (true, { s with
      pending := .none, started := true, unique := [], requested := 0 })
  else if ¬ Sorts ids order then none
  else
    let g := gather ids ⟨[], s.remap⟩ order
    some (launched, { s with
      unique := g.unique
      remap := g.remap
      requested := ids.length
      started := launched
      pending := if launched then .running else .none })

/-- The rows found in the store so far: the store, the rows' memory and which were found. -/
structure Found where
  store : Store
  raw : Nat → UInt8
  held : List Bool

def writeRow (raw : Nat → UInt8) (place : Nat) (bytes : Bytes) : Nat → UInt8 :=
  Tiling.put raw place bytes.length fun p => bytes.getD (p - place) 0

def lookUpOne (hash : Nat → Nat) (f : Found) (id : Nat) : Option Found :=
  match f.store.find hash id with
  | none => none
  | some none => some { f with held := f.held ++ [false] }
  | some (some slot) => some
      { store := f.store.touch slot
        raw := writeRow f.raw (f.held.length * f.store.rowBytes) (f.store.row slot)
        held := f.held ++ [true] }

def lookUp (hash : Nat → Nat) (f : Found) (unique : List Nat) : Option Found :=
  unique.foldlM (lookUpOne hash) f

structure Span where
  source : Nat
  place : Nat
  bytes : Nat

/-- Where the run of missing ids that `stop` may go on ends. -/
def spanEnd (unique : List Nat) (held : List Bool) (stop : Nat) : Nat :=
  if stop < unique.length ∧ held.getD stop false = false ∧
      unique.getD stop 0 = (unique.getD (stop - 1) 0 + 1) % 2 ^ 32 then
    spanEnd unique held (stop + 1)
  else stop
termination_by unique.length - stop

theorem le_spanEnd (unique : List Nat) (held : List Bool) (stop : Nat) :
    stop ≤ spanEnd unique held stop := by
  fun_induction spanEnd unique held stop with
  | case1 stop h ih => omega
  | case2 stop h => exact Nat.le_refl stop

/-- A span for each run of contiguous missing ids, from the `i`-th on. -/
def spansFrom (t : Table) (unique : List Nat) (held : List Bool) (i : Nat) : List Span :=
  if i < unique.length then
    if held.getD i false then spansFrom t unique held (i + 1)
    else
      ⟨t.offset + unique.getD i 0 * t.rowBytes, i * t.rowBytes,
        (spanEnd unique held (i + 1) - i) * t.rowBytes⟩ ::
          spansFrom t unique held (spanEnd unique held (i + 1))
  else []
termination_by unique.length - i
decreasing_by
  · omega
  · have := le_spanEnd unique held (i + 1)
    omega

/-- A span read as its reader reads: through a window of a granule, or into the rows. -/
def readSpan (f : FileReader) (s : Span) (come : Nat → Option Nat) : Option (List Copy) :=
  if f.direct then readAligned f s.source s.place s.bytes f.granule come 0
  else
    (f.read s.source s.bytes (come 0)).bind fun got =>
      if got.length ≠ s.bytes then none else some [⟨s.place, got⟩]

/-- The spans a lane takes of `n`: its own place and every `lanes`-th after it. -/
def laneSpans (n lanes lane : Nat) : List Nat :=
  List.range' lane ((n - lane + lanes - 1) / lanes) lanes

/-- A lane's copies, `come i` what its reads of span `i` are given. -/
def readLane (f : FileReader) (spans : List Span) (lanes : Nat) (come : Nat → Nat → Option Nat)
    (lane : Nat) : Option (List Copy) :=
  ((laneSpans spans.length lanes lane).mapM fun i =>
    spans[i]?.bind fun s => readSpan f s (come i)).map List.flatten

def readSpans (f : FileReader) (spans : List Span) (come : Nat → Nat → Option Nat) :
    Option (List Copy) :=
  let lanes := min spans.length kReadThreads
  ((List.range lanes).mapM (readLane f spans lanes come)).map List.flatten

def applyCopies (raw : Nat → UInt8) (copies : List Copy) : Nat → UInt8 :=
  Tiling.putAll Copy.place (fun c => c.bytes.length) (fun c p => c.bytes.getD (p - c.place) 0)
    copies raw

def rowOf (rowBytes : Nat) (raw : Nat → UInt8) (i : Nat) : Bytes :=
  (List.range rowBytes).map fun k => raw (i * rowBytes + k)

/-- The rows read, given to the store. -/
def publish (hash : Nat → Nat) (t : Table) (raw : Nat → UInt8) :
    List (Nat × Bool) → Nat → Store → Option Store
  | [], _, store => some store
  | (id, held) :: rest, i, store =>
    if held then publish hash t raw rest (i + 1) store
    else
      (store.put hash id (rowOf t.rowBytes raw i)).bind fun store =>
        publish hash t raw rest (i + 1) store

/-- What a task leaves: the table's store and the rows' memory, or a failure. -/
structure Outcome where
  store : Option Store
  raw : Nat → UInt8
  ok : Bool

/-- The rows missing read and published. The lanes' copies land in some order `landed`; a failed
read leaves `left` in the rows. -/
def readMissing (hash : Nat → Nat) (t : Table) (unique : List Nat) (f : Found)
    (store : Option Store) (come : Nat → Nat → Option Nat) (landed : List Copy)
    (left : Nat → UInt8) : Option Outcome :=
  let spans := spansFrom t unique f.held 0
  if spans = [] then some ⟨store, f.raw, true⟩
  else
    match readSpans t.reader spans come with
    | none => some ⟨store, left, false⟩
    | some copies =>
      if landed.Perm copies then
        let raw := applyCopies f.raw landed
        match store with
        | none => some ⟨none, raw, true⟩
        | some st => (publish hash t raw (unique.zip f.held) 0 st).map fun st =>
            ⟨some st, raw, true⟩
      else none

/-- A read's task, under the readers' mutex. -/
def task (hash : Nat → Nat) (t : Table) (store : Option Store) (s : Scratch)
    (come : Nat → Nat → Option Nat) (landed : List Copy) (left : Nat → UInt8) : Option Outcome :=
  match store with
  | none =>
    readMissing hash t s.unique ⟨Store.new 0 0, s.raw, s.unique.map fun _ => false⟩ none come landed
      left
  | some st =>
    (lookUp hash ⟨st, s.raw, []⟩ s.unique).bind fun f =>
      readMissing hash t s.unique f (some f.store) come landed left

structure Rows where
  data : Nat → UInt8
  ids : List Nat
  remap : Nat → Nat
  requested : Nat

def Scratch.rows (s : Scratch) : Rows :=
  if s.requested = 0 then ⟨fun _ => 0, [], fun _ => 0, 0⟩
  else ⟨s.raw, s.unique, s.remap, s.requested⟩

/-- The rows of a read begun, `none` where it refuses or its read failed; it waits for one that
runs. -/
def finish (s : Scratch) : Option (Option Rows × Scratch) :=
  if s.started = false then some (none, s)
  else
    match s.pending with
    | .running => none
    | .failed => some (none, { s with started := false, pending := .none, unique := [] })
    | .none => some (some s.rows, { s with started := false, pending := .none })
    | .done => some (some s.rows, { s with started := false, pending := .none })

/-- A scratch with the ids of the read begun in it and not finished. -/
structure Session where
  scratch : Scratch
  asked : Option (List Nat)

structure Lookups where
  store : Option Store
  sessions : List Session

inductive LookupMove
  | start (k : Nat) (ids order : List Nat) (launched : Bool)
  | run (k : Nat) (come : Nat → Nat → Option Nat) (landed : List Copy) (left : Nat → UInt8)
  | finish (k : Nat)

def startStep (t : Table) (ids order : List Nat) (launched : Bool) (s : Session) :
    Option Session :=
  (start t ids order launched s.scratch).map fun r =>
    ⟨r.2, if r.1 then some ids else none⟩

def runStep (hash : Nat → Nat) (t : Table) (store : Option Store) (s : Session)
    (come : Nat → Nat → Option Nat) (landed : List Copy) (left : Nat → UInt8) :
    Option (Option Store × Session) :=
  if s.scratch.pending = .running then
    (task hash t store s.scratch come landed left).map fun o =>
      (o.store, ⟨{ s.scratch with
        raw := o.raw, pending := if o.ok then .done else .failed }, s.asked⟩)
  else none

def Lookups.step (hash : Nat → Nat) (t : Table) (s : Lookups) : LookupMove → Option Lookups
  | .start k ids order launched => do
    let sn ← s.sessions[k]?
    let sn ← startStep t ids order launched sn
    some { s with sessions := s.sessions.set k sn }
  | .run k come landed left => do
    let sn ← s.sessions[k]?
    let r ← runStep hash t s.store sn come landed left
    some ⟨r.1, s.sessions.set k r.2⟩
  | .finish k => do
    let sn ← s.sessions[k]?
    let r ← finish sn.scratch
    some { s with sessions := s.sessions.set k ⟨r.2, none⟩ }

def Scratch.fresh (s : Scratch) : Prop := s.started = false ∧ s.pending = .none

/-- The store a table holds its hot rows in, where the memory it may take is enough for
`within`. -/
def hold (t : Table) (within : Nat) : Option Store :=
  if min t.rows within = 0 then none else some (Store.new (min t.rows within) t.rowBytes)

/-- A table's lookups from its first. -/
def lookups (hash : Nat → Nat) (t : Table) (within : Nat) : Machine Lookups LookupMove where
  start s := s.store = hold t within ∧ ∀ sn ∈ s.sessions, sn.scratch.fresh ∧ sn.asked = none
  step := Lookups.step hash t

end WeightRows

end Llmx
