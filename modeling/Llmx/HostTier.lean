import Mathlib.Data.List.Sort
import Mathlib.Data.List.Perm.Basic
import Mathlib.Algebra.Order.Ring.Int

namespace Llmx

namespace HostCache

/-- A stretch of a history's rows before `stop`, computed alike. -/
structure RowClass where
  stop : Nat
  extent : Nat
  image : List UInt8
deriving DecidableEq

structure ImageTail where
  digest : List UInt8
  rows : Nat
  from_ : Nat
  encoded : Nat
deriving DecidableEq

/-- A copy in host memory: its tokens, the bytes of slabs it holds and how many on each device. -/
structure HostHistory where
  length : Nat
  held : Nat
  slabs : List Nat
deriving DecidableEq

structure Donor where
  id : Nat
  tokens : List UInt32
  classes : List RowClass
  length : Nat
  landing : Bool
  checkpoint : Option Nat
  onHost : Nat
  promotedFor : Nat
  superseded : Bool
  back : Bool
  keep : Nat
  tails : List ImageTail
  used : Int
deriving DecidableEq

structure HostDonor where
  id : Nat
  tokens : List UInt32
  classes : List RowClass
  history : HostHistory
  superseded : Bool
  back : Bool
  disk : Nat
  fromDisk : Bool
  tails : List ImageTail
  used : Int
deriving DecidableEq

structure Boundary where
  id : Nat
  tokens : List UInt32
  classes : List RowClass
  state : HostHistory
  disk : Nat
  used : Int
  back : Bool
  superseded : Bool
  tail : Bool
deriving DecidableEq

structure DiskRead where
  id : Nat
  history : HostHistory
  stateOnly : Bool
  source : Nat
  tokens : List UInt32
  classes : List RowClass
deriving DecidableEq

/-- What the disk tier says of its write: its call, the entry it reads, whether it was stopped, and
the staged copy, dropped or not. -/
structure DiskWriter where
  key : Nat
  source : Nat
  bound : Bool
  cancelled : Bool
  copying : Option Bool
  held : Nat
deriving DecidableEq

/-- An entry of the host tier: a boundary or a copy, and its id. -/
structure Entry where
  bound : Bool
  id : Nat
deriving DecidableEq

structure Cache where
  donors : List Donor
  host : List HostDonor
  bounds : List Boundary
  diskReads : List DiskRead
  hostHeld : Nat
  hostTails : Nat
  pinnedBound : Nat
  promoting : Nat
  readingFor : Nat
  disk : Option DiskWriter
  diskParked : List HostHistory
  growing : List HostHistory
  owed : Option Entry
  donorIds : Nat
deriving DecidableEq

inductive HostFit
  | fits
  | limit
  | memory
deriving DecidableEq

/-- The model's part: its blocks, whether it keeps a state, the rows it computes alike, the slabs a
copy takes, whether they would be had now; and the tier's cap. -/
structure Tier where
  blockTokens : Nat
  keepsState : Bool
  rowClass : Nat → Nat
  hostBytes : Nat → Bool → Nat
  hostCopyFits : Nat → Nat → List Nat → HostFit
  hostCap : Nat

def ImageTail.bytes (t : ImageTail) : Nat :=
  t.encoded * 4

def tailBytes (tails : List ImageTail) : Nat :=
  (tails.map ImageTail.bytes).sum

/-- A subtraction of 64-bit sizes. -/
def wrapSub (a b : Nat) : Nat :=
  if b ≤ a then a - b else a + 2 ^ 64 - b

def differ (rowClass : Nat → Nat) (x y : RowClass) : Bool :=
  x.image ≠ y.image || (x.extent ≠ y.extent && rowClass x.extent ≠ rowClass y.extent)

/-- The rows of stretch `x` against the other record's; `rest` goes on past `x`. -/
def alikeFrom (rowClass : Nat → Nat) (n : Nat) (x : RowClass) (rest : List RowClass → Nat → Nat) :
    List RowClass → Nat → Nat
  | [], row => row
  | y :: b, row =>
    if n ≤ row then row
    else if differ rowClass x y then row
    else if x.stop ≤ min (min x.stop y.stop) n then
      rest (if y.stop ≤ min (min x.stop y.stop) n then b else y :: b) (min (min x.stop y.stop) n)
    else if y.stop ≤ min (min x.stop y.stop) n then
      alikeFrom rowClass n x rest b (min (min x.stop y.stop) n)
    else min (min x.stop y.stop) n

def alikeRows (rowClass : Nat → Nat) (n : Nat) : List RowClass → List RowClass → Nat → Nat
  | [], _, row => row
  | x :: a, b, row => alikeFrom rowClass n x (alikeRows rowClass n a) b row

/-- How many of the first `n` positions two records computed alike. -/
def Tier.alike (m : Tier) (a b : List RowClass) (n : Nat) : Nat :=
  min (alikeRows m.rowClass n a b 0) n

def commonPrefix : List UInt32 → List UInt32 → Nat
  | x :: a, y :: b => if x = y then commonPrefix a b + 1 else 0
  | _, _ => 0

/-- A holder the reuse question looks at. -/
structure ReuseHolder where
  donor : Bool
  tokens : List UInt32
  onHand : Nat
  classes : List RowClass
  passed : Bool

def Tier.share (m : Tier) (tokens : List UInt32) (size : Nat) (classes : List RowClass)
    (h : ReuseHolder) : Nat :=
  m.alike classes h.classes
      (min (commonPrefix tokens h.tokens) (min size (min h.tokens.length h.onHand))) /
    m.blockTokens * m.blockTokens

/-- The most tokens a holder shares, a donor taking what another gives as much of. -/
def Tier.reuseAnswer (m : Tier) (tokens : List UInt32) (size : Nat) (classes : List RowClass)
    (holders : List ReuseHolder) : Nat :=
  holders.foldl (fun best h =>
    if h.passed then best
    else if h.donor then
      if m.share tokens size classes h ≠ 0 ∧ best ≤ m.share tokens size classes h then
        m.share tokens size classes h else best
    else if best < m.share tokens size classes h then m.share tokens size classes h else best) 0

namespace Cache

def reuseHolders (c : Cache) (skip : Nat) : List ReuseHolder :=
  c.donors.map (fun x => ⟨true, x.tokens, x.length, x.classes,
    (skip ≠ 0 && x.id == skip) || (x.landing && x.promotedFor ≠ 0)⟩) ++
  c.host.map (fun x => ⟨false, x.tokens, x.history.length, x.classes,
    skip ≠ 0 && x.id == skip⟩)

/-- The most rows below `n`, in whole blocks, that a holder has but `other`. -/
def heldBelow (c : Cache) (m : Tier) (tokens : List UInt32) (classes : List RowClass)
    (n other : Nat) : Nat :=
  m.reuseAnswer tokens (min (n / m.blockTokens * m.blockTokens) tokens.length) classes
    (c.reuseHolders other)

end Cache

/-- A holder's place in the ranking: its class, then its last use. -/
structure Rank where
  cls : Nat
  used : Int
deriving DecidableEq

def Rank.less (a b : Rank) : Bool :=
  if a.cls ≠ b.cls then a.cls < b.cls else a.used < b.used

/-- Whether boundary `b` has its rows in a holder. -/
def Tier.holds (m : Tier) (b : Boundary) (tokens : List UInt32) (classes : List RowClass)
    (held : Nat) : Bool :=
  b.state.length ≤ held && b.state.length ≤ tokens.length && b.state.length ≤ b.tokens.length &&
    b.state.length ≤ commonPrefix b.tokens tokens &&
    m.alike b.classes classes b.state.length == b.state.length

namespace Cache

def rankHost (c : Cache) (m : Tier) (h : HostDonor) : Rank :=
  ⟨if h.superseded || h.disk ≠ 0 || (h.history.length ≠ 0 &&
      h.history.length ≤ c.heldBelow m h.tokens h.classes h.history.length h.id) then 0
    else if h.back then 2 else 1, h.used⟩

def rankBound (c : Cache) (m : Tier) (b : Boundary) : Rank :=
  ⟨if b.superseded || b.disk ≠ 0 || !(c.donors.any (fun d => m.holds b d.tokens d.classes d.length) ||
      c.host.any fun h => m.holds b h.tokens h.classes h.history.length) || b.tail then 0
    else if b.back then 2 else 1, b.used⟩

def writingFrom (c : Cache) (e : Entry) : Bool :=
  c.disk.any fun w => w.key ≠ 0 && w.source ≠ 0 && w.source == e.id && w.bound == e.bound

/-- Whether the entry's write is in flight or owed, and not stopped. -/
def writtenSoon (c : Cache) (e : Entry) : Bool :=
  c.disk.any fun w => (c.writingFrom e || c.owed == some e) && !w.cancelled

def readSource (c : Cache) (id : Nat) : Bool :=
  id == c.readingFor || c.diskReads.any fun rd => rd.source == id

end Cache

/-- An entry under its write in flight and its rank. -/
structure Keyed where
  soon : Bool
  rank : Rank
  entry : Entry
deriving DecidableEq

def Keyed.less (a b : Keyed) : Bool :=
  if a.soon ≠ b.soon then !a.soon else a.rank.less b.rank

namespace Cache

/-- The entries room may release, boundaries and then copies, none that is pinned. -/
def keyed (c : Cache) (m : Tier) : List Keyed :=
  (c.bounds.filter fun b => b.id ≠ c.pinnedBound).map
    (fun b => ⟨c.writtenSoon ⟨true, b.id⟩, c.rankBound m b, ⟨true, b.id⟩⟩) ++
  (c.host.filter fun h => h.id ≠ c.promoting && !c.readSource h.id).map
    fun h => ⟨c.writtenSoon ⟨false, h.id⟩, c.rankHost m h, ⟨false, h.id⟩⟩

def hostVictims (c : Cache) (m : Tier) (above : Rank) : List Entry :=
  (((c.keyed m).filter fun k => k.rank.less above).insertionSort
    fun a b => ¬ b.less a).map Keyed.entry

/-- Whether an entry was passed over for its rank. -/
def outranked (c : Cache) (m : Tier) (above : Rank) : Bool :=
  (c.keyed m).any fun k => !k.rank.less above

def parks (c : Cache) (e : Entry) : Bool :=
  c.writingFrom e

def cancelWrite (w : DiskWriter) : DiskWriter :=
  if w.copying.isSome then { w with copying := some true }
  else if w.key = 0 ∨ w.cancelled then w
  else { w with cancelled := true }

/-- An entry's slabs back to the model, or parked while the write that reads them stops. -/
def releaseEntry (c : Cache) (e : Entry) (h : HostHistory) : Cache :=
  if c.parks e then
    { c with disk := c.disk.map cancelWrite, diskParked := c.diskParked ++ [h] }
  else c

def dropBound (c : Cache) (i : Nat) : Cache :=
  match c.bounds[i]? with
  | none => c
  | some b =>
    { ({ c with hostHeld := wrapSub c.hostHeld b.state.held }.releaseEntry ⟨true, b.id⟩ b.state) with
      bounds := c.bounds.eraseIdx i }

def dropHost (c : Cache) (i : Nat) : Cache :=
  match c.host[i]? with
  | none => c
  | some h =>
    { ({ c with
        hostHeld := wrapSub c.hostHeld (h.history.held + tailBytes h.tails)
        hostTails := wrapSub c.hostTails (tailBytes h.tails) }.releaseEntry
          ⟨false, h.id⟩ h.history) with
      host := c.host.eraseIdx i }

/-- The first entry of that id dropped. -/
def drop (c : Cache) (e : Entry) : Cache :=
  if e.bound then
    match c.bounds.findIdx? fun b => b.id == e.id with
    | some i => c.dropBound i
    | none => c
  else
    match c.host.findIdx? fun h => h.id == e.id with
    | some i => c.dropHost i
    | none => c

def dropAll (c : Cache) (es : List Entry) : Cache :=
  es.foldl drop c

/-- Room for `bytes` more below rank `above`, ranked again after each entry dropped; what was
dropped. -/
def hostRoomForGo (m : Tier) (bytes : Nat) (above : Rank) : Nat → Cache → Cache × List Entry
  | 0, c => (c, [])
  | fuel + 1, c =>
    if c.hostHeld + bytes ≤ m.hostCap then (c, [])
    else match c.hostVictims m above with
      | [] => (c, [])
      | e :: _ =>
        ((hostRoomForGo m bytes above fuel (c.drop e)).1,
          e :: (hostRoomForGo m bytes above fuel (c.drop e)).2)

def entries (c : Cache) : Nat :=
  c.bounds.length + c.host.length

def hostRoomFor (c : Cache) (m : Tier) (bytes : Nat) (above : Rank) : Cache × List Entry :=
  hostRoomForGo m bytes above (c.entries + 1) c

end Cache

end HostCache

end Llmx
