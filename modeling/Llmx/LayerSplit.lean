import Llmx.Layered
import Mathlib.Data.List.Sort
import Mathlib.Data.Prod.Lex

namespace Llmx

/-- One matrix's storage type, row shape and bytes, and whether a product reads it. -/
structure Matrix where
  type : Nat
  nin : Nat
  rows : Nat
  bytes : Nat
  product : Bool
deriving DecidableEq, Inhabited, Repr

/-- The storage a pass needs of a lookup whose table stays in its source. -/
structure LookupMemory where
  rowsPerToken : Nat
  rowBytes : Nat
  ioBytes : Nat
deriving DecidableEq, Repr

/-- What a model asks of the memory of the devices it runs on, part by part. -/
structure Footprint where
  layers : List (List Matrix)
  lookups : List LookupMemory
  embedding : Matrix
  output : Matrix
  outputNorm : Matrix
  headAux : List Matrix
  tied : Bool
  cache : List Nat
  reads : List Int
  pooled : List Nat
  tables : Nat
  activationsPerRow : Nat
  logitsPerRow : Nat
  headSlicePerRow : Nat
  argmaxPerRow : Nat
  argmaxRows : Nat
  handoffPerRow : Nat
  drafter : List Matrix
  drafterEmbedding : Matrix
  drafterCache : Nat
  hostState : Nat
  contextRows : Nat
  hostScratchPerRow : Nat
deriving DecidableEq, Inhabited, Repr

/-- What a device offers a split: the bytes it reports free, or nothing when it cannot tell,
whether it reads weights in place, and what adopting a matrix keeps there, its bytes when empty. -/
structure DeviceBudget where
  name : String
  bytes : Option Nat
  host : Bool
  resident : Option (Matrix → Nat)
  hostSide : Nat
  scratch : Nat
  collectivePerRow : Nat
  argmax : Bool
deriving Inhabited

/-- What a split is asked besides the shares, and the size of a page of host memory. All sizes are
exact: that the source refuses sums of bytes from `2 ^ 64` on is left out. -/
structure SplitRequest where
  fp : Footprint
  devices : List DeviceBudget
  rows : Nat
  hostFree : Option Nat
  slots : Nat
  logitRows : Option Nat
  page : Nat
deriving Inhabited

inductive SplitError where
  | noDevices
  | noLayers
  | tooManyDevices
  | sharesCount (shares devices : Nat)
  | negativeShare
  | zeroShares
  | someCaches
  | someLookups
  | noPlacement (layers : Nat)
  | noStage
  | deviceFull (device held first last : Nat)
  | hostFull (need : Nat)
deriving DecidableEq, Repr

/-- The handoff buffers of each device the residual leaves. -/
def handoffBuffers (slots : Nat) (pipelined : Bool) : Nat := if pipelined then max 2 slots else 1

/-- What the host holds for a set of devices, and the one of them that carries it. -/
structure HostNeed where
  need : Nat
  carrier : Option Nat
deriving DecidableEq, Repr

namespace SplitRequest

variable (r : SplitRequest)

def depth : Nat := r.fp.layers.length

def device (d : Nat) : DeviceBudget := r.devices.getD d default

def logits : Nat := r.logitRows.getD r.rows

def pageBytes (bytes : Nat) : Nat :=
  if bytes = 0 then 0 else (bytes + (r.page - 1)) / r.page * r.page

def lookupDevice (m : LookupMemory) : Nat :=
  if m.rowsPerToken = 0 then 0 else r.rows * (m.rowsPerToken * m.rowBytes)

def hostCapacity (m : LookupMemory) (nrows : Nat) : Nat :=
  if nrows = 0 then 0
  else
    let count := nrows * m.rowsPerToken
    r.pageBytes (count * m.rowBytes) + count * (2 * 8 + 2 * 4)

def lookupHost (m : LookupMemory) : Nat :=
  if m.rowsPerToken = 0 then 0 else r.hostCapacity m r.rows + r.pageBytes m.ioBytes

/-- The cache of the layers before `i`. -/
def cached (i : Nat) : Nat := (r.fp.cache.take i).sum

/-- The sources before `i` that one of the `k` layers from `i` reads, pooled again there. -/
def replicas (i k : Nat) : Nat :=
  ((List.range (min i r.fp.pooled.length)).map fun s =>
    if (List.range' i k).any fun j => r.fp.reads[j]? == some (Int.ofNat s) then
      r.fp.pooled.getD s 0
    else 0).sum

def resident (d : Nat) (m : Matrix) : Nat :=
  if (r.device d).host then 0
  else match (r.device d).resident with
    | some keeps => keeps m
    | none => m.bytes

/-- The resident bytes on a device of the layers before `i`. -/
def weightsBelow (d i : Nat) : Nat :=
  ((r.fp.layers.take i).map fun layer => (layer.map (r.resident d)).sum).sum

def lookupBelow (i : Nat) : Nat := ((r.fp.lookups.take i).map r.lookupDevice).sum

/-- The embedding and head weights of a device, which runs the first layers, the last or neither. -/
def endWeights (d : Nat) (first last : Bool) : Nat :=
  let size := r.resident d
  let headAux := if last then (r.fp.headAux.map size).sum else 0
  let drafter :=
    if last then
      (r.fp.drafter.map size).sum +
        (if !first && !r.fp.tied then size r.fp.drafterEmbedding else 0)
    else 0
  if first && last && r.fp.tied then
    size r.fp.output + size r.fp.outputNorm + headAux + drafter
  else
    (if first then size r.fp.embedding else 0) +
      (if last then size r.fp.output + size r.fp.outputNorm + headAux else 0) + drafter

def hostFor (used : List Nat) : HostNeed where
  need :=
    r.logits * r.fp.logitsPerRow + r.fp.tables + r.fp.hostState +
      (if 1 < used.length then
        handoffBuffers r.slots true * (used.length - 1) * r.rows * r.fp.handoffPerRow
      else 0) +
      used.length * (r.rows * r.fp.hostScratchPerRow) + (r.fp.lookups.map r.lookupHost).sum +
      (used.map fun d => (r.device d).hostSide).sum
  carrier := used.find? fun d => (r.device d).host

/-- The host memory a set without a host device must fit. -/
def hostRoom : Option Nat :=
  match r.devices.find? fun b => b.host with
  | some b => b.bytes
  | none => r.hostFree

def hostFits (h : HostNeed) : Bool := h.carrier.isSome || r.hostRoom.all fun room => h.need ≤ room

def overhead (d : Nat) (h : HostNeed) : Nat :=
  (r.rows + r.fp.contextRows) * (r.fp.activationsPerRow + (r.device d).collectivePerRow) +
    (if (r.device d).host then 0 else r.fp.tables) + (r.device d).scratch +
    (if h.carrier = some d then h.need else 0)

/-- The head's slice of the logits rows and the rows of argmax passes. -/
def headRows (d : Nat) (last : Bool) : Nat :=
  if last then
    r.logits * r.fp.headSlicePerRow +
      (if (r.device d).argmax then min r.logits r.fp.argmaxRows * r.fp.argmaxPerRow else 0)
  else 0

/-- What device `d` holds running the `k` layers from `i`. -/
def need (d i k : Nat) (first last : Bool) (h : HostNeed) : Nat :=
  r.weightsBelow d (i + k) - r.weightsBelow d i + (r.lookupBelow (i + k) - r.lookupBelow i) +
    (r.cached (i + k) - r.cached i + r.replicas i k + (if last then r.fp.drafterCache else 0)) +
    (r.endWeights d first last + r.headRows d last + r.overhead d h)

def fits (d bytes : Nat) : Bool := (r.device d).bytes.all fun free => bytes ≤ free

end SplitRequest

/-- The request's part of the refusals. -/
def checkSplit (devices : Nat) (shares : List Int) : Except SplitError Unit :=
  if 16 < devices then .error .tooManyDevices
  else if shares.isEmpty then .ok ()
  else if shares.length ≠ devices then .error (.sharesCount shares.length devices)
  else if shares.any (· < 0) then .error .negativeShare
  else if shares.sum = 0 then .error .zeroShares
  else .ok ()

/-- The devices with what is left of their shares, the largest remainders first. -/
def shareOrder (layers : Nat) (shares : List Nat) : List (Nat × Nat) :=
  let fraction := shares.zipIdx.map fun (s, d) => (layers * s % shares.sum, d)
  fraction.insertionSort fun x y => y.1 ≤ x.1

/-- Each device's part of the layers by its share, the rest one by one to the largest remainders. -/
def shareCounts (layers : Nat) (shares : List Nat) : List Nat :=
  let count := shares.map fun s => layers * s / shares.sum
  ((shareOrder layers shares).take (layers - count.sum)).foldl
    (fun count x => count.modify x.2 (· + 1)) count

/-- A device of a set, and whether it runs the set's first or last layers. -/
structure Role where
  device : Nat
  first : Bool
  last : Bool
deriving DecidableEq, Repr

def roles (used : List Nat) : List Role :=
  used.zipIdx.map fun (d, j) => ⟨d, j == 0, j + 1 == used.length⟩

/-- Layers on devices that read in place, then the largest load, its layers before its bytes. -/
abbrev Score := Nat ×ₗ (Nat ×ₗ Nat)

namespace SplitRequest

variable (r : SplitRequest)

/-- The layers a device may take from `i`, up to the first count that does not fit. -/
def takes (h : HostNeed) (a : Role) (i : Nat) : List Nat :=
  if i < r.depth then
    (if a.last then [r.depth - i] else List.range' 1 (r.depth - i)).takeWhile fun k =>
      r.fits a.device (r.need a.device i k a.first a.last h)
  else []

/-- The score with the `k` layers from `i` on one more device. -/
def extend (h : HostNeed) (a : Role) (i k : Nat) (s : Score) : Score :=
  if (r.device a.device).host then toLex ((ofLex s).1 + k, (ofLex s).2)
  else toLex ((ofLex s).1, max (ofLex s).2
    (toLex (k, r.need a.device i k a.first a.last h)))

/-- The best score of a set of devices, and the layers of each of them. -/
def planOf (used : List Nat) : Option (Score × List Nat) :=
  let h := r.hostFor used
  if r.depth < used.length || !r.hostFits h then none
  else
    let done := (roles used).reverse
    let zero : Score := toLex (0, toLex (0, 0))
    match (Layered.rowAfter (r.takes h) (r.extend h) r.depth zero done)[r.depth]? with
    | some (some (s, _)) =>
      some (s, Layered.readBack (r.takes h) (r.extend h) r.depth zero done r.depth)
    | _ => none

def usedOf (mask : Nat) : List Nat := (List.range r.devices.length).filter mask.testBit

/-- The layers of every device, none where a set leaves it out. -/
def spread (used ks : List Nat) : List Nat :=
  (List.range r.devices.length).map fun d => ((used.zip ks).lookup d).getD 0

/-- The plan of every set of devices that has one, as the layers of every device. -/
def setPlans : List (Score × List Nat) :=
  (List.range' 1 (2 ^ r.devices.length - 1)).filterMap fun mask =>
    (r.planOf (r.usedOf mask)).map fun (s, ks) => (s, r.spread (r.usedOf mask) ks)

/-- The best plan over every set of devices. -/
def balanced : Option (Score × List Nat) := r.setPlans.foldl Layered.lower none

end SplitRequest

/-- Consecutive layers of a device. -/
structure Span where
  device : Nat
  first : Nat
  count : Nat
deriving DecidableEq, Repr

def spansFrom : Nat → Nat → List Nat → List Span
  | _, _, [] => []
  | d, i, c :: counts => ⟨d, i, c⟩ :: spansFrom (d + 1) (i + c) counts

def usedSpans (counts : List Nat) : List Span :=
  (spansFrom 0 0 counts).filter fun sp => sp.count ≠ 0

def usedDevices (counts : List Nat) : List Nat := (usedSpans counts).map Span.device

/-- The layers a device runs and what it was fitted to hold. -/
structure SplitStage where
  first : Nat
  count : Nat
  weights : Nat
  cache : Nat
  other : Nat
deriving DecidableEq, Repr

structure LayerSplit where
  stages : List SplitStage
  embedDevice : Nat
  outputDevice : Nat
  host : Nat
deriving DecidableEq, Repr

namespace SplitRequest

variable (r : SplitRequest)

/-- What a device that runs layers was fitted to hold. -/
def stageFor (h : HostNeed) (embed output : Nat) (sp : Span) : SplitStage :=
  let next := sp.first + sp.count
  let last := sp.device == output
  { first := sp.first
    count := sp.count
    weights := r.weightsBelow sp.device next - r.weightsBelow sp.device sp.first +
      r.endWeights sp.device (sp.device == embed) last
    cache := r.cached next - r.cached sp.first + r.replicas sp.first sp.count +
      (if last then r.fp.drafterCache else 0)
    other := r.overhead sp.device h + (r.lookupBelow next - r.lookupBelow sp.first) }

/-- A stage filled in and checked against its device. -/
def stage (h : HostNeed) (embed output : Nat) (sp : Span) : Except SplitError SplitStage :=
  if sp.count = 0 then .ok ⟨sp.first, 0, 0, 0, 0⟩
  else
    let st := r.stageFor h embed output sp
    let held := st.weights + st.cache + st.other
    if r.fits sp.device held then .ok st
    else .error (.deviceFull sp.device held sp.first (sp.first + sp.count - 1))

/-- The split that runs these layers on each device. -/
def fill (counts : List Nat) : Except SplitError LayerSplit :=
  match (usedDevices counts).head?, (usedDevices counts).getLast? with
  | some embed, some output =>
    let h := r.hostFor (usedDevices counts)
    match (spansFrom 0 0 counts).mapM (r.stage h embed output) with
    | .error e => .error e
    | .ok stages =>
      if r.hostFits h then .ok ⟨stages, embed, output, h.need⟩ else .error (.hostFull h.need)
  | _, _ => .error .noStage

def check (shares : List Int) : Except SplitError Unit :=
  if r.devices.isEmpty then .error .noDevices
  else if r.depth = 0 then .error .noLayers
  else match checkSplit r.devices.length shares with
    | .error e => .error e
    | .ok () =>
      if !r.fp.cache.isEmpty && r.fp.cache.length ≠ r.depth then .error .someCaches
      else if !r.fp.lookups.isEmpty && r.fp.lookups.length ≠ r.depth then .error .someLookups
      else .ok ()

/-- The layers of every device, by the shares where given, else by the search. -/
def layerCounts (shares : List Int) : Except SplitError (List Nat) :=
  if shares.isEmpty then
    match r.balanced with
    | some (_, counts) => .ok counts
    | none => .error (.noPlacement r.depth)
  else .ok (shareCounts r.depth (shares.map Int.toNat))

def splitLayers (shares : List Int) : Except SplitError LayerSplit :=
  match r.check shares with
  | .error e => .error e
  | .ok () =>
    match r.layerCounts shares with
    | .error e => .error e
    | .ok counts => r.fill counts

end SplitRequest

end Llmx
