import Llmx.DiskIndex
import Llmx.HostTier
import Llmx.UpperBound

namespace Llmx

namespace StreamedRead

open HostCache (wrapSub)

/-- A device's block storage: each layer holds a K, a V and an auxiliary block for the tokens of a
block. -/
structure BlockKVStorage where
  blockTokens : Nat
  kBlockBytes : Nat
  vBlockBytes : Nat
  auxiliaryBlockBytes : List Nat
  pos : 0 < blockTokens

structure Device where
  storage : Option BlockKVStorage
  stateBytes : Nat

def BlockKVStorage.totalBlockBytes (st : BlockKVStorage) : Nat :=
  st.auxiliaryBlockBytes.length * (st.kBlockBytes + st.vBlockBytes) + st.auxiliaryBlockBytes.sum

/-- The block bytes of each layer's sides in turn. -/
def BlockKVStorage.sides (st : BlockKVStorage) : List Nat :=
  st.auxiliaryBlockBytes.flatMap fun auxiliary => [st.kBlockBytes, st.vBlockBytes, auxiliary]

def Device.blockBytes (d : Device) (length : Nat) : Nat :=
  (d.storage.map fun st => length / st.blockTokens * st.totalBlockBytes).getD 0

structure HostHistory where
  length : Nat
  first : Nat
  blocks : Bool
  state : Bool
  deviceBytes : List Nat

structure HostRange where
  device : Nat
  offset : Nat
  bytes : Nat

def hostCopyBytes (devices : List Device) (length : Nat) : List Nat :=
  devices.map fun d => d.blockBytes length + d.stateBytes

def hostLayout (devices : List Device) (length : Nat) : HostHistory where
  length := length
  first := 0
  blocks := true
  state := true
  deviceBytes := hostCopyBytes devices length

def sideRanges (i held skip n : Nat) : List Nat → Nat → List HostRange
  | [], _ => []
  | block :: sides, place =>
    if block = 0 then sideRanges i held skip n sides place
    else ⟨i, place + skip * block, n * block⟩ ::
      sideRanges i held skip n sides (place + held * block)

def deviceRanges (h : HostHistory) (first length i : Nat) (d : Device) : Option (List HostRange) :=
  match d.storage with
  | none => some []
  | some st =>
    if first % st.blockTokens ≠ 0 ∨ length % st.blockTokens ≠ 0 then none
    else some (sideRanges i ((h.length - h.first) / st.blockTokens)
      ((first - h.first) / st.blockTokens) ((length - first) / st.blockTokens) st.sides 0)

/-- Where the tokens from `first` to `length` lie in a history, device by device. -/
def hostRanges (devices : List Device) (h : HostHistory) (first length : Nat) :
    Option (List HostRange) :=
  if h.blocks = false ∨ first < h.first ∨ length ≤ first ∨ h.length < length then none
  else (devices.zipIdx.mapM fun d => deviceRanges h first length d.2 d.1).map List.flatten

def hostStateRanges (devices : List Device) (h : HostHistory) : Option (List HostRange) :=
  if h.state = false then none
  else some (devices.zipIdx.flatMap fun d =>
    let blocks := if h.blocks then d.1.blockBytes (h.length - h.first) else 0
    if blocks < h.deviceBytes.getD d.2 0 then [⟨d.2, blocks, h.deviceBytes.getD d.2 0 - blocks⟩]
    else [])

structure Segment where
  device : Nat
  image : Nat
  bytes : Nat
  skip : Bool

structure File where
  key : Nat
  layout : List Nat
  segments : List Segment
  payload : Nat

/-- Each range, with what the path does not use of it after it. -/
def segments : List HostRange → List HostRange → List Segment
  | [], _ => []
  | r :: ranges, [] => ⟨r.device, r.offset, r.bytes, false⟩ :: segments ranges []
  | r :: ranges, s :: skip =>
    ⟨r.device, r.offset, r.bytes, false⟩ :: ⟨s.device, 0, s.bytes, true⟩ :: segments ranges skip

def file (key : Nat) (image : HostHistory) (ranges skip : List HostRange) : File :=
  let ss := segments ranges skip
  { key := key
    layout := (List.range image.deviceBytes.length).map fun d =>
      ((ss.filter fun s => s.device = d).map Segment.bytes).sum
    segments := ss
    payload := (ss.map Segment.bytes).sum }

/-- What of a file longer than the path's use of it lies past that use. -/
def pieceRest (devices : List Device) (piece : Piece) : Option (List HostRange) :=
  if piece.use < piece.endTok then
    hostRanges devices (hostLayout devices piece.endTok) piece.use piece.endTok
  else some []

def pieceFile (devices : List Device) (image : HostHistory) (piece : Piece) : Option File := do
  let rest ← pieceRest devices piece
  let ranges ← hostRanges devices image piece.first piece.use
  some (file piece.key image ranges rest)

def stream (devices : List Device) (p : DiskPath) : Option (List File) := do
  let image := hostLayout devices p.length
  let files ← p.pieces.mapM (pieceFile devices image)
  match p.state with
  | none => some files
  | some key => do
    let ranges ← hostStateRanges devices image
    some (files ++ [file key image ranges []])

/-- Bytes of a device's image: `bytes` at `offset` of host memory or of the buffer they go to. -/
structure Run where
  target : Nat
  host : Option Nat
  offset : Nat
  bytes : Nat

inductive How
  | memcpy (host : Nat)
  | copy (target : Nat)
  | write (target : Nat)
deriving DecidableEq

/-- One copy: to run `run` of the device, `off` bytes in, from the slot's bytes. -/
structure Move where
  device : Nat
  run : Nat
  off : Nat
  place : Nat
  how : How
  slot : Nat
  inSlot : Nat
  src : Nat
  bytes : Nat
deriving DecidableEq

/-- Where a restore goes: each device's runs, and whether it reads host pages in place. -/
structure RestoreInto where
  runs : List (List Run)
  inPlace : Nat → Bool

def startsFrom : Nat → List Run → List Nat
  | _, [] => []
  | place, r :: runs => place :: startsFrom (place + r.bytes) runs

/-- The run after which `upper_bound` stands; none before the first. -/
def firstRun (starts : List Nat) (image : Nat) : Option Nat :=
  match upperBound (fun k => decide (image < starts.getD k 0)) 0 starts.length with
  | 0 => none
  | r + 1 => some r

def onDevice (into : RestoreInto) (d : Nat) (r : Run) : How :=
  if into.inPlace d then .copy r.target else .write r.target

def how (into : RestoreInto) (d : Nat) (r : Run) : How :=
  match r.host with
  | some host => .memcpy host
  | none => onDevice into d r

/-- The loop of a put over the runs from the `r`-th on, each with its start. -/
def putRuns (into : RestoreInto) (d slot : Nat) :
    List (Run × Nat) → Nat → Nat → Nat → Nat → Nat → Option (List Move)
  | [], _, _, _, _, n => if n = 0 then some [] else none
  | (run, start) :: runs, r, image, src, inSlot, n =>
    if n = 0 then some []
    else
      let off := wrapSub image start
      let k := min n (wrapSub run.bytes off)
      (putRuns into d slot runs (r + 1) (image + k) (src + k) (inSlot + k) (n - k)).map
        (⟨d, r, off, run.offset + off, how into d run, slot, inSlot, src, k⟩ :: ·)

def put (into : RestoreInto) (d image src slot inSlot n : Nat) : Option (List Move) := do
  let runs ← into.runs[d]?
  let starts := startsFrom 0 runs
  let r ← firstRun starts image
  putRuns into d slot ((runs.zip starts).drop r) r image src inSlot n

/-- A segment's bytes between `start` and `stop` of the payload, the segment's first at `place`. -/
def sendSegment (into : RestoreInto) (start stop slot : Nat) (s : Segment) (place : Nat) :
    Option (List Move) :=
  let lo := max place start
  let hi := min (place + s.bytes) stop
  if s.skip = false ∧ lo < hi then
    put into s.device (s.image + (lo - place)) (lo - start) slot (lo - start) (hi - lo)
  else some []

def sendSegments (into : RestoreInto) (start stop slot : Nat) :
    List Segment → Nat → Option (List Move)
  | [], _ => some []
  | s :: ss, place => do
    let moves ← sendSegment into start stop slot s place
    let rest ← sendSegments into start stop slot ss (place + s.bytes)
    some (moves ++ rest)

structure Chunk where
  file : Nat
  index : Nat
deriving DecidableEq

/-- The chunks of a payload from the `c`-th on. -/
def chunksFrom (chunk : Nat) (hchunk : 0 < chunk) (payload c : Nat) : List Nat :=
  if c * chunk < payload then c :: chunksFrom chunk hchunk payload (c + 1) else []
termination_by payload - c * chunk
decreasing_by
  rw [Nat.succ_mul]
  omega

def chunksOf (chunk : Nat) (hchunk : 0 < chunk) (files : List File) : List Chunk :=
  files.zipIdx.flatMap fun f => (chunksFrom chunk hchunk f.1.payload 0).map fun c => ⟨f.2, c⟩

/-- How much of a chunk its file holds. -/
def readChunk (chunk : Nat) (f : File) (c : Nat) : Nat := min chunk (f.payload - c * chunk)

def send (into : RestoreInto) (chunk : Nat) (files : List File) (c : Chunk) (slot : Nat) :
    Option (List Move) := do
  let f ← files[c.file]?
  let start := c.index * chunk
  sendSegments into start (start + readChunk chunk f c.index) slot f.segments 0

/-- Every chunk sent in order, the `k`-th from slot `slots k`. -/
def sendAll (into : RestoreInto) (chunk : Nat) (hchunk : 0 < chunk) (files : List File)
    (slots : Nat → Nat) : Option (List (List Move)) :=
  (chunksOf chunk hchunk files).zipIdx.mapM fun c => send into chunk files c.1 (slots c.2)

structure Put where
  run : Nat
  off : Nat
  inSlot : Nat
  bytes : Nat
  src : Nat

/-- A chunk sent with its devices' copies deferred: what is copied to host memory at once, and each
device's list. -/
structure Deferred where
  host : List Move
  puts : List (List Put)

def deferRuns (d slot : Nat) :
    List (Run × Nat) → Nat → Nat → Nat → Nat → Nat → Deferred → Option Deferred
  | [], _, _, _, _, n, st => if n = 0 then some st else none
  | (run, start) :: runs, r, image, src, inSlot, n, st =>
    if n = 0 then some st
    else
      let off := wrapSub image start
      let k := min n (wrapSub run.bytes off)
      deferRuns d slot runs (r + 1) (image + k) (src + k) (inSlot + k) (n - k)
        (match run.host with
        | some host => { st with
            host := st.host ++ [⟨d, r, off, run.offset + off, .memcpy host, slot, inSlot, src, k⟩] }
        | none => { st with puts := st.puts.modify d (· ++ [⟨r, off, inSlot, k, src⟩]) })

def deferPut (into : RestoreInto) (d image src slot inSlot n : Nat) (st : Deferred) :
    Option Deferred := do
  let runs ← into.runs[d]?
  let starts := startsFrom 0 runs
  let r ← firstRun starts image
  deferRuns d slot ((runs.zip starts).drop r) r image src inSlot n st

def deferSegment (into : RestoreInto) (start stop slot : Nat) (s : Segment) (place : Nat)
    (st : Deferred) : Option Deferred :=
  let lo := max place start
  let hi := min (place + s.bytes) stop
  if s.skip = false ∧ lo < hi then
    deferPut into s.device (s.image + (lo - place)) (lo - start) slot (lo - start) (hi - lo) st
  else some st

def deferSegments (into : RestoreInto) (start stop slot : Nat) :
    List Segment → Nat → Deferred → Option Deferred
  | [], _, st => some st
  | s :: ss, place, st => do
    let st ← deferSegment into start stop slot s place st
    deferSegments into start stop slot ss (place + s.bytes) st

/-- A device's item: its list's copies, on its stage's thread. -/
def runItem (into : RestoreInto) (d slot : Nat) (puts : List Put) : Option (List Move) :=
  puts.mapM fun u => do
    let runs ← into.runs[d]?
    let run ← runs[u.run]?
    some ⟨d, u.run, u.off, run.offset + u.off, onDevice into d run, slot, u.inSlot, u.src, u.bytes⟩

/-- What a chunk's deferred send does: the copies to host memory, then each device's item. -/
structure Parts where
  host : List Move
  items : List (Nat × List Move)

def sendDeferred (into : RestoreInto) (chunk : Nat) (files : List File) (c : Chunk) (slot : Nat) :
    Option Parts := do
  let f ← files[c.file]?
  let start := c.index * chunk
  let st ← deferSegments into start (start + readChunk chunk f c.index) slot f.segments 0
    ⟨[], into.runs.map fun _ => []⟩
  let items ← (st.puts.zipIdx.filter fun l => !l.1.isEmpty).mapM fun l =>
    (runItem into l.2 slot l.1).map fun moves => (l.2, moves)
  some ⟨st.host, items⟩

def sendAllDeferred (into : RestoreInto) (chunk : Nat) (hchunk : 0 < chunk) (files : List File)
    (slots : Nat → Nat) : Option (List Parts) :=
  (chunksOf chunk hchunk files).zipIdx.mapM fun c => sendDeferred into chunk files c.1 (slots c.2)

/-- Where a byte of a copy belongs: its file and place there, and the run and offset it goes to. -/
structure Spot where
  file : Nat
  payload : Nat
  device : Nat
  run : Nat
  off : Nat
deriving DecidableEq

def Move.source (m : Move) : Nat :=
  match m.how with
  | .memcpy _ => m.src
  | .copy _ => m.inSlot
  | .write _ => m.src

/-- The bytes a copy moves, of a file's chunk that begins at `start`. -/
def Move.spots (f start : Nat) (m : Move) : List Spot :=
  (List.range m.bytes).map fun t => ⟨f, start + (m.source + t), m.device, m.run, m.off + t⟩

/-- The run that holds an image's byte `p`, counted from `r`, and the byte's place in it. -/
def holder : List Run → Nat → Nat → Nat × Nat
  | [], r, p => (r, p)
  | run :: runs, r, p => if p < run.bytes then (r, p) else holder runs (r + 1) (p - run.bytes)

def total (runs : List Run) : Nat := (runs.map Run.bytes).sum

/-- Where each byte of a file's payload belongs: a device and a place in its image, or nowhere. -/
def Segment.belongs (s : Segment) : List (Option (Nat × Nat)) :=
  if s.skip then List.replicate s.bytes none
  else (List.range' s.image s.bytes).map fun p => some (s.device, p)

def wantedAt (runs : List (List Run)) (f : Nat) (belongs : List (Option (Nat × Nat))) (q : Nat) :
    Option Spot :=
  belongs[q]?.join.bind fun dp => runs[dp.1]?.map fun rs =>
    ⟨f, q, dp.1, (holder rs 0 dp.2).1, (holder rs 0 dp.2).2⟩

def stretch (lo hi : Nat) : List Nat := List.range' lo (hi - lo)

section Runs

variable {into : RestoreInto} {d slot : Nat} {runs : List Run}

theorem wrapSub_of_le {a b : Nat} (h : b ≤ a) : wrapSub a b = a - b := if_pos h

@[simp] theorem total_nil : total [] = 0 := Eq.refl _

@[simp] theorem total_cons (run : Run) (runs : List Run) :
    total (run :: runs) = run.bytes + total runs := List.sum_cons

theorem total_take_add_drop (runs : List Run) (r : Nat) :
    total (runs.take r) + total (runs.drop r) = total runs := by
  unfold total
  rw [← List.sum_append, ← List.map_append, List.take_append_drop]

theorem total_take_mono (runs : List Run) {j k : Nat} (h : j ≤ k) :
    total (runs.take j) ≤ total (runs.take k) := by
  have hsplit := total_take_add_drop (runs.take k) j
  rw [List.take_take, Nat.min_eq_left h] at hsplit
  omega

theorem startsFrom_length (place : Nat) (runs : List Run) :
    (startsFrom place runs).length = runs.length := by
  induction runs generalizing place with
  | nil => exact Eq.refl _
  | cons run runs ih => exact congrArg Nat.succ (ih _)

theorem startsFrom_drop (place : Nat) (runs : List Run) (r : Nat) :
    (startsFrom place runs).drop r = startsFrom (place + total (runs.take r)) (runs.drop r) := by
  induction r generalizing place runs with
  | zero => exact Eq.refl _
  | succ r ih =>
    cases runs with
    | nil => exact Eq.refl _
    | cons run runs =>
      rw [startsFrom, List.drop_succ_cons, ih, List.take_succ_cons, total_cons, Nat.add_assoc]
      exact Eq.refl _

theorem startsFrom_getD {r : Nat} (hr : r < runs.length) :
    (startsFrom 0 runs).getD r 0 = total (runs.take r) := by
  have hdrop := startsFrom_drop 0 runs r
  rw [List.drop_eq_getElem_cons hr, startsFrom, Nat.zero_add] at hdrop
  have hlt : r < (startsFrom 0 runs).length := by
    rw [startsFrom_length]
    exact hr
  rw [List.drop_eq_getElem_cons hlt] at hdrop
  rw [List.getD_eq_getElem?_getD, List.getElem?_eq_getElem hlt, Option.getD_some]
  exact (List.cons.inj hdrop).1

/-- The search finds the run that holds the byte. -/
theorem firstRun_spec {image : Nat} (himage : image < total runs) :
    ∃ r < runs.length, firstRun (startsFrom 0 runs) image = some r ∧
      total (runs.take r) ≤ image ∧ image < total (runs.take (r + 1)) := by
  have hne : 0 < runs.length := by
    cases runs with
    | nil => exact absurd himage (Nat.not_lt_zero _)
    | cons run runs => exact Nat.zero_lt_succ _
  have hmono : ∀ j k, j ≤ k → k < 0 + (startsFrom 0 runs).length →
      decide (image < (startsFrom 0 runs).getD j 0) = true →
        decide (image < (startsFrom 0 runs).getD k 0) = true := by
    intro j k hjk hk hj
    rw [startsFrom_length] at hk
    have hle := total_take_mono runs hjk
    rw [startsFrom_getD (by omega)] at hj ⊢
    have hj := of_decide_eq_true hj
    exact decide_eq_true (by omega)
  obtain ⟨-, hmost, hbelow, habove⟩ := upperBound_spec hmono
  unfold firstRun
  generalize hu : upperBound (fun k => decide (image < (startsFrom 0 runs).getD k 0)) 0
    (startsFrom 0 runs).length = u at hmost hbelow habove
  rw [startsFrom_length] at hmost
  cases u with
  | zero =>
    have hfirst := habove 0 (Nat.le_refl 0) (by rw [startsFrom_length]; omega)
    rw [startsFrom_getD hne] at hfirst
    exact absurd (of_decide_eq_true hfirst) (Nat.not_lt_zero _)
  | succ r =>
    refine ⟨r, by omega, Eq.refl _, ?_, ?_⟩
    · have hlow := hbelow r (Nat.zero_le r) (Nat.lt_succ_self r)
      rw [startsFrom_getD (by omega)] at hlow
      exact Nat.le_of_not_lt (of_decide_eq_false hlow)
    · by_cases hlast : r + 1 < runs.length
      · have hhigh := habove (r + 1) (Nat.le_refl _) (by rw [startsFrom_length]; omega)
        rw [startsFrom_getD hlast] at hhigh
        exact of_decide_eq_true hhigh
      · rw [List.take_of_length_le (Nat.le_of_not_lt hlast)]
        exact himage

theorem putRuns_none (rs : List (Run × Nat)) (r image src inSlot : Nat) :
    putRuns into d slot rs r image src inSlot 0 = some [] := by
  cases rs with
  | nil => exact if_pos (Eq.refl 0)
  | cons run rs => exact if_pos (Eq.refl 0)

theorem how_source {d r off place slot src bytes : Nat} {run : Run} :
    (Move.mk d r off place (how into d run) slot src src bytes).source = src := by
  unfold Move.source how onDevice
  split
  next => exact Eq.refl _
  next => exact Eq.refl _
  next => exact Eq.refl _

/-- The loop over the runs copies each byte to the run that holds it. -/
theorem putRuns_spots (into : RestoreInto) (d slot : Nat) {rs : List Run} (r start off src n f c : Nat)
    (hoff : ∀ run ∈ rs.head?, off ≤ run.bytes) (hn : off + n ≤ total rs) :
    ∃ ms, putRuns into d slot (rs.zip (startsFrom start rs)) r (start + off) src src n = some ms ∧
      ms.flatMap (Move.spots f c) = (List.range n).map fun t =>
        ⟨f, c + (src + t), d, (holder rs r (off + t)).1, (holder rs r (off + t)).2⟩ := by
  induction rs generalizing r start off src n with
  | nil =>
    obtain rfl : n = 0 := by
      rw [total_nil] at hn
      omega
    exact ⟨[], putRuns_none _ _ _ _ _, Eq.refl _⟩
  | cons run rs ih =>
    by_cases hzero : n = 0
    · subst hzero
      exact ⟨[], putRuns_none _ _ _ _ _, Eq.refl _⟩
    have hhead : off ≤ run.bytes := hoff run (Eq.refl _)
    rw [total_cons] at hn
    obtain ⟨k, hk⟩ : ∃ k, k = min n (run.bytes - off) := ⟨_, Eq.refl _⟩
    have hrest : ∃ ms, putRuns into d slot (rs.zip (startsFrom (start + run.bytes) rs)) (r + 1)
        (start + off + k) (src + k) (src + k) (n - k) = some ms ∧
          ms.flatMap (Move.spots f c) = (List.range (n - k)).map fun t =>
            ⟨f, c + (src + k + t), d, (holder rs (r + 1) t).1, (holder rs (r + 1) t).2⟩ := by
      by_cases hdone : n - k = 0
      · rw [hdone]
        exact ⟨[], putRuns_none _ _ _ _ _, Eq.refl _⟩
      · obtain ⟨ms, hms, hspots⟩ := ih (r + 1) (start + run.bytes) 0 (src + k) (n - k)
          (fun _ _ => Nat.zero_le _) (by omega)
        refine ⟨ms, ?_, ?_⟩
        · rw [← hms, show start + off + k = start + run.bytes + 0 by omega]
        · rw [hspots]
          simp only [Nat.zero_add]
    obtain ⟨ms, hms, hspots⟩ := hrest
    refine ⟨⟨d, r, off, run.offset + off, how into d run, slot, src, src, k⟩ :: ms, ?_, ?_⟩
    · rw [startsFrom, List.zip_cons_cons, putRuns, if_neg hzero]
      dsimp only
      rw [wrapSub_of_le (Nat.le_add_right start off), Nat.add_sub_cancel_left,
        wrapSub_of_le hhead, ← hk, hms]
      exact Eq.refl _
    · rw [List.flatMap_cons, hspots, Move.spots, how_source]
      obtain ⟨j, hj⟩ : ∃ j, n = k + j := ⟨n - k, by omega⟩
      subst hj
      rw [Nat.add_sub_cancel_left, List.range_add, List.map_append, List.map_map]
      refine congrArg₂ (· ++ ·) (List.map_congr_left fun t ht => ?_)
        (List.map_congr_left fun t ht => ?_)
      · have hlt : off + t < run.bytes := by
          have ht : t < k := List.mem_range.mp ht
          omega
        rw [holder, if_pos hlt]
      · have hge : ¬ off + (k + t) < run.bytes := by
          have := List.mem_range.mp ht
          omega
        have hsub : off + (k + t) - run.bytes = t := by
          have := List.mem_range.mp ht
          omega
        show _ = Spot.mk _ _ _ _ _
        rw [holder, if_neg hge, hsub, Nat.add_assoc src k t]

theorem holder_drop (r₀ : Nat) {r p : Nat} (hr : r ≤ runs.length) (hp : total (runs.take r) ≤ p) :
    holder runs r₀ p = holder (runs.drop r) (r₀ + r) (p - total (runs.take r)) := by
  induction r generalizing runs r₀ p with
  | zero => exact Eq.refl _
  | succ r ih =>
    cases runs with
    | nil => exact absurd hr (Nat.not_succ_le_zero r)
    | cons run runs =>
      rw [List.take_succ_cons, total_cons] at hp
      rw [holder, if_neg (by omega), ih _ (Nat.le_of_succ_le_succ hr) (by omega),
        List.drop_succ_cons, List.take_succ_cons, total_cons, Nat.sub_sub, Nat.add_assoc,
        Nat.add_comm 1 r]

theorem put_spots (into : RestoreInto) (d slot image src n f c : Nat) {rs : List Run} (hrs : into.runs[d]? = some rs)
    (hpos : 0 < n) (hn : image + n ≤ total rs) :
    ∃ ms, put into d image src slot src n = some ms ∧
      ms.flatMap (Move.spots f c) = (List.range n).map fun t =>
        ⟨f, c + (src + t), d, (holder rs 0 (image + t)).1, (holder rs 0 (image + t)).2⟩ := by
  obtain ⟨r, hr, hfirst, hlow, hhigh⟩ := firstRun_spec (show image < total rs by omega)
  obtain ⟨off, rfl⟩ := Nat.exists_eq_add_of_le hlow
  have hsplit := total_take_add_drop rs r
  have hhead : ∀ run ∈ (rs.drop r).head?, off ≤ run.bytes := by
    intro run hrun
    have hstep : total (rs.take (r + 1)) = total (rs.take r) + rs[r].bytes := by
      rw [List.take_succ_eq_append_getElem hr]
      unfold total
      rw [List.map_append, List.sum_append, List.map_singleton, List.sum_singleton]
    rw [List.drop_eq_getElem_cons hr] at hrun
    obtain rfl := Option.some.inj hrun
    omega
  obtain ⟨ms, hms, hspots⟩ := putRuns_spots into d slot r (total (rs.take r)) off src n f c hhead
    (by omega)
  refine ⟨ms, ?_, ?_⟩
  · unfold put
    rw [hrs, Option.bind_eq_bind, Option.bind_some]
    dsimp only
    have hdrop : (rs.zip (startsFrom 0 rs)).drop r =
        (rs.drop r).zip (startsFrom (total (rs.take r)) (rs.drop r)) := by
      rw [← Nat.zero_add (total _), ← startsFrom_drop]
      exact List.drop_zipWith
    rw [hfirst, Option.bind_eq_bind, Option.bind_some, hdrop]
    exact hms
  · rw [hspots]
    refine List.map_congr_left fun t _ => ?_
    have hdrop := holder_drop 0 (Nat.le_of_lt hr)
      (show total (rs.take r) ≤ total (rs.take r) + off + t by omega)
    rw [Nat.zero_add, Nat.add_assoc, Nat.add_sub_cancel_left] at hdrop
    rw [Nat.add_assoc, hdrop]

end Runs

theorem stretch_length (lo hi : Nat) : (stretch lo hi).length = hi - lo := List.length_range'

theorem mem_stretch {lo hi q : Nat} : q ∈ stretch lo hi ↔ lo ≤ q ∧ q < hi := by
  unfold stretch
  rw [List.mem_range'_1]
  omega

theorem stretch_none {lo hi : Nat} (h : hi ≤ lo) : stretch lo hi = [] := by
  unfold stretch
  rw [Nat.sub_eq_zero_of_le h]
  exact Eq.refl _

theorem stretch_append {lo mid hi : Nat} (h₁ : lo ≤ mid) (h₂ : mid ≤ hi) :
    stretch lo mid ++ stretch mid hi = stretch lo hi := by
  obtain ⟨m, rfl⟩ := Nat.exists_eq_add_of_le h₁
  obtain ⟨n, rfl⟩ := Nat.exists_eq_add_of_le h₂
  unfold stretch
  rw [Nat.add_sub_cancel_left, Nat.add_sub_cancel_left, List.range'_append_1, Nat.add_assoc,
    Nat.add_sub_cancel_left]

/-- A window's part of two neighbours is its parts of each. -/
theorem stretch_window {lo mid hi : Nat} (start stop : Nat) (h₁ : lo ≤ mid) (h₂ : mid ≤ hi) :
    stretch (max lo start) (min mid stop) ++ stretch (max mid start) (min hi stop) =
      stretch (max lo start) (min hi stop) := by
  by_cases hbefore : mid ≤ start
  · rw [stretch_none (by omega), List.nil_append]
    congr 1
    omega
  · by_cases hafter : stop ≤ mid
    · rw [stretch_none (show min hi stop ≤ max mid start by omega), List.append_nil]
      congr 1
      omega
    · rw [show min mid stop = mid by omega, show max mid start = mid by omega]
      by_cases hcut : max lo start ≤ mid
      · exact stretch_append hcut (by omega)
      · omega

theorem stretch_eq_map (lo hi : Nat) :
    stretch lo hi = (List.range (hi - lo)).map (lo + ·) := List.range'_eq_map_range

section Segments

variable {into : RestoreInto} {belongs : List (Option (Nat × Nat))}

/-- A segment that is sent lies within its device's runs. -/
def Inside (into : RestoreInto) (s : Segment) : Prop :=
  s.skip = false → ∃ rs, into.runs[s.device]? = some rs ∧ s.image + s.bytes ≤ total rs

theorem Segment.belongs_length (s : Segment) : s.belongs.length = s.bytes := by
  unfold Segment.belongs
  split
  next => exact List.length_replicate
  next => rw [List.length_map, List.length_range']

def laidOut (ss : List Segment) : List (Option (Nat × Nat)) := ss.flatMap Segment.belongs

theorem laidOut_length (ss : List Segment) :
    (laidOut ss).length = (ss.map Segment.bytes).sum := by
  unfold laidOut
  rw [List.length_flatMap]
  refine congrArg List.sum (List.map_congr_left fun s _ => s.belongs_length)

/-- The part of a window a segment lies in is sent where it belongs. -/
theorem sendSegment_spots (slot f : Nat) {s : Segment} (hs : Inside into s)
    (place start stop : Nat) (hbelongs : ∀ t < s.bytes, belongs[place + t]? = s.belongs[t]?) :
    ∃ ms, sendSegment into start stop slot s place = some ms ∧
      ms.flatMap (Move.spots f start) =
        (stretch (max place start) (min (place + s.bytes) stop)).filterMap
          (wantedAt into.runs f belongs) := by
  unfold sendSegment
  dsimp only
  obtain ⟨lo, hlo⟩ : ∃ lo, lo = max place start := ⟨_, Eq.refl _⟩
  obtain ⟨hi, hhi⟩ : ∃ hi, hi = min (place + s.bytes) stop := ⟨_, Eq.refl _⟩
  rw [← hlo, ← hhi]
  by_cases hsent : s.skip = false ∧ lo < hi
  · obtain ⟨rs, hrs, hinside⟩ := hs hsent.1
    obtain ⟨ms, hms, hspots⟩ := put_spots into s.device slot (s.image + (lo - place)) (lo - start)
      (hi - lo) f start hrs (by omega) (by omega)
    refine ⟨ms, ?_, ?_⟩
    · rw [if_pos hsent]
      exact hms
    · rw [hspots, stretch_eq_map, List.filterMap_map, ← List.filterMap_eq_map]
      refine List.filterMap_congr fun t ht => ?_
      have ht := List.mem_range.mp ht
      have hin : lo - place + t < s.bytes := by omega
      have hat := hbelongs (lo - place + t) hin
      rw [show place + (lo - place + t) = lo + t by omega, Segment.belongs,
        if_neg (by rw [hsent.1]; exact Bool.false_ne_true), List.getElem?_map,
        List.getElem?_range' hin, Nat.one_mul] at hat
      show some _ = (wantedAt into.runs f belongs (lo + t))
      unfold wantedAt
      rw [hat]
      show some (Spot.mk f (start + (lo - start + t)) s.device
          (holder rs 0 (s.image + (lo - place) + t)).1 (holder rs 0 (s.image + (lo - place) + t)).2) =
        into.runs[s.device]?.map fun rs => ⟨f, lo + t, s.device,
          (holder rs 0 (s.image + (lo - place + t))).1, (holder rs 0 (s.image + (lo - place + t))).2⟩
      rw [hrs, Nat.add_assoc s.image, show start + (lo - start + t) = lo + t by omega]
      exact Eq.refl _
  · refine ⟨[], if_neg hsent, ?_⟩
    by_cases hempty : hi ≤ lo
    · rw [stretch_none hempty]
      exact Eq.refl _
    · have hskip : s.skip = true := eq_true_of_ne_false fun h => hsent ⟨h, by omega⟩
      symm
      apply List.filterMap_eq_nil_iff.mpr
      intro q hq
      obtain ⟨hq₁, hq₂⟩ := mem_stretch.mp hq
      have hin : q - place < s.bytes := by omega
      have hat := hbelongs (q - place) hin
      rw [show place + (q - place) = q by omega, Segment.belongs, if_pos hskip,
        List.getElem?_replicate, if_pos hin] at hat
      unfold wantedAt
      rw [hat]
      exact Eq.refl _

theorem sendSegments_spots (slot f : Nat) {ss : List Segment} (hss : ∀ s ∈ ss, Inside into s)
    (belongs : List (Option (Nat × Nat))) (place start stop : Nat)
    (hbelongs : ∀ t < (laidOut ss).length, belongs[place + t]? = (laidOut ss)[t]?) :
    ∃ ms, sendSegments into start stop slot ss place = some ms ∧
      ms.flatMap (Move.spots f start) =
        (stretch (max place start) (min (place + (laidOut ss).length) stop)).filterMap
          (wantedAt into.runs f belongs) := by
  induction ss generalizing place with
  | nil =>
    refine ⟨[], Eq.refl _, ?_⟩
    rw [stretch_none (by show min (place + 0) stop ≤ _; omega)]
    exact Eq.refl _
  | cons s ss ih =>
    have hlaid : laidOut (s :: ss) = s.belongs ++ laidOut ss := List.flatMap_cons
    have hlength := s.belongs_length
    rw [hlaid, List.length_append, hlength] at hbelongs ⊢
    obtain ⟨now, hnow, hnowSpots⟩ := sendSegment_spots slot f (hss s List.mem_cons_self) place
      start stop fun t ht => by
        rw [hbelongs t (by omega), List.getElem?_append_left (by omega)]
    obtain ⟨rest, hrest, hrestSpots⟩ := ih (fun s hs => hss s (List.mem_cons_of_mem _ hs))
      (place + s.bytes) fun t ht => by
        rw [Nat.add_assoc, hbelongs _ (by omega), List.getElem?_append_right (by omega), hlength,
          Nat.add_sub_cancel_left]
    refine ⟨now ++ rest, ?_, ?_⟩
    · rw [sendSegments, hnow, Option.bind_eq_bind, Option.bind_some, hrest]
      exact Eq.refl _
    · rw [List.flatMap_append, hnowSpots, hrestSpots, ← List.filterMap_append,
        stretch_window start stop (Nat.le_add_right _ _) (Nat.le_add_right _ _), Nat.add_assoc]

end Segments

section Chunks

variable {into : RestoreInto} {chunk : Nat}

/-- The bytes the copies of each chunk move. -/
def spots (chunk : Nat) (chunks : List Chunk) (sent : List (List Move)) : List Spot :=
  (chunks.zip sent).flatMap fun cm =>
    cm.2.flatMap (Move.spots cm.1.file (cm.1.index * chunk))

/-- A file whose segments lie within the runs. -/
structure File.Fits (into : RestoreInto) (f : File) : Prop where
  inside : ∀ s ∈ f.segments, Inside into s
  payload : f.payload = (laidOut f.segments).length

theorem send_spots {files : List File} {f : File} {c : Chunk} (hf : files[c.file]? = some f)
    (hfits : f.Fits into) (hc : c.index * chunk < f.payload) (slot : Nat) :
    ∃ ms, send into chunk files c slot = some ms ∧
      ms.flatMap (Move.spots c.file (c.index * chunk)) =
        (stretch (c.index * chunk) (min ((c.index + 1) * chunk) f.payload)).filterMap
          (wantedAt into.runs c.file (laidOut f.segments)) := by
  obtain ⟨ms, hms, hspots⟩ := sendSegments_spots slot c.file hfits.inside (laidOut f.segments) 0
    (c.index * chunk) (c.index * chunk + readChunk chunk f c.index)
    fun t _ => by rw [Nat.zero_add]
  refine ⟨ms, ?_, ?_⟩
  · unfold send
    rw [hf, Option.bind_eq_bind, Option.bind_some]
    exact hms
  · rw [hspots, ← hfits.payload, readChunk, Nat.succ_mul]
    congr 2
    omega

/-- The chunks from the `c`-th on take the payload from there to its end. -/
theorem chunksFrom_stretch (chunk : Nat) (hchunk : 0 < chunk) (payload c : Nat)
    (g : Nat → Option Spot) :
    (chunksFrom chunk hchunk payload c).flatMap (fun c =>
        (stretch (c * chunk) (min ((c + 1) * chunk) payload)).filterMap g) =
      (stretch (c * chunk) payload).filterMap g := by
  fun_induction chunksFrom chunk hchunk payload c with
  | case1 c hc ih =>
    rw [List.flatMap_cons, ih, ← List.filterMap_append]
    congr 1
    rw [Nat.succ_mul]
    by_cases hlast : payload ≤ c * chunk + chunk
    · rw [Nat.min_eq_right hlast, stretch_none hlast, List.append_nil]
    · rw [Nat.min_eq_left (by omega), stretch_append (by omega) (by omega)]
  | case2 c hc =>
    rw [stretch_none (Nat.le_of_not_lt hc)]
    exact Eq.refl _

theorem chunksFrom_lt (chunk : Nat) (hchunk : 0 < chunk) {payload : Nat} (c : Nat) :
    ∀ k ∈ chunksFrom chunk hchunk payload c, k * chunk < payload := by
  fun_induction chunksFrom chunk hchunk payload c with
  | case1 c hc ih =>
    intro k hk
    rcases List.mem_cons.mp hk with rfl | hk
    · exact hc
    · exact ih k hk
  | case2 c hc => exact fun k hk => absurd hk List.not_mem_nil

/-- What `f` gives each of a list that it gives something. -/
theorem mapM_zipIdx_some {α β γ : Type} (f : α → Nat → Option β) (g : α → β → List γ)
    (want : α → List γ) {l : List α} (n : Nat)
    (h : ∀ a ∈ l, ∀ k, ∃ b, f a k = some b ∧ g a b = want a) :
    ∃ bs, (l.zipIdx n).mapM (fun a => f a.1 a.2) = some bs ∧
      (l.zip bs).flatMap (fun ab => g ab.1 ab.2) = l.flatMap want := by
  induction l generalizing n with
  | nil => exact ⟨[], Eq.refl _, Eq.refl _⟩
  | cons a l ih =>
    obtain ⟨b, hb, hwant⟩ := h a List.mem_cons_self n
    obtain ⟨bs, hbs, hrest⟩ := ih (n + 1) fun a ha => h a (List.mem_cons_of_mem _ ha)
    refine ⟨b :: bs, ?_, ?_⟩
    · rw [List.zipIdx_cons, List.mapM_cons, hb, hbs]
      exact Eq.refl _
    · rw [List.zip_cons_cons, List.flatMap_cons, List.flatMap_cons, hrest, hwant]

/-- Sending every chunk in order moves each file's bytes to where they belong, in order. -/
theorem sendAll_spots (hchunk : 0 < chunk) {files : List File} (hfits : ∀ f ∈ files, f.Fits into)
    (slots : Nat → Nat) :
    ∃ sent, sendAll into chunk hchunk files slots = some sent ∧
      spots chunk (chunksOf chunk hchunk files) sent = files.zipIdx.flatMap fun f =>
        (stretch 0 f.1.payload).filterMap (wantedAt into.runs f.2 (laidOut f.1.segments)) := by
  have hfiles : ∀ f i, (f, i) ∈ files.zipIdx → files[i]? = some f := by
    intro f i hmem
    exact List.mk_mem_zipIdx_iff_getElem?.mp hmem
  have hchunks : ∀ c ∈ chunksOf chunk hchunk files, ∃ f, files[c.file]? = some f ∧
      c.index * chunk < f.payload := by
    intro c hc
    obtain ⟨⟨f, i⟩, hfi, hc⟩ := List.mem_flatMap.mp hc
    obtain ⟨k, hk, rfl⟩ := List.mem_map.mp hc
    exact ⟨f, hfiles f i hfi, chunksFrom_lt chunk hchunk 0 k hk⟩
  obtain ⟨sent, hsent, hspots⟩ := mapM_zipIdx_some
    (fun c k => send into chunk files c (slots k))
    (fun c ms => ms.flatMap (Move.spots c.file (c.index * chunk)))
    (fun c => (stretch (c.index * chunk) (min ((c.index + 1) * chunk)
      ((files[c.file]?.map File.payload).getD 0))).filterMap
        (wantedAt into.runs c.file (laidOut ((files[c.file]?.map File.segments).getD [])))) 0
    fun c hc k => by
      obtain ⟨f, hf, hlt⟩ := hchunks c hc
      rw [hf]
      exact send_spots hf (hfits f (List.mem_of_getElem? hf)) hlt (slots k)
  refine ⟨sent, hsent, ?_⟩
  unfold spots
  rw [hspots]
  unfold chunksOf
  rw [List.flatMap_assoc]
  refine List.flatMap_congr fun fi hfi => ?_
  obtain ⟨f, i⟩ := fi
  dsimp only
  rw [List.flatMap_map]
  dsimp only
  rw [hfiles f i hfi]
  have hall := chunksFrom_stretch chunk hchunk f.payload 0
    (wantedAt into.runs i (laidOut f.segments))
  rw [Nat.zero_mul] at hall
  exact hall

end Chunks

end StreamedRead

end Llmx
