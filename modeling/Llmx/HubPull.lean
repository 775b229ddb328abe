import Llmx.HubManifest
import Llmx.Runs

namespace Llmx

open Runs

namespace Hub

variable {δ : Type}

abbrev Path := List Bytes

inductive Node
  | file (bytes : Bytes)
  | directory
  | link
deriving DecidableEq, Repr

/-- What stands at each path under the cache's root. -/
abbrev Disk := Path → Option Node

def Disk.put (d : Disk) (p : Path) (n : Option Node) : Disk := Function.update d p n

/-- A directory removed with all it holds. -/
def Disk.removeAll (d : Disk) (p : Path) : Disk := fun q => if p <+: q then none else d q

structure ByteRange where
  offset : Nat
  length : Nat
  total : Nat
deriving DecidableEq, Repr

structure PullOptions where
  repo : Bytes
  quant : Bytes
  revision : Bytes
  filename : Bytes
  parallel : Nat
deriving DecidableEq, Repr

def maxParallelStreams : Nat := 16

def maxRetryAfterSeconds : Nat := 60

def maxMetadataBytes : Nat := 16 * 1024 * 1024

def minimumPart : Nat := 8 * 1024 * 1024

def bufferBytes : Nat := 1024 * 1024

/-- How a try of a request ends. -/
inductive Outcome
  | returned
  | transport (status code retryAfter : Nat)
  | other
deriving DecidableEq, Repr

def transient (status code : Nat) : Bool :=
  [408, 429, 500, 502, 503, 504].contains status ||
    status == 0 && [5, 6, 7].contains code || [18, 28, 52, 55, 56, 92].contains code

/-- A request: the tries that ended before this one, and how it ended itself. -/
structure Request where
  attempt : Nat
  ended : Option (Option PullError)
deriving DecidableEq, Repr

def Request.begun : Request := ⟨0, none⟩

/-- What a try's end makes of its request: done, raised, or tried again after a wait. -/
def Request.tried (r : Request) : Outcome → Request
  | .returned => { r with ended := some none }
  | .other => { r with ended := some (some .system) }
  | .transport status code retryAfter =>
    if r.attempt = 4 ∨ ¬ transient status code then
      { r with ended := some (some (.transport status code)) }
    else if maxRetryAfterSeconds < retryAfter then { r with ended := some (some .waitTooLong) }
    else { r with attempt := r.attempt + 1 }

/-- What a request is for. -/
inductive Asked
  | metadata
  | whole (file : Nat)
  | part (file stream : Nat)
deriving DecidableEq, Repr

/-- A try of a request as the transport gets it. -/
structure Fetch where
  asked : Asked
  url : Bytes
  limit : Nat
  range : Option ByteRange
deriving DecidableEq, Repr

def fileHasher (file : HubFile) : Option ShaStream :=
  if file.lfs then some (.new true) else (ShaStream.new false).update (text "blob " ++ decimal file.size ++ [0])

/-- The input read to its end, `bytes` of it, a buffer at a time. -/
def consume : Nat → Nat → Bytes → ShaStream → Bytes → Except PullError (ShaStream × Bytes)
  | 0, _, _, _, _ => .error .system
  | rounds + 1, bytes, input, hash, output =>
    if bytes = 0 then if input = [] then .ok (hash, output) else .error .extentChanged
    else if input.length < min bytes bufferBytes then .error .truncated
    else match hash.update (input.take (min bytes bufferBytes)) with
      | none => .error .shaTooLarge
      | some hash => consume rounds (bytes - min bytes bufferBytes)
          (input.drop (min bytes bufferBytes)) hash (output ++ input.take (min bytes bufferBytes))

def verified (d : Disk) (p : Path) (file : HubFile) : Except PullError Bool :=
  match d p with
  | some .link => .error .cacheLink
  | none => .ok false
  | some .directory => .error .cacheEntry
  | some (.file bytes) =>
    if bytes.length ≠ file.size then .ok false
    else match fileHasher file with
      | none => .error .shaTooLarge
      | some hash => (consume (file.size + 1) file.size bytes hash []).map fun done =>
        done.1.hex == file.digest

/-- One directory of a file's path, made where it is missing. -/
def makeDirectory (d : Disk) (p : Path) : Except PullError Disk :=
  match d p with
  | some .link => .error .directoryLink
  | none => .ok (d.put p (some .directory))
  | some .directory => .ok d
  | some (.file _) => .error .cacheDirectory

def streamCount (parallel size : Nat) : Nat := min parallel (max 1 (size / minimumPart))

/-- Stream `i` starts after `offset` bytes; `left` streams are to come from it on. -/
def rangesFrom (size streams : Nat) : Nat → Nat → Nat → List ByteRange
  | 0, _, _ => []
  | left + 1, i, offset =>
    let length := size / streams + if i < size % streams then 1 else 0
    ⟨offset, length, size⟩ :: rangesFrom size streams left (i + 1) (offset + length)

def ranges (size streams : Nat) : List ByteRange := rangesFrom size streams streams 0 0

def repoDirectory (repo : Bytes) : Bytes :=
  text "models--" ++ repo.takeWhile (· ≠ slash) ++ text "--" ++ (repo.dropWhile (· ≠ slash)).tail

def relativePath (o : PullOptions) (revision : Bytes) (file : HubFile) : Bytes :=
  repoDirectory o.repo ++ text "/snapshots/" ++ revision ++ [slash] ++ file.name

/-- Where a file of a manifest is kept. -/
def destination (o : PullOptions) (revision : Bytes) (file : HubFile) : Path :=
  components (relativePath o revision file)

def metadataUrl (o : PullOptions) : Bytes :=
  text "https://huggingface.co/api/models/" ++ o.repo ++ text "/revision/" ++
    urlEncode o.revision false ++ text "?blobs=true"

def fileUrl (o : PullOptions) (revision : Bytes) (file : HubFile) : Bytes :=
  text "https://huggingface.co/" ++ o.repo ++ text "/resolve/" ++ revision ++ [slash] ++
    urlEncode file.name true

/-- Where a file is in being acquired. -/
inductive Acquire
  | placing (made rest : Path)
  | checking
  | downloading
  | whole (r : Request)
  | parts (rs : List Request) (broken : Option PullError)
  | assembling (i : Nat) (hash : ShaStream)
  | publishing
  | ready
deriving DecidableEq, Repr

inductive Stage
  | checking
  | starting (attempt : Nat)
  | resolving (r : Request)
  | selecting
  | files (k : Nat) (phase : Acquire)
  | returned
  | raised (e : PullError)
deriving DecidableEq, Repr

/-- A pull under way: what it asked for and renamed, the latest last, stands beside it. -/
structure Pull where
  disk : Disk
  temporary : Option Path
  manifest : Option Manifest
  stage : Stage
  fetches : List Fetch
  renames : List (Path × Bytes)

inductive PullMove
  | go
  | fails
  | named (a b : Nat)
  | tried (stream : Nat) (left : Option Bytes) (outcome : Outcome)
deriving DecidableEq, Repr

namespace Pull

variable (conv : Json.Conversion δ) (whole : δ → Option Nat) (o : PullOptions)

/-- The pull raises; its temporary directory goes with it. -/
def raise (s : Pull) (e : PullError) : Pull :=
  { s with
    disk := (s.temporary.map s.disk.removeAll).getD s.disk
    stage := .raised e }

/-- Every file is in place; the temporary directory goes. -/
def finish (s : Pull) : Pull :=
  { s with
    disk := (s.temporary.map s.disk.removeAll).getD s.disk
    stage := .returned }

def inTemporary (s : Pull) (name : Bytes) : Path := s.temporary.getD [] ++ [name]

def assembled (s : Pull) : Path := s.inTemporary (text "verified.part")

def partPath (s : Pull) (i : Nat) : Path := s.inTemporary (decimal i ++ text ".part")

def metadataPath (s : Pull) : Path := s.inTemporary (text "metadata.json")

def validateOptions : Except PullError Unit := do
  validateRepo o.repo
  validateQuant o.quant
  validateFilename o.filename
  if o.revision = [] ∨ 256 < o.revision.length then .error .invalidRevision
  else if o.revision.any fun c => c < 32 || c == 127 then .error (.transport 0 0)
  else if o.parallel < 1 ∨ maxParallelStreams < o.parallel then .error .parallelStreams
  else .ok ()

/-- A request's first try, or a later one. -/
def fetching (s : Pull) (f : Fetch) : Pull := { s with fetches := s.fetches ++ [f] }

def metadataFetch : Fetch := ⟨.metadata, metadataUrl o, maxMetadataBytes, none⟩

def wholeFetch (m : Manifest) (k : Nat) (file : HubFile) : Fetch :=
  ⟨.whole k, fileUrl o m.revision file, file.size, none⟩

def partFetch (m : Manifest) (k : Nat) (file : HubFile) (i : Nat) (range : ByteRange) : Fetch :=
  ⟨.part k i, fileUrl o m.revision file, range.length, some range⟩

def readMetadata (s : Pull) : Except PullError Bytes :=
  match s.disk s.metadataPath with
  | some (.file bytes) =>
    if maxMetadataBytes < bytes.length then .error .metadataTooLarge else .ok bytes
  | _ => .error .system

/-- The directories of a file's path still to make. -/
def begin (s : Pull) (m : Manifest) (k : Nat) : Pull :=
  match m.files[k]? with
  | none => s.finish
  | some file =>
    match validatePath (relativePath o m.revision file) with
    | .error e => s.raise e
    | .ok () => { s with stage := .files k (.placing [] (destination o m.revision file).dropLast) }

def resolved (s : Pull) : Except PullError Manifest := do
  let metadata ← s.readMetadata
  let m ← select conv whole metadata o.quant o.filename
  if hexDigest o.revision 40 ∧ m.revision ≠ o.revision then .error .otherRevision else .ok m

/-- The part files, each of its range's length, put one after another and removed. -/
def assemble (s : Pull) (i : Nat) (range : ByteRange) (hash : ShaStream) :
    Except PullError (Disk × ShaStream) :=
  match s.disk (s.partPath i), s.disk s.assembled with
  | some (.file bytes), some (.file output) =>
    if bytes.length ≠ range.length then .error .incompleteRange
    else (consume (range.length + 1) range.length bytes hash []).map fun done =>
      ((s.disk.put s.assembled (some (.file (output ++ done.2)))).put (s.partPath i) none, done.1)
  | _, _ => .error .system

/-- The first request of a list that raised, with what. -/
def firstFailure : List Request → Option PullError
  | [] => none
  | r :: rs => match r.ended with
    | some (some e) => some e
    | _ => firstFailure rs

/-- Every request ended; the pull goes on to the assembly, or raises what the launch or the first
request that failed did. -/
def gathered (s : Pull) (file : HubFile) (k : Nat) (rs : List Request) (broken : Option PullError) :
    Pull :=
  match broken, firstFailure rs with
  | some e, _ => s.raise e
  | none, some e => s.raise e
  | none, none =>
    match fileHasher file with
    | none => s.raise .shaTooLarge
    | some hash =>
      { s with
        disk := s.disk.put s.assembled (some (.file []))
        stage := .files k (.assembling 0 hash) }

def placeStep (s : Pull) (k : Nat) (made : Path) (c : Bytes) (rest : Path) : Pull :=
  match makeDirectory s.disk (made ++ [c]) with
  | .error e => s.raise e
  | .ok d => { s with disk := d, stage := .files k (.placing (made ++ [c]) rest) }

def checkStep (s : Pull) (m : Manifest) (k : Nat) (file : HubFile) : Pull :=
  match verified s.disk (destination o m.revision file) file with
  | .error e => s.raise e
  | .ok true => { s with stage := .files k .ready }
  | .ok false => { s with stage := .files k .downloading }

def downloadStep (s : Pull) (m : Manifest) (k : Nat) (file : HubFile) : Pull :=
  if streamCount o.parallel file.size = 1 then
    { s with stage := .files k (.whole Request.begun) }.fetching (wholeFetch o m k file)
  else { s with stage := .files k (.parts [] none) }

def wholeStep (s : Pull) (k : Nat) (file : HubFile) (r : Request) : Option Pull :=
  match r.ended with
  | none => none
  | some (some e) => some (s.raise e)
  | some none =>
    match verified s.disk s.assembled file with
    | .error e => some (s.raise e)
    | .ok false => some (s.raise .downloadMismatch)
    | .ok true => some { s with stage := .files k .publishing }

/-- The next stream begun; the streams begun waited for, once all are or one could not be. -/
def partsStep (s : Pull) (m : Manifest) (k : Nat) (file : HubFile) (rs : List Request)
    (broken : Option PullError) : Option Pull :=
  match (ranges file.size (streamCount o.parallel file.size))[rs.length]?, broken with
  | some range, none =>
    some ({ s with stage := .files k (.parts (rs ++ [Request.begun]) none) }.fetching
      (partFetch o m k file rs.length range))
  | _, _ => if rs.all fun r => r.ended.isSome then some (s.gathered file k rs broken) else none

def assembleStep (s : Pull) (k : Nat) (file : HubFile) (i : Nat) (hash : ShaStream) : Pull :=
  match (ranges file.size (streamCount o.parallel file.size))[i]? with
  | some range =>
    match s.assemble i range hash with
    | .error e => s.raise e
    | .ok (d, hash) => { s with disk := d, stage := .files k (.assembling (i + 1) hash) }
  | none =>
    if hash.hex = file.digest then { s with stage := .files k .publishing }
    else s.raise .assembledMismatch

def publishStep (s : Pull) (m : Manifest) (k : Nat) (file : HubFile) : Pull :=
  match s.disk s.assembled, s.disk (destination o m.revision file) with
  | _, some .directory => s.raise .system
  | some (.file bytes), _ =>
    { s with
      disk := (s.disk.put (destination o m.revision file) (some (.file bytes))).put s.assembled none
      renames := s.renames ++ [(destination o m.revision file, bytes)]
      stage := .files k .ready }
  | _, _ => s.raise .system

/-- The next step of an acquisition's own thread, where it works. -/
def acquireStep (s : Pull) (m : Manifest) (k : Nat) (file : HubFile) : Acquire → Option Pull
  | .placing _ [] => some { s with stage := .files k .checking }
  | .placing made (c :: rest) => some (s.placeStep k made c rest)
  | .checking => some (s.checkStep o m k file)
  | .downloading => some (s.downloadStep o m k file)
  | .whole r => s.wholeStep k file r
  | .parts rs broken => s.partsStep o m k file rs broken
  | .assembling i hash => some (s.assembleStep o k file i hash)
  | .publishing => some (s.publishStep o m k file)
  | .ready => some (s.begin o m (k + 1))

def goStep (s : Pull) : Option Pull :=
  match s.stage with
  | .checking =>
    match validateOptions o with
    | .error e => some (s.raise e)
    | .ok () => some { s with stage := .starting 0 }
  | .resolving r =>
    match r.ended with
    | none => none
    | some (some e) => some (s.raise e)
    | some none => some { s with stage := .selecting }
  | .selecting =>
    match s.resolved conv whole o with
    | .error e => some (s.raise e)
    | .ok m => some ({ s with manifest := some m }.begin o m 0)
  | .files k phase => s.manifest.bind fun m => m.files[k]?.bind fun file =>
      s.acquireStep o m k file phase
  | _ => none

/-- A step throws: the streams begun are waited for, then the pull raises. -/
def failStep (s : Pull) : Option Pull :=
  match s.stage with
  | .returned | .raised _ => none
  | .files k (.parts rs none) => some { s with stage := .files k (.parts rs (some .system)) }
  | .files _ (.parts _ (some _)) => none
  | .files _ (.whole r) => if r.ended.isSome then some (s.raise .system) else none
  | .resolving r => if r.ended.isSome then some (s.raise .system) else none
  | _ => some (s.raise .system)

def temporaryName (a b : Nat) : Bytes := text ".pull-" ++ decimal a ++ text "-" ++ decimal b

/-- A name tried for the temporary directory. -/
def nameStep (s : Pull) (a b : Nat) : Option Pull :=
  match s.stage with
  | .starting attempt =>
    match s.disk [temporaryName a b] with
    | none =>
      some ({ s with
        disk := s.disk.put [temporaryName a b] (some .directory)
        temporary := some [temporaryName a b]
        stage := .resolving Request.begun }.fetching (metadataFetch o))
    | some (.file _) => some (s.raise .system)
    | some _ =>
      if attempt + 1 = 20 then some (s.raise .temporaryDirectory)
      else some { s with stage := .starting (attempt + 1) }
  | _ => none

/-- A request whose try ended, asked again where it goes on. -/
def retry (s : Pull) (r : Request) (outcome : Outcome) (f : Fetch) : Pull :=
  if (r.tried outcome).ended.isSome then s else s.fetching f

/-- A try of a request ends, with what it leaves in the request's file. -/
def triedStep (s : Pull) (stream : Nat) (left : Option Bytes) (outcome : Outcome) : Option Pull :=
  match s.stage with
  | .resolving r =>
    if r.ended.isSome ∨ stream ≠ 0 then none
    else some ({ s with
      disk := s.disk.put s.metadataPath (left.map .file)
      stage := .resolving (r.tried outcome) }.retry r outcome (metadataFetch o))
  | .files k (.whole r) => s.manifest.bind fun m => m.files[k]?.bind fun file =>
      if r.ended.isSome ∨ stream ≠ 0 then none
      else some ({ s with
        disk := s.disk.put s.assembled (left.map .file)
        stage := .files k (.whole (r.tried outcome)) }.retry r outcome (wholeFetch o m k file))
  | .files k (.parts rs broken) => s.manifest.bind fun m => m.files[k]?.bind fun file =>
      rs[stream]?.bind fun r =>
        (ranges file.size (streamCount o.parallel file.size))[stream]?.bind fun range =>
          if r.ended.isSome then none
          else some ({ s with
            disk := s.disk.put (s.partPath stream) (left.map .file)
            stage := .files k (.parts (rs.set stream (r.tried outcome)) broken) }.retry r outcome
              (partFetch o m k file stream range))
  | _ => none

def step (s : Pull) : PullMove → Option Pull
  | .go => s.goStep conv whole o
  | .fails => s.failStep
  | .named a b => s.nameStep o a b
  | .tried stream left outcome => s.triedStep o stream left outcome

end Pull

/-- A pull into a cache, whose transport may leave any bytes in its files and end its tries in any
order and way, and any of whose steps may throw. -/
def pull (conv : Json.Conversion δ) (whole : δ → Option Nat) (o : PullOptions) (cache : Disk) :
    Machine Pull PullMove where
  start s := s = ⟨cache, none, none, .checking, [], []⟩
  step := Pull.step conv whole o

end Hub

end Llmx
