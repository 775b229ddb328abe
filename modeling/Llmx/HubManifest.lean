import Llmx.JsonParser
import Llmx.ShaStream

namespace Llmx

namespace Hub

variable {δ : Type}

/-- Why a pull raises. -/
inductive PullError
  | invalidPath
  | unsafePath
  | notPortable
  | reservedName
  | trailingSlash
  | expectedRepository
  | invalidRepository
  | quantRequired
  | invalidQuant
  | metadata (e : Json.Error)
  | metadataObject
  | duplicateField
  | missingField
  | metadataString
  | invalidFileSize
  | invalidShardName
  | shardExtension
  | invalidCommit
  | siblingsArray
  | collidingPaths
  | emptyFile
  | invalidLfs
  | invalidBlob
  | noMatch
  | fileNotOfQuant
  | ambiguousQuant
  | incompleteShards
  | inconsistentShards
  | mixedFiles
  | invalidRevision
  | parallelStreams
  | temporaryDirectory
  | metadataTooLarge
  | otherRevision
  | transport (status code : Nat)
  | waitTooLong
  | cacheLink
  | cacheEntry
  | cacheDirectory
  | directoryLink
  | truncated
  | extentChanged
  | shaTooLarge
  | downloadMismatch
  | incompleteRange
  | assembledMismatch
  | system
deriving DecidableEq, Repr

structure HubFile where
  name : Bytes
  size : Nat
  digest : Bytes
  lfs : Bool
deriving DecidableEq, Repr

structure Manifest where
  revision : Bytes
  files : List HubFile
deriving DecidableEq, Repr

def text (s : String) : Bytes := ascii s.toList

def decimal (n : Nat) : Bytes := (Nat.toDigits 10 n).map Char.toUInt8

def lowerByte (c : UInt8) : UInt8 := if 'A'.toUInt8 ≤ c ∧ c ≤ 'Z'.toUInt8 then c + 32 else c

def lower (s : Bytes) : Bytes := s.map lowerByte

def hexDigest (s : Bytes) (length : Nat) : Bool :=
  s.length == length && s.all fun c => Json.isDigit c || 'a'.toUInt8 ≤ c && c ≤ 'f'.toUInt8

def slash : UInt8 := '/'.toUInt8

/-- A path's parts. -/
def components : Bytes → List Bytes
  | [] => [[]]
  | c :: s =>
    if c = slash then [] :: components s
    else ((c :: (components s).headD []) :: (components s).tail)

def notPortable (c : UInt8) : Bool := c < 32 || c == 127 || (text "\\:*?\"<>|").contains c

def reserved (part : Bytes) : Bool :=
  let stem := lower (part.takeWhile (· ≠ '.'.toUInt8))
  stem == text "con" || stem == text "prn" || stem == text "aux" || stem == text "nul" ||
    stem.length == 4 && (stem.take 3 == text "com" || stem.take 3 == text "lpt") &&
      Json.isDigit (stem.getD 3 0)

def validatePart (part : Bytes) : Except PullError Unit :=
  if part = [] ∨ part = text "." ∨ part = text ".." ∨ part.getLast? = some '.'.toUInt8 ∨
      part.getLast? = some ' '.toUInt8 then .error .unsafePath
  else if part.any notPortable then .error .notPortable
  else if reserved part then .error .reservedName
  else .ok ()

/-- Each part in turn; an empty last one stands for a slash at the end. -/
def validateParts : List Bytes → Except PullError Unit
  | [] => .ok ()
  | part :: parts =>
    if part = [] ∧ parts = [] then .error .trailingSlash
    else (validatePart part).bind fun _ => validateParts parts

def validatePath (path : Bytes) : Except PullError Unit :=
  if path = [] ∨ 4096 < path.length then .error .invalidPath else validateParts (components path)

def isAlnum (c : UInt8) : Bool :=
  'a'.toUInt8 ≤ c && c ≤ 'z'.toUInt8 || 'A'.toUInt8 ≤ c && c ≤ 'Z'.toUInt8 || Json.isDigit c

def validateRepo (repo : Bytes) : Except PullError Unit :=
  if (components repo).length ≠ 2 ∨ (components repo).any List.isEmpty ∨ 193 < repo.length then
    .error .expectedRepository
  else (validatePath repo).bind fun _ =>
    if ¬ repo.all (fun c => isAlnum c || (text "/-_.").contains c) then .error .invalidRepository
    else if text ".." <:+: repo ∨ text "--" <:+: repo then .error .invalidRepository
    else .ok ()

def hexUpper : Bytes := text "0123456789ABCDEF"

def urlEncode (s : Bytes) (keepSlashes : Bool) : Bytes :=
  s.flatMap fun c =>
    if isAlnum c || (text "-_.~").contains c || keepSlashes && c == slash then [c]
    else ['%'.toUInt8, hexUpper.getD (c.toNat / 16) 0, hexUpper.getD (c.toNat % 16) 0]

/-- The one member of a key; `none` where there is none. -/
def optionalMember (v : Json.Value δ) (key : Bytes) : Except PullError (Option (Json.Value δ)) :=
  match v with
  | .object obj =>
    match obj.filter fun item => item.1 == key with
    | [] => .ok none
    | [item] => .ok (some item.2)
    | _ => .error .duplicateField
  | _ => .error .metadataObject

def member (v : Json.Value δ) (key : Bytes) : Except PullError (Json.Value δ) := do
  match ← optionalMember v key with
  | some item => .ok item
  | none => .error .missingField

def stringMember (v : Json.Value δ) (key : Bytes) : Except PullError Bytes := do
  match ← member v key with
  | .string str => .ok str
  | _ => .error .metadataString

/-- A size from a number, `whole` giving a double that is a whole number up to 2^53 - 1. -/
def sizeMember (whole : δ → Option Nat) (v : Json.Value δ) : Except PullError Nat := do
  match ← member v (text "size") with
  | .number num _ =>
    match whole num with
    | some size => .ok size
    | none => .error .invalidFileSize
  | _ => .error .invalidFileSize

structure ShardName where
  base : Bytes
  index : Nat
  count : Nat
deriving DecidableEq, Repr

def digitsValue (s : Bytes) : Nat := s.foldl (fun n c => n * 10 + (c.toNat - 48)) 0

def lastFive (name : Bytes) : Bytes := name.drop (name.length - 5)

/-- Where a name is `<base>-<index>-of-<count>.gguf`, with five digits each. -/
def shardForm (name : Bytes) : Bool :=
  let p := name.length - 20
  21 ≤ name.length && lower (lastFive name) == text ".gguf" && name.getD p 0 == '-'.toUInt8 &&
    (name.drop (p + 6)).take 4 == text "-of-" && ((name.drop (p + 1)).take 5).all Json.isDigit &&
    ((name.drop (p + 10)).take 5).all Json.isDigit

def shardName (name : Bytes) (validate : Bool) : Except PullError ShardName :=
  if shardForm name then
    let p := name.length - 20
    let index := digitsValue ((name.drop (p + 1)).take 5)
    let count := digitsValue ((name.drop (p + 10)).take 5)
    let shard := ShardName.mk (name.take p ++ lastFive name) index count
    if ¬ validate then .ok shard
    else if index = 0 ∨ count = 0 ∨ count < index ∨ 65535 < count then .error .invalidShardName
    else if lastFive name ≠ text ".gguf" then .error .shardExtension
    else .ok shard
  else .ok ⟨name, 0, 0⟩

def validateQuant (quant : Bytes) : Except PullError Unit :=
  if quant = [] ∨ 32 < quant.length then .error .quantRequired
  else if quant.all fun c => isAlnum c || c == '_'.toUInt8 then .ok ()
  else .error .invalidQuant

/-- Whether a base name ends in a quant's, after a separator. -/
def ofQuant (quant base : Bytes) : Bool :=
  let suffix := lower quant ++ text ".gguf"
  let n := base.length - suffix.length
  suffix.length ≤ base.length && base.drop n == suffix &&
    (n == 0 || (text "-./_").contains (base.getD (n - 1) 0))

def addFile (key : Bytes) (file : HubFile) : List (Bytes × List HubFile) → List (Bytes × List HubFile)
  | [] => [(key, [file])]
  | (k, files) :: groups =>
    if k = key then (k, files ++ [file]) :: groups else (k, files) :: addFile key file groups

/-- The files seen so far: their paths in lower case, and the files by base and count. -/
structure Gathered where
  paths : List Bytes
  groups : List (Bytes × List HubFile)

/-- A file's size and digest. -/
def describeFile (whole : δ → Option Nat) (sibling : Json.Value δ) (name : Bytes) :
    Except PullError HubFile := do
  let size ← sizeMember whole sibling
  if size = 0 then .error .emptyFile
  else do
    match ← optionalMember sibling (text "lfs") with
    | none | some .null =>
      let digest ← stringMember sibling (text "blobId")
      if hexDigest digest 40 then .ok ⟨name, size, digest, false⟩ else .error .invalidBlob
    | some lfs =>
      let digest ← stringMember lfs (text "sha256")
      let lfsSize ← sizeMember whole lfs
      if lfsSize ≠ size ∨ ¬ hexDigest digest 64 then .error .invalidLfs
      else .ok ⟨name, size, digest, true⟩

def gather (whole : δ → Option Nat) (quant : Bytes) (g : Gathered) (sibling : Json.Value δ) :
    Except PullError Gathered := do
  let name ← stringMember sibling (text "rfilename")
  if name.length < 5 ∨ lower (lastFive name) ≠ text ".gguf" then .ok g
  else do
    let shard ← shardName name false
    if ¬ ofQuant quant (lower shard.base) then .ok g
    else do
      let _ ← shardName name true
      validatePath name
      if g.paths.contains (lower name) then .error .collidingPaths
      else do
        let file ← describeFile whole sibling name
        .ok ⟨lower name :: g.paths, addFile (shard.base ++ 0 :: decimal shard.count) file g.groups⟩

def gatherAll (whole : δ → Option Nat) (quant : Bytes) :
    Gathered → List (Json.Value δ) → Except PullError Gathered
  | g, [] => .ok g
  | g, sibling :: siblings => (gather whole quant g sibling).bind fun g => gatherAll whole quant g siblings

/-- The group of the file asked for, or the only one. -/
def choose (filename : Bytes) (groups : List (Bytes × List HubFile)) :
    Except PullError (List HubFile) :=
  if groups = [] then .error .noMatch
  else if filename ≠ [] then
    match groups.find? fun group => group.2.any fun file => file.name == filename with
    | some group => .ok group.2
    | none => .error .fileNotOfQuant
  else
    match groups with
    | [group] => .ok group.2
    | _ => .error .ambiguousQuant

/-- That file `i` and those after it are shards `i + 1` on, of `count`. -/
def checkShards (count : Nat) : Nat → List HubFile → Except PullError Unit
  | _, [] => .ok ()
  | i, file :: files => (shardName file.name true).bind fun shard =>
    if shard.index ≠ i + 1 ∨ shard.count ≠ count then .error .inconsistentShards
    else checkShards count (i + 1) files

def sortFiles (files : List HubFile) : List HubFile :=
  files.mergeSort fun a b => decide (a.name ≤ b.name)

def checkSet (files : List HubFile) : Except PullError Unit :=
  match files with
  | [] => .ok ()
  | file :: _ => (shardName file.name true).bind fun first =>
    if first.count ≠ 0 then
      if files.length ≠ first.count then .error .incompleteShards
      else checkShards first.count 0 files
    else if files.length ≠ 1 then .error .mixedFiles
    else .ok ()

def validateFilename (filename : Bytes) : Except PullError Unit :=
  if filename = [] then .ok () else validatePath filename

def select (conv : Json.Conversion δ) (whole : δ → Option Nat) (metadata quant filename : Bytes) :
    Except PullError Manifest := do
  validateQuant quant
  validateFilename filename
  let root ← (Json.parse conv metadata).mapError .metadata
  let revision ← stringMember root (text "sha")
  if ¬ hexDigest revision 40 then .error .invalidCommit
  else do
    match ← member root (text "siblings") with
    | .array siblings =>
      let g ← gatherAll whole quant ⟨[], []⟩ siblings
      let chosen ← choose filename g.groups
      let files := sortFiles chosen
      checkSet files
      .ok ⟨revision, files⟩
    | _ => .error .siblingsArray

end Hub

end Llmx
