import Llmx.InflateLimits
import Llmx.PngUndoes

namespace Llmx

namespace Png

open Inflate (Error inflateZlib WellFormed)

/-- What a file holds apart from its pixels that the conversion reads. -/
structure PngExtras where
  exif : Bytes
  rawProfileExif : Bytes
  xmp : Bytes
deriving DecidableEq

def kTextLimit : Nat := 2 ^ 20

def keXIf : Bytes := ascii ['e', 'X', 'I', 'f']

def ktEXt : Bytes := ascii ['t', 'E', 'X', 't']

def kzTXt : Bytes := ascii ['z', 'T', 'X', 't']

def kiTXt : Bytes := ascii ['i', 'T', 'X', 't']

def exifKey : Bytes := ascii ['e', 'x', 'i', 'f']

def rawProfileKey : Bytes :=
  ascii ['R', 'a', 'w', ' ', 'p', 'r', 'o', 'f', 'i', 'l', 'e', ' ', 't', 'y', 'p', 'e', ' ', 'e',
    'x', 'i', 'f']

def xmpKey : Bytes :=
  ascii ['X', 'M', 'L', ':', 'c', 'o', 'm', '.', 'a', 'd', 'o', 'b', 'e', '.', 'x', 'm', 'p']

/-- A compressed text; a refusal of its stream reads as empty. -/
def inflatedText (z : Bytes) : Except Error Bytes :=
  match inflateZlib z (kTextLimit + 1) with
  | .error (.runtime _) => .ok []
  | .error e => .error e
  | .ok v =>
    if kTextLimit < v.length then raise "png: a compressed text chunk inflates past 1 MiB"
    else .ok v

def keepText (key text : Bytes) (extras : PngExtras) : PngExtras :=
  if key = rawProfileKey then { extras with rawProfileExif := text }
  else { extras with xmp := text }

def keywordOf (data : Bytes) : Bytes := data.takeWhile (· != 0)

/-- What comes after a field and its zero byte. -/
def afterField (data : Bytes) : Option Bytes :=
  match data.dropWhile (· != 0) with
  | [] => none
  | _ :: rest => some rest

/-- `rest` is what comes after the keyword and its zero byte. -/
def compressedChunk (key rest : Bytes) (extras : PngExtras) : Except Error PngExtras :=
  if rest ≠ [] ∧ rest.getD 0 0 ≠ 0 then raise "png: an unknown zTXt compression method"
  else (if 1 < rest.length then inflatedText (rest.drop 1) else .ok []).bind fun text =>
    if key = exifKey then .ok extras else .ok (keepText key text extras)

def internationalChunk (key rest : Bytes) (extras : PngExtras) : Except Error PngExtras :=
  if rest.length < 2 then .ok extras
  else
    match (afterField (rest.drop 2)).bind afterField with
    | none => .ok extras
    | some text =>
      if rest.getD 0 0 ≠ 0 then
        if rest.getD 1 0 ≠ 0 then .ok extras
        else (inflatedText text).bind fun text =>
          if key = exifKey then .ok extras else .ok (keepText key text extras)
      else if key = exifKey then .ok extras
      else .ok (keepText key text extras)

def textChunk (type data : Bytes) (extras : PngExtras) : Except Error PngExtras :=
  let key := keywordOf data
  let rest := (data.dropWhile (· != 0)).drop 1
  if key ≠ exifKey ∧ key ≠ rawProfileKey ∧ key ≠ xmpKey then .ok extras
  else if type = ktEXt then
    if key = exifKey then .ok { extras with exif := rest } else .ok (keepText key rest extras)
  else if type = kzTXt then compressedChunk key rest extras
  else if data.length ≤ key.length then .ok extras
  else internationalChunk key rest extras

/-- A chunk of a file read with its extras. -/
def readChunkKept (maxPixels : Nat) (type data : Bytes) (s : Chunks × PngExtras) :
    Except Error (Chunks × PngExtras) :=
  (readChunk maxPixels type data s.1).bind fun chunks =>
    if type = keXIf then .ok (chunks, { s.2 with exif := data })
    else if type = ktEXt ∨ type = kzTXt ∨ type = kiTXt then
      (textChunk type data s.2).map fun extras => (chunks, extras)
    else .ok (chunks, s.2)

def readChunksKept (maxPixels : Nat) :
    Nat → Bytes → Chunks × PngExtras → Except Error (Chunks × PngExtras)
  | 0, _, _ => .error .unfinished
  | fuel + 1, rest, s =>
    if rest.length < 12 then raise "png: the file ends inside a chunk"
    else if rest.length - 12 < be32 rest then
      raise "png: a chunk runs past the end of the file"
    else
      let type := (rest.drop 4).take 4
      let data := (rest.drop 8).take (be32 rest)
      if crc32 (type ++ data) ≠ be32 (rest.drop (8 + be32 rest)) then
        raise "png: a chunk's CRC fails"
      else (readChunkKept maxPixels type data s).bind fun s' =>
        if type = kIEND then .ok s'
        else readChunksKept maxPixels fuel (rest.drop (be32 rest + 12)) s'

/-- What is done once the chunks are read. -/
def imageOf (s : Chunks) : Except Error (Header × List Write) :=
  match s.header with
  | none => raise "png: the first chunk is not IHDR"
  | some hd =>
    if hd.color = 3 ∧ s.palette = [] then raise "png: a palette image without a PLTE"
    else if s.idat = [] then raise "png: no image data"
    else (inflateZlib s.idat hd.expected).bind fun raw =>
      if raw.length ≠ hd.expected then raise "png: the image data is shorter than the image"
      else if 2 ^ 63 ≤ hd.w * hd.h * 3 then .error .length
      else (hd.passWrites s.palette hd.passes raw).bind fun ws => .ok (hd, ws)

def decodeKept (p : Bytes) (maxPixels : Nat) : Except Error (Raster × PngExtras) :=
  if ¬ isPng p then raise "png: not a PNG file"
  else (readChunksKept maxPixels p.length (p.drop 8) (⟨none, [], []⟩, ⟨[], [], []⟩)).bind fun s =>
    (imageOf s.1).map fun r => (drawn r.1 r.2, s.2)

section Runs

variable {maxPixels : Nat}

theorem readChunksKept_chunks {fuel : Nat} {rest : Bytes} {s s' : Chunks × PngExtras}
    (h : readChunksKept maxPixels fuel rest s = .ok s') :
    readChunks maxPixels fuel rest s.1 = .ok s'.1 := by
  induction fuel generalizing rest s with
  | zero => cases h
  | succ fuel ih =>
    rw [readChunksKept] at h
    rw [readChunks]
    split at h
    next => cases h
    next hlong =>
    split at h
    next => cases h
    next hin =>
    dsimp only at h ⊢
    split at h
    next => cases h
    next hcrc =>
    rw [if_neg hlong, if_neg hin, if_neg hcrc]
    generalize hkept : readChunkKept maxPixels ((rest.drop 4).take 4)
      ((rest.drop 8).take (be32 rest)) s = kept at h
    cases kept with
    | error e => cases h
    | ok t =>
      have hone : readChunk maxPixels ((rest.drop 4).take 4) ((rest.drop 8).take (be32 rest)) s.1 =
          .ok t.1 := by
        unfold readChunkKept at hkept
        cases hchunk : readChunk maxPixels ((rest.drop 4).take 4)
            ((rest.drop 8).take (be32 rest)) s.1 with
        | error e =>
          rw [hchunk] at hkept
          cases hkept
        | ok chunks =>
          rw [hchunk] at hkept
          dsimp only [Except.bind] at hkept
          split at hkept
          next =>
            cases hkept
            exact Eq.refl _
          next =>
            split at hkept
            next =>
              cases htext : textChunk ((rest.drop 4).take 4) ((rest.drop 8).take (be32 rest)) s.2 with
              | error e =>
                rw [htext] at hkept
                cases hkept
              | ok extras =>
                rw [htext] at hkept
                cases hkept
                exact Eq.refl _
            next =>
              cases hkept
              exact Eq.refl _
      rw [hone]
      dsimp only [Except.bind] at h ⊢
      split at h
      next hend =>
        rw [if_pos hend]
        cases h
        exact Eq.refl _
      next hend =>
        rw [if_neg hend]
        exact ih h

/-- The image read with the extras is the one read without them. -/
theorem decodeKept_image {p : Bytes} {img : Raster} {extras : PngExtras}
    (h : decodeKept p maxPixels = .ok (img, extras)) : decodePng p maxPixels = .ok img := by
  have hwrites : decodeWrites p maxPixels = if ¬ isPng p then raise "png: not a PNG file"
      else (readChunks maxPixels p.length (p.drop 8) ⟨none, [], []⟩).bind imageOf := Eq.refl _
  unfold decodeKept at h
  unfold decodePng
  rw [hwrites]
  split at h
  next => cases h
  next hpng =>
    rw [if_neg hpng]
    cases hread : readChunksKept maxPixels p.length (p.drop 8) (⟨none, [], []⟩, ⟨[], [], []⟩) with
    | error e =>
      rw [hread] at h
      cases h
    | ok s =>
      rw [hread] at h
      rw [readChunksKept_chunks hread]
      dsimp only [Except.bind] at h ⊢
      cases himage : imageOf s.1 with
      | error e =>
        rw [himage] at h
        cases h
      | ok r =>
        rw [himage] at h
        cases h
        exact Eq.refl _

end Runs

/-- What a chunk holds for a text: none, one compressed in a way it has no name for, the text
itself, or a stream. -/
inductive Carried
  | nothing
  | unknown
  | plain (text : Bytes)
  | packed (z : Bytes)

/-- The chunk formats; one cut short inside an iTXt's fields has no text. -/
inductive Carries : Bytes → Bytes → Carried → Prop
  | text (key text : Bytes) : 0 ∉ key → Carries ktEXt (key ++ 0 :: text) (.plain text)
  | textCut (key : Bytes) : 0 ∉ key → Carries ktEXt key (.plain [])
  | compressed (key z : Bytes) : 0 ∉ key → Carries kzTXt (key ++ 0 :: 0 :: z) (.packed z)
  | compressedUnknown (key : Bytes) (method : UInt8) (z : Bytes) : 0 ∉ key → method ≠ 0 →
    Carries kzTXt (key ++ 0 :: method :: z) .unknown
  | compressedCut (key : Bytes) : 0 ∉ key → Carries kzTXt key (.packed [])
  | compressedCutLater (key : Bytes) : 0 ∉ key → Carries kzTXt (key ++ [0]) (.packed [])
  | international (key : Bytes) (flag method : UInt8) (language translated text : Bytes) :
    0 ∉ key → 0 ∉ language → 0 ∉ translated →
    Carries kiTXt
      (key ++ 0 :: flag :: method :: (language ++ 0 :: (translated ++ 0 :: text)))
      (if flag = 0 then .plain text else if method = 0 then .packed text else .nothing)
  | internationalCut (data : Bytes) :
    (∀ key flag method language translated text, 0 ∉ key → 0 ∉ language → 0 ∉ translated →
      data ≠ key ++ 0 :: flag :: method :: (language ++ 0 :: (translated ++ 0 :: text))) →
    Carries kiTXt data .nothing

/-- The keywords the conversion reads. -/
def Read (data : Bytes) : Prop :=
  keywordOf data = exifKey ∨ keywordOf data = rawProfileKey ∨ keywordOf data = xmpKey

/-- The extras with a chunk's text; one named `exif` is read from a tEXt chunk only. -/
def withText (type data text : Bytes) (extras : PngExtras) : PngExtras :=
  if keywordOf data = exifKey then
    if type = ktEXt then { extras with exif := text } else extras
  else keepText (keywordOf data) text extras

/-- What is to come of a chunk: a well-formed text past 1 MiB is refused, a malformed one is empty,
and any other is kept. -/
def Right (type data : Bytes) (extras : PngExtras) : Carried → Except Error PngExtras → Prop
  | .nothing, r => r = .ok extras
  | .unknown, r => ∃ what, r = raise what
  | .plain text, r => r = .ok (withText type data text extras)
  | .packed z, r =>
    (∀ v, WellFormed z v → kTextLimit < v.length → ∃ what, r = raise what) ∧
    (∀ v, WellFormed z v → v.length ≤ kTextLimit → r = .ok (withText type data v extras)) ∧
    ((¬ ∃ v, WellFormed z v) → r = .ok (withText type data [] extras))

/-- A well-formed text more than a byte past the limit. -/
def Oversized : Carried → Prop
  | .packed z => ∃ v, WellFormed z v ∧ kTextLimit + 1 < v.length
  | _ => False

section Texts

variable {type data key z : Bytes} {extras : PngExtras}

theorem inflatedText_spec (z : Bytes) :
    (∀ v, WellFormed z v → v.length ≤ kTextLimit → inflatedText z = .ok v) ∧
    (∀ v, WellFormed z v → v.length = kTextLimit + 1 → ∃ what, inflatedText z = raise what) ∧
    (∀ v, WellFormed z v → kTextLimit + 1 < v.length → inflatedText z = .ok []) ∧
    ((¬ ∃ v, WellFormed z v) → inflatedText z = .ok []) := by
  have hlimit : kTextLimit + 1 < 2 ^ 63 := by
    unfold kTextLimit
    omega
  unfold inflatedText
  refine ⟨fun v hv hmost => ?_, fun v hv hone => ?_, fun v hv hover => ?_, fun hnone => ?_⟩
  · rw [Inflate.inflateZlib_wellFormed hv hlimit, if_pos (by omega)]
    exact if_neg (by omega)
  · rw [Inflate.inflateZlib_wellFormed hv hlimit, if_pos (by omega)]
    exact ⟨_, if_pos (by omega)⟩
  · rw [Inflate.inflateZlib_wellFormed hv hlimit, if_neg (by omega)]
  · obtain ⟨what, hwhat⟩ := Inflate.inflateZlib_malformed hnone hlimit
    rw [hwhat]

/-- A stream's text is as it is to be, but for one more than a byte past the limit. -/
theorem packed_right_iff {r : Except Error PngExtras} {kept : Bytes → PngExtras}
    (hkept : ∀ text, withText type data text extras = kept text)
    (hr : r = (inflatedText z).bind fun text => .ok (kept text)) :
    Right type data extras (.packed z) r ↔ ¬ Oversized (.packed z) := by
  obtain ⟨hfits, hone, hover, hmalformed⟩ := inflatedText_spec z
  refine ⟨fun hright hbig => ?_, fun hsmall => ⟨fun v hv hlong => ?_, fun v hv hmost => ?_,
    fun hnone => ?_⟩⟩
  · obtain ⟨v, hv, hlong⟩ := hbig
    obtain ⟨what, hwhat⟩ := hright.1 v hv (by omega)
    rw [hr, hover v hv hlong] at hwhat
    cases hwhat
  · have hlength : v.length = kTextLimit + 1 := by
      by_contra hne
      exact hsmall ⟨v, hv, by omega⟩
    obtain ⟨what, hwhat⟩ := hone v hv hlength
    exact ⟨what, by rw [hr, hwhat]; exact Eq.refl _⟩
  · rw [hr, hfits v hv hmost, hkept]
    exact Eq.refl _
  · rw [hr, hmalformed hnone, hkept]
    exact Eq.refl _

theorem takeKey (hkey : 0 ∉ key) (rest : Bytes) :
    (key ++ 0 :: rest).takeWhile (· != 0) = key ∧
      (key ++ 0 :: rest).dropWhile (· != 0) = 0 :: rest := by
  have hall : ∀ c ∈ key, (c != 0) = true := fun c hc => bne_iff_ne.mpr fun h => hkey (h ▸ hc)
  rw [List.takeWhile_append_of_pos hall, List.dropWhile_append_of_pos hall]
  exact ⟨List.append_nil key, Eq.refl _⟩

theorem takeKey_all (hkey : 0 ∉ key) :
    key.takeWhile (· != 0) = key ∧ key.dropWhile (· != 0) = [] := by
  have hall : ∀ c ∈ key, (c != 0) = true := fun c hc => bne_iff_ne.mpr fun h => hkey (h ▸ hc)
  exact ⟨List.takeWhile_eq_self_iff.mpr hall, List.dropWhile_eq_nil_iff.mpr hall⟩

/-- The key and what comes after it and its zero byte. -/
theorem cut_key (data : Bytes) : 0 ∉ keywordOf data ∧
    (data = keywordOf data ∧ data.dropWhile (· != 0) = [] ∨
      ∃ rest, data = keywordOf data ++ 0 :: rest ∧ data.dropWhile (· != 0) = 0 :: rest) := by
  have hsplit : keywordOf data ++ data.dropWhile (· != 0) = data := List.takeWhile_append_dropWhile
  refine ⟨fun hmem => ?_, ?_⟩
  · have h := List.mem_takeWhile_imp hmem
    exact absurd h (by decide)
  · cases hdrop : data.dropWhile (· != 0) with
    | nil =>
      rw [hdrop, List.append_nil] at hsplit
      exact .inl ⟨hsplit.symm, Eq.refl _⟩
    | cons c rest =>
      have hzero : c = 0 := by
        have h := List.head?_dropWhile_not (· != 0) data
        rw [hdrop] at h
        simpa using h
      subst hzero
      rw [hdrop] at hsplit
      exact .inr ⟨rest, hsplit.symm, Eq.refl _⟩

theorem afterField_eq {field : Bytes} (hfield : 0 ∉ field) (rest : Bytes) :
    afterField (field ++ 0 :: rest) = some rest := by
  unfold afterField
  rw [(takeKey hfield rest).2]

theorem afterField_some {rest : Bytes} (h : afterField data = some rest) :
    ∃ field, 0 ∉ field ∧ data = field ++ 0 :: rest := by
  obtain ⟨hkey, ⟨-, hdrop⟩ | ⟨rest', heq, hdrop⟩⟩ := cut_key data
  · unfold afterField at h
    rw [hdrop] at h
    cases h
  · unfold afterField at h
    rw [hdrop] at h
    cases h
    exact ⟨_, hkey, heq⟩

theorem withText_other (htype : type ≠ ktEXt) (text : Bytes) :
    (if keywordOf data = exifKey then (.ok extras : Except Error PngExtras)
      else .ok (keepText (keywordOf data) text extras)) = .ok (withText type data text extras) := by
  unfold withText
  by_cases hexif : keywordOf data = exifKey
  · rw [if_pos hexif, if_pos hexif, if_neg htype]
  · rw [if_neg hexif, if_neg hexif]

theorem textChunk_read (hread : Read data) : textChunk type data extras =
    if type = ktEXt then .ok (withText ktEXt data ((data.dropWhile (· != 0)).drop 1) extras)
    else if type = kzTXt then
      compressedChunk (keywordOf data) ((data.dropWhile (· != 0)).drop 1) extras
    else if data.length ≤ (keywordOf data).length then .ok extras
    else internationalChunk (keywordOf data) ((data.dropWhile (· != 0)).drop 1) extras := by
  have hno : ¬ (keywordOf data ≠ exifKey ∧ keywordOf data ≠ rawProfileKey ∧
      keywordOf data ≠ xmpKey) := by
    rintro ⟨h1, h2, h3⟩
    rcases hread with h | h | h
    · exact h1 h
    · exact h2 h
    · exact h3 h
  unfold textChunk withText
  dsimp only
  rw [if_neg hno, if_pos (Eq.refl ktEXt)]
  by_cases hexif : keywordOf data = exifKey
  · rw [if_pos hexif, if_pos hexif]
  · rw [if_neg hexif, if_neg hexif]

theorem textChunk_text (hread : Read data) : textChunk ktEXt data extras =
    .ok (withText ktEXt data ((data.dropWhile (· != 0)).drop 1) extras) :=
  (textChunk_read hread).trans (if_pos (Eq.refl _))

theorem textChunk_compressed (hread : Read data) : textChunk kzTXt data extras =
    compressedChunk (keywordOf data) ((data.dropWhile (· != 0)).drop 1) extras :=
  (textChunk_read hread).trans ((if_neg (by decide)).trans (if_pos (Eq.refl _)))

theorem textChunk_international (hread : Read data) : textChunk kiTXt data extras =
    if data.length ≤ (keywordOf data).length then .ok extras
    else internationalChunk (keywordOf data) ((data.dropWhile (· != 0)).drop 1) extras :=
  (textChunk_read hread).trans ((if_neg (by decide)).trans (if_neg (by decide)))

theorem compressed_kept (data : Bytes) (extras : PngExtras) :
    (fun text => if keywordOf data = exifKey then (.ok extras : Except Error PngExtras)
      else .ok (keepText (keywordOf data) text extras)) =
        fun text => .ok (withText kzTXt data text extras) :=
  funext fun text => withText_other (by decide) text

theorem inflatedText_nil : inflatedText [] = .ok [] := by
  have hshort : inflateZlib [] (kTextLimit + 1) =
      .error (.runtime "inflate: the stream is too short for a zlib header") := if_pos (by decide)
  unfold inflatedText
  rw [hshort]

theorem compressedChunk_none : compressedChunk (keywordOf data) [] extras =
    (inflatedText []).bind fun text => .ok (withText kzTXt data text extras) := by
  unfold compressedChunk
  rw [if_neg (fun h => h.1 (Eq.refl _)), if_neg (by decide), compressed_kept, inflatedText_nil]

theorem compressedChunk_packed (z : Bytes) : compressedChunk (keywordOf data) (0 :: z) extras =
    (inflatedText z).bind fun text => .ok (withText kzTXt data text extras) := by
  unfold compressedChunk
  rw [if_neg (fun h => h.2 (Eq.refl _)), compressed_kept]
  congr 1
  cases z with
  | nil => exact inflatedText_nil.symm
  | cons c z => exact if_pos (Nat.succ_lt_succ (Nat.succ_pos z.length))

/-- With the fields whole, what comes after them. -/
theorem internationalChunk_whole {flag method : UInt8} {language translated text : Bytes}
    (hl : 0 ∉ language) (ht : 0 ∉ translated) :
    internationalChunk (keywordOf data)
      (flag :: method :: (language ++ 0 :: (translated ++ 0 :: text))) extras =
      if flag = 0 then .ok (withText kiTXt data text extras)
      else if method = 0 then
        (inflatedText text).bind fun text => .ok (withText kiTXt data text extras)
      else .ok extras := by
  have hcont : (fun text => if keywordOf data = exifKey then (.ok extras : Except Error PngExtras)
      else .ok (keepText (keywordOf data) text extras)) =
        fun text => .ok (withText kiTXt data text extras) :=
    funext fun text => withText_other (by decide) text
  have hfields : (afterField ((flag :: method ::
      (language ++ 0 :: (translated ++ 0 :: text))).drop 2)).bind afterField = some text := by
    show (afterField (language ++ 0 :: (translated ++ 0 :: text))).bind afterField = _
    rw [afterField_eq hl]
    exact afterField_eq ht text
  unfold internationalChunk
  rw [if_neg (by simp), hfields, hcont]
  show (if flag ≠ 0 then if method ≠ 0 then _ else _ else _) = _
  by_cases hflag : flag = 0
  · rw [if_neg (not_not.mpr hflag), if_pos hflag]
    exact withText_other (by decide) text
  · rw [if_pos hflag, if_neg hflag]
    by_cases hmethod : method = 0
    · rw [if_neg (not_not.mpr hmethod), if_pos hmethod]
    · rw [if_pos hmethod, if_neg hmethod]

/-- An iTXt with a text has its fields whole. -/
theorem international_whole {rest : Bytes}
    (hrest : ¬ rest.length < 2) {text : Bytes}
    (hfields : (afterField (rest.drop 2)).bind afterField = some text) :
    ∃ flag method language translated, 0 ∉ language ∧ 0 ∉ translated ∧
      key ++ 0 :: rest =
        key ++ 0 :: flag :: method :: (language ++ 0 :: (translated ++ 0 :: text)) := by
  obtain ⟨flag, rest, rfl⟩ := List.exists_cons_of_ne_nil
    (show rest ≠ [] from fun h => hrest (by rw [h]; exact Nat.zero_lt_succ 1))
  obtain ⟨method, rest, rfl⟩ := List.exists_cons_of_ne_nil
    (show rest ≠ [] from fun h => hrest (by rw [h]; exact Nat.lt_succ_self 1))
  obtain ⟨rest', hfirst, hsecond⟩ := Option.bind_eq_some_iff.mp hfields
  obtain ⟨language, hl, heq⟩ := afterField_some hfirst
  obtain ⟨translated, ht, heq'⟩ := afterField_some hsecond
  refine ⟨flag, method, language, translated, hl, ht, ?_⟩
  rw [← heq', ← heq]
  exact Eq.refl _

/-- A chunk is as it is to be, but for a text more than a byte past the limit. -/
theorem textChunk_right_iff {c : Carried} (hread : Read data) (hc : Carries type data c) :
    Right type data extras c (textChunk type data extras) ↔ ¬ Oversized c := by
  cases hc with
  | text key text hkey =>
    refine iff_of_true ?_ not_false
    show textChunk _ _ _ = _
    rw [textChunk_text hread, (takeKey hkey text).2]
    exact Eq.refl _
  | textCut _ hkey =>
    refine iff_of_true ?_ not_false
    show textChunk _ _ _ = _
    rw [textChunk_text hread, (takeKey_all hkey).2]
    exact Eq.refl _
  | compressed key z hkey =>
    refine packed_right_iff (fun _ => Eq.refl _) ?_
    rw [textChunk_compressed hread, (takeKey hkey _).2]
    exact compressedChunk_packed z
  | compressedUnknown key method z hkey hmethod =>
    refine iff_of_true ⟨"png: an unknown zTXt compression method", ?_⟩ not_false
    rw [textChunk_compressed hread, (takeKey hkey _).2]
    exact if_pos ⟨List.cons_ne_nil _ _, hmethod⟩
  | compressedCut _ hkey =>
    refine packed_right_iff (fun _ => Eq.refl _) ?_
    rw [textChunk_compressed hread, (takeKey_all hkey).2]
    exact compressedChunk_none
  | compressedCutLater key hkey =>
    refine packed_right_iff (fun _ => Eq.refl _) ?_
    rw [textChunk_compressed hread, (takeKey hkey []).2]
    exact compressedChunk_none
  | international key flag method language translated text hkey hl ht =>
    have hlong : ¬ (key ++ 0 :: flag :: method :: (language ++ 0 :: (translated ++ 0 :: text))).length
        ≤ (keywordOf (key ++ 0 :: flag :: method ::
          (language ++ 0 :: (translated ++ 0 :: text)))).length := by
      unfold keywordOf
      rw [(takeKey hkey _).1, List.length_append]
      simp
    rw [textChunk_international hread, if_neg hlong, (takeKey hkey _).2,
      show (0 :: flag :: method :: (language ++ 0 :: (translated ++ 0 :: text))).drop 1 =
        flag :: method :: (language ++ 0 :: (translated ++ 0 :: text)) from Eq.refl _,
      internationalChunk_whole hl ht]
    split
    next => exact iff_of_true (Eq.refl _) not_false
    next =>
      split
      next => exact packed_right_iff (fun _ => Eq.refl _) (Eq.refl _)
      next => exact iff_of_true (Eq.refl _) not_false
  | internationalCut _ hcut =>
    refine iff_of_true ?_ not_false
    show textChunk _ _ _ = _
    rw [textChunk_international hread]
    split
    next => exact Eq.refl _
    next hlong =>
      obtain ⟨hkey, ⟨heq, -⟩ | ⟨rest, heq, hdrop⟩⟩ := cut_key data
      · exact absurd (Nat.le_of_eq (congrArg List.length heq)) hlong
      · rw [hdrop]
        show internationalChunk _ rest extras = _
        unfold internationalChunk
        split
        next => exact Eq.refl _
        next hrest =>
          split
          next => exact Eq.refl _
          next text hfields =>
            obtain ⟨flag, method, language, translated, hl, ht, hwhole⟩ :=
              international_whole hrest hfields
            exact absurd (heq.trans hwhole) (hcut _ _ _ _ _ _ hkey hl ht)

theorem exists_carries (htype : type = ktEXt ∨ type = kzTXt ∨ type = kiTXt) (data : Bytes) :
    ∃ c, Carries type data c := by
  obtain ⟨hkey, hcut⟩ := cut_key data
  rcases htype with rfl | rfl | rfl
  · rcases hcut with ⟨heq, -⟩ | ⟨rest, heq, -⟩
    · rw [heq]
      exact ⟨_, .textCut _ hkey⟩
    · rw [heq]
      exact ⟨_, .text _ rest hkey⟩
  · rcases hcut with ⟨heq, -⟩ | ⟨rest, heq, -⟩
    · rw [heq]
      exact ⟨_, .compressedCut _ hkey⟩
    · rw [heq]
      cases rest with
      | nil => exact ⟨_, .compressedCutLater _ hkey⟩
      | cons method z =>
        by_cases hmethod : method = 0
        · rw [hmethod]
          exact ⟨_, .compressed _ z hkey⟩
        · exact ⟨_, .compressedUnknown _ method z hkey hmethod⟩
  · by_cases hwhole : ∃ key flag method language translated text, 0 ∉ key ∧ 0 ∉ language ∧
        0 ∉ translated ∧
          data = key ++ 0 :: flag :: method :: (language ++ 0 :: (translated ++ 0 :: text))
    · obtain ⟨key, flag, method, language, translated, text, hk, hl, ht, rfl⟩ := hwhole
      exact ⟨_, .international key flag method language translated text hk hl ht⟩
    · refine ⟨_, .internationalCut data fun key flag method language translated text hk hl ht heq => ?_⟩
      exact hwhole ⟨key, flag, method, language, translated, text, hk, hl, ht, heq⟩

/-- A text chunk of a file past its header. -/
theorem readChunkKept_text {maxPixels : Nat} {s : Chunks} (hs : s.header ≠ none)
    (htype : type = ktEXt ∨ type = kzTXt ∨ type = kiTXt) :
    readChunkKept maxPixels type data (s, extras) =
      (textChunk type data extras).map fun extras => (s, extras) := by
  have hother : type ≠ kIHDR ∧ type ≠ kPLTE ∧ type ≠ kIDAT ∧ type ≠ keXIf := by
    rcases htype with rfl | rfl | rfl
    · decide
    · decide
    · decide
  have hchunk : readChunk maxPixels type data s = .ok s := by
    unfold readChunk
    rw [if_neg fun h => hs h.1, if_neg hother.1, if_neg hother.2.1, if_neg hother.2.2.1]
  unfold readChunkKept
  rw [hchunk]
  dsimp only [Except.bind]
  rw [if_neg hother.2.2.2, if_pos htype]

end Texts

def someHeader : Chunks := ⟨some ⟨1, 1, 8, 0, 0⟩, [], []⟩

def someComment : Bytes := xmpKey ++ 0 :: [60, 62]

/-- `n` stored blocks of `m` zero bytes. -/
def zeroBlocks (n m : Nat) : Deflate.ZlibStream :=
  ⟨0x78, 0x9c, List.replicate n (.stored 0 (List.replicate m 0)), 0⟩

theorem zeroBlocks_each {n m : Nat} (hm : m < 65536) (out : Bytes) :
    Deflate.BlocksValid 30 out (List.replicate n (.stored 0 (List.replicate m 0))) ∧
      ((List.replicate n (Deflate.Block.stored 0 (List.replicate m 0))).foldl Deflate.Block.expand
        out).length = out.length + n * m := by
  induction n generalizing out with
  | zero => exact ⟨trivial, by rw [Nat.zero_mul]; exact Eq.refl _⟩
  | succ n ih =>
    obtain ⟨hvalid, hlength⟩ := ih (out ++ List.replicate m 0)
    rw [List.replicate_succ]
    refine ⟨⟨?_, hvalid⟩, ?_⟩
    · show (List.replicate m (0 : UInt8)).length < 65536
      rw [List.length_replicate]
      exact hm
    · rw [List.foldl_cons]
      refine hlength.trans ?_
      rw [List.length_append, List.length_replicate, Nat.succ_mul]
      omega

theorem zeroBlocks_inflate {n m : Nat} (hn : n ≠ 0) (hm : m < 65536) (hmost : n * m < 2 ^ 63) :
    WellFormed ((zeroBlocks n m).bytes (Deflate.adler32 (zeroBlocks n m).expand))
      (zeroBlocks n m).expand ∧ (zeroBlocks n m).expand.length = n * m := by
  obtain ⟨hvalid, hlength⟩ := zeroBlocks_each (n := n) hm []
  rw [List.length_nil, Nat.zero_add] at hlength
  have hexpand : (zeroBlocks n m).expand.length = n * m := hlength
  have hs : (zeroBlocks n m).Valid 30 := by
    have hheader : (0x78 : UInt8).toNat % 16 = 8 ∧ (0x78 : UInt8).toNat / 16 ≤ 7 ∧
        ((0x78 : UInt8).toNat * 256 + (0x9c : UInt8).toNat) % 31 = 0 ∧
        (0x9c : UInt8).toNat / 32 % 2 = 0 := by decide
    obtain ⟨hmethod, hwindow, hcheck, hdict⟩ := hheader
    refine ⟨hmethod, hwindow, hcheck, hdict, fun h => hn ?_, hvalid⟩
    have hzero := congrArg List.length h
    exact (List.length_replicate (n := n)).symm.trans hzero
  refine ⟨⟨n * m, ?_⟩, hexpand⟩
  rw [Inflate.inflateZlib_bytes hs hmost (adler32_lt _), if_neg (by omega), if_pos (Eq.refl _)]

def longStream : Deflate.ZlibStream := zeroBlocks 17 65535

def longBytes : Bytes := longStream.bytes (Deflate.adler32 longStream.expand)

def longChunk : Bytes := xmpKey ++ 0 :: 0 :: longBytes

end Png

end Llmx
