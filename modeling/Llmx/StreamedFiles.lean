import Llmx.StreamedRead
import Llmx.Fallible

namespace Llmx

namespace StreamedRead

open Fallible

/-- The blocks of one side of a range: those below `u` where a whole copy's image has them, and
those up to `e` nowhere. -/
def sideBelongs (i held a u e : Nat) : List Nat → Nat → List (Option (Nat × Nat))
  | [], _ => []
  | block :: sides, place =>
    ((List.range' a (e - a)).flatMap fun k =>
      if k < u then (List.range' (place + k * block) block).map fun p => some (i, p)
      else List.replicate block none) ++
        sideBelongs i held a u e sides (place + held * block)

/-- A file of blocks holds, device by device and side by side, its tokens' blocks; those the path
uses belong where the image of the whole history has them. -/
def pieceBelongs (devices : List Device) (length : Nat) (piece : Piece) :
    List (Option (Nat × Nat)) :=
  devices.zipIdx.flatMap fun d => d.1.storage.elim [] fun st =>
    sideBelongs d.2 (length / st.blockTokens) (piece.first / st.blockTokens)
      (piece.use / st.blockTokens) (piece.endTok / st.blockTokens) st.sides 0

/-- A file of a state holds what comes after each device's blocks. -/
def stateBelongs (devices : List Device) (length : Nat) : List (Option (Nat × Nat)) :=
  devices.zipIdx.flatMap fun d =>
    (List.range' (d.1.blockBytes length) d.1.stateBytes).map fun p => some (d.2, p)

def filesBelong (devices : List Device) (p : DiskPath) : List (List (Option (Nat × Nat))) :=
  p.pieces.map (pieceBelongs devices p.length) ++
    p.state.elim [] fun _ => [stateBelongs devices p.length]

section Files

variable {devices : List Device}

theorem range'_blocks (place block a n : Nat) :
    (List.range' a n).flatMap (fun k => List.range' (place + k * block) block) =
      List.range' (place + a * block) (n * block) := by
  induction n generalizing a with
  | zero =>
    rw [Nat.zero_mul]
    exact Eq.refl _
  | succ n ih =>
    rw [List.range'_succ, List.flatMap_cons, ih, Nat.succ_mul a, ← Nat.add_assoc,
      List.range'_append_1, Nat.succ_mul n, Nat.add_comm block]

theorem replicate_blocks {γ : Type} (c : γ) (block a n : Nat) :
    (List.range' a n).flatMap (fun _ => List.replicate block c) =
      List.replicate (n * block) c := by
  induction n generalizing a with
  | zero =>
    rw [Nat.zero_mul]
    exact Eq.refl _
  | succ n ih =>
    rw [List.range'_succ, List.flatMap_cons, ih, List.replicate_append_replicate, Nat.succ_mul,
      Nat.add_comm block]

/-- A side's used blocks and the rest of them, as two stretches. -/
theorem side_split (i place block a n m : Nat) :
    ((List.range' a (a + n + m - a)).flatMap fun k =>
      if k < a + n then (List.range' (place + k * block) block).map fun p => some (i, p)
      else List.replicate block none) =
    ((List.range' (place + a * block) (n * block)).map fun p => some (i, p)) ++
      List.replicate (m * block) none := by
  rw [show a + n + m - a = n + m by omega, ← List.range'_append_1, List.flatMap_append,
    ← range'_blocks, List.map_flatMap, ← replicate_blocks (none : Option (Nat × Nat)) block (a + n)]
  refine congrArg₂ (· ++ ·) (List.flatMap_congr fun k hk => ?_)
    (List.flatMap_congr fun k hk => ?_)
  · rw [if_pos (List.mem_range'_1.mp hk).2]
  · rw [if_neg (Nat.not_lt.mpr (List.mem_range'_1.mp hk).1)]

theorem laidOut_cons (s : Segment) (ss : List Segment) :
    laidOut (s :: ss) = s.belongs ++ laidOut ss := List.flatMap_cons

theorem laidOut_append (ss ss' : List Segment) :
    laidOut (ss ++ ss') = laidOut ss ++ laidOut ss' := List.flatMap_append

theorem segments_append {ranges skip : List HostRange} (h : ranges.length = skip.length)
    (ranges' skip' : List HostRange) :
    segments (ranges ++ ranges') (skip ++ skip') =
      segments ranges skip ++ segments ranges' skip' := by
  induction ranges generalizing skip with
  | nil =>
    cases skip with
    | nil => exact Eq.refl _
    | cons s skip => cases h
  | cons r ranges ih =>
    cases skip with
    | nil => cases h
    | cons s skip =>
      rw [List.cons_append, List.cons_append, segments, segments, ih (Nat.succ.inj h)]
      exact Eq.refl _

/-- What is skipped of no length changes nothing. -/
theorem laidOut_segments_nil {ranges skip : List HostRange} (h : ranges.length = skip.length)
    (hskip : ∀ s ∈ skip, s.bytes = 0) :
    laidOut (segments ranges []) = laidOut (segments ranges skip) := by
  induction ranges generalizing skip with
  | nil =>
    cases skip with
    | nil => exact Eq.refl _
    | cons s skip => cases h
  | cons r ranges ih =>
    cases skip with
    | nil => cases h
    | cons s skip =>
      have hs := hskip s List.mem_cons_self
      rw [segments, segments, laidOut_cons, laidOut_cons, laidOut_cons,
        ih (Nat.succ.inj h) fun s hs => hskip s (List.mem_cons_of_mem _ hs)]
      refine congrArg _ ?_
      show _ = (List.replicate s.bytes none) ++ _
      rw [hs]
      exact Eq.refl _

theorem laidOut_whole (ranges : List HostRange) :
    laidOut (segments ranges []) =
      ranges.flatMap fun r => (List.range' r.offset r.bytes).map fun p => some (r.device, p) := by
  induction ranges with
  | nil => exact Eq.refl _
  | cons r ranges ih =>
    rw [segments, laidOut_cons, ih, List.flatMap_cons]
    exact Eq.refl _

theorem mem_segments {ranges skip : List HostRange} {s : Segment} (hs : s ∈ segments ranges skip)
    (hsent : s.skip = false) :
    ∃ r ∈ ranges, s.device = r.device ∧ s.image = r.offset ∧ s.bytes = r.bytes := by
  induction ranges generalizing skip with
  | nil => exact absurd hs List.not_mem_nil
  | cons r ranges ih =>
    have hrest : ∀ skip, s ∈ segments ranges skip →
        ∃ r' ∈ r :: ranges, s.device = r'.device ∧ s.image = r'.offset ∧ s.bytes = r'.bytes := by
      intro skip hs
      obtain ⟨r', hr', h⟩ := ih hs
      exact ⟨r', List.mem_cons_of_mem _ hr', h⟩
    cases skip with
    | nil =>
      rcases List.mem_cons.mp hs with rfl | hs
      · exact ⟨r, List.mem_cons_self, Eq.refl _, Eq.refl _, Eq.refl _⟩
      · exact hrest [] hs
    | cons k skip =>
      rcases List.mem_cons.mp hs with rfl | hs
      · exact ⟨r, List.mem_cons_self, Eq.refl _, Eq.refl _, Eq.refl _⟩
      · rcases List.mem_cons.mp hs with rfl | hs
        · cases hsent
        · exact hrest skip hs

/-- The ranges of every device's sides. -/
def blockRanges (held skip n : BlockKVStorage → Nat) (ds : List (Device × Nat)) :
    List HostRange :=
  ds.flatMap fun d => d.1.storage.elim [] fun st =>
    sideRanges d.2 (held st) (skip st) (n st) st.sides 0

theorem sideRanges_length (i held skip n held' skip' n' : Nat) (sides : List Nat)
    (place place' : Nat) : (sideRanges i held skip n sides place).length =
      (sideRanges i held' skip' n' sides place').length := by
  induction sides generalizing place place' with
  | nil => exact Eq.refl _
  | cons block sides ih =>
    unfold sideRanges
    by_cases hblock : block = 0
    · rw [if_pos hblock, if_pos hblock]
      exact ih _ _
    · rw [if_neg hblock, if_neg hblock, List.length_cons, List.length_cons, ih]

theorem sideRanges_belongs (i held a n m held' skip' : Nat) (sides : List Nat)
    (place place' : Nat) :
    laidOut (segments (sideRanges i held a n sides place)
        (sideRanges i held' skip' m sides place')) =
      sideBelongs i held a (a + n) (a + n + m) sides place := by
  induction sides generalizing place place' with
  | nil => exact Eq.refl _
  | cons block sides ih =>
    rw [sideBelongs, side_split]
    unfold sideRanges
    by_cases hblock : block = 0
    · rw [if_pos hblock, if_pos hblock, ih, hblock]
      simp only [Nat.mul_zero, Nat.add_zero]
      exact Eq.refl _
    · rw [if_neg hblock, if_neg hblock, segments, laidOut_cons, laidOut_cons, ih,
        List.append_assoc]
      exact Eq.refl _

theorem sideRanges_inside {i held skip n place : Nat} {sides : List Nat} (h : skip + n ≤ held)
    {r : HostRange} (hr : r ∈ sideRanges i held skip n sides place) :
    r.device = i ∧ r.offset + r.bytes ≤ place + held * sides.sum := by
  induction sides generalizing place with
  | nil => exact absurd hr List.not_mem_nil
  | cons block sides ih =>
    unfold sideRanges at hr
    rw [List.sum_cons, Nat.mul_add]
    split at hr
    next hblock =>
      obtain ⟨hd, hle⟩ := ih hr
      exact ⟨hd, by omega⟩
    next =>
      rcases List.mem_cons.mp hr with rfl | hr
      · refine ⟨Eq.refl _, ?_⟩
        have hle := Nat.mul_le_mul_right block h
        rw [Nat.add_mul] at hle
        show place + skip * block + n * block ≤ _
        omega
      · obtain ⟨hd, hle⟩ := ih hr
        exact ⟨hd, by omega⟩

theorem sideRanges_zero {i held skip place : Nat} {sides : List Nat} {r : HostRange}
    (hr : r ∈ sideRanges i held skip 0 sides place) : r.bytes = 0 := by
  induction sides generalizing place with
  | nil => exact absurd hr List.not_mem_nil
  | cons block sides ih =>
    unfold sideRanges at hr
    split at hr
    next => exact ih hr
    next =>
      rcases List.mem_cons.mp hr with rfl | hr
      · exact Nat.zero_mul block
      · exact ih hr

theorem blockRanges_length (held skip n held' skip' n' : BlockKVStorage → Nat)
    (ds : List (Device × Nat)) :
    (blockRanges held skip n ds).length = (blockRanges held' skip' n' ds).length := by
  unfold blockRanges
  rw [List.length_flatMap, List.length_flatMap]
  refine congrArg List.sum (List.map_congr_left fun d _ => ?_)
  cases d.1.storage with
  | none => exact Eq.refl _
  | some st => exact sideRanges_length _ _ _ _ _ _ _ _ _ _

theorem blockRanges_belongs (held a n m held' skip' : BlockKVStorage → Nat)
    (ds : List (Device × Nat)) :
    laidOut (segments (blockRanges held a n ds) (blockRanges held' skip' m ds)) =
      ds.flatMap fun d => d.1.storage.elim [] fun st =>
        sideBelongs d.2 (held st) (a st) (a st + n st) (a st + n st + m st) st.sides 0 := by
  induction ds with
  | nil => exact Eq.refl _
  | cons d ds ih =>
    have hcons : ∀ held skip n, blockRanges held skip n (d :: ds) =
        blockRanges held skip n [d] ++ blockRanges held skip n ds := by
      intro held skip n
      unfold blockRanges
      rw [List.flatMap_cons, List.flatMap_singleton]
    rw [hcons held, hcons held', segments_append (blockRanges_length _ _ _ _ _ _ _),
      laidOut_append, ih, List.flatMap_cons]
    refine congrArg (· ++ _) ?_
    unfold blockRanges
    rw [List.flatMap_singleton, List.flatMap_singleton]
    cases d.1.storage with
    | none => exact Eq.refl _
    | some st => exact sideRanges_belongs _ _ _ _ _ _ _ _ _ _

theorem sides_sum (st : BlockKVStorage) : st.sides.sum = st.totalBlockBytes := by
  unfold BlockKVStorage.sides BlockKVStorage.totalBlockBytes
  induction st.auxiliaryBlockBytes with
  | nil => simp
  | cons auxiliary rest ih =>
    rw [List.flatMap_cons, List.sum_append, ih, List.length_cons, List.sum_cons, Nat.succ_mul]
    simp only [List.sum_cons, List.sum_nil]
    omega

end Files

section Stream

variable {devices : List Device} {into : RestoreInto}

/-- A path's files as its index keeps them: used from their start on, in whole blocks of every
device. -/
structure Laid (devices : List Device) (p : DiskPath) : Prop where
  used : ∀ piece ∈ p.pieces,
    piece.first < piece.use ∧ piece.use ≤ piece.endTok ∧ piece.use ≤ p.length
  whole : ∀ piece ∈ p.pieces, ∀ d ∈ devices, ∀ st ∈ d.storage, st.blockTokens ∣ piece.first ∧
    st.blockTokens ∣ piece.use ∧ st.blockTokens ∣ piece.endTok

/-- A restore's runs cut each device's image of `length` tokens. -/
def Cut (devices : List Device) (length : Nat) (runs : List (List Run)) : Prop :=
  runs.map total = hostCopyBytes devices length

theorem hostRanges_some {length first stop : Nat} (hlt : first < stop) (hle : stop ≤ length)
    (hwhole : ∀ d ∈ devices, ∀ st ∈ d.storage, st.blockTokens ∣ first ∧ st.blockTokens ∣ stop) :
    hostRanges devices (hostLayout devices length) first stop =
      some (blockRanges (fun st => length / st.blockTokens) (fun st => first / st.blockTokens)
        (fun st => (stop - first) / st.blockTokens) devices.zipIdx) := by
  have heach : ∀ d ∈ devices.zipIdx, deviceRanges (hostLayout devices length) first stop d.2 d.1 =
      some (d.1.storage.elim [] fun st => sideRanges d.2 (length / st.blockTokens)
        (first / st.blockTokens) ((stop - first) / st.blockTokens) st.sides 0) := by
    intro d hd
    have hmem : d.1 ∈ devices := List.fst_mem_of_mem_zipIdx hd
    unfold deviceRanges
    cases hst : d.1.storage with
    | none => exact Eq.refl _
    | some st =>
      obtain ⟨hfirst, hstop⟩ := hwhole d.1 hmem st hst
      dsimp only
      rw [if_neg (by
        rw [Nat.mod_eq_zero_of_dvd hfirst, Nat.mod_eq_zero_of_dvd hstop]
        exact fun h => h.elim (fun h => h (Eq.refl _)) fun h => h (Eq.refl _))]
      exact Eq.refl _
  unfold hostRanges
  rw [if_neg (by
      show ¬ (true = false ∨ first < 0 ∨ stop ≤ first ∨ length < stop)
      simp only [Bool.true_eq_false, false_or]
      omega), mapM_some heach]
  exact Eq.refl _

theorem cut_runs {length : Nat} (hcut : Cut devices length into.runs) {d : Device} {i : Nat}
    (hd : (d, i) ∈ devices.zipIdx) : ∃ rs, into.runs[i]? = some rs ∧
      total rs = d.blockBytes length + d.stateBytes := by
  have hget := congrArg (fun l => l[i]?) hcut
  have hdevice : devices[i]? = some d := List.mk_mem_zipIdx_iff_getElem?.mp hd
  unfold hostCopyBytes at hget
  rw [List.getElem?_map, List.getElem?_map, hdevice] at hget
  cases hrs : into.runs[i]? with
  | none =>
    rw [hrs] at hget
    cases hget
  | some rs =>
    rw [hrs] at hget
    exact ⟨rs, Eq.refl _, Option.some.inj hget⟩

theorem file_fits {key : Nat} {image : HostHistory} {ranges skip : List HostRange}
    (hinside : ∀ r ∈ ranges, ∃ rs, into.runs[r.device]? = some rs ∧
      r.offset + r.bytes ≤ total rs) : (file key image ranges skip).Fits into where
  inside := by
    intro s hs hsent
    obtain ⟨r, hr, hdevice, himage, hbytes⟩ := mem_segments hs hsent
    rw [hdevice, himage, hbytes]
    exact hinside r hr
  payload := (laidOut_length _).symm

theorem pieceFile_some {image : HostHistory} {piece : Piece} {ranges rest : List HostRange}
    (hrest : pieceRest devices piece = some rest)
    (hranges : hostRanges devices image piece.first piece.use = some ranges) :
    pieceFile devices image piece = some (file piece.key image ranges rest) := by
  unfold pieceFile
  rw [hrest, hranges]
  exact Eq.refl _

/-- A file of the path is read as what it holds. -/
theorem pieceFile_belongs {p : DiskPath} (hlaid : Laid devices p)
    (hcut : Cut devices p.length into.runs) {piece : Piece} (hpiece : piece ∈ p.pieces) :
    ∃ f, pieceFile devices (hostLayout devices p.length) piece = some f ∧ f.Fits into ∧
      laidOut f.segments = pieceBelongs devices p.length piece := by
  obtain ⟨hlt, hle, hlength⟩ := hlaid.used piece hpiece
  have hwhole := hlaid.whole piece hpiece
  have hranges := hostRanges_some hlt hlength fun d hd st hst =>
    ⟨(hwhole d hd st hst).1, (hwhole d hd st hst).2.1⟩
  have hdivide : ∀ d ∈ devices, ∀ st ∈ d.storage,
      piece.first / st.blockTokens + (piece.use - piece.first) / st.blockTokens =
          piece.use / st.blockTokens ∧
        piece.use / st.blockTokens + (piece.endTok - piece.use) / st.blockTokens =
          piece.endTok / st.blockTokens := by
    intro d hd st hst
    obtain ⟨⟨a, ha⟩, ⟨u, hu⟩, ⟨e, he⟩⟩ := hwhole d hd st hst
    have hpos := st.pos
    rw [ha, hu] at hlt
    rw [hu, he] at hle
    rw [ha, hu, he, ← Nat.mul_sub, ← Nat.mul_sub, Nat.mul_div_cancel_left _ hpos,
      Nat.mul_div_cancel_left _ hpos, Nat.mul_div_cancel_left _ hpos,
      Nat.mul_div_cancel_left _ hpos, Nat.mul_div_cancel_left _ hpos]
    have h₁ := Nat.lt_of_mul_lt_mul_left hlt
    have h₂ := Nat.le_of_mul_le_mul_left hle hpos
    omega
  have hbelongs : ∀ held' skip', laidOut (segments
      (blockRanges (fun st => p.length / st.blockTokens) (fun st => piece.first / st.blockTokens)
        (fun st => (piece.use - piece.first) / st.blockTokens) devices.zipIdx)
      (blockRanges held' skip' (fun st => (piece.endTok - piece.use) / st.blockTokens)
        devices.zipIdx)) = pieceBelongs devices p.length piece := by
    intro held' skip'
    rw [blockRanges_belongs]
    refine List.flatMap_congr fun d hd => ?_
    cases hst : d.1.storage with
    | none => exact Eq.refl _
    | some st =>
      obtain ⟨huse, hend⟩ := hdivide d.1 (List.fst_mem_of_mem_zipIdx hd) st hst
      show sideBelongs _ _ _ _ _ _ _ = sideBelongs _ _ _ _ _ _ _
      rw [huse, hend]
  have hinside : ∀ r ∈ blockRanges (fun st => p.length / st.blockTokens)
      (fun st => piece.first / st.blockTokens)
      (fun st => (piece.use - piece.first) / st.blockTokens) devices.zipIdx,
      ∃ rs, into.runs[r.device]? = some rs ∧ r.offset + r.bytes ≤ total rs := by
    intro r hr
    obtain ⟨d, hd, hr⟩ := List.mem_flatMap.mp hr
    obtain ⟨rs, hrs, htotal⟩ := cut_runs hcut hd
    cases hst : d.1.storage with
    | none =>
      rw [hst] at hr
      exact absurd hr List.not_mem_nil
    | some st =>
      rw [hst] at hr
      obtain ⟨huse, -⟩ := hdivide d.1 (List.fst_mem_of_mem_zipIdx hd) st hst
      have hheld := Nat.div_le_div_right (c := st.blockTokens) hlength
      rw [← huse] at hheld
      obtain ⟨hdevice, hin⟩ := sideRanges_inside hheld hr
      refine ⟨rs, by rw [hdevice]; exact hrs, ?_⟩
      rw [Nat.zero_add, sides_sum] at hin
      rw [htotal]
      unfold Device.blockBytes
      rw [hst]
      exact Nat.le_add_right_of_le hin
  by_cases hpart : piece.use < piece.endTok
  · have hrest := hostRanges_some hpart (Nat.le_refl piece.endTok)
      fun d hd st hst => (hwhole d hd st hst).2
    have hfile := pieceFile_some ((if_pos hpart).trans hrest) hranges
    exact ⟨_, hfile, file_fits hinside, hbelongs _ _⟩
  · have hnone : piece.endTok - piece.use = 0 := by omega
    have hfile := pieceFile_some (if_neg hpart) hranges
    refine ⟨_, hfile, file_fits hinside, ?_⟩
    rw [← hbelongs (fun _ => 0) fun _ => 0]
    apply laidOut_segments_nil (blockRanges_length _ _ _ _ _ _ _)
    intro s hs
    obtain ⟨d, hd, hs⟩ := List.mem_flatMap.mp hs
    cases hst : d.1.storage with
    | none =>
      rw [hst] at hs
      exact absurd hs List.not_mem_nil
    | some st =>
      rw [hst] at hs
      have hs : s ∈ sideRanges d.2 0 0 ((piece.endTok - piece.use) / st.blockTokens) st.sides 0 :=
        hs
      rw [hnone, Nat.zero_div] at hs
      exact sideRanges_zero hs

/-- A state's file is read as what it holds. -/
theorem stateFile_belongs {length : Nat} (key : Nat) (hcut : Cut devices length into.runs) :
    ∃ ranges, hostStateRanges devices (hostLayout devices length) = some ranges ∧
      (file key (hostLayout devices length) ranges []).Fits into ∧
      laidOut (file key (hostLayout devices length) ranges []).segments =
        stateBelongs devices length := by
  have hbytes : ∀ d ∈ devices.zipIdx, (hostLayout devices length).deviceBytes.getD d.2 0 =
      d.1.blockBytes length + d.1.stateBytes := by
    intro d hd
    have hdevice : devices[d.2]? = some d.1 := List.mem_zipIdx_iff_getElem?.mp hd
    show (hostCopyBytes devices length).getD d.2 0 = _
    unfold hostCopyBytes
    rw [List.getD_eq_getElem?_getD, List.getElem?_map, hdevice]
    exact Eq.refl _
  have hranges : hostStateRanges devices (hostLayout devices length) =
      some (devices.zipIdx.flatMap fun d =>
        if 0 < d.1.stateBytes then [⟨d.2, d.1.blockBytes length, d.1.stateBytes⟩] else []) := by
    refine congrArg some (List.flatMap_congr fun d hd => ?_)
    dsimp only
    rw [hbytes d hd]
    show (if d.1.blockBytes length < d.1.blockBytes length + d.1.stateBytes then
      [HostRange.mk d.2 (d.1.blockBytes length)
        (d.1.blockBytes length + d.1.stateBytes - d.1.blockBytes length)] else []) = _
    rw [Nat.add_sub_cancel_left]
    by_cases hstate : 0 < d.1.stateBytes
    · rw [if_pos (by omega), if_pos hstate]
    · rw [if_neg (by omega), if_neg hstate]
  refine ⟨_, hranges, file_fits fun r hr => ?_, ?_⟩
  · obtain ⟨d, hd, hr⟩ := List.mem_flatMap.mp hr
    obtain ⟨rs, hrs, htotal⟩ := cut_runs hcut hd
    split at hr
    next =>
      obtain rfl := List.mem_singleton.mp hr
      exact ⟨rs, hrs, Nat.le_of_eq htotal.symm⟩
    next => exact absurd hr List.not_mem_nil
  · show laidOut (segments _ []) = _
    rw [laidOut_whole, List.flatMap_assoc]
    refine List.flatMap_congr fun d hd => ?_
    by_cases hstate : 0 < d.1.stateBytes
    · rw [if_pos hstate, List.flatMap_singleton]
    · rw [if_neg hstate, Nat.eq_zero_of_not_pos hstate]
      exact Eq.refl _

theorem stream_files {p : DiskPath} (hlaid : Laid devices p)
    (hcut : Cut devices p.length into.runs) :
    ∃ files, stream devices p = some files ∧ (∀ f ∈ files, f.Fits into) ∧
      files.map (fun f => laidOut f.segments) = filesBelong devices p := by
  have hpieces : ∀ pieces : List Piece, (∀ piece ∈ pieces, piece ∈ p.pieces) →
      ∃ files, pieces.mapM (pieceFile devices (hostLayout devices p.length)) = some files ∧
        (∀ f ∈ files, f.Fits into) ∧ files.map (fun f => laidOut f.segments) =
          pieces.map (pieceBelongs devices p.length) := by
    intro pieces hsub
    induction pieces with
    | nil => exact ⟨[], Eq.refl _, fun f hf => absurd hf List.not_mem_nil, Eq.refl _⟩
    | cons piece pieces ih =>
      obtain ⟨f, hf, hfits, hbelongs⟩ := pieceFile_belongs hlaid hcut (hsub piece
        List.mem_cons_self)
      obtain ⟨files, hfiles, hall, hmap⟩ := ih fun q hq => hsub q (List.mem_cons_of_mem _ hq)
      refine ⟨f :: files, ?_, ?_, ?_⟩
      · rw [List.mapM_cons, hf, hfiles]
        exact Eq.refl _
      · intro g hg
        rcases List.mem_cons.mp hg with rfl | hg
        · exact hfits
        · exact hall g hg
      · rw [List.map_cons, List.map_cons, hbelongs, hmap]
  obtain ⟨files, hfiles, hall, hmap⟩ := hpieces p.pieces fun _ h => h
  unfold stream filesBelong
  dsimp only
  rw [hfiles, Option.bind_eq_bind, Option.bind_some]
  cases hstate : p.state with
  | none =>
    refine ⟨files, Eq.refl _, hall, ?_⟩
    rw [hmap]
    exact (List.append_nil _).symm
  | some key =>
    obtain ⟨ranges, hranges, hfits, hbelongs⟩ := stateFile_belongs key hcut
    dsimp only
    rw [hranges]
    refine ⟨_, Eq.refl _, ?_, ?_⟩
    · intro f hf
      rcases List.mem_append.mp hf with hf | hf
      · exact hall f hf
      · rw [List.mem_singleton.mp hf]
        exact hfits
    · rw [List.map_append, hmap, List.map_singleton, hbelongs]
      exact Eq.refl _

end Stream

end StreamedRead

end Llmx
