import Llmx.StreamedFiles

namespace Llmx

namespace StreamedRead

open Fallible

/-- Whether a copy goes to host memory. -/
def Move.toHost (m : Move) : Bool :=
  match m.how with
  | .memcpy _ => true
  | .copy _ => false
  | .write _ => false

/-- A chunk's copies as they are deferred: those to host memory, and each of `n` devices' own. -/
def split (n : Nat) (moves : List Move) : Parts where
  host := moves.filter Move.toHost
  items := ((List.range n).map fun d =>
    (d, moves.filter fun m => m.device = d && !m.toHost)).filter fun l => !l.2.isEmpty

section Deferring

variable {into : RestoreInto} {slot : Nat}

def Move.deferred (m : Move) : Put := ⟨m.run, m.off, m.inSlot, m.bytes, m.src⟩

def enter (st : Deferred) (m : Move) : Deferred :=
  if m.toHost then { st with host := st.host ++ [m] }
  else { st with puts := st.puts.modify m.device (· ++ [m.deferred]) }

theorem onDevice_toHost (d r off place slot inSlot src bytes : Nat) (run : Run) :
    (Move.mk d r off place (onDevice into d run) slot inSlot src bytes).toHost = false := by
  unfold Move.toHost onDevice
  split
  next => split at * <;> simp_all
  next => exact Eq.refl _
  next => exact Eq.refl _

theorem deferRuns_eq (into : RestoreInto) (d slot : Nat) (rs : List (Run × Nat))
    (r image src inSlot n : Nat) (st : Deferred) :
    deferRuns d slot rs r image src inSlot n st =
      (putRuns into d slot rs r image src inSlot n).map fun moves => moves.foldl enter st := by
  induction rs generalizing r image src inSlot n st with
  | nil =>
    unfold deferRuns putRuns
    split
    next => exact Eq.refl _
    next => exact Eq.refl _
  | cons rs rest ih =>
    obtain ⟨run, start⟩ := rs
    unfold deferRuns putRuns
    by_cases hzero : n = 0
    · rw [if_pos hzero, if_pos hzero]
      exact Eq.refl _
    · rw [if_neg hzero, if_neg hzero]
      dsimp only
      rw [ih, Option.map_map]
      refine congrArg (Option.map · _) ?_
      funext moves
      show _ = List.foldl enter (enter st _) moves
      refine congrArg (List.foldl enter · moves) ?_
      unfold how
      cases run.host with
      | some host => exact Eq.refl _
      | none =>
        unfold enter
        rw [onDevice_toHost, if_neg Bool.false_ne_true]
        exact Eq.refl _

theorem deferPut_eq (into : RestoreInto) (d image src slot inSlot n : Nat) (st : Deferred) :
    deferPut into d image src slot inSlot n st =
      (put into d image src slot inSlot n).map fun moves => moves.foldl enter st := by
  unfold deferPut put
  cases into.runs[d]? with
  | none => exact Eq.refl _
  | some runs =>
    show Option.bind (firstRun (startsFrom 0 runs) image) _ =
      Option.map _ (Option.bind (firstRun (startsFrom 0 runs) image) _)
    cases firstRun (startsFrom 0 runs) image with
    | none => exact Eq.refl _
    | some r => exact deferRuns_eq into d slot _ r image src inSlot n st

theorem deferSegment_eq (into : RestoreInto) (start stop slot : Nat) (s : Segment) (place : Nat)
    (st : Deferred) :
    deferSegment into start stop slot s place st =
      (sendSegment into start stop slot s place).map fun moves => moves.foldl enter st := by
  unfold deferSegment sendSegment
  dsimp only
  split
  next => exact deferPut_eq ..
  next => exact Eq.refl _

theorem deferSegments_eq (into : RestoreInto) (start stop slot : Nat) (ss : List Segment)
    (place : Nat) (st : Deferred) :
    deferSegments into start stop slot ss place st =
      (sendSegments into start stop slot ss place).map fun moves => moves.foldl enter st := by
  induction ss generalizing place st with
  | nil => exact Eq.refl _
  | cons s ss ih =>
    unfold deferSegments sendSegments
    rw [deferSegment_eq]
    generalize sendSegment into start stop slot s place = now
    cases now with
    | none => exact Eq.refl _
    | some now =>
      show deferSegments into start stop slot ss (place + s.bytes) (now.foldl enter st) = _
      rw [ih]
      show _ = Option.map _ ((sendSegments into start stop slot ss (place + s.bytes)).bind _)
      cases sendSegments into start stop slot ss (place + s.bytes) with
      | none => exact Eq.refl _
      | some rest => exact congrArg some (List.foldl_append).symm

theorem foldl_enter_host (moves : List Move) (st : Deferred) :
    (moves.foldl enter st).host = st.host ++ moves.filter Move.toHost := by
  induction moves generalizing st with
  | nil => exact (List.append_nil _).symm
  | cons m moves ih =>
    rw [List.foldl_cons, ih, List.filter_cons]
    unfold enter
    split
    next => exact List.append_assoc ..
    next => exact Eq.refl _

theorem foldl_enter_puts (moves : List Move) (st : Deferred) (d : Nat) :
    (moves.foldl enter st).puts[d]? = st.puts[d]?.map fun l =>
      l ++ (moves.filter fun m => m.device = d && !m.toHost).map Move.deferred := by
  induction moves generalizing st with
  | nil =>
    show st.puts[d]? = st.puts[d]?.map fun l => l ++ []
    simp
  | cons m moves ih =>
    rw [List.foldl_cons, ih, List.filter_cons]
    by_cases hhost : m.toHost = true
    · have henter : (enter st m).puts = st.puts := by
        unfold enter
        rw [if_pos hhost]
      rw [henter, hhost, Bool.not_true, Bool.and_false, if_neg Bool.false_ne_true]
    · have henter : (enter st m).puts = st.puts.modify m.device (· ++ [m.deferred]) := by
        unfold enter
        rw [if_neg hhost]
      rw [henter, List.getElem?_modify, eq_false_of_ne_true hhost, Bool.not_false, Bool.and_true,
        Option.map_eq_map, Option.map_map]
      refine congrArg (Option.map · _) ?_
      funext l
      by_cases hd : m.device = d
      · rw [if_pos (decide_eq_true hd), List.map_cons]
        show (if m.device = d then _ else _) ++ _ = _
        rw [if_pos hd, List.append_assoc]
        exact Eq.refl _
      · rw [if_neg (fun h => hd (of_decide_eq_true h))]
        show (if m.device = d then _ else _) ++ _ = _
        rw [if_neg hd]

/-- A copy says of its run what the run says. -/
def Honest (into : RestoreInto) (slot : Nat) (m : Move) : Prop :=
  ∃ rs run, into.runs[m.device]? = some rs ∧ rs[m.run]? = some run ∧
    m.place = run.offset + m.off ∧ m.how = how into m.device run ∧ m.slot = slot

theorem putRuns_honest {d : Nat} {rs : List Run} (hrs : into.runs[d]? = some rs)
    {zs : List (Run × Nat)} {r image src inSlot n : Nat}
    (hzs : ∀ j run start, zs[j]? = some (run, start) → rs[r + j]? = some run) {moves : List Move}
    (h : putRuns into d slot zs r image src inSlot n = some moves) :
    ∀ m ∈ moves, Honest into slot m := by
  induction zs generalizing r image src inSlot n moves with
  | nil =>
    unfold putRuns at h
    split at h
    next =>
      cases h
      exact fun m hm => absurd hm List.not_mem_nil
    next => cases h
  | cons z zs ih =>
    obtain ⟨run, start⟩ := z
    unfold putRuns at h
    split at h
    next =>
      cases h
      exact fun m hm => absurd hm List.not_mem_nil
    next =>
      dsimp only at h
      obtain ⟨rest, hrest, rfl⟩ := Option.map_eq_some_iff.mp h
      intro m hm
      rcases List.mem_cons.mp hm with rfl | hm
      · exact ⟨rs, run, hrs, hzs 0 run start (Eq.refl _), Eq.refl _, Eq.refl _, Eq.refl _⟩
      · refine ih (fun j run start hj => ?_) hrest m hm
        rw [Nat.add_assoc, Nat.add_comm 1 j]
        exact hzs (j + 1) run start hj

theorem put_honest {d image src inSlot n : Nat} {moves : List Move}
    (h : put into d image src slot inSlot n = some moves) : ∀ m ∈ moves, Honest into slot m := by
  unfold put at h
  obtain ⟨rs, hrs, h⟩ := Option.bind_eq_some_iff.mp h
  dsimp only at h
  obtain ⟨r, hr, h⟩ := Option.bind_eq_some_iff.mp h
  refine putRuns_honest hrs (fun j run start hj => ?_) h
  rw [List.getElem?_drop, List.getElem?_zip_eq_some] at hj
  exact hj.1

theorem sendSegments_honest {start stop place : Nat} {ss : List Segment} {moves : List Move}
    (h : sendSegments into start stop slot ss place = some moves) :
    ∀ m ∈ moves, Honest into slot m := by
  induction ss generalizing place moves with
  | nil =>
    cases h
    exact fun m hm => absurd hm List.not_mem_nil
  | cons s ss ih =>
    unfold sendSegments at h
    obtain ⟨now, hnow, h⟩ := Option.bind_eq_some_iff.mp h
    obtain ⟨rest, hrest, h⟩ := Option.bind_eq_some_iff.mp h
    obtain rfl := Option.some.inj h
    intro m hm
    rcases List.mem_append.mp hm with hm | hm
    · unfold sendSegment at hnow
      dsimp only at hnow
      split at hnow
      next => exact put_honest hnow m hm
      next =>
        cases hnow
        exact absurd hm List.not_mem_nil
    · exact ih hrest m hm

theorem runItem_deferred {d : Nat} {moves : List Move}
    (h : ∀ m ∈ moves, Honest into slot m ∧ m.device = d ∧ m.toHost = false) :
    runItem into d slot (moves.map Move.deferred) = some moves := by
  unfold runItem
  induction moves with
  | nil => exact Eq.refl _
  | cons m moves ih =>
    obtain ⟨⟨rs, run, hrs, hrun, hplace, hhow, hslot⟩, hd, hhost⟩ := h m List.mem_cons_self
    obtain ⟨device, r, off, place, how', slot', inSlot, src, bytes⟩ := m
    dsimp only at hrs hrun hplace hhow hslot hd
    subst hd hslot hplace
    have hon : how into device run = onDevice into device run := by
      unfold how
      cases hhost' : run.host with
      | none => exact Eq.refl _
      | some host =>
        subst hhow
        unfold Move.toHost how at hhost
        rw [hhost'] at hhost
        cases hhost
    rw [hon] at hhow
    subst hhow
    rw [List.map_cons, List.mapM_cons, ih fun m hm => h m (List.mem_cons_of_mem _ hm)]
    show (Option.bind (Option.bind into.runs[device]? _) _) = _
    rw [hrs]
    show (Option.bind (Option.bind rs[r]? _) _) = _
    rw [hrun]
    exact Eq.refl _

/-- A chunk's deferred send makes the immediate one's copies: those to host memory in their order,
each device's in theirs. -/
theorem sendDeferred_split {chunk : Nat} {files : List File} {c : Chunk} {moves : List Move}
    (h : send into chunk files c slot = some moves) :
    sendDeferred into chunk files c slot = some (split into.runs.length moves) := by
  unfold send at h
  unfold sendDeferred
  obtain ⟨f, hf, h⟩ := Option.bind_eq_some_iff.mp h
  dsimp only at h
  rw [hf, Option.bind_eq_bind, Option.bind_some]
  dsimp only
  rw [deferSegments_eq, h, Option.map_some]
  have hhonest := sendSegments_honest h
  have hputs : (moves.foldl enter ⟨[], into.runs.map fun _ => []⟩).puts =
      (List.range into.runs.length).map fun d =>
        (moves.filter fun m => m.device = d && !m.toHost).map Move.deferred := by
    apply List.ext_getElem?
    intro d
    rw [foldl_enter_puts, List.getElem?_map, List.getElem?_map]
    by_cases hd : d < into.runs.length
    · rw [List.getElem?_eq_getElem hd, List.getElem?_range hd]
      exact Eq.refl _
    · rw [List.getElem?_eq_none (Nat.le_of_not_lt hd),
        List.getElem?_eq_none (by rw [List.length_range]; omega)]
      exact Eq.refl _
  have hhost := foldl_enter_host moves ⟨[], into.runs.map fun _ => []⟩
  rw [List.nil_append] at hhost
  have hindexed : ((List.range into.runs.length).map fun d =>
      (moves.filter fun m => m.device = d && !m.toHost).map Move.deferred).zipIdx =
        (List.range into.runs.length).map fun d =>
          ((moves.filter fun m => m.device = d && !m.toHost).map Move.deferred, d) := by
    apply List.ext_getElem?
    intro d
    rw [List.getElem?_zipIdx, List.getElem?_map, List.getElem?_map]
    by_cases hd : d < into.runs.length
    · rw [List.getElem?_range hd, Nat.zero_add]
      exact Eq.refl _
    · rw [List.getElem?_eq_none (by rw [List.length_range]; omega)]
      exact Eq.refl _
  have hitems : ∀ l ∈ (((List.range into.runs.length).map fun d =>
      ((moves.filter fun m => m.device = d && !m.toHost).map Move.deferred, d)).filter
        fun l => !l.1.isEmpty),
      (runItem into l.2 slot l.1).map (fun ms => (l.2, ms)) =
        some (l.2, moves.filter fun m => m.device = l.2 && !m.toHost) := by
    intro l hl
    obtain ⟨d, -, rfl⟩ := List.mem_map.mp (List.mem_of_mem_filter hl)
    dsimp only
    rw [runItem_deferred fun m hm => ?_, Option.map_some]
    obtain ⟨hm, hkind⟩ := List.mem_filter.mp hm
    obtain ⟨hd, hhost⟩ := Bool.and_eq_true_iff.mp hkind
    exact ⟨hhonest m hm, of_decide_eq_true hd, Bool.not_eq_true' _ |>.mp hhost⟩
  show Option.bind (List.mapM _ (List.filter _ (List.zipIdx _))) _ = _
  rw [hputs, hindexed, mapM_some hitems, Option.bind_some, hhost]
  unfold split
  rw [List.filter_map, List.filter_map, List.map_map]
  refine congrArg some (congrArg (Parts.mk _) ?_)
  refine congrArg (List.map _) (List.filter_congr fun d _ => ?_)
  show (!List.isEmpty (List.map _ _)) = !List.isEmpty _
  rw [List.isEmpty_map]

end Deferring

section Placing

variable {devices : List Device} {p : DiskPath} {into : RestoreInto}

/-- The bytes a path uses of its files' payloads, in their order. -/
def usedBytes (devices : List Device) (p : DiskPath) : List (Nat × Nat) :=
  (filesBelong devices p).zipIdx.flatMap fun w =>
    ((List.range w.1.length).filter fun q => w.1[q]?.join.isSome).map fun q => (w.2, q)

/-- A byte goes to the run that holds its place in the device's image, at its offset there. -/
def Placed (devices : List Device) (p : DiskPath) (runs : List (List Run)) (s : Spot) : Prop :=
  ∃ belongs image rs run, (filesBelong devices p)[s.file]? = some belongs ∧
    belongs[s.payload]? = some (some (s.device, image)) ∧ runs[s.device]? = some rs ∧
      rs[s.run]? = some run ∧ s.off < run.bytes ∧ total (rs.take s.run) + s.off = image

theorem holder_spec {runs : List Run} {image : Nat} (r : Nat) (himage : image < total runs) :
    ∃ k run, (holder runs r image).1 = r + k ∧ runs[k]? = some run ∧
      (holder runs r image).2 < run.bytes ∧
        total (runs.take k) + (holder runs r image).2 = image := by
  induction runs generalizing r image with
  | nil => exact absurd himage (Nat.not_lt_zero _)
  | cons run runs ih =>
    rw [holder]
    by_cases hlt : image < run.bytes
    · rw [if_pos hlt]
      exact ⟨0, run, Eq.refl _, Eq.refl _, hlt, Nat.zero_add _⟩
    · rw [if_neg hlt]
      rw [total_cons] at himage
      obtain ⟨k, run', hk, hrun, hoff, himage'⟩ := ih (r + 1)
        (show image - run.bytes < total runs by omega)
      refine ⟨k + 1, run', by omega, hrun, hoff, ?_⟩
      rw [List.take_succ_cons, total_cons]
      omega

theorem Inside.belongs {s : Segment} (hs : Inside into s) {d image : Nat}
    (h : some (d, image) ∈ s.belongs) : ∃ rs, into.runs[d]? = some rs ∧ image < total rs := by
  unfold Segment.belongs at h
  split at h
  next => cases List.eq_of_mem_replicate h
  next hsent =>
    obtain ⟨rs, hrs, hle⟩ := hs (eq_false_of_ne_true hsent)
    obtain ⟨q, hq, heq⟩ := List.mem_map.mp h
    cases heq
    have hlt := (List.mem_range'_1.mp hq).2
    exact ⟨rs, hrs, by omega⟩

theorem File.Fits.belongs {f : File} (hf : f.Fits into) {d image : Nat}
    (h : some (d, image) ∈ laidOut f.segments) :
    ∃ rs, into.runs[d]? = some rs ∧ image < total rs := by
  obtain ⟨s, hs, h⟩ := List.mem_flatMap.mp h
  exact (hf.inside s hs).belongs h

/-- What is wanted of a byte is its place, where a path uses it, and nothing elsewhere. -/
theorem wantedAt_cases {f q : Nat} {belongs : List (Option (Nat × Nat))}
    (hin : ∀ d image, some (d, image) ∈ belongs →
      ∃ rs, into.runs[d]? = some rs ∧ image < total rs) :
    (wantedAt into.runs f belongs q = none ∧ belongs[q]?.join.isSome = false) ∨
      ∃ s image rs run, wantedAt into.runs f belongs q = some s ∧
        belongs[q]?.join.isSome = true ∧ s.file = f ∧ s.payload = q ∧
          belongs[q]? = some (some (s.device, image)) ∧ into.runs[s.device]? = some rs ∧
            rs[s.run]? = some run ∧ s.off < run.bytes ∧
              total (rs.take s.run) + s.off = image := by
  unfold wantedAt
  cases hq : belongs[q]? with
  | none => exact .inl ⟨Eq.refl _, Eq.refl _⟩
  | some belong =>
    cases belong with
    | none => exact .inl ⟨Eq.refl _, Eq.refl _⟩
    | some dp =>
      obtain ⟨d, image⟩ := dp
      obtain ⟨rs, hrs, himage⟩ := hin d image (List.mem_of_getElem? hq)
      obtain ⟨k, run, hk, hrun, hoff, hplace⟩ := holder_spec 0 himage
      rw [Nat.zero_add] at hk
      refine .inr ⟨⟨f, q, d, (holder rs 0 image).1, (holder rs 0 image).2⟩, image, rs, run, ?_,
        Eq.refl _, Eq.refl _, Eq.refl _, Eq.refl _, hrs, ?_, hoff, ?_⟩
      · show into.runs[d]?.map _ = _
        rw [hrs]
        exact Eq.refl _
      · rw [hk]
        exact hrun
      · rw [hk]
        exact hplace

theorem wantedAt_used {f : Nat} {belongs : List (Option (Nat × Nat))}
    (hin : ∀ d image, some (d, image) ∈ belongs →
      ∃ rs, into.runs[d]? = some rs ∧ image < total rs) (qs : List Nat) :
    (qs.filterMap (wantedAt into.runs f belongs)).map (fun s => (s.file, s.payload)) =
      (qs.filter fun q => belongs[q]?.join.isSome).map fun q => (f, q) := by
  induction qs with
  | nil => exact Eq.refl _
  | cons q qs ih =>
    rw [List.filterMap_cons, List.filter_cons]
    rcases wantedAt_cases (f := f) (q := q) hin with ⟨hnone, hunused⟩ |
      ⟨s, image, rs, run, hsome, hused, hfile, hpayload, -⟩
    · rw [hnone, hunused, if_neg Bool.false_ne_true]
      exact ih
    · rw [hsome, hused, if_pos (Eq.refl true)]
      show (s.file, s.payload) :: _ = (f, q) :: _
      rw [ih, hfile, hpayload]

end Placing

/-- A streamed restore's copies, made at once or deferred, move each used byte once to where the
image has it, and no other byte. -/
theorem stream_restores {devices : List Device} {p : DiskPath} {into : RestoreInto} {chunk : Nat}
    (hlaid : Laid devices p) (hcut : Cut devices p.length into.runs) (hchunk : 0 < chunk)
    (slots : Nat → Nat) :
    ∃ files sent, stream devices p = some files ∧
      sendAll into chunk hchunk files slots = some sent ∧
        (spots chunk (chunksOf chunk hchunk files) sent).map (fun s => (s.file, s.payload)) =
            usedBytes devices p ∧
          (∀ s ∈ spots chunk (chunksOf chunk hchunk files) sent, Placed devices p into.runs s) ∧
            sendAllDeferred into chunk hchunk files slots =
              some (sent.map (split into.runs.length)) := by
  obtain ⟨files, hfiles, hfits, hbelongs⟩ := stream_files hlaid hcut
  obtain ⟨sent, hsent, hspots⟩ := sendAll_spots hchunk hfits slots
  have hin : ∀ f ∈ files.zipIdx, ∀ d image, some (d, image) ∈ laidOut f.1.segments →
      ∃ rs, into.runs[d]? = some rs ∧ image < total rs :=
    fun f hf d image h => (hfits f.1 (List.fst_mem_of_mem_zipIdx hf)).belongs h
  refine ⟨files, sent, hfiles, hsent, ?_, fun s hs => ?_,
    mapM_after (fun c ms h => sendDeferred_split h) hsent⟩
  · rw [hspots, List.map_flatMap, usedBytes, ← hbelongs, List.zipIdx_map, List.flatMap_map]
    refine List.flatMap_congr fun f hf => ?_
    rw [wantedAt_used (hin f hf), (hfits f.1 (List.fst_mem_of_mem_zipIdx hf)).payload]
    unfold stretch
    rw [Nat.sub_zero, ← List.range_eq_range']
    exact Eq.refl _
  · rw [hspots] at hs
    obtain ⟨f, hf, hs⟩ := List.mem_flatMap.mp hs
    obtain ⟨q, -, hq⟩ := List.mem_filterMap.mp hs
    have hfile : (filesBelong devices p)[f.2]? = some (laidOut f.1.segments) := by
      rw [← hbelongs, List.getElem?_map, List.mem_zipIdx_iff_getElem?.mp hf]
      exact Eq.refl _
    rcases wantedAt_cases (f := f.2) (q := q) (hin f hf) with ⟨hnone, -⟩ |
      ⟨s', image, rs, run, hsome, -, hfileOf, hpayload, hat, hrs, hrun, hoff, hplace⟩
    · rw [hq] at hnone
      cases hnone
    · obtain rfl := Option.some.inj (hq.symm.trans hsome)
      exact ⟨_, image, rs, run, by rw [hfileOf]; exact hfile, by rw [hpayload]; exact hat, hrs,
        hrun, hoff, hplace⟩

/-- A device that holds blocks and a state, and one that holds a state alone. -/
def twoDevices : List Device :=
  [⟨some ⟨1, 2, 1, [1], Nat.one_pos⟩, 3⟩, ⟨none, 1⟩]

/-- Two files of blocks, the second used in part, and a state. -/
def partPath : DiskPath := ⟨[⟨7, 0, 1, 1⟩, ⟨8, 1, 3, 2⟩], 2, 1, some 9⟩

def threeRuns : RestoreInto where
  runs := [[⟨0, none, 16, 5⟩, ⟨1, none, 0, 4⟩, ⟨2, some 64, 0, 2⟩], [⟨3, none, 8, 1⟩]]
  inPlace := fun d => d == 0

theorem stream_restores_partPath : ∃ files sent, stream twoDevices partPath = some files ∧
    sendAll threeRuns 3 (by decide) files id = some sent ∧
      (spots 3 (chunksOf 3 (by decide) files) sent).map (fun s => (s.file, s.payload)) =
          usedBytes twoDevices partPath ∧
        (∀ s ∈ spots 3 (chunksOf 3 (by decide) files) sent,
          Placed twoDevices partPath threeRuns.runs s) ∧
          sendAllDeferred threeRuns 3 (by decide) files id =
            some (sent.map (split threeRuns.runs.length)) := by
  have hlaid : Laid twoDevices partPath := by
    refine ⟨by decide, fun piece _ d hd st hst => ?_⟩
    have hone : st.blockTokens = 1 := by
      simp only [twoDevices, List.mem_cons, List.not_mem_nil, or_false] at hd
      rcases hd with rfl | rfl
      · cases hst
        exact Eq.refl _
      · cases hst
    rw [hone]
    exact ⟨Nat.one_dvd _, Nat.one_dvd _, Nat.one_dvd _⟩
  have hcut : Cut twoDevices partPath.length threeRuns.runs := by
    unfold Cut
    decide
  exact stream_restores hlaid hcut (by decide) id

end StreamedRead

end Llmx
