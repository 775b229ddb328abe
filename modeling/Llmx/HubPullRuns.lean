import Llmx.HubPullSafe

namespace Llmx

open Runs

namespace Hub

variable {δ : Type}

/-- How often a request was tried. -/
def tries (fetches : List Fetch) (a : Asked) : Nat := fetches.countP fun f => f.asked = a

theorem tries_snoc (fetches : List Fetch) (f : Fetch) (a : Asked) :
    tries (fetches ++ [f]) a = tries fetches a + if f.asked = a then 1 else 0 := by
  unfold tries
  rw [List.countP_append, List.countP_singleton]
  by_cases h : f.asked = a
  · rw [if_pos h, if_pos (decide_eq_true h)]
  · rw [if_neg h, if_neg fun hc => h (of_decide_eq_true hc)]

/-- How often the whole file was asked for, where its acquisition is. -/
def Acquire.TriedWhole : Acquire → Nat → Prop
  | .whole r, n => n = r.attempt + 1
  | .placing _ _, n => n = 0
  | .checking, n => n = 0
  | .downloading, n => n = 0
  | _, _ => True

/-- How often part `i` was asked for. -/
def Acquire.TriedPart (i : Nat) : Acquire → Nat → Prop
  | .parts rs _, n => n = (rs[i]?.map fun r => r.attempt + 1).getD 0
  | .placing _ _, n => n = 0
  | .checking, n => n = 0
  | .downloading, n => n = 0
  | _, _ => True

/-- How often a request was tried at a stage: what comes later not yet. -/
def Stage.Tried : Stage → Asked → Nat → Prop
  | .checking, _, n => n = 0
  | .starting _, _, n => n = 0
  | .resolving r, .metadata, n => n = r.attempt + 1 ∧ n ≤ 5
  | .resolving _, _, n => n = 0
  | .selecting, .metadata, n => n ≤ 5
  | .selecting, _, n => n = 0
  | .files _ _, .metadata, n => n ≤ 5
  | .files k phase, .whole j, n => n ≤ 5 ∧ (k < j → n = 0) ∧ (j = k → phase.TriedWhole n)
  | .files k phase, .part j i, n => n ≤ 5 ∧ (k < j → n = 0) ∧ (j = k → phase.TriedPart i n)
  | .returned, _, n => n ≤ 5
  | .raised _, _, n => n ≤ 5

theorem Stage.Tried.le {stage : Stage} {a : Asked} {n : Nat} (h : stage.Tried a n) : n ≤ 5 := by
  have hzero : n = 0 → n ≤ 5 := fun hn => by omega
  cases stage with
  | checking => exact hzero h
  | starting _ => exact hzero h
  | resolving r =>
    cases a with
    | metadata => exact h.2
    | whole _ => exact hzero h
    | part _ _ => exact hzero h
  | selecting =>
    cases a with
    | metadata => exact h
    | whole _ => exact hzero h
    | part _ _ => exact hzero h
  | files _ _ =>
    cases a with
    | metadata => exact h
    | whole _ => exact h.1
    | part _ _ => exact h.1
  | returned => exact h
  | raised _ => exact h

/-- From one phase of a file to another with the same tries behind it. -/
theorem Stage.Tried.phase {k : Nat} {phase phase' : Acquire} {a : Asked} {n : Nat}
    (h : (Stage.files k phase).Tried a n)
    (hwhole : ∀ n, phase.TriedWhole n → phase'.TriedWhole n)
    (hpart : ∀ i n, phase.TriedPart i n → phase'.TriedPart i n) : (Stage.files k phase').Tried a n := by
  cases a with
  | metadata => exact h
  | whole j => exact ⟨h.1, h.2.1, fun hj => hwhole n (h.2.2 hj)⟩
  | part j i => exact ⟨h.1, h.2.1, fun hj => hpart i n (h.2.2 hj)⟩

theorem Stage.Tried.nextFile {k : Nat} {phase : Acquire} {a : Asked} {n : Nat} {made rest : Path}
    (h : (Stage.files k phase).Tried a n) : (Stage.files (k + 1) (.placing made rest)).Tried a n := by
  cases a with
  | metadata => exact h
  | whole j => exact ⟨h.1, fun hj => h.2.1 (by omega), fun hj => h.2.1 (by omega)⟩
  | part j i => exact ⟨h.1, fun hj => h.2.1 (by omega), fun hj => h.2.1 (by omega)⟩

/-- The whole file asked for once more. -/
theorem Stage.Tried.askWhole {k : Nat} {phase phase' : Acquire} {a : Asked} {n : Nat}
    (h : (Stage.files k phase).Tried a n)
    (hwhole : ∀ n ≤ 5, phase.TriedWhole n → n + 1 ≤ 5 ∧ phase'.TriedWhole (n + 1))
    (hpart : ∀ i n, phase.TriedPart i n → phase'.TriedPart i n) :
    (Stage.files k phase').Tried a (n + if Asked.whole k = a then 1 else 0) := by
  cases a with
  | metadata =>
    rw [if_neg (fun hc => Asked.noConfusion hc)]
    exact h
  | whole j =>
    by_cases hj : k = j
    · obtain ⟨hle, htried⟩ := hwhole n h.1 (h.2.2 hj.symm)
      rw [if_pos (by rw [hj])]
      exact ⟨hle, fun hlt => by omega, fun _ => htried⟩
    · rw [if_neg (fun hc => hj (Asked.whole.inj hc))]
      exact ⟨h.1, h.2.1, fun hc => absurd hc.symm hj⟩
  | part j i =>
    rw [if_neg (fun hc => Asked.noConfusion hc)]
    exact ⟨h.1, h.2.1, fun hj => hpart i n (h.2.2 hj)⟩

/-- A part asked for once more. -/
theorem Stage.Tried.askPart {k i : Nat} {phase phase' : Acquire} {a : Asked} {n : Nat}
    (h : (Stage.files k phase).Tried a n)
    (hwhole : ∀ n, phase.TriedWhole n → phase'.TriedWhole n)
    (hpart : ∀ n ≤ 5, phase.TriedPart i n → n + 1 ≤ 5 ∧ phase'.TriedPart i (n + 1))
    (hother : ∀ i' n, i' ≠ i → phase.TriedPart i' n → phase'.TriedPart i' n) :
    (Stage.files k phase').Tried a (n + if Asked.part k i = a then 1 else 0) := by
  cases a with
  | metadata =>
    rw [if_neg (fun hc => Asked.noConfusion hc)]
    exact h
  | whole j =>
    rw [if_neg (fun hc => Asked.noConfusion hc)]
    exact ⟨h.1, h.2.1, fun hj => hwhole n (h.2.2 hj)⟩
  | part j i' =>
    by_cases hj : k = j
    · by_cases hi : i = i'
      · rw [← hi] at h ⊢
        obtain ⟨hle, htried⟩ := hpart n h.1 (h.2.2 hj.symm)
        rw [if_pos (by rw [hj])]
        exact ⟨hle, fun hlt => by omega, fun _ => htried⟩
      · rw [if_neg (fun hc => hi (Asked.part.inj hc).2)]
        exact ⟨h.1, h.2.1, fun hc => hother i' n (fun heq => hi heq.symm) (h.2.2 hc)⟩
    · rw [if_neg (fun hc => hj (Asked.part.inj hc).1)]
      exact ⟨h.1, h.2.1, fun hc => absurd hc.symm hj⟩

theorem Stage.Tried.askMetadata {attempt : Nat} {a : Asked} {n : Nat}
    (h : (Stage.starting attempt).Tried a n) :
    (Stage.resolving Request.begun).Tried a (n + if Asked.metadata = a then 1 else 0) := by
  have h : n = 0 := h
  rw [h]
  cases a with
  | metadata => exact ⟨rfl, by decide⟩
  | whole _ => rfl
  | part _ _ => rfl

theorem Stage.Tried.againMetadata {r r' : Request} {a : Asked} {n : Nat}
    (h : (Stage.resolving r).Tried a n) (hattempt : r'.attempt = r.attempt + 1)
    (hr : r.attempt ≠ 4) :
    (Stage.resolving r').Tried a (n + if Asked.metadata = a then 1 else 0) := by
  cases a with
  | metadata =>
    obtain ⟨hn, hle⟩ := h
    rw [if_pos rfl]
    exact ⟨by rw [hattempt, hn], by omega⟩
  | whole _ => exact h
  | part _ _ => exact h

theorem Stage.Tried.endedMetadata {r r' : Request} {a : Asked} {n : Nat}
    (h : (Stage.resolving r).Tried a n) (hattempt : r'.attempt = r.attempt) :
    (Stage.resolving r').Tried a n := by
  cases a with
  | metadata => exact ⟨by rw [hattempt]; exact h.1, h.2⟩
  | whole _ => exact h
  | part _ _ => exact h

/-- A try's end ends its request, or lets it be tried again where it was not the fifth. -/
theorem Request.tried_cases (r : Request) (hr : ¬ r.ended.isSome) (outcome : Outcome) :
    (r.tried outcome).ended.isSome ∧ (r.tried outcome).attempt = r.attempt ∨
      ¬ (r.tried outcome).ended.isSome ∧ (r.tried outcome).attempt = r.attempt + 1 ∧
        r.attempt ≠ 4 := by
  cases outcome with
  | returned => exact .inl ⟨rfl, rfl⟩
  | other => exact .inl ⟨rfl, rfl⟩
  | transport status code retryAfter =>
    unfold Request.tried
    split
    next heq => cases heq
    next heq => cases heq
    next =>
      split
      next => exact .inl ⟨rfl, rfl⟩
      next hgo =>
        split
        next => exact .inl ⟨rfl, rfl⟩
        next => exact .inr ⟨hr, rfl, fun h4 => hgo (.inl h4)⟩

namespace Pull

variable {o : PullOptions} {m : Manifest} {k : Nat} {file : HubFile} {s t : Pull}

/-- Tries by stage, ranges by stream, and the name of the temporary directory. -/
structure Counted (o : PullOptions) (s : Pull) : Prop where
  tried : ∀ a, s.stage.Tried a (tries s.fetches a)
  ranged : ∀ f ∈ s.fetches, ∀ r, f.range = some r → ∃ m k i file, s.manifest = some m ∧
    f.asked = .part k i ∧ m.files[k]? = some file ∧
      (ranges file.size (streamCount o.parallel file.size))[i]? = some r ∧
        Consecutive file.size 0 (ranges file.size (streamCount o.parallel file.size)) file.size
  named : s.Named

/-- A step that asks for nothing. -/
theorem Counted.quiet (h : s.Counted o) (hfetches : t.fetches = s.fetches)
    (hman : ∀ m, s.manifest = some m → t.manifest = some m) (htemp : t.temporary = s.temporary)
    (hstage : ∀ a n, s.stage.Tried a n → t.stage.Tried a n) : t.Counted o := by
  refine ⟨fun a => ?_, fun f hf r hr => ?_, fun dir hdir => ?_⟩
  · rw [hfetches]
    exact hstage a _ (h.tried a)
  · rw [hfetches] at hf
    obtain ⟨m, k, i, file, hm, hrest⟩ := h.ranged f hf r hr
    exact ⟨m, k, i, file, hman m hm, hrest⟩
  · rw [htemp] at hdir
    exact h.named dir hdir

theorem Counted.raise (h : s.Counted o) (e : PullError) : (s.raise e).Counted o :=
  h.quiet rfl (fun _ hm => hm) rfl fun _ _ hn => hn.le

theorem Counted.begin (h : s.Counted o) (k : Nat)
    (hstage : ∀ a n made rest, s.stage.Tried a n → (Stage.files k (.placing made rest)).Tried a n) :
    (s.begin o m k).Counted o := by
  unfold Pull.begin
  split
  next => exact h.quiet rfl (fun _ hm => hm) rfl fun _ _ hn => hn.le
  next =>
    split
    next => exact h.raise _
    next => exact h.quiet rfl (fun _ hm => hm) rfl fun a n hn => hstage a n _ _ hn

/-- A try begun: what it asks for was tried less than five times. -/
theorem Counted.ask (h : s.Counted o) {f : Fetch}
    (hman : t.manifest = s.manifest) (htemp : t.Named) (hfetches : t.fetches = s.fetches ++ [f])
    (hrange : ∀ r, f.range = some r → ∃ m k i file, s.manifest = some m ∧ f.asked = .part k i ∧
      m.files[k]? = some file ∧
        (ranges file.size (streamCount o.parallel file.size))[i]? = some r ∧
          Consecutive file.size 0 (ranges file.size (streamCount o.parallel file.size)) file.size)
    (hstage : ∀ a n, s.stage.Tried a n → t.stage.Tried a (n + if f.asked = a then 1 else 0)) :
    t.Counted o := by
  refine ⟨fun a => ?_, fun g hg r hr => ?_, htemp⟩
  · rw [hfetches, tries_snoc]
    exact hstage a _ (h.tried a)
  · rw [hman]
    rw [hfetches] at hg
    rcases List.mem_append.mp hg with hg | hg
    · exact h.ranged g hg r hr
    · rw [List.mem_singleton.mp hg] at hr ⊢
      exact hrange r hr

theorem Counted.phase (h : s.Counted o) {phase phase' : Acquire} (hs : s.stage = .files k phase)
    (ht : t.stage = .files k phase') (hfetches : t.fetches = s.fetches)
    (hman : t.manifest = s.manifest) (htemp : t.temporary = s.temporary)
    (hwhole : ∀ n, phase.TriedWhole n → phase'.TriedWhole n)
    (hpart : ∀ i n, phase.TriedPart i n → phase'.TriedPart i n) : t.Counted o := by
  refine h.quiet hfetches (fun _ hm => hman.trans hm) htemp fun a n hn => ?_
  rw [hs] at hn
  rw [ht]
  exact hn.phase hwhole hpart

theorem Counted.toWhole (h : s.Counted o) (hstage : s.stage = .files k .downloading) :
    (s.downloadStep o m k file).Counted o := by
  unfold downloadStep
  split
  next =>
    refine h.ask (f := wholeFetch o m k file) rfl h.named rfl (fun r hr => ?_) fun a n hn => ?_
    · cases hr
    · rw [hstage] at hn
      refine hn.askWhole (fun n _ h0 => ?_) fun _ _ _ => trivial
      have h0 : n = 0 := h0
      exact ⟨by omega, by rw [h0]; rfl⟩
  next => exact h.phase hstage rfl rfl rfl rfl (fun _ _ => trivial) fun i n hn => hn

theorem Counted.wholeStep (h : s.Counted o) {r : Request} (hstage : s.stage = .files k (.whole r))
    (hs : s.wholeStep k file r = some t) : t.Counted o := by
  unfold Pull.wholeStep at hs
  split at hs
  · cases hs
  · cases Option.some.inj hs
    exact h.raise _
  · split at hs
    · cases Option.some.inj hs
      exact h.raise _
    · cases Option.some.inj hs
      exact h.raise _
    · cases Option.some.inj hs
      exact h.phase hstage rfl rfl rfl rfl (fun _ _ => trivial) fun _ _ _ => trivial

theorem Counted.partsStep (h : s.Counted o) {rs : List Request} {broken : Option PullError}
    (hstage : s.stage = .files k (.parts rs broken)) (hman : s.manifest = some m)
    (hfile : m.files[k]? = some file) (hpar : 1 ≤ o.parallel)
    (hok : streamCount o.parallel file.size ≠ 1) (hs : s.partsStep o m k file rs broken = some t) :
    t.Counted o := by
  obtain ⟨hpos, hle⟩ := streamCount_le hok hpar
  unfold Pull.partsStep at hs
  split at hs
  next range hrange =>
    cases Option.some.inj hs
    refine h.ask (f := partFetch o m k file rs.length range) rfl h.named rfl (fun r hr => ?_)
      fun a n hn => ?_
    · have hr : range = r := Option.some.inj hr
      rw [← hr]
      exact ⟨m, k, rs.length, file, hman, rfl, hfile, hrange, ranges_consecutive hpos hle⟩
    · rw [hstage] at hn
      refine hn.askPart (fun _ _ => trivial) (fun n _ h0 => ?_) fun i' n hi hn => ?_
      · have h0 : n = (rs[rs.length]?.map fun r => r.attempt + 1).getD 0 := h0
        rw [List.getElem?_eq_none (Nat.le_refl _)] at h0
        have h0 : n = 0 := h0
        refine ⟨by omega, ?_⟩
        show n + 1 = ((rs ++ [Request.begun])[rs.length]?.map fun r => r.attempt + 1).getD 0
        rw [List.getElem?_concat_length, h0]
        rfl
      · have hn : n = (rs[i']?.map fun r => r.attempt + 1).getD 0 := hn
        show n = ((rs ++ [Request.begun])[i']?.map fun r => r.attempt + 1).getD 0
        rcases Nat.lt_or_gt_of_ne hi with hlt | hgt
        · rw [List.getElem?_append_left hlt]
          exact hn
        · rw [List.getElem?_eq_none (Nat.le_of_lt hgt)] at hn
          rw [List.getElem?_eq_none (by rw [List.length_append, List.length_singleton]; omega)]
          exact hn
  next =>
    split at hs
    next =>
      cases Option.some.inj hs
      unfold gathered
      split
      · exact h.raise _
      · exact h.raise _
      · split
        next => exact h.raise _
        next => exact h.phase hstage rfl rfl rfl rfl (fun _ _ => trivial) fun _ _ _ => trivial
    next => cases hs

theorem acquireStep_counted (h : s.Counted o) {phase : Acquire} (hstage : s.stage = .files k phase)
    (hman : s.manifest = some m) (hfile : m.files[k]? = some file) (hpar : 1 ≤ o.parallel)
    (hok : phase.Ok s.disk s.assembled o m file)
    (hs : s.acquireStep o m k file phase = some t) : t.Counted o := by
  cases phase with
  | placing made rest =>
    cases rest with
    | nil =>
      cases Option.some.inj hs
      exact h.phase hstage rfl rfl rfl rfl (fun _ hn => hn) fun _ _ hn => hn
    | cons c rest =>
      cases Option.some.inj hs
      unfold placeStep
      split
      next => exact h.raise _
      next => exact h.phase hstage rfl rfl rfl rfl (fun _ hn => hn) fun _ _ hn => hn
  | checking =>
    cases Option.some.inj hs
    unfold checkStep
    split
    next => exact h.raise _
    next => exact h.phase hstage rfl rfl rfl rfl (fun _ _ => trivial) fun _ _ _ => trivial
    next => exact h.phase hstage rfl rfl rfl rfl (fun _ hn => hn) fun _ _ hn => hn
  | downloading =>
    cases Option.some.inj hs
    exact h.toWhole hstage
  | whole r => exact h.wholeStep hstage hs
  | parts rs broken => exact h.partsStep hstage hman hfile hpar hok hs
  | assembling i hash =>
    cases Option.some.inj hs
    unfold assembleStep
    split
    next =>
      split
      next => exact h.raise _
      next => exact h.phase hstage rfl rfl rfl rfl (fun _ _ => trivial) fun _ _ _ => trivial
    next =>
      split
      next => exact h.phase hstage rfl rfl rfl rfl (fun _ _ => trivial) fun _ _ _ => trivial
      next => exact h.raise _
  | publishing =>
    cases Option.some.inj hs
    unfold publishStep
    split
    · exact h.raise _
    · exact h.phase hstage rfl rfl rfl rfl (fun _ _ => trivial) fun _ _ _ => trivial
    · exact h.raise _
  | ready =>
    cases Option.some.inj hs
    refine h.begin (k + 1) fun a n _ _ hn => ?_
    rw [hstage] at hn
    exact hn.nextFile

variable (conv : Json.Conversion δ) (whole : δ → Option Nat)

theorem goStep_counted (h : s.Counted o) {cache : Disk} (hkept : s.Kept cache o)
    (hs : s.goStep conv whole o = some t) : t.Counted o := by
  unfold goStep at hs
  split at hs
  next hstage =>
    split at hs
    next =>
      cases Option.some.inj hs
      exact h.raise _
    next =>
      cases Option.some.inj hs
      refine h.quiet rfl (fun _ hm => hm) rfl fun a n hn => ?_
      rw [hstage] at hn
      exact hn
  next r hstage =>
    split at hs
    · cases hs
    · cases Option.some.inj hs
      exact h.raise _
    · cases Option.some.inj hs
      refine h.quiet rfl (fun _ hm => hm) rfl fun a n hn => ?_
      rw [hstage] at hn
      cases a with
      | metadata => exact hn.2
      | whole _ => exact hn
      | part _ _ => exact hn
  next hstage =>
    split at hs
    next =>
      cases Option.some.inj hs
      exact h.raise _
    next m hresolved =>
      cases Option.some.inj hs
      unfold Kept at hkept
      rw [hstage] at hkept
      have hnone := hkept.2.1
      have hm : Counted o { s with manifest := some m } := by
        refine h.quiet rfl (fun m' hm' => ?_) rfl fun _ _ hn => hn
        rw [hnone] at hm'
        cases hm'
      refine hm.begin 0 fun a n _ _ hn => ?_
      have hn : s.stage.Tried a n := hn
      rw [hstage] at hn
      cases a with
      | metadata => exact hn
      | whole j => exact ⟨hn.le, fun _ => hn, fun _ => hn⟩
      | part j i => exact ⟨hn.le, fun _ => hn, fun _ => hn⟩
  next k phase hstage =>
    unfold Kept at hkept
    rw [hstage] at hkept
    obtain ⟨-, hpar, m, file, hman, hfile, -, hok⟩ := hkept
    obtain ⟨m', hm', hs⟩ := Option.bind_eq_some_iff.mp hs
    obtain ⟨file', hf', hs⟩ := Option.bind_eq_some_iff.mp hs
    cases Option.some.inj (hm'.symm.trans hman)
    cases Option.some.inj (hf'.symm.trans hfile)
    exact acquireStep_counted h hstage hman hfile hpar hok hs
  next => cases hs

theorem failStep_counted (h : s.Counted o) (hs : s.failStep = some t) : t.Counted o := by
  unfold failStep at hs
  split at hs
  · cases hs
  · cases hs
  next k rs hstage =>
    cases Option.some.inj hs
    exact h.phase hstage rfl rfl rfl rfl (fun _ _ => trivial) fun _ _ hn => hn
  · cases hs
  · split at hs
    · cases Option.some.inj hs
      exact h.raise _
    · cases hs
  · split at hs
    · cases Option.some.inj hs
      exact h.raise _
    · cases hs
  · cases Option.some.inj hs
    exact h.raise _

theorem nameStep_counted (h : s.Counted o) {a b : Nat} (hs : s.nameStep o a b = some t) :
    t.Counted o := by
  unfold nameStep at hs
  split at hs
  next attempt hstage =>
    split at hs
    · cases Option.some.inj hs
      refine h.ask (f := metadataFetch o) rfl (fun dir hdir => ⟨a, b, ?_⟩) rfl (fun r hr => ?_)
        fun asked n hn => ?_
      · exact (Option.some.inj hdir).symm
      · cases hr
      · rw [hstage] at hn
        exact hn.askMetadata
    · cases Option.some.inj hs
      exact h.raise _
    · split at hs
      · cases Option.some.inj hs
        exact h.raise _
      · cases Option.some.inj hs
        refine h.quiet rfl (fun _ hm => hm) rfl fun a n hn => ?_
        rw [hstage] at hn
        exact hn
  · cases hs

theorem fetching_eq (s : Pull) (f : Fetch) : (s.fetching f).fetches = s.fetches ++ [f] := rfl

/-- A try's end: the request's phase goes on, asked again where it is not ended. -/
theorem Counted.retried (h : s.Counted o) {r : Request} (hr : ¬ r.ended.isSome) {outcome : Outcome}
    {f : Fetch} (hfetches : t.fetches = s.fetches) (hman : t.manifest = s.manifest)
    (htemp : t.temporary = s.temporary)
    (hrange : ∀ r, f.range = some r → ∃ m k i file, s.manifest = some m ∧ f.asked = .part k i ∧
      m.files[k]? = some file ∧
        (ranges file.size (streamCount o.parallel file.size))[i]? = some r ∧
          Consecutive file.size 0 (ranges file.size (streamCount o.parallel file.size)) file.size)
    (hended : (r.tried outcome).attempt = r.attempt →
      ∀ a n, s.stage.Tried a n → t.stage.Tried a n)
    (hagain : (r.tried outcome).attempt = r.attempt + 1 → r.attempt ≠ 4 →
      ∀ a n, s.stage.Tried a n → t.stage.Tried a (n + if f.asked = a then 1 else 0)) :
    (t.retry r outcome f).Counted o := by
  unfold retry
  rcases r.tried_cases hr outcome with ⟨hend, hsame⟩ | ⟨hgo, hnext, h4⟩
  · rw [if_pos hend]
    exact h.quiet hfetches (fun _ hm => hman.trans hm) htemp (hended hsame)
  · rw [if_neg hgo]
    refine h.ask (f := f) hman (fun dir hdir => h.named dir ?_) ?_ hrange (hagain hnext h4)
    · rw [← htemp]
      exact hdir
    · rw [fetching_eq, hfetches]

theorem triedStep_counted (h : s.Counted o) {cache : Disk} (hkept : s.Kept cache o) {stream : Nat}
    {left : Option Bytes} {outcome : Outcome} (hs : s.triedStep o stream left outcome = some t) :
    t.Counted o := by
  unfold triedStep at hs
  unfold Kept at hkept
  split at hs
  next r hstage =>
    split at hs
    next => cases hs
    next hr =>
      cases Option.some.inj hs
      refine h.retried (not_or.mp hr).1 rfl rfl rfl (fun r hr => ?_) (fun ha a n hn => ?_)
        fun ha h4 a n hn => ?_
      · cases hr
      · rw [hstage] at hn
        exact hn.endedMetadata ha
      · rw [hstage] at hn
        exact hn.againMetadata ha h4
  next k r hstage =>
    obtain ⟨m', hm', hs⟩ := Option.bind_eq_some_iff.mp hs
    obtain ⟨file', hf', hs⟩ := Option.bind_eq_some_iff.mp hs
    split at hs
    next => cases hs
    next hr =>
      cases Option.some.inj hs
      refine h.retried (not_or.mp hr).1 rfl rfl rfl (fun r hr => ?_) (fun ha a n hn => ?_)
        fun ha h4 a n hn => ?_
      · cases hr
      · rw [hstage] at hn
        refine hn.phase (fun n hn => ?_) fun _ _ hn => hn
        show n = (r.tried outcome).attempt + 1
        rw [ha]
        exact hn
      · rw [hstage] at hn
        refine hn.askWhole (fun n hle hn => ?_) fun _ _ hn => hn
        have hn : n = r.attempt + 1 := hn
        refine ⟨by omega, ?_⟩
        show n + 1 = (r.tried outcome).attempt + 1
        omega
  next k rs broken hstage =>
    rw [hstage] at hkept
    obtain ⟨-, hpar, m, file, hman, hfile, -, hok⟩ := hkept
    obtain ⟨m', hm', hs⟩ := Option.bind_eq_some_iff.mp hs
    obtain ⟨file', hf', hs⟩ := Option.bind_eq_some_iff.mp hs
    cases Option.some.inj (hm'.symm.trans hman)
    cases Option.some.inj (hf'.symm.trans hfile)
    obtain ⟨r, hr, hs⟩ := Option.bind_eq_some_iff.mp hs
    obtain ⟨range, hrange, hs⟩ := Option.bind_eq_some_iff.mp hs
    obtain ⟨hlt, -⟩ := List.getElem?_eq_some_iff.mp hr
    obtain ⟨hpos, hle⟩ := streamCount_le hok hpar
    have hother : ∀ i' n, i' ≠ stream → (Acquire.parts rs broken).TriedPart i' n →
        (Acquire.parts (rs.set stream (r.tried outcome)) broken).TriedPart i' n := by
      intro i' n hi hn
      show n = ((rs.set stream (r.tried outcome))[i']?.map fun r => r.attempt + 1).getD 0
      rw [List.getElem?_set_ne hi.symm]
      exact hn
    have hcount : ∀ n, (Acquire.parts rs broken).TriedPart stream n → n = r.attempt + 1 := by
      intro n hn
      have hn : n = (rs[stream]?.map fun r => r.attempt + 1).getD 0 := hn
      rw [hr] at hn
      exact hn
    have hset : ∀ n, n = (r.tried outcome).attempt + 1 →
        (Acquire.parts (rs.set stream (r.tried outcome)) broken).TriedPart stream n := by
      intro n hn
      show n = ((rs.set stream (r.tried outcome))[stream]?.map fun r => r.attempt + 1).getD 0
      rw [List.getElem?_set_self hlt]
      exact hn
    split at hs
    next => cases hs
    next hgo =>
      cases Option.some.inj hs
      refine h.retried hgo rfl rfl rfl (fun r hr => ?_) (fun ha a n hn => ?_)
        fun ha h4 a n hn => ?_
      · have hr : range = r := Option.some.inj hr
        rw [← hr]
        exact ⟨m, k, stream, file, hman, rfl, hfile, hrange, ranges_consecutive hpos hle⟩
      · rw [hstage] at hn
        refine hn.phase (fun _ _ => trivial) fun i' n hn => ?_
        by_cases hi : i' = stream
        · rw [hi] at hn ⊢
          exact hset n (by rw [ha]; exact hcount n hn)
        · exact hother i' n hi hn
      · rw [hstage] at hn
        refine hn.askPart (fun _ _ => trivial) (fun n hle hn => ?_) hother
        have hn := hcount n hn
        exact ⟨by omega, hset (n + 1) (by omega)⟩
  next => cases hs

theorem step_counted (h : s.Counted o) {cache : Disk} (hkept : s.Kept cache o) {m : PullMove}
    (hs : s.step conv whole o m = some t) : t.Counted o := by
  cases m with
  | go => exact goStep_counted conv whole h hkept hs
  | fails => exact failStep_counted h hs
  | named a b => exact nameStep_counted h hs
  | tried stream left outcome => exact triedStep_counted h hkept hs

theorem pull_inv {cache : Disk} (h : Reach (pull conv whole o cache) s) :
    s.Counted o ∧ s.Kept cache o := by
  refine h.invariant (fun s => s.Counted o ∧ s.Kept cache o) (fun s hs => ?_)
    fun s m t hi hs => ⟨step_counted conv whole hi.1 hi.2 hs, step_kept conv whole hi.1.named hi.2 hs⟩
  rw [hs]
  exact ⟨⟨fun _ => rfl, fun f hf => absurd hf List.not_mem_nil, fun dir hdir => by cases hdir⟩, rfl,
    rfl, rfl, rfl⟩

end Pull

open Pull

/-- However the transport behaves and whatever throws: a file of the manifest is as it was or a
genuine one renamed to its place once; a pull that returned has them all in place; the ranges asked
for are a file's streams', one after another over it; no request is tried more than five times; and
a pull that returned or raised leaves no temporary directory. -/
theorem pull_publishes {conv : Json.Conversion δ} {whole : δ → Option Nat} {o : PullOptions}
    {cache : Disk} {s : Pull} (h : Reach (pull conv whole o cache) s) :
    (∀ m, s.manifest = some m → ∀ f ∈ m.files,
      Settled cache s.disk s.renames (destination o m.revision f) f) ∧
    (s.stage = .returned → ∃ m, s.manifest = some m ∧
      ∀ f ∈ m.files, Holds s.disk (destination o m.revision f) f) ∧
    (∀ f ∈ s.fetches, ∀ r, f.range = some r → ∃ m k i file, s.manifest = some m ∧
      f.asked = .part k i ∧ m.files[k]? = some file ∧
        (ranges file.size (streamCount o.parallel file.size))[i]? = some r ∧
          Consecutive file.size 0 (ranges file.size (streamCount o.parallel file.size)) file.size) ∧
    (∀ a, tries s.fetches a ≤ 5) ∧
    ((s.stage = .returned ∨ ∃ e, s.stage = .raised e) →
      ∀ dir, s.temporary = some dir → ∀ p, dir <+: p → s.disk p = none) := by
  obtain ⟨hcounted, hkept⟩ := pull_inv conv whole h
  refine ⟨fun m hm f hf => ?_, fun hstage => ?_, hcounted.ranged, fun a => (hcounted.tried a).le,
    fun hend => ?_⟩
  · obtain ⟨upto, hplaced⟩ := hkept.placed hm
    obtain ⟨j, hj⟩ := List.mem_iff_getElem?.mp hf
    exact hplaced.settled j f hj
  · unfold Kept at hkept
    rw [hstage] at hkept
    obtain ⟨-, m, hm, hplaced⟩ := hkept
    refine ⟨m, hm, fun f hf => ?_⟩
    obtain ⟨j, hj⟩ := List.mem_iff_getElem?.mp hf
    exact hplaced.holds j f hj (List.getElem?_eq_some_iff.mp hj).1
  · unfold Kept at hkept
    rcases hend with hstage | ⟨e, hstage⟩
    · rw [hstage] at hkept
      exact hkept.1
    · rw [hstage] at hkept
      exact hkept.1

def someOptions : PullOptions := ⟨text "a/b", text "q8_0", text "main", [], 2⟩

/-- The metadata comes at the second try only, and its file is not read. -/
def failedMoves : List PullMove :=
  [.go, .named 1 2, .tried 0 (some [7]) (.transport 503 0 0), .tried 0 none .returned, .go, .fails]

theorem pull_publishes_failed : ∃ s, play (pull (δ := Nat) ⟨fun _ => none, fun _ => false⟩ some
      someOptions fun _ => none) ⟨fun _ => none, none, none, .checking, [], []⟩ failedMoves = some s ∧
    tries s.fetches .metadata = 2 ∧ s.temporary = some [temporaryName 1 2] ∧
      ∀ p, [temporaryName 1 2] <+: p → s.disk p = none := by
  have hplay : ∃ s, play (pull (δ := Nat) ⟨fun _ => none, fun _ => false⟩ some someOptions
      fun _ => none) ⟨fun _ => none, none, none, .checking, [], []⟩ failedMoves = some s ∧
      s.stage = .raised .system ∧ tries s.fetches .metadata = 2 ∧
        s.temporary = some [temporaryName 1 2] := ⟨_, rfl, rfl, rfl, rfl⟩
  obtain ⟨s, hs, hstage, htries, htemp⟩ := hplay
  have hreach := reach_of_play (m := pull (δ := Nat) ⟨fun _ => none, fun _ => false⟩ some someOptions
    fun _ => none) failedMoves rfl hs
  exact ⟨s, hs, htries, htemp, (pull_publishes hreach).2.2.2.2 (.inr ⟨_, hstage⟩) _ htemp⟩

end Hub

end Llmx
