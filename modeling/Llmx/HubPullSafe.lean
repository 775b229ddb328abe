import Llmx.HubPullDisk

namespace Llmx

open Fallible Runs

namespace Hub

variable {δ : Type}

/-- A file's place is as the pull found it, or a genuine file was renamed to it, once. -/
def Settled (cache d : Disk) (renames : List (Path × Bytes)) (p : Path) (file : HubFile) : Prop :=
  ((∀ bytes, (p, bytes) ∉ renames) ∧ d p = cache p) ∨
    ∃ bytes, renames.filter (fun r => r.1 = p) = [(p, bytes)] ∧ Genuine file bytes ∧
      d p = some (.file bytes)

/-- The files of a manifest before `upto` are in place, those from it on untouched. -/
structure Placed (cache : Disk) (o : PullOptions) (m : Manifest) (d : Disk)
    (renames : List (Path × Bytes)) (upto : Nat) : Prop where
  apart : Apart o m
  settled : ∀ (j : Nat) (f : HubFile), m.files[j]? = some f →
    Settled cache d renames (destination o m.revision f) f
  holds : ∀ (j : Nat) (f : HubFile), m.files[j]? = some f → j < upto →
    Holds d (destination o m.revision f) f
  fresh : ∀ (j : Nat) (f : HubFile), m.files[j]? = some f → upto ≤ j →
    ∀ bytes, (destination o m.revision f, bytes) ∉ renames

variable {cache d d' : Disk} {o : PullOptions} {m : Manifest} {renames : List (Path × Bytes)}
  {upto : Nat}

theorem Placed.agree (h : Placed cache o m d renames upto)
    (hd : ∀ (j : Nat) (f : HubFile), m.files[j]? = some f →
      d' (destination o m.revision f) = d (destination o m.revision f)) :
    Placed cache o m d' renames upto := by
  refine ⟨h.apart, fun j f hf => ?_, fun j f hf hj => ?_, h.fresh⟩
  · unfold Settled
    rw [hd j f hf]
    exact h.settled j f hf
  · unfold Holds
    rw [hd j f hf]
    exact h.holds j f hf hj

theorem Placed.outside (h : Placed cache o m d renames upto) {d' : Disk}
    (hd : ∀ p, Outside p → d' p = d p) : Placed cache o m d' renames upto :=
  h.agree fun _ f _ => hd _ (destination_outside o m.revision f)

/-- A directory made on the way to a file touches none. -/
theorem Placed.directory (h : Placed cache o m d renames upto) {k : Nat} {file : HubFile}
    (hk : m.files[k]? = some file) {made rest : Path} {c : Bytes}
    (hpath : made ++ c :: rest = (destination o m.revision file).dropLast)
    (hmake : makeDirectory d (made ++ [c]) = .ok d') : Placed cache o m d' renames upto := by
  have hprefix : made ++ [c] <+: (destination o m.revision file).dropLast :=
    ⟨rest, by rw [List.append_assoc]; exact hpath⟩
  have hlen : (made ++ [c]).length < (destination o m.revision file).length := by
    have hle := hprefix.length_le
    have hne : destination o m.revision file ≠ [] := components_ne_nil _
    have hpos := List.length_pos_iff.mpr hne
    rw [List.length_dropLast] at hle
    omega
  refine h.agree fun j f hf => ?_
  have hne : destination o m.revision f ≠ made ++ [c] := by
    intro heq
    have hpre : destination o m.revision f <+: destination o m.revision file := by
      rw [heq]
      exact hprefix.trans (List.dropLast_prefix _)
    have hjk := h.apart j k f file hf hk hpre
    rw [hjk, hk] at hf
    rw [← heq, Option.some.inj hf] at hlen
    exact Nat.lt_irrefl _ hlen
  unfold makeDirectory at hmake
  split at hmake
  · cases hmake
  · rw [← Except.ok.inj hmake, put_ne _ _ hne]
  · rw [Except.ok.inj hmake]
  · cases hmake

/-- A genuine file renamed to its place. -/
theorem Placed.rename {k : Nat} (h : Placed cache o m d renames k) {file : HubFile}
    (hk : m.files[k]? = some file) {bytes : Bytes} (hgenuine : Genuine file bytes)
    (hd : d' (destination o m.revision file) = some (.file bytes))
    (hother : ∀ p, Outside p → p ≠ destination o m.revision file → d' p = d p) :
    Placed cache o m d' (renames ++ [(destination o m.revision file, bytes)]) (k + 1) := by
  have hne : ∀ (j : Nat) (f : HubFile), m.files[j]? = some f → j ≠ k →
      destination o m.revision f ≠ destination o m.revision file := by
    intro j f hf hjk heq
    exact hjk (h.apart j k f file hf hk (by rw [heq]))
  have hsame : ∀ (j : Nat) (f : HubFile), m.files[j]? = some f → j ≠ k →
      d' (destination o m.revision f) = d (destination o m.revision f) :=
    fun j f hf hjk => hother _ (destination_outside _ _ _) (hne j f hf hjk)
  refine ⟨h.apart, fun j f hf => ?_, fun j f hf hj => ?_, fun j f hf hj b hmem => ?_⟩
  · by_cases hjk : j = k
    · rw [hjk, hk] at hf
      rw [← Option.some.inj hf]
      refine .inr ⟨bytes, ?_, hgenuine, hd⟩
      have hnone : renames.filter (fun r => r.1 = destination o m.revision file) = [] := by
        apply List.filter_eq_nil_iff.mpr
        intro r hr hp
        refine h.fresh k file hk (Nat.le_refl _) r.2 ?_
        rw [← of_decide_eq_true hp]
        exact hr
      rw [List.filter_append, hnone, List.nil_append]
      exact List.filter_cons_of_pos (decide_eq_true rfl)
    · have hfne := hne j f hf hjk
      unfold Settled
      rw [hsame j f hf hjk, List.filter_append,
        List.filter_cons_of_neg (fun hc => hfne (of_decide_eq_true hc).symm), List.filter_nil,
        List.append_nil]
      rcases h.settled j f hf with ⟨hnone, hcache⟩ | hone
      · refine .inl ⟨fun b hmem => ?_, hcache⟩
        rcases List.mem_append.mp hmem with hmem | hmem
        · exact hnone b hmem
        · exact hfne (Prod.mk.inj (List.mem_singleton.mp hmem)).1
      · exact .inr hone
  · by_cases hjk : j = k
    · rw [hjk, hk] at hf
      rw [← Option.some.inj hf]
      exact ⟨bytes, hd, hgenuine⟩
    · unfold Holds
      rw [hsame j f hf hjk]
      exact h.holds j f hf (by omega)
  · rcases List.mem_append.mp hmem with hmem | hmem
    · exact h.fresh j f hf (by omega) b hmem
    · exact hne j f hf (by omega) (Prod.mk.inj (List.mem_singleton.mp hmem)).1

/-- What an acquisition has done so far. -/
def Acquire.Ok (d : Disk) (assembled : Path) (o : PullOptions) (m : Manifest) (file : HubFile) :
    Acquire → Prop
  | .placing made rest => made ++ rest = (destination o m.revision file).dropLast
  | .parts _ _ => streamCount o.parallel file.size ≠ 1
  | .assembling i hash => streamCount o.parallel file.size ≠ 1 ∧
      i ≤ (ranges file.size (streamCount o.parallel file.size)).length ∧ ∃ out,
        d assembled = some (.file out) ∧
        hash = .ofBytes file.lfs (hashHeader file.lfs file.size ++ out) ∧
        out.length = (((ranges file.size (streamCount o.parallel file.size)).take i).map
          ByteRange.length).sum
  | .publishing => ∃ bytes, d assembled = some (.file bytes) ∧ Genuine file bytes
  | _ => True

/-- How many files are in place. -/
def Acquire.inPlace (k : Nat) : Acquire → Nat
  | .ready => k + 1
  | _ => k

namespace Pull

/-- The temporary directory is gone. -/
def Gone (s : Pull) : Prop := ∀ dir, s.temporary = some dir → ∀ p, dir <+: p → s.disk p = none

/-- What holds of the disk at each stage. -/
def Kept (cache : Disk) (o : PullOptions) (s : Pull) : Prop :=
  match s.stage with
  | .checking => s.temporary = none ∧ s.manifest = none ∧ s.renames = [] ∧ s.disk = cache
  | .starting _ => s.temporary = none ∧ s.manifest = none ∧ s.renames = [] ∧ s.disk = cache ∧
      1 ≤ o.parallel
  | .resolving _ => s.temporary.isSome ∧ s.manifest = none ∧ s.renames = [] ∧
      (∀ p, Outside p → s.disk p = cache p) ∧ 1 ≤ o.parallel
  | .selecting => s.temporary.isSome ∧ s.manifest = none ∧ s.renames = [] ∧
      (∀ p, Outside p → s.disk p = cache p) ∧ 1 ≤ o.parallel
  | .files k phase => s.temporary.isSome ∧ 1 ≤ o.parallel ∧ ∃ m file, s.manifest = some m ∧
      m.files[k]? = some file ∧ Placed cache o m s.disk s.renames (phase.inPlace k) ∧
      phase.Ok s.disk s.assembled o m file
  | .returned => s.Gone ∧ ∃ m, s.manifest = some m ∧
      Placed cache o m s.disk s.renames m.files.length
  | .raised _ => s.Gone ∧ ∀ m, s.manifest = some m → ∃ upto,
      Placed cache o m s.disk s.renames upto

/-- The temporary directory's name. -/
def Named (s : Pull) : Prop := ∀ dir, s.temporary = some dir → ∃ a b, dir = [temporaryName a b]

variable {s : Pull}

theorem removeAll_outside (hnamed : s.Named) {p : Path} (hp : Outside p) :
    (s.temporary.map s.disk.removeAll).getD s.disk p = s.disk p := by
  cases htemp : s.temporary with
  | none => rfl
  | some dir =>
    obtain ⟨a, b, hdir⟩ := hnamed dir htemp
    show (if dir <+: p then none else s.disk p) = _
    rw [hdir]
    exact if_neg (hp a b)

theorem gone_removeAll (t : Pull) (htemp : t.temporary = s.temporary)
    (hdisk : t.disk = (s.temporary.map s.disk.removeAll).getD s.disk) : t.Gone := by
  intro dir hdir p hp
  rw [htemp] at hdir
  rw [hdisk, hdir]
  exact if_pos hp

theorem raise_kept (hnamed : s.Named)
    (h : ∀ m, s.manifest = some m → ∃ upto, Placed cache o m s.disk s.renames upto) (e : PullError) :
    (s.raise e).Kept cache o := by
  refine ⟨gone_removeAll (s := s) _ rfl rfl, fun m hm => ?_⟩
  obtain ⟨upto, hplaced⟩ := h m hm
  exact ⟨upto, hplaced.outside fun p hp => removeAll_outside hnamed hp⟩

theorem begin_kept (hnamed : s.Named) (hsome : s.temporary.isSome) (hpar : 1 ≤ o.parallel)
    (hm : s.manifest = some m) {k : Nat} (h : Placed cache o m s.disk s.renames k)
    (hk : k ≤ m.files.length) : (s.begin o m k).Kept cache o := by
  unfold Pull.begin
  split
  next hnone =>
    have hlen : k = m.files.length := by
      have hle := List.getElem?_eq_none_iff.mp hnone
      omega
    refine ⟨gone_removeAll (s := s) _ rfl rfl, m, hm, ?_⟩
    rw [← hlen]
    exact h.outside fun p hp => removeAll_outside hnamed hp
  next file hfile =>
    split
    next =>
      refine raise_kept hnamed (fun m' hm' => ⟨k, ?_⟩) _
      rw [← Option.some.inj (hm.symm.trans hm')]
      exact h
    next => exact ⟨hsome, hpar, m, file, hm, hfile, h, rfl⟩

/-- What a file's acquisition works on. -/
structure Working (cache : Disk) (o : PullOptions) (m : Manifest) (k : Nat) (file : HubFile)
    (s : Pull) : Prop where
  named : s.Named
  temporary : s.temporary.isSome
  parallel : 1 ≤ o.parallel
  manifest : s.manifest = some m
  file_eq : m.files[k]? = some file

variable {k : Nat} {file : HubFile}

theorem Working.raise (h : Working cache o m k file s) {upto : Nat}
    (hplaced : Placed cache o m s.disk s.renames upto) (e : PullError) :
    (s.raise e).Kept cache o := by
  refine raise_kept h.named (fun m' hm' => ⟨upto, ?_⟩) e
  rw [← Option.some.inj (h.manifest.symm.trans hm')]
  exact hplaced

theorem Working.next (h : Working cache o m k file s) {phase : Acquire} {t : Pull}
    (hstage : t.stage = .files k phase) (htemp : t.temporary = s.temporary)
    (hman : t.manifest = s.manifest)
    (hplaced : Placed cache o m t.disk t.renames (phase.inPlace k))
    (hok : phase.Ok t.disk t.assembled o m file) : t.Kept cache o := by
  unfold Kept
  rw [hstage]
  exact ⟨by rw [htemp]; exact h.temporary, h.parallel, m, file, hman.trans h.manifest, h.file_eq,
    hplaced, hok⟩

theorem inTemporary_inside (hnamed : s.Named) (hsome : s.temporary.isSome) (name : Bytes) {p : Path}
    (hp : Outside p) : p ≠ s.inTemporary name := by
  obtain ⟨dir, hdir⟩ := Option.isSome_iff_exists.mp hsome
  obtain ⟨a, b, hab⟩ := hnamed dir hdir
  intro heq
  apply hp a b
  rw [heq]
  unfold inTemporary
  rw [hdir, ← hab]
  exact List.prefix_append _ _

/-- A file of the temporary directory may change. -/
theorem Working.inside (h : Working cache o m k file s) {upto : Nat}
    (hplaced : Placed cache o m s.disk s.renames upto) (name : Bytes) (n : Option Node) :
    Placed cache o m (s.disk.put (s.inTemporary name) n) s.renames upto :=
  hplaced.outside fun _ hp => put_ne _ _ (inTemporary_inside h.named h.temporary name hp)

theorem decimal_digit {n : Nat} {c : UInt8} (h : c ∈ decimal n) : c.toNat ≤ 57 := by
  obtain ⟨d, hd, rfl⟩ := List.mem_map.mp h
  have hdigit := Char.isDigit_iff_toNat.mp (Nat.isDigit_of_mem_toDigits (by decide) (by decide) hd)
  have hle : d.toNat ≤ 57 := hdigit.2
  show d.toNat % 256 ≤ 57
  omega

theorem assembled_ne_part (i : Nat) : text "verified.part" ≠ decimal i ++ text ".part" := by
  intro h
  cases hi : decimal i with
  | nil =>
    rw [hi] at h
    exact absurd h (by decide)
  | cons c rest =>
    rw [hi] at h
    have hc : 'v'.toUInt8 = c := (List.cons.inj h).1
    have hle := decimal_digit (n := i) (c := c) (by rw [hi]; exact List.mem_cons_self)
    rw [← hc] at hle
    exact absurd hle (by decide)

theorem Working.assemble (h : Working cache o m k file s)
    (hplaced : Placed cache o m s.disk s.renames k) {i : Nat} {hash : ShaStream}
    (hok : (Acquire.assembling i hash).Ok s.disk s.assembled o m file) {range : ByteRange}
    (hrange : (ranges file.size (streamCount o.parallel file.size))[i]? = some range)
    {done : Disk × ShaStream} (hdone : s.assemble i range hash = .ok done) :
    Placed cache o m done.1 s.renames k ∧
      (Acquire.assembling (i + 1) done.2).Ok done.1 s.assembled o m file := by
  obtain ⟨hstreams, hi, out, hout, hhash, hlen⟩ := hok
  obtain ⟨hilt, hget⟩ := List.getElem?_eq_some_iff.mp hrange
  unfold Pull.assemble at hdone
  split at hdone
  next bytes output hpart hass =>
    have hsame : output = out := Node.file.inj (Option.some.inj (hass.symm.trans hout))
    split at hdone
    next => cases hdone
    next hsize =>
      cases hread : consume (range.length + 1) range.length bytes hash [] with
      | error e =>
        rw [hread] at hdone
        cases hdone
      | ok read =>
        rw [hread] at hdone
        rw [hhash] at hread
        obtain ⟨hbytes, heq⟩ := consume_ok hread
        have hdone : done = ((s.disk.put s.assembled (some (.file (output ++ read.2)))).put
          (s.partPath i) none, read.1) := (Except.ok.inj hdone).symm
        have houtside : ∀ p, Outside p →
            done.1 p = s.disk.put s.assembled (some (.file (output ++ read.2))) p := by
          intro p hp
          rw [hdone]
          exact put_ne _ _ (inTemporary_inside h.named h.temporary _ hp)
        have hplaced' := (h.inside hplaced (text "verified.part")
          (some (.file (output ++ read.2)))).outside houtside
        refine ⟨hplaced', hstreams, hilt, out ++ bytes, ?_, ?_, ?_⟩
        · have hne : s.assembled ≠ s.partPath i := fun hc =>
            assembled_ne_part i (List.singleton_injective (List.append_cancel_left hc))
          rw [hdone]
          show (s.disk.put s.assembled _).put (s.partPath i) none s.assembled = _
          rw [put_ne _ _ hne, put_self, hsame, heq]
          rfl
        · rw [hdone, heq, List.append_assoc]
        · rw [List.take_succ_eq_append_getElem hilt, List.map_append, List.sum_append,
            List.length_append, hlen, hbytes, hget]
          rfl
  next => cases hdone

theorem consecutive_all {size n : Nat} {rs : List ByteRange} (h : Consecutive size 0 rs n) :
    (rs.map ByteRange.length).sum = n := by
  have hsum := h.sum
  omega

/-- The whole of a file assembled from its parts. -/
theorem Working.closed (h : Working cache o m k file s) {i : Nat} {hash : ShaStream}
    (hok : (Acquire.assembling i hash).Ok s.disk s.assembled o m file)
    (hend : (ranges file.size (streamCount o.parallel file.size))[i]? = none)
    (hdigest : hash.hex = file.digest) :
    ∃ bytes, s.disk s.assembled = some (.file bytes) ∧ Genuine file bytes := by
  obtain ⟨hstreams, hi, out, hout, hhash, hlen⟩ := hok
  obtain ⟨hpos, hle⟩ := streamCount_le hstreams h.parallel
  have hsum := consecutive_all (ranges_consecutive hpos hle)
  have hi' := List.getElem?_eq_none_iff.mp hend
  rw [List.take_of_length_le hi', hsum] at hlen
  refine ⟨out, hout, hlen, ?_⟩
  unfold digestOf
  rw [hlen, ← hhash, hdigest]

theorem Working.placeStep (h : Working cache o m k file s)
    (hplaced : Placed cache o m s.disk s.renames k) {made rest : Path} {c : Bytes}
    (hok : made ++ c :: rest = (destination o m.revision file).dropLast) :
    (s.placeStep k made c rest).Kept cache o := by
  unfold Pull.placeStep
  split
  next => exact h.raise hplaced _
  next d hmake =>
    refine h.next rfl rfl rfl (hplaced.directory h.file_eq hok hmake) ?_
    show (made ++ [c]) ++ rest = _
    rw [List.append_assoc]
    exact hok

theorem Working.checkStep (h : Working cache o m k file s)
    (hplaced : Placed cache o m s.disk s.renames k) : (s.checkStep o m k file).Kept cache o := by
  unfold Pull.checkStep
  split
  next => exact h.raise hplaced _
  next hverified =>
    have hholds := verified_true hverified
    refine h.next rfl rfl rfl ?_ trivial
    refine ⟨hplaced.apart, hplaced.settled, fun j f hf hj => ?_, fun j f hf hj => ?_⟩
    · rcases Nat.lt_or_eq_of_le (Nat.lt_succ_iff.mp hj) with hlt | heq
      · exact hplaced.holds j f hf hlt
      · rw [heq, h.file_eq] at hf
        rw [← Option.some.inj hf]
        exact hholds
    · have hj : k + 1 ≤ j := hj
      exact hplaced.fresh j f hf (by omega)
  next => exact h.next rfl rfl rfl hplaced trivial

theorem Working.downloadStep (h : Working cache o m k file s)
    (hplaced : Placed cache o m s.disk s.renames k) : (s.downloadStep o m k file).Kept cache o := by
  unfold Pull.downloadStep
  split
  next => exact h.next rfl rfl rfl hplaced trivial
  next hstreams => exact h.next rfl rfl rfl hplaced hstreams

theorem Working.wholeStep (h : Working cache o m k file s)
    (hplaced : Placed cache o m s.disk s.renames k) {r : Request} {t : Pull}
    (hs : s.wholeStep k file r = some t) : t.Kept cache o := by
  unfold Pull.wholeStep at hs
  split at hs
  · cases hs
  · cases Option.some.inj hs
    exact h.raise hplaced _
  · split at hs
    · cases Option.some.inj hs
      exact h.raise hplaced _
    · cases Option.some.inj hs
      exact h.raise hplaced _
    next hverified =>
      cases Option.some.inj hs
      exact h.next rfl rfl rfl hplaced (verified_true hverified)

theorem Working.partsStep (h : Working cache o m k file s)
    (hplaced : Placed cache o m s.disk s.renames k) {rs : List Request} {broken : Option PullError}
    (hok : streamCount o.parallel file.size ≠ 1) {t : Pull}
    (hs : s.partsStep o m k file rs broken = some t) : t.Kept cache o := by
  unfold Pull.partsStep at hs
  split at hs
  next =>
    cases Option.some.inj hs
    exact h.next rfl rfl rfl hplaced hok
  next =>
    split at hs
    next =>
      cases Option.some.inj hs
      unfold gathered
      split
      · exact h.raise hplaced _
      · exact h.raise hplaced _
      · split
        next => exact h.raise hplaced _
        next hash hhash =>
          refine h.next rfl rfl rfl (h.inside hplaced _ _) ⟨hok, Nat.zero_le _, [], ?_, ?_, rfl⟩
          · exact put_self _ _ _
          · rw [List.append_nil]
            exact fileHasher_some hhash
    next => cases hs

theorem Working.assembleStep (h : Working cache o m k file s)
    (hplaced : Placed cache o m s.disk s.renames k) {i : Nat} {hash : ShaStream}
    (hok : (Acquire.assembling i hash).Ok s.disk s.assembled o m file) :
    (s.assembleStep o k file i hash).Kept cache o := by
  unfold Pull.assembleStep
  split
  next range hrange =>
    split
    next => exact h.raise hplaced _
    next d hash' hdone =>
      obtain ⟨hplaced', hok'⟩ := h.assemble hplaced hok hrange hdone
      exact h.next rfl rfl rfl hplaced' hok'
  next hnone =>
    split
    next hdigest => exact h.next rfl rfl rfl hplaced (h.closed hok hnone hdigest)
    next => exact h.raise hplaced _

theorem Working.publishStep (h : Working cache o m k file s)
    (hplaced : Placed cache o m s.disk s.renames k)
    (hok : ∃ bytes, s.disk s.assembled = some (.file bytes) ∧ Genuine file bytes) :
    (s.publishStep o m k file).Kept cache o := by
  unfold Pull.publishStep
  split
  · exact h.raise hplaced _
  next bytes hass _ =>
    obtain ⟨bytes', hbytes, hgenuine⟩ := hok
    rw [hass] at hbytes
    rw [← Node.file.inj (Option.some.inj hbytes)] at hgenuine
    have hin : ∀ p, Outside p → p ≠ s.assembled :=
      fun p hp => inTemporary_inside h.named h.temporary _ hp
    refine h.next rfl rfl rfl (hplaced.rename h.file_eq hgenuine ?_ fun p hp hpd => ?_) trivial
    · show (s.disk.put _ _).put s.assembled none _ = _
      rw [put_ne _ _ (hin _ (destination_outside o m.revision file)), put_self]
    · show (s.disk.put _ _).put s.assembled none _ = _
      rw [put_ne _ _ (hin p hp), put_ne _ _ hpd]
  · exact h.raise hplaced _

theorem Working.acquireStep (h : Working cache o m k file s) {phase : Acquire}
    (hplaced : Placed cache o m s.disk s.renames (phase.inPlace k))
    (hok : phase.Ok s.disk s.assembled o m file) {t : Pull}
    (hs : s.acquireStep o m k file phase = some t) : t.Kept cache o := by
  cases phase with
  | placing made rest =>
    cases rest with
    | nil =>
      cases Option.some.inj hs
      exact h.next rfl rfl rfl hplaced trivial
    | cons c rest =>
      cases Option.some.inj hs
      exact h.placeStep hplaced hok
  | checking =>
    cases Option.some.inj hs
    exact h.checkStep hplaced
  | downloading =>
    cases Option.some.inj hs
    exact h.downloadStep hplaced
  | whole r => exact h.wholeStep hplaced hs
  | parts rs broken => exact h.partsStep hplaced hok hs
  | assembling i hash =>
    cases Option.some.inj hs
    exact h.assembleStep hplaced hok
  | publishing =>
    cases Option.some.inj hs
    exact h.publishStep hplaced hok
  | ready =>
    cases Option.some.inj hs
    exact begin_kept h.named h.temporary h.parallel h.manifest hplaced
      (List.getElem?_eq_some_iff.mp h.file_eq).1

variable (conv : Json.Conversion δ) (whole : δ → Option Nat)

theorem resolved_apart {s : Pull} (h : s.resolved conv whole o = .ok m) : Apart o m := by
  obtain ⟨metadata, -, h⟩ := exists_of_bind h
  obtain ⟨m', hselect, h⟩ := exists_of_bind h
  split at h
  next => cases h
  next =>
    rw [← Except.ok.inj h]
    exact apart_of_select o hselect

theorem validateOptions_parallel (h : validateOptions o = .ok ()) : 1 ≤ o.parallel := by
  obtain ⟨_, -, h⟩ := exists_of_bind h
  obtain ⟨_, -, h⟩ := exists_of_bind h
  obtain ⟨_, -, h⟩ := exists_of_bind h
  split at h
  next => cases h
  next =>
    split at h
    next => cases h
    next =>
      split at h
      next => cases h
      next hpar =>
        have hpar := not_or.mp hpar
        omega

/-- No manifest yet: nothing in the cache has changed. -/
theorem early_raise (hnamed : s.Named) (hman : s.manifest = none) (e : PullError) :
    (s.raise e).Kept cache o := by
  refine raise_kept hnamed (fun m hm => ?_) e
  rw [hman] at hm
  cases hm

theorem goStep_kept (hnamed : s.Named) (h : s.Kept cache o) {t : Pull}
    (hs : s.goStep conv whole o = some t) : t.Kept cache o := by
  unfold goStep at hs
  unfold Kept at h
  split at hs
  next hstage =>
    rw [hstage] at h
    obtain ⟨htemp, hman, hrenames, hdisk⟩ := h
    split at hs
    next =>
      cases Option.some.inj hs
      exact early_raise hnamed hman _
    next hvalid =>
      cases Option.some.inj hs
      exact ⟨htemp, hman, hrenames, hdisk, validateOptions_parallel hvalid⟩
  next r hstage =>
    rw [hstage] at h
    obtain ⟨htemp, hman, hrenames, hdisk, hpar⟩ := h
    split at hs
    · cases hs
    · cases Option.some.inj hs
      exact early_raise hnamed hman _
    · cases Option.some.inj hs
      exact ⟨htemp, hman, hrenames, hdisk, hpar⟩
  next hstage =>
    rw [hstage] at h
    obtain ⟨htemp, hman, hrenames, hdisk, hpar⟩ := h
    split at hs
    next =>
      cases Option.some.inj hs
      exact early_raise hnamed hman _
    next m hresolved =>
      cases Option.some.inj hs
      have hplaced : Placed cache o m s.disk s.renames 0 := by
        refine ⟨resolved_apart conv whole hresolved, fun j f _ => .inl ⟨?_, ?_⟩, fun j f _ hj => ?_,
          fun j f _ _ => ?_⟩
        · rw [hrenames]
          exact fun _ => List.not_mem_nil
        · exact hdisk _ (destination_outside _ _ _)
        · exact absurd hj (Nat.not_lt_zero j)
        · rw [hrenames]
          exact fun _ => List.not_mem_nil
      exact begin_kept (s := { s with manifest := some m }) hnamed htemp hpar rfl hplaced
        (Nat.zero_le _)
  next k phase hstage =>
    rw [hstage] at h
    obtain ⟨htemp, hpar, m, file, hman, hfile, hplaced, hok⟩ := h
    rw [hman, Option.bind_some, hfile, Option.bind_some] at hs
    exact Working.acquireStep ⟨hnamed, htemp, hpar, hman, hfile⟩ hplaced hok hs
  next => cases hs

theorem Kept.placed (h : s.Kept cache o) (hm : s.manifest = some m) :
    ∃ upto, Placed cache o m s.disk s.renames upto := by
  have hnone : s.manifest ≠ none := fun hn => by
    rw [hm] at hn
    cases hn
  unfold Kept at h
  split at h
  · exact absurd h.2.1 hnone
  · exact absurd h.2.1 hnone
  · exact absurd h.2.1 hnone
  · exact absurd h.2.1 hnone
  next k phase _ =>
    obtain ⟨-, -, m', file, hman, -, hplaced, -⟩ := h
    cases Option.some.inj (hman.symm.trans hm)
    exact ⟨_, hplaced⟩
  · obtain ⟨-, m', hman, hplaced⟩ := h
    cases Option.some.inj (hman.symm.trans hm)
    exact ⟨_, hplaced⟩
  · exact h.2 m hm

theorem kept_raise (hnamed : s.Named) (h : s.Kept cache o) (e : PullError) :
    (s.raise e).Kept cache o := raise_kept hnamed (fun _ hm => h.placed hm) e

theorem failStep_kept (hnamed : s.Named) (h : s.Kept cache o) {t : Pull}
    (hs : s.failStep = some t) : t.Kept cache o := by
  have hraise := kept_raise hnamed h .system
  unfold failStep at hs
  split at hs
  · cases hs
  · cases hs
  next k rs hstage =>
    cases Option.some.inj hs
    unfold Kept at h
    rw [hstage] at h
    exact h
  · cases hs
  · split at hs
    · cases Option.some.inj hs
      exact hraise
    · cases hs
  · split at hs
    · cases Option.some.inj hs
      exact hraise
    · cases hs
  · cases Option.some.inj hs
    exact hraise

theorem nameStep_kept (hnamed : s.Named) (h : s.Kept cache o) {a b : Nat} {t : Pull}
    (hs : s.nameStep o a b = some t) : t.Kept cache o := by
  unfold nameStep at hs
  split at hs
  next attempt hstage =>
    have hraise := kept_raise hnamed h
    unfold Kept at h
    rw [hstage] at h
    obtain ⟨htemp, hman, hrenames, hdisk, hpar⟩ := h
    split at hs
    · cases Option.some.inj hs
      refine ⟨rfl, hman, hrenames, fun p hp => ?_, hpar⟩
      show s.disk.put _ _ p = _
      rw [put_ne _ _ fun heq => hp a b (by rw [heq]), hdisk]
    · cases Option.some.inj hs
      exact hraise _
    · split at hs
      · cases Option.some.inj hs
        exact hraise _
      · cases Option.some.inj hs
        exact ⟨htemp, hman, hrenames, hdisk, hpar⟩
  · cases hs

theorem retry_stage (r : Request) (outcome : Outcome) (f : Fetch) (t : Pull) :
    (t.retry r outcome f).stage = t.stage ∧ (t.retry r outcome f).temporary = t.temporary ∧
      (t.retry r outcome f).manifest = t.manifest ∧ (t.retry r outcome f).disk = t.disk ∧
        (t.retry r outcome f).renames = t.renames := by
  unfold retry
  split_ifs <;> exact ⟨rfl, rfl, rfl, rfl, rfl⟩

theorem triedStep_kept (hnamed : s.Named) (h : s.Kept cache o) {stream : Nat}
    {left : Option Bytes} {outcome : Outcome} {t : Pull}
    (hs : s.triedStep o stream left outcome = some t) : t.Kept cache o := by
  unfold triedStep at hs
  unfold Kept at h
  split at hs
  next r hstage =>
    rw [hstage] at h
    obtain ⟨htemp, hman, hrenames, hdisk, hpar⟩ := h
    split at hs
    next => cases hs
    next =>
      cases Option.some.inj hs
      obtain ⟨h1, h2, h3, h4, h5⟩ := retry_stage r outcome (metadataFetch o) { s with
        disk := s.disk.put s.metadataPath (left.map .file)
        stage := .resolving (r.tried outcome) }
      unfold Kept
      rw [h1]
      show Option.isSome _ = true ∧ _
      rw [h2, h3, h4, h5]
      refine ⟨htemp, hman, hrenames, fun p hp => ?_, hpar⟩
      show s.disk.put _ _ p = _
      rw [put_ne _ _ (show p ≠ s.metadataPath from inTemporary_inside hnamed htemp _ hp), hdisk p hp]
  next k r hstage =>
    rw [hstage] at h
    obtain ⟨htemp, hpar, m, file, hman, hfile, hplaced, hok⟩ := h
    obtain ⟨m', hm', hs⟩ := Option.bind_eq_some_iff.mp hs
    obtain ⟨file', hf', hs⟩ := Option.bind_eq_some_iff.mp hs
    cases Option.some.inj (hm'.symm.trans hman)
    cases Option.some.inj (hf'.symm.trans hfile)
    have hwork : Working cache o m k file s := ⟨hnamed, htemp, hpar, hman, hfile⟩
    split at hs
    next => cases hs
    next =>
      cases Option.some.inj hs
      obtain ⟨h1, h2, h3, h4, h5⟩ := retry_stage r outcome (wholeFetch o m k file) { s with
        disk := s.disk.put s.assembled (left.map .file)
        stage := .files k (.whole (r.tried outcome)) }
      refine hwork.next h1 h2 h3 ?_ trivial
      rw [h4, h5]
      exact hwork.inside hplaced _ _
  next k rs broken hstage =>
    rw [hstage] at h
    obtain ⟨htemp, hpar, m, file, hman, hfile, hplaced, hok⟩ := h
    obtain ⟨m', hm', hs⟩ := Option.bind_eq_some_iff.mp hs
    obtain ⟨file', hf', hs⟩ := Option.bind_eq_some_iff.mp hs
    cases Option.some.inj (hm'.symm.trans hman)
    cases Option.some.inj (hf'.symm.trans hfile)
    have hwork : Working cache o m k file s := ⟨hnamed, htemp, hpar, hman, hfile⟩
    obtain ⟨r, -, hs⟩ := Option.bind_eq_some_iff.mp hs
    obtain ⟨range, -, hs⟩ := Option.bind_eq_some_iff.mp hs
    split at hs
    next => cases hs
    next =>
      cases Option.some.inj hs
      obtain ⟨h1, h2, h3, h4, h5⟩ := retry_stage r outcome (partFetch o m k file stream range) { s with
        disk := s.disk.put (s.partPath stream) (left.map .file)
        stage := .files k (.parts (rs.set stream (r.tried outcome)) broken) }
      refine hwork.next h1 h2 h3 ?_ hok
      rw [h4, h5]
      exact hwork.inside hplaced _ _
  next => cases hs

theorem step_kept (hnamed : s.Named) (h : s.Kept cache o) {m : PullMove} {t : Pull}
    (hs : s.step conv whole o m = some t) : t.Kept cache o := by
  cases m with
  | go => exact goStep_kept conv whole hnamed h hs
  | fails => exact failStep_kept hnamed h hs
  | named a b => exact nameStep_kept hnamed h hs
  | tried stream left outcome => exact triedStep_kept hnamed h hs

end Pull

end Hub

end Llmx
