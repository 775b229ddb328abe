import Llmx.DiskPath

namespace Llmx

variable {D : Type}

/-- A segment file written for a range of the history: its rows and its digests. -/
structure Written (d : List D) (block : Nat) (range : Nat × Nat) (f : IndexFile D) : Prop where
  segment : f.state = false
  proved : f.unproved = 0
  first : f.first = range.1
  endTok : f.endTok = range.2
  below : d[range.1 / block]? = some f.below
  ends : f.ends = (d.drop (range.1 / block + 1)).take ((range.2 - range.1) / block)

/-- Where the range from block `start` of a history of `blocks` blocks ends, in blocks. -/
def cutBlock (block blocks start : Nat) : Nat :=
  min (blocks * block) ((start * block / segmentTokens + 1) * segmentTokens) / block

/-- Some files hold the ranges of the history from block `start` on. -/
inductive Covered (files : List (IndexFile D)) (d : List D) (block blocks : Nat) : Nat → Prop
  | done : Covered files d block blocks blocks
  | next {start f} : start < blocks → f ∈ files →
      Written d block (start * block, cutBlock block blocks start * block) f →
      Covered files d block blocks (cutBlock block blocks start) → Covered files d block blocks start

variable {files : List (IndexFile D)} {d : List D} {block blocks : Nat}

theorem cutBlock_spec (hblock : 0 < block) (hdvd : block ∣ segmentTokens) {start : Nat}
    (hlt : start < blocks) :
    start < cutBlock block blocks start ∧ cutBlock block blocks start ≤ blocks ∧
      cutBlock block blocks start * block =
        min (blocks * block) ((start * block / segmentTokens + 1) * segmentTokens) := by
  have hmul : cutBlock block blocks start * block =
      min (blocks * block) ((start * block / segmentTokens + 1) * segmentTokens) := by
    refine Nat.div_mul_cancel ?_
    rcases Nat.le_total (blocks * block) ((start * block / segmentTokens + 1) * segmentTokens)
      with h | h
    · rw [Nat.min_eq_left h]
      exact Nat.dvd_mul_left _ _
    · rw [Nat.min_eq_right h]
      exact Nat.dvd_mul_left_of_dvd hdvd _
  have hstart : start * block < blocks * block := Nat.mul_lt_mul_of_pos_right hlt hblock
  have hspan : start * block < (start * block / segmentTokens + 1) * segmentTokens := by
    have := Nat.lt_mul_div_succ (start * block) (show 0 < segmentTokens by decide)
    rwa [Nat.mul_comm segmentTokens] at this
  refine ⟨?_, ?_, hmul⟩
  · exact Nat.lt_of_mul_lt_mul_right (a := block) (by omega)
  · exact Nat.le_of_mul_le_mul_right (show _ * block ≤ _ * block by omega) hblock

theorem Written.inSpan (hblock : 0 < block) (hdvd : block ∣ segmentTokens)
    (hlen : blocks < d.length) {start : Nat} (hlt : start < blocks) {f : IndexFile D}
    (h : Written d block (start * block, cutBlock block blocks start * block) f) :
    f.InSpan block := by
  obtain ⟨hcut, hcutle, hmul⟩ := cutBlock_spec hblock hdvd hlt
  intro _
  have hends : f.ends.length = cutBlock block blocks start - start := by
    rw [h.ends]
    simp only [Nat.mul_div_cancel _ hblock, ← Nat.sub_mul, List.length_take, List.length_drop]
    omega
  have hadd : start * block + (cutBlock block blocks start - start) * block =
      cutBlock block blocks start * block := by
    rw [← Nat.add_mul, Nat.add_sub_cancel' hcut.le]
  rw [h.first, h.endTok, hends]
  exact ⟨hadd, by simp only; omega⟩

variable (files) in
/-- The ranges cut from block `start` on, each written to a file. -/
theorem covered_of_written (hblock : 0 < block) (hdvd : block ∣ segmentTokens)
    (hlen : blocks < d.length) {fuel start : Nat} {new : List (IndexFile D)}
    (hle : start ≤ blocks) (hfuel : blocks * block ≤ start * block + fuel)
    (h : List.Forall₂ (Written d block) (cutRanges fuel (start * block) (blocks * block)) new)
    (hsub : new ⊆ files) :
    Covered files d block blocks start ∧
      ∀ f ∈ new, start * block ≤ f.first ∧ f.InSpan block := by
  induction fuel generalizing start new with
  | zero =>
    have : blocks ≤ start := Nat.le_of_mul_le_mul_right (by omega) hblock
    have : start = blocks := by omega
    subst this
    cases h
    exact ⟨.done, by simp⟩
  | succ fuel ih =>
    unfold cutRanges at h
    split at h
    next hlt =>
      have hlt : start < blocks := Nat.lt_of_mul_lt_mul_right (a := block) (by omega)
      obtain ⟨hcut, hcutle, hmul⟩ := cutBlock_spec hblock hdvd hlt
      cases h with
      | @cons _ f _ new hf hrest =>
        rw [← hmul] at hf hrest
        have hstep : start * block + 1 ≤ cutBlock block blocks start * block :=
          Nat.mul_lt_mul_of_pos_right hcut hblock
        rw [List.cons_subset] at hsub
        obtain ⟨hcov, hnew⟩ := ih hcutle (by omega) hrest hsub.2
        refine ⟨.next hlt hsub.1 hf hcov, ?_⟩
        rw [List.forall_mem_cons]
        exact ⟨⟨hf.first.ge, hf.inSpan hblock hdvd hlen hlt⟩,
          fun g hg => ⟨by have := (hnew g hg).1; omega, (hnew g hg).2⟩⟩
    next hge =>
      have : blocks ≤ start := Nat.le_of_mul_le_mul_right (by omega) hblock
      have : start = blocks := by omega
      subst this
      cases h
      exact ⟨.done, by simp⟩

variable [DecidableEq D]

/-- Where the ranges left are on disk, the path reaches the history's end. -/
theorem walk_of_covered (hblock : 0 < block) (hdvd : block ∣ segmentTokens)
    (hlen : blocks < d.length) (hspan : ∀ f ∈ files, f.InSpan block) {start : Nat}
    (h : Covered files d block blocks start) {fuel : Nat} (hfuel : blocks ≤ start + fuel) :
    (walk files d block blocks false fuel start).length = blocks * block := by
  induction h generalizing fuel with
  | done => cases fuel <;> simp [walk]
  | @next start f hlt hf hw _ ih =>
    obtain ⟨hcut, hcutle, hmul⟩ := cutBlock_spec hblock hdvd hlt
    generalize cutBlock block blocks start = cut at *
    obtain ⟨fuel, rfl⟩ : ∃ m, fuel = m + 1 := ⟨fuel - 1, by omega⟩
    have hown : sharedEnds d blocks start f.ends = cut - start := by
      rw [hw.ends]
      simp only [Nat.mul_div_cancel _ hblock, ← Nat.sub_mul]
      exact sharedEnds_of_own (by omega) hlen
    have hcont : continues d block false start f = true := by
      have hbelow := hw.below
      simp only [Nat.mul_div_cancel _ hblock] at hbelow
      simp [continues, hbelow, hw.segment, hw.first, hw.proved]
    unfold walk
    rw [if_pos hlt]
    split
    next shared hbest =>
      have := bestFrom_none hbest f hf hcont
      omega
    next g shared hbest =>
      have hg := bestFrom_some hbest
      have hge := hg.most f hf hcont
      obtain ⟨hgend, hgspan⟩ := hspan g hg.mem hg.segment
      rw [hg.first] at hgend hgspan
      have hgle : start * block + g.ends.length * block ≤
          (start * block / segmentTokens + 1) * segmentTokens := by omega
      have hsharedle : shared ≤ g.ends.length := hg.eq ▸ sharedEnds_le_length d blocks start g.ends
      have hsharedblocks : shared ≤ blocks - start := hg.eq ▸ sharedEnds_le_blocks d blocks start g.ends
      have hshared : start + shared = cut := by
        refine Nat.le_antisymm (Nat.le_of_mul_le_mul_right ?_ hblock) (by omega)
        have h1 : (start + shared) * block ≤ blocks * block := Nat.mul_le_mul_right _ (by omega)
        have h2 : (start + shared) * block ≤ start * block + g.ends.length * block := by
          rw [← Nat.add_mul]
          exact Nat.mul_le_mul_right _ (by omega)
        omega
      simp only [hshared]
      split
      next hpart =>
        have hpast : cut * block < start * block + g.ends.length * block := by
          rw [← Nat.add_mul]
          exact Nat.mul_lt_mul_of_pos_right (by omega) hblock
        show cut * block = blocks * block
        omega
      next => exact ih (by omega)

/-- Files that start further on change no choice before. -/
theorem bestFrom_append {new : List (IndexFile D)} {unproved : Bool} {start : Nat}
    (hnew : ∀ f ∈ new, start * block < f.first) :
    bestFrom (files ++ new) d block blocks unproved start =
      bestFrom files d block blocks unproved start := by
  have hnone : new.filter (continues d block unproved start) = [] := by
    rw [List.filter_eq_nil_iff]
    intro f hf hc
    have := hnew f hf
    simp only [continues, Bool.decide_and, Bool.and_eq_true, decide_eq_true_eq] at hc
    omega
  rw [bestFrom, bestFrom, List.filter_append, hnone, List.append_nil]

/-- Where the ranges past the whole segments are written, the path reaches the history's end. -/
theorem walk_append (hblock : 0 < block) (hdvd : block ∣ segmentTokens) (hlen : blocks < d.length)
    {new : List (IndexFile D)} (hspan : ∀ f ∈ files ++ new, f.InSpan block) {fuel start w : Nat}
    (hfuel : blocks ≤ start + fuel)
    (hwhole : (walk files d block blocks false fuel start).whole = w * block)
    (hnew : ∀ f ∈ new, w * block ≤ f.first) (hw : Covered (files ++ new) d block blocks w) :
    (walk (files ++ new) d block blocks false fuel start).length = blocks * block := by
  have hhere : w = start → (walk (files ++ new) d block blocks false fuel start).length =
      blocks * block := by
    rintro rfl
    exact walk_of_covered hblock hdvd hlen hspan hw hfuel
  induction fuel generalizing start with
  | zero => exact hhere (Nat.eq_of_mul_eq_mul_right hblock hwhole.symm)
  | succ fuel ih =>
    unfold walk at hwhole
    split at hwhole
    next hlt =>
      split at hwhole
      next => exact hhere (Nat.eq_of_mul_eq_mul_right hblock hwhole.symm)
      next f shared hbest =>
        simp only at hwhole
        split at hwhole
        next => exact hhere (Nat.eq_of_mul_eq_mul_right hblock hwhole.symm)
        next hall =>
          have hf := bestFrom_some hbest
          simp only at hwhole
          obtain ⟨v, hv, hle, -⟩ := (walk_walked files d hblock blocks false fuel (start + shared)).whole
          have hwv : w = v := Nat.eq_of_mul_eq_mul_right hblock (hwhole.symm.trans hv)
          have hpast : ∀ f ∈ new, start * block < f.first := by
            intro g hg
            refine lt_of_lt_of_le (Nat.mul_lt_mul_of_pos_right ?_ hblock) (hnew g hg)
            have := hf.pos
            omega
          unfold walk
          rw [if_pos hlt, bestFrom_append hpast, hbest]
          simp only
          rw [if_neg hall]
          refine ih (by have := hf.pos; omega) hwhole ?_
          rintro rfl
          exact walk_of_covered hblock hdvd hlen hspan hw (by have := hf.pos; omega)
    next => exact hhere (Nat.eq_of_mul_eq_mul_right hblock hwhole.symm)

theorem cutRanges_self (fuel start : Nat) : cutRanges fuel start start = [] := by
  cases fuel <;> simp [cutRanges]

/-- A path follows the history from its start, over blocks that are the history's; and one segment
file for each range missing makes the path reach every whole block, with nothing missing. -/
theorem missing_completes (files : List (IndexFile D)) (d : List D) {block : Nat} (n : Nat)
    (hblock : 0 < block) (hdvd : block ∣ segmentTokens) (hd : d ≠ [])
    (hspan : ∀ f ∈ files, f.InSpan block) (new : List (IndexFile D))
    (hnew : List.Forall₂ (Written d block) (missing files d block n) new) :
    Follows 0 (path files d block n false false).pieces (path files d block n false false).length ∧
      (∀ piece ∈ (path files d block n false false).pieces, piece.Held files d block false) ∧
      ((path files d block n false false).pieces.map fun p => p.use - p.first).sum =
        (path files d block n false false).length ∧
      (path (files ++ new) d block n false false).length = wholeBlocks d block n * block ∧
      missing (files ++ new) d block n = [] := by
  have hlen : wholeBlocks d block n < d.length := by
    have := List.length_pos_iff.mpr hd
    unfold wholeBlocks
    omega
  have hwalk := walk_walked files d hblock (wholeBlocks d block n) false (wholeBlocks d block n) 0
  have hpath : path files d block n false false =
      walk files d block (wholeBlocks d block n) false (wholeBlocks d block n) 0 := rfl
  have hreach : (path (files ++ new) d block n false false).length =
      wholeBlocks d block n * block := by
    have hle := hwalk.length_le
    rw [Nat.zero_max, ← hpath] at hle
    unfold missing at hnew
    simp only at hnew
    split at hnew
    next hall =>
      rw [cutRanges_self] at hnew
      cases hnew
      rw [List.append_nil]
      omega
    next hpart =>
      obtain ⟨w, hw, -, hwle⟩ := hwalk.whole
      rw [hpath, hw] at hnew
      obtain ⟨hcov, hnew⟩ := covered_of_written (files ++ new) hblock hdvd hlen
        (by omega) (by omega) hnew (List.subset_append_right _ _)
      refine walk_append hblock hdvd hlen (fun f hf => ?_) (by omega) hw
        (fun f hf => (hnew f hf).1) hcov
      rcases List.mem_append.mp hf with hf | hf
      · exact hspan f hf
      · exact (hnew f hf).2
  have hfollows := hwalk.follows
  rw [Nat.zero_mul, ← hpath] at hfollows
  refine ⟨hfollows, hwalk.held, by simpa using hfollows.sum, hreach, ?_⟩
  unfold missing
  simp only [hreach, le_refl, ↓reduceIte]
  exact cutRanges_self _ _

/-- A segment of a history's first two blocks, and one that parts from it in the fourth. -/
def partedIndex : List (IndexFile Nat) :=
  [⟨1, false, 0, 1024, 0, [1, 2], 5, false, 0⟩, ⟨2, false, 1024, 2048, 2, [3, 9], 6, false, 0⟩]

/-- The rest of the history, from where whole segments end. -/
def partedWrites : List (IndexFile Nat) :=
  [⟨3, false, 1024, 2048, 2, [3, 4], 7, false, 0⟩, ⟨4, false, 2048, 2560, 4, [5], 7, false, 0⟩]

theorem missing_completes_parted :
    (path partedIndex [0, 1, 2, 3, 4, 5] 512 2600 false false).length = 1536 ∧
      (path (partedIndex ++ partedWrites) [0, 1, 2, 3, 4, 5] 512 2600 false false).length = 2560 ∧
      missing (partedIndex ++ partedWrites) [0, 1, 2, 3, 4, 5] 512 2600 = [] := by
  have hnew : List.Forall₂ (Written [0, 1, 2, 3, 4, 5] 512)
      (missing partedIndex [0, 1, 2, 3, 4, 5] 512 2600) partedWrites := by
    have hmissing : missing partedIndex [0, 1, 2, 3, 4, 5] 512 2600 =
        [(1024, 2048), (2048, 2560)] := by decide +kernel
    rw [hmissing]
    exact .cons ⟨rfl, rfl, rfl, rfl, rfl, rfl⟩ (.cons ⟨rfl, rfl, rfl, rfl, rfl, rfl⟩ .nil)
  have hspan : ∀ f ∈ partedIndex, f.InSpan 512 := by
    simp [partedIndex, IndexFile.InSpan, segmentTokens]
  have h := missing_completes partedIndex [0, 1, 2, 3, 4, 5] 2600 (by decide) (by decide)
    (by decide) hspan partedWrites hnew
  exact ⟨by decide +kernel, h.2.2.2.1, h.2.2.2.2⟩

end Llmx
