import Llmx.DiskIndex

namespace Llmx

variable {D : Type}

/-- A segment of whole blocks within one multiple of the segment's tokens. -/
def IndexFile.InSpan (f : IndexFile D) (block : Nat) : Prop :=
  f.state = false → f.first + f.ends.length * block = f.endTok ∧
    f.endTok ≤ (f.first / segmentTokens + 1) * segmentTokens

/-- Pieces that follow one another from `lo` to `hi`. -/
def Follows : Nat → List Piece → Nat → Prop
  | lo, [], hi => lo = hi
  | lo, p :: ps, hi => p.first = lo ∧ p.first < p.use ∧ Follows p.use ps hi

theorem Follows.sum {lo hi : Nat} {ps : List Piece} (h : Follows lo ps hi) :
    lo + (ps.map fun p => p.use - p.first).sum = hi := by
  induction ps generalizing lo with
  | nil => simpa [Follows] using h
  | cons p ps ih =>
    obtain ⟨hfirst, hlt, hrest⟩ := h
    have := ih hrest
    rw [List.map_cons, List.sum_cons]
    omega

/-- A piece of a file on disk, used over blocks that are the history's. -/
def Piece.Held (files : List (IndexFile D)) (d : List D) (block : Nat) (unproved : Bool)
    (p : Piece) : Prop :=
  ∃ f ∈ files, f.state = false ∧ (f.unproved = 0 ∨ unproved = true) ∧ p.key = f.key ∧
    p.first = f.first ∧ p.endTok = f.endTok ∧ d[p.first / block]? = some f.below ∧
    (p.use - p.first) / block ≤ f.ends.length ∧
    f.ends.take ((p.use - p.first) / block) =
      (d.drop (p.first / block + 1)).take ((p.use - p.first) / block)

/-- What a path from block `start` is. -/
structure Walked (files : List (IndexFile D)) (d : List D) (block blocks : Nat)
    (unproved : Bool) (start : Nat) (p : DiskPath) : Prop where
  follows : Follows (start * block) p.pieces p.length
  held : ∀ piece ∈ p.pieces, piece.Held files d block unproved
  whole : ∃ w, p.whole = w * block ∧ start ≤ w ∧ w ≤ max start blocks
  length_le : p.length ≤ max start blocks * block

theorem walked_nil (files : List (IndexFile D)) (d : List D) (block blocks : Nat)
    (unproved : Bool) (start : Nat) :
    Walked files d block blocks unproved start ⟨[], start * block, start * block, none⟩ :=
  ⟨rfl, by simp, ⟨start, rfl, le_rfl, by omega⟩, Nat.mul_le_mul_right _ (by omega)⟩

variable [DecidableEq D]

theorem sharedEnds_le_length (d : List D) (blocks start : Nat) (es : List D) :
    sharedEnds d blocks start es ≤ es.length := by
  induction es generalizing start with
  | nil => simp [sharedEnds]
  | cons e es ih =>
    unfold sharedEnds
    split
    · have := ih (start + 1)
      simp only [List.length_cons]
      omega
    · omega

theorem sharedEnds_le_blocks (d : List D) (blocks start : Nat) (es : List D) :
    sharedEnds d blocks start es ≤ blocks - start := by
  induction es generalizing start with
  | nil => simp [sharedEnds]
  | cons e es ih =>
    unfold sharedEnds
    split
    · have := ih (start + 1)
      omega
    · omega

/-- The blocks a path uses of a file are the history's. -/
theorem take_sharedEnds {d : List D} {blocks start : Nat} {es : List D} :
    es.take (sharedEnds d blocks start es) =
      (d.drop (start + 1)).take (sharedEnds d blocks start es) := by
  induction es generalizing start with
  | nil => simp [sharedEnds]
  | cons e es ih =>
    unfold sharedEnds
    split
    next h =>
      obtain ⟨hlt, hget⟩ := List.getElem?_eq_some_iff.mp h.2
      rw [List.take_succ_cons, ih, List.drop_eq_getElem_cons hlt, List.take_succ_cons, hget]
    next => simp

/-- A file that holds the history's own digests shares them all. -/
theorem sharedEnds_of_own {d : List D} {blocks start m : Nat} (hblocks : start + m ≤ blocks)
    (hlen : blocks < d.length) :
    sharedEnds d blocks start ((d.drop (start + 1)).take m) = m := by
  induction m generalizing start with
  | zero => simp [sharedEnds]
  | succ m ih =>
    have hlt : start + 1 < d.length := by omega
    rw [List.drop_eq_getElem_cons hlt, List.take_succ_cons]
    unfold sharedEnds
    rw [if_pos ⟨by omega, List.getElem?_eq_getElem hlt⟩, ih (by omega)]

/-- The files tried so far share no more than the best, which is one of them. -/
structure Best (d : List D) (blocks start : Nat) (tried : List (IndexFile D))
    (best : Option (IndexFile D) × Nat) : Prop where
  most : ∀ f ∈ tried, sharedEnds d blocks start f.ends ≤ best.2
  one : (best = (none, 0)) ∨ ∃ f ∈ tried, best = (some f, sharedEnds d blocks start f.ends) ∧
    0 < best.2

theorem Best.better {d : List D} {blocks start : Nat} {tried : List (IndexFile D)}
    {best : Option (IndexFile D) × Nat} (h : Best d blocks start tried best) (f : IndexFile D) :
    Best d blocks start (tried ++ [f]) (better d blocks start best f) := by
  obtain ⟨hmost, hone⟩ := h
  unfold Llmx.better
  simp only
  split
  next hf =>
    refine ⟨fun g hg => ?_, Or.inr ⟨f, by simp, rfl, by simp only; omega⟩⟩
    rcases List.mem_append.mp hg with hg | hg
    · have := hmost g hg
      simp only
      omega
    · rw [List.mem_singleton.mp hg]
  next hf =>
    refine ⟨fun g hg => ?_, hone.imp id fun ⟨g, hg, hbest⟩ => ⟨g, by simp [hg], hbest⟩⟩
    rcases List.mem_append.mp hg with hg | hg
    · exact hmost g hg
    · rw [List.mem_singleton.mp hg]
      omega

theorem Best.foldl {d : List D} {blocks start : Nat} {tried : List (IndexFile D)}
    {best : Option (IndexFile D) × Nat} (h : Best d blocks start tried best)
    (files : List (IndexFile D)) :
    Best d blocks start (tried ++ files) (files.foldl (Llmx.better d blocks start) best) := by
  induction files generalizing tried best with
  | nil => simpa using h
  | cons f files ih =>
    have := ih (h.better f)
    rwa [List.append_assoc] at this

theorem bestFrom_spec (files : List (IndexFile D)) (d : List D) (block blocks : Nat)
    (unproved : Bool) (start : Nat) :
    Best d blocks start (files.filter (continues d block unproved start))
      (bestFrom files d block blocks unproved start) := by
  have h : Best d blocks start [] ((none, 0) : Option (IndexFile D) × Nat) :=
    ⟨by simp, Or.inl rfl⟩
  exact h.foldl _

/-- The best of a block shares as much as any file that may continue the history there. -/
structure BestFile (files : List (IndexFile D)) (d : List D) (block blocks : Nat)
    (unproved : Bool) (start : Nat) (f : IndexFile D) (shared : Nat) : Prop where
  mem : f ∈ files
  below : d[start]? = some f.below
  segment : f.state = false
  first : f.first = start * block
  proved : f.unproved = 0 ∨ unproved = true
  eq : shared = sharedEnds d blocks start f.ends
  pos : 0 < shared
  most : ∀ g ∈ files, continues d block unproved start g = true →
    sharedEnds d blocks start g.ends ≤ shared

theorem bestFrom_some {files : List (IndexFile D)} {d : List D} {block blocks : Nat}
    {unproved : Bool} {start : Nat} {f : IndexFile D} {shared : Nat}
    (h : bestFrom files d block blocks unproved start = (some f, shared)) :
    BestFile files d block blocks unproved start f shared := by
  obtain ⟨hmost, hone⟩ := bestFrom_spec files d block blocks unproved start
  rw [h] at hmost hone
  obtain hnone | ⟨g, hg, heq, hpos⟩ := hone
  · cases hnone
  · obtain ⟨hfg, rfl⟩ := Prod.mk.inj heq
    cases hfg
    obtain ⟨hmem, hcont⟩ := List.mem_filter.mp hg
    simp only [continues, Bool.decide_and, Bool.and_eq_true, decide_eq_true_eq] at hcont
    obtain ⟨hbelow, hseg, hfirst, hproved⟩ := hcont
    exact ⟨hmem, hbelow, hseg, hfirst, hproved, rfl, hpos,
      fun g hg hc => hmost g (List.mem_filter.mpr ⟨hg, hc⟩)⟩

theorem bestFrom_none {files : List (IndexFile D)} {d : List D} {block blocks : Nat}
    {unproved : Bool} {start shared : Nat}
    (h : bestFrom files d block blocks unproved start = (none, shared)) :
    ∀ g ∈ files, continues d block unproved start g = true →
      sharedEnds d blocks start g.ends = 0 := by
  obtain ⟨hmost, hone⟩ := bestFrom_spec files d block blocks unproved start
  obtain hnone | ⟨g, hg, heq, hpos⟩ := hone
  · intro g hg hc
    have := hmost g (List.mem_filter.mpr ⟨hg, hc⟩)
    rw [hnone] at this
    simpa using this
  · rw [h] at heq
    cases heq

theorem BestFile.held {files : List (IndexFile D)} {d : List D} {block blocks : Nat}
    {unproved : Bool} {start : Nat} {f : IndexFile D} {shared : Nat} (hblock : 0 < block)
    (h : BestFile files d block blocks unproved start f shared) :
    Piece.Held files d block unproved ⟨f.key, f.first, f.endTok, (start + shared) * block⟩ := by
  have hdiv : ((start + shared) * block - f.first) / block = shared := by
    rw [h.first, Nat.add_mul, Nat.add_sub_cancel_left, Nat.mul_div_cancel _ hblock]
  have hfirst : f.first / block = start := by rw [h.first, Nat.mul_div_cancel _ hblock]
  refine ⟨f, h.mem, h.segment, h.proved, rfl, rfl, rfl, ?_, ?_, ?_⟩
  · simpa only [hfirst] using h.below
  · simp only [hdiv]
    rw [h.eq]
    exact sharedEnds_le_length d blocks start f.ends
  · simp only [hdiv, hfirst]
    rw [h.eq]
    exact take_sharedEnds

theorem walk_walked (files : List (IndexFile D)) (d : List D) {block : Nat} (hblock : 0 < block)
    (blocks : Nat) (unproved : Bool) (fuel start : Nat) :
    Walked files d block blocks unproved start
      (walk files d block blocks unproved fuel start) := by
  induction fuel generalizing start with
  | zero => exact walked_nil files d block blocks unproved start
  | succ fuel ih =>
    unfold walk
    split
    · split
      · exact walked_nil files d block blocks unproved start
      next f shared hbest =>
        have hf := bestFrom_some hbest
        have hle : start + shared ≤ blocks := by
          have := sharedEnds_le_blocks d blocks start f.ends
          have := hf.eq
          omega
        have huse : f.first < (start + shared) * block := by
          rw [hf.first]
          exact Nat.mul_lt_mul_of_pos_right (by have := hf.pos; omega) hblock
        simp only
        split
        · refine ⟨⟨hf.first, huse, rfl⟩, ?_, ⟨start, rfl, le_rfl, by omega⟩,
            Nat.mul_le_mul_right _ (by omega)⟩
          rw [List.forall_mem_singleton]
          exact hf.held hblock
        · obtain ⟨hfollows, hheld, ⟨w, hw, hwle, hwblocks⟩, hlen⟩ := ih (start + shared)
          refine ⟨⟨hf.first, huse, hfollows⟩, ?_, ⟨w, hw, by omega, by omega⟩,
            hlen.trans (Nat.mul_le_mul_right _ (by omega))⟩
          rw [List.forall_mem_cons]
          exact ⟨hf.held hblock, hheld⟩
    · exact walked_nil files d block blocks unproved start

end Llmx
