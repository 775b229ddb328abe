import Llmx.DiskWrites
import Llmx.DiskStanding

namespace Llmx

/-- A file of the index and the bytes it takes. -/
structure TierFile (D : Type) where
  file : IndexFile D
  bytes : Nat
deriving DecidableEq

/-- The disk tier: its index and cap, the files the one being written stands on, and those of the
reads and the streams in flight. -/
structure DiskTier (D : Type) where
  index : List (TierFile D)
  cap : Nat
  pins : List Nat
  reads : List (List Nat)
  streams : List (List Nat)
deriving DecidableEq

section

variable {D : Type} [DecidableEq D]

def filesOf (index : List (TierFile D)) : List (IndexFile D) := index.map (·.file)

def indexBytes (index : List (TierFile D)) : Nat := (index.map (·.bytes)).sum

def removeKey (index : List (TierFile D)) (key : Nat) : List (TierFile D) :=
  index.eraseP (·.file.key = key)

/-- The files that may not go now. -/
def DiskTier.pinned (t : DiskTier D) : List Nat := t.pins ++ t.reads.flatten ++ t.streams.flatten

def DiskTier.forget (t : DiskTier D) (key : Nat) : DiskTier D :=
  { t with index := removeKey t.index key }

/-- What a trial of the room comes to: no room, or the files that go. -/
inductive Trial
  | unfinished
  | refused
  | gone (keys : List Nat)
deriving DecidableEq

def Trial.also (key : Nat) : Trial → Trial
  | .gone keys => .gone (key :: keys)
  | other => other

/-- The loop of `room` on its trial copy. -/
def tryRoom (cap bytes : Nat) (back : Bool) (keep : List Nat) : Nat → List (TierFile D) → Trial
  | 0, _ => .unfinished
  | fuel + 1, trial =>
    if cap < indexBytes trial + bytes then
      match victim (filesOf trial) none keep with
      | none => .refused
      | some v =>
        if back = false ∧ v.back = true then .refused
        else (tryRoom cap bytes back keep fuel (removeKey trial v.key)).also v.key
    else .gone []

/-- Room for `bytes` more within the cap, and the tier after it; nothing where the loop does not
end. -/
def DiskTier.room (t : DiskTier D) (bytes : Nat) (back : Bool) : Option (Bool × DiskTier D) :=
  if t.cap < bytes then some (false, t)
  else if indexBytes t.index + bytes ≤ t.cap then some (true, t)
  else
    match tryRoom t.cap bytes back t.pinned (t.index.length + 1) t.index with
    | .unfinished => none
    | .refused => some (false, t)
    | .gone keys => some (true, keys.foldl DiskTier.forget t)

/-- Whether the state at `n` of a history is on disk. -/
def hasState (files : List (IndexFile D)) (d : List D) (block n : Nat) : Bool :=
  files.any fun f => d[n / block]? = some f.below ∧ f.state = true ∧ f.endTok = n ∧ f.unproved = 0

/-- A history the tier is asked to write: its digests, whether its conversation came back, the host
copy it is read from, with its blocks or without, and the most rows taken off the devices. -/
structure DiskWrite (D : Type) where
  d : List D
  block : Nat
  n : Nat
  keepsState : Bool
  back : Bool
  used : Int
  held : Option Bool
  most : Nat

namespace DiskWrite

variable (r : DiskWrite D)

/-- Where a segment of the range ends that is written now. -/
def segmentEnd (first stop : Nat) : Nat :=
  if r.held = none ∧ r.most < stop - first then first + max r.block (r.most / r.block * r.block)
  else stop

def segment (first stop : Nat) : Option (IndexFile D) :=
  (r.d[first / r.block]?).map fun below =>
    { key := 0, state := false, first := first, endTok := r.segmentEnd first stop, below := below,
      ends := (r.d.drop (first / r.block + 1)).take
        (r.segmentEnd first stop / r.block - first / r.block),
      used := r.used, back := r.back, unproved := 0 }

def stateFile (files : List (IndexFile D)) : Option (IndexFile D) :=
  if r.keepsState = true ∧ r.n ≠ 0 ∧ ¬ hasState files r.d r.block r.n then
    (r.d[r.n / r.block]?).map fun below =>
      { key := 0, state := true, first := r.n, endTok := r.n, below := below, ends := [],
        used := r.used, back := r.back, unproved := 0 }
  else none

/-- The next file the history lacks on disk, a segment and then its state. -/
def file (files : List (IndexFile D)) : Option (IndexFile D) :=
  match missing files r.d r.block r.n with
  | (first, stop) :: _ => if r.held ≠ some false then r.segment first stop else r.stateFile files
  | [] => r.stateFile files

end DiskWrite

/-- The tier with what the file of a write stands on pinned. -/
def DiskTier.standOn (t : DiskTier D) (r : DiskWrite D) (f : IndexFile D) : DiskTier D :=
  { t with pins := (path (filesOf t.index) r.d r.block f.first false false).pieces.map (·.key) }

/-- The unproved files that a file of this build's makes needless. -/
def covered (files : List (IndexFile D)) (f : IndexFile D) : List Nat :=
  (files.filter fun u => u.unproved ≠ 0 ∧
    (u.state = true ∧ (if f.state then u.below = f.below ∧ u.endTok = f.endTok
      else u.below ∈ f.ends) ∨
      u.state = false ∧ f.state = false ∧ ∀ e ∈ u.ends, e ∈ f.ends)).map (·.key)

/-- The write in flight ended whole: its file enters the index under its key. -/
def DiskTier.written (t : DiskTier D) (f : IndexFile D) (bytes key : Nat) : DiskTier D :=
  let t' := ((covered (filesOf t.index) f).filter fun k => k ∉ t.pinned).foldl DiskTier.forget t
  { t' with index := t'.index ++ [⟨{ f with key := key }, bytes⟩] }

end

variable {D : Type} [DecidableEq D] {index : List (TierFile D)} {files : List (IndexFile D)}
  {root : D}

/-- Files as a history's digests make them: each digest names one position, each file has its own
key, and a state holds no digest. -/
structure Consistent (files : List (IndexFile D)) : Prop where
  placed : Placed files
  keys : (files.map (·.key)).Nodup
  states : ∀ f ∈ files, f.state = true → f.ends = []

omit [DecidableEq D] in
theorem Consistent.sublist {files' : List (IndexFile D)} (h : Consistent files)
    (hsub : files'.Sublist files) : Consistent files' :=
  ⟨h.placed.sublist hsub.subset, h.keys.sublist (hsub.map _),
    fun f hf => h.states f (hsub.subset hf)⟩

omit [DecidableEq D] in
theorem filesOf_removeKey (index : List (TierFile D)) (key : Nat) :
    filesOf (removeKey index key) = (remove (filesOf index) key).2 := by
  unfold filesOf removeKey remove
  rw [List.eraseP_map]
  exact Eq.refl _

omit [DecidableEq D] in
theorem removeKey_sublist (index : List (TierFile D)) (key : Nat) :
    (removeKey index key).Sublist index := List.eraseP_sublist

/-- Files gone one after another, each the next to go of what is left, none of a conversation that
came back where `back` is false. -/
inductive Goes (back : Bool) (keep : List Nat) :
    List (TierFile D) → List Nat → List (TierFile D) → Prop
  | done {index : List (TierFile D)} : Goes back keep index [] index
  | next {index left : List (TierFile D)} {v : Victim} {keys : List Nat} :
      victim (filesOf index) none keep = some v → (back = false → v.back = false) →
      Goes back keep (removeKey index v.key) keys left → Goes back keep index (v.key :: keys) left

theorem Goes.left_eq {back : Bool} {keep keys : List Nat} {left : List (TierFile D)}
    (h : Goes back keep index keys left) : keys.foldl removeKey index = left := by
  induction h with
  | done => exact Eq.refl _
  | next _ _ _ ih => exact ih

theorem Goes.sublist {back : Bool} {keep keys : List Nat} {left : List (TierFile D)}
    (h : Goes back keep index keys left) : left.Sublist index := by
  induction h with
  | done => exact List.Sublist.refl _
  | next _ _ _ ih => exact ih.trans (removeKey_sublist _ _)

/-- The trial ends, and where it makes the room the files left fit with the new one. -/
theorem tryRoom_spec {cap bytes : Nat} {back : Bool} {keep : List Nat} (fuel : Nat)
    (hfuel : index.length < fuel) :
    tryRoom cap bytes back keep fuel index = .refused ∨
      ∃ keys left, tryRoom cap bytes back keep fuel index = .gone keys ∧
        Goes back keep index keys left ∧ indexBytes left + bytes ≤ cap := by
  induction fuel generalizing index with
  | zero => omega
  | succ fuel ih =>
    unfold tryRoom
    split
    next hover =>
      cases hv : victim (filesOf index) none keep with
      | none => exact Or.inl (Eq.refl _)
      | some v =>
        dsimp only
        split
        next => exact Or.inl (Eq.refl _)
        next hback =>
          have hgo : back = false → v.back = false := by
            intro hb
            rw [← Bool.not_eq_true]
            exact fun hvb => hback ⟨hb, hvb⟩
          obtain ⟨i, f, hf, hkey, -, -⟩ := victim_spec hv
          have hlen : (removeKey index v.key).length + 1 = index.length := by
            have hlen := length_remove hf hkey
            rw [← filesOf_removeKey] at hlen
            simpa only [filesOf, List.length_map] using hlen
          have hlater : (removeKey index v.key).length < fuel := by omega
          rcases ih hlater with hno | ⟨keys, left, hk, hg, hfit⟩
          · left
            rw [hno]
            exact Eq.refl _
          · right
            refine ⟨v.key :: keys, left, ?_, .next hv hgo hg, hfit⟩
            rw [hk]
            exact Eq.refl _
    next hfit =>
      exact Or.inr ⟨[], index, Eq.refl _, .done, by omega⟩

/-- The segments are whole still after files went. -/
theorem Goes.whole {back : Bool} {keep keys : List Nat} {left : List (TierFile D)}
    (h : Goes back keep index keys left) (hindex : Consistent (filesOf index))
    (hwhole : unreachable root (filesOf index) false = []) :
    unreachable root (filesOf left) false = [] := by
  induction h with
  | done => exact hwhole
  | @next index _ v _ hv _ _ ih =>
    have hsub : (filesOf (removeKey index v.key)).Sublist (filesOf index) :=
      (removeKey_sublist _ _).map _
    apply ih (hindex.sublist hsub)
    rw [filesOf_removeKey]
    exact whole_remove hindex.placed hindex.keys (Or.inr hindex.states) hwhole hv

/-- What went was not kept, and did not come back where `back` is false. -/
theorem Goes.gone {back : Bool} {keep keys : List Nat} {left : List (TierFile D)}
    (h : Goes back keep index keys left) (hindex : Consistent (filesOf index)) {f : IndexFile D}
    (hf : f ∈ filesOf index) (hgone : f ∉ filesOf left) :
    f.key ∉ keep ∧ (back = false → ¬ CameBack (filesOf index) f) := by
  induction h with
  | done => exact absurd hf hgone
  | @next index _ v _ hv hback _ ih =>
    obtain ⟨i, x, hx, hkey, hgo, hmark⟩ := victim_spec hv
    simp only [mayGo, Bool.decide_and, Bool.and_eq_true, decide_eq_true_eq] at hgo
    have hxm := List.mem_of_getElem? hx
    have hsame : ∀ g ∈ filesOf index, g.key = x.key → g = x := fun g hg heq =>
      List.inj_on_of_nodup_map hindex.keys hg hxm heq
    have hnot : back = false → ¬ CameBack (filesOf index) x := by
      intro hb hcame
      have hmarked := backOf_of_cameBack hindex.placed hindex.keys hx hcame
      rw [← hmark, hback hb] at hmarked
      cases hmarked
    by_cases hfx : f = x
    · subst hfx
      exact ⟨hgo.2.2, hnot⟩
    · have hrest : f ∈ (remove (filesOf index) x.key).2 :=
        (mem_remove hindex.keys).mpr ⟨hf, fun heq => hfx (hsame f hf heq)⟩
      have hsub : (filesOf (removeKey index v.key)).Sublist (filesOf index) :=
        (removeKey_sublist _ _).map _
      have hlater := ih (hindex.sublist hsub)
      rw [filesOf_removeKey, ← hkey] at hlater
      obtain ⟨hkeep, hback'⟩ := hlater hrest hgone
      refine ⟨hkeep, fun hb hcame => hback' hb ?_⟩
      have hown : x.back = false := by
        rw [← Bool.not_eq_true]
        exact fun hxb => hnot hb ⟨x, x, Or.inl (Eq.refl _), .self, hxb⟩
      exact hcame.remove hindex.keys hxm (not_parentFile hindex.keys hx hgo.1) hown hrest

/-- The root, or a digest that a file on a path holds. -/
def Open (root : D) (files : List (IndexFile D)) (e : D) : Prop :=
  e = root ∨ ∃ g, OnPath root files g ∧ e ∈ g.ends

omit [DecidableEq D] in
theorem Open.onPath {f : IndexFile D} (h : Open root files f.below) (hf : f ∈ files) :
    OnPath root files f := by
  rcases h with hroot | ⟨g, hg, hbelow⟩
  · exact .root hf hroot
  · exact .step hg hf hbelow

section Path

variable {d : List D} {block blocks w : Nat}

/-- Digests shared up to a block at most are shared as many where only blocks below it count. -/
theorem sharedEnds_limited {start : Nat} {es : List D} (hw : w ≤ blocks)
    (h : start + sharedEnds d blocks start es ≤ w) :
    sharedEnds d w start es = sharedEnds d blocks start es := by
  induction es generalizing start with
  | nil => exact Eq.refl _
  | cons e es ih =>
    unfold sharedEnds at h ⊢
    split at h
    next hshared =>
      rw [if_pos ⟨by omega, hshared.2⟩, if_pos hshared, ih (by omega)]
    next hnot =>
      rw [if_neg (fun hlim => hnot ⟨by omega, hlim.2⟩), if_neg hnot]

theorem bestFrom_limited {unproved : Bool} {start shared : Nat} {best : Option (IndexFile D)}
    (h : bestFrom files d block blocks unproved start = (best, shared)) (hw : w ≤ blocks)
    (hle : start + shared ≤ w) :
    bestFrom files d block w unproved start = (best, shared) := by
  have hmost := (bestFrom_spec files d block blocks unproved start).most
  rw [h] at hmost
  rw [← h]
  apply List.foldl_ext
  intro b f hf
  have hf := hmost f hf
  unfold better
  rw [sharedEnds_limited hw (by dsimp only at hf; omega)]

/-- A file of a path used whole ends at the digest of the block it is used up to. -/
theorem BestFile.ends_at {start shared : Nat} {f : IndexFile D} {unproved : Bool}
    (h : BestFile files d block blocks unproved start f shared) (hall : ¬ shared < f.ends.length)
    {e : D} (he : d[start + shared]? = some e) : e ∈ f.ends := by
  have hpos := h.pos
  have hle : shared ≤ f.ends.length := by
    rw [h.eq]
    exact sharedEnds_le_length d blocks start f.ends
  have htake : f.ends.take shared = (d.drop (start + 1)).take shared := by
    rw [h.eq]
    exact take_sharedEnds
  have hget : (f.ends.take shared)[shared - 1]? = some e := by
    rw [htake, List.getElem?_take_of_lt (by omega), List.getElem?_drop,
      show start + 1 + (shared - 1) = start + shared by omega]
    exact he
  exact List.mem_of_mem_take (List.mem_of_getElem? hget)

/-- Where the files of a path up to its whole segments are kept, the digest they end at is open. -/
theorem open_walk {kept : List (IndexFile D)} (hblock : 0 < block) {fuel fuel' start : Nat}
    (hw : (walk files d block blocks false fuel start).whole = w * block) (hle : w ≤ blocks)
    (hfuel : w ≤ start + fuel')
    (hkept : ∀ g ∈ files, g.key ∈ (walk files d block w false fuel' start).pieces.map (·.key) →
      g ∈ kept)
    (hopen : ∀ e, d[start]? = some e → Open root kept e) {e : D} (he : d[w]? = some e) :
    Open root kept e := by
  have hhere : start * block = w * block → Open root kept e := by
    intro heq
    obtain rfl := Nat.eq_of_mul_eq_mul_right hblock heq
    exact hopen e he
  induction fuel generalizing start fuel' with
  | zero => exact hhere hw
  | succ fuel ih =>
    unfold walk at hw
    split at hw
    next hlt =>
      split at hw
      next => exact hhere hw
      next f shared hbest =>
        dsimp only at hw
        split at hw
        next => exact hhere hw
        next hall =>
          have hf := bestFrom_some hbest
          obtain ⟨v, hv, hvle, -⟩ :=
            (walk_walked files d hblock blocks false fuel (start + shared)).whole
          have hwv : w = v := Nat.eq_of_mul_eq_mul_right hblock (hw.symm.trans hv)
          have hpos := hf.pos
          obtain ⟨k, rfl⟩ : ∃ k, fuel' = k + 1 := ⟨fuel' - 1, by omega⟩
          have hsmall : walk files d block w false (k + 1) start =
              { walk files d block w false k (start + shared) with
                pieces := ⟨f.key, f.first, f.endTok, (start + shared) * block⟩ ::
                  (walk files d block w false k (start + shared)).pieces } := by
            conv_lhs => unfold walk
            rw [if_pos (by omega), bestFrom_limited hbest hle (by omega)]
            dsimp only
            rw [if_neg hall]
          rw [hsmall] at hkept
          have hfk : f ∈ kept := hkept f hf.mem List.mem_cons_self
          have hpath := (hopen f.below hf.below).onPath hfk
          apply ih hw (by omega) (fun g hg hin => hkept g hg (List.mem_cons_of_mem _ hin))
          · intro e' he'
            exact Or.inr ⟨f, hpath, hf.ends_at hall he'⟩
          · intro heq
            obtain rfl := Nat.eq_of_mul_eq_mul_right hblock heq
            exact Or.inr ⟨f, hpath, hf.ends_at hall he⟩
    next => exact hhere hw

/-- The digest under the first range missing is open where the files of the path up to it are
kept. -/
theorem open_missing {kept : List (IndexFile D)} (hblock : 0 < block) (hd : d.head? = some root)
    {n first stop : Nat} {rest : List (Nat × Nat)}
    (hmissing : missing files d block n = (first, stop) :: rest)
    (hkept : ∀ g ∈ files, g.key ∈ (path files d block first false false).pieces.map (·.key) →
      g ∈ kept) {e : D} (he : d[first / block]? = some e) : Open root kept e := by
  obtain ⟨w, hw, -, hwle⟩ :=
    (walk_walked files d hblock (wholeBlocks d block n) false (wholeBlocks d block n) 0).whole
  have hpath : path files d block n false false =
      walk files d block (wholeBlocks d block n) false (wholeBlocks d block n) 0 := Eq.refl _
  have hfirst : first = w * block := by
    unfold missing at hmissing
    dsimp only at hmissing
    split at hmissing
    · rw [cutRanges_self] at hmissing
      cases hmissing
    · rw [hpath, hw] at hmissing
      cases hb : wholeBlocks d block n * block with
      | zero =>
        rw [hb] at hmissing
        cases hmissing
      | succ m =>
        rw [hb] at hmissing
        unfold cutRanges at hmissing
        split at hmissing
        · exact (Prod.mk.inj (List.cons.inj hmissing).1).1.symm
        · cases hmissing
  have hdpos : 0 < d.length := by
    obtain ⟨t, rfl⟩ := List.head?_eq_some_iff.mp hd
    exact Nat.succ_pos _
  have hblocks : wholeBlocks d block first = w := by
    have hcap : wholeBlocks d block n ≤ d.length - 1 := Nat.min_le_right _ _
    unfold wholeBlocks
    rw [hfirst, Nat.mul_div_cancel _ hblock]
    omega
  have hsmall : path files d block first false false = walk files d block w false w 0 := by
    unfold path
    dsimp only
    rw [hblocks]
    exact if_neg Bool.false_ne_true
  rw [hsmall] at hkept
  rw [hfirst, Nat.mul_div_cancel _ hblock] at he
  apply open_walk hblock hw (by omega) (by omega) hkept _ he
  intro e' he'
  rw [← List.head?_eq_getElem?, hd] at he'
  exact Or.inl (Option.some.inj he').symm

end Path

omit [DecidableEq D] in
theorem forget_all (keys : List Nat) (t : DiskTier D) :
    keys.foldl DiskTier.forget t = { t with index := keys.foldl removeKey t.index } := by
  induction keys generalizing t with
  | nil => exact Eq.refl _
  | cons key keys ih =>
    rw [List.foldl_cons, ih]
    exact Eq.refl _

omit [DecidableEq D] in
theorem mem_removeKeys {keys : List Nat} (hkeys : ((filesOf index).map (·.key)).Nodup)
    {f : IndexFile D} :
    f ∈ filesOf (keys.foldl removeKey index) ↔ f ∈ filesOf index ∧ f.key ∉ keys := by
  induction keys generalizing index with
  | nil => simp
  | cons key keys ih =>
    have hsub : (filesOf (removeKey index key)).Sublist (filesOf index) :=
      (removeKey_sublist _ _).map _
    rw [List.foldl_cons, ih (hkeys.sublist (hsub.map _)), filesOf_removeKey, mem_remove hkeys,
      List.mem_cons, not_or, and_assoc]

theorem mem_written {t : DiskTier D} {f : IndexFile D} {bytes key : Nat}
    (hkeys : ((filesOf t.index).map (·.key)).Nodup) {g : IndexFile D} :
    g ∈ filesOf (t.written f bytes key).index ↔
      (g ∈ filesOf t.index ∧ (g.key ∈ covered (filesOf t.index) f → g.key ∈ t.pinned)) ∨
        g = { f with key := key } := by
  unfold DiskTier.written
  dsimp only
  rw [forget_all]
  unfold filesOf
  rw [List.map_append, List.mem_append, List.map_singleton, List.mem_singleton]
  apply or_congr_left
  apply (mem_removeKeys hkeys).trans
  rw [List.mem_filter, not_and, decide_eq_true_eq, not_not]
  exact Iff.rfl

/-- A file holds every digest of a segment it covers. -/
theorem ends_of_covered (hfiles : Consistent files) {f u : IndexFile D} (hu : u ∈ files)
    (h : u.key ∈ covered files f) {e : D} (he : e ∈ u.ends) : e ∈ f.ends := by
  obtain ⟨x, hx, hkey⟩ := List.mem_map.mp h
  obtain ⟨hxm, hcover⟩ := List.mem_filter.mp hx
  obtain rfl := List.inj_on_of_nodup_map hfiles.keys hxm hu hkey
  obtain ⟨-, hstate | hsegment⟩ := of_decide_eq_true hcover
  · rw [hfiles.states x hu hstate.1] at he
    cases he
  · exact hsegment.2.2 e he

/-- A file on an open digest enters the index, what it covers leaves it: the segments are whole
still. -/
theorem whole_written {t : DiskTier D} {f : IndexFile D} {bytes key : Nat}
    (ht : Consistent (filesOf t.index)) (hwhole : unreachable root (filesOf t.index) false = [])
    (hends : f.state = true → f.ends = []) (hopen : f.state = false →
      Open root (filesOf (t.written f bytes key).index) f.below) :
    unreachable root (filesOf (t.written f bytes key).index) false = [] := by
  have hmem : ∀ g, g ∈ filesOf (t.written f bytes key).index ↔
      (g ∈ filesOf t.index ∧ (g.key ∈ covered (filesOf t.index) f → g.key ∈ t.pinned)) ∨
        g = { f with key := key } := fun g => mem_written ht.keys
  have hnew : f.state = false →
      OnPath root (filesOf (t.written f bytes key).index) { f with key := key } := fun hs =>
    Open.onPath (hopen hs) ((hmem _).mpr (Or.inr (Eq.refl _)))
  have hold : ∀ g, OnPath root (filesOf t.index) g →
      g ∈ filesOf (t.written f bytes key).index →
      OnPath root (filesOf (t.written f bytes key).index) g := by
    intro g hg
    induction hg with
    | root _ hb => exact fun hin => .root hin hb
    | @step x g hg hx hb ih =>
      intro hin
      by_cases hgin : g ∈ filesOf (t.written f bytes key).index
      · exact .step (ih hgin) hin hb
      · have hcovered : g.key ∈ covered (filesOf t.index) f := by
          by_contra hnot
          exact hgin ((hmem g).mpr (Or.inl ⟨hg.mem, fun hc => absurd hc hnot⟩))
        have hheld := ends_of_covered ht hg.mem hcovered hb
        have hs : f.state = false := by
          rw [← Bool.not_eq_true]
          intro hs
          rw [hends hs] at hheld
          cases hheld
        exact .step (hnew hs) hin hheld
  apply unreachable_nil_iff.mpr
  intro g hg hstate
  rcases (hmem g).mp hg with ⟨hgm, -⟩ | rfl
  · exact hold g (unreachable_nil_iff.mp hwhole g hgm hstate) hg
  · rcases hstate with hs | hs
    · cases hs
    · exact hnew hs

/-- The next file of a write is a segment, the first range missing, or a state. -/
theorem DiskWrite.file_spec {r : DiskWrite D} {f : IndexFile D} (h : r.file files = some f) :
    (f.state = false ∧ ∃ stop rest, missing files r.d r.block r.n = (f.first, stop) :: rest ∧
      r.d[f.first / r.block]? = some f.below) ∨ (f.state = true ∧ f.ends = []) := by
  have hstate : r.stateFile files = some f → f.state = true ∧ f.ends = [] := by
    intro h
    unfold stateFile at h
    split at h
    · obtain ⟨below, -, rfl⟩ := Option.map_eq_some_iff.mp h
      exact ⟨Eq.refl _, Eq.refl _⟩
    · cases h
  unfold file at h
  split at h
  next first stop rest hmissing =>
    split at h
    · obtain ⟨below, hbelow, rfl⟩ := Option.map_eq_some_iff.mp h
      exact Or.inl ⟨Eq.refl _, stop, rest, hmissing, hbelow⟩
    · exact Or.inr (hstate h)
  · exact Or.inr (hstate h)

/-- What making room comes to: nothing gone, or files gone one after another and room made. -/
theorem DiskTier.room_spec (t : DiskTier D) (bytes : Nat) (back : Bool) :
    t.room bytes back = some (false, t) ∨
      ∃ keys left, Goes back t.pinned t.index keys left ∧ indexBytes left + bytes ≤ t.cap ∧
        t.room bytes back = some (true, { t with index := left }) := by
  unfold room
  split
  next => exact Or.inl (Eq.refl _)
  next =>
    split
    next hfit => exact Or.inr ⟨[], t.index, .done, hfit, Eq.refl _⟩
    next =>
      have htried : tryRoom t.cap bytes back t.pinned (t.index.length + 1) t.index = .refused ∨ _ :=
        tryRoom_spec (t.index.length + 1) (Nat.lt_succ_self _)
      rcases htried with hno | hgone
      · left
        rw [hno]
      · obtain ⟨keys, left, hkeys, hgoes, hfit⟩ := hgone
        right
        refine ⟨keys, left, hgoes, hfit, ?_⟩
        rw [hkeys]
        dsimp only
        rw [forget_all, hgoes.left_eq]

/-- Making room for a file ends. Without it nothing goes; with it no file goes that is read,
streamed or stood on, nor one of a conversation that came back for one that did not, the rest fit
with the new file, and with this one written every segment is on a path still. -/
theorem room_breaks_nothing {t : DiskTier D} {r : DiskWrite D} {f : IndexFile D}
    (ht : Consistent (filesOf t.index)) (hwhole : unreachable root (filesOf t.index) false = [])
    (hblock : 0 < r.block) (hd : r.d.head? = some root) (hf : r.file (filesOf t.index) = some f)
    (bytes : Nat) :
    ∃ made left, (t.standOn r f).room bytes r.back = some (made, left) ∧
      (made = false → left = t.standOn r f) ∧
      (made = true → left.index.Sublist t.index ∧ indexBytes left.index + bytes ≤ t.cap ∧
        (∀ g ∈ filesOf t.index, g ∉ filesOf left.index →
          g.key ∉ (t.standOn r f).pinned ∧
            (r.back = false → ¬ CameBack (filesOf t.index) g)) ∧
        ∀ key, unreachable root (filesOf (left.written f bytes key).index) false = []) := by
  rcases (t.standOn r f).room_spec bytes r.back with hno | ⟨keys, left, hgoes, hfit, hmade⟩
  · exact ⟨false, _, hno, fun _ => Eq.refl _, fun h => Bool.noConfusion h⟩
  · refine ⟨true, _, hmade, fun h => Bool.noConfusion h, fun _ => ⟨hgoes.sublist, hfit,
      fun g hg hgone => hgoes.gone ht hg hgone, fun key => ?_⟩⟩
    have hleft : Consistent (filesOf left) := ht.sublist (hgoes.sublist.map _)
    apply whole_written hleft (hgoes.whole ht hwhole)
    · intro hs
      rcases DiskWrite.file_spec hf with ⟨hfs, -⟩ | ⟨-, hends⟩
      · rw [hs] at hfs
        cases hfs
      · exact hends
    · intro hs
      rcases DiskWrite.file_spec hf with ⟨-, stop, rest, hmissing, hbelow⟩ | ⟨hfs, -⟩
      · refine open_missing hblock hd hmissing (fun g hg hpin => ?_) hbelow
        have hpinned : g.key ∈ (t.standOn r f).pinned :=
          List.mem_append_left _ (List.mem_append_left _ hpin)
        apply (mem_written hleft.keys).mpr
        refine Or.inl ⟨?_, fun _ => hpinned⟩
        by_contra hgone
        exact (hgoes.gone ht hg hgone).1 hpinned
      · rw [hs] at hfs
        cases hfs

/-- A segment its conversation came back on, one on it, one apart with a state on it, and an old
one. -/
def crowdedTier : DiskTier Nat where
  index := [⟨⟨1, false, 0, 1024, 0, [1, 2], 5, true, 0⟩, 10⟩,
    ⟨⟨2, false, 1024, 2048, 2, [3, 4], 6, false, 0⟩, 10⟩,
    ⟨⟨3, false, 0, 1024, 0, [7, 8], 3, false, 0⟩, 10⟩,
    ⟨⟨4, true, 1024, 1024, 8, [], 2, false, 0⟩, 5⟩,
    ⟨⟨5, false, 0, 512, 0, [9], 1, false, 0⟩, 10⟩]
  cap := 40
  pins := []
  reads := [[4]]
  streams := []

/-- The history of the first two segments, two blocks longer. -/
def longerWrite : DiskWrite Nat := ⟨[0, 1, 2, 3, 4, 5, 6], 512, 3072, true, false, 9, none, 4096⟩

def longerFile : IndexFile Nat := ⟨0, false, 2048, 3072, 4, [5, 6], 9, false, 0⟩

theorem crowdedTier_consistent : Consistent (filesOf crowdedTier.index) where
  placed := ⟨fun e => [0, 512, 1024, 1536, 2048, 0, 0, 512, 1024, 512].getD e 0, by decide⟩
  keys := by decide
  states := by decide

theorem crowdedTier_room :
    unreachable 0 (filesOf crowdedTier.index) false = [] ∧
      longerWrite.file (filesOf crowdedTier.index) = some longerFile ∧
      ((crowdedTier.standOn longerWrite longerFile).room 5 false).map (·.1) = some true := by
  decide +kernel

theorem room_breaks_nothing_crowded :
    ∃ left, (crowdedTier.standOn longerWrite longerFile).room 5 false = some (true, left) ∧
      indexBytes left.index + 5 ≤ 40 ∧
      unreachable 0 (filesOf (left.written longerFile 5 6).index) false = [] := by
  obtain ⟨hwhole, hfile, hroom⟩ := crowdedTier_room
  obtain ⟨made, left, hmade, -, hkept⟩ := room_breaks_nothing (r := longerWrite)
    crowdedTier_consistent hwhole (Nat.succ_pos 511) (Eq.refl (some 0)) hfile 5
  change (crowdedTier.standOn longerWrite longerFile).room 5 false = some (made, left) at hmade
  rw [hmade] at hroom
  obtain rfl : made = true := Option.some.inj hroom
  obtain ⟨-, hfit, -, hafter⟩ := hkept (Eq.refl _)
  exact ⟨left, hmade, hfit, hafter 6⟩

/-- Digests that name no one position: two segments stand on each other, and one of them on a
third. -/
def loopedTier : DiskTier Nat where
  index := [⟨⟨1, false, 0, 512, 0, [1], 1, false, 0⟩, 10⟩,
    ⟨⟨2, false, 512, 1024, 1, [2], 2, false, 0⟩, 10⟩,
    ⟨⟨3, false, 1024, 1536, 2, [1], 3, false, 0⟩, 10⟩]
  cap := 30
  pins := []
  reads := []
  streams := []

def otherWrite : DiskWrite Nat := ⟨[0, 9], 512, 512, false, false, 9, none, 4096⟩

def otherFile : IndexFile Nat := ⟨0, false, 0, 512, 0, [9], 9, false, 0⟩

theorem room_strands_segments :
    unreachable 0 (filesOf loopedTier.index) false = [] ∧
      otherWrite.file (filesOf loopedTier.index) = some otherFile ∧
      ((loopedTier.standOn otherWrite otherFile).room 10 false).map (fun r =>
        (r.1, unreachable 0 (filesOf (r.2.written otherFile 10 4).index) false)) =
          some (true, [2, 3]) := by
  decide +kernel

end Llmx
