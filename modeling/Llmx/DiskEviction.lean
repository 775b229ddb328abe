import Llmx.DiskIndex
import Mathlib.Data.List.Sort
import Mathlib.Data.Finset.Max

namespace Llmx

section

variable {D : Type} [DecidableEq D] (files : List (IndexFile D))

/-- The files that hold a digest among their own. -/
def holders (e : D) : List Nat :=
  (List.range files.length).filter fun i => e ∈ endsAt files i

/-- The file a file stands on: the first other holder of the digest under it, or the last one that
ends at it. -/
def parentOf (i : Nat) : Option Nat :=
  (files[i]?).bind fun f =>
    (holders files f.below).foldl (fun p s =>
      if s ≠ i ∧ (p = none ∨ (endsAt files s).getLast? = some f.below) then some s else p) none

/-- The files standing on a file. -/
def standingOn (s : Nat) : List Nat :=
  (List.range files.length).filter fun i => parentOf files i = some s

def childrenOf (s : Nat) : Nat := (standingOn files s).length

/-- The steps up from `p`, one more than the files at most. -/
def depthFrom : Nat → Option Nat → Nat
  | 0, _ => 0
  | _ + 1, none => 0
  | fuel + 1, some p => depthFrom fuel (parentOf files p) + 1

/-- Deepest first. -/
def linkOrder : List Nat :=
  (List.range files.length).insertionSort fun a b =>
    depthFrom files (files.length + 1) (parentOf files b) ≤
      depthFrom files (files.length + 1) (parentOf files a)

/-- The states of `g`'s history under it, from the file `s` it stands on down. -/
def statesBelow (g : Nat) : Nat → Option Nat → Nat → Bool → List Nat
  | 0, _, _, _ => []
  | _ + 1, none, _, _ => []
  | fuel + 1, some s, pos, own =>
    ((standingOn files s).filter fun f => f ≠ g ∧
      ((files[f]?).any fun x => x.state && if own then x.endTok < pos else x.endTok ≤ pos)) ++
      statesBelow g fuel (parentOf files s) ((files[s]?.map (·.first)).getD 0) false

def statesUnder (g : Nat) : List Nat :=
  match files[g]? with
  | some x =>
    if x.state then statesBelow files g (files.length + 1) (parentOf files g) x.endTok true else []
  | none => []

/-- Whether a state has states of its history both below and above it. -/
def betweenStates (i : Nat) : Bool :=
  (statesUnder files i).length ≠ 0 ∧ (List.range files.length).any fun g => i ∈ statesUnder files g

/-- A value of each file and of all that stands on it, gathered deepest first. -/
def gather {α : Type} (own : IndexFile D → α) (join : α → α → α) : List α :=
  (linkOrder files).foldl (fun sub i =>
    match parentOf files i, sub[i]? with
    | some p, some x => sub.modify p fun y => join y x
    | _, _ => sub) (files.map own)

/-- What lies beyond a file: on a segment, all that stands on it; on a state, what stands on its
segment at or above its position. -/
def beyond (i : Nat) : List Nat :=
  match files[i]? with
  | some x =>
    match if x.state then parentOf files i else some i with
    | some s => (standingOn files s).filter fun g => g ≠ i ∧
        ¬(x.state = true ∧ ((files[g]?).any fun y => y.first < x.endTok) = true)
    | none => []
  | none => []

/-- A file's own gathered value joined with those of what lies beyond it. -/
def withBeyond {α : Type} (own : IndexFile D → α) (join : α → α → α) (i : Nat) : Option α :=
  let sub := gather files own join
  (sub[i]?).map fun x => ((beyond files i).filterMap fun g => sub[g]?).foldl join x

/-- The newest use of a file and of anything beyond it. -/
def freshOf (i : Nat) : Int := (withBeyond files (·.used) max i).getD 0

/-- Whether a file's conversation or any beyond it came back. -/
def backOf (i : Nat) : Bool := (withBeyond files (·.back) (· || ·) i).getD false

structure Victim where
  key : Nat
  back : Bool
deriving DecidableEq, Repr

/-- States between two others go first, then what came back last. -/
def rankOf (i : Nat) (f : IndexFile D) : Nat :=
  if f.state && betweenStates files i then 0 else if backOf files i then 2 else 1

/-- Whether `a` goes before `b` of the same rank. -/
def older (rank a b : Nat) : Bool :=
  match files[a]?, files[b]? with
  | some x, some y =>
    let fa := if rank ≠ 0 then freshOf files a else x.used
    let fb := if rank ≠ 0 then freshOf files b else y.used
    if fa ≠ fb then fa < fb else y.endTok < x.endTok
  | _, _ => false

/-- Whether the file may go: nothing stands on it, nothing beyond it was used since `before`, and
it is not pinned. -/
def mayGo (before : Option Int) (pinned : List Nat) (i : Nat) (f : IndexFile D) : Bool :=
  childrenOf files i = 0 ∧ ¬(before.any (· ≤ freshOf files i)) ∧ f.key ∉ pinned

/-- The file so far to go, or this one where it goes before it. -/
def chooseVictim (before : Option Int) (pinned : List Nat) (best : Option (Nat × Nat)) (i : Nat) :
    Option (Nat × Nat) :=
  match files[i]? with
  | some f =>
    if mayGo files before pinned i f then
      let rank := rankOf files i f
      match best with
      | none => some (i, rank)
      | some (b, r) => if rank < r ∨ (rank = r ∧ older files rank i b) then some (i, rank) else best
    else best
  | none => best

/-- The file that room, the cap or the age limit takes next. -/
def victim (before : Option Int) (pinned : List Nat) : Option Victim :=
  match (List.range files.length).foldl (chooseVictim files before pinned) none with
  | some (i, _) => (files[i]?).map fun f => ⟨f.key, backOf files i⟩
  | none => none

end

open Worklist

variable {D : Type}

/-- Each digest names one position: the one a file starts at, or one past its start. -/
def Placed (files : List (IndexFile D)) : Prop :=
  ∃ pos : D → Nat, ∀ f ∈ files, pos f.below = f.first ∧ ∀ e ∈ f.ends, f.first < pos e

/-- A file on a path from the root. -/
inductive OnPath (root : D) (files : List (IndexFile D)) : IndexFile D → Prop
  | root {f} : f ∈ files → f.below = root → OnPath root files f
  | step {f g} : OnPath root files g → f ∈ files → f.below ∈ g.ends → OnPath root files f

theorem OnPath.mem {root : D} {files : List (IndexFile D)} {f : IndexFile D}
    (h : OnPath root files f) : f ∈ files := by
  cases h <;> assumption

theorem Placed.sublist {files files' : List (IndexFile D)} (h : Placed files)
    (hsub : files' ⊆ files) : Placed files' := by
  obtain ⟨pos, hpos⟩ := h
  exact ⟨pos, fun f hf => hpos f (hsub hf)⟩

theorem mem_remove {files : List (IndexFile D)} {key : Nat}
    (hkeys : (files.map (·.key)).Nodup) {f : IndexFile D} :
    f ∈ (remove files key).2 ↔ f ∈ files ∧ f.key ≠ key := by
  unfold remove
  induction files with
  | nil => simp
  | cons g files ih =>
    rw [List.map_cons, List.nodup_cons] at hkeys
    simp only [List.eraseP_cons]
    by_cases hg : g.key = key
    · simp only [hg, decide_true, cond_true]
      have hrest : f ∈ files → f.key ≠ key := by
        intro hf heq
        exact hkeys.1 (List.mem_map.mpr ⟨f, hf, heq.trans hg.symm⟩)
      constructor
      · exact fun hf => ⟨by simp [hf], hrest hf⟩
      · rintro ⟨hf, hne⟩
        rcases List.mem_cons.mp hf with rfl | hf
        · exact absurd hg hne
        · exact hf
    · simp only [hg, decide_false, cond_false]
      simp only at ih
      rw [List.mem_cons, List.mem_cons, ih hkeys.2]
      constructor
      · rintro (rfl | ⟨hf, hne⟩)
        · exact ⟨Or.inl rfl, hg⟩
        · exact ⟨Or.inr hf, hne⟩
      · rintro ⟨rfl | hf, hne⟩
        · exact Or.inl rfl
        · exact Or.inr ⟨hf, hne⟩

theorem length_remove {files : List (IndexFile D)} {v : Victim} {i : Nat} {f : IndexFile D}
    (hf : files[i]? = some f)
    (hv : f.key = v.key) : (remove files v.key).2.length + 1 = files.length := by
  exact List.length_eraseP_add_one (List.mem_of_getElem? hf) (by simpa using hv)

variable {files : List (IndexFile D)}

theorem mem_endsAt {e : D} {i : Nat} :
    e ∈ endsAt files i ↔ ∃ f, files[i]? = some f ∧ e ∈ f.ends := by
  unfold endsAt
  cases files[i]? <;> simp

variable [DecidableEq D]

theorem mem_startsAt {e : D} {i : Nat} :
    i ∈ startsAt files e ↔ ∃ f, files[i]? = some f ∧ f.below = e := by
  simp only [startsAt, List.mem_filter, List.mem_range, decide_eq_true_eq, Option.map_eq_some_iff]
  refine ⟨fun ⟨_, h⟩ => h, fun ⟨f, hf, he⟩ => ⟨?_, f, hf, he⟩⟩
  exact (List.getElem?_eq_some_iff.mp hf).1

/-- What the index's links reach are the files on a path from the root. -/
theorem reached_iff_onPath {root : D} {i : Nat} {f : IndexFile D} (hf : files[i]? = some f) :
    Reached (startsAt files) (endsAt files) root i ↔ OnPath root files f := by
  constructor
  · intro h
    induction h generalizing f with
    | root hi =>
      obtain ⟨g, hg, hb⟩ := mem_startsAt.mp hi
      cases hf.symm.trans hg
      exact .root (List.mem_of_getElem? hf) hb
    | step _ he hj ih =>
      obtain ⟨g, hg, he⟩ := mem_endsAt.mp he
      obtain ⟨f', hf', hb⟩ := mem_startsAt.mp hj
      cases hf.symm.trans hf'
      exact .step (ih hg) (List.mem_of_getElem? hf) (hb ▸ he)
  · intro h
    induction h generalizing i with
    | root _ hb => exact .root (mem_startsAt.mpr ⟨_, hf, hb⟩)
    | step hg _ hb ih =>
      obtain ⟨j, hj⟩ := List.getElem?_of_mem hg.mem
      exact .step (ih hj) (mem_endsAt.mpr ⟨_, hj, hb⟩) (mem_startsAt.mpr ⟨_, hf, rfl⟩)

/-- No file is unreachable, or no segment, exactly where each is on a path from the root. -/
theorem unreachable_nil_iff {root : D} {states : Bool} :
    unreachable root files states = [] ↔
      ∀ f ∈ files, states = true ∨ f.state = false → OnPath root files f := by
  have hmark : ∀ i, i ∈ mark (startsAt files) (endsAt files)
      (1 + (files.map fun f => f.ends.length).sum) [root] [] ↔
      Reached (startsAt files) (endsAt files) root i := by
    intro i
    refine ⟨fun hi => reached_of_mark (by simp) (by simp) i hi, fun hi => ?_⟩
    have hsub : ∀ e, ∀ j ∈ startsAt files e, j ∈ List.range files.length :=
      fun e j hj => List.mem_of_mem_filter hj
    refine mark_of_reached List.nodup_range (fun e => List.nodup_range.filter _) hsub ?_ ⟨?_, ?_⟩ hi
    · have hlens : (List.range files.length).map (fun i => (endsAt files i).length) =
          files.map fun f => f.ends.length := by
        refine List.ext_getElem (by simp) fun i h1 h2 => ?_
        simp only [List.length_map] at h2
        simp [endsAt, h2]
      simp only [debt, List.length_singleton, List.not_mem_nil, not_false_eq_true, decide_true,
        List.filter_true, hlens]
      exact le_rfl
    · simp
    · simp
  unfold unreachable
  simp only
  rw [List.filterMap_eq_nil_iff]
  constructor
  · intro h f hf hstates
    obtain ⟨i, hi⟩ := List.getElem?_of_mem hf
    have hlt := (List.getElem?_eq_some_iff.mp hi).1
    have hin := h i (List.mem_range.mpr hlt)
    simp only [hi, hmark, hstates, and_true, ite_eq_right_iff, reduceCtorEq, imp_false,
      not_not] at hin
    exact (reached_iff_onPath hi).mp hin
  · intro h i hi
    have hlt := List.mem_range.mp hi
    have hget : files[i]? = some files[i] := List.getElem?_eq_getElem hlt
    simp only [hget, hmark, ite_eq_right_iff, reduceCtorEq, imp_false, not_and]
    intro hout hstates
    exact hout ((reached_iff_onPath hget).mpr (h _ (List.getElem_mem hlt) hstates))

/-- A file stands on another that holds the digest under it, and on none where there is none. -/
theorem parentOf_spec {i : Nat} {f : IndexFile D} (hf : files[i]? = some f) :
    (∀ s, parentOf files i = some s → s ∈ holders files f.below ∧ s ≠ i) ∧
      (parentOf files i = none → ∀ s ∈ holders files f.below, s = i) := by
  unfold parentOf
  rw [hf, Option.bind_some]
  have hfold : ∀ (l : List Nat) (p : Option Nat),
      (∀ s, l.foldl (fun p s => if s ≠ i ∧ (p = none ∨ (endsAt files s).getLast? = some f.below)
        then some s else p) p = some s → (s ∈ l ∧ s ≠ i) ∨ p = some s) ∧
      (l.foldl (fun p s => if s ≠ i ∧ (p = none ∨ (endsAt files s).getLast? = some f.below)
        then some s else p) p = none → p = none ∧ ∀ s ∈ l, s = i) := by
    intro l
    induction l with
    | nil => simp
    | cons a l ih =>
      intro p
      rw [List.foldl_cons]
      split
      next ha =>
        obtain ⟨h1, h2⟩ := ih (some a)
        refine ⟨fun s hs => ?_, fun hn => by simpa using (h2 hn).1⟩
        rcases h1 s hs with ⟨hmem, hne⟩ | heq
        · exact Or.inl ⟨by simp [hmem], hne⟩
        · cases heq
          exact Or.inl ⟨by simp, ha.1⟩
      next ha =>
        obtain ⟨h1, h2⟩ := ih p
        refine ⟨fun s hs => (h1 s hs).imp (fun ⟨hmem, hne⟩ => ⟨by simp [hmem], hne⟩) id,
          fun hn => ⟨(h2 hn).1, ?_⟩⟩
        rw [List.forall_mem_cons]
        refine ⟨?_, (h2 hn).2⟩
        by_contra hne
        exact ha ⟨hne, Or.inl (h2 hn).1⟩
  obtain ⟨h1, h2⟩ := hfold (holders files f.below) none
  exact ⟨fun s hs => (h1 s hs).resolve_right (by simp), fun hn => (h2 hn).2⟩

theorem mem_holders {e : D} {i : Nat} :
    i ∈ holders files e ↔ ∃ f, files[i]? = some f ∧ e ∈ f.ends := by
  simp only [holders, List.mem_filter, List.mem_range, decide_eq_true_eq, mem_endsAt]
  exact ⟨fun ⟨_, h⟩ => h, fun ⟨f, hf, he⟩ => ⟨(List.getElem?_eq_some_iff.mp hf).1, f, hf, he⟩⟩

/-- A file stands on one that starts before it. -/
theorem parentOf_first_lt (hplaced : Placed files) {i s : Nat} {f g : IndexFile D}
    (hf : files[i]? = some f) (hg : files[s]? = some g) (h : parentOf files i = some s) :
    f.below ∈ g.ends ∧ g.first < f.first := by
  obtain ⟨pos, hpos⟩ := hplaced
  obtain ⟨g', hg', he⟩ := mem_holders.mp ((parentOf_spec hf).1 s h).1
  cases hg.symm.trans hg'
  refine ⟨he, ?_⟩
  rw [← (hpos f (List.mem_of_getElem? hf)).1]
  exact (hpos g (List.mem_of_getElem? hg)).2 _ he

/-- Every file on a path stands on another, or at the root. -/
theorem OnPath.parent (hplaced : Placed files) {root : D} {i : Nat} {f : IndexFile D}
    (h : OnPath root files f) (hf : files[i]? = some f) :
    f.below = root ∨ ∃ s g, parentOf files i = some s ∧ files[s]? = some g := by
  cases h with
  | root _ hb => exact Or.inl hb
  | @step _ g hg _ hb =>
    refine Or.inr ?_
    obtain ⟨j, hj⟩ := List.getElem?_of_mem hg.mem
    cases hp : parentOf files i with
    | none =>
      have hji : j = i := (parentOf_spec hf).2 hp j (mem_holders.mpr ⟨g, hj, hb⟩)
      subst hji
      cases hf.symm.trans hj
      obtain ⟨pos, hpos⟩ := hplaced
      obtain ⟨hbelow, hends⟩ := hpos f (List.mem_of_getElem? hf)
      have := hends _ hb
      omega
    | some s =>
      obtain ⟨g', hg', -⟩ := mem_holders.mp ((parentOf_spec hf).1 s hp).1
      exact ⟨s, g', rfl, hg'⟩

/-- Without a file that nothing stands on, every other file, or every other one of those that may
hold a digest, is on a path still. -/
theorem onPath_remove (hplaced : Placed files) (hkeys : (files.map (·.key)).Nodup) {root : D}
    {P : IndexFile D → Prop} (hall : ∀ f ∈ files, P f → OnPath root files f)
    (hholds : ∀ f ∈ files, f.ends ≠ [] → P f) {i : Nat} {v : IndexFile D}
    (hv : files[i]? = some v) (hleaf : ∀ j, parentOf files j ≠ some i) :
    ∀ f ∈ (remove files v.key).2, P f → OnPath root (remove files v.key).2 f := by
  intro f
  induction hn : f.first using Nat.strong_induction_on generalizing f with
  | _ n ih =>
    intro hf hP
    obtain ⟨hmem, hne⟩ := (mem_remove hkeys).mp hf
    obtain ⟨j, hj⟩ := List.getElem?_of_mem hmem
    rcases (hall f hmem hP).parent hplaced hj with hroot | ⟨s, g, hp, hg⟩
    · exact .root hf hroot
    · obtain ⟨hbelow, hlt⟩ := parentOf_first_lt hplaced hj hg hp
      have hgne : g.key ≠ v.key := by
        intro heq
        have hsi : s = i := by
          obtain ⟨hs, rfl⟩ := List.getElem?_eq_some_iff.mp hg
          obtain ⟨hi, rfl⟩ := List.getElem?_eq_some_iff.mp hv
          have hmap : (files.map (·.key))[s]? = (files.map (·.key))[i]? := by simp [hs, hi, heq]
          exact (List.getElem?_inj (by simpa using hs) hkeys).mp hmap
        exact hleaf j (hsi ▸ hp)
      have hgin : g ∈ (remove files v.key).2 :=
        (mem_remove hkeys).mpr ⟨List.mem_of_getElem? hg, hgne⟩
      have hgP := hholds g (List.mem_of_getElem? hg) (List.ne_nil_of_mem hbelow)
      exact .step (ih g.first (by omega) g (Eq.refl _) hgin hgP) hf hbelow

theorem not_parent_of_childrenOf {i : Nat} (h : childrenOf files i = 0) (j : Nat) :
    parentOf files j ≠ some i := by
  intro hp
  have hj : j < files.length := by
    by_contra hge
    simp [parentOf, List.getElem?_eq_none (Nat.not_lt.mp hge)] at hp
  have hmem : j ∈ standingOn files i := by simp [standingOn, hj, hp]
  rw [List.eq_nil_of_length_eq_zero h] at hmem
  cases hmem

/-- The file chosen may go, and one is chosen where one may go. -/
theorem chooseVictim_spec (before : Option Int) (pinned : List Nat) (l : List Nat)
    (best : Option (Nat × Nat)) :
    (∀ i r, l.foldl (chooseVictim files before pinned) best = some (i, r) →
      best = some (i, r) ∨ ∃ f, files[i]? = some f ∧ mayGo files before pinned i f = true) ∧
    (l.foldl (chooseVictim files before pinned) best = none →
      best = none ∧ ∀ i ∈ l, ∀ f, files[i]? = some f → mayGo files before pinned i f = false) := by
  induction l generalizing best with
  | nil => exact ⟨fun i r hr => Or.inl hr, fun hn => ⟨hn, by simp⟩⟩
  | cons a l ih =>
    rw [List.foldl_cons]
    obtain ⟨h1, h2⟩ := ih (chooseVictim files before pinned best a)
    have hstep : chooseVictim files before pinned best a = best ∨
        ∃ f r, files[a]? = some f ∧ mayGo files before pinned a f = true ∧
          chooseVictim files before pinned best a = some (a, r) := by
      unfold chooseVictim
      split
      next f hf =>
        split
        next hgo =>
          simp only
          split
          · exact Or.inr ⟨f, _, hf, hgo, rfl⟩
          · split
            · exact Or.inr ⟨f, _, hf, hgo, rfl⟩
            · exact Or.inl rfl
        · exact Or.inl rfl
      · exact Or.inl rfl
    refine ⟨fun i r hr => ?_, fun hn => ?_⟩
    · rcases h1 i r hr with heq | hf
      · rcases hstep with hsame | ⟨f, r', hf, hgo, hnew⟩
        · exact Or.inl (hsame ▸ heq)
        · cases hnew.symm.trans heq
          exact Or.inr ⟨f, hf, hgo⟩
      · exact Or.inr hf
    · obtain ⟨hbest, hrest⟩ := h2 hn
      rcases hstep with hsame | ⟨f, r, -, -, hnew⟩
      · refine ⟨hsame ▸ hbest, ?_⟩
        rw [List.forall_mem_cons]
        refine ⟨fun f hf => ?_, hrest⟩
        by_contra hgo
        rw [Bool.not_eq_false] at hgo
        rw [hsame] at hbest
        simp [chooseVictim, hf, hgo, hbest] at hsame
      · rw [hnew] at hbest
        cases hbest

theorem victim_spec {before : Option Int} {pinned : List Nat} {v : Victim}
    (h : victim files before pinned = some v) :
    ∃ i f, files[i]? = some f ∧ f.key = v.key ∧ mayGo files before pinned i f = true ∧
      v.back = backOf files i := by
  unfold victim at h
  split at h
  next i r hbest =>
    obtain ⟨f, hf, rfl⟩ := Option.map_eq_some_iff.mp h
    obtain hnone | ⟨f', hf', hgo⟩ := (chooseVictim_spec before pinned _ none).1 i r hbest
    · cases hnone
    · cases hf.symm.trans hf'
      exact ⟨i, f, hf, rfl, hgo, rfl⟩
  · cases h

/-- Nothing stands on a file that starts last, so an index of files has one that may go. -/
theorem victim_of_ne_nil (hplaced : Placed files) (hne : files ≠ []) :
    ∃ v, victim files none [] = some v := by
  obtain ⟨f, hf, hmax⟩ := Multiset.exists_max_image (·.first)
    (s := (files : Multiset (IndexFile D))) (by simpa using hne)
  obtain ⟨m, hm⟩ := List.getElem?_of_mem (Multiset.mem_coe.mp hf)
  have hleaf : childrenOf files m = 0 := by
    rw [childrenOf, List.length_eq_zero_iff, standingOn, List.filter_eq_nil_iff]
    intro j hj hp
    have hlt := List.mem_range.mp hj
    have hfirst := (parentOf_first_lt hplaced (List.getElem?_eq_getElem hlt) hm
      (by simpa using hp)).2
    have := hmax files[j] (Multiset.mem_coe.mpr (List.getElem_mem hlt))
    omega
  have hgo : mayGo files none [] m f = true := by simp [mayGo, hleaf]
  unfold victim
  split
  next i r hbest =>
    obtain hnone | ⟨f, hf, -⟩ := (chooseVictim_spec none [] _ none).1 i r hbest
    · cases hnone
    · exact ⟨_, by rw [hf]; rfl⟩
  next hnone =>
    have hlt := (List.getElem?_eq_some_iff.mp hm).1
    have := ((chooseVictim_spec none [] _ none).2 hnone).2 m (List.mem_range.mpr hlt) f hm
    rw [hgo] at this
    cases this

/-- The indices left as the next victim is removed, time and again. -/
def evictions : Nat → List (IndexFile D) → List (List (IndexFile D))
  | 0, files => [files]
  | fuel + 1, files =>
    files :: match victim files none [] with
      | some v => evictions fuel (remove files v.key).2
      | none => []

/-- What is whole of the index, all of it or its segments, is whole still without its victim. -/
theorem whole_remove {root : D} {states : Bool} (hplaced : Placed files)
    (hkeys : (files.map (·.key)).Nodup)
    (hstates : states = true ∨ ∀ f ∈ files, f.state = true → f.ends = [])
    (hwhole : unreachable root files states = []) {before : Option Int} {pinned : List Nat}
    {v : Victim} (h : victim files before pinned = some v) :
    unreachable root (remove files v.key).2 states = [] := by
  obtain ⟨i, f, hf, hv, hgo, -⟩ := victim_spec h
  have hleaf : childrenOf files i = 0 := by
    simp only [mayGo, Bool.decide_and, Bool.and_eq_true, decide_eq_true_eq] at hgo
    exact hgo.1
  have hholds : ∀ g ∈ files, g.ends ≠ [] → states = true ∨ g.state = false := by
    intro g hg hends
    rcases hstates with hall | hnone
    · exact Or.inl hall
    · cases hs : g.state with
      | false => exact Or.inr (Eq.refl _)
      | true => exact absurd (hnone g hg hs) hends
  rw [unreachable_nil_iff, ← hv]
  exact onPath_remove hplaced hkeys (unreachable_nil_iff.mp hwhole) hholds hf
    (not_parent_of_childrenOf hleaf)

theorem evictions_spec {root : D} {fuel : Nat} (hfuel : files.length = fuel)
    (hplaced : Placed files) (hkeys : (files.map (·.key)).Nodup)
    (hwhole : unreachable root files true = []) :
    (∀ left ∈ evictions fuel files, unreachable root left true = []) ∧
      (evictions fuel files).getLast? = some [] := by
  induction fuel generalizing files with
  | zero =>
    rw [List.eq_nil_of_length_eq_zero hfuel] at hwhole ⊢
    simpa [evictions] using hwhole
  | succ fuel ih =>
    have hne : files ≠ [] := List.ne_nil_of_length_eq_add_one hfuel
    obtain ⟨v, hv⟩ := victim_of_ne_nil hplaced hne
    obtain ⟨i, f, hf, hkey, -, -⟩ := victim_spec hv
    have hlen := length_remove hf hkey
    have hsub : (remove files v.key).2.Sublist files := List.eraseP_sublist
    obtain ⟨h1, h2⟩ := ih (by omega) (hplaced.sublist hsub.subset)
      (hkeys.sublist (hsub.map _))
      (whole_remove hplaced hkeys (Or.inl (Eq.refl _)) hwhole hv)
    simp only [evictions, hv]
    refine ⟨?_, ?_⟩
    · rw [List.forall_mem_cons]
      exact ⟨hwhole, h1⟩
    · rw [List.getLast?_cons, h2]
      rfl

/-- Evicting strands no file: on the victim nothing stands, without it the index is whole still,
and victim after victim it empties, whole all the way. -/
theorem victim_strands_none {root : D} (hplaced : Placed files)
    (hkeys : (files.map (·.key)).Nodup) (hwhole : unreachable root files true = []) :
    (∀ before pinned v, victim files before pinned = some v →
      (∃ i f, files[i]? = some f ∧ f.key = v.key ∧ (∀ j, parentOf files j ≠ some i) ∧
        v.key ∉ pinned) ∧
      unreachable root (remove files v.key).2 true = []) ∧
    (∀ left ∈ evictions files.length files, unreachable root left true = []) ∧
    (evictions files.length files).getLast? = some [] := by
  refine ⟨fun before pinned v h =>
    ⟨?_, whole_remove hplaced hkeys (Or.inl (Eq.refl _)) hwhole h⟩,
    evictions_spec rfl hplaced hkeys hwhole⟩
  obtain ⟨i, f, hf, hv, hgo, -⟩ := victim_spec h
  simp only [mayGo, Bool.decide_and, Bool.and_eq_true, decide_eq_true_eq] at hgo
  exact ⟨i, f, hf, hv, not_parent_of_childrenOf hgo.1, hv ▸ hgo.2.2⟩

/-- Two segments that part in their second block, a segment on the block they share, and a state. -/
def forkedIndex : List (IndexFile Nat) :=
  [⟨1, false, 0, 1024, 0, [1, 2], 5, false, 0⟩, ⟨2, false, 1024, 2048, 2, [3, 4], 6, true, 0⟩,
    ⟨3, false, 1024, 2048, 2, [3, 5], 7, false, 0⟩, ⟨4, false, 1536, 2048, 3, [6], 8, false, 0⟩,
    ⟨5, true, 2048, 2048, 4, [], 9, false, 0⟩]

theorem victim_strands_none_forked :
    victim forkedIndex none [] = some ⟨3, false⟩ ∧
      unreachable 0 (remove forkedIndex 3).2 true = [] ∧
      (evictions 5 forkedIndex).getLast? = some [] := by
  have hplaced : Placed forkedIndex :=
    ⟨fun e => [0, 512, 1024, 1536, 2048, 2048, 2048].getD e 0, by decide⟩
  have hwhole : unreachable 0 forkedIndex true = [] := by decide +kernel
  have hvictim : victim forkedIndex none [] = some ⟨3, false⟩ := by decide +kernel
  have h := victim_strands_none hplaced (by decide) hwhole
  exact ⟨hvictim, (h.1 none [] _ hvictim).2, h.2.2⟩

end Llmx
