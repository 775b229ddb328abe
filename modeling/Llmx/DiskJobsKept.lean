import Llmx.DiskJobsLined

/-!
The entries' files and the store's records of them: what is there, and how the writes that ended
left it.
-/

namespace Llmx

open Runs

namespace DiskJobs

/-- The keys of the writes. -/
def keysOf (jobs : List Job) : List Nat := (jobs.filter Job.put).map Job.key

@[simp] theorem keysOf_nil : keysOf [] = [] := by simp [keysOf]

theorem keysOf_append (a b : List Job) : keysOf (a ++ b) = keysOf a ++ keysOf b := by simp [keysOf]

theorem keysOf_cons (j : Job) (jobs : List Job) :
    keysOf (j :: jobs) = (if j.put = true then [j.key] else []) ++ keysOf jobs := by
  by_cases h : j.put = true
  · simp [keysOf, h]
  · simp [keysOf, h]

theorem keysOf_congr {a b : List Job} (h : a.map Job.call = b.map Job.call) :
    keysOf a = keysOf b := by
  induction a generalizing b with
  | nil =>
    have hb : b = [] := by simpa using h.symm
    rw [hb]
  | cons j a ih =>
    cases b with
    | nil => simp at h
    | cons i b =>
      simp only [List.map_cons, List.cons.injEq, Job.call, Prod.mk.injEq] at h
      obtain ⟨⟨-, hput, hkey⟩, hrest⟩ := h
      rw [keysOf_cons, keysOf_cons, ih hrest, hput, hkey]

theorem keysOf_takeRead {jobs rest : List Job} {r : Job} (h : takeRead jobs = some (r, rest)) :
    keysOf rest = keysOf jobs := by
  obtain ⟨hread, before, after, hjobs, hrest, -⟩ := takeRead_some h
  rw [hjobs, hrest]
  simp [keysOf_append, keysOf_cons, hread]

namespace Store

/-- The key of the write in hand. -/
def writingKey (s : Store) : List Nat :=
  match s.loop with
  | .writing _ => (s.running.map Job.key).toList
  | _ => []

/-- The keys of the writes that are not over. -/
def awaited (s : Store) : List Nat := s.writingKey ++ keysOf s.jobs

/-- The file of a write is in place and not recorded. -/
def Placing (s : Store) (key : Nat) : Prop :=
  s.loop = .writing .placed ∧ ∃ j, s.running = some j ∧ j.key = key

/-- The files and the records of what is there. -/
structure Kept (s : Store) : Prop where
  kv : ∀ k, k ∈ s.kv ↔ k ∈ s.sizes ∨ s.Placing k
  foreign : ∀ k ∈ s.foreign, k ∈ s.sizes
  froms : ∀ k ∈ s.froms, k ∈ s.sizes
  tmp : ∀ k ∈ s.tmp, ∃ w j, s.loop = .writing w ∧ w ≠ .opening ∧ w ≠ .placed ∧
    s.running = some j ∧ j.key = k
  given : ∀ k, k ∈ s.sizes ∨ k ∈ s.gone → k ≤ s.keys
  apart : ∀ k ∈ s.sizes, k ∉ s.gone
  awaits : ∀ k ∈ s.awaited, k ≤ s.keys ∧ k ∉ s.sizes ∧ k ∉ s.gone
  once : s.awaited.Nodup
  seen : ∀ r phase, s.read = some (r, phase) → phase ≠ .looking →
    (∀ ok, phase ≠ .finished ok) →
    r.key ∈ s.sizes ∨ r.key ∈ s.gone

variable {s t : Store} {j r : Job}

/-- With no job in hand the files are those recorded. -/
theorem Kept.files (h : s.Kept) (hrun : s.running = none) : s.kv = s.sizes ∧ s.tmp = ∅ := by
  constructor
  · ext k
    rw [h.kv]
    refine or_iff_left ?_
    rintro ⟨-, j, hj, -⟩
    rw [hrun] at hj
    cases hj
  · rw [Finset.eq_empty_iff_forall_notMem]
    intro k hk
    obtain ⟨w, j, -, -, -, hj, -⟩ := h.tmp k hk
    rw [hrun] at hj
    cases hj

/-- A step that leaves the records and the files in place. -/
theorem Kept.of_files (h : s.Kept) (hsizes : t.sizes = s.sizes) (hkv : t.kv = s.kv)
    (hforeign : t.foreign ⊆ s.foreign) (hfroms : t.froms ⊆ s.froms) (hgone : t.gone = s.gone)
    (hkeys : t.keys = s.keys) (hplacing : ∀ k, t.Placing k ↔ s.Placing k)
    (htmp : ∀ k ∈ t.tmp, ∃ w j, t.loop = .writing w ∧ w ≠ .opening ∧ w ≠ .placed ∧
      t.running = some j ∧ j.key = k)
    (hawaited : t.awaited.Sublist s.awaited)
    (hseen : ∀ r phase, t.read = some (r, phase) → phase ≠ .looking → (∀ ok, phase ≠ .finished ok) →
      r.key ∈ s.sizes ∨ r.key ∈ s.gone) : t.Kept := by
  refine ⟨fun k => ?_, fun k hk => ?_, fun k hk => ?_, htmp, ?_, ?_, fun k hk => ?_, ?_, ?_⟩
  · rw [hkv, hsizes, hplacing]
    exact h.kv k
  · rw [hsizes]
    exact h.foreign k (hforeign hk)
  · rw [hsizes]
    exact h.froms k (hfroms hk)
  · rw [hsizes, hgone, hkeys]
    exact h.given
  · rw [hsizes, hgone]
    exact h.apart
  · rw [hsizes, hgone, hkeys]
    exact h.awaits k (hawaited.subset hk)
  · exact h.once.sublist hawaited
  · rw [hsizes, hgone]
    exact hseen

/-- A step of a write that takes it on or ends it, with its file not in place before or after. -/
theorem Kept.of_loop (h : s.Kept) (hread : s.read = none) (tmp : Finset Nat) (loop : Loop)
    (hplacing : ∀ k, ¬ s.Placing k) (hloop : loop ≠ .writing .placed)
    (htmp : ∀ k ∈ tmp, ∃ w j, loop = .writing w ∧ w ≠ .opening ∧ w ≠ .placed ∧
      s.running = some j ∧ j.key = k)
    (hawaited : (awaited { s with tmp := tmp, loop := loop }).Sublist s.awaited) :
    Kept { s with tmp := tmp, loop := loop } := by
  refine h.of_files (Eq.refl _) (Eq.refl _) (fun _ h => h) (fun _ h => h) (Eq.refl _) (Eq.refl _)
    (fun k => ?_) htmp hawaited (by simp [hread])
  have hnot := hplacing k
  simp only [hnot, iff_false]
  rintro ⟨hl, -⟩
  exact hloop hl

/-- An entry that no write awaits goes. -/
theorem Kept.remove (h : s.Kept) {key : Nat} (hkey : key ≤ s.keys) (hawaited : key ∉ s.awaited) :
    (s.remove key).Kept := by
  have hplacing : ¬ s.Placing key := by
    rintro ⟨hl, j, hj, hjk⟩
    apply hawaited
    simp [awaited, writingKey, hl, hj, hjk]
  refine ⟨fun k => ?_, fun k hk => ?_, fun k hk => ?_, h.tmp, fun k hk => ?_, fun k hk => ?_,
    fun k hk => ?_, h.once, fun r phase hr hl ho => ?_⟩
  · have hk := h.kv k
    have hsame : (s.remove key).Placing k ↔ s.Placing k := Iff.refl _
    simp only [Store.remove, Finset.mem_erase, hk]
    constructor
    · rintro ⟨hne, hsizes | hp⟩
      · exact Or.inl ⟨hne, hsizes⟩
      · exact Or.inr hp
    · rintro (⟨hne, hsizes⟩ | hp)
      · exact ⟨hne, Or.inl hsizes⟩
      · refine ⟨?_, Or.inr hp⟩
        rintro rfl
        exact hplacing hp
  · simp only [Store.remove, Finset.mem_erase] at hk ⊢
    exact ⟨hk.1, h.foreign k hk.2⟩
  · simp only [Store.remove, Finset.mem_erase] at hk ⊢
    exact ⟨hk.1, h.froms k hk.2⟩
  · simp only [Store.remove, Finset.mem_erase, Finset.mem_insert] at hk ⊢
    rcases hk with ⟨-, hk⟩ | rfl | hk
    · exact h.given k (Or.inl hk)
    · exact hkey
    · exact h.given k (Or.inr hk)
  · simp only [Store.remove, Finset.mem_erase, Finset.mem_insert] at hk ⊢
    rintro (rfl | hgone)
    · exact hk.1 (Eq.refl _)
    · exact h.apart k hk.2 hgone
  · have hk : k ∈ s.awaited := hk
    obtain ⟨hle, hsizes, hgone⟩ := h.awaits k hk
    simp only [Store.remove, Finset.mem_erase, Finset.mem_insert, not_and, not_or]
    refine ⟨hle, fun _ => hsizes, ?_, hgone⟩
    rintro rfl
    exact hawaited hk
  · rcases h.seen r phase hr hl ho with hk | hk
    · by_cases heq : r.key = key
      · exact Or.inr (by simp [Store.remove, heq])
      · exact Or.inl (by simp [Store.remove, heq, hk])
    · exact Or.inr (by simp [Store.remove, hk])

theorem awaited_writing {w : Writing} (hl : s.loop = .writing w) (hj : s.running = some j) :
    s.awaited = j.key :: keysOf s.jobs := by
  simp [awaited, writingKey, hl, hj]

theorem Wrote.kept {w : Writing} (h : Wrote s j w t) (hk : s.Kept) (hl : s.loop = .writing w)
    (hread : s.read = none) (hj : s.running = some j) : t.Kept := by
  have hawaited := awaited_writing hl hj
  have htail : (keysOf s.jobs).Sublist s.awaited := by
    rw [hawaited]
    exact List.sublist_cons_self _ _
  have hfirst := hk.awaits j.key (by rw [hawaited]; exact List.mem_cons_self)
  have hnodup := hk.once
  rw [hawaited, List.nodup_cons] at hnodup
  have hnone : w ≠ .placed → ∀ k, ¬ s.Placing k := by
    rintro hw k ⟨hl', -⟩
    rw [hl] at hl'
    simp only [Loop.writing.injEq] at hl'
    exact hw hl'
  have hold : ∀ k ∈ s.tmp, w ≠ .opening ∧ w ≠ .placed ∧ k = j.key := by
    intro k hkt
    obtain ⟨w', j', hl', hopen, hplaced, hj', hjk⟩ := hk.tmp k hkt
    rw [hl] at hl'
    rw [hj] at hj'
    simp only [Loop.writing.injEq, Option.some.injEq] at hl' hj'
    rw [hl', hj']
    exact ⟨hopen, hplaced, hjk.symm⟩
  cases h with
  | refused =>
    exact hk.of_loop hread s.tmp (.ended false) (hnone (by simp)) (by simp)
      (fun k hkt => absurd (Eq.refl _) (hold k hkt).1) (by simp [awaited, writingKey])
  | opened =>
    refine hk.of_loop hread (insert j.key s.tmp) (.writing (.chunks j.chunks)) (hnone (by simp))
      (by simp) (fun k hkt => ?_) (by simp [awaited, writingKey, hl])
    simp only [Finset.mem_insert] at hkt
    rcases hkt with rfl | hkt
    · exact ⟨_, j, Eq.refl _, by simp, by simp, hj, Eq.refl _⟩
    · exact absurd (Eq.refl _) (hold k hkt).1
  | failed w hw =>
    refine hk.of_loop hread (s.tmp.erase j.key) (.ended false) (hnone hw) (by simp)
      (fun k hkt => ?_) (by simp [awaited, writingKey])
    simp only [Finset.mem_erase] at hkt
    exact absurd (hold k hkt.2).2.2 hkt.1
  | header =>
    exact hk.of_loop hread s.tmp (.writing .moving) (hnone (by simp)) (by simp)
      (fun k hkt => ⟨_, j, Eq.refl _, by simp, by simp, hj, (hold k hkt).2.2.symm⟩)
      (by simp [awaited, writingKey, hl])
  | chunk left =>
    exact hk.of_loop hread s.tmp (.writing (.serving left)) (hnone (by simp)) (by simp)
      (fun k hkt => ⟨_, j, Eq.refl _, by simp, by simp, hj, (hold k hkt).2.2.symm⟩)
      (by simp [awaited, writingKey, hl])
  | served left r rest htake =>
    refine hk.of_files (Eq.refl _) (Eq.refl _) (fun _ h => h) (fun _ h => h) (Eq.refl _) (Eq.refl _)
      (fun k => ?_) (fun k hkt => ?_) ?_ (fun r' phase hr hlook => ?_)
    · simp [Placing]
    · exact ⟨_, j, hl, by simp, by simp, hj, (hold k hkt).2.2.symm⟩
    · simp [awaited, writingKey, hl, keysOf_takeRead htake]
    · simp only [Option.some.injEq, Prod.mk.injEq] at hr
      exact absurd hr.2.symm hlook
  | on left =>
    exact hk.of_loop hread s.tmp (.writing (.chunks left)) (hnone (by simp)) (by simp)
      (fun k hkt => ⟨_, j, Eq.refl _, by simp, by simp, hj, (hold k hkt).2.2.symm⟩)
      (by simp [awaited, writingKey, hl])
  | moved =>
    have hfree : ∀ k, k ∈ s.kv ↔ k ∈ s.sizes := fun k => by
      rw [hk.kv]
      exact or_iff_left (hnone (by simp) k)
    refine ⟨fun k => ?_, hk.foreign, hk.froms, fun k hkt => ?_, hk.given, hk.apart, ?_, ?_,
      by simp [hread]⟩
    · simp [Placing, hj, hfree, or_comm, eq_comm]
    · simp only [Finset.mem_erase] at hkt
      exact absurd (hold k hkt.2).2.2 hkt.1
    · simpa [awaited, writingKey, hl] using hk.awaits
    · simpa [awaited, writingKey, hl] using hk.once
  | taken =>
    refine ⟨fun k => ?_, hk.foreign, hk.froms, fun k hkt => ?_, hk.given, hk.apart, fun k hkt => ?_,
      ?_, by simp [hread]⟩
    · have hkv := hk.kv k
      simp only [Placing, hl, hj, Option.some.injEq, true_and, exists_eq_left'] at hkv
      simp only [Finset.mem_erase, hkv, Placing, reduceCtorEq, false_and, or_false]
      constructor
      · rintro ⟨hne, hsizes | heq⟩
        · exact hsizes
        · exact absurd heq.symm hne
      · intro hsizes
        refine ⟨?_, Or.inl hsizes⟩
        rintro rfl
        exact hfirst.2.1 hsizes
    · exact absurd (Eq.refl _) (hold k hkt).2.1
    · exact hk.awaits k (htail.subset (by simpa [awaited, writingKey] using hkt))
    · simpa [awaited, writingKey] using hnodup.2
  | recorded =>
    refine ⟨fun k => ?_, fun k hkf => ?_, fun k hkf => ?_, fun k hkt => ?_, fun k hks => ?_,
      fun k hks => ?_, fun k hkt => ?_, ?_, by simp [hread]⟩
    · have hkv := hk.kv k
      simp only [Placing, hl, hj, Option.some.injEq, true_and, exists_eq_left'] at hkv
      simp only [hkv, Finset.mem_insert, Placing, reduceCtorEq, false_and, or_false]
      rw [or_comm, eq_comm]
    · exact Finset.mem_insert_of_mem (hk.foreign k hkf)
    · exact Finset.mem_insert_of_mem (hk.froms k hkf)
    · exact absurd (Eq.refl _) (hold k hkt).2.1
    · simp only [Finset.mem_insert] at hks
      rcases hks with (rfl | hks) | hks
      · exact hfirst.1
      · exact hk.given k (Or.inl hks)
      · exact hk.given k (Or.inr hks)
    · simp only [Finset.mem_insert] at hks
      rcases hks with rfl | hks
      · exact hfirst.2.2
      · exact hk.apart k hks
    · have hkt : k ∈ keysOf s.jobs := by simpa [awaited, writingKey] using hkt
      obtain ⟨hle, hsizes, hgone⟩ := hk.awaits k (htail.subset hkt)
      refine ⟨hle, ?_, hgone⟩
      simp only [Finset.mem_insert, not_or]
      refine ⟨?_, hsizes⟩
      rintro rfl
      exact hnodup.1 hkt
    · simpa [awaited, writingKey] using hnodup.2

/-- A step of a read, which finds its entry there or goes on with it. -/
theorem Kept.of_read (h : s.Kept) (r : Job) (phase : Reading) (foreign froms : Finset Nat)
    (hforeign : foreign ⊆ s.foreign) (hfroms : froms ⊆ s.froms)
    (hseen : phase ≠ .looking → (∀ ok, phase ≠ .finished ok) →
      r.key ∈ s.sizes ∨ r.key ∈ s.gone) :
    Kept { s with foreign := foreign, froms := froms, read := some (r, phase) } := by
  refine h.of_files (Eq.refl _) (Eq.refl _) hforeign hfroms (Eq.refl _) (Eq.refl _)
    (fun k => Iff.refl _) h.tmp (List.Sublist.refl _) fun r' phase' heq hlook hfinished => ?_
  simp only [Option.some.injEq, Prod.mk.injEq] at heq
  rw [← heq.1]
  rw [← heq.2] at hlook hfinished
  exact hseen hlook hfinished

theorem Went.kept {phase : Reading} (h : Went s r phase t) (hk : s.Kept)
    (hread : s.read = some (r, phase)) : t.Kept := by
  have hsame := Finset.Subset.refl s.foreign
  have hfroms := Finset.Subset.refl s.froms
  have hseen := hk.seen r phase hread
  cases h with
  | found hsizes => exact hk.of_read r .opening _ _ hsame hfroms fun _ _ => Or.inl hsizes
  | missing => exact hk.of_read r (.finished false) _ _ hsame hfroms (by simp)
  | opened =>
    exact hk.of_read r .opened _ _ hsame hfroms fun _ _ => hseen (by simp) (by simp)
  | broken phase hphase =>
    refine hk.of_read r .spoiled _ _ hsame hfroms fun _ _ => hseen ?_ ?_
    · rcases hphase with rfl | rfl | rfl <;> simp
    · rcases hphase with rfl | rfl | rfl <;> simp
  | good phase => exact hk.of_read r (.finished true) _ _ hsame hfroms (by simp)
  | proved =>
    exact hk.of_read r .rewriting _ _ hsame hfroms fun _ _ => hseen (by simp) (by simp)
  | written =>
    exact hk.of_read r .renewing _ _ hsame (Finset.erase_subset _ _) fun _ _ =>
      hseen (by simp) (by simp)
  | ours =>
    exact hk.of_read r .renewing _ _ hsame hfroms fun _ _ => hseen (by simp) (by simp)
  | renewed =>
    exact hk.of_read r (.finished true) _ _ (Finset.erase_subset _ _) hfroms (by simp)
  | removed =>
    have hthere := hseen (by simp) (by simp)
    have hgone := hk.remove (hk.given _ hthere) fun hmem => by
      obtain ⟨-, hsizes, hgone⟩ := hk.awaits _ hmem
      exact hthere.elim hsizes hgone
    exact hgone.of_read r (.finished false) _ _ (Finset.Subset.refl _) (Finset.Subset.refl _)
      (by simp)
  | ended ok hl =>
    refine hk.of_files (Eq.refl _) (Eq.refl _) (fun _ h => h) (fun _ h => h) (Eq.refl _) (Eq.refl _)
      (fun k => by simp [Placing, hl]) (fun k hkt => ?_) (by simp [awaited, writingKey, hl])
      (by simp)
    obtain ⟨w, j, hw, -⟩ := hk.tmp k hkt
    rw [hl] at hw
    cases hw
  | answered ok =>
    exact hk.of_files (Eq.refl _) (Eq.refl _) (fun _ h => h) (fun _ h => h) (Eq.refl _) (Eq.refl _)
      (fun k => Iff.refl _) hk.tmp (List.Sublist.refl _) (by simp)

theorem cancel_kept (hk : s.Kept) (key : Nat) : (s.cancel key).Kept := by
  rcases cancel_cases s key with ⟨-, h⟩ | ⟨j, hj, hw, -, h⟩ | ⟨-, -, h⟩
  · rw [h]
    refine hk.of_files (Eq.refl _) (Eq.refl _) (fun _ h => h) (fun _ h => h) (Eq.refl _) (Eq.refl _)
      (fun k => Iff.refl _) hk.tmp ?_ hk.seen
    have hkeys := keysOf_congr (map_cancelFirst key s.jobs)
    simp [awaited, writingKey, hkeys]
  · rw [h]
    refine hk.of_files (Eq.refl _) (Eq.refl _) (fun _ h => h) (fun _ h => h) (Eq.refl _) (Eq.refl _)
      (fun k => by simp [Placing, hj, Job.cancel]) (fun k hkt => ?_) ?_ hk.seen
    · obtain ⟨w, i, hl, hopen, hplaced, hi, hik⟩ := hk.tmp k hkt
      rw [hj] at hi
      simp only [Option.some.injEq] at hi
      exact ⟨w, j.cancel, hl, hopen, hplaced, Eq.refl _, by rw [← hik, ← hi]; simp [Job.cancel]⟩
    · have hkeys : writingKey { s with running := some j.cancel } = s.writingKey := by
        simp [writingKey, hj, Job.cancel]
      simp [awaited, hkeys]
  · rw [h]
    exact hk

theorem take_kept (hk : s.Kept) (hs : s.Shape) (hidle : s.loop = .idle) (h : s.take = some t) :
    t.Kept := by
  unfold Shape at hs
  rw [hidle] at hs
  obtain ⟨hrun, hread⟩ := hs
  have hnone : ∀ k, ¬ s.Placing k := fun k hp => by simp [Placing, hidle] at hp
  have htmp : ∀ k, k ∉ s.tmp := by
    intro k hkt
    obtain ⟨w, j, hw, -⟩ := hk.tmp k hkt
    rw [hidle] at hw
    cases hw
  unfold take at h
  cases htake : takeRead s.jobs with
  | some x =>
    obtain ⟨r, rest⟩ := x
    rw [htake] at h
    obtain rfl := Option.some.inj h
    refine hk.of_files (Eq.refl _) (Eq.refl _) (fun _ h => h) (fun _ h => h) (Eq.refl _) (Eq.refl _)
      (fun k => ?_) (fun k hkt => absurd hkt (htmp k)) ?_ fun r' p heq hlook => ?_
    · simpa [Placing] using hnone k
    · simp [awaited, writingKey, hidle, keysOf_takeRead htake]
    · simp only [Option.some.injEq, Prod.mk.injEq] at heq
      exact absurd heq.2.symm hlook
  | none =>
    rw [htake] at h
    have hputs := takeRead_none htake
    cases hjobs : s.jobs with
    | nil =>
      rw [hjobs] at h
      dsimp only at h
      split at h
      next =>
        obtain rfl := Option.some.inj h
        refine hk.of_files (Eq.refl _) (Eq.refl _) (fun _ h => h) (fun _ h => h) (Eq.refl _)
          (Eq.refl _) (fun k => ?_) (fun k hkt => absurd hkt (htmp k)) ?_ (by simp [hread])
        · simpa [Placing] using hnone k
        · simp [awaited, writingKey, hidle]
      next => cases h
    | cons j rest =>
      rw [hjobs] at h hputs
      obtain rfl := Option.some.inj h
      have hput := hputs j List.mem_cons_self
      refine hk.of_files (Eq.refl _) (Eq.refl _) (fun _ h => h) (fun _ h => h) (Eq.refl _)
        (Eq.refl _) (fun k => ?_) (fun k hkt => absurd hkt (htmp k)) ?_ (by simp [hread])
      · simpa [Placing] using hnone k
      · simp [awaited, writingKey, hidle, hjobs, keysOf_cons, hput]

theorem not_awaited_of_pending (hs : s.Shape) {key : Nat} (h : s.pending key = false) :
    key ∉ s.awaited := by
  simp only [pending, Bool.or_eq_false_iff, List.any_eq_false, Job.writes] at h
  obtain ⟨hjobs, hrun⟩ := h
  intro hmem
  rcases List.mem_append.mp hmem with hmem | hmem
  · unfold writingKey at hmem
    unfold Shape at hs
    split at hmem
    next w hl =>
      rw [hl] at hs
      obtain ⟨⟨j, hj, hput⟩, -⟩ := hs
      simp [hj] at hmem hrun
      exact hrun hput hmem.symm
    next => cases hmem
  · obtain ⟨j, hj, hkey⟩ := List.mem_map.mp hmem
    obtain ⟨hj, hput⟩ := List.mem_filter.mp hj
    exact hjobs j hj (by simp [hput, hkey])

theorem Kept.call (hk : s.Kept) (claim : Bool) (key chunks : Nat) :
    (s.call false claim key chunks).Kept := by
  refine hk.of_files (Eq.refl _) (Eq.refl _) (fun _ h => h) (fun _ h => h) (Eq.refl _) (Eq.refl _)
    (fun k => Iff.refl _) hk.tmp ?_ hk.seen
  simp [awaited, writingKey, Store.call, keysOf_append, keysOf_cons]

theorem Kept.put (hk : s.Kept) (chunks : Nat) :
    ({ s with keys := s.keys + 1 }.call true false (s.keys + 1) chunks).Kept := by
  have hawaited : ({ s with keys := s.keys + 1 }.call true false (s.keys + 1) chunks).awaited =
      s.awaited ++ [s.keys + 1] := by
    simp [awaited, writingKey, Store.call, keysOf_append, keysOf_cons]
  refine ⟨hk.kv, hk.foreign, hk.froms, hk.tmp, fun k h => ?_, hk.apart, fun k h => ?_, ?_, hk.seen⟩
  · exact Nat.le_succ_of_le (hk.given k h)
  · rw [hawaited] at h
    rcases List.mem_append.mp h with h | h
    · obtain ⟨hle, hsizes, hgone⟩ := hk.awaits k h
      exact ⟨Nat.le_succ_of_le hle, hsizes, hgone⟩
    · obtain rfl := List.mem_singleton.mp h
      refine ⟨Nat.le_refl _, fun hsizes => ?_, fun hgone => ?_⟩
      · have := hk.given _ (Or.inl hsizes)
        omega
      · have := hk.given _ (Or.inr hgone)
        omega
  · rw [hawaited]
    refine List.nodup_append.mpr ⟨hk.once, by simp, fun x hx y hy => ?_⟩
    obtain rfl := List.mem_singleton.mp hy
    have := (hk.awaits x hx).1
    omega

theorem Moved.kept (h : Moved s t) (hs : s.Shape) (hk : s.Kept) : t.Kept := by
  cases h with
  | called put claim key chunks hstop hput =>
    rw [hput]
    exact hk.call claim key chunks
  | put chunks => exact hk.put chunks
  | cancelled key => exact cancel_kept hk key
  | evicting key =>
    have hcancel := cancel_kept hk key
    exact ⟨hcancel.kv, hcancel.foreign, hcancel.froms, hcancel.tmp, hcancel.given, hcancel.apart,
      hcancel.awaits, hcancel.once, hcancel.seen⟩
  | erased key =>
    unfold erase
    split
    next hsizes =>
      have hgone := hk.remove (hk.given _ (Or.inl hsizes)) fun hmem => (hk.awaits _ hmem).2.1 hsizes
      exact ⟨hgone.kv, hgone.foreign, hgone.froms, hgone.tmp, hgone.given, hgone.apart,
        hgone.awaits, hgone.once, hgone.seen⟩
    next => exact ⟨hk.kv, hk.foreign, hk.froms, hk.tmp, hk.given, hk.apart, hk.awaits, hk.once,
      hk.seen⟩
  | dropped key hkey hpending => exact hk.remove hkey (not_awaited_of_pending hs hpending)
  | stopped =>
    refine hk.of_files (Eq.refl _) (Eq.refl _) (fun _ h => h) (fun _ h => h) (Eq.refl _) (Eq.refl _)
      (fun k => Iff.refl _) hk.tmp ?_ hk.seen
    have hkeys := keysOf_congr (map_cancel s.jobs)
    simp [awaited, writingKey, hkeys]
  | took t hidle htake => exact take_kept hk hs hidle htake
  | wrote w j t hl hread hrun hw => exact hw.kept hk hl hread hrun
  | went r phase t hread hw => exact hw.kept hk hread
  | cleared ok j hl hrun =>
    unfold Shape at hs
    rw [hl] at hs
    refine hk.of_files (Eq.refl _) (Eq.refl _) (fun _ h => h) (fun _ h => h) (Eq.refl _) (Eq.refl _)
      (fun k => by simp [Placing, hl]) (fun k hkt => ?_) (by simp [awaited, writingKey, hl])
      (by simp [hs.2])
    obtain ⟨w, j, hw, -⟩ := hk.tmp k hkt
    rw [hl] at hw
    cases hw
  | answered j ok hl =>
    refine hk.of_files (Eq.refl _) (Eq.refl _) (fun _ h => h) (fun _ h => h) (Eq.refl _) (Eq.refl _)
      (fun k => by simp [Placing, hl]) (fun k hkt => ?_) (by simp [awaited, writingKey, hl]) hk.seen
    obtain ⟨w, j, hw, -⟩ := hk.tmp k hkt
    rw [hl] at hw
    cases hw

end Store

theorem kept {s : Store} (h : Reach machine s) : s.Kept := by
  have hboth : s.Lined ∧ s.Kept := by
    refine h.invariant (fun s => s.Lined ∧ s.Kept) (fun s hs => ⟨lined (.start hs), ?_⟩)
      fun s e t hs he => ⟨(Store.moved he).lined hs.1, (Store.moved he).kept hs.1.shape hs.2⟩
    obtain ⟨hjobs, hrun, hloop, hread, -, hgiven, hkv, hforeign, hfroms, htmp, -, -, -, -, hgone⟩ :=
      hs
    refine ⟨fun k => ?_, fun k hk => hforeign hk, fun k hk => hfroms hk, by simp [htmp], ?_,
      by simp [hgone], ?_, ?_, by simp [hread]⟩
    · simp [hkv, Store.Placing, hloop]
    · intro k hk
      rcases hk with hk | hk
      · exact hgiven k hk
      · simp [hgone] at hk
    · simp [Store.awaited, Store.writingKey, hloop, hjobs]
    · simp [Store.awaited, Store.writingKey, hloop, hjobs]
  exact hboth.2

theorem of_mem_cancelFirst {key : Nat} {jobs : List Job} {j : Job} (h : j ∈ cancelFirst key jobs) :
    ∃ i ∈ jobs, j = i ∨ j = i.cancel := by
  induction jobs with
  | nil => simp [cancelFirst] at h
  | cons i jobs ih =>
    unfold cancelFirst at h
    split at h
    next =>
      rcases List.mem_cons.mp h with rfl | h
      · exact ⟨i, List.mem_cons_self, Or.inr (Eq.refl _)⟩
      · exact ⟨j, List.mem_cons_of_mem _ h, Or.inl (Eq.refl _)⟩
    next =>
      rcases List.mem_cons.mp h with rfl | h
      · exact ⟨j, List.mem_cons_self, Or.inl (Eq.refl _)⟩
      · obtain ⟨i', hi', heq⟩ := ih h
        exact ⟨i', List.mem_cons_of_mem _ hi', heq⟩

theorem writes_iff {j : Job} {key : Nat} : j.writes key = true ↔ j.put = true ∧ j.key = key := by
  simp [Job.writes]

theorem mem_keysOf {jobs : List Job} {key : Nat} :
    key ∈ keysOf jobs ↔ ∃ j ∈ jobs, j.writes key = true := by
  simp [keysOf, Job.writes, and_assoc]

/-- Where a key is written once, its write is cancelled. -/
theorem cancelled_of_mem {key : Nat} {jobs : List Job} (hnodup : (keysOf jobs).Nodup) {j : Job}
    (h : j ∈ cancelFirst key jobs) (hw : j.writes key = true) : j.cancelled = true := by
  induction jobs with
  | nil => simp [cancelFirst] at h
  | cons i jobs ih =>
    unfold cancelFirst at h
    rw [keysOf_cons] at hnodup
    split at h
    next hi =>
      obtain ⟨hput, hkey⟩ := writes_iff.mp hi
      rcases List.mem_cons.mp h with rfl | h
      · simp [Job.cancel]
      · rw [if_pos hput, hkey, List.singleton_append, List.nodup_cons] at hnodup
        exact absurd (mem_keysOf.mpr ⟨j, h, hw⟩) hnodup.1
    next hi =>
      rcases List.mem_cons.mp h with rfl | h
      · exact absurd hw hi
      · exact ih (List.nodup_append.mp hnodup).2.1 h

namespace Store

/-- What has ended, with how: answered, on the way to it, or a read that is over. -/
def results (s : Store) : List (Job × Bool) :=
  s.answers ++
    (match s.loop with
      | .answering j ok => [(j, ok)]
      | .ended ok => s.running.toList.map fun j => (j, ok)
      | _ => []) ++
    (match s.read with
      | some (r, .finished ok) => [(r, ok)]
      | _ => [])

/-- A write that is queued or in hand. -/
def Awaits (s : Store) (j : Job) : Prop :=
  j.put = true ∧ (j ∈ s.jobs ∨ s.running = some j ∧ ∃ w, s.loop = .writing w)

/-- A read that found its entry recorded, and has found nothing wrong with it since. -/
def Passed (s : Store) (r : Job) : Prop :=
  r.put = false ∧ ((r, true) ∈ s.results ∨ ∃ phase, s.read = some (r, phase) ∧
    (phase = .opening ∨ phase = .opened ∨ phase = .rewriting ∨ phase = .renewing))

/-- The writes that ended, by their entries. -/
structure Settled (s : Store) : Prop where
  good : ∀ j, (j, true) ∈ s.results → j.put = true → j.key ∈ s.sizes ∨ j.key ∈ s.gone
  bad : ∀ j, (j, false) ∈ s.results → j.put = true →
    j.key ≤ s.keys ∧ j.key ∉ s.sizes ∧ j.key ∉ s.awaited

/-- The keys evicted, or being so. -/
structure Barred (s : Store) : Prop where
  evicted : ∀ k n, (k, n) ∈ s.evicted → k ≤ s.keys ∧ k ∉ s.sizes ∧
    ∀ j, s.Awaits j → j.key = k → j.cancelled = true
  evicting : ∀ k ∈ s.evicting, k ≤ s.keys ∧ ∀ j, s.Awaits j → j.key = k → j.cancelled = true
  reads : ∀ k n r, (k, n) ∈ s.evicted → s.Passed r → r.key = k → r.number < n

variable {s t : Store} {j r : Job}

theorem Settled.step (h : s.Settled)
    (hgood : ∀ j, (j, true) ∈ t.results → j.put = true →
      (∃ i, (i, true) ∈ s.results ∧ i.put = true ∧ i.key = j.key) ∨ j.key ∈ t.sizes)
    (hbad : ∀ j, (j, false) ∈ t.results → j.put = true →
      (∃ i, (i, false) ∈ s.results ∧ i.put = true ∧ i.key = j.key) ∨
        (j.key ≤ t.keys ∧ j.key ∉ t.sizes ∧ j.key ∉ t.awaited))
    (hthere : ∀ k, k ∈ s.sizes ∨ k ∈ s.gone → k ∈ t.sizes ∨ k ∈ t.gone)
    (hnew : ∀ k ∈ t.sizes, k ∈ s.sizes ∨ k ∈ s.awaited)
    (hawaited : ∀ k ∈ t.awaited, k ∈ s.awaited ∨ s.keys < k) (hkeys : s.keys ≤ t.keys) :
    t.Settled := by
  refine ⟨fun j hj hput => ?_, fun j hj hput => ?_⟩
  · rcases hgood j hj hput with ⟨i, hi, hiput, hkey⟩ | hsizes
    · rw [← hkey]
      exact hthere _ (h.good i hi hiput)
    · exact Or.inl hsizes
  · rcases hbad j hj hput with ⟨i, hi, hiput, hkey⟩ | hdirect
    · rw [← hkey]
      obtain ⟨hle, hsizes, haw⟩ := h.bad i hi hiput
      refine ⟨Nat.le_trans hle hkeys, fun hm => (hnew _ hm).elim hsizes haw, fun hm => ?_⟩
      rcases hawaited _ hm with hm | hm
      · exact haw hm
      · omega
    · exact hdirect

/-- A step that leaves what ended and the records. -/
theorem Settled.of_same (h : s.Settled)
    (hresults : ∀ i ok, (i, ok) ∈ t.results → i.put = true → (i, ok) ∈ s.results)
    (hsizes : t.sizes = s.sizes) (hgone : t.gone = s.gone) (hkeys : t.keys = s.keys)
    (hawaited : ∀ k ∈ t.awaited, k ∈ s.awaited) : t.Settled := by
  refine h.step (fun j hj hput => Or.inl ⟨j, hresults _ _ hj hput, hput, Eq.refl _⟩)
    (fun j hj hput => Or.inl ⟨j, hresults _ _ hj hput, hput, Eq.refl _⟩) (fun k hk => ?_)
    (fun k hk => ?_)
    (fun k hk => Or.inl (hawaited k hk)) (Nat.le_of_eq hkeys.symm)
  · rw [hsizes, hgone]
    exact hk
  · rw [hsizes] at hk
    exact Or.inl hk

theorem Wrote.settled {w : Writing} (h : Wrote s j w t) (hset : s.Settled) (hk : s.Kept)
    (hl : s.loop = .writing w) (hread : s.read = none) (hj : s.running = some j) : t.Settled := by
  have hawaited := awaited_writing hl hj
  have hfirst := hk.awaits j.key (by rw [hawaited]; exact List.mem_cons_self)
  have hnodup := hk.once
  rw [hawaited, List.nodup_cons] at hnodup
  have hfail : ∀ u : Store, u.loop = .ended false → u.running = some j → u.read = none →
      u.answers = s.answers → u.jobs = s.jobs → u.sizes = s.sizes → u.gone = s.gone →
        u.keys = s.keys → u.Settled := by
    intro u hul huj hur hua hujobs hus hug huk
    have haw : u.awaited = keysOf s.jobs := by simp [awaited, writingKey, hul, hujobs]
    refine hset.step (fun i hi hput => ?_) (fun i hi hput => ?_) (fun k hk => ?_) (fun k hk => ?_)
      (fun k hk => ?_) (Nat.le_of_eq huk.symm)
    · refine Or.inl ⟨i, ?_, hput, Eq.refl _⟩
      simp [results, hul, huj, hur, hua] at hi
      simp [results, hl, hread, hi]
    · simp [results, hul, huj, hur, hua] at hi
      rcases hi with hi | rfl
      · exact Or.inl ⟨i, by simp [results, hl, hread, hi], hput, Eq.refl _⟩
      · right
        rw [hus, huk, haw]
        exact ⟨hfirst.1, hfirst.2.1, hnodup.1⟩
    · rw [hus, hug]
      exact hk
    · rw [hus] at hk
      exact Or.inl hk
    · rw [haw] at hk
      left
      rw [hawaited]
      exact List.mem_cons_of_mem _ hk
  cases h with
  | refused | failed | taken =>
    exact hfail _ (Eq.refl _) hj hread (Eq.refl _) (Eq.refl _) (Eq.refl _) (Eq.refl _) (Eq.refl _)
  | recorded =>
    refine hset.step (fun i hi hput => ?_) (fun i hi hput => ?_) (fun k hk => ?_) (fun k hk => ?_)
      (fun k hk => ?_) (Nat.le_refl _)
    · simp [results, hj, hread] at hi
      rcases hi with hi | rfl
      · exact Or.inl ⟨i, by simp [results, hl, hread, hi], hput, Eq.refl _⟩
      · exact Or.inr (Finset.mem_insert_self _ _)
    · simp [results, hj, hread] at hi
      exact Or.inl ⟨i, by simp [results, hl, hread, hi], hput, Eq.refl _⟩
    · exact hk.imp_left Finset.mem_insert_of_mem
    · simp only [Finset.mem_insert] at hk
      rcases hk with rfl | hk
      · exact Or.inr (by rw [hawaited]; exact List.mem_cons_self)
      · exact Or.inl hk
    · left
      rw [hawaited]
      exact List.mem_cons_of_mem _ (by simpa [awaited, writingKey] using hk)
  | served left r rest htake =>
    refine hset.of_same (fun i ok hx _ => ?_) (Eq.refl _) (Eq.refl _) (Eq.refl _) fun k hk => ?_
    · simpa [results, hl, hread] using hx
    · simpa [awaited, writingKey, hl, keysOf_takeRead htake] using hk
  | _ =>
    refine hset.of_same (fun i ok hx _ => ?_) (Eq.refl _) (Eq.refl _) (Eq.refl _) fun k hk => ?_
    · simpa [results, hl, hread] using hx
    · simpa [awaited, writingKey, hl] using hk

/-- What a read's step adds to what ended is the read. -/
theorem Went.results {phase : Reading} (h : Went s r phase t) (hs : s.Shape)
    (hread : s.read = some (r, phase)) :
    ∀ x ∈ t.results, x ∈ s.results ∨ x.1 = r ∧ t.read = some (r, .finished x.2) := by
  intro x hx
  obtain ⟨i, ok⟩ := x
  cases h with
  | ended ok hl =>
    unfold Shape at hs
    rw [hl] at hs
    obtain ⟨r', p', hr, hp, -⟩ := hs
    rw [hread] at hp
    simp only [Option.some.injEq, Prod.mk.injEq] at hp
    simpa [Store.results, hl, hr, hread, hp.1] using hx
  | answered ok =>
    simp only [Store.results, hread, List.append_nil, List.mem_append] at hx ⊢
    tauto
  | good =>
    simp only [Store.results, hread, List.mem_append, List.mem_singleton, Prod.mk.injEq] at hx ⊢
    rcases hx with hx | ⟨rfl, rfl⟩
    · exact Or.inl (Or.inl hx)
    · exact Or.inr ⟨Eq.refl _, Eq.refl _⟩
  | missing | renewed | removed =>
    simp only [Store.results, Store.remove, hread, List.append_nil, List.mem_append,
      List.mem_singleton, Prod.mk.injEq] at hx ⊢
    rcases hx with hx | ⟨rfl, rfl⟩
    · exact Or.inl hx
    · exact Or.inr ⟨Eq.refl _, Eq.refl _⟩
  | broken phase hphase =>
    left
    simp only [Store.results, hread, List.append_nil] at hx ⊢
    exact List.mem_append_left _ hx
  | found | opened | proved | written | ours =>
    exact Or.inl (by simpa [Store.results, hread] using hx)

theorem Went.settled {phase : Reading} (h : Went s r phase t) (hset : s.Settled) (hs : s.Shape)
    (hread : s.read = some (r, phase)) : t.Settled := by
  have hget := (hs.of_read hread).1
  have hresults := h.results hs hread
  have hputs : ∀ i ok, (i, ok) ∈ t.results → i.put = true → (i, ok) ∈ s.results := by
    intro i ok hi hput
    rcases hresults _ hi with hi | ⟨heq, -⟩
    · exact hi
    · have heq : i = r := heq
      rw [heq, hget] at hput
      cases hput
  cases h with
  | removed =>
    refine hset.step (fun i hi hput => Or.inl ⟨i, hputs i true hi hput, hput, Eq.refl _⟩)
      (fun i hi hput => Or.inl ⟨i, hputs i false hi hput, hput, Eq.refl _⟩) (fun k hk => ?_)
      (fun k hk => Or.inl (Finset.mem_of_mem_erase hk)) (fun k hk => Or.inl hk) (Nat.le_refl _)
    simp only [Store.remove, Finset.mem_erase, Finset.mem_insert]
    by_cases heq : k = r.key
    · simp [heq]
    · simpa [heq] using hk
  | ended ok hl =>
    refine hset.of_same hputs (Eq.refl _) (Eq.refl _) (Eq.refl _) fun k hk => ?_
    simpa [awaited, writingKey, hl] using hk
  | _ => exact hset.of_same hputs (Eq.refl _) (Eq.refl _) (Eq.refl _) fun k hk => hk

/-- A cancel leaves what ended, up to its mark. -/
theorem cancel_results (s : Store) (key : Nat) :
    ∀ i ok, (i, ok) ∈ (s.cancel key).results → ∃ i', (i', ok) ∈ s.results ∧ i'.put = i.put ∧
      i'.key = i.key ∧ i'.number = i.number ∧ (i.put = false → i' = i) := by
  intro i ok hi
  rcases cancel_cases s key with ⟨-, h⟩ | ⟨j, hj, hw, -, h⟩ | ⟨-, -, h⟩
  · rw [h] at hi
    exact ⟨i, hi, Eq.refl _, Eq.refl _, Eq.refl _, fun _ => Eq.refl _⟩
  · rw [h] at hi
    have hput := (writes_iff.mp hw).1
    unfold results at hi
    dsimp only at hi
    cases hl : s.loop with
    | ended done =>
      rw [hl] at hi
      simp only [Option.toList_some, List.map_cons, List.map_nil, List.mem_append,
        List.mem_singleton, Prod.mk.injEq] at hi
      rcases hi with (hi | ⟨rfl, rfl⟩) | hi
      · exact ⟨i, by simp [results, hi], Eq.refl _, Eq.refl _, Eq.refl _, fun _ => Eq.refl _⟩
      · refine ⟨j, by simp [results, hl, hj], Eq.refl _, Eq.refl _, Eq.refl _, fun hnot => ?_⟩
        have hnot : j.put = false := hnot
        rw [hput] at hnot
        cases hnot
      · exact ⟨i, by simp only [results, List.mem_append]; exact Or.inr hi, Eq.refl _, Eq.refl _,
          Eq.refl _, fun _ => Eq.refl _⟩
    | _ =>
      rw [hl] at hi
      exact ⟨i, by simpa [results, hl] using hi, Eq.refl _, Eq.refl _, Eq.refl _,
        fun _ => Eq.refl _⟩
  · rw [h] at hi
    exact ⟨i, hi, Eq.refl _, Eq.refl _, Eq.refl _, fun _ => Eq.refl _⟩

theorem cancel_fields (s : Store) (key : Nat) :
    (s.cancel key).sizes = s.sizes ∧ (s.cancel key).gone = s.gone ∧
      (s.cancel key).keys = s.keys ∧ (s.cancel key).evicted = s.evicted ∧
      (s.cancel key).evicting = s.evicting ∧ (s.cancel key).read = s.read ∧
      (s.cancel key).loop = s.loop ∧ (s.cancel key).awaited = s.awaited := by
  rcases cancel_cases s key with ⟨-, h⟩ | ⟨j, hj, hw, -, h⟩ | ⟨-, -, h⟩
  · have hkeys := keysOf_congr (map_cancelFirst key s.jobs)
    rw [h]
    simp [awaited, writingKey, hkeys]
  · have hkeys : writingKey { s with running := some j.cancel } = s.writingKey := by
      simp [writingKey, hj, Job.cancel]
    rw [h]
    simp [awaited, hkeys]
  · rw [h]
    simp

theorem cancel_settled (hset : s.Settled) (key : Nat) : (s.cancel key).Settled := by
  obtain ⟨hsizes, hgone, hkeys, -, -, -, -, hawaited⟩ := cancel_fields s key
  have hresults := cancel_results s key
  refine hset.step (fun i hi hput => ?_) (fun i hi hput => ?_) (fun k hk => ?_) (fun k hk => ?_)
    (fun k hk => ?_) (Nat.le_of_eq hkeys.symm)
  · obtain ⟨i', hi', hput', hkey, -⟩ := hresults i true hi
    exact Or.inl ⟨i', hi', hput'.trans hput, hkey⟩
  · obtain ⟨i', hi', hput', hkey, -⟩ := hresults i false hi
    exact Or.inl ⟨i', hi', hput'.trans hput, hkey⟩
  · rw [hsizes, hgone]
    exact hk
  · rw [hsizes] at hk
    exact Or.inl hk
  · rw [hawaited] at hk
    exact Or.inl hk

theorem Settled.remove (hset : s.Settled) (key : Nat) : (s.remove key).Settled := by
  refine ⟨fun i hi hput => ?_, fun i hi hput => ?_⟩
  · simp only [Store.remove, Finset.mem_erase, Finset.mem_insert]
    rcases hset.good i hi hput with hk | hk
    · by_cases heq : i.key = key
      · simp [heq]
      · exact Or.inl ⟨heq, hk⟩
    · exact Or.inr (Or.inr hk)
  · obtain ⟨hle, hsizes, haw⟩ := hset.bad i hi hput
    exact ⟨hle, fun hm => hsizes (Finset.mem_of_mem_erase hm), haw⟩

theorem Moved.settled (h : Moved s t) (hs : s.Shape) (hk : s.Kept) (hset : s.Settled) :
    t.Settled := by
  cases h with
  | called put claim key chunks hstop hput =>
    rw [hput]
    refine hset.of_same (fun i ok hi _ => hi) (Eq.refl _) (Eq.refl _) (Eq.refl _) fun k hk => ?_
    simpa [awaited, writingKey, Store.call, keysOf_append, keysOf_cons] using hk
  | put chunks =>
    refine hset.step (fun i hi hput => Or.inl ⟨i, hi, hput, Eq.refl _⟩)
      (fun i hi hput => Or.inl ⟨i, hi, hput, Eq.refl _⟩) (fun k hk => hk) (fun k hk => Or.inl hk)
      (fun k hk => ?_) (Nat.le_succ _)
    simp only [awaited, writingKey, Store.call, keysOf_append, keysOf_cons, List.mem_append] at hk ⊢
    simp only [if_true, keysOf_nil, List.mem_singleton, List.not_mem_nil, or_false] at hk
    rcases hk with hk | hk | hk
    · exact Or.inl (Or.inl hk)
    · exact Or.inl (Or.inr hk)
    · exact Or.inr (by omega)
  | cancelled key => exact cancel_settled hset key
  | evicting key =>
    have hcancel := cancel_settled hset key
    exact ⟨hcancel.good, hcancel.bad⟩
  | erased key =>
    unfold erase
    split
    next =>
      have hgone := hset.remove key
      exact ⟨hgone.good, hgone.bad⟩
    next => exact ⟨hset.good, hset.bad⟩
  | dropped key => exact hset.remove key
  | stopped =>
    refine hset.of_same (fun i ok hi _ => hi) (Eq.refl _) (Eq.refl _) (Eq.refl _) fun k hk => ?_
    have hkeys := keysOf_congr (map_cancel s.jobs)
    simpa [awaited, writingKey, hkeys] using hk
  | took t hidle htake =>
    unfold Shape at hs
    rw [hidle] at hs
    obtain ⟨hrun, hread⟩ := hs
    unfold take at htake
    cases hnext : takeRead s.jobs with
    | some x =>
      obtain ⟨r, rest⟩ := x
      rw [hnext] at htake
      obtain rfl := Option.some.inj htake
      refine hset.of_same (fun i ok hi _ => ?_) (Eq.refl _) (Eq.refl _) (Eq.refl _) fun k hk => ?_
      · simpa [results, hidle, hread] using hi
      · simpa [awaited, writingKey, hidle, keysOf_takeRead hnext] using hk
    | none =>
      rw [hnext] at htake
      have hputs := takeRead_none hnext
      cases hjobs : s.jobs with
      | nil =>
        rw [hjobs] at htake
        dsimp only at htake
        split at htake
        next =>
          obtain rfl := Option.some.inj htake
          refine hset.of_same (fun i ok hi _ => ?_) (Eq.refl _) (Eq.refl _) (Eq.refl _)
            fun k hk => ?_
          · simpa [results, hidle, hread] using hi
          · simp [awaited, writingKey] at hk
        next => cases htake
      | cons j rest =>
        rw [hjobs] at htake hputs
        obtain rfl := Option.some.inj htake
        have hput := hputs j List.mem_cons_self
        refine hset.of_same (fun i ok hi _ => ?_) (Eq.refl _) (Eq.refl _) (Eq.refl _) fun k hk => ?_
        · simpa [results, hidle, hread] using hi
        · simpa [awaited, writingKey, hidle, hjobs, keysOf_cons, hput] using hk
  | wrote w j t hl hread hrun hw => exact hw.settled hset hk hl hread hrun
  | went r phase t hread hw => exact hw.settled hset hs hread
  | cleared ok j hl hrun =>
    unfold Shape at hs
    rw [hl] at hs
    refine hset.of_same (fun i ok hi _ => ?_) (Eq.refl _) (Eq.refl _) (Eq.refl _) fun k hk => ?_
    · simpa [results, hl, hrun, hs.2] using hi
    · simpa [awaited, writingKey, hl] using hk
  | answered j ok hl =>
    refine hset.of_same (fun i ok hi _ => ?_) (Eq.refl _) (Eq.refl _) (Eq.refl _) fun k hk => ?_
    · simpa [results, hl] using hi
    · simpa [awaited, writingKey, hl] using hk

end Store

end DiskJobs

end Llmx
