import Llmx.DiskJobs

/-!
The calls of the store in their line: each is answered, in hand or queued, and the answers come in
the order of the calls, the reads apart from the writes.
-/

namespace Llmx

open Runs

namespace DiskJobs

namespace Store

/-- What the thread has in hand is what its place asks for. -/
def Shape (s : Store) : Prop :=
  match s.loop with
  | .writing w => (∃ j, s.running = some j ∧ j.put = true) ∧
      ∀ r phase, s.read = some (r, phase) → r.put = false ∧ ∃ left, w = .serving left
  | .reading => ∃ r phase, s.running = some r ∧ s.read = some (r, phase) ∧ r.put = false
  | .ended _ => (∃ j, s.running = some j) ∧ s.read = none
  | _ => s.running = none ∧ s.read = none

/-- The jobs taken and not answered. -/
def hand (s : Store) : List Job :=
  match s.loop with
  | .answering j _ => [j]
  | .reading => s.running.toList
  | _ => s.running.toList ++ (s.read.map Prod.fst).toList

/-- The numbers of the writes, or of the other calls: those answered, in hand and queued. -/
def line (s : Store) (put : Bool) : List Nat :=
  numbers put (s.answers.map Prod.fst) ++ numbers put s.hand ++ numbers put s.jobs

/-- The thread goes on with the calls it has. -/
structure Same (s t : Store) : Prop where
  shape : t.Shape
  line : ∀ put, t.line put = s.line put
  calls : t.calls = s.calls

variable {s t : Store} {j r : Job}

theorem take_same (hs : s.Shape) (hidle : s.loop = .idle) (h : s.take = some t) : Same s t := by
  unfold Shape at hs
  rw [hidle] at hs
  obtain ⟨hrun, hread⟩ := hs
  unfold take at h
  cases htake : takeRead s.jobs with
  | some x =>
    obtain ⟨r, rest⟩ := x
    rw [htake] at h
    obtain rfl := Option.some.inj h
    refine ⟨⟨r, .looking, by simp, by simp, (takeRead_some htake).1⟩, fun put => ?_, by simp⟩
    have hnumbers := numbers_takeRead htake put
    simp [line, hand, hidle, hrun, hread, hnumbers, numbers_cons]
  | none =>
    rw [htake] at h
    have hputs := takeRead_none htake
    cases hjobs : s.jobs with
    | nil =>
      rw [hjobs] at h
      dsimp only at h
      split at h
      next =>
        obtain rfl := Option.some.inj h
        refine ⟨by simp [Shape, hrun, hread], fun put => ?_, by simp⟩
        simp [line, hand, hidle, hrun, hread, hjobs]
      next => cases h
    | cons j rest =>
      rw [hjobs] at h hputs
      obtain rfl := Option.some.inj h
      refine ⟨?_, fun put => ?_, by simp⟩
      · simpa [Shape, hread] using hputs j List.mem_cons_self
      · simp [line, hand, hidle, hrun, hread, hjobs, numbers_cons]

theorem Wrote.same {w : Writing} (h : Wrote s j w t) (hloop : s.loop = .writing w)
    (hread : s.read = none) (hrun : s.running = some j) (hput : j.put = true) : Same s t := by
  cases h with
  | served left r rest htake =>
    have hget := (takeRead_some htake).1
    refine ⟨by simp [Shape, hloop, hrun, hput, hget], fun put => ?_, by simp⟩
    have hnumbers := numbers_takeRead htake put
    simp [line, hand, hloop, hrun, hread, hnumbers, numbers_cons]
  | failed => exact ⟨by simp [Store.failed, Shape, hrun, hread],
      by simp [Store.failed, line, hand, hloop], by simp [Store.failed]⟩
  | _ => exact ⟨by simp [Shape, hrun, hread, hput], by simp [line, hand, hloop], by simp⟩

theorem Shape.put_of_writing {w : Writing} (hs : s.Shape) (hl : s.loop = .writing w)
    (hj : s.running = some j) : j.put = true := by
  unfold Shape at hs
  rw [hl] at hs
  obtain ⟨⟨i, hi, hput⟩, -⟩ := hs
  rw [hj] at hi
  simp only [Option.some.injEq] at hi
  rw [hi]
  exact hput

/-- Where a read is in hand. -/
theorem Shape.of_read {phase : Reading} (hs : s.Shape) (hread : s.read = some (r, phase)) :
    r.put = false ∧ ((s.loop = .reading ∧ s.running = some r) ∨
      ∃ left j, s.loop = .writing (.serving left) ∧ s.running = some j ∧ j.put = true) := by
  unfold Shape at hs
  split at hs
  next w hl =>
    obtain ⟨⟨j, hj, hput⟩, hr⟩ := hs
    obtain ⟨hget, left, hw⟩ := hr r phase hread
    exact ⟨hget, Or.inr ⟨left, j, by rw [hl, hw], hj, hput⟩⟩
  next hl =>
    obtain ⟨r', p', hr, hp, hput⟩ := hs
    rw [hread] at hp
    simp only [Option.some.injEq, Prod.mk.injEq] at hp
    rw [hp.1]
    exact ⟨hput, Or.inl ⟨hl, hr⟩⟩
  next =>
    rw [hread] at hs
    cases hs.2
  next =>
    rw [hread] at hs
    cases hs.2

theorem Went.same {phase : Reading} (h : Went s r phase t) (hs : s.Shape)
    (hread : s.read = some (r, phase)) : Same s t := by
  obtain ⟨hget, hplace⟩ := hs.of_read hread
  rcases hplace with ⟨hl, hr⟩ | ⟨left, j, hl, hj, hput⟩
  · cases h with
    | ended => exact ⟨by simp [Shape, hr], by simp [line, hand, hl], by simp⟩
    | answered ok hne => exact absurd hl hne
    | _ => exact ⟨by simp [Shape, hl, hr, hget, remove], by simp [line, hand, hl, remove],
        by simp [remove]⟩
  · cases h with
    | ended ok hloop => simp [hl] at hloop
    | answered ok =>
      refine ⟨by simp [Shape, hl, hj, hput], fun put => ?_, by simp⟩
      cases put
      · simp [line, hand, hl, hj, hread, numbers_cons, numbers_append, hput, hget]
      · simp [line, hand, hl, hj, hread, numbers_cons, numbers_append, hput, hget]
    | _ => exact ⟨by simp [Shape, hl, hj, hput, hget, remove],
        by simp [line, hand, hl, hj, hread, remove], by simp [remove]⟩

theorem same_of_jobs {jobs : List Job} (hs : s.Shape)
    (h : jobs.map Job.call = s.jobs.map Job.call) : Same s { s with jobs := jobs } := by
  refine ⟨hs, fun put => ?_, by simp⟩
  have hnumbers := numbers_congr put h
  simp [line, hand, hnumbers]

theorem cancel_same (hs : s.Shape) (key : Nat) : Same s (s.cancel key) := by
  rcases cancel_cases s key with ⟨-, h⟩ | ⟨j, hj, hw, -, h⟩ | ⟨-, -, h⟩
  · rw [h]
    exact same_of_jobs hs (map_cancelFirst key s.jobs)
  · rw [h]
    have hput : j.put = true := by
      simp only [Job.writes, Bool.and_eq_true] at hw
      exact hw.1
    unfold Shape at hs
    split at hs
    next w hl =>
      refine ⟨?_, fun put => ?_, by simp⟩
      · simpa [Shape, hl, Job.cancel, hput] using hs.2
      · simp [line, hand, hl, hj, numbers_cons, Job.cancel]
    next hl =>
      obtain ⟨r, phase, hr, -, hget⟩ := hs
      rw [hj] at hr
      simp only [Option.some.injEq] at hr
      rw [hr, hget] at hput
      cases hput
    next ok hl =>
      refine ⟨?_, fun put => ?_, by simp⟩
      · simpa [Shape, hl] using hs.2
      · simp [line, hand, hl, hj, hs.2, numbers_cons, Job.cancel]
    next =>
      rw [hj] at hs
      cases hs.1
  · rw [h]
    exact ⟨hs, fun put => Eq.refl _, Eq.refl _⟩

/-- The calls that come go to the end of their line, the next number first. -/
structure Lined (s : Store) : Prop where
  shape : s.Shape
  ordered : ∀ put, (s.line put).Pairwise (· < ·)
  all : ∀ n, n < s.calls ↔ ∃ put, n ∈ s.line put
  apart : ∀ n ∈ s.line true, n ∉ s.line false

theorem Lined.of_same (hs : s.Lined) (h : Same s t) : t.Lined := by
  obtain ⟨hshape, hline, hcalls⟩ := h
  refine ⟨hshape, fun put => ?_, fun n => ?_, fun n => ?_⟩
  · rw [hline]
    exact hs.ordered put
  · simp only [hline, hcalls]
    exact hs.all n
  · rw [hline, hline]
    exact hs.apart n

theorem line_call (put claim : Bool) (key chunks : Nat) (b : Bool) :
    (s.call put claim key chunks).line b = s.line b ++ if put = b then [s.calls] else [] := by
  simp [line, hand, call, numbers_append, numbers_cons]

theorem Lined.call (hs : s.Lined) (put claim : Bool) (key chunks : Nat) :
    (s.call put claim key chunks).Lined := by
  refine ⟨hs.shape, fun b => ?_, fun n => ?_, fun n htrue hfalse => ?_⟩
  · rw [line_call]
    by_cases hb : put = b
    · rw [if_pos hb]
      refine List.pairwise_append.mpr ⟨hs.ordered b, by simp, fun x hx y hy => ?_⟩
      obtain rfl := List.mem_singleton.mp hy
      exact (hs.all x).mpr ⟨b, hx⟩
    · simpa [if_neg hb] using hs.ordered b
  · have hcalls : (s.call put claim key chunks).calls = s.calls + 1 := by simp [Store.call]
    simp only [line_call, hcalls, List.mem_append]
    constructor
    · intro hn
      by_cases hlast : n = s.calls
      · exact ⟨put, Or.inr (by simp [hlast])⟩
      · obtain ⟨b, hb⟩ := (hs.all n).mp (by omega)
        exact ⟨b, Or.inl hb⟩
    · rintro ⟨b, hb | hb⟩
      · have := (hs.all n).mpr ⟨b, hb⟩
        omega
      · split at hb
        next =>
          obtain rfl := List.mem_singleton.mp hb
          omega
        next => cases hb
  · rw [line_call, List.mem_append] at htrue hfalse
    have hold : ∀ b, n ∈ s.line b → n ≠ s.calls := by
      intro b hb
      have := (hs.all n).mpr ⟨b, hb⟩
      omega
    rcases htrue with htrue | htrue
    · rcases hfalse with hfalse | hfalse
      · exact hs.apart n htrue hfalse
      · split at hfalse
        next => exact hold true htrue (List.mem_singleton.mp hfalse)
        next => cases hfalse
    · split at htrue
      next hput =>
        rcases hfalse with hfalse | hfalse
        · exact hold false hfalse (List.mem_singleton.mp htrue)
        · simp [hput] at hfalse
      next => cases htrue

theorem Moved.lined (h : Moved s t) (hs : s.Lined) : t.Lined := by
  have hshape := hs.shape
  cases h with
  | called put claim key chunks => exact hs.call put claim key chunks
  | put chunks =>
    have hkeys : Lined { s with keys := s.keys + 1 } := ⟨hs.shape, hs.ordered, hs.all, hs.apart⟩
    exact hkeys.call true false _ chunks
  | cancelled key => exact hs.of_same (cancel_same hshape key)
  | evicting key =>
    have hcancel := cancel_same hshape key
    exact hs.of_same ⟨hcancel.shape, hcancel.line, hcancel.calls⟩
  | erased key =>
    refine hs.of_same ?_
    unfold erase
    split
    next => exact ⟨hshape, fun put => Eq.refl _, Eq.refl _⟩
    next => exact ⟨hshape, fun put => Eq.refl _, Eq.refl _⟩
  | dropped key => exact hs.of_same ⟨hshape, fun put => Eq.refl _, Eq.refl _⟩
  | stopped =>
    have hjobs := same_of_jobs hshape (map_cancel s.jobs)
    exact hs.of_same ⟨hjobs.shape, hjobs.line, hjobs.calls⟩
  | took t hidle htake => exact hs.of_same (take_same hshape hidle htake)
  | wrote w j t hl hread hrun hw =>
    exact hs.of_same (hw.same hl hread hrun (hshape.put_of_writing hl hrun))
  | went r phase t hread hw => exact hs.of_same (hw.same hshape hread)
  | cleared ok j hl hrun =>
    unfold Shape at hshape
    rw [hl] at hshape
    refine hs.of_same ⟨by simp [Shape, hshape.2], fun put => ?_, by simp⟩
    simp [line, hand, hl, hrun, hshape.2]
  | answered j ok hl =>
    unfold Shape at hshape
    rw [hl] at hshape
    obtain ⟨hrun, hread⟩ := hshape
    refine hs.of_same ⟨by simp [Shape, hrun, hread], fun put => ?_, by simp⟩
    simp [line, hand, hl, hrun, hread, numbers_append]

/-- The calls are the numbers given, each in one place. -/
theorem Lined.perm (hs : s.Lined) :
    ((s.answers.map Prod.fst ++ s.hand ++ s.jobs).map Job.number).Perm (List.range s.calls) := by
  have hline : ∀ put, numbers put (s.answers.map Prod.fst ++ s.hand ++ s.jobs) = s.line put := by
    intro put
    rw [numbers_append, numbers_append, line]
  generalize s.answers.map Prod.fst ++ s.hand ++ s.jobs = all at hline
  have hsplit : (all.map Job.number).Perm (numbers true all ++ numbers false all) := by
    have hfilter := (List.filter_append_perm Job.put all).symm.map Job.number
    rw [List.map_append] at hfilter
    simpa [numbers] using hfilter
  rw [hline, hline] at hsplit
  refine hsplit.trans ((List.perm_ext_iff_of_nodup ?_ List.nodup_range).mpr fun n => ?_)
  · refine List.nodup_append.mpr ⟨(hs.ordered true).nodup, (hs.ordered false).nodup,
      fun x hx y hy heq => ?_⟩
    rw [heq] at hx
    exact hs.apart y hx hy
  · rw [List.mem_range, hs.all, List.mem_append]
    simp [or_comm]

end Store

theorem lined {s : Store} (h : Reach machine s) : s.Lined := by
  refine h.invariant Store.Lined (fun s hs => ?_) fun s e t hs he => (Store.moved he).lined hs
  obtain ⟨hjobs, hrun, hloop, hread, -, -, -, -, -, -, hcalls, hanswers, -⟩ := hs
  have hline : ∀ put, s.line put = [] := by
    intro put
    simp [Store.line, Store.hand, hjobs, hrun, hloop, hread, hanswers]
  refine ⟨by simp [Store.Shape, hloop, hrun, hread], fun put => ?_, fun n => ?_, fun n => ?_⟩
  · rw [hline]
    exact List.Pairwise.nil
  · simp [hline, hcalls]
  · simp [hline]

/-- Every call is in one place: answered, in hand or queued; none is answered twice, and the writes
are answered in the order they came in, and so are the reads and claims. -/
theorem answered_in_order {s : Store} (h : Reach machine s) :
    ((s.answers.map Prod.fst ++ s.hand ++ s.jobs).map Job.number).Perm (List.range s.calls) ∧
      ∀ put, (numbers put (s.answers.map Prod.fst)).Pairwise (· < ·) := by
  have hlined := lined h
  refine ⟨hlined.perm, fun put => ?_⟩
  have hordered := hlined.ordered put
  rw [Store.line, List.append_assoc] at hordered
  exact (List.pairwise_append.mp hordered).1

/-- A claim called between two writes is answered first, the write in hand after it. -/
theorem claim_answered_first : ∃ s, Reach machine s ∧
    s.answers.map (fun x => x.1.number) = [1, 0] ∧
    ((s.answers.map Prod.fst ++ s.hand ++ s.jobs).map Job.number).Perm (List.range 3) := by
  obtain ⟨s, hs, hcalls, hanswers⟩ : ∃ s, play machine adopting [.put 1, .take, .claim 1, .put 0,
      .write true, .write true, .write true, .read true .written, .read true .written,
      .read true .written, .read true .written, .read true .written, .read true .written,
      .write true, .write true, .write true, .write true, .clear, .answer] = some s ∧
      s.calls = 3 ∧ s.answers.map (fun x => x.1.number) = [1, 0] :=
    ⟨_, Eq.refl _, Eq.refl _, Eq.refl _⟩
  have hreach := reach_of_play _ adopting_starts hs
  have hplaces := (answered_in_order hreach).1
  rw [hcalls] at hplaces
  exact ⟨s, hreach, hanswers, hplaces⟩

end DiskJobs

end Llmx
