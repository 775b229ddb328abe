import Llmx.DiskEvicts
import Mathlib.Algebra.Order.Ring.Int

/-!
The store stopped: its thread ends after as many steps as it has work, with every call answered.
-/

namespace Llmx

open Runs

namespace DiskJobs

/-- The moves that are the I/O thread's. -/
def Move.ofThread : Move → Bool
  | .take => true
  | .write _ => true
  | .read _ _ => true
  | .clear => true
  | .answer => true
  | _ => false

namespace Store

/-- The steps a job may yet take. -/
def jobWork (j : Job) : Nat := if j.put then 2 * j.chunks + 8 else 10

def writeWork (j : Job) : Writing → Nat
  | .opening => 2 * j.chunks + 6
  | .chunks left => 2 * left + 5
  | .serving left => 2 * left + 6
  | .moving => 4
  | .placed => 3

def readWork : Reading → Nat
  | .looking => 8
  | .opening => 7
  | .opened => 6
  | .rewriting => 5
  | .renewing => 4
  | .spoiled => 4
  | .finished _ => 3

/-- The steps the thread may yet take. -/
def work (s : Store) : Nat :=
  (s.jobs.map jobWork).sum +
    (match s.loop with
      | .writing w => (s.running.map fun j => writeWork j w).getD 0
      | .reading => 0
      | .ended _ => 2
      | .answering _ _ => 1
      | .idle => 0
      | .exited => 0) +
    (match s.read with
      | some (_, phase) => readWork phase
      | none => 0) +
    if s.loop = .exited then 0 else 1

variable {s t : Store} {j r : Job}

theorem work_takeRead {jobs rest : List Job} (h : takeRead jobs = some (r, rest)) :
    (jobs.map jobWork).sum = (rest.map jobWork).sum + 10 := by
  obtain ⟨hread, before, after, hjobs, hrest, -⟩ := takeRead_some h
  rw [hjobs, hrest]
  simp [jobWork, hread]
  omega

theorem take_work (hs : s.Shape) (hidle : s.loop = .idle) (h : s.take = some t) :
    t.work < s.work := by
  unfold Shape at hs
  rw [hidle] at hs
  obtain ⟨hrun, hread⟩ := hs
  unfold take at h
  cases htake : takeRead s.jobs with
  | some x =>
    obtain ⟨r, rest⟩ := x
    rw [htake] at h
    obtain rfl := Option.some.inj h
    have hsum := work_takeRead htake
    simp [work, hidle, hread, hsum, readWork]
  | none =>
    rw [htake] at h
    have hputs := takeRead_none htake
    cases hjobs : s.jobs with
    | nil =>
      rw [hjobs] at h
      dsimp only at h
      split at h
      next =>
        obtain rfl := Option.some.inj h
        simp [work, hidle, hread, hjobs]
      next => cases h
    | cons j rest =>
      rw [hjobs] at h hputs
      obtain rfl := Option.some.inj h
      have hput := hputs j List.mem_cons_self
      simp [work, hidle, hread, hjobs, jobWork, writeWork, hput]
      omega

theorem Wrote.work {w : Writing} (h : Wrote s j w t) (hl : s.loop = .writing w)
    (hread : s.read = none) (hj : s.running = some j) : t.work < s.work := by
  cases h with
  | served left r rest htake =>
    have hsum := work_takeRead htake
    simp [Store.work, hl, hread, hj, writeWork, readWork, hsum]
    omega
  | failed w =>
    have hw : 3 ≤ writeWork j w := by cases w <;> simp [writeWork]
    simp [Store.work, Store.failed, hl, hread, hj]
    omega
  | _ =>
    simp [Store.work, hl, hread, hj, writeWork]
    try omega

theorem Went.work {phase : Reading} (h : Went s r phase t) (hs : s.Shape)
    (hread : s.read = some (r, phase)) : t.work < s.work := by
  obtain ⟨-, hplace⟩ := hs.of_read hread
  cases h with
  | ended ok hl =>
    simp [Store.work, hl, hread, readWork]
  | answered ok => simp [Store.work, hread, readWork]
  | broken phase hphase =>
    rcases hphase with rfl | rfl | rfl <;> simp [Store.work, hread, readWork]
  | good phase hphase =>
    rcases hphase with rfl | rfl <;> simp [Store.work, hread, readWork]
  | _ => simp [Store.work, Store.remove, hread, readWork]

/-- Once the thread is told to end, only it moves, and it ends with nothing queued. -/
structure Closing (s : Store) : Prop where
  exited : s.loop = .exited → s.jobs = [] ∧ s.stopping = true
  evicts : s.stopping = true → s.evicting = []

theorem take_closing (hc : s.Closing) (h : s.take = some t) :
    t.Closing ∧ t.stopping = s.stopping := by
  unfold take at h
  cases htake : takeRead s.jobs with
  | some x =>
    obtain ⟨r, rest⟩ := x
    rw [htake] at h
    obtain rfl := Option.some.inj h
    exact ⟨⟨by simp, hc.evicts⟩, Eq.refl _⟩
  | none =>
    rw [htake] at h
    cases hjobs : s.jobs with
    | nil =>
      rw [hjobs] at h
      dsimp only at h
      split at h
      next hstop =>
        obtain rfl := Option.some.inj h
        exact ⟨⟨fun _ => ⟨by simp, hstop⟩, hc.evicts⟩, Eq.refl _⟩
      next => cases h
    | cons j rest =>
      rw [hjobs] at h
      obtain rfl := Option.some.inj h
      exact ⟨⟨by simp, hc.evicts⟩, Eq.refl _⟩

theorem cancel_closing (hc : s.Closing) (key : Nat) : (s.cancel key).Closing := by
  rcases cancel_cases s key with ⟨hany, h⟩ | ⟨j, -, -, -, h⟩ | ⟨-, -, h⟩
  · rw [h]
    refine ⟨fun hl => ?_, hc.evicts⟩
    rw [(hc.exited hl).1] at hany
    simp at hany
  · rw [h]
    exact ⟨hc.exited, hc.evicts⟩
  · rw [h]
    exact hc

theorem cancel_stopping (s : Store) (key : Nat) : (s.cancel key).stopping = s.stopping := by
  rcases cancel_cases s key with ⟨-, h⟩ | ⟨j, -, -, -, h⟩ | ⟨-, -, h⟩
  · rw [h]
  · rw [h]
  · rw [h]

theorem Moved.closing (h : Moved s t) (hc : s.Closing) : t.Closing := by
  have hopen : s.stopping = false → s.loop ≠ .exited := by
    intro hstop hl
    rw [(hc.exited hl).2] at hstop
    cases hstop
  cases h with
  | called put claim key chunks hstop => exact ⟨fun hl => absurd hl (hopen hstop), hc.evicts⟩
  | put chunks hstop => exact ⟨fun hl => absurd hl (hopen hstop), hc.evicts⟩
  | cancelled key => exact cancel_closing hc key
  | evicting key hstop =>
    refine ⟨(cancel_closing hc key).exited, fun hstopping => ?_⟩
    have hstopping : (s.cancel key).stopping = true := hstopping
    rw [cancel_stopping, hstop] at hstopping
    cases hstopping
  | erased key hkey =>
    have hopen : s.stopping ≠ true := by
      intro hstop
      rw [hc.evicts hstop] at hkey
      cases hkey
    unfold erase
    split
    next => exact ⟨hc.exited, fun hstop => absurd hstop hopen⟩
    next => exact ⟨hc.exited, fun hstop => absurd hstop hopen⟩
  | dropped key => exact ⟨hc.exited, hc.evicts⟩
  | stopped hevicting =>
    refine ⟨fun hl => ⟨?_, Eq.refl _⟩, fun _ => hevicting⟩
    simp [(hc.exited hl).1]
  | took t hidle htake => exact (take_closing hc htake).1
  | wrote w j t hl hread hrun hw =>
    cases hw with
    | served => exact ⟨fun hexited => by simp [hl] at hexited, hc.evicts⟩
    | failed => exact ⟨by simp [Store.failed], hc.evicts⟩
    | _ => exact ⟨by simp, hc.evicts⟩
  | went r phase t hread hw =>
    cases hw with
    | ended => exact ⟨by simp, hc.evicts⟩
    | _ => exact ⟨hc.exited, hc.evicts⟩
  | cleared ok j hl hrun => exact ⟨by simp, hc.evicts⟩
  | answered j ok hl => exact ⟨by simp, hc.evicts⟩

/-- A step of the thread leaves it less to do. -/
theorem thread_work {e : Move} (hthread : e.ofThread = true) (hs : s.Shape)
    (h : s.step e = some t) : t.work < s.work := by
  cases e with
  | take =>
    simp only [step] at h
    split at h
    next hidle => exact take_work hs hidle h
    next => cases h
  | write ok =>
    simp only [step] at h
    split at h
    next w j hl hread hj =>
      obtain rfl := Option.some.inj h
      exact (wrote s j ok w).work hl hread hj
    next => cases h
  | read ok how =>
    simp only [step] at h
    split at h
    next r phase hread =>
      obtain rfl := Option.some.inj h
      exact (went s r ok how phase).work hs hread
    next => cases h
  | clear =>
    simp only [step] at h
    split at h
    next ok j hl hj =>
      obtain rfl := Option.some.inj h
      simp [work, hl]
    next => cases h
  | answer =>
    simp only [step] at h
    split at h
    next j ok hl =>
      obtain rfl := Option.some.inj h
      simp [work, hl]
    next => cases h
  | _ => cases hthread

theorem Moved.stopping (h : Moved s t) (hc : s.Closing) (hstop : s.stopping = true) :
    t.stopping = true := by
  cases h with
  | cancelled key => rw [cancel_stopping, hstop]
  | evicting key hopen =>
    rw [hstop] at hopen
    cases hopen
  | erased key =>
    unfold erase
    split
    next => exact hstop
    next => exact hstop
  | stopped => exact Eq.refl _
  | took t hidle htake => rw [(take_closing hc htake).2, hstop]
  | wrote w j t hl hread hrun hw => cases hw <;> exact hstop
  | went r phase t hread hw => cases hw <;> exact hstop
  | _ => exact hstop

/-- Stopped, the store moves no way but its thread's. -/
theorem ofThread_of_stopping {e : Move} (hc : s.Closing) (hstop : s.stopping = true)
    (h : s.step e = some t) : e.ofThread = true := by
  cases e with
  | take => exact Eq.refl _
  | write ok => exact Eq.refl _
  | read ok how => exact Eq.refl _
  | clear => exact Eq.refl _
  | answer => exact Eq.refl _
  | erase key => simp [step, hc.evicts hstop] at h
  | _ => simp [step, hstop] at h

/-- The thread goes on until it exits. -/
theorem exited_of_stuck (hs : s.Shape) (hstop : s.stopping = true)
    (hstuck : ∀ e, s.step e = none) : s.loop = .exited := by
  cases hl : s.loop with
  | exited => exact Eq.refl _
  | idle =>
    have htake := hstuck .take
    simp only [step, hl, if_true, take] at htake
    split at htake
    next => cases htake
    next =>
      split at htake
      next => cases htake
      next =>
        rw [if_pos hstop] at htake
        cases htake
  | writing w =>
    unfold Shape at hs
    rw [hl] at hs
    obtain ⟨⟨j, hj, -⟩, -⟩ := hs
    cases hread : s.read with
    | none =>
      have hwrite := hstuck (.write true)
      simp [step, hl, hread, hj] at hwrite
    | some x =>
      have hon := hstuck (.read true .written)
      simp [step, hread] at hon
  | reading =>
    unfold Shape at hs
    rw [hl] at hs
    obtain ⟨r, phase, -, hread, -⟩ := hs
    have hon := hstuck (.read true .written)
    simp [step, hread] at hon
  | ended ok =>
    unfold Shape at hs
    rw [hl] at hs
    obtain ⟨⟨j, hj⟩, -⟩ := hs
    have hclear := hstuck .clear
    simp [step, hl, hj] at hclear
  | answering j ok =>
    have hanswer := hstuck .answer
    simp [step, hl] at hanswer

end Store

theorem closing {s : Store} (h : Reach machine s) : s.Closing := by
  refine h.invariant Store.Closing (fun s hs => ?_) fun s e t hs he => (Store.moved he).closing hs
  obtain ⟨-, -, hloop, -, hstop, -⟩ := hs
  exact ⟨by simp [hloop], by simp [hstop]⟩

theorem stopped_run {s t : Store} (h : Reach machine s) (hstop : s.stopping = true)
    (es : List Move) (he : play machine s es = some t) :
    Reach machine t ∧ t.stopping = true ∧ es.length + t.work ≤ s.work := by
  induction es generalizing s with
  | nil =>
    obtain rfl := Option.some.inj he
    exact ⟨h, hstop, by simp⟩
  | cons e es ih =>
    obtain ⟨mid, hmid, hrest⟩ := Option.bind_eq_some_iff.mp he
    have hclosing := closing h
    have hthread := Store.ofThread_of_stopping hclosing hstop hmid
    have hless := Store.thread_work hthread (lined h).shape hmid
    have hstopping := (Store.moved hmid).stopping hclosing hstop
    obtain ⟨hreach, hkept, hlength⟩ := ih (h.next hmid) hstopping hrest
    exact ⟨hreach, hkept, by rw [List.length_cons]; omega⟩

/-- Once the store is told to stop it takes at most the steps its work counts, and where it can take
none the thread has ended, every call was answered once, and the files left are those recorded. -/
theorem stopped_answers_all {s t : Store} (h : Reach machine s) (hstop : s.stopping = true)
    (es : List Move) (he : play machine s es = some t) :
    es.length ≤ s.work ∧ ((∀ e, t.step e = none) → t.loop = .exited ∧ t.jobs = [] ∧
      (t.answers.map fun x => x.1.number).Perm (List.range t.calls) ∧
        t.kv = t.sizes ∧ t.tmp = ∅) := by
  obtain ⟨hreach, hstopping, hlength⟩ := stopped_run h hstop es he
  refine ⟨by omega, fun hstuck => ?_⟩
  have hlined := lined hreach
  have hshape := hlined.shape
  have hl := Store.exited_of_stuck hshape hstopping hstuck
  have hjobs := ((closing hreach).exited hl).1
  unfold Store.Shape at hshape
  rw [hl] at hshape
  obtain ⟨hrun, hread⟩ := hshape
  have hfiles := (kept hreach).files hrun
  have hperm := hlined.perm
  simp only [Store.hand, hl, hrun, hread, hjobs, Option.toList_none, Option.map_none,
    List.append_nil, List.map_map] at hperm
  exact ⟨hl, hjobs, hperm, hfiles⟩

theorem stopped_answers_queued : ∃ s t, Reach machine s ∧ s.stopping = true ∧
    play machine s [.take, .write true, .write true, .clear, .answer, .take] = some t ∧
    t.loop = .exited ∧ (t.answers.map fun x => x.1.number).Perm (List.range t.calls) := by
  obtain ⟨s, hs, hstop, t, ht, hstuck⟩ : ∃ s, play machine adopting [.put 1, .stop] = some s ∧
      s.stopping = true ∧ ∃ t, play machine s [.take, .write true, .write true, .clear, .answer,
        .take] = some t ∧ ∀ e, t.step e = none := by
    refine ⟨_, Eq.refl _, Eq.refl _, _, Eq.refl _, fun e => ?_⟩
    cases e <;> exact Eq.refl _
  have hreach := reach_of_play _ adopting_starts hs
  obtain ⟨hl, -, hperm, -⟩ := (stopped_answers_all hreach hstop _ ht).2 hstuck
  exact ⟨s, t, hreach, hstop, ht, hl, hperm⟩

end DiskJobs

end Llmx
