import Llmx.Runs
import Mathlib.Data.Finset.Basic
import Mathlib.Data.List.Perm.Basic
import Mathlib.Tactic.Common

/-!
The calls of the disk tier's store and the thread that serves them, which come between one another
wherever neither holds the lock.
-/

namespace Llmx

open Runs

namespace DiskJobs

/-- A call for the I/O thread, with the number it was called as. -/
structure Job where
  number : Nat
  put : Bool
  claim : Bool
  key : Nat
  chunks : Nat
  cancelled : Bool
deriving DecidableEq, Repr

/-- What a write does next: open its file, write a chunk or the header behind the last one, serve
the reads queued, rename the file, or record it. -/
inductive Writing
  | opening
  | chunks (left : Nat)
  | serving (left : Nat)
  | moving
  | placed
deriving DecidableEq, Repr

/-- What a read does next. -/
inductive Reading
  | looking
  | opening
  | opened
  | rewriting
  | renewing
  | spoiled
  | finished (ok : Bool)
deriving DecidableEq, Repr

/-- Where the thread's loop is. -/
inductive Loop
  | idle
  | writing (w : Writing)
  | reading
  | ended (ok : Bool)
  | answering (j : Job) (ok : Bool)
  | exited
deriving DecidableEq, Repr

/-- How rewriting a claimed header ended: on the disk, not on it with the header whole under the
one identity or the other, or whole under none. -/
inductive Rewritten
  | written
  | theirs
  | ours
  | neither
deriving DecidableEq, Repr

/-- The store, the entries' files in its directory, and what has been called and answered. -/
structure Store where
  jobs : List Job
  running : Option Job
  loop : Loop
  read : Option (Job × Reading)
  stopping : Bool
  keys : Nat
  sizes : Finset Nat
  foreign : Finset Nat
  kv : Finset Nat
  froms : Finset Nat
  tmp : Finset Nat
  calls : Nat
  answers : List (Job × Bool)
  evicting : List Nat
  evicted : List (Nat × Nat)
  gone : Finset Nat

inductive Move
  | put (chunks : Nat)
  | get (key : Nat)
  | claim (key : Nat)
  | cancel (key : Nat)
  | evict (key : Nat)
  | erase (key : Nat)
  | dropEntry (key : Nat)
  | stop
  | take
  | write (ok : Bool)
  | read (ok : Bool) (how : Rewritten)
  | clear
  | answer
deriving DecidableEq, Repr

def Job.cancel (j : Job) : Job := { j with cancelled := true }

def Job.writes (j : Job) (key : Nat) : Bool := j.put && j.key == key

/-- The first write of the key is cancelled. -/
def cancelFirst (key : Nat) : List Job → List Job
  | [] => []
  | j :: jobs => if j.writes key then j.cancel :: jobs else j :: cancelFirst key jobs

/-- The first job that is no write, and the others. -/
def takeRead : List Job → Option (Job × List Job)
  | [] => none
  | j :: jobs =>
    if j.put then (takeRead jobs).map fun t => (t.1, j :: t.2) else some (j, jobs)

namespace Store

def call (s : Store) (put claim : Bool) (key chunks : Nat) : Store :=
  { s with jobs := s.jobs ++ [⟨s.calls, put, claim, key, chunks, false⟩], calls := s.calls + 1 }

def cancel (s : Store) (key : Nat) : Store :=
  if s.jobs.any (Job.writes · key) then { s with jobs := cancelFirst key s.jobs }
  else { s with running := s.running.map fun j => if j.writes key then j.cancel else j }

/-- The entry's record and its files go. -/
def remove (s : Store) (key : Nat) : Store :=
  { s with
    sizes := s.sizes.erase key
    foreign := s.foreign.erase key
    kv := s.kv.erase key
    froms := s.froms.erase key
    gone := insert key s.gone }

/-- The evict's second look: an entry that is there goes. -/
def erase (s : Store) (key : Nat) : Store :=
  let s := if key ∈ s.sizes then s.remove key else s
  { s with evicting := s.evicting.erase key, evicted := (key, s.calls) :: s.evicted }

/-- A write of the key is queued or in hand. -/
def pending (s : Store) (key : Nat) : Bool :=
  s.jobs.any (Job.writes · key) || s.running.any (Job.writes · key)

/-- The loop takes a job, a read first, or ends. -/
def take (s : Store) : Option Store :=
  match takeRead s.jobs with
  | some (r, rest) =>
    some { s with jobs := rest, running := some r, loop := .reading, read := some (r, .looking) }
  | none =>
    match s.jobs with
    | j :: rest => some { s with jobs := rest, running := some j, loop := .writing .opening }
    | [] => if s.stopping then some { s with loop := .exited } else none

/-- A write that failed or was cancelled leaves no file. -/
def failed (s : Store) (j : Job) : Store :=
  { s with tmp := s.tmp.erase j.key, loop := .ended false }

/-- The next step of the write of `j`, which ends well where `ok`. -/
def write (s : Store) (j : Job) (ok : Bool) : Writing → Store
  | .opening =>
    if ok then { s with tmp := insert j.key s.tmp, loop := .writing (.chunks j.chunks) }
    else { s with loop := .ended false }
  | .chunks 0 =>
    if j.cancelled || !ok then s.failed j else { s with loop := .writing .moving }
  | .chunks (left + 1) =>
    if j.cancelled || !ok then s.failed j else { s with loop := .writing (.serving left) }
  | .serving left =>
    match takeRead s.jobs with
    | some (r, rest) => { s with jobs := rest, read := some (r, .looking) }
    | none => { s with loop := .writing (.chunks left) }
  | .moving =>
    if ok then
      { s with tmp := s.tmp.erase j.key, kv := insert j.key s.kv, loop := .writing .placed }
    else s.failed j
  | .placed =>
    if j.cancelled then { s with kv := s.kv.erase j.key, loop := .ended false }
    else { s with sizes := insert j.key s.sizes, loop := .ended true }

/-- The next step of the read `r`. -/
def readOn (s : Store) (r : Job) (ok : Bool) (how : Rewritten) : Reading → Store
  | .looking => { s with read := some (r, if r.key ∈ s.sizes then .opening else .finished false) }
  | .opening => { s with read := some (r, if ok && r.key ∈ s.kv then .opened else .spoiled) }
  | .opened =>
    if !ok then { s with read := some (r, .spoiled) }
    else if r.claim && r.key ∈ s.foreign then { s with read := some (r, .rewriting) }
    else { s with read := some (r, .finished true) }
  | .rewriting =>
    match how with
    | .written => { s with froms := s.froms.erase r.key, read := some (r, .renewing) }
    | .theirs => { s with read := some (r, .finished true) }
    | .ours => { s with read := some (r, .renewing) }
    | .neither => { s with read := some (r, .spoiled) }
  | .renewing => { s with foreign := s.foreign.erase r.key, read := some (r, .finished true) }
  | .spoiled => { s.remove r.key with read := some (r, .finished false) }
  | .finished ok =>
    if s.loop = .reading then { s with loop := .ended ok, read := none }
    else { s with answers := s.answers ++ [(r, ok)], read := none }

/-- What each move does, where it can be made: no call comes once the store is stopped, an evict is
of a key that was given, and an entry dropped is one whose write was answered. -/
def step (s : Store) : Move → Option Store
  | .put chunks =>
    if s.stopping then none
    else some ({ s with keys := s.keys + 1 }.call true false (s.keys + 1) chunks)
  | .get key => if s.stopping then none else some (s.call false false key 0)
  | .claim key => if s.stopping then none else some (s.call false true key 0)
  | .cancel key => if s.stopping then none else some (s.cancel key)
  | .evict key =>
    if s.stopping || s.keys < key then none
    else some { s.cancel key with evicting := key :: s.evicting }
  | .erase key => if key ∈ s.evicting then some (s.erase key) else none
  | .dropEntry key =>
    if s.stopping || s.keys < key || s.pending key then none else some (s.remove key)
  | .stop =>
    if s.stopping || s.evicting ≠ [] then none
    else some { s with stopping := true, jobs := s.jobs.map Job.cancel }
  | .take => if s.loop = .idle then s.take else none
  | .write ok =>
    match s.loop, s.read, s.running with
    | .writing w, none, some j => some (s.write j ok w)
    | _, _, _ => none
  | .read ok how =>
    match s.read with
    | some (r, phase) => some (s.readOn r ok how phase)
    | none => none
  | .clear =>
    match s.loop, s.running with
    | .ended ok, some j => some { s with running := none, loop := .answering j ok }
    | _, _ => none
  | .answer =>
    match s.loop with
    | .answering j ok => some { s with answers := s.answers ++ [(j, ok)], loop := .idle }
    | _ => none

end Store

/-- Every store at its start: the entries adopted, some of them another build's. -/
def machine : Machine Store Move where
  start s := s.jobs = [] ∧ s.running = none ∧ s.loop = .idle ∧ s.read = none ∧ s.stopping = false ∧
    (∀ k ∈ s.sizes, k ≤ s.keys) ∧ s.kv = s.sizes ∧ s.foreign ⊆ s.sizes ∧ s.froms ⊆ s.sizes ∧
    s.tmp = ∅ ∧ s.calls = 0 ∧ s.answers = [] ∧ s.evicting = [] ∧ s.evicted = [] ∧ s.gone = ∅
  step := Store.step

/-- A store that adopted one entry, another build's. -/
def adopting : Store :=
  ⟨[], none, .idle, none, false, 1, {1}, {1}, {1}, {1}, ∅, 0, [], [], [], ∅⟩

theorem adopting_starts : machine.start adopting := by
  simp [machine, adopting]

section Jobs

variable {jobs rest : List Job} {r : Job} {key : Nat}

theorem takeRead_some (h : takeRead jobs = some (r, rest)) :
    r.put = false ∧ ∃ before after, jobs = before ++ r :: after ∧ rest = before ++ after ∧
      ∀ j ∈ before, j.put = true := by
  induction jobs generalizing rest with
  | nil => simp [takeRead] at h
  | cons j jobs ih =>
    unfold takeRead at h
    by_cases hput : j.put = true
    · rw [if_pos hput] at h
      obtain ⟨⟨r', rest'⟩, htake, heq⟩ := Option.map_eq_some_iff.mp h
      simp only [Prod.mk.injEq] at heq
      obtain ⟨hr, hrest⟩ := heq
      rw [hr] at htake
      obtain ⟨hread, before, after, hjobs, hafter, hbefore⟩ := ih htake
      refine ⟨hread, j :: before, after, by simp [hjobs], by simp [← hrest, hafter], ?_⟩
      simpa [hput] using hbefore
    · rw [if_neg hput] at h
      simp only [Option.some.injEq, Prod.mk.injEq] at h
      obtain ⟨hj, hjobs⟩ := h
      subst hj
      exact ⟨by simpa using hput, [], jobs, by simp, by simp [hjobs], by simp⟩

theorem takeRead_none (h : takeRead jobs = none) : ∀ j ∈ jobs, j.put = true := by
  induction jobs with
  | nil => simp
  | cons j jobs ih =>
    unfold takeRead at h
    by_cases hput : j.put = true
    · rw [if_pos hput] at h
      simpa [hput] using ih (Option.map_eq_none_iff.mp h)
    · rw [if_neg hput] at h
      cases h

/-- What a cancel leaves of a job as it is. -/
def Job.call (j : Job) : Nat × Bool × Nat := (j.number, j.put, j.key)

theorem map_cancelFirst (key : Nat) (jobs : List Job) :
    (cancelFirst key jobs).map Job.call = jobs.map Job.call := by
  induction jobs with
  | nil => simp [cancelFirst]
  | cons j jobs ih =>
    unfold cancelFirst
    by_cases hw : j.writes key = true
    · simp [hw, Job.call, Job.cancel]
    · simp [hw, ih]

theorem map_cancel (jobs : List Job) : (jobs.map Job.cancel).map Job.call = jobs.map Job.call := by
  simp [Job.call, Job.cancel]

/-- The numbers of the writes, or of the others, in order. -/
def numbers (put : Bool) (jobs : List Job) : List Nat :=
  (jobs.filter (Job.put · == put)).map Job.number

@[simp] theorem numbers_nil (put : Bool) : numbers put [] = [] := by simp [numbers]

theorem numbers_append (put : Bool) (a b : List Job) :
    numbers put (a ++ b) = numbers put a ++ numbers put b := by
  simp [numbers]

theorem numbers_cons (put : Bool) (j : Job) (jobs : List Job) :
    numbers put (j :: jobs) = (if j.put = put then [j.number] else []) ++ numbers put jobs := by
  by_cases h : j.put = put
  · simp [numbers, h]
  · simp [numbers, h]

theorem numbers_congr {a b : List Job} (put : Bool) (h : a.map Job.call = b.map Job.call) :
    numbers put a = numbers put b := by
  induction a generalizing b with
  | nil =>
    have hb : b = [] := by simpa using h.symm
    rw [hb]
  | cons j a ih =>
    cases b with
    | nil => simp at h
    | cons i b =>
      simp only [List.map_cons, List.cons.injEq, Job.call, Prod.mk.injEq] at h
      obtain ⟨⟨hnumber, hput, -⟩, hrest⟩ := h
      rw [numbers_cons, numbers_cons, ih hrest, hnumber, hput]

theorem numbers_takeRead (h : takeRead jobs = some (r, rest)) (put : Bool) :
    numbers put jobs = numbers put (r :: rest) := by
  obtain ⟨hread, before, after, hjobs, hrest, hbefore⟩ := takeRead_some h
  subst hjobs
  subst hrest
  cases put
  · have hnone : numbers false before = [] := by
      simpa [numbers] using hbefore
    rw [numbers_append, numbers_cons, numbers_cons, numbers_append, hnone]
    simp
  · rw [numbers_append, numbers_cons, numbers_cons, numbers_append, hread]
    simp

end Jobs

namespace Store

variable {s t : Store} {j r : Job}

/-- What a step of the write of `j` leaves. -/
inductive Wrote (s : Store) (j : Job) : Writing → Store → Prop
  | refused : Wrote s j .opening { s with loop := .ended false }
  | opened : Wrote s j .opening
      { s with tmp := insert j.key s.tmp, loop := .writing (.chunks j.chunks) }
  | failed (w : Writing) : w ≠ .placed → Wrote s j w (s.failed j)
  | header : j.cancelled = false → Wrote s j (.chunks 0) { s with loop := .writing .moving }
  | chunk (left : Nat) : j.cancelled = false →
      Wrote s j (.chunks (left + 1)) { s with loop := .writing (.serving left) }
  | served (left : Nat) (r : Job) (rest : List Job) : takeRead s.jobs = some (r, rest) →
      Wrote s j (.serving left) { s with jobs := rest, read := some (r, .looking) }
  | on (left : Nat) : takeRead s.jobs = none →
      Wrote s j (.serving left) { s with loop := .writing (.chunks left) }
  | moved : Wrote s j .moving
      { s with tmp := s.tmp.erase j.key, kv := insert j.key s.kv, loop := .writing .placed }
  | taken : j.cancelled = true →
      Wrote s j .placed { s with kv := s.kv.erase j.key, loop := .ended false }
  | recorded : j.cancelled = false →
      Wrote s j .placed { s with sizes := insert j.key s.sizes, loop := .ended true }

theorem wrote (s : Store) (j : Job) (ok : Bool) (w : Writing) :
    Wrote s j w (s.write j ok w) := by
  cases w with
  | opening =>
    cases ok
    · exact .refused
    · exact .opened
  | chunks left =>
    cases left with
    | zero =>
      simp only [write]
      split
      next => exact .failed _ (by simp)
      next h => exact .header (by simp at h; exact h.1)
    | succ left =>
      simp only [write]
      split
      next => exact .failed _ (by simp)
      next h => exact .chunk left (by simp at h; exact h.1)
  | serving left =>
    simp only [write]
    cases htake : takeRead s.jobs with
    | none => exact .on left htake
    | some x => exact .served left x.1 x.2 htake
  | moving =>
    cases ok
    · exact .failed _ (by simp)
    · exact .moved
  | placed =>
    simp only [write]
    split
    next h => exact .taken h
    next h => exact .recorded (by simpa using h)

/-- What a step of the read `r` leaves. -/
inductive Went (s : Store) (r : Job) : Reading → Store → Prop
  | found : r.key ∈ s.sizes → Went s r .looking { s with read := some (r, .opening) }
  | missing : r.key ∉ s.sizes → Went s r .looking { s with read := some (r, .finished false) }
  | opened : r.key ∈ s.kv → Went s r .opening { s with read := some (r, .opened) }
  | broken (phase : Reading) : phase = .opening ∨ phase = .opened ∨ phase = .rewriting →
      Went s r phase { s with read := some (r, .spoiled) }
  | good (phase : Reading) : phase = .opened ∨ phase = .rewriting →
      Went s r phase { s with read := some (r, .finished true) }
  | proved : Went s r .opened { s with read := some (r, .rewriting) }
  | written : Went s r .rewriting
      { s with froms := s.froms.erase r.key, read := some (r, .renewing) }
  | ours : Went s r .rewriting { s with read := some (r, .renewing) }
  | renewed : Went s r .renewing
      { s with foreign := s.foreign.erase r.key, read := some (r, .finished true) }
  | removed : Went s r .spoiled { s.remove r.key with read := some (r, .finished false) }
  | ended (ok : Bool) : s.loop = .reading →
      Went s r (.finished ok) { s with loop := .ended ok, read := none }
  | answered (ok : Bool) : s.loop ≠ .reading →
      Went s r (.finished ok) { s with answers := s.answers ++ [(r, ok)], read := none }

theorem went (s : Store) (r : Job) (ok : Bool) (how : Rewritten) (phase : Reading) :
    Went s r phase (s.readOn r ok how phase) := by
  cases phase with
  | looking =>
    by_cases h : r.key ∈ s.sizes
    · simpa [readOn, h] using Went.found h
    · simpa [readOn, h] using Went.missing h
  | opening =>
    by_cases h : (ok && decide (r.key ∈ s.kv)) = true
    · simpa [readOn, h] using Went.opened (by simp at h; exact h.2)
    · simpa [readOn, h] using Went.broken .opening (by simp)
  | opened =>
    simp only [readOn]
    split
    next => exact .broken _ (by simp)
    next =>
      split
      next => exact .proved
      next => exact .good _ (Or.inl (Eq.refl _))
  | rewriting =>
    cases how with
    | written => exact .written
    | theirs => exact .good _ (Or.inr (Eq.refl _))
    | ours => exact .ours
    | neither => exact .broken _ (by simp)
  | renewing => exact .renewed
  | spoiled => exact .removed
  | finished ok =>
    simp only [readOn]
    split
    next h => exact .ended ok h
    next h => exact .answered ok h

/-- What can happen to a store in one move. -/
inductive Moved (s : Store) : Store → Prop
  | called (put claim : Bool) (key chunks : Nat) : s.stopping = false → put = false →
      Moved s (s.call put claim key chunks)
  | put (chunks : Nat) : s.stopping = false →
      Moved s ({ s with keys := s.keys + 1 }.call true false (s.keys + 1) chunks)
  | cancelled (key : Nat) : Moved s (s.cancel key)
  | evicting (key : Nat) : s.stopping = false → key ≤ s.keys →
      Moved s { s.cancel key with evicting := key :: s.evicting }
  | erased (key : Nat) : key ∈ s.evicting → Moved s (s.erase key)
  | dropped (key : Nat) : key ≤ s.keys → s.pending key = false → Moved s (s.remove key)
  | stopped : s.evicting = [] →
      Moved s { s with stopping := true, jobs := s.jobs.map Job.cancel }
  | took (t : Store) : s.loop = .idle → s.take = some t → Moved s t
  | wrote (w : Writing) (j : Job) (t : Store) : s.loop = .writing w → s.read = none →
      s.running = some j → Wrote s j w t → Moved s t
  | went (r : Job) (phase : Reading) (t : Store) : s.read = some (r, phase) →
      Went s r phase t → Moved s t
  | cleared (ok : Bool) (j : Job) : s.loop = .ended ok → s.running = some j →
      Moved s { s with running := none, loop := .answering j ok }
  | answered (j : Job) (ok : Bool) : s.loop = .answering j ok →
      Moved s { s with answers := s.answers ++ [(j, ok)], loop := .idle }

theorem moved {e : Move} (h : s.step e = some t) : Moved s t := by
  cases e with
  | put chunks =>
    simp only [step] at h
    split at h
    next => cases h
    next hstop =>
      obtain rfl := Option.some.inj h
      exact .put chunks (by simpa using hstop)
  | get key =>
    simp only [step] at h
    split at h
    next => cases h
    next hstop =>
      obtain rfl := Option.some.inj h
      exact .called false false key 0 (by simpa using hstop) (Eq.refl _)
  | claim key =>
    simp only [step] at h
    split at h
    next => cases h
    next hstop =>
      obtain rfl := Option.some.inj h
      exact .called false true key 0 (by simpa using hstop) (Eq.refl _)
  | cancel key =>
    simp only [step] at h
    split at h
    next => cases h
    next =>
      obtain rfl := Option.some.inj h
      exact .cancelled key
  | evict key =>
    simp only [step] at h
    split at h
    next => cases h
    next hok =>
      obtain rfl := Option.some.inj h
      simp only [Bool.or_eq_true, decide_eq_true_eq, not_or, Bool.not_eq_true] at hok
      exact .evicting key hok.1 (by omega)
  | erase key =>
    simp only [step] at h
    split at h
    next hmem =>
      obtain rfl := Option.some.inj h
      exact .erased key hmem
    next => cases h
  | dropEntry key =>
    simp only [step] at h
    split at h
    next => cases h
    next hok =>
      obtain rfl := Option.some.inj h
      simp only [Bool.or_eq_true, decide_eq_true_eq, not_or, Bool.not_eq_true] at hok
      exact .dropped key (by omega) hok.2
  | stop =>
    simp only [step] at h
    split at h
    next => cases h
    next hok =>
      obtain rfl := Option.some.inj h
      simp only [ne_eq, Bool.or_eq_true, decide_eq_true_eq, not_or, not_not] at hok
      exact .stopped hok.2
  | take =>
    simp only [step] at h
    split at h
    next hidle => exact .took t hidle h
    next => cases h
  | write ok =>
    simp only [step] at h
    split at h
    next w j hl hr hj =>
      obtain rfl := Option.some.inj h
      exact .wrote w j _ hl hr hj (wrote s j ok w)
    next => cases h
  | read ok how =>
    simp only [step] at h
    split at h
    next r phase hr =>
      obtain rfl := Option.some.inj h
      exact .went r phase _ hr (went s r ok how phase)
    next => cases h
  | clear =>
    simp only [step] at h
    split at h
    next ok j hl hj =>
      obtain rfl := Option.some.inj h
      exact .cleared ok j hl hj
    next => cases h
  | answer =>
    simp only [step] at h
    split at h
    next j ok hl =>
      obtain rfl := Option.some.inj h
      exact .answered j ok hl
    next => cases h

/-- A cancel marks a write and leaves the rest. -/
theorem cancel_cases (s : Store) (key : Nat) :
    (s.jobs.any (Job.writes · key) = true ∧
        s.cancel key = { s with jobs := cancelFirst key s.jobs }) ∨
      (∃ j, s.running = some j ∧ j.writes key = true ∧
        s.jobs.any (Job.writes · key) = false ∧
          s.cancel key = { s with running := some j.cancel }) ∨
      (s.jobs.any (Job.writes · key) = false ∧ s.running.any (Job.writes · key) = false ∧
        s.cancel key = s) := by
  unfold cancel
  split
  next hjobs => exact Or.inl ⟨hjobs, Eq.refl _⟩
  next hjobs =>
    rw [Bool.not_eq_true] at hjobs
    cases hrun : s.running with
    | none =>
      refine Or.inr (Or.inr ⟨hjobs, by simp, ?_⟩)
      rw [Option.map_none, ← hrun]
    | some j =>
      by_cases hw : j.writes key = true
      · exact Or.inr (Or.inl ⟨j, Eq.refl _, hw, hjobs, by simp [hw]⟩)
      · refine Or.inr (Or.inr ⟨hjobs, by simpa using hw, ?_⟩)
        rw [Option.map_some, if_neg hw, ← hrun]

end Store

end DiskJobs

end Llmx
