import Llmx.Runs
import Mathlib.Data.List.Perm.Basic
import Mathlib.Tactic.Common

namespace Llmx

open Runs

/-- What is seen of the runs, each with the number it was called as. -/
inductive JobEvent (E : Type)
  | began (r n : Nat)
  | started (r i : Nat)
  | finished (r i : Nat) (error : Option E)
  | returned (r : Nat) (error : Option E)

/-- The thread that calls run: alone with the job, calling it for an index, or waiting for the
others, with or without having been notified. -/
inductive Caller (E : Type)
  | free
  | alone (r n i : Nat) (first : Option E)
  | calling (r i : Nat)
  | waiting (r : Nat) (notified : Bool)

/-- A thread is asleep or calls the job of a run for an index. -/
structure JobThreads (E : Type) where
  threads : List (Option (Nat × Nat))
  caller : Caller E
  job : Option Nat
  n : Nat
  next : Nat
  done : Nat
  error : Option E
  runs : Nat
  log : List (JobEvent E)

inductive JobMove (E : Type)
  | run (n : Nat)
  | aloneEnds (e : Option E)
  | callEnds (e : Option E)
  | threadEnds (k : Nat) (e : Option E)
  | threadWakes (k : Nat)
  | callerWakes

namespace JobThreads

variable {E : Type}

/-- An index of the current job, where one is left: the head of take's loop. -/
def takeIndex (p : JobThreads E) : Option ((Nat × Nat) × JobThreads E) :=
  match p.job with
  | none => none
  | some r =>
    if p.next < p.n then
      some ((r, p.next), { p with next := p.next + 1, log := p.log ++ [.started r p.next] })
    else none

/-- A call is over: its error kept if it is the first, the call counted, and run notified if it was
the last. -/
def count (p : JobThreads E) (r i : Nat) (e : Option E) : JobThreads E :=
  { p with
    error := if p.error.isNone then e else p.error
    done := p.done + 1
    log := p.log ++ [.finished r i e]
    caller :=
      match p.caller with
      | .waiting r notified => .waiting r (notified || p.done + 1 == p.n)
      | c => c }

def endRun (p : JobThreads E) (r : Nat) : JobThreads E :=
  { p with job := none, error := none, caller := .free, log := p.log ++ [.returned r p.error] }

/-- run in its wait: it ends where every index is done. -/
def await (p : JobThreads E) (r : Nat) : JobThreads E :=
  if p.done = p.n then p.endRun r else { p with caller := .waiting r false }

def callerTakes (p : JobThreads E) (r : Nat) : JobThreads E :=
  match p.takeIndex with
  | some (c, p') => { p' with caller := .calling c.1 c.2 }
  | none => p.await r

def threadTakes (p : JobThreads E) (k : Nat) : JobThreads E :=
  match p.takeIndex with
  | some (c, p') => { p' with threads := p'.threads.set k (some c) }
  | none => { p with threads := p.threads.set k none }

/-- The calling thread's own loop, before the call for `i`. -/
def aloneFrom (p : JobThreads E) (r n i : Nat) (first : Option E) : JobThreads E :=
  if i < n then { p with caller := .alone r n i first, log := p.log ++ [.started r i] }
  else { p with caller := .free, log := p.log ++ [.returned r first] }

def aloneEnd (p : JobThreads E) (r i : Nat) (e : Option E) : JobThreads E :=
  { p with log := p.log ++ [.finished r i e] }

def begin (p : JobThreads E) (n : Nat) : JobThreads E :=
  { p with runs := p.runs + 1, log := p.log ++ [.began p.runs n] }

def post (p : JobThreads E) (n : Nat) : JobThreads E :=
  { p.begin n with job := some p.runs, n := n, next := 0, done := 0, error := none }

def step (p : JobThreads E) : JobMove E → Option (JobThreads E)
  | .run n =>
    match p.caller with
    | .free =>
      if n < 2 ∨ p.threads = [] then some ((p.begin n).aloneFrom p.runs n 0 none)
      else some ((p.post n).callerTakes p.runs)
    | _ => none
  | .aloneEnds e =>
    match p.caller with
    | .alone r n i first =>
      some ((p.aloneEnd r i e).aloneFrom r n (i + 1) (if first.isNone then e else first))
    | _ => none
  | .callEnds e =>
    match p.caller with
    | .calling r i => some ((p.count r i e).callerTakes r)
    | _ => none
  | .threadEnds k e =>
    match p.threads[k]? with
    | some (some (r, i)) => some ((p.count r i e).threadTakes k)
    | _ => none
  | .threadWakes k =>
    match p.threads[k]? with
    | some none => some (p.threadTakes k)
    | _ => none
  | .callerWakes =>
    match p.caller with
    | .waiting r _ => some (p.await r)
    | _ => none

end JobThreads

/-- Every pool of threads, before its first run. -/
def jobThreads (E : Type) : Machine (JobThreads E) (JobMove E) where
  start p := (∀ t ∈ p.threads, t = none) ∧ p.caller = .free ∧ p.job = none ∧ p.error = none ∧
    p.runs = 0 ∧ p.log = []
  step := JobThreads.step

section Events

variable {E : Type}

def JobEvent.run : JobEvent E → Nat
  | .began r _ => r
  | .started r _ => r
  | .finished r _ _ => r
  | .returned r _ => r

/-- The index an event says run `r` called the job for. -/
def JobEvent.start (r : Nat) : JobEvent E → Option Nat
  | .started r' i => if r' = r then some i else none
  | _ => none

def JobEvent.finish (r : Nat) : JobEvent E → Option (Nat × Option E)
  | .finished r' i e => if r' = r then some (i, e) else none
  | _ => none

/-- The indices run `r` called the job for, in order. -/
def startsOf (r : Nat) (log : List (JobEvent E)) : List Nat := log.filterMap (JobEvent.start r)

/-- The calls of run `r` that are over, with what each threw. -/
def endsOf (r : Nat) (log : List (JobEvent E)) : List (Nat × Option E) :=
  log.filterMap (JobEvent.finish r)

def firstError (ends : List (Nat × Option E)) : Option E := ends.findSome? Prod.snd

theorem startsOf_append (r : Nat) (a b : List (JobEvent E)) :
    startsOf r (a ++ b) = startsOf r a ++ startsOf r b := List.filterMap_append

theorem endsOf_append (r : Nat) (a b : List (JobEvent E)) :
    endsOf r (a ++ b) = endsOf r a ++ endsOf r b := List.filterMap_append

theorem startsOf_other {r : Nat} {log : List (JobEvent E)} (h : ∀ x ∈ log, x.run ≠ r) :
    startsOf r log = [] := by
  rw [startsOf, List.filterMap_eq_nil_iff]
  intro x hx
  have hne := h x hx
  cases x with
  | started r' i => exact if_neg hne
  | began r' n => rfl
  | finished r' i e => rfl
  | returned r' e => rfl

theorem endsOf_other {r : Nat} {log : List (JobEvent E)} (h : ∀ x ∈ log, x.run ≠ r) :
    endsOf r log = [] := by
  rw [endsOf, List.filterMap_eq_nil_iff]
  intro x hx
  have hne := h x hx
  cases x with
  | finished r' i e => exact if_neg hne
  | started r' i => rfl
  | began r' n => rfl
  | returned r' e => rfl

theorem firstError_snoc (ends : List (Nat × Option E)) (i : Nat) (e : Option E) :
    firstError (ends ++ [(i, e)]) = if (firstError ends).isNone then e else firstError ends := by
  unfold firstError
  rw [List.findSome?_append]
  cases h : ends.findSome? Prod.snd with
  | none => cases e <;> rfl
  | some x => rfl

theorem firstError_some {ends : List (Nat × Option E)} {e : E} (h : firstError ends = some e) :
    ∃ i, (i, some e) ∈ ends := by
  obtain ⟨⟨i, e'⟩, hmem, he⟩ := List.exists_of_findSome?_eq_some h
  have he : e' = some e := he
  exact ⟨i, by rw [← he]; exact hmem⟩

theorem firstError_none {ends : List (Nat × Option E)} (h : firstError ends = none) :
    ∀ c ∈ ends, c.2 = none := List.findSome?_eq_none_iff.mp h

/-- Run `r` called its job once for each index below the number it was given, every call is over,
and what it threw is the first error of these calls. -/
structure JobDone (r : Nat) (e : Option E) (log : List (JobEvent E)) : Prop where
  indices : ∃ n, .began r n ∈ log ∧ (∀ n', .began r n' ∈ log → n' = n) ∧
    (startsOf r log).Perm (List.range n) ∧ ((endsOf r log).map Prod.fst).Perm (List.range n)
  error_eq : e = firstError (endsOf r log)

/-- Every run that returned was done, and nothing of it comes later. -/
def Returned (log : List (JobEvent E)) : Prop :=
  ∀ before after r e, log = before ++ .returned r e :: after →
    JobDone r e before ∧ ∀ x ∈ after, x.run ≠ r

theorem eq_append_cons_of_snoc {α : Type} {log before after : List α} {x y : α}
    (h : log ++ [x] = before ++ y :: after) :
    (log = before ∧ x = y ∧ after = []) ∨
      ∃ rest, after = rest ++ [x] ∧ log = before ++ y :: rest := by
  rcases List.eq_nil_or_concat after with rfl | ⟨rest, z, rfl⟩
  · obtain ⟨h1, h2⟩ := List.append_inj' h rfl
    exact .inl ⟨h1, (List.cons.inj h2).1, by rfl⟩
  · rw [List.concat_eq_append] at h ⊢
    have h' : log ++ [x] = (before ++ y :: rest) ++ [z] := by
      rw [h, List.append_assoc, List.cons_append]
    obtain ⟨h1, h2⟩ := List.append_inj' h' rfl
    have hz := (List.cons.inj h2).1
    exact .inr ⟨rest, by rw [hz], h1⟩

/-- An event of a run that has not returned. -/
theorem Returned.snoc {log : List (JobEvent E)} (h : Returned log) {x : JobEvent E}
    (hx : ∀ e, .returned x.run e ∉ log) (hnot : ∀ r e, x ≠ .returned r e) :
    Returned (log ++ [x]) := by
  intro before after r e heq
  rcases eq_append_cons_of_snoc heq with ⟨-, hx', -⟩ | ⟨rest, rfl, hlog⟩
  · exact absurd hx' (hnot r e)
  · obtain ⟨hdone, hafter⟩ := h before rest r e hlog
    refine ⟨hdone, fun y hy => ?_⟩
    rcases List.mem_append.mp hy with hy | hy
    · exact hafter y hy
    · rw [List.mem_singleton.mp hy]
      intro hr
      apply hx e
      rw [hr, hlog]
      exact List.mem_append_right _ List.mem_cons_self

theorem Returned.returned {log : List (JobEvent E)} (h : Returned log) {r : Nat} {e : Option E}
    (hr : ∀ e, .returned r e ∉ log) (hdone : JobDone r e log) :
    Returned (log ++ [.returned r e]) := by
  intro before after r' e' heq
  rcases eq_append_cons_of_snoc heq with ⟨hlog, hx, hafter⟩ | ⟨rest, rfl, hlog⟩
  · cases hx
    subst hlog
    subst hafter
    exact ⟨hdone, fun x hx => by simp at hx⟩
  · obtain ⟨hdone', hafter⟩ := h before rest r' e' hlog
    refine ⟨hdone', fun y hy => ?_⟩
    rcases List.mem_append.mp hy with hy | hy
    · exact hafter y hy
    · rw [List.mem_singleton.mp hy]
      intro he
      have he : r = r' := he
      apply hr e'
      rw [he, hlog]
      exact List.mem_append_right _ List.mem_cons_self

end Events

end Llmx
