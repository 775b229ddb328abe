import Llmx.JobThreads

namespace Llmx

open Runs

variable {E : Type}

namespace JobThreads

/-- The calls the pool's own threads are in. -/
def threadCalls (threads : List (Option (Nat × Nat))) : List (Nat × Nat) := threads.filterMap id

theorem threadCalls_set {threads : List (Option (Nat × Nat))} {k : Nat} (hk : k < threads.length)
    (t : Option (Nat × Nat)) :
    (threadCalls (threads.set k t)).Perm (t.toList ++ threadCalls (threads.set k none)) := by
  induction threads generalizing k with
  | nil => simp at hk
  | cons s threads ih =>
    cases k with
    | zero => cases t <;> exact List.Perm.refl _
    | succ k =>
      have h := ih (by simpa using hk)
      cases s with
      | none => exact h
      | some c => exact (h.cons c).trans List.perm_middle.symm

theorem threadCalls_get {threads : List (Option (Nat × Nat))} {k : Nat} {t : Option (Nat × Nat)}
    (h : threads[k]? = some t) :
    (threadCalls threads).Perm (t.toList ++ threadCalls (threads.set k none)) := by
  obtain ⟨hk, ht⟩ := List.getElem?_eq_some_iff.mp h
  have hset := threadCalls_set hk t
  rw [← ht, List.set_getElem_self] at hset
  rw [← ht]
  exact hset

/-- Run `r` hands its indices out; the calls `calls` are in the job. -/
structure Going (p : JobThreads E) (r : Nat) (calls : List (Nat × Nat)) : Prop where
  job_eq : p.job = some r
  last : r + 1 = p.runs
  open_ : ∀ e, .returned r e ∉ p.log
  began : .began r p.n ∈ p.log
  only : ∀ n, .began r n ∈ p.log → n = p.n
  next_le : p.next ≤ p.n
  starts : startsOf r p.log = List.range p.next
  ends : ((endsOf r p.log).map Prod.fst ++ calls.map Prod.snd).Perm (List.range p.next)
  own : ∀ c ∈ calls, c.1 = r
  done_eq : p.done = (endsOf r p.log).length
  error_eq : p.error = firstError (endsOf r p.log)

/-- Run `r` calls its job on the thread that made it, for `i` now. -/
structure Alone (p : JobThreads E) (r n i : Nat) (first : Option E) : Prop where
  last : r + 1 = p.runs
  open_ : ∀ e, .returned r e ∉ p.log
  began : .began r n ∈ p.log
  only : ∀ n', .began r n' ∈ p.log → n' = n
  i_le : i ≤ n
  starts : startsOf r p.log = List.range i
  ends : (endsOf r p.log).map Prod.fst = List.range i
  error_eq : first = firstError (endsOf r p.log)

def Now (p : JobThreads E) : Prop :=
  match p.caller with
  | .free => p.job = none ∧ threadCalls p.threads = []
  | .alone r n i first => p.job = none ∧ threadCalls p.threads = [] ∧ i < n ∧
      ∃ q : JobThreads E, q.Alone r n i first ∧ p.log = q.log ++ [.started r i] ∧ p.runs = q.runs
  | .calling r i => p.Going r ((r, i) :: threadCalls p.threads)
  | .waiting r notified => p.Going r (threadCalls p.threads) ∧ p.next = p.n ∧
      (notified = false → p.done ≠ p.n)

theorem now_calling {p : JobThreads E} {r i : Nat} (hc : p.caller = .calling r i)
    (h : p.Going r ((r, i) :: threadCalls p.threads)) : p.Now := by
  unfold Now
  rw [hc]
  exact h

theorem now_waiting {p : JobThreads E} {r : Nat} {notified : Bool}
    (hc : p.caller = .waiting r notified) (h : p.Going r (threadCalls p.threads))
    (hn : p.next = p.n) (hnot : notified = false → p.done ≠ p.n) : p.Now := by
  unfold Now
  rw [hc]
  exact ⟨h, hn, hnot⟩

structure Inv (p : JobThreads E) : Prop where
  runs_lt : ∀ x ∈ p.log, x.run < p.runs
  returned : Returned p.log
  now : p.Now

namespace Going

variable {p : JobThreads E} {r : Nat} {calls : List (Nat × Nat)}

theorem perm (h : p.Going r calls) {calls' : List (Nat × Nat)} (hp : calls.Perm calls') :
    p.Going r calls' where
  job_eq := h.job_eq
  last := h.last
  open_ := h.open_
  began := h.began
  only := h.only
  next_le := h.next_le
  starts := h.starts
  ends := ((hp.map _).append_left _).symm.trans h.ends
  own c hc := h.own c (hp.mem_iff.mpr hc)
  done_eq := h.done_eq
  error_eq := h.error_eq

theorem of_parts (h : p.Going r calls) (caller : Caller E) (threads : List (Option (Nat × Nat))) :
    ({ p with caller := caller, threads := threads } : JobThreads E).Going r calls :=
  ⟨h.job_eq, h.last, h.open_, h.began, h.only, h.next_le, h.starts, h.ends, h.own, h.done_eq,
    h.error_eq⟩

/-- Every index below `next` is over or in a call. -/
theorem done_add (h : p.Going r calls) : p.done + calls.length = p.next := by
  have hlen := h.ends.length_eq
  rw [List.length_append, List.length_map, List.length_map, List.length_range, ← h.done_eq] at hlen
  exact hlen

theorem take (h : p.Going r calls) (hlt : p.next < p.n) :
    ∃ q, p.takeIndex = some ((r, p.next), q) ∧ q.Going r ((r, p.next) :: calls) ∧
      q.caller = p.caller ∧ q.threads = p.threads ∧ q.runs = p.runs ∧
      q.log = p.log ++ [.started r p.next] := by
  refine ⟨{ p with next := p.next + 1, log := p.log ++ [.started r p.next] }, ?_, ?_, rfl, rfl, rfl,
    rfl⟩
  · unfold takeIndex
    rw [h.job_eq]
    exact if_pos hlt
  · have hstart : startsOf r [(.started r p.next : JobEvent E)] = [p.next] := by
      simp [startsOf, JobEvent.start]
    have hend : endsOf r [(.started r p.next : JobEvent E)] = [] := by
      simp [endsOf, JobEvent.finish]
    refine ⟨h.job_eq, h.last, fun e => ?_, ?_, fun n hn => ?_, hlt, ?_, ?_, ?_, ?_, ?_⟩
    · simpa using h.open_ e
    · exact List.mem_append_left _ h.began
    · exact h.only n (by simpa using hn)
    · rw [startsOf_append, h.starts, hstart, List.range_succ]
    · rw [endsOf_append, hend, List.append_nil, List.range_succ, List.map_cons]
      exact List.perm_middle.trans ((h.ends.cons p.next).trans (List.perm_append_singleton _ _).symm)
    · intro c hc
      rcases List.mem_cons.mp hc with rfl | hc
      · exact rfl
      · exact h.own c hc
    · show p.done = _
      rw [endsOf_append, hend, List.append_nil, h.done_eq]
    · show p.error = _
      rw [endsOf_append, hend, List.append_nil, h.error_eq]

theorem count {i : Nat} (h : p.Going r ((r, i) :: calls)) (e : Option E) :
    (p.count r i e).Going r calls := by
  have hstart : startsOf r [.finished r i e] = [] := by simp [startsOf, JobEvent.start]
  have hend : endsOf r [.finished r i e] = [(i, e)] := by simp [endsOf, JobEvent.finish]
  refine ⟨h.job_eq, h.last, fun e' => ?_, ?_, fun n hn => ?_, h.next_le, ?_, ?_, ?_, ?_, ?_⟩
  · simpa [JobThreads.count] using h.open_ e'
  · exact List.mem_append_left _ h.began
  · exact h.only n (by simpa [JobThreads.count] using hn)
  · show startsOf r (p.log ++ [.finished r i e]) = _
    rw [startsOf_append, hstart, List.append_nil]
    exact h.starts
  · show ((endsOf r (p.log ++ [.finished r i e])).map Prod.fst ++ _).Perm _
    rw [endsOf_append, hend, List.map_append, List.append_assoc]
    exact h.ends
  · exact fun c hc => h.own c (List.mem_cons_of_mem _ hc)
  · show p.done + 1 = (endsOf r (p.log ++ [.finished r i e])).length
    rw [endsOf_append, hend, List.length_append, ← h.done_eq]
    rfl
  · show _ = firstError (endsOf r (p.log ++ [.finished r i e]))
    rw [endsOf_append, hend, firstError_snoc, ← h.error_eq]
    rfl

theorem done (h : p.Going r []) (hn : p.next = p.n) : JobDone r p.error p.log := by
  have hends := h.ends
  rw [List.map_nil, List.append_nil, hn] at hends
  have hstarts := h.starts
  rw [hn] at hstarts
  exact ⟨⟨p.n, h.began, h.only, by rw [hstarts], hends⟩, h.error_eq⟩

end Going

section Steps

variable {p : JobThreads E} {r : Nat}

theorem await_inv (hruns : ∀ x ∈ p.log, x.run < p.runs) (hret : Returned p.log)
    (h : p.Going r (threadCalls p.threads)) (hn : p.next = p.n) : (p.await r).Inv := by
  have hadd := h.done_add
  unfold await
  split
  next hdone =>
    have hcalls : threadCalls p.threads = [] := List.eq_nil_of_length_eq_zero (by omega)
    rw [hcalls] at h
    refine ⟨fun x hx => ?_, hret.returned h.open_ (h.done hn), rfl, hcalls⟩
    rcases List.mem_append.mp hx with hx | hx
    · exact hruns x hx
    · rw [List.mem_singleton.mp hx]
      have hlast := h.last
      show r < p.runs
      omega
  next hdone => exact ⟨hruns, hret, h.of_parts _ _, hn, fun _ => hdone⟩

theorem snoc_runs_lt (hruns : ∀ x ∈ p.log, x.run < p.runs) {y : JobEvent E} (hy : y.run < p.runs) :
    ∀ x ∈ p.log ++ [y], x.run < p.runs := by
  intro x hx
  rcases List.mem_append.mp hx with hx | hx
  · exact hruns x hx
  · rw [List.mem_singleton.mp hx]
    exact hy

theorem started_inv (hruns : ∀ x ∈ p.log, x.run < p.runs) (hret : Returned p.log)
    {calls : List (Nat × Nat)} (h : p.Going r calls) (i : Nat) :
    (∀ x ∈ p.log ++ [.started r i], x.run < p.runs) ∧ Returned (p.log ++ [.started r i]) := by
  have hlast := h.last
  exact ⟨snoc_runs_lt hruns (by show r < p.runs; omega),
    hret.snoc h.open_ fun r e hx => by cases hx⟩

theorem takeIndex_none (hn : ¬ p.next < p.n) : p.takeIndex = none := by
  unfold takeIndex
  split
  next => rfl
  next => exact if_neg hn

theorem callerTakes_inv (hruns : ∀ x ∈ p.log, x.run < p.runs) (hret : Returned p.log)
    (h : p.Going r (threadCalls p.threads)) : (p.callerTakes r).Inv := by
  unfold callerTakes
  by_cases hn : p.next < p.n
  · obtain ⟨q, hq, hgoing, -, hthreads, hqruns, hlog⟩ := h.take hn
    obtain ⟨h1, h2⟩ := started_inv hruns hret h p.next
    rw [hq]
    refine ⟨?_, ?_, ?_⟩
    · show ∀ x ∈ q.log, x.run < q.runs
      rw [hlog, hqruns]
      exact h1
    · show Returned q.log
      rw [hlog]
      exact h2
    · show ({ q with caller := .calling r p.next } : JobThreads E).Going r
        ((r, p.next) :: threadCalls q.threads)
      rw [hthreads]
      exact hgoing.of_parts _ _
  · have hle := h.next_le
    rw [takeIndex_none hn]
    exact await_inv hruns hret h (by omega)

/-- Where the caller is while a thread takes an index or finds none. -/
def Beside (p : JobThreads E) (r : Nat) (calls : List (Nat × Nat)) : Prop :=
  match p.caller with
  | .calling r' i => r' = r ∧ p.Going r ((r, i) :: calls)
  | .waiting r' notified => r' = r ∧ p.Going r calls ∧ p.next = p.n ∧
      (notified = false → p.done ≠ p.n)
  | _ => False

theorem threadTakes_inv (hruns : ∀ x ∈ p.log, x.run < p.runs) (hret : Returned p.log) {k : Nat}
    (hk : k < p.threads.length) (h : p.Beside r (threadCalls (p.threads.set k none))) :
    (p.threadTakes k).Inv := by
  unfold threadTakes
  unfold Beside at h
  have hset := threadCalls_set hk (some (r, p.next))
  split at h
  next i hcaller =>
    obtain ⟨rfl, h⟩ := h
    by_cases hn : p.next < p.n
    · obtain ⟨q, hq, hgoing, hqcaller, hthreads, hqruns, hlog⟩ := h.take hn
      obtain ⟨h1, h2⟩ := started_inv hruns hret h p.next
      rw [hq]
      refine ⟨?_, ?_, ?_⟩
      · show ∀ x ∈ q.log, x.run < q.runs
        rw [hlog, hqruns]
        exact h1
      · show Returned q.log
        rw [hlog]
        exact h2
      · refine now_calling (hqcaller.trans hcaller) ((hgoing.perm ?_).of_parts _ _)
        show List.Perm _ (_ :: threadCalls (q.threads.set k (some _)))
        rw [hthreads]
        exact (List.Perm.swap _ _ _).trans (hset.symm.cons _)
    · rw [takeIndex_none hn]
      exact ⟨hruns, hret, now_calling hcaller (h.of_parts _ _)⟩
  next notified hcaller =>
    obtain ⟨rfl, h, hn, hnot⟩ := h
    rw [takeIndex_none (by omega)]
    exact ⟨hruns, hret, now_waiting hcaller (h.of_parts _ _) hn hnot⟩
  next => exact h.elim

theorem count_log (hruns : ∀ x ∈ p.log, x.run < p.runs) (hret : Returned p.log)
    {calls : List (Nat × Nat)} (h : p.Going r calls) (i : Nat) (e : Option E) :
    (∀ x ∈ (p.count r i e).log, x.run < (p.count r i e).runs) ∧
      Returned (p.count r i e).log := by
  have hlast := h.last
  exact ⟨snoc_runs_lt hruns (by show r < p.runs; omega),
    hret.snoc h.open_ fun r e hx => by cases hx⟩

theorem aloneFrom_inv {n i : Nat} {first : Option E} (hruns : ∀ x ∈ p.log, x.run < p.runs)
    (hret : Returned p.log) (hjob : p.job = none) (hcalls : threadCalls p.threads = [])
    (h : p.Alone r n i first) : (p.aloneFrom r n i first).Inv := by
  have hlast := h.last
  have hle := h.i_le
  unfold aloneFrom
  split
  next hi =>
    have hnot : ∀ r' e, JobEvent.started r i ≠ (.returned r' e : JobEvent E) := by
      intro r' e hx
      cases hx
    exact ⟨snoc_runs_lt hruns (by show r < p.runs; omega), hret.snoc h.open_ hnot, hjob, hcalls,
      hi, p, h, rfl, rfl⟩
  next hi =>
    have hin : i = n := by omega
    subst hin
    have hends : ((endsOf r p.log).map Prod.fst).Perm (List.range i) := by rw [h.ends]
    refine ⟨snoc_runs_lt hruns (by show r < p.runs; omega), ?_, hjob, hcalls⟩
    exact hret.returned h.open_
      ⟨⟨i, h.began, h.only, by rw [h.starts], hends⟩, h.error_eq⟩

theorem aloneEnd_alone {q : JobThreads E} {n i : Nat} {first : Option E} (h : q.Alone r n i first)
    (hi : i < n) (hlog : p.log = q.log ++ [.started r i]) (hpruns : p.runs = q.runs)
    (e : Option E) :
    (p.aloneEnd r i e).Alone r n (i + 1) (if first.isNone then e else first) := by
  have hstart : startsOf r ([.started r i, .finished r i e] : List (JobEvent E)) = [i] := by
    simp [startsOf, JobEvent.start]
  have hend : endsOf r ([.started r i, .finished r i e] : List (JobEvent E)) = [(i, e)] := by
    simp [endsOf, List.filterMap_cons, JobEvent.finish]
  have hnew : (p.aloneEnd r i e).log = q.log ++ [.started r i, .finished r i e] := by
    show p.log ++ [.finished r i e] = _
    rw [hlog, List.append_assoc]
    rfl
  refine ⟨h.last.trans hpruns.symm, fun e' => ?_, ?_, fun n' hn' => ?_, hi, ?_, ?_, ?_⟩
  · rw [hnew]
    simpa using h.open_ e'
  · rw [hnew]
    exact List.mem_append_left _ h.began
  · rw [hnew] at hn'
    exact h.only n' (by simpa using hn')
  · rw [hnew, startsOf_append, hstart, h.starts, List.range_succ]
  · rw [hnew, endsOf_append, hend, List.map_append, h.ends, List.range_succ]
    rfl
  · rw [hnew, endsOf_append, hend, firstError_snoc, ← h.error_eq]

theorem count_beside {calls : List (Nat × Nat)} {i k : Nat} {e : Option E} (hnow : p.Now)
    (hk : p.threads[k]? = some (some (r, i)))
    (hcalls : calls = threadCalls (p.threads.set k none)) :
    (p.count r i e).Beside r calls ∧ ∃ calls, p.Going r calls := by
  have hget := threadCalls_get hk
  rw [← hcalls] at hget
  unfold Now at hnow
  split at hnow
  next hcaller =>
    rw [hnow.2] at hget
    exact absurd hget.symm.eq_nil (List.cons_ne_nil _ _)
  next hcaller =>
    rw [hnow.2.1] at hget
    exact absurd hget.symm.eq_nil (List.cons_ne_nil _ _)
  next r' i' hcaller =>
    have hgoing := hnow.perm ((hget.cons (r', i')).trans (List.Perm.swap _ _ _))
    have hr : r = r' := hgoing.own (r, i) List.mem_cons_self
    subst hr
    have hc : (p.count r i e).caller = .calling r i' := by
      unfold JobThreads.count
      dsimp only
      rw [hcaller]
    refine ⟨?_, _, hgoing⟩
    unfold Beside
    rw [hc]
    exact ⟨rfl, hgoing.count e⟩
  next r' notified hcaller =>
    obtain ⟨hgoing, hn, hnot⟩ := hnow
    have hgoing := hgoing.perm hget
    have hr : r = r' := hgoing.own (r, i) List.mem_cons_self
    subst hr
    have hc : (p.count r i e).caller = .waiting r (notified || p.done + 1 == p.n) := by
      unfold JobThreads.count
      dsimp only
      rw [hcaller]
    refine ⟨?_, _, hgoing⟩
    unfold Beside
    rw [hc]
    refine ⟨rfl, hgoing.count e, hn, fun hnotified => ?_⟩
    have hlast := (Bool.or_eq_false_iff.mp hnotified).2
    exact beq_eq_false_iff_ne.mp hlast

end Steps

theorem began_inv {p : JobThreads E} (h : p.Inv) (n : Nat) :
    (∀ x ∈ (p.begin n).log, x.run < (p.begin n).runs) ∧ Returned (p.begin n).log ∧
      (∀ e, .returned p.runs e ∉ (p.begin n).log) ∧ .began p.runs n ∈ (p.begin n).log ∧
        (∀ n', .began p.runs n' ∈ (p.begin n).log → n' = n) ∧
          startsOf p.runs (p.begin n).log = [] ∧ endsOf p.runs (p.begin n).log = [] := by
  have hother : ∀ x ∈ p.log, x.run ≠ p.runs := fun x hx => Nat.ne_of_lt (h.runs_lt x hx)
  have hno : ∀ e, JobEvent.returned p.runs e ∉ p.log := fun e he => hother _ he rfl
  have hnot : ∀ r' e, JobEvent.began p.runs n ≠ (.returned r' e : JobEvent E) := by
    intro r' e hx
    cases hx
  refine ⟨fun x hx => ?_, h.returned.snoc hno hnot, fun e he => ?_, ?_, fun n' hn' => ?_, ?_, ?_⟩
  · rcases List.mem_append.mp hx with hx | hx
    · exact Nat.lt_succ_of_lt (h.runs_lt x hx)
    · rw [List.mem_singleton.mp hx]
      exact Nat.lt_succ_self _
  · rcases List.mem_append.mp he with he | he
    · exact hno e he
    · simp at he
  · exact List.mem_append_right _ List.mem_cons_self
  · rcases List.mem_append.mp hn' with hn' | hn'
    · exact absurd rfl (hother _ hn')
    · simpa using hn'
  · show startsOf p.runs (p.log ++ [.began p.runs n]) = []
    rw [startsOf_append, startsOf_other hother]
    rfl
  · show endsOf p.runs (p.log ++ [.began p.runs n]) = []
    rw [endsOf_append, endsOf_other hother]
    rfl

/-- A thread that wakes takes an index of the run going on, or sleeps on. -/
theorem wake_inv {p : JobThreads E} {k : Nat} (h : p.Inv) (hk : k < p.threads.length)
    (hthread : p.threads[k]? = some none) : (p.threadTakes k).Inv := by
  obtain ⟨hruns, hret, hnow⟩ := h
  have hsame : p.threads.set k none = p.threads := by
    obtain ⟨hk, ht⟩ := List.getElem?_eq_some_iff.mp hthread
    rw [← ht, List.set_getElem_self]
  have hidle (hjob : p.job = none) : p.threadTakes k = p := by
    have hnone : p.takeIndex = none := by
      unfold takeIndex
      rw [hjob]
    unfold threadTakes
    rw [hnone, hsame]
  cases hcaller : p.caller with
  | free =>
    have hn := hnow
    unfold Now at hn
    rw [hcaller] at hn
    rw [hidle hn.1]
    exact ⟨hruns, hret, hnow⟩
  | alone r n i first =>
    have hn := hnow
    unfold Now at hn
    rw [hcaller] at hn
    rw [hidle hn.1]
    exact ⟨hruns, hret, hnow⟩
  | calling r i =>
    unfold Now at hnow
    rw [hcaller] at hnow
    refine threadTakes_inv (r := r) hruns hret hk ?_
    unfold Beside
    rw [hcaller, hsame]
    exact ⟨rfl, hnow⟩
  | waiting r notified =>
    unfold Now at hnow
    rw [hcaller] at hnow
    refine threadTakes_inv (r := r) hruns hret hk ?_
    unfold Beside
    rw [hcaller, hsame]
    exact ⟨rfl, hnow⟩

theorem step_inv {p q : JobThreads E} {m : JobMove E} (h : p.Inv) (hs : p.step m = some q) :
    q.Inv := by
  obtain ⟨hruns, hret, hnow⟩ := h
  cases m with
  | run n =>
    unfold step at hs
    dsimp only at hs
    split at hs
    next hcaller =>
      obtain ⟨h1, h2, h3, h4, h5, h6, h7⟩ := began_inv ⟨hruns, hret, hnow⟩ n
      unfold Now at hnow
      rw [hcaller] at hnow
      obtain ⟨hjob, hcalls⟩ := hnow
      split at hs
      next => 
        cases hs
        exact aloneFrom_inv h1 h2 hjob hcalls
          ⟨rfl, h3, h4, h5, Nat.zero_le _, h6, by rw [h7]; rfl, by rw [h7]; rfl⟩
      next =>
        cases hs
        refine callerTakes_inv (p := p.post n) h1 h2 ?_
        have hc : threadCalls (p.post n).threads = [] := hcalls
        rw [hc]
        refine ⟨rfl, rfl, h3, h4, h5, Nat.zero_le _, h6, ?_, fun c hc => by simp at hc, ?_, ?_⟩
        · show ((endsOf p.runs (p.begin n).log).map Prod.fst ++ _).Perm _
          rw [h7]
          exact List.Perm.refl _
        · show 0 = (endsOf p.runs (p.begin n).log).length
          rw [h7]
          rfl
        · show none = firstError (endsOf p.runs (p.begin n).log)
          rw [h7]
          rfl
    next => cases hs
  | aloneEnds e =>
    unfold step at hs
    dsimp only at hs
    split at hs
    next r n i first hcaller =>
      cases hs
      unfold Now at hnow
      rw [hcaller] at hnow
      obtain ⟨hjob, hcalls, hi, q, hq, hlog, hqruns⟩ := hnow
      have hlast := hq.last
      have hopen : ∀ e, JobEvent.returned r e ∉ p.log := by
        intro e he
        rw [hlog] at he
        exact hq.open_ e (by simpa using he)
      have hnot : ∀ r' e', JobEvent.finished r i e ≠ (.returned r' e' : JobEvent E) := by
        intro r' e' hx
        cases hx
      exact aloneFrom_inv (snoc_runs_lt hruns (by show r < p.runs; omega)) (hret.snoc hopen hnot)
        hjob hcalls (aloneEnd_alone hq hi hlog hqruns e)
    next => cases hs
  | callEnds e =>
    unfold step at hs
    dsimp only at hs
    split at hs
    next r i hcaller =>
      cases hs
      unfold Now at hnow
      rw [hcaller] at hnow
      obtain ⟨h1, h2⟩ := count_log hruns hret hnow i e
      exact callerTakes_inv h1 h2 (hnow.count e)
    next => cases hs
  | threadEnds k e =>
    unfold step at hs
    dsimp only at hs
    split at hs
    next r i hthread =>
      cases hs
      obtain ⟨hk, -⟩ := List.getElem?_eq_some_iff.mp hthread
      obtain ⟨hbeside, calls, hgoing⟩ := count_beside (e := e) hnow hthread rfl
      obtain ⟨h1, h2⟩ := count_log hruns hret hgoing i e
      exact threadTakes_inv (p := p.count r i e) h1 h2 hk hbeside
    next => cases hs
  | threadWakes k =>
    unfold step at hs
    dsimp only at hs
    split at hs
    next hthread =>
      cases hs
      obtain ⟨hk, -⟩ := List.getElem?_eq_some_iff.mp hthread
      exact wake_inv ⟨hruns, hret, hnow⟩ hk hthread
    next => cases hs
  | callerWakes =>
    unfold step at hs
    dsimp only at hs
    split at hs
    next r notified hcaller =>
      cases hs
      unfold Now at hnow
      rw [hcaller] at hnow
      exact await_inv hruns hret hnow.1 hnow.2.1
    next => cases hs

end JobThreads

theorem jobThreads_inv {p : JobThreads E} (h : Reach (jobThreads E) p) : p.Inv := by
  apply h.invariant JobThreads.Inv
  · intro p hp
    obtain ⟨hthreads, hcaller, hjob, herror, hruns, hlog⟩ := hp
    have hcalls : JobThreads.threadCalls p.threads = [] := by
      rw [JobThreads.threadCalls, List.filterMap_eq_nil_iff]
      exact hthreads
    refine ⟨fun x hx => ?_, fun before after r e heq => ?_, ?_⟩
    · rw [hlog] at hx
      simp at hx
    · rw [hlog] at heq
      simp at heq
    · unfold JobThreads.Now
      rw [hcaller]
      exact ⟨hjob, hcalls⟩
  · intro p m q hp hs
    exact JobThreads.step_inv hp hs

/-- However the threads interleave, a run that returned called its job once for each of its
indices, all of its calls were over, nothing of it comes after, and what it threw is its own calls'
first error; and while a run waits unnotified, some call of it is going on. -/
theorem every_index_once {p : JobThreads E} (h : Reach (jobThreads E) p) :
    (∀ before after r e, p.log = before ++ .returned r e :: after →
      (∃ n, .began r n ∈ before ∧ (∀ n', .began r n' ∈ before → n' = n) ∧
        (startsOf r before).Perm (List.range n) ∧
          ((endsOf r before).map Prod.fst).Perm (List.range n)) ∧
      startsOf r after = [] ∧ endsOf r after = [] ∧
      (∀ x, e = some x → ∃ i, (i, some x) ∈ endsOf r before) ∧
        (e = none → ∀ c ∈ endsOf r before, c.2 = none)) ∧
    ∀ r, p.caller = .waiting r false → ∃ i, some (r, i) ∈ p.threads := by
  obtain ⟨hruns, hret, hnow⟩ := jobThreads_inv h
  constructor
  · intro before after r e heq
    obtain ⟨⟨hindices, herror⟩, hafter⟩ := hret before after r e heq
    refine ⟨hindices, startsOf_other hafter, endsOf_other hafter, fun x hx => ?_, fun hx => ?_⟩
    · exact firstError_some (herror.symm.trans hx)
    · exact firstError_none (herror.symm.trans hx)
  · intro r hcaller
    unfold JobThreads.Now at hnow
    rw [hcaller] at hnow
    obtain ⟨hgoing, hn, hnot⟩ := hnow
    have hadd := hgoing.done_add
    have hne := hnot rfl
    have hle := hgoing.next_le
    obtain ⟨c, hc⟩ := List.exists_mem_of_length_pos
      (by omega : 0 < (JobThreads.threadCalls p.threads).length)
    obtain ⟨t, ht, hid⟩ := List.mem_filterMap.mp hc
    have hown := hgoing.own c hc
    refine ⟨c.2, ?_⟩
    rw [← hown]
    have hid : t = some c := hid
    rw [← hid]
    exact ht

/-- One thread beside the caller, an index each, the thread's call throwing 7. -/
def onePool : JobThreads Nat := ⟨[none], .free, none, 0, 0, 0, none, 0, []⟩

def oneRun : List (JobMove Nat) :=
  [.run 2, .threadWakes 0, .callEnds none, .threadEnds 0 (some 7), .callerWakes]

def oneLog : List (JobEvent Nat) :=
  [.began 0 2, .started 0 0, .started 0 1, .finished 0 0 none, .finished 0 1 (some 7)]

theorem every_index_once_oneRun :
    (startsOf 0 oneLog).Perm (List.range 2) ∧ ∃ i, (i, some 7) ∈ endsOf 0 oneLog := by
  have hplay : ∃ p, play (jobThreads Nat) onePool oneRun = some p ∧
      p.log = oneLog ++ .returned 0 (some 7) :: [] := ⟨_, rfl, rfl⟩
  obtain ⟨p, hp, hlog⟩ := hplay
  have hstart : (jobThreads Nat).start onePool := ⟨by simp [onePool], rfl, rfl, rfl, rfl, rfl⟩
  have h := (every_index_once (reach_of_play oneRun hstart hp)).1 oneLog [] 0 (some 7) hlog
  obtain ⟨⟨n, hn, -, hstarts, -⟩, -, -, herror, -⟩ := h
  have hn : n = 2 := by simpa [oneLog] using hn
  rw [hn] at hstarts
  exact ⟨hstarts, herror 7 rfl⟩

end Llmx
