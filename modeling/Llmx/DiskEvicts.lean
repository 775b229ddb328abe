import Llmx.DiskJobsKept

/-!
An entry evicted stays gone, whatever write or read of it was under way.
-/

namespace Llmx

open Runs

namespace DiskJobs

namespace Store

variable {s t : Store} {j r : Job}

/-- A step that makes no evicted key's write or read start again. -/
theorem Barred.step (h : s.Barred) (hkeys : s.keys ≤ t.keys) (hevicted : t.evicted = s.evicted)
    (hevicting : t.evicting = s.evicting)
    (hsizes : ∀ k ∈ t.sizes, k ∈ s.sizes ∨ ∃ j, s.Awaits j ∧ j.key = k ∧ j.cancelled = false)
    (hawaits : ∀ j, t.Awaits j → s.keys < j.key ∨
      ∃ i, s.Awaits i ∧ i.key = j.key ∧ (i.cancelled = true → j.cancelled = true))
    (hpassed : ∀ r, t.Passed r → s.Passed r ∨ r.key ∈ s.sizes) : t.Barred := by
  have hmark : ∀ k, k ≤ s.keys → (∀ j, s.Awaits j → j.key = k → j.cancelled = true) →
      ∀ j, t.Awaits j → j.key = k → j.cancelled = true := by
    intro k hle hall j hj hkey
    rcases hawaits j hj with hlt | ⟨i, hi, hik, himp⟩
    · omega
    · exact himp (hall i hi (hik.trans hkey))
  refine ⟨fun k n hk => ?_, fun k hk => ?_, fun k n r hk hr hkey => ?_⟩
  · rw [hevicted] at hk
    obtain ⟨hle, hnot, hall⟩ := h.evicted k n hk
    refine ⟨Nat.le_trans hle hkeys, fun hm => ?_, hmark k hle hall⟩
    rcases hsizes k hm with hm | ⟨j, hj, hjk, hc⟩
    · exact hnot hm
    · rw [hall j hj hjk] at hc
      cases hc
  · rw [hevicting] at hk
    obtain ⟨hle, hall⟩ := h.evicting k hk
    exact ⟨Nat.le_trans hle hkeys, hmark k hle hall⟩
  · rw [hevicted] at hk
    rcases hpassed r hr with hr | hm
    · exact h.reads k n r hk hr hkey
    · rw [hkey] at hm
      exact absurd hm (h.evicted k n hk).2.1

theorem Wrote.awaits {w : Writing} (h : Wrote s j w t) (hl : s.loop = .writing w) {i : Job}
    (hi : t.Awaits i) : s.Awaits i := by
  obtain ⟨hput, hi⟩ := hi
  have hwriting : ∀ i', s.running = some i' → s.running = some i' ∧ ∃ w, s.loop = .writing w :=
    fun i' hi' => ⟨hi', w, hl⟩
  cases h with
  | served left r rest htake =>
    refine ⟨hput, hi.imp (fun hi => ?_) fun hi => hwriting i hi.1⟩
    obtain ⟨-, before, after, hjobs, hrest, -⟩ := takeRead_some htake
    rw [hrest] at hi
    rw [hjobs]
    rcases List.mem_append.mp hi with hi | hi
    · exact List.mem_append_left _ hi
    · exact List.mem_append_right _ (List.mem_cons_of_mem _ hi)
  | _ => exact ⟨hput, hi.imp_right fun hi => hwriting i hi.1⟩

theorem Wrote.passed {w : Writing} (h : Wrote s j w t) (hl : s.loop = .writing w)
    (hread : s.read = none) (hj : s.running = some j) (hjput : j.put = true) {i : Job}
    (hi : t.Passed i) : s.Passed i := by
  obtain ⟨hput, hi⟩ := hi
  refine ⟨hput, Or.inl ?_⟩
  have hne : i ≠ j := by
    rintro rfl
    rw [hjput] at hput
    cases hput
  cases h with
  | served => simpa [results, hl, hread] using hi
  | failed => simpa [results, Store.failed, hl, hread, hj, hne] using hi
  | refused => simpa [results, hl, hread, hj, hne] using hi
  | taken => simpa [results, hl, hread, hj, hne] using hi
  | recorded => simpa [results, hl, hread, hj, hne] using hi
  | _ => simpa [results, hl, hread] using hi

theorem Wrote.barred {w : Writing} (h : Wrote s j w t) (hb : s.Barred) (hl : s.loop = .writing w)
    (hread : s.read = none) (hj : s.running = some j) (hput : j.put = true) : t.Barred := by
  have hawaits : s.Awaits j := ⟨hput, Or.inr ⟨hj, w, hl⟩⟩
  have hsame : t.evicted = s.evicted ∧ t.evicting = s.evicting ∧ t.keys = s.keys := by
    cases h <;> simp [Store.failed]
  obtain ⟨hevicted, hevicting, hkeys⟩ := hsame
  refine hb.step (Nat.le_of_eq hkeys.symm) hevicted hevicting (fun k hk => ?_)
    (fun i hi => Or.inr ⟨i, h.awaits hl hi, Eq.refl _, id⟩)
    fun i hi => Or.inl (h.passed hl hread hj hput hi)
  cases h with
  | recorded hc =>
    simp only [Finset.mem_insert] at hk
    rcases hk with rfl | hk
    · exact Or.inr ⟨j, hawaits, Eq.refl _, hc⟩
    · exact Or.inl hk
  | _ => exact Or.inl hk

theorem Went.passed {phase : Reading} (h : Went s r phase t) (hs : s.Shape)
    (hread : s.read = some (r, phase)) {i : Job} (hi : t.Passed i) :
    s.Passed i ∨ i.key ∈ s.sizes := by
  have hresults := h.results hs hread
  obtain ⟨hput, hi⟩ := hi
  rcases hi with hi | ⟨p, hp, hgood⟩
  · rcases hresults _ hi with hi | ⟨heq, hfinished⟩
    · exact Or.inl ⟨hput, Or.inl hi⟩
    · have heq : i = r := heq
      rw [heq] at hput ⊢
      left
      refine ⟨hput, Or.inr ⟨phase, hread, ?_⟩⟩
      cases h with
      | good phase hphase => rcases hphase with rfl | rfl <;> simp
      | renewed => simp
      | _ => simp at hfinished
  · cases h with
    | found hsizes =>
      simp only [Option.some.injEq, Prod.mk.injEq] at hp
      rw [← hp.1]
      exact Or.inr hsizes
    | opened =>
      simp only [Option.some.injEq, Prod.mk.injEq] at hp
      rw [← hp.1] at hput ⊢
      exact Or.inl ⟨hput, Or.inr ⟨_, hread, by simp⟩⟩
    | proved =>
      simp only [Option.some.injEq, Prod.mk.injEq] at hp
      rw [← hp.1] at hput ⊢
      exact Or.inl ⟨hput, Or.inr ⟨_, hread, by simp⟩⟩
    | written =>
      simp only [Option.some.injEq, Prod.mk.injEq] at hp
      rw [← hp.1] at hput ⊢
      exact Or.inl ⟨hput, Or.inr ⟨_, hread, by simp⟩⟩
    | ours =>
      simp only [Option.some.injEq, Prod.mk.injEq] at hp
      rw [← hp.1] at hput ⊢
      exact Or.inl ⟨hput, Or.inr ⟨_, hread, by simp⟩⟩
    | ended => cases hp
    | answered => cases hp
    | _ =>
      simp only [Option.some.injEq, Prod.mk.injEq] at hp
      rw [← hp.2] at hgood
      simp at hgood

theorem Went.barred {phase : Reading} (h : Went s r phase t) (hb : s.Barred) (hs : s.Shape)
    (hread : s.read = some (r, phase)) : t.Barred := by
  refine hb.step (t := t) ?_ ?_ ?_ (fun k hk => Or.inl ?_)
    (fun i hi => Or.inr ⟨i, ?_, Eq.refl _, id⟩) fun i hi => h.passed hs hread hi
  · cases h <;> simp [Store.remove]
  · cases h <;> simp [Store.remove]
  · cases h <;> simp [Store.remove]
  · cases h with
    | removed => exact Finset.mem_of_mem_erase hk
    | _ => exact hk
  · obtain ⟨hput, hi⟩ := hi
    cases h with
    | ended ok hl =>
      refine ⟨hput, hi.imp_right fun hi => ?_⟩
      obtain ⟨-, w, hw⟩ := hi
      cases hw
    | _ => exact ⟨hput, hi⟩

theorem cancel_awaits {key : Nat} (hj : (s.cancel key).Awaits j) :
    ∃ i, s.Awaits i ∧ i.key = j.key ∧ (i.cancelled = true → j.cancelled = true) := by
  obtain ⟨hput, hj⟩ := hj
  rcases cancel_cases s key with ⟨-, h⟩ | ⟨i, hi, hw, -, h⟩ | ⟨-, -, h⟩
  · rw [h] at hj
    rcases hj with hj | hj
    · obtain ⟨i, hi, rfl | rfl⟩ := of_mem_cancelFirst hj
      · exact ⟨j, ⟨hput, Or.inl hi⟩, Eq.refl _, id⟩
      · exact ⟨i, ⟨hput, Or.inl hi⟩, Eq.refl _, fun _ => by simp [Job.cancel]⟩
    · exact ⟨j, ⟨hput, Or.inr hj⟩, Eq.refl _, id⟩
  · rw [h] at hj
    rcases hj with hj | ⟨hj, hw'⟩
    · exact ⟨j, ⟨hput, Or.inl hj⟩, Eq.refl _, id⟩
    · simp only [Option.some.injEq] at hj
      subst hj
      exact ⟨i, ⟨hput, Or.inr ⟨hi, hw'⟩⟩, Eq.refl _, fun _ => by simp [Job.cancel]⟩
  · rw [h] at hj
    exact ⟨j, ⟨hput, hj⟩, Eq.refl _, id⟩

/-- After a cancel no write of the key is left that is not cancelled. -/
theorem cancel_cancels (hk : s.Kept) {key : Nat} (hj : (s.cancel key).Awaits j)
    (hkey : j.key = key) : j.cancelled = true := by
  obtain ⟨hput, hj⟩ := hj
  have hwrites : j.writes key = true := writes_iff.mpr ⟨hput, hkey⟩
  have honce := List.nodup_append.mp hk.once
  rcases cancel_cases s key with ⟨hany, h⟩ | ⟨i, hi, hw, hnone, h⟩ | ⟨hnone, hrun, h⟩
  · rw [h] at hj
    rcases hj with hj | ⟨hj, w, hl⟩
    · exact cancelled_of_mem honce.2.1 hj hwrites
    · obtain ⟨i, hi, hiw⟩ := List.any_eq_true.mp hany
      have hj : s.running = some j := hj
      have hl : s.loop = .writing w := hl
      have hfirst : j.key ∈ s.writingKey := by simp [writingKey, hl, hj]
      rw [hkey] at hfirst
      exact absurd (Eq.refl _) (honce.2.2 key hfirst key (mem_keysOf.mpr ⟨i, hi, hiw⟩))
  · rw [h] at hj
    rcases hj with hj | ⟨hj, -⟩
    · rw [List.any_eq_false] at hnone
      exact absurd hwrites (hnone j hj)
    · simp only [Option.some.injEq] at hj
      rw [← hj]
      simp [Job.cancel]
  · rw [h] at hj
    rcases hj with hj | ⟨hj, -⟩
    · rw [List.any_eq_false] at hnone
      exact absurd hwrites (hnone j hj)
    · rw [hj, Option.any_some, hwrites] at hrun
      cases hrun

theorem cancel_passed {key : Nat} (h : (s.cancel key).Passed r) : s.Passed r := by
  obtain ⟨hput, h⟩ := h
  have hread := (cancel_fields s key).2.2.2.2.2.1
  rw [hread] at h
  refine ⟨hput, h.imp_left fun h => ?_⟩
  obtain ⟨i, hi, -, -, -, heq⟩ := cancel_results s key r true h
  rw [← heq hput]
  exact hi

theorem cancel_barred (hb : s.Barred) (key : Nat) : (s.cancel key).Barred := by
  obtain ⟨hsizes, -, hkeys, hevicted, hevicting, -⟩ := cancel_fields s key
  refine hb.step (Nat.le_of_eq hkeys.symm) hevicted hevicting (fun k hk => ?_)
    (fun i hi => Or.inr (cancel_awaits hi)) fun i hi => Or.inl (cancel_passed hi)
  rw [hsizes] at hk
  exact Or.inl hk

/-- A read that passed was called before. -/
theorem number_lt_of_passed (hs : s.Lined) (h : s.Passed r) : r.number < s.calls := by
  obtain ⟨hput, h⟩ := h
  refine (hs.all _).mpr ⟨false, ?_⟩
  have hmem : ∀ jobs : List Job, r ∈ jobs → r.number ∈ numbers false jobs := by
    intro jobs hr
    exact List.mem_map.mpr ⟨r, List.mem_filter.mpr ⟨hr, by simp [hput]⟩, Eq.refl _⟩
  have hhand : ∀ phase, s.read = some (r, phase) → r.number ∈ s.line false := by
    intro phase hread
    refine List.mem_append_left _ (List.mem_append_right _ (hmem _ ?_))
    obtain ⟨-, ⟨hl, hr⟩ | ⟨left, j, hl, hj, -⟩⟩ := hs.shape.of_read hread
    · simp [hand, hl, hr]
    · simp [hand, hl, hread]
  rcases h with h | ⟨phase, hread, -⟩
  · rcases List.mem_append.mp h with h | h
    · rcases List.mem_append.mp h with h | h
      · refine List.mem_append_left _ (List.mem_append_left _ (hmem _ ?_))
        exact List.mem_map.mpr ⟨_, h, Eq.refl _⟩
      · refine List.mem_append_left _ (List.mem_append_right _ (hmem _ ?_))
        split at h
        next j ok hl =>
          simp only [List.mem_singleton, Prod.mk.injEq] at h
          simp [hand, hl, h.1]
        next ok hl =>
          obtain ⟨j, hj, heq⟩ := List.mem_map.mp h
          simp only [Prod.mk.injEq] at heq
          rw [heq.1] at hj
          simp only [hand, hl]
          exact List.mem_append_left _ hj
        next => cases h
    · split at h
      next r' ok hread =>
        simp only [List.mem_singleton, Prod.mk.injEq] at h
        rw [← h.1] at hread
        exact hhand _ hread
      next => cases h
  · exact hhand phase hread

theorem take_parts (hs : s.Shape) (hidle : s.loop = .idle) (h : s.take = some t) :
    t.evicted = s.evicted ∧ t.evicting = s.evicting ∧ t.keys = s.keys ∧ t.sizes = s.sizes ∧
      (∀ j, t.Awaits j → s.Awaits j) ∧ ∀ r, t.Passed r → s.Passed r := by
  unfold Shape at hs
  rw [hidle] at hs
  obtain ⟨hrun, hread⟩ := hs
  unfold take at h
  cases htake : takeRead s.jobs with
  | some x =>
    obtain ⟨r, rest⟩ := x
    rw [htake] at h
    obtain rfl := Option.some.inj h
    refine ⟨Eq.refl _, Eq.refl _, Eq.refl _, Eq.refl _, fun j hj => ?_, fun i hi => ?_⟩
    · obtain ⟨hput, hj | ⟨-, w, hw⟩⟩ := hj
      · refine ⟨hput, Or.inl ?_⟩
        obtain ⟨-, before, after, hjobs, hrest, -⟩ := takeRead_some htake
        have hj : j ∈ rest := hj
        rw [hrest] at hj
        rw [hjobs]
        rcases List.mem_append.mp hj with hj | hj
        · exact List.mem_append_left _ hj
        · exact List.mem_append_right _ (List.mem_cons_of_mem _ hj)
      · cases hw
    · obtain ⟨hput, hi⟩ := hi
      exact ⟨hput, by simpa [results, hidle, hread] using hi⟩
  | none =>
    rw [htake] at h
    cases hjobs : s.jobs with
    | nil =>
      rw [hjobs] at h
      dsimp only at h
      split at h
      next =>
        obtain rfl := Option.some.inj h
        refine ⟨Eq.refl _, Eq.refl _, Eq.refl _, Eq.refl _, fun j hj => ?_, fun i hi => ?_⟩
        · obtain ⟨-, hj | ⟨-, w, hw⟩⟩ := hj
          · cases hj
          · cases hw
        · obtain ⟨hput, hi⟩ := hi
          exact ⟨hput, by simpa [results, hidle, hread] using hi⟩
      next => cases h
    | cons i rest =>
      rw [hjobs] at h
      obtain rfl := Option.some.inj h
      refine ⟨Eq.refl _, Eq.refl _, Eq.refl _, Eq.refl _, fun j hj => ?_, fun r hr => ?_⟩
      · obtain ⟨hput, hj | ⟨hj, -⟩⟩ := hj
        · exact ⟨hput, Or.inl (by rw [hjobs]; exact List.mem_cons_of_mem _ hj)⟩
        · simp only [Option.some.injEq] at hj
          rw [← hj] at hput ⊢
          exact ⟨hput, Or.inl (by rw [hjobs]; exact List.mem_cons_self)⟩
      · obtain ⟨hput, hr⟩ := hr
        exact ⟨hput, by simpa [results, hidle, hread] using hr⟩

theorem Barred.same (hb : s.Barred) (hevicted : t.evicted = s.evicted)
    (hevicting : t.evicting = s.evicting) (hkeys : t.keys = s.keys)
    (hsizes : ∀ k ∈ t.sizes, k ∈ s.sizes) (hawaits : ∀ j, t.Awaits j → s.Awaits j)
    (hpassed : ∀ r, t.Passed r → s.Passed r) : t.Barred :=
  hb.step (Nat.le_of_eq hkeys.symm) hevicted hevicting (fun k hk => Or.inl (hsizes k hk))
    (fun j hj => Or.inr ⟨j, hawaits j hj, Eq.refl _, id⟩) fun r hr => Or.inl (hpassed r hr)

theorem Barred.erase (hb : s.Barred) (hs : s.Lined) {key : Nat} (hkey : key ∈ s.evicting) :
    (s.erase key).Barred := by
  obtain ⟨hle, hall⟩ := hb.evicting key hkey
  have hfields : (s.erase key).evicted = (key, s.calls) :: s.evicted ∧
      (s.erase key).evicting = s.evicting.erase key ∧ (s.erase key).keys = s.keys ∧
      (∀ k ∈ (s.erase key).sizes, k ∈ s.sizes ∧ k ≠ key) ∧
      (∀ j, (s.erase key).Awaits j → s.Awaits j) ∧ ∀ r, (s.erase key).Passed r → s.Passed r := by
    unfold Store.erase
    split
    next =>
      refine ⟨Eq.refl _, Eq.refl _, Eq.refl _, fun k hk => ?_, fun j hj => hj, fun r hr => hr⟩
      have hk := Finset.mem_erase.mp hk
      exact ⟨hk.2, hk.1⟩
    next hnot =>
      refine ⟨Eq.refl _, Eq.refl _, Eq.refl _, fun k hk => ⟨hk, ?_⟩, fun j hj => hj, fun r hr => hr⟩
      rintro rfl
      exact hnot hk
  obtain ⟨hevicted, hevicting, hkeys, hsizes, hawaits, hpassed⟩ := hfields
  refine ⟨fun k n hk => ?_, fun k hk => ?_, fun k n r hk hr hrk => ?_⟩
  · rw [hevicted] at hk
    rw [hkeys]
    rcases List.mem_cons.mp hk with heq | hk
    · simp only [Prod.mk.injEq] at heq
      rw [heq.1]
      exact ⟨hle, fun hm => (hsizes _ hm).2 (Eq.refl _), fun j hj => hall j (hawaits j hj)⟩
    · obtain ⟨hle, hnot, hall⟩ := hb.evicted k n hk
      exact ⟨hle, fun hm => hnot (hsizes _ hm).1, fun j hj => hall j (hawaits j hj)⟩
  · rw [hevicting] at hk
    obtain ⟨hle, hall⟩ := hb.evicting k (List.mem_of_mem_erase hk)
    rw [hkeys]
    exact ⟨hle, fun j hj => hall j (hawaits j hj)⟩
  · rw [hevicted] at hk
    rcases List.mem_cons.mp hk with heq | hk
    · simp only [Prod.mk.injEq] at heq
      rw [heq.2]
      exact number_lt_of_passed hs (hpassed r hr)
    · exact hb.reads k n r hk (hpassed r hr) hrk

theorem Moved.barred (h : Moved s t) (hs : s.Lined) (hk : s.Kept) (hb : s.Barred) : t.Barred := by
  have hshape := hs.shape
  cases h with
  | called put claim key chunks hstop hput =>
    refine hb.same (Eq.refl _) (Eq.refl _) (Eq.refl _) (fun k hk => hk) (fun j hj => ?_)
      fun r hr => hr
    obtain ⟨hjput, hj | hj⟩ := hj
    · rcases List.mem_append.mp hj with hj | hj
      · exact ⟨hjput, Or.inl hj⟩
      · obtain rfl := List.mem_singleton.mp hj
        rw [hput] at hjput
        cases hjput
    · exact ⟨hjput, Or.inr hj⟩
  | put chunks =>
    refine hb.step (Nat.le_succ _) (Eq.refl _) (Eq.refl _) (fun k hk => Or.inl hk) (fun j hj => ?_)
      fun r hr => Or.inl hr
    obtain ⟨hjput, hj | hj⟩ := hj
    · rcases List.mem_append.mp hj with hj | hj
      · exact Or.inr ⟨j, ⟨hjput, Or.inl hj⟩, Eq.refl _, id⟩
      · obtain rfl := List.mem_singleton.mp hj
        exact Or.inl (Nat.lt_succ_self _)
    · exact Or.inr ⟨j, ⟨hjput, Or.inr hj⟩, Eq.refl _, id⟩
  | cancelled key => exact cancel_barred hb key
  | evicting key hstop hle =>
    have hcancel := cancel_barred hb key
    refine ⟨hcancel.evicted, fun k hkey => ?_, hcancel.reads⟩
    rcases List.mem_cons.mp hkey with rfl | hkey
    · refine ⟨?_, fun j hj => cancel_cancels hk hj⟩
      have hkeys := (cancel_fields s k).2.2.1
      show k ≤ (s.cancel k).keys
      rw [hkeys]
      exact hle
    · have hevicting := (cancel_fields s key).2.2.2.2.1
      exact hcancel.evicting k (by rw [hevicting]; exact hkey)
  | erased key hkey => exact hb.erase hs hkey
  | dropped key =>
    exact hb.same (Eq.refl _) (Eq.refl _) (Eq.refl _) (fun k hk => Finset.mem_of_mem_erase hk)
      (fun j hj => hj) fun r hr => hr
  | stopped =>
    refine hb.step (Nat.le_refl _) (Eq.refl _) (Eq.refl _) (fun k hk => Or.inl hk) (fun j hj => ?_)
      fun r hr => Or.inl hr
    obtain ⟨hjput, hj | hj⟩ := hj
    · obtain ⟨i, hi, rfl⟩ := List.mem_map.mp hj
      exact Or.inr ⟨i, ⟨hjput, Or.inl hi⟩, Eq.refl _, fun _ => by simp [Job.cancel]⟩
    · exact Or.inr ⟨j, ⟨hjput, Or.inr hj⟩, Eq.refl _, id⟩
  | took t hidle htake =>
    obtain ⟨hevicted, hevicting, hkeys, hsizes, hawaits, hpassed⟩ := take_parts hshape hidle htake
    exact hb.same hevicted hevicting hkeys (fun k hk => by rw [← hsizes]; exact hk) hawaits hpassed
  | wrote w j t hl hread hrun hw =>
    exact hw.barred hb hl hread hrun (hshape.put_of_writing hl hrun)
  | went r phase t hread hw => exact hw.barred hb hshape hread
  | cleared ok j hl hrun =>
    unfold Shape at hshape
    rw [hl] at hshape
    refine hb.same (Eq.refl _) (Eq.refl _) (Eq.refl _) (fun k hk => hk) (fun i hi => ?_)
      fun i hi => ?_
    · obtain ⟨hput, hi | ⟨hi, -⟩⟩ := hi
      · exact ⟨hput, Or.inl hi⟩
      · cases hi
    · obtain ⟨hput, hi⟩ := hi
      exact ⟨hput, by simpa [results, hl, hrun, hshape.2] using hi⟩
  | answered j ok hl =>
    refine hb.same (Eq.refl _) (Eq.refl _) (Eq.refl _) (fun k hk => hk) (fun i hi => ?_)
      fun i hi => ?_
    · obtain ⟨hput, hi | ⟨-, w, hw⟩⟩ := hi
      · exact ⟨hput, Or.inl hi⟩
      · cases hw
    · obtain ⟨hput, hi⟩ := hi
      exact ⟨hput, by simpa [results, hl] using hi⟩

end Store

/-- All that holds in every state reached. -/
structure Sound (s : Store) : Prop where
  lined : s.Lined
  kept : s.Kept
  settled : s.Settled
  barred : s.Barred

theorem sound {s : Store} (h : Reach machine s) : Sound s := by
  refine h.invariant Sound (fun s hs => ?_) fun s e t hs he => ?_
  · have hreach := Reach.start hs
    obtain ⟨hjobs, hrun, hloop, hread, -, -, -, -, -, -, -, hanswers, hevicting, hevicted, -⟩ := hs
    have hresults : s.results = [] := by simp [Store.results, hanswers, hloop, hread]
    refine ⟨lined hreach, kept hreach, ⟨by simp [hresults], by simp [hresults]⟩,
      ⟨by simp [hevicted], by simp [hevicting], by simp [hevicted]⟩⟩
  · have hmoved := Store.moved he
    exact ⟨hmoved.lined hs.lined, hmoved.kept hs.lined.shape hs.kept,
      hmoved.settled hs.lined.shape hs.kept hs.settled, hmoved.barred hs.lined hs.kept hs.barred⟩

/-- An entry evicted is gone for good: from every state after, it is in no record, no later read or
claim of it ends well, and a file of it is there only while its cancelled write, which put it there,
is about to take it away; with the thread between two jobs there is none. -/
theorem evicted_never_returns {s : Store} (h : Reach machine s) :
    ∀ k n, (k, n) ∈ s.evicted →
      k ∉ s.sizes ∧ k ∉ s.foreign ∧ k ∉ s.froms ∧
      (k ∈ s.kv → s.loop = .writing .placed ∧ ∃ j, s.running = some j ∧ j.key = k ∧
        j.cancelled = true) ∧
      (s.running = none → k ∉ s.kv ∧ k ∉ s.tmp) ∧
      ∀ r, (r, true) ∈ s.answers → r.put = false → r.key = k → r.number < n := by
  intro k n hk
  obtain ⟨hlined, hkept, -, hbarred⟩ := sound h
  obtain ⟨-, hnot, hall⟩ := hbarred.evicted k n hk
  have hfile : k ∈ s.kv → s.loop = .writing .placed ∧ ∃ j, s.running = some j ∧ j.key = k ∧
      j.cancelled = true := by
    intro hkv
    obtain ⟨hl, j, hj, hjk⟩ := ((hkept.kv k).mp hkv).resolve_left hnot
    have hput := hlined.shape.put_of_writing hl hj
    exact ⟨hl, j, hj, hjk, hall j ⟨hput, Or.inr ⟨hj, _, hl⟩⟩ hjk⟩
  refine ⟨hnot, fun hm => hnot (hkept.foreign k hm), fun hm => hnot (hkept.froms k hm), hfile,
    fun hnone => ?_, fun r hr hput hrk => ?_⟩
  · obtain ⟨hkv, htmp⟩ := hkept.files hnone
    rw [hkv, htmp]
    exact ⟨hnot, by simp⟩
  · refine hbarred.reads k n r hk ⟨hput, Or.inl ?_⟩ hrk
    exact List.mem_append_left _ (List.mem_append_left _ hr)

/-- An evict between the renaming of the entry's file and its recording. -/
theorem evicted_while_placed : ∃ s, Reach machine s ∧ (2, 1) ∈ s.evicted ∧
    2 ∉ s.sizes ∧ 2 ∉ s.kv ∧ 2 ∉ s.tmp := by
  obtain ⟨s, hs, hrun, hevicted⟩ : ∃ s, play machine adopting [.put 0, .take, .write true,
      .write true, .write true, .evict 2, .erase 2, .write true, .clear] = some s ∧
      s.running = none ∧ (2, 1) ∈ s.evicted :=
    ⟨_, Eq.refl _, Eq.refl _, List.mem_cons_self⟩
  have hreach := reach_of_play _ adopting_starts hs
  obtain ⟨hsizes, -, -, -, hfiles, -⟩ := evicted_never_returns hreach 2 1 hevicted
  exact ⟨s, hreach, hevicted, hsizes, hfiles hrun⟩

/-- With the thread between two jobs the entries recorded are the files in place, and nothing else
of an entry is there; a write answered well has its entry in place, unless it was removed since, and
one answered ill has left neither record nor file, for good. -/
theorem answered_writes_in_place {s : Store} (h : Reach machine s) :
    (s.running = none → s.kv = s.sizes ∧ s.tmp = ∅ ∧ s.foreign ⊆ s.sizes ∧ s.froms ⊆ s.sizes) ∧
      (∀ j, (j, true) ∈ s.answers → j.put = true →
        (j.key ∈ s.sizes ∧ j.key ∈ s.kv) ∨ j.key ∈ s.gone) ∧
      ∀ j, (j, false) ∈ s.answers → j.put = true → j.key ∉ s.sizes ∧ j.key ∉ s.kv := by
  obtain ⟨-, hkept, hsettled, -⟩ := sound h
  have hplacing : ∀ k, s.Placing k → k ∈ s.awaited := by
    rintro k ⟨hl, j, hj, hjk⟩
    simp [Store.awaited, Store.writingKey, hl, hj, hjk]
  have hresults : ∀ x ∈ s.answers, x ∈ s.results := fun x hx =>
    List.mem_append_left _ (List.mem_append_left _ hx)
  refine ⟨fun hnone => ?_, fun j hj hput => ?_, fun j hj hput => ?_⟩
  · obtain ⟨hkv, htmp⟩ := hkept.files hnone
    exact ⟨hkv, htmp, fun k hk => hkept.foreign k hk, fun k hk => hkept.froms k hk⟩
  · rcases hsettled.good j (hresults _ hj) hput with hk | hk
    · exact Or.inl ⟨hk, (hkept.kv _).mpr (Or.inl hk)⟩
    · exact Or.inr hk
  · obtain ⟨-, hsizes, haw⟩ := hsettled.bad j (hresults _ hj) hput
    refine ⟨hsizes, fun hk => ?_⟩
    exact ((hkept.kv _).mp hk).elim hsizes fun hp => haw (hplacing _ hp)

theorem answered_write_in_place : ∃ s, Reach machine s ∧
    s.answers.map (fun x => (x.1.key, x.2)) = [(2, true)] ∧ s.kv = s.sizes ∧ s.tmp = ∅ := by
  obtain ⟨s, hs, hrun, hanswers⟩ : ∃ s, play machine adopting [.put 1, .take, .write true,
      .write true, .write true, .write true, .write true, .write true, .clear, .answer] = some s ∧
      s.running = none ∧ s.answers.map (fun x => (x.1.key, x.2)) = [(2, true)] :=
    ⟨_, Eq.refl _, Eq.refl _, Eq.refl _⟩
  have hreach := reach_of_play _ adopting_starts hs
  have hfiles := (answered_writes_in_place hreach).1 hrun
  exact ⟨s, hreach, hanswers, hfiles.1, hfiles.2.1⟩

end DiskJobs

end Llmx
