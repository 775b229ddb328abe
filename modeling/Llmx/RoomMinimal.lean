import Llmx.RoomSound

namespace Llmx

/-- More victims never free fewer blocks. -/
def GainGrows (gain : Gain) : Prop :=
  ∀ v w : Victims, v.Within w → ∀ s, frees gain v s ≤ frees gain w s

/-- Requests paused with the donors their histories become, where anything of them is kept. -/
def pausedWhole (active : List Holder) (is : List Nat) : List (Nat × Bool) :=
  is.map fun i => (i, !keepsNothing active i)

/-- No donor of a plan may stay: without it some pool has fewer blocks freed. -/
def DonorNeeded (gain : Gain) (t : Taken) (i : Nat) : Prop :=
  ∃ s, frees gain ⟨t.donors.eraseIdx i, t.paused⟩ s < frees gain t.toVictims s

theorem Covers.of_within {free need : List Nat} {gain : Gain} (hm : GainGrows gain)
    {v w : Victims} (h : Covers free need gain v) (hvw : v.Within w) :
    Covers free need gain w := by
  intro s hs
  have hv := h s hs
  have hgrow := hm v w hvw s
  omega

theorem within_of_subset {donors donors' : List Nat} {paused : List (Nat × Bool)}
    (h : donors ⊆ donors') : Victims.Within ⟨donors, paused⟩ ⟨donors', paused⟩ :=
  ⟨fun _ hd => h hd, fun _ hp => Or.inl hp⟩

theorem eraseIdx_eraseIdx_of_le {l : List Nat} {i j : Nat} (h : i ≤ j) :
    (l.eraseIdx i).eraseIdx j = (l.eraseIdx (j + 1)).eraseIdx i := by
  induction l generalizing i j with
  | nil => simp
  | cons d l ih =>
    cases i with
    | zero => simp
    | succ i =>
      cases j with
      | zero => exact absurd h (Nat.not_succ_le_zero i)
      | succ j => simpa using ih (Nat.le_of_succ_le_succ h)

section

variable {free need : List Nat} {gain : Gain}

theorem donorNeeded_of_not_same (hm : GainGrows gain) {t : Taken} {i : Nat}
    (h : sameGain (gained need gain { t.toVictims with donors := t.donors.eraseIdx i })
      (gained need gain t.toVictims) ≠ true) : DonorNeeded gain t i := by
  by_contra hno
  apply h
  apply sameGain_iff.mpr
  intro s
  have hle := hm ⟨t.donors.eraseIdx i, t.paused⟩ t.toVictims
    (within_of_subset (List.eraseIdx_sublist _ _).subset) s
  have hge : ¬frees gain ⟨t.donors.eraseIdx i, t.paused⟩ s < frees gain t.toVictims s :=
    fun hlt => hno ⟨s, hlt⟩
  simp only [getD_gained]
  omega

/-- Where dropping a donor before it frees as much, a needed donor stays needed. -/
theorem DonorNeeded.eraseIdx (hm : GainGrows gain) {t : Taken} {i j : Nat} (hij : i ≤ j)
    (hsame : ∀ s, frees gain ⟨t.donors.eraseIdx i, t.paused⟩ s = frees gain t.toVictims s)
    (h : DonorNeeded gain t (j + 1)) :
    DonorNeeded gain { t with toVictims := { t.toVictims with donors := t.donors.eraseIdx i } }
      j := by
  obtain ⟨s, hs⟩ := h
  refine ⟨s, ?_⟩
  have hsub : (t.donors.eraseIdx i).eraseIdx j ⊆ t.donors.eraseIdx (j + 1) := by
    rw [eraseIdx_eraseIdx_of_le hij]
    exact (List.eraseIdx_sublist _ _).subset
  have hle := hm ⟨(t.donors.eraseIdx i).eraseIdx j, t.paused⟩ ⟨t.donors.eraseIdx (j + 1), t.paused⟩
    (within_of_subset hsub) s
  have heq := hsame s
  dsimp only at hle heq ⊢
  omega

/-- Every donor the backward pass leaves is needed. -/
theorem giveBackDonors_needed (need : List Nat) (hm : GainGrows gain) (i : Nat) (t : Taken)
    (h : ∀ j, i ≤ j → j < t.donors.length → DonorNeeded gain t j) :
    ∀ j < (giveBackDonors need gain i t).donors.length,
      DonorNeeded gain (giveBackDonors need gain i t) j := by
  induction i generalizing t with
  | zero => exact fun j hj => h j (Nat.zero_le j) hj
  | succ i ih =>
    simp only [giveBackDonors]
    split
    next hsame =>
      apply ih
      intro j hij hj
      have hfrees : ∀ s, frees gain ⟨t.donors.eraseIdx i, t.paused⟩ s =
          frees gain t.toVictims s := by
        intro s
        have hs := sameGain_iff.mp hsame s
        simpa only [getD_gained] using hs
      have hlen : (t.donors.eraseIdx i).length = _ := List.length_eraseIdx
      have hjlt : j < (t.donors.eraseIdx i).length := hj
      apply (h (j + 1) (by omega) ?_).eraseIdx hm hij hfrees
      split at hlen <;> omega
    next hsame =>
      apply ih
      intro j hij hj
      rcases Nat.eq_or_lt_of_le hij with rfl | hlt
      · exact donorNeeded_of_not_same hm hsame
      · exact h j hlt hj

/-- Requests are paused from the first one on, and no further than it takes. -/
theorem pauseLater_shortest (active : List Holder) (later : List Nat) (t : Taken)
    (h : Asked free need gain t) :
    ∃ k ≤ later.length, ∃ used : List (Nat × Bool),
      (pauseLater free need gain active later t).paused = t.paused ++ used ∧
      used.map Prod.fst = later.take k ∧
      (∀ a ∈ used, a.2 = true → keepsNothing active a.1 = false) ∧
      ∀ j < k, fits free need gain
        ⟨t.donors, t.paused ++ pausedWhole active (later.take j)⟩ = false := by
  induction later generalizing t with
  | nil => exact ⟨0, Nat.le_refl 0, [], by simp [pauseLater], by simp, by simp, by simp⟩
  | cons i later ih =>
    by_cases hen : t.enough = true
    · refine ⟨0, Nat.zero_le _, [], ?_, by simp, by simp, by simp⟩
      simp [pauseLater_of_enough _ hen]
    have hshort : fits free need gain t.toVictims = false := by
      have hask : t.enough = fits free need gain t.toVictims := h
      rw [← hask]
      simpa using hen
    have hfirst : ∀ (b : Bool) (t1 : Taken), Asked free need gain t1 → t1.donors = t.donors →
        t1.paused = t.paused ++ [(i, b)] → (b = true → keepsNothing active i = false) →
        (t1.enough = false → b = !keepsNothing active i) →
        ∃ k ≤ (i :: later).length, ∃ used : List (Nat × Bool),
          (pauseLater free need gain active later t1).paused = t.paused ++ used ∧
          used.map Prod.fst = (i :: later).take k ∧
          (∀ a ∈ used, a.2 = true → keepsNothing active a.1 = false) ∧
          ∀ j < k, fits free need gain
            ⟨t.donors, t.paused ++ pausedWhole active ((i :: later).take j)⟩ = false := by
      intro b t1 hask hdonors hpaused hb hall
      by_cases hen1 : t1.enough = true
      · refine ⟨1, by simp, [(i, b)], ?_, by simp, by simpa using hb, ?_⟩
        · rw [pauseLater_of_enough _ hen1, hpaused]
        · intro j hj
          obtain rfl : j = 0 := by omega
          simpa [pausedWhole] using hshort
      · obtain ⟨k, hk, used, hused, hfst, hflags, hbefore⟩ := ih t1 hask
        refine ⟨k + 1, by simpa using hk, (i, b) :: used, ?_, by simp [hfst], ?_, ?_⟩
        · rw [hused, hpaused, List.append_assoc, List.singleton_append]
        · intro a ha
          rcases List.mem_cons.mp ha with rfl | ha
          · exact hb
          · exact hflags a ha
        · intro j hj
          cases j with
          | zero => simpa [pausedWhole] using hshort
          | succ j =>
            have hrest := hbefore j (by omega)
            have hflag := hall (by simpa using hen1)
            rw [hdonors, hpaused, hflag, List.append_assoc, List.singleton_append] at hrest
            exact hrest
    simp only [pauseLater]
    rw [if_neg hen]
    split
    next hk =>
      refine hfirst false _ (asked_ask _ _) rfl rfl (by simp) ?_
      intro hno
      rw [hno, Bool.false_or] at hk
      have hnothing : keepsNothing active i = true := hk
      rw [hnothing]
      rfl
    next hk =>
      rw [Bool.or_eq_true, not_or] at hk
      have hsome : keepsNothing active i = false := by
        have hnot : ¬keepsNothing active i = true := hk.2
        simpa using hnot
      refine hfirst true _ (asked_ask _ _) rfl rfl (fun _ => hsome) ?_
      intro _
      rw [hsome]
      rfl

/-- A plan waits exactly where a request it pauses is in flight. -/
def WaitsRight (active : List Holder) (t : Taken) : Prop :=
  t.wait = true ↔ ∃ a ∈ t.paused, (active.getD a.1 ⟨0, false, [], false⟩).flying = true

theorem pauseLater_waits (active : List Holder) (later : List Nat) (t : Taken)
    (h : WaitsRight active t) :
    WaitsRight active (pauseLater free need gain active later t) := by
  induction later generalizing t with
  | nil => exact h
  | cons i later ih =>
    have hnext : ∀ b, ((t.wait || (active.getD i ⟨0, false, [], false⟩).flying) = true ↔
        ∃ a ∈ t.paused ++ [(i, b)],
          (active.getD a.1 ⟨0, false, [], false⟩).flying = true) := by
      intro b
      have hiff : t.wait = true ↔ _ := h
      simp only [Bool.or_eq_true, hiff, List.mem_append, List.mem_singleton, or_and_right,
        exists_or, exists_eq_left]
    simp only [pauseLater]
    split
    · exact h
    · split
      · exact ih _ (hnext false)
      · exact ih _ (hnext true)

end

theorem donorOrder_within (order : List Nat) (keep : Nat) (keepFirst : Bool)
    (paused : List (Nat × Bool)) :
    Victims.Within ⟨donorOrder order keep keepFirst, paused⟩ ⟨order, paused⟩ ∧
      Victims.Within ⟨order, paused⟩ ⟨donorOrder order keep keepFirst, paused⟩ :=
  ⟨within_of_subset fun _ hd => mem_donorOrder.mp hd,
    within_of_subset fun _ hd => mem_donorOrder.mpr hd⟩

/-- The requests gathered are the fewest that suffice with all donors. -/
theorem gathered_shortest (later free order : List Nat) (keep : Nat) (keepFirst : Bool)
    (active : List Holder) (preempt : Bool) (need : List Nat) {gain : Gain}
    (hm : GainGrows gain) :
    let t := gathered later free order keep keepFirst active preempt need gain
    ∃ k ≤ later.length, t.paused.map Prod.fst = later.take k ∧
      (t.enough = true → Covers free need gain ⟨order, pausedWhole active (later.take k)⟩) ∧
      ∀ j < k, ¬Covers free need gain ⟨order, pausedWhole active (later.take j)⟩ := by
  obtain ⟨ha, hp, -, used, hu, hd, hall⟩ := takeDonors_spec free need gain
    (donorOrder order keep keepFirst)
    ⟨⟨[], []⟩, fits free need gain ⟨[], []⟩, false⟩ rfl
  simp only [gathered]
  generalize takeDonors free need gain (donorOrder order keep keepFirst)
    ⟨⟨[], []⟩, fits free need gain ⟨[], []⟩, false⟩ = t at *
  simp only [List.nil_append] at hd hp
  have hsub : t.donors ⊆ order := by
    intro d hmem
    rw [hd] at hmem
    exact mem_donorOrder.mp (hu.subset hmem)
  split
  next hpre =>
    obtain ⟨-, hshort⟩ := Bool.and_eq_true_iff.mp hpre
    have hdonors : t.donors = donorOrder order keep keepFirst := by
      rw [hd, hall (by simpa using hshort)]
    obtain ⟨ha', hd', -⟩ := pauseLater_spec active later t ha
    obtain ⟨k, hk, flags, hflags, hfst, hwhole, hbefore⟩ := pauseLater_shortest active later t ha
    rw [hp, List.nil_append] at hflags
    refine ⟨k, hk, by rw [hflags, hfst], ?_, ?_⟩
    · intro hen
      have hask : (pauseLater free need gain active later t).enough = _ := ha'
      have hcov := fits_iff.mp (hask.symm.trans hen)
      apply hcov.of_within hm
      refine ⟨fun d hmem => hsub (hd' ▸ hmem), ?_⟩
      intro a hmem
      have hmem' : a ∈ flags := hflags ▸ hmem
      have hin : (a.1, !keepsNothing active a.1) ∈ pausedWhole active (later.take k) := by
        apply List.mem_map_of_mem
        rw [← hfst]
        exact List.mem_map_of_mem hmem'
      obtain ⟨i, b⟩ := a
      cases b with
      | true =>
        rw [hwhole (i, true) hmem' rfl] at hin
        exact Or.inl hin
      | false =>
        cases hnothing : keepsNothing active i with
        | true => rw [hnothing] at hin; exact Or.inl hin
        | false => rw [hnothing] at hin; exact Or.inr hin
    · intro j hj hcov
      have hno := hbefore j hj
      rw [hp, List.nil_append, hdonors] at hno
      have hyes := fits_iff.mpr (hcov.of_within hm (donorOrder_within order keep keepFirst _).2)
      rw [hno] at hyes
      exact Bool.noConfusion hyes
  next hpre =>
    refine ⟨0, Nat.zero_le _, by simp [hp], ?_, fun j hj => absurd hj (Nat.not_lt_zero j)⟩
    intro hen
    have hask : t.enough = _ := ha
    have hcov := fits_iff.mp (hask.symm.trans hen)
    apply hcov.of_within hm
    exact ⟨fun d hmem => hsub hmem, by simp [hp]⟩

theorem gathered_waits (later free order : List Nat) (keep : Nat) (keepFirst : Bool)
    (active : List Holder) (preempt : Bool) (need : List Nat) (gain : Gain) :
    WaitsRight active (gathered later free order keep keepFirst active preempt need gain) := by
  obtain ⟨-, hp, hw, -⟩ := takeDonors_spec free need gain (donorOrder order keep keepFirst)
    ⟨⟨[], []⟩, fits free need gain ⟨[], []⟩, false⟩ rfl
  have hfirst : WaitsRight active (takeDonors free need gain (donorOrder order keep keepFirst)
      ⟨⟨[], []⟩, fits free need gain ⟨[], []⟩, false⟩) := by
    unfold WaitsRight
    simp [hp, hw]
  simp only [gathered]
  split
  · exact pauseLater_waits active later _ hfirst
  · exact hfirst

/-- A plan takes no more than it must and in order, whatever order equal admissions are sorted
in. -/
theorem makeRoom_takes_no_more {active : List Holder} {after : Nat} {later : List Nat}
    (hl : LatestFirst active after later) (free order : List Nat) (keep : Nat) (keepFirst : Bool)
    (preempt : Bool) (need : List Nat) {gain : Gain} (hm : GainGrows gain) :
    let t := makeRoomBy later free order keep keepFirst active preempt need gain
    (t.enough = true → ∀ i < t.donors.length, DonorNeeded gain t i) ∧
    (t.enough = true → ∃ k ≤ later.length, t.paused.map Prod.fst = later.take k ∧
      Covers free need gain ⟨order, pausedWhole active (later.take k)⟩ ∧
      ∀ j < k, ¬Covers free need gain ⟨order, pausedWhole active (later.take j)⟩) ∧
    (∀ a ∈ t.paused, (active.getD a.1 ⟨0, false, [], false⟩).uncapped = true ∧
      after < (active.getD a.1 ⟨0, false, [], false⟩).admission) ∧
    (Covers free need gain ⟨order, []⟩ → t.paused = []) ∧
    (t.wait = true ↔
      ∃ a ∈ t.paused, (active.getD a.1 ⟨0, false, [], false⟩).flying = true) := by
  have hpausable := (makeRoomBy_paused later free order keep keepFirst active preempt need gain).1
  have hshortest := gathered_shortest later free order keep keepFirst active preempt need hm
  have hwaits := gathered_waits later free order keep keepFirst active preempt need gain
  simp only [makeRoomBy_eq] at hpausable ⊢
  generalize gathered later free order keep keepFirst active preempt need gain = t at *
  obtain ⟨he, hw, hpaused, -⟩ := giveBackDonors_spec need gain t.donors.length t
  obtain ⟨k, hk, htake, hcov, hbefore⟩ := hshortest
  refine ⟨?_, ?_, ?_, ?_, ?_⟩
  · split
    next =>
      intro _
      apply giveBackDonors_needed need hm
      intro j hj hj'
      omega
    next => exact fun hno => Bool.noConfusion hno
  · split
    next hyes =>
      intro _
      rw [hpaused]
      exact ⟨k, hk, htake, hcov hyes, hbefore⟩
    next => exact fun hno => Bool.noConfusion hno
  · intro a ha
    have hmem := hl.1.mem_iff.mp (hpausable.subset (List.mem_map_of_mem ha))
    have hboth := (List.mem_filter.mp hmem).2
    simpa using hboth
  · intro hall
    split
    next =>
      rw [hpaused]
      cases k with
      | zero => simpa using htake
      | succ k => exact absurd hall (hbefore 0 (by omega))
    next => rfl
  · split
    next =>
      rw [hw, hpaused]
      exact hwaits
    next => simp

theorem sharedPrefixGain_grows : GainGrows sharedPrefixGain :=
  fun _ _ h => frees_mono (sharedPrefixGain_monotone []) h

theorem makeRoom_takes_no_more_than_both_forks :
    DonorNeeded sharedPrefixGain
        (makeRoom [1] [2, 0, 1] 0 false [⟨3, true, [1], false⟩] 2 true [5] sharedPrefixGain) 0 ∧
      DonorNeeded sharedPrefixGain
        (makeRoom [1] [2, 0, 1] 0 false [⟨3, true, [1], false⟩] 2 true [5] sharedPrefixGain) 1 := by
  have hneeded := (makeRoom_takes_no_more (latestFirst_spec [⟨3, true, [1], false⟩] 2) [1]
    [2, 0, 1] 0 false true [5] sharedPrefixGain_grows).1 (by decide)
  exact ⟨hneeded 0 (by decide), hneeded 1 (by decide)⟩

end Llmx
