import Llmx.RoomPlan

namespace Llmx

/-- The blocks of pool `s` that dropping `v` frees; dropping nothing frees nothing. -/
def frees (gain : Gain) (v : Victims) (s : Nat) : Nat :=
  if v.donors = [] ∧ v.paused = [] then 0 else (gain v).getD s 0

def Covers (free need : List Nat) (gain : Gain) (v : Victims) : Prop :=
  ∀ s < need.length, need.getD s 0 ≤ free.getD s 0 + frees gain v s

/-- Every victim of `v` is one of `w`, a paused request there perhaps with its donor too. -/
def Victims.Within (v w : Victims) : Prop :=
  (∀ d ∈ v.donors, d ∈ w.donors) ∧ ∀ p ∈ v.paused, p ∈ w.paused ∨ (p.1, true) ∈ w.paused

/-- Nothing of request `i` would be kept once it is paused. -/
def keepsNothing (active : List Holder) (i : Nat) : Bool :=
  (active.getD i ⟨0, false, [], false⟩).kept.all (· == 0)

/-- More victims never free fewer blocks, and a request that keeps nothing frees the same with
its donor as without. -/
structure MonotoneGain (active : List Holder) (gain : Gain) : Prop where
  mono : ∀ v w : Victims, v.Within w → ∀ s, (gain v).getD s 0 ≤ (gain w).getD s 0
  keeps_nothing : ∀ donors p q i, keepsNothing active i = true → ∀ s,
    (gain ⟨donors, p ++ (i, false) :: q⟩).getD s 0 = (gain ⟨donors, p ++ (i, true) :: q⟩).getD s 0

theorem getD_gained (need : List Nat) (gain : Gain) (v : Victims) (s : Nat) :
    (gained need gain v).getD s 0 = frees gain v s := by
  unfold gained frees Victims.empty
  by_cases h : v.donors = [] ∧ v.paused = []
  · simp [h, List.getD_eq_getElem?_getD, List.getElem?_replicate]
    split <;> rfl
  · rw [if_neg h, if_neg (by simpa using h)]

theorem fits_iff {free need : List Nat} {gain : Gain} {v : Victims} :
    fits free need gain v = true ↔ Covers free need gain v := by
  simp [fits, Covers, ← getD_gained need]

theorem sameGain_iff {a b : List Nat} : sameGain a b = true ↔ ∀ s, a.getD s 0 = b.getD s 0 := by
  simp only [sameGain, List.all_eq_true, List.mem_range, beq_iff_eq]
  refine ⟨fun h s => ?_, fun h s _ => h s⟩
  by_cases hs : s < max a.length b.length
  · exact h s hs
  · have ha : a.length ≤ s := by omega
    have hb : b.length ≤ s := by omega
    simp [List.getD_eq_getElem?_getD, List.getElem?_eq_none ha, List.getElem?_eq_none hb]

/-- Nothing lies within no victims but none. -/
theorem Victims.Within.empty {v w : Victims} (h : v.Within w)
    (hw : w.donors = [] ∧ w.paused = []) : v.donors = [] ∧ v.paused = [] := by
  obtain ⟨hd, hp⟩ := hw
  refine ⟨List.eq_nil_iff_forall_not_mem.mpr fun d hd' => ?_,
    List.eq_nil_iff_forall_not_mem.mpr fun p hp' => ?_⟩
  · simpa [hd] using h.1 d hd'
  · simpa [hp] using h.2 p hp'

theorem frees_mono {active : List Holder} {gain : Gain} (h : MonotoneGain active gain)
    {v w : Victims} (hvw : v.Within w) (s : Nat) : frees gain v s ≤ frees gain w s := by
  unfold frees
  split
  · exact Nat.zero_le _
  next hv =>
    rw [if_neg fun hw => hv (hvw.empty hw)]
    exact h.mono v w hvw s

/-- Requests that keep nothing may be paused with their donors as well. -/
theorem frees_with_donors {active : List Holder} {gain : Gain} (h : MonotoneGain active gain)
    (donors : List Nat) (p q : List (Nat × Bool))
    (hq : ∀ a ∈ q, a.2 = true ∨ keepsNothing active a.1 = true) (s : Nat) :
    frees gain ⟨donors, p ++ q⟩ s = frees gain ⟨donors, p ++ q.map fun a => (a.1, true)⟩ s := by
  induction q generalizing p with
  | nil => rfl
  | cons a q ih =>
    have hrest := ih (p ++ [(a.1, true)]) (fun b hb => hq b (by simp [hb]))
    simp only [List.append_assoc, List.singleton_append] at hrest
    rw [List.map_cons, ← hrest]
    obtain ⟨i, b⟩ := a
    cases b with
    | true => rfl
    | false =>
      have hk : keepsNothing active i = true := by simpa using hq (i, false) (by simp)
      simpa [frees] using h.keeps_nothing donors p q i hk s

section

variable {free need : List Nat} {gain : Gain}

/-- The plan says whether its victims are enough. -/
def Asked (free need : List Nat) (gain : Gain) (t : Taken) : Prop :=
  t.enough = fits free need gain t.toVictims

theorem asked_ask (t : Taken) (v : Victims) : Asked free need gain (t.ask free need gain v) := rfl

theorem takeDonors_spec (free need : List Nat) (gain : Gain) (victims : List Nat) (t : Taken)
    (h : Asked free need gain t) :
    Asked free need gain (takeDonors free need gain victims t) ∧
      (takeDonors free need gain victims t).paused = t.paused ∧
      (takeDonors free need gain victims t).wait = t.wait ∧
      ∃ used, used <+: victims ∧
        (takeDonors free need gain victims t).donors = t.donors ++ used ∧
        ((takeDonors free need gain victims t).enough = false → used = victims) := by
  induction victims generalizing t with
  | nil => exact ⟨h, rfl, rfl, [], List.prefix_refl _, by simp [takeDonors], fun _ => rfl⟩
  | cons d victims ih =>
    simp only [takeDonors]
    split
    next he => exact ⟨h, rfl, rfl, [], List.nil_prefix, by simp, by simp [he]⟩
    next he =>
      obtain ⟨h1, h2, h3, used, hu, hd, hall⟩ := ih (t.ask free need gain
        { t.toVictims with donors := t.donors ++ [d] }) (asked_ask _ _)
      refine ⟨h1, h2, h3, d :: used, (List.cons_prefix_cons).mpr ⟨rfl, hu⟩, ?_, ?_⟩
      · simpa [Taken.ask] using hd
      · intro hn
        rw [hall hn]

/-- A plan `t'` that pauses requests of `later` on top of `t`: an initial part of them, and all of
them, with every donor there is, where it is still not enough. -/
structure PausedFrom (free need : List Nat) (gain : Gain) (active : List Holder) (later : List Nat)
    (t t' : Taken) : Prop where
  asked : Asked free need gain t'
  donors : t'.donors = t.donors
  paused : ∃ used : List (Nat × Bool), used.map Prod.fst <+: later ∧
    t'.paused = t.paused ++ used ∧
    (t'.enough = false →
      used.map Prod.fst = later ∧ ∀ a ∈ used, a.2 = true ∨ keepsNothing active a.1 = true)

theorem pauseLater_of_enough {active : List Holder} {t : Taken} (later : List Nat)
    (h : t.enough = true) : pauseLater free need gain active later t = t := by
  cases later with
  | nil => rfl
  | cons i later => simp [pauseLater, h]

theorem PausedFrom.cons {active : List Holder} {i : Nat} {b : Bool} {later : List Nat}
    {t t1 : Taken} (h : PausedFrom free need gain active later t1
      (pauseLater free need gain active later t1))
    (hd : t1.donors = t.donors) (hp : t1.paused = t.paused ++ [(i, b)])
    (hb : t1.enough = false → b = true ∨ keepsNothing active i = true) :
    PausedFrom free need gain active (i :: later) t
      (pauseLater free need gain active later t1) := by
  obtain ⟨used, hu, hpd, hall⟩ := h.paused
  refine ⟨h.asked, h.donors.trans hd, (i, b) :: used, ?_, by simp [hpd, hp], ?_⟩
  · exact (List.cons_prefix_cons).mpr ⟨rfl, hu⟩
  · intro hn
    obtain ⟨hf, hk⟩ := hall hn
    refine ⟨by simp [hf], fun a ha => ?_⟩
    rcases List.mem_cons.mp ha with rfl | ha
    · apply hb
      by_contra hyes
      have hen : t1.enough = true := by simpa using hyes
      rw [pauseLater_of_enough later hen, hen] at hn
      exact Bool.noConfusion hn
    · exact hk a ha

theorem pauseLater_spec (active : List Holder) (later : List Nat) (t : Taken)
    (h : Asked free need gain t) :
    PausedFrom free need gain active later t (pauseLater free need gain active later t) := by
  induction later generalizing t with
  | nil => exact ⟨h, rfl, [], List.prefix_refl _, by simp [pauseLater], fun _ => ⟨rfl, by simp⟩⟩
  | cons i later ih =>
    simp only [pauseLater]
    split
    next he => exact ⟨h, rfl, [], List.nil_prefix, by simp, by simp [he]⟩
    next =>
      split
      next hk =>
        refine (ih _ (asked_ask _ _)).cons (b := false) rfl rfl (fun hn => Or.inr ?_)
        rw [hn, Bool.false_or] at hk
        exact hk
      next => exact (ih _ (asked_ask _ _)).cons (b := true) rfl rfl (fun _ => Or.inl rfl)

/-- The final pass frees what it found freed. -/
theorem giveBackDonors_spec (need : List Nat) (gain : Gain) (i : Nat) (t : Taken) :
    (giveBackDonors need gain i t).enough = t.enough ∧
      (giveBackDonors need gain i t).wait = t.wait ∧
      (giveBackDonors need gain i t).paused = t.paused ∧
      (giveBackDonors need gain i t).donors.Sublist t.donors ∧
      ∀ s, frees gain (giveBackDonors need gain i t).toVictims s = frees gain t.toVictims s := by
  induction i generalizing t with
  | zero => exact ⟨rfl, rfl, rfl, List.Sublist.refl _, fun _ => rfl⟩
  | succ i ih =>
    simp only [giveBackDonors]
    split
    next hsame =>
      obtain ⟨h1, h2, h3, h4, h5⟩ := ih
        { t with toVictims := { t.toVictims with donors := t.donors.eraseIdx i } }
      refine ⟨h1, h2, h3, h4.trans (List.eraseIdx_sublist _ _), fun s => ?_⟩
      have hs := sameGain_iff.mp hsame s
      rw [getD_gained, getD_gained] at hs
      exact (h5 s).trans hs
    next => exact ih t

end

theorem mem_donorOrder {order : List Nat} {keep d : Nat} {keepFirst : Bool} :
    d ∈ donorOrder order keep keepFirst ↔ d ∈ order := by
  unfold donorOrder
  by_cases hk : keep ∈ order <;> cases keepFirst <;> by_cases hd : d = keep <;>
    simp [hk, hd]

/-- Every victim a plan may take: all donors and, with `preempt`, every uncapped request admitted
after `after`, its donor included. -/
def allowed (order : List Nat) (active : List Holder) (after : Nat) (preempt : Bool) : Victims :=
  ⟨order, if preempt then (pausable active after).map fun i => (i, true) else []⟩

/-- The plan before the donors that free nothing go back. -/
def gathered (later free order : List Nat) (keep : Nat) (keepFirst : Bool) (active : List Holder)
    (preempt : Bool) (need : List Nat) (gain : Gain) : Taken :=
  let t := takeDonors free need gain (donorOrder order keep keepFirst)
    ⟨⟨[], []⟩, fits free need gain ⟨[], []⟩, false⟩
  if preempt && !t.enough then pauseLater free need gain active later t else t

theorem makeRoomBy_eq (later free order : List Nat) (keep : Nat) (keepFirst : Bool)
    (active : List Holder) (preempt : Bool) (need : List Nat) (gain : Gain) :
    makeRoomBy later free order keep keepFirst active preempt need gain =
      let t := gathered later free order keep keepFirst active preempt need gain
      if t.enough then giveBackDonors need gain t.donors.length t
      else ⟨⟨[], []⟩, false, false⟩ := rfl

/-- The victims gathered are allowed ones, and every allowed one frees no more than they do where
they are not enough. -/
theorem gathered_spec {active : List Holder} {after : Nat} {later : List Nat}
    (hl : LatestFirst active after later) (free order : List Nat) (keep : Nat) (keepFirst : Bool)
    (preempt : Bool) (need : List Nat) (gain : Gain) :
    let t := gathered later free order keep keepFirst active preempt need gain
    Asked free need gain t ∧ t.toVictims.Within (allowed order active after preempt) ∧
      (t.enough = false → MonotoneGain active gain → ∀ s,
        frees gain (allowed order active after preempt) s ≤ frees gain t.toVictims s) := by
  have hmem : ∀ i, i ∈ later ↔ i ∈ pausable active after := fun i => hl.1.mem_iff
  obtain ⟨ha, hp, -, used, hu, hd, hall⟩ := takeDonors_spec free need gain
    (donorOrder order keep keepFirst)
    ⟨⟨[], []⟩, fits free need gain ⟨[], []⟩, false⟩ rfl
  simp only [gathered]
  generalize takeDonors free need gain (donorOrder order keep keepFirst)
    ⟨⟨[], []⟩, fits free need gain ⟨[], []⟩, false⟩ = t at *
  simp only [List.nil_append] at hd hp
  have hdon : ∀ d ∈ t.donors, d ∈ order := by
    intro d hd'
    rw [hd] at hd'
    exact mem_donorOrder.mp (hu.subset hd')
  split
  next hpre =>
    obtain ⟨hpreempt, hshort⟩ := Bool.and_eq_true_iff.mp hpre
    obtain ⟨ha', hd', flags, hf, hpf, hall'⟩ := pauseLater_spec active later t ha
    have hused : used = donorOrder order keep keepFirst := hall (by simpa using hshort)
    rw [hp, List.nil_append] at hpf
    refine ⟨ha', ⟨fun d h => hdon d (hd' ▸ h), ?_⟩, ?_⟩
    · intro a ha2
      right
      rw [hpf] at ha2
      have := (hmem a.1).mp (hf.subset (List.mem_map_of_mem ha2))
      simpa [allowed, hpreempt] using this
    · intro hn hm s
      obtain ⟨hmap, hk⟩ := hall' hn
      have hfull := frees_with_donors hm
        (pauseLater free need gain active later t).donors [] flags hk s
      simp only [List.nil_append] at hfull
      have hv : (pauseLater free need gain active later t).toVictims =
          ⟨(pauseLater free need gain active later t).donors, flags⟩ := by
        rw [← hpf]
      rw [hv, hfull]
      refine frees_mono hm ⟨?_, ?_⟩ s
      · intro d hdo
        rw [hd', hd, hused]
        exact mem_donorOrder.mpr hdo
      · intro a ha2
        left
        simp only [allowed, hpreempt, ↓reduceIte, List.mem_map] at ha2 ⊢
        obtain ⟨i, hi, rfl⟩ := ha2
        have hi' : i ∈ flags.map Prod.fst := hmap ▸ (hmem i).mpr hi
        obtain ⟨b, hb, rfl⟩ := List.mem_map.mp hi'
        exact ⟨b, hb, rfl⟩
  next hpre =>
    refine ⟨ha, ⟨hdon, by simp [hp]⟩, ?_⟩
    intro hn hm s
    have hpreempt : preempt = false := by simpa [hn] using hpre
    refine frees_mono hm ⟨?_, by simp [allowed, hpreempt]⟩ s
    intro d hdo
    rw [hd, hall hn]
    exact mem_donorOrder.mpr hdo

theorem pauseLater_wait {free need : List Nat} {gain : Gain} (active : List Holder)
    (later : List Nat) (t : Taken)
    (h : ∀ a ∈ t.paused, (active.getD a.1 ⟨0, false, [], false⟩).flying = true → t.wait = true) :
    ∀ a ∈ (pauseLater free need gain active later t).paused,
      (active.getD a.1 ⟨0, false, [], false⟩).flying = true →
        (pauseLater free need gain active later t).wait = true := by
  induction later generalizing t with
  | nil => exact h
  | cons i later ih =>
    have hnext : ∀ b, ∀ a ∈ t.paused ++ [(i, b)],
        (active.getD a.1 ⟨0, false, [], false⟩).flying = true →
          (t.wait || (active.getD i ⟨0, false, [], false⟩).flying) = true := by
      intro b a ha hf
      rcases List.mem_append.mp ha with ha | ha
      · simp [h a ha hf]
      · obtain rfl := List.mem_singleton.mp ha
        simp only [hf, Bool.or_true]
    simp only [pauseLater]
    split
    · exact h
    · split
      · exact ih _ (hnext false)
      · exact ih _ (hnext true)

theorem pauseLater_still {free need : List Nat} {gain : Gain} {active : List Holder}
    (h : ∀ i, (active.getD i ⟨0, false, [], false⟩).flying = false) (later : List Nat) (t : Taken) :
    (pauseLater free need gain active later t).wait = t.wait := by
  induction later generalizing t with
  | nil => rfl
  | cons i later ih =>
    simp only [pauseLater]
    split
    · rfl
    · split
      · rw [ih, Taken.ask, h i, Bool.or_false]
      · rw [ih, Taken.ask, Taken.ask, h i, Bool.or_false]

/-- With nothing in flight a plan never waits. -/
theorem makeRoomBy_still {active : List Holder}
    (h : ∀ i, (active.getD i ⟨0, false, [], false⟩).flying = false) (later free order : List Nat)
    (keep : Nat) (keepFirst : Bool) (preempt : Bool) (need : List Nat) (gain : Gain) :
    (makeRoomBy later free order keep keepFirst active preempt need gain).wait = false := by
  obtain ⟨-, -, hw, -⟩ := takeDonors_spec free need gain (donorOrder order keep keepFirst)
    ⟨⟨[], []⟩, fits free need gain ⟨[], []⟩, false⟩ rfl
  simp only [makeRoomBy_eq]
  split
  · rw [(giveBackDonors_spec need gain _ _).2.1]
    simp only [gathered]
    split
    · rw [pauseLater_still h, hw]
    · exact hw
  · rfl

/-- What a plan pauses: some of the requests it may, the first it may first, none of them in flight
unless it waits. -/
theorem makeRoomBy_paused (later free order : List Nat) (keep : Nat) (keepFirst : Bool)
    (active : List Holder) (preempt : Bool) (need : List Nat) (gain : Gain) :
    let t := makeRoomBy later free order keep keepFirst active preempt need gain
    t.paused.map Prod.fst <+: later ∧ ((preempt = false ∨ later = []) → t.paused = []) ∧
      (t.wait = false →
        ∀ a ∈ t.paused, (active.getD a.1 ⟨0, false, [], false⟩).flying = false) := by
  obtain ⟨ha, hp, hw, -⟩ := takeDonors_spec free need gain (donorOrder order keep keepFirst)
    ⟨⟨[], []⟩, fits free need gain ⟨[], []⟩, false⟩ rfl
  simp only [makeRoomBy_eq]
  obtain ⟨-, hwait, hpaused, -⟩ := giveBackDonors_spec need gain
    (gathered later free order keep keepFirst active preempt need gain).donors.length
    (gathered later free order keep keepFirst active preempt need gain)
  split
  · rw [hpaused, hwait]
    simp only [gathered]
    generalize takeDonors free need gain (donorOrder order keep keepFirst)
      ⟨⟨[], []⟩, fits free need gain ⟨[], []⟩, false⟩ = t at *
    split
    next hpre =>
      obtain ⟨-, -, used, hu, hpd, -⟩ := pauseLater_spec active later t ha
      rw [hp, List.nil_append] at hpd
      refine ⟨hpd ▸ hu, ?_, ?_⟩
      · rintro (hno | rfl)
        · simp [hno] at hpre
        · exact hp
      · intro hno a ha'
        have hfly := pauseLater_wait active later t (by simp [hp]) a ha'
        rw [hno] at hfly
        simpa using hfly
    next => simp [hp]
  · simp

/-- A plan is enough exactly when all it may take covers the need. -/
theorem makeRoomBy_enough {active : List Holder} {after : Nat} {later : List Nat}
    (hl : LatestFirst active after later) (free order : List Nat) (keep : Nat) (keepFirst : Bool)
    (preempt : Bool) (need : List Nat) {gain : Gain} (hm : MonotoneGain active gain) :
    (makeRoomBy later free order keep keepFirst active preempt need gain).enough = true ↔
      Covers free need gain (allowed order active after preempt) := by
  obtain ⟨ha, hwithin, hshort⟩ := gathered_spec hl free order keep keepFirst preempt need gain
  simp only [makeRoomBy_eq]
  generalize gathered later free order keep keepFirst active preempt need gain = t at *
  obtain ⟨he, -⟩ := giveBackDonors_spec need gain t.donors.length t
  cases hen : t.enough with
  | true =>
    have hcov := fits_iff.mp (ha.symm.trans hen)
    simp only [↓reduceIte, he, hen, true_iff]
    exact fun s hs => (hcov s hs).trans (Nat.add_le_add_left (frees_mono hm hwithin s) _)
  | false =>
    simp only [Bool.false_eq_true, ↓reduceIte, false_iff]
    intro hcov
    have hfit : Covers free need gain t.toVictims := fun s hs =>
      (hcov s hs).trans (Nat.add_le_add_left (hshort hen hm s) _)
    have := ha.trans (fits_iff.mpr hfit)
    simp [hen] at this

/-- What a plan that is enough takes covers the need. -/
theorem makeRoomBy_covers {active : List Holder} {after : Nat} {later : List Nat}
    (hl : LatestFirst active after later) (free order : List Nat) (keep : Nat) (keepFirst : Bool)
    (preempt : Bool) (need : List Nat) (gain : Gain) :
    let t := makeRoomBy later free order keep keepFirst active preempt need gain
    t.enough = true → Covers free need gain t.toVictims := by
  obtain ⟨ha, -, -⟩ := gathered_spec hl free order keep keepFirst preempt need gain
  simp only [makeRoomBy_eq]
  generalize gathered later free order keep keepFirst active preempt need gain = t at *
  obtain ⟨he, -, -, -, hfrees⟩ := giveBackDonors_spec need gain t.donors.length t
  cases hen : t.enough with
  | true =>
    intro _ s hs
    simp only [↓reduceIte]
    rw [hfrees s]
    exact fits_iff.mp (ha.symm.trans hen) s hs
  | false => simp

theorem frees_le (gain : Gain) (v : Victims) (s : Nat) : frees gain v s ≤ (gain v).getD s 0 := by
  unfold frees
  split
  · exact Nat.zero_le _
  · exact le_rfl

/-- Whatever order the pausable requests are sorted in, a plan is enough exactly when all it may
take covers the need, what it then returns covers it, and else it takes nothing. -/
theorem makeRoom_sound_and_complete {active : List Holder} {after : Nat} {later : List Nat}
    (hl : LatestFirst active after later) (free order : List Nat) (keep : Nat) (keepFirst : Bool)
    (preempt : Bool) (need : List Nat) (gain : Gain) :
    let t := makeRoomBy later free order keep keepFirst active preempt need gain
    (MonotoneGain active gain →
      (t.enough = true ↔ Covers free need gain (allowed order active after preempt))) ∧
    (t.enough = true →
      ∀ s < need.length, need.getD s 0 ≤ free.getD s 0 + (gain t.toVictims).getD s 0) ∧
    (t.enough = false → t.donors = [] ∧ t.paused = []) := by
  refine ⟨makeRoomBy_enough hl free order keep keepFirst preempt need, ?_, ?_⟩
  · intro hen s hs
    exact (makeRoomBy_covers hl free order keep keepFirst preempt need gain hen s hs).trans
      (Nat.add_le_add_left (frees_le gain _ s) _)
  · simp only [makeRoomBy_eq]
    obtain ⟨he, -⟩ := giveBackDonors_spec need gain
      (gathered later free order keep keepFirst active preempt need gain).donors.length
      (gathered later free order keep keepFirst active preempt need gain)
    split
    next hen => simp [he, hen]
    next => simp

/-- Blocks two forks of one prefix share come free only once both donors go. -/
def sharedPrefixGain : Gain := fun v => [if 0 ∈ v.donors ∧ 1 ∈ v.donors then 4 else 0]

theorem sharedPrefixGain_monotone (active : List Holder) :
    MonotoneGain active sharedPrefixGain := by
  refine ⟨fun v w h s => ?_, fun _ _ _ _ _ _ => rfl⟩
  cases s with
  | zero =>
    simp only [sharedPrefixGain, List.getD_cons_zero]
    split
    next hv => rw [if_pos ⟨h.1 0 hv.1, h.1 1 hv.2⟩]
    next => exact Nat.zero_le _
  | succ s => simp [sharedPrefixGain]

theorem makeRoom_takes_both_forks :
    (makeRoom [1] [2, 0, 1] 0 false [⟨3, true, [1], false⟩] 2 true [5] sharedPrefixGain).enough =
      true :=
  ((makeRoom_sound_and_complete (latestFirst_spec [⟨3, true, [1], false⟩] 2) [1] [2, 0, 1] 0 false
    true [5] sharedPrefixGain).1 (sharedPrefixGain_monotone _)).mpr (fits_iff.mp (by decide))

end Llmx
