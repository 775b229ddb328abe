import Llmx.PassRounds

namespace Llmx

open Runs

theorem slotAt_set {slots : List Flight} {k : Nat} (hk : k < slots.length) (g : Flight) (j : Nat) :
    slotAt (slots.set k g) j = if j = k then g else slotAt slots j := by
  unfold slotAt
  by_cases h : j = k
  · subst h
    simp [List.getD_eq_getElem?_getD, hk]
  · simp [List.getD_eq_getElem?_getD, h, Ne.symm h]

theorem slotAt_live_lt {slots : List Flight} {k : Nat} (h : (slotAt slots k).live = true) :
    k < slots.length := by
  by_contra hk
  simp [slotAt, List.getD_eq_getElem?_getD, List.getElem?_eq_none (Nat.le_of_not_lt hk),
    Flight.empty] at h

theorem exists_slotAt_iff {slots : List Flight} {p : Flight → Bool}
    (hp : ∀ f, p f = true → f.live = true) :
    slots.any p = true ↔ ∃ k, p (slotAt slots k) = true := by
  constructor
  · intro h
    obtain ⟨f, hf, hpf⟩ := List.any_eq_true.mp h
    obtain ⟨k, hk, rfl⟩ := List.mem_iff_getElem.mp hf
    exact ⟨k, by simpa [slotAt, List.getD_eq_getElem?_getD, hk] using hpf⟩
  · rintro ⟨k, hk⟩
    have hlt := slotAt_live_lt (hp _ hk)
    refine List.any_eq_true.mpr ⟨slots[k], List.getElem_mem hlt, ?_⟩
    simpa [slotAt, List.getD_eq_getElem?_getD, hlt] using hk

/-- The pass in slot `k` waits for stage `s`. -/
def Waits (slots : List Flight) (s k : Nat) : Prop :=
  (slotAt slots k).live = true ∧ (slotAt slots k).ran = s ∧ (slotAt slots k).recording = false

/-- What the scan of a stage has found among the slots below `n`. -/
structure Scanned (slots : List Flight) (s n : Nat) (acc : Option Nat × Bool) : Prop where
  busy : acc.2 = false → ∀ k < n, (slotAt slots k).live = true → (slotAt slots k).ran = s →
    (slotAt slots k).recording = false
  pick : ∀ k, acc.1 = some k → Waits slots s k ∧
    ∀ j < n, Waits slots s j → (slotAt slots k).formed ≤ (slotAt slots j).formed
  none : acc.1 = Option.none → ∀ j < n, ¬ Waits slots s j

theorem pickSlot_scanned {slots : List Flight} {s n : Nat} {acc : Option Nat × Bool}
    (h : Scanned slots s n acc) : Scanned slots s (n + 1) (pickSlot slots s acc n) := by
  obtain ⟨pick, busy⟩ := acc
  obtain ⟨hbusy, hpick, hnone⟩ := h
  unfold pickSlot
  constructor <;> grind [Waits]

theorem pickStage_scanned (slots : List Flight) (s : Nat) :
    Scanned slots s slots.length (pickStage slots s) := by
  unfold pickStage
  generalize slots.length = n
  induction n with
  | zero => exact ⟨by simp, by simp, by simp⟩
  | succ n ih =>
    rw [List.range_succ, List.foldl_append]
    exact pickSlot_scanned ih

/-- A stage's step is the oldest pass waiting for it, where none is being recorded there. -/
theorem stageAdvance_spec {slots : List Flight} {s k t : Nat}
    (h : stageAdvance slots s = some (k, t)) :
    t = s ∧ Waits slots s k ∧
      (∀ j, (slotAt slots j).live = true → (slotAt slots j).ran = s →
        (slotAt slots j).recording = false ∧ (slotAt slots k).formed ≤ (slotAt slots j).formed) := by
  have hs := pickStage_scanned slots s
  unfold stageAdvance at h
  split at h
  next pick heq =>
    rw [heq] at hs
    simp only [Option.some.injEq, Prod.mk.injEq] at h
    obtain ⟨rfl, rfl⟩ := h
    obtain ⟨hw, hold⟩ := hs.pick pick rfl
    refine ⟨rfl, hw, fun j hl hr => ?_⟩
    have hb := hs.busy rfl j (slotAt_live_lt hl) hl hr
    exact ⟨hb, hold j (slotAt_live_lt hl) ⟨hl, hr, hb⟩⟩
  next => simp at h

/-- Every live pass formed before the one in slot `k` has run stage `s`. -/
def Clear (slots : List Flight) (k s : Nat) : Prop :=
  ∀ j, (slotAt slots j).live = true → (slotAt slots j).formed < (slotAt slots k).formed →
    s < (slotAt slots j).ran

/-- The order of the live passes: one formed earlier has run at least as many stages, and more
than one that is being recorded. -/
structure InOrder (slots : List Flight) (stages formed : Nat) : Prop where
  formed_le : ∀ j, (slotAt slots j).live = true → (slotAt slots j).formed ≤ formed
  ran_le : ∀ j, (slotAt slots j).live = true → (slotAt slots j).ran ≤ stages
  recording_lt : ∀ j, (slotAt slots j).live = true → (slotAt slots j).recording = true →
    (slotAt slots j).ran < stages
  distinct : ∀ i j, (slotAt slots i).live = true → (slotAt slots j).live = true →
    (slotAt slots i).formed = (slotAt slots j).formed → i = j
  ran_mono : ∀ i j, (slotAt slots i).live = true → (slotAt slots j).live = true →
    (slotAt slots i).formed < (slotAt slots j).formed → (slotAt slots j).ran ≤ (slotAt slots i).ran
  recording_mono : ∀ i j, (slotAt slots i).live = true → (slotAt slots j).live = true →
    (slotAt slots i).formed < (slotAt slots j).formed → (slotAt slots j).recording = true →
    (slotAt slots j).ran < (slotAt slots i).ran

/-- A step still to take, where it still names the pass it is for (`mine`), finds every pass
formed earlier past its stage. -/
def Due (slots : List Flight) (stages : Nat) (mine : Nat → Flight → Prop) (a : Nat × Nat) : Prop :=
  a.2 < stages ∧ ((slotAt slots a.1).live = true → mine a.2 (slotAt slots a.1) →
    a.2 ≤ (slotAt slots a.1).ran ∧ ((slotAt slots a.1).ran = a.2 → Clear slots a.1 a.2))

/-- A stage put off is for the pass it was picked for: a later one takes only the first stage. -/
def PutOffFor (formedBefore s : Nat) (f : Flight) : Prop := s = 0 ∨ f.formed ≤ formedBefore

/-- Slots still to retire hold passes that ran every stage, each behind all formed before it. -/
structure Retiring (slots : List Flight) (stages : Nat) (ks : List Nat) : Prop where
  done : ∀ k ∈ ks, (slotAt slots k).live = true → (slotAt slots k).ran = stages
  older : ∀ k ∈ ks, (slotAt slots k).live = true → ∀ j, (slotAt slots j).live = true →
    (slotAt slots j).formed < (slotAt slots k).formed → j ∈ ks
  sorted : ks.Pairwise (fun a b => (slotAt slots a).live = true → (slotAt slots b).live = true →
    (slotAt slots a).formed ≤ (slotAt slots b).formed)

/-- What was recorded, newest first: a live pass is newer than every pass recorded at a stage it
has not reached, and each stage's passes are in formation order. -/
structure Recorded (slots : List Flight) (formed : Nat) (log : List (Nat × Nat)) : Prop where
  formed_le : ∀ a ∈ log, a.2 ≤ formed
  newer : ∀ a ∈ log, ∀ j, (slotAt slots j).live = true →
    (slotAt slots j).ran < a.1 ∨ ((slotAt slots j).ran = a.1 ∧ (slotAt slots j).recording = false) →
    a.2 < (slotAt slots j).formed
  ordered : log.Pairwise (fun x y => x.1 = y.1 → y.2 < x.2)

structure Retired (slots : List Flight) (formed : Nat) (log : List Nat) : Prop where
  formed_le : ∀ f ∈ log, f ≤ formed
  newer : ∀ f ∈ log, ∀ j, (slotAt slots j).live = true → f < (slotAt slots j).formed
  ordered : log.Pairwise (fun x y => y < x)

structure Rounds.Inv (stages : Nat) (st : Rounds) : Prop where
  formedBefore_le : st.formedBefore ≤ st.formed
  order : InOrder st.slots stages st.formed
  todo : ∀ a ∈ st.todo, Due st.slots stages (fun _ _ => True) a
  host : ∀ a ∈ st.host, Due st.slots stages (PutOffFor st.formedBefore) a
  retiring : Retiring st.slots stages st.retiring
  recorded : Recorded st.slots st.formed st.recorded
  retired : Retired st.slots st.formed st.retired

/-- Vacating a slot changes no other, and takes a pass away. -/
def Vacated (slots slots' : List Flight) (k : Nat) : Prop :=
  (slotAt slots' k).live = false ∧ ∀ j, j ≠ k → slotAt slots' j = slotAt slots j

theorem vacated_set {slots : List Flight} {k : Nat} (hk : k < slots.length) :
    Vacated slots (slots.set k (slotAt slots k).vacate) k := by
  refine ⟨by simp [slotAt_set hk, Flight.vacate], fun j hj => by simp [slotAt_set hk, hj]⟩

theorem Vacated.eq_of_live {slots slots' : List Flight} {k j : Nat} (h : Vacated slots slots' k)
    (hl : (slotAt slots' j).live = true) : slotAt slots' j = slotAt slots j := by
  by_cases hj : j = k
  · subst hj
    simp [h.1] at hl
  · exact h.2 j hj

theorem InOrder.vacated {slots slots' : List Flight} {stages formed k : Nat}
    (h : InOrder slots stages formed) (hv : Vacated slots slots' k) :
    InOrder slots' stages formed := by
  have he : ∀ j, (slotAt slots' j).live = true → slotAt slots' j = slotAt slots j :=
    fun j => hv.eq_of_live
  obtain ⟨h1, h2, h3, h4, h5, h6⟩ := h
  constructor <;> grind

theorem Due.vacated {slots slots' : List Flight} {stages k : Nat} {mine : Nat → Flight → Prop}
    {a : Nat × Nat} (h : Due slots stages mine a) (hv : Vacated slots slots' k) :
    Due slots' stages mine a := by
  have he : ∀ j, (slotAt slots' j).live = true → slotAt slots' j = slotAt slots j :=
    fun j => hv.eq_of_live
  refine ⟨h.1, fun hl hm => ?_⟩
  have ha := he a.1 hl
  rw [ha] at hl hm ⊢
  obtain ⟨hle, hclear⟩ := h.2 hl hm
  refine ⟨hle, fun hr j hj hf => ?_⟩
  have hjj := he j hj
  rw [hjj, ha] at hf
  rw [hjj] at hj ⊢
  exact hclear hr j hj hf

theorem Retiring.vacated {slots slots' : List Flight} {stages k : Nat} {ks : List Nat}
    (h : Retiring slots stages ks) (hv : Vacated slots slots' k) : Retiring slots' stages ks := by
  have he : ∀ j, (slotAt slots' j).live = true → slotAt slots' j = slotAt slots j :=
    fun j => hv.eq_of_live
  obtain ⟨h1, h2, h3⟩ := h
  refine ⟨by grind, by grind, h3.imp ?_⟩
  grind

theorem Recorded.vacated {slots slots' : List Flight} {formed k : Nat} {log : List (Nat × Nat)}
    (h : Recorded slots formed log) (hv : Vacated slots slots' k) : Recorded slots' formed log := by
  refine ⟨h.formed_le, fun a ha j hl hr => ?_, h.ordered⟩
  have he := hv.eq_of_live hl
  rw [he] at hl hr ⊢
  exact h.newer a ha j hl hr

theorem Retired.vacated {slots slots' : List Flight} {formed k : Nat} {log : List Nat}
    (h : Retired slots formed log) (hv : Vacated slots slots' k) : Retired slots' formed log := by
  refine ⟨h.formed_le, fun f hf j hl => ?_, h.ordered⟩
  have he := hv.eq_of_live hl
  rw [he] at hl ⊢
  exact h.newer f hf j hl

theorem Rounds.Inv.vacate {stages k : Nat} {st : Rounds} (h : st.Inv stages)
    (hl : (slotAt st.slots k).live = true) : (st.vacate k).Inv stages := by
  have hv := vacated_set (slotAt_live_lt hl)
  exact ⟨h.formedBefore_le, h.order.vacated hv, fun a ha => (h.todo a ha).vacated hv,
    fun a ha => (h.host a ha).vacated hv, h.retiring.vacated hv, h.recorded.vacated hv,
    h.retired.vacated hv⟩

/-- A pass goes one stage on, or its recording begins: every pass formed before it is past that
stage, and its place in formation order stays. -/
structure Advanced (slots slots' : List Flight) (stages k : Nat) : Prop where
  live : (slotAt slots k).live = true
  live' : (slotAt slots' k).live = true
  formed : (slotAt slots' k).formed = (slotAt slots k).formed
  ran : (slotAt slots' k).ran = (slotAt slots k).ran + 1 ∧ (slotAt slots' k).recording = false ∨
    (slotAt slots' k).ran = (slotAt slots k).ran ∧ (slotAt slots' k).recording = true
  bound : (slotAt slots k).ran < stages
  clear : Clear slots k (slotAt slots k).ran
  others : ∀ j, j ≠ k → slotAt slots' j = slotAt slots j

theorem InOrder.advanced {slots slots' : List Flight} {stages formed k : Nat}
    (h : InOrder slots stages formed) (hv : Advanced slots slots' stages k) :
    InOrder slots' stages formed := by
  obtain ⟨h1, h2, h3, h4, h5, h6⟩ := h
  obtain ⟨v1, v2, v3, v4, v5, v6, v7⟩ := hv
  unfold Clear at v6
  constructor <;> grind

theorem Due.advanced {slots slots' : List Flight} {stages k : Nat} {mine : Nat → Flight → Prop}
    (congr : ∀ s f g, f.formed = g.formed → mine s f → mine s g)
    {a : Nat × Nat} (h : Due slots stages mine a) (hv : Advanced slots slots' stages k) :
    Due slots' stages mine a := by
  obtain ⟨v1, v2, v3, v4, v5, v6, v7⟩ := hv
  refine ⟨h.1, fun hl hm => ?_⟩
  have hm' : mine a.2 (slotAt slots a.1) := by
    refine congr _ _ _ ?_ hm
    by_cases ha : a.1 = k
    · rw [ha, v3]
    · rw [v7 _ ha]
  have hl' : (slotAt slots a.1).live = true := by
    by_cases ha : a.1 = k
    · rw [ha, v1]
    · rw [← v7 _ ha, hl]
  obtain ⟨hle, hclear⟩ := h.2 hl' hm'
  unfold Clear at *
  constructor <;> grind

theorem Retiring.advanced {slots slots' : List Flight} {stages k : Nat} {ks : List Nat}
    (h : Retiring slots stages ks) (hv : Advanced slots slots' stages k) :
    Retiring slots' stages ks := by
  obtain ⟨h1, h2, h3⟩ := h
  obtain ⟨v1, v2, v3, v4, v5, v6, v7⟩ := hv
  refine ⟨by grind, by grind, h3.imp ?_⟩
  grind

theorem Recorded.advanced {slots slots' : List Flight} {stages formed k : Nat}
    {log : List (Nat × Nat)} (h : Recorded slots formed log)
    (hv : Advanced slots slots' stages k) : Recorded slots' formed log := by
  obtain ⟨v1, v2, v3, v4, v5, v6, v7⟩ := hv
  obtain ⟨h1, h2, h3⟩ := h
  refine ⟨h1, ?_, h3⟩
  grind

theorem Retired.advanced {slots slots' : List Flight} {stages formed k : Nat} {log : List Nat}
    (h : Retired slots formed log) (hv : Advanced slots slots' stages k) :
    Retired slots' formed log := by
  obtain ⟨v1, v2, v3, v4, v5, v6, v7⟩ := hv
  obtain ⟨h1, h2, h3⟩ := h
  refine ⟨h1, ?_, h3⟩
  grind

theorem Rounds.Inv.advanced {stages k : Nat} {st : Rounds} (h : st.Inv stages) {slots : List Flight}
    (hv : Advanced st.slots slots stages k) : Rounds.Inv stages { st with slots := slots } :=
  ⟨h.formedBefore_le, h.order.advanced hv,
    fun a ha => (h.todo a ha).advanced (fun _ _ _ _ _ => trivial) hv,
    fun a ha => (h.host a ha).advanced (fun _ _ _ he hm => hm.imp_right (fun hf => he ▸ hf)) hv,
    h.retiring.advanced hv, h.recorded.advanced hv, h.retired.advanced hv⟩

/-- A stage handed to the oldest pass waiting for it comes after all handed to it before. -/
theorem Recorded.handed {slots slots' : List Flight} {stages formed k : Nat}
    {log : List (Nat × Nat)} (h : Recorded slots formed log) (h' : Recorded slots' formed log)
    (order : InOrder slots stages formed) (hl : (slotAt slots k).live = true)
    (hrec : (slotAt slots k).recording = false) (clear : Clear slots k (slotAt slots k).ran)
    (others : ∀ j, j ≠ k → slotAt slots' j = slotAt slots j)
    (past : (slotAt slots' k).live = true → (slotAt slots k).ran < (slotAt slots' k).ran ∨
      (slotAt slots' k).ran = (slotAt slots k).ran ∧ (slotAt slots' k).recording = true) :
    Recorded slots' formed (((slotAt slots k).ran, (slotAt slots k).formed) :: log) := by
  have hdist := order.distinct
  refine ⟨?_, ?_, ?_⟩
  · intro a ha
    rcases List.mem_cons.mp ha with rfl | ha
    · exact order.formed_le k hl
    · exact h.formed_le a ha
  · intro a ha j hj hr
    rcases List.mem_cons.mp ha with rfl | ha
    · unfold Clear at clear
      grind
    · exact h'.newer a ha j hj hr
  · refine List.pairwise_cons.mpr ⟨fun a ha hs => ?_, h.ordered⟩
    exact h.newer a ha k hl (Or.inr ⟨hs, hrec⟩)

theorem recordingAt_iff {slots : List Flight} {s : Nat} :
    recordingAt slots s = true ↔ ∃ k, (slotAt slots k).live = true ∧
      (slotAt slots k).recording = true ∧ (slotAt slots k).ran = s := by
  unfold recordingAt
  rw [exists_slotAt_iff (by simp; tauto)]
  simp [and_assoc]

theorem firstStageHeld_iff {slots : List Flight} :
    firstStageHeld slots = true ↔ ∃ k, (slotAt slots k).live = true ∧ (slotAt slots k).ran = 0 := by
  unfold firstStageHeld
  rw [exists_slotAt_iff (by simp; tauto)]
  simp

theorem Rounds.Inv.advance {stages k : Nat} {st : Rounds} (h : st.Inv stages) (out : Outcome)
    (hl : (slotAt st.slots k).live = true) (hs : (slotAt st.slots k).ran < stages)
    (clear : Clear st.slots k (slotAt st.slots k).ran) :
    (st.advance k (slotAt st.slots k).ran out).Inv stages := by
  have hk := slotAt_live_lt hl
  unfold Rounds.advance
  split
  next => exact h
  next hfree =>
    have hrec : (slotAt st.slots k).recording = false := by
      cases hr : (slotAt st.slots k).recording with
      | false => rfl
      | true => exact absurd (recordingAt_iff.mpr ⟨k, hl, hr, rfl⟩) hfree
    cases out with
    | completes =>
      have hv : Advanced st.slots (st.slots.set k
          { slotAt st.slots k with ran := (slotAt st.slots k).ran + 1 }) stages k := by
        constructor <;> simp +contextual [slotAt_set hk, hl, hrec, hs, clear]
      have hi := h.advanced hv
      exact ⟨hi.formedBefore_le, hi.order, hi.todo, hi.host, hi.retiring,
        h.recorded.handed hi.recorded h.order hl hrec clear hv.others
          (by simp [slotAt_set hk]), hi.retired⟩
    | begins =>
      have hv : Advanced st.slots (st.slots.set k
          { slotAt st.slots k with recording := true }) stages k := by
        constructor <;> simp +contextual [slotAt_set hk, hl, hs, clear]
      have hi := h.advanced hv
      exact ⟨hi.formedBefore_le, hi.order, hi.todo, hi.host, hi.retiring,
        h.recorded.handed hi.recorded h.order hl hrec clear hv.others
          (by simp [slotAt_set hk]), hi.retired⟩
    | fails =>
      have hv := vacated_set hk
      have hi := h.vacate hl
      exact ⟨hi.formedBefore_le, hi.order, hi.todo, hi.host, hi.retiring,
        h.recorded.handed hi.recorded h.order hl hrec clear hv.2
          (by simp [Rounds.vacate, hv.1]), hi.retired⟩

theorem Rounds.Inv.collect {stages k : Nat} {st : Rounds} (h : st.Inv stages)
    (hl : (slotAt st.slots k).live = true) (hr : (slotAt st.slots k).recording = true) :
    Rounds.Inv stages { st with slots := st.slots.set k (slotAt st.slots k).recorded } := by
  have hk := slotAt_live_lt hl
  refine h.advanced (k := k) ?_
  have hb := h.order.recording_lt k hl hr
  have hc : Clear st.slots k (slotAt st.slots k).ran :=
    fun j hj hf => h.order.recording_mono j k hj hl hf hr
  constructor <;> simp +contextual [slotAt_set hk, Flight.recorded, hl, hb, hc]

/-- A step of the round's own finds the stage free and every pass formed earlier past it. -/
theorem roundSteps_due {slots : List Flight} {stages formed : Nat} (h : InOrder slots stages formed)
    {a : Nat × Nat} (ha : a ∈ (roundSteps slots stages).advance) :
    Due slots stages (fun _ _ => True) a := by
  obtain ⟨s, hs, hstep⟩ := List.mem_filterMap.mp ha
  have hlt : s < stages := by simpa using hs
  obtain ⟨k, t⟩ := a
  obtain ⟨rfl, ⟨hl, hr, hrec⟩, hold⟩ := stageAdvance_spec hstep
  refine ⟨hlt, fun _ _ => ⟨hr.ge, fun _ j hj hf => ?_⟩⟩
  dsimp only at hf ⊢
  have hmono := h.ran_mono j k hj hl hf
  by_contra hle
  have := (hold j hj (by omega)).2
  omega

theorem roundSteps_retiring {slots : List Flight} {stages formed : Nat}
    (h : InOrder slots stages formed) : Retiring slots stages (roundSteps slots stages).retire := by
  have hm : ∀ k, k ∈ (roundSteps slots stages).retire ↔
      k < slots.length ∧ (slotAt slots k).live = true ∧ (slotAt slots k).ran = stages := by
    intro k
    simp [roundSteps, List.mem_insertionSort]
  refine ⟨fun k hk _ => ((hm k).mp hk).2.2, ?_, ?_⟩
  · intro k hk hl j hj hf
    have hmono := h.ran_mono j k hj hl hf
    have hbound := h.ran_le j hj
    have := ((hm k).mp hk).2.2
    exact (hm j).mpr ⟨slotAt_live_lt hj, hj, by omega⟩
  · have total : Std.Total (fun a b => (slotAt slots a).formed ≤ (slotAt slots b).formed) :=
      ⟨fun _ _ => Nat.le_total _ _⟩
    have trans : IsTrans Nat (fun a b => (slotAt slots a).formed ≤ (slotAt slots b).formed) :=
      ⟨fun _ _ _ => Nat.le_trans⟩
    exact (List.pairwise_insertionSort _ _).imp (fun hab _ _ => hab)

/-- A new pass is the newest and has run nothing; no live pass is behind it. -/
theorem Rounds.Inv.form {stages k : Nat} {st : Rounds} (h : st.Inv stages)
    (hret : st.retiring = []) (hk : k < st.slots.length)
    (hdead : (slotAt st.slots k).live = false) (hfirst : firstStageHeld st.slots = false)
    (hpos : 0 < stages) :
    Rounds.Inv stages { st with slots := st.slots.set k ⟨true, st.formed + 1, 0, false⟩,
                                formed := st.formed + 1, todo := [(k, 0)] } := by
  have hran : ∀ j, (slotAt st.slots j).live = true → 0 < (slotAt st.slots j).ran := by
    intro j hj
    by_contra h0
    have := firstStageHeld_iff.mpr ⟨j, hj, by omega⟩
    simp [hfirst] at this
  have hset := slotAt_set hk ⟨true, st.formed + 1, 0, false⟩
  obtain ⟨hb, ⟨o1, o2, o3, o4, o5, o6⟩, htodo, hhost, hretiring, ⟨r1, r2, r3⟩, ⟨t1, t2, t3⟩⟩ := h
  refine ⟨by grind, ?_, ?_, ?_, ?_, ⟨by grind, by grind, r3⟩, ⟨by grind, by grind, t3⟩⟩
  · constructor <;> grind
  · intro a ha
    obtain rfl : a = (k, 0) := by simpa using ha
    refine ⟨hpos, fun _ _ => ⟨Nat.zero_le _, fun _ j hj hf => ?_⟩⟩
    dsimp only at hj hf ⊢
    have hjk : j ≠ k := by
      rintro rfl
      exact lt_irrefl _ hf
    rw [hset, if_neg hjk] at hj ⊢
    exact hran j hj
  · intro a ha
    obtain ⟨hs, hd⟩ := hhost a ha
    refine ⟨hs, fun hl hm => ?_⟩
    unfold Clear PutOffFor at *
    by_cases hak : a.1 = k
    · -- The slot was emptied: only a first stage put off can still name it.
      have h0 : a.2 = 0 := by grind
      refine ⟨by omega, fun _ j hj hf => ?_⟩
      grind
    · grind
  · rw [hret]
    exact ⟨by simp, by simp, List.Pairwise.nil⟩

end Llmx
