import Llmx.PassOrder

namespace Llmx

open Runs

theorem Rounds.Inv.round {stages : Nat} {st : Rounds} (h : st.Inv stages)
    (hhost : st.host = []) :
    Rounds.Inv stages { st with todo := (roundSteps st.slots stages).advance,
                                retiring := (roundSteps st.slots stages).retire,
                                formedBefore := st.formed } :=
  ⟨le_rfl, h.order, fun _ ha => roundSteps_due h.order ha, by simp [hhost],
    roundSteps_retiring h.order, h.recorded, h.retired⟩

theorem Rounds.Inv.putOff {stages : Nat} {st : Rounds} {a : Nat × Nat} {todo : List (Nat × Nat)}
    (h : st.Inv stages) (he : st.todo = a :: todo) :
    Rounds.Inv stages { st with todo := todo, host := st.host ++ [a] } := by
  refine ⟨h.formedBefore_le, h.order, fun b hb => h.todo b (by simp [he, hb]), ?_, h.retiring,
    h.recorded, h.retired⟩
  intro b hb
  rcases List.mem_append.mp hb with hb | hb
  · exact h.host b hb
  · obtain rfl : b = a := by simpa using hb
    have hd := h.todo b (by simp [he])
    exact ⟨hd.1, fun hl _ => hd.2 hl trivial⟩

theorem Rounds.Inv.advanceTodo {stages k s : Nat} {st : Rounds} {todo : List (Nat × Nat)}
    (h : st.Inv stages) (he : st.todo = (k, s) :: todo) (out : Outcome) :
    Rounds.Inv stages { st with todo := todo } ∧
      ((slotAt st.slots k).live = true → (slotAt st.slots k).ran = s →
        (Rounds.advance { st with todo := todo } k s out).Inv stages) := by
  have hi : Rounds.Inv stages { st with todo := todo } :=
    ⟨h.formedBefore_le, h.order, fun b hb => h.todo b (by simp [he, hb]), h.host, h.retiring,
      h.recorded, h.retired⟩
  refine ⟨hi, fun hl hr => ?_⟩
  obtain ⟨hs, hd⟩ := h.todo (k, s) (by simp [he])
  have hc := (hd hl trivial).2 hr
  subst hr
  exact hi.advance out hl hs hc

theorem Rounds.Inv.advanceHost {stages k s : Nat} {st : Rounds} {host : List (Nat × Nat)}
    (h : st.Inv stages) (he : st.host = (k, s) :: host) (out : Outcome) :
    Rounds.Inv stages { st with host := host } ∧
      ((slotAt st.slots k).live = true → (slotAt st.slots k).ran = s →
        PutOffFor st.formedBefore s (slotAt st.slots k) →
        (Rounds.advance { st with host := host } k s out).Inv stages) := by
  have hi : Rounds.Inv stages { st with host := host } :=
    ⟨h.formedBefore_le, h.order, h.todo, fun b hb => h.host b (by simp [he, hb]), h.retiring,
      h.recorded, h.retired⟩
  refine ⟨hi, fun hl hr hm => ?_⟩
  obtain ⟨hs, hd⟩ := h.host (k, s) (by simp [he])
  have hc := (hd hl hm).2 hr
  subst hr
  exact hi.advance out hl hs hc

/-- The oldest slot to retire holds the oldest live pass. -/
theorem Retiring.head_oldest {slots : List Flight} {stages formed k : Nat} {ks : List Nat}
    (h : Retiring slots stages (k :: ks)) (order : InOrder slots stages formed)
    (hl : (slotAt slots k).live = true) {j : Nat} (hj : (slotAt slots j).live = true)
    (hne : j ≠ k) : (slotAt slots k).formed < (slotAt slots j).formed := by
  by_contra hlt
  have hdist := order.distinct j k hj hl
  have hf : (slotAt slots j).formed < (slotAt slots k).formed := by
    rcases Nat.lt_or_eq_of_le (Nat.le_of_not_lt hlt) with hf | hf
    · exact hf
    · exact absurd (hdist hf) hne
  have hm := (List.mem_cons.mp (h.older k (by simp) hl j hj hf)).resolve_left hne
  have := (List.pairwise_cons.mp h.sorted).1 j hm hl hj
  omega

/-- What is left to retire once the oldest slot holds no pass. -/
theorem Retiring.tail {slots : List Flight} {stages k : Nat} {ks : List Nat}
    (h : Retiring slots stages (k :: ks)) (hdead : (slotAt slots k).live = false) :
    Retiring slots stages ks := by
  refine ⟨fun i hi => h.done i (by simp [hi]), ?_, (List.pairwise_cons.mp h.sorted).2⟩
  intro i hi hl j hj hf
  refine (List.mem_cons.mp (h.older i (by simp [hi]) hl j hj hf)).resolve_left ?_
  rintro rfl
  simp [hj] at hdead

theorem Rounds.Inv.retire {stages k : Nat} {st : Rounds} {ks : List Nat} (h : st.Inv stages)
    (he : st.retiring = k :: ks) (hl : (slotAt st.slots k).live = true) (ok : Bool) :
    Rounds.Inv stages { (Rounds.vacate { st with retiring := ks } k) with
      retired := if ok then (slotAt st.slots k).formed :: st.retired else st.retired } := by
  have hv := vacated_set (slotAt_live_lt hl)
  have hret := h.retiring
  rw [he] at hret
  have hi := h.vacate hl
  refine ⟨hi.formedBefore_le, hi.order, hi.todo, hi.host, (hret.vacated hv).tail hv.1,
    hi.recorded, ?_⟩
  cases ok with
  | false => exact hi.retired
  | true =>
    refine ⟨?_, ?_, ?_⟩
    · intro f hf
      rcases List.mem_cons.mp hf with rfl | hf
      · exact h.order.formed_le k hl
      · exact h.retired.formed_le f hf
    · intro f hf j hj
      have hj' := hv.eq_of_live hj
      rcases List.mem_cons.mp hf with rfl | hf
      · have hne : j ≠ k := by
          rintro rfl
          exact absurd hj (by simp [Rounds.vacate, hv.1])
        have hj'' : (slotAt st.slots j).live = true := hj' ▸ hj
        exact hj' ▸ hret.head_oldest h.order hl hj'' hne
      · exact hi.retired.newer f hf j hj
    · exact List.pairwise_cons.mpr ⟨fun f hf => h.retired.newer f hf k hl, h.retired.ordered⟩

theorem Rounds.inv_step {stages : Nat} (hstages : 0 < stages) {st st' : Rounds} {e : RoundEvent}
    (h : st.Inv stages) (he : st.step stages e = some st') : st'.Inv stages := by
  cases e with
  | collect k ok =>
    simp only [step, Bool.and_eq_true] at he
    split at he
    next hlr =>
      cases ok with
      | true => cases Option.some.inj he; exact h.collect hlr.1 hlr.2
      | false => cases Option.some.inj he; exact h.vacate hlr.1
    next => simp at he
  | abort k =>
    simp only [step] at he
    split at he
    next hl => cases Option.some.inj he; exact h.vacate hl
    next => simp at he
  | round =>
    simp only [step] at he
    split at he
    next hidle => cases Option.some.inj he; exact h.round hidle.2.2
    next => simp at he
  | putOff =>
    simp only [step] at he
    split at he
    next => simp at he
    next a todo htodo => cases Option.some.inj he; exact h.putOff htodo
  | advance out =>
    simp only [step] at he
    split at he
    next => simp at he
    next k s todo htodo =>
      obtain ⟨hskip, hact⟩ := h.advanceTodo htodo out
      split at he
      next => cases Option.some.inj he; exact hskip
      next hlive =>
        cases Option.some.inj he
        simp only [not_or, Bool.not_eq_false, not_not] at hlive
        exact hact hlive.1 hlive.2
  | advanceHost out =>
    simp only [step] at he
    split at he
    next k s host htodo hret hhost =>
      obtain ⟨hskip, hact⟩ := h.advanceHost hhost out
      split at he
      next hlive =>
        cases Option.some.inj he
        simp only [Bool.and_eq_true, beq_iff_eq, Bool.or_eq_true, decide_eq_true_eq] at hlive
        exact hact hlive.1.1 hlive.1.2 hlive.2
      next => cases Option.some.inj he; exact hskip
    next => simp at he
  | retire ok =>
    simp only [step] at he
    split at he
    next k ks htodo hret =>
      split at he
      next hl => cases Option.some.inj he; exact h.retire hret hl ok
      next hl =>
        cases Option.some.inj he
        have hr := h.retiring
        rw [hret] at hr
        exact ⟨h.formedBefore_le, h.order, h.todo, h.host, hr.tail (by simpa using hl),
          h.recorded, h.retired⟩
    next => simp at he
  | form k =>
    simp only [step] at he
    split at he
    next hfree =>
      cases Option.some.inj he
      exact h.form hfree.2.1 hfree.2.2.1 hfree.2.2.2.1 hfree.2.2.2.2 hstages
    next => simp at he

theorem roundMachine_inv {stages slots : Nat} (hstages : 0 < stages) {st : Rounds}
    (h : Reach (roundMachine stages slots) st) : st.Inv stages := by
  refine h.invariant (Rounds.Inv stages) ?_ (fun _ _ _ hs he => Rounds.inv_step hstages hs he)
  rintro s rfl
  have hd : ∀ j, (slotAt (List.replicate slots Flight.empty) j).live = false := by
    intro j
    by_cases hj : j < slots <;>
      simp [slotAt, List.getD_eq_getElem?_getD, hj, Flight.empty]
  refine ⟨le_rfl, ?_, by simp, by simp, ⟨by simp, by simp, List.Pairwise.nil⟩,
    ⟨by simp, by simp, List.Pairwise.nil⟩, ⟨by simp, by simp, List.Pairwise.nil⟩⟩
  constructor <;> simp [hd]

/-- In every state a run reaches, of two live passes the one formed earlier has run at least as
many stages, a stage records one pass at a time, and each stage records, and the scheduler
retires, passes in formation order. -/
theorem passes_never_overtake {stages slots : Nat} (hstages : 0 < stages) {st : Rounds}
    (h : Reach (roundMachine stages slots) st) :
    (∀ i j, (slotAt st.slots i).live = true → (slotAt st.slots j).live = true →
      (slotAt st.slots i).formed < (slotAt st.slots j).formed →
      (slotAt st.slots j).ran ≤ (slotAt st.slots i).ran) ∧
    (∀ i j s, (slotAt st.slots i).live = true → (slotAt st.slots j).live = true →
      (slotAt st.slots i).recording = true → (slotAt st.slots j).recording = true →
      (slotAt st.slots i).ran = s → (slotAt st.slots j).ran = s → i = j) ∧
    (∀ s, ((st.recorded.reverse.filter (fun a => a.1 = s)).map Prod.snd).Pairwise (· < ·)) ∧
    st.retired.reverse.Pairwise (· < ·) := by
  have inv := roundMachine_inv hstages h
  refine ⟨inv.order.ran_mono, ?_, ?_, List.pairwise_reverse.mpr inv.retired.ordered⟩
  · intro i j s hi hj ri rj hsi hsj
    by_contra hne
    rcases lt_trichotomy (slotAt st.slots i).formed (slotAt st.slots j).formed with hf | hf | hf
    · have := inv.order.recording_mono i j hi hj hf rj
      omega
    · exact hne (inv.order.distinct i j hi hj hf)
    · have := inv.order.recording_mono j i hj hi hf ri
      omega
  · intro s
    rw [List.pairwise_map, List.pairwise_filter, List.pairwise_reverse]
    refine inv.recorded.ordered.imp ?_
    intro x y hlt hy hx
    simp only [decide_eq_true_eq] at hx hy
    exact hlt (by omega)

/-- Two passes on two stages: the second waits while the first is recorded on the second stage's
thread, and they retire in order. -/
theorem passes_never_overtake_two :
    ∃ st, Reach (roundMachine 2 2) st ∧ st.retired = [2, 1] ∧
      st.retired.reverse.Pairwise (· < ·) := by
  have h : Reach (roundMachine 2 2)
      ⟨[⟨false, 1, 2, false⟩, ⟨false, 2, 2, false⟩], 2, 2, [], [], [],
        [(1, 2), (0, 2), (1, 1), (0, 1)], [2, 1]⟩ :=
    reach_of_play
      [.form 0, .advance .completes, .round, .advance .begins, .form 1, .advance .completes,
        .round, .collect 0 true, .round, .advance .completes, .retire true, .round, .retire true]
      rfl rfl
  exact ⟨_, h, rfl, (passes_never_overtake (by decide) h).2.2.2⟩

end Llmx
