import Llmx.SlotRuns

namespace Llmx

open Runs

namespace SlotWorld

/-- The sequences that hold a live slot or a mark; a pass's are among them once it has begun. -/
def busy (w : SlotWorld) : Nat :=
  w.seqs.countP fun s => s.state.isSome || s.mark.hold.isSome

def LiveFits (w : SlotWorld) : Prop := w.busy ≤ w.pool.live

instance : DecidablePred LiveFits := fun _ => inferInstanceAs (Decidable (_ ≤ _))

/-- No slot is at as many checkpoints as its 32-bit count wraps at. -/
def CopiesFit (w : SlotWorld) : Prop :=
  ∀ x ∈ w.checkpoints, w.checkpoints.count x < 4294967296

instance : DecidablePred CopiesFit := fun _ => inferInstanceAs (Decidable (∀ _ ∈ _, _))

/-- A model just loaded, no history made. -/
def loaded (stages contextLength markRows : Nat) (blockTokens : List Nat)
    (live checkpoints marks slots : Nat) : SlotWorld :=
  ⟨stages, contextLength, markRows, blockTokens, SlotPool.configure live checkpoints marks, [],
    List.replicate slots StatePass.idle⟩

/-- The runs whose states all meet `ok`. -/
def machine (ok : SlotWorld → Prop) [DecidablePred ok] : Machine SlotWorld SlotEvent where
  start w := ∃ stages contextLength markRows blockTokens live checkpoints marks slots,
    w = loaded stages contextLength markRows blockTokens live checkpoints marks slots
  step w e := (w.step e).filter ok

theorem machine_step {ok : SlotWorld → Prop} [DecidablePred ok] {w v : SlotWorld} {e : SlotEvent}
    (hs : w.step e = some v) (hv : ok v) : (machine ok).step w e = some v :=
  Option.filter_eq_some_iff.mpr ⟨hs, decide_eq_true hv⟩

/-- Each slot is in one place, each count the number of its holds and within its side, each buffer
free or a mark's, and no event takes from an empty free list. -/
structure Accounted (w : SlotWorld) : Prop where
  places : ∀ s, w.pool.free.count s + w.live.count s + w.marked.count s +
    (if s ∈ w.checkpoints then 1 else 0) = if s < w.pool.slots then 1 else 0
  refs : ∀ s, w.pool.refs.getD s 0 = w.checkpoints.count s
  live : w.pool.liveHeld = w.live.card ∧ w.pool.liveHeld ≤ w.pool.live
  marks : w.pool.markHeld = w.marked.card ∧ w.pool.markHeld ≤ w.pool.marks
  kept : w.pool.keptHeld = w.checkpoints.dedup.card ∧ w.pool.keptHeld ≤ w.pool.kept
  buffers : ∀ b, w.pool.markBuffers.count b + w.buffers.count b =
    if b < w.pool.marks then 1 else 0
  takes : ∀ e, w.step e ≠ none

theorem live_le_busy (w : SlotWorld) : w.live.card ≤ w.busy := by
  unfold live busy
  induction w.seqs with
  | nil => exact le_rfl
  | cons s seqs ih =>
    rw [List.map_cons, List.sum_cons, Multiset.card_add, List.countP_cons]
    have hone : s.live.card ≤ if s.state.isSome || s.mark.hold.isSome then 1 else 0 := by
      unfold Sequence.live
      cases s.state with
      | none => exact Nat.zero_le _
      | some x => exact le_rfl
    omega

namespace Holds

variable {w : SlotWorld}

theorem live_le (c : w.Holds 0) (hfits : w.LiveFits) : w.pool.liveHeld ≤ w.pool.live := by
  rw [SlotPool.Counts.liveHeld c]
  exact w.live_le_busy.trans hfits

theorem step_ne_none (c : w.Holds 0) (hlive : w.pool.liveHeld ≤ w.pool.live) (e : SlotEvent) :
    w.step e ≠ none := by
  cases e with
  | restoreHost n =>
    intro hnone
    have hkept := SlotPool.Counts.acquireKept_ne_none c hlive
    simp only [SlotWorld.step, SlotWorld.restoreHost] at hnone
    split at hnone
    next hno => exact hkept hno
    · cases hnone
    · cases hnone
  | beginPass k es =>
    obtain ⟨v, hv, -⟩ := c.beginPass_some k es hlive
    rw [SlotWorld.step, hv]
    exact Option.some_ne_none v
  | _ => exact Option.some_ne_none _

/-- One event, to a state whose copies fit. -/
theorem step {v : SlotWorld} {e : SlotEvent} (c : w.Holds 0) (hv : w.step e = some v)
    (hcopies : v.CopiesFit) : v.Holds 0 := by
  cases e with
  | make => cases hv; exact c.make
  | mark i => cases hv; exact c.on SlotHolder.Frame.mark
  | keep i => cases hv; exact c.on SlotHolder.Frame.keep
  | reset i => cases hv; exact c.on SlotHolder.Frame.reset
  | retract i n r => cases hv; exact c.on SlotHolder.Frame.retract
  | restoreMark i => cases hv; exact c.on SlotHolder.Frame.restoreMark
  | dropMark i => cases hv; exact c.on SlotHolder.Frame.dropMark
  | releaseSettled i => cases hv; exact c.on SlotHolder.Frame.settle
  | fork i n =>
    cases hv
    refine c.fork fun x => ?_
    rw [add_zero]
    by_cases hx : x ∈ (w.fork i n).checkpoints
    · exact hcopies x hx
    · rw [Multiset.count_eq_zero.mpr hx]
      exact Nat.succ_pos _
  | restoreHost n => exact c.restoreHost hv
  | move i j => cases hv; exact c.move
  | destroy i => cases hv; exact c.on SlotHolder.Frame.destroy
  | beginPass k es => exact c.beginPass hv
  | commit k => cases hv; exact c.commit
  | endPass k => cases hv; exact c.endPass
  | fail k short => cases hv; exact c.rollBack
  | abort k short => cases hv; exact c.abort

theorem loaded (stages contextLength markRows : Nat) (blockTokens : List Nat)
    (live checkpoints marks slots : Nat) :
    (SlotWorld.loaded stages contextLength markRows blockTokens live checkpoints marks
      slots).Holds 0 := by
  have hidle : ((List.replicate slots StatePass.idle).map StatePass.checkpoints).sum = 0 := by
    induction slots with
    | zero => rfl
    | succ n ih =>
      rw [List.replicate_succ, List.map_cons, List.sum_cons, ih]
      rfl
  refine (SlotPool.Counts.configure live checkpoints marks).cast rfl rfl ?_ rfl
  show 0 + (List.map _ (List.replicate slots StatePass.idle)).sum + 0 = 0
  rw [hidle]
  rfl

theorem accounted (c : w.Holds 0) (hlive : w.pool.liveHeld ≤ w.pool.live) : w.Accounted := by
  have hc : w.pool.Counts w.live w.marked (w.checkpoints + 0) w.buffers := c
  rw [add_zero] at hc
  refine ⟨fun s => ?_, hc.refs, ⟨hc.liveHeld, hlive⟩, ⟨hc.markHeld, hc.marks_le⟩,
    ⟨hc.keptHeld, hc.kept_le⟩, fun b => ?_, c.step_ne_none hlive⟩
  · have hcount := congrArg (Multiset.count s) hc.places
    simp only [Multiset.count_add, Multiset.coe_count, Multiset.count_dedup] at hcount
    rw [hcount, Multiset.count_eq_of_nodup (Multiset.nodup_range _)]
    simp only [Multiset.mem_range]
  · have hcount := congrArg (Multiset.count b) hc.buffers
    simp only [Multiset.count_add, Multiset.coe_count] at hcount
    rw [hcount, Multiset.count_eq_of_nodup (Multiset.nodup_range _)]
    simp only [Multiset.mem_range]

end Holds

/-- In every run in which as many sequences as the live side has slots at most hold one or a mark,
and no slot is at 2^32 checkpoints at once, the state slots are never lost, doubled or overdrawn. -/
theorem slots_accounted {w : SlotWorld} (h : Reach (machine fun w => LiveFits w ∧ CopiesFit w) w) :
    w.Accounted := by
  have hinv : w.Holds 0 ∧ w.pool.liveHeld ≤ w.pool.live := by
    refine h.invariant (fun w => w.Holds 0 ∧ w.pool.liveHeld ≤ w.pool.live) ?_ ?_
    · intro w hw
      obtain ⟨a, b, c, d, live, checkpoints, marks, slots, rfl⟩ := hw
      exact ⟨Holds.loaded _ _ _ _ _ _ _ _, Nat.zero_le _⟩
    · intro w e v hw hv
      obtain ⟨hstep, hok⟩ := Option.filter_eq_some_iff.mp hv
      obtain ⟨hfits, hcopies⟩ := of_decide_eq_true hok
      have cv := hw.1.step hstep hcopies
      exact ⟨cv, cv.live_le hfits⟩
  exact hinv.1.accounted hinv.2

/-- A checkpoint made by a pass and forked, a mark deferred with its slot, another mark taken and a
pass of the fork in flight. -/
def markedEvents : List SlotEvent :=
  [.make, .make, .beginPass 0 [⟨0, 2, true, false⟩, ⟨1, 1, false, false⟩], .commit 0, .endPass 0,
    .fork 0 2, .mark 1, .beginPass 0 [⟨1, 2, false, false⟩], .commit 0, .endPass 0,
    .retract 1 2 .deferred, .mark 0, .beginPass 1 [⟨2, 1, false, false⟩]]

def markedWorld : SlotWorld :=
  ⟨1, 16, 4, [1], ⟨[6, 5], [0, 0, 2, 0, 0, 0, 0], [], 3, 2, 2, 2, 1, 2⟩,
    [⟨2, none, some ⟨2, 2⟩, ⟨some ⟨1, 0, true⟩, false, 2⟩, none, 0⟩,
      ⟨2, some 3, none, ⟨none, false, 1⟩, some ⟨0, 1, true⟩, 0⟩,
      ⟨2, some 4, some ⟨2, 2⟩, ⟨none, false, 0⟩, none, 1⟩],
    [⟨false, [⟨1, 2, false, false⟩], [1], [none], 1⟩,
      ⟨true, [⟨2, 1, false, false⟩], [2], [none], 0⟩]⟩

theorem slots_accounted_marked : markedWorld.pool.liveHeld = 2 ∧ markedWorld.Accounted := by
  have hplay : Runs.play (machine fun w => LiveFits w ∧ CopiesFit w)
      (SlotWorld.loaded 1 16 4 [1] 3 2 2 2) markedEvents = some markedWorld := by decide
  exact ⟨rfl, slots_accounted (reach_of_play markedEvents ⟨1, 16, 4, [1], 3, 2, 2, 2, rfl⟩ hplay)⟩

/-- One history's checkpoint at slot 1, and `n` forks of it. -/
def copied (n : Nat) : SlotWorld :=
  ⟨1, 16, 4, [1], ⟨[], [0, (n + 1) % 4294967296], [], 1, 1, 0, 1, 1, 0⟩,
    ⟨1, some 0, some ⟨1, 1⟩, ⟨none, false, 0⟩, none, 0⟩ ::
      List.replicate n ⟨1, none, some ⟨1, 1⟩, ⟨none, false, 0⟩, none, 0⟩,
    [⟨false, [⟨0, 1, true, false⟩], [0], [none], 1⟩]⟩

theorem copied_fork (n : Nat) : (copied n).step (.fork 0 1) = some (copied (n + 1)) := by
  have hrefs : SlotPool.refUp ((n + 1) % 4294967296) = (n + 1 + 1) % 4294967296 := by
    unfold SlotPool.refUp
    omega
  have hfork : (copied n).step (.fork 0 1) = some ((copied n).push
      ⟨(copied n).pool.retain 1, ⟨1, none, some ⟨1, 1⟩, ⟨none, false, 0⟩, none, 0⟩⟩) := rfl
  have hset : [0, (n + 1) % 4294967296].set 1
      (SlotPool.refUp ([0, (n + 1) % 4294967296].getD 1 0)) = [0, (n + 1 + 1) % 4294967296] := by
    rw [← hrefs]
    rfl
  rw [hfork, copied, push, SlotPool.retain, copied, List.replicate_succ', List.cons_append]
  dsimp only
  rw [hset]

theorem copied_live (n : Nat) : (copied n).LiveFits := by
  show List.countP _ (_ :: List.replicate n _) ≤ 1
  rw [List.countP_cons, List.countP_replicate]
  simp

theorem copied_reach (n : Nat) : Reach (machine LiveFits) (copied n) := by
  induction n with
  | zero =>
    refine reach_of_play [.make, .beginPass 0 [⟨0, 1, true, false⟩], .commit 0, .endPass 0]
      ⟨1, 16, 4, [1], 1, 1, 0, 1, rfl⟩ ?_
    decide
  | succ n ih => exact ih.next (machine_step (copied_fork n) (copied_live (n + 1)))

theorem copied_count (n : Nat) : (copied n).checkpoints.count 1 = n + 1 := by
  have hforks : ((List.replicate n (⟨1, none, some ⟨1, 1⟩, ⟨none, false, 0⟩, none, 0⟩ :
      Sequence)).map Sequence.checkpoints).sum = Multiset.replicate n 1 := by
    rw [List.map_replicate, List.sum_replicate]
    exact Multiset.nsmul_singleton 1 n
  show Multiset.count 1 (({1} + List.sum (List.map _ (List.replicate n _))) + 0) = _
  rw [hforks, add_zero, Multiset.singleton_add, Multiset.count_cons_self,
    Multiset.count_replicate_self]

/-- The count of a checkpoint's copies wraps at 2^32 of them. -/
theorem copies_wrap : ¬ ∀ w : SlotWorld, Reach (machine LiveFits) w → w.Accounted := by
  intro hall
  have hrefs := (hall _ (copied_reach 4294967295)).refs 1
  rw [copied_count] at hrefs
  have hzero : (copied 4294967295).pool.refs.getD 1 0 = (4294967295 + 1) % 4294967296 := rfl
  omega

end SlotWorld

end Llmx
