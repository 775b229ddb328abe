import Llmx.KVBudget
import Llmx.Tally
import Llmx.SlotSafe

namespace Llmx

/-- A storage's block size, its pool and the tables of its sequences. -/
structure KVStorage where
  blockTokens : Nat
  cache : KVCache
deriving DecidableEq, Repr

namespace KVStorage

/-- The storages a model's calls reach, every sequence bound at the storage's block size. -/
def Reached (st : KVStorage) : Prop :=
  Runs.Reach (KVCache.storageMachine st.blockTokens) st.cache

def table (st : KVStorage) (i : Nat) : List Nat :=
  (st.cache.seqs.getD i KVSequence.blank).blocks

/-- The blocks that dropping the sequences of `set` gives back, a fork of `kept` at `keptLen` made
first. -/
def freed (st : KVStorage) (set : List Nat) (kept : Option Nat) (keptLen : Nat) : Nat :=
  let refs := List.replicate st.cache.pool.max 0
  let refs := tally refs (set.flatMap st.table)
  let refs := wipe refs (kept.toList.flatMap fun i =>
    (st.table i).take (blocksFor keptLen st.blockTokens))
  allCounted refs st.cache.pool.refs

/-- A sequence more, over the first `length` tokens of sequence `i`; `none` where the fork threw. -/
def fork (st : KVStorage) (i length : Nat) : Option KVStorage :=
  (st.cache.step (.fork i length)).bind fun c =>
    if c.seqs.length = st.cache.seqs.length then none else some { st with cache := c }

def reset (st : KVStorage) (i : Nat) : Option KVStorage :=
  (st.cache.step (.reset i)).map fun c => { st with cache := c }

/-- The sequences named reset, one after the other. -/
def resetAll (st : KVStorage) (set : List Nat) : Option KVStorage := set.foldlM reset st

variable {st : KVStorage}

theorem table_eq {i : Nat} {s : KVSequence} (hs : st.cache.seqs[i]? = some s) :
    st.table i = s.blocks := by
  rw [table, List.getD_eq_getElem?_getD, hs, Option.getD_some]

/-- A sequence reset lists no block, and the others what they listed. -/
theorem reset_ok (h : st.cache.Ok) {i : Nat} (hi : i < st.cache.seqs.length) :
    ∃ st', st.reset i = some st' ∧ st'.cache.Ok ∧
      st'.cache.seqs.length = st.cache.seqs.length ∧ (∀ j, j ≠ i → st'.table j = st.table j) ∧
      listed st.cache.seqs = ↑(st.table i) + listed st'.cache.seqs := by
  have hget : st.cache.seqs[i]? = some st.cache.seqs[i] := List.getElem?_eq_getElem hi
  obtain ⟨q, t, ht, ho⟩ := (Owned.perm h (perm_cons_eraseIdx hget)).truncate 0
  have hempty : t.blocks = [] := by
    obtain ⟨⟨mid, blocks⟩, hcut, ht⟩ := Option.map_eq_some_iff.mp ht
    obtain ⟨-, rfl⟩ := Prod.mk.inj ht
    obtain ⟨mid', -, hcut⟩ := Option.map_eq_some_iff.mp hcut
    obtain ⟨-, rfl⟩ := Prod.mk.inj hcut
    have hzero : (if 0 < st.cache.seqs[i].length then 0 else st.cache.seqs[i].length) = 0 := by
      split <;> omega
    dsimp only
    rw [hzero]
    simp [blocksFor]
  have hperm := List.set_perm_cons_eraseIdx hi t
  refine ⟨⟨st.blockTokens, q, st.cache.seqs.set i t⟩, ?_, ho.perm hperm.symm, List.length_set,
    fun j hj => ?_, ?_⟩
  · have hstep : st.cache.step (.reset i) = some ⟨q, st.cache.seqs.set i t⟩ := by
      rw [KVCache.step, KVCache.on, hget, Option.bind_some, KVSequence.reset, ht]
      exact Eq.refl _
    rw [reset, hstep]
    exact Eq.refl _
  · unfold table
    rw [List.getD_eq_getElem?_getD, List.getD_eq_getElem?_getD, List.getElem?_set_ne (Ne.symm hj)]
  · have hlisted : listed (st.cache.seqs.set i t) = listed (t :: st.cache.seqs.eraseIdx i) :=
      Multiset.coe_eq_coe.mpr (hperm.flatMap_right _)
    have hbefore : listed st.cache.seqs =
        listed (st.cache.seqs[i] :: st.cache.seqs.eraseIdx i) :=
      Multiset.coe_eq_coe.mpr ((perm_cons_eraseIdx hget).flatMap_right _)
    rw [hlisted, hbefore, listed_cons, listed_cons, hempty, table_eq hget]
    simp

/-- Sequences reset one after the other take their references from those listed. -/
theorem resetAll_ok {set : List Nat} (h : st.cache.Ok)
    (hlt : ∀ i ∈ set, i < st.cache.seqs.length) (hnd : set.Nodup) :
    ∃ st', st.resetAll set = some st' ∧ st'.cache.Ok ∧
      listed st.cache.seqs = ↑(set.flatMap st.table) + listed st'.cache.seqs := by
  induction set generalizing st with
  | nil => exact ⟨st, Eq.refl _, h, by simp⟩
  | cons i set ih =>
    rw [List.forall_mem_cons] at hlt
    obtain ⟨hi, hnd⟩ := List.nodup_cons.mp hnd
    obtain ⟨mid, hmid, hok, hlen, htable, hlisted⟩ := reset_ok h hlt.1
    obtain ⟨st', hst', hok', hlisted'⟩ := ih hok (fun j hj => by rw [hlen]; exact hlt.2 j hj) hnd
    have hsame : set.flatMap mid.table = set.flatMap st.table :=
      List.flatMap_congr fun j hj => htable j fun heq => hi (heq ▸ hj)
    refine ⟨st', ?_, hok', ?_⟩
    · rw [resetAll, List.foldlM_cons, hmid]
      exact hst'
    · rw [hlisted, hlisted', hsame, List.flatMap_cons, ← Multiset.coe_add, add_assoc]

theorem fork_blocks {p q : BlockPool} {held : Multiset Nat} {s f : KVSequence} {length : Nat}
    (hc : p.Counts held) (h : KVSequence.fork p s length = some (q, some f)) :
    s.bound = true ∧ length % s.blockTokens = 0 ∧
      f.blocks = s.blocks.take (length / s.blockTokens) := by
  unfold KVSequence.fork at h
  split at h
  next => cases h
  next hbound =>
    split at h
    next => cases h
    split at h
    next => cases h
    next hwhole =>
      split at h
      next mid blocks hret =>
        cases h
        have hc : p.Counts (↑([] : List Nat) + held) := by simpa using hc
        have hout := (hc.retainBlocks hret).2 (Eq.refl _)
        exact ⟨by simpa using hbound, by omega, hout⟩
      next =>
        obtain ⟨⟨last, u⟩, -, h⟩ := Option.map_eq_some_iff.mp h
        cases h

/-- A fork made lists the first blocks of its source's table, whole ones of its length. -/
theorem fork_ok (h : st.cache.Ok) (hb : st.cache.Budget st.blockTokens) {i length : Nat}
    {st' : KVStorage} (hf : st.fork i length = some st') :
    st'.cache.Ok ∧ st.cache.seqs.length ≤ st'.cache.seqs.length ∧
      (∀ j < st.cache.seqs.length, st'.table j = st.table j) ∧ i < st.cache.seqs.length ∧
      listed st'.cache.seqs = listed st.cache.seqs +
        ↑((st.table i).take (blocksFor length st.blockTokens)) := by
  obtain ⟨c, hc, hf⟩ := Option.bind_eq_some_iff.mp hf
  split at hf
  next => cases hf
  next hmore =>
    cases hf
    obtain ⟨s, hs, hstep⟩ := Option.bind_eq_some_iff.mp hc
    obtain ⟨⟨q, f⟩, hfork, hstep⟩ := Option.map_eq_some_iff.mp hstep
    obtain ⟨hi, -⟩ := List.getElem?_eq_some_iff.mp hs
    obtain ⟨d, hd, hok⟩ := @KVCache.Ok.step _ h (.fork i length) hi
    rw [hc] at hd
    cases hd
    cases hstep
    cases f with
    | none => exact absurd (by simp) hmore
    | some f =>
      have hblocks : f.blocks = s.blocks.take (blocksFor length st.blockTokens) := by
        obtain ⟨hbound, hwhole, hblocks⟩ := fork_blocks (Owned.counts h) hfork
        rw [hblocks, ← hb.bound s (List.mem_of_getElem? hs) hbound, blocksFor_mul hwhole]
      refine ⟨hok, by simp, fun j hj => ?_, hi, ?_⟩
      · unfold table
        rw [List.getD_eq_getElem?_getD, List.getD_eq_getElem?_getD]
        exact congrArg (fun o => (Option.getD o KVSequence.blank).blocks)
          (List.getElem?_append_left hj)
      · rw [table_eq hs, ← hblocks]
        simp [listed]

/-- What dropping the sequences of `set` takes off the blocks in use, `kept` forked first where
there is one. -/
theorem freed_eq {forked : KVStorage} {set : List Nat} {kept : Option Nat} {keptLen : Nat}
    (h : st.Reached) (hlt : ∀ i ∈ set, i < st.cache.seqs.length) (hnd : set.Nodup)
    (hf : kept.elim (some st) (fun i => st.fork i keptLen) = some forked) :
    ∃ after, forked.resetAll set = some after ∧
      st.cache.pool.inUse = after.cache.pool.inUse + st.freed set kept keptLen := by
  obtain ⟨hok, hb⟩ := KVCache.storage_ok h
  let shared := kept.toList.flatMap fun i => (st.table i).take (blocksFor keptLen st.blockTokens)
  obtain ⟨hok', hle, htable, hlisted, hshared⟩ : forked.cache.Ok ∧
      st.cache.seqs.length ≤ forked.cache.seqs.length ∧
      (∀ j < st.cache.seqs.length, forked.table j = st.table j) ∧
      listed forked.cache.seqs = listed st.cache.seqs + ↑shared ∧
      ∀ x ∈ shared, x ∈ listed st.cache.seqs := by
    cases kept with
    | none =>
      cases hf
      exact ⟨hok, Nat.le_refl _, fun j _ => Eq.refl _, (add_zero _).symm,
        fun x (hx : x ∈ []) => absurd hx List.not_mem_nil⟩
    | some i =>
      obtain ⟨hok', hle, htable, hi, hlisted⟩ := fork_ok hok hb hf
      have hone : shared = (st.table i).take (blocksFor keptLen st.blockTokens) :=
        List.append_nil _
      refine ⟨hok', hle, htable, by rw [hone]; exact hlisted, fun x hx => ?_⟩
      rw [hone] at hx
      refine mem_listed.mpr ⟨st.cache.seqs[i], List.getElem_mem hi, ?_⟩
      rw [← table_eq (List.getElem?_eq_getElem hi)]
      exact List.mem_of_mem_take hx
  obtain ⟨after, hafter, hokAfter, hdropped⟩ :=
    resetAll_ok hok' (fun i hi => Nat.lt_of_lt_of_le (hlt i hi) hle) hnd
  obtain ⟨alone, -, -, hpart⟩ := resetAll_ok hok hlt hnd
  have hsame : set.flatMap forked.table = set.flatMap st.table :=
    List.flatMap_congr fun j hj => htable j (hlt j hj)
  rw [hsame, hlisted] at hdropped
  refine ⟨after, hafter, ?_⟩
  have hcounts := Owned.counts hok
  rw [hcounts.inUse, (Owned.counts hokAfter).inUse]
  refine allCounted_eq ⟨hdropped, hshared, ?_⟩ (fun x hx => ?_) (fun x hx => ?_) fun x hx => ?_
  · rw [hpart]
    exact Multiset.le_add_right _ _
  · exact Nat.lt_of_lt_of_le (hcounts.lt x hx) hb.fits.next
  · rw [List.getD_eq_getElem?_getD, hcounts.count x (hcounts.lt x hx), Option.getD_some]
  · exact hb.fits.refs _ (List.mem_of_getElem? (hcounts.count x (hcounts.lt x hx)))

end KVStorage

namespace SlotWorld

/-- The slots of the checkpoints of the sequences named. -/
def keptSlots (w : SlotWorld) (set : List Nat) : List Nat :=
  set.filterMap fun i => (w.seqAt i).kept.map Checkpoint.slot

/-- The checkpoint slots that dropping the sequences of `set` gives back, a fork of `kept` at its
checkpoint made first. -/
def freed (w : SlotWorld) (set : List Nat) (kept : Option Nat) : Nat :=
  let held := List.replicate w.pool.refs.length 0
  let held := tally held (w.keptSlots set)
  let held := wipe held (w.keptSlots kept.toList)
  allCounted held w.pool.refs

/-- A sequence more, at sequence `i`'s checkpoint; `none` where the fork threw. -/
def forked (w : SlotWorld) (i length : Nat) : Option SlotWorld :=
  if (w.fork i length).seqs.length = w.seqs.length then none else some (w.fork i length)

/-- A sequence reset; `none` where it is in flight, which a reset throws for. -/
def resetIdle (w : SlotWorld) (i : Nat) : Option SlotWorld :=
  if (w.seqAt i).flights ≠ 0 then none else some (w.on i SlotHolder.reset)

/-- The sequences named reset, one after the other. -/
def resetAll (w : SlotWorld) (set : List Nat) : Option SlotWorld := set.foldlM resetIdle w

variable {w : SlotWorld}

/-- Every run whose states copy no slot 2^32 times keeps the counts. -/
theorem holds_of_reach (h : Runs.Reach (machine CopiesFit) w) : w.Holds 0 ∧ w.CopiesFit := by
  refine h.invariant (fun w => w.Holds 0 ∧ w.CopiesFit) ?_ ?_
  · intro w hw
    obtain ⟨a, b, t, d, live, checkpoints, marks, slots, rfl⟩ := hw
    have c := Holds.loaded a b t d live checkpoints marks slots
    refine ⟨c, fun x hx => ?_⟩
    have hnone := SlotPool.Counts.keptHeld c
    rw [add_zero] at hnone
    have hzero := Multiset.card_eq_zero.mp hnone.symm
    rw [← Multiset.mem_dedup, hzero] at hx
    exact absurd hx (Multiset.notMem_zero x)
  · intro w e v hw hv
    obtain ⟨hstep, hok⟩ := Option.filter_eq_some_iff.mp hv
    have hcopies := of_decide_eq_true hok
    exact ⟨hw.1.step hstep hcopies, hcopies⟩

theorem seqAt_eq {i : Nat} {s : Sequence} (hs : w.seqs[i]? = some s) : w.seqAt i = s := by
  rw [seqAt, List.getD_eq_getElem?_getD, hs, Option.getD_some]

theorem keptSlots_congr {v : SlotWorld} {set : List Nat}
    (h : ∀ i ∈ set, (v.seqAt i).kept = (w.seqAt i).kept) : v.keptSlots set = w.keptSlots set :=
  List.filterMap_congr fun i hi => by rw [h i hi]

theorem keptSlots_one (w : SlotWorld) (i : Nat) :
    (↑(w.keptSlots [i]) : Multiset Nat) = (w.seqAt i).checkpoints := by
  unfold keptSlots Sequence.checkpoints bag
  cases hk : (w.seqAt i).kept with
  | none => simp [hk]
  | some d => simp [hk]

theorem keptSlots_cons (w : SlotWorld) (i : Nat) (set : List Nat) :
    (↑(w.keptSlots (i :: set)) : Multiset Nat) = (w.seqAt i).checkpoints + ↑(w.keptSlots set) := by
  have happend : w.keptSlots (i :: set) = w.keptSlots [i] ++ w.keptSlots set :=
    @List.filterMap_append _ _ [i] set _
  rw [happend, ← Multiset.coe_add, keptSlots_one]

/-- A sequence not in flight reset keeps no checkpoint. -/
theorem reset_checkpoints {p : SlotPool} {s : Sequence} (hs : s.flights = 0) :
    (SlotHolder.mk p s).reset.seq.checkpoints = 0 := by
  obtain ⟨n, state, kept, ⟨hold, ran, pos⟩, deferred, flights⟩ := s
  cases hs
  cases state <;> cases kept <;> cases hold <;> cases deferred <;> exact Eq.refl _

theorem resetIdle_ok (c : w.Holds 0) {i : Nat} (hi : i < w.seqs.length)
    (hidle : (w.seqAt i).flights = 0) :
    ∃ v, w.resetIdle i = some v ∧ v.Holds 0 ∧ v.seqs.length = w.seqs.length ∧
      (∀ j, j ≠ i → v.seqAt j = w.seqAt j) ∧
      w.checkpoints = (w.seqAt i).checkpoints + v.checkpoints := by
  have hs : w.seqs[i]? = some (w.seqAt i) := by
    rw [List.getElem?_eq_getElem hi, seqAt_eq (List.getElem?_eq_getElem hi)]
  have hon : w.on i SlotHolder.reset = w.put i (SlotHolder.reset ⟨w.pool, w.seqAt i⟩) := by
    unfold SlotWorld.on
    rw [hs]
  refine ⟨w.on i SlotHolder.reset, by rw [resetIdle, if_neg (by omega)],
    c.on SlotHolder.Frame.reset, ?_, fun j hj => ?_, ?_⟩
  · rw [hon]
    exact List.length_set
  · rw [hon]
    exact (Holds.seqAt_set hi).trans (if_neg (Ne.symm hj))
  · have hbefore : w.checkpoints + 0 = _ := Holds.checkpoints_at hs
    have hafter : (w.on i SlotHolder.reset).checkpoints = Holds.others w i 0 := by
      rw [hon, checkpoints, Holds.others, add_zero]
      show (List.map _ (w.seqs.set i _)).sum + _ = _
      rw [sum_set _ _ hi, reset_checkpoints hidle, zero_add]
      exact Eq.refl _
    rw [add_zero] at hbefore
    rw [hafter, hbefore]

/-- Sequences reset one after the other take their checkpoints from those held. -/
theorem resetAll_ok {set : List Nat} (c : w.Holds 0) (hlt : ∀ i ∈ set, i < w.seqs.length)
    (hidle : ∀ i ∈ set, (w.seqAt i).flights = 0) (hnd : set.Nodup) :
    ∃ v, w.resetAll set = some v ∧ v.Holds 0 ∧
      w.checkpoints = ↑(w.keptSlots set) + v.checkpoints := by
  induction set generalizing w with
  | nil => exact ⟨w, Eq.refl _, c, (zero_add _).symm⟩
  | cons i set ih =>
    rw [List.forall_mem_cons] at hlt hidle
    obtain ⟨hi, hnd⟩ := List.nodup_cons.mp hnd
    obtain ⟨mid, hmid, cm, hlen, hother, htotal⟩ := resetIdle_ok c hlt.1 hidle.1
    have hsame : ∀ j ∈ set, mid.seqAt j = w.seqAt j :=
      fun j hj => hother j fun heq => hi (heq ▸ hj)
    obtain ⟨v, hv, cv, htotal'⟩ := ih cm (fun j hj => by rw [hlen]; exact hlt.2 j hj)
      (fun j hj => by rw [hsame j hj]; exact hidle.2 j hj) hnd
    refine ⟨v, ?_, cv, ?_⟩
    · rw [resetAll, List.foldlM_cons, hmid]
      exact hv
    · have hkept : mid.keptSlots set = w.keptSlots set :=
        keptSlots_congr fun j hj => by rw [hsame j hj]
      rw [htotal, htotal', keptSlots_cons, hkept, add_assoc]

/-- A fork made holds its source's checkpoint once more. -/
theorem forked_ok {v : SlotWorld} {i length : Nat} (c : w.Holds 0) (hf : w.forked i length = some v)
    (hcopies : v.CopiesFit) :
    v.Holds 0 ∧ w.seqs.length ≤ v.seqs.length ∧
      (∀ j < w.seqs.length, v.seqAt j = w.seqAt j) ∧ i < w.seqs.length ∧
      v.checkpoints = w.checkpoints + (w.seqAt i).checkpoints := by
  unfold forked at hf
  split at hf
  next => cases hf
  next hmore =>
    obtain rfl := Option.some.inj hf
    have cv : (w.fork i length).Holds 0 := by
      refine c.fork fun x => ?_
      rw [add_zero]
      by_cases hx : x ∈ (w.fork i length).checkpoints
      · exact hcopies x hx
      · rw [Multiset.count_eq_zero.mpr hx]
        exact Nat.succ_pos _
    clear hf hcopies
    refine ⟨cv, ?_⟩
    clear cv
    unfold SlotWorld.fork at hmore ⊢
    dsimp only at hmore ⊢
    split at hmore
    next => exact absurd (Eq.refl _) hmore
    next hgo =>
      rw [if_neg hgo]
      split at hmore
      next => exact absurd (Eq.refl _) hmore
      next d hd =>
        split at hmore
        next => exact absurd (Eq.refl _) hmore
        next hat =>
          have hi : i < w.seqs.length := by
            by_contra hi
            rw [seqAt, List.getD_eq_default _ _ (by omega)] at hd
            cases hd
          rw [if_neg hat]
          refine ⟨?_, fun j hj => ?_, hi, ?_⟩
          · show _ ≤ (w.seqs ++ [_]).length
            rw [List.length_append]
            omega
          · show (w.seqs ++ [_]).getD j _ = _
            rw [List.getD_append _ _ _ _ hj]
            exact Eq.refl _
          · have hpush := @Holds.push_checkpoints w 0 (w.pool.retain d.slot)
              { Sequence.fresh with length := length, kept := some d }
            rw [add_zero, add_zero] at hpush
            have hone : (w.seqAt i).checkpoints = {d.slot} := by
              rw [Sequence.checkpoints, hd, Option.map_some, bag_some]
            rw [hpush, hone, add_comm]
            exact Eq.refl _

/-- What dropping the sequences of `set` takes off the checkpoint slots held, `kept` forked first
where there is one. -/
theorem freed_eq {v : SlotWorld} {set : List Nat} {kept : Option Nat} {keptLen : Nat}
    (h : Runs.Reach (machine CopiesFit) w) (hlt : ∀ i ∈ set, i < w.seqs.length)
    (hidle : ∀ i ∈ set, (w.seqAt i).flights = 0) (hnd : set.Nodup)
    (hf : kept.elim (some w) (fun i => w.forked i keptLen) = some v) (hcopies : v.CopiesFit) :
    ∃ after, v.resetAll set = some after ∧
      w.pool.keptHeld = after.pool.keptHeld + w.freed set kept := by
  obtain ⟨c, hfits⟩ := holds_of_reach h
  obtain ⟨cv, hle, hseq, htotal, hshared⟩ : v.Holds 0 ∧ w.seqs.length ≤ v.seqs.length ∧
      (∀ j < w.seqs.length, v.seqAt j = w.seqAt j) ∧
      v.checkpoints = w.checkpoints + ↑(w.keptSlots kept.toList) ∧
      ∀ x ∈ w.keptSlots kept.toList, x ∈ w.checkpoints := by
    cases kept with
    | none =>
      cases hf
      exact ⟨c, Nat.le_refl _, fun j _ => Eq.refl _, (add_zero _).symm,
        fun x (hx : x ∈ []) => absurd hx List.not_mem_nil⟩
    | some i =>
      obtain ⟨cv, hle, hseq, hi, htotal⟩ := forked_ok c hf hcopies
      have hone : (↑(w.keptSlots (some i).toList) : Multiset Nat) = (w.seqAt i).checkpoints :=
        keptSlots_one w i
      refine ⟨cv, hle, hseq, by rw [hone]; exact htotal, fun x hx => ?_⟩
      have hs : w.seqs[i]? = some (w.seqAt i) := by
        rw [List.getElem?_eq_getElem hi, seqAt_eq (List.getElem?_eq_getElem hi)]
      have hbefore : w.checkpoints + 0 = _ := Holds.checkpoints_at hs
      rw [← Multiset.mem_coe, hone] at hx
      rw [add_zero] at hbefore
      rw [hbefore]
      exact Multiset.mem_add.mpr (.inl hx)
  obtain ⟨after, hafter, ca, hdropped⟩ := resetAll_ok cv
    (fun i hi => Nat.lt_of_lt_of_le (hlt i hi) hle)
    (fun i hi => by rw [hseq i (hlt i hi)]; exact hidle i hi) hnd
  obtain ⟨alone, -, -, hpart⟩ := resetAll_ok c hlt hidle hnd
  have hkept : v.keptSlots set = w.keptSlots set :=
    keptSlots_congr fun i hi => by rw [hseq i (hlt i hi)]
  rw [hkept, htotal] at hdropped
  have hc : w.pool.Counts w.live w.marked (w.checkpoints + 0) w.buffers := c
  have ha : after.pool.Counts after.live after.marked (after.checkpoints + 0) after.buffers := ca
  rw [add_zero] at hc ha
  refine ⟨after, hafter, ?_⟩
  rw [hc.keptHeld, ha.keptHeld]
  refine allCounted_eq ⟨hdropped, hshared, ?_⟩ (fun x hx => ?_) (fun x _ => hc.refs x) hfits
  · rw [hpart]
    exact Multiset.le_add_right _ _
  · rw [hc.size]
    exact hc.mem_lt (by simp [hx])

theorem copied_forked (n : Nat) : (copied n).forked 0 1 = some (copied (n + 1)) := by
  have hfork : (copied n).fork 0 1 = copied (n + 1) := Option.some.inj (copied_fork n)
  have hmore : (copied (n + 1)).seqs.length ≠ (copied n).seqs.length := by simp [copied]
  rw [forked, hfork, if_neg hmore]

/-- Where the count has wrapped to one, the next reset gives the slot back. -/
theorem copied_reset {n : Nat} (hn : (n + 1) % 4294967296 = 1) :
    ∃ v, (copied n).resetIdle 0 = some v ∧ v.pool.keptHeld = 0 := by
  refine ⟨(copied n).on 0 SlotHolder.reset, Eq.refl _, ?_⟩
  show SlotPool.keptHeld (SlotPool.release (SlotPool.releaseKept _ 1) 0) = 0
  unfold SlotPool.releaseKept SlotPool.release
  have hone : SlotPool.refDown ([0, (n + 1) % 4294967296].getD 1 0) = 0 := by
    show SlotPool.refDown ((n + 1) % 4294967296) = 0
    rw [hn]
    exact Eq.refl _
  show SlotPool.keptHeld (if SlotPool.refDown ([0, (n + 1) % 4294967296].getD 1 0) ≠ 0 then _
    else _) = 0
  rw [if_neg (by rw [hone]; simp)]
  exact Eq.refl _

end SlotWorld

end Llmx
