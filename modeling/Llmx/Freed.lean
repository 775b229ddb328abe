import Llmx.FreedSlots
import Mathlib.Data.List.ReduceOption

/-!
What a plan counts as given back by dropping sequences, against the resets that drop them.
-/

namespace Llmx

/-- Where a sequence is: its table in each storage, and its place among the holders of state. -/
structure SequenceRef where
  tables : List Nat
  holds : Nat
deriving DecidableEq, Repr

/-- What dropping gives back: the blocks of each storage, and the checkpoint slots. -/
structure Freed where
  blocks : List Nat
  slots : Nat
deriving DecidableEq, Repr

/-- A model's KV storages, and its state slots where its layers keep a recurrent state. -/
structure Caches where
  storages : List KVStorage
  slots : Option SlotWorld

namespace Caches

/-- The tables the sequences of `set` have in storage `s`. -/
def tables (set : List SequenceRef) (s : Nat) : List Nat := set.filterMap fun q => q.tables[s]?

/-- The count of a plan, over a set that may name no sequence at some places. -/
def freed (m : Caches) (set : List (Option SequenceRef)) (kept : Option SequenceRef)
    (keptLen : Nat) : Freed where
  blocks := m.storages.mapIdx fun s st =>
    st.freed (tables set.reduceOption s) (kept.bind fun q => q.tables[s]?) keptLen
  slots := m.slots.elim 0 fun w =>
    w.freed (set.reduceOption.map SequenceRef.holds) (kept.map SequenceRef.holds)

def eachTable (f : KVStorage → Nat → Option KVStorage) :
    List KVStorage → List Nat → Option (List KVStorage)
  | st :: sts, i :: is => (f st i).bind fun st => (eachTable f sts is).map (st :: ·)
  | sts, _ => some sts

def eachSlots (f : SlotWorld → Option SlotWorld) : Option SlotWorld → Option (Option SlotWorld)
  | none => some none
  | some w => (f w).map some

/-- A sequence more, a fork of `q` at `length`; `none` where the fork threw. -/
def fork (m : Caches) (q : SequenceRef) (length : Nat) : Option Caches :=
  (eachSlots (fun w => w.forked q.holds length) m.slots).bind fun slots =>
    (eachTable (fun st i => st.fork i length) m.storages q.tables).map fun storages =>
      ⟨storages, slots⟩

/-- Where a plan keeps a sequence, the fork of it still to be made. -/
def keeping (m : Caches) (kept : Option SequenceRef) (keptLen : Nat) : Option Caches :=
  kept.elim (some m) fun q => m.fork q keptLen

def reset (m : Caches) (q : SequenceRef) : Option Caches :=
  (eachSlots (fun w => w.resetIdle q.holds) m.slots).bind fun slots =>
    (eachTable KVStorage.reset m.storages q.tables).map fun storages => ⟨storages, slots⟩

def resetAll (m : Caches) (set : List SequenceRef) : Option Caches := set.foldlM reset m

def inUse (m : Caches) : List Nat := m.storages.map fun st => st.cache.pool.inUse

def keptHeld (m : Caches) : Nat := m.slots.elim 0 fun w => w.pool.keptHeld

def CopiesFit (m : Caches) : Prop := ∀ w, m.slots = some w → w.CopiesFit

/-- Storages and slots as runs leave them, no slot ever at 2^32 checkpoints at once. -/
structure Reached (m : Caches) : Prop where
  storages : ∀ st ∈ m.storages, st.Reached
  slots : ∀ w, m.slots = some w → Runs.Reach (SlotWorld.machine SlotWorld.CopiesFit) w

/-- Sequences of the model, each named once, none with a step in progress. -/
structure Idle (m : Caches) (set : List SequenceRef) : Prop where
  tables : ∀ (s : Nat) (st : KVStorage), m.storages[s]? = some st →
    (tables set s).Nodup ∧ ∀ i ∈ tables set s, i < st.cache.seqs.length
  holds : ∀ w, m.slots = some w → (set.map SequenceRef.holds).Nodup ∧
    ∀ i ∈ set.map SequenceRef.holds, i < w.seqs.length ∧ (w.seqAt i).flights = 0

variable {m forked : Caches}

theorem eachTable_get {f : KVStorage → Nat → Option KVStorage} {sts sts' : List KVStorage}
    {is : List Nat} (h : eachTable f sts is = some sts') :
    sts'.length = sts.length ∧ ∀ (s : Nat) (st : KVStorage), sts[s]? = some st →
      ∃ st', sts'[s]? = some st' ∧ (is[s]?).elim (some st) (f st) = some st' := by
  induction sts generalizing is sts' with
  | nil =>
    cases h
    exact ⟨Eq.refl _, fun s st hs => by cases hs⟩
  | cons st sts ih =>
    cases is with
    | nil =>
      cases h
      exact ⟨Eq.refl _, fun s t hs => ⟨t, hs, Eq.refl _⟩⟩
    | cons i is =>
      obtain ⟨t, ht, h⟩ := Option.bind_eq_some_iff.mp h
      obtain ⟨ts, hts, h⟩ := Option.map_eq_some_iff.mp h
      cases h
      obtain ⟨hlen, hget⟩ := ih hts
      refine ⟨by rw [List.length_cons, hlen, List.length_cons], fun s u hs => ?_⟩
      cases s with
      | zero =>
        cases hs
        exact ⟨t, Eq.refl _, ht⟩
      | succ s => exact hget s u hs

theorem eachTable_some {f : KVStorage → Nat → Option KVStorage} {sts : List KVStorage}
    {is : List Nat}
    (h : ∀ (s : Nat) (st : KVStorage), sts[s]? = some st →
      ∃ st', (is[s]?).elim (some st) (f st) = some st') :
    ∃ sts', eachTable f sts is = some sts' := by
  induction sts generalizing is with
  | nil => exact ⟨[], by cases is <;> exact Eq.refl _⟩
  | cons st sts ih =>
    cases is with
    | nil => exact ⟨st :: sts, Eq.refl _⟩
    | cons i is =>
      obtain ⟨t, ht⟩ := h 0 st (Eq.refl _)
      obtain ⟨ts, hts⟩ := ih fun s u hs => h (s + 1) u hs
      have ht : f st i = some t := ht
      exact ⟨t :: ts, by rw [eachTable, ht, Option.bind_some, hts, Option.map_some]⟩

theorem resetAll_cons (st : KVStorage) (q : SequenceRef) (set : List SequenceRef) (s : Nat) :
    st.resetAll (tables (q :: set) s) =
      ((q.tables[s]?).elim (some st) st.reset).bind fun st => st.resetAll (tables set s) := by
  unfold tables
  rw [List.filterMap_cons]
  cases q.tables[s]? with
  | none => exact Eq.refl _
  | some i => exact List.foldlM_cons ..

/-- The sequences named reset, storage by storage. -/
theorem resetAll_some {set : List SequenceRef} {slots : Option SlotWorld}
    (hst : ∀ (s : Nat) (st : KVStorage), m.storages[s]? = some st →
      ∃ st', st.resetAll (tables set s) = some st')
    (hslots : eachSlots (fun w => w.resetAll (set.map SequenceRef.holds)) m.slots = some slots) :
    ∃ after, m.resetAll set = some after ∧ after.slots = slots ∧
      after.storages.length = m.storages.length ∧
      ∀ (s : Nat) (st : KVStorage), m.storages[s]? = some st →
        ∃ st', after.storages[s]? = some st' ∧ st.resetAll (tables set s) = some st' := by
  induction set generalizing m with
  | nil =>
    refine ⟨m, Eq.refl _, ?_, Eq.refl _, fun s st hs => ⟨st, hs, Eq.refl _⟩⟩
    cases hm : m.slots with
    | none =>
      rw [hm] at hslots
      exact Option.some.inj hslots
    | some w =>
      rw [hm] at hslots
      exact Option.some.inj hslots
  | cons q set ih =>
    obtain ⟨mid, hmid, hrest⟩ : ∃ mid,
        eachSlots (fun w => w.resetIdle q.holds) m.slots = some mid ∧
        eachSlots (fun w => w.resetAll (set.map SequenceRef.holds)) mid = some slots := by
      cases hm : m.slots with
      | none =>
        rw [hm] at hslots
        exact ⟨none, Eq.refl _, hslots⟩
      | some w =>
        rw [hm] at hslots
        obtain ⟨v, hv, hslots⟩ := Option.map_eq_some_iff.mp hslots
        obtain ⟨u, hu, hv⟩ := Option.bind_eq_some_iff.mp hv
        have hv : u.resetAll (set.map SequenceRef.holds) = some v := hv
        refine ⟨some u, ?_, ?_⟩
        · rw [eachSlots, hu, Option.map_some]
        · rw [← hslots, eachSlots, hv, Option.map_some]
    obtain ⟨sts, hsts⟩ : ∃ sts, eachTable KVStorage.reset m.storages q.tables = some sts := by
      refine eachTable_some fun s st hs => ?_
      obtain ⟨st', hst'⟩ := hst s st hs
      rw [resetAll_cons] at hst'
      obtain ⟨u, hu, -⟩ := Option.bind_eq_some_iff.mp hst'
      exact ⟨u, hu⟩
    have hreset : m.reset q = some ⟨sts, mid⟩ := by
      rw [reset, hmid, Option.bind_some, hsts, Option.map_some]
    obtain ⟨hlen, hget⟩ := eachTable_get hsts
    have hback : ∀ (s : Nat) (u : KVStorage), sts[s]? = some u → ∃ st, m.storages[s]? = some st ∧
        (q.tables[s]?).elim (some st) st.reset = some u := by
      intro s u hs
      obtain ⟨hlt, -⟩ := List.getElem?_eq_some_iff.mp hs
      rw [hlen] at hlt
      have hat := List.getElem?_eq_getElem hlt
      obtain ⟨u', hu', hstep⟩ := hget s _ hat
      rw [hs] at hu'
      cases hu'
      exact ⟨_, hat, hstep⟩
    obtain ⟨after, hafter, hslots', hlen', hstores⟩ := ih (m := ⟨sts, mid⟩) (fun s u hs => by
      obtain ⟨st, hat, hstep⟩ := hback s u hs
      obtain ⟨st', hst'⟩ := hst s st hat
      rw [resetAll_cons, hstep, Option.bind_some] at hst'
      exact ⟨st', hst'⟩) hrest
    refine ⟨after, ?_, hslots', hlen'.trans hlen, fun s st hs => ?_⟩
    · rw [resetAll, List.foldlM_cons, hreset]
      exact hafter
    · obtain ⟨u, hu, hstep⟩ := hget s st hs
      obtain ⟨st', hst', hrun⟩ := hstores s u hu
      refine ⟨st', hst', ?_⟩
      rw [resetAll_cons, hstep, Option.bind_some]
      exact hrun

/-- The fork a plan still has to make, storage by storage. -/
theorem keeping_get {kept : Option SequenceRef} {keptLen : Nat}
    (hf : m.keeping kept keptLen = some forked) :
    eachSlots (fun w => (kept.map SequenceRef.holds).elim (some w) fun i => w.forked i keptLen)
        m.slots = some forked.slots ∧
      forked.storages.length = m.storages.length ∧
      ∀ (s : Nat) (st : KVStorage), m.storages[s]? = some st →
        ∃ st', forked.storages[s]? = some st' ∧
          (kept.bind fun q => q.tables[s]?).elim (some st) (fun i => st.fork i keptLen) =
            some st' := by
  cases kept with
  | none =>
    cases hf
    refine ⟨?_, Eq.refl _, fun s st hs => ⟨st, hs, Eq.refl _⟩⟩
    cases m.slots with
    | none => exact Eq.refl _
    | some w => exact Eq.refl _
  | some q =>
    obtain ⟨slots, hslots, hf⟩ := Option.bind_eq_some_iff.mp hf
    obtain ⟨sts, hsts, hf⟩ := Option.map_eq_some_iff.mp hf
    cases hf
    exact ⟨hslots, eachTable_get hsts⟩

/-- What a plan counts as freed is what its resets give back: each pool's blocks in use before are
those in use after the fork still to be made and the resets, and the blocks freed; and the
checkpoint slots likewise. -/
theorem freed_is_returned {set : List (Option SequenceRef)} {kept : Option SequenceRef}
    {keptLen : Nat} (h : m.Reached) (hset : m.Idle set.reduceOption)
    (hf : m.keeping kept keptLen = some forked) (hcopies : forked.CopiesFit) :
    ∃ after, forked.resetAll set.reduceOption = some after ∧
      m.inUse = List.zipWith (· + ·) after.inUse (m.freed set kept keptLen).blocks ∧
      m.keptHeld = after.keptHeld + (m.freed set kept keptLen).slots := by
  obtain ⟨hslots, hlen, hget⟩ := keeping_get hf
  have hst : ∀ (s : Nat) (st : KVStorage), m.storages[s]? = some st →
      ∃ st' after, forked.storages[s]? = some st' ∧
        st'.resetAll (tables set.reduceOption s) = some after ∧
        st.cache.pool.inUse = after.cache.pool.inUse + st.freed (tables set.reduceOption s)
          (kept.bind fun q => q.tables[s]?) keptLen := by
    intro s st hs
    obtain ⟨st', hst', hfork⟩ := hget s st hs
    obtain ⟨hnd, hlt⟩ := hset.tables s st hs
    obtain ⟨after, hafter, hsum⟩ :=
      KVStorage.freed_eq (h.storages st (List.mem_of_getElem? hs)) hlt hnd hfork
    exact ⟨st', after, hst', hafter, hsum⟩
  obtain ⟨slots, hreset, hheld⟩ : ∃ slots,
      eachSlots (fun w => w.resetAll (set.reduceOption.map SequenceRef.holds)) forked.slots =
          some slots ∧
        m.keptHeld = (slots.elim 0 fun w => w.pool.keptHeld) +
          (m.freed set kept keptLen).slots := by
    unfold keptHeld freed
    cases hm : m.slots with
    | none =>
      rw [hm] at hslots
      rw [← Option.some.inj hslots]
      exact ⟨none, Eq.refl _, Eq.refl _⟩
    | some w =>
      rw [hm] at hslots
      obtain ⟨v, hv, hslots⟩ := Option.map_eq_some_iff.mp hslots
      obtain ⟨hnd, hall⟩ := hset.holds w hm
      obtain ⟨after, hafter, hsum⟩ := SlotWorld.freed_eq (h.slots w hm) (fun i hi => (hall i hi).1)
        (fun i hi => (hall i hi).2) hnd hv (hcopies v hslots.symm)
      rw [← hslots]
      exact ⟨some after, by rw [eachSlots, hafter, Option.map_some], hsum⟩
  obtain ⟨after, hafter, hslots', hlen', hstores⟩ := resetAll_some (m := forked) (fun s u hs => by
    obtain ⟨hlt, -⟩ := List.getElem?_eq_some_iff.mp hs
    rw [hlen] at hlt
    obtain ⟨st', done, hst', hdone, -⟩ := hst s _ (List.getElem?_eq_getElem hlt)
    rw [hs] at hst'
    cases hst'
    exact ⟨done, hdone⟩) hreset
  refine ⟨after, hafter, ?_, by rw [hheld, keptHeld, hslots']⟩
  apply List.ext_getElem?
  intro s
  rw [List.getElem?_zipWith, inUse, inUse, freed, List.getElem?_map, List.getElem?_map,
    List.getElem?_mapIdx]
  cases hs : m.storages[s]? with
  | none => simp
  | some st =>
    obtain ⟨st', done, hst', hdone, hsum⟩ := hst s st hs
    obtain ⟨done', hdone', hrun⟩ := hstores s st' hst'
    rw [hdone] at hrun
    cases hrun
    simp [hdone', hsum]

/-- Histories over shared blocks, one kept apart: a table of two blocks whose first a fork of it
shares, and a block of another. -/
def sharedCalls : List KVCall :=
  [.configure 4, .bind 2, .prepare 0 4, .commit 0, .fork 0 2, .bind 2, .prepare 2 1, .commit 2]

def sharedStorage : KVStorage :=
  ⟨2, ⟨⟨4, 3, [], [2, 1, 1]⟩,
    [⟨true, 2, 4, 0, [0, 1]⟩, ⟨true, 2, 2, 0, [0]⟩, ⟨true, 2, 1, 0, [2]⟩]⟩⟩

/-- The first and the last dropped beside a fork of the second, which keeps the block shared. -/
theorem freed_is_returned_shared :
    (Caches.mk [sharedStorage] none).freed [some ⟨[0], 0⟩, none, some ⟨[2], 2⟩] (some ⟨[1], 1⟩)
        2 = ⟨[2], 0⟩ ∧
      ∃ forked after, (Caches.mk [sharedStorage] none).keeping (some ⟨[1], 1⟩) 2 = some forked ∧
        forked.resetAll [⟨[0], 0⟩, ⟨[2], 2⟩] = some after ∧
        (Caches.mk [sharedStorage] none).inUse = List.zipWith (· + ·) after.inUse [2] := by
  have hplay : Runs.play (KVCache.storageMachine 2) ⟨⟨0, 0, [], []⟩, []⟩ sharedCalls =
      some sharedStorage.cache := by decide
  have hreach : sharedStorage.Reached := Runs.reach_of_play sharedCalls (Eq.refl _) hplay
  have hfreed : (Caches.mk [sharedStorage] none).freed [some ⟨[0], 0⟩, none, some ⟨[2], 2⟩]
      (some ⟨[1], 1⟩) 2 = ⟨[2], 0⟩ := by decide
  have hidle : (Caches.mk [sharedStorage] none).Idle [⟨[0], 0⟩, ⟨[2], 2⟩] := by
    refine ⟨fun s st hs => ?_, fun w hw => by cases hw⟩
    cases s with
    | zero =>
      cases hs
      decide
    | succ s => cases hs
  obtain ⟨after, hafter, huse, -⟩ := @freed_is_returned ⟨[sharedStorage], none⟩ _
    [some ⟨[0], 0⟩, none, some ⟨[2], 2⟩] (some ⟨[1], 1⟩) 2
    ⟨by simpa using hreach, fun w hw => by cases hw⟩ hidle (Eq.refl _) fun w hw => by cases hw
  rw [hfreed] at huse
  exact ⟨hfreed, _, after, Eq.refl _, hafter, huse⟩

theorem fork_slots {w v : SlotWorld} {i length : Nat} (h : w.forked i length = some v) :
    (Caches.mk [] (some w)).fork ⟨[], i⟩ length = some ⟨[], some v⟩ := by
  rw [fork, eachSlots, h]
  exact Eq.refl _

theorem reset_slots {w v : SlotWorld} {i : Nat} (h : w.resetIdle i = some v) :
    (Caches.mk [] (some w)).reset ⟨[], i⟩ = some ⟨[], some v⟩ := by
  rw [reset, eachSlots, h]
  exact Eq.refl _

/-- At 2^32 histories over one checkpoint its count has wrapped: the slot a fork is to keep is
counted as kept, and the first reset gives it back. -/
theorem not_freed_is_returned : ¬ ∀ (m forked after : Caches) (set : List (Option SequenceRef))
    (kept : Option SequenceRef) (keptLen : Nat), (∀ st ∈ m.storages, st.Reached) →
    (∀ w, m.slots = some w → Runs.Reach (SlotWorld.machine SlotWorld.LiveFits) w) →
    m.Idle set.reduceOption → m.keeping kept keptLen = some forked →
    forked.resetAll set.reduceOption = some after →
    m.keptHeld = after.keptHeld + (m.freed set kept keptLen).slots := by
  intro hall
  obtain ⟨n, hn⟩ : ∃ n, (n + 1 + 1) % 4294967296 = 1 := ⟨4294967295, by omega⟩
  obtain ⟨v, hv, hzero⟩ := SlotWorld.copied_reset hn
  have hkeeping := fork_slots (SlotWorld.copied_forked n)
  have hreset : (Caches.mk [] (some (SlotWorld.copied (n + 1)))).resetAll [⟨[], 0⟩] =
      some ⟨[], some v⟩ := by
    rw [resetAll, List.foldlM_cons, reset_slots hv]
    exact Eq.refl _
  have hidle : (Caches.mk [] (some (SlotWorld.copied n))).Idle [⟨[], 0⟩] := by
    refine ⟨fun s st hs => (by cases hs), fun w hw => ?_⟩
    rw [← Option.some.inj hw]
    refine ⟨by simp, fun i hi => ?_⟩
    rw [List.map_singleton, List.mem_singleton] at hi
    rw [hi]
    exact ⟨Nat.succ_pos _, Eq.refl _⟩
  have heq := hall _ _ _ [some ⟨[], 0⟩] (some ⟨[], 0⟩) 1 (fun st hst => by cases hst)
    (fun w hw => by rw [← Option.some.inj hw]; exact SlotWorld.copied_reach n) hidle hkeeping hreset
  have hfreed : (SlotWorld.copied n).freed [0] (some 0) = 0 := Eq.refl _
  have heq : 1 = v.pool.keptHeld + (SlotWorld.copied n).freed [0] (some 0) := heq
  rw [hzero, hfreed] at heq
  omega

end Caches

end Llmx
