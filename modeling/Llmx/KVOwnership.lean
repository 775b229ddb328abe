import Llmx.KVTables

namespace Llmx

theorem perm_cons_eraseIdx {seqs : List KVSequence} {i : Nat} {s : KVSequence}
    (h : seqs[i]? = some s) : seqs.Perm (s :: seqs.eraseIdx i) := by
  obtain ⟨hi, rfl⟩ := List.getElem?_eq_some_iff.mp h
  exact (List.getElem_cons_eraseIdx_perm hi).symm

/-- Two places exchanged. -/
theorem perm_exchange {seqs : List KVSequence} {i j : Nat} {s t : KVSequence} (hne : i ≠ j)
    (hi : seqs[i]? = some s) (hj : seqs[j]? = some t) (s' : KVSequence) :
    ((seqs.set i t).set j s').Perm (s' :: seqs.eraseIdx i) := by
  have hj' : (seqs.set i t)[j]? = some t := by rw [List.getElem?_set_ne hne, hj]
  obtain ⟨hilt, -⟩ := List.getElem?_eq_some_iff.mp hi
  obtain ⟨hjlt, -⟩ := List.getElem?_eq_some_iff.mp hj'
  have h1 : (t :: (seqs.set i t).eraseIdx j).Perm (t :: seqs.eraseIdx i) :=
    (perm_cons_eraseIdx hj').symm.trans (List.set_perm_cons_eraseIdx hilt t)
  exact (List.set_perm_cons_eraseIdx hjlt s').trans (h1.cons_inv.cons s')

namespace KVCache

/-- The pool and the sequences of `c` are in order. -/
def Ok (c : KVCache) : Prop := Owned c.pool c.seqs

variable {c : KVCache}

/-- A call on one sequence keeps the cache in order and does not end the process. -/
theorem Ok.on (h : c.Ok) {i : Nat} (hi : i < c.seqs.length)
    {f : KVSequence → Option (BlockPool × KVSequence)}
    (hf : ∀ s rest, Owned c.pool (s :: rest) → ∃ q t, f s = some (q, t) ∧ Owned q (t :: rest)) :
    ∃ d, c.on i f = some d ∧ d.Ok := by
  have hget : c.seqs[i]? = some c.seqs[i] := List.getElem?_eq_getElem hi
  obtain ⟨q, t, hft, ho⟩ := hf _ _ (Owned.perm h (perm_cons_eraseIdx hget))
  exact ⟨⟨q, c.seqs.set i t⟩, by rw [KVCache.on, hget, Option.bind_some, hft]; rfl,
    ho.perm (List.set_perm_cons_eraseIdx hi t).symm⟩

/-- Every call on sequences that are there returns or throws, and keeps the cache in order. -/
theorem Ok.step (h : c.Ok) {call : KVCall} (hn : c.Names call) :
    ∃ d, c.step call = some d ∧ d.Ok := by
  cases call with
  | configure max =>
    refine ⟨_, if_neg (Nat.not_lt.mpr hn), ?_⟩
    cases hc : c.pool.configure max with
    | none => exact h
    | some q =>
      obtain ⟨hnone, hq⟩ := Owned.counts h |>.configure hc
      exact ⟨by rw [hnone]; exact hq, h.table, h.apart⟩
  | default =>
    exact ⟨_, rfl, (Owned.fresh h Nat.one_pos false).perm (List.perm_append_singleton _ _).symm⟩
  | bind blockTokens =>
    refine ⟨_, rfl, ?_⟩
    split
    · exact h
    · exact (Owned.fresh h (by omega) true).perm (List.perm_append_singleton _ _).symm
  | prepare i n =>
    refine h.on hn fun s rest ho => ?_
    obtain ⟨ok, q, t, hp, ht⟩ := ho.prepare n
    exact ⟨q, t, by rw [hp]; rfl, ht⟩
  | commit i => exact h.on hn fun s rest ho => ⟨_, _, rfl, ho.commit⟩
  | abort i => exact h.on hn fun s rest ho => ho.abort
  | truncate i length => exact h.on hn fun s rest ho => ho.truncate length
  | reset i => exact h.on hn fun s rest ho => ho.truncate 0
  | fork i length =>
    have hget : c.seqs[i]? = some c.seqs[i] := List.getElem?_eq_getElem hn
    obtain ⟨q, f, hf, ho⟩ := (Owned.perm h (perm_cons_eraseIdx hget)).fork length
    refine ⟨⟨q, c.seqs ++ f.toList⟩, by rw [KVCache.step, hget, Option.bind_some, hf]; rfl,
      ho.perm ?_⟩
    exact List.perm_append_comm.trans ((perm_cons_eraseIdx hget).symm.append_right f.toList)
  | moveNew i =>
    have hget : c.seqs[i]? = some c.seqs[i] := List.getElem?_eq_getElem hn
    refine ⟨_, by rw [KVCache.step, hget, Option.map_some], ?_⟩
    have hfresh := (Owned.perm h (perm_cons_eraseIdx hget)).fresh Nat.one_pos false
    refine hfresh.perm ((List.Perm.swap _ _ _).trans ?_)
    exact ((List.set_perm_cons_eraseIdx hn _).symm.cons _).trans
      (List.perm_append_singleton _ _).symm
  | moveTo i j =>
    obtain ⟨hilt, hjlt⟩ : i < c.seqs.length ∧ j < c.seqs.length := hn
    have hi : c.seqs[i]? = some c.seqs[i] := List.getElem?_eq_getElem hilt
    have hj : c.seqs[j]? = some c.seqs[j] := List.getElem?_eq_getElem hjlt
    simp only [KVCache.step, hi, hj, Option.bind_some]
    split
    · exact ⟨c, rfl, h⟩
    next hne =>
      obtain ⟨q, hr, ho⟩ := (Owned.perm h (perm_cons_eraseIdx hi)).releaseAll
      exact ⟨⟨q, _⟩, by rw [hr]; rfl, ho.perm (perm_exchange hne hi hj _).symm⟩
  | destroy i =>
    have hget : c.seqs[i]? = some c.seqs[i] := List.getElem?_eq_getElem hn
    obtain ⟨q, hr, ho⟩ := (Owned.perm h (perm_cons_eraseIdx hget)).releaseAll
    exact ⟨⟨q, c.seqs.eraseIdx i⟩, by rw [KVCache.step, hget, Option.bind_some, hr]; rfl,
      ho.tail rfl⟩

theorem names_of_step {call : KVCall} {d : KVCache} (hs : c.step call = some d) :
    c.Names call := by
  cases call <;>
    simp only [KVCache.step, KVCache.on, Option.bind_eq_some_iff, Option.map_eq_some_iff,
      List.getElem?_eq_some_iff] at hs <;>
    grind [KVCache.Names]

theorem ok_of_reach (h : Runs.Reach machine c) : c.Ok := by
  refine h.invariant Ok ?_ ?_
  · rintro _ rfl
    exact ⟨⟨rfl, by simp [listed], by simp, by simp, by simp⟩, by simp, by simp⟩
  · intro s call t hs hstep
    obtain ⟨d, hd, hok⟩ := hs.step (names_of_step hstep)
    rw [show KVCache.step s call = some t from hstep] at hd
    cases hd
    exact hok

end KVCache

theorem count_listed {seqs : List KVSequence} (h : ∀ s ∈ seqs, s.blocks.Nodup) (id : Nat) :
    (listed seqs).count id = seqs.countP fun s => decide (id ∈ s.blocks) := by
  induction seqs with
  | nil => simp [listed]
  | cons s seqs ih =>
    rw [List.forall_mem_cons] at h
    rw [listed_cons, Multiset.count_add, ih h.2, Multiset.coe_count, List.countP_cons, Nat.add_comm]
    by_cases hid : id ∈ s.blocks
    · simp [hid, List.count_eq_one_of_mem h.1 hid]
    · simp [hid, List.count_eq_zero_of_not_mem hid]

/-- A row of a step in progress lies in a block no other sequence lists. -/
theorem Owned.row {p : BlockPool} {s : KVSequence} {rest : List KVSequence}
    (h : Owned p (s :: rest)) {pos : Nat} (hlo : s.length ≤ pos)
    (hhi : pos < s.length + s.pending) :
    ∃ id, s.blocks[pos / s.blockTokens]? = some id ∧ p.refs[id]? = some 1 ∧ id ∉ listed rest := by
  have hs := h.table s (by simp)
  have hlt : pos / s.blockTokens < s.blocks.length := by
    rw [hs.length_eq]
    exact div_lt_blocksFor hhi
  have hmem : s.blocks[pos / s.blockTokens] ∈ s.blocks := List.getElem_mem hlt
  have hwritten : s.blocks[pos / s.blockTokens] ∈ s.written := by
    have hdiv : s.length / s.blockTokens ≤ pos / s.blockTokens := Nat.div_le_div_right hlo
    have hpending : s.pending ≠ 0 := by omega
    rw [KVSequence.written, if_neg hpending, List.mem_drop_iff_getElem]
    exact ⟨pos / s.blockTokens - s.length / s.blockTokens, by omega, by congr 1; omega⟩
  have hnot : s.blocks[pos / s.blockTokens] ∉ listed rest := by
    intro hin
    obtain ⟨t, ht, hin⟩ := mem_listed.mp hin
    exact ((List.pairwise_cons.mp h.apart).1 t ht).1 _ hwritten hin
  refine ⟨_, List.getElem?_eq_getElem hlt, ?_, hnot⟩
  rw [h.counts.count _ (h.counts.lt _ (mem_listed.mpr ⟨s, by simp, hmem⟩)), listed_cons,
    Multiset.count_add, Multiset.coe_count, List.count_eq_one_of_mem hs.nodup hmem,
    Multiset.count_eq_zero.mpr hnot]

/-- Block ownership over whole runs: counts, the free list, whole tables for what is held, and no
step writing into a block another sequence lists; and no call ends the process. -/
theorem kv_blocks_are_owned {c : KVCache} (h : Runs.Reach KVCache.machine c) :
    (∀ id < c.pool.next, c.pool.refs[id]? = some (c.seqs.countP fun s => decide (id ∈ s.blocks))) ∧
      (∀ s ∈ c.seqs, s.blocks.Nodup ∧ ∀ id ∈ s.blocks, id < c.pool.next) ∧
      c.pool.free.Nodup ∧
      (∀ id, id ∈ c.pool.free ↔ id < c.pool.next ∧ c.pool.refs[id]? = some 0) ∧
      c.pool.inUse = (c.seqs.flatMap KVSequence.blocks).toFinset.card ∧
      (∀ s ∈ c.seqs, s.pending = 0 → s.blocks.length = blocksFor s.length s.blockTokens) ∧
      (∀ (i : Nat) (s : KVSequence), c.seqs[i]? = some s →
        ∀ pos, s.length ≤ pos → pos < s.length + s.pending →
          ∃ id, s.blocks[pos / s.blockTokens]? = some id ∧ c.pool.refs[id]? = some 1 ∧
            ∀ (j : Nat) (t : KVSequence), j ≠ i → c.seqs[j]? = some t → id ∉ t.blocks) ∧
      ∀ call, c.Names call → ∃ d, c.step call = some d := by
  have hok := KVCache.ok_of_reach h
  obtain ⟨hc, ht, -⟩ := id hok
  refine ⟨fun id hid => ?_, fun s hs => ⟨(ht s hs).nodup, fun id hid => ?_⟩, hc.nodup,
    fun id => ?_, hc.inUse, fun s hs hidle => ?_, fun i s hi pos hlo hhi => ?_, fun call hn => ?_⟩
  · rw [hc.count id hid, count_listed fun s hs => (ht s hs).nodup]
  · exact hc.lt id (mem_listed.mpr ⟨s, hs, hid⟩)
  · rw [hc.free]
    refine and_congr_right fun hid => ?_
    rw [hc.count id hid, Option.some.injEq, Multiset.count_eq_zero]
  · simpa [hidle] using (ht s hs).length_eq
  · obtain ⟨id, hget, hone, hnot⟩ := (Owned.perm hok (perm_cons_eraseIdx hi)).row hlo hhi
    refine ⟨id, hget, hone, fun j t hne hj hin => hnot (mem_listed.mpr ⟨t, ?_, hin⟩)⟩
    exact List.mem_eraseIdx_iff_getElem?.mpr ⟨j, hne, hj⟩
  · obtain ⟨d, hd, -⟩ := hok.step hn
    exact ⟨d, hd⟩

/-- Two histories over one shared block, after an append refused and a budget exhausted. -/
def forkedCalls : List KVCall :=
  [.configure 4, .bind 2, .prepare 0 5, .commit 0, .fork 0 4, .truncate 0 3, .prepare 0 1,
    .prepare 1 3, .commit 1, .truncate 1 2, .prepare 1 2, .moveNew 0, .moveTo 0 1]

def forkedCache : KVCache :=
  ⟨⟨4, 4, [3], [2, 1, 1, 0]⟩,
    [⟨true, 2, 2, 2, [0, 2]⟩, ⟨false, 1, 0, 0, []⟩, ⟨true, 2, 3, 0, [0, 1]⟩]⟩

theorem kv_blocks_are_owned_forked :
    Runs.play KVCache.machine ⟨⟨0, 0, [], []⟩, []⟩ forkedCalls = some forkedCache ∧
      forkedCache.pool.inUse = (forkedCache.seqs.flatMap KVSequence.blocks).toFinset.card := by
  have hplay : Runs.play KVCache.machine ⟨⟨0, 0, [], []⟩, []⟩ forkedCalls = some forkedCache := by
    decide
  exact ⟨hplay, (kv_blocks_are_owned (Runs.reach_of_play forkedCalls rfl hplay)).2.2.2.2.1⟩

end Llmx
