import Llmx.KVSequence

namespace Llmx

theorem blocksFor_mono {m n b : Nat} (h : m ≤ n) : blocksFor m b ≤ blocksFor n b := by
  unfold blocksFor
  rcases Nat.eq_zero_or_pos b with rfl | hb
  · simp; grind
  have hm := Nat.div_add_mod m b
  have hn := Nat.div_add_mod n b
  have hd := Nat.div_le_div_right (c := b) h
  rcases Nat.eq_or_lt_of_le hd with heq | hlt
  · rw [heq] at hm ⊢
    split <;> split <;> omega
  · split <;> omega

theorem blocksFor_mul {n b : Nat} (h : n % b = 0) : blocksFor n b = n / b := by
  simp [blocksFor, h]

theorem div_le_blocksFor (n b : Nat) : n / b ≤ blocksFor n b := Nat.le_add_right _ _

theorem div_lt_blocksFor {i n b : Nat} (h : i < n) : i / b < blocksFor n b := by
  have hd := Nat.div_le_div_right (c := b) h.le
  rcases Nat.eq_or_lt_of_le hd with heq | hlt
  · have hi := Nat.div_add_mod i b
    have hn := Nat.div_add_mod n b
    have hne : n % b ≠ 0 := by
      rw [heq] at hi
      omega
    simp [blocksFor, hne, heq]
  · exact lt_of_lt_of_le hlt (div_le_blocksFor n b)

theorem coe_concat_add (blocks : List Nat) (id : Nat) (held : Multiset Nat) :
    (↑(blocks ++ [id]) + held : Multiset Nat) = id ::ₘ (↑blocks + held) := by
  rw [← Multiset.cons_add, Multiset.cons_coe,
    Multiset.coe_eq_coe.mpr (List.perm_append_singleton id blocks)]

namespace BlockPool.Counts

variable {p : BlockPool} {held : Multiset Nat}

theorem releaseList {ids : List Nat} (h : p.Counts (↑ids + held)) :
    ∃ q, ids.foldlM BlockPool.release p = some q ∧ q.Counts held := by
  induction ids generalizing p with
  | nil => exact ⟨p, rfl, by simpa using h⟩
  | cons id ids ih =>
    rw [← Multiset.cons_coe, Multiset.cons_add] at h
    obtain ⟨mid, hmid, hc⟩ := h.release
    obtain ⟨q, hq, hc⟩ := ih hc
    exact ⟨q, by simp [List.foldlM_cons, hmid, hq], hc⟩

theorem shrinkTo {blocks : List Nat} (h : p.Counts (↑blocks + held)) (keep : Nat) :
    ∃ q, Llmx.shrinkTo p blocks keep = some (q, blocks.take keep) ∧
      q.Counts (↑(blocks.take keep) + held) := by
  have hsplit : (↑blocks : Multiset Nat) = ↑(blocks.drop keep).reverse + ↑(blocks.take keep) := by
    rw [Multiset.coe_add, Multiset.coe_eq_coe]
    have hp := List.perm_append_comm.trans
      (((List.reverse_perm (blocks.drop keep)).symm).append_right (blocks.take keep))
    rwa [List.take_append_drop] at hp
  rw [hsplit, Multiset.add_assoc] at h
  obtain ⟨q, hq, hc⟩ := h.releaseList
  exact ⟨q, by simp [Llmx.shrinkTo, hq], hc⟩

/-- Blocks taken were nobody's and stay distinct. -/
theorem takeBlocks {k : Nat} {blocks : List Nat} (h : p.Counts (↑blocks + held))
    (hnd : blocks.Nodup) {ok : Bool} {q : BlockPool} {out : List Nat}
    (ht : Llmx.takeBlocks k p blocks = (ok, q, out)) :
    q.Counts (↑out + held) ∧ out.Nodup ∧ (ok = true → out.length = blocks.length + k) ∧
      ∃ new, out = blocks ++ new ∧ ∀ id ∈ new, id ∉ held := by
  induction k generalizing p blocks with
  | zero =>
    cases ht
    exact ⟨h, hnd, by simp, [], by simp⟩
  | succ k ih =>
    unfold Llmx.takeBlocks at ht
    split at ht
    next id mid halloc =>
      obtain ⟨hc, hfree⟩ := h.alloc halloc
      simp only [Multiset.mem_add, Multiset.mem_coe, not_or] at hfree
      have hc' : mid.Counts (↑(blocks ++ [id]) + held) := by
        rwa [coe_concat_add]
      have hnd' : (blocks ++ [id]).Nodup := by
        rw [List.nodup_append]
        simp only [List.mem_singleton, List.nodup_singleton]
        grind
      obtain ⟨h1, h2, h3, new, rfl, h4⟩ := ih hc' hnd' ht
      refine ⟨h1, h2, fun hok => ?_, id :: new, by simp, ?_⟩
      · have := h3 hok
        simp only [List.length_append, List.length_singleton] at this ⊢
        omega
      · rw [List.forall_mem_cons]
        exact ⟨hfree.2, h4⟩
    next =>
      cases ht
      exact ⟨h, hnd, by simp, [], by simp⟩

theorem retainBlocks {ids blocks : List Nat} (h : p.Counts (↑blocks + held)) {ok : Bool}
    {q : BlockPool} {out : List Nat} (ht : Llmx.retainBlocks ids p blocks = (ok, q, out)) :
    q.Counts (↑out + held) ∧ (ok = true → out = blocks ++ ids) := by
  induction ids generalizing p blocks with
  | nil =>
    cases ht
    exact ⟨h, by simp⟩
  | cons id ids ih =>
    unfold Llmx.retainBlocks at ht
    split at ht
    next mid hmid =>
      have hc : mid.Counts (↑(blocks ++ [id]) + held) := by
        rw [coe_concat_add]
        exact (h.retain hmid).1
      obtain ⟨h1, h2⟩ := ih hc ht
      exact ⟨h1, fun hok => by simpa using h2 hok⟩
    next =>
      cases ht
      exact ⟨h, by simp⟩

end BlockPool.Counts

/-- The blocks a step in progress writes. -/
def KVSequence.written (s : KVSequence) : List Nat :=
  if s.pending = 0 then [] else s.blocks.drop (s.length / s.blockTokens)

/-- Neither of two sequences writes a block of the other. -/
def KVSequence.Apart (s t : KVSequence) : Prop :=
  (∀ id ∈ s.written, id ∉ t.blocks) ∧ ∀ id ∈ t.written, id ∉ s.blocks

theorem KVSequence.Apart.symm {s t : KVSequence} (h : s.Apart t) : t.Apart s := ⟨h.2, h.1⟩

/-- A table of distinct blocks, whole ones for what it holds and a step writes. -/
structure KVSequence.Table (s : KVSequence) : Prop where
  pos : 0 < s.blockTokens
  nodup : s.blocks.Nodup
  length_eq : s.blocks.length = blocksFor (s.length + s.pending) s.blockTokens
  blank : s.bound = false → s.blocks = []

def listed (seqs : List KVSequence) : Multiset Nat := ↑(seqs.flatMap KVSequence.blocks)

theorem listed_cons (s : KVSequence) (seqs : List KVSequence) :
    listed (s :: seqs) = ↑s.blocks + listed seqs := by
  simp [listed]

theorem mem_listed {seqs : List KVSequence} {id : Nat} :
    id ∈ listed seqs ↔ ∃ s ∈ seqs, id ∈ s.blocks := by
  simp [listed]

/-- The pool counts the tables of its sequences, and no step writes a block of another. -/
structure Owned (p : BlockPool) (seqs : List KVSequence) : Prop where
  counts : p.Counts (listed seqs)
  table : ∀ s ∈ seqs, s.Table
  apart : seqs.Pairwise KVSequence.Apart

theorem Owned.perm {p : BlockPool} {seqs seqs' : List KVSequence} (h : Owned p seqs)
    (hp : seqs.Perm seqs') : Owned p seqs' := by
  refine ⟨?_, fun s hs => h.table s (hp.mem_iff.mpr hs), ?_⟩
  · have : listed seqs = listed seqs' := Multiset.coe_eq_coe.mpr (hp.flatMap_right _)
    rw [← this]
    exact h.counts
  · exact (hp.pairwise_iff KVSequence.Apart.symm).mp h.apart

/-- The same with one sequence between two sizes: its table reaches what it holds at least, and
it writes nothing yet. -/
structure Holding (p : BlockPool) (s : KVSequence) (rest : List KVSequence) : Prop where
  counts : p.Counts (↑s.blocks + listed rest)
  pos : 0 < s.blockTokens
  nodup : s.blocks.Nodup
  reach : blocksFor s.length s.blockTokens ≤ s.blocks.length
  blank : s.bound = false → s.blocks = []
  table : ∀ t ∈ rest, t.Table
  apart : rest.Pairwise KVSequence.Apart
  untouched : ∀ t ∈ rest, ∀ id ∈ t.written, id ∉ s.blocks

theorem Owned.holding {p : BlockPool} {s : KVSequence} {rest : List KVSequence}
    (h : Owned p (s :: rest)) {length : Nat} (hl : length ≤ s.length) (pending : Nat) :
    Holding p { s with length := length, pending := pending } rest := by
  obtain ⟨hc, ht, ha⟩ := h
  rw [listed_cons] at hc
  rw [List.pairwise_cons] at ha
  have hs := ht s (by simp)
  refine ⟨hc, hs.pos, hs.nodup, ?_, hs.blank, fun t hmem => ht t (by simp [hmem]), ha.2,
    fun t hmem => (ha.1 t hmem).2⟩
  simp only
  rw [hs.length_eq]
  exact blocksFor_mono (by omega)

/-- A table of the size its sequence asks for, whose step writes nobody else's blocks. -/
theorem Holding.owned {p : BlockPool} {s : KVSequence} {rest : List KVSequence}
    (h : Holding p s rest)
    (hlen : s.blocks.length = blocksFor (s.length + s.pending) s.blockTokens)
    (hw : ∀ id ∈ s.written, id ∉ listed rest) : Owned p (s :: rest) := by
  refine ⟨by rw [listed_cons]; exact h.counts, ?_, List.pairwise_cons.mpr ⟨?_, h.apart⟩⟩
  · rw [List.forall_mem_cons]
    exact ⟨⟨h.pos, h.nodup, hlen, h.blank⟩, h.table⟩
  · exact fun t ht => ⟨fun id hid hin => hw id hid (mem_listed.mpr ⟨t, ht, hin⟩),
      h.untouched t ht⟩

/-- Cutting a table to what it holds. -/
theorem Holding.abort {p : BlockPool} {s : KVSequence} {rest : List KVSequence}
    (h : Holding p s rest) :
    ∃ q t, KVSequence.abort p s = some (q, t) ∧ Owned q (t :: rest) := by
  obtain ⟨q, hq, hc⟩ := h.counts.shrinkTo (blocksFor s.length s.blockTokens)
  refine ⟨q, _, by rw [KVSequence.abort, hq]; rfl, ?_⟩
  refine Holding.owned ⟨hc, h.pos, h.nodup.sublist (List.take_sublist _ _), ?_, ?_, h.table,
    h.apart, fun t ht id hid hin => h.untouched t ht id hid (List.mem_of_mem_take hin)⟩ ?_ ?_
  · simp [h.reach]
  · intro hb
    simp [h.blank hb]
  · simp [h.reach]
  · simp [KVSequence.written]

namespace Owned

variable {p : BlockPool} {s : KVSequence} {rest : List KVSequence}

theorem abort (h : Owned p (s :: rest)) :
    ∃ q t, KVSequence.abort p s = some (q, t) ∧ Owned q (t :: rest) :=
  (h.holding le_rfl s.pending).abort

theorem truncate (h : Owned p (s :: rest)) (length : Nat) :
    ∃ q t, KVSequence.truncate p s length = some (q, t) ∧ Owned q (t :: rest) := by
  have hle : (if length < s.length then length else s.length) ≤ s.length := by
    split <;> omega
  exact (h.holding hle 0).abort

theorem commit (h : Owned p (s :: rest)) : Owned p (KVSequence.commit s :: rest) := by
  obtain ⟨hc, ht, ha⟩ := h
  rw [List.pairwise_cons] at ha
  have hs := ht s (by simp)
  rw [listed_cons] at hc
  refine Holding.owned ⟨hc, hs.pos, hs.nodup, ?_, hs.blank, fun t hmem => ht t (by simp [hmem]),
    ha.2, fun t hmem => (ha.1 t hmem).2⟩ ?_ ?_
  · exact hs.length_eq.ge
  · exact hs.length_eq
  · simp [KVSequence.commit, KVSequence.written]

/-- A sequence released holds nothing and keeps its pool. -/
theorem releaseAll (h : Owned p (s :: rest)) :
    ∃ q, KVSequence.releaseAll p s = some (q, { s with length := 0, pending := 0, blocks := [] }) ∧
      Owned q ({ s with length := 0, pending := 0, blocks := [] } :: rest) := by
  have hs := h.table s (by simp)
  have hc := h.counts
  rw [listed_cons] at hc
  have hrel : ∃ q, (if s.bound then shrinkTo p s.blocks 0 else some (p, s.blocks)) = some (q, []) ∧
      q.Counts (listed rest) := by
    split
    · obtain ⟨q, hq, hq'⟩ := hc.shrinkTo 0
      exact ⟨q, by simpa using hq, by simpa using hq'⟩
    next hb =>
      have hempty := hs.blank (by simpa using hb)
      exact ⟨p, by rw [hempty], by simpa [hempty] using hc⟩
  obtain ⟨q, hq, hq'⟩ := hrel
  refine ⟨q, by rw [KVSequence.releaseAll, hq]; rfl, ?_⟩
  have ha := List.pairwise_cons.mp h.apart
  refine Holding.owned ⟨by simpa using hq', hs.pos, by simp, by simp [blocksFor], by simp,
    fun t hmem => h.table t (by simp [hmem]), ha.2, by simp⟩ (by simp [blocksFor]) ?_
  simp [KVSequence.written]

theorem tail (h : Owned p (s :: rest)) (hs : s.blocks = []) : Owned p rest := by
  have hc := h.counts
  rw [listed_cons, hs] at hc
  exact ⟨by simpa using hc, fun t ht => h.table t (by simp [ht]), h.apart.of_cons⟩

theorem fresh (h : Owned p rest) {b : Nat} (hb : 0 < b) (bound : Bool) :
    Owned p (⟨bound, b, 0, 0, []⟩ :: rest) := by
  refine Holding.owned ⟨by simpa using h.counts, hb, by simp, by simp [blocksFor], by simp, h.table,
    h.apart, by simp⟩ (by simp [blocksFor]) (by simp [KVSequence.written])

/-- Where an append would go into a shared block, the step is refused before it takes one. -/
theorem not_shared (h : Owned p (s :: rest)) {n : Nat} (hn : n ≠ 0)
    (hs : KVSequence.appendShared p s n = false)
    (hmod : s.length % s.blockTokens ≠ 0) {id : Nat}
    (hid : s.blocks[s.length / s.blockTokens]? = some id) : id ∉ listed rest := by
  have hget : s.blocks.getD (s.length / s.blockTokens) 0 = id := by simp [hid]
  simp only [KVSequence.appendShared, hget, ne_eq, hn, not_false_eq_true, hmod, true_and,
    decide_eq_false_iff_not, not_lt] at hs
  have hmem : id ∈ s.blocks := List.mem_of_getElem? hid
  have hcount := h.counts.count id (h.counts.lt id (mem_listed.mpr ⟨s, by simp, hmem⟩))
  rw [listed_cons, Multiset.count_add, Multiset.coe_count,
    List.count_eq_one_of_mem (h.table s (by simp)).nodup hmem] at hcount
  rw [List.getD_eq_getElem?_getD, hcount] at hs
  simp only [Option.getD_some] at hs
  exact Multiset.count_eq_zero.mp (by omega)

/-- The blocks a step writes are the last one, where it is filled in part, and new ones. -/
theorem written_fresh (h : Owned p (s :: rest)) {n : Nat} (hidle : s.pending = 0)
    (hs : KVSequence.appendShared p s n = false) {new : List Nat}
    (hnew : ∀ id ∈ new, id ∉ listed rest) :
    ∀ id ∈ KVSequence.written { s with blocks := s.blocks ++ new, pending := n },
      id ∉ listed rest := by
  intro id hid
  unfold KVSequence.written at hid
  simp only at hid
  split at hid
  · cases hid
  next hn =>
    rw [List.drop_append, List.mem_append] at hid
    rcases hid with hid | hid
    · have hlen := (h.table s (by simp)).length_eq
      rw [hidle, Nat.add_zero, blocksFor] at hlen
      obtain ⟨j, hj, rfl⟩ := List.getElem_of_mem hid
      rw [List.length_drop] at hj
      split at hlen
      next hmod =>
        have hj0 : j = 0 := by omega
        subst hj0
        refine h.not_shared hn hs hmod ?_
        simp
      · omega
    · exact hnew id (List.mem_of_mem_drop hid)

theorem prepare (h : Owned p (s :: rest)) (n : Nat) :
    ∃ ok q t, KVSequence.prepare p s n = some (ok, q, t) ∧ Owned q (t :: rest) := by
  unfold KVSequence.prepare
  split
  · exact ⟨_, _, _, rfl, h⟩
  split
  · exact ⟨_, _, _, rfl, h⟩
  split
  · exact ⟨_, _, _, rfl, h⟩
  split
  · exact ⟨_, _, _, rfl, h⟩
  next hbound hidle _ hshared =>
    have hidle : s.pending = 0 := by omega
    have hb : s.bound = true := by simpa using hbound
    have hs := h.table s (by simp)
    have hg : Holding p s rest := h.holding le_rfl s.pending
    have hlen := hs.length_eq
    rw [hidle, Nat.add_zero] at hlen
    have hmono : blocksFor s.length s.blockTokens ≤ blocksFor (s.length + n) s.blockTokens :=
      blocksFor_mono (by omega)
    have htaken : ∀ new q, q.Counts (↑(s.blocks ++ new) + listed rest) → (s.blocks ++ new).Nodup →
        (∀ id ∈ new, id ∉ listed rest) → ∀ pending,
        Holding q { s with blocks := s.blocks ++ new, pending := pending } rest := by
      intro new q hc hnd hnew pending
      refine ⟨hc, hs.pos, hnd, ?_, by simp [hb], hg.table, hg.apart, fun t ht id hid hin => ?_⟩
      · simp [hlen]
      · rcases List.mem_append.mp hin with hin | hin
        · exact hg.untouched t ht id hid hin
        · refine hnew id hin (mem_listed.mpr ⟨t, ht, ?_⟩)
          unfold KVSequence.written at hid
          split at hid
          · cases hid
          · exact List.mem_of_mem_drop hid
    split
    next q out htake =>
      obtain ⟨hc, hnd, hcount, new, rfl, hnew⟩ := hg.counts.takeBlocks hs.nodup htake
      refine ⟨_, _, _, rfl, (htaken new q hc hnd hnew n).owned ?_ ?_⟩
      · have := hcount rfl
        simp only at this ⊢
        omega
      · exact h.written_fresh hidle (by simpa using hshared) hnew
    next q out htake =>
      obtain ⟨hc, hnd, -, new, rfl, hnew⟩ := hg.counts.takeBlocks hs.nodup htake
      obtain ⟨q', t, ht, ho⟩ := (htaken new q hc hnd hnew s.pending).abort
      exact ⟨false, q', t, by rw [ht]; rfl, ho⟩

/-- A fork shares its source's blocks, none of which a step writes. -/
theorem fork (h : Owned p (s :: rest)) (length : Nat) :
    ∃ q f, KVSequence.fork p s length = some (q, f) ∧ Owned q (f.toList ++ s :: rest) := by
  unfold KVSequence.fork
  split
  · exact ⟨_, _, rfl, h⟩
  split
  · exact ⟨_, _, rfl, h⟩
  split
  · exact ⟨_, _, rfl, h⟩
  next hbound hidle hwhole =>
    have hs := h.table s (by simp)
    obtain ⟨hle, hmod⟩ : length ≤ s.length ∧ length % s.blockTokens = 0 := by omega
    have hc : p.Counts (↑([] : List Nat) + listed (s :: rest)) := by simpa using h.counts
    split
    next q out hret =>
      obtain ⟨hc, hout⟩ := hc.retainBlocks hret
      simp only [List.nil_append, forall_const] at hout
      subst hout
      have hlen : (s.blocks.take (length / s.blockTokens)).length =
          blocksFor length s.blockTokens := by
        have hge := div_le_blocksFor (s.length + s.pending) s.blockTokens
        have hdiv := Nat.div_le_div_right (c := s.blockTokens)
          (show length ≤ s.length + s.pending by omega)
        rw [List.length_take, hs.length_eq, blocksFor_mul hmod]
        omega
      refine ⟨_, _, rfl, Holding.owned ⟨hc, hs.pos, hs.nodup.sublist (List.take_sublist _ _),
        hlen.ge, by simp, h.table, h.apart, fun t ht id hid hin => ?_⟩ hlen
        (by simp [KVSequence.written])⟩
      rcases List.mem_cons.mp ht with rfl | ht
      · have hpending : t.pending = 0 := by omega
        simp [KVSequence.written, hpending] at hid
      · exact ((List.pairwise_cons.mp h.apart).1 t ht).2 id hid (List.mem_of_mem_take hin)
    next q out hret =>
      obtain ⟨hc, -⟩ := hc.retainBlocks hret
      obtain ⟨q', hq', hc'⟩ := hc.shrinkTo 0
      refine ⟨q', none, ?_, by simpa using hc', h.table, h.apart⟩
      simp [KVSequence.releaseAll, hq']

end Owned

end Llmx
