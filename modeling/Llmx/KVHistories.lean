import Llmx.KVRows
import Llmx.FreedSlots
import Mathlib.Data.List.GetD

namespace Llmx

/-- What one sequence was given at each position: the K and V rows of the layers written; the
rows of a step in progress follow it. -/
structure RowHistory (E : Type) where
  rows : List (Nat → Option (List E × List E))
  step : List (Nat → Option (List E × List E))

namespace RowHistory

variable {E : Type}

def empty : RowHistory E := ⟨[], []⟩

/-- The first `length` rows, and no step in progress. -/
def cut (length : Nat) (r : RowHistory E) : RowHistory E := ⟨r.rows.take length, []⟩

/-- The rows of a step given on `layer`, the first of them row `row0` of the pass. -/
def given (g : KVShape) (layer : Nat) (k v : List E) (row0 : Nat) (r : RowHistory E) :
    RowHistory E :=
  { r with step := r.step.mapIdx fun b row =>
      Function.update row layer (some (g.rowOf k (row0 + b), g.rowOf v (row0 + b))) }

def giveViews (g : KVShape) (layer : Nat) (k v : List E) :
    Nat → List Nat → List (RowHistory E) → List (RowHistory E)
  | _, [], rs => rs
  | row0, i :: views, rs =>
    let r := rs.getD i empty
    giveViews g layer k v (row0 + r.step.length) views (rs.set i (r.given g layer k v row0))

/-- Private histories under the calls on sequences: a call that throws changes none, and one
that returns only those it names. -/
def call (rs : List (RowHistory E)) (returned : Bool) : KVCall → List (RowHistory E)
  | .configure _ => rs
  | .default => rs ++ [empty]
  | .bind _ => if returned then rs ++ [empty] else rs
  | .prepare i n =>
    if returned then rs.set i ⟨(rs.getD i empty).rows, List.replicate n fun _ => none⟩ else rs
  | .commit i => rs.set i ⟨(rs.getD i empty).rows ++ (rs.getD i empty).step, []⟩
  | .abort i => rs.set i ⟨(rs.getD i empty).rows, []⟩
  | .truncate i length => rs.set i ((rs.getD i empty).cut length)
  | .reset i => rs.set i empty
  | .fork i length => if returned then rs ++ [(rs.getD i empty).cut length] else rs
  | .moveNew i => rs.set i empty ++ [rs.getD i empty]
  | .moveTo i j => if i = j then rs else (rs.set i (rs.getD j empty)).set j empty
  | .destroy i => rs.eraseIdx i

end RowHistory

/-- Whether a call returns rather than throws. -/
def KVCache.returned (c : KVCache) : KVCall → Bool
  | .bind blockTokens => blockTokens ≠ 0
  | .prepare i n =>
    ((c.seqs[i]?).bind fun s => KVSequence.prepare c.pool s n).any fun out => out.1
  | .fork i length =>
    ((c.seqs[i]?).bind fun s => KVSequence.fork c.pool s length).any fun out => out.2.isSome
  | _ => true

/-- A pool, its sequences and their cells, and beside them what each sequence was given. -/
structure KVWorld (E : Type) where
  cache : KVCache
  store : BlockKVStorage E
  histories : List (RowHistory E)

inductive KVEvent (E : Type)
  | call (call : KVCall)
  | write (layer : Nat) (views : List Nat) (k v : List E) (refused : List Nat)
  | backAll (refused : List Nat)

namespace KVWorld

variable {E : Type} (g : KVShape) (zero : E)

def step (w : KVWorld E) : KVEvent E → Option (KVWorld E)
  | .call call =>
    ((KVCache.storageMachine g.blockTokens).step w.cache call).map fun c =>
      { w with cache := c, histories := RowHistory.call w.histories (w.cache.returned call) call }
  | .write layer views k v refused =>
    (views.mapM fun i => w.cache.seqs[i]?).map fun seqs =>
      let out := g.kvWrite zero refused layer seqs k v w.store
      { w with
        store := out.2
        histories := if out.1 then RowHistory.giveViews g layer k v 0 views w.histories
          else w.histories }
  | .backAll refused =>
    some { w with
      store := if g.maxBlocks = 0 then w.store
        else (g.ensure zero refused w.store (g.maxBlocks - 1)).getD w.store }

/-- A pool not yet configured, no sequence and nothing backed. -/
def machine : Runs.Machine (KVWorld E) (KVEvent E) where
  start w := w = ⟨⟨⟨0, 0, [], []⟩, []⟩,
    ⟨0, List.replicate g.layers [], List.replicate g.layers []⟩, []⟩
  step := step g zero

end KVWorld

variable {E : Type} {g : KVShape}

/-- The cells of a sequence are what it was given. -/
structure Holds (g : KVShape) (st : BlockKVStorage E) (s : KVSequence) (r : RowHistory E) :
    Prop where
  rows : r.rows.length = s.length
  step : r.step.length = s.pending
  read : ∀ pos row layer k v, (r.rows ++ r.step)[pos]? = some row → row layer = some (k, v) →
    g.read st.backed st.keys layer s.blocks pos = some k ∧
      g.read st.backed st.values layer s.blocks pos = some v

namespace Holds

variable {st st' : BlockKVStorage E} {s t : KVSequence} {r r' : RowHistory E}

theorem grows (h : Holds g st s r) (hg : g.Grows st st') : Holds g st' s r := by
  refine ⟨h.rows, h.step, fun pos row layer k v hrow hkv => ?_⟩
  obtain ⟨hk, hv⟩ := h.read pos row layer k v hrow hkv
  exact ⟨hg.readKeys _ _ _ _ hk, hg.readValues _ _ _ _ hv⟩

/-- A table that keeps the blocks of the rows kept keeps the rows. -/
theorem carry (h : Holds g st s r) (hrows : r'.rows.length = t.length)
    (hstep : r'.step.length = t.pending)
    (hkept : ∀ pos row layer kv, (r'.rows ++ r'.step)[pos]? = some row → row layer = some kv →
      (r.rows ++ r.step)[pos]? = some row ∧
        t.blocks[pos / g.blockTokens]? = s.blocks[pos / g.blockTokens]?) : Holds g st t r' := by
  refine ⟨hrows, hstep, fun pos row layer k v hrow hkv => ?_⟩
  obtain ⟨hrow', hblock⟩ := hkept pos row layer (k, v) hrow hkv
  have := h.read pos row layer k v hrow' hkv
  unfold KVShape.read at this ⊢
  rwa [hblock]

theorem blank {t : KVSequence} (hl : t.length = 0) (hp : t.pending = 0) :
    Holds g st t RowHistory.empty :=
  ⟨hl.symm, hp.symm, by simp [RowHistory.empty]⟩

/-- A history cut to `length`, its table to the blocks that takes. -/
theorem cut (h : Holds g st s r) (ht : s.Table) (hat : s.At g.blockTokens) {length : Nat}
    (hl : t.length = min length s.length) (hp : t.pending = 0)
    (hb : t.blocks = s.blocks.take (blocksFor t.length s.blockTokens)) :
    Holds g st t (r.cut length) := by
  refine h.carry ?_ (by rw [hp]; exact Eq.refl _) fun pos row layer kv hrow _ => ?_
  · rw [RowHistory.cut, List.length_take, h.rows, hl]
  · have hpos := (List.getElem?_eq_some_iff.mp hrow).1
    simp only [RowHistory.cut, List.append_nil, List.length_take, h.rows, ← hl] at hpos hrow
    have hin : pos < length := by omega
    rw [List.getElem?_take_of_lt hin] at hrow
    refine ⟨?_, ?_⟩
    · rw [List.getElem?_append_left (List.getElem?_eq_some_iff.mp hrow).1]
      exact hrow
    · rw [hb]
      cases hbound : s.bound with
      | false => rw [ht.blank hbound, List.take_nil]
      | true =>
        rw [hat hbound, List.getElem?_take_of_lt (div_lt_blocksFor hpos)]

end Holds

/-- Each sequence's cells are what it was given. -/
structure Paired (g : KVShape) (st : BlockKVStorage E) (seqs : List KVSequence)
    (rs : List (RowHistory E)) : Prop where
  length : rs.length = seqs.length
  holds : ∀ (i : Nat) (s : KVSequence) (r : RowHistory E), seqs[i]? = some s →
    rs[i]? = some r → Holds g st s r

namespace Paired

variable {st st' : BlockKVStorage E} {seqs : List KVSequence} {rs : List (RowHistory E)}

theorem grows (h : Paired g st seqs rs) (hg : g.Grows st st') : Paired g st' seqs rs :=
  ⟨h.length, fun i s r hs hr => (h.holds i s r hs hr).grows hg⟩

theorem get (h : Paired g st seqs rs) {i : Nat} {s : KVSequence} (hs : seqs[i]? = some s) :
    Holds g st s (rs.getD i RowHistory.empty) := by
  obtain ⟨hi, -⟩ := List.getElem?_eq_some_iff.mp hs
  have hlt : i < rs.length := by rw [h.length]; exact hi
  have hr : rs[i]? = some rs[i] := List.getElem?_eq_getElem hlt
  rw [List.getD_eq_getElem?_getD, hr]
  exact h.holds i s _ hs hr

theorem set (h : Paired g st seqs rs) (i : Nat) {t : KVSequence} {r : RowHistory E}
    (hh : Holds g st t r) : Paired g st (seqs.set i t) (rs.set i r) := by
  refine ⟨by rw [List.length_set, List.length_set, h.length], fun j s q hs hq => ?_⟩
  rw [List.getElem?_set] at hs hq
  by_cases hij : i = j
  · rw [if_pos hij] at hs hq
    split at hs
    · split at hq
      · cases hs
        cases hq
        exact hh
      · cases hq
    · cases hs
  · rw [if_neg hij] at hs hq
    exact h.holds j s q hs hq

theorem concat (h : Paired g st seqs rs) {t : KVSequence} {r : RowHistory E}
    (hh : Holds g st t r) : Paired g st (seqs ++ [t]) (rs ++ [r]) := by
  refine ⟨by simp [h.length], fun j s q hs hq => ?_⟩
  rw [List.getElem?_append] at hs hq
  rw [h.length] at hq
  by_cases hj : j < seqs.length
  · rw [if_pos hj] at hs hq
    exact h.holds j s q hs hq
  · rw [if_neg hj, List.getElem?_singleton] at hs hq
    split at hs
    · rw [if_pos (by assumption)] at hq
      cases hs
      cases hq
      exact hh
    · cases hs

theorem eraseIdx (h : Paired g st seqs rs) (i : Nat) :
    Paired g st (seqs.eraseIdx i) (rs.eraseIdx i) := by
  refine ⟨by rw [List.length_eraseIdx, List.length_eraseIdx, h.length], fun j s q hs hq => ?_⟩
  rw [List.getElem?_eraseIdx] at hs hq
  split at hs
  next hj =>
    rw [if_pos hj] at hq
    exact h.holds j s q hs hq
  next hj =>
    rw [if_neg hj] at hq
    exact h.holds (j + 1) s q hs hq

end Paired

section Calls

variable {p q : BlockPool} {s t : KVSequence} {rest : List KVSequence}

/-- A step refused leaves its sequence as it was; one begun lengthens its table. -/
theorem prepare_shape (ho : Owned p (s :: rest)) {n : Nat} {ok : Bool}
    (h : KVSequence.prepare p s n = some (ok, q, t)) :
    ok = false ∧ t = s ∨ ok = true ∧ s.pending = 0 ∧
      ∃ more, t = { s with blocks := s.blocks ++ more, pending := n } := by
  have hsame : some (false, p, s) = some (ok, q, t) → ok = false ∧ t = s := by
    intro heq
    cases heq
    exact ⟨Eq.refl _, Eq.refl _⟩
  have hs := ho.table s (by simp)
  have hc := ho.counts
  rw [listed_cons] at hc
  unfold KVSequence.prepare at h
  split at h
  · exact Or.inl (hsame h)
  split at h
  · exact Or.inl (hsame h)
  next hidle =>
    have hidle : s.pending = 0 := by omega
    split at h
    · exact Or.inl (hsame h)
    split at h
    · exact Or.inl (hsame h)
    split at h
    next mid blocks htake =>
      obtain ⟨-, -, -, more, rfl, -⟩ := hc.takeBlocks hs.nodup htake
      cases h
      exact Or.inr ⟨Eq.refl _, hidle, more, Eq.refl _⟩
    next mid blocks htake =>
      obtain ⟨-, -, -, more, rfl, -⟩ := hc.takeBlocks hs.nodup htake
      obtain ⟨⟨last, u⟩, habort, h⟩ := Option.map_eq_some_iff.mp h
      cases h
      obtain ⟨⟨end', blocks⟩, hshrink, habort⟩ := Option.map_eq_some_iff.mp habort
      obtain ⟨rfl, rfl⟩ := Prod.mk.inj habort
      obtain ⟨mid', -, hshrink⟩ := Option.map_eq_some_iff.mp hshrink
      obtain ⟨rfl, rfl⟩ := Prod.mk.inj hshrink
      refine Or.inl ⟨Eq.refl _, ?_⟩
      have hlen := hs.length_eq
      rw [hidle, Nat.add_zero] at hlen
      dsimp only
      rw [← hlen, List.take_left, ← hidle]

/-- What a fork holds of its source's length. -/
theorem fork_shape {length : Nat} (h : KVSequence.fork p s length = some (q, some t)) :
    length ≤ s.length ∧ t.length = length ∧ t.pending = 0 := by
  unfold KVSequence.fork at h
  split at h
  · cases h
  split at h
  · cases h
  split at h
  · cases h
  next hwhole =>
    split at h
    · cases h
      exact ⟨by omega, Eq.refl _, Eq.refl _⟩
    · obtain ⟨out, -, h⟩ := Option.map_eq_some_iff.mp h
      cases h

theorem abort_shape (h : KVSequence.abort p s = some (q, t)) :
    t = { s with blocks := s.blocks.take (blocksFor s.length s.blockTokens), pending := 0 } := by
  obtain ⟨⟨mid, blocks⟩, hshrink, h⟩ := Option.map_eq_some_iff.mp h
  obtain ⟨rfl, rfl⟩ := Prod.mk.inj h
  obtain ⟨out, -, hshrink⟩ := Option.map_eq_some_iff.mp hshrink
  obtain ⟨rfl, rfl⟩ := Prod.mk.inj hshrink
  exact Eq.refl _

theorem truncate_shape {length : Nat} (h : KVSequence.truncate p s length = some (q, t)) :
    t.length = min length s.length ∧ t.pending = 0 ∧
      t.blocks = s.blocks.take (blocksFor t.length s.blockTokens) := by
  obtain ⟨⟨mid, blocks⟩, hshrink, h⟩ := Option.map_eq_some_iff.mp h
  obtain ⟨rfl, rfl⟩ := Prod.mk.inj h
  obtain ⟨out, -, hshrink⟩ := Option.map_eq_some_iff.mp hshrink
  obtain ⟨rfl, rfl⟩ := Prod.mk.inj hshrink
  refine ⟨?_, Eq.refl _, Eq.refl _⟩
  dsimp only
  split <;> omega

theorem releaseAll_shape (h : KVSequence.releaseAll p s = some (q, t)) :
    t.length = 0 ∧ t.pending = 0 := by
  obtain ⟨⟨mid, blocks⟩, -, h⟩ := Option.map_eq_some_iff.mp h
  obtain ⟨rfl, rfl⟩ := Prod.mk.inj h
  exact ⟨Eq.refl _, Eq.refl _⟩

end Calls

namespace KVCache

variable {c d : KVCache}

theorem on_shape {i : Nat} {f : KVSequence → Option (BlockPool × KVSequence)}
    (h : c.on i f = some d) : ∃ s q t, c.seqs[i]? = some s ∧ f s = some (q, t) ∧
      d.seqs = c.seqs.set i t := by
  obtain ⟨s, hs, h⟩ := Option.bind_eq_some_iff.mp h
  obtain ⟨⟨q, t⟩, hf, h⟩ := Option.map_eq_some_iff.mp h
  cases h
  exact ⟨s, q, t, hs, hf, Eq.refl _⟩

end KVCache

/-- A call on the sequences moves what they were given as it moves their tables. -/
theorem Paired.call {st : BlockKVStorage E} {c d : KVCache} {rs : List (RowHistory E)}
    (h : Paired g st c.seqs rs) (hok : c.Ok) (hb : c.Budget g.blockTokens) {call : KVCall}
    (hs : c.step call = some d) :
    Paired g st d.seqs (RowHistory.call rs (c.returned call) call) := by
  have hown : Owned c.pool c.seqs := hok
  have hmem : ∀ {i : Nat} {s : KVSequence}, c.seqs[i]? = some s →
      s.Table ∧ s.At g.blockTokens ∧ Owned c.pool (s :: c.seqs.eraseIdx i) := by
    intro i s hi
    have hin := List.mem_of_getElem? hi
    exact ⟨hown.table s hin, hb.bound s hin, hown.perm (perm_cons_eraseIdx hi)⟩
  cases call with
  | configure max =>
    unfold KVCache.step at hs
    dsimp only at hs
    split at hs
    · cases hs
    · cases hs
      exact h
  | default =>
    cases hs
    exact h.concat (.blank (Eq.refl _) (Eq.refl _))
  | bind blockTokens =>
    cases hs
    by_cases hz : blockTokens = 0
    · simpa [KVCache.returned, RowHistory.call, hz] using h
    · simpa [KVCache.returned, RowHistory.call, hz] using
        h.concat (t := ⟨true, blockTokens, 0, 0, []⟩) (.blank (Eq.refl _) (Eq.refl _))
  | prepare i n =>
    obtain ⟨s, q, t, hi, hf, hd⟩ := KVCache.on_shape hs
    obtain ⟨⟨ok, q', t'⟩, hprep, hf⟩ := Option.map_eq_some_iff.mp hf
    obtain ⟨rfl, rfl⟩ := Prod.mk.inj hf
    obtain ⟨htab, hat, hcons⟩ := hmem hi
    have hret : c.returned (.prepare i n) = ok := by
      simp [KVCache.returned, hi, hprep]
    rw [hret, hd]
    have hget := h.get hi
    rcases prepare_shape hcons hprep with ⟨rfl, rfl⟩ | ⟨rfl, hidle, more, rfl⟩
    · obtain ⟨hlt, hs⟩ := List.getElem?_eq_some_iff.mp hi
      subst hs
      rw [List.set_getElem_self hlt]
      exact h
    · refine h.set i (hget.carry hget.rows (by simp) fun pos row layer kv hrow hkv => ?_)
      rw [List.getElem?_append] at hrow
      dsimp only at hrow
      split at hrow
      next hlt =>
        refine ⟨by rw [List.getElem?_append_left hlt]; exact hrow, ?_⟩
        rw [hget.rows] at hlt
        cases hbound : s.bound with
        | false =>
          have hlen := htab.length_eq
          have hdiv := div_lt_blocksFor (b := s.blockTokens)
            (show pos < s.length + s.pending by omega)
          rw [htab.blank hbound, List.length_nil] at hlen
          rw [← hlen] at hdiv
          exact absurd hdiv (Nat.not_lt_zero _)
        | true =>
          refine List.getElem?_append_left ?_
          rw [htab.length_eq, hat hbound]
          exact div_lt_blocksFor (by omega)
      next =>
        have := List.mem_replicate.mp (List.mem_of_getElem? hrow)
        rw [this.2] at hkv
        cases hkv
  | commit i =>
    obtain ⟨s, q, t, hi, hf, hd⟩ := KVCache.on_shape hs
    cases hf
    rw [hd]
    have hget := h.get hi
    refine h.set i (hget.carry ?_ (Eq.refl _) fun pos row layer kv hrow _ => ⟨?_, Eq.refl _⟩)
    · simp only [KVSequence.commit, List.length_append, hget.rows, hget.step]
    · simpa using hrow
  | abort i =>
    obtain ⟨s, q, t, hi, hf, hd⟩ := KVCache.on_shape hs
    obtain ⟨htab, hat, -⟩ := hmem hi
    have ht := abort_shape hf
    have hget := h.get hi
    rw [hd]
    have hlen : t.length = min s.length s.length := by rw [ht]; simp
    have hcut := hget.cut htab hat hlen (by rw [ht]) (by rw [ht])
    have heq : (rs.getD i RowHistory.empty).cut s.length =
        ⟨(rs.getD i RowHistory.empty).rows, []⟩ := by
      rw [RowHistory.cut, ← hget.rows, List.take_length]
    rw [heq] at hcut
    exact h.set i hcut
  | truncate i length =>
    obtain ⟨s, q, t, hi, hf, hd⟩ := KVCache.on_shape hs
    obtain ⟨htab, hat, -⟩ := hmem hi
    obtain ⟨hl, hp, hblocks⟩ := truncate_shape hf
    rw [hd]
    exact h.set i ((h.get hi).cut htab hat hl hp hblocks)
  | reset i =>
    obtain ⟨s, q, t, hi, hf, hd⟩ := KVCache.on_shape hs
    obtain ⟨hl, hp, -⟩ := truncate_shape hf
    rw [hd]
    exact h.set i (.blank (by omega) hp)
  | fork i length =>
    obtain ⟨s, hi, hs⟩ := Option.bind_eq_some_iff.mp hs
    obtain ⟨⟨q, f⟩, hf, hs⟩ := Option.map_eq_some_iff.mp hs
    cases hs
    obtain ⟨htab, hat, hcons⟩ := hmem hi
    have hret : c.returned (.fork i length) = f.isSome := by
      simp [KVCache.returned, hi, hf]
    rw [hret]
    cases f with
    | none => simpa [RowHistory.call] using h
    | some t =>
      obtain ⟨hle, hl, hp⟩ := fork_shape hf
      obtain ⟨-, hmod, hblocks⟩ := KVStorage.fork_blocks hcons.counts hf
      refine h.concat ((h.get hi).cut htab hat (by omega) hp ?_)
      rw [hblocks, hl, blocksFor_mul hmod]
  | moveNew i =>
    obtain ⟨s, hi, hs⟩ := Option.map_eq_some_iff.mp hs
    cases hs
    exact (h.set i (.blank (Eq.refl _) (Eq.refl _))).concat (h.get hi)
  | moveTo i j =>
    obtain ⟨s, hi, hs⟩ := Option.bind_eq_some_iff.mp hs
    obtain ⟨o, hj, hs⟩ := Option.bind_eq_some_iff.mp hs
    show Paired g st d.seqs (if i = j then rs
      else (rs.set i (rs.getD j RowHistory.empty)).set j RowHistory.empty)
    by_cases hij : i = j
    · rw [if_pos hij] at hs ⊢
      cases hs
      exact h
    · rw [if_neg hij] at hs ⊢
      obtain ⟨⟨q, t⟩, hr, hs⟩ := Option.map_eq_some_iff.mp hs
      cases hs
      obtain ⟨hl, hp⟩ := releaseAll_shape hr
      exact (h.set i (h.get hj)).set j (.blank hl hp)
  | destroy i =>
    obtain ⟨s, hi, hs⟩ := Option.bind_eq_some_iff.mp hs
    obtain ⟨⟨q, t⟩, -, hs⟩ := Option.map_eq_some_iff.mp hs
    cases hs
    exact h.eraseIdx i

namespace KVShape

/-- Positions a table covers lie in rows of their own. -/
theorem slot_inj {s : KVSequence} (ht : s.Table) (hbt : s.blockTokens = g.blockTokens)
    {pos pos' : Nat} (hpos' : pos' < s.length + s.pending) {id : Nat}
    (hid : s.blocks[pos / g.blockTokens]? = some id)
    (heq : (id, pos % g.blockTokens) = g.slot s.blocks pos') : pos = pos' := by
  obtain ⟨hblock, hmod⟩ := Prod.mk.inj heq
  have hcover : pos' / g.blockTokens < s.blocks.length := by
    rw [ht.length_eq, hbt]
    exact div_lt_blocksFor hpos'
  obtain ⟨hlt, hget⟩ := List.getElem?_eq_some_iff.mp hid
  rw [List.getD_eq_getElem _ _ hcover, ← hget] at hblock
  have hdiv := (List.Nodup.getElem_inj_iff ht.nodup).mp hblock
  rw [← Nat.div_add_mod pos g.blockTokens, hdiv, hmod, Nat.div_add_mod]

end KVShape

/-- One view written over cells that are what the sequences were given. -/
theorem Paired.view {st : BlockKVStorage E} {p : BlockPool} {seqs : List KVSequence}
    {rs : List (RowHistory E)} (h : Paired g st seqs rs) (ho : Owned p seqs)
    (hb : ∀ s ∈ seqs, s.At g.blockTokens) (hk : g.Side st.backed st.keys)
    (hv : g.Side st.backed st.values) {i layer row0 : Nat} {s : KVSequence}
    (hi : seqs[i]? = some s) {k v : List E} (hlayer : layer < g.layers)
    (hlk : (row0 + s.pending) * (g.heads * g.dim) ≤ k.length)
    (hlv : (row0 + s.pending) * (g.heads * g.dim) ≤ v.length)
    (hbacked : ∀ b < s.pending, (g.slot s.blocks (s.length + b)).1 < st.backed)
    {out : BlockKVStorage E} (hout : out = { st with
      keys := st.keys.modify layer fun cells => g.storeView cells k row0 s
      values := st.values.modify layer fun cells => g.storeView cells v row0 s }) :
    g.Side out.backed out.keys ∧ g.Side out.backed out.values ∧
      Paired g out seqs
        (rs.set i ((rs.getD i RowHistory.empty).given g layer k v row0)) := by
  have htab := ho.table s (List.mem_of_getElem? hi)
  have hbt : s.pending ≠ 0 → s.blockTokens = g.blockTokens := by
    intro hp
    cases hbound : s.bound with
    | true => exact hb s (List.mem_of_getElem? hi) hbound
    | false =>
      have hlen := htab.length_eq
      have hdiv := div_lt_blocksFor (b := s.blockTokens)
        (show s.length < s.length + s.pending by omega)
      rw [htab.blank hbound, List.length_nil] at hlen
      rw [← hlen] at hdiv
      exact absurd hdiv (Nat.not_lt_zero _)
  have hcover : ∀ b < s.pending, (s.length + b) / g.blockTokens < s.blocks.length := by
    intro b hlt
    rw [htab.length_eq, hbt (by omega)]
    exact div_lt_blocksFor (by omega)
  have hapart : ∀ b < s.pending, ∀ b' < s.pending,
      g.slot s.blocks (s.length + b) = g.slot s.blocks (s.length + b') → b = b' := by
    intro b hlt b' hlt' heq
    have hcov := hcover b hlt
    have hslot : (s.blocks[(s.length + b) / g.blockTokens],
        (s.length + b) % g.blockTokens) = g.slot s.blocks (s.length + b') := by
      rw [← heq, KVShape.slot, List.getD_eq_getElem _ _ hcov]
    have := KVShape.slot_inj htab (hbt (by omega)) (by omega) (List.getElem?_eq_getElem hcov) hslot
    omega
  obtain ⟨hks, hkread, hkkeep⟩ := hk.storeView hlk hbacked hapart
  obtain ⟨hvs, hvread, hvkeep⟩ := hv.storeView hlv hbacked hapart
  have hget := h.get hi
  subst hout
  refine ⟨hks, hvs, by rw [List.length_set, h.length], fun j u q hu hq => ?_⟩
  by_cases hij : i = j
  · subst hij
    rw [hi] at hu
    cases hu
    rw [List.getElem?_set] at hq
    simp only [↓reduceIte] at hq
    split at hq
    · cases hq
      refine ⟨hget.rows, by rw [RowHistory.given, List.length_mapIdx, hget.step],
        fun pos row l kr vr hrow hkv => ?_⟩
      dsimp only
      simp only [RowHistory.given, List.getElem?_append, hget.rows, List.getElem?_mapIdx] at hrow
      split at hrow
      next hlt =>
        have hrow' : ((rs.getD i RowHistory.empty).rows ++ (rs.getD i RowHistory.empty).step)[pos]? =
            some row := by
          rw [List.getElem?_append_left (by rw [hget.rows]; exact hlt)]
          exact hrow
        obtain ⟨hkr, hvr⟩ := hget.read pos row l kr vr hrow' hkv
        have hne : l = layer → ∀ b < s.pending, ∀ id,
            s.blocks[pos / g.blockTokens]? = some id →
              (id, pos % g.blockTokens) ≠ g.slot s.blocks (s.length + b) := by
          intro _ b hlt' id hid heq
          have := KVShape.slot_inj htab (hbt (by omega)) (by omega) hid heq
          omega
        exact ⟨hkkeep _ _ _ _ hkr hne, hvkeep _ _ _ _ hvr hne⟩
      next hlt =>
        obtain ⟨old, hold, hrow⟩ := Option.map_eq_some_iff.mp hrow
        have hb' : pos - s.length < s.pending := by
          rw [← hget.step]
          exact (List.getElem?_eq_some_iff.mp hold).1
        have hpos : s.length + (pos - s.length) = pos := by omega
        by_cases hl : l = layer
        · subst hl
          rw [← hrow, Function.update_self] at hkv
          cases hkv
          have hk' := hkread hlayer _ hb' (hcover _ hb')
          have hv' := hvread hlayer _ hb' (hcover _ hb')
          rw [hpos] at hk' hv'
          exact ⟨hk', hv'⟩
        · rw [← hrow, Function.update_of_ne hl] at hkv
          have hrow' : ((rs.getD i RowHistory.empty).rows ++
              (rs.getD i RowHistory.empty).step)[pos]? = some old := by
            rw [List.getElem?_append_right (by rw [hget.rows]; omega), hget.rows]
            exact hold
          obtain ⟨hkr, hvr⟩ := hget.read pos old l kr vr hrow' hkv
          exact ⟨hkkeep _ _ _ _ hkr fun heq => absurd heq hl,
            hvkeep _ _ _ _ hvr fun heq => absurd heq hl⟩
    · cases hq
  · rw [List.getElem?_set_ne hij] at hq
    have hold := h.holds j u q hu hq
    refine ⟨hold.rows, hold.step, fun pos row l kr vr hrow hkv => ?_⟩
    obtain ⟨hkr, hvr⟩ := hold.read pos row l kr vr hrow hkv
    have hne : l = layer → ∀ b < s.pending, ∀ id,
        u.blocks[pos / g.blockTokens]? = some id →
          (id, pos % g.blockTokens) ≠ g.slot s.blocks (s.length + b) := by
      intro _ b hlt id hid heq
      have hin : s.length + b < s.length + s.pending := by omega
      obtain ⟨id', hid', -, hnot⟩ := (ho.perm (perm_cons_eraseIdx hi)).row (by omega) hin
      rw [hbt (by omega)] at hid'
      have hsame : id = id' := by
        rw [(Prod.mk.inj heq).1, List.getD_eq_getElem?_getD, hid']
        exact Eq.refl _
      subst hsame
      exact hnot (mem_listed.mpr ⟨u, List.mem_eraseIdx_iff_getElem?.mpr ⟨j, Ne.symm hij, hu⟩,
        List.mem_of_getElem? hid⟩)
    exact ⟨hkkeep _ _ _ _ hkr hne, hvkeep _ _ _ _ hvr hne⟩

/-- The views of a pass written one after another. -/
theorem Paired.views {p : BlockPool} {seqs : List KVSequence} (ho : Owned p seqs)
    (hb : ∀ s ∈ seqs, s.At g.blockTokens) {layer : Nat} {k v : List E} {views : List Nat}
    {of : List KVSequence} (hof : (views.mapM fun i => seqs[i]?) = some of)
    (hlayer : of ≠ [] → layer < g.layers) {st : BlockKVStorage E} {rs : List (RowHistory E)}
    {row0 : Nat} (h : Paired g st seqs rs) (hk : g.Side st.backed st.keys)
    (hv : g.Side st.backed st.values)
    (hlk : (row0 + (of.map KVSequence.pending).sum) * (g.heads * g.dim) ≤ k.length)
    (hlv : (row0 + (of.map KVSequence.pending).sum) * (g.heads * g.dim) ≤ v.length)
    (hbacked : ∀ s ∈ of, ∀ b < s.pending, (g.slot s.blocks (s.length + b)).1 < st.backed)
    {out : BlockKVStorage E} (hout : out = { st with
      keys := st.keys.modify layer (g.storeViews k row0 of)
      values := st.values.modify layer (g.storeViews v row0 of) }) :
    g.Side out.backed out.keys ∧ g.Side out.backed out.values ∧
      Paired g out seqs (RowHistory.giveViews g layer k v row0 views rs) := by
  induction views generalizing of st rs row0 with
  | nil =>
    rw [List.mapM_nil] at hof
    cases hof
    have hsame : out = st := by
      rw [hout]
      change ({ st with keys := st.keys.modify layer id, values := st.values.modify layer id } :
        BlockKVStorage E) = st
      rw [List.modify_id, List.modify_id]
    subst hsame
    exact ⟨hk, hv, h⟩
  | cons i views ih =>
    simp only [List.mapM_cons, Option.bind_eq_bind, Option.bind_eq_some_iff, Option.pure_def,
      Option.some.injEq] at hof
    obtain ⟨s, hi, rest, hrest, rfl⟩ := hof
    simp only [List.map_cons, List.sum_cons] at hlk hlv
    have hone : row0 + s.pending ≤ row0 + (s.pending + (rest.map KVSequence.pending).sum) := by
      omega
    obtain ⟨hks, hvs, hp⟩ := h.view ho hb hk hv hi (hlayer (by simp))
      (le_trans (Nat.mul_le_mul_right _ hone) hlk) (le_trans (Nat.mul_le_mul_right _ hone) hlv)
      (hbacked s (by simp)) (Eq.refl _)
    unfold RowHistory.giveViews
    dsimp only
    rw [(h.get hi).step]
    refine ih hrest (fun _ => hlayer (by simp)) hp hks hvs (by rwa [Nat.add_assoc])
      (by rwa [Nat.add_assoc]) (fun u hu => hbacked u (by simp [hu])) ?_
    rw [hout]
    simp only [KVShape.storeViews, List.modify_modify_eq]
    exact Eq.refl _

namespace KVWorld

/-- Whole cells, a pool in order, and cells that are what the sequences were given. -/
structure Ok (g : KVShape) (w : KVWorld E) : Prop where
  reach : Runs.Reach (KVCache.storageMachine g.blockTokens) w.cache
  keys : g.Side w.store.backed w.store.keys
  values : g.Side w.store.backed w.store.values
  paired : Paired g w.store w.cache.seqs w.histories

variable {zero : E} {w w' : KVWorld E}

/-- A write gives the views' rows, or throws and changes no row. -/
theorem Ok.write (h : Ok g w) {layer : Nat} {views : List Nat} {of : List KVSequence}
    (hof : (views.mapM fun i => w.cache.seqs[i]?) = some of) (k v : List E) (refused : List Nat)
    {ok : Bool} {st : BlockKVStorage E}
    (hw : g.kvWrite zero refused layer of k v w.store = (ok, st)) :
    g.Side st.backed st.keys ∧ g.Side st.backed st.values ∧ Paired g st w.cache.seqs
      (if ok then RowHistory.giveViews g layer k v 0 views w.histories else w.histories) := by
  obtain ⟨hok, hbudget⟩ := KVCache.storage_ok h.reach
  unfold KVShape.kvWrite at hw
  split at hw
  next =>
    cases hw
    exact ⟨h.keys, h.values, h.paired⟩
  next hvalid =>
    dsimp only at hw
    split at hw
    next =>
      cases hw
      exact ⟨h.keys, h.values, h.paired⟩
    next hlong =>
      split at hw
      next mid hmid =>
        cases hw
        have hgrow := (KVShape.ensureViews_grows h.keys h.values hmid).1
        exact ⟨hgrow.keys, hgrow.values, h.paired.grows hgrow⟩
      next mid hmid =>
        cases hw
        obtain ⟨hgrow, hbacked⟩ := KVShape.ensureViews_grows h.keys h.values hmid
        have hlayer : of ≠ [] → layer < g.layers := by
          intro hne
          obtain ⟨s, hs⟩ := List.exists_mem_of_ne_nil of hne
          have hv : g.validateWriteView layer s = true := not_not.mp hvalid s hs
          simp only [KVShape.validateWriteView, decide_eq_true_eq] at hv
          exact hv.1
        simp only [Nat.mul_assoc, not_or, not_lt] at hlong
        exact (h.paired.grows hgrow).views hok hbudget.bound hof hlayer hgrow.keys hgrow.values
          (by rw [Nat.zero_add]; exact hlong.1) (by rw [Nat.zero_add]; exact hlong.2)
          (hbacked (Eq.refl _)) (Eq.refl _)

theorem Ok.step (h : Ok g w) {e : KVEvent E} (hs : step g zero w e = some w') : Ok g w' := by
  obtain ⟨hok, hbudget⟩ := KVCache.storage_ok h.reach
  cases e with
  | call call =>
    obtain ⟨c, hc, hs⟩ := Option.map_eq_some_iff.mp hs
    cases hs
    have hcall : w.cache.step call = some c := by
      have hc : (if KVCache.bindsAt g.blockTokens call then w.cache.step call else none) =
          some c := hc
      split at hc
      · exact hc
      · cases hc
    exact ⟨.next h.reach hc, h.keys, h.values, h.paired.call hok hbudget hcall⟩
  | write layer views k v refused =>
    obtain ⟨of, hof, hs⟩ := Option.map_eq_some_iff.mp hs
    cases hs
    obtain ⟨hk, hv, hp⟩ := h.write hof k v refused (Eq.refl _)
    exact ⟨h.reach, hk, hv, hp⟩
  | backAll refused =>
    cases hs
    have hgrow : g.Grows w.store (if g.maxBlocks = 0 then w.store
        else (g.ensure zero refused w.store (g.maxBlocks - 1)).getD w.store) := by
      split
      · exact .refl h.keys h.values
      · cases hens : g.ensure zero refused w.store (g.maxBlocks - 1) with
        | none => exact .refl h.keys h.values
        | some st => exact (KVShape.ensure_grows h.keys h.values hens).1
    exact ⟨h.reach, hgrow.keys, hgrow.values, h.paired.grows hgrow⟩

theorem ok_of_reach (h : Runs.Reach (machine g zero) w) : Ok g w := by
  refine h.invariant (Ok g) ?_ fun s e t hs hstep => hs.step hstep
  intro s hs
  cases hs
  have hside : g.Side 0 (List.replicate g.layers ([] : List E)) := by
    refine ⟨List.length_replicate, fun cells hc => ?_⟩
    rw [(List.mem_replicate.mp hc).2]
    simp [KVShape.Whole]
  exact ⟨.start (Eq.refl _), hside, hside, Eq.refl _, fun i s r hi => by cases hi⟩

/-- A history forked, both halves written in one pass, and the first of them gone. -/
def forkedWrites : List (KVEvent Nat) :=
  [.call (.configure 4), .call (.bind 2), .call (.prepare 0 3),
    .write 0 [0] [10, 11, 12] [20, 21, 22] [], .call (.commit 0), .call (.fork 0 2),
    .call (.prepare 0 1), .call (.prepare 1 1), .write 0 [0, 1] [13, 14] [23, 24] [],
    .call (.commit 1), .call (.truncate 0 1)]

def smallShape : KVShape := ⟨2, 1, 1, 1, 4, Nat.zero_lt_two⟩

def blankWorld : KVWorld Nat := ⟨⟨⟨0, 0, [], []⟩, []⟩, ⟨0, [[]], [[]]⟩, []⟩

end KVWorld

end Llmx
