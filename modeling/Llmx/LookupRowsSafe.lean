import Llmx.LookupSpans
import Llmx.HotRowsListed

namespace Llmx

open Runs

namespace WeightRows

open Store

section Tasks

variable {hash : Nat → Nat} {t : Table} {slots : Nat} {st st' : Store} {unique : List Nat}

theorem fileRow_length {id : Nat} (hid : id < t.rows) : (t.fileRow id).length = t.rowBytes := by
  have hle := t.extent
  have hrow := Nat.mul_le_mul_right t.rowBytes (Nat.succ_le_of_lt hid)
  rw [Nat.succ_mul] at hrow
  unfold Table.fileRow
  rw [List.length_take, List.length_drop]
  omega

theorem fileRow_getD (t : Table) (id : Nat) {k : Nat} (hk : k < t.rowBytes) :
    (t.fileRow id).getD k 0 = t.reader.content.getD (t.offset + id * t.rowBytes + k) 0 := by
  unfold Table.fileRow
  rw [List.getD_eq_getElem?_getD, List.getD_eq_getElem?_getD, List.getElem?_take, if_pos hk,
    List.getElem?_drop]

/-- A store that finds only rows of the table, as the file has them. -/
def Filed (hash : Nat → Nat) (t : Table) (slots : Nat) (st : Store) : Prop :=
  ∃ k, Listed hash (fun id bytes => id < t.rows ∧ bytes = t.fileRow id) slots t.rowBytes none st k

theorem Filed.touch (h : Filed hash t slots st) (slot : Nat) :
    Filed hash t slots (st.touch slot) := by
  obtain ⟨k, h⟩ := h
  exact ⟨k, h.touch slot⟩

/-- A row the store finds is the file's. -/
theorem Filed.find (h : Filed hash t slots st) (hhash : ∀ r, hash r < 2 ^ 64) (id : Nat) :
    (∃ q, st.find hash id = some (some q) ∧ id < t.rows ∧ st.row q = t.fileRow id) ∨
      st.find hash id = some none := by
  obtain ⟨k, h⟩ := h
  exact h.find_own hhash id

/-- A row of the file the store does not find can be put, and no other row comes in. -/
theorem Filed.put (h : Filed hash t slots st) (hhash : ∀ r, hash r < 2 ^ 64)
    (hslots : slots ≤ 2 ^ 32) {id : Nat} (hid : id < t.rows)
    (hmiss : st.find hash id = some none) :
    ∃ st', st.put hash id (t.fileRow id) = some st' ∧ Filed hash t slots st' ∧
      ∀ r, r ≠ id → st.find hash r = some none → st'.find hash r = some none := by
  obtain ⟨k, h⟩ := h
  obtain ⟨st', hput, h', hfinds⟩ := h.put_spec hhash hslots (Nat.lt_of_lt_of_le hid t.ids)
    (fileRow_length hid) ⟨hid, Eq.refl _⟩ hmiss
  exact ⟨st', hput, ⟨k, h'⟩, hfinds⟩

theorem rowOf_length (rowBytes : Nat) (raw : Nat → UInt8) (i : Nat) :
    (rowOf rowBytes raw i).length = rowBytes := by
  unfold rowOf
  rw [List.length_map, List.length_range]

/-- A row's memory is the file's row where each of its bytes is. -/
theorem rowOf_eq {raw : Nat → UInt8} {i id : Nat} (hid : id < t.rows)
    (h : ∀ k < t.rowBytes, raw (i * t.rowBytes + k) =
      t.reader.content.getD (t.offset + id * t.rowBytes + k) 0) :
    rowOf t.rowBytes raw i = t.fileRow id := by
  apply List.ext_getElem
  · rw [rowOf_length, fileRow_length hid]
  · intro k h₁ h₂
    rw [rowOf_length] at h₁
    have hat := fileRow_getD t id h₁
    rw [List.getD_eq_getElem?_getD, List.getElem?_eq_getElem h₂, Option.getD_some] at hat
    rw [hat, ← h k h₁]
    simp only [rowOf, List.getElem_map, List.getElem_range]

/-- The bytes of a row's memory that are the file's. -/
def RowIs (t : Table) (raw : Nat → UInt8) (i id : Nat) : Prop :=
  ∀ k < t.rowBytes, raw (i * t.rowBytes + k) =
    t.reader.content.getD (t.offset + id * t.rowBytes + k) 0

/-- The lookups so far of `done`: each row held is the file's, and the store has no other. -/
structure Looked (hash : Nat → Nat) (t : Table) (slots : Nat) (done : List Nat) (f : Found) :
    Prop where
  filed : Filed hash t slots f.store
  length : f.held.length = done.length
  held : ∀ i < done.length, f.held.getD i false = true → RowIs t f.raw i (done.getD i 0)
  missing : ∀ i < done.length, f.held.getD i false = false →
    f.store.find hash (done.getD i 0) = some none

theorem getD_concat_lt {α : Type} {l : List α} {x d : α} {i : Nat} (hi : i < l.length) :
    (l ++ [x]).getD i d = l.getD i d := by
  rw [List.getD_eq_getElem?_getD, List.getD_eq_getElem?_getD, List.getElem?_append_left hi]

theorem getD_concat_eq {α : Type} {l : List α} {x d : α} {i : Nat} (hi : i = l.length) :
    (l ++ [x]).getD i d = x := by
  rw [List.getD_eq_getElem?_getD, List.getElem?_append_right (Nat.le_of_eq hi.symm), hi,
    Nat.sub_self]
  exact Eq.refl _

theorem Looked.one (hhash : ∀ r, hash r < 2 ^ 64) {done : List Nat} {f : Found}
    (h : Looked hash t slots done f) (id : Nat) :
    ∃ f', lookUpOne hash f id = some f' ∧ Looked hash t slots (done ++ [id]) f' := by
  obtain ⟨k, hlisted⟩ := h.filed
  have hrow := hlisted.rowBytes_eq
  have hlength := h.length
  unfold lookUpOne
  rcases h.filed.find hhash id with ⟨q, hfind, hid, hq⟩ | hfind
  · rw [hfind]
    refine ⟨_, Eq.refl _, h.filed.touch q, ?_, fun i hi hheld => ?_, fun i hi hheld => ?_⟩
    · rw [List.length_append, List.length_append, hlength]
      exact Eq.refl _
    · rw [List.length_append, List.length_singleton] at hi
      intro k hk
      have hput : ∀ p, writeRow f.raw (f.held.length * f.store.rowBytes) (f.store.row q) p =
          if f.held.length * t.rowBytes ≤ p ∧ p < f.held.length * t.rowBytes + t.rowBytes then
            (t.fileRow id).getD (p - f.held.length * t.rowBytes) 0 else f.raw p := by
        intro p
        unfold writeRow Tiling.put
        rw [hq, hrow, fileRow_length hid]
      show writeRow f.raw _ _ _ = _
      rw [hput]
      by_cases hlast : i = done.length
      · subst hlast
        rw [getD_concat_eq (Eq.refl _), hlength, if_pos ⟨by omega, by omega⟩,
          Nat.add_sub_cancel_left, fileRow_getD t id hk]
      · have hmul := Nat.mul_le_mul_right t.rowBytes (show i + 1 ≤ done.length by omega)
        rw [Nat.succ_mul] at hmul
        rw [getD_concat_lt (by omega), hlength, if_neg (by omega)]
        rw [getD_concat_lt (by omega)] at hheld
        exact h.held i (by omega) hheld k hk
    · rw [List.length_append, List.length_singleton] at hi
      by_cases hlast : i = done.length
      · rw [getD_concat_eq (hlast.trans hlength.symm)] at hheld
        cases hheld
      · rw [getD_concat_lt (by omega)] at hheld ⊢
        exact h.missing i (by omega) hheld
  · rw [hfind]
    refine ⟨_, Eq.refl _, h.filed, ?_, fun i hi hheld => ?_, fun i hi hheld => ?_⟩
    · rw [List.length_append, List.length_append, hlength]
      exact Eq.refl _
    · rw [List.length_append, List.length_singleton] at hi
      by_cases hlast : i = done.length
      · rw [getD_concat_eq (hlast.trans hlength.symm)] at hheld
        cases hheld
      · rw [getD_concat_lt (by omega)] at hheld ⊢
        exact h.held i (by omega) hheld
    · rw [List.length_append, List.length_singleton] at hi
      by_cases hlast : i = done.length
      · rw [getD_concat_eq hlast]
        exact hfind
      · rw [getD_concat_lt (by omega)] at hheld ⊢
        exact h.missing i (by omega) hheld

theorem Looked.all (hhash : ∀ r, hash r < 2 ^ 64) {done : List Nat} {f : Found}
    (h : Looked hash t slots done f) (rest : List Nat) :
    ∃ f', lookUp hash f rest = some f' ∧ Looked hash t slots (done ++ rest) f' := by
  induction rest generalizing done f with
  | nil => exact ⟨f, Eq.refl _, by rw [List.append_nil]; exact h⟩
  | cons id rest ih =>
    obtain ⟨f₁, hone, h₁⟩ := h.one hhash id
    obtain ⟨f', hrest, h'⟩ := ih h₁
    rw [List.append_assoc] at h'
    refine ⟨f', ?_, h'⟩
    show List.foldlM (lookUpOne hash) f (id :: rest) = some f'
    rw [List.foldlM_cons, hone]
    exact hrest

/-- Memory whose every row but some is the file's, after a publish of these. -/
theorem publish_filed (hhash : ∀ r, hash r < 2 ^ 64) (hslots : slots ≤ 2 ^ 32)
    {raw : Nat → UInt8} {rest : List (Nat × Bool)} {i : Nat} (h : Filed hash t slots st)
    (hrows : ∀ p ∈ rest, p.1 < t.rows) (hinc : (rest.map Prod.fst).Pairwise (· < ·))
    (hread : ∀ j p, rest[j]? = some p → RowIs t raw (i + j) p.1)
    (hmissing : ∀ p ∈ rest, p.2 = false → st.find hash p.1 = some none) :
    ∃ st', publish hash t raw rest i st = some st' ∧ Filed hash t slots st' := by
  induction rest generalizing i st with
  | nil => exact ⟨st, Eq.refl _, h⟩
  | cons p rest ih =>
    obtain ⟨id, held⟩ := p
    obtain ⟨hfirst, hinc⟩ := List.pairwise_cons.mp hinc
    have hlater : ∀ j p, rest[j]? = some p → RowIs t raw (i + 1 + j) p.1 := by
      intro j p hj
      rw [Nat.add_assoc, Nat.add_comm 1 j]
      exact hread (j + 1) p hj
    have hrest := fun p hp => hrows p (List.mem_cons_of_mem _ hp)
    unfold publish
    by_cases hheld : held = true
    · rw [if_pos hheld]
      exact ih h hrest hinc hlater fun p hp => hmissing p (List.mem_cons_of_mem _ hp)
    · have hid : id < t.rows := hrows (id, held) List.mem_cons_self
      have hnone := hmissing (id, held) List.mem_cons_self (eq_false_of_ne_true hheld)
      obtain ⟨st₁, hput, hfiled, hfinds⟩ := h.put hhash hslots hid hnone
      have hrow : RowIs t raw i id := hread 0 (id, held) (Eq.refl _)
      rw [if_neg hheld, rowOf_eq hid hrow, hput, Option.bind_some]
      exact ih hfiled hrest hinc hlater fun p hp hmiss => hfinds p.1
        (Nat.ne_of_gt (hfirst _ (List.mem_map_of_mem hp)))
        (hmissing p (List.mem_cons_of_mem _ hp) hmiss)

/-- The rows' memory once every missing row is read. -/
theorem rows_read {held : List Bool} {raw : Nat → UInt8} {come : Nat → Nat → Option Nat}
    {copies landed : List Copy} (hrows : ∀ x ∈ unique, x < t.rows)
    (hinc : unique.Pairwise (· < ·))
    (hheld : ∀ i < unique.length, held.getD i false = true → RowIs t raw i (unique.getD i 0))
    (hcopies : readSpans t.reader (spansFrom t unique held 0) come = some copies)
    (hlanded : landed.Perm copies) :
    ∀ i < unique.length, RowIs t (applyCopies raw landed) i (unique.getD i 0) := by
  have hsmall : ∀ x ∈ unique, x < 2 ^ 32 := fun x hx => Nat.lt_of_lt_of_le (hrows x hx) t.ids
  obtain ⟨hfrom, hcover⟩ := readSpans_spec hcopies
  obtain ⟨hspans, hmissing⟩ := spansFrom_spec t held hsmall hinc 0
  intro i hi k hk
  apply Tiling.putAll_eq_of_held
  · intro c hc hin
    obtain ⟨s, hs, d, hplace, hlen, hdata⟩ := hfrom c (hlanded.mem_iff.mp hc)
    obtain ⟨a, e, hspan⟩ := hspans s hs
    rw [hspan.place] at hplace
    rw [hspan.bytes] at hlen
    rw [hplace] at hin ⊢
    have hai : a ≤ i := by
      by_contra hlt
      have hmul := Nat.mul_le_mul_right t.rowBytes (show i + 1 ≤ a by omega)
      rw [Nat.succ_mul] at hmul
      omega
    have hie : i < e := by
      by_contra hge
      have hmul := Nat.mul_le_mul_right t.rowBytes (show e - a ≤ i - a by omega)
      rw [Nat.sub_mul i a] at hmul
      have hmul' := Nat.mul_le_mul_right t.rowBytes hai
      omega
    have hid := hspan.next i hai hie
    have hmul : (i - a) * t.rowBytes + a * t.rowBytes = i * t.rowBytes := by
      rw [← Nat.add_mul, Nat.sub_add_cancel hai]
    rw [hdata _ (by omega), hspan.source, hid, Nat.add_mul]
    congr 1
    omega
  · by_cases hfound : held.getD i false = true
    · exact .inl (hheld i hi hfound k hk)
    · right
      obtain ⟨s, hs, a, e, hspan, hai, hie⟩ := hmissing i (Nat.zero_le i) hi
        (eq_false_of_ne_true hfound)
      have hmul : (i - a) * t.rowBytes + a * t.rowBytes = i * t.rowBytes := by
        rw [← Nat.add_mul, Nat.sub_add_cancel hai]
      have hlt : (i - a) * t.rowBytes + k < (e - a) * t.rowBytes := by
        have hle := Nat.mul_le_mul_right t.rowBytes (show i - a + 1 ≤ e - a by omega)
        rw [Nat.succ_mul] at hle
        omega
      obtain ⟨c, hc, hplace⟩ := hcover s hs ((i - a) * t.rowBytes + k) (by
        rw [hspan.bytes]
        exact hlt)
      rw [hspan.place] at hplace
      exact ⟨c, hlanded.mem_iff.mpr hc, by omega⟩

/-- The spans lie in the file. -/
theorem spans_inside (held : List Bool) (hrows : ∀ x ∈ unique, x < t.rows)
    (hinc : unique.Pairwise (· < ·)) :
    ∀ s ∈ spansFrom t unique held 0, s.source + s.bytes ≤ t.reader.content.length := by
  have hsmall : ∀ x ∈ unique, x < 2 ^ 32 := fun x hx => Nat.lt_of_lt_of_le (hrows x hx) t.ids
  intro s hs
  obtain ⟨a, e, hspan⟩ := (spansFrom_spec t held hsmall hinc 0).1 s hs
  have hlt := hspan.lt
  have hle := hspan.le
  have hlast := hspan.next (e - 1) (by omega) (by omega)
  have hmem : unique.getD (e - 1) 0 < t.rows := by
    rw [List.getD_eq_getElem?_getD, List.getElem?_eq_getElem (by omega), Option.getD_some]
    exact hrows _ (List.getElem_mem (by omega))
  have hmul := Nat.mul_le_mul_right t.rowBytes
    (show unique.getD a 0 + (e - a) ≤ t.rows by omega)
  rw [Nat.add_mul] at hmul
  have hextent := t.extent
  rw [hspan.source, hspan.bytes]
  omega

/-- A store that is the table's, and finds none of the rows `held` leaves out. -/
def Ready (hash : Nat → Nat) (t : Table) (slots : Nat) (unique : List Nat) (held : List Bool)
    (st : Store) : Prop :=
  Filed hash t slots st ∧ ∀ i < unique.length, held.getD i false = false →
    st.find hash (unique.getD i 0) = some none

/-- What a task leaves: the store the table's and, where it did not fail, the rows all read. -/
structure Leaves (hash : Nat → Nat) (t : Table) (slots : Nat) (unique : List Nat) (o : Outcome) :
    Prop where
  filed : ∀ st ∈ o.store, Filed hash t slots st
  rows : o.ok = true → ∀ i < unique.length, RowIs t o.raw i (unique.getD i 0)

theorem publish_read (hhash : ∀ r, hash r < 2 ^ 64) (hslots : slots ≤ 2 ^ 32) {held : List Bool}
    {raw : Nat → UInt8} (hrows : ∀ x ∈ unique, x < t.rows) (hinc : unique.Pairwise (· < ·))
    (hlength : held.length = unique.length)
    (hread : ∀ i < unique.length, RowIs t raw i (unique.getD i 0))
    (h : Ready hash t slots unique held st) :
    ∃ st', publish hash t raw (unique.zip held) 0 st = some st' ∧ Filed hash t slots st' := by
  have hget : ∀ j p, (unique.zip held)[j]? = some p →
      j < unique.length ∧ unique.getD j 0 = p.1 ∧ held.getD j false = p.2 := by
    intro j p hp
    obtain ⟨hid, hheld⟩ := List.getElem?_zip_eq_some.mp hp
    refine ⟨(List.getElem?_eq_some_iff.mp hid).1, ?_, ?_⟩
    · rw [List.getD_eq_getElem?_getD, hid, Option.getD_some]
    · rw [List.getD_eq_getElem?_getD, hheld, Option.getD_some]
  apply publish_filed hhash hslots h.1
  · intro p hp
    exact hrows p.1 (List.of_mem_zip hp).1
  · rw [List.map_fst_zip (Nat.le_of_eq hlength.symm)]
    exact hinc
  · intro j p hp
    obtain ⟨hj, hid, -⟩ := hget j p hp
    rw [Nat.zero_add, ← hid]
    exact hread j hj
  · intro p hp hmiss
    obtain ⟨j, hp⟩ := List.mem_iff_getElem?.mp hp
    obtain ⟨hj, hid, hheld⟩ := hget j p hp
    rw [← hid]
    exact h.2 j hj (hheld.trans hmiss)

section Missing

variable {f : Found} {store : Option Store}

/-- A read that goes on from the rows found leaves what it should, whatever its reads give. -/
theorem readMissing_leaves (hhash : ∀ r, hash r < 2 ^ 64) (hslots : slots ≤ 2 ^ 32)
    (hrows : ∀ x ∈ unique, x < t.rows) (hinc : unique.Pairwise (· < ·))
    (hlength : f.held.length = unique.length)
    (hheld : ∀ i < unique.length, f.held.getD i false = true → RowIs t f.raw i (unique.getD i 0))
    (hstore : ∀ st ∈ store, Ready hash t slots unique f.held st)
    {come : Nat → Nat → Option Nat} {left : Nat → UInt8} {landed : List Copy} {o : Outcome}
    (h : readMissing hash t unique f store come landed left = some o) :
    Leaves hash t slots unique o := by
  have hsmall : ∀ x ∈ unique, x < 2 ^ 32 := fun x hx => Nat.lt_of_lt_of_le (hrows x hx) t.ids
  unfold readMissing at h
  dsimp only at h
  by_cases hspans : spansFrom t unique f.held 0 = []
  · rw [if_pos hspans] at h
    cases h
    refine ⟨fun st hst => (hstore st hst).1, fun _ i hi => hheld i hi ?_⟩
    by_contra hmiss
    obtain ⟨s, hs, -⟩ := (spansFrom_spec t f.held hsmall hinc 0).2 i (Nat.zero_le i) hi
      (eq_false_of_ne_true hmiss)
    rw [hspans] at hs
    exact List.not_mem_nil hs
  · rw [if_neg hspans] at h
    cases hcopies : readSpans t.reader (spansFrom t unique f.held 0) come with
    | none =>
      rw [hcopies] at h
      cases h
      exact ⟨fun st hst => (hstore st hst).1, fun hok => absurd hok Bool.false_ne_true⟩
    | some copies =>
      rw [hcopies] at h
      dsimp only at h
      by_cases hlanded : landed.Perm copies
      · rw [if_pos hlanded] at h
        have hread := rows_read hrows hinc hheld hcopies hlanded
        cases store with
        | none =>
          cases h
          exact ⟨fun st hst => absurd hst (Option.not_mem_none st), fun _ => hread⟩
        | some st =>
          obtain ⟨st', hpublish, hfiled⟩ :=
            publish_read hhash hslots hrows hinc hlength hread (hstore st (Option.mem_some_self st))
          dsimp only at h
          rw [hpublish] at h
          cases h
          refine ⟨fun st hst => ?_, fun _ => hread⟩
          rw [← Option.mem_some.mp hst]
          exact hfiled
      · rw [if_neg hlanded] at h
        cases h

/-- It can end whatever its reads give, and reads given whole end it well. -/
theorem readMissing_ends (hhash : ∀ r, hash r < 2 ^ 64) (hslots : slots ≤ 2 ^ 32)
    (hrows : ∀ x ∈ unique, x < t.rows) (hinc : unique.Pairwise (· < ·))
    (hlength : f.held.length = unique.length)
    (hheld : ∀ i < unique.length, f.held.getD i false = true → RowIs t f.raw i (unique.getD i 0))
    (hstore : ∀ st ∈ store, Ready hash t slots unique f.held st)
    (come : Nat → Nat → Option Nat) (left : Nat → UInt8) :
    ∃ landed o, readMissing hash t unique f store come landed left = some o ∧
      ((∀ i, Whole t.reader (come i)) → o.ok = true) := by
  unfold readMissing
  dsimp only
  by_cases hspans : spansFrom t unique f.held 0 = []
  · exact ⟨[], _, if_pos hspans, fun _ => Eq.refl _⟩
  · cases hcopies : readSpans t.reader (spansFrom t unique f.held 0) come with
    | none =>
      refine ⟨[], _, if_neg hspans, fun hwhole => ?_⟩
      obtain ⟨copies, hsome⟩ := readSpans_whole hwhole (spans_inside f.held hrows hinc)
      rw [hsome] at hcopies
      cases hcopies
    | some copies =>
      refine ⟨copies, ?_⟩
      rw [if_neg hspans]
      dsimp only
      rw [if_pos (List.Perm.refl copies)]
      cases store with
      | none => exact ⟨_, Eq.refl _, fun _ => Eq.refl _⟩
      | some st =>
        have hread := rows_read hrows hinc hheld hcopies (List.Perm.refl copies)
        obtain ⟨st', hpublish, -⟩ :=
          publish_read hhash hslots hrows hinc hlength hread (hstore st (Option.mem_some_self st))
        dsimp only
        rw [hpublish]
        exact ⟨_, Eq.refl _, fun _ => Eq.refl _⟩

end Missing

/-- A task's read goes on from what its lookups found, with or without a store. -/
theorem task_found (hhash : ∀ r, hash r < 2 ^ 64) {store : Option Store} {s : Scratch}
    (hstore : ∀ st ∈ store, Filed hash t slots st) :
    ∃ f store', f.held.length = s.unique.length ∧
      (∀ i < s.unique.length, f.held.getD i false = true →
        RowIs t f.raw i (s.unique.getD i 0)) ∧
      (∀ st ∈ store', Ready hash t slots s.unique f.held st) ∧
      task hash t store s = readMissing hash t s.unique f store' := by
  cases store with
  | none =>
    have hheld : ∀ i, (s.unique.map fun _ => false).getD i false = false := by
      intro i
      rw [List.map_const', List.getD_eq_getElem?_getD, List.getElem?_replicate]
      split <;> exact Eq.refl _
    refine ⟨⟨Store.new 0 0, s.raw, s.unique.map fun _ => false⟩, none, ?_, fun i _ h => ?_,
      fun st hst => absurd hst (Option.not_mem_none st), Eq.refl _⟩
    · exact List.length_map _
    · rw [hheld i] at h
      cases h
  | some st =>
    have hstart : Looked hash t slots [] ⟨st, s.raw, []⟩ :=
      ⟨hstore st (Option.mem_some_self st), Eq.refl _, fun i hi => absurd hi (Nat.not_lt_zero i),
        fun i hi => absurd hi (Nat.not_lt_zero i)⟩
    obtain ⟨f, hlook, h⟩ := hstart.all hhash s.unique
    rw [List.nil_append] at h
    refine ⟨f, some f.store, h.length, h.held, fun st hst => ?_, ?_⟩
    · rw [← Option.mem_some.mp hst]
      exact ⟨h.filed, h.missing⟩
    · funext come landed left
      unfold task
      dsimp only
      rw [hlook, Option.bind_some]

end Tasks

/-- A scratch's ids once each, ascending, and which of them each of the ids asked is. -/
structure Asks (t : Table) (ids : List Nat) (s : Scratch) : Prop where
  inside : ∀ x ∈ ids, x < t.rows
  increasing : s.unique.Pairwise (· < ·)
  own : ∀ x ∈ s.unique, x ∈ ids
  remap : ∀ i < ids.length, s.unique[s.remap i]? = ids[i]?
  requested : s.requested = ids.length

/-- A session's scratch: the ids of a read begun and, once it is done, their rows. -/
structure Sound (t : Table) (sn : Session) : Prop where
  idle : sn.scratch.started = false → sn.asked = none ∧ sn.scratch.pending = .none
  asks : sn.scratch.started = true → ∃ ids, sn.asked = some ids ∧ Asks t ids sn.scratch
  empty : sn.scratch.pending = .none → sn.scratch.started = true → sn.scratch.unique = []
  rows : sn.scratch.pending = .done → ∀ i < sn.scratch.unique.length,
    RowIs t sn.scratch.raw i (sn.scratch.unique.getD i 0)

/-- Rows that are the file's, of the ids asked. -/
structure RightRows (t : Table) (ids : List Nat) (r : Rows) : Prop where
  increasing : r.ids.Pairwise (· < ·)
  asked : ∀ x, x ∈ r.ids ↔ x ∈ ids
  remap : ∀ i < ids.length, r.ids[r.remap i]? = ids[i]?
  requested : r.requested = ids.length
  rows : ∀ i id, r.ids[i]? = some id → rowOf t.rowBytes r.data i = t.fileRow id

section Sessions

variable {hash : Nat → Nat} {t : Table} {slots : Nat} {sn sn' : Session}

theorem Sound.stopped {s : Scratch} (hstarted : s.started = false) (hpending : s.pending = .none) :
    Sound t ⟨s, none⟩ where
  idle := fun _ => ⟨Eq.refl _, hpending⟩
  asks := fun h => absurd (hstarted.symm.trans h) Bool.false_ne_true
  empty := fun _ h => absurd (hstarted.symm.trans h) Bool.false_ne_true
  rows := by
    intro h
    cases hpending.symm.trans h

/-- What a start leaves of a scratch: stopped, or with the ids it was asked. -/
theorem Sound.start {ids order : List Nat} {launched : Bool}
    (h : startStep t ids order launched sn = some sn') : Sound t sn' := by
  obtain ⟨⟨ok, s⟩, hstart, rfl⟩ := Option.map_eq_some_iff.mp h
  unfold WeightRows.start at hstart
  split at hstart
  next => cases hstart
  next =>
  split at hstart
  next =>
    cases hstart
    exact Sound.stopped (Eq.refl _) (Eq.refl _)
  next hchecks =>
  have hin : ∀ x ∈ ids, x < t.rows := by
    intro x hx
    by_contra hge
    refine hchecks (.inr (.inr (.inr (.inr (List.any_eq_true.mpr ⟨x, hx, ?_⟩)))))
    exact decide_eq_true (Nat.le_of_not_lt hge)
  split at hstart
  next hnil =>
    cases hstart
    subst hnil
    refine ⟨fun h => absurd h.symm Bool.false_ne_true, fun _ => ⟨[], Eq.refl _, hin, List.Pairwise.nil,
      fun x hx => hx, fun i hi => absurd hi (Nat.not_lt_zero i), Eq.refl _⟩, fun _ _ => Eq.refl _, ?_⟩
    intro h
    cases h
  next =>
  split at hstart
  next => cases hstart
  next hsorts =>
    have hsorts : Sorts ids order := not_not.mp hsorts
    obtain ⟨hinc, hown, hremap⟩ := gather_sorted hsorts sn.scratch.remap
    cases hstart
    cases launched with
    | false => exact Sound.stopped (Eq.refl _) (Eq.refl _)
    | true =>
      refine ⟨fun h => absurd h.symm Bool.false_ne_true,
        fun _ => ⟨ids, Eq.refl _, hin, hinc, hown, hremap, Eq.refl _⟩, fun h => ?_, fun h => ?_⟩
      · cases h
      · cases h

theorem Sound.unique_lt (h : Sound t sn) (hstarted : sn.scratch.started = true) :
    (∀ x ∈ sn.scratch.unique, x < t.rows) ∧ sn.scratch.unique.Pairwise (· < ·) := by
  obtain ⟨ids, -, hasks⟩ := h.asks hstarted
  exact ⟨fun x hx => hasks.inside x (hasks.own x hx), hasks.increasing⟩

theorem Sound.started (h : Sound t sn) (hpending : sn.scratch.pending ≠ .none) :
    sn.scratch.started = true := by
  by_contra hstopped
  exact hpending (h.idle (eq_false_of_ne_true hstopped)).2

/-- A task's run leaves the store the table's, and the rows read if the task is done. -/
theorem Sound.run (hhash : ∀ r, hash r < 2 ^ 64) (hslots : slots ≤ 2 ^ 32)
    {store : Option Store} (hstore : ∀ st ∈ store, Filed hash t slots st) (h : Sound t sn)
    {come : Nat → Nat → Option Nat} {landed : List Copy} {left : Nat → UInt8}
    {r : Option Store × Session} (hrun : runStep hash t store sn come landed left = some r) :
    (∀ st ∈ r.1, Filed hash t slots st) ∧ Sound t r.2 := by
  unfold runStep at hrun
  split at hrun
  next hpending =>
    obtain ⟨o, htask, rfl⟩ := Option.map_eq_some_iff.mp hrun
    have hstarted := h.started (by rw [hpending]; exact nofun)
    obtain ⟨hrows, hinc⟩ := h.unique_lt hstarted
    obtain ⟨f, store', hlength, hheld, hready, heq⟩ := task_found hhash (s := sn.scratch) hstore
    rw [heq] at htask
    have hleaves := readMissing_leaves hhash hslots hrows hinc hlength hheld hready htask
    refine ⟨hleaves.filed, fun h => ?_, fun hs => ?_, fun hp => ?_, fun hp => ?_⟩
    · exact absurd (h.symm.trans hstarted) Bool.false_ne_true
    · obtain ⟨ids, hasked, hasks⟩ := h.asks hs
      exact ⟨ids, hasked, hasks.inside, hasks.increasing, hasks.own, hasks.remap, hasks.requested⟩
    · have hp : (if o.ok = true then Pending.done else Pending.failed) = Pending.none := hp
      split at hp <;> cases hp
    · apply hleaves.rows
      by_contra hfailed
      have hp : (if o.ok = true then Pending.done else Pending.failed) = Pending.done := hp
      rw [if_neg hfailed] at hp
      cases hp
  next => cases hrun

/-- A running task can end whatever its reads give, and reads given whole end it done. -/
theorem Sound.ends (hhash : ∀ r, hash r < 2 ^ 64) (hslots : slots ≤ 2 ^ 32)
    {store : Option Store} (hstore : ∀ st ∈ store, Filed hash t slots st) (h : Sound t sn)
    (hpending : sn.scratch.pending = .running) (come : Nat → Nat → Option Nat)
    (left : Nat → UInt8) :
    ∃ landed r, runStep hash t store sn come landed left = some r ∧
      ((∀ i, Whole t.reader (come i)) → r.2.scratch.pending = .done) := by
  obtain ⟨hrows, hinc⟩ := h.unique_lt (h.started (by rw [hpending]; exact nofun))
  obtain ⟨f, store', hlength, hheld, hready, heq⟩ := task_found hhash (s := sn.scratch) hstore
  obtain ⟨landed, o, hends, hok⟩ :=
    readMissing_ends hhash hslots hrows hinc hlength hheld hready come left
  have hrun : ∃ r, runStep hash t store sn come landed left = some r ∧
      r.2.scratch.pending = if o.ok then .done else .failed := by
    unfold runStep
    rw [if_pos hpending, heq, hends]
    exact ⟨_, Eq.refl _, Eq.refl _⟩
  obtain ⟨r, hrun, hr⟩ := hrun
  refine ⟨landed, r, hrun, fun hwhole => ?_⟩
  rw [hr, if_pos (hok hwhole)]

/-- Rows a finish gives are those of the read begun. -/
theorem Sound.finish (h : Sound t sn) {rows : Rows} {s : Scratch}
    (hfinish : finish sn.scratch = some (some rows, s)) :
    ∃ ids, sn.asked = some ids ∧ RightRows t ids rows := by
  unfold WeightRows.finish at hfinish
  split at hfinish
  next => cases hfinish
  next hstarted =>
  have hstarted : sn.scratch.started = true := eq_true_of_ne_false hstarted
  obtain ⟨ids, hasked, hasks⟩ := h.asks hstarted
  have hread : sn.scratch.pending = .none ∨ sn.scratch.pending = .done := by
    split at hfinish
    next => cases hfinish
    next => cases hfinish
    next hp => exact .inl hp
    next hp => exact .inr hp
  have hrows : rows = sn.scratch.rows := by
    rcases hread with hp | hp <;> rw [hp] at hfinish <;> cases hfinish <;> exact Eq.refl _
  refine ⟨ids, hasked, ?_⟩
  have hmem : ∀ x ∈ ids, x ∈ sn.scratch.unique := by
    intro x hx
    obtain ⟨i, hi, rfl⟩ := List.mem_iff_getElem.mp hx
    have hat := hasks.remap i hi
    rw [List.getElem?_eq_getElem hi] at hat
    exact List.mem_of_getElem? hat
  rw [hrows]
  unfold Scratch.rows
  by_cases hnone : sn.scratch.requested = 0
  · rw [if_pos hnone]
    obtain rfl : ids = [] := List.eq_nil_of_length_eq_zero (hasks.requested.symm.trans hnone)
    refine ⟨List.Pairwise.nil, fun x => Iff.rfl, fun i hi => absurd hi (Nat.not_lt_zero i),
      Eq.refl _, fun i id hid => ?_⟩
    cases hid
  · rw [if_neg hnone]
    refine ⟨hasks.increasing, fun x => ⟨hasks.own x, hmem x⟩, hasks.remap, hasks.requested,
      fun i id hid => ?_⟩
    have hid : sn.scratch.unique[i]? = some id := hid
    have hget : sn.scratch.unique.getD i 0 = id := by
      rw [List.getD_eq_getElem?_getD, hid, Option.getD_some]
    have hin : id < t.rows := (h.unique_lt hstarted).1 id (List.mem_of_getElem? hid)
    apply rowOf_eq hin
    rcases hread with hp | hp
    · rw [h.empty hp hstarted] at hid
      cases hid
    · have hrow := h.rows hp i (List.getElem?_eq_some_iff.mp hid).1
      rw [hget] at hrow
      exact hrow

theorem Sound.finished (h : Sound t sn) {r : Option Rows × Scratch}
    (hfinish : WeightRows.finish sn.scratch = some r) : Sound t ⟨r.2, none⟩ := by
  unfold WeightRows.finish at hfinish
  split at hfinish
  next hstopped =>
    cases hfinish
    exact Sound.stopped hstopped (h.idle hstopped).2
  next =>
  split at hfinish
  next => cases hfinish
  next =>
    cases hfinish
    exact Sound.stopped (Eq.refl _) (Eq.refl _)
  next =>
    cases hfinish
    exact Sound.stopped (Eq.refl _) (Eq.refl _)
  next =>
    cases hfinish
    exact Sound.stopped (Eq.refl _) (Eq.refl _)

end Sessions

section Machines

variable {hash : Nat → Nat} {t : Table} {slots : Nat} {s s' : Lookups} {k : Nat} {sn : Session}

/-- The store is the table's, and every session's scratch sound. -/
def Lookups.Inv (hash : Nat → Nat) (t : Table) (slots : Nat) (s : Lookups) : Prop :=
  (∀ st ∈ s.store, Filed hash t slots st) ∧ ∀ sn ∈ s.sessions, Sound t sn

theorem sound_set {sessions : List Session} (h : ∀ sn ∈ sessions, Sound t sn) {sn' : Session}
    (hnew : Sound t sn') : ∀ sn ∈ sessions.set k sn', Sound t sn := by
  intro sn hsn
  rcases List.mem_or_eq_of_mem_set hsn with hsn | rfl
  · exact h sn hsn
  · exact hnew

theorem Lookups.Inv.step (hhash : ∀ r, hash r < 2 ^ 64) (hslots : slots ≤ 2 ^ 32)
    (h : s.Inv hash t slots) {m : LookupMove} (hs : s.step hash t m = some s') :
    s'.Inv hash t slots := by
  obtain ⟨hstore, hsessions⟩ := h
  cases m with
  | start k ids order launched =>
    obtain ⟨sn, hk, hs⟩ := Option.bind_eq_some_iff.mp hs
    obtain ⟨sn', hstart, hs⟩ := Option.bind_eq_some_iff.mp hs
    cases hs
    exact ⟨hstore, sound_set hsessions (Sound.start hstart)⟩
  | run k come landed left =>
    obtain ⟨sn, hk, hs⟩ := Option.bind_eq_some_iff.mp hs
    obtain ⟨r, hrun, hs⟩ := Option.bind_eq_some_iff.mp hs
    cases hs
    obtain ⟨hfiled, hsound⟩ :=
      (hsessions sn (List.mem_of_getElem? hk)).run hhash hslots hstore hrun
    exact ⟨hfiled, sound_set hsessions hsound⟩
  | finish k =>
    obtain ⟨sn, hk, hs⟩ := Option.bind_eq_some_iff.mp hs
    obtain ⟨r, hfinish, hs⟩ := Option.bind_eq_some_iff.mp hs
    cases hs
    exact ⟨hstore, sound_set hsessions ((hsessions sn (List.mem_of_getElem? hk)).finished hfinish)⟩

theorem min_rows_le (t : Table) (within : Nat) : min t.rows within ≤ 2 ^ 32 :=
  Nat.le_trans (Nat.min_le_left _ _) t.ids

theorem lookups_inv (hhash : ∀ r, hash r < 2 ^ 64) {within : Nat}
    (h : Reach (lookups hash t within) s) : s.Inv hash t (min t.rows within) := by
  have hslots := min_rows_le t within
  apply h.invariant
  · intro s hs
    obtain ⟨hstore, hsessions⟩ := hs
    refine ⟨fun st hst => ?_, fun sn hsn => ?_⟩
    · rw [hstore] at hst
      unfold hold at hst
      by_cases h0 : min t.rows within = 0
      · rw [if_pos h0] at hst
        exact absurd hst (Option.not_mem_none st)
      · rw [if_neg h0] at hst
        rw [← Option.mem_some.mp hst]
        exact Listed.new hash _ (Nat.pos_of_ne_zero h0) hslots t.rowBytes
    · obtain ⟨⟨hstarted, hpending⟩, hasked⟩ := hsessions sn hsn
      obtain ⟨scratch, asked⟩ := sn
      obtain rfl : asked = none := hasked
      exact Sound.stopped hstarted hpending
  · intro s m s' hs hstep
    exact Lookups.Inv.step hhash hslots hs hstep

theorem exists_sorts (ids : List Nat) : ∃ order, Sorts ids order := by
  refine ⟨(List.range ids.length).mergeSort fun a b => decide (ids.getD a 0 ≤ ids.getD b 0),
    List.mergeSort_perm _ _, ?_⟩
  refine (List.pairwise_mergeSort (fun a b c hab hbc => ?_) (fun a b => ?_) _).imp of_decide_eq_true
  · have hab := of_decide_eq_true hab
    have hbc := of_decide_eq_true hbc
    exact decide_eq_true (Nat.le_trans hab hbc)
  · rw [Bool.or_eq_true, decide_eq_true_iff, decide_eq_true_iff]
    exact Nat.le_total _ _

/-- What a session's moves do from where it stands: `rows` are those a finish gives. -/
structure Serves (t : Table) (s : Lookups) (k : Nat) (sn : Session) : Prop where
  finished : ∀ rows sc, finish sn.scratch = some (some rows, sc) →
    ∃ ids, sn.asked = some ids ∧ RightRows t ids rows
  given : sn.asked ≠ none → sn.scratch.pending = .none ∨ sn.scratch.pending = .done →
    ∃ rows sc, finish sn.scratch = some (some rows, sc)
  failed : sn.scratch.pending = .failed →
    ∃ sc, finish sn.scratch = some (none, sc) ∧ sc.started = false
  ends : sn.scratch.pending = .running → ∀ come left, ∃ landed s' sn',
    s.step Store.product t (.run k come landed left) = some s' ∧ s'.sessions[k]? = some sn' ∧
      sn'.asked = sn.asked ∧ ((∀ i, Whole t.reader (come i)) → sn'.scratch.pending = .done)
  starts : sn.scratch.pending ≠ .running → sn.scratch.type = t.type →
    sn.scratch.columns = t.columns → sn.scratch.rowBytes = t.rowBytes →
      ∀ ids, ids.length ≤ sn.scratch.maxRows → (∀ x ∈ ids, x < t.rows) → ∃ order s' sn',
        s.step Store.product t (.start k ids order true) = some s' ∧
          s'.sessions[k]? = some sn' ∧ sn'.asked = some ids ∧
            sn'.scratch.pending = if ids = [] then .none else .running

theorem serves_starts (hk : s.sessions[k]? = some sn) (hpending : sn.scratch.pending ≠ .running)
    (htype : sn.scratch.type = t.type) (hcolumns : sn.scratch.columns = t.columns)
    (hrow : sn.scratch.rowBytes = t.rowBytes) {ids : List Nat}
    (hroom : ids.length ≤ sn.scratch.maxRows) (hin : ∀ x ∈ ids, x < t.rows) :
    ∃ order s' sn', s.step hash t (.start k ids order true) = some s' ∧
      s'.sessions[k]? = some sn' ∧ sn'.asked = some ids ∧
        sn'.scratch.pending = if ids = [] then .none else .running := by
  obtain ⟨order, hsorts⟩ := exists_sorts ids
  have hchecks : ¬ (sn.scratch.type ≠ t.type ∨ sn.scratch.columns ≠ t.columns ∨
      sn.scratch.rowBytes ≠ t.rowBytes ∨ sn.scratch.maxRows < ids.length ∨
        ids.any (t.rows ≤ ·) = true) := by
    rintro (h | h | h | h | h)
    · exact h htype
    · exact h hcolumns
    · exact h hrow
    · omega
    · obtain ⟨x, hx, hge⟩ := List.any_eq_true.mp h
      have hlt := hin x hx
      have hge := of_decide_eq_true hge
      omega
  have hstart : ∃ sc, start t ids order true sn.scratch = some (true, sc) ∧
      sc.pending = if ids = [] then .none else .running := by
    unfold start
    rw [if_neg hpending, if_neg hchecks]
    by_cases hnil : ids = []
    · rw [if_pos hnil, if_pos hnil]
      exact ⟨_, Eq.refl _, Eq.refl _⟩
    · rw [if_neg hnil, if_neg hnil, if_neg (not_not.mpr hsorts)]
      exact ⟨_, Eq.refl _, Eq.refl _⟩
  obtain ⟨sc, hstart, hsc⟩ := hstart
  have hlt := (List.getElem?_eq_some_iff.mp hk).1
  refine ⟨order, { s with sessions := s.sessions.set k ⟨sc, some ids⟩ }, ⟨sc, some ids⟩, ?_,
    List.getElem?_set_self hlt, Eq.refl _, hsc⟩
  show (s.sessions[k]? >>= fun sn => startStep t ids order true sn >>= fun sn => _) = _
  rw [hk]
  show (startStep t ids order true sn >>= fun sn => _) = _
  unfold startStep
  rw [hstart]
  exact Eq.refl _

/-- Rows looked up are the file's: in whatever state reads have left a table's store, a row it
finds is the file's, the rows a session's finish gives are the file's rows of the ids of the read
begun, a failed read gives none, and a read begun can end. -/
theorem lookup_rows {within : Nat} (h : Reach (lookups Store.product t within) s) :
    (∀ st ∈ s.store, ∀ id, st.find Store.product id = some none ∨
      ∃ slot, st.find Store.product id = some (some slot) ∧ id < t.rows ∧
        st.row slot = t.fileRow id) ∧
      ∀ k sn, s.sessions[k]? = some sn → Serves t s k sn := by
  have hhash : ∀ r, product r < 2 ^ 64 := fun r => Nat.mod_lt _ (Nat.two_pow_pos 64)
  obtain ⟨hstore, hsessions⟩ := lookups_inv hhash h
  refine ⟨fun st hst id => ?_, fun k sn hk => ?_⟩
  · rcases (hstore st hst).find hhash id with ⟨slot, hfound⟩ | hnone
    · exact .inr ⟨slot, hfound⟩
    · exact .inl hnone
  have hsound := hsessions sn (List.mem_of_getElem? hk)
  refine ⟨fun rows sc hfinish => hsound.finish hfinish, fun hasked hp => ?_, fun hp => ?_,
    fun hp come left => ?_, fun hp htype hcolumns hrow ids hroom hin => ?_⟩
  · unfold finish
    rw [if_neg fun hstopped => hasked (hsound.idle hstopped).1]
    rcases hp with hp | hp <;> rw [hp] <;> exact ⟨_, _, Eq.refl _⟩
  · unfold finish
    rw [hsound.started (by rw [hp]; exact nofun), if_neg Bool.true_eq_false_eq_False, hp]
    exact ⟨_, Eq.refl _, Eq.refl _⟩
  · obtain ⟨landed, r, hrun, hwhole⟩ := hsound.ends hhash (min_rows_le t within) hstore hp come left
    have hlt := (List.getElem?_eq_some_iff.mp hk).1
    refine ⟨landed, ⟨r.1, s.sessions.set k r.2⟩, r.2, ?_, List.getElem?_set_self hlt, ?_, hwhole⟩
    · show (s.sessions[k]? >>= fun sn =>
        runStep product t s.store sn come landed left >>= fun r => _) = _
      rw [hk]
      show (runStep product t s.store sn come landed left >>= fun r => _) = _
      rw [hrun]
      exact Eq.refl _
    · unfold runStep at hrun
      rw [if_pos hp] at hrun
      obtain ⟨o, -, rfl⟩ := Option.map_eq_some_iff.mp hrun
      exact Eq.refl _
  · exact serves_starts hk hp htype hcolumns hrow hroom hin

/-- Three rows of two bytes, read without alignment. -/
def threeRows : Table where
  type := 0
  columns := 2
  rows := 3
  rowBytes := 2
  offset := 1
  reader := ⟨[0, 1, 2, 3, 4, 5, 6, 7], false, 4, by decide⟩
  ids := by decide
  extent := by decide

def threeScratch : Scratch where
  type := 0
  columns := 2
  rowBytes := 2
  maxRows := 3
  raw := fun _ => 0
  remap := fun _ => 0
  unique := []
  requested := 0
  started := false
  pending := .none

theorem lookup_rows_repeats :
    ∃ s sn rows sc, Reach (lookups product threeRows 2) s ∧ s.sessions[0]? = some sn ∧
      finish sn.scratch = some (some rows, sc) ∧ RightRows threeRows [2, 0, 2] rows := by
  have hreach : Reach (lookups product threeRows 2)
      ⟨some (Store.new 2 2), [⟨threeScratch, none⟩]⟩ := by
    refine Reach.start ⟨Eq.refl _, fun sn hsn => ?_⟩
    rw [List.mem_singleton.mp hsn]
    exact ⟨⟨Eq.refl _, Eq.refl _⟩, Eq.refl _⟩
  obtain ⟨order, s₁, sn₁, hstep, hk, hasked, hpending⟩ :=
    ((lookup_rows hreach).2 0 _ (Eq.refl _)).starts nofun (Eq.refl _) (Eq.refl _) (Eq.refl _)
      [2, 0, 2] (by decide) (by decide)
  have hreach₁ : Reach (lookups product threeRows 2) s₁ :=
    Reach.next (e := .start 0 [2, 0, 2] order true) hreach hstep
  obtain ⟨landed, s₂, sn₂, hrun, hk₂, hsame, hdone⟩ :=
    ((lookup_rows hreach₁).2 0 sn₁ hk).ends hpending (fun _ _ => some 8) fun _ => 0
  have hdone := hdone fun _ _ => ⟨8, Eq.refl _, by decide⟩
  have hreach₂ : Reach (lookups product threeRows 2) s₂ :=
    Reach.next (e := .run 0 (fun _ _ => some 8) landed fun _ => 0) hreach₁ hrun
  have hserves := (lookup_rows hreach₂).2 0 sn₂ hk₂
  rw [hasked] at hsame
  obtain ⟨rows, sc, hfinish⟩ := hserves.given (by rw [hsame]; exact nofun) (.inr hdone)
  obtain ⟨ids, hids, hright⟩ := hserves.finished rows sc hfinish
  rw [hsame] at hids
  cases hids
  exact ⟨s₂, sn₂, rows, sc, hreach₂, hk₂, hfinish, hright⟩

end Machines

end WeightRows

end Llmx
