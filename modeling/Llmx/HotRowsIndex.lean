import Llmx.OpenIndex
import Llmx.ReplySplit
import Llmx.Runs
import Mathlib.Algebra.Order.Ring.Int
import Mathlib.Data.Finset.Card
import Mathlib.Data.Finset.Range

namespace Llmx

open Runs

namespace WeightRows

def kEmpty : Nat := 2 ^ 64 - 1

def kCommitSlots : Nat := 2 ^ 14

/-- `n` doubled up to `want`; 64 rounds are enough for a machine word. -/
def doubled (want : Nat) : Nat → Nat → Nat
  | 0, n => n
  | rounds + 1, n => if n < want then doubled want rounds (n <<< 1) else n

def indexSize (slots : Nat) : Nat := doubled (slots + (slots / 3 + 1)) 64 1

def log2From (n : Nat) : Nat → Nat → Nat
  | 0, b => b
  | rounds + 1, b => if 1 <<< b < n then log2From n rounds (b + 1) else b

def log2 (n : Nat) : Nat := log2From n 64 0

/-- Memory is by place: the arena's bytes, and the slots' row ids and reference bytes. -/
structure Store where
  slots : Nat
  rowBytes : Nat
  used : Nat
  committed : Nat
  hand : Nat
  arena : Nat → UInt8
  ids : Nat → Nat
  refs : Nat → Nat
  index : List Nat
  shift : Nat

/-- A store over reserved pages, which read as zeros. -/
def Store.new (slots rowBytes : Nat) : Store where
  slots := slots
  rowBytes := rowBytes
  used := 0
  committed := 0
  hand := 0
  arena := fun _ => 0
  ids := fun _ => 0
  refs := fun _ => 0
  index := List.replicate (indexSize slots) kEmpty
  shift := 64 - log2 (indexSize slots)

namespace Store

/-- The product of a row with the multiplier, as a machine word. -/
def product (row : Nat) : Nat := row * 0x9E3779B97F4A7C15 % 2 ^ 64

variable (hash : Nat → Nat)

def home (shift row : Nat) : Nat := if 64 ≤ shift then 0 else hash row >>> shift

/-- The row an index entry is for. -/
def entryRow (e : Nat) : Nat := e % 2 ^ 32

def next (index : List Nat) (i : Nat) : Nat := (i + 1) &&& (index.length - 1)

/-- The steps from `a` to `b` under the mask, as machine words subtract. -/
def masked (index : List Nat) (b a : Nat) : Nat :=
  (b + 2 ^ 64 - a) % 2 ^ 64 &&& (index.length - 1)

def findFrom (index : List Nat) (row : Nat) : Nat → Nat → Option (Option Nat)
  | 0, _ => none
  | rounds + 1, i =>
    if index.getD i kEmpty = kEmpty then some none
    else if entryRow (index.getD i kEmpty) = row then some (some (index.getD i kEmpty >>> 32))
    else findFrom index row rounds (next index i)

/-- The slot holding `row`, if any; `none` where the walk does not end. -/
def find (s : Store) (row : Nat) : Option (Option Nat) :=
  findFrom s.index row s.index.length (home hash s.shift row)

def row (s : Store) (slot : Nat) : Bytes :=
  (List.range s.rowBytes).map fun k => s.arena (slot * s.rowBytes + k)

def touch (s : Store) (slot : Nat) : Store := { s with refs := Function.update s.refs slot 1 }

def gapFrom (index : List Nat) (row : Nat) : Nat → Nat → Option Nat
  | 0, _ => none
  | rounds + 1, gap =>
    if entryRow (index.getD gap kEmpty) = row then some gap
    else gapFrom index row rounds (next index gap)

def closeGap (shift : Nat) : Nat → List Nat → Nat → Nat → Option (List Nat)
  | 0, _, _, _ => none
  | rounds + 1, index, gap, j =>
    if index.getD j kEmpty = kEmpty then some (index.set gap kEmpty)
    else if masked index j gap ≤
        masked index j (home hash shift (entryRow (index.getD j kEmpty))) then
      closeGap shift rounds (index.set gap (index.getD j kEmpty)) j (next index j)
    else closeGap shift rounds index gap (next index j)

def erase (s : Store) (row : Nat) : Option Store :=
  (gapFrom s.index row s.index.length (home hash s.shift row)).bind fun gap =>
    (closeGap hash s.shift s.index.length s.index gap (next s.index gap)).map fun index =>
      { s with index := index }

/-- CLOCK's hand moved to the first slot not referenced since it last came by. -/
def sweep : Nat → Store → Option Store
  | 0, _ => none
  | rounds + 1, s =>
    if s.refs s.hand ≠ 0 then
      sweep rounds
        { s with refs := Function.update s.refs s.hand 0, hand := (s.hand + 1) % s.slots }
    else some s

def grow (s : Store) : Store :=
  { s with
    used := s.used + 1
    committed :=
      if s.committed < s.used + 1 then
        min s.slots (max (s.used + 1) (s.committed + kCommitSlots))
      else s.committed }

/-- A slot for a row: one not used yet, or one given up, its row out of the index. -/
def takeSlot (s : Store) : Option (Nat × Store) :=
  if s.used < s.slots then some (s.used, s.grow)
  else
    (sweep (s.slots + 1) s).bind fun t =>
      (erase hash { t with hand := (t.hand + 1) % t.slots } (t.ids t.hand)).map fun u =>
        (t.hand, u)

def placeFrom (index : List Nat) : Nat → Nat → Option Nat
  | 0, _ => none
  | rounds + 1, i =>
    if index.getD i kEmpty ≠ kEmpty then placeFrom index rounds (next index i) else some i

def word (slot row : Nat) : Nat := (slot <<< 32) % 2 ^ 64 ||| row

/-- The row's bytes, its id and its mark, in the slot. -/
def fill (s : Store) (slot row : Nat) (bytes : Bytes) : Store :=
  { s with
    arena := fun a =>
      if slot * s.rowBytes ≤ a ∧ a < slot * s.rowBytes + s.rowBytes then
        bytes.getD (a - slot * s.rowBytes) 0
      else s.arena a
    ids := Function.update s.ids slot row
    refs := Function.update s.refs slot 1 }

def enter (s : Store) (slot row : Nat) : Option Store :=
  (placeFrom s.index s.index.length (home hash s.shift row)).map fun i =>
    { s with index := s.index.set i (word slot row) }

def put (s : Store) (row : Nat) (bytes : Bytes) : Option Store :=
  (s.takeSlot hash).bind fun (slot, t) => (t.fill slot row bytes).enter hash slot row

/-- The row put gives up: that of the slot it takes, where every slot is used. -/
def givenUp (s : Store) : Option Nat :=
  if s.used < s.slots then none else (sweep (s.slots + 1) s).map fun t => t.ids t.hand

end Store

/-- A row put: its bytes, and the row given up for it. -/
structure Put where
  row : Nat
  bytes : Bytes
  gaveUp : Option Nat
deriving DecidableEq, Repr

/-- A store with what was put in it, the latest last. -/
structure HotRows where
  store : Store
  puts : List Put

inductive HotMove
  | find (row : Nat)
  | touch (slot : Nat)
  | put (row : Nat) (bytes : Bytes)

def HotRows.step (hash : Nat → Nat) (s : HotRows) : HotMove → Option HotRows
  | .find _ => some s
  | .touch slot => if slot < s.store.used then some { s with store := s.store.touch slot } else none
  | .put row bytes =>
    if row < 2 ^ 32 ∧ bytes.length = s.store.rowBytes ∧ s.store.find hash row = some none then
      (s.store.put hash row bytes).map fun t =>
        ⟨t, s.puts ++ [⟨row, bytes, s.store.givenUp⟩]⟩
    else none

/-- A store of rows used as its callers use it: a slot found is touched, a row not found is put. -/
def hotRows (hash : Nat → Nat) (slots rowBytes : Nat) : Machine HotRows HotMove where
  start s := s = ⟨Store.new slots rowBytes, []⟩
  step := HotRows.step hash

/-- What was put as `row` last and not given up since. -/
def kept : List Put → Nat → Option Bytes
  | [], _ => none
  | p :: puts, row =>
    match kept puts row with
    | some bytes => some bytes
    | none =>
      if puts.any fun q => q.gaveUp == some row then none
      else if p.row = row then some p.bytes else none

end WeightRows

namespace WeightRows

open OpenIndex

namespace Store

/-- What the index holds at each place. -/
def cells (index : List Nat) : Nat → Nat := fun p => index.getD p kEmpty

/-- An index of `2 ^ k` places, with the shift that takes a product to one of them. -/
structure Sized (index : List Nat) (shift k : Nat) : Prop where
  length_eq : index.length = 2 ^ k
  shift_eq : shift = 64 - k
  pos : 1 ≤ k
  le : k ≤ 63

variable {hash : Nat → Nat} {index : List Nat} {shift k : Nat}

theorem Sized.length_pos (h : Sized index shift k) : 0 < index.length := by
  rw [h.length_eq]
  exact Nat.two_pow_pos k

theorem Sized.length_le (h : Sized index shift k) : index.length ≤ 2 ^ 63 := by
  rw [h.length_eq]
  exact Nat.pow_le_pow_right (by decide) h.le

theorem Sized.set (h : Sized index shift k) (p e : Nat) : Sized (index.set p e) shift k :=
  ⟨by rw [List.length_set, h.length_eq], h.shift_eq, h.pos, h.le⟩

theorem Sized.home_lt (h : Sized index shift k) (hhash : ∀ r, hash r < 2 ^ 64) (row : Nat) :
    home hash shift row < index.length := by
  have hle := h.le
  have hpos := h.pos
  have hs := h.shift_eq
  unfold home
  rw [if_neg (by omega), h.length_eq, Nat.shiftRight_eq_div_pow,
    Nat.div_lt_iff_lt_mul (Nat.two_pow_pos _), ← Nat.pow_add, show k + shift = 64 by omega]
  exact hhash row

theorem Sized.next_eq (h : Sized index shift k) {i : Nat} (hi : i < index.length) :
    next index i = after index.length i 1 := by
  have hpos := h.length_pos
  unfold next after
  rw [h.length_eq] at hi ⊢
  rw [Nat.and_two_pow_sub_one_eq_mod]
  split
  next hlt => exact Nat.mod_eq_of_lt hlt
  next hge =>
    have heq : i + 1 = 2 ^ k := by omega
    rw [heq, Nat.mod_self, Nat.sub_self]

theorem Sized.masked_eq (h : Sized index shift k) {a b : Nat} (ha : a < index.length)
    (hb : b < index.length) : masked index b a = ahead index.length a b := by
  have hlen := h.length_le
  have hdvd : 2 ^ k ∣ 2 ^ 64 := Nat.pow_dvd_pow 2 (Nat.le_succ_of_le h.le)
  obtain ⟨c, hc⟩ := hdvd
  have hcpos : 1 ≤ c := by
    apply Nat.pos_of_ne_zero
    intro h0
    rw [h0] at hc
    omega
  unfold masked ahead
  rw [h.length_eq] at ha hb hlen ⊢
  rw [Nat.and_two_pow_sub_one_eq_mod, hc, Nat.mod_mul_right_mod]
  have hmul : 2 ^ k * c = 2 ^ k * (c - 1) + 2 ^ k := by
    rw [← Nat.mul_succ]
    congr 1
    omega
  split
  next hle =>
    rw [show b + 2 ^ k * c - a = b - a + 2 ^ k * c by omega, Nat.add_mul_mod_self_left]
    exact Nat.mod_eq_of_lt (by omega)
  next hlt =>
    rw [hmul, show b + (2 ^ k * (c - 1) + 2 ^ k) - a = b + 2 ^ k - a + 2 ^ k * (c - 1) by omega,
      Nat.add_mul_mod_self_left]
    exact Nat.mod_eq_of_lt (by omega)

theorem cells_set {p : Nat} (hp : p < index.length) (e : Nat) :
    cells (index.set p e) = Function.update (cells index) p e := by
  funext q
  unfold cells
  rw [List.getD_eq_getElem?_getD, List.getElem?_set]
  by_cases hq : p = q
  · subst hq
    rw [if_pos rfl, if_pos hp, Function.update_self]
    rfl
  · rw [if_neg hq, Function.update_of_ne (Ne.symm hq), List.getD_eq_getElem?_getD]

theorem Sized.one_lt (h : Sized index shift k) : 1 < index.length := by
  have hpow : 2 ^ 1 ≤ 2 ^ k := Nat.pow_le_pow_right (by decide) h.pos
  rw [h.length_eq]
  omega

theorem findFrom_eq (h : Sized index shift k) {row i : Nat} (rounds : Nat) (hi : i < index.length) :
    findFrom index row rounds i = (probe (fun p => cells index p = kEmpty ∨
      entryRow (cells index p) = row) index.length rounds i).map fun p =>
        if cells index p = kEmpty then none else some (cells index p >>> 32) := by
  induction rounds generalizing i with
  | zero => rfl
  | succ rounds ih =>
    rw [findFrom, probe, show index.getD i kEmpty = cells index i from rfl]
    by_cases hempty : cells index i = kEmpty
    · rw [if_pos hempty, if_pos (decide_eq_true (Or.inl hempty)), Option.map_some, if_pos hempty]
    · by_cases hrow : entryRow (cells index i) = row
      · rw [if_neg hempty, if_pos hrow, if_pos (decide_eq_true (Or.inr hrow)), Option.map_some,
          if_neg hempty]
      · have hnot : ¬ (decide (cells index i = kEmpty ∨ entryRow (cells index i) = row)) = true := by
          intro hc
          exact (of_decide_eq_true hc).elim hempty hrow
        rw [if_neg hempty, if_neg hrow, if_neg hnot, h.next_eq hi]
        exact ih (after_lt hi h.one_lt)

theorem placeFrom_eq (h : Sized index shift k) {i : Nat} (rounds : Nat) (hi : i < index.length) :
    placeFrom index rounds i =
      probe (fun p => cells index p = kEmpty) index.length rounds i := by
  induction rounds generalizing i with
  | zero => rfl
  | succ rounds ih =>
    rw [placeFrom, probe, show index.getD i kEmpty = cells index i from rfl]
    by_cases hempty : cells index i = kEmpty
    · rw [if_neg (fun hne => hne hempty), if_pos (decide_eq_true hempty)]
    · rw [if_pos hempty, if_neg (fun hc => hempty (of_decide_eq_true hc)), h.next_eq hi]
      exact ih (after_lt hi h.one_lt)

theorem gapFrom_eq (h : Sized index shift k) {row i : Nat} (rounds : Nat) (hi : i < index.length) :
    gapFrom index row rounds i =
      probe (fun p => entryRow (cells index p) = row) index.length rounds i := by
  induction rounds generalizing i with
  | zero => rfl
  | succ rounds ih =>
    rw [gapFrom, probe, show index.getD i kEmpty = cells index i from rfl]
    by_cases hrow : entryRow (cells index i) = row
    · rw [if_pos hrow, if_pos (decide_eq_true hrow)]
    · rw [if_neg hrow, if_neg (fun hc => hrow (of_decide_eq_true hc)), h.next_eq hi]
      exact ih (after_lt hi h.one_lt)

/-- Entries moved back in the list as they are in the table of its cells. -/
theorem closeGap_eq (hhash : ∀ r, hash r < 2 ^ 64) (rounds : Nat) {index : List Nat}
    (h : Sized index shift k) {gap j : Nat} (hgap : gap < index.length) (hj : j < index.length)
    {t : Nat → Nat}
    (ht : OpenIndex.shift kEmpty entryRow (home hash shift) index.length rounds (cells index) gap j
      = some t) :
    ∃ index', closeGap hash shift rounds index gap j = some index' ∧ cells index' = t ∧
      Sized index' shift k := by
  induction rounds generalizing index gap j with
  | zero => exact absurd ht (by simp [OpenIndex.shift])
  | succ rounds ih =>
    rw [OpenIndex.shift] at ht
    rw [closeGap, show index.getD j kEmpty = cells index j from rfl]
    by_cases hempty : cells index j = kEmpty
    · rw [if_pos hempty] at ht ⊢
      exact ⟨_, rfl, by rw [cells_set hgap]; exact Option.some.inj ht, h.set _ _⟩
    · have hnext := after_lt hj h.one_lt
      have hhome := h.home_lt hhash (entryRow (cells index j))
      rw [if_neg hempty] at ht ⊢
      rw [h.masked_eq hgap hj, h.masked_eq hhome hj, h.next_eq hj]
      by_cases hmove : ahead index.length gap j ≤
          ahead index.length (home hash shift (entryRow (cells index j))) j
      · rw [if_pos hmove] at ht ⊢
        have hlen : (index.set gap (cells index j)).length = index.length := List.length_set
        rw [← hlen]
        refine ih (h.set gap (cells index j)) (by rw [hlen]; exact hj) (by rw [hlen]; exact hnext) ?_
        rw [hlen, cells_set hgap]
        exact ht
      · rw [if_neg hmove] at ht ⊢
        exact ih h hgap hnext ht

theorem entryRow_word {slot row : Nat} (hslot : slot < 2 ^ 32) (hrow : row < 2 ^ 32) :
    entryRow (word slot row) = row ∧ word slot row >>> 32 = slot ∧
      (slot + 1 < 2 ^ 32 → word slot row ≠ kEmpty) := by
  have hsmall : slot <<< 32 < 2 ^ 64 := by
    rw [Nat.shiftLeft_eq]
    omega
  have hword : word slot row = slot * 2 ^ 32 + row := by
    unfold word
    rw [Nat.mod_eq_of_lt hsmall, ← Nat.shiftLeft_add_eq_or_of_lt hrow, Nat.shiftLeft_eq]
  unfold entryRow kEmpty
  rw [hword, Nat.shiftRight_eq_div_pow]
  exact ⟨by omega, by omega, fun h => by omega⟩

/-- Fewer entries than places but one leave two places empty. -/
theorem two_empty {m u : Nat} {t : Nat → Nat} (slot : Nat → Nat)
    (hslot : ∀ p < m, t p ≠ kEmpty → slot p < u)
    (hinj : ∀ p < m, ∀ q < m, t p ≠ kEmpty → t q ≠ kEmpty → slot p = slot q → p = q)
    (hu : u + 2 ≤ m) : ∃ p q, p < m ∧ q < m ∧ p ≠ q ∧ t p = kEmpty ∧ t q = kEmpty := by
  have hcard : ((Finset.range m).filter fun p => t p ≠ kEmpty).card ≤ u := by
    rw [← Finset.card_range u]
    refine Finset.card_le_card_of_injOn slot (fun p hp => ?_) fun p hp q hq heq => ?_
    · obtain ⟨hp, hne⟩ := Finset.mem_filter.mp hp
      exact Finset.mem_coe.mpr (Finset.mem_range.mpr (hslot p (Finset.mem_range.mp hp) hne))
    · obtain ⟨hp, hnp⟩ := Finset.mem_filter.mp hp
      obtain ⟨hq, hnq⟩ := Finset.mem_filter.mp hq
      exact hinj p (Finset.mem_range.mp hp) q (Finset.mem_range.mp hq) hnp hnq heq
  have hsum := Finset.card_filter_add_card_filter_not (s := Finset.range m) fun p => t p ≠ kEmpty
  rw [Finset.card_range] at hsum
  have htwo : 1 < ((Finset.range m).filter fun p => ¬ t p ≠ kEmpty).card := by omega
  obtain ⟨p, hp, q, hq, hne⟩ := Finset.one_lt_card.mp htwo
  obtain ⟨hp, hep⟩ := Finset.mem_filter.mp hp
  obtain ⟨hq, heq⟩ := Finset.mem_filter.mp hq
  exact ⟨p, q, Finset.mem_range.mp hp, Finset.mem_range.mp hq, hne, not_not.mp hep, not_not.mp heq⟩

/-- Entries of slots of `used` but one leave two places empty. -/
theorem two_empty_but {m used slot : Nat} {t : Nat → Nat} (hslot : slot < used) (hused : used < m)
    (hat : ∀ p < m, t p ≠ kEmpty → t p >>> 32 < used ∧ t p >>> 32 ≠ slot)
    (hinj : ∀ p < m, ∀ q < m, t p ≠ kEmpty → t q ≠ kEmpty → t p >>> 32 = t q >>> 32 → p = q) :
    ∃ p q, p < m ∧ q < m ∧ p ≠ q ∧ t p = kEmpty ∧ t q = kEmpty := by
  refine two_empty (u := used - 1)
    (fun p => if t p >>> 32 < slot then t p >>> 32 else t p >>> 32 - 1) (fun p hp hne => ?_)
    (fun p hp q hq hne hne' heq => hinj p hp q hq hne hne' ?_) (by omega)
  · have hp := hat p hp hne
    show (if t p >>> 32 < slot then _ else _) < used - 1
    split_ifs <;> omega
  · have hp := hat p hp hne
    have hq := hat q hq hne'
    have heq : (if t p >>> 32 < slot then _ else _) = if t q >>> 32 < slot then _ else _ := heq
    split_ifs at heq <;> omega

theorem doubled_spec (want : Nat) (rounds j : Nat) (h : want ≤ 2 ^ (j + rounds)) :
    ∃ k, j ≤ k ∧ k ≤ j + rounds ∧ doubled want rounds (2 ^ j) = 2 ^ k ∧ want ≤ 2 ^ k ∧
      (2 ^ j < want → j < k) ∧ ∀ i, j ≤ i → want ≤ 2 ^ i → k ≤ i := by
  induction rounds generalizing j with
  | zero => exact ⟨j, by omega, by omega, rfl, h, fun hlt => by
      have h : want ≤ 2 ^ j := h
      omega, fun i hi _ => hi⟩
  | succ rounds ih =>
    rw [doubled]
    split
    next hlt =>
      have hexp : want ≤ 2 ^ (j + 1 + rounds) := by
        rw [show j + 1 + rounds = j + (rounds + 1) by omega]
        exact h
      obtain ⟨k, h1, h2, h3, h4, _, h6⟩ := ih (j + 1) hexp
      refine ⟨k, by omega, by omega, ?_, h4, fun _ => by omega, fun i hi hwant => ?_⟩
      · rw [← h3, Nat.shiftLeft_eq, Nat.pow_one, ← Nat.pow_succ]
      · apply h6 i ?_ hwant
        apply Nat.lt_of_le_of_ne hi
        intro heq
        rw [← heq] at hwant
        omega
    next hge => exact ⟨j, by omega, by omega, rfl, by omega, fun hlt => by omega, fun i hi _ => hi⟩

theorem log2From_pow (k rounds b : Nat) (hb : b ≤ k) (hr : k ≤ b + rounds) :
    log2From (2 ^ k) rounds b = k := by
  induction rounds generalizing b with
  | zero =>
    rw [log2From]
    omega
  | succ rounds ih =>
    rw [log2From, Nat.one_shiftLeft]
    by_cases hlt : b < k
    · rw [if_pos (Nat.pow_lt_pow_right (by decide) hlt)]
      exact ih (b + 1) hlt (by omega)
    · have heq : b = k := by omega
      rw [heq, if_neg (Nat.lt_irrefl _)]

/-- The index of a new store: more places than slots, a power of two of them. -/
theorem new_sized {slots : Nat} (h0 : 0 < slots) (hslots : slots ≤ 2 ^ 32) (rowBytes : Nat) :
    ∃ k, Sized (Store.new slots rowBytes).index (Store.new slots rowBytes).shift k ∧
      slots < 2 ^ k := by
  have hmost : slots + (slots / 3 + 1) ≤ 2 ^ 33 := by omega
  obtain ⟨k, -, -, hk, hwant, hpos, hleast⟩ := doubled_spec (slots + (slots / 3 + 1)) 64 0
    (Nat.le_trans hmost (Nat.pow_le_pow_right (by decide) (by decide)))
  have hle := hleast 33 (by decide) hmost
  have hsize : indexSize slots = 2 ^ k := hk
  have hlog : log2 (indexSize slots) = k := by
    rw [hsize]
    exact log2From_pow k 64 0 (Nat.zero_le _) (by omega)
  have h1 := hpos (by rw [Nat.pow_zero]; omega)
  refine ⟨k, ⟨?_, ?_, h1, by omega⟩, by omega⟩
  · show (List.replicate (indexSize slots) kEmpty).length = 2 ^ k
    rw [List.length_replicate, hsize]
  · show 64 - log2 (indexSize slots) = 64 - k
    rw [hlog]

end Store

end WeightRows

end Llmx
