import Llmx.HotRowsIndex

namespace Llmx

open Runs

namespace WeightRows

open OpenIndex

namespace Store

variable {hash : Nat → Nat} {s t u : Store} {k slot : Nat} {live : Nat → Prop}

/-- The index holds one entry for each live slot and no other, each on the way from its home. -/
structure Indexed (hash : Nat → Nat) (s : Store) (k : Nat) (live : Nat → Prop) : Prop where
  sized : Sized s.index s.shift k
  chained : Chained kEmpty entryRow (home hash s.shift) s.index.length (cells s.index)
  entries : ∀ w, w ≠ kEmpty →
    ((∃ p < s.index.length, cells s.index p = w) ↔ ∃ q, live q ∧ w = word q (s.ids q))
  small : ∀ q, live q → q + 1 < 2 ^ 32 ∧ s.ids q < 2 ^ 32

theorem Indexed.word_eq (h : Indexed hash s k live) {q : Nat} (hq : live q) :
    entryRow (word q (s.ids q)) = s.ids q ∧ word q (s.ids q) >>> 32 = q ∧
      word q (s.ids q) ≠ kEmpty := by
  obtain ⟨hsmall, hid⟩ := h.small q hq
  obtain ⟨h1, h2, h3⟩ := entryRow_word (by omega : q < 2 ^ 32) hid
  exact ⟨h1, h2, h3 hsmall⟩

theorem Indexed.congr (h : Indexed hash s k live) (hindex : t.index = s.index)
    (hshift : t.shift = s.shift) (hids : ∀ q, live q → t.ids q = s.ids q) :
    Indexed hash t k live := by
  refine ⟨by rw [hindex, hshift]; exact h.sized, by rw [hindex, hshift]; exact h.chained, ?_, ?_⟩
  · intro w hw
    rw [hindex, h.entries w hw]
    constructor
    · rintro ⟨q, hq, heq⟩
      exact ⟨q, hq, by rw [hids q hq]; exact heq⟩
    · rintro ⟨q, hq, heq⟩
      exact ⟨q, hq, by rw [← hids q hq]; exact heq⟩
  · intro q hq
    rw [hids q hq]
    exact h.small q hq

theorem Indexed.live_congr {live' : Nat → Prop} (h : Indexed hash s k live)
    (heq : ∀ q, live q ↔ live' q) : Indexed hash s k live' := by
  have hsame : live = live' := funext fun q => propext (heq q)
  rw [← hsame]
  exact h

/-- find ends, with the slot of the row if a live slot has it. -/
theorem Indexed.find_spec (h : Indexed hash s k live) (hhash : ∀ r, hash r < 2 ^ 64) (row : Nat) :
    (∃ q, live q ∧ s.ids q = row ∧ s.find hash row = some (some q)) ∨
      (∀ q, live q → s.ids q ≠ row) ∧ s.find hash row = some none := by
  have hhome := fun r => h.sized.home_lt hhash r
  obtain ⟨p, hp, hprobe, hcase⟩ := h.chained.find hhome row
  unfold find
  rw [findFrom_eq h.sized _ (hhome row), hprobe, Option.map_some]
  rcases hcase with ⟨hempty, hnone⟩ | ⟨hfull, hkey⟩
  · refine .inr ⟨fun q hq heq => ?_, by rw [if_pos hempty]⟩
    obtain ⟨h1, _, h3⟩ := h.word_eq hq
    obtain ⟨p', hp', hw⟩ := (h.entries _ h3).mpr ⟨q, hq, rfl⟩
    refine hnone p' hp' (by rw [hw]; exact h3) ?_
    rw [hw, h1, heq]
  · obtain ⟨q, hq, hw⟩ := (h.entries _ hfull).mp ⟨p, hp, rfl⟩
    obtain ⟨h1, h2, _⟩ := h.word_eq hq
    refine .inl ⟨q, hq, ?_, ?_⟩
    · rw [← hkey, hw, h1]
    · rw [if_neg hfull, hw, h2]

/-- A row some place of the index stands for, taken out: the entries of other rows stay. -/
theorem erase_spec (hhash : ∀ r, hash r < 2 ^ 64) (hsized : Sized s.index s.shift k)
    (hchained : Chained kEmpty entryRow (home hash s.shift) s.index.length (cells s.index))
    {row : Nat} (hex : ∃ p < s.index.length, entryRow (cells s.index p) = row) :
    ∃ index, s.erase hash row = some { s with index := index } ∧
      index.length = s.index.length ∧ Sized index s.shift k ∧
        Chained kEmpty entryRow (home hash s.shift) index.length (cells index) ∧
          ∀ w, w ≠ kEmpty → ((∃ p < index.length, cells index p = w) ↔
            (∃ p < s.index.length, cells s.index p = w) ∧ entryRow w ≠ row) := by
  have hhome := fun r => hsized.home_lt hhash r
  obtain ⟨gap, hgap, hprobe, cells', hshift, hchained', hentries⟩ := hchained.drop hhome hex
  obtain ⟨index, hclose, hcells, hsized'⟩ :=
    closeGap_eq hhash _ hsized hgap (after_lt hgap hsized.one_lt) hshift
  have hlen : index.length = s.index.length := by rw [hsized'.length_eq, hsized.length_eq]
  refine ⟨index, ?_, hlen, hsized', ?_, fun w hw => ?_⟩
  · unfold erase
    rw [gapFrom_eq hsized _ (hhome _), hprobe, Option.bind_some, hsized.next_eq hgap, hclose]
    rfl
  · rw [hcells, hlen]
    exact hchained'
  · rw [hcells, hlen]
    exact hentries w hw

/-- Taking a live slot's row out of the index leaves the others in. -/
theorem Indexed.erase_spec (h : Indexed hash s k live) (hhash : ∀ r, hash r < 2 ^ 64)
    (hinj : ∀ a, live a → ∀ b, live b → s.ids a = s.ids b → a = b) (hslot : live slot) :
    ∃ index, s.erase hash (s.ids slot) = some { s with index := index } ∧
      index.length = s.index.length ∧
        Indexed hash { s with index := index } k fun q => live q ∧ q ≠ slot := by
  obtain ⟨hrow, _, hne⟩ := h.word_eq hslot
  obtain ⟨p, hp, hw⟩ := (h.entries _ hne).mpr ⟨slot, hslot, rfl⟩
  have hkey : entryRow (cells s.index p) = s.ids slot := by rw [hw, hrow]
  obtain ⟨index, herase, hlen, hsized, hchained, hentries⟩ :=
    Store.erase_spec hhash h.sized h.chained ⟨p, hp, hkey⟩
  refine ⟨index, herase, hlen, hsized, hchained, ?_, fun q hq => h.small q hq.1⟩
  intro w hwne
  show (∃ p < index.length, cells index p = w) ↔ _
  rw [hentries w hwne, h.entries w hwne]
  constructor
  · rintro ⟨⟨q, hq, heq⟩, hkeyne⟩
    refine ⟨q, ⟨hq, fun hqs => hkeyne ?_⟩, heq⟩
    rw [heq, (h.word_eq hq).1, hqs]
  · rintro ⟨q, ⟨hq, hqs⟩, heq⟩
    refine ⟨⟨q, hq, heq⟩, fun hkeyeq => hqs ?_⟩
    have heq : w = word q (s.ids q) := heq
    rw [heq, (h.word_eq hq).1] at hkeyeq
    exact hinj q hq slot hslot hkeyeq

/-- The entry of one more slot, with a row no live slot has. -/
theorem Indexed.enter_spec (h : Indexed hash s k live) (hhash : ∀ r, hash r < 2 ^ 64) (used : Nat)
    (hused : used < s.index.length) (hlive : ∀ q, live q → q < used ∧ q ≠ slot)
    (hslot : slot < used) (hsmall : slot + 1 < 2 ^ 32) (hrow : s.ids slot < 2 ^ 32)
    (hnew : ∀ q, live q → s.ids q ≠ s.ids slot) :
    ∃ index, s.enter hash slot (s.ids slot) = some { s with index := index } ∧
      index.length = s.index.length ∧
        Indexed hash { s with index := index } k fun q => live q ∨ q = slot := by
  have hhome := fun r => h.sized.home_lt hhash r
  obtain ⟨h1, h2, h3⟩ := entryRow_word (by omega : slot < 2 ^ 32) hrow
  have hwne := h3 hsmall
  have hof : ∀ p < s.index.length, cells s.index p ≠ kEmpty →
      ∃ q, live q ∧ cells s.index p = word q (s.ids q) := by
    intro p hp hne
    exact (h.entries _ hne).mp ⟨p, hp, rfl⟩
  have hroom := two_empty_but (t := cells s.index) hslot hused
    (fun p hp hne => by
      obtain ⟨q, hq, hw⟩ := hof p hp hne
      rw [hw, (h.word_eq hq).2.1]
      exact hlive q hq)
    (fun p hp p' hp' hne hne' heq => by
      obtain ⟨q, hq, hw⟩ := hof p hp hne
      obtain ⟨q', hq', hw'⟩ := hof p' hp' hne'
      rw [hw, hw', (h.word_eq hq).2.1, (h.word_eq hq').2.1] at heq
      apply h.chained.distinct p hp p' hp' hne hne'
      rw [hw, hw', heq])
  have hnotin : ∀ p < s.index.length, cells s.index p ≠ kEmpty →
      entryRow (cells s.index p) ≠ entryRow (word slot (s.ids slot)) := by
    intro p hp hne
    obtain ⟨q, hq, hw⟩ := hof p hp hne
    rw [hw, (h.word_eq hq).1, h1]
    exact hnew q hq
  obtain ⟨p, hp, hprobe, hempty, hchained⟩ := h.chained.insert hhome hwne hnotin hroom
  rw [h1] at hprobe
  have hlen : (s.index.set p (word slot (s.ids slot))).length = s.index.length := List.length_set
  refine ⟨s.index.set p (word slot (s.ids slot)), ?_, hlen, h.sized.set _ _, ?_, ?_, ?_⟩
  · unfold enter
    rw [placeFrom_eq h.sized _ (hhome _), hprobe]
    rfl
  · show Chained kEmpty entryRow (home hash s.shift) (List.set _ _ _).length (cells (List.set _ _ _))
    rw [hlen, cells_set hp]
    exact hchained
  · intro w hw
    show (∃ p' < (List.set _ _ _).length, cells (List.set _ _ _) p' = w) ↔ _
    rw [hlen, cells_set hp]
    constructor
    · rintro ⟨p', hp', heq⟩
      by_cases hpp : p' = p
      · rw [hpp, Function.update_self] at heq
        exact ⟨slot, .inr rfl, heq.symm⟩
      · rw [update_ne hpp] at heq
        obtain ⟨q, hq, hwq⟩ := (h.entries w hw).mp ⟨p', hp', heq⟩
        exact ⟨q, .inl hq, hwq⟩
    · rintro ⟨q, hq | rfl, hwq⟩
      · obtain ⟨p', hp', heq⟩ := (h.entries w hw).mpr ⟨q, hq, hwq⟩
        refine ⟨p', hp', ?_⟩
        rw [update_ne fun hpp => hw (by rw [← heq, hpp, hempty])]
        exact heq
      · exact ⟨p, hp, by rw [Function.update_self]; exact hwq.symm⟩
  · rintro q (hq | rfl)
    · exact h.small q hq
    · exact ⟨hsmall, hrow⟩

/-- A reference dropped, and the hand on the next slot. -/
def turned (s : Store) : Store :=
  { s with refs := Function.update s.refs s.hand 0, hand := (s.hand + 1) % s.slots }

theorem turned_hand (h : s.hand < s.slots) : s.turned.hand = after s.slots s.hand 1 := by
  show (s.hand + 1) % s.slots = _
  unfold after
  split
  next hlt => exact Nat.mod_eq_of_lt hlt
  next hge =>
    have heq : s.hand + 1 = s.slots := by omega
    rw [heq, Nat.mod_self, Nat.sub_self]

theorem after_one_lt (h : s.hand < s.slots) : after s.slots s.hand 1 < s.slots := by
  unfold after
  split_ifs <;> omega

theorem sweep_succ (rounds : Nat) (s : Store) :
    sweep (rounds + 1) s = if s.refs s.hand ≠ 0 then sweep rounds s.turned else some s := rfl

/-- A sweep ends at a slot not referenced, and keeps what dropping a reference keeps. -/
theorem sweep_keeps (inv : Store → Prop)
    (hstep : ∀ s, inv s → s.refs s.hand ≠ 0 → inv s.turned) (rounds : Nat) (hs : inv s)
    (h : sweep rounds s = some u) : inv u ∧ u.refs u.hand = 0 := by
  induction rounds generalizing s with
  | zero => exact absurd h (by simp [sweep])
  | succ rounds ih =>
    rw [sweep_succ] at h
    split at h
    next hne => exact ih (hstep s hs hne) h
    next heq =>
      cases Option.some.inj h
      exact ⟨hs, not_not.mp heq⟩

theorem sweep_some {q : Nat} (rounds : Nat) (hs : s.hand < s.slots) (hq : q < s.slots)
    (h0 : s.refs q = 0) (hr : ahead s.slots s.hand q < rounds) : ∃ u, sweep rounds s = some u := by
  induction rounds generalizing s with
  | zero => omega
  | succ rounds ih =>
    rw [sweep_succ]
    split
    next hne =>
      have hhq : s.hand ≠ q := fun heq => hne (by rw [heq]; exact h0)
      have hnext := ahead_next hs hq hhq
      have hhand := turned_hand hs
      apply ih
      · rw [hhand]
        exact after_one_lt hs
      · exact hq
      · show Function.update s.refs s.hand 0 q = 0
        rw [update_ne hhq.symm]
        exact h0
      · rw [hhand]
        show ahead s.slots _ q < rounds
        omega
    next => exact ⟨s, rfl⟩

/-- One round of all slots drops every reference. -/
theorem sweep_ends (hs : s.hand < s.slots) : ∃ u, sweep (s.slots + 1) s = some u := by
  rw [sweep_succ]
  split
  next hne =>
    have hhand := turned_hand hs
    have hlt := after_one_lt hs
    refine sweep_some s.slots (q := s.hand) (by rw [hhand]; exact hlt) hs ?_ ?_
    · exact Function.update_self _ _ _
    · rw [hhand]
      exact ahead_lt hlt hs
  next => exact ⟨s, rfl⟩

/-- A store with what a sweep may change taken from another. -/
def SameRows (s u : Store) : Prop :=
  u = { s with refs := u.refs, hand := u.hand } ∧ u.hand < s.slots

theorem sweep_rows (hs : s.hand < s.slots) (h : sweep (s.slots + 1) s = some u) :
    s.SameRows u := by
  refine (sweep_keeps (s.SameRows ·) (fun t ht _ => ?_) _ ⟨rfl, hs⟩ h).1
  obtain ⟨heq, hlt⟩ := ht
  have hslots : t.slots = s.slots := by rw [heq]
  refine ⟨?_, ?_⟩
  · unfold turned
    rw [heq]
  · show (t.hand + 1) % t.slots < s.slots
    rw [hslots]
    exact Nat.mod_lt _ (by omega)

/-- What holds of a store of `slots` rows of `rowBytes` bytes in every state reached. -/
structure Good (hash : Nat → Nat) (slots rowBytes : Nat) (s : Store) (k : Nat) : Prop where
  slots_eq : s.slots = slots
  rowBytes_eq : s.rowBytes = rowBytes
  used_le : s.used ≤ slots
  used_committed : s.used ≤ s.committed
  committed_le : s.committed ≤ slots
  hand_lt : s.hand < slots
  hand_zero : s.used < slots → s.hand = 0
  ids_inj : ∀ a < s.used, ∀ b < s.used, s.ids a = s.ids b → a = b
  indexed : Indexed hash s k (· < s.used)
  places : slots < s.index.length

/-- A store with a slot taken out for a row to come. -/
structure SlotTaken (hash : Nat → Nat) (s : Store) (k slot : Nat) (t : Store) : Prop where
  slots_eq : t.slots = s.slots
  rowBytes_eq : t.rowBytes = s.rowBytes
  arena_eq : t.arena = s.arena
  ids_eq : t.ids = s.ids
  slot_lt : slot < t.used
  used_le : t.used ≤ s.slots
  used_committed : t.used ≤ t.committed
  committed_le : t.committed ≤ s.slots
  hand_lt : t.hand < s.slots
  hand_zero : t.used < s.slots → t.hand = 0
  ids_inj : ∀ a < t.used, ∀ b < t.used, a ≠ slot → b ≠ slot → t.ids a = t.ids b → a = b
  indexed : Indexed hash t k fun q => q < t.used ∧ q ≠ slot
  places : s.slots < t.index.length
  old : ∀ q, q < t.used ∧ q ≠ slot ↔ q < s.used ∧ s.givenUp ≠ some (s.ids q)

variable {slots rowBytes : Nat}

theorem Good.take_new (h : Good hash slots rowBytes s k) (hlt : s.used < slots) :
    s.takeSlot hash = some (s.used, s.grow) ∧ SlotTaken hash s k s.used s.grow ∧ s.givenUp = none := by
  have hslots := h.slots_eq
  have hnone : s.givenUp = none := if_pos (by omega)
  refine ⟨if_pos (by omega), ?_, hnone⟩
  have hgrow : s.used + 1 ≤ s.grow.committed ∧ s.grow.committed ≤ s.slots := by
    have h1 := h.committed_le
    have hc : s.grow.committed = if s.committed < s.used + 1 then
        min s.slots (max (s.used + 1) (s.committed + kCommitSlots)) else s.committed := rfl
    rw [hc]
    split_ifs <;> omega
  refine ⟨rfl, rfl, rfl, rfl, Nat.lt_succ_self _, by rw [hslots]; exact hlt, hgrow.1, hgrow.2,
    by rw [hslots]; exact h.hand_lt, fun _ => h.hand_zero hlt, ?_, ?_,
    by rw [hslots]; exact h.places, ?_⟩
  · intro a ha b hb hna hnb heq
    have ha : a < s.used + 1 := ha
    have hb : b < s.used + 1 := hb
    exact h.ids_inj a (by omega) b (by omega) heq
  · refine (h.indexed.congr (t := s.grow) rfl rfl fun _ _ => rfl).live_congr fun q => ?_
    show q < s.used ↔ q < s.used + 1 ∧ q ≠ s.used
    omega
  · intro q
    rw [hnone]
    show q < s.used + 1 ∧ q ≠ s.used ↔ _
    constructor
    · intro hq
      exact ⟨by omega, fun hc => by simp at hc⟩
    · intro hq
      omega

theorem Good.take_old (h : Good hash slots rowBytes s k) (hhash : ∀ r, hash r < 2 ^ 64)
    (hge : ¬ s.used < slots) :
    ∃ u t, sweep (s.slots + 1) s = some u ∧ s.takeSlot hash = some (u.hand, t) ∧
      SlotTaken hash s k u.hand t ∧ s.givenUp = some (s.ids u.hand) ∧ t.refs = u.refs ∧
        t.hand = (u.hand + 1) % slots ∧ t.used = s.used ∧ t.shift = s.shift := by
  have hslots := h.slots_eq
  have hhand := h.hand_lt
  have hused := h.used_le
  obtain ⟨u, hu⟩ := sweep_ends (s := s) (by omega)
  obtain ⟨hsame, hlt⟩ := sweep_rows (by omega) hu
  have hids : u.ids = s.ids := by rw [hsame]
  have husl : u.slots = slots := by rw [hsame, ← hslots]
  have hlive : u.hand < s.used := by omega
  have hix : Indexed hash { u with hand := (u.hand + 1) % u.slots } k (· < s.used) := by
    apply h.indexed.congr
    · show u.index = s.index
      rw [hsame]
    · show u.shift = s.shift
      rw [hsame]
    · intro q _
      show u.ids q = s.ids q
      rw [hids]
  have hinj : ∀ a, a < s.used → ∀ b, b < s.used → u.ids a = u.ids b → a = b := by
    intro a ha b hb heq
    rw [hids] at heq
    exact h.ids_inj a ha b hb heq
  obtain ⟨index, herase, hlen, hindexed⟩ := hix.erase_spec hhash hinj hlive
  have hindex : u.index = s.index := by rw [hsame]
  have hgive : s.givenUp = some (s.ids u.hand) := by
    unfold givenUp
    rw [if_neg (by omega), hu, Option.map_some, hids]
  have husedu : u.used = s.used := by rw [hsame]
  have hshift : u.shift = s.shift := by rw [hsame]
  have hmod : (u.hand + 1) % u.slots = (u.hand + 1) % slots := by rw [husl]
  refine ⟨u, { u with hand := (u.hand + 1) % u.slots, index := index }, hu, ?_,
    ⟨?_, ?_, ?_, hids, ?_, ?_, ?_, ?_, ?_, ?_, ?_, ?_, ?_, ?_⟩, hgive, rfl, hmod, husedu, hshift⟩
  · unfold takeSlot
    rw [if_neg (by omega), hu, Option.bind_some]
    have herase : erase hash { u with hand := (u.hand + 1) % u.slots } (u.ids u.hand) = _ := herase
    rw [herase]
    rfl
  · show u.slots = s.slots
    rw [hsame]
  · show u.rowBytes = s.rowBytes
    rw [hsame]
  · show u.arena = s.arena
    rw [hsame]
  · show u.hand < u.used
    omega
  · show u.used ≤ s.slots
    omega
  · show u.used ≤ u.committed
    have hc : u.committed = s.committed := by rw [hsame]
    have hle := h.used_committed
    omega
  · show u.committed ≤ s.slots
    have hc : u.committed = s.committed := by rw [hsame]
    have hle := h.committed_le
    omega
  · show (u.hand + 1) % u.slots < s.slots
    rw [husl, hslots]
    exact Nat.mod_lt _ (by omega)
  · intro hlt'
    have hlt' : u.used < s.slots := hlt'
    omega
  · intro a ha b hb _ _ heq
    have ha : a < u.used := ha
    have hb : b < u.used := hb
    exact hinj a (by omega) b (by omega) heq
  · refine hindexed.live_congr fun q => ?_
    show q < s.used ∧ q ≠ u.hand ↔ q < u.used ∧ q ≠ u.hand
    rw [husedu]
  · have hp := h.places
    rw [hlen]
    show s.slots < u.index.length
    rw [hindex]
    omega
  · intro q
    show q < u.used ∧ q ≠ u.hand ↔ _
    rw [husedu, hgive]
    constructor
    · rintro ⟨hq, hne⟩
      refine ⟨hq, fun heq => hne ?_⟩
      exact (h.ids_inj u.hand hlive q hq (Option.some.inj heq)).symm
    · rintro ⟨hq, hne⟩
      refine ⟨hq, fun heq => hne ?_⟩
      rw [heq]

theorem Good.take (h : Good hash slots rowBytes s k) (hhash : ∀ r, hash r < 2 ^ 64) :
    ∃ slot t, s.takeSlot hash = some (slot, t) ∧ SlotTaken hash s k slot t := by
  by_cases hlt : s.used < slots
  · obtain ⟨h1, h2, -⟩ := h.take_new hlt
    exact ⟨_, _, h1, h2⟩
  · obtain ⟨u, t, -, h1, h2, -⟩ := h.take_old hhash hlt
    exact ⟨_, _, h1, h2⟩

theorem row_fill_self (row : Nat) {bytes : Bytes} (hlen : bytes.length = s.rowBytes) :
    (s.fill slot row bytes).row slot = bytes := by
  apply List.ext_getElem
  · show ((List.range s.rowBytes).map _).length = _
    rw [List.length_map, List.length_range, hlen]
  · intro i h1 h2
    have hi : i < s.rowBytes := by omega
    have hget : ((s.fill slot row bytes).row slot)[i] =
        (s.fill slot row bytes).arena (slot * s.rowBytes + i) := by
      simp [Store.row, fill]
    rw [hget]
    show (if _ then _ else _) = _
    rw [if_pos (by omega), Nat.add_sub_cancel_left, List.getD_eq_getElem?_getD,
      List.getElem?_eq_getElem h2, Option.getD_some]

theorem row_fill_ne (row : Nat) {q : Nat} {bytes : Bytes} (hne : q ≠ slot) :
    (s.fill slot row bytes).row q = s.row q := by
  unfold Store.row
  refine List.map_congr_left fun i hi => ?_
  have hi : i < s.rowBytes := List.mem_range.mp hi
  show (if _ then _ else _) = _
  apply if_neg
  show ¬ (slot * s.rowBytes ≤ q * s.rowBytes + i ∧
    q * s.rowBytes + i < slot * s.rowBytes + s.rowBytes)
  rintro ⟨h1, h2⟩
  rcases Nat.lt_or_gt_of_ne hne with hlt | hgt
  · have hmul := Nat.mul_le_mul_right s.rowBytes (Nat.succ_le_of_lt hlt)
    rw [Nat.succ_mul] at hmul
    omega
  · have hmul := Nat.mul_le_mul_right s.rowBytes (Nat.succ_le_of_lt hgt)
    rw [Nat.succ_mul] at hmul
    omega

/-- What a put leaves: the slot taken filled, referenced and found, the others as they were. -/
structure Filled (slot row : Nat) (bytes : Bytes) (t t' : Store) : Prop where
  ids_eq : t'.ids = Function.update t.ids slot row
  used_eq : t'.used = t.used
  hand_eq : t'.hand = t.hand
  refs_eq : t'.refs = Function.update t.refs slot 1
  row_self : t'.row slot = bytes
  row_ne : ∀ q, q ≠ slot → t'.row q = t.row q

theorem Good.put_spec (h : Good hash slots rowBytes s k) (hhash : ∀ r, hash r < 2 ^ 64)
    (hslots : slots < 2 ^ 32) {row : Nat} {bytes : Bytes} (hrow : row < 2 ^ 32)
    (hlen : bytes.length = rowBytes) (hnew : ∀ q < s.used, s.ids q ≠ row)
    (htake : s.takeSlot hash = some (slot, t)) (ht : SlotTaken hash s k slot t) :
    ∃ t', s.put hash row bytes = some t' ∧ Good hash slots rowBytes t' k ∧
      Filled slot row bytes t t' := by
  have hsl := h.slots_eq
  have hids : (t.fill slot row bytes).ids slot = row := Function.update_self _ _ _
  have hothers : ∀ q, q ≠ slot → (t.fill slot row bytes).ids q = t.ids q := fun q hq => update_ne hq
  have hix : Indexed hash (t.fill slot row bytes) k fun q => q < t.used ∧ q ≠ slot :=
    ht.indexed.congr rfl rfl fun q hq => hothers q hq.2
  have hfresh : ∀ q, q < t.used ∧ q ≠ slot → (t.fill slot row bytes).ids q ≠ row := by
    intro q hq
    rw [hothers q hq.2, ht.ids_eq]
    exact hnew q ((ht.old q).mp hq).1
  have huse := ht.used_le
  have hplace := ht.places
  have hslot := ht.slot_lt
  obtain ⟨index, henter, hilen, hindexed⟩ := hix.enter_spec hhash t.used
    (by show t.used < t.index.length; omega) (fun q hq => hq) hslot (by omega)
    (by rw [hids]; exact hrow) (fun q hq => by rw [hids]; exact hfresh q hq)
  rw [hids] at henter
  refine ⟨{ t.fill slot row bytes with index := index }, ?_,
    ⟨?_, ?_, ?_, ?_, ?_, ?_, ?_, ?_, ?_, ?_⟩, rfl, rfl, rfl, rfl, ?_, fun q hq => ?_⟩
  · unfold put
    rw [htake]
    exact henter
  · exact ht.slots_eq.trans hsl
  · exact ht.rowBytes_eq.trans h.rowBytes_eq
  · show t.used ≤ slots
    omega
  · exact ht.used_committed
  · have hle := ht.committed_le
    show t.committed ≤ slots
    omega
  · have hlt := ht.hand_lt
    show t.hand < slots
    omega
  · intro hlt
    have hlt : t.used < slots := hlt
    exact ht.hand_zero (by omega)
  · intro a ha b hb heq
    have ha : a < t.used := ha
    have hb : b < t.used := hb
    have heq : (t.fill slot row bytes).ids a = (t.fill slot row bytes).ids b := heq
    by_cases has : a = slot
    · by_cases hbs : b = slot
      · rw [has, hbs]
      · rw [has, hids] at heq
        exact absurd heq.symm (hfresh b ⟨hb, hbs⟩)
    · by_cases hbs : b = slot
      · rw [hbs, hids] at heq
        exact absurd heq (hfresh a ⟨ha, has⟩)
      · rw [hothers a has, hothers b hbs] at heq
        exact ht.ids_inj a ha b hb has hbs heq
  · refine hindexed.live_congr fun q => ?_
    show (q < t.used ∧ q ≠ slot) ∨ q = slot ↔ q < t.used
    constructor
    · rintro (hq | hq)
      · exact hq.1
      · omega
    · intro hq
      by_cases hqs : q = slot
      · exact .inr hqs
      · exact .inl ⟨hq, hqs⟩
  · rw [hilen]
    show slots < t.index.length
    omega
  · exact row_fill_self row (by rw [ht.rowBytes_eq, h.rowBytes_eq, hlen])
  · exact row_fill_ne row hq

theorem Good.touch (h : Good hash slots rowBytes s k) (slot : Nat) :
    Good hash slots rowBytes (s.touch slot) k := by
  refine ⟨h.slots_eq, h.rowBytes_eq, h.used_le, h.used_committed, h.committed_le, h.hand_lt,
    h.hand_zero, h.ids_inj, ?_, h.places⟩
  exact h.indexed.congr rfl rfl fun _ _ => rfl

theorem new_cells (slots rowBytes p : Nat) : cells (Store.new slots rowBytes).index p = kEmpty := by
  show (List.replicate (indexSize slots) kEmpty).getD p kEmpty = kEmpty
  rw [List.getD_eq_getElem?_getD, List.getElem?_replicate]
  split_ifs <;> rfl

theorem new_chained (hash : Nat → Nat) (hpos : 0 < (Store.new slots rowBytes).index.length) :
    Chained kEmpty entryRow (home hash (Store.new slots rowBytes).shift)
      (Store.new slots rowBytes).index.length (cells (Store.new slots rowBytes).index) := by
  have hcells := new_cells slots rowBytes
  refine ⟨?_, ?_, ⟨0, hpos, hcells 0⟩⟩
  · intro p _ hne
    exact absurd (hcells p) hne
  · intro p _ q _ hne
    exact absurd (hcells p) hne

theorem Good.new (hash : Nat → Nat) (h0 : 0 < slots) (hslots : slots < 2 ^ 32) (rowBytes : Nat) :
    ∃ k, Good hash slots rowBytes (Store.new slots rowBytes) k := by
  obtain ⟨k, hsized, hmore⟩ := new_sized h0 (Nat.le_of_lt hslots) rowBytes
  have hnone : ∀ q, ¬ q < (Store.new slots rowBytes).used := fun q hq => Nat.not_lt_zero q hq
  refine ⟨k, rfl, rfl, Nat.zero_le _, Nat.le_refl _, Nat.zero_le _, h0, fun _ => rfl,
    fun a ha => absurd ha (hnone a),
    ⟨hsized, new_chained hash hsized.length_pos, ?_, fun q hq => absurd hq (hnone q)⟩,
    by rw [hsized.length_eq]; exact hmore⟩
  intro w hw
  constructor
  · rintro ⟨p, -, hp⟩
    exact absurd (hp.symm.trans (new_cells slots rowBytes p)) hw
  · rintro ⟨q, hq, -⟩
    exact absurd hq (hnone q)

end Store

open Store

theorem kept_snoc (puts : List Put) (p : Put) (row : Nat) :
    kept (puts ++ [p]) row =
      if p.row = row then some p.bytes else if p.gaveUp = some row then none else kept puts row := by
  induction puts with
  | nil =>
    show (if p.row = row then some p.bytes else none) = _
    split_ifs <;> rfl
  | cons q puts ih =>
    rw [List.cons_append, kept, kept, ih, List.any_append]
    by_cases hrow : p.row = row
    · rw [if_pos hrow, if_pos hrow]
    · rw [if_neg hrow, if_neg hrow]
      by_cases hgave : p.gaveUp = some row
      · rw [if_pos hgave, if_pos hgave]
        have hany : [p].any (fun q => q.gaveUp == some row) = true := by simp [hgave]
        rw [hany, Bool.or_true]
        rfl
      · rw [if_neg hgave, if_neg hgave]
        have hany : [p].any (fun q => q.gaveUp == some row) = false := by simp [hgave]
        rw [hany, Bool.or_false]

/-- The puts still standing are the used slots' rows and their bytes. -/
def Standing (puts : List Put) (s : Store) : Prop :=
  ∀ r bytes, kept puts r = some bytes ↔ ∃ q < s.used, s.ids q = r ∧ s.row q = bytes

variable {hash : Nat → Nat} {slots rowBytes k slot : Nat} {s t t' : Store}

theorem Standing.put {puts : List Put} (h : Standing puts s) {row : Nat} {bytes : Bytes}
    (hnew : ∀ q < s.used, s.ids q ≠ row) (ht : SlotTaken hash s k slot t)
    (ht' : Filled slot row bytes t t') :
    Standing (puts ++ [⟨row, bytes, s.givenUp⟩]) t' := by
  intro r b
  rw [kept_snoc]
  have hrows : ∀ q, t.row q = s.row q := by
    intro q
    unfold Store.row
    rw [ht.rowBytes_eq, ht.arena_eq]
  have hslot := ht.slot_lt
  show (if row = r then some bytes else if s.givenUp = some r then none else kept puts r) = _ ↔ _
  by_cases hr : row = r
  · rw [if_pos hr]
    constructor
    · intro heq
      refine ⟨slot, by rw [ht'.used_eq]; exact hslot, ?_, ?_⟩
      · rw [ht'.ids_eq, Function.update_self, hr]
      · rw [ht'.row_self]
        exact Option.some.inj heq
    · rintro ⟨q, hq, hid, hrow⟩
      rw [ht'.used_eq] at hq
      by_cases hqs : q = slot
      · rw [← hrow, hqs, ht'.row_self]
      · rw [ht'.ids_eq, update_ne hqs, ht.ids_eq] at hid
        exact absurd (hid.trans hr.symm) (hnew q ((ht.old q).mp ⟨hq, hqs⟩).1)
  · rw [if_neg hr]
    have hiff : (∃ q < t'.used, t'.ids q = r ∧ t'.row q = b) ↔
        s.givenUp ≠ some r ∧ ∃ q < s.used, s.ids q = r ∧ s.row q = b := by
      constructor
      · rintro ⟨q, hq, hid, hrow⟩
        rw [ht'.used_eq] at hq
        have hqs : q ≠ slot := by
          intro hqs
          rw [hqs, ht'.ids_eq, Function.update_self] at hid
          exact hr hid
        obtain ⟨hqu, hgave⟩ := (ht.old q).mp ⟨hq, hqs⟩
        rw [ht'.ids_eq, update_ne hqs, ht.ids_eq] at hid
        rw [ht'.row_ne q hqs, hrows] at hrow
        rw [hid] at hgave
        exact ⟨hgave, q, hqu, hid, hrow⟩
      · rintro ⟨hgave, q, hq, hid, hrow⟩
        rw [← hid] at hgave
        obtain ⟨hqt, hqs⟩ := (ht.old q).mpr ⟨hq, hgave⟩
        refine ⟨q, by rw [ht'.used_eq]; exact hqt, ?_, ?_⟩
        · rw [ht'.ids_eq, update_ne hqs, ht.ids_eq, hid]
        · rw [ht'.row_ne q hqs, hrows, hrow]
    rw [hiff, ← h r b]
    by_cases hgave : s.givenUp = some r
    · rw [if_pos hgave]
      constructor
      · intro hc
        simp at hc
      · intro hc
        exact absurd hgave hc.1
    · rw [if_neg hgave]
      exact ⟨fun hk => ⟨hgave, hk⟩, fun hk => hk.2⟩

/-- Every state a store is used into. -/
def HotRows.Inv (hash : Nat → Nat) (slots rowBytes : Nat) (s : HotRows) : Prop :=
  (∃ k, Good hash slots rowBytes s.store k) ∧ Standing s.puts s.store

theorem not_found (h : Good hash slots rowBytes s k) (hhash : ∀ r, hash r < 2 ^ 64) {row : Nat}
    (hfind : s.find hash row = some none) : ∀ q < s.used, s.ids q ≠ row := by
  rcases h.indexed.find_spec hhash row with ⟨q, -, -, hq⟩ | ⟨hnone, -⟩
  · rw [hfind] at hq
    simp at hq
  · exact hnone

/-- A put the store takes: what it leaves, its slot, and what the slot gave up. -/
theorem step_put (hhash : ∀ r, hash r < 2 ^ 64) (hslots : slots < 2 ^ 32) {s : HotRows}
    (hgood : Good hash slots rowBytes s.store k) {row : Nat} {bytes : Bytes} (hrow : row < 2 ^ 32)
    (hlen : bytes.length = rowBytes) (hfind : s.store.find hash row = some none)
    (htake : s.store.takeSlot hash = some (slot, t)) (ht : SlotTaken hash s.store k slot t) :
    ∃ t', s.step hash (.put row bytes) =
        some ⟨t', s.puts ++ [⟨row, bytes, s.store.givenUp⟩]⟩ ∧
      Good hash slots rowBytes t' k ∧ Filled slot row bytes t t' := by
  obtain ⟨t', hput, hgood', hfilled⟩ :=
    hgood.put_spec hhash hslots hrow hlen (not_found hgood hhash hfind) htake ht
  refine ⟨t', ?_, hgood', hfilled⟩
  show (if row < 2 ^ 32 ∧ bytes.length = s.store.rowBytes ∧ s.store.find hash row = some none
    then _ else _) = _
  rw [if_pos ⟨hrow, by rw [hgood.rowBytes_eq]; exact hlen, hfind⟩, hput]
  rfl

theorem step_put_some (hhash : ∀ r, hash r < 2 ^ 64) (hslots : slots < 2 ^ 32) {s s' : HotRows}
    (hgood : Good hash slots rowBytes s.store k) {row : Nat} {bytes : Bytes}
    (h : s.step hash (.put row bytes) = some s') :
    row < 2 ^ 32 ∧ bytes.length = rowBytes ∧ s.store.find hash row = some none ∧
      ∃ slot t t', s.store.takeSlot hash = some (slot, t) ∧ SlotTaken hash s.store k slot t ∧
        s' = ⟨t', s.puts ++ [⟨row, bytes, s.store.givenUp⟩]⟩ ∧
          Good hash slots rowBytes t' k ∧ Filled slot row bytes t t' := by
  have hif : (if row < 2 ^ 32 ∧ bytes.length = s.store.rowBytes ∧
      s.store.find hash row = some none then (s.store.put hash row bytes).map fun t =>
        HotRows.mk t (s.puts ++ [⟨row, bytes, s.store.givenUp⟩]) else none) = some s' := h
  split at hif
  next hcond =>
    obtain ⟨hrow, hlen, hfind⟩ := hcond
    rw [hgood.rowBytes_eq] at hlen
    obtain ⟨slot, t, htake, ht⟩ := hgood.take hhash
    obtain ⟨t', hstep, hgood', hfilled⟩ := step_put hhash hslots hgood hrow hlen hfind htake ht
    rw [hstep] at h
    exact ⟨hrow, hlen, hfind, slot, t, t', htake, ht, (Option.some.inj h).symm, hgood', hfilled⟩
  next => exact absurd hif (by simp)

theorem step_touch_some {s s' : HotRows} {slot : Nat}
    (h : s.step hash (.touch slot) = some s') : s' = { s with store := s.store.touch slot } := by
  have hif : (if slot < s.store.used then some { s with store := s.store.touch slot }
    else none) = some s' := h
  split at hif
  next => exact (Option.some.inj hif).symm
  next => exact absurd hif (by simp)

theorem step_inv (hhash : ∀ r, hash r < 2 ^ 64) (hslots : slots < 2 ^ 32) {s s' : HotRows}
    {m : HotMove} (h : s.Inv hash slots rowBytes) (hs : s.step hash m = some s') :
    s'.Inv hash slots rowBytes := by
  obtain ⟨⟨k, hgood⟩, hstanding⟩ := h
  cases m with
  | find row =>
    cases Option.some.inj hs
    exact ⟨⟨k, hgood⟩, hstanding⟩
  | touch slot =>
    rw [step_touch_some hs]
    exact ⟨⟨k, hgood.touch slot⟩, hstanding⟩
  | put row bytes =>
    obtain ⟨-, -, hfind, slot, t, t', -, ht, rfl, hgood', hfilled⟩ :=
      step_put_some hhash hslots hgood hs
    exact ⟨⟨k, hgood'⟩, hstanding.put (not_found hgood hhash hfind) ht hfilled⟩

theorem hotRows_inv (hhash : ∀ r, hash r < 2 ^ 64) (h0 : 0 < slots) (hslots : slots < 2 ^ 32)
    {s : HotRows} (h : Reach (hotRows hash slots rowBytes) s) : s.Inv hash slots rowBytes := by
  refine h.invariant _ (fun s hs => ?_) fun s m t hi hs => step_inv hhash hslots hi hs
  rw [hs]
  refine ⟨Good.new hash h0 hslots rowBytes, fun r bytes => ?_⟩
  constructor
  · intro hk
    simp [kept] at hk
  · rintro ⟨q, hq, -⟩
    exact absurd hq (Nat.not_lt_zero q)

end WeightRows

end Llmx
