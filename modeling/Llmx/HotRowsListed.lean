import Llmx.HotRowsSafe

namespace Llmx

namespace WeightRows

open OpenIndex

namespace Store

/-- An entry of a store's index. -/
def Entry (s : Store) (w : Nat) : Prop :=
  w ≠ kEmpty ∧ ∃ p < s.index.length, cells s.index p = w

/-- A store whose index finds only rows that `own` lets it have. `out` is a slot taken out of it.
A slot not found holds the row an empty place stands for: its entry would be no entry. -/
structure Listed (hash : Nat → Nat) (own : Nat → Bytes → Prop) (slots rowBytes : Nat)
    (out : Option Nat) (s : Store) (k : Nat) : Prop where
  slots_eq : s.slots = slots
  rowBytes_eq : s.rowBytes = rowBytes
  used_le : s.used ≤ slots
  hand_lt : s.hand < slots
  sized : Sized s.index s.shift k
  chained : Chained kEmpty entryRow (home hash s.shift) s.index.length (cells s.index)
  places : slots < s.index.length
  entries : ∀ w, Entry s w → w >>> 32 < s.used ∧ s.ids (w >>> 32) = entryRow w ∧
    own (entryRow w) (s.row (w >>> 32))
  listed : ∀ q < s.used, some q ≠ out →
    s.ids q = entryRow kEmpty ∨ ∃ w, Entry s w ∧ w >>> 32 = q
  free : ∀ w, Entry s w → some (w >>> 32) ≠ out

variable {hash : Nat → Nat} {own : Nat → Bytes → Prop} {slots rowBytes k slot : Nat}
  {out : Option Nat} {s t : Store}

theorem word_ext {w v : Nat} (hslot : w >>> 32 = v >>> 32) (hrow : entryRow w = entryRow v) :
    w = v := by
  rw [Nat.shiftRight_eq_div_pow, Nat.shiftRight_eq_div_pow] at hslot
  unfold entryRow at hrow
  omega

/-- A slot has one entry. -/
theorem Listed.entry_ext (h : Listed hash own slots rowBytes out s k) {w v : Nat} (hw : Entry s w)
    (hv : Entry s v) (heq : w >>> 32 = v >>> 32) : w = v := by
  apply word_ext heq
  rw [← (h.entries w hw).2.1, heq]
  exact (h.entries v hv).2.1

/-- A row has one entry. -/
theorem Listed.row_ext (h : Listed hash own slots rowBytes out s k) {w v : Nat} (hw : Entry s w)
    (hv : Entry s v) (heq : entryRow w = entryRow v) : w = v := by
  obtain ⟨hwne, p, hp, rfl⟩ := hw
  obtain ⟨hvne, q, hq, rfl⟩ := hv
  rw [h.chained.distinct p hp q hq hwne hvne heq]

theorem Listed.find_spec (h : Listed hash own slots rowBytes out s k)
    (hhash : ∀ r, hash r < 2 ^ 64) (row : Nat) :
    (∃ w, Entry s w ∧ entryRow w = row ∧ s.find hash row = some (some (w >>> 32))) ∨
      (∀ w, Entry s w → entryRow w ≠ row) ∧ s.find hash row = some none := by
  have hhome := fun r => h.sized.home_lt hhash r
  obtain ⟨p, hp, hprobe, hcase⟩ := h.chained.find hhome row
  unfold find
  rw [findFrom_eq h.sized _ (hhome row), hprobe, Option.map_some]
  rcases hcase with ⟨hempty, hnone⟩ | ⟨hfull, hkey⟩
  · refine .inr ⟨fun w hw => ?_, by rw [if_pos hempty]⟩
    obtain ⟨hne, q, hq, rfl⟩ := hw
    exact hnone q hq hne
  · exact .inl ⟨cells s.index p, ⟨hfull, p, hp, Eq.refl _⟩, hkey, by rw [if_neg hfull]⟩

/-- A row found is one the store may have. -/
theorem Listed.find_own (h : Listed hash own slots rowBytes out s k)
    (hhash : ∀ r, hash r < 2 ^ 64) (row : Nat) :
    (∃ q, s.find hash row = some (some q) ∧ own row (s.row q)) ∨ s.find hash row = some none := by
  rcases h.find_spec hhash row with ⟨w, hw, rfl, hfind⟩ | ⟨-, hfind⟩
  · exact .inl ⟨w >>> 32, hfind, (h.entries w hw).2.2⟩
  · exact .inr hfind

theorem Listed.touch (h : Listed hash own slots rowBytes out s k) (slot : Nat) :
    Listed hash own slots rowBytes out (s.touch slot) k :=
  ⟨h.slots_eq, h.rowBytes_eq, h.used_le, h.hand_lt, h.sized, h.chained, h.places, h.entries,
    h.listed, h.free⟩

theorem Listed.new (hash : Nat → Nat) (own : Nat → Bytes → Prop) (h0 : 0 < slots)
    (hslots : slots ≤ 2 ^ 32) (rowBytes : Nat) :
    ∃ k, Listed hash own slots rowBytes none (Store.new slots rowBytes) k := by
  obtain ⟨k, hsized, hmore⟩ := new_sized h0 hslots rowBytes
  have hcells : ∀ p, cells (Store.new slots rowBytes).index p = kEmpty := new_cells slots rowBytes
  have hnone : ∀ w, ¬ Entry (Store.new slots rowBytes) w := by
    intro w hw
    obtain ⟨hne, p, -, hp⟩ := hw
    exact hne (hp.symm.trans (hcells p))
  exact ⟨k, Eq.refl _, Eq.refl _, Nat.zero_le _, h0, hsized, new_chained hash hsized.length_pos,
    by rw [hsized.length_eq]; exact hmore, fun w hw => absurd hw (hnone w),
    fun q hq => absurd hq (Nat.not_lt_zero q), fun w hw => absurd hw (hnone w)⟩

/-- A slot taken: no entry is of it, and no entry is new. -/
structure Taken (hash : Nat → Nat) (own : Nat → Bytes → Prop) (slots rowBytes : Nat) (s : Store)
    (k slot : Nat) (t : Store) : Prop where
  listed : Listed hash own slots rowBytes (some slot) t k
  slot_lt : slot < t.used
  old : ∀ w, Entry t w → Entry s w

theorem Listed.take_new (h : Listed hash own slots rowBytes none s k) (hlt : s.used < slots) :
    s.takeSlot hash = some (s.used, s.grow) ∧ Taken hash own slots rowBytes s k s.used s.grow := by
  have hslots := h.slots_eq
  refine ⟨if_pos (by omega), ⟨h.slots_eq, h.rowBytes_eq, hlt, h.hand_lt, h.sized, h.chained,
    h.places, fun w hw => ?_, fun q hq hne => ?_, fun w hw heq => ?_⟩, Nat.lt_succ_self _,
    fun w hw => hw⟩
  · obtain ⟨hused, hrest⟩ := h.entries w hw
    exact ⟨Nat.lt_succ_of_lt hused, hrest⟩
  · have hq : q < s.used + 1 := hq
    have hne : q ≠ s.used := fun heq => hne (congrArg some heq)
    exact h.listed q (by omega) nofun
  · have hused := (h.entries w hw).1
    have heq := Option.some.inj heq
    omega

theorem Listed.same (h : Listed hash own slots rowBytes out s k) (hsame : s.SameRows t) :
    Listed hash own slots rowBytes out t k := by
  obtain ⟨heq, hlt⟩ := hsame
  rw [h.slots_eq] at hlt
  rw [heq]
  exact ⟨h.slots_eq, h.rowBytes_eq, h.used_le, hlt, h.sized, h.chained, h.places, h.entries,
    h.listed, h.free⟩

/-- The row of a used slot taken out of the index, which may not hold it. -/
theorem Listed.erase_given (h : Listed hash own slots rowBytes none s k)
    (hhash : ∀ r, hash r < 2 ^ 64) (hslot : slot < s.used) :
    ∃ index, s.erase hash (s.ids slot) = some { s with index := index } ∧
      Taken hash own slots rowBytes s k slot { s with index := index } := by
  have hex : ∃ p < s.index.length, entryRow (cells s.index p) = s.ids slot := by
    rcases h.listed slot hslot nofun with hrow | ⟨w, hw, hat⟩
    · obtain ⟨p, hp, hempty⟩ := h.chained.room
      exact ⟨p, hp, by rw [hempty, hrow]⟩
    · have hid := (h.entries w hw).2.1
      obtain ⟨-, p, hp, hpw⟩ := hw
      exact ⟨p, hp, by rw [hpw, ← hid, hat]⟩
  obtain ⟨index, herase, hlen, hsized, hchained, hentries⟩ :=
    Store.erase_spec hhash h.sized h.chained hex
  have hold : ∀ w, Entry { s with index := index } w ↔ Entry s w ∧ entryRow w ≠ s.ids slot := by
    intro w
    unfold Entry
    constructor
    · intro hw
      obtain ⟨hmem, hrow⟩ := (hentries w hw.1).mp hw.2
      exact ⟨⟨hw.1, hmem⟩, hrow⟩
    · intro hw
      exact ⟨hw.1.1, (hentries w hw.1.1).mpr ⟨hw.1.2, hw.2⟩⟩
  refine ⟨index, herase, ⟨h.slots_eq, h.rowBytes_eq, h.used_le, h.hand_lt, hsized, hchained, ?_,
    fun w hw => h.entries w ((hold w).mp hw).1, fun q hq hne => ?_, fun w hw heq => ?_⟩, hslot,
    fun w hw => ((hold w).mp hw).1⟩
  · rw [hlen]
    exact h.places
  · rcases h.listed q hq nofun with hrow | ⟨w, hw, hat⟩
    · exact .inl hrow
    · have hid := (h.entries w hw).2.1
      rw [hat] at hid
      by_cases hrow : entryRow w = s.ids slot
      · left
        show s.ids q = entryRow kEmpty
        rcases h.listed slot hslot nofun with hempty | ⟨v, hv, hvat⟩
        · rw [hid, hrow, hempty]
        · have hvid := (h.entries v hv).2.1
          rw [hvat] at hvid
          have hwv := h.row_ext hw hv (hrow.trans hvid)
          rw [hwv, hvat] at hat
          exact absurd (congrArg some hat.symm) hne
      · exact .inr ⟨w, (hold w).mpr ⟨hw, hrow⟩, hat⟩
  · obtain ⟨hw, hrow⟩ := (hold w).mp hw
    have hid := (h.entries w hw).2.1
    rw [Option.some.inj heq] at hid
    exact hrow hid.symm

theorem Listed.take (h : Listed hash own slots rowBytes none s k) (hhash : ∀ r, hash r < 2 ^ 64) :
    ∃ slot t, s.takeSlot hash = some (slot, t) ∧ Taken hash own slots rowBytes s k slot t := by
  by_cases hlt : s.used < slots
  · exact ⟨_, _, h.take_new hlt⟩
  have hslots := h.slots_eq
  have hused := h.used_le
  obtain ⟨u, hu⟩ := sweep_ends (s := s) (by have := h.hand_lt; omega)
  obtain ⟨hsame, hhand⟩ := sweep_rows (by have := h.hand_lt; omega) hu
  have hturned : s.SameRows { u with hand := (u.hand + 1) % u.slots } := by
    have husl : u.slots = s.slots := by rw [hsame]
    refine ⟨?_, ?_⟩
    · rw [hsame]
    · show (u.hand + 1) % u.slots < s.slots
      rw [husl]
      exact Nat.mod_lt _ (by omega)
  have husedu : u.used = s.used := by rw [hsame]
  have hlast : u.hand < ({ u with hand := (u.hand + 1) % u.slots } : Store).used := by
    show u.hand < u.used
    omega
  obtain ⟨index, herase, htaken⟩ := (h.same hturned).erase_given hhash hlast
  have hindex : u.index = s.index := by rw [hsame]
  refine ⟨u.hand, _, ?_, htaken.listed, htaken.slot_lt, fun w hw => ?_⟩
  · unfold takeSlot
    rw [if_neg (by omega), hu, Option.bind_some]
    have herase : erase hash { u with hand := (u.hand + 1) % u.slots } (u.ids u.hand) = _ := herase
    rw [herase]
    exact Eq.refl _
  · have hw := htaken.old w hw
    unfold Entry at hw ⊢
    rw [← hindex]
    exact hw

/-- What the slot taken holds once it is filled, and its entry in. -/
theorem Taken.filled (ht : Taken hash own slots rowBytes s k slot t) (hslots : slots ≤ 2 ^ 32)
    {row : Nat} {bytes : Bytes} (hrow : row < 2 ^ 32) (hlen : bytes.length = rowBytes)
    (hown : own row bytes) {index : List Nat} (hlength : index.length = t.index.length)
    (hsized : Sized index t.shift k)
    (hchained : Chained kEmpty entryRow (home hash t.shift) index.length (cells index))
    (hentry : ∀ w, Entry { t.fill slot row bytes with index := index } w ↔
      Entry t w ∨ w = word slot row ∧ word slot row ≠ kEmpty) :
    Listed hash own slots rowBytes none { t.fill slot row bytes with index := index } k ∧
      ∀ w, Entry { t.fill slot row bytes with index := index } w →
        Entry s w ∨ entryRow w = row := by
  have h := ht.listed
  have hslot := ht.slot_lt
  have hused := h.used_le
  have hids : (t.fill slot row bytes).ids slot = row := Function.update_self _ _ _
  have hothers : ∀ q, q ≠ slot → (t.fill slot row bytes).ids q = t.ids q := fun q hq => update_ne hq
  obtain ⟨hwrow, hwslot, -⟩ := entryRow_word (by omega : slot < 2 ^ 32) hrow
  refine ⟨⟨h.slots_eq, h.rowBytes_eq, h.used_le, h.hand_lt, hsized, hchained, ?_, fun w hw => ?_,
    fun q hq _ => ?_, fun w hw => nofun⟩, fun w hw => ?_⟩
  · rw [hlength]
    exact h.places
  · rcases (hentry w).mp hw with hw | ⟨rfl, -⟩
    · have hne : w >>> 32 ≠ slot := fun heq => h.free w hw (congrArg some heq)
      obtain ⟨hlt, hid, hbytes⟩ := h.entries w hw
      refine ⟨hlt, (hothers _ hne).trans hid, ?_⟩
      show own (entryRow w) ((t.fill slot row bytes).row (w >>> 32))
      rw [row_fill_ne row hne]
      exact hbytes
    · rw [hwslot, hwrow]
      refine ⟨hslot, hids, ?_⟩
      show own row ((t.fill slot row bytes).row slot)
      rw [row_fill_self row (hlen.trans h.rowBytes_eq.symm)]
      exact hown
  · by_cases hqs : q = slot
    · by_cases hword : word slot row = kEmpty
      · left
        rw [hqs, ← hword, hwrow]
        exact hids
      · exact .inr ⟨word slot row, (hentry _).mpr (.inr ⟨Eq.refl _, hword⟩), hwslot.trans hqs.symm⟩
    · rcases h.listed q hq (fun heq => hqs (Option.some.inj heq)) with hid | ⟨w, hw, hat⟩
      · exact .inl ((hothers q hqs).trans hid)
      · exact .inr ⟨w, (hentry w).mpr (.inl hw), hat⟩
  · rcases (hentry w).mp hw with hw | ⟨rfl, -⟩
    · exact .inl (ht.old w hw)
    · exact .inr hwrow

/-- A row put in a slot taken is found there, unless its entry would be none. -/
theorem Taken.enter (ht : Taken hash own slots rowBytes s k slot t) (hhash : ∀ r, hash r < 2 ^ 64)
    (hslots : slots ≤ 2 ^ 32) {row : Nat} {bytes : Bytes} (hrow : row < 2 ^ 32)
    (hlen : bytes.length = rowBytes) (hown : own row bytes)
    (hnew : ∀ w, Entry s w → entryRow w ≠ row) :
    ∃ t', (t.fill slot row bytes).enter hash slot row = some t' ∧
      Listed hash own slots rowBytes none t' k ∧ ∀ w, Entry t' w → Entry s w ∨ entryRow w = row := by
  have h := ht.listed
  have hslot := ht.slot_lt
  have hused := h.used_le
  have hplaces := h.places
  have hhome := fun r => h.sized.home_lt hhash r
  obtain ⟨hwrow, hwslot, -⟩ := entryRow_word (by omega : slot < 2 ^ 32) hrow
  have hentry : ∀ p < t.index.length, cells t.index p ≠ kEmpty → Entry t (cells t.index p) :=
    fun p hp hne => ⟨hne, p, hp, Eq.refl _⟩
  have hplace : ∃ p < t.index.length, probe (fun p => cells t.index p = kEmpty) t.index.length
      t.index.length (home hash t.shift row) = some p ∧ cells t.index p = kEmpty ∧
        Chained kEmpty entryRow (home hash t.shift) t.index.length
          (Function.update (cells t.index) p (word slot row)) := by
    by_cases hword : word slot row = kEmpty
    · obtain ⟨e, he, hempty⟩ := h.chained.room
      obtain ⟨d, hd, hprobe, hstop, -⟩ := probe_exists (fun p => cells t.index p = kEmpty)
        (hhome row) he (decide_eq_true hempty)
      have hstop := of_decide_eq_true hstop
      refine ⟨_, after_lt (hhome row) hd, hprobe, hstop, ?_⟩
      have hsame := Function.update_eq_self
        (after t.index.length (home hash t.shift row) d) (cells t.index)
      rw [hstop] at hsame
      rw [hword, hsame]
      exact h.chained
    · have hroom := two_empty_but (t := cells t.index) hslot (by omega)
        (fun p hp hne => ⟨(h.entries _ (hentry p hp hne)).1,
          fun heq => h.free _ (hentry p hp hne) (congrArg some heq)⟩)
        (fun p hp q hq hne hne' heq => h.chained.distinct p hp q hq hne hne'
          (congrArg entryRow (h.entry_ext (hentry p hp hne) (hentry q hq hne') heq)))
      have hput := h.chained.insert hhome hword (fun q hq hne => by
        rw [hwrow]
        exact hnew _ (ht.old _ (hentry q hq hne))) hroom
      rw [hwrow] at hput
      exact hput
  obtain ⟨p, hp, hprobe, hempty, hchained⟩ := hplace
  have hlen' : (t.index.set p (word slot row)).length = t.index.length := List.length_set
  refine ⟨{ t.fill slot row bytes with index := t.index.set p (word slot row) }, ?_,
    ht.filled hslots hrow hlen hown hlen' (h.sized.set _ _) ?_ fun w => ?_⟩
  · have hplaced := (placeFrom_eq h.sized t.index.length (hhome row)).trans hprobe
    show (placeFrom t.index t.index.length (home hash t.shift row)).map _ = _
    rw [hplaced]
    exact Eq.refl _
  · rw [hlen', cells_set hp]
    exact hchained
  · unfold Entry
    rw [hlen', cells_set hp]
    constructor
    · rintro ⟨hne, q, hq, heq⟩
      by_cases hqp : q = p
      · rw [hqp, Function.update_self] at heq
        exact .inr ⟨heq.symm, by rw [heq]; exact hne⟩
      · rw [update_ne hqp] at heq
        exact .inl ⟨hne, q, hq, heq⟩
    · rintro (⟨hne, q, hq, heq⟩ | ⟨rfl, hne⟩)
      · have hqp : q ≠ p := by
          intro hqp
          rw [hqp, hempty] at heq
          exact hne heq.symm
        exact ⟨hne, q, hq, by rw [update_ne hqp]; exact heq⟩
      · exact ⟨hne, p, hp, Function.update_self _ _ _⟩

/-- A row not found can be put, and other rows not found stay so. -/
theorem Listed.put_spec (h : Listed hash own slots rowBytes none s k)
    (hhash : ∀ r, hash r < 2 ^ 64) (hslots : slots ≤ 2 ^ 32) {row : Nat} {bytes : Bytes}
    (hrow : row < 2 ^ 32) (hlen : bytes.length = rowBytes) (hown : own row bytes)
    (hfind : s.find hash row = some none) :
    ∃ t', s.put hash row bytes = some t' ∧ Listed hash own slots rowBytes none t' k ∧
      ∀ r, r ≠ row → s.find hash r = some none → t'.find hash r = some none := by
  have hmiss : ∀ r, s.find hash r = some none → ∀ w, Entry s w → entryRow w ≠ r := by
    intro r hr
    rcases h.find_spec hhash r with ⟨w, -, -, hfound⟩ | ⟨hnone, -⟩
    · rw [hr] at hfound
      cases hfound
    · exact hnone
  obtain ⟨slot, t, htake, ht⟩ := h.take hhash
  obtain ⟨t', henter, h', hentry⟩ := ht.enter hhash hslots hrow hlen hown (hmiss row hfind)
  refine ⟨t', ?_, h', fun r hr hnone => ?_⟩
  · unfold put
    rw [htake]
    exact henter
  · rcases h'.find_spec hhash r with ⟨w, hw, hwr, -⟩ | ⟨-, hfound⟩
    · rcases hentry w hw with hw | hw
      · exact absurd hwr (hmiss r hnone w hw)
      · exact absurd (hwr.symm.trans hw) hr
    · exact hfound

end Store

end WeightRows

end Llmx
