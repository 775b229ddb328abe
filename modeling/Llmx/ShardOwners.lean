import Llmx.ShardPack

namespace Llmx

open Tiling

/-- Whether row or column `r` of a role's axis is one member `member` owns. -/
def ShardRole.owns (role : ShardRole) (width member r : Nat) : Bool :=
  match role.parts width member with
  | .error _ => false
  | .ok ps => ps.any fun p => holds p.own.begin p.own.count r

/-- The members that own row or column `r`. -/
def ShardRole.owners (role : ShardRole) (width r : Nat) : List Nat :=
  (List.range width).filter fun member => role.owns width member r

/-- Some part of `ps` owns `r`. -/
def OwnedIn (ps : List ShardPart) (r : Nat) : Prop :=
  ∃ p ∈ ps, p.own.begin ≤ r ∧ r < p.own.begin + p.own.count

theorem ownedIn_append {ps qs : List ShardPart} {r : Nat} :
    OwnedIn (ps ++ qs) r ↔ OwnedIn ps r ∨ OwnedIn qs r := by
  simp only [OwnedIn, List.mem_append, or_and_right, exists_or]

theorem not_ownedIn_of_within {ps : List ShardPart} {a b r : Nat} (h : ∀ p ∈ ps, p.Within a b)
    (hr : r < a ∨ b ≤ r) : ¬OwnedIn ps r := by
  rintro ⟨p, hp, hlo, hhi⟩
  obtain ⟨h₁, h₂, h₃, h₄⟩ := h p hp
  omega

theorem ShardRole.owns_iff {role : ShardRole} {width member r : Nat} {ps : List ShardPart}
    (h : role.parts width member = .ok ps) : role.owns width member r = true ↔ OwnedIn ps r := by
  unfold owns
  rw [h]
  simp only [List.any_eq_true, holds_iff, OwnedIn]

/-- In a section, a member owns a row when it takes the unit the row is in. -/
theorem ShardSection.tileParts_owned {s : ShardSection} {us : ShardSpan} {start r : Nat}
    (hus : us.begin + us.count ≤ s.units) (hlo : start ≤ r) (hhi : r < start + s.tiles * s.tile) :
    OwnedIn (s.tileParts us start) r ↔
      us.begin ≤ (r - start) % s.tile / s.unit ∧
        (r - start) % s.tile / s.unit < us.begin + us.count := by
  have hpos : 0 < s.tiles * s.tile := by omega
  have htile : 0 < s.tile := Nat.pos_of_mul_pos_left hpos
  have hunit : 0 < s.unit := Nat.pos_of_mul_pos_left htile
  rw [Nat.le_div_iff_mul_le hunit, Nat.div_lt_iff_lt_mul hunit, Nat.add_mul]
  have hspan : us.begin * s.unit + us.count * s.unit ≤ s.tile := by
    rw [← Nat.add_mul]
    exact Nat.mul_le_mul_right _ hus
  have hdiv := Nat.div_add_mod (r - start) s.tile
  have hmod := Nat.mod_lt (r - start) htile
  unfold OwnedIn tileParts
  dsimp only
  constructor
  · rintro ⟨p, hp, hown⟩
    obtain ⟨t, ht, rfl⟩ := List.mem_map.mp hp
    dsimp only at hown
    have hrem : (r - start) % s.tile = r - start - t * s.tile := by
      have hsub : r - start = t * s.tile + (r - start - t * s.tile) := by omega
      calc (r - start) % s.tile = (s.tile * t + (r - start - t * s.tile)) % s.tile := by
            rw [Nat.mul_comm s.tile, ← hsub]
        _ = r - start - t * s.tile := by
            rw [Nat.mul_add_mod, Nat.mod_eq_of_lt (by omega)]
    omega
  · intro hin
    have hquot : (r - start) / s.tile < s.tiles := by
      rw [Nat.div_lt_iff_lt_mul htile]
      omega
    refine ⟨_, List.mem_map.mpr ⟨(r - start) / s.tile, List.mem_range.mpr hquot, rfl⟩, ?_⟩
    have hcomm : s.tile * ((r - start) / s.tile) = (r - start) / s.tile * s.tile := Nat.mul_comm _ _
    dsimp only
    omega

/-- In the axis, a member owns a row when it takes the row's unit of the section the row is in. -/
theorem ShardRole.sectionParts_owned {role : ShardRole} {width member start stop r : Nat}
    (hm : member < width) {before after : List ShardSection} {s : ShardSection}
    {ps : List ShardPart}
    (h : role.sectionParts width member (before ++ s :: after) start = .ok (ps, stop))
    (hlo : sectionsEnd before start ≤ r) (hhi : r < sectionsEnd before start + s.tiles * s.tile) :
    OwnedIn ps r ↔ ∃ us, s.take width member = some us ∧
      us.begin ≤ (r - sectionsEnd before start) % s.tile / s.unit ∧
        (r - sectionsEnd before start) % s.tile / s.unit < us.begin + us.count := by
  induction before generalizing start ps with
  | nil =>
    rw [List.nil_append, sectionParts] at h
    split at h
    · cases h
    next us hus =>
      split at h
      · cases h
      next qs stop' hrest =>
        simp only [Except.ok.injEq, Prod.mk.injEq] at h
        obtain ⟨rfl, rfl⟩ := h
        rw [sectionsEnd_nil] at hlo hhi ⊢
        have hout := not_ownedIn_of_within (role.sectionParts_within hm hrest) (Or.inl hhi)
        rw [ownedIn_append, or_iff_left hout,
          ShardSection.tileParts_owned (s.take_le hus hm) hlo hhi]
        constructor
        · exact fun hin => ⟨us, hus, hin⟩
        · rintro ⟨us', hus', hin⟩
          obtain rfl := Option.some.inj (hus.symm.trans hus')
          exact hin
  | cons b before ih =>
    rw [List.cons_append, sectionParts] at h
    split at h
    · cases h
    next us hus =>
      split at h
      · cases h
      next qs stop' hrest =>
        simp only [Except.ok.injEq, Prod.mk.injEq] at h
        obtain ⟨rfl, rfl⟩ := h
        rw [sectionsEnd_cons] at hlo hhi ⊢
        have hle := le_sectionsEnd before (start + b.tiles * b.tile)
        have hout := not_ownedIn_of_within (b.tileParts_within start (b.take_le hus hm))
          (Or.inr (hle.trans hlo))
        rw [ownedIn_append, or_iff_right hout, ih hrest hlo hhi]

theorem countP_range_between (a k n : Nat) :
    (List.range n).countP (fun m => decide (a ≤ m ∧ m < a + k)) = min n (a + k) - min n a := by
  induction n with
  | zero => simp
  | succ n ih =>
    rw [List.range_succ, List.countP_append, ih, List.countP_singleton]
    by_cases h : a ≤ n ∧ n < a + k
    · rw [if_pos (by simpa using h)]
      omega
    · rw [if_neg (by simpa using h)]
      omega

/-- A unit of a section the width divides is taken by one member, and one of a section it is a
multiple of by `width / units` of them. -/
theorem ShardSection.takers {s : ShardSection} {width u : Nat} (hw : 0 < width)
    (hsome : ∀ m < width, (s.take width m).isSome) (hu : u < s.units) :
    (List.range width).countP (fun m => decide (∃ us, s.take width m = some us ∧
        us.begin ≤ u ∧ u < us.begin + us.count)) =
      if s.units % width = 0 then 1 else width / s.units := by
  split
  next hdiv =>
    have hmul := Nat.mul_div_cancel' (Nat.dvd_of_mod_eq_zero hdiv)
    have hc : 0 < s.units / width := by
      by_contra hc
      rw [Nat.eq_zero_of_not_pos hc, Nat.mul_zero] at hmul
      omega
    have hq : u / (s.units / width) < width := by
      rw [Nat.div_lt_iff_lt_mul hc, hmul]
      exact hu
    calc _ = (List.range width).countP (fun m => decide (u / (s.units / width) ≤ m ∧
              m < u / (s.units / width) + 1)) := by
          apply List.countP_congr
          intro m _
          simp only [take, hdiv, if_true, Option.some.injEq, exists_eq_left', decide_eq_true_eq]
          rw [Nat.div_le_iff_le_mul_add_pred hc, Nat.lt_add_one_iff, Nat.le_div_iff_mul_le hc,
            Nat.mul_comm (s.units / width)]
          omega
      _ = 1 := by
          rw [countP_range_between]
          omega
  next hdiv =>
    have hrep : s.replicate = true ∧ s.units ≠ 0 ∧ width % s.units = 0 := by
      have h0 := hsome 0 hw
      unfold take at h0
      rw [if_neg hdiv] at h0
      by_contra hno
      rw [if_neg hno] at h0
      cases h0
    have hmul := Nat.mul_div_cancel' (Nat.dvd_of_mod_eq_zero hrep.2.2)
    have hk : 0 < width / s.units := by
      by_contra hk
      rw [Nat.eq_zero_of_not_pos hk, Nat.mul_zero] at hmul
      omega
    have hlast : u * (width / s.units) + width / s.units ≤ width := by
      calc u * (width / s.units) + width / s.units ≤ s.units * (width / s.units) := tile_le_tiles _ hu
        _ = width := hmul
    calc _ = (List.range width).countP (fun m => decide (u * (width / s.units) ≤ m ∧
              m < u * (width / s.units) + width / s.units)) := by
          apply List.countP_congr
          intro m _
          rw [take, if_neg hdiv, if_pos hrep]
          simp only [Option.some.injEq, exists_eq_left', decide_eq_true_eq]
          rw [Nat.div_le_iff_le_mul_add_pred hk, Nat.lt_add_one_iff, Nat.le_div_iff_mul_le hk,
            Nat.mul_comm (width / s.units)]
          omega
      _ = width / s.units := by
          rw [countP_range_between]
          omega

theorem ShardRole.owners_one {role : ShardRole} {r : Nat} (hr : r < role.extent) :
    role.owners 1 r = [0] := by
  have hps : role.parts 1 0 = .ok [⟨⟨0, role.extent⟩, ⟨0, role.extent⟩⟩] := by simp [parts]
  have howns : role.owns 1 0 r = true := by
    rw [role.owns_iff hps]
    exact ⟨_, List.mem_singleton_self _, by dsimp only; omega⟩
  simp [owners, List.range_one, howns]

theorem ShardRole.parts_sections {role : ShardRole} {width member : Nat} {ps : List ShardPart}
    (h : role.parts width member = .ok ps) (hw : width ≠ 1) (haxis : role.axis ≠ .none) :
    role.sectionParts width member role.sections 0 = .ok (ps, role.extent) := by
  unfold parts at h
  split at h
  · cases h
  · split at h
    next hwhole =>
      rcases hwhole with hwhole | hwhole
      · exact absurd hwhole haxis
      · exact absurd hwhole hw
    next =>
      split at h
      · cases h
      next qs stop hqs =>
        split at h
        · cases h
        next hstop =>
          obtain rfl := Except.ok.inj h
          rw [hqs, show stop = role.extent by omega]

/-- Each row or column has one owner where its section's units are divided, and `width / units` of
them where they are repeated. -/
theorem ShardRole.owners_length {role : ShardRole} {width : Nat} (hw : 1 < width)
    (haxis : role.axis ≠ .none) (hparts : ∀ m < width, ∃ ps, role.parts width m = .ok ps)
    {before after : List ShardSection} {s : ShardSection}
    (hsections : role.sections = before ++ s :: after) {r : Nat}
    (hlo : sectionsEnd before 0 ≤ r) (hhi : r < sectionsEnd before 0 + s.tiles * s.tile) :
    (role.owners width r).length = if s.units % width = 0 then 1 else width / s.units := by
  have hsection : ∀ m < width, ∃ ps, role.parts width m = .ok ps ∧
      role.sectionParts width m (before ++ s :: after) 0 = .ok (ps, role.extent) := by
    intro m hm
    obtain ⟨ps, hps⟩ := hparts m hm
    exact ⟨ps, hps, hsections ▸ role.parts_sections hps (by omega) haxis⟩
  have hsome : ∀ m < width, (s.take width m).isSome := by
    intro m hm
    obtain ⟨ps, -, hps⟩ := hsection m hm
    exact (sectionParts_ok hps).2 s (by simp)
  have hpos : 0 < s.tiles * s.tile := by omega
  have htile : 0 < s.tile := Nat.pos_of_mul_pos_left hpos
  have hunit : 0 < s.unit := Nat.pos_of_mul_pos_left htile
  have hu : (r - sectionsEnd before 0) % s.tile / s.unit < s.units := by
    rw [Nat.div_lt_iff_lt_mul hunit]
    exact Nat.mod_lt _ htile
  rw [owners, ← List.countP_eq_length_filter, ← s.takers (by omega) hsome hu]
  apply List.countP_congr
  intro m hm
  obtain ⟨ps, hps, hin⟩ := hsection m (List.mem_range.mp hm)
  rw [role.owns_iff hps, role.sectionParts_owned (List.mem_range.mp hm) hin hlo hhi,
    decide_eq_true_eq]

/-- The members that own a row are those that take its unit. -/
theorem ShardRole.owners_eq_of_unit {role : ShardRole} {width : Nat} (hw : width ≠ 1)
    (haxis : role.axis ≠ .none) (hparts : ∀ m < width, ∃ ps, role.parts width m = .ok ps)
    {before after : List ShardSection} {s : ShardSection}
    (hsections : role.sections = before ++ s :: after) {r r' : Nat}
    (hlo : sectionsEnd before 0 ≤ r) (hhi : r < sectionsEnd before 0 + s.tiles * s.tile)
    (hlo' : sectionsEnd before 0 ≤ r') (hhi' : r' < sectionsEnd before 0 + s.tiles * s.tile)
    (hunit : (r - sectionsEnd before 0) % s.tile / s.unit =
      (r' - sectionsEnd before 0) % s.tile / s.unit) :
    role.owners width r = role.owners width r' := by
  apply List.filter_congr
  intro m hm
  obtain ⟨ps, hps⟩ := hparts m (List.mem_range.mp hm)
  have hin := hsections ▸ role.parts_sections hps hw haxis
  rw [Bool.eq_iff_iff, role.owns_iff hps, role.owns_iff hps,
    role.sectionParts_owned (List.mem_range.mp hm) hin hlo hhi,
    role.sectionParts_owned (List.mem_range.mp hm) hin hlo' hhi', hunit]

/-- The section a row of the axis is in. -/
theorem sections_split {sections : List ShardSection} {start r : Nat} (hlo : start ≤ r)
    (hhi : r < sectionsEnd sections start) :
    ∃ before s after, sections = before ++ s :: after ∧ sectionsEnd before start ≤ r ∧
      r < sectionsEnd before start + s.tiles * s.tile := by
  induction sections generalizing start with
  | nil =>
    rw [sectionsEnd_nil] at hhi
    omega
  | cons s rest ih =>
    by_cases hin : r < start + s.tiles * s.tile
    · exact ⟨[], s, rest, rfl, hlo, hin⟩
    · obtain ⟨before, q, after, hsplit, h₁, h₂⟩ :=
        ih (show start + s.tiles * s.tile ≤ r by omega) hhi
      exact ⟨s :: before, q, after, by rw [hsplit, List.cons_append], h₁, h₂⟩

/-- Every row or column of an axis that is split has an owner. -/
theorem ShardRole.exists_owner {role : ShardRole} {width r : Nat}
    (hparts : ∀ m < width, ∃ ps, role.parts width m = .ok ps) (hw : 0 < width)
    (hr : r < role.extent) : ∃ m < width, role.owns width m r = true := by
  obtain ⟨ps, hps⟩ := hparts 0 hw
  by_cases hwhole : role.axis = .none ∨ width = 1
  · refine ⟨0, hw, ?_⟩
    rw [role.owns_iff hps, role.parts_whole hps hwhole]
    exact ⟨_, List.mem_singleton_self _, by dsimp only; omega⟩
  · have haxis : role.axis ≠ .none := fun h => hwhole (Or.inl h)
    have hne : width ≠ 1 := fun h => hwhole (Or.inr h)
    have hend := (sectionParts_ok (role.parts_sections hps hne haxis)).1
    obtain ⟨before, s, after, hsplit, h₁, h₂⟩ := sections_split (Nat.zero_le r) (hend ▸ hr)
    have hlen := role.owners_length (by omega) haxis hparts hsplit h₁ h₂
    have hpos : 0 < (role.owners width r).length := by
      rw [hlen]
      split
      · omega
      next hdiv =>
        have hsome := (sectionParts_ok (hsplit ▸ role.parts_sections hps hne haxis)).2 s (by simp)
        have hrep : s.units ≠ 0 ∧ width % s.units = 0 := by
          unfold ShardSection.take at hsome
          rw [if_neg hdiv] at hsome
          by_contra hno
          rw [if_neg (fun h => hno h.2)] at hsome
          cases hsome
        exact Nat.div_pos (Nat.le_of_dvd hw (Nat.dvd_of_mod_eq_zero hrep.2)) (by omega)
    obtain ⟨m, hm⟩ := List.exists_mem_of_length_pos hpos
    obtain ⟨hm, howns⟩ := List.mem_filter.mp hm
    exact ⟨m, List.mem_range.mp hm, howns⟩

end Llmx
