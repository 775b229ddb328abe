import Llmx.Tiling
import Mathlib.Algebra.Order.Group.Nat
import Mathlib.Data.List.Count

namespace Llmx

/-- The axis a role splits along over a tensor group's members. -/
inductive ShardAxis where
  | none
  | rows
  | columns
deriving DecidableEq, Repr

/-- A run of the axis: `tiles` tiles of `units` units of `unit` rows or columns. -/
structure ShardSection where
  units : Nat
  unit : Nat
  tiles : Nat
  what : String
  replicate : Bool
  align : Nat
deriving DecidableEq, Repr

inductive RoleKind where
  | norm
  | matrix
  | gather
  | experts
  | table
  | source
deriving DecidableEq, Repr

/-- A tensor the model reads, with how it splits. -/
structure ShardRole where
  name : String
  kind : RoleKind
  input : Nat
  out : Nat
  experts : Nat
  firstRow : Nat
  tensorRows : Nat
  tensor : Option Nat
  axis : ShardAxis
  sections : List ShardSection
deriving DecidableEq, Repr

/-- A run of a role's axis, in rows or columns. -/
structure ShardSpan where
  begin : Nat
  count : Nat
deriving DecidableEq, Repr

/-- A member's part of one tile: what it owns and the run it holds, which covers it. -/
structure ShardPart where
  own : ShardSpan
  cover : ShardSpan
deriving DecidableEq, Repr

/-- The length of a role's axis. -/
def ShardRole.extent (role : ShardRole) : Nat :=
  if role.axis = .columns then role.input
  else role.out * (if role.experts ≠ 0 then role.experts else 1)

def ShardSection.tile (s : ShardSection) : Nat := s.units * s.unit

/-- The units of section `s` member `member` of `width` takes. -/
def ShardSection.take (s : ShardSection) (width member : Nat) : Option ShardSpan :=
  if s.units % width = 0 then
    some ⟨member * (s.units / width), s.units / width⟩
  else if s.replicate = true ∧ s.units ≠ 0 ∧ width % s.units = 0 then
    some ⟨member / (width / s.units), 1⟩
  else none

def indivisible (role : ShardRole) (s : ShardSection) (width : Nat) : String :=
  "inference: a tensor width of " ++ toString width ++ " does not divide the " ++ toString s.units ++
    " " ++ s.what ++ " of " ++ role.name ++ (if s.replicate then ", nor is a multiple of them" else "")

/-- The part in each tile of section `s`, which starts at `start`, of a member that takes `units`. -/
def ShardSection.tileParts (s : ShardSection) (units : ShardSpan) (start : Nat) : List ShardPart :=
  let lo := units.begin * s.unit
  let hi := lo + units.count * s.unit
  let a := if s.align ≠ 0 then s.align else 1
  let first := lo / a * a
  let last := min s.tile ((hi + a - 1) / a * a)
  (List.range s.tiles).map fun t =>
    ⟨⟨start + t * s.tile + lo, hi - lo⟩, ⟨start + t * s.tile + first, last - first⟩⟩

/-- The parts in `sections` from `start`, and where the sections end. -/
def ShardRole.sectionParts (role : ShardRole) (width member : Nat) :
    List ShardSection → Nat → Except String (List ShardPart × Nat)
  | [], start => .ok ([], start)
  | s :: rest, start =>
    match s.take width member with
    | none => .error (indivisible role s width)
    | some units =>
      match role.sectionParts width member rest (start + s.tiles * s.tile) with
      | .error e => .error e
      | .ok (ps, stop) => .ok (s.tileParts units start ++ ps, stop)

/-- Member `member`'s parts of a role at `width`, one a tile of each section in order. -/
def ShardRole.parts (role : ShardRole) (width member : Nat) : Except String (List ShardPart) :=
  if width = 0 ∨ width ≤ member then
    .error ("shard: member " ++ toString member ++ " of a group of " ++ toString width)
  else if role.axis = .none ∨ width = 1 then
    .ok [⟨⟨0, role.extent⟩, ⟨0, role.extent⟩⟩]
  else
    match role.sectionParts width member role.sections 0 with
    | .error e => .error e
    | .ok (ps, stop) =>
      if stop ≠ role.extent then
        .error ("shard: the sections of " ++ role.name ++ " cover " ++ toString stop ++ " of its " ++
          toString role.extent)
      else .ok ps

/-- The spans after one more covered run, joined to the last where it follows it. -/
def joinSpan (out : List ShardSpan) (p : ShardPart) : List ShardSpan :=
  match out.getLast? with
  | none => out ++ [p.cover]
  | some back =>
    if back.begin + back.count = p.cover.begin then
      out.dropLast ++ [⟨back.begin, back.count + p.cover.count⟩]
    else out ++ [p.cover]

/-- The runs of the axis a member holds, with adjacent spans joined. -/
def ShardRole.spans (role : ShardRole) (width member : Nat) : Except String (List ShardSpan) :=
  match role.parts width member with
  | .error e => .error e
  | .ok ps => .ok (ps.foldl joinSpan [])

/-- Where `sections` end when they start at `start`. -/
def sectionsEnd (sections : List ShardSection) (start : Nat) : Nat :=
  sections.foldl (fun at' s => at' + s.tiles * s.tile) start

@[simp]
theorem sectionsEnd_nil {start : Nat} : sectionsEnd [] start = start := rfl

@[simp]
theorem sectionsEnd_cons {s : ShardSection} {rest : List ShardSection} {start : Nat} :
    sectionsEnd (s :: rest) start = sectionsEnd rest (start + s.tiles * s.tile) := rfl

theorem le_sectionsEnd (sections : List ShardSection) (start : Nat) :
    start ≤ sectionsEnd sections start := by
  induction sections generalizing start with
  | nil => simp
  | cons s rest ih =>
    have := ih (start + s.tiles * s.tile)
    rw [sectionsEnd_cons]
    omega

/-- The sections give parts where every one of them has units for the member. -/
theorem ShardRole.sectionParts_ok {role : ShardRole} {width member stop : Nat}
    {sections : List ShardSection} {start : Nat} {ps : List ShardPart}
    (h : role.sectionParts width member sections start = .ok (ps, stop)) :
    stop = sectionsEnd sections start ∧ ∀ s ∈ sections, (s.take width member).isSome := by
  induction sections generalizing start ps with
  | nil =>
    simp only [sectionParts, Except.ok.injEq, Prod.mk.injEq] at h
    exact ⟨h.2.symm, by simp⟩
  | cons s rest ih =>
    rw [sectionParts] at h
    split at h
    · cases h
    next units hunits =>
      split at h
      · cases h
      next qs stop' hrest =>
        simp only [Except.ok.injEq, Prod.mk.injEq] at h
        obtain ⟨rfl, rfl⟩ := h
        obtain ⟨hstop, hsome⟩ := ih hrest
        exact ⟨hstop, by simpa [hunits] using hsome⟩

/-- The units a member takes are the section's. -/
theorem ShardSection.take_le {s : ShardSection} {width member : Nat} {us : ShardSpan}
    (h : s.take width member = some us) (hm : member < width) : us.begin + us.count ≤ s.units := by
  unfold take at h
  split at h
  next hdiv =>
    obtain rfl := Option.some.inj h
    have hw := Nat.mul_div_cancel' (Nat.dvd_of_mod_eq_zero hdiv)
    calc member * (s.units / width) + s.units / width
        = (member + 1) * (s.units / width) := by rw [Nat.add_mul, Nat.one_mul]
      _ ≤ width * (s.units / width) := Nat.mul_le_mul_right _ hm
      _ = s.units := hw
  next =>
    split at h
    next hrep =>
      obtain rfl := Option.some.inj h
      have hw := Nat.div_mul_cancel (Nat.dvd_of_mod_eq_zero hrep.2.2)
      have hlt : member / (width / s.units) < s.units := by
        apply Nat.div_lt_of_lt_mul
        rw [hw]
        exact hm
      exact hlt
    · cases h

/-- The part owns a run inside the run it holds, which lies between `a` and `b`. -/
structure ShardPart.Within (p : ShardPart) (a b : Nat) : Prop where
  first : a ≤ p.cover.begin
  own_first : p.cover.begin ≤ p.own.begin
  own_last : p.own.begin + p.own.count ≤ p.cover.begin + p.cover.count
  last : p.cover.begin + p.cover.count ≤ b

theorem ShardPart.Within.mono {p : ShardPart} {a b a' b' : Nat} (h : p.Within a b) (ha : a' ≤ a)
    (hb : b ≤ b') : p.Within a' b' :=
  ⟨ha.trans h.first, h.own_first, h.own_last, h.last.trans hb⟩

/-- Rounding a run outwards to whole runs of `a` and cutting it at the tile keeps the run. -/
theorem widened_le {lo hi a tile : Nat} (ha : 0 < a) (hlo : lo ≤ hi) (hhi : hi ≤ tile) :
    lo / a * a ≤ lo ∧ hi ≤ min tile ((hi + a - 1) / a * a) ∧
      lo / a * a ≤ min tile ((hi + a - 1) / a * a) := by
  have hdown := Nat.div_mul_le_self lo a
  have hup : hi ≤ (hi + a - 1) / a * a := by
    have hdiv := Nat.div_add_mod (hi + a - 1) a
    have hmod := Nat.mod_lt (hi + a - 1) ha
    have hcomm : a * ((hi + a - 1) / a) = (hi + a - 1) / a * a := Nat.mul_comm _ _
    omega
  omega

theorem tile_le_tiles {t tiles : Nat} (tile : Nat) (h : t < tiles) : t * tile + tile ≤ tiles * tile := by
  calc t * tile + tile = (t + 1) * tile := by rw [Nat.add_mul, Nat.one_mul]
    _ ≤ tiles * tile := Nat.mul_le_mul_right _ h

theorem ShardSection.tileParts_within {s : ShardSection} {us : ShardSpan} (start : Nat)
    (hus : us.begin + us.count ≤ s.units) :
    ∀ p ∈ s.tileParts us start, p.Within start (start + s.tiles * s.tile) := by
  intro p hp
  unfold tileParts at hp
  obtain ⟨t, ht, rfl⟩ := List.mem_map.mp hp
  have htile := tile_le_tiles s.tile (List.mem_range.mp ht)
  have hhi : us.begin * s.unit + us.count * s.unit ≤ s.tile := by
    rw [← Nat.add_mul]
    exact Nat.mul_le_mul_right _ hus
  have ha : 0 < (if s.align ≠ 0 then s.align else 1) := by split <;> omega
  obtain ⟨hlow, hhigh, hlast⟩ := widened_le ha (Nat.le_add_right _ _) hhi
  constructor <;> dsimp only <;> omega

theorem ShardRole.sectionParts_within {role : ShardRole} {width member stop : Nat}
    (hm : member < width) {sections : List ShardSection} {start : Nat} {ps : List ShardPart}
    (h : role.sectionParts width member sections start = .ok (ps, stop)) :
    ∀ p ∈ ps, p.Within start stop := by
  induction sections generalizing start ps with
  | nil =>
    simp only [sectionParts, Except.ok.injEq, Prod.mk.injEq] at h
    simp [← h.1]
  | cons s rest ih =>
    have hstop := (sectionParts_ok h).1
    rw [sectionParts] at h
    split at h
    · cases h
    next units hunits =>
      split at h
      · cases h
      next qs stop' hrest =>
        simp only [Except.ok.injEq, Prod.mk.injEq] at h
        obtain ⟨rfl, rfl⟩ := h
        have hle := le_sectionsEnd rest (start + s.tiles * s.tile)
        rw [← sectionsEnd_cons, ← hstop] at hle
        intro p hp
        rcases List.mem_append.mp hp with hp | hp
        · exact (s.tileParts_within _ (s.take_le hunits hm) p hp).mono le_rfl hle
        · exact (ih hrest p hp).mono (Nat.le_add_right _ _) le_rfl

/-- One member, or any of a role that is not split, has the axis whole. -/
theorem ShardRole.parts_whole {role : ShardRole} {width member : Nat} {ps : List ShardPart}
    (h : role.parts width member = .ok ps) (hwhole : role.axis = .none ∨ width = 1) :
    ps = [⟨⟨0, role.extent⟩, ⟨0, role.extent⟩⟩] := by
  unfold parts at h
  split at h
  · cases h
  · exact (Except.ok.inj h).symm

/-- Every part of a role lies on its axis. -/
theorem ShardRole.parts_within {role : ShardRole} {width member : Nat} {ps : List ShardPart}
    (h : role.parts width member = .ok ps) : ∀ p ∈ ps, p.Within 0 role.extent := by
  unfold parts at h
  split at h
  · cases h
  next hm =>
    split at h
    · obtain rfl := Except.ok.inj h
      intro p hp
      obtain rfl := List.mem_singleton.mp hp
      constructor <;> dsimp only <;> omega
    next =>
      split at h
      · cases h
      next ps' stop hps =>
        split at h
        · cases h
        next hstop =>
          obtain rfl := Except.ok.inj h
          have hstop : stop = role.extent := by omega
          rw [← hstop]
          exact role.sectionParts_within (by omega) hps

theorem joinSpan_le {out : List ShardSpan} {p : ShardPart} {stop : Nat}
    (hout : ∀ s ∈ out, s.begin + s.count ≤ stop) (hp : p.cover.begin + p.cover.count ≤ stop) :
    ∀ s ∈ joinSpan out p, s.begin + s.count ≤ stop := by
  have hadd : ∀ s ∈ out ++ [p.cover], s.begin + s.count ≤ stop := by
    intro s hs
    rcases List.mem_append.mp hs with hs | hs
    · exact hout s hs
    · exact (List.mem_singleton.mp hs) ▸ hp
  unfold joinSpan
  split
  · exact hadd
  next back hback =>
    split
    next hnext =>
      intro s hs
      rcases List.mem_append.mp hs with hs | hs
      · exact hout s (List.dropLast_subset _ hs)
      · obtain rfl := List.mem_singleton.mp hs
        show back.begin + (back.count + p.cover.count) ≤ stop
        omega
    · exact hadd

/-- Every span of a role lies on its axis. -/
theorem ShardRole.spans_le {role : ShardRole} {width member : Nat} {ss : List ShardSpan}
    (h : role.spans width member = .ok ss) : ∀ s ∈ ss, s.begin + s.count ≤ role.extent := by
  unfold spans at h
  split at h
  · cases h
  next ps hps =>
    obtain rfl := Except.ok.inj h
    have hin := role.parts_within hps
    have hfold : ∀ (ps : List ShardPart) (out : List ShardSpan),
        (∀ p ∈ ps, p.cover.begin + p.cover.count ≤ role.extent) →
        (∀ s ∈ out, s.begin + s.count ≤ role.extent) →
        ∀ s ∈ ps.foldl joinSpan out, s.begin + s.count ≤ role.extent := by
      intro ps
      induction ps with
      | nil => exact fun out _ hout => hout
      | cons p ps ih =>
        intro out hps hout
        exact ih _ (fun q hq => hps q (List.mem_cons_of_mem _ hq))
          (joinSpan_le hout (hps p (by simp)))
    exact hfold ps [] (fun p hp => (hin p hp).last) (by simp)

end Llmx
