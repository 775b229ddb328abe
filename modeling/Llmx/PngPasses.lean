import Llmx.Fallible
import Llmx.PngLines
import Mathlib.Data.List.Nodup

namespace Llmx

namespace Png

open Fallible

/-- The pixels of a pass, line by line. -/
def Pass.places (ps : Pass) (w h : Nat) : List (Nat × Nat) :=
  (List.range (ps.rows h)).flatMap fun y =>
    (List.range (ps.columns w)).map fun x => (ps.x0 + x * ps.dx, ps.y0 + y * ps.dy)

/-- The pixels of an image, line by line. -/
def places (w h : Nat) : List (Nat × Nat) :=
  (List.range h).flatMap fun y => (List.range w).map fun x => (x, y)

/-- Whether a pass takes column `x` in steps of `d` from `x0` on. -/
def onGrid (x0 d x : Nat) : Prop := x0 ≤ x ∧ (x - x0) % d = 0

theorem lt_steps {x0 d w k : Nat} (hd : 0 < d) :
    (k < if x0 < w then (w - x0 + d - 1) / d else 0) ↔ x0 + k * d < w := by
  split
  next h =>
    rw [Nat.lt_iff_add_one_le, Nat.le_div_iff_mul_le hd, Nat.succ_mul]
    omega
  next h =>
    have : x0 ≤ x0 + k * d := Nat.le_add_right _ _
    omega

theorem onGrid_iff {x0 d x : Nat} : onGrid x0 d x ↔ ∃ k, x = x0 + k * d := by
  constructor
  · rintro ⟨hle, hmod⟩
    refine ⟨(x - x0) / d, ?_⟩
    have := Nat.div_add_mod (x - x0) d
    rw [hmod, Nat.mul_comm] at this
    omega
  · rintro ⟨k, rfl⟩
    refine ⟨Nat.le_add_right _ _, ?_⟩
    rw [Nat.add_sub_cancel_left, Nat.mul_mod_left]

theorem mem_passPlaces {ps : Pass} (hx : 0 < ps.dx) (hy : 0 < ps.dy) {w h x y : Nat} :
    (x, y) ∈ ps.places w h ↔
      x < w ∧ y < h ∧ onGrid ps.x0 ps.dx x ∧ onGrid ps.y0 ps.dy y := by
  unfold Pass.places Pass.rows Pass.columns
  simp only [List.mem_flatMap, List.mem_range, List.mem_map, Prod.mk.injEq, lt_steps hx,
    lt_steps hy]
  constructor
  · rintro ⟨b, hb, a, ha, rfl, rfl⟩
    exact ⟨ha, hb, onGrid_iff.mpr ⟨a, rfl⟩, onGrid_iff.mpr ⟨b, rfl⟩⟩
  · rintro ⟨hxw, hyh, hgx, hgy⟩
    obtain ⟨a, rfl⟩ := onGrid_iff.mp hgx
    obtain ⟨b, rfl⟩ := onGrid_iff.mp hgy
    exact ⟨b, hyh, a, hxw, rfl, rfl⟩

theorem passPlaces_nodup {ps : Pass} (hx : 0 < ps.dx) (hy : 0 < ps.dy) (w h : Nat) :
    (ps.places w h).Nodup := by
  apply List.nodup_flatMap.mpr
  refine ⟨fun y _ => ?_, ?_⟩
  · apply List.nodup_range.map
    intro a b hab
    have heq : a * ps.dx = b * ps.dx := by
      have := (Prod.mk.inj hab).1
      omega
    exact Nat.eq_of_mul_eq_mul_right hx heq
  · apply List.nodup_range.imp
    intro b b' hne
    show List.Disjoint _ _
    intro p hp hp'
    obtain ⟨a, -, rfl⟩ := List.mem_map.mp hp
    obtain ⟨a', -, heq⟩ := List.mem_map.mp hp'
    have heq : b' * ps.dy = b * ps.dy := by
      have := (Prod.mk.inj heq).2
      omega
    exact hne (Nat.eq_of_mul_eq_mul_right hy heq).symm

theorem mem_places {w h x y : Nat} : (x, y) ∈ places w h ↔ x < w ∧ y < h := by
  unfold places
  simp only [List.mem_flatMap, List.mem_range, List.mem_map, Prod.mk.injEq]
  constructor
  · rintro ⟨b, hb, a, ha, rfl, rfl⟩
    exact ⟨ha, hb⟩
  · rintro ⟨hx, hy⟩
    exact ⟨y, hy, x, hx, rfl, rfl⟩

theorem places_nodup (w h : Nat) : (places w h).Nodup := by
  apply List.nodup_flatMap.mpr
  refine ⟨fun y _ => ?_, ?_⟩
  · exact List.nodup_range.map fun a b hab => (Prod.mk.inj hab).1
  · apply List.nodup_range.imp
    intro b b' hne
    show List.Disjoint _ _
    intro p hp hp'
    obtain ⟨a, -, rfl⟩ := List.mem_map.mp hp
    obtain ⟨a', -, heq⟩ := List.mem_map.mp hp'
    exact hne (Prod.mk.inj heq).2.symm

theorem passes_pos {hd : Header} {ps : Pass} (h : ps ∈ hd.passes) : 0 < ps.dx ∧ 0 < ps.dy := by
  unfold Header.passes at h
  split at h
  next =>
    simp only [adam7, List.mem_cons, List.not_mem_nil, or_false] at h
    rcases h with rfl | rfl | rfl | rfl | rfl | rfl | rfl <;> decide
  next =>
    rw [List.mem_singleton.mp h]
    decide

/-- Two passes take no pixel both. -/
theorem passes_apart (hd : Header) (w h : Nat) :
    hd.passes.Pairwise fun a b => List.Disjoint (a.places w h) (b.places w h) := by
  unfold Header.passes
  split
  next =>
    have happart : adam7.Pairwise fun a b => ∀ x y, onGrid a.x0 a.dx x → onGrid a.y0 a.dy y →
        onGrid b.x0 b.dx x → onGrid b.y0 b.dy y → False := by
      simp only [adam7, List.pairwise_cons, List.mem_cons, List.not_mem_nil, or_false,
        forall_eq_or_imp, forall_eq, onGrid]
      refine ⟨?_, ?_, ?_, ?_, ?_, ?_, ?_, List.Pairwise.nil⟩ <;>
        (repeat' apply And.intro) <;> intros <;> first | contradiction | omega
    have hpos : ∀ ps ∈ adam7, 0 < ps.dx ∧ 0 < ps.dy := by decide
    refine List.Pairwise.imp_of_mem (fun {a b} ha hb hab => ?_) happart
    rintro ⟨x, y⟩ hxa hxb
    obtain ⟨-, -, hax, hay⟩ := (mem_passPlaces (hpos a ha).1 (hpos a ha).2).mp hxa
    obtain ⟨-, -, hbx, hby⟩ := (mem_passPlaces (hpos b hb).1 (hpos b hb).2).mp hxb
    exact hab x y hax hay hbx hby
  next => exact List.pairwise_singleton _ _

/-- Every pixel is on the grid of a pass. -/
theorem passes_cover (hd : Header) (x y : Nat) :
    ∃ ps ∈ hd.passes, onGrid ps.x0 ps.dx x ∧ onGrid ps.y0 ps.dy y := by
  unfold Header.passes
  split
  next =>
    simp only [adam7, List.mem_cons, List.not_mem_nil, or_false, exists_eq_or_imp,
      exists_eq_left, onGrid]
    omega
  next => exact ⟨_, List.mem_singleton_self _, ⟨Nat.zero_le _, Nat.mod_one _⟩,
    ⟨Nat.zero_le _, Nat.mod_one _⟩⟩

/-- The passes of an image take every pixel once. -/
theorem passes_perm (hd : Header) (w h : Nat) :
    (hd.passes.flatMap fun ps => ps.places w h).Perm (places w h) := by
  apply (List.perm_ext_iff_of_nodup ?_ (places_nodup w h)).mpr
  · rintro ⟨x, y⟩
    rw [List.mem_flatMap, mem_places]
    constructor
    · rintro ⟨ps, hps, hmem⟩
      obtain ⟨hx, hy⟩ := passes_pos hps
      obtain ⟨hxw, hyh, -⟩ := (mem_passPlaces hx hy).mp hmem
      exact ⟨hxw, hyh⟩
    · rintro ⟨hxw, hyh⟩
      obtain ⟨ps, hps, hgx, hgy⟩ := passes_cover hd x y
      obtain ⟨hx, hy⟩ := passes_pos hps
      exact ⟨ps, hps, (mem_passPlaces hx hy).mpr ⟨hxw, hyh, hgx, hgy⟩⟩
  · apply List.nodup_flatMap.mpr
    refine ⟨fun ps hps => ?_, passes_apart hd w h⟩
    obtain ⟨hx, hy⟩ := passes_pos hps
    exact passPlaces_nodup hx hy w h

section Drawn

variable {m : Image} {ch : Choices}

/-- The pixels of a pass with their RGB. -/
def Image.passPixels (m : Image) (ps : Pass) : List Write :=
  (ps.places m.header.w m.header.h).map fun p => ⟨p.1, p.2, m.rgb p.1 p.2⟩

theorem linesWrites_lines (hm : m.Valid) (ps : Pass) (rows y : Nat) :
    m.header.linesWrites (paletteBytes m.palette) ps y ((List.range' y rows).map (m.line ch ps)) =
      .ok (((List.range' y rows).flatMap fun y => (List.range (ps.columns m.header.w)).map fun x =>
        (ps.x0 + x * ps.dx, ps.y0 + y * ps.dy)).map fun p => ⟨p.1, p.2, m.rgb p.1 p.2⟩) := by
  induction rows generalizing y with
  | zero => rfl
  | succ rows ih =>
    have hline : m.header.lineWrites (paletteBytes m.palette) ps y (m.line ch ps y) =
        .ok ((List.range (ps.columns m.header.w)).map fun x =>
          ⟨ps.x0 + x * ps.dx, ps.y0 + y * ps.dy,
            m.rgb (ps.x0 + x * ps.dx) (ps.y0 + y * ps.dy)⟩) := by
      apply mapM_ok
      intro x hx
      rw [pixel_line hm y (List.mem_range.mp hx)]
      rfl
    rw [List.range'_succ, List.map_cons, List.flatMap_cons, List.map_append, List.map_map]
    unfold Header.linesWrites
    rw [hline]
    show (m.header.linesWrites _ ps (y + 1) _).bind _ = _
    rw [ih]
    rfl

theorem passData_length (m : Image) (ch : Choices) (ps : Pass) :
    (m.passData ch ps).length = m.header.passBytes ps := by
  unfold Image.passData Header.passBytes
  by_cases h : ps.columns m.header.w = 0 ∨ ps.rows m.header.h = 0
  · rw [if_pos h, if_neg (by tauto)]
    rfl
  · rw [if_neg h, if_pos (by tauto), lines_length]

/-- The inflated bytes are as many as the header asks for. -/
theorem data_length (m : Image) (ch : Choices) : (m.data ch).length = m.header.expected := by
  unfold Image.data Header.expected
  induction m.header.passes with
  | nil => rfl
  | cons ps rest ih =>
    rw [List.flatMap_cons, List.length_append, ih, passData_length, List.map_cons, List.sum_cons]

theorem places_empty {ps : Pass} {w h : Nat} (he : ps.columns w = 0 ∨ ps.rows h = 0) :
    ps.places w h = [] := by
  unfold Pass.places
  rcases he with he | he
  · rw [he]
    exact List.flatMap_eq_nil_iff.mpr fun _ _ => rfl
  · rw [he]
    rfl

/-- The passes' data give every pixel of theirs, whatever follows. -/
theorem passWrites_data (hm : m.Valid) (hfilter : ∀ ps y, ch.filter ps y ≤ 4) (passes : List Pass)
    (rest : Bytes) :
    m.header.passWrites (paletteBytes m.palette) passes (passes.flatMap (m.passData ch) ++ rest) =
      .ok (passes.flatMap m.passPixels) := by
  induction passes with
  | nil => rfl
  | cons ps passes ih =>
    have hlen := passData_length m ch ps
    unfold Header.passWrites
    split
    next he =>
      have hdata : m.passData ch ps = [] := if_pos he
      have hpixels : m.passPixels ps = [] := by
        unfold Image.passPixels
        rw [places_empty he]
        rfl
      rw [List.flatMap_cons, List.flatMap_cons, hdata, hpixels]
      exact ih
    next he =>
      have hdata : m.passData ch ps = m.lines ch ps (ps.rows m.header.h) 0 [] := if_neg he
      have hbytes : m.header.passBytes ps = ps.rows m.header.h * (m.header.stride ps + 1) :=
        if_pos (by tauto)
      have hlines : unfilter (m.header.stride ps) m.header.bpp (ps.rows m.header.h) none
          (m.lines ch ps (ps.rows m.header.h) 0 [] ++ (passes.flatMap (m.passData ch) ++ rest)) =
          .ok ((List.range' 0 (ps.rows m.header.h)).map (m.line ch ps)) :=
        unfilter_lines hfilter (ps.rows m.header.h) 0 none _
      rw [← hdata] at hlines
      rw [List.flatMap_cons, List.flatMap_cons, List.append_assoc, hlines]
      show (m.header.linesWrites _ ps 0 _).bind _ = _
      rw [linesWrites_lines hm]
      show (m.header.passWrites _ passes _).bind _ = _
      rw [← hbytes, ← hlen, List.drop_left, ih, ← List.range_eq_range']
      rfl

end Drawn

end Png

end Llmx
