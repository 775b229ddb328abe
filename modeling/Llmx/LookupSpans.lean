import Llmx.LookupRows
import Llmx.Fallible

namespace Llmx

namespace WeightRows

open Fallible

section Gathering

variable {ids pre order : List Nat} {g : Gathered}

/-- The places `pre` gathered: their ids once each, ascending, and which of them each place has. -/
structure Gathers (ids : List Nat) (g : Gathered) (pre : List Nat) : Prop where
  increasing : g.unique.Pairwise (· < ·)
  own : ∀ x ∈ g.unique, ∃ i ∈ pre, ids.getD i 0 = x
  remap : ∀ i ∈ pre, g.unique[g.remap i]? = some (ids.getD i 0)

theorem getLast?_of_greatest {l : List Nat} {x : Nat} (hl : l.Pairwise (· < ·)) (hx : x ∈ l)
    (hle : ∀ y ∈ l, y ≤ x) : l.getLast? = some x := by
  have hne := List.ne_nil_of_mem hx
  have hlast := List.getLast_mem hne
  rw [List.getLast?_eq_some_getLast hne]
  refine congrArg some (Nat.le_antisymm (hle _ hlast) ?_)
  obtain ⟨i, hi, rfl⟩ := List.mem_iff_getElem.mp hx
  rw [List.getLast_eq_getElem]
  by_cases hend : i = l.length - 1
  · subst hend
    exact Nat.le_refl _
  · exact Nat.le_of_lt (List.pairwise_iff_getElem.mp hl i (l.length - 1) hi (by omega) (by omega))

theorem Gathers.one (h : Gathers ids g pre) {i : Nat} (hi : i ∉ pre)
    (hle : ∀ j ∈ pre, ids.getD j 0 ≤ ids.getD i 0) :
    Gathers ids (gatherOne ids g i) (i :: pre) := by
  have hat : ∀ (unique : List Nat) j, j ∈ pre →
      Function.update g.remap i (unique.length - 1) j = g.remap j := by
    intro unique j hj
    have hne : j ≠ i := by
      intro heq
      rw [heq] at hj
      exact hi hj
    exact Function.update_of_ne hne _ _
  unfold gatherOne
  by_cases hlast : g.unique.getLast? = some (ids.getD i 0)
  · rw [if_pos hlast]
    refine ⟨h.increasing, fun x hx => ?_, fun j hj => ?_⟩
    · obtain ⟨j, hj, hx⟩ := h.own x hx
      exact ⟨j, List.mem_cons_of_mem i hj, hx⟩
    · dsimp only
      rcases List.mem_cons.mp hj with rfl | hj
      · rw [Function.update_self, ← List.getLast?_eq_getElem?]
        exact hlast
      · rw [hat _ j hj]
        exact h.remap j hj
  · rw [if_neg hlast]
    have hall : ∀ y ∈ g.unique, y ≤ ids.getD i 0 := by
      intro y hy
      obtain ⟨j, hj, rfl⟩ := h.own y hy
      exact hle j hj
    refine ⟨?_, fun x hx => ?_, fun j hj => ?_⟩
    · refine List.pairwise_append.mpr ⟨h.increasing, List.pairwise_singleton _ _, ?_⟩
      intro y hy x hx
      rw [List.mem_singleton.mp hx]
      have hne : y ≠ ids.getD i 0 := by
        intro heq
        rw [heq] at hy
        exact hlast (getLast?_of_greatest h.increasing hy hall)
      have := hall y hy
      omega
    · rcases List.mem_append.mp hx with hx | hx
      · obtain ⟨j, hj, hx⟩ := h.own x hx
        exact ⟨j, List.mem_cons_of_mem i hj, hx⟩
      · exact ⟨i, List.mem_cons_self, (List.mem_singleton.mp hx).symm⟩
    · dsimp only
      rcases List.mem_cons.mp hj with rfl | hj
      · rw [Function.update_self, List.length_append, List.length_singleton, Nat.add_sub_cancel,
          List.getElem?_append_right (Nat.le_refl _), Nat.sub_self]
        exact Eq.refl _
      · rw [hat _ j hj, List.getElem?_append_left]
        · exact h.remap j hj
        · exact (List.getElem?_eq_some_iff.mp (h.remap j hj)).1

theorem Gathers.all (h : Gathers ids g pre) (hnodup : order.Nodup)
    (hout : ∀ i ∈ order, i ∉ pre)
    (hsorted : order.Pairwise fun a b => ids.getD a 0 ≤ ids.getD b 0)
    (hle : ∀ j ∈ pre, ∀ i ∈ order, ids.getD j 0 ≤ ids.getD i 0) :
    Gathers ids (gather ids g order) (order.reverse ++ pre) := by
  induction order generalizing g pre with
  | nil => exact h
  | cons i order ih =>
    obtain ⟨hi, hnodup⟩ := List.nodup_cons.mp hnodup
    obtain ⟨hfirst, hsorted⟩ := List.pairwise_cons.mp hsorted
    have hone := h.one (hout i List.mem_cons_self) fun j hj => hle j hj i List.mem_cons_self
    rw [List.reverse_cons, List.append_assoc, List.singleton_append]
    refine ih hone hnodup (fun j hj => ?_) hsorted fun j hj k hk => ?_
    · intro hmem
      rcases List.mem_cons.mp hmem with rfl | hmem
      · exact hi hj
      · exact hout j (List.mem_cons_of_mem i hj) hmem
    · rcases List.mem_cons.mp hj with rfl | hj
      · exact hfirst k hk
      · exact hle j hj k (List.mem_cons_of_mem i hk)

/-- What the order a sort leaves gathers: every request's id, and no other. -/
theorem gather_sorted (h : Sorts ids order) (remap : Nat → Nat) :
    (gather ids ⟨[], remap⟩ order).unique.Pairwise (· < ·) ∧
      (∀ x ∈ (gather ids ⟨[], remap⟩ order).unique, x ∈ ids) ∧
        ∀ i < ids.length, (gather ids ⟨[], remap⟩ order).unique[
          (gather ids ⟨[], remap⟩ order).remap i]? = ids[i]? := by
  obtain ⟨hperm, hsorted⟩ := h
  have hmem : ∀ i, i ∈ order ↔ i < ids.length := fun i => hperm.mem_iff.trans List.mem_range
  have hstart : Gathers ids ⟨[], remap⟩ [] := by
    refine ⟨List.Pairwise.nil, fun x hx => absurd hx List.not_mem_nil,
      fun i hi => absurd hi List.not_mem_nil⟩
  have hall := hstart.all (hperm.nodup_iff.mpr List.nodup_range) (fun i _ => List.not_mem_nil)
    hsorted fun j hj => absurd hj List.not_mem_nil
  rw [List.append_nil] at hall
  have hget : ∀ i < ids.length, ids[i]? = some (ids.getD i 0) := by
    intro i hi
    rw [List.getD_eq_getElem?_getD, List.getElem?_eq_getElem hi, Option.getD_some]
  refine ⟨hall.increasing, fun x hx => ?_, fun i hi => ?_⟩
  · obtain ⟨i, hi, rfl⟩ := hall.own x hx
    exact List.mem_of_getElem? (hget i ((hmem i).mp (List.mem_reverse.mp hi)))
  · rw [hall.remap i (List.mem_reverse.mpr ((hmem i).mpr hi)), hget i hi]

end Gathering

section Spans

variable {t : Table} {unique : List Nat} {held : List Bool}

theorem spanEnd_spec (held : List Bool) {stop : Nat} (hstop : stop ≤ unique.length) :
    spanEnd unique held stop ≤ unique.length ∧ ∀ j, stop ≤ j → j < spanEnd unique held stop →
      held.getD j false = false ∧
        unique.getD j 0 = (unique.getD (j - 1) 0 + 1) % 2 ^ 32 := by
  fun_induction spanEnd unique held stop with
  | case1 stop h ih =>
    obtain ⟨hlt, hheld, hnext⟩ := h
    obtain ⟨hle, hall⟩ := ih hlt
    refine ⟨hle, fun j hj hjlt => ?_⟩
    by_cases hfirst : j = stop
    · subst hfirst
      exact ⟨hheld, hnext⟩
    · exact hall j (by omega) hjlt
  | case2 stop h => exact ⟨hstop, fun j hj hlt => by omega⟩

/-- A span of the missing ids from the `a`-th to before the `e`-th. -/
structure SpanOf (t : Table) (unique : List Nat) (held : List Bool) (a e : Nat) (s : Span) :
    Prop where
  lt : a < e
  le : e ≤ unique.length
  source : s.source = t.offset + unique.getD a 0 * t.rowBytes
  place : s.place = a * t.rowBytes
  bytes : s.bytes = (e - a) * t.rowBytes
  missing : ∀ j, a ≤ j → j < e → held.getD j false = false
  next : ∀ j, a ≤ j → j < e → unique.getD j 0 = unique.getD a 0 + (j - a)

theorem spanOf_first (hsmall : ∀ x ∈ unique, x < 2 ^ 32) (hinc : unique.Pairwise (· < ·)) {i : Nat}
    (hi : i < unique.length) (hheld : held.getD i false = false) :
    SpanOf t unique held i (spanEnd unique held (i + 1))
      ⟨t.offset + unique.getD i 0 * t.rowBytes, i * t.rowBytes,
        (spanEnd unique held (i + 1) - i) * t.rowBytes⟩ := by
  obtain ⟨hle, hall⟩ := spanEnd_spec held (show i + 1 ≤ unique.length from hi)
  have hge := le_spanEnd unique held (i + 1)
  have hget : ∀ j (hj : j < unique.length), unique.getD j 0 = unique[j] := by
    intro j hj
    rw [List.getD_eq_getElem?_getD, List.getElem?_eq_getElem hj, Option.getD_some]
  refine ⟨by omega, hle, Eq.refl _, Eq.refl _, Eq.refl _, fun j hj hlt => ?_, fun j hj hlt => ?_⟩
  · by_cases hfirst : j = i
    · rw [hfirst]
      exact hheld
    · exact (hall j (by omega) hlt).1
  · induction j with
    | zero =>
      obtain rfl : i = 0 := by omega
      exact Eq.refl _
    | succ j ih =>
      by_cases hfirst : j + 1 = i
      · rw [hfirst, Nat.sub_self]
        exact Eq.refl _
      · have hprev := ih (by omega) (by omega)
        have hnext := (hall (j + 1) (by omega) hlt).2
        have hlow := List.pairwise_iff_getElem.mp hinc j (j + 1) (by omega) (by omega)
          (Nat.lt_succ_self j)
        have htop := hsmall _ (List.getElem_mem (show j + 1 < unique.length by omega))
        rw [← hget j (by omega), ← hget (j + 1) (by omega)] at hlow
        rw [← hget (j + 1) (by omega)] at htop
        rw [Nat.add_sub_cancel, Nat.mod_eq_of_lt (by omega)] at hnext
        omega

/-- The spans are runs of missing ids, and each missing id is in one. -/
theorem spansFrom_spec (t : Table) (held : List Bool) (hsmall : ∀ x ∈ unique, x < 2 ^ 32) (hinc : unique.Pairwise (· < ·))
    (i : Nat) : (∀ s ∈ spansFrom t unique held i, ∃ a e, SpanOf t unique held a e s) ∧
      ∀ j, i ≤ j → j < unique.length → held.getD j false = false →
        ∃ s ∈ spansFrom t unique held i, ∃ a e, SpanOf t unique held a e s ∧ a ≤ j ∧ j < e := by
  fun_induction spansFrom t unique held i with
  | case1 i hi hheld ih =>
    refine ⟨ih.1, fun j hj hlt hmiss => ih.2 j ?_ hlt hmiss⟩
    by_cases hfirst : j = i
    · rw [hfirst, hheld] at hmiss
      cases hmiss
    · omega
  | case2 i hi hheld ih =>
    have hspan := spanOf_first (t := t) hsmall hinc hi (eq_false_of_ne_true hheld)
    refine ⟨fun s hs => ?_, fun j hj hlt hmiss => ?_⟩
    · rcases List.mem_cons.mp hs with rfl | hs
      · exact ⟨_, _, hspan⟩
      · exact ih.1 s hs
    · by_cases hin : j < spanEnd unique held (i + 1)
      · exact ⟨_, List.mem_cons_self, _, _, hspan, hj, hin⟩
      · obtain ⟨s, hs, h⟩ := ih.2 j (by omega) hlt hmiss
        exact ⟨s, List.mem_cons_of_mem _ hs, h⟩
  | case3 i hi =>
    exact ⟨fun s hs => absurd hs List.not_mem_nil, fun j hj hlt => absurd hlt (by omega)⟩

end Spans

section Reads

variable {f : FileReader} {offset place bytes : Nat} {c : Copy}

/-- A copy of part of a stretch of the file, where that part goes. -/
def CopyOf (f : FileReader) (source place bytes : Nat) (c : Copy) : Prop :=
  ∃ d, c.place = place + d ∧ d + c.bytes.length ≤ bytes ∧
    ∀ k < c.bytes.length, c.bytes.getD k 0 = f.content.getD (source + d + k) 0

/-- Reads that are given all the file holds. -/
def Whole (f : FileReader) (come : Nat → Option Nat) : Prop :=
  ∀ d, ∃ n, come d = some n ∧ f.content.length ≤ n

theorem read_some {come : Option Nat} {got : Bytes} (h : f.read offset bytes come = some got) :
    got.length ≤ bytes ∧
      ∀ k < got.length, got.getD k 0 = f.content.getD (offset + k) 0 := by
  unfold FileReader.read at h
  split at h
  next => cases h
  next =>
    obtain ⟨n, -, rfl⟩ := Option.map_eq_some_iff.mp h
    refine ⟨?_, fun k hk => ?_⟩
    · rw [List.length_take]
      omega
    · have hk' : k < min n bytes := by
        rw [List.length_take] at hk
        omega
      rw [List.getD_eq_getElem?_getD, List.getD_eq_getElem?_getD, List.getElem?_take,
        if_pos hk', List.getElem?_drop]

theorem read_whole (offset bytes : Nat) {come : Option Nat} {n : Nat} (hcome : come = some n)
    (hn : f.content.length ≤ n)
    (haligned : f.direct = true → offset % f.granule = 0 ∧ bytes % f.granule = 0) :
    ∃ got, f.read offset bytes come = some got ∧
      got.length = min bytes (f.content.length - offset) := by
  refine ⟨(f.content.drop offset).take (min n bytes), ?_, ?_⟩
  · unfold FileReader.read
    rw [if_neg (fun h => ?_), hcome]
    · exact Eq.refl _
    · obtain ⟨h₁, h₂⟩ := haligned h.1
      exact h.2.elim (fun h => h h₁) fun h => h h₂
  · rw [List.length_take, List.length_drop]
    omega

/-- The chunks copied are the stretch's, and leave no byte of it out. -/
theorem readAligned_spec {capacity : Nat} {come : Nat → Option Nat} {done : Nat}
    {copies : List Copy} (h : readAligned f offset place bytes capacity come done = some copies) :
    (∀ c ∈ copies, CopyOf f offset place bytes c) ∧
      ∀ d, done ≤ d → d < bytes → ∃ c ∈ copies,
        c.place ≤ place + d ∧ place + d < c.place + c.bytes.length := by
  revert copies
  fun_induction readAligned f offset place bytes capacity come done with
  | case1 =>
    intro copies h
    cases h
  | case2 done hlt start aligned lead room take htake request =>
    next ih =>
    intro copies h
    obtain ⟨got, hgot, h⟩ := Option.bind_eq_some_iff.mp h
    obtain ⟨-, hdata⟩ := read_some hgot
    split at h
    next => cases h
    next hshort =>
      obtain ⟨rest, hrest, rfl⟩ := Option.map_eq_some_iff.mp h
      obtain ⟨hcopies, hcover⟩ := ih got hshort hrest
      have hstart : aligned + lead = offset + done := by
        have hle : aligned ≤ start := Nat.div_mul_le_self start f.granule
        show aligned + (start - aligned) = start
        omega
      have htook : take ≤ bytes - done := Nat.min_le_left _ _
      have hlength : ((got.drop lead).take take).length = take := by
        rw [List.length_take, List.length_drop]
        omega
      refine ⟨fun c hc => ?_, fun d hd hdlt => ?_⟩
      · rcases List.mem_cons.mp hc with rfl | hc
        · refine ⟨done, Eq.refl _, ?_, fun k hk => ?_⟩
          · show done + ((got.drop lead).take take).length ≤ bytes
            omega
          · have hk : k < ((got.drop lead).take take).length := hk
            have hat := hdata (lead + k) (by omega)
            rw [← Nat.add_assoc, hstart] at hat
            rw [← hat, List.getD_eq_getElem?_getD, List.getD_eq_getElem?_getD, List.getElem?_take,
              if_pos (by omega), List.getElem?_drop]
        · exact hcopies c hc
      · by_cases hin : d < done + take
        · refine ⟨_, List.mem_cons_self, ?_, ?_⟩
          · show place + done ≤ place + d
            omega
          · show place + d < place + done + ((got.drop lead).take take).length
            omega
        · obtain ⟨c, hc, hplace⟩ := hcover d (by omega) hdlt
          exact ⟨c, List.mem_cons_of_mem _ hc, hplace⟩
  | case3 done hdone =>
    intro copies h
    cases h
    exact ⟨fun c hc => absurd hc List.not_mem_nil, fun d hd hdlt => absurd hdlt (by omega)⟩

/-- A window of a granule reads any stretch of the file. -/
theorem readAligned_whole {come : Nat → Option Nat} (hcome : Whole f come)
    (hin : offset + bytes ≤ f.content.length) (done : Nat) :
    ∃ copies, readAligned f offset place bytes f.granule come done = some copies := by
  have hpos := f.pos
  fun_induction readAligned f offset place bytes f.granule come done with
  | case1 done hlt start aligned lead room take htake =>
    have hlead : lead < f.granule := by
      have hmod := Nat.mod_lt start hpos
      have hdiv := Nat.div_add_mod' start f.granule
      show start - start / f.granule * f.granule < f.granule
      omega
    have hroom : room = f.granule - lead := if_pos hlead
    have hzero : min (bytes - done) room = 0 := htake
    omega
  | case2 done hlt start aligned lead room take htake request ih =>
    obtain ⟨n, hn, hlong⟩ := hcome done
    have hstart : aligned + lead = offset + done := by
      have hle : aligned ≤ start := Nat.div_mul_le_self start f.granule
      show aligned + (start - aligned) = start
      omega
    have htook : take ≤ bytes - done := Nat.min_le_left _ _
    have hrequest : lead + take ≤ request := by
      have hmod := Nat.mod_lt (lead + take + f.granule - 1) hpos
      have hdiv := Nat.div_add_mod' (lead + take + f.granule - 1) f.granule
      show lead + take ≤ (lead + take + f.granule - 1) / f.granule * f.granule
      omega
    obtain ⟨got, hgot, hlength⟩ := read_whole aligned request hn hlong
      fun _ => ⟨Nat.mul_mod_left _ _, Nat.mul_mod_left _ _⟩
    have hlong : lead + take ≤ got.length := by omega
    obtain ⟨rest, hrest⟩ := ih got (by omega)
    refine ⟨⟨place + done, (got.drop lead).take take⟩ :: rest, ?_⟩
    rw [hgot, Option.bind_some, if_neg (by omega), hrest]
    exact Eq.refl _
  | case3 done hdone => exact ⟨[], Eq.refl _⟩

theorem readSpan_spec {s : Span} {come : Nat → Option Nat} {copies : List Copy}
    (h : readSpan f s come = some copies) :
    (∀ c ∈ copies, CopyOf f s.source s.place s.bytes c) ∧
      ∀ d < s.bytes, ∃ c ∈ copies,
        c.place ≤ s.place + d ∧ s.place + d < c.place + c.bytes.length := by
  unfold readSpan at h
  split at h
  next =>
    obtain ⟨hcopies, hcover⟩ := readAligned_spec h
    exact ⟨hcopies, fun d hd => hcover d (Nat.zero_le d) hd⟩
  next =>
    obtain ⟨got, hgot, h⟩ := Option.bind_eq_some_iff.mp h
    obtain ⟨-, hdata⟩ := read_some hgot
    split at h
    next => cases h
    next hlength =>
      have hlength : got.length = s.bytes := not_not.mp hlength
      cases h
      refine ⟨fun c hc => ?_, fun d hd => ⟨_, List.mem_cons_self, Nat.le_add_right _ _, ?_⟩⟩
      · rw [List.mem_singleton.mp hc]
        exact ⟨0, Eq.refl _, by show 0 + got.length ≤ s.bytes; omega, hdata⟩
      · show s.place + d < s.place + got.length
        omega

theorem readSpan_whole {s : Span} {come : Nat → Option Nat} (hcome : Whole f come)
    (hin : s.source + s.bytes ≤ f.content.length) : ∃ copies, readSpan f s come = some copies := by
  unfold readSpan
  by_cases hdirect : f.direct = true
  · rw [if_pos hdirect]
    exact readAligned_whole hcome hin 0
  · obtain ⟨n, hn, hlong⟩ := hcome 0
    obtain ⟨got, hgot, hlength⟩ := read_whole s.source s.bytes hn hlong
      fun h => absurd h hdirect
    rw [if_neg hdirect, hgot, Option.bind_some, if_neg (by omega)]
    exact ⟨_, Eq.refl _⟩

theorem mem_laneSpans {n lanes lane i : Nat} (hlanes : 0 < lanes) :
    i ∈ laneSpans n lanes lane ↔ ∃ m, i = lane + lanes * m ∧ i < n := by
  unfold laneSpans
  rw [List.mem_range']
  constructor
  · rintro ⟨m, hm, rfl⟩
    refine ⟨m, Eq.refl _, ?_⟩
    have hle := (Nat.le_div_iff_mul_le hlanes).mp (Nat.succ_le_of_lt hm)
    rw [Nat.succ_mul, Nat.mul_comm m] at hle
    omega
  · rintro ⟨m, rfl, hlt⟩
    refine ⟨m, ?_, Eq.refl _⟩
    apply (Nat.le_div_iff_mul_le hlanes).mpr
    rw [Nat.succ_mul, Nat.mul_comm m]
    omega

/-- What the lanes copy is what the spans' reads copy, each span's by one lane. -/
theorem readSpans_spec {spans : List Span} {come : Nat → Nat → Option Nat} {copies : List Copy}
    (h : readSpans f spans come = some copies) :
    (∀ c ∈ copies, ∃ s ∈ spans, CopyOf f s.source s.place s.bytes c) ∧
      ∀ s ∈ spans, ∀ d < s.bytes, ∃ c ∈ copies,
        c.place ≤ s.place + d ∧ s.place + d < c.place + c.bytes.length := by
  unfold readSpans at h
  dsimp only at h
  obtain ⟨lanes, hlanes, rfl⟩ := Option.map_eq_some_iff.mp h
  obtain ⟨hfrom, heach⟩ := mem_mapM hlanes
  refine ⟨fun c hc => ?_, fun s hs d hd => ?_⟩
  · obtain ⟨part, hpart, hc⟩ := List.mem_flatten.mp hc
    obtain ⟨lane, -, hlane⟩ := hfrom part hpart
    obtain ⟨reads, hreads, rfl⟩ := Option.map_eq_some_iff.mp hlane
    obtain ⟨read, hread, hc⟩ := List.mem_flatten.mp hc
    obtain ⟨i, -, hi⟩ := (mem_mapM hreads).1 read hread
    obtain ⟨s, hs, hi⟩ := Option.bind_eq_some_iff.mp hi
    exact ⟨s, List.mem_of_getElem? hs, (readSpan_spec hi).1 c hc⟩
  · obtain ⟨i, hi, rfl⟩ := List.mem_iff_getElem.mp hs
    have hpos : 0 < min spans.length kReadThreads := by
      unfold kReadThreads
      omega
    have hlane := Nat.mod_lt i hpos
    obtain ⟨part, hpart, hlaneCopies⟩ := heach _ (List.mem_range.mpr hlane)
    obtain ⟨reads, hreads, rfl⟩ := Option.map_eq_some_iff.mp hlaneCopies
    have hmem : i ∈ laneSpans spans.length (min spans.length kReadThreads)
        (i % min spans.length kReadThreads) :=
      (mem_laneSpans hpos).mpr ⟨_, (Nat.mod_add_div i _).symm, hi⟩
    obtain ⟨read, hread, hcopies⟩ := (mem_mapM hreads).2 i hmem
    rw [List.getElem?_eq_getElem hi, Option.bind_some] at hcopies
    obtain ⟨c, hc, hplace⟩ := (readSpan_spec hcopies).2 d hd
    exact ⟨c, List.mem_flatten.mpr ⟨_, hpart, List.mem_flatten.mpr ⟨read, hread, hc⟩⟩, hplace⟩

theorem readSpans_whole {spans : List Span} {come : Nat → Nat → Option Nat}
    (hcome : ∀ i, Whole f (come i))
    (hin : ∀ s ∈ spans, s.source + s.bytes ≤ f.content.length) :
    ∃ copies, readSpans f spans come = some copies := by
  by_cases hempty : spans.length = 0
  · have hnil := List.eq_nil_of_length_eq_zero hempty
    subst hnil
    exact ⟨[], Eq.refl _⟩
  have hpos : 0 < min spans.length kReadThreads := by
    unfold kReadThreads
    omega
  have hlane : ∀ lane ∈ List.range (min spans.length kReadThreads),
      ∃ part, readLane f spans (min spans.length kReadThreads) come lane = some part := by
    intro lane _
    obtain ⟨reads, hreads⟩ := exists_mapM_some fun i (hi : i ∈ laneSpans spans.length
        (min spans.length kReadThreads) lane) => by
      obtain ⟨m, -, hlt⟩ := (mem_laneSpans hpos).mp hi
      show ∃ copies, (spans[i]?.bind fun s => readSpan f s (come i)) = some copies
      rw [List.getElem?_eq_getElem hlt, Option.bind_some]
      exact readSpan_whole (hcome i) (hin _ (List.getElem_mem hlt))
    exact ⟨_, congrArg (Option.map List.flatten) hreads⟩
  obtain ⟨lanes, hlanes⟩ := exists_mapM_some hlane
  exact ⟨_, congrArg (Option.map List.flatten) hlanes⟩

end Reads

end WeightRows

end Llmx
