import Llmx.LedgerRounds
import Llmx.RoomMinimal
import Mathlib.Data.Nat.Init

/-!
How many requests a growth step pauses.
-/

namespace Llmx

/-- A request's reservation: its entry's blocks, and the growth steps taken while its cache held
`held` positions under them. -/
inductive Reserved (p : Pools) (g : Growth) (uncapped : Bool) : Nat → List Nat → Prop
  | enter (history maxTokens generated : Nat) (pos : 1 ≤ history) :
      Reserved p g uncapped 0 (p.blocksFor (g.entry history uncapped maxTokens generated))
  | hold {held : Nat} {need : List Nat} (next : Nat) (base : Reserved p g uncapped held need)
      (under : ∀ s, (p.blocksFor next).getD s 0 ≤ need.getD s 0) : Reserved p g uncapped next need
  | grow {held : Nat} {need : List Nat} (decoding : Bool) (base : Reserved p g uncapped held need) :
      Reserved p g uncapped held (addBlocks need (g.step p uncapped decoding held need))

/-- Where all donors and all later requests give a step, the first to pause gives it beside the
donors: its history is left to take, or its promise is enough. -/
def FirstServes (active : List Holder) (free order later step : List Nat) (gain : Gain) : Prop :=
  Covers free step gain ⟨order, pausedWhole active later⟩ →
    ∀ i, later.head? = some i → keepsNothing active i = true →
      Covers free step gain ⟨order, [(i, false)]⟩

theorem le_blocksFor_mul (n : Nat) {b : Nat} (hb : 0 < b) : n ≤ blocksFor n b * b := by
  have hdiv := Nat.div_add_mod n b
  have hmod := Nat.mod_lt n hb
  have hcomm := Nat.mul_comm (n / b) b
  unfold blocksFor
  rw [Nat.add_mul]
  split
  next => omega
  next => omega

theorem blocksFor_le_of {n k b : Nat} (hb : 0 < b) (h : n ≤ k * b) : blocksFor n b ≤ k := by
  have hle := blocksFor_mono (b := b) h
  rw [blocksFor_mul (Nat.mul_mod_left k b), Nat.mul_div_cancel k hb] at hle
  exact hle

theorem blocksFor_add_le (m n b : Nat) : blocksFor (m + n) b ≤ blocksFor m b + blocksFor n b := by
  rcases Nat.eq_zero_or_pos b with rfl | hb
  · unfold blocksFor
    rw [Nat.div_zero, Nat.div_zero, Nat.div_zero, Nat.mod_zero, Nat.mod_zero, Nat.mod_zero]
    split
    next => grind
    next => omega
  · apply blocksFor_le_of hb
    have hm := le_blocksFor_mul m hb
    have hn := le_blocksFor_mul n hb
    rw [Nat.add_mul]
    omega

theorem Pools.blocksFor_add_le (p : Pools) (m n s : Nat) :
    (p.blocksFor (m + n)).getD s 0 ≤ (p.blocksFor m).getD s 0 + (p.blocksFor n).getD s 0 := by
  have hadd := Llmx.blocksFor_add_le m n (p.blockTokens.getD s 0)
  rw [getD_blocksFor, getD_blocksFor, getD_blocksFor]
  omega

section

variable {p : Pools} {g : Growth} {held : Nat} {need : List Nat}

/-- The cache stays under what is reserved. -/
theorem Reserved.under {uncapped : Bool} (h : Reserved p g uncapped held need) (s : Nat) :
    (p.blocksFor held).getD s 0 ≤ need.getD s 0 := by
  induction h with
  | enter history maxTokens generated pos =>
    rw [p.blocksFor_zero]
    exact Nat.zero_le _
  | hold _ _ under _ => exact under s
  | grow decoding _ ih =>
    rw [getD_addBlocks]
    omega

/-- An uncapped request has reserved a step and a token, at least. -/
theorem Reserved.least (h : Reserved p g true held need) (s : Nat) :
    (p.blocksFor (1 + g.tokens)).getD s 0 ≤ need.getD s 0 := by
  induction h with
  | enter history maxTokens generated pos =>
    apply p.blocksFor_mono
    exact Nat.add_le_add_right pos g.tokens
  | hold _ _ _ ih => exact ih
  | grow decoding _ ih =>
    rw [getD_addBlocks]
    omega

/-- A growth step takes no more than what one step and a token do. -/
theorem Reserved.step_le {uncapped decoding : Bool} (h : Reserved p g uncapped held need) (s : Nat) :
    (g.step p uncapped decoding held need).getD s 0 ≤ (p.blocksFor (1 + g.tokens)).getD s 0 := by
  by_cases hdue : g.step p uncapped decoding held need = []
  · rw [hdue]
    exact Nat.zero_le _
  · obtain ⟨-, -, hlen, hstep⟩ := Growth.step_due hdue
    by_cases hs : s < p.blocks.length
    · have hadd := p.blocksFor_add_le held (1 + g.tokens) s
      have hunder := h.under s
      rw [hstep s hs, Nat.add_assoc]
      omega
    · rw [getD_past (by omega)]
      exact Nat.zero_le _

end

/-- Where a plan is not enough, all the donors and all the later requests are not. -/
theorem gathered_short (later free order : List Nat) (keep : Nat) (keepFirst : Bool)
    (active : List Holder) (need : List Nat) {gain : Gain} (hm : GainGrows gain)
    (h : (gathered later free order keep keepFirst active true need gain).enough = false) :
    ¬Covers free need gain ⟨order, pausedWhole active later⟩ := by
  obtain ⟨ha, hp, -, used, hu, hd, hall⟩ := takeDonors_spec free need gain
    (donorOrder order keep keepFirst) ⟨⟨[], []⟩, fits free need gain ⟨[], []⟩, false⟩ (Eq.refl _)
  unfold gathered at h
  dsimp only at h
  generalize takeDonors free need gain (donorOrder order keep keepFirst)
    ⟨⟨[], []⟩, fits free need gain ⟨[], []⟩, false⟩ = t at *
  simp only [List.nil_append, Bool.true_and] at hp hd h
  by_cases hen : t.enough = true
  · rw [hen] at h
    exact absurd (hen.symm.trans h) (by decide)
  · have hshort : t.enough = false := Bool.eq_false_iff.mpr hen
    rw [hshort] at h
    change (pauseLater free need gain active later t).enough = false at h
    obtain ⟨hask, hdonors, flags, -, hpaused, hwhole⟩ := pauseLater_spec active later t ha
    obtain ⟨k, -, flags', hpaused', -, hnothing, -⟩ := pauseLater_shortest active later t ha
    obtain ⟨hmap, hflags⟩ := hwhole h
    obtain rfl : flags = flags' := List.append_cancel_left (hpaused.symm.trans hpaused')
    have hlist : flags = pausedWhole active later := by
      rw [← hmap]
      unfold pausedWhole
      rw [List.map_map]
      refine (List.map_id flags).symm.trans (List.map_congr_left ?_)
      intro a hmem
      obtain ⟨i, b⟩ := a
      have htrue := hnothing (i, b) hmem
      have hkeeps := hflags (i, b) hmem
      show (i, b) = (i, !keepsNothing active i)
      cases b with
      | true => rw [htrue (Eq.refl _)]; exact Eq.refl _
      | false => rw [hkeeps.resolve_left Bool.false_ne_true]; exact Eq.refl _
    have hvictims : (pauseLater free need gain active later t).toVictims =
        ⟨donorOrder order keep keepFirst, pausedWhole active later⟩ := by
      have hdonors' := hdonors.trans (hd.trans (hall hshort))
      have hpaused'' := hpaused.trans (by rw [hp, List.nil_append, hlist])
      rw [← hdonors', ← hpaused'']
    intro hcov
    have hfits := fits_iff.mpr (hcov.of_within hm (donorOrder_within order keep keepFirst _).2)
    have henough : (pauseLater free need gain active later t).enough = true :=
      hask.trans (by rw [hvictims]; exact hfits)
    rw [h] at henough
    cases henough

theorem pausedWhole_within {active : List Holder} {is js : List Nat} (order : List Nat)
    (h : ∀ i ∈ is, i ∈ js) :
    Victims.Within ⟨order, pausedWhole active is⟩ ⟨order, pausedWhole active js⟩ := by
  refine ⟨fun d hd => hd, ?_⟩
  intro a ha
  obtain ⟨i, hi, rfl⟩ := List.mem_map.mp ha
  exact Or.inl (List.mem_map_of_mem (h i hi))

/-- Where the first to pause serves with its history, a plan pauses one at most exactly where it
serves with what it keeps. -/
theorem paused_le_one_iff (later free order : List Nat) (keep : Nat) (keepFirst : Bool)
    (active : List Holder) (need : List Nat) {gain : Gain} (hm : GainGrows gain)
    (hfirst : ∀ i, later.head? = some i → keepsNothing active i = false →
      Covers free need gain ⟨order, [(i, true)]⟩) :
    (makeRoomBy later free order keep keepFirst active true need gain).paused.length ≤ 1 ↔
      FirstServes active free order later need gain := by
  have hshort := gathered_short later free order keep keepFirst active need hm
  obtain ⟨k, hk, htake, hcov, hbefore⟩ :=
    gathered_shortest later free order keep keepFirst active true need hm
  rw [makeRoomBy_eq]
  dsimp only
  generalize gathered later free order keep keepFirst active true need gain = t at *
  by_cases hen : t.enough = true
  · rw [if_pos hen]
    obtain ⟨-, -, hpaused, -⟩ := giveBackDonors_spec need gain t.donors.length t
    have hlen : t.paused.length = k := by
      rw [← List.length_map (f := Prod.fst), htake, List.length_take]
      exact Nat.min_eq_left hk
    have hcov := hcov hen
    rw [hpaused, hlen]
    constructor
    · intro hone hall i hi hnothing
      obtain ⟨rest, rfl⟩ : ∃ rest, later = i :: rest := List.head?_eq_some_iff.mp hi
      have hwhole := hcov.of_within hm (pausedWhole_within order
        fun j hj => List.take_subset_take_left (i :: rest) hone hj)
      have heq : pausedWhole active ((i :: rest).take 1) = [(i, false)] := by
        show [(i, !keepsNothing active i)] = _
        rw [hnothing]
        exact Eq.refl _
      rw [heq] at hwhole
      exact hwhole
    · intro hserves
      by_contra hmore
      cases later with
      | nil =>
        rw [List.length_nil] at hk
        omega
      | cons i rest =>
        have hnot := hbefore 1 (by omega)
        have heq : pausedWhole active ((i :: rest).take 1) = [(i, !keepsNothing active i)] :=
          Eq.refl _
        rw [heq] at hnot
        cases hnothing : keepsNothing active i with
        | false =>
          rw [hnothing] at hnot
          exact hnot (hfirst i (Eq.refl _) hnothing)
        | true =>
          rw [hnothing] at hnot
          have hall := hcov.of_within hm (pausedWhole_within order
            fun j hj => List.mem_of_mem_take hj)
          exact hnot (hserves hall i (Eq.refl _) hnothing)
  · rw [if_neg hen]
    have hno := hshort (Bool.eq_false_iff.mpr hen)
    exact ⟨fun _ hall => absurd hall hno, fun _ => Nat.zero_le 1⟩

theorem gainGrows_gainOf (srv : Server) (active : List Request) (donors : List Donor) :
    GainGrows (srv.gainOf active donors) := by
  intro v w hvw s
  unfold frees
  split
  next => exact Nat.zero_le _
  next hv =>
    rw [if_neg fun hw => hv (hvw.empty hw)]
    exact srv.gainOf_mono active donors hvw s

/-- A request paused with its history, or with none to keep, gives all it has reserved, at least. -/
theorem need_le_gainOf (srv : Server) {active : List Request} (donors : List Donor)
    (order : List Nat) {i : Nat} {b : Bool} {q : Request} (hq : active[i]? = some q)
    (hb : b = true ∨ q.rows = 0 ∧ keepsNothing (srv.holders active) i = true) {s : Nat}
    (hs : s < srv.pools.blocks.length) :
    q.need.getD s 0 ≤ (srv.gainOf active donors ⟨order, [(i, b)]⟩).getD s 0 := by
  have hmem : srv.gives ⟨order, [(i, b)]⟩ s (q, i) ∈
      active.zipIdx.map (srv.gives ⟨order, [(i, b)]⟩ s) :=
    List.mem_map_of_mem (List.mk_mem_zipIdx_iff_getElem?.mpr hq)
  have hle := List.le_sum_of_mem hmem
  have hpromised := q.getD_promised srv.pools hs
  have hgives : q.need.getD s 0 ≤ srv.gives ⟨order, [(i, b)]⟩ s (q, i) := by
    unfold Server.gives
    cases b with
    | true =>
      rw [if_pos (List.mem_singleton.mpr (Eq.refl _))]
      dsimp only
      omega
    | false =>
      obtain ⟨hrows, hk⟩ := hb.resolve_left Bool.false_ne_true
      have hheld := kvHeld_of_keepsNothing srv hq hrows hk s
      rw [if_neg (by simp), if_pos (List.mem_singleton.mpr (Eq.refl _))]
      dsimp only
      omega
  rw [getD_gainOf srv active donors _ hs]
  omega

section

variable {srv : Server} {active : List Request} {donors : List Donor} {r : Request}
  {free order later : List Nat}

/-- A later request is uncapped. -/
theorem later_uncapped (hl : LatestFirst (srv.holders active) r.admission later) {i : Nat}
    (hi : later.head? = some i) : ∃ q, active[i]? = some q ∧ q ∈ active ∧ q.uncapped = true := by
  have hmem := hl.1.mem_iff.mp (List.mem_of_mem_head? hi)
  obtain ⟨hin, huncapped⟩ := List.mem_filter.mp hmem
  have hlen : i < active.length := by
    have hlt := List.mem_range.mp hin
    unfold Server.holders at hlt
    rw [List.length_map] at hlt
    exact hlt
  have hq : active[i]? = some active[i] := List.getElem?_eq_getElem hlen
  have hholder : (srv.holders active).getD i ⟨0, false, [], false⟩ =
      active[i].holder srv.pools := by
    unfold Server.holders
    rw [List.getD_eq_getElem?_getD, List.getElem?_map, hq]
    exact Eq.refl _
  rw [hholder] at huncapped
  exact ⟨active[i], hq, List.getElem_mem hlen, (Bool.and_eq_true_iff.mp huncapped).1⟩

/-- The first request to pause gives a whole step with its history, or where it has none to keep and
is not in flight. -/
theorem first_covers
    (hres : ∀ q ∈ active, Reserved srv.pools srv.growth q.uncapped (q.held + q.rows) q.need)
    (hr : Reserved srv.pools srv.growth r.uncapped r.held r.need)
    (hl : LatestFirst (srv.holders active) r.admission later) {i : Nat} {b : Bool}
    (hi : later.head? = some i)
    (hb : b = true ∨ (∀ q, active[i]? = some q → q.rows = 0) ∧
      keepsNothing (srv.holders active) i = true) :
    Covers free (srv.growth.step srv.pools r.uncapped r.decoding r.held r.need)
      (srv.gainOf active donors) ⟨order, [(i, b)]⟩ := by
  intro s hs
  obtain ⟨q, hq, hmem, huncapped⟩ := later_uncapped hl hi
  have hneed := hres q hmem
  rw [huncapped] at hneed
  have hpool : s < srv.pools.blocks.length := by
    by_contra hpast
    have hdue : srv.growth.step srv.pools r.uncapped r.decoding r.held r.need ≠ [] := by
      intro hnone
      rw [hnone] at hs
      cases hs
    rw [(Growth.step_due hdue).2.2.1] at hs
    exact hpast hs
  have hstep := @Reserved.step_le srv.pools srv.growth r.held r.need r.uncapped r.decoding hr s
  have hleast := hneed.least s
  have hgives := need_le_gainOf srv donors order hq (hb.imp_right fun h => ⟨h.1 q hq, h.2⟩) hpool
  unfold frees
  rw [if_neg fun hnone => List.cons_ne_nil _ _ hnone.2]
  omega

/-- Where the request admitted last is not in flight, it serves. -/
theorem firstServes_of_still
    (hres : ∀ q ∈ active, Reserved srv.pools srv.growth q.uncapped (q.held + q.rows) q.need)
    (hr : Reserved srv.pools srv.growth r.uncapped r.held r.need)
    (hl : LatestFirst (srv.holders active) r.admission later)
    (hstill : ∀ i q, later.head? = some i → active[i]? = some q → q.rows = 0) :
    FirstServes (srv.holders active) free order later
      (srv.growth.step srv.pools r.uncapped r.decoding r.held r.need)
      (srv.gainOf active donors) :=
  fun _ i hi hk => first_covers hres hr hl hi (Or.inr ⟨fun q => hstill i q hi, hk⟩)

end

theorem one_pool_length : [1].length = [7].length := Eq.refl _

theorem one_token_positive : ∀ n ∈ [1], 0 < n := by simp

/-- A server of one pool of seven blocks of one token, growing a token at a time. -/
def sevenBlocks : Server := ⟨⟨[7], [1], one_pool_length, one_token_positive⟩, ⟨1⟩, 3, 8, 0⟩

/-- A request whose step of two blocks falls due. -/
def dueRequest : Request := ⟨1, true, 6, 1, 2, 2, 0, [2], false, 0⟩

/-- It, one admitted after it, and one after both, its first rows in flight or not yet. -/
def crowd (rows : Nat) : List Request :=
  [dueRequest, ⟨2, true, 7, 1, 1, 1, 0, [2], false, 0⟩, ⟨3, true, 6, 2, 0, 0, rows, [3], false, 0⟩]

theorem crowd_reserved {rows : Nat} (h : rows ≤ 3) : ∀ q ∈ crowd rows,
    Reserved sevenBlocks.pools sevenBlocks.growth q.uncapped (q.held + q.rows) q.need := by
  have hunder : ∀ tokens most : Nat, tokens ≤ most →
      ∀ s, (sevenBlocks.pools.blocksFor tokens).getD s 0 ≤
        (sevenBlocks.pools.blocksFor most).getD s 0 :=
    fun _ _ hle s => sevenBlocks.pools.blocksFor_mono hle s
  unfold crowd
  rw [List.forall_mem_cons, List.forall_mem_cons, List.forall_mem_singleton]
  refine ⟨?_, ?_, ?_⟩
  · show Reserved _ _ true 2 (sevenBlocks.pools.blocksFor 2)
    exact (Reserved.enter 1 6 0 (by decide)).hold 2 (hunder 2 2 (by decide))
  · show Reserved _ _ true 1 (sevenBlocks.pools.blocksFor 2)
    exact (Reserved.enter 1 7 0 (by decide)).hold 1 (hunder 1 2 (by decide))
  · show Reserved _ _ true (0 + rows) (sevenBlocks.pools.blocksFor 3)
    exact (Reserved.enter 2 6 0 (by decide)).hold (0 + rows) (hunder _ 3 (by omega))

end Llmx
