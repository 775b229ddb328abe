import Llmx.RankHeap

namespace Llmx

namespace Sampler

namespace Ranking

/-- What a ranking holds between any two calls: its ranked keys are the best in order, there are no
others until they are laid out, and then they are those of the kept ids. -/
structure Sound (r : Row) (x : Ranking) : Prop where
  ranked_le : x.ranked ≤ r.kept
  ranked : x.keys.take x.ranked = r.best.take x.ranked
  alone : x.laidOut = false → x.keys.length = x.ranked
  laid : x.laidOut = true → x.keys.Perm (r.best.take r.kept)

variable {r : Row} {x : Ranking}

theorem start_sound (r : Row) : start.Sound r :=
  ⟨Nat.zero_le _, rfl, fun _ => rfl, fun h => Bool.noConfusion h⟩

theorem take_set_succ {l : List Nat} {j a : Nat} (h : j < l.length) :
    (l.set j a).take (j + 1) = l.take j ++ [a] := by
  have hlen : (l.take j).length = j := by
    rw [List.length_take]
    omega
  rw [List.set_eq_take_append_cons_drop, if_pos h, List.take_append, hlen,
    Nat.add_sub_cancel_left, List.take_of_length_le (by omega), List.take_succ_cons,
    List.take_zero]

/-- The keys not yet ranked are written one behind another. -/
theorem foldl_place (unranked : Nat → Bool) (ids keys : List Nat) (j : Nat)
    (h : j + ((ids.map r.key).filter unranked).length ≤ keys.length) :
    (ids.foldl (place r unranked) (keys, j)).1 =
      keys.take j ++ (ids.map r.key).filter unranked ++
        keys.drop (j + ((ids.map r.key).filter unranked).length) := by
  induction ids generalizing keys j with
  | nil => simp
  | cons i ids ih =>
    rw [List.foldl_cons]
    rw [List.map_cons, List.filter_cons] at h ⊢
    by_cases hin : unranked (r.key i) = true
    · have hstep : place r unranked (keys, j) i = (keys.set j (r.key i), j + 1) := by
        unfold place
        rw [if_pos hin]
      rw [if_pos hin, List.length_cons] at h ⊢
      rw [hstep, ih (keys.set j (r.key i)) (j + 1) (by rw [List.length_set]; omega),
        take_set_succ (by omega), List.drop_set_of_lt (by omega), Nat.add_right_comm, Nat.add_assoc,
        List.append_assoc (keys.take j), List.singleton_append]
    · have hstep : place r unranked (keys, j) i = (keys, j) := by
        unfold place
        rw [if_neg hin]
      rw [if_neg hin] at h ⊢
      rw [hstep]
      exact ih keys j h

/-- Laid out, the ranked keys stand as they are and the others of all ids behind them. -/
theorem Sound.behind (hr : r.Sound) (h : x.Sound r) (hout : x.laidOut = false) :
    ∃ rest, unrankedBehind r x = r.best.take x.ranked ++ rest ∧
      rest.Perm (r.best.drop x.ranked) := by
  have hm := r.length_best
  have hle : x.ranked ≤ r.m := h.ranked_le.trans hr.kept_le
  have hkeys : x.keys = r.best.take x.ranked := by
    rw [← h.ranked, ← h.alone hout, List.take_length]
  have hunranked : ((taking r.n r.skip).map r.key).filter
        (fun key => decide (x.ranked = 0) || decide (key < x.keys.getD (x.ranked - 1) 0)) |>.Perm
      (r.best.drop x.ranked) := by
    refine (r.best_perm.filter _).trans ?_
    rcases Nat.eq_zero_or_pos x.ranked with hzero | hpos
    · simp [hzero]
    · have hlast : x.keys.getD (x.ranked - 1) 0 = r.best.getD (x.ranked - 1) 0 := by
        rw [hkeys, List.getD_eq_getElem _ _ (by rw [List.length_take]; omega),
          List.getD_eq_getElem _ _ (by omega), List.getElem_take]
      have hfilter := hr.filter_below hpos hle
      rw [hlast]
      have hne : decide (x.ranked = 0) = false := by
        rw [decide_eq_false_iff_not]
        omega
      simp only [hne, Bool.false_or]
      rw [hfilter]
  have hcount := hunranked.length_eq
  rw [List.length_drop] at hcount
  have hlen : ((x.keys ++ List.replicate r.m 0).take r.m).length = r.m := by
    rw [List.length_take, List.length_append, List.length_replicate]
    omega
  have hfront : ((x.keys ++ List.replicate r.m 0).take r.m).take x.ranked =
      r.best.take x.ranked := by
    have hranked := h.alone hout
    rw [List.take_take, Nat.min_eq_left hle, ← hranked, List.take_left, hranked]
    exact hkeys
  refine ⟨_, ?_, hunranked⟩
  unfold unrankedBehind
  dsimp only
  rw [foldl_place _ _ _ _ (by rw [hlen, hcount]; omega), hfront, List.drop_of_length_le,
    List.append_nil]
  rw [hlen, hcount]
  omega

theorem layOut_laidOut (std : LargestFirst Nat) (r : Row) (x : Ranking) :
    (x.layOut std r).laidOut = true ∧ (x.layOut std r).ranked = x.ranked := by
  unfold layOut
  split
  next h => exact ⟨h, rfl⟩
  next => exact ⟨rfl, rfl⟩

theorem take_ranked_length (hr : r.Sound) (h : x.Sound r) :
    (r.best.take x.ranked).length = x.ranked := by
  have hm := r.length_best
  have hle : x.ranked ≤ r.m := h.ranked_le.trans hr.kept_le
  rw [List.length_take]
  omega

/-- Laying out keeps the ranked keys and loses no kept one. -/
theorem Sound.layOut (std : LargestFirst Nat) (hr : r.Sound) (h : x.Sound r) :
    (x.layOut std r).Sound r := by
  unfold Ranking.layOut
  split
  next => exact h
  next hno =>
    have hout : x.laidOut = false := by simpa using hno
    obtain ⟨rest, hbehind, hrest⟩ := h.behind hr hout
    have hm := r.length_best
    have hlen := take_ranked_length hr h
    have hle := h.ranked_le
    have hrestlen := hrest.length_eq
    rw [List.length_drop] at hrestlen
    have hfront : (unrankedBehind r x).take x.ranked = r.best.take x.ranked := by
      rw [hbehind]
      exact List.take_left' hlen
    have hback : (unrankedBehind r x).drop x.ranked = rest := by
      rw [hbehind]
      exact List.drop_left' hlen
    split
    next hmore =>
      have hkept : (r.best.take x.ranked ++ std.nthElement rest (r.kept - x.ranked)).take r.kept =
          r.best.take x.ranked ++
            (std.nthElement rest (r.kept - x.ranked)).take (r.kept - x.ranked) := by
        rw [List.take_append, hlen, List.take_of_length_le (by omega)]
      have hdesc : Descending (r.best.drop x.ranked) :=
        hr.best_descending.sublist (List.drop_sublist _ _)
      have hnth := std.nth_take hdesc hrest (by omega : r.kept - x.ranked < rest.length)
      rw [hfront, hback, hkept]
      refine ⟨hle, ?_, fun hno => Bool.noConfusion hno, fun _ => ?_⟩
      · exact List.take_left' hlen
      · have hsplit : r.best.take r.kept = r.best.take x.ranked ++
            (r.best.drop x.ranked).take (r.kept - x.ranked) := by
          rw [← List.take_add, Nat.add_sub_cancel' hle]
        rw [hsplit]
        exact hnth.append_left _
    next hall =>
      have heq : r.kept = r.m := by
        have := hr.kept_le
        omega
      refine ⟨hle, hfront, fun hno => Bool.noConfusion hno, fun _ => ?_⟩
      dsimp only
      rw [hbehind, heq, ← hm, List.take_length]
      have hwhole := hrest.append_left (r.best.take x.ranked)
      rw [List.take_append_drop] at hwhole
      exact hwhole

/-- Ranking further sorts the next kept keys behind those already ranked. -/
theorem Sound.select (std : LargestFirst Nat) (hr : r.Sound) (h : x.Sound r)
    (hlaid : x.laidOut = true) {c : Nat} (hc : x.ranked ≤ c) (hck : c ≤ r.kept) :
    Ranking.Sound r { x with keys := x.select std c, ranked := c } := by
  have hm := r.length_best
  have hkm := hr.kept_le
  have hlen := take_ranked_length hr h
  have hkeys := h.laid hlaid
  have hkeyslen := hkeys.length_eq
  rw [List.length_take, hm, Nat.min_eq_left hkm] at hkeyslen
  have hdroplen : (x.keys.drop x.ranked).length = r.kept - x.ranked := by
    rw [List.length_drop, hkeyslen]
  have hsplit : r.best.take r.kept = r.best.take x.ranked ++
      (r.best.drop x.ranked).take (r.kept - x.ranked) := by
    rw [← List.take_add, Nat.add_sub_cancel' h.ranked_le]
  have hrest : (x.keys.drop x.ranked).Perm
      ((r.best.drop x.ranked).take (r.kept - x.ranked)) := by
    have hwhole := hkeys
    rw [← List.take_append_drop x.ranked x.keys, h.ranked, hsplit] at hwhole
    exact (List.perm_append_left_iff _).mp hwhole
  generalize hlist : (r.best.drop x.ranked).take (r.kept - x.ranked) = l at *
  have hdesc : Descending l := by
    rw [← hlist]
    exact hr.best_descending.sublist ((List.take_sublist _ _).trans (List.drop_sublist _ _))
  have hbehind : ∃ behind : List Nat, behind.Perm l ∧
      (behind.take (c - x.ranked)).Perm (l.take (c - x.ranked)) ∧
      x.select std c = x.keys.take x.ranked ++ std.sort (behind.take (c - x.ranked)) ++
        behind.drop (c - x.ranked) := by
    unfold Ranking.select
    dsimp only
    by_cases hend : c = x.keys.length
    · refine ⟨x.keys.drop x.ranked, hrest, ?_, by rw [if_pos hend]⟩
      have hleft := hrest.length_eq
      rw [List.take_of_length_le (by omega), List.take_of_length_le (by omega)]
      exact hrest
    · refine ⟨std.nthElement (x.keys.drop x.ranked) (c - x.ranked), ?_, ?_, by rw [if_neg hend]⟩
      · exact (std.nth _ _ (by omega)).1.trans hrest
      · exact std.nth_take hdesc hrest (by omega)
  obtain ⟨behind, hperm, htake, hselect⟩ := hbehind
  have hsort := std.sort_take hdesc htake
  have hnext : r.best.take c = r.best.take x.ranked ++ l.take (c - x.ranked) := by
    rw [← hlist, List.take_take, Nat.min_eq_left (by omega), ← List.take_add,
      Nat.add_sub_cancel' hc]
  have hnextlen : (r.best.take c).length = c := by
    rw [List.length_take]
    omega
  rw [hselect, hsort, h.ranked, ← hnext]
  refine ⟨hck, List.take_left' hnextlen, fun hno => ?_, fun _ => ?_⟩
  · rw [hlaid] at hno
    exact Bool.noConfusion hno
  · dsimp only
    rw [hsplit, hnext, List.append_assoc]
    apply List.Perm.append_left
    refine (htake.symm.append_right _).trans ?_
    rw [List.take_append_drop]
    exact hperm

theorem extent_bounds (hr : r.Sound) (h : x.Sound r) {c : Nat} (hck : c ≤ r.kept) :
    c ≤ extent r x c ∧ x.ranked ≤ extent r x c ∧ extent r x c ≤ r.kept ∧ 0 < extent r x c := by
  have hle := h.ranked_le
  have hpos := hr.kept_pos
  unfold extent
  split
  next => exact ⟨hck, hle, le_refl _, hpos⟩
  next =>
    unfold firstRank
    split <;> omega

/-- Ranking gives at least as many as it is asked for. -/
theorem Sound.rank (std : LargestFirst Nat) (hr : r.Sound) (h : x.Sound r) {c : Nat}
    (hck : c ≤ r.kept) : (x.rank std r c).Sound r ∧ c ≤ (x.rank std r c).ranked := by
  obtain ⟨hc, hranked, hkept, hpos⟩ := extent_bounds hr h hck
  unfold Ranking.rank
  dsimp only
  by_cases hheap : x.laidOut = false ∧
      extent r x c ≤ (if r.kept < r.m then heapLimit else nucleusHeap)
  · have hm := r.length_best
    have hkm := hr.kept_le
    rw [if_pos hheap]
    refine ⟨?_, hc⟩
    rw [heapSelect_eq std hr hpos (by omega)]
    refine ⟨hkept, by rw [List.take_take, Nat.min_self], fun _ => ?_, fun hno => ?_⟩
    · show (r.best.take (extent r x c)).length = extent r x c
      rw [List.length_take]
      omega
    · have hlaid : x.laidOut = true := hno
      rw [hheap.1] at hlaid
      exact Bool.noConfusion hlaid
  · obtain ⟨hlaid, hsame⟩ := layOut_laidOut std r x
    rw [if_neg hheap]
    exact ⟨(h.layOut std hr).select std hr hlaid (by omega) hkept, hc⟩

theorem Sound.id (std : LargestFirst Nat) (hr : r.Sound) (h : x.Sound r) {i : Nat}
    (hi : i < r.kept) : (x.id std r i).1.Sound r ∧ r.order[i]? = some (x.id std r i).2 := by
  have hbig : ∃ y : Ranking, y.Sound r ∧ i < y.ranked ∧
      x.id std r i = (y, keyId (y.keys.getD i 0)) := by
    unfold Ranking.id
    split
    next =>
      obtain ⟨hsound, hle⟩ := h.rank std hr (c := i + 1) hi
      exact ⟨_, hsound, hle, rfl⟩
    next hranked => exact ⟨x, h, by omega, rfl⟩
  obtain ⟨y, hy, hlt, heq⟩ := hbig
  rw [heq]
  refine ⟨hy, ?_⟩
  have hm := r.length_order
  have hkm := hr.kept_le
  have hin : i < r.order.length := by omega
  have hkey : y.keys.getD i 0 = r.key (r.order[i]) := by
    have htake : (y.keys.take y.ranked).getD i 0 = (r.best.take y.ranked).getD i 0 :=
      congrArg (fun l => l.getD i 0) hy.ranked
    rw [List.getD_eq_getElem?_getD, List.getD_eq_getElem?_getD, List.getElem?_take_of_lt hlt,
      List.getElem?_take_of_lt hlt] at htake
    rw [List.getD_eq_getElem?_getD, htake, Row.best, List.getElem?_map,
      List.getElem?_eq_getElem hin]
    rfl
  dsimp only
  rw [hkey, hr.keyId_key (Row.mem_order.mp (List.getElem_mem hin)).1, List.getElem?_eq_getElem hin]

theorem Sound.keptIds (std : LargestFirst Nat) (hr : r.Sound) (h : x.Sound r) :
    (x.keptIds std r).1.Sound r ∧ (x.keptIds std r).2.Perm (r.order.take r.kept) := by
  have hm := r.length_best
  have hkm := hr.kept_le
  have hbig : ∃ y : Ranking, y.Sound r ∧ (y.laidOut = true ∨ y.ranked = r.kept) ∧
      x.keptIds std r = (y, (List.range r.kept).map fun i => keyId (y.keys.getD i 0)) := by
    unfold Ranking.keptIds
    dsimp only
    by_cases hlimit : heapLimit < r.kept
    · rw [if_pos hlimit]
      exact ⟨_, h.layOut std hr, Or.inl (layOut_laidOut std r x).1, rfl⟩
    · rw [if_neg hlimit]
      by_cases hranked : x.ranked < r.kept
      · rw [if_pos hranked]
        obtain ⟨hsound, hle⟩ := h.rank std hr (le_refl r.kept)
        exact ⟨_, hsound, Or.inr (le_antisymm hsound.ranked_le hle), rfl⟩
      · rw [if_neg hranked]
        exact ⟨x, h, Or.inr (le_antisymm h.ranked_le (not_lt.mp hranked)), rfl⟩
  obtain ⟨y, hy, hwhole, heq⟩ := hbig
  rw [heq]
  refine ⟨hy, ?_⟩
  have hkeys : (y.keys.take r.kept).Perm (r.best.take r.kept) := by
    rcases hwhole with hlaid | hranked
    · have hperm := hy.laid hlaid
      have hlen := hperm.length_eq
      rw [List.length_take] at hlen
      rw [List.take_of_length_le (by omega)]
      exact hperm
    · have htake := hy.ranked
      rw [hranked] at htake
      rw [htake]
  have hlen : r.kept ≤ y.keys.length := by
    have hlen := hkeys.length_eq
    rw [List.length_take, List.length_take] at hlen
    omega
  have hread : (List.range r.kept).map (fun i => keyId (y.keys.getD i 0)) =
      (y.keys.take r.kept).map keyId := by
    apply List.ext_getElem
    · simp only [List.length_map, List.length_range, List.length_take]
      omega
    · intro i hi hi'
      simp only [List.length_map, List.length_range] at hi
      rw [List.getElem_map, List.getElem_map, List.getElem_range, List.getElem_take,
        List.getD_eq_getElem _ _ (by omega)]
  have hids : (r.best.take r.kept).map keyId = r.order.take r.kept := by
    rw [Row.best, ← List.map_take, List.map_map]
    conv_rhs => rw [← List.map_id (r.order.take r.kept)]
    apply List.map_congr_left
    intro i hi
    rw [Function.comp_apply, id_eq]
    exact hr.keyId_key (Row.mem_order.mp (List.mem_of_mem_take hi)).1
  dsimp only
  rw [hread, ← hids]
  exact hkeys.map keyId

end Ranking

/-- The right answer: the token at a place of the order, or the first of them in any order. -/
def Row.Right (r : Row) : RankAsk → RankAnswer → Prop
  | .id i, .id id => r.order[i]? = some id
  | .keptIds, .ids ids => ids.Perm (r.order.take r.kept)
  | _, _ => False

theorem Ranking.Sound.answer (std : LargestFirst Nat) {r : Row} (hr : r.Sound) {x : Ranking}
    (h : x.Sound r) {ask : RankAsk} (hask : ∀ i, ask = .id i → i < r.kept) :
    (x.answer std r ask).1.Sound r ∧ r.Right ask (x.answer std r ask).2 := by
  cases ask with
  | id i => exact h.id std hr (hask i rfl)
  | keptIds => exact h.keptIds std hr

theorem Ranking.Sound.answers (std : LargestFirst Nat) {r : Row} (hr : r.Sound) {x : Ranking}
    (h : x.Sound r) {asks : List RankAsk} (hasks : ∀ i, RankAsk.id i ∈ asks → i < r.kept) :
    List.Forall₂ r.Right asks (x.answers std r asks) := by
  induction asks generalizing x with
  | nil => exact List.Forall₂.nil
  | cons ask asks ih =>
    obtain ⟨hsound, hright⟩ := h.answer std hr (fun i he => hasks i (he ▸ List.mem_cons_self))
    exact List.Forall₂.cons hright
      (ih hsound fun i hi => hasks i (List.mem_cons_of_mem _ hi))

/-- Whatever is asked of a ranking and in whatever order, each answer is that of a full sort, the
standard algorithms being done in any way. -/
theorem ranking_is_sort (std : LargestFirst Nat) {r : Row} (hr : r.Sound) {asks : List RankAsk}
    (hasks : ∀ i, RankAsk.id i ∈ asks → i < r.kept) :
    List.Forall₂ r.Right asks (Ranking.start.answers std r asks) :=
  (Ranking.start_sound r).answers std hr hasks

/-- Scores 1, 0, -0 and 1, the first passed over and two kept. -/
def fourScores : Row where
  s i := ⟨[0x3F800000#32, 0#32, 0x80000000#32, 0x3F800000#32].getD i 0#32⟩
  n := 4
  skip := 0
  kept := 2

theorem ranking_is_sort_four_scores :
    List.Forall₂ fourScores.Right [.id 0, .keptIds, .id 1]
      (Ranking.start.answers LargestFirst.plain fourScores [.id 0, .keptIds, .id 1]) := by
  apply ranking_is_sort LargestFirst.plain ⟨by decide, by decide, by decide, by decide⟩
  intro i hi
  have hor : i = 0 ∨ i = 1 := by simpa using hi
  show i < 2
  omega

end Sampler

end Llmx
