import Llmx.LedgerPause

namespace Llmx

section

variable {srv : Server} {l : Ledger} {pre post : List Request} {r : Request}

/-- The victims of a plan paused one after the other give up what they weigh together, and nobody
else is paused. -/
theorem pauseVictims_spec (rank : Ranking) (vs : List (Request × Bool)) (h : l.Safe srv)
    (hl : l.active = pre ++ r :: post) (hvs : ∀ v ∈ vs, v.1 ∈ post ∧ v.1.rows = 0)
    (hapart : (vs.map fun v => v.1.admission).Nodup) :
    let l' := vs.foldl (srv.pauseVictim rank) l
    l'.Safe srv ∧ (∃ post', l'.active = pre ++ r :: post' ∧ post'.Sublist post ∧
        ∀ q ∈ post, q ∉ post' → ∃ v ∈ vs, v.1 = q) ∧
      ∀ s < srv.pools.blocks.length,
        l'.reserved srv s + (vs.map (Request.weight srv.pools s)).sum ≤ l.reserved srv s := by
  induction vs generalizing l post with
  | nil =>
    exact ⟨h, ⟨post, hl, List.Sublist.refl _, fun q hq hn => absurd hq hn⟩, fun s _ => by simp⟩
  | cons v vs ih =>
    obtain ⟨q, b⟩ := v
    obtain ⟨hq, hrows⟩ := hvs (q, b) (by simp)
    obtain ⟨p1, p2, rfl⟩ := List.append_of_mem hq
    have hsplit : l.active = (pre ++ r :: p1) ++ q :: p2 := by simp [hl]
    obtain ⟨hactive, hsafe, hless⟩ := pauseVictim_spec rank h hsplit hrows b
    have hrest : (srv.pauseVictim rank l (q, b)).active = pre ++ r :: (p1 ++ p2) := by
      simp [hactive]
    rw [List.map_cons, List.nodup_cons] at hapart
    obtain ⟨hsafe', ⟨post', hpost', hsub, hgone⟩, hless'⟩ := ih hsafe hrest (by
      intro v hv
      obtain ⟨hmem, hfree⟩ := hvs v (List.mem_cons_of_mem _ hv)
      refine ⟨?_, hfree⟩
      have hne : v.1 ≠ q := by
        intro he
        exact hapart.1 (List.mem_map.mpr ⟨v, hv, by rw [he]⟩)
      simpa [hne] using hmem) hapart.2
    refine ⟨hsafe', ⟨post', hpost', hsub.trans ?_, ?_⟩, fun s hs => ?_⟩
    · exact (List.Sublist.refl _).append (List.sublist_cons_self ..)
    · intro p hp hn
      by_cases hpq : p = q
      · exact ⟨(q, b), by simp, hpq.symm⟩
      · obtain ⟨v, hv, he⟩ := hgone p (by simpa [hpq] using hp) hn
        exact ⟨v, List.mem_cons_of_mem _ hv, he⟩
    · have h1 := hless s hs
      have h2 := hless' s hs
      rw [List.map_cons, List.sum_cons, List.foldl_cons]
      omega

theorem sum_zipIdx_at (xs : List Request) (f : Request → Nat) (k i : Nat) :
    ((xs.zipIdx k).map fun p => if p.2 = k + i then f p.1 else 0).sum = (xs[i]?.map f).getD 0 := by
  induction xs generalizing k i with
  | nil => simp
  | cons x xs ih =>
    rw [List.zipIdx_cons, List.map_cons, List.sum_cons]
    cases i with
    | zero =>
      have hlater : ((xs.zipIdx (k + 1)).map fun p => if p.2 = k + 0 then f p.1 else 0).sum = 0 := by
        apply List.sum_eq_zero
        intro n hn
        obtain ⟨p, hp, rfl⟩ := List.mem_map.mp hn
        have := List.le_snd_of_mem_zipIdx hp
        exact if_neg (by omega)
      rw [hlater]
      simp
    | succ i =>
      have hhere : ¬k = k + (i + 1) := by omega
      rw [if_neg hhere, Nat.zero_add, show k + (i + 1) = k + 1 + i by omega, ih]
      rfl

/-- A plan's gain counts no more for the requests it pauses than they weigh. -/
theorem sum_gives_le (srv : Server) (active : List Request) (v : Victims) {s : Nat} :
    (active.zipIdx.map (srv.gives v s)).sum ≤
      ((Server.victims active v.paused).map (Request.weight srv.pools s)).sum := by
  obtain ⟨donors, paused⟩ := v
  induction paused with
  | nil =>
    refine le_of_eq_of_le (List.sum_eq_zero fun n hn => ?_) (Nat.zero_le _)
    obtain ⟨p, -, rfl⟩ := List.mem_map.mp hn
    simp [Server.gives]
  | cons a paused ih =>
    obtain ⟨i, b⟩ := a
    have hone : ∀ p : Request × Nat, srv.gives ⟨donors, (i, b) :: paused⟩ s p ≤
        srv.gives ⟨donors, paused⟩ s p +
          if p.2 = 0 + i then Request.weight srv.pools s (p.1, b) else 0 := by
      rintro ⟨q, j⟩
      by_cases hj : j = i
      · subst hj
        unfold Server.gives
        cases b with
        | true =>
          simp only [List.mem_cons, true_or, if_true, Nat.zero_add, Request.weight]
          omega
        | false =>
          simp only [List.mem_cons, Prod.mk.injEq, Bool.true_eq_false, and_false, false_or,
            true_or, if_true, Nat.zero_add, Request.weight]
          split <;> omega
      · simp [Server.gives, hj]
    have hsum := List.sum_le_sum fun p (_ : p ∈ active.zipIdx) => hone p
    rw [List.sum_map_add, sum_zipIdx_at active (fun q => Request.weight srv.pools s (q, b))] at hsum
    have hcons : ((Server.victims active ((i, b) :: paused)).map (Request.weight srv.pools s)).sum =
        (active[i]?.map fun q => Request.weight srv.pools s (q, b)).getD 0 +
          ((Server.victims active paused).map (Request.weight srv.pools s)).sum := by
      rw [Server.victims, List.filterMap_cons]
      cases active[i]? with
      | none => simp [Server.victims]
      | some q => simp [Server.victims]
    dsimp only at ih ⊢
    omega

/-- A plan whose victims run after `r` and are not in flight, taken: it frees its gain. -/
theorem take_spec (rank : Ranking) (t : Taken) (h : l.Safe srv) (hl : l.active = pre ++ r :: post)
    (hvs : ∀ v ∈ Server.victims l.active t.paused, v.1 ∈ post ∧ v.1.rows = 0)
    (hapart : ((Server.victims l.active t.paused).map fun v => v.1.admission).Nodup) :
    (srv.take rank l t).Safe srv ∧
      (∃ post', (srv.take rank l t).active = pre ++ r :: post' ∧ post'.Sublist post ∧
        ∀ q ∈ post, q ∉ post' → ∃ v ∈ Server.victims l.active t.paused, v.1 = q) ∧
      ∀ s < srv.pools.blocks.length,
        (srv.take rank l t).reserved srv s + (srv.gainOf l.active l.donors t.toVictims).getD s 0 ≤
          l.reserved srv s := by
  have hdrop : ({ l with donors := Server.dropAll l.donors t.donors } : Ledger).Safe srv := by
    refine h.shrink _ (List.Sublist.refl _) (List.Sublist.refl _) rfl ?_ fun s _ => ?_
    · exact fun d hd => h.donorIds d ((dropAll_sublist _ _).subset hd)
    · exact Nat.add_le_add_left (donated_sublist srv.pools (dropAll_sublist _ _) s) _
  obtain ⟨hsafe, hactive, hless⟩ := pauseVictims_spec rank (Server.victims l.active t.paused) hdrop hl
    hvs hapart
  refine ⟨hsafe, hactive, fun s hs => ?_⟩
  have hrest := hless s hs
  have hgives := sum_gives_le srv l.active t.toVictims (s := s)
  have hdonors := donated_dropAll srv.pools l.donors t.donors s
  rw [getD_gainOf srv _ _ _ hs, reserved_eq (l := l), Server.take]
  rw [reserved_eq (l := { l with donors := Server.dropAll l.donors t.donors })] at hrest
  dsimp only at hrest
  omega

theorem holder_getD {active : List Request} {i : Nat} {q : Request} (h : active[i]? = some q) :
    (srv.holders active).getD i ⟨0, false, [], false⟩ = q.holder srv.pools := by
  simp [Server.holders, List.getD_eq_getElem?_getD, h]

/-- A request may be paused for `r` when it is uncapped and runs after it. -/
theorem mem_pausable {active : List Request} {after i : Nat} :
    i ∈ pausable (srv.holders active) after ↔
      ∃ q, active[i]? = some q ∧ q.uncapped = true ∧ after < q.admission := by
  rw [pausable, List.mem_filter, List.mem_range, Server.holders, List.length_map, ← Server.holders]
  constructor
  · rintro ⟨hi, hq⟩
    have hget : active[i]? = some active[i] := by simp [hi]
    rw [holder_getD hget] at hq
    exact ⟨_, hget, by simpa [Request.holder] using hq⟩
  · rintro ⟨q, hget, hq⟩
    rw [holder_getD hget]
    exact ⟨(List.getElem?_eq_some_iff.mp hget).1, by simpa [Request.holder] using hq⟩

theorem admission_index {active : List Request} (hs : active.Pairwise (·.admission < ·.admission))
    {i j : Nat} {p q : Request} (hp : active[i]? = some p) (hq : active[j]? = some q)
    (he : p.admission = q.admission) : i = j := by
  obtain ⟨hi, rfl⟩ := List.getElem?_eq_some_iff.mp hp
  obtain ⟨hj, rfl⟩ := List.getElem?_eq_some_iff.mp hq
  have hlt := List.pairwise_iff_getElem.mp hs
  rcases Nat.lt_trichotomy i j with h | h | h
  · have := hlt i j hi hj h
    omega
  · exact h
  · have := hlt j i hj hi h
    omega

theorem growPlan_paused (srv : Server) (rank : Ranking) (l : Ledger) (r : Request) (step : List Nat) :
    (srv.growPlan rank l r step).paused.map Prod.fst <+:
        latestFirst (srv.holders l.active) r.admission ∧
      ((srv.growPlan rank l r step).wait = false →
        ∀ a ∈ (srv.growPlan rank l r step).paused,
          ((srv.holders l.active).getD a.1 ⟨0, false, [], false⟩).flying = false) :=
  have h := makeRoomBy_paused (latestFirst (srv.holders l.active) r.admission) (srv.room l)
    (rank.order l.donors) npos false (srv.holders l.active) true step (srv.gainOf l.active l.donors)
  ⟨h.1, h.2.2⟩

/-- What a growth plan that need not wait pauses: uncapped requests that run after `r`, none in
flight, each once. -/
theorem growPlan_victims (rank : Ranking) (h : l.Safe srv) (hl : l.active = pre ++ r :: post)
    (step : List Nat) (hwait : (srv.growPlan rank l r step).wait = false) :
    (∀ v ∈ Server.victims l.active (srv.growPlan rank l r step).paused,
        v.1 ∈ post ∧ v.1.rows = 0 ∧ v.1.uncapped = true) ∧
      ((Server.victims l.active (srv.growPlan rank l r step).paused).map
        fun v => v.1.admission).Nodup := by
  have hlatest := latestFirst_spec (srv.holders l.active) r.admission
  obtain ⟨hpre, hfree⟩ := growPlan_paused srv rank l r step
  generalize srv.growPlan rank l r step = t at *
  have hsorted := h.sorted
  constructor
  · intro v hv
    obtain ⟨⟨i, b⟩, hp, hv⟩ := List.mem_filterMap.mp hv
    obtain ⟨q, hget, rfl⟩ := Option.map_eq_some_iff.mp hv
    have hmem : i ∈ pausable (srv.holders l.active) r.admission :=
      hlatest.1.mem_iff.mp (hpre.subset (List.mem_map_of_mem hp))
    obtain ⟨q', hget', hun, hafter⟩ := mem_pausable.mp hmem
    obtain rfl : q = q' := Option.some.inj (hget.symm.trans hget')
    have hnot := hfree hwait _ hp
    rw [holder_getD hget] at hnot
    refine ⟨?_, by simpa [Request.holder, Request.inFlight] using hnot, hun⟩
    have hq := List.mem_of_getElem? hget
    rw [hl] at hq hsorted
    rcases List.mem_append.mp hq with hq | hq
    · have := (List.pairwise_append.mp hsorted).2.2 q hq r (by simp)
      omega
    · rcases List.mem_cons.mp hq with rfl | hq
      · exact absurd hafter (Nat.lt_irrefl _)
      · exact hq
  · have hnodup : (t.paused.map Prod.fst).Nodup := by
      refine List.Nodup.sublist hpre.sublist (hlatest.1.nodup_iff.mpr ?_)
      exact List.nodup_range.filter _
    have hmap : (Server.victims l.active t.paused).map (fun v => v.1.admission) =
        (t.paused.map Prod.fst).filterMap fun i => (l.active[i]?).map (·.admission) := by
      rw [Server.victims, List.map_filterMap, List.filterMap_map]
      congr 1
      funext p
      simp [Option.map_map, Function.comp_def]
    rw [hmap]
    refine hnodup.filterMap fun i j a hi hj => ?_
    obtain ⟨p, hp, hpa⟩ := Option.map_eq_some_iff.mp hi
    obtain ⟨q, hq, hqa⟩ := Option.map_eq_some_iff.mp hj
    exact admission_index hsorted hp hq (hpa.trans hqa.symm)

theorem frees_gainOf (srv : Server) (active : List Request) (donors : List Donor) (v : Victims)
    {s : Nat} (hs : s < srv.pools.blocks.length) :
    frees (srv.gainOf active donors) v s = (srv.gainOf active donors v).getD s 0 := by
  unfold frees
  split
  next hv =>
    have hgives : srv.gives v s = fun _ => 0 := by
      funext p
      simp [Server.gives, hv]
    rw [getD_gainOf srv _ _ _ hs, hgives]
    simp [hv]
  next => rfl

theorem donated_all (srv : Server) (rank : Ranking) (donors : List Donor) (s : Nat) :
    (donors.zipIdx.map fun p =>
      if p.2 ∈ rank.order donors then (srv.pools.blocksFor p.1.tokens).getD s 0 else 0).sum =
      donated srv.pools donors s := by
  have hall : (donors.zipIdx.map fun p =>
      if p.2 ∈ rank.order donors then (srv.pools.blocksFor p.1.tokens).getD s 0 else 0) =
      (donors.zipIdx.map Prod.fst).map fun d => (srv.pools.blocksFor d.tokens).getD s 0 := by
    rw [List.map_map]
    apply List.map_congr_left
    rintro ⟨d, k⟩ hd
    have hk := (List.getElem?_eq_some_iff.mp (List.mk_mem_zipIdx_iff_getElem?.mp hd)).1
    rw [if_pos ((rank.perm donors).mem_iff.mpr (List.mem_range.mpr hk))]
    rfl
  rw [hall, List.zipIdx_map_fst]
  rfl

/-- Pausing every later request with its donor, all uncapped, gives up all they reserved. -/
theorem needed_le_gives (h : l.Safe srv) (hl : l.active = r :: post)
    (hun : ∀ q ∈ post, q.uncapped = true) (order : List Nat) {s : Nat}
    (hs : s < srv.pools.blocks.length) :
    needed post s ≤ (l.active.zipIdx.map (srv.gives
      (allowed order (srv.holders l.active) r.admission true) s)).sum := by
  have hsorted := hl ▸ h.sorted
  have hlater := (List.pairwise_cons.mp hsorted).1
  have hpost : needed post s = ((l.active.zipIdx.map Prod.fst).map fun q =>
      if r.admission < q.admission then q.need.getD s 0 else 0).sum := by
    rw [List.zipIdx_map_fst, hl, List.map_cons, if_neg (Nat.lt_irrefl _), List.sum_cons,
      Nat.zero_add, needed]
    congr 1
    exact List.map_congr_left fun q hq => (if_pos (hlater q hq)).symm
  rw [hpost, List.map_map]
  apply List.sum_le_sum
  rintro ⟨q, i⟩ hq
  have hget := List.mk_mem_zipIdx_iff_getElem?.mp hq
  simp only [Function.comp_apply]
  split
  next hafter =>
    have hmem : q ∈ post := by
      have := List.mem_of_getElem? hget
      rw [hl] at this
      rcases List.mem_cons.mp this with rfl | hmem
      · exact absurd hafter (Nat.lt_irrefl _)
      · exact hmem
    have hin : (i, true) ∈ (allowed order (srv.holders l.active) r.admission
        true).paused := by
      simp only [allowed, if_true, List.mem_map, Prod.mk.injEq, and_true, exists_eq_right]
      exact mem_pausable.mpr ⟨q, hget, hun q hmem, hafter⟩
    have hheld := (h.sound q (List.mem_of_getElem? hget)).reserved s
    rw [Server.gives, if_pos hin, q.getD_promised srv.pools hs]
    dsimp only
    omega
  next => exact Nat.zero_le _

/-- The earliest request always gets what it asks, up to the whole pool, once no capped one runs
and nothing is in flight. -/
theorem growPlan_first (rank : Ranking) (h : l.Safe srv) (hl : l.active = r :: post)
    (hfree : ∀ q ∈ l.active, q.rows = 0) (hun : ∀ q ∈ post, q.uncapped = true) {step : List Nat}
    (hstep : ∀ s < step.length,
      s < srv.pools.blocks.length ∧ step.getD s 0 + r.need.getD s 0 ≤ srv.pools.blocks.getD s 0) :
    (srv.growPlan rank l r step).enough = true ∧ (srv.growPlan rank l r step).wait = false := by
  constructor
  · refine (makeRoomBy_enough (latestFirst_spec (srv.holders l.active) r.admission) _ _ _ _ _ _
      (monotoneGain_gainOf srv l.active l.donors hfree)).mpr fun s hstep' => ?_
    obtain ⟨hs, hroom⟩ := hstep s hstep'
    have hwithin := h.within s hs
    have hneeded := needed_le_gives h hl hun (rank.order l.donors) hs
    rw [frees_gainOf srv _ _ _ hs, getD_gainOf srv _ _ _ hs,
      getD_room hs fun q hq => (h.sound q hq).reserved s]
    rw [show (allowed (rank.order l.donors) (srv.holders l.active) r.admission true).donors =
      rank.order l.donors from rfl, donated_all]
    rw [reserved_eq, hl, needed_cons] at hwithin ⊢
    rw [hl] at hneeded
    omega
  · refine makeRoomBy_still (fun i => ?_) _ _ _ _ _ _ _ _
    cases hget : l.active[i]? with
    | none => simp [Server.holders, List.getD_eq_getElem?_getD, hget]
    | some q =>
      rw [holder_getD hget]
      simp [Request.holder, Request.inFlight, hfree q (List.mem_of_getElem? hget)]

end

end Llmx
