import Llmx.HostOps

namespace Llmx

namespace HostCache

namespace Cache

variable {c : Cache} {m : Tier} {mine : Rank} {e : Entry}

theorem GivesWay.has (h : c.GivesWay m mine e) : c.Has e := by
  unfold GivesWay at h
  unfold Has findBound findHost
  split at h
  next hb =>
    obtain ⟨b, hmem, hid, -, -⟩ := h
    rw [if_pos hb, List.find?_isSome]
    exact ⟨b, hmem, beq_iff_eq.mpr hid⟩
  next hb =>
    obtain ⟨b, hmem, hid, -, -, -⟩ := h
    rw [if_neg hb, List.find?_isSome]
    exact ⟨b, hmem, beq_iff_eq.mpr hid⟩

theorem Has.drop {e' : Entry} (h : c.Has e') (he : e ≠ e') : (c.drop e).Has e' := by
  unfold Has at *
  split at h
  next hb =>
    rw [if_pos hb, findBound_drop he hb]
    exact h
  next hb =>
    rw [if_neg hb, findHost_drop he hb]
    exact h

theorem release_held (p : Plan) (h : HostHistory) (e : Entry) :
    (c.release p h e).held = p.held - h.held ∧ (c.release p h e).drops = p.drops ++ [e] := by
  unfold release
  split <;> exact ⟨rfl, rfl⟩

/-- An entry planned to go is one, and gives what it counts for. -/
theorem Ledger.planEntry (h : c.Ledger) (he : c.Has e) (p : Plan) :
    (c.planEntry p e).held = p.held - c.bytesOf e ∧
      (c.planEntry p e).drops = p.drops ++ [e] := by
  unfold Cache.planEntry bytesOf
  unfold Has at he
  split at he
  next hb =>
    rw [if_pos hb, if_pos hb, filter_eq_find? h.boundIds]
    obtain ⟨b, hfind⟩ := Option.isSome_iff_exists.mp he
    unfold findBound at *
    rw [hfind]
    exact release_held p b.state e
  next hb =>
    rw [if_neg hb, if_neg hb, filter_eq_find? h.hostIds]
    obtain ⟨d, hfind⟩ := Option.isSome_iff_exists.mp he
    unfold findHost at *
    rw [hfind]
    obtain ⟨hheld, hdrops⟩ := release_held (c := c) p d.history e
    refine ⟨?_, hdrops⟩
    show (c.release p d.history e).held - tailBytes d.tails = p.held - d.bytes
    rw [hheld, HostDonor.bytes, Nat.sub_sub]

/-- The plan takes the shortest head of the victims that makes the room. -/
theorem Ledger.planDrops (h : c.Ledger) (m : Tier) (bytes : Nat) {es : List Entry}
    (hes : ∀ e ∈ es, c.Has e) (p : Plan) :
    ∃ taken rest, es = taken ++ rest ∧ (c.planDrops m bytes es p).drops = p.drops ++ taken ∧
      (c.planDrops m bytes es p).held = p.held - (taken.map c.bytesOf).sum ∧
      (∀ gone e after, taken = gone ++ e :: after →
        m.hostCap < p.held - (gone.map c.bytesOf).sum + bytes) ∧
      (rest = [] ∨ (c.planDrops m bytes es p).held + bytes ≤ m.hostCap) := by
  induction es generalizing p with
  | nil =>
    refine ⟨[], [], rfl, (List.append_nil _).symm, rfl, ?_, .inl rfl⟩
    intro gone e after hsplit
    simp at hsplit
  | cons e es ih =>
    unfold Cache.planDrops
    split
    next hfits =>
      refine ⟨[], e :: es, rfl, (List.append_nil _).symm, rfl, ?_, .inr hfits⟩
      intro gone e after hsplit
      simp at hsplit
    next hshort =>
      obtain ⟨hheld, hdrops⟩ := h.planEntry (hes e List.mem_cons_self) p
      obtain ⟨taken, rest, rfl, htaken, hleft, hneed, hend⟩ :=
        ih (fun e' he' => hes e' (List.mem_cons_of_mem _ he')) (c.planEntry p e)
      rw [hheld] at hleft hneed
      refine ⟨e :: taken, rest, rfl, ?_, ?_, ?_, hend⟩
      · rw [htaken, hdrops, List.append_assoc]
        rfl
      · rw [hleft, List.map_cons, List.sum_cons, Nat.sub_sub]
      · intro gone e' after hsplit
        cases gone with
        | nil =>
          simp only [List.map_nil, List.sum_nil]
          omega
        | cons g gone =>
          obtain ⟨rfl, hgone⟩ := List.cons.inj hsplit
          have := hneed gone e' after hgone
          rw [List.map_cons, List.sum_cons]
          omega

theorem hostVictims_nodup (h : c.Ledger) (mine : Rank) : (c.hostVictims m mine).Nodup := by
  have hkeyed : ((c.keyed m).map Keyed.entry).Nodup := by
    unfold keyed
    rw [List.map_append, List.map_map, List.map_map]
    apply List.Nodup.append
    · apply List.Nodup.map_on
      · intro b hb b' hb' heq
        exact List.inj_on_of_nodup_map h.boundIds (List.mem_filter.mp hb).1
          (List.mem_filter.mp hb').1 (Entry.mk.inj heq).2
      · exact h.boundIds.of_map.filter _
    · apply List.Nodup.map_on
      · intro b hb b' hb' heq
        exact List.inj_on_of_nodup_map h.hostIds (List.mem_filter.mp hb).1
          (List.mem_filter.mp hb').1 (Entry.mk.inj heq).2
      · exact h.hostIds.of_map.filter _
    · intro e he he'
      obtain ⟨b, -, rfl⟩ := List.mem_map.mp he
      obtain ⟨d, -, heq⟩ := List.mem_map.mp he'
      cases (Entry.mk.inj heq).1
  unfold hostVictims
  apply (List.Perm.nodup_iff ((List.perm_insertionSort _ _).map Keyed.entry)).mpr
  exact hkeyed.sublist (List.filter_sublist.map _)

/-- What a plan drops is a head of the victims. -/
theorem Ledger.hostRoom_drops (h : c.Ledger) (m : Tier) (n : Nat) (mine : Rank) (tails : Nat) :
    ∃ rest, c.hostVictims m mine = (c.hostRoom m n mine tails).drops ++ rest := by
  obtain ⟨taken, rest, hsplit, hdrops, -⟩ :=
    h.planDrops m (m.hostBytes n true + tails)
      (fun e (he : e ∈ c.hostVictims m mine) => (mem_hostVictims.mp he).has)
      ⟨c.hostHeld, c.parkedHeld, [], []⟩
  rw [List.nil_append] at hdrops
  unfold hostRoom
  split
  next => exact ⟨c.hostVictims m mine, rfl⟩
  next =>
    refine ⟨rest, ?_⟩
    rw [← hdrops] at hsplit
    dsimp only
    split
    next => exact hsplit
    next => split <;> exact hsplit

/-- A plan that is kept: the victims' shortest head whose going makes the room. -/
theorem Ledger.hostRoom_kept (h : c.Ledger) {n tails : Nat}
    (hkept : (c.hostRoom m n mine tails).why = .kept) :
    (c.dropAll (c.hostRoom m n mine tails).drops).hostHeld + (m.hostBytes n true + tails) ≤
        m.hostCap ∧
      ∀ gone e after, (c.hostRoom m n mine tails).drops = gone ++ e :: after →
        m.hostCap < (c.dropAll gone).hostHeld + (m.hostBytes n true + tails) := by
  have hnodup := hostVictims_nodup (m := m) h mine
  obtain ⟨taken, rest, hsplit, hdrops, hheld, hneed, hend⟩ :=
    h.planDrops m (m.hostBytes n true + tails)
      (fun e (he : e ∈ c.hostVictims m mine) => (mem_hostVictims.mp he).has)
      ⟨c.hostHeld, c.parkedHeld, [], []⟩
  have hrest : (c.hostRoom m n mine tails).drops = taken ∧
      c.hostHeld - (taken.map c.bytesOf).sum + (m.hostBytes n true + tails) ≤ m.hostCap := by
    unfold hostRoom at hkept ⊢
    split at hkept
    next => cases hkept
    next hlarger =>
      rw [if_neg hlarger]
      dsimp only at hkept ⊢
      rw [hdrops, hheld, List.nil_append] at *
      split at hkept
      next hshort => split at hkept <;> cases hkept
      next hshort =>
        rw [if_neg hshort]
        refine ⟨?_, Nat.le_of_not_lt hshort⟩
        split <;> rfl
  obtain ⟨rfl, hfits⟩ := hrest
  have hsub : (c.hostRoom m n mine tails).drops.Nodup := by
    rw [hsplit] at hnodup
    exact hnodup.of_append_left
  refine ⟨?_, ?_⟩
  · rw [h.dropAll_held hsub]
    exact hfits
  · intro gone e after hgone
    have hgn : gone.Nodup := by
      rw [hgone] at hsub
      exact hsub.of_append_left
    rw [h.dropAll_held hgn]
    exact hneed gone e after hgone

/-- The entries dropped for a copy each give way to it when they are dropped, the copy fits after
them, and room made by ranking again after every drop takes the same ones. -/
structure DropsInRank (c : Cache) (m : Tier) (n : Nat) (mine : Rank) (tails : Nat)
    (drops : List Entry) : Prop where
  gives : ∀ gone e rest, drops = gone ++ e :: rest → (c.dropAll gone).GivesWay m mine e
  fits : (c.dropAll drops).hostHeld + (m.hostBytes n true + tails) ≤ m.hostCap
  again : (c.hostRoomFor m (m.hostBytes n true + tails) mine).2 = drops

/-- Of the entries below `mine`, in the order they rank in, each that is reached before the room is
made still comes first of what is left with those before it gone. -/
def StaysFirst (c : Cache) (m : Tier) (n : Nat) (mine : Rank) (tails : Nat) : Prop :=
  ∀ gone e rest, c.hostVictims m mine = gone ++ e :: rest →
    m.hostCap < (c.dropAll gone).hostHeld + (m.hostBytes n true + tails) →
      (c.dropAll gone).ComesFirst m mine e

theorem Ledger.dropAll_le (h : c.Ledger) (es more : List Entry) :
    (c.dropAll (es ++ more)).hostHeld ≤ (c.dropAll es).hostHeld := by
  have happ : c.dropAll (es ++ more) = (c.dropAll es).dropAll more := List.foldl_append
  rw [happ]
  have h := h.dropAll es
  clear happ
  generalize c.dropAll es = d at *
  induction more generalizing d with
  | nil => exact Nat.le_refl _
  | cons e more ih =>
    have := ih _ (h.drop e)
    have := h.drop_held e
    show ((d.drop e).dropAll more).hostHeld ≤ _
    omega

/-- Ranking again drops exactly the entries that come first one after another. -/
theorem hostRoomForGo_iff {bytes fuel : Nat} {drops : List Entry} (hfuel : drops.length ≤ fuel)
    (hshort : ∀ gone e after, drops = gone ++ e :: after →
      m.hostCap < (c.dropAll gone).hostHeld + bytes)
    (hfits : (c.dropAll drops).hostHeld + bytes ≤ m.hostCap) :
    (hostRoomForGo m bytes mine fuel c).2 = drops ↔
      ∀ gone e after, drops = gone ++ e :: after → (c.dropAll gone).ComesFirst m mine e := by
  induction drops generalizing c fuel with
  | nil =>
    constructor
    · intro _ gone e after hsplit
      simp at hsplit
    · intro _
      cases fuel with
      | zero => rfl
      | succ fuel =>
        have hfits : c.hostHeld + bytes ≤ m.hostCap := hfits
        simp only [hostRoomForGo, if_pos hfits]
  | cons e drops ih =>
    cases fuel with
    | zero => simp at hfuel
    | succ fuel =>
      have hnow : ¬ c.hostHeld + bytes ≤ m.hostCap := Nat.not_le.mpr (hshort [] e drops rfl)
      have ih := ih (c := c.drop e) (Nat.le_of_succ_le_succ hfuel)
        (fun gone e' after hsplit => hshort (e :: gone) e' after (by rw [hsplit]; rfl)) hfits
      simp only [hostRoomForGo, if_neg hnow]
      constructor
      · intro hgo gone e' after hsplit
        cases hv : c.hostVictims m mine with
        | nil =>
          rw [hv] at hgo
          cases hgo
        | cons v vs =>
          rw [hv] at hgo
          obtain ⟨rfl, hrest⟩ := List.cons.inj hgo
          cases gone with
          | nil =>
            obtain ⟨rfl, -⟩ := List.cons.inj hsplit
            exact head?_hostVictims.mp (by rw [dropAll, List.foldl_nil, hv]; rfl)
          | cons g gone =>
            obtain ⟨rfl, hafter⟩ := List.cons.inj hsplit
            exact ih.mp hrest gone e' after hafter
      · intro hfirst
        have hhead := head?_hostVictims.mpr (hfirst [] e drops rfl)
        obtain ⟨vs, hv⟩ := List.head?_eq_some_iff.mp hhead
        have hv : c.hostVictims m mine = e :: vs := hv
        rw [hv]
        show e :: _ = e :: drops
        rw [ih.mpr fun gone e' after hsplit =>
          hfirst (e :: gone) e' after (by rw [hsplit]; rfl)]

theorem hostVictims_length (c : Cache) (m : Tier) (mine : Rank) :
    (c.hostVictims m mine).length ≤ c.entries := by
  unfold hostVictims keyed entries
  rw [List.length_map, List.length_insertionSort]
  refine (List.length_filter_le _ _).trans ?_
  rw [List.length_append, List.length_map, List.length_map]
  exact Nat.add_le_add (List.length_filter_le _ _) (List.length_filter_le _ _)

theorem writeBack_kept {d : Donor} {now : Int} {saved : Option HostHistory} {drops : List Entry}
    (h : (c.writeBack m d now saved).2 = .kept drops) :
    ∃ copy, saved = some copy ∧
      c.hostRoom m (m.copyLength d) (donorRank d) (tailBytes d.tails) = ⟨.kept, drops⟩ ∧
      (c.writeBack m d now saved).1 = (c.dropAll drops).keepCopy d (m.copyLength d) copy := by
  unfold writeBack at h ⊢
  split at h
  next => cases h
  next hcap =>
    rw [if_neg hcap]
    split at h
    next => cases h
    next hlen =>
      rw [if_neg hlen]
      split at h
      next => cases h
      next =>
        unfold carryOut at h ⊢
        cases hplan : c.hostRoom m (m.copyLength d) (donorRank d) (tailBytes d.tails) with
        | mk why planned =>
          rw [hplan] at h
          cases why <;> cases saved <;> cases h
          exact ⟨_, rfl, rfl, rfl⟩

/-- A copy that came back, ranked lowest only while the superseded one before it holds its row. -/
def coveredCopies : Cache :=
  ⟨[⟨3, [7, 8, 9], [⟨3, 1, []⟩], 3, false, none, 0, 0, false, false, 3, [], 9⟩],
    [⟨1, [1], [⟨1, 1, []⟩], ⟨1, 67108864, [1]⟩, false, true, 0, false, [], 5⟩,
      ⟨2, [1, 2], [⟨2, 1, []⟩], ⟨2, 134217728, [2]⟩, true, false, 0, false, [], 1⟩],
    [], [], 201326592, 0, 0, 0, 0, none, [], [], none, 3⟩

def slabTier : Tier :=
  ⟨1, false, id, fun n _ => n * 67108864, fun _ _ _ => .fits, 201326592⟩

def leavingDonor : Donor :=
  ⟨3, [7, 8, 9], [⟨3, 1, []⟩], 3, false, none, 0, 0, false, false, 3, [], 9⟩

theorem coveredCopies_ledger : coveredCopies.Ledger :=
  ⟨by decide, by decide, by decide, by decide⟩

theorem coveredCopies_kept :
    (coveredCopies.writeBack slabTier leavingDonor 10 (some ⟨3, 201326592, [3]⟩)).2 =
      .kept [⟨false, 2⟩, ⟨false, 1⟩] := by
  decide

end Cache

end HostCache

end Llmx
