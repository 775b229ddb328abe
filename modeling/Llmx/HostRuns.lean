import Llmx.HostOps
import Llmx.WriteBackPlan

namespace Llmx

theorem find?_eraseP_self {α : Type} {key : α → Nat} {l : List α} (h : (l.map key).Nodup)
    (k : Nat) : ((l.eraseP fun x => key x == k).find? fun x => key x == k) = none := by
  induction l with
  | nil => rfl
  | cons x l ih =>
    obtain ⟨hx, hl⟩ := List.nodup_cons.mp h
    by_cases hk : key x = k
    · rw [List.eraseP_cons_of_pos (by simpa using hk), List.find?_eq_none]
      intro y hy hyk
      exact hx (List.mem_map.mpr ⟨y, hy, (beq_iff_eq.mp hyk).trans hk.symm⟩)
    · have hne : (key x == k) = false := beq_eq_false_iff_ne.mpr hk
      simp [hne, ih hl]

theorem sum_map_eraseIdx {α : Type} (f : α → Nat) {l : List α} {i : Nat} {x : α}
    (h : l[i]? = some x) : (l.map f).sum = f x + ((l.eraseIdx i).map f).sum := by
  induction l generalizing i with
  | nil => simp at h
  | cons y l ih =>
    cases i with
    | zero =>
      cases h
      rfl
    | succ i =>
      have := ih (i := i) (by simpa using h)
      simp only [List.eraseIdx_cons_succ, List.map_cons, List.sum_cons]
      omega

namespace HostCache

namespace Cache

variable {c c' : Cache} {m : Tier} {mine : Rank} {e e' : Entry}

theorem Has.of_drop (hl : c.Ledger) (h : (c.drop e).Has e') : c.Has e' ∧ e' ≠ e := by
  obtain ⟨-, -, hhost, hbounds, -⟩ := drop_spec c e
  by_cases hne : e' = e
  · subst hne
    unfold Has findBound findHost at h
    rw [hhost, hbounds] at h
    split at h
    next =>
      rw [find?_eraseP_self hl.boundIds] at h
      cases h
    next =>
      rw [find?_eraseP_self hl.hostIds] at h
      cases h
  · refine ⟨?_, hne⟩
    unfold Has at *
    split at h
    next hb =>
      rw [if_pos hb]
      rw [findBound_drop (Ne.symm hne) hb] at h
      exact h
    next hb =>
      rw [if_neg hb]
      rw [findHost_drop (Ne.symm hne) hb] at h
      exact h

theorem Has.of_dropAll (hl : c.Ledger) {es : List Entry} (h : (c.dropAll es).Has e) :
    c.Has e ∧ e ∉ es := by
  induction es generalizing c with
  | nil => exact ⟨h, by simp⟩
  | cons v es ih =>
    obtain ⟨hv, hnot⟩ := ih (hl.drop v) h
    obtain ⟨he, hne⟩ := hv.of_drop hl
    exact ⟨he, by simp [hne, hnot]⟩

/-- Room made is entries dropped, each there and once. -/
theorem hostRoomForGo_drops (hl : c.Ledger) (m : Tier) (bytes : Nat) (mine : Rank) (fuel : Nat) :
    (hostRoomForGo m bytes mine fuel c).1 = c.dropAll (hostRoomForGo m bytes mine fuel c).2 ∧
      (hostRoomForGo m bytes mine fuel c).2.Nodup ∧
      ∀ e ∈ (hostRoomForGo m bytes mine fuel c).2, c.Has e := by
  induction fuel generalizing c with
  | zero => exact ⟨rfl, by simp [hostRoomForGo], by simp [hostRoomForGo]⟩
  | succ fuel ih =>
    unfold hostRoomForGo
    split
    next => exact ⟨rfl, by simp, by simp⟩
    next =>
      split
      next => exact ⟨rfl, by simp, by simp⟩
      next e vs hv =>
        obtain ⟨hdrops, hnodup, hhas⟩ := ih (hl.drop e)
        have he : c.Has e := (mem_hostVictims.mp (by rw [hv]; exact List.mem_cons_self)).has
        refine ⟨hdrops, List.nodup_cons.mpr ⟨?_, hnodup⟩, ?_⟩
        · intro hmem
          exact ((hhas e hmem).of_drop hl).2 rfl
        · intro v hv'
          rcases List.mem_cons.mp hv' with rfl | hv'
          · exact he
          · exact ((hhas v hv').of_drop hl).1

/-- The invariant of the host tier: its ledger exact and within its cap, ids never given twice. -/
structure Sound (c : Cache) (m : Tier) : Prop where
  ledger : c.Ledger
  cap : c.hostHeld ≤ m.hostCap
  hostIds : ∀ h ∈ c.host, h.id ≤ c.donorIds
  boundIds : ∀ b ∈ c.bounds, b.id ≤ c.donorIds
  donorIds : ∀ d ∈ c.donors, d.id ≤ c.donorIds
  nodup : (c.donors.map Donor.id).Nodup
  apart : ∀ d ∈ c.donors, ∀ h ∈ c.host, d.id ≠ h.id

theorem Sound.drop (h : c.Sound m) (e : Entry) : (c.drop e).Sound m := by
  obtain ⟨hheld, -, hhost, hbounds, -, hdonors, hids⟩ := drop_spec c e
  have hsub : ∀ d ∈ (c.drop e).host, d ∈ c.host := by
    rw [hhost]
    split
    next => exact fun _ hd => hd
    next => exact fun _ hd => List.mem_of_mem_eraseP hd
  refine ⟨h.ledger.drop e, ?_, ?_, ?_, ?_, ?_, ?_⟩
  · rw [h.ledger.drop_held e]
    exact (Nat.sub_le _ _).trans h.cap
  · intro d hd
    rw [hids]
    exact h.hostIds d (hsub d hd)
  · intro b hb
    rw [hids]
    apply h.boundIds b
    rw [hbounds] at hb
    split at hb
    next => exact List.mem_of_mem_eraseP hb
    next => exact hb
  · rw [hids, hdonors]
    exact h.donorIds
  · rw [hdonors]
    exact h.nodup
  · rw [hdonors]
    exact fun d hd x hx => h.apart d hd x (hsub x hx)

theorem Sound.dropAll (h : c.Sound m) (es : List Entry) : (c.dropAll es).Sound m := by
  induction es generalizing c with
  | nil => exact h
  | cons e es ih => exact ih (h.drop e)

/-- What an operation that keeps nothing leaves: the entries and reads as they were, less the
entries it dropped for room. -/
structure GivesUp (c c' : Cache) (drops : List Entry) : Prop where
  dropped : ∀ e ∈ drops, c.Has e
  entries : ∀ e, c'.Has e → c.Has e ∧ e ∉ drops
  bytes : ∀ e, c'.Has e → c'.bytesOf e = c.bytesOf e
  held : c'.hostHeld = c.hostHeld - (drops.map c.bytesOf).sum
  diskReads : c'.diskReads = c.diskReads

theorem dropAll_same (c : Cache) (es : List Entry) :
    (c.dropAll es).diskReads = c.diskReads ∧ (c.dropAll es).donors = c.donors ∧
      (c.dropAll es).donorIds = c.donorIds ∧ (c.dropAll es).host ⊆ c.host := by
  induction es generalizing c with
  | nil => exact ⟨rfl, rfl, rfl, fun _ hx => hx⟩
  | cons e es ih =>
    obtain ⟨hreads, hdonors, hids, hhost⟩ := ih (c.drop e)
    obtain ⟨-, -, hhost', -, hreads', hdonors', hids'⟩ := drop_spec c e
    refine ⟨hreads.trans hreads', hdonors.trans hdonors', hids.trans hids', fun x hx => ?_⟩
    have := hhost hx
    rw [hhost'] at this
    split at this
    next => exact this
    next => exact List.mem_of_mem_eraseP this

theorem bytesOf_dropAll {es : List Entry} (he : e ∉ es) :
    (c.dropAll es).bytesOf e = c.bytesOf e := by
  induction es generalizing c with
  | nil => rfl
  | cons v es ih =>
    obtain ⟨hne, hnot⟩ : e ≠ v ∧ e ∉ es := by simpa using he
    show ((c.drop v).dropAll es).bytesOf e = _
    rw [ih hnot, bytesOf_drop (Ne.symm hne)]

theorem Ledger.givesUp (h : c.Ledger) {es : List Entry} (hes : es.Nodup) (hhas : ∀ e ∈ es, c.Has e) :
    c.GivesUp (c.dropAll es) es :=
  ⟨hhas, fun _ he => he.of_dropAll h, fun _ he => bytesOf_dropAll (he.of_dropAll h).2,
    h.dropAll_held hes, (dropAll_same c es).1⟩

theorem GivesUp.trans {c'' : Cache} {es more : List Entry} (h : c.GivesUp c' es)
    (h' : c'.GivesUp c'' more) : c.GivesUp c'' (es ++ more) := by
  have hmore : more.map c'.bytesOf = more.map c.bytesOf :=
    List.map_congr_left fun e he => h.bytes e (h'.dropped e he)
  refine ⟨?_, ?_, ?_, ?_, h'.diskReads.trans h.diskReads⟩
  · intro e he
    rcases List.mem_append.mp he with he | he
    · exact h.dropped e he
    · exact (h.entries e (h'.dropped e he)).1
  · intro e he
    obtain ⟨he', hnot'⟩ := h'.entries e he
    obtain ⟨he, hnot⟩ := h.entries e he'
    exact ⟨he, fun hmem => (List.mem_append.mp hmem).elim hnot hnot'⟩
  · exact fun e he => (h'.bytes e he).trans (h.bytes e (h'.entries e he).1)
  · rw [h'.held, h.held, hmore, List.map_append, List.sum_append, Nat.sub_sub]

/-- What an outcome says of the entries and of the bytes held. -/
def Leaves (c c' : Cache) : Outcome → Prop
  | .nothing => c.GivesUp c' []
  | .refused drops => c.GivesUp c' drops
  | .failed drops => c.GivesUp c' drops
  | _ => True

/-- Entries marked or ordered anew, with what they hold as it was. -/
structure Remarked (c c' : Cache) : Prop where
  host : (c'.host.map fun h => (h.id, h.history, h.tails)).Perm
    (c.host.map fun h => (h.id, h.history, h.tails))
  bounds : (c'.bounds.map fun b => (b.id, b.state)).Perm (c.bounds.map fun b => (b.id, b.state))
  diskReads : c'.diskReads = c.diskReads
  hostHeld : c'.hostHeld = c.hostHeld
  hostTails : c'.hostTails = c.hostTails

theorem Remarked.hostIds (h : c.Remarked c') :
    (c'.host.map HostDonor.id).Perm (c.host.map HostDonor.id) := by
  have := h.host.map Prod.fst
  rwa [List.map_map, List.map_map] at this

theorem Remarked.boundIds (h : c.Remarked c') :
    (c'.bounds.map Boundary.id).Perm (c.bounds.map Boundary.id) := by
  have := h.bounds.map Prod.fst
  rwa [List.map_map, List.map_map] at this

theorem Ledger.remarked (h : c.Ledger) (hr : c.Remarked c') : c'.Ledger := by
  have hhost := (hr.host.map fun p => p.2.1.held + tailBytes p.2.2).sum_eq
  have htails := (hr.host.map fun p => tailBytes p.2.2).sum_eq
  have hbounds := (hr.bounds.map fun p => p.2.held).sum_eq
  rw [List.map_map, List.map_map] at hhost htails hbounds
  refine ⟨?_, ?_, hr.hostIds.nodup_iff.mpr h.hostIds, hr.boundIds.nodup_iff.mpr h.boundIds⟩
  · rw [hr.hostHeld, hr.diskReads, h.held]
    exact congrArg₂ (· + ·) (congrArg₂ (· + ·) hhost.symm hbounds.symm) rfl
  · rw [hr.hostTails, h.tails]
    exact htails.symm

theorem Sound.remarked (h : c.Sound m) (hr : c.Remarked c') (hids : c.donorIds ≤ c'.donorIds)
    (hnodup : (c'.donors.map Donor.id).Nodup)
    (hdonors : ∀ d ∈ c'.donors, d.id ∈ c.donors.map Donor.id ∨
      c.donorIds < d.id ∧ d.id ≤ c'.donorIds) : c'.Sound m := by
  have hhost : ∀ x ∈ c'.host, ∃ y ∈ c.host, y.id = x.id := fun x hx =>
    List.mem_map.mp (hr.hostIds.mem_iff.mp (List.mem_map.mpr ⟨x, hx, rfl⟩))
  refine ⟨h.ledger.remarked hr, by rw [hr.hostHeld]; exact h.cap, ?_, ?_, ?_, hnodup, ?_⟩
  · intro x hx
    obtain ⟨y, hy, hid⟩ := hhost x hx
    have := h.hostIds y hy
    omega
  · intro b hb
    obtain ⟨y, hy, hid⟩ :=
      List.mem_map.mp (hr.boundIds.mem_iff.mp (List.mem_map.mpr ⟨b, hb, rfl⟩))
    have := h.boundIds y hy
    omega
  · intro d hd
    rcases hdonors d hd with hold | hnew
    · obtain ⟨d', hd', hid⟩ := List.mem_map.mp hold
      have := h.donorIds d' hd'
      omega
    · exact hnew.2
  · intro d hd x hx
    obtain ⟨y, hy, hid⟩ := hhost x hx
    rcases hdonors d hd with hold | hnew
    · obtain ⟨d', hd', hid'⟩ := List.mem_map.mp hold
      have := h.apart d' hd' y hy
      omega
    · have := h.hostIds y hy
      omega

theorem Sound.elsewhere (h : c.Sound m) (he : c.Elsewhere c') : c'.Sound m :=
  h.remarked ⟨he.host, he.bounds, he.diskReads, he.hostHeld, he.hostTails⟩ he.donorIds he.nodup
    he.donors

/-- A copy added to the tier under an id no holder has. -/
theorem Sound.addHost (h : c.Sound m) (d : HostDonor) {ids held tails : Nat}
    (hnew : held = c.hostHeld + d.bytes) (hnewTails : tails = c.hostTails + tailBytes d.tails)
    (hfits : held ≤ m.hostCap) (hids : c.donorIds ≤ ids) (hid : d.id ≤ ids)
    (hhost : ∀ x ∈ c.host, x.id ≠ d.id) (hdonors : ∀ x ∈ c.donors, x.id ≠ d.id) :
    ({ c with
      donorIds := ids
      host := c.host ++ [d]
      hostHeld := held
      hostTails := tails } : Cache).Sound m := by
  have hheld := h.ledger.held
  have htails := h.ledger.tails
  refine ⟨⟨?_, ?_, ?_, h.ledger.boundIds⟩, hfits, ?_, ?_, ?_, h.nodup, ?_⟩
  · show held = _
    simp only [List.map_append, List.sum_append, List.map_cons, List.map_nil, List.sum_cons,
      List.sum_nil]
    omega
  · show tails = _
    simp only [List.map_append, List.sum_append, List.map_cons, List.map_nil, List.sum_cons,
      List.sum_nil]
    omega
  · show ((c.host ++ [d]).map HostDonor.id).Nodup
    rw [List.map_append, List.nodup_append]
    refine ⟨h.ledger.hostIds, by simp, ?_⟩
    intro k hk k' hk'
    obtain ⟨x, hx, rfl⟩ := List.mem_map.mp hk
    obtain rfl : k' = d.id := by simpa using hk'
    exact hhost x hx
  · intro x hx
    rcases List.mem_append.mp hx with hx | hx
    · exact (h.hostIds x hx).trans hids
    · rw [List.mem_singleton.mp hx]
      exact hid
  · exact fun b hb => (h.boundIds b hb).trans hids
  · exact fun x hx => (h.donorIds x hx).trans hids
  · intro x hx y hy
    rcases List.mem_append.mp hy with hy | hy
    · exact h.apart x hx y hy
    · rw [List.mem_singleton.mp hy]
      exact hdonors x hx

/-- A boundary added to the tier. -/
theorem Sound.addBound (h : c.Sound m) (b : Boundary) {held : Nat}
    (hnew : held = c.hostHeld + b.state.held) (hfits : held ≤ m.hostCap)
    (hid : b.id = c.donorIds + 1) :
    ({ c with
      donorIds := c.donorIds + 1
      bounds := c.bounds ++ [b]
      hostHeld := held } : Cache).Sound m := by
  have hheld := h.ledger.held
  refine ⟨⟨?_, h.ledger.tails, h.ledger.hostIds, ?_⟩, hfits, ?_, ?_, ?_, h.nodup, h.apart⟩
  · show held = _
    simp only [List.map_append, List.sum_append, List.map_cons, List.map_nil, List.sum_cons,
      List.sum_nil]
    omega
  · show ((c.bounds ++ [b]).map Boundary.id).Nodup
    rw [List.map_append, List.nodup_append]
    refine ⟨h.ledger.boundIds, by simp, ?_⟩
    intro k hk k' hk'
    obtain ⟨x, hx, rfl⟩ := List.mem_map.mp hk
    obtain rfl : k' = b.id := by simpa using hk'
    have := h.boundIds x hx
    omega
  · exact fun x hx => Nat.le_succ_of_le (h.hostIds x hx)
  · intro x hx
    rcases List.mem_append.mp hx with hx | hx
    · exact Nat.le_succ_of_le (h.boundIds x hx)
    · rw [List.mem_singleton.mp hx]
      exact Nat.le_of_eq hid
  · exact fun x hx => Nat.le_succ_of_le (h.donorIds x hx)

/-- A read's slabs counted as it starts. -/
theorem Sound.addRead (h : c.Sound m) (rd : DiskRead)
    (hfits : c.hostHeld + rd.history.held ≤ m.hostCap) :
    ({ c with
      hostHeld := c.hostHeld + rd.history.held
      diskReads := c.diskReads ++ [rd] } : Cache).Sound m := by
  have hheld := h.ledger.held
  refine ⟨⟨?_, h.ledger.tails, h.ledger.hostIds, h.ledger.boundIds⟩, hfits, h.hostIds, h.boundIds,
    h.donorIds, h.nodup, h.apart⟩
  show c.hostHeld + rd.history.held = _
  simp only [List.map_append, List.sum_append, List.map_cons, List.map_nil, List.sum_cons,
    List.sum_nil]
  omega

theorem Sound.leave (h : c.Sound m) {ds : List Donor} (hds : ds.Sublist c.donors) :
    ({ c with donors := ds } : Cache).Sound m :=
  ⟨⟨h.ledger.held, h.ledger.tails, h.ledger.hostIds, h.ledger.boundIds⟩, h.cap, h.hostIds,
    h.boundIds, fun d hd => h.donorIds d (hds.subset hd), h.nodup.sublist (hds.map _),
    fun d hd => h.apart d (hds.subset hd)⟩

theorem ne_of_eraseIdx {i : Nat} {d : Donor} {ds : List Donor} (h : (ds.map Donor.id).Nodup)
    (hd : ds[i]? = some d) : ∀ x ∈ ds.eraseIdx i, x.id ≠ d.id := by
  induction ds generalizing i with
  | nil => simp at hd
  | cons y ds ih =>
    obtain ⟨hy, hds⟩ := List.nodup_cons.mp h
    cases i with
    | zero =>
      cases hd
      intro x hx hid
      exact hy (List.mem_map.mpr ⟨x, hx, hid⟩)
    | succ i =>
      have hd : ds[i]? = some d := by simpa using hd
      intro x hx
      rcases List.mem_cons.mp hx with rfl | hx
      · intro hid
        exact hy (List.mem_map.mpr ⟨d, List.mem_of_getElem? hd, hid.symm⟩)
      · exact ih hds hd x hx

theorem remarked_renewHost (c : Cache) (i : Nat) (back : Bool) (now : Int) :
    c.Remarked (c.renewHost i back now) := by
  unfold renewHost
  split
  next => exact ⟨.refl _, .refl _, rfl, rfl, rfl⟩
  next x hx =>
    refine ⟨?_, .refl _, rfl, rfl, rfl⟩
    obtain ⟨hlt, rfl⟩ := List.getElem?_eq_some_iff.mp hx
    have hperm := (List.getElem_cons_eraseIdx_perm hlt).map fun h => (h.id, h.history, h.tails)
    rw [List.map_append]
    exact List.perm_append_comm.trans hperm

theorem remarked_rotateHost (c : Cache) (id : Nat) : c.Remarked (c.rotateHost id) := by
  unfold rotateHost
  split
  next => exact ⟨.refl _, .refl _, rfl, rfl, rfl⟩
  next i hi =>
    refine ⟨?_, .refl _, rfl, rfl, rfl⟩
    obtain ⟨hlt, -⟩ := List.findIdx?_eq_some_iff_getElem.mp hi
    have hperm := (List.getElem_cons_eraseIdx_perm hlt).map fun h => (h.id, h.history, h.tails)
    rw [List.getElem?_eq_getElem hlt, List.map_append]
    exact List.perm_append_comm.trans hperm

/-- The drops of a plan are entries there, each once. -/
theorem Ledger.hostRoom_has (h : c.Ledger) (m : Tier) (n : Nat) (mine : Rank) (tails : Nat) :
    (c.hostRoom m n mine tails).drops.Nodup ∧ ∀ e ∈ (c.hostRoom m n mine tails).drops, c.Has e := by
  obtain ⟨rest, hsplit⟩ := h.hostRoom_drops m n mine tails
  have hnodup := hostVictims_nodup (m := m) h mine
  rw [hsplit] at hnodup
  refine ⟨hnodup.of_append_left, fun e he => ?_⟩
  have hvictim : e ∈ c.hostVictims m mine := by
    rw [hsplit]
    exact List.mem_append_left _ he
  exact (mem_hostVictims.mp hvictim).has

/-- The copy of a donor that leaves, where the plan keeps it. -/
theorem Sound.keepCopy (h : c.Sound m) {i n : Nat} {d : Donor} {saved : HostHistory}
    (hd : c.donors[i]? = some d) {drops : List Entry} {tails : Nat} (htails : tails = tailBytes d.tails)
    (hsaved : saved.held ≤ m.hostBytes n true)
    (hfits : (c.dropAll drops).hostHeld + (m.hostBytes n true + tails) ≤ m.hostCap) :
    ({ (c.dropAll drops).keepCopy d n saved with donors := c.donors.eraseIdx i } : Cache).Sound m := by
  have hdrops := h.dropAll drops
  obtain ⟨-, hdonors, hids, hhost⟩ := dropAll_same c drops
  have hsub : (c.donors.eraseIdx i).Sublist (c.dropAll drops).donors := by
    rw [hdonors]
    exact List.eraseIdx_sublist _ _
  have hmem := List.mem_of_getElem? hd
  have hid := h.donorIds d hmem
  have hother := ne_of_eraseIdx h.nodup hd
  apply (hdrops.leave hsub).addHost
    ⟨if d.id ≠ 0 then d.id else (c.dropAll drops).donorIds + 1, d.tokens.take n, clip d.classes n,
      saved, false, d.back, 0, false, d.tails, d.used⟩ rfl rfl
  · show (c.dropAll drops).hostHeld + (saved.held + tailBytes d.tails) ≤ m.hostCap
    omega
  · show (c.dropAll drops).donorIds ≤
      if d.id ≠ 0 then (c.dropAll drops).donorIds else (c.dropAll drops).donorIds + 1
    split <;> omega
  · show (if d.id ≠ 0 then d.id else (c.dropAll drops).donorIds + 1) ≤
      if d.id ≠ 0 then (c.dropAll drops).donorIds else (c.dropAll drops).donorIds + 1
    rw [hids]
    split <;> omega
  · intro x hx
    have hx' := hhost hx
    have := h.hostIds x hx'
    have := h.apart d hmem x hx'
    show x.id ≠ if d.id ≠ 0 then d.id else (c.dropAll drops).donorIds + 1
    rw [hids]
    split <;> omega
  · intro x hx
    have := hother x hx
    have := h.donorIds x (List.mem_of_mem_eraseIdx hx)
    show x.id ≠ if d.id ≠ 0 then d.id else (c.dropAll drops).donorIds + 1
    rw [hids]
    split <;> omega

theorem Sound.ids (h : c.Sound m) {ids : Nat} (hids : c.donorIds ≤ ids) :
    ({ c with donorIds := ids } : Cache).Sound m :=
  ⟨⟨h.ledger.held, h.ledger.tails, h.ledger.hostIds, h.ledger.boundIds⟩, h.cap,
    fun x hx => (h.hostIds x hx).trans hids, fun b hb => (h.boundIds b hb).trans hids,
    fun d hd => (h.donorIds d hd).trans hids, h.nodup, h.apart⟩

theorem Sound.evict (h : c.Sound m) {i : Nat} {now : Int} {saved : Option HostHistory}
    (ht : c.Takes m (.writeBack i now saved)) :
    (c.evict m i now saved).1.Sound m ∧
      c.Leaves (c.evict m i now saved).1 (c.evict m i now saved).2 := by
  have hnothing := h.ledger.givesUp List.nodup_nil (by simp)
  unfold Cache.evict
  split
  next => exact ⟨h, hnothing⟩
  next d hd =>
    have hleave := h.leave (List.eraseIdx_sublist c.donors i)
    unfold writeBack
    split
    next => exact ⟨hleave, hnothing.1, hnothing.2, hnothing.3, hnothing.4, hnothing.5⟩
    next =>
      split
      next => exact ⟨hleave, hnothing.1, hnothing.2, hnothing.3, hnothing.4, hnothing.5⟩
      next =>
        split
        next k hk =>
          refine ⟨?_, trivial⟩
          have hr := remarked_renewHost c k d.back now
          exact hleave.remarked ⟨hr.host, hr.bounds, hr.diskReads, hr.hostHeld, hr.hostTails⟩
            (by unfold renewHost; split <;> exact Nat.le_refl _) hleave.nodup
            fun x hx => .inl (List.mem_map.mpr ⟨x, hx, rfl⟩)
        next =>
          obtain ⟨hnodup, hhas⟩ :=
            h.ledger.hostRoom_has m (m.copyLength d) (donorRank d) (tailBytes d.tails)
          have hkept : (c.hostRoom m (m.copyLength d) (donorRank d) (tailBytes d.tails)).why = .kept →
              _ := fun hwhy => (h.ledger.hostRoom_kept hwhy).1
          generalize c.hostRoom m (m.copyLength d) (donorRank d) (tailBytes d.tails) = plan at *
          obtain ⟨hreads, hdonors, hids, hhost⟩ := dropAll_same c plan.drops
          have hdrops := h.dropAll plan.drops
          have hgives := h.ledger.givesUp hnodup hhas
          have hsub : (c.donors.eraseIdx i).Sublist (c.dropAll plan.drops).donors := by
            rw [hdonors]
            exact List.eraseIdx_sublist _ _
          have hgone := hdrops.leave hsub
          unfold carryOut
          split
          next => exact ⟨hleave, hnothing.1, hnothing.2, hnothing.3, hnothing.4, hnothing.5⟩
          next => exact ⟨hleave, hnothing.1, hnothing.2, hnothing.3, hnothing.4, hnothing.5⟩
          next => exact ⟨hleave, hnothing.1, hnothing.2, hnothing.3, hnothing.4, hnothing.5⟩
          next => exact ⟨hgone, hgives.1, hgives.2, hgives.3, hgives.4, hgives.5⟩
          next hwhy =>
            split
            next =>
              refine ⟨hgone.ids ?_, hgives.1, hgives.2, hgives.3, hgives.4, hgives.5⟩
              show (c.dropAll plan.drops).donorIds ≤ if d.id ≠ 0 then c.donorIds else c.donorIds + 1
              rw [hids]
              split <;> omega
            next copy =>
              exact ⟨h.keepCopy hd rfl (ht d hd copy rfl) (hkept hwhy), trivial⟩

theorem Sound.hostRoomFor (h : c.Sound m) (bytes : Nat) (mine : Rank) :
    (c.hostRoomFor m bytes mine).1.Sound m ∧
      c.GivesUp (c.hostRoomFor m bytes mine).1 (c.hostRoomFor m bytes mine).2 ∧
      (c.hostRoomFor m bytes mine).1.donors = c.donors ∧
      (c.hostRoomFor m bytes mine).1.donorIds = c.donorIds ∧
      (c.hostRoomFor m bytes mine).1.host ⊆ c.host := by
  unfold Cache.hostRoomFor
  obtain ⟨hdrops, hnodup, hhas⟩ := hostRoomForGo_drops h.ledger m bytes mine (c.entries + 1)
  obtain ⟨-, hdonors, hids, hhost⟩ :=
    dropAll_same c (hostRoomForGo m bytes mine (c.entries + 1) c).2
  rw [hdrops]
  exact ⟨h.dropAll _, h.ledger.givesUp hnodup hhas, hdonors, hids, hhost⟩

theorem renewBounds_map (m : Tier) (n : Nat) (tokens : List UInt32) (classes : List RowClass)
    (back : Bool) (now : Int) (bs : List Boundary) :
    ((renewBounds m n tokens classes back now bs).1.map fun b => (b.id, b.state)) =
      bs.map fun b => (b.id, b.state) := by
  induction bs with
  | nil => rfl
  | cons b bs ih =>
    unfold renewBounds
    split_ifs
    · exact congrArg (List.cons (b.id, b.state)) ih
    · rfl
    · exact congrArg (List.cons (b.id, b.state)) ih

/-- Boundaries renewed where they stand: every entry is there as before, for as many bytes. -/
theorem bounds_renewed {bs : List Boundary}
    (h : (bs.map fun b => (b.id, b.state)) = c.bounds.map fun b => (b.id, b.state)) (e : Entry) :
    (({ c with bounds := bs } : Cache).Has e ↔ c.Has e) ∧
      ({ c with bounds := bs } : Cache).bytesOf e = c.bytesOf e := by
  have hfind : (bs.find? fun b => b.id == e.id).map (fun b => (b.id, b.state)) =
      (c.bounds.find? fun b => b.id == e.id).map fun b => (b.id, b.state) := by
    have := congrArg (List.find? fun p => p.1 == e.id) h
    rwa [List.find?_map, List.find?_map] at this
  unfold Has bytesOf findBound findHost
  split
  next =>
    cases hb : bs.find? fun b => b.id == e.id with
    | none =>
      rw [hb] at hfind
      rw [Option.map_eq_none_iff.mp hfind.symm]
      exact ⟨.rfl, rfl⟩
    | some b =>
      rw [hb] at hfind
      obtain ⟨b', hb', heq⟩ := Option.map_eq_some_iff.mp hfind.symm
      rw [hb']
      refine ⟨by simp, ?_⟩
      show b.state.held = b'.state.held
      rw [(Prod.mk.inj heq).2]
  next => exact ⟨.rfl, rfl⟩

theorem GivesUp.renewed {bs : List Boundary}
    (h : (bs.map fun b => (b.id, b.state)) = c.bounds.map fun b => (b.id, b.state))
    {drops : List Entry} (hg : ({ c with bounds := bs } : Cache).GivesUp c' drops) :
    c.GivesUp c' drops := by
  refine ⟨fun e he => (bounds_renewed h e).1.mp (hg.dropped e he), ?_, ?_, ?_, hg.diskReads⟩
  · intro e he
    obtain ⟨hhas, hnot⟩ := hg.entries e he
    exact ⟨(bounds_renewed h e).1.mp hhas, hnot⟩
  · intro e he
    rw [hg.bytes e he, (bounds_renewed h e).2]
  · have := hg.held
    rwa [List.map_congr_left fun e _ => (bounds_renewed h e).2] at this

theorem Sound.saveBound {c₀ : Cache} (h : c.Sound m) {n : Nat} {tokens : List UInt32}
    {classes : List RowClass} {back spare : Bool} {now : Int} {drops : List Entry}
    {saved : Option HostHistory} (hsaved : ∀ x ∈ saved, x.held ≤ m.hostBytes n false)
    (hfits : c.hostHeld + m.hostBytes n false ≤ m.hostCap) (hg : c₀.GivesUp c drops) :
    (c.saveBound n tokens classes back spare now drops saved).1.Sound m ∧
      c₀.Leaves (c.saveBound n tokens classes back spare now drops saved).1
        (c.saveBound n tokens classes back spare now drops saved).2 := by
  unfold Cache.saveBound
  split
  next => exact ⟨h.ids (Nat.le_succ _), hg.1, hg.2, hg.3, hg.4, hg.5⟩
  next copy =>
    have := hsaved copy rfl
    exact ⟨h.addBound ⟨c.donorIds + 1, tokens.take n, clip classes n, copy, 0, now, back, false,
      spare⟩ rfl (show c.hostHeld + copy.held ≤ m.hostCap by omega) rfl, trivial⟩

theorem Sound.boundRoom (h : c.Sound m) {n : Nat} {tokens : List UInt32}
    {classes : List RowClass} {back spare : Bool} {now : Int} {saved : Option HostHistory}
    (hsaved : ∀ x ∈ saved, x.held ≤ m.hostBytes n false) :
    (c.boundRoom m n tokens classes back spare now saved).1.Sound m ∧
      c.Leaves (c.boundRoom m n tokens classes back spare now saved).1
        (c.boundRoom m n tokens classes back spare now saved).2 := by
  have hnothing := h.ledger.givesUp List.nodup_nil (by simp)
  unfold Cache.boundRoom
  split
  next =>
    split
    next => exact ⟨h, hnothing⟩
    next hfits => exact h.saveBound hsaved (Nat.le_of_not_lt hfits) hnothing
  next =>
    obtain ⟨hs, hg, -⟩ := h.hostRoomFor (m.hostBytes n false) ⟨if back then 2 else 1, now⟩
    dsimp only
    generalize (⟨if back then 2 else 1, now⟩ : Rank) = mine at *
    split
    next hfits => exact hs.saveBound hsaved hfits hg
    next => exact ⟨hs, hg⟩

theorem Sound.keepBoundary (h : c.Sound m) {kept : Option Nat} {tokens : List UInt32}
    {classes : List RowClass} {back spare : Bool} {now : Int} {saved : Option HostHistory}
    (ht : c.Takes m (.keepBoundary kept tokens classes back spare now saved)) :
    (c.keepBoundary m kept tokens classes back spare now saved).1.Sound m ∧
      c.Leaves (c.keepBoundary m kept tokens classes back spare now saved).1
        (c.keepBoundary m kept tokens classes back spare now saved).2 := by
  have hnothing := h.ledger.givesUp List.nodup_nil (by simp)
  unfold Cache.keepBoundary
  split
  next => exact ⟨h, hnothing⟩
  next =>
    split
    next => exact ⟨h, hnothing⟩
    next n =>
      split
      next => exact ⟨h, hnothing⟩
      next =>
        have hmap := renewBounds_map m n tokens classes back now c.bounds
        dsimp only
        generalize renewBounds m n tokens classes back now c.bounds = r at *
        have hs : ({ c with bounds := r.1 } : Cache).Sound m :=
          h.remarked ⟨.refl _, .of_eq hmap, rfl, rfl, rfl⟩ (Nat.le_refl _) h.nodup
            fun x hx => .inl (List.mem_map.mpr ⟨x, hx, rfl⟩)
        split
        next => exact ⟨hs, trivial⟩
        next =>
          obtain ⟨hsound, hleaves⟩ := hs.boundRoom fun x hx => ht n rfl x hx
          refine ⟨hsound, ?_⟩
          revert hleaves
          cases (({ c with bounds := r.1 } : Cache).boundRoom m n tokens classes back spare now
            saved).2 with
          | nothing => exact fun hg => GivesUp.renewed hmap hg
          | renewed => exact fun _ => trivial
          | ended => exact fun _ => trivial
          | refused drops => exact fun hg => GivesUp.renewed hmap hg
          | failed drops => exact fun hg => GivesUp.renewed hmap hg
          | kept drops => exact fun _ => trivial

theorem Sound.readRoom (h : c.Sound m) (bytes source : Nat) (now : Int) :
    (c.readRoom m bytes source now).1.Sound m ∧
      c.GivesUp (c.readRoom m bytes source now).1 (c.readRoom m bytes source now).2 := by
  have hs : ({ c with readingFor := source } : Cache).Sound m :=
    ⟨⟨h.ledger.held, h.ledger.tails, h.ledger.hostIds, h.ledger.boundIds⟩, h.cap, h.hostIds,
      h.boundIds, h.donorIds, h.nodup, h.apart⟩
  obtain ⟨hr, hg, -⟩ := hs.hostRoomFor bytes ⟨2, now⟩
  exact ⟨⟨⟨hr.ledger.held, hr.ledger.tails, hr.ledger.hostIds, hr.ledger.boundIds⟩, hr.cap,
    hr.hostIds, hr.boundIds, hr.donorIds, hr.nodup, hr.apart⟩, hg.1, hg.2, hg.3, hg.4, hg.5⟩

theorem Sound.sendRead {c₀ : Cache} (h : c.Sound m) {length source readId : Nat} {stateOnly : Bool}
    {tokens : List UInt32} {classes : List RowClass} {drops : List Entry}
    {taken : Option HostHistory} (htaken : ∀ x ∈ taken, x.held ≤ m.hostBytes length !stateOnly)
    (hfits : c.hostHeld + m.hostBytes length (!stateOnly) ≤ m.hostCap) (hg : c₀.GivesUp c drops) :
    (c.sendRead length stateOnly tokens classes source drops taken readId).1.Sound m ∧
      c₀.Leaves (c.sendRead length stateOnly tokens classes source drops taken readId).1
        (c.sendRead length stateOnly tokens classes source drops taken readId).2 := by
  unfold Cache.sendRead
  split
  next => exact ⟨h, hg⟩
  next slabs =>
    split
    next => exact ⟨h, hg⟩
    next =>
      have := htaken slabs rfl
      exact ⟨h.addRead ⟨readId, slabs, stateOnly, source, tokens.take length, clip classes length⟩
        (show c.hostHeld + slabs.held ≤ m.hostCap by omega), trivial⟩

theorem Sound.startBlocks {c₀ : Cache} (h : c.Sound m) {length readId : Nat} {tokens : List UInt32}
    {classes : List RowClass} {now : Int} {before : List Entry}
    {taken : Nat → Bool → Option HostHistory}
    (htaken : ∀ n blocks, ∀ x ∈ taken n blocks, x.held ≤ m.hostBytes n blocks)
    (hg : c₀.GivesUp c before) :
    (c.startBlocks m length tokens classes now taken readId before).1.Sound m ∧
      c₀.Leaves (c.startBlocks m length tokens classes now taken readId before).1
        (c.startBlocks m length tokens classes now taken readId before).2 := by
  unfold Cache.startBlocks
  split
  next => exact ⟨h, hg⟩
  next =>
    obtain ⟨hs, hr⟩ := h.readRoom (m.hostBytes length true) 0 now
    dsimp only
    split
    next => exact ⟨hs, hg.trans hr⟩
    next hfits => exact hs.sendRead (htaken length true) (Nat.le_of_not_lt hfits) (hg.trans hr)

theorem Sound.startRead (h : c.Sound m) {length source readId : Nat} {stateOnly : Bool}
    {tokens : List UInt32} {classes : List RowClass} {whole : Option Nat} {now : Int}
    {taken : Nat → Bool → Option HostHistory}
    (htaken : ∀ n blocks, ∀ x ∈ taken n blocks, x.held ≤ m.hostBytes n blocks) :
    (c.startRead m length stateOnly tokens classes source whole now taken readId).1.Sound m ∧
      c.Leaves (c.startRead m length stateOnly tokens classes source whole now taken readId).1
        (c.startRead m length stateOnly tokens classes source whole now taken readId).2 := by
  have hnothing := h.ledger.givesUp List.nodup_nil (by simp)
  unfold Cache.startRead
  split
  next =>
    unfold startState
    split
    next => exact ⟨h, hnothing⟩
    next =>
      obtain ⟨hs, hr⟩ := h.readRoom (m.hostBytes length false) source now
      dsimp only
      split
      next =>
        split
        next => exact hs.startBlocks htaken hr
        next => exact ⟨hs, hr⟩
      next hfits => exact hs.sendRead (htaken length false) (Nat.le_of_not_lt hfits) hr
  next => exact h.startBlocks htaken hnothing

/-- A read's slabs given up. -/
theorem Sound.dropRead (h : c.Sound m) {i : Nat} {rd : DiskRead} (hrd : c.diskReads[i]? = some rd) :
    rd.history.held ≤ c.hostHeld ∧
      ({ c with
        diskReads := c.diskReads.eraseIdx i
        hostHeld := c.hostHeld - rd.history.held } : Cache).Sound m := by
  have hreads := sum_map_eraseIdx (fun rd : DiskRead => rd.history.held) hrd
  have hheld := h.ledger.held
  refine ⟨by omega, ⟨?_, h.ledger.tails, h.ledger.hostIds, h.ledger.boundIds⟩,
    (Nat.sub_le _ _).trans h.cap, h.hostIds, h.boundIds, h.donorIds, h.nodup, h.apart⟩
  show c.hostHeld - rd.history.held = (c.host.map HostDonor.bytes).sum +
    (c.bounds.map fun b => b.state.held).sum +
    ((c.diskReads.eraseIdx i).map fun rd => rd.history.held).sum
  omega

theorem rotateHost_with (c : Cache) (id ids : Nat) (bs : List Boundary) :
    ({ c with donorIds := ids, bounds := bs } : Cache).rotateHost id =
      { c.rotateHost id with donorIds := ids, bounds := bs } := by
  unfold rotateHost
  dsimp only
  split <;> rfl

theorem Sound.rotateHost (h : c.Sound m) (id : Nat) : (c.rotateHost id).Sound m := by
  have hr := remarked_rotateHost c id
  have hsame : (c.rotateHost id).donorIds = c.donorIds ∧ (c.rotateHost id).donors = c.donors := by
    unfold Cache.rotateHost
    split <;> exact ⟨rfl, rfl⟩
  obtain ⟨hids, hdonors⟩ := hsame
  refine h.remarked hr (Nat.le_of_eq hids.symm) ?_ ?_
  · rw [hdonors]
    exact h.nodup
  · rw [hdonors]
    exact fun x hx => .inl (List.mem_map.mpr ⟨x, hx, rfl⟩)

/-- A read that ended: its slabs become an entry's, or go. -/
theorem Sound.finishRead (h : c.Sound m) (id : Nat) (ok : Bool) (now : Int) :
    (c.finishRead id ok now).1.Sound m := by
  unfold Cache.finishRead
  split
  next => exact h
  next i hi =>
    split
    next => exact h
    next rd hrd =>
      obtain ⟨hle, hs⟩ := h.dropRead hrd
      have hback := (Nat.sub_add_cancel hle).symm
      split
      next =>
        unfold landRead
        split
        next =>
          have hadd := hs.addBound ⟨c.donorIds + 1, rd.tokens, rd.classes, rd.history, 0, now,
            false, false, false⟩ hback h.cap rfl
          have hrot := hadd.rotateHost rd.source
          dsimp only at hrot ⊢
          rw [rotateHost_with { c with diskReads := c.diskReads.eraseIdx i }] at hrot
          exact hrot
        next =>
          apply hs.addHost ⟨c.donorIds + 1, rd.tokens, rd.classes, rd.history, false, true, 0,
            true, [], now⟩ hback rfl h.cap (Nat.le_succ _) (Nat.le_refl _)
          · intro x hx
            have := h.hostIds x hx
            show x.id ≠ c.donorIds + 1
            omega
          · intro x hx
            have := h.donorIds x hx
            show x.id ≠ c.donorIds + 1
            omega
      next =>
        rw [wrapSub_eq hle]
        exact hs

theorem Sound.provedEqual (h : c.Sound m) (owner : Bool) (proved : HostHistory)
    (prompt : List UInt32) (classes : List RowClass) (now : Int) :
    (c.provedEqual m owner proved prompt classes now).1.Sound m ∧
      c.Leaves (c.provedEqual m owner proved prompt classes now).1
        (c.provedEqual m owner proved prompt classes now).2 := by
  obtain ⟨hs, hg, hdonors, hids, hhost⟩ := h.hostRoomFor proved.held ⟨1, 0⟩
  unfold Cache.provedEqual
  dsimp only
  generalize c.hostRoomFor m proved.held ⟨1, 0⟩ = r at *
  split
  next hfits =>
    refine ⟨?_, trivial⟩
    apply hs.addHost ⟨r.1.donorIds + 1, prompt.take proved.length, clip classes proved.length,
      proved, false, true, 0, false, [], now⟩ rfl rfl hfits.2 (Nat.le_succ _) (Nat.le_refl _)
    · intro x hx
      have := hs.hostIds x hx
      show x.id ≠ r.1.donorIds + 1
      omega
    · intro x hx
      have := hs.donorIds x hx
      show x.id ≠ r.1.donorIds + 1
      omega
  next => exact ⟨hs, hg⟩

theorem findIdx?_of_nodup {α : Type} {key : α → Nat} {l : List α} (h : (l.map key).Nodup) {i : Nat}
    {x : α} (hx : l[i]? = some x) : l.findIdx? (fun y => key y == key x) = some i := by
  obtain ⟨hlt, rfl⟩ := List.getElem?_eq_some_iff.mp hx
  apply List.findIdx?_eq_some_iff_getElem.mpr
  refine ⟨hlt, by simp, ?_⟩
  intro j hj hkey
  have hne := List.pairwise_iff_getElem.mp h j i (by rw [List.length_map]; omega)
    (by rw [List.length_map]; omega) hj
  rw [List.getElem_map, List.getElem_map] at hne
  exact hne (beq_iff_eq.mp hkey)

theorem Sound.dropBound (h : c.Sound m) (i : Nat) : (c.dropBound i).Sound m := by
  cases hb : c.bounds[i]? with
  | none =>
    unfold Cache.dropBound
    rw [hb]
    exact h
  | some b =>
    have hdrop := h.drop ⟨true, b.id⟩
    unfold Cache.drop at hdrop
    rw [if_pos rfl, findIdx?_of_nodup h.ledger.boundIds hb] at hdrop
    exact hdrop

theorem Sound.dropHost (h : c.Sound m) (i : Nat) : (c.dropHost i).Sound m := by
  cases hb : c.host[i]? with
  | none =>
    unfold Cache.dropHost
    rw [hb]
    exact h
  | some b =>
    have hdrop := h.drop ⟨false, b.id⟩
    unfold Cache.drop at hdrop
    rw [if_neg Bool.false_ne_true, findIdx?_of_nodup h.ledger.hostIds hb] at hdrop
    exact hdrop

theorem Sound.act (h : c.Sound m) (op : Op) (ht : c.Takes m op) :
    (c.act m op).1.Sound m ∧ c.Leaves (c.act m op).1 (c.act m op).2 := by
  cases op with
  | writeBack i now saved => exact h.evict ht
  | keepBoundary kept tokens classes back spare now saved => exact h.keepBoundary ht
  | startRead length stateOnly tokens classes source whole now taken readId => exact h.startRead ht
  | finishRead id ok now =>
    have hnothing := h.ledger.givesUp List.nodup_nil (by simp)
    refine ⟨h.finishRead id ok now, ?_⟩
    show c.Leaves (c.finishRead id ok now).1 (c.finishRead id ok now).2
    unfold Cache.finishRead
    split
    next => exact hnothing
    next =>
      split
      next => exact hnothing
      next => split <;> trivial
  | proved owner history prompt classes now => exact h.provedEqual owner history prompt classes now
  | dropBound i => exact ⟨h.dropBound i, trivial⟩
  | dropHost i => exact ⟨h.dropHost i, trivial⟩

theorem Reachable.sound (h : Reachable m c) : c.Sound m := by
  induction h with
  | start hf =>
    refine ⟨⟨?_, ?_, ?_, ?_⟩, ?_, ?_, ?_, ?_, ?_, ?_⟩ <;>
      simp [hf.donors, hf.host, hf.bounds, hf.diskReads, hf.hostHeld, hf.hostTails]
  | act _ op ht ih => exact (ih.act op ht).1
  | elsewhere _ he ih => exact ih.elsewhere he

/-- In every state a run reaches, what the tier counts is what its entries and reads hold, within
its cap; no entry or read ever gives back more than is counted; and an operation that keeps nothing
changes the count by what it dropped for room alone. -/
theorem host_ledger_exact (h : Reachable m c) :
    (c.hostHeld = (c.host.map fun h => h.history.held).sum +
        (c.bounds.map fun b => b.state.held).sum + (c.diskReads.map fun rd => rd.history.held).sum +
        (c.host.map fun h => tailBytes h.tails).sum ∧
      c.hostTails = (c.host.map fun h => tailBytes h.tails).sum ∧ c.hostHeld ≤ m.hostCap) ∧
    ((∀ gone e, (c.dropAll gone).bytesOf e ≤ (c.dropAll gone).hostHeld ∧
        (c.dropAll gone).tailsOf e ≤ (c.dropAll gone).hostTails) ∧
      ∀ rd ∈ c.diskReads, rd.history.held ≤ c.hostHeld) ∧
    ∀ op, c.Takes m op → c.Leaves (c.act m op).1 (c.act m op).2 := by
  have hs := h.sound
  refine ⟨⟨?_, hs.ledger.tails, hs.cap⟩,
    ⟨fun gone e => (hs.ledger.dropAll gone).bytesOf_le e, ?_⟩, fun op ht => (hs.act op ht).2⟩
  · have hsplit : (c.host.map HostDonor.bytes).sum = (c.host.map fun h => h.history.held).sum +
        (c.host.map fun h => tailBytes h.tails).sum := List.sum_map_add
    have := hs.ledger.held
    omega
  · intro rd hrd
    obtain ⟨i, hi⟩ := List.mem_iff_getElem?.mp hrd
    exact (hs.dropRead hi).1

def emptyCache : Cache :=
  ⟨[], [], [], [], 0, 0, 0, 0, 0, none, [], [], none, 0⟩

def stateTier : Tier :=
  ⟨1, true, id, fun _ _ => 67108864, fun _ _ _ => .fits, 134217728⟩

theorem host_ledger_exact_kept :
    (emptyCache.act stateTier
      (.keepBoundary (some 1) [4] [⟨1, 1, []⟩] true false 3 (some ⟨1, 67108864, [1]⟩))).1.hostHeld =
        67108864 ∧
    (emptyCache.act stateTier
      (.keepBoundary (some 1) [4] [⟨1, 1, []⟩] true false 3 (some ⟨1, 67108864, [1]⟩))).1.hostHeld ≤
        stateTier.hostCap := by
  refine ⟨by decide, (host_ledger_exact (.act (.start ⟨rfl, rfl, rfl, rfl, rfl, rfl⟩) _ ?_)).1.2.2⟩
  intro n hn h hh
  cases hh
  exact Nat.le_refl _

end Cache

end HostCache

end Llmx
