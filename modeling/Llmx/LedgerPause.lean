import Llmx.LedgerRoom

namespace Llmx

/-- What a request not running keeps: at most what it may generate, within what a request may
hold. -/
structure Request.Bounded (srv : Server) (r : Request) : Prop where
  generated : r.generated ≤ r.maxTokens
  within : r.prompt + r.maxTokens ≤ srv.tokenLimit

structure Request.Waiting (srv : Server) (r : Request) : Prop extends r.Bounded srv where
  held : r.held = 0
  rows : r.rows = 0
  stalled : r.stalled = false

/-- A running request and its reservation: what its cache holds is within it, a capped one has all
it may generate, and an uncapped one its history until it decodes. -/
structure Request.Sound (srv : Server) (r : Request) : Prop extends r.Bounded srv where
  reads : r.held + r.rows ≤ r.history
  reserved : ∀ s, (r.kvHeld srv.pools).getD s 0 ≤ r.need.getD s 0
  capped : r.uncapped = false →
    ∀ s, (srv.pools.blocksFor (r.prompt + r.maxTokens)).getD s 0 ≤ r.need.getD s 0
  entered : r.uncapped = true → r.decoding = true ∨
    ∀ s, (srv.pools.blocksFor r.history).getD s 0 ≤ r.need.getD s 0

theorem Request.Sound.setAside {srv : Server} {r : Request} (h : r.Sound srv) (line : Nat) :
    (r.setAside line).Waiting srv :=
  ⟨⟨h.generated, h.within⟩, rfl, rfl, rfl⟩

structure Ledger.Safe (srv : Server) (l : Ledger) : Prop where
  sound : ∀ r ∈ l.active, r.Sound srv
  waiting : ∀ r ∈ l.paused, r.Waiting srv
  within : ∀ s < srv.pools.blocks.length, l.reserved srv s ≤ srv.pools.blocks.getD s 0
  sorted : l.active.Pairwise (·.admission < ·.admission)
  apart : ∀ r ∈ l.active, ∀ q ∈ l.paused, r.admission ≠ q.admission
  pausedApart : (l.paused.map (·.admission)).Nodup
  activeNumbered : ∀ r ∈ l.active, r.admission ≤ l.admissions
  pausedNumbered : ∀ r ∈ l.paused, r.admission ≤ l.admissions
  donorIds : ∀ d ∈ l.donors, d.id ≤ l.donorIds

theorem needed_append (xs ys : List Request) (s : Nat) :
    needed (xs ++ ys) s = needed xs s + needed ys s := by
  simp [needed]

theorem needed_cons (r : Request) (xs : List Request) (s : Nat) :
    needed (r :: xs) s = r.need.getD s 0 + needed xs s := by
  simp [needed]

theorem donated_append (pools : Pools) (ds es : List Donor) (s : Nat) :
    donated pools (ds ++ es) s = donated pools ds s + donated pools es s := by
  simp [donated]

theorem donated_sublist (pools : Pools) {ds es : List Donor} (h : ds.Sublist es) (s : Nat) :
    donated pools ds s ≤ donated pools es s :=
  (h.map _).sum_le_sum fun _ _ => Nat.zero_le _

theorem sum_filter_add {α : Type*} (xs : List α) (p : α → Prop) [DecidablePred p] (f : α → Nat) :
    ((xs.filter fun x => ¬p x).map f).sum + (xs.map fun x => if p x then f x else 0).sum =
      (xs.map f).sum := by
  induction xs with
  | nil => rfl
  | cons x xs ih =>
    by_cases hp : p x
    · simp only [hp, not_true_eq_false, decide_false, Bool.false_eq_true, not_false_eq_true,
        List.filter_cons_of_neg, List.map_cons, List.sum_cons, if_true, ← ih]
      omega
    · simp only [hp, not_false_eq_true, decide_true, List.filter_cons_of_pos, List.map_cons,
        List.sum_cons, if_false, ← ih]
      omega

theorem dropAll_sublist (ds : List Donor) (gone : List Nat) :
    (Server.dropAll ds gone).Sublist ds := by
  have h := (List.filter_sublist (l := ds.zipIdx) (p := fun p => decide (p.2 ∉ gone))).map Prod.fst
  rwa [List.zipIdx_map_fst] at h

/-- The donors a plan drops free what its gain counts for them. -/
theorem donated_dropAll (pools : Pools) (ds : List Donor) (gone : List Nat) (s : Nat) :
    donated pools (Server.dropAll ds gone) s +
        (ds.zipIdx.map fun p =>
          if p.2 ∈ gone then (pools.blocksFor p.1.tokens).getD s 0 else 0).sum =
      donated pools ds s := by
  have h := sum_filter_add ds.zipIdx (fun p => p.2 ∈ gone)
    (fun p => (pools.blocksFor p.1.tokens).getD s 0)
  have hall : (ds.zipIdx.map fun p => (pools.blocksFor p.1.tokens).getD s 0) =
      ds.map fun d => (pools.blocksFor d.tokens).getD s 0 := by
    rw [show (fun p : Donor × Nat => (pools.blocksFor p.1.tokens).getD s 0) =
      (fun d => (pools.blocksFor d.tokens).getD s 0) ∘ Prod.fst from rfl, ← List.map_map,
      List.zipIdx_map_fst]
  rw [hall] at h
  rw [← donated] at h
  rw [← h, donated, Server.dropAll, List.map_map]
  rfl

section

variable {srv : Server} {l : Ledger} {pre post : List Request} {r : Request}

theorem eraseP_split (hs : (pre ++ r :: post).Pairwise (·.admission < ·.admission)) :
    ((pre ++ r :: post).eraseP fun q => q.admission = r.admission) = pre ++ post := by
  have hbefore := (List.pairwise_append.mp hs).2.2
  rw [List.eraseP_append_right _ fun q hq => by
    have := hbefore q hq r (by simp)
    simp only [decide_eq_true_eq]
    omega]
  simp

theorem map_put_split {r' : Request} (hs : (pre ++ r :: post).Pairwise (·.admission < ·.admission))
    (hr : r'.admission = r.admission) :
    ((pre ++ r :: post).map fun q => if q.admission = r'.admission then r' else q) =
      pre ++ r' :: post := by
  obtain ⟨-, hafter, hbefore⟩ := List.pairwise_append.mp hs
  have hkeep : ∀ q, q.admission ≠ r.admission →
      (if q.admission = r'.admission then r' else q) = q := fun q hq => by rw [hr, if_neg hq]
  rw [List.map_append, List.map_cons, hr, if_pos rfl, ← hr]
  congr 1
  · refine (List.map_congr_left fun q hq => hkeep q ?_).trans (List.map_id _)
    have := hbefore q hq r (by simp)
    omega
  · congr 1
    refine (List.map_congr_left fun q hq => hkeep q ?_).trans (List.map_id _)
    have := (List.pairwise_cons.mp hafter).1 q hq
    omega

/-- A running request changed in place keeps the ledger safe as its reservation grows by room there
is. -/
theorem Ledger.Safe.put (h : l.Safe srv) (hl : l.active = pre ++ r :: post) (r' : Request)
    (hr : r'.admission = r.admission) (hsound : r'.Sound srv)
    (hneed : ∀ s < srv.pools.blocks.length,
      l.reserved srv s + r'.need.getD s 0 ≤ srv.pools.blocks.getD s 0 + r.need.getD s 0) :
    (l.put r').Safe srv ∧ (l.put r').active = pre ++ r' :: post := by
  have hsorted := hl ▸ h.sorted
  have hactive : (l.put r').active = pre ++ r' :: post := by
    rw [Ledger.put, hl]
    exact map_put_split hsorted hr
  have hmem : ∀ q ∈ (l.put r').active, q = r' ∨ q ∈ l.active := by
    intro q hq
    rw [hactive] at hq
    rw [hl]
    simp only [List.mem_append, List.mem_cons] at hq ⊢
    tauto
  have hrmem : r ∈ l.active := by simp [hl]
  refine ⟨⟨?_, h.waiting, ?_, ?_, ?_, h.pausedApart, ?_, h.pausedNumbered, h.donorIds⟩, hactive⟩
  · intro q hq
    rcases hmem q hq with rfl | hq
    · exact hsound
    · exact h.sound q hq
  · intro s hs
    have hn := hneed s hs
    rw [reserved_eq, hl, needed_append, needed_cons] at hn
    rw [reserved_eq, hactive, needed_append, needed_cons]
    simp only [Ledger.put]
    omega
  · rw [hactive]
    simpa [List.pairwise_append, List.pairwise_cons, hr] using hsorted
  · intro q hq
    rcases hmem q hq with rfl | hq
    · rw [hr]
      exact h.apart r hrmem
    · exact h.apart q hq
  · intro q hq
    rcases hmem q hq with rfl | hq
    · rw [hr]
      exact h.activeNumbered r hrmem
    · exact h.activeNumbered q hq

theorem trim_sublist (srv : Server) (rank : Ranking) (n : Nat) (ds : List Donor) :
    (srv.trim rank n ds).Sublist ds := by
  induction n generalizing ds with
  | zero => exact List.Sublist.refl _
  | succ n ih =>
    rw [Server.trim]
    split
    · exact (ih _).trans (List.eraseIdx_sublist _ _)
    · exact List.Sublist.refl _

/-- A parked request leaves the active ones; the donor it may leave is the last number given. -/
structure Parked (l : Ledger) (r : Request) (p : Ledger × Nat) : Prop where
  active : p.1.active = l.active.eraseP fun q => q.admission = r.admission
  paused : p.1.paused = l.paused
  admissions : p.1.admissions = l.admissions
  donors : p.1.donors.Sublist (l.donors ++ [⟨l.donorIds + 1, r.held⟩])
  none : p.2 = 0 → p.1.donors.Sublist l.donors
  some : p.2 ≠ 0 → p.2 = l.donorIds + 1
  ids : (∀ d ∈ l.donors, d.id ≤ l.donorIds) → ∀ d ∈ p.1.donors, d.id ≤ p.1.donorIds

theorem park_spec (srv : Server) (rank : Ranking) (l : Ledger) (r : Request) (least : Nat) :
    Parked l r (srv.park rank l r least) := by
  unfold Server.park
  split
  next hheld =>
    have htrim := trim_sublist srv rank (l.donors.length + 1)
      (l.donors ++ [(⟨l.donorIds + 1, r.held⟩ : Donor)])
    refine ⟨rfl, rfl, rfl, htrim, fun hz => ?_, fun hz => ?_, fun hid d hd => ?_⟩
    · have hgone : (⟨l.donorIds + 1, r.held⟩ : Donor) ∉
          srv.trim rank (l.donors.length + 1) (l.donors ++ [⟨l.donorIds + 1, r.held⟩]) := by
        intro hmem
        simp only [hmem, if_true] at hz
        omega
      obtain ⟨as, bs, hab, has, hbs⟩ := List.sublist_append_iff.mp htrim
      have hnil : bs = [] := by
        cases bs with
        | nil => rfl
        | cons b bs =>
          have hb := hbs.subset (List.mem_cons_self ..)
          rw [List.mem_singleton] at hb
          exact absurd (by rw [hab, ← hb]; simp) hgone
      simp only [hab, hnil, List.append_nil]
      exact has
    · dsimp only at hz ⊢
      split at hz
      next hmem => rw [if_pos hmem]
      next => exact absurd rfl hz
    · rcases List.mem_append.mp (htrim.subset hd) with hd | hd
      · exact (hid d hd).trans (Nat.le_succ _)
      · rw [List.mem_singleton.mp hd]
  next =>
    exact ⟨rfl, rfl, rfl, List.sublist_append_left .., fun _ => List.Sublist.refl _,
      fun hz => absurd rfl hz, fun hid => hid⟩

theorem Parked.evicted {p : Ledger × Nat} (hp : Parked l r p) (hz : p.2 ≠ 0)
    (hid : ∀ d ∈ l.donors, d.id ≤ l.donorIds) :
    (p.1.donors.eraseP fun d => d.id = p.2).Sublist l.donors := by
  have h := hp.donors.eraseP (p := fun d => d.id = p.2)
  rw [List.eraseP_append_right _ fun d hd => by
    have := hid d hd
    have := hp.some hz
    simp only [decide_eq_true_eq]
    omega] at h
  simpa [hp.some hz] using h

/-- A ledger with fewer requests and no more reserved is safe still. -/
theorem Ledger.Safe.shrink (h : l.Safe srv) (l' : Ledger) (hactive : l'.active.Sublist l.active)
    (hpaused : l'.paused.Sublist l.paused) (hnumber : l'.admissions = l.admissions)
    (hids : ∀ d ∈ l'.donors, d.id ≤ l'.donorIds)
    (hless : ∀ s < srv.pools.blocks.length, l'.reserved srv s ≤ l.reserved srv s) :
    l'.Safe srv where
  sound q hq := h.sound q (hactive.subset hq)
  waiting q hq := h.waiting q (hpaused.subset hq)
  within s hs := (hless s hs).trans (h.within s hs)
  sorted := h.sorted.sublist hactive
  apart q hq p hp := h.apart q (hactive.subset hq) p (hpaused.subset hp)
  pausedApart := h.pausedApart.sublist (hpaused.map _)
  activeNumbered q hq := hnumber ▸ h.activeNumbered q (hactive.subset hq)
  pausedNumbered q hq := hnumber ▸ h.pausedNumbered q (hpaused.subset hq)
  donorIds := hids

/-- A request joins those that wait. -/
theorem Ledger.Safe.wait (h : l.Safe srv) {q : Request} (hq : q.Waiting srv)
    (hactive : ∀ r ∈ l.active, r.admission ≠ q.admission)
    (hpaused : q.admission ∉ l.paused.map (·.admission)) (hnumber : q.admission ≤ l.admissions)
    {paused : List Request} (hperm : paused.Perm (q :: l.paused)) (lines : Nat) :
    ({ l with paused, lines } : Ledger).Safe srv := by
  have hmem : ∀ p ∈ paused, p = q ∨ p ∈ l.paused := fun p hp =>
    List.mem_cons.mp (hperm.mem_iff.mp hp)
  refine ⟨h.sound, ?_, h.within, h.sorted, ?_, ?_, h.activeNumbered, ?_, h.donorIds⟩
  · intro p hp
    rcases hmem p hp with rfl | hp
    · exact hq
    · exact h.waiting p hp
  · intro r hr p hp
    rcases hmem p hp with rfl | hp
    · exact hactive r hr
    · exact h.apart r hr p hp
  · rw [(hperm.map _).nodup_iff, List.map_cons]
    exact List.nodup_cons.mpr ⟨hpaused, h.pausedApart⟩
  · intro p hp
    rcases hmem p hp with rfl | hp
    · exact hnumber
    · exact h.pausedNumbered p hp

/-- A request parked out of a safe ledger takes at least its promise with it. -/
theorem Parked.safe (h : l.Safe srv) (hl : l.active = pre ++ r :: post) (hrows : r.rows = 0)
    {p : Ledger × Nat} (hp : Parked l r p) :
    p.1.active = pre ++ post ∧ p.1.Safe srv ∧ ∀ s < srv.pools.blocks.length,
      p.1.reserved srv s + (r.promised srv.pools).getD s 0 ≤ l.reserved srv s := by
  have hactive : p.1.active = pre ++ post := by
    rw [hp.active, hl]
    exact eraseP_split (hl ▸ h.sorted)
  have hless : ∀ s < srv.pools.blocks.length,
      p.1.reserved srv s + (r.promised srv.pools).getD s 0 ≤ l.reserved srv s := by
    intro s hs
    have hdonors := donated_sublist srv.pools hp.donors s
    have hheld := (h.sound r (by simp [hl])).reserved s
    rw [r.getD_promised srv.pools hs, reserved_eq, reserved_eq, hactive, hl, needed_append,
      needed_append, needed_cons]
    rw [donated_append] at hdonors
    have hone : donated srv.pools [⟨l.donorIds + 1, r.held⟩] s = (r.kvHeld srv.pools).getD s 0 := by
      simp [donated, Request.kvHeld, hrows]
    omega
  refine ⟨hactive, h.shrink _ ?_ (by rw [hp.paused]) hp.admissions (hp.ids h.donorIds) ?_, hless⟩
  · rw [hactive, hl]
    exact (List.Sublist.refl _).append (List.sublist_cons_self ..)
  · exact fun s hs => (Nat.le_add_right _ _).trans (hless s hs)

theorem pause_spec (rank : Ranking) (h : l.Safe srv) (hl : l.active = pre ++ r :: post)
    (hrows : r.rows = 0) (yielded : Bool) :
    let p := srv.pause rank l r yielded
    p.1.active = pre ++ post ∧ p.1.Safe srv ∧
      (∀ s < srv.pools.blocks.length,
        p.1.reserved srv s + (r.promised srv.pools).getD s 0 ≤ l.reserved srv s) ∧
      p.1.donors = (srv.park rank l r 1).1.donors ∧ p.2 = (srv.park rank l r 1).2 := by
  obtain ⟨hactive, hsafe, hless⟩ := (park_spec srv rank l r 1).safe h hl hrows
  have hp := park_spec srv rank l r 1
  have hr : r ∈ l.active := by simp [hl]
  unfold Server.pause
  generalize srv.park rank l r 1 = p at *
  obtain ⟨parked, id⟩ := p
  dsimp only at *
  generalize (if yielded = true then parked.lines + 1 else 0) = line
  refine ⟨hactive, hsafe.wait ((h.sound r hr).setAside line) ?_ ?_ ?_ ?_ _, hless, rfl, rfl⟩
  · intro q hq
    rw [hactive] at hq
    have hsorted := hl ▸ h.sorted
    obtain ⟨-, hafter, hbefore⟩ := List.pairwise_append.mp hsorted
    rcases List.mem_append.mp hq with hq | hq
    · have := hbefore q hq r (by simp)
      exact Nat.ne_of_lt this
    · have := (List.pairwise_cons.mp hafter).1 q hq
      exact Nat.ne_of_gt this
  · rw [hp.paused]
    intro hmem
    obtain ⟨q, hq, he⟩ := List.mem_map.mp hmem
    exact h.apart r hr q hq he.symm
  · rw [hp.admissions]
    exact h.activeNumbered r hr
  · exact List.perm_middle.trans (by rw [List.takeWhile_append_dropWhile])

/-- The blocks a victim gives up, with its donor or without. -/
def Request.weight (pools : Pools) (s : Nat) (v : Request × Bool) : Nat :=
  (v.1.promised pools).getD s 0 + if v.2 then (v.1.kvHeld pools).getD s 0 else 0

theorem pauseVictim_spec (rank : Ranking) (h : l.Safe srv) (hl : l.active = pre ++ r :: post)
    (hrows : r.rows = 0) (b : Bool) :
    let l' := srv.pauseVictim rank l (r, b)
    l'.active = pre ++ post ∧ l'.Safe srv ∧ ∀ s < srv.pools.blocks.length,
      l'.reserved srv s + Request.weight srv.pools s (r, b) ≤ l.reserved srv s := by
  obtain ⟨hactive, hsafe, hless, hdonors, hid⟩ := pause_spec rank h hl hrows false
  have hp := park_spec srv rank l r 1
  unfold Server.pauseVictim Request.weight
  have hgone : ∀ ds : List Donor, ds.Sublist l.donors → ∀ s < srv.pools.blocks.length,
      needed (pre ++ post) s + donated srv.pools ds s +
        ((r.promised srv.pools).getD s 0 + (r.kvHeld srv.pools).getD s 0) ≤ l.reserved srv s := by
    intro ds hds s hs
    have hle := donated_sublist srv.pools hds s
    have hheld := (h.sound r (by simp [hl])).reserved s
    rw [r.getD_promised srv.pools hs, reserved_eq, hl, needed_append, needed_append, needed_cons]
    omega
  have hnone : (srv.pause rank l r false).2 = 0 →
      (srv.pause rank l r false).1.donors.Sublist l.donors := by
    rw [hdonors, hid]
    exact hp.none
  have hevicted : (srv.pause rank l r false).2 ≠ 0 →
      (Server.evict (srv.pause rank l r false).1 (srv.pause rank l r false).2).donors.Sublist
        l.donors := by
    rw [Server.evict, hdonors, hid]
    exact fun hz => hp.evicted hz h.donorIds
  generalize srv.pause rank l r false = p at *
  obtain ⟨l', id⟩ := p
  dsimp only at *
  cases b with
  | false => simpa using ⟨hactive, hsafe, hless⟩
  | true =>
    by_cases hz : id = 0
    · simp only [hz, ne_eq, not_true_eq_false, false_and, if_false, if_true]
      refine ⟨hactive, hsafe, ?_⟩
      intro s hs
      rw [reserved_eq, hactive]
      exact hgone _ (hnone hz) s hs
    · simp only [hz, ne_eq, not_false_eq_true, and_self, if_true]
      have hless' : ∀ s < srv.pools.blocks.length, (Server.evict l' id).reserved srv s +
          ((r.promised srv.pools).getD s 0 + (r.kvHeld srv.pools).getD s 0) ≤ l.reserved srv s := by
        intro s hs
        rw [reserved_eq, Server.evict, hactive]
        exact hgone _ (hevicted hz) s hs
      refine ⟨hactive, hsafe.shrink _ (List.Sublist.refl _) (List.Sublist.refl _) rfl ?_ ?_, hless'⟩
      · exact fun d hd => hsafe.donorIds d (List.eraseP_sublist.subset hd)
      · intro s hs
        rw [reserved_eq, reserved_eq]
        exact Nat.add_le_add_left (donated_sublist srv.pools List.eraseP_sublist s) _

end

end Llmx
