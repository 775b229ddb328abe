import Llmx.LedgerRounds

namespace Llmx

open Runs

theorem Server.tokenLimit_le (srv : Server) : srv.tokenLimit ≤ srv.pools.tokensTotal := by
  unfold tokenLimit
  dsimp only
  split <;> omega

theorem Ledger.Safe.forming {srv : Server} {l : Ledger} (h : l.Safe srv) (b : Bool) :
    ({ l with formable := b } : Ledger).Safe srv :=
  ⟨h.sound, h.waiting, h.within, h.sorted, h.apart, h.pausedApart, h.activeNumbered,
    h.pausedNumbered, h.donorIds⟩

/-- A ledger every step keeps: safe, and settled while passes may be formed. -/
structure Ledger.Kept (srv : Server) (l : Ledger) : Prop where
  safe : l.Safe srv
  settled : l.formable = true → ∀ r ∈ l.active, r.Settled srv

def Ledger.Lively (l : Ledger) : Prop := l.active = [] ∨ ∃ r ∈ l.active, r.stalled = false

section

variable {srv : Server} {l l' : Ledger} {r : Request}

theorem insert_sorted {xs : List Request} (hs : xs.Pairwise (·.admission < ·.admission))
    (hne : ∀ q ∈ xs, q.admission ≠ r.admission) :
    (xs.takeWhile (fun q => decide (q.admission ≤ r.admission)) ++
      r :: xs.dropWhile fun q => decide (q.admission ≤ r.admission)).Pairwise
        (·.admission < ·.admission) := by
  induction xs with
  | nil => simp
  | cons x xs ih =>
    obtain ⟨hx, hxs⟩ := List.pairwise_cons.mp hs
    have hxr := hne x (by simp)
    by_cases hle : x.admission ≤ r.admission
    · simp only [List.takeWhile_cons, List.dropWhile_cons, hle, decide_true, if_true,
        List.cons_append]
      refine List.pairwise_cons.mpr ⟨?_, ih hxs fun q hq => hne q (by simp [hq])⟩
      intro q hq
      rcases List.mem_append.mp hq with hq | hq
      · exact hx q (List.takeWhile_subset _ hq)
      · rcases List.mem_cons.mp hq with rfl | hq
        · omega
        · exact hx q (List.dropWhile_subset _ hq)
    · simp only [List.takeWhile_cons, List.dropWhile_cons, hle, decide_false, Bool.false_eq_true,
        if_false, List.nil_append]
      refine List.pairwise_cons.mpr ⟨?_, hs⟩
      intro q hq
      rcases List.mem_cons.mp hq with rfl | hq
      · omega
      · have := hx q hq
        omega

/-- A request admitted with what it may need next. -/
theorem Request.Waiting.entered (h : r.Waiting srv) {need : List Nat}
    (hneed : need = srv.pools.blocksFor
      (srv.growth.entry r.history r.uncapped r.maxTokens r.generated)) :
    ({ r with need } : Request).Sound srv ∧ ({ r with need } : Request).Settled srv := by
  have hgen := h.generated
  have hle : r.history ≤ srv.growth.entry r.history r.uncapped r.maxTokens r.generated :=
    Nat.le_add_right _ _
  have hhistory : ∀ s, (srv.pools.blocksFor r.history).getD s 0 ≤ need.getD s 0 := fun s => by
    rw [hneed]
    exact srv.pools.blocksFor_mono hle s
  refine ⟨⟨⟨hgen, h.within⟩, ?_, ?_, ?_, fun _ => Or.inr hhistory⟩, ?_⟩
  · simp [h.held, h.rows]
  · intro s
    simp only [Request.kvHeld, h.held, h.rows, Nat.add_zero, srv.pools.blocksFor_zero]
    exact Nat.zero_le _
  · intro hcap s
    have hall : r.prompt + r.maxTokens =
        srv.growth.entry r.history r.uncapped r.maxTokens r.generated := by
      have hc : r.uncapped = false := hcap
      simp only [Growth.entry, hc, Request.history, Bool.false_eq_true, if_false]
      omega
    exact le_of_eq (by rw [hneed, hall])
  · intro hd _ s
    have hnext : r.held + 1 = r.history := by
      simp only [Request.decoding, Bool.and_eq_true, beq_iff_eq] at hd
      exact hd.2
    exact hnext ▸ hhistory s

theorem donated_dropped (srv : Server) (donors : List Donor) (v : Victims) {s : Nat}
    (hs : s < srv.pools.blocks.length) :
    donated srv.pools (Server.dropAll donors v.donors) s + frees (srv.gainOf [] donors) v s =
      donated srv.pools donors s := by
  rw [frees_gainOf srv _ _ _ hs, getD_gainOf srv _ _ _ hs]
  have := donated_dropAll srv.pools donors v.donors s
  simpa using this

/-- Admission keeps the ledger safe; the request admitted is settled and not stalled. -/
theorem enter_spec {rank : Ranking} (h : l.Safe srv) (hr : r.Waiting srv)
    (hactive : ∀ q ∈ l.active, q.admission ≠ r.admission)
    (hpaused : ∀ q ∈ l.paused, r.admission ≠ q.admission)
    (he : srv.enter rank l r = some l') :
    (∀ m, l.admissions ≤ m → r.admission ≤ m → ({ l' with admissions := m } : Ledger).Safe srv) ∧
      (∀ q ∈ l'.active, q ∈ l.active ∨ q.Settled srv) ∧ (∃ q ∈ l'.active, q.stalled = false) ∧
      l'.formable = l.formable ∧ l'.admissions = l.admissions := by
  unfold Server.enter at he
  split at he
  · cases he
  dsimp only at he
  generalize hneed : srv.pools.blocksFor
    (srv.growth.entry r.history r.uncapped r.maxTokens r.generated) = need at he
  have hcovers := makeRoomBy_covers (latestFirst_spec [] 0) (srv.room l) (rank.order l.donors) npos
    false false need (srv.gainOf [] l.donors)
  change (makeRoom (srv.room l) (rank.order l.donors) npos false [] 0 false need
    (srv.gainOf [] l.donors)).enough = true → _ at hcovers
  split at he
  · cases he
  next henough =>
    obtain rfl := Option.some.inj he
    obtain ⟨hsound, hsettled⟩ := hr.entered hneed.symm
    have hcover := hcovers (by simpa using henough)
    change Covers _ _ _ (makeRoom (srv.room l) (rank.order l.donors) npos false [] 0 false need
      (srv.gainOf [] l.donors)).toVictims at hcover
    generalize makeRoom (srv.room l) (rank.order l.donors) npos false [] 0 false need
      (srv.gainOf [] l.donors) = t at *
    have hmem : ∀ q ∈ l.active.takeWhile (fun q => decide (q.admission ≤ r.admission)) ++
        { r with need } :: l.active.dropWhile (fun q => decide (q.admission ≤ r.admission)),
        q = { r with need } ∨ q ∈ l.active := by
      intro q hq
      rcases List.mem_append.mp hq with hq | hq
      · exact Or.inr (List.takeWhile_subset _ hq)
      · exact (List.mem_cons.mp hq).imp id fun hq => List.dropWhile_subset _ hq
    refine ⟨fun m hm hrm => ⟨?_, h.waiting, ?_, ?_, ?_, h.pausedApart, ?_, ?_, ?_⟩, ?_, ?_, rfl, rfl⟩
    · intro q hq
      rcases hmem q hq with rfl | hq
      · exact hsound
      · exact h.sound q hq
    · intro s hs
      have hcov := hcover s (by rw [← hneed, srv.pools.length_blocksFor]; exact hs)
      have hwithin := h.within s hs
      have hdropped := donated_dropped srv l.donors t.toVictims hs
      rw [getD_room hs fun q hq => (h.sound q hq).reserved s] at hcov
      have hsplit : needed l.active s =
          needed (l.active.takeWhile fun q => decide (q.admission ≤ r.admission)) s +
            needed (l.active.dropWhile fun q => decide (q.admission ≤ r.admission)) s := by
        rw [← needed_append, List.takeWhile_append_dropWhile]
      rw [reserved_eq] at hcov hwithin ⊢
      rw [needed_append, needed_cons]
      dsimp only
      omega
    · exact insert_sorted (r := { r with need }) h.sorted hactive
    · intro q hq p hp
      rcases hmem q hq with rfl | hq
      · exact hpaused p hp
      · exact h.apart q hq p hp
    · intro q hq
      rcases hmem q hq with rfl | hq
      · exact hrm
      · exact (h.activeNumbered q hq).trans hm
    · exact fun q hq => (h.pausedNumbered q hq).trans hm
    · exact fun d hd => h.donorIds d ((dropAll_sublist _ _).subset hd)
    · intro q hq
      rcases hmem q hq with rfl | hq
      · exact Or.inr hsettled
      · exact Or.inl hq
    · exact ⟨{ r with need }, by simp, hr.stalled⟩

theorem kept_submit {rank : Ranking} {uncapped : Bool} {maxTokens prompt : Nat} (h : l.Kept srv)
    (he : srv.submit rank l uncapped maxTokens prompt = some l') :
    l'.Kept srv ∧ ∃ q ∈ l'.active, q.stalled = false := by
  unfold Server.submit at he
  split at he
  · cases he
  next hfits =>
    obtain ⟨m, henter, rfl⟩ := Option.map_eq_some_iff.mp he
    simp only [not_or, Nat.not_lt, Server.promptRoom] at hfits
    have hbounded : prompt + (if uncapped = true then srv.tokenLimit - prompt else maxTokens) ≤
        srv.tokenLimit := by
      have := hfits.2.2
      split at this <;> simp_all <;> omega
    obtain ⟨hsafe, hmem, hgo, hform, hnumber⟩ := enter_spec h.safe
      (by exact ⟨⟨Nat.zero_le _, hbounded⟩, rfl, rfl, rfl⟩)
      (fun q hq => Nat.ne_of_lt (Nat.lt_succ_of_le (h.safe.activeNumbered q hq)))
      (fun q hq => Nat.ne_of_gt (Nat.lt_succ_of_le (h.safe.pausedNumbered q hq))) henter
    refine ⟨⟨?_, fun hf q hq => ?_⟩, hgo⟩
    · exact hsafe _ (by omega) (by rw [hnumber])
    · exact (hmem q hq).elim (h.settled (hform ▸ hf) q) id

theorem kept_resume {rank : Ranking} {j : Nat} (h : l.Kept srv)
    (he : srv.resume rank l j = some l') :
    l'.Kept srv ∧ ∃ q ∈ l'.active, q.stalled = false := by
  obtain ⟨r, hr, he⟩ := Option.bind_eq_some_iff.mp he
  have hrmem := List.mem_of_getElem? hr
  have hapart : ((r :: l.paused.eraseIdx j).map (·.admission)).Nodup := by
    obtain ⟨hj, rfl⟩ := List.getElem?_eq_some_iff.mp hr
    exact ((List.getElem_cons_eraseIdx_perm hj).map _).nodup_iff.mpr h.safe.pausedApart
  rw [List.map_cons, List.nodup_cons] at hapart
  have hsafe := h.safe.shrink { l with paused := l.paused.eraseIdx j }
    (List.Sublist.refl _) (List.eraseIdx_sublist _ _) rfl h.safe.donorIds fun s _ => le_rfl
  obtain ⟨hsafe', hmem, hgo, hform, hnumber⟩ := enter_spec hsafe (h.safe.waiting r hrmem)
    (fun q hq => h.safe.apart q hq r hrmem)
    (fun q hq heq => hapart.1 (List.mem_map.mpr ⟨q, hq, heq.symm⟩)) he
  refine ⟨⟨?_, fun hf q hq => ?_⟩, hgo⟩
  · have := hsafe' l'.admissions (by rw [hnumber]) (by
      rw [hnumber]
      exact h.safe.pausedNumbered r hrmem)
    exact this
  · exact (hmem q hq).elim (h.settled (hform ▸ hf) q) id

theorem active_split {i : Nat} (h : l.active[i]? = some r) :
    ∃ pre post, l.active = pre ++ r :: post := List.append_of_mem (List.mem_of_getElem? h)

theorem Ledger.Safe.update (h : l.Safe srv) {i : Nat} (hr : l.active[i]? = some r) (r' : Request)
    (hname : r'.admission = r.admission) (hneed : r'.need = r.need) (hsound : r'.Sound srv) :
    (l.put r').Safe srv ∧ ∀ q ∈ (l.put r').active, q = r' ∨ q ∈ l.active := by
  obtain ⟨pre, post, hl⟩ := active_split hr
  obtain ⟨hsafe, hactive⟩ := h.put hl r' hname hsound fun s hs => by
    have := h.within s hs
    rw [hneed]
    omega
  refine ⟨hsafe, fun q hq => ?_⟩
  rw [hactive] at hq
  rw [hl]
  simp only [List.mem_append, List.mem_cons] at hq ⊢
  tauto

theorem lively_put (h : l.Lively) {i : Nat} (hr : l.active[i]? = some r) {r' : Request}
    (hname : r'.admission = r.admission) (hstalled : r'.stalled = r.stalled)
    (hsorted : l.active.Pairwise (·.admission < ·.admission)) : (l.put r').Lively := by
  obtain ⟨pre, post, hl⟩ := active_split hr
  have hactive : (l.put r').active = pre ++ r' :: post := by
    rw [Ledger.put, hl]
    exact map_put_split (hl ▸ hsorted) hname
  rcases h with h | ⟨q, hq, hgo⟩
  · simp [h] at hl
  · right
    rw [hl] at hq
    rw [hactive]
    rcases List.mem_append.mp hq with hq | hq
    · exact ⟨q, by simp [hq], hgo⟩
    · rcases List.mem_cons.mp hq with rfl | hq
      · exact ⟨r', by simp, hstalled ▸ hgo⟩
      · exact ⟨q, by simp [hq], hgo⟩

theorem kept_form {i rows : Nat} (h : l.Kept srv) (he : Server.form l i rows = some l') :
    l'.Kept srv ∧ (l.Lively → l'.Lively) := by
  obtain ⟨r, hr, he⟩ := Option.bind_eq_some_iff.mp he
  split at he
  next hyes =>
    obtain ⟨hform, hgo, hpos, hreads, -⟩ := hyes
    obtain rfl := Option.some.inj he
    have hmem := List.mem_of_getElem? hr
    have hs := h.safe.sound r hmem
    have hsettled := h.settled hform r hmem
    have hstalled : r.stalled = false := by simpa using hgo
    have hrows : r.held + (r.rows + rows) ≤ r.history := by omega
    have hreserved : ∀ s, (srv.pools.blocksFor (r.held + (r.rows + rows))).getD s 0 ≤
        r.need.getD s 0 := by
      intro s
      cases hu : r.uncapped with
      | false =>
        refine (srv.pools.blocksFor_mono ?_ s).trans (hs.capped hu s)
        have := hs.generated
        rw [Request.history] at hrows
        omega
      | true =>
        rcases hs.entered hu with hd | hhistory
        · have hnext : r.held + 1 = r.history := by
            simp only [Request.decoding, Bool.and_eq_true, beq_iff_eq] at hd
            exact hd.2
          have hone : r.held + (r.rows + rows) = r.held + 1 := by omega
          rw [hone]
          exact hsettled hd hstalled s
        · exact (srv.pools.blocksFor_mono hrows s).trans (hhistory s)
    obtain ⟨hsafe, hcases⟩ := h.safe.update hr { r with rows := r.rows + rows } rfl rfl
      ⟨⟨hs.generated, hs.within⟩, hrows, hreserved, hs.capped, hs.entered⟩
    refine ⟨⟨hsafe, fun _ q hq => ?_⟩, fun hl => lively_put hl hr rfl rfl h.safe.sorted⟩
    rcases hcases q hq with rfl | hq
    · exact hsettled
    · exact h.settled hform q hq
  next => cases he

theorem kept_land {i rows : Nat} {token : Bool} (h : l.Kept srv)
    (he : Server.land l i rows token = some l') : l'.Kept srv ∧ (l.Lively → l'.Lively) := by
  obtain ⟨r, hr, he⟩ := Option.bind_eq_some_iff.mp he
  split at he
  next hyes =>
    obtain ⟨hpos, hrows, htoken⟩ := hyes
    obtain rfl := Option.some.inj he
    have hs := h.safe.sound r (List.mem_of_getElem? hr)
    have hreads := hs.reads
    have hgen := hs.generated
    have hsum : r.held + rows + (r.rows - rows) = r.held + r.rows := by omega
    have hreserved : ∀ s, (srv.pools.blocksFor (r.held + rows + (r.rows - rows))).getD s 0 ≤
        r.need.getD s 0 := fun s => by
      rw [hsum]
      exact hs.reserved s
    have hsound : (r.land rows token).Sound srv := by
      cases token with
      | true =>
        obtain ⟨hread, hmore⟩ := htoken rfl
        refine ⟨⟨hmore, hs.within⟩, ?_, hreserved, hs.capped, fun _ => Or.inl ?_⟩
        · simp only [Request.land, Request.history, if_true] at hread hreads ⊢
          omega
        · simp only [Request.land, Request.decoding, Request.history, if_true, Bool.and_eq_true,
            decide_eq_true_eq, beq_iff_eq] at hread ⊢
          omega
      | false =>
        refine ⟨⟨hgen, hs.within⟩, ?_, hreserved, hs.capped, fun hu => Or.inr ?_⟩
        · simp only [Request.land, Request.history, Bool.false_eq_true, if_false] at hreads ⊢
          omega
        · rcases hs.entered hu with hd | hhistory
          · intro s
            have hnext : r.held + 1 = r.history := by
              simp only [Request.decoding, Bool.and_eq_true, beq_iff_eq] at hd
              exact hd.2
            have hall : r.held + r.rows = r.history := by omega
            have := hs.reserved s
            rwa [Request.kvHeld, hall] at this
          · exact hhistory
    obtain ⟨hsafe, -⟩ := h.safe.update hr (r.land rows token) rfl rfl hsound
    refine ⟨⟨hsafe.forming false, fun hf => by cases hf⟩, fun hl => ?_⟩
    exact lively_put hl hr rfl rfl h.safe.sorted
  next => cases he

theorem kept_finish {rank : Ranking} {i : Nat} {failed : Bool} (h : l.Kept srv)
    (he : srv.finish rank l i failed = some l') : l'.Kept srv := by
  obtain ⟨r, hr, he⟩ := Option.bind_eq_some_iff.mp he
  obtain ⟨pre, post, hl⟩ := active_split hr
  split at he
  · cases he
  next hfree =>
    have hrows : r.rows = 0 := by simpa [Request.inFlight] using hfree
    split at he
    · obtain rfl := Option.some.inj he
      refine ⟨h.safe.shrink _ List.eraseP_sublist (List.Sublist.refl _) rfl h.safe.donorIds
        fun s _ => ?_, fun hf => by cases hf⟩
      exact Nat.add_le_add_right ((List.eraseP_sublist.map _).sum_le_sum
        fun _ _ => Nat.zero_le _) _
    · obtain rfl := Option.some.inj he
      obtain ⟨-, hsafe, -⟩ := (park_spec srv rank l r srv.pools.kvBlockTokens).safe h.safe hl hrows
      exact ⟨hsafe.forming false, fun hf => by cases hf⟩

/-- After a growth round every request is settled, and one of those active is not stalled. -/
theorem kept_grow (rank : Ranking) (turns : Nat → Bool) (h : l.Kept srv) :
    (srv.grow rank turns l).Kept srv ∧ (srv.grow rank turns l).Lively := by
  have hstart : Growing srv l [] l.active :=
    ⟨h.safe, rfl, by simp, by simp, Or.inr (by simp)⟩
  obtain ⟨done, hdone⟩ := growFrom_spec rank turns l.active.length hstart le_rfl
  have hactive : (srv.growFrom rank turns l.active.length 0 l).active = done := by
    simpa using hdone.active
  refine ⟨⟨hdone.safe.forming true, fun _ q hq => hdone.settled q (hactive ▸ hq)⟩, ?_⟩
  have hlist : (srv.grow rank turns l).active = done := hactive
  rw [Ledger.Lively, hlist]
  rcases hdone.going with ⟨q, hq, hgo⟩ | hhead
  · have hq' : q ∈ done := hactive ▸ hq
    exact Or.inr ⟨q, hq', hdone.calm q hq' hgo⟩
  · cases done with
    | nil => exact Or.inl rfl
    | cons q qs => exact Or.inr ⟨q, by simp, hhead q rfl⟩

theorem kept_step {e : LedgerEvent} (h : l.Kept srv) (he : srv.step l e = some l') :
    l'.Kept srv ∧ (e.ends = false → l.Lively → l'.Lively) := by
  cases e with
  | submit rank uncapped maxTokens prompt =>
    obtain ⟨hk, hgo⟩ := kept_submit h he
    exact ⟨hk, fun _ _ => Or.inr hgo⟩
  | resume rank j =>
    obtain ⟨hk, hgo⟩ := kept_resume h he
    exact ⟨hk, fun _ _ => Or.inr hgo⟩
  | grow rank turns =>
    obtain rfl := Option.some.inj he
    obtain ⟨hk, hgo⟩ := kept_grow rank turns h
    exact ⟨hk, fun _ _ => hgo⟩
  | form i rows =>
    obtain ⟨hk, hgo⟩ := kept_form h he
    exact ⟨hk, fun _ => hgo⟩
  | land i rows token =>
    obtain ⟨hk, hgo⟩ := kept_land h he
    exact ⟨hk, fun _ => hgo⟩
  | finish rank i failed => exact ⟨kept_finish h he, fun hends => by cases hends⟩
  | leave j =>
    obtain rfl := Option.some.inj he
    exact ⟨⟨h.safe.shrink _ (List.Sublist.refl _) (List.eraseIdx_sublist _ _) rfl h.safe.donorIds
      fun s _ => le_rfl, h.settled⟩, fun _ => id⟩
  | drop k =>
    obtain rfl := Option.some.inj he
    refine ⟨⟨h.safe.shrink _ (List.Sublist.refl _) (List.Sublist.refl _) rfl ?_ fun s _ => ?_,
      h.settled⟩, fun _ => id⟩
    · exact fun d hd => h.safe.donorIds d ((List.eraseIdx_sublist _ _).subset hd)
    · exact Nat.add_le_add_left (donated_sublist srv.pools (List.eraseIdx_sublist _ _) s) _

theorem kept_reach (h : Reach srv.machine l) : l.Kept srv := by
  refine h.invariant (Ledger.Kept srv) ?_ fun l e l' hl he => (kept_step hl he).1
  rintro l rfl
  refine ⟨⟨by simp, by simp, fun s _ => ?_, by simp, by simp, by simp, by simp, by simp, by simp⟩,
    fun hf => by cases hf⟩
  simp [Ledger.reserved]

theorem lively_play {es : List LedgerEvent} (h : l.Kept srv) (hl : l.Lively)
    (hes : ∀ e ∈ es, e.ends = false) (he : play srv.machine l es = some l') : l'.Lively := by
  induction es generalizing l with
  | nil => exact Option.some.inj he ▸ hl
  | cons e es ih =>
    obtain ⟨m, hm, he⟩ := Option.bind_eq_some_iff.mp he
    obtain ⟨hkept, hgo⟩ := kept_step h hm
    exact ih hkept (hgo (hes e (by simp)) hl) (fun e he => hes e (by simp [he])) he

theorem Request.Sound.held_le (h : r.Sound srv) : r.held + r.rows ≤ srv.pools.tokensTotal := by
  have hlimit := srv.tokenLimit_le
  have hreads := h.reads
  have hgen := h.generated
  have hwithin := h.within
  rw [Request.history] at hreads
  omega

theorem Request.Sound.next_le (h : r.Sound srv) (hd : r.decoding = true) :
    r.held + 1 ≤ srv.pools.tokensTotal := by
  have hlimit := srv.tokenLimit_le
  have hgen := h.generated
  have hwithin := h.within
  simp only [Request.decoding, Request.history, Bool.and_eq_true, beq_iff_eq] at hd
  omega

end

/-- In every state reached the reservations and the donors are within each pool, no request holds
blocks past its reservation, a growth round leaves every decoding request that is not stalled room
for its next position, and until a request ends some active one is not stalled. -/
theorem ledger_safe (srv : Server) {l : Ledger} (h : Reach srv.machine l) :
    (∀ s < srv.pools.blocks.length, l.reserved srv s ≤ srv.pools.blocks.getD s 0) ∧
    (∀ r ∈ l.active, ∀ s < srv.pools.blocks.length,
      blocksFor (r.held + r.rows) (srv.pools.blockTokens.getD s 0) ≤ r.need.getD s 0) ∧
    ∀ rank turns,
      (∀ r ∈ (srv.grow rank turns l).active, r.decoding = true → r.stalled = false →
        ∀ s < srv.pools.blocks.length,
          blocksFor (r.held + 1) (srv.pools.blockTokens.getD s 0) ≤ r.need.getD s 0) ∧
      ∀ es m, (∀ e ∈ es, e.ends = false) → play srv.machine (srv.grow rank turns l) es = some m →
        m.active ≠ [] → ∃ r ∈ m.active, r.stalled = false := by
  have hkept := kept_reach h
  refine ⟨hkept.safe.within, fun r hr s hs => ?_, fun rank turns => ⟨fun r hr hd hgo s hs => ?_,
    fun es m hes hplay hne => ?_⟩⟩
  · have hsound := hkept.safe.sound r hr
    rw [← srv.pools.getD_blocksFor_of_le hs hsound.held_le]
    exact hsound.reserved s
  · obtain ⟨hgrown, -⟩ := kept_grow rank turns hkept
    rw [← srv.pools.getD_blocksFor_of_le hs ((hgrown.safe.sound r hr).next_le hd)]
    exact hgrown.settled rfl r hr hd hgo s
  · obtain ⟨hgrown, hlively⟩ := kept_grow rank turns hkept
    exact (lively_play hgrown hlively hes hplay).resolve_left hne

/-- A server of one pool of four blocks of one token, growing a token at a time. -/
def smallServer : Server := ⟨⟨[4], [1], rfl, by simp⟩, ⟨1⟩, 2, 8, 0⟩

def oldestFirst : Ranking := ⟨fun ds => List.range ds.length, fun _ => List.Perm.refl _⟩

/-- Two uncapped requests fill the pool; the first wants to grow while the second is in flight. -/
def edgeRun : List LedgerEvent :=
  [.submit oldestFirst true 0 1, .submit oldestFirst true 0 1, .grow oldestFirst fun _ => false,
    .form 0 1, .land 0 1 true, .grow oldestFirst fun _ => false, .form 0 1, .form 1 1,
    .land 0 1 true]

def edgeLedger : Ledger where
  active := [⟨1, true, 3, 1, 2, 2, 0, [2], false, 0⟩, ⟨2, true, 3, 1, 0, 0, 1, [2], false, 0⟩]
  paused := []
  donors := []
  donorIds := 0
  admissions := 2
  lines := 0
  formable := false

theorem edgeLedger_reached : Reach smallServer.machine edgeLedger :=
  reach_of_play edgeRun rfl rfl

theorem ledger_safe_edge : edgeLedger.reserved smallServer 0 ≤ 4 :=
  (ledger_safe smallServer edgeLedger_reached).1 0 (by decide)

/-- The second request ends between two growth rounds: the first, alone and not in flight, is
stalled until the next. -/
theorem stalled_alone :
    ¬∀ (srv : Server) (l : Ledger), Reach srv.machine l → l.active ≠ [] →
      (∀ r ∈ l.active, r.rows = 0) → ∃ r ∈ l.active, r.stalled = false := by
  intro hall
  have hreach : Reach smallServer.machine
      ⟨[⟨1, true, 3, 1, 2, 2, 0, [2], true, 0⟩], [], [], 0, 2, 0, false⟩ :=
    edgeLedger_reached.play (show play smallServer.machine edgeLedger
      [.grow oldestFirst fun _ => false, .land 1 1 false, .finish oldestFirst 1 true] = some _
      from rfl)
  obtain ⟨r, hr, hgo⟩ := hall _ _ hreach (by simp) (by simp)
  obtain rfl := List.mem_singleton.mp hr
  cases hgo

end Llmx
