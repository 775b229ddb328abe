import Llmx.LedgerGrowth

namespace Llmx

/-- A decoding request that is not stalled has room for its next position. -/
def Request.Settled (srv : Server) (r : Request) : Prop :=
  r.decoding = true → r.stalled = false →
    ∀ s, (srv.pools.blocksFor (r.held + 1)).getD s 0 ≤ r.need.getD s 0

theorem Growth.step_nil {g : Growth} {pools : Pools} {held : Nat} {need : List Nat}
    (h : g.step pools true true held need = []) (s : Nat) :
    (pools.blocksFor (held + 1)).getD s 0 ≤ need.getD s 0 := by
  unfold step at h
  simp only [Bool.not_true, Bool.or_self, Bool.false_eq_true, if_false] at h
  by_cases hs : s < (pools.blocksFor (held + 1)).length
  · split at h
    next hdue =>
      simp only [Bool.not_eq_true', List.any_eq_false, List.mem_range, decide_eq_true_eq] at hdue
      exact Nat.le_of_not_lt (hdue s hs)
    next =>
      rw [List.map_eq_nil_iff, List.range_eq_nil, pools.length_blocksFor] at h
      rw [pools.length_blocksFor] at hs
      omega
  · rw [getD_past (by omega)]
    exact Nat.zero_le _

/-- A step that falls due brings the reservation up to `tokens` past the next position. -/
theorem Growth.step_due {g : Growth} {pools : Pools} {uncapped decoding : Bool} {held : Nat}
    {need : List Nat} (h : g.step pools uncapped decoding held need ≠ []) :
    uncapped = true ∧ decoding = true ∧
      (g.step pools uncapped decoding held need).length = pools.blocks.length ∧
      ∀ s < pools.blocks.length, (g.step pools uncapped decoding held need).getD s 0 =
        (pools.blocksFor (held + 1 + g.tokens)).getD s 0 - need.getD s 0 := by
  unfold step at h ⊢
  split at h
  · exact absurd rfl h
  next hyes =>
    dsimp only at h ⊢
    split at h
    · exact absurd rfl h
    next hdue =>
      simp only [Bool.or_eq_true, Bool.not_eq_true', not_or, Bool.not_eq_false] at hyes
      rw [if_neg (by simp [hyes]), if_neg hdue]
      refine ⟨hyes.1, hyes.2, by simp [pools.length_blocksFor], fun s hs => ?_⟩
      rw [getD_map_range, pools.length_blocksFor, if_pos hs]

theorem Request.Sound.stall {srv : Server} {r : Request} (h : r.Sound srv) (b : Bool) :
    ({ r with stalled := b } : Request).Sound srv :=
  ⟨⟨h.generated, h.within⟩, h.reads, h.reserved, h.capped, h.entered⟩

theorem Request.Sound.grow {srv : Server} {r : Request} (h : r.Sound srv) (step : List Nat) :
    ({ r with need := addBlocks r.need step } : Request).Sound srv := by
  have hle : ∀ s, r.need.getD s 0 ≤ (addBlocks r.need step).getD s 0 := fun s => by
    rw [getD_addBlocks]
    omega
  refine ⟨⟨h.generated, h.within⟩, h.reads, fun s => (h.reserved s).trans (hle s), ?_, ?_⟩
  · exact fun hc s => (h.capped hc s).trans (hle s)
  · exact fun hu => (h.entered hu).imp id fun he s => (he s).trans (hle s)

/-- A request whose step does not fall due is settled: a capped one reserved all it may hold, one in
flight has its row. -/
theorem Request.Sound.settled {srv : Server} {r : Request} (h : r.Sound srv)
    (hno : r.rows = 0 →
      srv.growth.step srv.pools r.uncapped r.decoding r.held r.need = []) :
    r.Settled srv := by
  intro hd _ s
  have hnext : r.held + 1 = r.history := by
    simp only [Request.decoding, Bool.and_eq_true, beq_iff_eq] at hd
    exact hd.2
  by_cases hrows : r.rows = 0
  · cases hu : r.uncapped with
    | true =>
      have := hno hrows
      rw [hu, hd] at this
      exact Growth.step_nil this s
    | false =>
      refine (srv.pools.blocksFor_mono ?_ s).trans (h.capped hu s)
      have := h.generated
      rw [hnext, Request.history]
      omega
  · have := h.reads
    have hone : r.held + r.rows = r.held + 1 := by omega
    have := h.reserved s
    rwa [Request.kvHeld, hone] at this

/-- The growth round part way: the requests before `post` are settled, and someone goes on, one in
flight, one with a cap or the earliest. -/
structure Growing (srv : Server) (l : Ledger) (pre post : List Request) : Prop where
  safe : l.Safe srv
  active : l.active = pre ++ post
  settled : ∀ q ∈ pre, q.Settled srv
  calm : ∀ q ∈ pre, q.rows ≠ 0 ∨ q.uncapped = false → q.stalled = false
  going : (∃ q ∈ l.active, q.rows ≠ 0 ∨ q.uncapped = false) ∨
    ∀ q, pre.head? = some q → q.stalled = false

section

variable {srv : Server} {l : Ledger} {pre post : List Request} {r : Request}

/-- One request of the round done: it is left as `r'`, and those paused for it were uncapped and not
in flight. -/
theorem Growing.advance (h : Growing srv l pre (r :: post)) {l' : Ledger} {r' : Request}
    {post' : List Request} (hsafe : l'.Safe srv) (hactive : l'.active = pre ++ r' :: post')
    (hrows : r'.rows = r.rows) (hcap : r'.uncapped = r.uncapped)
    (hkept : ∀ q ∈ post, q ∉ post' → q.rows = 0 ∧ q.uncapped = true)
    (hsettled : r'.Settled srv) (hcalm : r'.rows ≠ 0 ∨ r'.uncapped = false → r'.stalled = false)
    (hfirst : pre = [] → (∀ q ∈ l.active, q.rows = 0 ∧ q.uncapped = true) → r'.stalled = false) :
    Growing srv l' (pre ++ [r']) post' := by
  refine ⟨hsafe, by simp [hactive], ?_, ?_, ?_⟩
  · intro q hq
    rcases List.mem_append.mp hq with hq | hq
    · exact h.settled q hq
    · rw [List.mem_singleton.mp hq]
      exact hsettled
  · intro q hq
    rcases List.mem_append.mp hq with hq | hq
    · exact h.calm q hq
    · rw [List.mem_singleton.mp hq]
      exact hcalm
  · by_cases hsome : ∃ q ∈ l.active, q.rows ≠ 0 ∨ q.uncapped = false
    · obtain ⟨q, hq, hgo⟩ := hsome
      left
      rw [h.active] at hq
      rcases List.mem_append.mp hq with hq | hq
      · exact ⟨q, by simp [hactive, hq], hgo⟩
      · rcases List.mem_cons.mp hq with rfl | hq
        · exact ⟨r', by simp [hactive], by rwa [hrows, hcap]⟩
        · refine ⟨q, ?_, hgo⟩
          have hin : q ∈ post' := by
            by_contra hn
            have := hkept q hq hn
            simp [this] at hgo
          simp [hactive, hin]
    · right
      intro q hq
      have hhead := h.going.resolve_left hsome
      cases pre with
      | nil =>
        obtain rfl : r' = q := by simpa using hq
        refine hfirst rfl fun p hp => ?_
        have := not_and_or.mp (not_exists.mp hsome p)
        simpa [hp] using this
      | cons p ps => exact hhead q (by simpa using hq)

theorem Growing.first (h : Growing srv l [] (r :: post))
    (hall : ∀ q ∈ l.active, q.rows = 0 ∧ q.uncapped = true) (rank : Ranking)
    (hstep : srv.growth.step srv.pools r.uncapped r.decoding r.held r.need ≠ []) :
    let t := srv.growPlan rank l r
      (srv.growth.step srv.pools r.uncapped r.decoding r.held r.need)
    t.enough = true ∧ t.wait = false := by
  obtain ⟨-, -, hlength, hget⟩ := Growth.step_due hstep
  have hl : l.active = r :: post := h.active
  refine growPlan_first rank h.safe hl (fun q hq => (hall q hq).1)
    (fun q hq => (hall q (by simp [hl, hq])).2) fun s hs => ?_
  rw [hlength] at hs
  refine ⟨hs, ?_⟩
  have hle := srv.pools.blocksFor_le (r.held + 1 + srv.growth.tokens) s
  have hwithin := h.safe.within s hs
  rw [reserved_eq, hl, needed_cons] at hwithin
  rw [hget s hs]
  omega

/-- A growing request takes the victims of a plan and then the step it made room for. -/
theorem grow_taken (rank : Ranking) (h : Growing srv l pre (r :: post))
    (hstep : srv.growth.step srv.pools r.uncapped r.decoding r.held r.need ≠ [])
    {t : Taken} (ht : t = srv.growPlan rank l r
      (srv.growth.step srv.pools r.uncapped r.decoding r.held r.need))
    (henough : t.enough = true) (hwait : t.wait = false) (hcalm : r.stalled = false) :
    ∃ r' post', Growing srv ((srv.take rank l t).put { r with
      need := addBlocks r.need (srv.growth.step srv.pools r.uncapped r.decoding r.held r.need) })
      (pre ++ [r']) post' ∧ post'.length ≤ post.length := by
  obtain ⟨hun, -, hlength, hget⟩ := Growth.step_due hstep
  generalize srv.growth.step srv.pools r.uncapped r.decoding r.held r.need = step at *
  subst ht
  obtain ⟨hvs, hapart⟩ := growPlan_victims rank h.safe h.active step hwait
  obtain ⟨hsafe, ⟨post', hactive, hsub, hgone⟩, hless⟩ := take_spec rank _ h.safe h.active
    (fun v hv => ⟨(hvs v hv).1, (hvs v hv).2.1⟩) hapart
  have hcovers := makeRoomBy_covers (latestFirst_spec (srv.holders l.active) r.admission) _ _ _ _ _
    _ _ henough
  have hr := h.safe.sound r (by simp [h.active])
  obtain ⟨hsafe', hactive'⟩ := hsafe.put hactive { r with need := addBlocks r.need step }
    rfl (hr.grow step) fun s hs => by
      have hcover := hcovers s (hlength ▸ hs)
      have hfrees := frees_le (srv.gainOf l.active l.donors)
        (srv.growPlan rank l r step).toVictims s
      have hwithin := h.safe.within s hs
      have htaken := hless s hs
      rw [getD_room hs fun q hq => (h.safe.sound q hq).reserved s] at hcover
      change _ ≤ _ + frees _ (srv.growPlan rank l r step).toVictims s at hcover
      rw [getD_addBlocks]
      omega
  refine ⟨_, post', h.advance hsafe' hactive' rfl rfl ?_ ?_ ?_ ?_, hsub.length_le⟩
  · intro q hq hn
    obtain ⟨v, hv, rfl⟩ := hgone q hq hn
    exact (hvs v hv).2
  · intro _ _ s
    dsimp only
    rw [getD_addBlocks]
    by_cases hs : s < srv.pools.blocks.length
    · have hmono := srv.pools.blocksFor_mono
        (show r.held + 1 ≤ r.held + 1 + srv.growth.tokens by omega) s
      have := hget s hs
      omega
    · rw [getD_past (by rw [srv.pools.length_blocksFor]; omega)]
      exact Nat.zero_le _
  · exact fun _ => hcalm
  · exact fun _ _ => hcalm

/-- A request changed in place before its turn in the round. -/
theorem Growing.put (h : Growing srv l pre (r :: post)) (r' : Request)
    (hr : r'.admission = r.admission) (hsound : r'.Sound srv) (hneed : r'.need = r.need)
    (hrows : r'.rows = r.rows) (hcap : r'.uncapped = r.uncapped) :
    Growing srv (l.put r') pre (r' :: post) := by
  obtain ⟨hsafe, hactive⟩ := h.safe.put h.active r' hr hsound fun s hs => by
    have := h.safe.within s hs
    rw [hneed]
    omega
  refine ⟨hsafe, hactive, h.settled, h.calm, h.going.imp ?_ id⟩
  rintro ⟨q, hq, hgo⟩
  rw [h.active] at hq
  rw [hactive]
  rcases List.mem_append.mp hq with hq | hq
  · exact ⟨q, by simp [hq], hgo⟩
  · rcases List.mem_cons.mp hq with rfl | hq
    · exact ⟨r', by simp, by rwa [hrows, hcap]⟩
    · exact ⟨q, by simp [hq], hgo⟩

/-- A request with nothing to do in the round. -/
theorem Growing.pass (h : Growing srv l pre (r :: post)) (hcalm : r.stalled = false)
    (hsettled : r.Settled srv) : Growing srv l (pre ++ [r]) post :=
  h.advance h.safe h.active rfl rfl (fun _ hq hn => absurd hq hn) hsettled (fun _ => hcalm)
    fun _ _ => hcalm

/-- A request that gives the pool's edge up leaves the round. -/
theorem Growing.turn (h : Growing srv l pre (r :: post)) (rank : Ranking) (hrows : r.rows = 0)
    (hun : r.uncapped = true) : Growing srv (srv.pause rank l r true).1 pre post := by
  obtain ⟨hactive, hsafe, -⟩ := pause_spec rank h.safe h.active hrows true
  refine ⟨hsafe, hactive, h.settled, h.calm, h.going.imp ?_ id⟩
  rintro ⟨q, hq, hgo⟩
  refine ⟨q, ?_, hgo⟩
  rw [h.active] at hq
  rw [hactive]
  rcases List.mem_append.mp hq with hq | hq
  · simp [hq]
  · rcases List.mem_cons.mp hq with rfl | hq
    · simp [hrows, hun] at hgo
    · simp [hq]

/-- A request that could not grow sits the round out; it is never the earliest with no one else
going on. -/
theorem Growing.stall (h : Growing srv l pre (r :: post)) (rank : Ranking) (hrows : r.rows = 0)
    (hstep : srv.growth.step srv.pools r.uncapped r.decoding r.held r.need ≠ [])
    (hno : (srv.growPlan rank l r
        (srv.growth.step srv.pools r.uncapped r.decoding r.held r.need)).enough = false ∨
      (srv.growPlan rank l r
        (srv.growth.step srv.pools r.uncapped r.decoding r.held r.need)).wait = true) :
    Growing srv (l.put { r with stalled := true }) (pre ++ [{ r with stalled := true }]) post := by
  obtain ⟨hun, -⟩ := Growth.step_due hstep
  have hput := h.put { r with stalled := true } rfl
    ((h.safe.sound r (by simp [h.active])).stall true) rfl rfl rfl
  refine h.advance hput.safe hput.active rfl rfl (fun q hq hn => absurd hq hn) ?_ ?_ ?_
  · exact fun _ hcalm => absurd hcalm (by simp)
  · simp [hrows, hun]
  · rintro rfl hall
    obtain ⟨henough, hwait⟩ := h.first hall rank hstep
    simp [henough, hwait] at hno

/-- The growth round leaves every request settled and someone going on. -/
theorem growFrom_spec (rank : Ranking) (turns : Nat → Bool) (n : Nat) (h : Growing srv l pre post)
    (hn : post.length ≤ n) :
    ∃ pre', Growing srv (srv.growFrom rank turns n pre.length l) pre' [] := by
  induction n generalizing l pre post with
  | zero =>
    obtain rfl : post = [] := by simpa using hn
    exact ⟨pre, h⟩
  | succ n ih =>
    cases post with
    | nil =>
      have hnone : l.active[pre.length]? = none := by simp [h.active]
      rw [Server.growFrom, hnone]
      exact ⟨pre, h⟩
    | cons r post =>
      have hsome : l.active[pre.length]? = some r := by simp [h.active]
      have hn' : post.length ≤ n := by simpa using hn
      have hnext : ∀ q : Request, pre.length + 1 = (pre ++ [q]).length := fun q => by simp
      have hfresh := h.put { r with stalled := false } rfl
        ((h.safe.sound r (by simp [h.active])).stall false) rfl rfl rfl
      have hcalm : ({ r with stalled := false } : Request).stalled = false := rfl
      have hq := hfresh.safe.sound { r with stalled := false } (by simp [hfresh.active])
      simp only [Server.growFrom, hsome]
      split
      next hfly =>
        have hrows : r.rows ≠ 0 := by simpa [Request.inFlight] using hfly
        rw [hnext { r with stalled := false }]
        exact ih (hfresh.pass hcalm (hq.settled fun hz => absurd hz hrows)) hn'
      next hfly =>
        have hrows : r.rows = 0 := by simpa [Request.inFlight] using hfly
        split
        next hno =>
          rw [hnext { r with stalled := false }]
          exact ih (hfresh.pass hcalm (hq.settled fun _ => hno)) hn'
        next hstep =>
          split
          next => exact ih (hfresh.turn rank hrows (Growth.step_due hstep).1) hn'
          next =>
            split
            next hplan =>
              rw [hnext { r with stalled := true }]
              exact ih (hfresh.stall rank hrows hstep (by simpa using hplan)) hn'
            next hplan =>
              simp only [Bool.or_eq_true, Bool.not_eq_true', not_or, Bool.not_eq_false,
                Bool.not_eq_true] at hplan
              obtain ⟨r', post', hgrown, hle⟩ := grow_taken rank hfresh hstep rfl hplan.1
                hplan.2 hcalm
              rw [hnext r']
              exact ih hgrown (hle.trans hn')

end

end Llmx
