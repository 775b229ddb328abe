import Llmx.Ledger
import Llmx.RoomSound
import Llmx.KVTables

namespace Llmx

theorem getD_map_range (n : Nat) (f : Nat → Nat) (s : Nat) :
    ((List.range n).map f).getD s 0 = if s < n then f s else 0 := by
  by_cases hs : s < n
  · simp [List.getD_eq_getElem?_getD, hs]
  · simp [List.getD_eq_getElem?_getD, hs]

theorem getD_past {xs : List Nat} {s : Nat} (h : xs.length ≤ s) : xs.getD s 0 = 0 := by
  simp [List.getD_eq_getElem?_getD, List.getElem?_eq_none h]

theorem getD_addBlocks (a b : List Nat) (s : Nat) :
    (addBlocks a b).getD s 0 = a.getD s 0 + b.getD s 0 := by
  rw [addBlocks, getD_map_range]
  split
  · rfl
  · rw [getD_past (show a.length ≤ s by omega), getD_past (show b.length ≤ s by omega)]

namespace Pools

theorem length_blocksFor (p : Pools) (t : Nat) : (p.blocksFor t).length = p.blocks.length := by
  simp [blocksFor, p.same_length]

theorem getD_blocksFor (p : Pools) (t s : Nat) :
    (p.blocksFor t).getD s 0 =
      min (Llmx.blocksFor t (p.blockTokens.getD s 0)) (p.blocks.getD s 0) := by
  by_cases hs : s < p.blocks.length
  · have hs' : s < p.blockTokens.length := p.same_length ▸ hs
    simp [blocksFor, List.getD_eq_getElem?_getD, hs, hs']
  · rw [getD_past (by rw [length_blocksFor]; omega), getD_past (show p.blocks.length ≤ s by omega),
      Nat.min_zero]

theorem blocksFor_mono (p : Pools) {a b : Nat} (h : a ≤ b) (s : Nat) :
    (p.blocksFor a).getD s 0 ≤ (p.blocksFor b).getD s 0 := by
  rw [getD_blocksFor, getD_blocksFor]
  have := Llmx.blocksFor_mono (b := p.blockTokens.getD s 0) h
  omega

theorem blocksFor_le (p : Pools) (t s : Nat) : (p.blocksFor t).getD s 0 ≤ p.blocks.getD s 0 := by
  rw [getD_blocksFor]
  omega

theorem blocksFor_zero (p : Pools) (s : Nat) : (p.blocksFor 0).getD s 0 = 0 := by
  rw [getD_blocksFor, Llmx.blocksFor, Nat.zero_div, Nat.zero_mod]
  exact Nat.zero_min _

theorem tokensTotal_le (p : Pools) {s : Nat} (hs : s < p.blocks.length) :
    p.tokensTotal ≤ p.blocks.getD s 0 * p.blockTokens.getD s 0 := by
  have hs' : s < p.blockTokens.length := p.same_length ▸ hs
  have hmem : p.blocks.getD s 0 * p.blockTokens.getD s 0 ∈
      List.zipWith (· * ·) p.blocks p.blockTokens := by
    refine List.mem_iff_getElem?.mpr ⟨s, ?_⟩
    simp [hs, hs']
  unfold tokensTotal
  cases hmin : (List.zipWith (· * ·) p.blocks p.blockTokens).min? with
  | none =>
    rw [List.min?_eq_none_iff.mp hmin] at hmem
    cases hmem
  | some m => exact (List.min?_eq_some_iff.mp hmin).2 _ hmem

/-- The blocks of positions every pool can hold are not clipped. -/
theorem getD_blocksFor_of_le (p : Pools) {t s : Nat} (hs : s < p.blocks.length)
    (ht : t ≤ p.tokensTotal) :
    (p.blocksFor t).getD s 0 = Llmx.blocksFor t (p.blockTokens.getD s 0) := by
  have hs' : s < p.blockTokens.length := p.same_length ▸ hs
  have hpos : 0 < p.blockTokens.getD s 0 := by
    apply p.positive
    simp [List.getD_eq_getElem?_getD, hs']
  have hmono := Llmx.blocksFor_mono (b := p.blockTokens.getD s 0) (ht.trans (p.tokensTotal_le hs))
  rw [Llmx.blocksFor_mul (Nat.mul_mod_left ..), Nat.mul_div_cancel _ hpos] at hmono
  rw [getD_blocksFor, Nat.min_eq_left hmono]

end Pools

section

variable {srv : Server} {l : Ledger}

theorem Request.getD_promised (pools : Pools) (r : Request) {s : Nat} (hs : s < pools.blocks.length) :
    (r.promised pools).getD s 0 = r.need.getD s 0 - (r.kvHeld pools).getD s 0 := by
  rw [promised, getD_map_range, if_pos hs]

/-- The blocks of pool `s` donors hold. -/
def donated (pools : Pools) (ds : List Donor) (s : Nat) : Nat :=
  (ds.map fun d => (pools.blocksFor d.tokens).getD s 0).sum

def needed (rs : List Request) (s : Nat) : Nat := (rs.map fun r => r.need.getD s 0).sum

theorem reserved_eq : l.reserved srv s = needed l.active s + donated srv.pools l.donors s := rfl

/-- The room a fold subtracts promises from. -/
theorem getD_room_fold {pools : Pools} {s : Nat} (rs : List Request) (free : List Nat)
    (hs : s < free.length) :
    (rs.foldl (fun free r =>
        (List.range free.length).map fun s => free.getD s 0 - (r.promised pools).getD s 0)
      free).getD s 0 = free.getD s 0 - (rs.map fun r => (r.promised pools).getD s 0).sum := by
  induction rs generalizing free with
  | nil => simp
  | cons r rs ih =>
    rw [List.foldl_cons, ih _ (by simpa using hs), getD_map_range, if_pos hs, List.map_cons,
      List.sum_cons]
    omega

/-- With no request past its reservation, the room is what nothing has reserved. -/
theorem getD_room {s : Nat} (hs : s < srv.pools.blocks.length)
    (h : ∀ r ∈ l.active, (r.kvHeld srv.pools).getD s 0 ≤ r.need.getD s 0) :
    (srv.room l).getD s 0 = srv.pools.blocks.getD s 0 - l.reserved srv s := by
  have hsplit : (l.active.map fun r => (r.kvHeld srv.pools).getD s 0).sum +
      (l.active.map fun r => (r.promised srv.pools).getD s 0).sum = needed l.active s := by
    rw [← List.sum_map_add]
    congr 1
    apply List.map_congr_left
    intro r hr
    rw [r.getD_promised srv.pools hs]
    have := h r hr
    omega
  rw [Server.room, getD_room_fold _ _ (by simpa [Server.kvFree] using hs), Server.kvFree,
    getD_map_range, if_pos hs, reserved_eq, ← hsplit, donated]
  omega

theorem getD_gainOf (srv : Server) (active : List Request) (donors : List Donor) (v : Victims)
    {s : Nat} (hs : s < srv.pools.blocks.length) :
    (srv.gainOf active donors v).getD s 0 =
      (active.zipIdx.map (srv.gives v s)).sum +
      (donors.zipIdx.map fun p =>
        if p.2 ∈ v.donors then (srv.pools.blocksFor p.1.tokens).getD s 0 else 0).sum := by
  rw [Server.gainOf, getD_map_range, if_pos hs]

theorem Server.gives_mono (srv : Server) {v w : Victims} (h : v.Within w) (s : Nat)
    (p : Request × Nat) : srv.gives v s p ≤ srv.gives w s p := by
  have hboth : (p.2, true) ∈ v.paused → (p.2, true) ∈ w.paused := fun hp =>
    (h.2 _ hp).elim id id
  have hhead : (p.2, false) ∈ v.paused → (p.2, false) ∈ w.paused ∨ (p.2, true) ∈ w.paused :=
    h.2 _
  unfold gives
  split
  next hp => rw [if_pos (hboth hp)]
  next =>
    split
    next hp =>
      split
      · omega
      · rw [if_pos ((hhead hp).resolve_right ‹_›)]
    next => exact Nat.zero_le _

/-- More victims never free fewer blocks. -/
theorem Server.gainOf_mono (srv : Server) (active : List Request) (donors : List Donor)
    {v w : Victims} (h : v.Within w) (s : Nat) :
    (srv.gainOf active donors v).getD s 0 ≤ (srv.gainOf active donors w).getD s 0 := by
  by_cases hs : s < srv.pools.blocks.length
  · rw [getD_gainOf srv _ _ _ hs, getD_gainOf srv _ _ _ hs]
    apply Nat.add_le_add
    · exact List.sum_le_sum fun p _ => srv.gives_mono h s p
    · apply List.sum_le_sum
      intro p _
      split
      next hp => rw [if_pos (h.1 _ hp)]
      next => exact Nat.zero_le _
  · simp [Server.gainOf, hs]

/-- A request that keeps nothing and is not in flight holds no block. -/
theorem kvHeld_of_keepsNothing (srv : Server) {active : List Request} {i : Nat} {r : Request}
    (hi : active[i]? = some r) (hrows : r.rows = 0)
    (hk : keepsNothing (srv.holders active) i = true) (s : Nat) :
    (r.kvHeld srv.pools).getD s 0 = 0 := by
  rw [Request.kvHeld, hrows, Nat.add_zero]
  have hall : (r.holder srv.pools).kept.all (· == 0) = true := by
    simpa [keepsNothing, Server.holders, List.getD_eq_getElem?_getD, hi] using hk
  by_cases hz : r.held = 0
  · rw [hz, srv.pools.blocksFor_zero]
  · simp only [Request.holder, ne_eq, hz, not_false_eq_true, if_true] at hall
    rw [List.getD_eq_getElem?_getD]
    cases he : (srv.pools.blocksFor r.held)[s]? with
    | none => rfl
    | some x => simpa using List.all_eq_true.mp hall x (List.mem_of_getElem? he)

/-- While nothing is in flight the gain is one a plan can be complete for. -/
theorem monotoneGain_gainOf (srv : Server) (active : List Request) (donors : List Donor)
    (h : ∀ r ∈ active, r.rows = 0) :
    MonotoneGain (srv.holders active) (srv.gainOf active donors) := by
  refine ⟨fun v w hvw s => srv.gainOf_mono active donors hvw s, fun ds p q i hk s => ?_⟩
  · by_cases hs : s < srv.pools.blocks.length
    · rw [getD_gainOf srv _ _ _ hs, getD_gainOf srv _ _ _ hs]
      congr 2
      apply List.map_congr_left
      rintro ⟨r, j⟩ hr
      have hj := List.mk_mem_zipIdx_iff_getElem?.mp hr
      by_cases hji : j = i
      · subst hji
        have hkeep := kvHeld_of_keepsNothing srv hj (h r (List.mem_of_getElem? hj)) hk s
        simp only [Server.gives, hkeep]
        simp
      · simp [Server.gives, hji]
    · simp [Server.gainOf, hs]

end

end Llmx
