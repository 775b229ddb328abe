import Llmx.KVOwnership

namespace Llmx

/-- Every id is within the budget, and every count one of 32 bits. -/
structure BlockPool.Fits (p : BlockPool) : Prop where
  next : p.next ≤ p.max
  refs : ∀ r ∈ p.refs, r < 4294967296

namespace BlockPool.Fits

variable {p q : BlockPool} {id : Nat}

theorem set_lt {refs : List Nat} {r i : Nat} (h : ∀ r ∈ refs, r < 4294967296)
    (hr : r < 4294967296) : ∀ x ∈ refs.set i r, x < 4294967296 := by
  intro x hx
  rcases List.mem_or_eq_of_mem_set hx with hin | heq
  · exact h x hin
  · omega

theorem alloc (h : p.Fits) (ha : p.alloc = some (id, q)) : q.Fits := by
  unfold BlockPool.alloc at ha
  split at ha
  next last _ =>
    obtain ⟨rfl, rfl⟩ := Prod.mk.inj (Option.some.inj ha)
    exact ⟨h.next, set_lt h.refs (by omega)⟩
  next =>
    split at ha
    next => cases ha
    next hroom =>
      obtain ⟨rfl, rfl⟩ := Prod.mk.inj (Option.some.inj ha)
      refine ⟨show p.next + 1 ≤ p.max by omega, fun r hr => ?_⟩
      rcases List.mem_append.mp hr with hin | hone
      · exact h.refs r hin
      · rw [List.mem_singleton.mp hone]
        omega

theorem retain (h : p.Fits) (hr : p.retain id = some q) : q.Fits := by
  unfold BlockPool.retain at hr
  split at hr
  next r hget =>
    split at hr
    next => cases hr
    split at hr
    next => cases hr
    next hmax =>
      cases hr
      have hlt := h.refs r (List.mem_of_getElem? hget)
      exact ⟨h.next, set_lt h.refs (by omega)⟩
  next => cases hr

theorem release (h : p.Fits) (hr : p.release id = some q) : q.Fits := by
  unfold BlockPool.release at hr
  split at hr
  next r hget =>
    split at hr
    next => cases hr
    next =>
      cases hr
      have hlt := h.refs r (List.mem_of_getElem? hget)
      exact ⟨h.next, set_lt h.refs (by omega)⟩
  next => cases hr

theorem releaseList {ids : List Nat} (h : p.Fits)
    (hr : ids.foldlM BlockPool.release p = some q) : q.Fits := by
  induction ids generalizing p with
  | nil =>
    cases hr
    exact h
  | cons id ids ih =>
    obtain ⟨mid, hmid, hr⟩ := Option.bind_eq_some_iff.mp hr
    exact ih (h.release hmid) hr

theorem shrinkTo {blocks out : List Nat} {keep : Nat} (h : p.Fits)
    (hs : Llmx.shrinkTo p blocks keep = some (q, out)) : q.Fits := by
  obtain ⟨mid, hmid, hs⟩ := Option.map_eq_some_iff.mp hs
  obtain ⟨rfl, -⟩ := Prod.mk.inj hs
  exact h.releaseList hmid

theorem takeBlocks {k : Nat} {blocks out : List Nat} {ok : Bool} (h : p.Fits)
    (ht : Llmx.takeBlocks k p blocks = (ok, q, out)) : q.Fits := by
  induction k generalizing p blocks with
  | zero =>
    cases ht
    exact h
  | succ k ih =>
    unfold Llmx.takeBlocks at ht
    split at ht
    next id mid halloc => exact ih (h.alloc halloc) ht
    next =>
      cases ht
      exact h

theorem retainBlocks {ids blocks out : List Nat} {ok : Bool} (h : p.Fits)
    (ht : Llmx.retainBlocks ids p blocks = (ok, q, out)) : q.Fits := by
  induction ids generalizing p blocks with
  | nil =>
    cases ht
    exact h
  | cons id ids ih =>
    unfold Llmx.retainBlocks at ht
    split at ht
    next mid hmid => exact ih (h.retain hmid) ht
    next =>
      cases ht
      exact h

end BlockPool.Fits

/-- A call on one sequence keeps its pool's budget and where it is bound. -/
structure KVSequence.Keeps (p q : BlockPool) (s t : KVSequence) : Prop where
  fits : p.Fits → q.Fits
  bound : t.bound = s.bound
  tokens : t.blockTokens = s.blockTokens

namespace KVSequence.Keeps

variable {p q : BlockPool} {s t : KVSequence}

theorem abort (h : KVSequence.abort p s = some (q, t)) : Keeps p q s t := by
  obtain ⟨⟨mid, blocks⟩, hs, h⟩ := Option.map_eq_some_iff.mp h
  obtain ⟨rfl, rfl⟩ := Prod.mk.inj h
  exact ⟨fun hp => hp.shrinkTo hs, Eq.refl _, Eq.refl _⟩

theorem truncate {length : Nat} (h : KVSequence.truncate p s length = some (q, t)) :
    Keeps p q s t := by
  obtain ⟨⟨mid, blocks⟩, hs, h⟩ := Option.map_eq_some_iff.mp h
  obtain ⟨rfl, rfl⟩ := Prod.mk.inj h
  exact ⟨fun hp => hp.shrinkTo hs, Eq.refl _, Eq.refl _⟩

theorem releaseAll (h : KVSequence.releaseAll p s = some (q, t)) : Keeps p q s t := by
  obtain ⟨⟨mid, blocks⟩, hs, h⟩ := Option.map_eq_some_iff.mp h
  obtain ⟨rfl, rfl⟩ := Prod.mk.inj h
  refine ⟨fun hp => ?_, Eq.refl _, Eq.refl _⟩
  split at hs
  next => exact hp.shrinkTo hs
  next =>
    cases hs
    exact hp

theorem prepare {n : Nat} {ok : Bool} (h : KVSequence.prepare p s n = some (ok, q, t)) :
    Keeps p q s t := by
  have hsame : some (false, p, s) = some (ok, q, t) → Keeps p q s t := by
    intro heq
    cases heq
    exact ⟨id, Eq.refl _, Eq.refl _⟩
  unfold KVSequence.prepare at h
  split at h
  next => exact hsame h
  split at h
  next => exact hsame h
  split at h
  next => exact hsame h
  split at h
  next => exact hsame h
  split at h
  next mid blocks htake =>
    cases h
    exact ⟨fun hp => hp.takeBlocks htake, Eq.refl _, Eq.refl _⟩
  next mid blocks htake =>
    obtain ⟨⟨last, u⟩, habort, h⟩ := Option.map_eq_some_iff.mp h
    cases h
    have hkeeps := Keeps.abort habort
    exact ⟨fun hp => hkeeps.fits (hp.takeBlocks htake), hkeeps.bound, hkeeps.tokens⟩

theorem fork {length : Nat} {f : Option KVSequence}
    (h : KVSequence.fork p s length = some (q, f)) :
    (p.Fits → q.Fits) ∧ ∀ t, f = some t → s.bound = true ∧ t.blockTokens = s.blockTokens := by
  have hnone : some (p, none) = some (q, f) →
      (p.Fits → q.Fits) ∧ ∀ t, f = some t → s.bound = true ∧ t.blockTokens = s.blockTokens := by
    intro heq
    cases heq
    exact ⟨id, fun t ht => by cases ht⟩
  unfold KVSequence.fork at h
  split at h
  next => exact hnone h
  next hbound =>
    split at h
    next => exact hnone h
    split at h
    next => exact hnone h
    split at h
    next mid blocks hret =>
      cases h
      refine ⟨fun hp => hp.retainBlocks hret, fun t ht => ?_⟩
      cases ht
      exact ⟨by simpa using hbound, Eq.refl _⟩
    next mid blocks hret =>
      obtain ⟨⟨last, u⟩, hrel, h⟩ := Option.map_eq_some_iff.mp h
      cases h
      exact ⟨fun hp => (Keeps.releaseAll hrel).fits (hp.retainBlocks hret), fun t ht => by cases ht⟩

end KVSequence.Keeps

/-- A sequence bound to a pool is bound at `blockTokens`. -/
def KVSequence.At (blockTokens : Nat) (s : KVSequence) : Prop :=
  s.bound = true → s.blockTokens = blockTokens

theorem KVSequence.Keeps.stays {p q : BlockPool} {s t : KVSequence} {b : Nat} (k : Keeps p q s t)
    (h : s.At b) : t.At b := by
  intro ht
  rw [k.bound] at ht
  rw [k.tokens, h ht]

namespace KVCache

/-- The blocks of `c` within its budget, each sequence bound at `blockTokens`. -/
structure Budget (blockTokens : Nat) (c : KVCache) : Prop where
  fits : c.pool.Fits
  bound : ∀ s ∈ c.seqs, s.At blockTokens

/-- Whether a call binds no sequence but at `blockTokens`. -/
def bindsAt (blockTokens : Nat) : KVCall → Bool
  | .bind t => t == blockTokens
  | _ => true

/-- A storage's pool and its sequences, from the loading of the model on. -/
def storageMachine (blockTokens : Nat) : Runs.Machine KVCache KVCall where
  start := machine.start
  step c call := if bindsAt blockTokens call then c.step call else none

variable {b : Nat} {c d : KVCache}

theorem Budget.on (h : c.Budget b) {i : Nat}
    {f : KVSequence → Option (BlockPool × KVSequence)} (hd : c.on i f = some d)
    (hf : ∀ s q t, f s = some (q, t) → KVSequence.Keeps c.pool q s t) : d.Budget b := by
  obtain ⟨s, hs, hd⟩ := Option.bind_eq_some_iff.mp hd
  obtain ⟨⟨q, t⟩, ht, hd⟩ := Option.map_eq_some_iff.mp hd
  cases hd
  have hkeeps := hf s q t ht
  refine ⟨hkeeps.fits h.fits, fun u hu => ?_⟩
  rcases List.mem_or_eq_of_mem_set hu with hin | heq
  · exact h.bound u hin
  · rw [heq]
    exact hkeeps.stays (h.bound s (List.mem_of_getElem? hs))

theorem Budget.append (h : c.Budget b) {q : BlockPool} (hq : q.Fits) {ts : List KVSequence}
    (hts : ∀ t ∈ ts, t.At b) : Budget b ⟨q, c.seqs ++ ts⟩ := by
  refine ⟨hq, fun u hu => ?_⟩
  rcases List.mem_append.mp hu with hin | hin
  · exact h.bound u hin
  · exact hts u hin

theorem Budget.step (h : c.Budget b) {call : KVCall} (hb : bindsAt b call = true)
    (hd : c.step call = some d) : d.Budget b := by
  have hblank : KVSequence.blank.At b := fun hbound => by cases hbound
  cases call with
  | configure max =>
    have hd : (if 2147483648 < max then none
      else some { c with pool := (c.pool.configure max).getD c.pool }) = some d := hd
    split at hd
    next => cases hd
    next =>
      cases hd
      refine ⟨?_, h.bound⟩
      dsimp only
      unfold BlockPool.configure
      split
      next => exact h.fits
      next => exact ⟨Nat.zero_le _, fun r hr => by cases hr⟩
  | default =>
    cases hd
    refine h.append h.fits fun t ht => ?_
    rw [List.mem_singleton.mp ht]
    exact hblank
  | bind blockTokens =>
    obtain rfl : blockTokens = b := beq_iff_eq.mp hb
    cases hd
    split
    next => exact h
    next =>
      refine h.append h.fits fun t ht => ?_
      rw [List.mem_singleton.mp ht]
      exact fun _ => Eq.refl _
  | prepare i n =>
    refine h.on hd fun s q t ht => ?_
    obtain ⟨⟨ok, p, u⟩, hp, ht⟩ := Option.map_eq_some_iff.mp ht
    cases ht
    exact .prepare hp
  | commit i =>
    refine h.on hd fun s q t ht => ?_
    cases ht
    exact ⟨id, Eq.refl _, Eq.refl _⟩
  | abort i => exact h.on hd fun s q t ht => .abort ht
  | truncate i length => exact h.on hd fun s q t ht => .truncate ht
  | reset i => exact h.on hd fun s q t ht => .truncate ht
  | fork i length =>
    obtain ⟨s, hs, hd⟩ := Option.bind_eq_some_iff.mp hd
    obtain ⟨⟨q, f⟩, hf, hd⟩ := Option.map_eq_some_iff.mp hd
    cases hd
    obtain ⟨hfits, hbound⟩ := KVSequence.Keeps.fork hf
    refine h.append (hfits h.fits) fun t ht hat => ?_
    obtain ⟨hsb, htokens⟩ := hbound t (Option.mem_toList.mp ht)
    rw [htokens, h.bound s (List.mem_of_getElem? hs) hsb]
  | moveNew i =>
    obtain ⟨s, hs, hd⟩ := Option.map_eq_some_iff.mp hd
    cases hd
    refine ⟨h.fits, fun u hu => ?_⟩
    rcases List.mem_append.mp hu with hin | hin
    · rcases List.mem_or_eq_of_mem_set hin with hin | heq
      · exact h.bound u hin
      · rw [heq]
        exact hblank
    · rw [List.mem_singleton.mp hin]
      exact h.bound s (List.mem_of_getElem? hs)
  | moveTo i j =>
    obtain ⟨s, hs, hd⟩ := Option.bind_eq_some_iff.mp hd
    obtain ⟨o, ho, hd⟩ := Option.bind_eq_some_iff.mp hd
    split at hd
    next =>
      cases hd
      exact h
    next =>
      obtain ⟨⟨q, t⟩, hr, hd⟩ := Option.map_eq_some_iff.mp hd
      cases hd
      have hkeeps := KVSequence.Keeps.releaseAll hr
      refine ⟨hkeeps.fits h.fits, fun u hu => ?_⟩
      rcases List.mem_or_eq_of_mem_set hu with hin | heq
      · rcases List.mem_or_eq_of_mem_set hin with hin | heq
        · exact h.bound u hin
        · rw [heq]
          exact h.bound o (List.mem_of_getElem? ho)
      · rw [heq]
        exact hkeeps.stays (h.bound s (List.mem_of_getElem? hs))
  | destroy i =>
    obtain ⟨s, hs, hd⟩ := Option.bind_eq_some_iff.mp hd
    obtain ⟨⟨q, t⟩, hr, hd⟩ := Option.map_eq_some_iff.mp hd
    cases hd
    exact ⟨(KVSequence.Keeps.releaseAll hr).fits h.fits, fun u hu =>
      h.bound u (List.mem_of_mem_eraseIdx hu)⟩

/-- In every state of a storage its tables are in order and its blocks within the budget. -/
theorem storage_ok (h : Runs.Reach (storageMachine b) c) : c.Ok ∧ c.Budget b := by
  have hsteps : ∀ {c d : KVCache} {call : KVCall}, (storageMachine b).step c call = some d →
      bindsAt b call = true ∧ c.step call = some d := by
    intro c d call hstep
    have hstep : (if bindsAt b call then c.step call else none) = some d := hstep
    split at hstep
    next hb => exact ⟨hb, hstep⟩
    next => cases hstep
  have hreach : Runs.Reach machine c := by
    induction h with
    | start hs => exact .start hs
    | next _ he ih => exact .next ih (hsteps he).2
  refine ⟨ok_of_reach hreach, h.invariant (Budget b) ?_ ?_⟩
  · intro s hs
    obtain rfl : s = ⟨⟨0, 0, [], []⟩, []⟩ := hs
    exact ⟨⟨Nat.le_refl _, fun r hr => by cases hr⟩, fun t ht => by cases ht⟩
  · intro s call t hs hstep
    obtain ⟨hb, hstep⟩ := hsteps hstep
    exact hs.step hb hstep

end KVCache

end Llmx
