import Llmx.ReuseQuestion
import Llmx.Runs

namespace Llmx

open Contest

theorem compareRuns_le {a b : List UInt32} {n : Nat} (ha : n ≤ a.length) (hb : n ≤ b.length)
    (fuel : Nat) {k : Nat} (hk : k ≤ min n (agree a b)) :
    compareRuns a b n fuel k ≤ min n (agree a b) := by
  induction fuel generalizing k with
  | zero => exact hk
  | succ fuel ih =>
    rw [compareRuns]
    split
    next hrun =>
      apply ih
      have htake : a.take k = b.take k := (le_agree_iff (by omega) (by omega)).mp (by omega)
      have hmore : k + 64 ≤ agree a b := by
        rw [le_agree_iff (by omega) (by omega), List.take_add, List.take_add, htake, hrun.2]
      omega
    · exact hk

theorem compareEach_eq {a b : List UInt32} {n : Nat} (ha : n ≤ a.length) (hb : n ≤ b.length)
    {fuel k : Nat} (hk : k ≤ min n (agree a b)) (hfuel : n ≤ k + fuel) :
    compareEach a b n fuel k = min n (agree a b) := by
  induction fuel generalizing k with
  | zero =>
    rw [compareEach]
    omega
  | succ fuel ih =>
    have htake : a.take k = b.take k := (le_agree_iff (by omega) (by omega)).mp (by omega)
    rw [compareEach]
    split
    next heq =>
      apply ih _ (by omega)
      have hmore : k + 1 ≤ agree a b := by
        rw [le_agree_iff (by omega) (by omega), List.take_add_one, List.take_add_one, htake, heq.2]
      omega
    next hne =>
      by_contra hlt
      have hkn : k < n := by omega
      have hmore := (le_agree_iff (show k + 1 ≤ a.length by omega)
        (show k + 1 ≤ b.length by omega)).mp (by omega)
      have hat : (a.take (k + 1))[k]? = (b.take (k + 1))[k]? := by rw [hmore]
      rw [List.getElem?_take_of_lt (by omega), List.getElem?_take_of_lt (by omega)] at hat
      exact hne ⟨hkn, hat⟩

/-- Comparing runs of 64 and then token by token finds how far the tokens agree. -/
theorem commonPrefix_eq {a b : List UInt32} {n : Nat} (ha : n ≤ a.length) (hb : n ≤ b.length) :
    commonPrefix a b n = min n (agree a b) :=
  compareEach_eq ha hb (compareRuns_le ha hb n (Nat.zero_le _)) (by omega)

section Classes

variable {κ : Type} [DecidableEq κ] (rowClass : Nat → κ)

/-- The stretches are ordered and none of them ends before `done`. -/
def OrderedFrom (done : Nat) (as : List RowStretch) : Prop :=
  (as.Pairwise fun a b => a.stop ≤ b.stop) ∧ ∀ a ∈ as, done ≤ a.stop

theorem OrderedFrom.leftAt {done stop : Nat} {a : RowStretch} {as : List RowStretch}
    (h : OrderedFrom done (a :: as)) (hstop : stop ≤ a.stop) : OrderedFrom stop (leftAt stop a as) := by
  obtain ⟨hpair, -⟩ := h
  obtain ⟨hhead, htail⟩ := List.pairwise_cons.mp hpair
  unfold Llmx.leftAt
  split
  · refine ⟨htail, fun b hb => ?_⟩
    have := hhead b hb
    omega
  · refine ⟨hpair, fun b hb => ?_⟩
    rcases List.mem_cons.mp hb with rfl | hb
    · exact hstop
    · exact hstop.trans (hhead b hb)

theorem le_alikeFrom {n : Nat} {as bs : List RowStretch} {done : Nat} (ha : OrderedFrom done as)
    (hb : OrderedFrom done bs) : min done n ≤ alikeFrom rowClass n as bs done := by
  fun_induction alikeFrom rowClass n as bs done with
  | case1 => exact le_rfl
  | case2 a as b bs done hlt hlike ih =>
    have h₁ := ha.2 a (by simp)
    have h₂ := hb.2 b (by simp)
    have := ih (ha.leftAt (by omega)) (hb.leftAt (by omega))
    omega
  | case3 => exact le_rfl
  | case4 => exact le_rfl
  | case5 => exact le_rfl

theorem alikeFrom_le {n : Nat} {as bs : List RowStretch} {done : Nat} :
    alikeFrom rowClass n as bs done ≤ n := by
  fun_induction alikeFrom rowClass n as bs done with
  | case2 _ _ _ _ _ _ _ ih => exact ih
  | _ => exact Nat.min_le_right _ _

theorem alikeFrom_done {n : Nat} {as bs : List RowStretch} {done : Nat} (h : n ≤ done) :
    alikeFrom rowClass n as bs done = n := by
  unfold alikeFrom
  split
  · rw [if_neg (by omega)]
    omega
  · omega
  · omega

/-- Fewer positions are alike as far as more of them are, up to the fewer. -/
theorem alikeFrom_min {n less : Nat} (hless : less ≤ n) {as bs : List RowStretch} {done : Nat}
    (ha : OrderedFrom done as) (hb : OrderedFrom done bs) :
    alikeFrom rowClass less as bs done = min less (alikeFrom rowClass n as bs done) := by
  by_cases hdone : less ≤ done
  · have hle := le_alikeFrom rowClass (n := n) ha hb
    rw [alikeFrom_done rowClass hdone]
    omega
  · fun_induction alikeFrom rowClass n as bs done with
    | case1 a as b bs done hlt hun =>
      rw [alikeFrom, if_pos (by omega), if_pos hun]
      omega
    | case2 a as b bs done hlt hun ih =>
      have h₁ := ha.2 a (by simp)
      have h₂ := hb.2 b (by simp)
      have hla := ha.leftAt (show min (min a.stop b.stop) n ≤ a.stop by omega)
      have hlb := hb.leftAt (show min (min a.stop b.stop) n ≤ b.stop by omega)
      rw [alikeFrom, if_pos (by omega), if_neg hun]
      by_cases hcut : less ≤ min (min a.stop b.stop) n
      · have hle := le_alikeFrom rowClass (n := n) hla hlb
        rw [alikeFrom_done rowClass (by omega)]
        omega
      · rw [show min (min a.stop b.stop) less = min (min a.stop b.stop) n by omega]
        exact ih hla hlb hcut
    | case3 a as b bs done hge =>
      omega
    | case4 bs done =>
      rw [alikeFrom]
      omega
    | case5 a as done =>
      rw [alikeFrom]
      omega

theorem RowRecord.orderedFrom (r : RowRecord) : OrderedFrom 0 r.stretches :=
  ⟨r.ordered, fun _ _ => Nat.zero_le _⟩

theorem alike_min {n less : Nat} (hless : less ≤ n) (a b : RowRecord) :
    alike rowClass a b less = min less (alike rowClass a b n) :=
  alikeFrom_min rowClass hless a.orderedFrom b.orderedFrom

theorem alike_le (a b : RowRecord) (n : Nat) : alike rowClass a b n ≤ n := alikeFrom_le rowClass

theorem div_min (bt m n : Nat) : min m n / bt = min (m / bt) (n / bt) := by
  rcases Nat.le_total m n with h | h
  · rw [Nat.min_eq_left h, Nat.min_eq_left (Nat.div_le_div_right h)]
  · rw [Nat.min_eq_right h, Nat.min_eq_right (Nat.div_le_div_right h)]

/-- More tokens that agree give no less. -/
theorem reuseShare_mono {q : ReuseAsked} {bt n m : Nat} {h : ReuseHolder} (hle : n ≤ m) :
    reuseShare rowClass q bt n h ≤ reuseShare rowClass q bt m h := by
  have halike : alike rowClass q.classes h.classes n / bt * bt ≤
      alike rowClass q.classes h.classes m / bt * bt := by
    apply Nat.mul_le_mul_right
    apply Nat.div_le_div_right
    rw [alike_min rowClass hle]
    omega
  unfold reuseShare
  dsimp only
  split
  · split
    · split
      · split
        · exact le_rfl
        · omega
      · exact Nat.zero_le _
    · exact le_rfl
  · exact halike

/-- Only the whole blocks that agree count. -/
theorem reuseShare_floor {q : ReuseAsked} {bt n : Nat} {h : ReuseHolder} :
    reuseShare rowClass q bt (n / bt * bt) h = reuseShare rowClass q bt n h := by
  have hwhole : alike rowClass q.classes h.classes (n / bt * bt) / bt =
      alike rowClass q.classes h.classes n / bt := by
    have hle := alike_le rowClass q.classes h.classes n
    rw [alike_min rowClass (Nat.div_mul_le_self n bt), div_min]
    have hdiv : n / bt * bt / bt = n / bt := by
      rcases Nat.eq_zero_or_pos bt with rfl | hpos
      · simp
      · rw [Nat.mul_div_cancel _ hpos]
    have := Nat.div_le_div_right (c := bt) hle
    omega
  unfold reuseShare
  rw [hwhole]

end Classes

/-- A search over entries that are equal below `k` finds at least `k`. -/
theorem le_searchBlocks {mine theirs : List UInt64} {lo hi k : Nat} (hk : k ≤ hi)
    (heq : ∀ i < k, mine[i]? = theirs[i]?) : k ≤ searchBlocks mine theirs lo hi := by
  fun_induction searchBlocks mine theirs lo hi with
  | case1 lo hi hlt mid hsame ih => exact ih hk
  | case2 lo hi hlt mid hdiff ih =>
    apply ih
    by_contra hgt
    exact hdiff (heq (mid - 1) (by omega))
  | case3 lo hi hge => omega

open Contest

variable (hash : BlockHash)

/-- A holder's tokens are those of its generation, and its hashes are its blocks'. -/
structure HeldTokens.Ok (content : Nat → List UInt32) (last : Nat) (t : HeldTokens) : Prop where
  gen_le : t.gen ≤ last
  tokens_eq : t.tokens = content t.gen
  hashes_eq : t.hashes = hash.entries t.bt t.tokens

theorem HeldTokens.Ok.blocks {hash : BlockHash} {content : Nat → List UInt32} {last : Nat}
    {t : HeldTokens} (h : t.Ok hash content last) (bt : Nat) :
    (t.blocks hash bt).1 = hash.entries bt t.tokens ∧ (t.blocks hash bt).2.Ok hash content last := by
  unfold HeldTokens.blocks
  split
  · exact ⟨rfl, h.gen_le, h.tokens_eq, rfl⟩
  next hbt =>
    have hbt : t.bt = bt := by omega
    exact ⟨hbt ▸ h.hashes_eq, h⟩

/-- What is remembered of a pair of generations is what their tokens share. -/
def PairMemo.Ok (content : Nat → List UInt32) (last : Nat) (m : PairMemo) : Prop :=
  ∀ p ∈ m.pairs, p.1.1 ≤ last ∧ p.1.2 ≤ last ∧ p.2 = agree (content p.1.1) (content p.1.2)

theorem mem_of_lookup {α β : Type} [BEq α] [LawfulBEq α] {xs : List (α × β)} {a : α} {b : β}
    (h : xs.lookup a = some b) : (a, b) ∈ xs := by
  induction xs with
  | nil => cases h
  | cons x xs ih =>
    rw [List.lookup_cons] at h
    split at h
    next hk =>
      have hk : a = x.1 := eq_of_beq hk
      obtain rfl := Option.some.inj h
      rw [hk]
      exact List.mem_cons_self
    · exact List.mem_cons_of_mem _ (ih h)

theorem agree_min_max {content : Nat → List UInt32} (m n : Nat) :
    agree (content (min m n)) (content (max m n)) = agree (content m) (content n) := by
  rcases Nat.le_total m n with h | h
  · rw [Nat.min_eq_left h, Nat.max_eq_right h]
  · rw [Nat.min_eq_right h, Nat.max_eq_left h, agree_comm]

/-- The memo answers what two holders share, and stays right. -/
theorem PairMemo.Ok.common {hash : BlockHash} {content : Nat → List UInt32} {last : Nat}
    {m : PairMemo} (hm : m.Ok content last) {a b : HeldTokens} (ha : a.Ok hash content last)
    (hb : b.Ok hash content last) (live : List Nat) :
    (m.common live a b).1 = agree a.tokens b.tokens ∧ (m.common live a b).2.Ok content last := by
  have hleft := agree_le_left a.tokens b.tokens
  have hright := agree_le_right a.tokens b.tokens
  unfold PairMemo.common
  dsimp only
  split
  next hzero =>
    refine ⟨?_, hm⟩
    simp only [HeldTokens.size] at hzero
    omega
  next hsize =>
    split
    next hgen =>
      have hsame : a.tokens = b.tokens := by rw [ha.tokens_eq, hb.tokens_eq, hgen]
      refine ⟨?_, hm⟩
      rw [hsame, agree_self]
      simp only [HeldTokens.size, hsame, Nat.min_self]
    next hgen =>
      have hpair : agree (content (min a.gen b.gen)) (content (max a.gen b.gen)) =
          agree a.tokens b.tokens := by rw [agree_min_max, ha.tokens_eq, hb.tokens_eq]
      split
      next share hfind =>
        obtain ⟨-, -, hright⟩ := hm _ (mem_of_lookup hfind)
        exact ⟨hright.trans hpair, hm⟩
      next hfind =>
        have hshare : commonPrefix a.tokens b.tokens (min a.size b.size) =
            agree a.tokens b.tokens := by
          rw [commonPrefix_eq (by simp [HeldTokens.size]) (by simp [HeldTokens.size])]
          simp only [HeldTokens.size]
          omega
        refine ⟨hshare, ?_⟩
        have hkept : ∀ p ∈ (if m.cap ≤ m.pairs.length then m.evict live else m).pairs,
            p ∈ m.pairs := by
          intro p hp
          split at hp
          · exact List.mem_of_mem_filter hp
          · exact hp
        intro p hp
        rcases List.mem_cons.mp hp with rfl | hp
        · have h₁ := ha.gen_le
          have h₂ := hb.gen_le
          exact ⟨by dsimp only; omega, by dsimp only; omega, hshare.trans hpair.symm⟩
        · exact hm p (hkept p hp)

/-- The holders' tokens by their names, the last generation given and the pairs remembered. -/
structure CacheWorld where
  objects : Nat → HeldTokens
  last : Nat
  memo : PairMemo

def CacheWorld.set (s : CacheWorld) (i : Nat) (t : HeldTokens) : CacheWorld :=
  { s with objects := fun j => if j = i then t else s.objects j }

/-- Tokens a holder is given under the next generation. -/
def CacheWorld.renew (s : CacheWorld) (i : Nat) (ts : List UInt32) : CacheWorld :=
  { s.set i ⟨ts, s.last + 1, 0, []⟩ with last := s.last + 1 }

/-- A question about the first `size` tokens of holder `held` where given, of holders by name. -/
structure WorldQuestion where
  asked : ReuseAsked
  held : Option Nat
  holders : List (Nat × ReuseHolder)
  bt : Nat

def WorldQuestion.askedIn (w : WorldQuestion) (s : CacheWorld) : ReuseAsked :=
  { w.asked with held := w.held.map s.objects }

def WorldQuestion.holdersIn (w : WorldQuestion) (s : CacheWorld) : List ReuseHolder :=
  w.holders.map fun h => { h.2 with tokens := s.objects h.1 }

inductive CacheEvent where
  | assign (i : Nat) (ts : List UInt32)
  | resize (i n : Nat)
  | copy (i j : Nat)
  | move (i j : Nat)
  | blocks (i bt : Nat)
  | common (i j : Nat) (live : List Nat)
  | ask (q : WorldQuestion) (rows : Nat → Bool) (live : List Nat)

section Steps

variable {κ : Type} [DecidableEq κ] (rowClass : Nat → κ)

/-- Holders change their tokens, are copied and moved, hash their blocks and are compared. -/
def cacheStep (s : CacheWorld) : CacheEvent → CacheWorld
  | .assign i ts => s.renew i ts
  | .resize i n => s.renew i ((s.objects i).tokens.take n ++
      List.replicate (n - (s.objects i).tokens.length) 0)
  | .copy i j => s.set j (s.objects i)
  | .move i j => if i = j then s else (s.set j (s.objects i)).set i .empty
  | .blocks i bt => s.set i ((s.objects i).blocks hash bt).2
  | .common i j live => { s with memo := (s.memo.common live (s.objects i) (s.objects j)).2 }
  | .ask q rows live =>
    { s with memo := (reuseAnswer rowClass hash rows live (q.askedIn s) (q.holdersIn s) q.bt false
        s.memo).2 }

def cacheStart : CacheWorld := ⟨fun _ => .empty, 0, .start⟩

def cacheMachine : Runs.Machine CacheWorld CacheEvent where
  start s := s = cacheStart
  step s e := some (cacheStep hash rowClass s e)

/-- Every holder's tokens and every remembered pair are right for some tokens of each generation. -/
def CacheWorld.Ok (s : CacheWorld) : Prop :=
  ∃ content : Nat → List UInt32, content 0 = [] ∧ s.memo.Ok content s.last ∧
    ∀ i, (s.objects i).Ok hash content s.last

end Steps

theorem BlockHash.entries_zero (hash : BlockHash) (ts : List UInt32) : hash.entries 0 ts = [] := by
  apply List.eq_nil_of_length_eq_zero
  rw [hash.length_eq, Nat.div_zero]

theorem HeldTokens.empty_ok {content : Nat → List UInt32} (h : content 0 = []) (last : Nat) :
    HeldTokens.empty.Ok hash content last := by
  refine ⟨Nat.zero_le _, h.symm, ?_⟩
  exact (hash.entries_zero []).symm

theorem CacheWorld.Ok.renew {hash : BlockHash} {s : CacheWorld} (h : s.Ok hash) (i : Nat)
    (ts : List UInt32) : (s.renew i ts).Ok hash := by
  obtain ⟨content, hzero, hmemo, hobj⟩ := h
  have hold : ∀ g, g ≤ s.last → (if g = s.last + 1 then ts else content g) = content g := by
    intro g hg
    exact if_neg (by omega)
  refine ⟨fun g => if g = s.last + 1 then ts else content g, ?_, ?_, ?_⟩
  · dsimp only
    rw [if_neg (by omega), hzero]
  · intro p hp
    obtain ⟨h₁, h₂, h₃⟩ := hmemo p hp
    refine ⟨Nat.le_succ_of_le h₁, Nat.le_succ_of_le h₂, ?_⟩
    dsimp only
    rw [hold _ h₁, hold _ h₂, h₃]
  · intro j
    unfold CacheWorld.renew CacheWorld.set
    dsimp only
    split
    · exact ⟨le_rfl, (if_pos rfl).symm, (hash.entries_zero ts).symm⟩
    · obtain ⟨h₁, h₂, h₃⟩ := hobj j
      exact ⟨Nat.le_succ_of_le h₁, by rw [hold _ h₁, h₂], h₃⟩

theorem CacheWorld.Ok.set {hash : BlockHash} {s : CacheWorld} {content : Nat → List UInt32}
    (hzero : content 0 = []) (hmemo : s.memo.Ok content s.last)
    (hobj : ∀ i, (s.objects i).Ok hash content s.last) (i : Nat) {t : HeldTokens}
    (ht : t.Ok hash content s.last) : (s.set i t).Ok hash := by
  refine ⟨content, hzero, hmemo, fun j => ?_⟩
  unfold CacheWorld.set
  dsimp only
  split
  · exact ht
  · exact hobj j

end Llmx
