import Llmx.ReuseWorld

namespace Llmx

open Contest

section Answers

variable {κ : Type} [DecidableEq κ] (rowClass : Nat → κ) (hash : BlockHash) (rows : Nat → Bool)
  (live : List Nat)

/-- What a scan's winner is served as. -/
def servedOf (value : ReuseHolder → Nat) : Option ReuseHolder → Served
  | none => .nothing
  | some w => ⟨w.kind, w.index, value w⟩

theorem servedOf_tokens (value : ReuseHolder → Nat) (best : Option ReuseHolder) :
    (servedOf value best).tokens = (best.map value).getD 0 := by
  cases best <;> rfl

/-- Whether a holder may answer. -/
def ReuseHolder.may (h : ReuseHolder) : Bool :=
  !h.passed && (decide (h.kind ≠ .bound) || rows h.index)

def ReuseHolder.isDonor (h : ReuseHolder) : Bool := decide (h.kind = .donor)

theorem servedOf_after (value : ReuseHolder → Nat) (best : Option ReuseHolder) {h : ReuseHolder}
    (hmay : h.may rows = true) :
    (servedOf value best).after rows h (value h) =
      servedOf value (keep ReuseHolder.isDonor value best h) := by
  unfold Served.after keep ReuseHolder.isDonor
  rw [servedOf_tokens]
  dsimp only
  by_cases hd : h.kind = .donor
  · have htie : decide (h.kind = .donor) = true := decide_eq_true hd
    rw [if_pos hd, htie, if_pos rfl]
    split <;> rfl
  · have htie : decide (h.kind = .donor) = false := decide_eq_false hd
    have hrows : h.kind ≠ .bound ∨ rows h.index = true := by
      unfold ReuseHolder.may at hmay
      simp only [Bool.and_eq_true, Bool.or_eq_true, decide_eq_true_eq] at hmay
      exact hmay.2
    rw [if_neg hd, htie, if_neg Bool.false_ne_true]
    by_cases hlt : (best.map value).getD 0 < value h
    · rw [if_pos ⟨hlt, hrows⟩, if_pos hlt]
      rfl
    · rw [if_neg fun hand => hlt hand.1, if_neg hlt]

theorem after_of_not_may {best : Served} {h : ReuseHolder} {n : Nat} (hpassed : h.passed = false)
    (hmay : h.may rows = false) : best.after rows h n = best := by
  unfold ReuseHolder.may at hmay
  simp only [hpassed, Bool.not_false, Bool.true_and, Bool.or_eq_false_iff,
    decide_eq_false_iff_not, not_not] at hmay
  unfold Served.after
  rw [hmay.1, if_neg (by decide), if_neg (by simp [hmay.2])]

/-- Where each holder's agreement is known whatever is remembered, the answer is the best by it. -/
theorem reuseBest_eq {q : ReuseAsked} {bt : Nat} {mine : Option (List UInt64)}
    (ok : PairMemo → Prop) (agreed : ReuseHolder → Nat) {holders : List ReuseHolder}
    (hagree : ∀ h ∈ holders, ∀ m, ok m → (reuseAgree hash live q bt mine h m).1 = agreed h ∧
      ok (reuseAgree hash live q bt mine h m).2) (best : Option ReuseHolder) {m : PairMemo}
    (hm : ok m) :
    (reuseBest rowClass hash rows live q bt mine holders
        (servedOf (fun h => reuseShare rowClass q bt (agreed h) h) best) m).1 =
      servedOf (fun h => reuseShare rowClass q bt (agreed h) h)
        ((holders.filter (ReuseHolder.may rows)).foldl
          (keep ReuseHolder.isDonor fun h => reuseShare rowClass q bt (agreed h) h) best) ∧
    ok (reuseBest rowClass hash rows live q bt mine holders
      (servedOf (fun h => reuseShare rowClass q bt (agreed h) h) best) m).2 := by
  induction holders generalizing best m with
  | nil => exact ⟨rfl, hm⟩
  | cons h hs ih =>
    have hrest := fun g hg => hagree g (List.mem_cons_of_mem _ hg)
    rw [reuseBest]
    split
    next hpassed =>
      have hmay : ReuseHolder.may rows h = false := by simp [ReuseHolder.may, hpassed]
      rw [List.filter_cons_of_neg (by simp [hmay])]
      exact ih hrest best hm
    next hpassed =>
      obtain ⟨hshare, hok⟩ := hagree h (by simp) m hm
      dsimp only
      rw [hshare]
      cases hmay : ReuseHolder.may rows h with
      | true =>
        rw [servedOf_after rows _ best hmay, List.filter_cons_of_pos hmay, List.foldl_cons]
        exact ih hrest _ hok
      | false =>
        rw [after_of_not_may rows (by simpa using hpassed) hmay,
          List.filter_cons_of_neg (by simp [hmay])]
        exact ih hrest best hok

/-- How far a holder agrees, token by token. -/
def agreedTokens (q : ReuseAsked) (h : ReuseHolder) : Nat :=
  min (q.limit h) (agree q.tokens h.tokens.tokens)

theorem commonPrefix_limit (q : ReuseAsked) (h : ReuseHolder) :
    commonPrefix q.tokens h.tokens.tokens (q.limit h) = agreedTokens q h := by
  apply commonPrefix_eq
  · simp only [ReuseAsked.limit]
    omega
  · simp only [ReuseAsked.limit, HeldTokens.size]
    omega

/-- What a holder gives by its tokens. -/
def exactValue (q : ReuseAsked) (bt : Nat) (h : ReuseHolder) : Nat :=
  reuseShare rowClass q bt (agreedTokens q h) h

/-- The holder of the best value by tokens, what it gives beside it. -/
def exactServed (q : ReuseAsked) (bt : Nat) (holders : List ReuseHolder) : Served :=
  servedOf (exactValue rowClass q bt)
    (scan ReuseHolder.isDonor (exactValue rowClass q bt) (holders.filter (ReuseHolder.may rows)))

/-- Comparing every holder token by token gives the best by tokens. -/
theorem reuseBest_exact {q : ReuseAsked} (hq : q.held = none) (bt : Nat)
    (holders : List ReuseHolder) (m : PairMemo) :
    (reuseBest rowClass hash rows live q bt none holders .nothing m).1 =
      exactServed rowClass rows q bt holders :=
  (reuseBest_eq rowClass hash rows live (fun _ => True) (agreedTokens q)
    (fun h _ m _ => ⟨by rw [reuseAgree, hq]; exact commonPrefix_limit q h, trivial⟩)
    none trivial).1

/-- The question's tokens are the first of its holder's, and the hashes given are theirs. -/
structure ReuseAsked.Right (q : ReuseAsked) (bt : Nat) : Prop where
  of_held : ∀ t, q.held = some t → q.tokens <+: t.tokens
  of_hashes : ∀ hs, q.hashes = some hs → ∀ k < q.tokens.length / bt,
    hs[k]? = (hash.entries bt q.tokens)[k]?

variable {hash}

/-- Asked for a held history, every holder is compared with it through the memo. -/
theorem reuseBest_remembered {q : ReuseAsked} {content : Nat → List UInt32} {last : Nat}
    {t : HeldTokens} (hq : q.held = some t) (ht : t.Ok hash content last) (bt : Nat)
    {holders : List ReuseHolder} (hholders : ∀ h ∈ holders, h.tokens.Ok hash content last)
    (mine : Option (List UInt64)) {m : PairMemo} (hm : m.Ok content last) :
    (reuseBest rowClass hash rows live q bt mine holders .nothing m).1 =
        servedOf
          (fun h => reuseShare rowClass q bt (min (agree t.tokens h.tokens.tokens) (q.limit h)) h)
          (scan ReuseHolder.isDonor
            (fun h => reuseShare rowClass q bt (min (agree t.tokens h.tokens.tokens) (q.limit h)) h)
            (holders.filter (ReuseHolder.may rows))) ∧
      (reuseBest rowClass hash rows live q bt mine holders .nothing m).2.Ok content last := by
  apply reuseBest_eq rowClass hash rows live (PairMemo.Ok content last)
    (fun h => min (agree t.tokens h.tokens.tokens) (q.limit h)) ?_ none hm
  intro h hh m hm
  obtain ⟨hcommon, hok⟩ := hm.common ht (hholders h hh) live
  simp only [reuseAgree, hq]
  exact ⟨by rw [hcommon], hok⟩

/-- Asked for a held history, the answer is the best by tokens. -/
theorem reuseBest_held {q : ReuseAsked} {content : Nat → List UInt32} {last : Nat}
    {t : HeldTokens} (hq : q.held = some t) (hpre : q.tokens <+: t.tokens)
    (ht : t.Ok hash content last) (bt : Nat) {holders : List ReuseHolder}
    (hholders : ∀ h ∈ holders, h.tokens.Ok hash content last) (mine : Option (List UInt64))
    {m : PairMemo} (hm : m.Ok content last) :
    (reuseBest rowClass hash rows live q bt mine holders .nothing m).1 =
      exactServed rowClass rows q bt holders := by
  rw [(reuseBest_remembered rowClass rows live hq ht bt hholders mine hm).1]
  have hvalue : (fun h : ReuseHolder =>
      reuseShare rowClass q bt (min (agree t.tokens h.tokens.tokens) (q.limit h)) h) =
        exactValue rowClass q bt := by
    funext h
    rw [exactValue, agreedTokens, agree_of_prefix hpre]
    congr 1
    simp only [ReuseAsked.limit]
    omega
  rw [hvalue, exactServed]

/-- How far a holder agrees by its blocks' hashes. -/
def agreedBlocks (hash : BlockHash) (q : ReuseAsked) (bt : Nat) (mine : List UInt64)
    (h : ReuseHolder) : Nat :=
  searchBlocks mine (hash.entries bt h.tokens.tokens) 0 (min (min (q.tokens.length / bt)
    (hash.entries bt h.tokens.tokens).length) (q.limit h / bt)) * bt

/-- Hashes find at least the whole blocks that agree. -/
theorem agreedTokens_le_blocks {q : ReuseAsked} {bt : Nat} {mine : List UInt64}
    (hmine : ∀ k < q.tokens.length / bt, mine[k]? = (hash.entries bt q.tokens)[k]?)
    (h : ReuseHolder) : agreedTokens q h / bt * bt ≤ agreedBlocks hash q bt mine h := by
  have hlimit : agreedTokens q h ≤ q.limit h := Nat.min_le_left _ _
  have hagree : agreedTokens q h ≤ agree q.tokens h.tokens.tokens := Nat.min_le_right _ _
  have hsize : q.limit h ≤ q.tokens.length ∧ q.limit h ≤ h.tokens.tokens.length := by
    simp only [ReuseAsked.limit, HeldTokens.size]
    omega
  have h₁ := Nat.div_le_div_right (c := bt) hlimit
  have h₂ := Nat.div_le_div_right (c := bt) hsize.1
  have h₃ := Nat.div_le_div_right (c := bt) hsize.2
  apply Nat.mul_le_mul_right
  apply le_searchBlocks
  · rw [hash.length_eq]
    omega
  · intro i hi
    rw [hmine i (by omega)]
    apply hash.prefix_eq bt _ _ i (by omega) (by omega)
    have hblocks : (i + 1) * bt ≤ agreedTokens q h :=
      calc (i + 1) * bt ≤ agreedTokens q h / bt * bt := Nat.mul_le_mul_right _ (by omega)
        _ ≤ agreedTokens q h := Nat.div_mul_le_self _ _
    exact (le_agree_iff (by omega) (by omega)).mp (hblocks.trans hagree)

/-- What a holder gives by its blocks' hashes. -/
def hashedValue (hash : BlockHash) (q : ReuseAsked) (bt : Nat) (mine : List UInt64)
    (h : ReuseHolder) : Nat :=
  reuseShare rowClass q bt (agreedBlocks hash q bt mine h) h

/-- Asked by hashes, the answer is the best by the hashes. -/
theorem reuseBest_hashed {q : ReuseAsked} {content : Nat → List UInt32} {last : Nat}
    (hq : q.held = none) (bt : Nat) {holders : List ReuseHolder}
    (hholders : ∀ h ∈ holders, h.tokens.Ok hash content last) (mine : List UInt64) (m : PairMemo) :
    (reuseBest rowClass hash rows live q bt (some mine) holders .nothing m).1 =
      servedOf (hashedValue rowClass hash q bt mine) (scan ReuseHolder.isDonor
        (hashedValue rowClass hash q bt mine) (holders.filter (ReuseHolder.may rows))) := by
  refine (reuseBest_eq rowClass hash rows live (fun _ => True) (agreedBlocks hash q bt mine)
    (fun h hh m _ => ⟨?_, trivial⟩) none trivial).1
  simp only [reuseAgree, hq]
  rw [((hholders h hh).blocks bt).1]
  rfl

/-- Without a held history the memo is neither read nor changed. -/
theorem reuseBest_memo {q : ReuseAsked} (hq : q.held = none) (bt : Nat)
    (mine : Option (List UInt64)) (holders : List ReuseHolder) (best : Served) (m : PairMemo) :
    (reuseBest rowClass hash rows live q bt mine holders best m).2 = m := by
  induction holders generalizing best with
  | nil => rfl
  | cons h hs ih =>
    rw [reuseBest]
    split
    · exact ih best
    · have hsame : (reuseAgree hash live q bt mine h m).2 = m := by
        simp only [reuseAgree, hq]
        cases mine <;> rfl
      dsimp only
      rw [hsame]
      exact ih _

/-- Where the holder best by hashes gives as much by tokens, it is the best by tokens. -/
theorem verified_scan {q : ReuseAsked} {bt : Nat} {mine : List UInt64}
    (hmine : ∀ k < q.tokens.length / bt, mine[k]? = (hash.entries bt q.tokens)[k]?)
    (holders : List ReuseHolder)
    (hsame : ∀ w, scan ReuseHolder.isDonor (hashedValue rowClass hash q bt mine)
      (holders.filter (ReuseHolder.may rows)) = some w →
      exactValue rowClass q bt w = hashedValue rowClass hash q bt mine w) :
    scan ReuseHolder.isDonor (exactValue rowClass q bt) (holders.filter (ReuseHolder.may rows)) =
      scan ReuseHolder.isDonor (hashedValue rowClass hash q bt mine)
        (holders.filter (ReuseHolder.may rows)) := by
  refine scan_eq_of_le (fun h _ => ?_) hsame
  rw [exactValue, ← reuseShare_floor]
  exact reuseShare_mono rowClass (agreedTokens_le_blocks hmine h)

theorem find_of_nodup {holders : List ReuseHolder} {w : ReuseHolder}
    (hnodup : (holders.map fun h => (h.kind, h.index)).Nodup) (hw : w ∈ holders) :
    holders.find? (fun h => h.kind = w.kind ∧ h.index = w.index) = some w := by
  induction holders with
  | nil => cases hw
  | cons h hs ih =>
    rw [List.map_cons, List.nodup_cons] at hnodup
    rcases List.mem_cons.mp hw with rfl | hw
    · exact List.find?_cons_of_pos (by simp)
    · rw [List.find?_cons_of_neg]
      · exact ih hnodup.2 hw
      · intro hsame
        simp only [decide_eq_true_eq] at hsame
        apply hnodup.1
        rw [List.mem_map]
        exact ⟨w, hw, by rw [hsame.1, hsame.2]⟩

/-- An answer leaves what is remembered right. -/
theorem reuseAnswer_memo {q : ReuseAsked} {content : Nat → List UInt32} {last : Nat}
    (hheld : ∀ t, q.held = some t → t.Ok hash content last) {holders : List ReuseHolder}
    (hholders : ∀ h ∈ holders, h.tokens.Ok hash content last) (bt : Nat) (exact : Bool)
    {m : PairMemo} (hm : m.Ok content last) :
    (reuseAnswer rowClass hash rows live q holders bt exact m).2.Ok content last := by
  have hbest : ∀ mine, ∀ m : PairMemo, m.Ok content last →
      (reuseBest rowClass hash rows live q bt mine holders .nothing m).2.Ok content last := by
    intro mine m hm
    cases hq : q.held with
    | some t => exact (reuseBest_remembered rowClass rows live hq (hheld t hq) bt hholders mine hm).2
    | none =>
      rw [reuseBest_memo rowClass rows live hq]
      exact hm
  unfold reuseAnswer
  dsimp only
  generalize (if (q.held.isNone && !exact) = true then
    some (q.hashes.getD (hash.entries bt q.tokens)) else none) = mine
  split
  · split
    · exact hbest _ m hm
    · split
      · exact hbest _ _ (hbest _ m hm)
      · exact hbest _ m hm
  · exact hbest _ m hm

/-- The question's answer is the best holder by tokens, whatever the hashes. -/
theorem reuseAnswer_eq {q : ReuseAsked} {content : Nat → List UInt32} {last bt : Nat}
    (hright : q.Right hash bt) (hheld : ∀ t, q.held = some t → t.Ok hash content last)
    {holders : List ReuseHolder} (hholders : ∀ h ∈ holders, h.tokens.Ok hash content last)
    (hkinds : ∀ h ∈ holders, h.kind ≠ .none)
    (hnodup : (holders.map fun h => (h.kind, h.index)).Nodup) {m : PairMemo}
    (hm : m.Ok content last) :
    (reuseAnswer rowClass hash rows live q holders bt false m).1 =
      exactServed rowClass rows q bt holders := by
  unfold reuseAnswer
  dsimp only
  cases hq : q.held with
  | some t =>
    have hbest := reuseBest_held rowClass rows live hq (hright.of_held t hq) (hheld t hq) bt hholders
      none hm
    simpa using hbest
  | none =>
    have hmine : ∀ k < q.tokens.length / bt,
        (q.hashes.getD (hash.entries bt q.tokens))[k]? = (hash.entries bt q.tokens)[k]? := by
      intro k hk
      cases hhs : q.hashes with
      | none => rfl
      | some hs => exact hright.of_hashes hs hhs k hk
    have hexact := reuseBest_exact rowClass hash rows live hq bt holders m
    have hbest := reuseBest_hashed rowClass rows live hq bt hholders
      (q.hashes.getD (hash.entries bt q.tokens)) m
    have hmemo : ∀ mine,
        (reuseBest rowClass hash rows live q bt mine holders .nothing m).2 = m :=
      fun mine => reuseBest_memo rowClass rows live hq bt mine holders .nothing m
    have hscan := verified_scan rowClass rows hmine holders
    simp only [Option.isNone_none, Bool.not_false, Bool.and_self, if_true, true_and, hbest, hmemo]
    cases hw : scan ReuseHolder.isDonor
        (hashedValue rowClass hash q bt (q.hashes.getD (hash.entries bt q.tokens)))
        (holders.filter (ReuseHolder.may rows)) with
    | none =>
      have hnone := hscan fun w h => absurd (hw.symm.trans h) (by simp)
      rw [if_neg (by simp [servedOf, Served.nothing])]
      rw [hbest, exactServed, hnone, hw]
      rfl
    | some w =>
      have hmem : w ∈ holders := List.mem_of_mem_filter
        ((foldl_keep_mem hw).resolve_left (by simp))
      have hfind := find_of_nodup hnodup hmem
      have hserved : servedOf (hashedValue rowClass hash q bt
          (q.hashes.getD (hash.entries bt q.tokens))) (some w) =
            ⟨w.kind, w.index, hashedValue rowClass hash q bt
              (q.hashes.getD (hash.entries bt q.tokens)) w⟩ := rfl
      rw [hserved]
      dsimp only
      rw [if_pos (hkinds w hmem), hfind]
      dsimp only
      rw [commonPrefix_limit]
      split
      · exact hexact
      next hsame =>
        have hsame : exactValue rowClass q bt w =
            hashedValue rowClass hash q bt (q.hashes.getD (hash.entries bt q.tokens)) w := by
          by_contra hne
          exact hsame hne
        have hbest' := hscan fun w' h => by
          obtain rfl := Option.some.inj (hw.symm.trans h)
          exact hsame
        rw [hbest, exactServed, hbest', hw, servedOf, servedOf, hsame]

theorem WorldQuestion.holdersIn_ok {s : CacheWorld} {content : Nat → List UInt32}
    (hobj : ∀ i, (s.objects i).Ok hash content s.last) (w : WorldQuestion) :
    ∀ h ∈ w.holdersIn s, h.tokens.Ok hash content s.last := by
  intro h hh
  obtain ⟨p, -, rfl⟩ := List.mem_map.mp hh
  exact hobj p.1

theorem WorldQuestion.askedIn_ok {s : CacheWorld} {content : Nat → List UInt32}
    (hobj : ∀ i, (s.objects i).Ok hash content s.last) (w : WorldQuestion) :
    ∀ t, (w.askedIn s).held = some t → t.Ok hash content s.last := by
  intro t ht
  obtain ⟨i, -, rfl⟩ := Option.map_eq_some_iff.mp ht
  exact hobj i

/-- No change of a holder and no question spoils what is held or remembered. -/
theorem CacheWorld.Ok.step {s : CacheWorld} (h : s.Ok hash) (e : CacheEvent) :
    (cacheStep hash rowClass s e).Ok hash := by
  cases e with
  | assign i ts => exact h.renew i ts
  | resize i n => exact h.renew i _
  | copy i j =>
    obtain ⟨content, hzero, hmemo, hobj⟩ := h
    exact CacheWorld.Ok.set hzero hmemo hobj j (hobj i)
  | move i j =>
    show (if i = j then s else (s.set j (s.objects i)).set i .empty).Ok hash
    split
    · exact h
    · obtain ⟨content, hzero, hmemo, hobj⟩ := h
      have hempty := HeldTokens.empty_ok hash hzero s.last
      have hset : ∀ k, ((s.set j (s.objects i)).objects k).Ok hash content s.last := by
        intro k
        unfold CacheWorld.set
        dsimp only
        split
        · exact hobj i
        · exact hobj k
      exact CacheWorld.Ok.set (s := s.set j (s.objects i)) hzero hmemo hset i hempty
  | blocks i bt =>
    obtain ⟨content, hzero, hmemo, hobj⟩ := h
    exact CacheWorld.Ok.set hzero hmemo hobj i ((hobj i).blocks bt).2
  | common i j live =>
    obtain ⟨content, hzero, hmemo, hobj⟩ := h
    exact ⟨content, hzero, (hmemo.common (hobj i) (hobj j) live).2, hobj⟩
  | ask q rows live =>
    obtain ⟨content, hzero, hmemo, hobj⟩ := h
    exact ⟨content, hzero, reuseAnswer_memo rowClass rows live (q.askedIn_ok hobj)
      (q.holdersIn_ok hobj) q.bt false hmemo, hobj⟩

theorem CacheWorld.ok_of_reach {s : CacheWorld} (hs : Runs.Reach (cacheMachine hash rowClass) s) :
    s.Ok hash := by
  apply hs.invariant (CacheWorld.Ok hash)
  · rintro s rfl
    exact ⟨fun _ => [], rfl, fun p hp => absurd hp (by simp [cacheStart, PairMemo.start]),
      fun _ => HeldTokens.empty_ok hash rfl 0⟩
  · intro s e t hok he
    obtain rfl := Option.some.inj he
    exact hok.step rowClass e

/-- After any run of changes and questions, the reuse question by hashes, or of a held history
through the memo, is answered as by comparing every holder token by token. -/
theorem reuse_answer_exact {s : CacheWorld} (hs : Runs.Reach (cacheMachine hash rowClass) s)
    (w : WorldQuestion) (hright : (w.askedIn s).Right hash w.bt)
    (hkinds : ∀ h ∈ w.holders, h.2.kind = .donor ∨ h.2.kind = .host ∨ h.2.kind = .bound)
    (hnodup : (w.holders.map fun h => (h.2.kind, h.2.index)).Nodup) :
    (reuseAnswer rowClass hash rows live (w.askedIn s) (w.holdersIn s) w.bt false s.memo).1 =
      (reuseAnswer rowClass hash rows live { w.asked with held := none } (w.holdersIn s) w.bt true
        s.memo).1 := by
  obtain ⟨content, -, hmemo, hobj⟩ := CacheWorld.ok_of_reach rowClass hs
  have hkinds' : ∀ h ∈ w.holdersIn s, h.kind ≠ .none := by
    intro h hh
    obtain ⟨p, hp, rfl⟩ := List.mem_map.mp hh
    rcases hkinds p hp with hk | hk | hk <;> simp [hk]
  have hnodup' : ((w.holdersIn s).map fun h => (h.kind, h.index)).Nodup := by
    simpa [WorldQuestion.holdersIn, Function.comp_def] using hnodup
  rw [reuseAnswer_eq rowClass rows live hright (w.askedIn_ok hobj) (w.holdersIn_ok hobj) hkinds'
    hnodup' hmemo]
  unfold reuseAnswer
  simp only [Bool.not_true, Bool.and_false, Bool.false_eq_true, if_false, false_and]
  rw [reuseBest_exact rowClass hash rows live rfl]
  rfl

end Answers

def laneMul : UInt64 := 0x9E3779B97F4A7C15

/-- Four lanes over a block's tokens, the last few on the first lane. -/
def blockLanes : List UInt32 → UInt64 × UInt64 × UInt64 × UInt64 → UInt64 × UInt64 × UInt64 × UInt64
  | a :: b :: c :: d :: rest, l =>
    blockLanes rest ((l.1 ^^^ a.toUInt64) * laneMul, (l.2.1 ^^^ b.toUInt64) * laneMul,
      (l.2.2.1 ^^^ c.toUInt64) * laneMul, (l.2.2.2 ^^^ d.toUInt64) * laneMul)
  | rest, l => (rest.foldl (fun x t => (x ^^^ t.toUInt64) * laneMul) l.1, l.2)

/-- The hash of a block after the hash of the blocks before it. -/
def blockHash (chain : UInt64) (block : List UInt32) : UInt64 :=
  let l := blockLanes block (chain, chain ^^^ 1, chain ^^^ 2, chain ^^^ 3)
  let x := l.1 ^^^ (l.2.1 <<< 1 ||| l.2.1 >>> 63) ^^^ (l.2.2.1 <<< 2 ||| l.2.2.1 >>> 62) ^^^
    (l.2.2.2 <<< 3 ||| l.2.2.2 >>> 61)
  let y := (x ^^^ (x >>> 29)) * laneMul
  y ^^^ (y >>> 32)

/-- The chained hashes of the first `n` blocks of `t`. -/
def chainedHashes (bt : Nat) : Nat → UInt64 → List UInt32 → List UInt64
  | 0, _, _ => []
  | n + 1, chain, t =>
    blockHash chain (t.take bt) :: chainedHashes bt n (blockHash chain (t.take bt)) (t.drop bt)

def blockHashes (bt : Nat) (t : List UInt32) : List UInt64 := chainedHashes bt (t.length / bt) 0 t

theorem length_chainedHashes (bt n : Nat) (chain : UInt64) (t : List UInt32) :
    (chainedHashes bt n chain t).length = n := by
  induction n generalizing chain t with
  | zero => rfl
  | succ n ih => rw [chainedHashes, List.length_cons, ih]

/-- An entry stands for the tokens before the next block. -/
theorem chainedHashes_prefix {bt k n n' : Nat} {chain : UInt64} {t t' : List UInt32} (hk : k < n)
    (hk' : k < n') (h : t.take ((k + 1) * bt) = t'.take ((k + 1) * bt)) :
    (chainedHashes bt n chain t)[k]? = (chainedHashes bt n' chain t')[k]? := by
  induction k generalizing n n' chain t t' with
  | zero =>
    obtain ⟨n, rfl⟩ := Nat.exists_eq_add_one.mpr hk
    obtain ⟨n', rfl⟩ := Nat.exists_eq_add_one.mpr hk'
    rw [Nat.zero_add, Nat.one_mul] at h
    rw [chainedHashes, chainedHashes, List.getElem?_cons_zero, List.getElem?_cons_zero, h]
  | succ k ih =>
    obtain ⟨n, rfl⟩ := Nat.exists_eq_add_one.mpr (Nat.zero_lt_of_lt hk)
    obtain ⟨n', rfl⟩ := Nat.exists_eq_add_one.mpr (Nat.zero_lt_of_lt hk')
    have hsplit : (k + 1 + 1) * bt = bt + (k + 1) * bt := by rw [Nat.add_mul, Nat.one_mul, Nat.add_comm]
    have hfirst : t.take bt = t'.take bt := by
      have := congrArg (List.take bt) h
      rwa [List.take_take, List.take_take, hsplit, Nat.min_eq_left (Nat.le_add_right _ _)] at this
    have hrest : (t.drop bt).take ((k + 1) * bt) = (t'.drop bt).take ((k + 1) * bt) := by
      rw [List.take_drop, List.take_drop, ← hsplit, h]
    rw [chainedHashes, chainedHashes, List.getElem?_cons_succ, List.getElem?_cons_succ, hfirst]
    exact ih (by omega) (by omega) hrest

/-- The chained hashes give equal entries to equal tokens. -/
def chainedBlocks : BlockHash where
  entries := blockHashes
  length_eq _ _ := length_chainedHashes ..
  prefix_eq _ _ _ _ hk hk' h := chainedHashes_prefix hk hk' h

/-- A donor of two blocks and a host copy of one answer a question of two blocks. -/
theorem reuse_answer_two_blocks :
    let w : WorldQuestion := ⟨⟨[1, 2, 3, 4], none, ⟨[⟨4, 4, Vector.replicate 32 0⟩], by simp⟩,
      none, false⟩, some 2, [(0, ⟨.donor, 0, .empty, 4, ⟨[⟨4, 4, Vector.replicate 32 0⟩], by simp⟩,
        none, false⟩), (1, ⟨.host, 0, .empty, 4, ⟨[⟨4, 4, Vector.replicate 32 0⟩], by simp⟩, none,
        false⟩)], 2⟩
    let s := cacheStep chainedBlocks id (cacheStep chainedBlocks id (cacheStep chainedBlocks id
      cacheStart (.assign 0 [1, 2, 3, 4])) (.copy 0 2)) (.assign 1 [1, 2, 5, 6])
    (reuseAnswer id chainedBlocks (fun _ => true) [] (w.askedIn s) (w.holdersIn s) w.bt false
        s.memo).1 =
      (reuseAnswer id chainedBlocks (fun _ => true) [] { w.asked with held := none } (w.holdersIn s)
        w.bt true s.memo).1 := by
  intro w s
  have hs : Runs.Reach (cacheMachine chainedBlocks id) s :=
    .next (e := .assign 1 [1, 2, 5, 6]) (.next (e := .copy 0 2)
      (.next (e := .assign 0 [1, 2, 3, 4]) (.start rfl) rfl) rfl) rfl
  refine reuse_answer_exact id _ _ hs w ⟨?_, ?_⟩ (by simp [w]) (by simp [w])
  · intro t ht
    obtain rfl := Option.some.inj ht
    exact List.prefix_rfl
  · intro hs' hhs
    cases hhs

end Llmx
