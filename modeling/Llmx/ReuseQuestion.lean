import Llmx.Contest

namespace Llmx

/-- A stretch of a history computed one way: the rows before `stop`, their extent and image. -/
structure RowStretch where
  stop : Nat
  extent : Nat
  image : Vector UInt8 32
deriving DecidableEq

/-- A history's stretches, each before the one after it. -/
structure RowRecord where
  stretches : List RowStretch
  ordered : stretches.Pairwise fun a b => a.stop ≤ b.stop

section Classes

variable {κ : Type} [DecidableEq κ] (rowClass : Nat → κ)

/-- Whether two stretches were computed in different ways. -/
def unlike (a b : RowStretch) : Prop :=
  a.image ≠ b.image ∨ a.extent ≠ b.extent ∧ rowClass a.extent ≠ rowClass b.extent

instance (a b : RowStretch) : Decidable (unlike rowClass a b) :=
  inferInstanceAs (Decidable (_ ∨ _))

/-- The stretches left at position `stop`, the first gone where it ends by then. -/
def leftAt (stop : Nat) (a : RowStretch) (as : List RowStretch) : List RowStretch :=
  if a.stop ≤ stop then as else a :: as

theorem length_leftAt_le (stop : Nat) (a : RowStretch) (as : List RowStretch) :
    (leftAt stop a as).length ≤ as.length + 1 := by
  unfold leftAt
  split <;> simp

theorem length_leftAt_lt {stop : Nat} {a : RowStretch} (as : List RowStretch) (h : a.stop ≤ stop) :
    (leftAt stop a as).length < as.length + 1 := by
  rw [leftAt, if_pos h]
  omega

theorem leftAt_of_lt {stop : Nat} {a : RowStretch} {as : List RowStretch} (h : ¬a.stop ≤ stop) :
    leftAt stop a as = a :: as := if_neg h

def alikeFrom (n : Nat) : List RowStretch → List RowStretch → Nat → Nat
  | a :: as, b :: bs, done =>
    if done < n then
      if unlike rowClass a b then min done n
      else
        alikeFrom n (leftAt (min (min a.stop b.stop) n) a as)
          (leftAt (min (min a.stop b.stop) n) b bs) (min (min a.stop b.stop) n)
    else min done n
  | [], _, done => min done n
  | _ :: _, [], done => min done n
termination_by as bs done => (as.length + bs.length, n - done)
decreasing_by
  have hla := length_leftAt_le (min (min a.stop b.stop) n) a as
  have hlb := length_leftAt_le (min (min a.stop b.stop) n) b bs
  by_cases ha : a.stop ≤ min (min a.stop b.stop) n
  · have := length_leftAt_lt as ha
    apply Prod.Lex.left
    simp only [List.length_cons]
    omega
  · by_cases hb : b.stop ≤ min (min a.stop b.stop) n
    · have := length_leftAt_lt bs hb
      apply Prod.Lex.left
      simp only [List.length_cons]
      omega
    · rw [leftAt_of_lt ha, leftAt_of_lt hb]
      apply Prod.Lex.right
      omega

/-- How many of the first `n` positions two records computed alike. -/
def alike (a b : RowRecord) (n : Nat) : Nat := alikeFrom rowClass n a.stretches b.stretches 0

end Classes

/-- The first of `k`, `k + 64` and so on that a run of 64 tokens does not agree from. -/
def compareRuns (a b : List UInt32) (n : Nat) : Nat → Nat → Nat
  | 0, k => k
  | fuel + 1, k =>
    if k + 64 ≤ n ∧ (a.drop k).take 64 = (b.drop k).take 64 then compareRuns a b n fuel (k + 64)
    else k

/-- The first of `k`, `k + 1` and so on up to `n` where the tokens differ. -/
def compareEach (a b : List UInt32) (n : Nat) : Nat → Nat → Nat
  | 0, k => k
  | fuel + 1, k => if k < n ∧ a[k]? = b[k]? then compareEach a b n fuel (k + 1) else k

/-- How many of the first `n` tokens agree from the start. -/
def commonPrefix (a b : List UInt32) (n : Nat) : Nat :=
  compareEach a b n n (compareRuns a b n n 0)

/-- A holder's tokens, their generation, 0 for none, and their whole blocks' hashes where made. -/
structure HeldTokens where
  tokens : List UInt32
  gen : Nat
  bt : Nat
  hashes : List UInt64
deriving DecidableEq

def HeldTokens.empty : HeldTokens := ⟨[], 0, 0, []⟩

def HeldTokens.size (t : HeldTokens) : Nat := t.tokens.length

/-- A hash of whole blocks, entry `k` of which stands for the tokens before block `k + 1`: equal
tokens give equal entries. -/
structure BlockHash where
  entries : Nat → List UInt32 → List UInt64
  length_eq : ∀ bt t, (entries bt t).length = t.length / bt
  prefix_eq : ∀ bt t t' k, k < t.length / bt → k < t'.length / bt →
    t.take ((k + 1) * bt) = t'.take ((k + 1) * bt) → (entries bt t)[k]? = (entries bt t')[k]?

/-- The whole blocks' hashes, made once a generation. -/
def HeldTokens.blocks (hash : BlockHash) (t : HeldTokens) (bt : Nat) : List UInt64 × HeldTokens :=
  if t.bt ≠ bt then
    (hash.entries bt t.tokens, { t with bt := bt, hashes := hash.entries bt t.tokens })
  else (t.hashes, t)

/-- What pairs of generations share, and how many pairs are kept before some are dropped. -/
structure PairMemo where
  pairs : List ((Nat × Nat) × Nat)
  cap : Nat
deriving DecidableEq

def pairsLeast : Nat := 4096

def PairMemo.start : PairMemo := ⟨[], pairsLeast⟩

/-- Drops the pairs of a generation no holder has any more. -/
def PairMemo.evict (live : List Nat) (m : PairMemo) : PairMemo :=
  let kept := m.pairs.filter fun p => p.1.1 ∈ live ∧ p.1.2 ∈ live
  ⟨kept, max pairsLeast (2 * kept.length)⟩

/-- How many tokens two holders share, remembered by their generations. -/
def PairMemo.common (live : List Nat) (m : PairMemo) (a b : HeldTokens) : Nat × PairMemo :=
  let n := min a.size b.size
  if n = 0 then (0, m)
  else if a.gen = b.gen then (n, m)
  else
    let key := (min a.gen b.gen, max a.gen b.gen)
    match m.pairs.lookup key with
    | some share => (share, m)
    | none =>
      let m' := if m.cap ≤ m.pairs.length then m.evict live else m
      let share := commonPrefix a.tokens b.tokens n
      (share, ⟨(key, share) :: m'.pairs, m'.cap⟩)

inductive ServedKind where
  | none
  | donor
  | host
  | bound
  | running
deriving DecidableEq, Repr

/-- What memory serves a history: the holder and the longest restore point it gives. -/
structure Served where
  kind : ServedKind
  index : Nat
  tokens : Nat
deriving DecidableEq, Repr

def Served.nothing : Served := ⟨.none, 0, 0⟩

/-- The tokens the reuse question is asked about, holder `held`'s where given. -/
structure ReuseAsked where
  tokens : List UInt32
  held : Option HeldTokens
  classes : RowRecord
  hashes : Option (List UInt64)
  state : Bool

/-- One holder the reuse question looks at. -/
structure ReuseHolder where
  kind : ServedKind
  index : Nat
  tokens : HeldTokens
  onHand : Nat
  classes : RowRecord
  kept : Option Nat
  passed : Bool

def ReuseAsked.limit (q : ReuseAsked) (h : ReuseHolder) : Nat :=
  min (min q.tokens.length h.tokens.size) h.onHand

/-- The last block count between `lo` and `hi` whose entries were found equal. -/
def searchBlocks (mine theirs : List UInt64) (lo hi : Nat) : Nat :=
  if lo < hi then
    let mid := (lo + hi + 1) / 2
    if mine[mid - 1]? = theirs[mid - 1]? then searchBlocks mine theirs mid hi
    else searchBlocks mine theirs lo (mid - 1)
  else lo
termination_by hi - lo

section Answer

variable {κ : Type} [DecidableEq κ] (rowClass : Nat → κ) (hash : BlockHash) (rows : Nat → Bool)
  (live : List Nat)

/-- How much of a holder agrees, by hashes where `mine` are given. -/
def reuseAgree (q : ReuseAsked) (bt : Nat) (mine : Option (List UInt64)) (h : ReuseHolder)
    (m : PairMemo) : Nat × PairMemo :=
  match q.held with
  | some held =>
    let c := m.common live held h.tokens
    (min c.1 (q.limit h), c.2)
  | none =>
    match mine with
    | none => (commonPrefix q.tokens h.tokens.tokens (q.limit h), m)
    | some mine =>
      let theirs := (h.tokens.blocks hash bt).1
      let most := min (min (q.tokens.length / bt) theirs.length) (q.limit h / bt)
      (searchBlocks mine theirs 0 most * bt, m)

/-- The restore point a holder that agrees for `n` tokens gives. -/
def reuseShare (q : ReuseAsked) (bt n : Nat) (h : ReuseHolder) : Nat :=
  let whole := alike rowClass q.classes h.classes n / bt * bt
  if q.state then
    match h.kept with
    | some kept => if kept ≤ whole ∧ kept % bt = 0 then kept else 0
    | none => 0
  else whole

/-- The answer so far after a holder that gives `n`. -/
def Served.after (best : Served) (h : ReuseHolder) (n : Nat) : Served :=
  if h.kind = .donor then
    if n ≠ 0 ∧ best.tokens ≤ n then ⟨h.kind, h.index, n⟩ else best
  else if best.tokens < n ∧ (h.kind ≠ .bound ∨ rows h.index = true) then ⟨h.kind, h.index, n⟩
  else best

def reuseBest (q : ReuseAsked) (bt : Nat) (mine : Option (List UInt64)) :
    List ReuseHolder → Served → PairMemo → Served × PairMemo
  | [], best, m => (best, m)
  | h :: hs, best, m =>
    if h.passed then reuseBest q bt mine hs best m
    else
      let a := reuseAgree hash live q bt mine h m
      reuseBest q bt mine hs (best.after rows h (reuseShare rowClass q bt a.1 h)) a.2

/-- The reuse question: by the blocks' hashes, the holder answering compared token by token, and
all of them so (`exact`) where it shares less. -/
def reuseAnswer (q : ReuseAsked) (holders : List ReuseHolder) (bt : Nat) (exact : Bool)
    (m : PairMemo) : Served × PairMemo :=
  let hashed := q.held.isNone && !exact
  let mine := if hashed then some (q.hashes.getD (hash.entries bt q.tokens)) else none
  let best := reuseBest rowClass hash rows live q bt mine holders .nothing m
  if hashed = true ∧ best.1.kind ≠ .none then
    match holders.find? fun h => h.kind = best.1.kind ∧ h.index = best.1.index with
    | none => best
    | some it =>
      if reuseShare rowClass q bt (commonPrefix q.tokens it.tokens.tokens (q.limit it)) it ≠
          best.1.tokens then
        reuseBest rowClass hash rows live q bt none holders .nothing best.2
      else best
  else best

end Answer

end Llmx
