import Llmx.LargestFirst
import Llmx.RowArgmax

namespace Llmx

namespace Sampler

/-- A number's bits turned so that their unsigned order is the numbers'. -/
def orderBits (x : Binary32) : BitVec 32 :=
  if x.bits.msb then ~~~x.bits else x.bits ||| 0x80000000#32

/-- A token's place in the ranking as the value of its 64 bits, larger for the better token. -/
def rankKey (score : Binary32) (id : Nat) : Nat :=
  (orderBits score.plusZero).toNat * 2 ^ 32 + (~~~BitVec.ofNat 32 id).toNat

def keyId (key : Nat) : Nat := (~~~BitVec.ofNat 32 key).toNat

def heapLimit : Nat := 4096
def nucleusHeap : Nat := 512
def firstRank : Nat := 64

/-- A row's scores, the id every path passes over (`n` or more for none) and the tokens kept. -/
structure Row where
  s : Nat → Binary32
  n : Nat
  skip : Nat
  kept : Nat

namespace Row

/-- The ids taking part: all but `skip`. -/
def m (r : Row) : Nat := if r.skip < r.n then r.n - 1 else r.n

def key (r : Row) (i : Nat) : Nat := rankKey (r.s i) i

end Row

/-- The best `ranked` keys in rank order, then when laid out the rest of the kept ones. -/
structure Ranking where
  keys : List Nat
  ranked : Nat
  laidOut : Bool
deriving DecidableEq, Repr

namespace Ranking

def start : Ranking := ⟨[], 0, false⟩

variable (std : LargestFirst Nat) (r : Row)

/-- The first `c` ids' keys on a heap whose front is the worst, and the id read next. -/
def fill (c i : Nat) (keys : List Nat) : Nat × List Nat :=
  if i < r.n ∧ keys.length < c then
    if i = r.skip then fill c (i + 1) keys
    else fill c (i + 1) (std.pushHeap (keys ++ [r.key i]))
  else (i, keys)
termination_by r.n - i

/-- A heap of the best keys so far and the score of the worst of them. -/
structure Held where
  keys : List Nat
  worst : Binary32

def Held.of (keys : List Nat) : Held := ⟨keys, r.s (keyId (keys.headD 0))⟩

/-- A score below the worst held one is passed over without a key. -/
def Held.consider (h : Held) (i : Nat) : Held :=
  if h.worst.larger (r.s i) ∨ i = r.skip then h
  else if h.keys.headD 0 < r.key i then
    Held.of r (std.pushHeap ((std.popHeap h.keys).dropLast ++ [r.key i]))
  else h

/-- Eight scores, tested at once against the worst score as it stood before them. -/
def Held.eight (h : Held) (i : Nat) : Held :=
  (List.range 8).foldl
    (fun h' l => if h.worst.larger (r.s (i + l)) then h' else h'.consider std r (i + l)) h

/-- Rounds of eight scores while the row has as many. -/
def eights (i : Nat) (h : Held) : Nat × Held :=
  if i + 8 ≤ r.n then eights (i + 8) (h.eight std r i) else (i, h)
termination_by r.n - i

/-- The best `c` keys in rank order. -/
def heapSelect (c : Nat) : List Nat :=
  let filled := fill std r c 0 []
  let rest := eights std r filled.1 (Held.of r filled.2)
  std.sortHeap ((List.range' rest.1 (r.n - rest.1)).foldl (Held.consider std r) rest.2).keys

/-- A key written at the next place where it is not ranked yet. -/
def place (unranked : Nat → Bool) (a : List Nat × Nat) (i : Nat) : List Nat × Nat :=
  if unranked (r.key i) then (a.1.set a.2 (r.key i), a.2 + 1) else a

/-- The ranked keys as they stand and the rest behind them. -/
def unrankedBehind (x : Ranking) : List Nat :=
  let last := x.keys.getD (x.ranked - 1) 0
  ((taking r.n r.skip).foldl (place r fun key => x.ranked = 0 || key < last)
    ((x.keys ++ List.replicate r.m 0).take r.m, x.ranked)).1

/-- Every kept key, those a selection puts past the kept count left out. -/
def layOut (x : Ranking) : Ranking :=
  if x.laidOut then x
  else
    { x with
      keys :=
        if r.kept < r.m then
          ((unrankedBehind r x).take x.ranked ++
            std.nthElement ((unrankedBehind r x).drop x.ranked) (r.kept - x.ranked)).take r.kept
        else unrankedBehind r x
      laidOut := true }

/-- How many are ranked once the best `c` are asked for. -/
def extent (x : Ranking) (c : Nat) : Nat :=
  if r.kept < r.m ∧ r.kept ≤ heapLimit then r.kept
  else
    min r.kept
      (max (max c ((if 8 * x.ranked ≤ nucleusHeap then 8 else 2) * x.ranked)) firstRank)

/-- The keys with the next ones up to `c` selected and sorted. -/
def select (x : Ranking) (c : Nat) : List Nat :=
  let behind :=
    if c = x.keys.length then x.keys.drop x.ranked
    else std.nthElement (x.keys.drop x.ranked) (c - x.ranked)
  x.keys.take x.ranked ++ std.sort (behind.take (c - x.ranked)) ++ behind.drop (c - x.ranked)

/-- Ranks at least the best `c`. -/
def rank (x : Ranking) (c : Nat) : Ranking :=
  let c := extent r x c
  if x.laidOut = false ∧ c ≤ (if r.kept < r.m then heapLimit else nucleusHeap) then
    { x with keys := heapSelect std r c, ranked := c }
  else
    let x := layOut std r x
    { x with keys := select std x c, ranked := c }

/-- The id of the `i`-th best token. -/
def id (x : Ranking) (i : Nat) : Ranking × Nat :=
  let x := if x.ranked ≤ i then rank std r x (i + 1) else x
  (x, keyId (x.keys.getD i 0))

/-- The kept tokens' ids, in no set order. -/
def keptIds (x : Ranking) : Ranking × List Nat :=
  let x :=
    if heapLimit < r.kept then layOut std r x
    else if x.ranked < r.kept then rank std r x r.kept else x
  (x, (List.range r.kept).map fun i => keyId (x.keys.getD i 0))

end Ranking

/-- What is asked of a ranking. -/
inductive RankAsk
  | id (i : Nat)
  | keptIds
deriving DecidableEq, Repr

inductive RankAnswer
  | id (id : Nat)
  | ids (ids : List Nat)
deriving DecidableEq, Repr

def Ranking.answer (std : LargestFirst Nat) (r : Row) (x : Ranking) : RankAsk → Ranking × RankAnswer
  | .id i => ((x.id std r i).1, .id (x.id std r i).2)
  | .keptIds => ((x.keptIds std r).1, .ids (x.keptIds std r).2)

/-- The answers to some asks, one after another. -/
def Ranking.answers (std : LargestFirst Nat) (r : Row) (x : Ranking) : List RankAsk → List RankAnswer
  | [] => []
  | ask :: asks => (x.answer std r ask).2 :: answers std r (x.answer std r ask).1 asks

end Sampler

end Llmx
