import Llmx.Runs
import Llmx.RoomPlan
import Llmx.KVSequence
import Mathlib.Algebra.Order.BigOperators.Group.List
import Mathlib.Algebra.Order.Group.Nat
import Mathlib.Algebra.Order.Ring.Int

namespace Llmx

open Runs

/-- The cache pools as the ledger counts them: each pool's blocks and the tokens one of its blocks
holds. -/
structure Pools where
  blocks : List Nat
  blockTokens : List Nat
  same_length : blockTokens.length = blocks.length
  positive : ∀ n ∈ blockTokens, 0 < n

/-- What `tokens` positions take in each pool, never more than the pool holds. -/
def Pools.blocksFor (p : Pools) (tokens : Nat) : List Nat :=
  List.zipWith (fun bt n => min (Llmx.blocksFor tokens bt) n) p.blockTokens p.blocks

/-- Tokens every pool can hold. -/
def Pools.tokensTotal (p : Pools) : Nat :=
  (List.zipWith (· * ·) p.blocks p.blockTokens).min?.getD 0

def Pools.kvBlockTokens (p : Pools) : Nat := p.blockTokens.foldl max 1

/-- The ledger's sum of blocks per pool, the shorter of the two resized. -/
def addBlocks (a b : List Nat) : List Nat :=
  (List.range (max a.length b.length)).map fun s => a.getD s 0 + b.getD s 0

structure Growth where
  tokens : Nat := 256

/-- The tokens a request reserves as it is admitted, first or on resuming. -/
def Growth.entry (g : Growth) (history : Nat) (uncapped : Bool) (maxTokens generated : Nat) : Nat :=
  history + if uncapped then g.tokens else maxTokens - generated

/-- The blocks a growth step adds before a pass to the `need` reserved; empty when none falls
due. -/
def Growth.step (g : Growth) (pools : Pools) (uncapped decoding : Bool) (held : Nat)
    (need : List Nat) : List Nat :=
  if !uncapped || !decoding then []
  else
    let next := pools.blocksFor (held + 1)
    let upto := pools.blocksFor (held + 1 + g.tokens)
    let due := (List.range next.length).any fun s => need.getD s 0 < next.getD s 0
    if !due then [] else (List.range upto.length).map fun s => upto.getD s 0 - need.getD s 0

/-- A request: its first admission, which names it, its prompt's tokens and those generated, the
positions its cache holds, the rows of it in flight and the blocks it has reserved. -/
structure Request where
  admission : Nat
  uncapped : Bool
  maxTokens : Nat
  prompt : Nat
  generated : Nat
  held : Nat
  rows : Nat
  need : List Nat
  stalled : Bool
  line : Nat
deriving DecidableEq, Repr

namespace Request

def history (r : Request) : Nat := r.prompt + r.generated

/-- Its cache lacks only its last generated token. -/
def decoding (r : Request) : Bool := r.generated ≠ 0 && r.held + 1 == r.history

def inFlight (r : Request) : Bool := r.rows ≠ 0

def kvHeld (pools : Pools) (r : Request) : List Nat := pools.blocksFor (r.held + r.rows)

/-- The room it was promised and has not taken. -/
def promised (pools : Pools) (r : Request) : List Nat :=
  (List.range pools.blocks.length).map fun s => r.need.getD s 0 - (r.kvHeld pools).getD s 0

def holder (pools : Pools) (r : Request) : Holder where
  admission := r.admission
  uncapped := r.uncapped
  kept := if r.held ≠ 0 then pools.blocksFor r.held else List.replicate pools.blocks.length 0
  flying := r.inFlight

/-- The request as it waits: it holds nothing and has reserved nothing. -/
def setAside (r : Request) (line : Nat) : Request :=
  { r with held := 0, rows := 0, need := [], stalled := false, line }

/-- Rows of a pass that are in the cache now, with the token they gave, if any. -/
def land (r : Request) (rows : Nat) (token : Bool) : Request :=
  { r with held := r.held + rows, rows := r.rows - rows
           generated := if token then r.generated + 1 else r.generated }

end Request

/-- A kept history that no running request holds. -/
structure Donor where
  id : Nat
  tokens : Nat
deriving DecidableEq, Repr

/-- The scheduler's ranking of the donors, lowest first. -/
structure Ranking where
  order : List Donor → List Nat
  perm : ∀ ds, (order ds).Perm (List.range ds.length)

/-- A server whose requests share no blocks. -/
structure Server where
  pools : Pools
  growth : Growth
  maxSeqs : Nat
  contextLength : Nat
  asked : Nat

/-- Tokens one request may hold, prompt and reply together. -/
def Server.tokenLimit (srv : Server) : Nat :=
  let limit := min srv.contextLength srv.pools.tokensTotal
  if srv.asked ≠ 0 then min srv.asked limit else limit

def Server.promptRoom (srv : Server) (uncapped : Bool) (maxTokens : Nat) : Nat :=
  srv.tokenLimit - if uncapped then max 1 (srv.tokenLimit / 8) else maxTokens

/-- The active requests in order of first admission, those paused, the donors, the last number of
each kind given, and whether a pass may be formed: none retired and no request ended since the
last growth round. -/
structure Ledger where
  active : List Request
  paused : List Request
  donors : List Donor
  donorIds : Nat
  admissions : Nat
  lines : Nat
  formable : Bool
deriving DecidableEq, Repr

def npos : Nat := 18446744073709551615

namespace Ledger

/-- The blocks of pool `s` that running requests have reserved and donors hold. -/
def reserved (srv : Server) (l : Ledger) (s : Nat) : Nat :=
  (l.active.map fun r => r.need.getD s 0).sum +
    (l.donors.map fun d => (srv.pools.blocksFor d.tokens).getD s 0).sum

/-- A request changed in place. -/
def put (l : Ledger) (r : Request) : Ledger :=
  { l with active := l.active.map fun q => if q.admission = r.admission then r else q }

end Ledger

namespace Server

variable (srv : Server)

def kvFree (l : Ledger) : List Nat :=
  (List.range srv.pools.blocks.length).map fun s =>
    srv.pools.blocks.getD s 0 -
      ((l.active.map fun r => (r.kvHeld srv.pools).getD s 0).sum +
        (l.donors.map fun d => (srv.pools.blocksFor d.tokens).getD s 0).sum)

/-- What is free in each pool, less what the running requests were promised. -/
def room (l : Ledger) : List Nat :=
  l.active.foldl (fun free r =>
    (List.range free.length).map fun s => free.getD s 0 - (r.promised srv.pools).getD s 0)
    (srv.kvFree l)

/-- What a paused request's place in a plan frees: its promise, and its blocks with its donor. -/
def gives (v : Victims) (s : Nat) (p : Request × Nat) : Nat :=
  if (p.2, true) ∈ v.paused then
    (p.1.promised srv.pools).getD s 0 + (p.1.kvHeld srv.pools).getD s 0
  else if (p.2, false) ∈ v.paused then (p.1.promised srv.pools).getD s 0
  else 0

def gainOf (active : List Request) (donors : List Donor) : Gain := fun v =>
  (List.range srv.pools.blocks.length).map fun s =>
    (active.zipIdx.map (srv.gives v s)).sum +
      (donors.zipIdx.map fun p =>
        if p.2 ∈ v.donors then (srv.pools.blocksFor p.1.tokens).getD s 0 else 0).sum

def dropAll (donors : List Donor) (gone : List Nat) : List Donor :=
  (donors.zipIdx.filter fun p => p.2 ∉ gone).map Prod.fst

/-- The donor count gives up the lowest-ranked donors past `maxSeqs`. -/
def trim (rank : Ranking) : Nat → List Donor → List Donor
  | 0, ds => ds
  | n + 1, ds =>
    if srv.maxSeqs < ds.length then trim rank n (ds.eraseIdx ((rank.order ds).headD 0)) else ds

/-- A request's history becomes a donor when it holds at least `least` tokens; the donor's number,
or 0. -/
def park (rank : Ranking) (l : Ledger) (r : Request) (least : Nat) : Ledger × Nat :=
  let l := { l with active := l.active.eraseP fun q => q.admission = r.admission }
  if r.held ≠ 0 ∧ least ≤ r.held then
    let d : Donor := ⟨l.donorIds + 1, r.held⟩
    let donors := srv.trim rank (l.donors.length + 1) (l.donors ++ [d])
    ({ l with donors, donorIds := d.id }, if d ∈ donors then d.id else 0)
  else (l, 0)

def pause (rank : Ranking) (l : Ledger) (r : Request) (yielded : Bool) : Ledger × Nat :=
  let (l, id) := srv.park rank l r 1
  let line := if yielded then l.lines + 1 else 0
  let q := r.setAside line
  let before := fun p : Request =>
    decide ¬(q.line < p.line ∨ q.line = p.line ∧ q.admission < p.admission)
  ({ l with paused := l.paused.takeWhile before ++ q :: l.paused.dropWhile before
            lines := if yielded then line else l.lines }, id)

def evict (l : Ledger) (id : Nat) : Ledger :=
  { l with donors := l.donors.eraseP fun d => d.id = id }

def pauseVictim (rank : Ranking) (l : Ledger) (v : Request × Bool) : Ledger :=
  let (l, donor) := srv.pause rank l v.1 false
  if donor ≠ 0 ∧ v.2 then evict l donor else l

/-- The requests a plan pauses, with whether each one's donor goes too. -/
def victims (active : List Request) (paused : List (Nat × Bool)) : List (Request × Bool) :=
  paused.filterMap fun p => (active[p.1]?).map fun r => (r, p.2)

/-- Takes what a plan chose for a growing request: the donors, then the requests it pauses. -/
def take (rank : Ranking) (l : Ledger) (t : Taken) : Ledger :=
  (victims l.active t.paused).foldl (srv.pauseVictim rank)
    { l with donors := dropAll l.donors t.donors }

def holders (active : List Request) : List Holder := active.map (·.holder srv.pools)

def growPlan (rank : Ranking) (l : Ledger) (r : Request) (step : List Nat) : Taken :=
  makeRoom (srv.room l) (rank.order l.donors) npos false (srv.holders l.active)
    r.admission true step (srv.gainOf l.active l.donors)

/-- The growth round from request `i` on; `turns` says which requests give the pool's edge up as
their step falls due. -/
def growFrom (rank : Ranking) (turns : Nat → Bool) : Nat → Nat → Ledger → Ledger
  | 0, _, l => l
  | n + 1, i, l =>
    match l.active[i]? with
    | none => l
    | some r =>
      let r := { r with stalled := false }
      let l := l.put r
      if r.inFlight then growFrom rank turns n (i + 1) l
      else
        let step := srv.growth.step srv.pools r.uncapped r.decoding r.held r.need
        if step = [] then growFrom rank turns n (i + 1) l
        else if turns r.admission then
          growFrom rank turns n i (srv.pause rank l r true).1
        else
          let t := srv.growPlan rank l r step
          if !t.enough || t.wait then
            growFrom rank turns n (i + 1) (l.put { r with stalled := true })
          else
            growFrom rank turns n (i + 1)
              ((srv.take rank l t).put { r with need := addBlocks r.need step })

def grow (rank : Ranking) (turns : Nat → Bool) (l : Ledger) : Ledger :=
  { srv.growFrom rank turns l.active.length 0 l with formable := true }

/-- Admits a queued or paused request if there is room without pausing anyone; nothing enters
beside a stalled request. -/
def enter (rank : Ranking) (l : Ledger) (r : Request) : Option Ledger :=
  if l.active.any (·.stalled) ∨ srv.maxSeqs ≤ l.active.length then none
  else
    let need := srv.pools.blocksFor
      (srv.growth.entry r.history r.uncapped r.maxTokens r.generated)
    let t := makeRoom (srv.room l) (rank.order l.donors) npos false [] 0 false need
      (srv.gainOf [] l.donors)
    if !t.enough then none
    else
      let before := fun q : Request => decide (q.admission ≤ r.admission)
      some { l with
        donors := dropAll l.donors t.donors
        active := l.active.takeWhile before ++ { r with need } :: l.active.dropWhile before }

end Server

inductive LedgerEvent
  | submit (rank : Ranking) (uncapped : Bool) (maxTokens prompt : Nat)
  | resume (rank : Ranking) (j : Nat)
  | grow (rank : Ranking) (turns : Nat → Bool)
  | form (i rows : Nat)
  | land (i rows : Nat) (token : Bool)
  | finish (rank : Ranking) (i : Nat) (failed : Bool)
  | leave (j : Nat)
  | drop (k : Nat)

/-- Whether a request ends or is cancelled. -/
def LedgerEvent.ends : LedgerEvent → Bool
  | finish .. => true
  | _ => false

namespace Server

variable (srv : Server)

/-- A prompt that leaves its reply no room is refused; an uncapped request's `maxTokens` is the room
its prompt leaves. -/
def submit (rank : Ranking) (l : Ledger) (uncapped : Bool) (maxTokens prompt : Nat) :
    Option Ledger :=
  if prompt = 0 ∨ uncapped = false ∧ maxTokens = 0 ∨ srv.promptRoom uncapped maxTokens < prompt then
    none
  else
    let maxTokens := if uncapped then srv.tokenLimit - prompt else maxTokens
    (srv.enter rank l
        ⟨l.admissions + 1, uncapped, maxTokens, prompt, 0, 0, 0, [], false, 0⟩).map
      fun l => { l with admissions := l.admissions + 1 }

def resume (rank : Ranking) (l : Ledger) (j : Nat) : Option Ledger :=
  (l.paused[j]?).bind fun r => srv.enter rank { l with paused := l.paused.eraseIdx j } r

/-- Rows of a request's history, the token it lacks if it decodes, in a pass; one already in flight
continues its prompt only while nothing is stalled. -/
def form (l : Ledger) (i rows : Nat) : Option Ledger :=
  (l.active[i]?).bind fun r =>
    if l.formable ∧ !r.stalled ∧ 0 < rows ∧ r.held + r.rows + rows ≤ r.history ∧
        (r.inFlight → l.active.all (!·.stalled)) then
      some (l.put { r with rows := r.rows + rows })
    else none

/-- A pass retires: its rows are in the cache, and a history read whole gives a token unless it
ends there. -/
def land (l : Ledger) (i rows : Nat) (token : Bool) : Option Ledger :=
  (l.active[i]?).bind fun r =>
    if 0 < rows ∧ rows ≤ r.rows ∧
        (token → r.held + rows = r.history ∧ r.generated < r.maxTokens) then
      some { l.put (r.land rows token) with formable := false }
    else none

/-- A request not in flight ends or is cancelled; its history is kept as a donor when it holds a
full block and no error ended it. -/
def finish (rank : Ranking) (l : Ledger) (i : Nat) (failed : Bool) : Option Ledger :=
  (l.active[i]?).bind fun r =>
    if r.inFlight then none
    else if failed then
      some { l with active := l.active.eraseP fun q => q.admission = r.admission
                    formable := false }
    else some { (srv.park rank l r srv.pools.kvBlockTokens).1 with formable := false }

def step (l : Ledger) : LedgerEvent → Option Ledger
  | .submit rank uncapped maxTokens prompt => srv.submit rank l uncapped maxTokens prompt
  | .resume rank j => srv.resume rank l j
  | .grow rank turns => some (srv.grow rank turns l)
  | .form i rows => form l i rows
  | .land i rows token => land l i rows token
  | .finish rank i failed => srv.finish rank l i failed
  | .leave j => some { l with paused := l.paused.eraseIdx j }
  | .drop k => some { l with donors := l.donors.eraseIdx k }

def machine : Machine Ledger LedgerEvent where
  start l := l = ⟨[], [], [], 0, 0, 0, false⟩
  step := srv.step

end Server

end Llmx
