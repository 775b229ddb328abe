import Llmx.SlotWorld
import Mathlib.Algebra.Order.Ring.Int
import Mathlib.Data.List.GetD

namespace Llmx

def StatePass.checkpoints (p : StatePass) : Multiset Nat :=
  (p.kept.map fun c => bag (c.map Checkpoint.slot)).sum

theorem sum_at {α : Type} {xs : List α} {i : Nat} {x : α} (f : α → Multiset Nat)
    (hi : xs[i]? = some x) : (xs.map f).sum = f x + ((xs.eraseIdx i).map f).sum := by
  obtain ⟨hlt, rfl⟩ := List.getElem?_eq_some_iff.mp hi
  have hperm := (List.getElem_cons_eraseIdx_perm hlt).map f
  rw [← hperm.sum_eq, List.map_cons, List.sum_cons]

theorem sum_set {α : Type} {xs : List α} {i : Nat} (y : α) (f : α → Multiset Nat)
    (hi : i < xs.length) : ((xs.set i y).map f).sum = f y + ((xs.eraseIdx i).map f).sum := by
  have hperm := (List.set_perm_cons_eraseIdx hi y).map f
  rw [hperm.sum_eq, List.map_cons, List.sum_cons]

/-- An element moved to another place, where what it replaces counts as what it leaves. -/
theorem sum_move {α : Type} {xs : List α} {i j : Nat} {x y z : α} {f : α → Multiset Nat}
    (hi : xs[i]? = some x) (hj : j < xs.length) (hij : i ≠ j) (hf : f y = f z) :
    (((xs.set i y).set j x).map f).sum = ((xs.set j z).map f).sum := by
  obtain ⟨hlt, rfl⟩ := List.getElem?_eq_some_iff.mp hi
  have hgi : i < ((xs.set j z).map f).length := by simpa using hlt
  have hgj : j < ((xs.set j z).map f).length := by simpa using hj
  have hperm := List.set_set_perm hgi hgj
  rw [← hperm.sum_eq]
  congr 1
  simp only [List.map_set, List.getElem_map, List.getElem_set_self,
    List.getElem_set_ne (Ne.symm hij)]
  rw [List.set_comm _ _ (Ne.symm hij), List.set_set, hf]

namespace SlotWorld

/-- The live slots held. -/
def live (w : SlotWorld) : Multiset Nat := (w.seqs.map Sequence.live).sum

/-- The slots marks own. -/
def marked (w : SlotWorld) : Multiset Nat := (w.seqs.map Sequence.marked).sum

/-- The buffers marks hold. -/
def buffers (w : SlotWorld) : Multiset Nat := (w.seqs.map Sequence.buffers).sum

/-- The slots of the checkpoints, of sequences and of passes. -/
def checkpoints (w : SlotWorld) : Multiset Nat :=
  (w.seqs.map Sequence.checkpoints).sum + (w.passes.map StatePass.checkpoints).sum

/-- The pool counts every hold, those of checkpoints in hand besides. -/
def Holds (w : SlotWorld) (hand : Multiset Nat) : Prop :=
  w.pool.Counts w.live w.marked (w.checkpoints + hand) w.buffers

namespace Holds

variable {w : SlotWorld} {i k : Nat} {s : Sequence} {h : SlotHolder} {hand : Multiset Nat}

/-- The other sequences' checkpoints, the passes' and those in hand. -/
def others (w : SlotWorld) (i : Nat) (hand : Multiset Nat) : Multiset Nat :=
  ((w.seqs.eraseIdx i).map Sequence.checkpoints).sum +
    ((w.passes.map StatePass.checkpoints).sum + hand)

def rest (w : SlotWorld) (i : Nat) (f : Sequence → Multiset Nat) : Multiset Nat :=
  ((w.seqs.eraseIdx i).map f).sum

theorem checkpoints_at (hi : w.seqs[i]? = some s) :
    w.checkpoints + hand = s.checkpoints + others w i hand := by
  rw [checkpoints, sum_at _ hi, others, add_assoc, add_assoc]

theorem frame (c : w.Holds hand) (hi : w.seqs[i]? = some s) :
    (SlotHolder.mk w.pool s).Frame (rest w i Sequence.live) (rest w i Sequence.marked)
      (others w i hand) (rest w i Sequence.buffers) := by
  have c : w.pool.Counts _ _ _ _ := c
  exact c.cast (sum_at _ hi).symm (sum_at _ hi).symm (checkpoints_at hi).symm (sum_at _ hi).symm

theorem put (hi : i < w.seqs.length)
    (f : h.Frame (rest w i Sequence.live) (rest w i Sequence.marked) (others w i hand)
      (rest w i Sequence.buffers)) : (w.put i h).Holds hand := by
  have hkept : (w.put i h).checkpoints + hand = h.seq.checkpoints + others w i hand := by
    show (List.map _ (w.seqs.set i h.seq)).sum + _ + _ = _
    rw [sum_set _ _ hi, others, add_assoc, add_assoc]
    rfl
  have c : h.pool.Counts _ _ _ _ := f
  exact c.cast (sum_set _ _ hi) (sum_set _ _ hi) hkept (sum_set _ _ hi)

theorem on {f : SlotHolder → SlotHolder} (c : w.Holds hand)
    (hf : ∀ {h : SlotHolder} {l m k b : Multiset Nat}, h.Frame l m k b → (f h).Frame l m k b) :
    (w.on i f).Holds hand := by
  unfold SlotWorld.on
  split
  · exact c
  next s hs =>
    obtain ⟨hlt, -⟩ := List.getElem?_eq_some_iff.mp hs
    exact put hlt (hf (c.frame hs))

theorem each {α : Type} {xs : List α} {seq : α → Nat} {f : α → SlotHolder → SlotHolder}
    (c : w.Holds hand)
    (hf : ∀ {x : α} {h : SlotHolder} {l m k b : Multiset Nat}, h.Frame l m k b →
      (f x h).Frame l m k b) :
    (w.each xs seq f).Holds hand := by
  induction xs generalizing w with
  | nil => exact c
  | cons x xs ih => exact ih (c.on hf)

theorem push_checkpoints {p : SlotPool} {s : Sequence} :
    (w.push ⟨p, s⟩).checkpoints + hand = s.checkpoints + (w.checkpoints + hand) := by
  show (List.map _ (w.seqs ++ [s])).sum + _ + _ = _
  rw [List.map_append, List.sum_append, List.map_singleton, List.sum_singleton,
    add_comm _ s.checkpoints, add_assoc, add_assoc, checkpoints, add_assoc]
  rfl

/-- A sequence made holds what comes out of hand. -/
theorem push {p : SlotPool} {s : Sequence}
    (c : p.Counts w.live w.marked (s.checkpoints + (w.checkpoints + hand)) w.buffers)
    (hl : s.live = 0) (hm : s.marked = 0) (hb : s.buffers = 0) : (w.push ⟨p, s⟩).Holds hand := by
  have hsum : ∀ f : Sequence → Multiset Nat, ((w.seqs ++ [s]).map f).sum =
      (w.seqs.map f).sum + f s := by
    intro f
    rw [List.map_append, List.sum_append, List.map_singleton, List.sum_singleton]
  refine c.cast ?_ ?_ push_checkpoints ?_
  · exact (hsum _).trans (by rw [hl, add_zero]; rfl)
  · exact (hsum _).trans (by rw [hm, add_zero]; rfl)
  · exact (hsum _).trans (by rw [hb, add_zero]; rfl)

theorem setPass {p : StatePass} {x y : Multiset Nat} (c : w.Holds (x + hand))
    (hk : k < w.passes.length) (he : p.checkpoints + y = (w.passAt k).checkpoints + x) :
    (w.setPass k p).Holds (y + hand) := by
  have hget : w.passes[k]? = some (w.passAt k) := by
    rw [passAt, List.getD_eq_getElem _ _ hk, List.getElem?_eq_getElem hk]
  have hkept : (w.setPass k p).checkpoints + (y + hand) = w.checkpoints + (x + hand) := by
    show _ + (List.map _ (w.passes.set k p)).sum + _ = _
    rw [checkpoints, sum_set _ _ hk, sum_at _ hget, ← add_assoc _ y, ← add_assoc _ x,
      add_assoc _ _ y, add_assoc _ _ x, add_right_comm _ _ y, add_right_comm _ _ x, he]
    rfl
  have c : w.pool.Counts _ _ _ _ := c
  exact c.cast rfl rfl hkept rfl

/-- A pass slot past the last holds nothing and takes nothing. -/
theorem setPass_beyond {p : StatePass} (hk : ¬ k < w.passes.length) :
    w.setPass k p = w ∧ w.passAt k = StatePass.idle := by
  refine ⟨?_, List.getD_eq_default _ _ (by omega)⟩
  rw [SlotWorld.setPass, List.set_eq_of_length_le (by omega)]

theorem setPass_same {p : StatePass} (c : w.Holds hand)
    (he : p.checkpoints = (w.passAt k).checkpoints) : (w.setPass k p).Holds hand := by
  by_cases hk : k < w.passes.length
  · have c0 : w.Holds (0 + hand) := by
      rw [zero_add]
      exact c
    have c' := c0.setPass (y := 0) hk (by rw [he])
    rw [zero_add] at c'
    exact c'
  · rw [(setPass_beyond hk).1]
    exact c

theorem releaseAll {kept : List (Option Checkpoint)} {p : SlotPool} {l m k b : Multiset Nat}
    (c : p.Counts l m ((kept.map fun c => bag (c.map Checkpoint.slot)).sum + k) b) :
    (SlotWorld.releaseAll p kept).Counts l m k b := by
  induction kept generalizing p with
  | nil => exact c.cast rfl rfl (zero_add k).symm rfl
  | cons o kept ih =>
    rw [List.map_cons, List.sum_cons, add_assoc] at c
    cases o with
    | none =>
      rw [Option.map_none, bag_none, zero_add] at c
      exact ih c
    | some d =>
      rw [Option.map_some, bag_some, Multiset.singleton_add] at c
      exact ih c.releaseKept

theorem clearKept (c : w.Holds hand) : (w.clearKept k).Holds hand := by
  by_cases hk : k < w.passes.length
  · have c0 : w.Holds (0 + hand) := by
      rw [zero_add]
      exact c
    have c' : w.pool.Counts _ _ _ _ := c0.setPass (p := { w.passAt k with kept := [] })
      (y := (w.passAt k).checkpoints) hk (by rw [add_comm]; rfl)
    rw [add_left_comm] at c'
    exact releaseAll c'
  · obtain ⟨hset, hidle⟩ := setPass_beyond (p := { w.passAt k with kept := [] }) hk
    have hall : w.clearKept k = w := by
      rw [SlotWorld.clearKept, hidle]
      exact (setPass_beyond hk).1
    rw [hall]
    exact c

theorem moveKept {e : Nat} (c : w.Holds hand) : (SlotWorld.moveKept k w e).Holds hand := by
  unfold SlotWorld.moveKept
  dsimp only
  split
  next en d hen hd =>
    split
    · exact c
    next s hs =>
      have hk : k < w.passes.length := by
        by_contra hk
        rw [(setPass_beyond (p := StatePass.idle) hk).2] at hen
        cases hen
      obtain ⟨hlt, hget⟩ := List.getElem?_eq_some_iff.mp hd
      have hout : ({ w.passAt k with kept := (w.passAt k).kept.set e none } :
          StatePass).checkpoints + {d.slot} = (w.passAt k).checkpoints + 0 := by
        have hset := sum_set (none : Option Checkpoint)
          (fun c => bag (c.map Checkpoint.slot)) hlt
        have hat := sum_at (fun c => bag (Option.map Checkpoint.slot c)) hd
        rw [StatePass.checkpoints, StatePass.checkpoints, hat, hset, add_zero, Option.map_none,
          Option.map_some, bag_none, bag_some, zero_add, add_comm]
      have c0 : w.Holds (0 + hand) := by
        rw [zero_add]
        exact c
      have c' := c0.setPass hk hout
      have hs' : (w.setPass k { w.passAt k with kept := (w.passAt k).kept.set e none }).seqs[
        en.seq]? = some s := hs
      obtain ⟨hseq, -⟩ := List.getElem?_eq_some_iff.mp hs
      have f := c'.frame hs'
      have hothers : ∀ v : SlotWorld, others v en.seq ({d.slot} + hand) =
          d.slot ::ₘ others v en.seq hand := by
        intro v
        rw [others, others, ← Multiset.singleton_add, add_left_comm _ ({d.slot} : Multiset Nat),
          add_left_comm _ ({d.slot} : Multiset Nat)]
      rw [hothers] at f
      have hput := put (w := w.setPass k _) hseq f.keepAt
      exact hput
  · exact c

theorem moveAll {es : List Nat} (c : w.Holds hand) :
    (es.foldl (SlotWorld.moveKept k) w).Holds hand := by
  induction es generalizing w with
  | nil => exact c
  | cons e es ih => exact ih c.moveKept

theorem lengthen {n : Nat} {h : SlotHolder} {l m k b : Multiset Nat} (f : h.Frame l m k b) :
    (SlotWorld.lengthen n h).Frame l m k b := f

theorem launch {h : SlotHolder} {l m k b : Multiset Nat} (f : h.Frame l m k b) :
    (SlotWorld.launch h).Frame l m k b := f

theorem land {h : SlotHolder} {l m k b : Multiset Nat} (f : h.Frame l m k b) :
    (SlotWorld.land h).Frame l m k b := f

theorem undo {x : StateEntry × Nat} {byLength : Nat → Bool} {h : SlotHolder} {l m k b : Multiset Nat}
    (f : h.Frame l m k b) : (SlotWorld.undo byLength x h).Frame l m k b := by
  unfold SlotWorld.undo
  cases hr : h.rewindByLength x.2 (byLength x.1.seq) with
  | none => exact f.rewind
  | some h' => exact f.rewindByLength hr

theorem commit (c : w.Holds hand) : (w.commit k).Holds hand := by
  unfold SlotWorld.commit
  dsimp only
  split
  · exact c
  · have hfirst : (if (w.passAt k).ran = 0 then
        w.each (w.passAt k).entries StateEntry.seq fun e => SlotWorld.lengthen e.n
        else w).Holds hand := by
      split
      · exact c.each lengthen
      · exact c
    have hlast : ∀ v : SlotWorld, v.Holds hand →
        (if (w.passAt k).ran + 1 = v.stages then
          (List.range (w.passAt k).entries.length).foldl (SlotWorld.moveKept k) v
          else v).Holds hand := by
      intro v cv
      split
      · exact cv.moveAll
      · exact cv
    exact (hlast _ hfirst).setPass_same rfl

theorem release (c : w.Holds hand) : (w.release k).Holds hand :=
  (c.each land).setPass_same rfl

theorem endPass (c : w.Holds hand) : (w.endPass k).Holds hand := by
  unfold SlotWorld.endPass
  dsimp only
  split
  · exact c
  · exact c.release

theorem rollBack {byLength : Nat → Bool} (c : w.Holds hand) :
    (w.rollBack k byLength).Holds hand := by
  unfold SlotWorld.rollBack
  dsimp only
  split
  · exact c
  · exact (c.each undo).clearKept.release

theorem undoLater {ks : List Nat} {byLength : Nat → Nat → Bool} (c : w.Holds hand) :
    (ks.foldl (fun w j => w.rollBack j (byLength j)) w).Holds hand := by
  induction ks generalizing w with
  | nil => exact c
  | cons j ks ih => exact ih c.rollBack

theorem abort {byLength : Nat → Nat → Bool} (c : w.Holds hand) :
    (w.abort k byLength).Holds hand := by
  unfold SlotWorld.abort
  split
  · exact c
  · exact (undoLater c).rollBack

theorem make (c : w.Holds hand) : (w.push ⟨w.pool, Sequence.fresh⟩).Holds hand := by
  have hempty : Sequence.fresh.Empty := ⟨rfl, rfl, rfl, rfl⟩
  refine push ?_ hempty.live hempty.marked hempty.buffers
  rw [hempty.checkpoints, zero_add]
  exact c

/-- A checkpoint copied is counted again while the count has room. -/
theorem fork {n : Nat} (c : w.Holds hand)
    (hfits : ∀ x, ((w.fork i n).checkpoints + hand).count x < 4294967296) :
    (w.fork i n).Holds hand := by
  unfold SlotWorld.fork at hfits ⊢
  dsimp only at hfits ⊢
  split
  · exact c
  next hno =>
    rw [if_neg hno] at hfits
    split
    · exact c
    next d hd =>
      rw [hd] at hfits
      dsimp only at hfits
      split
      · exact c
      next hat =>
        rw [if_neg hat, push_checkpoints] at hfits
        have hget : w.seqs[i]? = some (w.seqAt i) := by
          rw [seqAt, List.getD_eq_getElem?_getD] at hd ⊢
          cases hs : w.seqs[i]? with
          | none =>
            rw [hs] at hd
            cases hd
          | some s => rfl
        have hone : (w.seqAt i).checkpoints = {d.slot} := by
          rw [Sequence.checkpoints, hd, Option.map_some, bag_some]
        have hat : w.checkpoints + hand = d.slot ::ₘ others w i hand := by
          rw [checkpoints_at hget, hone, Multiset.singleton_add]
        have hfit := hfits d.slot
        have c : w.pool.Counts _ _ _ _ := c
        rw [hat] at c hfit
        have hcopy : ({ Sequence.fresh with length := n, kept := some d } : Sequence).checkpoints =
            {d.slot} := rfl
        rw [hcopy, Multiset.singleton_add, Multiset.count_cons_self] at hfit
        refine push ?_ rfl rfl rfl
        rw [hcopy, hat, Multiset.singleton_add]
        exact c.retain hfit

theorem restoreHost {v : SlotWorld} {n : Nat} (c : w.Holds hand)
    (hv : w.restoreHost n = some v) : v.Holds hand := by
  unfold SlotWorld.restoreHost at hv
  split at hv
  · cases hv
  · cases hv
    exact c
  next x p ha =>
    cases hv
    have c : w.pool.Counts _ _ _ _ := c
    refine push ?_ rfl rfl rfl
    exact (c.acquireKept ha).cast rfl rfl (Multiset.singleton_add _ _) rfl

/-- A sequence moved over another, once the other's holds are back. -/
theorem move {j : Nat} (c : w.Holds hand) : (w.move i j).Holds hand := by
  unfold SlotWorld.move
  split
  next s t hs ht =>
    split
    · exact c
    next hij =>
      obtain ⟨hi, hgi⟩ := List.getElem?_eq_some_iff.mp hs
      obtain ⟨hj, hgj⟩ := List.getElem?_eq_some_iff.mp ht
      let h : SlotHolder := (SlotHolder.mk w.pool t).releaseState.releaseKept.dropMark.settle
      have c1 : (w.put j h).Holds hand :=
        put hj (c.frame ht).releaseState.releaseKept.dropMark.settle
      have hempty : h.seq.Empty := SlotHolder.vacated_empty _
      have hsum : ∀ f : Sequence → Multiset Nat, f h.seq = 0 → f (movedFrom s) = 0 →
          (((w.seqs.set i (movedFrom s)).set j s).map f).sum =
            ((w.seqs.set j h.seq).map f).sum := by
        intro f hf hm
        refine sum_move hs hj hij ?_
        rw [hf, hm]
      have hmoved : (movedFrom s).Empty := ⟨rfl, rfl, rfl, rfl⟩
      have c1 : h.pool.Counts _ _ _ _ := c1
      refine c1.cast (hsum _ hempty.live hmoved.live) (hsum _ hempty.marked hmoved.marked) ?_
        (hsum _ hempty.buffers hmoved.buffers)
      exact congrArg (fun x => x + (w.passes.map StatePass.checkpoints).sum + hand)
        (hsum _ hempty.checkpoints hmoved.checkpoints)
  · exact c

theorem seqAt_set {xs : List Sequence} {i j : Nat} {s : Sequence} (hi : i < xs.length) :
    (xs.set i s).getD j Sequence.fresh = if i = j then s else xs.getD j Sequence.fresh := by
  simp only [List.getD_eq_getElem?_getD, List.getElem?_set]
  split
  next hij => simp
  next => rfl

theorem takeState_some {h : SlotHolder} {l m k b : Multiset Nat} (f : h.Frame l m k b)
    (hroom : h.seq.state = none → h.pool.liveHeld < h.pool.live) :
    ∃ g, h.takeState = some g ∧ g.seq.state ≠ none ∧ g.pool.live = h.pool.live ∧
      g.pool.liveHeld = h.pool.liveHeld + (if h.seq.state = none then 1 else 0) ∧
      g.pool.keptHeld = h.pool.keptHeld ∧ g.pool.kept = h.pool.kept := by
  unfold SlotHolder.takeState
  split
  next x hx => exact ⟨h, rfl, by simp [hx], rfl, by simp [hx], rfl, rfl⟩
  next hx =>
    obtain ⟨x, q, hq, hheld, hlive, hkh, hk⟩ :=
      SlotPool.Counts.acquire_room f (hroom hx)
    rw [hq]
    exact ⟨_, rfl, by simp, hlive, by simp [hx, hheld], hkh, hk⟩

theorem takeStates_some (es : List StateEntry) (c : w.Holds hand)
    (hle : w.pool.liveHeld + w.fresh es ≤ w.pool.live) :
    ∃ v, takeStates w es = some v ∧ v.Holds hand ∧ v.passes = w.passes ∧
      v.pool.liveHeld ≤ v.pool.live ∧ v.pool.keptHeld = w.pool.keptHeld ∧
      v.pool.kept = w.pool.kept := by
  induction es generalizing w with
  | nil => exact ⟨w, rfl, c, rfl, by omega, rfl, rfl⟩
  | cons e es ih =>
    rw [SlotWorld.fresh, List.countP_cons] at hle
    cases hs : w.seqs[e.seq]? with
    | none =>
      obtain ⟨v, hv⟩ := ih c (by unfold SlotWorld.fresh; omega)
      refine ⟨v, ?_, hv.2⟩
      rw [takeStates, takeState, hs]
      exact hv.1
    | some s =>
      obtain ⟨hlt, -⟩ := List.getElem?_eq_some_iff.mp hs
      have hat : w.seqAt e.seq = s := by
        rw [seqAt, List.getD_eq_getElem?_getD, hs, Option.getD_some]
      rw [hat] at hle
      have f := c.frame hs
      obtain ⟨g, hg, hheld, hlive, hcount, hkh, hk⟩ := takeState_some f (by
        intro hnone
        dsimp only at hnone ⊢
        rw [hnone] at hle
        simp only [Option.isNone_none, if_true] at hle
        omega)
      have c1 : (w.put e.seq g).Holds hand := put hlt (f.takeState hg)
      have hfresh : (w.put e.seq g).fresh es ≤ w.fresh es := by
        refine List.countP_mono_left fun x hx hnone => ?_
        rw [seqAt, SlotWorld.put, seqAt_set hlt] at hnone
        split at hnone
        · exact absurd (Option.isNone_iff_eq_none.mp hnone) hheld
        · exact hnone
      obtain ⟨v, hv, cv, hp, hvl, hvk, hvc⟩ := ih c1 (by
        show g.pool.liveHeld + _ ≤ g.pool.live
        rw [hcount, hlive]
        dsimp only
        unfold SlotWorld.fresh at hfresh ⊢
        cases hstate : s.state with
        | none =>
          rw [hstate] at hle
          simp only [Option.isNone_none, if_true] at hle ⊢
          omega
        | some x =>
          rw [hstate] at hle
          simp only [Option.isNone_some, Bool.false_eq_true, reduceCtorEq, if_false] at hle ⊢
          omega)
      refine ⟨v, ?_, cv, hp, hvl, hvk.trans hkh, hvc.trans hk⟩
      rw [takeStates, takeState, hs]
      dsimp only
      rw [hg]
      exact hv

theorem keepSlots_some (es : List (StateEntry × Nat)) {p : SlotPool} {l m k b : Multiset Nat}
    (c : p.Counts l m k b) (hlive : p.liveHeld ≤ p.live)
    (hle : p.keptHeld + es.countP (fun x => x.1.keep) ≤ p.kept) :
    ∃ kept q, keepSlots p es = some (kept, q) ∧
      q.Counts l m ((kept.map fun c => bag (c.map Checkpoint.slot)).sum + k) b := by
  induction es generalizing p k with
  | nil => exact ⟨[], p, rfl, c.cast rfl rfl (zero_add k) rfl⟩
  | cons x es ih =>
    obtain ⟨e, pos⟩ := x
    rw [List.countP_cons] at hle
    rw [keepSlots]
    split
    next hkeep =>
      rw [if_pos hkeep] at hle
      obtain ⟨x, q, hq, hkh, hk, hlh, hl⟩ := c.acquireKept_room hlive (by omega)
      obtain ⟨kept, r, hr, cr⟩ := ih (c.acquireKept hq) (by omega) (by omega)
      rw [hq]
      dsimp only
      rw [hr]
      refine ⟨_, r, rfl, cr.cast rfl rfl ?_ rfl⟩
      rw [List.map_cons, List.sum_cons, Option.map_some, bag_some, add_assoc,
        Multiset.singleton_add, Multiset.add_cons]
    next hkeep =>
      obtain ⟨kept, r, hr, cr⟩ := ih c hlive (by omega)
      rw [hr]
      refine ⟨_, r, rfl, cr.cast rfl rfl ?_ rfl⟩
      rw [List.map_cons, List.sum_cons, Option.map_none, bag_none, zero_add]

theorem each_frame {α : Type} (xs : List α) (seq : α → Nat) {f : α → SlotHolder → SlotHolder}
    (hf : ∀ x h, (f x h).pool = h.pool) :
    (w.each xs seq f).pool = w.pool ∧ (w.each xs seq f).passes = w.passes := by
  induction xs generalizing w with
  | nil => exact ⟨rfl, rfl⟩
  | cons x xs ih =>
    obtain ⟨hpool, hpasses⟩ := ih (w := w.on (seq x) (f x))
    have hon : (w.on (seq x) (f x)).pool = w.pool ∧ (w.on (seq x) (f x)).passes = w.passes := by
      unfold SlotWorld.on
      split
      · exact ⟨rfl, rfl⟩
      · exact ⟨hf _ _, rfl⟩
    exact ⟨hpool.trans hon.1, hpasses.trans hon.2⟩

theorem releaseAll_sides (kept : List (Option Checkpoint)) (p : SlotPool) :
    (SlotWorld.releaseAll p kept).live = p.live ∧
      (SlotWorld.releaseAll p kept).liveHeld = p.liveHeld ∧
      (SlotWorld.releaseAll p kept).kept = p.kept ∧
      (SlotWorld.releaseAll p kept).keptHeld ≤ p.keptHeld := by
  induction kept generalizing p with
  | nil => exact ⟨rfl, rfl, rfl, le_rfl⟩
  | cons o kept ih =>
    cases o with
    | none => exact ih p
    | some d =>
      obtain ⟨hl, hlh, hk, hkh⟩ := ih (p.releaseKept d.slot)
      have hone : (p.releaseKept d.slot).live = p.live ∧
          (p.releaseKept d.slot).liveHeld = p.liveHeld ∧
          (p.releaseKept d.slot).kept = p.kept ∧
          (p.releaseKept d.slot).keptHeld ≤ p.keptHeld := by
        unfold SlotPool.releaseKept
        dsimp only
        split
        · exact ⟨rfl, rfl, rfl, le_rfl⟩
        · exact ⟨rfl, rfl, rfl, Nat.sub_le _ _⟩
      exact ⟨hl.trans hone.1, hlh.trans hone.2.1, hk.trans hone.2.2.1, hkh.trans hone.2.2.2⟩

/-- A pass's slot, cleared, filled with the checkpoints taken for its entries. -/
theorem formed {u : SlotWorld} {q : SlotPool} {es : List StateEntry} {start : List Nat}
    {kept : List (Option Checkpoint)} (hu : u.passes = (w.clearKept k).passes)
    (hk : k < w.passes.length)
    (cq : q.Counts u.live u.marked
      ((kept.map fun c => bag (c.map Checkpoint.slot)).sum + (u.checkpoints + hand)) u.buffers) :
    ({ u with pool := q }.setPass k ⟨true, es, start, kept, 0⟩).Holds hand := by
  have cx : ({ u with pool := q } : SlotWorld).Holds
      ((kept.map fun c => bag (c.map Checkpoint.slot)).sum + hand) :=
    cq.cast rfl rfl (add_left_comm _ _ _) rfl
  have hlt : k < u.passes.length := by
    rw [hu]
    show k < (w.passes.set k _).length
    rw [List.length_set]
    exact hk
  have hnone : (u.passAt k).checkpoints = 0 := by
    rw [passAt, hu]
    show StatePass.checkpoints ((w.passes.set k _).getD k _) = 0
    rw [List.getD_eq_getElem _ _ (by rw [List.length_set]; exact hk), List.getElem_set_self]
    rfl
  have cs := cx.setPass (k := k) (p := ⟨true, es, start, kept, 0⟩) (y := 0) hlt (by
    show _ = (u.passAt k).checkpoints + _
    rw [hnone, zero_add, add_zero]
    rfl)
  rw [zero_add] at cs
  exact cs

theorem takeStates {v : SlotWorld} {es : List StateEntry} (c : w.Holds hand)
    (hv : SlotWorld.takeStates w es = some v) : v.Holds hand ∧ v.passes = w.passes := by
  induction es generalizing w with
  | nil =>
    cases hv
    exact ⟨c, rfl⟩
  | cons e es ih =>
    obtain ⟨mid, hmid, hv⟩ := Option.bind_eq_some_iff.mp hv
    unfold SlotWorld.takeState at hmid
    split at hmid
    next =>
      cases hmid
      exact ih c hv
    next s hs =>
      obtain ⟨g, hg, hmid⟩ := Option.map_eq_some_iff.mp hmid
      cases hmid
      obtain ⟨hlt, -⟩ := List.getElem?_eq_some_iff.mp hs
      exact ih (w := w.put e.seq g) (put hlt ((c.frame hs).takeState hg)) hv

theorem keepSlots {es : List (StateEntry × Nat)} {p q : SlotPool} {l m x b : Multiset Nat}
    {kept : List (Option Checkpoint)} (c : p.Counts l m x b)
    (hq : SlotWorld.keepSlots p es = some (kept, q)) :
    q.Counts l m ((kept.map fun c => bag (c.map Checkpoint.slot)).sum + x) b := by
  induction es generalizing p x kept with
  | nil =>
    cases hq
    exact c.cast rfl rfl (zero_add x) rfl
  | cons en es ih =>
    obtain ⟨e, pos⟩ := en
    rw [SlotWorld.keepSlots] at hq
    split at hq
    next =>
      split at hq
      next y r hy =>
        obtain ⟨⟨kept', q'⟩, hrest, hq⟩ := Option.map_eq_some_iff.mp hq
        cases hq
        refine (ih (c.acquireKept hy) hrest).cast rfl rfl ?_ rfl
        rw [List.map_cons, List.sum_cons, Option.map_some, bag_some, add_assoc,
          Multiset.singleton_add, Multiset.add_cons]
      next => cases hq
    next =>
      obtain ⟨⟨kept', q'⟩, hrest, hq⟩ := Option.map_eq_some_iff.mp hq
      cases hq
      refine (ih c hrest).cast rfl rfl ?_ rfl
      rw [List.map_cons, List.sum_cons, Option.map_none, bag_none, zero_add]

/-- A pass that began has every slot it took. -/
theorem beginPass {v : SlotWorld} {es : List StateEntry} (c : w.Holds hand)
    (hv : w.beginPass k es = some v) : v.Holds hand := by
  unfold SlotWorld.beginPass at hv
  split at hv
  next hmay =>
    obtain ⟨u, hu, hv⟩ := Option.bind_eq_some_iff.mp hv
    obtain ⟨⟨kept, q⟩, hq, hv⟩ := Option.map_eq_some_iff.mp hv
    cases hv
    obtain ⟨cu, hpasses⟩ := takeStates c.clearKept hu
    obtain ⟨-, hsame⟩ := each_frame (w := u) es StateEntry.seq
      (f := fun _ => SlotWorld.launch) fun _ _ => rfl
    have cl : (u.each es StateEntry.seq fun _ => SlotWorld.launch).Holds hand := cu.each launch
    exact formed (hsame.trans hpasses) hmay.slot (keepSlots cl hq)
  next =>
    cases hv
    exact c

/-- A pass the checks let in finds every slot it takes. -/
theorem beginPass_some (k : Nat) (es : List StateEntry) (c : w.Holds hand)
    (hlive : w.pool.liveHeld ≤ w.pool.live) :
    ∃ v, w.beginPass k es = some v ∧ v.Holds hand := by
  unfold SlotWorld.beginPass
  split
  next hmay =>
    have hroom := hmay.live
    have hkeeps := hmay.kept
    have hk_le : w.pool.keptHeld ≤ w.pool.kept := SlotPool.Counts.kept_le c
    obtain ⟨hl, hlh, hk, hkh⟩ := releaseAll_sides (w.passAt k).kept w.pool
    obtain ⟨v, hv, cv, hpasses, hvl, hvk, hvc⟩ := takeStates_some es
      (c.clearKept (k := k)) (by
        show (SlotWorld.releaseAll w.pool _).liveHeld + w.fresh es ≤
          (SlotWorld.releaseAll w.pool _).live
        rw [hl, hlh]
        unfold SlotPool.available at hroom
        omega)
    rw [hv, Option.bind_some]
    dsimp only
    obtain ⟨hpool, hpasses'⟩ := each_frame (w := v) es StateEntry.seq
      (f := fun _ => SlotWorld.launch) fun _ _ => rfl
    have cu : (v.each es StateEntry.seq fun _ => SlotWorld.launch).Holds hand := cv.each launch
    have hcount : ∀ g : StateEntry → Nat,
        (es.map fun e => (e, g e)).countP (fun x => x.1.keep) = keeps es := by
      intro g
      rw [List.countP_map]
      rfl
    generalize hu : v.each es StateEntry.seq (fun _ => SlotWorld.launch) = u
      at cu hpool hpasses'
    obtain ⟨kept, q, hq, cq⟩ := keepSlots_some
      (es.map fun e => (e, (u.seqAt e.seq).length + e.n)) (p := u.pool) cu
      (by rw [hpool]; exact hvl) (by
        rw [hcount, hpool, hvk, hvc]
        show (SlotWorld.releaseAll w.pool _).keptHeld + _ ≤ (SlotWorld.releaseAll w.pool _).kept
        rw [hk]
        unfold SlotPool.keptAvailable at hkeeps
        omega)
    rw [hq]
    exact ⟨_, rfl, formed (hpasses'.trans hpasses) hmay.slot cq⟩
  next => exact ⟨w, rfl, c⟩

end Holds

end SlotWorld

end Llmx
