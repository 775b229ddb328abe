import Llmx.HostTier
import Mathlib.Data.List.Nodup
import Mathlib.Algebra.BigOperators.Group.List.Basic
import Mathlib.Algebra.Order.Ring.Int

namespace Llmx

namespace HostCache

/-- Why a copy would not be kept, or that it would. -/
inductive Why
  | kept
  | larger
  | outranked
  | room
  | memory
deriving DecidableEq

structure HostRoom where
  why : Why
  drops : List Entry
deriving DecidableEq

/-- What is planned so far: the bytes held, those parked, the slabs freed and the entries to drop. -/
structure Plan where
  held : Nat
  parked : Nat
  freed : List Nat
  drops : List Entry
deriving DecidableEq

def addSlabs : List Nat → List Nat → List Nat
  | [], more => more
  | freed, [] => freed
  | a :: freed, b :: more => (a + b) :: addSlabs freed more

namespace Cache

def release (c : Cache) (p : Plan) (h : HostHistory) (e : Entry) : Plan :=
  if c.parks e then
    { p with held := p.held - h.held, drops := p.drops ++ [e], parked := p.parked + h.held }
  else { p with held := p.held - h.held, drops := p.drops ++ [e], freed := addSlabs p.freed h.slabs }

/-- The entries of that id given up in the plan. -/
def planEntry (c : Cache) (p : Plan) (e : Entry) : Plan :=
  if e.bound then (c.bounds.filter fun b => b.id == e.id).foldl (fun p b => c.release p b.state e) p
  else (c.host.filter fun h => h.id == e.id).foldl
    (fun p h => { c.release p h.history e with
      held := (c.release p h.history e).held - tailBytes h.tails }) p

def planDrops (c : Cache) (m : Tier) (bytes : Nat) : List Entry → Plan → Plan
  | [], p => p
  | e :: es, p =>
    if p.held + bytes ≤ m.hostCap then p else c.planDrops m bytes es (c.planEntry p e)

def parkedHeld (c : Cache) : Nat :=
  (c.diskParked.map HostHistory.held).sum + (c.disk.elim 0 DiskWriter.held)

def growingHeld (c : Cache) : Nat :=
  (c.growing.map HostHistory.held).sum

/-- What becomes of a copy of `n` tokens ranked `mine`, with `tails` bytes of images' rows. -/
def hostRoom (c : Cache) (m : Tier) (n : Nat) (mine : Rank) (tails : Nat) : HostRoom :=
  if m.hostCap < m.hostBytes n true + tails then ⟨.larger, []⟩
  else
    let p := c.planDrops m (m.hostBytes n true + tails) (c.hostVictims m mine)
      ⟨c.hostHeld, c.parkedHeld, [], []⟩
    if m.hostCap < p.held + (m.hostBytes n true + tails) then
      ⟨if c.outranked m mine then .outranked else .room, p.drops⟩
    else match m.hostCopyFits n (m.hostCap + p.parked + c.growingHeld) p.freed with
      | .fits => ⟨.kept, p.drops⟩
      | .limit => ⟨.room, p.drops⟩
      | .memory => ⟨.memory, p.drops⟩

end Cache

/-- What of donor `d` a copy takes: whole blocks, up to its checkpoint where a state is kept. -/
def Tier.copyLength (m : Tier) (d : Donor) : Nat :=
  let n := min d.length (min d.tokens.length d.keep) / m.blockTokens * m.blockTokens
  if m.keepsState then
    match d.checkpoint with
    | some kept => if kept ≤ n ∧ kept % m.blockTokens = 0 then kept else 0
    | none => 0
  else n

def clip (classes : List RowClass) (n : Nat) : List RowClass :=
  match classes with
  | [] => []
  | x :: rest => if n ≤ x.stop then [{ x with stop := n }] else x :: clip rest n

/-- What a donor leaving the devices came to. -/
inductive WroteBack
  | nothing
  | renewed
  | refused (why : Why) (drops : List Entry)
  | failed (drops : List Entry)
  | kept (drops : List Entry)
deriving DecidableEq

def donorRank (d : Donor) : Rank :=
  ⟨if d.superseded then 0 else if d.back then 2 else 1, d.used⟩

namespace Cache

/-- Whether entry `h` is the copy of donor `d`'s first `n` tokens. -/
def standsFor (m : Tier) (d : Donor) (n : Nat) (h : HostDonor) : Bool :=
  (d.onHost ≠ 0 && h.id == d.onHost) ||
    (h.history.length == n && h.tokens.isPrefixOf d.tokens && m.alike h.classes d.classes n == n)

/-- Entry `i` takes the donor's standing and becomes the newest. -/
def renewHost (c : Cache) (i : Nat) (back : Bool) (now : Int) : Cache :=
  match c.host[i]? with
  | none => c
  | some h => { c with host := c.host.eraseIdx i ++
      [{ h with superseded := false, back := h.back || back, used := now }] }

/-- The entry made for donor `d`, its slabs and tails counted. -/
def keepCopy (c : Cache) (d : Donor) (n : Nat) (saved : HostHistory) : Cache :=
  let id := if d.id ≠ 0 then d.id else c.donorIds + 1
  { c with
    donorIds := if d.id ≠ 0 then c.donorIds else c.donorIds + 1
    host := c.host ++ [⟨id, d.tokens.take n, clip d.classes n, saved, false, d.back, 0, false,
      d.tails, d.used⟩]
    hostHeld := c.hostHeld + (saved.held + tailBytes d.tails)
    hostTails := c.hostTails + tailBytes d.tails }

/-- What the plan releases goes, then the copy is made, `saved` the slabs it took, or `none` where
it throws. -/
def carryOut (c : Cache) (d : Donor) (n : Nat) (plan : HostRoom) (saved : Option HostHistory) :
    Cache × WroteBack :=
  match plan.why with
  | .larger => (c, .refused .larger [])
  | .room => (c, .refused .room [])
  | .memory => (c, .refused .memory [])
  | .outranked => (c.dropAll plan.drops, .refused .outranked plan.drops)
  | .kept =>
    match saved with
    | none => ({ c.dropAll plan.drops with
        donorIds := if d.id ≠ 0 then c.donorIds else c.donorIds + 1 }, .failed plan.drops)
    | some h => ((c.dropAll plan.drops).keepCopy d n h, .kept plan.drops)

/-- Donor `d`'s history copied to host memory as it leaves the devices. -/
def writeBack (c : Cache) (m : Tier) (d : Donor) (now : Int) (saved : Option HostHistory) :
    Cache × WroteBack :=
  if m.hostCap = 0 ∨ d.superseded then (c, .nothing)
  else if m.copyLength d = 0 then (c, .nothing)
  else match c.host.findIdx? (standsFor m d (m.copyLength d)) with
    | some i => (c.renewHost i d.back now, .renewed)
    | none => c.carryOut d (m.copyLength d)
        (c.hostRoom m (m.copyLength d) (donorRank d) (tailBytes d.tails)) saved

end Cache

end HostCache

section Erased

variable {α : Type}

theorem sum_map_eraseP (f : α → Nat) (p : α → Bool) (l : List α) :
    (l.map f).sum = (l.find? p).elim 0 f + ((l.eraseP p).map f).sum := by
  induction l with
  | nil => rfl
  | cons x l ih =>
    cases hp : p x with
    | true => simp [hp]
    | false =>
      simp only [List.find?_cons, hp, List.eraseP_cons, List.map_cons, List.sum_cons, cond_false]
      omega

theorem find?_eraseP {p q : α → Bool} (h : ∀ x, p x → q x = false) (l : List α) :
    (l.eraseP p).find? q = l.find? q := by
  induction l with
  | nil => rfl
  | cons x l ih =>
    cases hp : p x with
    | true => simp [hp, h x hp]
    | false => cases hq : q x <;> simp [hp, hq, ih]

theorem filter_eq_find? {key : α → Nat} {l : List α} (h : (l.map key).Nodup) (k : Nat) :
    (l.filter fun x => key x == k) = (l.find? fun x => key x == k).toList := by
  induction l with
  | nil => rfl
  | cons x l ih =>
    obtain ⟨hx, hl⟩ := List.nodup_cons.mp h
    by_cases hk : key x = k
    · have hnone : (l.filter fun y => key y == k) = [] := by
        apply List.filter_eq_nil_iff.mpr
        intro y hy hyk
        exact hx (List.mem_map.mpr ⟨y, hy, (beq_iff_eq.mp hyk).trans hk.symm⟩)
      simp [hk, hnone]
    · have hne : (key x == k) = false := beq_eq_false_iff_ne.mpr hk
      simp [hne, ih hl]

end Erased

namespace HostCache

theorem wrapSub_eq {a b : Nat} (h : b ≤ a) : wrapSub a b = a - b := if_pos h

@[simp] theorem wrapSub_zero (a : Nat) : wrapSub a 0 = a := if_pos (Nat.zero_le a)

/-- The bytes a copy counts for: its slabs and its images' rows. -/
def HostDonor.bytes (h : HostDonor) : Nat :=
  h.history.held + tailBytes h.tails

namespace Cache

variable {c : Cache} {m : Tier}

/-- The tier's counters against what its entries and reads hold, no two entries of one id. -/
structure Ledger (c : Cache) : Prop where
  held : c.hostHeld = (c.host.map HostDonor.bytes).sum +
    (c.bounds.map fun b => b.state.held).sum + (c.diskReads.map fun rd => rd.history.held).sum
  tails : c.hostTails = (c.host.map fun h => tailBytes h.tails).sum
  hostIds : (c.host.map HostDonor.id).Nodup
  boundIds : (c.bounds.map Boundary.id).Nodup

def findBound (c : Cache) (id : Nat) : Option Boundary :=
  c.bounds.find? fun b => b.id == id

def findHost (c : Cache) (id : Nat) : Option HostDonor :=
  c.host.find? fun h => h.id == id

/-- The bytes dropping entry `e` takes off the tier, and those of them that are images' rows. -/
def bytesOf (c : Cache) (e : Entry) : Nat :=
  if e.bound then (c.findBound e.id).elim 0 fun b => b.state.held
  else (c.findHost e.id).elim 0 HostDonor.bytes

def tailsOf (c : Cache) (e : Entry) : Nat :=
  if e.bound then 0 else (c.findHost e.id).elim 0 fun h => tailBytes h.tails

def Has (c : Cache) (e : Entry) : Prop :=
  if e.bound then (c.findBound e.id).isSome else (c.findHost e.id).isSome

@[simp] theorem releaseEntry_fields (c : Cache) (e : Entry) (h : HostHistory) :
    (c.releaseEntry e h).hostHeld = c.hostHeld ∧ (c.releaseEntry e h).hostTails = c.hostTails ∧
      (c.releaseEntry e h).host = c.host ∧ (c.releaseEntry e h).bounds = c.bounds ∧
      (c.releaseEntry e h).diskReads = c.diskReads ∧ (c.releaseEntry e h).donors = c.donors ∧
      (c.releaseEntry e h).donorIds = c.donorIds := by
  unfold releaseEntry
  split <;> exact ⟨rfl, rfl, rfl, rfl, rfl, rfl, rfl⟩

theorem find?_of_findIdx? {α : Type} {p : α → Bool} {l : List α} {i : Nat}
    (h : l.findIdx? p = some i) : l[i]? = l.find? p := by
  rw [List.find?_eq_getElem?_findIdx]
  rw [(List.findIdx?_eq_some_iff_findIdx_eq.mp h).2]

/-- What dropping an entry does to the tier. -/
theorem drop_spec (c : Cache) (e : Entry) :
    (c.drop e).hostHeld = wrapSub c.hostHeld (c.bytesOf e) ∧
      (c.drop e).hostTails = wrapSub c.hostTails (c.tailsOf e) ∧
      (c.drop e).host = (if e.bound then c.host else c.host.eraseP fun h => h.id == e.id) ∧
      (c.drop e).bounds = (if e.bound then c.bounds.eraseP fun b => b.id == e.id else c.bounds) ∧
      (c.drop e).diskReads = c.diskReads ∧ (c.drop e).donors = c.donors ∧
      (c.drop e).donorIds = c.donorIds := by
  unfold drop bytesOf tailsOf findBound findHost
  split
  next =>
    rw [List.eraseP_eq_eraseIdx]
    split
    next i hi =>
      have hfind := find?_of_findIdx? hi
      obtain ⟨hlt, -⟩ := List.findIdx?_eq_some_iff_getElem.mp hi
      unfold dropBound
      rw [← hfind, List.getElem?_eq_getElem hlt]
      simp [hi]
    next hnone =>
      have hfind : (c.bounds.find? fun b => b.id == e.id) = none :=
        List.find?_eq_none.mpr fun b hb hid => by
          have := List.findIdx?_eq_none_iff.mp hnone b hb
          rw [hid] at this
          cases this
      rw [hfind]
      simp [hnone]
  next =>
    rw [List.eraseP_eq_eraseIdx]
    split
    next i hi =>
      have hfind := find?_of_findIdx? hi
      obtain ⟨hlt, -⟩ := List.findIdx?_eq_some_iff_getElem.mp hi
      unfold dropHost
      rw [← hfind, List.getElem?_eq_getElem hlt]
      simp [HostDonor.bytes, hi]
    next hnone =>
      have hfind : (c.host.find? fun h => h.id == e.id) = none :=
        List.find?_eq_none.mpr fun b hb hid => by
          have := List.findIdx?_eq_none_iff.mp hnone b hb
          rw [hid] at this
          cases this
      rw [hfind]
      simp [hnone]

theorem Ledger.bytesOf_le (h : c.Ledger) (e : Entry) :
    c.bytesOf e ≤ c.hostHeld ∧ c.tailsOf e ≤ c.hostTails := by
  have hhost := sum_map_eraseP HostDonor.bytes (fun h => h.id == e.id) c.host
  have hbounds := sum_map_eraseP (fun b : Boundary => b.state.held) (fun b => b.id == e.id) c.bounds
  have htails := sum_map_eraseP (fun h : HostDonor => tailBytes h.tails) (fun h => h.id == e.id)
    c.host
  rw [h.held, h.tails]
  unfold bytesOf tailsOf findBound findHost
  split <;> omega

theorem Ledger.drop (h : c.Ledger) (e : Entry) : (c.drop e).Ledger := by
  obtain ⟨hheld, htails, hhost, hbounds, hreads, -, -⟩ := drop_spec c e
  obtain ⟨hle, htle⟩ := h.bytesOf_le e
  rw [wrapSub_eq hle, h.held] at hheld
  rw [wrapSub_eq htle, h.tails] at htails
  unfold bytesOf findBound findHost at hheld
  unfold tailsOf findHost at htails
  have hhs := sum_map_eraseP HostDonor.bytes (fun h => h.id == e.id) c.host
  have hbs := sum_map_eraseP (fun b : Boundary => b.state.held) (fun b => b.id == e.id) c.bounds
  have hts := sum_map_eraseP (fun h : HostDonor => tailBytes h.tails) (fun h => h.id == e.id) c.host
  by_cases hb : e.bound = true
  · rw [if_pos hb] at hheld htails hhost hbounds
    refine ⟨?_, ?_, ?_, ?_⟩
    · rw [hheld, hhost, hbounds, hreads]
      omega
    · rw [htails, hhost]
      rfl
    · rw [hhost]
      exact h.hostIds
    · rw [hbounds]
      exact h.boundIds.sublist (List.eraseP_sublist.map _)
  · rw [if_neg hb] at hheld htails hhost hbounds
    refine ⟨?_, ?_, ?_, ?_⟩
    · rw [hheld, hhost, hbounds, hreads]
      omega
    · rw [htails, hhost]
      omega
    · rw [hhost]
      exact h.hostIds.sublist (List.eraseP_sublist.map _)
    · rw [hbounds]
      exact h.boundIds

theorem Ledger.drop_held (h : c.Ledger) (e : Entry) :
    (c.drop e).hostHeld = c.hostHeld - c.bytesOf e := by
  rw [(drop_spec c e).1, wrapSub_eq (h.bytesOf_le e).1]

theorem Ledger.dropAll (h : c.Ledger) (es : List Entry) : (c.dropAll es).Ledger := by
  induction es generalizing c with
  | nil => exact h
  | cons e es ih => exact ih (h.drop e)

theorem findBound_drop {e e' : Entry} (he : e ≠ e') (hb : e'.bound = true) :
    (c.drop e).findBound e'.id = c.findBound e'.id := by
  unfold findBound
  rw [(drop_spec c e).2.2.2.1]
  split
  next heb =>
    apply find?_eraseP
    intro b hid
    have hne : e.id ≠ e'.id := fun hc => he (by cases e; cases e'; simp_all)
    rw [beq_iff_eq.mp hid]
    exact beq_eq_false_iff_ne.mpr hne
  next => rfl

theorem findHost_drop {e e' : Entry} (he : e ≠ e') (hb : ¬ e'.bound = true) :
    (c.drop e).findHost e'.id = c.findHost e'.id := by
  unfold findHost
  rw [(drop_spec c e).2.2.1]
  split
  next => rfl
  next heb =>
    apply find?_eraseP
    intro b hid
    have hne : e.id ≠ e'.id := fun hc => he (by cases e; cases e'; simp_all)
    rw [beq_iff_eq.mp hid]
    exact beq_eq_false_iff_ne.mpr hne

theorem bytesOf_drop {e e' : Entry} (he : e ≠ e') : (c.drop e).bytesOf e' = c.bytesOf e' := by
  unfold bytesOf
  split
  next hb => rw [findBound_drop he hb]
  next hb => rw [findHost_drop he hb]

/-- Distinct entries dropped take off what each counted for. -/
theorem Ledger.dropAll_held (h : c.Ledger) {es : List Entry} (hes : es.Nodup) :
    (c.dropAll es).hostHeld = c.hostHeld - (es.map c.bytesOf).sum := by
  induction es generalizing c with
  | nil => rfl
  | cons e es ih =>
    obtain ⟨he, hes⟩ := List.nodup_cons.mp hes
    have hsame : es.map (c.drop e).bytesOf = es.map c.bytesOf :=
      List.map_congr_left fun e' he' => bytesOf_drop fun hc => he (hc ▸ he')
    show ((c.drop e).dropAll es).hostHeld = _
    rw [ih (h.drop e) hes, hsame, h.drop_held, List.map_cons, List.sum_cons]
    omega

end Cache

end HostCache

end Llmx
