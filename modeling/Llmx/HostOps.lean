import Llmx.HostLedger

namespace Llmx

section StableSort

variable {α : Type} {less : α → α → Bool}

/-- The head of a stable sort is the first of the least. -/
theorem head?_insertionSort (hasymm : ∀ a b, less a b → ¬ less b a)
    (htrans : ∀ a b c, ¬ less b a → ¬ less c b → ¬ less c a) {l : List α} {k : α} :
    (l.insertionSort fun a b => ¬ less b a).head? = some k ↔
      ∃ before after, l = before ++ k :: after ∧ (∀ x ∈ before, less k x) ∧
        ∀ x ∈ after, ¬ less x k := by
  induction l generalizing k with
  | nil => simp
  | cons x l ih =>
    rw [List.insertionSort_cons]
    cases hs : l.insertionSort fun a b => ¬ less b a with
    | nil =>
      have hl : l = [] := List.length_eq_zero_iff.mp (by
        rw [← List.length_insertionSort (fun a b => ¬ less b a) l, hs]
        rfl)
      subst hl
      constructor
      · intro h
        cases h
        exact ⟨[], [], rfl, by simp, by simp⟩
      · rintro ⟨before, after, hsplit, -, -⟩
        cases before with
        | nil =>
          cases hsplit
          rfl
        | cons y before => simp at hsplit
    | cons y s =>
      rw [hs] at ih
      obtain ⟨b, a, hl, hb, ha⟩ := (ih (k := y)).mp rfl
      have hleast : ∀ z ∈ l, ¬ less z y := by
        intro z hz
        rw [hl] at hz
        rcases List.mem_append.mp hz with hz | hz
        · exact hasymm _ _ (hb z hz)
        · rcases List.mem_cons.mp hz with rfl | hz
          · exact fun h => hasymm _ _ h h
          · exact ha z hz
      have hy : y ∈ l := by
        rw [hl]
        exact List.mem_append_right _ List.mem_cons_self
      rw [List.orderedInsert_cons]
      split
      next hyx =>
        constructor
        · intro h
          cases h
          exact ⟨[], l, rfl, by simp, fun z hz => htrans _ _ _ hyx (hleast z hz)⟩
        · rintro ⟨before, after, hsplit, hbefore, hafter⟩
          cases before with
          | nil =>
            cases hsplit
            rfl
          | cons z before =>
            cases hsplit
            have hhead := (ih (k := k)).mpr ⟨before, after, rfl,
              fun w hw => hbefore w (List.mem_cons_of_mem _ hw), hafter⟩
            cases hhead
            exact absurd (hbefore x List.mem_cons_self) hyx
      next hyx =>
        have hyx : less y x := by simpa using hyx
        constructor
        · intro h
          cases h
          refine ⟨x :: b, a, by rw [hl]; rfl, ?_, ha⟩
          intro z hz
          rcases List.mem_cons.mp hz with rfl | hz
          · exact hyx
          · exact hb z hz
        · rintro ⟨before, after, hsplit, hbefore, hafter⟩
          cases before with
          | nil =>
            cases hsplit
            exact absurd hyx (hafter y hy)
          | cons z before =>
            cases hsplit
            exact (ih (k := k)).mpr ⟨before, after, rfl,
              fun w hw => hbefore w (List.mem_cons_of_mem _ hw), hafter⟩

end StableSort

namespace HostCache

theorem Rank.less_iff {a b : Rank} :
    a.less b ↔ a.cls < b.cls ∨ a.cls = b.cls ∧ a.used < b.used := by
  unfold Rank.less
  split
  next hne =>
    simp only [decide_eq_true_eq]
    omega
  next heq =>
    simp only [decide_eq_true_eq]
    omega

theorem Keyed.less_iff {a b : Keyed} :
    a.less b ↔ a.soon = false ∧ b.soon = true ∨ a.soon = b.soon ∧ a.rank.less b.rank := by
  unfold Keyed.less
  cases a.soon <;> cases b.soon <;> simp

theorem Keyed.less_asymm (a b : Keyed) (h : a.less b) : ¬ b.less a := by
  rw [Keyed.less_iff, Rank.less_iff] at *
  cases ha : a.soon <;> cases hb : b.soon <;> simp_all <;> omega

theorem Keyed.less_trans (a b c : Keyed) (hba : ¬ b.less a) (hcb : ¬ c.less b) : ¬ c.less a := by
  rw [Keyed.less_iff, Rank.less_iff] at *
  cases ha : a.soon <;> cases hb : b.soon <;> cases hc : c.soon <;> simp_all <;> omega

namespace Cache

variable {c : Cache} {m : Tier} {mine : Rank} {e : Entry}

/-- Entry `e` is there, not pinned, and ranks below `mine`. -/
def GivesWay (c : Cache) (m : Tier) (mine : Rank) (e : Entry) : Prop :=
  if e.bound then
    ∃ b ∈ c.bounds, b.id = e.id ∧ b.id ≠ c.pinnedBound ∧ (c.rankBound m b).less mine
  else
    ∃ h ∈ c.host, h.id = e.id ∧ h.id ≠ c.promoting ∧ c.readSource h.id = false ∧
      (c.rankHost m h).less mine

/-- Entry `e` is the first of the least of those that give way to `mine`. -/
def ComesFirst (c : Cache) (m : Tier) (mine : Rank) (e : Entry) : Prop :=
  ∃ before k after, c.keyed m = before ++ k :: after ∧ k.entry = e ∧ k.rank.less mine ∧
    (∀ x ∈ before, x.rank.less mine → k.less x) ∧ ∀ x ∈ after, x.rank.less mine → ¬ x.less k

theorem mem_keyed_iff : (∃ k ∈ c.keyed m, k.entry = e ∧ k.rank.less mine) ↔
    c.GivesWay m mine e := by
  obtain ⟨bound, id⟩ := e
  unfold keyed GivesWay
  cases bound with
  | true =>
    rw [if_pos rfl]
    constructor
    · rintro ⟨k, hk, hid, hless⟩
      rcases List.mem_append.mp hk with hk | hk
      · obtain ⟨b, hb, rfl⟩ := List.mem_map.mp hk
        obtain ⟨hb, hpin⟩ := List.mem_filter.mp hb
        exact ⟨b, hb, (Entry.mk.inj hid).2, of_decide_eq_true hpin, hless⟩
      · obtain ⟨h, -, rfl⟩ := List.mem_map.mp hk
        cases (Entry.mk.inj hid).1
    · rintro ⟨b, hb, rfl, hpin, hless⟩
      refine ⟨_, List.mem_append_left _ (List.mem_map.mpr ⟨b, ?_, rfl⟩), rfl, hless⟩
      exact List.mem_filter.mpr ⟨hb, decide_eq_true hpin⟩
  | false =>
    rw [if_neg Bool.false_ne_true]
    constructor
    · rintro ⟨k, hk, hid, hless⟩
      rcases List.mem_append.mp hk with hk | hk
      · obtain ⟨b, -, rfl⟩ := List.mem_map.mp hk
        cases (Entry.mk.inj hid).1
      · obtain ⟨h, hh, rfl⟩ := List.mem_map.mp hk
        obtain ⟨hh, hpin⟩ := List.mem_filter.mp hh
        simp only [ne_eq, Bool.and_eq_true, decide_eq_true_eq, Bool.not_eq_true'] at hpin
        exact ⟨h, hh, (Entry.mk.inj hid).2, hpin.1, hpin.2, hless⟩
    · rintro ⟨h, hh, rfl, hpin, hsource, hless⟩
      refine ⟨_, List.mem_append_right _ (List.mem_map.mpr ⟨h, ?_, rfl⟩), rfl, hless⟩
      exact List.mem_filter.mpr ⟨hh, by simp [hpin, hsource]⟩

theorem mem_hostVictims : e ∈ c.hostVictims m mine ↔ c.GivesWay m mine e := by
  rw [← mem_keyed_iff]
  unfold hostVictims
  simp only [List.mem_map, List.mem_insertionSort, List.mem_filter]
  grind

theorem ComesFirst.givesWay (h : c.ComesFirst m mine e) : c.GivesWay m mine e := by
  obtain ⟨before, k, after, hkeyed, hk, hless, -, -⟩ := h
  apply mem_keyed_iff.mp
  refine ⟨k, ?_, hk, hless⟩
  rw [hkeyed]
  exact List.mem_append_right _ List.mem_cons_self

theorem head?_hostVictims : (c.hostVictims m mine).head? = some e ↔ c.ComesFirst m mine e := by
  unfold hostVictims ComesFirst
  rw [List.head?_map, Option.map_eq_some_iff]
  constructor
  · rintro ⟨k, hk, rfl⟩
    obtain ⟨before, after, hsplit, hb, ha⟩ :=
      (head?_insertionSort Keyed.less_asymm Keyed.less_trans).mp hk
    obtain ⟨l₁, l₂, hkeyed, rfl, hl₂⟩ := List.filter_eq_append_iff.mp hsplit
    obtain ⟨l₃, l₄, rfl, hno, hless, rfl⟩ := List.filter_eq_cons_iff.mp hl₂
    refine ⟨l₁ ++ l₃, k, l₄, by rw [hkeyed, List.append_assoc], rfl, hless, ?_, ?_⟩
    · intro x hx hxm
      rcases List.mem_append.mp hx with hx | hx
      · exact hb x (List.mem_filter.mpr ⟨hx, hxm⟩)
      · exact absurd hxm (hno x hx)
    · intro x hx hxm
      exact ha x (List.mem_filter.mpr ⟨hx, hxm⟩)
  · rintro ⟨before, k, after, hkeyed, hk, hless, hb, ha⟩
    refine ⟨k, ?_, hk⟩
    apply (head?_insertionSort Keyed.less_asymm Keyed.less_trans).mpr
    refine ⟨before.filter fun k => k.rank.less mine, after.filter fun k => k.rank.less mine,
      ?_, ?_, ?_⟩
    · rw [hkeyed, List.filter_append, List.filter_cons_of_pos (by exact hless)]
    · intro x hx
      exact hb x (List.mem_filter.mp hx).1 (List.mem_filter.mp hx).2
    · intro x hx
      exact ha x (List.mem_filter.mp hx).1 (List.mem_filter.mp hx).2

end Cache

end HostCache

namespace HostCache

/-- What an operation on the host tier came to, with the entries it dropped for room. -/
inductive Outcome
  | nothing
  | renewed
  | ended
  | refused (drops : List Entry)
  | failed (drops : List Entry)
  | kept (drops : List Entry)
deriving DecidableEq

def WroteBack.outcome : WroteBack → Outcome
  | .nothing => .nothing
  | .renewed => .renewed
  | .refused _ drops => .refused drops
  | .failed drops => .failed drops
  | .kept drops => .kept drops

namespace Cache

/-- The boundaries a conversation's use renews, and whether the one at `n` is among them. -/
def renewBounds (m : Tier) (n : Nat) (tokens : List UInt32) (classes : List RowClass) (back : Bool)
    (now : Int) : List Boundary → List Boundary × Bool
  | [] => ([], false)
  | b :: bs =>
    if n < b.tokens.length ∨ ¬ b.tokens.isPrefixOf tokens then
      (b :: (renewBounds m n tokens classes back now bs).1,
        (renewBounds m n tokens classes back now bs).2)
    else if b.tokens.length = n ∧ m.alike b.classes classes n = n then
      ({ b with used := now, back := b.back || back } :: bs, true)
    else
      ({ b with used := now, back := b.back || back } ::
        (renewBounds m n tokens classes back now bs).1,
        (renewBounds m n tokens classes back now bs).2)

/-- The boundary made and its copy, or nothing where the copy throws. -/
def saveBound (c : Cache) (n : Nat) (tokens : List UInt32) (classes : List RowClass)
    (back spare : Bool) (now : Int) (drops : List Entry) (saved : Option HostHistory) :
    Cache × Outcome :=
  match saved with
  | none => ({ c with donorIds := c.donorIds + 1 }, .failed drops)
  | some h =>
    ({ c with
      donorIds := c.donorIds + 1
      bounds := c.bounds ++
        [⟨c.donorIds + 1, tokens.take n, clip classes n, h, 0, now, back, false, spare⟩]
      hostHeld := c.hostHeld + h.held }, .kept drops)

def boundRoom (c : Cache) (m : Tier) (n : Nat) (tokens : List UInt32) (classes : List RowClass)
    (back spare : Bool) (now : Int) (saved : Option HostHistory) : Cache × Outcome :=
  if spare then
    if m.hostCap < c.hostHeld + m.hostBytes n false then (c, .refused [])
    else c.saveBound n tokens classes back spare now [] saved
  else
    let r := c.hostRoomFor m (m.hostBytes n false) ⟨if back then 2 else 1, now⟩
    if r.1.hostHeld + m.hostBytes n false ≤ m.hostCap then
      r.1.saveBound n tokens classes back spare now r.2 saved
    else (r.1, .refused r.2)

/-- The checkpoint of a history kept as a boundary; one already kept is renewed. -/
def keepBoundary (c : Cache) (m : Tier) (kept : Option Nat) (tokens : List UInt32)
    (classes : List RowClass) (back spare : Bool) (now : Int) (saved : Option HostHistory) :
    Cache × Outcome :=
  if m.hostCap = 0 ∨ ¬ m.keepsState then (c, .nothing)
  else match kept with
    | none => (c, .nothing)
    | some n =>
      if n = 0 ∨ n % m.blockTokens ≠ 0 ∨ tokens.length < n then (c, .nothing)
      else
        let r := renewBounds m n tokens classes back now c.bounds
        if r.2 then ({ c with bounds := r.1 }, .renewed)
        else ({ c with bounds := r.1 } : Cache).boundRoom m n tokens classes back spare now saved

/-- The slabs taken for a read and the read sent, `readId` 0 where it could not be. -/
def sendRead (c : Cache) (length : Nat) (stateOnly : Bool) (tokens : List UInt32)
    (classes : List RowClass) (source : Nat) (drops : List Entry) (taken : Option HostHistory)
    (readId : Nat) : Cache × Outcome :=
  match taken with
  | none => (c, .refused drops)
  | some h =>
    if readId = 0 then (c, .refused drops)
    else ({ c with
      hostHeld := c.hostHeld + h.held
      diskReads := c.diskReads ++
        [⟨readId, h, stateOnly, source, tokens.take length, clip classes length⟩] }, .kept drops)

/-- Room made for a read, no room ever that of the entry whose rows it is for. -/
def readRoom (c : Cache) (m : Tier) (bytes source : Nat) (now : Int) : Cache × List Entry :=
  let r := ({ c with readingFor := source } : Cache).hostRoomFor m bytes ⟨2, now⟩
  ({ r.1 with readingFor := 0 }, r.2)

/-- The read of a whole history; one larger than the tier is streamed to the devices instead. -/
def startBlocks (c : Cache) (m : Tier) (length : Nat) (tokens : List UInt32)
    (classes : List RowClass) (now : Int) (taken : Nat → Bool → Option HostHistory) (readId : Nat)
    (before : List Entry) : Cache × Outcome :=
  if m.hostCap < m.hostBytes length true then (c, .refused before)
  else
    let r := c.readRoom m (m.hostBytes length true) 0 now
    if m.hostCap < r.1.hostHeld + m.hostBytes length true then (r.1, .refused (before ++ r.2))
    else r.1.sendRead length false tokens classes 0 (before ++ r.2) (taken length true) readId

/-- The read of a state alone, for the rows entry `source` holds; where it has no room, the blocks
of `whole` with it. -/
def startState (c : Cache) (m : Tier) (length : Nat) (tokens : List UInt32)
    (classes : List RowClass) (source : Nat) (whole : Option Nat) (now : Int)
    (taken : Nat → Bool → Option HostHistory) (readId : Nat) : Cache × Outcome :=
  if m.hostCap < m.hostBytes length false then (c, .refused [])
  else
    let r := c.readRoom m (m.hostBytes length false) source now
    if m.hostCap < r.1.hostHeld + m.hostBytes length false then
      match (if source ≠ 0 then whole else none) with
      | some length' => r.1.startBlocks m length' tokens classes now taken readId r.2
      | none => (r.1, .refused r.2)
    else r.1.sendRead length true tokens classes source r.2 (taken length false) readId

def startRead (c : Cache) (m : Tier) (length : Nat) (stateOnly : Bool) (tokens : List UInt32)
    (classes : List RowClass) (source : Nat) (whole : Option Nat) (now : Int)
    (taken : Nat → Bool → Option HostHistory) (readId : Nat) : Cache × Outcome :=
  if stateOnly then c.startState m length tokens classes source whole now taken readId
  else c.startBlocks m length tokens classes now taken readId []

/-- The entry of that id becomes the newest copy. -/
def rotateHost (c : Cache) (id : Nat) : Cache :=
  match c.host.findIdx? fun h => h.id == id with
  | none => c
  | some i => { c with host := c.host.eraseIdx i ++ c.host[i]?.toList }

/-- What a read that ended leaves: a boundary or a copy of the slabs it had. -/
def landRead (c : Cache) (rd : DiskRead) (now : Int) : Cache :=
  if rd.stateOnly then
    { c.rotateHost rd.source with
      donorIds := c.donorIds + 1
      bounds := c.bounds ++ [⟨c.donorIds + 1, rd.tokens, rd.classes, rd.history, 0, now, false,
        false, false⟩] }
  else
    { c with
      donorIds := c.donorIds + 1
      host := c.host ++ [⟨c.donorIds + 1, rd.tokens, rd.classes, rd.history, false, true, 0, true,
        [], now⟩] }

def finishRead (c : Cache) (id : Nat) (ok : Bool) (now : Int) : Cache × Outcome :=
  match c.diskReads.findIdx? fun rd => rd.id == id with
  | none => (c, .nothing)
  | some i =>
    match c.diskReads[i]? with
    | none => (c, .nothing)
    | some rd =>
      if ok then (({ c with diskReads := c.diskReads.eraseIdx i } : Cache).landRead rd now, .kept [])
      else ({ c with
        diskReads := c.diskReads.eraseIdx i
        hostHeld := wrapSub c.hostHeld rd.history.held }, .ended)

/-- A proof that ended equal: the path it read is a copy from here, where only what loses nothing
gives it room. -/
def provedEqual (c : Cache) (m : Tier) (owner : Bool) (proved : HostHistory) (prompt : List UInt32)
    (classes : List RowClass) (now : Int) : Cache × Outcome :=
  let r := c.hostRoomFor m proved.held ⟨1, 0⟩
  if owner ∧ r.1.hostHeld + proved.held ≤ m.hostCap then
    ({ r.1 with
      donorIds := r.1.donorIds + 1
      host := r.1.host ++ [⟨r.1.donorIds + 1, prompt.take proved.length,
        clip classes proved.length, proved, false, true, 0, false, [], now⟩]
      hostHeld := r.1.hostHeld + proved.held }, .kept r.2)
  else (r.1, .refused r.2)

/-- Donor `i` evicted: copied back as far as the tier takes it, its blocks given up. -/
def evict (c : Cache) (m : Tier) (i : Nat) (now : Int) (saved : Option HostHistory) :
    Cache × Outcome :=
  match c.donors[i]? with
  | none => (c, .nothing)
  | some d =>
    ({ (c.writeBack m d now saved).1 with donors := c.donors.eraseIdx i },
      (c.writeBack m d now saved).2.outcome)

end Cache

/-- An operation on the host tier, with what the model and the disk answered it. -/
inductive Op
  | writeBack (i : Nat) (now : Int) (saved : Option HostHistory)
  | keepBoundary (kept : Option Nat) (tokens : List UInt32) (classes : List RowClass)
      (back spare : Bool) (now : Int) (saved : Option HostHistory)
  | startRead (length : Nat) (stateOnly : Bool) (tokens : List UInt32) (classes : List RowClass)
      (source : Nat) (whole : Option Nat) (now : Int)
      (taken : Nat → Bool → Option HostHistory) (readId : Nat)
  | finishRead (id : Nat) (ok : Bool) (now : Int)
  | proved (owner : Bool) (history : HostHistory) (prompt : List UInt32) (classes : List RowClass)
      (now : Int)
  | dropBound (i : Nat)
  | dropHost (i : Nat)

namespace Cache

def act (c : Cache) (m : Tier) : Op → Cache × Outcome
  | .writeBack i now saved => c.evict m i now saved
  | .keepBoundary kept tokens classes back spare now saved =>
    c.keepBoundary m kept tokens classes back spare now saved
  | .startRead length stateOnly tokens classes source whole now taken readId =>
    c.startRead m length stateOnly tokens classes source whole now taken readId
  | .finishRead id ok now => c.finishRead id ok now
  | .proved owner history prompt classes now => c.provedEqual m owner history prompt classes now
  | .dropBound i => (c.dropBound i, .ended)
  | .dropHost i => (c.dropHost i, .ended)

/-- The model takes at most `hostBytes` of slabs for a copy. -/
def Takes (c : Cache) (m : Tier) : Op → Prop
  | .writeBack i _ saved => ∀ d ∈ c.donors[i]?, ∀ h ∈ saved,
      h.held ≤ m.hostBytes (m.copyLength d) true
  | .keepBoundary kept _ _ _ _ _ saved => ∀ n ∈ kept, ∀ h ∈ saved, h.held ≤ m.hostBytes n false
  | .startRead _ _ _ _ _ _ _ taken _ => ∀ n blocks, ∀ h ∈ taken n blocks,
      h.held ≤ m.hostBytes n blocks
  | _ => True

/-- The cache as it starts, no donor and nothing in the tier. -/
structure Fresh (c : Cache) : Prop where
  donors : c.donors = []
  host : c.host = []
  bounds : c.bounds = []
  diskReads : c.diskReads = []
  hostHeld : c.hostHeld = 0
  hostTails : c.hostTails = 0

/-- What the rest of the cache does: donors come with new ids and go, entries are marked, ordered
and pinned anew, the disk's writes go on; what the entries and reads hold stays. -/
structure Elsewhere (c c' : Cache) : Prop where
  host : (c'.host.map fun h => (h.id, h.history, h.tails)).Perm
    (c.host.map fun h => (h.id, h.history, h.tails))
  bounds : (c'.bounds.map fun b => (b.id, b.state)).Perm (c.bounds.map fun b => (b.id, b.state))
  diskReads : c'.diskReads = c.diskReads
  hostHeld : c'.hostHeld = c.hostHeld
  hostTails : c'.hostTails = c.hostTails
  donorIds : c.donorIds ≤ c'.donorIds
  nodup : (c'.donors.map Donor.id).Nodup
  donors : ∀ d ∈ c'.donors, d.id ∈ c.donors.map Donor.id ∨
    c.donorIds < d.id ∧ d.id ≤ c'.donorIds

inductive Reachable (m : Tier) : Cache → Prop
  | start {c : Cache} (h : c.Fresh) : Reachable m c
  | act {c : Cache} (h : Reachable m c) (op : Op) (ht : c.Takes m op) : Reachable m (c.act m op).1
  | elsewhere {c c' : Cache} (h : Reachable m c) (he : c.Elsewhere c') : Reachable m c'

end Cache

end HostCache

end Llmx
