import Llmx.MessageEndRuns
import Mathlib.Data.List.GetD

namespace Llmx

namespace MessageEnds

/-- The first message from `lo` up to `hi` that ends at `target` or later, by halving. -/
def halve (c : MessageEnds) (target lo hi : Nat) : Nat × MessageEnds :=
  if lo < hi then
    let mid := lo + (hi - lo) / 2
    if target ≤ (c.ask mid).1 then (c.ask mid).2.halve target lo mid
    else (c.ask mid).2.halve target (mid + 1) hi
  else (lo, c)
termination_by hi - lo

end MessageEnds

/-- The first turn start from message `k` on. -/
def nextStart (starts : List Bool) (k : Nat) : Nat :=
  k + ((starts.drop k).takeWhile fun s => !s).length

/-- The last turn start before message `fits` and past the first after the leading ones. -/
def startBefore (starts : List Bool) (lead : Nat) : Nat → Option Nat
  | 0 => none
  | k + 1 =>
    if lead + 1 < k + 1 then (if starts.getD k false then some k else startBefore starts lead k)
    else none

namespace MessageEnds

/-- The first turn start after the leading messages whose predecessor ends at `target` or later, or
the count. -/
def firstStart (c : MessageEnds) (starts : List Bool) (lead target : Nat) : Nat × MessageEnds :=
  let found := c.halve target lead starts.length
  (min (nextStart starts (max (found.1 + 1) (lead + 1))) starts.length, found.2)

/-- The first of the steps' starts that leaves room, or `fits` where none does. -/
def stepStart (c : MessageEnds) (starts : List Bool) (lead n step head j fits : Nat) :
    Nat × MessageEnds :=
  if step ≠ 0 ∧ head + j * step < n then
    let k := c.firstStart starts lead (head + j * step)
    if k.1 < starts.length then k else (fits, k.2)
  else (fits, c)

/-- The first message a conversation of `n` rows keeps after its `lead` leading ones, or the count. -/
def firstKept (c : MessageEnds) (starts : List Bool) (lead n fit step : Nat) : Nat × MessageEnds :=
  let head := if lead ≠ 0 then c.ask (lead - 1) else (0, c)
  let need := if fit < head.1 + n then head.1 + n - fit else 0
  let fits := head.2.firstStart starts lead need
  if fits.1 = starts.length then fits
  else
    match startBefore starts lead fits.1 with
    | some before =>
      let past := fits.2.ask (before - 1)
      let j := if step ≠ 0 ∧ head.1 ≤ past.1 then (past.1 - head.1) / step + 1 else 1
      past.2.stepStart starts lead n step head.1 j fits.1
    | none => fits.2.stepStart starts lead n step head.1 1 fits.1

end MessageEnds

/-- A conversation's messages: where each ends, which start a turn, how many lead, and the rows the
prompt takes and may keep. -/
structure Conversation where
  ends : List Nat
  starts : List Bool
  lead : Nat
  n : Nat
  fit : Nat
  step : Nat
deriving DecidableEq, Repr

namespace Conversation

def endOf (c : Conversation) (m : Nat) : Nat := c.ends.getD m 0

/-- The rows the leading messages take. -/
def head (c : Conversation) : Nat := if c.lead ≠ 0 then c.endOf (c.lead - 1) else 0

/-- A turn start after the leading messages. -/
def IsStart (c : Conversation) (k : Nat) : Prop :=
  c.lead < k ∧ k < c.starts.length ∧ c.starts.getD k false = true

/-- Kept from message `k` on the conversation takes at most the room. -/
def Leaves (c : Conversation) (k : Nat) : Prop := c.head + c.n ≤ c.fit + c.endOf (k - 1)

/-- The first turn start after the leading messages whose predecessor ends at `target` or later. -/
def FirstStart (c : Conversation) (target k : Nat) : Prop :=
  c.IsStart k ∧ target ≤ c.endOf (k - 1) ∧ ∀ i, c.IsStart i → i < k → c.endOf (i - 1) < target

/-- Message `k` is the start `j` steps past the leading rows and leaves the room. -/
def Serves (c : Conversation) (j k : Nat) : Prop :=
  c.FirstStart (c.head + j * c.step) k ∧ c.Leaves k

/-- What a scan over the steps `j = 1, 2, …` whose place is `inside` gives: the start of the fewest
steps that leaves the room, else the first start that does, else the count. -/
inductive Scanned (c : Conversation) (inside : Nat → Prop) : Nat → Prop
  | step (j k : Nat) (pos : 1 ≤ j) (place : inside (c.head + j * c.step)) (serves : c.Serves j k)
      (least : ∀ i, 1 ≤ i → i < j → ∀ k, ¬c.Serves i k) : Scanned c inside k
  | fitting (k : Nat) (none : ∀ j k, 1 ≤ j → inside (c.head + j * c.step) → ¬c.Serves j k)
      (start : c.IsStart k) (leaves : c.Leaves k) (least : ∀ i, c.IsStart i → i < k → ¬c.Leaves i) :
      Scanned c inside k
  | count (none : ∀ k, c.IsStart k → ¬c.Leaves k) : Scanned c inside c.starts.length

end Conversation

namespace MessageEnds

theorem known_ask {ends : List Nat} {m : Nat} (h : m < ends.length) :
    (known ends).ask m = (ends.getD m 0, known ends) := by
  have hend : (known ends).ends[m]?.join = some (ends.getD m 0) := by
    show (ends.map some)[m]?.join = some (ends.getD m 0)
    rw [List.getElem?_map, List.getElem?_eq_getElem h, List.getD_eq_getElem?_getD,
      List.getElem?_eq_getElem h]
    rfl
  rw [ask, hend]

end MessageEnds

theorem getD_mono {ends : List Nat} (hs : ends.Pairwise (· ≤ ·)) {i j : Nat} (hij : i ≤ j)
    (hj : j < ends.length) : ends.getD i 0 ≤ ends.getD j 0 := by
  rw [List.getD_eq_getElem _ 0 (by omega), List.getD_eq_getElem _ 0 hj]
  by_cases heq : i = j
  · exact Nat.le_of_eq (by simp only [heq])
  · exact List.pairwise_iff_getElem.mp hs i j (by omega) hj (by omega)

namespace MessageEnds

/-- Halving over known ends finds the first at `target` or later, and asks for nothing new. -/
theorem known_halve {ends : List Nat} (hs : ends.Pairwise (· ≤ ·)) (target : Nat) {lo hi : Nat}
    (hlo : lo ≤ hi) (hhi : hi ≤ ends.length) :
    ∃ k, (known ends).halve target lo hi = (k, known ends) ∧ lo ≤ k ∧ k ≤ hi ∧
      (∀ i, lo ≤ i → i < k → ends.getD i 0 < target) ∧
      ∀ i, k ≤ i → i < hi → target ≤ ends.getD i 0 := by
  obtain ⟨d, rfl⟩ := Nat.exists_eq_add_of_le hlo
  induction d using Nat.strongRecOn generalizing lo with
  | ind d ih =>
    rw [halve]
    split
    next hlt =>
      dsimp only
      rw [known_ask (by omega)]
      have hmid : lo + (lo + d - lo) / 2 < lo + d := by omega
      split
      next htarget =>
        obtain ⟨k, hk, hlow, hhigh, hbelow, habove⟩ := ih ((lo + d - lo) / 2) (by omega)
          (Nat.le_add_right lo _) (by omega)
        refine ⟨k, hk, hlow, by omega, hbelow, fun i hi hi' => ?_⟩
        by_cases hbefore : i < lo + (lo + d - lo) / 2
        · exact habove i hi hbefore
        · exact htarget.trans
            (getD_mono hs (show lo + (lo + d - lo) / 2 ≤ i by omega) (by omega))
      next htarget =>
        have heq : lo + (lo + d - lo) / 2 + 1 + (d - (lo + d - lo) / 2 - 1) = lo + d := by omega
        obtain ⟨k, hk, hlow, hhigh, hbelow, habove⟩ := ih (d - (lo + d - lo) / 2 - 1) (by omega)
          (Nat.le_add_right (lo + (lo + d - lo) / 2 + 1) _) (by omega)
        rw [heq] at hk hhigh habove
        refine ⟨k, hk, by omega, hhigh, fun i hi hi' => ?_, habove⟩
        by_cases hbefore : lo + (lo + d - lo) / 2 + 1 ≤ i
        · exact hbelow i hbefore hi'
        · have := getD_mono hs (show i ≤ lo + (lo + d - lo) / 2 by omega) (by omega)
          omega
    next hlt =>
      exact ⟨lo, rfl, Nat.le_refl _, by omega, fun i hi hi' => absurd hi' (by omega),
        fun i hi hi' => absurd hi' (by omega)⟩

end MessageEnds

theorem nextStart_le (starts : List Bool) (k : Nat) : k ≤ nextStart starts k := Nat.le_add_right _ _

/-- No message before the next turn start begins a turn, and it does where there is one. -/
theorem nextStart_spec (starts : List Bool) (k : Nat) :
    (∀ i, k ≤ i → i < nextStart starts k → starts.getD i false = false) ∧
      (nextStart starts k < starts.length → starts.getD (nextStart starts k) false = true) := by
  unfold nextStart
  have hget : ∀ i, starts.getD (k + i) false = (starts.drop k).getD i false := by
    intro i
    rw [List.getD_eq_getElem?_getD, List.getD_eq_getElem?_getD, List.getElem?_drop]
  have hmain : ∀ ss : List Bool, (∀ i < (ss.takeWhile fun s => !s).length, ss.getD i false = false) ∧
      ((ss.takeWhile fun s => !s).length < ss.length →
        ss.getD (ss.takeWhile fun s => !s).length false = true) := by
    intro ss
    induction ss with
    | nil => simp
    | cons s ss ih =>
      cases s with
      | true => simp
      | false =>
        obtain ⟨hbefore, hat⟩ := ih
        rw [List.takeWhile_cons, if_pos (show (!false) = true from rfl), List.length_cons]
        refine ⟨fun i hi => ?_, fun hlt => ?_⟩
        · cases i with
          | zero => rfl
          | succ i => exact hbefore i (by omega)
        · exact hat (by rw [List.length_cons] at hlt; omega)
  obtain ⟨hbefore, hat⟩ := hmain (starts.drop k)
  refine ⟨fun i hi hi' => ?_, fun hlt => ?_⟩
  · obtain ⟨d, rfl⟩ := Nat.exists_eq_add_of_le hi
    rw [hget]
    exact hbefore d (by omega)
  · rw [hget]
    exact hat (by rw [List.length_drop]; omega)

theorem startBefore_some {starts : List Bool} {lead fits b : Nat}
    (h : startBefore starts lead fits = some b) :
    lead < b ∧ b < fits ∧ starts.getD b false = true ∧
      ∀ i, b < i → i < fits → starts.getD i false = false := by
  induction fits with
  | zero => cases h
  | succ k ih =>
    rw [startBefore] at h
    split at h
    next hlead =>
      split at h
      next hstart =>
        obtain rfl := Option.some.inj h
        exact ⟨by omega, by omega, hstart, fun i hi hi' => absurd hi (by omega)⟩
      next hstart =>
        obtain ⟨hlow, hhigh, hb, hafter⟩ := ih h
        refine ⟨hlow, by omega, hb, fun i hi hi' => ?_⟩
        by_cases heq : i = k
        · rw [heq]
          exact Bool.eq_false_iff.mpr hstart
        · exact hafter i hi (by omega)
    next => cases h

theorem startBefore_none {starts : List Bool} {lead fits : Nat}
    (h : startBefore starts lead fits = none) :
    ∀ i, lead < i → i < fits → starts.getD i false = false := by
  induction fits with
  | zero => exact fun i _ hi => absurd hi (by omega)
  | succ k ih =>
    intro i hi hi'
    rw [startBefore, if_pos (by omega)] at h
    split at h
    next => cases h
    next hstart =>
      by_cases heq : i = k
      · rw [heq]
        exact Bool.eq_false_iff.mpr hstart
      · exact ih h i hi (by omega)

namespace Conversation

/-- A search by halving over a conversation's ends finds the first turn start past a row. -/
theorem firstStart_known (c : Conversation) (hs : c.ends.Pairwise (· ≤ ·))
    (hlen : c.ends.length = c.starts.length) (hlead : c.lead ≤ c.starts.length) (target : Nat) :
    ∃ k, (MessageEnds.known c.ends).firstStart c.starts c.lead target =
        (k, MessageEnds.known c.ends) ∧
      (c.FirstStart target k ∨
        k = c.starts.length ∧ ∀ i, c.IsStart i → c.endOf (i - 1) < target) := by
  obtain ⟨p, hp, hlow, hhigh, hbelow, habove⟩ :=
    MessageEnds.known_halve hs target hlead (Nat.le_of_eq hlen.symm)
  obtain ⟨hskip, hat⟩ := nextStart_spec c.starts (p + 1)
  have hle := nextStart_le c.starts (p + 1)
  have hbefore : ∀ i, c.IsStart i → i < nextStart c.starts (p + 1) → c.endOf (i - 1) < target := by
    intro i hi hi'
    obtain ⟨hilead, hilen, hstart⟩ := hi
    by_cases hip : i ≤ p
    · exact hbelow (i - 1) (by omega) (by omega)
    · rw [hskip i (by omega) hi'] at hstart
      cases hstart
  refine ⟨min (nextStart c.starts (p + 1)) c.starts.length, ?_, ?_⟩
  · rw [MessageEnds.firstStart, hp]
    dsimp only
    rw [Nat.max_eq_left (by omega)]
  · by_cases hlt : nextStart c.starts (p + 1) < c.starts.length
    · left
      rw [Nat.min_eq_left (by omega)]
      exact ⟨⟨by omega, hlt, hat hlt⟩, habove _ (by omega) (by omega), hbefore⟩
    · right
      refine ⟨Nat.min_eq_right (by omega), fun i hi => hbefore i hi ?_⟩
      have := hi.2.1
      omega

theorem endOf_mono (c : Conversation) (hs : c.ends.Pairwise (· ≤ ·))
    (hlen : c.ends.length = c.starts.length) {i k : Nat} (hik : i ≤ k) (hk : c.IsStart k) :
    c.endOf (i - 1) ≤ c.endOf (k - 1) := by
  have := hk.1
  have := hk.2.1
  exact getD_mono hs (by omega) (by omega)

theorem FirstStart.unique {c : Conversation} {target k k' : Nat} (h : c.FirstStart target k)
    (h' : c.FirstStart target k') : k = k' := by
  obtain ⟨hstart, htarget, hleast⟩ := h
  obtain ⟨hstart', htarget', hleast'⟩ := h'
  rcases Nat.lt_trichotomy k k' with hlt | heq | hlt
  · have := hleast' k hstart hlt
    omega
  · exact heq
  · have := hleast k' hstart' hlt
    omega

theorem head_le (c : Conversation) (hs : c.ends.Pairwise (· ≤ ·))
    (hlen : c.ends.length = c.starts.length) {k : Nat} (hk : c.IsStart k) :
    c.head ≤ c.endOf (k - 1) := by
  unfold head
  split
  next => exact c.endOf_mono hs hlen (Nat.le_of_lt hk.1) hk
  next => exact Nat.zero_le _

/-- The first start that leaves the room. -/
structure Fits (c : Conversation) (f : Nat) : Prop where
  start : c.IsStart f
  leaves : c.Leaves f
  least : ∀ i, c.IsStart i → i < f → ¬c.Leaves i

/-- A step count none less serves, whose start leaves the room where there is one. -/
structure Fewest (c : Conversation) (j : Nat) : Prop where
  pos : 1 ≤ j
  floor : ∀ i k, 1 ≤ i → c.Serves i k → j ≤ i
  clear : ∀ k, c.FirstStart (c.head + j * c.step) k → c.Leaves k

/-- Where a step is no row a start that serves is the first that leaves the room. -/
theorem Fits.eq_of_serves {c : Conversation} (hs : c.ends.Pairwise (· ≤ ·))
    (hlen : c.ends.length = c.starts.length) {f j k : Nat} (hf : c.Fits f) (hstep : c.step = 0)
    (h : c.Serves j k) : k = f := by
  obtain ⟨⟨hstart, -, hleast⟩, hleaves⟩ := h
  rcases Nat.lt_trichotomy k f with hlt | heq | hlt
  · exact absurd hleaves (hf.least k hstart hlt)
  · exact heq
  · have hhead := c.head_le hs hlen hf.start
    have := hleast f hf.start hlt
    rw [hstep, Nat.mul_zero] at this
    omega

/-- The start of the fewest steps, or the first that leaves the room, is what the scan gives. -/
theorem stepStart_scanned (c : Conversation) (hs : c.ends.Pairwise (· ≤ ·))
    (hlen : c.ends.length = c.starts.length) (hlead : c.lead ≤ c.starts.length) {f j : Nat}
    (hf : c.Fits f) (hj : c.step ≠ 0 → c.Fewest j) :
    ∃ k, (MessageEnds.known c.ends).stepStart c.starts c.lead c.n c.step c.head j f =
        (k, MessageEnds.known c.ends) ∧
      c.Scanned (fun place => place < c.n) k ∧ (k < c.starts.length → c.Leaves k) := by
  unfold MessageEnds.stepStart
  split
  next htake =>
    obtain ⟨hstep, hplace⟩ := htake
    obtain ⟨hpos, hfloor, hclear⟩ := hj hstep
    obtain ⟨k, hk, hcase⟩ := c.firstStart_known hs hlen hlead (c.head + j * c.step)
    rw [hk]
    dsimp only
    rcases hcase with hfirst | ⟨rfl, hnone⟩
    · rw [if_pos hfirst.1.2.1]
      refine ⟨k, rfl, ?_, fun _ => hclear k hfirst⟩
      apply Scanned.step j k hpos hplace ⟨hfirst, hclear k hfirst⟩
      intro i hi hij k' hserves
      have := hfloor i k' hi hserves
      omega
    · rw [if_neg (Nat.lt_irrefl _)]
      refine ⟨f, rfl, ?_, fun _ => hf.leaves⟩
      apply Scanned.fitting f _ hf.start hf.leaves hf.least
      intro i k hi _ hserves
      have hij := hfloor i k hi hserves
      have hmul := Nat.mul_le_mul_right c.step hij
      have := hnone k hserves.1.1
      have := hserves.1.2.1
      omega
  next htake =>
    refine ⟨f, rfl, ?_, fun _ => hf.leaves⟩
    by_cases hserved : ∃ i k, 1 ≤ i ∧ c.head + i * c.step < c.n ∧ c.Serves i k
    · obtain ⟨i, k, hi, hplace, hserves⟩ := hserved
      by_cases hstep : c.step = 0
      · obtain rfl := hf.eq_of_serves hs hlen hstep hserves
        have hone : c.head + 1 * c.step = c.head + i * c.step := by simp [hstep]
        have hserves' : c.Serves 1 k := by
          unfold Serves
          rw [hone]
          exact hserves
        exact Scanned.step 1 k (Nat.le_refl 1) (hone ▸ hplace) hserves'
          fun i' hi' hlt => absurd hlt (by omega)
      · have hij := (hj hstep).floor i k hi hserves
        have hmul := Nat.mul_le_mul_right c.step hij
        exact absurd ⟨hstep, by omega⟩ htake
    · apply Scanned.fitting f _ hf.start hf.leaves hf.least
      intro i k hi hplace hserves
      exact hserved ⟨i, k, hi, hplace, hserves⟩

/-- With a start before the first that leaves the room, one division counts the steps past it. -/
theorem fewest_of_before (c : Conversation) (hs : c.ends.Pairwise (· ≤ ·))
    (hlen : c.ends.length = c.starts.length) {f b : Nat} (hf : c.Fits f)
    (hb : startBefore c.starts c.lead f = some b) (hstep : c.step ≠ 0) :
    c.Fewest (if c.step ≠ 0 ∧ c.head ≤ c.endOf (b - 1) then
      (c.endOf (b - 1) - c.head) / c.step + 1 else 1) := by
  obtain ⟨hlead, hbf, hb, hafter⟩ := startBefore_some hb
  have hflen := hf.start.2.1
  have hstart : c.IsStart b := ⟨hlead, by omega, hb⟩
  have hhead := c.head_le hs hlen hstart
  rw [if_pos ⟨hstep, hhead⟩]
  have hdiv := Nat.div_add_mod (c.endOf (b - 1) - c.head) c.step
  have hmod := Nat.mod_lt (c.endOf (b - 1) - c.head) (Nat.pos_of_ne_zero hstep)
  have hbefore : ∀ i, c.IsStart i → i < f → i ≤ b := by
    intro i hi hif
    by_contra hlt
    have := hafter i (by omega) hif
    rw [hi.2.2] at this
    cases this
  refine ⟨Nat.le_add_left 1 _, fun i k _ hserves => ?_, fun k hfirst => ?_⟩
  · obtain ⟨⟨hk, -, hleast⟩, hleaves⟩ := hserves
    have hfk : ¬k < f := fun hlt => hf.least k hk hlt hleaves
    have hlt := hleast b hstart (by omega)
    have hmul : c.endOf (b - 1) - c.head < i * c.step := by omega
    have := (Nat.div_lt_iff_lt_mul (Nat.pos_of_ne_zero hstep)).mpr hmul
    omega
  · obtain ⟨hk, htarget, -⟩ := hfirst
    by_cases hlt : k < f
    · have hle := c.endOf_mono hs hlen (hbefore k hk hlt) hstart
      rw [Nat.add_mul, Nat.one_mul, Nat.mul_comm] at htarget
      omega
    · have hle := c.endOf_mono hs hlen (show f ≤ k by omega) hk
      have hleaves := hf.leaves
      unfold Leaves at *
      omega

theorem fewest_of_none (c : Conversation) (hs : c.ends.Pairwise (· ≤ ·))
    (hlen : c.ends.length = c.starts.length) {f : Nat} (hf : c.Fits f)
    (hb : startBefore c.starts c.lead f = none) : c.Fewest 1 := by
  refine ⟨Nat.le_refl 1, fun i k hi _ => hi, fun k hfirst => ?_⟩
  obtain ⟨hk, -, -⟩ := hfirst
  by_cases hlt : k < f
  · have := startBefore_none hb k hk.1 hlt
    rw [hk.2.2] at this
    cases this
  · have hle := c.endOf_mono hs hlen (show f ≤ k by omega) hk
    have hleaves := hf.leaves
    unfold Leaves at *
    omega

/-- The first message kept is what the scan over the steps before the prompt's end gives, and it
leaves the room. -/
theorem firstKept_scanned (c : Conversation) (hs : c.ends.Pairwise (· ≤ ·))
    (hlen : c.ends.length = c.starts.length) (hlead : c.lead ≤ c.starts.length) :
    ∃ k, (MessageEnds.known c.ends).firstKept c.starts c.lead c.n c.fit c.step =
        (k, MessageEnds.known c.ends) ∧
      c.Scanned (fun place => place < c.n) k ∧ (k < c.starts.length → c.Leaves k) := by
  have hhead : (if c.lead ≠ 0 then (MessageEnds.known c.ends).ask (c.lead - 1)
      else (0, MessageEnds.known c.ends)) = (c.head, MessageEnds.known c.ends) := by
    unfold head
    split
    next hne => exact MessageEnds.known_ask (by omega)
    next => rfl
  unfold MessageEnds.firstKept
  rw [hhead]
  dsimp only
  obtain ⟨f, hf, hcase⟩ := c.firstStart_known hs hlen hlead
    (if c.fit < c.head + c.n then c.head + c.n - c.fit else 0)
  have hleaves : ∀ k, c.Leaves k ↔
      (if c.fit < c.head + c.n then c.head + c.n - c.fit else 0) ≤ c.endOf (k - 1) := by
    intro k
    unfold Leaves
    split <;> omega
  rw [hf]
  dsimp only
  rcases hcase with ⟨hstart, htarget, hleast⟩ | ⟨rfl, hnone⟩
  · have hfits : c.Fits f := by
      refine ⟨hstart, (hleaves f).mpr htarget, fun i hi hif hil => ?_⟩
      have := hleast i hi hif
      have := (hleaves i).mp hil
      omega
    rw [if_neg (Nat.ne_of_lt hstart.2.1)]
    cases hb : startBefore c.starts c.lead f with
    | some b =>
      have hbf := (startBefore_some hb).2.1
      have hflen := hstart.2.1
      dsimp only
      rw [MessageEnds.known_ask (by omega)]
      exact c.stepStart_scanned hs hlen hlead hfits (c.fewest_of_before hs hlen hfits hb)
    | none => exact c.stepStart_scanned hs hlen hlead hfits fun _ => c.fewest_of_none hs hlen hfits hb
  · rw [if_pos rfl]
    refine ⟨_, rfl, Scanned.count fun k hk hkl => ?_, fun hlt => absurd hlt (Nat.lt_irrefl _)⟩
    have := hnone k hk
    have := (hleaves k).mp hkl
    omega

/-- Three messages that begin turns, the last of no rows. -/
def emptyLast : Conversation := ⟨[5, 10, 10], [true, true, true], 0, 10, 5, 10⟩

theorem firstKept_scanned_emptyLast :
    ∃ k, (MessageEnds.known [5, 10, 10]).firstKept [true, true, true] 0 10 5 10 =
        (k, MessageEnds.known [5, 10, 10]) ∧ (k < 3 → emptyLast.Leaves k) := by
  obtain ⟨k, hk, -, hleaves⟩ := emptyLast.firstKept_scanned (by decide) rfl (by decide)
  exact ⟨k, hk, hleaves⟩

/-- A scan that goes on past the prompt's end takes its one step there. -/
theorem not_firstKept_scanned :
    ¬∀ c : Conversation, c.ends.Pairwise (· ≤ ·) → c.ends.length = c.starts.length →
      c.lead ≤ c.starts.length →
      c.Scanned (fun _ => True)
        ((MessageEnds.known c.ends).firstKept c.starts c.lead c.n c.fit c.step).1 := by
  intro h
  have hscan := h emptyLast (by decide) rfl (by decide)
  have hkept : ((MessageEnds.known emptyLast.ends).firstKept emptyLast.starts emptyLast.lead
      emptyLast.n emptyLast.fit emptyLast.step).1 = 1 := by
    decide +kernel
  have hserves : emptyLast.Serves 1 2 := by
    refine ⟨⟨⟨by decide, by decide, rfl⟩, by decide, fun i hi hlt => ?_⟩, by unfold Leaves; decide⟩
    have hlow := hi.1
    obtain rfl : i = 1 := by
      change 0 < i at hlow
      omega
    decide
  rw [hkept] at hscan
  generalize hk : 1 = k at hscan
  cases hscan with
  | step j k pos place serves least =>
    obtain rfl := hk
    have htarget := serves.1.2.1
    change 0 + j * 10 ≤ 5 at htarget
    omega
  | fitting k none start leaves least => exact none 1 2 (by omega) trivial hserves
  | count none => cases hk

end Conversation

end Llmx
