import Llmx.FirstKept
import Mathlib.Algebra.Order.Ring.Int

namespace Llmx

/-- Why nothing fits: the leading messages and the user message alone, or the newest exchange beside
them. -/
inductive TurnCut.Refused where
  | none
  | head
  | exchange
deriving DecidableEq, Repr

/-- A cut inside a newest turn: the messages kept are the leading ones, the turn's user message, and
those from `fromMessage` on. -/
structure TurnCut where
  user : Nat
  fromMessage : Nat
  refused : TurnCut.Refused
deriving DecidableEq, Repr

/-- The last turn start from message `lead` on, before `k`. -/
def lastStart (starts : List Bool) (lead : Nat) : Nat → Option Nat
  | 0 => none
  | k + 1 =>
    if lead < k + 1 then (if starts.getD k false then some k else lastStart starts lead k) else none

namespace Conversation

/-- The rows of the messages before the newest turn's and after the leading ones. -/
def gap (c : Conversation) (user : Nat) : Nat :=
  if c.lead < user then c.endOf (user - 1) - c.head else 0

/-- The message at a place of the turn alone. -/
def place (c : Conversation) (user i : Nat) : Nat := if i < c.lead then i else user + (i - c.lead)

/-- The row of the turn alone where its first `k` messages end. -/
def turnRows (c : Conversation) (user k : Nat) : Nat :=
  let m := c.place user (k - 1)
  if m < c.lead then c.endOf m else c.endOf m - c.gap user

/-- The places of the turn alone that start an exchange after its user message. -/
def units (c : Conversation) (exchanges : List Bool) (user : Nat) : List Bool :=
  (List.range (c.lead + (c.starts.length - user))).map fun i =>
    decide (c.lead + 1 ≤ i) && exchanges.getD (c.place user i) false

/-- The cut inside the newest turn: the earlier turns go, the leading messages and the user message
stay, and whole exchanges go oldest first. -/
def cutInside (c : Conversation) (exchanges : List Bool) : TurnCut :=
  let count := c.starts.length
  match lastStart c.starts c.lead count with
  | none => ⟨0, count, .head⟩
  | some user =>
    let gap := c.gap user
    let inner := c.lead + (count - user)
    let turn := MessageEnds.start inner (c.n - gap) [] fun k => some (c.turnRows user k)
    let own := c.endOf user - gap
    let tail := c.n - c.endOf (count - 1)
    if c.fit < own + tail then ⟨user, count, .head⟩
    else
      let units := c.units exchanges user
      let k := (turn.firstKept units (c.lead + 1) (c.n - gap) c.fit c.step).1
      if k = inner then ⟨user, count, .exchange⟩ else ⟨user, c.place user k, .none⟩

/-- The rows the first `k` messages take. -/
def upTo (c : Conversation) (k : Nat) : Nat := if k ≠ 0 then c.endOf (k - 1) else 0

def rowsOf (c : Conversation) (m : Nat) : Nat := c.upTo (m + 1) - c.upTo m

/-- The rows after the last message. -/
def tail (c : Conversation) : Nat := c.n - c.upTo c.starts.length

/-- The newest turn's user message: the last turn start, the leading messages before it. -/
def Newest (c : Conversation) (user : Nat) : Prop :=
  c.lead ≤ user ∧ user < c.starts.length ∧ c.starts.getD user false = true ∧
    ∀ i, user < i → i < c.starts.length → c.starts.getD i false = false

/-- The messages a cut inside the turn keeps, and those it drops. -/
def keptMessages (c : Conversation) (user start : Nat) : List Nat :=
  List.range' 0 c.lead ++ user :: List.range' start (c.starts.length - start)

def droppedMessages (c : Conversation) (user start : Nat) : List Nat :=
  List.range' c.lead (user - c.lead) ++ List.range' (user + 1) (start - (user + 1))

/-- The turn alone, its exchanges the starts after the leading messages and the user message. -/
def turnAlone (c : Conversation) (exchanges : List Bool) (user : Nat) : Conversation where
  ends := (List.range (c.lead + (c.starts.length - user))).map fun i => c.turnRows user (i + 1)
  starts := c.units exchanges user
  lead := c.lead + 1
  n := c.n - c.gap user
  fit := c.fit
  step := c.step

def rowsOfAll (c : Conversation) (ms : List Nat) : Nat := (ms.map c.rowsOf).sum

/-- Ends that do not decrease and lie in the prompt, one for each message. -/
structure Ordered (c : Conversation) : Prop where
  sorted : c.ends.Pairwise (· ≤ ·)
  each : c.ends.length = c.starts.length
  within : ∀ e ∈ c.ends, e ≤ c.n

end Conversation

namespace MessageEnds

/-- Ends asked for one by one are those of a list, every message's rows being given. -/
structure Agrees (c : MessageEnds) (ends : List Nat) : Prop where
  each : c.ends.length = ends.length
  learned : ∀ m e, c.Knows m e → e = ends.getD m 0
  given : ∀ m, m < ends.length → c.rows (m + 1) = some (ends.getD m 0)

variable {c : MessageEnds} {ends : List Nat}

theorem Agrees.ask (h : c.Agrees ends) {m : Nat} (hm : m < ends.length) :
    (c.ask m).1 = ends.getD m 0 ∧ (c.ask m).2.Agrees ends := by
  rw [MessageEnds.ask]
  split
  next e he =>
    obtain hknown := Option.join_eq_some_iff.mp he
    exact ⟨h.learned m e hknown, h⟩
  next hnone =>
    rw [h.given m hm]
    refine ⟨Eq.refl _, ?_, ?_, h.given⟩
    · show (c.ends.set m (some (ends.getD m 0))).length = ends.length
      rw [List.length_set, h.each]
    · intro k e hk
      change (c.ends.set m (some (ends.getD m 0)))[k]? = some (some e) at hk
      rw [List.getElem?_set] at hk
      split at hk
      next heq =>
        rw [if_pos (by rw [h.each]; omega)] at hk
        rw [← heq]
        exact (Option.some.inj (Option.some.inj hk)).symm
      next hne => exact h.learned k e hk

theorem Agrees.halve (h : c.Agrees ends) (target : Nat) {lo hi : Nat} (hhi : hi ≤ ends.length) :
    (c.halve target lo hi).1 = ((known ends).halve target lo hi).1 ∧
      (c.halve target lo hi).2.Agrees ends ∧ ((known ends).halve target lo hi).2 = known ends := by
  induction hd : hi - lo using Nat.strongRecOn generalizing c lo hi with
  | ind d ih =>
    rw [MessageEnds.halve, MessageEnds.halve]
    split
    next hlt =>
      dsimp only
      obtain ⟨hask, hnext⟩ := h.ask (show lo + (hi - lo) / 2 < ends.length by omega)
      rw [known_ask (show lo + (hi - lo) / 2 < ends.length by omega), hask]
      dsimp only
      split
      next => exact ih _ (by omega) hnext (by omega) (Eq.refl _)
      next => exact ih _ (by omega) hnext hhi (Eq.refl _)
    next => exact ⟨Eq.refl _, h, Eq.refl _⟩

theorem Agrees.firstStart (h : c.Agrees ends) {starts : List Bool}
    (hlen : starts.length = ends.length) (lead target : Nat) :
    (c.firstStart starts lead target).1 = ((known ends).firstStart starts lead target).1 ∧
      (c.firstStart starts lead target).2.Agrees ends ∧
      ((known ends).firstStart starts lead target).2 = known ends := by
  obtain ⟨heq, hnext, hknown⟩ := @Agrees.halve _ _ h target lead _ (Nat.le_of_eq hlen)
  unfold MessageEnds.firstStart
  dsimp only
  rw [heq]
  exact ⟨Eq.refl _, hnext, hknown⟩

theorem Agrees.stepStart (h : c.Agrees ends) {starts : List Bool}
    (hlen : starts.length = ends.length) (lead n step head j fits : Nat) :
    (c.stepStart starts lead n step head j fits).1 =
      ((known ends).stepStart starts lead n step head j fits).1 := by
  obtain ⟨heq, -, -⟩ := h.firstStart hlen lead (head + j * step)
  unfold MessageEnds.stepStart
  split
  next =>
    dsimp only
    rw [heq]
    split
    next => exact heq
    next => exact Eq.refl _
  next => exact Eq.refl _

/-- The first message kept is the same, however its ends come to be known. -/
theorem Agrees.firstKept (h : c.Agrees ends) {starts : List Bool}
    (hlen : starts.length = ends.length) {lead : Nat} (hlead : lead ≤ ends.length)
    (n fit step : Nat) :
    (c.firstKept starts lead n fit step).1 = ((known ends).firstKept starts lead n fit step).1 := by
  have hhead : (if lead ≠ 0 then c.ask (lead - 1) else (0, c)).1 =
        (if lead ≠ 0 then (known ends).ask (lead - 1) else (0, known ends)).1 ∧
      (if lead ≠ 0 then c.ask (lead - 1) else (0, c)).2.Agrees ends ∧
      (if lead ≠ 0 then (known ends).ask (lead - 1) else (0, known ends)).2 = known ends := by
    split
    next hne =>
      obtain ⟨hask, hnext⟩ := h.ask (show lead - 1 < ends.length by omega)
      rw [known_ask (show lead - 1 < ends.length by omega)]
      exact ⟨hask, hnext, Eq.refl _⟩
    next => exact ⟨Eq.refl _, h, Eq.refl _⟩
  unfold MessageEnds.firstKept
  dsimp only
  obtain ⟨heq, hnext, hknown⟩ := hhead
  rw [heq, hknown]
  generalize (if lead ≠ 0 then c.ask (lead - 1) else (0, c)).2 = c' at *
  generalize (if lead ≠ 0 then (known ends).ask (lead - 1) else (0, known ends)).1 = head
  generalize (if fit < head + n then head + n - fit else 0) = need
  obtain ⟨hfits, hnext, hknown⟩ := hnext.firstStart hlen lead need
  have hle : ((known ends).firstStart starts lead need).1 ≤ ends.length := by
    rw [← hlen]
    exact Nat.min_le_right _ _
  rw [hfits, hknown]
  split
  next => exact hfits
  next =>
    split
    next before hbefore =>
      have hbelow := (startBefore_some hbefore).2.1
      obtain ⟨hask, hlast⟩ := hnext.ask (show before - 1 < ends.length by omega)
      rw [known_ask (show before - 1 < ends.length by omega), hask]
      exact hlast.stepStart hlen _ _ _ _ _ _
    next => exact hnext.stepStart hlen _ _ _ _ _ _

end MessageEnds

theorem lastStart_spec (starts : List Bool) (lead k : Nat) :
    match lastStart starts lead k with
    | none => ∀ i, lead ≤ i → i < k → starts.getD i false = false
    | some user => lead ≤ user ∧ user < k ∧ starts.getD user false = true ∧
        ∀ i, user < i → i < k → starts.getD i false = false := by
  induction k with
  | zero => exact fun i _ hi => absurd hi (Nat.not_lt_zero i)
  | succ k ih =>
    rw [lastStart]
    by_cases hlead : lead < k + 1
    · rw [if_pos hlead]
      by_cases hstart : starts.getD k false = true
      · rw [if_pos hstart]
        exact ⟨by omega, by omega, hstart, fun i hi hi' => absurd hi (by omega)⟩
      · rw [if_neg hstart]
        have hlast : ∀ i, i < k + 1 → ¬i < k → starts.getD i false = false := by
          intro i hi hi'
          obtain rfl : i = k := by omega
          exact Bool.eq_false_iff.mpr hstart
        split at ih
        next =>
          intro i hi hi'
          by_cases hik : i < k
          · exact ih i hi hik
          · exact hlast i hi' hik
        next user _ =>
          obtain ⟨hlow, hhigh, huser, hafter⟩ := ih
          refine ⟨hlow, by omega, huser, ?_⟩
          intro i hi hi'
          by_cases hik : i < k
          · exact hafter i hi hik
          · exact hlast i hi' hik
    · rw [if_neg hlead]
      exact fun i hi hi' => absurd hi (by omega)

namespace Conversation

variable {c : Conversation} {user start : Nat} {exchanges : List Bool}

theorem upTo_mono (h : c.Ordered) {i j : Nat} (hij : i ≤ j) (hj : j ≤ c.starts.length) :
    c.upTo i ≤ c.upTo j := by
  have hlen := h.each
  unfold upTo
  split
  next hi =>
    rw [if_pos (by omega)]
    exact getD_mono h.sorted (by omega) (by omega)
  next => exact Nat.zero_le _

theorem upTo_le (h : c.Ordered) {i : Nat} (hi : i ≤ c.starts.length) : c.upTo i ≤ c.n := by
  have hlen := h.each
  unfold upTo
  split
  next =>
    apply h.within
    unfold endOf
    rw [List.getD_eq_getElem _ 0 (by omega)]
    exact List.getElem_mem _
  next => exact Nat.zero_le _

theorem head_eq (c : Conversation) : c.head = c.upTo c.lead := Eq.refl _

theorem endOf_eq (c : Conversation) (m : Nat) : c.endOf m = c.upTo (m + 1) :=
  (if_pos (Nat.succ_ne_zero m)).symm

theorem gap_eq (h : c.lead ≤ user) : c.gap user = c.upTo user - c.upTo c.lead := by
  unfold gap
  split
  next hlt =>
    rw [head_eq, endOf_eq, Nat.sub_add_cancel (by omega)]
  next hlt =>
    obtain rfl : c.lead = user := by omega
    exact (Nat.sub_self _).symm

/-- The rows of messages side by side are those between their ends. -/
theorem rowsOfAll_range' (h : c.Ordered) {i n : Nat} (hn : i + n ≤ c.starts.length) :
    c.rowsOfAll (List.range' i n) + c.upTo i = c.upTo (i + n) := by
  induction n with
  | zero => exact Nat.zero_add _
  | succ n ih =>
    have ih := ih (by omega)
    have hmono := upTo_mono h (show i + n ≤ i + n + 1 by omega) hn
    have hrow : c.rowsOf (i + n) = c.upTo (i + n + 1) - c.upTo (i + n) := Eq.refl _
    unfold rowsOfAll at *
    rw [List.range'_1_concat, List.map_append, List.sum_append, List.map_singleton,
      List.sum_singleton, hrow, ← Nat.add_assoc i n 1]
    omega

theorem rowsOfAll_append (c : Conversation) (ms ms' : List Nat) :
    c.rowsOfAll (ms ++ ms') = c.rowsOfAll ms + c.rowsOfAll ms' := by
  unfold rowsOfAll
  rw [List.map_append, List.sum_append]

theorem rowsOfAll_cons (c : Conversation) (m : Nat) (ms : List Nat) :
    c.rowsOfAll (m :: ms) = c.rowsOf m + c.rowsOfAll ms := by
  unfold rowsOfAll
  rw [List.map_cons, List.sum_cons]

/-- A cut keeps or drops each message once. -/
theorem kept_dropped_perm (hlead : c.lead ≤ user) (huser : user < start)
    (hstart : start ≤ c.starts.length) :
    (c.keptMessages user start ++ c.droppedMessages user start).Perm
      (List.range c.starts.length) := by
  have hparts : List.range c.starts.length =
      List.range' 0 c.lead ++ (List.range' c.lead (user - c.lead) ++
        (user :: (List.range' (user + 1) (start - (user + 1)) ++
          List.range' start (c.starts.length - start)))) := by
    have hlast := @List.range'_append_1 (user + 1) (start - (user + 1)) (c.starts.length - start)
    rw [show user + 1 + (start - (user + 1)) = start by omega] at hlast
    have hmid := @List.range'_append_1 c.lead (user - c.lead) (c.starts.length - user)
    rw [show c.lead + (user - c.lead) = user by omega] at hmid
    have hfirst := @List.range'_append_1 0 c.lead (c.starts.length - c.lead)
    rw [Nat.zero_add] at hfirst
    have huser' : List.range' user (c.starts.length - user) =
        user :: List.range' (user + 1) (c.starts.length - (user + 1)) := by
      rw [show c.starts.length - user = c.starts.length - (user + 1) + 1 by omega,
        List.range'_succ]
    rw [hlast, show start - (user + 1) + (c.starts.length - start) =
      c.starts.length - (user + 1) by omega, ← huser', hmid,
      show user - c.lead + (c.starts.length - user) = c.starts.length - c.lead by omega, hfirst,
      List.range_eq_range']
    congr 1
    omega
  rw [hparts]
  unfold keptMessages droppedMessages
  rw [List.append_assoc]
  apply List.Perm.append_left
  rw [List.cons_append]
  refine List.Perm.trans ?_ List.perm_middle.symm
  apply List.Perm.cons
  refine (List.perm_append_comm_assoc _ _ _).trans ?_
  exact List.Perm.append_left _ List.perm_append_comm

theorem turnRows_eq (c : Conversation) (user i : Nat) :
    c.turnRows user (i + 1) =
      if i < c.lead then c.upTo (i + 1) else c.upTo (user + (i - c.lead) + 1) - c.gap user := by
  unfold turnRows place
  rw [Nat.add_sub_cancel]
  dsimp only
  by_cases hi : i < c.lead
  · rw [if_pos hi, if_pos hi, if_pos hi, endOf_eq]
  · rw [if_neg hi, if_neg hi, endOf_eq]
    split
    next hlt =>
      have hgap : c.gap user = 0 := by
        unfold gap
        exact if_neg (by omega)
      rw [hgap, Nat.sub_zero]
    next => exact Eq.refl _

theorem turnAlone_endOf {i : Nat} (hi : i < c.lead + (c.starts.length - user)) :
    (c.turnAlone exchanges user).endOf i = c.turnRows user (i + 1) := by
  unfold turnAlone endOf
  rw [List.getD_eq_getElem _ 0 (by rw [List.length_map, List.length_range]; exact hi),
    List.getElem_map, List.getElem_range]

theorem turnAlone_sorted (h : c.Ordered) (hnew : c.Newest user) :
    (c.turnAlone exchanges user).ends.Pairwise (· ≤ ·) := by
  obtain ⟨hlead, huser, -, -⟩ := hnew
  have hgap := gap_eq hlead
  unfold turnAlone
  rw [List.pairwise_map]
  apply List.Pairwise.imp_of_mem _ List.pairwise_lt_range
  intro i j hi hj hlt
  have hj := List.mem_range.mp hj
  rw [turnRows_eq, turnRows_eq]
  by_cases hjlead : j < c.lead
  · rw [if_pos (by omega), if_pos hjlead]
    exact upTo_mono h (by omega) (by omega)
  · rw [if_neg hjlead]
    have hplace := upTo_mono h (show user ≤ user + (j - c.lead) + 1 by omega) (by omega)
    split
    next hilead =>
      have hhead := upTo_mono h (show i + 1 ≤ c.lead by omega) (by omega)
      have hearly := upTo_mono h hlead (by omega)
      omega
    next hilead =>
      have := upTo_mono h (show user + (i - c.lead) + 1 ≤ user + (j - c.lead) + 1 by omega)
        (by omega)
      omega

/-- The turn alone as its ends come to be asked for has the ends listed. -/
theorem turnAlone_agrees (c : Conversation) (exchanges : List Bool) (user : Nat) :
    (MessageEnds.start (c.lead + (c.starts.length - user)) (c.n - c.gap user) []
      fun k => some (c.turnRows user k)).Agrees (c.turnAlone exchanges user).ends := by
  have hlen : (c.turnAlone exchanges user).ends.length = c.lead + (c.starts.length - user) := by
    unfold turnAlone
    rw [List.length_map, List.length_range]
  refine ⟨?_, ?_, ?_⟩
  · rw [hlen]
    exact List.length_replicate
  · intro m e hknown
    have hmem := List.mem_of_getElem? hknown
    cases List.eq_of_mem_replicate hmem
  · intro m hm
    rw [hlen] at hm
    exact congrArg some (turnAlone_endOf hm).symm

/-- A start kept from in the turn alone is an exchange of the conversation, and what it leaves fits
beside the leading messages and the user message. -/
theorem turnAlone_leaves (h : c.Ordered) (hnew : c.Newest user) {k : Nat}
    (hstart : (c.turnAlone exchanges user).IsStart k)
    (hleaves : (c.turnAlone exchanges user).Leaves k) :
    c.lead < k ∧ user < c.place user k ∧ c.place user k < c.starts.length ∧
      exchanges.getD (c.place user k) false = true ∧
      c.rowsOfAll (c.keptMessages user (c.place user k)) + c.tail ≤ c.fit := by
  obtain ⟨hlead, huser, -, -⟩ := hnew
  obtain ⟨hlow, hhigh, hunit⟩ := hstart
  change c.lead + 1 < k at hlow
  change k < (c.units exchanges user).length at hhigh
  change (c.units exchanges user).getD k false = true at hunit
  unfold units at hhigh hunit
  rw [List.length_map, List.length_range] at hhigh
  rw [List.getD_eq_getElem _ _ (by rw [List.length_map, List.length_range]; exact hhigh),
    List.getElem_map, List.getElem_range, Bool.and_eq_true] at hunit
  have hplace : c.place user k = user + (k - c.lead) := if_neg (by omega)
  refine ⟨by omega, by omega, by omega, hunit.2, ?_⟩
  have hgap := gap_eq hlead
  have hhead : (c.turnAlone exchanges user).head = c.upTo (user + 1) - c.gap user := by
    unfold head
    rw [if_pos (show (c.turnAlone exchanges user).lead ≠ 0 from Nat.succ_ne_zero _)]
    show (c.turnAlone exchanges user).endOf (c.lead + 1 - 1) = _
    rw [Nat.add_sub_cancel, turnAlone_endOf (by omega), turnRows_eq, if_neg (Nat.lt_irrefl _),
      Nat.sub_self, Nat.add_zero]
  have hend : (c.turnAlone exchanges user).endOf (k - 1) =
      c.upTo (user + (k - c.lead)) - c.gap user := by
    rw [turnAlone_endOf (by omega), turnRows_eq, if_neg (by omega)]
    congr 2
    omega
  unfold Leaves at hleaves
  change (c.turnAlone exchanges user).head + (c.n - c.gap user) ≤
    c.fit + (c.turnAlone exchanges user).endOf (k - 1) at hleaves
  rw [hhead, hend] at hleaves
  have hfirst := rowsOfAll_range' h (show 0 + c.lead ≤ c.starts.length by omega)
  have hrest := rowsOfAll_range' h
    (show user + (k - c.lead) + (c.starts.length - (user + (k - c.lead))) ≤ c.starts.length by omega)
  have hrow : c.rowsOf user = c.upTo (user + 1) - c.upTo user := Eq.refl _
  have hnone : c.upTo 0 = 0 := Eq.refl _
  rw [Nat.zero_add] at hfirst
  rw [show user + (k - c.lead) + (c.starts.length - (user + (k - c.lead))) =
    c.starts.length by omega] at hrest
  have hearly := upTo_mono h hlead (by omega)
  have hown := upTo_mono h (show user ≤ user + 1 by omega) (by omega)
  have hkept := upTo_mono h (show user + 1 ≤ user + (k - c.lead) by omega) (by omega)
  have hall := upTo_mono h (show user + (k - c.lead) ≤ c.starts.length by omega) (Nat.le_refl _)
  have hwithin := upTo_le h (Nat.le_refl _)
  rw [hplace]
  unfold keptMessages tail
  rw [rowsOfAll_append, rowsOfAll_cons, hrow]
  omega

/-- What the leading messages, the user message and the rows after the last message take. -/
theorem own_eq (h : c.Ordered) (hnew : c.Newest user) :
    c.endOf user - c.gap user + (c.n - c.endOf (c.starts.length - 1)) =
      c.head + c.rowsOf user + c.tail := by
  obtain ⟨hlead, huser, -, -⟩ := hnew
  have hgap := gap_eq hlead
  have hrow : c.rowsOf user = c.upTo (user + 1) - c.upTo user := Eq.refl _
  have hearly := upTo_mono h hlead (by omega)
  have hown := upTo_mono h (show user ≤ user + 1 by omega) (by omega)
  rw [endOf_eq, endOf_eq, Nat.sub_add_cancel (by omega), head_eq, hrow]
  unfold tail
  omega

theorem Newest.unique {user' : Nat} (h : c.Newest user) (h' : c.Newest user') : user = user' := by
  obtain ⟨-, hlt, hstart, hlast⟩ := h
  obtain ⟨-, hlt', hstart', hlast'⟩ := h'
  rcases Nat.lt_trichotomy user user' with hless | heq | hmore
  · rw [hlast user' hless hlt'] at hstart'
    cases hstart'
  · exact heq
  · rw [hlast' user hmore hlt] at hstart
    cases hstart

/-- A cut inside the newest turn refuses for its head exactly where no user message fits beside the
leading ones, and one it makes keeps what fits: the leading messages, the user message, and the
messages from an exchange after it on, each other one dropped once. -/
theorem cutInside_fits (h : c.Ordered) (exchanges : List Bool) :
    ((c.cutInside exchanges).refused = .head ↔
        ∀ user, c.Newest user → c.fit < c.head + c.rowsOf user + c.tail) ∧
      ∀ user start, c.cutInside exchanges = ⟨user, start, .none⟩ →
        c.Newest user ∧ user < start ∧ start < c.starts.length ∧
          exchanges.getD start false = true ∧
          c.rowsOfAll (c.keptMessages user start) + c.tail ≤ c.fit ∧
          (c.keptMessages user start ++ c.droppedMessages user start).Perm
            (List.range c.starts.length) := by
  have hspec := lastStart_spec c.starts c.lead c.starts.length
  unfold cutInside
  dsimp only
  cases hlast : lastStart c.starts c.lead c.starts.length with
  | none =>
    rw [hlast] at hspec
    constructor
    · refine ⟨fun _ user hnew => ?_, fun _ => Eq.refl _⟩
      have hnone := hspec user hnew.1 hnew.2.1
      rw [hnew.2.2.1] at hnone
      cases hnone
    · intro user start hcut
      cases hcut
  | some newest =>
    rw [hlast] at hspec
    have hnew : c.Newest newest := hspec
    dsimp only
    rw [own_eq h hnew]
    have hall : (∀ user, c.Newest user → c.fit < c.head + c.rowsOf user + c.tail) ↔
        c.fit < c.head + c.rowsOf newest + c.tail := by
      constructor
      · intro hhead
        exact hhead newest hnew
      · intro hhead user huser
        rw [huser.unique hnew]
        exact hhead
    rw [hall]
    split
    next hhead =>
      refine ⟨⟨fun _ => hhead, fun _ => Eq.refl _⟩, ?_⟩
      intro user start hcut
      cases hcut
    next hhead =>
      have hunits : (c.units exchanges newest).length = c.lead + (c.starts.length - newest) := by
        unfold units
        rw [List.length_map, List.length_range]
      have hlen : (c.turnAlone exchanges newest).ends.length =
          (c.turnAlone exchanges newest).starts.length := by
        show (List.map _ _).length = (c.units exchanges newest).length
        rw [hunits, List.length_map, List.length_range]
      have hlead : c.lead + 1 ≤ (c.turnAlone exchanges newest).starts.length := by
        show c.lead + 1 ≤ (c.units exchanges newest).length
        have := hnew.2.1
        omega
      have hsame := (turnAlone_agrees c exchanges newest).firstKept hlen.symm
        (hlen ▸ hlead) (c.n - c.gap newest) c.fit c.step
      obtain ⟨k, hk, hscan, hleaves⟩ := (c.turnAlone exchanges newest).firstKept_scanned
        (turnAlone_sorted h hnew) hlen hlead
      change (MessageEnds.known (c.turnAlone exchanges newest).ends).firstKept
        (c.units exchanges newest) (c.lead + 1) (c.n - c.gap newest) c.fit c.step = _ at hk
      have hfound : ((MessageEnds.start (c.lead + (c.starts.length - newest)) (c.n - c.gap newest) []
          fun k => some (c.turnRows newest k)).firstKept (c.units exchanges newest) (c.lead + 1)
            (c.n - c.gap newest) c.fit c.step).1 = k := by
        refine hsame.trans ?_
        exact congrArg Prod.fst hk
      rw [hfound]
      split
      next hcount =>
        refine ⟨⟨fun hrefused => (by cases hrefused), fun hmore => absurd hmore hhead⟩, ?_⟩
        intro user start hcut
        cases hcut
      next hcount =>
        refine ⟨⟨fun hrefused => (by cases hrefused), fun hmore => absurd hmore hhead⟩, ?_⟩
        intro user start hcut
        obtain ⟨rfl, rfl⟩ : newest = user ∧ c.place newest k = start := by
          injection hcut with huser hstart
          exact ⟨huser, hstart⟩
        have hstart : (c.turnAlone exchanges newest).IsStart k := by
          cases hscan with
          | step j k pos place serves least => exact serves.1.1
          | fitting k none start leaves least => exact start
          | count none => exact absurd hunits hcount
        obtain ⟨hlow, huser, hlt, hunit, hfit⟩ :=
          turnAlone_leaves h hnew hstart (hleaves hstart.2.1)
        exact ⟨hnew, huser, hlt, hunit, hfit,
          kept_dropped_perm hnew.1 huser (Nat.le_of_lt hlt)⟩

/-- A leading message, an earlier turn, and a turn of two exchanges. -/
def twoExchanges : Conversation := ⟨[1, 3, 4, 6, 9], [false, true, true, false, false], 1, 9, 6, 1⟩

theorem cutInside_fits_twoExchanges :
    twoExchanges.cutInside [false, false, false, true, true] = ⟨2, 4, .none⟩ ∧
      twoExchanges.rowsOfAll (twoExchanges.keptMessages 2 4) + twoExchanges.tail ≤ 6 := by
  have hcut : twoExchanges.cutInside [false, false, false, true, true] = ⟨2, 4, .none⟩ := by
    decide +kernel
  obtain ⟨-, hkeeps⟩ := cutInside_fits (c := twoExchanges) ⟨by decide, by decide, by decide⟩
    [false, false, false, true, true]
  obtain ⟨-, -, -, -, hfit, -⟩ := hkeeps 2 4 hcut
  exact ⟨hcut, hfit⟩

/-- A conversation with no turn start after the leading messages is refused whatever the room. -/
theorem not_cutInside_fits :
    ¬∀ (c : Conversation) (exchanges : List Bool), c.Ordered →
      ((c.cutInside exchanges).refused = .head ↔
        ∃ user, c.Newest user ∧ c.fit < c.head + c.rowsOf user + c.tail) := by
  intro h
  obtain ⟨user, hnew, -⟩ :=
    (h ⟨[5], [false], 0, 5, 100, 1⟩ [true] ⟨by decide, by decide, by decide⟩).mp (by decide)
  obtain ⟨-, hlt, hstart, -⟩ := hnew
  obtain rfl : user = 0 := Nat.lt_one_iff.mp hlt
  cases hstart

end Conversation

end Llmx
