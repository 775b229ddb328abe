import Llmx.MessageEnds

namespace Llmx

namespace MessageEnds

variable {messages prompt : Nat} {points : List Nat} {rows : Nat → Option Nat}

/-- The conversation a memo of ends is about. -/
structure About (messages prompt : Nat) (points : List Nat) (rows : Nat → Option Nat)
    (c : MessageEnds) : Prop where
  length_eq : c.ends.length = messages
  prompt_eq : c.prompt = prompt
  points_eq : c.points = points
  rows_eq : c.rows = rows

/-- The end after message `m` is `x`, the prompt's after the last message. -/
def NextIs (messages prompt : Nat) (c : MessageEnds) (m x : Nat) : Prop :=
  if m + 1 < messages then c.Knows (m + 1) x else x = prompt

/-- A given end is the rows'; a refused one is known with every end up to the next given one, no
further than the next, and leaves room over the given end before it for the refused between. -/
structure Inv (messages prompt : Nat) (points : List Nat) (rows : Nat → Option Nat)
    (c : MessageEnds) : Prop extends About messages prompt points rows c where
  given : ∀ m e r, c.Knows m e → rows (m + 1) = some r → e = r
  chain : ∀ m e, c.Knows m e → rows (m + 1) = none →
    ∃ x, c.NextIs messages prompt m x ∧ e ≤ x
  room : ∀ m e, c.Knows m e → rows (m + 1) = none → ∀ k a, k < m → rows (k + 1) = some a →
    (∀ j, k < j → j < m → rows (j + 1) = none) → PointRoom points a (m - k - 1) e

theorem Knows.lt {c : MessageEnds} {m e : Nat} (h : c.Knows m e) : m < c.ends.length :=
  (List.getElem?_eq_some_iff.mp h).1

theorem Knows.inj {c : MessageEnds} {m a b : Nat} (h : c.Knows m a) (h' : c.Knows m b) : a = b :=
  Option.some.inj (Option.some.inj (h.symm.trans h'))

theorem knows_learn {c : MessageEnds} {m e k a : Nat} :
    (c.learn m e).Knows k a ↔ (k = m ∧ a = e ∧ m < c.ends.length) ∨ (k ≠ m ∧ c.Knows k a) := by
  unfold Knows learn
  dsimp only
  rw [List.getElem?_set]
  split
  next heq =>
    obtain rfl := heq
    split
    next hlt =>
      simp only [Option.some.injEq]
      constructor
      · intro h
        exact Or.inl ⟨trivial, h.symm, hlt⟩
      · rintro (⟨-, h, -⟩ | ⟨h, -⟩)
        · exact h.symm
        · exact absurd rfl h
    next hlt =>
      constructor
      · intro h
        cases h
      · rintro (⟨-, -, h⟩ | ⟨h, -⟩)
        · exact absurd h hlt
        · exact absurd rfl h
  next hne =>
    constructor
    · intro h
      exact Or.inr ⟨fun heq => hne heq.symm, h⟩
    · rintro (⟨h, -⟩ | ⟨-, h⟩)
      · exact absurd h.symm hne
      · exact h

theorem knows_of_join {c : MessageEnds} {m e : Nat} : c.ends[m]?.join = some e ↔ c.Knows m e :=
  Option.join_eq_some_iff

/-- An earlier end that clamps is one that is known. -/
theorem knows_of_findSome {c : MessageEnds} {m e : Nat}
    (h : (c.ends.take m).reverse.findSome? id = some e) : ∃ k < m, c.Knows k e := by
  obtain ⟨o, ho, he⟩ := List.exists_of_findSome?_eq_some h
  obtain rfl : o = some e := he
  rw [List.mem_reverse] at ho
  obtain ⟨k, hk, hget⟩ := List.getElem_of_mem ho
  rw [List.length_take] at hk
  rw [List.getElem_take] at hget
  exact ⟨k, by omega, by rw [Knows, List.getElem?_eq_getElem (by omega), hget]⟩

theorem placed_cases (c : MessageEnds) (m next : Nat) :
    lastPoint c.points next ≤ c.placed m next ∧
      (c.placed m next = lastPoint c.points next ∨ ∃ k < m, c.Knows k (c.placed m next)) := by
  unfold placed
  split
  next e h =>
    obtain ⟨k, hk, hknows⟩ := knows_of_findSome h
    refine ⟨Nat.le_max_left _ _, ?_⟩
    by_cases hle : e ≤ lastPoint c.points next
    · exact Or.inl (Nat.max_eq_left hle)
    · rw [Nat.max_eq_right (by omega)]
      exact Or.inr ⟨k, hk, hknows⟩
  next => exact ⟨Nat.le_refl _, Or.inl rfl⟩

/-- With no earlier end known nothing clamps. -/
theorem placed_of_unknown {c : MessageEnds} {m next : Nat} (h : ∀ k < m, ∀ e, ¬c.Knows k e) :
    c.placed m next = lastPoint c.points next := by
  unfold placed
  split
  next e he =>
    obtain ⟨k, hk, hknows⟩ := knows_of_findSome he
    exact absurd hknows (h k hk e)
  next => rfl

theorem Inv.prompt_le {c : MessageEnds} (h : c.Inv messages prompt points rows)
    (hf : Fair messages prompt points rows) {m e : Nat} (hk : c.Knows m e) : e ≤ prompt := by
  obtain ⟨d, hd⟩ := Nat.exists_eq_add_of_lt (h.length_eq ▸ hk.lt)
  induction d generalizing m e with
  | zero =>
    cases hr : rows (m + 1) with
    | some r => exact h.given m e r hk hr ▸ hf.inside m r (by omega) hr
    | none =>
      obtain ⟨x, hx, hle⟩ := h.chain m e hk hr
      rw [NextIs, if_neg (by omega)] at hx
      omega
  | succ d ih =>
    cases hr : rows (m + 1) with
    | some r => exact h.given m e r hk hr ▸ hf.inside m r (by omega) hr
    | none =>
      obtain ⟨x, hx, hle⟩ := h.chain m e hk hr
      rw [NextIs, if_pos (by omega)] at hx
      exact hle.trans (ih hx (by omega))

/-- A known end is no further than a later given one. -/
theorem Inv.le_given {c : MessageEnds} (h : c.Inv messages prompt points rows)
    (hf : Fair messages prompt points rows) {k m a b : Nat} (hkm : k ≤ m) (hm : m < messages)
    (hk : c.Knows k a) (hr : rows (m + 1) = some b) : a ≤ b := by
  obtain ⟨d, rfl⟩ := Nat.exists_eq_add_of_le hkm
  induction d generalizing k a with
  | zero => exact Nat.le_of_eq (h.given _ a b hk hr)
  | succ d ih =>
    cases hrk : rows (k + 1) with
    | some r =>
      obtain rfl := h.given k a r hk hrk
      exact hf.grows k _ a b (by omega) hm hrk hr
    | none =>
      obtain ⟨x, hx, hle⟩ := h.chain k a hk hrk
      rw [NextIs, if_pos (by omega)] at hx
      have heq : k + (d + 1) = k + 1 + d := by omega
      rw [heq] at hr hm
      exact hle.trans (ih hx (Nat.le_add_right _ _) hm hr)

/-- Before a refused message stands the last given one, or none. -/
theorem exists_given_before (rows : Nat → Option Nat) (m : Nat) :
    (∃ k a, k < m ∧ rows (k + 1) = some a ∧ ∀ j, k < j → j < m → rows (j + 1) = none) ∨
      ∀ j < m, rows (j + 1) = none := by
  induction m with
  | zero => exact Or.inr fun j hj => absurd hj (by omega)
  | succ m ih =>
    cases hr : rows (m + 1) with
    | some a => exact Or.inl ⟨m, a, Nat.lt_succ_self m, hr, fun j hj hj' => absurd hj (by omega)⟩
    | none =>
      rcases ih with ⟨k, a, hk, hka, hall⟩ | hall
      · refine Or.inl ⟨k, a, by omega, hka, fun j hj hj' => ?_⟩
        by_cases heq : j = m
        · rw [heq]
          exact hr
        · exact hall j hj (by omega)
      · refine Or.inr fun j hj => ?_
        by_cases heq : j = m
        · rw [heq]
          exact hr
        · exact hall j (by omega)

/-- Among refused messages the known ends grow. -/
theorem Inv.le_refused {c : MessageEnds} (h : c.Inv messages prompt points rows) {k m a b : Nat}
    (hkm : k ≤ m) (hrefused : ∀ j, k ≤ j → j < m → rows (j + 1) = none) (hk : c.Knows k a)
    (hm : c.Knows m b) : a ≤ b := by
  obtain ⟨d, rfl⟩ := Nat.exists_eq_add_of_le hkm
  have hlt := h.length_eq ▸ hm.lt
  clear hkm
  induction d generalizing k a with
  | zero => exact Nat.le_of_eq (hk.inj hm)
  | succ d ih =>
    obtain ⟨x, hx, hle⟩ := h.chain k a hk (hrefused k (Nat.le_refl k) (by omega))
    rw [NextIs, if_pos (by omega)] at hx
    have heq : k + (d + 1) = k + 1 + d := by omega
    rw [heq] at hm hrefused hlt
    exact hle.trans (ih hx (fun j hj hj' => hrefused j (by omega) hj') hm hlt)

theorem Inv.ordered {c : MessageEnds} (h : c.Inv messages prompt points rows)
    (hf : Fair messages prompt points rows) : c.Ordered := by
  refine ⟨fun k m a b hkm hk hm => ?_, fun m a hk => h.prompt_eq ▸ h.prompt_le hf hk⟩
  have hlt := h.length_eq ▸ hm.lt
  cases hr : rows (m + 1) with
  | some r =>
    obtain rfl := h.given m b r hm hr
    exact h.le_given hf hkm hlt hk hr
  | none =>
    rcases exists_given_before rows m with ⟨g, x, hg, hgx, hall⟩ | hall
    · by_cases hkg : k ≤ g
      · exact (h.le_given hf hkg (by omega) hk hgx).trans (h.room m b hm hr g x hg hgx hall).1
      · exact h.le_refused hkm (fun j hj hj' => hall j (by omega) hj') hk hm
    · exact h.le_refused hkm (fun j _ hj' => hall j hj') hk hm

/-- Asking for a message leaves the messages before it alone. -/
theorem knows_ask {c : MessageEnds} {m k e : Nat} (hkm : k < m) :
    (c.ask m).2.Knows k e ↔ c.Knows k e := by
  fun_induction ask c m with
  | case1 => exact Iff.rfl
  | case2 c m hm r hr =>
    rw [knows_learn]
    constructor
    · rintro (⟨heq, -⟩ | ⟨-, h⟩)
      · omega
      · exact h
    · exact fun h => Or.inr ⟨by omega, h⟩
  | case3 c m hm hr hlt next ih =>
    rw [knows_learn, ih (by omega)]
    constructor
    · rintro (⟨heq, -⟩ | ⟨-, h⟩)
      · omega
      · exact h
    · exact fun h => Or.inr ⟨by omega, h⟩
  | case4 c m hm hr hlt =>
    rw [knows_learn]
    constructor
    · rintro (⟨heq, -⟩ | ⟨-, h⟩)
      · omega
      · exact h
    · exact fun h => Or.inr ⟨by omega, h⟩

/-- What is asked for is known. -/
theorem ask_knows {c : MessageEnds} {m : Nat} (h : m < c.ends.length) :
    (c.ask m).2.ends.length = c.ends.length ∧ (c.ask m).2.Knows m (c.ask m).1 := by
  fun_induction ask c m with
  | case1 c m e he => exact ⟨rfl, knows_of_join.mp he⟩
  | case2 c m hm r hr =>
    exact ⟨List.length_set, knows_learn.mpr (Or.inl ⟨rfl, rfl, h⟩)⟩
  | case3 c m hm hr hlt next ih =>
    obtain ⟨hlen, -⟩ := ih hlt
    refine ⟨List.length_set.trans hlen, knows_learn.mpr (Or.inl ⟨rfl, rfl, ?_⟩)⟩
    rw [hlen]
    exact h
  | case4 c m hm hr hlt =>
    exact ⟨List.length_set, knows_learn.mpr (Or.inl ⟨rfl, rfl, h⟩)⟩

theorem NextIs.learn {c : MessageEnds} {k m x e : Nat} (h : c.NextIs messages prompt k x)
    (hunknown : ∀ e, ¬c.Knows m e) : (c.learn m e).NextIs messages prompt k x := by
  unfold NextIs at h ⊢
  split
  next hlt =>
    rw [if_pos hlt] at h
    refine knows_learn.mpr (Or.inr ⟨fun heq => ?_, h⟩)
    rw [heq] at h
    exact hunknown x h
  next hlt =>
    rw [if_neg hlt] at h
    exact h

/-- An end learned keeps what is known right when it is the rows', or a refused message's between
the known before it and the next end, with its room. -/
theorem Inv.learn {c : MessageEnds} (h : c.Inv messages prompt points rows) {m e : Nat}
    (hunknown : ∀ e, ¬c.Knows m e) (hgiven : ∀ r, rows (m + 1) = some r → e = r)
    (hchain : rows (m + 1) = none →
      ∃ x, c.NextIs messages prompt m x ∧ e ≤ x)
    (hroom : rows (m + 1) = none → ∀ k a, k < m → rows (k + 1) = some a →
      (∀ j, k < j → j < m → rows (j + 1) = none) → PointRoom points a (m - k - 1) e) :
    (c.learn m e).Inv messages prompt points rows := by
  refine ⟨⟨List.length_set.trans h.length_eq, h.prompt_eq, h.points_eq, h.rows_eq⟩, ?_, ?_, ?_⟩
  · intro k a r hk hr
    rcases knows_learn.mp hk with ⟨rfl, rfl, -⟩ | ⟨-, hk⟩
    · exact hgiven r hr
    · exact h.given k a r hk hr
  · intro k a hk hr
    rcases knows_learn.mp hk with ⟨rfl, rfl, -⟩ | ⟨hne, hk⟩
    · obtain ⟨x, hx, hle⟩ := hchain hr
      exact ⟨x, hx.learn hunknown, hle⟩
    · obtain ⟨x, hx, hle⟩ := h.chain k a hk hr
      exact ⟨x, hx.learn hunknown, hle⟩
  · intro k a hk hr
    rcases knows_learn.mp hk with ⟨rfl, rfl, -⟩ | ⟨-, hk⟩
    · exact hroom hr
    · exact h.room k a hk hr

theorem Inv.render {c : MessageEnds} (h : c.Inv messages prompt points rows) :
    c.render.Inv messages prompt points rows :=
  ⟨⟨h.length_eq, h.prompt_eq, h.points_eq, h.rows_eq⟩, h.given, h.chain, h.room⟩

/-- A refused message placed before the next end fits between its neighbours. -/
theorem Inv.learn_placed {c : MessageEnds} (h : c.Inv messages prompt points rows)
    (hf : Fair messages prompt points rows) {m next : Nat} (hunknown : ∀ e, ¬c.Knows m e)
    (hr : rows (m + 1) = none) (hnext : c.NextIs messages prompt m next)
    (hroom : ∀ k a, k < m → rows (k + 1) = some a → (∀ j, k < j → j < m + 1 → rows (j + 1) = none) →
      PointRoom points a (m - k) next) :
    (c.learn m (c.placed m next)).Inv messages prompt points rows := by
  obtain ⟨hle, hcase⟩ := c.placed_cases m next
  rw [h.points_eq] at hle hcase
  apply h.learn hunknown
  · intro r hr'
    rw [hr] at hr'
    cases hr'
  · intro _
    refine ⟨next, hnext, ?_⟩
    rcases hcase with heq | ⟨k, hk, hknows⟩
    · rw [heq]
      exact lastPoint_le hf.sorted next
    · unfold NextIs at hnext
      split at hnext
      next => exact (h.ordered hf).1 k (m + 1) _ _ (by omega) hknows hnext
      next =>
        have := h.prompt_le hf hknows
        omega
  · intro _ k a hk hka hall
    have hall' : ∀ j, k < j → j < m + 1 → rows (j + 1) = none := by
      intro j hj hj'
      by_cases heq : j = m
      · rw [heq]
        exact hr
      · exact hall j hj (by omega)
    have hroom := hroom k a hk hka hall'
    rw [show m - k = m - k - 1 + 1 by omega] at hroom
    exact (hroom.lastPoint hf.sorted).mono hle

/-- The next end leaves the refused messages behind it their room. -/
theorem Inv.room_next {c : MessageEnds} (h : c.Inv messages prompt points rows)
    (hf : Fair messages prompt points rows) (hspaced : Spaced messages prompt points rows)
    {m next : Nat} (hm : m < messages) (hnext : c.NextIs messages prompt m next) {k a : Nat}
    (hk : k ≤ m) (hka : rows (k + 1) = some a)
    (hall : ∀ j, k < j → j < m + 1 → rows (j + 1) = none) : PointRoom points a (m - k) next := by
  unfold NextIs at hnext
  by_cases hlt : m + 1 < messages
  · rw [if_pos hlt] at hnext
    cases hr : rows (m + 1 + 1) with
    | some r =>
      obtain rfl := h.given _ _ r hnext hr
      have hspace := hspaced k (m + 1) a next (by omega) (by omega) hka hall
        (by rw [if_pos hlt]; exact hr)
      rw [show m + 1 - k - 1 = m - k by omega] at hspace
      exact ⟨hf.grows k (m + 1) a next (by omega) hlt hka hr, hspace⟩
    | none =>
      have hroom := h.room (m + 1) next hnext hr k a (by omega) hka hall
      rw [show m + 1 - k - 1 = m - k by omega] at hroom
      exact hroom
  · rw [if_neg hlt] at hnext
    obtain rfl := hnext
    have hspace := hspaced k (m + 1) a next (by omega) (by omega) hka hall
      (by rw [if_neg hlt])
    rw [show m + 1 - k - 1 = m - k by omega] at hspace
    exact ⟨hf.inside k a (by omega) hka, hspace⟩

theorem unknown_of_join {c : MessageEnds} {m : Nat} (h : c.ends[m]?.join = none) (e : Nat) :
    ¬c.Knows m e := by
  intro hk
  rw [knows_of_join.mpr hk] at h
  cases h

/-- Asking keeps what is known right. -/
theorem Inv.ask {c : MessageEnds} (h : c.Inv messages prompt points rows)
    (hf : Fair messages prompt points rows) (hspaced : Spaced messages prompt points rows) {m : Nat}
    (hm : m < messages) : (c.ask m).2.Inv messages prompt points rows := by
  fun_induction MessageEnds.ask c m with
  | case1 => exact h
  | case2 c m hunknown r hr =>
    rw [h.rows_eq] at hr
    apply h.render.learn (unknown_of_join hunknown)
    · intro r' hr'
      exact Option.some.inj (hr.symm.trans hr')
    · intro hr'
      rw [hr] at hr'
      cases hr'
    · intro hr'
      rw [hr] at hr'
      cases hr'
  | case3 c m hunknown hr hlt next ih =>
    rw [h.length_eq] at hlt
    rw [h.rows_eq] at hr
    have hinv := ih h.render hlt
    have hknows : next.2.NextIs messages prompt m next.1 := by
      rw [NextIs, if_pos hlt]
      exact (ask_knows (c := c.render) (h.length_eq.symm ▸ hlt)).2
    apply hinv.learn_placed hf _ hr hknows
    · exact fun k a hk hka hall => hinv.room_next hf hspaced hm hknows (by omega) hka hall
    · intro e he
      exact unknown_of_join hunknown e ((knows_ask (c := c.render) (Nat.lt_succ_self m)).mp he)
  | case4 c m hunknown hr hlt =>
    rw [h.length_eq] at hlt
    rw [h.rows_eq] at hr
    rw [h.prompt_eq]
    have hnext : c.render.NextIs messages prompt m prompt := by
      rw [NextIs, if_neg hlt]
    apply h.render.learn_placed hf (unknown_of_join hunknown) hr hnext
    exact fun k a hk hka hall => h.render.room_next hf hspaced hm hnext (by omega) hka hall

theorem start_unknown (messages prompt : Nat) (points : List Nat) (rows : Nat → Option Nat)
    (m e : Nat) : ¬(start messages prompt points rows).Knows m e := by
  intro h
  have hlt := h.lt
  rw [start, List.length_replicate] at hlt
  unfold Knows start at h
  rw [List.getElem?_replicate_of_lt hlt] at h
  cases h

theorem start_about (messages prompt : Nat) (points : List Nat) (rows : Nat → Option Nat) :
    (start messages prompt points rows).About messages prompt points rows :=
  ⟨List.length_replicate, rfl, rfl, rfl⟩

theorem start_inv (messages prompt : Nat) (points : List Nat) (rows : Nat → Option Nat) :
    (start messages prompt points rows).Inv messages prompt points rows :=
  ⟨start_about messages prompt points rows, fun m e _ h => absurd h (start_unknown _ _ _ _ m e),
    fun m e h => absurd h (start_unknown _ _ _ _ m e),
    fun m e h => absurd h (start_unknown _ _ _ _ m e)⟩

theorem Inv.asked {c : MessageEnds} (h : c.Inv messages prompt points rows)
    (hf : Fair messages prompt points rows) (hspaced : Spaced messages prompt points rows)
    {ms : List Nat} (hms : ∀ m ∈ ms, m < messages) :
    (c.asked ms).Inv messages prompt points rows := by
  induction ms generalizing c with
  | nil => exact h
  | cons m ms ih =>
    rw [List.forall_mem_cons] at hms
    exact ih (h.ask hf hspaced hms.1) hms.2

theorem About.render {c : MessageEnds} (h : c.About messages prompt points rows) :
    c.render.About messages prompt points rows :=
  ⟨h.length_eq, h.prompt_eq, h.points_eq, h.rows_eq⟩

theorem About.learn {c : MessageEnds} (h : c.About messages prompt points rows) (m e : Nat) :
    (c.learn m e).About messages prompt points rows :=
  ⟨List.length_set.trans h.length_eq, h.prompt_eq, h.points_eq, h.rows_eq⟩

theorem About.ask {c : MessageEnds} (h : c.About messages prompt points rows) (m : Nat) :
    (c.ask m).2.About messages prompt points rows := by
  fun_induction MessageEnds.ask c m with
  | case1 => exact h
  | case2 => exact h.render.learn _ _
  | case3 c m _ _ _ next ih => exact (ih h.render).learn _ _
  | case4 => exact h.render.learn _ _

theorem join_of_unknown {c : MessageEnds} {m : Nat} (h : ∀ e, ¬c.Knows m e) :
    c.ends[m]?.join = none := by
  cases hj : c.ends[m]?.join with
  | none => rfl
  | some e => exact absurd (knows_of_join.mp hj) (h e)

/-- Where nothing is known a refused message ends as many points back from the next given end, or
the prompt's, as messages are refused from it on. -/
theorem ask_of_unknown {c : MessageEnds} (h : c.About messages prompt points rows) {m d stop : Nat}
    (hunknown : ∀ k e, ¬c.Knows k e) (hle : m + d ≤ messages) (hm : m < messages)
    (hall : ∀ j, m ≤ j → j < m + d → rows (j + 1) = none)
    (hstop : if m + d < messages then rows (m + d + 1) = some stop else stop = prompt) :
    (c.ask m).1 = (lastPoint points)^[d] stop := by
  induction d generalizing c m with
  | zero =>
    rw [Nat.add_zero, if_pos hm] at hstop
    rw [MessageEnds.ask, join_of_unknown (hunknown m), h.rows_eq, hstop]
    rfl
  | succ d ih =>
    have hr := hall m (Nat.le_refl m) (by omega)
    rw [MessageEnds.ask, join_of_unknown (hunknown m), h.rows_eq, hr, h.length_eq,
      Function.iterate_succ_apply']
    dsimp only
    split
    next hlt =>
      have heq : m + 1 + d = m + (d + 1) := by omega
      have hnext := ih h.render hunknown (by omega) hlt (fun j hj hj' => hall j (by omega) (by omega))
        (by rw [heq]; exact hstop)
      have hbefore : ∀ k < m, ∀ e, ¬(c.render.ask (m + 1)).2.Knows k e := by
        intro k hk e hknows
        exact hunknown k e ((knows_ask (c := c.render) (show k < m + 1 by omega)).mp hknows)
      show (c.render.ask (m + 1)).2.placed m (c.render.ask (m + 1)).1 = _
      rw [placed_of_unknown hbefore, (h.render.ask (m + 1)).points_eq, hnext]
    next hlt =>
      obtain rfl : d = 0 := by omega
      rw [if_neg hlt] at hstop
      show c.render.placed m c.prompt = _
      rw [placed_of_unknown (c := c.render) (fun k _ => hunknown k), h.render.points_eq, h.prompt_eq,
        hstop]
      rfl

/-- Asked for the refused message behind a given one and then for the given one, the ends decrease
where the points leave the refused ones no room. -/
theorem spaced_of_ordered
    (h : ∀ ms, (∀ m ∈ ms, m < messages) → ((start messages prompt points rows).asked ms).Ordered)
    (hs : points.Pairwise (· ≤ ·)) : Spaced messages prompt points rows := by
  intro k g a stop hkg hg hka hall hstop
  by_contra hnot
  rw [not_or] at hnot
  obtain ⟨hbefore, hfew⟩ := hnot
  have hpoint : ∃ p ∈ points, p < a := by
    by_contra hno
    refine hbefore fun p hp => ?_
    by_contra hlt
    exact hno ⟨p, hp, by omega⟩
  obtain ⟨p, hp, hpa⟩ := hpoint
  have habout := start_about messages prompt points rows
  have hunknown := start_unknown messages prompt points rows
  obtain ⟨d, hd⟩ : ∃ d, g = k + 1 + d := ⟨g - k - 1, by omega⟩
  have hdpos : 0 < d := by omega
  have hfirst : ((start messages prompt points rows).ask (k + 1)).1 =
      (lastPoint points)^[d] stop :=
    ask_of_unknown habout hunknown (by omega) (by omega)
      (fun j hj hj' => hall j (by omega) (by omega)) (by rw [← hd]; exact hstop)
  have hlow := iterate_lastPoint_lt hs hp hpa (t := d) (x := stop) (by omega)
  rw [← hfirst] at hlow
  have hlt : k + 1 < messages := by omega
  have hknows := (ask_knows (c := start messages prompt points rows) (m := k + 1)
    (habout.length_eq.symm ▸ hlt)).2
  have hafter := habout.ask (k + 1)
  have hbefore : ∀ e, ¬((start messages prompt points rows).ask (k + 1)).2.Knows k e :=
    fun e he => hunknown k e ((knows_ask (Nat.lt_succ_self k)).mp he)
  have hasked : (start messages prompt points rows).asked [k + 1, k] =
      ((start messages prompt points rows).ask (k + 1)).2.render.learn k a := by
    show (((start messages prompt points rows).ask (k + 1)).2.ask k).2 = _
    rw [MessageEnds.ask, join_of_unknown hbefore, hafter.rows_eq, hka]
  have hordered := (h [k + 1, k] (by
    intro m hm
    rcases List.mem_cons.mp hm with rfl | hm
    · exact hlt
    · obtain rfl := List.mem_singleton.mp hm
      omega)).1 k (k + 1) a ((start messages prompt points rows).ask (k + 1)).1 (by omega)
  rw [hasked] at hordered
  have hle := hordered
    (knows_learn.mpr (Or.inl ⟨rfl, rfl, hafter.length_eq.symm ▸ (show k < messages by omega)⟩))
    (knows_learn.mpr (Or.inr ⟨by omega, hknows⟩))
  omega

/-- However the messages are asked for, the known ends grow with the messages and stay within the
prompt, if and only if the points leave the refused messages their room. -/
theorem ends_ordered_iff (hf : Fair messages prompt points rows) :
    (∀ ms, (∀ m ∈ ms, m < messages) → ((start messages prompt points rows).asked ms).Ordered) ↔
      Spaced messages prompt points rows :=
  ⟨fun h => spaced_of_ordered h hf.sorted, fun hspaced _ hms =>
    ((start_inv messages prompt points rows).asked hf hspaced hms).ordered hf⟩

/-- Three messages, the second refused, whose first ends at 50 and last at 100. -/
def refusedSecond (k : Nat) : Option Nat := if k = 1 then some 50 else if k = 3 then some 100 else none

theorem refusedSecond_fair {points : List Nat} (hs : points.Pairwise (· ≤ ·)) :
    Fair 3 120 points refusedSecond := by
  refine ⟨hs, fun k m a b hkm hm hk hb => ?_, fun m a hm ha => ?_⟩
  · unfold refusedSecond at hk hb
    grind
  · unfold refusedSecond at ha
    grind

/-- With a point at 60 the second message keeps its place though it is asked for first. -/
theorem ends_ordered_iff_refusedSecond :
    ((start 3 120 [60] refusedSecond).asked [1, 0]).Ordered := by
  apply (ends_ordered_iff (refusedSecond_fair (List.pairwise_singleton _ 60))).mpr _ [1, 0]
    (by decide)
  intro k g a stop hkg hg hka hall hstop
  right
  obtain rfl | rfl | rfl : k = 0 ∨ k = 1 ∨ k = 2 := by omega
  · obtain rfl | rfl | rfl : g = 1 ∨ g = 2 ∨ g = 3 := by omega
    · exact Nat.zero_le _
    · obtain rfl : 50 = a := Option.some.inj hka
      obtain rfl : 100 = stop := Option.some.inj hstop
      decide
    · cases hall 2 (by omega) (by omega)
  · cases hka
  · rw [show g - 2 - 1 = 0 by omega]
    exact Nat.zero_le _

/-- With a point at 10 alone the second message is placed there, before the first's end. -/
theorem not_ends_ordered :
    ¬∀ (messages prompt : Nat) (points : List Nat) (rows : Nat → Option Nat),
      Fair messages prompt points rows → ∀ ms, (∀ m ∈ ms, m < messages) →
        ((start messages prompt points rows).asked ms).Ordered := by
  intro h
  have hs : [10].Pairwise (· ≤ ·) := List.pairwise_singleton _ 10
  have hspaced := spaced_of_ordered (h 3 120 [10] refusedSecond (refusedSecond_fair hs)) hs
  have hroom := hspaced 0 2 50 100 (by omega) (by omega) rfl (fun j hj hj' => by
    obtain rfl : j = 1 := by omega
    rfl) rfl
  revert hroom
  decide

end MessageEnds

end Llmx
