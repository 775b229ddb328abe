import Mathlib.Data.Nat.Find
import Mathlib.Logic.Function.Basic
import Mathlib.Tactic.Common

/-!
Tables of places in a ring, an entry found by walking on from its key's home, and taken out by
moving later entries back into the gap.
-/

namespace OpenIndex

/-- How many steps lead from `a` to `b` round `m` places. -/
def ahead (m a b : Nat) : Nat := if a ≤ b then b - a else b + m - a

/-- The place `d` steps after `a`. -/
def after (m a d : Nat) : Nat := if a + d < m then a + d else a + d - m

section Ring

variable {m a b c d : Nat}

theorem ahead_lt (ha : a < m) (hb : b < m) : ahead m a b < m := by
  unfold ahead
  split_ifs <;> omega

theorem after_lt (ha : a < m) (hd : d < m) : after m a d < m := by
  unfold after
  split_ifs <;> omega

theorem after_ahead (ha : a < m) (hb : b < m) : after m a (ahead m a b) = b := by
  unfold after ahead
  split_ifs <;> omega

theorem ahead_after (ha : a < m) (hd : d < m) : ahead m a (after m a d) = d := by
  unfold after ahead
  split_ifs <;> omega

theorem ahead_self (m a : Nat) : ahead m a a = 0 := by
  unfold ahead
  split_ifs <;> omega

theorem eq_of_ahead (ha : a < m) (hb : b < m) (hc : c < m) (h : ahead m a b = ahead m a c) :
    b = c := by
  rw [← after_ahead ha hb, h, after_ahead ha hc]

/-- On the way from `a` to `c`, past `b`. -/
theorem ahead_add (ha : a < m) (hb : b < m) (hc : c < m) (h : ahead m a b ≤ ahead m a c) :
    ahead m a c = ahead m a b + ahead m b c := by
  unfold ahead at *
  split_ifs at * <;> omega

theorem ahead_add' (ha : a < m) (hb : b < m) (h : ahead m b c ≤ ahead m a c) :
    ahead m a c = ahead m a b + ahead m b c := by
  unfold ahead at *
  split_ifs at * <;> omega

theorem after_after (ha : a < m) (hd : d + b < m) : after m (after m a d) b = after m a (d + b) := by
  unfold after
  split_ifs <;> omega

theorem ahead_next (ha : a < m) (hb : b < m) (hne : a ≠ b) :
    ahead m (after m a 1) b + 1 = ahead m a b := by
  unfold ahead after
  split_ifs <;> omega

theorem ahead_back (ha : a < m) : ahead m (after m a 1) a + 1 = m := by
  unfold ahead after
  split_ifs <;> omega

theorem ahead_to_next (ha : a < m) (hb : b < m) (h : ahead m a b + 1 < m) :
    ahead m a (after m b 1) = ahead m a b + 1 := by
  unfold ahead after at *
  split_ifs at * <;> omega

theorem ahead_pos (ha : a < m) (hne : a ≠ b) : 0 < ahead m a b := by
  unfold ahead
  split_ifs <;> omega

end Ring

/-- The first place from `i` on where `stop` holds, in `rounds` steps. -/
def probe (stop : Nat → Bool) (m : Nat) : Nat → Nat → Option Nat
  | 0, _ => none
  | rounds + 1, i => if stop i then some i else probe stop m rounds (after m i 1)

theorem probe_eq {stop : Nat → Bool} {m i d rounds : Nat} (hi : i < m) (hd : d < m)
    (hrounds : d < rounds) (hstop : stop (after m i d) = true)
    (hbefore : ∀ d' < d, stop (after m i d') = false) :
    probe stop m rounds i = some (after m i d) := by
  induction d generalizing i rounds with
  | zero =>
    obtain ⟨rounds, rfl⟩ : ∃ r, rounds = r + 1 := ⟨rounds - 1, by omega⟩
    have h0 : after m i 0 = i := if_pos (by omega)
    rw [h0] at hstop ⊢
    rw [probe, if_pos hstop]
  | succ d ih =>
    obtain ⟨rounds, rfl⟩ : ∃ r, rounds = r + 1 := ⟨rounds - 1, by omega⟩
    have h0 : after m i 0 = i := if_pos (by omega)
    have hnot := hbefore 0 (by omega)
    rw [h0] at hnot
    have hstep : ∀ d', d' ≤ d → after m (after m i 1) d' = after m i (d' + 1) := by
      intro d' hd'
      rw [after_after hi (by omega), Nat.add_comm]
    rw [probe, if_neg (by rw [hnot]; exact Bool.false_ne_true),
      ih (after_lt hi (by omega)) (by omega) (by omega) (by rw [hstep d (by omega)]; exact hstop)
        fun d' hd' => by rw [hstep d' (by omega)]; exact hbefore (d' + 1) (by omega),
      hstep d (by omega)]

theorem probe_exists (stop : Nat → Bool) {m i p : Nat} (hi : i < m) (hp : p < m)
    (hstop : stop p = true) :
    ∃ d < m, probe stop m m i = some (after m i d) ∧ stop (after m i d) = true ∧
      ∀ d' < d, stop (after m i d') = false := by
  have hex : ∃ d, stop (after m i d) = true ∧ d < m :=
    ⟨ahead m i p, by rw [after_ahead hi hp]; exact hstop, ahead_lt hi hp⟩
  obtain ⟨h1, h2⟩ := Nat.find_spec hex
  have hbefore : ∀ d' < Nat.find hex, stop (after m i d') = false := by
    intro d' hd'
    have hmin := Nat.find_min hex hd'
    cases hs : stop (after m i d') with
    | false => rfl
    | true => exact absurd ⟨hs, by omega⟩ hmin
  exact ⟨Nat.find hex, h2, probe_eq hi h2 h2 h1 hbefore, h1, hbefore⟩

section Table

variable {W K : Type} (empty : W) (key : W → K) (home : K → Nat) (m : Nat)

/-- Every entry is reached from its key's home past entries only, no two have one key, and a place
is empty. -/
structure Chained (t : Nat → W) : Prop where
  path : ∀ p < m, t p ≠ empty → ∀ d < ahead m (home (key (t p))) p,
    t (after m (home (key (t p))) d) ≠ empty
  distinct : ∀ p < m, ∀ q < m, t p ≠ empty → t q ≠ empty → key (t p) = key (t q) → p = q
  room : ∃ p < m, t p = empty

variable {empty key home m} {t : Nat → W}

theorem update_ne {p q : Nat} {w : W} (h : q ≠ p) : Function.update t p w q = t q :=
  Function.update_of_ne h w t

/-- The entry at `gap` is taken out; the places from it up to `j` need it no more. -/
structure Gapped (empty : W) (key : W → K) (home : K → Nat) (m : Nat) (t0 : Nat → W) (k : K)
    (t : Nat → W) (gap j : Nat) : Prop where
  gap_lt : gap < m
  j_lt : j < m
  ne : gap ≠ j
  scanned : ∀ p < m, 0 < ahead m gap p → ahead m gap p < ahead m gap j →
    t p ≠ empty ∧ ahead m (home (key (t p))) p < ahead m gap p
  path : ∀ p < m, p ≠ gap → t p ≠ empty → ∀ d < ahead m (home (key (t p))) p,
    after m (home (key (t p))) d = gap ∨ t (after m (home (key (t p))) d) ≠ empty
  distinct : ∀ p < m, ∀ q < m, p ≠ gap → q ≠ gap → t p ≠ empty → t q ≠ empty →
    key (t p) = key (t q) → p = q
  entries : ∀ w, w ≠ empty → ((∃ p < m, p ≠ gap ∧ t p = w) ↔ (∃ p < m, t0 p = w) ∧ key w ≠ k)

theorem Gapped.next_lt {t0 : Nat → W} {k : K} {gap j e : Nat}
    (h : Gapped empty key home m t0 k t gap j) (he : e < m) (hempty : t e = empty) (hne : e ≠ gap)
    (hfull : t j ≠ empty) : ahead m gap j + 1 < m := by
  have hj := ahead_lt h.gap_lt h.j_lt
  have hlt := ahead_lt h.gap_lt he
  have hpos := ahead_pos h.gap_lt hne.symm
  apply Decidable.byContradiction
  intro hcon
  rcases Nat.lt_trichotomy (ahead m gap e) (ahead m gap j) with h1 | h1 | h1
  · exact (h.scanned e he hpos h1).1 hempty
  · have heq := eq_of_ahead h.gap_lt he h.j_lt h1
    rw [heq] at hempty
    exact hfull hempty
  · omega

variable [DecidableEq W]

/-- Entries from `j` on moved back into the gap, up to the first empty place. -/
def shift (empty : W) (key : W → K) (home : K → Nat) (m : Nat) :
    Nat → (Nat → W) → Nat → Nat → Option (Nat → W)
  | 0, _, _, _ => none
  | rounds + 1, t, gap, j =>
    if t j = empty then some (Function.update t gap empty)
    else if ahead m gap j ≤ ahead m (home (key (t j))) j then
      shift empty key home m rounds (Function.update t gap (t j)) j (after m j 1)
    else shift empty key home m rounds t gap (after m j 1)

/-- An entry put at the first empty place from its home on. -/
theorem Chained.insert (h : Chained empty key home m t) (hhome : ∀ k, home k < m) {w : W}
    (hw : w ≠ empty) (hnew : ∀ q < m, t q ≠ empty → key (t q) ≠ key w)
    (hroom : ∃ p q, p < m ∧ q < m ∧ p ≠ q ∧ t p = empty ∧ t q = empty) :
    ∃ p < m, probe (fun p => t p = empty) m m (home (key w)) = some p ∧ t p = empty ∧
      Chained empty key home m (Function.update t p w) := by
  obtain ⟨e, he, hempty⟩ := h.room
  obtain ⟨d, hd, hprobe, hstop, hbefore⟩ :=
    probe_exists (fun p => t p = empty) (hhome (key w)) he (decide_eq_true hempty)
  have hp := after_lt (hhome (key w)) hd
  have hgap := of_decide_eq_true hstop
  refine ⟨_, hp, hprobe, hgap, ?_, ?_, ?_⟩
  · intro q hq hfull d' hd'
    by_cases hqp : q = after m (home (key w)) d
    · subst hqp
      rw [Function.update_self] at hd' ⊢
      rw [ahead_after (hhome _) hd] at hd'
      have hne : after m (home (key w)) d' ≠ after m (home (key w)) d := by
        intro heq
        have h1 := ahead_after (d := d') (hhome (key w)) (by omega)
        rw [heq, ahead_after (hhome _) hd] at h1
        omega
      rw [update_ne hne]
      exact of_decide_eq_false (hbefore d' hd')
    · rw [update_ne hqp] at hfull hd' ⊢
      have hpath := h.path q hq hfull d' hd'
      by_cases hd'p : after m (home (key (t q))) d' = after m (home (key w)) d
      · rw [hd'p, Function.update_self]
        exact hw
      · rw [update_ne hd'p]
        exact hpath
  · intro q hq r hr hfq hfr hkey
    by_cases hqp : q = after m (home (key w)) d
    · by_cases hrp : r = after m (home (key w)) d
      · rw [hqp, hrp]
      · rw [hqp, Function.update_self, update_ne hrp] at hkey
        rw [update_ne hrp] at hfr
        exact absurd hkey.symm (hnew r hr hfr)
    · by_cases hrp : r = after m (home (key w)) d
      · rw [hrp, Function.update_self, update_ne hqp] at hkey
        rw [update_ne hqp] at hfq
        exact absurd hkey (hnew q hq hfq)
      · rw [update_ne hqp] at hfq hkey
        rw [update_ne hrp] at hfr hkey
        exact h.distinct q hq r hr hfq hfr hkey
  · obtain ⟨p1, p2, h1, h2, hne, he1, he2⟩ := hroom
    by_cases hp1 : p1 = after m (home (key w)) d
    · refine ⟨p2, h2, ?_⟩
      rw [update_ne (by rw [← hp1]; exact hne.symm)]
      exact he2
    · exact ⟨p1, h1, by rw [update_ne hp1]; exact he1⟩

theorem Gapped.shift_some {t0 : Nat → W} {k : K} (hhome : ∀ k, home k < m) (rounds : Nat)
    {t : Nat → W} {gap j e : Nat} (h : Gapped empty key home m t0 k t gap j) (he : e < m)
    (hempty : t e = empty) (hne : e ≠ gap) (hrounds : ahead m j e < rounds) :
    ∃ t', shift empty key home m rounds t gap j = some t' ∧ Chained empty key home m t' ∧
      ∀ w, w ≠ empty → ((∃ p < m, t' p = w) ↔ (∃ p < m, t0 p = w) ∧ key w ≠ k) := by
  induction rounds generalizing t gap j with
  | zero => omega
  | succ rounds ih =>
    unfold shift
    by_cases hj : t j = empty
    · rw [if_pos hj]
      refine ⟨_, rfl, ⟨?_, ?_, ?_⟩, fun w hw => ?_⟩
      · intro p hp hfull d hd
        by_cases hpg : p = gap
        · rw [hpg, Function.update_self] at hfull
          exact absurd rfl hfull
        rw [update_ne hpg] at hfull hd ⊢
        have hd' := h.path p hp hpg hfull d hd
        have hdm : d < m := Nat.lt_trans hd (ahead_lt (hhome _) hp)
        have hgap : after m (home (key (t p))) d ≠ gap := by
          intro hg
          have hhd : ahead m (home (key (t p))) gap = d := by
            rw [← hg]
            exact ahead_after (hhome _) hdm
          have hsum := ahead_add (hhome (key (t p))) h.gap_lt hp (by omega)
          have hpos := ahead_pos h.gap_lt (Ne.symm hpg)
          rcases Nat.lt_trichotomy (ahead m gap p) (ahead m gap j) with h1 | h1 | h1
          · have hs := (h.scanned p hp hpos h1).2
            omega
          · have heq := eq_of_ahead h.gap_lt hp h.j_lt h1
            rw [heq] at hfull
            exact hfull hj
          · have hgj := ahead_add h.gap_lt h.j_lt hp (Nat.le_of_lt h1)
            have hjpos := ahead_pos h.gap_lt h.ne
            have hmid : after m (home (key (t p))) (d + ahead m gap j) = j := by
              rw [← after_after (hhome _)
                (by have hlt := ahead_lt (hhome (key (t p))) hp; omega), hg]
              exact after_ahead h.gap_lt h.j_lt
            rcases h.path p hp hpg hfull (d + ahead m gap j) (by omega) with h2 | h2
            · rw [hmid] at h2
              exact h.ne h2.symm
            · rw [hmid] at h2
              exact h2 hj
        rw [update_ne hgap]
        exact hd'.resolve_left hgap
      · intro p hp q hq hfp hfq hkey
        by_cases hpg : p = gap
        · rw [hpg, Function.update_self] at hfp
          exact absurd rfl hfp
        by_cases hqg : q = gap
        · rw [hqg, Function.update_self] at hfq
          exact absurd rfl hfq
        rw [update_ne hpg] at hfp hkey
        rw [update_ne hqg] at hfq hkey
        exact h.distinct p hp q hq hpg hqg hfp hfq hkey
      · exact ⟨gap, h.gap_lt, Function.update_self _ _ _⟩
      · rw [← h.entries w hw]
        constructor
        · rintro ⟨p, hp, hpw⟩
          by_cases hpg : p = gap
          · rw [hpg, Function.update_self] at hpw
            exact absurd hpw.symm hw
          · rw [update_ne hpg] at hpw
            exact ⟨p, hp, hpg, hpw⟩
        · rintro ⟨p, hp, hpg, hpw⟩
          exact ⟨p, hp, by rw [update_ne hpg]; exact hpw⟩
    · have hnext := h.next_lt he hempty hne hj
      have hej : j ≠ e := fun heq => hj (by rw [heq]; exact hempty)
      have hj1 := after_lt (d := 1) h.j_lt (by omega)
      have hstep := ahead_next h.j_lt he hej
      have hto := ahead_to_next h.gap_lt h.j_lt hnext
      rw [if_neg hj]
      by_cases hmove : ahead m gap j ≤ ahead m (home (key (t j))) j
      · rw [if_pos hmove]
        have hpath := ahead_add' (hhome (key (t j))) h.gap_lt hmove
        have hjj : j ≠ after m j 1 := by
          intro heq
          have h1 := ahead_after (a := j) (d := 1) h.j_lt (by omega)
          rw [← heq, ahead_self] at h1
          omega
        refine ih ⟨h.j_lt, hj1, hjj, ?_, ?_, ?_, fun w hw => ?_⟩ ?_ hej.symm (by omega)
        · intro p hp h0 h1
          have hone := ahead_after (a := j) (d := 1) h.j_lt (by omega)
          omega
        · intro p hp hpj hfull d hd
          by_cases hpg : p = gap
          · subst hpg
            rw [Function.update_self] at hd ⊢
            have hd' := h.path j h.j_lt (Ne.symm h.ne) hj d (by omega)
            have hjpos := ahead_pos h.gap_lt h.ne
            have hdm := ahead_lt (hhome (key (t j))) h.j_lt
            have hne1 : after m (home (key (t j))) d ≠ p := by
              intro heq
              have h1 := ahead_after (d := d) (hhome (key (t j))) (by omega)
              rw [heq] at h1
              omega
            rw [update_ne hne1]
            exact .inr (hd'.resolve_left hne1)
          · rw [update_ne hpg] at hfull hd ⊢
            rcases h.path p hp hpg hfull d hd with h1 | h1
            · rw [h1, Function.update_self]
              exact .inr hj
            · by_cases hg : after m (home (key (t p))) d = gap
              · rw [hg, Function.update_self]
                exact .inr hj
              · rw [update_ne hg]
                exact .inr h1
        · intro p hp q hq hpj hqj hfp hfq hkey
          by_cases hpg : p = gap
          · by_cases hqg : q = gap
            · rw [hpg, hqg]
            · rw [hpg, Function.update_self, update_ne hqg] at hkey
              rw [update_ne hqg] at hfq
              exact absurd (h.distinct j h.j_lt q hq (Ne.symm h.ne) hqg hj hfq hkey).symm hqj
          · by_cases hqg : q = gap
            · rw [hqg, Function.update_self, update_ne hpg] at hkey
              rw [update_ne hpg] at hfp
              exact absurd (h.distinct p hp j h.j_lt hpg (Ne.symm h.ne) hfp hj hkey) hpj
            · rw [update_ne hpg] at hfp hkey
              rw [update_ne hqg] at hfq hkey
              exact h.distinct p hp q hq hpg hqg hfp hfq hkey
        · rw [← h.entries w hw]
          constructor
          · rintro ⟨p, hp, hpj, hpw⟩
            by_cases hpg : p = gap
            · rw [hpg, Function.update_self] at hpw
              exact ⟨j, h.j_lt, Ne.symm h.ne, hpw⟩
            · rw [update_ne hpg] at hpw
              exact ⟨p, hp, hpg, hpw⟩
          · rintro ⟨p, hp, hpg, hpw⟩
            by_cases hpj : p = j
            · subst hpj
              exact ⟨gap, h.gap_lt, h.ne, by rw [Function.update_self]; exact hpw⟩
            · exact ⟨p, hp, hpj, by rw [update_ne hpg]; exact hpw⟩
        · rw [update_ne hne]
          exact hempty
      · rw [if_neg hmove]
        have hgapne : gap ≠ after m j 1 := by
          intro heq
          rw [← heq, ahead_self] at hto
          omega
        refine ih ⟨h.gap_lt, hj1, hgapne, ?_, h.path, h.distinct, h.entries⟩ hempty hne (by omega)
        intro p hp h0 h1
        rw [hto] at h1
        rcases Nat.lt_or_eq_of_le (Nat.lt_succ_iff.mp h1) with h2 | h2
        · exact h.scanned p hp h0 h2
        · have heq := eq_of_ahead h.gap_lt hp h.j_lt h2
          rw [heq]
          exact ⟨hj, by omega⟩

/-- Taking out the entry of key `k`, at `gap`. -/
theorem Chained.remove (h : Chained empty key home m t) (hhome : ∀ k, home k < m) {k : K}
    {gap : Nat} (hgap : gap < m) (hfull : t gap ≠ empty) (hkey : key (t gap) = k) :
    ∃ t', shift empty key home m m t gap (after m gap 1) = some t' ∧
      Chained empty key home m t' ∧
        ∀ w, w ≠ empty → ((∃ p < m, t' p = w) ↔ (∃ p < m, t p = w) ∧ key w ≠ k) := by
  obtain ⟨e, he, hempty⟩ := h.room
  have hne : e ≠ gap := fun heq => hfull (by rw [← heq]; exact hempty)
  have hm : 1 < m := by omega
  have hj := after_lt hgap hm
  have hone := ahead_after hgap hm
  have hgj : gap ≠ after m gap 1 := by
    intro heq
    rw [← heq, ahead_self] at hone
    omega
  refine Gapped.shift_some hhome m ⟨hgap, hj, hgj, fun p hp h0 h1 => by omega, ?_, ?_, fun w hw => ?_⟩
    he hempty hne (ahead_lt hj he)
  · intro p hp _ hf d hd
    exact .inr (h.path p hp hf d hd)
  · intro p hp q hq _ _ hfp hfq hk
    exact h.distinct p hp q hq hfp hfq hk
  · constructor
    · rintro ⟨p, hp, hpg, hpw⟩
      refine ⟨⟨p, hp, hpw⟩, fun hk => hpg ?_⟩
      exact h.distinct p hp gap hgap (by rw [hpw]; exact hw) hfull (by rw [hpw, hk, hkey])
    · rintro ⟨⟨p, hp, hpw⟩, hk⟩
      refine ⟨p, hp, fun hpg => hk ?_, hpw⟩
      rw [← hpw, hpg, hkey]

theorem Chained.find [DecidableEq K] (h : Chained empty key home m t) (hhome : ∀ k, home k < m) (k : K) :
    ∃ p < m, probe (fun p => t p = empty ∨ key (t p) = k) m m (home k) = some p ∧
      (t p = empty ∧ (∀ q < m, t q ≠ empty → key (t q) ≠ k) ∨
        t p ≠ empty ∧ key (t p) = k) := by
  obtain ⟨e, he, hempty⟩ := h.room
  obtain ⟨d, hd, hprobe, hstop, hbefore⟩ :=
    probe_exists (fun p => t p = empty ∨ key (t p) = k) (hhome k) he
      (decide_eq_true (Or.inl hempty))
  refine ⟨_, after_lt (hhome k) hd, hprobe, ?_⟩
  by_cases hp : t (after m (home k) d) = empty
  · refine .inl ⟨hp, fun q hq hfull hkey => ?_⟩
    have hpath := h.path q hq hfull
    rw [hkey] at hpath
    have hle : ahead m (home k) q ≤ d := by
      apply Nat.le_of_not_lt
      intro hlt
      exact hpath d hlt hp
    rcases Nat.lt_or_eq_of_le hle with hlt | heq
    · have hnot := hbefore _ hlt
      rw [after_ahead (hhome k) hq] at hnot
      exact absurd (Or.inr hkey) (of_decide_eq_false hnot)
    · rw [← heq, after_ahead (hhome k) hq] at hp
      exact hfull hp
  · exact .inr ⟨hp, (of_decide_eq_true hstop).resolve_left hp⟩

/-- From a gap that is empty no entry moves: none is reached past it. -/
theorem Chained.shift_still (h : Chained empty key home m t) (hhome : ∀ k, home k < m) {gap j : Nat}
    (hgap : gap < m) (hj : j < m) (hempty : t gap = empty) (rounds : Nat)
    (hrounds : ahead m j gap < rounds) : shift empty key home m rounds t gap j = some t := by
  induction rounds generalizing j with
  | zero => omega
  | succ rounds ih =>
    unfold shift
    by_cases hstop : t j = empty
    · rw [if_pos hstop, ← hempty, Function.update_eq_self]
    · have hne : j ≠ gap := by
        intro heq
        rw [heq] at hstop
        exact hstop hempty
      have hstay : ¬ ahead m gap j ≤ ahead m (home (key (t j))) j := by
        intro hle
        have hadd := ahead_add' (hhome (key (t j))) hgap hle
        have hpos := ahead_pos hgap hne.symm
        have hpath := h.path j hj hstop (ahead m (home (key (t j))) gap) (by omega)
        rw [after_ahead (hhome _) hgap] at hpath
        exact hpath hempty
      rw [if_neg hstop, if_neg hstay]
      have hnext := ahead_next hj hgap hne
      exact ih (after_lt hj (by omega)) (by omega)

/-- Taking a key out, the place to close found by the key alone: an entry of it, or an empty place
where what stands there has that key. -/
theorem Chained.drop [DecidableEq K] (h : Chained empty key home m t) (hhome : ∀ k, home k < m)
    {k : K} (hex : ∃ p < m, key (t p) = k) :
    ∃ gap < m, probe (fun p => key (t p) = k) m m (home k) = some gap ∧
      ∃ t', shift empty key home m m t gap (after m gap 1) = some t' ∧
        Chained empty key home m t' ∧
          ∀ w, w ≠ empty → ((∃ p < m, t' p = w) ↔ (∃ p < m, t p = w) ∧ key w ≠ k) := by
  obtain ⟨p, hp, hkey⟩ := hex
  obtain ⟨d, hd, hprobe, hstop, hbefore⟩ :=
    probe_exists (fun p => key (t p) = k) (hhome k) hp (decide_eq_true hkey)
  have hgap := after_lt (hhome k) hd
  have hstop := of_decide_eq_true hstop
  refine ⟨_, hgap, hprobe, ?_⟩
  by_cases hfull : t (after m (home k) d) ≠ empty
  · exact h.remove hhome hgap hfull hstop
  have hempty := not_not.mp hfull
  have hnone : ∀ q < m, t q ≠ empty → key (t q) ≠ k := by
    intro q hq hqfull hqkey
    have hpath := h.path q hq hqfull
    rw [hqkey] at hpath
    have hge : d ≤ ahead m (home k) q := by
      apply Nat.le_of_not_lt
      intro hlt
      have hnot := hbefore _ hlt
      rw [after_ahead (hhome k) hq] at hnot
      exact of_decide_eq_false hnot hqkey
    rcases Nat.lt_or_eq_of_le hge with hlt | heq
    · exact hpath d hlt hempty
    · rw [heq, after_ahead (hhome k) hq] at hempty
      exact hqfull hempty
  refine ⟨t, ?_, h, fun w hw => ⟨?_, fun hmem => hmem.1⟩⟩
  · by_cases hone : 1 < m
    · refine h.shift_still hhome hgap (after_lt hgap hone) hempty m ?_
      have hback := ahead_back hgap
      omega
    · obtain rfl : m = 1 := by omega
      have hzero : after 1 (home k) d = 0 := by omega
      rw [hzero] at hempty ⊢
      show (if t 0 = empty then some (Function.update t 0 empty) else _) = _
      rw [if_pos hempty, ← hempty, Function.update_eq_self]
  · rintro ⟨q, hq, rfl⟩
    exact ⟨⟨q, hq, Eq.refl _⟩, hnone q hq hw⟩

end Table

end OpenIndex
