import Mathlib.Data.Finset.Card
import Mathlib.Data.Finset.Dedup
import Mathlib.Data.List.Basic
import Mathlib.Logic.Function.Iterate
import Mathlib.Tactic.Common

namespace Llmx

/-- Where the messages of a conversation end in its prompt's rows, each found only when it is asked
for and once. `rows k` gives the rows the first `k` messages take, or nothing where the template
refuses them. -/
structure MessageEnds where
  ends : List (Option Nat)
  points : List Nat
  prompt : Nat
  rows : Nat → Option Nat
  renders : Nat

/-- The last of the sorted points before `next`, or `next` where none is. -/
def lastPoint (points : List Nat) (next : Nat) : Nat :=
  ((points.takeWhile (· < next)).getLast?).getD next

namespace MessageEnds

/-- Ends already known. -/
def known (ends : List Nat) : MessageEnds := ⟨ends.map some, [], 0, fun _ => none, 0⟩

def start (messages prompt : Nat) (points : List Nat) (rows : Nat → Option Nat) : MessageEnds :=
  ⟨List.replicate messages none, points, prompt, rows, 0⟩

def render (c : MessageEnds) : MessageEnds := { c with renders := c.renders + 1 }

def learn (c : MessageEnds) (m e : Nat) : MessageEnds := { c with ends := c.ends.set m (some e) }

/-- The end of a refused message before `next`, never before a known earlier end. -/
def placed (c : MessageEnds) (m next : Nat) : Nat :=
  match (c.ends.take m).reverse.findSome? id with
  | some e => max (lastPoint c.points next) e
  | none => lastPoint c.points next

/-- The row where message `m` ends. -/
def ask (c : MessageEnds) (m : Nat) : Nat × MessageEnds :=
  match c.ends[m]?.join with
  | some e => (e, c)
  | none =>
    match c.rows (m + 1) with
    | some r => (r, c.render.learn m r)
    | none =>
      if m + 1 < c.ends.length then
        let next := c.render.ask (m + 1)
        (next.2.placed m next.1, next.2.learn m (next.2.placed m next.1))
      else
        (c.render.placed m c.prompt, c.render.learn m (c.render.placed m c.prompt))
termination_by c.ends.length - m
decreasing_by
  simp only [render]
  omega

/-- The ends known after a list of messages is asked for. -/
def asked (c : MessageEnds) (ms : List Nat) : MessageEnds := ms.foldl (fun c m => (c.ask m).2) c

def Knows (c : MessageEnds) (m e : Nat) : Prop := c.ends[m]? = some (some e)

/-- The known ends do not decrease, and none is past the prompt's. -/
def Ordered (c : MessageEnds) : Prop :=
  (∀ k m a b, k ≤ m → c.Knows k a → c.Knows m b → a ≤ b) ∧ ∀ m a, c.Knows m a → a ≤ c.prompt

/-- What is promised of the rows: they grow with the messages, no further than the prompt, and the
points are in order. -/
structure Fair (messages prompt : Nat) (points : List Nat) (rows : Nat → Option Nat) : Prop where
  sorted : points.Pairwise (· ≤ ·)
  grows : ∀ k m a b, k ≤ m → m < messages → rows (k + 1) = some a → rows (m + 1) = some b → a ≤ b
  inside : ∀ m a, m < messages → rows (m + 1) = some a → a ≤ prompt

end MessageEnds

/-- The points from `a` up to `x`. -/
def pointsWithin (points : List Nat) (a x : Nat) : Nat :=
  (points.toFinset.filter fun p => a ≤ p ∧ p < x).card

/-- Each refused message behind message `k`, whose end `a` is given, finds a point of its own from
`a` on, up to the next given end or the prompt's; or no point is before `a`. -/
def MessageEnds.Spaced (messages prompt : Nat) (points : List Nat) (rows : Nat → Option Nat) : Prop :=
  ∀ k g a stop, k < g → g ≤ messages → rows (k + 1) = some a →
    (∀ j, k < j → j < g → rows (j + 1) = none) →
    (if g < messages then rows (g + 1) = some stop else stop = prompt) →
    (∀ p ∈ points, a ≤ p) ∨ g - k - 1 ≤ pointsWithin points a stop

section Points

variable {points : List Nat}

theorem lastPoint_cases (hs : points.Pairwise (· ≤ ·)) (x : Nat) :
    (lastPoint points x = x ∧ ∀ p ∈ points, x ≤ p) ∨
      (lastPoint points x ∈ points ∧ lastPoint points x < x ∧
        ∀ p ∈ points, p < x → p ≤ lastPoint points x) := by
  induction points with
  | nil => exact Or.inl ⟨rfl, by simp⟩
  | cons q qs ih =>
    obtain ⟨hq, hqs⟩ := List.pairwise_cons.mp hs
    by_cases hlt : q < x
    · right
      have htake : (q :: qs).takeWhile (· < x) = q :: qs.takeWhile (· < x) := by
        rw [List.takeWhile_cons, if_pos (by simpa using hlt)]
      rcases ih hqs with ⟨-, hall⟩ | ⟨hmem, hlast, hall⟩
      · have hnone : qs.takeWhile (· < x) = [] := by
          cases qs with
          | nil => rfl
          | cons r rs =>
            have hr := hall r (by simp)
            rw [List.takeWhile_cons, if_neg (by simpa using hr)]
        have heq : lastPoint (q :: qs) x = q := by
          rw [lastPoint, htake, hnone]
          rfl
        rw [heq]
        refine ⟨by simp, hlt, fun p hp hpx => ?_⟩
        rcases List.mem_cons.mp hp with rfl | hp
        · exact Nat.le_refl _
        · have := hall p hp
          omega
      · have heq : lastPoint (q :: qs) x = lastPoint qs x := by
          rw [lastPoint, htake, lastPoint]
          cases hcase : qs.takeWhile (· < x) with
          | nil =>
            have : lastPoint qs x = x := by
              rw [lastPoint, hcase]
              rfl
            omega
          | cons r rs => rw [List.getLast?_cons_cons]
        rw [heq]
        refine ⟨List.mem_cons_of_mem _ hmem, hlast, fun p hp hpx => ?_⟩
        rcases List.mem_cons.mp hp with rfl | hp
        · exact hq _ hmem
        · exact hall p hp hpx
    · left
      have hnone : (q :: qs).takeWhile (· < x) = [] := by
        rw [List.takeWhile_cons, if_neg (by simpa using hlt)]
      refine ⟨by rw [lastPoint, hnone]; rfl, fun p hp => ?_⟩
      rcases List.mem_cons.mp hp with rfl | hp
      · omega
      · have := hq p hp
        omega

theorem lastPoint_le (hs : points.Pairwise (· ≤ ·)) (x : Nat) : lastPoint points x ≤ x := by
  rcases lastPoint_cases hs x with ⟨heq, -⟩ | ⟨-, hlt, -⟩ <;> omega

theorem mem_within {a x p : Nat} :
    (p ∈ points.toFinset.filter fun p => a ≤ p ∧ p < x) ↔ p ∈ points ∧ a ≤ p ∧ p < x := by
  simp

theorem pointsWithin_pos {a x : Nat} : 0 < pointsWithin points a x ↔ ∃ p ∈ points, a ≤ p ∧ p < x := by
  unfold pointsWithin
  rw [Finset.card_pos]
  constructor
  · rintro ⟨p, hp⟩
    exact ⟨p, mem_within.mp hp⟩
  · rintro ⟨p, hp⟩
    exact ⟨p, mem_within.mpr hp⟩

theorem pointsWithin_mono {a x y : Nat} (h : x ≤ y) :
    pointsWithin points a x ≤ pointsWithin points a y := by
  apply Finset.card_le_card
  intro p hp
  obtain ⟨hmem, hlow, hhigh⟩ := mem_within.mp hp
  exact mem_within.mpr ⟨hmem, hlow, by omega⟩

/-- A step back over a point passes one point at most. -/
theorem pointsWithin_lastPoint (hs : points.Pairwise (· ≤ ·)) (a x : Nat) :
    pointsWithin points a x ≤ pointsWithin points a (lastPoint points x) + 1 := by
  refine le_trans (Finset.card_le_card ?_) (Finset.card_insert_le (lastPoint points x) _)
  intro p hp
  obtain ⟨hmem, hlow, hhigh⟩ := mem_within.mp hp
  rw [Finset.mem_insert, mem_within]
  rcases lastPoint_cases hs x with ⟨-, hall⟩ | ⟨-, -, hall⟩
  · have := hall p hmem
    omega
  · have := hall p hmem hhigh
    by_cases heq : p = lastPoint points x
    · exact Or.inl heq
    · exact Or.inr ⟨hmem, hlow, by omega⟩

/-- Over a point from `a` on a step back passes one. -/
theorem pointsWithin_lastPoint_lt (hs : points.Pairwise (· ≤ ·)) {a x : Nat}
    (h : 0 < pointsWithin points a x) :
    a ≤ lastPoint points x ∧ pointsWithin points a (lastPoint points x) < pointsWithin points a x := by
  obtain ⟨p, hp, hlow, hhigh⟩ := pointsWithin_pos.mp h
  rcases lastPoint_cases hs x with ⟨-, hall⟩ | ⟨hmem, hlt, hall⟩
  · have := hall p hp
    omega
  · have hle := hall p hp hhigh
    refine ⟨by omega, Finset.card_lt_card ⟨fun q hq => ?_, fun hsub => ?_⟩⟩
    · obtain ⟨hq, hqlow, hqhigh⟩ := mem_within.mp hq
      exact mem_within.mpr ⟨hq, hqlow, by omega⟩
    · have := mem_within.mp (hsub (mem_within.mpr ⟨hmem, by omega, hlt⟩))
      omega

/-- Room for `t` steps back over points without passing `a`. -/
def PointRoom (points : List Nat) (a t x : Nat) : Prop :=
  a ≤ x ∧ ((∀ p ∈ points, a ≤ p) ∨ t ≤ pointsWithin points a x)

theorem PointRoom.mono {a t x y : Nat} (h : PointRoom points a t x) (hxy : x ≤ y) : PointRoom points a t y :=
  ⟨h.1.trans hxy, h.2.imp id fun ht => ht.trans (pointsWithin_mono hxy)⟩

theorem PointRoom.lastPoint (hs : points.Pairwise (· ≤ ·)) {a t x : Nat}
    (h : PointRoom points a (t + 1) x) : PointRoom points a t (lastPoint points x) := by
  obtain ⟨hax, hroom⟩ := h
  rcases hroom with hall | ht
  · refine ⟨?_, Or.inl hall⟩
    rcases lastPoint_cases hs x with ⟨heq, -⟩ | ⟨hmem, -, -⟩
    · omega
    · exact hall _ hmem
  · have hpos : 0 < pointsWithin points a x := by omega
    have hstep := pointsWithin_lastPoint hs a x
    exact ⟨(pointsWithin_lastPoint_lt hs hpos).1, Or.inr (by omega)⟩

theorem iterate_lastPoint_le (hs : points.Pairwise (· ≤ ·)) (t x : Nat) :
    (Llmx.lastPoint points)^[t] x ≤ x := by
  induction t generalizing x with
  | zero => exact Nat.le_refl x
  | succ t ih => exact (ih _).trans (lastPoint_le hs x)

/-- Without that room the steps end before `a`. -/
theorem iterate_lastPoint_lt (hs : points.Pairwise (· ≤ ·)) {a p : Nat} (hp : p ∈ points)
    (hpa : p < a) {t x : Nat} (h : pointsWithin points a x < t) :
    (Llmx.lastPoint points)^[t] x < a := by
  induction t generalizing x with
  | zero => omega
  | succ t ih =>
    rw [Function.iterate_succ_apply]
    by_cases hzero : 0 < pointsWithin points a x
    · have := (pointsWithin_lastPoint_lt hs hzero).2
      exact ih (by omega)
    · have hle := iterate_lastPoint_le hs t (Llmx.lastPoint points x)
      have hstep : Llmx.lastPoint points x < a := by
        rcases lastPoint_cases hs x with ⟨heq, hall⟩ | ⟨hmem, hlt, -⟩
        · have := hall p hp
          omega
        · by_contra hge
          exact hzero (pointsWithin_pos.mpr ⟨_, hmem, by omega, hlt⟩)
      omega

end Points

end Llmx
