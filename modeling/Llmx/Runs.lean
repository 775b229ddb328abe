import Mathlib.Data.List.Basic

/-!
Labelled transition systems with a partial step function, their reachable
states, and the one induction every safety result is an instance of.
-/

namespace Runs

universe u v

/-- A system: where a run may start, and what each event does in a state,
`none` where the event cannot happen there. -/
structure Machine (σ : Type u) (α : Type v) where
  start : σ → Prop
  step : σ → α → Option σ

variable {σ : Type u} {α : Type v} {m : Machine σ α}

/-- The states some finite run of events reaches. -/
inductive Reach (m : Machine σ α) : σ → Prop
  | start {s} : m.start s → Reach m s
  | next {s t e} : Reach m s → m.step s e = some t → Reach m t

/-- What holds at the start and is kept by every event holds in every state reached. -/
theorem Reach.invariant {s : σ} (h : Reach m s) (inv : σ → Prop)
    (start : ∀ s, m.start s → inv s)
    (step : ∀ s e t, inv s → m.step s e = some t → inv t) : inv s := by
  induction h with
  | start hs => exact start _ hs
  | next _ he ih => exact step _ _ _ ih he

/-- A list of events played from a state. -/
def play (m : Machine σ α) : σ → List α → Option σ
  | s, [] => some s
  | s, e :: es => (m.step s e).bind fun t => play m t es

theorem Reach.play {s t : σ} {es : List α} (h : Reach m s) (he : Runs.play m s es = some t) :
    Reach m t := by
  induction es generalizing s with
  | nil => cases Option.some.inj he; exact h
  | cons e es ih =>
    obtain ⟨mid, hs, he⟩ := Option.bind_eq_some_iff.mp he
    exact ih (.next h hs) he

/-- A run from a start state ends in a reachable one. -/
theorem reach_of_play {s t : σ} (es : List α) (hs : m.start s) (he : play m s es = some t) :
    Reach m t :=
  (Reach.start hs).play he

end Runs
