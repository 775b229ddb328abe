import Mathlib.Tactic.Common

namespace Llmx

namespace Triples

variable {ε ε' σ α α' β β' : Type}

theorem bind_ok {x : EStateM ε σ α} {f : α → EStateM ε σ β} {s s' : σ} {a : α}
    (h : x s = .ok a s') : (x >>= f) s = f a s' := by
  show EStateM.bind x f s = _
  unfold EStateM.bind
  rw [h]

theorem bind_error {x : EStateM ε σ α} {f : α → EStateM ε σ β} {s s' : σ} {e : ε}
    (h : x s = .error e s') : (x >>= f) s = .error e s' := by
  show EStateM.bind x f s = _
  unfold EStateM.bind
  rw [h]

theorem modify_bind {f : σ → σ} {k : PUnit → EStateM ε σ β} {s : σ} :
    ((modify f : EStateM ε σ PUnit) >>= k) s = k ⟨⟩ (f s) := rfl

/-- From a state with `P` a computation answers with `Q` or raises with `E`. -/
def Triple (P : σ → Prop) (x : EStateM ε σ α) (Q : α → σ → Prop) (E : ε → σ → Prop) : Prop :=
  ∀ s, P s →
    match x s with
    | .ok a s' => Q a s'
    | .error e s' => E e s'

section Rules

variable {P P' : σ → Prop} {Q Q' : α → σ → Prop} {R : β → σ → Prop} {E : ε → σ → Prop}

theorem Triple.pure {a : α} (h : ∀ s, P s → Q a s) : Triple P (Pure.pure a : EStateM ε σ α) Q E :=
  fun s hs => h s hs

theorem Triple.throw {e : ε} (h : ∀ s, P s → E e s) :
    Triple P (MonadExcept.throw e : EStateM ε σ α) Q E :=
  fun s hs => h s hs

theorem Triple.bind {x : EStateM ε σ α} {f : α → EStateM ε σ β} (hx : Triple P x Q E)
    (hf : ∀ a, Triple (Q a) (f a) R E) : Triple P (x >>= f) R E := by
  intro s hs
  have hx := hx s hs
  cases hr : x s with
  | ok a s' =>
    rw [hr] at hx
    rw [bind_ok hr]
    exact hf a s' hx
  | error e s' =>
    rw [hr] at hx
    rw [bind_error hr]
    exact hx

theorem Triple.conseq {x : EStateM ε σ α} (hx : Triple P x Q E) (hP : ∀ s, P' s → P s)
    (hQ : ∀ a s, Q a s → Q' a s) : Triple P' x Q' E := by
  intro s hs
  have hx := hx s (hP s hs)
  cases hr : x s with
  | ok a s' =>
    rw [hr] at hx
    exact hQ a s' hx
  | error e s' =>
    rw [hr] at hx
    exact hx

theorem Triple.ite {c : Prop} [Decidable c] {x y : EStateM ε σ α}
    (hx : c → Triple P x Q E) (hy : ¬c → Triple P y Q E) :
    Triple P (if c then x else y) Q E := by
  split
  next h => exact hx h
  next h => exact hy h

theorem Triple.run {x : EStateM ε σ α} {s : σ} (hx : Triple P x Q E) (hs : P s) :
    (∃ a s', x s = .ok a s' ∧ Q a s') ∨ ∃ e s', x s = .error e s' ∧ E e s' := by
  have hx := hx s hs
  cases hr : x s with
  | ok a s' =>
    rw [hr] at hx
    exact Or.inl ⟨a, s', rfl, hx⟩
  | error e s' =>
    rw [hr] at hx
    exact Or.inr ⟨e, s', rfl, hx⟩

end Rules

/-- From a state with `P` two computations answer alike, in one state, or both raise. -/
def Alike (P : σ → Prop) (x : EStateM ε σ α) (y : EStateM ε' σ α') (Q : α → α' → σ → Prop)
    (E : ε → ε' → Prop) : Prop :=
  ∀ s, P s → (∃ a b s', x s = .ok a s' ∧ y s = .ok b s' ∧ Q a b s') ∨
    ∃ e e' s' s'', x s = .error e s' ∧ y s = .error e' s'' ∧ E e e'

section Alikes

variable {P P' : σ → Prop} {Q Q' : α → α' → σ → Prop} {R : β → β' → σ → Prop} {E : ε → ε' → Prop}
  {x : EStateM ε σ α} {y : EStateM ε' σ α'} {f : α → EStateM ε σ β} {g : α' → EStateM ε' σ β'}

theorem Alike.pure {a : α} {b : α'} (h : ∀ s, P s → Q a b s) :
    Alike P (Pure.pure a : EStateM ε σ α) (Pure.pure b : EStateM ε' σ α') Q E :=
  fun s hs => .inl ⟨a, b, s, Eq.refl _, Eq.refl _, h s hs⟩

theorem Alike.bind (hx : Alike P x y Q E) (hf : ∀ a b, Alike (Q a b) (f a) (g b) R E) :
    Alike P (x >>= f) (y >>= g) R E := by
  intro s hs
  rcases hx s hs with ⟨a, b, s', ha, hb, hq⟩ | ⟨e, e', s', s'', ha, hb, he⟩
  · rcases hf a b s' hq with ⟨c, d, t, hc, hd, hr⟩ | ⟨e, e', t, t', hc, hd, he⟩
    · exact .inl ⟨c, d, t, by rw [bind_ok ha, hc], by rw [bind_ok hb, hd], hr⟩
    · exact .inr ⟨e, e', t, t', by rw [bind_ok ha, hc], by rw [bind_ok hb, hd], he⟩
  · exact .inr ⟨e, e', s', s'', bind_error ha, bind_error hb, he⟩

theorem Alike.conseq (hx : Alike P x y Q E) (hP : ∀ s, P' s → P s)
    (hQ : ∀ a b s, Q a b s → Q' a b s) : Alike P' x y Q' E := by
  intro s hs
  rcases hx s (hP s hs) with ⟨a, b, s', ha, hb, hq⟩ | hraise
  · exact .inl ⟨a, b, s', ha, hb, hQ a b s' hq⟩
  · exact .inr hraise

end Alikes

end Triples

end Llmx
