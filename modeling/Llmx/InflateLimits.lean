import Llmx.InflateSafe

namespace Llmx

namespace Inflate

open Triples

/-- Under the limit `low` a run is the one under a higher limit, or is stopped where that one's
output passes `low`. -/
def Under (low : Nat) (x y : Take Bytes) : Prop :=
  ∀ b, x b = y b ∨
    (∃ b', x b = .error (.runtime tooMany) b') ∧ ∀ v b', y b = .ok v b' → low < v.length

/-- Whatever a run answers with has `n` bytes or more. -/
def Grows (n : Nat) (x : Take Bytes) : Prop := ∀ b v b', x b = .ok v b' → n ≤ v.length

section Rules

variable {α : Type} {low n : Nat} {x y : Take Bytes} {z : Take α} {f g : Bytes → Take Bytes}
  {h k : α → Take Bytes}

theorem Under.refl (low : Nat) (x : Take Bytes) : Under low x x := fun _ => .inl (Eq.refl _)

theorem Under.same (hf : ∀ a, Under low (h a) (k a)) : Under low (z >>= h) (z >>= k) := by
  intro b
  cases hz : z b with
  | error e b' =>
    rw [bind_error hz, bind_error hz]
    exact .inl (Eq.refl _)
  | ok a b' =>
    rw [bind_ok hz, bind_ok hz]
    exact hf a b'

theorem Under.stop (hg : Grows (low + 1) y) : Under low (fail tooMany) y :=
  fun b => .inr ⟨⟨b, Eq.refl _⟩, fun v b' hv => hg b v b' hv⟩

theorem Under.bind (hx : Under low x y) (hf : ∀ a, Under low (f a) (g a))
    (hg : ∀ a, low < a.length → Grows (low + 1) (g a)) : Under low (x >>= f) (y >>= g) := by
  intro b
  rcases hx b with heq | ⟨⟨b', hstop⟩, hover⟩
  · cases hy : y b with
    | error e b' =>
      rw [bind_error (heq.trans hy), bind_error hy]
      exact .inl (Eq.refl _)
    | ok a b' =>
      rw [bind_ok (heq.trans hy), bind_ok hy]
      exact hf a b'
  · refine .inr ⟨⟨b', bind_error hstop⟩, fun v b'' hv => ?_⟩
    cases hy : y b with
    | error e s =>
      rw [bind_error hy] at hv
      cases hv
    | ok a s =>
      rw [bind_ok hy] at hv
      exact hg a (hover a s hy) s v b'' hv

theorem Grows.fail (what : String) : Grows n (fail what) := by
  intro b v b' h
  cases h

theorem Grows.pure {out : Bytes} (hn : n ≤ out.length) : Grows n (Pure.pure out) := by
  intro b v b' h
  cases h
  exact hn

theorem Grows.same (hf : ∀ a, Grows n (h a)) : Grows n (z >>= h) := by
  intro b v b' hv
  cases hz : z b with
  | error e s =>
    rw [bind_error hz] at hv
    cases hv
  | ok a s =>
    rw [bind_ok hz] at hv
    exact hf a s v b' hv

theorem Grows.bind (hx : Grows n x) (hf : ∀ a, n ≤ a.length → Grows n (f a)) :
    Grows n (x >>= f) := by
  intro b v b' hv
  cases hx' : x b with
  | error e s =>
    rw [bind_error hx'] at hv
    cases hv
  | ok a s =>
    rw [bind_ok hx'] at hv
    exact hf a (hx b a s hx') s v b' hv

end Rules

variable {low high n : Nat} {lit dist : Huffman} {out : Bytes}

theorem copied_grows (li : Nat) (hn : n ≤ out.length) :
    Grows n (copied high dist li out) := by
  unfold copied
  refine Grows.same fun extra => Grows.same fun di => ?_
  split
  next => exact Grows.fail _
  next =>
    refine Grows.same fun far => ?_
    split
    next => exact Grows.fail _
    next =>
      split
      next => exact Grows.fail _
      next =>
        refine Grows.pure ?_
        rw [copyBytes_length]
        omega

theorem codes_grows (rounds : Nat) (hn : n ≤ out.length) :
    Grows n (codes high lit dist rounds out) := by
  induction rounds generalizing out with
  | zero =>
    intro b v b' h
    cases h
  | succ rounds ih =>
    rw [codes]
    refine Grows.same fun sym => ?_
    split
    next =>
      split
      next => exact Grows.fail _
      next =>
        apply ih
        rw [List.length_append]
        omega
    next =>
      split
      next => exact Grows.pure hn
      next =>
        split
        next => exact Grows.fail _
        next => exact (copied_grows _ hn).bind fun o ho => ih ho

theorem stored_grows (hn : n ≤ out.length) : Grows n (stored high out) := by
  unfold stored
  refine Grows.same fun _ => Grows.same fun len => Grows.same fun nlen => ?_
  split
  next => exact Grows.fail _
  next =>
    intro b v b' h
    unfold storedBytes at h
    split_ifs at h
    cases h
    rw [List.length_append]
    omega

theorem block_grows (symbols type : Nat) (hn : n ≤ out.length) :
    Grows n (block high symbols type out) := by
  unfold block
  split
  next => exact stored_grows hn
  next =>
    split
    next => exact Grows.same fun t => codes_grows symbols hn
    next =>
      split
      next => exact Grows.same fun t => codes_grows symbols hn
      next => exact Grows.fail _

theorem blocks_grows (symbols rounds : Nat) (hn : n ≤ out.length) :
    Grows n (blocks high symbols rounds out) := by
  induction rounds generalizing out with
  | zero =>
    intro b v b' h
    cases h
  | succ rounds ih =>
    rw [blocks]
    refine Grows.same fun last => Grows.same fun type => (block_grows symbols type hn).bind ?_
    intro o ho
    split
    next => exact Grows.pure ho
    next => exact ih ho

section Limits

variable (hle : low ≤ high)
include hle

theorem copied_under (dist : Huffman) (li : Nat) (out : Bytes) :
    Under low (copied low dist li out) (copied high dist li out) := by
  unfold copied
  refine Under.same fun extra => Under.same fun di => ?_
  split
  next => exact Under.refl _ _
  next =>
    refine Under.same fun far => ?_
    split
    next => exact Under.refl _ _
    next =>
      by_cases hlow : low < out.length + (kLengthBase.getD li 0 + extra)
      · rw [if_pos hlow]
        refine Under.stop ?_
        split
        next => exact Grows.fail _
        next =>
          refine Grows.pure ?_
          rw [copyBytes_length]
          exact hlow
      · rw [if_neg hlow, if_neg (by omega)]
        exact Under.refl _ _

theorem codes_under (lit dist : Huffman) (rounds : Nat) (out : Bytes) :
    Under low (codes low lit dist rounds out) (codes high lit dist rounds out) := by
  induction rounds generalizing out with
  | zero => exact Under.refl _ _
  | succ rounds ih =>
    rw [codes, codes]
    refine Under.same fun sym => ?_
    split
    next =>
      by_cases hlow : low ≤ out.length
      · rw [if_pos hlow]
        refine Under.stop ?_
        split
        next => exact Grows.fail _
        next =>
          apply codes_grows
          rw [List.length_append]
          exact Nat.succ_le_succ hlow
      · rw [if_neg hlow, if_neg (by omega)]
        exact ih _
    next =>
      split
      next => exact Under.refl _ _
      next =>
        split
        next => exact Under.refl _ _
        next =>
          exact (copied_under hle dist _ out).bind (fun o => ih o) fun o ho => codes_grows rounds ho

theorem stored_under (out : Bytes) : Under low (stored low out) (stored high out) := by
  unfold stored
  refine Under.same fun _ => Under.same fun len => Under.same fun nlen => ?_
  split
  next => exact Under.refl _ _
  next =>
    intro b
    unfold storedBytes
    split
    next => exact .inl (Eq.refl _)
    next =>
      by_cases hlow : low < out.length + len
      · rw [if_pos hlow]
        refine .inr ⟨⟨b, Eq.refl _⟩, fun v b' h => ?_⟩
        split at h
        next => cases h
        next =>
          cases h
          rw [List.length_append, List.length_take, List.length_drop]
          omega
      · rw [if_neg hlow, if_neg (by omega)]
        exact .inl (Eq.refl _)

theorem block_under (symbols type : Nat) (out : Bytes) :
    Under low (block low symbols type out) (block high symbols type out) := by
  unfold block
  split
  next => exact stored_under hle out
  next =>
    split
    next => exact Under.same fun t => codes_under hle t.1 t.2 symbols out
    next =>
      split
      next => exact Under.same fun t => codes_under hle t.1 t.2 symbols out
      next => exact Under.refl _ _

theorem blocks_under (symbols rounds : Nat) (out : Bytes) :
    Under low (blocks low symbols rounds out) (blocks high symbols rounds out) := by
  induction rounds generalizing out with
  | zero => exact Under.refl _ _
  | succ rounds ih =>
    rw [blocks, blocks]
    refine Under.same fun last => Under.same fun type => ?_
    refine (block_under hle symbols type out).bind (fun o => ?_) fun o ho => ?_
    · split
      next => exact Under.refl _ _
      next => exact ih o
    · split
      next => exact Grows.pure ho
      next => exact blocks_grows symbols rounds ho

/-- A lower limit changes only what a stream with a longer output ends with. -/
theorem inflateZlib_under (p : Bytes) (hhigh : high < 2 ^ 63) :
    inflateZlib p low = inflateZlib p high ∨ inflateZlib p low = .error (.runtime tooMany) ∧
      ∀ v, inflateZlib p high = .ok v → low < v.length := by
  unfold inflateZlib
  split
  next => exact .inl (Eq.refl _)
  next =>
  split
  next => exact .inl (Eq.refl _)
  next =>
  split
  next => exact .inl (Eq.refl _)
  next =>
  split
  next => exact .inl (Eq.refl _)
  next =>
    rw [if_neg (by omega), if_neg (by omega)]
    have hunder : Under low (inflated low (8 * p.length)) (inflated high (8 * p.length)) :=
      (blocks_under hle _ _ []).bind (fun o => Under.refl _ _)
        fun o ho => Grows.same fun _ => Grows.pure ho
    rcases hunder ⟨p.drop 2, 0, 0, 0⟩ with heq | ⟨⟨b, hstop⟩, hover⟩
    · rw [heq]
      exact .inl (Eq.refl _)
    · rw [hstop]
      refine .inr ⟨Eq.refl _, fun v hv => ?_⟩
      cases hrun : inflated high (8 * p.length) ⟨p.drop 2, 0, 0, 0⟩ with
      | error e s =>
        rw [hrun] at hv
        cases hv
      | ok o s =>
        rw [hrun] at hv
        have ho := hover o s hrun
        unfold outcome checkedSum at hv
        dsimp only at hv
        split_ifs at hv
        cases hv
        exact ho

end Limits

/-- Some limit lets the stream through, as the text `v`. -/
def WellFormed (p v : Bytes) : Prop := ∃ limit, inflateZlib p limit = .ok v

theorem wellFormed_limit {p v : Bytes} {limit : Nat} (h : inflateZlib p limit = .ok v) :
    limit < 2 ^ 63 := by
  by_contra hlimit
  unfold inflateZlib at h
  rw [if_pos (Nat.le_of_not_lt hlimit)] at h
  split_ifs at h

/-- A well-formed stream gives its text under any limit it fits, and is stopped by any other. -/
theorem inflateZlib_wellFormed {p v : Bytes} (h : WellFormed p v) {limit : Nat}
    (hlimit : limit < 2 ^ 63) : inflateZlib p limit =
      if v.length ≤ limit then .ok v else .error (.runtime tooMany) := by
  obtain ⟨most, hv⟩ := h
  have hmost := wellFormed_limit hv
  have hlength := (inflateZlib_ended p most).within v hv
  rcases Nat.le_total limit most with hle | hle
  · rcases inflateZlib_under hle p hmost with heq | ⟨hstop, hover⟩
    · have hfits := (inflateZlib_ended p limit).within v (heq.trans hv)
      rw [if_pos hfits, heq, hv]
    · rw [if_neg (Nat.not_le.mpr (hover v hv)), hstop]
  · rw [if_pos (hlength.trans hle)]
    rcases inflateZlib_under hle p hlimit with heq | ⟨hstop, -⟩
    · rw [← heq, hv]
    · rw [hstop] at hv
      cases hv

theorem inflateZlib_malformed {p : Bytes} (h : ¬ ∃ v, WellFormed p v) {limit : Nat}
    (hlimit : limit < 2 ^ 63) : ∃ what, inflateZlib p limit = .error (.runtime what) := by
  cases hr : inflateZlib p limit with
  | ok v => exact absurd ⟨v, limit, hr⟩ h
  | error e =>
    rcases (inflateZlib_ended p limit).reason e hr with ⟨what, rfl⟩ | ⟨-, hbig⟩
    · exact ⟨what, Eq.refl _⟩
    · omega

end Inflate

end Llmx
