import Mathlib.Data.List.Basic
import Mathlib.Tactic.Common

namespace Llmx

/-- What the sampler asks of its floats. No law of arithmetic is assumed. -/
class ScoreOps (F : Type) where
  zero : F
  one : F
  lt : F → F → Bool
  le : F → F → Bool
  eq : F → F → Bool
  add : F → F → F
  sub : F → F → F
  mul : F → F → F
  div : F → F → F
  ofNat : Nat → F

/-- One generation's sampling settings, as a draw reads them. -/
structure Sampling (F : Type) where
  temp : F
  topK : Int
  topP : F
  penalty : F
  presencePenalty : F
  frequencyPenalty : F
  minP : F
  ignoreEos : Bool

/-- The parts of the sampler behind its settings: the id of a row's largest score past a masked
one, and the draw at a positive temperature. -/
structure Draws (F Rng : Type) where
  argmax : List F → Nat → Nat
  draw : List F → Nat → Sampling F → Rng → Nat × Rng

variable {F Rng : Type} [ScoreOps F]

open ScoreOps

def Sampling.repetition (s : Sampling F) : Bool := lt zero s.penalty && !eq s.penalty one

def Sampling.additive (s : Sampling F) : Bool :=
  !eq s.presencePenalty zero || !eq s.frequencyPenalty zero

/-- A seen token's score is set from its logit, once however often it was seen; the additive
penalties then come off it. -/
def penalized (s : Sampling F) (logits : List F) (gen : List Nat) : List F :=
  logits.mapIdx fun id v =>
    if id ∈ gen then
      let v := if s.repetition then
          (if lt zero v then div v s.penalty else mul v s.penalty)
        else v
      if s.additive then
        sub v (add s.presencePenalty (mul s.frequencyPenalty (ofNat (gen.count id))))
      else v
    else v

/-- The id every path passes over, the row's width for none; a row holding nothing else keeps
the masked id. -/
def skipped (s : Sampling F) (endId : Int) (n : Nat) : Nat :=
  let masked := if s.ignoreEos then endId else -1
  if 0 ≤ masked ∧ masked < n ∧ 1 < n then masked.toNat else n

/-- The next token of a reply under `s`, drawn from the logits after the tokens `gen`. -/
def sample (d : Draws F Rng) (s : Sampling F) (endId : Int) (logits : List F) (gen : List Nat)
    (rng : Rng) : Nat × Rng :=
  let skip := skipped s endId logits.length
  let score :=
    if (s.repetition || s.additive) && !gen.isEmpty then penalized s logits gen else logits
  if le s.temp zero then (d.argmax score skip, rng) else d.draw score skip s rng

/-- Whether a draw with these settings is the row's argmax alone. -/
def plainArgmax (s : Sampling F) : Bool :=
  le s.temp zero && !s.repetition && eq s.presencePenalty zero && eq s.frequencyPenalty zero &&
    !s.ignoreEos

theorem sample_of_plainArgmax {d : Draws F Rng} {s : Sampling F} (h : plainArgmax s = true)
    (endId : Int) (logits : List F) (gen : List Nat) (rng : Rng) :
    sample d s endId logits gen rng = (d.argmax logits logits.length, rng) := by
  simp only [plainArgmax, Bool.and_eq_true, Bool.not_eq_true'] at h
  obtain ⟨⟨⟨⟨htemp, hrep⟩, hpres⟩, hfreq⟩, heos⟩ := h
  simp [sample, skipped, Sampling.additive, htemp, hrep, hpres, hfreq, heos]

/-- A language model: the logits row after a token history, one score a token of its vocabulary.
Tokens are 32-bit ids, and the largest of them names none. -/
structure LanguageModel (F : Type) where
  vocab : Nat
  logits : List Nat → List F
  width : ∀ history, (logits history).length = vocab
  vocab_le : vocab ≤ 4294967295

/-- What an acceptance ends with: the rows sampled, the last pick and, as its caller sees them,
every pick, the request after them, the generator, and whether the request goes on. -/
structure Accepted (σ Rng : Type) where
  rows : Nat
  last : Nat
  picks : List Nat
  state : σ
  rng : Rng
  going : Bool
deriving DecidableEq, Repr

section

variable {F Rng σ : Type}

/-- A first pick `y`, which left the request at `p` and the generator at `rng`. -/
def Accepted.first (y : Nat) (rng : Rng) (p : σ × Bool) : Accepted σ Rng :=
  ⟨1, y, [y], p.1, rng, p.2⟩

/-- One more pick before the ones of `a`. -/
def Accepted.after (a : Accepted σ Rng) (y : Nat) : Accepted σ Rng :=
  { a with rows := a.rows + 1, picks := y :: a.picks }

variable (draw : List F → List Nat → Rng → Nat × Rng) (gen : σ → List Nat)
  (pick : σ → Nat → σ × Bool)

/-- An id below the vocabulary is the pick, else the row is sampled. -/
def drawn (id : Nat → Nat) (row : Nat → List F) (vocab i : Nat) (st : σ) (rng : Rng) : Nat × Rng :=
  if vocab ≤ id i then draw (row i) (gen st) rng else (id i, rng)

/-- Row `i` on: sampling stops at the first pick that ends the request or differs from its draft,
or after the last row. -/
def acceptIds (id : Nat → Nat) (row : Nat → List F) (vocab : Nat) :
    Nat → List Nat → σ → Rng → Accepted σ Rng
  | i, [], st, rng =>
    let y := drawn draw gen id row vocab i st rng
    .first y.1 y.2 (pick st y.1)
  | i, d :: drafts, st, rng =>
    let y := drawn draw gen id row vocab i st rng
    let p := pick st y.1
    if !p.2 || y.1 != d then .first y.1 y.2 p
    else (acceptIds id row vocab (i + 1) drafts p.1 y.2).after y.1

/-- No row's argmax is known. -/
def noId : Nat → Nat := fun _ => 4294967295

/-- The rows of a verify, every one sampled. -/
def accept (row : Nat → List F) (vocab : Nat) (drafts : List Nat) (st : σ) (rng : Rng) :
    Accepted σ Rng :=
  acceptIds draw gen pick noId row vocab 0 drafts st rng

/-- The run without drafts: a token, and up to `more` after it while the request goes on. -/
def plainRun (lm : LanguageModel F) : Nat → List Nat → σ → Rng → Accepted σ Rng
  | 0, history, st, rng =>
    let y := draw (lm.logits history) (gen st) rng
    .first y.1 y.2 (pick st y.1)
  | more + 1, history, st, rng =>
    let y := draw (lm.logits history) (gen st) rng
    let p := pick st y.1
    if p.2 then (plainRun lm more (history ++ [y.1]) p.1 y.2).after y.1
    else .first y.1 y.2 p

theorem drawn_noId (lm : LanguageModel F) (row : Nat → List F) (i : Nat) (st : σ) (rng : Rng) :
    drawn draw gen noId row lm.vocab i st rng = draw (row i) (gen st) rng := by
  simp [drawn, noId, lm.vocab_le]

theorem acceptIds_rows_pos (id : Nat → Nat) (row : Nat → List F) (vocab i : Nat)
    (drafts : List Nat) (st : σ) (rng : Rng) :
    0 < (acceptIds draw gen pick id row vocab i drafts st rng).rows := by
  cases drafts with
  | nil => simp [acceptIds, Accepted.first]
  | cons d drafts =>
    simp only [acceptIds]
    split
    · simp [Accepted.first]
    · simp [Accepted.after]

/-- Each pick but the last was its draft, so every row sampled followed the picks before it. -/
theorem acceptIds_picks (id : Nat → Nat) (row : Nat → List F) (vocab i : Nat)
    (drafts : List Nat) (st : σ) (rng : Rng) :
    let a := acceptIds draw gen pick id row vocab i drafts st rng
    a.rows ≤ drafts.length + 1 ∧ a.picks = drafts.take (a.rows - 1) ++ [a.last] ∧
      (a.going = true → a.rows = drafts.length + 1 ∨ drafts[a.rows - 1]? ≠ some a.last) := by
  induction drafts generalizing i st rng with
  | nil => simp [acceptIds, Accepted.first]
  | cons d drafts ih =>
    simp only [acceptIds]
    generalize drawn draw gen id row vocab i st rng = y
    split
    next hstop =>
      refine ⟨by simp [Accepted.first], by simp [Accepted.first], fun hg => Or.inr ?_⟩
      have hg' : (pick st y.1).2 = true := hg
      have hne : y.1 ≠ d := by simpa [hg'] using hstop
      simpa [Accepted.first] using hne.symm
    next hgo =>
      obtain ⟨h1, h2, h3⟩ := ih (i + 1) (pick st y.1).1 y.2
      have hpos := acceptIds_rows_pos draw gen pick id row vocab (i + 1) drafts
        (pick st y.1).1 y.2
      generalize acceptIds draw gen pick id row vocab (i + 1) drafts (pick st y.1).1 y.2 = a at *
      obtain ⟨n, hn⟩ : ∃ n, a.rows = n + 1 := ⟨a.rows - 1, by omega⟩
      have hd : y.1 = d := by
        by_contra hne
        exact hgo (by simp [hne])
      simp only [Accepted.after, hn, List.length_cons, Nat.add_sub_cancel, List.take_succ_cons,
        List.cons_append, List.getElem?_cons_succ] at h1 h2 h3 ⊢
      exact ⟨by omega, by rw [h2, hd], fun hg => (h3 hg).imp (by omega) (fun hne => hne)⟩

/-- A verify's rows, sampled, are the run without drafts: every row before a stop followed the
very picks that run makes. -/
theorem acceptIds_eq_plainRun (lm : LanguageModel F) {row : Nat → List F} {i : Nat}
    {drafts history : List Nat}
    (hrow : ∀ j ≤ drafts.length, row (i + j) = lm.logits (history ++ drafts.take j))
    (st : σ) (rng : Rng) :
    let a := acceptIds draw gen pick noId row lm.vocab i drafts st rng
    a = plainRun draw gen pick lm (a.rows - 1) history st rng := by
  induction drafts generalizing i history st rng with
  | nil =>
    have h0 : row i = lm.logits history := by simpa using hrow 0 (Nat.zero_le _)
    simp [acceptIds, plainRun, drawn_noId draw gen lm row, h0, Accepted.first]
  | cons d drafts ih =>
    have h0 : row i = lm.logits history := by simpa using hrow 0 (Nat.zero_le _)
    simp only [acceptIds, drawn_noId draw gen lm row, h0]
    generalize hy : draw (lm.logits history) (gen st) rng = y
    split
    next => simp [plainRun, Accepted.first, hy]
    next hgo =>
      have hd : y.1 = d := by
        by_contra hne
        exact hgo (by simp [hne])
      have hgoing : (pick st y.1).2 = true := by
        by_contra hne
        exact hgo (by simp [hne])
      have hnext : ∀ j ≤ drafts.length,
          row (i + 1 + j) = lm.logits (history ++ [y.1] ++ drafts.take j) := by
        intro j hj
        have := hrow (j + 1) (by simpa using hj)
        simpa [Nat.add_assoc, Nat.add_comm 1 j, hd] using this
      have hi := ih hnext (pick st y.1).1 y.2
      dsimp only at hi
      have hpos := acceptIds_rows_pos draw gen pick noId row lm.vocab (i + 1)
        drafts (pick st y.1).1 y.2
      generalize acceptIds draw gen pick noId row lm.vocab (i + 1) drafts
        (pick st y.1).1 y.2 = a at *
      obtain ⟨n, hn⟩ : ∃ n, a.rows = n + 1 := ⟨a.rows - 1, by omega⟩
      have hrows : (a.after y.1).rows - 1 = n + 1 := by simp [Accepted.after, hn]
      rw [hn, Nat.add_sub_cancel] at hi
      simp only [hrows, plainRun, hy, hgoing, ↓reduceIte]
      rw [← hi]

/-- Two sources of ids whose draws agree at every row a verify holds give the same picks. -/
theorem acceptIds_congr {id id' : Nat → Nat} {row : Nat → List F} {vocab i : Nat}
    {drafts : List Nat}
    (h : ∀ j ≤ drafts.length, ∀ st rng, drawn draw gen id row vocab (i + j) st rng =
      drawn draw gen id' row vocab (i + j) st rng) (st : σ) (rng : Rng) :
    acceptIds draw gen pick id row vocab i drafts st rng =
      acceptIds draw gen pick id' row vocab i drafts st rng := by
  induction drafts generalizing i st rng with
  | nil =>
    have h0 := h 0 (Nat.zero_le _) st rng
    simp only [Nat.add_zero] at h0
    simp only [acceptIds, h0]
  | cons d drafts ih =>
    have h0 := h 0 (Nat.zero_le _) st rng
    have hnext : ∀ j ≤ drafts.length, ∀ st rng, drawn draw gen id row vocab (i + 1 + j) st rng =
        drawn draw gen id' row vocab (i + 1 + j) st rng := by
      intro j hj st rng
      have := h (j + 1) (by simpa using hj) st rng
      rwa [Nat.add_assoc, Nat.add_comm 1 j]
    simp only [Nat.add_zero] at h0
    simp only [acceptIds, h0, ih hnext]

end

/-- Where a draw is the row's argmax alone, an id that is that argmax, or none of the vocabulary,
says what sampling the row says. -/
theorem drawn_of_plainArgmax {F Rng σ : Type} [ScoreOps F] {d : Draws F Rng} {s : Sampling F}
    (hs : plainArgmax s = true) (endId : Int) (gen : σ → List Nat) {id : Nat → Nat}
    {row : Nat → List F} {vocab i : Nat}
    (hid : vocab ≤ id i ∨ id i = d.argmax (row i) (row i).length) (st : σ) (rng : Rng) :
    drawn (sample d s endId) gen id row vocab i st rng =
      sample d s endId (row i) (gen st) rng := by
  unfold drawn
  split
  · rfl
  next hlt => rw [sample_of_plainArgmax hs, hid.resolve_left hlt]

/-- Verifying drafts changes nothing: the picks, the request, the generator and whether it goes on
are the plain run's for as many tokens, and ids read for argmax rows change no pick. -/
theorem accept_is_the_plain_run {F Rng σ : Type} [ScoreOps F] (lm : LanguageModel F)
    (draw : List F → List Nat → Rng → Nat × Rng) (gen : σ → List Nat) (pick : σ → Nat → σ × Bool)
    (history drafts : List Nat) (st : σ) (rng : Rng)
    (d : Draws F Rng) (s : Sampling F) (endId : Int) (id : Nat → Nat) (row : Nat → List F) :
    let a := accept draw gen pick (fun i => lm.logits (history ++ drafts.take i)) lm.vocab drafts
      st rng
    a = plainRun draw gen pick lm (a.rows - 1) history st rng ∧
      0 < a.rows ∧ a.rows ≤ drafts.length + 1 ∧ a.picks.length = a.rows ∧
      a.picks = drafts.take (a.rows - 1) ++ [a.last] ∧
      (a.going = true → a.rows = drafts.length + 1 ∨ drafts[a.rows - 1]? ≠ some a.last) ∧
      (plainArgmax s = true →
        (∀ i ≤ drafts.length, lm.vocab ≤ id i ∨ id i = d.argmax (row i) (row i).length) →
        acceptIds (sample d s endId) gen pick id row lm.vocab 0 drafts st rng =
          accept (sample d s endId) gen pick row lm.vocab drafts st rng) := by
  intro a
  have heq : a = plainRun draw gen pick lm (a.rows - 1) history st rng :=
    acceptIds_eq_plainRun draw gen pick lm (by simp) st rng
  have hpos : 0 < a.rows := acceptIds_rows_pos draw gen pick noId _ lm.vocab 0 drafts st rng
  obtain ⟨hle, hpicks, hstop⟩ := acceptIds_picks draw gen pick noId
    (fun i => lm.logits (history ++ drafts.take i)) lm.vocab 0 drafts st rng
  change a.rows ≤ drafts.length + 1 at hle
  change a.picks = drafts.take (a.rows - 1) ++ [a.last] at hpicks
  have hlen : a.picks.length = a.rows := by
    rw [hpicks]
    simp only [List.length_append, List.length_take, List.length_singleton]
    omega
  refine ⟨heq, hpos, hle, hlen, hpicks, hstop, fun hs hid => acceptIds_congr _ _ _ ?_ st rng⟩
  intro j hj st rng
  rw [Nat.zero_add, drawn_noId,
    drawn_of_plainArgmax hs endId gen (hid j hj)]

/-- Whole scores. -/
instance : ScoreOps Int where
  zero := 0
  one := 1
  lt a b := a < b
  le a b := a ≤ b
  eq a b := a == b
  add := (· + ·)
  sub := (· - ·)
  mul := (· * ·)
  div := (· / ·)
  ofNat := (↑)

/-- A model of four tokens that counts up from its last one. -/
def countingModel : LanguageModel Int where
  vocab := 4
  logits history := (List.range 4).map fun id => if id = (history.getLastD 0 + 1) % 4 then 5 else 0
  width _ := by simp
  vocab_le := by decide

/-- The lowest id of the largest score, past a masked one. -/
def countingDraws : Draws Int Nat where
  argmax row skip := (List.range row.length).foldl
    (fun best id => if id ≠ skip ∧ row.getD best 0 < row.getD id 0 then id else best) 0
  draw _ skip _ rng := (skip, rng + 1)

def greedySampling : Sampling Int := ⟨0, 0, 1, 1, 0, 0, 0, false⟩

theorem accept_is_the_plain_run_counting :
    let pick := fun (gen : List Nat) y => (gen ++ [y], decide (gen.length < 9))
    let row := fun i => countingModel.logits ([0] ++ [1, 2, 0, 1].take i)
    let a := acceptIds (sample countingDraws greedySampling 3) (fun gen => gen) pick
      (fun i => if i = 1 then 4 else i + 1) row 4 0 [1, 2, 0, 1] [] 7
    a = accept (sample countingDraws greedySampling 3) (fun gen => gen) pick row 4 [1, 2, 0, 1] [] 7
      ∧ a.picks = [1, 2, 3] ∧ a.rng = 7 ∧ a.going = true := by
  intro pick row a
  have h := accept_is_the_plain_run countingModel (sample countingDraws greedySampling 3)
    (fun gen => gen) pick [0] [1, 2, 0, 1] [] 7 countingDraws greedySampling 3
    (fun i => if i = 1 then 4 else i + 1) row
  refine ⟨h.2.2.2.2.2.2 (by decide) (by decide), by decide, by decide, by decide⟩

end Llmx
