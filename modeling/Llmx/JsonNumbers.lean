import Llmx.Fallible
import Llmx.JsonStrings

namespace Llmx

namespace Json

open Fallible

theorem digits_takeWhile {s : Bytes} (h : digit s = true) : Digits (s.takeWhile isDigit) := by
  cases s with
  | nil => cases h
  | cons c r =>
    have hc : isDigit c = true := h
    refine ⟨?_, fun d hd => List.mem_takeWhile_imp hd⟩
    rw [List.takeWhile_cons_of_pos hc]
    exact List.cons_ne_nil _ _

theorem Digits.digit {ds : Bytes} (h : Digits ds) (r : Bytes) : digit (ds ++ r) = true := by
  cases ds with
  | nil => exact absurd rfl h.1
  | cons d ds => exact h.2 d List.mem_cons_self

/-- No digit comes next. -/
def Halts (r : Bytes) : Prop := ∀ c ∈ r.head?, isDigit c = false

theorem Halts.cons {c : UInt8} {r : Bytes} (hc : isDigit c = false) : Halts (c :: r) := by
  intro d hd
  cases hd
  exact hc

theorem digits_split {ds r : Bytes} (hds : ∀ c ∈ ds, isDigit c = true) (hr : Halts r) :
    (ds ++ r).takeWhile isDigit = ds ∧ (ds ++ r).dropWhile isDigit = r := by
  rw [List.takeWhile_append_of_pos hds, List.dropWhile_append_of_pos hds]
  cases r with
  | nil => exact ⟨List.append_nil ds, rfl⟩
  | cons c r =>
    have hc : ¬ isDigit c = true := by
      rw [hr c rfl]
      decide
    rw [List.takeWhile_cons_of_neg hc, List.dropWhile_cons_of_neg hc]
    exact ⟨List.append_nil ds, rfl⟩

theorem integral_reads {s : Bytes} (hs : s ≠ []) :
    Reads (fun ir => ∃ sign int, (sign = [] ∨ sign = ['-'.toUInt8]) ∧ IsIntegral int ∧
      ir.1 = sign ++ int ∧ s = ir.1 ++ ir.2) (integral s) := by
  have hdigits : ∀ sign d rest, (sign = [] ∨ sign = ['-'.toUInt8]) → s = sign ++ d :: rest →
      isDigit d = true →
      Reads (fun ir => ∃ sign int, (sign = [] ∨ sign = ['-'.toUInt8]) ∧ IsIntegral int ∧
        ir.1 = sign ++ int ∧ s = ir.1 ++ ir.2)
        (if d = '0'.toUInt8 then .ok (sign ++ [d], rest)
        else .ok (sign ++ (d :: rest).takeWhile isDigit, (d :: rest).dropWhile isDigit)) := by
    intro sign d rest hsign heq hd'
    have hdig : digit (d :: rest) = true := hd'
    split
    next hd =>
      refine ⟨sign, [d], hsign, .inl (by rw [hd]), rfl, ?_⟩
      rw [heq, List.append_assoc]
      rfl
    next hd =>
      refine ⟨sign, _, hsign, .inr ⟨digits_takeWhile hdig, ?_⟩, rfl, ?_⟩
      · rw [List.takeWhile_cons_of_pos hd']
        exact fun h => hd (Option.some.inj h)
      · dsimp only
        rw [List.append_assoc, List.takeWhile_append_dropWhile, heq]
  cases s with
  | nil => exact absurd rfl hs
  | cons c rest =>
    unfold integral
    dsimp only
    by_cases hc : c = '-'.toUInt8
    · rw [if_pos hc, if_pos hc]
      split
      · exact ⟨by decide, by decide⟩
      next hdig =>
        cases rest with
        | nil => exact absurd rfl hdig
        | cons d rest =>
          exact hdigits [c] d rest (.inr (by rw [hc])) rfl (eq_true_of_ne_false hdig)
    · rw [if_neg hc, if_neg hc]
      split
      · exact ⟨by decide, by decide⟩
      next hdig => exact hdigits [] c rest (.inl rfl) rfl (eq_true_of_ne_false hdig)

theorem integral_complete {sign int r : Bytes} (hsign : sign = [] ∨ sign = ['-'.toUInt8])
    (hint : IsIntegral int) (hr : Halts r) :
    integral (sign ++ int ++ r) = .ok (sign ++ int, r) := by
  obtain ⟨d, ds, rfl, hd, hds⟩ : ∃ d ds, int = d :: ds ∧ isDigit d = true ∧
      (if d = '0'.toUInt8 then .ok (sign ++ [d], ds ++ r)
        else .ok (sign ++ (d :: (ds ++ r)).takeWhile isDigit, (d :: (ds ++ r)).dropWhile isDigit) :
          Except Error (Bytes × Bytes)) = .ok (sign ++ d :: ds, r) := by
    rcases hint with rfl | ⟨hint, hzero⟩
    · refine ⟨_, [], rfl, by decide, ?_⟩
      rw [if_pos rfl]
      rfl
    · cases int with
      | nil => exact absurd rfl hint.1
      | cons d ds =>
        refine ⟨d, ds, rfl, hint.2 d List.mem_cons_self, ?_⟩
        obtain ⟨ht, hdr⟩ := digits_split hint.2 hr
        rw [List.cons_append] at ht hdr
        rw [if_neg (fun h => hzero (congrArg some h)), ht, hdr]
  have hdig : ¬ digit (d :: (ds ++ r)) = false := by
    rw [show digit (d :: (ds ++ r)) = true from hd]
    decide
  rcases hsign with rfl | rfl
  · have hne : ¬ d = '-'.toUInt8 := by
      rintro rfl
      revert hd
      decide
    show integral (d :: (ds ++ r)) = _
    unfold integral
    dsimp only
    rw [if_neg hne, if_neg hne, if_neg hdig]
    exact hds
  · show integral ('-'.toUInt8 :: d :: (ds ++ r)) = _
    unfold integral
    dsimp only
    rw [if_pos rfl, if_pos rfl, if_neg hdig]
    exact hds

theorem fraction_reads (s : Bytes) :
    Reads (fun fr => IsFraction fr.1 ∧ s = fr.1 ++ fr.2) (fraction s) := by
  unfold fraction
  split
  · exact ⟨.inl rfl, rfl⟩
  next c rest =>
    split
    next hc =>
      split
      · exact ⟨by decide, by decide⟩
      next hdig =>
        refine ⟨.inr ⟨_, digits_takeWhile (eq_true_of_ne_false hdig), ?_⟩, ?_⟩
        · rw [hc]
        · dsimp only
          rw [List.cons_append, List.takeWhile_append_dropWhile]
    · exact ⟨.inl rfl, rfl⟩

theorem fraction_complete {frac r : Bytes} (hfrac : IsFraction frac) (hr : Halts r)
    (hdot : r.head? ≠ some '.'.toUInt8) : fraction (frac ++ r) = .ok (frac, r) := by
  rcases hfrac with rfl | ⟨ds, hds, rfl⟩
  · cases r with
    | nil => rfl
    | cons c r => exact if_neg (fun h => hdot (congrArg some h))
  · have hdig : ¬ digit (ds ++ r) = false := by
      rw [hds.digit r]
      decide
    obtain ⟨ht, hd⟩ := digits_split hds.2 hr
    rw [List.cons_append, fraction, if_pos rfl, if_neg hdig, ht, hd]

theorem exponentSign_reads (s : Bytes) :
    ((exponentSign s).1 = [] ∨ (exponentSign s).1 = ['+'.toUInt8] ∨
      (exponentSign s).1 = ['-'.toUInt8]) ∧ s = (exponentSign s).1 ++ (exponentSign s).2 := by
  unfold exponentSign
  split
  · exact ⟨.inl rfl, rfl⟩
  next c s =>
    split
    next hc =>
      rcases hc with rfl | rfl
      · exact ⟨.inr (.inl rfl), rfl⟩
      · exact ⟨.inr (.inr rfl), rfl⟩
    · exact ⟨.inl rfl, rfl⟩

theorem exponentSign_complete {sign ds : Bytes} (r : Bytes)
    (hsign : sign = [] ∨ sign = ['+'.toUInt8] ∨ sign = ['-'.toUInt8]) (hds : Digits ds) :
    exponentSign (sign ++ (ds ++ r)) = (sign, ds ++ r) := by
  rcases hsign with rfl | rfl | rfl
  · cases ds with
    | nil => exact absurd rfl hds.1
    | cons d ds =>
      refine if_neg ?_
      have hd := hds.2 d List.mem_cons_self
      rintro (rfl | rfl)
      · revert hd
        decide
      · revert hd
        decide
  · rw [List.cons_append, exponentSign, if_pos (.inl rfl), List.nil_append]
  · rw [List.cons_append, exponentSign, if_pos (.inr rfl), List.nil_append]

theorem exponent_reads (s : Bytes) :
    Reads (fun er => IsExponent er.1 ∧ s = er.1 ++ er.2) (exponent s) := by
  unfold exponent
  split
  · exact ⟨.inl rfl, rfl⟩
  next c rest =>
    split
    next hc =>
      obtain ⟨hsign, hrest⟩ := exponentSign_reads rest
      dsimp only
      split
      · exact ⟨by decide, by decide⟩
      next hdig =>
        refine ⟨.inr ⟨c, _, _, hc, hsign,
          digits_takeWhile (eq_true_of_ne_false hdig), rfl⟩, ?_⟩
        dsimp only
        rw [List.cons_append, List.cons_append, List.append_assoc,
          List.takeWhile_append_dropWhile, ← hrest]
    · exact ⟨.inl rfl, rfl⟩

theorem exponent_complete {exp r : Bytes} (hexp : IsExponent exp) (hr : Halts r)
    (he : r.head? ≠ some 'e'.toUInt8) (hE : r.head? ≠ some 'E'.toUInt8) :
    exponent (exp ++ r) = .ok (exp, r) := by
  rcases hexp with rfl | ⟨e, sign, ds, hletter, hsign, hds, rfl⟩
  · cases r with
    | nil => rfl
    | cons c r =>
      refine if_neg ?_
      rintro (rfl | rfl)
      · exact he rfl
      · exact hE rfl
  · have hdig : ¬ digit (ds ++ r) = false := by
      rw [hds.digit r]
      decide
    obtain ⟨ht, hd⟩ := digits_split hds.2 hr
    rw [List.append_assoc, List.cons_append, exponent, if_pos hletter,
      exponentSign_complete r hsign hds]
    dsimp only
    rw [if_neg hdig, ht, hd]

theorem whole_iff (frac exp : Bytes) :
    (frac.isEmpty && exp.isEmpty) = decide (frac = [] ∧ exp = []) := by
  cases frac <;> cases exp <;> rfl

variable {δ : Type} (conv : Conversion δ)

theorem parseNumber_reads {s : Bytes} (hs : s ≠ []) :
    Reads (fun vr => ∃ t int frac exp num, IsNumber t int frac exp ∧ InRange conv t num ∧
      vr.1 = .number num (decide (frac = [] ∧ exp = [])) ∧ s = t ++ vr.2) (parseNumber conv s) := by
  refine (integral_reads hs).bind ?_
  rintro ⟨_, s1⟩ ⟨sign, int, hsign, hint, rfl, rfl⟩
  refine (fraction_reads s1).bind ?_
  rintro ⟨frac, s2⟩ ⟨hfrac, rfl⟩
  refine (exponent_reads s2).bind ?_
  rintro ⟨exp, s3⟩ ⟨hexp, rfl⟩
  dsimp only at hfrac hexp ⊢
  split
  · exact ⟨by decide, by decide⟩
  next num hread =>
    split
    · exact ⟨by decide, by decide⟩
    next hunder =>
      refine ⟨_, int, frac, exp, num, ⟨⟨sign, hsign, rfl⟩, hint, hfrac, hexp⟩,
        ⟨hread, fun hzero => ?_⟩, ?_, ?_⟩
      · rw [hzero, Bool.true_and] at hunder
        exact eq_false_of_ne_true hunder
      · dsimp only
        rw [whole_iff]
      · simp only [List.append_assoc]

/-- What may follow a number: no digit, point or exponent. -/
structure Stops (r : Bytes) : Prop where
  halts : Halts r
  dot : r.head? ≠ some '.'.toUInt8
  lower : r.head? ≠ some 'e'.toUInt8
  upper : r.head? ≠ some 'E'.toUInt8

theorem Stops.exponent {exp r : Bytes} (hexp : IsExponent exp) (hr : Stops r) :
    Halts (exp ++ r) ∧ (exp ++ r).head? ≠ some '.'.toUInt8 := by
  rcases hexp with rfl | ⟨e, sign, ds, he, -, -, rfl⟩
  · exact ⟨hr.halts, hr.dot⟩
  · rcases he with rfl | rfl
    · exact ⟨.cons (by decide), fun h => absurd (Option.some.inj h) (by decide)⟩
    · exact ⟨.cons (by decide), fun h => absurd (Option.some.inj h) (by decide)⟩

theorem Halts.fraction {frac r : Bytes} (hfrac : IsFraction frac) (hr : Halts r) :
    Halts (frac ++ r) := by
  rcases hfrac with rfl | ⟨ds, -, rfl⟩
  · exact hr
  · exact .cons (by decide)

theorem parseNumber_complete {t int frac exp r : Bytes} {num : δ}
    (hnum : IsNumber t int frac exp) (hrange : InRange conv t num) (hr : Stops r) :
    parseNumber conv (t ++ r) = .ok (.number num (decide (frac = [] ∧ exp = [])), r) := by
  obtain ⟨sign, hsign, rfl⟩ := hnum.text
  obtain ⟨hhalts, hdot⟩ := hr.exponent hnum.exp
  obtain ⟨hread, hzero⟩ := hrange
  have hint := integral_complete hsign hnum.int (hhalts.fraction hnum.frac)
  have hfrac := fraction_complete hnum.frac hhalts hdot
  have hexp := exponent_complete hnum.exp hr.halts hr.lower hr.upper
  have hcut : sign ++ int ++ frac ++ exp ++ r = sign ++ int ++ (frac ++ (exp ++ r)) := by
    simp only [List.append_assoc]
  rw [hcut, parseNumber, hint, ok_bind]
  dsimp only
  rw [hfrac, ok_bind]
  dsimp only
  rw [hexp, ok_bind]
  dsimp only
  rw [hread]
  dsimp only
  rw [if_neg, whole_iff]
  intro hboth
  obtain ⟨hz, hn⟩ := Bool.and_eq_true_iff.mp hboth
  rw [hzero hz] at hn
  cases hn

end Json

end Llmx
