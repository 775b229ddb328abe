import Mathlib.Data.List.Basic
import Mathlib.Tactic.Common

/-!
Prompt lookup: the earlier occurrence of a history's last tokens whose match runs back furthest, and
the draft that continues it.
-/

namespace Llmx

namespace Lookup

/-- The images' rows of a history, each from its first row up to its end. -/
abbrev ImageRows := List (Nat × Nat)

def imageRow (images : ImageRows) (place : Nat) : Bool :=
  images.any fun r => decide (r.1 ≤ place ∧ place < r.2)

/-- Whether the rows from `first` up to `stop` hold no image row. -/
def textRows (images : ImageRows) (first stop : Nat) : Bool :=
  images.all fun r => !decide (r.1 < stop ∧ first < r.2)

def kConvincing : Nat := 8

def kLongestMatch : Nat := 128

def kFarEnough : Nat := 32

/-- `n` tokens from `i` on; none where one is past the history's end. -/
def tokensAt (h : List Nat) (i n : Nat) : Option (List Nat) :=
  if i + n ≤ h.length then some ((h.drop i).take n) else none

/-- The token `k` places before the last one before `stop`; none where there is no such place. -/
def tokenBefore (h : List Nat) (stop k : Nat) : Option Nat :=
  if k < stop then h[stop - 1 - k]? else none

/-- Whether the last tokens occur at `i` too, where no row is an image's; none past the history. -/
def occursAt (h : List Nat) (images : ImageRows) (i : Nat) : Option Bool :=
  match tokenBefore h (i + kConvincing) 0, tokenBefore h h.length 0 with
  | some here, some last =>
    if here ≠ last then some false
    else
      match tokensAt h i (kConvincing - 1),
          tokensAt h (h.length - kConvincing) (kConvincing - 1) with
      | some copy, some tail => some (decide (copy = tail) && textRows images i (i + kConvincing))
      | _, _ => none
  | _, _ => none

/-- How far back the match of `run` tokens at `i` goes on; none where it reads past the history. -/
def extend (h : List Nat) (images : ImageRows) (i : Nat) : Nat → Nat → Option Nat
  | 0, run => some run
  | fuel + 1, run =>
    if i + kConvincing ≤ run then some run
    else
      match tokenBefore h (i + kConvincing) run, tokenBefore h h.length run with
      | some a, some b =>
        if a = b ∧ imageRow images (i + kConvincing - 1 - run) = false then
          extend h images i fuel (run + 1)
        else some run
      | _, _ => none

/-- The search from `i` down: the best occurrence so far and its match's length. -/
def search (h : List Nat) (images : ImageRows) :
    Nat → Option Nat × Nat → Option (Option Nat × Nat)
  | 0, best => some best
  | i + 1, best =>
    if best.2 < kFarEnough then
      match occursAt h images i with
      | none => none
      | some false => search h images i best
      | some true =>
        match extend h images i (kLongestMatch - kConvincing) kConvincing with
        | none => none
        | some run => search h images i (if best.2 < run then (some i, run) else best)
    else some best

/-- At most `left` more tokens of the draft, from place `j` on, which past the history reads the
draft itself. -/
def draftFrom (h : List Nat) (images : ImageRows) :
    Nat → Nat → List Nat → Option (List Nat)
  | 0, _, out => some out
  | left + 1, j, out =>
    if imageRow images j then some out
    else
      match if j < h.length then h[j]? else out[j - h.length]? with
      | none => none
      | some t => draftFrom h images left (j + 1) (out ++ [t])

/-- The match's length, or 0, and up to `k` tokens of draft; none where an index is out of range. -/
def convincing (h : List Nat) (k : Nat) (images : ImageRows) : Option (Nat × List Nat) :=
  if h.length ≤ kConvincing ∨ k = 0 ∨
      textRows images (h.length - kConvincing) h.length = false then some (0, [])
  else
    match search h images (h.length - kConvincing) (none, 0) with
    | none => none
    | some (none, _) => some (0, [])
    | some (some i, run) =>
      (draftFrom h images k (i + kConvincing) []).map fun out => (run, out)

/-- The last tokens occur at `i`, before the history's end and where no row is an image's. -/
structure Occurs (h : List Nat) (images : ImageRows) (i : Nat) : Prop where
  inside : i + kConvincing < h.length
  alike : ∀ t < kConvincing, h[i + t]? = h[h.length - kConvincing + t]?
  text : textRows images i (i + kConvincing) = true

/-- The occurrence at `i` matches `r` tokens back and no more, of text in the earlier copy. -/
structure Match (h : List Nat) (images : ImageRows) (i r : Nat) : Prop extends Occurs h images i where
  least : kConvincing ≤ r
  most : r ≤ kLongestMatch
  room : r ≤ i + kConvincing
  back : ∀ t < r, h[i + kConvincing - 1 - t]? = h[h.length - 1 - t]?
  clear : ∀ p, i + kConvincing - r ≤ p → p < i + kConvincing → imageRow images p = false
  longest : r = kLongestMatch ∨ r = i + kConvincing ∨
    h[i + kConvincing - 1 - r]? ≠ h[h.length - 1 - r]? ∨
    imageRow images (i + kConvincing - 1 - r) = true

variable {h : List Nat} {images : ImageRows}

theorem imageRow_of_textRows {first stop p : Nat} (htext : textRows images first stop = true)
    (hfirst : first ≤ p) (hstop : p < stop) : imageRow images p = false := by
  unfold textRows at htext
  unfold imageRow
  rw [List.any_eq_false]
  intro r hr hrow
  have hr := List.all_eq_true.mp htext r hr
  simp only [decide_eq_true_eq, Bool.not_eq_true', decide_eq_false_iff_not] at hr hrow
  omega

/-- Where every image has a row, rows are text where none is an image's. -/
theorem textRows_iff {first stop : Nat} (himages : ∀ r ∈ images, r.1 < r.2) (hrows : first < stop) :
    textRows images first stop = true ↔ ∀ p, first ≤ p → p < stop → imageRow images p = false := by
  constructor
  · intro htext p hfirst hstop
    exact imageRow_of_textRows htext hfirst hstop
  · intro hclear
    unfold textRows
    rw [List.all_eq_true]
    intro r hr
    have hrange := himages r hr
    simp only [Bool.not_eq_true', decide_eq_false_iff_not]
    intro hmeets
    have hrow := hclear (max first r.1) (Nat.le_max_left _ _) (by omega)
    unfold imageRow at hrow
    have hnot := List.any_eq_false.mp hrow r hr
    simp only [decide_eq_true_eq] at hnot
    omega

theorem tokenBefore_eq {stop k : Nat} (hk : k < stop) (hstop : stop ≤ h.length) :
    ∃ t, tokenBefore h stop k = some t ∧ h[stop - 1 - k]? = some t := by
  unfold tokenBefore
  rw [if_pos hk]
  exact ⟨_, List.getElem?_eq_getElem (by omega), List.getElem?_eq_getElem (by omega)⟩

theorem tokensAt_eq {i n : Nat} (hin : i + n ≤ h.length) :
    tokensAt h i n = some ((h.drop i).take n) := if_pos hin

theorem slices_eq_iff (i j n : Nat) :
    (h.drop i).take n = (h.drop j).take n ↔ ∀ t < n, h[i + t]? = h[j + t]? := by
  constructor
  · intro heq t ht
    have hget : ((h.drop i).take n)[t]? = ((h.drop j).take n)[t]? := by rw [heq]
    rw [List.getElem?_take_of_lt ht, List.getElem?_take_of_lt ht, List.getElem?_drop,
      List.getElem?_drop] at hget
    exact hget
  · intro hall
    apply List.ext_getElem?
    intro t
    by_cases ht : t < n
    · rw [List.getElem?_take_of_lt ht, List.getElem?_take_of_lt ht, List.getElem?_drop,
        List.getElem?_drop]
      exact hall t ht
    · rw [List.getElem?_eq_none (by rw [List.length_take]; omega),
        List.getElem?_eq_none (by rw [List.length_take]; omega)]

theorem occursAt_spec {i : Nat} (hi : i + kConvincing < h.length) :
    ∃ b, occursAt h images i = some b ∧ (b = true ↔ Occurs h images i) := by
  have hn : kConvincing = 8 := Eq.refl _
  obtain ⟨here, hhere, hhere'⟩ := tokenBefore_eq (k := 0) (show 0 < i + kConvincing by omega)
    (Nat.le_of_lt hi)
  obtain ⟨last, hlast, hlast'⟩ := tokenBefore_eq (k := 0) (show 0 < h.length by omega) (Nat.le_refl _)
  have hcopy := tokensAt_eq (h := h) (show i + (kConvincing - 1) ≤ h.length by omega)
  have htail := tokensAt_eq (h := h)
    (show h.length - kConvincing + (kConvincing - 1) ≤ h.length by omega)
  unfold occursAt
  rw [hhere, hlast, hcopy, htail]
  dsimp only
  split
  next hne =>
    refine ⟨false, Eq.refl _, fun hfalse => (by cases hfalse), fun hocc => ?_⟩
    have hend := hocc.alike 7 (by omega)
    have h1 : i + kConvincing - 1 - 0 = i + 7 := by omega
    have h2 : h.length - 1 - 0 = h.length - kConvincing + 7 := by omega
    rw [h1] at hhere'
    rw [h2] at hlast'
    rw [hhere', hlast'] at hend
    exact absurd (Option.some.inj hend) hne
  next heq =>
    have heq := not_not.mp heq
    refine ⟨_, Eq.refl _, ?_⟩
    rw [Bool.and_eq_true, decide_eq_true_eq, slices_eq_iff]
    constructor
    · intro hall
      refine ⟨hi, fun t ht => ?_, hall.2⟩
      by_cases hlt : t < kConvincing - 1
      · exact hall.1 t hlt
      · have h1 : i + t = i + kConvincing - 1 - 0 := by omega
        have h2 : h.length - kConvincing + t = h.length - 1 - 0 := by omega
        rw [h1, h2, hhere', hlast', heq]
    · intro hocc
      exact ⟨fun t ht => hocc.alike t (by omega), hocc.text⟩

/-- A match goes back as far as it can. -/
theorem extend_spec {i run fuel : Nat} (hocc : Occurs h images i) (hleast : kConvincing ≤ run)
    (hfuel : run + fuel = kLongestMatch) (hroom : run ≤ i + kConvincing)
    (hback : ∀ t < run, h[i + kConvincing - 1 - t]? = h[h.length - 1 - t]?)
    (hclear : ∀ p, i + kConvincing - run ≤ p → p < i + kConvincing → imageRow images p = false) :
    ∃ r, extend h images i fuel run = some r ∧ Match h images i r := by
  have hn : kConvincing = 8 := Eq.refl _
  have hinside := hocc.inside
  induction fuel generalizing run with
  | zero =>
    exact ⟨run, Eq.refl _, hocc, hleast, by omega, hroom, hback, hclear, Or.inl (by omega)⟩
  | succ fuel ih =>
    unfold extend
    split
    next hend =>
      exact ⟨run, Eq.refl _, hocc, hleast, by omega, hroom, hback, hclear,
        Or.inr (Or.inl (by omega))⟩
    next hmore =>
      obtain ⟨a, ha, ha'⟩ := tokenBefore_eq (show run < i + kConvincing by omega)
        (Nat.le_of_lt hinside)
      obtain ⟨b, hb, hb'⟩ := tokenBefore_eq (show run < h.length by omega) (Nat.le_refl _)
      rw [ha, hb]
      dsimp only
      split
      next hgo =>
        obtain ⟨rfl, hrow⟩ := hgo
        apply ih
        · omega
        · omega
        · omega
        · intro t ht
          by_cases hlt : t < run
          · exact hback t hlt
          · have heq : t = run := by omega
            rw [heq, ha', hb']
        · intro p hp hp'
          by_cases hlt : i + kConvincing - run ≤ p
          · exact hclear p hlt hp'
          · have heq : p = i + kConvincing - 1 - run := by omega
            rw [heq]
            exact hrow
      next hstop =>
        refine ⟨run, Eq.refl _, hocc, hleast, by omega, hroom, hback, hclear, Or.inr (Or.inr ?_)⟩
        rw [ha', hb']
        rcases not_and_or.mp hstop with hne | hrow
        · exact Or.inl fun heq => hne (Option.some.inj heq)
        · exact Or.inr (Bool.of_not_eq_false hrow)

/-- Every occurrence has its match. -/
theorem Occurs.matched {i : Nat} (hocc : Occurs h images i) :
    ∃ r, extend h images i (kLongestMatch - kConvincing) kConvincing = some r ∧
      Match h images i r := by
  have hn : kConvincing = 8 := Eq.refl _
  have hinside := hocc.inside
  refine extend_spec hocc (Nat.le_refl _) (Eq.refl _) (Nat.le_add_left _ _) ?_ ?_
  · intro t ht
    have halike := hocc.alike (kConvincing - 1 - t) (by omega)
    have h1 : i + (kConvincing - 1 - t) = i + kConvincing - 1 - t := by omega
    have h2 : h.length - kConvincing + (kConvincing - 1 - t) = h.length - 1 - t := by omega
    rw [h1, h2] at halike
    exact halike
  · intro p hp hp'
    exact imageRow_of_textRows hocc.text (by omega) hp'

theorem Match.unique {i r r' : Nat} (hm : Match h images i r) (hm' : Match h images i r') :
    r = r' := by
  have hn : kConvincing = 8 := Eq.refl _
  have hnot : ∀ {a b : Nat}, Match h images i a → Match h images i b → ¬a < b := by
    intro a b ha hb hlt
    have hmost := hb.most
    have hroom := hb.room
    rcases ha.longest with hfar | hfront | htoken | hrow
    · omega
    · omega
    · exact htoken (hb.back a hlt)
    · rw [hb.clear (i + kConvincing - 1 - a) (by omega) (by omega)] at hrow
      cases hrow
  have h1 := hnot hm hm'
  have h2 := hnot hm' hm
  omega

/-- The best occurrence of those from `i` on: none is longer, and the later ones are shorter. -/
structure Best (h : List Nat) (images : ImageRows) (i b r : Nat) : Prop extends
    Match h images b r where
  from_ : i ≤ b
  later : ∀ j s, b < j → Match h images j s → s < r ∧ s < kFarEnough
  between : ∀ j s, i ≤ j → j < b → Match h images j s → s ≤ r

/-- What the search holds once it has come down to `i`. -/
def Sought (h : List Nat) (images : ImageRows) (i : Nat) : Option Nat × Nat → Prop
  | (none, r) => r = 0 ∧ ∀ j, i ≤ j → ¬Occurs h images j
  | (some b, r) => Best h images i b r

/-- The search ends with the best occurrence of all, or of those down to a match long enough. -/
theorem search_spec {i : Nat} (hi : i + kConvincing ≤ h.length) {best : Option Nat × Nat}
    (hbest : Sought h images i best) :
    ∃ found, search h images i best = some found ∧
      ((Sought h images 0 found) ∨ ∃ b r, found = (some b, r) ∧ kFarEnough ≤ r ∧
        Match h images b r ∧ ∀ j s, b < j → Match h images j s → s < r ∧ s < kFarEnough) := by
  have hn : kConvincing = 8 := Eq.refl _
  have hfar : kFarEnough = 32 := Eq.refl _
  induction i generalizing best with
  | zero => exact ⟨best, Eq.refl _, Or.inl hbest⟩
  | succ i ih =>
    unfold search
    split
    next hgo =>
      obtain ⟨found, hfound, hocc⟩ := @occursAt_spec h images i
        (show i + kConvincing < h.length by omega)
      rw [hfound]
      cases found with
      | false =>
        dsimp only
        apply ih (by omega)
        have hnone : ¬Occurs h images i := fun hh => by cases hocc.mpr hh
        obtain ⟨_ | b, r⟩ := best
        · refine ⟨hbest.1, fun j hj => ?_⟩
          by_cases heq : j = i
          · rw [heq]
            exact hnone
          · exact hbest.2 j (by omega)
        · have hfrom := hbest.from_
          refine ⟨hbest.toMatch, by omega, hbest.later, fun j s hj hjb hm => ?_⟩
          by_cases heq : j = i
          · rw [heq] at hm
            exact absurd hm.toOccurs hnone
          · exact hbest.between j s (by omega) hjb hm
      | true =>
        obtain ⟨run, hrun, hmatch⟩ := (hocc.mp (Eq.refl _)).matched
        have hleast := hmatch.least
        dsimp only
        rw [hrun]
        dsimp only
        apply ih (by omega)
        obtain ⟨_ | b, r⟩ := best
        · obtain ⟨hzero, hnone⟩ := hbest
          rw [if_pos (by dsimp only; omega)]
          refine ⟨hmatch, Nat.le_refl _, fun j s hj hm => ?_, fun j s hj hji => by omega⟩
          exact absurd hm.toOccurs (hnone j (by omega))
        · have hfrom := hbest.from_
          dsimp only at hgo ⊢
          split
          next hlonger =>
            refine ⟨hmatch, Nat.le_refl _, fun j s hj hm => ?_, fun j s hj hji => by omega⟩
            rcases Nat.lt_trichotomy j b with hjb | rfl | hjb
            · have := hbest.between j s (by omega) hjb hm
              omega
            · have := hm.unique hbest.toMatch
              omega
            · have := hbest.later j s hjb hm
              omega
          next hshorter =>
            refine ⟨hbest.toMatch, by omega, hbest.later, fun j s hj hjb hm => ?_⟩
            by_cases heq : j = i
            · rw [heq] at hm
              have := hm.unique hmatch
              omega
            · exact hbest.between j s (by omega) hjb hm
    next hstop =>
      obtain ⟨_ | b, r⟩ := best
      · have := hbest.1
        dsimp only at hstop
        omega
      · exact ⟨_, Eq.refl _, Or.inr ⟨b, r, Eq.refl _, Nat.le_of_not_lt hstop, hbest.toMatch,
          hbest.later⟩⟩

/-- `t` tokens of what continues the history past place `start` and then repeats itself, no image
row among them. -/
structure Continues (h : List Nat) (images : ImageRows) (start : Nat) (out : List Nat) : Prop where
  token : ∀ t < out.length, out[t]? = h[start + t % (h.length - start)]?
  clear : ∀ t < out.length, imageRow images (start + t) = false

theorem draftFrom_spec {start : Nat} (hstart : start < h.length) (left : Nat) {out : List Nat}
    (hout : Continues h images start out) :
    ∃ draft, draftFrom h images left (start + out.length) out = some draft ∧
      Continues h images start draft ∧ draft.length ≤ out.length + left ∧
      (draft.length = out.length + left ∨ imageRow images (start + draft.length) = true) := by
  induction left generalizing out with
  | zero => exact ⟨out, Eq.refl _, hout, Nat.le_refl _, Or.inl (Eq.refl _)⟩
  | succ left ih =>
    unfold draftFrom
    split
    next hrow => exact ⟨out, Eq.refl _, hout, Nat.le_add_right _ _, Or.inr hrow⟩
    next hrow =>
      have hread : ∃ x, (if start + out.length < h.length then h[start + out.length]?
          else out[start + out.length - h.length]?) = some x ∧
          h[start + out.length % (h.length - start)]? = some x := by
        split
        next hlt =>
          rw [Nat.mod_eq_of_lt (by omega)]
          exact ⟨_, List.getElem?_eq_getElem hlt, List.getElem?_eq_getElem hlt⟩
        next hge =>
          have hback : start + out.length - h.length = out.length - (h.length - start) := by omega
          have hplace : start + out.length % (h.length - start) < h.length := by
            have := Nat.mod_lt out.length (show 0 < h.length - start by omega)
            omega
          rw [hback, hout.token _ (by omega), ← Nat.mod_eq_sub_mod (by omega)]
          exact ⟨_, List.getElem?_eq_getElem hplace, List.getElem?_eq_getElem hplace⟩
      obtain ⟨x, hx, hx'⟩ := hread
      rw [hx]
      have hlen : (out ++ [x]).length = out.length + 1 := List.length_append
      have hnext : Continues h images start (out ++ [x]) := by
        constructor
        · intro t ht
          rw [hlen] at ht
          by_cases hlt : t < out.length
          · rw [List.getElem?_append_left hlt]
            exact hout.token t hlt
          · have heq : t = out.length := by omega
            rw [heq, List.getElem?_concat_length, hx']
        · intro t ht
          rw [hlen] at ht
          by_cases hlt : t < out.length
          · exact hout.clear t hlt
          · have heq : t = out.length := by omega
            rw [heq]
            exact Bool.of_not_eq_true hrow
      obtain ⟨draft, hdraft, hcont, hle, hend⟩ := ih hnext
      rw [hlen, ← Nat.add_assoc] at hdraft
      rw [hlen] at hle hend
      refine ⟨draft, hdraft, hcont, by omega, ?_⟩
      rcases hend with hend | hend
      · exact Or.inl (by omega)
      · exact Or.inr hend

/-- What prompt lookup drafts: no index is out of range, and it finds nothing exactly where it may
draft nothing or the last tokens occur nowhere else as text; else it matches an occurrence as far back
as it goes, none later of a longer match nor an earlier one unless the search stopped, and drafts what
continues it. -/
theorem convincing_drafts (h : List Nat) (k : Nat) (images : ImageRows) :
    ∃ r out, convincing h k images = some (r, out) ∧
      (r = 0 ↔ k = 0 ∨ textRows images (h.length - kConvincing) h.length = false ∨
        ∀ i, ¬Occurs h images i) ∧
      (r = 0 → out = []) ∧
      (0 < r → ∃ i, Match h images i r ∧
        (∀ j s, i < j → Match h images j s → s < r ∧ s < kFarEnough) ∧
        (r < kFarEnough → ∀ j s, j < i → Match h images j s → s ≤ r) ∧
        Continues h images (i + kConvincing) out ∧ out.length ≤ k ∧
        (out.length = k ∨ imageRow images (i + kConvincing + out.length) = true)) ∧
      (∀ i, Occurs h images i → ∃ s, Match h images i s) ∧
      ((∀ row ∈ images, row.1 < row.2) → ∀ first stop, first < stop →
        (textRows images first stop = true ↔
          ∀ p, first ≤ p → p < stop → imageRow images p = false)) := by
  have hn : kConvincing = 8 := Eq.refl _
  have hmatched : ∀ i, Occurs h images i → ∃ s, Match h images i s := by
    intro i hi
    obtain ⟨s, -, hs⟩ := hi.matched
    exact ⟨s, hs⟩
  have hrows : (∀ row ∈ images, row.1 < row.2) → ∀ first stop, first < stop →
      (textRows images first stop = true ↔
        ∀ p, first ≤ p → p < stop → imageRow images p = false) :=
    fun himages first stop => textRows_iff himages
  unfold convincing
  split
  next hnot =>
    refine ⟨0, [], Eq.refl _, ⟨fun _ => ?_, fun _ => Eq.refl _⟩, fun _ => Eq.refl _,
      fun hpos => absurd hpos (Nat.lt_irrefl 0), hmatched, hrows⟩
    rcases hnot with hshort | hzero | htail
    · refine Or.inr (Or.inr fun i hocc => ?_)
      have := hocc.inside
      omega
    · exact Or.inl hzero
    · exact Or.inr (Or.inl htail)
  next hdo =>
    obtain ⟨hlong, hk, htail⟩ : ¬h.length ≤ kConvincing ∧ ¬k = 0 ∧
        ¬textRows images (h.length - kConvincing) h.length = false := by
      refine ⟨fun hh => hdo (Or.inl hh), fun hh => hdo (Or.inr (Or.inl hh)),
        fun hh => hdo (Or.inr (Or.inr hh))⟩
    have hbegin : Sought h images (h.length - kConvincing) (none, 0) := by
      refine ⟨Eq.refl _, fun j hj hocc => ?_⟩
      have := hocc.inside
      omega
    obtain ⟨found, hfound, hcase⟩ := search_spec (by omega) hbegin
    rw [hfound]
    obtain ⟨_ | i, r⟩ := found
    · obtain ⟨-, hnone⟩ | ⟨b, r', hsome, -⟩ := hcase
      · exact ⟨0, [], Eq.refl _, ⟨fun _ => Or.inr (Or.inr fun i => hnone i (Nat.zero_le i)),
          fun _ => Eq.refl _⟩, fun _ => Eq.refl _, fun hpos => absurd hpos (Nat.lt_irrefl 0),
          hmatched, hrows⟩
      · cases hsome
    · have hbest : Match h images i r ∧
          (∀ j s, i < j → Match h images j s → s < r ∧ s < kFarEnough) ∧
          (r < kFarEnough → ∀ j s, j < i → Match h images j s → s ≤ r) := by
        obtain hall | ⟨b, r', hsome, hfar, hmatch, hlater⟩ := hcase
        · exact ⟨hall.toMatch, hall.later, fun _ j s => hall.between j s (Nat.zero_le j)⟩
        · obtain ⟨hib, hrr⟩ := Prod.mk.inj hsome
          obtain rfl := Option.some.inj hib
          obtain rfl := hrr
          exact ⟨hmatch, hlater, fun hlt => absurd hlt (by omega)⟩
      obtain ⟨hmatch, hlater, hearlier⟩ := hbest
      have hleast := hmatch.least
      have hinside := hmatch.inside
      have hempty : Continues h images (i + kConvincing) [] :=
        ⟨fun t ht => absurd ht (Nat.not_lt_zero t), fun t ht => absurd ht (Nat.not_lt_zero t)⟩
      obtain ⟨draft, hdraft, hcont, hle, hend⟩ := draftFrom_spec hinside k hempty
      rw [List.length_nil, Nat.zero_add] at hle hend
      have hdraft : draftFrom h images k (i + kConvincing) [] = some draft := hdraft
      dsimp only
      rw [hdraft]
      refine ⟨r, draft, Eq.refl _, ⟨fun hzero => by omega, fun hnone => ?_⟩, fun hzero => by omega,
        fun _ => ⟨i, hmatch, hlater, hearlier, hcont, hle, hend⟩, hmatched, hrows⟩
      rcases hnone with hzero | hrow | hocc
      · exact absurd hzero hk
      · exact absurd hrow htail
      · exact absurd hmatch.toOccurs (hocc i)

end Lookup

end Llmx
