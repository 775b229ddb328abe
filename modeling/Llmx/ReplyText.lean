import Llmx.Utf8

namespace Llmx

namespace Utf8

/-- A byte that continues a character. -/
def Tail (c : UInt8) : Prop := c.toNat &&& 0xC0 = 0x80

instance : DecidablePred Tail := fun _ => inferInstanceAs (Decidable (_ = _))

/-- Text made of the bytes of code points. -/
def Valid (s : Bytes) : Prop := ∃ ps : List Nat, (∀ p ∈ ps, Scalar p) ∧ s = ps.flatMap encode

/-- The length a lead byte announces. -/
def leadLength (c : UInt8) : Nat :=
  if 0xF0 ≤ c then 4 else if 0xE0 ≤ c then 3 else if 0xC0 ≤ c then 2 else 1

theorem Valid.nil : Valid [] := by
  refine ⟨[], ?_, List.flatMap_nil.symm⟩
  intro p hp
  cases hp

theorem Valid.append {a b : Bytes} (ha : Valid a) (hb : Valid b) : Valid (a ++ b) := by
  obtain ⟨ps, hps, rfl⟩ := ha
  obtain ⟨qs, hqs, rfl⟩ := hb
  refine ⟨ps ++ qs, ?_, List.flatMap_append.symm⟩
  intro p hp
  rcases List.mem_append.mp hp with hp | hp
  · exact hps p hp
  · exact hqs p hp

theorem Valid.encode {p : Nat} (hp : Scalar p) : Valid (encode p) := by
  refine ⟨[p], ?_, (List.flatMap_singleton _ p).symm⟩
  intro q hq
  rw [List.mem_singleton.mp hq]
  exact hp

theorem continued_append {s t : Bytes} {count code : Nat} (h : count ≤ s.length) :
    continued (s ++ t) count code = continued s count code := by
  induction count generalizing s code with
  | zero => rw [continued_zero, continued_zero]
  | succ n ih =>
    cases s with
    | nil => exact absurd h (Nat.not_succ_le_zero n)
    | cons c cs =>
      rw [List.cons_append, continued, continued]
      split
      · apply Eq.refl
      · exact ih (Nat.le_of_succ_le_succ h)

/-- A byte short of its character's end that is no tail. -/
theorem continued_broken {s t u : Bytes} {d : UInt8} {count code result : Nat} (hs : s = t ++ d :: u)
    (hlt : t.length < count) (hd : ¬ Tail d) : continued s count code ≠ some (some result) := by
  induction t generalizing s count code with
  | nil =>
    obtain ⟨n, rfl⟩ := Nat.exists_eq_add_one.mpr (Nat.zero_lt_of_lt hlt)
    rw [hs, List.nil_append, continued]
    split
    · rintro ⟨⟩
    next htail => exact absurd (not_not.mp htail) hd
  | cons c t ih =>
    obtain ⟨n, rfl⟩ := Nat.exists_eq_add_one.mpr (Nat.zero_lt_of_lt hlt)
    rw [hs, List.cons_append, continued]
    split
    · rintro ⟨⟩
    · exact ih (Eq.refl _) (Nat.lt_of_succ_lt_succ hlt)

theorem validLength_cons {c : UInt8} {s : Bytes} {count code minimum : Nat}
    (hc : ¬ c.toNat < 0x80) (hlead : lead c.toNat = some (count, code, minimum)) :
    validLength (c :: s) = if s.length < count then some 0 else
      match continued s count code with
      | none => none
      | some none => some 0
      | some (some code) =>
        if code < minimum ∨ 0x10FFFF < code ∨ Surrogate code then some 0 else some (count + 1) := by
  simp only [validLength, if_neg hc, hlead]
  all_goals rfl

/-- More text after a character's bytes, or after a byte that ends it early, changes nothing. -/
theorem validLength_append {c : UInt8} {y b : Bytes}
    (h : ∀ count code minimum, lead c.toNat = some (count, code, minimum) → y.length < count →
      y ++ b = [] ∨ ∃ t d u, y ++ b = t ++ d :: u ∧ t.length < count ∧ ¬ Tail d) :
    validLength (c :: (y ++ b)) = validLength (c :: y) := by
  by_cases hc : c.toNat < 0x80
  · simp only [validLength]
    rw [if_pos hc, if_pos hc]
  cases hlead : lead c.toNat with
  | none =>
    simp only [validLength]
    rw [if_neg hc, if_neg hc, hlead]
  | some l =>
    obtain ⟨count, code, minimum⟩ := l
    by_cases hlen : y.length < count
    · have hzero : validLength (c :: y) = some 0 := by
        rw [validLength_cons hc hlead, if_pos hlen]
      rw [hzero]
      rcases h count code minimum hlead hlen with hb | ⟨t, d, u, hs, hlt, hd⟩
      · obtain ⟨rfl, rfl⟩ := List.append_eq_nil_iff.mp hb
        exact hzero
      · have hne : validLength (c :: (y ++ b)) ≠ none := validLength_ne_none
        rw [validLength_cons hc hlead] at hne ⊢
        split
        · exact Eq.refl _
        next hlong =>
          rw [if_neg hlong] at hne
          split
          next hnone => exact absurd hnone (continued_ne_none code (Nat.le_of_not_lt hlong))
          · exact Eq.refl _
          next hsome => exact absurd hsome (continued_broken hs hlt hd)
    · rw [validLength_cons hc hlead, validLength_cons hc hlead, if_neg hlen,
        if_neg (by rw [List.length_append]; omega), continued_append (Nat.le_of_not_lt hlen)]

theorem validLength_le {c : UInt8} {s : Bytes} {n : Nat} (h : validLength (c :: s) = some n) :
    n ≤ s.length + 1 := by
  by_cases hn : n = 0
  · omega
  obtain ⟨p, tail, -, hs, hlen, -⟩ := validLength_sound h hn
  have := congrArg List.length hs
  rw [List.length_append, List.length_cons] at this
  omega

end Utf8

open Utf8

/-- The text with each byte that starts no valid character replaced by U+FFFD. -/
def utf8Sanitize : Bytes → Bytes
  | [] => []
  | c :: s =>
    match validLength (c :: s) with
    | some (n + 1) => (c :: s).take (n + 1) ++ utf8Sanitize (s.drop n)
    | _ => [0xEF, 0xBF, 0xBD] ++ utf8Sanitize s
termination_by s => s.length
decreasing_by
  · rw [List.length_drop, List.length_cons]
    omega
  · exact Nat.lt_succ_self _

/-- Back from the end past at most four tails, the last characters first. -/
def lastLead (size : Nat) : Bytes → Nat → Nat
  | [], _ => size
  | c :: cs, back =>
    if back = 4 then size
    else if ¬ Tail c then if leadLength c ≤ back + 1 then size else cs.length
    else lastLead size cs (back + 1)

/-- The longest part of the text that ends on a complete character. -/
def utf8Complete (bytes : Bytes) : Nat := lastLead bytes.length bytes.reverse 0

/-- The piece a token's text gives with what is pending, and what is pending after it. -/
def emitPiece (pending bytes : Bytes) : Bytes × Bytes :=
  let pending := pending ++ bytes
  let whole := utf8Complete pending
  (utf8Sanitize (pending.take whole), pending.drop whole)

/-- The pieces of tokens' texts, and what is pending at the end. -/
def emitPieces : Bytes → List Bytes → List Bytes × Bytes
  | pending, [] => ([], pending)
  | pending, bytes :: texts =>
    let (piece, pending) := emitPiece pending bytes
    let (pieces, pending) := emitPieces pending texts
    (piece :: pieces, pending)

/-- No character begins in one part and goes on in the other. -/
def Apart (a b : Bytes) : Prop :=
  ∀ x c y, a = x ++ c :: y → validLength (c :: (y ++ b)) = validLength (c :: y)

theorem Apart.tail {a b x y : Bytes} (h : Apart a b) (ha : a = x ++ y) : Apart y b := by
  intro x' c y' hy
  apply h (x ++ x')
  rw [ha, hy, List.append_assoc]

theorem utf8Sanitize_valid {c : UInt8} {s : Bytes} {n : Nat}
    (h : validLength (c :: s) = some (n + 1)) :
    utf8Sanitize (c :: s) = c :: s.take n ++ utf8Sanitize (s.drop n) := by
  rw [utf8Sanitize, h]
  dsimp only
  rw [List.take_succ_cons]

theorem utf8Sanitize_bad {c : UInt8} {s : Bytes}
    (h : ∀ n, validLength (c :: s) = some (n + 1) → False) :
    utf8Sanitize (c :: s) = [0xEF, 0xBF, 0xBD] ++ utf8Sanitize s := by
  rw [utf8Sanitize]
  split
  next n hn => exact absurd hn (h n)
  · apply Eq.refl

theorem utf8Sanitize_append {a b : Bytes} (h : Apart a b) :
    utf8Sanitize (a ++ b) = utf8Sanitize a ++ utf8Sanitize b := by
  induction a using utf8Sanitize.induct with
  | case1 =>
    rw [utf8Sanitize]
    apply Eq.refl
  | case2 c s n hlen ih =>
    have hle := validLength_le hlen
    have hlong := h [] c s (List.nil_append _).symm
    have hs : c :: s = (c :: s.take n) ++ s.drop n := by
      rw [List.cons_append, List.take_append_drop]
    rw [List.cons_append, utf8Sanitize_valid hlen, utf8Sanitize_valid (hlong.trans hlen),
      List.take_append_of_le_length (by omega), List.drop_append_of_le_length (by omega),
      ih (h.tail hs), List.append_assoc]
  | case3 c s hlen ih =>
    have hlong := h [] c s (List.nil_append _).symm
    have hs : c :: s = [c] ++ s := by rw [List.singleton_append]
    have hbad : ∀ n, validLength (c :: (s ++ b)) = some (n + 1) → False := by
      intro n hn
      exact hlen n (hlong.symm.trans hn)
    rw [List.cons_append, utf8Sanitize_bad hlen, utf8Sanitize_bad hbad, ih (h.tail hs),
      List.append_assoc]

theorem utf8Sanitize_wellFormed (s : Bytes) : Valid (utf8Sanitize s) := by
  induction s using utf8Sanitize.induct with
  | case1 =>
    rw [utf8Sanitize]
    exact .nil
  | case2 c s n hlen ih =>
    obtain ⟨p, tail, hp, hs, hplen, -⟩ := validLength_sound hlen (Nat.succ_ne_zero n)
    have htake : c :: s.take n = encode p := by
      rw [← List.take_succ_cons, hs, List.take_append_of_le_length (by omega),
        List.take_of_length_le (by omega)]
    rw [utf8Sanitize_valid hlen, htake]
    exact (Valid.encode hp).append ih
  | case3 c s hlen ih =>
    have hp : Scalar 0xFFFD := ⟨by decide, by decide⟩
    have henc : encode 0xFFFD = [0xEF, 0xBF, 0xBD] := by decide
    rw [utf8Sanitize_bad hlen, ← henc]
    exact (Valid.encode hp).append ih

/-- Where a character may be cut: its last lead byte has all it announces, or it is at the cut. -/
inductive Cut (s : Bytes) : Nat → Prop
  | tails : (∀ c ∈ s, Tail c) → Cut s s.length
  | long {x ts} : s = x ++ ts → ts.length = 4 → (∀ c ∈ ts, Tail c) → Cut s s.length
  | whole {x c ts} : s = x ++ c :: ts → ¬ Tail c → (∀ d ∈ ts, Tail d) → leadLength c ≤ ts.length + 1 →
      Cut s s.length
  | short {x c ts} : s = x ++ c :: ts → ¬ Tail c → ts.length + 1 < leadLength c → Cut s x.length

theorem lastLead_cut (rev ts : Bytes) (hts : ∀ c ∈ ts, Tail c) (hlen : ts.length ≤ 4) :
    Cut (rev.reverse ++ ts) (lastLead (rev.length + ts.length) rev ts.length) := by
  induction rev generalizing ts with
  | nil =>
    rw [lastLead, List.length_nil, Nat.zero_add]
    exact .tails hts
  | cons c cs ih =>
    have hsize : (c :: cs).length + ts.length = ((c :: cs).reverse ++ ts).length := by
      rw [List.length_append, List.length_reverse]
    have hs : (c :: cs).reverse ++ ts = cs.reverse ++ c :: ts := by
      rw [List.reverse_cons, List.append_assoc, List.singleton_append]
    rw [lastLead]
    split
    next hfour =>
      rw [hsize]
      exact .long (x := (c :: cs).reverse) (Eq.refl _) hfour hts
    next hfour =>
      split
      next hlead =>
        split
        next hle =>
          rw [hsize]
          exact .whole hs hlead hts hle
        next hle =>
          rw [← List.length_reverse]
          exact .short hs hlead (Nat.not_le.mp hle)
      next htail =>
        have hcons : ∀ d ∈ c :: ts, Tail d := by
          intro d hd
          rcases List.mem_cons.mp hd with rfl | hd
          · exact not_not.mp htail
          · exact hts d hd
        have := ih (c :: ts) hcons (by rw [List.length_cons]; omega)
        rw [hs, List.length_cons, Nat.add_right_comm, Nat.add_assoc]
        exact this

theorem utf8Complete_cut (s : Bytes) : Cut s (utf8Complete s) := by
  have h := lastLead_cut s.reverse [] (fun c hc => absurd hc List.not_mem_nil) (Nat.zero_le 4)
  rw [List.reverse_reverse, List.append_nil, List.length_reverse] at h
  exact h

theorem lead_not_tail {c : UInt8} {count code minimum : Nat}
    (h : lead c.toNat = some (count, code, minimum)) :
    ¬ Tail c ∧ leadLength c = count + 1 ∧ count ≤ 3 := by
  have hlead := lead_some h
  refine ⟨?_, ?_, by omega⟩
  · rw [Tail, tail_iff _ c.toNat_lt]
    omega
  · unfold leadLength
    simp only [UInt8.le_iff_toNat_le]
    show (if 0xF0 ≤ c.toNat then 4 else if 0xE0 ≤ c.toNat then 3 else
      if 0xC0 ≤ c.toNat then 2 else 1) = count + 1
    rcases hlead with ⟨rfl, -, -, hlo, hhi⟩ | ⟨rfl, -, -, hlo, hhi⟩ | ⟨rfl, -, -, hlo, hhi⟩
    · rw [if_neg (by omega), if_neg (by omega), if_pos (by omega)]
    · rw [if_neg (by omega), if_pos (by omega)]
    · rw [if_pos (by omega)]

/-- Nothing that comes after a cut changes what is before it. -/
theorem Cut.apart {s b : Bytes} {n : Nat} (h : Cut s n) : Apart (s.take n) (s.drop n ++ b) := by
  intro x c y hx
  apply validLength_append
  intro count code minimum hlead hlen
  obtain ⟨hc, hlength, hthree⟩ := lead_not_tail hlead
  have hmem : c ∈ s.take n := by
    rw [hx]
    exact List.mem_append_right _ List.mem_cons_self
  cases h with
  | tails htails =>
    rw [List.take_length] at hmem
    exact absurd (htails c hmem) hc
  | @long z ts hs hfour htails =>
    rw [List.take_length, hs] at hx
    rcases List.append_eq_append_iff.mp hx with ⟨a, -, hts⟩ | ⟨a, -, hts⟩
    · refine absurd (htails c ?_) hc
      rw [hts]
      exact List.mem_append_right _ List.mem_cons_self
    · have := congrArg List.length hts
      rw [List.length_append, List.length_cons] at this
      omega
  | @whole z d ts hs hd htails hle =>
    have hsame : c = d → y = ts → False := by
      rintro rfl rfl
      omega
    rw [List.take_length, hs] at hx
    rcases List.append_eq_append_iff.mp hx with ⟨a, -, hts⟩ | ⟨a, -, hts⟩
    · cases a with
      | nil =>
        obtain ⟨hdc, hty⟩ := List.cons.inj hts
        exact (hsame hdc.symm hty.symm).elim
      | cons e a =>
        obtain ⟨-, hts⟩ := List.cons.inj hts
        refine absurd (htails c ?_) hc
        rw [hts]
        exact List.mem_append_right _ List.mem_cons_self
    · cases a with
      | nil =>
        obtain ⟨hcd, hyt⟩ := List.cons.inj hts
        exact (hsame hcd hyt).elim
      | cons e a =>
        obtain ⟨-, hy⟩ := List.cons.inj hts
        rw [List.append_eq] at hy
        refine .inr ⟨a, d, ts ++ (s.drop s.length ++ b), ?_, ?_, hd⟩
        · rw [hy, List.append_assoc, List.cons_append]
        · rw [hy, List.length_append] at hlen
          omega
  | @short z d ts hs hd hlt =>
    rw [hs, List.drop_left]
    exact .inr ⟨y, d, ts ++ b, by rw [List.cons_append], hlen, hd⟩

theorem Cut.held {s : Bytes} {n : Nat} (h : Cut s n) : (s.drop n).length ≤ 3 := by
  have hfour : ∀ c, leadLength c ≤ 4 := by
    intro c
    unfold leadLength
    split
    · omega
    · split
      · omega
      · split <;> omega
  cases h with
  | tails _ => simp
  | long _ _ _ => simp
  | whole _ _ _ _ => simp
  | @short z d ts hs hd hlt =>
    have := hfour d
    rw [hs, List.drop_left, List.length_cons]
    omega

/-- What pieces emitted from a state are, with what the text goes on with. -/
theorem emitPieces_spec (texts : List Bytes) (pending : Bytes) (hheld : pending.length ≤ 3) :
    (emitPieces pending texts).1.flatten ++ utf8Sanitize (emitPieces pending texts).2 =
        utf8Sanitize (pending ++ texts.flatten) ∧
      (∀ piece ∈ (emitPieces pending texts).1, Valid piece) ∧
      (emitPieces pending texts).2.length ≤ 3 := by
  induction texts generalizing pending with
  | nil =>
    rw [emitPieces, List.flatten_nil, List.append_nil]
    refine ⟨List.nil_append _, ?_, hheld⟩
    intro piece hp
    cases hp
  | cons bytes texts ih =>
    have hcut := utf8Complete_cut (pending ++ bytes)
    obtain ⟨htext, hvalid, hlen⟩ := ih (emitPiece pending bytes).2 hcut.held
    rw [emitPieces]
    refine ⟨?_, ?_, hlen⟩
    · show ((emitPiece pending bytes).1 :: (emitPieces (emitPiece pending bytes).2 texts).1).flatten
        ++ utf8Sanitize (emitPieces (emitPiece pending bytes).2 texts).2 = _
      rw [List.flatten_cons, List.append_assoc, htext, List.flatten_cons]
      show utf8Sanitize ((pending ++ bytes).take (utf8Complete (pending ++ bytes))) ++
        utf8Sanitize ((pending ++ bytes).drop (utf8Complete (pending ++ bytes)) ++ texts.flatten) = _
      rw [← utf8Sanitize_append hcut.apart, ← List.append_assoc, List.take_append_drop,
        List.append_assoc]
    · intro piece hp
      rcases List.mem_cons.mp hp with rfl | hp
      · exact utf8Sanitize_wellFormed _
      · exact hvalid piece hp

/-- A reply's pieces and its repaired rest are the repaired bytes of all its tokens, every piece is
well formed, and at most three bytes are held back. -/
theorem reply_text_streamed (texts : List Bytes) :
    (emitPieces [] texts).1.flatten ++ utf8Sanitize (emitPieces [] texts).2 =
        utf8Sanitize texts.flatten ∧
      (∀ piece ∈ (emitPieces [] texts).1, Valid piece) ∧
      (emitPieces [] texts).2.length ≤ 3 :=
  emitPieces_spec texts [] (Nat.zero_le 3)

namespace Utf8

theorem encode_ascii {p : Nat} (h : p < 0x80) : encode p = [UInt8.ofNat p] := if_pos h

/-- Past U+007F no byte of a character is below 0x80. -/
theorem encode_high {p : Nat} (hp : p ≤ 0x10FFFF) (hhigh : 0x80 ≤ p) {c : UInt8}
    (hc : c ∈ encode p) : ¬ c < 0x80 := by
  have hmem := List.mem_map_of_mem (f := UInt8.toNat) hc
  have hle : 0x80 ≤ c.toNat := by
    rw [encode_eq p hp, if_neg (by omega)] at hmem
    split at hmem
    next =>
      simp only [List.mem_cons, List.not_mem_nil, or_false] at hmem
      omega
    next =>
      split at hmem
      next =>
        simp only [List.mem_cons, List.not_mem_nil, or_false] at hmem
        omega
      next =>
        simp only [List.mem_cons, List.not_mem_nil, or_false] at hmem
        omega
  exact UInt8.not_lt.mpr (UInt8.le_iff_toNat_le.mpr hle)

theorem encode_toNat {c : UInt8} (hc : c < 0x80) : encode c.toNat = [c] := by
  rw [encode_ascii (UInt8.lt_iff_toNat_lt.mp hc), UInt8.ofNat_toNat]

theorem Valid.cons {c : UInt8} {s : Bytes} (hc : c < 0x80) (h : Valid s) : Valid (c :: s) := by
  have hlt : c.toNat < 0x80 := UInt8.lt_iff_toNat_lt.mp hc
  have hscalar : Scalar c.toNat := ⟨by omega, fun hs => by have := hs.1; omega⟩
  have := (Valid.encode hscalar).append h
  rwa [encode_toNat hc] at this

/-- Text is cut whole before and after a byte below 0x80. -/
theorem Valid.cut {a b : Bytes} {c : UInt8} (hc : c < 0x80) (h : Valid (a ++ c :: b)) :
    Valid a ∧ Valid b := by
  obtain ⟨ps, hps, h⟩ := h
  induction ps generalizing a with
  | nil =>
    rw [List.flatMap_nil] at h
    cases (List.append_eq_nil_iff.mp h).2
  | cons p ps ih =>
    have hp := hps p List.mem_cons_self
    have hrest : ∀ q ∈ ps, Scalar q := fun q hq => hps q (List.mem_cons_of_mem p hq)
    rw [List.flatMap_cons] at h
    rcases List.append_eq_append_iff.mp h with ⟨m, he, hm⟩ | ⟨m, rfl, hm⟩
    · cases m with
      | nil =>
        rw [List.append_nil] at he
        rw [← he]
        exact ⟨.encode hp, (ih (a := []) hrest hm).2⟩
      | cons d m =>
        obtain ⟨rfl, rfl⟩ := List.cons.inj hm
        have hlow : p < 0x80 := by
          by_contra hhigh
          refine encode_high hp.1 (by omega) ?_ hc
          rw [he]
          exact List.mem_append_right a List.mem_cons_self
        rw [encode_ascii hlow] at he
        cases a with
        | nil =>
          obtain ⟨-, rfl⟩ := List.cons.inj he
          exact ⟨.nil, ps, hrest, Eq.refl _⟩
        | cons x a => cases (List.append_eq_nil_iff.mp (List.cons.inj he).2.symm).2
    · obtain ⟨hvm, hvb⟩ := ih hrest hm.symm
      exact ⟨(Valid.encode hp).append hvm, hvb⟩

theorem Valid.tail {c : UInt8} {s : Bytes} (hc : c < 0x80) (h : Valid (c :: s)) : Valid s :=
  (Valid.cut (a := []) hc h).2

def isAscii (s : Bytes) : Bool := s.all (· < 0x80)

theorem isAscii_iff {s : Bytes} : isAscii s = true ↔ ∀ c ∈ s, c < 0x80 := by
  unfold isAscii
  simp only [List.all_eq_true, decide_eq_true_eq]

theorem isAscii_cons {c : UInt8} {s : Bytes} :
    isAscii (c :: s) = true ↔ c < 0x80 ∧ isAscii s = true := by
  rw [isAscii_iff, isAscii_iff, List.forall_mem_cons]

theorem isAscii_append {s t : Bytes} :
    isAscii (s ++ t) = true ↔ isAscii s = true ∧ isAscii t = true := by
  rw [isAscii_iff, isAscii_iff, isAscii_iff, List.forall_mem_append]

theorem Valid.of_ascii {s : Bytes} (h : isAscii s = true) : Valid s := by
  induction s with
  | nil => exact .nil
  | cons c s ih =>
    obtain ⟨hc, hs⟩ := isAscii_cons.mp h
    exact .cons hc (ih hs)

/-- What follows text below 0x80. -/
theorem Valid.drop {w s : Bytes} (hw : isAscii w = true) (h : Valid (w ++ s)) : Valid s := by
  induction w with
  | nil => exact h
  | cons c w ih =>
    obtain ⟨hc, hw⟩ := isAscii_cons.mp hw
    exact ih hw (h.tail hc)

/-- Text around a tag whose bytes are below 0x80. -/
theorem Valid.around {a tag b : Bytes} (ht : tag ≠ []) (hw : isAscii tag = true)
    (h : Valid (a ++ tag ++ b)) : Valid a ∧ Valid b := by
  obtain ⟨c, tag, rfl⟩ := List.exists_cons_of_ne_nil ht
  obtain ⟨hc, hw⟩ := isAscii_cons.mp hw
  rw [List.append_assoc, List.cons_append] at h
  obtain ⟨ha, hrest⟩ := h.cut hc
  exact ⟨ha, hrest.drop hw⟩

/-- Dropped up to a byte below 0x80, it stays whole. -/
theorem Valid.dropWhile {x s : Bytes} {c : UInt8} (hc : c < 0x80) (h : Valid (x ++ s)) :
    Valid (s.dropWhile (· != c)) := by
  cases hd : s.dropWhile (· != c) with
  | nil => exact .nil
  | cons d t =>
    have heq : d = c := by
      have hhead := List.head?_dropWhile_not (· != c) s
      rw [hd] at hhead
      simpa using hhead
    rw [heq] at hd ⊢
    have hs := List.takeWhile_append_dropWhile (p := (· != c)) (l := s)
    rw [hd] at hs
    rw [← hs, ← List.append_assoc] at h
    exact .cons hc (h.cut hc).2

end Utf8

end Llmx
