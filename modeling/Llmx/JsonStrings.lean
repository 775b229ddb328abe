import Llmx.JsonGrammar

namespace Llmx

namespace Json

section Reading

variable {α β : Type}

/-- A read ends in a result of the condition, or raises without a byte read past the end. -/
def Reads (P : α → Prop) : Except Error α → Prop
  | .ok a => P a
  | .error e => e ≠ .pastEnd ∧ e ≠ .fuel

theorem Reads.mono {P Q : α → Prop} {r : Except Error α} (h : Reads P r) (hpq : ∀ a, P a → Q a) :
    Reads Q r := by
  cases r with
  | ok a => exact hpq a h
  | error e => exact h

theorem Reads.bind {P : α → Prop} {Q : β → Prop} {r : Except Error α} {f : α → Except Error β}
    (h : Reads P r) (hf : ∀ a, P a → Reads Q (f a)) : Reads Q (r >>= f) := by
  cases r with
  | ok a => exact hf a h
  | error e => exact h

theorem Reads.of_ok {P : α → Prop} {r : Except Error α} {a : α} (h : Reads P r) (hr : r = .ok a) :
    P a := by
  rw [hr] at h
  exact h

end Reading

theorem ws_spaces (s : Bytes) : ∃ w, Ws w ∧ s = w ++ ws s := by
  refine ⟨s.takeWhile isSpace, fun c hc => List.mem_takeWhile_imp hc, ?_⟩
  exact List.takeWhile_append_dropWhile.symm

theorem Ws.nil : Ws [] := by
  intro c hc
  cases hc

theorem Ws.append {a b : Bytes} (ha : Ws a) (hb : Ws b) : Ws (a ++ b) := by
  intro c hc
  rcases List.mem_append.mp hc with hc | hc
  · exact ha c hc
  · exact hb c hc

theorem ws_append {a s : Bytes} (ha : Ws a) : ws (a ++ s) = ws s :=
  List.dropWhile_append_of_pos ha

theorem ws_cons {c : UInt8} {s : Bytes} (hc : isSpace c = false) : ws (c :: s) = c :: s := by
  rw [ws, List.dropWhile_cons_of_neg (by rw [hc]; decide)]

theorem ws_length_le (s : Bytes) : (ws s).length ≤ s.length :=
  (List.dropWhile_suffix isSpace).length_le

theorem peek_reads (s : Bytes) : Reads (fun c => ∃ r, s = c :: r) (peek s) := by
  cases s with
  | nil => exact ⟨by decide, by decide⟩
  | cons c r => exact ⟨r, rfl⟩

theorem expect_reads (c : UInt8) (s : Bytes) :
    Reads (fun r => ∃ w, Ws w ∧ s = w ++ c :: r) (expect c s) := by
  obtain ⟨w, hw, hs⟩ := ws_spaces s
  unfold expect
  split
  · exact ⟨by decide, by decide⟩
  next d r heq =>
    split
    next hd =>
      subst hd
      rw [heq] at hs
      exact ⟨w, hw, hs⟩
    · exact ⟨by decide, by decide⟩

theorem expect_complete {c : UInt8} {w r : Bytes} (hw : Ws w) (hc : isSpace c = false) :
    expect c (w ++ c :: r) = .ok r := by
  unfold expect
  rw [ws_append hw, ws_cons hc]
  exact if_pos rfl

theorem hexDigit_lt {c : UInt8} {x : Nat} (h : hexDigit c = some x) : x < 16 := by
  unfold hexDigit at h
  simp only [UInt8.le_iff_toNat_le] at h
  split at h
  next hc =>
    have hhi : c.toNat ≤ 57 := hc.2
    cases h
    omega
  · split at h
    next hc =>
      have hhi : c.toNat ≤ 102 := hc.2
      cases h
      omega
    · split at h
      next hc =>
        have hhi : c.toNat ≤ 70 := hc.2
        cases h
        omega
      · cases h

theorem or_digit {value x : Nat} (hx : x < 16) : (value <<< 4) ||| x = value * 16 + x := by
  have hlt : x < 2 ^ 4 := hx
  rw [Nat.shiftLeft_eq, Nat.mul_comm, ← Nat.two_pow_add_eq_or_of_lt hlt]

theorem hexDigits_cons {n value : Nat} {c : UInt8} {x : Nat} {s : Bytes}
    (h : hexDigit c = some x) :
    hexDigits (n + 1) value (c :: s) = hexDigits n (value * 16 + x) s := by
  rw [hexDigits, h]
  show hexDigits n ((value <<< 4) ||| x) s = _
  rw [or_digit (hexDigit_lt h)]

theorem hexDigits_reads (value : Nat) {n : Nat} {s : Bytes} (hn : n + 1 ≤ s.length) :
    ∃ c r, s = c :: r ∧ n ≤ r.length ∧
      (hexDigits (n + 1) value s = .error .invalidUnicodeEscape ∨
        ∃ x, hexDigit c = some x ∧
          hexDigits (n + 1) value s = hexDigits n (value * 16 + x) r) := by
  cases s with
  | nil => exact absurd hn (Nat.not_succ_le_zero n)
  | cons c r =>
    refine ⟨c, r, rfl, Nat.le_of_succ_le_succ hn, ?_⟩
    cases hx : hexDigit c with
    | none =>
      rw [hexDigits, hx]
      exact .inl rfl
    | some x => exact .inr ⟨x, rfl, hexDigits_cons hx⟩

theorem hex4_reads (s : Bytes) :
    Reads (fun cr => ∃ h, IsHex4 h cr.1 ∧ s = h ++ cr.2) (hex4 s) := by
  unfold hex4
  split
  · exact ⟨by decide, by decide⟩
  next hlen =>
    have hbad : Reads (fun cr : Nat × Bytes => ∃ h, IsHex4 h cr.1 ∧ s = h ++ cr.2)
        (.error .invalidUnicodeEscape) := ⟨by decide, by decide⟩
    obtain ⟨a, r, rfl, hr, he | ⟨x, hx, he⟩⟩ :=
      hexDigits_reads 0 (Nat.le_of_not_lt hlen)
    · rwa [he]
    obtain ⟨b, r, rfl, hr, he' | ⟨y, hy, he'⟩⟩ := hexDigits_reads (0 * 16 + x) hr
    · rwa [he, he']
    obtain ⟨c, r, rfl, hr, he'' | ⟨z, hz, he''⟩⟩ :=
      hexDigits_reads ((0 * 16 + x) * 16 + y) hr
    · rwa [he, he', he'']
    obtain ⟨d, r, rfl, hr, hd | ⟨w, hw, hd⟩⟩ :=
      hexDigits_reads (((0 * 16 + x) * 16 + y) * 16 + z) hr
    · rwa [he, he', he'', hd]
    rw [he, he', he'', hd]
    refine ⟨[a, b, c, d], ⟨a, b, c, d, x, y, z, w, rfl, hx, hy, hz, hw, ?_⟩, rfl⟩
    dsimp only
    omega

theorem hex4_complete {h r : Bytes} {code : Nat} (hh : IsHex4 h code) :
    hex4 (h ++ r) = .ok (code, r) := by
  obtain ⟨a, b, c, d, x, y, z, w, rfl, hx, hy, hz, hw, rfl⟩ := hh
  have hlen : ¬ ([a, b, c, d] ++ r).length < 4 := by
    simp only [List.cons_append, List.nil_append, List.length_cons]
    omega
  rw [hex4, if_neg hlen]
  show hexDigits 4 0 (a :: b :: c :: d :: r) = _
  rw [hexDigits_cons hx, hexDigits_cons hy, hexDigits_cons hz, hexDigits_cons hw, hexDigits,
    Nat.zero_mul, Nat.zero_add]

theorem pair_code {high low : Nat} (hhi : 0xD800 ≤ high) (hlo : 0xDC00 ≤ low) :
    0x10000 + ((high - 0xD800) <<< 10) + low - 0xDC00 =
      0x10000 + (high - 0xD800) * 0x400 + (low - 0xDC00) := by
  rw [Nat.shiftLeft_eq]
  omega

/-- An escape read makes the string's text and the bytes it stands for longer. -/
theorem unicodeEscape_reads (s : Bytes) :
    Reads (fun cr => ∃ u, s = u ++ cr.2 ∧ ∀ t d, Chars t d →
      Chars ('\\'.toUInt8 :: 'u'.toUInt8 :: u ++ t) (Utf8.encode cr.1 ++ d)) (unicodeEscape s) := by
  unfold unicodeEscape
  refine (hex4_reads s).bind ?_
  rintro ⟨code, s'⟩ ⟨h, hh, rfl⟩
  dsimp only at hh ⊢
  split
  next hcode =>
    split
    next b u s'' =>
      split
      · exact ⟨by decide, by decide⟩
      next hbu =>
        obtain ⟨hb, hu⟩ := not_or.mp hbu
        rw [not_not.mp hb, not_not.mp hu]
        refine (hex4_reads s'').bind ?_
        rintro ⟨low, s3⟩ ⟨l, hl, rfl⟩
        dsimp only at hl ⊢
        split
        · exact ⟨by decide, by decide⟩
        next hlow =>
          refine ⟨h ++ '\\'.toUInt8 :: 'u'.toUInt8 :: l, ?_, ?_⟩
          · simp only [List.append_assoc, List.cons_append]
          intro t d hc
          rw [pair_code hcode.1 (by omega)]
          have := Chars.pair hh hcode.1 hcode.2 hl (by omega) (by omega) hc
          simpa only [List.append_assoc, List.cons_append] using this
    · exact ⟨by decide, by decide⟩
  next hcode =>
    split
    · exact ⟨by decide, by decide⟩
    next hlow =>
      refine ⟨h, rfl, fun t d hc => ?_⟩
      refine Chars.unicode hh ?_ hc
      rintro ⟨hlo, hhi⟩
      omega

theorem unicodeEscape_single {h r : Bytes} {p : Nat} (hh : IsHex4 h p)
    (hp : ¬ Utf8.Surrogate p) : unicodeEscape (h ++ r) = .ok (p, r) := by
  have hsur : ¬ (0xD800 ≤ p ∧ p ≤ 0xDFFF) := hp
  unfold unicodeEscape
  rw [hex4_complete hh]
  show (if _ then _ else _) = _
  rw [if_neg (by omega), if_neg (by omega)]

theorem unicodeEscape_pair {h l r : Bytes} {high low : Nat} (hh : IsHex4 h high)
    (hhi : 0xD800 ≤ high) (hhi' : high ≤ 0xDBFF) (hl : IsHex4 l low) (hlo : 0xDC00 ≤ low)
    (hlo' : low ≤ 0xDFFF) :
    unicodeEscape (h ++ '\\'.toUInt8 :: 'u'.toUInt8 :: l ++ r) =
      .ok (0x10000 + (high - 0xD800) * 0x400 + (low - 0xDC00), r) := by
  unfold unicodeEscape
  rw [List.append_assoc, hex4_complete hh]
  show (if _ then _ else _) = _
  rw [if_pos ⟨hhi, hhi'⟩]
  show (if _ then _ else _) = _
  rw [if_neg (by simp), List.append_eq, hex4_complete hl]
  show (if _ then _ else _) = _
  rw [if_neg (by omega), pair_code hhi hlo]

theorem prepend_reads {P Q : Bytes × Bytes → Prop} {out : Bytes}
    {rest : Except Error (Bytes × Bytes)} (h : Reads P rest)
    (hpq : ∀ str s, P (str, s) → Q (out ++ str, s)) : Reads Q (prepend out rest) := by
  cases rest with
  | ok a => exact hpq a.1 a.2 h
  | error e => exact h

theorem stringBody_reads (n : Nat) (s : Bytes) (hn : s.length < n) :
    Reads (fun cr => ∃ body, Chars body cr.1 ∧ s = body ++ '"'.toUInt8 :: cr.2)
      (stringBody n s) := by
  induction n generalizing s with
  | zero => exact absurd hn (Nat.not_lt_zero _)
  | succ n ih =>
    cases s with
    | nil => exact ⟨by decide, by decide⟩
    | cons c s =>
      have hs : s.length < n := Nat.lt_of_succ_lt_succ hn
      rw [stringBody.eq_def]
      dsimp only
      split
      next hq =>
        subst hq
        exact ⟨[], .nil, rfl⟩
      next hq =>
        split
        next hb =>
          subst hb
          cases s with
          | nil => exact ⟨by decide, by decide⟩
          | cons e s =>
            have hs' : s.length < n := (Nat.lt_succ_self _).trans hs
            dsimp only
            split
            next b he =>
              refine prepend_reads (ih s hs') ?_
              rintro str r ⟨body, hbody, rfl⟩
              exact ⟨_, .short he hbody, rfl⟩
            next he =>
              split
              next hu =>
                subst hu
                refine (unicodeEscape_reads s).bind ?_
                rintro ⟨code, s'⟩ ⟨u, rfl, hu⟩
                dsimp only at hu hs' ⊢
                rw [List.length_append] at hs'
                refine prepend_reads (ih s' (by omega)) ?_
                rintro str r ⟨body, hbody, rfl⟩
                refine ⟨_, hu body str hbody, ?_⟩
                simp only [List.append_assoc, List.cons_append]
              · exact ⟨by decide, by decide⟩
        next hb =>
          split
          · exact ⟨by decide, by decide⟩
          next hcontrol =>
            have hcontrol : 0x20 ≤ c := UInt8.not_lt.mp hcontrol
            split
            next hhigh =>
              split
              next hnone => exact absurd hnone Utf8.validLength_ne_none
              · exact ⟨by decide, by decide⟩
              next length hzero hlen =>
                obtain ⟨p, tail, hp, heq, hplen, hp80⟩ :=
                  Utf8.validLength_sound hlen (fun h => hzero (by rw [← h]))
                have hlt : (c :: s).length < n + 1 := hn
                rw [heq, ← hplen, List.take_left, List.drop_left]
                rw [heq, List.length_append] at hlt
                obtain ⟨d, ds, hd, -⟩ := Utf8.encode_head hp.1 (hp80 hhigh)
                rw [hd, List.length_cons] at hlt
                refine prepend_reads (ih tail (by omega)) ?_
                rintro str r ⟨body, hbody, rfl⟩
                refine ⟨_, .utf8 hp (hp80 hhigh) hbody, ?_⟩
                simp only [List.append_assoc]
            next hhigh =>
              refine prepend_reads (ih s hs) ?_
              rintro str r ⟨body, hbody, rfl⟩
              exact ⟨_, .plain hcontrol (UInt8.not_le.mp hhigh) hq hb hbody, rfl⟩

theorem stringBody_complete {t d : Bytes} (h : Chars t d) (n : Nat) (r : Bytes)
    (hn : t.length < n) : stringBody n (t ++ '"'.toUInt8 :: r) = .ok (d, r) := by
  induction h generalizing n with
  | nil =>
    obtain ⟨n, rfl⟩ := Nat.exists_eq_add_one.mpr hn
    exact if_pos rfl
  | @plain c t d hlo hhi hq hb hc ih =>
    obtain ⟨n, rfl⟩ := Nat.exists_eq_add_one.mpr (Nat.zero_lt_of_lt hn)
    rw [List.cons_append, stringBody.eq_def]
    dsimp only
    rw [if_neg hq, if_neg hb, if_neg (UInt8.not_lt.mpr hlo),
      if_neg (UInt8.not_le.mpr hhi), ih n (Nat.lt_of_succ_lt_succ hn)]
    rfl
  | @utf8 p t d hp hhi hc ih =>
    obtain ⟨n, rfl⟩ := Nat.exists_eq_add_one.mpr (Nat.zero_lt_of_lt hn)
    obtain ⟨c, cs, he, hc80⟩ := Utf8.encode_head hp.1 hhi
    have hvalid := Utf8.validLength_encode hp (t ++ '"'.toUInt8 :: r)
    have hdrop : (Utf8.encode p ++ (t ++ '"'.toUInt8 :: r)).drop (Utf8.encode p).length =
        t ++ '"'.toUInt8 :: r := List.drop_left
    have htake : (Utf8.encode p ++ (t ++ '"'.toUInt8 :: r)).take (Utf8.encode p).length =
        Utf8.encode p := List.take_left
    have hlen : (Utf8.encode p).length = cs.length + 1 := by rw [he, List.length_cons]
    rw [List.length_append, hlen] at hn
    have hne : ∀ b : UInt8, b.toNat < 0x80 → c ≠ b := by
      intro b hb hcb
      rw [hcb] at hc80
      omega
    rw [hlen, he, List.cons_append] at hvalid hdrop htake
    rw [List.append_assoc, he, List.cons_append, stringBody.eq_def]
    dsimp only
    rw [if_neg (hne _ (by decide)), if_neg (hne _ (by decide)), if_neg, if_pos, hvalid]
    · show prepend (List.take (cs.length + 1) _) (stringBody n (List.drop (cs.length + 1) _)) = _
      rw [htake, hdrop, ih n (by omega)]
      rfl
    · exact UInt8.le_iff_toNat_le.mpr hc80
    · rw [UInt8.lt_iff_toNat_lt]
      show ¬ c.toNat < 32
      omega
  | @short e b t d he hc ih =>
    obtain ⟨n, rfl⟩ := Nat.exists_eq_add_one.mpr (Nat.zero_lt_of_lt hn)
    rw [List.length_cons, List.length_cons] at hn
    rw [List.cons_append, List.cons_append, stringBody.eq_def]
    dsimp only
    rw [if_neg (by decide), if_pos rfl, he]
    dsimp only
    rw [ih n (by omega)]
    rfl
  | @unicode h p t d hh hp hc ih =>
    obtain ⟨n, rfl⟩ := Nat.exists_eq_add_one.mpr (Nat.zero_lt_of_lt hn)
    rw [List.cons_append, List.cons_append, List.length_cons, List.length_cons,
      List.length_append] at hn
    rw [List.cons_append, List.cons_append, List.cons_append, List.cons_append,
      stringBody.eq_def, List.append_assoc]
    dsimp only
    rw [if_neg (by decide), if_pos rfl]
    show (unicodeEscape (h ++ (t ++ '"'.toUInt8 :: r)) >>= fun cr =>
      prepend (Utf8.encode cr.1) (stringBody n cr.2)) = _
    rw [unicodeEscape_single hh hp]
    show prepend (Utf8.encode p) (stringBody n (t ++ '"'.toUInt8 :: r)) = _
    rw [ih n (by omega)]
    rfl
  | @pair h l high low t d hh hhi hhi' hl hlo hlo' hc ih =>
    obtain ⟨n, rfl⟩ := Nat.exists_eq_add_one.mpr (Nat.zero_lt_of_lt hn)
    simp only [List.cons_append, List.length_cons, List.length_append] at hn
    have hcut : '\\'.toUInt8 :: 'u'.toUInt8 :: h ++ '\\'.toUInt8 :: 'u'.toUInt8 :: l ++ t ++
        '"'.toUInt8 :: r = '\\'.toUInt8 :: 'u'.toUInt8 ::
          (h ++ '\\'.toUInt8 :: 'u'.toUInt8 :: l ++ (t ++ '"'.toUInt8 :: r)) := by
      simp only [List.cons_append, List.append_assoc]
    rw [hcut, stringBody.eq_def]
    dsimp only
    rw [if_neg (by decide), if_pos rfl]
    show (unicodeEscape (h ++ '\\'.toUInt8 :: 'u'.toUInt8 :: l ++ (t ++ '"'.toUInt8 :: r)) >>=
      fun cr => prepend (Utf8.encode cr.1) (stringBody n cr.2)) = _
    rw [unicodeEscape_pair hh hhi hhi' hl hlo hlo']
    show prepend _ (stringBody n (t ++ '"'.toUInt8 :: r)) = _
    rw [ih n (by omega)]
    rfl

theorem parseString_reads (s : Bytes) :
    Reads (fun cr => ∃ w t, Ws w ∧ IsString t cr.1 ∧ s = w ++ t ++ cr.2) (parseString s) := by
  refine (expect_reads _ s).bind ?_
  rintro s' ⟨w, hw, rfl⟩
  refine (stringBody_reads _ s' (Nat.lt_succ_self _)).mono ?_
  rintro ⟨str, r⟩ ⟨body, hbody, rfl⟩
  refine ⟨w, _, hw, ⟨body, hbody, rfl⟩, ?_⟩
  simp only [List.append_assoc, List.cons_append, List.nil_append]

theorem parseString_complete {w t str r : Bytes} (hw : Ws w) (ht : IsString t str) :
    parseString (w ++ t ++ r) = .ok (str, r) := by
  obtain ⟨body, hbody, rfl⟩ := ht
  have hcut : w ++ ('"'.toUInt8 :: body ++ ['"'.toUInt8]) ++ r =
      w ++ '"'.toUInt8 :: (body ++ '"'.toUInt8 :: r) := by
    simp only [List.append_assoc, List.cons_append, List.nil_append]
  rw [hcut, parseString, expect_complete hw (by decide)]
  refine stringBody_complete hbody _ r ?_
  rw [List.length_append]
  omega

end Json

end Llmx
