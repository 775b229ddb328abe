import Llmx.JsonAccepts

namespace Llmx

namespace Json

theorem isSpace_cases {c : UInt8} (h : isSpace c = true) :
    c = ' '.toUInt8 ∨ c = '\t'.toUInt8 ∨ c = '\n'.toUInt8 ∨ c = '\r'.toUInt8 := by
  simpa only [isSpace, Bool.or_eq_true, beq_iff_eq, or_assoc] using h

theorem Stops.nil : Stops [] := by
  refine ⟨fun c hc => ?_, ?_, ?_, ?_⟩
  · cases hc
  · rintro ⟨⟩
  · rintro ⟨⟩
  · rintro ⟨⟩

theorem Stops.cons {c : UInt8} {r : Bytes} (hdigit : isDigit c = false) (hdot : c ≠ '.'.toUInt8)
    (he : c ≠ 'e'.toUInt8) (hE : c ≠ 'E'.toUInt8) : Stops (c :: r) :=
  ⟨.cons hdigit, fun h => hdot (Option.some.inj h), fun h => he (Option.some.inj h),
    fun h => hE (Option.some.inj h)⟩

theorem Stops.spaces {w r : Bytes} (hw : Ws w) (hr : Stops r) : Stops (w ++ r) := by
  cases w with
  | nil => exact hr
  | cons c w =>
    have hc := isSpace_cases (hw c List.mem_cons_self)
    rcases hc with rfl | rfl | rfl | rfl <;>
      exact .cons (by decide) (by decide) (by decide) (by decide)

/-- The characters a number may begin with. -/
theorem IsNumber.head {t int frac exp : Bytes} (h : IsNumber t int frac exp) :
    ∃ c r, t = c :: r ∧ (c = '-'.toUInt8 ∨ isDigit c = true) := by
  obtain ⟨sign, hsign, rfl⟩ := h.text
  rcases hsign with rfl | rfl
  · rcases h.int with rfl | ⟨⟨hne, hds⟩, -⟩
    · exact ⟨_, _, rfl, .inr (by decide)⟩
    · cases int with
      | nil => exact absurd rfl hne
      | cons d ds => exact ⟨d, _, rfl, .inr (hds d List.mem_cons_self)⟩
  · exact ⟨_, _, rfl, .inl rfl⟩

theorem lead_ne {c d : UInt8} (h : c = '-'.toUInt8 ∨ isDigit c = true) (hminus : d ≠ '-'.toUInt8)
    (hdigit : isDigit d = false) : c ≠ d := by
  rintro rfl
  rcases h with h | h
  · exact hminus h
  · rw [hdigit] at h
    cases h

theorem lead_space {c : UInt8} (h : c = '-'.toUInt8 ∨ isDigit c = true) : isSpace c = false := by
  apply eq_false_of_ne_true
  intro hc
  rcases isSpace_cases hc with rfl | rfl | rfl | rfl <;>
    exact lead_ne h (by decide) (by decide) rfl

variable {δ : Type} {conv : Conversion δ}

/-- A value's text begins with no whitespace, and with no closing bracket. -/
theorem IsValue.head {m : Nat} {t : Bytes} {v : Value δ} (h : IsValue conv m t v) :
    ∃ c r, t = c :: r ∧ isSpace c = Bool.false ∧ c ≠ ']'.toUInt8 := by
  cases h with
  | null => exact ⟨_, _, rfl, by decide, by decide⟩
  | true => exact ⟨_, _, rfl, by decide, by decide⟩
  | false => exact ⟨_, _, rfl, by decide, by decide⟩
  | number hnum _ =>
    obtain ⟨c, r, rfl, hc⟩ := hnum.head
    exact ⟨c, r, rfl, lead_space hc, lead_ne hc (by decide) (by decide)⟩
  | string hstr =>
    obtain ⟨body, -, rfl⟩ := hstr
    exact ⟨_, _, rfl, by decide, by decide⟩
  | emptyArray _ => exact ⟨_, _, rfl, by decide, by decide⟩
  | array _ => exact ⟨_, _, rfl, by decide, by decide⟩
  | emptyObject _ => exact ⟨_, _, rfl, by decide, by decide⟩
  | object _ => exact ⟨_, _, rfl, by decide, by decide⟩

theorem IsElements.strip {m : Nat} {t : Bytes} {vs : List (Value δ)}
    (h : IsElements conv m t vs) : ∃ w c r, Ws w ∧ t = w ++ c :: r ∧ isSpace c = Bool.false ∧
      c ≠ ']'.toUInt8 ∧ IsElements conv m (c :: r) vs := by
  cases h with
  | @last n a t b v ha hv hb =>
    obtain ⟨c, r, rfl, hc, hne⟩ := hv.head
    refine ⟨a, c, r ++ b, ha, ?_, hc, hne, ?_⟩
    · simp only [List.append_assoc, List.cons_append]
    · exact .last .nil hv hb
  | @more n a t b rest v vs ha hv hb hrest =>
    obtain ⟨c, r, rfl, hc, hne⟩ := hv.head
    refine ⟨a, c, r ++ b ++ ','.toUInt8 :: rest, ha, ?_, hc, hne, ?_⟩
    · simp only [List.append_assoc, List.cons_append]
    · exact .more .nil hv hb hrest

theorem IsMembers.strip {m : Nat} {t : Bytes} {kvs : List (Bytes × Value δ)}
    (h : IsMembers conv m t kvs) : ∃ w r, Ws w ∧ t = w ++ '"'.toUInt8 :: r ∧
      IsMembers conv m ('"'.toUInt8 :: r) kvs := by
  cases h with
  | @last n a k b c t d key v ha hk hb hc hv hd =>
    obtain ⟨body, hbody, rfl⟩ := hk
    refine ⟨a, body ++ ['"'.toUInt8] ++ b ++ ':'.toUInt8 :: c ++ t ++ d, ha, ?_, ?_⟩
    · simp only [List.append_assoc, List.cons_append]
    · exact .last .nil ⟨body, hbody, rfl⟩ hb hc hv hd
  | @more n a k b c t d rest key v kvs ha hk hb hc hv hd hrest =>
    obtain ⟨body, hbody, rfl⟩ := hk
    refine ⟨a, body ++ ['"'.toUInt8] ++ b ++ ':'.toUInt8 :: c ++ t ++ d ++ ','.toUInt8 :: rest, ha,
      ?_, ?_⟩
    · simp only [List.append_assoc, List.cons_append]
    · exact .more .nil ⟨body, hbody, rfl⟩ hb hc hv hd hrest

/-- A value is read by its first character. -/
theorem parseValue_cons {n depth : Nat} {a s : Bytes} {c : UInt8} (ha : Ws a)
    (hc : isSpace c = false) : parseValue conv (n + 1) depth (a ++ c :: s) =
      if c = '\x7b'.toUInt8 ∨ c = '['.toUInt8 then
        if depth = 256 then .error .nestingLimit
        else if c = '\x7b'.toUInt8 then parseObject (parseMembers conv n (depth + 1)) (c :: s)
        else parseArray (parseElements conv n (depth + 1)) (c :: s)
      else if c = '"'.toUInt8 then parseString (c :: s) >>= fun r => .ok (.string r.1, r.2)
      else if c = 't'.toUInt8 then
        literal (ascii ['t', 'r', 'u', 'e']) (c :: s) >>= fun s => .ok (.bool Bool.true, s)
      else if c = 'f'.toUInt8 then
        literal (ascii ['f', 'a', 'l', 's', 'e']) (c :: s) >>= fun s => .ok (.bool Bool.false, s)
      else if c = 'n'.toUInt8 then
        literal (ascii ['n', 'u', 'l', 'l']) (c :: s) >>= fun s => .ok (.null, s)
      else parseNumber conv (c :: s) := by
  rw [parseValue, ws_append ha, ws_cons hc]
  rfl

theorem parseArray_empty {elements : Bytes → Except Error (List (Value δ) × Bytes)}
    {w r : Bytes} (hw : Ws w) :
    parseArray elements ('['.toUInt8 :: (w ++ ']'.toUInt8 :: r)) = .ok (.array [], r) := by
  have hopen := expect_complete (r := w ++ ']'.toUInt8 :: r) Ws.nil
    (show isSpace '['.toUInt8 = false by decide)
  rw [List.nil_append] at hopen
  rw [parseArray, hopen]
  show (peek (ws (w ++ ']'.toUInt8 :: r)) >>= _) = _
  rw [ws_append hw, ws_cons (by decide)]
  rfl

theorem parseArray_complete {elements : Bytes → Except Error (List (Value δ) × Bytes)}
    {w s r : Bytes} {c : UInt8} {vs : List (Value δ)} (hw : Ws w) (hc : isSpace c = false)
    (hne : c ≠ ']'.toUInt8) (h : elements (c :: s) = .ok (vs, r)) :
    parseArray elements ('['.toUInt8 :: (w ++ c :: s)) = .ok (.array vs, r) := by
  have hopen := expect_complete (r := w ++ c :: s) Ws.nil
    (show isSpace '['.toUInt8 = false by decide)
  rw [List.nil_append] at hopen
  rw [parseArray, hopen]
  show (peek (ws (w ++ c :: s)) >>= _) = _
  rw [ws_append hw, ws_cons hc]
  show (if _ then _ else _) = _
  rw [if_neg hne, h]
  rfl

theorem parseObject_empty {members : Bytes → Except Error (List (Bytes × Value δ) × Bytes)}
    {w r : Bytes} (hw : Ws w) :
    parseObject members ('\x7b'.toUInt8 :: (w ++ '\x7d'.toUInt8 :: r)) = .ok (.object [], r) := by
  have hopen := expect_complete (r := w ++ '\x7d'.toUInt8 :: r) Ws.nil
    (show isSpace '\x7b'.toUInt8 = false by decide)
  rw [List.nil_append] at hopen
  rw [parseObject, hopen]
  show (peek (ws (w ++ '\x7d'.toUInt8 :: r)) >>= _) = _
  rw [ws_append hw, ws_cons (by decide)]
  rfl

theorem parseObject_complete {members : Bytes → Except Error (List (Bytes × Value δ) × Bytes)}
    {w s r : Bytes} {c : UInt8} {kvs : List (Bytes × Value δ)} (hw : Ws w)
    (hc : isSpace c = false) (hne : c ≠ '\x7d'.toUInt8) (h : members (c :: s) = .ok (kvs, r)) :
    parseObject members ('\x7b'.toUInt8 :: (w ++ c :: s)) = .ok (.object kvs, r) := by
  have hopen := expect_complete (r := w ++ c :: s) Ws.nil
    (show isSpace '\x7b'.toUInt8 = false by decide)
  rw [List.nil_append] at hopen
  rw [parseObject, hopen]
  show (peek (ws (w ++ c :: s)) >>= _) = _
  rw [ws_append hw, ws_cons hc]
  show (if _ then _ else _) = _
  rw [if_neg hne, h]
  rfl

/-- The three reads of values with so much fuel read every text of the grammar whose nesting and
the depth it is read at are 256 together. -/
structure Complete (conv : Conversion δ) (n : Nat) : Prop where
  value : ∀ m depth a t v r, depth + m = 256 → Ws a → IsValue conv m t v → Stops r →
    2 * (a ++ t ++ r).length + 1 ≤ n → parseValue conv n depth (a ++ t ++ r) = .ok (v, r)
  elements : ∀ m depth t vs r, depth + m = 256 → IsElements conv m t vs →
    2 * (t ++ ']'.toUInt8 :: r).length + 2 ≤ n →
    parseElements conv n depth (t ++ ']'.toUInt8 :: r) = .ok (vs, r)
  members : ∀ m depth t kvs r, depth + m = 256 → IsMembers conv m t kvs →
    2 * (t ++ '\x7d'.toUInt8 :: r).length + 2 ≤ n →
    parseMembers conv n depth (t ++ '\x7d'.toUInt8 :: r) = .ok (kvs, r)

theorem parseValue_complete {n m depth : Nat} {a t r : Bytes} {v : Value δ}
    (ih : Complete conv n) (hdepth : depth + m = 256) (ha : Ws a) (hv : IsValue conv m t v)
    (hr : Stops r) (hn : 2 * (a ++ t ++ r).length + 1 ≤ n + 1) :
    parseValue conv (n + 1) depth (a ++ t ++ r) = .ok (v, r) := by
  have hlen : a.length + (t.length + r.length) ≤ n / 2 := by
    rw [List.length_append, List.length_append] at hn
    omega
  rw [List.append_assoc]
  cases hv with
  | null =>
    rw [show ascii ['n', 'u', 'l', 'l'] ++ r = 'n'.toUInt8 :: (ascii ['u', 'l', 'l'] ++ r) from rfl,
      parseValue_cons ha (by decide), if_neg (by decide), if_neg (by decide), if_neg (by decide),
      if_neg (by decide), if_pos rfl]
    exact congrArg (· >>= _) (literal_complete (ascii ['n', 'u', 'l', 'l']) r)
  | true =>
    rw [show ascii ['t', 'r', 'u', 'e'] ++ r = 't'.toUInt8 :: (ascii ['r', 'u', 'e'] ++ r) from rfl,
      parseValue_cons ha (by decide), if_neg (by decide), if_neg (by decide), if_pos rfl]
    exact congrArg (· >>= _) (literal_complete (ascii ['t', 'r', 'u', 'e']) r)
  | false =>
    rw [show ascii ['f', 'a', 'l', 's', 'e'] ++ r =
        'f'.toUInt8 :: (ascii ['a', 'l', 's', 'e'] ++ r) from rfl,
      parseValue_cons ha (by decide), if_neg (by decide), if_neg (by decide), if_neg (by decide),
      if_pos rfl]
    exact congrArg (· >>= _) (literal_complete (ascii ['f', 'a', 'l', 's', 'e']) r)
  | number hnum hrange =>
    have hread := parseNumber_complete conv hnum hrange hr
    obtain ⟨c, t, rfl, hc⟩ := hnum.head
    rw [List.cons_append] at hread ⊢
    have hbrace : ¬ (c = '\x7b'.toUInt8 ∨ c = '['.toUInt8) := by
      rintro (h | h)
      · exact lead_ne hc (by decide) (by decide) h
      · exact lead_ne hc (by decide) (by decide) h
    rw [parseValue_cons ha (lead_space hc), if_neg hbrace,
      if_neg (lead_ne hc (by decide) (by decide)), if_neg (lead_ne hc (by decide) (by decide)),
      if_neg (lead_ne hc (by decide) (by decide)), if_neg (lead_ne hc (by decide) (by decide)),
      hread]
  | string hstr =>
    have hread := parseString_complete (r := r) .nil hstr
    obtain ⟨body, -, rfl⟩ := hstr
    rw [List.nil_append, List.cons_append, List.cons_append] at hread
    rw [List.cons_append, List.cons_append, parseValue_cons ha (by decide), if_neg (by decide),
      if_pos rfl, hread]
    rfl
  | @emptyArray m w hw =>
    rw [List.cons_append, List.cons_append, parseValue_cons ha (by decide), if_pos (.inr rfl),
      if_neg (by omega), if_neg (by decide), List.append_assoc]
    exact parseArray_empty hw
  | @array m t vs ht =>
    obtain ⟨w, c, s, hw, rfl, hc, hne, hs⟩ := ht.strip
    simp only [List.length_append, List.length_cons, List.cons_append] at hlen
    have hread := ih.elements m (depth + 1) _ vs r (by omega) hs (by
      simp only [List.length_append, List.length_cons]
      omega)
    rw [List.cons_append, List.cons_append, parseValue_cons ha (by decide), if_pos (.inr rfl),
      if_neg (by omega), if_neg (by decide), List.append_assoc, List.append_assoc]
    exact parseArray_complete hw hc hne hread
  | @emptyObject m w hw =>
    rw [List.cons_append, List.cons_append, parseValue_cons ha (by decide), if_pos (.inl rfl),
      if_neg (by omega), if_pos rfl, List.append_assoc]
    exact parseObject_empty hw
  | @object m t kvs ht =>
    obtain ⟨w, s, hw, rfl, hs⟩ := ht.strip
    simp only [List.length_append, List.length_cons, List.cons_append] at hlen
    have hread := ih.members m (depth + 1) _ kvs r (by omega) hs (by
      simp only [List.length_append, List.length_cons]
      omega)
    rw [List.cons_append, List.cons_append, parseValue_cons ha (by decide), if_pos (.inl rfl),
      if_neg (by omega), if_pos rfl, List.append_assoc, List.append_assoc]
    exact parseObject_complete hw (by decide) (by decide) hread

theorem parseElements_complete {n m depth : Nat} {t r : Bytes} {vs : List (Value δ)}
    (ih : Complete conv n) (hdepth : depth + m = 256) (ht : IsElements conv m t vs)
    (hn : 2 * (t ++ ']'.toUInt8 :: r).length + 2 ≤ n + 1) :
    parseElements conv (n + 1) depth (t ++ ']'.toUInt8 :: r) = .ok (vs, r) := by
  rw [parseElements]
  cases ht with
  | @last _ a t b v ha hv hb =>
    rw [List.append_assoc] at hn ⊢
    have hstops : Stops (b ++ ']'.toUInt8 :: r) :=
      .spaces hb (.cons (by decide) (by decide) (by decide) (by decide))
    rw [ih.value m depth a t v _ hdepth ha hv hstops (by omega)]
    show (peek (ws (b ++ ']'.toUInt8 :: r)) >>= _) = _
    rw [ws_append hb, ws_cons (by decide)]
    rfl
  | @more _ a t b rest v vs ha hv hb hrest =>
    have hcut : a ++ t ++ b ++ ','.toUInt8 :: rest ++ ']'.toUInt8 :: r =
        a ++ t ++ (b ++ ','.toUInt8 :: (rest ++ ']'.toUInt8 :: r)) := by
      simp only [List.append_assoc, List.cons_append]
    rw [hcut] at hn ⊢
    have hstops : Stops (b ++ ','.toUInt8 :: (rest ++ ']'.toUInt8 :: r)) :=
      .spaces hb (.cons (by decide) (by decide) (by decide) (by decide))
    have hnext := ih.elements m depth rest vs r hdepth hrest (by
      simp only [List.length_append, List.length_cons] at hn ⊢
      omega)
    rw [ih.value m depth a t v _ hdepth ha hv hstops (by omega)]
    show (peek (ws (b ++ ','.toUInt8 :: (rest ++ ']'.toUInt8 :: r))) >>= _) = _
    rw [ws_append hb, ws_cons (by decide)]
    show (parseElements conv n depth (rest ++ ']'.toUInt8 :: r) >>= _) = _
    rw [hnext]
    rfl

theorem parseMembers_complete {n m depth : Nat} {t r : Bytes} {kvs : List (Bytes × Value δ)}
    (ih : Complete conv n) (hdepth : depth + m = 256) (ht : IsMembers conv m t kvs)
    (hn : 2 * (t ++ '\x7d'.toUInt8 :: r).length + 2 ≤ n + 1) :
    parseMembers conv (n + 1) depth (t ++ '\x7d'.toUInt8 :: r) = .ok (kvs, r) := by
  have hkey : ∀ {a k b s : Bytes} {key : Bytes}, Ws a → IsString k key → Ws b →
      parseString (ws (a ++ (k ++ (b ++ ':'.toUInt8 :: s)))) = .ok (key, b ++ ':'.toUInt8 :: s) := by
    intro a k b s key ha hk hb
    have hread := parseString_complete (r := b ++ ':'.toUInt8 :: s) .nil hk
    obtain ⟨body, -, rfl⟩ := hk
    rw [List.nil_append, List.cons_append, List.cons_append] at hread
    rw [ws_append ha, List.cons_append, List.cons_append, ws_cons (by decide), hread]
  have hcolon : ∀ {b s : Bytes}, Ws b →
      expect ':'.toUInt8 (ws (b ++ ':'.toUInt8 :: s)) = .ok s := by
    intro b s hb
    rw [ws_append hb, ws_cons (by decide)]
    exact expect_complete .nil (by decide)
  rw [parseMembers]
  cases ht with
  | @last _ a k b c t d key v ha hk hb hc hv hd =>
    have hcut : a ++ k ++ b ++ ':'.toUInt8 :: c ++ t ++ d ++ '\x7d'.toUInt8 :: r =
        a ++ (k ++ (b ++ ':'.toUInt8 :: (c ++ t ++ (d ++ '\x7d'.toUInt8 :: r)))) := by
      simp only [List.append_assoc, List.cons_append]
    have hstops : Stops (d ++ '\x7d'.toUInt8 :: r) :=
      .spaces hd (.cons (by decide) (by decide) (by decide) (by decide))
    rw [hcut] at hn ⊢
    have hvalue := ih.value m depth c t v _ hdepth hc hv hstops (by
      simp only [List.length_append, List.length_cons] at hn ⊢
      omega)
    rw [hkey ha hk hb]
    show (expect ':'.toUInt8 (ws (b ++ ':'.toUInt8 :: _)) >>= _) = _
    rw [hcolon hb]
    show (parseValue conv n depth (c ++ t ++ (d ++ '\x7d'.toUInt8 :: r)) >>= _) = _
    rw [hvalue]
    show (peek (ws (d ++ '\x7d'.toUInt8 :: r)) >>= _) = _
    rw [ws_append hd, ws_cons (by decide)]
    rfl
  | @more _ a k b c t d rest key v kvs ha hk hb hc hv hd hrest =>
    have hcut : a ++ k ++ b ++ ':'.toUInt8 :: c ++ t ++ d ++ ','.toUInt8 :: rest ++
        '\x7d'.toUInt8 :: r = a ++ (k ++ (b ++ ':'.toUInt8 :: (c ++ t ++ (d ++ ','.toUInt8 ::
          (rest ++ '\x7d'.toUInt8 :: r))))) := by
      simp only [List.append_assoc, List.cons_append]
    have hstops : Stops (d ++ ','.toUInt8 :: (rest ++ '\x7d'.toUInt8 :: r)) :=
      .spaces hd (.cons (by decide) (by decide) (by decide) (by decide))
    rw [hcut] at hn ⊢
    simp only [List.length_append, List.length_cons] at hn
    have hvalue := ih.value m depth c t v _ hdepth hc hv hstops (by
      simp only [List.length_append, List.length_cons]
      omega)
    have hnext := ih.members m depth rest kvs r hdepth hrest (by
      simp only [List.length_append, List.length_cons]
      omega)
    rw [hkey ha hk hb]
    show (expect ':'.toUInt8 (ws (b ++ ':'.toUInt8 :: _)) >>= _) = _
    rw [hcolon hb]
    show (parseValue conv n depth (c ++ t ++ (d ++ ','.toUInt8 :: _)) >>= _) = _
    rw [hvalue]
    show (peek (ws (d ++ ','.toUInt8 :: _)) >>= _) = _
    rw [ws_append hd, ws_cons (by decide)]
    show (parseMembers conv n depth (rest ++ '\x7d'.toUInt8 :: r) >>= _) = _
    rw [hnext]
    rfl

theorem complete (conv : Conversion δ) (n : Nat) : Complete conv n := by
  induction n with
  | zero =>
    constructor
    · intro m depth a t v r _ _ _ _ hn
      exact absurd hn (Nat.not_succ_le_zero _)
    · intro m depth t vs r _ _ hn
      exact absurd hn (Nat.not_succ_le_zero _)
    · intro m depth t kvs r _ _ hn
      exact absurd hn (Nat.not_succ_le_zero _)
  | succ n ih =>
    exact ⟨fun _ _ _ _ _ _ => parseValue_complete ih, fun _ _ _ _ _ => parseElements_complete ih,
      fun _ _ _ _ _ => parseMembers_complete ih⟩

theorem parse_complete {s : Bytes} {v : Value δ} (h : IsDocument conv s v) :
    parse conv s = .ok v := by
  obtain ⟨a, t, b, ha, hv, hb, rfl⟩ := h
  obtain ⟨c, r, ht, hc, -⟩ := hv.head
  have hstrip : ws (a ++ t ++ b) = [] ++ t ++ b := by
    rw [List.append_assoc, ws_append ha, ht, List.cons_append, ws_cons hc]
    rfl
  have hstops : Stops b := by
    have := Stops.spaces hb .nil
    rwa [List.append_nil] at this
  have hend : ws b = [] := by
    have := ws_append (s := []) hb
    rwa [List.append_nil] at this
  have hread := (complete conv _).value 256 0 [] t v b rfl .nil hv hstops (Nat.le_refl _)
  rw [parse, hstrip]
  dsimp only
  rw [hread]
  show (if _ then _ else _) = _
  rw [if_neg (not_not.mpr hend)]

/-- A parse has a value exactly where the bytes are one document, and it is the document's; else it
raises, and no byte past the end is read. -/
theorem parse_exact (conv : Conversion δ) (s : Bytes) :
    (∀ v, parse conv s = .ok v ↔ IsDocument conv s v) ∧
      ((¬ ∃ v, IsDocument conv s v) → ∃ e, parse conv s = .error e) ∧
      parse conv s ≠ .error .pastEnd ∧ parse conv s ≠ .error .fuel := by
  have hreads := parse_reads conv s
  refine ⟨fun v => ⟨fun h => hreads.of_ok h, parse_complete⟩, fun hnone => ?_, ?_, ?_⟩
  · cases hp : parse conv s with
    | ok v => exact absurd ⟨v, hreads.of_ok hp⟩ hnone
    | error e => exact ⟨e, rfl⟩
  · intro h
    rw [h] at hreads
    exact hreads.1 rfl
  · intro h
    rw [h] at hreads
    exact hreads.2 rfl

end Json

namespace Json

variable {δ : Type}

mutual

/-- How deep a value's arrays and objects nest. -/
def Value.depth : Value δ → Nat
  | .array vs => depthOf vs + 1
  | .object kvs => depthOfMembers kvs + 1
  | _ => 0

def depthOf : List (Value δ) → Nat
  | [] => 0
  | v :: vs => max v.depth (depthOf vs)

def depthOfMembers : List (Bytes × Value δ) → Nat
  | [] => 0
  | (_, v) :: kvs => max v.depth (depthOfMembers kvs)

end

theorem depth_le_members {kvs : List (Bytes × Value δ)} {key : Bytes} {v : Value δ}
    (h : (key, v) ∈ kvs) : v.depth ≤ depthOfMembers kvs := by
  induction kvs with
  | nil => cases h
  | cons kv kvs ih =>
    obtain ⟨k, w⟩ := kv
    rw [depthOfMembers]
    rcases List.mem_cons.mp h with h | h
    · cases h
      exact Nat.le_max_left _ _
    · exact (ih h).trans (Nat.le_max_right _ _)

variable {conv : Conversion δ}

mutual

/-- Text nested at most so deep gives a value that is. -/
theorem IsValue.depth_le {n : Nat} {t : Bytes} {v : Value δ} (h : IsValue conv n t v) :
    v.depth ≤ n := by
  cases h with
  | null | true | false | number _ _ | string _ => exact Nat.zero_le _
  | emptyArray _ | emptyObject _ => exact Nat.succ_le_succ (Nat.zero_le _)
  | array ht => exact Nat.succ_le_succ ht.depth_le
  | object ht => exact Nat.succ_le_succ ht.depth_le

theorem IsElements.depth_le {n : Nat} {t : Bytes} {vs : List (Value δ)}
    (h : IsElements conv n t vs) : depthOf vs ≤ n := by
  cases h with
  | last _ hv _ => exact Nat.max_le.mpr ⟨hv.depth_le, Nat.zero_le _⟩
  | more _ hv _ hrest => exact Nat.max_le.mpr ⟨hv.depth_le, hrest.depth_le⟩

theorem IsMembers.depth_le {n : Nat} {t : Bytes} {kvs : List (Bytes × Value δ)}
    (h : IsMembers conv n t kvs) : depthOfMembers kvs ≤ n := by
  cases h with
  | last _ _ _ _ hv _ => exact Nat.max_le.mpr ⟨hv.depth_le, Nat.zero_le _⟩
  | more _ _ _ _ hv _ hrest => exact Nat.max_le.mpr ⟨hv.depth_le, hrest.depth_le⟩

end

mutual

/-- A value's text nests no deeper than the value. -/
theorem IsValue.within {n m : Nat} {t : Bytes} {v : Value δ} (h : IsValue conv n t v)
    (hm : v.depth ≤ m) : IsValue conv m t v := by
  cases h with
  | null => exact .null
  | true => exact .true
  | false => exact .false
  | number hnum hrange => exact .number hnum hrange
  | string hstr => exact .string hstr
  | emptyArray hw =>
    obtain ⟨k, rfl⟩ := Nat.exists_eq_add_one.mpr hm
    exact .emptyArray hw
  | emptyObject hw =>
    obtain ⟨k, rfl⟩ := Nat.exists_eq_add_one.mpr hm
    exact .emptyObject hw
  | array ht =>
    obtain ⟨k, rfl⟩ := Nat.exists_eq_add_one.mpr (Nat.zero_lt_of_lt hm)
    exact .array (ht.within (Nat.le_of_succ_le_succ hm))
  | object ht =>
    obtain ⟨k, rfl⟩ := Nat.exists_eq_add_one.mpr (Nat.zero_lt_of_lt hm)
    exact .object (ht.within (Nat.le_of_succ_le_succ hm))

theorem IsElements.within {n m : Nat} {t : Bytes} {vs : List (Value δ)}
    (h : IsElements conv n t vs) (hm : depthOf vs ≤ m) : IsElements conv m t vs := by
  cases h with
  | last ha hv hb => exact .last ha (hv.within (Nat.max_le.mp hm).1) hb
  | more ha hv hb hrest =>
    obtain ⟨hone, hmany⟩ := Nat.max_le.mp hm
    exact .more ha (hv.within hone) hb (hrest.within hmany)

theorem IsMembers.within {n m : Nat} {t : Bytes} {kvs : List (Bytes × Value δ)}
    (h : IsMembers conv n t kvs) (hm : depthOfMembers kvs ≤ m) : IsMembers conv m t kvs := by
  cases h with
  | last ha hk hb hc hv hd => exact .last ha hk hb hc (hv.within (Nat.max_le.mp hm).1) hd
  | more ha hk hb hc hv hd hrest =>
    obtain ⟨hone, hmany⟩ := Nat.max_le.mp hm
    exact .more ha hk hb hc (hv.within hone) hd (hrest.within hmany)

end

end Json

end Llmx
