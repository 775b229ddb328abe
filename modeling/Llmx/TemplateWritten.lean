import Llmx.Fallible
import Llmx.TemplateRoundTrip

namespace Llmx

namespace TemplateJson

open Fallible Json Utf8

theorem ws_ascii {w : Bytes} (h : Ws w) : isAscii w = true := by
  refine isAscii_iff.mpr fun c hc => ?_
  have hspace := h c hc
  simp only [isSpace, Bool.or_eq_true, beq_iff_eq] at hspace
  rcases hspace with ((rfl | rfl) | rfl) | rfl
  · decide
  · decide
  · decide
  · decide

theorem hexLower_ascii : ∀ n < 16, hexLower n < 0x80 := by decide

theorem escapeU_ascii {n : Nat} (h : n < 0x10000) : isAscii (escapeU n) = true := by
  unfold escapeU
  simp only [isAscii_cons]
  exact ⟨by decide, by decide, hexLower_ascii _ (by omega), hexLower_ascii _ (by omega),
    hexLower_ascii _ (by omega), hexLower_ascii _ (by omega), Eq.refl _⟩

theorem jsonChar_ascii {p : Nat} (hp : Scalar p) : isAscii (jsonChar true p (encode p)) = true := by
  unfold jsonChar
  split
  next letter hletter =>
    rw [isAscii_cons, isAscii_cons]
    exact ⟨by decide, (shortLetter_escape hletter).2.2, Eq.refl _⟩
  next =>
    split
    next hctl => exact escapeU_ascii (by omega)
    next =>
      split
      next hraw =>
        have hlow : p < 0x80 := hraw.resolve_right (by decide)
        rw [encode_ascii hlow, isAscii_cons, UInt8.lt_iff_toNat_lt, toNat_byte (by omega)]
        exact ⟨hlow, Eq.refl _⟩
      next =>
        split
        next hhigh =>
          have hle := hp.1
          have hmod : (p - 0x10000) &&& 0x3FF = (p - 0x10000) % 1024 :=
            Nat.and_two_pow_sub_one_eq_mod _ 10
          have hdiv : (p - 0x10000) >>> 10 = (p - 0x10000) / 1024 := Nat.shiftRight_eq_div_pow _ _
          rw [isAscii_append, hmod, hdiv]
          exact ⟨escapeU_ascii (by omega), escapeU_ascii (by omega)⟩
        next hlow => exact escapeU_ascii (by omega)

theorem jsonString_ascii {s : Bytes} (h : Valid s) : isAscii (jsonString s true) = true := by
  have hchars : isAscii (jsonChars true s) = true := by
    obtain ⟨ps, hps, rfl⟩ := h
    induction ps with
    | nil =>
      rw [List.flatMap_nil, jsonChars]
      exact Eq.refl _
    | cons p ps ih =>
      have hp := hps p List.mem_cons_self
      rw [List.flatMap_cons, jsonChars_encode hp, isAscii_append]
      exact ⟨jsonChar_ascii hp, ih fun q hq => hps q (List.mem_cons_of_mem p hq)⟩
  unfold jsonString
  rw [List.cons_append, isAscii_cons, isAscii_append]
  exact ⟨by decide, hchars, by decide⟩

theorem integerText_ascii (i : Int) : isAscii (integerText i) = true := by
  have hdigits : isAscii (decimal i.natAbs) = true := by
    refine isAscii_iff.mpr fun c hc => ?_
    have hdigit := (decimal_digits i.natAbs).2 c hc
    simp only [isDigit, Bool.and_eq_true, decide_eq_true_eq] at hdigit
    exact UInt8.lt_of_le_of_lt hdigit.2 (by decide)
  unfold integerText
  split
  next => exact isAscii_cons.mpr ⟨by decide, hdigits⟩
  next => exact hdigits

variable {φ δ : Type} {floatText : φ → Bytes} {style : JsonStyle} {v : TemplateValue φ}

theorem containerText_ascii {left right : UInt8} {texts : List (Nat → Bytes)} {level : Nat}
    (hs : Spaced style) (hleft : left < 0x80) (hright : right < 0x80)
    (h : ∀ text ∈ texts, ∀ level, isAscii (text level) = true) :
    isAscii (containerText style left right texts level) = true := by
  have hnl := fun depth => ws_ascii (newlineText_ws hs depth)
  have hsep : isAscii style.itemSep = true := by
    obtain ⟨a, b, ha, hb, he⟩ := hs.item
    rw [he, isAscii_append, isAscii_cons]
    exact ⟨ws_ascii ha, by decide, ws_ascii hb⟩
  have hitems : ∀ first, isAscii (itemsText style level first texts) = true := by
    intro first
    induction texts generalizing first with
    | nil => exact Eq.refl _
    | cons text texts ih =>
      obtain ⟨hone, hrest⟩ := List.forall_mem_cons.mp h
      rw [itemsText]
      simp only [isAscii_append]
      refine ⟨⟨⟨?_, hnl _⟩, hone _⟩, ih hrest false⟩
      cases first with
      | true => exact Eq.refl _
      | false => exact hsep
  unfold containerText
  split
  next => exact isAscii_cons.mpr ⟨hleft, isAscii_cons.mpr ⟨hright, Eq.refl _⟩⟩
  next =>
    rw [List.cons_append, List.cons_append, isAscii_cons]
    simp only [isAscii_append]
    exact ⟨hleft, ⟨hitems true, hnl _⟩, isAscii_cons.mpr ⟨hright, Eq.refl _⟩⟩

/-- Written for ASCII, a text is. -/
theorem valueText_ascii (hs : Spaced style) (hascii : style.ensureAscii = true) (h : Plain v)
    (level : Nat) : isAscii (valueText floatText style v level) = true := by
  have hkey : isAscii style.keySep = true := by
    obtain ⟨a, b, ha, hb, he⟩ := hs.key
    rw [he, isAscii_append, isAscii_cons]
    exact ⟨ws_ascii ha, by decide, ws_ascii hb⟩
  induction h generalizing level with
  | none => exact Eq.refl _
  | bool b =>
    cases b with
    | true => exact Eq.refl _
    | false => exact Eq.refl _
  | int _ => exact integerText_ascii _
  | str hv =>
    rw [valueText, hascii]
    exact jsonString_ascii hv
  | @list items _ ih =>
    rw [valueText, valueTexts_map]
    refine containerText_ascii hs (by decide) (by decide) fun text htext level => ?_
    obtain ⟨w, hw, rfl⟩ := List.mem_map.mp htext
    exact ih w hw level
  | @dict items _ hkeys _ ih =>
    rw [valueText, arranged_texts]
    refine containerText_ascii hs (by decide) (by decide) fun text htext level => ?_
    obtain ⟨kv, hkv, rfl⟩ := List.mem_map.mp htext
    have hmem := (arrange_perm style.sortKeys items).mem_iff.mp hkv
    unfold memberText
    rw [isAscii_append, isAscii_append, hascii]
    exact ⟨⟨jsonString_ascii (hkeys kv hmem), hkey⟩, ih kv hmem level⟩

variable {conv : Conversion δ} {large : δ → Bool} {toInt : δ → Int} {ofInt : Int → δ}

/-- What the two writers of JSON put out is read back: quoted text as the text, and a value's text
as the value, its dicts in the order they are written in; the second raises only where the text is
longer than one may be. -/
theorem written_reads_back (floatText : φ → Bytes) (toFloat : δ → φ)
    (he : Exact conv large toInt ofInt) :
    (∀ s, Valid s → parse conv (quote s) = .ok (.string s)) ∧
      ∀ (style : JsonStyle) (v : TemplateValue φ), Spaced style → Plain v →
        depth v ≤ kMaxValueDepth →
        (∃ text json, jsonDump floatText style v 0 [] = .ok text ∧ parse conv text = .ok json ∧
          templateValue toFloat large toInt json = .ok (arranged style.sortKeys v) ∧
          (style.ensureAscii = true → isAscii text = true)) ∨
        jsonDump floatText style v 0 [] = .error .tooLong ∧
          kMaxBuilt < (valueText floatText style v 0).length := by
  refine ⟨fun s hs => ?_, fun style v hs hv hdepth => ?_⟩
  · refine parse_complete ⟨[], quote s, [], .nil, .string (quote_string hs), .nil, ?_⟩
    rw [List.nil_append, List.append_nil]
  · rcases jsonDump_dumps floatText hv 0 [] with hok | hlong
    · refine .inl ⟨_, asJson style.sortKeys ofInt v, hok, ?_,
        templateValue_asJson toFloat style.sortKeys he hv hdepth,
        fun hascii => valueText_ascii hs hascii hv 0⟩
      have hvalue : IsValue conv (depth v) (valueText floatText style v 0)
          (asJson style.sortKeys ofInt v) := valueText_value hs he hv 0
      have hlimit : kMaxValueDepth ≤ 256 := by decide
      refine parse_complete ⟨[], _, [], .nil, hvalue.within ?_, .nil, ?_⟩
      · exact hvalue.depth_le.trans (hdepth.trans hlimit)
      · rw [List.append_nil]
    · exact .inr hlong

/-- A text's value where it is a whole number's own. -/
def readInteger (text : Bytes) : Option Int :=
  let number := fun digits : Bytes => digits.foldl (fun n c => n * 10 + (c.toNat - 48 : Int)) 0
  let i := if text.head? = some '-'.toUInt8 then -number text.tail else number text
  if integerText i = text then some i else none

theorem foldl_decimal (n : Nat) :
    (decimal n).foldl (fun n c => n * 10 + (c.toNat - 48 : Int)) 0 = n := by
  have hbyte : ∀ d < 10, (UInt8.ofNat (48 + d)).toNat = 48 + d := by decide
  fun_induction decimal n with
  | case1 n h =>
    rw [List.foldl_cons, List.foldl_nil, hbyte n h]
    omega
  | case2 n h ih =>
    rw [List.foldl_append, ih, List.foldl_cons, List.foldl_nil, hbyte _ (Nat.mod_lt n (by omega))]
    omega

theorem readInteger_text (i : Int) : readInteger (integerText i) = some i := by
  have hdigit : ∀ n, (decimal n).head? ≠ some '-'.toUInt8 := by
    intro n heq
    have hmem := (decimal_digits n).2 _ (List.mem_of_head? heq)
    revert hmem
    decide
  have hread : (if (integerText i).head? = some '-'.toUInt8 then
      -((integerText i).tail.foldl (fun n c => n * 10 + (c.toNat - 48 : Int)) 0)
      else (integerText i).foldl (fun n c => n * 10 + (c.toNat - 48 : Int)) 0) = i := by
    unfold integerText
    split
    next hneg =>
      rw [List.head?_cons, if_pos (Eq.refl _), List.tail_cons, foldl_decimal]
      omega
    next hneg =>
      rw [if_neg (hdigit _), foldl_decimal]
      omega
  unfold readInteger
  dsimp only
  rw [hread, if_pos (Eq.refl _)]

/-- Whole numbers alone. -/
def wholeNumbers : Conversion Int := ⟨readInteger, fun i => decide (i = 0)⟩

theorem wholeNumbers_exact :
    Exact wholeNumbers (fun i => decide (2 ^ 53 ≤ i.natAbs)) (fun i => i) (fun i => i) := by
  refine ⟨fun i _ => readInteger_text i, fun i _ hzero => of_decide_eq_true hzero, fun i hi => ?_,
    fun i _ => Eq.refl i⟩
  exact decide_eq_false (Nat.not_le.mpr hi)

/-- The style nothing is set in. -/
def plainStyle : JsonStyle := ⟨false, false, [], ascii [',', ' '], ascii [':', ' '], false⟩

theorem plainStyle_spaced : Spaced plainStyle := by
  have hspace : Ws (ascii [' ']) := by
    intro c hc
    rw [List.mem_singleton.mp hc]
    decide
  exact ⟨.nil, ⟨[], _, .nil, hspace, Eq.refl _⟩, ⟨[], _, .nil, hspace, Eq.refl _⟩⟩

/-- A list of a truth value and none, written and read. -/
theorem written_reads_back_list :
    ∃ text json, jsonDump (fun _ : Unit => []) plainStyle (.list [.bool true, .none]) 0 [] =
        .ok text ∧ parse wholeNumbers text = .ok json ∧
      templateValue (fun _ => ()) (fun i : Int => decide (2 ^ 53 ≤ i.natAbs)) (fun i => i) json =
        .ok (.list [.bool true, .none]) := by
  have hplain : Plain (.list [.bool true, .none] : TemplateValue Unit) := by
    refine .list fun v hv => ?_
    rcases List.mem_cons.mp hv with rfl | hv
    · exact .bool true
    · rw [List.mem_singleton.mp hv]
      exact .none
  rcases (written_reads_back (fun _ : Unit => []) (fun _ => ()) wholeNumbers_exact).2 plainStyle
    (.list [.bool true, .none]) plainStyle_spaced hplain (by decide) with
    ⟨text, json, hdump, hparse, hvalue, -⟩ | ⟨-, hlong⟩
  · exact ⟨text, json, hdump, hparse, hvalue⟩
  · exact absurd hlong (by decide)

theorem jsonChars_letters (n : Nat) :
    jsonChars false (List.replicate n 'a'.toUInt8) = List.replicate n 'a'.toUInt8 := by
  induction n with
  | zero =>
    rw [List.replicate_zero, jsonChars]
  | succ n ih =>
    have hone := jsonChars_encode (p := 97) ⟨by decide, by decide⟩ false
      (List.replicate n 'a'.toUInt8)
    rw [List.replicate_succ]
    exact hone.trans (congrArg ('a'.toUInt8 :: ·) ih)

theorem long_raises {n : Nat} (h : kMaxBuilt ≤ n) : jsonDump (fun _ : Unit => []) plainStyle
    (.list [.str (List.replicate n 'a'.toUInt8), .none]) 0 [] = .error .tooLong := by
  have hstring : (jsonString (List.replicate n 'a'.toUInt8) false).length = n + 2 := by
    rw [jsonString, jsonChars_letters, List.length_append, List.length_cons, List.length_replicate]
    exact Eq.refl _
  generalize List.replicate n 'a'.toUInt8 = s at hstring
  have hnewline : ∀ depth out, newline plainStyle depth out = .ok out := fun _ _ => Eq.refl _
  have hone : jsonDump (fun _ : Unit => []) plainStyle (.str s) 1 ['['.toUInt8] =
      .ok (['['.toUInt8] ++ jsonString s false) := by
    rw [jsonDump]
    refine if_neg ?_
    have hlimit : 1 ≤ kMaxBuilt := Nat.one_le_two_pow
    rw [List.length_singleton]
    omega
  have htwo : ∀ sep, jsonDump (fun _ : Unit => []) plainStyle .none 1
      (['['.toUInt8] ++ jsonString s false ++ sep) = .error .tooLong := by
    intro sep
    rw [jsonDump]
    refine if_pos ?_
    rw [List.length_append, List.length_append, hstring]
    omega
  have hitems : dumpItems plainStyle 0 true [jsonDump (fun _ : Unit => []) plainStyle (.str s),
      jsonDump (fun _ : Unit => []) plainStyle .none] ['['.toUInt8] = .error .tooLong := by
    rw [dumpItems, hnewline, ok_bind, if_pos (Eq.refl _), hone, ok_bind, dumpItems, hnewline,
      ok_bind, if_neg Bool.false_ne_true, htwo]
    exact Eq.refl _
  rw [jsonDump]
  refine (if_neg (Nat.not_lt_zero _)).trans ?_
  show (dumpItems plainStyle 0 true _ ['['.toUInt8] >>= _) = _
  rw [jsonDumps_map]
  show (dumpItems plainStyle 0 true [_, _] ['['.toUInt8] >>= _) = _
  rw [hitems]
  exact Eq.refl _

/-- A value whose text passes the limit before its end is not written, and an indent that is
whitespace of Python's alone is none of JSON's. -/
theorem long_value_raises : (¬ ∀ (style : JsonStyle) (v : TemplateValue Unit), Spaced style →
    Plain v → depth v ≤ kMaxValueDepth →
      ∃ text, jsonDump (fun _ : Unit => []) style v 0 [] = .ok text) ∧
    ∃ text, jsonDump (fun _ : Unit => []) { plainStyle with indented := true, indent := [0x0B] }
        (.list [.none]) 0 [] = .ok text ∧
      (parse wholeNumbers text).toOption.isNone = true := by
  refine ⟨fun hall => ?_, ascii ['[', '\n', '\x0B', 'n', 'u', 'l', 'l', '\n', ']'], ?_, ?_⟩
  · have hplain : Plain (.list [.str (List.replicate kMaxBuilt 'a'.toUInt8), .none] :
        TemplateValue Unit) := by
      refine .list fun v hv => ?_
      rcases List.mem_cons.mp hv with rfl | hv
      · refine .str (.of_ascii (isAscii_iff.mpr fun c hc => ?_))
        rw [List.eq_of_mem_replicate hc]
        decide
      · rw [List.mem_singleton.mp hv]
        exact .none
    have hdepth : ∀ s, depth (.list [.str s, .none] : TemplateValue Unit) ≤ kMaxValueDepth :=
      fun s => (Nat.le_of_eq (Eq.refl 1)).trans (by decide)
    obtain ⟨text, htext⟩ := hall plainStyle _ plainStyle_spaced hplain (hdepth _)
    rw [long_raises (Nat.le_refl _)] at htext
    cases htext
  · decide
  · decide

end TemplateJson

end Llmx
