import Llmx.ByteLetters
import Llmx.Fallible
import Llmx.GgufFiles
import Llmx.JoyaiPieces
import Llmx.QwenPieces

/-!
The tokenizer: special tokens cut out of a text, each piece between them merged in its bytes'
letters, and ids read back.
-/

namespace Llmx

namespace JoyaiPieces

section Tiles

open OrderedRegex

variable {α : Type} {S : List α} {m : Nat → Nat} {e : Nat}

theorem slice_append (s : List α) {a b c : Nat} (hab : a ≤ b) (hbc : b ≤ c) :
    slice s a b ++ slice s b c = slice s a c := by
  have htake : slice s a b = (slice s a c).take (b - a) := by
    rw [slice_take (by omega), Nat.add_sub_cancel' hab]
  have hdrop : slice s b c = (slice s a c).drop (b - a) := by
    rw [slice_drop, Nat.add_sub_cancel' hab]
  rw [htake, hdrop, List.take_append_drop]

theorem cutRange_flatten (hm : ∀ i < e, m i ≤ e - i) (gap i : Nat) (hgap : gap ≤ i) (hi : i ≤ e) :
    ((cutRange m e gap i).map fun be => slice S be.1 be.2).flatten = slice S gap e := by
  fun_induction cutRange m e gap i with
  | case1 gap i hlt hzero ih => exact ih (by omega) (by omega)
  | case2 gap i hlt hne ih =>
    have hle := hm i hlt
    have hrest := ih (Nat.le_refl _) (by omega)
    have hfirst : ((if gap < i then [(gap, i)] else []).map fun be => slice S be.1 be.2).flatten =
        slice S gap i := by
      split
      next => simp
      next =>
        obtain rfl : gap = i := by omega
        simp [slice_empty]
    rw [List.map_append, List.flatten_append, hfirst, List.map_cons, List.flatten_cons, hrest,
      slice_append S (by omega) (by omega), slice_append S hgap (by omega)]
  | case3 gap i hnot hopen => simp
  | case4 gap i hnot hclosed =>
    obtain rfl : gap = e := by omega
    simp [slice_empty]

theorem cutAll_flatten {t : List CodePoint} {f : List CodePoint → Nat → Nat → Nat}
    (hf : ∀ i e, i < e → f t i e ≤ e - i) {pieces : List (Nat × Nat)}
    (hpieces : ∀ be ∈ pieces, be.1 ≤ be.2 ∧ be.2 ≤ t.length) :
    ((cutAll t pieces f).map fun be => slice S be.1 be.2).flatten =
        (pieces.map fun be => slice S be.1 be.2).flatten ∧ Within t.length (cutAll t pieces f) := by
  refine ⟨?_, fun be hbe => ?_⟩
  · unfold cutAll
    induction pieces with
    | nil => simp
    | cons piece pieces ih =>
      obtain ⟨hpiece, hrest⟩ := List.forall_mem_cons.mp hpieces
      rw [List.flatMap_cons, List.map_append, List.flatten_append, ih hrest,
        cutRange_flatten (fun i hi => hf i _ hi) _ _ (Nat.le_refl _) hpiece.1]
      simp
  · obtain ⟨piece, hpiece, hbe⟩ := List.mem_flatMap.mp hbe
    have hin := hpieces piece hpiece
    have := cutRange_within (fun i hi => hf i _ hi) piece.1 piece.1 hin.1 be hbe
    exact ⟨this.1, this.2.trans hin.2⟩

variable {t : List CodePoint} {i : Nat}

theorem scan_le (p : CodePoint → Bool) {stop k : Nat} (h : k ≤ stop) :
    scan p t stop k ≤ stop := by
  fun_induction scan p t stop k with
  | case1 k hk hp ih => exact ih hk
  | case2 k hk hp => omega
  | case3 k hk => omega

theorem lastNl_le {n k : Nat} (h : lastNl t i n = some k) : k ≤ n := by
  induction n with
  | zero => simp [lastNl] at h
  | succ n ih =>
    rw [lastNl] at h
    split at h
    next =>
      cases h
      omega
    next =>
      have := ih h
      omega

theorem spaces_le (hi : i < e) : spaces t i e ≤ e - i := by
  have hscan := @scan_le t (has kW) e i (Nat.le_of_lt hi)
  unfold spaces
  dsimp only
  split
  next n hnl =>
    have := lastNl_le hnl
    omega
  next =>
    split
    next => omega
    next => split <;> omega

theorem marks_le (hi : i < e) : marks t i e ≤ e - i := by
  have hspaces := @spaces_le e t i hi
  have hscan : scan isNl t e (scan (has (kP ||| kS)) t e
      (if t[i]?.any isBlank then i + 1 else i)) ≤ e := by
    apply scan_le
    apply scan_le
    split <;> omega
  unfold marks
  dsimp only
  generalize (if t[i]?.any isBlank then i + 1 else i) = j at hscan ⊢
  split
  next => omega
  next => exact hspaces

theorem words_le (hi : i < e) : words t i e ≤ e - i := by
  have hmarks := @marks_le e t i hi
  have hletter := @scan_le t isAsciiLetter e (i + 1) hi
  have hlead := @scan_le t (has (kL ||| kM)) e (i + 1) hi
  have hword := @scan_le t (has (kL ||| kM)) e i (Nat.le_of_lt hi)
  unfold words
  dsimp only
  split
  next => omega
  next =>
    split
    next => omega
    next => split <;> omega

/-- Whatever the classes, the pieces of a text no place of which passes 32 bits are the text. -/
theorem flatten_pieces (of : Nat → UInt8) {text : Bytes} (hlong : text.length ≤ 2 ^ 32) :
    (pretokenize of text).flatten = text := by
  have hcodes := codePoints_eq of text 0
  have hbytes := symbols_bytes of text 0
  rw [List.drop_zero] at hbytes
  have hlength : (codePoints of text 0).length = (symbols of text 0).length := by
    rw [hcodes, List.length_map]
  have hnumbers : ∀ i e, i < e → numbers (codePoints of text 0) i e ≤ e - i := by
    intro i e hi
    have := @scan_le (codePoints of text 0) (has kN) (min e (i + 3)) i (by omega)
    unfold numbers
    omega
  have hkana : ∀ i e, i < e → kanaHan (codePoints of text 0) i e ≤ e - i := by
    intro i e hi
    have := @scan_le (codePoints of text 0) isKanaHan e i (by omega)
    unfold kanaHan
    omega
  have hwhole : ∀ be ∈ [(0, (codePoints of text 0).length)],
      be.1 ≤ be.2 ∧ be.2 ≤ (codePoints of text 0).length := by
    intro be hbe
    rw [List.mem_singleton.mp hbe]
    exact ⟨Nat.zero_le _, Nat.le_refl _⟩
  have hweak : ∀ {pieces : List (Nat × Nat)}, Within (codePoints of text 0).length pieces →
      ∀ be ∈ pieces, be.1 ≤ be.2 ∧ be.2 ≤ (codePoints of text 0).length :=
    fun h be hbe => ⟨Nat.le_of_lt (h be hbe).1, (h be hbe).2⟩
  have h1 := @cutAll_flatten _ (symbols of text 0) _ numbers hnumbers _ hwhole
  have h2 := @cutAll_flatten _ (symbols of text 0) _ kanaHan hkana _ (hweak h1.2)
  have h3 := @cutAll_flatten _ (symbols of text 0) _ words (fun i e => words_le) _ (hweak h2.2)
  have hflat : ((ranges (codePoints of text 0)).map fun be =>
      slice (symbols of text 0) be.1 be.2).flatten = symbols of text 0 := by
    show ((cutAll _ (cutAll _ (cutAll _ [(0, _)] numbers) kanaHan) words).map _).flatten = _
    rw [h3.1, h2.1, h1.1]
    simp [hlength, slice_all]
  have hpieces : pretokenize of text =
      (ranges (codePoints of text 0)).map fun be =>
        (slice (symbols of text 0) be.1 be.2).flatMap Prod.snd := by
    apply List.map_congr_left
    intro be hbe
    exact textOf_eq hlong (h3.2 be hbe).1 (h3.2 be hbe).2
  have hjoin : ∀ pieces : List (List (CodePoint × Bytes)),
      (pieces.map fun piece => piece.flatMap Prod.snd).flatten =
        pieces.flatten.flatMap Prod.snd := by
    intro pieces
    induction pieces with
    | nil => simp
    | cons piece pieces ih => simp [ih]
  have hmap := hjoin ((ranges (codePoints of text 0)).map fun be =>
    slice (symbols of text 0) be.1 be.2)
  rw [List.map_map, hflat, hbytes] at hmap
  rw [hpieces]
  exact hmap

end Tiles

end JoyaiPieces

namespace Bpe

open BytePairs (bpe int32 lastEntry)
open ByteLetters
open Gguf (MetaValue ValueType byteText find)

inductive Error
  | runtime (what : String)
  | outOfRange
deriving DecidableEq, Repr

structure SpecialToken where
  text : Bytes
  id : Nat
deriving DecidableEq, Repr

/-- What a tokenizer keeps of a model's file: a token's type is 1 where the file gives none. -/
structure Tokenizer where
  vocab : List Bytes
  types : List Nat
  merges : List Bytes
  joyai : Bool
  bosId : Int
  eosId : Int

def quoted (name : Bytes) : String := "'" ++ byteText name ++ "'"

/-- A key the file has must be one of the values implemented. -/
def requireKey (kv : List (Bytes × MetaValue)) (key : Bytes) (implemented : List Bytes) :
    Except Error Unit :=
  match find kv key with
  | none => .ok ()
  | some v =>
    if v.vtype = ValueType.string.id ∧ v.s ∈ implemented then .ok ()
    else
      .error (.runtime ("tokenizer: unsupported " ++ byteText key ++
        (if v.vtype = ValueType.string.id then " " ++ quoted v.s else "") ++ "; implemented: " ++
        String.intercalate ", " (implemented.map quoted)))

def modelKey : Bytes := ascii "tokenizer.ggml.model".toList

def preKey : Bytes := ascii "tokenizer.ggml.pre".toList

def tokensKey : Bytes := ascii "tokenizer.ggml.tokens".toList

def typesKey : Bytes := ascii "tokenizer.ggml.token_type".toList

def mergesKey : Bytes := ascii "tokenizer.ggml.merges".toList

def bosKey : Bytes := ascii "tokenizer.ggml.bos_token_id".toList

def eosKey : Bytes := ascii "tokenizer.ggml.eos_token_id".toList

def joyaiName : Bytes := ascii "joyai-llm".toList

/-- An array's elements, none where the key is missing or no array. -/
def elements (kv : List (Bytes × MetaValue)) (key : Bytes) : List MetaValue :=
  match find kv key with
  | some v => if v.vtype = ValueType.array.id then v.arr else []
  | none => []

def typeOf (e : MetaValue) : Nat :=
  if e.vtype ∈ [ValueType.int8.id, ValueType.int16.id, ValueType.int32.id, ValueType.int64.id] then
    (e.i % 2 ^ 32).toNat
  else e.u % 2 ^ 32

def idKey (kv : List (Bytes × MetaValue)) (key : Bytes) : Int :=
  match find kv key with
  | some v => if v.vtype = ValueType.uint32.id then int32 v.u else -1
  | none => -1

def load (kv : List (Bytes × MetaValue)) : Except Error Tokenizer := do
  requireKey kv modelKey [ascii "gpt2".toList]
  requireKey kv preKey [ascii "qwen2".toList, ascii "qwen35".toList, joyaiName]
  match find kv tokensKey with
  | none => .error (.runtime "tokenizer: missing tokenizer.ggml.tokens")
  | some toks =>
    if toks.vtype ≠ ValueType.array.id then
      .error (.runtime "tokenizer: missing tokenizer.ggml.tokens")
    else
      .ok ⟨toks.arr.map MetaValue.s, (elements kv typesKey).map typeOf,
        (elements kv mergesKey).map MetaValue.s, (find kv preKey).any fun v => v.s == joyaiName,
        idKey kv bosKey, idKey kv eosKey⟩

abbrev Memo := List (Bytes × List Nat)

/-- The longest special token a text begins with, the first of those as long. -/
def longest (specials : List SpecialToken) (text : Bytes) : Option SpecialToken :=
  specials.foldl (fun best sp =>
    if (best.map fun b => b.text.length).getD 0 < sp.text.length ∧ sp.text.isPrefixOf text then
      some sp
    else best) none

namespace Tokenizer

variable (of : Nat → UInt8) (t : Tokenizer)

def isEos (id : Nat) : Bool := 0 ≤ t.eosId && id = (t.eosId % 2 ^ 32).toNat

/-- The control and user-defined tokens. -/
def specials : List SpecialToken :=
  t.vocab.zipIdx.filterMap fun e =>
    if t.types.getD e.2 1 = 3 ∨ t.types.getD e.2 1 = 4 then some ⟨e.1, e.2 % 2 ^ 32⟩ else none

/-- Whether a special token begins with a byte. -/
def specialLead (c : UInt8) : Bool := t.specials.any fun sp => sp.text.head? == some c

def tokenToId (tok : Bytes) : Option Nat := (lastEntry id t.vocab tok).map (· % 2 ^ 32)

def pretokenize (text : Bytes) : List Bytes :=
  if t.joyai then JoyaiPieces.pretokenize of text else QwenPieces.pretokenize text

def symbolId (sym : Bytes) : Except Error Nat :=
  match t.tokenToId sym with
  | some id => .ok id
  | none => .error (.runtime ("tokenizer: symbol not in vocab: " ++ byteText sym))

def wordIds (tok : Bytes) : Except Error (List Nat) :=
  (bpe t.merges (byteEncode tok)).mapM t.symbolId

/-- A piece's ids, from those of the pieces of this call merged before where it is one of them. -/
def addWord (st : Memo × List Nat) (tok : Bytes) : Except Error (Memo × List Nat) :=
  match st.1.lookup tok with
  | some word => .ok (st.1, st.2 ++ word)
  | none => do
    let word ← t.wordIds tok
    return ((tok, word) :: st.1, st.2 ++ word)

def flush (text : Bytes) (start stop : Nat) (st : Memo × List Nat) :
    Except Error (Memo × List Nat) :=
  if start = stop then .ok st
  else (t.pretokenize of ((text.drop start).take (stop - start))).foldlM t.addWord st

def specialAt (text : Bytes) (i : Nat) : Option SpecialToken :=
  if t.specialLead (text.getD i 0) then longest t.specials (text.drop i) else none

end Tokenizer

theorem longest_concat (specials : List SpecialToken) (sp : SpecialToken) (text : Bytes) :
    longest (specials ++ [sp]) text =
      if ((longest specials text).map fun b => b.text.length).getD 0 < sp.text.length ∧
          sp.text.isPrefixOf text then some sp
      else longest specials text := by
  simp [longest]

theorem lastEntry_concat (texts : List Bytes) (text tok : Bytes) :
    lastEntry id (texts ++ [text]) tok =
      if text = tok then some texts.length else lastEntry id texts tok := by
  simp [lastEntry, List.zipIdx_append]

theorem lastEntry_get {texts : List Bytes} {tok : Bytes} {i : Nat}
    (h : lastEntry id texts tok = some i) : texts[i]? = some tok := by
  induction texts using List.reverseRecOn with
  | nil => simp [lastEntry] at h
  | append_singleton texts text ih =>
    rw [lastEntry_concat] at h
    split at h
    next heq =>
      cases h
      simp [heq]
    next =>
      have hget := ih h
      rwa [List.getElem?_append_left (List.getElem?_eq_some_iff.mp hget).1]

/-- What the scan for the longest special token finds. -/
theorem longest_spec (specials : List SpecialToken) (text : Bytes) :
    (∀ sp, longest specials text = some sp → sp ∈ specials ∧ sp.text ≠ [] ∧ sp.text <+: text) ∧
      ∀ sp ∈ specials, sp.text ≠ [] → sp.text <+: text →
        ∃ best, longest specials text = some best ∧ sp.text.length ≤ best.text.length := by
  induction specials using List.reverseRecOn with
  | nil => simp [longest]
  | append_singleton specials sp ih =>
    obtain ⟨hfound, hbest⟩ := ih
    rw [longest_concat]
    by_cases htake : ((longest specials text).map fun b => b.text.length).getD 0 < sp.text.length ∧
        sp.text.isPrefixOf text = true
    · rw [if_pos htake]
      obtain ⟨hlonger, hstarts⟩ := htake
      refine ⟨fun sp' h => ?_, fun sp' hmem hne hpre => ⟨sp, Eq.refl _, ?_⟩⟩
      · cases h
        refine ⟨by simp, fun hnil => ?_, List.isPrefixOf_iff_prefix.mp hstarts⟩
        simp [hnil] at hlonger
      · rcases List.mem_append.mp hmem with hmem | hmem
        · obtain ⟨best, hsome, hle⟩ := hbest sp' hmem hne hpre
          rw [hsome, Option.map_some, Option.getD_some] at hlonger
          omega
        · rw [List.mem_singleton.mp hmem]
    · rw [if_neg htake]
      refine ⟨fun sp' h => ?_, fun sp' hmem hne hpre => ?_⟩
      · obtain ⟨hmem, hne, hpre⟩ := hfound sp' h
        exact ⟨List.mem_append_left _ hmem, hne, hpre⟩
      · rcases List.mem_append.mp hmem with hmem | hmem
        · exact hbest sp' hmem hne hpre
        · obtain rfl := List.mem_singleton.mp hmem
          have hpos : 0 < sp'.text.length := List.length_pos_iff.mpr hne
          cases hsome : longest specials text with
          | none =>
            simp only [hsome, Option.map_none, Option.getD_none] at htake
            exact absurd ⟨hpos, List.isPrefixOf_iff_prefix.mpr hpre⟩ htake
          | some best =>
            simp only [hsome, Option.map_some, Option.getD_some] at htake
            refine ⟨best, Eq.refl _, ?_⟩
            by_contra hlt
            exact htake ⟨by omega, List.isPrefixOf_iff_prefix.mpr hpre⟩

/-- The longest special token a text begins with, of those as long the first of the vocabulary. -/
def FirstLongest (specials : List SpecialToken) (text : Bytes) (sp : SpecialToken) : Prop :=
  sp.text ≠ [] ∧ sp.text <+: text ∧ ∃ before after, specials = before ++ sp :: after ∧
    (∀ x ∈ before, x.text <+: text → x.text.length < sp.text.length) ∧
      ∀ x ∈ after, x.text <+: text → x.text.length ≤ sp.text.length

theorem firstLongest_longest {specials : List SpecialToken} {text : Bytes} {sp : SpecialToken}
    (h : longest specials text = some sp) : FirstLongest specials text sp := by
  induction specials using List.reverseRecOn with
  | nil => simp [longest] at h
  | append_singleton specials last ih =>
    obtain ⟨-, hbest⟩ := longest_spec specials text
    rw [longest_concat] at h
    by_cases htake : ((longest specials text).map fun b => b.text.length).getD 0 <
        last.text.length ∧ last.text.isPrefixOf text = true
    · rw [if_pos htake] at h
      cases h
      obtain ⟨hlonger, hstarts⟩ := htake
      refine ⟨fun hnil => by simp [hnil] at hlonger, List.isPrefixOf_iff_prefix.mp hstarts,
        specials, [], Eq.refl _, fun x hx hpre => ?_, by simp⟩
      by_cases hnil : x.text = []
      · rw [hnil, List.length_nil]
        omega
      · obtain ⟨best, hsome, hle⟩ := hbest x hx hnil hpre
        rw [hsome, Option.map_some, Option.getD_some] at hlonger
        omega
    · rw [if_neg htake] at h
      obtain ⟨hne, hpre, before, after, hsplit, hbefore, hafter⟩ := ih h
      refine ⟨hne, hpre, before, after ++ [last], by simp [hsplit], hbefore, fun x hx hx' => ?_⟩
      rcases List.mem_append.mp hx with hx | hx
      · exact hafter x hx hx'
      · rw [List.mem_singleton.mp hx] at hx' ⊢
        by_contra hlt
        apply htake
        rw [h]
        exact ⟨by simp; omega, List.isPrefixOf_iff_prefix.mpr hx'⟩

/-- A text cut at its special tokens: none begins at a byte before a cut or in the tail, and each
is the longest at its place. -/
inductive Cuts (specials : List SpecialToken) : Bytes → List (Bytes × SpecialToken) → Bytes → Prop
  | tail {text : Bytes} :
    (∀ k < text.length, ∀ sp ∈ specials, sp.text ≠ [] → ¬ sp.text <+: text.drop k) →
      Cuts specials text [] text
  | next {text gap rest tail : Bytes} {cuts : List (Bytes × SpecialToken)} {sp : SpecialToken} :
    text = gap ++ (sp.text ++ rest) →
    (∀ k < gap.length, ∀ sp ∈ specials, sp.text ≠ [] → ¬ sp.text <+: text.drop k) →
    FirstLongest specials (sp.text ++ rest) sp → Cuts specials rest cuts tail →
      Cuts specials text ((gap, sp) :: cuts) tail

theorem FirstLongest.unique {specials : List SpecialToken} {text : Bytes} {sp sp' : SpecialToken}
    (h : FirstLongest specials text sp) (h' : FirstLongest specials text sp') : sp = sp' := by
  obtain ⟨-, hpre, before, after, hsplit, hbefore, hafter⟩ := h
  obtain ⟨-, hpre', before', after', hsplit', hbefore', hafter'⟩ := h'
  rw [hsplit] at hsplit'
  obtain ⟨mid, hmid, heq⟩ | ⟨mid, hmid, heq⟩ := List.append_eq_append_iff.mp hsplit'
  · cases mid with
    | nil => exact (List.cons.inj heq).1
    | cons x mid =>
      obtain ⟨rfl, hrest⟩ := List.cons.inj heq
      have hlt := hbefore' sp (by simp [hmid]) hpre
      have hle := hafter sp' (by simp [hrest]) hpre'
      omega
  · cases mid with
    | nil => exact (List.cons.inj heq).1.symm
    | cons x mid =>
      obtain ⟨rfl, hrest⟩ := List.cons.inj heq
      have hlt := hbefore sp' (by simp [hmid]) hpre'
      have hle := hafter' sp (by simp [hrest]) hpre
      omega

theorem not_prefix_gap {specials : List SpecialToken} {gap rest : Bytes} {sp : SpecialToken}
    (h : FirstLongest specials (sp.text ++ rest) sp) :
    sp ∈ specials ∧ sp.text ≠ [] ∧ sp.text <+: (gap ++ (sp.text ++ rest)).drop gap.length := by
  obtain ⟨hne, -, before, after, hsplit, -⟩ := h
  refine ⟨by simp [hsplit], hne, ?_⟩
  rw [List.drop_left]
  exact List.prefix_append _ _

/-- A text is cut in one way only. -/
theorem Cuts.unique {specials : List SpecialToken} {text tail tail' : Bytes}
    {cuts cuts' : List (Bytes × SpecialToken)} (h : Cuts specials text cuts tail)
    (h' : Cuts specials text cuts' tail') : cuts = cuts' ∧ tail = tail' := by
  induction h generalizing cuts' tail' with
  | tail hnone =>
    cases h' with
    | tail => exact ⟨Eq.refl _, Eq.refl _⟩
    | @next _ gap rest _ cuts sp htext hgap hfirst hrest =>
      obtain ⟨hmem, hne, hpre⟩ := @not_prefix_gap specials gap rest sp hfirst
      rw [← htext] at hpre
      have hpos := List.length_pos_iff.mpr hne
      have hlen := congrArg List.length htext
      rw [List.length_append, List.length_append] at hlen
      exact absurd hpre (hnone gap.length (by omega) sp hmem hne)
  | @next text gap rest tail cuts sp htext hgap hfirst hrest ih =>
    obtain ⟨hmem, hne, hpre⟩ := @not_prefix_gap specials gap rest sp hfirst
    rw [← htext] at hpre
    cases h' with
    | tail hnone =>
      have hpos := List.length_pos_iff.mpr hne
      have hlen := congrArg List.length htext
      rw [List.length_append, List.length_append] at hlen
      exact absurd hpre (hnone gap.length (by omega) sp hmem hne)
    | @next _ gap' rest' _ cuts' sp' htext' hgap' hfirst' hrest' =>
      obtain ⟨hmem', hne', hpre'⟩ := @not_prefix_gap specials gap' rest' sp' hfirst'
      rw [← htext'] at hpre'
      have hlen : gap.length = gap'.length := by
        by_contra hdiff
        rcases Nat.lt_or_gt_of_ne hdiff with hlt | hlt
        · exact hgap' gap.length hlt sp hmem hne hpre
        · exact hgap gap'.length hlt sp' hmem' hne' hpre'
      obtain ⟨rfl, hcont⟩ := List.append_inj (htext.symm.trans htext') hlen
      rw [← hcont] at hfirst'
      obtain rfl := hfirst.unique hfirst'
      obtain rfl := List.append_cancel_left hcont
      obtain ⟨rfl, rfl⟩ := ih hrest'
      exact ⟨Eq.refl _, Eq.refl _⟩

/-- The cuts and the tail make up the text. -/
theorem Cuts.text {specials : List SpecialToken} {text tail : Bytes}
    {cuts : List (Bytes × SpecialToken)} (h : Cuts specials text cuts tail) :
    text = cuts.flatMap (fun cut => cut.1 ++ cut.2.text) ++ tail ∧
      ∀ cut ∈ cuts, cut.2 ∈ specials := by
  induction h with
  | tail => simp
  | @next text gap rest tail cuts sp htext hgap hfirst hrest ih =>
    obtain ⟨hmem, -, -⟩ := @not_prefix_gap specials gap rest sp hfirst
    refine ⟨?_, List.forall_mem_cons.mpr ⟨hmem, ih.2⟩⟩
    rw [htext]
    conv_lhs => rw [ih.1]
    simp

namespace Tokenizer

variable {of : Nat → UInt8} {t : Tokenizer} {text : Bytes}

/-- Skipping the bytes no special token begins with loses none. -/
theorem specialAt_eq {i : Nat} (hi : i < text.length) :
    t.specialAt text i = longest t.specials (text.drop i) := by
  unfold specialAt
  split
  next => exact Eq.refl _
  next hlead =>
    cases hlong : longest t.specials (text.drop i) with
    | none => exact Eq.refl _
    | some sp =>
      obtain ⟨hmem, hne, hpre⟩ := (longest_spec t.specials (text.drop i)).1 sp hlong
      obtain ⟨rest, hrest⟩ := hpre
      obtain ⟨c, cs, hcs⟩ := List.exists_cons_of_ne_nil hne
      have hhead : text.getD i 0 = c := by
        rw [QwenPieces.drop_eq hi, hcs, List.cons_append] at hrest
        exact (List.cons.inj hrest).1.symm
      exfalso
      apply hlead
      unfold specialLead
      rw [hhead]
      refine List.any_eq_true.mpr ⟨sp, hmem, ?_⟩
      simp [hcs]

theorem specialAt_some {i : Nat} (hi : i < text.length) {sp : SpecialToken}
    (h : t.specialAt text i = some sp) :
    sp ∈ t.specials ∧ 0 < sp.text.length ∧ ∃ rest, text.drop i = sp.text ++ rest := by
  rw [specialAt_eq hi] at h
  obtain ⟨hmem, hne, rest, hrest⟩ := (longest_spec t.specials (text.drop i)).1 sp h
  exact ⟨hmem, List.length_pos_iff.mpr hne, rest, hrest.symm⟩

variable (of t) in
/-- The ids of a text from byte `i` on, its text from `start` on not yet merged. -/
def encodeFrom (text : Bytes) (start i : Nat) (st : Memo × List Nat) : Except Error (List Nat) :=
  if _hi : i < text.length then
    match h : t.specialAt text i with
    | some sp =>
      (t.flush of text start i st).bind fun st =>
        encodeFrom text (i + sp.text.length) (i + sp.text.length) (st.1, st.2 ++ [sp.id])
    | none => encodeFrom text start (i + 1) st
  else (t.flush of text start text.length st).map Prod.snd
termination_by text.length - i
decreasing_by
  · have := (specialAt_some _hi h).2.1
    omega
  · omega

variable (of t) in
def encode (text : Bytes) : Except Error (List Nat) := t.encodeFrom of text 0 0 ([], [])

variable (t) in
def addToken (out : Bytes) (id : Nat) : Except Error Bytes :=
  match t.vocab[id]? with
  | some tok => .ok (out ++ decodeToken tok)
  | none => .error .outOfRange

variable (t) in
def decode (ids : List Nat) : Except Error Bytes := ids.foldlM t.addToken []

theorem encodeFrom_special {start i : Nat} {st : Memo × List Nat} (hi : i < text.length)
    {sp : SpecialToken} (h : t.specialAt text i = some sp) :
    t.encodeFrom of text start i st =
      (t.flush of text start i st).bind fun st =>
        t.encodeFrom of text (i + sp.text.length) (i + sp.text.length) (st.1, st.2 ++ [sp.id]) := by
  rw [encodeFrom, dif_pos hi]
  split
  next sp' hsome =>
    rw [h] at hsome
    cases hsome
    exact Eq.refl _
  next hnone =>
    rw [h] at hnone
    cases hnone

theorem encodeFrom_plain {start i : Nat} {st : Memo × List Nat} (hi : i < text.length)
    (h : t.specialAt text i = none) :
    t.encodeFrom of text start i st = t.encodeFrom of text start (i + 1) st := by
  rw [encodeFrom, dif_pos hi]
  split
  next sp' hsome =>
    rw [h] at hsome
    cases hsome
  next => exact Eq.refl _

theorem encodeFrom_end {start i : Nat} {st : Memo × List Nat} (hi : ¬ i < text.length) :
    t.encodeFrom of text start i st = (t.flush of text start text.length st).map Prod.snd := by
  rw [encodeFrom, dif_neg hi]

/-- Ids in the vocabulary and the text their tokens read back as. -/
def Reads (t : Tokenizer) (ids : List Nat) (out : Bytes) : Prop :=
  ∃ toks : List Bytes, List.Forall₂ (fun id tok => t.vocab[id]? = some tok) ids toks ∧
    out = toks.flatMap decodeToken

theorem Reads.nil : t.Reads [] [] := ⟨[], .nil, by simp⟩

theorem Reads.append {ids ids' : List Nat} {out out' : Bytes} (h : t.Reads ids out)
    (h' : t.Reads ids' out') : t.Reads (ids ++ ids') (out ++ out') := by
  obtain ⟨toks, htoks, rfl⟩ := h
  obtain ⟨toks', htoks', rfl⟩ := h'
  exact ⟨toks ++ toks', List.rel_append htoks htoks', by simp⟩

theorem Reads.one {id : Nat} {tok : Bytes} (h : t.vocab[id]? = some tok) :
    t.Reads [id] (decodeToken tok) :=
  ⟨[tok], .cons h .nil, by simp⟩

theorem decode_reads {ids : List Nat} {out : Bytes} (h : t.Reads ids out) :
    t.decode ids = .ok out := by
  obtain ⟨toks, htoks, rfl⟩ := h
  have hall : ∀ out : Bytes,
      ids.foldlM t.addToken out = .ok (out ++ toks.flatMap decodeToken) := by
    induction htoks with
    | nil =>
      intro out
      simp [pure, Except.pure]
    | cons hid hrest ih =>
      intro out
      simp [addToken, hid, Fallible.ok_bind, ih]
  have := hall []
  rwa [List.nil_append] at this

theorem getElem?_specials {sp : SpecialToken} (hvocab : t.vocab.length ≤ 2 ^ 32)
    (h : sp ∈ t.specials) : t.vocab[sp.id]? = some sp.text := by
  obtain ⟨e, he, hsome⟩ := List.mem_filterMap.mp h
  obtain ⟨tok, i⟩ := e
  split at hsome
  next =>
    cases hsome
    have hget := List.mem_zipIdx_iff_getElem?.mp he
    obtain ⟨hlt, -⟩ := List.getElem?_eq_some_iff.mp hget
    show t.vocab[i % 2 ^ 32]? = some tok
    rwa [Nat.mod_eq_of_lt (by omega)]
  next => cases hsome

theorem getElem?_tokenToId {tok : Bytes} {id : Nat} (hvocab : t.vocab.length ≤ 2 ^ 32)
    (h : t.tokenToId tok = some id) : t.vocab[id]? = some tok := by
  obtain ⟨i, hi, hid⟩ := Option.map_eq_some_iff.mp h
  have hget := lastEntry_get hi
  obtain ⟨hlt, -⟩ := List.getElem?_eq_some_iff.mp hget
  rw [← hid, Nat.mod_eq_of_lt (by omega)]
  exact hget

theorem flatten_pretokenize (hlong : t.joyai = true → text.length ≤ 2 ^ 32) :
    (t.pretokenize of text).flatten = text := by
  unfold pretokenize
  split
  next h => exact JoyaiPieces.flatten_pieces of (hlong h)
  next => exact (QwenPieces.piecesFrom_successive text 0).flatten

theorem reads_wordIds {tok : Bytes} {ids : List Nat} (hvocab : t.vocab.length ≤ 2 ^ 32)
    (h : t.wordIds tok = .ok ids) : t.Reads ids tok := by
  obtain ⟨parts, hparts, hflat⟩ := bpe_byteEncode t.merges tok
  have hall := Fallible.mapM_ok_iff.mp h
  refine ⟨bpe t.merges (byteEncode tok), ?_, ?_⟩
  · refine hall.flip.imp fun id sym hid => ?_
    cases hsome : t.tokenToId sym with
    | none => simp [symbolId, hsome] at hid
    | some id' =>
      simp only [symbolId, hsome, Except.ok.injEq] at hid
      rw [← hid]
      exact getElem?_tokenToId hvocab hsome
  · rw [hparts, List.flatMap_map, ← hflat]
    simp [decodeToken_byteEncode, List.flatMap_def]

/-- A memo holds what merging would give. -/
def Sound (t : Tokenizer) (memo : Memo) : Prop :=
  ∀ tok word, memo.lookup tok = some word → t.wordIds tok = .ok word

theorem addWord_eq {st : Memo × List Nat} (hs : t.Sound st.1) (tok : Bytes) :
    ∃ memo, t.Sound memo ∧
      t.addWord st tok = (t.wordIds tok).map fun word => (memo, st.2 ++ word) := by
  unfold addWord
  cases hlook : st.1.lookup tok with
  | some word => exact ⟨st.1, hs, by rw [hs tok word hlook]; simp [Except.map]⟩
  | none =>
    cases hword : t.wordIds tok with
    | error e => exact ⟨st.1, hs, by simp [Except.map, bind, Except.bind]⟩
    | ok word =>
      refine ⟨(tok, word) :: st.1, fun tok' word' h => ?_, by simp [Except.map, bind, Except.bind,
        pure, Except.pure]⟩
      rw [List.lookup_cons] at h
      split at h
      next heq =>
        rw [beq_iff_eq.mp heq, hword, Option.some.inj h]
      next => exact hs tok' word' h

variable (of t) in
/-- The ids of a text with no special token, every piece merged. -/
def plainIds (text : Bytes) : Except Error (List Nat) :=
  if text = [] then .ok []
  else ((t.pretokenize of text).mapM t.wordIds).map List.flatten

theorem addWords_eq {st : Memo × List Nat} (hs : t.Sound st.1) (toks : List Bytes) :
    ∃ memo, t.Sound memo ∧
      toks.foldlM t.addWord st = (toks.mapM t.wordIds).map fun words =>
        (memo, st.2 ++ words.flatten) := by
  induction toks generalizing st with
  | nil => exact ⟨st.1, hs, by simp [pure, Except.pure, Except.map]⟩
  | cons tok toks ih =>
    obtain ⟨memo, hmemo, hadd⟩ := addWord_eq hs tok
    cases hword : t.wordIds tok with
    | error e =>
      refine ⟨memo, hmemo, ?_⟩
      simp [hadd, hword, Except.map, bind, Except.bind]
    | ok word =>
      obtain ⟨memo', hmemo', hrest⟩ := @ih (memo, st.2 ++ word) hmemo
      refine ⟨memo', hmemo', ?_⟩
      rw [List.foldlM_cons, List.mapM_cons, hadd, hword]
      show toks.foldlM t.addWord (memo, st.2 ++ word) = _
      rw [hrest, Fallible.ok_bind]
      cases toks.mapM t.wordIds with
      | error e => simp [Except.map, bind, Except.bind]
      | ok words => simp [Except.map, bind, Except.bind, pure, Except.pure]

/-- What is remembered of the call does not show. -/
theorem flush_eq {start stop : Nat} {st : Memo × List Nat} (hs : t.Sound st.1) (hle : start ≤ stop)
    (hstop : stop ≤ text.length) :
    ∃ memo, t.Sound memo ∧
      t.flush of text start stop st =
        (t.plainIds of ((text.drop start).take (stop - start))).map fun ids =>
          (memo, st.2 ++ ids) := by
  have hlen : ((text.drop start).take (stop - start)).length = stop - start := by
    simp
    omega
  unfold flush plainIds
  by_cases heq : start = stop
  · subst heq
    exact ⟨st.1, hs, by simp [Except.map]⟩
  · have hne : (text.drop start).take (stop - start) ≠ [] := by
      intro hnil
      rw [hnil, List.length_nil] at hlen
      omega
    obtain ⟨memo, hmemo, hadd⟩ := addWords_eq hs
      (t.pretokenize of ((text.drop start).take (stop - start)))
    refine ⟨memo, hmemo, ?_⟩
    rw [if_neg heq, if_neg hne, hadd]
    cases (t.pretokenize of ((text.drop start).take (stop - start))).mapM t.wordIds with
    | error e => simp [Except.map]
    | ok words => simp [Except.map]

variable (of t) in
/-- The ids of a text by its cuts. -/
def cutsIds (tail : Bytes) : List (Bytes × SpecialToken) → Except Error (List Nat)
  | [] => t.plainIds of tail
  | cut :: cuts =>
    (t.plainIds of cut.1).bind fun ids =>
      (cutsIds tail cuts).map fun rest => ids ++ cut.2.id :: rest

theorem specialAt_none {i : Nat} (hi : i < text.length) (h : t.specialAt text i = none) :
    ∀ sp ∈ t.specials, sp.text ≠ [] → ¬ sp.text <+: text.drop i := by
  intro sp hmem hne hpre
  rw [specialAt_eq hi] at h
  obtain ⟨best, hbest, -⟩ := (longest_spec t.specials (text.drop i)).2 sp hmem hne hpre
  rw [h] at hbest
  cases hbest

theorem drop_split {start i : Nat} (h : start ≤ i) :
    text.drop start = (text.drop start).take (i - start) ++ text.drop i := by
  have hdrop : text.drop i = (text.drop start).drop (i - start) := by
    rw [List.drop_drop, Nat.add_sub_cancel' h]
  rw [hdrop, List.take_append_drop]

/-- The loop's ids are those of the cuts. -/
theorem encodeFrom_cuts (start i : Nat) (st : Memo × List Nat) (hs : t.Sound st.1)
    (hle : start ≤ i) (hin : i ≤ text.length)
    (hnone : ∀ k, start ≤ k → k < i → ∀ sp ∈ t.specials, sp.text ≠ [] →
      ¬ sp.text <+: text.drop k) :
    ∃ cuts tail, Cuts t.specials (text.drop start) cuts tail ∧
      t.encodeFrom of text start i st = (t.cutsIds of tail cuts).map fun ids => st.2 ++ ids := by
  generalize hn : text.length - i = n
  induction n using Nat.strongRecOn generalizing start i st with
  | ind n ih =>
    by_cases hi : i < text.length
    · cases hsp : t.specialAt text i with
      | none =>
        have hnone' : ∀ k, start ≤ k → k < i + 1 → ∀ sp ∈ t.specials, sp.text ≠ [] →
            ¬ sp.text <+: text.drop k := by
          intro k hk hlt
          by_cases heq : k = i
          · rw [heq]
            exact specialAt_none hi hsp
          · exact hnone k hk (by omega)
        rw [encodeFrom_plain hi hsp]
        exact ih (text.length - (i + 1)) (by omega) start (i + 1) st hs (by omega) hi hnone'
          (Eq.refl _)
      | some sp =>
        obtain ⟨-, hpos, rest, hrest⟩ := specialAt_some hi hsp
        have hlong := firstLongest_longest ((specialAt_eq hi).symm.trans hsp)
        have hlen := congrArg List.length hrest
        rw [List.length_drop, List.length_append] at hlen
        have hafter : text.drop (i + sp.text.length) = rest := by
          rw [← List.drop_drop, hrest, List.drop_left]
        obtain ⟨memo, hmemo, hflush⟩ := @flush_eq of t text start i st hs hle hin
        have hgap : ((text.drop start).take (i - start)).length = i - start := by
          simp
          omega
        have hbefore : ∀ k < ((text.drop start).take (i - start)).length, ∀ sp ∈ t.specials,
            sp.text ≠ [] → ¬ sp.text <+: (text.drop start).drop k := by
          intro k hk
          rw [List.drop_drop]
          exact hnone (start + k) (by omega) (by omega)
        rw [encodeFrom_special hi hsp, hflush]
        have hstep := fun ids => ih (text.length - (i + sp.text.length)) (by omega)
          (i + sp.text.length) (i + sp.text.length) (memo, ids) hmemo (Nat.le_refl _) (by omega)
          (fun k hk hlt => by omega) (Eq.refl _)
        rw [hafter] at hstep
        have hsplit := @drop_split text start i hle
        rw [hrest] at hsplit hlong
        generalize (text.drop start).take (i - start) = gap at *
        cases hids : t.plainIds of gap with
        | error e =>
          obtain ⟨cuts, tail, hcuts, -⟩ := hstep []
          exact ⟨(gap, sp) :: cuts, tail, .next hsplit hbefore hlong hcuts, by
            simp [cutsIds, hids, Except.map, Except.bind]⟩
        | ok ids =>
          obtain ⟨cuts, tail, hcuts, heq⟩ := hstep (st.2 ++ ids ++ [sp.id])
          refine ⟨(gap, sp) :: cuts, tail, .next hsplit hbefore hlong hcuts, ?_⟩
          have hgo : (t.encodeFrom of text (i + sp.text.length) (i + sp.text.length)
              (memo, st.2 ++ ids ++ [sp.id])) =
                (t.cutsIds of tail cuts).map fun rest => st.2 ++ ids ++ [sp.id] ++ rest := heq
          simp only [cutsIds, hids, Except.map, Except.bind] at hgo ⊢
          rw [hgo]
          cases t.cutsIds of tail cuts with
          | error e => simp
          | ok rest => simp
    · obtain rfl : i = text.length := by omega
      obtain ⟨memo, -, hflush⟩ := @flush_eq of t text start text.length st hs hle (Nat.le_refl _)
      have htake : (text.drop start).take (text.length - start) = text.drop start := by
        apply List.take_of_length_le
        simp
      refine ⟨[], text.drop start, .tail fun k hk => ?_, ?_⟩
      · rw [List.length_drop] at hk
        rw [List.drop_drop]
        exact hnone (start + k) (by omega) (by omega)
      · rw [encodeFrom_end hi, hflush, htake, cutsIds]
        cases t.plainIds of (text.drop start) with
        | error e => simp [Except.map]
        | ok ids => simp [Except.map]

theorem sound_nil : t.Sound [] := fun _ _ h => by simp at h

theorem encode_eq_cuts (of : Nat → UInt8) (t : Tokenizer) (text : Bytes) :
    ∃ cuts tail, Cuts t.specials text cuts tail ∧ t.encode of text = t.cutsIds of tail cuts := by
  obtain ⟨cuts, tail, hcuts, heq⟩ := @encodeFrom_cuts of t text 0 0 ([], []) sound_nil
    (Nat.le_refl _) (Nat.zero_le _) fun k _ hk => absurd hk (Nat.not_lt_zero k)
  refine ⟨cuts, tail, hcuts, ?_⟩
  unfold encode
  rw [heq]
  cases t.cutsIds of tail cuts with
  | error e => simp [Except.map]
  | ok ids => simp [Except.map]

/-- Encoding is by the cuts: at each place the longest special token, the first of those as long,
no other place of the text before it beginning one, and between them the pieces of the pretokenizer,
each merged on its own; what is remembered within a call and the bytes skipped change nothing, not
even the error. -/
theorem encode_cuts (of : Nat → UInt8) (t : Tokenizer) (text : Bytes) :
    ∃ cuts tail, Cuts t.specials text cuts tail ∧
      (∀ cuts' tail', Cuts t.specials text cuts' tail' → cuts' = cuts ∧ tail' = tail) ∧
        t.encode of text = t.cutsIds of tail cuts := by
  obtain ⟨cuts, tail, hcuts, heq⟩ := encode_eq_cuts of t text
  exact ⟨cuts, tail, hcuts, fun cuts' tail' h => h.unique hcuts, heq⟩

theorem reads_plainIds {ids : List Nat} (hvocab : t.vocab.length ≤ 2 ^ 32)
    (hlong : t.joyai = true → text.length ≤ 2 ^ 32) (h : t.plainIds of text = .ok ids) :
    t.Reads ids text := by
  unfold plainIds at h
  split at h
  next hnil =>
    cases h
    rw [hnil]
    exact .nil
  next =>
    obtain ⟨words, hwords, rfl⟩ := Fallible.exists_of_map h
    have hall := Fallible.mapM_ok_iff.mp hwords
    have hflat := @flatten_pretokenize of t text hlong
    rw [← hflat]
    generalize t.pretokenize of text = toks at hall
    clear hflat hwords h
    induction hall with
    | nil => exact .nil
    | cons hword hrest ih => exact (reads_wordIds hvocab hword).append ih

/-- What the ids of the cuts read back as: each special token's text read as letters. -/
theorem reads_cutsIds {ids : List Nat} {tail : Bytes} (hvocab : t.vocab.length ≤ 2 ^ 32)
    {cuts : List (Bytes × SpecialToken)} (hmem : ∀ cut ∈ cuts, cut.2 ∈ t.specials)
    (hlong : t.joyai = true →
      (cuts.flatMap (fun cut => cut.1 ++ cut.2.text) ++ tail).length ≤ 2 ^ 32)
    (h : t.cutsIds of tail cuts = .ok ids) :
    t.Reads ids (cuts.flatMap (fun cut => cut.1 ++ decodeToken cut.2.text) ++ tail) := by
  induction cuts generalizing ids with
  | nil => exact reads_plainIds hvocab hlong h
  | cons cut cuts ih =>
    obtain ⟨hcut, hrest⟩ := List.forall_mem_cons.mp hmem
    obtain ⟨gapIds, hgap, h⟩ := Fallible.exists_of_bind h
    obtain ⟨restIds, hids, rfl⟩ := Fallible.exists_of_map h
    simp only [List.flatMap_cons, List.length_append] at hlong
    have htail := ih hrest (fun hj => by have := hlong hj; rw [List.length_append]; omega) hids
    have hgaps := @reads_plainIds of t cut.1 gapIds hvocab
      (fun hj => by have := hlong hj; omega) hgap
    have hone := Reads.one (getElem?_specials hvocab hcut)
    have := hgaps.append (hone.append htail)
    rw [List.flatMap_cons]
    simpa using this

theorem decode_iff {ids : List Nat} {out : Bytes} (h : t.Reads ids out) :
    t.decode ids = .ok text ↔ out = text := by
  rw [decode_reads h]
  exact ⟨Except.ok.inj, fun heq => by rw [heq]⟩

/-- Texts read back through their special tokens are whole exactly where each is clean. -/
theorem flatMap_clean {cuts : List (Bytes × SpecialToken)} :
    (cuts.flatMap fun cut => cut.1 ++ decodeToken cut.2.text).length ≤
        (cuts.flatMap fun cut => cut.1 ++ cut.2.text).length ∧
      ((cuts.flatMap fun cut => cut.1 ++ decodeToken cut.2.text) =
          cuts.flatMap (fun cut => cut.1 ++ cut.2.text) ↔ ∀ cut ∈ cuts, Clean cut.2.text) := by
  have hlength : (cuts.flatMap fun cut => cut.1 ++ decodeToken cut.2.text).length ≤
        (cuts.flatMap fun cut => cut.1 ++ cut.2.text).length ∧
      ((cuts.flatMap fun cut => cut.1 ++ decodeToken cut.2.text).length =
          (cuts.flatMap fun cut => cut.1 ++ cut.2.text).length → ∀ cut ∈ cuts, Clean cut.2.text) := by
    induction cuts with
    | nil => simp
    | cons cut cuts ih =>
      have hcut := decodeToken_length cut.2.text
      rw [List.forall_mem_cons, ← hcut.2]
      simp only [List.flatMap_cons, List.length_append]
      refine ⟨by omega, fun h => ⟨by omega, ih.2 (by omega)⟩⟩
  refine ⟨hlength.1, fun h => hlength.2 (congrArg List.length h), fun h => ?_⟩
  apply List.flatMap_congr
  intro cut hcut
  rw [decodeToken_clean (h cut hcut)]

theorem encode_eq_cutsIds {tail : Bytes} {cuts : List (Bytes × SpecialToken)}
    (h : Cuts t.specials text cuts tail) : t.encode of text = t.cutsIds of tail cuts := by
  obtain ⟨cuts', tail', hcuts', heq⟩ := encode_eq_cuts of t text
  obtain ⟨rfl, rfl⟩ := h.unique hcuts'
  exact heq

theorem decode_cuts {ids : List Nat} {tail : Bytes} {cuts : List (Bytes × SpecialToken)}
    (hvocab : t.vocab.length ≤ 2 ^ 32) (hlong : t.joyai = true → text.length ≤ 2 ^ 32)
    (hids : t.encode of text = .ok ids) (hcuts : Cuts t.specials text cuts tail) :
    t.decode ids = .ok text ↔ ∀ cut ∈ cuts, Clean cut.2.text := by
  rw [encode_eq_cutsIds hcuts] at hids
  obtain ⟨htext, hmem⟩ := hcuts.text
  have hreads := reads_cutsIds hvocab hmem (fun hj => by rw [← htext]; exact hlong hj) hids
  rw [decode_iff hreads, ← flatMap_clean.2]
  conv_lhs => rw [htext]
  rw [List.append_left_inj]

/-- A special token's own text is cut at one token, of the same text. -/
theorem cuts_special {sp : SpecialToken} (hmem : sp ∈ t.specials) (hne : sp.text ≠ []) :
    ∃ best, best.text = sp.text ∧ Cuts t.specials sp.text [([], best)] [] ∧
      t.encode of sp.text = .ok [best.id] := by
  obtain ⟨best, hbest, hle⟩ := (longest_spec t.specials sp.text).2 sp hmem hne (List.prefix_refl _)
  obtain ⟨-, -, hpre⟩ := (longest_spec t.specials sp.text).1 best hbest
  have htext : best.text = sp.text := hpre.eq_of_length (Nat.le_antisymm hpre.length_le hle)
  have hcuts : Cuts t.specials sp.text [([], best)] [] := by
    have hfirst : FirstLongest t.specials (best.text ++ []) best := by
      rw [List.append_nil, htext]
      exact firstLongest_longest hbest
    have hnil : Cuts t.specials [] [] [] := .tail fun k hk => absurd hk (Nat.not_lt_zero k)
    have hsplit : sp.text = [] ++ (best.text ++ []) := by simp [htext]
    exact .next hsplit (fun k hk => absurd hk (Nat.not_lt_zero k)) hfirst hnil
  refine ⟨best, htext, hcuts, ?_⟩
  rw [encode_eq_cutsIds hcuts]
  simp [cutsIds, plainIds, Except.bind, Except.map]

/-- Decoding undoes encoding exactly where every special token the text is cut at is clean, and for
every text exactly where every special token of the vocabulary is. -/
theorem decode_encode (of : Nat → UInt8) (t : Tokenizer) (hvocab : t.vocab.length ≤ 2 ^ 32) :
    (∀ text ids, (t.joyai = true → text.length ≤ 2 ^ 32) → t.encode of text = .ok ids →
      ∀ cuts tail, Cuts t.specials text cuts tail →
        (t.decode ids = .ok text ↔ ∀ cut ∈ cuts, Clean cut.2.text)) ∧
    ((∀ text ids, (t.joyai = true → text.length ≤ 2 ^ 32) → t.encode of text = .ok ids →
      t.decode ids = .ok text) ↔
        ∀ sp ∈ t.specials, (t.joyai = true → sp.text.length ≤ 2 ^ 32) → Clean sp.text) := by
  refine ⟨fun text ids hlong hids cuts tail => decode_cuts hvocab hlong hids, ?_, ?_⟩
  · intro hall sp hmem hlong
    by_cases hne : sp.text = []
    · rw [hne]
      simp [Clean, characters_nil]
    · obtain ⟨best, htext, hcuts, hids⟩ := @cuts_special of t sp hmem hne
      have h := (decode_cuts hvocab hlong hids hcuts).mp (hall sp.text _ hlong hids)
      rw [← htext]
      exact h _ List.mem_cons_self
  · intro hclean text ids hlong hids
    obtain ⟨cuts, tail, hcuts, -⟩ := encode_eq_cuts of t text
    obtain ⟨htext, hmem⟩ := hcuts.text
    refine (decode_cuts hvocab hlong hids hcuts).mpr fun cut hcut => ?_
    refine hclean cut.2 (hmem cut hcut) fun hj => ?_
    have hle := (List.sublist_flatten_of_mem (List.mem_map_of_mem (f := fun cut :
      Bytes × SpecialToken => cut.1 ++ cut.2.text) hcut)).length_le
    rw [← List.flatMap_def, List.length_append] at hle
    have := hlong hj
    rw [htext, List.length_append] at this
    omega

/-- A vocabulary of one letter and one special token. -/
def ofSpecial (special : Bytes) : Tokenizer := ⟨[[97], special], [1, 3], [], false, -1, -1⟩

theorem decode_encode_special :
    (∀ text ids, (ofSpecial [60, 115, 62]).encode (fun _ => 0) text = .ok ids →
      (ofSpecial [60, 115, 62]).decode ids = .ok text) ∧
    ¬ ∀ text ids, (ofSpecial (byteToChar 32)).encode (fun _ => 0) text = .ok ids →
      (ofSpecial (byteToChar 32)).decode ids = .ok text := by
  have hspecials : ∀ special, (ofSpecial special).specials = [⟨special, 1⟩] := by
    intro special
    simp [specials, ofSpecial]
  have hletter : ∀ special, ¬ Clean special →
      ¬ ∀ text ids, (ofSpecial special).encode (fun _ => 0) text = .ok ids →
        (ofSpecial special).decode ids = .ok text := by
    intro special hnot hall
    apply hnot
    have hmem : (⟨special, 1⟩ : SpecialToken) ∈ (ofSpecial special).specials := by
      simp [hspecials]
    have hqwen : (ofSpecial special).joyai = true → special.length ≤ 2 ^ 32 :=
      fun h => absurd h Bool.false_ne_true
    exact (decode_encode (fun _ => 0) (ofSpecial special) (by simp [ofSpecial])).2.mp
      (fun text ids _ => hall text ids) _ hmem hqwen
  have hspace : byteToChar 32 ≠ [32] := by decide +kernel
  refine ⟨?_, hletter _ (not_clean_letter hspace)⟩
  have hclean : ∀ sp ∈ (ofSpecial [60, 115, 62]).specials,
      ((ofSpecial [60, 115, 62]).joyai = true → sp.text.length ≤ 2 ^ 32) → Clean sp.text := by
    intro sp hsp _
    have hascii : ∀ c ∈ ([60, 115, 62] : Bytes), c < 0x80 := by simp
    rw [hspecials, List.mem_singleton] at hsp
    rw [hsp]
    exact clean_ascii hascii
  intro text ids hids
  have hqwen : (ofSpecial [60, 115, 62]).joyai = true → text.length ≤ 2 ^ 32 :=
    fun h => absurd h Bool.false_ne_true
  exact (decode_encode (fun _ => 0) (ofSpecial [60, 115, 62]) (by decide)).2.mpr hclean text ids
    hqwen hids

end Tokenizer

end Bpe

end Llmx
