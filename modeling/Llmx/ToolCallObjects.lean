import Llmx.JsonExact
import Llmx.ToolCallQuotes
import Llmx.ToolCallStreams

namespace Llmx

open Tags

namespace ToolCallSplit

variable {δ : Type} (conv : Json.Conversion δ)

/-- What a parameter's text stands for: the JSON value it is, where its type has that, or itself. -/
def entryValue (kind : ToolValue) (v : Bytes) : Json.Value δ :=
  match Json.parse conv (trim v) with
  | .ok parsed => if passes kind parsed then parsed else .string v
  | .error _ => .string v

/-- The entries of a call's arguments. -/
def entries (typed : ToolTypes) (call : XmlCall) : List (Bytes × Json.Value δ) :=
  call.params.map fun (key, v) => (key, entryValue conv (kindOf typed call.name key) v)

/-- No parameter passed on as JSON nests as deep as a document may. -/
def Shallow (typed : ToolTypes) (call : XmlCall) : Prop :=
  ∀ key v parsed, (key, v) ∈ call.params → Json.parse conv (trim v) = .ok parsed →
    passes (kindOf typed call.name key) parsed = true → parsed.depth < 256

variable {conv} {typed : ToolTypes} {name key v : Bytes}

theorem passes_text (parsed : Json.Value δ) : passes .text parsed = false := by
  cases parsed with
  | null | bool _ | number _ _ | string _ => exact Eq.refl _
  | array _ | object _ => exact Eq.refl _

/-- A value is passed on or quoted, as its entry is. -/
theorem value_cases (conv : Json.Conversion δ) (typed : ToolTypes) (name key v : Bytes) :
    (∃ parsed, Json.parse conv (trim v) = .ok parsed ∧
      passes (kindOf typed name key) parsed = true ∧ value conv typed name key v = trim v ∧
      entryValue conv (kindOf typed name key) v = parsed) ∨
    (value conv typed name key v = quote v ∧
      entryValue conv (kindOf typed name key) v = .string v) := by
  unfold value entryValue
  generalize kindOf typed name key = kind
  dsimp only
  by_cases htext : kind = .text
  · refine .inr ⟨if_neg (not_not.mpr htext), ?_⟩
    split
    next =>
      rw [htext, passes_text]
      exact Eq.refl _
    next => exact Eq.refl _
  · rw [if_pos htext]
    cases hparse : Json.parse conv (trim v) with
    | error e => exact .inr ⟨Eq.refl _, Eq.refl _⟩
    | ok parsed =>
      dsimp only
      cases hpass : passes kind parsed with
      | true => exact .inl ⟨parsed, Eq.refl _, hpass, Eq.refl _, Eq.refl _⟩
      | false => exact .inr ⟨Eq.refl _, Eq.refl _⟩

/-- A value that nests less deep than a document may is one inside an object. -/
theorem value_inside (hv : Utf8.Valid v) (hshallow : ∀ parsed,
      Json.parse conv (trim v) = .ok parsed → passes (kindOf typed name key) parsed = true →
      parsed.depth < 256) :
    ∃ a t b, Json.Ws a ∧
      Json.IsValue conv 255 t (entryValue conv (kindOf typed name key) v) ∧ Json.Ws b ∧
      value conv typed name key v = a ++ t ++ b := by
  rcases value_cases conv typed name key v with ⟨parsed, hparse, hpass, hvalue, hentry⟩ |
    ⟨hvalue, hentry⟩
  · have hdoc := (Json.parse_reads conv (trim v)).of_ok hparse
    obtain ⟨a, t, b, ha, ht, hb, htrim⟩ := hdoc
    have hdepth := hshallow parsed hparse hpass
    rw [hvalue, hentry]
    exact ⟨a, t, b, ha, ht.within (by omega), hb, htrim⟩
  · rw [hvalue, hentry]
    exact ⟨[], quote v, [], .nil, .string (quote_string hv), .nil, by simp⟩

theorem Ws_space : Json.Ws (ascii [' ']) := by
  intro c hc
  rw [List.mem_singleton.mp hc]
  decide

/-- The parameters of a call from one on are members of an object. -/
theorem objectText_members {params : List (Bytes × Bytes)}
    (hvalid : ∀ p ∈ (key, v) :: params, Utf8.Valid p.1 ∧ Utf8.Valid p.2)
    (hshallow : Shallow conv typed ⟨name, (key, v) :: params⟩) :
    ∃ m, quote key ++ ascii [':', ' '] ++ value conv typed name key v ++
        objectText conv typed name true params = m ++ ['\x7d'.toUInt8] ∧
      Json.IsMembers conv 255 m (entries conv typed ⟨name, (key, v) :: params⟩) := by
  induction params generalizing key v with
  | nil =>
    obtain ⟨hkey, hv⟩ := hvalid _ List.mem_cons_self
    obtain ⟨a, t, b, ha, ht, hb, hvalue⟩ :=
      value_inside hv fun parsed => hshallow key v parsed List.mem_cons_self
    have hmembers := Json.IsMembers.last .nil (quote_string hkey) .nil (Ws_space.append ha) ht hb
    refine ⟨_, ?_, hmembers⟩
    rw [hvalue]
    simp [objectText, ascii]
  | cons p params ih =>
    obtain ⟨key', v'⟩ := p
    obtain ⟨hkey, hv⟩ := hvalid _ List.mem_cons_self
    obtain ⟨a, t, b, ha, ht, hb, hvalue⟩ :=
      value_inside hv fun parsed => hshallow key v parsed List.mem_cons_self
    obtain ⟨m, hm, hrest⟩ := ih (fun p hp => hvalid p (List.mem_cons_of_mem _ hp))
      fun k u parsed hp => hshallow k u parsed (List.mem_cons_of_mem _ hp)
    have hmembers := Json.IsMembers.more .nil (quote_string hkey) .nil (Ws_space.append ha) ht hb
      (hrest.space Ws_space)
    refine ⟨_, ?_, hmembers⟩
    have htail : objectText conv typed name true ((key', v') :: params) =
        ascii [',', ' '] ++ (m ++ ['\x7d'.toUInt8]) := by
      rw [← hm, objectText]
      simp
    rw [hvalue, htail]
    simp [ascii]

/-- A call's arguments are the object of its parameters where none nests too deep. -/
theorem callText_read {call : XmlCall}
    (hvalid : ∀ p ∈ call.params, Utf8.Valid p.1 ∧ Utf8.Valid p.2) :
    Json.parse conv (callText conv typed call) = .ok (.object (entries conv typed call)) ↔
      Shallow conv typed call := by
  obtain ⟨name, params⟩ := call
  constructor
  · intro hparse key v parsed hmem hp hpass
    obtain ⟨a, t, b, -, ht, -, -⟩ := (Json.parse_reads conv _).of_ok hparse
    have hdepth := ht.depth_le
    rw [Json.Value.depth] at hdepth
    have hentry : (key, parsed) ∈ entries conv typed ⟨name, params⟩ := by
      refine List.mem_map.mpr ⟨(key, v), hmem, ?_⟩
      dsimp only
      rw [entryValue, hp]
      dsimp only
      rw [if_pos hpass]
    have hle := Json.depth_le_members hentry
    omega
  · intro hshallow
    refine Json.parse_complete
      ⟨[], callText conv typed ⟨name, params⟩, [], .nil, ?_, .nil, by simp⟩
    cases params with
    | nil => exact Json.IsValue.emptyObject .nil
    | cons p params =>
      obtain ⟨key, v⟩ := p
      obtain ⟨m, hm, hmembers⟩ := objectText_members hvalid hshallow
      have htext : callText conv typed ⟨name, (key, v) :: params⟩ =
          '\x7b'.toUInt8 :: m ++ ['\x7d'.toUInt8] := by
        rw [callText, objectText, List.cons_append, ← hm]
        simp [ascii]
      rw [htext]
      exact .object hmembers

/-- Once a reply is finished, the arguments of each call in the function format read as the object
of its parameters exactly where none passed on as JSON nests as deep as a document may. -/
theorem arguments_are_objects (conv : Json.Conversion δ) (typed : ToolTypes) (single : Bool)
    (pieces : List Bytes) (hvalid : Utf8.Valid pieces.flatten) :
    (run conv .xml typed single pieces).1.calls = (readCalls single pieces.flatten).length ∧
      ∀ k call, (readCalls single pieces.flatten)[k]? = some call →
        (Json.parse conv (argumentsOf k (run conv .xml typed single pieces).2) =
            .ok (.object (entries conv typed call)) ↔ Shallow conv typed call) := by
  obtain ⟨hcalls, harguments⟩ := run_calls conv typed single pieces
  refine ⟨hcalls, fun k call hcall => ?_⟩
  rw [harguments k call hcall]
  exact callText_read (valid_readCalls hvalid call (List.mem_of_getElem? hcall))

/-- Arrays one in the other, one more than the number. -/
def nested : Nat → Bytes
  | 0 => ascii ['[', ']']
  | n + 1 => '['.toUInt8 :: nested n ++ [']'.toUInt8]

def nestedValue : Nat → Json.Value δ
  | 0 => .array []
  | n + 1 => .array [nestedValue n]

/-- A call with one parameter of such arrays. -/
def nestedCall (n : Nat) : Bytes :=
  toolOpen ++ fnOpen ++ ascii ['f', '>'] ++ paramOpen ++ ascii ['a', '>'] ++ nested n ++
    paramClose ++ fnClose ++ toolClose

theorem nested_brackets {n : Nat} {c : UInt8} (h : c ∈ nested n) :
    c = '['.toUInt8 ∨ c = ']'.toUInt8 := by
  induction n with
  | zero => simpa [nested, ascii] using h
  | succ n ih =>
    rw [nested, List.cons_append, List.mem_cons, List.mem_append, List.mem_singleton] at h
    rcases h with h | h | h
    · exact .inl h
    · exact ih h
    · exact .inr h

theorem nested_value (n : Nat) :
    Json.IsValue conv (n + 1) (nested n) (nestedValue n : Json.Value δ) := by
  induction n with
  | zero => exact .emptyArray .nil
  | succ n ih =>
    have hone := Json.IsElements.last .nil ih .nil
    rw [List.nil_append, List.append_nil] at hone
    exact .array hone

theorem nestedValue_depth (n : Nat) : (nestedValue n : Json.Value δ).depth = n + 1 := by
  induction n with
  | zero => exact Eq.refl _
  | succ n ih =>
    rw [nestedValue, Json.Value.depth, Json.depthOf, Json.depthOf, ih, Nat.max_zero]

theorem trim_nested (n : Nat) : trim (nested n) = nested n := by
  have hno : ∀ c ∈ nested n, blank c = false := by
    intro c hc
    rcases nested_brackets hc with rfl | rfl
    · decide
    · decide
  have hfront : (nested n).dropWhile blank = nested n := by
    rw [List.dropWhile_eq_self_iff]
    intro hlen
    rw [hno _ (List.getElem_mem hlen)]
    decide
  unfold trim
  rw [hfront, List.rdropWhile_eq_self_iff]
  intro hne
  rw [hno _ (List.getLast_mem hne)]
  decide

theorem chomp_nested (n : Nat) : chomp (nested n) = nested n := by
  have hno : ∀ c ∈ nested n, c ≠ '\n'.toUInt8 := by
    intro c hc
    rcases nested_brackets hc with rfl | rfl
    · decide
    · decide
  have hend : (nested n).getLast? ≠ some '\n'.toUInt8 := fun hlast =>
    hno _ (List.mem_of_getLast? hlast) (Eq.refl _)
  unfold chomp
  cases hs : nested n with
  | nil => exact if_neg (by rintro ⟨⟩)
  | cons c s =>
    rw [hs] at hend
    dsimp only
    simp only [if_neg (hno c (by rw [hs]; exact List.mem_cons_self)), if_neg hend]

theorem nested_parses {n : Nat} (h : n < 256) :
    Json.parse conv (trim (nested n)) = .ok (nestedValue n) := by
  refine Json.parse_complete ⟨[], nested n, [], .nil, ?_, .nil, ?_⟩
  · exact (nested_value n).within (by rw [nestedValue_depth]; omega)
  · rw [trim_nested, List.nil_append, List.append_nil]

theorem parameter_nested (n : Nat) (rest : Bytes) :
    parameter (paramOpen ++ (ascii ['a', '>'] ++ (nested n ++ (paramClose ++ rest)))) =
      some (ascii ['a'], nested n, rest) := by
  have hkey : split (ascii ['>']) (ascii ['a', '>'] ++ (nested n ++ (paramClose ++ rest))) =
      some (ascii ['a'], nested n ++ (paramClose ++ rest)) :=
    split_append (x := ascii ['a']) (show Borderless (ascii ['>']) by decide)
      (List.cons_ne_nil _ _) (by decide)
  have hnone : split paramClose (nested n) = none := by
    refine (split_none (List.cons_ne_nil _ _)).mpr fun hin => ?_
    rcases nested_brackets (hin.subset (show '<'.toUInt8 ∈ paramClose by decide)) with h | h
    · revert h
      decide
    · revert h
      decide
  have hvalue := split_append (y := rest) (show Borderless paramClose by decide)
    (List.cons_ne_nil _ _) hnone
  rw [List.append_assoc] at hvalue
  unfold parameter
  rw [List.drop_left, hkey]
  dsimp only [Option.bind_some]
  rw [hvalue]
  exact Eq.refl _

theorem readCalls_nested (n : Nat) : readCalls false (nestedCall n) =
    [⟨ascii ['f'], [(ascii ['a'], nested n)]⟩] := by
  generalize hparam : paramOpen ++ (ascii ['a', '>'] ++ (nested n ++ (paramClose ++
    (fnClose ++ toolClose)))) = param
  have hopen : split toolOpen (nestedCall n) = some ([], fnOpen ++ (ascii ['f', '>'] ++ param)) := by
    have hfirst := split_append (x := []) (y := fnOpen ++ (ascii ['f', '>'] ++ param))
      (show Borderless toolOpen by decide) toolOpen_ne (Eq.refl _)
    rw [← hfirst, ← hparam]
    unfold nestedCall
    simp only [List.append_assoc, List.nil_append]
  have hhead : xmlHead (fnOpen ++ (ascii ['f', '>'] ++ param)) = .opens (ascii ['f'], param) := by
    have hfn : literal fnOpen (fnOpen ++ (ascii ['f', '>'] ++ param)) =
        .opens (ascii ['f', '>'] ++ param) := (literal_opens fnOpen_ne).mpr (Eq.refl _)
    unfold xmlHead
    rw [hfn]
    exact Eq.refl _
  have hend : readParams (fnClose ++ toolClose) = ([], []) := by
    rw [readParams_fnClose (by decide)]
    exact Eq.refl _
  have hread : readParams param = ([(ascii ['a'], nested n)], []) := by
    have hblank : param.dropWhile blank = param := by
      rw [← hparam]
      exact Eq.refl _
    have hpre : paramOpen.isPrefixOf (param.dropWhile blank) = true := by
      rw [hblank, ← hparam]
      exact Eq.refl _
    have hone : parameter (param.dropWhile blank) =
        some (ascii ['a'], nested n, fnClose ++ toolClose) := by
      rw [hblank, ← hparam]
      exact parameter_nested n _
    rw [readParams_some hpre hone, hend, chomp_nested]
  rw [readCalls_some hopen]
  unfold headCalls
  rw [hhead]
  dsimp only
  rw [hread, if_neg Bool.false_ne_true, readCalls_none (Eq.refl _)]

theorem nestedCall_valid (n : Nat) : Utf8.Valid (nestedCall n) := by
  refine .of_ascii ?_
  have hbrackets : Utf8.isAscii (nested n) = true := by
    refine Utf8.isAscii_iff.mpr fun c hc => ?_
    rcases nested_brackets hc with rfl | rfl
    · decide
    · decide
  have hbefore : Utf8.isAscii (toolOpen ++ fnOpen ++ ascii ['f', '>'] ++ paramOpen ++
      ascii ['a', '>']) = true := by decide
  have hafter : Utf8.isAscii (paramClose ++ fnClose ++ toolClose) = true := by decide
  unfold nestedCall
  simp only [Utf8.isAscii_append] at hbefore hafter ⊢
  exact ⟨⟨⟨⟨hbefore, hbrackets⟩, hafter.1.1⟩, hafter.1.2⟩, hafter.2⟩

/-- No number has a double. -/
def noNumbers : Json.Conversion Unit := ⟨fun _ => none, fun _ => true⟩

/-- Arrays 255 deep as a value, the reply cut inside a tag, are read. -/
theorem arguments_are_objects_nested :
    (run noNumbers .xml [] false [(nestedCall 254).take 4, (nestedCall 254).drop 4]).1.calls = 1 ∧
      Json.parse noNumbers (argumentsOf 0
          (run noNumbers .xml [] false [(nestedCall 254).take 4, (nestedCall 254).drop 4]).2) =
        .ok (.object (entries noNumbers [] ⟨ascii ['f'], [(ascii ['a'], nested 254)]⟩)) := by
  have htext : [(nestedCall 254).take 4, (nestedCall 254).drop 4].flatten = nestedCall 254 := by
    rw [List.flatten_cons, List.flatten_cons, List.flatten_nil, List.append_nil,
      List.take_append_drop]
  obtain ⟨hcalls, hread⟩ := arguments_are_objects noNumbers [] false
    [(nestedCall 254).take 4, (nestedCall 254).drop 4] (by rw [htext]; exact nestedCall_valid 254)
  rw [htext, readCalls_nested] at hcalls hread
  refine ⟨hcalls, (hread 0 _ (Eq.refl _)).mpr fun key v parsed hmem hparse _ => ?_⟩
  cases List.mem_singleton.mp hmem
  rw [nested_parses (by omega)] at hparse
  cases hparse
  rw [nestedValue_depth]
  omega

/-- With arrays 256 deep as a parameter's value the arguments are no such object. -/
theorem deep_value_unread : ¬ ∀ (single : Bool) (pieces : List Bytes),
    Utf8.Valid pieces.flatten → ∀ k call, (readCalls single pieces.flatten)[k]? = some call →
      Json.parse noNumbers (argumentsOf k (run noNumbers .xml [] single pieces).2) =
        .ok (.object (entries noNumbers [] call)) := by
  intro hall
  have htext : [nestedCall 255].flatten = nestedCall 255 := by
    rw [List.flatten_cons, List.flatten_nil, List.append_nil]
  have hcall : (readCalls false [nestedCall 255].flatten)[0]? =
      some ⟨ascii ['f'], [(ascii ['a'], nested 255)]⟩ := by
    rw [htext, readCalls_nested]
    exact Eq.refl _
  have hvalid : Utf8.Valid [nestedCall 255].flatten := by
    rw [htext]
    exact nestedCall_valid 255
  have hparse := hall false [nestedCall 255] hvalid 0 _ hcall
  rw [(run_calls noNumbers [] false [nestedCall 255]).2 0 _ hcall] at hparse
  have hshallow := (callText_read (valid_readCalls hvalid _ (List.mem_of_getElem? hcall))).mp hparse
  have hlt := hshallow (ascii ['a']) (nested 255) _ List.mem_cons_self (nested_parses (by omega))
    (Eq.refl _)
  rw [nestedValue_depth] at hlt
  omega

end ToolCallSplit

end Llmx
