import Llmx.TemplateJson
import Llmx.ReplyText

namespace Llmx

namespace TemplateJson

/-- A writer puts this text on, or raises where what it would have written is too long. -/
def Dumps (dump : Dumper) (text : Nat → Bytes) : Prop :=
  ∀ level out, dump level out = .ok (out ++ text level) ∨
    dump level out = .error .tooLong ∧ kMaxBuilt < (out ++ text level).length

def newlineText (style : JsonStyle) (depth : Nat) : Bytes :=
  if style.indented then '\n'.toUInt8 :: (List.replicate depth style.indent).flatten else []

def itemsText (style : JsonStyle) (level : Nat) : Bool → List (Nat → Bytes) → Bytes
  | _, [] => []
  | first, text :: texts =>
    (if first then [] else style.itemSep) ++ newlineText style (level + 1) ++ text (level + 1) ++
      itemsText style level false texts

def containerText (style : JsonStyle) (left right : UInt8) (texts : List (Nat → Bytes)) :
    Nat → Bytes :=
  fun level =>
    if texts.isEmpty then [left, right]
    else left :: itemsText style level true texts ++ newlineText style level ++ [right]

def memberText (style : JsonStyle) (key : Bytes) (text : Nat → Bytes) : Nat → Bytes :=
  fun level => jsonString key style.ensureAscii ++ style.keySep ++ text level

variable {φ : Type} (floatText : φ → Bytes)

mutual

/-- A value's text in a style. -/
def valueText (style : JsonStyle) : TemplateValue φ → Nat → Bytes
  | .none => fun _ => ascii ['n', 'u', 'l', 'l']
  | .bool b => fun _ => ascii (if b then ['t', 'r', 'u', 'e'] else ['f', 'a', 'l', 's', 'e'])
  | .int i => fun _ => integerText i
  | .float f => fun _ => floatText f
  | .str s => fun _ => jsonString s style.ensureAscii
  | .list items => containerText style '['.toUInt8 ']'.toUInt8 (valueTexts style items)
  | .tuple items => containerText style '['.toUInt8 ']'.toUInt8 (valueTexts style items)
  | .dict items => containerText style '\x7b'.toUInt8 '\x7d'.toUInt8
      ((arrange style.sortKeys (memberTexts style items)).map Prod.snd)
  | .other _ => fun _ => []

def valueTexts (style : JsonStyle) : List (TemplateValue φ) → List (Nat → Bytes)
  | [] => []
  | v :: vs => valueText style v :: valueTexts style vs

def memberTexts (style : JsonStyle) :
    List (Bytes × TemplateValue φ) → List (Bytes × (Nat → Bytes))
  | [] => []
  | (key, v) :: items => (key, memberText style key (valueText style v)) :: memberTexts style items

end

/-- The values tojson writes for every reader: no floats, whole numbers a double holds, text, and
dicts with a value for each of their keys. -/
inductive Plain : TemplateValue φ → Prop
  | none : Plain .none
  | bool (b : Bool) : Plain (.bool b)
  | int {i : Int} : i.natAbs < 2 ^ 53 → Plain (.int i)
  | str {s : Bytes} : Utf8.Valid s → Plain (.str s)
  | list {items : List (TemplateValue φ)} : (∀ v ∈ items, Plain v) → Plain (.list items)
  | dict {items : List (Bytes × TemplateValue φ)} : (items.map Prod.fst).Nodup →
      (∀ kv ∈ items, Utf8.Valid kv.1) → (∀ kv ∈ items, Plain kv.2) → Plain (.dict items)

section Arranged

variable {α β : Type} (sortKeys : Bool)

theorem arrange_map (f : Bytes → α → β) (items : List (Bytes × α)) :
    arrange sortKeys (items.map fun kv => (kv.1, f kv.1 kv.2)) =
      (arrange sortKeys items).map fun kv => (kv.1, f kv.1 kv.2) := by
  unfold arrange
  split
  next =>
    exact (List.map_insertionSort (fun a b : Bytes × α => textLt b.1 a.1 = false)
      (fun a b : Bytes × β => textLt b.1 a.1 = false) _ items fun a _ b _ => Iff.rfl).symm
  next => exact Eq.refl _

theorem arrange_perm (items : List (Bytes × α)) : (arrange sortKeys items).Perm items := by
  unfold arrange
  split
  next => exact List.perm_insertionSort _ _
  next => exact List.Perm.refl _

end Arranged

theorem jsonDumps_map (style : JsonStyle) (items : List (TemplateValue φ)) :
    jsonDumps floatText style items = items.map (jsonDump floatText style) := by
  induction items with
  | nil => exact Eq.refl _
  | cons v vs ih => rw [jsonDumps, ih, List.map_cons]

theorem memberDumps_map (style : JsonStyle) (items : List (Bytes × TemplateValue φ)) :
    memberDumps floatText style items =
      items.map fun kv => (kv.1, dumpMember style kv.1 (jsonDump floatText style kv.2)) := by
  induction items with
  | nil => exact Eq.refl _
  | cons kv kvs ih => rw [memberDumps, ih, List.map_cons]

theorem valueTexts_map (style : JsonStyle) (items : List (TemplateValue φ)) :
    valueTexts floatText style items = items.map (valueText floatText style) := by
  induction items with
  | nil => exact Eq.refl _
  | cons v vs ih => rw [valueTexts, ih, List.map_cons]

theorem memberTexts_map (style : JsonStyle) (items : List (Bytes × TemplateValue φ)) :
    memberTexts floatText style items =
      items.map fun kv => (kv.1, memberText style kv.1 (valueText floatText style kv.2)) := by
  induction items with
  | nil => exact Eq.refl _
  | cons kv kvs ih => rw [memberTexts, ih, List.map_cons]

/-- The writers of a dict's items in the order they are written in. -/
theorem arranged_dumps (style : JsonStyle) (items : List (Bytes × TemplateValue φ)) :
    (arrange style.sortKeys (memberDumps floatText style items)).map Prod.snd =
      (arrange style.sortKeys items).map fun kv =>
        dumpMember style kv.1 (jsonDump floatText style kv.2) := by
  rw [memberDumps_map, arrange_map style.sortKeys fun k v =>
    dumpMember style k (jsonDump floatText style v), List.map_map]
  exact Eq.refl _

theorem arranged_texts (style : JsonStyle) (items : List (Bytes × TemplateValue φ)) :
    (arrange style.sortKeys (memberTexts floatText style items)).map Prod.snd =
      (arrange style.sortKeys items).map fun kv =>
        memberText style kv.1 (valueText floatText style kv.2) := by
  rw [memberTexts_map, arrange_map style.sortKeys fun k v =>
    memberText style k (valueText floatText style v), List.map_map]
  exact Eq.refl _

variable {style : JsonStyle}

theorem indentation_dumps (style : JsonStyle) (n : Nat) (out : Bytes) :
    indentation style n out = .ok (out ++ (List.replicate n style.indent).flatten) ∨
      indentation style n out = .error .tooLong ∧
        kMaxBuilt < (out ++ (List.replicate n style.indent).flatten).length := by
  induction n generalizing out with
  | zero =>
    rw [List.replicate_zero, List.flatten_nil, List.append_nil]
    exact .inl (Eq.refl _)
  | succ n ih =>
    rw [List.replicate_succ, List.flatten_cons, ← List.append_assoc, indentation]
    split
    next hlong =>
      exact .inr ⟨Eq.refl _, hlong.trans_le (List.prefix_append _ _).length_le⟩
    next => exact ih _

theorem newline_dumps (style : JsonStyle) (depth : Nat) (out : Bytes) :
    newline style depth out = .ok (out ++ newlineText style depth) ∨
      newline style depth out = .error .tooLong ∧
        kMaxBuilt < (out ++ newlineText style depth).length := by
  unfold newline newlineText
  cases style.indented with
  | false =>
    rw [if_neg Bool.false_ne_true, if_neg Bool.false_ne_true, List.append_nil]
    exact .inl (Eq.refl _)
  | true =>
    rw [if_pos (Eq.refl _), if_pos (Eq.refl _)]
    have hdumps := indentation_dumps style depth (out ++ ['\n'.toUInt8])
    rw [List.append_assoc, List.singleton_append] at hdumps
    exact hdumps

/-- Two writers one after the other. -/
theorem dumps_bind {first next : Except Fault Bytes} {rest : Bytes → Except Fault Bytes}
    {out a b : Bytes}
    (hfirst : first = .ok (out ++ a) ∨ first = .error .tooLong ∧ kMaxBuilt < (out ++ a).length)
    (hnext : rest (out ++ a) = .ok (out ++ a ++ b) ∨
      rest (out ++ a) = .error .tooLong ∧ kMaxBuilt < (out ++ a ++ b).length)
    (h : next = first >>= rest) :
    next = .ok (out ++ (a ++ b)) ∨ next = .error .tooLong ∧ kMaxBuilt < (out ++ (a ++ b)).length := by
  rw [h, ← List.append_assoc]
  rcases hfirst with hok | ⟨herr, hlong⟩
  · rw [hok]
    exact hnext
  · rw [herr]
    exact .inr ⟨Eq.refl _, hlong.trans_le (List.prefix_append _ _).length_le⟩

theorem dumpItems_dumps {dumps : List Dumper} {texts : List (Nat → Bytes)}
    (h : List.Forall₂ Dumps dumps texts) (level : Nat) (first : Bool) (out : Bytes) :
    dumpItems style level first dumps out = .ok (out ++ itemsText style level first texts) ∨
      dumpItems style level first dumps out = .error .tooLong ∧
        kMaxBuilt < (out ++ itemsText style level first texts).length := by
  induction h generalizing first out with
  | nil =>
    rw [dumpItems, itemsText, List.append_nil]
    exact .inl (Eq.refl _)
  | @cons dump text dumps texts hone _ ih =>
    have hsep : (if first = true then out else out ++ style.itemSep) =
        out ++ if first = true then [] else style.itemSep := by
      cases first with
      | true => exact (List.append_nil _).symm
      | false => exact Eq.refl _
    rw [itemsText, dumpItems, hsep]
    generalize (if first = true then [] else style.itemSep) = sep
    rw [List.append_assoc, List.append_assoc, ← List.append_assoc]
    refine dumps_bind (newline_dumps style (level + 1) (out ++ sep)) ?_ (Eq.refl _)
    exact dumps_bind (hone (level + 1) _) (ih false _) (Eq.refl _)

theorem dumpContainer_dumps {dumps : List Dumper} {texts : List (Nat → Bytes)}
    (left right : UInt8) (h : List.Forall₂ Dumps dumps texts) :
    Dumps (dumpContainer style left right dumps) (containerText style left right texts) := by
  intro level out
  unfold dumpContainer containerText
  cases h with
  | nil => exact .inl (Eq.refl _)
  | @cons dump text dumps texts hone hrest =>
    rw [if_neg (by rintro ⟨⟩), if_neg (by rintro ⟨⟩)]
    have hcons : ∀ s : Bytes, out ++ left :: s = out ++ [left] ++ s := fun s => by
      rw [List.append_assoc, List.singleton_append]
    rw [List.append_assoc, List.cons_append,
      hcons (itemsText style level true _ ++ (newlineText style level ++ [right]))]
    refine dumps_bind (dumpItems_dumps (.cons hone hrest) level true _) ?_ (Eq.refl _)
    exact dumps_bind (newline_dumps style level _) (.inl (Eq.refl _)) (Eq.refl _)

theorem checked_dumps {dump : Dumper} {text : Nat → Bytes} (h : Dumps dump text) :
    Dumps (checked dump) text := by
  intro level out
  unfold checked
  split
  next hlong =>
    exact .inr ⟨Eq.refl _, hlong.trans_le (List.prefix_append _ _).length_le⟩
  next => exact h level out

theorem put_dumps (text : Bytes) : Dumps (put text) fun _ => text := fun _ _ => .inl (Eq.refl _)

theorem dumpMember_dumps {dump : Dumper} {text : Nat → Bytes} (key : Bytes) (h : Dumps dump text) :
    Dumps (dumpMember style key dump) (memberText style key text) := by
  intro level out
  unfold dumpMember memberText
  have hall : out ++ jsonString key style.ensureAscii ++ style.keySep ++ text level =
      out ++ (jsonString key style.ensureAscii ++ style.keySep ++ text level) := by
    simp only [List.append_assoc]
  rw [← hall]
  exact h level _

/-- A value is written as its text, or the writer raises where that is too long. -/
theorem jsonDump_dumps {v : TemplateValue φ} (h : Plain v) :
    Dumps (jsonDump floatText style v) (valueText floatText style v) := by
  induction h with
  | none => exact checked_dumps (put_dumps _)
  | bool b => exact checked_dumps (put_dumps _)
  | int _ => exact checked_dumps (put_dumps _)
  | str _ => exact checked_dumps (put_dumps _)
  | @list items _ ih =>
    rw [jsonDump, valueText, jsonDumps_map, valueTexts_map]
    refine checked_dumps (dumpContainer_dumps _ _ ?_)
    rw [List.forall₂_map_left_iff, List.forall₂_map_right_iff, List.forall₂_same]
    exact ih
  | @dict items _ _ _ ih =>
    rw [jsonDump, valueText, arranged_dumps, arranged_texts]
    refine checked_dumps (dumpContainer_dumps _ _ ?_)
    rw [List.forall₂_map_left_iff, List.forall₂_map_right_iff, List.forall₂_same]
    intro kv hkv
    exact dumpMember_dumps _ (ih kv ((arrange_perm style.sortKeys items).mem_iff.mp hkv))

end TemplateJson

end Llmx
