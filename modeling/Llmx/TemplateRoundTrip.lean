import Llmx.TemplateGrammar

namespace Llmx

namespace TemplateJson

open Json

/-- Separators of a comma and of a colon with whitespace around them, and an indent of it. -/
structure Spaced (style : JsonStyle) : Prop where
  indent : Ws style.indent
  item : ∃ a b, Ws a ∧ Ws b ∧ style.itemSep = a ++ ','.toUInt8 :: b
  key : ∃ a b, Ws a ∧ Ws b ∧ style.keySep = a ++ ':'.toUInt8 :: b

variable {φ δ : Type}

/-- Whole numbers below 2^53 are doubles of their own, read from their text and read back. -/
structure Exact (conv : Conversion δ) (large : δ → Bool) (toInt : δ → Int) (ofInt : Int → δ) :
    Prop where
  read : ∀ i : Int, i.natAbs < 2 ^ 53 → conv.read (integerText i) = some (ofInt i)
  zero : ∀ i : Int, i.natAbs < 2 ^ 53 → conv.isZero (ofInt i) = true → i = 0
  small : ∀ i : Int, i.natAbs < 2 ^ 53 → large (ofInt i) = false
  back : ∀ i : Int, i.natAbs < 2 ^ 53 → toInt (ofInt i) = i

section Arranged

variable (sortKeys : Bool)

mutual

/-- A value with its dicts' items in the order they are written in. -/
def arranged : TemplateValue φ → TemplateValue φ
  | .list items => .list (arrangedAll items)
  | .tuple items => .tuple (arrangedAll items)
  | .dict items => .dict (arrange sortKeys (arrangedMembers items))
  | v => v

def arrangedAll : List (TemplateValue φ) → List (TemplateValue φ)
  | [] => []
  | v :: vs => arranged v :: arrangedAll vs

def arrangedMembers : List (Bytes × TemplateValue φ) → List (Bytes × TemplateValue φ)
  | [] => []
  | (key, v) :: items => (key, arranged v) :: arrangedMembers items

end

theorem arrangedAll_map (items : List (TemplateValue φ)) :
    arrangedAll sortKeys items = items.map (arranged sortKeys) := by
  induction items with
  | nil => exact Eq.refl _
  | cons v vs ih => rw [arrangedAll, ih, List.map_cons]

theorem arrangedMembers_map (items : List (Bytes × TemplateValue φ)) :
    arrangedMembers sortKeys items = items.map fun kv => (kv.1, arranged sortKeys kv.2) := by
  induction items with
  | nil => exact Eq.refl _
  | cons kv kvs ih => rw [arrangedMembers, ih, List.map_cons]

/-- A dict's items as they are written, each value arranged. -/
theorem arranged_dict (items : List (Bytes × TemplateValue φ)) :
    arranged sortKeys (.dict items) =
      .dict ((arrange sortKeys items).map fun kv => (kv.1, arranged sortKeys kv.2)) := by
  rw [arranged, arrangedMembers_map, arrange_map sortKeys fun _ v => arranged sortKeys v]

theorem arranged_list (items : List (TemplateValue φ)) :
    arranged sortKeys (.list items) = .list (items.map (arranged sortKeys)) := by
  rw [arranged, arrangedAll_map]

variable (ofInt : Int → δ)

mutual

/-- A plain value as JSON has it. -/
def asJson : TemplateValue φ → Json.Value δ
  | .bool b => .bool b
  | .int i => .number (ofInt i) true
  | .str s => .string s
  | .list items => .array (allAsJson items)
  | .tuple items => .array (allAsJson items)
  | .dict items => .object (arrange sortKeys (membersAsJson items))
  | _ => .null

def allAsJson : List (TemplateValue φ) → List (Json.Value δ)
  | [] => []
  | v :: vs => asJson v :: allAsJson vs

def membersAsJson : List (Bytes × TemplateValue φ) → List (Bytes × Json.Value δ)
  | [] => []
  | (key, v) :: items => (key, asJson v) :: membersAsJson items

end

theorem asJson_list (items : List (TemplateValue φ)) :
    asJson sortKeys ofInt (.list items) = .array (items.map (asJson sortKeys ofInt)) := by
  rw [asJson]
  congr 1
  induction items with
  | nil => exact Eq.refl _
  | cons v vs ih => rw [allAsJson, ih, List.map_cons]

theorem asJson_dict (items : List (Bytes × TemplateValue φ)) :
    asJson sortKeys ofInt (.dict items) =
      .object ((arrange sortKeys items).map fun kv => (kv.1, asJson sortKeys ofInt kv.2)) := by
  have hmembers : membersAsJson sortKeys ofInt items =
      items.map fun kv => (kv.1, asJson sortKeys ofInt kv.2) := by
    induction items with
    | nil => exact Eq.refl _
    | cons kv kvs ih => rw [membersAsJson, ih, List.map_cons]
  rw [asJson, hmembers, arrange_map sortKeys fun _ v => asJson sortKeys ofInt v]

end Arranged

section Depth

theorem depths_le {items : List (TemplateValue φ)} {n : Nat} :
    depths items ≤ n ↔ ∀ v ∈ items, depth v ≤ n := by
  induction items with
  | nil => exact ⟨fun _ => List.forall_mem_nil _, fun _ => Nat.zero_le n⟩
  | cons v vs ih => rw [depths, Nat.max_le, ih, List.forall_mem_cons]

theorem memberDepths_le {items : List (Bytes × TemplateValue φ)} {n : Nat} :
    memberDepths items ≤ n ↔ ∀ kv ∈ items, depth kv.2 ≤ n := by
  induction items with
  | nil => exact ⟨fun _ => List.forall_mem_nil _, fun _ => Nat.zero_le n⟩
  | cons kv kvs ih => rw [memberDepths, Nat.max_le, ih, List.forall_mem_cons]

theorem arranged_depth {v : TemplateValue φ} (sortKeys : Bool) (h : Plain v) :
    depth (arranged sortKeys v) ≤ depth v := by
  induction h with
  | none => exact Nat.le_refl _
  | bool b => exact Nat.le_refl _
  | int _ => exact Nat.le_refl _
  | str _ => exact Nat.le_refl _
  | @list items _ ih =>
    rw [arranged_list, depth, depth]
    refine Nat.succ_le_succ (depths_le.mpr fun w hw => ?_)
    obtain ⟨v, hv, rfl⟩ := List.mem_map.mp hw
    exact (ih v hv).trans (depths_le.mp (Nat.le_refl _) v hv)
  | @dict items _ _ _ ih =>
    rw [arranged_dict, depth, depth]
    refine Nat.succ_le_succ (memberDepths_le.mpr fun w hw => ?_)
    obtain ⟨kv, hkv, rfl⟩ := List.mem_map.mp hw
    have hmem := (arrange_perm sortKeys items).mem_iff.mp hkv
    exact (ih kv hmem).trans (memberDepths_le.mp (Nat.le_refl _) kv hmem)

end Depth

section Grammar

variable {style : JsonStyle} {conv : Conversion δ} {n level : Nat}

theorem newlineText_ws (hs : Spaced style) (depth : Nat) : Ws (newlineText style depth) := by
  unfold newlineText
  split
  next =>
    intro c hc
    rcases List.mem_cons.mp hc with rfl | hc
    · decide
    · obtain ⟨indent, hindent, hc⟩ := List.mem_flatten.mp hc
      rw [List.eq_of_mem_replicate hindent] at hc
      exact hs.indent c hc
  next => exact .nil

theorem itemsText_next (style : JsonStyle) (level : Nat) (text : Nat → Bytes)
    (texts : List (Nat → Bytes)) : itemsText style level false (text :: texts) =
      style.itemSep ++ itemsText style level true (text :: texts) := by
  rw [itemsText, itemsText]
  simp only [Bool.false_eq_true, if_false, if_true, List.nil_append, List.append_assoc]

/-- Values written one after the other are an array's. -/
theorem itemsText_elements {α : Type} {text : α → Nat → Bytes} {value : α → Json.Value δ}
    (hs : Spaced style) {x : α} {xs : List α}
    (h : ∀ y ∈ x :: xs, IsValue conv n (text y (level + 1)) (value y)) :
    IsElements conv n
      (itemsText style level true ((x :: xs).map text) ++ newlineText style level)
      ((x :: xs).map value) := by
  have hnl := newlineText_ws hs
  induction xs generalizing x with
  | nil =>
    have hlast := IsElements.last (hnl (level + 1)) (h x List.mem_cons_self) (hnl level)
    exact cast (by simp [itemsText]) hlast
  | cons y ys ih =>
    obtain ⟨a, b, ha, hb, hsep⟩ := hs.item
    have hrest := (ih fun z hz => h z (List.mem_cons_of_mem _ hz)).space hb
    have hmore := IsElements.more (hnl (level + 1)) (h x List.mem_cons_self) ha hrest
    rw [List.map_cons, List.map_cons, itemsText, List.map_cons, itemsText_next, hsep]
    simp only [if_true, List.nil_append, List.append_assoc, List.cons_append] at hmore ⊢
    exact hmore

theorem itemsText_members {α : Type} {key : α → Bytes} {text : α → Nat → Bytes}
    {value : α → Json.Value δ} (hs : Spaced style) {x : α} {xs : List α}
    (h : ∀ y ∈ x :: xs, Utf8.Valid (key y) ∧ IsValue conv n (text y (level + 1)) (value y)) :
    IsMembers conv n
      (itemsText style level true ((x :: xs).map fun y => memberText style (key y) (text y)) ++
        newlineText style level)
      ((x :: xs).map fun y => (key y, value y)) := by
  have hnl := newlineText_ws hs
  obtain ⟨c, d, hc, hd, hkeySep⟩ := hs.key
  induction xs generalizing x with
  | nil =>
    obtain ⟨hkey, hvalue⟩ := h x List.mem_cons_self
    have hlast := IsMembers.last (hnl (level + 1)) (jsonString_string style.ensureAscii hkey) hc hd
      hvalue (hnl level)
    rw [List.map_cons, List.map_nil, itemsText, itemsText, memberText, hkeySep]
    simp only [if_true, List.nil_append, List.append_nil, List.append_assoc, List.cons_append]
      at hlast ⊢
    exact hlast
  | cons y ys ih =>
    obtain ⟨a, b, ha, hb, hsep⟩ := hs.item
    obtain ⟨hkey, hvalue⟩ := h x List.mem_cons_self
    have hrest := (ih fun z hz => h z (List.mem_cons_of_mem _ hz)).space hb
    have hmore := IsMembers.more (hnl (level + 1)) (jsonString_string style.ensureAscii hkey) hc hd
      hvalue ha hrest
    rw [List.map_cons, List.map_cons, itemsText, List.map_cons, itemsText_next, memberText, hsep,
      hkeySep]
    simp only [if_true, List.nil_append, List.append_assoc, List.cons_append] at hmore ⊢
    exact hmore

variable {floatText : φ → Bytes} {large : δ → Bool} {toInt : δ → Int} {ofInt : Int → δ}
  {v : TemplateValue φ}

theorem Exact.number (he : Exact conv large toInt ofInt) {i : Int} (hi : i.natAbs < 2 ^ 53) :
    IsValue conv n (integerText i) (.number (ofInt i) true) := by
  obtain ⟨int, hnumber⟩ := integerText_number i
  refine .number hnumber ⟨he.read i hi, fun hzero => ?_⟩
  rw [he.zero i hi hzero, integerText, if_neg (Int.lt_irrefl 0), Int.natAbs_zero, decimal]
  exact Eq.refl _

/-- A value's text is the JSON of it, nested as deep as the value. -/
theorem valueText_value (hs : Spaced style) (he : Exact conv large toInt ofInt) (h : Plain v)
    (level : Nat) : IsValue conv (depth v) (valueText floatText style v level)
      (asJson style.sortKeys ofInt v) := by
  have hwithin : ∀ {m n t j}, IsValue conv m t j → m ≤ n → IsValue conv n t j :=
    fun hv hle => hv.within (hv.depth_le.trans hle)
  induction h generalizing level with
  | none => exact .null
  | bool b =>
    cases b with
    | true => exact .true
    | false => exact .false
  | int hi => exact he.number hi
  | str hv => exact .string (jsonString_string _ hv)
  | @list items _ ih =>
    rw [asJson_list, valueText, valueTexts_map, depth]
    unfold containerText
    cases items with
    | nil => exact IsValue.emptyArray .nil
    | cons x xs =>
      have hitems : IsElements conv (depths (x :: xs))
          (itemsText style level true ((x :: xs).map (valueText floatText style)) ++
            newlineText style level) ((x :: xs).map (asJson style.sortKeys ofInt)) :=
        itemsText_elements hs fun y hy =>
          hwithin (ih y hy (level + 1)) (depths_le.mp (Nat.le_refl _) y hy)
      rw [if_neg (by rintro ⟨⟩), List.cons_append, List.cons_append]
      exact .array hitems
  | @dict items _ hkeys _ ih =>
    rw [asJson_dict, valueText, arranged_texts, depth]
    have hmem : ∀ {kv}, kv ∈ arrange style.sortKeys items → kv ∈ items :=
      fun hkv => (arrange_perm style.sortKeys items).mem_iff.mp hkv
    unfold containerText
    cases harrange : arrange style.sortKeys items with
    | nil => exact IsValue.emptyObject .nil
    | cons x xs =>
      rw [harrange] at hmem
      have hitems : IsMembers conv (memberDepths items)
          (itemsText style level true ((x :: xs).map fun kv =>
            memberText style kv.1 (valueText floatText style kv.2)) ++ newlineText style level)
          ((x :: xs).map fun kv => (kv.1, asJson style.sortKeys ofInt kv.2)) :=
        itemsText_members hs fun kv hkv => ⟨hkeys kv (hmem hkv),
          hwithin (ih kv (hmem hkv) (level + 1))
            (memberDepths_le.mp (Nat.le_refl _) kv (hmem hkv))⟩
      rw [if_neg (by rintro ⟨⟩), List.cons_append, List.cons_append]
      exact .object hitems

end Grammar

section Reading

variable {large : δ → Bool} {toInt : δ → Int} {ofInt : Int → δ} {conv : Conversion δ}
  (toFloat : δ → φ)

/-- A name that is not in an object is put last. -/
theorem set_new {key : Bytes} {v : TemplateValue φ} {o : List (Bytes × TemplateValue φ)}
    (h : key ∉ o.map Prod.fst) : set key v o = o ++ [(key, v)] := by
  induction o with
  | nil => exact Eq.refl _
  | cons kw o ih =>
    obtain ⟨k, w⟩ := kw
    rw [List.map_cons, List.mem_cons, not_or] at h
    rw [set, if_neg (Ne.symm h.1), ih h.2]
    exact Eq.refl _

theorem templateValues_ok {α : Type} {json : α → Json.Value δ} {value : α → TemplateValue φ}
    {items : List α}
    (h : ∀ x ∈ items, templateValue toFloat large toInt (json x) = .ok (value x)) :
    templateValues toFloat large toInt (items.map json) = .ok (items.map value) := by
  induction items with
  | nil => exact Eq.refl _
  | cons x xs ih =>
    rw [List.map_cons, templateValues, h x List.mem_cons_self,
      ih fun y hy => h y (List.mem_cons_of_mem x hy)]
    exact Eq.refl _

theorem templateMembers_ok {α : Type} {key : α → Bytes} {json : α → Json.Value δ}
    {value : α → TemplateValue φ} {items : List α} {o : List (Bytes × TemplateValue φ)}
    (hnew : ∀ x ∈ items, key x ∉ o.map Prod.fst) (hnodup : (items.map key).Nodup)
    (h : ∀ x ∈ items, templateValue toFloat large toInt (json x) = .ok (value x)) :
    templateMembers toFloat large toInt o (items.map fun x => (key x, json x)) =
      .ok (o ++ items.map fun x => (key x, value x)) := by
  induction items generalizing o with
  | nil => exact congrArg Except.ok (List.append_nil o).symm
  | cons x xs ih =>
    obtain ⟨hx, hxs⟩ := List.nodup_cons.mp hnodup
    have hrest := ih (o := o ++ [(key x, value x)]) (fun y hy hmem => ?_) hxs
      fun y hy => h y (List.mem_cons_of_mem x hy)
    · rw [List.map_cons, templateMembers, h x List.mem_cons_self]
      show templateMembers toFloat large toInt (set (key x) (value x) o) _ = _
      rw [set_new (hnew x List.mem_cons_self), hrest, List.append_assoc]
      exact Eq.refl _
    · rw [List.map_append, List.mem_append] at hmem
      rcases hmem with hmem | hmem
      · exact hnew y (List.mem_cons_of_mem x hy) hmem
      · have heq : key y = key x := List.mem_singleton.mp hmem
        exact hx (heq ▸ List.mem_map_of_mem hy)

/-- Read by a template, the JSON of a value is the value as it was written. -/
theorem templateValue_asJson {v : TemplateValue φ} (sortKeys : Bool)
    (he : Exact conv large toInt ofInt) (h : Plain v) (hdepth : depth v ≤ kMaxValueDepth) :
    templateValue toFloat large toInt (asJson sortKeys ofInt v) = .ok (arranged sortKeys v) := by
  have hhold : ∀ {w : TemplateValue φ}, depth w ≤ kMaxValueDepth → hold w = .ok w :=
    fun hw => if_neg (Nat.not_lt.mpr hw)
  induction h with
  | none => exact Eq.refl _
  | bool b => exact Eq.refl _
  | @int i hi =>
    rw [asJson, templateValue, if_neg (by decide), he.small i hi, he.back i hi]
    exact Eq.refl _
  | str _ => exact Eq.refl _
  | @list items hitems ih =>
    have hle := (arranged_depth sortKeys (.list hitems)).trans hdepth
    rw [depth] at hdepth
    rw [arranged_list] at hle ⊢
    rw [asJson_list, templateValue, templateValues_ok toFloat fun x hx => ih x hx
      ((depths_le.mp (Nat.le_of_succ_le hdepth)) x hx)]
    exact hhold hle
  | @dict items hnodup hkeys hitems ih =>
    have hle := (arranged_depth sortKeys (.dict hnodup hkeys hitems)).trans hdepth
    have hperm := arrange_perm sortKeys items
    rw [depth] at hdepth
    rw [arranged_dict] at hle ⊢
    rw [asJson_dict, templateValue, templateMembers_ok toFloat (o := [])
      (fun x hx => List.not_mem_nil) ((hperm.map Prod.fst).nodup_iff.mpr hnodup)
      fun x hx => ih x (hperm.mem_iff.mp hx)
        (memberDepths_le.mp (Nat.le_of_succ_le hdepth) x (hperm.mem_iff.mp hx))]
    exact hhold hle

end Reading

end TemplateJson

end Llmx
