import Llmx.Fallible
import Llmx.HubPull
import Mathlib.Data.List.Nodup

namespace Llmx

namespace Hub

open Fallible

variable {δ : Type}

/-- A path's parts put together again. -/
def joined : List Bytes → Bytes
  | [] => []
  | [part] => part
  | part :: parts => part ++ slash :: joined parts

theorem components_ne_nil (s : Bytes) : components s ≠ [] := by
  cases s with
  | nil => exact List.cons_ne_nil _ _
  | cons c s =>
    rw [components]
    split_ifs <;> exact List.cons_ne_nil _ _

theorem joined_components (s : Bytes) : joined (components s) = s := by
  induction s with
  | nil => rfl
  | cons c s ih =>
    obtain ⟨part, parts, hparts⟩ := List.exists_cons_of_ne_nil (components_ne_nil s)
    rw [hparts] at ih
    rw [components, hparts]
    split
    next hc =>
      rw [joined, ih, hc, List.nil_append]
      exact fun h => absurd h (List.cons_ne_nil _ _)
    next hc =>
      cases parts with
      | nil => rw [← ih]; rfl
      | cons p ps => rw [← ih]; rfl

theorem components_injective {s t : Bytes} (h : components s = components t) : s = t := by
  rw [← joined_components s, ← joined_components t, h]

theorem components_append (s t : Bytes) :
    components (s ++ slash :: t) = components s ++ components t := by
  induction s with
  | nil =>
    show components (slash :: t) = [[]] ++ components t
    rw [components, if_pos rfl]
    rfl
  | cons c s ih =>
    rw [List.cons_append, components, components, ih]
    split
    next => rfl
    next =>
      obtain ⟨part, parts, hparts⟩ := List.exists_cons_of_ne_nil (components_ne_nil s)
      rw [hparts]
      rfl

theorem components_length (s : Bytes) : (components s).length = s.count slash + 1 := by
  induction s with
  | nil => rfl
  | cons c s ih =>
    obtain ⟨part, parts, hparts⟩ := List.exists_cons_of_ne_nil (components_ne_nil s)
    rw [hparts] at ih
    rw [components, List.count_cons, hparts]
    split
    next hc =>
      rw [hc, if_pos (beq_self_eq_true _), List.length_cons, ih]
    next hc =>
      have hne : ¬ (c == slash) = true := fun h => hc (eq_of_beq h)
      rw [if_neg hne, ← ih]
      rfl

theorem mem_components {s : Bytes} {c : UInt8} (h : c ∈ s) (hc : c ≠ slash)
    (hall : ∀ part ∈ components s, c ∉ part) : False := by
  induction s with
  | nil => exact List.not_mem_nil h
  | cons d s ih =>
    obtain ⟨p, ps, hparts⟩ := List.exists_cons_of_ne_nil (components_ne_nil s)
    rw [components, hparts] at hall
    rw [hparts] at ih
    split at hall
    next hd =>
      rcases List.mem_cons.mp h with hcd | h
      · exact hc (hcd.trans hd)
      · exact ih h fun q hq => hall q (List.mem_cons_of_mem _ hq)
    next hd =>
      rcases List.mem_cons.mp h with hcd | h
      · exact hall _ List.mem_cons_self (by rw [hcd]; exact List.mem_cons_self)
      · refine ih h fun q hq hcq => ?_
        rcases List.mem_cons.mp hq with hqp | hq
        · refine hall _ List.mem_cons_self (List.mem_cons_of_mem _ ?_)
          show c ∈ p
          rw [← hqp]
          exact hcq
        · exact hall q (List.mem_cons_of_mem _ hq) hcq

/-- A path that passed has no byte below a space. -/
theorem validatePath_bytes {path : Bytes} (h : validatePath path = .ok ()) : (0 : UInt8) ∉ path := by
  intro h0
  unfold validatePath at h
  split at h
  next => cases h
  next =>
    have hparts : ∀ parts, validateParts parts = .ok () → ∀ part ∈ parts, (0 : UInt8) ∉ part := by
      intro parts
      induction parts with
      | nil => exact fun _ part hp => absurd hp List.not_mem_nil
      | cons p parts ih =>
        intro hv part hp hmem
        rw [validateParts] at hv
        split at hv
        next => cases hv
        next =>
          obtain ⟨_, hpart, hrest⟩ := exists_of_bind hv
          rcases List.mem_cons.mp hp with rfl | hp
          · unfold validatePart at hpart
            split at hpart
            next => cases hpart
            next =>
              have hany : part.any notPortable = true := List.any_eq_true.mpr ⟨0, hmem, rfl⟩
              rw [if_pos hany] at hpart
              cases hpart
          · exact ih hrest part hp hmem
    exact mem_components h0 (by decide) (hparts _ h)

theorem digit_ne_slash {c : UInt8} (h : Json.isDigit c = true) : c ≠ slash := by
  intro hc
  rw [hc] at h
  exact absurd h (by decide)

theorem text_count_slash {s : Bytes} (h : lower s = text ".gguf") : s.count slash = 0 := by
  apply List.count_eq_zero.mpr
  intro hmem
  have hlow : lowerByte slash ∈ lower s := List.mem_map_of_mem hmem
  rw [h] at hlow
  exact absurd hlow (by decide)

theorem digits_count_slash {s : Bytes} (h : s.all Json.isDigit = true) : s.count slash = 0 :=
  List.count_eq_zero.mpr fun hmem => digit_ne_slash (List.all_eq_true.mp h _ hmem) rfl

theorem take_one {name : Bytes} {p : Nat} (hp : p < name.length) :
    (name.drop p).take 1 = [name.getD p 0] := by
  rw [List.drop_eq_getElem_cons hp, List.take_succ_cons, List.take_zero,
    List.getD_eq_getElem?_getD, List.getElem?_eq_getElem hp, Option.getD_some]

theorem drop_next (name : Bytes) (p n : Nat) :
    name.drop p = (name.drop p).take n ++ name.drop (p + n) := by
  rw [← List.drop_drop, List.take_append_drop]

/-- A shard's name in its parts. -/
theorem shardForm_split {name : Bytes} (h : shardForm name = true) :
    ∃ index count, name = name.take (name.length - 20) ++
        (text "-" ++ (index ++ (text "-of-" ++ (count ++ lastFive name)))) ∧
      index = (name.drop (name.length - 20 + 1)).take 5 ∧
      count = (name.drop (name.length - 20 + 10)).take 5 ∧ index.length = 5 ∧ count.length = 5 ∧
      index.all Json.isDigit = true ∧ count.all Json.isDigit = true ∧
      lower (lastFive name) = text ".gguf" := by
  unfold shardForm at h
  simp only [Bool.and_eq_true, decide_eq_true_eq, beq_iff_eq] at h
  obtain ⟨⟨⟨⟨⟨hlen, hlow⟩, hdash⟩, hof⟩, hindex⟩, hcount⟩ := h
  refine ⟨_, _, ?_, Eq.refl _, Eq.refl _, ?_, ?_, hindex, hcount, hlow⟩
  · have hlast : lastFive name = name.drop (name.length - 20 + 10 + 5) := by
      unfold lastFive
      rw [show name.length - 5 = name.length - 20 + 10 + 5 by omega]
    have hone : text "-" = (name.drop (name.length - 20)).take 1 := by
      rw [take_one (by omega), hdash]
      decide
    rw [hone, ← hof, hlast, ← drop_next, ← drop_next, ← drop_next _ (_ + 1), ← drop_next,
      List.take_append_drop]
  · rw [List.length_take, List.length_drop]
    omega
  · rw [List.length_take, List.length_drop]
    omega

/-- A shard's base has its name's slashes, and no bytes but its name's. -/
theorem shardName_base {name : Bytes} {shard : ShardName} (h : shardName name false = .ok shard) :
    shard.base.count slash = name.count slash ∧ ∀ c ∈ shard.base, c ∈ name := by
  unfold shardName at h
  split at h
  next hform =>
    rw [if_pos Bool.false_ne_true] at h
    have hbase : name.take (name.length - 20) ++ lastFive name = shard.base :=
      congrArg ShardName.base (Except.ok.inj h)
    obtain ⟨index, count, hsplit, -, -, -, -, hindex, hcount, hlow⟩ := shardForm_split hform
    have hslashes := congrArg (List.count slash) hsplit
    rw [List.count_append, List.count_append, List.count_append, List.count_append,
      List.count_append, digits_count_slash hindex, digits_count_slash hcount,
      text_count_slash hlow] at hslashes
    constructor
    · rw [← hbase, List.count_append, text_count_slash hlow, hslashes]
      exact Eq.refl _
    · intro c hc
      rw [← hbase] at hc
      rcases List.mem_append.mp hc with hc | hc
      · exact List.mem_of_mem_take hc
      · exact List.mem_of_mem_drop hc
  next =>
    cases Except.ok.inj h
    exact ⟨rfl, fun c hc => hc⟩

/-- The files of the groups, whose names in lower case are all different and `paths`; those of one
group have their base, and its key shows it. -/
structure Grouped (g : Gathered) : Prop where
  paths : (((g.groups.flatMap Prod.snd).map fun f => lower f.name).Perm g.paths)
  distinct : g.paths.Nodup
  keyed : ∀ group ∈ g.groups, ∀ f ∈ group.2, ∃ base count, group.1 = base ++ 0 :: decimal count ∧
    (0 : UInt8) ∉ base ∧ base.count slash = f.name.count slash

theorem flatMap_addFile (key : Bytes) (file : HubFile) (groups : List (Bytes × List HubFile)) :
    ((addFile key file groups).flatMap Prod.snd).Perm (file :: groups.flatMap Prod.snd) := by
  induction groups with
  | nil => exact List.Perm.refl _
  | cons group groups ih =>
    obtain ⟨k, files⟩ := group
    rw [addFile]
    split
    next =>
      show ((files ++ [file]) ++ groups.flatMap Prod.snd).Perm
        (file :: (files ++ groups.flatMap Prod.snd))
      rw [List.append_assoc]
      exact List.perm_middle
    next =>
      show (files ++ (addFile key file groups).flatMap Prod.snd).Perm
        (file :: (files ++ groups.flatMap Prod.snd))
      exact (ih.append_left files).trans List.perm_middle

theorem mem_addFile {key : Bytes} {file : HubFile} {groups : List (Bytes × List HubFile)}
    {group : Bytes × List HubFile} (h : group ∈ addFile key file groups) {f : HubFile}
    (hf : f ∈ group.2) : (∃ old ∈ groups, old.1 = group.1 ∧ f ∈ old.2) ∨ f = file ∧ group.1 = key := by
  induction groups with
  | nil =>
    rw [List.mem_singleton.mp h] at hf ⊢
    exact .inr ⟨List.mem_singleton.mp hf, rfl⟩
  | cons first groups ih =>
    obtain ⟨k, files⟩ := first
    rw [addFile] at h
    split at h
    next hk =>
      rcases List.mem_cons.mp h with heq | h
      · rw [heq] at hf ⊢
        rcases List.mem_append.mp hf with hf | hf
        · exact .inl ⟨_, List.mem_cons_self, rfl, hf⟩
        · exact .inr ⟨List.mem_singleton.mp hf, hk⟩
      · exact .inl ⟨group, List.mem_cons_of_mem _ h, rfl, hf⟩
    next =>
      rcases List.mem_cons.mp h with heq | h
      · rw [heq] at hf ⊢
        exact .inl ⟨_, List.mem_cons_self, rfl, hf⟩
      · rcases ih h with ⟨old, hold, hkey, hmem⟩ | hnew
        · exact .inl ⟨old, List.mem_cons_of_mem _ hold, hkey, hmem⟩
        · exact .inr hnew

theorem describeFile_name {whole : δ → Option Nat} {sibling : Json.Value δ} {name : Bytes}
    {file : HubFile} (h : describeFile whole sibling name = .ok file) : file.name = name := by
  obtain ⟨size, -, h⟩ := exists_of_bind h
  split at h
  next => cases h
  next =>
    obtain ⟨lfs, -, h⟩ := exists_of_bind h
    split at h
    · obtain ⟨digest, -, h⟩ := exists_of_bind h
      split at h
      next => exact congrArg HubFile.name (Except.ok.inj h).symm
      next => cases h
    · obtain ⟨digest, -, h⟩ := exists_of_bind h
      split at h
      next => exact congrArg HubFile.name (Except.ok.inj h).symm
      next => cases h
    · obtain ⟨digest, -, h⟩ := exists_of_bind h
      obtain ⟨lfsSize, -, h⟩ := exists_of_bind h
      split at h
      next => cases h
      next => exact congrArg HubFile.name (Except.ok.inj h).symm

theorem Grouped.gather {whole : δ → Option Nat} {quant : Bytes} {g g' : Gathered}
    {sibling : Json.Value δ} (hg : Grouped g) (h : gather whole quant g sibling = .ok g') :
    Grouped g' := by
  obtain ⟨name, -, h⟩ := exists_of_bind h
  split at h
  next =>
    cases Except.ok.inj h
    exact hg
  next =>
    obtain ⟨shard, hshard, h⟩ := exists_of_bind h
    split at h
    next =>
      cases Except.ok.inj h
      exact hg
    next =>
      obtain ⟨_, -, h⟩ := exists_of_bind h
      obtain ⟨_, hvalid, h⟩ := exists_of_bind h
      split at h
      next => cases h
      next hnew =>
        obtain ⟨file, hfile, h⟩ := exists_of_bind h
        cases Except.ok.inj h
        have hname := describeFile_name hfile
        obtain ⟨hslashes, hbytes⟩ := shardName_base hshard
        have hnot : lower name ∉ g.paths := fun hmem => hnew (List.contains_iff_mem.mpr hmem)
        refine ⟨?_, List.nodup_cons.mpr ⟨hnot, hg.distinct⟩, fun group hgroup f hf => ?_⟩
        · refine ((flatMap_addFile _ _ _).map _).trans ?_
          rw [List.map_cons, hname]
          exact hg.paths.cons _
        · rcases mem_addFile hgroup hf with ⟨old, hold, hkey, hmem⟩ | ⟨hf, hkey⟩
          · rw [← hkey]
            exact hg.keyed old hold f hmem
          · refine ⟨shard.base, shard.count, hkey, fun h0 => ?_, ?_⟩
            · exact validatePath_bytes hvalid (hbytes 0 h0)
            · rw [hf, hname, hslashes]

theorem Grouped.gatherAll {whole : δ → Option Nat} {quant : Bytes} {g g' : Gathered}
    {siblings : List (Json.Value δ)} (hg : Grouped g)
    (h : Hub.gatherAll whole quant g siblings = .ok g') : Grouped g' := by
  induction siblings generalizing g with
  | nil =>
    cases Except.ok.inj h
    exact hg
  | cons sibling siblings ih =>
    obtain ⟨mid, hmid, h⟩ := exists_of_bind h
    exact ih (hg.gather hmid) h

theorem zero_split {a b c d : Bytes} (ha : (0 : UInt8) ∉ a) (hc : (0 : UInt8) ∉ c)
    (h : a ++ 0 :: b = c ++ 0 :: d) : a = c := by
  induction a generalizing c with
  | nil =>
    cases c with
    | nil => rfl
    | cons x c =>
      have hx := (List.cons.inj h).1
      exact absurd (by rw [hx]; exact List.mem_cons_self) hc
  | cons x a ih =>
    cases c with
    | nil =>
      have hx := (List.cons.inj h).1
      exact absurd (by rw [hx]; exact List.mem_cons_self) ha
    | cons y c =>
      obtain ⟨hxy, hrest⟩ := List.cons.inj h
      rw [hxy, ih (fun hm => ha (List.mem_cons_of_mem _ hm))
        (fun hm => hc (List.mem_cons_of_mem _ hm)) hrest]

/-- A choice is a group: the one that has the file asked for, or the only one. -/
theorem choose_mem {filename : Bytes} {groups : List (Bytes × List HubFile)} {files : List HubFile}
    (h : choose filename groups = .ok files) : ∃ group ∈ groups, group.2 = files ∧
      (filename = [] → groups = [group]) ∧
      (filename ≠ [] → ∃ file ∈ files, file.name = filename) := by
  unfold choose at h
  split at h
  next => cases h
  next =>
    split at h
    next hnamed =>
      split at h
      next group hfind =>
        cases Except.ok.inj h
        have hany : group.2.any (fun file => file.name == filename) = true :=
          List.find?_some (p := fun group : Bytes × List HubFile =>
            group.2.any fun file => file.name == filename) hfind
        obtain ⟨file, hfile, hname⟩ := List.any_eq_true.mp hany
        exact ⟨group, List.mem_of_find?_eq_some hfind, Eq.refl _, fun hnone => absurd hnone hnamed,
          fun _ => ⟨file, hfile, eq_of_beq hname⟩⟩
      next => cases h
    next hnone =>
      split at h
      next group _ =>
        exact ⟨group, List.mem_singleton_self _, Except.ok.inj h, fun _ => Eq.refl _,
          fun hnamed => absurd hnamed hnone⟩
      next => cases h

/-- What a selection that returns has read and checked. -/
structure Selects (conv : Json.Conversion δ) (whole : δ → Option Nat)
    (metadata quant filename : Bytes) (m : Manifest) (root : Json.Value δ)
    (siblings : List (Json.Value δ)) (g : Gathered) (chosen : List HubFile) : Prop where
  parsed : Json.parse conv metadata = .ok root
  listed : member root (text "siblings") = .ok (.array siblings)
  gathered : gatherAll whole quant ⟨[], []⟩ siblings = .ok g
  chose : choose filename g.groups = .ok chosen
  checked : checkSet (sortFiles chosen) = .ok ()
  files : m.files = sortFiles chosen

theorem select_ok {conv : Json.Conversion δ} {whole : δ → Option Nat}
    {metadata quant filename : Bytes} {m : Manifest}
    (h : select conv whole metadata quant filename = .ok m) : ∃ root siblings g chosen,
      Selects conv whole metadata quant filename m root siblings g chosen := by
  obtain ⟨_, -, h⟩ := exists_of_bind h
  obtain ⟨_, -, h⟩ := exists_of_bind h
  obtain ⟨root, hroot, h⟩ := exists_of_bind h
  obtain ⟨revision, -, h⟩ := exists_of_bind h
  split at h
  next => cases h
  next =>
    obtain ⟨listed, hlisted, h⟩ := exists_of_bind h
    split at h
    next siblings =>
      obtain ⟨g, hg, h⟩ := exists_of_bind h
      obtain ⟨chosen, hchosen, h⟩ := exists_of_bind h
      obtain ⟨_, hchecked, h⟩ := exists_of_bind h
      have hparsed : Json.parse conv metadata = .ok root := by
        cases hp : Json.parse conv metadata with
        | error e =>
          rw [hp] at hroot
          cases hroot
        | ok v =>
          rw [hp] at hroot
          cases hroot
          exact Eq.refl _
      exact ⟨root, siblings, g, chosen, hparsed, hlisted, hg, hchosen, hchecked,
        congrArg Manifest.files (Except.ok.inj h).symm⟩
    next => cases h

theorem grouped_of_gatherAll {whole : δ → Option Nat} {quant : Bytes} {g : Gathered}
    {siblings : List (Json.Value δ)} (h : gatherAll whole quant ⟨[], []⟩ siblings = .ok g) :
    Grouped g := by
  refine Grouped.gatherAll ⟨List.Perm.refl _, List.nodup_nil, ?_⟩ h
  intro group hgroup
  exact absurd hgroup List.not_mem_nil

/-- A manifest's files stand in one directory under different names. -/
theorem select_files {conv : Json.Conversion δ} {whole : δ → Option Nat}
    {metadata quant filename : Bytes} {m : Manifest}
    (h : select conv whole metadata quant filename = .ok m) :
    (m.files.map HubFile.name).Nodup ∧
      ∀ f ∈ m.files, ∀ g ∈ m.files, f.name.count slash = g.name.count slash := by
  obtain ⟨root, siblings, g, chosen, hselects⟩ := select_ok h
  have hgrouped := grouped_of_gatherAll hselects.gathered
  obtain ⟨group, hgroup, hchosen, -⟩ := choose_mem hselects.chose
  have hperm : m.files.Perm chosen := by
    rw [hselects.files]
    exact List.mergeSort_perm _ _
  constructor
  · have hall := (hgrouped.paths.nodup_iff).mpr hgrouped.distinct
    have hsub : chosen.Sublist (g.groups.flatMap Prod.snd) := by
      rw [← hchosen]
      exact List.sublist_flatten_of_mem (List.mem_map_of_mem hgroup)
    have hlower := (hsub.map fun f => lower f.name).nodup hall
    have hmap : chosen.map (fun f => lower f.name) = (chosen.map HubFile.name).map lower := by
      rw [List.map_map]
      rfl
    rw [hmap] at hlower
    exact ((hperm.map HubFile.name).nodup_iff).mpr hlower.of_map
  · intro f hf f' hf'
    have hkeyed := hgrouped.keyed group hgroup
    rw [hchosen] at hkeyed
    obtain ⟨base, count, hkey, h0, hslash⟩ := hkeyed f (hperm.mem_iff.mp hf)
    obtain ⟨base', count', hkey', h0', hslash'⟩ := hkeyed f' (hperm.mem_iff.mp hf')
    have hbase := zero_split h0 h0' (hkey.symm.trans hkey')
    rw [← hslash, hbase, hslash']

end Hub

end Llmx
