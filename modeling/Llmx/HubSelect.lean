import Llmx.HubNames

namespace Llmx

namespace Hub

open Fallible

variable {δ : Type}

section Paths

/-- A part of a path that is a name of its own on every system. -/
structure Portable (part : Bytes) : Prop where
  named : part ≠ [] ∧ part ≠ text "." ∧ part ≠ text ".."
  ending : part.getLast? ≠ some '.'.toUInt8 ∧ part.getLast? ≠ some ' '.toUInt8
  bytes : ∀ c ∈ part, 32 ≤ c ∧ c ≠ 127 ∧ c ≠ slash ∧ c ∉ text "\\:*?\"<>|"
  device : reserved part = false

/-- Where a path's parts lead from a directory, each a list of names. -/
def walk : List Bytes → List Bytes → List Bytes
  | directory, [] => directory
  | directory, part :: parts =>
    walk (if part = [] ∨ part = text "." then directory
      else if part = text ".." then directory.dropLast else directory ++ [part]) parts

/-- The place of a path under a directory; one that begins with a slash is no path under it. -/
def placeUnder (directory : List Bytes) (path : Bytes) : List Bytes :=
  walk (if path.head? = some slash then [] else directory) (components path)

variable {path part : Bytes}

theorem components_slash (s : Bytes) : ∀ part ∈ components s, slash ∉ part := by
  induction s with
  | nil =>
    intro part hpart
    rw [List.mem_singleton.mp hpart]
    exact List.not_mem_nil
  | cons c s ih =>
    obtain ⟨p, ps, hparts⟩ := List.exists_cons_of_ne_nil (components_ne_nil s)
    rw [hparts] at ih
    rw [components, hparts]
    split
    next =>
      intro part hpart
      rcases List.mem_cons.mp hpart with rfl | hpart
      · exact List.not_mem_nil
      · exact ih part hpart
    next hc =>
      intro part hpart
      rcases List.mem_cons.mp hpart with rfl | hpart
      · intro hmem
        rcases List.mem_cons.mp hmem with heq | hmem
        · exact hc heq.symm
        · exact ih p List.mem_cons_self hmem
      · exact ih part (List.mem_cons_of_mem _ hpart)

theorem validatePart_portable (h : validatePart part = .ok ()) (hslash : slash ∉ part) :
    Portable part := by
  unfold validatePart at h
  split at h
  next => cases h
  next hsafe =>
    split at h
    next => cases h
    next hbytes =>
      split at h
      next => cases h
      next hdevice =>
        simp only [not_or] at hsafe
        refine ⟨⟨hsafe.1, hsafe.2.1, hsafe.2.2.1⟩, hsafe.2.2.2, fun c hc => ?_,
          eq_false_of_ne_true hdevice⟩
        have hnot : notPortable c = false :=
          eq_false_of_ne_true fun h => hbytes (List.any_eq_true.mpr ⟨c, hc, h⟩)
        unfold notPortable at hnot
        simp only [Bool.or_eq_false_iff, decide_eq_false_iff_not, beq_eq_false_iff_ne] at hnot
        refine ⟨UInt8.not_lt.mp hnot.1.1, hnot.1.2, fun heq => hslash (heq ▸ hc), fun hmem => ?_⟩
        exact Bool.false_ne_true (hnot.2.symm.trans (List.contains_iff_mem.mpr hmem))

theorem validateParts_all {parts : List Bytes} (h : validateParts parts = .ok ()) :
    ∀ part ∈ parts, validatePart part = .ok () := by
  induction parts with
  | nil => exact fun part hpart => absurd hpart List.not_mem_nil
  | cons p parts ih =>
    rw [validateParts] at h
    split at h
    next => cases h
    next =>
      obtain ⟨_, hp, hrest⟩ := exists_of_bind h
      intro part hpart
      rcases List.mem_cons.mp hpart with rfl | hpart
      · exact hp
      · exact ih hrest part hpart

theorem validatePath_portable (h : validatePath path = .ok ()) :
    path ≠ [] ∧ path.length ≤ 4096 ∧ ∀ part ∈ components path, Portable part := by
  unfold validatePath at h
  split at h
  next => cases h
  next hlength =>
    obtain ⟨hne, hshort⟩ := not_or.mp hlength
    refine ⟨hne, Nat.le_of_not_lt hshort, fun part hpart => ?_⟩
    exact validatePart_portable (validateParts_all h part hpart) (components_slash path part hpart)

/-- Portable parts only lead down. -/
theorem walk_portable {directory parts : List Bytes} (h : ∀ part ∈ parts, Portable part) :
    walk directory parts = directory ++ parts := by
  induction parts generalizing directory with
  | nil => exact (List.append_nil _).symm
  | cons part parts ih =>
    obtain ⟨hne, hdot, hup⟩ := (h part List.mem_cons_self).named
    rw [walk, if_neg (fun hor => hor.elim hne hdot), if_neg hup,
      ih fun p hp => h p (List.mem_cons_of_mem _ hp), List.append_assoc, List.singleton_append]

theorem placeUnder_portable (directory : List Bytes) (hne : path ≠ [])
    (h : ∀ part ∈ components path, Portable part) :
    placeUnder directory path = directory ++ components path := by
  have hrelative : path.head? ≠ some slash := by
    intro hhead
    obtain ⟨rest, rfl⟩ := List.head?_eq_some_iff.mp hhead
    rw [components, if_pos (Eq.refl _)] at h
    exact (h [] List.mem_cons_self).named.1 (Eq.refl _)
  unfold placeUnder
  rw [if_neg hrelative, walk_portable h]

end Paths

section Names

/-- A base name ends in the quant's, from its start or after a separator, whatever the case. -/
def AtSeparator (quant base : Bytes) : Prop :=
  ∃ before, lower base = before ++ (lower quant ++ text ".gguf") ∧
    (before = [] ∨ ∃ c ∈ text "-./_", before.getLast? = some c)

theorem ofQuant_iff {quant base : Bytes} :
    ofQuant quant (lower base) = true ↔ AtSeparator quant base := by
  unfold ofQuant AtSeparator
  simp only [Bool.and_eq_true, Bool.or_eq_true, decide_eq_true_eq, beq_iff_eq]
  generalize lower quant ++ text ".gguf" = suffix
  generalize lower base = s
  have hlast : ∀ n, 0 < n → n ≤ s.length → (s.take n).getLast? = some (s.getD (n - 1) 0) := by
    intro n hn hle
    rw [List.getLast?_take, if_neg (by omega), List.getD_eq_getElem?_getD,
      List.getElem?_eq_getElem (by omega)]
    exact Eq.refl _
  constructor
  · intro ⟨⟨hle, hdrop⟩, hbefore⟩
    refine ⟨s.take (s.length - suffix.length), ?_, ?_⟩
    · have hsplit := List.take_append_drop (s.length - suffix.length) s
      rw [hdrop] at hsplit
      exact hsplit.symm
    · rcases Nat.eq_zero_or_pos (s.length - suffix.length) with hzero | hpos
      · rw [hzero]
        exact .inl List.take_zero
      · refine .inr ⟨_, ?_, hlast _ hpos (Nat.sub_le _ _)⟩
        exact List.contains_iff_mem.mp (hbefore.resolve_left (Nat.ne_of_gt hpos))
  · intro ⟨before, hs, hbefore⟩
    have hlength := congrArg List.length hs
    rw [List.length_append] at hlength
    have hn : s.length - suffix.length = before.length := by omega
    rw [hn]
    refine ⟨⟨by omega, ?_⟩, ?_⟩
    · rw [hs, List.drop_left]
    · rcases hbefore with rfl | ⟨c, hc, hend⟩
      · exact .inl (Eq.refl _)
      · refine .inr (List.contains_iff_mem.mpr ?_)
        have hpos : 0 < before.length := List.length_pos_of_mem (List.mem_of_getLast? hend)
        have hat := hlast before.length hpos (by omega)
        rw [show s.take before.length = before by rw [hs, List.take_left], hend] at hat
        rw [← Option.some.inj hat]
        exact hc

def fiveDigits (n : Nat) : Bytes :=
  [10000, 1000, 100, 10, 1].map fun p => UInt8.ofNat (48 + n / p % 10)

/-- The name of shard `index` of `count` of a base name. -/
def shardText (base : Bytes) (index count : Nat) : Bytes :=
  base.take (base.length - 5) ++ (text "-" ++ (fiveDigits index ++ (text "-of-" ++
    (fiveDigits count ++ text ".gguf"))))

theorem digit_range {c : UInt8} (h : Json.isDigit c = true) : 48 ≤ c.toNat ∧ c.toNat ≤ 57 := by
  unfold Json.isDigit at h
  obtain ⟨hlow, hhigh⟩ := Bool.and_eq_true_iff.mp h
  exact ⟨UInt8.le_iff_toNat_le.mp (of_decide_eq_true hlow),
    UInt8.le_iff_toNat_le.mp (of_decide_eq_true hhigh)⟩

theorem fiveDigits_value {d : Bytes} (hlength : d.length = 5) (hd : d.all Json.isDigit = true) :
    fiveDigits (digitsValue d) = d := by
  obtain ⟨a, d, rfl⟩ := List.exists_cons_of_length_eq_add_one hlength
  obtain ⟨b, d, rfl⟩ := List.exists_cons_of_length_eq_add_one (Nat.succ.inj hlength)
  obtain ⟨c, d, rfl⟩ := List.exists_cons_of_length_eq_add_one (Nat.succ.inj (Nat.succ.inj hlength))
  obtain ⟨e, d, rfl⟩ :=
    List.exists_cons_of_length_eq_add_one (Nat.succ.inj (Nat.succ.inj (Nat.succ.inj hlength)))
  obtain ⟨f, rfl⟩ := List.length_eq_one_iff.mp
    (Nat.succ.inj (Nat.succ.inj (Nat.succ.inj (Nat.succ.inj hlength))))
  simp only [List.all_cons, List.all_nil, Bool.and_true, Bool.and_eq_true] at hd
  obtain ⟨ha, hb, hc, he, hf⟩ := hd
  have ha := digit_range ha
  have hb := digit_range hb
  have hc := digit_range hc
  have he := digit_range he
  have hf := digit_range hf
  have hbyte : ∀ (x : UInt8) (n : Nat), x.toNat = 48 + n % 10 → UInt8.ofNat (48 + n % 10) = x := by
    intro x n hx
    rw [← hx]
    exact UInt8.ofNat_toNat
  have hvalue : digitsValue [a, b, c, e, f] = ((((a.toNat - 48) * 10 + (b.toNat - 48)) * 10 +
      (c.toNat - 48)) * 10 + (e.toNat - 48)) * 10 + (f.toNat - 48) := by
    unfold digitsValue
    simp only [List.foldl_cons, List.foldl_nil]
    omega
  unfold fiveDigits
  rw [hvalue]
  simp only [List.map_cons, List.map_nil]
  rw [hbyte a _ (by omega), hbyte b _ (by omega), hbyte c _ (by omega), hbyte e _ (by omega),
    hbyte f _ (by omega)]

/-- A name that is no shard's is its own base, and one that is reads as written. -/
theorem shardName_cases {name : Bytes} {shard : ShardName} (h : shardName name true = .ok shard) :
    (shard = ⟨name, 0, 0⟩ ∨ 1 ≤ shard.index ∧ shard.index ≤ shard.count ∧
      shard.count ≤ 65535 ∧ name = shardText shard.base shard.index shard.count) ∧
      shardName name false = .ok shard := by
  unfold shardName at h ⊢
  split at h
  next hform =>
    rw [if_pos hform]
    dsimp only at h ⊢
    rw [if_neg (not_not.mpr (Eq.refl _))] at h
    rw [if_pos Bool.false_ne_true]
    split at h
    next => cases h
    next hnumbers =>
      split at h
      next => cases h
      next hext =>
        cases Except.ok.inj h
        refine ⟨.inr ?_, Eq.refl _⟩
        obtain ⟨index, count, hsplit, hindex, hcount, hi, hc, hid, hcd, -⟩ := shardForm_split hform
        simp only [not_or] at hnumbers
        obtain ⟨hi0, hc0, hle, hmost⟩ := hnumbers
        dsimp only
        refine ⟨by omega, by omega, by omega, ?_⟩
        have hlast : lastFive name = text ".gguf" := not_not.mp hext
        have hlength : (lastFive name).length = 5 := by
          rw [hlast]
          decide
        unfold shardText
        rw [List.length_append, hlength, Nat.add_sub_cancel, List.take_left, ← hindex, ← hcount,
          fiveDigits_value hi hid, fiveDigits_value hc hcd, ← hlast]
        exact hsplit
  next hform =>
    rw [if_neg hform]
    cases Except.ok.inj h
    exact ⟨.inl (Eq.refl _), Eq.refl _⟩

theorem digitsValue_decimal (n : Nat) : digitsValue (decimal n) = n := by
  have hfold : ∀ (l : List Char) (init : Nat), (∀ c ∈ l, c.isDigit = true) →
      (l.map Char.toUInt8).foldl (fun n c => n * 10 + (c.toNat - 48)) init =
        Nat.ofDigitChars 10 l init := by
    intro l
    induction l with
    | nil => exact fun init _ => Nat.ofDigitChars_nil.symm
    | cons c l ih =>
      intro init hl
      have hdigit := Char.isDigit_iff_toNat.mp (hl c List.mem_cons_self)
      have hc : c.toUInt8.toNat = c.toNat := by
        have hle : c.toNat ≤ 57 := hdigit.2
        show c.toNat % 256 = c.toNat
        omega
      rw [List.map_cons, List.foldl_cons, Nat.ofDigitChars_cons,
        ih _ fun d hd => hl d (List.mem_cons_of_mem _ hd), hc, Nat.mul_comm]
      exact Eq.refl _
  unfold digitsValue decimal
  rw [hfold _ _ fun c hc => Nat.isDigit_of_mem_toDigits (by decide) (by decide) hc]
  exact Nat.ofDigitChars_ten_toDigits

/-- A group's key shows its base and its count. -/
theorem key_injective {base base' : Bytes} {count count' : Nat} (h0 : (0 : UInt8) ∉ base)
    (h0' : (0 : UInt8) ∉ base') (h : base ++ 0 :: decimal count = base' ++ 0 :: decimal count') :
    base = base' ∧ count = count' := by
  have hbase := zero_split h0 h0' h
  rw [hbase] at h
  have hcount := congrArg digitsValue (List.cons.inj (List.append_cancel_left h)).2
  rw [digitsValue_decimal, digitsValue_decimal] at hcount
  exact ⟨hbase, hcount⟩

end Names

section Gathering

variable {whole : δ → Option Nat} {quant : Bytes}

/-- Whether a name is a GGUF file's of the quant. -/
def isOf (quant name : Bytes) : Bool :=
  decide (5 ≤ name.length) && lower (lastFive name) == text ".gguf" &&
    ((shardName name false).toOption.any fun shard => ofQuant quant (lower shard.base))

/-- The name a sibling lists of the quant. -/
def nameOf (quant : Bytes) (sibling : Json.Value δ) : Option Bytes :=
  (stringMember sibling (text "rfilename")).toOption.filter (isOf quant)

/-- The names the siblings list of the quant. -/
def matchingNames (quant : Bytes) (siblings : List (Json.Value δ)) : List Bytes :=
  siblings.filterMap (nameOf quant)

/-- A sibling's file, its name and its other members well formed. -/
structure Describes (whole : δ → Option Nat) (sibling : Json.Value δ) (f : HubFile) : Prop where
  named : stringMember sibling (text "rfilename") = .ok f.name
  numbered : ∃ shard, shardName f.name true = .ok shard
  valid : validatePath f.name = .ok ()
  described : describeFile whole sibling f.name = .ok f

/-- The siblings gathered: each named, and those of the quant described in the groups, by base and
count. -/
structure Gathers (whole : δ → Option Nat) (quant : Bytes) (siblings : List (Json.Value δ))
    (g : Gathered) : Prop where
  named : ∀ sibling ∈ siblings, ∃ name, stringMember sibling (text "rfilename") = .ok name
  files : ∃ files, List.Forall₂ (Describes whole)
    (siblings.filter fun sibling => (nameOf quant sibling).isSome) files ∧
      (g.groups.flatMap Prod.snd).Perm files
  keys : (g.groups.map Prod.fst).Nodup
  keyed : ∀ group ∈ g.groups, group.2 ≠ [] ∧ ∀ f ∈ group.2, ∃ shard,
    shardName f.name true = .ok shard ∧ group.1 = shard.base ++ 0 :: decimal shard.count ∧
      (0 : UInt8) ∉ shard.base

theorem addFile_keys (key : Bytes) (file : HubFile) (groups : List (Bytes × List HubFile)) :
    key ∈ groups.map Prod.fst ∧ (addFile key file groups).map Prod.fst = groups.map Prod.fst ∨
      key ∉ groups.map Prod.fst ∧
        (addFile key file groups).map Prod.fst = groups.map Prod.fst ++ [key] := by
  induction groups with
  | nil => exact .inr ⟨List.not_mem_nil, Eq.refl _⟩
  | cons group groups ih =>
    obtain ⟨k, files⟩ := group
    rw [addFile, List.map_cons]
    by_cases hk : k = key
    · rw [if_pos hk]
      refine .inl ⟨?_, Eq.refl _⟩
      rw [hk]
      exact List.mem_cons_self
    · rw [if_neg hk, List.map_cons]
      rcases ih with ⟨hmem, hkeys⟩ | ⟨hmem, hkeys⟩
      · exact .inl ⟨List.mem_cons_of_mem _ hmem, congrArg (k :: ·) hkeys⟩
      · refine .inr ⟨fun h => ?_, congrArg (k :: ·) hkeys⟩
        exact (List.mem_cons.mp h).elim (fun h => hk h.symm) hmem

theorem addFile_ne_nil {key : Bytes} {file : HubFile} {groups : List (Bytes × List HubFile)}
    (h : ∀ group ∈ groups, group.2 ≠ []) : ∀ group ∈ addFile key file groups, group.2 ≠ [] := by
  induction groups with
  | nil =>
    intro group hgroup
    rw [List.mem_singleton.mp hgroup]
    exact List.cons_ne_nil _ _
  | cons first groups ih =>
    obtain ⟨k, files⟩ := first
    rw [addFile]
    split
    next =>
      intro group hgroup
      rcases List.mem_cons.mp hgroup with rfl | hgroup
      · exact List.append_ne_nil_of_right_ne_nil _ (List.cons_ne_nil _ _)
      · exact h group (List.mem_cons_of_mem _ hgroup)
    next =>
      intro group hgroup
      rcases List.mem_cons.mp hgroup with rfl | hgroup
      · exact h _ List.mem_cons_self
      · exact ih (fun g hg => h g (List.mem_cons_of_mem _ hg)) group hgroup

/-- What one sibling adds: nothing, or its file. -/
theorem gather_cases {g g' : Gathered} {sibling : Json.Value δ}
    (h : gather whole quant g sibling = .ok g') :
    (∃ name, stringMember sibling (text "rfilename") = .ok name) ∧
      (nameOf quant sibling = none ∧ g' = g ∨
        ∃ f shard, nameOf quant sibling = some f.name ∧ Describes whole sibling f ∧
          shardName f.name true = .ok shard ∧
          g'.groups = addFile (shard.base ++ 0 :: decimal shard.count) f g.groups) := by
  obtain ⟨name, hname, h⟩ := exists_of_bind h
  refine ⟨⟨name, hname⟩, ?_⟩
  have hof : nameOf quant sibling = if isOf quant name then some name else none := by
    unfold nameOf
    rw [hname]
    exact Option.filter_some
  split at h
  next hnot =>
    refine .inl ⟨?_, (Except.ok.inj h).symm⟩
    rw [hof, if_neg]
    intro his
    unfold isOf at his
    simp only [Bool.and_eq_true, decide_eq_true_eq, beq_iff_eq] at his
    exact hnot.elim (fun hshort => absurd his.1.1 (Nat.not_le.mpr hshort)) fun hext => hext his.1.2
  next hgguf =>
    obtain ⟨hlong, hext⟩ := not_or.mp hgguf
    obtain ⟨shard, hshard, h⟩ := exists_of_bind h
    have his : isOf quant name = ofQuant quant (lower shard.base) := by
      unfold isOf
      rw [hshard, decide_eq_true (Nat.le_of_not_lt hlong), not_not.mp hext, beq_self_eq_true]
      exact Bool.true_and _
    split at h
    next hno =>
      refine .inl ⟨?_, (Except.ok.inj h).symm⟩
      rw [hof, if_neg]
      rw [his]
      exact hno
    next hyes =>
      obtain ⟨shard', hnumbered, h⟩ := exists_of_bind h
      obtain ⟨_, hvalid, h⟩ := exists_of_bind h
      split at h
      next => cases h
      next =>
        obtain ⟨f, hf, h⟩ := exists_of_bind h
        have hfname := describeFile_name hf
        have hsame : shard' = shard :=
          Except.ok.inj ((shardName_cases hnumbered).2.symm.trans hshard)
        rw [hsame] at hnumbered
        refine .inr ⟨f, shard, ?_, ?_, ?_, ?_⟩
        · rw [hof, if_pos, hfname]
          rw [his]
          exact not_not.mp hyes
        · refine ⟨?_, ⟨shard, ?_⟩, ?_, ?_⟩
          · rw [hfname]
            exact hname
          · rw [hfname]
            exact hnumbered
          · rw [hfname]
            exact hvalid
          · rw [hfname]
            exact hf
        · rw [hfname]
          exact hnumbered
        · exact congrArg Gathered.groups (Except.ok.inj h).symm

theorem Gathers.gather {done : List (Json.Value δ)} {g g' : Gathered} {sibling : Json.Value δ}
    (hg : Gathers whole quant done g) (h : gather whole quant g sibling = .ok g') :
    Gathers whole quant (done ++ [sibling]) g' := by
  obtain ⟨hnamed, hcase⟩ := gather_cases h
  have hall : ∀ s ∈ done ++ [sibling], ∃ name, stringMember s (text "rfilename") = .ok name := by
    intro s hs
    rcases List.mem_append.mp hs with hs | hs
    · exact hg.named s hs
    · rw [List.mem_singleton.mp hs]
      exact hnamed
  obtain ⟨files, hfiles, hperm⟩ := hg.files
  rcases hcase with ⟨hnone, rfl⟩ | ⟨f, shard, hsome, hdescribes, hshard, hgroups⟩
  · refine ⟨hall, ⟨files, ?_, hperm⟩, hg.keys, hg.keyed⟩
    rw [List.filter_append, List.filter_singleton, hnone]
    exact (List.append_nil _).symm ▸ hfiles
  · refine ⟨hall, ⟨files ++ [f], ?_, ?_⟩, ?_, fun group hgroup => ⟨?_, fun f' hf' => ?_⟩⟩
    · rw [List.filter_append, List.filter_singleton, hsome]
      exact List.rel_append hfiles (List.Forall₂.cons hdescribes List.Forall₂.nil)
    · rw [hgroups]
      refine (flatMap_addFile _ _ _).trans ?_
      exact (hperm.cons f).trans (List.perm_append_singleton f files).symm
    · rw [hgroups]
      rcases addFile_keys (shard.base ++ 0 :: decimal shard.count) f g.groups with
        ⟨-, hkeys⟩ | ⟨hnew, hkeys⟩
      · rw [hkeys]
        exact hg.keys
      · rw [hkeys]
        refine List.nodup_append.mpr ⟨hg.keys, List.nodup_singleton _, fun a ha b hb heq => ?_⟩
        rw [heq, List.mem_singleton.mp hb] at ha
        exact hnew ha
    · rw [hgroups] at hgroup
      exact addFile_ne_nil (fun g hg' => (hg.keyed g hg').1) group hgroup
    · rw [hgroups] at hgroup
      rcases mem_addFile hgroup hf' with ⟨old, hold, hkey, hmem⟩ | ⟨rfl, hkey⟩
      · rw [← hkey]
        exact (hg.keyed old hold).2 f' hmem
      · refine ⟨shard, hshard, hkey, fun h0 => ?_⟩
        obtain ⟨-, hbytes⟩ := shardName_base (shardName_cases hshard).2
        exact validatePath_bytes hdescribes.valid (hbytes 0 h0)

theorem Gathers.gatherAll {done siblings : List (Json.Value δ)} {g g' : Gathered}
    (hg : Gathers whole quant done g) (h : Hub.gatherAll whole quant g siblings = .ok g') :
    Gathers whole quant (done ++ siblings) g' := by
  induction siblings generalizing done g with
  | nil =>
    cases Except.ok.inj h
    rw [List.append_nil]
    exact hg
  | cons sibling siblings ih =>
    obtain ⟨mid, hmid, h⟩ := exists_of_bind h
    have hrest := ih (hg.gather hmid) h
    rw [List.append_assoc] at hrest
    exact hrest

theorem gathers_of_gatherAll {siblings : List (Json.Value δ)} {g : Gathered}
    (h : Hub.gatherAll whole quant ⟨[], []⟩ siblings = .ok g) : Gathers whole quant siblings g := by
  have hstart : Gathers whole quant [] ⟨[], []⟩ :=
    ⟨fun s hs => absurd hs List.not_mem_nil, ⟨[], List.Forall₂.nil, List.Perm.refl _⟩,
      List.nodup_nil, fun group hgroup => absurd hgroup List.not_mem_nil⟩
  exact hstart.gatherAll h

theorem describes_names {siblings : List (Json.Value δ)} {files : List HubFile}
    (h : List.Forall₂ (Describes whole)
      (siblings.filter fun sibling => (nameOf quant sibling).isSome) files) :
    files.map HubFile.name = matchingNames quant siblings := by
  induction siblings generalizing files with
  | nil =>
    cases h
    exact Eq.refl _
  | cons sibling siblings ih =>
    unfold matchingNames
    rw [List.filterMap_cons]
    rw [List.filter_cons] at h
    cases hname : nameOf quant sibling with
    | none =>
      rw [hname] at h
      exact ih h
    | some name =>
      rw [hname] at h
      cases h with
      | @cons _ f _ files hf hrest =>
        have hsame : f.name = name := by
          unfold nameOf at hname
          rw [hf.named] at hname
          exact (Option.filter_eq_some_iff.mp hname).1 |> Option.some.inj
        rw [List.map_cons, ih hrest, hsame]
        exact Eq.refl _

end Gathering

section Sets

variable {quant filename : Bytes} {files : List HubFile}

theorem checkShards_names {count : Nat} (hcount : count ≠ 0) {i : Nat} {base : Bytes}
    (h : checkShards count i files = .ok ())
    (hbase : ∀ f ∈ files, ∀ shard, shardName f.name true = .ok shard → shard.base = base) :
    files.map HubFile.name =
      (List.range' i files.length).map fun i => shardText base (i + 1) count := by
  induction files generalizing i with
  | nil => exact Eq.refl _
  | cons f files ih =>
    obtain ⟨shard, hshard, h⟩ := exists_of_bind h
    split at h
    next => cases h
    next hsame =>
      obtain ⟨hindex, hnumber⟩ := not_or.mp hsame
      have hindex := not_not.mp hindex
      have hnumber := not_not.mp hnumber
      have hthis := hbase f List.mem_cons_self shard hshard
      rw [List.map_cons, List.length_cons, List.range'_succ, List.map_cons,
        ih h fun f' hf' => hbase f' (List.mem_cons_of_mem _ hf')]
      congr 1
      rcases (shardName_cases hshard).1 with rfl | ⟨-, -, -, hname⟩
      · exact absurd hnumber.symm hcount
      · rw [hname, hthis, hindex, hnumber]

/-- A set that passes is one file that is no shard's, or all the shards of a count in order. -/
theorem checkSet_names {base : Bytes} {count : Nat} (hne : files ≠ []) (h : checkSet files = .ok ())
    (hbase : ∀ f ∈ files, ∀ shard, shardName f.name true = .ok shard →
      shard.base = base ∧ shard.count = count) :
    files.map HubFile.name =
      if count = 0 then [base]
      else (List.range count).map fun i => shardText base (i + 1) count := by
  obtain ⟨f, rest, rfl⟩ := List.exists_cons_of_ne_nil hne
  obtain ⟨shard, hshard, h⟩ := exists_of_bind h
  obtain ⟨hthis, hcount⟩ := hbase f List.mem_cons_self shard hshard
  rw [hcount] at h
  split at h
  next hsharded =>
    split at h
    next => cases h
    next hlength =>
      have hnames := checkShards_names hsharded h fun f' hf' s hs => (hbase f' hf' s hs).1
      rw [hnames, if_neg hsharded, not_not.mp hlength, List.range_eq_range']
  next hzero =>
    split at h
    next => cases h
    next hone =>
      have hzero := not_not.mp hzero
      obtain rfl := List.length_eq_zero_iff.mp (Nat.succ.inj (not_not.mp hone))
      rw [if_pos hzero]
      rcases (shardName_cases hshard).1 with rfl | ⟨hi, hle, -, -⟩
      · exact congrArg (fun b => [b]) hthis
      · omega

end Sets

section Selections

variable {conv : Json.Conversion δ} {whole : δ → Option Nat} {metadata quant filename : Bytes}
  {siblings : List (Json.Value δ)} {files : List HubFile}

def arrayOf : Json.Value δ → Option (List (Json.Value δ))
  | .array values => some values
  | _ => none

/-- The siblings a metadata text lists. -/
def siblingsOf (conv : Json.Conversion δ) (metadata : Bytes) : Option (List (Json.Value δ)) :=
  (Json.parse conv metadata).toOption.bind fun root =>
    (member root (text "siblings")).toOption.bind arrayOf

/-- The base name and shard count of a name, 0 where it is no shard's. -/
def setOf (name : Bytes) : Option (Bytes × Nat) :=
  (shardName name false).toOption.map fun shard => (shard.base, shard.count)

structure WellFormed (whole : δ → Option Nat) (f : HubFile) : Prop where
  short : f.name.length ≤ 4096
  portable : ∀ part ∈ components f.name, Portable part
  under : ∀ directory, placeUnder directory f.name = directory ++ components f.name
  size : 0 < f.size ∧ ∃ number, whole number = some f.size
  digest : hexDigest f.digest (if f.lfs then 64 else 40) = true

theorem sizeMember_whole {v : Json.Value δ} {size : Nat} (h : sizeMember whole v = .ok size) :
    ∃ number, whole number = some size := by
  obtain ⟨number, -, h⟩ := exists_of_bind h
  split at h
  next =>
    split at h
    next hsize =>
      cases Except.ok.inj h
      exact ⟨_, hsize⟩
    next => cases h
  next => cases h

theorem describeFile_wellFormed {sibling : Json.Value δ} {name : Bytes} {f : HubFile}
    (h : describeFile whole sibling name = .ok f) :
    (0 < f.size ∧ ∃ number, whole number = some f.size) ∧
      hexDigest f.digest (if f.lfs then 64 else 40) = true := by
  obtain ⟨size, hread, h⟩ := exists_of_bind h
  have hwhole := sizeMember_whole hread
  split at h
  next => cases h
  next hsize =>
    have hpos := Nat.pos_of_ne_zero hsize
    obtain ⟨lfs, -, h⟩ := exists_of_bind h
    split at h
    · obtain ⟨digest, -, h⟩ := exists_of_bind h
      split at h
      next hhex =>
        cases Except.ok.inj h
        exact ⟨⟨hpos, hwhole⟩, hhex⟩
      next => cases h
    · obtain ⟨digest, -, h⟩ := exists_of_bind h
      split at h
      next hhex =>
        cases Except.ok.inj h
        exact ⟨⟨hpos, hwhole⟩, hhex⟩
      next => cases h
    · obtain ⟨digest, -, h⟩ := exists_of_bind h
      obtain ⟨lfsSize, -, h⟩ := exists_of_bind h
      split at h
      next => cases h
      next hok =>
        cases Except.ok.inj h
        exact ⟨⟨hpos, hwhole⟩, not_not.mp (not_or.mp hok).2⟩

theorem Describes.wellFormed {sibling : Json.Value δ} {f : HubFile}
    (h : Describes whole sibling f) : WellFormed whole f := by
  obtain ⟨hne, hshort, hparts⟩ := validatePath_portable h.valid
  obtain ⟨hsize, hdigest⟩ := describeFile_wellFormed h.described
  exact ⟨hshort, hparts, fun directory => placeUnder_portable directory hne hparts, hsize, hdigest⟩

theorem setOf_eq {name : Bytes} {shard : ShardName} (h : shardName name true = .ok shard) :
    setOf name = some (shard.base, shard.count) := by
  unfold setOf
  rw [(shardName_cases h).2]
  exact Eq.refl _

/-- One whole model of the quant: all the files of a base name and a shard count, the one unsharded
or every shard in order; the file asked for among them, or no other set there. -/
structure WholeModel (quant filename : Bytes) (siblings : List (Json.Value δ))
    (files : List HubFile) (base : Bytes) (count : Nat) : Prop where
  separator : AtSeparator quant base
  names : files.map HubFile.name =
    if count = 0 then [base] else (List.range count).map fun i => shardText base (i + 1) count
  all : ∀ name, name ∈ files.map HubFile.name ↔
    name ∈ matchingNames quant siblings ∧ setOf name = some (base, count)
  asked : filename ≠ [] → filename ∈ files.map HubFile.name
  only : filename = [] → ∀ name ∈ matchingNames quant siblings, setOf name = some (base, count)

theorem Gathers.mem_names {g : Gathered} (h : Gathers whole quant siblings g) (name : Bytes) :
    name ∈ matchingNames quant siblings ↔ ∃ group ∈ g.groups, ∃ f ∈ group.2, f.name = name := by
  obtain ⟨files, hall, hperm⟩ := h.files
  rw [← describes_names hall]
  constructor
  · intro hname
    obtain ⟨f, hf, hfname⟩ := List.mem_map.mp hname
    obtain ⟨group, hgroup, hmem⟩ := List.mem_flatMap.mp (hperm.mem_iff.mpr hf)
    exact ⟨group, hgroup, f, hmem, hfname⟩
  · intro ⟨group, hgroup, f, hf, hfname⟩
    rw [← hfname]
    exact List.mem_map_of_mem (hperm.mem_iff.mp (List.mem_flatMap.mpr ⟨group, hgroup, hf⟩))

/-- A group has the names of its base and count. -/
theorem Gathers.mem_iff {g : Gathered} (h : Gathers whole quant siblings g)
    {group : Bytes × List HubFile} (hgroup : group ∈ g.groups) {base : Bytes} {count : Nat}
    (hkey : group.1 = base ++ 0 :: decimal count) (h0 : (0 : UInt8) ∉ base) (name : Bytes) :
    name ∈ group.2.map HubFile.name ↔
      name ∈ matchingNames quant siblings ∧ setOf name = some (base, count) := by
  rw [h.mem_names]
  constructor
  · intro hname
    obtain ⟨f, hf, hfname⟩ := List.mem_map.mp hname
    obtain ⟨shard, hshard, hkey', h0'⟩ := (h.keyed group hgroup).2 f hf
    obtain ⟨rfl, rfl⟩ := key_injective h0' h0 (hkey'.symm.trans hkey)
    rw [← hfname]
    exact ⟨⟨group, hgroup, f, hf, Eq.refl _⟩, setOf_eq hshard⟩
  · intro ⟨⟨group', hgroup', f, hf, hfname⟩, hset⟩
    obtain ⟨shard, hshard, hkey', -⟩ := (h.keyed group' hgroup').2 f hf
    rw [← hfname, setOf_eq hshard] at hset
    obtain ⟨hbase, hcount⟩ := Prod.mk.inj (Option.some.inj hset)
    rw [hbase, hcount, ← hkey] at hkey'
    rw [List.inj_on_of_nodup_map h.keys hgroup' hgroup hkey'] at hf
    rw [← hfname]
    exact List.mem_map_of_mem hf

theorem nameOf_separator {sibling : Json.Value δ} {name : Bytes} {shard : ShardName}
    (h : nameOf quant sibling = some name) (hshard : shardName name false = .ok shard) :
    AtSeparator quant shard.base := by
  unfold nameOf at h
  have his := (Option.filter_eq_some_iff.mp h).2
  unfold isOf at his
  rw [hshard] at his
  exact ofQuant_iff.mp (Bool.and_eq_true_iff.mp his).2

/-- What a selection returns is one whole model. -/
theorem Selects.wholeModel {m : Manifest} {root : Json.Value δ} {g : Gathered}
    {chosen : List HubFile}
    (h : Selects conv whole metadata quant filename m root siblings g chosen) :
    ∃ base count, WholeModel quant filename siblings m.files base count := by
  have hgathers := gathers_of_gatherAll h.gathered
  obtain ⟨group, hgroup, rfl, honly, hasked⟩ := choose_mem h.chose
  obtain ⟨hne, hkeyed⟩ := hgathers.keyed group hgroup
  obtain ⟨first, hfirst⟩ := List.exists_mem_of_ne_nil _ hne
  obtain ⟨shard, hshard, hkey, h0⟩ := hkeyed first hfirst
  have hmem := hgathers.mem_iff hgroup hkey h0
  have hperm : m.files.Perm group.2 := by
    rw [h.files]
    exact List.mergeSort_perm _ _
  have hnames : ∀ name, name ∈ m.files.map HubFile.name ↔ name ∈ group.2.map HubFile.name :=
    fun name => (hperm.map HubFile.name).mem_iff
  have hsorted : sortFiles group.2 ≠ [] := by
    rw [← h.files]
    intro hnil
    rw [hnil] at hperm
    exact hne hperm.symm.eq_nil
  have hsets : ∀ f ∈ m.files, ∀ s, shardName f.name true = .ok s →
      s.base = shard.base ∧ s.count = shard.count := by
    intro f hf s hs
    have hset := ((hmem f.name).mp ((hnames _).mp (List.mem_map_of_mem hf))).2
    rw [setOf_eq hs] at hset
    exact Prod.mk.inj (Option.some.inj hset)
  refine ⟨shard.base, shard.count, ?_, ?_, fun name => (hnames name).trans (hmem name),
    fun hnamed => ?_, fun hnone name hname => ?_⟩
  · have hin := ((hmem first.name).mp (List.mem_map_of_mem hfirst)).1
    obtain ⟨sibling, -, hname⟩ := List.mem_filterMap.mp hin
    exact nameOf_separator hname (shardName_cases hshard).2
  · rw [h.files] at hsets ⊢
    exact checkSet_names hsorted h.checked hsets
  · obtain ⟨f, hf, hfname⟩ := hasked hnamed
    rw [hnames, ← hfname]
    exact List.mem_map_of_mem hf
  · obtain ⟨group', hgroup', f, hf, hfname⟩ := (hgathers.mem_names name).mp hname
    rw [honly hnone] at hgroup'
    rw [List.mem_singleton.mp hgroup'] at hf
    rw [← hfname]
    exact ((hmem f.name).mp (List.mem_map_of_mem hf)).2

/-- What is wrong with the files of a quant: there are none, or not the one asked for, more than one
base or count with none asked for, a shard missing, a path listed twice whatever its case, or a file
whose name or other members are not well formed. -/
inductive Unfit (whole : δ → Option Nat) (quant filename : Bytes) (siblings : List (Json.Value δ)) :
    Prop
  | none : matchingNames quant siblings = [] → Unfit whole quant filename siblings
  | absent : filename ≠ [] → filename ∉ matchingNames quant siblings →
    Unfit whole quant filename siblings
  | mixed {a b : Bytes} : filename = [] → a ∈ matchingNames quant siblings →
    b ∈ matchingNames quant siblings → setOf a ≠ setOf b → Unfit whole quant filename siblings
  | incomplete {name base : Bytes} {count i : Nat} : name ∈ matchingNames quant siblings →
    filename = [] ∨ name = filename → setOf name = some (base, count) → i < count →
    shardText base (i + 1) count ∉ matchingNames quant siblings →
    Unfit whole quant filename siblings
  | repeated : ¬ ((matchingNames quant siblings).map lower).Nodup →
    Unfit whole quant filename siblings
  | malformed {sibling : Json.Value δ} : sibling ∈ siblings → (nameOf quant sibling).isSome →
    (∀ f, ¬ Describes whole sibling f) → Unfit whole quant filename siblings

theorem WholeModel.shards {base : Bytes} {count : Nat}
    (h : WholeModel quant filename siblings files base count) (i : Nat) (hi : i < count) :
    shardText base (i + 1) count ∈ matchingNames quant siblings := by
  refine ((h.all _).mp ?_).1
  rw [h.names, if_neg (Nat.ne_of_gt (Nat.zero_lt_of_lt hi))]
  exact List.mem_map.mpr ⟨i, List.mem_range.mpr hi, Eq.refl _⟩

theorem WholeModel.exists_name {base : Bytes} {count : Nat}
    (h : WholeModel quant filename siblings files base count) :
    ∃ name, name ∈ matchingNames quant siblings := by
  rcases Nat.eq_zero_or_pos count with hzero | hpos
  · refine ⟨base, ((h.all _).mp ?_).1⟩
    rw [h.names, if_pos hzero]
    exact List.mem_singleton.mpr (Eq.refl _)
  · exact ⟨_, h.shards 0 hpos⟩

theorem Selects.siblings_eq {m : Manifest} {root : Json.Value δ} {g : Gathered}
    {chosen : List HubFile}
    (h : Selects conv whole metadata quant filename m root siblings g chosen) :
    siblingsOf conv metadata = some siblings := by
  unfold siblingsOf
  rw [h.parsed]
  show (member root (text "siblings")).toOption.bind arrayOf = _
  rw [h.listed]
  exact Eq.refl _

theorem Selects.distinct {m : Manifest} {root : Json.Value δ} {g : Gathered} {chosen : List HubFile}
    (h : Selects conv whole metadata quant filename m root siblings g chosen) :
    ((matchingNames quant siblings).map lower).Nodup := by
  have hgrouped := grouped_of_gatherAll h.gathered
  obtain ⟨files, hall, hperm⟩ := (gathers_of_gatherAll h.gathered).files
  rw [← describes_names hall, List.map_map]
  have hpaths := (hgrouped.paths.nodup_iff).mpr hgrouped.distinct
  exact ((hperm.map fun f => lower f.name).nodup_iff).mp hpaths

theorem Selects.described {m : Manifest} {root : Json.Value δ} {g : Gathered}
    {chosen : List HubFile}
    (h : Selects conv whole metadata quant filename m root siblings g chosen) :
    (∀ sibling ∈ siblings, (nameOf quant sibling).isSome → ∃ f, Describes whole sibling f) ∧
      ∀ f ∈ m.files, WellFormed whole f := by
  obtain ⟨files, hall, hperm⟩ := (gathers_of_gatherAll h.gathered).files
  constructor
  · intro sibling hsibling hname
    obtain ⟨f, -, hf⟩ := (partners hall).1 sibling (List.mem_filter.mpr ⟨hsibling, hname⟩)
    exact ⟨f, hf⟩
  · intro f hf
    obtain ⟨group, hgroup, rfl, -⟩ := choose_mem h.chose
    rw [h.files] at hf
    have hmem := (List.mergeSort_perm _ _).mem_iff.mp hf
    obtain ⟨sibling, -, hdescribes⟩ := (partners hall).2 f
      (hperm.mem_iff.mp (List.mem_flatMap.mpr ⟨group, hgroup, hmem⟩))
    exact hdescribes.wellFormed

theorem Selects.fit {m : Manifest} {root : Json.Value δ} {g : Gathered} {chosen : List HubFile}
    (h : Selects conv whole metadata quant filename m root siblings g chosen) :
    ¬ Unfit whole quant filename siblings := by
  obtain ⟨base, count, hmodel⟩ := h.wholeModel
  intro hunfit
  cases hunfit with
  | none hnone =>
    obtain ⟨name, hname⟩ := hmodel.exists_name
    rw [hnone] at hname
    exact List.not_mem_nil hname
  | absent hnamed habsent => exact habsent ((hmodel.all filename).mp (hmodel.asked hnamed)).1
  | mixed hnone ha hb hne =>
    exact hne ((hmodel.only hnone _ ha).trans (hmodel.only hnone _ hb).symm)
  | @incomplete name base' count' i hname hchosen hset hi hmissing =>
    have hsame : setOf name = some (base, count) := by
      by_cases hnamed : filename = []
      · exact hmodel.only hnamed name hname
      · rw [hchosen.resolve_left hnamed]
        exact ((hmodel.all filename).mp (hmodel.asked hnamed)).2
    rw [hset] at hsame
    obtain ⟨rfl, rfl⟩ := Prod.mk.inj (Option.some.inj hsame)
    exact hmissing (hmodel.shards i hi)
  | repeated hrepeated => exact hrepeated h.distinct
  | malformed hsibling hname hnot =>
    obtain ⟨f, hf⟩ := h.described.1 _ hsibling hname
    exact hnot f hf

/-- A selection gives one whole model, and raises where the quant's files are not fit. -/
theorem select_whole (conv : Json.Conversion δ) (whole : δ → Option Nat)
    (metadata quant filename : Bytes) :
    (∀ m, select conv whole metadata quant filename = .ok m →
      ∃ siblings base count, siblingsOf conv metadata = some siblings ∧
        WholeModel quant filename siblings m.files base count ∧
        (∀ f ∈ m.files, WellFormed whole f) ∧ ((matchingNames quant siblings).map lower).Nodup) ∧
      ∀ siblings, siblingsOf conv metadata = some siblings → Unfit whole quant filename siblings →
        ∃ e, select conv whole metadata quant filename = .error e := by
  constructor
  · intro m h
    obtain ⟨root, siblings, g, chosen, hselects⟩ := select_ok h
    obtain ⟨base, count, hmodel⟩ := hselects.wholeModel
    exact ⟨siblings, base, count, hselects.siblings_eq, hmodel, hselects.described.2,
      hselects.distinct⟩
  · intro siblings hsiblings hunfit
    cases hselect : select conv whole metadata quant filename with
    | error e => exact ⟨e, Eq.refl _⟩
    | ok m =>
      obtain ⟨root, siblings', g, chosen, hselects⟩ := select_ok hselect
      rw [hselects.siblings_eq] at hsiblings
      obtain rfl := Option.some.inj hsiblings
      exact absurd hunfit hselects.fit

def decimals : Json.Conversion Nat := ⟨fun digits => some (digitsValue digits), (· == 0)⟩

def wholeSize (size : Nat) : Option Nat :=
  if size ≤ 9007199254740991 then some size else none

def siblingText (name : String) : Bytes :=
  text "\x7b\"rfilename\":\"" ++ text name ++ text "\",\"size\":1,\"blobId\":\"" ++
    List.replicate 40 '0'.toUInt8 ++ text "\"\x7d"

/-- A metadata text with one base name's file and a set of one shard of it. -/
def bothForms : Bytes :=
  text "\x7b\"sha\":\"" ++ List.replicate 40 '0'.toUInt8 ++ text "\",\"siblings\":[" ++
    siblingText "m-Q4.gguf" ++ text "," ++ siblingText "m-Q4-00001-of-00001.gguf" ++ text "]\x7d"

theorem bothForms_names :
    (siblingsOf decimals bothForms).map (matchingNames (text "Q4")) =
        some [text "m-Q4.gguf", text "m-Q4-00001-of-00001.gguf"] ∧
      (select decimals wholeSize bothForms (text "Q4") (text "m-Q4.gguf")).toOption.map
        (fun m => m.files.map HubFile.name) = some [text "m-Q4.gguf"] ∧
      setOf (text "m-Q4.gguf") = some (text "m-Q4.gguf", 0) ∧
      setOf (text "m-Q4-00001-of-00001.gguf") = some (text "m-Q4.gguf", 1) := by
  decide +kernel

theorem select_whole_bothForms :
    (∃ m, select decimals wholeSize bothForms (text "Q4") (text "m-Q4.gguf") = .ok m ∧
      ∃ siblings base count, siblingsOf decimals bothForms = some siblings ∧
        WholeModel (text "Q4") (text "m-Q4.gguf") siblings m.files base count) ∧
      ∃ e, select decimals wholeSize bothForms (text "Q4") [] = .error e := by
  obtain ⟨hsiblings, hselect, hfile, hshard⟩ := bothForms_names
  constructor
  · obtain ⟨m, hm, -⟩ := Option.map_eq_some_iff.mp hselect
    have hok := eq_ok_of_toOption hm
    obtain ⟨siblings, base, count, hlisted, hmodel, -⟩ :=
      (select_whole decimals wholeSize bothForms (text "Q4") (text "m-Q4.gguf")).1 m hok
    exact ⟨m, hok, siblings, base, count, hlisted, hmodel⟩
  · obtain ⟨siblings, hlisted, hnames⟩ := Option.map_eq_some_iff.mp hsiblings
    refine (select_whole decimals wholeSize bothForms (text "Q4") []).2 siblings hlisted
      (.mixed (Eq.refl _) (a := text "m-Q4.gguf") (b := text "m-Q4-00001-of-00001.gguf") ?_ ?_ ?_)
    · rw [hnames]
      exact List.mem_cons_self
    · rw [hnames]
      exact List.mem_cons_of_mem _ List.mem_cons_self
    · rw [hfile, hshard]
      decide

/-- A base name with a file and a set of shards is no one model: only the form asked for is
returned. -/
theorem not_select_all_of_base :
    ¬ ∀ (metadata quant filename : Bytes) (m : Manifest) (siblings : List (Json.Value Nat)),
      select decimals wholeSize metadata quant filename = .ok m →
      siblingsOf decimals metadata = some siblings →
      ∃ base, ∀ name, name ∈ m.files.map HubFile.name ↔
        name ∈ matchingNames quant siblings ∧ (setOf name).map Prod.fst = some base := by
  intro h
  obtain ⟨hsiblings, hselect, hfile, hshard⟩ := bothForms_names
  obtain ⟨siblings, hlisted, hnames⟩ := Option.map_eq_some_iff.mp hsiblings
  obtain ⟨m, hm, hfiles⟩ := Option.map_eq_some_iff.mp hselect
  obtain ⟨base, hall⟩ :=
    h bothForms (text "Q4") (text "m-Q4.gguf") m siblings (eq_ok_of_toOption hm) hlisted
  rw [hfiles, hnames] at hall
  have hbase := ((hall (text "m-Q4.gguf")).mp List.mem_cons_self).2
  rw [hfile] at hbase
  have hmem := (hall (text "m-Q4-00001-of-00001.gguf")).mpr
    ⟨List.mem_cons_of_mem _ List.mem_cons_self, by rw [hshard]; exact hbase⟩
  exact absurd (List.mem_singleton.mp hmem) (by decide)

end Selections

end Hub

end Llmx
