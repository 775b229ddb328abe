import Llmx.HistoryDigests

namespace Llmx

open Stretches

/-- Two spellings that read alike and say different things: at the first stretch where they differ
one has an image, whose digest and what follows it read as what follows the other. -/
inductive Misread : List (Nat × RowClass) → List (Nat × RowClass) → Prop
  | image {s s' ss ss'} : s.1 = s'.1 → s.2.key = s'.2.key → s.2.image ≠ textImage →
      s'.2.image = textImage → s.2.image.toList ++ spell ss = spell ss' →
      Misread (s :: ss) (s' :: ss')
  | text {s s' ss ss'} : s.1 = s'.1 → s.2.key = s'.2.key → s.2.image = textImage →
      s'.2.image ≠ textImage → spell ss = s'.2.image.toList ++ spell ss' →
      Misread (s :: ss) (s' :: ss')
  | later {s ss ss'} : Misread ss ss' → Misread (s :: ss) (s :: ss')

theorem Misread.ne {ss ss' : List (Nat × RowClass)} (h : Misread ss ss') : ss ≠ ss' := by
  induction h with
  | image _ _ himg htext _ =>
    rintro ⟨⟩
    exact himg htext
  | text _ _ htext himg _ =>
    rintro ⟨⟩
    exact himg htext
  | later _ ih => simpa using ih

theorem rowClass_ext {c c' : RowClass} (hkey : c.key = c'.key) (himage : c.image = c'.image) :
    c = c' := by
  cases c
  cases c'
  subst hkey himage
  rfl

theorem leBytes_uint64_inj {v w : UInt64} (h : leBytes 8 v.toNat = leBytes 8 w.toNat) : v = w :=
  UInt64.toNat_inj.mp (leBytes_inj (by have := v.toNat_lt; omega) (by have := w.toNat_lt; omega) h)

theorem leBytes_uint32_inj {v w : UInt32} (h : leBytes 4 v.toNat = leBytes 4 w.toNat) : v = w :=
  UInt32.toNat_inj.mp (leBytes_inj (by have := v.toNat_lt; omega) (by have := w.toNat_lt; omega) h)

theorem spell_cons (s : Nat × RowClass) (ss : List (Nat × RowClass)) :
    spell (s :: ss) = leBytes 8 s.1 ++ (leBytes 8 s.2.key.length ++
      (s.2.key.flatMap (fun v => leBytes 8 v.toNat) ++
        ((if s.2.image = textImage then [] else s.2.image.toList) ++ spell ss))) := by
  simp [spell, spellStretch, List.append_assoc]

/-- The numbers of a stretch are read back; only the image after them has no mark. -/
theorem spell_cons_inj {s s' : Nat × RowClass} {ss ss' : List (Nat × RowClass)}
    (hs : s.1 < 256 ^ 8) (hs' : s'.1 < 256 ^ 8) :
    spell (s :: ss) = spell (s' :: ss') ↔ s.1 = s'.1 ∧ s.2.key = s'.2.key ∧
      (if s.2.image = textImage then [] else s.2.image.toList) ++ spell ss =
        (if s'.2.image = textImage then [] else s'.2.image.toList) ++ spell ss' := by
  rw [spell_cons, spell_cons]
  constructor
  · intro h
    obtain ⟨hstop, h⟩ := leBytes_append_inj hs hs' h
    obtain ⟨hsize, h⟩ := leBytes_append_inj s.2.size_lt s'.2.size_lt h
    obtain ⟨hkey, h⟩ := flatMap_append_inj (n := 8) (by simp) (fun _ _ => leBytes_uint64_inj) hsize h
    exact ⟨hstop, hkey, h⟩
  · rintro ⟨hstop, hkey, h⟩
    rw [hstop, hkey, h]

theorem spell_cons_ne_nil (s : Nat × RowClass) (ss : List (Nat × RowClass)) :
    spell (s :: ss) ≠ [] := by
  rw [spell_cons]
  intro h
  have := congrArg List.length h
  simp at this

/-- What spells alike is alike, or misread one for the other. -/
theorem spell_eq_iff {ss ss' : List (Nat × RowClass)} (h : ∀ s ∈ ss, s.1 < 256 ^ 8)
    (h' : ∀ s ∈ ss', s.1 < 256 ^ 8) : spell ss = spell ss' ↔ ss = ss' ∨ Misread ss ss' := by
  induction ss generalizing ss' with
  | nil =>
    cases ss' with
    | nil => simp
    | cons s' ss' =>
      refine ⟨fun heq => absurd heq.symm (spell_cons_ne_nil s' ss'), ?_⟩
      rintro (heq | hm) <;> contradiction
  | cons s ss ih =>
    cases ss' with
    | nil =>
      refine ⟨fun heq => absurd heq (spell_cons_ne_nil s ss), ?_⟩
      rintro (heq | hm) <;> contradiction
    | cons s' ss' =>
      rw [List.forall_mem_cons] at h h'
      have ih := ih h.2 h'.2
      have hpair : s = s' ↔ s.1 = s'.1 ∧ s.2.key = s'.2.key ∧ s.2.image = s'.2.image := by
        refine ⟨by rintro rfl; simp, fun ⟨hstop, hkey, himage⟩ => ?_⟩
        exact Prod.ext hstop (rowClass_ext hkey himage)
      rw [spell_cons_inj h.1 h'.1, List.cons.injEq]
      constructor
      · rintro ⟨hstop, hkey, heq⟩
        by_cases ht : s.2.image = textImage <;> by_cases ht' : s'.2.image = textImage
        · rw [if_pos ht, if_pos ht', List.nil_append, List.nil_append, ih] at heq
          have hs : s = s' := hpair.mpr ⟨hstop, hkey, ht.trans ht'.symm⟩
          subst hs
          exact heq.imp (fun heq => ⟨rfl, heq⟩) .later
        · rw [if_pos ht, if_neg ht', List.nil_append] at heq
          exact Or.inr (.text hstop hkey ht ht' heq)
        · rw [if_neg ht, if_pos ht', List.nil_append] at heq
          exact Or.inr (.image hstop hkey ht ht' heq)
        · rw [if_neg ht, if_neg ht'] at heq
          obtain ⟨himage, htail⟩ := List.append_inj heq (by simp)
          have hs : s = s' := hpair.mpr ⟨hstop, hkey, Vector.toList_inj.mp himage⟩
          subst hs
          exact (ih.mp htail).imp (fun heq => ⟨rfl, heq⟩) .later
      · rintro (⟨rfl, rfl⟩ | hm)
        · exact ⟨rfl, rfl, rfl⟩
        · cases hm with
          | image hstop hkey ht ht' heq =>
            rw [if_neg ht, if_pos ht', List.nil_append]
            exact ⟨hstop, hkey, heq⟩
          | text hstop hkey ht ht' heq =>
            rw [if_pos ht, if_neg ht', List.nil_append]
            exact ⟨hstop, hkey, heq⟩
          | later hm => exact ⟨rfl, rfl, by rw [ih.mpr (Or.inr hm)]⟩

/-- The first number of a spelling is where its first stretch ends. -/
theorem take_of_spell {image : List UInt8} {ss ss' : List (Nat × RowClass)}
    (himage : image.length = 32) (h : image ++ spell ss = spell ss') :
    ∃ s ∈ ss', image.take 8 = leBytes 8 s.1 := by
  cases ss' with
  | nil =>
    have := congrArg List.length h
    simp [spell, himage] at this
  | cons s ss' =>
    refine ⟨s, by simp, ?_⟩
    have htake := congrArg (List.take 8) h
    rw [spell_cons, List.take_append_of_le_length (by omega),
      List.take_append_of_le_length (by simp)] at htake
    simpa [List.take_of_length_le] using htake

/-- Only an image whose digest begins with a place in the block is misread. -/
theorem Misread.image_starts {ss ss' : List (Nat × RowClass)} {block : Nat} (h : Misread ss ss')
    (hss : ∀ s ∈ ss, s.1 ≤ block) (hss' : ∀ s ∈ ss', s.1 ≤ block) :
    ∃ s, (s ∈ ss ∨ s ∈ ss') ∧ s.2.image ≠ textImage ∧
      ∃ stop ≤ block, s.2.image.toList.take 8 = leBytes 8 stop := by
  induction h with
  | @image s s' ss ss' _ _ himg _ heq =>
    rw [List.forall_mem_cons] at hss'
    obtain ⟨t, ht, htake⟩ := take_of_spell (by simp) heq
    exact ⟨s, Or.inl (by simp), himg, t.1, hss'.2 t ht, htake⟩
  | @text s s' ss ss' _ _ _ himg heq =>
    rw [List.forall_mem_cons] at hss
    obtain ⟨t, ht, htake⟩ := take_of_spell (by simp) heq.symm
    exact ⟨s', Or.inr (by simp), himg, t.1, hss.2 t ht, htake⟩
  | later _ ih =>
    rw [List.forall_mem_cons] at hss hss'
    obtain ⟨s, hs, hrest⟩ := ih hss.2 hss'.2
    exact ⟨s, by simp only [List.mem_cons]; tauto, hrest⟩

open Stretches

theorem blockBytes_inj {d d' : List UInt8} {ts ts' : List UInt32} {ss ss' : List (Nat × RowClass)}
    (hd : d.length = 64) (hd' : d'.length = 64) (hts : ts.length = ts'.length) :
    blockBytes d ts ss = blockBytes d' ts' ss' ↔ d = d' ∧ ts = ts' ∧ spell ss = spell ss' := by
  constructor
  · intro h
    obtain ⟨hdd, h⟩ := List.append_inj h (by rw [hd, hd'])
    obtain ⟨htt, h⟩ := flatMap_append_inj (n := 4) (by simp) (fun _ _ => leBytes_uint32_inj) hts h
    exact ⟨hdd, htt, h⟩
  · rintro ⟨rfl, rfl, h⟩
    rw [blockBytes, blockBytes, h]

/-- The tokens of block `j`. -/
def tokenBlock (tokens : List UInt32) (block j : Nat) : List UInt32 :=
  (tokens.drop (j * block)).take block

/-- `ss` cuts the rows of block `j` where their class changes. -/
def BlockSplits (cs : List ClassRun) (block j : Nat) (ss : List (Nat × RowClass)) : Prop :=
  Splits (fun r => rowClass cs (j * block + r)) 0 block ss

/-- The hash reads, for each block, the digest before it, its tokens and its stretches. -/
theorem blockInputs_spec (sha : Sha) (tokens : List UInt32) {block : Nat} {all : List ClassRun}
    (digest : List UInt8) {m j : Nat} (hm : (j + m) * block ≤ tokens.length) {cs : List ClassRun}
    (hcs : Ascending cs tokens.length)
    (hall : ∀ r, j * block ≤ r → rowClass cs r = rowClass all r) :
    ∃ ins, blockInputs sha tokens block m (j * block) cs digest = some ins ∧ ins.length = m ∧
      ∀ k < m, ∃ ss d, BlockSplits all block (j + k) ss ∧
        (digest :: ins.map sha.hex)[k]? = some d ∧
        ins[k]? = some (blockBytes d (tokenBlock tokens block (j + k)) ss) := by
  induction m generalizing j cs digest with
  | zero => exact ⟨[], rfl, rfl, by simp⟩
  | succ m ih =>
    have hnext : (j + 1) * block = j * block + block := Nat.succ_mul j block
    have hfit : j * block + block ≤ tokens.length := by
      have : (j + 1) * block ≤ (j + (m + 1)) * block := Nat.mul_le_mul_right _ (by omega)
      omega
    have hrows : j * block ≤ j * block + block := Nat.le_add_right _ _
    obtain ⟨ss, cs', hread, hsplit, hasc, hleft⟩ :=
      blockStretches_spec hcs hfit hrows le_rfl (le_refl (j * block + block))
    obtain ⟨ins, hins, hlen, hspec⟩ := ih (sha.hex (blockBytes digest (tokenBlock tokens block j) ss))
      (j := j + 1) (by rwa [Nat.add_assoc, Nat.add_comm 1 m]) hasc
      (fun r hr => by rw [hleft r (by omega), hall r (by omega)])
    refine ⟨blockBytes digest (tokenBlock tokens block j) ss :: ins, ?_, by simp [hlen],
      fun k hk => ?_⟩
    · rw [hnext] at hins
      rw [blockInputs, hread, Option.bind_some]
      simp only
      rw [show (tokens.drop (j * block)).take block = tokenBlock tokens block j from rfl, hins]
      rfl
    · cases k with
      | zero =>
        refine ⟨ss, digest, ?_, rfl, rfl⟩
        have := hsplit.congr (g := fun r => rowClass all (j * block + r))
          fun r _ _ => hall _ (by omega)
        simpa [BlockSplits] using this
      | succ k =>
        obtain ⟨ss', d, hs, hd, hi⟩ := hspec k (by omega)
        rw [Nat.add_assoc, Nat.add_comm 1 k] at hs hi
        exact ⟨ss', d, hs, by simpa using hd, by simpa using hi⟩

theorem tokenBlock_eq_iff {ts ts' : List UInt32} {block j : Nat} :
    tokenBlock ts block j = tokenBlock ts' block j ↔
      ∀ r < block, ts[j * block + r]? = ts'[j * block + r]? := by
  constructor
  · intro h r hr
    have := congrArg (fun l : List UInt32 => l[r]?) h
    simpa [tokenBlock, List.getElem?_take, hr] using this
  · intro h
    refine List.ext_getElem? fun r => ?_
    by_cases hr : r < block
    · simpa [tokenBlock, List.getElem?_take, hr] using h r hr
    · rw [tokenBlock, tokenBlock, List.getElem?_take, List.getElem?_take, if_neg hr, if_neg hr]

/-- The rows of block `j` of two histories are stretches misread one for the other. -/
def MisreadBlock (a b : History) (block j : Nat) : Prop :=
  ∃ ss ss', BlockSplits a.classes block j ss ∧ BlockSplits b.classes block j ss' ∧ Misread ss ss'

def SameTokens (a b : History) (block j : Nat) : Prop :=
  ∀ r < block, a.tokens[j * block + r]? = b.tokens[j * block + r]?

def SameClasses (a b : History) (block j : Nat) : Prop :=
  ∀ r < block, a.classAt (j * block + r) = b.classAt (j * block + r)

theorem MisreadBlock.not_same {a b : History} {block j : Nat} (h : MisreadBlock a b block j) :
    ¬ SameClasses a b block j := by
  obtain ⟨ss, ss', hs, hs', hm⟩ := h
  exact fun hsame => hm.ne ((hs.eq_iff hs').mpr fun r _ hr => hsame r hr)

theorem spell_eq_iff_block {a b : History} {block j : Nat} (hblock : block < 256 ^ 8)
    {ss ss' : List (Nat × RowClass)} (hs : BlockSplits a.classes block j ss)
    (hs' : BlockSplits b.classes block j ss') :
    spell ss = spell ss' ↔ SameClasses a b block j ∨ MisreadBlock a b block j := by
  rw [spell_eq_iff (fun s hmem => (hs.stop_le s hmem).trans_lt hblock)
    (fun s hmem => (hs'.stop_le s hmem).trans_lt hblock), hs.eq_iff hs']
  refine or_congr ⟨fun h r hr => h r (Nat.zero_le _) hr, fun h r _ hr => h r hr⟩ ?_
  refine ⟨fun hm => ⟨ss, ss', hs, hs', hm⟩, fun ⟨ss₁, ss₁', h₁, h₁', hm⟩ => ?_⟩
  rwa [hs.unique h₁, hs'.unique h₁']

/-- No two of the inputs hashed for two histories collide. -/
def CollisionFree (sha : Sha) (a b : History) (block : Nat) : Prop :=
  ∀ x ∈ (a.inputs sha block).getD [] ++ (b.inputs sha block).getD [],
    ∀ y ∈ (a.inputs sha block).getD [] ++ (b.inputs sha block).getD [],
      sha.hex x = sha.hex y → x = y

instance (sha : Sha) (a b : History) (block : Nat) : Decidable (CollisionFree sha a b block) :=
  inferInstanceAs (Decidable (∀ x ∈ _, ∀ y ∈ _, _))

theorem History.inputs_spec (sha : Sha) (h : History) (block : Nat) :
    ∃ ins, h.inputs sha block = some ins ∧ ins.length = h.tokens.length / block ∧
      ∀ k < h.tokens.length / block, ∃ ss d, BlockSplits h.classes block k ss ∧
        (root :: ins.map sha.hex)[k]? = some d ∧
        ins[k]? = some (blockBytes d (tokenBlock h.tokens block k) ss) := by
  have hfit : (0 + h.tokens.length / block) * block ≤ h.tokens.length := by
    simpa using Nat.div_mul_le_self _ _
  have hcs : Ascending h.classes h.tokens.length := ⟨h.increasing, h.reach⟩
  have hspec := blockInputs_spec sha h.tokens root hfit hcs (fun _ _ => rfl)
  simp only [Nat.zero_mul, Nat.zero_add] at hspec
  exact hspec

theorem digest_length (sha : Sha) {ins : List (List UInt8)} {k : Nat} {d : List UInt8}
    (h : (root :: ins.map sha.hex)[k]? = some d) : d.length = 64 := by
  rcases List.mem_cons.mp (List.mem_of_getElem? h) with rfl | hd
  · rfl
  · obtain ⟨x, -, rfl⟩ := List.mem_map.mp hd
    exact sha.length_hex x

/-- Two histories share a digest where all their blocks below it are read alike. -/
theorem digest_eq_iff {sha : Sha} {a b : History} {block : Nat} (hblock : block < 256 ^ 8)
    {ia ib : List (List UInt8)} (hia : a.inputs sha block = some ia)
    (hib : b.inputs sha block = some ib) (hfree : CollisionFree sha a b block) {k : Nat}
    (hka : k * block ≤ a.tokens.length) (hkb : k * block ≤ b.tokens.length) (hpos : 0 < block) :
    (root :: ia.map sha.hex)[k]? = (root :: ib.map sha.hex)[k]? ↔
      ∀ j < k, SameTokens a b block j ∧ (SameClasses a b block j ∨ MisreadBlock a b block j) := by
  induction k with
  | zero => simp
  | succ k ih =>
    have hk : (k + 1) * block = k * block + block := Nat.succ_mul k block
    have ih := ih (by omega) (by omega)
    obtain ⟨ia', hia', -, hspeca⟩ := a.inputs_spec sha block
    obtain ⟨ib', hib', -, hspecb⟩ := b.inputs_spec sha block
    cases hia.symm.trans hia'
    cases hib.symm.trans hib'
    obtain ⟨ss, d, hs, hd, hx⟩ := hspeca k ((Nat.le_div_iff_mul_le hpos).mpr hka)
    obtain ⟨ss', d', hs', hd', hx'⟩ := hspecb k ((Nat.le_div_iff_mul_le hpos).mpr hkb)
    have htokens : (tokenBlock a.tokens block k).length = (tokenBlock b.tokens block k).length := by
      simp only [tokenBlock, List.length_take, List.length_drop]
      omega
    have hhash : ∀ x x', ia[k]? = some x → ib[k]? = some x' →
        (sha.hex x = sha.hex x' ↔ x = x') := by
      intro x x' hx hx'
      refine ⟨fun h => hfree x ?_ x' ?_ h, fun h => by rw [h]⟩
      · simp [hia, List.mem_of_getElem? hx]
      · simp [hib, List.mem_of_getElem? hx']
    have hdigest : d = d' ↔ ∀ j < k, SameTokens a b block j ∧
        (SameClasses a b block j ∨ MisreadBlock a b block j) := by
      rw [← ih, hd, hd', Option.some.injEq]
    rw [Nat.forall_lt_succ_right, ← hdigest, ← spell_eq_iff_block hblock hs hs']
    simp only [List.getElem?_cons_succ, List.getElem?_map, hx, hx', Option.map_some,
      Option.some.injEq]
    rw [hhash _ _ hx hx', blockBytes_inj (digest_length sha hd) (digest_length sha hd') htokens,
      tokenBlock_eq_iff]
    rfl

/-- The first `k` blocks of two histories hold the same tokens and the same class at every row. -/
def SameRows (a b : History) (rows : Nat) : Prop :=
  ∀ row < rows, a.tokens[row]? = b.tokens[row]? ∧ a.classAt row = b.classAt row

theorem sameRows_iff {a b : History} {block k : Nat} (hpos : 0 < block) :
    SameRows a b (k * block) ↔ ∀ j < k, SameTokens a b block j ∧ SameClasses a b block j := by
  constructor
  · intro h j hj
    have hle : (j + 1) * block ≤ k * block := Nat.mul_le_mul_right _ hj
    rw [Nat.succ_mul] at hle
    exact ⟨fun r hr => (h _ (by omega)).1, fun r hr => (h _ (by omega)).2⟩
  · intro h row hrow
    obtain ⟨h1, h2⟩ := h (row / block) ((Nat.div_lt_iff_lt_mul hpos).mpr hrow)
    have hmod := Nat.mod_lt row hpos
    have hrow' : row / block * block + row % block = row := Nat.div_add_mod' row block
    rw [← hrow']
    exact ⟨h1 _ hmod, h2 _ hmod⟩

/-- Every block below `k` is read alike in two histories, and one of them is misread. -/
def Forged (a b : History) (block k : Nat) : Prop :=
  (∀ j < k, SameTokens a b block j ∧ (SameClasses a b block j ∨ MisreadBlock a b block j)) ∧
    ∃ j < k, MisreadBlock a b block j

/-- A digest names exactly the rows below it, unless a block's image is misread as stretches. -/
theorem digests_name_rows_iff (sha : Sha) (a b : History) {block k : Nat} (hpos : 0 < block)
    (hblock : block < 256 ^ 8) (hka : k * block ≤ a.tokens.length)
    (hkb : k * block ≤ b.tokens.length) (hfree : CollisionFree sha a b block) :
    ∃ da db, a.digests sha block = some da ∧ b.digests sha block = some db ∧
      ((da[k]? = db[k]? ↔ SameRows a b (k * block)) ↔ ¬ Forged a b block k) := by
  obtain ⟨ia, hia, -, -⟩ := a.inputs_spec sha block
  obtain ⟨ib, hib, -, -⟩ := b.inputs_spec sha block
  refine ⟨_, _, by rw [History.digests, hia, Option.map_some],
    by rw [History.digests, hib, Option.map_some], ?_⟩
  rw [digest_eq_iff hblock hia hib hfree hka hkb hpos, sameRows_iff hpos]
  constructor
  · rintro hiff ⟨hall, j, hj, hm⟩
    exact hm.not_same (hiff.mp hall j hj).2
  · intro hnot
    refine ⟨fun hall j hj => ⟨(hall j hj).1, (hall j hj).2.resolve_right fun hm => ?_⟩,
      fun hsame j hj => ⟨(hsame j hj).1, Or.inl (hsame j hj).2⟩⟩
    exact hnot ⟨hall, j, hj, hm⟩

/-- The digest of an image that computed a row below `rows` begins with no place in a block. -/
def History.ImagesApart (h : History) (block rows : Nat) : Prop :=
  ∀ row < rows, (h.classAt row).image ≠ textImage →
    ∀ stop ≤ block, (h.classAt row).image.toList.take 8 ≠ leBytes 8 stop

theorem not_forged_of_images {a b : History} {block k : Nat} (ha : a.ImagesApart block (k * block))
    (hb : b.ImagesApart block (k * block)) : ¬ Forged a b block k := by
  rintro ⟨-, j, hj, ss, ss', hs, hs', hm⟩
  have hle : (j + 1) * block ≤ k * block := Nat.mul_le_mul_right _ hj
  rw [Nat.succ_mul] at hle
  obtain ⟨s, hmem, himg, stop, hstop, htake⟩ := hm.image_starts hs.stop_le hs'.stop_le
  rcases hmem with hmem | hmem
  · obtain ⟨r, hr, hrow⟩ := hs.taken s hmem
    rw [← hrow] at himg htake
    exact ha _ (by omega) himg stop hstop htake
  · obtain ⟨r, hr, hrow⟩ := hs'.taken s hmem
    rw [← hrow] at himg htake
    exact hb _ (by omega) himg stop hstop htake

/-- Sixty-four digits of a polynomial in the bytes read. -/
def checkSha : Sha where
  hex bytes := leBytes 64 (bytes.foldl (fun v x => v * 257 + x.toNat + 1) 0)
  length_hex _ := length_leBytes 64 _

def textRun (key : List UInt64) (endRow : Nat) (h : key.length < 256 ^ 8) : ClassRun :=
  ⟨⟨key, textImage, h⟩, endRow⟩

/-- Six tokens of two classes, the first recorded in two stretches. -/
def splitHistory : History where
  tokens := [3, 1, 4, 1, 5, 9]
  classes := [textRun [7] 1 (by decide), textRun [7] 3 (by decide), textRun [8] 6 (by decide)]
  increasing := by decide
  reach := by decide

/-- The same rows, the first class recorded in one stretch. -/
def mergedHistory : History where
  tokens := [3, 1, 4, 1, 5]
  classes := [textRun [7] 3 (by decide), textRun [8] 5 (by decide)]
  increasing := by decide
  reach := by decide

theorem digests_name_rows_iff_merged :
    ∃ da db, splitHistory.digests checkSha 2 = some da ∧ mergedHistory.digests checkSha 2 = some db ∧
      ((da[2]? = db[2]? ↔ SameRows splitHistory mergedHistory (2 * 2)) ↔
        ¬ Forged splitHistory mergedHistory 2 2) :=
  digests_name_rows_iff checkSha splitHistory mergedHistory (by decide) (by decide) (by decide)
    (by decide) (by decide +kernel)

/-- An image whose digest reads as the stretch up to row 2 of the class of key `[5, 6]`. -/
def forgedImage : Vector UInt8 32 :=
  ⟨#[2, 0, 0, 0, 0, 0, 0, 0, 2, 0, 0, 0, 0, 0, 0, 0, 5, 0, 0, 0, 0, 0, 0, 0, 6, 0, 0, 0, 0, 0, 0, 0],
    rfl⟩

/-- Row 0 is of that image, the rest text. -/
def imageHistory : History where
  tokens := [3, 1, 4, 1]
  classes := [⟨⟨[7], forgedImage, by decide⟩, 1⟩, textRun [8] 4 (by decide)]
  increasing := by decide
  reach := by decide

/-- The same tokens, all text, row 1 of the class the image's digest spells. -/
def textHistory : History where
  tokens := [3, 1, 4, 1]
  classes := [textRun [7] 1 (by decide), textRun [5, 6] 2 (by decide), textRun [8] 4 (by decide)]
  increasing := by decide
  reach := by decide

theorem digests_forged :
    CollisionFree checkSha imageHistory textHistory 4 ∧
      (imageHistory.digests checkSha 4).isSome = true ∧
      imageHistory.digests checkSha 4 = textHistory.digests checkSha 4 ∧
      imageHistory.tokens = textHistory.tokens ∧
      imageHistory.classAt 0 ≠ textHistory.classAt 0 ∧
      imageHistory.classAt 1 ≠ textHistory.classAt 1 := by
  decide +kernel

end Llmx
