import Llmx.ShardOwners
import Mathlib.Algebra.Order.BigOperators.Group.List

namespace Llmx

open Tiling

/-- The rows or columns the parts hold. -/
def coverCount (ps : List ShardPart) : Nat := (ps.map fun p => p.cover.count).sum

@[simp]
theorem coverCount_append {ps qs : List ShardPart} :
    coverCount (ps ++ qs) = coverCount ps + coverCount qs := by
  simp [coverCount]

theorem coverBytes_eq {row : Nat} {ps : List ShardPart} :
    coverBytes row ps = coverCount ps * row :=
  List.sum_map_mul_right ..

theorem coverCount_shift {n : Nat} {ps : List ShardPart} :
    coverCount (ps.map (·.shift n)) = coverCount ps := by
  simp [coverCount, ShardPart.shift, Function.comp_def]

theorem ShardSection.coverCount_tileParts (s : ShardSection) (us : ShardSpan) (start : Nat) :
    coverCount (s.tileParts us start) ≤ s.tiles * s.tile := by
  have hle : ∀ n ∈ (s.tileParts us start).map (fun p => p.cover.count), n ≤ s.tile := by
    intro n hn
    obtain ⟨p, hp, rfl⟩ := List.mem_map.mp hn
    unfold tileParts at hp
    obtain ⟨t, -, rfl⟩ := List.mem_map.mp hp
    dsimp only
    omega
  have hsum := List.sum_le_card_nsmul _ _ hle
  have hlen : (s.tileParts us start).length = s.tiles := by simp [tileParts]
  rwa [List.length_map, hlen, Nat.nsmul_eq_mul] at hsum

theorem ShardRole.coverCount_sectionParts {role : ShardRole} {width member stop : Nat}
    {sections : List ShardSection} {start : Nat} {ps : List ShardPart}
    (h : role.sectionParts width member sections start = .ok (ps, stop)) :
    start + coverCount ps ≤ stop := by
  induction sections generalizing start ps with
  | nil =>
    simp only [sectionParts, Except.ok.injEq, Prod.mk.injEq] at h
    obtain ⟨rfl, rfl⟩ := h
    exact le_rfl
  | cons s rest ih =>
    rw [sectionParts] at h
    split at h
    · cases h
    next us hus =>
      split at h
      · cases h
      next qs stop' hrest =>
        simp only [Except.ok.injEq, Prod.mk.injEq] at h
        obtain ⟨rfl, rfl⟩ := h
        have htiles := s.coverCount_tileParts us start
        have := ih hrest
        rw [coverCount_append]
        omega

/-- A member holds no more than the axis. -/
theorem ShardRole.coverCount_parts {role : ShardRole} {width member : Nat} {ps : List ShardPart}
    (h : role.parts width member = .ok ps) : coverCount ps ≤ role.extent := by
  by_cases hwhole : role.axis = .none ∨ width = 1
  · rw [role.parts_whole h hwhole]
    simp [coverCount]
  · have hin := role.parts_sections h (fun e => hwhole (Or.inr e)) fun e => hwhole (Or.inl e)
    have := role.coverCount_sectionParts hin
    omega

theorem sizeAdd_of_le {a b : Nat} (h : a + b ≤ sizeMax) : sizeAdd a b = .ok (a + b) :=
  if_neg (by omega)

theorem sizeMul_of_le {a b : Nat} (h : a * b ≤ sizeMax) : sizeMul a b = .ok (a * b) := by
  apply if_neg
  rintro ⟨ha, hlt⟩
  have := (Nat.le_div_iff_mul_le (Nat.pos_of_ne_zero ha)).mpr ((Nat.mul_comm b a).trans_le h)
  omega

theorem partsBytes_of_le {row : Nat} {ps : List ShardPart} {bytes : Nat}
    (h : bytes + coverBytes row ps ≤ sizeMax) :
    partsBytes row ps bytes = .ok (bytes + coverBytes row ps) := by
  induction ps generalizing bytes with
  | nil => rfl
  | cons p ps ih =>
    rw [coverBytes_cons] at h ⊢
    rw [partsBytes, sizeMul_of_le (show p.cover.count * row ≤ sizeMax by omega)]
    dsimp only
    rw [sizeAdd_of_le (by omega)]
    dsimp only
    rw [ih (by omega), Nat.add_assoc]

/-- The rows or columns of the spans. -/
def spanCount (ss : List ShardSpan) : Nat := (ss.map fun s => s.count).sum

theorem spanCount_joinSpan {out : List ShardSpan} {p : ShardPart} :
    spanCount (joinSpan out p) = spanCount out + p.cover.count := by
  have hadd : ∀ (xs : List ShardSpan) s, spanCount (xs ++ [s]) = spanCount xs + s.count := by
    intro xs s
    simp [spanCount]
  unfold joinSpan
  split
  · exact hadd out p.cover
  next back hback =>
    split
    · have hlast := List.dropLast_append_getLast? back hback
      have hout := hadd out.dropLast back
      rw [hlast] at hout
      rw [hadd, hout]
      dsimp only
      omega
    · exact hadd out p.cover

theorem ShardRole.spanCount_spans {role : ShardRole} {width member : Nat} {ss : List ShardSpan}
    (h : role.spans width member = .ok ss) : spanCount ss ≤ role.extent := by
  unfold spans at h
  split at h
  · cases h
  next ps hps =>
    obtain rfl := Except.ok.inj h
    have hfold : ∀ (ps : List ShardPart) (out : List ShardSpan),
        spanCount (ps.foldl joinSpan out) = spanCount out + coverCount ps := by
      intro ps
      induction ps with
      | nil => exact fun out => rfl
      | cons p ps ih =>
        intro out
        rw [List.foldl_cons, ih, spanCount_joinSpan]
        simp only [coverCount, List.map_cons, List.sum_cons]
        omega
    have := role.coverCount_parts hps
    rw [hfold]
    show 0 + coverCount ps ≤ role.extent
    omega

/-- The blocks of the spans, counted span by span. -/
def spanBlocks (block : Nat) (ss : List ShardSpan) : Nat := (ss.map fun s => s.count / block).sum

theorem spanBlocks_le {block : Nat} {ss : List ShardSpan} :
    spanBlocks block ss ≤ spanCount ss / block := by
  induction ss with
  | nil => exact Nat.zero_le _
  | cons s ss ih =>
    calc spanBlocks block (s :: ss) = s.count / block + spanBlocks block ss := by simp [spanBlocks]
      _ ≤ s.count / block + spanCount ss / block := by omega
      _ ≤ (s.count + spanCount ss) / block := Nat.div_add_div_le_add_div
      _ = spanCount (s :: ss) / block := by simp [spanCount]

theorem columnRuns_of_le {type nin row : Nat} {qt : StorageType} (hqt : storageType type = some qt)
    (hrow : rowBytes type nin 1 = .ok row) {ss : List ShardSpan} {packed : Nat}
    (hin : ∀ s ∈ ss, s.begin + s.count ≤ nin)
    (hblocks : ∀ s ∈ ss, s.begin % qt.blockSize = 0 ∧ s.count % qt.blockSize = 0)
    (hle : packed + spanBlocks qt.blockSize ss * qt.typeSize ≤ sizeMax) :
    ∃ rs, columnRuns type ss packed =
      .ok (rs, packed + spanBlocks qt.blockSize ss * qt.typeSize) := by
  induction ss generalizing packed with
  | nil => exact ⟨[], by simp [columnRuns, spanBlocks]⟩
  | cons s ss ih =>
    have hs := hin s (by simp)
    obtain ⟨hbegin, hcount⟩ := hblocks s (by simp)
    have hcons : spanBlocks qt.blockSize (s :: ss) * qt.typeSize =
        s.count / qt.blockSize * qt.typeSize + spanBlocks qt.blockSize ss * qt.typeSize := by
      rw [← Nat.add_mul]
      simp [spanBlocks]
    rw [hcons] at hle ⊢
    obtain ⟨rest, hrest⟩ := ih (fun q hq => hin q (List.mem_cons_of_mem _ hq))
      (fun q hq => hblocks q (List.mem_cons_of_mem _ hq))
      (show packed + s.count / qt.blockSize * qt.typeSize +
        spanBlocks qt.blockSize ss * qt.typeSize ≤ sizeMax by omega)
    rw [columnRuns, rowBytes_of_le hrow (by omega) hqt hcount (by omega),
      rowBytes_of_le hrow (by omega) hqt hbegin (by omega)]
    dsimp only
    rw [sizeAdd_of_le (by omega)]
    dsimp only
    rw [hrest, Nat.add_assoc]
    exact ⟨_, rfl⟩

/-- A tensor with bytes has rows of a whole number of blocks. -/
theorem TensorView.Laid.row_exists {t : TensorView} (h : t.Laid) (hpos : 0 < t.bytes) {w : Nat}
    {rest : List Nat} (hshape : t.shape = w :: rest) : ∃ row, rowBytes t.type w 1 = .ok row := by
  unfold Laid TensorInfo.dataSize at h
  split at h
  · cases h
  · dsimp only at h
    rw [hshape, List.headD_cons] at h
    split at h
    · cases h
    · split at h
      · cases h
      next n hn =>
        obtain ⟨qt, hqt, hmod, hbytes, -⟩ := rowBytes_ok h
        have hrows : 0 < (if n ≠ 0 then n / w else 0) := by
          by_contra hz
          rw [Nat.eq_zero_of_not_pos hz, Nat.mul_zero, Nat.zero_mul] at hbytes
          omega
        exact ⟨_, rowBytes_of_le h hrows hqt hmod le_rfl⟩

theorem TensorView.Laid.bytes_le {t : TensorView} (h : t.Laid) : t.bytes ≤ sizeMax := by
  unfold Laid TensorInfo.dataSize at h
  split at h
  · cases h
  · dsimp only at h
    split at h
    · cases h
    · split at h
      · cases h
      · obtain ⟨qt, -, -, -, hmax⟩ := rowBytes_ok h
        exact hmax

/-- An accepted role has parts for every member. -/
theorem parts_of_check {views : List TensorView} {width i : Nat} {role : ShardRole}
    (h : checkRole views width role = .ok ()) (htensor : role.tensor = some i) :
    ∀ m < width, ∃ ps, role.parts width m = .ok ps := by
  intro m hm
  by_cases haxis : role.axis = .none
  · unfold ShardRole.parts
    rw [if_neg (by omega), if_pos (Or.inl haxis)]
    exact ⟨_, rfl⟩
  · unfold checkRole at h
    rw [htensor] at h
    dsimp only at h
    rw [if_neg haxis] at h
    split at h
    · cases h
    next type htype =>
      have hmember := checkEach_ok_iff.mp h m (List.mem_range.mpr hm)
      unfold checkMember ShardRole.spans at hmember
      cases hps : role.parts width m with
      | error e =>
        rw [hps] at hmember
        cases hmember
      | ok ps => exact ⟨ps, rfl⟩

/-- An accepted column split has spans of whole blocks. -/
theorem spans_of_check {views : List TensorView} {width i : Nat} {role : ShardRole}
    {t : TensorView} (h : checkRole views width role = .ok ()) (htensor : role.tensor = some i)
    (hview : views[i]? = some t) (haxis : role.axis = .columns) :
    ∃ qt, storageType t.type = some qt ∧ ∀ m < width, ∃ ss, role.spans width m = .ok ss ∧
      ∀ s ∈ ss, s.begin % qt.blockSize = 0 ∧ s.count % qt.blockSize = 0 := by
  unfold checkRole at h
  have hget : views.getD i default = t := by rw [List.getD_eq_getElem?_getD, hview, Option.getD_some]
  rw [htensor] at h
  dsimp only at h
  rw [hget, if_neg (by simp [haxis])] at h
  split at h
  · cases h
  next qt hqt =>
    refine ⟨qt, hqt, fun m hm => ?_⟩
    have hmember := checkEach_ok_iff.mp h m (List.mem_range.mpr hm)
    unfold checkMember at hmember
    split at hmember
    · cases hmember
    next ss hss =>
      refine ⟨ss, hss, fun s hs => ?_⟩
      have hspan := checkEach_ok_iff.mp hmember s hs
      unfold checkSpan at hspan
      split at hspan
      · cases hspan
      next hno =>
        by_contra hbad
        exact hno ⟨haxis, by omega⟩

/-- Every member of an accepted width has a copy of a tensor that is not empty, unless a run of
rows were split by columns. -/
theorem held_exists {views : List TensorView} {width member i : Nat} {role : ShardRole}
    {t : TensorView} (hcheck : width = 1 ∨ checkRole views width role = .ok ())
    (htensor : role.tensor = some i) (hview : views[i]? = some t) (hd : role.Declared)
    (hfits : role.fits t.shape t.type = true) (hlaid : t.Laid) (hpos : 0 < t.bytes)
    (hrun : ¬(role.tensorRows ≠ 0 ∧ role.axis = .columns)) (hm : member < width) :
    ∃ h, held role t width member = .ok h := by
  obtain ⟨rest, hshape, hrest⟩ := role.fits_shape hd hfits
  obtain ⟨row, hrow⟩ := hlaid.row_exists hpos hshape
  obtain ⟨hbytes, hmax⟩ := hlaid.bytes_eq hshape hrow
  have hparts : ∃ ps, role.parts width member = .ok ps := by
    rcases hcheck with hw | hcheck
    · unfold ShardRole.parts
      rw [if_neg (by omega), if_pos (Or.inr hw)]
      exact ⟨_, rfl⟩
    · exact parts_of_check hcheck htensor member hm
  obtain ⟨ps, hps⟩ := hparts
  unfold held
  rw [if_neg hrun]
  split
  · exact ⟨_, rfl⟩
  next hsplit =>
    rw [hshape, List.headD_cons, hrow]
    dsimp only
    split
    next hrows =>
      have haxis : role.axis ≠ .columns := by
        intro e
        rcases hrows with hrows | hrows
        · exact hrun ⟨hrows, e⟩
        · rw [hrows] at e
          cases e
      have hcover : coverBytes row (ps.map (·.shift role.firstRow)) ≤ t.bytes := by
        rw [coverBytes_eq, coverCount_shift, hbytes, hrest]
        apply Nat.mul_le_mul_right
        have hextent := role.fits_run hd hfits haxis
        exact (role.coverCount_parts hps).trans (by omega)
      unfold heldRows
      rw [hps]
      dsimp only
      rw [partsBytes_of_le (by omega)]
      exact ⟨_, rfl⟩
    next hrows =>
      have haxis : role.axis = .columns := by
        cases e : role.axis with
        | none => exact absurd ⟨by omega, Or.inl e⟩ hsplit
        | rows => exact absurd (Or.inr e) hrows
        | columns => rfl
      have hcheck : checkRole views width role = .ok () :=
        hcheck.resolve_left fun hw => hsplit ⟨by omega, Or.inr hw⟩
      obtain ⟨qt, hqt, hspans⟩ := spans_of_check hcheck htensor hview haxis
      obtain ⟨ss, hss, hblocks⟩ := hspans member hm
      obtain ⟨qt', hqt', -, hrowEq, hrowMax⟩ := rowBytes_ok hrow
      obtain rfl := Option.some.inj (hqt.symm.trans hqt')
      have hextent : role.extent = role.input := if_pos haxis
      have hin := role.spans_le hss
      rw [hextent] at hin
      have hpacked : spanBlocks qt.blockSize ss * qt.typeSize ≤ row := by
        rw [hrowEq, Nat.mul_one]
        apply Nat.mul_le_mul_right
        have hcount := role.spanCount_spans hss
        rw [hextent] at hcount
        exact spanBlocks_le.trans (Nat.div_le_div_right hcount)
      obtain ⟨rs, hrs⟩ := columnRuns_of_le hqt hrow hin hblocks
        (show 0 + spanBlocks qt.blockSize ss * qt.typeSize ≤ sizeMax by omega)
      have hrowsBytes : (if row ≠ 0 then t.bytes / row else 0) *
          (0 + spanBlocks qt.blockSize ss * qt.typeSize) ≤ sizeMax := by
        calc _ ≤ (if row ≠ 0 then t.bytes / row else 0) * row :=
              Nat.mul_le_mul_left _ (by omega)
          _ ≤ t.bytes := by
              split
              · exact Nat.div_mul_le_self _ _
              · omega
          _ ≤ sizeMax := hmax
      unfold heldColumns
      rw [hss]
      dsimp only
      rw [hrs]
      dsimp only
      rw [sizeMul_of_le hrowsBytes]
      exact ⟨_, rfl⟩

/-- The members' copies laid back in turn over `mem`. -/
def rebuild (width : Nat) (copyOf : Nat → Held) (packed : Nat → Nat → UInt8) (mem : Nat → UInt8) :
    Nat → UInt8 :=
  (List.range width).foldl (fun m member => (copyOf member).layBack (packed member) m) mem

/-- Where each copy of a list was packed from `src`, a byte some copy has is rebuilt. -/
theorem rebuild_list {size : Nat} (hsize : size ≤ sizeMax) {copyOf : Nat → Held}
    {src : Nat → UInt8} {dst : Nat → Nat → UInt8} {k : Nat} {members : List Nat}
    (hsound : ∀ m ∈ members, (copyOf m).Sound size) {mem : Nat → UInt8}
    (h : mem k = src k ∨ ∃ m ∈ members, ∃ r ∈ (copyOf m).pieces 0 sizeMax,
      r.fromByte ≤ k ∧ k < r.fromByte + r.bytes) :
    members.foldl (fun acc m => (copyOf m).layBack ((copyOf m).pack src (dst m)) acc) mem k =
      src k := by
  induction members generalizing mem with
  | nil => exact h.resolve_right (by simp)
  | cons m members ih =>
    rw [List.foldl_cons]
    apply ih fun q hq => hsound q (List.mem_cons_of_mem _ hq)
    rw [(hsound m (by simp)).layBack_pack hsize]
    by_cases hm : ∃ r ∈ (copyOf m).pieces 0 sizeMax, r.fromByte ≤ k ∧ k < r.fromByte + r.bytes
    · exact Or.inl (if_pos hm)
    · rw [if_neg hm]
      rcases h with h | ⟨q, hq, hqk⟩
      · exact Or.inl h
      · rcases List.mem_cons.mp hq with rfl | hq
        · exact absurd hqk hm
        · exact Or.inr ⟨q, hq, hqk⟩

theorem mem_rowRuns (row : Nat) {ps : List ShardPart} {p : ShardPart} (hp : p ∈ ps) (base : Nat) :
    ∃ r ∈ rowRuns row ps base, r.fromByte = p.own.begin * row ∧ r.bytes = p.own.count * row := by
  induction ps generalizing base with
  | nil => cases hp
  | cons q ps ih =>
    rw [rowRuns]
    rcases List.mem_cons.mp hp with rfl | hp
    · exact ⟨_, List.mem_cons_self, rfl, rfl⟩
    · obtain ⟨r, hr, hfrom⟩ := ih hp (base + q.cover.count * row)
      exact ⟨r, List.mem_cons_of_mem _ hr, hfrom⟩

/-- A row a member owns is in its copy. -/
theorem owned_row_in_copy {role : ShardRole} {t : TensorView} {width member row k : Nat} {h : Held}
    (haxis : role.axis = .rows) (hrow : rowBytes t.type (t.shape.headD 0) 1 = .ok row)
    (hh : held role t width member = .ok h) (hpos : 0 < row) (hk : role.firstRow * row ≤ k)
    (hin : k < t.bytes)
    (howns : role.owns width member (k / row - role.firstRow) = true) :
    ∃ r ∈ h.pieces 0 sizeMax, r.fromByte ≤ k ∧ k < r.fromByte + r.bytes := by
  unfold held at hh
  rw [if_neg (by simp [haxis])] at hh
  split at hh
  · obtain rfl := Except.ok.inj hh
    exact ⟨⟨0, t.bytes, 0⟩, by simp [Held.pieces], by dsimp only; omega⟩
  · rw [hrow] at hh
    dsimp only at hh
    rw [if_pos (Or.inr haxis)] at hh
    unfold heldRows at hh
    split at hh
    · cases hh
    next ps hps =>
      split at hh
      · cases hh
      · obtain rfl := Except.ok.inj hh
        obtain ⟨p, hp, hlo, hhi⟩ := (role.owns_iff hps).mp howns
        obtain ⟨r, hr, hfrom, hbytes⟩ := mem_rowRuns row
          (List.mem_map_of_mem (f := (·.shift role.firstRow)) hp) 0
        refine ⟨r, hr, ?_⟩
        have hfirst := (Nat.le_div_iff_mul_le hpos).mpr hk
        have hbegin : (p.own.begin + role.firstRow) * row ≤ k :=
          (Nat.le_div_iff_mul_le hpos).mp (by omega)
        have hend : k < (p.own.begin + role.firstRow + p.own.count) * row :=
          (Nat.div_lt_iff_lt_mul hpos).mp (by omega)
        rw [Nat.add_mul] at hend
        rw [hfrom, hbytes]
        exact ⟨hbegin, hend⟩

/-- Four rows of two values, of which four members own one each and hold two. -/
def fourRows : ShardRole :=
  ⟨"w", .matrix, 2, 4, 0, 0, 0, some 0, .rows, [⟨4, 1, 1, "rows", false, 2⟩]⟩

end Llmx
