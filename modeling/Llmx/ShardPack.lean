import Llmx.ShardCopies
import Mathlib.Data.List.TakeWhile

namespace Llmx

open Tiling

theorem sizeAdd_ok {a b n : Nat} (h : sizeAdd a b = .ok n) : n = a + b := by
  unfold sizeAdd at h
  split at h
  · cases h
  · exact (Except.ok.inj h).symm

theorem sizeMul_ok {a b n : Nat} (h : sizeMul a b = .ok n) : n = a * b := by
  unfold sizeMul at h
  split at h
  · cases h
  · exact (Except.ok.inj h).symm

/-- The bytes of the rows the parts hold. -/
def coverBytes (row : Nat) (ps : List ShardPart) : Nat := (ps.map fun p => p.cover.count * row).sum

theorem coverBytes_cons {row : Nat} {p : ShardPart} {ps : List ShardPart} :
    coverBytes row (p :: ps) = p.cover.count * row + coverBytes row ps := by
  simp [coverBytes]

theorem partsBytes_ok {row : Nat} {ps : List ShardPart} {bytes n : Nat}
    (h : partsBytes row ps bytes = .ok n) : n = bytes + coverBytes row ps := by
  induction ps generalizing bytes with
  | nil =>
    obtain rfl := Except.ok.inj h
    rfl
  | cons p ps ih =>
    rw [partsBytes] at h
    split at h
    · cases h
    next m hm =>
      split at h
      · cases h
      next sum hsum =>
        rw [ih h, sizeAdd_ok hsum, sizeMul_ok hm, coverBytes_cons]
        omega

/-- The runs of a row's spans pack one after another and lie inside the row. -/
theorem columnRuns_ok {type nin row : Nat} {qt : StorageType} (hqt : storageType type = some qt)
    (hrow : row = nin / qt.blockSize * qt.typeSize) {ss : List ShardSpan} {packed last : Nat}
    {rs : List ShardRun} (hin : ∀ s ∈ ss, s.begin + s.count ≤ nin)
    (h : columnRuns type ss packed = .ok (rs, last)) :
    Tiles (·.toByte) (·.bytes) rs packed last ∧ ∀ r ∈ rs, r.fromByte + r.bytes ≤ row := by
  induction ss generalizing packed rs with
  | nil =>
    simp only [columnRuns, Except.ok.injEq, Prod.mk.injEq] at h
    obtain ⟨rfl, rfl⟩ := h
    exact ⟨rfl, by simp⟩
  | cons s ss ih =>
    rw [columnRuns] at h
    split at h
    · cases h
    next n hn =>
      split at h
      · cases h
      next first hfirst =>
        split at h
        · cases h
        next next' hnext =>
          split at h
          · cases h
          next rest last' hrest =>
            simp only [Except.ok.injEq, Prod.mk.injEq] at h
            obtain ⟨rfl, rfl⟩ := h
            obtain ⟨htiles, hinside⟩ := ih (fun q hq => hin q (List.mem_cons_of_mem _ hq)) hrest
            rw [sizeAdd_ok hnext] at htiles
            refine ⟨⟨rfl, htiles⟩, ?_⟩
            rw [List.forall_mem_cons]
            refine ⟨?_, hinside⟩
            obtain ⟨qt', hqt', -, hn, -⟩ := rowBytes_ok hn
            obtain rfl := Option.some.inj (hqt.symm.trans hqt')
            obtain ⟨qt', hqt', hmod, hfirst, -⟩ := rowBytes_ok hfirst
            obtain rfl := Option.some.inj (hqt.symm.trans hqt')
            have hle : s.begin / qt.blockSize + s.count / qt.blockSize ≤ nin / qt.blockSize :=
              calc s.begin / qt.blockSize + s.count / qt.blockSize
                  ≤ (s.begin + s.count) / qt.blockSize := Nat.div_add_div_le_add_div
                _ ≤ nin / qt.blockSize := Nat.div_le_div_right (hin s (by simp))
            show first + n ≤ row
            rw [hfirst, hn, hrow, Nat.mul_one, Nat.mul_one, ← Nat.add_mul]
            exact Nat.mul_le_mul_right _ hle

/-- What a copy of a tensor of `size` bytes keeps, by its axis. -/
inductive Held.Sound (h : Held) (size : Nat) : Prop
  | whole (axis : h.axis = .none) (bytes : h.bytes = size)
  | rows (n : Nat) (axis : h.axis = .rows) (inside : n * h.row ≤ size)
      (parts : ∀ p ∈ h.parts, p.Within 0 n) (bytes : h.bytes = coverBytes h.row h.parts)
  | columns (axis : h.axis = .columns) (pack : Tiles (·.toByte) (·.bytes) h.columns 0 h.packedRow)
      (inside : ∀ c ∈ h.columns, c.fromByte + c.bytes ≤ h.row) (rows : h.rows * h.row ≤ size)
      (bytes : h.bytes = h.rows * h.packedRow) (empty : h.row = 0 → h.rows = 0)

theorem ShardPart.Within.shift {p : ShardPart} {a b : Nat} (h : p.Within a b) (n : Nat) :
    (p.shift n).Within (a + n) (b + n) := by
  obtain ⟨h₁, h₂, h₃, h₄⟩ := h
  constructor <;> simp only [ShardPart.shift] <;> omega

theorem heldRows_sound {role : ShardRole} {width member row size : Nat} {h : Held}
    (hh : heldRows role width member row = .ok h)
    (hsize : (role.firstRow + role.extent) * row ≤ size) : h.Sound size := by
  unfold heldRows at hh
  split at hh
  · cases hh
  next ps hps =>
    split at hh
    · cases hh
    next bytes hbytes =>
      obtain rfl := Except.ok.inj hh
      have hwithin := role.parts_within hps
      refine .rows _ rfl hsize ?_ ?_
      · intro p hp
        obtain ⟨q, hq, rfl⟩ := List.mem_map.mp hp
        exact ((hwithin q hq).shift role.firstRow).mono (Nat.zero_le _) (by omega)
      · have := partsBytes_ok hbytes
        rw [Nat.zero_add] at this
        exact this

theorem heldColumns_sound {role : ShardRole} {t : TensorView} {width member row : Nat} {h : Held}
    (hh : heldColumns role t width member row = .ok h) (haxis : role.axis = .columns)
    (hrow : rowBytes t.type role.input 1 = .ok row) : h.Sound t.bytes := by
  obtain ⟨qt, hqt, -, hrow, -⟩ := rowBytes_ok hrow
  rw [Nat.mul_one] at hrow
  unfold heldColumns at hh
  split at hh
  · cases hh
  next ss hss =>
    split at hh
    · cases hh
    next columns packedRow hcolumns =>
      split at hh
      · cases hh
      next bytes hbytes =>
        obtain rfl := Except.ok.inj hh
        have hextent : role.extent = role.input := if_pos haxis
        have hin := role.spans_le hss
        rw [hextent] at hin
        obtain ⟨htiles, hinside⟩ := columnRuns_ok hqt hrow hin hcolumns
        refine .columns rfl htiles hinside ?_ (sizeMul_ok hbytes) fun hzero => ?_
        · dsimp only
          split
          · exact Nat.div_mul_le_self _ _
          · omega
        · exact if_neg (not_not_intro hzero)

/-- A copy of a tensor that fits its role is sound. -/
theorem held_sound {role : ShardRole} {t : TensorView} {width member : Nat} {h : Held}
    (hd : role.Declared) (hfits : role.fits t.shape t.type = true) (hlaid : t.Laid)
    (hh : held role t width member = .ok h) : h.Sound t.bytes := by
  obtain ⟨rest, hshape, hrest⟩ := role.fits_shape hd hfits
  unfold held at hh
  split at hh
  · cases hh
  next hrun =>
    split at hh
    · obtain rfl := Except.ok.inj hh
      exact .whole rfl rfl
    next hsplit =>
      split at hh
      · cases hh
      next row hrow =>
        rw [hshape, List.headD_cons] at hrow
        obtain ⟨hbytes, -⟩ := hlaid.bytes_eq hshape hrow
        split at hh
        next hrows =>
          have haxis : role.axis ≠ .columns := by
            intro e
            rcases hrows with hrows | hrows
            · exact hrun ⟨hrows, e⟩
            · rw [hrows] at e
              cases e
          apply heldRows_sound hh
          rw [hbytes, hrest]
          exact Nat.mul_le_mul_right _ (role.fits_run hd hfits haxis)
        next hrows =>
          have haxis : role.axis = .columns := by
            cases e : role.axis with
            | none => exact absurd ⟨by omega, Or.inl e⟩ hsplit
            | rows => exact absurd (Or.inr e) hrows
            | columns => rfl
          exact heldColumns_sound hh haxis hrow

/-- The rows a part owns and the zero rows around them make up the rows it holds. -/
theorem ShardPart.Within.bytes_eq {p : ShardPart} {a b : Nat} (h : p.Within a b) (row : Nat) :
    (p.own.begin - p.cover.begin) * row + p.own.count * row +
      (p.cover.begin + p.cover.count - p.own.begin - p.own.count) * row = p.cover.count * row := by
  obtain ⟨h₁, h₂, h₃, h₄⟩ := h
  rw [← Nat.add_mul, ← Nat.add_mul]
  congr 1
  omega

/-- Every byte the parts pack is in one of their rows or one of their zero rows. -/
theorem rowRuns_covering (row : Nat) {a b : Nat} {ps : List ShardPart} (h : ∀ p ∈ ps, p.Within a b)
    (base i : Nat) :
    covering (·.toByte) (·.bytes) (rowRuns row ps base) i +
        covering (·.toByte) (·.bytes) (zeroRows row ps base) i =
      if base ≤ i ∧ i < base + coverBytes row ps then 1 else 0 := by
  induction ps generalizing base with
  | nil =>
    have hempty : coverBytes row [] = 0 := rfl
    rw [hempty, if_neg (show ¬(base ≤ i ∧ i < base + 0) by omega)]
    rfl
  | cons p ps ih =>
    have hp := (h p (by simp)).bytes_eq row
    have hrest := ih (fun q hq => h q (List.mem_cons_of_mem _ hq)) (base + p.cover.count * row)
    have hbefore : ∀ n c, covering (·.toByte) (·.bytes)
        (if n ≠ 0 then [(⟨0, n, c⟩ : ShardRun)] else []) i =
          if c ≤ i ∧ i < c + n then 1 else 0 := by
      intro n c
      split
      next => rw [covering_cons, covering_nil, Nat.add_zero]
      next => rw [covering_nil, if_neg (by omega)]
    rw [rowRuns, zeroRows, covering_cons, covering_append, covering_append, hbefore, hbefore,
      coverBytes_cons]
    dsimp only
    split at hrest <;> split <;> split <;> split <;> split <;> omega

theorem rowRuns_inside {row n size : Nat} {ps : List ShardPart} (hn : n * row ≤ size)
    (h : ∀ p ∈ ps, p.Within 0 n) (base : Nat) :
    ∀ r ∈ rowRuns row ps base, r.fromByte + r.bytes ≤ size := by
  induction ps generalizing base with
  | nil => simp [rowRuns]
  | cons p ps ih =>
    rw [rowRuns, List.forall_mem_cons]
    refine ⟨?_, ih (fun q hq => h q (List.mem_cons_of_mem _ hq)) _⟩
    have hp := h p (by simp)
    have hle : p.own.begin + p.own.count ≤ n := hp.own_last.trans hp.last
    calc p.own.begin * row + p.own.count * row
        = (p.own.begin + p.own.count) * row := (Nat.add_mul _ _ _).symm
      _ ≤ n * row := Nat.mul_le_mul_right _ hle
      _ ≤ size := hn

/-- The runs of one row of a column split pack it whole. -/
theorem Held.columnsOf_tiles {h : Held} (hpack : Tiles (·.toByte) (·.bytes) h.columns 0 h.packedRow)
    (r : Nat) :
    Tiles (·.toByte) (·.bytes) (h.columnsOf r) (r * h.packedRow) (r * h.packedRow + h.packedRow) := by
  have shift : ∀ (cs : List ShardRun) (a b : Nat), Tiles (·.toByte) (·.bytes) cs a b →
      Tiles (·.toByte) (·.bytes)
        (cs.map fun c => ShardRun.mk (r * h.row + c.fromByte) c.bytes (r * h.packedRow + c.toByte))
        (r * h.packedRow + a) (r * h.packedRow + b) := by
    intro cs
    induction cs with
    | nil =>
      intro a b e
      exact congrArg (r * h.packedRow + ·) e
    | cons c cs ih =>
      intro a b e
      obtain ⟨hc, hcs⟩ := e
      refine ⟨congrArg (r * h.packedRow + ·) hc, ?_⟩
      have := ih _ _ hcs
      rw [← Nat.add_assoc] at this
      exact this
  exact shift h.columns 0 h.packedRow hpack

theorem Held.columns_tiles {h : Held} (hpack : Tiles (·.toByte) (·.bytes) h.columns 0 h.packedRow)
    (n r : Nat) :
    Tiles (·.toByte) (·.bytes) ((List.range' r n).flatMap h.columnsOf) (r * h.packedRow)
      ((r + n) * h.packedRow) := by
  induction n generalizing r with
  | zero => rfl
  | succ n ih =>
    rw [List.range'_succ, List.flatMap_cons]
    apply (columnsOf_tiles hpack r).append
    have := ih (r + 1)
    rw [Nat.add_mul, Nat.one_mul, show r + 1 + n = r + (n + 1) by omega] at this
    exact this

/-- Up to the machine's largest size every row of a column split is read. -/
theorem Held.pieces_columns {h : Held} {size : Nat} (haxis : h.axis = .columns)
    (hrows : h.rows * h.row ≤ size) (hsize : size ≤ sizeMax) (hrow : h.row ≠ 0) :
    h.pieces 0 sizeMax = (List.range' 0 h.rows).flatMap h.columnsOf := by
  have hall : ((List.range' 0 h.rows).takeWhile fun r => r * h.row < sizeMax) =
      List.range' 0 h.rows := by
    rw [List.takeWhile_eq_self_iff]
    intro r hr
    obtain ⟨k, hk, rfl⟩ := List.mem_range'.mp hr
    have hlt : (0 + 1 * k) * h.row < h.rows * h.row :=
      Nat.mul_lt_mul_of_pos_right (by omega) (by omega)
    simp only [decide_eq_true_eq]
    omega
  simp only [pieces, haxis, hrow, ne_eq, not_false_eq_true, if_true, Nat.zero_div, Nat.sub_zero,
    hall]

/-- Every byte of a sound copy is in one of its pieces or one of its zero runs. -/
theorem Held.Sound.pieces_covering {h : Held} {size : Nat} (hs : h.Sound size)
    (hsize : size ≤ sizeMax) (i : Nat) :
    covering (·.toByte) (·.bytes) (h.pieces 0 sizeMax) i +
        covering (·.toByte) (·.bytes) h.zeroRuns i = if i < h.bytes then 1 else 0 := by
  cases hs with
  | whole haxis _ =>
    simp only [pieces, zeroRuns, haxis, reduceCtorEq, ne_eq, not_false_eq_true, if_true,
      covering_cons, covering_nil, Nat.zero_le, true_and, Nat.zero_add, Nat.add_zero]
  | rows n haxis _ hparts hbytes =>
    have hcover := rowRuns_covering h.row hparts 0 i
    rw [Nat.zero_add, ← hbytes] at hcover
    simp only [pieces, zeroRuns, haxis, ne_eq, not_true_eq_false, if_false, hcover, Nat.zero_le,
      true_and]
  | columns haxis hpack _ hrows hbytes hempty =>
    have hzero : h.zeroRuns = [] := by simp [zeroRuns, haxis]
    rw [hzero, covering_nil, Nat.add_zero]
    by_cases hrow : h.row = 0
    · simp [pieces, haxis, hrow, hbytes, hempty hrow]
    · rw [pieces_columns haxis hrows hsize hrow, (columns_tiles hpack h.rows 0).covering,
        Nat.zero_mul, Nat.zero_add, ← hbytes]
      simp only [Nat.zero_le, true_and]

/-- Every piece of a sound copy reads inside the tensor. -/
theorem Held.Sound.pieces_inside {h : Held} {size : Nat} (hs : h.Sound size)
    (hsize : size ≤ sizeMax) : ∀ r ∈ h.pieces 0 sizeMax, r.fromByte + r.bytes ≤ size := by
  cases hs with
  | whole haxis hbytes =>
    simp [pieces, haxis, hbytes]
  | rows n haxis hn hparts _ =>
    simp only [pieces, haxis]
    exact rowRuns_inside hn hparts 0
  | columns haxis _ hinside hrows _ _ =>
    by_cases hrow : h.row = 0
    · simp [pieces, haxis, hrow]
    · rw [pieces_columns haxis hrows hsize hrow]
      intro r hr
      obtain ⟨k, hk, hr⟩ := List.mem_flatMap.mp hr
      obtain ⟨c, hc, rfl⟩ := List.mem_map.mp hr
      obtain ⟨j, hj, rfl⟩ := List.mem_range'.mp hk
      have hrow := hinside c hc
      have htile := tile_le_tiles h.row (show 0 + 1 * j < h.rows by omega)
      dsimp only
      omega

/-- An additive measure of a sound copy's file runs is that of its pieces. -/
theorem Held.Sound.fileRuns_sum {h : Held} {size : Nat} (hs : h.Sound size) (hsize : size ≤ sizeMax)
    {f : ShardRun → Nat} (hf : Additive f) :
    ((h.fileRuns 0 sizeMax).map f).sum = ((h.pieces 0 sizeMax).map f).sum := by
  rw [h.fileRuns_sum hf]
  congr 1
  apply List.map_congr_left
  intro r hr
  rw [ShardRun.cut_self ((hs.pieces_inside hsize r hr).trans hsize)]

/-- Every byte of a sound copy is written once, by a file run or a zero run, and no other is. -/
theorem Held.Sound.covering {h : Held} {size : Nat} (hs : h.Sound size) (hsize : size ≤ sizeMax)
    (i : Nat) :
    covering (·.toByte) (·.bytes) (h.fileRuns 0 sizeMax) i +
        covering (·.toByte) (·.bytes) h.zeroRuns i = if i < h.bytes then 1 else 0 := by
  rw [← hs.pieces_covering hsize i, covering_eq_sum, hs.fileRuns_sum hsize (additive_dest i),
    covering_eq_sum (h.pieces 0 sizeMax)]

/-- A sound copy's file runs read inside the tensor. -/
theorem Held.Sound.reads_inside {h : Held} {size : Nat} (hs : h.Sound size)
    (hsize : size ≤ sizeMax) : ∀ r ∈ h.fileRuns 0 sizeMax, r.fromByte + r.bytes ≤ size := by
  apply h.fileRuns_all (P := fun r => r.fromByte + r.bytes ≤ size)
  · intro r hr _
    have hin := hs.pieces_inside hsize r hr
    simp only [ShardRun.cut]
    omega
  · intro a b b' c _ _ hnext
    dsimp only at hnext ⊢
    omega

/-- A byte of a file run is packed from its place in the tensor. -/
theorem Held.Sound.pack_file {h : Held} {size : Nat} (hs : h.Sound size) (hsize : size ≤ sizeMax)
    (src dst : Nat → UInt8) {r : ShardRun} (hr : r ∈ h.fileRuns 0 sizeMax) {i : Nat}
    (hi : r.toByte ≤ i ∧ i < r.toByte + r.bytes) :
    h.pack src dst i = src (r.fromByte + (i - r.toByte)) := by
  have hcover := hs.covering hsize i
  have hpos : 0 < Tiling.covering (·.toByte) (·.bytes) (h.fileRuns 0 sizeMax) i :=
    covering_pos hr hi
  have hone : Tiling.covering (·.toByte) (·.bytes) (h.fileRuns 0 sizeMax) i = 1 := by
    split at hcover <;> omega
  have hzero : Tiling.covering (·.toByte) (·.bytes) h.zeroRuns i = 0 := by
    split at hcover <;> omega
  unfold pack
  rw [putAll_eq_of_not_held (not_held_of_covering hzero)]
  apply putAll_eq_of_held
  · intro q hq hqi
    obtain rfl := eq_of_covering_one hone hq hr hqi hi
    rfl
  · exact Or.inr ⟨r, hr, hi⟩

/-- Packing leaves what lies past the copy. -/
theorem Held.Sound.pack_past {h : Held} {size : Nat} (hs : h.Sound size) (hsize : size ≤ sizeMax)
    (src dst : Nat → UInt8) {i : Nat} (hi : h.bytes ≤ i) : h.pack src dst i = dst i := by
  have hcover := hs.covering hsize i
  rw [if_neg (by omega)] at hcover
  unfold pack
  rw [putAll_eq_of_not_held (not_held_of_covering (by omega)),
    putAll_eq_of_not_held (not_held_of_covering (by omega))]

/-- Laying a packed copy back gives the tensor's bytes where the copy has them, and leaves the
rest. -/
theorem Held.Sound.layBack_pack {h : Held} {size : Nat} (hs : h.Sound size)
    (hsize : size ≤ sizeMax) (src dst mem : Nat → UInt8) (i : Nat) :
    h.layBack (h.pack src dst) mem i =
      if ∃ r ∈ h.pieces 0 sizeMax, r.fromByte ≤ i ∧ i < r.fromByte + r.bytes then src i
      else mem i := by
  have hsum : Tiling.covering (·.fromByte) (·.bytes) (h.fileRuns 0 sizeMax) i =
      Tiling.covering (·.fromByte) (·.bytes) (h.pieces 0 sizeMax) i := by
    rw [covering_eq_sum, hs.fileRuns_sum hsize (additive_source i),
      covering_eq_sum (h.pieces 0 sizeMax)]
  unfold layBack
  split
  next hheld =>
    obtain ⟨r, hr, hi⟩ := hheld
    have hpos : 0 < Tiling.covering (·.fromByte) (·.bytes) (h.pieces 0 sizeMax) i :=
      covering_pos hr hi
    apply putAll_eq_of_held
    · intro q hq hqi
      have hin : q.toByte ≤ q.toByte + (i - q.fromByte) ∧
          q.toByte + (i - q.fromByte) < q.toByte + q.bytes := by omega
      show h.pack src dst (q.toByte + (i - q.fromByte)) = src i
      rw [hs.pack_file hsize src dst hq hin]
      congr 1
      omega
    · exact Or.inr (exists_of_covering (hsum ▸ hpos))
  next hheld =>
    apply putAll_eq_of_not_held
    apply not_held_of_covering
    rw [hsum]
    by_contra hne
    exact hheld (exists_of_covering (Nat.pos_of_ne_zero hne))

end Llmx
