import Llmx.ShardMembers

namespace Llmx

open Tiling

/-- Consecutive windows of `sizes` bytes, the first from `lo`. -/
def windows : Nat → List Nat → List (Nat × Nat)
  | _, [] => []
  | lo, n :: ns => (lo, lo + n) :: windows (lo + n) ns

/-- The runs the windows give, one window after another. -/
def Held.windowRuns (h : Held) (sizes : List Nat) : List ShardRun :=
  (windows 0 sizes).flatMap fun w => h.fileRuns w.1 w.2

/-- A member's copy, into `dst`, of a tensor that comes in windows: its zero runs first and each
window's runs as it comes. -/
def Held.stream (h : Held) (src : Nat → UInt8) (sizes : List Nat) (dst : Nat → UInt8) :
    Nat → UInt8 :=
  (windows 0 sizes).foldl
    (fun mem w => putAll (·.toByte) (·.bytes) (ShardRun.read src) (h.fileRuns w.1 w.2) mem)
    (putAll (·.toByte) (·.bytes) (fun _ _ => 0) h.zeroRuns dst)

theorem Held.stream_eq (h : Held) (src : Nat → UInt8) (sizes : List Nat) (dst : Nat → UInt8) :
    h.stream src sizes dst =
      putAll (·.toByte) (·.bytes) (ShardRun.read src) (h.windowRuns sizes)
        (putAll (·.toByte) (·.bytes) (fun _ _ => 0) h.zeroRuns dst) := by
  unfold windowRuns putAll
  rw [List.foldl_flatMap]
  rfl

/-- A run cut at a place between measures as its two parts. -/
theorem Additive.cut_add {f : ShardRun → Nat} (hf : Additive f) (r : ShardRun) {lo mid hi : Nat}
    (hlo : lo ≤ mid) (hhi : mid ≤ hi) : f (r.cut lo hi) = f (r.cut lo mid) + f (r.cut mid hi) := by
  obtain ⟨a, b, c⟩ := r
  simp only [ShardRun.cut]
  by_cases hend : a + b ≤ mid
  · rw [show min (a + b) hi - max a mid = 0 by omega, hf.empty,
      show min (a + b) hi = min (a + b) mid by omega, Nat.add_zero]
  · by_cases hstart : mid ≤ a
    · rw [show min (a + b) mid - max a lo = 0 by omega, hf.empty,
        show max a lo = max a mid by omega, Nat.zero_add]
    · have hjoin := hf.join (max a lo) (mid - max a lo) (min (a + b) hi - mid) (c + (max a lo - a))
      rw [show mid - max a lo + (min (a + b) hi - mid) = min (a + b) hi - max a lo by omega,
        show max a lo + (mid - max a lo) = mid by omega,
        show c + (max a lo - a) + (mid - max a lo) = c + (mid - a) by omega] at hjoin
      rw [hjoin, show min (a + b) mid = mid by omega, show max a mid = mid by omega]

theorem Additive.cut_empty {f : ShardRun → Nat} (hf : Additive f) {r : ShardRun} {lo hi : Nat}
    (h : min (r.fromByte + r.bytes) hi ≤ max r.fromByte lo) : f (r.cut lo hi) = 0 := by
  obtain ⟨a, b, c⟩ := r
  dsimp only at h
  simp only [ShardRun.cut]
  rw [show min (a + b) hi - max a lo = 0 by omega]
  exact hf.empty _ _

/-- The rows of a column split a window leaves out have nothing in it. -/
theorem Held.columns_sum {f : ShardRun → Nat} (hf : Additive f) {h : Held} {lo hi : Nat}
    (hinside : ∀ c ∈ h.columns, c.fromByte + c.bytes ≤ h.row) :
    ((((List.range' (lo / h.row) (h.rows - lo / h.row)).takeWhile fun r => r * h.row < hi).flatMap
      h.columnsOf).map fun r => f (r.cut lo hi)).sum =
      (((List.range' 0 h.rows).flatMap h.columnsOf).map fun r => f (r.cut lo hi)).sum := by
  have hnone : ∀ rows : List Nat, (∀ r ∈ rows, (r + 1) * h.row ≤ lo ∨ hi ≤ r * h.row) →
      ((rows.flatMap h.columnsOf).map fun r => f (r.cut lo hi)).sum = 0 := by
    intro rows hrows
    apply List.sum_eq_zero
    intro x hx
    obtain ⟨q, hq, rfl⟩ := List.mem_map.mp hx
    obtain ⟨r, hr, hq⟩ := List.mem_flatMap.mp hq
    obtain ⟨c, hc, rfl⟩ := List.mem_map.mp hq
    have hc := hinside c hc
    have hr := hrows r hr
    rw [Nat.add_mul, Nat.one_mul] at hr
    apply hf.cut_empty
    dsimp only
    omega
  have hafter : ∀ start n, ((((List.range' start n).takeWhile fun r => r * h.row < hi).flatMap
      h.columnsOf).map fun r => f (r.cut lo hi)).sum =
        (((List.range' start n).flatMap h.columnsOf).map fun r => f (r.cut lo hi)).sum := by
    intro start n
    induction n generalizing start with
    | zero => rfl
    | succ n ih =>
      rw [List.range'_succ, List.takeWhile_cons]
      split
      next => simp only [List.flatMap_cons, List.map_append, List.sum_append, ih]
      next hpast =>
        have hpast : hi ≤ start * h.row := by simpa using hpast
        symm
        apply hnone
        intro r hr
        right
        obtain ⟨k, -, rfl⟩ := List.mem_range'.mp (List.range'_succ ▸ hr)
        exact hpast.trans (Nat.mul_le_mul_right _ (by omega))
  have hbefore : ∀ start n, start ≤ lo / h.row → start + n = h.rows →
      (((List.range' start n).flatMap h.columnsOf).map fun r => f (r.cut lo hi)).sum =
        (((List.range' (lo / h.row) (h.rows - lo / h.row)).flatMap h.columnsOf).map
          fun r => f (r.cut lo hi)).sum := by
    intro start n hstart hend
    induction n generalizing start with
    | zero =>
      rw [show h.rows - lo / h.row = 0 by omega]
      rfl
    | succ n ih =>
      by_cases heq : start = lo / h.row
      · rw [heq, show h.rows - lo / h.row = n + 1 by omega]
      · have hrest := ih (start + 1) (by omega) (by omega)
        have hfirst := hnone [start] (by
          intro r hr
          obtain rfl := List.mem_singleton.mp hr
          left
          calc (r + 1) * h.row ≤ lo / h.row * h.row := Nat.mul_le_mul_right _ (by omega)
            _ ≤ lo := Nat.div_mul_le_self _ _)
        rw [List.flatMap_singleton] at hfirst
        rw [List.range'_succ, List.flatMap_cons, List.map_append, List.sum_append, hfirst, hrest,
          Nat.zero_add]
  rw [hafter]
  exact (hbefore 0 h.rows (Nat.zero_le _) (Nat.zero_add _)).symm

/-- A window of a sound copy measures as all its pieces cut to the window. -/
theorem Held.Sound.window_sum {h : Held} {size : Nat} (hs : h.Sound size) (hsize : size ≤ sizeMax)
    {f : ShardRun → Nat} (hf : Additive f) (lo hi : Nat) :
    ((h.fileRuns lo hi).map f).sum =
      ((h.pieces 0 sizeMax).map fun r => f (r.cut lo hi)).sum := by
  rw [h.fileRuns_sum hf]
  cases hs with
  | whole haxis _ => simp only [pieces, haxis]
  | rows _ haxis _ _ _ => simp only [pieces, haxis]
  | columns haxis _ hinside hrows _ _ =>
    by_cases hrow : h.row = 0
    · simp only [pieces, haxis, hrow, ne_eq, not_true_eq_false, if_false]
    · rw [pieces_columns haxis hrows hsize hrow, ← columns_sum hf hinside]
      simp only [pieces, haxis, hrow, ne_eq, not_false_eq_true, if_true]

theorem Held.Sound.windows_sum {h : Held} {size : Nat} (hs : h.Sound size)
    (hsize : size ≤ sizeMax) {f : ShardRun → Nat} (hf : Additive f) (lo : Nat) (sizes : List Nat) :
    (((windows lo sizes).flatMap fun w => h.fileRuns w.1 w.2).map f).sum =
      ((h.pieces 0 sizeMax).map fun r => f (r.cut lo (lo + sizes.sum))).sum := by
  induction sizes generalizing lo with
  | nil =>
    symm
    apply List.sum_eq_zero
    intro x hx
    obtain ⟨r, -, rfl⟩ := List.mem_map.mp hx
    rw [List.sum_nil, Nat.add_zero]
    exact hf.cut_empty (by omega)
  | cons n ns ih =>
    rw [windows, List.flatMap_cons, List.map_append, List.sum_append, ih, hs.window_sum hsize hf,
      ← List.sum_map_add, List.sum_cons, ← Nat.add_assoc]
    congr 1
    apply List.map_congr_left
    intro r _
    exact (hf.cut_add r (by omega) (by omega)).symm

/-- Windows that make up the tensor measure as the copy's runs taken whole. -/
theorem Held.Sound.windowRuns_sum {h : Held} {size : Nat} (hs : h.Sound size)
    (hsize : size ≤ sizeMax) {f : ShardRun → Nat} (hf : Additive f) {sizes : List Nat}
    (hsizes : sizes.sum = size) :
    ((h.windowRuns sizes).map f).sum = ((h.fileRuns 0 sizeMax).map f).sum := by
  unfold windowRuns
  rw [hs.windows_sum hsize hf, hs.fileRuns_sum hsize hf, Nat.zero_add, hsizes]
  congr 1
  apply List.map_congr_left
  intro r hr
  rw [ShardRun.cut_self (hs.pieces_inside hsize r hr)]

/-- The runs that put the tensor's byte `j` at byte `i` of the copy, counted. -/
def ShardRun.moves (i j : Nat) (r : ShardRun) : Nat :=
  if (r.toByte ≤ i ∧ i < r.toByte + r.bytes) ∧ r.fromByte + (i - r.toByte) = j then 1 else 0

theorem additive_moves (i j : Nat) : Additive (ShardRun.moves i j) := by
  constructor
  · intro a c
    exact if_neg (by dsimp only; omega)
  · intro a b b' c
    unfold ShardRun.moves
    dsimp only
    split <;> split <;> split <;> omega

theorem exists_of_moves {rs : List ShardRun} {i j : Nat} (h : 0 < (rs.map (ShardRun.moves i j)).sum) :
    ∃ r ∈ rs, (r.toByte ≤ i ∧ i < r.toByte + r.bytes) ∧ r.fromByte + (i - r.toByte) = j := by
  induction rs with
  | nil => cases h
  | cons r rs ih =>
    by_cases hr : (r.toByte ≤ i ∧ i < r.toByte + r.bytes) ∧ r.fromByte + (i - r.toByte) = j
    · exact ⟨r, List.mem_cons_self, hr⟩
    · rw [List.map_cons, List.sum_cons, ShardRun.moves, if_neg hr, Nat.zero_add] at h
      obtain ⟨q, hq, hqi⟩ := ih h
      exact ⟨q, List.mem_cons_of_mem _ hq, hqi⟩

theorem moves_pos {rs : List ShardRun} {r : ShardRun} (hr : r ∈ rs) {i : Nat}
    (hi : r.toByte ≤ i ∧ i < r.toByte + r.bytes) :
    0 < (rs.map (ShardRun.moves i (r.fromByte + (i - r.toByte)))).sum := by
  have hone : ShardRun.moves i (r.fromByte + (i - r.toByte)) r = 1 := if_pos ⟨hi, by omega⟩
  have hle := List.le_sum_of_mem (List.mem_map_of_mem
    (f := ShardRun.moves i (r.fromByte + (i - r.toByte))) hr)
  omega

theorem Held.Sound.windowRuns_covering {h : Held} {size : Nat} (hs : h.Sound size)
    (hsize : size ≤ sizeMax) {sizes : List Nat} (hsizes : sizes.sum = size) (i : Nat) :
    Tiling.covering (·.toByte) (·.bytes) (h.windowRuns sizes) i =
      Tiling.covering (·.toByte) (·.bytes) (h.fileRuns 0 sizeMax) i := by
  rw [covering_eq_sum, covering_eq_sum, hs.windowRuns_sum hsize (additive_dest i) hsizes]

/-- A byte of a run taken whole comes from the same place in the windows. -/
theorem Held.Sound.exists_window_run {h : Held} {size : Nat} (hs : h.Sound size)
    (hsize : size ≤ sizeMax) {sizes : List Nat} (hsizes : sizes.sum = size) {r : ShardRun}
    (hr : r ∈ h.fileRuns 0 sizeMax) {i : Nat} (hi : r.toByte ≤ i ∧ i < r.toByte + r.bytes) :
    ∃ q ∈ h.windowRuns sizes, (q.toByte ≤ i ∧ i < q.toByte + q.bytes) ∧
      q.fromByte + (i - q.toByte) = r.fromByte + (i - r.toByte) := by
  have hpos := moves_pos hr hi
  rw [← hs.windowRuns_sum hsize (additive_moves i _) hsizes] at hpos
  exact exists_of_moves hpos

theorem Held.Sound.stream_eq_pack {h : Held} {size : Nat} (hs : h.Sound size)
    (hsize : size ≤ sizeMax) {sizes : List Nat} (hsizes : sizes.sum = size)
    (src dst : Nat → UInt8) : h.stream src sizes dst = h.pack src dst := by
  funext i
  have hcover := hs.covering hsize i
  have hwindows := hs.windowRuns_covering hsize hsizes i
  rw [stream_eq]
  by_cases hfile : Tiling.covering (·.toByte) (·.bytes) (h.fileRuns 0 sizeMax) i = 0
  · unfold pack
    rw [putAll_eq_of_not_held (not_held_of_covering (hwindows.trans hfile))]
    by_cases hzero : Tiling.covering (·.toByte) (·.bytes) h.zeroRuns i = 0
    · rw [putAll_eq_of_not_held (not_held_of_covering hzero),
        putAll_eq_of_not_held (not_held_of_covering hzero),
        putAll_eq_of_not_held (not_held_of_covering hfile)]
    · have hheld := exists_of_covering (Nat.pos_of_ne_zero hzero)
      have hgives : ∀ mem : Nat → UInt8,
          putAll (·.toByte) (·.bytes) (fun _ _ => 0) h.zeroRuns mem i = 0 :=
        fun mem => putAll_eq_of_held (fun _ _ _ => rfl) (Or.inr hheld)
      rw [hgives, hgives]
  · obtain ⟨r, hr, hi⟩ := exists_of_covering (Nat.pos_of_ne_zero hfile)
    obtain ⟨q, hq, hqi, hsrc⟩ := hs.exists_window_run hsize hsizes hr hi
    rw [hs.pack_file hsize src dst hr hi]
    have hone : Tiling.covering (·.toByte) (·.bytes) (h.windowRuns sizes) i = 1 := by
      split at hcover <;> omega
    apply putAll_eq_of_held
    · intro p hp hpi
      obtain rfl := eq_of_covering_one hone hp hq hpi hqi
      exact congrArg src hsrc
    · exact Or.inr ⟨q, hq, hqi⟩

theorem Held.fileRuns_within (h : Held) (lo hi : Nat) :
    ∀ r ∈ h.fileRuns lo hi, r.bytes ≠ 0 ∧ lo ≤ r.fromByte ∧ r.fromByte + r.bytes ≤ hi := by
  apply h.fileRuns_all
    (P := fun r => r.bytes ≠ 0 ∧ lo ≤ r.fromByte ∧ r.fromByte + r.bytes ≤ hi)
  · intro r _ hne
    simp only [ShardRun.cut] at hne ⊢
    omega
  · intro a b b' c hb hrun hnext
    dsimp only at hrun hnext ⊢
    omega

/-- Lists whose pieces hold no place twice share none. -/
theorem pairwise_of_covering {α : Type} {place size : ShardRun → Nat} {g : α → List ShardRun}
    {xs : List α} (h : ∀ i, covering place size (xs.flatMap g) i ≤ 1) :
    xs.Pairwise fun x y => ∀ i, covering place size (g x) i = 0 ∨ covering place size (g y) i = 0 := by
  induction xs with
  | nil => exact List.Pairwise.nil
  | cons x xs ih =>
    simp only [List.flatMap_cons, covering_append] at h
    apply List.Pairwise.cons
    · intro y hy i
      have hle := h i
      by_cases hzero : covering place size (g y) i = 0
      · exact Or.inr hzero
      · obtain ⟨r, hr, hri⟩ := exists_of_covering (Nat.pos_of_ne_zero hzero)
        have hpos : 0 < covering place size (xs.flatMap g) i :=
          covering_pos (List.mem_flatMap.mpr ⟨y, hy, hr⟩) hri
        exact Or.inl (by omega)
    · exact ih fun i => (Nat.le_add_left _ _).trans (h i)

/-- A matrix of three rows of four floats, split by columns. -/
def fourColumns : ShardRole :=
  ⟨"w", .matrix, 4, 3, 0, 0, 0, some 0, .columns, [⟨4, 1, 1, "columns", false, 2⟩]⟩

end Llmx
