import Llmx.ShardTensors

namespace Llmx

open Tiling

/-- A run of a tensor's bytes a member holds: `bytes` from `fromByte` of the tensor, at `toByte` of
the member's packed copy. -/
structure ShardRun where
  fromByte : Nat
  bytes : Nat
  toByte : Nat
deriving DecidableEq, Repr

/-- A member's copy of a role's tensor, described without listing a run a row. -/
structure Held where
  axis : ShardAxis
  bytes : Nat
  row : Nat
  packedRow : Nat
  rows : Nat
  parts : List ShardPart
  columns : List ShardRun
deriving DecidableEq, Repr

def sizeAdd (a b : Nat) : Except String Nat :=
  if sizeMax - a < b then .error "backend: size overflows" else .ok (a + b)

def sizeMul (a b : Nat) : Except String Nat :=
  if a ≠ 0 ∧ sizeMax / a < b then .error "backend: size overflows" else .ok (a * b)

/-- A part of a run of rows that starts at row `n` of its tensor. -/
def ShardPart.shift (n : Nat) (p : ShardPart) : ShardPart :=
  ⟨⟨p.own.begin + n, p.own.count⟩, ⟨p.cover.begin + n, p.cover.count⟩⟩

/-- The bytes of the rows the parts hold, added to `bytes`. -/
def partsBytes (row : Nat) : List ShardPart → Nat → Except String Nat
  | [], bytes => .ok bytes
  | p :: ps, bytes =>
    match sizeMul p.cover.count row with
    | .error e => .error e
    | .ok n =>
      match sizeAdd bytes n with
      | .error e => .error e
      | .ok sum => partsBytes row ps sum

/-- A row's spans as runs within one row, the next at `packed`, and the bytes a row packs. -/
def columnRuns (type : Nat) : List ShardSpan → Nat → Except String (List ShardRun × Nat)
  | [], packed => .ok ([], packed)
  | s :: ss, packed =>
    match rowBytes type s.count 1 with
    | .error e => .error e
    | .ok n =>
      match rowBytes type s.begin 1 with
      | .error e => .error e
      | .ok first =>
        match sizeAdd packed n with
        | .error e => .error e
        | .ok next =>
          match columnRuns type ss next with
          | .error e => .error e
          | .ok (rest, last) => .ok (⟨first, n, packed⟩ :: rest, last)

/-- The copy of a role over rows. -/
def heldRows (role : ShardRole) (width member row : Nat) : Except String Held :=
  match role.parts width member with
  | .error e => .error e
  | .ok ps =>
    match partsBytes row (ps.map (·.shift role.firstRow)) 0 with
    | .error e => .error e
    | .ok bytes => .ok ⟨.rows, bytes, row, 0, 0, ps.map (·.shift role.firstRow), []⟩

/-- The copy of a role over columns. -/
def heldColumns (role : ShardRole) (t : TensorView) (width member row : Nat) : Except String Held :=
  match role.spans width member with
  | .error e => .error e
  | .ok ss =>
    match columnRuns t.type ss 0 with
    | .error e => .error e
    | .ok (columns, packedRow) =>
      match sizeMul (if row ≠ 0 then t.bytes / row else 0) packedRow with
      | .error e => .error e
      | .ok bytes =>
        .ok ⟨.columns, bytes, row, packedRow, if row ≠ 0 then t.bytes / row else 0, [], columns⟩

/-- Member `member` of `width`'s copy of a role's tensor. -/
def held (role : ShardRole) (t : TensorView) (width member : Nat) : Except String Held :=
  if role.tensorRows ≠ 0 ∧ role.axis = .columns then
    .error ("shard: a run of rows split by columns " ++ role.name)
  else if role.tensorRows = 0 ∧ (role.axis = .none ∨ width = 1) then
    .ok ⟨.none, t.bytes, 0, 0, 0, [], []⟩
  else
    match rowBytes t.type (t.shape.headD 0) 1 with
    | .error e => .error e
    | .ok row =>
      if role.tensorRows ≠ 0 ∨ role.axis = .rows then heldRows role width member row
      else heldColumns role t width member row

/-- The runs given so far, the last of them still open. -/
structure Joining where
  pending : ShardRun
  given : List ShardRun
deriving DecidableEq, Repr

/-- A run cut to the tensor's bytes from `lo` up to `hi`. -/
def ShardRun.cut (lo hi : Nat) (r : ShardRun) : ShardRun :=
  let a := max r.fromByte lo
  let b := min (r.fromByte + r.bytes) hi
  ⟨a, b - a, r.toByte + (a - r.fromByte)⟩

def Joining.close (s : Joining) : List ShardRun :=
  if s.pending.bytes ≠ 0 then s.given ++ [s.pending] else s.given

/-- Adds a run, joined to the open one where it follows it in the tensor and in the copy. -/
def Joining.add (lo hi : Nat) (s : Joining) (r : ShardRun) : Joining :=
  let c := r.cut lo hi
  if c.bytes = 0 then s
  else if s.pending.bytes ≠ 0 ∧ s.pending.fromByte + s.pending.bytes = c.fromByte ∧
      s.pending.toByte + s.pending.bytes = c.toByte then
    ⟨⟨s.pending.fromByte, s.pending.bytes + c.bytes, s.pending.toByte⟩, s.given⟩
  else ⟨c, s.close⟩

/-- The rows the parts own, the first part's copy at `base`. -/
def rowRuns (row : Nat) : List ShardPart → Nat → List ShardRun
  | [], _ => []
  | p :: ps, base =>
    ⟨p.own.begin * row, p.own.count * row, base + (p.own.begin - p.cover.begin) * row⟩ ::
      rowRuns row ps (base + p.cover.count * row)

/-- A row's spans as runs of the tensor. -/
def Held.columnsOf (h : Held) (r : Nat) : List ShardRun :=
  h.columns.map fun c => ⟨r * h.row + c.fromByte, c.bytes, r * h.packedRow + c.toByte⟩

/-- The runs of a copy's bytes before they are joined. -/
def Held.pieces (h : Held) (lo hi : Nat) : List ShardRun :=
  match h.axis with
  | .none => [⟨0, h.bytes, 0⟩]
  | .rows => rowRuns h.row h.parts 0
  | .columns =>
    if h.row ≠ 0 then
      ((List.range' (lo / h.row) (h.rows - lo / h.row)).takeWhile fun r => r * h.row < hi).flatMap
        h.columnsOf
    else []

/-- The file runs of a copy that meet the tensor's bytes from `lo` up to `hi`. -/
def Held.fileRuns (h : Held) (lo hi : Nat) : List ShardRun :=
  ((h.pieces lo hi).foldl (Joining.add lo hi) ⟨⟨0, 0, 0⟩, []⟩).close

/-- The rows the parts cover and another member owns, the first part's copy at `base`. -/
def zeroRows (row : Nat) : List ShardPart → Nat → List ShardRun
  | [], _ => []
  | p :: ps, base =>
    let before := (p.own.begin - p.cover.begin) * row
    let after := (p.cover.begin + p.cover.count - p.own.begin - p.own.count) * row
    (if before ≠ 0 then [⟨0, before, base⟩] else []) ++
      (if after ≠ 0 then [⟨0, after, base + before + p.own.count * row⟩] else []) ++
      zeroRows row ps (base + p.cover.count * row)

def Held.zeroRuns (h : Held) : List ShardRun :=
  if h.axis ≠ .rows then [] else zeroRows h.row h.parts 0

/-- The byte of the tensor at `src` that run `r` puts at byte `i` of the copy. -/
def ShardRun.read (src : Nat → UInt8) (r : ShardRun) (i : Nat) : UInt8 :=
  src (r.fromByte + (i - r.toByte))

/-- A member's packed copy, into `dst`, of a tensor whose bytes are at `src`. -/
def Held.pack (h : Held) (src dst : Nat → UInt8) : Nat → UInt8 :=
  putAll (·.toByte) (·.bytes) (fun _ _ => 0) h.zeroRuns
    (putAll (·.toByte) (·.bytes) (ShardRun.read src) (h.fileRuns 0 sizeMax) dst)

/-- What a member's copy holds of the tensor, laid back at its place in `dst`. -/
def Held.layBack (h : Held) (copy dst : Nat → UInt8) : Nat → UInt8 :=
  putAll (·.fromByte) (·.bytes) (fun r i => copy (r.toByte + (i - r.fromByte)))
    (h.fileRuns 0 sizeMax) dst

/-- A measure of runs that a run and the one that follows it add up to. -/
structure Additive (f : ShardRun → Nat) : Prop where
  empty : ∀ a c, f ⟨a, 0, c⟩ = 0
  join : ∀ a b b' c, f ⟨a, b + b', c⟩ = f ⟨a, b, c⟩ + f ⟨a + b, b', c + b⟩

theorem Joining.close_add {f : ShardRun → Nat} (hf : Additive f) {lo hi : Nat} {s : Joining}
    {r : ShardRun} :
    ((s.add lo hi r).close.map f).sum = (s.close.map f).sum + f (r.cut lo hi) := by
  obtain ⟨⟨pf, pb, pt⟩, given⟩ := s
  unfold add
  generalize r.cut lo hi = c
  obtain ⟨cf, cb, ct⟩ := c
  dsimp only
  split
  next hempty =>
    have hc : f ⟨cf, cb, ct⟩ = 0 := by
      rw [hempty]
      exact hf.empty cf ct
    rw [hc, Nat.add_zero]
  next hne =>
    split
    next hjoin =>
      obtain ⟨hp, hfrom, hto⟩ := hjoin
      have hadd := hf.join pf pb cb pt
      rw [hfrom, hto] at hadd
      have hsum : ¬pb + cb = 0 := by omega
      simp only [close, hp, hsum, ne_eq, not_false_eq_true, if_true, List.map_append,
        List.sum_append, List.map_cons, List.map_nil, List.sum_singleton, hadd]
      omega
    next =>
      rw [close, if_pos hne, List.map_append, List.sum_append, List.map_singleton,
        List.sum_singleton]

/-- Joining runs changes no additive measure of the runs cut to the range. -/
theorem Held.fileRuns_sum {f : ShardRun → Nat} (hf : Additive f) (h : Held) (lo hi : Nat) :
    ((h.fileRuns lo hi).map f).sum = ((h.pieces lo hi).map fun r => f (r.cut lo hi)).sum := by
  have hfold : ∀ (rs : List ShardRun) (s : Joining),
      ((rs.foldl (Joining.add lo hi) s).close.map f).sum =
        (s.close.map f).sum + (rs.map fun r => f (r.cut lo hi)).sum := by
    intro rs
    induction rs with
    | nil => simp
    | cons r rs ih =>
      intro s
      rw [List.foldl_cons, ih, Joining.close_add hf, List.map_cons, List.sum_cons]
      omega
  have hall := hfold (h.pieces lo hi) ⟨⟨0, 0, 0⟩, []⟩
  have hstart : (Joining.mk ⟨0, 0, 0⟩ []).close = [] := rfl
  rw [hstart, List.map_nil, List.sum_nil, Nat.zero_add] at hall
  exact hall

/-- What every run cut to the range has, and a run keeps where one that follows it joins it, the
file runs have. -/
theorem Held.fileRuns_all {P : ShardRun → Prop} (h : Held) {lo hi : Nat}
    (hcut : ∀ r ∈ h.pieces lo hi, (r.cut lo hi).bytes ≠ 0 → P (r.cut lo hi))
    (hjoin : ∀ a b b' c, b ≠ 0 → P ⟨a, b, c⟩ → P ⟨a + b, b', c + b⟩ → P ⟨a, b + b', c⟩) :
    ∀ q ∈ h.fileRuns lo hi, P q := by
  have hadd : ∀ (s : Joining) (r : ShardRun), ((r.cut lo hi).bytes ≠ 0 → P (r.cut lo hi)) →
      (∀ q ∈ s.close, P q) → ∀ q ∈ (s.add lo hi r).close, P q := by
    rintro ⟨⟨pf, pb, pt⟩, given⟩ r hr hs
    unfold Joining.add
    generalize r.cut lo hi = c at hr
    obtain ⟨cf, cb, ct⟩ := c
    dsimp only
    split
    · exact hs
    next hne =>
      split
      next hjoined =>
        obtain ⟨hp, hfrom, hto⟩ := hjoined
        rw [Joining.close, if_pos hp] at hs
        have hpending := hs ⟨pf, pb, pt⟩ (List.mem_append_right _ (List.mem_singleton_self _))
        have hnext := hr hne
        rw [← hfrom, ← hto] at hnext
        intro q hq
        rw [Joining.close, if_pos (by dsimp only; omega)] at hq
        rcases List.mem_append.mp hq with hq | hq
        · exact hs q (List.mem_append_left _ hq)
        · rw [List.mem_singleton.mp hq]
          exact hjoin pf pb cb pt hp hpending hnext
      next =>
        intro q hq
        rw [Joining.close, if_pos hne] at hq
        rcases List.mem_append.mp hq with hq | hq
        · exact hs q hq
        · rw [List.mem_singleton.mp hq]
          exact hr hne
  have hfold : ∀ (rs : List ShardRun) (s : Joining),
      (∀ r ∈ rs, (r.cut lo hi).bytes ≠ 0 → P (r.cut lo hi)) → (∀ q ∈ s.close, P q) →
        ∀ q ∈ (rs.foldl (Joining.add lo hi) s).close, P q := by
    intro rs
    induction rs with
    | nil => exact fun s _ hs => hs
    | cons r rs ih =>
      intro s hrs hs
      exact ih _ (fun q hq => hrs q (List.mem_cons_of_mem _ hq))
        (hadd s r (hrs r List.mem_cons_self) hs)
  exact hfold _ _ hcut (by simp [Joining.close])

theorem ShardRun.cut_self {r : ShardRun} {hi : Nat} (h : r.fromByte + r.bytes ≤ hi) :
    r.cut 0 hi = r := by
  obtain ⟨a, b, c⟩ := r
  simp only [cut, ShardRun.mk.injEq] at h ⊢
  omega

theorem covering_eq_sum {place size : ShardRun → Nat} (rs : List ShardRun) {i : Nat} :
    covering place size rs i =
      (rs.map fun r => if place r ≤ i ∧ i < place r + size r then 1 else 0).sum := by
  induction rs with
  | nil => rfl
  | cons r rs ih => rw [covering_cons, ih, List.map_cons, List.sum_cons]

theorem additive_dest (i : Nat) :
    Additive fun r => if r.toByte ≤ i ∧ i < r.toByte + r.bytes then 1 else 0 := by
  constructor
  · intro a c
    exact if_neg (by dsimp only; omega)
  · intro a b b' c
    dsimp only
    split <;> split <;> split <;> omega

theorem additive_source (i : Nat) :
    Additive fun r => if r.fromByte ≤ i ∧ i < r.fromByte + r.bytes then 1 else 0 := by
  constructor
  · intro a c
    exact if_neg (by dsimp only; omega)
  · intro a b b' c
    dsimp only
    split <;> split <;> split <;> omega

end Llmx
