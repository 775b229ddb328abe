import Llmx.ShardParts
import Mathlib.Algebra.BigOperators.Ring.List

namespace Llmx

/-- A storage type's name, the values of a block and its bytes. -/
structure StorageType where
  name : String
  blockSize : Nat
  typeSize : Nat
deriving DecidableEq, Repr

/-- The storage types by their id; an id between them without a type has blocks of no values. -/
def storageTypes : List StorageType :=
  [⟨"F32", 1, 4⟩, ⟨"F16", 1, 2⟩, ⟨"Q4_0", 32, 18⟩, ⟨"Q4_1", 32, 20⟩, ⟨"", 0, 0⟩, ⟨"", 0, 0⟩,
    ⟨"Q5_0", 32, 22⟩, ⟨"Q5_1", 32, 24⟩, ⟨"Q8_0", 32, 34⟩, ⟨"Q8_1", 32, 36⟩, ⟨"Q2_K", 256, 84⟩,
    ⟨"Q3_K", 256, 110⟩, ⟨"Q4_K", 256, 144⟩, ⟨"Q5_K", 256, 176⟩, ⟨"Q6_K", 256, 210⟩,
    ⟨"Q8_K", 256, 292⟩, ⟨"IQ2_XXS", 256, 66⟩, ⟨"IQ2_XS", 256, 74⟩, ⟨"IQ3_XXS", 256, 98⟩,
    ⟨"IQ1_S", 256, 50⟩, ⟨"IQ4_NL", 32, 18⟩, ⟨"IQ3_S", 256, 110⟩, ⟨"IQ2_S", 256, 82⟩,
    ⟨"IQ4_XS", 256, 136⟩, ⟨"I8", 1, 1⟩, ⟨"I16", 1, 2⟩, ⟨"I32", 1, 4⟩, ⟨"I64", 1, 8⟩,
    ⟨"F64", 1, 8⟩, ⟨"IQ1_M", 256, 56⟩, ⟨"BF16", 1, 2⟩, ⟨"", 0, 0⟩, ⟨"", 0, 0⟩, ⟨"", 0, 0⟩,
    ⟨"TQ1_0", 256, 54⟩, ⟨"TQ2_0", 256, 66⟩, ⟨"", 0, 0⟩, ⟨"", 0, 0⟩, ⟨"", 0, 0⟩, ⟨"MXFP4", 32, 17⟩,
    ⟨"NVFP4", 64, 36⟩, ⟨"Q1_0", 128, 18⟩, ⟨"Q2_0", 64, 18⟩]

def storageType (id : Nat) : Option StorageType :=
  match storageTypes[id]? with
  | some type => if type.blockSize ≠ 0 then some type else none
  | none => none

/-- The largest size the machine counts. -/
def sizeMax : Nat := 2 ^ 64 - 1

def unsupportedType (id : Nat) : String := "quant: unsupported tensor type " ++ toString id

/-- The bytes of `rows` rows of `nin` values. -/
def rowBytes (type nin rows : Nat) : Except String Nat :=
  match storageType type with
  | none => .error (unsupportedType type)
  | some qt =>
    if nin % qt.blockSize ≠ 0 then
      .error ("quant: a row of " ++ toString nin ++ " values is not whole " ++ qt.name ++ " blocks")
    else if rows ≠ 0 ∧ sizeMax / rows / qt.typeSize < nin / qt.blockSize then
      .error "quant: row size overflows"
    else .ok (nin / qt.blockSize * rows * qt.typeSize)

def checkedMultiply (a b : Nat) : Except String Nat :=
  if a ≠ 0 ∧ sizeMax / a < b then .error "GGUF size multiplication overflow" else .ok (a * b)

def multiplyAll : List Nat → Nat → Except String Nat
  | [], n => .ok n
  | d :: ds, n =>
    match checkedMultiply n d with
    | .error e => .error e
    | .ok m => multiplyAll ds m

/-- A file's tensor: its name, its dimensions, the fastest first, and its storage type. -/
structure TensorInfo where
  name : String
  ne : List Nat
  type : Nat
deriving DecidableEq, Repr

def TensorInfo.elements (t : TensorInfo) : Except String Nat :=
  if 0 ∈ t.ne then .ok 0 else multiplyAll t.ne 1

/-- The tensor's bytes, its type and row checked before its elements are counted. -/
def TensorInfo.dataSize (t : TensorInfo) : Except String Nat :=
  match storageType t.type with
  | none => .error ("GGUF: tensor " ++ t.name ++ " has unsupported tensor type " ++ toString t.type)
  | some _ =>
    let width := t.ne.headD 1
    match rowBytes t.type width 0 with
    | .error e => .error e
    | .ok _ =>
      match t.elements with
      | .error e => .error e
      | .ok n => rowBytes t.type width (if n ≠ 0 then n / width else 0)

/-- A tensor as a model is built from it. -/
structure TensorView where
  name : String
  shape : List Nat
  type : Nat
  bytes : Nat
deriving DecidableEq, Repr

instance : Inhabited TensorView := ⟨⟨"", [], 0, 0⟩⟩

/-- The view is of a tensor its file lays out: it has the bytes its shape and type ask for. -/
def TensorView.Laid (t : TensorView) : Prop := (⟨t.name, t.shape, t.type⟩ : TensorInfo).dataSize = .ok t.bytes

/-- Whether a tensor of `shape` and `type` fits a role by its kind. -/
def ShardRole.fits (role : ShardRole) (shape : List Nat) (type : Nat) : Bool :=
  if role.kind = .experts then shape = [role.input, role.out, role.experts]
  else if role.kind = .norm then
    shape.head? = some role.input && type = 0 && (shape.drop 1).all (· = 1)
  else
    shape.head? = some role.input && 2 ≤ shape.length &&
      (if role.tensorRows ≠ 0 then
        (role.kind = .matrix && role.firstRow ≤ role.tensorRows &&
          role.out ≤ role.tensorRows - role.firstRow) && shape[1]? = some role.tensorRows
      else shape[1]? = some role.out) &&
      (role.kind ≠ .table || type = 0) && (shape.drop 2).all (· = 1)

/-- What every architecture declares of a role: a stack has experts and nothing else does, a norm
is one row, and only a matrix reads a run of its tensor's rows. -/
structure ShardRole.Declared (role : ShardRole) : Prop where
  experts_iff : role.experts ≠ 0 ↔ role.kind = .experts
  norm_out : role.kind = .norm → role.out = 1
  run_matrix : role.tensorRows ≠ 0 → role.kind = .matrix
  whole_first : role.tensorRows = 0 → role.firstRow = 0

/-- The rows of the tensor a role reads. -/
def ShardRole.rows (role : ShardRole) : Nat :=
  if role.tensorRows ≠ 0 then role.tensorRows else role.out * (if role.experts ≠ 0 then role.experts else 1)

/-- Rows a layer saves for a mark. -/
structure Saved where
  width : Nat
  replicated : Bool
deriving DecidableEq, Repr

structure ShardLayer where
  roles : List ShardRole
  saved : List Saved
deriving DecidableEq, Repr

structure ShardPlan where
  pass : List ShardRole
  layers : List ShardLayer
  drafter : Option (List ShardRole)
deriving DecidableEq, Repr

def ShardPlan.roles (plan : ShardPlan) : List ShardRole :=
  plan.pass ++ plan.layers.flatMap (·.roles) ++ plan.drafter.getD []

/-- Runs the checks of a list in order up to the first refusal. -/
def checkEach {α : Type} (check : α → Except String Unit) : List α → Except String Unit
  | [] => .ok ()
  | x :: xs =>
    match check x with
    | .error e => .error e
    | .ok () => checkEach check xs

theorem checkEach_ok_iff {α : Type} {check : α → Except String Unit} {xs : List α} :
    checkEach check xs = .ok () ↔ ∀ x ∈ xs, check x = .ok () := by
  induction xs with
  | nil => simp [checkEach]
  | cons x xs ih =>
    rw [checkEach, List.forall_mem_cons, ← ih]
    cases hx : check x with
    | error e => simp
    | ok u => simp

/-- Whether a span of a column split is whole blocks of the storage type. -/
def checkSpan (role : ShardRole) (type : StorageType) (width : Nat) (s : ShardSpan) :
    Except String Unit :=
  if role.axis = .columns ∧ (s.begin % type.blockSize ≠ 0 ∨ s.count % type.blockSize ≠ 0) then
    .error ("inference: a tensor width of " ++ toString width ++ " splits " ++ role.name ++
      " off whole " ++ type.name ++ " blocks")
  else .ok ()

def checkMember (role : ShardRole) (type : StorageType) (width member : Nat) : Except String Unit :=
  match role.spans width member with
  | .error e => .error e
  | .ok ss => checkEach (checkSpan role type width) ss

def checkRole (views : List TensorView) (width : Nat) (role : ShardRole) : Except String Unit :=
  match role.tensor with
  | none => .ok ()
  | some i =>
    if role.axis = .none then .ok ()
    else
      match storageType (views.getD i default).type with
      | none => .error (unsupportedType (views.getD i default).type)
      | some type => checkEach (checkMember role type width) (List.range width)

def checkSaved (width layer : Nat) (v : Saved) : Except String Unit :=
  if v.replicated = false ∧ v.width % width ≠ 0 then
    .error ("inference: a tensor width of " ++ toString width ++ " does not divide the " ++
      toString v.width ++ " floats layer " ++ toString layer ++ " saves a row for a mark")
  else .ok ()

def checkLayers (views : List TensorView) (width : Nat) : Nat → List ShardLayer → Except String Unit
  | _, [] => .ok ()
  | l, layer :: rest =>
    match checkEach (checkRole views width) layer.roles with
    | .error e => .error e
    | .ok () =>
      match checkEach (checkSaved width l) layer.saved with
      | .error e => .error e
      | .ok () => checkLayers views width (l + 1) rest

/-- Whether a model of `plan` over `views` splits at `width`. -/
def checkPlan (plan : ShardPlan) (views : List TensorView) (width : Nat) : Except String Unit :=
  if width = 0 then .error "shard: a group of no members"
  else if width = 1 then .ok ()
  else
    match checkEach (checkRole views width) plan.pass with
    | .error e => .error e
    | .ok () =>
      match checkLayers views width 0 plan.layers with
      | .error e => .error e
      | .ok () =>
        match plan.drafter with
        | none => .ok ()
        | some roles => checkEach (checkRole views width) roles

theorem checkLayers_ok {views : List TensorView} {width l : Nat} {layers : List ShardLayer}
    (h : checkLayers views width l layers = .ok ()) :
    ∀ layer ∈ layers, ∀ role ∈ layer.roles, checkRole views width role = .ok () := by
  induction layers generalizing l with
  | nil => simp
  | cons layer rest ih =>
    rw [checkLayers] at h
    split at h
    · cases h
    next hroles =>
      split at h
      · cases h
      · rw [List.forall_mem_cons]
        exact ⟨checkEach_ok_iff.mp hroles, ih h⟩

/-- An accepted plan has every role checked, unless one member holds the whole model. -/
theorem checkPlan_ok {plan : ShardPlan} {views : List TensorView} {width : Nat}
    (h : checkPlan plan views width = .ok ()) :
    width = 1 ∨ 1 < width ∧ ∀ role ∈ plan.roles, checkRole views width role = .ok () := by
  unfold checkPlan at h
  split at h
  · cases h
  · split at h
    next hw => exact Or.inl hw
    next =>
      refine Or.inr ⟨by omega, ?_⟩
      split at h
      · cases h
      next hpass =>
        split at h
        · cases h
        next hlayers =>
          intro role hrole
          rcases List.mem_append.mp hrole with hrole | hdraft
          · rcases List.mem_append.mp hrole with hp | hl
            · exact checkEach_ok_iff.mp hpass role hp
            · obtain ⟨layer, hlayer, hin⟩ := List.mem_flatMap.mp hl
              exact checkLayers_ok hlayers layer hlayer role hin
          · split at h
            next hnone => simp [hnone] at hdraft
            next roles hsome =>
              have hdraft : role ∈ roles := by simpa [hsome] using hdraft
              exact checkEach_ok_iff.mp h role hdraft

/-- What a size in bytes says of the type, the row and the machine. -/
theorem rowBytes_ok {type nin rows n : Nat} (h : rowBytes type nin rows = .ok n) :
    ∃ qt, storageType type = some qt ∧ nin % qt.blockSize = 0 ∧
      n = nin / qt.blockSize * rows * qt.typeSize ∧ n ≤ sizeMax := by
  unfold rowBytes at h
  split at h
  · cases h
  next qt hqt =>
    split at h
    · cases h
    next hmod =>
      split at h
      · cases h
      next hsize =>
        obtain rfl := Except.ok.inj h
        refine ⟨qt, hqt, by omega, rfl, ?_⟩
        by_cases hrows : rows = 0
        · simp [hrows]
        · have hle : nin / qt.blockSize ≤ sizeMax / rows / qt.typeSize := by
            by_contra hlt
            exact hsize ⟨hrows, by omega⟩
          calc nin / qt.blockSize * rows * qt.typeSize
              ≤ sizeMax / rows / qt.typeSize * rows * qt.typeSize :=
                Nat.mul_le_mul_right _ (Nat.mul_le_mul_right _ hle)
            _ = sizeMax / rows / qt.typeSize * qt.typeSize * rows := by
                rw [Nat.mul_assoc, Nat.mul_comm rows, ← Nat.mul_assoc]
            _ ≤ sizeMax / rows * rows := Nat.mul_le_mul_right _ (Nat.div_mul_le_self _ _)
            _ ≤ sizeMax := Nat.div_mul_le_self _ _

/-- A whole row of fewer values than a size that was given has one too. -/
theorem rowBytes_of_le {type nin nin' rows n : Nat} {qt : StorageType}
    (h : rowBytes type nin rows = .ok n) (hrows : 0 < rows) (hqt : storageType type = some qt)
    (hmod : nin' % qt.blockSize = 0) (hle : nin' ≤ nin) :
    rowBytes type nin' 1 = .ok (nin' / qt.blockSize * qt.typeSize) := by
  unfold rowBytes at h
  rw [hqt] at h
  unfold rowBytes
  rw [hqt]
  dsimp only at h ⊢
  split at h
  · cases h
  · split at h
    · cases h
    next hsize =>
      have hdiv : sizeMax / rows / qt.typeSize ≤ sizeMax / 1 / qt.typeSize :=
        Nat.div_le_div_right (Nat.div_le_div_left hrows (by omega))
      have hblocks : nin' / qt.blockSize ≤ nin / qt.blockSize := Nat.div_le_div_right hle
      rw [if_neg (by omega), if_neg (by omega), Nat.mul_one]

theorem multiplyAll_ok {ds : List Nat} {n m : Nat} (h : multiplyAll ds n = .ok m) :
    m = n * ds.prod := by
  induction ds generalizing n with
  | nil =>
    obtain rfl := Except.ok.inj h
    simp
  | cons d ds ih =>
    rw [multiplyAll] at h
    split at h
    · cases h
    next k hk =>
      unfold checkedMultiply at hk
      split at hk
      · cases hk
      · obtain rfl := Except.ok.inj hk
        rw [ih h, List.prod_cons, Nat.mul_assoc]

theorem TensorInfo.elements_ok {t : TensorInfo} {n : Nat} (h : t.elements = .ok n) :
    n = t.ne.prod := by
  unfold elements at h
  split at h
  next hzero =>
    obtain rfl := Except.ok.inj h
    exact (List.prod_eq_zero hzero).symm
  · rw [multiplyAll_ok h, Nat.one_mul]

/-- A laid out tensor of `w` values a row has a row's bytes for each of its rows. -/
theorem TensorView.Laid.bytes_eq {t : TensorView} (h : t.Laid) {w row : Nat} {rest : List Nat}
    (hshape : t.shape = w :: rest) (hrow : rowBytes t.type w 1 = .ok row) :
    t.bytes = rest.prod * row ∧ t.bytes ≤ sizeMax := by
  unfold Laid TensorInfo.dataSize at h
  split at h
  · cases h
  · dsimp only at h
    rw [hshape, List.headD_cons] at h
    split at h
    · cases h
    · split at h
      · cases h
      next n hn =>
        have hprod : n = w * rest.prod := by rw [TensorInfo.elements_ok hn, List.prod_cons]
        obtain ⟨qt, hqt, hmod, hbytes, hmax⟩ := rowBytes_ok h
        obtain ⟨qt', hqt', -, hrow, -⟩ := rowBytes_ok hrow
        obtain rfl := Option.some.inj (hqt.symm.trans hqt')
        refine ⟨?_, hmax⟩
        rw [hbytes, hrow, Nat.mul_one]
        by_cases hw : w = 0
        · simp [hw]
        · have hcount : (if n ≠ 0 then n / w else 0) = rest.prod := by
            split
            · rw [hprod, Nat.mul_div_cancel_left _ (by omega)]
            next hn0 =>
              have hz : w * rest.prod = 0 := by omega
              rcases Nat.mul_eq_zero.mp hz with hz | hz <;> omega
          rw [hcount, Nat.mul_right_comm, Nat.mul_comm]

/-- The shape of a tensor that fits a role, its rows first. -/
theorem ShardRole.fits_shape {role : ShardRole} (hd : role.Declared) {shape : List Nat}
    {type : Nat} (h : role.fits shape type = true) :
    ∃ rest, shape = role.input :: rest ∧ rest.prod = role.rows := by
  have ones : ∀ ds : List Nat, ds.all (· = 1) = true → ds.prod = 1 := by
    intro ds hds
    apply List.prod_eq_one
    simpa using hds
  unfold fits at h
  split at h
  next hkind =>
    have hexp := hd.experts_iff.mpr hkind
    have hrun : role.tensorRows = 0 := by
      by_contra hr
      have := hd.run_matrix hr
      rw [hkind] at this
      cases this
    refine ⟨[role.out, role.experts], by simpa using h, ?_⟩
    simp [rows, hrun, hexp]
  next hkind =>
    have hexp : role.experts = 0 := by
      by_contra hne
      exact hkind (hd.experts_iff.mp hne)
    split at h
    next hnorm =>
      have hrun : role.tensorRows = 0 := by
        by_contra hr
        have := hd.run_matrix hr
        rw [hnorm] at this
        cases this
      cases shape with
      | nil => simp at h
      | cons w rest =>
        simp only [Bool.and_eq_true, List.head?_cons, decide_eq_true_eq, Option.some.injEq,
          List.drop_succ_cons, List.drop_zero] at h
        refine ⟨rest, by rw [h.1.1], ?_⟩
        rw [ones rest h.2]
        simp [rows, hrun, hexp, hd.norm_out hnorm]
    next =>
      rcases shape with _ | ⟨w, _ | ⟨r, rest⟩⟩
      · simp at h
      · simp at h
      · simp only [Bool.and_eq_true, List.head?_cons, decide_eq_true_eq, Option.some.injEq,
          List.drop_succ_cons, List.drop_zero] at h
        obtain ⟨⟨⟨⟨hw, -⟩, hr⟩, -⟩, hones⟩ := h
        refine ⟨r :: rest, by rw [hw], ?_⟩
        rw [List.prod_cons, ones rest hones, Nat.mul_one]
        split at hr
        next hrun =>
          simp only [Bool.and_eq_true, decide_eq_true_eq, List.getElem?_cons_succ,
            List.getElem?_cons_zero, Option.some.injEq] at hr
          rw [hr.2, rows, if_pos hrun]
        next hrun =>
          simp only [decide_eq_true_eq, List.getElem?_cons_succ, List.getElem?_cons_zero,
            Option.some.injEq] at hr
          simp [rows, hrun, hexp, hr]

/-- A role's run of rows lies inside its tensor. -/
theorem ShardRole.fits_run {role : ShardRole} (hd : role.Declared) {shape : List Nat} {type : Nat}
    (h : role.fits shape type = true) (haxis : role.axis ≠ .columns) :
    role.firstRow + role.extent ≤ role.rows := by
  unfold extent rows
  rw [if_neg haxis]
  by_cases hrun : role.tensorRows = 0
  · rw [hd.whole_first hrun, Nat.zero_add, if_neg (show ¬role.tensorRows ≠ 0 by omega)]
  · have hkind := hd.run_matrix hrun
    have hexp : role.experts = 0 := by
      by_contra hne
      have := hd.experts_iff.mp hne
      rw [hkind] at this
      cases this
    simp only [fits, hkind, reduceCtorEq, if_false, hrun, ne_eq, not_false_eq_true, if_true,
      Bool.and_eq_true, decide_eq_true_eq] at h
    rw [hexp, if_neg (show ¬(0 : Nat) ≠ 0 by omega), if_pos hrun, Nat.mul_one]
    omega

end Llmx
