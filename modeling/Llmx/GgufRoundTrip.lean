import Llmx.GgufYields

namespace Llmx

namespace Gguf

open Stretches Triples

variable {limits : Limits} {levels : Nat}

/-- A value whose field of its type holds what the type can, the others blank, nesting arrays
`levels` deep at most. -/
inductive WellTyped (limits : Limits) : Nat → MetaValue → Prop
  | uint8 {levels u} : u < 2 ^ 8 → WellTyped limits levels (.unsigned ValueType.uint8.id u)
  | int8 {levels i} : -2 ^ 7 ≤ i → i < 2 ^ 7 →
      WellTyped limits levels (.signed ValueType.int8.id i)
  | uint16 {levels u} : u < 2 ^ 16 → WellTyped limits levels (.unsigned ValueType.uint16.id u)
  | int16 {levels i} : -2 ^ 15 ≤ i → i < 2 ^ 15 →
      WellTyped limits levels (.signed ValueType.int16.id i)
  | uint32 {levels u} : u < 2 ^ 32 → WellTyped limits levels (.unsigned ValueType.uint32.id u)
  | int32 {levels i} : -2 ^ 31 ≤ i → i < 2 ^ 31 →
      WellTyped limits levels (.signed ValueType.int32.id i)
  | float32 {levels fb} : fb < 2 ^ 32 →
      WellTyped limits levels { MetaValue.blank ValueType.float32.id with fb := fb }
  | bool {levels b} : WellTyped limits levels { MetaValue.blank ValueType.bool.id with b := b }
  | string {levels s} : s.length ≤ limits.string →
      WellTyped limits levels { MetaValue.blank ValueType.string.id with s := s }
  | array {levels et arr} : (valueType et).isSome → arr.length ≤ limits.array →
      (∀ e ∈ arr, e.vtype = et) → (∀ e ∈ arr, WellTyped limits levels e) →
      WellTyped limits (levels + 1)
        { MetaValue.blank ValueType.array.id with u := et, arr := arr }
  | uint64 {levels u} : u < 2 ^ 64 → WellTyped limits levels (.unsigned ValueType.uint64.id u)
  | int64 {levels i} : -2 ^ 63 ≤ i → i < 2 ^ 63 →
      WellTyped limits levels (.signed ValueType.int64.id i)
  | float64 {levels bits} : bits < 2 ^ 64 →
      WellTyped limits levels { MetaValue.blank ValueType.float64.id with f64 := bits }

/-- A value is written to bytes, not fewer than its type's least, that it is read back from. -/
def ReadBack (limits : Limits) (levels : Nat) (v : MetaValue) : Prop :=
  ∃ bytes, writeTypedValue v = .ok bytes ∧
    (∀ n, minimumValueSize v.vtype = .ok n → n ≤ bytes.length) ∧
    ∀ file p, Yields file p (readTypedValue limits levels v.vtype) bytes v

theorem minimumValueSize_id {t : ValueType} {n : Nat} (h : minimumValueSize t.id = .ok n) :
    n = t.minimumSize := by
  unfold minimumValueSize at h
  rw [valueType_id] at h
  exact (Except.ok.inj h).symm

theorem readBack_scalar {t : ValueType} {v : MetaValue} {x : Nat} (value : Nat → MetaValue)
    (htype : v.vtype = t.id) (hx : x < 256 ^ t.minimumSize)
    (hwrite : writeTypedValue v = .ok (leBytes t.minimumSize x))
    (hread : readTypedValue limits levels t.id = readScalar t.minimumSize value)
    (hvalue : value x = v) : ReadBack limits levels v := by
  refine ⟨leBytes t.minimumSize x, hwrite, fun n hn => ?_, fun file p => ?_⟩
  · rw [htype] at hn
    rw [minimumValueSize_id hn, length_leBytes]
  · rw [htype, hread, ← hvalue]
    exact Yields.scalar value hx

theorem leSigned_back {width m : Nat} {i : Int} (hm : 256 ^ width = 2 * m) (hlow : -m ≤ i)
    (hhigh : i < m) :
    (i % (256 ^ width : Nat)).toNat < 256 ^ width ∧
      Int.bmod (i % (256 ^ width : Nat)).toNat (256 ^ width) = i := by
  have hpos : 0 < 256 ^ width := Nat.pow_pos (by omega)
  rw [hm] at hpos ⊢
  have hnonneg : 0 ≤ i % (2 * m : Nat) := Int.emod_nonneg i (by omega)
  have hlt : i % (2 * m : Nat) < (2 * m : Nat) := Int.emod_lt_of_pos i (by omega)
  refine ⟨by omega, ?_⟩
  rw [Int.toNat_of_nonneg hnonneg, Int.emod_bmod]
  exact Int.bmod_eq_of_le (by omega) (by omega)

theorem writeElements_back {et width : Nat} {arr : List MetaValue}
    (htype : ∀ e ∈ arr, e.vtype = et) (hwidth : minimumValueSize et = .ok width)
    (hback : ∀ e ∈ arr, ReadBack limits levels e) :
    ∃ bytes, writeElements arr = .ok bytes ∧ arr.length * width ≤ bytes.length ∧
      ∀ file p,
        Yields file p (readMany (readTypedValue limits levels et) arr.length) bytes arr := by
  induction arr with
  | nil =>
    refine ⟨[], by rw [writeElements], by simp, fun _ _ => ?_⟩
    exact Yields.pure
  | cons v vs ih =>
    rw [List.forall_mem_cons] at htype hback
    obtain ⟨bytes, hwrite, hleast, hread⟩ := hback.1
    obtain ⟨rest, hrest, hmany, hvs⟩ := ih htype.2 hback.2
    refine ⟨bytes ++ rest, ?_, ?_, fun file p => ?_⟩
    · rw [writeElements, hwrite, hrest]
      exact rfl
    · have hv := hleast width (by rw [htype.1, hwidth])
      rw [List.length_cons, List.length_append, Nat.add_mul]
      omega
    · have hread := hread file p
      rw [htype.1] at hread
      rw [List.length_cons]
      exact hread.bind (hvs _ _).bind_pure

theorem isSome_minimumValueSize {et : Nat} (h : (valueType et).isSome) :
    ∃ width, minimumValueSize et = .ok width ∧ 0 < width ∧ et < 2 ^ 32 := by
  obtain ⟨t, ht⟩ := Option.isSome_iff_exists.mp h
  have hid := id_of_valueType ht
  refine ⟨t.minimumSize, ?_, ?_, ?_⟩
  · unfold minimumValueSize
    rw [ht]
  · cases t <;> decide
  · rw [← hid]
    cases t <;> decide

theorem readBack_array {et : Nat} {arr : List MetaValue} (hknown : (valueType et).isSome)
    (hcount : arr.length ≤ limits.array) (htype : ∀ e ∈ arr, e.vtype = et)
    (hback : ∀ e ∈ arr, ReadBack limits levels e) :
    ReadBack limits (levels + 1)
      { MetaValue.blank ValueType.array.id with u := et, arr := arr } := by
  obtain ⟨width, hwidth, hpos, het⟩ := isSome_minimumValueSize hknown
  obtain ⟨elements, hwrite, hleast, hread⟩ := writeElements_back htype hwidth hback
  have harray := limits.array_lt
  refine ⟨leBytes 4 et ++ (leBytes 8 arr.length ++ elements), ?_, fun n hn => ?_,
    fun file p => ?_⟩
  · unfold MetaValue.blank
    rw [writeTypedValue, hwrite, valueType_id]
    exact rfl
  · rw [minimumValueSize_id (t := .array) hn]
    simp only [ValueType.minimumSize, List.length_append, length_leBytes]
    omega
  · show Yields file p (readTypedValue limits (levels + 1) ValueType.array.id) _ _
    unfold readTypedValue
    rw [valueType_id]
    apply (Yields.int (by omega)).bind
    apply (Yields.int (by omega)).bind
    apply Yields.raise_bind hwidth
    apply Yields.remaining_bind
    intro left hleft
    have hfit : arr.length ≤ left / width :=
      (Nat.le_div_iff_mul_le hpos).mpr (hleast.trans hleft)
    apply Yields.ite_neg (by omega)
    apply Yields.ite_neg (by omega)
    apply Yields.reserve_bind
    exact (hread _ _).bind_pure

theorem readBack_unsigned {t : ValueType} {u : Nat} (hu : u < 256 ^ t.minimumSize)
    (hwrite : writeTypedValue (.unsigned t.id u) = .ok (leBytes t.minimumSize u))
    (hread : readTypedValue limits levels t.id =
      readScalar t.minimumSize (.unsigned t.id)) :
    ReadBack limits levels (.unsigned t.id u) :=
  readBack_scalar _ (by rw [MetaValue.unsigned, MetaValue.blank]) hu hwrite hread rfl

theorem readBack_signed {t : ValueType} {m : Nat} {i : Int}
    (hm : 256 ^ t.minimumSize = 2 * m) (hlow : -m ≤ i) (hhigh : i < m)
    (hwrite : writeTypedValue (.signed t.id i) = .ok (leSigned t.minimumSize i))
    (hread : readTypedValue limits levels t.id =
      readScalar t.minimumSize fun x => .signed t.id (Int.bmod x (256 ^ t.minimumSize))) :
    ReadBack limits levels (.signed t.id i) := by
  obtain ⟨hlt, hback⟩ := leSigned_back hm hlow hhigh
  apply readBack_scalar _ (by rw [MetaValue.signed, MetaValue.blank]) hlt hwrite hread
  rw [hback]

theorem readBack_string {s : Bytes} (hs : s.length ≤ limits.string) :
    ReadBack limits levels { MetaValue.blank ValueType.string.id with s := s } := by
  refine ⟨writeString s, ?_, fun n hn => ?_, fun file p => ?_⟩
  · simp only [MetaValue.blank, writeTypedValue, valueType_id]
  · rw [minimumValueSize_id (t := .string) hn]
    simp [writeString, ValueType.minimumSize]
  · show Yields file p (readTypedValue limits levels ValueType.string.id) _ _
    unfold readTypedValue
    rw [valueType_id]
    exact (Yields.string hs).bind_pure

/-- By the derivation; each case is its type's own field. -/
theorem WellTyped.readBack {v : MetaValue} (h : WellTyped limits levels v) :
    ReadBack limits levels v := by
  induction h with
  | uint8 hu | uint16 hu | uint32 hu | uint64 hu =>
    apply readBack_unsigned hu
    · simp only [MetaValue.unsigned, MetaValue.blank, writeTypedValue, valueType_id,
        ValueType.minimumSize]
    · unfold readTypedValue
      simp only [valueType_id, ValueType.minimumSize]
  | int8 hlow hhigh | int16 hlow hhigh | int32 hlow hhigh | int64 hlow hhigh =>
    apply readBack_signed (by decide) hlow hhigh
    · simp only [MetaValue.signed, MetaValue.blank, writeTypedValue, valueType_id,
        ValueType.minimumSize]
    · unfold readTypedValue
      simp only [valueType_id, ValueType.minimumSize, Nat.reducePow]
  | @float32 levels bits hbits =>
    apply readBack_scalar (t := .float32) (x := bits)
      (fun x => { MetaValue.blank ValueType.float32.id with fb := x }) rfl hbits
    · simp only [MetaValue.blank, writeTypedValue, valueType_id, ValueType.minimumSize]
    · unfold readTypedValue
      simp only [valueType_id, ValueType.minimumSize]
    · rfl
  | @float64 levels bits hbits =>
    apply readBack_scalar (t := .float64) (x := bits)
      (fun x => { MetaValue.blank ValueType.float64.id with f64 := x }) rfl hbits
    · simp only [MetaValue.blank, writeTypedValue, valueType_id, ValueType.minimumSize]
    · unfold readTypedValue
      simp only [valueType_id, ValueType.minimumSize]
    · rfl
  | @bool levels b =>
    apply readBack_scalar (t := .bool) (x := if b then 1 else 0)
      (fun x => { MetaValue.blank ValueType.bool.id with b := x ≠ 0 }) rfl
    · cases b <;> decide
    · simp only [MetaValue.blank, writeTypedValue, valueType_id, ValueType.minimumSize]
    · unfold readTypedValue
      simp only [valueType_id, ValueType.minimumSize]
    · cases b <;> simp
  | string hs => exact readBack_string hs
  | array hknown hcount htype _ ih => exact readBack_array hknown hcount htype ih

end Gguf

end Llmx
