import Llmx.DiskIndex
import Llmx.GgufYields

namespace Llmx

namespace DiskIndex

open Stretches
open Gguf (leValue leValue_lt leValue_leBytes)

/-- What the standard library throws. -/
inductive Thrown where
  | outOfRange
deriving DecidableEq, Repr

/-- The `n` bytes from `pos` on, or as many as there are. -/
def substr (b : Bytes) (pos n : Nat) : Except Thrown Bytes :=
  if b.length < pos then .error .outOfRange else .ok ((b.drop pos).take n)

/-- What a file's header says of it: its kind, whether its conversation came back, its range and its
digests. -/
def describe (f : IndexFile Bytes) : Bytes :=
  leBytes 8 f.state.toNat ++ (leBytes 8 f.back.toNat ++ (leBytes 8 f.first ++
    (leBytes 8 f.endTok ++ (leBytes 8 f.ends.length ++ (f.below ++ f.ends.flatten)))))

/-- The header's `k`th number. -/
def headerWord (b : Bytes) (k : Nat) : Nat := leValue ((b.drop (8 * k)).take 8)

/-- The `n` digests from the `k`th on, their places counted as the machine counts. -/
def readEnds (b : Bytes) : Nat → Nat → Except Thrown (List Bytes)
  | 0, _ => .ok []
  | n + 1, k =>
    match substr b ((40 + 64 * (k + 1)) % 2 ^ 64) 64 with
    | .error e => .error e
    | .ok digest =>
      match readEnds b n (k + 1) with
      | .error e => .error e
      | .ok rest => .ok (digest :: rest)

/-- Whether the numbers cannot be a file's, the length they ask for counted as the machine counts. -/
def Refused (b : Bytes) : Prop :=
  1 < headerWord b 0 ∨ 1 < headerWord b 1 ∨ headerWord b 3 < headerWord b 2 ∨
    b.length ≠ (40 + 64 * ((headerWord b 4 + 1) % 2 ^ 64)) % 2 ^ 64 ∨
    if headerWord b 0 ≠ 0 then headerWord b 4 ≠ 0 ∨ headerWord b 2 ≠ headerWord b 3
    else headerWord b 4 = 0 ∨ (headerWord b 3 - headerWord b 2) % headerWord b 4 ≠ 0

instance (b : Bytes) : Decidable (Refused b) := by
  unfold Refused
  infer_instance

/-- File `f` with what header `b` says of it, or none where it is no header. -/
def parse (b : Bytes) (f : IndexFile Bytes) : Except Thrown (Option (IndexFile Bytes)) :=
  if b.length < 40 + 64 then .ok none
  else if Refused b then .ok none
  else
    match substr b 40 64 with
    | .error e => .error e
    | .ok below =>
      match readEnds b (headerWord b 4) 0 with
      | .error e => .error e
      | .ok ends =>
        .ok (some { f with
          state := headerWord b 0 ≠ 0
          back := headerWord b 1 ≠ 0
          first := headerWord b 2
          endTok := headerWord b 3
          below := below
          ends := ends })

/-- A state with no digests of its own, or a segment whose digests divide its range, as the machine
holds them. -/
structure WellFormed (f : IndexFile Bytes) : Prop where
  range : f.first ≤ f.endTok
  word : f.endTok < 2 ^ 64
  below : f.below.length = 64
  ends : ∀ e ∈ f.ends, e.length = 64
  kind : if f.state = true then f.first = f.endTok ∧ f.ends = []
    else f.ends ≠ [] ∧ (f.endTok - f.first) % f.ends.length = 0
  size : (describe f).length < 2 ^ 63

/-- The header passes every check with a count whose digests' bytes are past the machine's sizes. -/
def CountWraps (b : Bytes) : Prop :=
  40 + 64 ≤ b.length ∧ headerWord b 0 = 0 ∧ headerWord b 1 ≤ 1 ∧ headerWord b 2 ≤ headerWord b 3 ∧
    2 ^ 58 ≤ headerWord b 4 ∧ b.length = 40 + 64 * ((headerWord b 4 + 1) % 2 ^ 58) ∧
    (headerWord b 3 - headerWord b 2) % headerWord b 4 = 0

theorem leBytes_leValue {s : Bytes} {n : Nat} (h : s.length = n) : leBytes n (leValue s) = s := by
  induction s generalizing n with
  | nil =>
    obtain rfl := h
    rfl
  | cons c s ih =>
    obtain rfl := h
    have hc := c.toNat_lt
    have hvalue : leValue (c :: s) = c.toNat + 256 * leValue s := by simp [leValue]
    rw [hvalue, List.length_cons, leBytes, show (c.toNat + 256 * leValue s) % 256 = c.toNat by omega,
      show (c.toNat + 256 * leValue s) / 256 = leValue s by omega, ih rfl]
    simp

theorem headerWord_lt (b : Bytes) (k : Nat) : headerWord b k < 2 ^ 64 := by
  have hlt := leValue_lt ((b.drop (8 * k)).take 8)
  have hle : ((b.drop (8 * k)).take 8).length ≤ 8 := List.length_take_le _ _
  have hpow := Nat.pow_le_pow_right (show 0 < 256 by omega) hle
  unfold headerWord
  omega

/-- Past the first `k` numbers of a long header the next is its bytes. -/
theorem drop_headerWord {b : Bytes} {k : Nat} (h : 8 * (k + 1) ≤ b.length) :
    b.drop (8 * k) = leBytes 8 (headerWord b k) ++ b.drop (8 * (k + 1)) := by
  have hlen : ((b.drop (8 * k)).take 8).length = 8 := by
    rw [List.length_take, List.length_drop]
    omega
  rw [headerWord, leBytes_leValue hlen, Nat.mul_add, ← List.drop_drop, List.take_append_drop]

theorem header_eq {b : Bytes} (h : 40 ≤ b.length) :
    b = leBytes 8 (headerWord b 0) ++ (leBytes 8 (headerWord b 1) ++ (leBytes 8 (headerWord b 2) ++
      (leBytes 8 (headerWord b 3) ++ (leBytes 8 (headerWord b 4) ++ b.drop 40)))) := by
  have h0 := drop_headerWord (b := b) (k := 0) (by omega)
  rw [drop_headerWord (b := b) (k := 1) (by omega), drop_headerWord (b := b) (k := 2) (by omega),
    drop_headerWord (b := b) (k := 3) (by omega), drop_headerWord (b := b) (k := 4) (by omega)] at h0
  exact h0

theorem substr_ok {b : Bytes} {pos : Nat} (h : pos ≤ b.length) (n : Nat) :
    substr b pos n = .ok ((b.drop pos).take n) := if_neg (by omega)

/-- The digests that are there read back as they stand. -/
theorem readEnds_ok {b : Bytes} (hb : b.length < 2 ^ 63) {n k : Nat}
    (h : 40 + 64 * (k + 1 + n) ≤ b.length) :
    ∃ es, readEnds b n k = .ok es ∧ es.length = n ∧ (∀ e ∈ es, e.length = 64) ∧
      es.flatten = (b.drop (40 + 64 * (k + 1))).take (64 * n) := by
  induction n generalizing k with
  | zero => exact ⟨[], rfl, rfl, by simp, by simp⟩
  | succ n ih =>
    obtain ⟨es, hes, hlen, hall, hflat⟩ := ih (k := k + 1) (by omega)
    have hplace : (40 + 64 * (k + 1)) % 2 ^ 64 = 40 + 64 * (k + 1) := Nat.mod_eq_of_lt (by omega)
    refine ⟨(b.drop (40 + 64 * (k + 1))).take 64 :: es, ?_, ?_, ?_, ?_⟩
    · rw [readEnds, hplace, substr_ok (by omega), hes]
    · rw [List.length_cons, hlen]
    · rw [List.forall_mem_cons]
      refine ⟨?_, hall⟩
      rw [List.length_take, List.length_drop]
      omega
    · rw [List.flatten_cons, hflat, show 64 * (n + 1) = 64 + 64 * n by omega, List.take_add,
        List.drop_drop, show 40 + 64 * (k + 1 + 1) = 40 + 64 * (k + 1) + 64 by omega]

/-- More digests than there are run past the end. -/
theorem readEnds_error {b : Bytes} (hb : b.length < 2 ^ 63) {m n k : Nat}
    (hlen : b.length = 40 + 64 * (m + 1)) (hk : k ≤ m + 1) (hn : m + 2 ≤ k + n) :
    readEnds b n k = .error .outOfRange := by
  induction n generalizing k with
  | zero => omega
  | succ n ih =>
    have hplace : (40 + 64 * (k + 1)) % 2 ^ 64 = 40 + 64 * (k + 1) := Nat.mod_eq_of_lt (by omega)
    rw [readEnds, hplace]
    by_cases hlast : k = m + 1
    · rw [substr, if_pos (by omega)]
    · rw [substr_ok (by omega), ih (k := k + 1) (by omega) (by omega)]

theorem leBytes_toNat_decide {v : Nat} (h : v ≤ 1) : leBytes 8 (decide (v ≠ 0)).toNat = leBytes 8 v := by
  obtain rfl | rfl : v = 0 ∨ v = 1 := by omega
  · rfl
  · rfl

/-- A header whose count is the digests it has room for is read. -/
theorem parse_of_count {b : Bytes} (hb : b.length < 2 ^ 63) (hr : ¬Refused b)
    (hcount : b.length = 40 + 64 * (headerWord b 4 + 1)) (f : IndexFile Bytes) :
    ∃ es, parse b f = .ok (some { f with
        state := headerWord b 0 ≠ 0
        back := headerWord b 1 ≠ 0
        first := headerWord b 2
        endTok := headerWord b 3
        below := (b.drop 40).take 64
        ends := es }) ∧
      es.length = headerWord b 4 ∧ (∀ e ∈ es, e.length = 64) ∧
      (b.drop 40).take 64 ++ es.flatten = b.drop 40 := by
  obtain ⟨es, hes, hlen, hall, hflat⟩ :=
    readEnds_ok (n := headerWord b 4) (k := 0) hb (by omega)
  refine ⟨es, ?_, hlen, hall, ?_⟩
  · rw [parse, if_neg (by omega), if_neg hr, substr_ok (by omega), hes]
  · have hrest : (b.drop 40).drop 64 = es.flatten := by
      rw [hflat, List.drop_drop, List.take_of_length_le]
      rw [List.length_drop]
      omega
    rw [← hrest, List.take_append_drop]

/-- What is read describes itself by the header it is read of. -/
theorem describe_read {b : Bytes} (hr : ¬Refused b) (hlong : 40 ≤ b.length) {f : IndexFile Bytes}
    {es : List Bytes} (hlen : es.length = headerWord b 4)
    (hends : (b.drop 40).take 64 ++ es.flatten = b.drop 40) :
    describe { f with
      state := headerWord b 0 ≠ 0
      back := headerWord b 1 ≠ 0
      first := headerWord b 2
      endTok := headerWord b 3
      below := (b.drop 40).take 64
      ends := es } = b := by
  unfold Refused at hr
  obtain ⟨hstate, hr⟩ := not_or.mp hr
  obtain ⟨hback, hr⟩ := not_or.mp hr
  simp only [describe]
  rw [leBytes_toNat_decide (by omega), leBytes_toNat_decide (by omega), hlen, hends]
  exact (header_eq hlong).symm

/-- What the length check lets through: the count as it is, or one the machine's sizes wrap. -/
theorem count_of_not_refused {b : Bytes} (hb : b.length < 2 ^ 63) (hlong : 40 + 64 ≤ b.length)
    (hr : ¬Refused b) :
    b.length = 40 + 64 * (headerWord b 4 + 1) ∧ headerWord b 4 < 2 ^ 58 ∨ CountWraps b := by
  have hlt := headerWord_lt b 4
  unfold Refused at hr
  simp only [not_or, not_lt, not_not] at hr
  obtain ⟨hstate, hback, hrange, hlen, hkind⟩ := hr
  by_cases hsmall : headerWord b 4 < 2 ^ 58
  · left
    omega
  · right
    split at hkind
    · omega
    next hzero =>
      unfold CountWraps
      refine ⟨hlong, by omega, hback, hrange, by omega, by omega, by omega⟩

theorem not_refused_of_wraps {b : Bytes} (hb : b.length < 2 ^ 63) (h : CountWraps b) :
    ¬Refused b := by
  obtain ⟨hlong, hstate, hback, hrange, hcount, hlen, hmod⟩ := h
  have hlt := headerWord_lt b 4
  unfold Refused
  rw [if_neg (by omega)]
  omega

theorem parse_wraps {b : Bytes} (hb : b.length < 2 ^ 63) (h : CountWraps b) (f : IndexFile Bytes) :
    parse b f = .error .outOfRange := by
  have hr := not_refused_of_wraps hb h
  obtain ⟨hlong, hstate, hback, hrange, hcount, hlen, hmod⟩ := h
  have herror : readEnds b (headerWord b 4) 0 = .error .outOfRange :=
    readEnds_error (m := (headerWord b 4 + 1) % 2 ^ 58 - 1) hb (by omega) (by omega) (by omega)
  rw [parse, if_neg (by omega), if_neg hr, substr_ok (by omega), herror]

/-- The header is refused, or read as a file that describes itself by it. -/
def Answered (b : Bytes) (f : IndexFile Bytes) : Prop :=
  parse b f = .ok none ∨ ∃ g, parse b f = .ok (some g) ∧ describe g = b

theorem answered_iff {b : Bytes} (hb : b.length < 2 ^ 63) (f : IndexFile Bytes) :
    Answered b f ↔ ¬CountWraps b := by
  constructor
  · intro ha hw
    have herror := parse_wraps hb hw f
    rcases ha with ha | ⟨g, ha, -⟩ <;> rw [herror] at ha <;> cases ha
  · intro hw
    by_cases hlong : b.length < 40 + 64
    · exact Or.inl (if_pos hlong)
    · by_cases hr : Refused b
      · left
        rw [parse, if_neg hlong, if_pos hr]
      · obtain ⟨hcount, -⟩ := (count_of_not_refused hb (by omega) hr).resolve_right hw
        obtain ⟨es, hparse, hlen, -, hends⟩ := parse_of_count hb hr hcount f
        exact Or.inr ⟨_, hparse, describe_read hr (by omega) hlen hends⟩

theorem headerWord_head {v : Nat} (hv : v < 2 ^ 64) (rest : Bytes) :
    headerWord (leBytes 8 v ++ rest) 0 = v := by
  rw [headerWord, Nat.mul_zero, List.drop_zero, List.take_left' (length_leBytes 8 v)]
  exact leValue_leBytes hv

theorem headerWord_tail (v k : Nat) (rest : Bytes) :
    headerWord (leBytes 8 v ++ rest) (k + 1) = headerWord rest k := by
  unfold headerWord
  rw [show 8 * (k + 1) = (leBytes 8 v).length + 8 * k by rw [length_leBytes]; omega,
    List.drop_length_add_append]

theorem bool_toNat_lt (v : Bool) : v.toNat < 2 ^ 64 := by
  have := Bool.toNat_le v
  omega

theorem WellFormed.length_describe {f : IndexFile Bytes} (h : WellFormed f) :
    (describe f).length = 40 + 64 * (f.ends.length + 1) := by
  have hflat : f.ends.flatten.length = f.ends.length * 64 := by
    rw [List.length_flatten, List.map_congr_left h.ends, List.map_const', List.sum_replicate_nat]
  simp only [describe, List.length_append, length_leBytes, h.below, hflat]
  omega

/-- The numbers of a file's header are the file's. -/
theorem WellFormed.headerWords {f : IndexFile Bytes} (h : WellFormed f) :
    headerWord (describe f) 0 = f.state.toNat ∧ headerWord (describe f) 1 = f.back.toNat ∧
      headerWord (describe f) 2 = f.first ∧ headerWord (describe f) 3 = f.endTok ∧
      headerWord (describe f) 4 = f.ends.length := by
  have hsize := h.size
  have hlen := h.length_describe
  have hrange := h.range
  have hword := h.word
  refine ⟨headerWord_head (bool_toNat_lt _) _, ?_, ?_, ?_, ?_⟩
  · rw [describe, headerWord_tail, headerWord_head (bool_toNat_lt _)]
  · rw [describe, headerWord_tail, headerWord_tail, headerWord_head (by omega)]
  · rw [describe, headerWord_tail, headerWord_tail, headerWord_tail, headerWord_head hword]
  · rw [describe, headerWord_tail, headerWord_tail, headerWord_tail, headerWord_tail,
      headerWord_head (by omega)]

theorem WellFormed.not_refused {f : IndexFile Bytes} (h : WellFormed f) : ¬Refused (describe f) := by
  have hsize := h.size
  have hlen := h.length_describe
  have hrange := h.range
  have hstate := Bool.toNat_le f.state
  have hback := Bool.toNat_le f.back
  have hkind := h.kind
  obtain ⟨h0, h1, h2, h3, h4⟩ := h.headerWords
  unfold Refused
  rw [h0, h1, h2, h3, h4]
  split at hkind
  next hs =>
    obtain ⟨heq, hnil⟩ := hkind
    have hzero : f.ends.length = 0 := by rw [hnil, List.length_nil]
    rw [hs, Bool.toNat_true, if_pos (by omega)]
    omega
  next hs =>
    obtain ⟨hne, hmod⟩ := hkind
    have hpos := List.length_pos_iff.mpr hne
    rw [Bool.eq_false_iff.mpr hs, Bool.toNat_false, if_neg (by omega)]
    omega

theorem decide_toNat (v : Bool) : decide (v.toNat ≠ 0) = v := by
  cases v <;> rfl

/-- A file's header reads back as the file it is of. -/
theorem parse_describe {f : IndexFile Bytes} (h : WellFormed f) (g : IndexFile Bytes) :
    parse (describe f) g = .ok (some { g with
      state := f.state
      back := f.back
      first := f.first
      endTok := f.endTok
      below := f.below
      ends := f.ends }) := by
  obtain ⟨h0, h1, h2, h3, h4⟩ := h.headerWords
  have hcount : (describe f).length = 40 + 64 * (headerWord (describe f) 4 + 1) := by
    rw [h4, h.length_describe]
  obtain ⟨es, hparse, hlen, hall, hends⟩ := parse_of_count h.size h.not_refused hcount g
  have hrest : (describe f).drop 40 = f.below ++ f.ends.flatten := by
    simp only [describe, ← List.append_assoc]
    rw [List.append_assoc, List.drop_left']
    simp only [List.length_append, length_leBytes]
  rw [hrest, List.take_left' h.below] at hparse hends
  have hes : es = f.ends := by
    rw [List.eq_iff_flatten_eq]
    refine ⟨List.append_cancel_left hends, ?_⟩
    rw [List.map_congr_left hall, List.map_congr_left h.ends, List.map_const', List.map_const',
      hlen, h4]
  rw [hparse, h0, h1, h2, h3, hes, decide_toNat, decide_toNat]

/-- A header is read as the file it is of, and refused or read as a file that describes itself by
it, unless its count's bytes wrap. -/
theorem parse_answers_iff (b : Bytes) (f : IndexFile Bytes) (hb : b.length < 2 ^ 63) :
    ((∀ g, WellFormed g → describe g = b → parse b f = .ok (some { f with
        state := g.state
        back := g.back
        first := g.first
        endTok := g.endTok
        below := g.below
        ends := g.ends })) ∧ Answered b f) ↔ ¬CountWraps b := by
  rw [← answered_iff hb f]
  refine ⟨fun h => h.2, fun h => ⟨fun g hg hgb => ?_, h⟩⟩
  rw [← hgb]
  exact parse_describe hg f

/-- A segment of one block whose digests are zeros. -/
def zeroSegment : IndexFile Bytes :=
  ⟨0, false, 0, 16, List.replicate 64 48, [List.replicate 64 48], 0, true, 0⟩

theorem zeroSegment_wellFormed : WellFormed zeroSegment := by
  refine ⟨by decide, by decide, List.length_replicate, ?_, ?_, ?_⟩
  · intro e he
    obtain rfl := List.mem_singleton.mp he
    exact List.length_replicate
  · exact ⟨by decide, by decide⟩
  · simp [describe, zeroSegment]

theorem parse_answers_iff_zeroSegment :
    parse (describe zeroSegment) zeroSegment = .ok (some zeroSegment) ∧
      Answered (describe zeroSegment) zeroSegment := by
  have hwell := zeroSegment_wellFormed
  have hwraps : ¬CountWraps (describe zeroSegment) := by
    intro hw
    have hlarge := hw.2.2.2.2.1
    rw [hwell.headerWords.2.2.2.2] at hlarge
    exact absurd hlarge (by decide)
  have h := (parse_answers_iff (describe zeroSegment) zeroSegment hwell.size).mpr hwraps
  exact ⟨h.1 zeroSegment hwell rfl, h.2⟩

/-- A segment's header of no range, room for no digest and a count of 2^58. -/
def wrappingHeader : Bytes :=
  List.replicate 32 0 ++ (leBytes 8 (2 ^ 58) ++ List.replicate 64 48)

theorem not_parse_answers :
    ¬∀ (b : Bytes) (f : IndexFile Bytes), b.length < 2 ^ 63 → Answered b f := by
  intro h
  have hlen : wrappingHeader.length < 2 ^ 63 := by decide
  refine (answered_iff hlen zeroSegment).mp (h wrappingHeader zeroSegment hlen) ?_
  unfold CountWraps
  decide

end DiskIndex

end Llmx
