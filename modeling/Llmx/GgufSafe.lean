import Llmx.GgufFiles
import Llmx.Triples
import Mathlib.Tactic.Ring

namespace Llmx

namespace Gguf

open Triples

variable {α β : Type} {file : File} {limits : Limits}

/-- The reader is inside its file and took no more room than the bytes left could fill. -/
structure Within (file : File) (r : Reader) : Prop where
  same : r.file = file
  inside : r.position ≤ file.size
  reserved : ∀ e ∈ r.reserved, e.count * e.width ≤ e.left ∧ e.left ≤ file.size

def Raised (file : File) (e : Error) (r : Reader) : Prop := Within file r ∧ e ≠ .pastEnd

/-- A read that stays inside its file, whatever it raises, and answers with `Q`. -/
def Safe (file : File) (x : Read α) (Q : α → Prop) : Prop :=
  Triple (Within file) x (fun a r => Within file r ∧ Q a) (Raised file)

/-- At least `n` bytes are left. -/
def Room (file : File) (n : Nat) (r : Reader) : Prop := Within file r ∧ n ≤ r.remaining

theorem Reader.remaining_eq {r : Reader} (h : r.position ≤ r.file.size) :
    r.remaining = r.file.size - r.position := by
  have hlt := r.file.size_lt
  unfold remaining word
  omega

theorem Within.remaining_eq {r : Reader} (h : Within file r) :
    r.remaining = file.size - r.position := by
  have hin := h.inside
  rw [← h.same] at hin ⊢
  exact Reader.remaining_eq hin

theorem Within.new (file : File) : Within file (Reader.new file) :=
  ⟨rfl, Nat.zero_le _, fun _ he => absurd he List.not_mem_nil⟩

namespace Safe

variable {Q Q' : α → Prop} {R : β → Prop}

theorem pure {a : α} (h : Q a) : Safe file (Pure.pure a) Q :=
  Triple.pure fun _ hr => ⟨hr, h⟩

theorem throw {e : Error} (h : e ≠ .pastEnd) : Safe file (MonadExcept.throw e) Q :=
  Triple.throw fun _ hr => ⟨hr, h⟩

theorem bind {x : Read α} {f : α → Read β} (hx : Safe file x Q)
    (hf : ∀ a, Q a → Safe file (f a) R) : Safe file (x >>= f) R := by
  apply Triple.bind hx
  intro a r hr
  exact hf a hr.2 r hr.1

theorem mono {x : Read α} (hx : Safe file x Q) (h : ∀ a, Q a → Q' a) : Safe file x Q' :=
  Triple.conseq hx (fun _ hr => hr) fun a _ hr => ⟨hr.1, h a hr.2⟩

theorem ite {c : Prop} [Decidable c] {x y : Read α} (hx : c → Safe file x Q)
    (hy : ¬c → Safe file y Q) : Safe file (if c then x else y) Q :=
  Triple.ite hx hy

theorem raise {x : Except Error α} (h : ∀ e, x = .error e → e ≠ .pastEnd) :
    Safe file (Gguf.raise x) fun a => x = .ok a := by
  cases x with
  | ok a => exact Safe.pure (by simp)
  | error e => exact Safe.throw (h e (by simp))

theorem readMany {x : Read α} (hx : Safe file x Q) (n : Nat) :
    Safe file (Gguf.readMany x n) fun l => l.length = n ∧ ∀ a ∈ l, Q a := by
  induction n with
  | zero => exact Safe.pure (by simp)
  | succ n ih =>
    apply hx.bind
    intro a ha
    apply ih.bind
    intro rest hrest
    apply Safe.pure
    simpa [hrest.1, ha] using hrest.2

end Safe

theorem require_ok {n : Nat} {r : Reader} (h : n ≤ r.remaining) : require n r = .ok () r := by
  unfold require
  exact if_neg (Nat.not_lt.mpr h)

theorem require_room (n : Nat) :
    Triple (Within file) (require n) (fun _ => Room file n) (Raised file) := by
  intro r hr
  by_cases h : n ≤ r.remaining
  · rw [require_ok h]
    exact ⟨hr, h⟩
  · have hstep : require n r = .error (.failure "GGUF field exceeds file extent") r :=
      if_pos (Nat.lt_of_not_le h)
    rw [hstep]
    exact ⟨hr, by simp⟩

theorem remaining_room :
    Triple (Within file) remaining (fun n => Room file n) (Raised file) :=
  fun r hr => ⟨hr, Nat.le_refl r.remaining⟩

theorem reserve_room {count width n : Nat} (h : count * width ≤ n) :
    Triple (Room file n) (reserve count width) (fun _ => Room file n) (Raised file) := by
  intro r hr
  refine ⟨⟨hr.1.same, hr.1.inside, fun e he => ?_⟩, hr.2⟩
  rcases List.mem_cons.mp he with rfl | he
  · have hleft := hr.1.remaining_eq
    have hroom := hr.2
    show count * width ≤ r.remaining ∧ r.remaining ≤ file.size
    omega
  · exact hr.1.reserved e he

/-- A read that needs no room can follow one that leaves some. -/
theorem Safe.after_room {n : Nat} {x : Read α} {Q : α → Prop} (hx : Safe file x Q) :
    Triple (Room file n) x (fun a r => Within file r ∧ Q a) (Raised file) :=
  Triple.conseq hx (fun _ hr => hr.1) fun _ _ hr => hr

theorem streamRead_ok {n : Nat} {r : Reader} (h : r.position + n ≤ r.file.size) :
    streamRead n r =
      .ok (r.file.slice r.position n) { r with position := r.position + n } := by
  have hlt := r.file.size_lt
  have hword : word (r.position + n) = r.position + n := by
    unfold word
    omega
  unfold streamRead
  rw [hword]
  exact if_neg (Nat.not_lt.mpr h)

theorem streamRead_safe (n : Nat) :
    Triple (Room file n) (streamRead n) (fun s r => Within file r ∧ s.length = n)
      (Raised file) := by
  intro r hr
  have hleft := hr.1.remaining_eq
  have hroom := hr.2
  have hin := hr.1.inside
  have hend : r.position + n ≤ file.size := by omega
  rw [streamRead_ok (by rwa [hr.1.same])]
  exact ⟨⟨hr.1.same, hend, hr.1.reserved⟩, by simp [File.slice]⟩

theorem read_safe (n : Nat) : Safe file (read n) fun s => s.length = n := by
  apply Triple.bind (require_room n)
  intro _
  apply Triple.ite
  · intro _
    exact Triple.throw fun r hr => ⟨hr.1, by simp⟩
  · intro _
    exact streamRead_safe n

theorem leValue_lt (s : Bytes) : leValue s < 256 ^ s.length := by
  induction s with
  | nil => simp [leValue]
  | cons c s ih =>
    have hc := c.toNat_lt
    have hs : leValue (c :: s) = c.toNat + 256 * leValue s := by simp [leValue]
    rw [hs, List.length_cons, Nat.pow_succ]
    omega

theorem readInt_safe (n : Nat) : Safe file (readInt n) fun x => x < 256 ^ n := by
  apply (read_safe n).bind
  intro s hs
  apply Safe.pure
  have := leValue_lt s
  rwa [hs] at this

theorem readString_safe : Safe file (readString limits) fun _ => True := by
  apply (readInt_safe 8).bind
  intro n _
  apply Triple.bind (require_room n)
  intro _
  apply Triple.ite
  · intro _
    exact Triple.throw fun r hr => ⟨hr.1, by simp⟩
  · intro _
    apply Triple.bind (reserve_room (by omega))
    intro _
    apply Safe.after_room
    apply Safe.ite
    · intro _
      exact (read_safe n).mono fun _ _ => trivial
    · intro _
      exact Safe.pure trivial

theorem readScalar_safe (n : Nat) (value : Nat → MetaValue) :
    Safe file (readScalar n value) fun _ => True :=
  (readInt_safe n).bind fun _ _ => Safe.pure trivial

theorem minimumValueSize_raises {id : Nat} {e : Error} (h : minimumValueSize id = .error e) :
    e ≠ .pastEnd := by
  unfold minimumValueSize at h
  split at h
  · cases h
  · cases h
    simp

/-- By the arrays a value may still nest; an array's elements are read a level lower. -/
theorem readTypedValue_safe (levels t : Nat) :
    Safe file (readTypedValue limits levels t) fun _ => True := by
  induction levels generalizing t with
  | zero =>
    unfold readTypedValue
    split
    all_goals first
      | exact readScalar_safe _ _
      | exact Safe.throw (by simp)
      | exact readString_safe.bind fun _ _ => Safe.pure trivial
  | succ levels ih =>
    unfold readTypedValue
    split
    case h_10 =>
      apply (readInt_safe 4).bind
      intro et _
      apply (readInt_safe 8).bind
      intro cnt _
      apply (Safe.raise fun _ h => minimumValueSize_raises h).bind
      intro width _
      apply Triple.bind remaining_room
      intro left
      apply Triple.ite
      · intro _
        exact Triple.throw fun r hr => ⟨hr.1, by simp⟩
      intro hfit
      apply Triple.ite
      · intro _
        exact Triple.throw fun r hr => ⟨hr.1, by simp⟩
      intro _
      have hroom : cnt * width ≤ left :=
        (Nat.mul_le_mul_right width (Nat.le_of_not_lt hfit)).trans (Nat.div_mul_le_self left width)
      apply Triple.bind (reserve_room hroom)
      intro _
      apply Safe.after_room
      apply ((ih et).readMany cnt).bind
      intro arr _
      exact Safe.pure trivial
    all_goals first
      | exact readScalar_safe _ _
      | exact Safe.throw (by simp)
      | exact readString_safe.bind fun _ _ => Safe.pure trivial

theorem multiplyAll_le {ds : List Nat} {n m : Nat} (hn : n ≤ sizeMax)
    (h : multiplyAll ds n = .ok m) : m ≤ sizeMax := by
  induction ds generalizing n with
  | nil =>
    obtain rfl := Except.ok.inj h
    exact hn
  | cons d ds ih =>
    rw [multiplyAll] at h
    split at h
    · cases h
    next k hk =>
      apply ih ?_ h
      unfold checkedMultiply at hk
      split at hk
      · cases hk
      next hfit =>
        obtain rfl := Except.ok.inj hk
        by_cases hzero : n = 0
        · simp [hzero]
        · have hd : d ≤ sizeMax / n := by
            by_contra hlt
            exact hfit ⟨hzero, by omega⟩
          calc n * d ≤ n * (sizeMax / n) := Nat.mul_le_mul_left n hd
            _ ≤ sizeMax := Nat.mul_div_le sizeMax n

theorem word_of_le {n : Nat} (h : n ≤ sizeMax) : word n = n := by
  unfold sizeMax at h
  unfold word
  omega

/-- A product of numbers above zero that a word holds has every product on the way there too. -/
theorem foldl_word {ds : List Nat} {n : Nat} (hds : 0 ∉ ds) (h : n * ds.prod ≤ sizeMax) :
    ds.foldl (fun n d => word (n * d)) n = n * ds.prod := by
  induction ds generalizing n with
  | nil => simp
  | cons d ds ih =>
    have hds' : 0 ∉ ds := fun hmem => hds (List.mem_cons_of_mem d hmem)
    have hpos : 0 < ds.prod := Nat.pos_of_ne_zero fun hz => hds' (List.prod_eq_zero_iff.mp hz)
    rw [List.prod_cons, ← Nat.mul_assoc] at h ⊢
    have hnd : n * d ≤ sizeMax := (Nat.le_mul_of_pos_right _ hpos).trans h
    rw [List.foldl_cons, word_of_le hnd, ih hds' h]

namespace TensorInfo

theorem dataSize_raises {t : TensorInfo} {e : Error} (h : t.dataSize = .error e) :
    e ≠ .pastEnd := by
  unfold dataSize raised at h
  split at h
  · cases h
  · cases h
    simp

/-- The rows a count of elements is divided into hold them all. -/
theorem width_mul_rows (ne : List Nat) :
    ne.headD 1 * (if ne.prod ≠ 0 then ne.prod / ne.headD 1 else 0) = ne.prod := by
  cases ne with
  | nil => simp
  | cons w rest =>
    rw [List.headD_cons]
    split
    next hne =>
      rw [List.prod_cons]
      exact Nat.mul_div_cancel' (Nat.dvd_mul_right w rest.prod)
    next hz =>
      rw [Nat.mul_zero]
      omega

theorem elements_fit {t : Llmx.TensorInfo} {n : Nat} (h : t.elements = .ok n) :
    n ≤ sizeMax ∧ (if 0 ∈ t.ne then 0 else t.ne.foldl (fun n d => word (n * d)) 1) = n := by
  have hprod := Llmx.TensorInfo.elements_ok h
  unfold Llmx.TensorInfo.elements at h
  split at h
  next hzero =>
    obtain rfl := Except.ok.inj h
    exact ⟨Nat.zero_le _, if_pos hzero⟩
  next hzero =>
    have hn : n ≤ sizeMax := multiplyAll_le (by decide) h
    refine ⟨hn, ?_⟩
    rw [if_neg hzero, foldl_word hzero (by omega), hprod, Nat.one_mul]

/-- A tensor's size is that of its values in whole blocks, and the machine computes it as it is. -/
theorem dataSize_ok {t : TensorInfo} {bytes : Nat} (h : t.dataSize = .ok bytes) :
    ∃ qt, storageType t.type = some qt ∧ t.ne.headD 1 % qt.blockSize = 0 ∧
      bytes * qt.blockSize = t.ne.prod * qt.typeSize ∧ t.machineBytes qt = bytes := by
  unfold dataSize raised at h
  split at h
  next total hsize =>
    obtain rfl := Except.ok.inj h
    unfold Llmx.TensorInfo.dataSize at hsize
    split at hsize
    · cases hsize
    · dsimp only at hsize
      split at hsize
      · cases hsize
      · split at hsize
        · cases hsize
        next n hn =>
          obtain ⟨qt, hqt, hwhole, hbytes, hmax⟩ := rowBytes_ok hsize
          have hprod : n = t.ne.prod := Llmx.TensorInfo.elements_ok hn
          obtain ⟨hfit, hmachine⟩ : n ≤ sizeMax ∧ _ = n := elements_fit hn
          have hrows := width_mul_rows t.ne
          rw [← hprod] at hrows
          dsimp only at hbytes hwhole hmachine
          generalize hr : (if n ≠ 0 then n / t.ne.headD 1 else 0) = rows at hrows hbytes
          have hblocks : t.ne.headD 1 / qt.blockSize * rows ≤ sizeMax :=
            calc t.ne.headD 1 / qt.blockSize * rows ≤ t.ne.headD 1 * rows :=
                  Nat.mul_le_mul_right rows (Nat.div_le_self _ _)
              _ ≤ sizeMax := by omega
          refine ⟨qt, hqt, hwhole, ?_, ?_⟩
          · calc total * qt.blockSize
                = t.ne.headD 1 / qt.blockSize * qt.blockSize * rows * qt.typeSize := by
                  rw [hbytes]; ring
              _ = t.ne.prod * qt.typeSize := by
                  rw [Nat.div_mul_cancel (Nat.dvd_of_mod_eq_zero hwhole), hrows, hprod]
          · unfold machineBytes
            rw [hmachine]
            dsimp only
            rw [hr, word_of_le hblocks, ← hbytes, word_of_le hmax]
  · cases h

end TensorInfo

/-- A tensor of a known type, of whole blocks, whose bytes are counted without wrapping and lie,
aligned, in the data section. -/
structure SafeTensor (alignment available : Nat) (t : TensorInfo) : Prop where
  sized : ∃ qt bytes, storageType t.type = some qt ∧ t.ne.headD 1 % qt.blockSize = 0 ∧
    t.dataSize = .ok bytes ∧ bytes * qt.blockSize = t.ne.prod * qt.typeSize ∧
    t.machineBytes qt = bytes ∧ t.offset + bytes ≤ available
  aligned : t.offset % alignment = 0

structure SafeHeader (file : File) (header : Header) : Prop where
  keys : (header.kv.map Prod.fst).Nodup
  data : header.dataStart ≤ file.size
  tensors : ∃ alignment, fileAlignment header.kv = .ok alignment ∧
    ∀ t ∈ header.tensors, SafeTensor alignment (file.size - header.dataStart) t

theorem checkExtents_raises {alignment available : Nat} {ts : List TensorInfo} {e : Error}
    (h : checkExtents alignment available ts = .error e) : e ≠ .pastEnd := by
  induction ts with
  | nil => cases h
  | cons t ts ih =>
    rw [checkExtents] at h
    split at h
    next hsize =>
      cases h
      exact TensorInfo.dataSize_raises hsize
    · split at h
      · cases h
        simp
      · split at h
        · cases h
          simp
        · exact ih h

theorem checkExtents_ok {alignment available : Nat} {ts : List TensorInfo}
    (h : checkExtents alignment available ts = .ok ()) :
    ∀ t ∈ ts, SafeTensor alignment available t := by
  induction ts with
  | nil => simp
  | cons t ts ih =>
    rw [checkExtents] at h
    split at h
    · cases h
    next bytes hsize =>
      split at h
      · cases h
      next haligned =>
        split at h
        · cases h
        next hinside =>
          obtain ⟨qt, hqt, hwhole, hexact, hmachine⟩ := TensorInfo.dataSize_ok hsize
          rw [List.forall_mem_cons]
          refine ⟨⟨⟨qt, bytes, hqt, hwhole, hsize, hexact, hmachine, by omega⟩, ?_⟩, ih h⟩
          exact Decidable.not_not.mp haligned

theorem checkedAdd_raises {a b : Nat} {e : Error} (h : checkedAdd a b = .error e) :
    e ≠ .pastEnd := by
  unfold checkedAdd at h
  split at h
  · cases h
    simp
  · cases h

theorem fileAlignment_raises {kv : List (Bytes × MetaValue)} {e : Error}
    (h : fileAlignment kv = .error e) : e ≠ .pastEnd := by
  unfold fileAlignment at h
  split at h
  · cases h
  · split at h
    · cases h
      simp
    · cases h

theorem readMetaValue_safe : Safe file (readMetaValue limits) fun _ => True :=
  (readInt_safe 4).bind fun t _ => readTypedValue_safe maxArrayDepth t

theorem readKv_safe (n : Nat) (keys : List Bytes) :
    Safe file (readKv limits n keys) fun kv =>
      (kv.map Prod.fst).Nodup ∧ ∀ key ∈ kv.map Prod.fst, key ∉ keys := by
  induction n generalizing keys with
  | zero => exact Safe.pure (by simp)
  | succ n ih =>
    apply readString_safe.bind
    intro key _
    apply Safe.ite
    · intro _
      exact Safe.throw (by simp)
    intro hnew
    apply readMetaValue_safe.bind
    intro value _
    apply (ih (key :: keys)).bind
    intro rest hrest
    apply Safe.pure
    rw [List.map_cons]
    constructor
    · rw [List.nodup_cons]
      refine ⟨fun hmem => ?_, hrest.1⟩
      exact hrest.2 key hmem List.mem_cons_self
    · rw [List.forall_mem_cons]
      refine ⟨hnew, fun k hk hmem => ?_⟩
      exact hrest.2 k hk (List.mem_cons_of_mem key hmem)

theorem readTensorInfo_safe : Safe file (readTensorInfo limits) fun _ => True := by
  apply readString_safe.bind
  intro name _
  apply (readInt_safe 4).bind
  intro nd _
  apply Safe.ite
  · intro _
    exact Safe.throw (by simp)
  intro _
  apply Triple.bind (require_room _)
  intro _
  apply Triple.bind (reserve_room (by omega))
  intro _
  apply Safe.after_room
  apply ((readInt_safe 8).readMany nd).bind
  intro ne _
  apply (readInt_safe 4).bind
  intro type _
  apply (readInt_safe 8).bind
  intro offset _
  exact Safe.pure trivial

theorem position_safe : Safe file position fun _ => True :=
  fun _ hr => ⟨hr, trivial⟩

theorem size_safe : Safe file size fun n => n = file.size :=
  fun _ hr => ⟨hr, congrArg File.size hr.same⟩

theorem readHeader_safe (limits : Limits) (file : File) :
    Safe file (readHeader limits) (SafeHeader file) := by
  apply (readInt_safe 4).bind
  intro m _
  apply Safe.ite
  · intro _
    exact Safe.throw (by simp)
  intro _
  apply (readInt_safe 4).bind
  intro ver _
  apply Safe.ite
  · intro _
    exact Safe.throw (by simp)
  intro _
  apply (readInt_safe 8).bind
  intro ntc _
  apply (readInt_safe 8).bind
  intro nkv _
  apply Triple.bind remaining_room
  intro left
  apply Triple.ite
  · intro _
    exact Triple.throw fun r hr => ⟨hr.1, by simp⟩
  intro hfit
  apply Triple.bind (reserve_room (by omega))
  intro _
  apply Triple.bind (reserve_room (by omega))
  intro _
  apply Safe.after_room
  apply (readKv_safe nkv []).bind
  intro kv hkv
  apply (Safe.raise fun _ => fileAlignment_raises).bind
  intro alignment halignment
  apply (readTensorInfo_safe.readMany ntc).bind
  intro tensors _
  apply position_safe.bind
  intro p _
  apply (Safe.raise fun _ => checkedAdd_raises).bind
  intro dataStart _
  apply size_safe.bind
  intro total htotal
  apply Safe.ite
  · intro _
    exact Safe.throw (by simp)
  intro hdata
  apply (Safe.raise fun _ => checkExtents_raises).bind
  intro _ hextents
  apply Safe.pure
  subst htotal
  exact ⟨hkv.1, Nat.le_of_not_lt hdata, alignment, halignment, checkExtents_ok hextents⟩

/-- A file's header is read inside the file, taking room for no more than is left of it, and is
refused or safe to lay tensors out by. -/
theorem header_read_or_refused (limits : Limits) (file : File) :
    (∃ header r, readHeader limits (Reader.new file) = .ok header r ∧ SafeHeader file header ∧
      Within file r) ∨
    ∃ e r, readHeader limits (Reader.new file) = .error e r ∧ e ≠ .pastEnd ∧ Within file r := by
  rcases (readHeader_safe limits file).run (Within.new file) with
    ⟨header, r, hrun, hr, hsafe⟩ | ⟨e, r, hrun, hr, he⟩
  · exact Or.inl ⟨header, r, hrun, hsafe, hr⟩
  · exact Or.inr ⟨e, r, hrun, he, hr⟩

end Gguf

end Llmx
