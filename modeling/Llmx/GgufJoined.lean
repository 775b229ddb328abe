import Llmx.Concats
import Llmx.GgufSafe
import Llmx.GgufSpans
import Llmx.GgufWriter

namespace Llmx

namespace Gguf

open Concats Fallible

variable {limits : Limits} {files : Files}

/-- A file with tensors, its data placed at `base` among a model's. -/
structure Part where
  path : Bytes
  file : File
  header : Header
  base : Nat

namespace Part

def count (p : Part) : Nat := p.header.tensors.length

def size (p : Part) : Nat := p.file.size - p.header.dataStart

def stop (p : Part) : Nat := p.base + p.size

def segment (p : Part) (first : Nat) : Segment :=
  ⟨p.path, none, p.header.dataStart, p.base, p.size, first⟩

def offsets (p : Part) : List Nat := p.header.tensors.map fun t => p.base + t.offset

/-- The part says what is read of its file. -/
structure Sourced (limits : Limits) (files : Files) (p : Part) : Prop where
  file : files p.path = some p.file
  header : ∃ r, readHeader limits (Reader.new p.file) = .ok p.header r

/-- The part has tensors, and is laid out in machine words. -/
structure Read (limits : Limits) (files : Files) (p : Part) : Prop
    extends Sourced limits files p where
  holds : 0 < p.count
  fits : p.stop ≤ sizeMax

end Part

def segmentsFrom : Nat → List Part → List Segment
  | _, [] => []
  | first, p :: ps => p.segment first :: segmentsFrom (first + p.count) ps

/-- A model put together of the parts, one after another. -/
structure Built (limits : Limits) (files : Files) (m : Model) (ps : List Part) : Prop where
  read : ∀ p ∈ ps, p.Read limits files
  apart : ps.Pairwise fun p q => p.stop ≤ q.base
  tensors : m.tensors = ps.flatMap fun p => p.header.tensors
  offsets : m.offsets = ps.flatMap Part.offsets
  segments : m.segments = segmentsFrom 0 ps
  names : (m.tensors.map TensorInfo.name).Nodup

theorem getElem?_segmentsFrom (first : Nat) (ps : List Part) (k : Nat) :
    (segmentsFrom first ps)[k]? =
      (ps[k]?).map fun p => p.segment (first + before Part.count ps k) := by
  induction ps generalizing first k with
  | nil => simp [segmentsFrom]
  | cons p ps ih =>
    rw [segmentsFrom]
    cases k with
    | zero => simp
    | succ k =>
      rw [List.getElem?_cons_succ, List.getElem?_cons_succ, ih, before_cons, Nat.add_assoc]

namespace Part

/-- A tensor of a part has its bytes inside the file. -/
theorem Read.tensor {p : Part} (h : p.Read limits files) {t : TensorInfo}
    (ht : t ∈ p.header.tensors) :
    ∃ bytes, t.dataSize = .ok bytes ∧ t.offset + bytes ≤ p.size ∧
      p.header.dataStart ≤ p.file.size := by
  obtain ⟨r, hr⟩ := h.header
  rcases header_read_or_refused limits p.file with ⟨header, r', hr', hsafe, _⟩ | ⟨e, r', hr', _⟩
  · rw [hr] at hr'
    cases hr'
    obtain ⟨alignment, _, htensors⟩ := hsafe.tensors
    obtain ⟨_, bytes, _, _, hbytes, _, _, hfit⟩ := (htensors t ht).sized
    exact ⟨bytes, hbytes, hfit, hsafe.data⟩
  · rw [hr] at hr'
    cases hr'

end Part

/-- Where a model's tensor is: in which part, and there as the part's header says. -/
theorem Built.tensor {m : Model} {ps : List Part} (h : Built limits files m ps) {i : Nat}
    {t : TensorInfo} (ht : m.tensors[i]? = some t) :
    ∃ (k : Nat) (p : Part) (j n : Nat), ps[k]? = some p ∧ p.header.tensors[j]? = some t ∧
      m.offsets[i]? = some (p.base + t.offset) ∧ t.dataSize = .ok n ∧ t.offset + n ≤ p.size ∧
      m.span i = .ok ⟨p.path, p.header.dataStart + t.offset, n⟩ := by
  have ht' := ht
  rw [h.tensors] at ht'
  obtain ⟨k, p, j, hp, hj, htj, hi⟩ := exists_of_getElem?_flatMap (w := Part.count)
    (fun p => (Eq.refl p.count)) ht'
  have hread := h.read p (List.mem_of_getElem? hp)
  obtain ⟨n, hn, hfit, hdata⟩ := hread.tensor (List.mem_of_getElem? htj)
  have hoffset : m.offsets[i]? = some (p.base + t.offset) := by
    rw [h.offsets, hi, getElem?_flatMap_before (by simp [Part.offsets, Part.count]) hp hj,
      Part.offsets, List.getElem?_map, htj, Option.map_some]
  have hsegment : m.segmentOf i = some (p.segment (before Part.count ps k)) := by
    apply Model.segmentOf_eq (j := k)
    · rw [h.segments, getElem?_segmentsFrom, hp, Nat.zero_add, Option.map_some]
    · intro k' s hk hs
      rw [h.segments, getElem?_segmentsFrom, Nat.zero_add] at hs
      obtain ⟨q, _, rfl⟩ := Option.map_eq_some_iff.mp hs
      have hmono : before Part.count ps k' ≤ before Part.count ps k := before_mono hk
      show before Part.count ps k' ≤ i
      omega
    · intro k' s hk hs
      rw [h.segments, getElem?_segmentsFrom, Nat.zero_add] at hs
      obtain ⟨q, _, rfl⟩ := Option.map_eq_some_iff.mp hs
      have hmono : before Part.count ps (k + 1) ≤ before Part.count ps k' :=
        before_mono (Nat.succ_le_of_lt hk)
      rw [before_succ hp] at hmono
      show i < before Part.count ps k'
      omega
  have hstop := hread.fits
  have hlt := p.file.size_lt
  unfold Part.stop sizeMax at hstop
  unfold Part.size at hstop hfit
  refine ⟨k, p, j, n, hp, htj, hoffset, hn, hfit, ?_⟩
  have hbase : (p.segment (before Part.count ps k)).base = p.base := by rw [Part.segment]
  have hstart : (p.segment (before Part.count ps k)).start = p.header.dataStart := by
    rw [Part.segment]
  rw [Model.span_eq hsegment ht hn,
    Model.place_eq hoffset (by omega) (by rw [hbase]; omega) (by rw [hbase, hstart]; omega),
    hbase, hstart, Nat.add_sub_cancel_left]
  rfl

/-- Tensors of different files lie apart among the model's offsets. -/
theorem Built.disjoint {m : Model} {ps : List Part} (h : Built limits files m ps) {i k x y : Nat}
    {a b : FileSpan} (ha : m.span i = .ok a) (hb : m.span k = .ok b) (hne : a.path ≠ b.path)
    (hx : m.offsets[i]? = some x) (hy : m.offsets[k]? = some y) :
    x + a.bytes ≤ y ∨ y + b.bytes ≤ x := by
  have hlength : ∀ j : Nat, j < m.offsets.length → j < m.tensors.length := by
    intro j hj
    rw [h.offsets, length_flatMap_before (w := Part.count)
      (by simp [Part.offsets, Part.count])] at hj
    rw [h.tensors, length_flatMap_before (w := Part.count) fun p => Eq.refl p.count]
    exact hj
  obtain ⟨hi, _⟩ := List.getElem?_eq_some_iff.mp hx
  obtain ⟨hk, _⟩ := List.getElem?_eq_some_iff.mp hy
  obtain ⟨u, p, _, n, hp, _, hx', _, hn, hspan⟩ :=
    h.tensor (List.getElem?_eq_getElem (hlength i hi))
  obtain ⟨v, q, _, n', hq, _, hy', _, hn', hspan'⟩ :=
    h.tensor (List.getElem?_eq_getElem (hlength k hk))
  obtain rfl := Except.ok.inj (ha.symm.trans hspan)
  obtain rfl := Except.ok.inj (hb.symm.trans hspan')
  obtain rfl := Option.some.inj (hx.symm.trans hx')
  obtain rfl := Option.some.inj (hy.symm.trans hy')
  have hapart : ∀ {u v : Nat} {p q : Part}, ps[u]? = some p → ps[v]? = some q → u < v →
      p.base + p.size ≤ q.base := by
    intro u v p q hp hq huv
    obtain ⟨hu, rfl⟩ := List.getElem?_eq_some_iff.mp hp
    obtain ⟨hv, rfl⟩ := List.getElem?_eq_some_iff.mp hq
    exact List.pairwise_iff_getElem.mp h.apart u v hu hv huv
  dsimp only at hne ⊢
  rcases Nat.lt_trichotomy u v with huv | rfl | huv
  · have := hapart hp hq huv
    omega
  · obtain rfl := Option.some.inj (hp.symm.trans hq)
    exact absurd rfl hne
  · have := hapart hq hp huv
    omega

theorem readInput_ok {path : Bytes} {first : Nat} {header : Header} {input : Input}
    (h : readInput limits files path first = .ok (header, input)) :
    ∃ file, Part.Sourced limits files ⟨path, file, header, 0⟩ ∧
      input = ⟨path, header.dataStart, file.size, first, first + header.tensors.length⟩ := by
  cases hfile : files path with
  | none =>
    unfold readInput at h
    rw [hfile] at h
    cases h
  | some file =>
    rw [readInput_some hfile] at h
    cases hrun : readHeader limits (Reader.new file) with
    | error e r =>
      rw [hrun] at h
      cases h
    | ok header' r =>
      rw [hrun, inputOf] at h
      obtain ⟨total, htotal, h⟩ := exists_of_bind h
      split at h
      · cases h
      · cases h
        obtain rfl := checkedAdd_eq htotal
        exact ⟨file, ⟨hfile, r, hrun⟩, rfl⟩

def inputsFrom : Nat → List Part → List Input
  | _, [] => []
  | first, p :: ps =>
    ⟨p.path, p.header.dataStart, p.file.size, first, first + p.count⟩ ::
      inputsFrom (first + p.count) ps

theorem inputsFrom_append (first : Nat) (ps qs : List Part) :
    inputsFrom first (ps ++ qs) =
      inputsFrom first ps ++ inputsFrom (first + before Part.count ps ps.length) qs := by
  induction ps generalizing first with
  | nil => simp [inputsFrom]
  | cons p ps ih =>
    rw [List.cons_append, inputsFrom, inputsFrom, ih, List.length_cons, before_cons,
      Nat.add_assoc, List.cons_append]

/-- A table of the tensors of files that were read, in their order. -/
structure Listed (limits : Limits) (files : Files) (table : Table) (ps : List Part) : Prop where
  sourced : ∀ p ∈ ps, p.Sourced limits files
  tensors : table.tensors = ps.flatMap fun p => p.header.tensors
  inputs : table.inputs = inputsFrom 0 ps
  all : table.names = (table.tensors.map TensorInfo.name).reverse
  names : (table.tensors.map TensorInfo.name).Nodup

theorem checkTensors_ok {split : Split} {tensors : List TensorInfo} {total : Nat}
    {names all : List Bytes} (h : checkTensors split tensors total names = .ok all) :
    insertNames tensors names = .ok all := by
  unfold checkTensors at h
  split at h
  · cases h
  · exact h

/-- A shard read after the others is listed after them. -/
theorem Listed.snoc {table : Table} {ps : List Part} (h : Listed limits files table ps)
    {p : Part} (hp : p.Sourced limits files) {names : List Bytes}
    (hnames : insertNames p.header.tensors table.names = .ok names) :
    Listed limits files
      ⟨table.tensors ++ p.header.tensors, names, table.inputs ++
        [⟨p.path, p.header.dataStart, p.file.size, table.tensors.length,
          table.tensors.length + p.count⟩]⟩ (ps ++ [p]) := by
  obtain ⟨hall, hnodup, hnew⟩ := insertNames_ok hnames
  have hcount : table.tensors.length = before Part.count ps ps.length := by
    rw [h.tensors, length_flatMap_before (w := Part.count) fun p => Eq.refl p.count]
  refine ⟨?_, ?_, ?_, ?_, ?_⟩
  · intro q hq
    rcases List.mem_append.mp hq with hq | hq
    · exact h.sourced q hq
    · obtain rfl := List.mem_singleton.mp hq
      exact hp
  · rw [List.flatMap_append, ← h.tensors, List.flatMap_singleton]
  · rw [inputsFrom_append, ← h.inputs, ← hcount, Nat.zero_add, inputsFrom, inputsFrom]
  · rw [hall, h.all, List.map_append, List.reverse_append]
  · rw [List.map_append]
    refine List.nodup_append.mpr ⟨h.names, hnodup, ?_⟩
    intro name hname other hother heq
    subst heq
    refine hnew name hother ?_
    rw [h.all]
    exact List.mem_reverse.mpr hname

theorem readShards_listed {stem : Bytes} {kv : List (Bytes × MetaValue)} {split : Split}
    {n index : Nat} {table table' : Table} {ps : List Part} (hps : Listed limits files table ps)
    (h : readShards limits files stem kv split n index table = .ok table') :
    ∃ ps', Listed limits files table' ps' := by
  induction n generalizing index table ps with
  | zero =>
    obtain rfl := Except.ok.inj h
    exact ⟨ps, hps⟩
  | succ n ih =>
    rw [readShards] at h
    obtain ⟨⟨header, input⟩, hinput, h⟩ := exists_of_bind h
    obtain ⟨next, _, h⟩ := exists_of_bind h
    split at h
    · cases h
    obtain ⟨_, _, h⟩ := exists_of_bind h
    obtain ⟨names, hnames, h⟩ := exists_of_bind h
    obtain ⟨file, hsourced, rfl⟩ := readInput_ok hinput
    exact ih (hps.snoc hsourced (checkTensors_ok hnames)) h

theorem readTable_listed {path : Bytes} {header : Header} {file : File} {split : Split}
    {table : Table} (hsourced : Part.Sourced limits files ⟨path, file, header, 0⟩)
    (h : readTable limits files path header
      ⟨path, header.dataStart, file.size, 0, 0 + header.tensors.length⟩ split = .ok table) :
    ∃ ps, Listed limits files table ps := by
  have hfirst : ∀ names, checkTensors split header.tensors header.tensors.length [] = .ok names →
      Listed limits files ⟨header.tensors, names,
        [⟨path, header.dataStart, file.size, 0, 0 + header.tensors.length⟩]⟩
        [⟨path, file, header, 0⟩] := by
    intro names hnames
    have hnil : Listed limits files ⟨[], [], []⟩ [] :=
      ⟨by simp, by simp, by simp [inputsFrom], by simp, by simp⟩
    exact hnil.snoc hsourced (checkTensors_ok hnames)
  unfold readTable at h
  split at h
  · split at h
    · cases h
    · obtain ⟨stem, _, h⟩ := exists_of_bind h
      obtain ⟨names, hnames, h⟩ := exists_of_bind h
      obtain ⟨table', htable, h⟩ := exists_of_bind h
      split at h
      · cases h
      · obtain rfl := Except.ok.inj h
        exact readShards_listed (hfirst names hnames) htable
  · obtain ⟨names, hnames, h⟩ := exists_of_bind h
    obtain rfl := Except.ok.inj h
    exact ⟨_, hfirst names hnames⟩

theorem joinOffsets_eq {base : Nat} {ts : List TensorInfo} {offsets : List Nat}
    (h : joinOffsets base ts = .ok offsets) : offsets = ts.map fun t => base + t.offset := by
  induction ts generalizing offsets with
  | nil => exact (Except.ok.inj h).symm
  | cons t ts ih =>
    rw [joinOffsets] at h
    split at h
    · cases h
    obtain ⟨offset, hoffset, h⟩ := exists_of_bind h
    obtain ⟨rest, hrest, h⟩ := exists_of_bind h
    obtain rfl := Except.ok.inj h
    rw [List.map_cons, checkedAdd_eq hoffset, ih hrest]

/-- The files with tensors are laid out one after another from `base`. -/
theorem layOut_parts {tensors pre : List TensorInfo} {es : List Part} {base : Nat}
    {offsets : List Nat} {segments : List Segment}
    (hes : ∀ e ∈ es, e.Sourced limits files)
    (htensors : tensors = pre ++ es.flatMap fun p => p.header.tensors)
    (hbase : base ≤ sizeMax)
    (h : layOut tensors (inputsFrom pre.length es) base = .ok (offsets, segments)) :
    ∃ ps : List Part, (∀ p ∈ ps, p.Read limits files ∧ base ≤ p.base) ∧
      (ps.Pairwise fun p q => p.stop ≤ q.base) ∧
      (ps.flatMap fun p => p.header.tensors) = (es.flatMap fun p => p.header.tensors) ∧
      offsets = ps.flatMap Part.offsets ∧ segments = segmentsFrom pre.length ps := by
  induction es generalizing pre base offsets segments with
  | nil =>
    cases h
    exact ⟨[], by simp, List.Pairwise.nil, rfl, rfl, rfl⟩
  | cons e es ih =>
    rw [List.forall_mem_cons] at hes
    rw [List.flatMap_cons, ← List.append_assoc] at htensors
    have hlength : (pre ++ e.header.tensors).length = pre.length + e.count := List.length_append
    rw [inputsFrom, layOut] at h
    dsimp only at h
    split at h
    next hempty =>
      have hzero : e.count = 0 := by omega
      have hnil : e.header.tensors = [] := List.eq_nil_of_length_eq_zero hzero
      rw [hnil, List.append_nil] at htensors
      rw [hzero, Nat.add_zero] at h
      obtain ⟨ps, hps⟩ := ih hes.2 htensors hbase h
      refine ⟨ps, ?_⟩
      rw [List.flatMap_cons, hnil, List.nil_append]
      exact hps
    next hsome =>
      obtain ⟨joined, hjoined, h⟩ := exists_of_bind h
      obtain ⟨stop, hstop, h⟩ := exists_of_bind h
      have hfits := checkedAdd_le hbase hstop
      obtain ⟨next, hnext, h⟩ := exists_of_bind h
      obtain ⟨⟨restOffsets, rest⟩, hrest, h⟩ := exists_of_bind h
      cases h
      rw [← hlength] at hrest
      obtain ⟨ps, hread, hapart, hps, hoffsets, hsegments⟩ :=
        ih hes.2 htensors (checkedAdd_le hfits hnext) hrest
      have hnext := alignedSize_eq hnext
      have hmine : (tensors.drop pre.length).take (pre.length + e.count - pre.length) =
          e.header.tensors := by
        rw [htensors, List.append_assoc, List.drop_left, Nat.add_sub_cancel_left]
        exact List.take_left' rfl
      rw [hmine] at hjoined
      have hle := checkedAdd_eq hstop
      refine ⟨⟨e.path, e.file, e.header, base⟩ :: ps, ?_, ?_, ?_, ?_, ?_⟩
      · rw [List.forall_mem_cons]
        refine ⟨⟨⟨⟨hes.1.file, hes.1.header⟩, ?_, ?_⟩, Nat.le_refl base⟩, fun p hp => ⟨(hread p hp).1, ?_⟩⟩
        · show 0 < e.count
          omega
        · show base + (e.file.size - e.header.dataStart) ≤ sizeMax
          omega
        · have := (hread p hp).2
          omega
      · refine List.pairwise_cons.mpr ⟨fun p hp => ?_, hapart⟩
        have := (hread p hp).2
        show base + (e.file.size - e.header.dataStart) ≤ p.base
        omega
      · rw [List.flatMap_cons, List.flatMap_cons, hps]
      · rw [List.flatMap_cons, ← hoffsets, joinOffsets_eq hjoined, Part.offsets]
      · rw [segmentsFrom, hsegments, hlength]
        exact rfl

/-- What is read of a file, or of a set of shards, is put together of its files with tensors. -/
theorem readGguf_built {path : Bytes} {m : Model} (h : readGguf limits files path = .ok m) :
    ∃ ps, Built limits files m ps := by
  obtain ⟨⟨header, input⟩, hinput, h⟩ := exists_of_bind h
  obtain ⟨split, _, h⟩ := exists_of_bind h
  obtain ⟨table, htable, h⟩ := exists_of_bind h
  obtain ⟨⟨offsets, segments⟩, hlaid, h⟩ := exists_of_bind h
  obtain rfl := Except.ok.inj h
  obtain ⟨file, hsourced, rfl⟩ := readInput_ok hinput
  have hone : 0 + header.tensors.length = header.tensors.length := Nat.zero_add _
  obtain ⟨es, hes⟩ := readTable_listed hsourced htable
  rw [hes.inputs] at hlaid
  have htensors : table.tensors = [] ++ es.flatMap fun p => p.header.tensors := by
    rw [List.nil_append]
    exact hes.tensors
  obtain ⟨ps, hread, hapart, hps, hoffsets, hsegments⟩ :=
    layOut_parts hes.sourced htensors (Nat.zero_le _) hlaid
  refine ⟨ps, fun p hp => (hread p hp).1, hapart, ?_, hoffsets, hsegments, hes.names⟩
  rw [hps]
  exact hes.tensors

theorem segmentsFrom_append (first : Nat) (ps qs : List Part) :
    segmentsFrom first (ps ++ qs) =
      segmentsFrom first ps ++ segmentsFrom (first + before Part.count ps ps.length) qs := by
  induction ps generalizing first with
  | nil => simp [segmentsFrom]
  | cons p ps ih =>
    rw [List.cons_append, segmentsFrom, segmentsFrom, ih, List.length_cons, before_cons,
      Nat.add_assoc, List.cons_append]

/-- A model's payload ends where its last part does. -/
theorem Built.payloadSize {m : Model} {ps : List Part} {p : Part}
    (h : Built limits files m (ps ++ [p])) :
    m.payloadSize = p.stop ∧ ∀ q ∈ ps ++ [p], q.stop ≤ p.stop := by
  have hread := h.read p (by simp)
  constructor
  · unfold Model.payloadSize
    rw [h.segments, segmentsFrom_append, segmentsFrom, segmentsFrom, List.getLast?_concat]
    exact word_of_le hread.fits
  · intro q hq
    rcases List.mem_append.mp hq with hq | hq
    · have := (List.pairwise_append.mp h.apart).2.2 q hq p (by simp)
      unfold Part.stop at this ⊢
      omega
    · rw [List.mem_singleton.mp hq]

theorem Built.exists_last {m : Model} {ps : List Part} (h : Built limits files m ps)
    (hm : m.segments ≠ []) : ∃ qs p, ps = qs ++ [p] := by
  have hps : ps ≠ [] := by
    intro hnil
    rw [h.segments, hnil, segmentsFrom] at hm
    exact hm rfl
  exact ⟨ps.dropLast, ps.getLast hps, (List.dropLast_append_getLast hps).symm⟩

theorem raise_ok {σ α : Type} (a : α) (s : σ) :
    (raise (.ok a) : EStateM Error σ α) s = .ok a s := rfl

theorem pushTensors_ok {base : Nat} {ts : List TensorInfo} {offsets : List Nat} {m : Model}
    (hlength : offsets.length = ts.length) (hfit : ∀ o ∈ offsets, base + o ≤ sizeMax) :
    pushTensors base ts offsets m =
      .ok () { m with
        offsets := m.offsets ++ offsets.map (base + ·), tensors := m.tensors ++ ts } := by
  induction ts generalizing offsets m with
  | nil =>
    rw [pushTensors, List.eq_nil_of_length_eq_zero hlength, List.map_nil, List.append_nil,
      List.append_nil]
    exact rfl
  | cons t ts ih =>
    cases offsets with
    | nil => simp at hlength
    | cons o offsets =>
      rw [List.forall_mem_cons] at hfit
      rw [pushTensors, List.headD_cons, checkedAdd_of_le hfit.1, Triples.bind_ok (raise_ok _ m)]
      rw [Triples.modify_bind, List.tail_cons, ih (by simpa using hlength) hfit.2, List.map_cons]
      simp only [List.append_assoc, List.singleton_append]

def Segment.shift (base first : Nat) (s : Segment) : Segment :=
  { s with base := base + s.base, first := s.first + first }

theorem pushSegments_ok {base first : Nat} {ss : List Segment} {m : Model}
    (hfit : ∀ s ∈ ss, base + s.base ≤ sizeMax) :
    pushSegments base first ss m =
      .ok () { m with segments := m.segments ++ ss.map (Segment.shift base first) } := by
  induction ss generalizing m with
  | nil =>
    rw [pushSegments, List.map_nil, List.append_nil]
    exact rfl
  | cons s ss ih =>
    rw [List.forall_mem_cons] at hfit
    rw [pushSegments, checkedAdd_of_le hfit.1, Triples.bind_ok (raise_ok _ m)]
    rw [Triples.modify_bind, ih hfit.2, List.map_cons]
    simp only [List.append_assoc, List.singleton_append, Segment.shift]

/-- The join is refused before it changes anything, or what it makes has its offsets and its end in
a machine word. -/
def Fits (m other : Model) : Prop :=
  m.segments = [] ∨ other.segments = [] ∨
    ¬((m.tensors ++ other.tensors).map TensorInfo.name).Nodup ∨
      ∀ base, alignedSize m.payloadSize floatAlign = .ok base →
        sizeMax < base + other.offsets.headD 0 ∨ base + other.payloadSize ≤ sizeMax

def Part.shift (base : Nat) (p : Part) : Part := { p with base := base + p.base }

theorem segmentsFrom_shift (base first start : Nat) (ps : List Part) :
    (segmentsFrom start ps).map (Segment.shift base first) =
      segmentsFrom (first + start) (ps.map (Part.shift base)) := by
  induction ps generalizing start with
  | nil => rw [segmentsFrom, List.map_nil, List.map_nil, segmentsFrom]
  | cons p ps ih =>
    have hone : (p.segment start).shift base first =
        (p.shift base).segment (first + start) := by
      simp only [Part.segment, Segment.shift, Part.shift, Part.size, Nat.add_comm start]
    rw [segmentsFrom, List.map_cons, List.map_cons, segmentsFrom, ih, hone, Nat.add_assoc]
    exact rfl

/-- Two models put together of parts make one, the second's parts after the first's. -/
theorem Built.join {m other : Model} {ps qs : List Part} {base : Nat}
    (hm : Built limits files m ps) (ho : Built limits files other qs)
    (hnames : ((m.tensors ++ other.tensors).map TensorInfo.name).Nodup)
    (hbase : ∀ p ∈ ps, p.stop ≤ base) (hfit : ∀ q ∈ qs, base + q.stop ≤ sizeMax) :
    Built limits files
      { m with
        tensors := m.tensors ++ other.tensors
        offsets := m.offsets ++ other.offsets.map (base + ·)
        segments := m.segments ++ other.segments.map (Segment.shift base m.tensors.length) }
      (ps ++ qs.map (Part.shift base)) := by
  have hcount : m.tensors.length = before Part.count ps ps.length := by
    rw [hm.tensors, length_flatMap_before (w := Part.count) fun p => Eq.refl p.count]
  have hstop : ∀ q : Part, (q.shift base).stop = base + q.stop := by
    intro q
    simp only [Part.shift, Part.stop, Part.size, Nat.add_assoc]
  refine ⟨?_, ?_, ?_, ?_, ?_, hnames⟩
  · intro p hp
    rcases List.mem_append.mp hp with hp | hp
    · exact hm.read p hp
    · obtain ⟨q, hq, rfl⟩ := List.mem_map.mp hp
      have hread := ho.read q hq
      exact ⟨⟨hread.file, hread.header⟩, hread.holds, by rw [hstop]; exact hfit q hq⟩
  · refine List.pairwise_append.mpr ⟨hm.apart, ?_, ?_⟩
    · refine List.pairwise_map.mpr (ho.apart.imp fun {p q} hpq => ?_)
      rw [hstop]
      show base + p.stop ≤ base + q.base
      omega
    · intro p hp q' hq'
      obtain ⟨q, _, rfl⟩ := List.mem_map.mp hq'
      have := hbase p hp
      show p.stop ≤ base + q.base
      omega
  · rw [List.flatMap_append, ← hm.tensors, ho.tensors, List.flatMap_map]
    exact rfl
  · rw [List.flatMap_append, ← hm.offsets, ho.offsets, List.map_flatMap, List.flatMap_map]
    simp only [Part.offsets, Part.shift, List.map_map, Function.comp_def, Nat.add_assoc]
  · rw [segmentsFrom_append, ← hm.segments, ho.segments, segmentsFrom_shift, Nat.zero_add,
      Nat.add_zero, hcount]

theorem raise_error {σ α : Type} (e : Error) (s : σ) :
    (raise (.error e) : EStateM Error σ α) s = .error e s := rfl

/-- A join that fits is refused with nothing changed, or makes a model put together of parts. -/
theorem append_fits {m other : Model} {ps qs : List Part} (hm : Built limits files m ps)
    (ho : Built limits files other qs) (hfit : Fits m other) :
    (∃ e, append other m = .error e m) ∨
      ∃ m' rs, append other m = .ok () m' ∧ Built limits files m' rs := by
  unfold append
  by_cases hempty : m.segments.isEmpty = true ∨ other.segments.isEmpty = true
  · rw [if_pos hempty]
    exact Or.inl ⟨_, rfl⟩
  rw [if_neg hempty]
  simp only [List.isEmpty_iff, not_or] at hempty
  cases hinsert : insertNames other.tensors (m.tensors.map TensorInfo.name) with
  | error e => exact Or.inl ⟨e, rfl⟩
  | ok all =>
    cases hbase : alignedSize m.payloadSize floatAlign with
    | error e => exact Or.inl ⟨e, rfl⟩
    | ok base =>
      obtain ⟨_, hnodup, hnew⟩ := insertNames_ok hinsert
      have hnames : ((m.tensors ++ other.tensors).map TensorInfo.name).Nodup := by
        rw [List.map_append]
        refine List.nodup_append.mpr ⟨hm.names, hnodup, fun name hname name' hname' heq => ?_⟩
        subst heq
        exact hnew name hname' hname
      obtain ⟨ps', p, rfl⟩ := hm.exists_last hempty.1
      obtain ⟨qs', q, rfl⟩ := ho.exists_last hempty.2
      have hlength : other.offsets.length = other.tensors.length := by
        rw [ho.offsets, ho.tensors,
          length_flatMap_before (w := Part.count) (by simp [Part.offsets, Part.count]),
          length_flatMap_before (w := Part.count) fun p => Eq.refl p.count]
      have hsome : other.tensors ≠ [] := by
        intro hnil
        have hq := (ho.read q (by simp)).holds
        have htensors := ho.tensors
        rw [hnil, List.flatMap_append, List.flatMap_singleton] at htensors
        have hlen := congrArg List.length htensors
        rw [List.length_nil, List.length_append] at hlen
        unfold Part.count at hq
        omega
      rcases hfit with h | h | h | h
      · exact absurd h hempty.1
      · exact absurd h hempty.2
      · exact absurd hnames h
      · dsimp only
        rcases h base hbase with hover | hfit
        · cases htensors : other.tensors with
          | nil => exact absurd htensors hsome
          | cons t ts =>
            have hword : base ≤ sizeMax := by
              refine checkedAdd_le ?_ hbase
              rw [hm.payloadSize.1]
              exact (hm.read p (by simp)).fits
            have hraise : checkedAdd base (other.offsets.headD 0) =
                .error (.runtime "GGUF size addition overflow") := if_pos (by omega)
            have hpush : pushTensors base (t :: ts) other.offsets m =
                .error (.runtime "GGUF size addition overflow") m := by
              rw [pushTensors, hraise]
              exact Triples.bind_error (raise_error _ m)
            exact Or.inl ⟨_, Triples.bind_error hpush⟩
        · obtain ⟨hpayload, hends⟩ := hm.payloadSize
          obtain ⟨hpayload', hends'⟩ := ho.payloadSize
          have hafter := alignedSize_eq hbase
          have hq : ∀ r ∈ qs' ++ [q], base + r.stop ≤ sizeMax := by
            intro r hr
            have := hends' r hr
            omega
          have hoffsets : ∀ o ∈ other.offsets, base + o ≤ sizeMax := by
            intro o ho'
            rw [ho.offsets] at ho'
            obtain ⟨r, hr, ho'⟩ := List.mem_flatMap.mp ho'
            obtain ⟨t, ht, rfl⟩ := List.mem_map.mp ho'
            obtain ⟨_, _, hin, _⟩ := (ho.read r hr).tensor ht
            have := hq r hr
            unfold Part.stop at this
            omega
          have hsegments : ∀ s ∈ other.segments, base + s.base ≤ sizeMax := by
            intro s hs
            rw [ho.segments] at hs
            obtain ⟨k, hk⟩ := List.mem_iff_getElem?.mp hs
            rw [getElem?_segmentsFrom] at hk
            obtain ⟨r, hr, rfl⟩ := Option.map_eq_some_iff.mp hk
            have := hq r (List.mem_of_getElem? hr)
            unfold Part.stop at this
            show base + r.base ≤ sizeMax
            omega
          refine Or.inr ⟨_, _, ?_, hm.join ho hnames (fun r hr => ?_) hq⟩
          · rw [Triples.bind_ok (pushTensors_ok hlength hoffsets), pushSegments_ok hsegments]
          · have := hends r hr
            omega

/-- The models of files: read, or joined of two where the join fits. -/
inductive Joined (limits : Limits) (files : Files) : Model → Prop
  | read {path m} : readGguf limits files path = .ok m → Joined limits files m
  | append {m other m'} : Joined limits files m → Joined limits files other → Fits m other →
      append other m = .ok () m' → Joined limits files m'

theorem Joined.built {m : Model} (h : Joined limits files m) : ∃ ps, Built limits files m ps := by
  induction h with
  | read h => exact readGguf_built h
  | append _ _ hfit hrun ihm iho =>
    obtain ⟨ps, hm⟩ := ihm
    obtain ⟨qs, ho⟩ := iho
    rcases append_fits hm ho hfit with ⟨e, hrun'⟩ | ⟨m', rs, hrun', hbuilt⟩
    · rw [hrun] at hrun'
      cases hrun'
    · rw [hrun] at hrun'
      cases hrun'
      exact ⟨rs, hbuilt⟩

/-- In every run of joins that fit, each tensor is addressed in its own file, tensors of different
files lie apart, and a join that is refused changes nothing. -/
theorem joined_tensors_addressed {m : Model} (h : Joined limits files m) :
    (m.tensors.map TensorInfo.name).Nodup ∧
    (∀ (i : Nat) (t : TensorInfo), m.tensors[i]? = some t →
      ∃ path file header r n, files path = some file ∧
        readHeader limits (Reader.new file) = .ok header r ∧ t ∈ header.tensors ∧
        t.dataSize = .ok n ∧ m.span i = .ok ⟨path, header.dataStart + t.offset, n⟩ ∧
        header.dataStart + t.offset + n ≤ file.size) ∧
    (∀ (i k x y : Nat) (a b : FileSpan), m.span i = .ok a → m.span k = .ok b → a.path ≠ b.path →
      m.offsets[i]? = some x → m.offsets[k]? = some y → x + a.bytes ≤ y ∨ y + b.bytes ≤ x) ∧
    ∀ (other m' : Model) (e : Error), Joined limits files other → Fits m other →
      append other m = .error e m' → m' = m := by
  obtain ⟨ps, hm⟩ := h.built
  refine ⟨hm.names, ?_, ?_, ?_⟩
  · intro i t ht
    obtain ⟨k, p, j, n, hp, htj, _, hn, hfit, hspan⟩ := hm.tensor ht
    have hmem := List.mem_of_getElem? htj
    have hread := hm.read p (List.mem_of_getElem? hp)
    obtain ⟨r, hr⟩ := hread.header
    obtain ⟨_, _, _, hdata⟩ := hread.tensor hmem
    unfold Part.size at hfit
    exact ⟨p.path, p.file, p.header, r, n, hread.file, hr, hmem, hn, hspan, by omega⟩
  · intro i k x y a b ha hb hne hx hy
    exact hm.disjoint ha hb hne hx hy
  · intro other m' e hother hfit hrun
    obtain ⟨qs, ho⟩ := hother.built
    rcases append_fits hm ho hfit with ⟨e', hrun'⟩ | ⟨m'', rs, hrun', _⟩
    · rw [hrun] at hrun'
      cases hrun'
      exact rfl
    · rw [hrun] at hrun'
      cases hrun'

def hugeLimits : Limits :=
  ⟨2 ^ 60, 2 ^ 60, 2 ^ 60, 2 ^ 60, by decide, by decide, by decide, by decide⟩

/-- A file of a header and zeros. -/
def zeroFile (header : Bytes) (size : Nat) (h : size < 2 ^ 63) : File :=
  ⟨size, fun k => header.getD k 0, h⟩

/-- Sixteen floats. -/
def floats (name : Bytes) (offset : Nat) : TensorInfo := ⟨name, [16], 0, offset⟩

def oneTensor (name : Bytes) : Bytes := fileStart 1 0 ++ writeTensorInfo (floats name 0) 0

def twoTensors : Bytes :=
  fileStart 2 0 ++ (writeTensorInfo (floats (ascii ['e']) 0) 0 ++
    writeTensorInfo (floats (ascii ['f']) 128) 128)

/-- Two of the largest files, two small ones of one tensor and one of two. -/
def hugeFiles : Files := fun path =>
  if path = ascii ['a'] ∨ path = ascii ['b'] then
    some (zeroFile (oneTensor path) (2 ^ 63 - 1) (by decide))
  else if path = ascii ['c'] ∨ path = ascii ['d'] then
    some (zeroFile (oneTensor path) 224 (by decide))
  else if path = ascii ['e'] then some (zeroFile twoTensors 288 (by decide))
  else none

def modelOf : Except Error Model → Model
  | .ok m => m
  | .error _ => ⟨[], [], [], [], []⟩

def isRead : Except Error Model → Bool
  | .ok _ => true
  | .error _ => false

theorem eq_modelOf {x : Except Error Model} (h : isRead x = true) : x = .ok (modelOf x) := by
  cases x with
  | ok m => exact rfl
  | error e => cases h

def hugeModel (path : Char) : Model := modelOf (readGguf hugeLimits hugeFiles (ascii [path]))

/-- The model after a join, whether it was refused. -/
def joinOf (other m : Model) : Model × Bool :=
  match append other m with
  | .ok _ m' => (m', false)
  | .error _ m' => (m', true)

theorem append_joinOf {other m : Model} (h : (joinOf other m).2 = false) :
    append other m = .ok () (joinOf other m).1 := by
  unfold joinOf at h ⊢
  split at h
  next hrun => rw [hrun]
  next => cases h

theorem append_joinOf_error {other m : Model} (h : (joinOf other m).2 = true) :
    ∃ e, append other m = .error e (joinOf other m).1 := by
  unfold joinOf at h ⊢
  split at h
  next => cases h
  next e m' hrun => exact ⟨e, by rw [hrun]⟩

/-- Past the largest files a join runs over the machine's sizes: one makes the next file's tensor
overlap the first's, one is refused after a tensor was joined. -/
theorem overfull_joins :
    ∃ a b c d e ab abc abcd abe : Model,
      readGguf hugeLimits hugeFiles (ascii ['a']) = .ok a ∧
      readGguf hugeLimits hugeFiles (ascii ['b']) = .ok b ∧
      readGguf hugeLimits hugeFiles (ascii ['c']) = .ok c ∧
      readGguf hugeLimits hugeFiles (ascii ['d']) = .ok d ∧
      readGguf hugeLimits hugeFiles (ascii ['e']) = .ok e ∧
      append b a = .ok () ab ∧ append c ab = .ok () abc ∧ append d abc = .ok () abcd ∧
      (a.tensors[0]? = some (floats (ascii ['a']) 0) ∧
        abcd.tensors[0]? = some (floats (ascii ['a']) 0) ∧ abcd.offsets[0]? = some 0) ∧
      (d.tensors[0]? = some (floats (ascii ['d']) 0) ∧
        abcd.tensors[3]? = some (floats (ascii ['d']) 0) ∧ abcd.offsets[3]? = some 32) ∧
      (floats (ascii ['a']) 0).dataSize = .ok 64 ∧
      (∃ why, append e ab = .error why abe) ∧ ab.tensors.length = 2 ∧ abe.tensors.length = 3 := by
  refine ⟨hugeModel 'a', hugeModel 'b', hugeModel 'c', hugeModel 'd', hugeModel 'e',
    (joinOf (hugeModel 'b') (hugeModel 'a')).1,
    (joinOf (hugeModel 'c') (joinOf (hugeModel 'b') (hugeModel 'a')).1).1,
    (joinOf (hugeModel 'd')
      (joinOf (hugeModel 'c') (joinOf (hugeModel 'b') (hugeModel 'a')).1).1).1,
    (joinOf (hugeModel 'e') (joinOf (hugeModel 'b') (hugeModel 'a')).1).1,
    eq_modelOf ?_, eq_modelOf ?_, eq_modelOf ?_, eq_modelOf ?_, eq_modelOf ?_, append_joinOf ?_,
    append_joinOf ?_, append_joinOf ?_, ⟨?_, ?_, ?_⟩, ⟨?_, ?_, ?_⟩, rfl,
    append_joinOf_error ?_, ?_, ?_⟩
  all_goals decide +kernel

theorem hugeModel_addressed :
    ((hugeModel 'c').tensors.map TensorInfo.name).Nodup ∧
    (∀ (i : Nat) (t : TensorInfo), (hugeModel 'c').tensors[i]? = some t →
      ∃ path file header r n, hugeFiles path = some file ∧
        readHeader hugeLimits (Reader.new file) = .ok header r ∧ t ∈ header.tensors ∧
        t.dataSize = .ok n ∧ (hugeModel 'c').span i = .ok ⟨path, header.dataStart + t.offset, n⟩ ∧
        header.dataStart + t.offset + n ≤ file.size) ∧
    (∀ (i k x y : Nat) (a b : FileSpan), (hugeModel 'c').span i = .ok a →
      (hugeModel 'c').span k = .ok b → a.path ≠ b.path → (hugeModel 'c').offsets[i]? = some x →
      (hugeModel 'c').offsets[k]? = some y → x + a.bytes ≤ y ∨ y + b.bytes ≤ x) ∧
    ∀ (other m' : Model) (e : Error), Joined hugeLimits hugeFiles other →
      Fits (hugeModel 'c') other → append other (hugeModel 'c') = .error e m' →
      m' = hugeModel 'c' :=
  joined_tensors_addressed (Joined.read (eq_modelOf (by decide +kernel)))

end Gguf

end Llmx
