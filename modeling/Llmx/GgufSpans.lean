import Llmx.Fallible
import Llmx.GgufFiles

namespace Llmx

namespace Gguf

theorem checkedAdd_eq {a b c : Nat} (h : checkedAdd a b = .ok c) : c = a + b := by
  unfold checkedAdd at h
  split at h
  · cases h
  · exact (Except.ok.inj h).symm

theorem checkedAdd_le {a b c : Nat} (ha : a ≤ sizeMax) (h : checkedAdd a b = .ok c) :
    c ≤ sizeMax := by
  unfold checkedAdd at h
  split at h
  · cases h
  · obtain rfl := Except.ok.inj h
    omega

theorem checkedAdd_of_le {a b : Nat} (h : a + b ≤ sizeMax) : checkedAdd a b = .ok (a + b) :=
  if_neg (by omega)

theorem alignedSize_eq {n a c : Nat} (h : alignedSize n a = .ok c) :
    c = n + (a - n % a) % a :=
  checkedAdd_eq h

theorem readInput_some {limits : Limits} {files : Files} {path : Bytes} {file : File} {first : Nat}
    (h : files path = some file) :
    readInput limits files path first =
      inputOf limits path first file.size (readHeader limits (Reader.new file)) := by
  unfold readInput
  rw [h]

/-- The segment found for a tensor is the one between whose first tensor and the next one's it is. -/
theorem Model.segmentOf_eq {m : Model} {i j : Nat} {s : Segment} (hs : m.segments[j]? = some s)
    (hprev : ∀ (k : Nat) (t : Segment), k ≤ j → m.segments[k]? = some t → t.first ≤ i)
    (hnext : ∀ (k : Nat) (t : Segment), j < k → m.segments[k]? = some t → i < t.first) :
    m.segmentOf i = some s := by
  obtain ⟨hj, _⟩ := List.getElem?_eq_some_iff.mp hs
  unfold segmentOf
  generalize hp : (fun (k : Nat) => (m.segments[k]?).any fun (s : Segment) => decide (i < s.first)) = p
  have hat : ∀ k, k < m.segments.length → (p k = true ↔ j < k) := by
    intro k hk
    have hget := List.getElem?_eq_getElem hk
    rw [← hp]
    show ((m.segments[k]?).any fun s => decide (i < s.first)) = true ↔ j < k
    rw [hget, Option.any_some, decide_eq_true_iff]
    constructor
    · intro hlt
      by_contra hle
      have := hprev k _ (by omega) hget
      omega
    · intro hlt
      exact hnext k _ hlt hget
  have hmono : ∀ a b, a ≤ b → b < 0 + m.segments.length → p a = true → p b = true := by
    intro a b hab hb ha
    have := (hat a (by omega)).mp ha
    exact (hat b (by omega)).mpr (by omega)
  obtain ⟨_, hle, hfalse, htrue⟩ := upperBound_spec hmono
  generalize upperBound p 0 m.segments.length = u at hle hfalse htrue
  have hlow : j < u := by
    by_contra h
    have := (hat j hj).mp (htrue j (by omega) (by omega))
    omega
  have hhigh : u ≤ j + 1 := by
    by_contra h
    have hf := hfalse (j + 1) (by omega) (by omega)
    have ht := (hat (j + 1) (by omega)).mpr (by omega)
    rw [hf] at ht
    cases ht
  obtain rfl : u = j + 1 := by omega
  exact hs

theorem Model.place_eq {m : Model} {s : Segment} {i offset : Nat}
    (hoffset : m.offsets[i]? = some offset) (hlt : offset < 2 ^ 64) (hbase : s.base ≤ offset)
    (hstart : s.start + (offset - s.base) < 2 ^ 64) :
    m.place s i = s.start + (offset - s.base) := by
  have hget : m.offsets.getD i 0 = offset := by simp [List.getD, hoffset]
  unfold place word
  rw [hget]
  omega

theorem Model.span_eq {m : Model} {s : Segment} {i bytes : Nat} {t : TensorInfo}
    (hs : m.segmentOf i = some s) (ht : m.tensors[i]? = some t) (hbytes : t.dataSize = .ok bytes) :
    m.span i = .ok ⟨s.path, m.place s i, bytes⟩ := by
  unfold span tensorBytes
  rw [hs, ht]
  dsimp only
  rw [hbytes]
  exact rfl

theorem insertNames_of {ts : List TensorInfo} {names : List Bytes}
    (hnodup : (ts.map TensorInfo.name).Nodup)
    (hnew : ∀ name ∈ ts.map TensorInfo.name, name ∉ names) :
    insertNames ts names = .ok ((ts.map TensorInfo.name).reverse ++ names) := by
  induction ts generalizing names with
  | nil => rw [insertNames, List.map_nil, List.reverse_nil, List.nil_append]
  | cons t ts ih =>
    rw [List.map_cons, List.nodup_cons] at hnodup
    rw [List.map_cons, List.forall_mem_cons] at hnew
    rw [insertNames, if_neg hnew.1, ih hnodup.2]
    · simp
    · intro name hname hmem
      rcases List.mem_cons.mp hmem with rfl | hmem
      · exact hnodup.1 hname
      · exact hnew.2 name hname hmem

theorem insertNames_ok {ts : List TensorInfo} {names all : List Bytes}
    (h : insertNames ts names = .ok all) :
    all = (ts.map TensorInfo.name).reverse ++ names ∧ (ts.map TensorInfo.name).Nodup ∧
      ∀ name ∈ ts.map TensorInfo.name, name ∉ names := by
  induction ts generalizing names with
  | nil =>
    obtain rfl := Except.ok.inj h
    simp
  | cons t ts ih =>
    rw [insertNames] at h
    split at h
    · cases h
    next hname =>
      obtain ⟨hall, hnodup, hnew⟩ := ih h
      rw [List.map_cons, List.nodup_cons, List.forall_mem_cons]
      refine ⟨by simp [hall], ⟨fun hmem => ?_, hnodup⟩, hname, fun name hin hmem => ?_⟩
      · exact hnew t.name hmem List.mem_cons_self
      · exact hnew name hin (List.mem_cons_of_mem _ hmem)

end Gguf

end Llmx
