import Llmx.HubNames
import Mathlib.Logic.Function.Basic
import Mathlib.Algebra.BigOperators.Group.List.Basic

namespace Llmx

namespace Hub

variable {δ : Type}

/-- What a file's hash is begun with, of `size` bytes. -/
def hashHeader (lfs : Bool) (size : Nat) : Bytes :=
  if lfs then [] else text "blob " ++ decimal size ++ [0]

/-- The digest of a file's bytes as the manifest has it. -/
def digestOf (lfs : Bool) (bytes : Bytes) : Bytes :=
  (ShaStream.ofBytes lfs (hashHeader lfs bytes.length ++ bytes)).hex

/-- Bytes of a file's size and digest. -/
structure Genuine (file : HubFile) (bytes : Bytes) : Prop where
  size : bytes.length = file.size
  digest : digestOf file.lfs bytes = file.digest

/-- A file of a manifest stands at a path. -/
def Holds (d : Disk) (p : Path) (file : HubFile) : Prop :=
  ∃ bytes, d p = some (.file bytes) ∧ Genuine file bytes

theorem update_some {sha256 : Bool} {m data : Bytes} {s : ShaStream}
    (h : (ShaStream.ofBytes sha256 m).update data = some s) :
    s = ShaStream.ofBytes sha256 (m ++ data) := by
  by_cases hfits : m.length + data.length ≤ (2 ^ 64 - 1) / 8
  · rw [ShaStream.update_ofBytes sha256 hfits] at h
    exact (Option.some.inj h).symm
  · unfold ShaStream.update at h
    split at h
    next h0 =>
      rw [← Option.some.inj h, List.length_eq_zero_iff.mp h0, List.append_nil]
    next =>
      rw [if_pos (by show (2 ^ 64 - 1) / 8 - m.length < data.length; omega)] at h
      cases h

theorem fileHasher_some {file : HubFile} {hash : ShaStream} (h : fileHasher file = some hash) :
    hash = ShaStream.ofBytes file.lfs (hashHeader file.lfs file.size) := by
  unfold fileHasher at h
  unfold hashHeader
  cases hlfs : file.lfs with
  | true =>
    rw [hlfs, if_pos rfl] at h
    rw [if_pos rfl]
    exact (Option.some.inj h).symm
  | false =>
    rw [hlfs, if_neg Bool.false_ne_true] at h
    rw [if_neg Bool.false_ne_true]
    exact update_some (m := []) h

/-- An input read to its end was hashed and put out whole. -/
theorem consume_ok {sha256 : Bool} {rounds bytes : Nat} {input output m : Bytes}
    {done : ShaStream × Bytes}
    (h : consume rounds bytes input (ShaStream.ofBytes sha256 m) output = .ok done) :
    input.length = bytes ∧ done = (ShaStream.ofBytes sha256 (m ++ input), output ++ input) := by
  induction rounds generalizing bytes input output m with
  | zero => cases h
  | succ rounds ih =>
    rw [consume] at h
    split at h
    next hzero =>
      split at h
      next hnil =>
        rw [← Except.ok.inj h, hnil, List.append_nil, List.append_nil]
        exact ⟨hzero.symm, rfl⟩
      next => cases h
    next hpos =>
      split at h
      next => cases h
      next hlen =>
        split at h
        next => cases h
        next hash hup =>
          rw [update_some hup] at h
          obtain ⟨hrest, hdone⟩ := ih h
          have hsplit := List.take_append_drop (min bytes bufferBytes) input
          rw [List.append_assoc, List.append_assoc, hsplit] at hdone
          rw [List.length_drop] at hrest
          exact ⟨by omega, hdone⟩

theorem verified_true {d : Disk} {p : Path} {file : HubFile} (h : verified d p file = .ok true) :
    Holds d p file := by
  unfold verified at h
  split at h
  · cases h
  · cases h
  · cases h
  next bytes hp =>
    split at h
    next => cases h
    next hsize =>
      split at h
      next => cases h
      next hash hhash =>
        rw [fileHasher_some hhash] at h
        cases hdone : consume (file.size + 1) file.size bytes
            (ShaStream.ofBytes file.lfs (hashHeader file.lfs file.size)) [] with
        | error e =>
          rw [hdone] at h
          cases h
        | ok done =>
          rw [hdone] at h
          obtain ⟨-, heq⟩ := consume_ok hdone
          have hsize := not_not.mp hsize
          refine ⟨bytes, hp, hsize, ?_⟩
          have hdigest : (done.1.hex == file.digest) = true := Except.ok.inj h
          unfold digestOf
          rw [hsize, ← eq_of_beq hdigest, heq]

/-- Ranges one after another from `lo` to `hi`, none of them empty. -/
def Consecutive (size : Nat) : Nat → List ByteRange → Nat → Prop
  | lo, [], hi => lo = hi
  | lo, r :: rs, hi =>
    r.offset = lo ∧ 0 < r.length ∧ r.total = size ∧ Consecutive size (lo + r.length) rs hi

theorem Consecutive.sum {size lo hi : Nat} {rs : List ByteRange} (h : Consecutive size lo rs hi) :
    lo + (rs.map ByteRange.length).sum = hi := by
  induction rs generalizing lo with
  | nil => exact h
  | cons r rs ih =>
    obtain ⟨-, -, -, hrest⟩ := h
    have hsum := ih hrest
    rw [List.map_cons, List.sum_cons]
    omega

theorem rangesFrom_consecutive {size n : Nat} (left i : Nat) (hn : n ≤ size) (h : i + left = n)
    (hpos : 0 < n) :
    Consecutive size (size / n * i + min i (size % n)) (rangesFrom size n left i
      (size / n * i + min i (size % n))) size := by
  have hwidth : 0 < size / n := Nat.div_pos hn hpos
  have hmod := Nat.mod_lt size hpos
  induction left generalizing i with
  | zero =>
    have hi : i = n := by omega
    have hdiv := Nat.div_add_mod size n
    rw [Nat.mul_comm] at hdiv
    rw [hi, Nat.min_eq_right (Nat.le_of_lt hmod)]
    exact hdiv
  | succ left ih =>
    refine ⟨rfl, by show 0 < size / n + _; omega, rfl, ?_⟩
    have hnext : size / n * i + min i (size % n) + (size / n + if i < size % n then 1 else 0) =
        size / n * (i + 1) + min (i + 1) (size % n) := by
      rw [Nat.mul_succ]
      split_ifs <;> omega
    show Consecutive size (_ + (size / n + if i < size % n then 1 else 0))
      (rangesFrom size n left (i + 1) (_ + (size / n + if i < size % n then 1 else 0))) size
    rw [hnext]
    exact ih (i + 1) (by omega)

/-- The ranges of a file's streams follow one another over the file. -/
theorem ranges_consecutive {size n : Nat} (hpos : 0 < n) (hn : n ≤ size) :
    Consecutive size 0 (ranges size n) size := by
  have h := rangesFrom_consecutive n 0 hn (Nat.zero_add n) hpos
  rw [Nat.mul_zero, Nat.zero_min] at h
  exact h

theorem streamCount_le {parallel size : Nat} (h : streamCount parallel size ≠ 1)
    (hpos : 1 ≤ parallel) : 0 < streamCount parallel size ∧ streamCount parallel size ≤ size := by
  unfold streamCount at *
  have hmul := Nat.div_mul_le_self size minimumPart
  unfold minimumPart at *
  omega

theorem put_self (d : Disk) (p : Path) (n : Option Node) : d.put p n p = n := by
  unfold Disk.put
  exact Function.update_self _ _ _

theorem put_ne (d : Disk) {p q : Path} (n : Option Node) (h : q ≠ p) : d.put p n q = d q := by
  unfold Disk.put
  exact Function.update_of_ne h _ _

theorem components_head {c : UInt8} (hc : c ≠ slash) (s : Bytes) :
    ∃ part parts, components (c :: s) = (c :: part) :: parts := by
  rw [components, if_neg hc]
  exact ⟨_, _, rfl⟩

theorem destination_eq (o : PullOptions) (revision : Bytes) (file : HubFile) :
    destination o revision file =
      components (repoDirectory o.repo ++ text "/snapshots/" ++ revision) ++ components file.name := by
  unfold destination relativePath
  rw [List.append_assoc, List.singleton_append]
  exact components_append _ _

/-- A path that a temporary directory's is no part of. -/
def Outside (p : Path) : Prop := ∀ a b, ¬ [Pull.temporaryName a b] <+: p

theorem destination_outside (o : PullOptions) (revision : Bytes) (file : HubFile) :
    Outside (destination o revision file) := by
  intro a b hprefix
  have hm : ∃ rest, relativePath o revision file = 'm'.toUInt8 :: rest := ⟨_, rfl⟩
  obtain ⟨rest, hrest⟩ := hm
  obtain ⟨part, parts, hparts⟩ := components_head (c := 'm'.toUInt8) (by decide) rest
  unfold destination at hprefix
  rw [hrest, hparts] at hprefix
  obtain ⟨tail, htail⟩ := hprefix
  have hname : Pull.temporaryName a b = 'm'.toUInt8 :: part := (List.cons.inj htail).1
  have hdot : ∃ more, Pull.temporaryName a b = '.'.toUInt8 :: more := ⟨_, rfl⟩
  obtain ⟨more, hmore⟩ := hdot
  rw [hmore] at hname
  exact absurd (List.cons.inj hname).1 (by decide)

/-- No file of a manifest stands at another's path or on the way to it. -/
def Apart (o : PullOptions) (m : Manifest) : Prop :=
  ∀ (i j : Nat) (f g : HubFile), m.files[i]? = some f → m.files[j]? = some g →
    destination o m.revision f <+: destination o m.revision g → i = j

theorem apart_of_select {conv : Json.Conversion δ} {whole : δ → Option Nat}
    {metadata quant filename : Bytes} {m : Manifest} (o : PullOptions)
    (h : select conv whole metadata quant filename = .ok m) : Apart o m := by
  obtain ⟨hnodup, hslashes⟩ := select_files h
  intro i j f g hf hg hprefix
  have hlen : (destination o m.revision f).length = (destination o m.revision g).length := by
    rw [destination_eq, destination_eq, List.length_append, List.length_append,
      components_length f.name, components_length g.name, hslashes f (List.mem_of_getElem? hf) g (List.mem_of_getElem? hg)]
  have heq := hprefix.eq_of_length hlen
  rw [destination_eq, destination_eq] at heq
  have hname := components_injective (List.append_cancel_left heq)
  have hfi : (m.files.map HubFile.name)[i]? = some f.name := by rw [List.getElem?_map, hf]; rfl
  have hgj : (m.files.map HubFile.name)[j]? = some g.name := by rw [List.getElem?_map, hg]; rfl
  rw [hname] at hfi
  obtain ⟨hi, hfi⟩ := List.getElem?_eq_some_iff.mp hfi
  obtain ⟨hj, hgj⟩ := List.getElem?_eq_some_iff.mp hgj
  exact (hnodup.getElem_inj_iff).mp (hfi.trans hgj.symm)

end Hub

end Llmx
