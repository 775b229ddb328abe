import Llmx.GgufSafe
import Llmx.GgufWriter

namespace Llmx

namespace Gguf

open Stretches Triples

variable {α β : Type} {file : File} {limits : Limits} {p : Nat}

theorem File.slice_add (f : File) (p m n : Nat) :
    f.slice p (m + n) = f.slice p m ++ f.slice (p + m) n := by
  simp [File.slice, List.range_add, Nat.add_assoc]

@[simp] theorem File.length_slice (f : File) (p n : Nat) : (f.slice p n).length = n := by
  simp [File.slice]

/-- The file has `bytes` from `p` on. -/
def File.Holds (f : File) (p : Nat) (bytes : Bytes) : Prop :=
  p + bytes.length ≤ f.size ∧ f.slice p bytes.length = bytes

theorem File.holds_append {f : File} {b c : Bytes} :
    f.Holds p (b ++ c) ↔ f.Holds p b ∧ f.Holds (p + b.length) c := by
  unfold File.Holds
  rw [List.length_append, File.slice_add]
  constructor
  · intro h
    obtain ⟨hb, hc⟩ := List.append_inj h.2 (by simp)
    exact ⟨⟨by omega, hb⟩, by omega, hc⟩
  · intro h
    exact ⟨by omega, by rw [h.1.2, h.2.2]⟩

/-- Where the file has `bytes` at `p`, the read answers `a` and is past them. -/
def Yields (file : File) (p : Nat) (x : Read α) (bytes : Bytes) (a : α) : Prop :=
  file.Holds p bytes → ∀ log, ∃ log', x ⟨file, p, log⟩ = .ok a ⟨file, p + bytes.length, log'⟩

namespace Yields

variable {b c : Bytes} {a : α} {d : β}

theorem pure : Yields file p (Pure.pure a) [] a :=
  fun _ log => ⟨log, rfl⟩

theorem bind {x : Read α} {f : α → Read β} (hx : Yields file p x b a)
    (hf : Yields file (p + b.length) (f a) c d) : Yields file p (x >>= f) (b ++ c) d := by
  intro hbytes log
  obtain ⟨hb, hc⟩ := File.holds_append.mp hbytes
  obtain ⟨log', hx⟩ := hx hb log
  obtain ⟨log'', hf⟩ := hf hc log'
  refine ⟨log'', ?_⟩
  rw [bind_ok hx, hf, List.length_append, Nat.add_assoc]

/-- What is read last is followed by nothing. -/
theorem bind_pure {x : Read α} {f : α → β} (hx : Yields file p x b a) :
    Yields file p (do let a ← x; return f a) b (f a) := by
  have h := hx.bind (f := fun a => Pure.pure (f a)) Yields.pure
  rwa [List.append_nil] at h

theorem ite_neg {e : Prop} [Decidable e] {x y : Read α} (he : ¬e) (hy : Yields file p y b a) :
    Yields file p (if e then x else y) b a := by
  rwa [if_neg he]

theorem raise_bind {x : Except Error α} {f : α → Read β} (hx : x = .ok a)
    (hf : Yields file p (f a) c d) : Yields file p (Gguf.raise x >>= f) c d := by
  subst hx
  exact hf

theorem reserve_bind {count width : Nat} {f : Unit → Read β} (hf : Yields file p (f ()) c d) :
    Yields file p (reserve count width >>= f) c d := by
  intro hbytes log
  obtain ⟨log', hf⟩ := hf hbytes (⟨count, width, Reader.remaining ⟨file, p, log⟩⟩ :: log)
  exact ⟨log', hf⟩

end Yields

theorem remaining_of_holds {b : Bytes} (h : file.Holds p b) (log : List Reserve) :
    b.length ≤ Reader.remaining ⟨file, p, log⟩ := by
  have hin := h.1
  have hleft : Reader.remaining ⟨file, p, log⟩ = file.size - p :=
    Reader.remaining_eq (show p ≤ file.size by omega)
  rw [hleft]
  omega

namespace Yields

variable {b c : Bytes} {a : α} {d : β}

theorem require_bind {n : Nat} {f : Unit → Read β} (hn : n ≤ c.length)
    (hf : Yields file p (f ()) c d) : Yields file p (require n >>= f) c d := by
  intro hbytes log
  obtain ⟨log', hf⟩ := hf hbytes log
  refine ⟨log', ?_⟩
  have hroom := remaining_of_holds hbytes log
  rw [bind_ok (require_ok (hn.trans hroom))]
  exact hf

theorem remaining_bind {f : Nat → Read β} (hf : ∀ left, c.length ≤ left → Yields file p (f left) c d) :
    Yields file p (remaining >>= f) c d := by
  intro hbytes log
  exact hf _ (remaining_of_holds hbytes log) hbytes log

theorem streamRead : Yields file p (Gguf.streamRead b.length) b b := by
  intro hbytes log
  refine ⟨log, ?_⟩
  rw [streamRead_ok (r := ⟨file, p, log⟩) hbytes.1]
  show EStateM.Result.ok (file.slice p b.length) _ = _
  rw [hbytes.2]

theorem read : Yields file p (Gguf.read b.length) b b := by
  intro hbytes
  revert hbytes
  apply require_bind (Nat.le_refl _)
  intro hbytes log
  have hin := hbytes.1
  have hlt := file.size_lt
  exact ite_neg (by omega) streamRead hbytes log

end Yields

theorem leValue_leBytes {n v : Nat} (h : v < 256 ^ n) : leValue (leBytes n v) = v := by
  induction n generalizing v with
  | zero =>
    rw [Nat.pow_zero] at h
    show 0 = v
    omega
  | succ n ih =>
    rw [Nat.pow_succ] at h
    have hdiv := ih (v := v / 256) (by omega)
    have hbyte : (UInt8.ofNat (v % 256)).toNat = v % 256 := by simp
    show (UInt8.ofNat (v % 256)).toNat + 256 * leValue (leBytes n (v / 256)) = v
    rw [hbyte, hdiv]
    omega

theorem Yields.int {n v : Nat} (h : v < 256 ^ n) :
    Yields file p (readInt n) (leBytes n v) v := by
  have hread : Yields file p (Gguf.read n) (leBytes n v) (leBytes n v) := by
    have hlen := length_leBytes n v
    generalize leBytes n v = b at hlen
    subst hlen
    exact Yields.read
  have hint : Yields file p (readInt n) (leBytes n v) (leValue (leBytes n v)) := hread.bind_pure
  rwa [leValue_leBytes h] at hint

theorem Yields.string {s : Bytes} (h : s.length ≤ limits.string) :
    Yields file p (readString limits) (writeString s) s := by
  have hlt := limits.string_lt
  apply (Yields.int (by omega)).bind
  apply Yields.require_bind (Nat.le_refl _)
  apply Yields.ite_neg (by omega)
  apply Yields.reserve_bind
  by_cases hs : s.length = 0
  · rw [if_neg (by omega), List.eq_nil_of_length_eq_zero hs]
    exact Yields.pure
  · rw [if_pos hs]
    exact Yields.read

theorem Yields.scalar {n v : Nat} (value : Nat → MetaValue) (h : v < 256 ^ n) :
    Yields file p (readScalar n value) (leBytes n v) (value v) :=
  (Yields.int h).bind_pure

/-- A list is read back element by element. -/
theorem Yields.many {x : Read α} {write : α → Bytes} {l : List α}
    (h : ∀ a ∈ l, ∀ p, Yields file p x (write a) a) :
    Yields file p (readMany x l.length) (l.flatMap write) l := by
  induction l generalizing p with
  | nil => exact Yields.pure
  | cons a l ih =>
    rw [List.flatMap_cons, List.length_cons]
    apply (h a List.mem_cons_self p).bind
    apply Yields.bind_pure
    exact ih fun a' ha' => h a' (List.mem_cons_of_mem a ha')

end Gguf

end Llmx
