import Mathlib.Order.Lattice

namespace Llmx

/-- A map whose entries stand in the order of their keys. -/
structure SortedMap (κ α : Type) [LinearOrder κ] where
  entries : List (κ × α)
  sorted : entries.Pairwise fun a b => a.1 < b.1

namespace SortedMap

variable {κ α : Type} [LinearOrder κ]

def empty : SortedMap κ α := ⟨[], List.Pairwise.nil⟩

def find? (m : SortedMap κ α) (k : κ) : Option α :=
  (m.entries.find? fun e => decide (e.1 = k)).map Prod.snd

/-- The entries with `v` under `k`, at its place in the order. -/
def setIn (k : κ) (v : α) : List (κ × α) → List (κ × α)
  | [] => [(k, v)]
  | e :: entries =>
    if k < e.1 then (k, v) :: e :: entries
    else if k = e.1 then (k, v) :: entries
    else e :: setIn k v entries

theorem mem_setIn {k : κ} {v : α} {entries : List (κ × α)}
    (h : entries.Pairwise fun a b => a.1 < b.1) {e : κ × α} :
    e ∈ setIn k v entries ↔ e = (k, v) ∨ e ∈ entries ∧ e.1 ≠ k := by
  induction entries with
  | nil => simp [setIn]
  | cons a entries ih =>
    obtain ⟨hfirst, hrest⟩ := List.pairwise_cons.mp h
    simp only [setIn]
    split
    next hlt =>
      have hother : e ∈ a :: entries → e.1 ≠ k := by
        intro hmem
        rcases List.mem_cons.mp hmem with rfl | hmem
        · exact (ne_of_lt hlt).symm
        · exact (ne_of_lt (lt_trans hlt (hfirst e hmem))).symm
      rw [List.mem_cons]
      exact or_congr_right ⟨fun hmem => ⟨hmem, hother hmem⟩, fun hmem => hmem.1⟩
    next hnot =>
      split
      next heq =>
        have hother : e ∈ entries → e.1 ≠ k := by
          intro hmem
          rw [heq]
          exact (ne_of_lt (hfirst e hmem)).symm
        rw [List.mem_cons, List.mem_cons]
        refine or_congr_right ⟨fun hmem => ⟨Or.inr hmem, hother hmem⟩, ?_⟩
        intro hmem
        exact hmem.1.resolve_left fun he => hmem.2 (he ▸ heq.symm)
      next hne =>
        rw [List.mem_cons, ih hrest, List.mem_cons]
        have hkey : e = a → e.1 ≠ k := fun he heq => hne (he ▸ heq.symm)
        constructor
        · intro hmem
          rcases hmem with he | he | hmem
          · exact Or.inr ⟨Or.inl he, hkey he⟩
          · exact Or.inl he
          · exact Or.inr ⟨Or.inr hmem.1, hmem.2⟩
        · intro hmem
          rcases hmem with he | ⟨he | hmem, hk⟩
          · exact Or.inr (Or.inl he)
          · exact Or.inl he
          · exact Or.inr (Or.inr ⟨hmem, hk⟩)

theorem setIn_sorted {k : κ} {v : α} {entries : List (κ × α)}
    (h : entries.Pairwise fun a b => a.1 < b.1) :
    (setIn k v entries).Pairwise fun a b => a.1 < b.1 := by
  induction entries with
  | nil => simp [setIn]
  | cons a entries ih =>
    obtain ⟨hfirst, hrest⟩ := List.pairwise_cons.mp h
    simp only [setIn]
    split
    next hlt =>
      refine List.pairwise_cons.mpr ⟨fun b hb => ?_, h⟩
      rcases List.mem_cons.mp hb with rfl | hb
      · exact hlt
      · exact lt_trans hlt (hfirst b hb)
    next hnot =>
      split
      next heq => exact List.pairwise_cons.mpr ⟨fun b hb => heq ▸ hfirst b hb, hrest⟩
      next hne =>
        refine List.pairwise_cons.mpr ⟨fun b hb => ?_, ih hrest⟩
        rcases (mem_setIn hrest).mp hb with rfl | ⟨hb, -⟩
        · exact lt_of_le_of_ne (not_lt.mp hnot) fun he => hne he.symm
        · exact hfirst b hb

def set (m : SortedMap κ α) (k : κ) (v : α) : SortedMap κ α :=
  ⟨setIn k v m.entries, setIn_sorted m.sorted⟩

theorem mem_set {m : SortedMap κ α} {k : κ} {v : α} {e : κ × α} :
    e ∈ (m.set k v).entries ↔ e = (k, v) ∨ e ∈ m.entries ∧ e.1 ≠ k :=
  mem_setIn m.sorted

/-- What does not tell the new value of a key from the old reads the same of both maps. -/
theorem filterMap_set {β : Type} {g : κ × α → Option β} {m : SortedMap κ α} {k : κ} {v v' : α}
    (hold : (k, v') ∈ m.entries) (hsame : g (k, v) = g (k, v')) :
    (m.set k v).entries.filterMap g = m.entries.filterMap g := by
  obtain ⟨entries, sorted⟩ := m
  show (setIn k v entries).filterMap g = entries.filterMap g
  change (k, v') ∈ entries at hold
  induction entries with
  | nil => simp at hold
  | cons a entries ih =>
    obtain ⟨hfirst, hrest⟩ := List.pairwise_cons.mp sorted
    simp only [setIn]
    rcases List.mem_cons.mp hold with rfl | hmem
    · rw [if_neg (lt_irrefl k), if_pos rfl]
      simp only [List.filterMap_cons, hsame]
    · have hlt : a.1 < k := hfirst (k, v') hmem
      rw [if_neg (not_lt.mpr (le_of_lt hlt)), if_neg (ne_of_lt hlt).symm]
      simp only [List.filterMap_cons, ih hrest hmem]

end SortedMap

end Llmx
