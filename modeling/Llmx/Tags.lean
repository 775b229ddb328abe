import Mathlib.Data.List.DropRight
import Mathlib.Data.List.Infix

/-!
Finding a tag in a list that arrives in pieces: the first and the last place it
is at, and how much of the end may still begin it.
-/

namespace Tags

universe u

variable {α : Type u} [DecidableEq α]

/-- What comes before and after the first place the tag is at. -/
def split (tag : List α) : List α → Option (List α × List α)
  | [] => none
  | c :: cs =>
    if tag.isPrefixOf (c :: cs) then some ([], (c :: cs).drop tag.length)
    else (split tag cs).map fun (a, b) => (c :: a, b)

/-- What comes before and after the last place the tag is at. -/
def splitLast (tag : List α) : List α → Option (List α × List α)
  | [] => none
  | c :: cs =>
    match splitLast tag cs with
    | some (a, b) => some (c :: a, b)
    | none => if tag.isPrefixOf (c :: cs) then some ([], (c :: cs).drop tag.length) else none

def overlapFrom (tag s : List α) : Nat → Nat
  | 0 => 0
  | k + 1 => if (tag.take (k + 1)).isSuffixOf s then k + 1 else overlapFrom tag s k

/-- The length of the longest end of the list that begins the tag, shorter than the tag. -/
def overlap (tag s : List α) : Nat := overlapFrom tag s (min s.length (tag.length - 1))

/-- No end of the tag begins it, but the whole. -/
def Borderless (tag : List α) : Prop :=
  ∀ k < tag.length, k ≠ 0 → tag.take k ≠ tag.drop (tag.length - k)

instance (tag : List α) : Decidable (Borderless tag) :=
  inferInstanceAs (Decidable (∀ k < _, _))

variable {tag s a b h p x y : List α}

theorem split_eq (hs : split tag s = some (a, b)) : s = a ++ tag ++ b := by
  induction s generalizing a with
  | nil => cases hs
  | cons c cs ih =>
    rw [split] at hs
    split at hs
    next hpre =>
      obtain ⟨rfl, rfl⟩ := Prod.mk.inj (Option.some.inj hs)
      exact (List.prefix_iff_eq_append.mp (List.isPrefixOf_iff_prefix.mp hpre)).symm
    next =>
      obtain ⟨⟨a', b'⟩, hcs, he⟩ := Option.map_eq_some_iff.mp hs
      obtain ⟨rfl, rfl⟩ := Prod.mk.inj he
      rw [ih hcs]
      rfl

/-- More text leaves the first place where it is. -/
theorem split_more (hs : split tag s = some (a, b)) : split tag (s ++ y) = some (a, b ++ y) := by
  induction s generalizing a with
  | nil => cases hs
  | cons c cs ih =>
    have hlen := congrArg List.length (split_eq hs)
    rw [List.length_append, List.length_append] at hlen
    rw [split] at hs
    rw [List.cons_append, split]
    split at hs
    next hpre =>
      have hpre := List.isPrefixOf_iff_prefix.mp hpre
      obtain ⟨rfl, rfl⟩ := Prod.mk.inj (Option.some.inj hs)
      rw [if_pos, ← List.cons_append, List.drop_append_of_le_length hpre.length_le]
      rw [← List.cons_append]
      exact List.isPrefixOf_iff_prefix.mpr (hpre.trans (List.prefix_append _ y))
    next hpre =>
      obtain ⟨⟨a', b'⟩, hcs, he⟩ := Option.map_eq_some_iff.mp hs
      obtain ⟨rfl, rfl⟩ := Prod.mk.inj he
      rw [if_neg, ih hcs]
      · rfl
      · rw [List.isPrefixOf_iff_prefix] at hpre ⊢
        intro hlong
        refine hpre (List.prefix_of_prefix_length_le hlong ?_ (by omega))
        rw [← List.cons_append]
        exact List.prefix_append _ y

theorem splitLast_none (ht : tag ≠ []) : splitLast tag s = none ↔ ¬ tag <:+: s := by
  induction s with
  | nil => simpa [splitLast] using ht
  | cons c cs ih =>
    rw [List.infix_cons_iff, not_or, ← ih, splitLast]
    cases splitLast tag cs with
    | some r => simp
    | none => simp [List.isPrefixOf_iff_prefix]

theorem split_none_cons {c : α} {cs : List α} :
    split tag (c :: cs) = none ↔ ¬ tag <+: c :: cs ∧ split tag cs = none := by
  rw [split]
  split
  next hpre => simp [List.isPrefixOf_iff_prefix.mp hpre]
  next hpre =>
    rw [List.isPrefixOf_iff_prefix] at hpre
    simp [hpre]

/-- A list the tag is nowhere in. -/
theorem split_none (ht : tag ≠ []) : split tag s = none ↔ ¬ tag <:+: s := by
  induction s with
  | nil => simpa [split] using ht
  | cons c cs ih =>
    rw [split_none_cons, ih, List.infix_cons_iff, not_or]

theorem overlapFrom_le (tag s : List α) (n : Nat) : overlapFrom tag s n ≤ n := by
  induction n with
  | zero => exact le_rfl
  | succ k ih =>
    rw [overlapFrom]
    split
    · exact le_rfl
    · omega

theorem overlap_le (tag s : List α) : overlap tag s ≤ s.length :=
  (overlapFrom_le tag s _).trans (Nat.min_le_left _ _)

theorem overlapFrom_suffix (tag s : List α) (n : Nat) :
    tag.take (overlapFrom tag s n) <:+ s := by
  induction n with
  | zero => exact List.nil_suffix
  | succ k ih =>
    rw [overlapFrom]
    split
    next hsuf => exact List.isSuffixOf_iff_suffix.mp hsuf
    next => exact ih

theorem overlap_suffix (tag s : List α) : tag.take (overlap tag s) <:+ s :=
  overlapFrom_suffix tag s _

theorem le_overlapFrom {k n : Nat} (hk : k ≤ n) (hs : tag.take k <:+ s) :
    k ≤ overlapFrom tag s n := by
  induction n with
  | zero => exact hk
  | succ n ih =>
    rw [overlapFrom]
    split
    · exact hk
    next hno =>
      refine ih ?_
      by_contra hlt
      have he : k = n + 1 := by omega
      rw [he] at hs
      exact hno (List.isSuffixOf_iff_suffix.mpr hs)

/-- No longer end of the list begins the tag. -/
theorem le_overlap {k : Nat} (hk : k < tag.length) (hs : tag.take k <:+ s) :
    k ≤ overlap tag s := by
  refine le_overlapFrom (Nat.le_min.mpr ⟨?_, by omega⟩) hs
  have hlen := hs.length_le
  rw [List.length_take] at hlen
  omega

theorem overlap_lt (ht : tag ≠ []) : overlap tag s < tag.length := by
  have hpos := List.length_pos_iff.mpr ht
  have hle := overlapFrom_le tag s (min s.length (tag.length - 1))
  have hmin := Nat.min_le_right s.length (tag.length - 1)
  unfold overlap
  omega

theorem overlap_mono (hs : s <:+ x) : overlap tag s ≤ overlap tag x := by
  by_cases ht : tag = []
  · rw [ht]
    have hz : overlap ([] : List α) s = 0 := by
      have hle := overlapFrom_le ([] : List α) s (min s.length (0 - 1))
      have hmin := Nat.min_le_right s.length (0 - 1)
      unfold overlap
      simp only [List.length_nil]
      omega
    rw [hz]
    exact Nat.zero_le _
  · exact le_overlap (overlap_lt ht) ((overlap_suffix tag s).trans hs)

/-- What was let go holds no beginning of a place the longer list has. -/
theorem split_hold (hno : split tag (a ++ h) = none) (hk : overlap tag (a ++ h) ≤ h.length) :
    split tag (a ++ h ++ p) = (split tag (h ++ p)).map fun (x, y) => (a ++ x, y) := by
  induction a with
  | nil =>
    rw [List.nil_append]
    cases split tag (h ++ p) <;> rfl
  | cons c a ih =>
    obtain ⟨hpre, hno'⟩ := split_none_cons.mp hno
    have hk' : overlap tag (a ++ h) ≤ h.length :=
      (overlap_mono (List.suffix_cons c _)).trans hk
    rw [List.cons_append, List.cons_append, split, if_neg, ih hno' hk', Option.map_map]
    · rfl
    · rw [List.isPrefixOf_iff_prefix]
      intro hlong
      have hlen : (c :: (a ++ h)).length < tag.length := by
        by_contra hle
        exact hpre (List.prefix_of_prefix_length_le hlong (List.prefix_append _ p) (Nat.le_of_not_lt hle))
      have hbegin : tag.take (c :: (a ++ h)).length <:+ c :: (a ++ h) := by
        have hp : c :: (a ++ h) <+: tag :=
          List.prefix_of_prefix_length_le (List.prefix_append _ p) hlong hlen.le
        rw [← List.prefix_iff_eq_take.mp hp]
      have hle := (le_overlap hlen hbegin).trans hk
      rw [List.length_cons, List.length_append] at hle
      omega

theorem overlap_hold (hk : overlap tag (a ++ h) ≤ h.length) :
    overlap tag (a ++ h ++ p) = overlap tag (h ++ p) := by
  refine Nat.le_antisymm ?_ (overlap_mono (by rw [List.append_assoc]; exact List.suffix_append _ _))
  by_cases ht : tag = []
  · rw [ht]
    have hz : ∀ z : List α, overlap [] z = 0 := by
      intro z
      have hle := overlapFrom_le ([] : List α) z (min z.length (0 - 1))
      have hmin := Nat.min_le_right z.length (0 - 1)
      unfold overlap
      simp only [List.length_nil]
      omega
    rw [hz, hz]
  have hlt := overlap_lt (s := a ++ h ++ p) ht
  have hsuf := overlap_suffix tag (a ++ h ++ p)
  generalize overlap tag (a ++ h ++ p) = k at hlt hsuf ⊢
  have hlen : (tag.take k).length = k := by
    rw [List.length_take]
    omega
  by_cases hfit : k ≤ (h ++ p).length
  · refine le_overlap hlt (List.suffix_of_suffix_length_le hsuf ?_ (by rw [hlen]; exact hfit))
    rw [List.append_assoc]
    exact List.suffix_append _ _
  · exfalso
    rw [List.length_append] at hfit
    obtain ⟨z, hz⟩ := hsuf
    rcases List.append_eq_append_iff.mp hz with ⟨m, hm, hp⟩ | ⟨m, hm, hp⟩
    · have hcut := congrArg List.length hp
      rw [List.length_append, hlen] at hcut
      have hmt : m <+: tag :=
        (List.prefix_append m p).trans (by rw [← hp]; exact List.take_prefix _ _)
      have hmk : tag.take m.length <:+ a ++ h := by
        rw [← List.prefix_iff_eq_take.mp hmt]
        exact ⟨z, hm.symm⟩
      have hle := (le_overlap (by omega) hmk).trans hk
      omega
    · have hlast := congrArg List.length hp
      rw [List.length_append, hlen] at hlast
      omega

omit [DecidableEq α] in
/-- A proper end of a tag without border does not begin it. -/
theorem Borderless.not_prefix (hb : Borderless tag) {z : List α} (hx : x ≠ []) (hz : z ≠ [])
    (he : tag = x ++ z) : ¬ z <+: tag := by
  intro hpre
  have hxpos := List.length_pos_iff.mpr hx
  have hzpos := List.length_pos_iff.mpr hz
  have hlen : tag.length = x.length + z.length := by rw [he, List.length_append]
  refine hb z.length (by omega) (by omega) ?_
  rw [← List.prefix_iff_eq_take.mp hpre, he, List.length_append, Nat.add_sub_cancel,
    List.drop_left]

/-- A tag with no border put after a list without it is first found there. -/
theorem split_append (hb : Borderless tag) (ht : tag ≠ []) (hx : split tag x = none) :
    split tag (x ++ tag ++ y) = some (x, y) := by
  induction x with
  | nil =>
    obtain ⟨c, cs, rfl⟩ := List.exists_cons_of_ne_nil ht
    rw [List.nil_append, List.cons_append, split, if_pos, ← List.cons_append, List.drop_left]
    exact List.isPrefixOf_iff_prefix.mpr (List.prefix_append _ y)
  | cons c x ih =>
    obtain ⟨hpre, hx'⟩ := split_none_cons.mp hx
    have hassoc : c :: (x ++ tag ++ y) = c :: x ++ (tag ++ y) := by
      rw [List.append_assoc, List.cons_append]
    have hno : ¬ tag <+: c :: (x ++ tag ++ y) := by
      rw [hassoc]
      intro hlong
      have hlen : (c :: x).length < tag.length := by
        by_contra hle
        exact hpre (List.prefix_of_prefix_length_le hlong (List.prefix_append _ _)
          (Nat.le_of_not_lt hle))
      obtain ⟨z, hz⟩ := List.prefix_of_prefix_length_le (List.prefix_append (c :: x) (tag ++ y))
        hlong hlen.le
      have hne : z ≠ [] := by
        rintro rfl
        rw [List.append_nil] at hz
        rw [hz] at hlen
        exact absurd hlen (Nat.lt_irrefl _)
      obtain ⟨w, hw⟩ := hlong
      rw [← hz, List.append_assoc, List.append_cancel_left_eq, hz] at hw
      have hpart : z <+: tag := by
        refine List.prefix_of_prefix_length_le ⟨w, hw⟩ (List.prefix_append tag y) ?_
        rw [← hz, List.length_append]
        omega
      exact hb.not_prefix (List.cons_ne_nil c x) hne hz.symm hpart
    rw [List.cons_append, List.cons_append, split, if_neg, ih hx']
    · rfl
    · rwa [List.isPrefixOf_iff_prefix]

/-- A tag with no border put before a list without it is last found there. -/
theorem splitLast_append (hb : Borderless tag) (ht : tag ≠ []) (hy : splitLast tag y = none) :
    splitLast tag (x ++ tag ++ y) = some (x, y) := by
  have hend : ∀ v z : List α, v ≠ [] → tag = v ++ z → splitLast tag (z ++ y) = none := by
    intro v z
    induction z generalizing v with
    | nil => exact fun _ _ => hy
    | cons d z ih =>
      intro hv he
      have hrest := ih (v ++ [d]) (by simp) (by rw [he]; simp)
      rw [splitLast_none ht] at hrest ⊢
      rw [List.cons_append, List.infix_cons_iff, not_or]
      refine ⟨fun hlong => ?_, hrest⟩
      have hpre : d :: z <+: tag := by
        refine List.prefix_of_prefix_length_le (List.prefix_append (d :: z) y) hlong ?_
        rw [he, List.length_append]
        omega
      exact hb.not_prefix hv (List.cons_ne_nil d z) he hpre
  induction x with
  | nil =>
    obtain ⟨c, cs, rfl⟩ := List.exists_cons_of_ne_nil ht
    rw [List.nil_append, List.cons_append, splitLast, hend [c] cs (by simp) rfl]
    dsimp only
    rw [if_pos, ← List.cons_append, List.drop_left]
    exact List.isPrefixOf_iff_prefix.mpr (List.prefix_append _ y)
  | cons c x ih =>
    rw [List.cons_append, List.cons_append, splitLast, ih]

section Trim

variable {q : α → Bool}

omit [DecidableEq α]

/-- What trimming leaves whole is trimmed no further by what follows it. -/
theorem rdropWhile_append (ha : a.rdropWhile q = a) :
    (a ++ x).rdropWhile q = a ++ x.rdropWhile q := by
  induction x using List.reverseRecOn with
  | nil => rw [List.append_nil, ha, List.rdropWhile_nil, List.append_nil]
  | append_singleton xs c ih =>
    rw [← List.append_assoc]
    cases hc : q c with
    | true => rw [List.rdropWhile_concat_pos _ _ _ hc, List.rdropWhile_concat_pos _ _ _ hc, ih]
    | false =>
      rw [List.rdropWhile_concat_neg _ _ _ (by simp [hc]),
        List.rdropWhile_concat_neg _ _ _ (by simp [hc]), List.append_assoc]

theorem dropWhile_append (ha : a.dropWhile q ≠ []) : (a ++ x).dropWhile q = a.dropWhile q ++ x := by
  rw [List.dropWhile_append, if_neg (by simpa using ha)]

/-- The front may be trimmed before more is put behind it. -/
theorem dropWhile_trimmed : (a.dropWhile q ++ x).dropWhile q = (a ++ x).dropWhile q := by
  rw [List.dropWhile_append, List.dropWhile_append, List.dropWhile_idempotent]

theorem takeWhile_append (ha : a.dropWhile q ≠ []) : (a ++ x).takeWhile q = a.takeWhile q := by
  rw [List.takeWhile_append, if_neg]
  intro hlen
  have hsum := congrArg List.length (List.takeWhile_append_dropWhile (l := a) (p := q))
  rw [List.length_append, hlen] at hsum
  have hpos := List.length_pos_iff.mpr ha
  omega

theorem dropWhile_ne_nil (ha : a.rdropWhile q = a) (hne : a ≠ []) : a.dropWhile q ≠ [] := by
  intro hnil
  have hlast := List.rdropWhile_eq_self_iff.mp ha hne
  exact hlast (List.dropWhile_eq_nil_iff.mp hnil _ (List.getLast_mem hne))

theorem rdropWhile_dropWhile (ha : a.rdropWhile q = a) :
    (a.dropWhile q).rdropWhile q = a.dropWhile q := by
  rw [List.rdropWhile_eq_self_iff] at ha ⊢
  intro hne
  have hsuf := List.dropWhile_suffix (l := a) q
  rw [hsuf.getLast hne]
  exact ha (hsuf.ne_nil hne)

theorem rdropWhile_append_of_ne (hx : x.rdropWhile q ≠ []) :
    (a ++ x).rdropWhile q = a ++ x.rdropWhile q := by
  rw [List.rdropWhile, List.reverse_append, dropWhile_append, List.reverse_append,
    List.reverse_reverse]
  · rfl
  · exact fun hnil => hx (by rw [List.rdropWhile, hnil, List.reverse_nil])

/-- Either end may be trimmed first. -/
theorem dropWhile_rdropWhile :
    (a.rdropWhile q).dropWhile q = (a.dropWhile q).rdropWhile q := by
  induction a with
  | nil => rfl
  | cons c a ih =>
    have hcons : c :: a = [c] ++ a := rfl
    by_cases hnil : a.rdropWhile q = []
    · have hall : ∀ d ∈ a, q d = true := List.rdropWhile_eq_nil_iff.mp hnil
      have hdrop : a.dropWhile q = [] := List.dropWhile_eq_nil_iff.mpr hall
      cases hc : q c with
      | true =>
        have hright : (c :: a).rdropWhile q = [] :=
          List.rdropWhile_eq_nil_iff.mpr (by simpa [hc] using hall)
        rw [hright, List.dropWhile_cons, if_pos hc, hdrop]
        rfl
      | false =>
        rw [List.dropWhile_cons, if_neg (by simp [hc])]
        have hset : ([c] : List α).rdropWhile q = [c] := by
          rw [List.rdropWhile_singleton, if_neg (by simp [hc])]
        rw [hcons, rdropWhile_append hset, hnil, List.append_nil, List.dropWhile_cons,
          if_neg (by simp [hc])]
    · rw [hcons, rdropWhile_append_of_ne hnil]
      show List.dropWhile q (c :: _) = List.rdropWhile q (List.dropWhile q (c :: a))
      rw [List.dropWhile_cons, List.dropWhile_cons]
      split
      · exact ih
      · rw [hcons, rdropWhile_append_of_ne hnil]
        rfl

end Trim

end Tags
