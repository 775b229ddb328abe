import Llmx.DiskEviction

namespace Llmx

variable {D : Type} [DecidableEq D] {files : List (IndexFile D)}

/-- The file another stands on: of the other holders of the digest under it the last that ends at
it, or else the first. -/
def parentFile (files : List (IndexFile D)) (f : IndexFile D) : Option (IndexFile D) :=
  let holding := files.filter fun g => g ≠ f ∧ f.below ∈ g.ends
  (holding.filter fun g => g.ends.getLast? = some f.below).getLast?.or holding.head?

theorem foldl_pick {α : Type} (exact : α → Bool) (l : List α) (p : Option α) :
    l.foldl (fun p s => if p = none ∨ exact s = true then some s else p) p =
      (l.filter exact).getLast?.or (p.or l.head?) := by
  induction l generalizing p with
  | nil => simp
  | cons a l ih =>
    rw [List.foldl_cons, ih]
    by_cases ha : exact a = true
    · rw [if_pos (Or.inr ha), List.filter_cons_of_pos ha, List.getLast?_cons]
      cases (l.filter exact).getLast? <;> simp
    · rw [List.filter_cons_of_neg ha]
      cases p <;> simp [ha]

theorem parentFile_mem {f g : IndexFile D} (h : parentFile files f = some g) :
    g ∈ files ∧ f.below ∈ g.ends := by
  have hin : g ∈ files.filter fun g => g ≠ f ∧ f.below ∈ g.ends := by
    rcases Option.or_eq_some_iff.mp h with h | ⟨-, h⟩
    · exact List.mem_of_mem_filter (List.mem_of_getLast? h)
    · exact List.mem_of_head? h
  obtain ⟨hmem, hg⟩ := List.mem_filter.mp hin
  exact ⟨hmem, (of_decide_eq_true hg).2⟩

omit [DecidableEq D] in
/-- Files of different keys are at one index each. -/
theorem index_inj (hkeys : (files.map (·.key)).Nodup) {i j : Nat} {f : IndexFile D}
    (hi : files[i]? = some f) (hj : files[j]? = some f) : i = j := by
  obtain ⟨hlt, rfl⟩ := List.getElem?_eq_some_iff.mp hi
  apply (List.getElem?_inj hlt (List.Nodup.of_map _ hkeys)).mp
  rw [hj, List.getElem?_eq_getElem hlt]

theorem parentOf_eq (hkeys : (files.map (·.key)).Nodup) {i : Nat} {f : IndexFile D}
    (hf : files[i]? = some f) :
    (parentOf files i).map (fun s => (files[s]?).getD f) = parentFile files f := by
  have hat : ∀ s < files.length, files[s]? = some ((files[s]?).getD f) := by
    intro s hs
    rw [List.getElem?_eq_getElem hs, Option.getD_some]
  have hall : (List.range files.length).map (fun s => (files[s]?).getD f) = files := by
    apply List.ext_getElem (by simp)
    intro s h1 h2
    simp [h2]
  generalize hindices : ((holders files f.below).filter fun s => s ≠ i) = indices
  have hpick : parentOf files i =
      (indices.filter fun s => (endsAt files s).getLast? = some f.below).getLast?.or
        indices.head? := by
    have hfold := foldl_pick (fun s => decide ((endsAt files s).getLast? = some f.below)) indices
      none
    rw [Option.none_or] at hfold
    rw [← hfold, ← hindices, List.foldl_filter]
    unfold parentOf
    rw [hf, Option.bind_some]
    apply List.foldl_ext
    intro p s _
    by_cases hs : s = i <;> simp [hs]
  have hends : ∀ s < files.length, endsAt files s = ((files[s]?).getD f).ends := by
    intro s hs
    unfold endsAt
    rw [hat s hs, Option.map_some, Option.getD_some, Option.getD_some]
  have hlt : ∀ s ∈ indices, s < files.length := by
    intro s hs
    rw [← hindices] at hs
    exact List.mem_range.mp (List.mem_of_mem_filter (List.mem_of_mem_filter hs))
  have hholding : (files.filter fun g => g ≠ f ∧ f.below ∈ g.ends) =
      indices.map fun s => (files[s]?).getD f := by
    conv_lhs => rw [← hall]
    rw [List.filter_map, ← hindices, holders, List.filter_filter]
    congr 1
    apply List.filter_congr
    intro s hs
    have hs := List.mem_range.mp hs
    have hne : (files[s]?).getD f = f ↔ s = i := by
      constructor
      · intro h
        exact index_inj hkeys ((hat s hs).trans (congrArg some h)) hf
      · rintro rfl
        rw [hf, Option.getD_some]
    simp only [Function.comp_apply, hends s hs, ne_eq, hne, Bool.decide_and, decide_not]
  have hexact : (indices.map fun s => (files[s]?).getD f).filter
      (fun g => g.ends.getLast? = some f.below) =
      (indices.filter fun s => (endsAt files s).getLast? = some f.below).map
        fun s => (files[s]?).getD f := by
    rw [List.filter_map]
    congr 1
    apply List.filter_congr
    intro s hs
    rw [hends s (hlt s hs)]
    exact Eq.refl _
  unfold parentFile
  dsimp only
  rw [hholding, hexact, List.getLast?_map, List.head?_map, hpick, Option.map_or]

omit [DecidableEq D] in
theorem remove_eq_filter (hkeys : (files.map (·.key)).Nodup) (key : Nat) :
    (remove files key).2 = files.filter fun g => g.key ≠ key := by
  unfold remove
  induction files with
  | nil => exact Eq.refl _
  | cons g files ih =>
    rw [List.map_cons, List.nodup_cons] at hkeys
    by_cases hg : g.key = key
    · have hrest : files.filter (fun g => g.key ≠ key) = files := by
        apply List.filter_eq_self.mpr
        intro f hf
        apply decide_eq_true
        intro heq
        exact hkeys.1 (List.mem_map.mpr ⟨f, hf, heq.trans hg.symm⟩)
      simp only [List.eraseP_cons, List.filter_cons, hg, hrest]
      simp
    · rw [List.filter_cons_of_pos (by simp [hg]), ← ih hkeys.2]
      simp [hg]

/-- Where a file that is not the one another stands on goes, that one stands there still. -/
theorem parentFile_remove {f g : IndexFile D} {key : Nat} (hkeys : (files.map (·.key)).Nodup)
    (h : parentFile files f = some g) (hg : g.key ≠ key) :
    parentFile (remove files key).2 f = some g := by
  unfold parentFile at h ⊢
  dsimp only at h ⊢
  have hcomm : ∀ (p : IndexFile D → Bool) (l : List (IndexFile D)),
      (l.filter fun g => g.key ≠ key).filter p = (l.filter p).filter fun g => g.key ≠ key :=
    fun p l => List.filter_comm _ _ l
  rw [remove_eq_filter hkeys, hcomm]
  generalize (files.filter fun g => g ≠ f ∧ f.below ∈ g.ends) = holding at h ⊢
  rw [hcomm]
  generalize (holding.filter fun g => g.ends.getLast? = some f.below) = exact at h ⊢
  rcases List.eq_nil_or_concat exact with rfl | ⟨l, last, rfl⟩
  · rw [List.getLast?_nil, Option.none_or] at h
    obtain ⟨t, rfl⟩ := List.head?_eq_some_iff.mp h
    rw [List.filter_nil, List.getLast?_nil, Option.none_or, List.filter_cons_of_pos (by simp [hg]),
      List.head?_cons]
  · rw [List.concat_eq_append] at h ⊢
    rw [List.getLast?_concat, Option.some_or] at h
    obtain rfl := Option.some.inj h
    rw [List.filter_append, List.filter_cons_of_pos (by simp [hg])]
    simp

/-- The second is the first file or stands on it, others between them. -/
inductive Above (files : List (IndexFile D)) : IndexFile D → IndexFile D → Prop
  | self {f} : Above files f f
  | step {f g h} : h ∈ files → parentFile files h = some f → Above files h g → Above files f g

/-- What lies beyond a file: itself, and on a state what stands on its segment at or above its
position. -/
def Beyond (files : List (IndexFile D)) (f h : IndexFile D) : Prop :=
  h = f ∨ f.state = true ∧ ∃ p, parentFile files f = some p ∧ h ∈ files ∧
    parentFile files h = some p ∧ f.endTok ≤ h.first

/-- A conversation of the file came back: some file beyond it, or above one beyond it, did. -/
def CameBack (files : List (IndexFile D)) (f : IndexFile D) : Prop :=
  ∃ h g, Beyond files f h ∧ Above files h g ∧ g.back = true

theorem Above.remove {v : IndexFile D} (hkeys : (files.map (·.key)).Nodup)
    (hv : ∀ h ∈ files, parentFile files h ≠ some v) {f g : IndexFile D} (h : Above files f g)
    (hf : f ∈ files) (hg : g ≠ v) (hkey : ∀ x ∈ files, x.key = v.key → x = v) :
    Above (remove files v.key).2 f g := by
  induction h with
  | self => exact .self
  | @step f g h hh hparent habove ih =>
    have hhv : h.key ≠ v.key := by
      intro heq
      obtain rfl := hkey h hh heq
      cases habove with
      | self => exact hg (Eq.refl _)
      | step hmem hp _ => exact hv _ hmem hp
    have hfv : f.key ≠ v.key := by
      intro heq
      rw [hkey f hf heq] at hparent
      exact hv h hh hparent
    exact .step ((mem_remove hkeys).mpr ⟨hh, hhv⟩) (parentFile_remove hkeys hparent hfv)
      (ih hh hg)

/-- Where nothing stands on a file, and it did not come back, the others' conversations came back
with it or without. -/
theorem CameBack.remove {v f : IndexFile D} (hkeys : (files.map (·.key)).Nodup) (hmem : v ∈ files)
    (hv : ∀ h ∈ files, parentFile files h ≠ some v) (hback : v.back = false)
    (h : CameBack files f) (hf : f ∈ (remove files v.key).2) :
    CameBack (remove files v.key).2 f := by
  obtain ⟨hfm, hfv⟩ := (mem_remove hkeys).mp hf
  obtain ⟨x, g, hbeyond, habove, hg⟩ := h
  have hkey : ∀ x ∈ files, x.key = v.key → x = v := fun x hx heq =>
    List.inj_on_of_nodup_map hkeys hx hmem heq
  have hgv : g ≠ v := by
    rintro rfl
    rw [hback] at hg
    cases hg
  have hx : x ∈ files := by
    rcases hbeyond with rfl | ⟨-, p, -, hx, -⟩
    · exact hfm
    · exact hx
  refine ⟨x, g, ?_, habove.remove hkeys hv hx hgv hkey, hg⟩
  rcases hbeyond with rfl | ⟨hstate, p, hfp, -, hxp, hpos⟩
  · exact Or.inl (Eq.refl _)
  · have hpv : p.key ≠ v.key := by
      intro heq
      rw [hkey p (parentFile_mem hfp).1 heq] at hfp
      exact hv f hfm hfp
    have hxv : x.key ≠ v.key := by
      intro heq
      obtain rfl := hkey x hx heq
      cases habove with
      | self => exact hgv (Eq.refl _)
      | step hmem hp _ => exact hv _ hmem hp
    exact Or.inr ⟨hstate, p, parentFile_remove hkeys hfp hpv, (mem_remove hkeys).mpr ⟨hx, hxv⟩,
      parentFile_remove hkeys hxp hpv, hpos⟩

/-- The index of the file another stands on. -/
theorem parentOf_of_parentFile (hkeys : (files.map (·.key)).Nodup) {i j : Nat}
    {f g : IndexFile D} (hf : files[i]? = some f) (hg : files[j]? = some g)
    (h : parentFile files f = some g) : parentOf files i = some j := by
  rw [← parentOf_eq hkeys hf] at h
  obtain ⟨s, hs, hget⟩ := Option.map_eq_some_iff.mp h
  obtain ⟨x, hx, -⟩ := mem_holders.mp ((parentOf_spec hf).1 s hs).1
  rw [hx, Option.getD_some] at hget
  rw [hs, index_inj hkeys hx (hg.trans (congrArg some hget.symm))]

theorem not_parentFile (hkeys : (files.map (·.key)).Nodup) {i : Nat} {v : IndexFile D}
    (hv : files[i]? = some v) (hleaf : childrenOf files i = 0) :
    ∀ h ∈ files, parentFile files h ≠ some v := by
  intro h hh hp
  obtain ⟨j, hj⟩ := List.getElem?_of_mem hh
  exact not_parent_of_childrenOf hleaf j (parentOf_of_parentFile hkeys hj hv hp)

/-- Files counted that start before a file. -/
def startsBefore (files : List (IndexFile D)) (n : Nat) : Nat :=
  files.countP fun g => g.first < n

omit [DecidableEq D] in
theorem startsBefore_lt {f g : IndexFile D} (hg : g ∈ files) (h : g.first < f.first) :
    startsBefore files g.first + 1 ≤ startsBefore files f.first := by
  obtain ⟨l, r, rfl⟩ := List.append_of_mem hg
  have hmono : ∀ xs : List (IndexFile D), startsBefore xs g.first ≤ startsBefore xs f.first := by
    intro xs
    apply List.countP_mono_left
    intro x _ hx
    have hx := of_decide_eq_true hx
    exact decide_eq_true (by omega)
  have hl := hmono l
  have hr := hmono r
  have hcount : ∀ n, startsBefore (l ++ g :: r) n =
      startsBefore l n + (startsBefore r n + if g.first < n then 1 else 0) := by
    intro n
    unfold startsBefore
    rw [List.countP_append, List.countP_cons]
    simp
  rw [hcount, hcount, if_pos h, if_neg (by omega)]
  omega

theorem depthFrom_le (hplaced : Placed files) (fuel : Nat) {i : Nat} {f : IndexFile D}
    (hf : files[i]? = some f) :
    depthFrom files fuel (parentOf files i) ≤ startsBefore files f.first := by
  induction fuel generalizing i f with
  | zero => exact Nat.zero_le _
  | succ fuel ih =>
    cases hp : parentOf files i with
    | none => exact Nat.zero_le _
    | some p =>
      obtain ⟨g, hg, -⟩ := mem_holders.mp ((parentOf_spec hf).1 p hp).1
      have hlt := (parentOf_first_lt hplaced hf hg hp).2
      have hstep := startsBefore_lt (List.mem_of_getElem? hg) hlt
      have hup := ih hg
      show depthFrom files fuel (parentOf files p) + 1 ≤ _
      omega

theorem depthFrom_succ {fuel : Nat} {p : Option Nat} (h : depthFrom files fuel p < fuel) :
    depthFrom files (fuel + 1) p = depthFrom files fuel p := by
  induction fuel generalizing p with
  | zero => omega
  | succ fuel ih =>
    cases p with
    | none => exact Eq.refl _
    | some p =>
      have hlt : depthFrom files fuel (parentOf files p) < fuel := by
        have h' : depthFrom files fuel (parentOf files p) + 1 < fuel + 1 := h
        omega
      show depthFrom files (fuel + 1) (parentOf files p) + 1 =
        depthFrom files fuel (parentOf files p) + 1
      rw [ih hlt]

/-- A file is deeper than the one it stands on. -/
theorem depth_lt (hplaced : Placed files) {c i : Nat} {h f : IndexFile D}
    (hc : files[c]? = some h) (hi : files[i]? = some f) (hp : parentOf files c = some i) :
    depthFrom files (files.length + 1) (parentOf files i) <
      depthFrom files (files.length + 1) (parentOf files c) := by
  have hlt := (parentOf_first_lt hplaced hc hi hp).2
  have hbound := depthFrom_le hplaced files.length hi
  have hstep := startsBefore_lt (List.mem_of_getElem? hi) hlt
  have hall : startsBefore files h.first ≤ files.length := List.countP_le_length
  have hsame := depthFrom_succ (show depthFrom files files.length (parentOf files i) < files.length
    by omega)
  rw [hp, hsame]
  exact Nat.lt_succ_self _

/-- A file's mark goes up to the one it stands on. -/
def raiseMark (files : List (IndexFile D)) (sub : List Bool) (i : Nat) : List Bool :=
  match parentOf files i, sub[i]? with
  | some p, some x => sub.modify p fun y => y || x
  | _, _ => sub

theorem gather_back :
    gather files (·.back) (· || ·) = (linkOrder files).foldl (raiseMark files) (files.map (·.back)) := by
  unfold gather
  apply List.foldl_ext
  intro sub i _
  unfold raiseMark
  cases parentOf files i <;> cases sub[i]? <;> exact Eq.refl _

theorem raiseMark_mono {sub : List Bool} {k : Nat} (i : Nat) (h : sub[k]? = some true) :
    (raiseMark files sub i)[k]? = some true := by
  unfold raiseMark
  split
  next p x _ _ =>
    rw [List.getElem?_modify, h]
    split <;> simp
  next => exact h

theorem raiseMarks_mono {sub : List Bool} {k : Nat} (l : List Nat) (h : sub[k]? = some true) :
    (l.foldl (raiseMark files) sub)[k]? = some true := by
  induction l generalizing sub with
  | nil => exact h
  | cons i l ih => exact ih (raiseMark_mono i h)

theorem length_raiseMarks (l : List Nat) (sub : List Bool) :
    (l.foldl (raiseMark files) sub).length = sub.length := by
  induction l generalizing sub with
  | nil => exact Eq.refl _
  | cons i l ih =>
    rw [List.foldl_cons, ih]
    unfold raiseMark
    split
    · exact List.length_modify _ _ _
    · exact Eq.refl _

theorem raiseMark_parent {sub : List Bool} {c i : Nat} (hp : parentOf files c = some i)
    (hc : sub[c]? = some true) (hi : i < sub.length) : (raiseMark files sub c)[i]? = some true := by
  unfold raiseMark
  rw [hp, hc]
  dsimp only
  rw [List.getElem?_modify, List.getElem?_eq_getElem hi]
  simp

theorem linkOrder_sorted (files : List (IndexFile D)) :
    (linkOrder files).Pairwise fun a b =>
      depthFrom files (files.length + 1) (parentOf files b) ≤
        depthFrom files (files.length + 1) (parentOf files a) := by
  have htotal : Std.Total fun a b => depthFrom files (files.length + 1) (parentOf files b) ≤
      depthFrom files (files.length + 1) (parentOf files a) := ⟨fun a b => Nat.le_total _ _⟩
  have htrans : IsTrans Nat fun a b => depthFrom files (files.length + 1) (parentOf files b) ≤
      depthFrom files (files.length + 1) (parentOf files a) := ⟨fun a b c hab hbc => hbc.trans hab⟩
  exact List.pairwise_insertionSort _ _

/-- When a file's turn comes, its mark says whether any above it came back. -/
theorem marked_at_turn (hplaced : Placed files) (hkeys : (files.map (·.key)).Nodup)
    {f g : IndexFile D} (h : Above files f g) (hg : g.back = true) {i : Nat}
    (hi : files[i]? = some f) {before after : List Nat}
    (hsplit : linkOrder files = before ++ i :: after) :
    (before.foldl (raiseMark files) (files.map (·.back)))[i]? = some true := by
  induction h generalizing i before after with
  | self =>
    apply raiseMarks_mono
    rw [List.getElem?_map, hi, Option.map_some, hg]
  | @step f g h hh hparent _ ih =>
    obtain ⟨c, hc⟩ := List.getElem?_of_mem hh
    have hp := parentOf_of_parentFile hkeys hc hi hparent
    have hdepth := depth_lt hplaced hc hi hp
    have hcin : c ∈ linkOrder files :=
      (List.perm_insertionSort _ _).mem_iff.mpr
        (List.mem_range.mpr (List.getElem?_eq_some_iff.mp hc).1)
    have hsorted := linkOrder_sorted files
    rw [hsplit] at hcin hsorted
    have hbefore : c ∈ before := by
      rcases List.mem_append.mp hcin with hin | hin
      · exact hin
      · rcases List.mem_cons.mp hin with rfl | hin
        · omega
        · have hle := (List.pairwise_cons.mp (List.pairwise_append.mp hsorted).2.1).1 c hin
          omega
    obtain ⟨l, r, rfl⟩ := List.append_of_mem hbefore
    have hmark := ih hg hc (by rw [hsplit, List.append_assoc, List.cons_append])
    rw [List.foldl_append, List.foldl_cons]
    apply raiseMarks_mono
    apply raiseMark_parent hp hmark
    rw [length_raiseMarks, List.length_map]
    exact (List.getElem?_eq_some_iff.mp hi).1

/-- The mark gathered at a file says whether any above it came back. -/
theorem gather_of_above (hplaced : Placed files) (hkeys : (files.map (·.key)).Nodup)
    {f g : IndexFile D} (h : Above files f g) (hg : g.back = true) {i : Nat}
    (hi : files[i]? = some f) : (gather files (·.back) (· || ·))[i]? = some true := by
  have hin : i ∈ linkOrder files :=
    (List.perm_insertionSort _ _).mem_iff.mpr
      (List.mem_range.mpr (List.getElem?_eq_some_iff.mp hi).1)
  obtain ⟨before, after, hsplit⟩ := List.append_of_mem hin
  rw [gather_back, hsplit, List.foldl_append]
  exact raiseMarks_mono _ (marked_at_turn hplaced hkeys h hg hi hsplit)

/-- A file whose conversation came back is marked so. -/
theorem backOf_of_cameBack (hplaced : Placed files) (hkeys : (files.map (·.key)).Nodup)
    {i : Nat} {f : IndexFile D} (hi : files[i]? = some f) (h : CameBack files f) :
    backOf files i = true := by
  obtain ⟨x, g, hbeyond, habove, hg⟩ := h
  have hor : ∀ (l : List Bool) (b : Bool), b = true ∨ true ∈ l → l.foldl (· || ·) b = true := by
    intro l
    induction l with
    | nil => exact fun b hb => hb.resolve_right List.not_mem_nil
    | cons a l ih =>
      intro b hb
      apply ih
      rcases hb with rfl | hb
      · exact Or.inl (Bool.true_or a)
      · rcases List.mem_cons.mp hb with rfl | hb
        · exact Or.inl (Bool.or_true b)
        · exact Or.inr hb
  have hlt := (List.getElem?_eq_some_iff.mp hi).1
  have hlen : (gather files (·.back) (· || ·)).length = files.length := by
    rw [gather_back, length_raiseMarks, List.length_map]
  unfold backOf withBeyond
  dsimp only
  rw [List.getElem?_eq_getElem (by omega), Option.map_some, Option.getD_some]
  apply hor
  rcases hbeyond with rfl | ⟨hstate, p, hfp, hx, hxp, hpos⟩
  · left
    have hmark := gather_of_above hplaced hkeys habove hg hi
    rw [List.getElem?_eq_getElem (by omega)] at hmark
    exact Option.some.inj hmark
  · obtain ⟨j, hj⟩ := List.getElem?_of_mem hx
    obtain ⟨s, hs⟩ := List.getElem?_of_mem (parentFile_mem hfp).1
    have hmark := gather_of_above hplaced hkeys habove hg hj
    by_cases hji : j = i
    · left
      rw [hji, List.getElem?_eq_getElem (by omega)] at hmark
      exact Option.some.inj hmark
    · right
      apply List.mem_filterMap.mpr
      refine ⟨j, ?_, hmark⟩
      unfold beyond
      rw [hi]
      dsimp only
      rw [if_pos hstate, parentOf_of_parentFile hkeys hi hs hfp]
      apply List.mem_filter.mpr
      refine ⟨List.mem_filter.mpr ⟨List.mem_range.mpr (List.getElem?_eq_some_iff.mp hj).1, ?_⟩, ?_⟩
      · exact decide_eq_true (parentOf_of_parentFile hkeys hj hs hxp)
      · rw [hj]
        apply decide_eq_true
        refine ⟨hji, fun hbad => ?_⟩
        have hlow := of_decide_eq_true hbad.2
        omega

end Llmx
