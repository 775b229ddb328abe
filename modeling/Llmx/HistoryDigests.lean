import Llmx.Stretches
import Mathlib.Data.List.Basic
import Mathlib.Data.List.TakeWhile

namespace Llmx

open Stretches

/-- What computed a row: its class's key, as large as a vector may be, and the digest of the image
whose row it is, all zero for text. -/
structure RowClass where
  key : List UInt64
  image : Vector UInt8 32
  size_lt : key.length < 256 ^ 8
deriving DecidableEq

/-- A stretch of a history's rows that one class computed: the rows before `endRow`, from the
stretch before it on. -/
structure ClassRun extends RowClass where
  endRow : Nat
deriving DecidableEq

/-- The hash, as the 64 hexadecimal digits of its value. -/
structure Sha where
  hex : List UInt8 → List UInt8
  length_hex : ∀ bytes, (hex bytes).length = 64

/-- The digest of no block. -/
def root : List UInt8 := List.replicate 64 48

def textImage : Vector UInt8 32 := Vector.replicate 32 0

/-- Where the stretch from `c` on ends, a class recorded in two stretches counting as one. -/
def stretchEnd (limit : Nat) (cls : RowClass) : ClassRun → List ClassRun → Nat
  | c, [] => c.endRow
  | c, c' :: cs =>
    if c.endRow < limit ∧ c'.toRowClass = cls then stretchEnd limit cls c' cs else c.endRow

/-- The classes of the block's rows from `row` on, as stretches, and the runs left; `none` where
the classes end before the rows. -/
def blockStretches (start limit : Nat) :
    Nat → List ClassRun → Nat → Option (List (Nat × RowClass) × List ClassRun)
  | 0, cs, row => if row < limit then none else some ([], cs)
  | fuel + 1, cs, row =>
    if row < limit then
      match cs.dropWhile (fun c => c.endRow ≤ row) with
      | [] => none
      | c :: cs =>
        let stop := min (stretchEnd limit c.toRowClass c cs) limit - start
        (blockStretches start limit fuel (c :: cs) (start + stop)).map fun (ss, cs) =>
          ((stop, c.toRowClass) :: ss, cs)
    else some ([], cs)

/-- A stretch as the hash reads it: where it ends within the block, its key and, for an image,
the image's digest. -/
def spellStretch (s : Nat × RowClass) : List UInt8 :=
  leBytes 8 s.1 ++ (leBytes 8 s.2.key.length ++ (s.2.key.flatMap (fun v => leBytes 8 v.toNat) ++
    if s.2.image = textImage then [] else s.2.image.toList))

def spell (ss : List (Nat × RowClass)) : List UInt8 := ss.flatMap spellStretch

/-- What the hash reads for a block: the digest before it, its tokens and its stretches. -/
def blockBytes (digest : List UInt8) (tokens : List UInt32) (ss : List (Nat × RowClass)) :
    List UInt8 :=
  digest ++ (tokens.flatMap (fun t => leBytes 4 t.toNat) ++ spell ss)

/-- What the hash reads for each of `m` blocks from row `at` on. -/
def blockInputs (sha : Sha) (tokens : List UInt32) (block : Nat) :
    Nat → Nat → List ClassRun → List UInt8 → Option (List (List UInt8))
  | 0, _, _, _ => some []
  | m + 1, start, cs, digest =>
    (blockStretches start (start + block) block cs start).bind fun (ss, cs) =>
      let bytes := blockBytes digest ((tokens.drop start).take block) ss
      (blockInputs sha tokens block m (start + block) cs (sha.hex bytes)).map (bytes :: ·)

/-- A token history and the classes of its rows, which reach its tokens. -/
structure History where
  tokens : List UInt32
  classes : List ClassRun
  increasing : classes.Pairwise fun c c' => c.endRow < c'.endRow
  reach : ∀ row < tokens.length, ∃ c ∈ classes, row < c.endRow

namespace History

def inputs (sha : Sha) (h : History) (block : Nat) : Option (List (List UInt8)) :=
  blockInputs sha h.tokens block (h.tokens.length / block) 0 h.classes root

/-- The digest at each whole block: the `k`th names the first `k` blocks. -/
def digests (sha : Sha) (h : History) (block : Nat) : Option (List (List UInt8)) :=
  (h.inputs sha block).map fun ins => root :: ins.map sha.hex

end History

/-- The run a row lies in. -/
def runAt (cs : List ClassRun) (row : Nat) : Option ClassRun := cs.find? fun c => row < c.endRow

/-- The class of a row, text of no class past the runs. -/
def rowClass (cs : List ClassRun) (row : Nat) : RowClass :=
  ((runAt cs row).map ClassRun.toRowClass).getD ⟨[], textImage, by decide⟩

def History.classAt (h : History) (row : Nat) : RowClass := rowClass h.classes row

open Stretches

/-- Runs that reach as far and ascend. -/
structure Ascending (cs : List ClassRun) (reach : Nat) : Prop where
  increasing : cs.Pairwise fun c c' => c.endRow < c'.endRow
  reach : ∀ row < reach, ∃ c ∈ cs, row < c.endRow

theorem runAt_skip {c : ClassRun} {cs : List ClassRun} {row : Nat} (h : c.endRow ≤ row) :
    runAt (c :: cs) row = runAt cs row := by
  simp [runAt, h]

theorem rowClass_skip {c : ClassRun} {cs : List ClassRun} {row : Nat} (h : c.endRow ≤ row) :
    rowClass (c :: cs) row = rowClass cs row := by
  rw [rowClass, runAt_skip h]
  rfl

theorem rowClass_head {c : ClassRun} {cs : List ClassRun} {row : Nat} (h : row < c.endRow) :
    rowClass (c :: cs) row = c.toRowClass := by
  simp [rowClass, runAt, h]

theorem rowClass_dropWhile {cs : List ClassRun} {row r : Nat} (h : row ≤ r) :
    rowClass (cs.dropWhile fun c => c.endRow ≤ row) r = rowClass cs r := by
  induction cs with
  | nil => rfl
  | cons c cs ih =>
    rw [List.dropWhile_cons]
    split
    next hle =>
      rw [decide_eq_true_eq] at hle
      rw [ih, rowClass_skip (by omega)]
    next => rfl

theorem Ascending.dropWhile {cs : List ClassRun} {reach row : Nat} (h : Ascending cs reach)
    (hrow : row < reach) : Ascending (cs.dropWhile fun c => c.endRow ≤ row) reach := by
  refine ⟨h.increasing.sublist (List.dropWhile_sublist _), fun r hr => ?_⟩
  obtain ⟨x, hx, hlt⟩ := h.reach (max r row) (by omega)
  rw [← List.takeWhile_append_dropWhile (p := fun c => decide (c.endRow ≤ row)) (l := cs),
    List.mem_append] at hx
  rcases hx with hx | hx
  · have := List.mem_takeWhile_imp hx
    rw [decide_eq_true_eq] at this
    omega
  · exact ⟨x, hx, by omega⟩

/-- A stretch holds its class throughout, and the row after it another one. -/
theorem stretchEnd_spec (limit : Nat) {cls : RowClass} {c : ClassRun} {cs : List ClassRun}
    (hinc : (c :: cs).Pairwise fun c c' => c.endRow < c'.endRow) (hcls : c.toRowClass = cls) :
    c.endRow ≤ stretchEnd limit cls c cs ∧
      (∀ r < stretchEnd limit cls c cs, rowClass (c :: cs) r = cls) ∧
      (stretchEnd limit cls c cs < limit →
        (∃ x ∈ c :: cs, stretchEnd limit cls c cs < x.endRow) →
        rowClass (c :: cs) (stretchEnd limit cls c cs) ≠ cls) := by
  induction cs generalizing c with
  | nil =>
    refine ⟨le_rfl, fun r hr => (rowClass_head hr).trans hcls, fun _ hx => ?_⟩
    obtain ⟨x, hmem, hlt⟩ := hx
    rw [List.mem_singleton.mp hmem] at hlt
    simp [stretchEnd] at hlt
  | cons c' cs ih =>
    have hlt : c.endRow < c'.endRow := List.rel_of_pairwise_cons hinc (by simp)
    unfold stretchEnd
    split
    next hsame =>
      obtain ⟨h1, h2, h3⟩ := ih hinc.of_cons hsame.2
      refine ⟨by omega, fun r hr => ?_, fun hlim hx => ?_⟩
      · rcases Nat.lt_or_ge r c.endRow with hin | hpast
        · exact (rowClass_head hin).trans hcls
        · rw [rowClass_skip hpast]
          exact h2 r hr
      · rw [rowClass_skip (by omega)]
        refine h3 hlim ?_
        obtain ⟨x, hmem, hx⟩ := hx
        rcases List.mem_cons.mp hmem with rfl | hmem
        · omega
        · exact ⟨x, hmem, hx⟩
    next hdiff =>
      refine ⟨le_rfl, fun r hr => (rowClass_head hr).trans hcls, fun hlim _ => ?_⟩
      rw [rowClass_skip le_rfl, rowClass_head hlt]
      exact fun heq => hdiff ⟨hlim, heq⟩

/-- The stretches a block is read as cut its rows where the class changes, and the runs left hold
every row after the block. -/
theorem blockStretches_spec {start limit fuel row reach : Nat} {cs : List ClassRun}
    (hcs : Ascending cs reach) (hlim : limit ≤ reach) (hrow : row ≤ limit) (hstart : start ≤ row)
    (hfuel : limit ≤ row + fuel) :
    ∃ ss cs', blockStretches start limit fuel cs row = some (ss, cs') ∧
      Splits (fun r => rowClass cs (start + r)) (row - start) (limit - start) ss ∧
      Ascending cs' reach ∧ ∀ r, limit ≤ r → rowClass cs' r = rowClass cs r := by
  induction fuel generalizing cs row with
  | zero =>
    have : row = limit := by omega
    subst this
    exact ⟨[], cs, by simp [blockStretches], .nil, hcs, fun _ _ => rfl⟩
  | succ fuel ih =>
    unfold blockStretches
    split
    next hlt =>
      have hdrop := hcs.dropWhile (show row < reach by omega)
      have hclass : ∀ r, row ≤ r → rowClass (cs.dropWhile fun c => c.endRow ≤ row) r =
          rowClass cs r := fun r hr => rowClass_dropWhile hr
      have hhead : ∀ c cs', (cs.dropWhile fun c => c.endRow ≤ row) = c :: cs' →
          row < c.endRow := by
        intro c cs' hd
        have := List.head_dropWhile_not (fun c : ClassRun => decide (c.endRow ≤ row)) (l := cs)
          (by simp [hd])
        simpa [hd] using this
      split
      next hnil =>
        obtain ⟨x, hx, -⟩ := hdrop.reach row (by omega)
        rw [hnil] at hx
        cases hx
      next c rest hd =>
        rw [hd] at hdrop hclass
        have hc := hhead c rest hd
        obtain ⟨h1, h2, h3⟩ := stretchEnd_spec limit hdrop.increasing rfl
        generalize stretchEnd limit c.toRowClass c rest = e at *
        have hstop : start + (min e limit - start) = min e limit := by omega
        have hrow : min e limit ≤ limit := by omega
        obtain ⟨ss, cs', hrec, hsplit, hasc, hleft⟩ := ih hdrop hrow (by omega) (by omega)
        refine ⟨(min e limit - start, c.toRowClass) :: ss, cs', ?_, ?_, hasc, fun r hr => ?_⟩
        · simp only [hstop, hrec, Option.map_some]
        · refine .cons (by omega) (by omega) (fun r hlo hhi => ?_) (fun hs => ?_) ?_
          · rw [← hclass _ (by omega)]
            exact h2 _ (by omega)
          · have he : start + (min e limit - start) = e := by omega
            rw [he, ← hclass _ (by omega)]
            exact h3 (by omega) (hdrop.reach e (by omega))
          · exact hsplit.congr fun r hlo _ => hclass _ (by omega)
        · rw [hleft r hr, hclass r (by omega)]
    next hge =>
      have : row = limit := by omega
      subst this
      exact ⟨[], cs, rfl, .nil, hcs, fun _ _ => rfl⟩

end Llmx
