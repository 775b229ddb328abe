import Llmx.Binary32
import Mathlib.Data.List.Range
import Mathlib.Data.List.FinRange

namespace Llmx

namespace Sampler

/-- The first id taking part. -/
def firstId (skip : Nat) : Nat := if skip = 0 then 1 else 0

/-- Eight lanes' leaders and where each was found, -1 where a lane has none. -/
structure Lanes where
  lead : Fin 8 → Binary32
  place : Fin 8 → BitVec 32

def Lanes.none : Lanes := ⟨fun _ => Binary32.negInf, fun _ => BitVec.allOnes 32⟩

/-- The lanes whose score is larger than their leader and whose id is not the skipped one. -/
def Lanes.larger (skipId : BitVec 32) (r : Lanes) (id : Fin 8 → BitVec 32) (v : Fin 8 → Binary32)
    (l : Fin 8) : Bool :=
  !(decide (id l = skipId)) && (v l).larger (r.lead l)

def Lanes.take (skipId : BitVec 32) (r : Lanes) (id : Fin 8 → BitVec 32) (v : Fin 8 → Binary32) :
    Lanes :=
  ⟨fun l => if r.larger skipId id v l then v l else r.lead l,
    fun l => if r.larger skipId id v l then id l else r.place l⟩

/-- The id the vectors pass over, as their lanes hold it. -/
def skipLane (n skip : Nat) : BitVec 32 :=
  if skip < n then BitVec.ofNat 32 skip else BitVec.allOnes 32

/-- Two sets of lane leaders and the ids of the sixteen scores read next. -/
structure Vectors where
  next : Nat
  a : Lanes
  b : Lanes
  idA : Fin 8 → BitVec 32
  idB : Fin 8 → BitVec 32

def Vectors.start (i : Nat) : Vectors :=
  ⟨i, Lanes.none, Lanes.none, fun l => BitVec.ofNat 32 i + BitVec.ofNat 32 l,
    fun l => BitVec.ofNat 32 i + BitVec.ofNat 32 l + 8#32⟩

def Vectors.round (s : Nat → Binary32) (skipId : BitVec 32) (x : Vectors) : Vectors :=
  ⟨x.next + 16, x.a.take skipId x.idA fun l => s (x.next + l),
    x.b.take skipId x.idB fun l => s (x.next + 8 + l), fun l => x.idA l + 16#32,
    fun l => x.idB l + 16#32⟩

/-- Rounds of sixteen scores while the row has as many. -/
def vectorRounds (s : Nat → Binary32) (n : Nat) (skipId : BitVec 32) (x : Vectors) : Vectors :=
  if x.next + 16 ≤ n then vectorRounds s n skipId (x.round s skipId) else x
termination_by n - x.next
decreasing_by
  simp only [Vectors.round]
  omega

/-- A scan's leader and its score. -/
structure Leader where
  score : Binary32
  id : Nat

/-- A lane's leader taken where it is larger, or as large at a lower id. -/
def Lanes.merge (r : Lanes) (best : Leader) (l : Fin 8) : Leader :=
  if (r.place l).msb = false ∧ ((r.lead l).larger best.score ∨
      (r.lead l).equals best.score ∧ (r.place l).toNat < best.id) then
    ⟨r.lead l, (r.place l).toNat⟩
  else best

def Lanes.mergeAll (r : Lanes) (best : Leader) : Leader := (List.finRange 8).foldl r.merge best

def Leader.scan (s : Nat → Binary32) (skip : Nat) (best : Leader) (i : Nat) : Leader :=
  if (s i).larger best.score ∧ i ≠ skip then ⟨s i, i⟩ else best

/-- The scores from `i` on, one by one. -/
def scanTail (s : Nat → Binary32) (n skip i : Nat) (best : Leader) : Leader :=
  (List.range' i (n - i)).foldl (Leader.scan s skip) best

/-- The leader after the vectors and the scores they leave. -/
def vectorArgmax (s : Nat → Binary32) (n skip : Nat) : Leader :=
  let best := firstId skip
  let x := vectorRounds s n (skipLane n skip) (Vectors.start (best + 1))
  scanTail s n skip x.next (x.b.mergeAll (x.a.mergeAll ⟨s best, best⟩))

/-- The id a scan of the row of `n` scores from its first id taking part gives. -/
def argmax (s : Nat → Binary32) (n skip : Nat) : Nat :=
  if (s (firstId skip)).isNaN then firstId skip
  else if firstId skip + 1 + 16 ≤ n ∧ n ≤ 2 ^ 31 - 1 then (vectorArgmax s n skip).id
  else (scanTail s n skip (firstId skip + 1) ⟨s (firstId skip), firstId skip⟩).id

/-- The ids taking part, in order. -/
def taking (n skip : Nat) : List Nat := (List.range n).filter (· ≠ skip)

/-- The plain scan: it starts at the first id and replaces its leader only by a larger score. -/
def plainScan (s : Nat → Binary32) : List Nat → Option Nat
  | [] => none
  | first :: rest =>
    some (rest.foldl (fun best i => if (s i).larger (s best) then i else best) first)

/-- `b` comes before `j` in the row's order: its score is larger, or as large at no larger id. -/
def Beats (s : Nat → Binary32) (b j : Nat) : Prop :=
  (s j).standing < (s b).standing ∨ (s j).standing = (s b).standing ∧ b ≤ j

theorem Beats.refl (s : Nat → Binary32) (b : Nat) : Beats s b b := Or.inr ⟨rfl, Nat.le_refl b⟩

theorem Beats.trans {s : Nat → Binary32} {a b c : Nat} (h : Beats s a b) (h' : Beats s b c) :
    Beats s a c := by
  unfold Beats at *
  omega

theorem Beats.antisymm {s : Nat → Binary32} {a b : Nat} (h : Beats s a b) (h' : Beats s b a) :
    a = b := by
  unfold Beats at *
  omega

/-- A leader that is a number, whose score is its id's, among the ids `lo` up to `hi`. -/
structure Leader.Sound (s : Nat → Binary32) (skip lo hi : Nat) (best : Leader) : Prop where
  score : best.score = s best.id
  number : best.score.isNaN = false
  low : lo ≤ best.id
  high : best.id < hi
  taking : best.id ≠ skip

theorem Leader.Sound.mono {s : Nat → Binary32} {skip lo hi hi' : Nat} {best : Leader}
    (h : best.Sound s skip lo hi) (hle : hi ≤ hi') : best.Sound s skip lo hi' :=
  ⟨h.score, h.number, h.low, Nat.lt_of_lt_of_le h.high hle, h.taking⟩

/-- One score more: the leader is still sound and beats the one before and the score. -/
theorem Leader.Sound.scan {s : Nat → Binary32} {skip lo i : Nat} {best : Leader}
    (h : best.Sound s skip lo i) :
    (best.scan s skip i).Sound s skip lo (i + 1) ∧ Beats s (best.scan s skip i).id best.id ∧
      (i ≠ skip → Beats s (best.scan s skip i).id i) := by
  have hscore := h.score
  have hlow := h.low
  have hhigh := h.high
  have hiff := Binary32.larger_iff (x := s i) h.number
  unfold Leader.scan
  split
  next htake =>
    obtain ⟨hlarger, hne⟩ := htake
    have hlt := hiff.mp hlarger
    refine ⟨⟨rfl, Binary32.isNaN_of_lt h.number hlt, show lo ≤ i by omega, Nat.lt_succ_self i, hne⟩,
      ?_, ?_⟩
    · left
      rw [← hscore]
      exact hlt
    · exact fun _ => Beats.refl s i
  next hkeep =>
    refine ⟨h.mono (by omega), Beats.refl s best.id, fun hne => ?_⟩
    have hnot : ¬best.score.standing < (s i).standing := fun hlt => hkeep ⟨hiff.mpr hlt, hne⟩
    rw [hscore] at hnot
    unfold Beats
    omega

/-- The tail's leader beats the one before and every score read. -/
theorem Leader.Sound.scanTail {s : Nat → Binary32} {skip lo i n : Nat} {best : Leader}
    (h : best.Sound s skip lo i) (hn : i ≤ n) :
    (scanTail s n skip i best).Sound s skip lo n ∧ Beats s (scanTail s n skip i best).id best.id ∧
      ∀ j, i ≤ j → j < n → j ≠ skip → Beats s (scanTail s n skip i best).id j := by
  obtain ⟨k, rfl⟩ := Nat.exists_eq_add_of_le hn
  unfold Sampler.scanTail
  rw [Nat.add_sub_cancel_left]
  clear hn
  induction k generalizing i best with
  | zero => exact ⟨h, Beats.refl s best.id, fun j hj hj' => absurd hj' (by omega)⟩
  | succ k ih =>
    obtain ⟨hsound, hold, hnew⟩ := h.scan
    obtain ⟨hlast, hbeats, hrest⟩ := ih hsound
    rw [List.range'_succ, List.foldl_cons, show i + (k + 1) = i + 1 + k by omega]
    refine ⟨hlast, hbeats.trans hold, ?_⟩
    intro j hj hj' hne
    by_cases heq : j = i
    · rw [heq] at hne ⊢
      exact hbeats.trans (hnew hne)
    · exact hrest j (by omega) hj' hne

/-- What lane `k` of sixteen holds of the ids `lo` up to `hi`: none where no score is above negative
infinity, else the one that beats the others. -/
def LaneHolds (s : Nat → Binary32) (skip lo hi k : Nat) (lead : Binary32) (place : BitVec 32) :
    Prop :=
  (place.msb = true ∧ lead = Binary32.negInf ∧ ∀ j, lo ≤ j → j < hi → (j - lo) % 16 = k → j ≠ skip →
    (s j).standing ≤ Binary32.negInf.standing) ∨
  (place.msb = false ∧ lead = s place.toNat ∧ lo ≤ place.toNat ∧ place.toNat < hi ∧
    place.toNat ≠ skip ∧ Binary32.negInf.standing < lead.standing ∧
    ∀ j, lo ≤ j → j < hi → (j - lo) % 16 = k → j ≠ skip → Beats s place.toNat j)

theorem LaneHolds.number {s : Nat → Binary32} {skip lo hi k : Nat} {lead : Binary32}
    {place : BitVec 32} (h : LaneHolds s skip lo hi k lead place) : lead.isNaN = false := by
  rcases h with ⟨-, hlead, -⟩ | ⟨-, -, -, -, -, habove, -⟩
  · rw [hlead]
    exact Binary32.negInf_isNaN
  · exact Binary32.isNaN_of_lt Binary32.negInf_isNaN habove

theorem skipLane_iff {n skip i : Nat} (hn : n ≤ 2 ^ 31 - 1) (hi : i < n) :
    BitVec.ofNat 32 i = skipLane n skip ↔ i = skip := by
  unfold skipLane
  rw [← BitVec.toNat_inj, BitVec.toNat_ofNat, Nat.mod_eq_of_lt (by omega)]
  split
  next hskip => rw [BitVec.toNat_ofNat, Nat.mod_eq_of_lt (by omega)]
  next hskip =>
    rw [BitVec.toNat_allOnes]
    omega

theorem msb_ofNat {i : Nat} (h : i < 2 ^ 31) : (BitVec.ofNat 32 i).msb = false := by
  rw [BitVec.msb_eq_false_iff_two_mul_lt, BitVec.toNat_ofNat]
  omega

/-- A lane after its next score. -/
theorem LaneHolds.take {s : Nat → Binary32} {skip lo i k n : Nat} {lead : Binary32}
    {place : BitVec 32} (h : LaneHolds s skip lo i k lead place) (hk : k < 16) (hlo : lo ≤ i)
    (hwhole : (i - lo) % 16 = 0) (hi : i + 16 ≤ n) (hn : n ≤ 2 ^ 31 - 1) {larger : Bool}
    (hlarger : larger = (!(decide (BitVec.ofNat 32 (i + k) = skipLane n skip)) &&
      (s (i + k)).larger lead)) :
    LaneHolds s skip lo (i + 16) k (if larger then s (i + k) else lead)
      (if larger then BitVec.ofNat 32 (i + k) else place) := by
  have hiff := Binary32.larger_iff (x := s (i + k)) h.number
  have hskip : BitVec.ofNat 32 (i + k) = skipLane n skip ↔ i + k = skip :=
    skipLane_iff hn (by omega)
  have hnew : ∀ j, lo ≤ j → j < i + 16 → (j - lo) % 16 = k → j < i ∨ j = i + k := by omega
  by_cases htake : i + k ≠ skip ∧ lead.standing < (s (i + k)).standing
  · obtain ⟨hne, hlt⟩ := htake
    have htrue : larger = true := by
      rw [hlarger, decide_eq_false (fun e => hne (hskip.mp e)), hiff.mpr hlt]
      rfl
    have hplace : (BitVec.ofNat 32 (i + k)).toNat = i + k := by
      rw [BitVec.toNat_ofNat, Nat.mod_eq_of_lt (by omega)]
    rw [htrue, if_pos rfl, if_pos rfl]
    right
    rw [hplace]
    refine ⟨msb_ofNat (by omega), rfl, by omega, by omega, hne, ?_, ?_⟩
    · have := Binary32.negInf_le h.number
      omega
    · intro j hj hj' hmod hjs
      rcases hnew j hj hj' hmod with hold | rfl
      · left
        rcases h with ⟨-, hlead, hall⟩ | ⟨-, hlead, -, -, -, -, hall⟩
        · have := hall j hj hold hmod hjs
          rw [hlead] at hlt
          omega
        · have := hall j hj hold hmod hjs
          rw [hlead] at hlt
          unfold Beats at this
          omega
      · exact Beats.refl s _
  · have hfalse : larger = false := by
      rw [hlarger]
      by_cases hne : i + k = skip
      · rw [decide_eq_true (hskip.mpr hne)]
        rfl
      · have hnot : (s (i + k)).larger lead = false :=
          Bool.eq_false_iff.mpr fun hl => htake ⟨hne, hiff.mp hl⟩
        rw [hnot, Bool.and_false]
    rw [hfalse, if_neg (by decide), if_neg (by decide)]
    have hpast : i + k ≠ skip → (s (i + k)).standing ≤ lead.standing := by
      intro hne
      have : ¬lead.standing < (s (i + k)).standing := fun hlt => htake ⟨hne, hlt⟩
      omega
    rcases h with ⟨hnone, hlead, hall⟩ | ⟨hsome, hlead, hlow, hhigh, hne, habove, hall⟩
    · refine Or.inl ⟨hnone, hlead, fun j hj hj' hmod hjs => ?_⟩
      rcases hnew j hj hj' hmod with hold | rfl
      · exact hall j hj hold hmod hjs
      · have := hpast hjs
        rw [hlead] at this
        exact this
    · refine Or.inr ⟨hsome, hlead, hlow, by omega, hne, habove, fun j hj hj' hmod hjs => ?_⟩
      rcases hnew j hj hj' hmod with hold | rfl
      · exact hall j hj hold hmod hjs
      · have := hpast hjs
        rw [hlead] at this
        unfold Beats
        omega

/-- Every lane holds its part of the ids read, and the ids read next are in place. -/
structure Vectors.Sound (s : Nat → Binary32) (skip lo : Nat) (x : Vectors) : Prop where
  low : lo ≤ x.next
  whole : (x.next - lo) % 16 = 0
  idA : ∀ l, x.idA l = BitVec.ofNat 32 (x.next + l)
  idB : ∀ l, x.idB l = BitVec.ofNat 32 (x.next + (8 + l))
  a : ∀ l : Fin 8, LaneHolds s skip lo x.next l (x.a.lead l) (x.a.place l)
  b : ∀ l : Fin 8, LaneHolds s skip lo x.next (8 + l) (x.b.lead l) (x.b.place l)

theorem Vectors.start_sound (s : Nat → Binary32) (skip i : Nat) :
    (Vectors.start i).Sound s skip i := by
  have hnone : ∀ k, LaneHolds s skip i i k Binary32.negInf (BitVec.allOnes 32) := fun k =>
    Or.inl ⟨rfl, rfl, fun j hj hj' => absurd hj' (by omega)⟩
  refine ⟨Nat.le_refl i, ?_, fun l => ?_, fun l => ?_, fun l => hnone _, fun l => hnone _⟩
  · show (i - i) % 16 = 0
    omega
  · exact (BitVec.ofNat_add ..).symm
  · show BitVec.ofNat 32 i + BitVec.ofNat 32 l + 8#32 = BitVec.ofNat 32 (i + (8 + l))
    rw [Nat.add_comm 8, ← Nat.add_assoc, BitVec.ofNat_add, BitVec.ofNat_add]

theorem Vectors.Sound.round {s : Nat → Binary32} {skip lo n : Nat} {x : Vectors}
    (h : x.Sound s skip lo) (hi : x.next + 16 ≤ n) (hn : n ≤ 2 ^ 31 - 1) :
    (x.round s (skipLane n skip)).Sound s skip lo := by
  have hlow := h.low
  have hwhole := h.whole
  refine ⟨?_, ?_, fun l => ?_, fun l => ?_, fun l => ?_, fun l => ?_⟩
  · exact Nat.le_add_right_of_le hlow
  · show (x.next + 16 - lo) % 16 = 0
    omega
  · show x.idA l + 16#32 = BitVec.ofNat 32 (x.next + 16 + l)
    rw [h.idA, Nat.add_right_comm, ← BitVec.ofNat_add]
  · show x.idB l + 16#32 = BitVec.ofNat 32 (x.next + 16 + (8 + l))
    rw [h.idB, Nat.add_right_comm, ← BitVec.ofNat_add]
  · have hl := l.isLt
    have hlarger : x.a.larger (skipLane n skip) x.idA (fun l => s (x.next + l)) l =
        (!(decide (BitVec.ofNat 32 (x.next + l) = skipLane n skip)) &&
          (s (x.next + l)).larger (x.a.lead l)) := by
      rw [Lanes.larger, h.idA]
    have htake := (h.a l).take (by omega) hlow hwhole hi hn hlarger
    rw [← h.idA] at htake
    simp only [Vectors.round, Lanes.take]
    exact htake
  · have hl := l.isLt
    have hlarger : x.b.larger (skipLane n skip) x.idB (fun l => s (x.next + 8 + l)) l =
        (!(decide (BitVec.ofNat 32 (x.next + (8 + l)) = skipLane n skip)) &&
          (s (x.next + (8 + l))).larger (x.b.lead l)) := by
      rw [Lanes.larger, h.idB, Nat.add_assoc]
    have htake := (h.b l).take (by omega) hlow hwhole hi hn hlarger
    rw [← h.idB, ← Nat.add_assoc] at htake
    simp only [Vectors.round, Lanes.take]
    exact htake

theorem Vectors.Sound.rounds {s : Nat → Binary32} {skip lo n : Nat} {x : Vectors}
    (h : x.Sound s skip lo) (hx : x.next ≤ n) (hn : n ≤ 2 ^ 31 - 1) :
    (vectorRounds s n (skipLane n skip) x).Sound s skip lo ∧
      (vectorRounds s n (skipLane n skip) x).next ≤ n := by
  fun_induction vectorRounds s n (skipLane n skip) x with
  | case1 x hi ih => exact ih (h.round hi hn) hi
  | case2 x hi => exact ⟨h, hx⟩

/-- A lane merged: the leader beats the one before and the lane's ids. -/
theorem Leader.Sound.merge {s : Nat → Binary32} {skip first lo hi k : Nat} {best : Leader}
    (h : best.Sound s skip first hi) (hfirst : (s first).isNaN = false) (hlo : first < lo)
    (hbest : Beats s best.id first) {r : Lanes} {l : Fin 8}
    (hlane : LaneHolds s skip lo hi k (r.lead l) (r.place l)) :
    (r.merge best l).Sound s skip first hi ∧ Beats s (r.merge best l).id best.id ∧
      ∀ j, lo ≤ j → j < hi → (j - lo) % 16 = k → j ≠ skip → Beats s (r.merge best l).id j := by
  have hscore := h.score
  have hlarger := Binary32.larger_iff (x := r.lead l) h.number
  have hequals := Binary32.equals_iff (x := r.lead l) h.number
  have hnumber := hlane.number
  have hleast := Binary32.negInf_le hfirst
  unfold Lanes.merge
  rcases hlane with ⟨hnone, -, hall⟩ | ⟨hsome, hlead, hlow, hhigh, hne, -, hall⟩
  · rw [if_neg (fun hm => by rw [hnone] at hm; cases hm.1)]
    refine ⟨h, Beats.refl s _, fun j hj hj' hmod hjs => ?_⟩
    have := hall j hj hj' hmod hjs
    unfold Beats at hbest ⊢
    omega
  · split
    next htake =>
      have hbeats : Beats s (r.place l).toNat best.id := by
        unfold Beats
        rw [← hlead, ← hscore]
        rcases htake.2 with hl | ⟨he, hlt⟩
        · exact Or.inl (hlarger.mp hl)
        · exact Or.inr ⟨(hequals.mp he).symm, Nat.le_of_lt hlt⟩
      exact ⟨⟨hlead, hnumber, show first ≤ (r.place l).toNat by omega, hhigh, hne⟩, hbeats, hall⟩
    next hkeep =>
      have hnot : ¬best.score.standing < (r.lead l).standing :=
        fun hlt => hkeep ⟨hsome, Or.inl (hlarger.mpr hlt)⟩
      have hnot' : (r.lead l).standing = best.score.standing → best.id ≤ (r.place l).toNat := by
        intro he
        by_contra hlt
        exact hkeep ⟨hsome, Or.inr ⟨hequals.mpr he, by omega⟩⟩
      have hbeats : Beats s best.id (r.place l).toNat := by
        unfold Beats
        rw [← hlead, ← hscore]
        omega
      exact ⟨h, Beats.refl s _, fun j hj hj' hmod hjs => hbeats.trans (hall j hj hj' hmod hjs)⟩

theorem Leader.Sound.mergeAll {s : Nat → Binary32} {skip first lo hi offset : Nat} {best : Leader}
    (h : best.Sound s skip first hi) (hfirst : (s first).isNaN = false) (hlo : first < lo)
    (hbest : Beats s best.id first) {r : Lanes}
    (hlanes : ∀ l : Fin 8, LaneHolds s skip lo hi (offset + l) (r.lead l) (r.place l)) :
    (r.mergeAll best).Sound s skip first hi ∧ Beats s (r.mergeAll best).id best.id ∧
      ∀ j, lo ≤ j → j < hi → offset ≤ (j - lo) % 16 → (j - lo) % 16 < offset + 8 → j ≠ skip →
        Beats s (r.mergeAll best).id j := by
  have hfold : ∀ (ls : List (Fin 8)) (best : Leader), best.Sound s skip first hi →
      Beats s best.id first →
      (ls.foldl r.merge best).Sound s skip first hi ∧ Beats s (ls.foldl r.merge best).id best.id ∧
        ∀ l ∈ ls, ∀ j, lo ≤ j → j < hi → (j - lo) % 16 = offset + l → j ≠ skip →
          Beats s (ls.foldl r.merge best).id j := by
    intro ls
    induction ls with
    | nil => exact fun best h _ => ⟨h, Beats.refl s _, by simp⟩
    | cons l ls ih =>
      intro best h hbest
      obtain ⟨hsound, hold, hnew⟩ := h.merge hfirst hlo hbest (hlanes l)
      obtain ⟨hlast, hbeats, hrest⟩ := ih _ hsound (hold.trans hbest)
      rw [List.foldl_cons]
      refine ⟨hlast, hbeats.trans hold, ?_⟩
      rw [List.forall_mem_cons]
      exact ⟨fun j hj hj' hmod hjs => hbeats.trans (hnew j hj hj' hmod hjs), hrest⟩
  obtain ⟨hsound, hold, hall⟩ := hfold (List.finRange 8) best h hbest
  refine ⟨hsound, hold, fun j hj hj' hmod hmod' hjs => ?_⟩
  exact hall ⟨(j - lo) % 16 - offset, by omega⟩ (List.mem_finRange _) j hj hj'
    (by dsimp only; omega) hjs

/-- The row's leader past the vectors beats every id taking part. -/
theorem vectorArgmax_sound {s : Nat → Binary32} {n skip : Nat}
    (hnumber : (s (firstId skip)).isNaN = false) (hlong : firstId skip + 1 + 16 ≤ n)
    (hn : n ≤ 2 ^ 31 - 1) :
    (vectorArgmax s n skip).Sound s skip (firstId skip) n ∧
      ∀ j, firstId skip ≤ j → j < n → j ≠ skip → Beats s (vectorArgmax s n skip).id j := by
  have hne : firstId skip ≠ skip := by
    unfold firstId
    split <;> omega
  unfold vectorArgmax
  dsimp only
  generalize hfirst : firstId skip = first at *
  obtain ⟨hx, hnext⟩ := (Vectors.start_sound s skip (first + 1)).rounds (n := n)
    (show first + 1 ≤ n by omega) hn
  generalize vectorRounds s n (skipLane n skip) (Vectors.start (first + 1)) = x at *
  have hlow := hx.low
  have hstart : (Leader.mk (s first) first).Sound s skip first x.next :=
    ⟨rfl, hnumber, Nat.le_refl _, by dsimp only; omega, hne⟩
  have hlanes : ∀ l : Fin 8, LaneHolds s skip (first + 1) x.next (0 + l) (x.a.lead l) (x.a.place l) := by
    intro l
    rw [Nat.zero_add]
    exact hx.a l
  obtain ⟨ha, hbeatsa, halla⟩ := hstart.mergeAll hnumber (Nat.lt_succ_self first)
    (Beats.refl s first) hlanes
  obtain ⟨hb, hbeatsb, hallb⟩ := ha.mergeAll hnumber (Nat.lt_succ_self first) hbeatsa hx.b
  obtain ⟨ht, hbeatst, hallt⟩ := hb.scanTail hnext
  refine ⟨ht, fun j hj hj' hjs => ?_⟩
  by_cases hpast : x.next ≤ j
  · exact hallt j hpast hj' hjs
  · by_cases hj0 : j = first
    · rw [hj0]
      exact hbeatst.trans (hbeatsb.trans hbeatsa)
    · by_cases hmod : (j - (first + 1)) % 16 < 8
      · exact hbeatst.trans (hbeatsb.trans (halla j (by omega) (by omega) (by omega) (by omega) hjs))
      · exact hbeatst.trans (hallb j (by omega) (by omega) (by omega) (by omega) hjs)

theorem argmax_beats {s : Nat → Binary32} {n skip : Nat}
    (hnumber : (s (firstId skip)).isNaN = false) (hlt : firstId skip < n) :
    firstId skip ≤ argmax s n skip ∧ argmax s n skip < n ∧ argmax s n skip ≠ skip ∧
      ∀ j, firstId skip ≤ j → j < n → j ≠ skip → Beats s (argmax s n skip) j := by
  have hne : firstId skip ≠ skip := by
    unfold firstId
    split <;> omega
  unfold argmax
  rw [hnumber, if_neg (by decide)]
  split
  next hlong =>
    obtain ⟨hsound, hall⟩ := vectorArgmax_sound hnumber hlong.1 hlong.2
    exact ⟨hsound.low, hsound.high, hsound.taking, hall⟩
  next =>
    have hstart : (Leader.mk (s (firstId skip)) (firstId skip)).Sound s skip (firstId skip)
        (firstId skip + 1) :=
      ⟨rfl, hnumber, Nat.le_refl _, Nat.lt_succ_self _, hne⟩
    obtain ⟨hsound, hold, hall⟩ := hstart.scanTail (n := n) hlt
    refine ⟨hsound.low, hsound.high, hsound.taking, fun j hj hj' hjs => ?_⟩
    by_cases hj0 : j = firstId skip
    · rw [hj0]
      exact hold
    · exact hall j (by omega) hj' hjs

theorem taking_eq {n skip : Nat} (h : firstId skip < n) :
    taking n skip =
      firstId skip :: (List.range' (firstId skip + 1) (n - (firstId skip + 1))).filter (· ≠ skip) := by
  unfold taking firstId at *
  rw [List.range_eq_range']
  split at h
  next hzero =>
    obtain ⟨k, rfl⟩ : ∃ k, n = k + 2 := ⟨n - 2, by omega⟩
    rw [if_pos hzero, hzero, List.range'_succ, List.range'_succ]
    simp
  next hzero =>
    obtain ⟨k, rfl⟩ : ∃ k, n = k + 1 := ⟨n - 1, by omega⟩
    rw [if_neg hzero, List.range'_succ]
    simp [Ne.symm hzero]

/-- The tail read from the first id on is the plain scan. -/
theorem foldl_plain (s : Nat → Binary32) (skip : Nat) (ids : List Nat) (b : Nat) :
    (ids.filter (· ≠ skip)).foldl (fun best i => if (s i).larger (s best) then i else best) b =
      (ids.foldl (Leader.scan s skip) ⟨s b, b⟩).id := by
  induction ids generalizing b with
  | nil => rfl
  | cons i ids ih =>
    rw [List.filter_cons, List.foldl_cons, Leader.scan]
    by_cases hne : i = skip
    · rw [if_neg (by simpa using hne), if_neg (fun h => h.2 hne)]
      exact ih b
    · rw [if_pos (by simpa using hne), List.foldl_cons]
      by_cases hl : (s i).larger (s b) = true
      · rw [if_pos hl, if_pos ⟨hl, hne⟩]
        exact ih i
      · rw [if_neg hl, if_neg (fun h => hl h.1)]
        exact ih b

/-- Nothing takes the lead of one that is no number. -/
theorem foldl_scan_of_isNaN {s : Nat → Binary32} {skip b : Nat} (h : (s b).isNaN = true)
    (ids : List Nat) : ids.foldl (Leader.scan s skip) ⟨s b, b⟩ = ⟨s b, b⟩ := by
  induction ids with
  | nil => rfl
  | cons i ids ih =>
    rw [List.foldl_cons, Leader.scan, if_neg (fun hl => ?_)]
    · exact ih
    · rw [Binary32.larger_of_isNaN h] at hl
      cases hl.1

theorem firstId_lt {n skip : Nat} (h : taking n skip ≠ []) : firstId skip < n := by
  obtain ⟨i, hi⟩ := List.exists_mem_of_ne_nil _ h
  unfold taking at hi
  rw [List.mem_filter, List.mem_range, decide_eq_true_eq] at hi
  unfold firstId
  split <;> omega

/-- The vectors' argmax is the plain scan's. -/
theorem argmax_is_plainScan (s : Nat → Binary32) {n skip : Nat} (h : taking n skip ≠ []) :
    plainScan s (taking n skip) = some (argmax s n skip) := by
  have hlt := firstId_lt h
  rw [taking_eq hlt, plainScan, foldl_plain]
  congr 1
  by_cases hnan : (s (firstId skip)).isNaN = true
  · rw [foldl_scan_of_isNaN hnan, argmax, if_pos hnan]
  · have hnumber := Bool.eq_false_iff.mpr hnan
    obtain ⟨hlow, hhigh, hne, hall⟩ := argmax_beats hnumber hlt
    have hfirst : firstId skip ≠ skip := by
      unfold firstId
      split <;> omega
    have hstart : (Leader.mk (s (firstId skip)) (firstId skip)).Sound s skip (firstId skip)
        (firstId skip + 1) :=
      ⟨rfl, hnumber, Nat.le_refl _, Nat.lt_succ_self _, hfirst⟩
    obtain ⟨hsound, hold, hscan⟩ := hstart.scanTail (n := n) hlt
    have hbeats : Beats s (scanTail s n skip (firstId skip + 1)
        ⟨s (firstId skip), firstId skip⟩).id (argmax s n skip) := by
      by_cases heq : argmax s n skip = firstId skip
      · rw [heq]
        exact hold
      · exact hscan _ (by omega) hhigh hne
    exact hbeats.antisymm (hall _ hsound.low hsound.high hsound.taking)

/-- A row of twenty zeros of either sign, a larger score at 18 and its first id skipped. -/
theorem argmax_is_plainScan_twenty :
    plainScan (fun i => if i = 18 then ⟨0x3F800000#32⟩ else ⟨0x80000000#32⟩) (taking 20 0) =
      some (argmax (fun i => if i = 18 then ⟨0x3F800000#32⟩ else ⟨0x80000000#32⟩) 20 0) :=
  argmax_is_plainScan _ (by decide)

end Sampler

end Llmx
