import Llmx.ReadRing
import Mathlib.Algebra.Order.Ring.Int

namespace Llmx

open Runs

variable {β : Type} {m : Stream β} {r : ReadRing β}

theorem window_slot {a b c n : Nat} (ha : c ≤ a) (ha' : a < c + n) (hb : c ≤ b) (hb' : b < c + n)
    (h : a % n = b % n) : a = b := by
  rcases Nat.le_total a b with hab | hab
  · have hzero := Nat.sub_mod_eq_zero_of_mod_eq h.symm
    rw [Nat.mod_eq_of_lt (by omega)] at hzero
    omega
  · have hzero := Nat.sub_mod_eq_zero_of_mod_eq h
    rw [Nat.mod_eq_of_lt (by omega)] at hzero
    omega

/-- A piece is read and its slot said to be full. -/
def ReadRing.Published (m : Stream β) (r : ReadRing β) (p : Nat) : Prop :=
  ∃ reader, r.readers[p % m.threads]? = some reader ∧ p < reader.piece

/-- What holds of the ring: a piece is read only once the one before it in its slot is given back,
and a piece read and not given back is whole in its slot. -/
structure ReadRing.Inv (m : Stream β) (r : ReadRing β) : Prop where
  ring : r.ring.length = m.size
  ready_length : r.ready.length = m.size
  got_length : r.got.length = m.size
  readers : r.readers.length = m.threads
  stride : ∀ (j : Nat) (reader : Reader), r.readers[j]? = some reader → reader.piece % m.threads = j
  filling : ∀ (j : Nat) (reader : Reader), r.readers[j]? = some reader → reader.phase = .filling →
    reader.piece < m.count ∧ reader.piece < r.consumed + m.size
  filled : ∀ (j : Nat) (reader : Reader) bytes, r.readers[j]? = some reader → reader.phase = .filled bytes →
    (reader.piece < m.count ∧ reader.piece < r.consumed + m.size) ∧
      ∃ b, m.fill reader.piece = some (b, bytes) ∧ r.ring[reader.piece % m.size]? = some b
  gone : ∀ (j : Nat) (reader : Reader), r.readers[j]? = some reader →
    reader.phase = .leaving ∨ reader.phase = .ended → reader.piece < m.count →
    r.stopped = true ∨ r.failed ≠ none
  published : ∀ p : Nat, r.Published m p → p < m.count ∧ p < r.consumed + m.size
  held : ∀ p : Nat, r.Published m p → r.consumed ≤ p → r.ready[p % m.size]? = some (p + 1) ∧
    ∃ b bytes, m.fill p = some (b, bytes) ∧ r.ring[p % m.size]? = some b ∧
      r.got[p % m.size]? = some bytes
  ready : ∀ slot q : Nat, r.ready[slot]? = some (q + 1) → r.Published m q
  taken : ∀ p < r.next, r.Published m p
  consumed : r.consumed ≤ r.next
  failed : ∀ p : Nat, r.failed = some p → p < m.count ∧ m.fill p = none

theorem ReadRing.Inv.ahead (h : r.Inv m) {j : Nat} {reader : Reader}
    (hj : r.readers[j]? = some reader) : r.next ≤ reader.piece := by
  apply Nat.le_of_not_lt
  intro hlt
  obtain ⟨reader', hr, hp⟩ := h.taken reader.piece hlt
  rw [h.stride j reader hj, hj] at hr
  cases hr
  exact absurd hp (Nat.lt_irrefl _)

/-- A piece being read shares its slot with none read and not given back. -/
theorem ReadRing.Inv.apart (h : r.Inv m) {j p : Nat} {reader : Reader}
    (hj : r.readers[j]? = some reader) (hk : reader.piece < r.consumed + m.size)
    (hp : r.Published m p) (hheld : r.consumed ≤ p) : p % m.size ≠ reader.piece % m.size := by
  intro hslot
  have hahead := h.ahead hj
  have hconsumed := h.consumed
  have heq := window_slot hheld (h.published p hp).2 (by omega) hk hslot
  obtain ⟨reader', hr, hlt⟩ := hp
  rw [heq, h.stride j reader hj, hj] at hr
  cases hr
  omega

theorem ReadRing.Inv.readers_apart (h : r.Inv m) {i j : Nat} {a b : Reader}
    (hi : r.readers[i]? = some a) (hj : r.readers[j]? = some b) (hij : i ≠ j)
    (ha : a.piece < r.consumed + m.size) (hb : b.piece < r.consumed + m.size) :
    a.piece % m.size ≠ b.piece % m.size := by
  intro hslot
  have hahead := h.ahead hi
  have hahead' := h.ahead hj
  have hconsumed := h.consumed
  have heq := window_slot (c := r.consumed) (by omega) ha (by omega) hb hslot
  apply hij
  rw [← h.stride i a hi, ← h.stride j b hj, heq]

/-- A read's bytes land in its slot alone. -/
theorem ReadRing.Inv.write (h : r.Inv m) {j : Nat} {reader : Reader} (b : β)
    (hj : r.readers[j]? = some reader) (hphase : reader.phase = .filling) :
    ({ r with ring := r.ring.set (reader.piece % m.size) b } : ReadRing β).Inv m := by
  obtain ⟨-, hk⟩ := h.filling j reader hj hphase
  refine ⟨?_, h.ready_length, h.got_length, h.readers, h.stride, h.filling, ?_, h.gone, h.published,
    ?_, h.ready, h.taken, h.consumed, h.failed⟩
  · rw [List.length_set]
    exact h.ring
  · intro i other bytes hi hother
    obtain ⟨hlt, c, hfill, hc⟩ := h.filled i other bytes hi hother
    have hij : i ≠ j := by
      rintro rfl
      rw [hi] at hj
      cases hj
      rw [hphase] at hother
      cases hother
    refine ⟨hlt, c, hfill, ?_⟩
    rw [List.getElem?_set_ne (h.readers_apart hj hi hij.symm hk hlt.2)]
    exact hc
  · intro p hp hheld
    obtain ⟨hready, c, bytes, hfill, hc, hgot⟩ := h.held p hp hheld
    refine ⟨hready, c, bytes, hfill, ?_, hgot⟩
    rw [List.getElem?_set_ne (h.apart hj hk hp hheld).symm]
    exact hc

theorem getElem?_setReader {j i : Nat} {reader : Reader} (hj : j < r.readers.length) :
    (r.setReader j reader).readers[i]? = if i = j then some reader else r.readers[i]? := by
  show (r.readers.set j reader)[i]? = _
  by_cases hij : i = j
  · rw [if_pos hij, hij, List.getElem?_set_self hj]
  · rw [if_neg hij, List.getElem?_set_ne (Ne.symm hij)]

/-- What a phase asks of its reader. -/
structure PhaseOk (m : Stream β) (r : ReadRing β) (reader : Reader) : Prop where
  filling : reader.phase = .filling → reader.piece < m.count ∧ reader.piece < r.consumed + m.size
  filled : ∀ bytes, reader.phase = .filled bytes →
    (reader.piece < m.count ∧ reader.piece < r.consumed + m.size) ∧
      ∃ b, m.fill reader.piece = some (b, bytes) ∧ r.ring[reader.piece % m.size]? = some b
  gone : reader.phase = .leaving ∨ reader.phase = .ended → reader.piece < m.count →
    r.stopped = true ∨ r.failed ≠ none

theorem published_setPhase {j p : Nat} {reader : Reader} {phase : Phase}
    (hj : r.readers[j]? = some reader) :
    (r.setReader j { reader with phase := phase }).Published m p ↔ r.Published m p := by
  have hlt := (List.getElem?_eq_some_iff.mp hj).1
  unfold ReadRing.Published
  rw [getElem?_setReader hlt]
  split
  next heq =>
    rw [heq, hj]
    constructor
    · rintro ⟨other, ho, hp⟩
      cases ho
      exact ⟨reader, by rfl, hp⟩
    · rintro ⟨other, ho, hp⟩
      cases ho
      exact ⟨{ reader with phase := phase }, by rfl, hp⟩
  · exact Iff.rfl

/-- A reader that keeps its piece changes nothing but its phase. -/
theorem ReadRing.Inv.setPhase (h : r.Inv m) {j : Nat} {reader : Reader} {phase : Phase}
    (hj : r.readers[j]? = some reader) (hok : PhaseOk m r { reader with phase := phase }) :
    (r.setReader j { reader with phase := phase }).Inv m := by
  have hlt := (List.getElem?_eq_some_iff.mp hj).1
  have hpub : ∀ p, (r.setReader j { reader with phase := phase }).Published m p ↔
      r.Published m p := fun p => published_setPhase hj
  have hread : ∀ i other, (r.setReader j { reader with phase := phase }).readers[i]? = some other →
      (i = j ∧ other = { reader with phase := phase }) ∨ r.readers[i]? = some other := by
    intro i other hi
    rw [getElem?_setReader hlt] at hi
    split at hi
    next heq => exact .inl ⟨heq, (Option.some.inj hi).symm⟩
    · exact .inr hi
  refine ⟨h.ring, h.ready_length, h.got_length, ?_, ?_, ?_, ?_, ?_, ?_, ?_, ?_, ?_, h.consumed,
    h.failed⟩
  · show (r.readers.set j _).length = _
    rw [List.length_set]
    exact h.readers
  · intro i other hi
    rcases hread i other hi with ⟨rfl, rfl⟩ | hi
    · exact h.stride i reader hj
    · exact h.stride i other hi
  · intro i other hi
    rcases hread i other hi with ⟨rfl, rfl⟩ | hi
    · exact hok.filling
    · exact h.filling i other hi
  · intro i other bytes hi
    rcases hread i other hi with ⟨rfl, rfl⟩ | hi
    · exact hok.filled bytes
    · exact h.filled i other bytes hi
  · intro i other hi
    rcases hread i other hi with ⟨rfl, rfl⟩ | hi
    · exact hok.gone
    · exact h.gone i other hi
  · intro p hp
    exact h.published p ((hpub p).mp hp)
  · intro p hp
    exact h.held p ((hpub p).mp hp)
  · intro slot q hq
    exact (hpub q).mpr (h.ready slot q hq)
  · intro p hp
    exact (hpub p).mpr (h.taken p hp)

theorem published_publish (h : r.Inv m) {j : Nat} {reader : Reader}
    (hj : r.readers[j]? = some reader) (p : Nat) :
    (r.setReader j ⟨reader.piece + m.threads, .waiting⟩).Published m p ↔
      p = reader.piece ∨ r.Published m p := by
  have hlt := (List.getElem?_eq_some_iff.mp hj).1
  have hstride := h.stride j reader hj
  have hthreads : 0 < m.threads := by
    rw [← h.readers]
    exact Nat.zero_lt_of_lt hlt
  unfold ReadRing.Published
  rw [getElem?_setReader hlt]
  split
  next heq =>
    rw [heq, hj]
    constructor
    · rintro ⟨other, ho, hp⟩
      cases ho
      have hnext : p < reader.piece + m.threads := hp
      rcases Nat.lt_or_ge p reader.piece with hlow | hhigh
      · exact .inr ⟨reader, by rfl, hlow⟩
      · exact .inl (window_slot hhigh hnext (Nat.le_refl _) (Nat.lt_add_of_pos_right hthreads)
          (heq.trans hstride.symm))
    · intro hp
      refine ⟨⟨reader.piece + m.threads, .waiting⟩, by rfl, ?_⟩
      show p < reader.piece + m.threads
      rcases hp with rfl | ⟨other, ho, hp⟩
      · exact Nat.lt_add_of_pos_right hthreads
      · cases ho
        omega
  next hne =>
    constructor
    · exact Or.inr
    · rintro (rfl | hp)
      · exact absurd hstride hne
      · exact hp

theorem ReadRing.Inv.publish (h : r.Inv m) {j bytes : Nat} {reader : Reader}
    (hj : r.readers[j]? = some reader) (hphase : reader.phase = .filled bytes) :
    (({ r with
      got := r.got.set (reader.piece % m.size) bytes
      ready := r.ready.set (reader.piece % m.size) (reader.piece + 1) } : ReadRing β).setReader j
        ⟨reader.piece + m.threads, .waiting⟩).Inv m := by
  have hlt := (List.getElem?_eq_some_iff.mp hj).1
  obtain ⟨⟨hcount, hwindow⟩, b, hfill, hb⟩ := h.filled j reader bytes hj hphase
  have hahead := h.ahead hj
  have hconsumed := h.consumed
  have hslot : reader.piece % m.size < m.size := Nat.mod_lt _ (by omega)
  have hpub := published_publish h hj
  have hread : ∀ i (other : Reader),
      (r.setReader j ⟨reader.piece + m.threads, .waiting⟩).readers[i]? = some other →
      (i = j ∧ other = ⟨reader.piece + m.threads, .waiting⟩) ∨ r.readers[i]? = some other := by
    intro i other hi
    rw [getElem?_setReader hlt] at hi
    split at hi
    next heq => exact .inl ⟨heq, (Option.some.inj hi).symm⟩
    · exact .inr hi
  refine ⟨h.ring, ?_, ?_, ?_, ?_, ?_, ?_, ?_, ?_, ?_, ?_, ?_, h.consumed, h.failed⟩
  · show (r.ready.set _ _).length = _
    rw [List.length_set]
    exact h.ready_length
  · show (r.got.set _ _).length = _
    rw [List.length_set]
    exact h.got_length
  · show (r.readers.set j _).length = _
    rw [List.length_set]
    exact h.readers
  · intro i other hi
    rcases hread i other hi with ⟨rfl, rfl⟩ | hi
    · show (reader.piece + m.threads) % m.threads = i
      rw [Nat.add_mod_right]
      exact h.stride i reader hj
    · exact h.stride i other hi
  · intro i other hi hother
    rcases hread i other hi with ⟨rfl, rfl⟩ | hi
    · cases hother
    · exact h.filling i other hi hother
  · intro i other n hi hother
    rcases hread i other hi with ⟨rfl, rfl⟩ | hi
    · cases hother
    · exact h.filled i other n hi hother
  · intro i other hi hother
    rcases hread i other hi with ⟨rfl, rfl⟩ | hi
    · rcases hother with hother | hother <;> cases hother
    · exact h.gone i other hi hother
  · intro p hp
    rcases (hpub p).mp hp with rfl | hp
    · exact ⟨hcount, hwindow⟩
    · exact h.published p hp
  · intro p hp hheld
    show (r.ready.set _ _)[_]? = _ ∧ ∃ c n, _ ∧ r.ring[_]? = _ ∧ (r.got.set _ _)[_]? = _
    rcases (hpub p).mp hp with rfl | hp
    · rw [List.getElem?_set_self (by rw [h.ready_length]; exact hslot),
        List.getElem?_set_self (by rw [h.got_length]; exact hslot)]
      exact ⟨by rfl, b, bytes, hfill, hb, by rfl⟩
    · have hne := (h.apart hj hwindow hp hheld).symm
      rw [List.getElem?_set_ne hne, List.getElem?_set_ne hne]
      exact h.held p hp hheld
  · intro slot q hq
    apply (hpub q).mpr
    have hq : (r.ready.set (reader.piece % m.size) (reader.piece + 1))[slot]? = some (q + 1) := hq
    by_cases hs : reader.piece % m.size = slot
    · rw [hs, List.getElem?_set_self (by rw [h.ready_length, ← hs]; exact hslot)] at hq
      have := Option.some.inj hq
      exact .inl (by omega)
    · rw [List.getElem?_set_ne hs] at hq
      exact .inr (h.ready slot q hq)
  · intro p hp
    exact (hpub p).mpr (.inr (h.taken p hp))

theorem ReadRing.Inv.fail (h : r.Inv m) {piece : Nat} (hcount : piece < m.count)
    (hfill : m.fill piece = none) :
    ({ r with failed := r.failed <|> some piece } : ReadRing β).Inv m := by
  refine ⟨h.ring, h.ready_length, h.got_length, h.readers, h.stride, h.filling, h.filled, ?_,
    h.published, h.held, h.ready, h.taken, h.consumed, ?_⟩
  · intro i other hi hother hlt
    refine .inr ?_
    show (r.failed <|> some piece) ≠ none
    cases r.failed <;> exact Option.some_ne_none _
  · intro p hp
    have hp : (r.failed <|> some piece) = some p := hp
    cases hfailed : r.failed with
    | none =>
      rw [hfailed] at hp
      cases hp
      exact ⟨hcount, hfill⟩
    | some q =>
      rw [hfailed] at hp
      cases hp
      exact h.failed _ hfailed

theorem ReadRing.Inv.move (h : r.Inv m) {j : Nat} {reader : Reader} {move : ReaderMove β}
    {r' : ReadRing β} (hj : r.readers[j]? = some reader) (hmove : r.move m j reader move = some r') :
    r'.Inv m := by
  cases move with
  | take =>
    simp only [ReadRing.move] at hmove
    split at hmove
    next hphase =>
      split at hmove
      next hend =>
        cases hmove
        apply h.setPhase hj
        refine ⟨fun hp => ?_, fun n hp => ?_, fun _ hlt => ?_⟩
        · cases hp
        · cases hp
        · have hlt : reader.piece < m.count := hlt
          rcases hend with hend | hend
          · omega
          · exact .inl hend
      next hend =>
        split at hmove
        next hwindow =>
          cases hmove
          apply h.setPhase hj
          refine ⟨fun _ => ⟨?_, hwindow⟩, fun n hp => ?_, fun hp => ?_⟩
          · exact Nat.lt_of_not_le fun hle => hend (.inl hle)
          · cases hp
          · rcases hp with hp | hp <;> cases hp
        · cases hmove
    · cases hmove
  | write b =>
    simp only [ReadRing.move] at hmove
    split at hmove
    next hphase =>
      cases hmove
      exact h.write b hj hphase
    · cases hmove
  | finish =>
    simp only [ReadRing.move] at hmove
    split at hmove
    next hphase =>
      have hpiece := h.filling j reader hj hphase
      split at hmove
      next b bytes hfill =>
        cases hmove
        have hw := h.write b hj hphase
        apply hw.setPhase hj
        refine ⟨fun hp => ?_, fun n hp => ?_, fun hp => ?_⟩
        · cases hp
        · cases hp
          refine ⟨hpiece, b, hfill, ?_⟩
          have hahead := h.ahead hj
          have hconsumed := h.consumed
          apply List.getElem?_set_self
          rw [h.ring]
          exact Nat.mod_lt _ (by omega)
        · rcases hp with hp | hp <;> cases hp
      next hfill =>
        cases hmove
        have hf := h.fail hpiece.1 hfill
        apply hf.setPhase hj
        refine ⟨fun hp => ?_, fun n hp => ?_, fun _ _ => .inr ?_⟩
        · cases hp
        · cases hp
        · show (r.failed <|> some reader.piece) ≠ none
          cases r.failed <;> exact Option.some_ne_none _
    · cases hmove
  | publish =>
    simp only [ReadRing.move] at hmove
    split at hmove
    next bytes hphase =>
      cases hmove
      exact h.publish hj hphase
    · cases hmove
  | leave =>
    simp only [ReadRing.move] at hmove
    split at hmove
    next hphase =>
      cases hmove
      have hr : ({ r with running := r.running - 1 } : ReadRing β).Inv m :=
        ⟨h.ring, h.ready_length, h.got_length, h.readers, h.stride, h.filling, h.filled, h.gone,
          h.published, h.held, h.ready, h.taken, h.consumed, h.failed⟩
      apply hr.setPhase hj
      refine ⟨fun hp => ?_, fun n hp => ?_, fun _ => h.gone j reader hj (.inl hphase)⟩
      · cases hp
      · cases hp
    · cases hmove

theorem ReadRing.Inv.free (h : r.Inv m) {piece : Nat} (hp : piece < r.next) :
    (r.free piece).Inv m := by
  have hle : r.consumed ≤ (r.free piece).consumed := Nat.le_max_left _ _
  refine ⟨h.ring, h.ready_length, h.got_length, h.readers, h.stride, ?_, ?_, h.gone, ?_, ?_, h.ready,
    h.taken, ?_, h.failed⟩
  · intro i other hi hother
    obtain ⟨hcount, hwindow⟩ := h.filling i other hi hother
    exact ⟨hcount, by omega⟩
  · intro i other n hi hother
    obtain ⟨⟨hcount, hwindow⟩, hb⟩ := h.filled i other n hi hother
    exact ⟨⟨hcount, by omega⟩, hb⟩
  · intro p hpub
    obtain ⟨hcount, hwindow⟩ := h.published p hpub
    exact ⟨hcount, by omega⟩
  · intro p hpub hheld
    exact h.held p hpub (by omega)
  · have hconsumed := h.consumed
    show max r.consumed (piece + 1) ≤ r.next
    omega

theorem ReadRing.Inv.stop (h : r.Inv m) : r.stop.Inv m :=
  ⟨h.ring, h.ready_length, h.got_length, h.readers, h.stride, h.filling, h.filled,
    fun _ _ _ _ _ => .inl (by rfl), h.published, h.held, h.ready, h.taken, h.consumed, h.failed⟩

theorem ReadRing.Inv.takeNext (h : r.Inv m) (hready : r.Published m r.next) :
    ({ r with next := r.next + 1 } : ReadRing β).Inv m := by
  refine ⟨h.ring, h.ready_length, h.got_length, h.readers, h.stride, h.filling, h.filled, h.gone,
    h.published, h.held, h.ready, ?_, Nat.le_succ_of_le h.consumed, h.failed⟩
  intro p hp
  rcases Nat.lt_or_eq_of_le (Nat.le_of_lt_succ hp) with hp | rfl
  · exact h.taken p hp
  · exact hready

end Llmx
