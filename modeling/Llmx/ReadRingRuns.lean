import Llmx.ReadRingSafe

namespace Llmx

open Runs

variable {β : Type} {m : Stream β}

theorem ReadRing.move_keeps {r r' : ReadRing β} {j : Nat} {reader : Reader}
    {move : ReaderMove β} (hmove : r.move m j reader move = some r') :
    r'.next = r.next ∧ (r.failed ≠ none → r'.failed ≠ none) := by
  have hsame : r.next = r.next ∧ (r.failed ≠ none → r.failed ≠ none) := ⟨by rfl, id⟩
  cases move with
  | take =>
    simp only [ReadRing.move] at hmove
    split at hmove
    · split at hmove
      · cases hmove
        exact hsame
      · split at hmove
        · cases hmove
          exact hsame
        · cases hmove
    · cases hmove
  | write b =>
    simp only [ReadRing.move] at hmove
    split at hmove
    · cases hmove
      exact hsame
    · cases hmove
  | finish =>
    simp only [ReadRing.move] at hmove
    split at hmove
    · split at hmove
      · cases hmove
        exact hsame
      · cases hmove
        refine ⟨by rfl, fun _ => ?_⟩
        show (r.failed <|> some reader.piece) ≠ none
        cases r.failed <;> exact Option.some_ne_none _
    · cases hmove
  | publish =>
    simp only [ReadRing.move] at hmove
    split at hmove
    · cases hmove
      exact hsame
    · cases hmove
  | leave =>
    simp only [ReadRing.move] at hmove
    split at hmove
    · cases hmove
      exact hsame
    · cases hmove

/-- A call for the next piece that answers: the piece, whole in its slot, or nothing taken. -/
theorem ReadRing.nextPiece_cases {r r' : ReadRing β} {wait : Bool} {answer : Answer} (h : r.Inv m)
    (hnext : r.nextPiece m wait = some (answer, r')) :
    (∃ b bytes, answer = .full ⟨r.next, r.next % m.size, bytes⟩ ∧
        m.fill r.next = some (b, bytes) ∧ r.ring[r.next % m.size]? = some b ∧
        r.Published m r.next ∧ r' = { r with next := r.next + 1 }) ∨
      (answer = .nothing ∧ r' = r) ∨ (∃ p, answer = .throws p ∧ r.failed = some p ∧ r' = r) := by
  unfold ReadRing.nextPiece at hnext
  split at hnext
  · cases hnext
    exact .inr (.inl ⟨by rfl, by rfl⟩)
  · dsimp only at hnext
    split at hnext
    next hready =>
      have hpub := h.ready _ _ hready
      obtain ⟨-, b, bytes, hfill, hb, hgot⟩ := h.held r.next hpub h.consumed
      cases hnext
      refine .inl ⟨b, bytes, ?_, hfill, hb, hpub, by rfl⟩
      rw [hgot]
      apply Eq.refl
    · split at hnext
      next p hfailed =>
        cases hnext
        exact .inr (.inr ⟨p, by rfl, hfailed, by rfl⟩)
      · split at hnext
        · cases hnext
        · cases hnext
          exact .inr (.inl ⟨by rfl, by rfl⟩)

/-- What the consumer was given: the pieces in order, each with the bytes read for it. -/
structure RingRun.Inv (m : Stream β) (s : RingRun β) : Prop where
  ring : s.ring.Inv m
  given_length : s.given.length = s.ring.next
  given : ∀ (p : Nat) f c, s.given[p]? = some (f, c) → f.piece = p ∧ f.slot = p % m.size ∧
    ∃ b, m.fill p = some (b, f.bytes) ∧ c = some b
  threw : s.threw = true → s.ring.failed ≠ none

theorem RingRun.Started.inv {s : RingRun β} (h : s.Started m) : s.Inv m := by
  have hread : ∀ (j : Nat) (reader : Reader), s.ring.readers[j]? = some reader →
      j < m.threads ∧ reader = ⟨j, .waiting⟩ := by
    intro j reader hj
    rw [h.readers, List.getElem?_map, Option.map_eq_some_iff] at hj
    obtain ⟨i, hi, rfl⟩ := hj
    obtain ⟨hlt, hi⟩ := List.getElem?_eq_some_iff.mp hi
    rw [List.getElem_range] at hi
    rw [List.length_range] at hlt
    exact ⟨hlt, by rw [hi]⟩
  have hpub : ∀ p, ¬ s.ring.Published m p := by
    rintro p ⟨reader, hr, hp⟩
    obtain ⟨hlt, rfl⟩ := hread _ _ hr
    have hp : p < p % m.threads := hp
    have := Nat.mod_le p m.threads
    omega
  refine ⟨⟨h.ring, ?_, ?_, ?_, ?_, ?_, ?_, ?_, ?_, ?_, ?_, ?_, ?_, ?_⟩, ?_, ?_, ?_⟩
  · rw [h.ready, List.length_replicate]
  · rw [h.got, List.length_replicate]
  · rw [h.readers, List.length_map, List.length_range]
  · intro j reader hj
    obtain ⟨hlt, rfl⟩ := hread j reader hj
    exact Nat.mod_eq_of_lt hlt
  · intro j reader hj hphase
    obtain ⟨-, rfl⟩ := hread j reader hj
    cases hphase
  · intro j reader n hj hphase
    obtain ⟨-, rfl⟩ := hread j reader hj
    cases hphase
  · intro j reader hj hphase
    obtain ⟨-, rfl⟩ := hread j reader hj
    rcases hphase with hphase | hphase <;> cases hphase
  · intro p hp
    exact absurd hp (hpub p)
  · intro p hp
    exact absurd hp (hpub p)
  · intro slot q hq
    rw [h.ready] at hq
    have := List.eq_of_mem_replicate (List.mem_of_getElem? hq)
    omega
  · intro p hp
    rw [h.next] at hp
    exact absurd hp (Nat.not_lt_zero p)
  · rw [h.consumed]
    exact Nat.zero_le _
  · intro p hp
    rw [h.failed] at hp
    cases hp
  · rw [h.given, h.next]
    apply Eq.refl
  · intro p f c hp
    rw [h.given] at hp
    cases hp
  · intro ht
    rw [h.threw] at ht
    cases ht

theorem RingRun.Inv.step {s t : RingRun β} {e : RingEvent β} (h : s.Inv m)
    (hstep : s.step m e = some t) : t.Inv m := by
  cases e with
  | reader j move =>
    simp only [RingRun.step] at hstep
    split at hstep
    · cases hstep
    next reader hj =>
      obtain ⟨r', hmove, rfl⟩ := Option.map_eq_some_iff.mp hstep
      refine ⟨h.ring.move hj hmove, ?_, h.given, fun ht => ?_⟩
      · exact h.given_length.trans (ReadRing.move_keeps hmove).1.symm
      · exact (ReadRing.move_keeps hmove).2 (h.threw ht)
  | next wait =>
    simp only [RingRun.step] at hstep
    split at hstep
    · cases hstep
    next f ring hnext =>
      rcases ReadRing.nextPiece_cases h.ring hnext with
        ⟨b, bytes, ha, hfill, hb, hpub, rfl⟩ | ⟨ha, -⟩ | ⟨p, ha, -⟩
      · cases ha
        cases hstep
        refine ⟨h.ring.takeNext hpub, ?_, ?_, h.threw⟩
        · show (s.given ++ [_]).length = s.ring.next + 1
          rw [List.length_append, h.given_length, List.length_singleton]
        · intro p f c hp
          have hp : (s.given ++ [(⟨s.ring.next, s.ring.next % m.size, bytes⟩, _)])[p]? =
            some (f, c) := hp
          rcases Nat.lt_or_ge p s.given.length with hlt | hge
          · rw [List.getElem?_append_left hlt] at hp
            exact h.given p f c hp
          · rw [List.getElem?_append_right hge] at hp
            obtain ⟨hlt, hp⟩ := List.getElem?_eq_some_iff.mp hp
            rw [List.length_singleton] at hlt
            have hpn : p = s.ring.next := by
              have := h.given_length
              omega
            rw [List.getElem_singleton] at hp
            cases hp
            rw [hpn]
            exact ⟨by rfl, by rfl, b, hfill, hb⟩
      · cases ha
      · cases ha
    next ring hnext =>
      rcases ReadRing.nextPiece_cases h.ring hnext with ⟨b, bytes, ha, -⟩ | ⟨-, rfl⟩ | ⟨p, ha, -⟩
      · cases ha
      · cases hstep
        exact h
      · cases ha
    next p ring hnext =>
      rcases ReadRing.nextPiece_cases h.ring hnext with ⟨b, bytes, ha, -⟩ | ⟨ha, -⟩ |
        ⟨q, -, hf, rfl⟩
      · cases ha
      · cases ha
      · cases hstep
        refine ⟨h.ring, h.given_length, h.given, fun _ => ?_⟩
        show s.ring.failed ≠ none
        rw [hf]
        exact Option.some_ne_none q
  | free piece =>
    simp only [RingRun.step] at hstep
    split at hstep
    next hp =>
      cases hstep
      exact ⟨h.ring.free hp, h.given_length, h.given, h.threw⟩
    · cases hstep
  | stop =>
    cases hstep
    exact ⟨h.ring.stop, h.given_length, h.given, h.threw⟩

theorem reach_ringInv {s : RingRun β} (h : Reach (ringMachine m) s) : s.Inv m :=
  h.invariant (RingRun.Inv m) (fun _ hs => hs.inv) (fun _ _ _ hi he => hi.step he)

/-- What a stream promises its consumer in a state of a run. -/
structure RingRun.Delivers (m : Stream β) (s : RingRun β) : Prop where
  order : ∀ (p : Nat) f c, s.given[p]? = some (f, c) → f.piece = p ∧ f.slot = p % m.size ∧
    ∃ b, m.fill p = some (b, f.bytes) ∧ c = some b
  untouched : ∀ p, s.ring.consumed ≤ p → p < s.ring.next →
    ∃ b bytes, m.fill p = some (b, bytes) ∧ s.ring.ring[p % m.size]? = some b
  exclusive : ∀ (j : Nat) (reader : Reader), s.ring.readers[j]? = some reader →
    (reader.phase = .filling ∨ ∃ bytes, reader.phase = .filled bytes) →
    (∀ p, s.ring.consumed ≤ p → s.ring.Published m p → p % m.size ≠ reader.piece % m.size) ∧
      ∀ (i : Nat) (other : Reader), s.ring.readers[i]? = some other → i ≠ j →
        (other.phase = .filling ∨ ∃ bytes, other.phase = .filled bytes) →
        other.piece % m.size ≠ reader.piece % m.size
  throws : s.threw = true → ∃ p < m.count, m.fill p = none ∧ s.ring.failed = some p
  progress : s.ring.failed = none → s.ring.stopped = false → s.ring.consumed = s.ring.next →
    s.ring.next < m.count →
    s.ring.ready[s.ring.next % m.size]? = some (s.ring.next + 1) ∨
      ∃ j move t, (∀ b, move ≠ .write b) ∧ s.step m (.reader j move) = some t

/-- With all given back and pieces left, a reader can move or the next piece is ready. -/
theorem RingRun.Inv.progress {s : RingRun β} (h : s.Inv m) (hslots : 1 ≤ m.slots)
    (hreaders : 1 ≤ m.readers) (hfailed : s.ring.failed = none) (hstopped : s.ring.stopped = false)
    (hfreed : s.ring.consumed = s.ring.next) (hleft : s.ring.next < m.count) :
    s.ring.ready[s.ring.next % m.size]? = some (s.ring.next + 1) ∨
      ∃ j move t, (∀ b, move ≠ .write b) ∧ s.step m (.reader j move) = some t := by
  have hsize : 0 < m.size := Nat.lt_min.mpr ⟨hslots, Nat.zero_lt_of_lt hleft⟩
  have hthreads : 0 < m.threads := Nat.lt_min.mpr ⟨hreaders, hsize⟩
  have hj : s.ring.next % m.threads < s.ring.readers.length := by
    rw [h.ring.readers]
    exact Nat.mod_lt _ hthreads
  obtain ⟨reader, hr⟩ : ∃ reader, s.ring.readers[s.ring.next % m.threads]? = some reader :=
    ⟨_, List.getElem?_eq_getElem hj⟩
  by_cases hpub : s.ring.Published m s.ring.next
  · exact .inl (h.ring.held _ hpub h.ring.consumed).1
  have hpiece : reader.piece ≤ s.ring.next := Nat.le_of_not_lt fun hlt => hpub ⟨reader, hr, hlt⟩
  have hmove : ∀ move r', (∀ b, move ≠ .write b) →
      s.ring.move m (s.ring.next % m.threads) reader move = some r' →
      ∃ j move t, (∀ b, move ≠ .write b) ∧ s.step m (.reader j move) = some t := by
    intro move r' hne hm
    refine ⟨s.ring.next % m.threads, move, { s with ring := r' }, hne, ?_⟩
    simp only [RingRun.step, hr, hm, Option.map_some]
  right
  cases hphase : reader.phase with
  | waiting =>
    apply hmove .take _ (by rintro b ⟨⟩)
    simp only [ReadRing.move]
    rw [if_pos hphase, if_neg, if_pos (by omega)]
    rintro (hle | hs)
    · omega
    · rw [hstopped] at hs
      cases hs
  | filling =>
    cases hfill : m.fill reader.piece with
    | none =>
      apply hmove .finish _ (by rintro b ⟨⟩)
      simp only [ReadRing.move]
      rw [if_pos hphase, hfill]
    | some bn =>
      apply hmove .finish _ (by rintro b ⟨⟩)
      simp only [ReadRing.move]
      rw [if_pos hphase, hfill]
  | filled n =>
    apply hmove .publish _ (by rintro b ⟨⟩)
    simp only [ReadRing.move]
    rw [hphase]
  | leaving =>
    rcases h.ring.gone _ reader hr (.inl hphase) (by omega) with hs | hf
    · rw [hstopped] at hs
      cases hs
    · exact absurd hfailed hf
  | ended =>
    rcases h.ring.gone _ reader hr (.inr hphase) (by omega) with hs | hf
    · rw [hstopped] at hs
      cases hs
    · exact absurd hfailed hf

/-- In every run the pieces come in order, each once with its own bytes, which stay in their slot
until they are given back, and the readers do not stop short. -/
theorem read_ring_delivers (hslots : 1 ≤ m.slots) (hreaders : 1 ≤ m.readers) {s : RingRun β}
    (h : Reach (ringMachine m) s) : s.Delivers m := by
  have hi := reach_ringInv h
  have hwindow : ∀ (j : Nat) (reader : Reader), s.ring.readers[j]? = some reader →
      (reader.phase = .filling ∨ ∃ bytes, reader.phase = .filled bytes) →
      reader.piece < s.ring.consumed + m.size := by
    rintro j reader hj (hp | ⟨n, hp⟩)
    · exact (hi.ring.filling j reader hj hp).2
    · exact (hi.ring.filled j reader n hj hp).1.2
  refine ⟨hi.given, ?_, ?_, ?_, hi.progress hslots hreaders⟩
  · intro p hheld hlt
    obtain ⟨-, b, bytes, hfill, hb, -⟩ := hi.ring.held p (hi.ring.taken p hlt) hheld
    exact ⟨b, bytes, hfill, hb⟩
  · intro j reader hj hphase
    refine ⟨?_, ?_⟩
    · intro p hheld hp
      exact hi.ring.apart hj (hwindow j reader hj hphase) hp hheld
    · intro i other hio hij hother
      exact hi.ring.readers_apart hio hj hij (hwindow i other hio hother)
        (hwindow j reader hj hphase)
  · intro ht
    obtain ⟨p, hp⟩ := Option.ne_none_iff_exists'.mp (hi.threw ht)
    obtain ⟨hlt, hfill⟩ := hi.ring.failed p hp
    exact ⟨p, hlt, hfill, hp⟩

/-- Three pieces through two slots, the last one's read failing. -/
def shortStream : Stream Nat where
  count := 3
  slots := 2
  readers := 2
  fill p := if p = 2 then none else some (p + 10, p + 1)

def shortRun : RingRun Nat where
  ring :=
    { ring := [10, 11], next := 2, consumed := 1, ready := [1, 2], got := [1, 2],
      readers := [⟨2, .leaving⟩, ⟨3, .waiting⟩], running := 2, stopped := false, failed := some 2 }
  given := [(⟨0, 0, 1⟩, some 10), (⟨1, 1, 2⟩, some 11)]
  threw := true

theorem shortRun_delivers : shortRun.Delivers shortStream := by
  let s : RingRun Nat :=
    { ring :=
        { ring := [0, 0], next := 0, consumed := 0, ready := [0, 0], got := [0, 0],
          readers := [⟨0, .waiting⟩, ⟨1, .waiting⟩], running := 2, stopped := false, failed := none }
      given := []
      threw := false }
  have hs : s.Started shortStream := by
    constructor <;> decide
  refine read_ring_delivers (by decide) (by decide) (reach_of_play
    [.reader 1 .take, .reader 1 (.write 7), .reader 1 .finish, .next false, .reader 1 .publish,
      .reader 0 .take, .reader 0 .finish, .reader 0 .publish, .next true, .next true, .free 0,
      .reader 0 .take, .reader 0 .finish, .next true] hs ?_)
  decide

end Llmx
