import Llmx.LookupSpans

/-!
A span of a file read through a window on the file's granule: the reads asked for, the window's
bytes they write and the copies out of it.
-/

namespace Llmx

namespace AlignedReads

open WeightRows (FileReader)

inductive ReadError
  | notAligned
  | cannotRead
  | windowTooSmall
  | shortRead
deriving DecidableEq, Repr

/-- The memory of a read by place, and what it has asked of the file and written to its window,
each a start and a count of bytes; the places past a window's capacity are other memory. -/
structure Memory where
  window : Nat → UInt8
  dst : Nat → UInt8
  reads : List (Nat × Nat)
  writes : List (Nat × Nat)

/-- A window's bytes, which start on a page. -/
structure Window where
  address : Nat
  page : Nat
  capacity : Nat
  onPage : address % page = 0

/-- At most 1 GiB a call. -/
def callLimit : Nat := 2 ^ 30

variable (f : FileReader) (pread : Nat → Nat → Option Nat)

/-- `n` bytes of the file written to the window, of the read at `offset` from `done` on. -/
def Memory.fill (m : Memory) (offset done n : Nat) : Memory :=
  { m with
    window := Tiling.put m.window done n fun i => f.content.getD (offset + i) 0
    writes := m.writes ++ [(done, n)] }

/-- Calls until the read is whole or the file ends; `pread offset want` is what a call gets. -/
def readFrom (offset bytes done : Nat) (m : Memory) : Except ReadError Nat × Memory :=
  if done < bytes then
    match pread (offset + done) (min (bytes - done) callLimit) with
    | none => (.error .cannotRead, m)
    | some n =>
      if n = 0 then (.ok done, m)
      else if f.direct = true ∧ (done + n) % f.granule ≠ 0 then
        (.ok (done + n), m.fill f offset done n)
      else readFrom offset bytes (done + n) (m.fill f offset done n)
  else (.ok done, m)
termination_by bytes - done
decreasing_by omega

def read (w : Window) (offset bytes : Nat) (m : Memory) : Except ReadError Nat × Memory :=
  let m := { m with reads := m.reads ++ [(offset, bytes)] }
  if f.direct = true ∧
      (offset % f.granule ≠ 0 ∨ bytes % f.granule ≠ 0 ∨ w.address % w.page ≠ 0) then
    (.error .notAligned, m)
  else readFrom f pread offset bytes 0 m

/-- What a read through the window raises, if it does, and the memory it leaves. -/
def readAlignedFrom (w : Window) (offset bytes done : Nat) (m : Memory) :
    Option ReadError × Memory :=
  if done < bytes then
    let start := offset + done
    let aligned := start / f.granule * f.granule
    let lead := start - aligned
    let room := if lead < w.capacity then w.capacity - lead else 0
    let take := min (bytes - done) room
    if take = 0 then (some .windowTooSmall, m)
    else
      let request := (lead + take + f.granule - 1) / f.granule * f.granule
      let r := read f pread w aligned request m
      match r.1 with
      | .error e => (some e, r.2)
      | .ok got =>
        if got < lead ∨ got - lead < take then (some .shortRead, r.2)
        else readAlignedFrom w offset bytes (done + take)
          { r.2 with dst := Tiling.put r.2.dst done take fun i => r.2.window (lead + (i - done)) }
  else (none, m)
termination_by bytes - done
decreasing_by
  show bytes - (done + take) < bytes - done
  omega

def readAligned (w : Window) (offset bytes : Nat) (window dst : Nat → UInt8) :
    Option ReadError × Memory :=
  readAlignedFrom f pread w offset bytes 0 ⟨window, dst, [], []⟩

/-- The system's calls: each gets bytes the file has at its offset, and some unless it is past the
end; a direct one comes back short at the end alone, and its granule divides the most a call takes. -/
structure Serves : Prop where
  gets : ∀ offset want, ∃ n, pread offset want = some n ∧ n ≤ want ∧ n ≤ f.content.length - offset
  pos : ∀ offset want n, pread offset want = some n → 0 < want → offset < f.content.length → 0 < n
  whole : f.direct = true → ∀ offset want n, pread offset want = some n →
    n = min want (f.content.length - offset)
  divides : f.direct = true → f.granule ∣ callLimit

variable {f pread}

/-- Places from `done` up to `got` filled from a read at `offset`, the last written included. -/
structure Filled (f : FileReader) (offset done got : Nat) (m m' : Memory) : Prop where
  window : ∀ i, m'.window i =
    if done ≤ i ∧ i < got then f.content.getD (offset + i) 0 else m.window i
  dst : m'.dst = m.dst
  reads : m'.reads = m.reads
  writes : ∃ ws, m'.writes = m.writes ++ ws ∧ (∀ x ∈ ws, x.1 + x.2 ≤ got) ∧
    (done < got → ∃ x ∈ ws, x.1 + x.2 = got)

theorem Filled.none (f : FileReader) (offset done : Nat) (m : Memory) :
    Filled f offset done done m m where
  window _ := (if_neg fun h => absurd h.2 (Nat.not_lt.mpr h.1)).symm
  dst := Eq.refl _
  reads := Eq.refl _
  writes := ⟨[], (List.append_nil _).symm, fun _ hx => absurd hx List.not_mem_nil,
    fun h => absurd h (Nat.lt_irrefl _)⟩

/-- A call's bytes and then those of the calls after it. -/
theorem Filled.fill {offset done n got : Nat} {m m' : Memory} (hn : 0 < n)
    (h : Filled f offset (done + n) got (m.fill f offset done n) m') (hgot : done + n ≤ got) :
    Filled f offset done got m m' := by
  obtain ⟨ws, hws, hle, hlast⟩ := h.writes
  refine ⟨fun i => ?_, h.dst, h.reads, (done, n) :: ws, ?_, fun x hx => ?_, fun _ => ?_⟩
  · rw [h.window]
    show (if done + n ≤ i ∧ i < got then _ else
      if done ≤ i ∧ i < done + n then f.content.getD (offset + i) 0 else m.window i) = _
    by_cases hafter : done + n ≤ i ∧ i < got
    · rw [if_pos hafter, if_pos (by omega)]
    · rw [if_neg hafter]
      by_cases hin : done ≤ i ∧ i < done + n
      · rw [if_pos hin, if_pos (by omega)]
      · rw [if_neg hin, if_neg (by omega)]
  · rw [hws]
    show m.writes ++ [(done, n)] ++ ws = _
    rw [List.append_assoc]
    exact Eq.refl _
  · rcases List.mem_cons.mp hx with rfl | hx
    · exact hgot
    · exact hle x hx
  · rcases Nat.lt_or_ge (done + n) got with hlt | hge
    · obtain ⟨x, hx, hlast⟩ := hlast hlt
      exact ⟨x, List.mem_cons_of_mem _ hx, hlast⟩
    · exact ⟨(done, n), List.mem_cons_self, Nat.le_antisymm hgot hge⟩

/-- A read gets all the file has of it. -/
theorem readFrom_spec (h : Serves f pread) {offset bytes done : Nat} (m : Memory)
    (hdone : done ≤ min bytes (f.content.length - offset))
    (hdirect : f.direct = true → f.granule ∣ bytes ∧ f.granule ∣ done) :
    (readFrom f pread offset bytes done m).1 = .ok (min bytes (f.content.length - offset)) ∧
      Filled f offset done (min bytes (f.content.length - offset)) m
        (readFrom f pread offset bytes done m).2 := by
  fun_induction readFrom f pread offset bytes done m with
  | case1 done m hlt hcall =>
    obtain ⟨n, hn, -⟩ := h.gets (offset + done) (min (bytes - done) callLimit)
    rw [hcall] at hn
    cases hn
  | case2 done m hlt hcall =>
    have hend : min bytes (f.content.length - offset) = done := by
      rcases Nat.lt_or_ge (offset + done) f.content.length with hin | hout
      · have hwant : 0 < min (bytes - done) callLimit := by
          have hlimit : 0 < callLimit := Nat.two_pow_pos 30
          omega
        exact absurd (h.pos _ _ _ hcall hwant hin) (Nat.lt_irrefl 0)
      · omega
    rw [hend]
    exact ⟨Eq.refl _, Filled.none f offset done m⟩
  | case3 done m hlt n hcall hzero hshort =>
    obtain ⟨k, hk, hwant, hfile⟩ := h.gets (offset + done) (min (bytes - done) callLimit)
    rw [hcall] at hk
    cases hk
    obtain ⟨hbytes, hmore⟩ := hdirect hshort.1
    have hn := h.whole hshort.1 _ _ _ hcall
    have hend : min bytes (f.content.length - offset) = done + n := by
      have hpart : n ≠ min (bytes - done) callLimit := by
        intro heq
        have hdvd : f.granule ∣ n := by
          rcases Nat.le_total (bytes - done) callLimit with hle | hle
          · rw [heq, Nat.min_eq_left hle]
            exact Nat.dvd_sub hbytes hmore
          · rw [heq, Nat.min_eq_right hle]
            exact h.divides hshort.1
        exact hshort.2 (Nat.mod_eq_zero_of_dvd (Nat.dvd_add hmore hdvd))
      omega
    rw [hend]
    exact ⟨Eq.refl _, (Filled.none f offset _ _).fill (Nat.pos_of_ne_zero hzero) (Nat.le_refl _)⟩
  | case4 done m hlt n hcall hzero hgoes ih =>
    obtain ⟨k, hk, hwant, hfile⟩ := h.gets (offset + done) (min (bytes - done) callLimit)
    rw [hcall] at hk
    cases hk
    have hle : done + n ≤ min bytes (f.content.length - offset) := by omega
    obtain ⟨hgot, hfilled⟩ := ih hle fun hd => ⟨(hdirect hd).1, by
      by_contra hnot
      exact hgoes ⟨hd, fun hmod => hnot (Nat.dvd_of_mod_eq_zero hmod)⟩⟩
    exact ⟨hgot, hfilled.fill (Nat.pos_of_ne_zero hzero) hle⟩
  | case5 done m hall =>
    have hend : min bytes (f.content.length - offset) = done := by omega
    rw [hend]
    exact ⟨Eq.refl _, Filled.none f offset done m⟩

section Rounding

variable {g : Nat}

theorem roundUp_spec (hg : 0 < g) (n : Nat) :
    n ≤ (n + g - 1) / g * g ∧ (n + g - 1) / g * g < n + g ∧ g ∣ (n + g - 1) / g * g := by
  have hdiv := Nat.div_add_mod' (n + g - 1) g
  have hmod := Nat.mod_lt (n + g - 1) hg
  exact ⟨by omega, by omega, Nat.dvd_mul_left _ _⟩

theorem multiple_le {a b : Nat} (ha : g ∣ a) (hb : g ∣ b) (h : a < b + g) : a ≤ b := by
  obtain ⟨k, rfl⟩ := ha
  obtain ⟨j, rfl⟩ := hb
  have hlt : g * k < g * (j + 1) := h
  exact Nat.mul_le_mul_left g (Nat.le_of_lt_succ (Nat.lt_of_mul_lt_mul_left hlt))

/-- Whether the window holds the span's reads: it is of whole granules, or the span ends in those it
has, or the file ends in the window. -/
def Fits (g capacity length offset bytes : Nat) : Prop :=
  g ∣ capacity ∨ offset % g + bytes ≤ capacity / g * g ∨ length ≤ offset / g * g + capacity

/-- A chunk's bytes stay in the window exactly where the span fits. -/
theorem fits_iff {capacity length start left : Nat} (hg : 0 < g) (hcap : g ≤ capacity)
    (hleft : 0 < left) :
    Fits g capacity length start left ↔
      min ((start % g + min left (capacity - start % g) + g - 1) / g * g)
        (length - start / g * g) ≤ capacity := by
  have hlead := Nat.mod_lt start hg
  have hfull := Nat.div_add_mod' capacity g
  have hover := Nat.mod_lt capacity hg
  obtain ⟨hle, hlt, hdvd⟩ := roundUp_spec hg (start % g + min left (capacity - start % g))
  have hwhole : g ∣ capacity / g * g := Nat.dvd_mul_left _ _
  constructor
  · intro h
    rcases h with h | h | h
    · have := multiple_le hdvd h (by omega)
      omega
    · have := multiple_le hdvd hwhole (by omega)
      omega
    · omega
  · intro h
    by_contra hnot
    obtain ⟨hrough, hnot⟩ := not_or.mp hnot
    obtain ⟨hlong, hfile⟩ := not_or.mp hnot
    have hmod : capacity % g ≠ 0 := fun hzero => hrough (Nat.dvd_of_mod_eq_zero hzero)
    have hmore : capacity / g * g < (start % g + min left (capacity - start % g) + g - 1) / g * g := by
      omega
    have hnext : capacity / g * g + g ≤
        (start % g + min left (capacity - start % g) + g - 1) / g * g := by
      by_contra hnear
      have := multiple_le hdvd hwhole (by omega)
      omega
    omega

theorem Fits.next {capacity length start left take : Nat} (h : Fits g capacity length start left)
    (hg : 0 < g) (hcap : g ≤ capacity)
    (htake : take = min left (capacity - start % g)) :
    Fits g capacity length (start + take) (left - take) := by
  have hfull := Nat.div_add_mod' capacity g
  have hover := Nat.mod_lt capacity hg
  rcases h with h | h | h
  · exact .inl h
  · refine .inr (.inl ?_)
    have hmod := Nat.mod_lt (start + take) hg
    have hone : g ≤ capacity / g * g := by
      by_contra hsmall
      have := multiple_le (Nat.dvd_refl g) (Nat.dvd_mul_left g (capacity / g)) (by omega)
      omega
    omega
  · refine .inr (.inr ?_)
    have hmono : start / g * g ≤ (start + take) / g * g :=
      Nat.mul_le_mul_right g (Nat.div_le_div_right (Nat.le_add_right _ _))
    omega

end Rounding

section Runs

variable {w : Window} {offset bytes done : Nat} {m m' : Memory} {raised : Option ReadError}

/-- What a read through the window has done from `done` bytes on. -/
structure Ran (f : FileReader) (w : Window) (offset bytes done : Nat) (m m' : Memory)
    (raised : Option ReadError) : Prop where
  reads : ∃ rs, m'.reads = m.reads ++ rs ∧ rs.length ≤ bytes - done ∧
    ∀ r ∈ rs, r.1 % f.granule = 0 ∧ (r.1 + r.2) % f.granule = 0
  writes : ∃ ws, m'.writes = m.writes ++ ws ∧ ((∀ x ∈ ws, x.1 + x.2 ≤ w.capacity) ↔
    Fits f.granule w.capacity f.content.length (offset + done) (bytes - done))
  copied : raised = none → ∀ i, m'.dst i =
    if done ≤ i ∧ i < bytes then f.content.getD (offset + i) 0 else m.dst i
  raises : raised = none ↔ ∀ i, done ≤ i → i < bytes → offset + i < f.content.length

theorem read_spec (h : Serves f pread) (w : Window) {offset bytes : Nat} (hoffset : f.granule ∣ offset)
    (hbytes : f.granule ∣ bytes) (m : Memory) :
    (read f pread w offset bytes m).1 = .ok (min bytes (f.content.length - offset)) ∧
      Filled f offset 0 (min bytes (f.content.length - offset))
        { m with reads := m.reads ++ [(offset, bytes)] } (read f pread w offset bytes m).2 := by
  unfold read
  dsimp only
  rw [if_neg (fun hmis => ?_)]
  · exact readFrom_spec h _ (Nat.zero_le _) fun _ => ⟨hbytes, Nat.dvd_zero _⟩
  · rcases hmis.2 with hmis | hmis | hmis
    · exact hmis (Nat.mod_eq_zero_of_dvd hoffset)
    · exact hmis (Nat.mod_eq_zero_of_dvd hbytes)
    · exact hmis w.onPage

/-- Where a chunk's read starts, how far in its bytes are and how many are taken. -/
theorem chunk_places (start left : Nat) {g capacity lead room take : Nat} (hg : 0 < g)
    (hcap : g ≤ capacity) (hleft : 0 < left) (hlead : lead = start - start / g * g)
    (hroom : room = if lead < capacity then capacity - lead else 0)
    (htake : take = min left room) :
    start / g * g + lead = start ∧ lead = start % g ∧ take = min left (capacity - start % g) ∧
      0 < take := by
  have hdiv := Nat.div_add_mod' start g
  have hmod := Nat.mod_lt start hg
  rw [if_pos (by omega)] at hroom
  omega

/-- The read of the chunk at `start` of the `left` bytes there are. -/
structure Chunk (f : FileReader) (w : Window) (start left take got : Nat) (m m' : Memory) : Prop where
  took : take = min left (w.capacity - start % f.granule)
  pos : 0 < take
  got_eq : got = min ((start % f.granule + take + f.granule - 1) / f.granule * f.granule)
    (f.content.length - start / f.granule * f.granule)
  filled : Filled f (start / f.granule * f.granule) 0 got
    { m with reads := m.reads ++ [(start / f.granule * f.granule,
      (start % f.granule + take + f.granule - 1) / f.granule * f.granule)] } m'

variable {start left take got : Nat}

theorem Chunk.reads (h : Chunk f w start left take got m m') : ∃ r, m'.reads = m.reads ++ [r] ∧
    r.1 % f.granule = 0 ∧ (r.1 + r.2) % f.granule = 0 := by
  refine ⟨_, h.filled.reads, Nat.mul_mod_left _ _, ?_⟩
  apply Nat.mod_eq_zero_of_dvd
  exact Nat.dvd_add (Nat.dvd_mul_left _ _) (Nat.dvd_mul_left _ _)

theorem Chunk.writes (h : Chunk f w start left take got m m') (hcap : f.granule ≤ w.capacity) :
    ∃ ws, m'.writes = m.writes ++ ws ∧ ((∀ x ∈ ws, x.1 + x.2 ≤ w.capacity) ↔
      Fits f.granule w.capacity f.content.length start left) := by
  have htook := h.took
  have hpos := h.pos
  obtain ⟨ws, hws, hle, hlast⟩ := h.filled.writes
  refine ⟨ws, hws, ?_⟩
  rw [fits_iff f.pos hcap (by omega), ← htook, ← h.got_eq]
  constructor
  · intro hin
    rcases Nat.eq_zero_or_pos got with hzero | hgot
    · omega
    · obtain ⟨x, hx, hend⟩ := hlast hgot
      have := hin x hx
      omega
  · intro hgot x hx
    have := hle x hx
    omega

/-- A chunk comes whole where the file goes on past it. -/
theorem Chunk.whole (h : Chunk f w start left take got m m') :
    start % f.granule + take ≤ got ↔ start + take ≤ f.content.length := by
  have hdiv := Nat.div_add_mod' start f.granule
  have hpos := h.pos
  obtain ⟨hle, -⟩ := roundUp_spec f.pos (start % f.granule + take)
  rw [h.got_eq]
  omega

theorem Chunk.window (h : Chunk f w start left take got m m') {k : Nat} (hk : k < got) :
    m'.window k = f.content.getD (start / f.granule * f.granule + k) 0 := by
  rw [h.filled.window, if_pos ⟨Nat.zero_le k, hk⟩]

/-- A chunk that comes short raises, and the file ends in it. -/
theorem Chunk.ran_short (h : Chunk f w (offset + done) (bytes - done) take got m m')
    (hcap : f.granule ≤ w.capacity) {lead : Nat} (hlead : lead = (offset + done) % f.granule)
    (hshort : got < lead ∨ got - lead < take) (e : ReadError) :
    Ran f w offset bytes done m m' (some e) := by
  have hpos := h.pos
  have htook := h.took
  obtain ⟨r, hr, haligned⟩ := h.reads
  refine ⟨⟨[r], hr, ?_, fun r' hr' => ?_⟩, h.writes hcap, fun hnone => ?_, ?_⟩
  · show 1 ≤ bytes - done
    omega
  · rw [List.mem_singleton.mp hr']
    exact haligned
  · cases hnone
  · refine iff_of_false (fun hnone => ?_) fun hall => ?_
    · cases hnone
    · have hlast := hall (done + take - 1) (by omega) (by omega)
      have hwhole := h.whole.mpr (by omega)
      omega

/-- A chunk that comes whole is copied, and the run goes on after it. -/
theorem Chunk.ran_next {m'' : Memory} (h : Chunk f w (offset + done) (bytes - done) take got m m')
    (hcap : f.granule ≤ w.capacity) {lead : Nat} (hlead : lead = (offset + done) % f.granule)
    (hlong : ¬ (got < lead ∨ got - lead < take))
    (hrest : Ran f w offset bytes (done + take)
      { m' with dst := Tiling.put m'.dst done take fun i => m'.window (lead + (i - done)) } m''
      raised) :
    Ran f w offset bytes done m m'' raised := by
  have hpos := h.pos
  have htook := h.took
  have hin := h.whole.mp (by omega)
  have hdiv := Nat.div_add_mod' (offset + done) f.granule
  obtain ⟨r, hr, haligned⟩ := h.reads
  obtain ⟨rs, hrs, hlength, hall⟩ := hrest.reads
  obtain ⟨ws, hws, hfits⟩ := h.writes hcap
  obtain ⟨ws', hws', hfits'⟩ := hrest.writes
  refine ⟨⟨r :: rs, ?_, ?_, fun r' hr' => ?_⟩, ⟨ws ++ ws', ?_, ?_⟩, fun hnone i => ?_, ?_⟩
  · rw [hrs]
    show m'.reads ++ rs = _
    rw [hr, List.append_assoc]
    exact Eq.refl _
  · rw [List.length_cons]
    omega
  · rcases List.mem_cons.mp hr' with rfl | hr'
    · exact haligned
    · exact hall r' hr'
  · rw [hws']
    show m'.writes ++ ws' = _
    rw [hws, List.append_assoc]
  · rw [List.forall_mem_append, hfits, hfits']
    constructor
    · exact And.left
    · intro hfit
      have hnext := hfit.next f.pos hcap htook
      rw [Nat.add_assoc, Nat.sub_sub] at hnext
      exact ⟨hfit, hnext⟩
  · rw [hrest.copied hnone]
    show (if done + take ≤ i ∧ i < bytes then _ else
      if done ≤ i ∧ i < done + take then m'.window _ else m'.dst i) = _
    by_cases hafter : done + take ≤ i ∧ i < bytes
    · rw [if_pos hafter, if_pos (by omega)]
    · rw [if_neg hafter]
      by_cases hchunk : done ≤ i ∧ i < done + take
      · rw [if_pos hchunk, if_pos (by omega), h.window (by omega)]
        congr 1
        omega
      · rw [if_neg hchunk, if_neg (by omega), h.filled.dst]
  · rw [hrest.raises]
    constructor
    · intro hafter i hi hlt
      rcases Nat.lt_or_ge i (done + take) with hnear | hfar
      · omega
      · exact hafter i hfar hlt
    · intro hall i hi hlt
      exact hall i (by omega) hlt

theorem chunk_read (start left : Nat) (h : Serves f pread) (hcap : f.granule ≤ w.capacity)
    {lead room request : Nat} (hleft : 0 < left) (hlead : lead = start - start / f.granule * f.granule)
    (hroom : room = if lead < w.capacity then w.capacity - lead else 0)
    (htake : take = min left room)
    (hrequest : request = (lead + take + f.granule - 1) / f.granule * f.granule) (m : Memory) :
    ∃ got, (read f pread w (start / f.granule * f.granule) request m).1 = .ok got ∧
      Chunk f w start left take got m
        (read f pread w (start / f.granule * f.granule) request m).2 ∧
      lead = start % f.granule := by
  obtain ⟨-, hmod, htook, hpos⟩ := chunk_places start left f.pos hcap hleft hlead hroom htake
  have hbegins : f.granule ∣ start / f.granule * f.granule := Nat.dvd_mul_left _ _
  have hlasts : f.granule ∣ request := by
    rw [hrequest]
    exact Nat.dvd_mul_left _ _
  have hspec := read_spec h w hbegins hlasts m
  rw [hmod] at hrequest
  rw [hrequest] at hspec ⊢
  exact ⟨_, hspec.1, ⟨htook, hpos, Eq.refl _, hspec.2⟩, hmod⟩

theorem readAlignedFrom_ran (h : Serves f pread) (hcap : f.granule ≤ w.capacity) (offset : Nat)
    {bytes done : Nat} (m : Memory) :
    Ran f w offset bytes done m (readAlignedFrom f pread w offset bytes done m).2
      (readAlignedFrom f pread w offset bytes done m).1 := by
  fun_induction readAlignedFrom f pread w offset bytes done m with
  | case1 done m hlt start aligned lead room take hzero =>
    obtain ⟨-, -, -, hpos⟩ := chunk_places start (bytes - done) f.pos hcap
      (by omega) (Eq.refl lead) (Eq.refl room) (Eq.refl take)
    exact absurd hzero (Nat.ne_of_gt hpos)
  | case2 done m hlt start aligned lead room take htake request r e he =>
    obtain ⟨got, hgot, -⟩ := chunk_read start (bytes - done) h hcap (by omega)
      (Eq.refl lead) (Eq.refl room) (Eq.refl take) (Eq.refl request) m
    have hclash := he.symm.trans hgot
    cases hclash
  | case3 done m hlt start aligned lead room take htake request r got hgot hshort =>
    obtain ⟨got', hgot', hchunk, hlead⟩ := chunk_read start (bytes - done) h hcap
      (by omega) (Eq.refl lead) (Eq.refl room) (Eq.refl take) (Eq.refl request) m
    obtain rfl : got = got' := Except.ok.inj (hgot.symm.trans hgot')
    exact hchunk.ran_short hcap hlead hshort _
  | case4 done m hlt start aligned lead room take htake request r got hgot hlong ih =>
    obtain ⟨got', hgot', hchunk, hlead⟩ := chunk_read start (bytes - done) h hcap
      (by omega) (Eq.refl lead) (Eq.refl room) (Eq.refl take) (Eq.refl request) m
    obtain rfl : got = got' := Except.ok.inj (hgot.symm.trans hgot')
    exact hchunk.ran_next hcap hlead hlong ih
  | case5 done m hdone =>
    have hnone : bytes - done = 0 := by omega
    refine ⟨⟨[], (List.append_nil _).symm, Nat.zero_le _, fun r hr => absurd hr List.not_mem_nil⟩,
      ⟨[], (List.append_nil _).symm, ?_⟩, fun _ i => (if_neg (by omega)).symm,
      iff_of_true (Eq.refl _) fun i hi hlt => absurd hlt (by omega)⟩
    refine iff_of_true (fun x hx => absurd hx List.not_mem_nil) (.inr (.inl ?_))
    have hmod := Nat.mod_lt (offset + done) f.pos
    have hone := Nat.mul_le_mul_right f.granule (Nat.div_pos hcap f.pos)
    omega

/-- Returning, a read through the window copies what the rows' reader copies, and both return where
the file holds the span. -/
theorem returns_iff_rows (h : Serves f pread) (hcap : f.granule ≤ w.capacity) (offset place : Nat)
    {bytes done : Nat} {come : Nat → Option Nat} (hcome : WeightRows.Whole f come) (m : Memory) :
    (readAlignedFrom f pread w offset bytes done m).1 = none ↔
      (WeightRows.readAligned f offset place bytes w.capacity come done).isSome = true := by
  rw [(readAlignedFrom_ran h hcap offset m).raises]
  fun_induction WeightRows.readAligned f offset place bytes w.capacity come done with
  | case1 done hlt start aligned lead room take hzero =>
    obtain ⟨-, -, -, hpos⟩ := chunk_places start (bytes - done) f.pos hcap
      (by omega) (Eq.refl lead) (Eq.refl room) (Eq.refl take)
    exact absurd hzero (Nat.ne_of_gt hpos)
  | case2 done hlt start aligned lead room take htake request ih =>
    obtain ⟨n, hn, hlong⟩ := hcome done
    obtain ⟨data, hdata, hlength⟩ := WeightRows.read_whole aligned request hn hlong
      fun _ => ⟨Nat.mul_mod_left _ _, Nat.mul_mod_left _ _⟩
    obtain ⟨hstart, -, -, hpos⟩ := chunk_places start (bytes - done) f.pos hcap
      (by omega) (Eq.refl lead) (Eq.refl room) (Eq.refl take)
    obtain ⟨hle, -⟩ := roundUp_spec f.pos (lead + take)
    have htook : take ≤ bytes - done := Nat.min_le_left _ _
    have hstart : aligned + lead = offset + done := hstart
    have hle : lead + take ≤ request := hle
    show _ ↔ ((f.read aligned request (come done)).bind _).isSome = true
    rw [hdata, Option.bind_some]
    split
    next hshort =>
      refine iff_of_false (fun hall => ?_) Bool.false_ne_true
      have hlast := hall (done + take - 1) (by omega) (by omega)
      omega
    next hwhole =>
      rw [Option.isSome_map, ← ih data hwhole]
      constructor
      · intro hall i hi hlt
        exact hall i (by omega) hlt
      · intro hafter i hi hlt
        rcases Nat.lt_or_ge i (done + take) with hnear | hfar
        · omega
        · exact hafter i hfar hlt
  | case3 done hdone =>
    exact iff_of_true (fun i hi hlt => absurd hlt (by omega)) (Eq.refl _)

end Runs

/-- What the span's reader is to do: read on the granule, write to its window alone, copy the span's
bytes and no others, and raise where the file ends before the span does. -/
structure Meets (f : FileReader) (w : Window) (offset bytes : Nat) (dst : Nat → UInt8)
    (r : Option ReadError × Memory) : Prop where
  ends : r.2.reads.length ≤ bytes
  onGranule : ∀ x ∈ r.2.reads, x.1 % f.granule = 0 ∧ (x.1 + x.2) % f.granule = 0
  inside : ∀ x ∈ r.2.writes, x.1 + x.2 ≤ w.capacity
  copied : r.1 = none → ∀ i, r.2.dst i =
    if i < bytes then f.content.getD (offset + i) 0 else dst i
  raises : r.1 ≠ none ↔ ∃ i < bytes, f.content.length ≤ offset + i

/-- Calls that each get all there is. -/
def wholeCalls (f : FileReader) (offset want : Nat) : Option Nat :=
  some (min want (f.content.length - offset))

theorem serves_whole {f : FileReader} (hdivides : f.direct = true → f.granule ∣ callLimit) :
    Serves f (wholeCalls f) where
  gets offset want := ⟨_, Eq.refl _, Nat.min_le_left _ _, Nat.min_le_right _ _⟩
  pos offset want n h hwant hin := by
    have hn : min want (f.content.length - offset) = n := Option.some.inj h
    omega
  whole _ offset want n h := (Option.some.inj h).symm
  divides := hdivides

theorem Meets.fits {f : FileReader} {pread : Nat → Nat → Option Nat} (h : Serves f pread)
    {w : Window} (hcap : f.granule ≤ w.capacity) {offset bytes : Nat} {window dst : Nat → UInt8}
    (hmeets : Meets f w offset bytes dst (readAligned f pread w offset bytes window dst)) :
    Fits f.granule w.capacity f.content.length offset bytes := by
  have hran : Ran f w offset bytes 0 ⟨window, dst, [], []⟩ _ _ :=
    readAlignedFrom_ran h hcap offset ⟨window, dst, [], []⟩
  obtain ⟨ws, hws, hfits⟩ := hran.writes
  rw [List.nil_append] at hws
  have hinside := hmeets.inside
  unfold readAligned at hinside
  rw [hws] at hinside
  exact hfits.mp hinside

/-- A read through a window stays in it exactly where the span fits it. -/
theorem readAligned_meets {f : FileReader} {pread : Nat → Nat → Option Nat} (h : Serves f pread)
    {w : Window} (hcap : f.granule ≤ w.capacity) (offset bytes : Nat) (window dst : Nat → UInt8) :
    Meets f w offset bytes dst (readAligned f pread w offset bytes window dst) ↔
      Fits f.granule w.capacity f.content.length offset bytes := by
  have hran : Ran f w offset bytes 0 ⟨window, dst, [], []⟩ _ _ :=
    readAlignedFrom_ran h hcap offset ⟨window, dst, [], []⟩
  obtain ⟨rs, hrs, hlength, hall⟩ := hran.reads
  obtain ⟨ws, hws, hfits⟩ := hran.writes
  rw [List.nil_append] at hrs hws
  constructor
  · exact Meets.fits h hcap
  · intro hfit
    unfold readAligned
    refine ⟨?_, ?_, ?_, fun hnone i => ?_, ?_⟩
    · rw [hrs]
      exact hlength
    · rw [hrs]
      exact hall
    · rw [hws]
      exact hfits.mpr hfit
    · rw [hran.copied hnone]
      by_cases hi : i < bytes
      · rw [if_pos ⟨Nat.zero_le i, hi⟩, if_pos hi]
      · rw [if_neg fun h => hi h.2, if_neg hi]
    · rw [Ne, hran.raises]
      constructor
      · intro hnot
        by_contra hin
        exact hnot fun i _ hi => Nat.lt_of_not_le fun hle => hin ⟨i, hi, hle⟩
      · intro ⟨i, hi, hle⟩ hin
        exact absurd (hin i (Nat.zero_le i) hi) (Nat.not_lt.mpr hle)

/-- Three bytes past the first granule's start, through a window of one granule. -/
theorem readAligned_meets_three :
    Meets ⟨[1, 2, 3, 4, 5, 6], false, 4, by decide⟩ ⟨4096, 4096, 4, by decide⟩ 2 3 (fun _ => 0)
      (readAligned ⟨[1, 2, 3, 4, 5, 6], false, 4, by decide⟩
        (wholeCalls ⟨[1, 2, 3, 4, 5, 6], false, 4, by decide⟩) ⟨4096, 4096, 4, by decide⟩ 2 3
        (fun _ => 0) (fun _ => 0)) :=
  (readAligned_meets (serves_whole fun h => absurd h Bool.false_ne_true) (Nat.le_refl 4) 2 3 _ _).mpr
    (.inl (Nat.dvd_refl 4))

/-- A window of a page and a half asks for two pages. -/
theorem readAligned_overruns : ¬ ∀ (f : FileReader) (pread : Nat → Nat → Option Nat) (w : Window)
    (offset bytes : Nat) (window dst : Nat → UInt8), Serves f pread → f.granule ≤ w.capacity →
    Meets f w offset bytes dst (readAligned f pread w offset bytes window dst) := by
  intro hall
  have hmeets := hall ⟨List.replicate 8192 0, false, 4096, by decide⟩
    (wholeCalls ⟨List.replicate 8192 0, false, 4096, by decide⟩) ⟨4096, 4096, 6144, by decide⟩
    0 5000 (fun _ => 0) (fun _ => 0) (serves_whole fun h => absurd h Bool.false_ne_true) (by decide)
  have hfits := hmeets.fits (serves_whole fun h => absurd h Bool.false_ne_true) (by decide)
  rw [List.length_replicate] at hfits
  rcases hfits with hfits | hfits | hfits
  · exact absurd hfits (by decide)
  · exact absurd hfits (by decide)
  · exact absurd hfits (by decide)

end AlignedReads

end Llmx
