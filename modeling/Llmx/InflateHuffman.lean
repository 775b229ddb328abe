import Llmx.BitLists
import Llmx.Inflate
import Llmx.CanonicalCodes

namespace Llmx

namespace Inflate

open BitLists Triples

/-- The reader over `p` has the bits `rest` left, those in its buffer first. -/
structure Holding (p : Bytes) (b : Bits) (rest : List Bool) : Prop where
  data : b.p = p
  place_le : b.place ≤ p.length
  buf_lt : b.buf < 2 ^ b.count
  rest_eq : rest = lowBits b.count b.buf ++ octetBits (p.drop b.place)

structure Reading (p : Bytes) (b : Bits) (rest : List Bool) : Prop extends Holding p b rest where
  few : b.count < 8

/-- Whatever follows, `x` takes the bits `w` and answers `a`. -/
def Reads {α : Type} (x : Take α) (w : List Bool) (a : α) : Prop :=
  ∀ p b rest, Reading p b (w ++ rest) → ∃ b', x b = .ok a b' ∧ Reading p b' rest

def Refuses {α : Type} (x : Take α) (w : List Bool) (e : Error) : Prop :=
  ∀ p b rest, Reading p b (w ++ rest) → ∃ b', x b = .error e b'

section Rules

variable {α β : Type} {x : Take α} {f : α → Take β} {w v : List Bool} {a : α} {c : β} {e : Error}

theorem Reads.pure : Reads (pure a : Take α) [] a := fun _ b _ h => ⟨b, rfl, h⟩

theorem Reads.bind (hx : Reads x w a) (hf : Reads (f a) v c) : Reads (x >>= f) (w ++ v) c := by
  intro p b rest h
  rw [List.append_assoc] at h
  obtain ⟨b1, h1, hr1⟩ := hx p b _ h
  obtain ⟨b2, h2, hr2⟩ := hf p b1 _ hr1
  exact ⟨b2, by rw [bind_ok h1, h2], hr2⟩

theorem Reads.bind_nil (hx : Reads x w a) (hf : Reads (f a) [] c) : Reads (x >>= f) w c := by
  have h := hx.bind hf
  rwa [List.append_nil] at h

theorem Reads.bind_pure (hx : Reads x w a) (hf : f a = Pure.pure c) : Reads (x >>= f) w c :=
  hx.bind_nil (by rw [hf]; exact Reads.pure)

/-- A step that takes no bits. -/
theorem Reads.of_nil_bind (hx : Reads x [] a) (hf : Reads (f a) v c) : Reads (x >>= f) v c :=
  hx.bind hf

theorem Refuses.bind (hx : Refuses x w e) : Refuses (x >>= f) w e := by
  intro p b rest h
  obtain ⟨b1, h1⟩ := hx p b rest h
  exact ⟨b1, bind_error h1⟩

theorem Refuses.append (hx : Refuses x w e) : Refuses x (w ++ v) e := by
  intro p b rest h
  rw [List.append_assoc] at h
  exact hx p b _ h

end Rules

theorem Holding.length_eq {p : Bytes} {b : Bits} {rest : List Bool} (h : Holding p b rest) :
    rest.length = b.count + 8 * (p.length - b.place) := by
  rw [h.rest_eq, List.length_append, lowBits_length, octetBits_length, List.length_drop]

/-- One more byte in the buffer leaves the bits as they were. -/
theorem Holding.load {p : Bytes} {b : Bits} {rest : List Bool} (h : Holding p b rest)
    (hcount : b.count < 16) (hplace : b.place < p.length) :
    Holding p
      { b with
        buf := (b.buf ||| (b.p.getD b.place 0).toNat <<< b.count) % 2 ^ 32
        place := b.place + 1
        count := b.count + 8 } rest := by
  have hbyte : (p.getD b.place 0).toNat < 2 ^ 8 := (p.getD b.place 0).toNat_lt
  have hor : b.buf ||| (p.getD b.place 0).toNat <<< b.count =
      b.buf + 2 ^ b.count * (p.getD b.place 0).toNat := by
    rw [Nat.or_comm, ← Nat.shiftLeft_add_eq_or_of_lt h.buf_lt, Nat.shiftLeft_eq]
    ring
  have hlt : b.buf + 2 ^ b.count * (p.getD b.place 0).toNat < 2 ^ (b.count + 8) := by
    have h1 : 2 ^ b.count * (p.getD b.place 0).toNat ≤ 2 ^ b.count * (2 ^ 8 - 1) :=
      Nat.mul_le_mul_left _ (by omega)
    have h2 := h.buf_lt
    rw [Nat.pow_add]
    omega
  have hword : 2 ^ (b.count + 8) ≤ 2 ^ 32 := Nat.pow_le_pow_right (by decide) (by omega)
  have hdrop : p.drop b.place = p.getD b.place 0 :: p.drop (b.place + 1) := by
    rw [List.drop_eq_getElem_cons hplace, List.getD_eq_getElem?_getD,
      List.getElem?_eq_getElem hplace, Option.getD_some]
  refine ⟨h.data, hplace, ?_, ?_⟩
  · show (b.buf ||| (b.p.getD b.place 0).toNat <<< b.count) % 2 ^ 32 < 2 ^ (b.count + 8)
    rw [h.data, hor, Nat.mod_eq_of_lt (by omega)]
    exact hlt
  · show rest = lowBits (b.count + 8) ((b.buf ||| (b.p.getD b.place 0).toNat <<< b.count) % 2 ^ 32)
      ++ octetBits (p.drop (b.place + 1))
    rw [h.data, hor, Nat.mod_eq_of_lt (by omega), lowBits_above 8 _ h.buf_lt, h.rest_eq, hdrop,
      List.append_assoc]
    rfl

theorem fill_load {k rounds : Nat} {b : Bits} (hcount : b.count < k)
    (hplace : b.place < b.p.length) :
    fill k (rounds + 1) b = fill k rounds
      { b with
        buf := (b.buf ||| (b.p.getD b.place 0).toNat <<< b.count) % 2 ^ 32
        place := b.place + 1
        count := b.count + 8 } := by
  show ite _ _ _ = _
  rw [if_pos hcount, if_neg (by omega)]

theorem fill_enough {k rounds : Nat} {b : Bits} (hcount : k ≤ b.count) :
    fill k rounds b = .ok () b := by
  cases rounds with
  | zero => rfl
  | succ rounds => exact if_neg (by omega)

theorem fill_holds {p : Bytes} {k : Nat} (hk : k ≤ 16) (rounds : Nat) {b : Bits}
    {rest : List Bool} (h : Holding p b rest) (hlen : k ≤ rest.length) (hfew : b.count < k + 8)
    (hrounds : k ≤ b.count + 8 * rounds) :
    ∃ b', fill k rounds b = .ok () b' ∧ Holding p b' rest ∧ k ≤ b'.count ∧ b'.count < k + 8 := by
  induction rounds generalizing b with
  | zero => exact ⟨b, rfl, h, by omega, hfew⟩
  | succ rounds ih =>
    by_cases hc : b.count < k
    · have hl := h.length_eq
      have hplace : b.place < p.length := by omega
      obtain ⟨b', hb', hh, h1, h2⟩ := ih (h.load (by omega) hplace)
        (by show b.count + 8 < k + 8; omega) (by show k ≤ b.count + 8 + 8 * rounds; omega)
      exact ⟨b', by rw [fill_load hc (by rw [h.data]; exact hplace), hb'], hh, h1, h2⟩
    · exact ⟨b, fill_enough (by omega), h, by omega, hfew⟩

theorem takeBits_holds {p : Bytes} {b : Bits} {w rest : List Bool}
    (h : Holding p b (w ++ rest)) (hk : w.length ≤ b.count) :
    ∃ b', takeBits w.length b = .ok (number w) b' ∧ Holding p b' rest ∧
      b'.count = b.count - w.length := by
  have hsplit : lowBits b.count b.buf =
      lowBits w.length b.buf ++ lowBits (b.count - w.length) (b.buf / 2 ^ w.length) := by
    rw [← lowBits_add]
    congr 1
    omega
  have heq := h.rest_eq
  rw [hsplit, List.append_assoc] at heq
  obtain ⟨hw, hrest⟩ := List.append_inj heq (lowBits_length _ _).symm
  have hnumber : number w = b.buf % 2 ^ w.length := by
    calc number w = number (lowBits w.length b.buf) := congrArg number hw
      _ = _ := number_lowBits _ _
  have hvalue : b.buf &&& (1 <<< w.length - 1) = number w := by
    rw [Nat.one_shiftLeft, Nat.and_two_pow_sub_one_eq_mod, hnumber]
  have hbuf : b.buf >>> w.length < 2 ^ (b.count - w.length) := by
    rw [Nat.shiftRight_eq_div_pow, Nat.div_lt_iff_lt_mul (Nat.two_pow_pos _), ← Nat.pow_add,
      Nat.sub_add_cancel hk]
    exact h.buf_lt
  refine ⟨{ b with buf := b.buf >>> w.length, count := b.count - w.length }, ?_, ?_, rfl⟩
  · rw [takeBits, hvalue]
  · exact ⟨h.data, h.place_le, hbuf, by rw [hrest, ← Nat.shiftRight_eq_div_pow]⟩

theorem get_reads {k : Nat} {w : List Bool} (hw : w.length = k) (hk : k ≤ 16) :
    Reads (get k) w (number w) := by
  intro p b rest h
  have hfew := h.few
  have hlen : k ≤ (w ++ rest).length := by
    rw [List.length_append]
    omega
  obtain ⟨b1, h1, hh1, hc1, hc1'⟩ := fill_holds hk k h.toHolding hlen (by omega) (by omega)
  subst hw
  obtain ⟨b2, h2, hh2, hc2⟩ := takeBits_holds hh1 hc1
  refine ⟨b2, ?_, hh2, by omega⟩
  rw [get, bind_ok h1, h2]

/-- A number of `k` bits, the lowest first. -/
theorem get_lowBits {k n : Nat} (hk : k ≤ 16) (hn : n < 2 ^ k) : Reads (get k) (lowBits k n) n := by
  have h := get_reads (lowBits_length k n) hk
  rwa [number_lowBits, Nat.mod_eq_of_lt hn] at h

theorem get_bit (bit : Bool) : Reads (get 1) [bit] bit.toNat := by
  have h := get_reads (w := [bit]) rfl (by decide : 1 ≤ 16)
  rwa [show number [bit] = bit.toNat by simp [number]] at h

/-- At a byte's edge there are no bits in the buffer. -/
theorem align_holds {p : Bytes} {b : Bits} {w rest : List Bool} (h : Reading p b (w ++ rest))
    (hw : w.length < 8) (hrest : 8 ∣ rest.length) :
    ∃ b', align b = .ok () b' ∧ Reading p b' rest ∧ b'.count = 0 ∧
      rest = octetBits (p.drop b'.place) := by
  have hlen := h.length_eq
  rw [List.length_append] at hlen
  have hfew := h.few
  have hcount : w.length = b.count := by omega
  have hand : b.count &&& 7 = b.count := by
    rw [show 7 = 2 ^ 3 - 1 from rfl, Nat.and_two_pow_sub_one_eq_mod]
    exact Nat.mod_eq_of_lt hfew
  have hrest : rest = octetBits (p.drop b.place) :=
    (List.append_inj h.rest_eq (by rw [hcount, lowBits_length])).2
  refine ⟨⟨b.p, b.place, b.buf >>> b.count, b.count - b.count⟩, ?_, ⟨⟨h.data, h.place_le, ?_, ?_⟩, ?_⟩,
    Nat.sub_self _, hrest⟩
  · rw [align, hand]
  · show b.buf >>> b.count < 2 ^ (b.count - b.count)
    rw [Nat.shiftRight_eq_div_pow, Nat.div_eq_of_lt h.buf_lt]
    exact Nat.two_pow_pos _
  · show rest = lowBits (b.count - b.count) _ ++ _
    rw [Nat.sub_self]
    exact hrest
  · show b.count - b.count < 8
    omega

end Inflate

namespace Inflate

open BitLists CanonicalCodes

/-- The table `build` answers with. -/
def table (lengths : List Nat) : Huffman :=
  ⟨countLengths lengths, sortSymbols (countLengths lengths) lengths⟩

theorem increment_length (xs : List Nat) (k : Nat) : (increment xs k).length = xs.length :=
  List.length_set

theorem getD_set {α : Type} (xs : List α) (k j : Nat) (x d : α) (hk : k < xs.length) :
    (xs.set k x).getD j d = if k = j then x else xs.getD j d := by
  rw [List.getD_eq_getElem?_getD, List.getD_eq_getElem?_getD, List.getElem?_set]
  split
  next h =>
    rfl
  next => rfl

theorem increment_getD {xs : List Nat} {k : Nat} (hk : k < xs.length) (j : Nat) :
    (increment xs k).getD j 0 = xs.getD j 0 + if k = j then 1 else 0 := by
  rw [increment, getD_set _ _ _ _ _ hk]
  split
  next h => rw [h]
  next => rfl

theorem foldl_increment {lengths : List Nat} (h : ∀ len ∈ lengths, len < 16) {init : List Nat}
    (hinit : init.length = 16) (j : Nat) :
    (lengths.foldl increment init).getD j 0 = init.getD j 0 + lengths.count j ∧
      (lengths.foldl increment init).length = 16 := by
  induction lengths generalizing init with
  | nil => exact ⟨rfl, hinit⟩
  | cons l lengths ih =>
    have hl := h l List.mem_cons_self
    obtain ⟨h1, h2⟩ := ih (fun len hlen => h len (List.mem_cons_of_mem _ hlen))
      ((increment_length init l).trans hinit)
    refine ⟨?_, h2⟩
    rw [List.foldl_cons, h1, increment_getD (by omega), List.count_cons]
    by_cases he : l = j
    · rw [if_pos he, if_pos (beq_iff_eq.mpr he)]
      omega
    · rw [if_neg he, if_neg (by simpa using he)]
      omega

section Table

variable {lengths : List Nat}

theorem counts_eq (h : ∀ len ∈ lengths, len < 16) (j : Nat) :
    (countLengths lengths).getD j 0 = perLength lengths j := by
  obtain ⟨h1, h2⟩ := foldl_increment h (List.length_replicate (a := 0)) j
  have hzero : (List.replicate 16 0).getD j 0 = 0 := by
    rw [List.getD_eq_getElem?_getD, List.getElem?_replicate]
    split <;> rfl
  rw [countLengths, getD_set _ _ _ _ _ (by omega), perLength, h1, hzero]
  by_cases hj : j = 0
  · rw [if_pos hj.symm, if_pos hj]
  · rw [if_neg (Ne.symm hj), if_neg hj, Nat.zero_add]

theorem leftOver_reads (h : ∀ len ∈ lengths, len < 16) (hn : NotOversubscribed lengths 15)
    (n len : Nat) (hlen : len + n ≤ 15) :
    Reads (leftOver (countLengths lengths) (List.range' (len + 1) n)
      ((2 ^ len : Nat) - (firstCode lengths len + perLength lengths len : Nat))) [] () := by
  induction n generalizing len with
  | zero => exact Reads.pure
  | succ n ih =>
    have hle := firstCode_add_le hn (by omega : len + 1 ≤ 15)
    have hpow : 2 ^ (len + 1) = 2 * 2 ^ len := Nat.pow_succ'
    have hstep : 2 * ((2 ^ len : Nat) - (firstCode lengths len + perLength lengths len : Nat) : Int)
        - (countLengths lengths).getD (len + 1) 0 =
        (2 ^ (len + 1) : Nat) - (firstCode lengths (len + 1) + perLength lengths (len + 1) : Nat) := by
      rw [counts_eq h, firstCode, hpow]
      omega
    rw [List.range'_succ, leftOver, hstep, if_neg (by omega)]
    exact ih (len + 1) (by omega)

theorem build_reads (h : ∀ len ∈ lengths, len < 16) (hn : NotOversubscribed lengths 15) :
    Reads (build lengths) [] (table lengths) := by
  have hl := leftOver_reads h hn 15 0 (by decide)
  have hone : ((2 ^ 0 : Nat) - (firstCode lengths 0 + perLength lengths 0 : Nat) : Int) = 1 := rfl
  rw [hone] at hl
  unfold build
  exact hl.bind_pure rfl

theorem offsets_fold (h : ∀ len ∈ lengths, len < 16) (n : Nat) (hn : n ≤ 14) :
    ((List.range' 1 n).foldl
      (fun offs len => offs.set (len + 1) (offs.getD len 0 + (countLengths lengths).getD len 0))
        (List.replicate 16 0)).length = 16 ∧
    ∀ len, 0 < len → len ≤ n + 1 → ((List.range' 1 n).foldl
      (fun offs len => offs.set (len + 1) (offs.getD len 0 + (countLengths lengths).getD len 0))
        (List.replicate 16 0)).getD len 0 = shorter lengths len := by
  induction n with
  | zero =>
    refine ⟨rfl, fun len h0 h1 => ?_⟩
    have hlen : len = 1 := by omega
    rw [hlen]
    rfl
  | succ n ih =>
    obtain ⟨h1, h2⟩ := ih (by omega)
    rw [List.range'_concat, List.foldl_append]
    refine ⟨by rw [List.foldl_cons, List.foldl_nil, List.length_set, h1], fun len h0 hle => ?_⟩
    rw [List.foldl_cons, List.foldl_nil, getD_set _ _ _ _ _ (by omega)]
    split
    next he =>
      subst he
      rw [h2 _ (by omega) (by omega), counts_eq h, shorter]
    next he => exact h2 len h0 (by omega)

theorem offsets_eq (h : ∀ len ∈ lengths, len < 16) {len : Nat} (h0 : 0 < len) (hlen : len < 16) :
    (offsets (countLengths lengths)).getD len 0 = shorter lengths len := by
  unfold offsets
  exact (offsets_fold h 14 (by decide)).2 len h0 (by omega)

theorem offsets_length (h : ∀ len ∈ lengths, len < 16) :
    (offsets (countLengths lengths)).length = 16 := by
  unfold offsets
  exact (offsets_fold h 14 (by decide)).1

theorem getD_lt (h : ∀ len ∈ lengths, len < 16) (s : Nat) : lengths.getD s 0 < 16 := by
  rw [List.getD_eq_getElem?_getD]
  cases hs : lengths[s]? with
  | none => decide
  | some len => exact h len (List.mem_of_getElem? hs)

/-- The symbols below `n` are in their places, and each length's next place is known. -/
structure Sorted (lengths : List Nat) (n : Nat) (t : List Nat × List Nat) : Prop where
  offs_length : t.1.length = 16
  symbols_length : t.2.length = lengths.length
  offs_eq : ∀ len, 0 < len → len < 16 →
    t.1.getD len 0 = shorter lengths len + (lengths.take n).count len
  placed : ∀ s, s < n → lengths.getD s 0 ≠ 0 → t.2.getD (slot lengths s) 0 = s

theorem Sorted.step {n : Nat} {t : List Nat × List Nat} (ht : Sorted lengths n t)
    (h : ∀ len ∈ lengths, len < 16) (hn : n < lengths.length) :
    Sorted lengths (n + 1) (placeSymbol lengths t n) := by
  have hlt := getD_lt h n
  unfold placeSymbol
  split
  next hzero =>
    refine ⟨ht.offs_length, ht.symbols_length, fun len h0 hlen => ?_, fun s hs hs0 => ?_⟩
    · rw [count_take_succ hn, if_neg (by omega), ht.offs_eq len h0 hlen]
      rfl
    · have hne : s ≠ n := fun he => hs0 (by rw [he]; exact hzero)
      exact ht.placed s (by omega) hs0
  next hzero =>
    have hslot : t.1.getD (lengths.getD n 0) 0 = slot lengths n := ht.offs_eq _ (by omega) hlt
    have hin := slot_lt_length hn hzero
    have hoffs := ht.offs_length
    have hsym := ht.symbols_length
    refine ⟨by rw [increment_length, hoffs], by rw [List.length_set, hsym],
      fun len h0 hlen => ?_, fun s hs hs0 => ?_⟩
    · rw [increment_getD (by omega), count_take_succ hn, ht.offs_eq len h0 hlen]
      omega
    · rw [hslot, getD_set _ _ _ _ _ (by omega)]
      by_cases he : s = n
      · rw [he, if_pos rfl]
      · have hs' : s < n := by omega
        rw [if_neg (slot_ne hs' hn hs0 hzero).symm]
        exact ht.placed s hs' hs0

theorem sorted_zero {offs : List Nat} (hlength : offs.length = 16)
    (hoffs : ∀ len, 0 < len → len < 16 → offs.getD len 0 = shorter lengths len) :
    Sorted lengths 0 (offs, List.replicate lengths.length 0) where
  offs_length := hlength
  symbols_length := List.length_replicate
  offs_eq len h0 hlen := by rw [hoffs len h0 hlen, List.take_zero, List.count_nil, Nat.add_zero]
  placed s hs := by omega

theorem sorted_fold (h : ∀ len ∈ lengths, len < 16) (n : Nat) (hn : n ≤ lengths.length) :
    Sorted lengths n ((List.range n).foldl (placeSymbol lengths)
      (offsets (countLengths lengths), List.replicate lengths.length 0)) := by
  induction n with
  | zero =>
    rw [List.range_zero, List.foldl_nil]
    exact sorted_zero (offsets_length h) fun len h0 hlen => offsets_eq h h0 hlen
  | succ n ih =>
    rw [List.range_succ, List.foldl_append]
    exact (ih (by omega)).step h hn

theorem symbols_eq (h : ∀ len ∈ lengths, len < 16) {s : Nat} (hs : s < lengths.length)
    (hs0 : lengths.getD s 0 ≠ 0) : (table lengths).symbols.getD (slot lengths s) 0 = s :=
  (sorted_fold h _ (Nat.le_refl _)).placed s hs hs0

theorem or_bit (n : Nat) (bit : Bool) : 2 * n ||| bit.toNat = 2 * n + bit.toNat := by
  have hb : bit.toNat < 2 ^ 1 := by
    have h := Bool.toNat_le bit
    omega
  have h := Nat.shiftLeft_add_eq_or_of_lt hb n
  rw [Nat.shiftLeft_eq, Nat.mul_comm n] at h
  exact h.symm

/-- With `k + 1` bits of the code of `s` left, those before it were no shorter code. -/
theorem decodeFrom_reads (h : ∀ len ∈ lengths, len < 16) {s : Nat} (hs : s < lengths.length)
    (k len rounds : Nat) (hk : len + k = lengths.getD s 0) (h0 : 0 < len) (hrounds : k < rounds) :
    Reads ((table lengths).decodeFrom rounds len (2 * (code lengths s / 2 ^ (k + 1)))
      (firstCode lengths len) (shorter lengths len)) (highBits (k + 1) (code lengths s)) s := by
  induction k generalizing len rounds with
  | zero =>
    obtain ⟨rounds, rfl⟩ : ∃ r, rounds = r + 1 := ⟨rounds - 1, by omega⟩
    have hr := rank_lt hs
    have hcode : 2 * (code lengths s / 2 ^ (0 + 1)) + (code lengths s / 2 ^ 0 % 2 == 1).toNat =
        code lengths s := by
      rw [toNat_odd]
      omega
    have hpos : perLength lengths len = lengths.count len := perLength_pos h0
    have hlen : len = lengths.getD s 0 := by omega
    have hlt : code lengths s < firstCode lengths len + perLength lengths len := by
      rw [hpos, hlen]
      unfold code
      omega
    have hslot : shorter lengths len + code lengths s - firstCode lengths len = slot lengths s := by
      rw [hlen]
      unfold code slot
      omega
    rw [Huffman.decodeFrom]
    refine (get_bit _).bind_pure ?_
    rw [or_bit, hcode, show (table lengths).counts = countLengths lengths from rfl, counts_eq h,
      if_pos hlt, hslot, symbols_eq h hs (by omega)]
  | succ k ih =>
    obtain ⟨rounds, rfl⟩ : ∃ r, rounds = r + 1 := ⟨rounds - 1, by omega⟩
    have hcode : 2 * (code lengths s / 2 ^ (k + 1 + 1)) +
        (code lengths s / 2 ^ (k + 1) % 2 == 1).toNat = code lengths s / 2 ^ (k + 1) := by
      rw [toNat_odd, Nat.pow_succ 2 (k + 1), ← Nat.div_div_eq_div_mul]
      omega
    have hgrow := firstCode_grows lengths len k
    rw [show len + k + 1 = lengths.getD s 0 by omega] at hgrow
    have hge : firstCode lengths len + perLength lengths len ≤ code lengths s / 2 ^ (k + 1) := by
      rw [Nat.le_div_iff_mul_le (Nat.two_pow_pos _)]
      exact Nat.le_trans hgrow (Nat.le_add_right _ _)
    have hnext := ih (len + 1) rounds (by omega) (by omega) (by omega)
    rw [Huffman.decodeFrom]
    refine (get_bit _).bind ?_
    rw [or_bit, hcode, show (table lengths).counts = countLengths lengths from rfl, counts_eq h,
      if_neg (by omega), Nat.shiftLeft_eq, Nat.shiftLeft_eq, Nat.pow_one, Nat.mul_comm _ 2,
      Nat.mul_comm _ 2]
    exact hnext

theorem decode_reads (h : ∀ len ∈ lengths, len < 16) (hn : NotOversubscribed lengths 15) {s : Nat}
    (hs : s < lengths.length) (hs0 : lengths.getD s 0 ≠ 0) :
    Reads (table lengths).decode (codeword lengths s) s := by
  have hlt := getD_lt h s
  have hle := firstCode_add_le hn (by omega : lengths.getD s 0 ≤ 15)
  have hr := rank_lt hs
  rw [perLength_pos (by omega)] at hle
  have hcode : code lengths s / 2 ^ lengths.getD s 0 = 0 := by
    apply Nat.div_eq_of_lt
    unfold code
    omega
  obtain ⟨k, hk⟩ : ∃ k, lengths.getD s 0 = k + 1 := ⟨lengths.getD s 0 - 1, by omega⟩
  have hd := decodeFrom_reads h hs k 1 15 (by omega) (by decide) (by omega)
  rw [← hk, hcode, Nat.mul_zero, show firstCode lengths 1 = 0 from rfl,
    show shorter lengths 1 = 0 from rfl] at hd
  unfold Huffman.decode codeword
  exact hd

end Table

end Inflate

end Llmx
