import Llmx.InflateChecked
import Llmx.InflateHuffman
import Mathlib.Data.List.GetD

namespace Llmx

namespace Inflate

open BitLists CanonicalCodes Triples

/-- The reader over `p` has `m` bits left, fewer than eight of them in its buffer. -/
structure Ready (p : Bytes) (m : Nat) (b : Bits) : Prop where
  data : b.p = p
  place_le : b.place ≤ p.length
  few : b.count < 8
  left : m = 8 * (p.length - b.place) + b.count

/-- A refusal with a reason. -/
def Refused (e : Error) (f : Fault) : Prop := ∃ what, e = .runtime what ∧ f = .refused e

/-- With `m` bits left, both run alike or are refused alike, and take `least` bits or more. -/
def Safe {α β : Type} (p : Bytes) (m : Nat) (x : Take α) (y : Checked β) (least : Nat)
    (R : α → β → Prop) : Prop :=
  Alike (Ready p m) x y (fun a b s => ∃ k, k + least ≤ m ∧ R a b ∧ Ready p k s) Refused

section Rules

variable {α α' β β' : Type} {p : Bytes} {m i j : Nat} {x : Take α} {y : Checked α'}
  {f : α → Take β} {g : α' → Checked β'} {R R' : α → α' → Prop} {S : β → β' → Prop}

theorem Safe.pure {a : α} {b : α'} (h : R a b) :
    Safe p m (Pure.pure a : Take α) (Pure.pure b : Checked α') 0 R :=
  Alike.pure fun _ hs => ⟨m, Nat.le_refl _, h, hs⟩

theorem Safe.fail (what : String) : Safe p m (fail what : Take α) (Checked.fail what : Checked α') i R :=
  fun b _ => .inr ⟨_, _, b, b, Eq.refl _, Eq.refl _, what, Eq.refl _, Eq.refl _⟩

theorem Safe.bind (hx : Safe p m x y i R)
    (hf : ∀ a b, R a b → ∀ k, k + i ≤ m → Safe p k (f a) (g b) j S) :
    Safe p m (x >>= f) (y >>= g) (i + j) S := by
  apply Alike.bind hx
  rintro a b s ⟨k, hk, hr, hs⟩
  rcases hf a b hr k hk s hs with ⟨c, d, t, hc, hd, n, hn, hcd, ht⟩ | hraise
  · exact .inl ⟨c, d, t, hc, hd, n, by omega, hcd, ht⟩
  · exact .inr hraise

/-- What is taken first is taken. -/
theorem Safe.next (hx : Safe p m x y i R)
    (hf : ∀ a b, R a b → ∀ k, k + i ≤ m → Safe p k (f a) (g b) 0 S) :
    Safe p m (x >>= f) (y >>= g) 0 S := by
  intro s hs
  rcases hx.bind hf s hs with ⟨c, d, t, hc, hd, k, hk, hr, ht⟩ | hraise
  · exact .inl ⟨c, d, t, hc, hd, k, by omega, hr, ht⟩
  · exact .inr hraise

theorem Safe.mono (hx : Safe p m x y i R) (hj : j ≤ i) (hR : ∀ a b, R a b → R' a b) :
    Safe p m x y j R' := by
  apply Alike.conseq hx (fun _ hs => hs)
  rintro a b s ⟨k, hk, hr, hs⟩
  exact ⟨k, by omega, hR a b hr, hs⟩

end Rules

section Items

variable {α : Type} {xs : List α} {i : Nat}

theorem item_eq (h : i < xs.length) (d : α) : Checked.item xs i = pure (xs.getD i d) := by
  funext b
  unfold Checked.item
  rw [List.getD_eq_getElem?_getD, List.getElem?_eq_getElem h]
  exact Eq.refl _

theorem setItem_eq (h : i < xs.length) (x : α) : Checked.setItem xs i x = pure (xs.set i x) := by
  funext b
  exact if_pos h

end Items

section Bits

variable {p : Bytes} {m k : Nat} {b : Bits}

/-- `k` rounds end with `k` bits, or with the stream. -/
theorem fill_cases (rounds : Nat) (hdata : b.p = p) (hplace : b.place ≤ p.length)
    (hleft : m = 8 * (p.length - b.place) + b.count) (hfew : b.count < k + 8)
    (hrounds : k ≤ b.count + 8 * rounds) :
    (∃ b', fill k rounds b = .ok () b' ∧ Checked.fill k rounds b = .ok () b' ∧ b'.p = p ∧
      b'.place ≤ p.length ∧ m = 8 * (p.length - b'.place) + b'.count ∧ k ≤ b'.count ∧
      b'.count < k + 8) ∨
    ∃ e f s t, fill k rounds b = .error e s ∧ Checked.fill k rounds b = .error f t ∧
      Refused e f := by
  induction rounds generalizing b with
  | zero => exact .inl ⟨b, Eq.refl _, Eq.refl _, hdata, hplace, hleft, by omega, hfew⟩
  | succ rounds ih =>
    have hchecked : Checked.fill k (rounds + 1) b =
        (if b.count < k then
          if b.p.length ≤ b.place then Checked.fail "inflate: the stream ends inside a block"
          else Checked.item b.p b.place >>= fun byte => Checked.load byte >>= fun _ =>
            Checked.fill k rounds
        else pure ()) b := Eq.refl _
    rw [hchecked]
    by_cases hc : b.count < k
    · rw [if_pos hc]
      by_cases hend : b.p.length ≤ b.place
      · refine .inr ⟨_, _, b, b, ?_, by rw [if_pos hend]; exact Eq.refl _, _, Eq.refl _, Eq.refl _⟩
        show ite _ _ _ = _
        rw [if_pos hc, if_pos hend]
      · have hlt : b.place < b.p.length := Nat.lt_of_not_le hend
        rw [if_neg hend, item_eq hlt 0, fill_load hc hlt]
        rw [hdata] at hlt
        exact ih hdata hlt (by show m = 8 * (p.length - (b.place + 1)) + (b.count + 8); omega)
          (by show b.count + 8 < k + 8; omega) (by show k ≤ b.count + 8 + 8 * rounds; omega)
    · rw [if_neg hc]
      exact .inl ⟨b, fill_enough (Nat.le_of_not_lt hc), Eq.refl _, hdata, hplace, hleft,
        Nat.le_of_not_lt hc, hfew⟩

theorem get_alike (p : Bytes) (m k : Nat) : Alike (Ready p m) (get k) (Checked.get k)
    (fun v v' s => v = v' ∧ v < 2 ^ k ∧ k ≤ m ∧ Ready p (m - k) s) Refused := by
  intro b hb
  have hfew := hb.few
  rcases fill_cases k hb.data hb.place_le hb.left (k := k) (by omega) (by omega) with
    ⟨b', h, h', hdata, hplace, hleft, hk, hmost⟩ | ⟨e, f, s, t, h, h', href⟩
  · refine .inl ⟨b'.buf &&& (1 <<< k - 1), b'.buf &&& (1 <<< k - 1),
      { b' with buf := b'.buf >>> k, count := b'.count - k }, ?_, ?_, Eq.refl _,
      ?_, by omega, hdata, hplace, by show b'.count - k < 8; omega,
      by show m - k = 8 * (p.length - b'.place) + (b'.count - k); omega⟩
    · rw [get, bind_ok h]
      exact Eq.refl _
    · rw [Checked.get, bind_ok h']
      exact if_neg (by omega)
    · rw [Nat.one_shiftLeft, Nat.and_two_pow_sub_one_eq_mod]
      exact Nat.mod_lt _ (Nat.two_pow_pos k)
  · exact .inr ⟨e, f, s, t, by rw [get, bind_error h], by rw [Checked.get, bind_error h'], href⟩

theorem get_safe (p : Bytes) (m k : Nat) :
    Safe p m (get k) (Checked.get k) k fun v v' => v = v' ∧ v < 2 ^ k := by
  apply Alike.conseq (get_alike p m k) (fun _ hs => hs)
  rintro v v' s ⟨heq, hlt, hk, hs⟩
  exact ⟨m - k, by omega, ⟨heq, hlt⟩, hs⟩

theorem get_next {β γ : Type} {f : Nat → Take β} {g : Nat → Checked γ} {S : β → γ → Prop}
    (hf : ∀ v < 2 ^ k, ∀ n, n + k ≤ m → Safe p n (f v) (g v) 0 S) :
    Safe p m (get k >>= f) (Checked.get k >>= g) 0 S := by
  apply (get_safe p m k).next
  rintro v v' ⟨rfl, hv⟩ n hn
  exact hf v hv n hn

theorem align_alike (p : Bytes) (m : Nat) : Alike (Ready p m) align Checked.align
    (fun _ _ s => Ready p (m - m % 8) s) Refused := by
  intro b hb
  have hfew := hb.few
  have hleft := hb.left
  have hand : b.count &&& 7 = b.count := by
    rw [show 7 = 2 ^ 3 - 1 from Eq.refl _, Nat.and_two_pow_sub_one_eq_mod]
    exact Nat.mod_eq_of_lt hfew
  refine .inl ⟨(), (), _, Eq.refl _, Eq.refl _, hb.data, hb.place_le, ?_, ?_⟩
  · show b.count - (b.count &&& 7) < 8
    omega
  · show m - m % 8 = 8 * (p.length - b.place) + (b.count - (b.count &&& 7))
    rw [hand]
    omega

end Bits

section Tables

variable {arr ls : List Nat} {n : Nat} {p : Bytes} {m : Nat}

theorem range_getD (hn : n ≤ arr.length) :
    (List.range n).map (fun i => arr.getD i 0) = arr.take n := by
  apply List.ext_getElem
  · rw [List.length_map, List.length_range, List.length_take, Nat.min_eq_left hn]
  · intro i h h'
    rw [List.length_map, List.length_range] at h
    rw [List.getElem_map, List.getElem_range, List.getElem_take, List.getD_eq_getElem _ _ (by omega)]

theorem take_getD {i : Nat} (hi : i < n) : (arr.take n).getD i 0 = arr.getD i 0 := by
  rw [List.getD_eq_getElem?_getD, List.getD_eq_getElem?_getD, List.getElem?_take_of_lt hi]

theorem countLengths_eq {is : List Nat} (his : ∀ i ∈ is, i < arr.length ∧ arr.getD i 0 < 16)
    {counts : List Nat} (hc : counts.length = 16) : Checked.countLengths arr is counts =
      pure ((is.map fun i => arr.getD i 0).foldl increment counts) := by
  induction is generalizing counts with
  | nil => exact Eq.refl _
  | cons i is ih =>
    obtain ⟨hi, hlt⟩ := his i List.mem_cons_self
    rw [Checked.countLengths, item_eq hi 0, pure_bind, item_eq (by omega) 0, pure_bind,
      setItem_eq (by omega), pure_bind,
      ih (fun j hj => his j (List.mem_cons_of_mem _ hj)) (by rw [List.length_set, hc])]
    exact Eq.refl _

theorem offsets_checked {counts lens : List Nat} (hc : counts.length = 16)
    (hlens : ∀ len ∈ lens, len + 1 < 16) {offs : List Nat} (ho : offs.length = 16) :
    Checked.offsets counts lens offs = pure (lens.foldl
      (fun offs len => offs.set (len + 1) (offs.getD len 0 + counts.getD len 0)) offs) := by
  induction lens generalizing offs with
  | nil => exact Eq.refl _
  | cons len lens ih =>
    have hlen := hlens len List.mem_cons_self
    rw [Checked.offsets, item_eq (by omega) 0, pure_bind, item_eq (by omega) 0, pure_bind,
      setItem_eq (by omega), pure_bind,
      ih (fun l hl => hlens l (List.mem_cons_of_mem _ hl)) (by rw [List.length_set, ho])]
    exact Eq.refl _

theorem leftOver_safe {counts lens : List Nat} (hc : counts.length = 16)
    (hlens : ∀ len ∈ lens, len < 16) (left : Int) :
    Safe p m (leftOver counts lens left) (Checked.leftOver counts lens left) 0
      fun _ _ => True := by
  induction lens generalizing left with
  | nil => exact Safe.pure trivial
  | cons len lens ih =>
    have hlen := hlens len List.mem_cons_self
    rw [leftOver, Checked.leftOver, item_eq (by omega) 0, pure_bind]
    split
    next => exact Safe.fail _
    next => exact ih (fun l hl => hlens l (List.mem_cons_of_mem _ hl)) _

/-- Each symbol with a code goes to a place of the table. -/
theorem sortSymbols_eq (hls : ls = arr.take n) (hn : n ≤ arr.length) (hlt : ∀ len ∈ ls, len < 16)
    (k i : Nat) (hi : i + k = n) {t : List Nat × List Nat} (ht : Sorted ls i t) :
    Checked.sortSymbols arr (List.range' i k) t =
      pure ((List.range' i k).foldl (placeSymbol ls) t) := by
  induction k generalizing i t with
  | zero => exact Eq.refl _
  | succ k ih =>
    have hlength : ls.length = n := by
      rw [hls, List.length_take, Nat.min_eq_left hn]
    have hget : ls.getD i 0 = arr.getD i 0 := by
      rw [hls]
      exact take_getD (by omega)
    have hnext := ih (i + 1) (by omega) (ht.step hlt (by omega))
    have hlen := getD_lt hlt i
    rw [List.range'_succ, Checked.sortSymbols, item_eq (by omega) 0, pure_bind, List.foldl_cons,
      ← hnext, ← hget]
    unfold placeSymbol
    split
    next => exact Eq.refl _
    next hzero =>
      have hslot : t.1.getD (ls.getD i 0) 0 = slot ls i := ht.offs_eq _ (by omega) hlen
      have hin := slot_lt_length (by omega : i < ls.length) hzero
      have hoffs := ht.offs_length
      have hsym := ht.symbols_length
      rw [item_eq (by omega) 0, pure_bind, setItem_eq (by omega), pure_bind, setItem_eq (by omega),
        pure_bind]
      exact Eq.refl _

/-- The same table, with the lengths it is of. -/
def checkedTable (ls : List Nat) : Checked.Table := ⟨ls, (table ls).counts, (table ls).symbols⟩

theorem countLengths_length (hlt : ∀ len ∈ ls, len < 16) : (countLengths ls).length = 16 := by
  unfold countLengths
  rw [List.length_set]
  exact (foldl_increment hlt List.length_replicate 0).2

theorem build_safe (hn : n ≤ arr.length) (hlt : ∀ len ∈ arr.take n, len < 16) :
    Safe p m (build (arr.take n)) (Checked.build arr n) 0
      fun h t => h = table (arr.take n) ∧ t = checkedTable (arr.take n) := by
  have hcounts := countLengths_length hlt
  have hlength : (arr.take n).length = n := by
    rw [List.length_take, Nat.min_eq_left hn]
  have hin : ∀ i ∈ List.range n, i < arr.length ∧ arr.getD i 0 < 16 := by
    intro i hi
    have hi := List.mem_range.mp hi
    rw [← take_getD hi]
    exact ⟨by omega, getD_lt hlt i⟩
  have hset : ((arr.take n).foldl increment (List.replicate 16 0)).length = 16 :=
    (foldl_increment hlt List.length_replicate 0).2
  unfold build Checked.build
  rw [countLengths_eq hin List.length_replicate, range_getD hn, pure_bind,
    setItem_eq (by omega), pure_bind]
  refine (leftOver_safe hcounts (fun len hlen => ?_) 1).next fun _ _ _ k _ => ?_
  · have h := List.mem_range'_1.mp hlen
    omega
  · have hoffsets : Checked.offsets (countLengths (arr.take n)) (List.range' 1 14)
        (List.replicate 16 0) = pure (offsets (countLengths (arr.take n))) :=
      offsets_checked hcounts
        (fun len hlen => by have h := List.mem_range'_1.mp hlen; omega) List.length_replicate
    have hsorted : Sorted (arr.take n) 0
        (offsets (countLengths (arr.take n)), List.replicate (arr.take n).length 0) :=
      sorted_zero (offsets_length hlt) fun len h0 hlen => offsets_eq hlt h0 hlen
    have hsort := sortSymbols_eq (Eq.refl _) hn hlt n 0 (Nat.zero_add n) hsorted
    rw [hlength] at hsort
    show Safe _ _ _ (Checked.offsets (countLengths (arr.take n)) _ _ >>= _) _ _
    rw [hoffsets, pure_bind, List.range_eq_range']
    show Safe _ _ _ (Checked.sortSymbols arr _ (offsets (countLengths (arr.take n)), _) >>= _) _ _
    rw [hsort, pure_bind]
    refine Safe.pure ⟨Eq.refl _, ?_⟩
    unfold checkedTable table sortSymbols
    rw [hlength, List.range_eq_range']
    exact Eq.refl _

/-- Every rank below the codes of a length is some symbol's. -/
theorem exists_rank {len r : Nat} (h : r < ls.count len) :
    ∃ s < ls.length, ls.getD s 0 = len ∧ (ls.take s).count len = r := by
  induction ls generalizing r with
  | nil => exact absurd h (Nat.not_lt_zero r)
  | cons l ls ih =>
    rw [List.count_cons] at h
    by_cases hl : l = len
    · rw [if_pos (beq_iff_eq.mpr hl)] at h
      cases r with
      | zero => exact ⟨0, Nat.succ_pos _, hl, Eq.refl _⟩
      | succ r =>
        obtain ⟨s, hs, hget, hcount⟩ := ih (r := r) (by omega)
        refine ⟨s + 1, Nat.succ_lt_succ hs, hget, ?_⟩
        rw [List.take_succ_cons, List.count_cons, hcount, if_pos (beq_iff_eq.mpr hl)]
    · rw [if_neg (by simpa using hl), Nat.add_zero] at h
      obtain ⟨s, hs, hget, hcount⟩ := ih h
      refine ⟨s + 1, Nat.succ_lt_succ hs, hget, ?_⟩
      rw [List.take_succ_cons, List.count_cons, hcount, if_neg (by simpa using hl), Nat.add_zero]

/-- The code `len` bits were read of is a symbol's, found in its slot. -/
theorem symbol_eq (hlt : ∀ len ∈ ls, len < 16) {len code : Nat} (h0 : 0 < len) (hlen : len < 16)
    (hge : firstCode ls len ≤ code) (hcode : code < firstCode ls len + perLength ls len) :
    ∃ s, s < ls.length ∧
      (table ls).symbols.getD (shorter ls len + code - firstCode ls len) 0 = s ∧
      (checkedTable ls).symbol len code (shorter ls len + code - firstCode ls len) = pure s := by
  rw [perLength_pos h0] at hcode
  obtain ⟨s, hs, hget, hrank⟩ := exists_rank (show code - firstCode ls len < ls.count len by omega)
  have hs0 : ls.getD s 0 ≠ 0 := by omega
  have hslot : shorter ls len + code - firstCode ls len = slot ls s := by
    unfold slot rank
    rw [hget, hrank]
    omega
  have hcodes : CanonicalCodes.code ls s = code := by
    unfold CanonicalCodes.code rank
    rw [hget, hrank]
    omega
  have hsymbols : (table ls).symbols.length = ls.length := by
    exact (sorted_fold hlt _ (Nat.le_refl _)).symbols_length
  have hin := slot_lt_length hs hs0
  have hfound : (checkedTable ls).symbols.getD (slot ls s) 0 = s := symbols_eq hlt hs hs0
  refine ⟨s, hs, by rw [hslot]; exact hfound, ?_⟩
  unfold Checked.Table.symbol
  rw [hslot, item_eq (by show slot ls s < (table ls).symbols.length; omega) 0, pure_bind, hfound,
    item_eq (show s < (checkedTable ls).lengths.length from hs) 0, pure_bind]
  exact if_pos (And.intro hget hcodes)

theorem decodeFrom_safe (hlt : ∀ len ∈ ls, len < 16) (rounds len c : Nat) (h0 : 0 < len)
    (hlen : len + rounds ≤ 16) (hge : firstCode ls len ≤ 2 * c) :
    Safe p m ((table ls).decodeFrom rounds len (2 * c) (firstCode ls len) (shorter ls len))
      ((checkedTable ls).decodeFrom rounds len (2 * c) (firstCode ls len) (shorter ls len)) 1
      fun s s' => s = s' ∧ s < ls.length := by
  induction rounds generalizing m len c with
  | zero => exact Safe.fail _
  | succ rounds ih =>
    rw [Huffman.decodeFrom, Checked.Table.decodeFrom]
    refine ((get_safe p m 1).bind (j := 0) fun bit bit' hbit k hk => ?_).mono (Nat.le_refl _)
      fun _ _ h => h
    obtain ⟨rfl, hbit⟩ := hbit
    obtain ⟨b, rfl⟩ : ∃ b : Bool, bit = b.toNat := by
      rcases Nat.lt_succ_iff_lt_or_eq.mp hbit with h | h
      · exact ⟨false, by simpa using h⟩
      · exact ⟨true, h⟩
    have hcounts := countLengths_length hlt
    rw [or_bit, item_eq (by show len < (countLengths ls).length; omega) 0, pure_bind]
    have hmodel : (table ls).counts.getD len 0 = perLength ls len := counts_eq hlt len
    have hchecked : (checkedTable ls).counts.getD len 0 = perLength ls len := counts_eq hlt len
    rw [hmodel, hchecked]
    split
    next hcode =>
      obtain ⟨s, hs, hfound, hfound'⟩ := symbol_eq hlt h0 (by omega) (by omega) hcode
      rw [if_neg (by omega), hfound, hfound']
      exact Safe.pure ⟨Eq.refl _, hs⟩
    next hcode =>
      have hfirst : firstCode ls (len + 1) = 2 * (firstCode ls len + perLength ls len) := Eq.refl _
      have hnext := ih (m := k) (len + 1) (2 * c + b.toNat) (by omega) (by omega) (by omega)
      rw [Nat.shiftLeft_eq, Nat.shiftLeft_eq, Nat.pow_one, Nat.mul_comm _ 2, Nat.mul_comm _ 2]
      exact hnext.mono (Nat.zero_le _) fun _ _ h => h

theorem decode_safe (hlt : ∀ len ∈ ls, len < 16) :
    Safe p m (table ls).decode (checkedTable ls).decode 1 fun s s' => s = s' ∧ s < ls.length :=
  decodeFrom_safe hlt 15 1 0 (by decide) (by decide) (Nat.zero_le _)

theorem decode_next {β γ : Type} {f : Nat → Take β} {g : Nat → Checked γ} {S : β → γ → Prop}
    (hlt : ∀ len ∈ ls, len < 16)
    (hf : ∀ s < ls.length, ∀ n, n + 1 ≤ m → Safe p n (f s) (g s) 0 S) :
    Safe p m ((table ls).decode >>= f) ((checkedTable ls).decode >>= g) 0 S := by
  apply (decode_safe hlt).next
  rintro s s' ⟨rfl, hs⟩ n hn
  exact hf s hs n hn

end Tables

section Streams

variable {p : Bytes} {m limit : Nat} {lit dist : List Nat}

theorem copyBytes_checked (len : Nat) {start : Nat} {out : Bytes} (h : start < out.length) :
    Checked.copyBytes len start out = pure (copyBytes len start out) := by
  induction len generalizing start out with
  | zero => exact Eq.refl _
  | succ len ih =>
    rw [Checked.copyBytes, item_eq h 0, pure_bind, ih (by rw [List.length_append]; exact Nat.succ_lt_succ h)]
    exact Eq.refl _

theorem copyBytes_length (len start : Nat) (out : Bytes) :
    (copyBytes len start out).length = out.length + len := by
  induction len generalizing start out with
  | zero => exact Eq.refl _
  | succ len ih =>
    rw [copyBytes, ih, List.length_append]
    show out.length + 1 + len = out.length + (len + 1)
    omega

theorem copied_safe (hd : ∀ len ∈ dist, len < 16) {li : Nat} (hli : li < 29) (out : Bytes) :
    Safe p m (copied limit (table dist) li out) (Checked.copied limit (checkedTable dist) li out) 0
      fun o o' => o = o' ∧ o.length ≤ limit := by
  have hnear : ∀ di < 30, 1 ≤ kDistBase.getD di 0 := by decide
  unfold copied Checked.copied
  rw [item_eq (show li < kLengthBase.length from hli) 0, pure_bind,
    item_eq (show li < kLengthExtra.length from hli) 0, pure_bind]
  refine get_next fun extra hextra k hk => ?_
  refine decode_next hd fun di hdi k' hk' => ?_
  split
  next => exact Safe.fail _
  next hdi =>
    have hdi : di < 30 := Nat.lt_of_not_le hdi
    have hpos := hnear di hdi
    rw [item_eq (show di < kDistBase.length from hdi) 0, pure_bind,
      item_eq (show di < kDistExtra.length from hdi) 0, pure_bind]
    refine get_next fun far hfar k'' hk'' => ?_
    split
    next => exact Safe.fail _
    next hnear =>
      split
      next => exact Safe.fail _
      next hmost =>
        rw [copyBytes_checked _ (by omega)]
        refine Safe.pure ⟨Eq.refl _, ?_⟩
        rw [copyBytes_length]
        exact Nat.le_of_not_lt hmost

theorem codes_safe (hl : ∀ len ∈ lit, len < 16) (hd : ∀ len ∈ dist, len < 16) (rounds : Nat)
    (hrounds : m < rounds) {out : Bytes} (hout : out.length ≤ limit) :
    Safe p m (codes limit (table lit) (table dist) rounds out)
      (Checked.codes limit (checkedTable lit) (checkedTable dist) rounds out) 0
      fun o o' => o = o' ∧ o.length ≤ limit := by
  induction rounds generalizing m out with
  | zero => exact absurd hrounds (Nat.not_lt_zero m)
  | succ rounds ih =>
    rw [codes, Checked.codes]
    refine decode_next hl fun sym hsym k hk => ?_
    split
    next =>
      split
      next => exact Safe.fail _
      next hroom =>
        exact ih (by omega) (by rw [List.length_append]; exact Nat.lt_of_not_le hroom)
    next =>
      split
      next => exact Safe.pure ⟨Eq.refl _, hout⟩
      next =>
        split
        next => exact Safe.fail _
        next hli =>
          refine (copied_safe hd (Nat.lt_of_not_le hli) out).next fun o o' ho k' hk' => ?_
          obtain ⟨rfl, ho⟩ := ho
          exact ih (by omega) ho

/-- Right before its bytes a stored block has left no bits in the buffer. -/
theorem storedBytes_safe (hm : m % 8 = 0) (len : Nat) (out : Bytes) :
    Safe p m (storedBytes limit len out) (Checked.storedBytes limit len out) 0
      fun o o' => o = o' ∧ o.length ≤ limit := by
  intro b hb
  have hleft := hb.left
  have hfew := hb.few
  have hplace := hb.place_le
  have hcount : b.count = 0 := by omega
  unfold storedBytes Checked.storedBytes
  rw [if_neg (not_not.mpr hcount), hb.data]
  by_cases hend : p.length < b.place + len
  · rw [if_pos hend, if_pos hend]
    exact .inr ⟨_, _, b, b, Eq.refl _, Eq.refl _, _, Eq.refl _, Eq.refl _⟩
  · rw [if_neg hend, if_neg hend]
    by_cases hmost : limit < out.length + len
    · rw [if_pos hmost, if_pos hmost]
      exact .inr ⟨_, _, b, b, Eq.refl _, Eq.refl _, _, Eq.refl _, Eq.refl _⟩
    · rw [if_neg hmost, if_neg hmost]
      refine .inl ⟨out ++ (p.drop b.place).take len, out ++ (p.drop b.place).take len,
        ⟨p, b.place + len, b.buf, b.count⟩, Eq.refl _, Eq.refl _, m - 8 * len,
        Nat.sub_le _ _, ⟨Eq.refl _, ?_⟩, Eq.refl _, ?_, hfew, ?_⟩
      · rw [List.length_append, List.length_take, List.length_drop]
        omega
      · exact Nat.le_of_not_lt hend
      · show m - 8 * len = 8 * (p.length - (b.place + len)) + b.count
        omega

theorem stored_safe (out : Bytes) :
    Safe p m (stored limit out) (Checked.stored limit out) 0
      fun o o' => o = o' ∧ o.length ≤ limit := by
  unfold stored Checked.stored
  refine Alike.bind (align_alike p m) fun _ _ => ?_
  refine Alike.bind (get_alike p _ 16) fun len len' => ?_
  rintro b ⟨rfl, -, h16, hb⟩
  refine Alike.bind (Q := fun v v' s => v = v' ∧ 16 ≤ m - m % 8 - 16 ∧
    Ready p (m - m % 8 - 16 - 16) s) ?_ (fun nlen nlen' => ?_) b hb
  · refine (get_alike p _ 16).conseq (fun _ hs => hs) ?_
    rintro v v' s ⟨heq, -, h16', hs⟩
    exact ⟨heq, h16', hs⟩
  · rintro b' ⟨rfl, h16', hb'⟩
    have hsafe : Safe p (m - m % 8 - 16 - 16)
        (if len ^^^ 0xffff ≠ nlen then fail "inflate: a stored block's length check fails"
          else storedBytes limit len out)
        (if len ^^^ 0xffff ≠ nlen then Checked.fail "inflate: a stored block's length check fails"
          else Checked.storedBytes limit len out) 0
        fun o o' => o = o' ∧ o.length ≤ limit := by
      split
      next => exact Safe.fail _
      next => exact storedBytes_safe (by omega) len out
    rcases hsafe b' hb' with ⟨o, o', s, ho, ho', k, hk, hr, hs⟩ | hraise
    · exact .inl ⟨o, o', s, ho, ho', k, by omega, hr, hs⟩
    · exact .inr hraise

theorem readCodeLengths_safe (k i : Nat) (hi : i + k ≤ 19) {cl : List Nat} (hlength : cl.length = 19)
    (hcl : ∀ len ∈ cl, len < 16) :
    Safe p m (readCodeLengths ((order.drop i).take k) cl)
      (Checked.readCodeLengths (List.range' i k) cl) 0
      fun c c' => c = c' ∧ c.length = 19 ∧ ∀ len ∈ c, len < 16 := by
  have hplaces : ∀ i < 19, order.getD i 0 < 19 := by decide
  induction k generalizing m i cl with
  | zero => exact Safe.pure ⟨Eq.refl _, hlength, hcl⟩
  | succ k ih =>
    have hplace := hplaces i (by omega)
    have hlt : i < order.length := by
      show i < 19
      omega
    rw [List.drop_eq_getElem_cons hlt, List.take_succ_cons, List.range'_succ, readCodeLengths,
      Checked.readCodeLengths]
    refine get_next fun len hlen n hn => ?_
    rw [item_eq hlt 0, pure_bind, setItem_eq (by omega), pure_bind, List.getD_eq_getElem _ _ hlt]
    refine ih (i + 1) (by omega) (by rw [List.length_set, hlength]) fun l hl => ?_
    rcases List.mem_or_eq_of_mem_set hl with h | h
    · exact hcl l h
    · rw [h]
      exact Nat.lt_of_lt_of_le hlen (by decide)

/-- The lengths read so far, in their array. -/
def inArray (l : List Nat) : List Nat := l ++ List.replicate (316 - l.length) 0

theorem inArray_length {l : List Nat} (h : l.length ≤ 316) : (inArray l).length = 316 := by
  unfold inArray
  rw [List.length_append, List.length_replicate]
  omega

theorem setItem_inArray {l : List Nat} (h : l.length < 316) (v : Nat) :
    Checked.setItem (inArray l) l.length v = pure (inArray (l ++ [v])) := by
  rw [setItem_eq (by rw [inArray_length (Nat.le_of_lt h)]; exact h)]
  unfold inArray
  rw [List.set_append_right _ _ (Nat.le_refl _), Nat.sub_self, List.length_append,
    show 316 - l.length = (316 - (l.length + 1)) + 1 by omega, List.replicate_succ, List.set_cons_zero,
    List.append_assoc]
  exact Eq.refl _

theorem writeRepeat_eq (v rep : Nat) {l : List Nat} (h : l.length + rep ≤ 316) :
    Checked.writeRepeat v rep l.length (inArray l) =
      pure (inArray (l ++ List.replicate rep v)) := by
  induction rep generalizing l with
  | zero =>
    rw [List.replicate_zero, List.append_nil]
    exact Eq.refl _
  | succ rep ih =>
    have hnext := ih (l := l ++ [v]) (by rw [List.length_append, List.length_singleton]; omega)
    rw [List.length_append, List.length_singleton, List.append_assoc] at hnext
    rw [Checked.writeRepeat, setItem_inArray (by omega), pure_bind, hnext]
    exact Eq.refl _

theorem repeatOf_safe (sym : Nat) {l : List Nat} (hl : ∀ len ∈ l, len < 16)
    (hmost : l.length ≤ 316) :
    Safe p m (repeatOf sym l) (Checked.repeatOf sym l.length (inArray l)) 0
      fun r r' => r = r' ∧ r.1 < 16 ∧ 0 < r.2 := by
  unfold repeatOf Checked.repeatOf
  split
  next =>
    split
    next => exact Safe.fail _
    next hpos =>
      have hget : (inArray l).getD (l.length - 1) 0 = l.getD (l.length - 1) 0 := by
        unfold inArray
        exact List.getD_append _ _ _ _ (by omega)
      rw [item_eq (by rw [inArray_length hmost]; omega) 0, pure_bind, hget]
      refine get_next fun more hmore k hk => ?_
      exact Safe.pure ⟨Eq.refl _, getD_lt hl _, by show 0 < 3 + more; omega⟩
  next =>
    split
    next =>
      refine get_next fun more hmore k hk => ?_
      exact Safe.pure ⟨Eq.refl _, Nat.zero_lt_succ 15, by show 0 < 3 + more; omega⟩
    next =>
      refine get_next fun more hmore k hk => ?_
      exact Safe.pure ⟨Eq.refl _, Nat.zero_lt_succ 15, by show 0 < 11 + more; omega⟩

theorem readLengths_safe (hd : ∀ len ∈ dist, len < 16) {total : Nat} (htotal : total ≤ 316)
    (rounds : Nat) {l : List Nat} (hl : ∀ len ∈ l, len < 16) (hmost : l.length ≤ total)
    (hrounds : total < l.length + rounds) :
    Safe p m (readLengths (table dist) total rounds l)
      (Checked.readLengths (checkedTable dist) total rounds l.length (inArray l)) 0
      fun l l' => l' = inArray l ∧ l.length = total ∧ ∀ len ∈ l, len < 16 := by
  induction rounds generalizing m l with
  | zero => exact absurd hrounds (by omega)
  | succ rounds ih =>
    rw [readLengths, Checked.readLengths]
    split
    next hdone => exact Safe.pure ⟨Eq.refl _, by omega, hl⟩
    next hmore =>
      refine decode_next hd fun sym hsym k hk => ?_
      split
      next hsym =>
        rw [setItem_inArray (by omega), pure_bind]
        have hnext := ih (m := k) (l := l ++ [sym])
          (fun len hlen => by
            rcases List.mem_append.mp hlen with h | h
            · exact hl len h
            · rw [List.mem_singleton.mp h]
              exact hsym)
          (by rw [List.length_append, List.length_singleton]; omega)
          (by rw [List.length_append, List.length_singleton]; omega)
        rw [List.length_append, List.length_singleton] at hnext
        exact hnext
      next =>
        refine (repeatOf_safe sym hl (by omega)).next fun r r' hr n hn => ?_
        obtain ⟨rfl, hv, hpos⟩ := hr
        obtain ⟨v, rep⟩ := r
        show Safe _ _ (if total < l.length + rep then _ else _) (if total < l.length + rep then _ else _)
          _ _
        split
        next => exact Safe.fail _
        next hroom =>
          rw [writeRepeat_eq _ _ (by omega), pure_bind]
          have hnext := ih (m := n) (l := l ++ List.replicate rep v)
            (fun len hlen => by
              rcases List.mem_append.mp hlen with h | h
              · exact hl len h
              · rw [List.eq_of_mem_replicate h]
                exact hv)
            (by rw [List.length_append, List.length_replicate]; omega)
            (by rw [List.length_append, List.length_replicate]; omega)
          rw [List.length_append, List.length_replicate] at hnext
          exact hnext

/-- A pair of tables, of lengths that can be a code's. -/
def Tables (h : Huffman × Huffman) (t : Checked.Table × Checked.Table) : Prop :=
  ∃ lit dist, (∀ len ∈ lit, len < 16) ∧ (∀ len ∈ dist, len < 16) ∧ h = (table lit, table dist) ∧
    t = (checkedTable lit, checkedTable dist)

theorem buildBoth_safe {a b : List Nat} {n k : Nat} (hn : n ≤ a.length) (hk : k ≤ b.length)
    (ha : ∀ len ∈ a.take n, len < 16) (hb : ∀ len ∈ b.take k, len < 16) :
    Safe p m (buildBoth (a.take n) (b.take k)) (Checked.buildBoth a n b k) 0 Tables := by
  unfold buildBoth Checked.buildBoth
  refine (build_safe hn ha).next fun h t ht _ _ => ?_
  obtain ⟨rfl, rfl⟩ := ht
  refine (build_safe hk hb).next fun h t ht _ _ => ?_
  obtain ⟨rfl, rfl⟩ := ht
  exact Safe.pure ⟨_, _, ha, hb, Eq.refl _, Eq.refl _⟩

theorem describedTables_safe (hlit hdist hclen : Nat) (hmin : 257 ≤ hlit) (hmost : hclen ≤ 19) :
    Safe p m (describedTables hlit hdist hclen) (Checked.describedTables hlit hdist hclen) 0
      Tables := by
  unfold describedTables Checked.describedTables
  split
  next => exact Safe.fail _
  next hfew =>
    obtain ⟨hlitle, hdistle⟩ := not_or.mp hfew
    have hzeros : ∀ len ∈ List.replicate 19 0, len < 16 := fun len hlen => by
      rw [List.eq_of_mem_replicate hlen]
      exact Nat.zero_lt_succ 15
    have hread := readCodeLengths_safe (p := p) (m := m) hclen 0 (by omega) List.length_replicate
      hzeros
    rw [List.drop_zero] at hread
    rw [List.range_eq_range']
    refine hread.next fun cl cl' hcl _ _ => ?_
    obtain ⟨rfl, hlength, hcl⟩ := hcl
    have htake : cl.take 19 = cl := List.take_of_length_le (Nat.le_of_eq hlength)
    have hbuild := fun k => build_safe (p := p) (m := k) (Nat.le_of_eq hlength.symm)
      (by rw [htake]; exact hcl)
    rw [htake] at hbuild
    refine (hbuild _).next fun h t ht _ _ => ?_
    obtain ⟨rfl, rfl⟩ := ht
    refine (readLengths_safe hcl (by omega) _ (l := []) (fun _ h => absurd h List.not_mem_nil)
      (Nat.zero_le _) (by omega)).next fun l l' hl _ _ => ?_
    obtain ⟨rfl, hlen, hl⟩ := hl
    have hget : (inArray l).getD 256 0 = l.getD 256 0 := by
      unfold inArray
      exact List.getD_append _ _ _ _ (by omega)
    rw [item_eq (by rw [inArray_length (by omega)]; decide) 0, pure_bind, hget]
    split
    next => exact Safe.fail _
    next =>
      have hfirst : (inArray l).take hlit = l.take hlit := by
        unfold inArray
        exact List.take_append_of_le_length (by omega)
      have hrest : ((inArray l).drop hlit).take hdist = l.drop hlit := by
        unfold inArray
        rw [List.drop_append_of_le_length (by omega), List.take_append_of_le_length
          (by rw [List.length_drop]; omega), List.take_of_length_le (by rw [List.length_drop]; omega)]
      have hboth := fun k => buildBoth_safe (p := p) (m := k) (a := inArray l) (n := hlit)
        (b := (inArray l).drop hlit) (k := hdist)
        (by rw [inArray_length (by omega)]; omega)
        (by rw [List.length_drop, inArray_length (by omega)]; omega)
        (by rw [hfirst]; exact fun len h => hl len (List.mem_of_mem_take h))
        (by rw [hrest]; exact fun len h => hl len (List.mem_of_mem_drop h))
      rw [hfirst, hrest] at hboth
      exact hboth _

theorem dynamicTables_safe : Safe p m dynamicTables Checked.dynamicTables 0 Tables := by
  unfold dynamicTables Checked.dynamicTables
  refine get_next fun hlit h1 k hk => ?_
  refine get_next fun hdist h2 n hn => ?_
  refine get_next fun hclen h3 _ _ => ?_
  exact describedTables_safe _ _ _ (by omega) (by omega)

theorem fixedLit_lengths : fixedLit.length = 288 ∧ ∀ len ∈ fixedLit, len < 16 := by
  unfold fixedLit
  refine ⟨?_, fun len hlen => ?_⟩
  · simp only [List.length_append, List.length_replicate]
  · simp only [List.mem_append, List.mem_replicate] at hlen
    omega

theorem fixedDist_lengths : fixedDist.length = 30 ∧ ∀ len ∈ fixedDist, len < 16 := by
  unfold fixedDist
  refine ⟨List.length_replicate, fun len hlen => ?_⟩
  rw [List.eq_of_mem_replicate hlen]
  omega

theorem block_safe {symbols : Nat} (hsymbols : m < symbols) (type : Nat) {out : Bytes}
    (hout : out.length ≤ limit) :
    Safe p m (block limit symbols type out) (Checked.block limit symbols type out) 0
      fun o o' => o = o' ∧ o.length ≤ limit := by
  unfold block Checked.block
  split
  next => exact stored_safe out
  next =>
    split
    next =>
      have hlit := fixedLit_lengths
      have hdist := fixedDist_lengths
      have htake : fixedLit.take 288 = fixedLit := List.take_of_length_le (Nat.le_of_eq hlit.1)
      have htake' : fixedDist.take 30 = fixedDist := List.take_of_length_le (Nat.le_of_eq hdist.1)
      have hboth := buildBoth_safe (p := p) (m := m) (Nat.le_of_eq hlit.1.symm)
        (Nat.le_of_eq hdist.1.symm) (by rw [htake]; exact hlit.2) (by rw [htake']; exact hdist.2)
      rw [htake, htake'] at hboth
      refine hboth.next fun h t ht k hk => ?_
      obtain ⟨lit, dist, hlit, hdist, rfl, rfl⟩ := ht
      exact codes_safe hlit hdist symbols (by omega) hout
    next =>
      split
      next =>
        refine dynamicTables_safe.next fun h t ht k hk => ?_
        obtain ⟨lit, dist, hlit, hdist, rfl, rfl⟩ := ht
        exact codes_safe hlit hdist symbols (by omega) hout
      next => exact Safe.fail _

theorem blocks_safe {symbols : Nat} (hsymbols : m < symbols) (rounds : Nat) (hrounds : m < rounds)
    {out : Bytes} (hout : out.length ≤ limit) :
    Safe p m (blocks limit symbols rounds out) (Checked.blocks limit symbols rounds out) 0
      fun o o' => o = o' ∧ o.length ≤ limit := by
  induction rounds generalizing m out with
  | zero => exact absurd hrounds (Nat.not_lt_zero m)
  | succ rounds ih =>
    rw [blocks, Checked.blocks]
    refine get_next fun last h1 k hk => ?_
    refine get_next fun type h2 n hn => ?_
    refine (block_safe (by omega) type hout).next fun o o' ho k' hk' => ?_
    obtain ⟨rfl, ho⟩ := ho
    split
    next => exact Safe.pure ⟨Eq.refl _, ho⟩
    next => exact ih (by omega) (by omega) ho

/-- What a run ends with: bytes within the limit or a refusal, and no fault of the checked one. -/
structure Ended (limit : Nat) (r : Except Error Bytes) (c : Except Fault Bytes) : Prop where
  same : c = r.mapError Fault.refused
  within : ∀ out, r = .ok out → out.length ≤ limit
  reason : ∀ e, r = .error e → (∃ what, e = .runtime what) ∨ e = .length ∧ 2 ^ 63 ≤ limit

theorem Ended.refusal (limit : Nat) (what : String) :
    Ended limit (.error (.runtime what)) (.error (.refused (.runtime what))) where
  same := Eq.refl _
  within _ h := by cases h
  reason _ h := .inl ⟨what, (Except.error.inj h).symm⟩

/-- The word read at the end is of the stream, and no word is left over in the buffer. -/
theorem sumCheck_ended {b : Bits} (hb : Ready p m b) {out : Bytes} (hout : out.length ≤ limit) :
    Ended limit (checkedSum out b) (Checked.outcome (Checked.sumCheck out b)) := by
  have hfew := hb.few
  have hchecked : Checked.sumCheck out b =
      (if 32 ≤ b.count then
        Checked.fault (.refused (.logic "inflate: more than a word buffered"))
      else if b.p.length < b.place - b.count / 8 + 4 then
        Checked.fail "inflate: the stream ends before its Adler-32"
      else
        Checked.item b.p (b.place - b.count / 8) >>= fun q0 =>
        Checked.item b.p (b.place - b.count / 8 + 1) >>= fun q1 =>
        Checked.item b.p (b.place - b.count / 8 + 2) >>= fun q2 =>
        Checked.item b.p (b.place - b.count / 8 + 3) >>= fun q3 =>
        if adler out ≠ (q0.toNat <<< 24 ||| q1.toNat <<< 16 ||| q2.toNat <<< 8 ||| q3.toNat) then
          Checked.fail "inflate: the Adler-32 check fails"
        else pure out : Checked Bytes) b := Eq.refl _
  have hsmall : ¬ 32 ≤ b.count := by omega
  rw [hchecked, checkedSum, if_neg hsmall, if_neg hsmall]
  by_cases hend : b.p.length < b.place - b.count / 8 + 4
  · rw [if_pos hend, if_pos hend]
    exact Ended.refusal _ _
  · rw [if_neg hend, if_neg hend, item_eq (by omega) 0, pure_bind, item_eq (by omega) 0, pure_bind,
      item_eq (by omega) 0, pure_bind, item_eq (by omega) 0, pure_bind]
    show Ended limit _ (Checked.outcome ((if adler out ≠ wanted b.p (b.place - b.count / 8) then _
      else _ : Checked Bytes) b))
    by_cases hsum : adler out ≠ wanted b.p (b.place - b.count / 8)
    · rw [if_pos hsum, if_pos hsum]
      exact Ended.refusal _ _
    · rw [if_neg hsum, if_neg hsum]
      refine ⟨Eq.refl _, fun o ho => ?_, fun _ h => by cases h⟩
      rw [← Except.ok.inj ho]
      exact hout

theorem inflated_ended {symbols : Nat} (hsymbols : m < symbols) {b : Bits} (hb : Ready p m b) :
    Ended limit (outcome (inflated limit symbols b))
      (Checked.outcome (Checked.inflated limit symbols b)) := by
  unfold inflated Checked.inflated
  have hempty : ([] : Bytes).length ≤ limit := Nat.zero_le limit
  rcases blocks_safe hsymbols symbols hsymbols hempty b hb with
    ⟨o, o', s, hrun, hrun', k, -, ⟨rfl, ho⟩, hs⟩ | ⟨_, _, s, s', hrun, hrun', what, rfl, rfl⟩
  · rw [bind_ok hrun, bind_ok hrun']
    rcases align_alike p k s hs with
      ⟨_, _, t, halign, halign', ht⟩ | ⟨e, f, t, t', halign, -, -⟩
    · rw [bind_ok halign, bind_ok halign']
      exact sumCheck_ended ht ho
    · cases halign
  · rw [bind_error hrun, bind_error hrun']
    exact Ended.refusal _ _

/-- On every byte string the inflater ends, with no access outside an array on its way. -/
theorem inflateZlib_ended (p : Bytes) (limit : Nat) :
    Ended limit (inflateZlib p limit) (Checked.inflateZlib p limit) := by
  unfold inflateZlib Checked.inflateZlib
  split
  next => exact Ended.refusal _ _
  next hlong =>
    have hget : ∀ i, i < p.length → p[i]? = some (p.getD i 0) := by
      intro i hi
      rw [List.getD_eq_getElem?_getD, List.getElem?_eq_getElem hi, Option.getD_some]
    rw [hget 0 (by omega), hget 1 (by omega)]
    show Ended limit _ (Checked.headed (p.getD 0 0) (p.getD 1 0) p limit)
    unfold Checked.headed
    split
    next => exact Ended.refusal _ _
    next =>
      split
      next => exact Ended.refusal _ _
      next =>
        split
        next => exact Ended.refusal _ _
        next =>
          split
          next hlimit =>
            refine ⟨Eq.refl _, fun _ h => ?_, fun _ h => ?_⟩
            · cases h
            · exact .inr ⟨(Except.error.inj h).symm, hlimit⟩
          next =>
            have hlength := List.length_drop (l := p) (i := 2)
            exact inflated_ended (m := 8 * (p.length - 2)) (by omega)
              ⟨Eq.refl _, Nat.zero_le _, Nat.zero_lt_succ 7, by
                show 8 * (p.length - 2) = 8 * ((p.drop 2).length - 0) + 0
                omega⟩

end Streams

end Inflate

end Llmx
