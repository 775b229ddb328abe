import Llmx.HttpRequest
import Llmx.Tags

namespace Llmx

namespace Http

variable {limits : Limits}

/-- What a read brings is some of what was left, none only at the end. -/
theorem recvSome_spec (a : Arrival) {n : Nat} (hn : 0 < n) :
    a.rest = (a.recvSome n).1 ++ (a.recvSome n).2.rest ∧ (a.recvSome n).1.length ≤ n ∧
      ((a.recvSome n).1 = [] ↔ a.rest = []) := by
  refine ⟨(List.take_append_drop _ _).symm, ?_, ?_⟩
  · simp only [Arrival.recvSome, List.length_take]
    omega
  · simp only [Arrival.recvSome, List.take_eq_nil_iff]
    constructor
    · rintro (h | h)
      · omega
      · exact h
    · exact Or.inr

theorem blankLine_ne : blankLine ≠ [] := by decide

theorem blankLine_length : blankLine.length = 4 := by decide

/-- A stream with no blank line ends in one way. -/
theorem readHead_none {S : Bytes} (head : Bytes) (a : Arrival) (hS : S = head ++ a.rest)
    (hnone : Tags.split blankLine S = none) :
    readHead limits head a = .error
      (if limits.maxHeaderBytes < S.length then 431 else if S = [] then 0 else 400) := by
  fun_induction readHead limits head a with
  | case1 head a hlong =>
    rw [if_pos]
    rw [hS, List.length_append]
    omega
  | case2 head a hshort hend =>
    have hrest := (recvSome_spec a (by decide)).2.2.mp hend
    rw [hrest, List.append_nil] at hS
    rw [hS, if_neg hshort]
  | case3 head a hshort hbuf before after hsplit =>
    obtain ⟨hrest, -, -⟩ := recvSome_spec a (n := 4096) (by decide)
    have hmore := Tags.split_more (y := (a.recvSome 4096).2.rest) hsplit
    rw [List.append_assoc, ← hrest, ← hS, hnone] at hmore
    cases hmore
  | case4 head a hshort hbuf hsplit ih =>
    obtain ⟨hrest, -, -⟩ := recvSome_spec a (n := 4096) (by decide)
    apply ih
    rw [List.append_assoc, ← hrest, hS]

/-- The first blank line is not whole in what has arrived while that ends before it does. -/
theorem split_arrived {S head rest x y : Bytes} (hS : S = head ++ rest)
    (hsplit : Tags.split blankLine S = some (x, y)) :
    Tags.split blankLine head = none ↔ head.length < x.length + 4 := by
  have heq := Tags.split_eq hsplit
  constructor
  · intro hnone
    apply Nat.lt_of_not_le
    intro hle
    refine (Tags.split_none blankLine_ne).mp hnone ⟨x, head.drop (x.length + 4), ?_⟩
    have htake := congrArg (List.take head.length) (hS.symm.trans heq)
    rw [List.take_left, List.take_append] at htake
    have hlen : (x ++ blankLine).length = x.length + 4 := by
      rw [List.length_append, blankLine_length]
    rw [List.take_of_length_le (by omega)] at htake
    rw [htake, ← hlen, List.drop_left]
  · intro hlt
    cases hhead : Tags.split blankLine head with
    | none => apply Eq.refl
    | some ab =>
      obtain ⟨a, b⟩ := ab
      have hmore := Tags.split_more (y := rest) hhead
      rw [← hS, hsplit] at hmore
      cases hmore
      have := congrArg List.length (Tags.split_eq hhead)
      rw [List.length_append, List.length_append, blankLine_length] at this
      omega

/-- A head read: its first blank line is the stream's, what came after it is less than a read, and
the head is not longer than the limit and a read. -/
theorem readHead_some (limits : Limits) {S x y : Bytes} (head : Bytes) (a : Arrival) (hS : S = head ++ a.rest)
    (hsplit : Tags.split blankLine S = some (x, y)) (hhead : Tags.split blankLine head = none) :
    (readHead limits head a = .error 431 ∧ limits.maxHeaderBytes + 1 < x.length + 4) ∨
      ∃ y' a', readHead limits head a = .ok (x ++ blankLine ++ y', x.length + 4, a') ∧
        y = y' ++ a'.rest ∧ y'.length < 4096 ∧
        x.length + 4 ≤ limits.maxHeaderBytes + 4096 := by
  fun_induction readHead limits head a with
  | case1 head a hlong =>
    have hlt := (split_arrived hS hsplit).mp hhead
    exact .inl ⟨by rfl, by omega⟩
  | case2 head a hshort hend =>
    have hrest := (recvSome_spec a (by decide)).2.2.mp hend
    rw [hrest, List.append_nil] at hS
    rw [hS, hhead] at hsplit
    cases hsplit
  | case3 head a hshort hbuf before after hfound =>
    obtain ⟨hrest, hsize, -⟩ := recvSome_spec a (n := 4096) (by decide)
    have hlt := (split_arrived hS hsplit).mp hhead
    have hmore := Tags.split_more (y := (a.recvSome 4096).2.rest) hfound
    rw [List.append_assoc, ← hrest, ← hS, hsplit] at hmore
    cases hmore
    have heq := Tags.split_eq hfound
    have hlen := congrArg List.length heq
    rw [List.length_append, List.length_append, List.length_append, blankLine_length] at hlen
    exact .inr ⟨after, _, by rw [heq], by rfl, by omega, by omega⟩
  | case4 head a hshort hbuf hnone ih =>
    obtain ⟨hrest, -, -⟩ := recvSome_spec a (n := 4096) (by decide)
    refine ih ?_ hnone
    rw [List.append_assoc, ← hrest, hS]

/-- A body read to its length, where the stream has so much. -/
theorem readBody_eq {length : Nat} {y : Bytes} (body : Bytes) (a : Arrival) (hy : y = body ++ a.rest)
    (hlen : body.length ≤ length) :
    readBody length body a = if y.length < length then none else some (y.take length) := by
  fun_induction readBody length body a with
  | case1 body a hdone =>
    have heq : body.length = length := by omega
    rw [hy, List.length_append, if_neg (by omega), ← heq, List.take_left]
  | case2 body a hless hend =>
    have hrest := (recvSome_spec a (by omega)).2.2.mp hend
    rw [hrest, List.append_nil] at hy
    rw [hy, if_pos (by omega)]
  | case3 body a hless hbuf ih =>
    obtain ⟨hrest, hsize, -⟩ := recvSome_spec a (n := min 16384 (length - body.length)) (by omega)
    apply ih
    · rw [List.append_assoc, ← hrest, hy]
    · rw [List.length_append]
      omega

/-- What a request is once its head has been read, with so much of what follows it. -/
def finish (limits : Limits) (x y' y : Bytes) : Outcome :=
  match checkHead limits x with
  | .error status => .refused status
  | .ok (req, length) =>
    if length < y'.length ∨ y.length < length then .refused 400
    else .request { req with body := y.take length }

theorem readRequest_finish {x y y' : Bytes} {a a' : Arrival}
    (hread : readHead limits [] a = .ok (x ++ blankLine ++ y', x.length + 4, a'))
    (hy : y = y' ++ a'.rest) : readRequest limits a = finish limits x y' y := by
  have hlen : (x ++ blankLine).length = x.length + 4 := by
    rw [List.length_append, blankLine_length]
  have htake : (x ++ blankLine ++ y').take (x.length + 4 - 4) = x := by
    rw [Nat.add_sub_cancel, List.append_assoc, List.take_left]
  have hdrop : (x ++ blankLine ++ y').drop (x.length + 4) = y' := by
    rw [← hlen, List.drop_left]
  rw [readRequest, hread]
  dsimp only
  rw [htake, hdrop, finish]
  cases hcheck : checkHead limits x with
  | error status => apply Eq.refl
  | ok rl =>
    obtain ⟨req, length⟩ := rl
    dsimp only
    by_cases hsurplus : length < y'.length
    · rw [if_pos hsurplus, if_pos (.inl hsurplus)]
    · rw [if_neg hsurplus, readBody_eq y' a' hy (Nat.le_of_not_lt hsurplus)]
      by_cases hend : y.length < length
      · rw [if_pos hend, if_pos (.inr hend)]
      · rw [if_neg hend, if_neg (not_or.mpr ⟨hsurplus, hend⟩)]

theorem readRequest_some (limits : Limits) {S x y : Bytes} (sizes : List Nat)
    (hsplit : Tags.split blankLine S = some (x, y)) :
    (readRequest limits ⟨S, sizes⟩ = .refused 431 ∧ limits.maxHeaderBytes + 1 < x.length + 4) ∨
      ∃ y', y' <+: y ∧ readRequest limits ⟨S, sizes⟩ = finish limits x y' y ∧ y'.length < 4096 ∧
        x.length + 4 ≤ limits.maxHeaderBytes + 4096 := by
  rcases readHead_some limits [] ⟨S, sizes⟩ (List.nil_append _).symm hsplit (by rfl) with
    ⟨hread, hlong⟩ | ⟨y', a', hread, hy, hshort, hhead⟩
  · rw [readRequest, hread]
    exact .inl ⟨by rfl, hlong⟩
  · exact .inr ⟨y', ⟨a'.rest, hy.symm⟩, readRequest_finish hread hy, hshort, hhead⟩

/-- Bytes that come one by one, up to the limit and short of the blank line's end. -/
theorem readHead_ones (limits : Limits) {S x y : Bytes} {k : Nat} (head T : Bytes) (sizes : List Nat)
    (hS : S = head ++ T) (hsplit : Tags.split blankLine S = some (x, y))
    (hlimit : head.length + k ≤ limits.maxHeaderBytes + 1) (hk : head.length + k < x.length + 4) :
    readHead limits head ⟨T, List.replicate k 1 ++ sizes⟩ =
      readHead limits (head ++ T.take k) ⟨T.drop k, sizes⟩ := by
  have hlong := congrArg List.length (Tags.split_eq hsplit)
  rw [List.length_append, List.length_append, blankLine_length] at hlong
  induction k generalizing head T with
  | zero =>
    rw [List.replicate_zero, List.nil_append, List.take_zero, List.append_nil, List.drop_zero]
  | succ k ih =>
    cases T with
    | nil =>
      rw [List.append_nil] at hS
      rw [hS] at hlong
      omega
    | cons c T =>
      have hrecv : Arrival.recvSome ⟨c :: T, List.replicate (k + 1) 1 ++ sizes⟩ 4096 =
          ([c], ⟨T, List.replicate k 1 ++ sizes⟩) := by rfl
      have hS' : S = (head ++ [c]) ++ T := by
        rw [hS, List.append_assoc, List.singleton_append]
      have hlen : (head ++ [c]).length = head.length + 1 := by
        rw [List.length_append, List.length_singleton]
      have hnone := (split_arrived hS' hsplit).mpr (by omega)
      rw [readHead, if_neg (by omega), hrecv, dif_neg (List.cons_ne_nil _ _), hnone]
      dsimp only
      rw [ih (head ++ [c]) T hS' (by omega) (by omega), List.append_assoc, List.singleton_append,
        List.take_succ_cons, List.drop_succ_cons]

/-- A read that brings the end of the blank line. -/
theorem readHead_last (limits : Limits) {S x y : Bytes} {n : Nat} (head T : Bytes) (hS : S = head ++ T)
    (hsplit : Tags.split blankLine S = some (x, y)) (hlimit : head.length ≤ limits.maxHeaderBytes)
    (hhead : head.length < x.length + 4) (hn : x.length + 4 ≤ head.length + n) (hmax : n ≤ 4096) :
    ∃ a', readHead limits head ⟨T, [n]⟩ =
        .ok (x ++ blankLine ++ y.take (head.length + n - (x.length + 4)), x.length + 4, a') ∧
      y = y.take (head.length + n - (x.length + 4)) ++ a'.rest := by
  have hlong := congrArg List.length (Tags.split_eq hsplit)
  rw [List.length_append, List.length_append, blankLine_length] at hlong
  have hlenS := congrArg List.length hS
  rw [List.length_append] at hlenS
  have hrecv : Arrival.recvSome ⟨T, [n]⟩ 4096 = (T.take n, ⟨T.drop n, []⟩) := by
    simp only [Arrival.recvSome, List.headD_cons, List.tail_cons]
    rw [Nat.min_eq_right hmax, Nat.max_eq_right (by omega)]
  have hT : T.take n ≠ [] := by
    rw [Ne, List.take_eq_nil_iff]
    rintro (h | h)
    · omega
    · rw [h] at hlenS
      rw [List.length_nil] at hlenS
      omega
  have hcut : S = (head ++ T.take n) ++ T.drop n := by
    rw [List.append_assoc, List.take_append_drop, hS]
  have hlen : (head ++ T.take n).length = head.length + min n T.length := by
    rw [List.length_append, List.length_take]
  cases hfound : Tags.split blankLine (head ++ T.take n) with
  | none =>
    have := (split_arrived hcut hsplit).mp hfound
    omega
  | some ab =>
    obtain ⟨a, b⟩ := ab
    have hmore := Tags.split_more (y := T.drop n) hfound
    rw [← hcut, hsplit] at hmore
    cases hmore
    have heq := Tags.split_eq hfound
    have hb := congrArg List.length heq
    rw [hlen, List.length_append, List.length_append, blankLine_length] at hb
    have htake : (b ++ T.drop n).take (head.length + n - (x.length + 4)) = b := by
      rw [List.take_append]
      rcases Nat.le_total n T.length with hle | hle
      · rw [List.take_of_length_le (by omega), show head.length + n - (x.length + 4) - b.length = 0 by
          omega, List.take_zero, List.append_nil]
      · rw [List.drop_of_length_le hle, List.take_nil, List.append_nil,
          List.take_of_length_le (by omega)]
    refine ⟨⟨T.drop n, []⟩, ?_, ?_⟩
    · rw [readHead, if_neg (by omega), hrecv, dif_neg hT, hfound, htake]
      dsimp only
      rw [heq]
    · rw [htake]

/-- A request whose head comes byte by byte but for the read that ends it. -/
theorem readRequest_ones (limits : Limits) {S x y : Bytes} {p n : Nat}
    (hsplit : Tags.split blankLine S = some (x, y)) (hlimit : p ≤ limits.maxHeaderBytes)
    (hp : p < x.length + 4) (hn : x.length + 4 ≤ p + n) (hmax : n ≤ 4096) :
    readRequest limits ⟨S, List.replicate p 1 ++ [n]⟩ =
      finish limits x (y.take (p + n - (x.length + 4))) y := by
  have hlong := congrArg List.length (Tags.split_eq hsplit)
  rw [List.length_append, List.length_append, blankLine_length] at hlong
  have hlen : (S.take p).length = p := by
    rw [List.length_take]
    omega
  have hones := readHead_ones limits (k := p) [] S [n] (List.nil_append _).symm hsplit
    (by rw [List.length_nil]; omega) (by rw [List.length_nil]; omega)
  obtain ⟨a', hlast, hy⟩ := readHead_last limits (n := n) (S.take p) (S.drop p)
    (List.take_append_drop p S).symm hsplit (by omega) (by omega) (by omega) hmax
  rw [hlen] at hlast hy
  rw [List.nil_append] at hones
  exact readRequest_finish (hones.trans hlast) hy

/-- A request whose head comes byte by byte past the limit. -/
theorem readRequest_long {S x y : Bytes} (hsplit : Tags.split blankLine S = some (x, y))
    (hlong : limits.maxHeaderBytes + 1 < x.length + 4) :
    readRequest limits ⟨S, List.replicate (limits.maxHeaderBytes + 1) 1⟩ = .refused 431 := by
  have hS := congrArg List.length (Tags.split_eq hsplit)
  rw [List.length_append, List.length_append, blankLine_length] at hS
  have hones := readHead_ones limits (k := limits.maxHeaderBytes + 1) [] S []
    (List.nil_append _).symm hsplit (by rw [List.length_nil]; omega) (by rw [List.length_nil]; omega)
  have hlen : (S.take (limits.maxHeaderBytes + 1)).length = limits.maxHeaderBytes + 1 := by
    rw [List.length_take]
    omega
  rw [List.append_nil, List.nil_append] at hones
  rw [readRequest, hones, readHead, if_pos (by omega)]

theorem checkHead_status {head : Bytes} {status : Nat} (h : checkHead limits head = .error status) :
    status = 400 ∨ status = 413 := by
  unfold checkHead at h
  split at h
  · cases h
    exact .inl (by rfl)
  · dsimp only at h
    split at h
    · cases h
      exact .inl (by rfl)
    · split at h
      · cases h
        exact .inl (by rfl)
      · split at h
        · cases h
          exact .inr (by rfl)
        · cases h

theorem finish_ne_long {x y' y : Bytes} : finish limits x y' y ≠ .refused 431 := by
  unfold finish
  split
  next status h =>
    intro heq
    cases heq
    rcases checkHead_status h with h | h <;> cases h
  · split <;> rintro ⟨⟩

/-- Streams read alike however they arrive: with no blank line, or with a head no read could bring
past the limit, or with a head within it that is refused, or whose body is all that follows it or
has no room for more in the read that ends the head. -/
def Steady (limits : Limits) (S : Bytes) : Prop :=
  ∀ x y, Tags.split blankLine S = some (x, y) →
    limits.maxHeaderBytes + 4096 < x.length + 4 ∨
      (x.length + 4 ≤ limits.maxHeaderBytes + 1 ∧
        ∀ req length, checkHead limits x = .ok (req, length) → y.length ≤ length ∨ 4095 ≤ length)

theorem finish_steady {x y' y : Bytes} (hy' : y' <+: y) (hlen : y'.length < 4096)
    (hs : ∀ req length, checkHead limits x = .ok (req, length) → y.length ≤ length ∨ 4095 ≤ length) :
    finish limits x y' y = finish limits x [] y := by
  unfold finish
  cases hcheck : checkHead limits x with
  | error status => apply Eq.refl
  | ok rl =>
    obtain ⟨req, length⟩ := rl
    have hle := hy'.length_le
    have hno : ¬ length < y'.length := by
      rcases hs req length hcheck with h | h <;> omega
    have hno' : ¬ length < ([] : Bytes).length := Nat.not_lt_zero length
    dsimp only
    by_cases hend : y.length < length
    · rw [if_pos (.inr hend), if_pos (.inr hend)]
    · rw [if_neg (not_or.mpr ⟨hno, hend⟩), if_neg (not_or.mpr ⟨hno', hend⟩)]

/-- A steady stream's outcome, whatever the cut. -/
theorem Steady.outcome {S : Bytes} (hs : Steady limits S) (sizes : List Nat) :
    readRequest limits ⟨S, sizes⟩ =
      match Tags.split blankLine S with
      | none =>
        .refused (if limits.maxHeaderBytes < S.length then 431 else if S = [] then 0 else 400)
      | some (x, y) =>
        if limits.maxHeaderBytes + 4096 < x.length + 4 then .refused 431 else finish limits x [] y := by
  cases hsplit : Tags.split blankLine S with
  | none => rw [readRequest, readHead_none [] ⟨S, sizes⟩ (List.nil_append _).symm hsplit]
  | some xy =>
    obtain ⟨x, y⟩ := xy
    dsimp only
    rcases readRequest_some limits sizes hsplit with
      ⟨hread, hlong⟩ | ⟨y', hy', hread, hlen, hshort⟩
    · rcases hs x y hsplit with h | ⟨h, -⟩
      · rw [if_pos h, hread]
      · omega
    · rcases hs x y hsplit with h | ⟨h, hbody⟩
      · omega
      · rw [if_neg (by omega), hread, finish_steady hy' hlen hbody]

/-- A stream is read alike in every two cuts exactly where it is steady. -/
theorem request_same_iff (limits : Limits) (S : Bytes) :
    (∀ c d : List Nat, readRequest limits ⟨S, c⟩ = readRequest limits ⟨S, d⟩) ↔ Steady limits S := by
  constructor
  · intro hsame x y hsplit
    by_cases hfar : limits.maxHeaderBytes + 4096 < x.length + 4
    · exact .inl hfar
    have hnear : x.length + 4 ≤ limits.maxHeaderBytes + 1 := by
      apply Nat.le_of_not_lt
      intro hlong
      have hones := readRequest_ones limits (p := limits.maxHeaderBytes) (n := 4096)
        hsplit (Nat.le_refl _) (by omega) (by omega) (Nat.le_refl _)
      rw [hsame _ (List.replicate (limits.maxHeaderBytes + 1) 1), readRequest_long hsplit hlong]
        at hones
      exact finish_ne_long hones.symm
    refine .inr ⟨hnear, fun req length hcheck => ?_⟩
    by_contra hbody
    obtain ⟨hmore, hshort⟩ := not_or.mp hbody
    have hexact := readRequest_ones limits (p := x.length + 3) (n := 1) hsplit (by omega)
      (by omega) (by omega) (by decide)
    have hsurplus := readRequest_ones limits (p := x.length + 3) (n := 4096) hsplit
      (by omega) (by omega) (by omega) (Nat.le_refl _)
    rw [hsame _ (List.replicate (x.length + 3) 1 ++ [4096]), hsurplus] at hexact
    have hmin : (y.take (x.length + 3 + 4096 - (x.length + 4))).length = min 4095 y.length := by
      rw [List.length_take]
      omega
    have hzero : x.length + 3 + 1 - (x.length + 4) = 0 := by omega
    rw [finish, finish, hcheck, hzero, List.take_zero] at hexact
    dsimp only at hexact
    rw [if_pos (by omega), if_neg (by rw [List.length_nil]; omega)] at hexact
    cases hexact
  · intro hs c d
    rw [hs.outcome c, hs.outcome d]

/-- A body the head announces none of, read with the head or left unread. -/
theorem surplus_read_or_left :
    ¬ ∀ (limits : Limits) (S : Bytes) (c d : List Nat),
      readRequest limits ⟨S, c⟩ = readRequest limits ⟨S, d⟩ := by
  intro hall
  let x : Bytes := ascii ['G', 'E', 'T', ' ', '/', ' ', 'H', 'T', 'T', 'P', '/', '1', '.', '1']
  have hsplit : Tags.split blankLine (x ++ blankLine ++ [120]) = some (x, [120]) := by decide
  have hexact := readRequest_ones {} (p := 17) (n := 1) hsplit (by decide) (by decide)
    (by decide) (by decide)
  have hsurplus := readRequest_ones {} (p := 17) (n := 2) hsplit (by decide) (by decide)
    (by decide) (by decide)
  rw [hall {} _ _ (List.replicate 17 1 ++ [2]), hsurplus] at hexact
  revert hexact
  decide

end Http

end Llmx
