import Llmx.UpperBound
import Mathlib.Data.List.Sort
import Mathlib.Logic.Function.Basic

/-!
The order waiting requests are admitted in: paused and queued ones in one line, until one does not
fit.
-/

namespace Llmx

namespace AdmitWaiting

variable {α : Type}

/-- What admission asks: the seats left, who is gone or being read from disk, whether a request
enters beside those admitted before it, and its place in the line. -/
structure Asks (α : Type) where
  seats : Nat
  gone : α → Bool
  reading : α → Bool
  enter : List α → α → Bool
  line : α → Nat

/-- The requests that wait, with the cursors into them, and what became of those reached: those that
entered, those `enter` was asked of, and those gone. -/
structure Waiting (α : Type) where
  paused : List α
  queue : List α
  p : Nat
  q : Nat
  admitted : List α
  calls : List α
  left : List α

/-- The request the cursors are at, and whether it is a paused one. -/
def Waiting.next (c : Asks α) (w : Waiting α) : Option (Bool × α) :=
  match w.paused[w.p]?, w.queue[w.q]? with
  | some a, none => some (true, a)
  | some a, some b => if c.line a < c.line b then some (true, a) else some (false, b)
  | none, some b => some (false, b)
  | none, none => none

def Waiting.erase (first : Bool) (w : Waiting α) : Waiting α :=
  if first then { w with paused := w.paused.eraseIdx w.p }
  else { w with queue := w.queue.eraseIdx w.q }

def Waiting.skip (first : Bool) (w : Waiting α) : Waiting α :=
  if first then { w with p := w.p + 1 } else { w with q := w.q + 1 }

/-- The requests not reached yet. -/
def Waiting.ahead (w : Waiting α) : Nat := (w.paused.length - w.p) + (w.queue.length - w.q)

theorem Waiting.next_inside {c : Asks α} {w : Waiting α} {first : Bool} {a : α}
    (h : w.next c = some (first, a)) :
    if first then w.p < w.paused.length else w.q < w.queue.length := by
  have hp : ∀ x, w.paused[w.p]? = some x → w.p < w.paused.length := fun x hx =>
    (List.getElem?_eq_some_iff.mp hx).1
  have hq : ∀ x, w.queue[w.q]? = some x → w.q < w.queue.length := fun x hx =>
    (List.getElem?_eq_some_iff.mp hx).1
  unfold next at h
  split at h
  next x hx _ =>
    cases h
    exact hp _ hx
  next x y hx hy =>
    split at h
    next =>
      cases h
      exact hp _ hx
    next =>
      cases h
      exact hq _ hy
  next y _ hy =>
    cases h
    exact hq _ hy
  next => cases h

theorem Waiting.ahead_erase {c : Asks α} {w : Waiting α} {first : Bool} {a : α}
    (h : w.next c = some (first, a)) : (w.erase first).ahead < w.ahead := by
  have hinside := next_inside h
  unfold erase ahead
  cases first with
  | true =>
    have hlt : w.p < w.paused.length := hinside
    rw [if_pos (Eq.refl true)]
    dsimp only
    rw [List.length_eraseIdx_of_lt hlt]
    omega
  | false =>
    have hlt : w.q < w.queue.length := hinside
    rw [if_neg Bool.false_ne_true]
    dsimp only
    rw [List.length_eraseIdx_of_lt hlt]
    omega

theorem Waiting.ahead_skip {c : Asks α} {w : Waiting α} {first : Bool} {a : α}
    (h : w.next c = some (first, a)) : (w.skip first).ahead < w.ahead := by
  have hinside := next_inside h
  unfold skip ahead
  cases first with
  | true =>
    have hlt : w.p < w.paused.length := hinside
    rw [if_pos (Eq.refl true)]
    dsimp only
    omega
  | false =>
    have hlt : w.q < w.queue.length := hinside
    rw [if_neg Bool.false_ne_true]
    dsimp only
    omega

/-- Admission from the cursors on. -/
def admitFrom (c : Asks α) (w : Waiting α) : Waiting α :=
  if w.admitted.length < c.seats then
    match _h : w.next c with
    | none => w
    | some (first, a) =>
      if c.gone a then admitFrom c { w.erase first with left := w.left ++ [a] }
      else if c.reading a then admitFrom c (w.skip first)
      else if c.enter w.admitted a then
        admitFrom c { w.erase first with admitted := w.admitted ++ [a], calls := w.calls ++ [a] }
      else { w with calls := w.calls ++ [a] }
  else w
termination_by w.ahead
decreasing_by
  · exact Waiting.ahead_erase _h
  · exact Waiting.ahead_skip _h
  · exact Waiting.ahead_erase _h

def admitWaiting (c : Asks α) (paused queue : List α) : Waiting α :=
  admitFrom c ⟨paused, queue, 0, 0, [], [], []⟩

/-- Both lists in one line, a queued request before a paused one of its number. -/
def oneLine (line : α → Nat) (paused queue : List α) : List (Bool × α) :=
  (paused.map fun a => (true, a)).merge (queue.map fun b => (false, b))
    fun x y => decide (line x.2 < line y.2)

/-- The requests of a stretch of the line: those of one list, and of those passed the ones that stay,
that enter and that are gone. -/
def ofList (first : Bool) (xs : List (Bool × α)) : List α :=
  (xs.filter fun x => x.1 == first).map Prod.snd

def staying (c : Asks α) (xs : List (Bool × α)) : List (Bool × α) :=
  xs.filter fun x => !c.gone x.2 && c.reading x.2

def entering (c : Asks α) (xs : List (Bool × α)) : List α :=
  (xs.filter fun x => !c.gone x.2 && !c.reading x.2).map Prod.snd

def leaving (c : Asks α) (xs : List (Bool × α)) : List α := (xs.filter fun x => c.gone x.2).map Prod.snd

def Waiting.list (w : Waiting α) (first : Bool) : List α := if first then w.paused else w.queue

def Waiting.cursor (w : Waiting α) (first : Bool) : Nat := if first then w.p else w.q

/-- Each list is what its cursor passed and the rest. -/
def Waiting.At (w : Waiting α) (k r : Bool → List α) : Prop :=
  ∀ b, w.list b = k b ++ r b ∧ w.cursor b = (k b).length

variable {c : Asks α}

theorem oneLine_nil_left (line : α → Nat) (queue : List α) :
    oneLine line [] queue = queue.map fun b => (false, b) := List.nil_merge _

theorem oneLine_nil_right (line : α → Nat) (paused : List α) :
    oneLine line paused [] = paused.map fun a => (true, a) := List.merge_right _

theorem oneLine_cons (line : α → Nat) (a b : α) (paused queue : List α) :
    oneLine line (a :: paused) (b :: queue) =
      if line a < line b then (true, a) :: oneLine line paused (b :: queue)
      else (false, b) :: oneLine line (a :: paused) queue := by
  unfold oneLine
  rw [List.map_cons, List.map_cons, List.cons_merge_cons]
  simp only [decide_eq_true_eq]

/-- The first of the line is the first of its list, and the line goes on without it. -/
theorem oneLine_first {line : α → Nat} {r : Bool → List α} {x : Bool × α} {xs : List (Bool × α)}
    (h : oneLine line (r true) (r false) = x :: xs) :
    ∃ rest, r x.1 = x.2 :: rest ∧
      xs = oneLine line (Function.update r x.1 rest true) (Function.update r x.1 rest false) := by
  have hsub : ∀ (b : Bool) (rest : List α), Function.update r b rest b = rest := fun b rest =>
    Function.update_self _ _ _
  have hother : ∀ rest, Function.update r true rest false = r false ∧
      Function.update r false rest true = r true := fun rest =>
    ⟨Function.update_of_ne (by decide) _ _, Function.update_of_ne (by decide) _ _⟩
  cases hp : r true with
  | nil =>
    rw [hp, oneLine_nil_left] at h
    cases hq : r false with
    | nil =>
      rw [hq] at h
      cases h
    | cons b queue =>
      rw [hq] at h
      obtain ⟨rfl, rfl⟩ := List.cons.inj h
      exact ⟨queue, hq, by rw [hsub, (hother queue).2, hp, oneLine_nil_left]⟩
  | cons a paused =>
    cases hq : r false with
    | nil =>
      rw [hp, hq, oneLine_nil_right] at h
      obtain ⟨rfl, rfl⟩ := List.cons.inj h
      exact ⟨paused, hp, by rw [hsub, (hother paused).1, hq, oneLine_nil_right]⟩
    | cons b queue =>
      rw [hp, hq, oneLine_cons] at h
      split at h
      next =>
        obtain ⟨rfl, rfl⟩ := List.cons.inj h
        exact ⟨paused, hp, by rw [hsub, (hother paused).1, hq]⟩
      next =>
        obtain ⟨rfl, rfl⟩ := List.cons.inj h
        exact ⟨queue, hq, by rw [hsub, (hother queue).2, hp]⟩

/-- The cursors are at the first of the line. -/
theorem Waiting.At.next {w : Waiting α} {k r : Bool → List α} (h : w.At k r) :
    w.next c = (oneLine c.line (r true) (r false)).head? := by
  have hget : ∀ b, (w.list b)[w.cursor b]? = (r b).head? := by
    intro b
    obtain ⟨hlist, hcursor⟩ := h b
    rw [hlist, hcursor, List.getElem?_append_right (Nat.le_refl _), Nat.sub_self,
      List.head?_eq_getElem?]
  have hp : w.paused[w.p]? = (r true).head? := hget true
  have hq : w.queue[w.q]? = (r false).head? := hget false
  unfold Waiting.next
  rw [hp, hq]
  cases r true with
  | nil =>
    rw [oneLine_nil_left]
    cases r false <;> exact Eq.refl _
  | cons a paused =>
    cases r false with
    | nil =>
      rw [oneLine_nil_right]
      exact Eq.refl _
    | cons b queue =>
      rw [oneLine_cons, List.head?_cons, List.head?_cons]
      dsimp only
      split
      next => exact Eq.refl _
      next => exact Eq.refl _

theorem Waiting.At.erase {w : Waiting α} {k r : Bool → List α} (h : w.At k r) {first : Bool}
    {a : α} {rest : List α} (ha : r first = a :: rest) :
    (w.erase first).At k (Function.update r first rest) := by
  obtain ⟨hlist, hcursor⟩ := h first
  have hgone : (w.list first).eraseIdx (w.cursor first) = k first ++ rest := by
    rw [hlist, hcursor, ha, List.eraseIdx_append_of_length_le (Nat.le_refl _), Nat.sub_self]
    exact Eq.refl _
  intro b
  by_cases hb : b = first
  · obtain rfl := hb
    rw [Function.update_self, ← hgone, ← hcursor]
    cases b with
    | true => exact ⟨Eq.refl _, Eq.refl _⟩
    | false => exact ⟨Eq.refl _, Eq.refl _⟩
  · rw [Function.update_of_ne hb]
    obtain ⟨hlist', hcursor'⟩ := h b
    rw [← hlist', ← hcursor']
    cases first with
    | true =>
      obtain rfl := Bool.of_not_eq_true hb
      exact ⟨Eq.refl _, Eq.refl _⟩
    | false =>
      obtain rfl := Bool.of_not_eq_false hb
      exact ⟨Eq.refl _, Eq.refl _⟩

theorem Waiting.At.skip {w : Waiting α} {k r : Bool → List α} (h : w.At k r) {first : Bool}
    {a : α} {rest : List α} (ha : r first = a :: rest) :
    (w.skip first).At (Function.update k first (k first ++ [a])) (Function.update r first rest) := by
  intro b
  by_cases hb : b = first
  · obtain rfl := hb
    obtain ⟨hlist, hcursor⟩ := h b
    rw [Function.update_self, Function.update_self, List.append_assoc, List.singleton_append, ← ha,
      ← hlist, List.length_append, List.length_singleton, ← hcursor]
    cases b with
    | true => exact ⟨Eq.refl _, Eq.refl _⟩
    | false => exact ⟨Eq.refl _, Eq.refl _⟩
  · rw [Function.update_of_ne hb, Function.update_of_ne hb]
    obtain ⟨hlist', hcursor'⟩ := h b
    rw [← hlist', ← hcursor']
    cases first with
    | true =>
      obtain rfl := Bool.of_not_eq_true hb
      exact ⟨Eq.refl _, Eq.refl _⟩
    | false =>
      obtain rfl := Bool.of_not_eq_false hb
      exact ⟨Eq.refl _, Eq.refl _⟩

theorem ofList_cons (b : Bool) (x : Bool × α) (xs : List (Bool × α)) :
    ofList b (x :: xs) = if x.1 = b then x.2 :: ofList b xs else ofList b xs := by
  unfold ofList
  rw [List.filter_cons]
  by_cases hb : x.1 = b
  · rw [if_pos hb, if_pos (beq_iff_eq.mpr hb), List.map_cons]
  · rw [if_neg hb, if_neg (fun hh => hb (beq_iff_eq.mp hh))]

theorem passed_gone {x : Bool × α} (h : c.gone x.2 = true) (xs : List (Bool × α)) :
    staying c (x :: xs) = staying c xs ∧ entering c (x :: xs) = entering c xs ∧
      leaving c (x :: xs) = x.2 :: leaving c xs := by
  unfold staying entering leaving
  simp [h]

theorem passed_reading {x : Bool × α} (h : c.gone x.2 = false) (hr : c.reading x.2 = true)
    (xs : List (Bool × α)) :
    staying c (x :: xs) = x :: staying c xs ∧ entering c (x :: xs) = entering c xs ∧
      leaving c (x :: xs) = leaving c xs := by
  unfold staying entering leaving
  simp [h, hr]

theorem passed_entering {x : Bool × α} (h : c.gone x.2 = false) (hr : c.reading x.2 = false)
    (xs : List (Bool × α)) :
    staying c (x :: xs) = staying c xs ∧ entering c (x :: xs) = x.2 :: entering c xs ∧
      leaving c (x :: xs) = leaving c xs := by
  unfold staying entering leaving
  simp [h, hr]

/-- Each list's part of the line is the list. -/
theorem ofList_oneLine {line : α → Nat} {xs : List (Bool × α)} {r : Bool → List α}
    (h : oneLine line (r true) (r false) = xs) (b : Bool) : ofList b xs = r b := by
  induction xs generalizing r with
  | nil =>
    have hlen := congrArg List.length h
    unfold oneLine at hlen
    rw [List.length_merge, List.length_map, List.length_map, List.length_nil] at hlen
    cases b with
    | true => exact (List.eq_nil_of_length_eq_zero (by omega)).symm
    | false => exact (List.eq_nil_of_length_eq_zero (by omega)).symm
  | cons x xs ih =>
    obtain ⟨rest, hfirst, hxs⟩ := oneLine_first h
    have hrest := ih hxs.symm
    rw [ofList_cons, hrest]
    split
    next hb =>
      obtain rfl := hb
      rw [Function.update_self, hfirst]
    next hb => rw [Function.update_of_ne (Ne.symm hb)]

/-- What admission does from the cursors on: what stays of each list, in its order, who entered, who
was gone, and where it stops. -/
structure Served (c : Asks α) (w out : Waiting α) (k : Bool → List α)
    (passed rest : List (Bool × α)) : Prop where
  lists : ∀ b, out.list b = k b ++ ofList b (staying c passed) ++ ofList b rest
  admitted : out.admitted = w.admitted ++ entering c passed
  left : out.left = w.left ++ leaving c passed
  seated : entering c passed = [] ∨ out.admitted.length ≤ c.seats
  entered : ∀ (i : Nat) a, (entering c passed)[i]? = some a →
    c.enter (w.admitted ++ (entering c passed).take i) a = true
  stops : out.calls = w.calls ++ entering c passed ∧
      (rest = [] ∨ c.seats ≤ out.admitted.length) ∨
    ∃ x xs, rest = x :: xs ∧ out.calls = w.calls ++ entering c passed ++ [x.2] ∧
      c.gone x.2 = false ∧ c.reading x.2 = false ∧ c.enter out.admitted x.2 = false ∧
      out.admitted.length < c.seats

theorem admitFrom_next {w : Waiting α} {first : Bool} {a : α} (hseat : w.admitted.length < c.seats)
    (h : w.next c = some (first, a)) :
    admitFrom c w =
      if c.gone a then admitFrom c { w.erase first with left := w.left ++ [a] }
      else if c.reading a then admitFrom c (w.skip first)
      else if c.enter w.admitted a then
        admitFrom c { w.erase first with admitted := w.admitted ++ [a], calls := w.calls ++ [a] }
      else { w with calls := w.calls ++ [a] } := by
  rw [admitFrom, if_pos hseat]
  split
  next hnone =>
    rw [h] at hnone
    cases hnone
  next first' a' hsome =>
    rw [h] at hsome
    cases hsome
    exact Eq.refl _

theorem Waiting.erase_same (first : Bool) (w : Waiting α) :
    (w.erase first).admitted = w.admitted ∧ (w.erase first).calls = w.calls ∧
      (w.erase first).left = w.left := by
  cases first <;> exact ⟨Eq.refl _, Eq.refl _, Eq.refl _⟩

theorem Waiting.skip_same (first : Bool) (w : Waiting α) :
    (w.skip first).admitted = w.admitted ∧ (w.skip first).calls = w.calls ∧
      (w.skip first).left = w.left := by
  cases first <;> exact ⟨Eq.refl _, Eq.refl _, Eq.refl _⟩

/-- Nothing is passed where admission stops at once. -/
theorem Served.stop {w out : Waiting α} {k r : Bool → List α} {line : List (Bool × α)}
    (h : w.At k r) (hline : oneLine c.line (r true) (r false) = line)
    (hlists : ∀ b, out.list b = w.list b) (hadmitted : out.admitted = w.admitted)
    (hleft : out.left = w.left)
    (hstops : out.calls = w.calls ∧ (line = [] ∨ c.seats ≤ out.admitted.length) ∨
      ∃ x xs, line = x :: xs ∧ out.calls = w.calls ++ [x.2] ∧
        c.gone x.2 = false ∧ c.reading x.2 = false ∧ c.enter out.admitted x.2 = false ∧
        out.admitted.length < c.seats) : Served c w out k [] line where
  lists := by
    intro b
    obtain ⟨hlist, -⟩ := h b
    rw [hlists, hlist, ofList_oneLine hline b]
    show _ = k b ++ [] ++ r b
    rw [List.append_nil]
  admitted := hadmitted.trans (List.append_nil _).symm
  left := hleft.trans (List.append_nil _).symm
  seated := Or.inl (Eq.refl _)
  entered := fun i a ha => by cases ha
  stops := by
    have hnone : entering c [] = [] := Eq.refl _
    rw [hnone, List.append_nil]
    exact hstops

/-- One request more is passed. -/
theorem Served.pass {w w' out : Waiting α} {k k' : Bool → List α} {x : Bool × α}
    {passed rest : List (Bool × α)} (h : Served c w' out k' passed rest)
    (hlists : ∀ b, k' b ++ ofList b (staying c passed) = k b ++ ofList b (staying c (x :: passed)))
    (hadmitted : w'.admitted ++ entering c passed = w.admitted ++ entering c (x :: passed))
    (hcalls : w'.calls ++ entering c passed = w.calls ++ entering c (x :: passed))
    (hleft : w'.left ++ leaving c passed = w.left ++ leaving c (x :: passed))
    (hseated : entering c (x :: passed) = [] ∨ out.admitted.length ≤ c.seats)
    (hentered : ∀ (i : Nat) a, (entering c (x :: passed))[i]? = some a →
      c.enter (w.admitted ++ (entering c (x :: passed)).take i) a = true) :
    Served c w out k (x :: passed) rest where
  lists := fun b => by rw [h.lists b, hlists b]
  admitted := h.admitted.trans hadmitted
  left := h.left.trans hleft
  seated := hseated
  entered := hentered
  stops := by
    rw [← hcalls]
    exact h.stops

/-- Admission passes a stretch of the line and stops there. -/
theorem admitFrom_served {line : List (Bool × α)} {w : Waiting α} {k r : Bool → List α}
    (h : w.At k r) (hline : oneLine c.line (r true) (r false) = line) :
    ∃ passed rest, line = passed ++ rest ∧ Served c w (admitFrom c w) k passed rest := by
  induction line generalizing w k r with
  | nil =>
    have hnone : w.next c = none := by rw [h.next, hline, List.head?_nil]
    have hout : admitFrom c w = w := by
      rw [admitFrom]
      split
      next =>
        split
        next => exact Eq.refl _
        next first a hsome =>
          rw [hnone] at hsome
          cases hsome
      next => exact Eq.refl _
    rw [hout]
    exact ⟨[], [], Eq.refl _, Served.stop h hline (fun _ => Eq.refl _) (Eq.refl _) (Eq.refl _)
      (Or.inl ⟨Eq.refl _, Or.inl (Eq.refl _)⟩)⟩
  | cons x xs ih =>
    by_cases hseat : w.admitted.length < c.seats
    · have hnext : w.next c = some (x.1, x.2) := by rw [h.next, hline, List.head?_cons]
      obtain ⟨rest, hfirst, hxs⟩ := oneLine_first hline
      rw [admitFrom_next hseat hnext]
      cases hgone : c.gone x.2 with
      | true =>
        have hat : Waiting.At { w.erase x.1 with left := w.left ++ [x.2] } k
            (Function.update r x.1 rest) := h.erase hfirst
        obtain ⟨passed, rest', heq, hserved⟩ := ih hat hxs.symm
        obtain ⟨hsame, hcalls, -⟩ := w.erase_same x.1
        obtain ⟨hstay, henter, hleave⟩ := passed_gone hgone passed
        refine ⟨x :: passed, rest', congrArg (List.cons x) heq, hserved.pass ?_ ?_ ?_ ?_ ?_ ?_⟩
        · intro b
          rw [hstay]
        · rw [henter]
          exact congrArg (· ++ entering c passed) hsame
        · rw [henter]
          exact congrArg (· ++ entering c passed) hcalls
        · rw [hleave]
          exact List.append_assoc _ _ _
        · rw [henter]
          exact hserved.seated
        · rw [henter, ← hsame]
          exact hserved.entered
      | false =>
        cases hreading : c.reading x.2 with
        | true =>
          obtain ⟨passed, rest', heq, hserved⟩ := ih (h.skip hfirst) hxs.symm
          obtain ⟨hsame, hcalls, hleft⟩ := w.skip_same x.1
          obtain ⟨hstay, henter, hleave⟩ := passed_reading hgone hreading passed
          refine ⟨x :: passed, rest', congrArg (List.cons x) heq, hserved.pass ?_ ?_ ?_ ?_ ?_ ?_⟩
          · intro b
            rw [hstay, ofList_cons]
            split
            next hb =>
              obtain rfl := hb
              rw [Function.update_self, List.append_assoc, List.singleton_append]
            next hb => rw [Function.update_of_ne (Ne.symm hb)]
          · rw [henter, hsame]
          · rw [henter, hcalls]
          · rw [hleave, hleft]
          · rw [henter]
            exact hserved.seated
          · rw [henter, ← hsame]
            exact hserved.entered
        | false =>
          cases henters : c.enter w.admitted x.2 with
          | true =>
            have hat : Waiting.At { w.erase x.1 with
                admitted := w.admitted ++ [x.2], calls := w.calls ++ [x.2] } k
                (Function.update r x.1 rest) := h.erase hfirst
            obtain ⟨passed, rest', heq, hserved⟩ := ih hat hxs.symm
            obtain ⟨-, -, hleft⟩ := w.erase_same x.1
            obtain ⟨hstay, henter, hleave⟩ := passed_entering hgone hreading passed
            refine ⟨x :: passed, rest', congrArg (List.cons x) heq, hserved.pass ?_ ?_ ?_ ?_ ?_ ?_⟩
            · intro b
              rw [hstay]
            · rw [henter]
              exact List.append_assoc _ _ _
            · rw [henter]
              exact List.append_assoc _ _ _
            · rw [hleave]
              exact congrArg (· ++ leaving c passed) hleft
            · right
              obtain hnone | hseated := hserved.seated
              · have hadmitted := hserved.admitted
                rw [hnone, List.append_nil] at hadmitted
                have hlen : (w.admitted ++ [x.2]).length = w.admitted.length + 1 :=
                  List.length_append
                show _ ≤ c.seats
                rw [hadmitted, hlen]
                omega
              · exact hseated
            · rw [henter]
              intro i a ha
              cases i with
              | zero =>
                obtain rfl := Option.some.inj ha
                rw [List.take_zero, List.append_nil]
                exact henters
              | succ i =>
                have hlater := hserved.entered i a ha
                rw [List.append_assoc] at hlater
                exact hlater
          | false =>
            exact ⟨[], x :: xs, Eq.refl _, Served.stop h hline (fun _ => Eq.refl _) (Eq.refl _)
              (Eq.refl _) (Or.inr ⟨x, xs, Eq.refl _, Eq.refl _, hgone, hreading, henters, hseat⟩)⟩
    · have hout : admitFrom c w = w := by rw [admitFrom, if_neg hseat]
      rw [hout]
      exact ⟨[], x :: xs, Eq.refl _, Served.stop h hline (fun _ => Eq.refl _) (Eq.refl _) (Eq.refl _)
        (Or.inl ⟨Eq.refl _, Or.inr (Nat.le_of_not_lt hseat)⟩)⟩

theorem oneLine_sorted {line : α → Nat} {paused queue : List α}
    (hpaused : paused.Pairwise fun a b => line a ≤ line b)
    (hqueue : queue.Pairwise fun a b => line a ≤ line b) :
    (oneLine line paused queue).Pairwise fun x y => line x.2 ≤ line y.2 := by
  induction paused generalizing queue with
  | nil =>
    rw [oneLine_nil_left]
    exact List.pairwise_map.mpr hqueue
  | cons a paused ihp =>
    induction queue with
    | nil =>
      rw [oneLine_nil_right]
      exact List.pairwise_map.mpr hpaused
    | cons b queue ihq =>
      obtain ⟨ha, hpaused'⟩ := List.pairwise_cons.mp hpaused
      obtain ⟨hb, hqueue'⟩ := List.pairwise_cons.mp hqueue
      rw [oneLine_cons]
      split
      next hlt =>
        refine List.Pairwise.cons (fun y hy => ?_) (ihp hpaused' hqueue)
        rcases List.mem_merge.mp hy with hy | hy
        · obtain ⟨z, hz, rfl⟩ := List.mem_map.mp hy
          exact ha z hz
        · obtain ⟨z, hz, rfl⟩ := List.mem_map.mp hy
          rcases List.mem_cons.mp hz with rfl | hz
          · exact Nat.le_of_lt hlt
          · exact Nat.le_trans (Nat.le_of_lt hlt) (hb z hz)
      next hge =>
        refine List.Pairwise.cons (fun y hy => ?_) (ihq hqueue')
        rcases List.mem_merge.mp hy with hy | hy
        · obtain ⟨z, hz, rfl⟩ := List.mem_map.mp hy
          rcases List.mem_cons.mp hz with rfl | hz
          · exact Nat.le_of_not_lt hge
          · exact Nat.le_trans (Nat.le_of_not_lt hge) (ha z hz)
        · obtain ⟨z, hz, rfl⟩ := List.mem_map.mp hy
          exact hb z hz

/-- Of one line of both lists admission passes a stretch: those gone go, those being read stay, the
rest are asked to enter in the line's order and do; it stops at the first that does not, at the last
seat or at the end, and both lists keep their order. -/
theorem admitWaiting_in_line {paused queue : List α}
    (hpaused : paused.Pairwise fun a b => c.line a ≤ c.line b)
    (hqueue : queue.Pairwise fun a b => c.line a ≤ c.line b) :
    let out := admitWaiting c paused queue
    ∃ passed rest, oneLine c.line paused queue = passed ++ rest ∧
      ofList true (passed ++ rest) = paused ∧ ofList false (passed ++ rest) = queue ∧
      out.paused = ofList true (staying c passed) ++ ofList true rest ∧
      out.queue = ofList false (staying c passed) ++ ofList false rest ∧
      out.left = leaving c passed ∧ out.admitted = entering c passed ∧
      out.admitted.length ≤ c.seats ∧
      (∀ (i : Nat) a, out.admitted[i]? = some a → c.enter (out.admitted.take i) a = true) ∧
      (out.calls.Pairwise fun a b => c.line a ≤ c.line b) ∧
      (out.calls = out.admitted ∧ (rest = [] ∨ c.seats ≤ out.admitted.length) ∨
        ∃ x xs, rest = x :: xs ∧ out.calls = out.admitted ++ [x.2] ∧
          c.gone x.2 = false ∧ c.reading x.2 = false ∧ c.enter out.admitted x.2 = false ∧
          out.admitted.length < c.seats) := by
  have hat : Waiting.At (⟨paused, queue, 0, 0, [], [], []⟩ : Waiting α) (fun _ => [])
      (fun b => if b then paused else queue) := by
    intro b
    cases b with
    | true => exact ⟨Eq.refl _, Eq.refl _⟩
    | false => exact ⟨Eq.refl _, Eq.refl _⟩
  obtain ⟨passed, rest, hline, hserved⟩ := admitFrom_served (c := c) hat (Eq.refl _)
  have hparts := fun b => ofList_oneLine (r := fun b => if b then paused else queue) hline b
  have hsorted := oneLine_sorted hpaused hqueue
  have hline : oneLine c.line paused queue = passed ++ rest := hline
  have hadmitted : (admitWaiting c paused queue).admitted = entering c passed := hserved.admitted
  have hserved : Served c _ (admitWaiting c paused queue) (fun _ => []) passed rest := hserved
  have hstops := hserved.stops
  rw [List.nil_append, hadmitted] at hstops
  have hsub : List.Sublist (admitWaiting c paused queue).calls
      ((oneLine c.line paused queue).map Prod.snd) := by
    have hpassed : List.Sublist (entering c passed) (passed.map Prod.snd) :=
      List.filter_sublist.map Prod.snd
    rw [hline, List.map_append]
    rcases hstops with ⟨hcalls, -⟩ | ⟨x, xs, hrest, hcalls, -⟩
    · exact hcalls ▸ hpassed.trans (List.sublist_append_left _ _)
    · have hfirst : List.Sublist [x.2] (rest.map Prod.snd) := by
        rw [hrest, List.map_cons]
        exact List.singleton_sublist.mpr List.mem_cons_self
      exact hcalls ▸ hpassed.append hfirst
  have hwhole : ((oneLine c.line paused queue).map Prod.snd).Pairwise
      fun a b => c.line a ≤ c.line b := List.pairwise_map.mpr hsorted
  refine ⟨passed, rest, hline, hparts true, hparts false, hserved.lists true, hserved.lists false,
    hserved.left, hadmitted, ?_, ?_, hwhole.sublist hsub, ?_⟩
  · rcases hserved.seated with hnone | hseated
    · rw [hadmitted, hnone]
      exact Nat.zero_le _
    · exact hseated
  · rw [hadmitted]
    exact hserved.entered
  · rw [hadmitted]
    exact hstops

theorem admitWaiting_in_line_two :
    let c : Asks Nat := ⟨2, fun a => a == 9, fun a => a == 5, fun _ a => decide (a < 20), id⟩
    let out := admitWaiting c [0, 9] [5, 7, 30, 31]
    (([0, 9] : List Nat).Pairwise fun a b => a ≤ b) ∧
      (([5, 7, 30, 31] : List Nat).Pairwise fun a b => a ≤ b) ∧ out.admitted.length ≤ 2 ∧
      out.calls.Pairwise fun a b => a ≤ b := by
  intro c out
  obtain ⟨_, _, _, _, _, _, _, _, _, hseats, _, hcalls, _⟩ :=
    @admitWaiting_in_line Nat c [0, 9] [5, 7, 30, 31] (by decide) (by decide)
  exact ⟨by decide, by decide, hseats, hcalls⟩

/-- The order the paused requests wait in: by their numbers, then by first admission. -/
def Before (line admission : α → Nat) (a b : α) : Prop :=
  line a < line b ∨ line a = line b ∧ admission a ≤ admission b

/-- Where a paused request goes: before the first that waits behind it. -/
def pausePlace (line admission : α → Nat) (paused : List α) (r : α) : Nat :=
  upperBound (fun k => (paused[k]?).any fun b =>
    decide (line r < line b ∨ line r = line b ∧ admission r < admission b)) 0 paused.length

def pause (line admission : α → Nat) (paused : List α) (r : α) : List α :=
  paused.take (pausePlace line admission paused r) ++
    r :: paused.drop (pausePlace line admission paused r)

/-- Paused requests wait in one order, whoever joins them. -/
theorem pause_sorted {line admission : α → Nat} {paused : List α} (r : α)
    (h : paused.Pairwise (Before line admission)) :
    (pause line admission paused r).Pairwise (Before line admission) ∧
      (pause line admission paused r).Pairwise fun a b => line a ≤ line b := by
  have hmono : ∀ j k, j ≤ k → k < 0 + paused.length →
      ((paused[j]?).any fun b =>
        decide (line r < line b ∨ line r = line b ∧ admission r < admission b)) = true →
      ((paused[k]?).any fun b =>
        decide (line r < line b ∨ line r = line b ∧ admission r < admission b)) = true := by
    intro j k hjk hk hj
    rcases Nat.eq_or_lt_of_le hjk with rfl | hlt
    · exact hj
    · have hpair := List.pairwise_iff_getElem.mp h j k (by omega) (by omega) hlt
      rw [List.getElem?_eq_getElem (by omega), Option.any_some, decide_eq_true_eq] at hj ⊢
      unfold Before at hpair
      omega
  obtain ⟨-, hle, hbefore, hafter⟩ := upperBound_spec hmono
  have hplace : pausePlace line admission paused r ≤ paused.length := by
    unfold pausePlace
    omega
  have hsorted : (pause line admission paused r).Pairwise (Before line admission) := by
    unfold pause
    refine List.pairwise_append.mpr ⟨h.sublist (List.take_sublist _ _), ?_, ?_⟩
    · refine List.Pairwise.cons (fun b hb => ?_) (h.sublist (List.drop_sublist _ _))
      obtain ⟨k, hk, rfl⟩ := List.mem_iff_getElem.mp hb
      rw [List.length_drop] at hk
      have hbehind := hafter (pausePlace line admission paused r + k) (Nat.le_add_right _ _)
        (by omega)
      rw [List.getElem?_eq_getElem (by omega), Option.any_some, decide_eq_true_eq] at hbehind
      rw [List.getElem_drop]
      unfold Before
      omega
    · intro a ha b hb
      obtain ⟨k, hk, rfl⟩ := List.mem_iff_getElem.mp ha
      rw [List.length_take] at hk
      rw [List.getElem_take]
      rcases List.mem_cons.mp hb with rfl | hb
      · have hahead := hbefore k (Nat.zero_le k) (by
          have : k < pausePlace line admission paused b := by omega
          exact this)
        rw [List.getElem?_eq_getElem (by omega), Option.any_some, decide_eq_false_iff_not] at hahead
        unfold Before
        omega
      · obtain ⟨m, hm, rfl⟩ := List.mem_iff_getElem.mp hb
        rw [List.length_drop] at hm
        rw [List.getElem_drop]
        exact List.pairwise_iff_getElem.mp h k _ (by omega) (by omega) (by omega)
  refine ⟨hsorted, hsorted.imp fun hab => ?_⟩
  unfold Before at hab
  omega

end AdmitWaiting

end Llmx
