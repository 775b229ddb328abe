import Llmx.ToolCallOpenings

namespace Llmx

open Tags

namespace ToolCallSplit

variable {δ : Type} (conv : Json.Conversion δ)

/-- The text of an object from a call's next parameter on. -/
def objectText (typed : ToolTypes) (name : Bytes) : Bool → List (Bytes × Bytes) → Bytes
  | started, [] => ascii (if started then ['\x7d'] else ['\x7b', '\x7d'])
  | started, (key, v) :: params =>
    ascii (if started then [',', ' '] else ['\x7b']) ++ quote key ++ ascii [':', ' '] ++
      value conv typed name key v ++ objectText typed name true params

def callText (typed : ToolTypes) (call : XmlCall) : Bytes :=
  objectText conv typed call.name false call.params

/-- The calls of the text after one. -/
def callsAfter (single : Bool) (s : Bytes) : List XmlCall :=
  if single then [] else readCalls single s

/-- The arguments still to come, of the call the text is inside and of those after it, when it
goes on so. -/
def toCome (c : ToolCallSplit) (p : Bytes) : List Bytes :=
  match c.state with
  | .text => (readCalls c.single (c.buf ++ p)).map (callText conv c.typed)
  | .head => (headCalls c.single (c.buf ++ p)).map (callText conv c.typed)
  | .xmlParams =>
    objectText conv c.typed c.name (c.params != 0) (readParams (c.buf ++ p)).1 ::
      (callsAfter c.single (readParams (c.buf ++ p)).2).map (callText conv c.typed)
  | .xmlClose => (callsAfter c.single (afterFunction (c.buf ++ p))).map (callText conv c.typed)
  | .jsonArgs => []
  | .done => []

/-- The first call whose arguments may still come. -/
def first (c : ToolCallSplit) : Nat := if c.state = .xmlParams then c.calls - 1 else c.calls

/-- What a call gets of texts handed out from the first on. -/
def place (first : Nat) (texts : List Bytes) (k : Nat) : Bytes :=
  if first ≤ k then texts.getD (k - first) [] else []

/-- How many calls there will be, and the arguments of each. -/
def outcome (c : ToolCallSplit) (calls : List ToolCallDelta) (p : Bytes) : Nat × (Nat → Bytes) :=
  (first c + (toCome conv c p).length,
    fun k => argumentsOf k calls ++ place (first c) (toCome conv c p) k)

theorem argumentsOf_append (k : Nat) (a b : List ToolCallDelta) :
    argumentsOf k (a ++ b) = argumentsOf k a ++ argumentsOf k b := by
  unfold argumentsOf
  rw [List.filter_append, List.flatMap_append]

theorem argumentsOf_single (k : Nat) (d : ToolCallDelta) :
    argumentsOf k [d] = if d.index = k then d.arguments else [] := by
  unfold argumentsOf
  by_cases h : d.index = k
  · rw [if_pos h, List.filter_cons_of_pos (by simp [h]), List.filter_nil, List.flatMap_singleton]
  · rw [if_neg h, List.filter_cons_of_neg (by simp [h]), List.filter_nil, List.flatMap_nil]

theorem arguments_calls (c : ToolCallSplit) (out : ToolCallParts) (s : Bytes) (k : Nat) :
    argumentsOf k (c.arguments out s).calls =
      argumentsOf k out.calls ++ if c.calls - 1 = k then s else [] := by
  have hnew : ∀ calls : List ToolCallDelta, argumentsOf k (calls ++ [⟨c.calls - 1, [], s⟩]) =
      argumentsOf k calls ++ if c.calls - 1 = k then s else [] := by
    intro calls
    rw [argumentsOf_append, argumentsOf_single]
  unfold arguments
  split
  next h => rw [h, ite_self, List.append_nil]
  next =>
    split
    next d hlast =>
      split
      next hindex =>
        obtain ⟨calls, hcalls⟩ := List.getLast?_eq_some_iff.mp hlast
        rw [hcalls]
        dsimp only
        rw [List.dropLast_concat, argumentsOf_append, argumentsOf_append, argumentsOf_single,
          argumentsOf_single, List.append_assoc]
        dsimp only
        rw [hindex]
        split
        next => exact Eq.refl _
        next => exact Eq.refl _
      next => exact hnew _
    next => exact hnew _

theorem place_cons (f k : Nat) (s : Bytes) (more : List Bytes) :
    place f (s :: more) k = (if f = k then s else []) ++ place (f + 1) more k := by
  unfold place
  by_cases hk : f = k
  · rw [if_pos hk, if_pos (by omega), if_neg (by omega), List.append_nil]
    rw [hk, Nat.sub_self]
    exact Eq.refl _
  · rw [if_neg hk, List.nil_append]
    by_cases hle : f + 1 ≤ k
    · rw [if_pos hle, if_pos (by omega), show k - f = k - (f + 1) + 1 by omega]
      exact Eq.refl _
    · rw [if_neg hle, if_neg (by omega)]

variable {conv} {c d : ToolCallSplit} {calls calls' : List ToolCallDelta} {p q : Bytes}

/-- What came before is part of every outcome. -/
theorem outcome_before (before : List ToolCallDelta)
    (h : outcome conv d calls' p = outcome conv c calls q) :
    outcome conv d (before ++ calls') p = outcome conv c (before ++ calls) q := by
  refine Prod.ext (congrArg (·.1) h) (funext fun k => ?_)
  have hk := congrFun (congrArg (·.2) h) k
  dsimp only [outcome] at hk ⊢
  rw [argumentsOf_append, argumentsOf_append, List.append_assoc, List.append_assoc, hk]

theorem outcome_same (hfirst : first d = first c) (hcome : toCome conv d p = toCome conv c q)
    (hcalls : ∀ k, argumentsOf k calls' = argumentsOf k calls) :
    outcome conv d calls' p = outcome conv c calls q := by
  unfold outcome
  rw [hfirst, hcome]
  refine Prod.ext (Eq.refl _) (funext fun k => ?_)
  dsimp only
  rw [hcalls]

/-- A piece of the text that comes next, put out. -/
theorem outcome_piece {s t : Bytes} {more : List Bytes} (hfirst : first d = first c)
    (hbefore : toCome conv c q = (s ++ t) :: more) (hafter : toCome conv d p = t :: more)
    (hcalls : ∀ k, argumentsOf k calls' = argumentsOf k calls ++ if first c = k then s else []) :
    outcome conv d calls' p = outcome conv c calls q := by
  unfold outcome
  rw [hfirst, hbefore, hafter]
  refine Prod.ext (Eq.refl _) (funext fun k => ?_)
  dsimp only
  rw [hcalls, place_cons, place_cons]
  split
  next => rw [List.append_assoc, List.append_assoc]
  next => rw [List.append_nil]

/-- The last of it put out, with its call at an end. -/
theorem outcome_last {s : Bytes} {more : List Bytes} (hfirst : first d = first c + 1)
    (hbefore : toCome conv c q = s :: more) (hafter : toCome conv d p = more)
    (hcalls : ∀ k, argumentsOf k calls' = argumentsOf k calls ++ if first c = k then s else []) :
    outcome conv d calls' p = outcome conv c calls q := by
  unfold outcome
  rw [hfirst, hbefore, hafter]
  refine Prod.ext ?_ (funext fun k => ?_)
  · dsimp only
    rw [List.length_cons]
    omega
  · dsimp only
    rw [hcalls, place_cons, List.append_assoc]

theorem toCome_append (c : ToolCallSplit) (piece p : Bytes) :
    toCome conv { c with buf := c.buf ++ piece } p = toCome conv c (piece ++ p) := by
  unfold toCome
  rw [List.append_assoc]

/-- A splitter in the function format, where its loop leaves it. -/
structure Fed (c : ToolCallSplit) : Prop where
  format : c.format = .xml
  noJson : c.state ≠ .jsonArgs
  inside : c.state = .xmlParams → 0 < c.calls

theorem first_inside (h : c.state = .xmlParams) : first c = c.calls - 1 := if_pos h

theorem first_outside (h : c.state ≠ .xmlParams) : first c = c.calls := if_neg h

theorem first_same (hc : c.state ≠ .xmlParams) (hd : d.state ≠ .xmlParams)
    (h : d.calls = c.calls) : first d = first c := by
  rw [first_outside hc, first_outside hd, h]

theorem toCome_text (h : c.state = .text) :
    toCome conv c p = (readCalls c.single (c.buf ++ p)).map (callText conv c.typed) := by
  unfold toCome
  rw [h]

theorem toCome_head (h : c.state = .head) :
    toCome conv c p = (headCalls c.single (c.buf ++ p)).map (callText conv c.typed) := by
  unfold toCome
  rw [h]

theorem toCome_inside (h : c.state = .xmlParams) : toCome conv c p =
    objectText conv c.typed c.name (c.params != 0) (readParams (c.buf ++ p)).1 ::
      (callsAfter c.single (readParams (c.buf ++ p)).2).map (callText conv c.typed) := by
  unfold toCome
  rw [h]

theorem toCome_close (h : c.state = .xmlClose) : toCome conv c p =
    (callsAfter c.single (afterFunction (c.buf ++ p))).map (callText conv c.typed) := by
  unfold toCome
  rw [h]

theorem toCome_done (h : c.state = .done) : toCome conv c p = [] := by
  unfold toCome
  rw [h]

/-- After a call's end come the calls of the text after it. -/
theorem toCome_endCall (c : ToolCallSplit) (p : Bytes) : toCome conv (endCall c) p =
    (callsAfter c.single (c.buf ++ p)).map (callText conv c.typed) := by
  cases h : c.single with
  | true =>
    rw [toCome_done (by simp [endCall, h])]
    exact Eq.refl _
  | false =>
    rw [toCome_text (by simp [endCall, h])]
    show (readCalls c.single _).map _ = _
    rw [h]
    exact Eq.refl _

theorem endCall_state (c : ToolCallSplit) :
    (endCall c).state = .text ∨ (endCall c).state = .done := by
  cases h : c.single with
  | true => exact .inr (by simp [endCall, h])
  | false => exact .inl (by simp [endCall, h])

theorem first_endCall (c : ToolCallSplit) : first (endCall c) = c.calls := by
  refine first_outside fun h => ?_
  rcases endCall_state c with hs | hs
  · rw [hs] at h
    cases h
  · rw [hs] at h
    cases h

theorem Fed.endCall (h : Fed c) : Fed (endCall c) := by
  refine ⟨h.format, fun hs => ?_, fun hs => ?_⟩
  · rcases endCall_state c with he | he
    · rw [he] at hs
      cases hs
    · rw [he] at hs
      cases hs
  · rcases endCall_state c with he | he
    · rw [he] at hs
      cases hs
    · rw [he] at hs
      cases hs

variable {out out' : ToolCallParts} {last more : Bool}

/-- What is let go of the text before the next call tells nothing of it. -/
theorem readCalls_held {single : Bool} {cut held : Bytes}
    (hno : split toolOpen (cut ++ held) = none)
    (hlen : overlap toolOpen (cut ++ held) ≤ held.length) :
    readCalls single (held ++ p) = readCalls single (cut ++ held ++ p) := by
  have hhold := split_hold (p := p) hno hlen
  cases hnext : split toolOpen (held ++ p) with
  | none =>
    rw [hnext] at hhold
    rw [readCalls_none hnext, readCalls_none hhold]
  | some r =>
    obtain ⟨lead, rest⟩ := r
    rw [hnext] at hhold
    rw [readCalls_some hnext, readCalls_some hhold]

theorem turnText_keeps (hf : Fed c) (hs : c.state = .text) (hp : last = true → p = [])
    (h : c.turnText out last = (d, out', more)) :
    Fed d ∧ outcome conv d out'.calls p = outcome conv c out.calls p := by
  unfold turnText at h
  split at h
  next lead rest hsplit =>
    cases h
    refine ⟨⟨hf.format, by rintro ⟨⟩, by rintro ⟨⟩⟩, outcome_same ?_ ?_ fun k => Eq.refl _⟩
    · exact first_same (by simp [hs]) (by rintro ⟨⟩) (Eq.refl _)
    · rw [toCome_text hs, readCalls_some (split_more hsplit)]
      exact toCome_head (Eq.refl _)
  next hsplit =>
    have hkept : readCalls c.single (d.buf ++ p) = readCalls c.single (c.buf ++ p) := by
      cases hl : last with
      | true =>
        rw [hl, if_pos (Eq.refl _)] at h
        cases h
        rw [hp hl, List.append_nil, List.append_nil, readCalls_none hsplit]
        refine readCalls_none ?_
        rw [List.drop_length]
        exact Eq.refl _
      | false =>
        rw [hl, if_neg Bool.false_ne_true] at h
        cases h
        obtain ⟨held, hbuf, hlen⟩ := cut_held toolOpen c.buf
        generalize (c.buf.take (c.buf.length - overlap toolOpen c.buf)).rdropWhile blank = cut
          at hbuf
        rw [hbuf] at hsplit hlen
        dsimp only
        rw [hbuf, List.drop_left]
        exact readCalls_held hsplit hlen
    cases h
    refine ⟨⟨hf.format, by simp [hs], by simp [hs]⟩,
      outcome_same ?_ ?_ fun k => Eq.refl _⟩
    · exact first_same (by simp [hs]) (by simp [hs]) (Eq.refl _)
    · rw [toCome_text hs, ← hkept]
      exact toCome_text hs

theorem refuse_keeps (hf : Fed c) (hs : c.state = .head)
    (hcalls : headCalls c.single (c.buf ++ p) = readCalls c.single (c.buf ++ p))
    (h : c.refuse out = (d, out')) :
    Fed d ∧ outcome conv d out'.calls p = outcome conv c out.calls p := by
  unfold refuse at h
  cases h
  refine ⟨⟨hf.format, by rintro ⟨⟩, by rintro ⟨⟩⟩, outcome_same ?_ ?_ fun k => Eq.refl _⟩
  · exact first_same (by simp [hs]) (by rintro ⟨⟩) (Eq.refl _)
  · rw [toCome_head hs, hcalls]
    exact toCome_text (Eq.refl _)

theorem turnHead_keeps (hf : Fed c) (hs : c.state = .head) (hp : last = true → p = [])
    (h : c.turnHead conv out last = (d, out', more)) :
    Fed d ∧ outcome conv d out'.calls p = outcome conv c out.calls p := by
  have hxml : c.head conv = xmlHead c.buf := by
    unfold head
    rw [hf.format, if_neg (by decide)]
  unfold turnHead at h
  rw [hxml] at h
  split at h
  next name rest hx =>
    have hcome : toCome conv c p = callText conv c.typed ⟨name, (readParams (rest ++ p)).1⟩ ::
        (callsAfter c.single (readParams (rest ++ p)).2).map (callText conv c.typed) := by
      rw [toCome_head hs]
      unfold headCalls
      rw [xmlHead_opens_more p hx]
      exact Eq.refl _
    dsimp only [start] at h
    rw [hf.format, if_neg (by decide)] at h
    cases h
    refine ⟨⟨Eq.refl _, by rintro ⟨⟩, fun _ => Nat.succ_pos _⟩, outcome_same ?_ ?_ fun k => ?_⟩
    · rw [first_outside (c := c) (by simp [hs])]
      exact first_inside (Eq.refl _)
    · rw [hcome]
      exact toCome_inside (Eq.refl _)
    · show argumentsOf k (out.calls ++ [_]) = _
      rw [argumentsOf_append, argumentsOf_single, ite_self, List.append_nil]
  next hx =>
    split at h
    next hstop =>
      have hlast : last = true := by
        rcases hstop with hstop | hstop
        · exact hstop
        · rw [xmlHead_may hx] at hstop
          cases hstop
      have hcalls : headCalls c.single (c.buf ++ p) = readCalls c.single (c.buf ++ p) := by
        rw [hp hlast, List.append_nil]
        unfold headCalls
        rw [hx]
      generalize hr : c.refuse out = r at h
      cases h
      exact refuse_keeps hf hs hcalls hr
    next =>
      cases h
      exact ⟨hf, Eq.refl _⟩
  next hx =>
    have hcalls : headCalls c.single (c.buf ++ p) = readCalls c.single (c.buf ++ p) := by
      unfold headCalls
      rw [xmlHead_cannot_more p hx]
    generalize hr : c.refuse out = r at h
    cases h
    exact refuse_keeps hf hs hcalls hr

theorem turnClose_keeps (hf : Fed c) (hs : c.state = .xmlClose) (hp : last = true → p = [])
    (h : c.turnClose out last = (d, out', more)) :
    Fed d ∧ outcome conv d out'.calls p = outcome conv c out.calls p := by
  have hend : ∀ c' : ToolCallSplit, Fed c' → c'.calls = c.calls → c'.single = c.single →
      c'.typed = c.typed →
      readCalls c.single (c'.buf ++ p) = readCalls c.single (afterFunction (c.buf ++ p)) →
      Fed (endCall c') ∧ outcome conv (endCall c') out.calls p = outcome conv c out.calls p := by
    intro c' hf' hcalls hsingle htyped hread
    refine ⟨hf'.endCall, outcome_same ?_ ?_ fun k => Eq.refl _⟩
    · rw [first_endCall, hcalls, first_outside (by simp [hs])]
    · rw [toCome_endCall, toCome_close hs, hsingle, htyped]
      unfold callsAfter
      rw [hread]
  have hf' : ∀ buf, Fed { c with buf := buf } := fun _ => ⟨hf.format, hf.noJson, hf.inside⟩
  unfold turnClose at h
  dsimp only at h
  split at h
  next hpre =>
    cases h
    refine hend _ (hf' _) (Eq.refl _) (Eq.refl _) (Eq.refl _) ?_
    have hlong := List.isPrefixOf_iff_prefix.mp hpre
    have hne : c.buf.dropWhile blank ≠ [] := hlong.ne_nil toolClose_ne
    unfold afterFunction
    rw [dropWhile_append hne, if_pos, List.drop_append_of_le_length hlong.length_le]
    exact List.isPrefixOf_iff_prefix.mpr (hlong.trans (List.prefix_append _ p))
  next hpre =>
    have hno : ¬ toolClose <+: c.buf.dropWhile blank := fun hl =>
      hpre (List.isPrefixOf_iff_prefix.mpr hl)
    split at h
    next =>
      cases h
      exact ⟨hf, Eq.refl _⟩
    next hwait =>
      have hstay : afterFunction (c.buf ++ p) = c.buf ++ p := by
        unfold afterFunction
        rw [if_neg]
        rw [List.isPrefixOf_iff_prefix]
        cases hl : last with
        | true => rwa [hp hl, List.append_nil]
        | false =>
          obtain ⟨hne, hbegun⟩ := not_or.mp fun hor => hwait ⟨hl, hor⟩
          rw [dropWhile_append hne]
          exact not_prefix_more hno fun hb => hbegun (List.isPrefixOf_iff_prefix.mpr hb)
      split at h
      next hover =>
        cases h
        refine hend _ (hf' _) (Eq.refl _) (Eq.refl _) (Eq.refl _) ?_
        have hnone : split toolOpen c.buf = none := by
          rw [split_none toolOpen_ne]
          intro hin
          have hmem := hin.subset (show '<'.toUInt8 ∈ toolOpen by decide)
          have hblank := List.dropWhile_eq_nil_iff.mp hover.2 _ hmem
          revert hblank
          decide
        rw [hstay, hp hover.1, List.append_nil, List.append_nil, readCalls_none hnone]
        exact readCalls_none (Eq.refl _)
      next =>
        cases h
        exact hend c hf (Eq.refl _) (Eq.refl _) (Eq.refl _) (by rw [hstay])

/-- A call's object closed, and the state after it. -/
theorem close_keeps {after : Bytes} (hs : c.state = .xmlParams) (hpos : 0 < c.calls)
    (hread : readParams (c.buf ++ p) = ([], after)) (hfirst : first d = c.calls)
    (hcome : toCome conv d p = (callsAfter c.single after).map (callText conv c.typed)) :
    outcome conv d (c.closeObject out).calls p = outcome conv c out.calls p := by
  have hc := first_inside hs
  have hbefore : toCome conv c p = ascii (if c.params ≠ 0 then ['\x7d'] else ['\x7b', '\x7d']) ::
      (callsAfter c.single after).map (callText conv c.typed) := by
    rw [toCome_inside hs, hread]
    by_cases hparams : c.params = 0 <;> simp [objectText, hparams]
  refine outcome_last (by omega) hbefore hcome fun k => ?_
  unfold closeObject
  rw [arguments_calls, hc]

/-- A call cut short ends with the parameters it has. -/
theorem cutShort_keeps (hf : Fed c) (hs : c.state = .xmlParams)
    (hread : readParams c.buf = ([], [])) : Fed (endCall { c with buf := [] }) ∧
      outcome conv (endCall { c with buf := [] }) (c.closeObject out).calls [] =
        outcome conv c out.calls [] := by
  refine ⟨Fed.endCall ⟨hf.format, hf.noJson, hf.inside⟩, ?_⟩
  refine close_keeps hs (hf.inside hs) ?_ (first_endCall _) (toCome_endCall _ _)
  rw [List.append_nil]
  exact hread

theorem parameter_keeps {key v rest : Bytes} (hs : c.state = .xmlParams)
    (hread : readParams (c.buf ++ p) =
      ((key, chomp v) :: (readParams (rest ++ p)).1, (readParams (rest ++ p)).2)) :
    outcome conv { c with buf := rest, params := c.params + 1 }
      (c.arguments out (ascii (if c.params ≠ 0 then [',', ' '] else ['\x7b']) ++ quote key ++
        ascii [':', ' '] ++ value conv c.typed c.name key (chomp v))).calls p =
      outcome conv c out.calls p := by
  have hbefore : toCome conv c p = (ascii (if c.params ≠ 0 then [',', ' '] else ['\x7b']) ++
      quote key ++ ascii [':', ' '] ++ value conv c.typed c.name key (chomp v) ++
      objectText conv c.typed c.name true (readParams (rest ++ p)).1) ::
      (callsAfter c.single (readParams (rest ++ p)).2).map (callText conv c.typed) := by
    rw [toCome_inside hs, hread]
    by_cases hparams : c.params = 0 <;> simp [objectText, hparams]
  refine outcome_piece (Eq.refl _) hbefore ?_ fun k => ?_
  · rw [@toCome_inside δ conv { c with buf := rest, params := c.params + 1 } p hs]
    simp
  · rw [arguments_calls, first_inside hs]

theorem turnParams_trimmed (hf : Fed c) (hs : c.state = .xmlParams) (hp : last = true → p = [])
    (htrim : c.buf.dropWhile blank = c.buf) (h : c.turnParams conv out last = (d, out', more)) :
    Fed d ∧ outcome conv d out'.calls p = outcome conv c out.calls p := by
  have hmore : c.buf ≠ [] → (c.buf ++ p).dropWhile blank = c.buf ++ p := by
    intro hne
    rw [dropWhile_append (by rwa [htrim]), htrim]
  have hcut : last = true → readParams c.buf = ([], []) →
      (endCall { c with buf := [] }, c.closeObject out, true) = (d, out', more) →
      Fed d ∧ outcome conv d out'.calls p = outcome conv c out.calls p := by
    intro hl hread heq
    cases heq
    rw [hp hl]
    exact cutShort_keeps hf hs hread
  unfold turnParams at h
  rw [htrim] at h
  dsimp only at h
  by_cases hparam : paramOpen.isPrefixOf c.buf = true
  · rw [if_pos hparam] at h
    have hpre := List.isPrefixOf_iff_prefix.mp hparam
    have hlong : paramOpen.isPrefixOf ((c.buf ++ p).dropWhile blank) = true := by
      rw [hmore (hpre.ne_nil (List.cons_ne_nil _ _))]
      exact List.isPrefixOf_iff_prefix.mpr (hpre.trans (List.prefix_append _ p))
    split at h
    next hnone =>
      split at h
      next hl => exact hcut hl (readParams_none (by rwa [htrim]) (by rwa [htrim])) h
      next =>
        cases h
        exact ⟨hf, Eq.refl _⟩
    next key v rest hsome =>
      cases h
      refine ⟨⟨hf.format, hf.noJson, hf.inside⟩, parameter_keeps hs ?_⟩
      refine readParams_some hlong ?_
      rw [hmore (hpre.ne_nil (List.cons_ne_nil _ _))]
      exact parameter_more p hpre hsome
  rw [if_neg hparam] at h
  by_cases hfn : fnClose.isPrefixOf c.buf = true
  · rw [if_pos hfn] at h
    cases h
    have hpre := List.isPrefixOf_iff_prefix.mp hfn
    have hall := hmore (hpre.ne_nil (List.cons_ne_nil _ _))
    refine ⟨⟨hf.format, by rintro ⟨⟩, by rintro ⟨⟩⟩,
      close_keeps hs (hf.inside hs) ?_ (first_outside (by rintro ⟨⟩)) (toCome_close (Eq.refl _))⟩
    rw [readParams_fnClose (by rw [hall]; exact hpre.trans (List.prefix_append _ p)), hall,
      List.drop_append_of_le_length hpre.length_le]
  rw [if_neg hfn] at h
  by_cases htool : toolClose.isPrefixOf c.buf = true
  · rw [if_pos htool] at h
    cases h
    have hpre := List.isPrefixOf_iff_prefix.mp htool
    have hall := hmore (hpre.ne_nil toolClose_ne)
    refine ⟨Fed.endCall ⟨hf.format, hf.noJson, hf.inside⟩,
      close_keeps hs (hf.inside hs) ?_ (first_endCall _) (toCome_endCall _ _)⟩
    rw [readParams_toolClose (by rw [hall]; exact hpre.trans (List.prefix_append _ p)), hall,
      List.drop_append_of_le_length hpre.length_le]
  rw [if_neg htool] at h
  have hno := NoTag.of_not hparam hfn htool
  split at h
  next hwait =>
    split at h
    next hl =>
      obtain ⟨tag, ht, hbegun⟩ := begun_iff.mp hwait
      refine hcut hl (readParams_begun ht (by rwa [htrim]) ?_) h
      rw [htrim]
      rintro rfl
      exact hno _ ht List.prefix_rfl
    next =>
      cases h
      exact ⟨hf, Eq.refl _⟩
  next hnext =>
    cases h
    refine ⟨⟨hf.format, hf.noJson, hf.inside⟩, outcome_same (Eq.refl _) ?_ fun k => Eq.refl _⟩
    have hlong : NoTag (c.buf ++ p) :=
      hno.more p fun tag ht hbegun => hnext (begun_iff.mpr ⟨tag, ht, hbegun⟩)
    have hread : readParams ((c.buf.drop 1).dropWhile (· != '<'.toUInt8) ++ p) =
        readParams (c.buf ++ p) := by
      cases hbuf : c.buf with
      | nil => exact absurd (.inl hbuf) hnext
      | cons b u =>
        rw [hbuf] at hlong htrim
        refine readParams_cut hlong (eq_false_of_ne_true fun hb => ?_)
        rw [List.dropWhile_cons_of_pos hb] at htrim
        have hle := (List.dropWhile_suffix (l := u) blank).length_le
        rw [htrim, List.length_cons] at hle
        omega
    rw [toCome_inside hs, ← hread]
    exact toCome_inside hs

theorem turnParams_keeps (hf : Fed c) (hs : c.state = .xmlParams) (hp : last = true → p = [])
    (h : c.turnParams conv out last = (d, out', more)) :
    Fed d ∧ outcome conv d out'.calls p = outcome conv c out.calls p := by
  have hidem := List.dropWhile_idempotent blank c.buf
  have hsame : turnParams conv { c with buf := c.buf.dropWhile blank } out last =
      c.turnParams conv out last := by
    unfold turnParams
    dsimp only
    rw [hidem]
  obtain ⟨hfed, hout⟩ := turnParams_trimmed (c := { c with buf := c.buf.dropWhile blank })
    ⟨hf.format, hf.noJson, hf.inside⟩ hs hp hidem (hsame.trans h)
  refine ⟨hfed, hout.trans (outcome_same (Eq.refl _) ?_ fun k => Eq.refl _)⟩
  have hread : readParams (c.buf.dropWhile blank ++ p) = readParams (c.buf ++ p) :=
    readParams_congr dropWhile_trimmed
  rw [toCome_inside hs, ← hread]
  exact toCome_inside hs

theorem turn_keeps (hf : Fed c) (hp : last = true → p = [])
    (h : c.turn conv out last = (d, out', more)) :
    Fed d ∧ outcome conv d out'.calls p = outcome conv c out.calls p := by
  unfold turn at h
  split at h
  next hs =>
    cases h
    refine ⟨⟨hf.format, hf.noJson, hf.inside⟩, outcome_same (Eq.refl _) ?_ fun k => Eq.refl _⟩
    rw [toCome_done hs]
    exact toCome_done hs
  next hs => exact turnText_keeps hf hs hp h
  next hs => exact turnHead_keeps hf hs hp h
  next hs => exact absurd hs hf.noJson
  next hs => exact turnParams_keeps hf hs hp h
  next hs => exact turnClose_keeps hf hs hp h

/-- Where the loop returns with the text at its end, no more arguments come. -/
theorem turn_last (hf : Fed c) (h : c.turn conv out true = (d, out', false)) :
    toCome conv d [] = [] := by
  unfold turn at h
  split at h
  next hs =>
    cases h
    exact toCome_done hs
  next hs =>
    unfold turnText at h
    split at h
    next => cases h
    next =>
      rw [if_pos (Eq.refl _)] at h
      cases h
      refine Eq.trans (toCome_text (by exact hs)) ?_
      dsimp only
      rw [List.drop_length, readCalls_none (Eq.refl _)]
      exact Eq.refl _
  next hs =>
    unfold turnHead at h
    split at h
    next => cases h
    next =>
      rw [if_pos (.inl (Eq.refl _))] at h
      cases h
    next => cases h
  next hs => exact absurd hs hf.noJson
  next hs =>
    unfold turnParams at h
    dsimp only at h
    split at h
    next =>
      split at h
      next =>
        rw [if_pos (Eq.refl _)] at h
        cases h
      next => cases h
    split at h
    next => cases h
    split at h
    next => cases h
    split at h
    next =>
      rw [if_pos (Eq.refl _)] at h
      cases h
    next => cases h
  next hs =>
    unfold turnClose at h
    dsimp only at h
    split at h
    next => cases h
    split at h
    next hwait => cases hwait.1
    split at h
    next =>
      cases h
      rw [toCome_endCall, List.append_nil]
      unfold callsAfter
      rw [readCalls_none (Eq.refl _), ite_self]
      exact Eq.refl _
    next => cases h

theorem step_keeps (hf : Fed c) (hp : last = true → p = []) (h : c.step conv out last = (d, out')) :
    Fed d ∧ outcome conv d out'.calls p = outcome conv c out.calls p := by
  fun_induction step conv c out last with
  | case1 c out c' out1 hturn ih =>
    obtain ⟨hfed, hout⟩ := turn_keeps hf hp hturn
    obtain ⟨hfed', hout'⟩ := ih hfed h
    exact ⟨hfed', hout'.trans hout⟩
  | case2 c out c' out1 hturn =>
    cases h
    exact turn_keeps hf hp hturn

theorem step_last (hf : Fed c) (hl : last = true) (h : c.step conv out last = (d, out')) :
    toCome conv d [] = [] := by
  fun_induction step conv c out last with
  | case1 c out c' out1 hturn ih => exact ih (turn_keeps hf (fun _ => Eq.refl []) hturn).1 h
  | case2 c out c' out1 hturn =>
    cases h
    rw [hl] at hturn
    exact turn_last hf hturn

theorem feed_keeps {piece : Bytes} (hf : Fed c) (h : c.feed conv piece = (d, out')) :
    Fed d ∧ outcome conv d out'.calls p = outcome conv c [] (piece ++ p) := by
  unfold feed at h
  have hf' : Fed { c with buf := c.buf ++ piece } := ⟨hf.format, hf.noJson, hf.inside⟩
  obtain ⟨hfed, hout⟩ := step_keeps (p := p) hf' (by rintro ⟨⟩) h
  exact ⟨hfed, hout.trans (outcome_same (Eq.refl _) (toCome_append c piece p) fun k => Eq.refl _)⟩

theorem feedAll_keeps {pieces : List Bytes} (hf : Fed c)
    (h : c.feedAll conv pieces = (d, calls)) :
    Fed d ∧ outcome conv d calls p = outcome conv c [] (pieces.flatten ++ p) := by
  induction pieces generalizing c calls with
  | nil =>
    cases h
    exact ⟨hf, Eq.refl _⟩
  | cons piece pieces ih =>
    rw [feedAll] at h
    generalize hfeed : c.feed conv piece = r at h
    obtain ⟨c', out⟩ := r
    obtain ⟨hfed, hout⟩ := feed_keeps (p := pieces.flatten ++ p) hf hfeed
    dsimp only at h
    generalize hall : c'.feedAll conv pieces = r at h
    obtain ⟨d', more⟩ := r
    cases h
    obtain ⟨hfed', hout'⟩ := ih hfed hall
    have hbefore := outcome_before out.calls hout'
    rw [List.append_nil, hout] at hbefore
    refine ⟨hfed', hbefore.trans ?_⟩
    rw [List.flatten_cons, List.append_assoc]

theorem place_nil (f k : Nat) : place f [] k = [] := by
  unfold place
  split
  next => exact List.getD_nil
  next => exact Eq.refl _

variable (conv)

/-- A reply's pieces give the calls its whole text has, each with the text of its parameters. -/
theorem run_calls (typed : ToolTypes) (single : Bool) (pieces : List Bytes) :
    (run conv .xml typed single pieces).1.calls = (readCalls single pieces.flatten).length ∧
      ∀ k call, (readCalls single pieces.flatten)[k]? = some call →
        argumentsOf k (run conv .xml typed single pieces).2 = callText conv typed call := by
  have hnew : Fed (new .xml typed single) := ⟨Eq.refl _, by rintro ⟨⟩, by rintro ⟨⟩⟩
  unfold run
  generalize hall : (new .xml typed single).feedAll conv pieces = r
  obtain ⟨c, calls⟩ := r
  dsimp only
  generalize hfinish : c.finish conv = r
  obtain ⟨d, out⟩ := r
  dsimp only
  obtain ⟨hfed, hout⟩ := feedAll_keeps (p := []) hnew hall
  obtain ⟨hfed', hout'⟩ := step_keeps (p := []) hfed (fun _ => Eq.refl _) hfinish
  have hend := step_last hfed (Eq.refl _) hfinish
  have hbefore := outcome_before calls hout'
  rw [List.append_nil, hout, List.append_nil] at hbefore
  have houtside : d.state ≠ .xmlParams := by
    intro hs
    rw [toCome_inside hs] at hend
    cases hend
  have hcome : toCome conv (new .xml typed single) pieces.flatten =
      (readCalls single pieces.flatten).map (callText conv typed) := toCome_text (Eq.refl _)
  unfold outcome at hbefore
  rw [hend, hcome, first_outside houtside, first_outside (by rintro ⟨⟩)] at hbefore
  obtain ⟨hcount, htexts⟩ := Prod.mk.inj hbefore
  refine ⟨?_, fun k call hcall => ?_⟩
  · rw [List.length_map] at hcount
    exact hcount.trans (Nat.zero_add _)
  · have hk := congrFun htexts k
    rw [place_nil, List.append_nil] at hk
    rw [hk]
    show [] ++ place 0 _ k = _
    unfold place
    rw [List.nil_append, if_pos (Nat.zero_le _), Nat.sub_zero, List.getD_eq_getElem?_getD,
      List.getElem?_map, hcall]
    exact Eq.refl _

end ToolCallSplit

end Llmx
