import Llmx.ToolCallReading

namespace Llmx

open Tags

namespace ToolCallSplit

variable {δ : Type} (conv : Json.Conversion δ)

section Cutting

variable {c d : ToolCallSplit} {out out' : ToolCallParts} {more : Bool} {p : Bytes}
  {pieces : List Bytes}

/-- An opening cut short: a piece ends in its name after a closing tag there. -/
def CutShort (conv : Json.Conversion δ) (openings pieces : List Bytes) : Prop :=
  ∃ rest ∈ openings, ∃ k u, u ++ (pieces.drop k).flatten = rest ∧
    (∃ call, jsonHead conv rest = .opens call) ∧ jsonHead conv u = .may ∧
    (split toolClose u).isSome = true

/-- The openings of a text in the JSON format from where the splitter is. -/
def toOpen (conv : Json.Conversion δ) (c : ToolCallSplit) (p : Bytes) : List Bytes :=
  match c.state with
  | .text => (readJson conv c.single (c.buf ++ p)).openings
  | .head => headOpenings conv c.single (c.buf ++ p)
  | .jsonArgs => argsOpenings conv c.single (c.buf ++ p)
  | .xmlParams => []
  | .xmlClose => []
  | .done => []

structure InJson (c : ToolCallSplit) : Prop where
  format : c.format = .json
  noParams : c.state ≠ .xmlParams
  noClose : c.state ≠ .xmlClose

/-- The openings a turn leaves behind, and why none of them is cut short after it. -/
structure Passes (conv : Json.Conversion δ) (c d : ToolCallSplit) (p : Bytes)
    (decided : List Bytes) : Prop where
  openings : toOpen conv c p = decided ++ toOpen conv d p
  decides : ∀ rest ∈ decided, rest = c.buf ++ p ∧
    (jsonHead conv c.buf ≠ .may ∨ ∀ call, jsonHead conv rest ≠ .opens call)

variable {conv}

theorem InJson.head (hf : InJson c) : c.head conv = jsonHead conv c.buf := by
  unfold ToolCallSplit.head
  rw [if_pos hf.format]

theorem toOpen_text (h : c.state = .text) :
    toOpen conv c p = (readJson conv c.single (c.buf ++ p)).openings := by
  unfold toOpen
  rw [h]

theorem toOpen_head (h : c.state = .head) :
    toOpen conv c p = headOpenings conv c.single (c.buf ++ p) := by
  unfold toOpen
  rw [h]

theorem toOpen_args (h : c.state = .jsonArgs) :
    toOpen conv c p = argsOpenings conv c.single (c.buf ++ p) := by
  unfold toOpen
  rw [h]

theorem toOpen_done (h : c.state = .done) : toOpen conv c p = [] := by
  unfold toOpen
  rw [h]

theorem toOpen_endCall (c : ToolCallSplit) (p : Bytes) :
    toOpen conv (endCall c) p = (readAfter conv c.single (c.buf ++ p)).openings := by
  unfold readAfter
  cases h : c.single with
  | true =>
    rw [toOpen_done (by simp [endCall, h])]
    exact Eq.refl _
  | false =>
    rw [toOpen_text (by simp [endCall, h])]
    show (readJson conv c.single _).openings = _
    rw [h]
    exact Eq.refl _

theorem InJson.endCall (hf : InJson c) : InJson (endCall c) := by
  unfold ToolCallSplit.endCall
  cases c.single with
  | true => exact ⟨hf.format, by rintro ⟨⟩, by rintro ⟨⟩⟩
  | false => exact ⟨hf.format, by rintro ⟨⟩, by rintro ⟨⟩⟩

theorem InJson.refuse (hf : InJson c) (out : ToolCallParts) : InJson (c.refuse out).1 :=
  ⟨hf.format, by rintro ⟨⟩, by rintro ⟨⟩⟩

/-- In the JSON format a turn leads to no state of the other. -/
theorem InJson.turn {last : Bool} (hf : InJson c) (h : c.turn conv out last = (d, out', more)) :
    InJson d := by
  unfold ToolCallSplit.turn at h
  split at h
  next =>
    cases h
    exact ⟨hf.format, hf.noParams, hf.noClose⟩
  next =>
    unfold turnText at h
    split at h
    next =>
      cases h
      exact ⟨hf.format, by rintro ⟨⟩, by rintro ⟨⟩⟩
    next =>
      cases h
      exact ⟨hf.format, hf.noParams, hf.noClose⟩
  next =>
    have hrefuse := hf.refuse out
    unfold turnHead at h
    split at h
    next =>
      dsimp only [start] at h
      rw [hf.format, if_pos (Eq.refl _)] at h
      cases h
      exact ⟨Eq.refl _, by rintro ⟨⟩, by rintro ⟨⟩⟩
    next =>
      split at h
      next =>
        generalize c.refuse out = r at h hrefuse
        cases h
        exact hrefuse
      next =>
        cases h
        exact hf
    next =>
      generalize c.refuse out = r at h hrefuse
      cases h
      exact hrefuse
  next =>
    unfold turnJson at h
    split at h
    next =>
      cases h
      exact .endCall ⟨hf.format, hf.noParams, hf.noClose⟩
    next =>
      split at h
      next =>
        cases h
        exact .endCall ⟨hf.format, hf.noParams, hf.noClose⟩
      next =>
        cases h
        exact ⟨hf.format, hf.noParams, hf.noClose⟩
  next hs => exact absurd hs hf.noParams
  next hs => exact absurd hs hf.noClose

theorem InJson.step {last : Bool} (hf : InJson c) (h : c.step conv out last = (d, out')) :
    InJson d := by
  fun_induction ToolCallSplit.step conv c out last with
  | case1 c out c' out1 hturn ih => exact ih (hf.turn hturn) h
  | case2 c out c' out1 hturn =>
    cases h
    exact hf.turn hturn

theorem Passes.none (h : toOpen conv c p = toOpen conv d p) : Passes conv c d p [] :=
  ⟨h, fun _ hrest => absurd hrest List.not_mem_nil⟩

theorem turnText_passes (hs : c.state = .text) (h : c.turnText out false = (d, out', more)) :
    Passes conv c d p [] := by
  unfold turnText at h
  split at h
  next lead rest hsplit =>
    cases h
    refine .none ?_
    rw [toOpen_text hs, readJson_openings (split_more hsplit)]
    exact Eq.refl _
  next hsplit =>
    rw [if_neg Bool.false_ne_true] at h
    obtain ⟨held, hbuf, hlen⟩ := cut_held toolOpen c.buf
    generalize (c.buf.take (c.buf.length - overlap toolOpen c.buf)).rdropWhile blank = cut at h hbuf
    cases h
    refine .none ?_
    rw [toOpen_text hs, toOpen_text (by exact hs)]
    rw [hbuf] at hsplit hlen
    have hhold := split_hold (p := p) hsplit hlen
    show (readJson conv c.single _).openings = (readJson conv c.single _).openings
    dsimp only
    rw [hbuf, List.drop_left]
    cases hnext : split toolOpen (held ++ p) with
    | none =>
      rw [hnext] at hhold
      rw [readJson_none hnext, readJson_none hhold]
    | some r =>
      obtain ⟨lead, rest⟩ := r
      rw [hnext] at hhold
      rw [readJson_openings hnext, readJson_openings hhold]

theorem headOpenings_refused {single : Bool} {s : Bytes}
    (h : ∀ call, jsonHead conv s ≠ .opens call) :
    headOpenings conv single s = s :: (readJson conv single s).openings := by
  unfold headOpenings
  split
  next hx => exact absurd hx (h _)
  next => exact Eq.refl _
  next => exact Eq.refl _

theorem turnHead_passes (hf : InJson c) (hs : c.state = .head) (hno : ¬ Halted conv c p)
    (h : c.turnHead conv out false = (d, out', more)) :
    ∃ decided, Passes conv c d p decided := by
  have hsettled : _ ∧ (jsonHead conv c.buf = .cannot → _) := jsonHead_settled c.buf p
  have hrefuse : (∀ call, jsonHead conv (c.buf ++ p) ≠ .opens call) → c.refuse out = (d, out') →
      ∃ decided, Passes conv c d p decided := by
    intro hopens hr
    cases hr
    refine ⟨[c.buf ++ p], ?_, fun rest hrest => ?_⟩
    · rw [toOpen_head hs, headOpenings_refused hopens]
      exact Eq.refl _
    · rw [List.mem_singleton.mp hrest]
      exact ⟨Eq.refl _, .inr hopens⟩
  unfold turnHead at h
  rw [hf.head] at h
  split at h
  next name rest hx =>
    have hmore := hsettled.1 name rest hx
    dsimp only [start] at h
    rw [hf.format, if_pos (Eq.refl _)] at h
    cases h
    refine ⟨[c.buf ++ p], ?_, fun r hr => ?_⟩
    · rw [toOpen_head hs]
      unfold headOpenings
      rw [hmore]
      exact Eq.refl _
    · rw [List.mem_singleton.mp hr]
      refine ⟨Eq.refl _, .inl fun hmay => ?_⟩
      cases hx.symm.trans hmay
  next hx =>
    split at h
    next hstop =>
      have hclosing := hstop.resolve_left Bool.false_ne_true
      refine hrefuse (fun call hcall => hno ⟨hs, hf.head.trans hx, hclosing, call, ?_⟩) ?_
      · unfold head
        rw [if_pos hf.format]
        exact hcall
      · generalize c.refuse out = r at h
        cases h
        exact Eq.refl _
    next =>
      cases h
      exact ⟨[], .none (Eq.refl _)⟩
  next hx =>
    refine hrefuse (fun call hcall => ?_) ?_
    · cases (hsettled.2 hx).symm.trans hcall
    · generalize c.refuse out = r at h
      cases h
      exact Eq.refl _

theorem turnJson_passes (hs : c.state = .jsonArgs) (h : c.turnJson out false = (d, out', more)) :
    Passes conv c d p [] := by
  unfold turnJson at h
  split at h
  next args rest hsplit =>
    cases h
    refine .none ?_
    rw [toOpen_args hs, toOpen_endCall]
    unfold argsOpenings
    rw [split_more hsplit]
    exact Eq.refl _
  next hsplit =>
    rw [if_neg Bool.false_ne_true] at h
    obtain ⟨held, hcut⟩ := cut_args c.buf
    generalize dropBrace ((c.buf.take (c.buf.length - overlap toolClose c.buf)).rdropWhile blank) =
      cut at h hcut
    cases h
    refine .none ?_
    rw [toOpen_args hs, toOpen_args (by exact hs)]
    show argsOpenings conv c.single _ = argsOpenings conv c.single _
    dsimp only
    unfold argsOpenings
    rw [(hcut.hold hsplit p).1, Option.map_map, hcut.whole, List.drop_left]
    exact Eq.refl _

theorem turn_passes (hf : InJson c) (hno : ¬ Halted conv c p)
    (h : c.turn conv out false = (d, out', more)) : ∃ decided, Passes conv c d p decided := by
  unfold turn at h
  split at h
  next hs =>
    cases h
    refine ⟨[], .none ?_⟩
    rw [toOpen_done hs]
    exact (toOpen_done (by exact hs)).symm
  next hs => exact ⟨[], turnText_passes hs h⟩
  next hs => exact turnHead_passes hf hs hno h
  next hs => exact ⟨[], turnJson_passes hs h⟩
  next hs => exact absurd hs hf.noParams
  next hs => exact absurd hs hf.noClose

/-- No opening to come is cut short. -/
def Clear (conv : Json.Conversion δ) (c : ToolCallSplit) (pieces : List Bytes) : Prop :=
  c.format = .json → InJson c ∧ ¬ CutShort conv (toOpen conv c pieces.flatten) pieces

theorem Clear.not_halted (h : Clear conv c pieces) : ¬ Halted conv c pieces.flatten := by
  intro hhalted
  obtain ⟨hs, hmay, hclosing, call, hopens⟩ := hhalted
  unfold ToolCallSplit.head at hmay hopens
  by_cases hf : c.format = .json
  · rw [if_pos hf] at hmay
    rw [if_pos (by exact hf)] at hopens
    obtain ⟨-, hwhole⟩ := h hf
    refine hwhole ⟨c.buf ++ pieces.flatten, ?_, 0, c.buf, Eq.refl _, ⟨call, hopens⟩, hmay, hclosing⟩
    rw [toOpen_head hs]
    exact List.mem_cons_self
  · rw [if_neg hf] at hmay
    rw [xmlHead_may hmay] at hclosing
    cases hclosing

theorem turn_format {last : Bool} (h : c.turn conv out last = (d, out', more)) :
    d.format = c.format := by
  have hend : ∀ c' : ToolCallSplit, (endCall c').format = c'.format := fun _ => Eq.refl _
  have hfirst : d = (c.turn conv out last).1 := by rw [h]
  rw [hfirst]
  unfold turn
  split
  next => exact Eq.refl _
  next =>
    unfold turnText
    split
    next => exact Eq.refl _
    next => exact Eq.refl _
  next =>
    unfold turnHead
    split
    next => exact Eq.refl _
    next =>
      split
      next => exact Eq.refl _
      next => exact Eq.refl _
    next => exact Eq.refl _
  next =>
    unfold turnJson
    split
    next => exact hend _
    next =>
      split
      next => exact hend _
      next => exact Eq.refl _
  next =>
    unfold turnParams
    dsimp only
    split
    next =>
      split
      next =>
        split
        next => exact hend _
        next => exact Eq.refl _
      next => exact Eq.refl _
    split
    next => exact Eq.refl _
    split
    next => exact hend _
    split
    next =>
      split
      next => exact hend _
      next => exact Eq.refl _
    next => exact Eq.refl _
  next =>
    unfold turnClose
    dsimp only
    split
    next => exact hend _
    split
    next => exact Eq.refl _
    split
    next => exact hend _
    next => exact hend _

theorem CutShort.mono {a b : List Bytes} (h : ∀ rest ∈ a, rest ∈ b)
    (hcut : CutShort conv a pieces) : CutShort conv b pieces := by
  obtain ⟨rest, hrest, hwhere⟩ := hcut
  exact ⟨rest, h rest hrest, hwhere⟩

theorem Clear.turn (h : Clear conv c pieces) (hturn : c.turn conv out false = (d, out', more)) :
    Clear conv d pieces := by
  intro hf
  obtain ⟨hin, hwhole⟩ := h ((turn_format hturn).symm.trans hf)
  obtain ⟨decided, hpasses⟩ := turn_passes hin h.not_halted hturn
  refine ⟨hin.turn hturn, fun hcut => hwhole (hcut.mono fun rest hrest => ?_)⟩
  rw [hpasses.openings]
  exact List.mem_append_right _ hrest

/-- A turn before the rest of the text has come is one the whole text takes. -/
theorem turn_later (hno : ¬ Halted conv c p) (h : c.turn conv out false = (d, out', more)) :
    step conv { c with buf := c.buf ++ p } out true =
      step conv { d with buf := d.buf ++ p } out' true := by
  unfold turn at h
  split at h
  next hs =>
    cases h
    refine step_same ?_
    unfold turn
    rw [hs]
  next hs => exact (turnText_later hs h).step
  next hs => exact (turnHead_later hs hno h).step
  next hs => exact (turnJson_later hs h).step
  next hs => exact turnParams_later hs h
  next hs => exact turnClose_later hs h

theorem step_later (hclear : Clear conv c pieces) (h : c.step conv out false = (d, out')) :
    Clear conv d pieces ∧ step conv { c with buf := c.buf ++ pieces.flatten } out true =
      step conv { d with buf := d.buf ++ pieces.flatten } out' true := by
  generalize hlast : false = last at h
  fun_induction step conv c out last with
  | case1 c out c' out1 hturn ih =>
    subst hlast
    obtain ⟨hclear', hlater⟩ := ih (hclear.turn hturn) h
    exact ⟨hclear', (turn_later hclear.not_halted hturn).trans hlater⟩
  | case2 c out c' out1 hturn =>
    subst hlast
    cases h
    exact ⟨hclear.turn hturn, turn_later hclear.not_halted hturn⟩

theorem toOpen_append (c : ToolCallSplit) (piece p : Bytes) :
    toOpen conv { c with buf := c.buf ++ piece } p = toOpen conv c (piece ++ p) := by
  unfold toOpen
  rw [List.append_assoc]

theorem Clear.feed {piece : Bytes} (h : Clear conv c (piece :: pieces)) :
    Clear conv { c with buf := c.buf ++ piece } pieces := by
  intro hf
  obtain ⟨hin, hwhole⟩ := h hf
  refine ⟨⟨hin.format, hin.noParams, hin.noClose⟩, fun hcut => hwhole ?_⟩
  rw [toOpen_append] at hcut
  obtain ⟨rest, hrest, k, u, hu, hwhere⟩ := hcut
  exact ⟨rest, hrest, k + 1, u, hu, hwhere⟩

/-- Where no opening is cut short, the pieces and the end give what the whole text gives. -/
theorem feedOnto_later (hclear : Clear conv c pieces) : c.feedOnto conv out pieces =
    step conv { c with buf := c.buf ++ pieces.flatten } out true := by
  induction pieces generalizing c out with
  | nil =>
    rw [List.flatten_nil, List.append_nil]
    exact Eq.refl _
  | cons piece pieces ih =>
    rw [feedOnto]
    generalize hfeed : step conv { c with buf := c.buf ++ piece } out false = r
    obtain ⟨c', first⟩ := r
    obtain ⟨hclear', hlater⟩ := step_later hclear.feed hfeed
    dsimp only at hlater
    rw [List.append_assoc] at hlater
    rw [List.flatten_cons, hlater]
    exact ih hclear'

end Cutting

section Gathered

variable {conv : Json.Conversion δ} {c d : ToolCallSplit} {out out' : ToolCallParts}
  {more last : Bool} {s name : Bytes} {calls : List ToolCall} {call : ToolCall}

theorem modify_concat {α : Type} (l : List α) (a : α) (f : α → α) :
    (l ++ [a]).modify l.length f = l ++ [f a] := by
  induction l with
  | nil => exact List.modify_zero_cons f a []
  | cons b l ih =>
    rw [List.cons_append, List.length_cons, List.modify_succ_cons, ih, List.cons_append]

theorem gatherCall_new (calls : List ToolCall) (name : Bytes) :
    gatherCall calls ⟨calls.length, name, []⟩ = calls ++ [⟨name, []⟩] := by
  unfold gatherCall
  dsimp only
  rw [Nat.add_sub_cancel_left, List.replicate_one, modify_concat]
  by_cases hname : name = []
  · rw [if_pos hname, hname]
    exact Eq.refl _
  · rw [if_neg hname]
    exact Eq.refl _

theorem gatherCall_last (calls : List ToolCall) (call : ToolCall) (s : Bytes) :
    gatherCall (calls ++ [call]) ⟨calls.length, [], s⟩ =
      calls ++ [{ call with arguments := call.arguments ++ s }] := by
  have hlength : (calls ++ [call]).length = calls.length + 1 := List.length_append
  unfold gatherCall
  dsimp only
  rw [hlength, Nat.sub_self, List.replicate_zero, List.append_nil, modify_concat,
    if_pos (Eq.refl _)]

theorem gathered_start (h : (gatherCalls [] out.calls).length = c.calls) (name : Bytes) :
    gatherCalls [] (c.start out name).2.calls = gatherCalls [] out.calls ++ [⟨name, []⟩] := by
  show gatherCalls [] (out.calls ++ [⟨c.calls, name, []⟩]) = _
  rw [gatherCalls_concat, ← h, gatherCall_new]

theorem gathered_arguments (h : gatherCalls [] out.calls = calls ++ [call])
    (hc : c.calls = calls.length + 1) (s : Bytes) :
    gatherCalls [] (c.arguments out s).calls =
      calls ++ [{ call with arguments := call.arguments ++ s }] := by
  rw [gatherCalls_arguments, h]
  by_cases hs : s = []
  · rw [if_pos hs, hs, List.append_nil]
  · rw [if_neg hs, hc, Nat.add_sub_cancel, gatherCall_last]

/-- The calls put out are as many as are counted, and the space held back is blank. -/
structure Kept (c : ToolCallSplit) (out : ToolCallParts) : Prop where
  gathered : (gatherCalls [] out.calls).length = c.calls
  inside : c.state = .jsonArgs → 0 < c.calls
  space : ∀ b ∈ c.space, blank b = true

theorem Kept.arguments (hk : Kept c out) (hs : c.state = .jsonArgs) (s : Bytes) :
    (gatherCalls [] (c.arguments out s).calls).length = c.calls := by
  have hpos := hk.inside hs
  rcases List.eq_nil_or_concat' (gatherCalls [] out.calls) with hnil | ⟨calls, call, heq⟩
  · have hzero := hk.gathered
    rw [hnil, List.length_nil] at hzero
    omega
  · have hcount := hk.gathered
    rw [heq, List.length_append, List.length_singleton] at hcount
    rw [gathered_arguments heq hcount.symm, List.length_append, List.length_singleton]
    exact hcount

theorem drop_trimmed (lead : Bytes) :
    lead.drop (lead.rdropWhile blank).length = lead.rtakeWhile blank := by
  have hlead : lead.rdropWhile blank ++ lead.rtakeWhile blank = lead :=
    List.rdropWhile_append_rtakeWhile
  have hdrop := congrArg (List.drop (lead.rdropWhile blank).length) hlead
  rw [List.drop_left] at hdrop
  exact hdrop.symm

theorem blank_dropped (lead : Bytes) :
    ∀ b ∈ lead.drop (lead.rdropWhile blank).length, blank b = true := by
  rw [drop_trimmed]
  exact fun b hb => List.mem_rtakeWhile_imp hb

theorem Kept.refuse (hk : Kept c out) : Kept (c.refuse out).1 (c.refuse out).2 :=
  ⟨hk.gathered, by rintro ⟨⟩, fun _ hb => absurd hb List.not_mem_nil⟩

theorem Kept.turn (hf : InJson c) (hk : Kept c out) (h : c.turn conv out last = (d, out', more)) :
    Kept d out' := by
  unfold ToolCallSplit.turn at h
  split at h
  next hs =>
    cases h
    exact ⟨hk.gathered, by simp [hs], hk.space⟩
  next hs =>
    unfold turnText at h
    split at h
    next lead rest hsplit =>
      cases h
      exact ⟨hk.gathered, by rintro ⟨⟩, blank_dropped lead⟩
    next =>
      cases h
      exact ⟨hk.gathered, by simp [hs], hk.space⟩
  next hs =>
    have hrefuse := hk.refuse
    unfold turnHead at h
    split at h
    next name rest hx =>
      have hstart := congrArg List.length (gathered_start hk.gathered name)
      rw [List.length_append, hk.gathered] at hstart
      dsimp only at h
      cases h
      exact ⟨hstart, fun _ => Nat.succ_pos _, fun _ hb => absurd hb List.not_mem_nil⟩
    next =>
      split at h
      next =>
        generalize c.refuse out = r at h hrefuse
        cases h
        exact hrefuse
      next =>
        cases h
        exact hk
    next =>
      generalize c.refuse out = r at h hrefuse
      cases h
      exact hrefuse
  next hs =>
    have hend : ∀ buf s, Kept (endCall { c with buf := buf }) (c.arguments out s) := by
      intro buf s
      refine ⟨hk.arguments hs s, fun hin => ?_, hk.space⟩
      unfold endCall at hin
      dsimp only at hin
      split at hin
      next => cases hin
      next => cases hin
    unfold turnJson at h
    split at h
    next =>
      cases h
      exact hend _ _
    next =>
      split at h
      next =>
        cases h
        exact hend _ _
      next =>
        cases h
        exact ⟨hk.arguments hs _, hk.inside, hk.space⟩
  next hs => exact absurd hs hf.noParams
  next hs => exact absurd hs hf.noClose

theorem Kept.step {last : Bool} (hf : InJson c) (hk : Kept c out)
    (h : c.step conv out last = (d, out')) : Kept d out' := by
  fun_induction ToolCallSplit.step conv c out last with
  | case1 c out c' out1 hturn ih => exact ih (hf.turn hturn) (hk.turn hf hturn) h
  | case2 c out c' out1 hturn =>
    cases h
    exact hk.turn hf hturn

end Gathered

section Replies

variable {conv : Json.Conversion δ} {single : Bool} {pieces : List Bytes} {s : Bytes}

theorem openings_place :
    ∀ rest ∈ (readJson conv single s).openings, toolOpen ++ rest <:+ s := by
  have hfirst : ∀ {s lead rest : Bytes}, split toolOpen s = some (lead, rest) →
      toolOpen ++ rest <:+ s := by
    intro s lead rest hs
    exact ⟨lead, by rw [← List.append_assoc, ← split_eq hs]⟩
  fun_induction readJson conv single s with
  | case1 s hs => exact fun rest hrest => absurd hrest List.not_mem_nil
  | case2 s lead rest hs =>
    intro r hr
    rw [List.mem_singleton.mp hr]
    exact hfirst hs
  | case3 s lead rest hs name inner hx args after hc next ih =>
    intro r hr
    rcases List.mem_cons.mp hr with rfl | hr
    · exact hfirst hs
    · by_cases hsingle : single = true
      · have hnext : next = ⟨[], [], []⟩ := if_pos hsingle
        rw [hnext] at hr
        exact absurd hr List.not_mem_nil
      · have hnext : next = readJson conv single after := if_neg hsingle
        rw [hnext] at hr
        obtain ⟨k, hk⟩ := jsonHead_suffix hx
        refine (ih r hr).trans ⟨lead ++ toolOpen ++ (k ++ (args ++ toolClose)), ?_⟩
        rw [split_eq hs, hk, split_eq hc]
        simp only [List.append_assoc]
  | case4 s lead rest hs hx next ih =>
    intro r hr
    rcases List.mem_cons.mp hr with rfl | hr
    · exact hfirst hs
    · exact (ih r hr).trans ((List.suffix_append _ _).trans (hfirst hs))
  | case5 s lead rest hs hx next ih =>
    intro r hr
    rcases List.mem_cons.mp hr with rfl | hr
    · exact hfirst hs
    · exact (ih r hr).trans ((List.suffix_append _ _).trans (hfirst hs))

/-- A text that comes at once cuts no opening short. -/
theorem not_cutShort_whole : ¬ CutShort conv (readJson conv single s).openings [s] := by
  intro ⟨rest, hrest, k, u, hu, ⟨call, hopens⟩, hmay, _⟩
  cases k with
  | zero =>
    have hle := (openings_place rest hrest).length_le
    have hpos := List.length_pos_iff.mpr toolOpen_ne
    rw [← hu, List.drop_zero, List.flatten_singleton, List.length_append, List.length_append] at hle
    omega
  | succ k =>
    rw [List.drop_succ_cons, List.drop_nil, List.flatten_nil, List.append_nil] at hu
    rw [hu, hopens] at hmay
    cases hmay

theorem reply_whole (format : ToolFormat) (typed : ToolTypes) (s : Bytes) :
    reply (replyParts conv format typed single [s]) =
      reply (step conv { new format typed single with buf := s } ⟨[], []⟩ true) := by
  have hclear : Clear conv (new format typed single) [s] := by
    refine fun hf => ⟨⟨hf, by rintro ⟨⟩, by rintro ⟨⟩⟩, ?_⟩
    rw [List.flatten_singleton]
    exact not_cutShort_whole
  rw [reply_onto, feedOnto_later hclear, List.flatten_singleton]
  exact Eq.refl _

/-- Where no opening is cut short, a reply in pieces is the reply at once. -/
theorem reply_uncut (format : ToolFormat) (typed : ToolTypes)
    (h : format = .json → ¬ CutShort conv (readJson conv single pieces.flatten).openings pieces) :
    reply (replyParts conv format typed single pieces) =
      reply (replyParts conv format typed single [pieces.flatten]) := by
  have hclear : Clear conv (new format typed single) pieces :=
    fun hf => ⟨⟨hf, by rintro ⟨⟩, by rintro ⟨⟩⟩, h hf⟩
  rw [reply_whole, reply_onto, feedOnto_later hclear]
  exact Eq.refl _

end Replies

end ToolCallSplit

end Llmx
