import Llmx.ToolCallReplies

namespace Llmx

open Tags

namespace ToolCallSplit

variable {δ : Type} {conv : Json.Conversion δ}

section Giving

variable {c d : ToolCallSplit} {out out' : ToolCallParts} {more free : Bool} {p : Bytes}
  {pieces : List Bytes} {r : ToolCallSplit × ToolCallParts}

/-- What the loop gives of a whole text, where it is free to give an opening up. -/
inductive Gives (conv : Json.Conversion δ) (free : Bool) :
    ToolCallSplit → ToolCallParts → ToolCallSplit × ToolCallParts → Prop
  | turn {c d : ToolCallSplit} {out out' : ToolCallParts} {r : ToolCallSplit × ToolCallParts}
      (h : c.turn conv out true = (d, out', true)) (hd : Gives conv free d out' r) :
      Gives conv free c out r
  | stop {c d : ToolCallSplit} {out out' : ToolCallParts}
      (h : c.turn conv out true = (d, out', false)) : Gives conv free c out (d, out')
  | givesUp {c : ToolCallSplit} {out : ToolCallParts} {r : ToolCallSplit × ToolCallParts}
      (hfree : free = true) (hs : c.state = .head)
      (h : Gives conv free (c.refuse out).1 (c.refuse out).2 r) : Gives conv free c out r

theorem gives_step (conv : Json.Conversion δ) (free : Bool) (c : ToolCallSplit)
    (out : ToolCallParts) : Gives conv free c out (c.step conv out true) := by
  generalize hlast : true = last
  fun_induction step conv c out last with
  | case1 c out d out' hturn ih =>
    subst hlast
    exact .turn hturn ih
  | case2 c out d out' hturn =>
    subst hlast
    exact .stop hturn

theorem Gives.later {x y : ToolCallSplit} {o o' : ToolCallParts} (h : Gives conv true y o' r)
    (hlater : Later conv x o y o') : Gives conv true x o r := by
  cases hlater with
  | taken hturn => exact .turn hturn h
  | waits hc ho =>
    subst hc ho
    exact h
  | same hturn hhead =>
    cases h with
    | turn h hd => exact .turn (hturn.trans h) hd
    | stop h => exact .stop (hturn.trans h)
    | givesUp hfree hs' h => exact absurd hs' hhead

theorem Halted.turn (hh : Halted conv c p) (h : c.turn conv out false = (d, out', more)) :
    d = (c.refuse out).1 ∧ out' = (c.refuse out).2 ∧ more = true := by
  rw [turn_head hh.state] at h
  unfold turnHead at h
  rw [hh.may] at h
  dsimp only at h
  rw [if_pos (.inr hh.closing)] at h
  generalize c.refuse out = r at h ⊢
  cases h
  exact ⟨Eq.refl _, Eq.refl _, Eq.refl _⟩

/-- What is given after a turn before the rest of the text has come is given of the whole. -/
theorem Gives.turn_before (hf : InJson c) (hturn : c.turn conv out false = (d, out', more))
    (h : Gives conv true { d with buf := d.buf ++ p } out' r) :
    Gives conv true { c with buf := c.buf ++ p } out r := by
  by_cases hhalted : Halted conv c p
  · obtain ⟨rfl, rfl, -⟩ := hhalted.turn hturn
    exact .givesUp (Eq.refl _) hhalted.state h
  · unfold ToolCallSplit.turn at hturn
    split at hturn
    next hs =>
      cases hturn
      refine h.later (.same ?_ (by simp [hs]))
      unfold ToolCallSplit.turn
      rw [hs]
    next hs => exact h.later (turnText_later hs hturn)
    next hs => exact h.later (turnHead_later hs hhalted hturn)
    next hs => exact h.later (turnJson_later hs hturn)
    next hs => exact absurd hs hf.noParams
    next hs => exact absurd hs hf.noClose

theorem Gives.step_before (hf : InJson c) (hstep : c.step conv out false = (d, out'))
    (h : Gives conv true { d with buf := d.buf ++ p } out' r) :
    Gives conv true { c with buf := c.buf ++ p } out r := by
  generalize hlast : false = last at hstep
  fun_induction step conv c out last with
  | case1 c out c' out1 hturn ih =>
    subst hlast
    exact (ih (hf.turn hturn) hstep).turn_before hf hturn
  | case2 c out c' out1 hturn =>
    subst hlast
    cases hstep
    exact h.turn_before hf hturn

/-- A reply in pieces is one the loop may give of the whole text. -/
theorem gives_feedOnto (hf : InJson c) : Gives conv true
    { c with buf := c.buf ++ pieces.flatten } out (c.feedOnto conv out pieces) := by
  induction pieces generalizing c out with
  | nil =>
    rw [List.flatten_nil, List.append_nil]
    exact gives_step conv true c out
  | cons piece pieces ih =>
    have hf' : InJson { c with buf := c.buf ++ piece } := ⟨hf.format, hf.noParams, hf.noClose⟩
    rw [feedOnto]
    generalize hfeed : step conv { c with buf := c.buf ++ piece } out false = r
    obtain ⟨c', first⟩ := r
    have hgives := (ih (hf'.step hfeed)).step_before hf' hfeed
    dsimp only at hgives
    rw [List.append_assoc] at hgives
    exact hgives

end Giving

section Reads

variable {c : ToolCallSplit} {out : ToolCallParts} {free single : Bool} {s lead rest : Bytes}
  {content : Bytes} {calls : List ToolCall} {r : ToolCallSplit × ToolCallParts}

/-- The contents and calls a text may have in the JSON format, where an opening may be given up. -/
inductive Reads (conv : Json.Conversion δ) (free single : Bool) :
    Bytes → Bytes → List ToolCall → Prop
  | plain {s : Bytes} (hs : split toolOpen s = none) : Reads conv free single s s []
  | refused {s lead rest content : Bytes} {calls : List ToolCall}
      (hs : split toolOpen s = some (lead, rest))
      (hx : free = true ∨ ∀ call, jsonHead conv rest ≠ .opens call)
      (h : Reads conv free single rest content calls) :
      Reads conv free single s (lead ++ toolOpen ++ content) calls
  | endless {s lead rest name inner : Bytes} (hs : split toolOpen s = some (lead, rest))
      (hx : jsonHead conv rest = .opens (name, inner)) (hc : split toolClose inner = none) :
      Reads conv free single s (lead.rdropWhile blank) [⟨name, ToolCallSplit.closed inner⟩]
  | last {s lead rest name inner args after : Bytes} (hsingle : single = true)
      (hs : split toolOpen s = some (lead, rest)) (hx : jsonHead conv rest = .opens (name, inner))
      (hc : split toolClose inner = some (args, after)) :
      Reads conv free single s (lead.rdropWhile blank) [⟨name, ToolCallSplit.closed args⟩]
  | closed {s lead rest name inner args after content : Bytes} {calls : List ToolCall}
      (hsingle : single = false) (hs : split toolOpen s = some (lead, rest))
      (hx : jsonHead conv rest = .opens (name, inner))
      (hc : split toolClose inner = some (args, after))
      (h : Reads conv free single after content calls) :
      Reads conv free single s (lead.rdropWhile blank ++ content.dropWhile blank)
        (⟨name, ToolCallSplit.closed args⟩ :: calls)

/-- Where no opening that parses is given up, a text has the content and the calls read from it. -/
theorem Reads.whole (h : Reads conv false single s content calls) :
    content = (readJson conv single s).content ∧ calls = (readJson conv single s).calls := by
  induction h with
  | plain hs =>
    rw [readJson_none hs]
    exact ⟨Eq.refl _, Eq.refl _⟩
  | refused hs hx h ih =>
    rw [readJson_refused hs (hx.resolve_left Bool.false_ne_true), ih.1, ih.2]
    exact ⟨Eq.refl _, Eq.refl _⟩
  | endless hs hx hc =>
    rw [readJson_endless hs hx hc]
    exact ⟨Eq.refl _, Eq.refl _⟩
  | last hsingle hs hx hc =>
    rw [readJson_closed hs hx hc, readAfter, if_pos hsingle]
    exact ⟨(List.append_nil _).symm, Eq.refl _⟩
  | closed hsingle hs hx hc h ih =>
    rw [readJson_closed hs hx hc, readAfter, if_neg (by simp [hsingle]), ih.1, ih.2]
    exact ⟨Eq.refl _, Eq.refl _⟩

/-- The calls a text may have are among its own, one after another. -/
theorem Reads.picks (h : Reads conv free single s content calls) : Picks conv s calls := by
  induction h with
  | plain hs => exact .nothing _
  | refused hs hx h ih =>
    rw [split_place hs]
    exact (ih.prepend _).prepend _
  | endless hs hx hc =>
    rw [split_place hs]
    exact .endless hx hc
  | last hsingle hs hx hc =>
    rw [split_place hs]
    exact .closed hx hc (.nothing _)
  | closed hsingle hs hx hc h ih =>
    rw [split_place hs]
    exact .closed hx hc ih

/-- Text before the first angle bracket stays in the content. -/
theorem Reads.starts {v y : Bytes} (h : Reads conv free single (v ++ y) content calls)
    (hv : '<'.toUInt8 ∉ v) (htrim : v.rdropWhile blank = v) : ∃ more, content = v ++ more := by
  have hlead : ∀ {lead rest : Bytes}, split toolOpen (v ++ y) = some (lead, rest) →
      ∃ m, lead = v ++ m := by
    intro lead rest hs
    have hplace := split_after (y := y) (show toolOpen.head? = some '<'.toUInt8 from Eq.refl _) hv
    obtain ⟨parts, -, hparts⟩ := Option.map_eq_some_iff.mp (hplace.symm.trans hs)
    exact ⟨parts.1, (congrArg Prod.fst hparts).symm⟩
  cases h with
  | plain hs => exact ⟨y, Eq.refl _⟩
  | refused hs hx h =>
    obtain ⟨m, rfl⟩ := hlead hs
    exact ⟨_, by rw [List.append_assoc, List.append_assoc]⟩
  | endless hs hx hc =>
    obtain ⟨m, rfl⟩ := hlead hs
    exact ⟨_, rdropWhile_append htrim⟩
  | last hsingle hs hx hc =>
    obtain ⟨m, rfl⟩ := hlead hs
    exact ⟨_, rdropWhile_append htrim⟩
  | closed hsingle hs hx hc h =>
    obtain ⟨m, rfl⟩ := hlead hs
    exact ⟨_, by rw [rdropWhile_append htrim, List.append_assoc]⟩

/-- The loop at an opening tag, what is before the tag put out but for its last blanks. -/
structure Ahead (c : ToolCallSplit) (out : ToolCallParts) (lead rest : Bytes) (d : ToolCallSplit)
    (out' : ToolCallParts) : Prop where
  state : d.state = .head
  buf : d.buf = rest
  single : d.single = c.single
  calls : out'.calls = out.calls
  space : lead.rdropWhile blank ++ d.space = lead
  text : ∀ s, (d.text out' s).2.content = (c.text out (lead.rdropWhile blank ++ s)).2.content

/-- The loop after a call, the text before it and the call put out. -/
structure Ended (c : ToolCallSplit) (out : ToolCallParts) (call : ToolCall) (buf : Bytes)
    (d : ToolCallSplit) (out' : ToolCallParts) : Prop where
  state : d.state = if c.single = true then .done else .text
  buf : d.buf = buf
  single : d.single = c.single
  after : d.afterCall = true
  content : out'.content = out.content
  calls : gatherCalls [] out'.calls = gatherCalls [] out.calls ++ [call]

theorem Gives.text_cases (hf : InJson c) (hs : c.state = .text) (hk : Kept c out)
    (h : Gives conv free c out r) : (split toolOpen c.buf = none ∧ r.2 = (c.text out c.buf).2) ∨
      ∃ lead rest d out', split toolOpen c.buf = some (lead, rest) ∧ Ahead c out lead rest d out' ∧
        InJson d ∧ Kept d out' ∧ Gives conv free d out' r := by
  have hturn : c.turn conv out true = _ := turn_text hs out true
  unfold turnText at hturn
  cases hsplit : split toolOpen c.buf with
  | none =>
    rw [hsplit] at hturn
    dsimp only at hturn
    rw [if_pos (Eq.refl _)] at hturn
    cases h with
    | turn h hd => cases hturn.symm.trans h
    | stop h =>
      cases hturn.symm.trans h
      exact .inl ⟨Eq.refl _, Eq.refl _⟩
    | givesUp hfree hs' h => cases hs.symm.trans hs'
  | some parts =>
    obtain ⟨lead, rest⟩ := parts
    rw [hsplit] at hturn
    cases h with
    | turn h hd =>
      have hin := hf.turn h
      have hkept := hk.turn hf h
      cases hturn.symm.trans h
      refine .inr ⟨lead, rest, _, _, Eq.refl _, ?_, hin, hkept, hd⟩
      refine ⟨Eq.refl _, Eq.refl _, Eq.refl _, Eq.refl _, ?_, fun s => ?_⟩
      · show _ ++ lead.drop _ = lead
        rw [drop_trimmed]
        exact List.rdropWhile_append_rtakeWhile
      · rw [text_append]
        exact Eq.refl _
    | stop h => cases hturn.symm.trans h
    | givesUp hfree hs' h => cases hs.symm.trans hs'

theorem turn_head_last (hf : InJson c) (hs : c.state = .head) (out : ToolCallParts) :
    (∃ name inner, jsonHead conv c.buf = .opens (name, inner) ∧ c.turn conv out true =
      ({ (c.start out name).1 with buf := inner, state := .jsonArgs }, (c.start out name).2, true)) ∨
      ((∀ call, jsonHead conv c.buf ≠ .opens call) ∧
        c.turn conv out true = ((c.refuse out).1, (c.refuse out).2, true)) := by
  rw [turn_head hs]
  unfold turnHead
  rw [hf.head]
  cases hx : jsonHead conv c.buf with
  | opens call =>
    obtain ⟨name, inner⟩ := call
    refine .inl ⟨name, inner, Eq.refl _, ?_⟩
    dsimp only [start]
    rw [if_pos hf.format]
  | may =>
    refine .inr ⟨fun call hcall => ?_, ?_⟩
    · cases hcall
    · dsimp only
      rw [if_pos (.inl (Eq.refl _))]
  | cannot =>
    refine .inr ⟨fun call hcall => ?_, Eq.refl _⟩
    cases hcall

/-- What a call's text has between its opening and its end, and the text after it. -/
def CallText (inner args after : Bytes) : Prop :=
  (split toolClose inner = none ∧ args = inner ∧ after = []) ∨
    split toolClose inner = some (args, after)

theorem turn_args_last (conv : Json.Conversion δ) (c : ToolCallSplit) (hs : c.state = .jsonArgs)
    (out : ToolCallParts) :
    ∃ args after, CallText c.buf args after ∧ c.turn conv out true =
      (endCall { c with buf := after }, c.arguments out (closed args), true) := by
  rw [turn_json hs]
  unfold turnJson
  cases hsplit : split toolClose c.buf with
  | none =>
    refine ⟨c.buf, [], .inl ⟨hsplit, Eq.refl _, Eq.refl _⟩, ?_⟩
    dsimp only
    rw [if_pos (Eq.refl _)]
    exact Eq.refl _
  | some parts =>
    obtain ⟨args, after⟩ := parts
    exact ⟨args, after, .inr hsplit, Eq.refl _⟩

theorem Gives.next (hs : c.state ≠ .head) {d : ToolCallSplit} {out' : ToolCallParts}
    (hturn : c.turn conv out true = (d, out', true)) (h : Gives conv free c out r) :
    Gives conv free d out' r := by
  cases h with
  | turn h hd =>
    cases hturn.symm.trans h
    exact hd
  | stop h => cases hturn.symm.trans h
  | givesUp hfree hs' h => exact absurd hs' hs

theorem Gives.head_cases (hf : InJson c) (hs : c.state = .head) (hk : Kept c out)
    (h : Gives conv free c out r) :
    (∃ name inner args after d out', jsonHead conv c.buf = .opens (name, inner) ∧
      CallText inner args after ∧ Ended c out ⟨name, closed args⟩ after d out' ∧
        InJson d ∧ Kept d out' ∧ Gives conv free d out' r) ∨
      ((free = true ∨ ∀ call, jsonHead conv c.buf ≠ .opens call) ∧
        Gives conv free (c.refuse out).1 (c.refuse out).2 r) := by
  cases h with
  | givesUp hfree hs' h => exact .inr ⟨.inl hfree, h⟩
  | turn h hd =>
    rcases turn_head_last hf hs out with ⟨name, inner, hx, hturn⟩ | ⟨hx, hturn⟩
    · have hin := hf.turn hturn
      have hkept := hk.turn hf hturn
      have hgathered := gathered_start hk.gathered name
      cases hturn.symm.trans h
      obtain ⟨args, after, htext, hargs⟩ := turn_args_last conv
        { (c.start out name).1 with buf := inner, state := .jsonArgs } (Eq.refl _)
        (c.start out name).2
      refine .inl ⟨name, inner, args, after, _, _, hx, htext, ?_, hin.turn hargs,
        hkept.turn hin hargs, hd.next (by rintro ⟨⟩) hargs⟩
      refine ⟨Eq.refl _, Eq.refl _, Eq.refl _, Eq.refl _, arguments_content _ _ _, ?_⟩
      exact gathered_arguments hgathered (congrArg (· + 1) hk.gathered.symm) _
    · cases hturn.symm.trans h
      exact .inr ⟨.inr hx, hd⟩
  | stop h =>
    rcases turn_head_last hf hs out with ⟨name, inner, -, hturn⟩ | ⟨-, hturn⟩
    · cases hturn.symm.trans h
    · cases hturn.symm.trans h

theorem Gives.done_parts (hs : c.state = .done) (h : Gives conv free c out r) : r.2 = out := by
  have hturn : c.turn conv out true = ({ c with buf := [] }, out, false) := by
    unfold ToolCallSplit.turn
    rw [hs]
  cases h with
  | turn h hd => cases hturn.symm.trans h
  | stop h =>
    cases hturn.symm.trans h
    exact Eq.refl _
  | givesUp hfree hs' h => cases hs.symm.trans hs'

/-- What is given from a text on. -/
structure Given (conv : Json.Conversion δ) (free : Bool) (c : ToolCallSplit) (out : ToolCallParts)
    (r : ToolCallSplit × ToolCallParts) (content : Bytes) (calls : List ToolCall) : Prop where
  reads : Reads conv free c.single c.buf content calls
  content : r.2.content = (c.text out content).2.content
  calls : gatherCalls [] r.2.calls = gatherCalls [] out.calls ++ calls

theorem refuse_text (c : ToolCallSplit) (out : ToolCallParts) (s : Bytes) :
    ((c.refuse out).1.text (c.refuse out).2 s).2 =
      (c.text out (c.space ++ toolOpen ++ s)).2 := by
  rw [text_append]
  exact Eq.refl _

theorem text_trimmed (c : ToolCallSplit) (out : ToolCallParts) (s : Bytes) :
    (c.text out (s.dropWhile blank)).2.content = out.content ++ s.dropWhile blank := by
  unfold text
  dsimp only
  split
  next => rw [List.dropWhile_idempotent]
  next => exact Eq.refl _

/-- A call's end leaves what is read of the text after it, and nothing where the call is the one. -/
theorem Gives.after_call {call : ToolCall} {after : Bytes} {d : ToolCallSplit}
    {out' : ToolCallParts} (hended : Ended c out call after d out') (h : Gives conv free d out' r)
    (hread : d.state = .text → ∃ content calls, Given conv free d out' r content calls) :
    ∃ content calls, ((c.single = true ∧ content = [] ∧ calls = []) ∨
      (c.single = false ∧ Reads conv free false after content calls)) ∧
      r.2.content = out.content ++ content.dropWhile blank ∧
      gatherCalls [] r.2.calls = gatherCalls [] out.calls ++ call :: calls := by
  have hstate := hended.state
  cases hsingle : c.single with
  | true =>
    rw [if_pos hsingle] at hstate
    refine ⟨[], [], .inl ⟨Eq.refl _, Eq.refl _, Eq.refl _⟩, ?_, ?_⟩
    · rw [h.done_parts hstate, hended.content, List.dropWhile_nil, List.append_nil]
    · rw [h.done_parts hstate, hended.calls]
  | false =>
    rw [if_neg (by rw [hsingle]; exact Bool.false_ne_true)] at hstate
    obtain ⟨content, calls, hgiven⟩ := hread hstate
    have hreads := hgiven.reads
    rw [hended.single, hended.buf, hsingle] at hreads
    refine ⟨content, calls, .inr ⟨Eq.refl _, hreads⟩, ?_, ?_⟩
    · rw [hgiven.content, ← hended.content]
      unfold text
      rw [hended.after]
      exact Eq.refl _
    · rw [hgiven.calls, hended.calls, List.append_assoc, List.singleton_append]

theorem Reads.of_nil (h : Reads conv free single [] content calls) : content = [] ∧ calls = [] := by
  cases h with
  | plain hs => exact ⟨Eq.refl _, Eq.refl _⟩
  | refused hs => cases hs
  | endless hs => cases hs
  | last _ hs => cases hs
  | closed _ hs => cases hs

theorem Reads.call {name inner args after : Bytes} (hs : split toolOpen s = some (lead, rest))
    (hx : jsonHead conv rest = .opens (name, inner)) (htext : CallText inner args after)
    (h : (single = true ∧ content = [] ∧ calls = []) ∨
      (single = false ∧ Reads conv free false after content calls)) :
    Reads conv free single s (lead.rdropWhile blank ++ content.dropWhile blank)
      (⟨name, ToolCallSplit.closed args⟩ :: calls) := by
  rcases htext with ⟨hnone, rfl, rfl⟩ | hclose
  · have hnil : content = [] ∧ calls = [] := by
      rcases h with ⟨-, hcontent, hcalls⟩ | ⟨-, hreads⟩
      · exact ⟨hcontent, hcalls⟩
      · exact hreads.of_nil
    rw [hnil.1, hnil.2, List.dropWhile_nil, List.append_nil]
    exact .endless hs hx hnone
  · rcases h with ⟨hsingle, rfl, rfl⟩ | ⟨rfl, hreads⟩
    · rw [List.dropWhile_nil, List.append_nil]
      exact .last hsingle hs hx hclose
    · exact .closed (Eq.refl _) hs hx hclose hreads

theorem Gives.given (n : Nat) : ∀ {c : ToolCallSplit} {out : ToolCallParts}, c.buf.length ≤ n →
    InJson c → c.state = .text → Kept c out → Gives conv free c out r →
    ∃ content calls, Given conv free c out r content calls := by
  induction n using Nat.strong_induction_on with
  | _ n ih =>
    intro c out hn hf hs hk h
    rcases h.text_cases hf hs hk with ⟨hsplit, hr⟩ |
      ⟨lead, rest, d, out1, hsplit, hahead, hf1, hk1, h⟩
    · exact ⟨c.buf, [], .plain hsplit, congrArg _ hr, by rw [hr, List.append_nil]; exact Eq.refl _⟩
    have hlt := split_lt toolOpen_ne hsplit
    rcases h.head_cases hf1 hahead.state hk1 with
      ⟨name, inner, args, after, e, out2, hx, htext, hended, hf2, hk2, h⟩ | ⟨hx, h⟩
    · rw [hahead.buf] at hx
      have hin := jsonHead_lt hx
      have hlen : e.buf.length < n := by
        rw [hended.buf]
        rcases htext with ⟨-, -, rfl⟩ | hclose
        · rw [List.length_nil]
          omega
        · have hafter := split_lt toolClose_ne hclose
          omega
      obtain ⟨content, calls, hreads, hcontent, hcalls⟩ := h.after_call hended fun hstate =>
        ih _ hlen (Nat.le_refl _) hf2 hstate hk2 h
      rw [hahead.single] at hreads
      refine ⟨_, _, .call hsplit hx htext hreads, ?_, ?_⟩
      · rw [hcontent, ← hahead.text, text_trimmed]
      · rw [hcalls, hahead.calls]
    · have hlen : (d.refuse out1).1.buf.length < n := by
        show d.buf.length < n
        rw [hahead.buf]
        omega
      obtain ⟨content, calls, hgiven⟩ :=
        ih _ hlen (Nat.le_refl _) (hf1.refuse out1) (Eq.refl _) hk1.refuse h
      have hreads : Reads conv free d.single d.buf content calls := hgiven.reads
      rw [hahead.single, hahead.buf] at hreads
      rw [hahead.buf] at hx
      refine ⟨lead ++ toolOpen ++ content, calls, .refused hsplit hx hreads, ?_, ?_⟩
      · rw [hgiven.content, refuse_text, hahead.text, ← List.append_assoc, ← List.append_assoc,
          hahead.space]
      · rw [hgiven.calls]
        show gatherCalls [] out1.calls ++ _ = _
        rw [hahead.calls]

end Reads

section Apart

variable {c d : ToolCallSplit} {out out' : ToolCallParts} {s p : Bytes} {pieces : List Bytes}
  {r r' : ToolCallSplit × ToolCallParts}

/-- A client has another content or other calls of one reply than of the other. -/
def Apart (r r' : ToolCallSplit × ToolCallParts) : Prop :=
  ¬ (r.2.content = r'.2.content ∧ gatherCalls [] r.2.calls = gatherCalls [] r'.2.calls)

/-- The content of an opening given up has its name's key. -/
theorem Reads.key {free single : Bool} {content : Bytes} {calls : List ToolCall}
    {call : Bytes × Bytes} (h : Reads conv free single s content calls)
    (hx : jsonHead conv s = .opens call) : ∃ x y,
      content = x ++ '"'.toUInt8 :: 'n'.toUInt8 :: y ∧ '"'.toUInt8 ∉ x ∧ '\\'.toUInt8 ∉ x := by
  obtain ⟨pre, body, mid, hparts⟩ := jsonHead_parts hx
  obtain ⟨x, z, hpre, hquote, hslash⟩ := hparts.starts
  have hv : '<'.toUInt8 ∉ x ++ ['"'.toUInt8] ++ ['n'.toUInt8] := by
    intro hmem
    refine hparts.before ?_
    rw [hpre]
    simp only [List.append_assoc, List.singleton_append] at hmem
    rcases List.mem_append.mp hmem with hmem | hmem
    · exact List.mem_append_left _ hmem
    · exact absurd hmem (by decide)
  have hs : s = x ++ ['"'.toUInt8] ++ ['n'.toUInt8] ++ (z ++ (body ++ (mid ++ call.2))) := by
    rw [hparts.whole, hpre]
    simp only [List.append_assoc, List.cons_append, List.nil_append]
  rw [hs] at h
  obtain ⟨more, rfl⟩ := h.starts hv (List.rdropWhile_concat_neg blank _ _ (by decide))
  refine ⟨x, more, ?_, hquote, hslash⟩
  rw [List.append_assoc, List.append_assoc]
  exact Eq.refl _

theorem text_tag (c : ToolCallSplit) (out : ToolCallParts) {space : Bytes} (s : Bytes)
    (hspace : ∀ b ∈ space, blank b = true) : ∃ sp, (∀ b ∈ sp, blank b = true) ∧
      (c.text out (space ++ toolOpen ++ s)).2.content = out.content ++ (sp ++ (toolOpen ++ s)) := by
  unfold text
  rw [List.append_assoc]
  cases c.afterCall with
  | false => exact ⟨space, hspace, Eq.refl _⟩
  | true =>
    refine ⟨[], fun _ hb => absurd hb List.not_mem_nil, ?_⟩
    dsimp only
    rw [if_pos (Eq.refl _), List.dropWhile_append_of_pos hspace]
    exact Eq.refl _

/-- Where an opening that parses is given up, a client has something else. -/
theorem halted_apart (hf : InJson c) (hk : Kept c out) (h : Halted conv c p)
    (hr : Gives conv true { (c.refuse out).1 with buf := c.buf ++ p } (c.refuse out).2 r) :
    Apart r (step conv { c with buf := c.buf ++ p } out true) := by
  intro ⟨hcontent, hcalls⟩
  have hf' : InJson { c with buf := c.buf ++ p } := ⟨hf.format, hf.noParams, hf.noClose⟩
  have hk' : Kept { c with buf := c.buf ++ p } out := ⟨hk.gathered, hk.inside, hk.space⟩
  have hfu : InJson { (c.refuse out).1 with buf := c.buf ++ p } :=
    ⟨hf.format, by rintro ⟨⟩, by rintro ⟨⟩⟩
  have hku : Kept { (c.refuse out).1 with buf := c.buf ++ p } (c.refuse out).2 :=
    ⟨hk.refuse.gathered, hk.refuse.inside, hk.refuse.space⟩
  obtain ⟨streamed, picked, hgiven⟩ := hr.given _ (Nat.le_refl _) hfu (Eq.refl _) hku
  have hcontent' : r.2.content = (c.text out (c.space ++ toolOpen ++ streamed)).2.content := by
    rw [hgiven.content, ← refuse_text]
    exact Eq.refl _
  have hwhole := gives_step conv false { c with buf := c.buf ++ p } out
  rcases hwhole.head_cases hf' h.state hk' with
    ⟨name, inner, args, after, d, out', hx, htext, hended, hf2, hk2, hd⟩ | ⟨hno, -⟩
  · obtain ⟨content, calls, hreads, hwhole, hgathered⟩ := hd.after_call hended fun hstate =>
      hd.given _ (Nat.le_refl _) hf2 hstate hk2
    obtain ⟨sp, hsp, htag⟩ := text_tag c out streamed hk.space
    have hsame : sp ++ (toolOpen ++ streamed) = content.dropWhile blank :=
      List.append_cancel_left (htag.symm.trans (hcontent'.symm.trans (hcontent.trans hwhole)))
    have hpicked : picked = ⟨name, closed args⟩ :: calls :=
      List.append_cancel_left (hgiven.calls.symm.trans (hcalls.trans hgathered))
    have hne : content ≠ [] := by
      intro hnil
      rw [hnil, List.dropWhile_nil] at hsame
      exact toolOpen_ne (List.append_eq_nil_iff.mp (List.append_eq_nil_iff.mp hsame).2).1
    rcases hreads with ⟨-, hnil, -⟩ | ⟨-, hreads⟩
    · exact hne hnil
    rcases htext with ⟨-, -, rfl⟩ | hclose
    · exact hne hreads.of_nil.1
    obtain ⟨hread, hcalls⟩ := hreads.whole
    have hpicks := hgiven.reads.picks
    rw [hpicked] at hpicks
    have hname : NameRest after := hpicks.spans hx hclose hcalls
    obtain ⟨x, y, rfl, hquote, hslash⟩ := hgiven.reads.key hx
    rw [hread, ← List.append_assoc, ← List.append_assoc] at hsame
    refine hname.apart ?_ ?_ hsame
    · simp only [List.mem_append, not_or]
      exact ⟨⟨not_mem_of_blank hsp (by decide), toolOpen_plain.quote⟩, hquote⟩
    · simp only [List.mem_append, not_or]
      exact ⟨⟨not_mem_of_blank hsp (by decide), toolOpen_plain.slash⟩, hslash⟩
  · obtain ⟨call, hopens⟩ := h.opens
    unfold ToolCallSplit.head at hopens
    rw [if_pos (by exact hf.format)] at hopens
    exact (hno.resolve_left Bool.false_ne_true) call hopens

/-- What is held back of a text is blanks and the start of a tag. -/
theorem not_mem_held {tag s : Bytes} {b : UInt8} (hb : blank b = false) (htag : b ∉ tag) :
    b ∉ s.drop ((s.take (s.length - overlap tag s)).rdropWhile blank).length := by
  have hle : overlap tag s ≤ min s.length (tag.length - 1) := overlapFrom_le tag s _
  have hend := List.suffix_iff_eq_drop.mp (overlap_suffix tag s)
  rw [List.length_take_of_le (by omega)] at hend
  have htake := List.take_append_drop (s.length - overlap tag s) s
  rw [← hend] at htake
  generalize s.take (s.length - overlap tag s) = a at htake
  generalize overlap tag s = k at htake
  have hlead : a.rdropWhile blank ++ a.rtakeWhile blank = a := List.rdropWhile_append_rtakeWhile
  have hs : s = a.rdropWhile blank ++ (a.rtakeWhile blank ++ tag.take k) := by
    rw [← List.append_assoc, hlead, htake]
  rw [hs, List.drop_left]
  intro hmem
  rcases List.mem_append.mp hmem with hmem | hmem
  · exact not_mem_of_blank (fun c hc => List.mem_rtakeWhile_imp hc) hb hmem
  · exact htag (List.mem_of_mem_take hmem)

/-- What waits for more of the text has no tag that closes a call. -/
theorem turn_rest (hf : InJson c) (h : c.turn conv out false = (d, out', false)) :
    split toolClose d.buf = none := by
  unfold ToolCallSplit.turn at h
  split at h
  next =>
    cases h
    exact Eq.refl _
  next =>
    unfold turnText at h
    split at h
    next => cases h
    next =>
      cases h
      rw [split_none toolClose_ne]
      intro hin
      exact not_mem_held (b := '/'.toUInt8) (by decide) (by decide) (hin.subset (by decide))
  next =>
    unfold turnHead at h
    split at h
    next => cases h
    next =>
      split at h
      next =>
        generalize c.refuse out = r at h
        cases h
      next hwait =>
        cases h
        exact Option.not_isSome_iff_eq_none.mp fun hclosing => hwait (.inr hclosing)
    next =>
      generalize c.refuse out = r at h
      cases h
  next =>
    unfold turnJson at h
    split at h
    next => cases h
    next hno =>
      rw [if_neg Bool.false_ne_true] at h
      cases h
      rw [split_none toolClose_ne] at hno ⊢
      exact fun hin => hno (hin.trans (List.drop_suffix _ _).isInfix)
  next hs => exact absurd hs hf.noParams
  next hs => exact absurd hs hf.noClose

/-- An opening that is cut short is not one that has been decided. -/
theorem CutShort.undecided {decided : List Bytes}
    (h : CutShort conv (decided ++ toOpen conv d pieces.flatten) pieces)
    (hdecides : ∀ rest ∈ decided, rest = c.buf ++ pieces.flatten ∧
      (jsonHead conv c.buf ≠ .may ∨ ∀ call, jsonHead conv rest ≠ .opens call)) :
    CutShort conv (toOpen conv d pieces.flatten) pieces := by
  obtain ⟨rest, hrest, k, u, hu, ⟨call, hopens⟩, hmay, hclosing⟩ := h
  rcases List.mem_append.mp hrest with hrest | hrest
  · obtain ⟨hbuf, hwhy⟩ := hdecides rest hrest
    rcases hwhy with hwhy | hwhy
    · exfalso
      have hsuffix : (pieces.drop k).flatten <:+ pieces.flatten :=
        (List.drop_suffix k pieces).flatten
      obtain ⟨q, hq⟩ := hsuffix
      have hlong : u = c.buf ++ q := by
        rw [hbuf, ← hq, ← List.append_assoc] at hu
        exact List.append_cancel_right hu
      rw [hlong] at hmay
      have hsettled : _ ∧ (jsonHead conv c.buf = .cannot → _) := jsonHead_settled c.buf q
      cases hx : jsonHead conv c.buf with
      | opens call =>
        cases hmay.symm.trans (hsettled.1 call.1 call.2 hx)
      | may => exact hwhy hx
      | cannot => cases hmay.symm.trans (hsettled.2 hx)
    · exact absurd hopens (hwhy call)
  · exact ⟨rest, hrest, k, u, hu, ⟨call, hopens⟩, hmay, hclosing⟩

/-- The loop until it waits for more of the text, an opening to come being cut short. -/
theorem step_cut (hf : InJson c) (hk : Kept c out) (h : c.step conv out false = (d, out'))
    (hcut : CutShort conv (toOpen conv c pieces.flatten) pieces) :
    Apart (d.feedOnto conv out' pieces)
        (step conv { c with buf := c.buf ++ pieces.flatten } out true) ∨
      (CutShort conv (toOpen conv d pieces.flatten) pieces ∧ split toolClose d.buf = none ∧
        step conv { c with buf := c.buf ++ pieces.flatten } out true =
          step conv { d with buf := d.buf ++ pieces.flatten } out' true) := by
  generalize hlast : false = last at h
  fun_induction ToolCallSplit.step conv c out last with
  | case1 c out c' out1 hturn ih =>
    subst hlast
    by_cases hhalted : Halted conv c pieces.flatten
    · obtain ⟨rfl, rfl, -⟩ := hhalted.turn hturn
      exact .inl (halted_apart hf hk hhalted
        ((gives_feedOnto ((hf.refuse out).step h)).step_before (hf.refuse out) h))
    · obtain ⟨decided, hpasses⟩ := turn_passes hf hhalted hturn
      rw [hpasses.openings] at hcut
      have hlater := turn_later hhalted hturn
      rw [hlater]
      exact ih (hf.turn hturn) (hk.turn hf hturn) (hcut.undecided hpasses.decides) h
  | case2 c out c' out1 hturn =>
    subst hlast
    cases h
    have hno : ¬ Halted conv c pieces.flatten := by
      intro hhalted
      cases (hhalted.turn hturn).2.2
    obtain ⟨decided, hpasses⟩ := turn_passes hf hno hturn
    rw [hpasses.openings] at hcut
    exact .inr ⟨hcut.undecided hpasses.decides, turn_rest hf hturn, turn_later hno hturn⟩

theorem readAfter_suffix {single : Bool} :
    ∀ rest ∈ (readAfter conv single s).openings, rest <:+ s := by
  unfold readAfter
  split
  next => exact fun rest hrest => absurd hrest List.not_mem_nil
  next =>
    intro rest hrest
    exact (List.suffix_append _ _).trans (openings_place rest hrest)

theorem argsOpenings_suffix {single : Bool} :
    ∀ rest ∈ argsOpenings conv single s, rest <:+ s := by
  unfold argsOpenings
  cases hc : split toolClose s with
  | none => exact fun rest hrest => absurd hrest List.not_mem_nil
  | some parts =>
    intro rest hrest
    exact (readAfter_suffix rest hrest).trans ⟨parts.1 ++ toolClose, (split_eq hc).symm⟩

theorem headOpenings_suffix {single : Bool} :
    ∀ rest ∈ headOpenings conv single s, rest <:+ s := by
  have hrefused : ∀ rest ∈ (readJson conv single s).openings, rest <:+ s := fun rest hrest =>
    (List.suffix_append _ _).trans (openings_place rest hrest)
  unfold headOpenings
  intro rest hmem
  rcases List.mem_cons.mp hmem with rfl | hrest
  · exact List.suffix_refl _
  cases hx : jsonHead conv s with
  | opens call =>
    rw [hx] at hrest
    obtain ⟨k, hk⟩ := jsonHead_suffix hx
    rw [hk]
    exact (argsOpenings_suffix rest hrest).trans (List.suffix_append k call.2)
  | may =>
    rw [hx] at hrest
    exact hrefused rest hrest
  | cannot =>
    rw [hx] at hrest
    exact hrefused rest hrest

theorem toOpen_suffix : ∀ rest ∈ toOpen conv c p, rest <:+ c.buf ++ p := by
  intro rest hrest
  unfold toOpen at hrest
  split at hrest
  next => exact (List.suffix_append _ _).trans (openings_place rest hrest)
  next => exact headOpenings_suffix rest hrest
  next => exact argsOpenings_suffix rest hrest
  next => exact absurd hrest List.not_mem_nil
  next => exact absurd hrest List.not_mem_nil
  next => exact absurd hrest List.not_mem_nil

/-- Where an opening is cut short, the pieces and the end give something else than the whole. -/
theorem feedOnto_cut (hf : InJson c) (hk : Kept c out) (hrest : split toolClose c.buf = none)
    (hcut : CutShort conv (toOpen conv c pieces.flatten) pieces) :
    Apart (c.feedOnto conv out pieces)
      (step conv { c with buf := c.buf ++ pieces.flatten } out true) := by
  induction pieces generalizing c out with
  | nil =>
    obtain ⟨rest, -, k, u, hu, ⟨call, hopens⟩, hmay, -⟩ := hcut
    rw [List.drop_nil, List.flatten_nil, List.append_nil] at hu
    rw [hu, hopens] at hmay
    cases hmay
  | cons piece pieces ih =>
    obtain ⟨rest, hmem, k, u, hu, hopens, hmay, hclosing⟩ := hcut
    cases k with
    | zero =>
      obtain ⟨q, hq⟩ := toOpen_suffix rest hmem
      rw [← hu, List.drop_zero, ← List.append_assoc] at hq
      have hbuf : q ++ u = c.buf := List.append_cancel_right hq
      obtain ⟨parts, hparts⟩ := Option.isSome_iff_exists.mp hclosing
      refine absurd ?_ ((split_none toolClose_ne).mp hrest)
      rw [← hbuf, split_eq hparts]
      exact ⟨q ++ parts.1, parts.2, by simp only [List.append_assoc]⟩
    | succ k =>
      have hf' : InJson { c with buf := c.buf ++ piece } := ⟨hf.format, hf.noParams, hf.noClose⟩
      have hk' : Kept { c with buf := c.buf ++ piece } out := ⟨hk.gathered, hk.inside, hk.space⟩
      rw [List.flatten_cons, ← toOpen_append] at hmem
      rw [feedOnto]
      generalize hfeed : step conv { c with buf := c.buf ++ piece } out false = r
      obtain ⟨d, out'⟩ := r
      rw [List.flatten_cons, ← List.append_assoc]
      rcases step_cut hf' hk' hfeed ⟨rest, hmem, k, u, hu, hopens, hmay, hclosing⟩ with
        hapart | ⟨hcut, hwaits, hsame⟩
      · exact hapart
      · dsimp only at hsame ⊢
        rw [hsame]
        exact ih (hf'.step hfeed) (hk'.step hf' hfeed) hwaits hcut

end Apart

section Settled

/-- Where an opening is cut short, a reply in pieces is not the reply at once. -/
theorem reply_cut {single : Bool} {pieces : List Bytes} (typed : ToolTypes)
    (hcut : CutShort conv (readJson conv single pieces.flatten).openings pieces) :
    reply (replyParts conv .json typed single pieces) ≠
      reply (replyParts conv .json typed single [pieces.flatten]) := by
  have hf : InJson (new .json typed single) := ⟨Eq.refl _, by rintro ⟨⟩, by rintro ⟨⟩⟩
  have hk : Kept (new .json typed single) ⟨[], []⟩ :=
    ⟨Eq.refl _, by rintro ⟨⟩, fun _ hb => absurd hb List.not_mem_nil⟩
  intro hsame
  rw [reply_onto, reply_whole] at hsame
  exact feedOnto_cut hf hk (Eq.refl _) hcut
    ⟨congrArg Reply.content hsame, congrArg Reply.gathered hsame⟩

/-- A reply in pieces is the reply at once but where one of its openings is cut short. -/
theorem reply_pieces (conv : Json.Conversion δ) (format : ToolFormat) (typed : ToolTypes)
    (single : Bool) (pieces : List Bytes) :
    reply (replyParts conv format typed single pieces) =
        reply (replyParts conv format typed single [pieces.flatten]) ↔
      ¬ (format = .json ∧ CutShort conv (readJson conv single pieces.flatten).openings pieces) := by
  constructor
  · rintro hsame ⟨rfl, hcut⟩
    exact reply_cut typed hcut hsame
  · intro h
    exact reply_uncut format typed fun hf hcut => h ⟨hf, hcut⟩

/-- The opening of a call whose name has a closing tag, cut after it, and the rest of the call. -/
def cutName : List Bytes :=
  [toolOpen ++ ascii ['\x7b', '"', 'n', 'a', 'm', 'e', '"', ':', ' ', '"', 'a'] ++ toolClose ++
      ascii ['b'],
    ascii ['"', ',', ' ', '"', 'a', 'r', 'g', 'u', 'm', 'e', 'n', 't', 's', '"', ':', ' ', '\x7b',
      '\x7d', '\x7d'] ++ toolClose]

theorem name_cut_short :
    reply (replyParts (⟨fun _ => none, fun _ => true⟩ : Json.Conversion Unit) .json [] false
        cutName) ≠
      reply (replyParts (⟨fun _ => none, fun _ => true⟩ : Json.Conversion Unit) .json [] false
        [cutName.flatten]) := by
  refine reply_cut [] ⟨_, ?_, 1, ascii ['\x7b', '"', 'n', 'a', 'm', 'e', '"', ':', ' ', '"', 'a'] ++
    toolClose ++ ascii ['b'], Eq.refl _, ⟨(ascii ['a'] ++ toolClose ++ ascii ['b'],
      ascii ['\x7b', '\x7d', '\x7d'] ++ toolClose), ?_⟩, ?_, ?_⟩
  · have hsplit : split toolOpen cutName.flatten =
        some ([], cutName.flatten.drop toolOpen.length) := by decide
    rw [readJson_openings hsplit]
    exact List.mem_cons_self
  · decide
  · decide
  · decide

end Settled

end ToolCallSplit

end Llmx
