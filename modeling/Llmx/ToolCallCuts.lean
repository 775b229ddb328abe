import Llmx.ToolCallOpenings

namespace Llmx

open Tags

/-- A reply's call as a client sends it back. -/
structure ToolCall where
  name : Bytes
  arguments : Bytes
deriving DecidableEq, Repr

/-- One piece of a call gathered into the calls. -/
def gatherCall (calls : List ToolCall) (d : ToolCallDelta) : List ToolCall :=
  (calls ++ List.replicate (d.index + 1 - calls.length) (ToolCall.mk [] [])).modify d.index
    fun call =>
      { name := if d.name = [] then call.name else d.name
        arguments := call.arguments ++ d.arguments }

def gatherCalls (calls : List ToolCall) (pieces : List ToolCallDelta) : List ToolCall :=
  pieces.foldl gatherCall calls

def ToolCallParts.join (a b : ToolCallParts) : ToolCallParts :=
  ⟨a.content ++ b.content, a.calls ++ b.calls⟩

theorem gatherCalls_append (calls : List ToolCall) (a b : List ToolCallDelta) :
    gatherCalls calls (a ++ b) = gatherCalls (gatherCalls calls a) b := List.foldl_append

theorem gatherCalls_concat (calls : List ToolCall) (a : List ToolCallDelta) (d : ToolCallDelta) :
    gatherCalls calls (a ++ [d]) = gatherCall (gatherCalls calls a) d := by
  rw [gatherCalls_append]
  exact Eq.refl _

/-- Arguments put onto a call's last piece are gathered as a piece after it. -/
theorem gatherCall_onto (calls : List ToolCall) (d : ToolCallDelta) (s : Bytes) :
    gatherCall (gatherCall calls d) ⟨d.index, [], s⟩ =
      gatherCall calls { d with arguments := d.arguments ++ s } := by
  unfold gatherCall
  generalize hall : calls ++ List.replicate (d.index + 1 - calls.length) (ToolCall.mk [] []) = all
  have hlength : d.index + 1 ≤ all.length := by
    rw [← hall, List.length_append, List.length_replicate]
    omega
  dsimp only
  rw [List.length_modify, Nat.sub_eq_zero_of_le hlength, List.replicate_zero, List.append_nil,
    List.modify_modify_eq]
  congr 1
  funext call
  dsimp only [Function.comp]
  rw [if_pos (Eq.refl _), List.append_assoc]

namespace ToolCallSplit

variable {δ : Type} (conv : Json.Conversion δ)

/-- The pieces fed in turn, and the parts they gave. -/
def feedParts (c : ToolCallSplit) : List Bytes → ToolCallSplit × ToolCallParts
  | [] => (c, ⟨[], []⟩)
  | piece :: pieces =>
    let (c, out) := c.feed conv piece
    let (c, more) := feedParts c pieces
    (c, out.join more)

/-- A reply fed in pieces and finished, and its parts. -/
def replyParts (format : ToolFormat) (typed : ToolTypes) (single : Bool) (pieces : List Bytes) :
    ToolCallSplit × ToolCallParts :=
  let (c, out) := feedParts conv (new format typed single) pieces
  let (c, last) := c.finish conv
  (c, out.join last)

/-- The pieces fed in turn and the end, put onto what was put out before them. -/
def feedOnto (c : ToolCallSplit) (out : ToolCallParts) :
    List Bytes → ToolCallSplit × ToolCallParts
  | [] => c.step conv out true
  | piece :: pieces =>
    let (c, out) := { c with buf := c.buf ++ piece }.step conv out false
    feedOnto c out pieces

/-- What a client has of a reply. -/
structure Reply where
  content : Bytes
  gathered : List ToolCall
  calls : Nat
  done : Bool
deriving DecidableEq, Repr

def reply (r : ToolCallSplit × ToolCallParts) : Reply :=
  ⟨r.2.content, gatherCalls [] r.2.calls, r.1.calls, r.1.state = .done⟩

section Outputs

/-- An output that reads as one and then another. -/
structure Joined (a b o : ToolCallParts) : Prop where
  content : o.content = a.content ++ b.content
  calls : ∀ calls, gatherCalls calls o.calls = gatherCalls (gatherCalls calls a.calls) b.calls

variable {c : ToolCallSplit} {a b o : ToolCallParts} {last : Bool}

theorem joined_self (a : ToolCallParts) : Joined a ⟨[], []⟩ a :=
  ⟨(List.append_nil _).symm, fun _ => Eq.refl _⟩

theorem gatherCalls_arguments (calls : List ToolCall) (c : ToolCallSplit) (out : ToolCallParts)
    (s : Bytes) : gatherCalls calls (c.arguments out s).calls =
      if s = [] then gatherCalls calls out.calls
      else gatherCall (gatherCalls calls out.calls) ⟨c.calls - 1, [], s⟩ := by
  unfold arguments
  split
  next => exact Eq.refl _
  next =>
    split
    next d hlast =>
      split
      next hindex =>
        obtain ⟨before, hbefore⟩ := List.getLast?_eq_some_iff.mp hlast
        rw [hbefore]
        dsimp only
        rw [List.dropLast_concat, gatherCalls_concat, gatherCalls_concat, ← hindex,
          gatherCall_onto]
      next => exact gatherCalls_concat _ _ _
    next => exact gatherCalls_concat _ _ _

theorem Joined.text (h : Joined a b o) (c : ToolCallSplit) (s : Bytes) :
    (c.text b s).1 = (c.text o s).1 ∧ Joined a (c.text b s).2 (c.text o s).2 := by
  refine ⟨Eq.refl _, ?_, h.calls⟩
  unfold ToolCallSplit.text
  dsimp only
  rw [h.content, List.append_assoc]

theorem arguments_content (c : ToolCallSplit) (out : ToolCallParts) (s : Bytes) :
    (c.arguments out s).content = out.content := by
  unfold arguments
  split
  next => exact Eq.refl _
  next =>
    split
    next =>
      split
      next => exact Eq.refl _
      next => exact Eq.refl _
    next => exact Eq.refl _

theorem Joined.arguments (h : Joined a b o) (c : ToolCallSplit) (s : Bytes) :
    Joined a (c.arguments b s) (c.arguments o s) := by
  refine ⟨?_, fun calls => ?_⟩
  · rw [arguments_content, arguments_content]
    exact h.content
  · rw [gatherCalls_arguments, gatherCalls_arguments, h.calls]

theorem Joined.start (h : Joined a b o) (c : ToolCallSplit) (name : Bytes) :
    (c.start b name).1 = (c.start o name).1 ∧ Joined a (c.start b name).2 (c.start o name).2 := by
  refine ⟨Eq.refl _, h.content, fun calls => ?_⟩
  show gatherCalls calls (o.calls ++ [_]) = gatherCalls _ (b.calls ++ [_])
  rw [gatherCalls_concat, gatherCalls_concat, h.calls]

theorem Joined.refuse (h : Joined a b o) (c : ToolCallSplit) :
    (c.refuse b).1 = (c.refuse o).1 ∧ Joined a (c.refuse b).2 (c.refuse o).2 :=
  ⟨Eq.refl _, (h.text c _).2⟩

/-- Two turns that differ in what was put out before them. -/
structure Alike (a : ToolCallParts) (x y : ToolCallSplit × ToolCallParts × Bool) : Prop where
  state : x.1 = y.1
  parts : Joined a x.2.1 y.2.1
  more : x.2.2 = y.2.2

theorem turnText_alike (h : Joined a b o) : Alike a (c.turnText b last) (c.turnText o last) := by
  unfold turnText
  split
  next => exact ⟨Eq.refl _, (h.text _ _).2, Eq.refl _⟩
  next => exact ⟨Eq.refl _, (h.text _ _).2, Eq.refl _⟩

variable {conv}

theorem turnHead_alike (h : Joined a b o) :
    Alike a (c.turnHead conv b last) (c.turnHead conv o last) := by
  unfold turnHead
  split
  next => exact ⟨Eq.refl _, (h.start _ _).2, Eq.refl _⟩
  next =>
    split
    next => exact ⟨Eq.refl _, (h.refuse _).2, Eq.refl _⟩
    next => exact ⟨Eq.refl _, h, Eq.refl _⟩
  next => exact ⟨Eq.refl _, (h.refuse _).2, Eq.refl _⟩

theorem turnJson_alike (h : Joined a b o) : Alike a (c.turnJson b last) (c.turnJson o last) := by
  unfold turnJson
  split
  next => exact ⟨Eq.refl _, h.arguments _ _, Eq.refl _⟩
  next =>
    split
    next => exact ⟨Eq.refl _, h.arguments _ _, Eq.refl _⟩
    next => exact ⟨Eq.refl _, h.arguments _ _, Eq.refl _⟩

theorem turnParams_alike (h : Joined a b o) :
    Alike a (c.turnParams conv b last) (c.turnParams conv o last) := by
  unfold turnParams
  dsimp only
  split
  next =>
    split
    next =>
      split
      next => exact ⟨Eq.refl _, h.arguments _ _, Eq.refl _⟩
      next => exact ⟨Eq.refl _, h, Eq.refl _⟩
    next => exact ⟨Eq.refl _, h.arguments _ _, Eq.refl _⟩
  split
  next => exact ⟨Eq.refl _, h.arguments _ _, Eq.refl _⟩
  split
  next => exact ⟨Eq.refl _, h.arguments _ _, Eq.refl _⟩
  split
  next =>
    split
    next => exact ⟨Eq.refl _, h.arguments _ _, Eq.refl _⟩
    next => exact ⟨Eq.refl _, h, Eq.refl _⟩
  next => exact ⟨Eq.refl _, h, Eq.refl _⟩

theorem turnClose_alike (h : Joined a b o) :
    Alike a (c.turnClose b last) (c.turnClose o last) := by
  unfold turnClose
  dsimp only
  split
  next => exact ⟨Eq.refl _, h, Eq.refl _⟩
  split
  next => exact ⟨Eq.refl _, h, Eq.refl _⟩
  split
  next => exact ⟨Eq.refl _, h, Eq.refl _⟩
  next => exact ⟨Eq.refl _, h, Eq.refl _⟩

theorem turn_alike (h : Joined a b o) : Alike a (c.turn conv b last) (c.turn conv o last) := by
  unfold turn
  split
  next => exact ⟨Eq.refl _, h, Eq.refl _⟩
  next => exact turnText_alike h
  next => exact turnHead_alike h
  next => exact turnJson_alike h
  next => exact turnParams_alike h
  next => exact turnClose_alike h

theorem step_next {d : ToolCallSplit} {out : ToolCallParts}
    (h : c.turn conv o last = (d, out, true)) : c.step conv o last = d.step conv out last := by
  rw [step]
  split
  next hturn =>
    cases h.symm.trans hturn
    exact Eq.refl _
  next hturn => cases h.symm.trans hturn

theorem step_stop {d : ToolCallSplit} {out : ToolCallParts}
    (h : c.turn conv o last = (d, out, false)) : c.step conv o last = (d, out) := by
  rw [step]
  split
  next hturn => cases h.symm.trans hturn
  next hturn =>
    cases h.symm.trans hturn
    exact Eq.refl _

/-- The loop does the same whatever was put out before it. -/
theorem step_joined (h : Joined a b o) : (c.step conv b last).1 = (c.step conv o last).1 ∧
    Joined a (c.step conv b last).2 (c.step conv o last).2 := by
  fun_induction step conv c b last generalizing o with
  | case1 c b d b' hturn ih =>
    have halike : Alike a (c.turn conv b last) (c.turn conv o last) := turn_alike h
    obtain ⟨hstate, hparts, hmore⟩ := halike
    generalize hother : c.turn conv o last = r at hstate hparts hmore
    obtain ⟨d', o', more⟩ := r
    rw [hturn] at hstate hparts hmore
    dsimp only at hstate hparts hmore
    subst hstate hmore
    rw [step_next hother]
    exact ih hparts
  | case2 c b d b' hturn =>
    have halike : Alike a (c.turn conv b last) (c.turn conv o last) := turn_alike h
    obtain ⟨hstate, hparts, hmore⟩ := halike
    generalize hother : c.turn conv o last = r at hstate hparts hmore
    obtain ⟨d', o', more⟩ := r
    rw [hturn] at hstate hparts hmore
    dsimp only at hstate hparts hmore
    subst hstate hmore
    rw [step_stop hother]
    exact ⟨Eq.refl _, hparts⟩

theorem feedOnto_joined {pieces : List Bytes} (h : Joined a b o) :
    (c.feedOnto conv b pieces).1 = (c.feedOnto conv o pieces).1 ∧
      Joined a (c.feedOnto conv b pieces).2 (c.feedOnto conv o pieces).2 := by
  induction pieces generalizing c b o with
  | nil => exact step_joined h
  | cons piece pieces ih =>
    obtain ⟨hstate, hparts⟩ : (step conv { c with buf := c.buf ++ piece } b false).1 =
        (step conv { c with buf := c.buf ++ piece } o false).1 ∧ _ := step_joined h
    rw [feedOnto, feedOnto]
    dsimp only
    rw [hstate]
    exact ih hparts

theorem Joined.join {m l : ToolCallParts} (hab : Joined a b o) (hml : Joined m l b) :
    Joined (a.join m) l o := by
  refine ⟨?_, fun calls => ?_⟩
  · rw [hab.content, hml.content, ← List.append_assoc]
    exact Eq.refl _
  · rw [hab.calls, hml.calls]
    show _ = gatherCalls (gatherCalls calls (a.calls ++ m.calls)) l.calls
    rw [gatherCalls_append]

/-- A reply in pieces has what they and the end put out one onto another. -/
theorem feedParts_onto {pieces : List Bytes} {d e : ToolCallSplit} {out last : ToolCallParts}
    (h : feedParts conv c pieces = (d, out)) (hfinish : d.finish conv = (e, last)) :
    e = (c.feedOnto conv ⟨[], []⟩ pieces).1 ∧
      Joined out last (c.feedOnto conv ⟨[], []⟩ pieces).2 := by
  induction pieces generalizing c out with
  | nil =>
    cases h
    rw [feedOnto]
    have hsame : step conv d ⟨[], []⟩ true = (e, last) := hfinish
    rw [hsame]
    exact ⟨Eq.refl _, Eq.refl _, fun _ => Eq.refl _⟩
  | cons piece pieces ih =>
    rw [feedParts] at h
    generalize hfeed : c.feed conv piece = r at h
    obtain ⟨c', first⟩ := r
    dsimp only at h
    generalize hall : feedParts conv c' pieces = r at h
    obtain ⟨d', rest⟩ := r
    cases h
    obtain ⟨hstate, hjoined⟩ := ih hall
    obtain ⟨hsame, hfirst⟩ : (c'.feedOnto conv ⟨[], []⟩ pieces).1 =
        (c'.feedOnto conv first pieces).1 ∧ _ := feedOnto_joined (joined_self first)
    have hstep : step conv { c with buf := c.buf ++ piece } ⟨[], []⟩ false = (c', first) := hfeed
    rw [feedOnto, hstep]
    exact ⟨hstate.trans hsame, hfirst.join hjoined⟩

theorem reply_onto (format : ToolFormat) (typed : ToolTypes) (single : Bool)
    (pieces : List Bytes) : reply (replyParts conv format typed single pieces) =
      reply ((new format typed single).feedOnto conv ⟨[], []⟩ pieces) := by
  unfold replyParts
  generalize hall : feedParts conv (new format typed single) pieces = r
  obtain ⟨d, out⟩ := r
  dsimp only
  generalize hfinish : d.finish conv = r
  obtain ⟨e, last⟩ := r
  obtain ⟨hstate, hjoined⟩ := feedParts_onto hall hfinish
  show reply (e, out.join last) = _
  unfold reply
  rw [hstate, hjoined.content, hjoined.calls]
  unfold ToolCallParts.join
  rw [gatherCalls_append]

end Outputs

/-- A call's arguments as the text before its closing tag has them. -/
def closed (s : Bytes) : Bytes := dropBrace (s.rdropWhile blank)

section Later

variable {c d : ToolCallSplit} {out out' : ToolCallParts} {more : Bool} {p : Bytes}

/-- The loop at a call's opening, which more of the text would let open and its text so far gives
up, a closing tag being in it. -/
structure Halted (conv : Json.Conversion δ) (c : ToolCallSplit) (p : Bytes) : Prop where
  state : c.state = .head
  may : c.head conv = .may
  closing : (split toolClose c.buf).isSome
  opens : ∃ call, head conv { c with buf := c.buf ++ p } = .opens call

variable {conv}

theorem step_same {x y : ToolCallSplit} {o o' : ToolCallParts} {last : Bool}
    (h : x.turn conv o last = y.turn conv o' last) : x.step conv o last = y.step conv o' last := by
  generalize hy : y.turn conv o' last = r at h
  obtain ⟨e, oe, more⟩ := r
  cases more with
  | true => rw [step_next h, step_next hy]
  | false => rw [step_stop h, step_stop hy]

/-- A turn before the rest of the text has come: one the whole text takes, or one it has still to
take. -/
inductive Later (conv : Json.Conversion δ) (x : ToolCallSplit) (o : ToolCallParts)
    (y : ToolCallSplit) (o' : ToolCallParts) : Prop
  | taken (h : x.turn conv o true = (y, o', true))
  | same (h : x.turn conv o true = y.turn conv o' true) (hhead : y.state ≠ .head)
  | waits (hc : x = y) (ho : o = o')

theorem Later.step {x y : ToolCallSplit} {o o' : ToolCallParts} (h : Later conv x o y o') :
    x.step conv o true = y.step conv o' true := by
  cases h with
  | taken h => exact step_next h
  | same h => exact step_same h
  | waits hc ho => rw [hc, ho]

theorem text_append (c : ToolCallSplit) (out : ToolCallParts) (a b : Bytes) :
    c.text out (a ++ b) = (c.text out a).1.text (c.text out a).2 b := by
  unfold text
  cases hafter : c.afterCall with
  | false => simp
  | true =>
    cases ha : a.dropWhile blank with
    | nil => simp [List.dropWhile_append, ha]
    | cons d r =>
      rw [dropWhile_append (by rw [ha]; exact List.cons_ne_nil _ _)]
      simp [ha]

theorem arguments_append (c : ToolCallSplit) (out : ToolCallParts) (a b : Bytes) :
    c.arguments out (a ++ b) = c.arguments (c.arguments out a) b := by
  by_cases ha : a = []
  · rw [ha]
    unfold arguments
    rw [List.nil_append, if_pos (Eq.refl ([] : Bytes))]
  by_cases hb : b = []
  · rw [hb, List.append_nil]
    exact (if_pos (Eq.refl _)).symm
  have hab : a ++ b ≠ [] := List.append_ne_nil_of_left_ne_nil ha b
  unfold arguments
  rw [if_neg hab, if_neg ha, if_neg hb]
  split
  next e hlast =>
    by_cases hindex : e.index = c.calls - 1
    · simp [hindex]
    · simp [hindex]
  next => simp

theorem dropBrace_append {e y : Bytes} (he : e.rdropWhile blank = e)
    (h : y ≠ [] ∨ e.getLast? ≠ some '\x7d'.toUInt8) : dropBrace (e ++ y) = e ++ dropBrace y := by
  by_cases hy : y = []
  · rw [hy, List.append_nil]
    exact (if_neg (h.resolve_left (not_not.mpr hy))).trans (List.append_nil e).symm
  · unfold dropBrace
    have hlast : (e ++ y).getLast? = y.getLast? := by
      rw [List.getLast?_append, List.getLast?_eq_some_getLast hy]
      exact Eq.refl _
    rw [hlast, List.dropLast_append_of_ne_nil hy, rdropWhile_append he]
    split
    next => exact Eq.refl _
    next => exact Eq.refl _

theorem closed_append {e x : Bytes} (he : e.rdropWhile blank = e)
    (h : x.rdropWhile blank ≠ [] ∨ e.getLast? ≠ some '\x7d'.toUInt8) :
    closed (e ++ x) = e ++ closed x := by
  unfold closed
  rw [rdropWhile_append he]
  exact dropBrace_append he h

/-- What is let go of a call's arguments, the text held kept back as a brace that may close it. -/
structure CutArgs (s cut held : Bytes) : Prop where
  whole : s = cut ++ held
  tag : overlap toolClose s ≤ held.length
  trimmed : cut.rdropWhile blank = cut
  brace : cut.getLast? ≠ some '\x7d'.toUInt8 ∨
    ∃ w y, held = w ++ '\x7d'.toUInt8 :: y ∧ ∀ b ∈ w, blank b = true

theorem cut_args (s : Bytes) : ∃ held,
    CutArgs s (dropBrace ((s.take (s.length - overlap toolClose s)).rdropWhile blank)) held := by
  obtain ⟨held, hs, hlen⟩ := cut_held toolClose s
  have htrim := List.rdropWhile_idempotent blank (s.take (s.length - overlap toolClose s))
  generalize (s.take (s.length - overlap toolClose s)).rdropWhile blank = b at hs htrim
  unfold dropBrace
  by_cases hb : b.getLast? = some '\x7d'.toUInt8
  · rw [if_pos hb]
    obtain ⟨e, rfl⟩ := List.getLast?_eq_some_iff.mp hb
    rw [List.dropLast_concat]
    have hsplit : e.rdropWhile blank ++ e.rtakeWhile blank = e := List.rdropWhile_append_rtakeWhile
    have hblank : ∀ x ∈ e.rtakeWhile blank, blank x = true := fun x hx =>
      List.mem_rtakeWhile_imp hx
    refine ⟨e.rtakeWhile blank ++ '\x7d'.toUInt8 :: held, ?_, ?_, ?_, ?_⟩
    · rw [← List.append_assoc, hsplit, hs, List.append_assoc]
      exact Eq.refl _
    · rw [List.length_append, List.length_cons]
      omega
    · exact List.rdropWhile_idempotent _ _
    · exact .inr ⟨_, _, Eq.refl _, hblank⟩
  · rw [if_neg hb]
    exact ⟨held, hs, hlen, htrim, .inl hb⟩

/-- A tag is not in a text before its first character. -/
theorem split_after {tag v y : Bytes} {c : UInt8} (hc : tag.head? = some c) (hv : c ∉ v) :
    split tag (v ++ y) = (split tag y).map fun r => (v ++ r.1, r.2) := by
  induction v with
  | nil =>
    rw [List.nil_append]
    cases split tag y with
    | none => exact Eq.refl _
    | some r => exact Eq.refl _
  | cons d v ih =>
    obtain ⟨hd, hv⟩ := not_or.mp (fun h => hv (List.mem_cons.mpr h))
    rw [List.cons_append, split, if_neg, ih hv, Option.map_map]
    · exact Eq.refl _
    · rw [List.isPrefixOf_iff_prefix]
      intro hpre
      obtain ⟨tag, rfl⟩ := List.head?_eq_some_iff.mp hc
      exact hd (List.cons_prefix_cons.mp hpre).1

theorem turn_text (hs : c.state = .text) (out : ToolCallParts) (last : Bool) :
    c.turn conv out last = c.turnText out last := by
  unfold turn
  rw [hs]

theorem turn_head (hs : c.state = .head) (out : ToolCallParts) (last : Bool) :
    c.turn conv out last = c.turnHead conv out last := by
  unfold turn
  rw [hs]

theorem turn_json (hs : c.state = .jsonArgs) (out : ToolCallParts) (last : Bool) :
    c.turn conv out last = c.turnJson out last := by
  unfold turn
  rw [hs]

theorem turn_params (hs : c.state = .xmlParams) (out : ToolCallParts) (last : Bool) :
    c.turn conv out last = c.turnParams conv out last := by
  unfold turn
  rw [hs]

theorem turn_close (hs : c.state = .xmlClose) (out : ToolCallParts) (last : Bool) :
    c.turn conv out last = c.turnClose out last := by
  unfold turn
  rw [hs]

theorem turnText_later (hs : c.state = .text) (h : c.turnText out false = (d, out', more)) :
    Later conv { c with buf := c.buf ++ p } out { d with buf := d.buf ++ p } out' := by
  unfold turnText at h
  split at h
  next lead rest hsplit =>
    cases h
    refine .taken ?_
    rw [turn_text (by exact hs)]
    unfold turnText
    rw [split_more hsplit]
    exact Eq.refl _
  next hsplit =>
    rw [if_neg Bool.false_ne_true] at h
    obtain ⟨held, hbuf, hlen⟩ := cut_held toolOpen c.buf
    have htrim := List.rdropWhile_idempotent blank
      (c.buf.take (c.buf.length - overlap toolOpen c.buf))
    generalize (c.buf.take (c.buf.length - overlap toolOpen c.buf)).rdropWhile blank = cut
      at h hbuf htrim
    cases h
    refine .same ?_ (by simp [hs])
    rw [turn_text (by exact hs), turn_text (by exact hs)]
    rw [hbuf] at hsplit hlen
    have hhold := split_hold (p := p) hsplit hlen
    unfold turnText
    dsimp only
    rw [hbuf, List.drop_left, hhold]
    cases hnext : split toolOpen (held ++ p) with
    | none =>
      dsimp only [Option.map_none]
      rw [if_pos (Eq.refl _), if_pos (Eq.refl _), List.append_assoc, text_append, List.drop_length,
        List.drop_length]
      exact Eq.refl _
    | some r =>
      obtain ⟨lead, rest⟩ := r
      dsimp only [Option.map_some]
      rw [rdropWhile_append htrim, text_append, List.length_append, ← List.drop_drop,
        List.drop_left]
      exact Eq.refl _

theorem turnHead_later (hs : c.state = .head) (hno : ¬ Halted conv c p)
    (h : c.turnHead conv out false = (d, out', more)) :
    Later conv { c with buf := c.buf ++ p } out { d with buf := d.buf ++ p } out' := by
  have hsettled : _ ∧ (head conv { c with buf := c.buf } = .cannot → _) :=
    head_settled c c.buf p
  have hrefuse : (∀ call, head conv { c with buf := c.buf ++ p } ≠ .opens call) →
      c.refuse out = (d, out') →
        Later conv { c with buf := c.buf ++ p } out { d with buf := d.buf ++ p } out' := by
    intro hopens hr
    cases hr
    refine .taken ?_
    rw [turn_head (by exact hs)]
    unfold turnHead
    generalize head conv { c with buf := c.buf ++ p } = x at hopens
    cases x with
    | opens call => exact absurd (Eq.refl _) (hopens call)
    | may =>
      dsimp only
      rw [if_pos (.inl (Eq.refl _))]
      exact Eq.refl _
    | cannot => exact Eq.refl _
  unfold turnHead at h
  split at h
  next name rest hx =>
    have hmore := hsettled.1 name rest hx
    dsimp only at hmore
    cases h
    refine .taken ?_
    rw [turn_head (by exact hs)]
    unfold turnHead
    rw [hmore]
    exact Eq.refl _
  next hx =>
    split at h
    next hstop =>
      have hclosing := hstop.resolve_left Bool.false_ne_true
      refine hrefuse (fun call hcall => hno ⟨hs, hx, hclosing, call, hcall⟩) ?_
      generalize c.refuse out = r at h
      cases h
      exact Eq.refl _
    next =>
      cases h
      exact .waits (Eq.refl _) (Eq.refl _)
  next hx =>
    refine hrefuse (fun call hcall => ?_) ?_
    · cases (hsettled.2 hx).symm.trans hcall
    · generalize c.refuse out = r at h
      cases h
      exact Eq.refl _

/-- Where a call's arguments end is as far on in the text held, and they read on from the cut. -/
theorem CutArgs.hold {s cut held : Bytes} (h : CutArgs s cut held)
    (hno : split toolClose s = none) (p : Bytes) :
    split toolClose (s ++ p) = (split toolClose (held ++ p)).map (fun r => (cut ++ r.1, r.2)) ∧
      (split toolClose (held ++ p) = none → closed (s ++ p) = cut ++ closed (held ++ p)) ∧
      ∀ args rest, split toolClose (held ++ p) = some (args, rest) →
        closed (cut ++ args) = cut ++ closed args := by
  obtain ⟨hs, hlen, htrim, hbrace⟩ := h
  have hbehind : ∀ w z : Bytes, (w ++ '\x7d'.toUInt8 :: z).rdropWhile blank ≠ [] := by
    intro w z hnil
    have hblank := List.rdropWhile_eq_nil_iff.mp hnil '\x7d'.toUInt8
      (List.mem_append_right _ List.mem_cons_self)
    revert hblank
    decide
  rw [hs] at hno hlen ⊢
  refine ⟨split_hold hno hlen, fun _ => ?_, fun args rest hnext => ?_⟩
  · rw [List.append_assoc]
    refine closed_append htrim (hbrace.symm.imp_left fun hw => ?_)
    obtain ⟨w, y, rfl, -⟩ := hw
    rw [List.append_assoc]
    exact hbehind w _
  · refine closed_append htrim (hbrace.symm.imp_left fun hw => ?_)
    obtain ⟨w, y, rfl, hblank⟩ := hw
    have hless : '<'.toUInt8 ∉ w ++ ['\x7d'.toUInt8] := by
      intro hmem
      rcases List.mem_append.mp hmem with hmem | hmem
      · have hb := hblank _ hmem
        revert hb
        decide
      · revert hmem
        decide
    have hafter : split toolClose (_ ++ (y ++ p)) = _ :=
      split_after (show toolClose.head? = some '<'.toUInt8 from Eq.refl _) hless
    rw [List.append_assoc, List.singleton_append] at hafter
    rw [List.append_assoc, List.cons_append, hafter] at hnext
    obtain ⟨⟨before, behind⟩, -, heq⟩ := Option.map_eq_some_iff.mp hnext
    cases heq
    rw [List.append_assoc]
    exact hbehind w before

theorem turnJson_later (hs : c.state = .jsonArgs) (h : c.turnJson out false = (d, out', more)) :
    Later conv { c with buf := c.buf ++ p } out { d with buf := d.buf ++ p } out' := by
  unfold turnJson at h
  split at h
  next args rest hsplit =>
    cases h
    refine .taken ?_
    rw [turn_json (by exact hs)]
    unfold turnJson
    rw [split_more hsplit]
    exact Eq.refl _
  next hsplit =>
    rw [if_neg Bool.false_ne_true] at h
    obtain ⟨held, hcut⟩ := cut_args c.buf
    generalize dropBrace ((c.buf.take (c.buf.length - overlap toolClose c.buf)).rdropWhile blank) =
      cut at h hcut
    cases h
    refine .same ?_ (by simp [hs])
    rw [turn_json (by exact hs), turn_json (by exact hs)]
    obtain ⟨hhold, hopen, hclosed⟩ := hcut.hold hsplit p
    unfold turnJson
    dsimp only
    rw [hhold, hcut.whole, List.drop_left, ← hcut.whole]
    cases hnext : split toolClose (held ++ p) with
    | none =>
      dsimp only [Option.map_none]
      rw [if_pos (Eq.refl _), if_pos (Eq.refl _)]
      show (_, ToolCallSplit.arguments _ out (closed (c.buf ++ p)), true) = _
      rw [hopen hnext, arguments_append]
      exact Eq.refl _
    | some r =>
      obtain ⟨args, rest⟩ := r
      dsimp only [Option.map_some]
      show (_, ToolCallSplit.arguments _ out (closed (cut ++ args)), true) = _
      rw [hclosed args rest hnext, arguments_append]
      exact Eq.refl _

theorem turnClose_later (hs : c.state = .xmlClose) (h : c.turnClose out false = (d, out', more)) :
    step conv { c with buf := c.buf ++ p } out true =
      step conv { d with buf := d.buf ++ p } out' true := by
  unfold turnClose at h
  dsimp only at h
  split at h
  next hpre =>
    cases h
    refine step_next ?_
    rw [turn_close (by exact hs)]
    have hlong := List.isPrefixOf_iff_prefix.mp hpre
    unfold turnClose
    dsimp only
    rw [dropWhile_append (hlong.ne_nil toolClose_ne), if_pos,
      List.drop_append_of_le_length hlong.length_le]
    · exact Eq.refl _
    · exact List.isPrefixOf_iff_prefix.mpr (hlong.trans (List.prefix_append _ p))
  next hpre =>
    have hno : ¬ toolClose <+: c.buf.dropWhile blank := fun hl =>
      hpre (List.isPrefixOf_iff_prefix.mpr hl)
    split at h
    next =>
      cases h
      exact Eq.refl _
    next hwait =>
      obtain ⟨hne, hbegun⟩ := not_or.mp fun hor => hwait ⟨Eq.refl _, hor⟩
      split at h
      next hover => exact absurd hover.1 Bool.false_ne_true
      next =>
        cases h
        refine step_next ?_
        rw [turn_close (by exact hs)]
        unfold turnClose
        dsimp only
        rw [dropWhile_append hne, if_neg, if_neg (fun h => Bool.false_ne_true h.1.symm), if_neg]
        · exact Eq.refl _
        · exact fun h => List.append_ne_nil_of_left_ne_nil hne p h.2
        · rw [List.isPrefixOf_iff_prefix]
          exact not_prefix_more hno fun hb => hbegun (List.isPrefixOf_iff_prefix.mpr hb)

/-- Text in a call that is no tag's is passed over up to the next. -/
theorem turnParams_pass {e : UInt8} {u : Bytes} (hno : NoTag (e :: u))
    (hbegun : ∀ tag ∈ innerTags, ¬ e :: u <+: tag) (hbuf : c.buf.dropWhile blank = e :: u)
    (last : Bool) : c.turnParams conv out last =
      ({ c with buf := u.dropWhile (· != '<'.toUInt8) }, out, true) := by
  have hnot : ∀ tag ∈ innerTags, ¬ tag.isPrefixOf (e :: u) = true := fun tag ht hp =>
    hno tag ht (List.isPrefixOf_iff_prefix.mp hp)
  have hnone : ∀ tag ∈ innerTags, ¬ begins tag (e :: u) = true := fun tag ht hp =>
    hbegun tag ht (List.isPrefixOf_iff_prefix.mp hp)
  unfold turnParams
  rw [hbuf]
  dsimp only
  rw [if_neg (hnot paramOpen (by decide)), if_neg (hnot fnClose (by decide)),
    if_neg (hnot toolClose (by decide)), if_neg]
  · exact Eq.refl _
  · intro hor
    rcases hor with hor | hor | hor | hor
    · cases hor
    · exact hnone paramOpen (by decide) hor
    · exact hnone fnClose (by decide) hor
    · exact hnone toolClose (by decide) hor

theorem turnParams_congr {q r : Bytes} (h : q.dropWhile blank = r.dropWhile blank) (last : Bool) :
    turnParams conv { c with buf := q } out last =
      turnParams conv { c with buf := r } out last := by
  unfold turnParams
  dsimp only
  rw [h]

/-- In a call the text before the next tag changes nothing. -/
theorem step_passed (hs : c.state = .xmlParams) (q : Bytes) :
    step conv { c with buf := q.dropWhile (· != '<'.toUInt8) } out true =
      step conv { c with buf := q } out true := by
  have hw : ∀ b ∈ q.takeWhile blank, blank b = true := fun b hb => List.mem_takeWhile_imp hb
  have hq := List.takeWhile_append_dropWhile (p := blank) (l := q)
  cases ht : q.dropWhile blank with
  | nil =>
    rw [ht, List.append_nil] at hq
    have hnil := past_blanks hw []
    rw [List.append_nil, hq] at hnil
    rw [hnil]
    refine step_same ?_
    rw [turn_params (by exact hs), turn_params (by exact hs)]
    exact turnParams_congr (q := []) ht.symm true
  | cons b u =>
    rw [ht] at hq
    have hcut := past_blanks hw (b :: u)
    rw [hq] at hcut
    rw [hcut]
    by_cases hb : b = '<'.toUInt8
    · rw [List.dropWhile_cons_of_neg (by simp [hb])]
      refine step_same ?_
      rw [turn_params (by exact hs), turn_params (by exact hs)]
      refine turnParams_congr ?_ true
      rw [ht, List.dropWhile_cons_of_neg]
      rw [hb]
      decide
    · rw [List.dropWhile_cons_of_pos (by simpa using hb)]
      refine (step_next ?_).symm
      rw [turn_params (by exact hs)]
      refine turnParams_pass (.of_head hb) (fun tag htag hpre => ?_) ht true
      have hhead := (innerTags_tail tag htag).1
      obtain ⟨w, rfl⟩ := hpre
      exact hb (Option.some.inj hhead)

theorem turnParams_later (hs : c.state = .xmlParams)
    (h : c.turnParams conv out false = (d, out', more)) :
    step conv { c with buf := c.buf ++ p } out true =
      step conv { d with buf := d.buf ++ p } out' true := by
  have htrimmed : step conv { c with buf := c.buf ++ p } out true =
      step conv { c with buf := c.buf.dropWhile blank ++ p } out true := by
    refine step_same ?_
    rw [turn_params (by exact hs), turn_params (by exact hs)]
    exact turnParams_congr dropWhile_trimmed.symm true
  have hidem := List.dropWhile_idempotent blank c.buf
  rw [htrimmed]
  unfold turnParams at h
  generalize c.buf.dropWhile blank = s at h hidem ⊢
  dsimp only at h
  have hmore : s ≠ [] → (s ++ p).dropWhile blank = s ++ p := by
    intro hne
    rw [dropWhile_append (by rwa [hidem]), hidem]
  by_cases hparam : paramOpen.isPrefixOf s = true
  · rw [if_pos hparam] at h
    have hpre := List.isPrefixOf_iff_prefix.mp hparam
    split at h
    next =>
      rw [if_neg Bool.false_ne_true] at h
      cases h
      exact Eq.refl _
    next key v rest hsome =>
      cases h
      refine step_next ?_
      rw [turn_params (by exact hs)]
      unfold turnParams
      dsimp only
      rw [hmore (hpre.ne_nil (List.cons_ne_nil _ _)), if_pos, parameter_more p hpre hsome]
      · exact Eq.refl _
      · exact List.isPrefixOf_iff_prefix.mpr (hpre.trans (List.prefix_append _ p))
  rw [if_neg hparam] at h
  by_cases hfn : fnClose.isPrefixOf s = true
  · rw [if_pos hfn] at h
    cases h
    have hpre := List.isPrefixOf_iff_prefix.mp hfn
    have hlong := hpre.trans (List.prefix_append s p)
    refine step_next ?_
    rw [turn_params (by exact hs)]
    unfold turnParams
    dsimp only
    rw [hmore (hpre.ne_nil (List.cons_ne_nil _ _)),
      if_neg (not_isPrefixOf (show fnClose ∈ innerTags by decide) (by decide) (by decide) hlong),
      if_pos (List.isPrefixOf_iff_prefix.mpr hlong), List.drop_append_of_le_length hpre.length_le]
    exact Eq.refl _
  rw [if_neg hfn] at h
  by_cases htool : toolClose.isPrefixOf s = true
  · rw [if_pos htool] at h
    cases h
    have hpre := List.isPrefixOf_iff_prefix.mp htool
    have hlong := hpre.trans (List.prefix_append s p)
    refine step_next ?_
    rw [turn_params (by exact hs)]
    unfold turnParams
    dsimp only
    rw [hmore (hpre.ne_nil toolClose_ne),
      if_neg (not_isPrefixOf (show toolClose ∈ innerTags by decide) (by decide) (by decide) hlong),
      if_neg (not_isPrefixOf (show toolClose ∈ innerTags by decide) (by decide) (by decide) hlong),
      if_pos (List.isPrefixOf_iff_prefix.mpr hlong), List.drop_append_of_le_length hpre.length_le]
    exact Eq.refl _
  rw [if_neg htool] at h
  split at h
  next hwait =>
    rw [if_neg Bool.false_ne_true] at h
    cases h
    exact Eq.refl _
  next hnext =>
    cases h
    cases s with
    | nil => exact absurd (.inl (Eq.refl _)) hnext
    | cons b u =>
      have hno := NoTag.of_not hparam hfn htool
      have hbegun : ∀ tag ∈ innerTags, ¬ b :: u <+: tag :=
        fun tag ht hpre => hnext (begun_iff.mpr ⟨tag, ht, hpre⟩)
      have hpassed : step conv { c with buf := b :: u ++ p } out true =
          step conv { c with buf := (u ++ p).dropWhile (· != '<'.toUInt8) } out true := by
        refine step_next ?_
        rw [turn_params (by exact hs)]
        refine turnParams_pass (hno.more p hbegun) (fun tag ht hpre => ?_)
          (hmore (List.cons_ne_nil _ _)) true
        exact hbegun tag ht ((List.prefix_append _ p).trans hpre)
      rw [hpassed]
      show _ = step conv { c with buf := u.dropWhile (· != '<'.toUInt8) ++ p } out true
      rw [step_passed hs, ← step_passed hs (u.dropWhile (· != '<'.toUInt8) ++ p),
        dropWhile_trimmed, step_passed hs]

end Later

end ToolCallSplit

end Llmx
