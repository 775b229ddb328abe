import Llmx.ReplySplit

namespace Llmx

open Tags

theorem thinkOpen_ne_nil : thinkOpen ≠ [] := List.cons_ne_nil _ _

theorem thinkClose_ne_nil : thinkClose ≠ [] := List.cons_ne_nil _ _

theorem isEmpty_dropWhile {a : Bytes} (ha : a.rdropWhile isNewline = a) :
    (a.dropWhile isNewline).isEmpty = a.isEmpty := by
  by_cases hne : a = []
  · rw [hne]
    rfl
  · have hd := dropWhile_ne_nil ha hne
    rw [List.isEmpty_eq_false_iff.mpr hd, List.isEmpty_eq_false_iff.mpr hne]

/-- What a trimmed start leaves to drop from what follows it. -/
theorem dropWhile_started {a b : Bytes} (ha : a.rdropWhile isNewline = a) :
    (a ++ b).dropWhile isNewline =
      a.dropWhile isNewline ++ if a.isEmpty then b.dropWhile isNewline else b := by
  split
  next hnil =>
    rw [List.isEmpty_iff.mp hnil]
    rfl
  next hne =>
    exact dropWhile_append (dropWhile_ne_nil ha (by simpa using hne))

theorem trimmed_started {a b : Bytes} (ha : a.rdropWhile isNewline = a) :
    trimmed (a ++ b) = a.dropWhile isNewline ++
      (if a.isEmpty then b.dropWhile isNewline else b).rdropWhile isNewline := by
  rw [trimmed, dropWhile_started ha, rdropWhile_append (rdropWhile_dropWhile ha)]

/-- The split has read `body` inside the reasoning, or past its end. -/
def ReadsBody (body : Bytes) (r : ReplySplit) (out : ReplyParts) : Prop :=
  match r.state with
  | .reasoning =>
    split thinkClose body = none ∧ r.replyStarted = false ∧
      ∃ a, body = a ++ r.held ∧ a.rdropWhile isNewline = a ∧
        overlap thinkClose body ≤ r.held.length ∧ r.reasoningStarted = !a.isEmpty ∧
        out = ⟨a.dropWhile isNewline, []⟩
  | .reply =>
    ∃ before rest, split thinkClose body = some (before, rest) ∧
      out = ⟨trimmed before, rest.dropWhile isNewline⟩ ∧
      r.replyStarted = !(rest.dropWhile isNewline).isEmpty
  | _ => False

theorem reply_out {r : ReplySplit} {a : Bytes} (piece : Bytes)
    (hr : r.replyStarted = !(a.dropWhile isNewline).isEmpty) :
    a.dropWhile isNewline ++ (r.reply piece).2 = (a ++ piece).dropWhile isNewline ∧
      (r.reply piece).1.replyStarted = !((a ++ piece).dropWhile isNewline).isEmpty := by
  unfold ReplySplit.reply
  by_cases hne : a.dropWhile isNewline = []
  · have hall : (a ++ piece).dropWhile isNewline = piece.dropWhile isNewline := by
      rw [List.dropWhile_append, if_pos (by simp [hne])]
    rw [hr, hne, hall]
    exact ⟨rfl, rfl⟩
  · have hstart : r.replyStarted = true := by
      rw [hr, List.isEmpty_eq_false_iff.mpr hne]
      rfl
    rw [dropWhile_append hne, hstart]
    refine ⟨rfl, ?_⟩
    simp [hne]

theorem reason_last {r : ReplySplit} {a s : Bytes} (ha : a.rdropWhile isNewline = a)
    (hr : r.reasoningStarted = !a.isEmpty) :
    a.dropWhile isNewline ++ (r.reason s true).2 = trimmed (a ++ s) := by
  rw [trimmed_started ha, ReplySplit.reason, hr]
  cases a <;> rfl

theorem reason_out {r : ReplySplit} {a s : Bytes} (ha : a.rdropWhile isNewline = a)
    (hs : s.rdropWhile isNewline = s) (hr : r.reasoningStarted = !a.isEmpty) :
    a.dropWhile isNewline ++ (r.reason s false).2 = (a ++ s).dropWhile isNewline ∧
      (r.reason s false).1.reasoningStarted = !(a ++ s).isEmpty := by
  rw [dropWhile_started ha, ReplySplit.reason, hr]
  cases a with
  | nil => exact ⟨rfl, by simp [isEmpty_dropWhile hs]⟩
  | cons c a => exact ⟨rfl, rfl⟩

/-- A piece read inside the reasoning: the tag's first place is the whole text's, and what is held
covers every place it may still begin at. -/
theorem readsBody_takeReasoning {r : ReplySplit} {body piece : Bytes} {out : ReplyParts}
    (h : ReadsBody body r out) (hr : r.state = .reasoning) :
    ReadsBody (body ++ piece) (r.takeReasoning piece).1
      (out.append (r.takeReasoning piece).2) := by
  rw [ReadsBody, hr] at h
  obtain ⟨hno, hreply, a, rfl, ha, hk, hstart, rfl⟩ := h
  have hsplit := split_hold (p := piece) hno hk
  have hover := overlap_hold (p := piece) hk
  unfold ReplySplit.takeReasoning
  dsimp only
  cases hs : split thinkClose (r.held ++ piece) with
  | some found =>
    obtain ⟨before, rest⟩ := found
    rw [hs] at hsplit
    refine ⟨a ++ before, rest, hsplit, ?_, ?_⟩
    · have hcontent := (reply_out (r := { (r.reason before true).1 with held := [], state := .reply })
        (a := []) rest hreply).1
      simp only [ReplyParts.append, reason_last ha hstart]
      exact congrArg (ReplyParts.mk _) hcontent
    · exact (reply_out (r := { (r.reason before true).1 with held := [], state := .reply })
        (a := []) rest hreply).2
  | none =>
    rw [hs] at hsplit
    generalize hheld : r.held ++ piece = held at *
    have hle := overlap_le thinkClose held
    generalize hcut : (held.take (held.length - overlap thinkClose held)).rdropWhile isNewline =
      cut at *
    have hpre : cut <+: held := by
      rw [← hcut]
      exact (List.rdropWhile_prefix _ _).trans (List.take_prefix _ _)
    have hlen : cut.length ≤ held.length - overlap thinkClose held := by
      rw [← hcut]
      refine (List.rdropWhile_prefix _ _).length_le.trans ?_
      rw [List.length_take]
      omega
    have hset : cut.rdropWhile isNewline = cut := by
      rw [← hcut]
      exact List.rdropWhile_idempotent _ _
    obtain ⟨hout, hstarted⟩ := reason_out ha hset hstart
    have hbody : a ++ r.held ++ piece = (a ++ cut) ++ held.drop cut.length := by
      rw [List.append_assoc, List.append_assoc, hheld, ← List.prefix_iff_eq_append.mp hpre]
      simp
    have hstate : (r.reason cut false).1.state = .reasoning := hr
    dsimp only
    rw [ReadsBody]
    dsimp only
    rw [hstate]
    refine ⟨hsplit, hreply, a ++ cut, hbody, ?_, ?_, hstarted, ?_⟩
    · rw [rdropWhile_append ha, hset]
    · rw [hover, List.length_drop]
      omega
    · rw [ReplyParts.append, hout]
      rfl

/-- The split has read `text`. -/
def Reads (opened : Bool) (text : Bytes) (r : ReplySplit) (out : ReplyParts) : Prop :=
  match r.state with
  | .start =>
    opened = false ∧ opening opened text = none ∧ r = ⟨.start, text, false, false⟩ ∧ out = .empty
  | .plain => (∀ p, opening opened (text ++ p) = none) ∧ out = ⟨[], text⟩
  | _ => ∃ body, (∀ p, opening opened (text ++ p) = some (body ++ p)) ∧ ReadsBody body r out

theorem reads_new (opened : Bool) : Reads opened [] (ReplySplit.new opened) .empty := by
  cases opened with
  | false => exact ⟨rfl, rfl, rfl, rfl⟩
  | true =>
    refine ⟨[], fun p => rfl, rfl, rfl, [], rfl, rfl, ?_, rfl, rfl⟩
    exact overlap_le _ _

theorem readsBody_reads {opened : Bool} {text body : Bytes} {r : ReplySplit} {out : ReplyParts}
    (hopen : ∀ p, opening opened (text ++ p) = some (body ++ p)) (h : ReadsBody body r out) :
    Reads opened text r out := by
  unfold Reads
  split
  next hs =>
    rw [ReadsBody, hs] at h
    exact h.elim
  next hs =>
    rw [ReadsBody, hs] at h
    exact h.elim
  · exact ⟨body, hopen, h⟩

theorem opening_false (text : Bytes) :
    opening false text = if thinkOpen.isPrefixOf (text.dropWhile isNewline) then
      some ((text.dropWhile isNewline).drop thinkOpen.length) else none := rfl

/-- A reply's start decided by what follows its newlines. -/
theorem reads_takeStart {text piece : Bytes} :
    Reads false (text ++ piece) (ReplySplit.takeStart ⟨.start, text, false, false⟩ piece).1
      (ReplySplit.takeStart ⟨.start, text, false, false⟩ piece).2 := by
  unfold ReplySplit.takeStart
  dsimp only
  generalize text ++ piece = all
  have hopening := opening_false all
  have hdrop : ∀ p, all.dropWhile isNewline ≠ [] →
      (all ++ p).dropWhile isNewline = all.dropWhile isNewline ++ p := fun p => dropWhile_append
  generalize all.dropWhile isNewline = s at hopening hdrop ⊢
  split
  next hun =>
    refine ⟨rfl, ?_, rfl, rfl⟩
    rw [hopening, if_neg]
    intro hpre
    have hlen := (List.isPrefixOf_iff_prefix.mp hpre).length_le
    omega
  next hun =>
    have hne : s ≠ [] := by
      rintro rfl
      exact hun ⟨by decide, rfl⟩
    split
    next hopen =>
      have hbody : ∀ p, opening false (all ++ p) = some (s.drop thinkOpen.length ++ p) := by
        intro p
        have hlen := congrArg List.length hopen
        rw [List.length_take] at hlen
        rw [opening_false, hdrop p hne, if_pos, List.drop_append_of_le_length (by omega)]
        refine List.isPrefixOf_iff_prefix.mpr ?_
        rw [← hopen]
        exact (List.take_prefix _ s).trans (List.prefix_append s p)
      have hread : ReadsBody [] ⟨.reasoning, [], false, false⟩ .empty :=
        ⟨rfl, rfl, [], rfl, rfl, overlap_le _ _, rfl, rfl⟩
      exact readsBody_reads hbody (readsBody_takeReasoning hread rfl)
    next hno =>
      refine ⟨fun p => ?_, rfl⟩
      rw [opening_false, hdrop p hne, if_neg]
      intro hpre
      have hpre := List.isPrefixOf_iff_prefix.mp hpre
      by_cases hlen : s.length < thinkOpen.length
      · exact hun ⟨hlen, List.prefix_iff_eq_take.mp
          (List.prefix_of_prefix_length_le (List.prefix_append s p) hpre hlen.le)⟩
      · have hs := List.prefix_of_prefix_length_le hpre (List.prefix_append s p)
          (Nat.le_of_not_lt hlen)
        exact hno (List.prefix_iff_eq_take.mp hs).symm

theorem ReplyParts.empty_append (a : ReplyParts) : ReplyParts.empty.append a = a := rfl

theorem ReplyParts.append_assoc (a b c : ReplyParts) :
    (a.append b).append c = a.append (b.append c) := by
  simp [ReplyParts.append]

/-- One piece. -/
theorem reads_take {opened : Bool} {text : Bytes} {r : ReplySplit} {out : ReplyParts}
    (piece : Bytes) (h : Reads opened text r out) :
    Reads opened (text ++ piece) (r.take piece).1 (out.append (r.take piece).2) := by
  unfold ReplySplit.take
  cases hr : r.state with
  | start =>
    rw [Reads, hr] at h
    obtain ⟨rfl, -, rfl, rfl⟩ := h
    exact reads_takeStart
  | plain =>
    rw [Reads, hr] at h
    obtain ⟨hno, rfl⟩ := h
    dsimp only
    rw [Reads, hr]
    exact ⟨fun p => by rw [List.append_assoc]; exact hno _, rfl⟩
  | reasoning =>
    rw [Reads, hr] at h
    obtain ⟨body, hopen, h⟩ := h
    refine readsBody_reads (fun p => ?_) (readsBody_takeReasoning h hr)
    rw [List.append_assoc, hopen, List.append_assoc]
  | reply =>
    rw [Reads, hr] at h
    obtain ⟨body, hopen, h⟩ := h
    have hmore : ∀ p, opening opened (text ++ piece ++ p) = some (body ++ piece ++ p) := by
      intro p
      rw [List.append_assoc, hopen, List.append_assoc]
    refine readsBody_reads hmore ?_
    rw [ReadsBody, hr] at h
    obtain ⟨before, rest, hs, rfl, hstart⟩ := h
    obtain ⟨hout, hstarted⟩ := reply_out piece hstart
    have hstate : (r.reply piece).1.state = .reply := hr
    dsimp only
    rw [ReadsBody, hstate]
    refine ⟨before, rest ++ piece, split_more hs, ?_, hstarted⟩
    rw [ReplyParts.append, hout, List.append_nil]

theorem reads_feedAll {opened : Bool} (pieces : List Bytes) {text : Bytes} {r : ReplySplit}
    {out : ReplyParts} (h : Reads opened text r out) :
    Reads opened (text ++ pieces.flatten) (r.feedAll pieces).1
      (out.append (r.feedAll pieces).2) := by
  induction pieces generalizing text r out with
  | nil => simpa [ReplySplit.feedAll, ReplyParts.append, ReplyParts.empty] using h
  | cons piece pieces ih =>
    have hnext := ih (reads_take piece h)
    rw [List.append_assoc, ReplyParts.append_assoc] at hnext
    exact hnext

theorem reads_finish {opened : Bool} {text : Bytes} {r : ReplySplit} {out : ReplyParts}
    (h : Reads opened text r out) : out.append r.finish = splitReply opened text := by
  unfold ReplySplit.finish
  cases hr : r.state with
  | start =>
    rw [Reads, hr] at h
    obtain ⟨rfl, hopen, rfl, rfl⟩ := h
    rw [splitReply, hopen]
    rfl
  | plain =>
    rw [Reads, hr] at h
    obtain ⟨hno, rfl⟩ := h
    have hopen := hno []
    rw [List.append_nil] at hopen
    rw [splitReply, hopen]
    simp [ReplyParts.append, ReplyParts.empty]
  | reasoning =>
    rw [Reads, hr] at h
    obtain ⟨body, hopen, h⟩ := h
    have hopen := hopen []
    rw [ReadsBody, hr] at h
    obtain ⟨hno, -, a, rfl, ha, -, hstart, rfl⟩ := h
    rw [List.append_nil, List.append_nil] at hopen
    rw [splitReply, hopen]
    dsimp only
    rw [hno, ReplyParts.append, reason_last ha hstart]
    rfl
  | reply =>
    rw [Reads, hr] at h
    obtain ⟨body, hopen, h⟩ := h
    have hopen := hopen []
    rw [ReadsBody, hr] at h
    obtain ⟨before, rest, hs, rfl, -⟩ := h
    rw [List.append_nil, List.append_nil] at hopen
    rw [splitReply, hopen]
    dsimp only
    rw [hs]
    simp [ReplyParts.append, ReplyParts.empty]

/-- However a reply is cut, its parts are those of the split of the whole. -/
theorem run_eq (opened : Bool) (pieces : List Bytes) :
    ReplySplit.run opened pieces = splitReply opened pieces.flatten := by
  have h := reads_feedAll pieces (reads_new opened)
  rw [ReplyParts.empty_append, List.nil_append] at h
  exact reads_finish h

def Newlines (n : Bytes) : Prop := ∀ c ∈ n, isNewline c = true

theorem newlines_takeWhile (s : Bytes) : Newlines (s.takeWhile isNewline) :=
  fun _ hc => List.mem_takeWhile_imp hc

/-- A text is what trimming leaves and newlines on either side. -/
theorem trimmed_between (s : Bytes) :
    ∃ n m, Newlines n ∧ Newlines m ∧ s = n ++ trimmed s ++ m := by
  refine ⟨s.takeWhile isNewline, (s.dropWhile isNewline).rtakeWhile isNewline,
    newlines_takeWhile s, fun c hc => ?_, ?_⟩
  · exact List.mem_rtakeWhile_imp hc
  · rw [List.append_assoc, trimmed, List.rdropWhile_append_rtakeWhile,
      List.takeWhile_append_dropWhile]

/-- The text is what the split gives, the tags and newlines, each once and in order. -/
def SplitOf (opened : Bool) (text : Bytes) (out : ReplyParts) : Prop :=
  (opened = false ∧ out = ⟨[], text⟩) ∨
    ∃ start n m, Newlines n ∧ Newlines m ∧
      (if opened then start = [] else ∃ k, Newlines k ∧ start = k ++ thinkOpen) ∧
      ((text = start ++ n ++ out.reasoning ++ m ∧ out.content = []) ∨
        ∃ k, Newlines k ∧
          text = start ++ n ++ out.reasoning ++ m ++ thinkClose ++ k ++ out.content)

theorem opening_eq {opened : Bool} {text body : Bytes} (h : opening opened text = some body) :
    ∃ start, (if opened then start = [] else ∃ k, Newlines k ∧ start = k ++ thinkOpen) ∧
      text = start ++ body := by
  cases opened with
  | true =>
    cases Option.some.inj h
    exact ⟨[], rfl, rfl⟩
  | false =>
    rw [opening_false] at h
    split at h
    next hpre =>
      cases Option.some.inj h
      refine ⟨text.takeWhile isNewline ++ thinkOpen, ⟨_, newlines_takeWhile text, rfl⟩, ?_⟩
      rw [List.append_assoc,
        List.prefix_iff_eq_append.mp (List.isPrefixOf_iff_prefix.mp hpre),
        List.takeWhile_append_dropWhile]
    · cases h

theorem splitReply_splitOf (opened : Bool) (text : Bytes) :
    SplitOf opened text (splitReply opened text) := by
  unfold splitReply
  cases hopen : opening opened text with
  | none =>
    left
    refine ⟨?_, rfl⟩
    cases opened with
    | true => cases hopen
    | false => rfl
  | some body =>
    right
    obtain ⟨start, hstart, rfl⟩ := opening_eq hopen
    dsimp only
    cases hs : split thinkClose body with
    | none =>
      obtain ⟨n, m, hn, hm, he⟩ := trimmed_between body
      refine ⟨start, n, m, hn, hm, hstart, .inl ⟨?_, rfl⟩⟩
      conv_lhs => rw [he]
      simp only [List.append_assoc]
    | some found =>
      obtain ⟨reasoning, content⟩ := found
      obtain ⟨n, m, hn, hm, he⟩ := trimmed_between reasoning
      refine ⟨start, n, m, hn, hm, hstart, .inr ⟨content.takeWhile isNewline,
        newlines_takeWhile content, ?_⟩⟩
      dsimp only
      conv_lhs => rw [split_eq hs, he, ← List.takeWhile_append_dropWhile (p := isNewline) (l := content)]
      simp only [List.append_assoc]

theorem thinkOpen_borderless : Borderless thinkOpen := by decide

theorem thinkClose_borderless : Borderless thinkClose := by decide

theorem dropWhile_newlines {n s : Bytes} (hn : Newlines n) :
    (n ++ thinkOpen ++ s).dropWhile isNewline = thinkOpen ++ s := by
  rw [List.append_assoc, List.dropWhile_append_of_pos hn]
  rfl

/-- Newlines before a tag hold no place of it. -/
theorem not_infix_newlines {tag n s : Bytes} {c : UInt8} {cs : Bytes} (htag : tag = c :: cs)
    (hc : isNewline c = false) (hn : Newlines n) (hs : ¬ tag <:+: s) : ¬ tag <:+: n ++ s := by
  induction n with
  | nil => exact hs
  | cons d n ih =>
    obtain ⟨hd, hn⟩ := List.forall_mem_cons.mp hn
    rw [List.cons_append, List.infix_cons_iff, not_or]
    refine ⟨fun hpre => ?_, ih hn⟩
    rw [htag, List.cons_prefix_cons] at hpre
    rw [hpre.1, hd] at hc
    cases hc

theorem close_not_in_open {s : Bytes} (hs : ¬ thinkClose <:+: s) :
    ¬ thinkClose <:+: thinkOpen ++ s := by
  intro h
  simp only [thinkOpen, thinkClose, ascii, List.map_cons, List.map_nil, List.cons_append,
    List.nil_append, List.infix_cons_iff, List.cons_prefix_cons] at h hs
  revert h
  simp +decide [hs]

/-- The turn's split and the stream's, over a reply that opens its reasoning. -/
theorem assistantTurn_eq {n R C : Bytes} (hn : Newlines n) (hopen : ¬ thinkOpen <:+: R)
    (hclose : ¬ thinkClose <:+: R) (hC : ¬ thinkClose <:+: C) :
    assistantTurn (n ++ thinkOpen ++ R ++ thinkClose ++ C) =
      (C.dropWhile isNewline, some (trimmed R)) := by
  have hbefore : ¬ thinkClose <:+: n ++ thinkOpen ++ R := by
    rw [List.append_assoc]
    exact not_infix_newlines rfl rfl hn (close_not_in_open hclose)
  have hfirst := split_append (y := C) thinkClose_borderless thinkClose_ne_nil
    ((split_none thinkClose_ne_nil).mpr hbefore)
  have hlast := splitLast_append (x := n ++ thinkOpen ++ R) thinkClose_borderless
    thinkClose_ne_nil ((splitLast_none thinkClose_ne_nil).mpr hC)
  have htrim : (n ++ thinkOpen ++ R).rdropWhile isNewline =
      n ++ thinkOpen ++ R.rdropWhile isNewline := by
    refine rdropWhile_append (List.rdropWhile_eq_self_iff.mpr fun hne => ?_)
    rw [List.getLast_append_of_ne_nil _ thinkOpen_ne_nil]
    decide
  have hrest : ¬ thinkOpen <:+: R.rdropWhile isNewline := fun h =>
    hopen (h.trans (List.rdropWhile_prefix _ _).isInfix)
  have hopened := splitLast_append (x := n) thinkOpen_borderless thinkOpen_ne_nil
    ((splitLast_none thinkOpen_ne_nil).mpr hrest)
  rw [assistantTurn, hfirst, hlast]
  dsimp only
  rw [htrim, hopened]
  dsimp only
  rw [dropWhile_rdropWhile, trimmed]

theorem splitReply_eq {n R C : Bytes} (hn : Newlines n) (hclose : ¬ thinkClose <:+: R) :
    splitReply false (n ++ thinkOpen ++ R ++ thinkClose ++ C) =
      ⟨trimmed R, C.dropWhile isNewline⟩ := by
  have hassoc : n ++ thinkOpen ++ R ++ thinkClose ++ C =
      n ++ thinkOpen ++ (R ++ thinkClose ++ C) := by simp only [List.append_assoc]
  have hsplit := split_append (y := C) thinkClose_borderless thinkClose_ne_nil
    ((split_none thinkClose_ne_nil).mpr hclose)
  have hopen : opening false (n ++ thinkOpen ++ R ++ thinkClose ++ C) =
      some (R ++ thinkClose ++ C) := by
    rw [opening_false, hassoc, dropWhile_newlines hn, if_pos, List.drop_left]
    exact List.isPrefixOf_iff_prefix.mpr (List.prefix_append _ _)
  rw [splitReply, hopen]
  dsimp only
  rw [hsplit]

/-- However a reply is cut into pieces, its parts are those of the reply whole; they and the dropped
tags and newlines are its bytes, each once; and where the reply opens its reasoning itself and
closes it once, they are the assistant turn's. -/
theorem reply_split_whole (opened : Bool) (pieces : List Bytes) :
    ReplySplit.run opened pieces = ReplySplit.run opened [pieces.flatten] ∧
      SplitOf opened pieces.flatten (ReplySplit.run opened pieces) ∧
      ∀ n R C, Newlines n → ¬ thinkOpen <:+: R → ¬ thinkClose <:+: R → ¬ thinkClose <:+: C →
        pieces.flatten = n ++ thinkOpen ++ R ++ thinkClose ++ C → opened = false →
        assistantTurn pieces.flatten = ((ReplySplit.run opened pieces).content,
          some (ReplySplit.run opened pieces).reasoning) := by
  have hwhole : ReplySplit.run opened [pieces.flatten] = splitReply opened pieces.flatten := by
    rw [run_eq, List.flatten_singleton]
  refine ⟨by rw [run_eq, hwhole], ?_, ?_⟩
  · rw [run_eq]
    exact splitReply_splitOf opened pieces.flatten
  · intro n R C hn hopen hclose hC htext hfalse
    rw [run_eq, htext, hfalse, splitReply_eq hn hclose, assistantTurn_eq hn hopen hclose hC]

/-- A reply cut inside both tags. -/
def cutReply : List Bytes :=
  [[10] ++ thinkOpen.take 3, thinkOpen.drop 3 ++ [10, 97, 10] ++ thinkClose.take 4,
    thinkClose.drop 4 ++ [10, 98]]

theorem reply_split_whole_cut :
    assistantTurn cutReply.flatten = ((ReplySplit.run false cutReply).content,
      some (ReplySplit.run false cutReply).reasoning) ∧
      (ReplySplit.run false cutReply).content = [98] := by
  refine ⟨(reply_split_whole false cutReply).2.2 [10] [10, 97, 10] [10, 98] ?_ ?_ ?_ ?_ rfl rfl,
    by decide⟩
  · intro c hc
    rw [List.mem_singleton.mp hc]
    rfl
  all_goals decide

/-- A reply the template opened and the model opened again keeps the second tag in its reasoning. -/
theorem reply_opened_twice :
    ¬ ∀ (opened : Bool) (pieces : List Bytes) (n R C : Bytes), Newlines n → ¬ thinkOpen <:+: R →
      ¬ thinkClose <:+: R → ¬ thinkClose <:+: C →
      pieces.flatten = n ++ thinkOpen ++ R ++ thinkClose ++ C →
      assistantTurn pieces.flatten = ((ReplySplit.run opened pieces).content,
        some (ReplySplit.run opened pieces).reasoning) := by
  intro h
  have hrun := h true [thinkOpen ++ [97] ++ thinkClose ++ [98]] [] [97] [98]
    (fun _ hc => absurd hc List.not_mem_nil) (by decide) (by decide) (by decide) rfl
  revert hrun
  decide

end Llmx
