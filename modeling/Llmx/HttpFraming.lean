import Llmx.HttpArrival

namespace Llmx

namespace Http

def space : Bytes := [' '.toUInt8]

def colon : Bytes := [':'.toUInt8]

def contentLength : Bytes :=
  ascii ['c', 'o', 'n', 't', 'e', 'n', 't', '-', 'l', 'e', 'n', 'g', 't', 'h']

def transferEncoding : Bytes :=
  ascii ['t', 'r', 'a', 'n', 's', 'f', 'e', 'r', '-', 'e', 'n', 'c', 'o', 'd', 'i', 'n', 'g']

def isLetter (c : UInt8) : Bool :=
  ('A'.toUInt8 ≤ c && c ≤ 'Z'.toUInt8) || ('a'.toUInt8 ≤ c && c ≤ 'z'.toUInt8)

/-- The marks a header's name may have among its letters and digits. -/
def tokenMarks : Bytes := [33, 35, 36, 37, 38, 39, 42, 43, 45, 46, 94, 95, 96, 124, 126]

def isTokenChar (c : UInt8) : Bool := isDigit c || isLetter c || tokenMarks.contains c

def Token (name : Bytes) : Prop := name ≠ [] ∧ ∀ c ∈ name, isTokenChar c = true

/-- One decimal digit or more. -/
def Digits (text : Bytes) : Prop := text ≠ [] ∧ ∀ c ∈ text, isDigit c = true

def trimmed (value : Bytes) : Bytes := (value.dropWhile isBlank).rdropWhile isBlank

/-- The first line of a head and the text of those after it. -/
def cutLine (x : Bytes) : Bytes × Bytes := (Tags.split crlf x).getD (x, [])

/-- The lines after the first. -/
def headerLines (x : Bytes) : List Bytes := lines ((cutLine x).2.length + 1) (cutLine x).2

/-- The name and the value of a header's line, at its first colon. -/
def field (line : Bytes) : Option (Bytes × Bytes) := Tags.split colon line

/-- What the lines named by a key say, blanks around it left out. -/
def valuesOf (key : Bytes) (ls : List Bytes) : List Bytes :=
  ls.filterMap fun line => (field line).bind fun nv =>
    if nv.1.map lower = key then some (trimmed nv.2) else none

/-- A head no two readers take apart differently: names that are tokens, and lengths in digits that
are all one number of 64 bits. -/
structure PlainHead (x : Bytes) : Prop where
  names : ∀ line ∈ headerLines x, ∃ name value, field line = some (name, value) ∧ Token name
  lengths : ∀ text ∈ valuesOf contentLength (headerLines x), Digits text ∧ digitsValue text < 2 ^ 64
  alike : ∀ a ∈ valuesOf contentLength (headerLines x),
    ∀ b ∈ valuesOf contentLength (headerLines x), digitsValue a = digitsValue b

/-- A request is what a head and the bytes after it hold, with one way to take them apart. -/
structure Framed (limits : Limits) (x y : Bytes) (req : Request) : Prop where
  requestLine : ∃ target version, (cutLine x).1 = req.method ++ space ++ target ++ space ++ version ∧
    ' '.toUInt8 ∉ req.method ∧ ' '.toUInt8 ∉ target ∧ target.head? = some '/'.toUInt8 ∧
    (version = ascii ['H', 'T', 'T', 'P', '/', '1', '.', '1'] ∨
      version = ascii ['H', 'T', 'T', 'P', '/', '1', '.', '0'])
  names : ∀ line ∈ headerLines x, ∃ name value, field line = some (name, value) ∧ Token name
  digits : ∀ text ∈ valuesOf contentLength (headerLines x),
    Digits text ∧ digitsValue text = req.body.length
  none : valuesOf contentLength (headerLines x) = [] → req.body = []
  within : req.body.length ≤ limits.maxBodyBytes ∧ req.body.length < 2 ^ 64
  whole : ∀ line ∈ headerLines x, ∀ name value, field line = some (name, value) →
    (name.filter fun c => !isSpace c).map lower ≠ transferEncoding
  body : req.body <+: y

variable {headers out : List (Bytes × Bytes)} {key name value : Bytes}

/-- What a key's entry is. -/
def lookup (headers : List (Bytes × Bytes)) (key : Bytes) : Option Bytes :=
  (headers.find? fun kv => kv.1 == key).map Prod.snd

theorem lookup_setHeader (key value : Bytes) (headers : List (Bytes × Bytes)) (k : Bytes) :
    lookup (setHeader key value headers) k = if key = k then some value else lookup headers k := by
  induction headers with
  | nil =>
    unfold lookup setHeader
    split
    next h => simp [h]
    next h => simp [h]
  | cons kv headers ih =>
    obtain ⟨k', v'⟩ := kv
    rw [setHeader]
    split
    next heq =>
      unfold lookup
      by_cases h : key = k
      · simp [heq, h]
      · simp [heq, h]
    next hne =>
      have hcons : ∀ hs, lookup ((k', v') :: hs) k = if k' = k then some v' else lookup hs k := by
        intro hs
        unfold lookup
        by_cases h : k' = k
        · simp [h]
        · simp [h]
      rw [hcons, hcons, ih]
      by_cases h : k' = k
      · rw [if_pos h, if_pos h, if_neg fun h' => hne (h.trans h'.symm)]
      · rw [if_neg h, if_neg h]

theorem valuesOf_cons (key line : Bytes) (ls : List Bytes) : valuesOf key (line :: ls) =
    valuesOf key [line] ++ valuesOf key ls := by
  unfold valuesOf
  rw [← List.filterMap_append, List.singleton_append]

/-- The last of a key's lines is kept. -/
theorem parseHeaders_lookup {ls : List Bytes} (h : parseHeaders ls headers = some out) (key : Bytes) :
    lookup out key = (valuesOf key ls).getLast?.or (lookup headers key) := by
  induction ls generalizing headers with
  | nil =>
    obtain rfl := Option.some.inj h
    exact Eq.refl _
  | cons line ls ih =>
    rw [parseHeaders] at h
    rw [valuesOf_cons]
    split at h
    next hnil =>
      have hvalues : valuesOf key [line] = [] := by
        rw [hnil]
        exact Eq.refl _
      rw [hvalues, List.nil_append]
      exact ih h
    next =>
    split at h
    next => cases h
    next name value hsplit =>
    split at h
    next => cases h
    next hne =>
      rw [ih h, lookup_setHeader]
      have hfield : field line = some (name, value) := hsplit
      have hone : valuesOf key [line] = if name.map lower = key then [trimmed value] else [] := by
        by_cases hkey : name.map lower = key
        · simp [valuesOf, hfield, hkey]
        · simp [valuesOf, hfield, hkey]
      rw [hone]
      split
      next hkey =>
        rw [List.getLast?_append, List.getLast?_singleton, Option.or_assoc]
        exact Eq.refl _
      next hkey => rw [List.nil_append]

theorem digit_spec {c : UInt8} (h : isDigit c = true) :
    isSpace c = false ∧ (c != 0) = true ∧ c ≠ '-'.toUInt8 ∧ c ≠ '+'.toUInt8 := by
  unfold isDigit at h
  obtain ⟨hlow, hhigh⟩ := Bool.and_eq_true_iff.mp h
  have hlow : 48 ≤ c.toNat := UInt8.le_iff_toNat_le.mp (of_decide_eq_true hlow)
  have hne : ∀ d : UInt8, d.toNat < 48 → c ≠ d := by
    intro d hd heq
    rw [heq] at hlow
    omega
  have hsmall : ¬ c ≤ 13 := by
    intro hle
    have hle : c.toNat ≤ 13 := UInt8.le_iff_toNat_le.mp hle
    omega
  refine ⟨?_, bne_iff_ne.mpr (hne 0 (by decide)), hne _ (by decide), hne _ (by decide)⟩
  unfold isSpace
  rw [beq_false_of_ne (hne _ (by decide)), decide_eq_false hsmall, Bool.and_false, Bool.or_false]

theorem digits_strtoull {text : Bytes} (hd : Digits text) (hv : digitsValue text < 2 ^ 64) :
    strtoull text = some (digitsValue text) := by
  obtain ⟨hne, hall⟩ := hd
  obtain ⟨c, rest, rfl⟩ := List.exists_cons_of_ne_nil hne
  obtain ⟨hspace, hzero, hminus, hplus⟩ := digit_spec (hall c List.mem_cons_self)
  have htext : (c :: rest).takeWhile (· != 0) = c :: rest :=
    List.takeWhile_eq_self_iff.mpr fun d hd => (digit_spec (hall d hd)).2.1
  have hbody : (c :: rest).dropWhile isSpace = c :: rest := by
    apply List.dropWhile_cons_of_neg
    rw [hspace]
    exact Bool.false_ne_true
  have hdigits : (c :: rest).takeWhile isDigit = c :: rest := List.takeWhile_eq_self_iff.mpr hall
  have hend : (c :: rest).dropWhile isDigit = [] := List.dropWhile_eq_nil_iff.mpr hall
  have hneg : ((c :: rest).head? == some '-'.toUInt8) = false :=
    beq_false_of_ne fun h => hminus (Option.some.inj h)
  have hpos : ((c :: rest).head? == some '+'.toUInt8) = false :=
    beq_false_of_ne fun h => hplus (Option.some.inj h)
  unfold strtoull
  dsimp only
  rw [htext, hbody, hneg, hpos, Bool.or_self, if_neg Bool.false_ne_true, hdigits, hend, if_neg hne,
    if_neg (not_not.mpr (Eq.refl _)), if_neg (Nat.not_le.mpr hv), if_neg Bool.false_ne_true]

variable {limits : Limits} {a : Arrival} {x y : Bytes} {req : Request}

theorem strtoull_lt {text : Bytes} {n : Nat} (h : strtoull text = some n) : n < 2 ^ 64 := by
  have hpow := Nat.two_pow_pos 64
  revert h
  unfold strtoull
  dsimp only
  generalize text.takeWhile (· != 0) = t
  generalize (if ((t.dropWhile isSpace).head? == some '-'.toUInt8 ||
    (t.dropWhile isSpace).head? == some '+'.toUInt8) = true then (t.dropWhile isSpace).tail
    else t.dropWhile isSpace) = body
  generalize ((t.dropWhile isSpace).head? == some '-'.toUInt8) = negative
  intro h
  split_ifs at h
  all_goals cases h
  all_goals omega

/-- What comes before the first place of a byte has none of it. -/
theorem split_fresh {c : UInt8} {s before after : Bytes}
    (h : Tags.split [c] s = some (before, after)) : c ∉ before := by
  induction s generalizing before after with
  | nil => cases h
  | cons d s ih =>
    rw [Tags.split] at h
    split at h
    next =>
      rw [← (Prod.mk.inj (Option.some.inj h)).1]
      exact List.not_mem_nil
    next hpre =>
      obtain ⟨⟨a, b⟩, hs, heq⟩ := Option.map_eq_some_iff.mp h
      rw [← (Prod.mk.inj heq).1, List.mem_cons, not_or]
      refine ⟨fun hcd => hpre ?_, ih hs⟩
      rw [hcd]
      simp

/-- What an accepted request's head has passed. -/
theorem parseHead_spec (h : parseHead x = some req) :
    (∃ target version, (cutLine x).1 = req.method ++ space ++ target ++ space ++ version ∧
      ' '.toUInt8 ∉ req.method ∧ ' '.toUInt8 ∉ target ∧ target.head? = some '/'.toUInt8 ∧
      (version = ascii ['H', 'T', 'T', 'P', '/', '1', '.', '1'] ∨
        version = ascii ['H', 'T', 'T', 'P', '/', '1', '.', '0'])) ∧
      parseHeaders (headerLines x) [] = some req.headers := by
  unfold headerLines cutLine
  unfold parseHead at h
  generalize (Tags.split crlf x).getD (x, []) = cut at h ⊢
  obtain ⟨line, rest⟩ := cut
  dsimp only at h ⊢
  split at h
  next => cases h
  next method rest' hmethod =>
  split at h
  next => cases h
  next target version htarget =>
  split at h
  next => cases h
  next hversion =>
  split at h
  next => cases h
  next hslash =>
  obtain ⟨headers, hheaders, rfl⟩ := Option.map_eq_some_iff.mp h
  refine ⟨⟨target, version, ?_, split_fresh hmethod, split_fresh htarget,
    not_not.mp hslash, ?_⟩, hheaders⟩
  · rw [Tags.split_eq hmethod, Tags.split_eq htarget]
    simp only [List.append_assoc]
    exact Eq.refl _
  · rcases not_and_or.mp hversion with hv | hv
    · exact .inl (not_not.mp hv)
    · exact .inr (not_not.mp hv)

/-- An accepted request, its head and what follows it. -/
theorem readRequest_accepts (h : readRequest limits a = .request req) :
    ∃ x y head length, Tags.split blankLine a.rest = some (x, y) ∧
      checkHead limits x = .ok (head, length) ∧ length ≤ y.length ∧
      req = { head with body := y.take length } := by
  cases hsplit : Tags.split blankLine a.rest with
  | none =>
    rw [readRequest, readHead_none [] a (List.nil_append _).symm hsplit] at h
    cases h
  | some xy =>
    obtain ⟨x, y⟩ := xy
    rcases readRequest_some limits a.sizes hsplit with ⟨hread, -⟩ | ⟨y', -, hread, -, -⟩
    · rw [hread] at h
      cases h
    · rw [hread, finish] at h
      split at h
      next => cases h
      next head length hcheck =>
        split at h
        next => cases h
        next hno =>
          refine ⟨x, y, head, length, Eq.refl _, hcheck, ?_, (Outcome.request.inj h).symm⟩
          exact Nat.le_of_not_lt (not_or.mp hno).2

theorem checkHead_spec {length : Nat} (h : checkHead limits x = .ok (req, length)) :
    parseHead x = some req ∧ length ≤ limits.maxBodyBytes ∧
      lookup req.headers transferEncoding = none ∧
      (lookup req.headers contentLength).elim (some 0) strtoull = some length := by
  unfold checkHead at h
  split at h
  next => cases h
  next head hparse =>
  dsimp only at h
  split at h
  next => cases h
  next n hn =>
  split at h
  next => cases h
  next htransfer =>
  split at h
  next => cases h
  next hmost =>
    cases h
    refine ⟨hparse, Nat.le_of_not_lt hmost, ?_, ?_⟩
    · cases hlookup : lookup req.headers transferEncoding with
      | none => exact Eq.refl _
      | some v => exact absurd (congrArg Option.isSome hlookup) htransfer
    · have hsame : header req (ascii ['c', 'o', 'n', 't', 'e', 'n', 't', '-', 'l', 'e', 'n', 'g',
          't', 'h']) = lookup req.headers contentLength := Eq.refl _
      rw [hsame] at hn
      revert hn
      cases lookup req.headers contentLength with
      | none => exact fun hn => hn
      | some v => exact fun hn => hn

theorem mem_valuesOf {text : Bytes} {ls : List Bytes} : text ∈ valuesOf key ls ↔
    ∃ line ∈ ls, ∃ name value, field line = some (name, value) ∧ name.map lower = key ∧
      trimmed value = text := by
  unfold valuesOf
  rw [List.mem_filterMap]
  refine exists_congr fun line => and_congr_right fun _ => ?_
  cases hfield : field line with
  | none => simp
  | some nv =>
    obtain ⟨name, value⟩ := nv
    simp

theorem token_spec {c : UInt8} (h : isTokenChar c = true) : isSpace c = false := by
  have hspace : isSpace c = true → c.toNat = 32 ∨ c.toNat ≤ 13 := by
    intro h
    unfold isSpace at h
    rcases Bool.or_eq_true_iff.mp h with h | h
    · exact .inl (congrArg UInt8.toNat (beq_iff_eq.mp h))
    · exact .inr (UInt8.le_iff_toNat_le.mp (of_decide_eq_true (Bool.and_eq_true_iff.mp h).2))
  apply Bool.eq_false_iff.mpr
  intro hs
  have hlow : 33 ≤ c.toNat := by
    unfold isTokenChar at h
    rcases Bool.or_eq_true_iff.mp h with h | h
    · rcases Bool.or_eq_true_iff.mp h with h | h
      · rw [(digit_spec h).1] at hs
        cases hs
      · unfold isLetter at h
        rcases Bool.or_eq_true_iff.mp h with h | h
        all_goals
          have hle := UInt8.le_iff_toNat_le.mp (of_decide_eq_true (Bool.and_eq_true_iff.mp h).1)
          exact Nat.le_trans (by decide) hle
    · have hall : tokenMarks.all (fun c => 33 ≤ c.toNat) = true := by decide
      exact of_decide_eq_true (List.all_eq_true.mp hall c (List.contains_iff_mem.mp h))
  rcases hspace hs with h | h <;> omega

/-- A name that is a token has no blanks. -/
theorem token_filter (h : Token name) : (name.filter fun c => !isSpace c) = name := by
  apply List.filter_eq_self.mpr
  intro c hc
  rw [token_spec (h.2 c hc)]
  exact Eq.refl _

/-- An accepted request is framed in one way exactly where its head is plain. -/
theorem accepted_framed_iff (h : readRequest limits a = .request req) :
    ∃ x y, Tags.split blankLine a.rest = some (x, y) ∧ (Framed limits x y req ↔ PlainHead x) := by
  obtain ⟨x, y, head, length, hsplit, hcheck, hlength, rfl⟩ := readRequest_accepts h
  obtain ⟨hparse, hmost, htransfer, hread⟩ := checkHead_spec hcheck
  obtain ⟨hline, hheaders⟩ := parseHead_spec hparse
  have hbody : (y.take length).length = length := by
    rw [List.length_take, Nat.min_eq_left hlength]
  refine ⟨x, y, hsplit, fun hframed => ⟨hframed.names, fun text htext => ?_, fun b hb c hc => ?_⟩,
    fun hplain => ?_⟩
  · obtain ⟨hdigits, hvalue⟩ := hframed.digits text htext
    rw [hvalue]
    exact ⟨hdigits, hframed.within.2⟩
  · rw [(hframed.digits b hb).2, (hframed.digits c hc).2]
  · have hcl := parseHeaders_lookup hheaders contentLength
    have hte := parseHeaders_lookup hheaders transferEncoding
    have hnil : ∀ key, lookup [] key = none := fun _ => Eq.refl _
    rw [hnil, Option.or_none] at hcl hte
    rw [htransfer] at hte
    rw [hcl] at hread
    have hvalue : ∀ text ∈ valuesOf contentLength (headerLines x), digitsValue text = length := by
      intro text htext
      cases hlast : (valuesOf contentLength (headerLines x)).getLast? with
      | none =>
        rw [List.getLast?_eq_none_iff.mp hlast] at htext
        exact absurd htext List.not_mem_nil
      | some v =>
        rw [hlast] at hread
        have hmem := List.mem_of_getLast? hlast
        obtain ⟨hdigits, hlt⟩ := hplain.lengths v hmem
        rw [hplain.alike text htext v hmem]
        exact Option.some.inj ((digits_strtoull hdigits hlt).symm.trans hread)
    have hlt : length < 2 ^ 64 := by
      cases hlast : (valuesOf contentLength (headerLines x)).getLast? with
      | none =>
        rw [hlast] at hread
        rw [← Option.some.inj hread]
        exact Nat.two_pow_pos 64
      | some v =>
        rw [hlast] at hread
        exact strtoull_lt hread
    refine ⟨hline, hplain.names, fun text htext => ?_, fun hempty => ?_, ?_, ?_, List.take_prefix _ _⟩
    · refine ⟨(hplain.lengths text htext).1, ?_⟩
      dsimp only
      rw [hbody, hvalue text htext]
    · rw [hempty] at hread
      have hzero : 0 = length := Option.some.inj hread
      dsimp only
      rw [← hzero, List.take_zero]
    · dsimp only
      rw [hbody]
      exact ⟨hmost, hlt⟩
    · intro line hmem name value hfield
      obtain ⟨name', value', hfield', htoken⟩ := hplain.names line hmem
      rw [hfield] at hfield'
      obtain ⟨rfl, rfl⟩ := Prod.mk.inj (Option.some.inj hfield')
      rw [token_filter htoken]
      intro hname
      have hin : trimmed value ∈ valuesOf transferEncoding (headerLines x) :=
        mem_valuesOf.mpr ⟨line, hmem, name, value, hfield, hname, Eq.refl _⟩
      rw [List.getLast?_eq_none_iff.mp hte.symm] at hin
      exact List.not_mem_nil hin

def getLine : Bytes := ascii ['G', 'E', 'T', ' ', '/', ' ', 'H', 'T', 'T', 'P', '/', '1', '.', '1']

/-- A head of one line and header lines. -/
def headOf (ls : List Bytes) : Bytes := getLine ++ ls.flatMap fun line => crlf ++ line

/-- A request that comes at once. -/
theorem readRequest_once {x y : Bytes}
    (hsplit : Tags.split blankLine (x ++ blankLine ++ y) = some (x, y))
    (hlen : x.length + 4 ≤ 4096) : readRequest {} ⟨x ++ blankLine ++ y, [4096]⟩ =
      finish {} x (y.take (4096 - (x.length + 4))) y := by
  have hones := readRequest_ones {} (p := 0) (n := 4096) hsplit (Nat.zero_le _) (Nat.succ_pos _)
    (by omega) (Nat.le_refl _)
  rw [Nat.zero_add] at hones
  exact hones

/-- `Content-Length: 1` with one byte after it. -/
def plainHead : Bytes := headOf [contentLength ++ ascii [':', ' ', '1']]

theorem accepted_framed_plain : ∃ x y, Tags.split blankLine (plainHead ++ blankLine ++ [120]) =
    some (x, y) ∧
      (Framed {} x y ⟨ascii ['G', 'E', 'T'], ['/'.toUInt8], [], [(contentLength, ['1'.toUInt8])],
        [120]⟩ ↔ PlainHead x) := by
  have hread := readRequest_once (x := plainHead) (y := [120]) (by decide) (by decide)
  exact accepted_framed_iff (hread.trans (by decide))

/-- A length with a sign, a name with a blank before its colon, and two lengths are all accepted. -/
theorem loose_heads_accepted :
    (∃ req, readRequest {} ⟨headOf [contentLength ++ ascii [':', ' ', '+', '1']] ++ blankLine ++ [120],
        [4096]⟩ = .request req ∧
      ¬ Framed {} (headOf [contentLength ++ ascii [':', ' ', '+', '1']]) [120] req) ∧
    (∃ req, readRequest {} ⟨headOf [transferEncoding ++ ascii [' ', ':', 'x']] ++ blankLine ++ [],
        [4096]⟩ = .request req ∧
      ¬ Framed {} (headOf [transferEncoding ++ ascii [' ', ':', 'x']]) [] req) ∧
    ∃ req, readRequest {} ⟨headOf [contentLength ++ ascii [':', '2'], contentLength ++ ascii [':', '1']] ++
        blankLine ++ [120], [4096]⟩ = .request req ∧
      ¬ Framed {} (headOf [contentLength ++ ascii [':', '2'], contentLength ++ ascii [':', '1']])
        [120] req := by
  refine ⟨⟨⟨ascii ['G', 'E', 'T'], ['/'.toUInt8], [], [(contentLength, ascii ['+', '1'])], [120]⟩,
      (readRequest_once (by decide) (by decide)).trans (by decide), fun hframed => ?_⟩,
    ⟨⟨ascii ['G', 'E', 'T'], ['/'.toUInt8], [],
      [(transferEncoding ++ [' '.toUInt8], ['x'.toUInt8])], []⟩,
      (readRequest_once (by decide) (by decide)).trans (by decide), fun hframed => ?_⟩,
    ⟨ascii ['G', 'E', 'T'], ['/'.toUInt8], [], [(contentLength, ascii ['1'])], [120]⟩,
      (readRequest_once (by decide) (by decide)).trans (by decide), fun hframed => ?_⟩
  · obtain ⟨⟨-, hall⟩, -⟩ := hframed.digits (ascii ['+', '1']) (by decide)
    exact absurd (hall '+'.toUInt8 (by decide)) (by decide)
  · exact hframed.whole (transferEncoding ++ ascii [' ', ':', 'x']) (by decide)
      (transferEncoding ++ [' '.toUInt8]) ['x'.toUInt8] (by decide) (by decide)
  · exact absurd (hframed.digits (ascii ['2']) (by decide)).2 (by decide)

end Http

end Llmx
