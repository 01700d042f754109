import Mathlib

/-!
# Shortening the messages of a check

`shorten` (`services/config_check.rs`) cuts every quoted echo of a message, and then the message.
It marks the characters after a backslash once, from the start of the message, and finds where
each quote would close from right to left; `shortenReference` scans forward from every quote that
opens, and counts backslashes afresh.

A quote is no backslash, so the marks of the text after it are the marks of the message there
(`marks_drop`), and both find the same closing quote (`nextFrom_head`). What they make of a
message is said by `Reads` : the message as a list of characters and echoes, each echo opened and
closed as it should be, each other quote one that opens nothing (`shorten_spec`).
-/

set_option linter.unusedSectionVars false

namespace EngineConsole.Shorten

abbrev Text := List Char

/-- `MAX_ECHO_CHARS` -/
def maxEchoChars : ℕ := 80

/-- `MAX_MESSAGE_CHARS` -/
def maxMessageChars : ℕ := 500

variable (alnum : Char → Bool)

/-- `word` : a letter, a digit or an underscore; `alnum` is `char::is_alphanumeric`. -/
def word (c : Option Char) : Bool :=
  c.any fun c => alnum c || c = '_'

/-- A quote. -/
def isQuote (c : Char) : Bool :=
  c = '\'' || c = '"'

/-! ## Where a quote closes -/

/-- `escaped` : the characters that a scan from the start skips. -/
def marks : Text → List Bool
  | [] => []
  | c :: s =>
    if c = '\\' then
      match s with
      | [] => [false]
      | _ :: s => false :: true :: marks s
    else false :: marks s

/-- `next_close` from the character at `j` on. -/
def nextFrom (q : Char) : ℕ → Text → List Bool → List (Option ℕ)
  | j, c :: s, e :: es =>
    let later := nextFrom q (j + 1) s es
    (if !e && c = q && !word alnum s.head? then some j else later.headD none) :: later
  | _, _, _ => [none]

/-- `next_close` -/
def nextClose (chars : Text) (q : Char) : List (Option ℕ) :=
  nextFrom alnum q 0 chars (marks chars)

/-- The scan of the reference, from the character at `j` on. -/
def scanFrom (q : Char) : ℕ → Text → Option ℕ
  | _, [] => none
  | j, c :: s =>
    if c = '\\' then
      match s with
      | [] => none
      | _ :: s => scanFrom q (j + 2) s
    else if c = q ∧ word alnum s.head? = false then some j
    else scanFrom q (j + 1) s

/-! ## The message -/

/-- The loop over the message, of at most so many steps, with a way to find where a quote
closes. -/
def emit (close : ℕ → Char → Option ℕ) (chars : Text) : ℕ → ℕ → Text
  | 0, _ => []
  | fuel + 1, i =>
    match chars[i]? with
    | none => []
    | some c =>
      let before := if i = 0 then none else chars[i - 1]?
      let opens := isQuote c && !word alnum before
      match if opens then close i c else none with
      | some j =>
        if maxEchoChars < j - i - 1 then
          c :: ((chars.drop (i + 1)).take maxEchoChars ++ '…' :: c :: emit close chars fuel (j + 1))
        else (chars.drop i).take (j + 1 - i) ++ emit close chars fuel (j + 1)
      | none => c :: emit close chars fuel (i + 1)

/-- The whole cut. -/
def cutMessage (out : Text) : Text :=
  if maxMessageChars < out.length then out.take maxMessageChars ++ ['…'] else out

/-- `shorten` -/
def shorten (msg : Text) : Text :=
  let single := nextClose alnum msg '\''
  let double := nextClose alnum msg '"'
  let close i c := if c = '\'' then (single[i + 1]?).join else (double[i + 1]?).join
  cutMessage (emit alnum close msg msg.length 0)

/-- `shorten_reference` -/
def shortenReference (msg : Text) : Text :=
  cutMessage (emit alnum (fun i c => scanFrom alnum c (i + 1) (msg.drop (i + 1))) msg msg.length 0)

/-! ## Both find the same closing quote -/

variable {alnum} {q c : Char} {s t chars : Text} {i j k : ℕ}

theorem marks_length : ∀ s : Text, (marks s).length = s.length
  | [] => rfl
  | [c] => by
    rw [marks]
    split_ifs <;> rfl
  | c :: d :: s => by
    rw [marks]
    split_ifs
    · rw [List.length_cons, List.length_cons, marks_length s, List.length_cons, List.length_cons]
    · rw [List.length_cons, marks_length (d :: s)]
      rfl

/-- After a character that is no backslash the marks start afresh. -/
theorem marks_drop : ∀ (s : Text) (i : ℕ) {c : Char}, s[i]? = some c → c ≠ '\\' →
    (marks s).drop (i + 1) = marks (s.drop (i + 1))
  | [], i, c, h, _ => by cases h
  | [x], i, c, h, hc => by
    cases i with
    | zero =>
      obtain rfl := Option.some.inj h
      rw [marks, if_neg hc]
      rfl
    | succ i => cases h
  | x :: y :: s, i, c, h, hc => by
    rw [marks]
    split_ifs with hx
    · match i with
      | 0 => exact absurd (Option.some.inj h) (by rintro rfl; exact hc hx)
      | 1 => rfl
      | i + 2 => exact marks_drop s i h hc
    · cases i with
      | zero => rfl
      | succ i => exact marks_drop (y :: s) i h hc

/-- Where the marks start afresh, the table from right to left has what the scan finds. -/
theorem nextFrom_head (hq : q ≠ '\\') : ∀ (s : Text) (j : ℕ),
    (nextFrom alnum q j s (marks s)).headD none = scanFrom alnum q j s
  | [], j => rfl
  | [c], j => by
    rw [marks, scanFrom]
    split_ifs with hc hclose
    · have hne : c ≠ q := fun h => hq (h ▸ hc)
      simp [nextFrom, hne]
    · simp [nextFrom, hclose.1, word]
    · rw [not_and, Bool.not_eq_false] at hclose
      by_cases hcq : c = q
      · exact absurd (hclose hcq) (by simp [word])
      · simp [nextFrom, scanFrom, hcq]
  | c :: d :: s, j => by
    rw [marks, scanFrom]
    split_ifs with hc hclose
    · have hne : c ≠ q := fun h => hq (h ▸ hc)
      have hlater := nextFrom_head hq s (j + 2)
      simpa [nextFrom, hne] using hlater
    · have hword := hclose.2
      rw [List.head?_cons] at hword
      simp [nextFrom, hclose.1, hword]
    · have hlater := nextFrom_head hq (d :: s) (j + 1)
      rw [nextFrom, List.headD_cons, hlater, if_neg]
      simpa using hclose

/-- The table at a later place is the table from there on. -/
theorem nextFrom_get : ∀ (s : Text) (es : List Bool) (j k : ℕ), s.length = es.length →
    k ≤ s.length →
    ((nextFrom alnum q j s es)[k]?).join =
      (nextFrom alnum q (j + k) (s.drop k) (es.drop k)).headD none
  | [], [], j, k, _, hk => by
    rw [Nat.le_zero.1 hk]
    rfl
  | c :: s, e :: es, j, 0, _, _ => by
    simp [nextFrom]
  | c :: s, e :: es, j, k + 1, hlen, hk => by
    have hlater := nextFrom_get s es (j + 1) k (Nat.succ.inj hlen) (Nat.le_of_succ_le_succ hk)
    rw [nextFrom, List.getElem?_cons_succ, hlater, List.drop_succ_cons, List.drop_succ_cons,
      show j + 1 + k = j + (k + 1) by omega]

/-- The closing quote in the table is the one the scan finds. -/
theorem nextClose_eq (hi : chars[i]? = some c) (hc : isQuote c = true) :
    ((nextClose alnum chars c)[i + 1]?).join = scanFrom alnum c (i + 1) (chars.drop (i + 1)) := by
  have hne : c ≠ '\\' := by
    rintro rfl
    cases hc
  have hlt := (List.getElem?_eq_some_iff.1 hi).1
  rw [nextClose, nextFrom_get chars _ 0 (i + 1) (marks_length chars).symm hlt, Nat.zero_add,
    marks_drop chars i hi hne, nextFrom_head hne]

theorem emit_congr {close close' : ℕ → Char → Option ℕ}
    (h : ∀ i c, chars[i]? = some c → isQuote c = true → close i c = close' i c) :
    ∀ fuel i, emit alnum close chars fuel i = emit alnum close' chars fuel i
  | 0, _ => rfl
  | fuel + 1, i => by
    have ih := emit_congr h fuel
    rw [emit, emit]
    rcases hi : chars[i]? with _ | c
    · rfl
    · dsimp only
      by_cases hc : isQuote c = true
      · simp only [h i c hi hc, ih]
      · rw [Bool.eq_false_iff.2 hc]
        simp only [Bool.false_and, Bool.false_eq_true, if_false, ih]

/-- The fast version and the forward scan make the same of every message. -/
theorem shorten_eq_reference (alnum : Char → Bool) (msg : Text) :
    shorten alnum msg = shortenReference alnum msg := by
  rw [shorten, shortenReference]
  refine congrArg cutMessage (emit_congr (fun i c hi hc => ?_) _ _)
  have hclose : ((nextClose alnum msg c)[i + 1]?).join =
      scanFrom alnum c (i + 1) (msg.drop (i + 1)) := nextClose_eq hi hc
  split_ifs with hsingle
  · rw [← hsingle]
    exact hclose
  · have hdouble : c = '"' := by simpa [isQuote, hsingle] using hc
    rw [← hdouble]
    exact hclose

/-! ## What becomes of a message -/

variable (alnum) in
/-- A quote closes : what is before its closing quote, and what is after. A backslash skips the
character after it, and a quote before a word character does not close. -/
inductive Closes (q : Char) : Text → Text → Text → Prop
  | here {rest} : word alnum rest.head? = false → Closes q (q :: rest) [] rest
  | skip {c s body rest} : Closes q s body rest → Closes q ('\\' :: c :: s) ('\\' :: c :: body) rest
  | step {c s body rest} : c ≠ '\\' → ¬(c = q ∧ word alnum s.head? = false) →
      Closes q s body rest → Closes q (c :: s) (c :: body) rest

/-- A part of a message : a character, or an echo with its quote and what is in it. -/
inductive Part where
  | plain (c : Char)
  | echo (q : Char) (body : Text)

/-- The part in the message. -/
def Part.source : Part → Text
  | .plain c => [c]
  | .echo q body => q :: body ++ [q]

/-- The part in the answer : a long echo is cut. -/
def Part.shown : Part → Text
  | .plain c => [c]
  | .echo q body =>
    if maxEchoChars < body.length then q :: body.take maxEchoChars ++ ['…', q]
    else q :: body ++ [q]

variable (alnum) in
/-- The parts of a text, after the character `before`. A quote after a character of no word that
closes is an echo, every other character stands for itself. -/
inductive Reads : Option Char → Text → List Part → Prop
  | nil {before} : Reads before [] []
  | echo {before q s body rest parts} : isQuote q = true → word alnum before = false →
      Closes alnum q s body rest → Reads (some q) rest parts →
      Reads before (q :: s) (.echo q body :: parts)
  | plain {before c s parts} :
      (isQuote c = true → word alnum before = false → ∀ body rest, ¬Closes alnum c s body rest) →
      Reads (some c) s parts → Reads before (c :: s) (.plain c :: parts)

theorem Closes.text {body rest : Text} (h : Closes alnum q s body rest) :
    s = body ++ q :: rest := by
  induction h with
  | here _ => rfl
  | skip _ ih => rw [ih]; rfl
  | step _ _ _ ih => rw [ih]; rfl

theorem Reads.text {before : Option Char} {parts : List Part} (h : Reads alnum before s parts) :
    s = parts.flatMap Part.source := by
  induction h with
  | nil => rfl
  | echo _ _ hclose _ ih =>
    rw [hclose.text, ih]
    simp [Part.source]
  | plain _ _ ih =>
    rw [ih]
    rfl

/-- The scan finds the closing quote. -/
theorem scanFrom_sound (hq : q ≠ '\\') : ∀ (s : Text) (j k : ℕ), scanFrom alnum q j s = some k →
    ∃ body rest, Closes alnum q s body rest ∧ k = j + body.length
  | [], j, k, h => by cases h
  | [c], j, k, h => by
    rw [scanFrom] at h
    split_ifs at h with hc hclose
    · obtain rfl := Option.some.inj h
      obtain ⟨rfl, hword⟩ := hclose
      exact ⟨[], [], .here hword, rfl⟩
    · cases h
  | c :: d :: s, j, k, h => by
    rw [scanFrom] at h
    split_ifs at h with hc hclose
    · obtain ⟨body, rest, hb, rfl⟩ := scanFrom_sound hq s _ _ h
      refine ⟨'\\' :: d :: body, rest, hc ▸ .skip hb, ?_⟩
      rw [List.length_cons, List.length_cons]
      omega
    · obtain rfl := Option.some.inj h
      obtain ⟨rfl, hword⟩ := hclose
      exact ⟨[], d :: s, .here hword, rfl⟩
    · obtain ⟨body, rest, hb, rfl⟩ := scanFrom_sound hq (d :: s) _ _ h
      refine ⟨c :: body, rest, .step hc hclose hb, ?_⟩
      rw [List.length_cons]
      omega

/-- Where a quote closes the scan finds it. -/
theorem Closes.scanFrom {body rest : Text} (hq : q ≠ '\\') (h : Closes alnum q s body rest) :
    ∀ j, scanFrom alnum q j s = some (j + body.length) := by
  induction h with
  | here hword =>
    intro j
    rw [Shorten.scanFrom.eq_def]
    dsimp only
    rw [if_neg hq, if_pos ⟨rfl, hword⟩]
    rfl
  | skip _ ih =>
    intro j
    rw [Shorten.scanFrom.eq_def]
    dsimp only
    rw [if_pos rfl, ih, List.length_cons, List.length_cons]
    congr 1
    omega
  | step hc hnot _ ih =>
    intro j
    rw [Shorten.scanFrom.eq_def]
    dsimp only
    rw [if_neg hc, if_neg hnot, ih, List.length_cons]
    congr 1
    omega

/-- The loop from a place on shows the parts of the text there. -/
theorem emit_reads (alnum : Char → Bool) (chars : Text) : ∀ fuel i, chars.length ≤ i + fuel →
    ∃ parts, Reads alnum (if i = 0 then none else chars[i - 1]?) (chars.drop i) parts ∧
      emit alnum (fun i c => scanFrom alnum c (i + 1) (chars.drop (i + 1))) chars fuel i =
        parts.flatMap Part.shown
  | 0, i, hfuel => by
    rw [List.drop_eq_nil_of_le (by omega)]
    exact ⟨[], .nil, rfl⟩
  | fuel + 1, i, hfuel => by
    have ih := emit_reads alnum chars fuel
    rw [emit]
    rcases hi : chars[i]? with _ | c
    · rw [List.drop_eq_nil_of_le (List.getElem?_eq_none_iff.1 hi)]
      exact ⟨[], .nil, rfl⟩
    have hlt := (List.getElem?_eq_some_iff.1 hi).1
    have hdrop : chars.drop i = c :: chars.drop (i + 1) := by
      rw [List.drop_eq_getElem_cons hlt, (List.getElem?_eq_some_iff.1 hi).2]
    have hne : isQuote c = true → c ≠ '\\' := by
      rintro hc rfl
      cases hc
    have hplain : (isQuote c = true → word alnum (if i = 0 then none else chars[i - 1]?) = false →
        ∀ body rest, ¬Closes alnum c (chars.drop (i + 1)) body rest) →
        ∃ parts, Reads alnum (if i = 0 then none else chars[i - 1]?) (chars.drop i) parts ∧
          c :: emit alnum (fun i c => scanFrom alnum c (i + 1) (chars.drop (i + 1))) chars fuel
            (i + 1) = parts.flatMap Part.shown := by
      intro hnot
      obtain ⟨parts, hreads, hshown⟩ := ih (i + 1) (by omega)
      rw [if_neg (Nat.succ_ne_zero i), Nat.add_sub_cancel, hi] at hreads
      refine ⟨.plain c :: parts, hdrop ▸ .plain hnot hreads, ?_⟩
      rw [hshown]
      rfl
    dsimp only
    by_cases hopen : isQuote c = true ∧ word alnum (if i = 0 then none else chars[i - 1]?) = false
    · obtain ⟨hquote, hword⟩ := hopen
      rw [hquote, hword, Bool.not_false, Bool.and_self, if_pos rfl]
      rcases hscan : scanFrom alnum c (i + 1) (chars.drop (i + 1)) with _ | j
      · refine hplain fun _ _ body rest hclose => ?_
        rw [hclose.scanFrom (hne hquote)] at hscan
        cases hscan
      · obtain ⟨body, rest, hclose, rfl⟩ := scanFrom_sound (hne hquote) _ _ _ hscan
        -- the text after the closing quote is read on
        have htext := hclose.text
        have hend : i + 1 + body.length < chars.length := by
          have hlen := congrArg List.length htext
          rw [List.length_drop, List.length_append, List.length_cons] at hlen
          omega
        have hrest : chars.drop (i + 1 + body.length + 1) = rest := by
          rw [show i + 1 + body.length + 1 = i + 1 + (body.length + 1) by omega,
            ← List.drop_drop, htext, ← List.drop_drop, List.drop_left]
          rfl
        have hlast : chars[i + 1 + body.length]? = some c := by
          rw [← List.getElem?_drop, htext, List.getElem?_append_right le_rfl, Nat.sub_self]
          rfl
        obtain ⟨parts, hreads, hshown⟩ := ih (i + 1 + body.length + 1) (by omega)
        rw [if_neg (Nat.succ_ne_zero _), Nat.add_sub_cancel, hlast, hrest] at hreads
        refine ⟨.echo c body :: parts, hdrop ▸ .echo hquote hword hclose hreads, ?_⟩
        have hlen : i + 1 + body.length - i - 1 = body.length := by omega
        dsimp only
        rw [hlen, hshown, List.flatMap_cons, Part.shown]
        split_ifs with hlong
        · rw [htext, List.take_append_of_le_length hlong.le]
          simp
        · rw [hdrop, htext, show i + 1 + body.length + 1 - i = body.length + 1 + 1 by omega,
            List.take_succ_cons, List.take_length_add_append]
          simp
    · have hnone : (isQuote c && !word alnum (if i = 0 then none else chars[i - 1]?)) = false := by
        rw [Bool.eq_false_iff]
        simpa using hopen
      rw [hnone, if_neg Bool.false_ne_true]
      exact hplain fun hq hw => absurd ⟨hq, hw⟩ hopen

/-- The fast version is the forward scan. What it shows are the parts of the message, an echo of
more than 80 characters cut to them, and the whole has at most one character more than 500. -/
theorem shorten_spec (alnum : Char → Bool) (msg : Text) :
    shorten alnum msg = shortenReference alnum msg ∧
      (∃ parts, Reads alnum none msg parts ∧ msg = parts.flatMap Part.source ∧
        shorten alnum msg = cutMessage (parts.flatMap Part.shown)) ∧
      (shorten alnum msg).length ≤ maxMessageChars + 1 := by
  refine ⟨shorten_eq_reference alnum msg, ?_, ?_⟩
  · obtain ⟨parts, hreads, hshown⟩ := emit_reads alnum msg msg.length 0 (by omega)
    refine ⟨parts, hreads, hreads.text, ?_⟩
    rw [shorten_eq_reference, shortenReference, hshown]
  · rw [shorten, cutMessage]
    split_ifs with hlong
    · rw [List.length_append, List.length_take]
      exact Nat.add_le_add_right (min_le_left _ _) 1
    · omega

end EngineConsole.Shorten
