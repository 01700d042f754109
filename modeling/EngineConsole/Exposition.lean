import EngineConsole.Keyed
import EngineConsole.Patterns
import EngineConsole.PyLines
import EngineConsole.Replace

/-!
# Samples in the exposition format

How the adapters read the metrics of an engine (`parse_samples` of `vllm_parse.rs` and of
`trtllm_parse.rs`) : the text is split into lines as Python splits them, each line is matched by
`LINE`, the labels are found by `LABEL` one after the other, and their values are unescaped by
two replacements. The two parsers differ in how the number is parsed.

A written sample is read back when no label value has a line break of Python (`sampleOf_written`),
and only then : a value that was read never has one. So the text of samples and comments is read
back just when no label value has a line break, a line feed written as `\n` included, and no
comment has one before what reads as a sample (`parseSamples_iff`).
-/

set_option linter.unusedSectionVars false

namespace EngineConsole.Exposition

open PyLines

/-! ## The parser -/

/-- `str.isspace()` of one character. -/
def isSpace (c : Char) : Bool :=
  (9 ≤ c.toNat && c.toNat ≤ 13) || (0x1c ≤ c.toNat && c.toNat ≤ 0x20) || c.toNat = 0x85 ||
    c.toNat = 0xa0 || c.toNat = 0x1680 || (0x2000 ≤ c.toNat && c.toNat ≤ 0x200a) ||
    c.toNat = 0x2028 || c.toNat = 0x2029 || c.toNat = 0x202f || c.toNat = 0x205f ||
    c.toNat = 0x3000

/-- `strip` -/
def strip (s : Text) : Text :=
  (s.dropWhile isSpace).rdropWhile isSpace

/-- `[A-Za-z_]` -/
def labelStart (c : Char) : Bool :=
  c.isAlpha || c = '_'

/-- `[A-Za-z0-9_]` -/
def labelChar (c : Char) : Bool :=
  c.isAlphanum || c = '_'

/-- `[A-Za-z_:]` -/
def nameStart (c : Char) : Bool :=
  labelStart c || c = ':'

/-- `[A-Za-z0-9_:]` -/
def nameChar (c : Char) : Bool :=
  labelChar c || c = ':'

/-- `\s+` -/
def spaces : Regex Char :=
  .cat (.cls isSpace) (.many isSpace)

/-- `\S+` -/
def word : Regex Char :=
  .cat (.cls fun c => !isSpace c) (.many fun c => !isSpace c)

/-- `LINE`, between `^` and `$`. -/
def line : Regex Char :=
  .cat (.group "name" (.cat (.cls nameStart) (.many nameChar)))
    (.cat (.opt (.cat (.cls (· = '{')) (.cat (.group "labels" (.many (· ≠ '\n')))
        (.cls (· = '}')))))
      (.cat spaces (.cat (.group "value" word)
        (.cat (.opt (.cat spaces word)) (.many isSpace)))))

/-- `[^"\\]|\\.` -/
def valueRound : Pattern Char :=
  .plain (.alt (.cls fun c => c ≠ '"' && c ≠ '\\') (.cat (.cls (· = '\\')) (.cls (· ≠ '\n'))))

/-- `LABEL` -/
def label : Pattern Char :=
  .cat (.plain (.group "key" (.cat (.cls labelStart) (.many labelChar))))
    (.cat (.plain (.lit ['=', '"']))
      (.cat (.group "value" (.star valueRound)) (.plain (.cls (· = '"')))))

/-- The match at the start of the text : its groups, and what is left. -/
def matchAt (r : Pattern Char) (s : Text) : Option (Regex.Groups Char × Text) :=
  r.run s [] fun rest gs => some (gs, rest)

/-- `captures_iter` of a pattern that matches no empty text, for at most so many steps. -/
def capturesIter (r : Pattern Char) : ℕ → Text → List (Regex.Groups Char)
  | 0, _ => []
  | n + 1, s =>
    match matchAt r s with
    | some (gs, rest) => gs :: capturesIter r n rest
    | none =>
      match s with
      | [] => []
      | _ :: s => capturesIter r n s

/-- The text of a group. -/
def groupText (gs : Regex.Groups Char) (name : String) : Text :=
  ((Keyed.find Prod.fst name gs).map Prod.snd).getD []

/-- What is made of the value of a label. -/
def unescape (s : Text) : Text :=
  Replace.replaceAll ['\\', '\\'] ['\\'] (Replace.replaceAll ['\\', '"'] ['"'] s)

/-- One sample : name, labels in order, value. -/
structure Sample (F : Type*) where
  name : Text
  labels : List (Text × Text)
  value : F

section Parse

variable {F : Type*} (float : Text → Option F)

/-- The labels of a sample; a repeated name keeps its first place and its last value. -/
def readLabels (s : Text) : List (Text × Text) :=
  Keyed.collect Prod.fst ((capturesIter label (s.length + 1) s).map fun gs =>
    (groupText gs "key", unescape (groupText gs "value")))

/-- The sample of a line. -/
def sampleOf (raw : Text) : Option (Sample F) :=
  let text := strip raw
  if text = [] ∨ text.head? = some '#' then none
  else
    (line.captures text).bind fun gs =>
      (float (groupText gs "value")).map fun value =>
        ⟨groupText gs "name", readLabels (groupText gs "labels"), value⟩

/-- `parse_samples`, with the parser of numbers as a parameter. -/
def parseSamples (text : Text) : List (Sample F) :=
  (pySplitlines text).filterMap (sampleOf float)

end Parse

/-- `parse_samples` of `vllm_parse.rs` -/
def vllmParseSamples {F : Type*} (floatStr : Text → Option F) (text : Text) : List (Sample F) :=
  parseSamples floatStr text

/-- `parse_samples` of `trtllm_parse.rs` -/
def trtllmParseSamples {F : Type*} (pyFloat : Text → Option F) (text : Text) : List (Sample F) :=
  parseSamples pyFloat text

/-! ## The format -/

/-- A character of a label value : backslash, double quote and line feed are escaped. -/
def escapeChar (c : Char) : Text :=
  if c = '\\' then ['\\', '\\'] else if c = '"' then ['\\', '"']
  else if c = '\n' then ['\\', 'n'] else [c]

/-- A label value between its quotes. -/
def escapeLabel (s : Text) : Text :=
  s.flatMap escapeChar

/-- One label. -/
def labelText (l : Text × Text) : Text :=
  l.1 ++ '=' :: '"' :: (escapeLabel l.2 ++ ['"'])

/-- The labels, with a comma between them. -/
def joinLabels : List (Text × Text) → Text
  | [] => []
  | [l] => labelText l
  | l :: ls => labelText l ++ ',' :: joinLabels ls

/-- The label block. -/
def blockText (ls : List (Text × Text)) : Text :=
  if ls = [] then [] else '{' :: joinLabels ls ++ ['}']

/-- A blank and the timestamp, if there is one. -/
def timeText : Option ℤ → Text
  | none => []
  | some i => ' ' :: (toString i).toList

/-- What is in a text : a sample with its timestamp, or a comment after some blanks. -/
inductive Item (F : Type*) where
  | sample (s : Sample F) (time : Option ℤ)
  | comment (pad c : Text)

section Format

variable {F : Type*} (spell : F → Text)

/-- The line of a sample. -/
def sampleLine (s : Sample F) (time : Option ℤ) : Text :=
  s.name ++ blockText s.labels ++ ' ' :: (spell s.value ++ timeText time)

/-- The line of an item. -/
def Item.line : Item F → Text
  | .sample s time => sampleLine spell s time
  | .comment pad c => pad ++ '#' :: c

/-- A text of the format : one line for each item. -/
def formatText (items : List (Item F)) : Text :=
  items.flatMap fun i => i.line spell ++ ['\n']

/-- The sample of an item. -/
def Item.written : Item F → Option (Sample F)
  | .sample s _ => some s
  | .comment _ _ => none

/-- The samples that were written. -/
def samplesOf (items : List (Item F)) : List (Sample F) :=
  items.filterMap Item.written

/-- A name of the format's character set. -/
def NameOk (start more : Char → Bool) (s : Text) : Prop :=
  ∃ c w, s = c :: w ∧ start c = true ∧ ∀ x ∈ w, more x = true

/-- A metric name, label names that are distinct; a comment is one line with blanks before it. -/
def Item.Ok : Item F → Prop
  | .sample s _ => NameOk nameStart nameChar s.name ∧
    (∀ l ∈ s.labels, NameOk labelStart labelChar l.1) ∧ (s.labels.map Prod.fst).Nodup
  | .comment pad c => (∀ x ∈ pad, x = ' ' ∨ x = '\t') ∧ '\n' ∉ c

/-- What a line without the blanks around it must be for a sample : no comment, matched by `LINE`,
with a number for a value. -/
def ReadsAsSample (float : Text → Option F) (text : Text) : Prop :=
  text.head? ≠ some '#' ∧
    ∃ gs, line.captures text = some gs ∧ (float (groupText gs "value")).isSome = true

/-- No label value has a line break of Python; no line of a comment, as Python splits it, is a
sample. -/
def Item.Clean (float : Text → Option F) : Item F → Prop
  | .sample s _ => ∀ l ∈ s.labels, Unbroken l.2
  | .comment pad c => ∀ x ∈ pySplitlines (pad ++ '#' :: c ++ ['\n']), ¬ReadsAsSample float (strip x)

/-- The text of a float is parsed to the float; it has letters, digits, signs and points. -/
structure Spells (float : Text → Option F) : Prop where
  parse : ∀ x, float (spell x) = some x
  pos : ∀ x, spell x ≠ []
  chars : ∀ x, ∀ c ∈ spell x, c.isAlphanum = true ∨ c = '+' ∨ c = '-' ∨ c = '.'

end Format

/-! ## Labels are read back -/

section Labels

variable {s t w : Text} {c : Char} {l : Text × Text} {ls : List (Text × Text)} {n : ℕ}

theorem replaceAll_two (a b : Char) (rep s : Text) : Replace.replaceAll [a, b] rep s =
    Replace.replaceHits (fun t => [a, b].isPrefixOf t) 2 rep 0 s :=
  if_neg Bool.false_ne_true

theorem replaceAll_hit (a b : Char) (rep t : Text) :
    Replace.replaceAll [a, b] rep (a :: b :: t) = rep ++ Replace.replaceAll [a, b] rep t := by
  rw [replaceAll_two, replaceAll_two]
  exact Replace.replaceHits_hit (p := [a, b]) rfl (List.cons_ne_nil _ _)
    (by simp [List.isPrefixOf])

theorem replaceAll_miss {a b : Char} (rep : Text) (h : c ≠ a ∨ t.head? ≠ some b) :
    Replace.replaceAll [a, b] rep (c :: t) = c :: Replace.replaceAll [a, b] rep t := by
  rw [replaceAll_two, replaceAll_two]
  refine Replace.replaceHits_miss ?_
  rw [Bool.eq_false_iff]
  intro hit
  cases t with
  | nil => simp [List.isPrefixOf] at hit
  | cons d t =>
    have heq : a = c ∧ b = d := by simpa [List.isPrefixOf] using hit
    rcases h with h | h
    · exact h heq.1.symm
    · exact h (congrArg some heq.2.symm)

/-- What the first replacement leaves : pairs of backslashes. -/
def halfChar (c : Char) : Text :=
  if c = '\\' then ['\\', '\\'] else [c]

theorem escapeLabel_head (s : Text) : (escapeLabel s).head? ≠ some '"' := by
  cases s with
  | nil => simp [escapeLabel]
  | cons c s =>
    rw [escapeLabel, List.flatMap_cons, escapeChar]
    split_ifs with h1 h2 h3
    · simp
    · simp
    · simp
    · simpa using h2

theorem replace_quotes : ∀ s : Text, '\n' ∉ s →
    Replace.replaceAll ['\\', '"'] ['"'] (escapeLabel s) = s.flatMap halfChar
  | [], _ => rfl
  | c :: s, h => by
    rw [List.mem_cons, not_or] at h
    have ih := replace_quotes s h.2
    have hcons : escapeLabel (c :: s) = escapeChar c ++ escapeLabel s := rfl
    rw [hcons, List.flatMap_cons, escapeChar, halfChar]
    split_ifs with h1 h2 h3
    · rw [List.cons_append, List.cons_append, List.nil_append,
        replaceAll_miss _ (.inr (by simp)), replaceAll_miss _ (.inr (escapeLabel_head s)), ih]
      rfl
    · rw [List.cons_append, List.cons_append, List.nil_append, replaceAll_hit, ih, h2]
    · exact absurd h3.symm h.1
    · rw [List.singleton_append, replaceAll_miss _ (.inl h1), ih]
      rfl

theorem replace_backslashes : ∀ s : Text,
    Replace.replaceAll ['\\', '\\'] ['\\'] (s.flatMap halfChar) = s
  | [] => rfl
  | c :: s => by
    have ih := replace_backslashes s
    rw [List.flatMap_cons, halfChar]
    split_ifs with h
    · rw [List.cons_append, List.cons_append, List.nil_append, replaceAll_hit, ih, h]
      rfl
    · rw [List.singleton_append, replaceAll_miss _ (.inl h), ih]

/-- The two replacements undo the escapes, but for that of a line feed. -/
theorem unescape_escape (h : '\n' ∉ s) : unescape (escapeLabel s) = s := by
  rw [unescape, replace_quotes s h, replace_backslashes]

/-! ## The matcher on written text -/

/-- A round takes one written character. -/
theorem valueRound_char {β : Type*} {k : Text → Regex.Groups Char → Option β}
    {gs : Regex.Groups Char} {v : β} (hk : k t gs = some v) :
    valueRound.run (escapeChar c ++ t) gs k = some v := by
  have hpair (d : Char) (hd : d ≠ '\n') : valueRound.run ('\\' :: d :: t) gs k = some v := by
    rw [valueRound, Pattern.run, Regex.run, Regex.run, if_neg (by decide), Option.none_or,
      Regex.run, Regex.run, if_pos (by decide), Regex.run, if_pos (by simpa using hd)]
    exact hk
  rw [escapeChar]
  split_ifs with h1 h2 h3
  · exact hpair '\\' (by decide)
  · exact hpair '"' (by decide)
  · exact hpair 'n' (by decide)
  · rw [List.singleton_append, valueRound, Pattern.run, Regex.run, Regex.run,
      if_pos (by simp [h1, h2]), hk, Option.some_or]

/-- No round takes the quote at the end. -/
theorem valueRound_quote {β : Type*} (k : Text → Regex.Groups Char → Option β)
    (gs : Regex.Groups Char) (t : Text) : valueRound.run ('"' :: t) gs k = none := by
  rw [valueRound, Pattern.run, Regex.run, Regex.run, if_neg (by decide), Regex.run, Regex.run,
    if_neg (by decide)]
  rfl

theorem escapeChar_pos (c : Char) : 0 < (escapeChar c).length := by
  rw [escapeChar]
  split_ifs <;> simp

/-- The rounds take a written value up to the quote. -/
theorem runStar_value {β : Type*} {k : Text → Regex.Groups Char → Option β}
    {gs : Regex.Groups Char} {v : β} (hk : k ('"' :: t) gs = some v) : ∀ (s : Text) (n : ℕ),
    (escapeLabel s).length ≤ n →
    Pattern.runStar valueRound.run k n (escapeLabel s ++ '"' :: t) gs = some v
  | [], 0, _ => hk
  | [], n + 1, _ => by
    rw [show escapeLabel [] = [] from rfl, List.nil_append, Pattern.runStar, valueRound_quote,
      Option.none_or, hk]
  | c :: s, 0, h => by
    have hpos := escapeChar_pos c
    rw [show escapeLabel (c :: s) = escapeChar c ++ escapeLabel s from rfl, List.length_append] at h
    omega
  | c :: s, n + 1, h => by
    have hpos := escapeChar_pos c
    have hcons : escapeLabel (c :: s) = escapeChar c ++ escapeLabel s := rfl
    rw [hcons, List.length_append] at h
    have ih := runStar_value hk s n (by omega)
    rw [hcons, List.append_assoc, Pattern.runStar, valueRound_char, Option.some_or]
    rw [if_pos (by simp only [List.length_append]; omega)]
    exact ih

/-- A written label is matched at its start. -/
theorem matchAt_label (hl : NameOk labelStart labelChar l.1) (t : Text) :
    matchAt label (labelText l ++ t) =
      some ([("value", escapeLabel l.2), ("key", l.1)], t) := by
  obtain ⟨c, w, hname, hc, hw⟩ := hl
  have htext : labelText l ++ t = c :: w ++ '=' :: '"' :: (escapeLabel l.2 ++ '"' :: t) := by
    rw [labelText, hname]
    simp
  rw [htext, hname, matchAt, label, Pattern.run, Pattern.run]
  refine Regex.run_group_word hc hw ?_ ?_
  · intro x hx
    obtain rfl := Option.some.inj hx
    decide
  rw [Pattern.run, Pattern.run]
  have hlit (k : Text → Regex.Groups Char → Option (Regex.Groups Char × Text))
      (gs : Regex.Groups Char) (u : Text) :
      Regex.run (.lit ['=', '"']) ('=' :: '"' :: u) gs k = k u gs := by
    rw [Regex.lit, List.foldr_cons, List.foldr_cons, List.foldr_nil, Regex.run, Regex.run,
      if_pos (by decide), Regex.run, Regex.run, if_pos (by decide), Regex.run]
  rw [hlit, Pattern.run, Pattern.run, Pattern.run]
  refine runStar_value ?_ l.2 _ (by simp)
  rw [Regex.take_word, Pattern.run, Regex.run, if_pos (by decide)]

theorem matchAt_comma (t : Text) : matchAt label (',' :: t) = none := by
  rw [matchAt, label, Pattern.run, Pattern.run, Regex.run, Regex.run, Regex.run,
    if_neg (by decide)]

theorem capturesIter_match {r : Pattern Char} {gs : Regex.Groups Char}
    (h : matchAt r s = some (gs, t)) (n : ℕ) :
    capturesIter r (n + 1) s = gs :: capturesIter r n t := by
  rw [capturesIter.eq_def]
  dsimp only
  rw [h]

theorem capturesIter_step {r : Pattern Char} (h : matchAt r (c :: s) = none) (n : ℕ) :
    capturesIter r (n + 1) (c :: s) = capturesIter r n s := by
  rw [capturesIter.eq_def]
  dsimp only
  rw [h]

theorem capturesIter_nil (n : ℕ) : capturesIter label n [] = [] := by
  cases n <;> rfl

/-- The labels are found one after the other. -/
theorem capturesIter_labels : ∀ (ls : List (Text × Text)) (n : ℕ),
    (∀ l ∈ ls, NameOk labelStart labelChar l.1) → (joinLabels ls).length < n →
    capturesIter label n (joinLabels ls) =
      ls.map fun l => [("value", escapeLabel l.2), ("key", l.1)]
  | _, 0, _, h => absurd h (Nat.not_lt_zero _)
  | [], n + 1, _, _ => capturesIter_nil _
  | [l], n + 1, hls, _ => by
    have hmatch := matchAt_label (hls l List.mem_cons_self) []
    rw [List.append_nil] at hmatch
    rw [joinLabels, capturesIter_match hmatch, capturesIter_nil]
    rfl
  | l :: l' :: ls, n + 1, hls, h => by
    have hjoin : joinLabels (l :: l' :: ls) = labelText l ++ ',' :: joinLabels (l' :: ls) := rfl
    have hpos : 0 < (labelText l).length := by
      rw [labelText, List.length_append, List.length_cons]
      omega
    rw [hjoin, List.length_append, List.length_cons] at h
    obtain ⟨m, rfl⟩ : ∃ m, n = m + 1 := ⟨n - 1, by omega⟩
    have ih := capturesIter_labels (l' :: ls) m (fun x hx => hls x (List.mem_cons_of_mem l hx))
      (by omega)
    rw [hjoin, capturesIter_match (matchAt_label (hls l List.mem_cons_self) _),
      capturesIter_step (matchAt_comma _), ih]
    rfl

/-- Labels without line feeds are read back. -/
theorem readLabels_written (hls : ∀ l ∈ ls, NameOk labelStart labelChar l.1)
    (hn : (ls.map Prod.fst).Nodup) (hv : ∀ l ∈ ls, '\n' ∉ l.2) :
    readLabels (joinLabels ls) = ls := by
  have hpairs : (ls.map fun l => [("value", escapeLabel l.2), ("key", l.1)]).map (fun gs =>
      (groupText gs "key", unescape (groupText gs "value"))) = ls := by
    rw [List.map_map]
    refine (List.map_congr_left fun l hl => ?_).trans (List.map_id ls)
    have hvalue : groupText [("value", escapeLabel l.2), ("key", l.1)] "value" = escapeLabel l.2 :=
      rfl
    have hkey : groupText [("value", escapeLabel l.2), ("key", l.1)] "key" = l.1 := rfl
    rw [Function.comp_apply, hvalue, hkey, unescape_escape (hv l hl)]
    rfl
  rw [readLabels, capturesIter_labels ls _ hls (Nat.lt_succ_self _), hpairs,
    Keyed.collect_of_nodup hn]

end Labels

/-! ## Lines are read back -/

section Lines

variable {F : Type*} {spell : F → Text} {float : Text → Option F} {s t v : Text} {c : Char}

/-- The characters of names, numbers and timestamps. -/
def Solid (c : Char) : Prop :=
  isSpace c = false ∧ isBreak c = false ∧ c ≠ '}'

theorem solid_of_range (hlo : 0x21 ≤ c.toNat) (hhi : c.toNat ≤ 0x7a) : Solid c := by
  refine ⟨?_, isBreak_of_printable (by omega) (by omega), ?_⟩
  · simp only [isSpace, Bool.or_eq_false_iff, Bool.and_eq_false_iff, decide_eq_false_iff_not]
    omega
  · rintro rfl
    revert hhi
    decide

theorem solid_of_alphanum (h : c.isAlphanum = true) : Solid c := by
  simp only [Char.isAlphanum, Char.isAlpha, Char.isUpper, Char.isLower, Char.isDigit,
    Bool.or_eq_true, Bool.and_eq_true, decide_eq_true_eq, UInt32.le_iff_toNat_le] at h
  have hval : c.toNat = c.val.toNat := rfl
  have hA : 'A'.val.toNat = 65 := rfl
  have hz : 'z'.val.toNat = 122 := rfl
  simp at h
  exact solid_of_range (by omega) (by omega)

theorem solid_of_labelChar (h : labelChar c = true) : Solid c := by
  rw [labelChar, Bool.or_eq_true, decide_eq_true_eq] at h
  rcases h with h | rfl
  exacts [solid_of_alphanum h, solid_of_range (by decide) (by decide)]

theorem solid_of_nameChar (h : nameChar c = true) : Solid c := by
  rw [nameChar, Bool.or_eq_true, decide_eq_true_eq] at h
  rcases h with h | rfl
  exacts [solid_of_labelChar h, solid_of_range (by decide) (by decide)]

theorem labelChar_of_start (h : labelStart c = true) : labelChar c = true := by
  rw [labelStart, Bool.or_eq_true] at h
  rw [labelChar, Char.isAlphanum, Bool.or_eq_true, Bool.or_eq_true]
  exact h.imp .inl id

theorem nameChar_of_start (h : nameStart c = true) : nameChar c = true := by
  rw [nameStart, Bool.or_eq_true] at h
  rw [nameChar, Bool.or_eq_true]
  exact h.imp_left labelChar_of_start

/-- The characters of a name are those that may follow its first. -/
theorem NameOk.all {start more : Char → Bool} (hstart : ∀ {c}, start c = true → more c = true)
    (h : NameOk start more s) : ∀ c ∈ s, more c = true := by
  obtain ⟨c, w, rfl, hc, hw⟩ := h
  intro x hx
  rcases List.mem_cons.1 hx with rfl | hx
  exacts [hstart hc, hw x hx]

theorem solid_digits (n : ℕ) : ∀ c ∈ (toString n).toList, Solid c := by
  rw [Nat.toString_eq_repr, Nat.repr_eq_ofList_toDigits, String.toList_ofList]
  intro c hc
  have hdigit := Nat.isDigit_of_mem_toDigits (by decide) (by decide) hc
  exact solid_of_alphanum (by rw [Char.isAlphanum, hdigit, Bool.or_true])

theorem digits_pos (n : ℕ) : (toString n).toList ≠ [] := by
  rw [Nat.toString_eq_repr, Nat.repr_eq_ofList_toDigits, String.toList_ofList]
  exact List.ne_nil_of_length_pos Nat.length_toDigits_pos

theorem toList_negSucc (m : ℕ) :
    (toString (Int.negSucc m)).toList = '-' :: (toString (m + 1)).toList := by
  rw [show toString (Int.negSucc m) = "-" ++ toString (m + 1) from rfl, String.toList_append]
  rfl

/-- The text of a timestamp. -/
theorem solid_time : ∀ i : ℤ, (toString i).toList ≠ [] ∧ ∀ c ∈ (toString i).toList, Solid c
  | .ofNat n => ⟨digits_pos n, solid_digits n⟩
  | .negSucc m => by
    rw [toList_negSucc]
    refine ⟨List.cons_ne_nil _ _, fun c hc => ?_⟩
    rcases List.mem_cons.1 hc with rfl | hc
    exacts [solid_of_range (by decide) (by decide), solid_digits _ c hc]

theorem Spells.solid (h : Spells spell float) (x : F) : ∀ c ∈ spell x, Solid c := by
  intro c hc
  rcases h.chars x c hc with h | rfl | rfl | rfl
  exacts [solid_of_alphanum h, solid_of_range (by decide) (by decide),
    solid_of_range (by decide) (by decide), solid_of_range (by decide) (by decide)]

/-! ### The groups of a line -/

open Regex in
/-- A blank is matched up to a solid character. -/
theorem run_blank {β : Type*} {k : Text → Groups Char → Option β} {gs : Groups Char} {x : β}
    (ht : ∀ c ∈ t.head?, isSpace c = false) (hk : k t gs = some x) :
    Regex.run spaces (' ' :: t) gs k = some x :=
  Regex.run_word (w := []) (by decide) (fun _ h => by cases h) ht hk

theorem head_solid (h : ∀ c ∈ s, Solid c) : ∀ c ∈ s.head?, isSpace c = false :=
  fun c hc => (h c (List.mem_of_mem_head? hc)).1

/-- The words of a line's end. -/
theorem run_solid {k : Text → Regex.Groups Char → Option (Regex.Groups Char)}
    {gs gs' : Regex.Groups Char} (hpos : v ≠ []) (hv : ∀ c ∈ v, Solid c)
    (ht : ∀ c ∈ t.head?, isSpace c = true) (hk : k t gs = some gs') :
    Regex.run word (v ++ t) gs k = some gs' := by
  obtain ⟨c, w, rfl⟩ := List.exists_cons_of_ne_nil hpos
  refine Regex.run_word ?_ (fun x hx => ?_) (fun x hx => ?_) hk
  · rw [(hv c List.mem_cons_self).1, Bool.not_false]
  · rw [(hv x (List.mem_cons_of_mem c hx)).1, Bool.not_false]
  · rw [ht x hx, Bool.not_true]

/-- What a match of the whole text answers. -/
def whole (rest : Text) (gs : Regex.Groups Char) : Option (Regex.Groups Char) :=
  if rest.isEmpty then some gs else none

/-- The value and what follows it. -/
def tail : Regex Char :=
  .cat spaces (.cat (.group "value" word) (.cat (.opt (.cat spaces word)) (.many isSpace)))

/-- The end of a written line is matched. -/
theorem run_tail (gs : Regex.Groups Char) (hpos : v ≠ []) (hv : ∀ c ∈ v, Solid c)
    (time : Option ℤ) :
    Regex.run tail (' ' :: (v ++ timeText time)) gs whole = some (("value", v) :: gs) := by
  have hhead : ∀ c ∈ (v ++ timeText time).head?, isSpace c = false := by
    rw [List.head?_append_of_ne_nil _ hpos]
    exact head_solid hv
  rw [tail, Regex.run]
  refine run_blank hhead ?_
  rw [Regex.run, Regex.run]
  have htime : ∀ c ∈ (timeText time).head?, isSpace c = true := by
    cases time with
    | none =>
      intro c hc
      cases hc
    | some i =>
      intro c hc
      obtain rfl := Option.some.inj hc
      decide
  refine run_solid hpos hv htime ?_
  rw [Regex.take_word, Regex.run, Regex.run]
  cases time with
  | none => rfl
  | some i =>
    obtain ⟨hne, hsolid⟩ := solid_time i
    have hword : Regex.run (.cat spaces word) (timeText (some i)) (("value", v) :: gs)
        (fun rest gs => Regex.run (.many isSpace) rest gs whole) = some (("value", v) :: gs) := by
      rw [timeText, Regex.run]
      refine run_blank (head_solid hsolid) ?_
      rw [← List.append_nil (toString i).toList]
      refine run_solid hne hsolid ?_ rfl
      intro c hc
      cases hc
    rw [hword, Option.some_or]

theorem not_mem_tail (hv : ∀ c ∈ v, Solid c) (time : Option ℤ) :
    '}' ∉ ' ' :: (v ++ timeText time) := by
  intro hmem
  rw [List.mem_cons, List.mem_append] at hmem
  rcases hmem with h | h | h
  · cases h
  · exact (hv _ h).2.2 rfl
  · cases time with
    | none => cases h
    | some i =>
      rcases List.mem_cons.1 h with h | h
      · cases h
      · exact ((solid_time i).2 _ h).2.2 rfl

/-- The label block ends at its last brace, when none follows. -/
theorem run_block {k : Text → Regex.Groups Char → Option (Regex.Groups Char)}
    {gs gs' : Regex.Groups Char} (hs : '\n' ∉ s) (ht : '}' ∉ t)
    (hk : k t (("labels", s) :: gs) = some gs') :
    Regex.run (.cat (.group "labels" (.many (· ≠ '\n'))) (.cls (· = '}'))) (s ++ '}' :: t) gs k =
      some gs' := by
  have hall : ∀ x ∈ s, decide (x ≠ '\n') = true := by
    intro x hx
    refine decide_eq_true ?_
    rintro rfl
    exact hs hx
  rw [Regex.run, Regex.run, Regex.run]
  refine Regex.runMany_last ?_ (fun x y hx hxy _ => ?_) hall
  · rw [Regex.run, if_pos (by decide), Regex.take_word]
    exact hk
  cases x with
  | nil => exact absurd rfl hx
  | cons c x =>
    obtain ⟨-, rfl⟩ := List.cons.inj hxy
    cases y with
    | nil => rfl
    | cons d y =>
      have hd : d ≠ '}' := by
        rintro rfl
        exact ht (List.mem_append_right _ List.mem_cons_self)
      rw [Regex.run, if_neg (by simpa using hd)]

/-- The groups of a written line. -/
theorem captures_line {name : Text} {ls : List (Text × Text)}
    (hname : NameOk nameStart nameChar name) (hls : '\n' ∉ joinLabels ls) (hpos : v ≠ [])
    (hv : ∀ c ∈ v, Solid c) (time : Option ℤ) :
    ∃ gs, line.captures (name ++ blockText ls ++ ' ' :: (v ++ timeText time)) = some gs ∧
      groupText gs "name" = name ∧ groupText gs "labels" = joinLabels ls ∧
      groupText gs "value" = v := by
  obtain ⟨c, w, rfl, hc, hw⟩ := hname
  by_cases hempty : ls = []
  · refine ⟨[("value", v), ("name", c :: w)], ?_, rfl, by rw [hempty]; rfl, rfl⟩
    rw [blockText, if_pos hempty, List.append_nil, Regex.captures, line, Regex.run]
    refine Regex.run_group_word hc hw ?_ ?_
    · intro x hx
      obtain rfl := Option.some.inj hx
      decide
    have hblock (k : Text → Regex.Groups Char → Option (Regex.Groups Char))
        (gs : Regex.Groups Char) (r : Regex Char) (t : Text) :
        Regex.run (.cat (.cls (· = '{')) r) (' ' :: t) gs k = none := by
      rw [Regex.run, Regex.run, if_neg (by decide)]
    rw [Regex.run, Regex.run, hblock, Option.none_or]
    exact run_tail _ hpos hv time
  · refine ⟨[("value", v), ("labels", joinLabels ls), ("name", c :: w)], ?_, rfl, rfl, rfl⟩
    have htext : c :: w ++ blockText ls ++ ' ' :: (v ++ timeText time) =
        c :: w ++ '{' :: (joinLabels ls ++ '}' :: ' ' :: (v ++ timeText time)) := by
      rw [blockText, if_neg hempty]
      simp
    rw [htext, Regex.captures, line, Regex.run]
    refine Regex.run_group_word hc hw ?_ ?_
    · intro x hx
      obtain rfl := Option.some.inj hx
      decide
    rw [Regex.run, Regex.run, Regex.run, Regex.run, if_pos (by decide)]
    rw [run_block hls (not_mem_tail hv time) (run_tail _ hpos hv time), Option.some_or]

/-! ### A written line -/

theorem unbroken_of_solid (h : ∀ c ∈ s, Solid c) : Unbroken s :=
  fun c hc => (h c hc).2.1

/-- The escapes add no line break. -/
theorem unbroken_escape (h : Unbroken s) : Unbroken (escapeLabel s) := by
  intro x hx
  obtain ⟨c, hc, hx⟩ := List.mem_flatMap.1 hx
  rw [escapeChar] at hx
  have hpair (d : Char) (hd : isBreak d = false) (hx : x ∈ ['\\', d]) : isBreak x = false := by
    simp only [List.mem_cons, List.not_mem_nil, or_false] at hx
    rcases hx with rfl | rfl
    exacts [rfl, hd]
  split_ifs at hx
  · exact hpair '\\' rfl hx
  · exact hpair '"' rfl hx
  · exact hpair 'n' rfl hx
  · rw [List.mem_singleton.1 hx]
    exact h c hc

theorem unbroken_label {l : Text × Text} (hl : NameOk labelStart labelChar l.1)
    (hv : Unbroken l.2) : Unbroken (labelText l) := by
  have hname : Unbroken l.1 :=
    unbroken_of_solid fun c hc => solid_of_labelChar (hl.all labelChar_of_start c hc)
  exact hname.append (.cons rfl (.cons rfl ((unbroken_escape hv).append (.cons rfl nofun))))

theorem unbroken_labels : ∀ ls : List (Text × Text),
    (∀ l ∈ ls, NameOk labelStart labelChar l.1) → (∀ l ∈ ls, Unbroken l.2) →
    Unbroken (joinLabels ls)
  | [], _, _ => nofun
  | [l], hls, hv => unbroken_label (hls l List.mem_cons_self) (hv l List.mem_cons_self)
  | l :: l' :: ls, hls, hv =>
    (unbroken_label (hls l List.mem_cons_self) (hv l List.mem_cons_self)).append
      (.cons rfl (unbroken_labels (l' :: ls) (fun x hx => hls x (List.mem_cons_of_mem l hx))
        fun x hx => hv x (List.mem_cons_of_mem l hx)))

theorem unbroken_block {ls : List (Text × Text)} (h : Unbroken (joinLabels ls)) :
    Unbroken (blockText ls) := by
  rw [blockText]
  split_ifs
  exacts [nofun, .cons rfl (h.append (.cons rfl nofun))]

theorem unbroken_time : ∀ time : Option ℤ, Unbroken (timeText time)
  | none => nofun
  | some i => .cons rfl (unbroken_of_solid (solid_time i).2)

/-- A sample whose label values have no line break is one line. -/
theorem unbroken_sample (hf : Spells spell float) {x : Sample F} (time : Option ℤ)
    (hok : (Item.sample x time).Ok) (hv : ∀ l ∈ x.labels, Unbroken l.2) :
    Unbroken (sampleLine spell x time) := by
  obtain ⟨hname, hlabels, -⟩ := hok
  have hstart : Unbroken x.name :=
    unbroken_of_solid fun c hc => solid_of_nameChar (hname.all nameChar_of_start c hc)
  have hblock := unbroken_block (unbroken_labels x.labels hlabels hv)
  exact (hstart.append hblock).append
    (.cons rfl ((unbroken_of_solid (hf.solid x.value)).append (unbroken_time time)))

/-- A text that starts and ends with such characters is not stripped. -/
theorem strip_ends (hc : isSpace c = false) (hpos : t ≠ []) (ht : ∀ x ∈ t, Solid x) :
    strip (c :: s ++ t) = c :: s ++ t := by
  have hstart : (c :: s ++ t).dropWhile isSpace = c :: s ++ t :=
    List.dropWhile_cons_of_neg (by rw [hc]; exact Bool.false_ne_true)
  rw [strip, hstart, List.rdropWhile_eq_self_iff]
  intro hne
  rw [List.getLast_append_of_ne_nil hne hpos, (ht _ (List.getLast_mem hpos)).1]
  exact Bool.false_ne_true

/-- How the line of a sample starts and ends. -/
theorem sampleLine_ends (hf : Spells spell float) {x : Sample F} (time : Option ℤ)
    (hname : NameOk nameStart nameChar x.name) : ∃ c s t, sampleLine spell x time = c :: s ++ t ∧
      nameStart c = true ∧ t ≠ [] ∧ ∀ d ∈ t, Solid d := by
  obtain ⟨c, w, hw, hc, -⟩ := hname
  cases time with
  | none =>
    refine ⟨c, w ++ blockText x.labels ++ [' '], spell x.value, ?_, hc, hf.pos _, hf.solid _⟩
    rw [sampleLine, hw, timeText]
    simp
  | some i =>
    refine ⟨c, w ++ blockText x.labels ++ ' ' :: spell x.value ++ [' '], (toString i).toList, ?_,
      hc, (solid_time i).1, (solid_time i).2⟩
    rw [sampleLine, hw, timeText]
    simp

/-- A written line is read back. -/
theorem sampleOf_written (hf : Spells spell float) {x : Sample F} {time : Option ℤ}
    (hok : (Item.sample x time).Ok) (hv : ∀ l ∈ x.labels, Unbroken l.2) :
    sampleOf float (sampleLine spell x time) = some x := by
  obtain ⟨hname, hlabels, hnodup⟩ := hok
  obtain ⟨c, s, t, htext, hc, hpos, ht⟩ := sampleLine_ends hf time hname
  have hsolid := solid_of_nameChar (nameChar_of_start hc)
  have hstrip : strip (sampleLine spell x time) = sampleLine spell x time := by
    rw [htext, strip_ends hsolid.1 hpos ht]
  have hstart : ¬(sampleLine spell x time = [] ∨ (sampleLine spell x time).head? = some '#') := by
    rw [htext, List.cons_append, List.head?_cons]
    rintro (h | h)
    · cases h
    · obtain rfl := Option.some.inj h
      exact Bool.noConfusion hc
  obtain ⟨gs, hgs, hn, hl, hval⟩ := captures_line hname
    (Unbroken.lf (unbroken_labels x.labels hlabels hv)) (hf.pos x.value) (hf.solid x.value) time
  have hread := readLabels_written hlabels hnodup fun l hl => Unbroken.lf (hv l hl)
  rw [sampleOf]
  rw [hstrip, if_neg hstart, show sampleLine spell x time = _ from rfl, sampleLine, hgs,
    Option.bind_some, hval, hf.parse, Option.map_some, hn, hl, hread]

end Lines

/-! ## A text is read back -/

section Texts

variable {F : Type*} {spell : F → Text} {float : Text → Option F} {s t : Text} {i : Item F}
  {items : List (Item F)} {x : Sample F} {gs : Regex.Groups Char}

theorem captures_nil : line.captures [] = none :=
  rfl

theorem sampleOf_eq_none : sampleOf float s = none ↔ ¬ReadsAsSample float (strip s) := by
  rw [sampleOf, ReadsAsSample]
  split_ifs with h
  · refine iff_of_true rfl ?_
    rintro ⟨hhead, gs, hgs, -⟩
    rcases h with h | h
    · rw [h, captures_nil] at hgs
      cases hgs
    · exact hhead h
  · rw [not_or] at h
    cases hgs : line.captures (strip s) with
    | none =>
      refine iff_of_true rfl ?_
      rintro ⟨-, gs, hgs, -⟩
      cases hgs
    | some gs =>
      rw [Option.bind_some, Option.map_eq_none_iff, ← Option.not_isSome_iff_eq_none]
      refine not_congr ⟨fun hfloat => ⟨h.2, gs, rfl, hfloat⟩, ?_⟩
      rintro ⟨-, gs', hgs', hfloat⟩
      rw [Option.some.inj hgs']
      exact hfloat

/-- Each line is parsed for itself. -/
theorem parse_format (float : Text → Option F) (spell : F → Text) : ∀ items : List (Item F),
    parseSamples float (formatText spell items) =
      items.flatMap fun i => parseSamples float (i.line spell ++ ['\n'])
  | [] => rfl
  | i :: items => by
    have htext : formatText spell (i :: items) =
        i.line spell ++ '\n' :: formatText spell items := by
      rw [formatText, List.flatMap_cons, List.append_assoc]
      rfl
    rw [htext, parseSamples, pySplitlines_lf, List.filterMap_append, List.flatMap_cons,
      ← parse_format float spell items]
    rfl

/-- What is read of the line of a clean item is what was written. -/
theorem parse_item (hf : Spells spell float) (hok : i.Ok) (hclean : i.Clean float) :
    parseSamples float (i.line spell ++ ['\n']) = i.written.toList := by
  cases i with
  | sample x time =>
    have hline := pySplitlines_line (unbroken_sample hf time hok hclean) []
    rw [Item.line, parseSamples, hline, List.filterMap_cons_some (sampleOf_written hf hok hclean)]
    rfl
  | comment pad c =>
    refine List.filterMap_eq_nil_iff.2 fun x hx => ?_
    exact sampleOf_eq_none.2 (hclean x hx)

/-! ### What was read -/

theorem mem_groupText {name : String} {c : Char} (hgs : ∀ g ∈ gs, g.2 <:+: s)
    (hc : c ∈ groupText gs name) : c ∈ s := by
  rw [groupText] at hc
  cases hfind : Keyed.find Prod.fst name gs with
  | none =>
    rw [hfind] at hc
    cases hc
  | some g =>
    rw [hfind] at hc
    exact (hgs g (Keyed.mem_of_find hfind)).subset hc

theorem captures_within (h : line.captures s = some gs) : ∀ g ∈ gs, g.2 <:+: s := by
  obtain ⟨rest, gs', hk, -, hgs⟩ := Regex.run_within line h
  split_ifs at hk
  obtain rfl := Option.some.inj hk
  exact fun g hg => (hgs g hg).resolve_left List.not_mem_nil

theorem matchAt_within {r : Pattern Char} (h : matchAt r s = some (gs, t)) :
    t <:+ s ∧ ∀ g ∈ gs, g.2 <:+: s := by
  obtain ⟨rest, gs', hk, hrest, hgs⟩ := Pattern.run_within r h
  obtain ⟨rfl, rfl⟩ := Prod.mk.inj (Option.some.inj hk)
  exact ⟨hrest, fun g hg => (hgs g hg).resolve_left List.not_mem_nil⟩

/-- The groups of the matches are parts of the text. -/
theorem capturesIter_within (r : Pattern Char) : ∀ (n : ℕ) (s : Text),
    ∀ gs ∈ capturesIter r n s, ∀ g ∈ gs, g.2 <:+: s
  | 0, _, _, h => by cases h
  | n + 1, s, gs, h => by
    rw [capturesIter.eq_def] at h
    dsimp only at h
    cases hm : matchAt r s with
    | some m =>
      obtain ⟨gs', t⟩ := m
      obtain ⟨ht, hgs'⟩ := matchAt_within hm
      rw [hm] at h
      rcases List.mem_cons.1 h with rfl | h
      · exact hgs'
      · exact fun g hg => (capturesIter_within r n t gs h g hg).trans ht.isInfix
    | none =>
      rw [hm] at h
      cases s with
      | nil => cases h
      | cons c s =>
        exact fun g hg => (capturesIter_within r n s gs h g hg).trans (List.suffix_cons c s).isInfix

theorem mem_unescape {c : Char} (h : c ∈ unescape s) : c ∈ s ∨ c = '\\' ∨ c = '"' := by
  rcases Replace.mem_replaceAll h with h | h
  · exact (Replace.mem_replaceAll h).imp_right fun h => .inr (List.mem_singleton.1 h)
  · exact .inr (.inl (List.mem_singleton.1 h))

theorem unbroken_strip (h : Unbroken s) : Unbroken (strip s) := fun c hc =>
  h c ((List.dropWhile_suffix _).subset ((List.rdropWhile_prefix _ _).subset hc))

/-- No label value that was read has a line break. -/
theorem unbroken_read {text : Text} (h : x ∈ parseSamples float text) :
    ∀ l ∈ x.labels, Unbroken l.2 := by
  obtain ⟨raw, hraw, hx⟩ := List.mem_filterMap.1 h
  have hline : Unbroken (strip raw) := unbroken_strip (unbroken_of_mem (by nofun) raw hraw)
  rw [sampleOf] at hx
  split_ifs at hx
  obtain ⟨gs, hgs, hx⟩ := Option.bind_eq_some_iff.1 hx
  obtain ⟨value, -, rfl⟩ := Option.map_eq_some_iff.1 hx
  intro l hl c hc
  obtain ⟨gs', hgs', rfl⟩ := List.mem_map.1 (Keyed.mem_collect hl)
  rcases mem_unescape hc with hc | rfl | rfl
  · have hblock := mem_groupText (capturesIter_within label _ _ gs' hgs') hc
    exact hline c (mem_groupText (captures_within hgs) hblock)
  · rfl
  · rfl

/-- Where every item gives what it should or too much, the whole is right only when each is. -/
theorem flatMap_exact {α β : Type*} {f : α → List β} {g : α → Option β} : ∀ {l : List α},
    (∀ i ∈ l, (g i).isSome = true → f i = (g i).toList) →
    (l.filterMap g).length ≤ (l.flatMap f).length ∧
      (l.flatMap f = l.filterMap g → ∀ i ∈ l, f i = (g i).toList)
  | [], _ => ⟨le_rfl, fun _ _ h => by cases h⟩
  | a :: l, h => by
    obtain ⟨hle, ih⟩ := flatMap_exact fun i hi => h i (List.mem_cons_of_mem a hi)
    rw [List.flatMap_cons, List.length_append]
    cases hg : g a with
    | some b =>
      have ha : f a = [b] := by rw [h a List.mem_cons_self (by rw [hg]; rfl), hg]; rfl
      rw [List.filterMap_cons_some hg, ha]
      refine ⟨by rw [List.length_cons, List.length_singleton]; omega, fun heq i hi => ?_⟩
      rcases List.mem_cons.1 hi with rfl | hi
      · rw [hg, ha]
        rfl
      · exact ih (List.cons.inj heq).2 i hi
    | none =>
      rw [List.filterMap_cons_none hg]
      refine ⟨by omega, fun heq i hi => ?_⟩
      have hlen := congrArg List.length heq
      rw [List.length_append] at hlen
      have ha : f a = [] := List.length_eq_zero_iff.1 (by omega)
      rcases List.mem_cons.1 hi with rfl | hi
      · rw [hg, ha]
        rfl
      · rw [ha, List.nil_append] at heq
        exact ih heq i hi

/-- Samples are read back just when no label value has a line break and no comment has one before
what reads as a sample. -/
theorem parseSamples_iff (hf : Spells spell float) (hok : ∀ i ∈ items, i.Ok) :
    parseSamples float (formatText spell items) = samplesOf items ↔
      ∀ i ∈ items, i.Clean float := by
  rw [parse_format]
  refine ⟨fun h => ?_, fun h => ?_⟩
  · have hsample : ∀ i ∈ items, i.written.isSome = true → i.Clean float := by
      intro i hi hsome
      cases i with
      | sample x time =>
        have hx : x ∈ samplesOf items := List.mem_filterMap.2 ⟨_, hi, rfl⟩
        rw [← h, ← parse_format] at hx
        exact unbroken_read hx
      | comment pad c => cases hsome
    have hexact := (flatMap_exact fun i hi hsome =>
      parse_item hf (hok i hi) (hsample i hi hsome)).2 h
    intro i hi
    cases i with
    | sample x time => exact hsample _ hi rfl
    | comment pad c =>
      intro x hx
      exact sampleOf_eq_none.1 (List.filterMap_eq_nil_iff.1 (hexact _ hi) x hx)
  · rw [samplesOf, List.filterMap_eq_flatMap_toList]
    exact List.flatMap_congr fun i hi => parse_item hf (hok i hi) (h i hi)

/-! ### The two parsers -/

/-- Both parsers read the samples back just when every item is clean, for any texts of the floats
that both parse. -/
theorem parsers_iff {floatStr pyFloat : Text → Option F} (hstr : Spells spell floatStr)
    (hpy : Spells spell pyFloat) (items : List (Item F)) (hok : ∀ i ∈ items, i.Ok) :
    (vllmParseSamples floatStr (formatText spell items) = samplesOf items ∧
        trtllmParseSamples pyFloat (formatText spell items) = samplesOf items) ↔
      ∀ i ∈ items, i.Clean floatStr ∧ i.Clean pyFloat := by
  rw [vllmParseSamples, trtllmParseSamples, parseSamples_iff hstr hok, parseSamples_iff hpy hok,
    ← forall₂_and]

/-- Two of the floats. -/
def spellBit (b : Bool) : Text :=
  if b then "1.0".toList else "0.0".toList

/-- They are parsed. -/
def readBit (s : Text) : Option Bool :=
  if s = "1.0".toList then some true else if s = "0.0".toList then some false else none

theorem spells_bit : Spells spellBit readBit where
  parse := by decide
  pos := by decide
  chars x c hc := by
    have hall (x : Bool) : (spellBit x).all (fun c => c.isAlphanum || c = '.') = true := by
      revert x
      decide
    have hc := List.all_eq_true.1 (hall x) c hc
    rw [Bool.or_eq_true, decide_eq_true_eq] at hc
    exact hc.imp_right fun h => .inr (.inr h)

/-- A sample with one label. -/
def oneLabel (value : Text) : Item Bool :=
  .sample ⟨['m'], [(['a'], value)], true⟩ none

theorem oneLabel_ok (value : Text) : (oneLabel value).Ok := by
  refine ⟨⟨'m', [], rfl, by decide, nofun⟩, ?_, List.nodup_singleton _⟩
  intro l hl
  rw [List.mem_singleton.1 hl]
  exact ⟨'a', [], rfl, by decide, nofun⟩

/-- Braces, commas, quotes and backslashes in a value are read back. -/
theorem parsers_iff_braces :
    vllmParseSamples readBit (formatText spellBit [oneLabel "\x7d,a=\"\\".toList]) =
        samplesOf [oneLabel "\x7d,a=\"\\".toList] := by
  refine ((parsers_iff spells_bit spells_bit [oneLabel "\x7d,a=\"\\".toList] ?_).2 ?_).1
  · intro i hi
    rw [List.mem_singleton.1 hi]
    exact oneLabel_ok _
  · intro i hi
    rw [List.mem_singleton.1 hi]
    have hv : ∀ l ∈ [(['a'], "\x7d,a=\"\\".toList)], Unbroken l.2 := by
      intro l hl
      rw [List.mem_singleton.1 hl]
      have hall : ("\x7d,a=\"\\".toList).all (fun c => !isBreak c) = true := by decide
      exact fun c hc => by simpa using List.all_eq_true.1 hall c hc
    exact ⟨hv, hv⟩

/-- A line feed in a label value comes back as a backslash and an `n`. -/
theorem lineFeed_kept_escaped : Spells spellBit readBit ∧ (oneLabel ['\n']).Ok ∧
    vllmParseSamples readBit (formatText spellBit [oneLabel ['\n']]) =
      [⟨['m'], [(['a'], ['\\', 'n'])], true⟩] ∧
    vllmParseSamples readBit (formatText spellBit [oneLabel ['\n']]) ≠
      samplesOf [oneLabel ['\n']] ∧
    trtllmParseSamples readBit (formatText spellBit [oneLabel ['\n']]) ≠
      samplesOf [oneLabel ['\n']] := by
  have hread : parseSamples readBit (formatText spellBit [oneLabel ['\n']]) =
      [⟨['m'], [(['a'], ['\\', 'n'])], true⟩] := by
    rfl
  have hne : parseSamples readBit (formatText spellBit [oneLabel ['\n']]) ≠
      samplesOf [oneLabel ['\n']] := by
    rw [hread]
    intro h
    cases h
  exact ⟨spells_bit, oneLabel_ok _, hread, hne, hne⟩

end Texts

end EngineConsole.Exposition
