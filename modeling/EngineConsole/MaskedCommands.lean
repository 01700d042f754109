import EngineConsole.MountInfo
import EngineConsole.ShellWords

/-!
# Commands with their secrets masked

`redact_argv` shows the arguments of a process without the secrets among them : what follows a flag
that names a secret is dropped for a mark. An argument with white space in it may be a command of
its own (`sh -c`), so it is read as shell words, masked in the same way, and joined again; below two
such lines an argument is only scrubbed.

What names a secret and what `scrub` finds in a text are left open, nothing here rests on them.
`command_redacted` : a command that is sent as one line is masked as its words are.
`secret_unseen` : no value that follows such a flag has a part in what is shown, not as an argument
and not in a line that is an argument.
-/

set_option linter.unusedSectionVars false

namespace EngineConsole.MaskedCommands

open MountInfo (isspace splitWs)
open ShellWords

/-! ## The code -/

def redacted : Text :=
  "[redacted]".toList

/-- `[\x00-\x1f\x7f]` -/
def isCtrl (c : Char) : Bool :=
  c.toNat ≤ 0x1f || c.toNat = 0x7f

/-- `CTRL.replace_all(raw, " ")`, of one character. -/
def blankCtrl (c : Char) : Char :=
  if isCtrl c then ' ' else c

def strip (s : Text) : Text :=
  (s.dropWhile isspace).rdropWhile isspace

/-- An argument that is looked into. -/
def hasWords (tok : Text) : Bool :=
  (strip tok).any isspace

def parts (tok : Text) : List Text :=
  match shlexSplit tok with
  | .ok p => p
  | .error _ => splitWs tok

section Redact

variable (secretFlag : Text → Bool) (scrub : Text → Text) (maxItems maxLen : ℕ)

/-- The argument that the loop looks at. -/
def tokenOf (raw : Text) : Text :=
  (raw.map blankCtrl).take maxLen

/-- `secret_flag(head) && (head.starts_with('-') || eq)` -/
def namesSecret (tok : Text) : Bool :=
  secretFlag (tok.takeWhile (· ≠ '=')) &&
    ((tok.takeWhile (· ≠ '=')).head? = some '-' || tok.contains '=')

/-- The loop, with what an argument becomes that is a command of its own. -/
def redactFrom (inner : Text → Option Text) : Bool → List Text → List Text
  | _, [] => []
  | true, _ :: argv => redacted :: redactFrom inner false argv
  | false, raw :: argv =>
    let tok := tokenOf maxLen raw
    match inner tok with
    | some line => line :: redactFrom inner false argv
    | none =>
      if namesSecret secretFlag tok then
        if tok.contains '=' then
          (tok.takeWhile (· ≠ '=') ++ '=' :: redacted) :: redactFrom inner false argv
        else tok :: redactFrom inner true argv
      else scrub tok :: redactFrom inner false argv

/-- `redact_argv_depth`, with the levels that are left below this one. -/
def redactArgvDepth : ℕ → List Text → List Text
  | 0, argv => redactFrom secretFlag scrub maxLen (fun _ => none) false (argv.take maxItems)
  | n + 1, argv =>
    redactFrom secretFlag scrub maxLen
      (fun tok =>
        if hasWords tok then some ([' '].intercalate (redactArgvDepth n (parts tok))) else none)
      false (argv.take maxItems)

def redactArgv (argv : List Text) : List Text :=
  redactArgvDepth secretFlag scrub maxItems maxLen 2 argv

/-- The flag of a secret whose value is the next argument. -/
def opensSecret (raw : Text) : Bool :=
  let tok := tokenOf maxLen raw
  !hasWords tok && namesSecret secretFlag tok && !tok.contains '='

/-- The argument after `argv` is the value of a secret. -/
def skipAfter (argv : List Text) : Bool :=
  argv.foldl (fun skip raw => !skip && opensSecret secretFlag maxLen raw) false

end Redact

/-! ## Lines without control characters -/

theorem plain_range {c : Char} (h : plain c = true) : 33 ≤ c.toNat ∧ c.toNat ≤ 122 := by
  have hc : c.isAlphanum = true ∨ c ∈ ['_', '@', '%', '+', '=', ':', ',', '.', '/', '-'] := by
    simpa [plain] using h
  rcases hc with hc | hc
  · simp only [Char.isAlphanum, Char.isAlpha, Char.isUpper, Char.isLower, Char.isDigit,
      Bool.or_eq_true, Bool.and_eq_true, decide_eq_true_eq, ge_iff_le, UInt32.le_iff_toNat_le] at hc
    change ((65 ≤ c.toNat ∧ c.toNat ≤ 90) ∨ (97 ≤ c.toNat ∧ c.toNat ≤ 122)) ∨
      (48 ≤ c.toNat ∧ c.toNat ≤ 57) at hc
    omega
  · simp only [List.mem_cons, List.not_mem_nil, or_false] at hc
    rcases hc with rfl | rfl | rfl | rfl | rfl | rfl | rfl | rfl | rfl | rfl
    all_goals exact ⟨by decide, by decide⟩

theorem plain_not_space {c : Char} (h : plain c = true) : isspace c = false := by
  obtain ⟨hlow, hhigh⟩ := plain_range h
  simp only [isspace, Bool.or_eq_false_iff, Bool.and_eq_false_iff, decide_eq_false_iff_not,
    beq_eq_false_iff_ne]
  omega

theorem plain_not_ctrl {c : Char} (h : plain c = true) : isCtrl c = false := by
  obtain ⟨hlow, hhigh⟩ := plain_range h
  simp only [isCtrl, Bool.or_eq_false_iff, decide_eq_false_iff_not]
  omega

theorem plain_blankCtrl (c : Char) : plain (blankCtrl c) = plain c := by
  unfold blankCtrl
  split
  case isTrue h =>
    have hc : plain c = false := by
      by_contra hp
      rw [plain_not_ctrl (by simpa using hp)] at h
      exact Bool.false_ne_true h
    rw [hc]
    rfl
  case isFalse => rfl

theorem requote_blankCtrl (c : Char) : requote (blankCtrl c) = (requote c).map blankCtrl := by
  by_cases hc : c = '\''
  · subst hc
    rfl
  · have hne : blankCtrl c ≠ '\'' := by
      unfold blankCtrl
      split
      · decide
      · exact hc
    simp [requote, hc, hne]

theorem shlexQuote_map (w : Text) :
    shlexQuote (w.map blankCtrl) = (shlexQuote w).map blankCtrl := by
  have hempty : (w.map blankCtrl).isEmpty = w.isEmpty := by cases w <;> rfl
  have hall : (w.map blankCtrl).all plain = w.all plain := by
    simp [List.all_map, Function.comp_def, plain_blankCtrl]
  have hquoted : (w.map blankCtrl).flatMap requote = (w.flatMap requote).map blankCtrl := by
    rw [List.flatMap_map, List.map_flatMap]
    exact List.flatMap_congr fun c _ => requote_blankCtrl c
  unfold shlexQuote
  rw [hempty, hall, hquoted]
  split
  · rfl
  · split
    · rfl
    · simp [show blankCtrl '\'' = '\'' from rfl]

theorem shlexJoin_map : ∀ ws : List Text,
    shlexJoin (ws.map (·.map blankCtrl)) = (shlexJoin ws).map blankCtrl
  | [] => rfl
  | [w] => by simp [shlexJoin, List.intercalate, shlexQuote_map]
  | w :: v :: ws => by
    have ih := shlexJoin_map (v :: ws)
    rw [List.map_cons] at ih
    rw [List.map_cons, List.map_cons, shlexJoin_cons, shlexJoin_cons, shlexQuote_map, ih]
    simp [show blankCtrl ' ' = ' ' from rfl]

theorem blankCtrl_idem (c : Char) : blankCtrl (blankCtrl c) = blankCtrl c := by
  unfold blankCtrl
  split
  · rfl
  · rfl

/-! ## A line is looked into -/

/-- Neither begins nor ends with white space. -/
structure Solid (s : Text) : Prop where
  ne_nil : s ≠ []
  head : ∀ a ∈ s.head?, isspace a = false
  last : ∀ b ∈ s.getLast?, isspace b = false

theorem Solid.around {s t : Text} (hs : Solid s) (ht : Solid t) (m : Text) :
    Solid (s ++ (m ++ t)) where
  ne_nil := by simp [hs.ne_nil]
  head := by
    rw [List.head?_append_of_ne_nil _ hs.ne_nil]
    exact hs.head
  last := by
    rw [← List.append_assoc, List.getLast?_append_of_ne_nil _ ht.ne_nil]
    exact ht.last

theorem strip_solid {s : Text} (h : Solid s) : strip s = s := by
  have hdrop : s.dropWhile isspace = s :=
    List.dropWhile_eq_self_iff.mpr fun hl => by
      simp [h.head s[0] (by rw [List.head?_eq_getElem?, List.getElem?_eq_getElem hl]; rfl)]
  rw [strip, hdrop, List.rdropWhile_eq_self_iff]
  intro hl
  simp [h.last _ (List.getLast_mem_getLast? hl)]

theorem quote_solid (w : Text) : Solid (shlexQuote w) := by
  have hquote : isspace '\'' = false := by decide
  unfold shlexQuote
  split
  case isTrue => exact ⟨by simp, by simp [hquote], by simp [hquote]⟩
  case isFalse hne =>
    split
    case isTrue hall =>
      have hplain (c : Char) (hc : c ∈ w) : isspace c = false :=
        plain_not_space (List.all_eq_true.mp hall c hc)
      exact ⟨by simpa using hne, fun a ha => hplain a (List.mem_of_mem_head? ha),
        fun b hb => hplain b (List.mem_of_mem_getLast? hb)⟩
    case isFalse =>
      refine ⟨by simp, by simp [hquote], ?_⟩
      rw [← List.cons_append, List.getLast?_concat]
      simp [hquote]

theorem join_solid : ∀ (w : Text) (ws : List Text), Solid (shlexJoin (w :: ws))
  | w, [] => by
    have hline : shlexJoin [w] = shlexQuote w := by simp [shlexJoin, List.intercalate]
    rw [hline]
    exact quote_solid w
  | w, v :: ws => by
    rw [shlexJoin_cons]
    exact (quote_solid w).around (join_solid v ws) [' ']

theorem hasWords_line (w v : Text) (ws : List Text) :
    hasWords (shlexJoin (w :: v :: ws)) = true := by
  rw [hasWords, strip_solid (join_solid w (v :: ws)), shlexJoin_cons, List.any_append,
    List.any_cons]
  simp [show isspace ' ' = true from rfl]

/-! ## A line is masked as its words -/

section Redact

variable {secretFlag : Text → Bool} {scrub : Text → Text} {maxItems maxLen : ℕ}

theorem tokenOf_map (raw : Text) : tokenOf maxLen (raw.map blankCtrl) = tokenOf maxLen raw := by
  have hidem : blankCtrl ∘ blankCtrl = blankCtrl := funext blankCtrl_idem
  rw [tokenOf, List.map_map, hidem, tokenOf]

theorem redactFrom_map (inner : Text → Option Text) : ∀ (skip : Bool) (argv : List Text),
    redactFrom secretFlag scrub maxLen inner skip (argv.map (·.map blankCtrl)) =
      redactFrom secretFlag scrub maxLen inner skip argv
  | _, [] => by simp [redactFrom]
  | true, _ :: argv => by
    rw [List.map_cons, redactFrom, redactFrom, redactFrom_map inner false argv]
  | false, raw :: argv => by
    rw [List.map_cons, redactFrom, redactFrom, tokenOf_map, redactFrom_map inner false argv,
      redactFrom_map inner true argv]

theorem redactArgvDepth_map (n : ℕ) (argv : List Text) :
    redactArgvDepth secretFlag scrub maxItems maxLen n (argv.map (·.map blankCtrl)) =
      redactArgvDepth secretFlag scrub maxItems maxLen n argv := by
  cases n with
  | zero => rw [redactArgvDepth, redactArgvDepth, ← List.map_take, redactFrom_map]
  | succ n => rw [redactArgvDepth, redactArgvDepth, ← List.map_take, redactFrom_map]

/-- What an argument becomes that is looked into. -/
def lineOf (secretFlag : Text → Bool) (scrub : Text → Text) (maxItems maxLen n : ℕ)
    (tok : Text) : Option Text :=
  if hasWords tok then
    some ([' '].intercalate (redactArgvDepth secretFlag scrub maxItems maxLen n (parts tok)))
  else none

theorem redactArgvDepth_succ (n : ℕ) (argv : List Text) :
    redactArgvDepth secretFlag scrub maxItems maxLen (n + 1) argv =
      redactFrom secretFlag scrub maxLen (lineOf secretFlag scrub maxItems maxLen n) false
        (argv.take maxItems) := rfl

/-- A whole line is read back as its words, with blanks for the control characters in them. -/
theorem lineOf_join (n : ℕ) {ws : List Text} (hws : 2 ≤ ws.length)
    (hlen : (shlexJoin ws).length ≤ maxLen) :
    lineOf secretFlag scrub maxItems maxLen n (tokenOf maxLen (shlexJoin ws)) =
      some ([' '].intercalate (redactArgvDepth secretFlag scrub maxItems maxLen n ws)) := by
  have htok : tokenOf maxLen (shlexJoin ws) = shlexJoin (ws.map (·.map blankCtrl)) := by
    rw [tokenOf, List.take_of_length_le (by simpa using hlen), shlexJoin_map]
  have hlook : hasWords (shlexJoin (ws.map (·.map blankCtrl))) = true := by
    obtain ⟨w, v, us, rfl⟩ : ∃ w v us, ws = w :: v :: us := by
      rcases ws with _ | ⟨w, _ | ⟨v, us⟩⟩
      · simp at hws
      · simp at hws
      · exact ⟨w, v, us, rfl⟩
    exact hasWords_line _ _ _
  rw [htok, lineOf, if_pos hlook, parts, shlexSplit_join]
  simp only [redactArgvDepth_map]

/-- A command that is sent as one line is masked as its words are. -/
theorem command_redacted (hitems : 0 < maxItems) {ws : List Text} (hws : 2 ≤ ws.length)
    (hlen : (shlexJoin ws).length ≤ maxLen) :
    redactArgv secretFlag scrub maxItems maxLen [shlexJoin ws] =
      [[' '].intercalate (redactArgvDepth secretFlag scrub maxItems maxLen 1 ws)] := by
  have hall : [shlexJoin ws].take maxItems = [shlexJoin ws] :=
    List.take_of_length_le (Nat.succ_le_of_lt hitems)
  rw [redactArgv, redactArgvDepth_succ, hall, redactFrom, lineOf_join 1 hws hlen, redactFrom]

theorem command_redacted_serve :
    redactArgv (· = "--api-key".toList) id 400 1024
        [shlexJoin ["serve".toList, "--api-key".toList, "a b".toList]] =
      [[' '].intercalate (redactArgvDepth (· = "--api-key".toList) id 400 1024 1
        ["serve".toList, "--api-key".toList, "a b".toList])] :=
  command_redacted (by decide) (by decide) (by decide)

/-! ## The value of a secret -/

/-- A cut after so many items either keeps `x` where it is or leaves it out. -/
theorem congr_take {β : Type*} {f : List Text → β} (before after : List Text) {x y : Text}
    (h : ∀ k, f (before ++ x :: after.take k) = f (before ++ y :: after.take k)) (m : ℕ) :
    f ((before ++ x :: after).take m) = f ((before ++ y :: after).take m) := by
  rcases Nat.lt_or_ge before.length m with hm | hm
  · obtain ⟨k, rfl⟩ := Nat.exists_eq_add_of_lt hm
    rw [Nat.add_assoc, List.take_length_add_append, List.take_length_add_append,
      List.take_succ_cons, List.take_succ_cons]
    exact h k
  · rw [List.take_append_of_le_length hm, List.take_append_of_le_length hm]

/-- What is shown for an argument that is not left out. -/
def shownFor (secretFlag : Text → Bool) (scrub : Text → Text) (inner : Text → Option Text)
    (tok : Text) : Text :=
  (inner tok).getD <|
    if namesSecret secretFlag tok then
      if tok.contains '=' then tok.takeWhile (· ≠ '=') ++ '=' :: redacted else tok
    else scrub tok

section Loop

variable {inner : Text → Option Text} (hinner : ∀ tok, (inner tok).isSome = hasWords tok)
include hinner

theorem redactFrom_cons (raw : Text) (argv : List Text) :
    redactFrom secretFlag scrub maxLen inner false (raw :: argv) =
      shownFor secretFlag scrub inner (tokenOf maxLen raw) ::
        redactFrom secretFlag scrub maxLen inner (opensSecret secretFlag maxLen raw) argv := by
  have hlook := hinner (tokenOf maxLen raw)
  rw [redactFrom]
  cases hin : inner (tokenOf maxLen raw) with
  | some line =>
    have hwords : hasWords (tokenOf maxLen raw) = true := by rw [← hlook, hin]; rfl
    have hopen : opensSecret secretFlag maxLen raw = false := by simp [opensSecret, hwords]
    simp only [shownFor, hin, Option.getD_some, hopen]
  | none =>
    have hwords : hasWords (tokenOf maxLen raw) = false := by rw [← hlook, hin]; rfl
    cases hnames : namesSecret secretFlag (tokenOf maxLen raw) with
    | false =>
      have hopen : opensSecret secretFlag maxLen raw = false := by simp [opensSecret, hnames]
      simp [shownFor, hin, hnames, hopen]
    | true =>
      cases heq : (tokenOf maxLen raw).contains '=' with
      | true =>
        have hopen : opensSecret secretFlag maxLen raw = false := by
          simp only [opensSecret, heq, Bool.not_true, Bool.and_false]
        simp only [shownFor, hin, hnames, heq, hopen, Option.getD_none, if_true]
      | false =>
        have hopen : opensSecret secretFlag maxLen raw = true := by
          simp only [opensSecret, hwords, hnames, heq, Bool.not_false, Bool.and_true]
        simp only [shownFor, hin, hnames, heq, hopen, Option.getD_none, if_true,
          Bool.false_eq_true, if_false]

/-- Two arguments that are looked into, and become the same, are the same to the loop. -/
theorem redactFrom_line {x y line : Text}
    (hx : inner (tokenOf maxLen x) = some line) (hy : inner (tokenOf maxLen y) = some line)
    (after : List Text) : ∀ (skip : Bool) (before : List Text),
    redactFrom secretFlag scrub maxLen inner skip (before ++ x :: after) =
      redactFrom secretFlag scrub maxLen inner skip (before ++ y :: after)
  | true, [] => by rw [List.nil_append, List.nil_append, redactFrom, redactFrom]
  | false, [] => by
    rw [List.nil_append, List.nil_append, redactFrom, redactFrom]
    simp only [hx, hy]
  | true, _ :: before => by
    rw [List.cons_append, List.cons_append, redactFrom, redactFrom,
      redactFrom_line hx hy after false before]
  | false, raw :: before => by
    rw [List.cons_append, List.cons_append, redactFrom_cons hinner, redactFrom_cons hinner,
      redactFrom_line hx hy after _ before]

/-- The loop passes over what follows the flag of a secret. By induction on the arguments before
the flag : the loop leaves one out just where `skipAfter` does. -/
theorem redactFrom_value {flag : Text} (hflag : opensSecret secretFlag maxLen flag = true)
    (v v' : Text) (post : List Text) : ∀ (skip : Bool) (pre : List Text),
    pre.foldl (fun skip raw => !skip && opensSecret secretFlag maxLen raw) skip = false →
    redactFrom secretFlag scrub maxLen inner skip (pre ++ flag :: v :: post) =
      redactFrom secretFlag scrub maxLen inner skip (pre ++ flag :: v' :: post)
  | false, [], _ => by
    rw [List.nil_append, List.nil_append, redactFrom_cons hinner, redactFrom_cons hinner, hflag,
      redactFrom, redactFrom]
  | true, _ :: pre, hpre => by
    rw [List.cons_append, List.cons_append, redactFrom, redactFrom,
      redactFrom_value hflag v v' post false pre hpre]
  | false, raw :: pre, hpre => by
    rw [List.cons_append, List.cons_append, redactFrom_cons hinner, redactFrom_cons hinner,
      redactFrom_value hflag v v' post (opensSecret secretFlag maxLen raw) pre hpre]

end Loop

theorem isSome_lineOf (n : ℕ) (tok : Text) :
    (lineOf secretFlag scrub maxItems maxLen n tok).isSome = hasWords tok := by
  unfold lineOf
  cases hasWords tok with
  | false => rfl
  | true => rfl

/-- Above the last level no value of a secret has a part in what is shown. -/
theorem redactArgvDepth_value (n : ℕ) {flag : Text}
    (hflag : opensSecret secretFlag maxLen flag = true) {pre : List Text}
    (hpre : skipAfter secretFlag maxLen pre = false) (v v' : Text) (post : List Text) :
    redactArgvDepth secretFlag scrub maxItems maxLen (n + 1) (pre ++ flag :: v :: post) =
      redactArgvDepth secretFlag scrub maxItems maxLen (n + 1) (pre ++ flag :: v' :: post) := by
  have hcut := congr_take
    (f := redactFrom secretFlag scrub maxLen (lineOf secretFlag scrub maxItems maxLen n) false)
    (pre ++ [flag]) post (x := v) (y := v')
    (fun k => by
      simpa using redactFrom_value (isSome_lineOf n) hflag v v' (post.take k) false pre hpre)
    maxItems
  simpa [redactArgvDepth_succ] using hcut

/-- Two lines whose words are masked alike are masked alike among any other arguments. -/
theorem redactArgvDepth_line (n : ℕ) {ws us : List Text} (hws : 2 ≤ ws.length)
    (hus : 2 ≤ us.length) (hlen : (shlexJoin ws).length ≤ maxLen)
    (hlen' : (shlexJoin us).length ≤ maxLen)
    (heq : redactArgvDepth secretFlag scrub maxItems maxLen n ws =
      redactArgvDepth secretFlag scrub maxItems maxLen n us) (before after : List Text) :
    redactArgvDepth secretFlag scrub maxItems maxLen (n + 1) (before ++ shlexJoin ws :: after) =
      redactArgvDepth secretFlag scrub maxItems maxLen (n + 1)
        (before ++ shlexJoin us :: after) := by
  have hline : lineOf secretFlag scrub maxItems maxLen n (tokenOf maxLen (shlexJoin ws)) =
      some ([' '].intercalate (redactArgvDepth secretFlag scrub maxItems maxLen n us)) := by
    rw [lineOf_join n hws hlen, heq]
  exact congr_take before after (fun k => redactFrom_line (isSome_lineOf n) hline
    (lineOf_join n hus hlen') (after.take k) false before) maxItems

/-- The value that follows the flag of a secret has no part in what is shown, neither among the
arguments nor in a line among them. -/
theorem secret_unseen {flag : Text} (hflag : opensSecret secretFlag maxLen flag = true)
    {pre : List Text} (hpre : skipAfter secretFlag maxLen pre = false) (v v' : Text)
    (post : List Text) :
    redactArgv secretFlag scrub maxItems maxLen (pre ++ flag :: v :: post) =
        redactArgv secretFlag scrub maxItems maxLen (pre ++ flag :: v' :: post) ∧
      ∀ before after : List Text,
        (shlexJoin (pre ++ flag :: v :: post)).length ≤ maxLen →
        (shlexJoin (pre ++ flag :: v' :: post)).length ≤ maxLen →
        redactArgv secretFlag scrub maxItems maxLen
            (before ++ shlexJoin (pre ++ flag :: v :: post) :: after) =
          redactArgv secretFlag scrub maxItems maxLen
            (before ++ shlexJoin (pre ++ flag :: v' :: post) :: after) := by
  refine ⟨redactArgvDepth_value 1 hflag hpre v v' post, fun before after hlen hlen' => ?_⟩
  have htwo (v : Text) : 2 ≤ (pre ++ flag :: v :: post).length := by
    simp only [List.length_append, List.length_cons]
    omega
  exact redactArgvDepth_line 1 (htwo v) (htwo v') hlen hlen'
    (redactArgvDepth_value 0 hflag hpre v v' post) before after

end Redact

theorem secret_unseen_serve :
    redactArgv (· = "--api-key".toList) id 400 1024
        ["sh".toList, "-c".toList, shlexJoin ["serve".toList, "--api-key".toList, "it's".toList]] =
      redactArgv (· = "--api-key".toList) id 400 1024
        ["sh".toList, "-c".toList, shlexJoin ["serve".toList, "--api-key".toList, "x".toList]] := by
  have hflag : opensSecret (· = "--api-key".toList) 1024 "--api-key".toList = true := by decide
  have hpre : skipAfter (· = "--api-key".toList) 1024 ["serve".toList] = false := by decide
  exact (secret_unseen hflag hpre "it's".toList "x".toList []).2 ["sh".toList, "-c".toList] []
    (by decide) (by decide)

end EngineConsole.MaskedCommands
