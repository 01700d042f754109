import Mathlib

/-!
# A command as one line of shell words

The hub shows what a node runs as one line to copy : `shlex_quote` puts a word in single quotes
unless every character of it is plain, `shlex_join` sets blanks between the words. The node takes
such a line apart with `shlex_split`, a reader with four states that goes over the characters once
(`Reader.step`) and looks at its state when they are used up (`Reader.finish`).

`words_read_back` : the line of any list of words is read as that list, whatever characters are in
them, so the line of a `docker run` names the command it was made from, in both forms the node has
for it.
-/

set_option linter.unusedSectionVars false

namespace EngineConsole.ShellWords

abbrev Text := List Char

/-! ## Quoting -/

/-- A character that a word may have without quotes. -/
def plain (c : Char) : Bool :=
  c.isAlphanum || "_@%+=:,./-".toList.contains c

/-- `s.replace('\'', "'\"'\"'")` : the quote is closed, stands in double quotes, and is opened. -/
def requote (c : Char) : Text :=
  if c = '\'' then ['\'', '"', '\'', '"', '\''] else [c]

def shlexQuote (s : Text) : Text :=
  if s.isEmpty then ['\'', '\'']
  else if s.all plain then s
  else '\'' :: (s.flatMap requote ++ ['\''])

def shlexJoin (argv : List Text) : Text :=
  [' '].intercalate (argv.map shlexQuote)

/-- `t.rsplit('/').next()` -/
def lastPart (t : Text) : Text :=
  (t.splitOn '/').getLastD []

/-- The loop that drops `--context` with what follows it. -/
def dropContext : List Text → List Text
  | t :: x :: toks =>
    if t = "--context".toList then dropContext toks else t :: x :: toks
  | toks => toks

def cleanRender (argv : List Text) : Text :=
  let toks := if argv.head?.any (lastPart · = "docker".toList) then argv.tail else argv
  shlexJoin ("docker".toList :: dropContext toks)

/-! ## Reading -/

/-- `' '`, `'a'`, a quote and `'\\'` of the source. -/
inductive State where
  | blank
  | word
  | inQuote (q : Char)
  | escaped
  deriving DecidableEq

inductive Error where
  | noClosingQuotation
  | noEscapedCharacter
  deriving DecidableEq

/-- The words read so far and the one that is being read. -/
structure Reader where
  state : State
  token : Text
  quoted : Bool
  escapedstate : State
  out : List Text

/-- What the outer loop sets at the start of a word. -/
def Reader.fresh (out : List Text) : Reader :=
  ⟨.blank, [], false, .blank, out⟩

def Reader.begun (r : Reader) : Bool :=
  !r.token.isEmpty || r.quoted

def isWS (c : Char) : Bool :=
  " \t\r\n".toList.contains c

/-- The backslash stays before a character that it does not protect in a quote. -/
def keepsBackslash (c : Char) : State → Bool
  | .inQuote q => c ≠ '\\' && c ≠ q
  | _ => false

/-- One character, the end of a word included. -/
def Reader.step (r : Reader) (c : Char) : Reader :=
  match r.state with
  | .blank =>
    if isWS c then
      if r.begun then .fresh (r.out ++ [r.token]) else r
    else if c = '\\' then { r with escapedstate := .word, state := .escaped }
    else if c = '\'' || c = '"' then { r with state := .inQuote c }
    else { r with token := r.token ++ [c], state := .word }
  | .inQuote q =>
    if c = q then { r with quoted := true, state := .word }
    else if c = '\\' && q = '"' then
      { r with quoted := true, escapedstate := .inQuote q, state := .escaped }
    else { r with quoted := true, token := r.token ++ [c] }
  | .escaped =>
    let kept := if keepsBackslash c r.escapedstate then ['\\'] else []
    { r with token := r.token ++ kept ++ [c], state := r.escapedstate }
  | .word =>
    if isWS c then
      if r.begun then .fresh (r.out ++ [r.token]) else { r with state := .blank }
    else if c = '\'' || c = '"' then { r with state := .inQuote c }
    else if c = '\\' then { r with escapedstate := .word, state := .escaped }
    else { r with token := r.token ++ [c] }

/-- What the reader answers once the characters are used up. -/
def Reader.finish (r : Reader) : Except Error (List Text) :=
  match r.state with
  | .inQuote _ => .error .noClosingQuotation
  | .escaped => .error .noEscapedCharacter
  | .blank | .word => .ok (if r.begun then r.out ++ [r.token] else r.out)

def shlexSplit (s : Text) : Except Error (List Text) :=
  (s.foldl Reader.step (.fresh [])).finish

/-! ## One word -/

/-- The reader has read the word `w` to its end, after the words `out`. -/
structure Reader.Holds (w : Text) (out : List Text) (r : Reader) : Prop where
  state : r.state = .word
  token : r.token = w
  out : r.out = out
  begun : r.begun = true

theorem plain_spec {c : Char} (h : plain c = true) :
    isWS c = false ∧ c ≠ '\\' ∧ c ≠ '\'' ∧ c ≠ '"' := by
  have hne (d : Char) (hd : plain d = false) : c ≠ d := by
    rintro rfl
    exact absurd h (by simp [hd])
  refine ⟨?_, hne '\\' rfl, hne '\'' rfl, hne '"' rfl⟩
  simp [isWS, hne ' ' rfl, hne '\t' rfl, hne '\r' rfl, hne '\n' rfl]

/-- Plain characters are read as they are, the first of them from the start of a word. -/
theorem read_plain (out : List Text) : ∀ {w t : Text} {st : State}, w.all plain = true →
    st = .blank ∧ w ≠ [] ∨ st = .word ∧ t ≠ [] →
    (w.foldl Reader.step ⟨st, t, false, .blank, out⟩).Holds (t ++ w) out
  | [], t, st, _, hst => by
    rcases hst with ⟨_, h⟩ | ⟨rfl, ht⟩
    · exact absurd rfl h
    · exact ⟨rfl, by simp, rfl, by simpa [Reader.begun] using ht⟩
  | c :: w, t, st, hw, hst => by
    obtain ⟨hc, hw⟩ : plain c = true ∧ w.all plain = true := by simpa using hw
    obtain ⟨hws, hback, hone, htwo⟩ := plain_spec hc
    have hstep : Reader.step ⟨st, t, false, .blank, out⟩ c =
        ⟨.word, t ++ [c], false, .blank, out⟩ := by
      rcases hst with ⟨rfl, _⟩ | ⟨rfl, _⟩ <;> simp [Reader.step, hws, hback, hone, htwo]
    rw [List.foldl_cons, hstep, List.append_cons t c w]
    exact read_plain out hw (.inr ⟨rfl, by simp⟩)

/-- In single quotes every character is read as it is, a single quote from what stands for it. -/
theorem read_quoted (e : State) (out : List Text) : ∀ (w t : Text) (b : Bool),
    ∃ b', (w.flatMap requote).foldl Reader.step ⟨.inQuote '\'', t, b, e, out⟩ =
      ⟨.inQuote '\'', t ++ w, b', e, out⟩
  | [], t, b => ⟨b, by simp⟩
  | c :: w, t, b => by
    have hone : (requote c).foldl Reader.step ⟨.inQuote '\'', t, b, e, out⟩ =
        ⟨.inQuote '\'', t ++ [c], true, e, out⟩ := by
      by_cases hc : c = '\''
      · subst hc
        simp [requote, Reader.step, isWS]
      · simp [requote, Reader.step, hc]
    obtain ⟨b', h⟩ := read_quoted e out w (t ++ [c]) true
    refine ⟨b', ?_⟩
    rw [List.flatMap_cons, List.foldl_append, hone, h]
    simp

theorem read_word (w : Text) (out : List Text) :
    ((shlexQuote w).foldl Reader.step (.fresh out)).Holds w out := by
  unfold shlexQuote
  split
  case isTrue h =>
    obtain rfl : w = [] := by simpa using h
    exact ⟨rfl, rfl, rfl, rfl⟩
  case isFalse h =>
    split
    case isTrue hw =>
      simpa [Reader.fresh] using read_plain out (t := []) hw (.inl ⟨rfl, by simpa using h⟩)
    case isFalse =>
      have hopen : Reader.step (.fresh out) '\'' = ⟨.inQuote '\'', [], false, .blank, out⟩ := by
        simp [Reader.step, Reader.fresh, isWS]
      obtain ⟨b, hread⟩ := read_quoted .blank out w [] false
      rw [List.foldl_cons, hopen, List.foldl_append, hread]
      exact ⟨rfl, rfl, rfl, by simp [Reader.step, Reader.begun]⟩

namespace Reader.Holds

variable {w : Text} {out : List Text} {r : Reader}

theorem step_blank (h : r.Holds w out) : r.step ' ' = .fresh (out ++ [w]) := by
  simp [Reader.step, h.state, h.begun, h.token, h.out, isWS]

theorem finish (h : r.Holds w out) : r.finish = .ok (out ++ [w]) := by
  simp [Reader.finish, h.state, h.begun, h.token, h.out]

end Reader.Holds

/-! ## A line -/

theorem shlexJoin_cons (w v : Text) (ws : List Text) :
    shlexJoin (w :: v :: ws) = shlexQuote w ++ ' ' :: shlexJoin (v :: ws) := by
  simp [shlexJoin, List.intercalate]

/-- By induction on the words : the blank after one starts the next afresh. -/
theorem read_line : ∀ (w : Text) (ws out : List Text),
    ((shlexJoin (w :: ws)).foldl Reader.step (.fresh out)).finish = .ok (out ++ w :: ws)
  | w, [], out => by
    have hline : shlexJoin [w] = shlexQuote w := by simp [shlexJoin, List.intercalate]
    rw [hline]
    exact (read_word w out).finish
  | w, v :: ws, out => by
    rw [shlexJoin_cons, List.foldl_append, List.foldl_cons, (read_word w out).step_blank,
      read_line v ws (out ++ [w])]
    simp

theorem shlexSplit_join : ∀ ws : List Text, shlexSplit (shlexJoin ws) = .ok ws
  | [] => rfl
  | w :: ws => read_line w ws []

/-- Two commands with one line are one command. -/
theorem shlexJoin_injective : Function.Injective shlexJoin := by
  intro ws vs h
  have hread : shlexSplit (shlexJoin ws) = .ok vs := by rw [h, shlexSplit_join]
  rw [shlexSplit_join] at hread
  exact Except.ok.inj hread

/-! ## What the node renders -/

/-- `--context x` for every `x`. -/
def contexts (xs : List Text) : List Text :=
  xs.flatMap fun x => ["--context".toList, x]

theorem dropContext_contexts {args : List Text} (h : args.head? ≠ some "--context".toList) :
    ∀ xs : List Text, dropContext (contexts xs ++ args) = args
  | [] => by
    rcases args with _ | ⟨t, _ | ⟨x, toks⟩⟩
    · rfl
    · rfl
    · have ht : t ≠ "--context".toList := by simpa using h
      simp only [contexts, List.flatMap_nil, List.nil_append, dropContext, if_neg ht]
  | x :: xs => by
    have hcons : contexts (x :: xs) ++ args = "--context".toList :: x :: (contexts xs ++ args) := by
      simp [contexts]
    rw [hcons, dropContext, if_pos rfl]
    exact dropContext_contexts h xs

/-- The line of `docker run` is the same whether the node names the binary and its contexts or
starts with `run`. -/
theorem cleanRender_forms {bin : Text} (hbin : lastPart bin = "docker".toList)
    (xs args : List Text) :
    cleanRender (bin :: (contexts xs ++ "run".toList :: args)) =
        cleanRender ("run".toList :: args) ∧
      cleanRender ("run".toList :: args) = shlexJoin ("docker".toList :: "run".toList :: args) := by
  have hrun : lastPart "run".toList ≠ "docker".toList := by decide
  have hctx (xs : List Text) :
      dropContext (contexts xs ++ "run".toList :: args) = "run".toList :: args :=
    dropContext_contexts (by simp) xs
  have hplain : cleanRender ("run".toList :: args) =
      shlexJoin ("docker".toList :: "run".toList :: args) := by
    have hnil : dropContext ("run".toList :: args) = "run".toList :: args := hctx []
    simp only [cleanRender, List.head?_cons, Option.any_some, hrun, decide_false,
      Bool.false_eq_true, if_false, hnil]
  refine ⟨?_, hplain⟩
  rw [hplain]
  simp only [cleanRender, List.head?_cons, Option.any_some, hbin, decide_true, if_true,
    List.tail_cons, hctx xs]

/-- Every line is read as the words it was made from; the line of a `docker run` names the command
the node rendered, whichever binary and contexts it ran it with. -/
theorem words_read_back :
    (∀ ws : List Text, shlexSplit (shlexJoin ws) = .ok ws) ∧
      ∀ (bin : Text) (xs args : List Text), lastPart bin = "docker".toList →
        let words := "docker".toList :: "run".toList :: args
        shlexSplit (cleanRender ("run".toList :: args)) = .ok words ∧
          shlexSplit (cleanRender (bin :: (contexts xs ++ "run".toList :: args))) = .ok words := by
  refine ⟨shlexSplit_join, fun bin xs args hbin => ?_⟩
  obtain ⟨hsame, hrun⟩ := cleanRender_forms hbin xs args
  rw [hsame, hrun]
  exact ⟨shlexSplit_join _, shlexSplit_join _⟩

theorem words_read_back_docker :
    shlexSplit (cleanRender ["/usr/bin/docker".toList, "--context".toList, "gpu".toList,
      "run".toList, "it's".toList, [], "$x y".toList]) =
      .ok ["docker".toList, "run".toList, "it's".toList, [], "$x y".toList] :=
  (words_read_back.2 "/usr/bin/docker".toList ["gpu".toList]
    ["it's".toList, [], "$x y".toList] (by decide)).2

end EngineConsole.ShellWords
