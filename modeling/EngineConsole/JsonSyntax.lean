import EngineConsole.JsonText

/-!
# The texts of JSON

The grammar of JSON as trees that keep every character : white space, the pieces of a string,
the parts of a number, and the words `NaN`, `Infinity` and `-Infinity` beside the usual three.
A tree has a text (`Value.text`) and, once it is said what strings and numbers stand for
(`Sense`), a value (`Value.doc`). Escapes `\uXXXX` that name the two halves of a surrogate
pair stand for one code point, and an object keeps the first place and the last value of a
repeated key.

`nesting` is how deep the brackets of any text nest, well formed or not : the brackets outside
strings are counted. On the text of a tree it is the depth of the tree
(`deepest_text`).
-/

set_option linter.unusedSectionVars false

namespace EngineConsole.JsonSyntax

abbrev Text := List Char

/-! ## White space, words and strings -/

/-- The white space of JSON. -/
def isWs (c : Char) : Bool :=
  c = ' ' || c = '\t' || c = '\n' || c = '\r'

/-- What is left after white space. -/
def ws (s : Text) : Text :=
  s.dropWhile isWs

/-- The words that stand for themselves. -/
inductive Word where
  | null | true | false | nan | infinity | negInfinity
  deriving DecidableEq

/-- How a word is spelled. -/
def Word.text : Word → Text
  | .null => ['n', 'u', 'l', 'l']
  | .true => ['t', 'r', 'u', 'e']
  | .false => ['f', 'a', 'l', 's', 'e']
  | .nan => ['N', 'a', 'N']
  | .infinity => ['I', 'n', 'f', 'i', 'n', 'i', 't', 'y']
  | .negInfinity => ['-', 'I', 'n', 'f', 'i', 'n', 'i', 't', 'y']

/-- The value of a hexadecimal digit. -/
def hexDigit (c : Char) : Option ℕ :=
  if '0' ≤ c ∧ c ≤ '9' then some (c.toNat - '0'.toNat)
  else if 'a' ≤ c ∧ c ≤ 'f' then some (c.toNat - 'a'.toNat + 10)
  else if 'A' ≤ c ∧ c ≤ 'F' then some (c.toNat - 'A'.toNat + 10)
  else none

/-- The number four hexadecimal digits write. -/
def hex4 (a b c d : Char) : Option ℕ := do
  return (((← hexDigit a) * 16 + (← hexDigit b)) * 16 + (← hexDigit c)) * 16 + (← hexDigit d)

/-- The character a letter after a backslash stands for. -/
def escape (c : Char) : Option Char :=
  if c = '"' then some '"' else if c = '\\' then some '\\' else if c = '/' then some '/'
  else if c = 'b' then some '\x08' else if c = 'f' then some '\x0c'
  else if c = 'n' then some '\n' else if c = 'r' then some '\r' else if c = 't' then some '\t'
  else none

/-- The first half of a surrogate pair. -/
def isHigh (n : ℕ) : Bool :=
  0xD800 ≤ n && n ≤ 0xDBFF

/-- The second half. -/
def isLow (n : ℕ) : Bool :=
  0xDC00 ≤ n && n ≤ 0xDFFF

/-- Half of a surrogate pair : no character. -/
def isSurrogate (n : ℕ) : Bool :=
  isHigh n || isLow n

/-- The code point of a surrogate pair. -/
def pair (hi lo : ℕ) : ℕ :=
  0x10000 + (hi - 0xD800) * 0x400 + (lo - 0xDC00)

/-- A piece of a string : a character, a letter after a backslash, or `\uXXXX`. -/
inductive Piece where
  | plain (c : Char)
  | short (e : Char)
  | code (a b c d : Char)

/-- How a piece is spelled. -/
def Piece.text : Piece → Text
  | .plain c => [c]
  | .short e => ['\\', e]
  | .code a b c d => ['\\', 'u', a, b, c, d]

/-- What may stand in a string. -/
def Piece.Ok : Piece → Prop
  | .plain c => c ≠ '"' ∧ c ≠ '\\' ∧ 0x1f < c.toNat
  | .short e => (escape e).isSome
  | .code a b c d => (hex4 a b c d).isSome

/-- The number a piece stands for, taken alone. -/
def Piece.point : Piece → ℕ
  | .plain c => c.toNat
  | .short e => ((escape e).getD '\x00').toNat
  | .code a b c d => (hex4 a b c d).getD 0

/-- A piece spelled with `\uXXXX`. -/
def Piece.isCode : Piece → Bool
  | .code .. => true
  | _ => false

/-- The code points of the pieces of a string : two halves of a pair are one. -/
def codePoints : List Piece → List ℕ
  | [] => []
  | [p] => [p.point]
  | p :: q :: ps =>
    if p.isCode && q.isCode && isHigh p.point && isLow q.point then
      pair p.point q.point :: codePoints ps
    else p.point :: codePoints (q :: ps)

/-- The text of the pieces of a string. -/
def piecesText (ps : List Piece) : Text :=
  ps.flatMap Piece.text

/-- A half of a pair is left alone. -/
def unpaired (ps : List Piece) : Bool :=
  (codePoints ps).any isSurrogate

/-! ## Numbers -/

/-- The parts of a number : sign, integer part, digits after the point, exponent. -/
structure NumText where
  neg : Bool
  int : Text
  frac : Option Text
  exp : Option (Char × Text × Text)

/-- A point and digits, if there are any. -/
def fracSpelling : Option Text → Text
  | none => []
  | some ds => '.' :: ds

/-- A letter, a sign and digits, if there is an exponent. -/
def expSpelling : Option (Char × Text × Text) → Text
  | none => []
  | some (e, sign, ds) => e :: sign ++ ds

namespace NumText

/-- The sign. -/
def signText (n : NumText) : Text :=
  if n.neg then ['-'] else []

/-- The point and the digits after it. -/
def fracText (n : NumText) : Text :=
  fracSpelling n.frac

/-- The exponent. -/
def expText (n : NumText) : Text :=
  expSpelling n.exp

/-- How a number is spelled. -/
def text (n : NumText) : Text :=
  n.signText ++ n.int ++ n.fracText ++ n.expText

/-- It has a point or an exponent. -/
def isFloat (n : NumText) : Bool :=
  n.frac.isSome || n.exp.isSome

/-- No leading zeros, and digits wherever digits are due. -/
structure Ok (n : NumText) : Prop where
  int : n.int = ['0'] ∨
    ∃ c ds, n.int = c :: ds ∧ ('1' ≤ c ∧ c ≤ '9') ∧ ∀ x ∈ ds, x.isDigit = true
  frac : ∀ ds ∈ n.frac, ds ≠ [] ∧ ∀ x ∈ ds, x.isDigit = true
  exp : ∀ e ∈ n.exp, (e.1 = 'e' ∨ e.1 = 'E') ∧
    (e.2.1 = [] ∨ e.2.1 = ['+'] ∨ e.2.1 = ['-']) ∧ e.2.2 ≠ [] ∧ ∀ x ∈ e.2.2, x.isDigit = true

end NumText

/-- What may follow a number : nothing, white space, or the end of an element. -/
def Follows (rest : Text) : Prop :=
  ∀ c ∈ rest.head?, isWs c = true ∨ c = ',' ∨ c = ']' ∨ c = '}'

/-! ## Values -/

mutual

/-- A value. -/
inductive Value where
  | word (w : Word)
  | num (n : NumText)
  | str (ps : List Piece)
  | emptyArr (space : Text)
  | arr (es : Elems)
  | emptyObj (space : Text)
  | obj (fs : Fields)

/-- The elements of an array, with the white space before and after each. -/
inductive Elems where
  | last (before : Text) (v : Value) (after : Text)
  | more (before : Text) (v : Value) (after : Text) (es : Elems)

/-- The fields of an object : white space, key, white space, colon, white space, value,
white space. -/
inductive Fields where
  | last (before : Text) (key : List Piece) (colon : Text) (between : Text) (v : Value)
      (after : Text)
  | more (before : Text) (key : List Piece) (colon : Text) (between : Text) (v : Value)
      (after : Text) (fs : Fields)

end

/-- The text of a string with its quotes. -/
def quoted (ps : List Piece) : Text :=
  '"' :: piecesText ps ++ ['"']

mutual

/-- The text of a value. -/
def Value.text : Value → Text
  | .word w => w.text
  | .num n => n.text
  | .str ps => quoted ps
  | .emptyArr space => '[' :: space ++ [']']
  | .arr es => '[' :: es.text ++ [']']
  | .emptyObj space => '{' :: space ++ ['}']
  | .obj fs => '{' :: fs.text ++ ['}']

/-- The text between the brackets of an array. -/
def Elems.text : Elems → Text
  | .last before v after => before ++ v.text ++ after
  | .more before v after es => before ++ v.text ++ after ++ ',' :: es.text

/-- The text between the braces of an object. -/
def Fields.text : Fields → Text
  | .last before key colon between v after =>
    before ++ quoted key ++ colon ++ ':' :: between ++ v.text ++ after
  | .more before key colon between v after fs =>
    before ++ quoted key ++ colon ++ ':' :: between ++ v.text ++ after ++ ',' :: fs.text

end

/-- White space only. -/
def Space (s : Text) : Prop :=
  ∀ c ∈ s, isWs c = true

/-- The pieces of a string are ones that may stand there. -/
def PiecesOk (ps : List Piece) : Prop :=
  ∀ p ∈ ps, p.Ok

mutual

/-- The tree is one of the grammar. -/
def Value.Ok : Value → Prop
  | .word _ => True
  | .num n => n.Ok
  | .str ps => PiecesOk ps
  | .emptyArr space => Space space
  | .arr es => es.Ok
  | .emptyObj space => Space space
  | .obj fs => fs.Ok

/-- `Value.Ok` of each element. -/
def Elems.Ok : Elems → Prop
  | .last before v after => Space before ∧ v.Ok ∧ Space after
  | .more before v after es => (Space before ∧ v.Ok ∧ Space after) ∧ es.Ok

/-- `Value.Ok` of each field. -/
def Fields.Ok : Fields → Prop
  | .last before key colon between v after =>
    Space before ∧ PiecesOk key ∧ Space colon ∧ Space between ∧ v.Ok ∧ Space after
  | .more before key colon between v after fs =>
    (Space before ∧ PiecesOk key ∧ Space colon ∧ Space between ∧ v.Ok ∧ Space after) ∧ fs.Ok

end

mutual

/-- How deep arrays and objects nest. -/
def Value.depth : Value → ℕ
  | .emptyArr _ => 1
  | .arr es => es.depth + 1
  | .emptyObj _ => 1
  | .obj fs => fs.depth + 1
  | _ => 0

/-- The depth of the deepest element. -/
def Elems.depth : Elems → ℕ
  | .last _ v _ => v.depth
  | .more _ v _ es => max v.depth es.depth

/-- The depth of the deepest field. -/
def Fields.depth : Fields → ℕ
  | .last _ _ _ _ v _ => v.depth
  | .more _ _ _ _ v _ fs => max v.depth fs.depth

end

mutual

/-- A string or a key has half of a pair alone. -/
def Value.unpaired : Value → Bool
  | .str ps => JsonSyntax.unpaired ps
  | .arr es => es.unpaired
  | .obj fs => fs.unpaired
  | _ => false

/-- `Value.unpaired` of an element. -/
def Elems.unpaired : Elems → Bool
  | .last _ v _ => v.unpaired
  | .more _ v _ es => v.unpaired || es.unpaired

/-- `Value.unpaired` of a field. -/
def Fields.unpaired : Fields → Bool
  | .last _ key _ _ v _ => JsonSyntax.unpaired key || v.unpaired
  | .more _ key _ _ v _ fs => JsonSyntax.unpaired key || v.unpaired || fs.unpaired

end

mutual

/-- A property of the numbers of a value. -/
def Value.AllNums (P : NumText → Prop) : Value → Prop
  | .num n => P n
  | .arr es => es.AllNums P
  | .obj fs => fs.AllNums P
  | _ => True

/-- `Value.AllNums` of each element. -/
def Elems.AllNums (P : NumText → Prop) : Elems → Prop
  | .last _ v _ => v.AllNums P
  | .more _ v _ es => v.AllNums P ∧ es.AllNums P

/-- `Value.AllNums` of each field. -/
def Fields.AllNums (P : NumText → Prop) : Fields → Prop
  | .last _ _ _ _ v _ => v.AllNums P
  | .more _ _ _ _ v _ fs => v.AllNums P ∧ fs.AllNums P

end

section Infix

variable {P : NumText → Prop} {s : Text}

mutual

/-- A property of the numbers spelled in a text is one of the numbers of a tree in it. -/
theorem allNums_within (h : ∀ n : NumText, n.Ok → n.text <:+: s → P n) : ∀ v : Value, v.Ok →
    v.text <:+: s → v.AllNums P
  | .word _, _, _ => trivial
  | .num n, hok, hs => h n hok hs
  | .str _, _, _ => trivial
  | .emptyArr _, _, _ => trivial
  | .arr es, hok, hs => allNums_elems_within h es hok
      (List.IsInfix.trans ⟨['['], [']'], by simp [Value.text]⟩ hs)
  | .emptyObj _, _, _ => trivial
  | .obj fs, hok, hs => allNums_fields_within h fs hok
      (List.IsInfix.trans ⟨['{'], ['}'], by simp [Value.text]⟩ hs)

/-- `allNums_within` for elements. -/
theorem allNums_elems_within (h : ∀ n : NumText, n.Ok → n.text <:+: s → P n) : ∀ es : Elems,
    es.Ok → es.text <:+: s → es.AllNums P
  | .last before v after, ⟨_, hv, _⟩, hs => allNums_within h v hv
      (List.IsInfix.trans ⟨before, after, rfl⟩ hs)
  | .more before v after es, ⟨⟨_, hv, _⟩, hes⟩, hs =>
      ⟨allNums_within h v hv (List.IsInfix.trans
          ⟨before, after ++ ',' :: es.text, by simp [Elems.text]⟩ hs),
        allNums_elems_within h es hes (List.IsInfix.trans
          ⟨before ++ v.text ++ after ++ [','], [], by simp [Elems.text]⟩ hs)⟩

/-- `allNums_within` for fields. -/
theorem allNums_fields_within (h : ∀ n : NumText, n.Ok → n.text <:+: s → P n) : ∀ fs : Fields,
    fs.Ok → fs.text <:+: s → fs.AllNums P
  | .last before key colon between v after, ⟨_, _, _, _, hv, _⟩, hs => allNums_within h v hv
      (List.IsInfix.trans
        ⟨before ++ quoted key ++ colon ++ ':' :: between, after, by simp [Fields.text]⟩ hs)
  | .more before key colon between v after fs, ⟨⟨_, _, _, _, hv, _⟩, hfs⟩, hs =>
      ⟨allNums_within h v hv (List.IsInfix.trans
          ⟨before ++ quoted key ++ colon ++ ':' :: between, after ++ ',' :: fs.text,
            by simp [Fields.text]⟩ hs),
        allNums_fields_within h fs hfs (List.IsInfix.trans
          ⟨before ++ quoted key ++ colon ++ ':' :: between ++ v.text ++ after ++ [','], [],
            by simp [Fields.text]⟩ hs)⟩

end

end Infix

/-! ## What a text stands for -/

/-- What strings and numbers stand for. -/
structure Sense (S N : Type*) where
  chars : List ℕ → S
  num : NumText → N
  nan : N
  infinity : N
  negInfinity : N

/-- The value of a word. -/
def Sense.word {S N : Type*} (D : Sense S N) : Word → Json S N
  | .null => .null
  | .true => .bool true
  | .false => .bool false
  | .nan => .num D.nan
  | .infinity => .num D.infinity
  | .negInfinity => .num D.negInfinity

section Doc

variable {S N : Type*} [DecidableEq S] (D : Sense S N)

/-- The string some pieces stand for. -/
def Sense.str (ps : List Piece) : S :=
  D.chars (codePoints ps)

mutual

/-- The value a tree stands for. -/
def Value.doc : Value → Json S N
  | .word w => D.word w
  | .num n => .num (D.num n)
  | .str ps => .str (D.str ps)
  | .emptyArr _ => .arr []
  | .arr es => .arr es.docs
  | .emptyObj _ => .obj []
  | .obj fs => .obj (fs.docs [])

/-- The values of the elements. -/
def Elems.docs : Elems → List (Json S N)
  | .last _ v _ => [v.doc]
  | .more _ v _ es => v.doc :: es.docs

/-- The fields, set one after the other in an object. -/
def Fields.docs : Fields → List (S × Json S N) → List (S × Json S N)
  | .last _ key _ _ v _, d => Json.insert d (D.str key) v.doc
  | .more _ key _ _ v _ fs, d => fs.docs (Json.insert d (D.str key) v.doc)

end

/-- The keys and values of the fields as they stand. -/
def Fields.pairs : Fields → List (S × Json S N)
  | .last _ key _ _ v _ => [(D.str key, v.doc D)]
  | .more _ key _ _ v _ fs => (D.str key, v.doc D) :: fs.pairs

theorem docs_eq_foldl : ∀ (fs : Fields) (d : List (S × Json S N)),
    fs.docs D d = (fs.pairs D).foldl (fun m e => Keyed.put Prod.fst e m) d
  | .last before key colon between v after, d => by
    rw [Fields.docs, Json.insert_eq_put]
    rfl
  | .more before key colon between v after fs, d => by
    rw [Fields.docs, Json.insert_eq_put, docs_eq_foldl fs]
    rfl

/-- An object is the table of its fields : a later field takes the place of an earlier one of
its key. -/
theorem docs_eq_collect (fs : Fields) :
    fs.docs D [] = Keyed.collect Prod.fst (fs.pairs D) :=
  docs_eq_foldl D fs []

end Doc

section Via

variable {S S' N : Type*} [DecidableEq S] [DecidableEq S'] {g : S → S'} {D : Sense S N}
  {D' : Sense S' N}

/-- One sense is another with its strings changed, on strings without half of a pair alone. -/
structure Sense.Via (g : S → S') (D : Sense S N) (D' : Sense S' N) : Prop where
  str : ∀ ps, PiecesOk ps → JsonSyntax.unpaired ps = false → D'.str ps = g (D.str ps)
  num : ∀ n, D'.num n = D.num n
  word : ∀ w, D'.word w = (D.word w).mapStr g

mutual

/-- The values of a tree in two such senses. -/
theorem doc_via (hD : Sense.Via g D D') (hg : Function.Injective g) : ∀ v : Value, v.Ok →
    v.unpaired = false → v.doc D' = (v.doc D).mapStr g
  | .word w, _, _ => hD.word w
  | .num n, _, _ => by
    rw [Value.doc, Value.doc, Json.mapStr, hD.num]
  | .str ps, hok, hu => by
    rw [Value.doc, Value.doc, Json.mapStr, hD.str ps hok hu]
  | .emptyArr _, _, _ => rfl
  | .arr es, hok, hu => by
    rw [Value.doc, Value.doc, Json.mapStr, docs_elems_via hD hg es hok hu]
  | .emptyObj _, _, _ => rfl
  | .obj fs, hok, hu => by
    rw [Value.doc, Value.doc, Json.mapStr, ← docs_fields_via hD hg fs hok hu]
    rfl

/-- `doc_via` for elements. -/
theorem docs_elems_via (hD : Sense.Via g D D') (hg : Function.Injective g) : ∀ es : Elems, es.Ok →
    es.unpaired = false → es.docs D' = Json.mapStrElems g (es.docs D)
  | .last _ v _, ⟨_, hv, _⟩, hu => by
    rw [Elems.docs, Elems.docs, doc_via hD hg v hv hu]
    rfl
  | .more _ v _ es, ⟨⟨_, hv, _⟩, hes⟩, hu => by
    obtain ⟨huv, hues⟩ := Bool.or_eq_false_iff.1 hu
    rw [Elems.docs, Elems.docs, Json.mapStrElems, doc_via hD hg v hv huv,
      docs_elems_via hD hg es hes hues]

/-- `doc_via` for fields. -/
theorem docs_fields_via (hD : Sense.Via g D D') (hg : Function.Injective g) :
    ∀ fs : Fields, fs.Ok → fs.unpaired = false → ∀ {d : List (S × Json S N)},
      fs.docs D' (Json.mapStrFields g d) = Json.mapStrFields g (fs.docs D d)
  | .last _ key _ _ v _, ⟨_, hk, _, _, hv, _⟩, hu, d => by
    obtain ⟨huk, huv⟩ := Bool.or_eq_false_iff.1 hu
    rw [Fields.docs, Fields.docs, Json.mapStrFields_insert hg, doc_via hD hg v hv huv,
      hD.str key hk huk]
  | .more _ key _ _ v _ fs, ⟨⟨_, hk, _, _, hv, _⟩, hfs⟩, hu, d => by
    obtain ⟨hu, hufs⟩ := Bool.or_eq_false_iff.1 hu
    obtain ⟨huk, huv⟩ := Bool.or_eq_false_iff.1 hu
    rw [Fields.docs, Fields.docs, doc_via hD hg v hv huv, hD.str key hk huk,
      ← Json.mapStrFields_insert hg, docs_fields_via hD hg fs hfs hufs]

end

end Via

/-! ## How deep the brackets of a text nest -/

/-- Where a text is : outside strings, in one, or after a backslash in one. -/
inductive Mode where
  | out | str | esc
  deriving DecidableEq

/-- The deepest level the brackets outside strings open, from the level `d` on. -/
def deepest : Mode → ℕ → Text → ℕ
  | _, _, [] => 0
  | .out, d, c :: s =>
    if c = '"' then deepest .str d s
    else if c = '[' ∨ c = '{' then max (d + 1) (deepest .out (d + 1) s)
    else if c = ']' ∨ c = '}' then deepest .out (d - 1) s
    else deepest .out d s
  | .str, d, c :: s =>
    if c = '"' then deepest .out d s
    else if c = '\\' then deepest .esc d s
    else deepest .str d s
  | .esc, d, _ :: s => deepest .str d s

/-- How deep the brackets of a text nest. -/
def nesting (s : Text) : ℕ :=
  deepest .out 0 s

/-- The beginning of a text nests no deeper. -/
theorem deepest_append_le (m : Mode) (d : ℕ) (p s : Text) :
    deepest m d p ≤ deepest m d (p ++ s) := by
  induction p generalizing m d with
  | nil => simp [deepest]
  | cons c p ih =>
    cases m with
    | out =>
      rw [List.cons_append, deepest, deepest]
      split_ifs
      · exact ih _ _
      · exact max_le_max le_rfl (ih _ _)
      · exact ih _ _
      · exact ih _ _
    | str =>
      rw [List.cons_append, deepest, deepest]
      split_ifs <;> exact ih _ _
    | esc => exact ih _ _

/-- The level some brackets reach from the level `d` on : none when there are none. -/
def levels (d n : ℕ) : ℕ :=
  if n = 0 then 0 else d + n

theorem levels_max (d a b : ℕ) : levels d (max a b) = max (levels d a) (levels d b) := by
  unfold levels
  split_ifs <;> omega

theorem levels_succ (d n : ℕ) : levels d (n + 1) = max (d + 1) (levels (d + 1) n) := by
  rw [levels, levels, if_neg (Nat.succ_ne_zero n)]
  split_ifs <;> omega

/-- A character that is no quote and no bracket. -/
def Quiet (c : Char) : Prop :=
  c ≠ '"' ∧ c ≠ '[' ∧ c ≠ '{' ∧ c ≠ ']' ∧ c ≠ '}'

theorem deepest_quiet {c : Char} (h : Quiet c) (d : ℕ) (s : Text) :
    deepest .out d (c :: s) = deepest .out d s := by
  obtain ⟨h1, h2, h3, h4, h5⟩ := h
  rw [deepest, if_neg h1, if_neg (by tauto), if_neg (by tauto)]

theorem deepest_quiets {p : Text} (h : ∀ c ∈ p, Quiet c) (d : ℕ) (s : Text) :
    deepest .out d (p ++ s) = deepest .out d s := by
  induction p with
  | nil => rfl
  | cons c p ih =>
    rw [List.cons_append, deepest_quiet (h c List.mem_cons_self),
      ih fun x hx => h x (List.mem_cons_of_mem _ hx)]

instance (c : Char) : Decidable (Quiet c) :=
  inferInstanceAs (Decidable (c ≠ '"' ∧ c ≠ '[' ∧ c ≠ '{' ∧ c ≠ ']' ∧ c ≠ '}'))

theorem quiet_of_isWs {c : Char} (h : isWs c = true) : Quiet c := by
  simp only [isWs, Bool.or_eq_true, decide_eq_true_eq] at h
  rcases h with ((rfl | rfl) | rfl) | rfl <;> decide

theorem quiet_of_isDigit {c : Char} (h : c.isDigit = true) : Quiet c := by
  refine ⟨?_, ?_, ?_, ?_, ?_⟩ <;>
  · rintro rfl
    exact absurd h (by decide)

theorem Space.quiet {s : Text} (h : Space s) : ∀ c ∈ s, Quiet c :=
  fun c hc => quiet_of_isWs (h c hc)

theorem Word.quiet (w : Word) : ∀ c ∈ w.text, Quiet c := by
  cases w <;> simp [Word.text, Quiet]

theorem NumText.Ok.digits {n : NumText} (h : n.Ok) : ∀ c ∈ n.int, c.isDigit = true := by
  rcases h.int with hz | ⟨c, ds, heq, hc, hds⟩
  · rw [hz]
    intro x hx
    rw [List.mem_singleton.1 hx]
    rfl
  · rw [heq]
    intro x hx
    rcases List.mem_cons.1 hx with rfl | hx
    · have hzero : ('0' : Char) ≤ '1' := by decide
      simp only [Char.isDigit, ge_iff_le, Bool.and_eq_true, decide_eq_true_eq]
      exact ⟨UInt32.le_trans hzero hc.1, hc.2⟩
    · exact hds x hx

theorem NumText.Ok.quiet {n : NumText} (h : n.Ok) : ∀ c ∈ n.text, Quiet c := by
  intro c hc
  simp only [NumText.text, List.mem_append] at hc
  rcases hc with ((hc | hc) | hc) | hc
  · rw [NumText.signText] at hc
    split_ifs at hc
    · rw [List.mem_singleton.1 hc]
      decide
    · cases hc
  · exact quiet_of_isDigit (h.digits c hc)
  · rcases hf : n.frac with _ | ds
    · simp [NumText.fracText, fracSpelling, hf] at hc
    · rw [NumText.fracText, hf, fracSpelling] at hc
      rcases List.mem_cons.1 hc with rfl | hc
      · decide
      · exact quiet_of_isDigit ((h.frac ds hf).2 c hc)
  · rcases he : n.exp with _ | ⟨e, sign, ds⟩
    · simp [NumText.expText, expSpelling, he] at hc
    · obtain ⟨hletter, hsign, -, hds⟩ := h.exp _ he
      rw [NumText.expText, he, expSpelling] at hc
      rcases List.mem_cons.1 hc with rfl | hc
      · rcases hletter with rfl | rfl <;> decide
      · rcases List.mem_append.1 hc with hc | hc
        · rcases hsign with heq | heq | heq <;> rw [show sign = _ from heq] at hc
          · cases hc
          · rw [List.mem_singleton.1 hc]
            decide
          · rw [List.mem_singleton.1 hc]
            decide
        · exact quiet_of_isDigit (hds c hc)

theorem hexDigit_ne {c : Char} (h : (hexDigit c).isSome) : c ≠ '"' ∧ c ≠ '\\' := by
  refine ⟨?_, ?_⟩ <;>
  · rintro rfl
    exact absurd h (by decide)

theorem hex4_isSome {a b c d : Char} (h : (hex4 a b c d).isSome) :
    (hexDigit a).isSome ∧ (hexDigit b).isSome ∧ (hexDigit c).isSome ∧ (hexDigit d).isSome := by
  cases ha : hexDigit a <;> cases hb : hexDigit b <;> cases hc : hexDigit c <;>
    cases hd : hexDigit d <;> simp_all [hex4]

theorem deepest_str {c : Char} (h1 : c ≠ '"') (h2 : c ≠ '\\') (d : ℕ) (s : Text) :
    deepest .str d (c :: s) = deepest .str d s := by
  rw [deepest, if_neg h1, if_neg h2]

theorem deepest_piece {p : Piece} (h : p.Ok) (d : ℕ) (s : Text) :
    deepest .str d (p.text ++ s) = deepest .str d s := by
  cases p with
  | plain c => exact deepest_str h.1 h.2.1 d s
  | short e => rfl
  | code a b x y =>
    obtain ⟨ha, hb, hx, hy⟩ := hex4_isSome h
    have hu : deepest .str d ((Piece.code a b x y).text ++ s) =
        deepest .str d (a :: b :: x :: y :: s) := rfl
    rw [hu, deepest_str (hexDigit_ne ha).1 (hexDigit_ne ha).2,
      deepest_str (hexDigit_ne hb).1 (hexDigit_ne hb).2,
      deepest_str (hexDigit_ne hx).1 (hexDigit_ne hx).2,
      deepest_str (hexDigit_ne hy).1 (hexDigit_ne hy).2]

/-- The brackets in a string do not count. -/
theorem deepest_quoted {ps : List Piece} (h : PiecesOk ps) (d : ℕ) (s : Text) :
    deepest .out d (quoted ps ++ s) = deepest .out d s := by
  have hin : ∀ (qs : List Piece), PiecesOk qs →
      deepest .str d (piecesText qs ++ '"' :: s) = deepest .out d s := by
    intro qs hqs
    induction qs with
    | nil => rfl
    | cons q qs ih =>
      have htext : piecesText (q :: qs) ++ '"' :: s =
          q.text ++ (piecesText qs ++ '"' :: s) := by simp [piecesText]
      rw [htext, deepest_piece (hqs q List.mem_cons_self),
        ih fun p hp => hqs p (List.mem_cons_of_mem _ hp)]
  have hopen : deepest .out d (quoted ps ++ s) =
      deepest .str d (piecesText ps ++ '"' :: s) := by
    simp [quoted, deepest]
  rw [hopen, hin ps h]

theorem deepest_open {c : Char} (h : c = '[' ∨ c = '{') (d : ℕ) (s : Text) :
    deepest .out d (c :: s) = max (d + 1) (deepest .out (d + 1) s) := by
  rw [deepest, if_neg (by rcases h with rfl | rfl <;> decide), if_pos h]

theorem deepest_close {c : Char} (h : c = ']' ∨ c = '}') (d : ℕ) (s : Text) :
    deepest .out (d + 1) (c :: s) = deepest .out d s := by
  rw [deepest, if_neg (by rcases h with rfl | rfl <;> decide),
    if_neg (by rcases h with rfl | rfl <;> decide), if_pos h, Nat.add_sub_cancel]

mutual

/-- The brackets of a tree nest as deep as the tree, and what follows is at the same level. -/
theorem deepest_text : ∀ (v : Value), v.Ok → ∀ (d : ℕ) (s : Text),
    deepest .out d (v.text ++ s) = max (levels d v.depth) (deepest .out d s)
  | .word w, _, d, s => by
    rw [Value.text, deepest_quiets w.quiet]
    simp [Value.depth, levels]
  | .num n, h, d, s => by
    rw [Value.text, deepest_quiets (NumText.Ok.quiet h)]
    simp [Value.depth, levels]
  | .str ps, h, d, s => by
    rw [Value.text, deepest_quoted h]
    simp [Value.depth, levels]
  | .emptyArr space, h, d, s => by
    have htext : (Value.emptyArr space).text ++ s = '[' :: (space ++ ']' :: s) := by
      simp [Value.text]
    rw [htext, deepest_open (.inl rfl), deepest_quiets (Space.quiet h), deepest_close (.inl rfl),
      Value.depth, levels_succ]
    simp [levels]
  | .emptyObj space, h, d, s => by
    have htext : (Value.emptyObj space).text ++ s = '{' :: (space ++ '}' :: s) := by
      simp [Value.text]
    rw [htext, deepest_open (.inr rfl), deepest_quiets (Space.quiet h), deepest_close (.inr rfl),
      Value.depth, levels_succ]
    simp [levels]
  | .arr es, h, d, s => by
    have htext : (Value.arr es).text ++ s = '[' :: (es.text ++ ']' :: s) := by simp [Value.text]
    rw [htext, deepest_open (.inl rfl), deepest_elems es h, deepest_close (.inl rfl),
      Value.depth, levels_succ, max_assoc]
  | .obj fs, h, d, s => by
    have htext : (Value.obj fs).text ++ s = '{' :: (fs.text ++ '}' :: s) := by simp [Value.text]
    rw [htext, deepest_open (.inr rfl), deepest_fields fs h, deepest_close (.inr rfl),
      Value.depth, levels_succ, max_assoc]

/-- `deepest_text` for elements. -/
theorem deepest_elems : ∀ (es : Elems), es.Ok → ∀ (d : ℕ) (s : Text),
    deepest .out d (es.text ++ s) = max (levels d es.depth) (deepest .out d s)
  | .last before v after, ⟨hb, hv, ha⟩, d, s => by
    have htext : (Elems.last before v after).text ++ s = before ++ (v.text ++ (after ++ s)) := by
      simp [Elems.text]
    rw [htext, deepest_quiets hb.quiet, deepest_text v hv, deepest_quiets ha.quiet, Elems.depth]
  | .more before v after es, ⟨⟨hb, hv, ha⟩, hes⟩, d, s => by
    have htext : (Elems.more before v after es).text ++ s =
        before ++ (v.text ++ (after ++ ',' :: (es.text ++ s))) := by simp [Elems.text]
    rw [htext, deepest_quiets hb.quiet, deepest_text v hv, deepest_quiets ha.quiet,
      deepest_quiet (by decide), deepest_elems es hes, Elems.depth, levels_max, max_assoc]

/-- `deepest_text` for fields. -/
theorem deepest_fields : ∀ (fs : Fields), fs.Ok → ∀ (d : ℕ) (s : Text),
    deepest .out d (fs.text ++ s) = max (levels d fs.depth) (deepest .out d s)
  | .last before key colon between v after, ⟨hb, hk, hc, hm, hv, ha⟩, d, s => by
    have htext : (Fields.last before key colon between v after).text ++ s =
        before ++ (quoted key ++ (colon ++ ':' :: (between ++ (v.text ++ (after ++ s))))) := by
      simp [Fields.text]
    rw [htext, deepest_quiets hb.quiet, deepest_quoted hk, deepest_quiets hc.quiet,
      deepest_quiet (by decide), deepest_quiets hm.quiet, deepest_text v hv,
      deepest_quiets ha.quiet, Fields.depth]
  | .more before key colon between v after fs, ⟨⟨hb, hk, hc, hm, hv, ha⟩, hfs⟩, d, s => by
    have htext : (Fields.more before key colon between v after fs).text ++ s =
        before ++ (quoted key ++ (colon ++ ':' :: (between ++ (v.text ++
          (after ++ ',' :: (fs.text ++ s)))))) := by
      simp [Fields.text]
    rw [htext, deepest_quiets hb.quiet, deepest_quoted hk, deepest_quiets hc.quiet,
      deepest_quiet (by decide), deepest_quiets hm.quiet, deepest_text v hv,
      deepest_quiets ha.quiet, deepest_quiet (by decide), deepest_fields fs hfs, Fields.depth,
      levels_max, max_assoc]

end

end EngineConsole.JsonSyntax
