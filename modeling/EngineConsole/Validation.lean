import EngineConsole.JsonText

/-!
# Validation of requests

The schema language of the API (`api/validate.rs`) : types `T`, models, and the lax coercions of a
JSON value (`check`). What a check finds wrong is a list of issues, each at its place.

A value that passes is coerced to one that conforms to its type (`Conforms`), and is not changed
by another check (`check_sound`), where no text of it is read as an infinite number or none, and
the type is in order (`InOrder`) : the names of a model differ, its defaults conform, and no member
of a union changes what conforms to a later one. `check_unsound` has an input for each of these.

A float is a rational number, and the keys of an object differ.
-/

set_option linter.unusedSectionVars false

namespace EngineConsole

namespace Validate

/-! ## Values and types -/

/-- A number of a JSON text : an integer or a float. -/
inductive Number where
  | int (n : ℤ)
  | float (q : ℚ)
deriving DecidableEq

/-- A JSON value. -/
abbrev Value := Json String Number

/-- The fields of an object. -/
abbrev Object := List (String × Value)

/-- One step to a place in a value. -/
inductive Step where
  | key (name : String)
  | index (n : ℕ)
deriving DecidableEq

/-- `Issue` -/
structure Issue where
  loc : List Step
  msg : String
  typ : String
deriving DecidableEq

mutual

/-- `T` : the type of a field. -/
inductive T where
  | str (min max : Option ℕ) (pattern : Option String)
  | int (ge le : Option ℤ)
  | float
  | bool
  | any
  | anyDict
  | dict (inner : T)
  | list (inner : T)
  | opt (inner : T)
  | literal (choices : List String)
  | model (m : Model)
  | after (inner : T) (f : String → Except String Unit)
  | union (members : List (String × T))

/-- `Field` : a field without a default is required. -/
inductive Field where
  | mk (name : String) (t : T) (default : Option Value)

/-- `Model` : `after` is the check of the whole object. -/
inductive Model where
  | mk (name : String) (fields : List Field) (after : Option (Object → Except String Unit))

end

/-- What the code takes from outside : the expressions, and how numbers are rounded. -/
structure Outside where
  /-- `Regex::is_match` -/
  isMatch : String → String → Bool
  /-- an integer as a float -/
  ofInt : ℤ → ℚ
  /-- the float next to a number, none beyond the largest -/
  round : ℚ → Option ℚ

/-! ## Numbers in texts -/

/-- `char::is_whitespace` -/
def isWhitespace (c : Char) : Bool :=
  let n := c.toNat
  (9 ≤ n && n ≤ 13) || n == 0x20 || n == 0x85 || n == 0xa0 || n == 0x1680 ||
    (0x2000 ≤ n && n ≤ 0x200a) || n == 0x2028 || n == 0x2029 || n == 0x202f || n == 0x205f ||
    n == 0x3000

/-- `trim` -/
def trim (s : List Char) : List Char :=
  (s.dropWhile isWhitespace).rdropWhile isWhitespace

/-- The value of decimal digits. -/
def digitsValue (ds : List Char) : ℕ :=
  ds.foldl (fun n c => 10 * n + (c.toNat - 48)) 0

/-- `underscored_digits` -/
def underscoredDigits (d : List Char) : Bool :=
  d ≠ [] && d.all (fun c => c.isDigit || c == '_') && d.head? ≠ some '_' &&
    d.getLast? ≠ some '_' && (d.zip d.tail).all fun p => p ≠ ('_', '_')

/-- `parse_int_str` : an integer of `i64`, without the least. -/
def parseIntStr (t : List Char) : Option ℤ :=
  let (neg, digits) :=
    match t with
    | '-' :: r => (true, r)
    | '+' :: r => (false, r)
    | t => (false, t)
  if underscoredDigits digits then
    let n := digitsValue (digits.filter (· ≠ '_'))
    if n < 2 ^ 63 then some (if neg then -(n : ℤ) else n) else none
  else none

/-- The exponent of a decimal number. -/
def readExponent (s : List Char) : Option ℤ :=
  match s with
  | [] => some 0
  | e :: s =>
    if e = 'e' ∨ e = 'E' then
      let (neg, ds) :=
        match s with
        | '-' :: r => (true, r)
        | '+' :: r => (false, r)
        | s => (false, s)
      if ds ≠ [] ∧ ds.all Char.isDigit then
        some (if neg then -(digitsValue ds : ℤ) else digitsValue ds)
      else none
    else none

/-- `parse::<f64>` of a text of digits, signs, points and the letter e, before it is rounded. -/
def readDecimal (s : List Char) : Option ℚ :=
  let (neg, s) :=
    match s with
    | '-' :: r => (true, r)
    | '+' :: r => (false, r)
    | s => (false, s)
  let whole := s.takeWhile Char.isDigit
  let rest := s.dropWhile Char.isDigit
  let (frac, rest) :=
    match rest with
    | '.' :: r => (r.takeWhile Char.isDigit, r.dropWhile Char.isDigit)
    | r => ([], r)
  if whole = [] ∧ frac = [] then none
  else
    (readExponent rest).map fun (e : ℤ) =>
      (if neg then -1 else 1) * (digitsValue (whole ++ frac) : ℚ) *
        (10 : ℚ) ^ (e - (frac.length : ℤ))

/-- A float, or one of the numbers that are none of JSON. -/
inductive Float where
  | finite (q : ℚ)
  | other
deriving DecidableEq

/-- Underscores stand between digits. -/
def underscoresOk (t : List Char) : Bool :=
  (List.range t.length).all fun i =>
    t[i]? ≠ some '_' || (0 < i && (t[i - 1]?.any Char.isDigit) && (t[i + 1]?.any Char.isDigit))

/-- What `coerce_float` reads of a text. -/
def readFloat (out : Outside) (s : String) : Option Float :=
  let t := trim s.toList
  let lower := t.map Char.toLower
  if ["inf".toList, "+inf".toList, "infinity".toList, "+infinity".toList, "-inf".toList,
      "-infinity".toList, "nan".toList, "+nan".toList, "-nan".toList].contains lower then
    some .other
  else if underscoresOk t && t.all fun c => c.isDigit || "+-.eE_".toList.contains c then
    (readDecimal (t.filter (· ≠ '_'))).map fun q =>
      match out.round q with
      | some r => .finite r
      | none => .other
  else none

/-! ## Coercions -/

/-- A value, or what is wrong. -/
abbrev Coerced (α : Type) := Except Issue α

/-- `coerce_int` -/
def coerceInt (out : Outside) (v : Value) (loc : List Step) : Coerced ℤ :=
  let ofFloat (f : ℚ) : Coerced ℤ :=
    if f.den = 1 then
      if |f| < 9200000000000000000 then .ok f.num
      else .error ⟨loc, "Unable to parse input string as an integer, exceeded maximum size",
        "int_parsing_size"⟩
    else .error ⟨loc, "Input should be a valid integer, got a number with a fractional part",
      "int_from_float"⟩
  match v with
  | .bool b => .ok (if b then 1 else 0)
  | .num (.int n) => if -2 ^ 63 ≤ n ∧ n < 2 ^ 63 then .ok n else ofFloat (out.ofInt n)
  | .num (.float f) => ofFloat f
  | .str s =>
    let t := trim s.toList
    let intPart := t.takeWhile (· ≠ '.')
    let fracOk :=
      match t.dropWhile (· ≠ '.') with
      | _ :: frac => frac ≠ [] && frac.all (· == '0')
      | [] => true
    match parseIntStr intPart with
    | some i =>
      if fracOk then .ok i
      else .error ⟨loc, "Input should be a valid integer, unable to parse string as an integer",
        "int_parsing"⟩
    | none => .error ⟨loc, "Input should be a valid integer, unable to parse string as an integer",
        "int_parsing"⟩
  | _ => .error ⟨loc, "Input should be a valid integer", "int_type"⟩

/-- `coerce_float` -/
def coerceFloat (out : Outside) (v : Value) (loc : List Step) : Coerced Float :=
  match v with
  | .bool b => .ok (.finite (if b then 1 else 0))
  | .num (.int n) => .ok (.finite (out.ofInt n))
  | .num (.float f) => .ok (.finite f)
  | .str s =>
    match readFloat out s with
    | some f => .ok f
    | none => .error ⟨loc, "Input should be a valid number, unable to parse string as a number",
        "float_parsing"⟩
  | _ => .error ⟨loc, "Input should be a valid number", "float_type"⟩

/-- `parse_bool_str` -/
def parseBoolStr (s : String) : Option Bool :=
  let lower := String.ofList (s.toList.map Char.toLower)
  if lower ∈ ["0", "off", "f", "false", "n", "no"] then some false
  else if lower ∈ ["1", "on", "t", "true", "y", "yes"] then some true
  else none

/-- `coerce_bool` -/
def coerceBool (out : Outside) (v : Value) (loc : List Step) : Coerced Bool :=
  let parsing : Coerced Bool :=
    .error ⟨loc, "Input should be a valid boolean, unable to interpret input", "bool_parsing"⟩
  let typ : Coerced Bool := .error ⟨loc, "Input should be a valid boolean", "bool_type"⟩
  let ofFloat (f : ℚ) (isU64 : Bool) : Coerced Bool :=
    if f = 0 then .ok false
    else if f = 1 then .ok true
    else if f.den = 1 ∧ |f| < 9200000000000000000 ∧ !isU64 then parsing
    else typ
  match v with
  | .bool b => .ok b
  | .num (.int n) =>
    if -2 ^ 63 ≤ n ∧ n < 2 ^ 63 then
      if n = 0 then .ok false else if n = 1 then .ok true else parsing
    else ofFloat (out.ofInt n) (0 ≤ n)
  | .num (.float f) => ofFloat f false
  | .str s =>
    match parseBoolStr s with
    | some b => .ok b
    | none => parsing
  | _ => typ

/-! ## The check -/

/-- `plural` -/
def plural (n : ℕ) (word : String) : String :=
  s!"{n} {word}" ++ if n = 1 then "" else "s"

/-- `literal_list` -/
def literalList (choices : List String) : String :=
  let quoted := choices.map fun c => "'" ++ c ++ "'"
  match quoted with
  | [] => ""
  | [q] => q
  | _ => ", ".intercalate quoted.dropLast ++ " or " ++ quoted.getLast?.getD ""

/-- A value, or nothing where something is wrong. -/
def ofCoerced {α : Type} (f : α → Value) : Coerced α → Value × List Issue
  | .ok a => (f a, [])
  | .error e => (.null, [e])

/-- Nothing, and what is wrong. -/
def wrong (loc : List Step) (msg typ : String) : Value × List Issue :=
  (.null, [⟨loc, msg, typ⟩])

/-- `check` of a text. -/
def checkStr (out : Outside) (min max : Option ℕ) (pattern : Option String) (v : Value)
    (loc : List Step) : Value × List Issue :=
  match v with
  | .str s =>
    if min.any fun m => s.length < m then
      wrong loc ("String should have at least " ++ plural (min.getD 0) "character")
        "string_too_short"
    else if max.any fun m => m < s.length then
      wrong loc ("String should have at most " ++ plural (max.getD 0) "character")
        "string_too_long"
    else if pattern.any fun p => !out.isMatch p s then
      wrong loc ("String should match pattern '" ++ pattern.getD "" ++ "'")
        "string_pattern_mismatch"
    else (v, [])
  | _ => wrong loc "Input should be a valid string" "string_type"

/-- `check` of an integer. -/
def checkInt (out : Outside) (ge le : Option ℤ) (v : Value) (loc : List Step) :
    Value × List Issue :=
  match coerceInt out v loc with
  | .error e => (.null, [e])
  | .ok i =>
    if ge.any fun g => i < g then
      wrong loc s!"Input should be greater than or equal to {ge.getD 0}" "greater_than_equal"
    else if le.any fun l => l < i then
      wrong loc s!"Input should be less than or equal to {le.getD 0}" "less_than_equal"
    else (.num (.int i), [])

/-- `Number::from_f64`, where a number that is none of JSON gives null. -/
def ofFloat : Float → Value
  | .finite q => .num (.float q)
  | .other => .null

/-- `get` -/
def get (o : Object) (name : String) : Option Value :=
  (o.find? fun e => e.1 = name).map Prod.snd

/-- `insert` : the value of a name that is there is replaced. -/
def insert (o : Object) (name : String) (v : Value) : Object :=
  if o.any fun e => e.1 = name then o.map fun e => if e.1 = name then (name, v) else e
  else o ++ [(name, v)]

/-- The check of a whole object, when its fields have passed. -/
def checkAfter (after : Option (Object → Except String Unit)) (o : Object) (loc : List Step)
    (issues : List Issue) : Value × List Issue :=
  match after with
  | some f =>
    if issues = [] then
      match f o with
      | .error msg => (.obj o, [⟨loc, "Value error, " ++ msg, "value_error"⟩])
      | .ok () => (.obj o, [])
    else (.obj o, issues)
  | none => (.obj o, issues)

mutual

/-- `check` : the coerced value, and the issues. -/
def check (out : Outside) : T → Value → List Step → Value × List Issue
  | .any, v, _ => (v, [])
  | .opt inner, v, loc =>
    match v with
    | .null => (.null, [])
    | v => check out inner v loc
  | .str min max pattern, v, loc => checkStr out min max pattern v loc
  | .int ge le, v, loc => checkInt out ge le v loc
  | .float, v, loc => ofCoerced ofFloat (coerceFloat out v loc)
  | .bool, v, loc => ofCoerced .bool (coerceBool out v loc)
  | .literal choices, v, loc =>
    match v with
    | .str s =>
      if s ∈ choices then (v, [])
      else wrong loc ("Input should be " ++ literalList choices) "literal_error"
    | _ => wrong loc ("Input should be " ++ literalList choices) "literal_error"
  | .anyDict, v, loc =>
    match v with
    | .obj _ => (v, [])
    | _ => wrong loc "Input should be a valid dictionary" "dict_type"
  | .dict inner, v, loc =>
    match v with
    | .obj o =>
      let r := o.map fun e => (e.1, check out inner e.2 (loc ++ [.key e.1]))
      (.obj (r.map fun e => (e.1, e.2.1)), r.flatMap fun e => e.2.2)
    | _ => wrong loc "Input should be a valid dictionary" "dict_type"
  | .list inner, v, loc =>
    match v with
    | .arr a =>
      let r := a.zipIdx.map fun e => check out inner e.1 (loc ++ [.index e.2])
      (.arr (r.map Prod.fst), r.flatMap Prod.snd)
    | _ => wrong loc "Input should be a valid list" "list_type"
  | .model m, v, loc => checkModelValue out m v loc
  | .after inner f, v, loc =>
    let r := check out inner v loc
    if r.2 = [] then
      match r.1 with
      | .str s =>
        match f s with
        | .error msg => wrong loc ("Value error, " ++ msg) "value_error"
        | .ok () => (r.1, [])
      | _ => (r.1, [])
    else (.null, r.2)
  | .union members, v, loc =>
    match firstPassing out members v loc with
    | .ok v => (v, [])
    | .error issues => (.null, issues)

/-- `check` against a model. -/
def checkModelValue (out : Outside) : Model → Value → List Step → Value × List Issue
  | .mk name fields after, v, loc =>
    match v with
    | .obj o =>
      -- `check_model`
      let r := checkFields out fields o loc []
      checkAfter after r.1 loc r.2
    | _ => wrong loc ("Input should be a valid dictionary or instance of " ++ name) "model_type"

/-- The fields of a model in their order, after those that are done. -/
def checkFields (out : Outside) :
    List Field → Object → List Step → Object → Object × List Issue
  | [], _, _, done => (done, [])
  | .mk name t default :: rest, o, loc, done =>
    match get o name with
    | some v =>
      let r := check out t v (loc ++ [.key name])
      let r' := checkFields out rest o loc (insert done name r.1)
      (r'.1, r.2 ++ r'.2)
    | none =>
      match default with
      | some d => checkFields out rest o loc (insert done name d)
      | none =>
        let r' := checkFields out rest o loc done
        (r'.1, ⟨loc ++ [.key name], "Field required", "missing"⟩ :: r'.2)

/-- The first member of a union that passes, or the issues of all. -/
def firstPassing (out : Outside) :
    List (String × T) → Value → List Step → Except (List Issue) Value
  | [], _, _ => .error []
  | (name, t) :: rest, v, loc =>
    let r := check out t v (loc ++ [.key name])
    if r.2 = [] then .ok r.1
    else
      match firstPassing out rest v loc with
      | .ok v => .ok v
      | .error issues => .error (r.2 ++ issues)

end

/-! ## What conforms -/

/-- A text of the length and the pattern that are asked for. -/
def StrFits (out : Outside) (min max : Option ℕ) (pattern : Option String) (s : String) : Prop :=
  (∀ m ∈ min, m ≤ s.length) ∧ (∀ m ∈ max, s.length ≤ m) ∧ ∀ p ∈ pattern, out.isMatch p s

/-- An integer of `i64` within its bounds. -/
def IntFits (ge le : Option ℤ) (i : ℤ) : Prop :=
  (-2 ^ 63 ≤ i ∧ i < 2 ^ 63) ∧ (∀ g ∈ ge, g ≤ i) ∧ ∀ l ∈ le, i ≤ l

mutual

/-- A value that conforms to a type. -/
def Conforms (out : Outside) : T → Value → Prop
  | .any, _ => True
  | .opt inner, v => v = .null ∨ Conforms out inner v
  | .str min max pattern, v => ∃ s, v = .str s ∧ StrFits out min max pattern s
  | .int ge le, v => ∃ i, v = .num (.int i) ∧ IntFits ge le i
  | .float, v => ∃ q, v = .num (.float q)
  | .bool, v => ∃ b, v = .bool b
  | .literal choices, v => ∃ s, v = .str s ∧ s ∈ choices
  | .anyDict, v => ∃ o, v = .obj o
  | .dict inner, v => ∃ o, v = .obj o ∧ ∀ e ∈ o, Conforms out inner e.2
  | .list inner, v => ∃ a, v = .arr a ∧ ∀ x ∈ a, Conforms out inner x
  | .model m, v => ConformsModel out m v
  | .after inner f, v => Conforms out inner v ∧ ∀ s, v = .str s → f s = .ok ()
  | .union members, v => ConformsMember out members v

/-- An object of just the fields of a model, that passes the check of the whole. -/
def ConformsModel (out : Outside) : Model → Value → Prop
  | .mk _ fields after, v =>
    ∃ o, v = .obj o ∧ ConformsFields out fields o ∧ ∀ f ∈ after, f o = .ok ()

/-- The fields in their order. -/
def ConformsFields (out : Outside) : List Field → Object → Prop
  | [], o => o = []
  | .mk name t _ :: rest, o =>
    ∃ v o', o = (name, v) :: o' ∧ Conforms out t v ∧ ConformsFields out rest o'

/-- To some member of a union. -/
def ConformsMember (out : Outside) : List (String × T) → Value → Prop
  | [], _ => False
  | (_, t) :: rest, v => Conforms out t v ∨ ConformsMember out rest v

end

/-- `name` -/
def Field.name : Field → String
  | .mk name _ _ => name

mutual

/-- A type whose models and unions are in order. -/
def InOrder (out : Outside) : T → Prop
  | .dict inner | .list inner | .opt inner | .after inner _ => InOrder out inner
  | .model m => ModelInOrder out m
  | .union members => members ≠ [] ∧ MembersInOrder out members
  | .str _ _ _ | .int _ _ | .float | .bool | .any | .anyDict | .literal _ => True

/-- The names of the fields differ. -/
def ModelInOrder (out : Outside) : Model → Prop
  | .mk _ fields _ => (fields.map Field.name).Nodup ∧ FieldsInOrder out fields

/-- The defaults conform. -/
def FieldsInOrder (out : Outside) : List Field → Prop
  | [] => True
  | .mk _ t default :: rest =>
    InOrder out t ∧ (∀ d ∈ default, Conforms out t d) ∧ FieldsInOrder out rest

/-- A member refuses or leaves as it is what conforms to a later one. -/
def MembersInOrder (out : Outside) : List (String × T) → Prop
  | [] => True
  | (_, t) :: rest =>
    InOrder out t ∧
      (∀ v loc, ConformsMember out rest v → (check out t v loc).2 = [] →
        (check out t v loc).1 = v) ∧
      MembersInOrder out rest

end

mutual

/-- No text where a float is asked for is read as an infinite number or none. -/
def Finite (out : Outside) : T → Value → Prop
  | .float, v => ∀ s, v = .str s → readFloat out s ≠ some .other
  | .opt inner, v | .after inner _, v => Finite out inner v
  | .dict inner, v => ∀ o, v = .obj o → ∀ e ∈ o, Finite out inner e.2
  | .list inner, v => ∀ a, v = .arr a → ∀ x ∈ a, Finite out inner x
  | .model m, v => ModelFinite out m v
  | .union members, v => MembersFinite out members v
  | .str _ _ _, _ | .int _ _, _ | .bool, _ | .any, _ | .anyDict, _ | .literal _, _ => True

/-- Of an object. -/
def ModelFinite (out : Outside) : Model → Value → Prop
  | .mk _ fields _, v => ∀ o, v = .obj o → FieldsFinite out fields o

/-- Of the fields. -/
def FieldsFinite (out : Outside) : List Field → Object → Prop
  | [], _ => True
  | .mk name t _ :: rest, o =>
    (∀ v, get o name = some v → Finite out t v) ∧ FieldsFinite out rest o

/-- For each member of a union. -/
def MembersFinite (out : Outside) : List (String × T) → Value → Prop
  | [], _ => True
  | (_, t) :: rest, v => Finite out t v ∧ MembersFinite out rest v

end

/-! ## Scalars -/

section

variable {out : Outside} {v : Value} {loc : List Step} {i : ℤ} {q : ℚ} {s : String}

theorem ofFloat_range (hden : q.den = 1) (h : |q| < 9200000000000000000) :
    -2 ^ 63 ≤ q.num ∧ q.num < 2 ^ 63 := by
  have hq : q = (q.num : ℚ) := (Rat.den_eq_one_iff q).1 hden |>.symm
  rw [hq, abs_lt] at h
  have h₁ : (-9200000000000000000 : ℤ) < q.num := by exact_mod_cast h.1
  have h₂ : q.num < (9200000000000000000 : ℤ) := by exact_mod_cast h.2
  omega

theorem parseIntStr_range {t : List Char} (h : parseIntStr t = some i) :
    -2 ^ 63 ≤ i ∧ i < 2 ^ 63 := by
  unfold parseIntStr at h
  dsimp only at h
  split_ifs at h with hdigits hlt hneg
  · obtain rfl := Option.some.inj h
    omega
  · obtain rfl := Option.some.inj h
    omega

/-- What is read as an integer is one of `i64`. -/
theorem coerceInt_range (h : coerceInt out v loc = .ok i) : -2 ^ 63 ≤ i ∧ i < 2 ^ 63 := by
  unfold coerceInt at h
  dsimp only at h
  split at h
  · next b =>
    obtain rfl := Except.ok.inj h
    cases b <;> decide
  · split_ifs at h with hrange hden hsize
    · exact Except.ok.inj h ▸ hrange
    · exact Except.ok.inj h ▸ ofFloat_range hden hsize
  · split_ifs at h with hden hsize
    exact Except.ok.inj h ▸ ofFloat_range hden hsize
  · split at h
    · next hparse =>
      split_ifs at h
      exact Except.ok.inj h ▸ parseIntStr_range hparse
    · cases h
  · cases h

end

/-! ## Objects -/

section

variable {o o' : Object} {name : String} {v w : Value}

theorem get_append (h : ∀ e ∈ o, e.1 ≠ name) : get (o ++ (name, v) :: o') name = some v := by
  have hnone : o.find? (fun e => e.1 = name) = none := by
    rw [List.find?_eq_none]
    exact fun e he => by simpa using h e he
  rw [get, List.find?_append, hnone]
  simp

theorem insert_new (h : ∀ e ∈ o, e.1 ≠ name) : insert o name v = o ++ [(name, v)] := by
  rw [insert, if_neg]
  intro hany
  obtain ⟨e, he, hname⟩ := List.any_eq_true.1 hany
  exact h e he (by simpa using hname)

/-- A further name is none of those that are done, nor are those after it. -/
theorem names_further {fields : List Field} {f : Field}
    (hnodup : ((f :: fields).map Field.name).Nodup)
    (hnew : ∀ g ∈ f :: fields, ∀ e ∈ o, e.1 ≠ g.name) (v : Value) :
    (fields.map Field.name).Nodup ∧ ∀ g ∈ fields, ∀ e ∈ o ++ [(f.name, v)], e.1 ≠ g.name := by
  rw [List.map_cons, List.nodup_cons] at hnodup
  refine ⟨hnodup.2, fun g hg e he => ?_⟩
  rcases List.mem_append.1 he with he | he
  · exact hnew g (List.mem_cons_of_mem f hg) e he
  · rw [List.mem_singleton] at he
    subst he
    exact fun hc => hnodup.1 (List.mem_map.2 ⟨g, hg, hc.symm⟩)

end

/-! ## What conforms passes unchanged -/

section

variable (out : Outside)

theorem checkAfter_passes {after : Option (Object → Except String Unit)} {o : Object}
    (h : ∀ f ∈ after, f o = .ok ()) (loc : List Step) :
    checkAfter after o loc [] = (.obj o, []) := by
  unfold checkAfter
  split
  · next f =>
    rw [if_pos rfl, h f rfl]
  · rfl

theorem not_any {α : Type} {o : Option α} {p : α → Bool} (h : ∀ a ∈ o, p a = false) :
    ¬o.any p := by
  cases o with
  | none => simp
  | some a => simp [h a rfl]

theorem checkStr_passes {min max : Option ℕ} {pattern : Option String} {s : String}
    (h : StrFits out min max pattern s) (loc : List Step) :
    checkStr out min max pattern (.str s) loc = (.str s, []) := by
  obtain ⟨hmin, hmax, hpattern⟩ := h
  have h₁ : ¬(min.any fun m => s.length < m) :=
    not_any fun m hm => by simpa using hmin m hm
  have h₂ : ¬(max.any fun m => m < s.length) :=
    not_any fun m hm => by simpa using hmax m hm
  have h₃ : ¬(pattern.any fun p => !out.isMatch p s) :=
    not_any fun p hp => by simpa using hpattern p hp
  rw [checkStr, if_neg h₁, if_neg h₂, if_neg h₃]

theorem checkInt_passes {ge le : Option ℤ} {i : ℤ} (h : IntFits ge le i) (loc : List Step) :
    checkInt out ge le (.num (.int i)) loc = (.num (.int i), []) := by
  obtain ⟨hrange, hge, hle⟩ := h
  have hcoerce : coerceInt out (.num (.int i)) loc = .ok i := by
    rw [coerceInt]
    exact if_pos hrange
  have h₁ : ¬(ge.any fun g => i < g) :=
    not_any fun g hg => by simpa using hge g hg
  have h₂ : ¬(le.any fun l => l < i) :=
    not_any fun l hl => by simpa using hle l hl
  rw [checkInt, hcoerce]
  dsimp only
  rw [if_neg h₁, if_neg h₂]

mutual

theorem check_fixed : ∀ (t : T), InOrder out t → ∀ v loc, Conforms out t v →
    check out t v loc = (v, [])
  | .any, _, v, loc, _ => by rw [check]
  | .opt inner, ht, v, loc, h => by
    rw [Conforms] at h
    rw [InOrder] at ht
    by_cases hnull : v = .null
    · rw [hnull, check]
    · rw [check]
      · exact check_fixed inner ht v loc (h.resolve_left hnull)
      · exact hnull
  | .str min max pattern, _, v, loc, h => by
    rw [Conforms] at h
    obtain ⟨s, rfl, hs⟩ := h
    rw [check, checkStr_passes out hs]
  | .int ge le, _, v, loc, h => by
    rw [Conforms] at h
    obtain ⟨i, rfl, hi⟩ := h
    rw [check, checkInt_passes out hi]
  | .float, _, v, loc, h => by
    rw [Conforms] at h
    obtain ⟨q, rfl⟩ := h
    rw [check]
    rfl
  | .bool, _, v, loc, h => by
    rw [Conforms] at h
    obtain ⟨b, rfl⟩ := h
    rw [check]
    rfl
  | .literal choices, _, v, loc, h => by
    rw [Conforms] at h
    obtain ⟨s, rfl, hs⟩ := h
    rw [check]
    exact if_pos hs
  | .anyDict, _, v, loc, h => by
    rw [Conforms] at h
    obtain ⟨o, rfl⟩ := h
    rw [check]
  | .dict inner, ht, v, loc, h => by
    rw [Conforms] at h
    rw [InOrder] at ht
    obtain ⟨o, rfl, ho⟩ := h
    have hsame : o.map (fun e => (e.1, check out inner e.2 (loc ++ [.key e.1]))) =
        o.map fun e => (e.1, (e.2, [])) :=
      List.map_congr_left fun e he => by rw [check_fixed inner ht e.2 _ (ho e he)]
    rw [check, hsame]
    simp [Function.comp_def]
  | .list inner, ht, v, loc, h => by
    rw [Conforms] at h
    rw [InOrder] at ht
    obtain ⟨a, rfl, ha⟩ := h
    have hsame : a.zipIdx.map (fun e => check out inner e.1 (loc ++ [.index e.2])) =
        a.zipIdx.map fun e => (e.1, []) :=
      List.map_congr_left fun e he => by
        rw [check_fixed inner ht e.1 _ (ha e.1 (List.fst_mem_of_mem_zipIdx he))]
    rw [check, hsame]
    simp [Function.comp_def, List.zipIdx_map_fst]
  | .model m, ht, v, loc, h => by
    rw [Conforms] at h
    rw [InOrder] at ht
    rw [check]
    exact checkModelValue_fixed m ht v loc h
  | .after inner f, ht, v, loc, h => by
    rw [Conforms] at h
    rw [InOrder] at ht
    rw [check, check_fixed inner ht v loc h.1]
    dsimp only
    rw [if_pos rfl]
    split
    · next s =>
      rw [h.2 s rfl]
    · rfl
  | .union members, ht, v, loc, h => by
    rw [Conforms] at h
    rw [InOrder] at ht
    rw [check, firstPassing_fixed members ht.2 v loc h]

theorem checkModelValue_fixed : ∀ (m : Model), ModelInOrder out m → ∀ v loc,
    ConformsModel out m v → checkModelValue out m v loc = (v, [])
  | .mk name fields after, hm, v, loc, h => by
    rw [ConformsModel] at h
    rw [ModelInOrder] at hm
    obtain ⟨o, rfl, ho, hafter⟩ := h
    have hfields := checkFields_fixed fields hm.2 hm.1 [] o (by simp) loc ho
    rw [List.nil_append] at hfields
    rw [checkModelValue, hfields, checkAfter_passes hafter]

theorem checkFields_fixed : ∀ (fields : List Field), FieldsInOrder out fields →
    (fields.map Field.name).Nodup → ∀ done o : Object,
      (∀ f ∈ fields, ∀ e ∈ done, e.1 ≠ f.name) → ∀ loc, ConformsFields out fields o →
        checkFields out fields (done ++ o) loc done = (done ++ o, [])
  | [], _, _, done, o, _, loc, h => by
    rw [ConformsFields] at h
    subst h
    rw [checkFields, List.append_nil]
  | .mk name t default :: rest, hf, hnodup, done, o, hnew, loc, h => by
    rw [ConformsFields] at h
    rw [FieldsInOrder] at hf
    obtain ⟨v, o', rfl, hv, ho'⟩ := h
    have hname : ∀ e ∈ done, e.1 ≠ name := hnew (.mk name t default) List.mem_cons_self
    obtain ⟨hnodup', hnew'⟩ := names_further hnodup hnew v
    have hrest := checkFields_fixed rest hf.2.2 hnodup' (done ++ [(name, v)]) o' hnew' loc ho'
    rw [List.append_assoc, List.singleton_append] at hrest
    rw [checkFields.eq_def]
    dsimp only
    rw [get_append hname]
    dsimp only
    rw [check_fixed t hf.1 v _ hv, insert_new hname, hrest]
    rfl

theorem firstPassing_fixed : ∀ (members : List (String × T)), MembersInOrder out members →
    ∀ v loc, ConformsMember out members v → firstPassing out members v loc = .ok v
  | [], _, v, loc, h => by
    rw [ConformsMember] at h
    exact h.elim
  | (name, t) :: rest, hm, v, loc, h => by
    rw [ConformsMember] at h
    rw [MembersInOrder] at hm
    rw [firstPassing]
    by_cases hpass : (check out t v (loc ++ [.key name])).2 = []
    · rw [if_pos hpass]
      rcases h with h | h
      · rw [check_fixed t hm.1 v _ h]
      · rw [hm.2.1 v _ h hpass]
    · rw [if_neg hpass]
      have hrest : ConformsMember out rest v := h.resolve_left fun hc =>
        hpass (by rw [check_fixed t hm.1 v _ hc])
      rw [firstPassing_fixed rest hm.2.2 v loc hrest]

end

/-! ## What passes conforms -/

theorem checkStr_conforms {min max : Option ℕ} {pattern : Option String} {v : Value}
    {loc : List Step} (h : (checkStr out min max pattern v loc).2 = []) :
    ∃ s, (checkStr out min max pattern v loc).1 = .str s ∧ StrFits out min max pattern s := by
  unfold checkStr at h ⊢
  split at h
  · next s =>
    split_ifs at h with hmin hmax hpattern
    · exact absurd h (by simp [wrong])
    · exact absurd h (by simp [wrong])
    · exact absurd h (by simp [wrong])
    · rw [if_neg hmin, if_neg hmax, if_neg hpattern]
      refine ⟨s, rfl, fun m hm => ?_, fun m hm => ?_, fun p hp => ?_⟩
      · obtain rfl := Option.mem_def.1 hm
        simpa using hmin
      · obtain rfl := Option.mem_def.1 hm
        simpa using hmax
      · obtain rfl := Option.mem_def.1 hp
        simpa using hpattern
  · exact absurd h (by simp [wrong])

theorem checkInt_conforms {ge le : Option ℤ} {v : Value} {loc : List Step}
    (h : (checkInt out ge le v loc).2 = []) :
    ∃ i, (checkInt out ge le v loc).1 = .num (.int i) ∧ IntFits ge le i := by
  unfold checkInt at h ⊢
  split at h
  · simp at h
  · next i hi =>
    split_ifs at h with hge hle
    · exact absurd h (by simp [wrong])
    · exact absurd h (by simp [wrong])
    · rw [if_neg hge, if_neg hle]
      refine ⟨i, rfl, coerceInt_range hi, fun g hg => ?_, fun l hl => ?_⟩
      · obtain rfl := Option.mem_def.1 hg
        simpa using hge
      · obtain rfl := Option.mem_def.1 hl
        simpa using hle

theorem checkAfter_conforms {after : Option (Object → Except String Unit)} {o : Object}
    {loc : List Step} {issues : List Issue} (h : (checkAfter after o loc issues).2 = []) :
    issues = [] ∧ (checkAfter after o loc issues).1 = .obj o ∧ ∀ f ∈ after, f o = .ok () := by
  unfold checkAfter at h ⊢
  split at h
  · next f =>
    split_ifs at h with hissues
    · rw [if_pos hissues]
      split at h
      · simp at h
      · next hf =>
        refine ⟨hissues, rfl, fun g hg => ?_⟩
        obtain rfl := Option.some.inj hg
        exact hf
    · exact absurd h hissues
  · exact ⟨h, rfl, nofun⟩

/-- A float is a number of JSON, unless it was read of a text. -/
theorem ofFloat_conforms {v : Value} {loc : List Step} {f : Float}
    (hf : ∀ s, v = .str s → readFloat out s ≠ some .other)
    (h : coerceFloat out v loc = .ok f) : ∃ q, ofFloat f = .num (.float q) := by
  unfold coerceFloat at h
  split at h
  · exact ⟨_, congrArg ofFloat (Except.ok.inj h).symm⟩
  · exact ⟨_, congrArg ofFloat (Except.ok.inj h).symm⟩
  · exact ⟨_, congrArg ofFloat (Except.ok.inj h).symm⟩
  · next s =>
    split at h
    · next g hread =>
      obtain rfl := Except.ok.inj h
      cases g with
      | finite q => exact ⟨q, rfl⟩
      | other => exact absurd hread (hf s rfl)
    · cases h
  · cases h

mutual

theorem check_conforms : ∀ (t : T), InOrder out t → ∀ v loc, Finite out t v →
    (check out t v loc).2 = [] → Conforms out t (check out t v loc).1
  | .any, _, v, loc, _, _ => by
    rw [Conforms]
    trivial
  | .opt inner, ht, v, loc, hfin, h => by
    rw [InOrder] at ht
    rw [Finite] at hfin
    rw [Conforms]
    by_cases hnull : v = .null
    · rw [hnull, check]
      exact .inl rfl
    · have hinner : check out (.opt inner) v loc = check out inner v loc := by
        rw [check]
        exact hnull
      rw [hinner] at h ⊢
      exact .inr (check_conforms inner ht v loc hfin h)
  | .str min max pattern, _, v, loc, _, h => by
    rw [check] at h ⊢
    rw [Conforms]
    exact checkStr_conforms out h
  | .int ge le, _, v, loc, _, h => by
    rw [check] at h ⊢
    rw [Conforms]
    exact checkInt_conforms out h
  | .float, _, v, loc, hfin, h => by
    rw [Finite] at hfin
    rw [check] at h ⊢
    rw [Conforms]
    rcases hr : coerceFloat out v loc with e | f <;> rw [hr] at h
    · simp [ofCoerced] at h
    · exact ofFloat_conforms out hfin hr
  | .bool, _, v, loc, _, h => by
    rw [check] at h ⊢
    rw [Conforms]
    rcases hr : coerceBool out v loc with e | b <;> rw [hr] at h
    · simp [ofCoerced] at h
    · exact ⟨b, rfl⟩
  | .literal choices, _, v, loc, _, h => by
    rw [Conforms]
    rw [check.eq_def] at h ⊢
    dsimp only at h ⊢
    split at h
    · next s =>
      split_ifs at h with hs
      · rw [if_pos hs]
        exact ⟨_, rfl, hs⟩
      · exact absurd h (by simp [wrong])
    · exact absurd h (by simp [wrong])
  | .anyDict, _, v, loc, _, h => by
    rw [Conforms]
    rw [check.eq_def] at h ⊢
    dsimp only at h ⊢
    split at h
    · exact ⟨_, rfl⟩
    · exact absurd h (by simp [wrong])
  | .dict inner, ht, v, loc, hfin, h => by
    rw [InOrder] at ht
    rw [Finite] at hfin
    rw [Conforms]
    rw [check.eq_def] at h ⊢
    dsimp only at h ⊢
    split at h
    · next o =>
      refine ⟨_, rfl, fun e he => ?_⟩
      rw [List.map_map, List.mem_map] at he
      obtain ⟨e, he, rfl⟩ := he
      refine check_conforms inner ht e.2 _ (hfin o rfl e he) ?_
      exact (List.flatMap_eq_nil_iff.1 h) _ (List.mem_map_of_mem he)
    · exact absurd h (by simp [wrong])
  | .list inner, ht, v, loc, hfin, h => by
    rw [InOrder] at ht
    rw [Finite] at hfin
    rw [Conforms]
    rw [check.eq_def] at h ⊢
    dsimp only at h ⊢
    split at h
    · next a =>
      refine ⟨_, rfl, fun x hx => ?_⟩
      rw [List.map_map, List.mem_map] at hx
      obtain ⟨e, he, rfl⟩ := hx
      refine check_conforms inner ht e.1 _ (hfin a rfl e.1 (List.fst_mem_of_mem_zipIdx he)) ?_
      exact (List.flatMap_eq_nil_iff.1 h) _ (List.mem_map_of_mem he)
    · exact absurd h (by simp [wrong])
  | .model m, ht, v, loc, hfin, h => by
    rw [InOrder] at ht
    rw [Finite] at hfin
    rw [check] at h ⊢
    rw [Conforms]
    exact checkModelValue_conforms m ht v loc hfin h
  | .after inner f, ht, v, loc, hfin, h => by
    rw [InOrder] at ht
    rw [Finite] at hfin
    rw [Conforms]
    rw [check] at h ⊢
    split_ifs at h ⊢ with hinner
    · have hc := check_conforms inner ht v loc hfin hinner
      split at h
      · next s hs =>
        rw [hs]
        split at h
        · exact absurd h (by simp [wrong])
        · next hf =>
          refine ⟨hs ▸ hc, fun s' hs' => ?_⟩
          obtain rfl := Json.str.inj hs'
          exact hf
      · next hs => exact ⟨hc, fun s hs' => absurd hs' (hs s)⟩
    · exact absurd h hinner
  | .union members, ht, v, loc, hfin, h => by
    rw [InOrder] at ht
    rw [Finite] at hfin
    rw [Conforms]
    rw [check] at h ⊢
    have hm := firstPassing_conforms members ht.2 v loc hfin
    rcases hr : firstPassing out members v loc with issues | w <;> rw [hr] at h hm
    · exact absurd (hm.1 issues rfl h) ht.1
    · exact hm.2 w rfl

theorem checkModelValue_conforms : ∀ (m : Model), ModelInOrder out m → ∀ v loc,
    ModelFinite out m v → (checkModelValue out m v loc).2 = [] →
      ConformsModel out m (checkModelValue out m v loc).1
  | .mk name fields after, hm, v, loc, hfin, h => by
    rw [ModelInOrder] at hm
    rw [ModelFinite] at hfin
    rw [ConformsModel]
    rw [checkModelValue.eq_def] at h ⊢
    dsimp only at h ⊢
    split at h
    · next o =>
      obtain ⟨hissues, hsame, hafter⟩ := checkAfter_conforms h
      obtain ⟨vals, hvals, hc⟩ := checkFields_conforms fields hm.2 hm.1 o [] (by simp) loc
        (hfin o rfl) hissues
      rw [hsame, hvals]
      rw [hvals] at hafter
      exact ⟨vals, rfl, hc, hafter⟩
    · exact absurd h (by simp [wrong])

theorem checkFields_conforms : ∀ (fields : List Field), FieldsInOrder out fields →
    (fields.map Field.name).Nodup → ∀ o done : Object,
      (∀ f ∈ fields, ∀ e ∈ done, e.1 ≠ f.name) → ∀ loc, FieldsFinite out fields o →
        (checkFields out fields o loc done).2 = [] →
          ∃ vals, (checkFields out fields o loc done).1 = done ++ vals ∧
            ConformsFields out fields vals
  | [], _, _, o, done, _, loc, _, _ => by
    refine ⟨[], ?_, ?_⟩
    · rw [checkFields, List.append_nil]
    · rw [ConformsFields]
  | .mk name t default :: rest, hf, hnodup, o, done, hnew, loc, hfin, h => by
    rw [FieldsInOrder] at hf
    rw [FieldsFinite] at hfin
    have hname : ∀ e ∈ done, e.1 ≠ name := hnew (.mk name t default) List.mem_cons_self
    -- with a value for this field, the rest goes on after it
    have hgo (v : Value) (hv : Conforms out t v)
        (hrest : (checkFields out rest o loc (insert done name v)).2 = []) :
        ∃ vals, (checkFields out rest o loc (insert done name v)).1 = done ++ vals ∧
          ConformsFields out (.mk name t default :: rest) vals := by
      obtain ⟨hnodup', hnew'⟩ := names_further hnodup hnew v
      rw [insert_new hname] at hrest ⊢
      obtain ⟨vals, hvals, hc⟩ := checkFields_conforms rest hf.2.2 hnodup' o _ hnew' loc hfin.2
        hrest
      refine ⟨(name, v) :: vals, by simpa [Field.name] using hvals, ?_⟩
      rw [ConformsFields]
      exact ⟨v, vals, rfl, hv, hc⟩
    rw [checkFields.eq_def] at h ⊢
    dsimp only at h ⊢
    split at h
    · next v hget =>
      obtain ⟨hhead, hrest⟩ := List.append_eq_nil_iff.1 h
      exact hgo _ (check_conforms t hf.1 v _ (hfin.1 v hget) hhead) hrest
    · next hget =>
      split at h
      · next d => exact hgo d (hf.2.1 d rfl) h
      · simp at h

theorem firstPassing_conforms : ∀ (members : List (String × T)), MembersInOrder out members →
    ∀ v loc, MembersFinite out members v →
      (∀ issues, firstPassing out members v loc = .error issues → issues = [] → members = []) ∧
      ∀ w, firstPassing out members v loc = .ok w → ConformsMember out members w
  | [], _, v, loc, _ => by
    refine ⟨fun _ _ _ => rfl, fun w h => ?_⟩
    rw [firstPassing] at h
    cases h
  | (name, t) :: rest, hm, v, loc, hfin => by
    rw [MembersInOrder] at hm
    rw [MembersFinite] at hfin
    obtain ⟨-, hrest⟩ := firstPassing_conforms rest hm.2.2 v loc hfin.2
    rw [firstPassing]
    by_cases hpass : (check out t v (loc ++ [.key name])).2 = []
    · rw [if_pos hpass]
      refine ⟨fun _ h _ => (by cases h), fun w h => ?_⟩
      obtain rfl := Except.ok.inj h
      rw [ConformsMember]
      exact .inl (check_conforms t hm.1 v _ hfin.1 hpass)
    · rw [if_neg hpass]
      rcases hr : firstPassing out rest v loc with issues | w'
      · refine ⟨fun issues' h hnil => ?_, fun w h => by cases h⟩
        have hsplit := (Except.error.inj h).trans hnil
        exact absurd (List.append_eq_nil_iff.1 hsplit).1 hpass
      · refine ⟨fun _ h _ => (by cases h), fun w h => ?_⟩
        obtain rfl := Except.ok.inj h
        rw [ConformsMember]
        exact .inr (hrest w' hr)

end

/-- A value that passes is coerced to one that conforms, and that passes again unchanged. -/
theorem check_sound {t : T} (ht : InOrder out t) {v : Value} (hv : Finite out t v)
    {loc : List Step} (h : (check out t v loc).2 = []) :
    Conforms out t (check out t v loc).1 ∧
      ∀ loc', check out t (check out t v loc).1 loc' = ((check out t v loc).1, []) :=
  have hc := check_conforms out t ht v loc hv h
  ⟨hc, fun loc' => check_fixed out t ht _ loc' hc⟩

end

/-! ## Requests -/

/-- Every text matches, and every rational number is a float. -/
def bare : Outside :=
  ⟨fun _ _ => true, fun n => n, some⟩

/-- `BENCH_REQUEST` -/
def benchRequest : T :=
  .model (.mk "BenchRequest"
    [.mk "instance_id" (.str none none none) none,
      .mk "suite" (.union [("str", .str none none none), ("dict[str,any]", .anyDict)])
        (some (.str "quick")),
      .mk "confirm_external" .bool (some (.bool false))] none)

theorem benchRequest_inOrder (out : Outside) : InOrder out benchRequest := by
  have hstr : InOrder out (.str none none none) := by
    rw [InOrder]
    trivial
  have hfits (s : String) : Conforms out (.str none none none) (.str s) := by
    rw [Conforms]
    exact ⟨s, rfl, nofun, nofun, nofun⟩
  have hmembers : MembersInOrder out
      [("str", .str none none none), ("dict[str,any]", .anyDict)] := by
    rw [MembersInOrder, MembersInOrder, MembersInOrder]
    refine ⟨hstr, fun v loc hv h => ?_, by rw [InOrder]; trivial, fun v loc hv => ?_, trivial⟩
    · rw [ConformsMember, ConformsMember, Conforms, or_false] at hv
      obtain ⟨o, rfl⟩ := hv
      rw [check] at h
      exact absurd h (by simp [checkStr, wrong])
    · rw [ConformsMember] at hv
      exact hv.elim
  rw [benchRequest, InOrder, ModelInOrder]
  refine ⟨by decide, ?_⟩
  rw [FieldsInOrder, FieldsInOrder, FieldsInOrder, FieldsInOrder, InOrder, InOrder]
  refine ⟨trivial, nofun, ⟨by simp, hmembers⟩, fun d hd => ?_, trivial, fun d hd => ?_, trivial⟩
  · obtain rfl := Option.some.inj hd
    rw [Conforms, ConformsMember]
    exact .inl (hfits "quick")
  · obtain rfl := Option.some.inj hd
    rw [Conforms]
    exact ⟨false, rfl⟩

/-- A request with a text for a boolean, and no suite. -/
theorem benchRequest_sound :
    Conforms bare benchRequest
        (check bare benchRequest
          (.obj [("instance_id", .str "a"), ("confirm_external", .str "yes")]) []).1 ∧
      ∀ loc', check bare benchRequest
          (check bare benchRequest
            (.obj [("instance_id", .str "a"), ("confirm_external", .str "yes")]) []).1 loc' =
        ((check bare benchRequest
          (.obj [("instance_id", .str "a"), ("confirm_external", .str "yes")]) []).1, []) := by
  refine check_sound bare (benchRequest_inOrder bare) ?_ ?_
  · simp [benchRequest, Finite, ModelFinite, FieldsFinite, MembersFinite]
  · rfl

/-! ## What does not hold of every type -/

/-- A text of an infinite number gives null for a float. In a union, with a default that is no
float, or with a name that comes twice, a second check changes the value or refuses it; and a union
of nothing takes everything for null. -/
theorem check_unsound :
    (check bare .float (.str "inf") [] = (.null, []) ∧ ¬Conforms bare .float .null) ∧
    (check bare (.union [("bool", .bool), ("int", .int none none)]) (.str " 1") [] =
        (.num (.int 1), []) ∧
      check bare (.union [("bool", .bool), ("int", .int none none)]) (.num (.int 1)) [] =
        (.bool true, [])) ∧
    (check bare (.model (.mk "M" [.mk "x" .float (some (.num (.int 1)))] none)) (.obj []) [] =
        (.obj [("x", .num (.int 1))], []) ∧
      check bare (.model (.mk "M" [.mk "x" .float (some (.num (.int 1)))] none))
          (.obj [("x", .num (.int 1))]) [] =
        (.obj [("x", .num (.float 1))], [])) ∧
    (check bare (.model (.mk "M" [.mk "x" (.str none none none) none,
          .mk "x" (.int none none) none] none)) (.obj [("x", .str "3")]) [] =
        (.obj [("x", .num (.int 3))], []) ∧
      (check bare (.model (.mk "M" [.mk "x" (.str none none none) none,
          .mk "x" (.int none none) none] none)) (.obj [("x", .num (.int 3))]) []).2 ≠ []) ∧
    check bare (.union []) (.bool true) [] = (.null, []) ∧ ¬Conforms bare (.union []) .null := by
  refine ⟨⟨rfl, ?_⟩, ⟨rfl, rfl⟩, ⟨rfl, rfl⟩, ⟨rfl, ?_⟩, rfl, ?_⟩
  · rw [Conforms]
    simp
  · simp [check, checkModelValue, checkFields, checkAfter, get, checkStr, wrong]
  · rw [Conforms, ConformsMember]
    exact not_false

end Validate

end EngineConsole
