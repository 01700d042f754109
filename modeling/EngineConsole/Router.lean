import EngineConsole.Regex

/-!
# Routing

The hub's router (`api/router.rs`) : routes are tried in the order of their registration
against the decoded path. A template is compiled to an anchored expression in which `{name}`
is one segment and `{name:path}` is the rest of a line, and which takes one newline at the
end.

A path that a route matches starts with the literal text of its template
(`litPrefix_of_matches`), and a template without parameters matches itself and itself with a
newline (`matches_plain`).
-/

set_option linter.unusedSectionVars false

namespace EngineConsole.Web

/-- A text. -/
abbrev Text := List Char

/-- The characters of an ASCII text. -/
def ascii (s : String) : Text :=
  s.toUTF8.data.toList.map fun b => Char.ofNat b.toNat

instance : Coe String Text := ⟨ascii⟩

instance (t : Text) (l : List Text) : Decidable (t ∈ l) :=
  inferInstance

/-- `Access` : the role a route requires. -/
inductive Access where
  | open
  | caller
  | admin
  deriving DecidableEq, Repr

/-! ## Templates -/

/-- The character class of one segment, and that of `.`. -/
def notSlash (c : Char) : Bool :=
  c ≠ '/'

/-- What `.` matches. -/
def notNewline (c : Char) : Bool :=
  c ≠ '\n'

/-- The name and the converter of a parameter; the converter is `str` where none is given. -/
def splitSpec (spec : Text) : Text × Text :=
  let name := spec.takeWhile (· ≠ ':')
  match spec.dropWhile (· ≠ ':') with
  | _ :: conv => (name, conv)
  | [] => (name, "str")

/-- The group of a parameter, before the expression for what follows it. -/
def paramGroup (spec : Text) (rest : Regex Char × List String) : Regex Char × List String :=
  let (name, conv) := splitSpec spec
  let pat : Regex Char :=
    if conv = ("path" : Text) then .many notNewline
    else .cat (.cls notSlash) (.many notSlash)
  (.cat (.group (String.ofList name) pat) rest.1, String.ofList name :: rest.2)

/-- `\n?$` -/
def endOfPath : Regex Char :=
  .opt (.cls fun c => c = '\n')

/-- `compile`, from some way into the template : in its text, or in a parameter. -/
def compileFrom : Option Text → Text → Regex Char × List String
  | none, [] => (endOfPath, [])
  | none, c :: rest =>
    if c = '{' then compileFrom (some []) rest
    else
      let r := compileFrom none rest
      (.cat (.cls fun d => d = c) r.1, r.2)
  | some spec, [] => paramGroup spec (endOfPath, [])
  | some spec, c :: rest =>
    if c = '}' then paramGroup spec (compileFrom none rest)
    else compileFrom (some (spec ++ [c])) rest

/-- `compile` : the expression of a template and the names of its parameters. -/
def compile (path : Text) : Regex Char × List String :=
  compileFrom none path

/-! ## Routes -/

/-- `Route`, without its handler, which has its method and template for a name. -/
structure Route where
  method : String
  path : Text
  access : Access
  deriving DecidableEq, Repr

/-- The groups of a path that the route's expression matches. -/
def Route.captures (r : Route) (path : Text) : Option (Regex.Groups Char) :=
  (compile r.path).1.captures path

/-- The parameters the handler gets. -/
def Route.params (r : Route) (groups : Regex.Groups Char) : List (String × Text) :=
  (compile r.path).2.map fun n => (n, ((groups.find? fun g => g.1 = n).map Prod.snd).getD [])

/-- `Match` -/
inductive Match where
  | full (r : Route) (params : List (String × Text))
  /-- the path matched, the method did not -/
  | pathOnly (r : Route)
  | none
  deriving DecidableEq

/-- The loop of `find`, with the first route that matched the path only. -/
def findFrom (method : String) (path : Text) : Option Route → List Route → Match
  | some r, [] => .pathOnly r
  | none, [] => .none
  | seen, r :: routes =>
    match r.captures path with
    | some groups =>
      if r.method = method then .full r (r.params groups)
      else findFrom method path (seen.or (some r)) routes
    | none => findFrom method path seen routes

/-- `Router::find` -/
def find (routes : List Route) (method : String) (path : Text) : Match :=
  findFrom method path none routes

/-- `Router::slash_redirect` -/
def slashRedirect (routes : List Route) (method : String) (path : Text) : Option Text :=
  if path = ['/'] then none
  else
    let other := if path.getLast? = some '/' then path.dropLast else path ++ ['/']
    match find routes method other with
    | .full _ _ => some other
    | _ => none

/-! ## What a route matches -/

variable {routes : List Route} {method : String} {path : Text} {r : Route}
variable {params : List (String × Text)}

/-- A match is of a route of the table, with its method and its path. -/
theorem findFrom_full : ∀ {routes : List Route} {seen : Option Route},
    findFrom method path seen routes = .full r params →
    r ∈ routes ∧ r.method = method ∧ (r.captures path).isSome
  | [], seen, h => by cases seen <;> cases h
  | q :: routes, seen, h => by
    rw [findFrom] at h
    split at h
    · rename_i groups hgroups
      split_ifs at h with hmethod
      · obtain ⟨rfl, -⟩ := Match.full.inj h
        exact ⟨List.mem_cons_self, hmethod, by rw [hgroups, Option.isSome_some]⟩
      · obtain ⟨hmem, hrest⟩ := findFrom_full h
        exact ⟨List.mem_cons_of_mem q hmem, hrest⟩
    · obtain ⟨hmem, hrest⟩ := findFrom_full h
      exact ⟨List.mem_cons_of_mem q hmem, hrest⟩

theorem find_full (h : find routes method path = .full r params) :
    r ∈ routes ∧ r.method = method ∧ (r.captures path).isSome :=
  findFrom_full h

/-- The text of a template up to its first parameter. -/
def Route.litPrefix (r : Route) : Text :=
  r.path.takeWhile (· ≠ '{')

/-- The template has no parameter. -/
def Route.plain (r : Route) : Bool :=
  r.path.all (· ≠ '{')

/-- The expression of a template is its literal text and then something. -/
theorem compileFrom_lang : ∀ (t w : Text), w ∈ (compileFrom none t).1.lang →
    t.takeWhile (· ≠ '{') <+: w
  | [], w, _ => List.nil_prefix
  | c :: t, w, h => by
    by_cases hc : c = '{'
    · simp [hc]
    · have htake : (c :: t).takeWhile (· ≠ '{') = c :: t.takeWhile (· ≠ '{') := by simp [hc]
      rw [compileFrom, if_neg hc] at h
      obtain ⟨x, hx, y, hy, rfl⟩ := Regex.mem_cat.1 h
      obtain ⟨d, hd, rfl⟩ := Regex.mem_cls.1 hx
      rw [htake, of_decide_eq_true hd]
      exact List.cons_prefix_cons.2 ⟨rfl, compileFrom_lang t y hy⟩

/-- A path that a route matches starts with the literal text of its template. -/
theorem litPrefix_of_matches (h : (r.captures path).isSome) : r.litPrefix <+: path :=
  compileFrom_lang _ _ (Regex.isMatch_iff.1 h)

theorem compileFrom_plain : ∀ (t w : Text), t.all (· ≠ '{') = true →
    w ∈ (compileFrom none t).1.lang → w = t ∨ w = t ++ ['\n']
  | [], w, _, h => by
    rcases Regex.mem_opt.1 h with h | rfl
    · obtain ⟨c, hc, rfl⟩ := Regex.mem_cls.1 h
      right
      rw [of_decide_eq_true hc]
      rfl
    · exact .inl rfl
  | c :: t, w, ht, h => by
    rw [List.all_cons, Bool.and_eq_true, decide_eq_true_eq] at ht
    rw [compileFrom, if_neg ht.1] at h
    obtain ⟨x, hx, y, hy, rfl⟩ := Regex.mem_cat.1 h
    obtain ⟨d, hd, rfl⟩ := Regex.mem_cls.1 hx
    rw [of_decide_eq_true hd]
    exact (compileFrom_plain t y ht.2 hy).imp (fun h => by rw [h]; rfl) fun h => by rw [h]; rfl

/-- A template without parameters matches itself, and itself with a newline. -/
theorem matches_plain (hplain : r.plain = true) (h : (r.captures path).isSome) :
    path = r.path ∨ path = r.path ++ ['\n'] :=
  compileFrom_plain _ _ hplain (Regex.isMatch_iff.1 h)

end EngineConsole.Web
