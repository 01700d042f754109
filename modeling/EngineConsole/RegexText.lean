import Mathlib

/-!
# The text of a regular expression

The notation of regular expressions, as far as expressions for globs use it : characters, the
dot, repetition of the dot, and classes with ranges and the set operators `&&`, `--` and `~~`,
between anchors. `read` takes a text apart, `matchItems` matches a name as a whole.

A class in brackets starts with `^` if it is negated, then with hyphens that stand for
themselves or with a bracket that does. A hyphen between two characters makes a range of them
unless it is followed by a bracket or another hyphen; two hyphens are the difference of what
stands before and after them. A range whose ends are the wrong way round is no expression.
-/

set_option linter.unusedSectionVars false

namespace EngineConsole

namespace RegexText

/-! ## Sets of characters -/

/-- A set of characters. -/
abbrev Chars := Char → Bool

namespace Chars

def none : Chars := fun _ => false

def all : Chars := fun _ => true

def one (a : Char) : Chars := fun c => c == a

def span (a b : Char) : Chars := fun c => a ≤ c && c ≤ b

def union (p q : Chars) : Chars := fun c => p c || q c

def compl (p : Chars) : Chars := fun c => !p c

theorem union_none (p : Chars) : p.union none = p := by
  funext c
  simp [union, none]

theorem none_union (p : Chars) : none.union p = p := by
  funext c
  simp [union, none]

theorem union_assoc (p q r : Chars) : (p.union q).union r = p.union (q.union r) := by
  funext c
  simp [union, Bool.or_assoc]

theorem compl_none : none.compl = all := rfl

end Chars

/-! ## Tokens -/

/-- A character, or one after a backslash. -/
inductive Tok
  | raw (c : Char)
  | esc (c : Char)
  deriving DecidableEq

/-- It is that character. -/
def Tok.is (c : Char) (t : Tok) : Bool :=
  t = .raw c

theorem Tok.is_eq {c : Char} {t : Tok} : t.is c = true ↔ t = .raw c :=
  decide_eq_true_iff

/-- The tokens of a text. -/
def lex : List Char → List Tok
  | [] => []
  | c :: s =>
    if c = '\\' then
      match s with
      | [] => [.raw '\\']
      | d :: s => .esc d :: lex s
    else .raw c :: lex s

/-- What may follow a backslash to stand for itself. -/
def metas : List Char :=
  ['\\', '.', '+', '*', '?', '(', ')', '|', '[', ']', '{', '}', '^', '$', '#', '&', '-', '~']

/-! ## Classes -/

/-- What one token of a class stands for. -/
inductive Prim
  | lit (c : Char)
  | perl (p : Chars)

def Prim.chars : Prim → Chars
  | .lit c => .one c
  | .perl p => p

/-- The operators on sets. -/
inductive SetOp
  | inter
  | diff
  | symm
  deriving DecidableEq

def SetOp.apply : SetOp → Chars → Chars → Chars
  | inter, p, q => fun c => p c && q c
  | diff, p, q => fun c => p c && !q c
  | symm, p, q => fun c => p c != q c

/-- Two tokens that are an operator. -/
def setOp (x y : Tok) : Option SetOp :=
  if x = .raw '&' ∧ y = .raw '&' then some .inter
  else if x = .raw '-' ∧ y = .raw '-' then some .diff
  else if x = .raw '~' ∧ y = .raw '~' then some .symm
  else none

/-- The left side of an operator, if there is one. -/
abbrev Left := Option (Chars × SetOp)

/-- The set up to here. -/
def Left.close (l : Left) (u : Chars) : Chars :=
  match l with
  | none => u
  | some (p, op) => op.apply p u

section

variable (white : Chars)

def Tok.prim : Tok → Option Prim
  | .raw c => if c = '\\' then none else some (.lit c)
  | .esc c =>
    if c ∈ metas then some (.lit c)
    else if c = 's' then some (.perl white)
    else if c = 'S' then some (.perl white.compl)
    else none

/-- A range. -/
def range : Prim → Prim → Option Chars
  | .lit a, .lit b => if a ≤ b then some (.span a b) else none
  | _, _ => none

/-- Read a class from its items on. Classes within classes are not read. -/
def classBody (l : Left) (u : Chars) : List Tok → Option (Chars × List Tok)
  | [] => none
  | x :: ts =>
    if x = .raw ']' then some (l.close u, ts)
    else if x = .raw '[' then none
    else
      match ts with
      | [] => none
      | y :: ts' =>
        match setOp x y with
        | some op => classBody (some (l.close u, op)) .none ts'
        | none =>
          (x.prim white).bind fun p =>
            if y.is '-' then
              match ts' with
              | [] => none
              | z :: ts'' =>
                if z.is ']' || z.is '-' then classBody l (u.union p.chars) (y :: z :: ts'')
                else (z.prim white).bind fun q => (range p q).bind fun r =>
                  classBody l (u.union r) ts''
            else classBody l (u.union p.chars) (y :: ts')

/-- Read what a class may start with : hyphens, or a bracket. -/
def classLead (ts : List Tok) : Option (Chars × List Tok) :=
  let rest := ts.dropWhile (· = .raw '-')
  if ts.head? = some (.raw '-') then classBody white none (.one '-') rest
  else
    match ts with
    | x :: ts' => if x = .raw ']' then classBody white none (.one ']') ts'
      else classBody white none .none ts
    | [] => none

/-- Read a class after its bracket. -/
def readClass : List Tok → Option (Chars × List Tok)
  | [] => none
  | x :: ts =>
    if x = .raw '^' then (classLead white ts).map fun r => (r.1.compl, r.2)
    else classLead white (x :: ts)

end

/-! ## Reading a class step by step -/

section

variable {white : Chars} {l : Left} {u p r : Chars} {x y z : Tok} {a b : Prim} {ts : List Tok}

@[simp] theorem classBody_close :
    classBody white l u (.raw ']' :: ts) = some (l.close u, ts) := by
  rw [classBody.eq_def]
  rfl

/-- Two items : a set operation, or a token that stands for itself. -/
theorem classBody_two (hx : x ≠ .raw ']') (hx' : x ≠ .raw '[') (ts : List Tok) :
    classBody white l u (x :: y :: ts) =
      ((setOp x y).map fun op => classBody white (some (l.close u, op)) .none ts).getD
        ((x.prim white).bind fun p =>
          if y.is '-' then
            ts.head?.bind fun z =>
              if z.is ']' || z.is '-' then classBody white l (u.union p.chars) (y :: ts)
              else (z.prim white).bind fun q => (range p q).bind fun r =>
                classBody white l (u.union r) ts.tail
          else classBody white l (u.union p.chars) (y :: ts)) := by
  rw [classBody.eq_def]
  simp only [if_neg hx, if_neg hx']
  cases setOp x y with
  | some op => rfl
  | none => cases ts <;> rfl

theorem classBody_op {op : SetOp} (hx : x ≠ .raw ']') (hx' : x ≠ .raw '[')
    (hop : setOp x y = some op) :
    classBody white l u (x :: y :: ts) = classBody white (some (l.close u, op)) .none ts := by
  rw [classBody_two hx hx' ts, hop]
  rfl

/-- A token that stands for itself. -/
theorem classBody_item (hx : x ≠ .raw ']') (hx' : x ≠ .raw '[') (hop : setOp x y = none)
    (ha : x.prim white = some a) (hy : y ≠ .raw '-') :
    classBody white l u (x :: y :: ts) = classBody white l (u.union a.chars) (y :: ts) := by
  rw [classBody_two hx hx' ts, hop, ha]
  exact if_neg (mt Tok.is_eq.1 hy)

/-- A token that stands for itself, a hyphen and what comes after it. -/
theorem classBody_hyphen (ts : List Tok) (hx : x ≠ .raw ']') (hx' : x ≠ .raw '[')
    (hop : setOp x (.raw '-') = none) (ha : x.prim white = some a) :
    classBody white l u (x :: .raw '-' :: z :: ts) =
      if z.is ']' || z.is '-' then classBody white l (u.union a.chars) (.raw '-' :: z :: ts)
      else (z.prim white).bind fun q => (range a q).bind fun r =>
        classBody white l (u.union r) ts := by
  have hyphen : (Tok.raw '-').is '-' = true := Tok.is_eq.2 rfl
  rw [classBody_two hx hx' (z :: ts), hop, ha, Option.map_none, Option.getD_none,
    Option.bind_some, if_pos hyphen]
  rfl

/-- A hyphen after it that makes no range. -/
theorem classBody_item_hyphen (hx : x ≠ .raw ']') (hx' : x ≠ .raw '[')
    (hop : setOp x (.raw '-') = none) (ha : x.prim white = some a)
    (hz : z = .raw ']' ∨ z = .raw '-') :
    classBody white l u (x :: .raw '-' :: z :: ts) =
      classBody white l (u.union a.chars) (.raw '-' :: z :: ts) := by
  have hz' : (z.is ']' || z.is '-') = true := by
    rw [Bool.or_eq_true, Tok.is_eq, Tok.is_eq]
    exact hz
  rw [classBody_hyphen ts hx hx' hop ha, if_pos hz']

theorem classBody_range (ts : List Tok) (hx : x ≠ .raw ']') (hx' : x ≠ .raw '[')
    (hop : setOp x (.raw '-') = none) (ha : x.prim white = some a)
    (hz : ¬(z = .raw ']' ∨ z = .raw '-')) (hb : z.prim white = some b) :
    classBody white l u (x :: .raw '-' :: z :: ts) =
      (range a b).bind fun r => classBody white l (u.union r) ts := by
  have hz' : ¬(z.is ']' || z.is '-') = true := by
    rw [Bool.or_eq_true, Tok.is_eq, Tok.is_eq]
    exact hz
  rw [classBody_hyphen ts hx hx' hop ha, if_neg hz', hb, Option.bind_some]

end

/-! ## Lexing -/

/-- The tokens of a text, whatever follows it. -/
def Lexes (s : List Char) (ts : List Tok) : Prop :=
  ∀ t, lex (s ++ t) = ts ++ lex t

theorem lex_cons {c : Char} (hc : c ≠ '\\') (s : List Char) : lex (c :: s) = .raw c :: lex s := by
  rw [lex.eq_def]
  simp only [if_neg hc]

theorem lex_escape (c : Char) (s : List Char) : lex ('\\' :: c :: s) = .esc c :: lex s := by
  simp [lex]

namespace Lexes

theorem nil : Lexes [] [] := fun _ => rfl

theorem append {s t : List Char} {ss ts : List Tok} (hs : Lexes s ss) (ht : Lexes t ts) :
    Lexes (s ++ t) (ss ++ ts) := by
  intro r
  rw [List.append_assoc, hs, ht, List.append_assoc]

theorem flatMap {α : Type*} {f : α → List Char} {g : α → List Tok} {l : List α}
    (h : ∀ a ∈ l, Lexes (f a) (g a)) : Lexes (l.flatMap f) (l.flatMap g) := by
  induction l with
  | nil => exact nil
  | cons a l ih =>
    exact (h a List.mem_cons_self).append (ih fun b hb => h b (List.mem_cons_of_mem a hb))

theorem raw {c : Char} (hc : c ≠ '\\') : Lexes [c] [.raw c] := fun t => lex_cons hc t

theorem escape (c : Char) : Lexes ['\\', c] [.esc c] := fun t => lex_escape c t

theorem cons {c : Char} (hc : c ≠ '\\') {s : List Char} {ts : List Tok} (hs : Lexes s ts) :
    Lexes (c :: s) (.raw c :: ts) :=
  (raw hc).append hs

theorem cons_escape (c : Char) {s : List Char} {ts : List Tok} (hs : Lexes s ts) :
    Lexes ('\\' :: c :: s) (.esc c :: ts) :=
  (escape c).append hs

theorem eq {s : List Char} {ts : List Tok} (h : Lexes s ts) : lex s = ts := by
  have h' := h []
  rwa [List.append_nil, show lex [] = [] from rfl, List.append_nil] at h'

end Lexes

/-- A character, escaped if it is one of some. -/
def escTok (set : List Char) (c : Char) : Tok :=
  if c ∈ set then .esc c else .raw c

/-! ## Expressions -/

/-- Any text, or one character of a set. -/
inductive Item
  | star
  | one (p : Chars)

/-- What a dot starts. -/
def dot (ts : List Tok) : Item × List Tok :=
  if [.raw '*', .raw '?'] <+: ts then (.star, ts.drop 2)
  else if [.raw '*'] <+: ts then (.star, ts.drop 1)
  else (.one .all, ts)

section

variable (white : Chars)

/-- Read one item. -/
def readItem : List Tok → Option (Item × List Tok)
  | [] => none
  | .esc c :: ts => if c ∈ metas then some (.one (.one c), ts) else none
  | .raw c :: ts =>
    if c = '.' then some (dot ts)
    else if c = '[' then (readClass white ts).map fun r => (.one r.1, r.2)
    else if c ∈ metas then none
    else some (.one (.one c), ts)

/-- Read items up to the tokens that end the expression. -/
def readItems (ends : List Tok) : ℕ → List Tok → Option (List Item)
  | 0, _ => none
  | n + 1, ts =>
    if ts = ends then some []
    else (readItem white ts).bind fun r => (readItems ends n r.2).map (r.1 :: ·)

/-- Read an expression between anchors, `(?s)^ $` or `(?s)\A(?: )\z`. -/
def read (text : List Char) : Option (List Item) :=
  let short := "(?s)^".toList
  let long := "(?s)\\A(?:".toList
  if short <+: text then
    let ts := lex (text.drop short.length)
    readItems white [.raw '$'] (ts.length + 1) ts
  else if long <+: text then
    let ts := lex (text.drop long.length)
    readItems white [.raw ')', .esc 'z'] (ts.length + 1) ts
  else none

end

/-! ## Reading piece by piece -/

/-- No repetition starts here. -/
def Fresh (ts : List Tok) : Prop :=
  ∀ t ∈ ts.head?, t ≠ .raw '*' ∧ t ≠ .raw '?'

theorem dot_fresh {ts : List Tok} (h : Fresh ts) : dot ts = (.one .all, ts) := by
  have hstar {l : List Tok} : ¬Tok.raw '*' :: l <+: ts := by
    rintro ⟨t, rfl⟩
    exact (h (.raw '*') rfl).1 rfl
  rw [dot, if_neg hstar, if_neg hstar]

theorem dot_star {ts : List Tok} (h : Fresh ts) : dot (.raw '*' :: ts) = (.star, ts) := by
  have hlazy : ¬[Tok.raw '*', .raw '?'] <+: .raw '*' :: ts := by
    rintro ⟨t, ht⟩
    have ht' : Tok.raw '?' :: t = ts := (List.cons.inj ht).2
    exact (h (.raw '?') (by rw [← ht']; rfl)).2 rfl
  have hstar : [Tok.raw '*'] <+: .raw '*' :: ts := ⟨ts, rfl⟩
  rw [dot, if_neg hlazy, if_pos hstar]
  rfl

theorem dot_lazy (ts : List Tok) : dot (.raw '*' :: .raw '?' :: ts) = (.star, ts) := by
  have hlazy : [Tok.raw '*', .raw '?'] <+: .raw '*' :: .raw '?' :: ts := ⟨ts, rfl⟩
  rw [dot, if_pos hlazy]
  rfl

section

variable {π : Type*} {white : Chars} {text : π → List Char} {item : π → Option Item}
  {ends : List Tok} {xs : List π}

/-- A text is read as one item, or as none, whatever follows it but a repetition. -/
def Reads (white : Chars) (s : List Char) (i : Option Item) : Prop :=
  ∃ ts, Lexes s ts ∧ ts ≠ [] ∧ (∀ r, Fresh (ts ++ r)) ∧
    ∀ r, Fresh r → readItem white (ts ++ r) = i.map fun i => (i, r)

/-- Pieces that are read one after the other, where each may fail. -/
theorem readItems_pieces (h : ∀ x ∈ xs, Reads white (text x) (item x)) (hends : Fresh ends) {n : ℕ}
    (hn : xs.length < n) :
    readItems white ends n (lex (xs.flatMap text) ++ ends) = xs.mapM item := by
  induction xs generalizing n with
  | nil =>
    cases n with
    | zero => simp at hn
    | succ n =>
      rw [readItems]
      exact if_pos rfl
  | cons x xs ih =>
    cases n with
    | zero => simp at hn
    | succ n =>
      have ih' := ih (fun y hy => h y (List.mem_cons_of_mem x hy)) (n := n) (by simpa using hn)
      obtain ⟨ts, hlex, hne, -, hread⟩ := h x List.mem_cons_self
      have hrest : Fresh (lex (xs.flatMap text) ++ ends) := by
        cases xs with
        | nil => exact hends
        | cons y ys =>
          obtain ⟨us, hus, -, hfresh, -⟩ := h y (by simp)
          rw [List.flatMap_cons, hus, List.append_assoc]
          exact hfresh _
      have hnot : ts ++ (lex (xs.flatMap text) ++ ends) ≠ ends := by
        intro heq
        have hlen := congrArg List.length heq
        have hpos := List.length_pos_iff.2 hne
        simp only [List.length_append] at hlen
        omega
      rw [List.flatMap_cons, hlex, List.append_assoc, readItems, if_neg hnot, hread _ hrest,
        List.mapM_cons]
      cases item x with
      | none => rfl
      | some i =>
        simp only [Option.map_some, Option.bind_some]
        rw [ih']
        cases xs.mapM item <;> rfl

theorem length_le_lex (h : ∀ x ∈ xs, Reads white (text x) (item x)) :
    ∃ ts, Lexes (xs.flatMap text) ts ∧ xs.length ≤ ts.length := by
  induction xs with
  | nil => exact ⟨[], .nil, Nat.le_refl _⟩
  | cons x xs ih =>
    obtain ⟨us, hus, hle⟩ := ih fun y hy => h y (List.mem_cons_of_mem x hy)
    obtain ⟨ts, hts, hne, -, -⟩ := h x List.mem_cons_self
    have hpos := List.length_pos_iff.2 hne
    refine ⟨ts ++ us, hts.append hus, ?_⟩
    rw [List.length_append, List.length_cons]
    omega

/-- What is read between anchors. -/
theorem readItems_lex (h : ∀ x ∈ xs, Reads white (text x) (item x)) {tail : List Char}
    (htail : Lexes tail ends) (hends : Fresh ends) :
    let ts := lex (xs.flatMap text ++ tail)
    readItems white ends (ts.length + 1) ts = xs.mapM item := by
  obtain ⟨ts, hts, hle⟩ := length_le_lex h
  have hlex : lex (xs.flatMap text ++ tail) = lex (xs.flatMap text) ++ ends := by
    rw [hts, hts.eq, htail.eq]
  dsimp only
  rw [hlex]
  refine readItems_pieces h hends ?_
  rw [hts.eq, List.length_append]
  omega

theorem read_short (h : ∀ x ∈ xs, Reads white (text x) (item x)) :
    read white ("(?s)^".toList ++ xs.flatMap text ++ ['$']) = xs.mapM item := by
  have hends : Fresh [Tok.raw '$'] := by
    intro t ht
    obtain rfl : Tok.raw '$' = t := by simpa using ht
    exact ⟨by simp, by simp⟩
  rw [read, List.append_assoc]
  dsimp only
  rw [if_pos (List.prefix_append _ _), List.drop_left]
  exact readItems_lex h (.raw (by decide)) hends

theorem read_long (h : ∀ x ∈ xs, Reads white (text x) (item x)) :
    read white ("(?s)\\A(?:".toList ++ xs.flatMap text ++ [')', '\\', 'z']) = xs.mapM item := by
  have hends : Fresh [Tok.raw ')', .esc 'z'] := by
    intro t ht
    obtain rfl : Tok.raw ')' = t := by simpa using ht
    exact ⟨by simp, by simp⟩
  have hnot (r : List Char) : ¬"(?s)^".toList <+: "(?s)\\A(?:".toList ++ r := by
    rintro ⟨t, ht⟩
    have htake := congrArg (List.take 5) ht
    rw [List.take_left' (by decide), List.take_append_of_le_length (by decide)] at htake
    exact absurd htake (by decide)
  rw [read, List.append_assoc]
  dsimp only
  rw [if_neg (hnot _), if_pos (List.prefix_append _ _), List.drop_left]
  exact readItems_lex h (.cons (by decide) (.escape 'z')) hends

theorem mapM_eq_some {f : π → Item} (h : ∀ x ∈ xs, item x = some (f x)) :
    xs.mapM item = some (xs.map f) := by
  induction xs with
  | nil => rfl
  | cons x xs ih =>
    rw [List.mapM_cons, h x List.mem_cons_self, ih fun y hy => h y (List.mem_cons_of_mem x hy)]
    rfl

theorem mapM_eq_none {x : π} (hx : x ∈ xs) (h : item x = none) : xs.mapM item = none := by
  induction xs with
  | nil => simp at hx
  | cons y ys ih =>
    rw [List.mapM_cons]
    rcases List.mem_cons.1 hx with rfl | hmem
    · rw [h]
      rfl
    · cases item y with
      | none => rfl
      | some i =>
        rw [ih hmem]
        rfl

end

/-! ## Items -/

section

variable {white : Chars}

theorem fresh_cons {t : Tok} (h : t ≠ .raw '*') (h' : t ≠ .raw '?') (ts : List Tok) :
    Fresh (t :: ts) := by
  intro u hu
  obtain rfl : t = u := by simpa using hu
  exact ⟨h, h'⟩

theorem reads_dot : Reads white ['.'] (some (.one .all)) := by
  refine ⟨[.raw '.'], .raw (by decide), by simp, fun r => fresh_cons (by simp) (by simp) r,
    fun r hr => ?_⟩
  rw [List.singleton_append, readItem, if_pos rfl, dot_fresh hr]
  rfl

theorem reads_star : Reads white ['.', '*'] (some .star) := by
  refine ⟨[.raw '.', .raw '*'], .cons (by decide) (.raw (by decide)), by simp,
    fun r => fresh_cons (by simp) (by simp) _, fun r hr => ?_⟩
  rw [List.cons_append, readItem, if_pos rfl, List.singleton_append, dot_star hr]
  rfl

theorem reads_lazy : Reads white ['.', '*', '?'] (some .star) := by
  refine ⟨[.raw '.', .raw '*', .raw '?'],
    .cons (by decide) (.cons (by decide) (.raw (by decide))), by simp,
    fun r => fresh_cons (by simp) (by simp) _, fun r _ => ?_⟩
  rw [List.cons_append, readItem, if_pos rfl]
  exact congrArg some (dot_lazy r)

theorem reads_escape {c : Char} (hc : c ∈ metas) :
    Reads white ['\\', c] (some (.one (.one c))) := by
  refine ⟨[.esc c], .escape c, by simp, fun r => fresh_cons (by simp) (by simp) r, fun r _ => ?_⟩
  rw [List.singleton_append, readItem, if_pos hc]
  rfl

theorem reads_raw {c : Char} (hc : c ∉ metas) : Reads white [c] (some (.one (.one c))) := by
  have hne {d : Char} (hd : d ∈ metas) : c ≠ d := fun h => hc (h ▸ hd)
  have hstar := hne (d := '*') (by decide)
  have hquest := hne (d := '?') (by decide)
  refine ⟨[.raw c], .raw (hne (by decide)), by simp,
    fun r => fresh_cons (by simpa using hstar) (by simpa using hquest) r, fun r _ => ?_⟩
  rw [List.singleton_append, readItem, if_neg (hne (by decide)), if_neg (hne (by decide)), if_neg hc]
  rfl

/-- A class, or what fails as one. -/
theorem reads_class {s : List Char} {ts : List Tok} {p : Option Chars} (hs : Lexes s ts)
    (hread : ∀ r, readClass white (ts ++ r) = p.map fun p => (p, r)) :
    Reads white ('[' :: s) (p.map .one) := by
  refine ⟨.raw '[' :: ts, .cons (by decide) hs, by simp,
    fun r => fresh_cons (by simp) (by simp) _, fun r _ => ?_⟩
  rw [List.cons_append, readItem, if_neg (by decide), if_pos rfl, hread]
  cases p <;> rfl

end

/-! ## Matching -/

/-- The whole text matches. -/
def matchItems : List Item → List Char → Bool
  | [], s => s.isEmpty
  | .one _ :: _, [] => false
  | .one p :: is, c :: s => p c && matchItems is s
  | .star :: is, s => s.tails.any (matchItems is)

/-- `Regex::new` and `is_match` : what is no expression matches nothing. -/
def isMatch (white : Chars) (text name : List Char) : Bool :=
  (read white text).any (matchItems · name)

variable {is js : List Item} {p q : Chars} {c : Char} {s : List Char}

@[simp] theorem matchItems_nil : matchItems [] s = s.isEmpty := by
  cases s <;> rfl

@[simp] theorem matchItems_one_nil : matchItems (.one p :: is) [] = false := rfl

@[simp] theorem matchItems_one_cons :
    matchItems (.one p :: is) (c :: s) = (p c && matchItems is s) := rfl

theorem matchItems_star : matchItems (.star :: is) s = s.tails.any (matchItems is) := by
  cases s <;> rfl

@[simp] theorem matchItems_star_nil : matchItems (.star :: is) [] = matchItems is [] := by
  simp [matchItems_star]

theorem matchItems_star_cons : matchItems (.star :: is) (c :: s) =
    (matchItems is (c :: s) || matchItems (.star :: is) s) := by
  simp [matchItems_star]

/-- A run of stars is one star. -/
theorem matchItems_star_star : matchItems (.star :: .star :: is) s = matchItems (.star :: is) s := by
  induction s with
  | nil => simp
  | cons c s ih =>
    rw [matchItems_star_cons, ih, matchItems_star_cons]
    cases matchItems is (c :: s) <;> simp

/-! ## Equal expressions

An expression with as many sets as a text has characters matches it if each character is in its
set, so expressions of one shape match the same names just if their sets are the same or neither
matches anything. -/

/-- The sets of an expression. -/
def sets : List Item → List Chars
  | [] => []
  | .star :: is => sets is
  | .one p :: is => p :: sets is

/-- The characters are in the sets. -/
def Fits (ps : List Chars) (s : List Char) : Prop :=
  List.Forall₂ (fun p c => p c = true) ps s

theorem length_le_of_match (h : matchItems is s = true) : (sets is).length ≤ s.length := by
  induction is generalizing s with
  | nil => simp [sets]
  | cons i is ih =>
    cases i with
    | star =>
      rw [matchItems_star, List.any_eq_true] at h
      obtain ⟨t, ht, hmatch⟩ := h
      exact Nat.le_trans (ih hmatch) ((List.mem_tails _ _).1 ht).length_le
    | one p =>
      cases s with
      | nil => simp at h
      | cons c s =>
        rw [matchItems_one_cons, Bool.and_eq_true] at h
        simpa [sets] using ih h.2

/-- Where there is no text to spare. -/
theorem match_iff_fits (hlen : s.length = (sets is).length) :
    matchItems is s = true ↔ Fits (sets is) s := by
  induction is generalizing s with
  | nil =>
    obtain rfl := List.length_eq_zero_iff.1 hlen
    simp [sets, Fits]
  | cons i is ih =>
    cases i with
    | star =>
      rw [sets] at hlen ⊢
      cases s with
      | nil => rw [matchItems_star_nil, ih hlen]
      | cons c s =>
        have hnot : matchItems (.star :: is) s ≠ true := by
          intro h
          have hle := length_le_of_match h
          rw [sets, ← hlen] at hle
          exact absurd hle (by simp)
        rw [matchItems_star_cons, Bool.eq_false_iff.2 hnot, Bool.or_false, ih hlen]
    | one p =>
      rw [sets] at hlen ⊢
      cases s with
      | nil => simp at hlen
      | cons c s =>
        rw [matchItems_one_cons, Bool.and_eq_true, ih (by simpa using hlen)]
        simp [Fits]

/-- No character is in the set. -/
def Item.Never (i : Item) : Prop :=
  ∃ p : Chars, i = .one p ∧ ∀ c, p c = false

theorem mem_sets : p ∈ sets is ↔ .one p ∈ is := by
  induction is with
  | nil => simp [sets]
  | cons i is ih => cases i <;> simp [sets, ih]

theorem no_match_of_never {i : Item} (hi : i ∈ is) (hnever : i.Never) :
    matchItems is s = false := by
  induction is generalizing s with
  | nil => simp at hi
  | cons j is ih =>
    rcases List.mem_cons.1 hi with rfl | hmem
    · obtain ⟨p, rfl, hp⟩ := hnever
      cases s <;> simp [hp]
    · cases j with
      | star =>
        rw [matchItems_star, List.any_eq_false]
        intro t _
        rw [ih hmem]
        exact Bool.false_ne_true
      | one p =>
        cases s with
        | nil => rfl
        | cons c s => rw [matchItems_one_cons, ih hmem, Bool.and_false]

theorem exists_fits {ps : List Chars} (h : ∀ p ∈ ps, ∃ c, p c = true) : ∃ s, Fits ps s := by
  induction ps with
  | nil => exact ⟨[], .nil⟩
  | cons p ps ih =>
    obtain ⟨c, hc⟩ := h p List.mem_cons_self
    obtain ⟨s, hs⟩ := ih fun q hq => h q (List.mem_cons_of_mem p hq)
    exact ⟨c :: s, .cons hc hs⟩

/-- Sets that fit the same texts, and some text, are the same. -/
theorem eq_of_fits {ps qs : List Chars} (hlen : ps.length = qs.length)
    (h : ∀ s, Fits ps s ↔ Fits qs s) {w : List Char} (hw : Fits ps w) : ps = qs := by
  induction ps generalizing qs w with
  | nil => exact (List.length_eq_zero_iff.1 hlen.symm).symm
  | cons p ps ih =>
    cases qs with
    | nil => simp at hlen
    | cons q qs =>
      cases hw with
      | @cons _ c _ w hc hw =>
        obtain ⟨hq, hqw⟩ := List.forall₂_cons.1 ((h (c :: w)).1 (.cons hc hw))
        have hhead : p = q := by
          funext d
          have hd := h (d :: w)
          rw [Fits, Fits, List.forall₂_cons, List.forall₂_cons] at hd
          rw [Bool.eq_iff_iff]
          exact ⟨fun hp => (hd.1 ⟨hp, hw⟩).1, fun hq => (hd.2 ⟨hq, hqw⟩).1⟩
        have htail : ∀ s, Fits ps s ↔ Fits qs s := by
          intro s
          have hs := h (c :: s)
          rw [Fits, Fits, List.forall₂_cons, List.forall₂_cons] at hs
          exact ⟨fun hp => (hs.1 ⟨hc, hp⟩).2, fun hq' => (hs.2 ⟨hq, hq'⟩).2⟩
        rw [hhead, ih (by simpa using hlen) htail hw]

/-- What matches nothing has a set that holds nothing. -/
theorem never_iff : (∀ s, matchItems is s = false) ↔ ∃ i ∈ is, i.Never := by
  constructor
  · intro h
    by_contra hno
    obtain ⟨s, hs⟩ : ∃ s, Fits (sets is) s := by
      refine exists_fits fun p hp => ?_
      by_contra hp'
      exact hno ⟨_, mem_sets.1 hp, p, rfl, fun c => Bool.eq_false_iff.2 fun hc => hp' ⟨c, hc⟩⟩
    have hmatch := (match_iff_fits hs.length_eq.symm).2 hs
    rw [h s] at hmatch
    exact Bool.false_ne_true hmatch
  · rintro ⟨i, hi, hnever⟩ s
    exact no_match_of_never hi hnever

theorem matchItems_cons_congr {i : Item} (h : ∀ s, matchItems is s = matchItems js s) :
    matchItems (i :: is) s = matchItems (i :: js) s := by
  cases i with
  | star =>
    rw [matchItems_star, matchItems_star, funext h]
  | one p =>
    cases s with
    | nil => rfl
    | cons c s => rw [matchItems_one_cons, matchItems_one_cons, h]

section

variable {π : Type*} {l : List π} {f g : π → Item}

theorem length_sets (hshape : ∀ x ∈ l, f x = .star ↔ g x = .star) :
    (sets (l.map f)).length = (sets (l.map g)).length := by
  induction l with
  | nil => rfl
  | cons x l ih =>
    have hx := hshape x List.mem_cons_self
    have ih' := ih fun y hy => hshape y (List.mem_cons_of_mem x hy)
    cases hf : f x <;> cases hg : g x <;> simp_all [sets]

theorem eq_of_sets (hshape : ∀ x ∈ l, f x = .star ↔ g x = .star)
    (h : sets (l.map f) = sets (l.map g)) : ∀ x ∈ l, f x = g x := by
  induction l with
  | nil => simp
  | cons x l ih =>
    have hx := hshape x List.mem_cons_self
    have ih' := ih fun y hy => hshape y (List.mem_cons_of_mem x hy)
    cases hf : f x <;> cases hg : g x <;> simp_all [sets]

/-- Expressions of one shape match the same names just if their sets are the same or neither
matches anything. -/
theorem match_eq_iff (hshape : ∀ x ∈ l, f x = .star ↔ g x = .star) :
    (∀ s, matchItems (l.map f) s = matchItems (l.map g) s) ↔
      (∀ x ∈ l, f x = g x) ∨ (∃ x ∈ l, (f x).Never) ∧ ∃ x ∈ l, (g x).Never := by
  constructor
  · intro h
    have hlen := length_sets hshape
    have hfits : ∀ s, Fits (sets (l.map f)) s ↔ Fits (sets (l.map g)) s := by
      intro s
      by_cases hs : s.length = (sets (l.map f)).length
      · rw [← match_iff_fits hs, h s, match_iff_fits (hs.trans hlen)]
      · exact iff_of_false (fun hf => hs hf.length_eq.symm)
          fun hg => hs (hg.length_eq.symm.trans hlen.symm)
    have hnever (k : π → Item) (hk : ¬∃ s, Fits (sets (l.map k)) s) : ∃ x ∈ l, (k x).Never := by
      by_contra hno
      refine hk (exists_fits fun p hp => ?_)
      obtain ⟨x, hx, hkx⟩ := List.mem_map.1 (mem_sets.1 hp)
      by_contra hp
      exact hno ⟨x, hx, p, hkx, fun c => Bool.eq_false_iff.2 fun hc => hp ⟨c, hc⟩⟩
    by_cases hsome : ∃ s, Fits (sets (l.map f)) s
    · obtain ⟨w, hw⟩ := hsome
      exact .inl (eq_of_sets hshape (eq_of_fits hlen hfits hw))
    · refine .inr ⟨hnever f hsome, hnever g ?_⟩
      rintro ⟨s, hs⟩
      exact hsome ⟨s, (hfits s).2 hs⟩
  · rintro (h | ⟨⟨x, hx, hf⟩, y, hy, hg⟩) s
    · rw [List.map_congr_left h]
    · rw [no_match_of_never (List.mem_map_of_mem hx) hf, no_match_of_never (List.mem_map_of_mem hy) hg]

end

end RegexText

end EngineConsole
