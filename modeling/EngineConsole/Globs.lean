import EngineConsole.Router
import EngineConsole.RegexText

/-!
# Globs

`fnmatchcase` on the node and on the hub. Both cut a pattern into stars, single characters and
brackets, write an expression from the pieces and match the name with it. They differ in how a
bracket becomes a class : the node follows Python and cuts it at its hyphens into chunks, takes
out ranges that are empty and escapes what has a meaning in a class, the hub escapes some
characters and leaves the hyphens as they are.

`Matches` is what a glob means. `globs_agree` is when both matchers follow it : when each
bracket holds the same characters as the class that either writes, or when in each of the three
some bracket holds none.
-/

set_option linter.unusedSectionVars false

namespace EngineConsole

namespace Globs

open Web RegexText

/-! ## What a glob means -/

/-- A member of a bracket. -/
inductive Elem
  | one (c : Char)
  | span (a b : Char)
  deriving DecidableEq

/-- The members of a bracket, from the left : a hyphen between two characters makes a range of
them. -/
def elems : Text → List Elem
  | [] => []
  | c :: s =>
    match s with
    | [] => [.one c]
    | d :: s' =>
      match s' with
      | [] => .one c :: elems [d]
      | e :: s'' => if d = '-' then .span c e :: elems s'' else .one c :: elems (d :: e :: s'')

/-- A range whose ends are the wrong way round holds nothing. -/
def Elem.chars : Elem → Chars
  | .one c => .one c
  | .span a b => .span a b

/-- The characters of members. -/
def chars (es : List Elem) : Chars :=
  es.foldr (fun e p => e.chars.union p) .none

/-- A bracket that starts with `!` holds all but its members. -/
def negated (seg : Text) : Bool :=
  seg.head? = some '!'

/-- The members of a bracket as they are written. -/
def listed (seg : Text) : Text :=
  if negated seg then seg.tail else seg

/-- The characters that a bracket stands for. -/
def globSet (seg : Text) : Chars :=
  if negated seg then (chars (elems (listed seg))).compl else chars (elems (listed seg))

/-- A bracket at the start of a text : it ends at the first `]` that is not its first member. -/
def Bracket (p seg rest : Text) : Prop :=
  p = seg ++ ']' :: rest ∧ ∃ x t, listed seg = x :: t ∧ ']' ∉ t

/-- A name matches a glob. -/
inductive Matches : Text → Text → Prop
  | nil : Matches [] []
  | starNone {p s : Text} : Matches p s → Matches ('*' :: p) s
  | starMore {p s : Text} {c : Char} : Matches ('*' :: p) s → Matches ('*' :: p) (c :: s)
  | any {p s : Text} {c : Char} : Matches p s → Matches ('?' :: p) (c :: s)
  | bracket {p seg rest s : Text} {c : Char} : Bracket p seg rest → globSet seg c = true →
      Matches rest s → Matches ('[' :: p) (c :: s)
  | unclosed {p s : Text} : (∀ seg rest, ¬Bracket p seg rest) → Matches p s →
      Matches ('[' :: p) ('[' :: s)
  | lit {p s : Text} {c : Char} : c ≠ '*' → c ≠ '?' → c ≠ '[' → Matches p s →
      Matches (c :: p) (c :: s)

/-! ## `fnmatch_translate` -/

/-- A piece of a pattern. -/
inductive Piece
  | star
  | any
  | lit (c : Char)
  /-- what stands between brackets -/
  | seq (seg : Text)
  deriving DecidableEq

/-- Look for the end of a bracket : what stands in it, and what follows. -/
def closing (p : Text) : Option (Text × Text) :=
  let i := if p.head? = some '!' then 1 else 0
  let j := if p[i]? = some ']' then i + 1 else i
  match (p.drop j).dropWhile (· ≠ ']') with
  | [] => none
  | _ :: rest => some (p.take j ++ (p.drop j).takeWhile (· ≠ ']'), rest)

/-- The loop over a pattern. -/
def scan : ℕ → Text → List Piece
  | 0, _ => []
  | _, [] => []
  | n + 1, c :: p =>
    if c = '*' then .star :: scan n p
    else if c = '?' then .any :: scan n p
    else if c = '[' then
      match closing p with
      | none => .lit '[' :: scan n p
      | some (seg, rest) => .seq seg :: scan n rest
    else .lit c :: scan n p

/-- The pieces of a pattern. -/
def pieces (pat : Text) : List Piece :=
  scan pat.length pat

/-- A run of stars counts as one. -/
def joinStars : List Piece → List Piece
  | [] => []
  | x :: ps =>
    match joinStars ps with
    | [] => [x]
    | y :: qs => if x = .star ∧ y = .star then y :: qs else x :: y :: qs

/-- `regex::escape`, of one character. -/
def escape (c : Char) : Text :=
  if c ∈ metas then ['\\', c] else [c]

/-! ## The node -/

/-- The chunks between hyphens, where the first and what follows a range are not looked at. -/
def chunkLoop (cur : Text) (skip : ℕ) : Text → List Text
  | [] => [cur]
  | c :: s =>
    if skip = 0 ∧ c = '-' then cur :: chunkLoop [] 2 s
    else chunkLoop (cur ++ [c]) (skip - 1) s

/-- A hyphen at the end belongs to the last chunk. -/
def closeChunks : List Text → List Text
  | [] => []
  | a :: cs => if cs = [[]] then [a ++ ['-']] else a :: closeChunks cs

/-- Take out empty ranges, from the right. -/
def mergeRanges : List Text → List Text
  | [] => []
  | a :: cs =>
    match mergeRanges cs with
    | [] => [a]
    | b :: ds =>
      match a.getLast?, b.head? with
      | some x, some y => if y < x then (a.dropLast ++ b.tail) :: ds else a :: b :: ds
      | _, _ => a :: b :: ds

/-- Put a backslash before some characters. -/
def escapeThe (set : List Char) (s : Text) : Text :=
  s.flatMap fun c => if c ∈ set then ['\\', c] else [c]

/-- `escape_inner_brackets`. -/
def escapeInnerBrackets : Text → Text
  | [] => []
  | c :: s =>
    if c = '\\' then
      match s with
      | [] => [c]
      | d :: s' => c :: d :: escapeInnerBrackets s'
    else if c = '[' then '\\' :: '[' :: escapeInnerBrackets s
    else c :: escapeInnerBrackets s

/-- What stands in a class, before it is put in brackets. -/
def nodeStuff (seg : Text) : Text :=
  let stuff :=
    if '-' ∈ seg then
      let chunks := closeChunks (chunkLoop [] (if negated seg then 2 else 1) seg)
      ['-'].intercalate ((mergeRanges chunks).map fun s => escapeThe ['-'] (escapeThe ['\\'] s))
    else escapeThe ['\\'] seg
  escapeThe ['&', '~', '|'] stuff

/-- The class of the node. -/
def nodeClass (seg : Text) : Text :=
  match nodeStuff seg with
  | [] => "[^\\s\\S]"
  | c :: stuff =>
    if c = '!' ∧ stuff = [] then "."
    else
      let body := if c = '!' then '^' :: stuff
        else if c = '^' ∨ c = '[' then '\\' :: c :: stuff
        else c :: stuff
      '[' :: (escapeInnerBrackets body ++ [']'])

def nodePart : Piece → Text
  | .star => ".*?"
  | .any => "."
  | .lit c => escape c
  | .seq seg => nodeClass seg

/-- `fnmatch_translate` of the node. -/
def nodeTranslate (pat : Text) : Text :=
  "(?s)\\A(?:" ++ (joinStars (pieces pat)).flatMap nodePart ++ ")\\z"

/-- `fnmatchcase` of the node. -/
def nodeMatch (white : Chars) (name pat : Text) : Bool :=
  isMatch white (nodeTranslate pat) name

/-! ## The hub -/

/-- The class of the hub. -/
def hubClass (seg : Text) : Text :=
  let stuff := listed seg
  if stuff = [] then (if negated seg then "." else "(?!)")
  else '[' :: ((if negated seg then ['^'] else []) ++
    escapeThe ['\\', '[', ']', '^', '&', '~'] stuff ++ [']'])

def hubPart : Piece → Text
  | .star => ".*"
  | .any => "."
  | .lit c => escape c
  | .seq seg => hubClass seg

/-- `fnmatch_translate` of the hub. -/
def hubTranslate (pat : Text) : Text :=
  "(?s)^" ++ (joinStars (pieces pat)).flatMap hubPart ++ "$"

/-- `fnmatchcase` of the hub. -/
def hubMatch (white : Chars) (name pat : Text) : Bool :=
  isMatch white (hubTranslate pat) name

/-! ## Members and their characters -/

@[simp] theorem chars_nil : chars [] = .none := rfl

@[simp] theorem chars_cons (e : Elem) (es : List Elem) :
    chars (e :: es) = e.chars.union (chars es) := rfl

/-- The range has its ends the right way round. -/
def Elem.proper : Elem → Bool
  | .one _ => true
  | .span a b => a ≤ b

theorem chars_filter (es : List Elem) : chars (es.filter Elem.proper) = chars es := by
  induction es with
  | nil => rfl
  | cons e es ih =>
    cases he : e.proper with
    | true => rw [List.filter_cons_of_pos he, chars_cons, chars_cons, ih]
    | false =>
      have hnone : e.chars = .none := by
        cases e with
        | one c => simp [Elem.proper] at he
        | span a b =>
          funext c
          simp only [Elem.proper, decide_eq_false_iff_not, not_le] at he
          simp only [Elem.chars, Chars.span, Chars.none, Bool.and_eq_false_iff,
            decide_eq_false_iff_not, not_le]
          exact (lt_or_ge c a).imp id fun hac => he.trans_le hac
      rw [List.filter_cons_of_neg (by simp [he]), ih, chars_cons, hnone, Chars.none_union]

theorem elems_one (c : Char) : elems [c] = [.one c] := rfl

theorem elems_two (c d : Char) : elems [c, d] = [.one c, .one d] := rfl

theorem elems_span (c e : Char) (s : Text) : elems (c :: '-' :: e :: s) = .span c e :: elems s := by
  rw [elems.eq_def]
  simp

theorem elems_cons {c d : Char} (hd : d ≠ '-') (s : Text) :
    elems (c :: d :: s) = .one c :: elems (d :: s) := by
  rw [elems.eq_def]
  cases s with
  | nil => rfl
  | cons e s => simp only [if_neg hd]

/-! ## Chunks

The chunks of a bracket are its members cut in the middle of the ranges, and the ranges that are
taken out are those with their ends the wrong way round. -/

/-- A character before the first chunk. -/
def consHead (c : Char) : List Text → List Text
  | [] => [[c]]
  | h :: t => (c :: h) :: t

/-- The chunks that members make. -/
def chunksOf : List Elem → List Text
  | [] => [[]]
  | .one c :: es => consHead c (chunksOf es)
  | .span a b :: es => [a] :: consHead b (chunksOf es)

theorem consHead_chunkLoop (c : Char) (cur : Text) (k : ℕ) (s : Text) :
    chunkLoop (c :: cur) k s = consHead c (chunkLoop cur k s) := by
  induction s generalizing cur k with
  | nil => rfl
  | cons d s ih =>
    rw [chunkLoop, chunkLoop]
    split_ifs with h
    · rfl
    · exact ih (cur ++ [d]) (k - 1)

theorem chunkLoop_ne_nil (cur : Text) (k : ℕ) (s : Text) : chunkLoop cur k s ≠ [] := by
  induction s generalizing cur k with
  | nil => simp [chunkLoop]
  | cons d s ih =>
    rw [chunkLoop]
    split_ifs with h
    · exact List.cons_ne_nil _ _
    · exact ih _ _

theorem closeChunks_consHead {c : Char} {l : List Text} (hl : l ≠ []) :
    closeChunks (consHead c l) = consHead c (closeChunks l) := by
  cases l with
  | nil => exact absurd rfl hl
  | cons h t =>
    rw [consHead, closeChunks, closeChunks]
    split_ifs <;> rfl

/-- The loop cuts at the ranges. -/
theorem chunks_eq : ∀ (c : Char) (s : Text),
    closeChunks (chunkLoop [c] 0 s) = chunksOf (elems (c :: s))
  | c, [] => rfl
  | c, [d] => by
    by_cases hd : d = '-'
    · subst hd
      rfl
    · rw [elems_two, chunkLoop, if_neg (by simp [hd])]
      rfl
  | c, d :: e :: s => by
    by_cases hd : d = '-'
    · subst hd
      rw [elems_span, chunksOf, chunkLoop, if_pos ⟨rfl, rfl⟩, chunkLoop, if_neg (by simp)]
      cases s with
      | nil => rfl
      | cons f s =>
        have hne : chunkLoop [f] 0 s ≠ [] := chunkLoop_ne_nil _ _ _
        have hstep : chunkLoop ([] ++ [e]) (2 - 1) (f :: s) = consHead e (chunkLoop [f] 0 s) := by
          rw [chunkLoop, if_neg (by simp)]
          exact consHead_chunkLoop e [f] 0 s
        have hlast : consHead e (chunkLoop [f] 0 s) ≠ [[]] := by
          cases hl : chunkLoop [f] 0 s <;> simp [consHead]
        rw [hstep, closeChunks, if_neg hlast, closeChunks_consHead hne, chunks_eq f s]
    · rw [elems_cons hd, chunksOf, ← chunks_eq d (e :: s), chunkLoop, if_neg (by simp [hd])]
      rw [← closeChunks_consHead (chunkLoop_ne_nil _ _ _), ← consHead_chunkLoop]
      rfl

/-- The first chunk is empty only if there is no other. -/
theorem chunksOf_eq (es : List Elem) : ∃ h t, chunksOf es = h :: t ∧ (h = [] → t = []) := by
  cases es with
  | nil => exact ⟨[], [], rfl, fun _ => rfl⟩
  | cons e es =>
    cases e with
    | one c =>
      cases hl : chunksOf es with
      | nil => exact ⟨[c], [], by rw [chunksOf, hl]; rfl, by simp⟩
      | cons h t => exact ⟨c :: h, t, by rw [chunksOf, hl]; rfl, by simp⟩
    | span a b => exact ⟨[a], _, rfl, by simp⟩

theorem mergeRanges_consHead (c : Char) (es : List Elem) :
    mergeRanges (consHead c (chunksOf es)) = consHead c (mergeRanges (chunksOf es)) := by
  obtain ⟨h, t, hl, hfirst⟩ := chunksOf_eq es
  rw [hl, consHead, mergeRanges, mergeRanges]
  cases hm : mergeRanges t with
  | nil => rfl
  | cons b ds =>
    have hne : h ≠ [] := by
      intro h0
      rw [hfirst h0] at hm
      simp [mergeRanges] at hm
    obtain ⟨x, hx⟩ := Option.ne_none_iff_exists'.1 (mt List.getLast?_eq_none_iff.1 hne)
    have hx' : (c :: h).getLast? = some x := by
      rw [List.getLast?_cons, hx]
      rfl
    simp only [hx, hx']
    cases b.head? with
    | none => rfl
    | some y =>
      by_cases hyx : y < x
      · simp only [if_pos hyx, List.dropLast_cons_of_ne_nil hne]
        rfl
      · simp only [if_neg hyx]
        rfl

/-- The ranges that are taken out. -/
theorem mergeRanges_chunksOf (es : List Elem) :
    mergeRanges (chunksOf es) = chunksOf (es.filter Elem.proper) := by
  induction es with
  | nil => rfl
  | cons e es ih =>
    cases e with
    | one c =>
      rw [chunksOf, mergeRanges_consHead, ih, List.filter_cons_of_pos rfl, chunksOf]
    | span a b =>
      obtain ⟨h, t, hl, -⟩ := chunksOf_eq (es.filter Elem.proper)
      rw [chunksOf, mergeRanges, mergeRanges_consHead, ih, hl]
      simp only [consHead, List.getLast?_singleton, List.head?_cons]
      by_cases hba : b < a
      · rw [if_pos hba, List.filter_cons_of_neg (by simpa [Elem.proper] using hba), hl]
        rfl
      · rw [if_neg hba, List.filter_cons_of_pos (by simpa [Elem.proper] using hba), chunksOf, hl]
        rfl

/-! ## The text of the members -/

/-- Members as text, with a backslash before some characters. -/
def elemText (set : List Char) : Elem → Text
  | .one c => escapeThe set [c]
  | .span a b => escapeThe set [a] ++ '-' :: escapeThe set [b]

theorem escapeThe_cons (set : List Char) (c : Char) (s : Text) :
    escapeThe set (c :: s) = escapeThe set [c] ++ escapeThe set s := by
  simp [escapeThe]

theorem escapeThe_append (set : List Char) (s t : Text) :
    escapeThe set (s ++ t) = escapeThe set s ++ escapeThe set t := by
  simp [escapeThe]

theorem escapeThe_one (set : List Char) (c : Char) :
    escapeThe set [c] = if c ∈ set then ['\\', c] else [c] := by
  simp [escapeThe]

/-- Escapes made one after the other. -/
theorem escapeThe_comp {set set' : List Char} (h : '\\' ∉ set') (hdisj : ∀ c ∈ set, c ∉ set')
    (s : Text) : escapeThe set' (escapeThe set s) = escapeThe (set ++ set') s := by
  induction s with
  | nil => rfl
  | cons c s ih =>
    rw [escapeThe_cons, escapeThe_append, ih, escapeThe_cons (set ++ set')]
    congr 1
    rw [escapeThe_one, escapeThe_one]
    by_cases hc : c ∈ set
    · rw [if_pos hc, if_pos (List.mem_append_left _ hc), escapeThe_cons, escapeThe_one,
        escapeThe_one, if_neg h, if_neg (hdisj c hc)]
      rfl
    · rw [if_neg hc, escapeThe_one]
      simp [hc]

/-- The chunks joined with hyphens. -/
theorem intercalate_consHead (f : Text → Text) (g : Char → Text)
    (hf : ∀ c s, f (c :: s) = g c ++ f s) (c : Char) {l : List Text} (hl : l ≠ []) :
    ['-'].intercalate ((consHead c l).map f) = g c ++ ['-'].intercalate (l.map f) := by
  cases l with
  | nil => exact absurd rfl hl
  | cons h t =>
    cases t with
    | nil => simp [consHead, hf]
    | cons h' t => simp [consHead, hf, List.intercalate]

theorem consHead_ne_nil (c : Char) (l : List Text) : consHead c l ≠ [] := by
  cases l <;> simp [consHead]

theorem chunksOf_ne_nil (es : List Elem) : chunksOf es ≠ [] := by
  obtain ⟨h, t, hl, -⟩ := chunksOf_eq es
  simp [hl]

theorem join_chunksOf (set : List Char) (es : List Elem) :
    ['-'].intercalate ((chunksOf es).map (escapeThe set)) = es.flatMap (elemText set) := by
  have hcons (c : Char) {l : List Text} (hl : l ≠ []) :=
    intercalate_consHead (escapeThe set) (fun c => escapeThe set [c])
      (fun c s => escapeThe_cons set c s) c hl
  induction es with
  | nil => simp [chunksOf, escapeThe]
  | cons e es ih =>
    cases e with
    | one c => rw [chunksOf, hcons c (chunksOf_ne_nil es), ih, List.flatMap_cons, elemText]
    | span a b =>
      have hsplit (s : Text) {l : List Text} (hl : l ≠ []) :
          ['-'].intercalate (s :: l) = s ++ '-' :: ['-'].intercalate l := by
        cases l with
        | nil => exact absurd rfl hl
        | cons h t => simp [List.intercalate]
      have hne : (consHead b (chunksOf es)).map (escapeThe set) ≠ [] := by
        simp [consHead_ne_nil]
      rw [chunksOf, List.map_cons, hsplit _ hne, hcons b (chunksOf_ne_nil es), ih,
        List.flatMap_cons, elemText, List.append_assoc, List.cons_append]

theorem elems_of_no_hyphen {s : Text} (h : '-' ∉ s) : elems s = s.map .one := by
  induction s with
  | nil => rfl
  | cons c s ih =>
    cases s with
    | nil => rfl
    | cons d s =>
      have hd : d ≠ '-' := fun hd => h (by simp [hd])
      rw [elems_cons hd, ih fun hs => h (List.mem_cons_of_mem c hs)]
      rfl

/-- What the node escapes before it looks at the first character. -/
def escaped : List Char :=
  ['\\', '-', '&', '~', '|']

theorem escapeThe_hyphen_free {s : Text} (h : '-' ∉ s) :
    escapeThe ['\\'] s = escapeThe ['\\', '-'] s := by
  induction s with
  | nil => rfl
  | cons c s ih =>
    have hc : c ≠ '-' := fun hc => h (by simp [hc])
    rw [escapeThe_cons, ih fun hs => h (List.mem_cons_of_mem c hs),
      escapeThe_cons ['\\', '-'] c s, escapeThe_one, escapeThe_one]
    simp [hc]

/-- The members of a bracket that are ranges have their ends the right way round. -/
def members (seg : Text) : List Elem :=
  (elems (listed seg)).filter Elem.proper

theorem eq_cons_listed {seg : Text} (h : negated seg = true) : seg = '!' :: listed seg := by
  cases seg with
  | nil => simp [negated] at h
  | cons c s =>
    have hc : c = '!' := by simpa [negated] using h
    simp [listed, negated, hc]

theorem escapeThe_elemText (es : List Elem) :
    escapeThe ['&', '~', '|'] (es.flatMap (elemText ['\\', '-'])) =
      es.flatMap (elemText escaped) := by
  have hcomp (t : Text) : escapeThe ['&', '~', '|'] (escapeThe ['\\', '-'] t) =
      escapeThe escaped t := escapeThe_comp (by simp) (by simp) t
  induction es with
  | nil => rfl
  | cons e es ih =>
    rw [List.flatMap_cons, escapeThe_append, ih, List.flatMap_cons]
    congr 1
    cases e with
    | one c => exact hcomp [c]
    | span a b =>
      have hhyphen : escapeThe ['&', '~', '|'] ['-'] = ['-'] := by decide
      rw [elemText, escapeThe_append, hcomp, escapeThe_cons _ '-', hhyphen, hcomp]
      rfl

/-- The chunks of a bracket with hyphens. -/
theorem chunks_seg {seg : Text} (hseg : listed seg ≠ []) :
    mergeRanges (closeChunks (chunkLoop [] (if negated seg then 2 else 1) seg)) =
      if negated seg then consHead '!' (chunksOf (members seg)) else chunksOf (members seg) := by
  obtain ⟨c, s, hs⟩ := List.exists_cons_of_ne_nil hseg
  cases hneg : negated seg with
  | false =>
    have hlisted : seg = c :: s := by rw [← hs, listed, hneg]; rfl
    have hloop : chunkLoop [] 1 seg = chunkLoop [c] 0 s := by
      rw [hlisted, chunkLoop, if_neg (by simp)]
      rfl
    rw [if_neg Bool.false_ne_true, if_neg Bool.false_ne_true, hloop, chunks_eq,
      mergeRanges_chunksOf, ← hs, members]
  | true =>
    have hloop : chunkLoop [] 2 seg = consHead '!' (chunkLoop [c] 0 s) := by
      rw [eq_cons_listed hneg, hs, chunkLoop, if_neg (by simp), chunkLoop, if_neg (by simp)]
      exact consHead_chunkLoop '!' [c] 0 s
    rw [if_pos rfl, if_pos rfl, hloop, closeChunks_consHead (chunkLoop_ne_nil _ _ _), chunks_eq,
      mergeRanges_consHead, mergeRanges_chunksOf, ← hs, members]

/-- What the node puts in a class. -/
theorem nodeStuff_eq {seg : Text} (hseg : listed seg ≠ []) :
    nodeStuff seg = (if negated seg then ['!'] else []) ++
      (members seg).flatMap (elemText escaped) := by
  have hdouble : (fun t => escapeThe ['-'] (escapeThe ['\\'] t)) = escapeThe ['\\', '-'] :=
    funext fun t => escapeThe_comp (by simp) (by simp) t
  have hbang : escapeThe ['&', '~', '|'] (if negated seg then ['!'] else []) =
      if negated seg then ['!'] else [] := by
    split_ifs <;> decide
  -- what is escaped in all brackets comes last
  suffices hinner : (if '-' ∈ seg then ['-'].intercalate ((mergeRanges (closeChunks
      (chunkLoop [] (if negated seg then 2 else 1) seg))).map
        fun t => escapeThe ['-'] (escapeThe ['\\'] t)) else escapeThe ['\\'] seg) =
      (if negated seg then ['!'] else []) ++ (members seg).flatMap (elemText ['\\', '-']) by
    rw [nodeStuff]
    dsimp only
    rw [hinner, escapeThe_append, hbang, escapeThe_elemText]
  by_cases hmem : '-' ∈ seg
  · rw [if_pos hmem, chunks_seg hseg, hdouble]
    cases negated seg with
    | false => exact join_chunksOf _ _
    | true =>
      rw [if_pos rfl, if_pos rfl, intercalate_consHead _ (fun c => escapeThe ['\\', '-'] [c])
        (fun c t => escapeThe_cons _ c t) _ (chunksOf_ne_nil _), join_chunksOf]
      rfl
  · have hlisted : '-' ∉ listed seg := by
      rw [listed]
      split_ifs
      · exact fun h => hmem (List.mem_of_mem_tail h)
      · exact hmem
    have hmembers : members seg = (listed seg).map .one := by
      rw [members, elems_of_no_hyphen hlisted]
      exact List.filter_eq_self.2 (by simp [Elem.proper])
    have hflat : ((listed seg).map Elem.one).flatMap (elemText ['\\', '-']) =
        escapeThe ['\\', '-'] (listed seg) := by
      rw [List.flatMap_map]
      simp [elemText, escapeThe]
    rw [if_neg hmem, escapeThe_hyphen_free hmem, hmembers, hflat]
    cases hneg : negated seg with
    | false => rw [listed, hneg]; rfl
    | true =>
      nth_rewrite 1 [eq_cons_listed hneg]
      rw [escapeThe_cons]
      rfl

/-! ## The class of the node, read -/

/-- What has a backslash in a class of the node. -/
def inner : List Char :=
  escaped ++ ['[']

theorem escapeInnerBrackets_raw {c : Char} (hc : c ≠ '\\') (hc' : c ≠ '[') (t : Text) :
    escapeInnerBrackets (c :: t) = c :: escapeInnerBrackets t := by
  rw [escapeInnerBrackets.eq_def]
  simp only [if_neg hc, if_neg hc']

theorem escapeInnerBrackets_escape (c : Char) (t : Text) :
    escapeInnerBrackets ('\\' :: c :: t) = '\\' :: c :: escapeInnerBrackets t := by
  rw [escapeInnerBrackets.eq_def]
  simp

theorem escapeInnerBrackets_one (c : Char) (t : Text) :
    escapeInnerBrackets (escapeThe escaped [c] ++ t) =
      escapeThe inner [c] ++ escapeInnerBrackets t := by
  rw [escapeThe_one, escapeThe_one]
  by_cases hc : c ∈ escaped
  · have hc' : c ∈ inner := List.mem_append_left _ hc
    rw [if_pos hc, if_pos hc']
    exact escapeInnerBrackets_escape c t
  · rw [if_neg hc]
    by_cases hb : c = '['
    · subst hb
      rw [if_pos (by decide), escapeInnerBrackets.eq_def]
      simp
    · have hc' : c ≠ '\\' := fun h => hc (by simp [h, escaped])
      rw [if_neg (by simp [inner, hc, hb])]
      exact escapeInnerBrackets_raw hc' hb t

theorem escapeInnerBrackets_elems (es : List Elem) :
    escapeInnerBrackets (es.flatMap (elemText escaped)) = es.flatMap (elemText inner) := by
  have hnil : escapeInnerBrackets [] = [] := rfl
  induction es with
  | nil => rfl
  | cons e es ih =>
    cases e with
    | one c => rw [List.flatMap_cons, List.flatMap_cons, elemText, escapeInnerBrackets_one, ih,
        elemText]
    | span a b =>
      rw [List.flatMap_cons, List.flatMap_cons, elemText, elemText, List.append_assoc,
        escapeInnerBrackets_one, List.cons_append,
        escapeInnerBrackets_raw (by decide) (by decide), escapeInnerBrackets_one, ih,
        List.append_assoc, List.cons_append]

/-- A member as tokens, after the token of its first character. -/
def elemToks (x : Tok) : Elem → List Tok
  | .one _ => [x]
  | .span _ b => [x, .raw '-', escTok inner b]

/-- The first character of a member. -/
def Elem.start : Elem → Char
  | .one c => c
  | .span a _ => a

/-- The tokens of a member. -/
def Elem.toks (e : Elem) : List Tok :=
  elemToks (escTok inner e.start) e

theorem lexes_escapeThe (set : List Char) (hset : '\\' ∈ set) (c : Char) :
    Lexes (escapeThe set [c]) [escTok set c] := by
  rw [escapeThe_one, escTok]
  by_cases hc : c ∈ set
  · rw [if_pos hc, if_pos hc]
    exact .escape c
  · have hc' : c ≠ '\\' := fun h => hc (h ▸ hset)
    rw [if_neg hc, if_neg hc]
    exact .raw hc'

/-- What follows the first character of a member. -/
def Elem.rest : Elem → Text
  | .one _ => []
  | .span _ b => '-' :: escapeThe inner [b]

theorem lexes_rest {x : Tok} {s : Text} (hs : Lexes s [x]) (e : Elem) :
    Lexes (s ++ e.rest) (elemToks x e) := by
  have hinner : '\\' ∈ inner := by decide
  cases e with
  | one c => exact hs.append .nil
  | span a b => exact hs.append (.cons (by decide) (lexes_escapeThe inner hinner b))

theorem lexes_elems (es : List Elem) :
    Lexes (es.flatMap (elemText inner)) (es.flatMap Elem.toks) := by
  refine Lexes.flatMap fun e _ => ?_
  have hinner : '\\' ∈ inner := by decide
  have htext : elemText inner e = escapeThe inner [e.start] ++ e.rest := by
    cases e with
    | one c => exact (List.append_nil _).symm
    | span a b => rfl
  rw [htext]
  exact lexes_rest (lexes_escapeThe inner hinner _) e

/-- A token of a class that stands for a character. -/
structure TokOf (x : Tok) (c : Char) : Prop where
  prim : ∀ white, x.prim white = some (.lit c)
  hyphen : x ≠ .raw '-'
  bracket : x ≠ .raw '['
  setOp : ∀ y, setOp x y = none
  close : x = .raw ']' ↔ c = ']'

theorem tokOf_escTok (c : Char) : TokOf (escTok inner c) c := by
  rw [escTok]
  by_cases hc : c ∈ inner
  · rw [if_pos hc]
    refine ⟨fun white => ?_, by simp, by simp, fun y => by simp [RegexText.setOp], ?_⟩
    · have hmeta : c ∈ metas := by
        have hall : (inner.all fun c => decide (c ∈ metas)) = true := by decide
        exact of_decide_eq_true (List.all_eq_true.1 hall c hc)
      simp [Tok.prim, hmeta]
    · have hclose : c ≠ ']' := by
        rintro rfl
        exact absurd hc (by decide)
      simp [hclose]
  · have hne {d : Char} (hd : d ∈ inner) : c ≠ d := fun h => hc (h ▸ hd)
    rw [if_neg hc]
    refine ⟨fun white => ?_, ?_, ?_, fun y => ?_, by simp⟩
    · simp [Tok.prim, hne (d := '\\') (by decide)]
    · simpa using hne (d := '-') (by decide)
    · simpa using hne (d := '[') (by decide)
    · simp [RegexText.setOp, hne (d := '&') (by decide), hne (d := '-') (by decide),
        hne (d := '~') (by decide)]

/-- A caret that is not to negate. -/
theorem tokOf_caret : TokOf (.esc '^') '^' :=
  ⟨fun _ => rfl, by simp, by simp, fun y => by simp [RegexText.setOp], by simp⟩

/-- What follows the first character of a member has no closing bracket. -/
def Elem.Tail : Elem → Prop
  | .one _ => True
  | .span a b => b ≠ ']' ∧ a ≤ b

/-- A member that does not start with a closing bracket either. -/
def Elem.Plain (e : Elem) : Prop :=
  e.start ≠ ']' ∧ e.Tail

section

variable {white : Chars} {l : Left} {u : Chars} {x y : Tok} {e : Elem} {ts : List Tok}

/-- Read one member. -/
theorem classBody_elem (hx : TokOf x e.start) (hstart : e.start ≠ ']') (he : e.Tail)
    (hy : y ≠ .raw '-') : classBody white l u (elemToks x e ++ y :: ts) =
      classBody white l (u.union e.chars) (y :: ts) := by
  have hclose : x ≠ .raw ']' := fun h => hstart (hx.close.1 h)
  cases e with
  | one c => exact classBody_item hclose hx.bracket (hx.setOp y) (hx.prim white) hy
  | span a b =>
    have hb := tokOf_escTok b
    have hz : ¬(escTok inner b = .raw ']' ∨ escTok inner b = .raw '-') := by
      rintro (h | h)
      · exact he.1 (hb.close.1 h)
      · exact hb.hyphen h
    have hrange := classBody_range (l := l) (u := u) (y :: ts) hclose hx.bracket
      (hx.setOp _) (hx.prim white) hz (hb.prim white)
    have hle : (Elem.span a b).start ≤ b := he.2
    rw [range, if_pos hle] at hrange
    exact hrange

/-- What follows members does not start with a hyphen. -/
theorem elems_append_cons (es : List Elem) (ts : List Tok) :
    ∃ y ts', es.flatMap Elem.toks ++ .raw ']' :: ts = y :: ts' ∧ y ≠ .raw '-' := by
  cases es with
  | nil => exact ⟨.raw ']', ts, rfl, by simp⟩
  | cons e es =>
    have hhyphen := (tokOf_escTok e.start).hyphen
    cases e with
    | one c => exact ⟨_, _, rfl, hhyphen⟩
    | span a b => exact ⟨_, _, rfl, hhyphen⟩

/-- Read members up to the end of the class. -/
theorem classBody_elems (white : Chars) (ts : List Tok) {es : List Elem} (hes : ∀ e ∈ es, e.Plain) :
    classBody white l u (es.flatMap Elem.toks ++ .raw ']' :: ts) =
      some (l.close (u.union (chars es)), ts) := by
  induction es generalizing u with
  | nil => rw [List.flatMap_nil, List.nil_append, classBody_close, chars_nil, Chars.union_none]
  | cons e es ih =>
    obtain ⟨y, ts', heq, hy⟩ := elems_append_cons es ts
    obtain ⟨hstart, htail⟩ := hes e List.mem_cons_self
    rw [List.flatMap_cons, List.append_assoc, heq, Elem.toks,
      classBody_elem (tokOf_escTok _) hstart htail hy, ← heq,
      ih fun e' he' => hes e' (List.mem_cons_of_mem e he'), Chars.union_assoc, chars_cons]

end

/-- The node's reading of members : a bracket at the start stands for itself, and the hyphen
after it does too. -/
def bracketSet : List Elem → Chars
  | .span a b :: es =>
    if a = ']' then (Chars.one ']').union ((Chars.one '-').union ((Chars.one b).union (chars es)))
    else chars (.span a b :: es)
  | es => chars es

/-- The members may start with a closing bracket, and hold no other. -/
def LeadOk : List Elem → Prop
  | [] => True
  | e :: es => e.Tail ∧ ∀ e' ∈ es, e'.Plain

/-- Read a class from its first member on. -/
theorem classLead_elems (white : Chars) {x : Tok} {e : Elem} {es : List Elem} (ts : List Tok)
    (hx : TokOf x e.start) (hes : LeadOk (e :: es)) :
    classLead white (elemToks x e ++ (es.flatMap Elem.toks ++ .raw ']' :: ts)) =
      some (bracketSet (e :: es), ts) := by
  obtain ⟨htail, hrest⟩ := hes
  obtain ⟨y, ts', heq, hy⟩ := elems_append_cons es ts
  have hcons : ∃ r, elemToks x e ++ (es.flatMap Elem.toks ++ .raw ']' :: ts) = x :: r := by
    cases e <;> exact ⟨_, rfl⟩
  obtain ⟨r, hr⟩ := hcons
  have hlead : classLead white (x :: r) =
      if x = .raw ']' then classBody white none (.one ']') r
      else classBody white none .none (x :: r) := by
    rw [classLead]
    simp only [List.head?_cons, Option.some.injEq, if_neg hx.hyphen]
  rw [hr, hlead]
  by_cases hclose : e.start = ']'
  · rw [if_pos (hx.close.2 hclose)]
    cases e with
    | one c =>
      obtain rfl : c = ']' := hclose
      obtain rfl : es.flatMap Elem.toks ++ .raw ']' :: ts = r := (List.cons.inj hr).2
      rw [classBody_elems white _ hrest]
      rfl
    | span a b =>
      obtain rfl : a = ']' := hclose
      obtain rfl : .raw '-' :: escTok inner b :: (es.flatMap Elem.toks ++ .raw ']' :: ts) = r :=
        (List.cons.inj hr).2
      have hb := tokOf_escTok b
      have hop : setOp (.raw '-') (escTok inner b) = none := by
        simp [setOp, hb.hyphen]
      have hplain : ∀ e ∈ Elem.one b :: es, e.Plain := by
        intro e he
        rcases List.mem_cons.1 he with rfl | he
        · exact ⟨htail.1, trivial⟩
        · exact hrest e he
      rw [classBody_item (by simp) (by simp) hop (a := .lit '-') rfl hb.hyphen]
      have hread := classBody_elems white (l := none) (u := (Chars.one ']').union (.one '-')) ts hplain
      rw [Chars.union_assoc] at hread
      exact hread
  · rw [if_neg fun h => hclose (hx.close.1 h), ← hr, heq,
      classBody_elem hx hclose htail hy, ← heq, classBody_elems white _ hrest, Chars.none_union]
    cases e with
    | one c => rfl
    | span a b =>
      have ha : a ≠ ']' := hclose
      rw [bracketSet, if_neg ha]
      rfl

/-- The node's reading of the members of a bracket that is not negated : where the ranges before
a `!` have been taken out, it negates the class. -/
def nodeSetOf : List Elem → Chars
  | [] => .none
  | .one c :: es => if c = '!' then (chars es).compl else bracketSet (.one c :: es)
  | .span a b :: es =>
    if a = '!' then ((Chars.one '-').union ((Chars.one b).union (chars es))).compl
    else bracketSet (.span a b :: es)

/-- The characters of a class of the node. -/
def nodeSet (seg : Text) : Chars :=
  if negated seg then (bracketSet (members seg)).compl else nodeSetOf (members seg)

/-- A bracket that has been closed at the first chance. -/
def Closed (seg : Text) : Prop :=
  ∃ x t, listed seg = x :: t ∧ ']' ∉ t

theorem mem_elems {s : Text} {e : Elem} (he : e ∈ elems s) :
    e.start ∈ s ∧ ∀ a b, e = .span a b → b ∈ s := by
  fun_induction elems s with
  | case1 => simp at he
  | case2 c =>
    obtain rfl := List.mem_singleton.1 he
    exact ⟨List.mem_singleton_self c, by simp⟩
  | case3 c d ih =>
    rcases List.mem_cons.1 he with rfl | he
    · exact ⟨List.mem_cons_self, by simp⟩
    · exact ⟨List.mem_cons_of_mem c (ih he).1, fun a b h => List.mem_cons_of_mem c ((ih he).2 a b h)⟩
  | case4 c e' s ih =>
    rcases List.mem_cons.1 he with rfl | he
    · refine ⟨List.mem_cons_self, fun a b h => ?_⟩
      obtain ⟨-, rfl⟩ := Elem.span.inj h
      simp
    · exact ⟨by simp [(ih he).1], fun a b h => by simp [(ih he).2 a b h]⟩
  | case5 c d e' s hd ih =>
    rcases List.mem_cons.1 he with rfl | he
    · exact ⟨List.mem_cons_self, by simp⟩
    · exact ⟨List.mem_cons_of_mem c (ih he).1, fun a b h => List.mem_cons_of_mem c ((ih he).2 a b h)⟩

theorem plain_of_mem {s : Text} (hs : ']' ∉ s) {e : Elem} (he : e ∈ elems s)
    (hproper : e.proper = true) : e.Plain := by
  obtain ⟨hstart, hend⟩ := mem_elems he
  refine ⟨fun h => hs (h ▸ hstart), ?_⟩
  cases e with
  | one c => trivial
  | span a b => exact ⟨fun h => hs (h ▸ hend a b rfl), by simpa [Elem.proper] using hproper⟩

/-- The first member, and the others from what follows. -/
theorem elems_eq_cons (x : Char) (t : Text) : ∃ e s, elems (x :: t) = e :: elems s ∧ s <:+ t ∧
    e.start = x ∧ ∀ a b, e = .span a b → b ∈ t := by
  cases t with
  | nil => exact ⟨.one x, [], rfl, List.suffix_refl _, rfl, by simp⟩
  | cons d t =>
    by_cases hd : d = '-'
    · subst hd
      cases t with
      | nil => exact ⟨.one x, ['-'], rfl, List.suffix_refl _, rfl, by simp⟩
      | cons b t =>
        refine ⟨.span x b, t, elems_span x b t, ⟨['-', b], rfl⟩, rfl, fun a b' h => ?_⟩
        obtain ⟨-, rfl⟩ := Elem.span.inj h
        simp
    · exact ⟨.one x, d :: t, elems_cons hd t, List.suffix_refl _, rfl, by simp⟩

theorem leadOk_members {seg : Text} (hseg : Closed seg) : LeadOk (members seg) := by
  obtain ⟨x, t, hlisted, ht⟩ := hseg
  obtain ⟨e, s, helems, hsuffix, -, hend⟩ := elems_eq_cons x t
  have hplain : ∀ e' ∈ (elems s).filter Elem.proper, e'.Plain := by
    intro e' he'
    obtain ⟨hmem, hproper⟩ := List.mem_filter.1 he'
    exact plain_of_mem (fun h => ht (hsuffix.subset h)) hmem hproper
  rw [members, hlisted, helems]
  by_cases hproper : e.proper = true
  · rw [List.filter_cons_of_pos hproper]
    refine ⟨?_, hplain⟩
    cases e with
    | one c => trivial
    | span a b => exact ⟨fun h => ht (h ▸ hend a b rfl), by simpa [Elem.proper] using hproper⟩
  · rw [List.filter_cons_of_neg hproper]
    cases hl : (elems s).filter Elem.proper with
    | nil => trivial
    | cons e' es =>
      rw [hl] at hplain
      exact ⟨(hplain e' List.mem_cons_self).2, fun e'' he'' => hplain e'' (List.mem_cons_of_mem _ he'')⟩

/-- A class with a caret that negates. -/
theorem reads_negated (white : Chars) {es : List Elem} (hes : LeadOk es) (hne : es ≠ []) :
    Reads white ('[' :: '^' :: (es.flatMap (elemText inner) ++ [']']))
      (some (.one (bracketSet es).compl)) := by
  have hlex : Lexes ('^' :: (es.flatMap (elemText inner) ++ [']']))
      (.raw '^' :: (es.flatMap Elem.toks ++ [Tok.raw ']'])) :=
    .cons (by decide) ((lexes_elems es).append (.raw (by decide)))
  refine reads_class (p := some _) hlex fun r => ?_
  obtain ⟨e, es, rfl⟩ := List.exists_cons_of_ne_nil hne
  have hread := classLead_elems white r (tokOf_escTok e.start) hes
  rw [List.cons_append, readClass, if_pos rfl, List.append_assoc, List.flatMap_cons,
    List.append_assoc, List.singleton_append, Elem.toks, hread]
  rfl

/-- A class whose first character may be a caret that does not negate. -/
theorem reads_plain {white : Chars} {x : Tok} {s : Text} {e : Elem} {es : List Elem}
    (hs : Lexes s [x]) (hx : TokOf x e.start) (hcaret : x ≠ .raw '^') (hes : LeadOk (e :: es)) :
    Reads white ('[' :: (s ++ (e.rest ++ (es.flatMap (elemText inner) ++ [']']))))
      (some (.one (bracketSet (e :: es)))) := by
  have hlex : Lexes (s ++ (e.rest ++ (es.flatMap (elemText inner) ++ [']'])))
      (elemToks x e ++ (es.flatMap Elem.toks ++ [Tok.raw ']'])) := by
    rw [← List.append_assoc]
    exact (lexes_rest hs e).append ((lexes_elems es).append (.raw (by decide)))
  refine reads_class (p := some _) hlex fun r => ?_
  have hread := classLead_elems white r hx hes
  have hcons : ∃ l, elemToks x e ++ (es.flatMap Elem.toks ++ [Tok.raw ']']) ++ r = x :: l := by
    cases e <;> exact ⟨_, rfl⟩
  obtain ⟨l, hl⟩ := hcons
  rw [hl, readClass, if_neg hcaret, ← hl, List.append_assoc, List.append_assoc,
    List.singleton_append, hread]
  rfl

/-- A class that holds nothing. -/
theorem reads_nothing (white : Chars) :
    Reads white ['[', '^', '\\', 's', '\\', 'S', ']'] (some (.one .none)) := by
  have hlex : Lexes ['^', '\\', 's', '\\', 'S', ']'] [.raw '^', .esc 's', .esc 'S', .raw ']'] :=
    .cons (by decide) (.cons_escape _ (.cons_escape _ (.raw (by decide))))
  refine reads_class (p := some .none) hlex fun r => ?_
  have hlead : classLead white (.esc 's' :: .esc 'S' :: .raw ']' :: r) =
      some ((Chars.none.union white).union white.compl, r) := by
    rw [classLead]
    simp only [List.head?_cons, Option.some.injEq, reduceCtorEq, if_false]
    rw [classBody_item (a := .perl white) (by simp) (by simp) (by decide) rfl (by simp),
      classBody_item (a := .perl white.compl) (by simp) (by simp) (by decide) rfl (by simp),
      classBody_close]
    rfl
  have hnone : ((Chars.none.union white).union white.compl).compl = .none := by
    funext c
    simp [Chars.compl, Chars.union, Chars.none]
  rw [List.cons_append, readClass, if_pos rfl]
  simp only [List.cons_append, List.nil_append, hlead, Option.map_some, hnone]

/-- A member after its first character, before brackets are escaped. -/
def Elem.more : Elem → Text
  | .one _ => []
  | .span _ b => '-' :: escapeThe escaped [b]

theorem elemText_eq (e : Elem) : elemText escaped e = escapeThe escaped [e.start] ++ e.more := by
  cases e with
  | one c => exact (List.append_nil _).symm
  | span a b => rfl

theorem elemText_ne_nil (e : Elem) : elemText escaped e ≠ [] := by
  rw [elemText_eq, escapeThe_one]
  split_ifs <;> simp

theorem escapeInnerBrackets_more (e : Elem) (t : Text) :
    escapeInnerBrackets (e.more ++ t) = e.rest ++ escapeInnerBrackets t := by
  cases e with
  | one c => rfl
  | span a b =>
    rw [Elem.more, List.cons_append, escapeInnerBrackets_raw (by decide) (by decide),
      escapeInnerBrackets_one]
    rfl

/-- The class of a bracket whose first member does not start with `!`. -/
theorem reads_first {white : Chars} {e : Elem} {es : List Elem} (hes : LeadOk (e :: es))
    (hbang : e.start ≠ '!') {c : Char} {stuff : Text}
    (hstuff : (e :: es).flatMap (elemText escaped) = c :: stuff) :
    c ≠ '!' ∧ Reads white ('[' :: (escapeInnerBrackets
      (if c = '^' ∨ c = '[' then '\\' :: c :: stuff else c :: stuff) ++ [']']))
        (some (.one (bracketSet (e :: es)))) := by
  have hrest : escapeInnerBrackets (e.more ++ es.flatMap (elemText escaped)) =
      e.rest ++ es.flatMap (elemText inner) := by
    rw [escapeInnerBrackets_more, escapeInnerBrackets_elems]
  have htext (s : Text) : '[' :: (s ++ (e.rest ++ es.flatMap (elemText inner)) ++ [']']) =
      '[' :: (s ++ (e.rest ++ (es.flatMap (elemText inner) ++ [']']))) := by
    simp
  rw [List.flatMap_cons, elemText_eq, List.append_assoc, escapeThe_one] at hstuff
  by_cases hesc : e.start ∈ escaped
  · rw [if_pos hesc, List.cons_append, List.singleton_append] at hstuff
    obtain ⟨rfl, rfl⟩ := List.cons.inj hstuff
    have hinner : e.start ∈ inner := List.mem_append_left _ hesc
    have htok : TokOf (.esc e.start) e.start := by
      have h := tokOf_escTok e.start
      rwa [escTok, if_pos hinner] at h
    refine ⟨by decide, ?_⟩
    rw [if_neg (by decide), escapeInnerBrackets_escape, hrest]
    exact htext ['\\', e.start] ▸ reads_plain (.escape e.start) htok (by simp) hes
  · rw [if_neg hesc, List.singleton_append] at hstuff
    obtain ⟨hc, rfl⟩ := List.cons.inj hstuff
    subst hc
    refine ⟨hbang, ?_⟩
    by_cases hcaret : e.start = '^'
    · rw [if_pos (.inl hcaret), escapeInnerBrackets_escape, hrest]
      exact htext ['\\', e.start] ▸
        reads_plain (.escape e.start) (hcaret ▸ tokOf_caret) (by simp) hes
    · by_cases hopen : e.start = '['
      · have htok : TokOf (.esc e.start) e.start := by
          have h := tokOf_escTok e.start
          rwa [escTok, if_pos (by rw [hopen]; decide)] at h
        rw [if_pos (.inr hopen), escapeInnerBrackets_escape, hrest]
        exact htext ['\\', e.start] ▸ reads_plain (.escape e.start) htok (by simp) hes
      · have hback : e.start ≠ '\\' := fun h => hesc (by simp [h, escaped])
        have htok : TokOf (.raw e.start) e.start := by
          have h := tokOf_escTok e.start
          rwa [escTok, if_neg (by simp [inner, hesc, hopen])] at h
        rw [if_neg (by simp [hcaret, hopen]), escapeInnerBrackets_raw hback hopen, hrest]
        exact htext [e.start] ▸ reads_plain (.raw hback) htok (by simpa using hcaret) hes

theorem bracketSet_of_plain {es : List Elem} (hes : ∀ e ∈ es, e.Plain) :
    bracketSet es = chars es := by
  cases es with
  | nil => rfl
  | cons e es =>
    cases e with
    | one c => rfl
    | span a b =>
      have ha : a ≠ ']' := (hes _ List.mem_cons_self).1
      rw [bracketSet, if_neg ha]

theorem leadOk_of_plain {es : List Elem} (hes : ∀ e ∈ es, e.Plain) : LeadOk es := by
  cases es with
  | nil => trivial
  | cons e es =>
    exact ⟨(hes e List.mem_cons_self).2, fun e' he' => hes e' (List.mem_cons_of_mem e he')⟩

/-- A hyphen after the caret stands for itself. -/
theorem reads_hyphen (white : Chars) {b : Char} {es : List Elem} (hb : b ≠ ']')
    (hes : ∀ e ∈ es, e.Plain) :
    Reads white ('[' :: '^' :: '-' :: ((Elem.one b :: es).flatMap (elemText inner) ++ [']']))
      (some (.one ((Chars.one '-').union (chars (.one b :: es))).compl)) := by
  have hlex : Lexes ('^' :: '-' :: ((Elem.one b :: es).flatMap (elemText inner) ++ [']']))
      (.raw '^' :: .raw '-' :: ((Elem.one b :: es).flatMap Elem.toks ++ [Tok.raw ']'])) :=
    .cons (by decide) (.cons (by decide) ((lexes_elems _).append (.raw (by decide))))
  have hplain : ∀ e ∈ Elem.one b :: es, e.Plain := by
    intro e he
    rcases List.mem_cons.1 he with rfl | he
    · exact ⟨hb, trivial⟩
    · exact hes e he
  refine reads_class (p := some _) hlex fun r => ?_
  have hdrop : ((Elem.one b :: es).flatMap Elem.toks ++ .raw ']' :: r).dropWhile
      (· = Tok.raw '-') = (Elem.one b :: es).flatMap Elem.toks ++ .raw ']' :: r :=
    List.dropWhile_cons_of_neg (by simpa using (tokOf_escTok (Elem.one b).start).hyphen)
  have hlead : classLead white (.raw '-' :: ((Elem.one b :: es).flatMap Elem.toks ++ .raw ']' :: r))
      = some ((Chars.one '-').union (chars (.one b :: es)), r) := by
    rw [classLead]
    simp only [List.head?_cons, if_true]
    rw [List.dropWhile_cons_of_pos (by simp), hdrop, classBody_elems white _ hplain]
    rfl
  rw [List.cons_append, readClass, if_pos rfl, List.cons_append, List.append_assoc,
    List.singleton_append, hlead]
  rfl

/-- The class of a bracket whose first member starts with `!`. -/
theorem reads_bang {white : Chars} {e : Elem} {es : List Elem} (hes : LeadOk (e :: es))
    (hbang : e.start = '!') :
    Reads white (match (e :: es).flatMap (elemText escaped) with
      | [] => "[^\\s\\S]"
      | c :: stuff =>
        if c = '!' ∧ stuff = [] then "."
        else
          let body := if c = '!' then '^' :: stuff
            else if c = '^' ∨ c = '[' then '\\' :: c :: stuff
            else c :: stuff
          '[' :: (escapeInnerBrackets body ++ [']'])) (some (.one (nodeSetOf (e :: es)))) := by
  obtain ⟨htail, hrest⟩ := hes
  have htext : (e :: es).flatMap (elemText escaped) =
      '!' :: (e.more ++ es.flatMap (elemText escaped)) := by
    rw [List.flatMap_cons, elemText_eq, hbang, escapeThe_one, if_neg (by decide)]
    simp
  rw [htext]
  dsimp only
  rw [if_pos rfl]
  cases e with
  | one c =>
    obtain rfl : c = '!' := hbang
    rw [nodeSetOf, if_pos rfl]
    cases es with
    | nil => exact reads_dot
    | cons e' es =>
      have hne : (e' :: es).flatMap (elemText escaped) ≠ [] := by simp [elemText_ne_nil]
      have hreads := reads_negated white (leadOk_of_plain hrest) (by simp)
      rw [bracketSet_of_plain hrest] at hreads
      rw [if_neg fun h => hne h.2, Elem.more, List.nil_append,
        escapeInnerBrackets_raw (by decide) (by decide), escapeInnerBrackets_elems]
      exact hreads
  | span a b =>
    obtain rfl : a = '!' := hbang
    have hreads := reads_hyphen white htail.1 hrest
    rw [nodeSetOf, if_pos rfl, if_neg (by simp [Elem.more]),
      escapeInnerBrackets_raw (by decide) (by decide), escapeInnerBrackets_more,
      escapeInnerBrackets_elems]
    rw [List.flatMap_cons, elemText] at hreads
    exact hreads

/-- The class of the node, read. -/
theorem reads_nodeClass {white : Chars} {seg : Text} (hseg : Closed seg) :
    Reads white (nodeClass seg) (some (.one (nodeSet seg))) := by
  have hlisted : listed seg ≠ [] := by
    obtain ⟨x, t, h, -⟩ := hseg
    simp [h]
  have hlead := leadOk_members hseg
  rw [nodeClass, nodeStuff_eq hlisted, nodeSet]
  cases negated seg with
  | true =>
    rw [if_pos rfl, if_pos rfl, List.singleton_append]
    dsimp only
    cases hm : members seg with
    | nil => exact reads_dot
    | cons e es =>
      have hne : (e :: es).flatMap (elemText escaped) ≠ [] := by simp [elemText_ne_nil]
      rw [hm] at hlead
      rw [if_neg fun h => hne h.2, if_pos rfl, escapeInnerBrackets_raw (by decide) (by decide),
        escapeInnerBrackets_elems, List.cons_append]
      exact reads_negated white hlead (by simp)
  | false =>
    rw [if_neg Bool.false_ne_true, if_neg Bool.false_ne_true, List.nil_append]
    cases hm : members seg with
    | nil => exact reads_nothing white
    | cons e es =>
      rw [hm] at hlead
      by_cases hbang : e.start = '!'
      · exact reads_bang hlead hbang
      · obtain ⟨c, stuff, hstuff⟩ : ∃ c stuff,
            (e :: es).flatMap (elemText escaped) = c :: stuff :=
          List.exists_cons_of_ne_nil (by simp [elemText_ne_nil])
        obtain ⟨hc, hreads⟩ := reads_first hlead hbang hstuff
        have hset : nodeSetOf (e :: es) = bracketSet (e :: es) := by
          cases e with
          | one a => exact if_neg hbang
          | span a b => exact if_neg hbang
        rw [hstuff, hset]
        dsimp only
        rw [if_neg fun h => hc h.1, if_neg hc]
        exact hreads

/-! ## The class of the hub, read -/

/-- The characters between brackets where hyphens have the meaning they have in a class : two of
them are the difference of what stands before and after. -/
def hyphenBody (l : Left) (u : Chars) : Text → Option Chars
  | [] => some (l.close u)
  | c :: s =>
    match s with
    | [] => some (l.close (u.union (.one c)))
    | d :: s' =>
      if c == '-' && d == '-' then hyphenBody (some (l.close u, .diff)) .none s'
      else if d == '-' then
        match s' with
        | [] => hyphenBody l (u.union (.one c)) [d]
        | e :: s'' =>
          if e == '-' then hyphenBody l (u.union (.one c)) (d :: e :: s'')
          else if c ≤ e then hyphenBody l (u.union (.span c e)) s''
          else none
      else hyphenBody l (u.union (.one c)) (d :: s')

/-- The same, where hyphens at the start stand for themselves. -/
def hyphenSet (s : Text) : Option Chars :=
  if s.head? = some '-' then hyphenBody none (.one '-') (s.dropWhile (· = '-'))
  else hyphenBody none .none s

/-- The characters of a class of the hub, if it is one. -/
def hubSet (seg : Text) : Option Chars :=
  (hyphenSet (listed seg)).map fun p => if negated seg then p.compl else p

/-- What has a backslash in a class of the hub. -/
def hubEscaped : List Char :=
  ['\\', '[', ']', '^', '&', '~']

/-- A token of the hub's class that stands for a character. -/
theorem hubTok_ne (c : Char) : escTok hubEscaped c ≠ .raw ']' ∧ escTok hubEscaped c ≠ .raw '[' ∧
    escTok hubEscaped c ≠ .raw '^' ∧ (escTok hubEscaped c = .raw '-' ↔ c = '-') := by
  rw [escTok]
  by_cases hc : c ∈ hubEscaped
  · rw [if_pos hc]
    refine ⟨by simp, by simp, by simp, ?_⟩
    have hne : c ≠ '-' := by
      rintro rfl
      exact absurd hc (by decide)
    simp [hne]
  · have hne {d : Char} (hd : d ∈ hubEscaped) : c ≠ d := fun h => hc (h ▸ hd)
    rw [if_neg hc]
    refine ⟨?_, ?_, ?_, by simp⟩
    · simpa using hne (d := ']') (by decide)
    · simpa using hne (d := '[') (by decide)
    · simpa using hne (d := '^') (by decide)

theorem hubTok_prim (white : Chars) (c : Char) :
    (escTok hubEscaped c).prim white = some (.lit c) := by
  rw [escTok]
  by_cases hc : c ∈ hubEscaped
  · have hmeta : c ∈ metas := by
      have hall : (hubEscaped.all fun c => decide (c ∈ metas)) = true := by decide
      exact of_decide_eq_true (List.all_eq_true.1 hall c hc)
    rw [if_pos hc]
    simp [Tok.prim, hmeta]
  · have hne : c ≠ '\\' := fun h => hc (by simp [h, hubEscaped])
    rw [if_neg hc]
    simp [Tok.prim, hne]

theorem hubTok_setOp (c d : Char) : setOp (escTok hubEscaped c) (escTok hubEscaped d) =
    if c = '-' ∧ d = '-' then some .diff else none := by
  have hamp (c : Char) : escTok hubEscaped c ≠ .raw '&' := by
    rw [escTok]
    by_cases hc : c ∈ hubEscaped
    · simp [hc]
    · have hne : c ≠ '&' := fun h => hc (by simp [h, hubEscaped])
      simp [hc, hne]
  have htilde (c : Char) : escTok hubEscaped c ≠ .raw '~' := by
    rw [escTok]
    by_cases hc : c ∈ hubEscaped
    · simp [hc]
    · have hne : c ≠ '~' := fun h => hc (by simp [h, hubEscaped])
      simp [hc, hne]
  simp only [setOp, hamp, htilde, false_and, if_false, (hubTok_ne c).2.2.2, (hubTok_ne d).2.2.2]

theorem hubTok_close (c : Char) : setOp (escTok hubEscaped c) (.raw ']') = none := by
  simp [setOp]

section

variable {white : Chars} {ts : List Tok}

/-- The tokens of the hub's class are read as its characters are. -/
theorem classBody_hub (l : Left) (u : Chars) (s : Text) :
    classBody white l u (s.map (escTok hubEscaped) ++ .raw ']' :: ts) =
      (hyphenBody l u s).map fun p => (p, ts) := by
  have hhyphen : escTok hubEscaped '-' = .raw '-' := (hubTok_ne '-').2.2.2.2 rfl
  have hop {c : Char} (h : ¬(c == '-' && '-' == '-') = true) :
      setOp (escTok hubEscaped c) (.raw '-') = none := by
    rw [← hhyphen, hubTok_setOp, if_neg (by simpa using h)]
  fun_induction hyphenBody l u s with
  | case1 l u => exact classBody_close
  | case2 l u c =>
    rw [List.map_cons, List.map_nil, List.singleton_append, classBody_item (hubTok_ne c).1
      (hubTok_ne c).2.1 (hubTok_close c) (hubTok_prim white c) (by simp), classBody_close]
    rfl
  | case3 l u c d s h ih =>
    rw [Bool.and_eq_true, beq_iff_eq, beq_iff_eq] at h
    have hdiff : setOp (escTok hubEscaped c) (escTok hubEscaped d) = some .diff := by
      rw [hubTok_setOp, if_pos h]
    rw [List.map_cons, List.map_cons, List.cons_append, List.cons_append,
      classBody_op (hubTok_ne c).1 (hubTok_ne c).2.1 hdiff, ih]
  | case4 l u c d h hd ih =>
    obtain rfl : d = '-' := beq_iff_eq.1 hd
    rw [← ih]
    simp only [List.map_cons, List.map_nil, List.cons_append, List.nil_append, hhyphen]
    exact classBody_item_hyphen (hubTok_ne c).1 (hubTok_ne c).2.1 (hop h) (hubTok_prim white c)
      (.inl rfl)
  | case5 l u c d h hd e s he ih =>
    obtain rfl : d = '-' := beq_iff_eq.1 hd
    obtain rfl : e = '-' := beq_iff_eq.1 he
    rw [← ih]
    simp only [List.map_cons, List.cons_append, hhyphen]
    exact classBody_item_hyphen (hubTok_ne c).1 (hubTok_ne c).2.1 (hop h) (hubTok_prim white c)
      (.inr rfl)
  | case6 l u c d h hd e s he hle ih =>
    obtain rfl : d = '-' := beq_iff_eq.1 hd
    have hz : ¬(escTok hubEscaped e = .raw ']' ∨ escTok hubEscaped e = .raw '-') := by
      rintro (h | h)
      · exact (hubTok_ne e).1 h
      · exact he (beq_iff_eq.2 ((hubTok_ne e).2.2.2.1 h))
    rw [List.map_cons, List.map_cons, List.map_cons, hhyphen, List.cons_append, List.cons_append,
      List.cons_append, classBody_range _ (hubTok_ne c).1 (hubTok_ne c).2.1 (hop h)
        (hubTok_prim white c) hz (hubTok_prim white e), range, if_pos hle, Option.bind_some, ih]
  | case7 l u c d h hd e s he hle =>
    obtain rfl : d = '-' := beq_iff_eq.1 hd
    have hz : ¬(escTok hubEscaped e = .raw ']' ∨ escTok hubEscaped e = .raw '-') := by
      rintro (h | h)
      · exact (hubTok_ne e).1 h
      · exact he (beq_iff_eq.2 ((hubTok_ne e).2.2.2.1 h))
    rw [List.map_cons, List.map_cons, List.map_cons, hhyphen, List.cons_append, List.cons_append,
      List.cons_append, classBody_range _ (hubTok_ne c).1 (hubTok_ne c).2.1 (hop h)
        (hubTok_prim white c) hz (hubTok_prim white e), range, if_neg hle]
    rfl
  | case8 l u c d s h hd ih =>
    have hne : escTok hubEscaped d ≠ .raw '-' := fun h => hd (beq_iff_eq.2 ((hubTok_ne d).2.2.2.1 h))
    have hnone : setOp (escTok hubEscaped c) (escTok hubEscaped d) = none := by
      rw [hubTok_setOp, if_neg (by simpa using h)]
    rw [← ih]
    simp only [List.map_cons, List.cons_append]
    exact classBody_item (hubTok_ne c).1 (hubTok_ne c).2.1 hnone (hubTok_prim white c) hne

theorem classLead_hub (white : Chars) (ts : List Tok) (s : Text) :
    classLead white (s.map (escTok hubEscaped) ++ .raw ']' :: ts) =
    if s = [] then classBody white none (.one ']') ts else (hyphenSet s).map fun p => (p, ts) := by
  cases s with
  | nil =>
    rw [if_pos rfl, List.map_nil, List.nil_append, classLead]
    rfl
  | cons c s =>
    have htok := hubTok_ne c
    rw [if_neg (List.cons_ne_nil c s), List.map_cons, List.cons_append, classLead, hyphenSet]
    simp only [List.head?_cons, Option.some.injEq, htok.2.2.2]
    by_cases hc : c = '-'
    · have hdrop : (escTok hubEscaped c :: (s.map (escTok hubEscaped) ++ .raw ']' :: ts)).dropWhile
          (· = .raw '-') = ((c :: s).dropWhile (· = '-')).map (escTok hubEscaped) ++
            .raw ']' :: ts := by
        have hall (s : Text) : (s.map (escTok hubEscaped) ++ .raw ']' :: ts).dropWhile
            (· = .raw '-') = (s.dropWhile (· = '-')).map (escTok hubEscaped) ++ .raw ']' :: ts := by
          induction s with
          | nil => rfl
          | cons d s ih =>
            rw [List.map_cons, List.cons_append, List.dropWhile_cons, List.dropWhile_cons, ih]
            simp only [decide_eq_true_eq, (hubTok_ne d).2.2.2]
            split_ifs <;> rfl
        exact hall (c :: s)
      rw [if_pos hc, if_pos hc, hdrop, classBody_hub]
    · rw [if_neg hc, if_neg hc, if_neg htok.1]
      exact classBody_hub none .none (c :: s)

/-- The class of the hub, read. -/
theorem reads_hubClass {seg : Text} (hseg : Closed seg) :
    Reads white (hubClass seg) ((hubSet seg).map .one) := by
  obtain ⟨x, t, hlisted, -⟩ := hseg
  have hne : listed seg ≠ [] := by simp [hlisted]
  have htoks : Lexes (escapeThe hubEscaped (listed seg)) ((listed seg).map (escTok hubEscaped)) := by
    rw [List.map_eq_flatMap]
    refine Lexes.flatMap fun c _ => ?_
    have h := lexes_escapeThe hubEscaped (by decide) c
    rwa [escapeThe_one] at h
  have hclose : Lexes (escapeThe hubEscaped (listed seg) ++ [']'])
      ((listed seg).map (escTok hubEscaped) ++ [Tok.raw ']']) := htoks.append (.raw (by decide))
  have hlead (r : List Tok) := classLead_hub white r (listed seg)
  rw [hubClass, hubSet, if_neg hne, ← hubEscaped]
  cases negated seg with
  | true =>
    refine reads_class (Lexes.cons (by decide) hclose) fun r => ?_
    rw [List.cons_append, readClass, if_pos rfl, List.append_assoc, List.singleton_append, hlead,
      if_neg hne]
    cases hyphenSet (listed seg) <;> rfl
  | false =>
    refine reads_class hclose fun r => ?_
    have hcons : ∃ l, (listed seg).map (escTok hubEscaped) ++ [Tok.raw ']'] ++ r =
        escTok hubEscaped x :: l := by
      rw [hlisted]
      exact ⟨_, rfl⟩
    obtain ⟨l, hl⟩ := hcons
    rw [hl, readClass, if_neg (hubTok_ne x).2.2.1, ← hl, List.append_assoc, List.singleton_append,
      hlead, if_neg hne]
    cases hyphenSet (listed seg) <;> rfl

end

/-! ## Patterns and their pieces -/

theorem bracket_iff {p seg rest : Text} :
    Bracket p seg rest ↔ p = seg ++ ']' :: rest ∧ Closed seg := Iff.rfl

theorem eq_append_listed (seg : Text) :
    seg = (if negated seg then ['!'] else []) ++ listed seg := by
  cases hneg : negated seg with
  | true => exact eq_cons_listed hneg
  | false => rw [listed, hneg]; rfl

/-- The search for the end of a bracket, from its first member. -/
theorem closing_eq (p : Text) : closing p =
    match listed p with
    | [] => none
    | x :: t =>
      match t.dropWhile (· ≠ ']') with
      | [] => none
      | _ :: rest => some ((if negated p then ['!'] else []) ++ x :: t.takeWhile (· ≠ ']'), rest) := by
  cases p with
  | nil => rfl
  | cons c s =>
    by_cases hc : c = '!'
    · subst hc
      cases s with
      | nil => rfl
      | cons x t =>
        by_cases hx : x = ']' <;> simp [closing, listed, negated, hx]
    · by_cases hx : c = ']' <;> simp [closing, listed, negated, hc, hx]

theorem negated_append {seg : Text} (hseg : seg ≠ []) (t : Text) :
    negated (seg ++ t) = negated seg ∧ listed (seg ++ t) = listed seg ++ t := by
  cases seg with
  | nil => exact absurd rfl hseg
  | cons c s =>
    have hneg : negated (c :: s ++ t) = negated (c :: s) := rfl
    refine ⟨hneg, ?_⟩
    rw [listed, listed, hneg]
    split_ifs <;> rfl

theorem closing_iff {p seg rest : Text} :
    closing p = some (seg, rest) ↔ Bracket p seg rest := by
  rw [bracket_iff]
  constructor
  · intro h
    rw [closing_eq] at h
    have hp := eq_append_listed p
    cases hl : listed p with
    | nil => simp [hl] at h
    | cons x t =>
      rw [hl] at h hp
      dsimp only at h
      cases hd : t.dropWhile (· ≠ ']') with
      | nil =>
        rw [hd] at h
        simp at h
      | cons y rest' =>
        rw [hd] at h
        obtain ⟨rfl, rfl⟩ := Prod.mk.inj (Option.some.inj h)
        have hy : y = ']' := by
          have hhead := List.head?_dropWhile_not (· ≠ ']') t
          rw [hd] at hhead
          simpa using hhead
        have ht : t.takeWhile (· ≠ ']') ++ ']' :: rest' = t := by
          have happ := List.takeWhile_append_dropWhile (p := (· ≠ ']')) (l := t)
          rwa [hd, hy] at happ
        have hmem : ']' ∉ t.takeWhile (· ≠ ']') := fun hmem => by
          simpa using List.mem_takeWhile_imp hmem
        generalize t.takeWhile (· ≠ ']') = w at ht hmem ⊢
        subst ht
        have hne : (if negated p then ['!'] else []) ++ x :: w ≠ [] := by simp
        have hsplit : p = ((if negated p then ['!'] else []) ++ x :: w) ++ ']' :: rest' := by
          rw [List.append_assoc, List.cons_append]
          exact hp
        have hlisted := (negated_append hne (']' :: rest')).2
        rw [← hsplit, hl, ← List.cons_append] at hlisted
        exact ⟨hsplit, x, w, (List.append_cancel_right hlisted).symm, hmem⟩
  · rintro ⟨rfl, x, t, hlisted, ht⟩
    have hne : seg ≠ [] := by
      rintro rfl
      simp [listed, negated] at hlisted
    obtain ⟨hneg, hl⟩ := negated_append hne (']' :: rest)
    have hall : ∀ c ∈ t, decide (c ≠ ']') = true := fun c hc =>
      decide_eq_true fun h => ht (h ▸ hc)
    have hdrop : (t ++ ']' :: rest).dropWhile (· ≠ ']') = ']' :: rest := by
      rw [List.dropWhile_append_of_pos hall, List.dropWhile_cons_of_neg (by simp)]
    have htake : (t ++ ']' :: rest).takeWhile (· ≠ ']') = t := by
      rw [List.takeWhile_append_of_pos hall, List.takeWhile_cons_of_neg (by simp), List.append_nil]
    rw [closing_eq, hneg, hl, hlisted, List.cons_append]
    dsimp only
    rw [hdrop, htake]
    dsimp only
    rw [← hlisted, ← eq_append_listed]

/-- What a piece stands for, with a reading of brackets. -/
def Piece.item (f : Text → Chars) : Piece → Item
  | .star => .star
  | .any => .one .all
  | .lit c => .one (.one c)
  | .seq seg => .one (f seg)

theorem matches_star {p s : Text} : Matches ('*' :: p) s ↔ ∃ t, t <:+ s ∧ Matches p t := by
  constructor
  · intro h
    generalize hq : '*' :: p = q at h
    induction h with
    | nil => simp at hq
    | starNone h _ =>
      obtain ⟨-, rfl⟩ := List.cons.inj hq
      exact ⟨_, List.suffix_refl _, h⟩
    | starMore h ih =>
      obtain ⟨t, ht, hm⟩ := ih hq
      exact ⟨t, ht.trans (List.suffix_cons _ _), hm⟩
    | any => simp at hq
    | bracket => simp at hq
    | unclosed => simp at hq
    | lit h => exact absurd (List.cons.inj hq).1.symm h
  · rintro ⟨t, ht, hm⟩
    induction s with
    | nil =>
      obtain rfl := List.suffix_nil.1 ht
      exact .starNone hm
    | cons c s ih =>
      rcases List.suffix_cons_iff.1 ht with rfl | ht
      · exact .starNone hm
      · exact .starMore (ih ht)

theorem matches_nil {s : Text} : Matches [] s ↔ s = [] := by
  refine ⟨fun h => ?_, fun h => h ▸ .nil⟩
  generalize hq : ([] : Text) = q at h
  cases h with
  | nil => rfl
  | _ => simp at hq

theorem matches_any {p s : Text} : Matches ('?' :: p) s ↔ ∃ c t, s = c :: t ∧ Matches p t := by
  constructor
  · intro h
    generalize hq : '?' :: p = q at h
    cases h with
    | any h =>
      obtain ⟨-, rfl⟩ := List.cons.inj hq
      exact ⟨_, _, rfl, h⟩
    | lit _ h => exact absurd (List.cons.inj hq).1.symm h
    | _ => simp at hq
  · rintro ⟨c, t, rfl, h⟩
    exact .any h

theorem matches_bracket {p seg rest s : Text} (hb : Bracket p seg rest) :
    Matches ('[' :: p) s ↔ ∃ c t, s = c :: t ∧ globSet seg c = true ∧ Matches rest t := by
  constructor
  · intro h
    generalize hq : '[' :: p = q at h
    cases h with
    | bracket hb' hc h =>
      obtain ⟨-, rfl⟩ := List.cons.inj hq
      have heq := (closing_iff.2 hb).symm.trans (closing_iff.2 hb')
      obtain ⟨rfl, rfl⟩ := Prod.mk.inj (Option.some.inj heq)
      exact ⟨_, _, rfl, hc, h⟩
    | unclosed hno h =>
      obtain ⟨-, rfl⟩ := List.cons.inj hq
      exact absurd hb (hno _ _)
    | lit _ _ h => exact absurd (List.cons.inj hq).1.symm h
    | _ => simp at hq
  · rintro ⟨c, t, rfl, hc, h⟩
    exact .bracket hb hc h

theorem matches_unclosed {p s : Text} (hno : ∀ seg rest, ¬Bracket p seg rest) :
    Matches ('[' :: p) s ↔ ∃ t, s = '[' :: t ∧ Matches p t := by
  constructor
  · intro h
    generalize hq : '[' :: p = q at h
    cases h with
    | bracket hb =>
      obtain ⟨-, rfl⟩ := List.cons.inj hq
      exact absurd hb (hno _ _)
    | unclosed _ h =>
      obtain ⟨-, rfl⟩ := List.cons.inj hq
      exact ⟨_, rfl, h⟩
    | lit _ _ h => exact absurd (List.cons.inj hq).1.symm h
    | _ => simp at hq
  · rintro ⟨t, rfl, h⟩
    exact .unclosed hno h

theorem matches_lit {p s : Text} {c : Char} (h₁ : c ≠ '*') (h₂ : c ≠ '?') (h₃ : c ≠ '[') :
    Matches (c :: p) s ↔ ∃ t, s = c :: t ∧ Matches p t := by
  constructor
  · intro h
    generalize hq : c :: p = q at h
    cases h with
    | nil => simp at hq
    | starNone | starMore => exact absurd (List.cons.inj hq).1 h₁
    | any => exact absurd (List.cons.inj hq).1 h₂
    | bracket | unclosed => exact absurd (List.cons.inj hq).1 h₃
    | lit _ _ _ h =>
      obtain ⟨rfl, rfl⟩ := List.cons.inj hq
      exact ⟨_, rfl, h⟩
  · rintro ⟨t, rfl, h⟩
    exact .lit h₁ h₂ h₃ h

/-- One character is read, and it is in a set. -/
theorem matchItems_one_iff {p : Chars} {is : List Item} {s : Text} :
    matchItems (.one p :: is) s = true ↔ ∃ c t, s = c :: t ∧ p c = true ∧
      matchItems is t = true := by
  cases s with
  | nil => simp
  | cons c s =>
    rw [matchItems_one_cons, Bool.and_eq_true]
    constructor
    · exact fun h => ⟨c, s, rfl, h⟩
    · rintro ⟨d, t, heq, h⟩
      obtain ⟨rfl, rfl⟩ := List.cons.inj heq
      exact h

/-- A glob matches as its pieces do. -/
theorem matches_iff {n : ℕ} {p : Text} (hn : p.length ≤ n) {s : Text} :
    Matches p s ↔ matchItems ((scan n p).map (Piece.item globSet)) s = true := by
  induction n generalizing p s with
  | zero =>
    obtain rfl := List.length_eq_zero_iff.1 (Nat.le_zero.1 hn)
    rw [matches_nil]
    simp [scan]
  | succ n ih =>
    cases p with
    | nil =>
      rw [matches_nil]
      simp [scan]
    | cons c p =>
      have hp : p.length ≤ n := by simpa using hn
      rw [scan]
      by_cases h₁ : c = '*'
      · subst h₁
        rw [if_pos rfl, List.map_cons, Piece.item, matches_star, matchItems_star,
          List.any_eq_true]
        refine exists_congr fun t => ?_
        rw [List.mem_tails, ih hp]
      · by_cases h₂ : c = '?'
        · subst h₂
          rw [if_neg (by decide), if_pos rfl, List.map_cons, Piece.item, matches_any,
            matchItems_one_iff]
          refine exists_congr fun c => exists_congr fun t => ?_
          rw [ih hp]
          simp [Chars.all]
        · by_cases h₃ : c = '['
          · subst h₃
            rw [if_neg (by decide), if_neg (by decide), if_pos rfl]
            cases hc : closing p with
            | none =>
              have hno : ∀ seg rest, ¬Bracket p seg rest := by
                intro seg rest hb
                rw [closing_iff.2 hb] at hc
                simp at hc
              rw [matches_unclosed hno, List.map_cons, Piece.item, matchItems_one_iff]
              simp [Chars.one, ih hp]
            | some r =>
              obtain ⟨seg, rest⟩ := r
              have hb := closing_iff.1 hc
              have hrest : rest.length ≤ n := by
                have hlen := congrArg List.length hb.1
                rw [List.length_append, List.length_cons] at hlen
                omega
              rw [matches_bracket hb, List.map_cons, Piece.item, matchItems_one_iff]
              refine exists_congr fun c => exists_congr fun t => ?_
              rw [ih hrest]
          · rw [if_neg h₁, if_neg h₂, if_neg h₃, matches_lit h₁ h₂ h₃, List.map_cons, Piece.item,
              matchItems_one_iff]
            constructor
            · rintro ⟨t, rfl, h⟩
              exact ⟨c, t, rfl, beq_self_eq_true c, (ih hp).1 h⟩
            · rintro ⟨d, t, rfl, hd, h⟩
              obtain rfl : d = c := beq_iff_eq.1 hd
              exact ⟨t, rfl, (ih hp).2 h⟩

theorem closed_of_mem {n : ℕ} {p seg : Text} (h : Piece.seq seg ∈ scan n p) : Closed seg := by
  induction n generalizing p with
  | zero => simp [scan] at h
  | succ n ih =>
    cases p with
    | nil => simp [scan] at h
    | cons c p =>
      rw [scan] at h
      split_ifs at h
      · exact ih (by simpa using h)
      · exact ih (by simpa using h)
      · cases hc : closing p with
        | none =>
          rw [hc] at h
          exact ih (by simpa using h)
        | some r =>
          obtain ⟨seg', rest⟩ := r
          rw [hc] at h
          rcases List.mem_cons.1 h with heq | h
          · obtain rfl := Piece.seq.inj heq
            exact (closing_iff.1 hc).2
          · exact ih h
      · exact ih (by simpa using h)

theorem matchItems_joinStars (f : Text → Chars) (ps : List Piece) (s : Text) :
    matchItems ((joinStars ps).map (Piece.item f)) s = matchItems (ps.map (Piece.item f)) s := by
  induction ps generalizing s with
  | nil => rfl
  | cons x ps ih =>
    rw [List.map_cons, ← matchItems_cons_congr ih, joinStars]
    cases hj : joinStars ps with
    | nil => rfl
    | cons y qs =>
      dsimp only
      split_ifs with h
      · obtain ⟨rfl, rfl⟩ := h
        exact matchItems_star_star.symm
      · rfl

theorem mem_joinStars {seg : Text} {ps : List Piece} :
    Piece.seq seg ∈ joinStars ps ↔ Piece.seq seg ∈ ps := by
  induction ps with
  | nil => rfl
  | cons x ps ih =>
    rw [List.mem_cons, ← ih, joinStars]
    cases hj : joinStars ps with
    | nil => simp
    | cons y qs =>
      dsimp only
      split_ifs with h
      · obtain ⟨rfl, rfl⟩ := h
        simp
      · exact List.mem_cons

/-! ## Both matchers, read -/

section

variable {white : Chars} {pat name : Text}

theorem reads_literal (c : Char) : Reads white (escape c) (some (.one (.one c))) := by
  rw [escape]
  split_ifs with hc
  · exact reads_escape hc
  · exact reads_raw hc

/-- The node matches with its reading of the brackets. -/
theorem nodeMatch_eq : nodeMatch white name pat =
    matchItems ((pieces pat).map (Piece.item nodeSet)) name := by
  have hreads : ∀ x ∈ joinStars (pieces pat),
      Reads white (nodePart x) (some (x.item nodeSet)) := by
    intro x hx
    cases x with
    | star => exact reads_lazy
    | any => exact reads_dot
    | lit c => exact reads_literal c
    | seq seg => exact reads_nodeClass (closed_of_mem (mem_joinStars.1 hx))
  have hread := read_long hreads
  rw [mapM_eq_some fun x _ => rfl] at hread
  have hhead : ascii "(?s)\\A(?:" = "(?s)\\A(?:".toList := by decide
  have htail : ascii ")\\z" = [')', '\\', 'z'] := by decide
  rw [nodeMatch, isMatch, nodeTranslate, hhead, htail, hread, Option.any_some,
    matchItems_joinStars]

theorem read_hubTranslate : read white (hubTranslate pat) =
    (joinStars (pieces pat)).mapM fun x =>
      match x with
      | .seq seg => (hubSet seg).map .one
      | x => some (x.item globSet) := by
  have hreads : ∀ x ∈ joinStars (pieces pat), Reads white (hubPart x)
      (match x with
      | .seq seg => (hubSet seg).map .one
      | x => some (x.item globSet)) := by
    intro x hx
    cases x with
    | star => exact reads_star
    | any => exact reads_dot
    | lit c => exact reads_literal c
    | seq seg => exact reads_hubClass (closed_of_mem (mem_joinStars.1 hx))
  have hread := read_short hreads
  have hhead : ascii "(?s)^" = "(?s)^".toList := by decide
  have htail : ascii "$" = ['$'] := by decide
  rw [hubTranslate, hhead, htail, hread]

/-- The hub matches with its reading of the brackets, if all of them are classes. -/
theorem hubMatch_eq (h : ∀ seg, Piece.seq seg ∈ pieces pat → hubSet seg ≠ none) :
    hubMatch white name pat =
      matchItems ((pieces pat).map (Piece.item fun seg => (hubSet seg).getD .none)) name := by
  rw [hubMatch, isMatch, read_hubTranslate, mapM_eq_some
    (f := Piece.item fun seg => (hubSet seg).getD .none), Option.any_some, matchItems_joinStars]
  intro x hx
  cases x with
  | seq seg =>
    obtain ⟨p, hp⟩ := Option.ne_none_iff_exists'.1 (h seg (mem_joinStars.1 hx))
    simp [hp, Piece.item]
  | _ => rfl

theorem hubMatch_invalid {seg : Text} (hmem : Piece.seq seg ∈ pieces pat)
    (h : hubSet seg = none) : hubMatch white name pat = false := by
  rw [hubMatch, isMatch, read_hubTranslate, mapM_eq_none (mem_joinStars.2 hmem) (by simp [h])]
  rfl

end

/-! ## When the readings are the same -/

/-- The brackets of a pattern. -/
def brackets (pat : Text) : List Text :=
  (pieces pat).filterMap fun
    | .seq seg => some seg
    | _ => none

theorem mem_brackets {pat seg : Text} : seg ∈ brackets pat ↔ Piece.seq seg ∈ pieces pat := by
  rw [brackets, List.mem_filterMap]
  constructor
  · rintro ⟨x, hx, h⟩
    cases x with
    | seq seg' =>
      obtain rfl := Option.some.inj h
      exact hx
    | _ => simp at h
  · exact fun h => ⟨_, h, rfl⟩

/-- The characters of each bracket are those of both classes. -/
def SameSets (pat : Text) : Prop :=
  ∀ seg ∈ brackets pat, nodeSet seg = globSet seg ∧ hubSet seg = some (globSet seg)

/-- In each reading a bracket holds nothing, or is no class. -/
structure Void (pat : Text) : Prop where
  glob : ∃ seg ∈ brackets pat, ∀ c, globSet seg c = false
  node : ∃ seg ∈ brackets pat, ∀ c, nodeSet seg c = false
  hub : ∃ seg ∈ brackets pat, ∀ p, hubSet seg = some p → ∀ c, p c = false

/-- The node and the hub match a pattern as a glob. -/
def Agrees (white : Chars) (pat : Text) : Prop :=
  ∀ name, (nodeMatch white name pat = true ↔ Matches pat name) ∧
    (hubMatch white name pat = true ↔ Matches pat name)

theorem never_item {f : Text → Chars} {pat : Text} :
    (∃ x ∈ pieces pat, (Piece.item f x).Never) ↔ ∃ seg ∈ brackets pat, ∀ c, f seg c = false := by
  constructor
  · rintro ⟨x, hx, p, hp, hnone⟩
    cases x with
    | star => simp [Piece.item] at hp
    | any =>
      obtain rfl := Item.one.inj hp
      exact absurd (hnone 'a') (by simp [Chars.all])
    | lit c =>
      obtain rfl := Item.one.inj hp
      exact absurd (hnone c) (by simp [Chars.one])
    | seq seg =>
      obtain rfl := Item.one.inj hp
      exact ⟨seg, mem_brackets.2 hx, hnone⟩
  · rintro ⟨seg, hseg, hnone⟩
    exact ⟨_, mem_brackets.1 hseg, _, rfl, hnone⟩

theorem item_eq_iff {f g : Text → Chars} {pat : Text} :
    (∀ x ∈ pieces pat, Piece.item f x = Piece.item g x) ↔ ∀ seg ∈ brackets pat, f seg = g seg := by
  constructor
  · intro h seg hseg
    exact Item.one.inj (h _ (mem_brackets.1 hseg))
  · intro h x hx
    cases x with
    | seq seg => rw [Piece.item, Piece.item, h seg (mem_brackets.2 hx)]
    | _ => rfl

/-- Two readings of the brackets of a pattern match the same names. -/
theorem items_match_eq_iff {f g : Text → Chars} {pat : Text} :
    (∀ s, matchItems ((pieces pat).map (Piece.item f)) s =
        matchItems ((pieces pat).map (Piece.item g)) s) ↔
      (∀ seg ∈ brackets pat, f seg = g seg) ∨
        (∃ seg ∈ brackets pat, ∀ c, f seg c = false) ∧
          ∃ seg ∈ brackets pat, ∀ c, g seg c = false := by
  rw [match_eq_iff, item_eq_iff, never_item, never_item]
  intro x _
  cases x <;> simp [Piece.item]

section

variable {white : Chars} {pat : Text}

theorem node_agrees_iff : (∀ name, nodeMatch white name pat = true ↔ Matches pat name) ↔
    (∀ seg ∈ brackets pat, nodeSet seg = globSet seg) ∨
      (∃ seg ∈ brackets pat, ∀ c, nodeSet seg c = false) ∧
        ∃ seg ∈ brackets pat, ∀ c, globSet seg c = false := by
  rw [← items_match_eq_iff]
  refine forall_congr' fun name => ?_
  rw [nodeMatch_eq, matches_iff (Nat.le_refl _), ← Bool.eq_iff_iff]
  rfl

theorem hub_agrees_iff : (∀ name, hubMatch white name pat = true ↔ Matches pat name) ↔
    (∀ seg ∈ brackets pat, hubSet seg = some (globSet seg)) ∨
      (∃ seg ∈ brackets pat, ∀ p, hubSet seg = some p → ∀ c, p c = false) ∧
        ∃ seg ∈ brackets pat, ∀ c, globSet seg c = false := by
  by_cases hvalid : ∀ seg, Piece.seq seg ∈ pieces pat → hubSet seg ≠ none
  · have hsome : ∀ seg ∈ brackets pat, ∃ p, hubSet seg = some p := fun seg hseg =>
      Option.ne_none_iff_exists'.1 (hvalid seg (mem_brackets.1 hseg))
    have hset : (∀ seg ∈ brackets pat, hubSet seg = some (globSet seg)) ↔
        ∀ seg ∈ brackets pat, (hubSet seg).getD .none = globSet seg := by
      refine forall_congr' fun seg => forall_congr' fun hseg => ?_
      obtain ⟨p, hp⟩ := hsome seg hseg
      simp [hp]
    have hnone : (∃ seg ∈ brackets pat, ∀ p, hubSet seg = some p → ∀ c, p c = false) ↔
        ∃ seg ∈ brackets pat, ∀ c, (hubSet seg).getD .none c = false := by
      refine exists_congr fun seg => and_congr_right fun hseg => ?_
      obtain ⟨p, hp⟩ := hsome seg hseg
      simp [hp]
    rw [hset, hnone, ← items_match_eq_iff (f := fun seg => (hubSet seg).getD .none)]
    refine forall_congr' fun name => ?_
    rw [hubMatch_eq hvalid, matches_iff (Nat.le_refl _), ← Bool.eq_iff_iff]
    rfl
  · push Not at hvalid
    obtain ⟨seg, hmem, hseg⟩ := hvalid
    have hnot : ¬∀ seg ∈ brackets pat, hubSet seg = some (globSet seg) := fun h => by
      simpa [hseg] using h seg (mem_brackets.2 hmem)
    have hfail : ∃ seg ∈ brackets pat, ∀ p, hubSet seg = some p → ∀ c, p c = false :=
      ⟨seg, mem_brackets.2 hmem, fun p hp => by simp [hseg] at hp⟩
    have hiff : (∀ name, hubMatch white name pat = true ↔ Matches pat name) ↔
        ∃ seg ∈ brackets pat, ∀ c, globSet seg c = false := by
      have hmap : (∃ seg ∈ brackets pat, ∀ c, globSet seg c = false) ↔
          ∃ i ∈ (pieces pat).map (Piece.item globSet), i.Never := by
        rw [← never_item]
        simp
      rw [hmap, ← never_iff]
      refine forall_congr' fun name => ?_
      rw [hubMatch_invalid hmem hseg, matches_iff (Nat.le_refl _), pieces]
      simp
    rw [hiff]
    exact ⟨fun h => .inr ⟨hfail, h⟩, fun h => (h.resolve_left hnot).2⟩

end

/-! ## Brackets that all read alike -/

/-- No range has its ends the wrong way round, no two hyphens follow each other, and no range
starts with a closing bracket. -/
structure PlainSeg (seg : Text) : Prop where
  proper : ∀ e ∈ elems (listed seg), e.proper = true
  hyphens : ¬['-', '-'] <:+: listed seg
  close : ∀ b s, listed seg ≠ ']' :: '-' :: b :: s

theorem members_of_plain {seg : Text} (h : PlainSeg seg) : members seg = elems (listed seg) :=
  List.filter_eq_self.2 h.proper

/-- Where a range comes first. -/
theorem eq_of_elems_span {s : Text} {a b : Char} {es : List Elem} (h : elems s = .span a b :: es) :
    ∃ t, s = a :: '-' :: b :: t := by
  fun_cases elems s with
  | case1 => simp [elems] at h
  | case2 c => simp [elems_one] at h
  | case3 c d => simp [elems_two] at h
  | case4 c e t =>
    rw [elems_span] at h
    obtain ⟨rfl, rfl⟩ := Elem.span.inj (List.cons.inj h).1
    exact ⟨t, rfl⟩
  | case5 c d e t hd =>
    rw [elems_cons hd] at h
    simp at h

theorem bracketSet_members {seg : Text} (h : PlainSeg seg) :
    bracketSet (members seg) = chars (elems (listed seg)) := by
  rw [members_of_plain h]
  cases hl : listed seg with
  | nil => rfl
  | cons x t =>
    obtain ⟨e, s, helems, -, rfl, -⟩ := elems_eq_cons x t
    rw [helems]
    cases e with
    | one c => rfl
    | span a b =>
      have ha : a ≠ ']' := by
        rintro rfl
        obtain ⟨r, hr⟩ := eq_of_elems_span helems
        exact h.close b r (hl.trans hr)
      rw [bracketSet, if_neg ha]

theorem nodeSet_of_plain {seg : Text} (h : PlainSeg seg) : nodeSet seg = globSet seg := by
  rw [nodeSet, globSet, bracketSet_members h]
  cases hneg : negated seg with
  | true => rfl
  | false =>
    have hset := bracketSet_members h
    rw [if_neg Bool.false_ne_true, if_neg Bool.false_ne_true, ← hset, members_of_plain h]
    cases hl : listed seg with
    | nil => rfl
    | cons x t =>
      obtain ⟨e, s, helems, -, rfl, -⟩ := elems_eq_cons x t
      have hbang : e.start ≠ '!' := by
        intro hb
        rw [listed, hneg, if_neg Bool.false_ne_true] at hl
        simp [negated, hl, hb] at hneg
      rw [helems]
      cases e with
      | one c => exact if_neg hbang
      | span a b => exact if_neg hbang

/-- Where no two hyphens follow each other, hyphens have one meaning. -/
theorem hyphenBody_plain {u : Chars} {s : Text} (hproper : ∀ e ∈ elems s, e.proper = true)
    (hhyphens : ¬['-', '-'] <:+: s) :
    hyphenBody none u s = some (u.union (chars (elems s))) := by
  generalize hl : (none : Left) = l
  fun_induction hyphenBody l u s with
  | case1 l u =>
    subst hl
    simp [Left.close, elems, Chars.union_none]
  | case2 l u c =>
    subst hl
    simp [Left.close, elems_one, Elem.chars, Chars.union_none]
  | case3 l u c d s h ih =>
    rw [Bool.and_eq_true, beq_iff_eq, beq_iff_eq] at h
    exact absurd ⟨[], s, by simp [h.1, h.2]⟩ hhyphens
  | case4 l u c d h hd ih =>
    obtain rfl : d = '-' := beq_iff_eq.1 hd
    rw [ih (by simp [elems_one, Elem.proper]) (fun hs => hhyphens
      (hs.trans (List.suffix_cons c _).isInfix)) hl, Chars.union_assoc]
    rfl
  | case5 l u c d h hd e s he ih =>
    obtain rfl : d = '-' := beq_iff_eq.1 hd
    obtain rfl : e = '-' := beq_iff_eq.1 he
    exact absurd ⟨[c], s, by simp⟩ hhyphens
  | case6 l u c d h hd e s he hle ih =>
    obtain rfl : d = '-' := beq_iff_eq.1 hd
    rw [elems_span] at hproper ⊢
    rw [ih (fun e' he' => hproper e' (List.mem_cons_of_mem _ he')) (fun hs => hhyphens
      (hs.trans (List.IsSuffix.isInfix ⟨[c, '-', e], rfl⟩))) hl, Chars.union_assoc, chars_cons]
    rfl
  | case7 l u c d h hd e s he hle =>
    obtain rfl : d = '-' := beq_iff_eq.1 hd
    rw [elems_span] at hproper
    exact absurd (by simpa [Elem.proper] using hproper _ List.mem_cons_self) hle
  | case8 l u c d s h hd ih =>
    have hd' : d ≠ '-' := fun h => hd (beq_iff_eq.2 h)
    rw [elems_cons hd'] at hproper ⊢
    rw [ih (fun e' he' => hproper e' (List.mem_cons_of_mem _ he')) (fun hs => hhyphens
      (hs.trans (List.suffix_cons c _).isInfix)) hl, Chars.union_assoc, chars_cons]
    rfl

theorem hubSet_of_plain {seg : Text} (h : PlainSeg seg) : hubSet seg = some (globSet seg) := by
  have hset : hyphenSet (listed seg) = some (chars (elems (listed seg))) := by
    rw [hyphenSet]
    split_ifs with hhead
    · cases hl : listed seg with
      | nil => simp [hl] at hhead
      | cons c s =>
        obtain rfl : c = '-' := by simpa [hl] using hhead
        have hhyphens := h.hyphens
        have hproper := h.proper
        rw [hl] at hhyphens hproper
        have hsuffix : ¬['-', '-'] <:+: s := fun hs =>
          hhyphens (hs.trans (List.suffix_cons '-' s).isInfix)
        cases s with
        | nil => simp [hyphenBody, Left.close, elems_one, Elem.chars, Chars.union_none]
        | cons d s =>
          have hd : d ≠ '-' := by
            rintro rfl
            exact hhyphens ⟨[], s, rfl⟩
          rw [elems_cons hd] at hproper ⊢
          rw [List.dropWhile_cons_of_pos (by simp), List.dropWhile_cons_of_neg (by simpa using hd),
            hyphenBody_plain (fun e he => hproper e (List.mem_cons_of_mem _ he)) hsuffix]
          rfl
    · rw [hyphenBody_plain h.proper h.hyphens, Chars.none_union]
  rw [hubSet, hset, globSet]
  cases negated seg <;> rfl

/-! ## Main results -/

/-- Both matchers follow the meaning of a glob just if its brackets hold the same characters as
the classes that both write, or some bracket holds none in each reading. They do where no range
is the wrong way round, no two hyphens follow each other and no range starts with a closing
bracket. -/
theorem globs_agree (white : Chars) (pat : Text) :
    (Agrees white pat ↔ SameSets pat ∨ Void pat) ∧
      ((∀ seg ∈ brackets pat, PlainSeg seg) → Agrees white pat) := by
  have hiff : Agrees white pat ↔ SameSets pat ∨ Void pat := by
    have hand : Agrees white pat ↔ (∀ name, nodeMatch white name pat = true ↔ Matches pat name) ∧
        ∀ name, hubMatch white name pat = true ↔ Matches pat name := forall_and
    rw [hand, node_agrees_iff, hub_agrees_iff]
    constructor
    · rintro ⟨hnode | ⟨hnode, hglob⟩, hhub | ⟨hhub, hglob'⟩⟩
      · exact .inl fun seg hseg => ⟨hnode seg hseg, hhub seg hseg⟩
      · obtain ⟨seg, hseg, hnone⟩ := hglob'
        exact .inr ⟨⟨seg, hseg, hnone⟩, ⟨seg, hseg, by rwa [hnode seg hseg]⟩, hhub⟩
      · obtain ⟨seg, hseg, hnone⟩ := hglob
        refine .inr ⟨⟨seg, hseg, hnone⟩, hnode, seg, hseg, fun p hp => ?_⟩
        obtain rfl := Option.some.inj ((hhub seg hseg).symm.trans hp)
        exact hnone
      · exact .inr ⟨hglob, hnode, hhub⟩
    · rintro (hsame | hvoid)
      · exact ⟨.inl fun seg hseg => (hsame seg hseg).1, .inl fun seg hseg => (hsame seg hseg).2⟩
      · exact ⟨.inr ⟨hvoid.node, hvoid.glob⟩, .inr ⟨hvoid.hub, hvoid.glob⟩⟩
  exact ⟨hiff, fun hplain => hiff.2 (.inl fun seg hseg =>
    ⟨nodeSet_of_plain (hplain seg hseg), hubSet_of_plain (hplain seg hseg)⟩)⟩

theorem agrees_vllm : Agrees (fun _ => false) "vllm-[!a-c0-9_]?[]x]*" := by
  refine (globs_agree (fun _ => false) "vllm-[!a-c0-9_]?[]x]*").2 fun seg hseg => ?_
  have hbrackets : brackets "vllm-[!a-c0-9_]?[]x]*" = [ascii "!a-c0-9_", "]x"] := by decide +kernel
  rw [hbrackets] at hseg
  have hclose : ∀ b s, listed (ascii "]x") ≠ ']' :: '-' :: b :: s := fun b s h => by
    have htwo : (listed (ascii "]x"))[1]? = some '-' := by rw [h]; rfl
    exact absurd htwo (by decide)
  rcases List.mem_pair.1 hseg with rfl | rfl
  · refine ⟨by decide, by decide, fun b s h => ?_⟩
    have hone : (listed (ascii "!a-c0-9_")).head? = some ']' := by rw [h]; rfl
    exact absurd hone (by decide)
  · exact ⟨by decide, by decide, hclose⟩

/-- The hub takes a range that is the wrong way round for no class and two hyphens for a
difference; the node takes the hyphen after a bracket at the start for itself. -/
theorem not_agrees : ¬(∀ white pat, Agrees white pat) ∧
    ¬(∀ white pat name, hubMatch white name pat = true ↔ Matches pat name) ∧
    ¬(∀ white pat name, nodeMatch white name pat = true ↔ Matches pat name) := by
  have hreversed : Matches "[b-ac]" "c" := (matches_iff (Nat.le_refl _)).2 (by decide +kernel)
  have hdifference : Matches "[+--]" "," := (matches_iff (Nat.le_refl _)).2 (by decide +kernel)
  have hbracket : Matches "[]-a]" "^" := (matches_iff (Nat.le_refl _)).2 (by decide +kernel)
  refine ⟨fun h => ?_, fun h => ?_, fun h => ?_⟩
  · exact absurd ((h (fun _ => false) "[b-ac]" "c").2.2 hreversed) (by decide +kernel)
  · exact absurd ((h (fun _ => false) "[+--]" ",").2 hdifference) (by decide +kernel)
  · exact absurd ((h (fun _ => false) "[]-a]" "^").2 hbracket) (by decide +kernel)

end Globs

end EngineConsole
