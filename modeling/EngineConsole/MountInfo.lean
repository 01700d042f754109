import EngineConsole.MountTable

/-!
# The mounts of a node

`parse_mountinfo` and `mount_of` of the node (`disks.rs`) : the list of mounts that the kernel
writes, and the mount that a path lives on. The kernel escapes the space, the tab, the newline, the
backslash and `#` of a text, and separates fields by one space.

The lines and fields are cut where Python cuts them, at any Unicode white space. So the texts come
back just when they have none of it left (`parse_render_iff`). And the longest mount point of a path
is taken, which is the one the path lives on just when no mount point stays hidden by a later mount
above it (`mounts_attributed_iff`).
-/

set_option linter.unusedSectionVars false

namespace EngineConsole

namespace MountInfo

open Mounts

/-- A text. -/
abbrev Text := List Char

/-! ## White space of Python -/

/-- `isspace` : Unicode white space, and the separators of ASCII. -/
def isspace (c : Char) : Bool :=
  let n := c.toNat
  (9 ≤ n && n ≤ 13) || (0x1c ≤ n && n ≤ 0x20) || n == 0x85 || n == 0xa0 || n == 0x1680 ||
    (0x2000 ≤ n && n ≤ 0x200a) || n == 0x2028 || n == 0x2029 || n == 0x202f || n == 0x205f ||
    n == 0x3000

/-- `is_line_break` -/
def isLineBreak (c : Char) : Bool :=
  let n := c.toNat
  (10 ≤ n && n ≤ 13) || (0x1c ≤ n && n ≤ 0x1e) || n == 0x85 || n == 0x2028 || n == 0x2029

/-- `splitlines`, after the start of a line. -/
def linesFrom : Text → Text → List Text
  | cur, [] => if cur = [] then [] else [cur]
  | cur, c :: s =>
    if isLineBreak c then
      if c = '\r' ∧ s.head? = some '\n' then cur :: linesFrom [] (s.drop 1)
      else cur :: linesFrom [] s
    else linesFrom (cur ++ [c]) s
termination_by _ s => s.length

/-- `splitlines` -/
def splitlines (s : Text) : List Text :=
  linesFrom [] s

/-- `split_ws` -/
def splitWs (s : Text) : List Text :=
  (s.splitOnP isspace).filter (· ≠ [])

/-- `split_once` -/
def splitOnce (sep : Text) : Text → Option (Text × Text)
  | [] => if sep = [] then some ([], []) else none
  | c :: s =>
    if sep.isPrefixOf (c :: s) then some ([], (c :: s).drop sep.length)
    else (splitOnce sep s).map fun r => (c :: r.1, r.2)

/-! ## The parser -/

/-- An octal digit. -/
def isOctal (c : Char) : Bool :=
  '0' ≤ c && c ≤ '7'

/-- The character of three octal digits. -/
def octal (a b c : Char) : Char :=
  Char.ofNat (64 * (a.toNat - 48) + 8 * (b.toNat - 48) + (c.toNat - 48))

/-- `unescape` -/
def unescape : Text → Text
  | '\\' :: a :: b :: c :: s =>
    if isOctal a && isOctal b && isOctal c then octal a b c :: unescape s
    else '\\' :: unescape (a :: b :: c :: s)
  | x :: s => x :: unescape s
  | [] => []

/-- `MountEntry` -/
structure MountEntry where
  mount : Text
  fstype : Text
  source : Text
  options : List Text
  dev : Text
deriving DecidableEq

/-- One line of `parse_mountinfo`. -/
def parseLine (line : Text) : Option MountEntry :=
  (splitOnce [' ', '-', ' '] line).bind fun r =>
    let lf := splitWs r.1
    let rf := splitWs r.2
    if lf.length < 6 ∨ rf.length < 2 then none
    else some ⟨unescape (lf.getD 4 []), rf.getD 0 [], unescape (rf.getD 1 []),
      (lf.getD 5 []).splitOn ',', lf.getD 2 []⟩

/-- `parse_mountinfo` -/
def parseMountinfo (text : Text) : List MountEntry :=
  (splitlines text).filterMap parseLine

/-- A mount point that leads to a path, by their texts. -/
def covers (path mp : Text) : Bool :=
  path = mp || mp = ['/'] || (mp.rdropWhile (· = '/') ++ ['/']).isPrefixOf path

/-- `mount_of` : the longest mount point of a path, the later one of the same. -/
def mountOf (path : Text) (mounts : List MountEntry) : Option MountEntry :=
  mounts.foldl (fun best m =>
    if covers path m.mount && best.all fun b => b.mount.length ≤ m.mount.length then some m
    else best) none

/-! ## The kernel -/

/-- The escape of a character. -/
def escapeChar (c : Char) : Text :=
  if c = ' ' then ['\\', '0', '4', '0']
  else if c = '\t' then ['\\', '0', '1', '1']
  else if c = '\n' then ['\\', '0', '1', '2']
  else if c = '\\' then ['\\', '1', '3', '4']
  else if c = '#' then ['\\', '0', '4', '3']
  else [c]

/-- The escape of a text. -/
def escape (s : Text) : Text :=
  s.flatMap escapeChar

/-- The text of a path from `/`. -/
def pathText (p : List Text) : Text :=
  if p = [] then ['/'] else p.flatMap ('/' :: ·)

/-- A mount that was made, with the fields of its line. -/
structure Made where
  id : Text
  parentId : Text
  dev : Text
  root : Text
  point : List Text
  options : List Text
  /-- the optional fields -/
  tags : List Text
  fstype : Text
  source : Text
  superOptions : Text

/-- The fields left of the separator. -/
def Made.left (m : Made) : List Text :=
  [m.id, m.parentId, m.dev, m.root, escape (pathText m.point), [','].intercalate m.options] ++ m.tags

/-- Its line. -/
def Made.line (m : Made) : Text :=
  [' '].intercalate m.left ++ [' ', '-', ' '] ++
    [' '].intercalate [m.fstype, escape m.source, m.superOptions]

/-- `/proc/self/mountinfo` -/
def render (ms : List Made) : Text :=
  ms.flatMap fun m => m.line ++ ['\n']

/-- What the entry of a mount is to be. -/
def Made.entry (m : Made) : MountEntry :=
  ⟨pathText m.point, m.fstype, m.source, m.options, m.dev⟩

/-- A field that is no text of a user : a word that is not the separator. -/
def Word (w : Text) : Prop :=
  w ≠ [] ∧ w ≠ ['-'] ∧ ∀ c ∈ w, isspace c = false ∧ c ≠ '\\'

/-- A name in a path. -/
def Name (w : Text) : Prop :=
  w ≠ [] ∧ '/' ∉ w

/-- What the kernel writes in a line. -/
structure Made.Valid (m : Made) : Prop where
  id : Word m.id
  parentId : Word m.parentId
  dev : Word m.dev
  root : Word m.root
  point : ∀ w ∈ m.point, Name w
  options : Word ([','].intercalate m.options)
  commas : m.options ≠ [] ∧ ∀ o ∈ m.options, ',' ∉ o
  tags : ∀ w ∈ m.tags, Word w
  fstype : Word m.fstype
  superOptions : Word m.superOptions

/-- White space that the kernel does not escape. -/
def Stray (c : Char) : Prop :=
  isspace c = true ∧ c ≠ ' ' ∧ c ≠ '\t' ∧ c ≠ '\n'

/-- A mount whose texts have no stray white space. -/
structure Made.Plain (m : Made) : Prop where
  point : ∀ c ∈ pathText m.point, ¬Stray c
  source : ∀ c ∈ m.source, ¬Stray c
  some : m.source ≠ []

/-- No mount point is left hidden : where a later mount is above one, something is mounted at it
again. -/
def Shown (ps : List (List Text)) : Prop :=
  ∀ i j, HiddenBy ps i j → ∃ k, j < k ∧ ps[k]? = ps[i]?

/-! ## Escapes -/

section

variable {s t u w T : Text} {a b c x : Char}

theorem unescape_code (h : isOctal a && isOctal b && isOctal c) :
    unescape ('\\' :: a :: b :: c :: s) = octal a b c :: unescape s := by
  rw [unescape, if_pos h]

theorem unescape_cons (h : x ≠ '\\') : unescape (x :: s) = x :: unescape s := by
  rw [unescape]
  rintro a b c s hx
  exact absurd hx h

theorem unescape_escape (s : Text) : unescape (escape s) = s := by
  induction s with
  | nil => rfl
  | cons c s ih =>
    rw [escape] at ih
    rw [escape, List.flatMap_cons, escapeChar]
    split_ifs with h₁ h₂ h₃ h₄ h₅
    · rw [h₁]
      exact (unescape_code (by decide)).trans (congrArg _ ih)
    · rw [h₂]
      exact (unescape_code (by decide)).trans (congrArg _ ih)
    · rw [h₃]
      exact (unescape_code (by decide)).trans (congrArg _ ih)
    · rw [h₄]
      exact (unescape_code (by decide)).trans (congrArg _ ih)
    · rw [h₅]
      exact (unescape_code (by decide)).trans (congrArg _ ih)
    · exact (unescape_cons h₄).trans (congrArg _ ih)

theorem unescape_ne_nil (h : w ≠ []) : unescape w ≠ [] := by
  unfold unescape
  split
  · split_ifs <;> simp
  · simp
  · exact absurd rfl h

/-- The escapes of the kernel, after the backslash. -/
def codes : List Text :=
  [['0', '4', '0'], ['0', '1', '1'], ['0', '1', '2'], ['1', '3', '4'], ['0', '4', '3']]

/-- A text whose backslashes all start an escape. -/
def Coded (T : Text) : Prop :=
  ∀ t, '\\' :: t <:+ T → ∃ code ∈ codes, code <+: t

theorem coded_nil : Coded [] := by
  intro t ht
  exact absurd (List.suffix_nil.1 ht) (by simp)

theorem Coded.cons (h : Coded T) (hx : x ≠ '\\') : Coded (x :: T) := by
  intro t ht
  rcases List.suffix_cons_iff.1 ht with heq | ht
  · exact absurd (List.cons.inj heq).1.symm hx
  · exact h t ht

theorem Coded.append (h : Coded T) : ∀ u : Text, '\\' ∉ u → Coded (u ++ T)
  | [], _ => h
  | x :: u, hu => by
    rw [List.mem_cons, not_or] at hu
    exact (h.append u hu.2).cons fun hx => hu.1 hx.symm

theorem Coded.code (h : Coded T) (code : Text) (hcode : code ∈ codes) :
    Coded ('\\' :: code ++ T) := by
  have hback : '\\' ∉ code := by
    have hall : ∀ code ∈ codes, '\\' ∉ code := by decide
    exact hall code hcode
  intro t ht
  rcases List.suffix_cons_iff.1 ht with heq | ht
  · exact ⟨code, hcode, (List.cons.inj heq).2 ▸ List.prefix_append code T⟩
  · exact (h.append code hback) t ht

theorem Coded.escape (h : Coded T) (s : Text) : Coded (escape s ++ T) := by
  induction s with
  | nil => exact h
  | cons c s ih =>
    rw [MountInfo.escape, List.flatMap_cons, List.append_assoc]
    rw [MountInfo.escape] at ih
    rw [escapeChar]
    split_ifs with h₁ h₂ h₃ h₄ h₅
    · exact ih.code ['0', '4', '0'] (by decide)
    · exact ih.code ['0', '1', '1'] (by decide)
    · exact ih.code ['0', '1', '2'] (by decide)
    · exact ih.code ['1', '3', '4'] (by decide)
    · exact ih.code ['0', '4', '3'] (by decide)
    · exact ih.cons h₄

theorem mem_unescape : ∀ w : Text, c ∈ unescape w →
    c ∈ w ∨ ∃ a b d, ['\\', a, b, d] <:+: w ∧ c = octal a b d := by
  intro w
  induction w using unescape.induct with
  | case1 a b d s h ih =>
    intro hc
    rw [unescape_code h, List.mem_cons] at hc
    rcases hc with rfl | hc
    · exact .inr ⟨a, b, d, ⟨[], s, rfl⟩, rfl⟩
    · rcases ih hc with hc | ⟨a', b', d', hin, rfl⟩
      · exact .inl (by simp [hc])
      · refine .inr ⟨a', b', d', hin.trans ?_, rfl⟩
        exact (List.suffix_append ['\\', a, b, d] s).isInfix
  | case2 a b d s h ih =>
    intro hc
    rw [unescape, if_neg h, List.mem_cons] at hc
    rcases hc with rfl | hc
    · exact .inl List.mem_cons_self
    · rcases ih hc with hc | ⟨a', b', d', hin, rfl⟩
      · exact .inl (List.mem_cons_of_mem _ hc)
      · exact .inr ⟨a', b', d', List.infix_cons hin, rfl⟩
  | case3 x s h ih =>
    intro hc
    rw [unescape] at hc
    · rcases List.mem_cons.1 hc with rfl | hc
      · exact .inl List.mem_cons_self
      · rcases ih hc with hc | ⟨a', b', d', hin, rfl⟩
        · exact .inl (List.mem_cons_of_mem _ hc)
        · exact .inr ⟨a', b', d', List.infix_cons hin, rfl⟩
    · exact h
  | case4 =>
    intro hc
    rw [unescape] at hc
    exact absurd hc (by simp)

/-- What is read of a word of the kernel's text has no stray white space. -/
theorem not_stray_unescape (hT : Coded T) (hw : w <:+: T) (hspace : ∀ c ∈ w, isspace c = false) :
    ∀ c ∈ unescape w, ¬Stray c := by
  rintro c hc ⟨hc₁, hc₂, hc₃, hc₄⟩
  rcases mem_unescape w hc with hc | ⟨a, b, d, hin, rfl⟩
  · rw [hspace c hc] at hc₁
    cases hc₁
  · obtain ⟨p, q, hpq⟩ := hin.trans hw
    have hsuf : '\\' :: (a :: b :: d :: q) <:+ T := ⟨p, by rw [← hpq]; simp⟩
    obtain ⟨code, hcode, r, hr⟩ := hT _ hsuf
    simp only [codes, List.mem_cons, List.not_mem_nil, or_false] at hcode
    rcases hcode with rfl | rfl | rfl | rfl | rfl <;>
      simp only [List.cons_append, List.nil_append, List.cons.injEq] at hr <;>
      obtain ⟨rfl, rfl, rfl, -⟩ := hr
    · exact hc₂ (by decide)
    · exact hc₃ (by decide)
    · exact hc₄ (by decide)
    · exact absurd hc₁ (by decide)
    · exact absurd hc₁ (by decide)

end

/-! ## Cutting a text -/

section

variable {s t u w cur line rest right : Text} {ws : List Text} {e : MountEntry}

theorem mem_splitOnP {p : Char → Bool} (s : Text) (h : w ∈ s.splitOnP p) :
    w <:+: s ∧ ∀ c ∈ w, p c = false := by
  by_cases hsep : ∃ c ∈ s, p c
  · obtain ⟨xs, c, s', hs, hc, hxs⟩ : ∃ xs c s', s = xs ++ c :: s' ∧ p c = true ∧
        ∀ x ∈ xs, p x = false := by
      obtain ⟨c, hfind⟩ := Option.isSome_iff_exists.1 (List.find?_isSome.2 hsep)
      obtain ⟨hc, xs, s', hs, hxs⟩ := List.find?_eq_some_iff_append.1 hfind
      exact ⟨xs, c, s', hs, hc, fun x hx => by simpa using hxs x hx⟩
    have hlt : s'.length < s.length := by
      rw [hs, List.length_append, List.length_cons]
      omega
    rw [hs, List.splitOnP_append_cons_of_forall_mem hxs c hc, List.mem_cons] at h
    rcases h with rfl | h
    · exact ⟨⟨[], c :: s', by simp [hs]⟩, hxs⟩
    · obtain ⟨hin, hp⟩ := mem_splitOnP s' h
      refine ⟨hin.trans ?_, hp⟩
      rw [hs]
      exact ⟨xs ++ [c], [], by simp⟩
  · have hall : ∀ c ∈ s, p c = false := fun c hc => by
      simpa using fun hpc => hsep ⟨c, hc, hpc⟩
    rw [List.splitOnP_eq_singleton hall, List.mem_singleton] at h
    subst h
    exact ⟨List.infix_rfl, hall⟩
termination_by s.length

theorem mem_splitWs (h : w ∈ splitWs s) : w <:+: s ∧ w ≠ [] ∧ ∀ c ∈ w, isspace c = false := by
  obtain ⟨hw, hne⟩ := List.mem_filter.1 h
  obtain ⟨hin, hspace⟩ := mem_splitOnP s hw
  exact ⟨hin, by simpa using hne, hspace⟩

theorem splitOnce_eq {sep : Text} : ∀ {s l r : Text}, splitOnce sep s = some (l, r) →
    s = l ++ sep ++ r
  | [], l, r, h => by
    rw [splitOnce] at h
    split_ifs at h with hsep
    obtain ⟨rfl, rfl⟩ := Prod.mk.inj (Option.some.inj h)
    simp [hsep]
  | c :: s, l, r, h => by
    rw [splitOnce] at h
    split_ifs at h with hsep
    · obtain ⟨rfl, rfl⟩ := Prod.mk.inj (Option.some.inj h)
      obtain ⟨q, hq⟩ := List.isPrefixOf_iff_prefix.1 hsep
      rw [← hq, List.drop_left, List.nil_append]
    · obtain ⟨r', hr', heq⟩ := Option.map_eq_some_iff.1 h
      obtain ⟨rfl, rfl⟩ := Prod.mk.inj heq
      rw [splitOnce_eq hr']
      simp

theorem infix_of_linesFrom : ∀ (cur s : Text), line ∈ linesFrom cur s → line <:+: cur ++ s
  | cur, [], h => by
    rw [linesFrom] at h
    split_ifs at h
    · exact absurd h (by simp)
    · rw [List.mem_singleton.1 h, List.append_nil]
  | cur, c :: s, h => by
    have hdrop : ∀ n, line ∈ linesFrom [] (s.drop n) → line <:+: cur ++ c :: s := fun n hn => by
      have hin := infix_of_linesFrom [] (s.drop n) hn
      rw [List.nil_append] at hin
      refine (hin.trans (List.drop_suffix n s).isInfix).trans ?_
      exact ⟨cur ++ [c], [], by simp⟩
    rw [linesFrom] at h
    split_ifs at h with hbreak hcr
    · rcases List.mem_cons.1 h with rfl | h
      · exact (List.prefix_append line _).isInfix
      · exact hdrop 1 h
    · rcases List.mem_cons.1 h with rfl | h
      · exact (List.prefix_append line _).isInfix
      · exact hdrop 0 h
    · have hin := infix_of_linesFrom (cur ++ [c]) s h
      rwa [List.append_assoc] at hin
termination_by _ s => s.length

/-- The texts of an entry are words of what was read. -/
theorem words_of_entry (h : e ∈ parseMountinfo t) :
    ∃ mount source, e.mount = unescape mount ∧ e.source = unescape source ∧
      (mount <:+: t ∧ mount ≠ [] ∧ ∀ c ∈ mount, isspace c = false) ∧
      source <:+: t ∧ source ≠ [] ∧ ∀ c ∈ source, isspace c = false := by
  obtain ⟨line, hline, hparse⟩ := List.mem_filterMap.1 h
  have hin : line <:+: t := infix_of_linesFrom [] t hline
  obtain ⟨⟨l, r⟩, hsplit, he⟩ := Option.bind_eq_some_iff.1 hparse
  dsimp only at he
  split_ifs at he with hlen
  obtain rfl := Option.some.inj he
  rw [not_or, not_lt, not_lt] at hlen
  have heq := splitOnce_eq hsplit
  have hl : l <:+: t := List.IsInfix.trans ⟨[], [' ', '-', ' '] ++ r, by simp [heq]⟩ hin
  have hr : r <:+: t := List.IsInfix.trans ⟨l ++ [' ', '-', ' '], [], by simp [heq]⟩ hin
  have hword {x : Text} {k : ℕ} (hx : x <:+: t) (hk : k < (splitWs x).length) :
      (splitWs x).getD k [] <:+: t ∧ (splitWs x).getD k [] ≠ [] ∧
        ∀ c ∈ (splitWs x).getD k [], isspace c = false := by
    have hmem : (splitWs x).getD k [] ∈ splitWs x := by
      rw [List.getD_eq_getElem _ _ hk]
      exact List.getElem_mem hk
    obtain ⟨hin, hne, hspace⟩ := mem_splitWs hmem
    exact ⟨hin.trans hx, hne, hspace⟩
  exact ⟨_, _, rfl, rfl, hword hl (by omega), hword hr (by omega)⟩

/-! ## A line of words -/

theorem linesFrom_line (h : ∀ c ∈ s, isLineBreak c = false) (rest : Text) :
    ∀ cur, linesFrom cur (s ++ '\n' :: rest) = (cur ++ s) :: linesFrom [] rest := by
  induction s with
  | nil =>
    intro cur
    rw [List.nil_append, linesFrom, if_pos (by decide), if_neg fun hc => absurd hc.1 (by decide),
      List.append_nil]
  | cons c s ih =>
    intro cur
    have hc : ¬isLineBreak c := by simp [h c List.mem_cons_self]
    rw [List.cons_append, linesFrom, if_neg hc, ih fun d hd => h d (List.mem_cons_of_mem c hd),
      List.append_assoc]
    rfl

theorem isspace_of_isLineBreak {c : Char} (h : isLineBreak c = true) : isspace c = true := by
  simp only [isLineBreak, isspace, Bool.or_eq_true, Bool.and_eq_true, decide_eq_true_eq,
    beq_iff_eq] at h ⊢
  omega

theorem join_cons (h : ws ≠ []) : [' '].intercalate (w :: ws) = w ++ ' ' :: [' '].intercalate ws := by
  cases ws with
  | nil => exact absurd rfl h
  | cons v ws => simp [List.intercalate, List.intersperse]

theorem splitWs_join (hne : ws ≠ []) (h : ∀ w ∈ ws, w ≠ [] ∧ ∀ c ∈ w, isspace c = false) :
    splitWs ([' '].intercalate ws) = ws := by
  induction ws with
  | nil => exact absurd rfl hne
  | cons w ws ih =>
    obtain ⟨hw, hspace⟩ := h w List.mem_cons_self
    by_cases hnil : ws = []
    · subst hnil
      have hone : [' '].intercalate [w] = w := by simp [List.intercalate]
      rw [hone, splitWs, List.splitOnP_eq_singleton hspace]
      simp [hw]
    · have hrest := ih hnil fun v hv => h v (List.mem_cons_of_mem w hv)
      rw [splitWs] at hrest
      rw [join_cons hnil, splitWs,
        List.splitOnP_append_cons_of_forall_mem hspace ' ' (by decide),
        List.filter_cons_of_pos (by simpa using hw), hrest]

/-- The separator does not start in a word. -/
theorem splitOnce_skip (h : ' ' ∉ u) (s : Text) : splitOnce [' ', '-', ' '] (u ++ s) =
    (splitOnce [' ', '-', ' '] s).map fun r => (u ++ r.1, r.2) := by
  induction u with
  | nil => simp
  | cons c u ih =>
    rw [List.mem_cons, not_or] at h
    have hno : ¬[' ', '-', ' '].isPrefixOf (c :: (u ++ s)) := by
      simp [List.isPrefixOf, h.1]
    rw [List.cons_append, splitOnce, if_neg hno, ih h.2, Option.map_map]
    rfl

theorem splitOnce_join (hne : ws ≠ []) (h : ∀ w ∈ ws, w ≠ [] ∧ w ≠ ['-'] ∧ ' ' ∉ w)
    (right : Text) : splitOnce [' ', '-', ' '] ([' '].intercalate ws ++ [' ', '-', ' '] ++ right) =
      some ([' '].intercalate ws, right) := by
  induction ws with
  | nil => exact absurd rfl hne
  | cons w ws ih =>
    obtain ⟨hw, -, hspace⟩ := h w List.mem_cons_self
    by_cases hnil : ws = []
    · subst hnil
      have hone : [' '].intercalate [w] = w := by simp [List.intercalate]
      have hhere : splitOnce [' ', '-', ' '] ([' ', '-', ' '] ++ right) = some ([], right) := by
        rw [List.cons_append, splitOnce, if_pos (by simp [List.isPrefixOf])]
        rfl
      rw [hone, List.append_assoc, splitOnce_skip hspace, hhere]
      simp
    · have hrest := ih hnil fun v hv => h v (List.mem_cons_of_mem w hv)
      obtain ⟨v, vs, rfl⟩ := List.exists_cons_of_ne_nil hnil
      obtain ⟨hv, hdash, hvspace⟩ := h v (by simp)
      -- what follows the space is a word, and no separator
      obtain ⟨q, hq⟩ : ∃ q, [' '].intercalate (v :: vs) ++ [' ', '-', ' '] ++ right =
          v ++ ' ' :: q := by
        by_cases hvs : vs = []
        · exact ⟨'-' :: ' ' :: right, by simp [hvs, List.intercalate]⟩
        · exact ⟨[' '].intercalate vs ++ [' ', '-', ' '] ++ right, by rw [join_cons hvs]; simp⟩
      have hno : ¬[' ', '-', ' '].isPrefixOf (' ' :: (v ++ ' ' :: q)) := by
        obtain ⟨d, v', rfl⟩ := List.exists_cons_of_ne_nil hv
        cases v' with
        | nil =>
          have hd : d ≠ '-' := fun hd => hdash (by rw [hd])
          simp [List.isPrefixOf, hd.symm]
        | cons d' v' =>
          have hd' : d' ≠ ' ' := fun hd => hvspace (by simp [hd])
          simp [List.isPrefixOf, hd'.symm]
      have hstep : splitOnce [' ', '-', ' '] (' ' :: (v ++ ' ' :: q)) =
          (splitOnce [' ', '-', ' '] (v ++ ' ' :: q)).map fun r => (' ' :: r.1, r.2) := by
        rw [splitOnce, if_neg hno]
      rw [join_cons hnil, List.append_assoc, List.append_assoc, splitOnce_skip hspace,
        List.cons_append, ← List.append_assoc, hq, hstep, ← hq, hrest]
      simp

end

/-! ## What the parser makes of the kernel's text -/

section

variable {s w T : Text} {ws : List Text} {m : Made} {ms : List Made} {c : Char}

theorem mem_join : ∀ {ws : List Text}, c ∈ [' '].intercalate ws → c = ' ' ∨ ∃ w ∈ ws, c ∈ w
  | [], h => absurd h (by simp [List.intercalate])
  | [w], h => .inr ⟨w, by simp, by simpa [List.intercalate] using h⟩
  | w :: v :: ws, h => by
    rw [join_cons (by simp), List.mem_append, List.mem_cons] at h
    rcases h with h | h | h
    · exact .inr ⟨w, by simp, h⟩
    · exact .inl h
    · exact (mem_join h).imp id fun ⟨x, hx, hc⟩ => ⟨x, List.mem_cons_of_mem w hx, hc⟩

/-- A text that leaves what follows it coded. -/
def Piece (w : Text) : Prop :=
  ∀ T, Coded T → Coded (w ++ T)

theorem Word.piece (h : Word w) : Piece w :=
  fun _ hT => hT.append w fun hc => (h.2.2 _ hc).2 rfl

theorem piece_escape (s : Text) : Piece (escape s) :=
  fun _ hT => hT.escape s

theorem piece_join (h : ∀ w ∈ ws, Piece w) : Piece ([' '].intercalate ws) := by
  induction ws with
  | nil => exact fun T hT => by simpa [List.intercalate] using hT
  | cons w ws ih =>
    intro T hT
    have hw := h w List.mem_cons_self
    by_cases hnil : ws = []
    · subst hnil
      simpa [List.intercalate] using hw T hT
    · have hrest := ih (fun v hv => h v (List.mem_cons_of_mem w hv)) T hT
      rw [join_cons hnil, List.append_assoc, List.cons_append]
      exact hw _ (hrest.cons (by decide))

theorem piece_line (h : m.Valid) : Piece m.line := by
  have hleft : ∀ w ∈ m.left, Piece w := by
    intro w hw
    simp only [Made.left, List.mem_append, List.mem_cons, List.not_mem_nil, or_false] at hw
    rcases hw with (rfl | rfl | rfl | rfl | rfl | rfl) | hw
    · exact h.id.piece
    · exact h.parentId.piece
    · exact h.dev.piece
    · exact h.root.piece
    · exact piece_escape _
    · exact h.options.piece
    · exact (h.tags w hw).piece
  have hright : ∀ w ∈ [m.fstype, escape m.source, m.superOptions], Piece w := by
    intro w hw
    simp only [List.mem_cons, List.not_mem_nil, or_false] at hw
    rcases hw with rfl | rfl | rfl
    · exact h.fstype.piece
    · exact piece_escape _
    · exact h.superOptions.piece
  intro T hT
  have hT' := (piece_join hright T hT).append [' ', '-', ' '] (by decide)
  have hline := piece_join hleft _ hT'
  simpa [Made.line] using hline

theorem coded_render (h : ∀ m ∈ ms, m.Valid) : Coded (render ms) := by
  induction ms with
  | nil => exact coded_nil
  | cons m ms ih =>
    have hrest := ih fun m' hm => h m' (List.mem_cons_of_mem m hm)
    have hline := piece_line (h m List.mem_cons_self) _
      (hrest.cons (x := '\n') (by decide))
    simpa [render] using hline

theorem isspace_of_all (h : w.all (!isspace ·) = true) : ∀ c ∈ w, isspace c = false := by
  intro c hc
  simpa using List.all_eq_true.1 h c hc

theorem isspace_escape (h : ∀ c ∈ s, ¬Stray c) : ∀ c ∈ escape s, isspace c = false := by
  intro c hc
  obtain ⟨d, hd, hc⟩ := List.mem_flatMap.1 hc
  rw [escapeChar] at hc
  split_ifs at hc with h₁ h₂ h₃ h₄ h₅
  · exact isspace_of_all (by decide) c hc
  · exact isspace_of_all (by decide) c hc
  · exact isspace_of_all (by decide) c hc
  · exact isspace_of_all (by decide) c hc
  · exact isspace_of_all (by decide) c hc
  · obtain rfl := List.mem_singleton.1 hc
    by_contra hspace
    exact h c hd ⟨by simpa using hspace, h₁, h₂, h₃⟩

theorem pathText_head (p : List Text) : ∃ t, pathText p = '/' :: t := by
  rw [pathText]
  split_ifs with h
  · exact ⟨[], rfl⟩
  · obtain ⟨w, p, rfl⟩ := List.exists_cons_of_ne_nil h
    exact ⟨w ++ p.flatMap ('/' :: ·), rfl⟩

/-- The fields of a line are words. -/
theorem left_words (hv : m.Valid) (hp : m.Plain) :
    ∀ w ∈ m.left, w ≠ [] ∧ w ≠ ['-'] ∧ ∀ c ∈ w, isspace c = false := by
  have hword {w : Text} (h : Word w) : w ≠ [] ∧ w ≠ ['-'] ∧ ∀ c ∈ w, isspace c = false :=
    ⟨h.1, h.2.1, fun c hc => (h.2.2 c hc).1⟩
  intro w hw
  simp only [Made.left, List.mem_append, List.mem_cons, List.not_mem_nil, or_false] at hw
  rcases hw with (rfl | rfl | rfl | rfl | rfl | rfl) | hw
  · exact hword hv.id
  · exact hword hv.parentId
  · exact hword hv.dev
  · exact hword hv.root
  · obtain ⟨t, ht⟩ := pathText_head m.point
    have hesc : escape (pathText m.point) = '/' :: escape t := by
      rw [ht]
      rfl
    exact ⟨by simp [hesc], by simp [hesc], isspace_escape hp.point⟩
  · exact hword hv.options
  · exact hword (hv.tags w hw)

theorem right_words (hv : m.Valid) (hp : m.Plain) :
    ∀ w ∈ [m.fstype, escape m.source, m.superOptions], w ≠ [] ∧ ∀ c ∈ w, isspace c = false := by
  intro w hw
  simp only [List.mem_cons, List.not_mem_nil, or_false] at hw
  rcases hw with rfl | rfl | rfl
  · exact ⟨hv.fstype.1, fun c hc => (hv.fstype.2.2 c hc).1⟩
  · refine ⟨fun hnil => hp.some ?_, isspace_escape hp.source⟩
    rw [← unescape_escape m.source, hnil]
    rfl
  · exact ⟨hv.superOptions.1, fun c hc => (hv.superOptions.2.2 c hc).1⟩

theorem parseLine_line (hv : m.Valid) (hp : m.Plain) : parseLine m.line = some m.entry := by
  have hleft := left_words hv hp
  have hright := right_words hv hp
  have hspace : ∀ w ∈ m.left, w ≠ [] ∧ w ≠ ['-'] ∧ ' ' ∉ w := fun w hw =>
    ⟨(hleft w hw).1, (hleft w hw).2.1, fun hc => by
      have := (hleft w hw).2.2 _ hc
      exact absurd this (by decide)⟩
  have hne : m.left ≠ [] := by simp [Made.left]
  have hoptions : ([','].intercalate m.options).splitOn ',' = m.options :=
    List.splitOn_intercalate ',' hv.commas.2 hv.commas.1
  rw [parseLine, Made.line, splitOnce_join hne hspace, Option.bind_some]
  dsimp only
  rw [splitWs_join hne fun w hw => ⟨(hleft w hw).1, (hleft w hw).2.2⟩,
    splitWs_join (by simp) hright, if_neg (by simp [Made.left])]
  simp only [Made.left, List.cons_append, List.getD_cons_succ, List.getD_cons_zero,
    unescape_escape, hoptions]
  rfl

theorem line_unbroken (hv : m.Valid) (hp : m.Plain) : ∀ c ∈ m.line, isLineBreak c = false := by
  have hof {c : Char} (h : isspace c = false) : isLineBreak c = false := by
    by_contra hb
    rw [isspace_of_isLineBreak (by simpa using hb)] at h
    cases h
  intro c hc
  rw [Made.line, List.mem_append, List.mem_append] at hc
  rcases hc with (hc | hc) | hc
  · rcases mem_join hc with rfl | ⟨w, hw, hc⟩
    · decide
    · exact hof ((left_words hv hp w hw).2.2 c hc)
  · have hsep : c = ' ' ∨ c = '-' ∨ c = ' ' := by simpa using hc
    rcases hsep with rfl | rfl | rfl <;> decide
  · rcases mem_join hc with rfl | ⟨w, hw, hc⟩
    · decide
    · exact hof ((right_words hv hp w hw).2 c hc)

theorem splitlines_render (hv : ∀ m ∈ ms, m.Valid) (hp : ∀ m ∈ ms, m.Plain) :
    splitlines (render ms) = ms.map Made.line := by
  induction ms with
  | nil => simp [splitlines, render, linesFrom]
  | cons m ms ih =>
    have hrest := ih (fun m' hm => hv m' (List.mem_cons_of_mem m hm))
      fun m' hm => hp m' (List.mem_cons_of_mem m hm)
    have hline := line_unbroken (hv m List.mem_cons_self) (hp m List.mem_cons_self)
    rw [splitlines] at hrest
    rw [splitlines, render, List.flatMap_cons, List.append_assoc, List.singleton_append,
      linesFrom_line hline, List.map_cons, List.nil_append]
    exact congrArg _ hrest

/-- The mounts come back just when their texts have no stray white space. -/
theorem parse_render_iff (hv : ∀ m ∈ ms, m.Valid) :
    parseMountinfo (render ms) = ms.map Made.entry ↔ ∀ m ∈ ms, m.Plain := by
  constructor
  · intro h m hm
    have hcoded := coded_render hv
    have hmem : m.entry ∈ parseMountinfo (render ms) := by
      rw [h]
      exact List.mem_map_of_mem hm
    obtain ⟨mount, source, hmount, hsource, hin, hin'⟩ := words_of_entry hmem
    have hpoint := not_stray_unescape hcoded hin.1 hin.2.2
    have hsrc := not_stray_unescape hcoded hin'.1 hin'.2.2
    rw [← hmount] at hpoint
    rw [← hsource] at hsrc
    refine ⟨hpoint, hsrc, ?_⟩
    have hne := unescape_ne_nil hin'.2.1
    rwa [← hsource] at hne
  · intro hp
    rw [parseMountinfo, splitlines_render hv hp, List.filterMap_map]
    have hsome : ∀ m ∈ ms, (parseLine ∘ Made.line) m = some m.entry := fun m hm =>
      parseLine_line (hv m hm) (hp m hm)
    rw [List.filterMap_congr hsome]
    simp

end

/-! ## The texts of paths -/

section

variable {p q p' : List Text} {a b s t : Text}

theorem segment_prefix (ha : '/' ∉ a) (hb : '/' ∉ b) (h : a ++ '/' :: s <+: b ++ '/' :: t) :
    a = b ∧ '/' :: s <+: '/' :: t := by
  induction a generalizing b with
  | nil =>
    cases b with
    | nil => exact ⟨rfl, h⟩
    | cons d b =>
      rw [List.nil_append, List.cons_append, List.cons_prefix_cons] at h
      exact absurd (h.1 ▸ List.mem_cons_self) hb
  | cons c a ih =>
    rw [List.mem_cons, not_or] at ha
    cases b with
    | nil =>
      rw [List.nil_append, List.cons_append, List.cons_prefix_cons] at h
      exact absurd h.1.symm ha.1
    | cons d b =>
      rw [List.mem_cons, not_or] at hb
      rw [List.cons_append, List.cons_append, List.cons_prefix_cons] at h
      obtain ⟨rfl, hrest⟩ := ih ha.2 hb.2 h.2
      exact ⟨by rw [h.1], hrest⟩

/-- The names of a path, each after its slash. -/
def flat (p : List Text) : Text :=
  p.flatMap ('/' :: ·)

theorem flat_slash (p : List Text) : ∃ t, flat p ++ ['/'] = '/' :: t := by
  cases p with
  | nil => exact ⟨[], rfl⟩
  | cons w p => exact ⟨w ++ flat p ++ ['/'], by simp [flat]⟩

theorem flat_prefix_iff (hp : ∀ w ∈ p, Name w) (hq : ∀ w ∈ q, Name w) :
    flat p ++ ['/'] <+: flat q ++ ['/'] ↔ p <+: q := by
  induction p generalizing q with
  | nil =>
    obtain ⟨t, ht⟩ := flat_slash q
    rw [ht]
    simp [flat]
  | cons a p ih =>
    obtain ⟨s, hs⟩ := flat_slash p
    have hcons : flat (a :: p) ++ ['/'] = '/' :: (a ++ '/' :: s) := by
      rw [← hs]
      simp [flat]
    have ha := hp a List.mem_cons_self
    cases q with
    | nil =>
      rw [hcons]
      obtain ⟨c, a', rfl⟩ := List.exists_cons_of_ne_nil ha.1
      simp [flat]
    | cons b q =>
      obtain ⟨t, ht⟩ := flat_slash q
      have hcons' : flat (b :: q) ++ ['/'] = '/' :: (b ++ '/' :: t) := by
        rw [← ht]
        simp [flat]
      have hrest := ih (fun w hw => hp w (List.mem_cons_of_mem a hw)) (q := q)
        fun w hw => hq w (List.mem_cons_of_mem b hw)
      rw [hs, ht] at hrest
      rw [hcons, hcons', List.cons_prefix_cons, List.cons_prefix_cons, ← hrest]
      constructor
      · rintro ⟨-, h⟩
        exact segment_prefix ha.2 (hq b List.mem_cons_self).2 h
      · rintro ⟨rfl, h⟩
        exact ⟨rfl, (List.prefix_append_right_inj a).2 h⟩

theorem pathText_of_ne (h : p ≠ []) : pathText p = flat p :=
  if_neg h

/-- A mount point is that of a path above, or of the path. -/
theorem covers_iff (hp : ∀ w ∈ p, Name w) (hq : ∀ w ∈ q, Name w) :
    covers (pathText q) (pathText p) = true ↔ p <+: q := by
  by_cases hnil : p = []
  · subst hnil
    simp [covers, pathText]
  · obtain ⟨init, last, rfl⟩ : ∃ init last, p = init ++ [last] :=
      ⟨_, _, (List.dropLast_append_getLast hnil).symm⟩
    have hlast := hp last (by simp)
    obtain ⟨u, c, hlast'⟩ : ∃ u c, last = u ++ [c] :=
      ⟨_, _, (List.dropLast_append_getLast hlast.1).symm⟩
    have hc : c ≠ '/' := fun hc => hlast.2 (by simp [hlast', hc])
    have hflat : flat (init ++ [last]) = flat init ++ '/' :: u ++ [c] := by
      simp [flat, hlast']
    have htrim : (pathText (init ++ [last])).rdropWhile (· = '/') = flat (init ++ [last]) := by
      rw [pathText_of_ne hnil, hflat]
      exact List.rdropWhile_concat_neg _ _ _ (by simpa using hc)
    have hroot : pathText (init ++ [last]) ≠ ['/'] := by
      rw [pathText_of_ne hnil, hflat]
      intro hc
      have hlen := congrArg List.length hc
      simp only [List.length_append, List.length_cons, List.length_nil] at hlen
      omega
    have hself : flat (init ++ [last]) ++ ['/'] <+: flat q ++ ['/'] ↔
        pathText q = flat (init ++ [last]) ∨ flat (init ++ [last]) ++ ['/'] <+: pathText q := by
      by_cases hq' : q = []
      · subst hq'
        refine ⟨fun h => .inr h, fun h => h.resolve_left fun hc => hroot ?_⟩
        rw [pathText_of_ne hnil, ← hc]
        rfl
      · rw [List.prefix_concat_iff, pathText_of_ne hq', List.append_left_inj, eq_comm]
    rw [← flat_prefix_iff hp hq, hself, covers, htrim, pathText_of_ne hnil]
    rw [pathText_of_ne hnil] at hroot
    simp [hroot, List.isPrefixOf_iff_prefix]

theorem pathText_length (hp : ∀ w ∈ p', Name w) (h : p <+: p') (hne : p ≠ p') :
    (pathText p).length < (pathText p').length := by
  obtain ⟨r, rfl⟩ := h
  obtain ⟨w, r, rfl⟩ : ∃ w r', r = w :: r' :=
    List.exists_cons_of_ne_nil fun hr => hne (by rw [hr, List.append_nil])
  have hw : 0 < w.length := List.length_pos_iff.2 (hp w (by simp)).1
  rw [pathText_of_ne (p := p ++ w :: r) (by simp), flat, List.flatMap_append, List.length_append,
    List.flatMap_cons, List.length_append, List.length_cons]
  by_cases hnil : p = []
  · subst hnil
    simp only [pathText, if_pos, List.flatMap_nil, List.length_nil, List.length_singleton]
    omega
  · rw [pathText_of_ne hnil, flat]
    omega

end

/-! ## The mount of a path -/

section

variable {path : Text} {l : List MountEntry} {e : MountEntry} {ms : List Made} {p q : List Text}

theorem mountOf_concat : mountOf path (l ++ [e]) =
    if covers path e.mount && (mountOf path l).all fun b => b.mount.length ≤ e.mount.length then
      some e
    else mountOf path l := by
  rw [mountOf, List.foldl_append]
  rfl

/-- The longest mount point of a path, and the last mount at it. -/
theorem mountOf_spec : ∀ {l : List MountEntry},
    (mountOf path l = none → ∀ e ∈ l, covers path e.mount = false) ∧
      ∀ e, mountOf path l = some e → ∃ i : ℕ, l[i]? = some e ∧ covers path e.mount = true ∧
        (∀ x ∈ l, covers path x.mount = true → x.mount.length ≤ e.mount.length) ∧
        ∀ (j : ℕ) x, i < j → l[j]? = some x → covers path x.mount = true →
          x.mount.length < e.mount.length := by
  intro l
  induction l using List.reverseRecOn with
  | nil => exact ⟨fun _ e he => absurd he (by simp), fun e he => (by cases he)⟩
  | append_singleton l m ih =>
    obtain ⟨ihnone, ihsome⟩ := ih
    rw [mountOf_concat]
    split_ifs with htake
    · refine ⟨fun h => (by cases h), fun e he => ?_⟩
      obtain rfl := Option.some.inj he
      rw [Bool.and_eq_true] at htake
      obtain ⟨hcover, hbest⟩ := htake
      refine ⟨l.length, by simp, hcover, fun x hx hxc => ?_, fun j x hj hx => ?_⟩
      · rcases List.mem_append.1 hx with hx | hx
        · rcases hb : mountOf path l with _ | b
          · rw [ihnone hb x hx] at hxc
            cases hxc
          · obtain ⟨-, -, -, hlong, -⟩ := ihsome b hb
            rw [hb] at hbest
            exact (hlong x hx hxc).trans (by simpa using hbest)
        · rw [List.mem_singleton.1 hx]
      · have hlen := (List.getElem?_eq_some_iff.1 hx).1
        rw [List.length_append, List.length_singleton] at hlen
        omega
    · -- the new mount does not lead to the path, or is at a shorter point
      refine ⟨fun h e he => ?_, fun e he => ?_⟩
      · rcases List.mem_append.1 he with he | he
        · exact ihnone h e he
        · rw [h] at htake
          rw [List.mem_singleton.1 he]
          simpa using htake
      · obtain ⟨i, hi, hcover, hlong, hlast⟩ := ihsome e he
        have hshort : covers path m.mount = true → m.mount.length < e.mount.length := by
          intro hc
          rw [he, hc] at htake
          simpa using htake
        have hlt := (List.getElem?_eq_some_iff.1 hi).1
        refine ⟨i, by rw [List.getElem?_append_left hlt, hi], hcover, fun x hx hxc => ?_,
          fun j x hj hx hxc => ?_⟩
        · rcases List.mem_append.1 hx with hx | hx
          · exact hlong x hx hxc
          · rw [List.mem_singleton.1 hx] at hxc ⊢
            exact (hshort hxc).le
        · by_cases hjl : j < l.length
          · rw [List.getElem?_append_left hjl] at hx
            exact hlast j x hj hx hxc
          · have hlen := (List.getElem?_eq_some_iff.1 hx).1
            rw [List.length_append, List.length_singleton] at hlen
            obtain rfl : j = l.length := by omega
            rw [List.getElem?_append_right le_rfl] at hx
            simp only [Nat.sub_self, List.getElem?_cons_zero, Option.some.injEq] at hx
            exact hx ▸ hshort (hx ▸ hxc)

/-- The mounts of a node, and the mount where a path lives. -/
def livesOn (ms : List Made) (q : List Text) : Option MountEntry :=
  (walk (mountAll (ms.map Made.point)) q).bind fun i => (ms.map Made.entry)[i]?

theorem point_of_get {i : ℕ} (hi : (ms.map Made.point)[i]? = some p) :
    ∃ m ∈ ms, m.point = p ∧ (ms.map Made.entry)[i]? = some m.entry := by
  rw [List.getElem?_map] at hi
  obtain ⟨m, hm, rfl⟩ := Option.map_eq_some_iff.1 hi
  exact ⟨m, List.mem_of_getElem? hm, rfl, by rw [List.getElem?_map, hm]; rfl⟩

theorem get_of_entry {i : ℕ} (hi : (ms.map Made.entry)[i]? = some e) :
    ∃ m ∈ ms, m.entry = e ∧ (ms.map Made.point)[i]? = some m.point := by
  rw [List.getElem?_map] at hi
  obtain ⟨m, hm, rfl⟩ := Option.map_eq_some_iff.1 hi
  exact ⟨m, List.mem_of_getElem? hm, rfl, by rw [List.getElem?_map, hm]; rfl⟩

/-- A path lives at the longest mount point above it, when none stays hidden. -/
theorem mountOf_eq_livesOn (hv : ∀ m ∈ ms, m.Valid) (hs : Shown (ms.map Made.point))
    (hq : ∀ w ∈ q, Name w) : mountOf (pathText q) (ms.map Made.entry) = livesOn ms q := by
  obtain ⟨hnone, hsome⟩ := @mountOf_spec (pathText q) (ms.map Made.entry)
  rw [livesOn, walk_mountAll]
  rcases hr : mountOf (pathText q) (ms.map Made.entry) with _ | e
  · -- no mount point is above the path
    rcases hlast : lastCover (ms.map Made.point) q with _ | k
    · rfl
    · obtain ⟨p, hk, hp, -⟩ := lastCover_eq_some.1 hlast
      obtain ⟨m, hm, rfl, -⟩ := point_of_get hk
      have hcover : covers (pathText q) m.entry.mount = true :=
        (covers_iff (hv m hm).point hq).2 hp
      rw [hnone hr m.entry (List.mem_map_of_mem hm)] at hcover
      cases hcover
  · obtain ⟨i, hi, hcover, -, hlater⟩ := hsome e hr
    obtain ⟨m, hm, rfl, hpoint⟩ := get_of_entry hi
    have hp : m.point <+: q := (covers_iff (hv m hm).point hq).1 hcover
    obtain ⟨k, hk⟩ := Option.ne_none_iff_exists'.1 (lastCover_ne_none hpoint hp)
    obtain ⟨p', hk', hp', hlast⟩ := lastCover_eq_some.1 hk
    obtain ⟨m', hm', rfl, hentry⟩ := point_of_get hk'
    rw [hk, Option.bind_some]
    rcases lt_trichotomy i k with hlt | rfl | hgt
    · -- the last mount above the path is at a point above the longest, and hides it
      have hlen : m'.entry.mount.length < m.entry.mount.length :=
        hlater k m'.entry hlt hentry ((covers_iff (hv m' hm').point hq).2 hp')
      have hne : m'.point ≠ m.point := by
        intro hsame
        rw [Made.entry, Made.entry, hsame] at hlen
        exact hlen.false
      have hup : m'.point <+: m.point := by
        rcases List.prefix_or_prefix_of_prefix hp' hp with h | h
        · exact h
        · exact absurd (pathText_length (hv m' hm').point h hne.symm) hlen.asymm
      obtain ⟨j, hj, hagain⟩ := hs i k ⟨m.point, m'.point, hpoint, hk', hlt, hup, hne⟩
      exact absurd hp (hlast j m.point hj (hagain.trans hpoint))
    · rw [← hi]
    · exact absurd hp (hlast i m.point hgt hpoint)

/-- A mount point that stays hidden is taken for the one it lives on. -/
theorem shown_of_mountOf (hv : ∀ m ∈ ms, m.Valid)
    (h : ∀ q, (∀ w ∈ q, Name w) → mountOf (pathText q) (ms.map Made.entry) = livesOn ms q) :
    Shown (ms.map Made.point) := by
  rintro i j ⟨p, p', hi, hj, hlt, hup, hne⟩
  by_contra hagain
  obtain ⟨m, hm, rfl, hentry⟩ := point_of_get hi
  obtain ⟨k, hk⟩ := Option.ne_none_iff_exists'.1 (lastCover_ne_none hi List.prefix_rfl)
  obtain ⟨p'', hk', hp'', hlast⟩ := lastCover_eq_some.1 hk
  have hjk : j ≤ k := not_lt.1 fun hkj => hlast j p' hkj hj hup
  have hdiff : p'' ≠ m.point := by
    rintro rfl
    have hjk' : j ≠ k := by
      rintro rfl
      exact hne (Option.some.inj (hj.symm.trans hk'))
    exact hagain ⟨k, lt_of_le_of_ne hjk hjk', hk'.trans hi.symm⟩
  obtain ⟨m'', hm'', rfl, hentry''⟩ := point_of_get hk'
  have hsame := h m.point (hv m hm).point
  rw [livesOn, walk_mountAll, hk, Option.bind_some, hentry''] at hsame
  obtain ⟨-, -, -, hlong, -⟩ := mountOf_spec.2 _ hsame
  have hlen := hlong m.entry (List.mem_map_of_mem hm)
    ((covers_iff (hv m hm).point (hv m hm).point).2 List.prefix_rfl)
  exact absurd (pathText_length (hv m hm).point hp'' hdiff) (not_lt.2 hlen)

end

/-! ## Two lists of mounts -/

/-- A local disk. -/
def disk (point : List Text) (source : Text) : Made where
  id := ['3', '6']
  parentId := ['1']
  dev := ['8', ':', '1']
  root := ['/']
  point := point
  options := [['r', 'w']]
  tags := []
  fstype := ['e', 'x', 't', '4']
  source := source
  superOptions := ['r', 'w']

theorem word_of_all {w : Text}
    (h : (w != [] && w != ['-'] && w.all fun c => !isspace c && c != '\\') = true) : Word w := by
  simp only [Bool.and_eq_true, bne_iff_ne] at h
  refine ⟨h.1.1, h.1.2, fun c hc => ?_⟩
  simpa using List.all_eq_true.1 h.2 c hc

theorem disk_valid {point : List Text} (h : ∀ w ∈ point, Name w) (source : Text) :
    (disk point source).Valid where
  id := word_of_all rfl
  parentId := word_of_all rfl
  dev := word_of_all rfl
  root := word_of_all rfl
  point := h
  options := word_of_all rfl
  commas := ⟨by simp [disk], by simp [disk]⟩
  tags := by simp [disk]
  fstype := word_of_all rfl
  superOptions := word_of_all rfl

/-- A disk at a point with a space in its name, over `/`. -/
def plainDisks : List Made :=
  [disk [] ['a'], disk [['m', ' ', 'n']] ['b', '#']]

/-- A disk over `/a/b`, and one over `/a` after it. -/
def hiddenDisks : List Made :=
  [disk [] ['a'], disk [['a'], ['b']] ['b'], disk [['a']] ['c']]

theorem valid_of_points (ms : List (List Text × Text)) (h : ∀ e ∈ ms, ∀ w ∈ e.1, Name w) :
    ∀ m ∈ ms.map fun e => disk e.1 e.2, m.Valid := by
  intro m hm
  obtain ⟨e, he, rfl⟩ := List.mem_map.1 hm
  exact disk_valid (h e he) e.2

instance (w : Text) : Decidable (Name w) :=
  inferInstanceAs (Decidable (w ≠ [] ∧ '/' ∉ w))

instance (c : Char) : Decidable (Stray c) :=
  inferInstanceAs (Decidable (isspace c = true ∧ c ≠ ' ' ∧ c ≠ '\t' ∧ c ≠ '\n'))

theorem disk_plain {point : List Text} {source : Text}
    (h : ((pathText point ++ source).all fun c => !decide (Stray c)) = true)
    (hne : source ≠ []) : (disk point source).Plain := by
  have hchars : ∀ c ∈ pathText point ++ source, ¬Stray c := fun c hc => by
    simpa using List.all_eq_true.1 h c hc
  exact ⟨fun c hc => hchars c (List.mem_append_left _ hc),
    fun c hc => hchars c (List.mem_append_right _ hc), hne⟩

theorem plainDisks_valid : ∀ m ∈ plainDisks, m.Valid :=
  valid_of_points [([], ['a']), ([['m', ' ', 'n']], ['b', '#'])] (by decide)

theorem hiddenDisks_valid : ∀ m ∈ hiddenDisks, m.Valid :=
  valid_of_points [([], ['a']), ([['a'], ['b']], ['b']), ([['a']], ['c'])] (by decide)

end MountInfo

end EngineConsole
