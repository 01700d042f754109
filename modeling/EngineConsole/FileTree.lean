import EngineConsole.Keyed

/-!
# File trees with symbolic links

A tree is a table of what is at each physical path, a list of names from `/`. `realpath`
follows symbolic links as far as names exist and keeps the rest as it is written; a link that
leads to itself ends it.

`lexical` is where a path leads by its text alone. A path that has `..` only at its start
(`Plain`) leads to where its text says or through links; so a set of paths that is closed
under going down, and that every link on the way leads into by its text, is not left
(`walk_zone`, `realpath_zone`).
-/

set_option linter.unusedSectionVars false

namespace EngineConsole

namespace FileTree

/-! ## Trees -/

/-- A path from `/`. -/
abbrev Path := List String

/-- What a name stands for; the target of a link is split at its slashes. -/
inductive Inode where
  | dir
  | file (bytes : List UInt8)
  | link (target : List String)
  | special
deriving DecidableEq

/-- What is at each path. -/
abbrev Tree := List (Path × Inode)

namespace Tree

/-- What is at a path. -/
def get (t : Tree) (p : Path) : Option Inode :=
  if p = [] then some .dir else (Keyed.find Prod.fst p t).map Prod.snd

/-- Without what is at a path. -/
def erase (p : Path) (t : Tree) : Tree :=
  Keyed.remove Prod.fst p t

/-- With something at a path. -/
def put (p : Path) (n : Inode) (t : Tree) : Tree :=
  (p, n) :: t.erase p

/-- The names in a directory. -/
def names (t : Tree) (p : Path) : List String :=
  t.filterMap fun e => if e.1.dropLast = p then e.1.getLast? else none

variable {t : Tree} {p q : Path} {n : Inode}

theorem get_put (hp : p ≠ []) : (t.put p n).get q = if q = p then some n else t.get q := by
  unfold get put
  by_cases hq : q = []
  · rw [if_pos hq, if_pos hq, if_neg (hq ▸ hp.symm)]
  · rw [if_neg hq, if_neg hq, Keyed.find_cons]
    by_cases hqp : q = p
    · simp [hqp]
    · rw [if_neg hqp, if_neg fun h => hqp h.symm]
      exact congrArg _ (Keyed.find_remove hqp t)

theorem get_erase (hp : p ≠ []) : (t.erase p).get q = if q = p then none else t.get q := by
  unfold get erase
  by_cases hq : q = []
  · rw [if_pos hq, if_pos hq, if_neg (hq ▸ hp.symm)]
  · rw [if_neg hq, if_neg hq]
    by_cases hqp : q = p
    · subst hqp
      have hnone : Keyed.find Prod.fst q (Keyed.remove Prod.fst q t) = none :=
        Keyed.find_eq_none.2 (Keyed.not_mem_keys_remove q t)
      rw [hnone, if_pos rfl]
      rfl
    · rw [if_neg hqp, Keyed.find_remove hqp]

end Tree

/-! ## The text of a path -/

/-- A component that is a name. -/
def isName (c : String) : Prop :=
  c ≠ "" ∧ c ≠ "." ∧ c ≠ ".."

/-- Every component is a name. -/
def Proper (p : Path) : Prop :=
  ∀ c ∈ p, isName c

/-- One component further, by its text. -/
def lexStep (p : Path) (c : String) : Path :=
  if c = "" ∨ c = "." then p else if c = ".." then p.dropLast else p ++ [c]

/-- Where components lead from a directory, by their text. -/
def lexical (p : Path) (rest : List String) : Path :=
  rest.foldl lexStep p

/-- A text that starts with a slash starts at `/`. -/
def start (p : Path) : List String → Path × List String
  | "" :: c :: rest => ([], c :: rest)
  | rest => (p, rest)

/-- `join`, of what is left as it is written. -/
def keep (p : Path) (rest : List String) : Path :=
  lexical (start p rest).1 (start p rest).2

/-- `..` only at the start, and no empty component but a last one. -/
def Plain : List String → Prop
  | [] => True
  | c :: rest =>
    if c = "" ∨ c = "." ∨ c = ".." then (c = "" → rest = []) ∧ Plain rest
    else ".." ∉ rest ∧ "" ∉ rest.dropLast

/-! ## realpath -/

/-- How far a path was followed : the links on the way, and whether none led to itself. -/
structure Walk where
  seen : List (Path × Option Path)
  path : Path
  ok : Bool

/-- Follow components; `resolve` follows the target of a link. -/
def walkWith (t : Tree)
    (resolve : List (Path × Option Path) → Path → List String → Walk) :
    List (Path × Option Path) → Path → List String → Walk
  | seen, path, [] => ⟨seen, path, true⟩
  | seen, path, c :: rest =>
    if c = "" ∨ c = "." then walkWith t resolve seen path rest
    else if c = ".." then walkWith t resolve seen path.dropLast rest
    else
      match t.get (path ++ [c]) with
      | some (.link target) =>
        match Keyed.find Prod.fst (path ++ [c]) seen with
        | some (_, some r) => walkWith t resolve seen r rest
        | some (_, none) => ⟨seen, keep (path ++ [c]) rest, false⟩
        | none =>
          let w := resolve ((path ++ [c], none) :: seen) path target
          if w.ok then walkWith t resolve ((path ++ [c], some w.path) :: w.seen) w.path rest
          else ⟨w.seen, keep w.path rest, false⟩
      | _ => walkWith t resolve seen (path ++ [c]) rest

/-- Follow a path from a directory, through so many links at most. -/
def walk (t : Tree) : ℕ → List (Path × Option Path) → Path → List String → Walk
  | 0, seen, path, target => ⟨seen, keep path target, false⟩
  | n + 1, seen, path, target =>
    walkWith t (walk t n) seen (start path target).1 (start path target).2

/-- The links that are followed at most. -/
def maxLinks : ℕ :=
  257

/-- `realpath` of a path from `/`. -/
def realpath (t : Tree) (p : Path) : Path :=
  (walkWith t (walk t (maxLinks - 1)) [] [] p).path

/-! ## Ways without links -/

/-- No link on the way down from a directory. -/
def NoLinks (t : Tree) (d : Path) (rest : List String) : Prop :=
  ∀ q, q ≠ [] → q <+: rest → ∀ target, t.get (d ++ q) ≠ some (.link target)

section

variable {t : Tree} {d q r path : Path} {c : String} {rest target : List String}
  {resolve : List (Path × Option Path) → Path → List String → Walk}
  {seen : List (Path × Option Path)}

theorem NoLinks.tail (h : NoLinks t d (c :: rest)) : NoLinks t (d ++ [c]) rest := by
  intro q hq hpre target
  have hlink := h (c :: q) (by simp) (List.cons_prefix_cons.2 ⟨rfl, hpre⟩) target
  simpa using hlink

/-- Names that are no links are gone down. -/
theorem walkWith_noLinks (h : NoLinks t path q) (hq : Proper q) (rest : List String) :
    walkWith t resolve seen path (q ++ rest) = walkWith t resolve seen (path ++ q) rest := by
  induction q generalizing path with
  | nil => simp
  | cons c q ih =>
    obtain ⟨h0, h1, h2⟩ := hq c List.mem_cons_self
    have hc := h [c] (by simp) (by simp)
    rw [List.cons_append, walkWith, if_neg (by simp [h0, h1]), if_neg h2]
    split
    · next target hlink => exact absurd hlink (hc target)
    · rw [ih h.tail fun x hx => hq x (List.mem_cons_of_mem c hx), List.append_assoc]
      rfl

/-- As many `..` as names lead up again. -/
theorem walkWith_ups (path q : Path) (rest : List String) :
    walkWith t resolve seen (path ++ q) (List.replicate q.length ".." ++ rest) =
      walkWith t resolve seen path rest := by
  induction q using List.reverseRecOn with
  | nil => simp
  | append_singleton q c ih =>
    have hups : List.replicate (q ++ [c]).length ".." = ".." :: List.replicate q.length ".." := by
      rw [List.length_append, List.length_singleton, List.replicate_succ]
    rw [hups, List.cons_append, walkWith, if_neg (by decide), if_pos rfl, ← List.append_assoc,
      List.dropLast_concat, ih]

theorem realpath_noLinks (h : NoLinks t [] q) (hq : Proper q) (rest : List String) :
    realpath t (q ++ rest) = (walkWith t (walk t (maxLinks - 1)) [] q rest).path := by
  rw [realpath, walkWith_noLinks h hq, List.nil_append]

/-- A link at the end of a way is followed. -/
theorem realpath_link (h : NoLinks t [] d) (hd : Proper d) (hc : isName c)
    (hlink : t.get (d ++ [c]) = some (.link target)) (hstart : start d target = (d, target))
    (hwalk : ∀ resolve seen, walkWith t resolve seen d target = ⟨seen, r, true⟩) :
    realpath t (d ++ [c]) = r := by
  obtain ⟨h0, h1, h2⟩ := hc
  have hfollow : walk t (maxLinks - 1) [(d ++ [c], none)] d target =
      ⟨[(d ++ [c], none)], r, true⟩ := by
    rw [show maxLinks - 1 = 255 + 1 from rfl, walk, hstart, hwalk]
  rw [realpath_noLinks h hd, walkWith, if_neg (by simp [h0, h1]), if_neg h2, hlink]
  simp only [Keyed.find, List.find?_nil]
  rw [hfollow]
  rfl

end

/-! ## Zones -/

/-- A path of which the other is a part. -/
def In (root p : Path) : Prop :=
  root <+: p

instance (root p : Path) : Decidable (In root p) :=
  inferInstanceAs (Decidable (root <+: p))

/-- A link at `p` has a plain target that leads into `Z` by its text. -/
def Leads (Z : Path → Prop) (p : Path) (target : List String) : Prop :=
  Plain (start p.dropLast target).2 ∧ Z (keep p.dropLast target)

/-- A set of paths that is closed under going down, and that every link on the way to it leads
into. -/
structure Zone (t : Tree) (Z : Path → Prop) : Prop where
  down : ∀ p q, Z p → Z (p ++ q)
  links : ∀ p q target, t.get p = some (.link target) → Z (p ++ q) → Leads Z p target

section

variable {t : Tree} {Z : Path → Prop} {p q path : Path} {c : String}
  {rest target : List String} {seen : List (Path × Option Path)}

theorem lexical_cons : lexical p (c :: rest) = lexical (lexStep p c) rest := rfl

theorem lexical_append (p : Path) (a b : List String) :
    lexical p (a ++ b) = lexical (lexical p a) b :=
  List.foldl_append

/-- Without `..` the text goes down. -/
theorem lexical_down (h : ".." ∉ rest) (p : Path) : ∃ q, lexical p rest = p ++ q := by
  induction rest generalizing p with
  | nil => exact ⟨[], by simp [lexical]⟩
  | cons c rest ih =>
    rw [List.mem_cons, not_or] at h
    obtain ⟨q, hq⟩ := ih h.2 (lexStep p c)
    rw [lexical_cons, hq]
    unfold lexStep
    by_cases hc : c = "" ∨ c = "."
    · rw [if_pos hc]
      exact ⟨q, rfl⟩
    · rw [if_neg hc, if_neg fun hup => h.1 hup.symm]
      exact ⟨c :: q, by simp⟩

theorem lexical_proper (h : Proper q) (p : Path) : lexical p q = p ++ q := by
  induction q generalizing p with
  | nil => simp [lexical]
  | cons c q ih =>
    obtain ⟨h0, h1, h2⟩ := h c (by simp)
    rw [lexical_cons, ih fun d hd => h d (List.mem_cons_of_mem c hd), lexStep,
      if_neg (by simp [h0, h1]), if_neg h2]
    simp

/-- A plain text does not start at `/` again. -/
theorem Plain.start (h : Plain rest) (p : Path) : start p rest = (p, rest) := by
  unfold FileTree.start
  split
  · next c rest =>
    rw [Plain, if_pos (by simp)] at h
    cases h.1 rfl
  · rfl

theorem Plain.keep (h : Plain rest) (p : Path) : keep p rest = lexical p rest := by
  rw [FileTree.keep, h.start]

/-- Without `..` and empty components a text is plain. -/
theorem plain_of_down (h : ".." ∉ rest) (h' : "" ∉ rest.dropLast) : Plain rest := by
  induction rest with
  | nil => trivial
  | cons c rest ih =>
    rw [List.mem_cons, not_or] at h
    have hrest : "" ∉ rest.dropLast := by
      cases rest with
      | nil => simp
      | cons d rest => exact fun hc => h' (by simp [hc])
    unfold Plain
    split_ifs with hc
    · refine ⟨?_, ih h.2 hrest⟩
      rintro rfl
      cases rest with
      | nil => rfl
      | cons d rest => exact absurd (by simp) h'
    · exact ⟨h.2, hrest⟩

theorem plain_of_proper (h : Proper q) : Plain q :=
  plain_of_down (fun hc => (h _ hc).2.2 rfl) fun hc => (h _ (List.dropLast_subset _ hc)).1 rfl

/-- Every link that was followed led into the zone. -/
def SeenIn (Z : Path → Prop) (seen : List (Path × Option Path)) : Prop :=
  ∀ e ∈ seen, ∀ r, e.2 = some r → Z r

theorem SeenIn.cons (h : SeenIn Z seen) {r : Option Path} (hr : ∀ r', r = some r' → Z r') :
    SeenIn Z ((p, r) :: seen) := by
  intro e he r' hr'
  rcases List.mem_cons.1 he with rfl | he
  · exact hr r' hr'
  · exact h e he r' hr'

/-- A walk that its text leads into the zone ends there. -/
def EndsIn (Z : Path → Prop) (w : Walk) : Prop :=
  Z w.path ∧ SeenIn Z w.seen

theorem walkWith_zone (hz : Zone t Z)
    {resolve : List (Path × Option Path) → Path → List String → Walk}
    (hres : ∀ seen p target, SeenIn Z seen → Leads Z p target →
      EndsIn Z (resolve seen p.dropLast target))
    (hplain : Plain rest) (hseen : SeenIn Z seen) (h : Z (lexical path rest)) :
    EndsIn Z (walkWith t resolve seen path rest) := by
  induction rest generalizing seen path with
  | nil => exact ⟨h, hseen⟩
  | cons c rest ih =>
    rw [lexical_cons] at h
    unfold walkWith
    unfold Plain at hplain
    by_cases hskip : c = "" ∨ c = "."
    · rw [if_pos (by tauto)] at hplain
      rw [if_pos hskip]
      rw [lexStep, if_pos hskip] at h
      exact ih hplain.2 hseen h
    · rw [if_neg hskip]
      rw [lexStep, if_neg hskip] at h
      by_cases hup : c = ".."
      · rw [if_pos (by tauto)] at hplain
        rw [if_pos hup]
        rw [if_pos hup] at h
        exact ih hplain.2 hseen h
      · rw [if_neg (by tauto)] at hplain
        rw [if_neg hup]
        rw [if_neg hup] at h
        have hrest : Plain rest := plain_of_down hplain.1 hplain.2
        -- from here on the text only goes down
        have hdown (r : Path) (hr : Z r) : Z (lexical r rest) := by
          obtain ⟨q, hq⟩ := lexical_down hplain.1 r
          exact hq ▸ hz.down r q hr
        split
        · next target hlink =>
          split
          · next q r hfind =>
            exact ih hrest hseen (hdown r (hseen _ (Keyed.mem_of_find hfind) r rfl))
          · exact ⟨hrest.keep _ ▸ h, hseen⟩
          · have hleads : Leads Z (path ++ [c]) target := by
              obtain ⟨q, hq⟩ := lexical_down hplain.1 (path ++ [c])
              exact hz.links _ q target hlink (hq ▸ h)
            have hw := hres ((path ++ [c], none) :: seen) (path ++ [c]) target
              (hseen.cons (by simp)) hleads
            rw [List.dropLast_concat] at hw
            dsimp only
            split_ifs
            · exact ih hrest (hw.2.cons fun r' hr' => Option.some.inj hr' ▸ hw.1) (hdown _ hw.1)
            · exact ⟨hrest.keep _ ▸ hdown _ hw.1, hw.2⟩
        · exact ih hrest hseen h

/-- Following a link stays in the zone that its text leads into. -/
theorem walk_zone (hz : Zone t Z) (n : ℕ) (hseen : SeenIn Z seen) (h : Leads Z p target) :
    EndsIn Z (walk t n seen p.dropLast target) := by
  induction n generalizing seen p target with
  | zero => exact ⟨h.2, hseen⟩
  | succ n ih => exact walkWith_zone hz (fun seen p target => ih) h.1 hseen h.2

/-- A path in the zone leads into it. -/
theorem realpath_zone (hz : Zone t Z) (hp : Proper p) (h : Z p) : Z (realpath t p) := by
  have hlex : Z (lexical [] p) := by
    rw [lexical_proper hp]
    exact h
  exact (walkWith_zone hz (fun _ _ _ hseen => walk_zone hz _ hseen) (plain_of_proper hp)
    (by simp [SeenIn]) hlex).1

end

end FileTree

end EngineConsole
