import Mathlib

/-!
# Texts of paths

`normpath`, `relpath` and `dirname` of `posixpath`, on the characters of a path. On a relative
path whose segments are names (`slash`, `IsSegment`) the first changes nothing, the last drops the
last segment, and the way from one path to another goes up to where they part and down from there
(`relpath_slash`).
-/

set_option linter.unusedSectionVars false

namespace EngineConsole

namespace Posix

/-! ## The functions -/

/-- The slashes that `normpath` keeps at the start : two only where there are exactly two. -/
def initialSlashes (path : List Char) : ℕ :=
  if ['/'].isPrefixOf path then
    if ['/', '/'].isPrefixOf path ∧ ¬['/', '/', '/'].isPrefixOf path then 2 else 1
  else 0

/-- One component of `normpath`, after those that are kept so far. -/
def normStep (initial : ℕ) (out : List (List Char)) (comp : List Char) : List (List Char) :=
  if comp = [] ∨ comp = ['.'] then out
  else if comp ≠ ['.', '.'] ∨ (initial = 0 ∧ out = []) ∨ out.getLast? = some ['.', '.'] then
    out ++ [comp]
  else out.dropLast

/-- Segments with slashes between them. -/
def slash (segs : List (List Char)) : List Char :=
  ['/'].intercalate segs

/-- `normpath` -/
def normpath (path : List Char) : List Char :=
  if path = [] then ['.']
  else
    let initial := initialSlashes path
    let joined := slash ((path.splitOn '/').foldl (normStep initial) [])
    let s := List.replicate initial '/' ++ joined
    if s = [] then ['.'] else s

/-- The components that `relpath` compares. -/
def comps (s : List Char) : List (List Char) :=
  (s.splitOn '/').filter fun x => x ≠ [] ∧ x ≠ ['.']

/-- How many components two paths begin with alike. -/
def common (a b : List (List Char)) : ℕ :=
  ((a.zip b).takeWhile fun x => x.1 = x.2).length

/-- `relpath` -/
def relpath (path start : List Char) : List Char :=
  let sl := comps (normpath start)
  let pl := comps (normpath path)
  let n := common sl pl
  let parts := List.replicate (sl.length - n) ['.', '.'] ++ pl.drop n
  if parts = [] then ['.'] else slash parts

/-- `dirname` -/
def dirname (p : List Char) : List Char :=
  let head := p.rdropWhile (· ≠ '/')
  if head ≠ [] ∧ head.any (· ≠ '/') then head.rdropWhile (· = '/') else head

/-! ## Segments -/

/-- A segment that is a name. -/
def IsSegment (s : List Char) : Prop :=
  s ≠ [] ∧ s ≠ ['.'] ∧ s ≠ ['.', '.'] ∧ '/' ∉ s

instance (s : List Char) : Decidable (IsSegment s) :=
  inferInstanceAs (Decidable (s ≠ [] ∧ s ≠ ['.'] ∧ s ≠ ['.', '.'] ∧ '/' ∉ s))

/-- Segments that a path can be split into again, one at least. -/
structure Pieces (segs : List (List Char)) : Prop where
  some : segs ≠ []
  split : ∀ s ∈ segs, s ≠ [] ∧ '/' ∉ s

/-- Segments that are names, one at least. -/
structure Segments (segs : List (List Char)) : Prop where
  some : segs ≠ []
  names : ∀ s ∈ segs, IsSegment s

/-- A segment of a text has none of the separators. -/
theorem not_mem_of_mem_splitOn {α : Type*} [DecidableEq α] {sep : α} {seg : List α} (s : List α)
    (h : seg ∈ s.splitOn sep) : sep ∉ seg := by
  by_cases hsep : sep ∈ s
  · obtain ⟨xs, s', hs, hxs⟩ := List.eq_append_cons_of_mem hsep
    have hlt : s'.length < s.length := by
      rw [hs, List.length_append, List.length_cons]
      omega
    rw [hs, List.splitOn_append_cons_self, List.splitOn_eq_singleton hxs, List.singleton_append,
      List.mem_cons] at h
    rcases h with rfl | h
    · exact hxs
    · exact not_mem_of_mem_splitOn s' h
  · rw [List.splitOn_eq_singleton hsep, List.mem_singleton] at h
    exact h ▸ hsep
termination_by s.length

section

variable {segs a b r : List (List Char)} {s x : List Char}

theorem Segments.pieces (h : Segments segs) : Pieces segs :=
  ⟨h.some, fun s hs => ⟨(h.names s hs).1, (h.names s hs).2.2.2⟩⟩

theorem splitOn_slash (h : Pieces segs) : (slash segs).splitOn '/' = segs :=
  List.splitOn_intercalate '/' (fun s hs => (h.split s hs).2) h.some

theorem slash_cons_ne (h : a ≠ []) : slash (s :: a) = s ++ '/' :: slash a := by
  cases a with
  | nil => exact absurd rfl h
  | cons t a => simp [slash, List.intercalate, List.intersperse]

theorem slash_append (ha : a ≠ []) (hb : b ≠ []) : slash (a ++ b) = slash a ++ '/' :: slash b := by
  induction a with
  | nil => exact absurd rfl ha
  | cons s a ih =>
    rw [List.cons_append, slash_cons_ne (by simp [hb])]
    by_cases hnil : a = []
    · subst hnil
      simp [slash, List.intercalate]
    · rw [ih hnil, slash_cons_ne hnil, List.append_assoc]
      rfl

theorem slash_concat (ha : a ≠ []) : slash (a ++ [s]) = slash a ++ '/' :: s := by
  rw [slash_append ha (by simp)]
  simp [slash, List.intercalate]

/-- A path begins with a character of its first segment. -/
theorem head_slash (h : Pieces segs) : ∃ c t, slash segs = c :: t ∧ c ≠ '/' := by
  obtain ⟨s, rest, rfl⟩ := List.exists_cons_of_ne_nil h.some
  obtain ⟨hs, hslash⟩ := h.split s List.mem_cons_self
  obtain ⟨c, t, rfl⟩ := List.exists_cons_of_ne_nil hs
  have hc : c ≠ '/' := fun hc => hslash (hc ▸ List.mem_cons_self)
  by_cases hrest : rest = []
  · exact ⟨c, t, by simp [hrest, slash, List.intercalate], hc⟩
  · exact ⟨c, t ++ '/' :: slash rest, slash_cons_ne hrest, hc⟩

/-- A path ends with a character of its last segment. -/
theorem last_slash (h : Pieces segs) : ∃ u c, slash segs = u ++ [c] ∧ c ≠ '/' := by
  obtain ⟨init, last, rfl⟩ : ∃ init last, segs = init ++ [last] :=
    ⟨segs.dropLast, segs.getLast h.some, (List.dropLast_append_getLast h.some).symm⟩
  obtain ⟨hne, hslash⟩ := h.split last (by simp)
  obtain ⟨v, c, rfl⟩ : ∃ v c, last = v ++ [c] :=
    ⟨last.dropLast, last.getLast hne, (List.dropLast_append_getLast hne).symm⟩
  have hc : c ≠ '/' := fun hc => hslash (by simp [hc])
  by_cases hnil : init = []
  · exact ⟨v, c, by simp [hnil, slash, List.intercalate], hc⟩
  · exact ⟨slash init ++ '/' :: v, c, by rw [slash_concat hnil]; simp, hc⟩

theorem slash_ne_nil (h : Pieces segs) : slash segs ≠ [] := by
  obtain ⟨c, t, hs, -⟩ := head_slash h
  simp [hs]

theorem initialSlashes_slash (h : Pieces segs) : initialSlashes (slash segs) = 0 := by
  obtain ⟨c, t, hs, hc⟩ := head_slash h
  rw [hs, initialSlashes, if_neg]
  simpa using hc.symm

/-! ## The functions on segments -/

theorem normSteps {initial : ℕ} (h : ∀ s ∈ segs, IsSegment s) (out : List (List Char)) :
    segs.foldl (normStep initial) out = out ++ segs := by
  induction segs generalizing out with
  | nil => simp
  | cons s segs ih =>
    obtain ⟨h0, h1, h2, -⟩ := h s List.mem_cons_self
    have hstep : normStep initial out s = out ++ [s] := by
      rw [normStep, if_neg (by simp [h0, h1]), if_pos (.inl h2)]
    rw [List.foldl_cons, hstep, ih fun t ht => h t (List.mem_cons_of_mem s ht)]
    simp

theorem normpath_slash (h : Segments segs) : normpath (slash segs) = slash segs := by
  rw [normpath, if_neg (slash_ne_nil h.pieces), initialSlashes_slash h.pieces,
    splitOn_slash h.pieces]
  dsimp only
  rw [normSteps h.names]
  exact if_neg (slash_ne_nil h.pieces)

theorem comps_slash (h : Segments segs) : comps (slash segs) = segs := by
  rw [comps, splitOn_slash h.pieces, List.filter_eq_self]
  intro s hs
  obtain ⟨h0, h1, -⟩ := h.names s hs
  simp [h0, h1]

theorem common_parting (r : List (List Char)) {s x : List Char} (hne : s ≠ x)
    (a b : List (List Char)) : common (r ++ s :: a) (r ++ x :: b) = r.length := by
  induction r with
  | nil => simp [common, hne]
  | cons y r ih =>
    rw [common] at ih
    simp [common, ih]

/-- The way to a path from another that parts from it after the same segments. -/
theorem relpath_slash (ha : Segments (r ++ s :: a)) (hb : Segments (r ++ x :: b)) (hne : s ≠ x) :
    relpath (slash (r ++ s :: a)) (slash (r ++ x :: b)) =
      slash (List.replicate (b.length + 1) ['.', '.'] ++ s :: a) := by
  have hcommon : common (r ++ x :: b) (r ++ s :: a) = r.length := common_parting r hne.symm b a
  have hups : (r ++ x :: b).length - r.length = b.length + 1 := by simp
  rw [relpath, normpath_slash ha, normpath_slash hb, comps_slash ha, comps_slash hb]
  rw [hcommon, hups, List.drop_left, if_neg (by simp)]

theorem rdropWhile_stop {α : Type*} {p : α → Bool} {u t : List α} {c : α} (hc : p c = false)
    (ht : ∀ d ∈ t, p d = true) : (u ++ c :: t).rdropWhile p = u ++ [c] := by
  induction t using List.reverseRecOn with
  | nil => exact List.rdropWhile_concat_neg _ _ _ (by simp [hc])
  | append_singleton t d ih =>
    rw [← List.cons_append, ← List.append_assoc,
      List.rdropWhile_concat_pos _ _ _ (ht d (by simp))]
    exact ih fun e he => ht e (List.mem_append_left _ he)

theorem dirname_slash (ha : Segments a) (hs : IsSegment s) :
    dirname (slash (a ++ [s])) = slash a := by
  have hhead : (slash (a ++ [s])).rdropWhile (· ≠ '/') = slash a ++ ['/'] := by
    rw [slash_concat ha.some]
    refine rdropWhile_stop (by simp) fun d hd => ?_
    have hne : d ≠ '/' := fun hc => hs.2.2.2 (hc ▸ hd)
    simpa using hne
  obtain ⟨u, c, hu, hc⟩ := last_slash ha.pieces
  obtain ⟨d, t, hd, hdc⟩ := head_slash ha.pieces
  rw [dirname, hhead, if_pos ⟨by simp, by simp [hd, hdc]⟩,
    List.rdropWhile_concat_pos _ _ _ (by simp), hu]
  exact List.rdropWhile_concat_neg _ _ _ (by simpa using hc)

end

end Posix

end EngineConsole
