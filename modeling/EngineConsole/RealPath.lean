import EngineConsole.PosixPath
import EngineConsole.Keyed

/-!
# realpath and the kernel's walk

`realpath` of the node (`util/py.rs`) on the text of a path : it follows symbolic links as far as
names exist, by recursion into the target of each, with a table of the links it has met
(`joinRealpath`). The kernel walks the same path without recursion, the target of a link before
what is left of the path, through 40 links at most (`kernelPath`).

Where the kernel's walk ends, `realpath` gives the text of the place where it ends
(`realpath_kernel`). The kernel's walk says how many links it takes (`Leads`), and that number goes
down into the target of each : so a link whose target is being followed is not met again, and the
table holds for every other where the kernel gets to (`Memo`).
-/

set_option linter.unusedSectionVars false

namespace EngineConsole.RealPath

open Posix

/-! ## Trees -/

/-- A byte is the character of its number. -/
abbrev Text := List Char

/-- A place in the tree, by the names that lead to it from `/`. -/
abbrev Place := List Text

/-- What is at a place; `other` is neither a directory nor a link. -/
inductive Node where
  | dir
  | link (target : Text)
  | other
  deriving DecidableEq

/-- What is at each place; only directories have names in them. -/
structure Tree where
  get : Place → Option Node
  root : get [] = some .dir
  parent : ∀ p c, get (p ++ [c]) ≠ none → get p = some .dir

/-! ## The functions of the node -/

/-- `join_bytes` -/
def joinBytes (a rest : Text) : Text :=
  if rest.head? = some '/' then rest
  else if a = [] ∨ a.getLast? = some '/' then a ++ rest
  else a ++ '/' :: rest

/-- `split_bytes` -/
def splitBytes (p : Text) : Text × Text :=
  (dirname p, p.rtakeWhile (· ≠ '/'))

/-- `abspath` -/
def abspath (cwd p : Text) : Text :=
  if p.head? = some '/' then normpath p else normpath (joinBytes cwd p)

/-- The names on a path. -/
def names (path : Text) : Place :=
  (path.splitOn '/').filter (· ≠ [])

/-- `symlink_metadata`, of a path without links on the way. -/
def Tree.lstat (t : Tree) (path : Text) : Option Node :=
  t.get (names path)

/-- The links that were met, and where they lead once that is known. -/
abbrev Seen := List (Text × Option Text)

/-- What `join_realpath` returns, and the table. -/
structure Walk where
  path : Text
  ok : Bool
  seen : Seen
  deriving DecidableEq

/-- The first name of a path, and what is left. -/
def cut (rest : Text) : Text × Text :=
  (rest.takeWhile (· ≠ '/'), (rest.dropWhile (· ≠ '/')).tail)

/-- One directory up. -/
def up (path : Text) : Text :=
  if path = [] then ['.', '.']
  else if (splitBytes path).2 = ['.', '.'] then
    joinBytes (joinBytes (splitBytes path).1 ['.', '.']) ['.', '.']
  else (splitBytes path).1

/-- A path that starts with a slash starts at `/`. -/
def start (path rest : Text) : Text × Text :=
  if rest.head? = some '/' then (['/'], rest.tail) else (path, rest)

theorem cut_length {rest : Text} (h : rest ≠ []) : (cut rest).2.length < rest.length := by
  have hle := (List.dropWhile_suffix (fun c => decide (c ≠ '/')) (l := rest)).length_le
  have hpos := List.length_pos_iff.2 h
  rw [cut, List.length_tail]
  omega

/-- The loop of `join_realpath`; `resolve` follows the target of a link. -/
def follow (t : Tree) (resolve : Seen → Text → Text → Walk) (seen : Seen) (path rest : Text) :
    Walk :=
  if h : rest = [] then ⟨path, true, seen⟩
  else
    have := cut_length h
    let name := (cut rest).1
    let rest := (cut rest).2
    if name = [] ∨ name = ['.'] then follow t resolve seen path rest
    else if name = ['.', '.'] then follow t resolve seen (up path) rest
    else
      let newpath := joinBytes path name
      match t.lstat newpath with
      | some (.link target) =>
        match Keyed.find Prod.fst newpath seen with
        | some (_, some resolved) => follow t resolve seen resolved rest
        | some (_, none) => ⟨joinBytes newpath rest, false, seen⟩
        | none =>
          let w := resolve ((newpath, none) :: seen) path target
          if w.ok then follow t resolve ((newpath, some w.path) :: w.seen) w.path rest
          else ⟨joinBytes w.path rest, false, w.seen⟩
      | _ => follow t resolve seen newpath rest
termination_by rest.length

/-- `join_realpath`, where that many levels are left. -/
def joinRealpath (t : Tree) : ℕ → Seen → Text → Text → Walk
  | 0, seen, path, rest => ⟨joinBytes (start path rest).1 (start path rest).2, false, seen⟩
  | n + 1, seen, path, rest =>
    follow t (joinRealpath t n) seen (start path rest).1 (start path rest).2

/-- The levels of `join_realpath`, the first of depth 0 and the last of 256. -/
def levels : ℕ := 257

/-- `realpath` -/
def realpath (cwd : Text) (t : Tree) (p : Text) : Text :=
  abspath cwd (joinRealpath t levels [] [] p).path

/-! ## The walk of the kernel -/

/-- Where a path starts, and its components. -/
def origin (d : Place) (path : Text) : Place × List Text :=
  if path.head? = some '/' then ([], path.tail.splitOn '/') else (d, path.splitOn '/')

/-- Component after component; `again` goes on after a link. -/
def kernelWith (t : Tree) (again : Place → List Text → Option Place) :
    Place → List Text → Option Place
  | d, [] => some d
  | d, c :: rest =>
    if t.get d ≠ some .dir then none
    else if c = [] ∨ c = ['.'] then kernelWith t again d rest
    else if c = ['.', '.'] then kernelWith t again d.dropLast rest
    else
      match t.get (d ++ [c]) with
      | none => none
      | some (.link target) =>
        if target = [] then none else again (origin d target).1 ((origin d target).2 ++ rest)
      | some _ => kernelWith t again (d ++ [c]) rest

/-- The walk through so many links at most. -/
def kernelWalk (t : Tree) : ℕ → Place → List Text → Option Place
  | 0 => kernelWith t fun _ _ => none
  | n + 1 => kernelWith t (kernelWalk t n)

/-- Where the kernel gets to on a path from `/`. -/
def kernelPath (t : Tree) (p : Text) : Option Place :=
  kernelWalk t 40 (origin [] p).1 (origin [] p).2

/-! ## The text of a place -/

variable {q : Place} {c path rest : Text}

/-- The text of a place. -/
def abs (q : Place) : Text :=
  '/' :: slash q

theorem abs_ne_nil (q : Place) : abs q ≠ [] :=
  List.cons_ne_nil _ _

theorem head_abs (q : Place) : (abs q).head? = some '/' := rfl

/-- Names as a directory can have them. -/
def Names (q : Place) : Prop :=
  ∀ s ∈ q, IsSegment s

theorem Names.snoc (hq : Names q) (hc : IsSegment c) : Names (q ++ [c]) := by
  intro s hs
  rcases List.mem_append.1 hs with hs | hs
  · exact hq s hs
  · exact List.mem_singleton.1 hs ▸ hc

theorem Names.dropLast (hq : Names q) : Names q.dropLast :=
  fun s hs => hq s (List.mem_of_mem_dropLast hs)

theorem Names.segments (hq : Names q) (hne : q ≠ []) : Segments q :=
  ⟨hne, hq⟩

theorem slash_nil : slash [] = [] := rfl

theorem slash_singleton (c : Text) : slash [c] = c := by
  simp [slash, List.intercalate]

/-- A name starts with no slash. -/
theorem head_segment (hc : IsSegment c) : c.head? ≠ some '/' :=
  fun h => hc.2.2.2 (List.mem_of_mem_head? h)

/-- The text of a place further down. -/
theorem abs_snoc (hne : q ≠ []) (c : Text) : abs (q ++ [c]) = abs q ++ '/' :: c := by
  rw [abs, slash_concat hne]
  rfl

theorem joinBytes_abs (hq : Names q) (hc : IsSegment c) :
    joinBytes (abs q) c = abs (q ++ [c]) := by
  rw [joinBytes, if_neg (head_segment hc)]
  by_cases hne : q = []
  · subst hne
    rw [if_pos (.inr rfl), List.nil_append, abs, abs, slash_nil, slash_singleton]
    rfl
  · obtain ⟨u, d, hu, hd⟩ := last_slash (hq.segments hne).pieces
    have hlast : (abs q).getLast? = some d := by
      rw [abs, hu, ← List.cons_append, List.getLast?_concat]
    have hnot : ¬(abs q = [] ∨ (abs q).getLast? = some '/') := by
      rintro (h | h)
      · exact List.cons_ne_nil _ _ h
      · exact hd (Option.some.inj (hlast.symm.trans h))
    rw [if_neg hnot, abs_snoc hne]

/-- What comes after a slash. -/
theorem splitOn_cons (s : Text) : ('/' :: s).splitOn '/' = [] :: s.splitOn '/' :=
  @List.splitOn_append_cons_self_of_not_mem _ [] _ _ _ List.not_mem_nil s

/-- The components of the text of a place. -/
theorem splitOn_slash_names (hq : Names q) :
    (slash q).splitOn '/' = if q = [] then [[]] else q := by
  split_ifs with hne
  · rw [hne]
    rfl
  · exact splitOn_slash (hq.segments hne).pieces

theorem filter_names (hq : Names q) : q.filter (· ≠ []) = q := by
  refine List.filter_eq_self.2 fun s hs => ?_
  simpa using (hq s hs).1

theorem names_abs (hq : Names q) : names (abs q) = q := by
  rw [names, abs, splitOn_cons, splitOn_slash_names hq]
  split_ifs with hne
  · rw [hne]
    rfl
  · rw [List.filter_cons_of_neg (by simp), filter_names hq]

theorem splitBytes_abs (hq : Names q) (hc : IsSegment c) :
    splitBytes (abs (q ++ [c])) = (abs q, c) := by
  have hname : ∀ d ∈ c, (decide (d ≠ '/')) = true := by
    intro d hd
    exact decide_eq_true fun heq => hc.2.2.2 (heq ▸ hd)
  have hcut : ∃ u, abs (q ++ [c]) = u ++ '/' :: c ∧
      (if u ++ ['/'] ≠ [] ∧ (u ++ ['/']).any (· ≠ '/') then (u ++ ['/']).rdropWhile (· = '/')
        else u ++ ['/']) = abs q := by
    by_cases hne : q = []
    · subst hne
      exact ⟨[], by rw [List.nil_append, abs, slash_singleton]; rfl, by simp [abs, slash_nil]⟩
    · obtain ⟨u, d, hu, hd⟩ := last_slash (hq.segments hne).pieces
      refine ⟨abs q, abs_snoc hne c, ?_⟩
      have habs : abs q = '/' :: u ++ [d] := by rw [abs, hu]; rfl
      rw [if_pos ⟨by simp, by simp [habs, hd]⟩, List.rdropWhile_concat_pos _ _ _ (by simp), habs]
      exact List.rdropWhile_concat_neg _ _ _ (by simpa using hd)
  obtain ⟨u, hcut, hdir⟩ := hcut
  have hhead : (u ++ '/' :: c).rdropWhile (· ≠ '/') = u ++ ['/'] :=
    rdropWhile_stop (by simp) hname
  have htail : (u ++ '/' :: c).rtakeWhile (· ≠ '/') = c := by
    have hsplit := List.rdropWhile_append_rtakeWhile (p := fun d => decide (d ≠ '/'))
      (l := u ++ '/' :: c)
    rw [hhead, List.append_assoc] at hsplit
    exact (List.cons.inj (List.append_cancel_left hsplit)).2
  rw [splitBytes, hcut, dirname, hhead, htail, hdir]

theorem up_abs (hq : Names q) : up (abs q) = abs q.dropLast := by
  rw [up, if_neg (abs_ne_nil q)]
  rcases List.eq_nil_or_concat q with rfl | ⟨q, c, rfl⟩
  · rfl
  · rw [List.concat_eq_append] at hq ⊢
    have hc := hq c (by simp)
    have hinit : Names q := fun s hs => hq s (List.mem_append_left _ hs)
    rw [splitBytes_abs hinit hc, if_neg hc.2.2.1, List.dropLast_concat]

theorem normpath_abs (hq : Names q) : normpath (abs q) = abs q := by
  have hinitial : initialSlashes (abs q) = 1 := by
    by_cases hne : q = []
    · rw [hne]
      rfl
    · obtain ⟨c, s, hs, hc⟩ := head_slash (hq.segments hne).pieces
      rw [abs, hs, initialSlashes, if_pos (by simp), if_neg]
      simp [Ne.symm hc]
  have hfold : ((abs q).splitOn '/').foldl (normStep 1) [] = q := by
    rw [abs, splitOn_cons, splitOn_slash_names hq]
    split_ifs with hne
    · rw [hne]
      rfl
    · rw [List.foldl_cons]
      exact (normSteps hq []).trans (List.nil_append q)
  rw [normpath, if_neg (abs_ne_nil q), hinitial]
  dsimp only
  rw [hfold]
  exact if_neg (List.cons_ne_nil _ _)

/-! ## Where the kernel gets to -/

/-- The kernel's walk with the number of links on it. -/
inductive Leads (t : Tree) : ℕ → Place → List Text → Place → Prop
  | nil (d : Place) : Leads t 0 d [] d
  | stay {k : ℕ} {d r : Place} {c : Text} {rest : List Text} : t.get d = some .dir →
      c = [] ∨ c = ['.'] → Leads t k d rest r → Leads t k d (c :: rest) r
  | up {k : ℕ} {d r : Place} {rest : List Text} : t.get d = some .dir →
      Leads t k d.dropLast rest r → Leads t k d (['.', '.'] :: rest) r
  | down {k : ℕ} {d r : Place} {c : Text} {rest : List Text} {node : Node} :
      t.get d = some .dir → IsSegment c → t.get (d ++ [c]) = some node →
      (∀ target, node ≠ .link target) → Leads t k (d ++ [c]) rest r → Leads t k d (c :: rest) r
  | link {k : ℕ} {d r : Place} {c target : Text} {rest : List Text} : t.get d = some .dir →
      IsSegment c → t.get (d ++ [c]) = some (.link target) →
      Leads t k (origin d target).1 ((origin d target).2 ++ rest) r →
      Leads t (k + 1) d (c :: rest) r

variable {t : Tree} {d e r : Place} {cs as bs : List Text} {k k' n : ℕ}

/-- Components as a path has them. -/
def Unslashed (cs : List Text) : Prop :=
  ∀ c ∈ cs, '/' ∉ c

theorem unslashed_origin (d : Place) (path : Text) : Unslashed (origin d path).2 := by
  intro c hc
  rw [origin] at hc
  split_ifs at hc
  · exact not_mem_of_mem_splitOn _ hc
  · exact not_mem_of_mem_splitOn _ hc

theorem leads_of_kernelWith {again : Place → List Text → Option Place} {b : ℕ}
    (hagain : ∀ d cs r, Unslashed cs → again d cs = some r → ∃ k < b, Leads t k d cs r) :
    ∀ {cs : List Text} {d r : Place}, Unslashed cs → kernelWith t again d cs = some r →
      ∃ k ≤ b, Leads t k d cs r
  | [], d, r, _, h => by
    obtain rfl := Option.some.inj h
    exact ⟨0, Nat.zero_le b, .nil d⟩
  | c :: rest, d, r, hcs, h => by
    have hrest : Unslashed rest := fun s hs => hcs s (List.mem_cons_of_mem c hs)
    rw [kernelWith] at h
    by_cases hdir : t.get d = some .dir
    · rw [if_neg (not_not.2 hdir)] at h
      split_ifs at h with hstay hup
      · obtain ⟨k, hk, hl⟩ := leads_of_kernelWith hagain hrest h
        exact ⟨k, hk, .stay hdir hstay hl⟩
      · obtain ⟨k, hk, hl⟩ := leads_of_kernelWith hagain hrest h
        exact ⟨k, hk, hup ▸ .up hdir hl⟩
      · have hc : IsSegment c :=
          ⟨fun h => hstay (.inl h), fun h => hstay (.inr h), hup, hcs c List.mem_cons_self⟩
        rcases hget : t.get (d ++ [c]) with _ | node
        · rw [hget] at h
          cases h
        rw [hget] at h
        cases node with
        | dir =>
          obtain ⟨k, hk, hl⟩ := leads_of_kernelWith hagain hrest h
          exact ⟨k, hk, .down hdir hc hget (fun _ heq => by cases heq) hl⟩
        | other =>
          obtain ⟨k, hk, hl⟩ := leads_of_kernelWith hagain hrest h
          exact ⟨k, hk, .down hdir hc hget (fun _ heq => by cases heq) hl⟩
        | link target =>
          dsimp only at h
          split_ifs at h with htarget
          have happ : Unslashed ((origin d target).2 ++ rest) := by
            intro s hs
            rcases List.mem_append.1 hs with hs | hs
            exacts [unslashed_origin d target s hs, hrest s hs]
          obtain ⟨k, hk, hl⟩ := hagain _ _ _ happ h
          exact ⟨k + 1, hk, .link hdir hc hget hl⟩
    · rw [if_pos hdir] at h
      cases h

/-- A walk that ends takes as many links as it may, at most. -/
theorem leads_of_kernelWalk : ∀ {n : ℕ} {d r : Place} {cs : List Text}, Unslashed cs →
    kernelWalk t n d cs = some r → ∃ k ≤ n, Leads t k d cs r
  | 0, _, _, _, hcs, h => leads_of_kernelWith (fun _ _ _ _ h => by cases h) hcs h
  | _ + 1, _, _, _, hcs, h => leads_of_kernelWith (fun _ _ _ hcs' h' => by
      obtain ⟨k, hk, hl⟩ := leads_of_kernelWalk hcs' h'
      exact ⟨k, Nat.lt_succ_of_le hk, hl⟩) hcs h

/-- What one component can do. -/
theorem Leads.cons (h : Leads t k d (c :: cs) r) : t.get d = some .dir ∧
    (((c = [] ∨ c = ['.']) ∧ Leads t k d cs r) ∨
      (c = ['.', '.'] ∧ Leads t k d.dropLast cs r) ∨
      (IsSegment c ∧ ∃ node, t.get (d ++ [c]) = some node ∧ (∀ target, node ≠ .link target) ∧
        Leads t k (d ++ [c]) cs r) ∨
      (IsSegment c ∧ ∃ target k', t.get (d ++ [c]) = some (.link target) ∧ k = k' + 1 ∧
        Leads t k' (origin d target).1 ((origin d target).2 ++ cs) r)) := by
  cases h with
  | stay hdir hc hl => exact ⟨hdir, .inl ⟨hc, hl⟩⟩
  | up hdir hl => exact ⟨hdir, .inr (.inl ⟨rfl, hl⟩)⟩
  | down hdir hc hget hnode hl => exact ⟨hdir, .inr (.inr (.inl ⟨hc, _, hget, hnode, hl⟩))⟩
  | link hdir hc hget hl => exact ⟨hdir, .inr (.inr (.inr ⟨hc, _, _, hget, rfl, hl⟩))⟩

/-- The walk has one end, and one number of links. -/
theorem Leads.det (h : Leads t k d cs r) : ∀ {k' : ℕ} {e : Place}, Leads t k' d cs e →
    k = k' ∧ r = e := by
  have hstay {c : Text} (hc : c = [] ∨ c = ['.']) : ¬IsSegment c := by
    rintro ⟨h0, h1, -⟩
    exact hc.elim h0 h1
  induction h with
  | nil d =>
    intro k' e h'
    cases h'
    exact ⟨rfl, rfl⟩
  | stay hdir hc hl ih =>
    intro k' e h'
    obtain ⟨-, ⟨-, hl'⟩ | ⟨rfl, -⟩ | ⟨hc', -⟩ | ⟨hc', -⟩⟩ := h'.cons
    · exact ih hl'
    · exact absurd hc (by decide)
    · exact absurd hc' (hstay hc)
    · exact absurd hc' (hstay hc)
  | up hdir hl ih =>
    intro k' e h'
    obtain ⟨-, ⟨hc', -⟩ | ⟨-, hl'⟩ | ⟨hc', -⟩ | ⟨hc', -⟩⟩ := h'.cons
    · exact absurd hc' (by decide)
    · exact ih hl'
    · exact absurd rfl hc'.2.2.1
    · exact absurd rfl hc'.2.2.1
  | down hdir hc hget hnode hl ih =>
    intro k' e h'
    obtain ⟨-, ⟨hc', -⟩ | ⟨rfl, -⟩ | ⟨-, _, -, -, hl'⟩ | ⟨-, target, _, hget', -⟩⟩ := h'.cons
    · exact absurd hc (hstay hc')
    · exact absurd rfl hc.2.2.1
    · exact ih hl'
    · exact absurd (Option.some.inj (hget.symm.trans hget')) (hnode target)
  | link hdir hc hget hl ih =>
    intro k' e h'
    obtain ⟨-, ⟨hc', -⟩ | ⟨rfl, -⟩ | ⟨-, _, hget', hnode, -⟩ | ⟨-, _, _, hget', rfl, hl'⟩⟩ :=
      h'.cons
    · exact absurd hc (hstay hc')
    · exact absurd rfl hc.2.2.1
    · exact absurd (Option.some.inj (hget'.symm.trans hget)) (hnode _)
    · obtain rfl := Node.link.inj (Option.some.inj (hget.symm.trans hget'))
      obtain ⟨rfl, rfl⟩ := ih hl'
      exact ⟨rfl, rfl⟩

/-- A walk over two paths is one over the first and then over the second. -/
theorem Leads.split (h : Leads t k d (as ++ bs) r) :
    ∃ m l e, m + l = k ∧ Leads t m d as e ∧ Leads t l e bs r := by
  generalize hcs : as ++ bs = cs at h
  induction h generalizing as with
  | nil d =>
    obtain ⟨rfl, rfl⟩ := List.append_eq_nil_iff.1 hcs
    exact ⟨0, 0, d, rfl, .nil d, .nil d⟩
  | stay hdir hc hl ih =>
    rcases List.append_eq_cons_iff.1 hcs with ⟨rfl, rfl⟩ | ⟨as, rfl, hrest⟩
    · exact ⟨0, _, _, Nat.zero_add _, .nil _, .stay hdir hc hl⟩
    · obtain ⟨m, l, e, hk, hm, hl'⟩ := ih hrest.symm
      exact ⟨m, l, e, hk, .stay hdir hc hm, hl'⟩
  | up hdir hl ih =>
    rcases List.append_eq_cons_iff.1 hcs with ⟨rfl, rfl⟩ | ⟨as, rfl, hrest⟩
    · exact ⟨0, _, _, Nat.zero_add _, .nil _, .up hdir hl⟩
    · obtain ⟨m, l, e, hk, hm, hl'⟩ := ih hrest.symm
      exact ⟨m, l, e, hk, .up hdir hm, hl'⟩
  | down hdir hc hget hnode hl ih =>
    rcases List.append_eq_cons_iff.1 hcs with ⟨rfl, rfl⟩ | ⟨as, rfl, hrest⟩
    · exact ⟨0, _, _, Nat.zero_add _, .nil _, .down hdir hc hget hnode hl⟩
    · obtain ⟨m, l, e, hk, hm, hl'⟩ := ih hrest.symm
      exact ⟨m, l, e, hk, .down hdir hc hget hnode hm, hl'⟩
  | link hdir hc hget hl ih =>
    rcases List.append_eq_cons_iff.1 hcs with ⟨rfl, rfl⟩ | ⟨as, rfl, hrest⟩
    · exact ⟨0, _, _, Nat.zero_add _, .nil _, .link hdir hc hget hl⟩
    · obtain ⟨m, l, e, hk, hm, hl'⟩ := ih (by rw [List.append_assoc, hrest])
      exact ⟨m + 1, l, e, by omega, .link hdir hc hget hm, hl'⟩

/-- No place on the way is a link. -/
def Direct (t : Tree) (q : Place) : Prop :=
  ∀ p, p <+: q → ∀ target, t.get p ≠ some (.link target)

/-- A place that is there, with no link on the way. -/
structure Real (t : Tree) (q : Place) : Prop where
  names : Names q
  there : ∃ node, t.get q = some node
  direct : Direct t q

theorem Real.root (t : Tree) : Real t [] := by
  refine ⟨fun _ h => (List.not_mem_nil h).elim, ⟨_, t.root⟩, fun p hp target => ?_⟩
  rw [List.prefix_nil.1 hp, t.root]
  exact nofun

theorem Real.dropLast (h : Real t q) : Real t q.dropLast := by
  refine ⟨h.names.dropLast, ?_, fun p hp => h.direct p (hp.trans (List.dropLast_prefix q))⟩
  rcases List.eq_nil_or_concat q with rfl | ⟨q, c, rfl⟩
  · exact ⟨_, t.root⟩
  · obtain ⟨node, hnode⟩ := h.there
    rw [List.concat_eq_append] at hnode ⊢
    rw [List.dropLast_concat]
    exact ⟨_, t.parent q c fun hnone => by cases hnode.symm.trans hnone⟩

theorem Real.snoc {node : Node} (h : Real t q) (hc : IsSegment c)
    (hget : t.get (q ++ [c]) = some node) (hnode : ∀ target, node ≠ .link target) :
    Real t (q ++ [c]) := by
  refine ⟨h.names.snoc hc, ⟨node, hget⟩, fun p hp target => ?_⟩
  rcases List.prefix_concat_iff.1 hp with rfl | hp
  · rw [hget]
    exact fun heq => hnode target (Option.some.inj heq)
  · exact h.direct p hp target

theorem Real.origin (h : Real t q) (path : Text) : Real t (RealPath.origin q path).1 := by
  rw [RealPath.origin]
  split_ifs
  exacts [.root t, h]

/-- Where a walk from a real place ends is real. -/
theorem Leads.real (h : Leads t k d cs r) : Real t d → Real t r := by
  induction h with
  | nil d => exact id
  | stay hdir hc hl ih => exact ih
  | up hdir hl ih => exact fun hd => ih hd.dropLast
  | down hdir hc hget hnode hl ih => exact fun hd => ih (hd.snoc hc hget hnode)
  | link hdir hc hget hl ih => exact fun hd => ih (hd.origin _)

/-! ## The table -/

variable {seen seen' seen'' : Seen} {x : Text}

/-- What the table has for a path. -/
def known (seen : Seen) (p : Text) : Option (Option Text) :=
  (Keyed.find Prod.fst p seen).map Prod.snd

theorem known_cons (p p' : Text) (v : Option Text) :
    known ((p, v) :: seen) p' = if p = p' then some v else known seen p' := by
  rw [known, Keyed.find_cons]
  split_ifs with h
  exacts [rfl, rfl]

/-- The kernel takes so many links to follow the target of a link to its end. -/
def Reaches (t : Tree) (l : Place) (k : ℕ) (r : Place) : Prop :=
  ∃ target, t.get l = some (.link target) ∧
    Leads t k (origin l.dropLast target).1 (origin l.dropLast target).2 r

theorem Reaches.det {l : Place} (h : Reaches t l k r) (h' : Reaches t l k' e) :
    k = k' ∧ r = e := by
  obtain ⟨target, hget, hl⟩ := h
  obtain ⟨target', hget', hl'⟩ := h'
  obtain rfl := Node.link.inj (Option.some.inj (hget.symm.trans hget'))
  exact hl.det hl'

/-- What the table says of a link is where the kernel gets to. -/
def Sound (t : Tree) (seen : Seen) : Prop :=
  ∀ l, Names l → ∀ x, known seen (abs l) = some (some x) → ∀ k r, Reaches t l k r → x = abs r

/-- A link whose target is being followed takes so many links at least. -/
def Pending (t : Tree) (k : ℕ) (seen : Seen) : Prop :=
  ∀ l, Names l → known seen (abs l) = some none → ∀ k' r, Reaches t l k' r → k ≤ k'

/-- Nothing is pending in the second table that was not in the first. -/
def Settles (seen seen' : Seen) : Prop :=
  ∀ p, known seen' p = some none → known seen p = some none

theorem Pending.of_settles (h : Pending t k seen) (hs : Settles seen seen') (hk : k' ≤ k) :
    Pending t k' seen' :=
  fun l hl hnone k r hr => hk.trans (h l hl (hs _ hnone) k r hr)

/-! ## The functions of the node on places -/

theorem abs_inj {q' : Place} (hq : Names q) (hq' : Names q') (h : abs q = abs q') : q = q' := by
  rw [← names_abs hq, h, names_abs hq']

/-- The components of a path that is not empty. -/
def segs (rest : Text) : List Text :=
  if rest = [] then [] else rest.splitOn '/'

/-- An empty path leads nowhere else. -/
theorem Leads.segs (h : Leads t k d (rest.splitOn '/') r) :
    Leads t k d (RealPath.segs rest) r := by
  rw [RealPath.segs]
  split_ifs with hempty
  · rw [hempty] at h
    obtain ⟨-, ⟨-, hl⟩ | ⟨hc, -⟩ | ⟨hc, -⟩ | ⟨hc, -⟩⟩ := h.cons
    · exact hl
    · cases hc
    · exact absurd rfl hc.1
    · exact absurd rfl hc.1
  · exact h

/-- The first component is cut off. -/
theorem splitOn_cut (rest : Text) : ∃ tail, rest.splitOn '/' = (cut rest).1 :: tail ∧
    ∀ {t : Tree} {k : ℕ} {d r : Place}, Leads t k d tail r → Leads t k d (segs (cut rest).2) r := by
  have hname : '/' ∉ (cut rest).1 := by
    intro hmem
    simpa using List.mem_takeWhile_imp hmem
  have hsplit : (cut rest).1 ++ rest.dropWhile (· ≠ '/') = rest := List.takeWhile_append_dropWhile
  rcases hdrop : rest.dropWhile (· ≠ '/') with _ | ⟨c, tail⟩
  · have hrest : (cut rest).2 = [] := by rw [cut, hdrop]; rfl
    rw [hdrop, List.append_nil] at hsplit
    refine ⟨[], ?_, fun h => by rw [hrest]; exact h⟩
    rw [hsplit] at hname ⊢
    exact List.splitOn_eq_singleton hname
  · have hrest : (cut rest).2 = tail := by rw [cut, hdrop]; rfl
    have hc : c = '/' := by
      have hhead := List.head?_dropWhile_not (fun c => decide (c ≠ '/')) rest
      rw [hdrop] at hhead
      simpa using hhead
    rw [hdrop, hc] at hsplit
    refine ⟨tail.splitOn '/', ?_, fun h => by rw [hrest]; exact h.segs⟩
    conv_lhs => rw [← hsplit]
    exact List.splitOn_append_cons_self_of_not_mem hname tail

/-- A walk that ends at the text of a place, and keeps the table sound. -/
structure Ends (t : Tree) (seen : Seen) (r : Place) (w : Walk) : Prop where
  path : w.path = abs r
  ok : w.ok = true
  sound : Sound t w.seen
  settles : Settles seen w.seen

/-- A link is marked before its target is followed. -/
theorem Sound.mark (h : Sound t seen) (p : Text) : Sound t ((p, none) :: seen) := by
  intro l hl x hx
  rw [known_cons] at hx
  split_ifs at hx with heq
  · cases hx
  · exact h l hl x hx

/-- The links that were pending take more than the one whose target is followed next. -/
theorem Pending.mark {l : Place} (h : Pending t k seen) (hl : Names l) (hreach : Reaches t l k' e)
    (hk : k' ≤ k) : Pending t k' ((abs l, none) :: seen) := by
  intro p hp hnone j r hr
  rw [known_cons] at hnone
  split_ifs at hnone with heq
  · obtain rfl := abs_inj hl hp heq
    exact (hreach.det hr).1.le
  · exact hk.trans (h p hp hnone j r hr)

/-- Once its target was followed, the table knows where a link leads. -/
theorem Ends.known {l : Place} {w : Walk} (hl : Names l) (hreach : Reaches t l k e)
    (hw : Ends t ((abs l, none) :: seen) e w) :
    Sound t ((abs l, some w.path) :: w.seen) ∧ Settles seen ((abs l, some w.path) :: w.seen) := by
  constructor
  · intro p hp x hx k r hr
    rw [known_cons] at hx
    split_ifs at hx with heq
    · obtain rfl := abs_inj hl hp heq
      obtain ⟨-, rfl⟩ := hreach.det hr
      rw [← Option.some.inj (Option.some.inj hx), hw.path]
    · exact hw.sound p hp x hx k r hr
  · intro p hp
    rw [known_cons] at hp
    split_ifs at hp with heq
    · cases hp
    · have hseen := hw.settles p hp
      rw [known_cons, if_neg heq] at hseen
      exact hseen

/-- The loop of `join_realpath` gets to where the kernel gets to. -/
theorem follow_leads {resolve : Seen → Text → Text → Walk}
    (hresolve : ∀ (seen : Seen) {d r : Place} {target : Text} {k : ℕ}, Real t d →
      Leads t k (origin d target).1 (origin d target).2 r → k < n → Sound t seen →
        Pending t k seen → Ends t seen r (resolve seen (abs d) target)) (rest : Text) :
    ∀ {seen d k r}, Real t d → Leads t k d (segs rest) r → k ≤ n → Sound t seen →
      Pending t k seen → Ends t seen r (follow t resolve seen (abs d) rest) := by
  induction hlen : rest.length using Nat.strong_induction_on generalizing rest with
  | _ m ih =>
  intro seen d k r hd hleads hk hsound hpending
  rw [follow]
  by_cases hempty : rest = []
  · rw [dif_pos hempty]
    rw [hempty] at hleads
    cases hleads
    exact ⟨rfl, rfl, hsound, fun _ h => h⟩
  rw [dif_neg hempty]
  dsimp only
  obtain ⟨tail, hsplit, htail⟩ := splitOn_cut rest
  rw [segs, if_neg hempty, hsplit] at hleads
  have hnext {seen : Seen} {d r : Place} {k : ℕ} : Real t d → Leads t k d (segs (cut rest).2) r →
      k ≤ n → Sound t seen → Pending t k seen →
        Ends t seen r (follow t resolve seen (abs d) (cut rest).2) :=
    ih _ (hlen ▸ cut_length hempty) _ rfl
  obtain ⟨-, ⟨hc, hl⟩ | ⟨hc, hl⟩ | ⟨hc, node, hget, hnode, hl⟩ | ⟨hc, target, j, hget, hj, hl⟩⟩ :=
    hleads.cons
  · rw [if_pos hc]
    exact hnext hd (htail hl) hk hsound hpending
  · rw [if_neg (by rw [hc]; decide), if_pos hc, up_abs hd.names]
    exact hnext hd.dropLast (htail hl) hk hsound hpending
  · have hlstat : t.lstat (abs (d ++ [(cut rest).1])) = some node := by
      rw [Tree.lstat, names_abs (hd.names.snoc hc), hget]
    rw [if_neg (not_or.2 ⟨hc.1, hc.2.1⟩), if_neg hc.2.2.1, joinBytes_abs hd.names hc, hlstat]
    have hdown := hnext (hd.snoc hc hget hnode) (htail hl) hk hsound hpending
    cases node with
    | link target => exact absurd rfl (hnode target)
    | dir => exact hdown
    | other => exact hdown
  · have hnames := hd.names.snoc hc
    have hlstat : t.lstat (abs (d ++ [(cut rest).1])) = some (.link target) := by
      rw [Tree.lstat, names_abs hnames, hget]
    rw [if_neg (not_or.2 ⟨hc.1, hc.2.1⟩), if_neg hc.2.2.1, joinBytes_abs hd.names hc, hlstat]
    dsimp only
    obtain ⟨i, l, e, hil, hi, hrest⟩ := hl.split
    have he : Real t e := hi.real (hd.origin target)
    have hreach : Reaches t (d ++ [(cut rest).1]) i e := by
      refine ⟨target, hget, ?_⟩
      rw [List.dropLast_concat]
      exact hi
    rcases hfind : Keyed.find Prod.fst (abs (d ++ [(cut rest).1])) seen with _ | ⟨y, _ | x⟩
    · dsimp only
      have hw := hresolve ((abs (d ++ [(cut rest).1]), none) :: seen) hd hi (by omega)
        (hsound.mark _) (hpending.mark hnames hreach (by omega))
      obtain ⟨hsound', hsettles⟩ := hw.known hnames hreach
      rw [hw.path] at hsound' hsettles
      rw [if_pos hw.ok, hw.path]
      have hend := hnext he (htail hrest) (by omega) hsound'
        (hpending.of_settles hsettles (by omega))
      exact ⟨hend.path, hend.ok, hend.sound, fun p hp => hsettles p (hend.settles p hp)⟩
    · -- the target of this link is being followed, and takes more links than are left
      have hnone : known seen (abs (d ++ [(cut rest).1])) = some none := by rw [known, hfind]; rfl
      have hle := hpending _ hnames hnone _ _ hreach
      omega
    · have hsome : known seen (abs (d ++ [(cut rest).1])) = some (some x) := by
        rw [known, hfind]
        rfl
      rw [hsound _ hnames x hsome _ _ hreach]
      exact hnext he (htail hrest) (by omega) hsound (hpending.of_settles (fun _ h => h) (by omega))

/-- `join_realpath` gets to where the kernel gets to, if there are more levels than links. -/
theorem joinRealpath_leads : ∀ {n : ℕ} (seen : Seen) {d r : Place} {target : Text} {k : ℕ},
    Real t d → Leads t k (origin d target).1 (origin d target).2 r → k < n → Sound t seen →
      Pending t k seen → Ends t seen r (joinRealpath t n seen (abs d) target)
  | 0, _, _, _, _, _, _, _, hk, _, _ => absurd hk (Nat.not_lt_zero _)
  | n + 1, seen, d, r, target, k, hd, hl, hk, hsound, hpending => by
    have hstart : start (abs d) target =
        (abs (origin d target).1, if target.head? = some '/' then target.tail else target) := by
      rw [start, origin]
      split_ifs <;> rfl
    have hcomps : (origin d target).2 =
        (if target.head? = some '/' then target.tail else target).splitOn '/' := by
      rw [origin]
      split_ifs <;> rfl
    rw [joinRealpath, hstart]
    rw [hcomps] at hl
    exact follow_leads joinRealpath_leads _ (hd.origin target) hl.segs (Nat.lt_succ_iff.1 hk)
      hsound hpending

/-- Where the kernel gets to on a path from `/`, `realpath` does. -/
theorem realpath_of_kernel (cwd : Text) {p : Text} (hp : p.head? = some '/')
    (h : kernelPath t p = some r) : realpath cwd t p = abs r ∧ Real t r := by
  obtain ⟨k, hk, hl⟩ := leads_of_kernelWalk (unslashed_origin [] p) h
  have horigin : Real t (origin [] p).1 := (Real.root t).origin p
  have hreal := hl.real horigin
  have hsame (path : Text) :
      joinRealpath t levels [] path p = joinRealpath t levels [] (abs []) p := by
    rw [levels, joinRealpath, joinRealpath, start, start, if_pos hp, if_pos hp]
  have hend : Ends t [] r (joinRealpath t levels [] (abs []) p) :=
    joinRealpath_leads [] (.root t) hl (Nat.lt_of_le_of_lt hk (by decide))
      (fun _ _ _ hx => by cases hx) (fun _ _ hx => by cases hx)
  refine ⟨?_, hreal⟩
  rw [realpath, hsame, hend.path, abspath, if_pos (head_abs r), normpath_abs hreal.names]

/-! ## realpath again -/

/-- A path from `/`. -/
def Rooted (path : Text) : Prop :=
  path.head? = some '/'

theorem Rooted.of_prefix {p : Text} (h : Rooted path) (hp : p <+: path) (hne : p ≠ []) :
    Rooted p := by
  obtain ⟨u, rfl⟩ := hp
  rw [Rooted, List.head?_append_of_ne_nil p hne] at h
  exact h

theorem Rooted.joinBytes (h : Rooted path) (rest : Text) :
    Rooted (RealPath.joinBytes path rest) := by
  have hne : path ≠ [] := fun hnil => by rw [hnil] at h; cases h
  rw [RealPath.joinBytes]
  split_ifs with hrest
  · exact hrest
  · rw [Rooted, List.head?_append_of_ne_nil path hne]
    exact h
  · rw [Rooted, List.head?_append_of_ne_nil path hne]
    exact h

theorem Rooted.up (h : Rooted path) : Rooted (RealPath.up path) := by
  have hne : path ≠ [] := fun hnil => by rw [hnil] at h; cases h
  have hslash : '/' ∈ path := List.mem_of_mem_head? h
  have hhead : Rooted (path.rdropWhile (· ≠ '/')) := by
    refine h.of_prefix (List.rdropWhile_prefix _ _) fun hnil => ?_
    simpa using List.rdropWhile_eq_nil_iff.1 hnil '/' hslash
  have hdir : Rooted (splitBytes path).1 := by
    rw [splitBytes, dirname]
    dsimp only
    split_ifs with hany
    · refine hhead.of_prefix (List.rdropWhile_prefix _ _) fun hnil => ?_
      obtain ⟨c, hc, hne⟩ := List.any_eq_true.1 hany.2
      have hall := List.rdropWhile_eq_nil_iff.1 hnil c hc
      exact of_decide_eq_true hne (of_decide_eq_true hall)
    · exact hhead
  rw [RealPath.up, if_neg hne]
  split_ifs
  exacts [(hdir.joinBytes _).joinBytes _, hdir]

/-- The table has paths from `/` only. -/
def RootedSeen (seen : Seen) : Prop :=
  ∀ p x, known seen p = some (some x) → Rooted x

theorem RootedSeen.cons (h : RootedSeen seen) (p : Text) {v : Option Text}
    (hv : ∀ x, v = some x → Rooted x) : RootedSeen ((p, v) :: seen) := by
  intro p' x hx
  rw [known_cons] at hx
  split_ifs at hx
  exacts [hv x (Option.some.inj hx), h p' x hx]

/-- A walk on paths from `/`. -/
def RootedWalk (w : Walk) : Prop :=
  Rooted w.path ∧ RootedSeen w.seen

theorem follow_rooted {resolve : Seen → Text → Text → Walk}
    (hresolve : ∀ seen path target, RootedSeen seen → Rooted path →
      RootedWalk (resolve seen path target)) (rest : Text) :
    ∀ {seen path}, RootedSeen seen → Rooted path →
      RootedWalk (follow t resolve seen path rest) := by
  induction hlen : rest.length using Nat.strong_induction_on generalizing rest with
  | _ m ih =>
  intro seen path hseen hpath
  rw [follow]
  by_cases hempty : rest = []
  · rw [dif_pos hempty]
    exact ⟨hpath, hseen⟩
  rw [dif_neg hempty]
  dsimp only
  have hnext {seen : Seen} {path : Text} : RootedSeen seen → Rooted path →
      RootedWalk (follow t resolve seen path (cut rest).2) :=
    ih _ (hlen ▸ cut_length hempty) _ rfl
  split_ifs
  · exact hnext hseen hpath
  · exact hnext hseen hpath.up
  have hnew := hpath.joinBytes (cut rest).1
  rcases t.lstat (joinBytes path (cut rest).1) with _ | node
  · exact hnext hseen hnew
  cases node with
  | dir => exact hnext hseen hnew
  | other => exact hnext hseen hnew
  | link target =>
    dsimp only
    rcases hfind : Keyed.find Prod.fst (joinBytes path (cut rest).1) seen with _ | ⟨y, _ | x⟩
    · dsimp only
      have hw := hresolve ((joinBytes path (cut rest).1, none) :: seen) path target
        (hseen.cons _ nofun) hpath
      split_ifs
      · exact hnext (hw.2.cons _ fun x hx => Option.some.inj hx ▸ hw.1) hw.1
      · exact ⟨hw.1.joinBytes _, hw.2⟩
    · exact ⟨hnew.joinBytes _, hseen⟩
    · exact hnext hseen (hseen (joinBytes path (cut rest).1) x (by rw [known, hfind]; rfl))

theorem start_rooted (h : Rooted path ∨ Rooted rest) : Rooted (start path rest).1 := by
  rw [start]
  split_ifs with hrest
  · rfl
  · exact h.resolve_right hrest

theorem joinRealpath_rooted : ∀ (n : ℕ) {seen : Seen} {path rest : Text}, RootedSeen seen →
    Rooted path ∨ Rooted rest → RootedWalk (joinRealpath t n seen path rest)
  | 0, _, _, _, hseen, h => ⟨(start_rooted h).joinBytes _, hseen⟩
  | n + 1, _, _, _, hseen, h => follow_rooted (fun _ _ _ hseen hpath =>
      joinRealpath_rooted n hseen (.inl hpath)) _ hseen (start_rooted h)

/-- `normpath` keeps names only. -/
theorem normSteps_names {i : ℕ} (hi : i ≠ 0) : ∀ {cs out : List Text}, Unslashed cs → Names out →
    Names (cs.foldl (normStep i) out)
  | [], _, _, hout => hout
  | c :: cs, out, hcs, hout => by
    have hrest : Unslashed cs := fun s hs => hcs s (List.mem_cons_of_mem c hs)
    rw [List.foldl_cons]
    refine normSteps_names hi hrest ?_
    rw [normStep]
    split_ifs with hskip hkeep
    · exact hout
    · refine hout.snoc ⟨fun h => hskip (.inl h), fun h => hskip (.inr h), ?_,
        hcs c List.mem_cons_self⟩
      rcases hkeep with h | ⟨h, -⟩ | h
      · exact h
      · exact absurd h hi
      · exact absurd rfl (hout _ (List.mem_of_getLast? h)).2.2.1
    · exact hout.dropLast

/-- `normpath` of a path from `/` : the text of a place, or that after one more slash. -/
theorem normpath_rooted (h : Rooted path) :
    ∃ q, Names q ∧ (normpath path = abs q ∨ normpath path = '/' :: abs q) := by
  have hne : path ≠ [] := fun hnil => by rw [hnil] at h; cases h
  have hinitial : initialSlashes path = 1 ∨ initialSlashes path = 2 := by
    obtain ⟨s, rfl⟩ : ∃ s, path = '/' :: s := by
      obtain ⟨c, s, rfl⟩ := List.exists_cons_of_ne_nil hne
      exact ⟨s, by rw [Option.some.inj h]⟩
    rw [initialSlashes, if_pos (by simp)]
    split_ifs
    exacts [.inr rfl, .inl rfl]
  have hnames {i : ℕ} (hi : i ≠ 0) : Names ((path.splitOn '/').foldl (normStep i) []) :=
    normSteps_names hi (fun _ hc => not_mem_of_mem_splitOn _ hc) fun _ hs => by cases hs
  rw [normpath, if_neg hne]
  dsimp only
  rcases hinitial with hi | hi
  · rw [hi]
    exact ⟨_, hnames (by decide), .inl (if_neg (List.cons_ne_nil _ _))⟩
  · rw [hi]
    exact ⟨_, hnames (by decide), .inr (if_neg (List.cons_ne_nil _ _))⟩

theorem cut_slash (hc : IsSegment c) (q : Place) : cut (slash (c :: q)) = (c, slash q) := by
  have hname : ∀ x ∈ c, decide (x ≠ '/') = true := fun x hx =>
    decide_eq_true fun heq => hc.2.2.2 (heq ▸ hx)
  by_cases hne : q = []
  · rw [hne, slash_singleton, cut, List.takeWhile_eq_self_iff.2 hname,
      List.dropWhile_eq_nil_iff.2 hname]
    rfl
  · rw [slash_cons_ne hne, cut, List.takeWhile_append_of_pos hname,
      List.dropWhile_append_of_pos hname]
    simp

/-- A path without links is followed to its end. -/
theorem follow_direct (resolve : Seen → Text → Text → Walk) : ∀ {q d : Place}, Names d → Names q →
    Direct t (d ++ q) → follow t resolve seen (abs d) (slash q) = ⟨abs (d ++ q), true, seen⟩
  | [], d, _, _, _ => by
    rw [follow, slash_nil, dif_pos rfl, List.append_nil]
  | c :: q, d, hd, hq, hdirect => by
    have hc := hq c List.mem_cons_self
    have hne : slash (c :: q) ≠ [] := slash_ne_nil ⟨List.cons_ne_nil c q, fun s hs =>
      ⟨(hq s hs).1, (hq s hs).2.2.2⟩⟩
    have happ : d ++ c :: q = d ++ [c] ++ q := by simp
    have hrest := follow_direct resolve (hd.snoc hc)
      (fun s hs => hq s (List.mem_cons_of_mem c hs)) (happ ▸ hdirect)
    have hlstat : ∀ target, t.lstat (abs (d ++ [c])) ≠ some (.link target) := by
      rw [Tree.lstat, names_abs (hd.snoc hc)]
      exact hdirect _ (happ ▸ List.prefix_append _ _)
    rw [follow, dif_neg hne]
    dsimp only
    rw [cut_slash hc]
    dsimp only
    rw [if_neg (not_or.2 ⟨hc.1, hc.2.1⟩), if_neg hc.2.2.1, joinBytes_abs hd hc, happ, ← hrest]
    rcases hget : t.lstat (abs (d ++ [c])) with _ | node
    · rfl
    cases node with
    | link target => exact absurd hget (hlstat target)
    | dir => rfl
    | other => rfl

/-- Two slashes at the start are one. -/
def oneSlash (p : Text) : Text :=
  if ['/', '/'].isPrefixOf p then p.tail else p

theorem oneSlash_abs (hq : Names q) :
    oneSlash (abs q) = abs q ∧ oneSlash ('/' :: abs q) = abs q := by
  refine ⟨?_, if_pos rfl⟩
  by_cases hne : q = []
  · rw [hne]
    rfl
  · obtain ⟨c, s, hs, hc⟩ := head_slash (hq.segments hne).pieces
    rw [abs, hs, oneSlash, if_neg]
    simp [Ne.symm hc]

/-- `realpath` of a place without links on the way is its text. -/
theorem realpath_direct (cwd : Text) (hq : Names q) (h : Direct t q) :
    realpath cwd t (abs q) = abs q ∧ realpath cwd t ('/' :: abs q) = abs q := by
  have hone : joinRealpath t levels [] [] (abs q) = ⟨abs q, true, []⟩ :=
    follow_direct _ (fun _ h => (List.not_mem_nil h).elim) hq h
  have htwo : joinRealpath t levels [] [] ('/' :: abs q) = ⟨abs q, true, []⟩ := by
    have hcut : cut (abs q) = ([], slash q) := rfl
    change follow t _ [] (abs []) (abs q) = _
    rw [follow, dif_neg (abs_ne_nil q)]
    dsimp only
    rw [hcut, if_pos (.inl rfl)]
    exact follow_direct _ (fun _ h => (List.not_mem_nil h).elim) hq h
  rw [realpath, realpath, hone, htwo, abspath, if_pos (head_abs q), normpath_abs hq]
  exact ⟨rfl, rfl⟩

/-- `realpath` comes to an end at the place where the kernel's walk ends, if it does; and where no
place on the way is a link, it changes nothing more than two slashes at the start. -/
theorem realpath_kernel (cwd : Text) (t : Tree) {p : Text} (hp : p.head? = some '/') :
    (∀ r, kernelPath t p = some r → realpath cwd t p = abs r ∧ Real t r) ∧
      (Direct t (names (realpath cwd t p)) →
        realpath cwd t (realpath cwd t p) = oneSlash (realpath cwd t p)) := by
  refine ⟨fun r h => realpath_of_kernel cwd hp h, fun h => ?_⟩
  have hwalk : RootedWalk (joinRealpath t levels [] [] p) :=
    joinRealpath_rooted levels (fun _ _ hx => by cases hx) (.inr hp)
  have hreal : realpath cwd t p = normpath (joinRealpath t levels [] [] p).path := if_pos hwalk.1
  obtain ⟨q, hq, hone | htwo⟩ := normpath_rooted hwalk.1
  · rw [hone] at hreal
    rw [hreal, names_abs hq] at h
    rw [hreal, (realpath_direct cwd hq h).1, (oneSlash_abs hq).1]
  · have hnames : names ('/' :: abs q) = q := by
      rw [names, splitOn_cons]
      exact names_abs hq
    rw [htwo] at hreal
    rw [hreal, hnames] at h
    rw [hreal, (realpath_direct cwd hq h).2, (oneSlash_abs hq).2]

/-- What a list of places says of a place. -/
def look (l : List (Place × Node)) (p : Place) : Option Node :=
  if p = [] then some .dir else (l.find? fun e => e.1 = p).map Prod.snd

/-- The tree of a list of places, each in a directory. -/
def Tree.ofList (l : List (Place × Node)) (h : ∀ e ∈ l, look l e.1.dropLast = some .dir) :
    Tree where
  get := look l
  root := if_pos rfl
  parent p c hget := by
    rw [look, if_neg (by simp)] at hget
    rcases hfind : l.find? fun e => e.1 = p ++ [c] with _ | e
    · rw [hfind] at hget
      exact absurd rfl hget
    · have hplace : e.1 = p ++ [c] := by simpa using List.find?_some hfind
      have hdir := h e (List.mem_of_find?_eq_some hfind)
      rwa [hplace, List.dropLast_concat] at hdir

/-- A file in a directory that a link leads to. -/
def linkTree : Tree :=
  .ofList [(["b".toList], .dir), (["b".toList, "f".toList], .other),
    (["l".toList], .link "x/..//../b".toList), (["x".toList], .link "/b/./".toList)] (by decide)

theorem realpath_kernel_link : realpath [] linkTree "/.//l/../b/f".toList = "/b/f".toList ∧
    realpath [] linkTree "/b/f".toList = "/b/f".toList := by
  have hkernel : kernelPath linkTree "/.//l/../b/f".toList = some ["b".toList, "f".toList] := by
    decide +kernel
  obtain ⟨hreal, hplace⟩ :=
    (realpath_kernel [] linkTree (p := "/.//l/../b/f".toList) rfl).1 _ hkernel
  have hagain := (realpath_kernel [] linkTree (p := "/.//l/../b/f".toList) rfl).2
    (by rw [hreal, names_abs hplace.names]; exact hplace.direct)
  rw [hreal, (oneSlash_abs hplace.names).1] at hagain
  exact ⟨hreal, hagain⟩

/-- A link that leads to itself. -/
def loopTree : Tree :=
  .ofList [(["loop".toList], .link "loop".toList)] (by decide)

/-- What is left after a link that leads to itself starts at `/` again, after two slashes. -/
theorem loop_restarts : realpath [] loopTree "/loop///x".toList = "//x".toList ∧
    Direct loopTree (names "//x".toList) ∧ realpath [] loopTree "//x".toList = "/x".toList := by
  refine ⟨by decide +kernel, fun p hp target => ?_, by decide +kernel⟩
  have hnames : names "//x".toList = [['x']] := by decide
  have hall : ∀ p ∈ ([['x']] : Place).inits,
      loopTree.get p = some .dir ∨ loopTree.get p = none := by
    decide
  rw [hnames] at hp
  rcases hall p ((List.mem_inits _ _).2 hp) with h | h
  · rw [h]
    exact nofun
  · rw [h]
    exact nofun

end EngineConsole.RealPath
