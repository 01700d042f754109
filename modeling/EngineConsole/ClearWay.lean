import EngineConsole.Confinement
import EngineConsole.CrashLogic

/-!
# Making a link where nothing is in the way

Where no system call fails and every directory on the way is a directory or missing, the node
opens the way (`openDir_total`), and makes a link whose target leads inside the root
(`symlinkIn_total`). All that changes is the directories that were missing, and the link.
-/

set_option linter.unusedSectionVars false

namespace EngineConsole

theorem Total.rescue {σ ε ε' α : Type} {P : σ → Prop} {m : Prog σ ε α} {Q : α → σ → Prop}
    (h : Total P m Q) (f : ε → Prog σ ε' α) : Total P (m.rescue f) Q := by
  intro s hs
  have hm := h s hs
  unfold Prog.rescue
  rcases hr : m s with ⟨a | e | _, t⟩ <;> rw [hr] at hm
  exacts [hm, hm.elim, hm.elim]

namespace Files

open FileTree

/-! ## Directories -/

/-- No system call fails. -/
def Calm (a : Around) : Prop :=
  ∀ sys p, a.fault sys p = none

/-- Every directory on the way down is a directory or missing. -/
def Clear (t : Tree) (d : Path) (ps : List String) : Prop :=
  ∀ q, q ≠ [] → q <+: ps → t.get (d ++ q) = none ∨ t.get (d ++ q) = some .dir

/-- The second tree is the first with the directories on the way down. -/
structure Grown (t t' : Tree) (d : Path) (ps : List String) : Prop where
  made : ∀ q, q ≠ [] → q <+: ps → t'.get (d ++ q) = some .dir
  kept : ∀ p, (∀ q, q ≠ [] → q <+: ps → p ≠ d ++ q) → t'.get p = t.get p

section

variable {s : Setup} {a : Around} {t t' : Tree} {d p : Path} {c : String} {ps : List String}
  {n : Inode}

theorem Grown.noLink (h : Grown t t' d ps) (hp : ∀ target, t.get p ≠ some (.link target)) :
    ∀ target, t'.get p ≠ some (.link target) := by
  intro target hlink
  by_cases hway : ∃ q, q ≠ [] ∧ q <+: ps ∧ p = d ++ q
  · obtain ⟨q, hq, hpre, rfl⟩ := hway
    rw [h.made q hq hpre] at hlink
    cases hlink
  · rw [h.kept p fun q hq hpre heq => hway ⟨q, hq, hpre, heq⟩] at hlink
    exact hp target hlink

theorem dirError_dir (ha : Calm a) {sys : Sys} (h : t.get p = some .dir) :
    dirError a sys t p = none := by
  rw [dirError, ha, h]
  rfl

theorem mkdirAt_total (ha : Calm a) (h : t.get p = none) :
    Total (fun h => h.tree = t) (mkdirAt a p) fun _ h => h.tree = t.put p .dir := by
  unfold mkdirAt
  rw [ha]
  refine .bind (Q := fun n h => n = none ∧ h.tree = t) (.look fun g hg => ?_) fun n => ?_
  · subst hg
    exact ⟨h, rfl⟩
  · refine .intro fun g hg => ?_
    obtain ⟨rfl, hg⟩ := hg
    refine .change ?_
    rintro _ rfl
    exact congrArg (Tree.put p .dir) hg

/-- A component that is a directory or missing is opened. -/
theorem openStep_total (ha : Calm a) (hp : t.get (d ++ [c]) = none ∨ t.get (d ++ [c]) = some .dir) :
    Total (fun h => h.tree = t) (openStep s a d c)
      fun d' h => d' = d ++ [c] ∧ h.tree.get d' = some .dir ∧
        ∀ q, q ≠ d ++ [c] → h.tree.get q = t.get q := by
  have hnil : d ++ [c] ≠ [] := by simp
  unfold openStep
  refine .bind (Q := fun t' h => t' = t ∧ h.tree = t) (.look fun g hg => ⟨hg, hg⟩) fun t' => ?_
  refine .intro fun g hg => ?_
  obtain ⟨rfl, hg⟩ := hg
  rcases hp with hp | hp
  · have herror : dirError a .opendir t' (d ++ [c]) = some enoent := by
      rw [dirError, ha, hp]
      rfl
    rw [herror]
    dsimp only
    rw [if_pos rfl]
    refine .bind ((mkdirAt_total ha hp).pre fun _ h => h ▸ hg) fun _ => ?_
    refine .bind (Q := fun t h => t = t'.put (d ++ [c]) .dir ∧ h.tree = t'.put (d ++ [c]) .dir)
      (.look fun g hg => ⟨hg, hg⟩) fun t => ?_
    refine .intro fun g hg => ?_
    obtain ⟨rfl, hg⟩ := hg
    have hdir : (t'.put (d ++ [c]) .dir).get (d ++ [c]) = some .dir := by
      rw [Tree.get_put hnil, if_pos rfl]
    rw [dirError_dir ha hdir]
    refine .pure ?_
    rintro _ rfl
    rw [hg]
    exact ⟨rfl, hdir, fun q hq => get_put_ne hnil hq⟩
  · rw [dirError_dir ha hp]
    refine .pure ?_
    rintro _ rfl
    rw [hg]
    exact ⟨rfl, hp, fun _ _ => rfl⟩

theorem checkDir_total {P : Host → Prop} (hin : In s.root d) (hopen : s.protectedInside d = false) :
    Total P (checkDir s d) fun _ => P := by
  unfold checkDir
  rw [if_neg (by simp [inside_iff.2 hin]), if_neg (by simp [hopen])]
  exact .pure fun _ => id

/-- A clear way is opened. -/
theorem openSteps_total (ha : Calm a) (hin : In s.root d) (hopen : s.protectedInside d = false)
    (hps : ∀ c ∈ ps, s.node.writeProtected c = false) (hway : Clear t d ps) :
    Total (fun h => h.tree = t) (openSteps s a d ps)
      fun d' h => d' = d ++ ps ∧ Grown t h.tree d ps := by
  induction ps generalizing d t with
  | nil =>
    refine .pure fun h hh => ⟨by simp, fun q hq hpre => ?_, fun _ _ => by rw [hh]⟩
    exact absurd (List.prefix_nil.1 hpre) hq
  | cons c ps ih =>
    unfold openSteps
    refine .bind (Triple.mapError (openStep_total ha (hway [c] (by simp) (by simp)))) fun d' => ?_
    refine .intro fun g hg => ?_
    obtain ⟨rfl, hdir, hsame⟩ := hg
    have hin' : In s.root (d ++ [c]) := hin.trans (List.prefix_append ..)
    have hopen' : s.protectedInside (d ++ [c]) = false := by
      rw [protectedInside_concat hin, hopen, hps c List.mem_cons_self]
      rfl
    have hway' : Clear g.tree (d ++ [c]) ps := by
      intro q hq hpre
      have hne : d ++ [c] ++ q ≠ d ++ [c] := by simpa using hq
      rw [hsame _ hne, List.append_assoc]
      exact hway (c :: q) (by simp) (List.cons_prefix_cons.2 ⟨rfl, hpre⟩)
    refine .bind (checkDir_total hin' hopen') fun _ => ?_
    have hrest := ih hin' hopen' (fun x hx => hps x (List.mem_cons_of_mem c hx)) hway'
    refine (Triple.pre hrest fun h hh => by rw [hh]).post fun d' h hpost => ?_
    obtain ⟨rfl, hgrown⟩ := hpost
    refine ⟨by simp, fun q hq hpre => ?_, fun p hp => ?_⟩
    · obtain ⟨x, q, rfl⟩ := List.exists_cons_of_ne_nil hq
      obtain ⟨rfl, hdown⟩ := List.cons_prefix_cons.1 hpre
      by_cases hnil : q = []
      · subst hnil
        rw [hgrown.kept _ fun q hq _ heq => by simp [hq] at heq, hdir]
      · have hmade := hgrown.made q hnil hdown
        rwa [List.append_assoc] at hmade
    · rw [hgrown.kept p fun q hq hpre heq => ?_, hsame p fun heq => ?_]
      · exact hp [c] (by simp) (by simp) heq
      · exact hp (c :: q) (by simp) (List.cons_prefix_cons.2 ⟨rfl, hpre⟩) (by simpa using heq)

/-- So is the directory of a path. -/
theorem openDir_total (ha : Calm a) (hroot : t.get s.root = some .dir)
    (hps : ∀ c ∈ ps, s.node.writeProtected c = false) (hway : Clear t s.root ps) :
    Total (fun h => h.tree = t) (openDir s a ps)
      fun d h => d = s.root ++ ps ∧ Grown t h.tree s.root ps := by
  unfold openDir
  refine .bind (Q := fun t' h => t' = t ∧ h.tree = t) (.look fun g hg => ⟨hg, hg⟩) fun t' => ?_
  refine .intro fun g hg => ?_
  obtain ⟨rfl, hg⟩ := hg
  rw [dirError_dir ha hroot]
  have hopen : s.protectedInside s.root = false := by
    rw [Setup.protectedInside, if_pos (inside_iff.2 List.prefix_rfl), List.drop_length]
    rfl
  exact (openSteps_total ha List.prefix_rfl hopen hps hway).pre fun h hh => hh ▸ hg

/-! ## Links -/

/-- A new entry is put under its temporary name, and then under its own. -/
theorem replaceInto_total (ha : Calm a) (hdir : t.get (d ++ [c]) ≠ some .dir)
    (hspecial : t.get (d ++ [c]) ≠ some .special) (hfree : t.get (d ++ [tmpName a c]) = none) :
    Total (fun h => h.tree = t) (replaceInto s a d c fun tmp => createAt a tmp n)
      fun _ h => h.tree.get (d ++ [c]) = some n ∧
        ∀ q, q ≠ d ++ [c] → h.tree.get q = t.get q := by
  have htmp : d ++ [tmpName a c] ≠ [] := by simp
  have hname : d ++ [c] ≠ [] := by simp
  unfold replaceInto
  rw [ha]
  dsimp only
  refine .bind (Q := fun m h => m = t.get (d ++ [c]) ∧ h.tree = t)
    (.look fun g hg => ⟨by rw [hg], hg⟩) fun m => ?_
  refine .intro fun g hg => ?_
  obtain ⟨rfl, hg⟩ := hg
  split
  · next h => exact absurd h hdir
  · next h => exact absurd h hspecial
  · refine Total.rescue ?_ _
    refine .bind (Q := fun _ h => h.tree = t.put (d ++ [tmpName a c]) n) ?_ fun _ => ?_
    · unfold createAt trySys
      rw [ha]
      refine .bind (Q := fun _ h => h.tree = t) (.pure fun _ h => h ▸ hg) fun _ => ?_
      refine .bind (Q := fun m h => m = none ∧ h.tree = t)
        (.look fun g hg => ⟨by rw [hg, hfree], hg⟩) fun m => ?_
      refine .intro fun g hg => ?_
      obtain ⟨rfl, hg⟩ := hg
      refine .change ?_
      rintro _ rfl
      exact congrArg (Tree.put (d ++ [tmpName a c]) n) hg
    · unfold renameAt trySys
      rw [ha]
      refine .bind (Q := fun _ h => h.tree = t.put (d ++ [tmpName a c]) n)
        (.pure fun _ => id) fun _ => ?_
      refine .bind (Q := fun m h => m = some n ∧ h.tree = t.put (d ++ [tmpName a c]) n)
        (.look fun g hg => ⟨by rw [hg, Tree.get_put htmp, if_pos rfl], hg⟩) fun m => ?_
      refine .intro fun g hg => ?_
      obtain ⟨rfl, hg⟩ := hg
      refine .change ?_
      rintro _ rfl
      dsimp only
      refine ⟨by rw [Tree.get_put hname, if_pos rfl], fun q hq => ?_⟩
      rw [get_put_ne hname hq, hg, Tree.get_erase htmp]
      split_ifs with hqtmp
      · rw [hqtmp, hfree]
      · exact get_put_ne htmp hqtmp

/-- A link is made whose target leads inside the root. -/
theorem symlinkIn_total {segs : List String} (ha : Calm a)
    (hin : In s.root (realpath t (d ++ segs))) (hdir : t.get (d ++ [c]) ≠ some .dir)
    (hspecial : t.get (d ++ [c]) ≠ some .special) (hfree : t.get (d ++ [tmpName a c]) = none) :
    Total (fun h => h.tree = t) (symlinkIn s a segs c d)
      fun _ h => h.tree.get (d ++ [c]) = some (.link segs) ∧
        ∀ q, q ≠ d ++ [c] → h.tree.get q = t.get q := by
  unfold symlinkIn
  refine .bind (Q := fun r h => r = realpath t (d ++ segs) ∧ h.tree = t)
    (.look fun g hg => ⟨by rw [hg], hg⟩) fun r => ?_
  refine .intro fun g hg => ?_
  obtain ⟨rfl, hg⟩ := hg
  rw [if_neg (by simp [inside_iff.2 hin])]
  exact (replaceInto_total ha hdir hspecial hfree).pre fun h hh => hh ▸ hg

/-! ## Where the link leads -/

theorem noLinks_of_same {q : Path} {rest : List String} (h : NoLinks t q rest)
    (hsame : ∀ x, x ≠ [] → x <+: rest → t'.get (q ++ x) = t.get (q ++ x)) : NoLinks t' q rest := by
  intro x hx hpre target
  rw [hsame x hx hpre]
  exact h x hx hpre target

/-- The way that was opened has no link. -/
theorem Grown.noLinks (h : Grown t t' d ps) (hdirs : ∀ q, q <+: d → t.get q = some .dir) :
    NoLinks t' [] (d ++ ps) := by
  intro q hq hpre target hlink
  rw [List.nil_append] at hlink
  rcases List.prefix_or_prefix_of_prefix hpre (List.prefix_append d ps) with hup | ⟨x, rfl⟩
  · refine h.noLink (fun target hlink => ?_) target hlink
    rw [hdirs q hup] at hlink
    cases hlink
  · rw [List.prefix_append_right_inj] at hpre
    by_cases hx : x = []
    · subst hx
      rw [List.append_nil] at hlink
      refine h.noLink (fun target hlink => ?_) target hlink
      rw [hdirs d List.prefix_rfl] at hlink
      cases hlink
    · rw [h.made x hx hpre] at hlink
      cases hlink

/-- From a directory up and down another way. -/
theorem walkWith_around {resolve : List (Path × Option Path) → Path → List String → Walk}
    {seen : List (Path × Option Path)} {base up down : List String} (h : NoLinks t base down)
    (hdown : Proper down) :
    walkWith t resolve seen (base ++ up) (List.replicate up.length ".." ++ down) =
      ⟨seen, base ++ down, true⟩ := by
  have hend : walkWith t resolve seen base (down ++ []) =
      walkWith t resolve seen (base ++ down) [] := walkWith_noLinks h hdown []
  rw [List.append_nil] at hend
  rw [walkWith_ups, hend]
  rfl

/-- A tree in which nothing is in the way of a link at `base ++ up ++ [c]` to `base ++ down`. -/
structure Passable (s : Setup) (a : Around) (t : Tree) (base up down : List String) (c : String) :
    Prop where
  calm : Calm a
  root : Proper s.root
  dirs : ∀ q, q <+: s.root → t.get q = some .dir
  way : Clear t s.root (base ++ up)
  there : NoLinks t (s.root ++ base) down
  dir : t.get (s.root ++ (base ++ up) ++ [c]) ≠ some .dir
  special : t.get (s.root ++ (base ++ up) ++ [c]) ≠ some .special
  free : t.get (s.root ++ (base ++ up) ++ [tmpName a c]) = none

/-- The link is made, and leads there. -/
theorem fsSymlink_total {args : Args} {base up down : List String}
    (hpass : Passable s a t base up down c)
    (hopen : s.node.openRoot (arg args "root") true = .ok ())
    (hparts : splitRelForWrite s.node (asStr (arg args "link")) "link" = .ok (base ++ up ++ [c]))
    (hsegs : linkTarget (arg args "target") = .ok (List.replicate up.length ".." ++ down))
    (hdown : Proper down) (hpart : ¬up ++ [c] <+: down) :
    Total (fun h => h.tree = t) (fsSymlink s a args) fun _ h =>
      h.tree.get (s.root ++ (base ++ up) ++ [c]) =
        some (.link (List.replicate up.length ".." ++ down)) ∧
      realpath h.tree (s.root ++ (base ++ up) ++ [c]) = s.root ++ base ++ down := by
  obtain ⟨-, hnames⟩ := splitRelForWrite_names hparts
  have hway : ∀ x ∈ base ++ up, s.node.writeProtected x = false := fun x hx =>
    (hnames x (List.mem_append_left _ hx)).2
  have hproper : Proper (s.root ++ (base ++ up)) := by
    intro x hx
    rcases List.mem_append.1 hx with hx | hx
    · exact hpass.root x hx
    · exact (hnames x (List.mem_append_left _ hx)).1
  unfold fsSymlink
  rw [hopen, hparts, hsegs]
  show Total _ (openDir s a (base ++ up ++ [c]).dropLast >>= _) _
  rw [List.dropLast_concat]
  refine .bind (openDir_total hpass.calm (hpass.dirs _ List.prefix_rfl) hway hpass.way) fun d => ?_
  refine .intro fun g hg => ?_
  obtain ⟨rfl, hgrown⟩ := hg
  have hnew (x : String) : g.tree.get (s.root ++ (base ++ up) ++ [x]) =
      t.get (s.root ++ (base ++ up) ++ [x]) := by
    refine hgrown.kept _ fun q _ hpre heq => ?_
    rw [List.append_assoc, List.append_cancel_left_eq] at heq
    have hlen := hpre.length_le
    rw [← heq, List.length_append, List.length_singleton] at hlen
    omega
  have hup : NoLinks g.tree [] (s.root ++ (base ++ up)) := hgrown.noLinks hpass.dirs
  have hthere : NoLinks g.tree (s.root ++ base) down := fun q hq hpre =>
    hgrown.noLink (hpass.there q hq hpre)
  have hreal : realpath g.tree (s.root ++ (base ++ up) ++
      (List.replicate up.length ".." ++ down)) = s.root ++ base ++ down := by
    rw [realpath_noLinks hup hproper, ← List.append_assoc, walkWith_around hthere hdown]
  have hlast : (base ++ up ++ [c]).getLast?.getD "" = c := by simp
  rw [hlast]
  have hin : In s.root (realpath g.tree (s.root ++ (base ++ up) ++
      (List.replicate up.length ".." ++ down))) := by
    rw [hreal, List.append_assoc]
    exact List.prefix_append ..
  refine ((symlinkIn_total hpass.calm hin (by rw [hnew]; exact hpass.dir)
    (by rw [hnew]; exact hpass.special) (by rw [hnew]; exact hpass.free)).pre
    fun h hh => by rw [hh]).post fun _ h hpost => ?_
  obtain ⟨hlink, hsame⟩ := hpost
  refine ⟨hlink, ?_⟩
  have hup' : NoLinks h.tree [] (s.root ++ (base ++ up)) := by
    refine noLinks_of_same hup fun x _ hpre => hsame _ fun heq => ?_
    have hlen := hpre.length_le
    rw [List.nil_append] at heq
    rw [heq, List.length_append, List.length_singleton] at hlen
    omega
  have hthere' : NoLinks h.tree (s.root ++ base) down := by
    refine noLinks_of_same hthere fun x _ hpre => hsame _ fun heq => hpart ?_
    have hx : x = up ++ [c] := by simpa using heq
    exact hx ▸ hpre
  have hstart : start (s.root ++ (base ++ up)) (List.replicate up.length ".." ++ down) =
      (s.root ++ (base ++ up), List.replicate up.length ".." ++ down) :=
    (linkTarget_plain hsegs).start _
  refine realpath_link hup' hproper (hnames c (by simp)).1 hlink hstart fun resolve seen => ?_
  rw [← List.append_assoc]
  exact walkWith_around hthere' hdown

end

end Files

end EngineConsole
