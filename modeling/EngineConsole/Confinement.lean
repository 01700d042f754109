import EngineConsole.TreeOps
import EngineConsole.Transition

/-!
# What the file operations of a node leave alone

Nothing outside a root is changed by any call, and below a protected name only by a deletion,
but for the temporary names of a call. A link that a node makes, whose text leads inside the
root, leads inside the root for ever : its `..` are at its start, where they are those of the
directory it is in. So all links lead inside the root, in every tree that calls make of one
whose links are like that (`confined`).

A link with `..` after a name leads elsewhere when that name does; and a deletion asks for no
name (`not_confined`).
-/

set_option linter.unusedSectionVars false

namespace EngineConsole

namespace Files

open FileTree

/-! ## Changes -/

/-- The noted paths lie in `P`, and every other path is as it was. -/
def Moved (P : Path → Prop) (h h' : Host) : Prop :=
  ∃ l, h'.touched = h.touched ++ l ∧ (∀ p ∈ l, P p) ∧ ∀ p, p ∉ l → h'.tree.get p = h.tree.get p

/-- A run changes paths in `P` only, comes to a tree in `I` however it ends, and returns a
value in `Q`. -/
def StaysFrom {ε α : Type} (P : Path → Prop) (I : Tree → Prop) (Q : α → Prop) (h : Host)
    (m : Prog Host ε α) : Prop :=
  Moved P h (m h).2 ∧ I (m h).2.tree ∧ ∀ a, (m h).1 = .done a → Q a

/-- So does every run from a tree in `I`. -/
def Stays {ε α : Type} (P : Path → Prop) (I : Tree → Prop) (Q : α → Prop) (m : Prog Host ε α) :
    Prop :=
  ∀ h, I h.tree → StaysFrom P I Q h m

section

variable {ε ε' α β : Type} {P P' : Path → Prop} {I : Tree → Prop} {Q : α → Prop} {R : β → Prop}
  {h h' h'' : Host} {p : Path}

theorem Moved.refl (h : Host) : Moved P h h :=
  ⟨[], by simp, by simp, fun _ _ => rfl⟩

theorem Moved.trans (h₁ : Moved P h h') (h₂ : Moved P h' h'') : Moved P h h'' := by
  obtain ⟨l, hl, hP, hsame⟩ := h₁
  obtain ⟨l', hl', hP', hsame'⟩ := h₂
  refine ⟨l ++ l', by rw [hl', hl, List.append_assoc], fun p hp => ?_, fun p hp => ?_⟩
  · exact (List.mem_append.1 hp).elim (hP p) (hP' p)
  · rw [List.mem_append, not_or] at hp
    rw [hsame' p hp.2, hsame p hp.1]

theorem Moved.mono (hP : ∀ p, P p → P' p) (hm : Moved P h h') : Moved P' h h' := by
  obtain ⟨l, hl, hl', hsame⟩ := hm
  exact ⟨l, hl, fun p hp => hP p (hl' p hp), hsame⟩

/-- A path outside `P` is as it was. -/
theorem Moved.get (hm : Moved P h h') (hp : ¬P p) : h'.tree.get p = h.tree.get p := by
  obtain ⟨l, -, hl, hsame⟩ := hm
  exact hsame p fun hmem => hp (hl p hmem)

namespace Stays

theorem mono {Q' : α → Prop} {m : Prog Host ε α} (hm : Stays P I Q m) (hP : ∀ p, P p → P' p)
    (hQ : ∀ a, Q a → Q' a) : Stays P' I Q' m := by
  intro h hi
  obtain ⟨hmoved, hi', hq⟩ := hm h hi
  exact ⟨hmoved.mono hP, hi', fun a ha => hQ a (hq a ha)⟩

theorem pure {a : α} (hq : Q a) : Stays P I Q (pure a : Prog Host ε α) :=
  fun h hi => ⟨.refl h, hi, fun _ hb => (Exit.done.inj hb) ▸ hq⟩

theorem fail {e : ε} : Stays P I Q (Prog.fail e : Prog Host ε α) :=
  fun h hi => ⟨.refl h, hi, fun _ hb => nomatch hb⟩

theorem look {f : Host → α} (hq : ∀ h, I h.tree → Q (f h)) :
    Stays P I Q (Prog.look f : Prog Host ε α) :=
  fun h hi => ⟨.refl h, hi, fun _ hb => (Exit.done.inj hb) ▸ hq h hi⟩

theorem ofExcept {r : Except ε α} (hq : ∀ a, r = .ok a → Q a) :
    Stays P I Q (Prog.ofExcept r : Prog Host ε α) := by
  cases r with
  | error e => exact fail
  | ok a => exact pure (hq a rfl)

/-- One program after another, from one state. -/
theorem bindFrom {m : Prog Host ε α} {f : α → Prog Host ε β} (hm : StaysFrom P I Q h m)
    (hf : ∀ a h', m h = (.done a, h') → I h'.tree → Q a → StaysFrom P I R h' (f a)) :
    StaysFrom P I R h (m >>= f) := by
  obtain ⟨hmoved, hi, hq⟩ := hm
  show Moved P h (Prog.andThen m f h).2 ∧ I (Prog.andThen m f h).2.tree ∧
    ∀ b, (Prog.andThen m f h).1 = .done b → R b
  unfold Prog.andThen
  rcases hr : m h with ⟨a | e | _, t⟩ <;> rw [hr] at hmoved hi hq
  · obtain ⟨hmoved', hi', hq'⟩ := hf a t hr hi (hq a rfl)
    exact ⟨hmoved.trans hmoved', hi', hq'⟩
  · exact ⟨hmoved, hi, fun _ hb => nomatch hb⟩
  · exact ⟨hmoved, hi, fun _ hb => nomatch hb⟩

theorem bind {m : Prog Host ε α} {f : α → Prog Host ε β} (hm : Stays P I Q m)
    (hf : ∀ a, Q a → Stays P I R (f a)) : Stays P I R (m >>= f) :=
  fun h hi => bindFrom (hm h hi) fun a h' _ hi' hq => hf a hq h' hi'

theorem mapError {m : Prog Host ε α} {f : ε → ε'} (hm : Stays P I Q m) :
    Stays P I Q (m.mapError f) := by
  intro h hi
  obtain ⟨hmoved, hi', hq⟩ := hm h hi
  unfold StaysFrom Prog.mapError
  rcases hr : m h with ⟨a | e | _, t⟩ <;> rw [hr] at hmoved hi' hq
  · exact ⟨hmoved, hi', fun _ hb => hq _ (Exit.done.inj hb ▸ rfl)⟩
  · exact ⟨hmoved, hi', fun _ hb => nomatch hb⟩
  · exact ⟨hmoved, hi', fun _ hb => nomatch hb⟩

theorem rescue {m : Prog Host ε α} {f : ε → Prog Host ε' α} (hm : Stays P I Q m)
    (hf : ∀ e, Stays P I Q (f e)) : Stays P I Q (m.rescue f) := by
  intro h hi
  obtain ⟨hmoved, hi', hq⟩ := hm h hi
  unfold StaysFrom Prog.rescue
  rcases hr : m h with ⟨a | e | _, t⟩ <;> rw [hr] at hmoved hi' hq
  · exact ⟨hmoved, hi', fun _ hb => hq _ (Exit.done.inj hb ▸ rfl)⟩
  · obtain ⟨hmoved', hi'', hq'⟩ := hf e t hi'
    exact ⟨hmoved.trans hmoved', hi'', hq'⟩
  · exact ⟨hmoved, hi', fun _ hb => nomatch hb⟩

theorem mutate {f : Tree → Tree} {Q : Unit → Prop} (hq : Q ()) (hp : P p)
    (hi : ∀ t, I t → I (f t)) (hf : ∀ t q, q ≠ p → (f t).get q = FileTree.Tree.get t q) :
    Stays P I Q (mutate p f : Prog Host ε Unit) := by
  refine fun h hh => ⟨⟨[p], rfl, ?_, fun q hq => ?_⟩, hi _ hh, fun _ _ => hq⟩
  · intro q hq
    exact List.mem_singleton.1 hq ▸ hp
  · exact hf h.tree q fun hc => hq (List.mem_singleton.2 hc)

/-- A loop over names. -/
theorem foldlM {f : String → Prog Host ε Unit} (hf : ∀ c, Stays P I (fun _ => True) (f c))
    (names : List String) :
    Stays P I (fun _ => True) (names.foldlM (fun _ c => f c) ()) := by
  induction names with
  | nil => exact pure trivial
  | cons c names ih => exact bind (hf c) fun _ _ => ih

end Stays

end

/-! ## The trees of a root -/

/-- What may be at a path : its components are names, and a link inside the root leads inside
the root by its text. -/
def Fits (root p : Path) (n : Inode) : Prop :=
  Proper p ∧ ∀ target, n = .link target → In root p → Leads (In root) p target

/-- A tree whose links inside the root lead inside the root by their text. -/
def Inner (root : Path) (t : Tree) : Prop :=
  ∀ p n, t.get p = some n → Fits root p n

/-- Inside the root, and not the root. -/
def Below (root p : Path) : Prop :=
  In root p ∧ p ≠ root

/-- A name that a call makes up : that of its temporary entry, or of a partial file. -/
def Scratch (a : Around) (c : String) : Prop :=
  ∃ name, c = tmpName a name ∨ c = name ++ partialSuffix

/-- Where a call that is not a deletion may write : below the root, at no protected name but
one of its own making. -/
def Open (s : Setup) (a : Around) (p : Path) : Prop :=
  Below s.root p ∧ (s.protectedInside p = false ∨
    s.protectedInside p.dropLast = false ∧ ∃ c, p.getLast? = some c ∧ Scratch a c)

/-- A directory that is open for writing. -/
structure Writable (s : Setup) (d : Path) : Prop where
  inRoot : In s.root d
  proper : Proper d
  open_ : s.protectedInside d = false

section

variable {s : Setup} {a : Around} {d p : Path} {c : String} {root : Path} {t : Tree} {n : Inode}
  {P : Path → Prop}

theorem below_append (h : In root d) (c : String) : Below root (d ++ [c]) := by
  refine ⟨h.trans (List.prefix_append ..), fun hc => ?_⟩
  have hlen := h.length_le
  rw [← hc, List.length_append, List.length_singleton] at hlen
  omega

theorem Below.ne_nil (h : Below root p) : p ≠ [] := by
  rintro rfl
  exact h.2 (List.prefix_nil.1 h.1).symm

theorem proper_concat (h : Proper d) (hc : isName c) : Proper (d ++ [c]) := by
  intro x hx
  rcases List.mem_append.1 hx with hx | hx
  · exact h x hx
  · exact List.mem_singleton.1 hx ▸ hc

theorem inside_iff : inside p root = true ↔ In root p :=
  List.isPrefixOf_iff_prefix

theorem protectedInside_concat (h : In s.root d) :
    s.protectedInside (d ++ [c]) = (s.protectedInside d || s.node.writeProtected c) := by
  have h' : In s.root (d ++ [c]) := h.trans (List.prefix_append ..)
  rw [Setup.protectedInside, Setup.protectedInside, if_pos (inside_iff.2 h),
    if_pos (inside_iff.2 h'), List.drop_append_of_le_length h.length_le, List.any_append]
  simp

theorem Writable.open_name (h : Writable s d) (hc : s.node.writeProtected c = false) :
    Open s a (d ++ [c]) := by
  refine ⟨below_append h.inRoot c, .inl ?_⟩
  rw [protectedInside_concat h.inRoot, h.open_, hc]
  rfl

theorem Writable.open_scratch (h : Writable s d) (hc : Scratch a c) : Open s a (d ++ [c]) := by
  refine ⟨below_append h.inRoot c, .inr ⟨?_, c, by simp, hc⟩⟩
  rw [List.dropLast_concat]
  exact h.open_

/-! ## Single changes -/

theorem Inner.put (h : Inner root t) (hp : p ≠ []) (hn : Fits root p n) :
    Inner root (t.put p n) := by
  intro q m hq
  rw [Tree.get_put hp] at hq
  split_ifs at hq with hqp
  · exact hqp ▸ Option.some.inj hq ▸ hn
  · exact h q m hq

theorem Inner.erase (h : Inner root t) (hp : p ≠ []) : Inner root (t.erase p) := by
  intro q m hq
  rw [Tree.get_erase hp] at hq
  split_ifs at hq
  exact h q m hq

theorem get_put_ne {q : Path} (hp : p ≠ []) (hq : q ≠ p) : (t.put p n).get q = t.get q := by
  rw [Tree.get_put hp, if_neg hq]

theorem get_erase_ne {q : Path} (hp : p ≠ []) (hq : q ≠ p) : (t.erase p).get q = t.get q := by
  rw [Tree.get_erase hp, if_neg hq]

theorem stays_put {ε : Type} (hP : P p) (hp : p ≠ []) (hn : Fits root p n) :
    Stays P (Inner root) (fun _ => True) (mutate p (Tree.put p n) : Prog Host ε Unit) :=
  .mutate trivial hP (fun _ h => h.put hp hn) fun _ _ => get_put_ne hp

theorem stays_erase {ε : Type} (hP : P p) (hp : p ≠ []) :
    Stays P (Inner root) (fun _ => True) (mutate p (Tree.erase p) : Prog Host ε Unit) :=
  .mutate trivial hP (fun _ h => h.erase hp) fun _ _ => get_erase_ne hp

theorem stays_trySys {sys : Sys} {I : Tree → Prop} :
    Stays P I (fun _ => True) (trySys a sys p) := by
  unfold trySys
  split
  · exact .fail
  · exact .pure trivial

theorem fits_of_proper (hp : Proper p) (hn : ∀ target, n ≠ .link target) : Fits root p n :=
  ⟨hp, fun target ht => absurd ht (hn target)⟩

/-! ## Directories -/

theorem stays_mkdirAt (hP : P p) (hp : p ≠ []) (hproper : Proper p) :
    Stays P (Inner root) (fun _ => True) (mkdirAt a p) := by
  unfold mkdirAt
  split
  · split_ifs
    · exact .pure trivial
    · exact .fail
  · refine .bind (.look (Q := fun _ => True) fun _ _ => trivial) fun n _ => ?_
    split
    · exact stays_put hP hp (fits_of_proper hproper nofun)
    · exact .pure trivial

theorem stays_openStep (hd : Writable s d) (hc : isName c)
    (hopen : s.node.writeProtected c = false) :
    Stays (Open s a) (Inner s.root) Proper (openStep s a d c) := by
  have hproper : Proper (d ++ [c]) := proper_concat hd.proper hc
  have hp : Open s a (d ++ [c]) := hd.open_name hopen
  unfold openStep
  refine .bind (.look (Q := Inner s.root) fun _ hi => hi) fun t ht => ?_
  dsimp only
  split
  · exact .pure hproper
  · split_ifs
    · refine .bind (stays_mkdirAt hp hp.1.ne_nil hproper) fun _ _ => ?_
      refine .bind (.look (Q := Inner s.root) fun _ hi => hi) fun t _ => ?_
      split
      · exact .pure hproper
      · exact .fail
    · next hreal =>
      split
      · exact .pure (ht _ _ hreal.2).1
      · exact .fail
    · exact .fail
    · exact .fail

/-- A directory that passes the checks is open for writing. -/
theorem stays_checkDir (hd : Proper d) :
    Stays P (Inner root) (fun _ => Writable s d) (checkDir s d) := by
  unfold checkDir
  split_ifs with hin hopen
  · exact .fail
  · exact .fail
  · exact .pure ⟨inside_iff.1 (by simpa using hin), hd, by simpa using hopen⟩

theorem stays_openSteps {parts : List String} (hd : Writable s d)
    (hparts : ∀ c ∈ parts, isName c ∧ s.node.writeProtected c = false) :
    Stays (Open s a) (Inner s.root) (Writable s) (openSteps s a d parts) := by
  induction parts generalizing d with
  | nil => exact .pure hd
  | cons c parts ih =>
    obtain ⟨hc, hopen⟩ := hparts c (by simp)
    refine .bind (stays_openStep hd hc hopen).mapError fun d' hd' => ?_
    refine .bind (stays_checkDir hd') fun _ hw => ?_
    exact ih hw fun c hc => hparts c (List.mem_cons_of_mem _ hc)

theorem stays_openDir {parts : List String} (hroot : Proper s.root)
    (hparts : ∀ c ∈ parts, isName c ∧ s.node.writeProtected c = false) :
    Stays (Open s a) (Inner s.root) (Writable s) (openDir s a parts) := by
  unfold openDir
  refine .bind (.look (Q := fun _ => True) fun _ _ => trivial) fun t _ => ?_
  split
  · exact .fail
  · refine stays_openSteps ⟨List.prefix_rfl, hroot, ?_⟩ hparts
    rw [Setup.protectedInside, if_pos (inside_iff.2 List.prefix_rfl), List.drop_length]
    rfl

/-! ## Arguments -/

theorem splitRel_names {rel : Option String} {what : String} {parts : List String}
    (h : splitRel s.node rel what = .ok parts) : parts ≠ [] ∧ ∀ c ∈ parts, isName c := by
  unfold splitRel at h
  split at h
  · cases h
  · cases h
  · dsimp only at h
    split_ifs at h
    split at h
    · next hfind =>
      obtain rfl := Except.ok.inj h
      refine ⟨by simp [List.splitOn_ne_nil], fun c hc => ?_⟩
      have hnone := List.find?_eq_none.1 hfind c hc
      simp only [Bool.or_eq_true, decide_eq_true_eq, not_or] at hnone
      exact ⟨hnone.1.1.1, hnone.1.1.2, hnone.1.2⟩
    · split_ifs at h

theorem splitRelForWrite_names {rel : Option String} {what : String} {parts : List String}
    (h : splitRelForWrite s.node rel what = .ok parts) :
    parts ≠ [] ∧ ∀ c ∈ parts, isName c ∧ s.node.writeProtected c = false := by
  unfold splitRelForWrite at h
  split at h
  · cases h
  · next hparts =>
    split_ifs at h with hopen
    obtain rfl := Except.ok.inj h
    obtain ⟨hne, hnames⟩ := splitRel_names hparts
    refine ⟨hne, fun c hc => ⟨hnames c hc, ?_⟩⟩
    rw [Bool.not_eq_true, List.any_eq_false] at hopen
    simpa using hopen c hc

/-- The last name of a path, and those before it. -/
theorem last_of_parts {Q : String → Prop} {parts : List String} (hne : parts ≠ [])
    (h : ∀ c ∈ parts, Q c) : Q (parts.getLast?.getD "") ∧ ∀ c ∈ parts.dropLast, Q c := by
  refine ⟨?_, fun c hc => h c (List.dropLast_subset _ hc)⟩
  rw [List.getLast?_eq_getLast_of_ne_nil hne]
  exact h _ (List.getLast_mem hne)

theorem plain_of_segs {segs : List String} (hne : ∀ c ∈ segs, c ≠ "")
    (hup : ".." ∉ segs.dropWhile (· = "..")) : FileTree.Plain segs := by
  induction segs with
  | nil => trivial
  | cons c segs ih =>
    have hrest : ∀ c ∈ segs, c ≠ "" := fun c hc => hne c (List.mem_cons_of_mem _ hc)
    have hc : c ≠ "" := hne c (by simp)
    by_cases hdots : c = ".."
    · rw [List.dropWhile_cons_of_pos (by simpa using hdots)] at hup
      rw [FileTree.Plain, if_pos (by simp [hdots])]
      exact ⟨fun h => absurd h hc, ih hrest hup⟩
    · rw [List.dropWhile_cons_of_neg (by simpa using hdots), List.mem_cons, not_or] at hup
      exact plain_of_down (by simpa [Ne.symm hdots] using hup.2) fun h =>
        hne "" (List.dropLast_subset _ h) rfl

theorem linkTarget_plain {v : Value} {segs : List String} (h : linkTarget v = .ok segs) :
    FileTree.Plain segs := by
  unfold linkTarget at h
  split at h
  · dsimp only at h
    split_ifs at h with hbad hup
    obtain rfl := Except.ok.inj h
    simp only [not_or, List.any_eq_true, Bool.or_eq_true, decide_eq_true_eq, not_exists, not_and]
      at hbad
    refine plain_of_segs (fun c hc => (hbad.2.2.2 c hc).1) ?_
    simpa using hup
  · cases h

/-! ## Replacing an entry -/

theorem isName_of_length {c : String} (h : 2 < c.length) : isName c := by
  refine ⟨?_, ?_, ?_⟩ <;> rintro rfl <;> exact absurd h (by decide)

theorem tmpName_isName (a : Around) (c : String) : isName (tmpName a c) := by
  refine isName_of_length ?_
  simp only [tmpName, String.length_append]
  have h : (".ecnode-" : String).length = 8 := rfl
  omega

theorem partial_isName (c : String) : isName (c ++ partialSuffix) := by
  refine isName_of_length ?_
  rw [String.length_append]
  have h : partialSuffix.length = 11 := rfl
  omega

theorem stays_unlinkTmp (hP : P p) (hp : p ≠ []) :
    Stays P (Inner root) (fun _ => True) (unlinkTmp a p) := by
  unfold unlinkTmp
  split
  · exact .pure trivial
  · refine .bind (.look (Q := fun _ => True) fun _ _ => trivial) fun n _ => ?_
    split
    · exact .pure trivial
    · exact .pure trivial
    · exact stays_erase hP hp

/-- An entry keeps what it may be in its directory. -/
theorem Fits.rename {c c' : String} (hroot : In root (d ++ [c])) (hproper : Proper (d ++ [c']))
    (h : Fits root (d ++ [c]) n) : Fits root (d ++ [c']) n := by
  refine ⟨hproper, fun target ht _ => ?_⟩
  have hleads := h.2 target ht hroot
  unfold Leads at hleads ⊢
  rw [List.dropLast_concat] at hleads ⊢
  exact hleads

theorem stays_renameAt {c c' : String} (hd : Writable s d) (hc : Open s a (d ++ [c]))
    (hc' : Open s a (d ++ [c'])) (hname : isName c') :
    Stays (Open s a) (Inner s.root) (fun _ => True) (renameAt a (d ++ [c]) (d ++ [c'])) := by
  unfold renameAt
  refine .bind stays_trySys fun _ _ => ?_
  refine .bind (.look (Q := fun n => ∀ n', n = some n' → Fits s.root (d ++ [c]) n')
    fun h hi n' hn => hi _ n' hn) fun n hn => ?_
  split
  · exact .fail
  · next n' =>
    have hfits : Fits s.root (d ++ [c']) n' :=
      (hn n' rfl).rename hc.1.1 (proper_concat hd.proper hname)
    refine fun h hi => ⟨⟨[d ++ [c], d ++ [c']], rfl, ?_, fun q hq => ?_⟩,
      (hi.erase hc.1.ne_nil).put hc'.1.ne_nil hfits, fun _ _ => trivial⟩
    · intro q hq
      rcases List.mem_pair.1 hq with rfl | rfl
      · exact hc
      · exact hc'
    · rw [List.mem_pair, not_or] at hq
      show ((h.tree.erase (d ++ [c])).put (d ++ [c']) n').get q = h.tree.get q
      rw [get_put_ne hc'.1.ne_nil hq.2, get_erase_ne hc.1.ne_nil hq.1]

theorem stays_replaceInto {name : String} {make : Path → Guarded Unit} (hd : Writable s d)
    (hname : isName name) (hopen : s.node.writeProtected name = false)
    (hmake : Stays (Open s a) (Inner s.root) (fun _ => True) (make (d ++ [tmpName a name]))) :
    Stays (Open s a) (Inner s.root) (fun _ => True) (replaceInto s a d name make) := by
  have htmp : Open s a (d ++ [tmpName a name]) := hd.open_scratch ⟨name, .inl rfl⟩
  unfold replaceInto
  dsimp only
  split
  · exact .fail
  · refine .bind (.look (Q := fun _ => True) fun _ _ => trivial) fun n _ => ?_
    split
    · exact .fail
    · exact .fail
    · refine .rescue (.bind hmake fun _ _ => ?_) fun e => ?_
      · exact stays_renameAt hd htmp (hd.open_name hopen) hname
      · split
        · exact .fail
        · refine .bind (stays_unlinkTmp htmp htmp.1.ne_nil) fun _ _ => ?_
          split_ifs
          · exact .fail
          · exact .fail

theorem stays_createAt (hp : Open s a p) (hn : Fits s.root p n) :
    Stays (Open s a) (Inner s.root) (fun _ => True) (createAt a p n) := by
  unfold createAt
  refine .bind stays_trySys fun _ _ => ?_
  refine .bind (.look (Q := fun _ => True) fun _ _ => trivial) fun m _ => ?_
  split
  · exact .fail
  · exact stays_put hp hp.1.ne_nil hn

theorem stays_makeFile {content : List UInt8} (hp : Open s a p) (hproper : Proper p) :
    Stays (Open s a) (Inner s.root) (fun _ => True) (makeFile a content p) := by
  have hfile (bytes : List UInt8) : Fits s.root p (.file bytes) := fits_of_proper hproper nofun
  unfold makeFile
  refine .bind (stays_createAt hp (hfile [])) fun _ _ => ?_
  split
  · exact .bind (stays_put hp hp.1.ne_nil (hfile _)) fun _ _ => .fail
  · exact .bind (stays_put hp hp.1.ne_nil (hfile _)) fun _ _ => stays_trySys

/-! ## The calls -/

theorem stays_fsPutSmall (hroot : Proper s.root) (args : Args) :
    Stays (Open s a) (Inner s.root) (fun _ => True) (fsPutSmall s a args) := by
  unfold fsPutSmall
  refine .bind (.ofExcept (Q := fun _ => True) fun _ _ => trivial) fun _ _ => ?_
  refine .bind (.ofExcept fun parts hparts => splitRelForWrite_names hparts) fun parts hparts => ?_
  obtain ⟨hlast, hinit⟩ := last_of_parts hparts.1 hparts.2
  refine .bind (.ofExcept (Q := fun _ => True) fun _ _ => trivial) fun content _ => ?_
  refine .bind (stays_openDir hroot hinit) fun d hd => ?_
  have htmp : Open s a (d ++ [tmpName a (parts.getLast?.getD "")]) :=
    hd.open_scratch ⟨_, .inl rfl⟩
  exact stays_replaceInto hd hlast.1 hlast.2
    (stays_makeFile htmp (proper_concat hd.proper (tmpName_isName ..)))

/-- A link that is made leads inside the root by its text. -/
theorem stays_symlinkIn {segs : List String} {name : String} (hd : Writable s d)
    (hname : isName name) (hopen : s.node.writeProtected name = false) (hplain : FileTree.Plain segs)
    (hin : In s.root (keep d segs)) :
    Stays (Open s a) (Inner s.root) (fun _ => True) (symlinkIn s a segs name d) := by
  unfold symlinkIn
  refine .bind (.look (Q := fun _ => True) fun _ _ => trivial) fun real _ => ?_
  split_ifs
  · exact .fail
  · refine stays_replaceInto hd hname hopen ?_
    refine stays_createAt (hd.open_scratch ⟨name, .inl rfl⟩)
      ⟨proper_concat hd.proper (tmpName_isName ..), fun target ht _ => ?_⟩
    obtain rfl := Inode.link.inj ht
    unfold Leads
    rw [List.dropLast_concat, hplain.start]
    exact ⟨hplain, hin⟩

/-- A link that is made leads inside the root by its text, if its target does not leave the
root and come back by a link. -/
def Direct (s : Setup) (h : Host) (c : FileCall × Around) : Prop :=
  match c.1 with
  | .symlink args => ∀ parts segs d h',
      splitRelForWrite s.node (asStr (arg args "link")) "link" = .ok parts →
        linkTarget (arg args "target") = .ok segs →
          openDir s c.2 parts.dropLast h = (.done d, h') →
            In s.root (realpath h'.tree (d ++ segs)) → In s.root (keep d segs)
  | _ => True

theorem ofExcept_done {ε α : Type} {r : Except ε α} {h h' : Host} {x : α}
    (hr : (Prog.ofExcept r : Prog Host ε α) h = (.done x, h')) : r = .ok x ∧ h' = h := by
  cases r with
  | error e => cases hr
  | ok y =>
    obtain ⟨hx, hh⟩ := Prod.mk.inj hr
    exact ⟨congrArg _ (Exit.done.inj hx), hh.symm⟩

theorem stays_fsSymlink (hroot : Proper s.root) {args : Args} {h : Host}
    (hi : Inner s.root h.tree) (hdirect : Direct s h (.symlink args, a)) :
    StaysFrom (Open s a) (Inner s.root) (fun _ => True) h (fsSymlink s a args) := by
  have hexcept {ε α : Type} (r : Except ε α) :
      StaysFrom (Open s a) (Inner s.root) (fun _ => True) h (Prog.ofExcept r) :=
    Stays.ofExcept (fun _ _ => trivial) h hi
  unfold fsSymlink
  refine Stays.bindFrom (hexcept _) fun _ h₁ hr hi _ => ?_
  obtain ⟨-, rfl⟩ := ofExcept_done hr
  refine Stays.bindFrom (hexcept _) fun parts h₁ hr hi _ => ?_
  obtain ⟨hparts, rfl⟩ := ofExcept_done hr
  refine Stays.bindFrom (hexcept _) fun segs h₁ hr hi _ => ?_
  obtain ⟨hsegs, rfl⟩ := ofExcept_done hr
  obtain ⟨hne, hnames⟩ := splitRelForWrite_names hparts
  obtain ⟨hlast, hinit⟩ := last_of_parts hne hnames
  refine Stays.bindFrom (stays_openDir hroot hinit _ hi) fun d h' hopen hi' hd => ?_
  by_cases hin : In s.root (realpath h'.tree (d ++ segs))
  · have hkeep := hdirect parts segs d h' hparts hsegs hopen hin
    exact stays_symlinkIn hd hlast.1 hlast.2 (linkTarget_plain hsegs) hkeep h' hi'
  · have hout : inside (realpath h'.tree (d ++ segs)) s.root = false := by
      rwa [← Bool.not_eq_true, inside_iff]
    refine Stays.bindFrom (Stays.look (Q := fun _ => True) (fun _ _ => trivial) h' hi')
      fun real h'' hreal hi'' _ => ?_
    obtain ⟨heq, rfl⟩ := Prod.mk.inj hreal
    rw [← Exit.done.inj heq, hout]
    exact Stays.fail _ hi''

theorem writeArgs_parts {args : Args} {w : WriteArgs} (h : writeArgs s.node args = .ok w) :
    splitRelForWrite s.node (asStr (arg args "rel")) "path" = .ok w.parts := by
  unfold writeArgs at h
  split at h
  · cases h
  · dsimp only at h
    split at h
    · cases h
    · next hparts =>
      rw [hparts]
      split_ifs at h
      split at h
      · cases h
      · split at h
        · cases h
        · split at h
          · cases h
          · split_ifs at h
            obtain rfl := Except.ok.inj h
            rfl

theorem moved_putEntry {h : Host} {e : Entry} (hP : P p) (hp : p ≠ []) (hproper : Proper p)
    (hi : Inner root h.tree) : Moved P h (putEntry p e h) ∧ Inner root (putEntry p e h).tree := by
  have hone : ∀ q ∈ [p], P q := fun q hq => List.mem_singleton.1 hq ▸ hP
  cases e with
  | absent =>
    simp only [putEntry]
    split_ifs
    · exact ⟨.refl h, hi⟩
    · exact ⟨⟨[p], rfl, hone, fun q hq => get_erase_ne hp (by simpa using hq)⟩, hi.erase hp⟩
  | file bytes =>
    simp only [putEntry]
    split_ifs
    · exact ⟨.refl h, hi⟩
    · exact ⟨⟨[p], rfl, hone, fun q hq => get_put_ne hp (by simpa using hq)⟩,
        hi.put hp (fits_of_proper hproper nofun)⟩
  | dir | link | special => exact ⟨.refl h, hi⟩

theorem stays_onSlot {ε α : Type} {name : String} {m : Prog Disk ε α} (hd : Writable s d)
    (hname : isName name) (hopen : s.node.writeProtected name = false) :
    Stays (Open s a) (Inner s.root) (fun _ => True) (onSlot d name m) := by
  intro h hi
  have hfinal : Open s a (d ++ [name]) := hd.open_name hopen
  have hpartial : Open s a (d ++ [name ++ partialSuffix]) := hd.open_scratch ⟨name, .inr rfl⟩
  obtain ⟨hm₁, hi₁⟩ := moved_putEntry (e := (m ⟨some ⟨entryOf (h.tree.get (d ++ [name])),
    entryOf (h.tree.get (d ++ [name ++ partialSuffix]))⟩, true⟩).2.slot.final) hfinal
    hfinal.1.ne_nil (proper_concat hd.proper hname) hi
  obtain ⟨hm₂, hi₂⟩ := moved_putEntry (e := (m ⟨some ⟨entryOf (h.tree.get (d ++ [name])),
    entryOf (h.tree.get (d ++ [name ++ partialSuffix]))⟩, true⟩).2.slot.incomplete) hpartial
    hpartial.1.ne_nil (proper_concat hd.proper (partial_isName name)) hi₁
  exact ⟨hm₁.trans hm₂, hi₂, fun _ _ => trivial⟩

theorem stays_fsWrite (hroot : Proper s.root) (args : Args) :
    Stays (Open s a) (Inner s.root) (fun _ => True) (fsWrite s a args) := by
  unfold fsWrite
  refine .bind (.ofExcept fun w hw => splitRelForWrite_names (writeArgs_parts hw)) fun w hw => ?_
  obtain ⟨hlast, hinit⟩ := last_of_parts hw.1 hw.2
  refine .bind (stays_openDir hroot hinit) fun d hd => ?_
  exact .bind (stays_onSlot hd hlast.1 hlast.2) fun _ _ => .pure trivial

/-! ## Deletion -/

theorem stays_unlinkAt {sys : Sys} (hp : Below root p) :
    Stays (Below root) (Inner root) (fun _ => True) (unlinkAt a sys p) := by
  unfold unlinkAt
  refine .bind stays_trySys fun _ _ => ?_
  refine .bind (.look (Q := fun _ => True) fun _ _ => trivial) fun t _ => ?_
  split_ifs
  · exact .fail
  · exact stays_erase hp hp.ne_nil

theorem stays_emptyName {emptyDir : Path → Guarded Unit} (hp : Below root p)
    (hdir : Stays (Below root) (Inner root) (fun _ => True) (emptyDir p)) :
    Stays (Below root) (Inner root) (fun _ => True) (emptyName s a emptyDir p) := by
  unfold emptyName
  split
  · exact .fail
  · refine .bind (.look (Q := fun _ => True) fun _ _ => trivial) fun n _ => ?_
    split
    · exact .pure trivial
    · exact .bind stays_trySys fun _ _ => .bind hdir fun _ _ => stays_unlinkAt hp
    · exact stays_unlinkAt hp

theorem stays_emptyDir (n : ℕ) (hp : In root p) :
    Stays (Below root) (Inner root) (fun _ => True) (emptyDir s a n p) := by
  induction n generalizing p with
  | zero => exact .fail
  | succ n ih =>
    unfold emptyDir
    refine .bind stays_trySys fun _ _ => ?_
    refine .bind (.look (Q := fun _ => True) fun _ _ => trivial) fun names _ => ?_
    exact .foldlM (fun c => stays_emptyName (below_append hp c) (ih (below_append hp c).1)) names

theorem stays_deleteFound {rel : String} {isDir : Bool} :
    Stays (Below s.root) (Inner s.root) (fun _ => True) (deleteFound s a rel p isDir) := by
  unfold deleteFound
  refine .bind (.look (Q := fun _ => True) fun _ _ => trivial) fun t _ => ?_
  dsimp only
  split_ifs with hbelow
  · exact .fail
  · rw [not_or] at hbelow
    have hp : Below s.root p := ⟨inside_iff.1 (by simpa using hbelow.1), hbelow.2⟩
    split
    · exact .fail
    · refine .bind (.ofExcept (Q := fun _ => True) fun _ _ => trivial) fun mounts _ => ?_
      split_ifs
      · exact .fail
      · refine .mapError ?_
        unfold removeAt
        split_ifs
        · exact .bind (stays_emptyDir _ hp.1) fun _ _ => stays_unlinkAt hp
        · exact stays_unlinkAt hp

theorem stays_fsDelete (args : Args) :
    Stays (Below s.root) (Inner s.root) (fun _ => True) (fsDelete s a args) := by
  unfold fsDelete
  split_ifs
  · exact .fail
  · refine .bind (.ofExcept (Q := fun _ => True) fun _ _ => trivial) fun _ _ => ?_
    dsimp only
    refine .bind (.ofExcept (Q := fun _ => True) fun _ _ => trivial) fun parts _ => ?_
    refine .bind (Q := fun _ => True) ?_ fun d _ => ?_
    · unfold openExisting
      refine .bind (.look (Q := fun _ => True) fun _ _ => trivial) fun t _ => ?_
      dsimp only
      split_ifs
      · exact .fail
      · split
        · exact .pure trivial
        · split_ifs <;> exact .fail
    · split
      · exact .fail
      · refine .bind (.look (Q := fun _ => True) fun _ _ => trivial) fun n _ => ?_
        split
        · exact .fail
        · split
          · exact .fail
          · exact stays_deleteFound
        · exact stays_deleteFound

/-! ## Runs -/

/-- The call is a deletion. -/
def FileCall.isDelete : FileCall → Bool
  | .delete _ => true
  | _ => false

/-- A root, down to which there are directories, and whose links lead inside it by their
text. -/
structure Sound (s : Setup) (t : Tree) : Prop where
  dirs : ∀ q, q <+: s.root → t.get q = some .dir
  inner : Inner s.root t

theorem Sound.proper (h : Sound s t) : Proper s.root :=
  (h.inner s.root .dir (h.dirs _ List.prefix_rfl)).1

/-- What a call does to a sound tree. -/
theorem Sound.call {h : Host} (hs : Sound s h.tree) {c : FileCall} (hdirect : Direct s h (c, a)) :
    StaysFrom (fun p => Below s.root p ∧ (c.isDelete = false → Open s a p)) (Inner s.root)
      (fun _ => True) h (c.run s a) := by
  have hroot := hs.proper
  have hopen {m : Op Unit} (hm : StaysFrom (Open s a) (Inner s.root) (fun _ => True) h m) :
      StaysFrom (fun p => Below s.root p ∧ (c.isDelete = false → Open s a p)) (Inner s.root)
        (fun _ => True) h m :=
    ⟨hm.1.mono fun p hp => ⟨hp.1, fun _ => hp⟩, hm.2⟩
  cases c with
  | write args => exact hopen (stays_fsWrite hroot args h hs.inner)
  | putSmall args => exact hopen (stays_fsPutSmall hroot args h hs.inner)
  | symlink args => exact hopen (stays_fsSymlink hroot hs.inner hdirect)
  | delete args =>
    have hm := stays_fsDelete (s := s) (a := a) args h hs.inner
    exact ⟨hm.1.mono fun p hp => ⟨hp, nofun⟩, hm.2⟩

theorem not_below_of_prefix {q : Path} (h : q <+: root) : ¬Below root q :=
  fun hq => hq.2 (List.IsPrefix.eq_of_length_le h hq.1.length_le)

theorem Sound.step {h h' : Host} {c : FileCall × Around} (hs : Sound s h.tree)
    (hdirect : Direct s h c) (hstep : treeStep s h c = some h') : Sound s h'.tree := by
  obtain rfl := Option.some.inj hstep
  obtain ⟨hmoved, hi, -⟩ := hs.call (a := c.2) hdirect
  refine ⟨fun q hq => ?_, hi⟩
  rw [hmoved.get fun hp => not_below_of_prefix hq hp.1]
  exact hs.dirs q hq

/-- The paths inside the root are not left by a link. -/
theorem Sound.zone (hs : Sound s t) : Zone t (In s.root) := by
  refine ⟨fun p q hp => hp.trans (List.prefix_append ..), fun p q target hlink hq => ?_⟩
  rcases List.prefix_or_prefix_of_prefix hq (List.prefix_append p q) with hp | hp
  · exact (hs.inner p _ hlink).2 target rfl hp
  · rw [hs.dirs p hp] at hlink
    cases hlink

/-- Calls change nothing outside the root, and the links inside it lead inside it; only a
deletion changes what is below a protected name, apart from the names that calls make up; and
a call that is refused before it changes anything leaves the tree as it was. -/
theorem confined {h₀ h : Host} (hs : Sound s h₀.tree)
    (hrun : ReachBy (treeStep s) (Direct s) h₀ h) :
    (∀ p, ¬Below s.root p → h.tree.get p = h₀.tree.get p) ∧
    (∀ p target, h.tree.get p = some (.link target) → In s.root p →
      In s.root (realpath h.tree p)) ∧
    ∀ c h', Direct s h c → treeStep s h c = some h' →
      (c.1.isDelete = false → ∀ p, ¬Open s c.2 p → h'.tree.get p = h.tree.get p) ∧
      ∀ e, (c.1.run s c.2 h).1 = .failed e → h'.touched = h.touched →
        ∀ p, h'.tree.get p = h.tree.get p := by
  have hsound : Sound s h.tree ∧ ∀ p, ¬Below s.root p → h.tree.get p = h₀.tree.get p := by
    refine hrun.invariant (fun h => Sound s h.tree ∧ ∀ p, ¬Below s.root p →
      h.tree.get p = h₀.tree.get p) (fun g c g' hok hg hstep => ?_) ⟨hs, fun _ _ => rfl⟩
    refine ⟨hg.1.step hok hstep, fun p hp => ?_⟩
    obtain rfl := Option.some.inj hstep
    rw [(hg.1.call (a := c.2) hok).1.get fun hb => hp hb.1, hg.2 p hp]
  refine ⟨hsound.2, fun p target hlink hp => ?_, fun c h' hok hstep => ?_⟩
  · exact realpath_zone hsound.1.zone (hsound.1.inner p _ hlink).1 hp
  · obtain rfl := Option.some.inj hstep
    have hmoved := (hsound.1.call (a := c.2) hok).1
    refine ⟨fun hdel p hp => hmoved.get fun hb => hp (hb.2 hdel), fun e _ hsame p => ?_⟩
    obtain ⟨l, hl, -, hget⟩ := hmoved
    have hnone : l = [] := by simpa [hl] using hsame
    exact hget p (by simp [hnone])

end

/-! ## A node with one root -/

/-- A node that protects `.git`. -/
def gitNode : Node where
  openRoot _ _ := .ok ()
  writeProtected c := c = ".git"
  reprTake c _ := c
  strerror _ := ""
  sha256 bytes := bytes

/-- Its root is `/r`. -/
def gitSetup : Setup where
  node := gitNode
  root := ["r"]
  rootRepr := "'r'"
  policyAt := ""
  allowDelete := true
  others := []
  osErrorName _ := ""

/-- No system call fails. -/
def quiet : Around where
  fault _ _ := none
  written := 0
  token := "00"
  mounts := .ok []
  upload :=
    { denied := none, fate := fun _ => .ok, upload := [], free := (0, 0)
      cancelled := fun _ => false, readLimit := fun _ => 1, written := fun _ => 0 }

/-- A link from one place to another. -/
def linkCall (link target : String) : FileCall × Around :=
  (.symlink [("root", .str "r"), ("link", .str link), ("target", .str target)], quiet)

/-- The deletion of a path. -/
def deleteCall (rel : String) : FileCall × Around :=
  (.delete [("root", .str "r"), ("rel", .str rel)], quiet)


theorem get_eq_some {t : Tree} {p : Path} {n : Inode} (h : t.get p = some n) :
    p = [] ∧ n = .dir ∨ (p, n) ∈ t := by
  unfold FileTree.Tree.get at h
  split_ifs at h with hp
  · exact .inl ⟨hp, (Option.some.inj h).symm⟩
  · obtain ⟨e, he, rfl⟩ := Option.map_eq_some_iff.1 h
    obtain rfl := Keyed.key_of_find he
    exact .inr (Keyed.mem_of_find he)

/-- A root with two directories. -/
def twoDirs : Host :=
  ⟨[(["r"], .dir), (["r", "blobs"], .dir), (["r", "snap"], .dir)], []⟩

theorem twoDirs_sound : Sound gitSetup twoDirs.tree := by
  refine ⟨fun q hq => ?_, fun p n hn => ?_⟩
  · rcases List.prefix_cons_iff.1 hq with rfl | ⟨q', rfl, hq'⟩
    · rfl
    · obtain rfl := List.prefix_nil.1 hq'
      rfl
  · rcases get_eq_some hn with ⟨rfl, rfl⟩ | hmem
    · exact fits_of_proper (by simp [Proper]) nofun
    · simp only [twoDirs, List.mem_cons, Prod.mk.injEq, List.not_mem_nil, or_false] at hmem
      rcases hmem with ⟨rfl, rfl⟩ | ⟨rfl, rfl⟩ | ⟨rfl, rfl⟩ <;>
        exact fits_of_proper (by simp [Proper, isName]) nofun

theorem twoDirs_direct : Direct gitSetup twoDirs (linkCall "snap/a" "../blobs/x") := by
  intro parts segs d h' hparts hsegs hopen _
  have hparts' : (splitRelForWrite gitNode (some "snap/a") "link").toOption =
      some ["snap", "a"] := by decide +kernel
  have hsegs' : (linkTarget (.str "../blobs/x")).toOption = some ["..", "blobs", "x"] := by
    decide +kernel
  have hopen' : openDir gitSetup quiet ["snap"] twoDirs = (.done ["r", "snap"], twoDirs) := rfl
  obtain rfl := Option.some.inj ((congrArg Except.toOption hparts).symm.trans hparts')
  obtain rfl := Option.some.inj ((congrArg Except.toOption hsegs).symm.trans hsegs')
  obtain rfl := Exit.done.inj (Prod.mk.inj (hopen'.symm.trans hopen)).1
  decide

/-- A deletion needs no condition. -/
theorem direct_delete (s : Setup) (h : Host) (rel : String) : Direct s h (deleteCall rel) :=
  trivial

/-- A link that is made leads inside the root, also when what it named is deleted. -/
theorem confined_link :
    ((runActs (treeStep gitSetup) twoDirs
      [linkCall "snap/a" "../blobs/x", deleteCall "blobs"]).any fun h =>
        h.tree.get ["r", "snap", "a"] = some (.link ["..", "blobs", "x"])) = true ∧
    ∀ h, runActs (treeStep gitSetup) twoDirs
        [linkCall "snap/a" "../blobs/x", deleteCall "blobs"] = some h →
      ∀ target, h.tree.get ["r", "snap", "a"] = some (.link target) →
        In ["r"] (realpath h.tree ["r", "snap", "a"]) := by
  refine ⟨by decide +kernel, fun h hrun target hlink => ?_⟩
  obtain ⟨h₁, hlinked, hrun⟩ := Option.bind_eq_some_iff.1 hrun
  obtain ⟨h₂, hdeleted, hrun⟩ := Option.bind_eq_some_iff.1 hrun
  obtain rfl : h₂ = h := Option.some.inj hrun
  have hreach : ReachBy (treeStep gitSetup) (Direct gitSetup) twoDirs h₂ :=
    ((ReachBy.refl _).tail twoDirs_direct hlinked).tail (direct_delete ..) hdeleted
  exact (confined twoDirs_sound hreach).2.1 _ target hlink ⟨_, rfl⟩

/-! ## What is not left alone -/

/-- Every link inside the root resolves inside it. -/
def Resolved (root : Path) (t : Tree) : Prop :=
  ∀ p target, t.get p = some (.link target) → In root p → In root (realpath t p)

theorem resolved_of_mem {root : Path} {t : Tree}
    (h : ∀ e ∈ t, (∃ target, e.2 = .link target) → In root e.1 → In root (realpath t e.1)) :
    Resolved root t := by
  intro p target hlink hin
  rcases get_eq_some hlink with ⟨-, hdir⟩ | hmem
  · cases hdir
  · exact h _ hmem ⟨target, rfl⟩ hin

/-- A protected file. -/
def gitRepo : Host :=
  ⟨[(["r"], .dir), (["r", ".git"], .dir), (["r", ".git", "config"], .file [])], []⟩

/-- A link that goes up after a name. -/
def upLink : Host :=
  ⟨[(["r"], .dir), (["r", "d"], .dir), (["r", "d", "sub"], .dir),
    (["r", "d", "y"], .link ["sub", ".."])], []⟩

/-- The same outside the root. -/
def outerLink : Host :=
  ⟨[(["r"], .dir), (["r", "d"], .dir), (["r", "d", "sub"], .dir),
    (["o"], .link ["r", "d", "sub", ".."])], []⟩

/-- A deletion removes a protected file; and a link that goes up after a name, in the root or
passed by a link that is made, leads outside once that name is a link. -/
theorem not_confined :
    ¬(∀ h₀ h, Resolved ["r"] h₀.tree → Reach (treeStep gitSetup) h₀ h →
      ∀ p, In ["r"] p → gitSetup.protectedInside p = true → h.tree.get p = h₀.tree.get p) ∧
    ¬(∀ h, Reach (treeStep gitSetup) upLink h → Resolved ["r"] h.tree) ∧
    ¬(∀ h, Reach (treeStep gitSetup) outerLink h → Resolved ["r"] h.tree) ∧
    Resolved ["r"] upLink.tree ∧ Resolved ["r"] outerLink.tree := by
  refine ⟨fun hall => ?_, fun hall => ?_, fun hall => ?_, ?_, ?_⟩
  · have hrun : ((runActs (treeStep gitSetup) gitRepo [deleteCall ".git/config"]).any fun h =>
        h.tree.get ["r", ".git", "config"] = none) = true := by decide +kernel
    obtain ⟨h, hrun, hgone⟩ := (Option.any_eq_true _ _).1 hrun
    have hsame := hall gitRepo h (resolved_of_mem (by simp [gitRepo])) (Reach.of_runActs hrun)
      ["r", ".git", "config"] (by decide) (by decide)
    rw [of_decide_eq_true hgone] at hsame
    exact absurd hsame (by decide)
  · have hrun : ((runActs (treeStep gitSetup) upLink
        [deleteCall "d/sub", linkCall "d/sub" ".."]).any fun h =>
          h.tree.get ["r", "d", "y"] = some (.link ["sub", ".."]) ∧
            ¬In ["r"] (realpath h.tree ["r", "d", "y"])) = true := by decide +kernel
    obtain ⟨h, hrun, hleft⟩ := (Option.any_eq_true _ _).1 hrun
    obtain ⟨hlink, hout⟩ := of_decide_eq_true hleft
    exact hout (hall h (Reach.of_runActs hrun) _ _ hlink ⟨_, rfl⟩)
  · have hrun : ((runActs (treeStep gitSetup) outerLink
        [linkCall "l" "../o", deleteCall "d/sub", linkCall "d/sub" ".."]).any fun h =>
          h.tree.get ["r", "l"] = some (.link ["..", "o"]) ∧
            ¬In ["r"] (realpath h.tree ["r", "l"])) = true := by decide +kernel
    obtain ⟨h, hrun, hleft⟩ := (Option.any_eq_true _ _).1 hrun
    obtain ⟨hlink, hout⟩ := of_decide_eq_true hleft
    exact hout (hall h (Reach.of_runActs hrun) _ _ hlink ⟨_, rfl⟩)
  · refine resolved_of_mem fun e he _ _ => ?_
    have hin : ∀ e ∈ upLink.tree, In ["r"] (realpath upLink.tree e.1) := by decide +kernel
    exact hin e he
  · refine resolved_of_mem fun e he hlink hin => ?_
    have hout : ∀ e ∈ outerLink.tree, In ["r"] e.1 → In ["r"] (realpath outerLink.tree e.1) := by
      decide +kernel
    exact hout e he hin

end Files

end EngineConsole
