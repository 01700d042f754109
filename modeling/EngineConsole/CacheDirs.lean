import EngineConsole.ModelRefs

/-!
# Directories of the HuggingFace cache

A repository `org/name` has the directory `models--org--name` below a model root
(`hfRepoRel`). Three readers take the repository back from the path : what can be copied
(`classifyRepo`), the name of an entry of the library (`deriveHf`), and the scan of a node
(`nodeName`).

All three cut at the first two hyphens, where the directory has them for the slash unless the
first half of the id ends with a hyphen : `reads_back_iff`. The directory is that of one
repository only in any case (`hfRepoRel_inj`).
-/

set_option linter.unusedSectionVars false

namespace EngineConsole

namespace HfCache

open Web Lifecycle

/-! ## Writing -/

/-- `replace('/', "--")`. -/
def filesDir (repoId : Text) : Text :=
  repoId.flatMap fun c => if c = '/' then ['-', '-'] else [c]

/-- `models--org--name`. -/
def folder (repoId : Text) : Text :=
  "models--" ++ filesDir repoId

/-- `hf_repo_rel` : under `hub/` for an HF_HOME, directly in a hub cache. -/
def hfRepoRel (layout repoId : Text) : Text :=
  if layout = "hf-home" then "hub/" ++ folder repoId else folder repoId

/-! ## Expressions -/

/-- A literal text, and what is left. -/
def literal (w s : Text) : Option Text :=
  if w.isPrefixOf s then some (s.drop w.length) else none

section

variable {α : Type*}

/-- `([p]+?)` before what `rest` takes : as short as that allows. -/
def lazySome (p : Char → Bool) (rest : Text → Option α) : Text → Option (Text × α)
  | [] => none
  | c :: s =>
    if p c then
      match rest s with
      | some a => some ([c], a)
      | none => (lazySome p rest s).map fun r => (c :: r.1, r.2)
    else none

/-- `([p]+)` before what `rest` takes : as long as that allows. -/
def greedySome (p : Char → Bool) (rest : Text → Option α) : Text → Option (Text × α)
  | [] => none
  | c :: s =>
    if p c then
      match greedySome p rest s with
      | some r => some (c :: r.1, r.2)
      | none => (rest s).map fun a => ([c], a)
    else none

end

/-- `\n?\z`. -/
def atEnd (s : Text) : Option Unit :=
  if s = [] ∨ s = ['\n'] then some () else none

/-- `(?:/|\n?\z)`. -/
def segEnd (s : Text) : Option Unit :=
  if s.head? = some '/' then some () else atEnd s

/-! ## The entries of the library -/

/-- `HF_DIR` from the start of a text. -/
def hfDirHere (s : Text) : Option (Text × Text) :=
  (literal "models--" s).bind fun s =>
    (lazySome notSlash (fun s => (literal "--" s).bind (lazySome notSlash segEnd)) s).map
      fun r => (r.1, r.2.1)

/-- `HF_DIR` after one of the slashes of a text. -/
def hfDirBelow : Text → Option (Text × Text)
  | [] => none
  | c :: s => (if c = '/' then hfDirHere s else none).or (hfDirBelow s)

/-- `HF_DIR.captures`. -/
def hfDir (rel : Text) : Option (Text × Text) :=
  (hfDirHere rel).or (hfDirBelow rel)

/-- `derive_name` of an entry of the format `hf`, from the name its node gives. -/
def deriveHf (name : Option Text) (rel : Text) : Text :=
  match name.filter fun n => !n.isEmpty with
  | some n => n.take 256
  | none =>
    match hfDir rel with
    | some (org, name) => org ++ '/' :: name
    | none => if (basename rel).isEmpty then "model" else basename rel

/-! ## What can be copied -/

/-- The captures of `HF_REL`. -/
structure HfRel where
  /-- of `hub/`, where it is there -/
  hub : Text
  org : Text
  name : Text
  rev : Option Text
  path : Option Text
deriving DecidableEq

/-- `(?:/(?P<path>.+))?\n?\z`. -/
def pathTail (s : Text) : Option (Option Text) :=
  ((literal "/" s).bind fun s => (greedySome notNewline atEnd s).map fun r => some r.1).or
    ((atEnd s).map fun _ => none)

/-- `(?:/snapshots/(?P<rev>[^/]+)(?:/(?P<path>.+))?)?\n?\z`. -/
def revTail (s : Text) : Option (Option Text × Option Text) :=
  ((literal "/snapshots/" s).bind fun s =>
    (greedySome notSlash pathTail s).map fun r => (some r.1, r.2)).or
    ((atEnd s).map fun _ => (none, none))

/-- `HF_REL` after `hub/`. -/
def hfRelIn (hub s : Text) : Option HfRel :=
  (literal "models--" s).bind fun s =>
    (lazySome notSlash (fun s => (literal "--" s).bind (greedySome notSlash revTail)) s).map
      fun r => ⟨hub, r.1, r.2.1, r.2.2.1, r.2.2.2⟩

/-- `HF_REL.captures`. -/
def hfRel (rel : Text) : Option HfRel :=
  ((literal "hub/" rel).bind (hfRelIn "hub/")).or (hfRelIn [] rel)

/-- `classify_copy_source` of a directory of the cache : the repository, and its directory. -/
def classifyRepo (uni : Char → Bool) (rel : Text) : Option (Text × Text) :=
  (hfRel rel).bind fun m =>
    let repoId := m.org ++ '/' :: m.name
    if checkRepoId uni repoId then
      some (repoId, m.hub ++ "models--" ++ m.org ++ "--" ++ m.name)
    else none

/-! ## The scan of a node -/

/-- `replace("--", "/")`. -/
def slashes : Text → Text
  | '-' :: '-' :: s => '/' :: slashes s
  | c :: s => c :: slashes s
  | [] => []

/-- `clean_text`. -/
def cleanText (s : Text) (limit : ℕ) : Text :=
  (s.filter fun c => !(decide (c.toNat ≤ 0x1f) || c.toNat == 0x7f)).take limit

/-- The name of the entry that `hf_repo` makes of a directory. -/
def nodeName (dirname : Text) : Text :=
  cleanText (slashes (dirname.drop (ascii "models--").length)) 256

/-! ## Where a directory is cut -/

/-- No two hyphens in a row. -/
def Dashless (s : Text) : Prop :=
  ¬['-', '-'] <:+: s

theorem occurs_iff {w : Text} (hw : w ≠ []) : ∀ {s : Text}, occurs w s ↔ w <:+: s
  | [] => by
    rw [occurs, List.isEmpty_iff, List.infix_nil]
  | c :: s => by
    rw [occurs, Bool.or_eq_true, List.isPrefixOf_iff_prefix, List.infix_cons_iff, occurs_iff hw]

theorem Dashless.tail {c : Char} {s : Text} (h : Dashless (c :: s)) : Dashless s :=
  fun hs => h (List.infix_cons hs)

theorem Dashless.append_left {s t : Text} (h : Dashless (s ++ t)) : Dashless s :=
  fun hs => h (hs.trans (List.prefix_append s t).isInfix)

theorem Dashless.append_right {s t : Text} (h : Dashless (s ++ t)) : Dashless t :=
  fun ht => h (ht.trans (List.suffix_append s t).isInfix)

/-- Two hyphens do not stand before the ones that follow a text. -/
theorem not_prefix_cut {o u : Text} (ho : o ≠ []) (hd : Dashless (o ++ ['-'])) :
    ¬['-', '-'] <+: o ++ '-' :: '-' :: u := by
  intro hp
  refine hd (List.IsPrefix.isInfix ?_)
  cases o with
  | nil => exact absurd rfl ho
  | cons c o =>
    cases o with
    | nil => simpa using hp
    | cons d o => simpa using hp

theorem literal_append (w s : Text) : literal w (w ++ s) = some s := by
  rw [literal, if_pos (by simp), List.drop_left]

theorem literal_none {w s : Text} (h : ¬w <+: s) : literal w s = none :=
  if_neg fun hp => h (List.isPrefixOf_iff_prefix.1 hp)

section

variable {α : Type*} {p : Char → Bool} {rest : Text → Option α}

/-- A text is cut at the first two hyphens, where there has to be a cut. -/
theorem lazySome_cut {u : Text} {a : α} (ha : rest ('-' :: '-' :: u) = some a)
    (hno : ∀ t, ¬['-', '-'] <+: t → rest t = none) : ∀ o : Text, o ≠ [] → (∀ c ∈ o, p c) →
    Dashless (o ++ ['-']) → lazySome p rest (o ++ '-' :: '-' :: u) = some (o, a)
  | [], h, _, _ => absurd rfl h
  | [c], _, hp, _ => by
    rw [List.singleton_append, lazySome, if_pos (hp c List.mem_cons_self), ha]
  | c :: d :: o, _, hp, hd => by
    have hnone : rest (d :: o ++ '-' :: '-' :: u) = none :=
      hno _ (not_prefix_cut (List.cons_ne_nil d o) hd.tail)
    have ih := lazySome_cut ha hno (d :: o) (List.cons_ne_nil d o)
      (fun c hc => hp c (List.mem_cons_of_mem _ hc)) hd.tail
    rw [List.cons_append, lazySome, if_pos (hp c List.mem_cons_self), hnone, ih]
    rfl

/-- A text is taken whole, where nothing but its end takes an end of it. -/
theorem lazySome_whole {a : α} (ha : rest [] = some a) : ∀ u : Text, u ≠ [] → (∀ c ∈ u, p c) →
    (∀ t, t ≠ [] → t <:+ u → rest t = none) → lazySome p rest u = some (u, a)
  | [], h, _, _ => absurd rfl h
  | [c], _, hp, _ => by
    rw [lazySome, if_pos (hp c List.mem_cons_self), ha]
  | c :: d :: u, _, hp, hno => by
    have hnone : rest (d :: u) = none := hno _ (List.cons_ne_nil d u) (List.suffix_cons c _)
    have ih := lazySome_whole ha (d :: u) (List.cons_ne_nil d u)
      (fun c hc => hp c (List.mem_cons_of_mem _ hc))
      fun t ht hs => hno t ht (hs.trans (List.suffix_cons c _))
    rw [lazySome, if_pos (hp c List.mem_cons_self), hnone, ih]
    rfl

theorem greedySome_whole {a : α} (ha : rest [] = some a) : ∀ u : Text, u ≠ [] →
    (∀ c ∈ u, p c) → greedySome p rest u = some (u, a)
  | [], h, _ => absurd rfl h
  | [c], _, hp => by
    rw [greedySome, if_pos (hp c List.mem_cons_self), greedySome, ha]
    rfl
  | c :: d :: u, _, hp => by
    have ih := greedySome_whole ha (d :: u) (List.cons_ne_nil d u)
      fun c hc => hp c (List.mem_cons_of_mem _ hc)
    rw [greedySome, if_pos (hp c List.mem_cons_self), ih]

end

theorem slashes_cons {c : Char} {s : Text} (h : ¬['-', '-'] <+: c :: s) :
    slashes (c :: s) = c :: slashes s := by
  rw [slashes]
  rintro t rfl rfl
  exact h (by simp)

theorem slashes_dashless : ∀ {s : Text}, Dashless s → slashes s = s
  | [], _ => rfl
  | c :: s, h => by
    rw [slashes_cons fun hp => h hp.isInfix, slashes_dashless h.tail]

theorem slashes_cut (u : Text) : ∀ o : Text, Dashless (o ++ ['-']) →
    slashes (o ++ '-' :: '-' :: u) = o ++ '/' :: slashes u
  | [], _ => rfl
  | c :: o, hd => by
    have hp := not_prefix_cut (u := u) (List.cons_ne_nil c o) hd
    rw [List.cons_append] at hp ⊢
    rw [slashes_cons hp, slashes_cut u o hd.tail]
    rfl

/-! ## The halves of an id -/

/-- One half of a repository id. -/
structure Half (s : Text) : Prop where
  length : s.length ≤ 96
  head : ∃ c t, s = c :: t ∧ c ≠ '-'
  slash : '/' ∉ s
  control : ∀ c ∈ s, 0x1f < c.toNat ∧ c.toNat ≠ 0x7f
  dashless : Dashless s

theorem wordChar_plain {uni : Char → Bool} {c : Char}
    (h : c.isAlphanum || (wordChar uni c || (ascii ".-").contains c)) :
    c ≠ '/' ∧ 0x1f < c.toNat ∧ c.toNat ≠ 0x7f := by
  have hnat : 0x2f < c.toNat ∧ c.toNat < 0x7f ∨ 0x7f < c.toNat ∨ c = '.' ∨ c = '-' := by
    rw [Bool.or_eq_true, Bool.or_eq_true] at h
    have halnum : c.isAlphanum → 0x2f < c.toNat ∧ c.toNat < 0x7f := by
      intro hc
      simp only [Char.isAlphanum, Char.isAlpha, Char.isUpper, Char.isLower, Char.isDigit,
        Bool.or_eq_true, Bool.and_eq_true, decide_eq_true_eq, UInt32.le_iff_toNat_le] at hc
      have hval : c.toNat = c.val.toNat := rfl
      have h1 : 'A'.val.toNat = 65 := rfl
      have h2 : 'z'.val.toNat = 122 := rfl
      simp at hc
      omega
    rcases h with h | h | h
    · exact .inl (halnum h)
    · simp only [wordChar, Bool.or_eq_true, beq_iff_eq, Bool.and_eq_true, decide_eq_true_eq] at h
      rcases h with (h | rfl) | ⟨h, -⟩
      · exact .inl (halnum h)
      · exact .inl (by decide)
      · exact .inr (.inl h)
    · have hlist : ascii ".-" = ['.', '-'] := by decide
      have hmem : c ∈ ['.', '-'] := by simpa [hlist] using h
      simp only [List.mem_cons, List.not_mem_nil, or_false] at hmem
      exact .inr (.inr hmem)
  rcases hnat with h | h | rfl | rfl
  · exact ⟨fun hc => by simp [hc] at h, by omega, by omega⟩
  · exact ⟨fun hc => by simp [hc] at h, by omega, by omega⟩
  · decide
  · decide

theorem half_of_repoPart {uni : Char → Bool} {s : Text} (h : repoPart uni s) (hd : Dashless s) :
    Half s := by
  have hspec := headed_spec h
  have hplain : ∀ c ∈ s, c ≠ '/' ∧ 0x1f < c.toNat ∧ c.toNat ≠ 0x7f := fun c hc =>
    wordChar_plain (show c.isAlphanum || (wordChar uni c || (ascii ".-").contains c) by
      simpa using hspec.2.2 c hc)
  refine ⟨hspec.2.1, ?_, fun hc => (hplain _ hc).1 rfl, fun c hc => (hplain c hc).2, hd⟩
  cases s with
  | nil => exact absurd rfl hspec.1
  | cons c t =>
    refine ⟨c, t, rfl, ?_⟩
    rintro rfl
    exact absurd h (by simp [repoPart, headed])

/-- An id has two halves around its slash. -/
theorem halves {uni : Char → Bool} {id : Text} (h : checkRepoId uni id) :
    ∃ org name, id = org ++ '/' :: name ∧ Half org ∧ Half name ∧ Dashless id := by
  simp only [checkRepoId, Bool.and_eq_true, Bool.not_eq_true'] at h
  obtain ⟨⟨h, hd⟩, -⟩ := h
  have hdash : Dashless id := fun hi => by
    have := (occurs_iff (w := ascii "--") (by decide)).2 hi
    simp [hd] at this
  have hjoin : ['/'].intercalate (id.splitOn '/') = id := List.intercalate_splitOn '/'
  split at h
  · rename_i org name hsplit
    rw [hsplit] at hjoin
    obtain ⟨horg, hname⟩ := Bool.and_eq_true_iff.1 h
    have hid : id = org ++ '/' :: name := by simpa [List.intercalate] using hjoin.symm
    rw [hid] at hdash
    exact ⟨org, name, hid, half_of_repoPart horg hdash.append_left,
      half_of_repoPart hname hdash.append_right.tail, hid ▸ hdash⟩
  · cases h

theorem filesDir_of_not_mem : ∀ {s : Text}, '/' ∉ s → filesDir s = s
  | [], _ => rfl
  | c :: s, h => by
    have hc : c ≠ '/' := fun hc => h (hc ▸ List.mem_cons_self)
    have ih := filesDir_of_not_mem fun hs => h (List.mem_cons_of_mem c hs)
    rw [filesDir] at ih ⊢
    rw [List.flatMap_cons, if_neg hc, ih]
    rfl

theorem filesDir_id {org name : Text} (horg : '/' ∉ org) (hname : '/' ∉ name) :
    filesDir (org ++ '/' :: name) = org ++ '-' :: '-' :: name := by
  have h₁ := filesDir_of_not_mem horg
  have h₂ := filesDir_of_not_mem hname
  rw [filesDir] at h₁ h₂ ⊢
  rw [List.flatMap_append, List.flatMap_cons, h₁, h₂]
  rfl

/-- How a directory is read : `o` before the first two hyphens, `u` after them. -/
structure Cut (id o u : Text) : Prop where
  eq : filesDir id = o ++ '-' :: '-' :: u
  length : o.length + u.length ≤ 192
  left : o ≠ []
  right : u ≠ []
  slash : '/' ∉ o ∧ '/' ∉ u
  control : ∀ c ∈ o ++ u, 0x1f < c.toNat ∧ c.toNat ≠ 0x7f
  first : Dashless (o ++ ['-'])
  rest : Dashless u

theorem dashless_cons {c d : Char} {t : Text} (hd : d ≠ '-') (h : Dashless (d :: t)) :
    Dashless (c :: d :: t) := by
  intro hi
  rcases List.infix_cons_iff.1 hi with hp | hi
  · simp only [List.cons_prefix_cons] at hp
    exact hd hp.2.1.symm
  · exact h hi

theorem dashless_concat {s : Text} {c : Char} (hc : c ≠ '-') (h : Dashless (s ++ [c])) :
    Dashless (s ++ [c] ++ ['-']) := by
  intro hi
  rcases List.infix_concat_iff.1 hi with ⟨t, ht⟩ | hi
  · have hsame : t ++ ['-'] = s ++ [c] := by
      refine (List.append_left_inj ['-']).1 ?_
      rw [← ht, List.append_assoc]
      rfl
    exact hc (List.append_inj' hsame rfl |>.2 |> List.cons.inj |>.1).symm
  · exact h hi

/-- The cut is at the slash, unless the half before it ends with a hyphen. -/
theorem cut_of_halves {org name : Text} (horg : Half org) (hname : Half name) :
    ∃ o u, Cut (org ++ '/' :: name) o u ∧
      (o ++ '/' :: u = org ++ '/' :: name ↔ org.getLast? ≠ some '-') := by
  have hdir := filesDir_id horg.slash hname.slash
  obtain ⟨d, t, rfl, hd⟩ := hname.head
  rcases List.eq_nil_or_concat' org with rfl | ⟨o, c, rfl⟩
  · obtain ⟨c, t, h, -⟩ := horg.head
    exact absurd h (by simp)
  have hlo := horg.length
  have hln := hname.length
  rw [List.length_append] at hlo
  simp only [List.length_cons, List.length_nil] at hlo hln
  by_cases hc : c = '-'
  · subst hc
    refine ⟨o, '-' :: d :: t, ⟨by simpa using hdir, ?_, ?_, List.cons_ne_nil _ _, ⟨?_, ?_⟩, ?_,
      horg.dashless, dashless_cons hd hname.dashless⟩, ?_⟩
    · simp only [List.length_cons]
      omega
    · rintro rfl
      obtain ⟨c, t, h, hc⟩ := horg.head
      simp only [List.nil_append, List.cons.injEq] at h
      exact hc h.1.symm
    · exact fun h => horg.slash (List.mem_append_left _ h)
    · exact fun h => hname.slash (by simpa using h)
    · intro c hc
      rw [List.mem_append, List.mem_cons] at hc
      rcases hc with hc | rfl | hc
      · exact horg.control c (List.mem_append_left _ hc)
      · exact horg.control _ (by simp)
      · exact hname.control c hc
    · simp
  · refine ⟨o ++ [c], d :: t, ⟨hdir, ?_, by simp, List.cons_ne_nil _ _, ⟨horg.slash, hname.slash⟩,
      ?_, dashless_concat hc horg.dashless, hname.dashless⟩, ?_⟩
    · simp only [List.length_append, List.length_cons, List.length_nil]
      omega
    · exact fun c hc => (List.mem_append.1 hc).elim (horg.control c) (hname.control c)
    · simpa using hc

/-! ## Reading -/

section

variable {id o u : Text}

theorem notSlash_of_not_mem {s : Text} (h : '/' ∉ s) : ∀ c ∈ s, notSlash c := by
  intro c hc
  simp only [notSlash, ne_eq, decide_not, Bool.not_eq_eq_eq_not, Bool.not_true,
    decide_eq_false_iff_not]
  rintro rfl
  exact h hc

theorem hfDirHere_folder (h : Cut id o u) : hfDirHere (folder id) = some (o, u) := by
  have hseg : lazySome notSlash segEnd u = some (u, ()) := by
    refine lazySome_whole (by rfl) u h.right (notSlash_of_not_mem h.slash.2) fun t ht hs => ?_
    have hhead : t.head? ≠ some '/' := fun hh =>
      h.slash.2 (hs.subset (List.mem_of_mem_head? hh))
    have hline : t ≠ ['\n'] := by
      rintro rfl
      have hmem : '\n' ∈ u := hs.subset List.mem_cons_self
      exact absurd (h.control _ (List.mem_append_right _ hmem)).1 (by decide)
    rw [segEnd, if_neg hhead, atEnd, if_neg (by simp [ht, hline])]
  have hcut : lazySome notSlash (fun s => (literal "--" s).bind (lazySome notSlash segEnd))
      (o ++ '-' :: '-' :: u) = some (o, (u, ())) := by
    refine lazySome_cut ?_ (fun t ht => ?_) o h.left (notSlash_of_not_mem h.slash.1) h.first
    · rw [show '-' :: '-' :: u = ascii "--" ++ u from rfl, literal_append, Option.bind_some, hseg]
    · rw [show literal (ascii "--") t = none from literal_none ht, Option.bind_none]
  rw [hfDirHere, folder, literal_append, Option.bind_some, h.eq, hcut]
  rfl

theorem hfRelIn_folder (h : Cut id o u) (hub : Text) :
    hfRelIn hub (folder id) = some ⟨hub, o, u, none, none⟩ := by
  have hseg : greedySome notSlash revTail u = some (u, (none, none)) :=
    greedySome_whole (by rfl) u h.right (notSlash_of_not_mem h.slash.2)
  have hcut : lazySome notSlash (fun s => (literal "--" s).bind (greedySome notSlash revTail))
      (o ++ '-' :: '-' :: u) = some (o, (u, (none, none))) := by
    refine lazySome_cut ?_ (fun t ht => ?_) o h.left (notSlash_of_not_mem h.slash.1) h.first
    · rw [show '-' :: '-' :: u = ascii "--" ++ u from rfl, literal_append, Option.bind_some, hseg]
    · rw [show literal (ascii "--") t = none from literal_none ht, Option.bind_none]
  rw [hfRelIn, folder, literal_append, Option.bind_some, h.eq, hcut]
  rfl

end

theorem hfRepoRel_cases (layout id : Text) :
    hfRepoRel layout id = 'h' :: 'u' :: 'b' :: '/' :: folder id ∨
      hfRepoRel layout id = folder id := by
  rw [hfRepoRel]
  split
  · exact .inl rfl
  · exact .inr rfl

theorem folder_eq (id : Text) : folder id = 'm' :: 'o' :: 'd' :: 'e' :: 'l' :: 's' :: '-' :: '-' ::
    filesDir id :=
  rfl

section

variable {layout id o u : Text}

theorem hfDir_rel (h : Cut id o u) : hfDir (hfRepoRel layout id) = some (o, u) := by
  have hhere := hfDirHere_folder h
  rcases hfRepoRel_cases layout id with hrel | hrel
  · have hnone : hfDirHere ('h' :: 'u' :: 'b' :: '/' :: folder id) = none := rfl
    rw [hrel, hfDir, hnone, Option.none_or]
    simp [hfDirBelow, hhere]
  · rw [hrel, hfDir, hhere, Option.some_or]

theorem classifyRepo_rel {uni : Char → Bool} (h : Cut id o u) :
    classifyRepo uni (hfRepoRel layout id) =
      if checkRepoId uni (o ++ '/' :: u) then some (o ++ '/' :: u, hfRepoRel layout id)
      else none := by
  rcases hfRepoRel_cases layout id with hrel | hrel
  · have hm : hfRel ('h' :: 'u' :: 'b' :: '/' :: folder id) =
        some ⟨"hub/", o, u, none, none⟩ := by
      rw [hfRel, show literal "hub/" ('h' :: 'u' :: 'b' :: '/' :: folder id) = some (folder id) from
        literal_append "hub/" _, Option.bind_some, hfRelIn_folder h, Option.some_or]
    have hdir : ascii "hub/" ++ ascii "models--" ++ o ++ ascii "--" ++ u =
        'h' :: 'u' :: 'b' :: '/' :: folder id := by
      rw [folder, h.eq, List.append_assoc, List.append_assoc, List.append_assoc]
      rfl
    rw [hrel, classifyRepo, hm, Option.bind_some]
    dsimp only
    rw [hdir]
  · have hm : hfRel (folder id) = some ⟨[], o, u, none, none⟩ := by
      rw [hfRel, show literal "hub/" (folder id) = none from rfl, Option.bind_none, Option.none_or,
        hfRelIn_folder h]
    have hdir : [] ++ ascii "models--" ++ o ++ ascii "--" ++ u = folder id := by
      rw [folder, h.eq, List.append_assoc, List.append_assoc]
      rfl
    rw [hrel, classifyRepo, hm, Option.bind_some]
    dsimp only
    rw [hdir]

theorem basename_rel (h : Cut id o u) : basename (hfRepoRel layout id) = folder id := by
  have hf : '/' ∉ folder id := by
    simp [folder_eq, h.eq, h.slash.1, h.slash.2]
  have hsplit : ∀ ls : List Text, (∀ l ∈ ls, '/' ∉ l) → ls ≠ [] →
      (['/'].intercalate ls).splitOn '/' = ls := fun ls hl hne =>
    List.splitOn_intercalate '/' hl hne
  rcases hfRepoRel_cases layout id with hrel | hrel
  · have hlist : (hfRepoRel layout id).splitOn '/' = [['h', 'u', 'b'], folder id] := by
      rw [hrel]
      simpa [List.intercalate] using hsplit [['h', 'u', 'b'], folder id] (by simp [hf]) (by simp)
    rw [basename, hlist]
    rfl
  · have hlist : (hfRepoRel layout id).splitOn '/' = [folder id] := by
      rw [hrel]
      simpa [List.intercalate] using hsplit [folder id] (by simp [hf]) (by simp)
    rw [basename, hlist]
    rfl

theorem nodeName_folder (h : Cut id o u) : nodeName (folder id) = o ++ '/' :: u := by
  have hdrop : (folder id).drop (ascii "models--").length = o ++ '-' :: '-' :: u := by
    rw [folder, List.drop_left, h.eq]
  rw [nodeName, hdrop, slashes_cut u o h.first, slashes_dashless h.rest, cleanText,
    List.filter_eq_self.2 fun c hc => ?_, List.take_of_length_le]
  · have hl := h.length
    simp only [List.length_append, List.length_cons]
    omega
  · have hplain : 0x1f < c.toNat ∧ c.toNat ≠ 0x7f := by
      rw [List.mem_append, List.mem_cons] at hc
      rcases hc with hc | rfl | hc
      · exact h.control c (List.mem_append_left _ hc)
      · decide
      · exact h.control c (List.mem_append_right _ hc)
    simp only [Bool.not_eq_true', Bool.or_eq_false_iff, decide_eq_false_iff_not, not_le,
      beq_eq_false_iff_ne, ne_eq]
    exact hplain

end

/-- The directory of a repository is read back by the library, by what copies, and by a node. -/
structure ReadsBack (uni : Char → Bool) (layout id : Text) : Prop where
  library : deriveHf none (hfRepoRel layout id) = id
  copy : classifyRepo uni (hfRepoRel layout id) = some (id, hfRepoRel layout id)
  node : nodeName (basename (hfRepoRel layout id)) = id

theorem readsBack_iff_cut {uni : Char → Bool} {layout id o u : Text} (hid : checkRepoId uni id)
    (h : Cut id o u) : ReadsBack uni layout id ↔ o ++ '/' :: u = id := by
  have hlib : deriveHf none (hfRepoRel layout id) = o ++ '/' :: u := by
    simp only [deriveHf, Option.filter_none, hfDir_rel h]
  constructor
  · exact fun hr => hlib ▸ hr.library
  · intro heq
    refine ⟨hlib.trans heq, ?_, ?_⟩
    · rw [classifyRepo_rel h, heq, if_pos hid]
    · rw [basename_rel h, nodeName_folder h, heq]

/-- Two repositories do not share a directory. -/
theorem hfRepoRel_inj {uni : Char → Bool} {layout layout' id id' : Text}
    (hid : checkRepoId uni id) (hid' : checkRepoId uni id')
    (h : hfRepoRel layout id = hfRepoRel layout' id') : id = id' := by
  have hdir : filesDir id = filesDir id' := by
    rcases hfRepoRel_cases layout id with hrel | hrel <;>
      rcases hfRepoRel_cases layout' id' with hrel' | hrel' <;>
      rw [hrel, hrel', folder_eq, folder_eq] at h
    · simpa using h
    · exact absurd (List.cons.inj h).1 (by decide)
    · exact absurd (List.cons.inj h).1 (by decide)
    · simpa using h
  obtain ⟨org, name, rfl, horg, hname, -⟩ := halves hid
  obtain ⟨org', name', rfl, horg', hname', -⟩ := halves hid'
  rw [filesDir_id horg.slash hname.slash, filesDir_id horg'.slash hname'.slash] at hdir
  -- the last two hyphens are those of the slash
  have hlast : ∀ {org name org' name' t : Text}, Half name → Half name' → org' = org ++ t →
      '-' :: '-' :: name = t ++ '-' :: '-' :: name' → t = [] := by
    intro org name org' name' t hname hname' _ ht
    rcases t with _ | ⟨c, _ | ⟨d, t⟩⟩
    · rfl
    · obtain ⟨e, s, rfl, he⟩ := hname.head
      simp only [List.cons_append, List.nil_append, List.cons.injEq] at ht
      exact absurd ht.2.2.1 he
    · simp only [List.cons_append, List.cons.injEq] at ht
      exact absurd ⟨t, name', by simp [ht.2.2]⟩ hname.dashless
  rcases List.append_eq_append_iff.1 hdir with ⟨t, horg, ht⟩ | ⟨t, horg, ht⟩
  · obtain rfl := hlast hname hname' horg ht
    simp_all
  · obtain rfl := hlast hname' hname horg ht
    simp_all

/-- The directory of a repository is read back just when the first half of its id does not end
with a hyphen; no other repository has it. -/
theorem reads_back_iff {uni : Char → Bool} {id : Text} (layout : Text)
    (hid : checkRepoId uni id) :
    (ReadsBack uni layout id ↔ (id.takeWhile (· ≠ '/')).getLast? ≠ some '-') ∧
      ∀ layout' id', checkRepoId uni id' → hfRepoRel layout' id' = hfRepoRel layout id →
        id' = id := by
  refine ⟨?_, fun layout' id' hid' h => hfRepoRel_inj hid' hid h⟩
  obtain ⟨org, name, rfl, horg, hname, -⟩ := halves hid
  obtain ⟨o, u, hcut, hiff⟩ := cut_of_halves horg hname
  have htake : (org ++ '/' :: name).takeWhile (· ≠ '/') = org := by
    rw [List.takeWhile_append_of_pos fun c hc => ?_, List.takeWhile_cons_of_neg (by simp),
      List.append_nil]
    exact notSlash_of_not_mem horg.slash c hc
  rw [readsBack_iff_cut hid hcut, hiff, htake]

/-- A repository in an HF_HOME. -/
theorem llama_reads_back : ReadsBack (fun _ => false) "hf-home" "meta-llama/Llama-3.1-8B" :=
  (reads_back_iff "hf-home" (by decide)).1.2 (by decide)

/-- The hyphen at the end of a half is taken for the slash. -/
theorem hyphen_moves :
    ¬ ∀ uni layout id, checkRepoId uni id → ReadsBack uni layout id := by
  intro h
  have hlib := (h (fun _ => false) "hf-hub" "a-/b" (by decide)).library
  exact absurd hlib (by decide)

end HfCache

end EngineConsole
