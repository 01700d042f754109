import EngineConsole.Router

/-!
# Model references

What an instance loads : a repository of the HuggingFace cache (`hf`), a file below a model
root (`gguf`), a folder below one (`plain`) or a name of an Ollama server (`ollama`).
`checkRef` is the check of a reference, `displayOf` the name the engine serves the model
under and the inventory shows.

The identifier checks are anchored patterns of one shape : a number of characters of one
class (`sized`), or a first character of one class and a number of characters of another
(`headed`). A letter or digit outside ASCII counts as a word character where `uni` says so.
-/

set_option linter.unusedSectionVars false

namespace EngineConsole

namespace Lifecycle

open Web

/-! ## Identifiers -/

/-- `^[p]{lo,hi}$`. -/
def sized (p : Char → Bool) (lo hi : ℕ) (s : Text) : Bool :=
  decide (lo ≤ s.length) && decide (s.length ≤ hi) && s.all p

/-- `^[h][p]{0,n}$`. -/
def headed (h p : Char → Bool) (n : ℕ) : Text → Bool
  | [] => false
  | c :: s => h c && decide (s.length ≤ n) && s.all p

/-- A letter or digit, or one of `extra`. -/
def alnumOr (extra : Text) (c : Char) : Bool :=
  c.isAlphanum || extra.contains c

/-- `ID_RE`, `INSTANCE_ID`. -/
def idOk : Text → Bool :=
  sized (alnumOr "_-") 1 64

/-- `NAME_RE`, the pattern of instance names. -/
def nameOk : Text → Bool :=
  headed Char.isAlphanum (alnumOr " _.-") 63

/-- `ROOT_RE`, `ROOT_ID`. -/
def rootOk : Text → Bool :=
  sized (alnumOr "_.-") 1 32

/-- `LABEL_MODEL`. -/
def labelModelOk : Text → Bool :=
  headed Char.isAlphanum (alnumOr " _.:/@-") 254

/-- `OLLAMA_NAME`. -/
def ollamaNameOk : Text → Bool :=
  headed Char.isAlphanum (alnumOr "_.:/@-") 127

/-- `\w` : a word character of any script. -/
def wordChar (uni : Char → Bool) (c : Char) : Bool :=
  c.isAlphanum || c == '_' || decide (127 < c.toNat) && uni c

/-- `[A-Za-z0-9][\w.\-]{0,95}`. -/
def repoPart (uni : Char → Bool) : Text → Bool :=
  headed Char.isAlphanum (fun c => wordChar uni c || (ascii ".-").contains c) 95

/-- `contains` of a text. -/
def occurs (w : Text) : Text → Bool
  | [] => w.isEmpty
  | c :: s => w.isPrefixOf (c :: s) || occurs w s

/-- `check_repo_id`. -/
def checkRepoId (uni : Char → Bool) (v : Text) : Bool :=
  (match v.splitOn '/' with
    | [org, name] => repoPart uni org && repoPart uni name
    | _ => false) &&
  !occurs "--" v && !occurs ".." v

/-! ## References -/

/-- `ModelRef` : exactly the fields of its format are used. -/
structure ModelRef where
  format : Text
  repoId : Option Text
  rootId : Option Text
  rel : Option Text
  name : Option Text
deriving DecidableEq

/-- `ModelRef::hf`. -/
def ModelRef.hf (repoId : Text) : ModelRef :=
  ⟨"hf", some repoId, none, none, none⟩

/-- A path inside a root : relative, no backslash or NUL, no empty, `.` or `..` segment. -/
def relOk (rel : Text) : Bool :=
  !(rel.isEmpty || rel.head? == some '/' || rel.contains '\\' || rel.contains '\x00') &&
    (rel.splitOn '/').all fun seg => !(seg.isEmpty || seg == ascii "." || seg == ascii "..")

/-- `to_lowercase().ends_with(".gguf")` : no character outside ASCII has `g`, `u`, `f` or `.`
as its lower case. -/
def endsGguf (s : Text) : Bool :=
  (ascii ".gguf").isSuffixOf (s.map Char.toLower)

/-- `check_ref` : the message of the problem `invalid_model`, where there is one. -/
def checkRef (uni : Char → Bool) (r : ModelRef) : Except Text Unit :=
  let rel := r.rel.getD []
  let bad : Text :=
    if r.format = "hf" then
      if checkRepoId uni (r.repoId.getD []) then []
      else "repo_id must look like 'org/name' (letters, digits, . _ -)"
    else if r.format = "gguf" ∨ r.format = "plain" then
      if !r.rootId.any rootOk then
        "a " ++ r.format ++ " model needs the id of the model root it lives in"
      else if r.format = "gguf" ∧ !(!rel.isEmpty && relOk rel && endsGguf rel) then
        "a gguf model needs `rel`: the path of the .gguf file (or its first shard) inside the root"
      else if r.format = "plain" ∧ (!rel.isEmpty && !relOk rel) then
        "`rel` must be a relative path without '..' segments"
      else []
    else if r.format = "ollama" then
      if r.name.any fun name => !name.isEmpty && !ollamaNameOk name then
        "an ollama model name looks like 'llama3:8b'"
      else []
    else []
  if bad.isEmpty then .ok () else .error bad

/-- `posixpath.basename`. -/
def basename (p : Text) : Text :=
  (p.splitOn '/').getLast?.getD p

/-- `trim_end_matches`. -/
def trimEnd (c : Char) (s : Text) : Text :=
  s.rdropWhile (· == c)

/-- `-0*1-of-0*[0-9]+$`, at the start of `s`. -/
def shardTail : Text → Bool
  | '-' :: s =>
    match s.dropWhile (· == '0') with
    | '1' :: '-' :: 'o' :: 'f' :: '-' :: d => !d.isEmpty && d.all Char.isDigit
    | _ => false
  | _ => false

/-- Without the first match of `SHARD_SUFFIX`. -/
def dropShard : Text → Text
  | [] => []
  | c :: s => if shardTail (c :: s) then [] else c :: dropShard s

/-- The text of a field, else a default. -/
def orElse (s : Option Text) (dflt : Text) : Text :=
  (s.filter fun s => !s.isEmpty).getD dflt

/-- `display_of`. -/
def displayOf (r : ModelRef) : Text :=
  if r.format = "hf" then orElse r.repoId "model"
  else if r.format = "ollama" then orElse r.name "ollama"
  else
    let base := basename (trimEnd '/' (r.rel.getD []))
    let base := if base.isEmpty then orElse r.rootId "model" else base
    let base :=
      if r.format = "gguf" then
        dropShard (if endsGguf base then base.take (base.length - 5) else base)
      else base
    if base.isEmpty then "model" else base

/-! ## What the checks establish -/

theorem sized_spec {p : Char → Bool} {lo hi : ℕ} {s : Text} (h : sized p lo hi s = true) :
    lo ≤ s.length ∧ s.length ≤ hi ∧ ∀ c ∈ s, p c = true := by
  simp only [sized, Bool.and_eq_true, decide_eq_true_eq, List.all_eq_true] at h
  exact ⟨h.1.1, h.1.2, h.2⟩

theorem headed_spec {h p : Char → Bool} {n : ℕ} {s : Text} (hs : headed h p n s = true) :
    s ≠ [] ∧ s.length ≤ n + 1 ∧ ∀ c ∈ s, h c = true ∨ p c = true := by
  cases s with
  | nil => cases hs
  | cons c s =>
    simp only [headed, Bool.and_eq_true, decide_eq_true_eq, List.all_eq_true] at hs
    obtain ⟨⟨hc, hn⟩, hall⟩ := hs
    refine ⟨List.cons_ne_nil c s, Nat.succ_le_succ hn, fun d hd => ?_⟩
    rcases List.mem_cons.1 hd with rfl | hd
    exacts [.inl hc, .inr (hall d hd)]

theorem sized_nul {p : Char → Bool} {lo hi : ℕ} {s : Text} (h : sized p lo hi s = true)
    (hp : p '\x00' = false) : '\x00' ∉ s := fun hc => by
  exact absurd ((sized_spec h).2.2 _ hc) (by simp [hp])

theorem headed_nul {h p : Char → Bool} {n : ℕ} {s : Text} (hs : headed h p n s = true)
    (hh : h '\x00' = false) (hp : p '\x00' = false) : '\x00' ∉ s := fun hc => by
  have hor := (headed_spec hs).2.2 _ hc
  simp [hh, hp] at hor

/-- A repository id : two parts of at most 96 characters. -/
theorem checkRepoId_spec {uni : Char → Bool} {v : Text} (h : checkRepoId uni v = true) :
    v ≠ [] ∧ v.length ≤ 193 ∧ '\x00' ∉ v := by
  simp only [checkRepoId, Bool.and_eq_true] at h
  obtain ⟨⟨h, -⟩, -⟩ := h
  have hjoin : ['/'].intercalate (v.splitOn '/') = v := List.intercalate_splitOn '/'
  split at h
  · rename_i org name hsplit
    rw [hsplit] at hjoin
    obtain ⟨horg, hname⟩ := Bool.and_eq_true_iff.1 h
    have hclass : (wordChar uni '\x00' || (ascii ".-").contains '\x00') = false := by
      simp [wordChar]
      decide
    have hn₁ := headed_nul horg (by decide) hclass
    have hn₂ := headed_nul hname (by decide) hclass
    have hl₁ := (headed_spec horg).2.1
    have hl₂ := (headed_spec hname).2.1
    subst hjoin
    refine ⟨by simp [List.intercalate], ?_, ?_⟩
    · simp [List.intercalate]
      omega
    · simp [List.intercalate, hn₁, hn₂]
  · cases h

theorem checkRef_hf {uni : Char → Bool} {r : ModelRef} (hf : r.format = "hf")
    (h : checkRef uni r = .ok ()) : ∃ id, r.repoId = some id ∧ checkRepoId uni id = true := by
  unfold checkRef at h
  simp only [hf, if_true] at h
  by_cases hid : checkRepoId uni (r.repoId.getD []) = true
  · cases hr : r.repoId with
    | some id =>
      rw [hr] at hid
      exact ⟨id, rfl, hid⟩
    | none =>
      rw [hr] at hid
      exact absurd rfl (checkRepoId_spec hid).1
  · rw [if_neg hid, if_neg (by decide)] at h
    cases h

/-- A model below a root : the root has an id, and the path stays inside. -/
theorem checkRef_located {uni : Char → Bool} {r : ModelRef}
    (hf : r.format = "gguf" ∨ r.format = "plain") (h : checkRef uni r = .ok ()) :
    ∃ root, r.rootId = some root ∧ rootOk root = true ∧
      (r.rel.getD [] ≠ [] → relOk (r.rel.getD []) = true) := by
  have hne : r.format ≠ "hf" := by rcases hf with hf | hf <;> rw [hf] <;> decide
  unfold checkRef at h
  simp only [if_neg hne, if_pos hf] at h
  split_ifs at h with h₁ h₂ h₃ h₄ h₅ h₆ h₇
  · exact absurd h₂ (by simp [show ascii "a " = ['a', ' '] by decide])
  · exact absurd h₄ (by decide)
  · exact absurd h₆ (by decide)
  · cases hroot : r.rootId with
    | none => simp [hroot] at h₁
    | some root =>
      refine ⟨root, rfl, by simpa [hroot] using h₁, fun hrel => ?_⟩
      have hempty : (r.rel.getD []).isEmpty = false := List.isEmpty_eq_false_iff.2 hrel
      cases hok : relOk (r.rel.getD []) with
      | true => rfl
      | false =>
        rcases hf with hf | hf
        · exact absurd ⟨hf, by simp [hok]⟩ h₃
        · exact absurd ⟨hf, by simp [hok, hempty]⟩ h₅

theorem checkRef_ollama {uni : Char → Bool} {r : ModelRef} (hf : r.format = "ollama")
    (h : checkRef uni r = .ok ()) {name : Text} (hname : r.name = some name) (hne : name ≠ []) :
    ollamaNameOk name = true := by
  cases hok : ollamaNameOk name with
  | true => rfl
  | false =>
    unfold checkRef at h
    simp only [hf, if_neg (show ascii "ollama" ≠ ascii "hf" by decide),
      if_neg (show ¬(ascii "ollama" = ascii "gguf" ∨ ascii "ollama" = ascii "plain") by decide),
      if_true, hname, Option.any_some, List.isEmpty_eq_false_iff.2 hne, hok] at h
    exact absurd h (by decide)

theorem relOk_nul {rel : Text} (h : relOk rel = true) : '\x00' ∉ rel := by
  simp only [relOk, Bool.and_eq_true, Bool.not_eq_true', Bool.or_eq_false_iff] at h
  simpa using h.1.2

/-! ## Display names -/

theorem orElse_some {s dflt : Text} (h : s ≠ []) : orElse (some s) dflt = s := by
  rw [orElse, Option.filter_some_pos (by simp [List.isEmpty_eq_false_iff.2 h]), Option.getD_some]

theorem displayOf_hf {r : ModelRef} {id : Text} (hf : r.format = "hf") (hid : r.repoId = some id)
    (hne : id ≠ []) : displayOf r = id := by
  rw [displayOf, if_pos hf, hid, orElse_some hne]

theorem displayOf_ollama {r : ModelRef} {name : Text} (hf : r.format = "ollama")
    (hname : r.name = some name) (hne : name ≠ []) : displayOf r = name := by
  rw [displayOf, if_neg (hf ▸ by decide), if_pos hf, hname, orElse_some hne]

end Lifecycle

end EngineConsole
