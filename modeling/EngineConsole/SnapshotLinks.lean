import EngineConsole.CacheDirs
import EngineConsole.ClearWay
import EngineConsole.DecodedPaths
import EngineConsole.PosixPath

/-!
# Snapshot links

A download puts the bytes of a file under `blobs` of its repository, and a relative link to them
where the file is in a snapshot (`snapshot_link` of `downloads.rs`). The node makes the link
(`fs.symlink`), and refuses what its own rules of paths refuse.

A link whose text has no control character and no name that the node protects is made, and leads
to its blob (`snapshotLink_resolves`). `safe_rel_path` allows both (`snapshotLink_refused`).
-/

set_option linter.unusedSectionVars false

namespace EngineConsole

namespace SnapshotLinks

open Web Lifecycle HfCache Posix

/-! ## Names and layouts -/

/-- `safe_rel_path` : no absolute paths, `..`, backslashes or NULs. -/
def safeRelPath (path : Text) : Bool :=
  if path = [] ∨ path.head? = some '/' ∨ '\\' ∈ path ∨ Char.ofNat 0 ∈ path then false
  else (path.splitOn '/').all fun seg => seg ≠ [] ∧ seg ≠ ['.'] ∧ seg ≠ ['.', '.']

/-- `RepoFile`, without the size. -/
structure RepoFile where
  path : Text
  sha256 : Option Text

/-- `blob_name`; `hexSha` is the SHA-256 of a text in hex digits. -/
def blobName (hexSha : Text → Text) (f : RepoFile) (commit : Text) : Text :=
  match f.sha256.filter fun s => !s.isEmpty with
  | some s => s
  | none => ascii "nolfs-" ++ (hexSha (commit ++ Char.ofNat 0 :: f.path)).take 40

/-- `snapshot_link` : the path of the link, and its target. -/
def snapshotLink (repoRel commit path blob : Text) : Text × Text :=
  let link := repoRel ++ ascii "/snapshots/" ++ commit ++ '/' :: path
  (link, relpath (repoRel ++ ascii "/blobs/" ++ blob) (dirname link))

/-! ## What the texts are made of -/

/-- A lowercase hex digit. -/
def isHex (c : Char) : Bool :=
  c.isDigit || ('a' ≤ c && c ≤ 'f')

/-- `[0-9a-f]{n}`. -/
def IsHex (n : ℕ) (s : Text) : Prop :=
  s.length = n ∧ s.all isHex

instance (n : ℕ) (s : Text) : Decidable (IsHex n s) :=
  inferInstanceAs (Decidable (s.length = n ∧ s.all isHex))

/-- A segment that is a name, of characters that the node takes. -/
def Clean (s : Text) : Prop :=
  IsSegment s ∧ s.any Files.badChar = false

instance (s : Text) : Decidable (Clean s) :=
  inferInstanceAs (Decidable (IsSegment s ∧ s.any Files.badChar = false))

variable {uni : Char → Bool} {hexSha : Text → Text}

section

variable {path s id layout commit blob : Text}
  {f : RepoFile} {n : ℕ}

theorem IsHex.char (h : IsHex n s) {c : Char} (hc : c ∈ s) : isHex c :=
  List.all_eq_true.1 h.2 c hc

theorem clean_of (h : IsSegment s) (hs : ∀ c ∈ s, Files.badChar c = false) : Clean s :=
  ⟨h, List.any_eq_false.2 fun c hc => by simp [hs c hc]⟩

theorem Clean.char (h : Clean s) {c : Char} (hc : c ∈ s) : Files.badChar c = false := by
  simpa using List.any_eq_false.1 h.2 c hc

theorem isHex_plain {c : Char} (h : isHex c) :
    c ≠ '/' ∧ c ≠ '.' ∧ Files.badChar c = false := by
  have hnat : 0x2f < c.toNat ∧ c.toNat < 0x7f ∧ c.toNat ≠ 0x5c := by
    simp only [isHex, Char.isDigit, Bool.or_eq_true, Bool.and_eq_true, decide_eq_true_eq,
      UInt32.le_iff_toNat_le, Char.le_def] at h
    have hval : c.toNat = c.val.toNat := rfl
    have h₁ : '0'.val.toNat = 48 := rfl
    have h₂ : '9'.val.toNat = 57 := rfl
    have h₃ : 'a'.val.toNat = 97 := rfl
    have h₄ : 'f'.val.toNat = 102 := rfl
    simp at h
    omega
  refine ⟨?_, ?_, ?_⟩
  · rintro rfl
    simp at hnat
  · rintro rfl
    simp at hnat
  · have hback : c ≠ '\\' := by
      rintro rfl
      simp at hnat
    simp only [Files.badChar, Bool.or_eq_false_iff, decide_eq_false_iff_not]
    exact ⟨⟨by omega, by omega⟩, hback⟩

theorem clean_hex (hn : 0 < n) (h : IsHex n s) : Clean s := by
  have hdot : '.' ∉ s := fun hc => (isHex_plain (h.char hc)).2.1 rfl
  refine clean_of ⟨?_, ?_, ?_, fun hc => (isHex_plain (h.char hc)).1 rfl⟩
    fun c hc => (isHex_plain (h.char hc)).2.2
  · rintro rfl
    exact absurd h.1.symm (by simpa using hn.ne')
  · rintro rfl
    exact hdot (by simp)
  · rintro rfl
    exact hdot (by simp)

/-- After a word that is a name comes what the node takes. -/
theorem clean_append {w : Text} (hw : Clean w) (hlen : 2 < w.length) (h : '/' ∉ s)
    (hs : ∀ c ∈ s, Files.badChar c = false) : Clean (w ++ s) := by
  have hlong : 2 < (w ++ s).length := by
    rw [List.length_append]
    omega
  refine clean_of ⟨?_, ?_, ?_, ?_⟩ ?_
  · exact fun hc => absurd hlong (by simp [hc])
  · exact fun hc => absurd hlong (by simp [hc])
  · exact fun hc => absurd hlong (by simp [hc])
  · rw [List.mem_append, not_or]
    exact ⟨hw.1.2.2.2, h⟩
  · intro c hc
    exact (List.mem_append.1 hc).elim hw.char (hs c)

/-- What a blob is named. -/
theorem clean_blob (hsha : ∀ t, IsHex 64 (hexSha t))
    (hsum : ∀ t, f.sha256 = some t → t = [] ∨ IsHex 64 t) : Clean (blobName hexSha f commit) := by
  unfold blobName
  split
  · next t ht =>
    obtain ⟨ht, hne⟩ := Option.filter_eq_some_iff.1 ht
    rcases hsum t ht with rfl | hhex
    · simp at hne
    · exact clean_hex (by decide) hhex
  · have hplain : ∀ c ∈ (hexSha (commit ++ Char.ofNat 0 :: f.path)).take 40, isHex c :=
      fun c hc => (hsha _).char (List.mem_of_mem_take hc)
    have hword : Clean (ascii "nolfs-") := by decide
    have hlong : 2 < (ascii "nolfs-").length := by decide
    refine clean_append hword hlong ?_ fun c hc => (isHex_plain (hplain c hc)).2.2
    exact fun hc => (isHex_plain (hplain _ hc)).1 rfl

/-- The segments of a path that is safe. -/
theorem segments_of_safe (h : safeRelPath path) : Segments (path.splitOn '/') := by
  unfold safeRelPath at h
  split_ifs at h
  refine ⟨by simp [List.splitOn_ne_nil], fun s hs => ?_⟩
  have hall := List.all_eq_true.1 h s hs
  simp only [decide_eq_true_eq] at hall
  exact ⟨hall.1, hall.2.1, hall.2.2, not_mem_of_mem_splitOn path hs⟩

/-- The segments of a path whose characters the node takes. -/
theorem clean_of_safe (h : safeRelPath path) (hchars : ∀ c ∈ path, Files.badChar c = false) :
    ∀ s ∈ path.splitOn '/', Clean s := by
  refine fun s hs => clean_of ((segments_of_safe h).names s hs) fun c hc => hchars c ?_
  obtain ⟨pre, post, hpath, -⟩ := Web.mem_splitOn path hs
  rw [hpath]
  exact List.mem_append_right _ (List.mem_append_left _ hc)

/-! ## The directory of a repository -/

/-- The characters of an id. -/
theorem plain_of_id (h : checkRepoId uni id) : ∀ c ∈ id, c = '/' ∨ Files.badChar c = false := by
  have hchar (s : Text) (hs : repoPart uni s) (c : Char) (hc : c ∈ s) :
      Files.badChar c = false := by
    have hword : c.isAlphanum || (wordChar uni c || (ascii ".-").contains c) := by
      simpa using (headed_spec hs).2.2 c hc
    obtain ⟨-, h₁, h₂⟩ := wordChar_plain hword
    have hback : c ≠ '\\' := by
      rintro rfl
      have hlist : ascii ".-" = ['.', '-'] := by decide
      simp [wordChar, hlist] at hword
    simp only [Files.badChar, Bool.or_eq_false_iff, decide_eq_false_iff_not]
    exact ⟨⟨by omega, h₂⟩, hback⟩
  have hjoin : ['/'].intercalate (id.splitOn '/') = id := List.intercalate_splitOn '/'
  simp only [checkRepoId, Bool.and_eq_true] at h
  obtain ⟨⟨h, -⟩, -⟩ := h
  split at h
  · next org name hsplit =>
    rw [hsplit] at hjoin
    have hid : id = org ++ '/' :: name := by simpa [List.intercalate] using hjoin.symm
    obtain ⟨horg, hname⟩ := Bool.and_eq_true_iff.1 h
    intro c hc
    rw [hid, List.mem_append, List.mem_cons] at hc
    rcases hc with hc | rfl | hc
    · exact .inr (hchar org horg c hc)
    · exact .inl rfl
    · exact .inr (hchar name hname c hc)
  · cases h

theorem mem_filesDir {c : Char} (h : c ∈ filesDir id) : c = '-' ∨ c ∈ id ∧ c ≠ '/' := by
  rw [filesDir, List.mem_flatMap] at h
  obtain ⟨d, hd, hc⟩ := h
  split_ifs at hc with hslash
  · exact .inl (by simpa using hc)
  · obtain rfl := List.mem_singleton.1 hc
    exact .inr ⟨hd, hslash⟩

theorem clean_folder (h : checkRepoId uni id) : Clean (folder id) := by
  have hword : Clean (ascii "models--") := by decide
  have hlong : 2 < (ascii "models--").length := by decide
  refine clean_append hword hlong (fun hc => ?_) fun c hc => ?_
  · rcases mem_filesDir hc with h | ⟨-, h⟩
    · exact absurd h (by decide)
    · exact h rfl
  · rcases mem_filesDir hc with rfl | ⟨hmem, hslash⟩
    · decide
    · exact (plain_of_id h c hmem).resolve_left hslash

/-- The segments of the directory of a repository. -/
def repoSegs (layout id : Text) : List Text :=
  if layout = "hf-home" then [ascii "hub", folder id] else [folder id]

theorem hfRepoRel_slash (layout id : Text) :
    hfRepoRel layout id = slash (repoSegs layout id) := by
  rw [hfRepoRel, repoSegs]
  split_ifs
  · rw [slash_cons_ne (by simp)]
    simp [slash, List.intercalate, show ascii "hub/" = ascii "hub" ++ ['/'] by decide]
  · simp [slash, List.intercalate]

theorem clean_repo (h : checkRepoId uni id) : ∀ s ∈ repoSegs layout id, Clean s := by
  intro s hs
  have hhub : Clean (ascii "hub") := by decide
  rw [repoSegs] at hs
  split_ifs at hs
  · rcases List.mem_pair.1 hs with rfl | rfl
    · exact hhub
    · exact clean_folder h
  · exact List.mem_singleton.1 hs ▸ clean_folder h

theorem repoSegs_ne_nil (layout id : Text) : repoSegs layout id ≠ [] := by
  rw [repoSegs]
  split_ifs <;> simp

/-! ## The two texts -/

/-- The segments of a link. -/
def linkSegs (repo : List Text) (commit : Text) (dirs : List Text) (name : Text) : List Text :=
  repo ++ ascii "snapshots" :: commit :: (dirs ++ [name])

/-- The segments of its target. -/
def targetSegs (dirs : List Text) (blob : Text) : List Text :=
  List.replicate (dirs.length + 2) ['.', '.'] ++ [ascii "blobs", blob]

section

variable {repo dirs : List Text} {name : Text}

theorem clean_link (hrepo : ∀ s ∈ repo, Clean s) (hcommit : IsHex 40 commit)
    (hpath : ∀ s ∈ dirs ++ [name], Clean s) : ∀ s ∈ linkSegs repo commit dirs name, Clean s := by
  intro s hs
  have hword : Clean (ascii "snapshots") := by decide
  rw [linkSegs, List.mem_append, List.mem_cons, List.mem_cons] at hs
  rcases hs with hs | rfl | rfl | hs
  · exact hrepo s hs
  · exact hword
  · exact clean_hex (by decide) hcommit
  · exact hpath s hs

theorem link_slash (hrepo : repo ≠ []) (hpath : slash (dirs ++ [name]) = path) :
    slash repo ++ ascii "/snapshots/" ++ commit ++ '/' :: path =
      slash (linkSegs repo commit dirs name) := by
  have hword : ascii "/snapshots/" = '/' :: (ascii "snapshots" ++ ['/']) := by decide
  rw [linkSegs, slash_append hrepo (by simp), slash_cons_ne (by simp), slash_cons_ne (by simp),
    hpath, hword]
  simp

/-- The link and its target as texts of segments. -/
theorem snapshotLink_slash (hrepo : repo ≠ []) (hrepoClean : ∀ s ∈ repo, Clean s)
    (hcommit : IsHex 40 commit) (hsegs : path.splitOn '/' = dirs ++ [name])
    (hpath : Segments (dirs ++ [name])) (hblob : IsSegment blob) :
    snapshotLink (slash repo) commit path blob =
      (slash (linkSegs repo commit dirs name), slash (targetSegs dirs blob)) := by
  have hjoin : slash (dirs ++ [name]) = path := by
    rw [← hsegs]
    exact List.intercalate_splitOn '/'
  have hsnap : IsSegment (ascii "snapshots") := (show Clean (ascii "snapshots") by decide).1
  have hblobs : IsSegment (ascii "blobs") := (show Clean (ascii "blobs") by decide).1
  have hhex : IsSegment commit := (clean_hex (by decide) hcommit).1
  have hfrom : Segments (repo ++ ascii "blobs" :: [blob]) := by
    refine ⟨by simp, fun s hs => ?_⟩
    rw [List.mem_append, List.mem_pair] at hs
    rcases hs with hs | rfl | rfl
    · exact (hrepoClean s hs).1
    · exact hblobs
    · exact hblob
  have hto : Segments (repo ++ ascii "snapshots" :: (commit :: dirs)) := by
    refine ⟨by simp, fun s hs => ?_⟩
    rw [List.mem_append, List.mem_cons, List.mem_cons] at hs
    rcases hs with hs | rfl | rfl | hs
    · exact (hrepoClean s hs).1
    · exact hsnap
    · exact hhex
    · exact hpath.names s (List.mem_append_left _ hs)
  have hlink : linkSegs repo commit dirs name =
      repo ++ ascii "snapshots" :: (commit :: dirs) ++ [name] := by
    simp [linkSegs]
  have hdir : dirname (slash (linkSegs repo commit dirs name)) =
      slash (repo ++ ascii "snapshots" :: (commit :: dirs)) := by
    rw [hlink]
    exact dirname_slash hto (hpath.names name (by simp))
  have hfile : slash repo ++ ascii "/blobs/" ++ blob = slash (repo ++ ascii "blobs" :: [blob]) := by
    have hword : ascii "/blobs/" = '/' :: (ascii "blobs" ++ ['/']) := by decide
    rw [slash_append hrepo (by simp), slash_cons_ne (by simp), hword]
    simp [slash, List.intercalate]
  rw [snapshotLink, link_slash hrepo hjoin, hdir, hfile,
    relpath_slash hfrom hto (by decide)]
  rfl

end

end

/-! ## The texts on the node -/

section

variable {segs : List Text} {node : Files.Node}

/-- The names of a path on a node. -/
def names (path : Text) : List String :=
  (path.splitOn '/').map String.ofList

theorem names_slash (h : Pieces segs) : names (slash segs) = segs.map String.ofList := by
  rw [names, splitOn_slash h]

theorem isName_ofList (h : IsSegment s) : FileTree.isName (String.ofList s) := by
  have hne (w : String) (hw : s ≠ w.toList) : String.ofList s ≠ w := by
    rintro rfl
    exact hw (by simp)
  exact ⟨hne "" h.1, hne "." h.2.1, hne ".." h.2.2.1⟩

theorem head?_slash (h : Pieces segs) : (slash segs).head? ≠ some '/' := by
  obtain ⟨c, t, hs, hc⟩ := head_slash h
  simpa [hs] using hc

theorem badChar_slash (h : ∀ s ∈ segs, ∀ c ∈ s, Files.badChar c = false) :
    (slash segs).any Files.badChar = false := by
  induction segs with
  | nil => rfl
  | cons s segs ih =>
    have hs : s.any Files.badChar = false :=
      List.any_eq_false.2 fun c hc => by simp [h s List.mem_cons_self c hc]
    by_cases hnil : segs = []
    · subst hnil
      simpa [slash, List.intercalate] using hs
    · rw [slash_cons_ne hnil, List.any_append, List.any_cons, hs,
        ih fun t ht => h t (List.mem_cons_of_mem s ht)]
      decide

/-- The node takes a path of clean segments that are not too long and not protected. -/
theorem splitRelForWrite_slash (hne : segs ≠ []) (h : ∀ s ∈ segs, Clean s)
    (hlen : ∀ c ∈ segs.map String.ofList, c.utf8ByteSize ≤ 255)
    (hopen : ∀ c ∈ segs.map String.ofList, node.writeProtected c = false) (what : String) :
    Files.splitRelForWrite node (some (String.ofList (slash segs))) what =
      .ok (segs.map String.ofList) := by
  have hsegs : Segments segs := ⟨hne, fun s hs => (h s hs).1⟩
  have hnone : (segs.map String.ofList).find? (fun p => p = "" || p = "." || p = ".." ||
      255 < p.utf8ByteSize) = none := by
    rw [List.find?_eq_none]
    intro c hc
    obtain ⟨s, hs, rfl⟩ := List.mem_map.1 hc
    obtain ⟨h0, h1, h2⟩ := isName_ofList (h s hs).1
    simpa [h0, h1, h2] using hlen _ hc
  have hrel : Files.splitRel node (some (String.ofList (slash segs))) what =
      .ok (segs.map String.ofList) := by
    unfold Files.splitRel
    split
    · next heq => cases heq
    · next heq =>
      have hnil : slash segs = [] := by simpa using congrArg String.toList (Option.some.inj heq)
      exact absurd hnil (slash_ne_nil hsegs.pieces)
    · next rel hrel heq =>
      obtain rfl := Option.some.inj heq
      dsimp only
      rw [String.toList_ofList, if_neg (head?_slash hsegs.pieces),
        if_neg (by simp [badChar_slash fun s hs c hc => (h s hs).char hc]),
        splitOn_slash hsegs.pieces, hnone]
  rw [Files.splitRelForWrite, hrel]
  dsimp only
  rw [if_neg]
  simpa using fun c hc => hopen _ (List.mem_map_of_mem hc)

theorem pieces_ups (n : ℕ) (hne : segs ≠ []) (h : ∀ s ∈ segs, Clean s) :
    Pieces (List.replicate n ['.', '.'] ++ segs) := by
  refine ⟨by simp [hne], fun s hs => ?_⟩
  rcases List.mem_append.1 hs with hs | hs
  · rw [List.eq_of_mem_replicate hs]
    decide
  · exact ⟨(h s hs).1.1, (h s hs).1.2.2.2⟩

theorem names_ups (n : ℕ) (hne : segs ≠ []) (h : ∀ s ∈ segs, Clean s) :
    names (slash (List.replicate n ['.', '.'] ++ segs)) =
      List.replicate n ".." ++ segs.map String.ofList := by
  rw [names_slash (pieces_ups n hne h), List.map_append, List.map_replicate]

/-- The node takes a target of `..`s and clean segments. -/
theorem linkTarget_slash (n : ℕ) (hne : segs ≠ []) (h : ∀ s ∈ segs, Clean s) :
    Files.linkTarget (.str (String.ofList (slash (List.replicate n ['.', '.'] ++ segs)))) =
      .ok (List.replicate n ".." ++ segs.map String.ofList) := by
  have hpieces := pieces_ups n hne h
  have hbad : (slash (List.replicate n ['.', '.'] ++ segs)).any Files.badChar = false := by
    refine badChar_slash fun s hs c hc => ?_
    rcases List.mem_append.1 hs with hs | hs
    · rw [List.eq_of_mem_replicate hs] at hc
      obtain rfl : c = '.' := by simpa using hc
      decide
    · exact (h s hs).char hc
  have hsegs : ((slash (List.replicate n ['.', '.'] ++ segs)).splitOn '/').map String.ofList =
      List.replicate n ".." ++ segs.map String.ofList := names_ups n hne h
  have hnames : (List.replicate n ".." ++ segs.map String.ofList).any
      (fun c => c = "" || c = ".") = false := by
    rw [List.any_eq_false]
    intro c hc
    rcases List.mem_append.1 hc with hc | hc
    · rw [List.eq_of_mem_replicate hc]
      decide
    · obtain ⟨s, hs, rfl⟩ := List.mem_map.1 hc
      obtain ⟨h0, h1, -⟩ := isName_ofList (h s hs).1
      simp [h0, h1]
  have hups : ¬((List.replicate n ".." ++ segs.map String.ofList).dropWhile
      (· = "..")).contains ".." := by
    have hnot : ".." ∉ segs.map String.ofList := fun hc => by
      obtain ⟨s, hs, hup⟩ := List.mem_map.1 hc
      exact (isName_ofList (h s hs).1).2.2 hup
    rw [List.dropWhile_append_of_pos fun c hc => by simp [List.eq_of_mem_replicate hc]]
    simpa using fun hc => hnot ((List.dropWhile_suffix _).subset hc)
  have hempty : String.ofList (slash (List.replicate n ['.', '.'] ++ segs)) ≠ "" := fun hc =>
    slash_ne_nil hpieces (by simpa using congrArg String.toList hc)
  rw [Files.linkTarget, String.toList_ofList, hsegs, if_neg, if_neg hups]
  simp only [hempty, head?_slash hpieces, hbad, hnames, Bool.false_eq_true, or_false,
    not_false_eq_true]

end

/-! ## A file of a snapshot -/

/-- A file of a snapshot of a repository. -/
structure Snapshot where
  layout : Text
  repoId : Text
  commit : Text
  file : RepoFile

/-- What the code checks before it downloads the file. -/
structure Snapshot.Valid (uni : Char → Bool) (x : Snapshot) : Prop where
  id : checkRepoId uni x.repoId
  commit : IsHex 40 x.commit
  path : safeRelPath x.file.path
  sum : ∀ t, x.file.sha256 = some t → t = [] ∨ IsHex 64 t

/-- The directory of its repository. -/
def Snapshot.repo (x : Snapshot) : Text :=
  hfRepoRel x.layout x.repoId

/-- The name of its blob. -/
def Snapshot.blob (hexSha : Text → Text) (x : Snapshot) : Text :=
  blobName hexSha x.file x.commit

/-- The path of its link, and the target. -/
def Snapshot.link (hexSha : Text → Text) (x : Snapshot) : Text × Text :=
  snapshotLink x.repo x.commit x.file.path (x.blob hexSha)

/-- The request that makes a link. -/
def linkArgs (root : Files.Value) (link : Text × Text) : Files.Args :=
  [("root", root), ("link", .str (String.ofList link.1)), ("target", .str (String.ofList link.2))]

/-- A root on which nothing is in the way of the link. The directories on the way are real ones
or missing, no call fails, and the names are not too long. -/
structure Ready (s : Files.Setup) (a : Files.Around) (t : FileTree.Tree) (root : Files.Value)
    (repo link : List String) (blob : String) : Prop where
  opens : s.node.openRoot root true = .ok ()
  calm : Files.Calm a
  root : FileTree.Proper s.root
  dirs : ∀ q, q <+: s.root → t.get q = some .dir
  way : Files.Clear t s.root link.dropLast
  there : FileTree.NoLinks t (s.root ++ repo) ["blobs", blob]
  dir : t.get (s.root ++ link) ≠ some .dir
  special : t.get (s.root ++ link) ≠ some .special
  free : t.get (s.root ++ link.dropLast ++ [Files.tmpName a (link.getLast?.getD "")]) = none
  fits : ∀ c ∈ link, c.utf8ByteSize ≤ 255

section

variable {s : Files.Setup} {a : Files.Around} {h : Files.Host} {root : Files.Value} {x : Snapshot}

/-- What the node makes of the two texts, `up` being the way from the repository to the directory
of the link. -/
structure Texts (hexSha : Text → Text) (x : Snapshot) (up : List String) (name : String) :
    Prop where
  link : names (x.link hexSha).1 = names x.repo ++ up ++ [name]
  target : names (x.link hexSha).2 =
    List.replicate up.length ".." ++ ["blobs", String.ofList (x.blob hexSha)]
  first : up.head? = some "snapshots"
  blob : FileTree.isName (String.ofList (x.blob hexSha))
  accepted : Files.linkTarget (.str (String.ofList (x.link hexSha).2)) =
    .ok (names (x.link hexSha).2)
  parts : ∀ node : Files.Node, (∀ c ∈ names (x.link hexSha).1, c.utf8ByteSize ≤ 255) →
    (∀ c ∈ names (x.link hexSha).1, node.writeProtected c = false) →
    Files.splitRelForWrite node (some (String.ofList (x.link hexSha).1)) "link" =
      .ok (names (x.link hexSha).1)

theorem texts_of_valid (hx : x.Valid uni) (hsha : ∀ t, IsHex 64 (hexSha t))
    (hchars : ∀ c ∈ x.file.path, Files.badChar c = false) :
    ∃ up name, Texts hexSha x up name := by
  have hpath : Segments (x.file.path.splitOn '/') := segments_of_safe hx.path
  have hclean : ∀ s ∈ x.file.path.splitOn '/', Clean s := clean_of_safe hx.path hchars
  obtain ⟨dirs, name, hsegs⟩ : ∃ dirs name, x.file.path.splitOn '/' = dirs ++ [name] :=
    ⟨_, _, (List.dropLast_append_getLast hpath.some).symm⟩
  rw [hsegs] at hpath hclean
  have hrepo : ∀ s ∈ repoSegs x.layout x.repoId, Clean s := clean_repo hx.id
  have hne := repoSegs_ne_nil x.layout x.repoId
  have hblob : Clean (x.blob hexSha) := clean_blob hsha hx.sum
  have hblobs : Clean (ascii "blobs") := by decide
  have hdown : ∀ s ∈ [ascii "blobs", x.blob hexSha], Clean s := by
    intro s hs
    rcases List.mem_pair.1 hs with rfl | rfl
    · exact hblobs
    · exact hblob
  have hlink : x.link hexSha = (slash (linkSegs (repoSegs x.layout x.repoId) x.commit dirs name),
      slash (targetSegs dirs (x.blob hexSha))) := by
    rw [Snapshot.link, Snapshot.repo, hfRepoRel_slash]
    exact snapshotLink_slash hne hrepo hx.commit hsegs hpath hblob.1
  have hlinkClean := clean_link hrepo hx.commit hclean
  have hlinkSegs : Segments (linkSegs (repoSegs x.layout x.repoId) x.commit dirs name) :=
    ⟨by simp [linkSegs], fun s hs => (hlinkClean s hs).1⟩
  have hrepoNames : names x.repo = (repoSegs x.layout x.repoId).map String.ofList := by
    rw [Snapshot.repo, hfRepoRel_slash, names_slash]
    exact ⟨hne, fun s hs => ⟨(hrepo s hs).1.1, (hrepo s hs).1.2.2.2⟩⟩
  have hwords : String.ofList (ascii "snapshots") = "snapshots" ∧
      String.ofList (ascii "blobs") = "blobs" := by decide
  refine ⟨"snapshots" :: String.ofList x.commit :: dirs.map String.ofList, String.ofList name,
    ?_, ?_, rfl, isName_ofList hblob.1, ?_, fun node hfits hopen => ?_⟩
  · rw [hlink, names_slash hlinkSegs.pieces, hrepoNames]
    simp [linkSegs, hwords.1]
  · rw [hlink, targetSegs, names_ups _ (by simp) hdown]
    simp [hwords.2]
  · rw [hlink, targetSegs, linkTarget_slash _ (by simp) hdown, names_ups _ (by simp) hdown]
  · rw [hlink, names_slash hlinkSegs.pieces] at hfits hopen ⊢
    exact splitRelForWrite_slash hlinkSegs.some hlinkClean hfits hopen "link"

/-- Nothing is in the way between the directory of the link and the blob. -/
theorem Ready.passable {repo up : List String} {name blob : String}
    (hready : Ready s a h.tree root repo (repo ++ up ++ [name]) blob) :
    Files.Passable s a h.tree repo up ["blobs", blob] name := by
  have hway := hready.way
  have hdir := hready.dir
  have hspecial := hready.special
  have hfree := hready.free
  rw [List.dropLast_concat] at hway hfree
  rw [← List.append_assoc] at hdir hspecial
  exact ⟨hready.calm, hready.root, hready.dirs, hway, hready.there, hdir, hspecial,
    by simpa using hfree⟩

/-- The link of a file whose name has no control character, at no name that the node protects, is
made, and leads to the blob of the file. -/
theorem snapshotLink_resolves (hx : x.Valid uni) (hsha : ∀ t, IsHex 64 (hexSha t))
    (hready : Ready s a h.tree root (names x.repo) (names (x.link hexSha).1)
      (String.ofList (x.blob hexSha)))
    (hchars : ∀ c ∈ x.file.path, Files.badChar c = false)
    (hopen : ∀ c ∈ names (x.link hexSha).1, s.node.writeProtected c = false) :
    ∃ h', Files.fsSymlink s a (linkArgs root (x.link hexSha)) h = (.done (), h') ∧
      h'.tree.get (s.root ++ names (x.link hexSha).1) =
        some (.link (names (x.link hexSha).2)) ∧
      FileTree.realpath h'.tree (s.root ++ names (x.link hexSha).1) =
        s.root ++ names x.repo ++ ["blobs", String.ofList (x.blob hexSha)] := by
  obtain ⟨up, name, ht⟩ := texts_of_valid hx hsha hchars
  have hopens : s.node.openRoot (Files.arg (linkArgs root (x.link hexSha)) "root") true = .ok () :=
    hready.opens
  have hparts : Files.splitRelForWrite s.node
      (Files.asStr (Files.arg (linkArgs root (x.link hexSha)) "link")) "link" =
        .ok (names x.repo ++ up ++ [name]) := by
    rw [← ht.link]
    exact ht.parts s.node hready.fits hopen
  have hsegs : Files.linkTarget (Files.arg (linkArgs root (x.link hexSha)) "target") =
      .ok (List.replicate up.length ".." ++ ["blobs", String.ofList (x.blob hexSha)]) := by
    rw [← ht.target]
    exact ht.accepted
  have hproper : FileTree.Proper ["blobs", String.ofList (x.blob hexSha)] := by
    intro c hc
    rcases List.mem_pair.1 hc with rfl | rfl
    · exact ⟨by decide, by decide, by decide⟩
    · exact ht.blob
  have hpart : ¬up ++ [name] <+: ["blobs", String.ofList (x.blob hexSha)] := by
    intro hpre
    obtain ⟨rest, rfl⟩ := List.head?_eq_some_iff.1 ht.first
    rw [List.cons_append, List.cons_prefix_cons] at hpre
    exact absurd hpre.1 (by decide)
  rw [ht.link] at hready
  obtain ⟨_, h', hrun, hmade, hreal⟩ :=
    (Files.fsSymlink_total hready.passable hopens hparts hsegs hproper hpart).returns rfl
  refine ⟨h', hrun, ?_, ?_⟩
  · rw [ht.link, ht.target, ← List.append_assoc s.root]
    exact hmade
  · rw [ht.link, ← List.append_assoc s.root]
    exact hreal

end

/-! ## Three files -/

/-- A root with nothing in it. -/
def bareRoot : Files.Host :=
  ⟨[(["r"], .dir)], []⟩

/-- A file of a snapshot of `o/m`, with a hash. -/
def fileAt (path : Text) : Snapshot :=
  ⟨"hf-hub", "o/m", List.replicate 40 'a', ⟨path, some (List.replicate 64 'b')⟩⟩

/-- A hash that is not asked for. -/
def noHash (_ : Text) : Text :=
  List.replicate 64 '0'

theorem fileAt_valid {path : Text} (h : safeRelPath path) : (fileAt path).Valid fun _ => false := by
  have hid : checkRepoId (fun _ => false) "o/m" := by decide
  have hcommit : IsHex 40 (List.replicate 40 'a') := by decide
  refine ⟨hid, hcommit, h, ?_⟩
  rintro t ht
  obtain rfl := Option.some.inj ht
  exact .inr (by decide)

theorem noHash_hex (t : Text) : IsHex 64 (noHash t) := by
  have h : IsHex 64 (List.replicate 64 '0') := by decide
  exact h

theorem get_bareRoot {q : List String} (hq : q ≠ []) : bareRoot.tree.get (["r"] ++ q) = none := by
  obtain ⟨c, q, rfl⟩ := List.exists_cons_of_ne_nil hq
  simp [bareRoot, FileTree.Tree.get, Keyed.find]

/-- Nothing is in the way in a root with nothing in it. -/
theorem ready_bareRoot {root : Files.Value} {repo link : List String} {blob : String}
    (hlink : link ≠ []) (hfits : ∀ c ∈ link, c.utf8ByteSize ≤ 255) :
    Ready Files.gitSetup Files.quiet bareRoot.tree root repo link blob := by
  have hget {q : List String} (hq : q ≠ []) :
      bareRoot.tree.get (Files.gitSetup.root ++ q) = none := get_bareRoot hq
  refine ⟨rfl, fun _ _ => rfl, ?_, fun q hq => ?_, fun q hq _ => .inl (hget hq),
    fun q hq _ target => ?_, ?_, ?_, ?_, hfits⟩
  · intro c hc
    obtain rfl : c = "r" := by simpa [Files.gitSetup] using hc
    exact ⟨by decide, by decide, by decide⟩
  · rcases List.prefix_cons_iff.1 hq with rfl | ⟨q', rfl, hq'⟩
    · rfl
    · obtain rfl := List.prefix_nil.1 hq'
      rfl
  · rw [List.append_assoc, hget (by simp [hq])]
    simp
  · rw [hget hlink]
    simp
  · rw [hget hlink]
    simp
  · rw [List.append_assoc, hget (by simp)]

/-- The link of a file in a directory. -/
theorem link_in_directory :
    ∃ h', Files.fsSymlink Files.gitSetup Files.quiet
        (linkArgs (.str "r") ((fileAt "sub/a.bin").link noHash)) bareRoot = (.done (), h') ∧
      h'.tree.get (["r"] ++ names ((fileAt "sub/a.bin").link noHash).1) =
        some (.link (names ((fileAt "sub/a.bin").link noHash).2)) ∧
      FileTree.realpath h'.tree (["r"] ++ names ((fileAt "sub/a.bin").link noHash).1) =
        ["r"] ++ names (fileAt "sub/a.bin").repo ++
          ["blobs", String.ofList ((fileAt "sub/a.bin").blob noHash)] := by
  have hfits : (names ((fileAt "sub/a.bin").link noHash).1).all
      (fun c => c.utf8ByteSize ≤ 255 && c != ".git") = true := by decide +kernel
  have hchars : (ascii "sub/a.bin").any Files.badChar = false := by decide
  rw [List.all_eq_true] at hfits
  have hlinks (c : String) (hc : c ∈ names ((fileAt "sub/a.bin").link noHash).1) :
      c.utf8ByteSize ≤ 255 ∧ c ≠ ".git" := by
    simpa using hfits c hc
  refine @snapshotLink_resolves (fun _ => false) _ _ _ _ _ _ (fileAt_valid (by decide))
    noHash_hex (ready_bareRoot (by decide +kernel) fun c hc => (hlinks c hc).1)
    (fun c hc => ?_) fun c hc => ?_
  · simpa using List.any_eq_false.1 hchars c hc
  · simpa [Files.gitSetup, Files.gitNode] using (hlinks c hc).2

/-- The node refuses a link whose path it does not take. -/
theorem fsSymlink_refused {s : Files.Setup} {a : Files.Around} {root : Files.Value}
    {link : Text × Text} {h : Files.Host}
    (hparts : (Files.splitRelForWrite s.node (some (String.ofList link.1)) "link").toOption =
      none) : (Files.fsSymlink s a (linkArgs root link) h).1 ≠ .done () := by
  have hlink : Files.arg (linkArgs root link) "link" = .str (String.ofList link.1) := rfl
  rcases hr : Files.splitRelForWrite s.node (some (String.ofList link.1)) "link" with e | parts
  · unfold Files.fsSymlink
    rw [hlink, show Files.asStr (.str (String.ofList link.1)) = some _ from rfl, hr]
    rcases s.node.openRoot (Files.arg (linkArgs root link) "root") true with e' | _
    · intro hdone
      cases hdone
    · intro hdone
      cases hdone
  · rw [hr] at hparts
    cases hparts

/-- A name with a control character and a name that the node protects are safe for the hub, and
the node refuses their links. -/
theorem snapshotLink_refused :
    ((fileAt "a\x01b").Valid (fun _ => false) ∧
      Ready Files.gitSetup Files.quiet bareRoot.tree (.str "r") (names (fileAt "a\x01b").repo)
        (names ((fileAt "a\x01b").link noHash).1)
        (String.ofList ((fileAt "a\x01b").blob noHash)) ∧
      (Files.fsSymlink Files.gitSetup Files.quiet
        (linkArgs (.str "r") ((fileAt "a\x01b").link noHash)) bareRoot).1 ≠ .done ()) ∧
    (fileAt ".git/config").Valid (fun _ => false) ∧
      Ready Files.gitSetup Files.quiet bareRoot.tree (.str "r") (names (fileAt ".git/config").repo)
        (names ((fileAt ".git/config").link noHash).1)
        (String.ofList ((fileAt ".git/config").blob noHash)) ∧
      (Files.fsSymlink Files.gitSetup Files.quiet
        (linkArgs (.str "r") ((fileAt ".git/config").link noHash)) bareRoot).1 ≠ .done () := by
  have hfits (path : Text) (h : (names ((fileAt path).link noHash).1).all
      (fun c => c.utf8ByteSize ≤ 255) = true) :
      ∀ c ∈ names ((fileAt path).link noHash).1, c.utf8ByteSize ≤ 255 := fun c hc => by
    simpa using List.all_eq_true.1 h c hc
  refine ⟨⟨fileAt_valid (by decide), ready_bareRoot (by decide +kernel) (hfits _ ?_), ?_⟩,
    fileAt_valid (by decide), ready_bareRoot (by decide +kernel) (hfits _ ?_), ?_⟩
  · decide +kernel
  · exact fsSymlink_refused (by decide +kernel)
  · decide +kernel
  · exact fsSymlink_refused (by decide +kernel)

end SnapshotLinks

end EngineConsole
