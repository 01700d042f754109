import EngineConsole.Transfers

/-!
# The plans of transfers

What the planners promise about the items they make. In the plan of a copy every item
declares the size of its source (`CopyPlan.sized`), and items with the same destination have
the same source (`CopyPlan.coherent`). In a snapshot every link leads to its blob
(`resolve_relpath`).

`CopyPlan` takes the services outside as they are documented : a listing names each file
once and gives its size, and the digests that name the small files of a listing differ.
-/

set_option linter.unusedSectionVars false

namespace EngineConsole.Transfers

open Web

/-! ## Relative paths -/

theorem resolve_append {p : Path} (hp : ∀ seg ∈ p, seg ≠ ascii "..") :
    ∀ {base : Path}, resolve base p = base ++ p := by
  induction p with
  | nil => exact fun {base} => (List.append_nil base).symm
  | cons seg p ih =>
    intro base
    rw [resolve, if_neg (hp seg List.mem_cons_self),
      ih fun seg hseg => hp seg (List.mem_cons_of_mem _ hseg), List.append_assoc]
    rfl

/-- As many steps up as there are segments undo them. -/
theorem resolve_up (p : Path) : ∀ (start base : Path),
    resolve (base ++ start) ((start.map fun _ => ascii "..") ++ p) = resolve base p := by
  intro start
  induction start using List.reverseRecOn with
  | nil => intro base; simp
  | append_singleton start seg ih =>
    intro base
    have hup : ((start ++ [seg]).map fun _ => ascii "..") ++ p =
        ascii ".." :: ((start.map fun _ => ascii "..") ++ p) := by
      simp only [List.map_const', List.length_append, List.length_singleton,
        List.replicate_succ, List.cons_append]
    rw [hup, resolve, if_pos rfl, ← List.append_assoc, List.dropLast_concat]
    exact ih base

theorem resolve_relpath_append {p : Path} (hp : ∀ seg ∈ p, seg ≠ ascii "..") :
    ∀ (start base : Path), resolve (base ++ start) (relpath p start) = base ++ p := by
  induction p with
  | nil =>
    intro start base
    cases start with
    | nil => rw [relpath, List.append_nil, resolve]
    | cons y start =>
      have h := resolve_up [] (y :: start) base
      rw [List.append_nil] at h
      rw [relpath, h, List.append_nil]
      · rfl
      · exact fun h => nomatch h
  | cons x p ih =>
    intro start base
    cases start with
    | nil =>
      rw [List.append_nil]
      exact resolve_append hp
    | cons y start =>
      rw [relpath]
      split_ifs with hxy
      · subst hxy
        have h := ih (fun seg hseg => hp seg (List.mem_cons_of_mem _ hseg)) start (base ++ [x])
        simpa using h
      · rw [resolve_up]
        exact resolve_append hp

/-- The relative path to `p` leads to `p`. -/
theorem resolve_relpath {p : Path} (hp : ∀ seg ∈ p, seg ≠ ascii "..") (start : Path) :
    resolve start (relpath p start) = p :=
  resolve_relpath_append hp start []

/-! ## Items -/

section

variable {digest : Text → Text} {layout : Layout} {repoId commit : Text} {files : List RepoFile}
  {source : RepoFile → Option (Bool × Bytes)} {it : Item}

theorem mem_hfItems (h : it ∈ (hfItems digest layout repoId commit files source).items) :
    ∃ f ∈ files, ∃ fromHf, source f = some (fromHf, it.source) ∧ it.size = f.size ∧
      (layout = .files ∧ it.dest = filesDir repoId :: f.path ∧ it.link = none ∨
        layout ≠ .files ∧
          it.dest = hfRepoRel layout repoId ++ [ascii "blobs", blobName digest f commit] ∧
          it.link = some (snapshotLink (hfRepoRel layout repoId) commit f.path
            (blobName digest f commit))) := by
  obtain ⟨f, hf, h⟩ := List.mem_filterMap.1 h
  obtain ⟨⟨fromHf, bytes⟩, hs, rfl⟩ := Option.map_eq_some_iff.1 h
  refine ⟨f, hf, fromHf, ?_, ?_, ?_⟩
  · dsimp only
    split_ifs <;> exact hs
  · dsimp only
    split_ifs <;> rfl
  · by_cases hl : layout = .files
    · simp [hl]
    · simp [hl]

/-- Items with the same destination have the same source. -/
def Plan.Coherent (p : Plan) : Prop :=
  ∀ it ∈ p.items, ∀ it' ∈ p.items, it.dest = it'.dest → it.source = it'.source

/-- The items declare the size of their source. -/
def Plan.Sized (p : Plan) : Prop :=
  ∀ it ∈ p.items, it.size = it.source.length

end

/-! ## Plans of copies -/

theorem exists_of_mem_mapM {α β : Type*} {g : α → Option β} {ys : List β} {y : β} :
    ∀ {xs : List α}, xs.mapM g = some ys → y ∈ ys → ∃ x ∈ xs, g x = some y := by
  intro xs
  induction xs generalizing ys with
  | nil =>
    intro h hy
    obtain rfl : [] = ys := by simpa using h
    cases hy
  | cons x xs ih =>
    intro h hy
    rw [List.mapM_cons] at h
    obtain ⟨y', hy', h⟩ := Option.bind_eq_some_iff.1 h
    obtain ⟨ys', hys', h⟩ := Option.bind_eq_some_iff.1 h
    obtain rfl := Option.some.inj h
    rcases List.mem_cons.1 hy with rfl | hy
    · exact ⟨x, List.mem_cons_self, hy'⟩
    · obtain ⟨x', hx', hg⟩ := ih hys' hy
      exact ⟨x', List.mem_cons_of_mem _ hx', hg⟩

theorem planGgufCopy_item {rels : List Path} {stat : Path → Option Bytes} {p : Plan}
    (h : planGgufCopy rels stat = some p) {it : Item} (hit : it ∈ p.items) :
    stat it.dest = some it.source ∧ it.size = it.source.length := by
  obtain ⟨items, hitems, rfl⟩ := Option.map_eq_some_iff.1 h
  obtain ⟨rel, -, hrel⟩ := exists_of_mem_mapM hitems hit
  obtain ⟨bytes, hbytes, rfl⟩ := Option.map_eq_some_iff.1 hrel
  exact ⟨hbytes, rfl⟩

theorem planPlainCopy_item {rel : Path} {name : Text} {files size : ℕ}
    {found : List (Path × Bytes)} {p : Plan}
    (h : planPlainCopy rel name files size found = some p) {it : Item} (hit : it ∈ p.items) :
    ∃ f ∈ found, it.dest = plainDirname rel name :: f.1 ∧ it.source = f.2 ∧
      it.size = it.source.length := by
  unfold planPlainCopy at h
  split_ifs at h
  obtain rfl := Option.some.inj h
  obtain ⟨f, hf, rfl⟩ := List.mem_map.1 hit
  exact ⟨f, hf, rfl, rfl, rfl⟩

theorem ne_nil_of_isHex {n : ℕ} {t : Text} (h : isHex (n + 1) t = true) : t ≠ [] := by
  rintro rfl
  simp [isHex] at h

theorem checkedListing_spec {files : List RepoFile} {sha : Option Text} {commit : Text}
    (h : checkedListing files sha = some commit) : sha = some commit ∧ isHex 40 commit = true ∧
      ∀ f ∈ files, safeRelPath f.path = true ∧ ∀ s, f.sha256 = some s → isHex 64 s = true := by
  obtain ⟨sha, rfl, hif⟩ := Option.bind_eq_some_iff.1 h
  split_ifs at hif with hok
  obtain rfl := Option.some.inj hif
  rw [Bool.and_eq_true, List.all_eq_true] at hok
  refine ⟨rfl, hok.1, fun f hf => ?_⟩
  have hf := hok.2 f hf
  rw [Bool.and_eq_true] at hf
  refine ⟨hf.1, fun s hs => ?_⟩
  rw [hs] at hf
  exact hf.2

section

variable {digest : Text → Text} {f : RepoFile} {commit s : Text} {remote : Path → Bytes}
  {blobs : Text → Option Bytes}

theorem blobName_of_sha (hs : f.sha256 = some s) (hne : s ≠ []) :
    blobName digest f commit = s := by
  have : f.sha256.filter (!·.isEmpty) = some s := by simp [hs, hne]
  rw [blobName, this]

theorem hfCopySource_of_sha (hs : f.sha256 = some s) (hne : s ≠ []) {b : Bool} {bytes : Bytes}
    (h : hfCopySource remote blobs f = some (b, bytes)) :
    blobs s = some bytes ∧ f.size = bytes.length := by
  have : f.sha256.filter (!·.isEmpty) = some s := by simp [hs, hne]
  rw [hfCopySource, this] at h
  obtain ⟨bytes', hb, h⟩ := Option.map_eq_some_iff.1 h
  obtain ⟨-, rfl⟩ := Prod.mk.inj h
  obtain ⟨hb, hlen⟩ := Option.filter_eq_some_iff.1 hb
  exact ⟨hb, (of_decide_eq_true hlen).symm⟩

theorem blobName_of_none (hs : f.sha256 = none) : ∃ t, blobName digest f commit =
    ascii "nolfs-" ++ t := by
  rw [blobName, hs]
  exact ⟨_, rfl⟩

theorem hfCopySource_of_none (hs : f.sha256 = none) {b : Bool} {bytes : Bytes}
    (h : hfCopySource remote blobs f = some (b, bytes)) : bytes = remote f.path := by
  rw [hfCopySource, hs] at h
  exact (Prod.mk.inj (Option.some.inj h)).2.symm

/-- No digest has the name of a small file. -/
theorem not_isHex_nolfs {n : ℕ} (t : Text) : isHex n (ascii "nolfs-" ++ t) = false := by
  have : ascii "nolfs-" ++ t = 'n' :: (ascii "olfs-" ++ t) := rfl
  rw [this, isHex, List.all_cons]
  simp

end

/-- A plan a copy is run with. -/
inductive CopyPlan (digest : Text → Text) : Plan → Prop where
  | hf {layout : Layout} {repoId commit : Text} {listing : List RepoFile}
      {only : Option (List Path)} {remote : Path → Bytes} {blobs : Text → Option Bytes} {p : Plan}
      (hp : planHfCopy digest layout repoId listing (some commit) only remote blobs = some p)
      (hnames : (listing.map RepoFile.path).Nodup)
      (hsizes : ∀ f ∈ listing, f.sha256 = none → f.size = (remote f.path).length)
      (hdigest : ∀ f ∈ listing, ∀ f' ∈ listing, f.sha256 = none → f'.sha256 = none →
        blobName digest f commit = blobName digest f' commit → f.path = f'.path) :
    CopyPlan digest p
  | gguf {rels : List Path} {stat : Path → Option Bytes} {p : Plan}
      (hp : planGgufCopy rels stat = some p) : CopyPlan digest p
  | plain {rel : Path} {name : Text} {files size : ℕ} {found : List (Path × Bytes)}
      {stat : Path → Option Bytes} {p : Plan} (hfound : ∀ f ∈ found, stat f.1 = some f.2)
      (hp : planPlainCopy rel name files size found = some p) : CopyPlan digest p

theorem planHfCopy_item {digest : Text → Text} {layout : Layout} {repoId commit : Text}
    {listing : List RepoFile} {only : Option (List Path)} {remote : Path → Bytes}
    {blobs : Text → Option Bytes} {p : Plan}
    (h : planHfCopy digest layout repoId listing (some commit) only remote blobs = some p) :
    checkedListing listing (some commit) = some commit ∧ ∃ files ⊆ listing,
      p = hfItems digest layout repoId commit files (hfCopySource remote blobs) := by
  obtain ⟨commit', hcommit, h⟩ := Option.bind_eq_some_iff.1 h
  obtain ⟨hc, -⟩ := checkedListing_spec hcommit
  obtain rfl := Option.some.inj hc
  dsimp only at h
  split_ifs at h
  exact ⟨hcommit, _, List.filter_subset_self _, (Option.some.inj h).symm⟩

theorem CopyPlan.sized {digest : Text → Text} {p : Plan} (h : CopyPlan digest p) : p.Sized := by
  intro it hit
  cases h with
  | gguf hp => exact (planGgufCopy_item hp hit).2
  | plain _ hp =>
    obtain ⟨-, -, -, -, hsize⟩ := planPlainCopy_item hp hit
    exact hsize
  | hf hp hnames hsizes hdigest =>
    obtain ⟨hlisting, files, hfiles, rfl⟩ := planHfCopy_item hp
    obtain ⟨f, hf, fromHf, hs, hsize, -⟩ := mem_hfItems hit
    have hmem := hfiles hf
    obtain ⟨-, -, hlisting⟩ := checkedListing_spec hlisting
    cases hsha : f.sha256 with
    | none => rw [hsize, hsizes f hmem hsha, hfCopySource_of_none hsha hs]
    | some s =>
      have hne := ne_nil_of_isHex ((hlisting f hmem).2 s hsha)
      exact hsize.trans (hfCopySource_of_sha hsha hne hs).2

theorem CopyPlan.coherent {digest : Text → Text} {p : Plan} (h : CopyPlan digest p) :
    p.Coherent := by
  intro it hit it' hit' hd
  cases h with
  | gguf hp =>
    have hs := (planGgufCopy_item hp hit).1
    rw [hd, (planGgufCopy_item hp hit').1] at hs
    exact (Option.some.inj hs).symm
  | plain hfound hp =>
    obtain ⟨f, hf, hfd, hfs, -⟩ := planPlainCopy_item hp hit
    obtain ⟨f', hf', hfd', hfs', -⟩ := planPlainCopy_item hp hit'
    have hname : f.1 = f'.1 := (List.cons.inj (hfd.symm.trans (hd.trans hfd'))).2
    have hs := hfound f hf
    rw [hname, hfound f' hf'] at hs
    rw [hfs, hfs', Option.some.inj hs]
  | @hf _ _ commit _ _ _ _ _ hp hnames hsizes hdigest =>
    obtain ⟨hlisting, files, hfiles, rfl⟩ := planHfCopy_item hp
    obtain ⟨-, -, hlisting⟩ := checkedListing_spec hlisting
    obtain ⟨f, hf, b, hs, -, hdest⟩ := mem_hfItems hit
    obtain ⟨f', hf', b', hs', -, hdest'⟩ := mem_hfItems hit'
    have hmem := hfiles hf
    have hmem' := hfiles hf'
    have hsame (hpath : f.path = f'.path) : it.source = it'.source := by
      obtain rfl := List.inj_on_of_nodup_map hnames hmem hmem' hpath
      exact (Prod.mk.inj (Option.some.inj (hs.symm.trans hs'))).2
    rcases hdest with ⟨hl, hdest, -⟩ | ⟨hl, hdest, -⟩
    · rcases hdest' with ⟨-, hdest', -⟩ | ⟨hl', -⟩
      · exact hsame (List.cons.inj (hdest.symm.trans (hd.trans hdest'))).2
      · exact absurd hl hl'
    rcases hdest' with ⟨hl', -⟩ | ⟨-, hdest', -⟩
    · exact absurd hl' hl
    have hblob : blobName digest f commit = blobName digest f' commit := by
      have := List.append_cancel_left (hdest.symm.trans (hd.trans hdest'))
      simpa using this
    cases hsha : f.sha256 with
    | none =>
      cases hsha' : f'.sha256 with
      | none => exact hsame (hdigest f hmem f' hmem' hsha hsha' hblob)
      | some s' =>
        have hhex := (hlisting f' hmem').2 s' hsha'
        obtain ⟨t, ht⟩ := blobName_of_none hsha
        rw [← blobName_of_sha hsha' (ne_nil_of_isHex hhex), ← hblob, ht, not_isHex_nolfs] at hhex
        cases hhex
    | some s =>
      have hhex := (hlisting f hmem).2 s hsha
      cases hsha' : f'.sha256 with
      | none =>
        obtain ⟨t, ht⟩ := blobName_of_none hsha'
        rw [← blobName_of_sha hsha (ne_nil_of_isHex hhex), hblob, ht, not_isHex_nolfs] at hhex
        cases hhex
      | some s' =>
        have hhex' := (hlisting f' hmem').2 s' hsha'
        rw [blobName_of_sha hsha (ne_nil_of_isHex hhex),
          blobName_of_sha hsha' (ne_nil_of_isHex hhex')] at hblob
        have hb := (hfCopySource_of_sha hsha (ne_nil_of_isHex hhex) hs).1
        rw [hblob, (hfCopySource_of_sha hsha' (ne_nil_of_isHex hhex') hs').1] at hb
        exact (Option.some.inj hb).symm

end EngineConsole.Transfers
