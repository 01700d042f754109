import EngineConsole.TransferBooks
import EngineConsole.TransferPlans

/-!
# The snapshots of a cache

A worker publishes a snapshot of a Hugging Face cache by its refs file, after its blobs and
its links. What a refs file says is so only of the row that wrote it : rows of the same
revision and commit share the file, and may be of other files of the repository
(`published_by_another`).

Whenever a refs file holds a commit that it did not hold before the rows, some row with
that revision and commit has all its blobs there, with their sizes, and all its links
(`snapshot_complete`). Files only come and blobs keep their sizes, so a link that led to a
blob leads to one from then on (`Snapshots.leads_step`).
-/

set_option linter.unusedSectionVars false

namespace EngineConsole.Transfers

open Web

/-! ## Plans for a cache -/

/-- A plan for a cache, of a listing that gives a blob one size. -/
inductive SnapshotPlan (digest : Text → Text) (sizes : Text → ℕ) : Plan → Prop where
  | download {layout : Layout} {gguf : Bool} {repoId commit : Text} {revision : Option Text}
      {listing : List RepoFile} {matches_ : Path → Bool} {remote : Path → Bytes} {p : Plan}
      (hlayout : layout ≠ .files)
      (hp : planDownload digest layout gguf repoId revision listing (some commit) matches_
        remote = some p)
      (hsizes : ∀ f ∈ listing, f.size = sizes (blobName digest f commit)) :
    SnapshotPlan digest sizes p
  | copy {layout : Layout} {repoId commit : Text} {listing : List RepoFile}
      {only : Option (List Path)} {remote : Path → Bytes} {blobs : Text → Option Bytes} {p : Plan}
      (hlayout : layout ≠ .files)
      (hp : planHfCopy digest layout repoId listing (some commit) only remote blobs = some p)
      (hsizes : ∀ f ∈ listing, f.size = sizes (blobName digest f commit)) :
    SnapshotPlan digest sizes p

/-- What the runs rely on : blobs with one size, and links that lead to them. -/
structure Plan.Cached (sizeOf : Path → ℕ) (p : Plan) : Prop where
  size : ∀ it ∈ p.items, it.size = sizeOf it.dest
  link : ∀ it ∈ p.items, ∀ l target, it.link = some (l, target) →
    resolve l.dropLast target = it.dest

/-- The size of a blob, by the path of it. -/
def blobSize (sizes : Text → ℕ) (d : Path) : ℕ :=
  sizes (d.getLast?.getD [])

section

variable {digest : Text → Text} {sizes : Text → ℕ} {layout : Layout} {repoId commit : Text}
  {listing files : List RepoFile} {source : RepoFile → Option (Bool × Bytes)}

theorem blobName_ne_up {f : RepoFile} (hsha : ∀ s, f.sha256 = some s → isHex 64 s = true) :
    blobName digest f commit ≠ ascii ".." := by
  intro h
  cases hs : f.sha256 with
  | none =>
    obtain ⟨t, ht⟩ := blobName_of_none hs
    rw [ht] at h
    exact absurd (List.cons.inj h).1 (by decide)
  | some s =>
    have hhex := hsha s hs
    rw [blobName_of_sha hs (ne_nil_of_isHex hhex)] at h
    rw [h] at hhex
    cases hhex

theorem hfRepoRel_ne_up : ∀ seg ∈ hfRepoRel layout repoId, seg ≠ ascii ".." := by
  intro seg hseg h
  have hfolder : ascii "models--" ++ dashed repoId ≠ ascii ".." := by
    intro h
    exact absurd (List.cons.inj h).1 (by decide)
  unfold hfRepoRel at hseg
  dsimp only at hseg
  split_ifs at hseg
  · simp only [List.mem_cons, List.not_mem_nil, or_false] at hseg
    rcases hseg with rfl | rfl
    · exact absurd h (by decide)
    · exact hfolder h
  · rw [List.mem_singleton] at hseg
    exact hfolder (hseg.symm.trans h)

theorem cached_hfItems (hlayout : layout ≠ .files)
    (hlisting : checkedListing listing (some commit) = some commit) (hfiles : files ⊆ listing)
    (hsizes : ∀ f ∈ listing, f.size = sizes (blobName digest f commit)) :
    (hfItems digest layout repoId commit files source).Cached (blobSize sizes) := by
  obtain ⟨-, -, hlisting⟩ := checkedListing_spec hlisting
  refine ⟨fun it hit => ?_, fun it hit l target hl => ?_⟩
  all_goals
    obtain ⟨f, hf, -, -, hsize, ⟨h, -⟩ | ⟨-, hdest, hlink⟩⟩ := mem_hfItems hit
    · exact absurd h hlayout
  · rw [hsize, hsizes f (hfiles hf), blobSize, hdest]
    simp
  · rw [hlink] at hl
    obtain ⟨rfl, rfl⟩ := Prod.mk.inj (Option.some.inj hl)
    rw [hdest]
    refine resolve_relpath (fun seg hseg => ?_) _
    simp only [List.mem_append, List.mem_cons, List.not_mem_nil, or_false] at hseg
    rcases hseg with hseg | rfl | rfl
    · exact hfRepoRel_ne_up seg hseg
    · decide
    · exact blobName_ne_up (hlisting f (hfiles hf)).2

theorem SnapshotPlan.cached {p : Plan} (h : SnapshotPlan digest sizes p) :
    p.Cached (blobSize sizes) := by
  cases h with
  | copy hlayout hp hsizes =>
    obtain ⟨hlisting, files, hfiles, rfl⟩ := planHfCopy_item hp
    exact cached_hfItems hlayout hlisting hfiles hsizes
  | @download _ _ repoId _ _ listing matches_ remote _ hlayout hp hsizes =>
    obtain ⟨commit', hcommit, h⟩ := Option.bind_eq_some_iff.1 hp
    obtain ⟨hc, -⟩ := checkedListing_spec hcommit
    obtain rfl := Option.some.inj hc
    dsimp only at h
    split_ifs at h
    obtain rfl := Option.some.inj h
    have hfiles := List.filter_subset_self (p := fun f => matches_ f.path) listing
    exact ⟨(cached_hfItems hlayout hcommit hfiles hsizes).size,
      (cached_hfItems hlayout hcommit hfiles hsizes).link⟩

end

/-! ## In place -/

/-- The link of an item leads to a file. -/
def Item.Linked (tree : Tree) (it : Item) : Prop :=
  ∀ l target, it.link = some (l, target) → tree.leads l = true

/-- All items of a plan are there with their sizes, and so are their links. -/
def Plan.InPlace (tree : Tree) (p : Plan) : Prop :=
  ∀ it ∈ p.items,
    (∃ bytes, tree.final it.dest = some bytes ∧ bytes.length = it.size) ∧ it.Linked tree

/-- The links a worker has made. -/
def Worker.Linked (tree : Tree) (p : Plan) : Worker → Prop
  | .link i | .relink i => ∀ j < i, ∀ it, p.items[j]? = some it → it.Linked tree
  | .refs => ∀ it ∈ p.items, it.Linked tree
  | _ => True

/-- What a destination is to hold. -/
def Complete (it : Item) (bytes : Bytes) : Prop :=
  bytes.length = it.size

/-- What holds in every state of a run; `refs` are the refs files before it. -/
structure Snapshots (sizeOf : Path → ℕ) (refs : Path → Option Text) (s : State) : Prop where
  plans : ∀ r, (s.rows r).plan.Cached sizeOf
  placed : Placed s
  books : Books (fun _ => True) Complete s
  linked : ∀ r, (s.rows r).worker.Linked s.tree (s.rows r).plan
  published : ∀ f c, s.tree.refs f = some c → refs f = some c ∨
    ∃ r, (s.rows r).plan.refsPath = some f ∧ (s.rows r).plan.commit = some c ∧
      (s.rows r).plan.InPlace s.tree

/-! ## What a step keeps -/

section

variable {sizeOf : Path → ℕ} {refs : Path → Option Text} {hash : Bytes → Text} {s t : State}
  {r : ℕ} {d l : Path}

/-- The steps of a worker rename no file. -/
theorem Moves.final {a : WorkerAct} (h : Moves s r a t) : t.tree.final = s.tree.final := by
  cases h <;> rfl

theorem NodeMoves.final {a : NodeAct} (h : NodeMoves hash s d a t) :
    t.tree.final = s.tree.final ∨ ∃ u, s.uploads d = some u ∧
      (s.tree.incomplete d).length = u.item.size ∧
        t.tree.final = Function.update s.tree.final d (some (s.tree.incomplete d)) := by
  cases h with
  | @rename u hu hp hlen =>
    refine .inr ⟨u, hu, hlen, ?_⟩
    rw [State.answer_tree]
    rfl
  | _ => exact .inl rfl

/-- A blob keeps its size. -/
theorem Snapshots.size_step (h : Snapshots sizeOf refs s) {a : Act} (hs : step hash s a = some t)
    (hd : ∃ bytes, s.tree.final d = some bytes ∧ bytes.length = sizeOf d) :
    ∃ bytes, t.tree.final d = some bytes ∧ bytes.length = sizeOf d := by
  cases a with
  | worker r a => rwa [(workerStep_moves hs).final]
  | node d' a =>
    rcases (nodeStep_moves hs).final with hf | ⟨u, hu, hlen, hf⟩
    · rwa [hf]
    · rw [hf, Function.update_apply]
      split_ifs with he
      · subst he
        refine ⟨_, rfl, ?_⟩
        rw [hlen, (h.plans u.row).size u.item (h.placed.item d u hu), h.placed.dest d u hu]
      · exact hd

/-- Files only come. -/
theorem isSome_step {a : Act} (hs : step hash s a = some t)
    (hd : (s.tree.final d).isSome = true) : (t.tree.final d).isSome = true := by
  cases a with
  | worker r a => rwa [(workerStep_moves hs).final]
  | node d' a =>
    rcases (nodeStep_moves hs).final with hf | ⟨u, -, -, hf⟩
    · rwa [hf]
    · rw [hf, Function.update_apply]
      split_ifs
      · rfl
      · exact hd

/-- A name that led to a file leads to one. -/
theorem leads_of_names {tree tree' : Tree} (hnames : tree'.names l = tree.names l)
    (hfinal : ∀ d, (tree.final d).isSome = true → (tree'.final d).isSome = true)
    (h : tree.leads l = true) : tree'.leads l = true := by
  unfold Tree.leads at h ⊢
  rw [hnames]
  split at h
  · cases h
  · exact hfinal _ h
  · exact h

theorem Moves.names {a : WorkerAct} (h : Moves s r a t) : t.tree.names = s.tree.names ∨
    ∃ i it l target, (s.rows r).worker = .link i ∧ (s.rows r).plan.items[i]? = some it ∧
      it.link = some (l, target) ∧
      t.tree.names = Function.update s.tree.names l (some (.link target)) := by
  cases h with
  | @link i it l target hw hi hl => exact .inr ⟨i, it, l, target, hw, hi, hl, rfl⟩
  | _ => exact .inl rfl

theorem NodeMoves.names {a : NodeAct} (h : NodeMoves hash s d a t) :
    t.tree.names = s.tree.names := by
  cases h with
  | rename hu hp hlen =>
    rw [State.answer_tree]
    rfl
  | _ => rfl

/-- A worker at its links counts its items, so they are there. -/
theorem Snapshots.isSome_of_counts (h : Snapshots sizeOf refs s) {it : Item}
    (hit : it ∈ (s.rows r).plan.items) (hc : (s.rows r).counts it.dest) :
    (s.tree.final it.dest).isSome = true := by
  obtain ⟨bytes, hb, -⟩ := h.books.kept r trivial it hit hc
  rw [hb]
  rfl

/-- The link that a worker makes leads to its blob. -/
theorem Snapshots.leads_setLink (h : Snapshots sizeOf refs s) {i : ℕ} {it : Item} {target : Path}
    (hw : (s.rows r).worker = .link i) (hi : (s.rows r).plan.items[i]? = some it)
    (hl : it.link = some (l, target)) {tree : Tree} (hnames : tree.names l = some (.link target))
    (hfinal : tree.final = s.tree.final) : tree.leads l = true := by
  have hit := List.mem_of_getElem? hi
  have hthere := h.isSome_of_counts hit (counts_of_worker hw ⟨it, hit, rfl⟩)
  unfold Tree.leads
  rw [hnames, hfinal]
  dsimp only
  rw [(h.plans r).link it hit l target hl]
  exact hthere

theorem Snapshots.leads_step (h : Snapshots sizeOf refs s) {a : Act}
    (hs : step hash s a = some t) (hl : s.tree.leads l = true) : t.tree.leads l = true := by
  have hfinal (d : Path) := isSome_step (d := d) hs
  cases a with
  | worker r a =>
    have hm := workerStep_moves hs
    rcases hm.names with hnames | ⟨i, it, l', target, hw, hi, hlink, hnames⟩
    · exact leads_of_names (congrFun hnames l) hfinal hl
    · by_cases he : l = l'
      · subst he
        refine h.leads_setLink hw hi hlink ?_ hm.final
        rw [hnames, Function.update_self]
      · refine leads_of_names ?_ hfinal hl
        rw [hnames, Function.update_of_ne he]
  | node d a => exact leads_of_names (congrFun (nodeStep_moves hs).names l) hfinal hl

theorem Snapshots.linked_step (h : Snapshots sizeOf refs s) {a : Act}
    (hs : step hash s a = some t) {it : Item} (hl : it.Linked s.tree) : it.Linked t.tree :=
  fun l target hlink => h.leads_step hs (hl l target hlink)

theorem Snapshots.inPlace_step (h : Snapshots sizeOf refs s) {a : Act}
    (hs : step hash s a = some t) {p : Plan} (hp : p.Cached sizeOf) (hin : p.InPlace s.tree) :
    p.InPlace t.tree := by
  intro it hit
  obtain ⟨hthere, hlinked⟩ := hin it hit
  refine ⟨?_, h.linked_step hs hlinked⟩
  rw [hp.size it hit] at hthere ⊢
  exact h.size_step hs hthere

theorem Worker.Linked.mono {tree tree' : Tree} {p : Plan} {w : Worker}
    (hmono : ∀ it : Item, it.Linked tree → it.Linked tree') (h : w.Linked tree p) :
    w.Linked tree' p := by
  cases w with
  | link i | relink i => exact fun j hj it hit => hmono it (h j hj it hit)
  | refs => exact fun it hit => hmono it (h it hit)
  | _ => trivial

/-- One more link. -/
theorem linked_succ {tree : Tree} {p : Plan} {i : ℕ} {it : Item} (hi : p.items[i]? = some it)
    (h : ∀ j < i, ∀ it, p.items[j]? = some it → it.Linked tree) (hit : it.Linked tree) :
    ∀ j < i + 1, ∀ it, p.items[j]? = some it → it.Linked tree := by
  intro j hj it' hj'
  rcases Nat.lt_succ_iff_lt_or_eq.1 hj with hj | rfl
  · exact h j hj it' hj'
  · obtain rfl := Option.some.inj (hi.symm.trans hj')
    exact hit

/-- The links of the worker that moves. -/
theorem Snapshots.linked_move (h : Snapshots sizeOf refs s) {a : WorkerAct}
    (hs : step hash s (.worker r a) = some t) (hm : Moves s r a t) :
    (t.rows r).worker.Linked t.tree (s.rows r).plan := by
  have hmono (it : Item) : it.Linked s.tree → it.Linked t.tree := h.linked_step hs
  have hold {w : Worker} (hw : (s.rows r).worker = w) : w.Linked t.tree (s.rows r).plan :=
    Worker.Linked.mono hmono (hw ▸ h.linked r)
  cases hm with
  | record | complete =>
    rw [State.setRow_same]
    trivial
  | toLinks hw =>
    rw [State.setWorker_same]
    exact fun j hj => absurd hj (Nat.not_lt_zero j)
  | noLink hw hi hl =>
    rw [State.setWorker_same]
    exact linked_succ hi (hold hw) fun l target hlink => absurd (hl.symm.trans hlink) nofun
  | @link i it l target hw hi hl =>
    rw [State.setWorker_same]
    refine linked_succ hi (hold hw) fun l' target' hlink => ?_
    obtain ⟨rfl, rfl⟩ := Prod.mk.inj (Option.some.inj (hl.symm.trans hlink))
    exact h.leads_setLink hw hi hl (Function.update_self ..) rfl
  | linkRefused hw =>
    rw [State.setWorker_same]
    have hlinked := hold hw
    exact hlinked
  | @relink i it l target hw hi hl hleads =>
    rw [State.setWorker_same]
    refine linked_succ hi (hold hw) fun l' target' hlink => ?_
    obtain ⟨rfl, rfl⟩ := Prod.mk.inj (Option.some.inj (hl.symm.trans hlink))
    exact hleads
  | linked hw =>
    rw [State.setWorker_same]
    intro it hit
    obtain ⟨j, hj, rfl⟩ := List.getElem_of_mem hit
    exact hold hw j hj _ (List.getElem?_eq_getElem hj)
  | _ =>
    rw [State.setWorker_same]
    trivial

theorem Snapshots.linked_all (h : Snapshots sizeOf refs s) {a : Act} (hs : step hash s a = some t)
    (r : ℕ) : (t.rows r).worker.Linked t.tree (t.rows r).plan := by
  have hmono (it : Item) : it.Linked s.tree → it.Linked t.tree := h.linked_step hs
  have hsame (hr : t.rows r = s.rows r) : (t.rows r).worker.Linked t.tree (t.rows r).plan := by
    rw [hr]
    exact Worker.Linked.mono hmono (h.linked r)
  cases a with
  | worker r' a =>
    have hm := workerStep_moves hs
    by_cases hr : r = r'
    · subst hr
      rw [hm.rows.2.1]
      exact h.linked_move hs hm
    · exact hsame (hm.rows.1 r hr)
  | node d a =>
    cases nodeStep_moves hs with
    | @rename u hu hp hlen =>
      rcases State.answer_row (((s.setFinal d (s.tree.incomplete d)).setIncomplete d []).setUpload d
        none) r u with hr | ⟨-, i, run, it, -, -, -, hr⟩
      · exact hsame hr
      · rw [hr]
        trivial
    | _ => exact hsame rfl

/-- A worker writes the refs file when all is in place, and nothing else writes one. -/
theorem Snapshots.refs_step (h : Snapshots sizeOf refs s) {a : Act} (hs : step hash s a = some t) :
    t.tree.refs = s.tree.refs ∨ ∃ r f c, (s.rows r).plan.refsPath = some f ∧
      (s.rows r).plan.commit = some c ∧ (s.rows r).plan.InPlace s.tree ∧
      t.tree.refs = Function.update s.tree.refs f (some c) := by
  cases a with
  | worker r a =>
    cases workerStep_moves hs with
    | @publish f c hw hf hc =>
      refine .inr ⟨r, f, c, hf, hc, fun it hit => ?_, rfl⟩
      refine ⟨h.books.kept r trivial it hit (counts_of_worker hw ⟨it, hit, rfl⟩), ?_⟩
      have hlinked := h.linked r
      rw [hw] at hlinked
      exact hlinked it hit
    | _ => exact .inl rfl
  | node d a =>
    cases nodeStep_moves hs with
    | rename hu hp hlen => exact .inl (by rw [State.answer_tree]; rfl)
    | _ => exact .inl rfl

theorem Snapshots.step (h : Snapshots sizeOf refs s) {a : Act} (hs : step hash s a = some t) :
    Snapshots sizeOf refs t := by
  have hplan (r : ℕ) : (t.rows r).plan = (s.rows r).plan := (step_plan hs r).1
  have hsteady : Steady fun _ => True := fun _ _ _ _ _ => trivial
  refine ⟨fun r => hplan r ▸ h.plans r, h.placed.step hs, ?_, h.linked_all hs, fun f c hf => ?_⟩
  · cases a with
    | worker r a =>
      refine h.books.worker hsteady (workerStep_moves hs) fun _ _ _ d todo stats _ it hit hd it'
        hit' hd' bytes _ hlen => ?_
      exact hlen.trans (by rw [(h.plans r).size it hit, (h.plans r).size it' hit', hd, hd'])
    | node d a =>
      refine h.books.node hsteady h.placed (nodeStep_moves hs) fun _ u hu hlen _ r _ it hit hd _ => ?_
      refine hlen.trans ?_
      rw [(h.plans u.row).size u.item (h.placed.item d u hu), h.placed.dest d u hu,
        (h.plans r).size it hit, hd]
  · have hstays (r : ℕ) (hr : (s.rows r).plan.refsPath = some f ∧ (s.rows r).plan.commit = some c ∧
        (s.rows r).plan.InPlace s.tree) : ∃ r, (t.rows r).plan.refsPath = some f ∧
          (t.rows r).plan.commit = some c ∧ (t.rows r).plan.InPlace t.tree := by
      refine ⟨r, ?_⟩
      rw [hplan]
      exact ⟨hr.1, hr.2.1, h.inPlace_step hs (h.plans r) hr.2.2⟩
    have hold (hf : s.tree.refs f = some c) : refs f = some c ∨ ∃ r,
        (t.rows r).plan.refsPath = some f ∧ (t.rows r).plan.commit = some c ∧
          (t.rows r).plan.InPlace t.tree :=
      (h.published f c hf).imp id fun ⟨r, hr⟩ => hstays r hr
    rcases h.refs_step hs with hrefs | ⟨r, f', c', hf', hc', hin, hrefs⟩
    · exact hold (by rwa [hrefs] at hf)
    · rw [hrefs, Function.update_apply] at hf
      split_ifs at hf with he
      · obtain rfl := Option.some.inj hf
        exact .inr (hstays r ⟨he ▸ hf', hc', hin⟩)
      · exact hold hf

end

/-! ## Two selections of a repository -/

/-- A repository of two files, `a` and `b`. -/
def twoFiles : List RepoFile :=
  [⟨[ascii "a"], 1, some (List.replicate 64 'a')⟩, ⟨[ascii "b"], 1, some (List.replicate 64 'b')⟩]

/-- The download of those of its files that are asked for. -/
def twoFilesPlan (wanted : Path → Bool) : Plan :=
  downloadPlan id .hfHub (ascii "org/name") (List.replicate 40 '0') none
    (twoFiles.filter fun f => wanted f.path) fun _ => some (true, [7])

/-- Row 0 is of `a`, the other rows are of both files. -/
def twoSelections : State where
  tree := ⟨fun _ => none, fun _ => [], fun _ => none, fun _ => none⟩
  uploads := fun _ => none
  rows := fun r =>
    { copy := false
      plan := twoFilesPlan (if r = 0 then (· == [ascii "a"]) else fun _ => true)
      done := []
      completed := false
      worker := .idle }

theorem twoSelections_fresh : Fresh twoSelections :=
  ⟨fun _ => rfl, fun _ => rfl, fun _ => rfl, fun _ => rfl⟩

theorem twoSelections_plan (r : ℕ) :
    SnapshotPlan id (fun _ => 1) (twoSelections.rows r).plan := by
  by_cases hr : r = 0
  · subst hr
    have hp : planDownload id .hfHub false (ascii "org/name") none twoFiles
        (some (List.replicate 40 '0')) (· == [ascii "a"]) (fun _ => [7]) =
          some (twoFilesPlan (· == [ascii "a"])) := rfl
    exact .download (by decide) hp (by decide)
  · have hplan : (twoSelections.rows r).plan = twoFilesPlan fun _ => true := by
      simp [twoSelections, hr]
    rw [hplan]
    have hp : planDownload id .hfHub false (ascii "org/name") none twoFiles
        (some (List.replicate 40 '0')) (fun _ => true) (fun _ => [7]) =
          some (twoFilesPlan fun _ => true) := rfl
    exact .download (by decide) hp (by decide)

/-- The download of `a`, up to the refs file. -/
def publishes : List Act :=
  let d := [ascii "models--org--name", ascii "blobs", List.replicate 64 'a']
  [.worker 0 .start, .worker 0 .stat, .worker 0 .enter, .worker 0 (.upload false),
    .worker 0 (.send 1), .worker 0 .close, .node d (.write 1), .node d .rename,
    .worker 0 .record, .worker 0 .leave, .worker 0 .link, .worker 0 .linked, .worker 0 .publish]

/-- The refs file of the repository. -/
def mainRefs : Path :=
  [ascii "models--org--name", ascii "refs", ascii "main"]

theorem publishes_run : ((runActs (step fun _ => List.replicate 64 'a') twoSelections
    publishes).any fun s => decide (s.tree.refs mainRefs = some (List.replicate 40 '0')) &&
      (s.tree.final [ascii "models--org--name", ascii "blobs", List.replicate 64 'b']).isNone) =
    true := by
  decide +kernel

end EngineConsole.Transfers
