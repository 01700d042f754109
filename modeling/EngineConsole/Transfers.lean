import EngineConsole.ModelRefs
import EngineConsole.Transition

/-!
# The transfers of the download workers

What a worker does with its plan (`Inner::execute` with `transfer`, `write_remote` and `link`
of `services/downloads.rs`) and what the target node does with its uploads, for any number of
rows with the same target root.

A plan is a list of items : where a file goes, what its source holds, its declared size. The
worker asks for the state of every destination, skips those that are complete, and uploads
the others one after another, each from where the partial file on the node ends; then it
makes the links of a snapshot and writes the refs file, each by a call of its own. A row
keeps the destinations it finished over its runs. An upload is a process of its own : the
node writes what was sent, and renames the partial file once all of it is there. A worker
may end at any point, and an upload at any point before the rename; what the node has then
stays.

The rows are given with their plans : the sources do not change while a row exists, so a
later run has the plan of the first. A run whose plan is another one, for a revision that
moved to another commit, is a row of its own here : what it finished before is not asked
for in a cache.
-/

set_option linter.unusedSectionVars false

namespace EngineConsole.Transfers

open Web

/-- A path in the target root, by its segments. -/
abbrev Path := List Text

abbrev Bytes := List UInt8

/-! ## Layouts -/

/-- How a transfer writes into a root. -/
inductive Layout where
  | hfHome
  | hfHub
  | files
deriving DecidableEq

/-- `replace('/', "--")`. -/
def dashed (repoId : Text) : Text :=
  repoId.flatMap fun c => if c = '/' then ['-', '-'] else [c]

/-- `hf_repo_rel` : the repository's cache directory in a root. -/
def hfRepoRel (layout : Layout) (repoId : Text) : Path :=
  let folder := ascii "models--" ++ dashed repoId
  if layout = .hfHome then [ascii "hub", folder] else [folder]

/-- `files_dir`. -/
def filesDir (repoId : Text) : Text :=
  dashed repoId

/-- A file of a listing. -/
structure RepoFile where
  path : Path
  size : ℕ
  sha256 : Option Text

/-- `blob_name` : the hash of a file, else a name of its commit and path; `digest` is the hex
digest of SHA-256. -/
def blobName (digest : Text → Text) (f : RepoFile) (commit : Text) : Text :=
  match f.sha256.filter (!·.isEmpty) with
  | some s => s
  | none =>
    ascii "nolfs-" ++ (digest (commit ++ '\x00' :: ['/'].intercalate f.path)).take 40

/-- `py::relpath`. -/
def relpath : Path → Path → Path
  | p, [] => p
  | [], start => start.map fun _ => ascii ".."
  | x :: p, y :: start =>
    if x = y then relpath p start else ((y :: start).map fun _ => ascii "..") ++ x :: p

/-- Where a relative path leads from a directory. -/
def resolve (base : Path) : Path → Path
  | [] => base
  | seg :: t => if seg = ".." then resolve base.dropLast t else resolve (base ++ [seg]) t

/-- `snapshot_link` : the link of a snapshot file and its relative target. -/
def snapshotLink (repoRel : Path) (commit : Text) (path : Path) (blob : Text) : Path × Path :=
  let link := repoRel ++ [ascii "snapshots", commit] ++ path
  (link, relpath (repoRel ++ [ascii "blobs", blob]) link.dropLast)

/-! ## Plans -/

/-- `Item` : `source` is what its source holds, on a machine or (`fromHf`) on Hugging Face. -/
structure Item where
  path : Path
  size : ℕ
  sha256 : Option Text
  dest : Path
  link : Option (Path × Path)
  fromHf : Bool
  source : Bytes

/-- `Plan`. -/
structure Plan where
  items : List Item
  layout : Layout
  commit : Option Text
  repoRel : Option Path
  refsName : Text

/-- `hf_items` : `source` says where each file's bytes come from, or leaves a file out. -/
def hfItems (digest : Text → Text) (layout : Layout) (repoId commit : Text)
    (files : List RepoFile) (source : RepoFile → Option (Bool × Bytes)) : Plan :=
  let repoRel := hfRepoRel layout repoId
  { items := files.filterMap fun f =>
      (source f).map fun (fromHf, bytes) =>
        if layout = .files then
          { path := f.path, size := f.size, sha256 := f.sha256,
            dest := filesDir repoId :: f.path, link := none, fromHf := fromHf, source := bytes }
        else
          let blob := blobName digest f commit
          { path := f.path, size := f.size, sha256 := f.sha256,
            dest := repoRel ++ [ascii "blobs", blob],
            link := some (snapshotLink repoRel commit f.path blob), fromHf := fromHf,
            source := bytes }
    layout := layout
    commit := some commit
    repoRel := some repoRel
    refsName := "main" }

/-- The plan of a download : the refs file is named after the revision. -/
def downloadPlan (digest : Text → Text) (layout : Layout) (repoId commit : Text)
    (revision : Option Text) (files : List RepoFile) (source : RepoFile → Option (Bool × Bytes)) :
    Plan :=
  { hfItems digest layout repoId commit files source with
    refsName := (revision.filter (!·.isEmpty)).getD "main" }

/-- `safe_rel_path`, of the segments of a path. -/
def safeRelPath (path : Path) : Bool :=
  !path.isEmpty && path.all fun seg =>
    seg != [] && seg != ascii "." && seg != ascii ".." && !seg.contains '\\' && !seg.contains '\x00'

/-- `n` lower case hexadecimal digits. -/
def isHex (n : ℕ) (t : Text) : Bool :=
  decide (t.length = n) && t.all fun c => c.isDigit || ('a' ≤ c && c ≤ 'f')

/-- `checked_listing` : the commit of a listing whose names and hashes are well formed. -/
def checkedListing (files : List RepoFile) (sha : Option Text) : Option Text :=
  sha.bind fun sha =>
    if isHex 40 sha && files.all fun f => safeRelPath f.path && f.sha256.all (isHex 64) then
      some sha
    else none

/-- `ends_with_ci`, of the name of a file. -/
def endsWithCi (path : Path) (suffix : Text) : Bool :=
  suffix.isSuffixOf ((path.getLast?.getD []).map Char.toLower)

/-- The plan of `download_run` : `matches_` says which files of the listing were asked for, and
`gguf` that the root holds nothing but `.gguf` files. -/
def planDownload (digest : Text → Text) (layout : Layout) (gguf : Bool) (repoId : Text)
    (revision : Option Text) (listing : List RepoFile) (sha : Option Text)
    (matches_ : Path → Bool) (remote : Path → Bytes) : Option Plan :=
  (checkedListing listing sha).bind fun commit =>
    let files := listing.filter fun f => matches_ f.path
    if files.isEmpty then none
    else if gguf && !files.any fun f => endsWithCi f.path (ascii ".gguf") then none
    else
      some (downloadPlan digest layout repoId commit revision files fun f =>
        some (true, remote f.path))

/-- Where a copy takes a file of a listing from : a large one from the blobs of the source
machine, where it has a blob of that name and size, a small one from Hugging Face. -/
def hfCopySource (remote : Path → Bytes) (blobs : Text → Option Bytes) (f : RepoFile) :
    Option (Bool × Bytes) :=
  match f.sha256.filter (!·.isEmpty) with
  | none => some (true, remote f.path)
  | some sha =>
    ((blobs sha).filter fun bytes => bytes.length = f.size).map fun bytes => (false, bytes)

/-- `plan_hf_copy` : `only` are the files of the model. -/
def planHfCopy (digest : Text → Text) (layout : Layout) (repoId : Text) (listing : List RepoFile)
    (sha : Option Text) (only : Option (List Path)) (remote : Path → Bytes)
    (blobs : Text → Option Bytes) : Option Plan :=
  (checkedListing listing sha).bind fun commit =>
    let files := listing.filter fun f => only.all (·.contains f.path)
    let large := files.filter fun f => (f.sha256.filter (!·.isEmpty)).isSome
    if files.isEmpty then none
    else if !large.isEmpty && large.all fun f => (hfCopySource remote blobs f).isNone then none
    else some (hfItems digest layout repoId commit files (hfCopySource remote blobs))

/-- A file copied from another machine, outside any cache. -/
def nodeItem (path dest : Path) (bytes : Bytes) : Item :=
  { path := path, size := bytes.length, sha256 := none, dest := dest, link := none,
    fromHf := false, source := bytes }

/-- The plan of such files. -/
def nodePlan (items : List Item) : Plan :=
  { items := items, layout := .files, commit := none, repoRel := none, refsName := "main" }

/-- `plan_gguf_copy` : `none` where the source machine lacks a file. -/
def planGgufCopy (rels : List Path) (stat : Path → Option Bytes) : Option Plan :=
  (rels.mapM fun rel =>
    (stat rel).map fun bytes => nodeItem (rel.drop (rel.length - 1)) rel bytes).map nodePlan

/-- The name of the directory a plain model is copied to. -/
def plainDirname (rel : Path) (name : Text) : Text :=
  let raw := match rel.getLast? with
    | some base => if base.isEmpty then name else base
    | none => name
  let cleaned := raw.map fun c => if c.isAlphanum || (ascii "._-").contains c then c else '_'
  let dirname := (cleaned.dropWhile (· == '.')).take 100
  if dirname.isEmpty then "model" else dirname

/-- `plan_plain_copy`, of the files that were found and their bytes : `none` where they are
not all files of the directory. -/
def planPlainCopy (rel : Path) (name : Text) (files size : ℕ) (found : List (Path × Bytes)) :
    Option Plan :=
  if found.length ≠ files ∨ (found.map fun f => f.2.length).sum ≠ size then none
  else
    some (nodePlan (found.map fun f => nodeItem f.1 (plainDirname rel name :: f.1) f.2))

/-- Where the refs file of a plan is. -/
def Plan.refsPath (p : Plan) : Option Path :=
  p.repoRel.map fun repoRel => repoRel ++ [ascii "refs", p.refsName]

/-! ## The target -/

/-- What a name in a snapshot stands for : a link, or what was there before. -/
inductive Name where
  | link (target : Path)
  | other (isFile : Bool)

/-- The target root. -/
structure Tree where
  /-- the files under their names -/
  final : Path → Option Bytes
  /-- what the partial files hold -/
  incomplete : Path → Bytes
  names : Path → Option Name
  refs : Path → Option Text

/-- `fs.stat` of a name in a snapshot : it leads to a file. -/
def Tree.leads (t : Tree) (p : Path) : Bool :=
  match t.names p with
  | none => false
  | some (.link target) => (t.final (resolve p.dropLast target)).isSome
  | some (.other isFile) => isFile

/-- `Stat`. -/
structure Stat where
  isThere : Bool
  size : ℕ
  partialSize : ℕ
deriving DecidableEq

/-- `fs.stat` of a destination. -/
def Tree.stat (t : Tree) (d : Path) : Stat :=
  match t.final d with
  | some bytes => ⟨true, bytes.length, (t.incomplete d).length⟩
  | none => ⟨false, 0, (t.incomplete d).length⟩

/-! ## Workers -/

/-- What a worker knows in its loop. -/
structure Run where
  /-- the latest first -/
  stats : List (Path × Stat)
  /-- what the row had finished when the run began -/
  finished : List Path
  written : List Path

/-- The state of a destination, as the run found it. -/
def statOf (stats : List (Path × Stat)) (d : Path) : Stat :=
  ((stats.find? fun e => e.1 = d).map Prod.snd).getD ⟨false, 0, 0⟩

/-- A content-addressed blob that exists is that content. A file under its final name could
be an older one, so only one this row itself finished counts. -/
def Run.complete (run : Run) (plan : Plan) (it : Item) : Bool :=
  let st := statOf run.stats it.dest
  st.isThere && decide (st.size = it.size) &&
    (decide (plan.layout ≠ .files) || run.finished.contains it.dest)

/-- Where the upload of an item starts. -/
def Run.offset (run : Run) (it : Item) : ℕ :=
  let st := statOf run.stats it.dest
  if 0 < st.partialSize ∧ st.partialSize ≤ it.size then st.partialSize else 0

/-- Where a worker is. -/
inductive Worker where
  /-- there is none -/
  | idle
  /-- the destinations still to be asked for -/
  | stat (todo : List Path) (stats : List (Path × Stat))
  /-- at an item -/
  | next (i : ℕ) (run : Run)
  /-- in an upload, with so many bytes of the file sent -/
  | sending (i sent : ℕ) (run : Run)
  /-- for the result of an upload -/
  | waiting (i : ℕ) (run : Run)
  /-- the node has the file -/
  | stored (i : ℕ) (run : Run)
  /-- at the link of an item -/
  | link (i : ℕ)
  /-- at a link the node refused -/
  | relink (i : ℕ)
  | refs
  | finish

/-- A row of the table of downloads. -/
structure Row where
  /-- its kind -/
  copy : Bool
  plan : Plan
  /-- `done_json` -/
  done : List Path
  completed : Bool
  worker : Worker

/-- An upload at the node, of an item of a row. -/
structure Upload where
  row : ℕ
  item : Item
  /-- sent, and not written yet -/
  pending : Bytes
  ended : Bool

/-- The rows, the target root, and the uploads by the path they hold. -/
structure State where
  tree : Tree
  uploads : Path → Option Upload
  rows : ℕ → Row

/-- The steps of a worker. -/
inductive WorkerAct where
  | start
  | stat
  | enter
  | skip
  /-- `restart` : the server ignored the range, and the file starts over -/
  | upload (restart : Bool)
  | send (n : ℕ)
  | close
  | record
  | leave
  | link
  | linkRefused
  | relink
  | linked
  | publish
  | complete
  /-- an error, a pause, a cancellation, a crash -/
  | fail

/-- The steps of the node on the upload of a path. -/
inductive NodeAct where
  | write (n : ℕ)
  | rename
  | mismatch
  | drop
  /-- `fs.delete` of the partial file -/
  | clean

/-- A step of the system. -/
inductive Act where
  | worker (r : ℕ) (a : WorkerAct)
  | node (d : Path) (a : NodeAct)

/-! ## Steps -/

namespace State

/-- Change a row. -/
def setRow (s : State) (r : ℕ) (row : Row) : State :=
  { s with rows := Function.update s.rows r row }

/-- Move the worker of a row. -/
def setWorker (s : State) (r : ℕ) (w : Worker) : State :=
  s.setRow r { s.rows r with worker := w }

/-- Change the upload of a path. -/
def setUpload (s : State) (d : Path) (u : Option Upload) : State :=
  { s with uploads := Function.update s.uploads d u }

/-- Change what the partial file of a path holds. -/
def setIncomplete (s : State) (d : Path) (bytes : Bytes) : State :=
  { s with tree := { s.tree with incomplete := Function.update s.tree.incomplete d bytes } }

/-- Put a file under its name. -/
def setFinal (s : State) (d : Path) (bytes : Bytes) : State :=
  { s with tree := { s.tree with final := Function.update s.tree.final d (some bytes) } }

/-- Put a link. -/
def setLink (s : State) (l target : Path) : State :=
  { s with tree := { s.tree with names := Function.update s.tree.names l (some (.link target)) } }

/-- Write a refs file. -/
def setRefs (s : State) (f : Path) (commit : Text) : State :=
  { s with tree := { s.tree with refs := Function.update s.tree.refs f (some commit) } }

end State

/-- One step of the worker of row `r`. -/
def workerStep (s : State) (r : ℕ) (a : WorkerAct) : Option State :=
  let row := s.rows r
  let items := row.plan.items
  match row.worker, a with
  | .idle, .start =>
    if row.completed then none else some (s.setWorker r (.stat (items.map Item.dest) []))
  | .stat (d :: todo) stats, .stat =>
    some (s.setWorker r (.stat todo ((d, s.tree.stat d) :: stats)))
  | .stat [] stats, .enter => some (s.setWorker r (.next 0 ⟨stats, row.done, []⟩))
  | .next i run, .skip =>
    (items[i]?).bind fun it =>
      -- two files with the same content share one blob
      if run.complete row.plan it || run.written.contains it.dest then
        some (s.setWorker r (.next (i + 1) run))
      else none
  | .next i run, .upload restart =>
    (items[i]?).bind fun it =>
      let offset := if restart then 0 else run.offset it
      if run.complete row.plan it || run.written.contains it.dest then none
      else if restart && (!it.fromHf || decide (it.size ≤ run.offset it)) then none
      else if (s.uploads it.dest).isSome then none
      else if offset = 0 then
        some (((s.setIncomplete it.dest []).setUpload it.dest (some ⟨r, it, [], false⟩)).setWorker r
          (.sending i 0 run))
      else if offset = (s.tree.incomplete it.dest).length then
        some ((s.setUpload it.dest (some ⟨r, it, [], false⟩)).setWorker r (.sending i offset run))
      else none
  | .sending i sent run, .send n =>
    (items[i]?).bind fun it => (s.uploads it.dest).bind fun u =>
      let chunk := (it.source.drop sent).take n
      -- never trust a source to stop at the declared size
      if u.row = r ∧ chunk ≠ [] ∧ sent + chunk.length ≤ it.size then
        some ((s.setUpload it.dest (some { u with pending := u.pending ++ chunk })).setWorker r
          (.sending i (sent + chunk.length) run))
      else none
  | .sending i sent run, .close =>
    (items[i]?).bind fun it => (s.uploads it.dest).bind fun u =>
      -- the source is at its end, or was not asked for anything
      if u.row = r ∧ sent = it.size ∧ (it.source.length ≤ sent ∨ it.size ≤ run.offset it) then
        some ((s.setUpload it.dest (some { u with ended := true })).setWorker r (.waiting i run))
      else none
  | .stored i run, .record =>
    (items[i]?).bind fun it =>
      some (s.setRow r { row with
        done := it.dest :: row.done
        worker := .next (i + 1) { run with written := it.dest :: run.written } })
  | .next i _, .leave =>
    if i = items.length then
      if row.plan.layout ≠ .files ∧ row.plan.repoRel.isSome ∧ row.plan.commit.isSome then
        some (s.setWorker r (.link 0))
      else some (s.setWorker r .finish)
    else none
  | .link i, .link =>
    (items[i]?).bind fun it =>
      match it.link with
      | none => some (s.setWorker r (.link (i + 1)))
      | some (l, target) => some ((s.setLink l target).setWorker r (.link (i + 1)))
  | .link i, .linkRefused =>
    (items[i]?).bind fun it =>
      if it.link.isSome then some (s.setWorker r (.relink i)) else none
  | .relink i, .relink =>
    (items[i]?).bind fun it => it.link.bind fun l =>
      -- the link of an earlier run is still there: fine, as long as it is
      if s.tree.leads l.1 then some (s.setWorker r (.link (i + 1))) else none
  | .link i, .linked => if i = items.length then some (s.setWorker r .refs) else none
  | .refs, .publish =>
    row.plan.refsPath.bind fun f => row.plan.commit.bind fun commit =>
      some ((s.setRefs f commit).setWorker r .finish)
  | .finish, .complete => some (s.setRow r { row with completed := true, worker := .idle })
  | .idle, .fail => none
  | _, .fail => some (s.setWorker r .idle)
  | _, _ => none

/-- The answer of an upload reaches the worker that waits for it. -/
def State.answer (s : State) (u : Upload) : State :=
  match (s.rows u.row).worker with
  | .waiting i run =>
    if ((s.rows u.row).plan.items[i]?).any fun it => it.dest = u.item.dest then
      s.setWorker u.row (.stored i run)
    else s
  | _ => s

/-- All of the upload is there, and it is the file that was asked for; `hash` is the hex digest
of SHA-256. -/
def Upload.intact (hash : Bytes → Text) (u : Upload) (bytes : Bytes) : Bool :=
  decide (bytes.length = u.item.size) &&
    u.item.sha256.all fun sha => sha.isEmpty || hash bytes == sha

/-- One step of the node on the upload of `d`. -/
def nodeStep (hash : Bytes → Text) (s : State) (d : Path) (a : NodeAct) : Option State :=
  let bytes := s.tree.incomplete d
  match a with
  | .clean => some ((s.setIncomplete d []).setUpload d none)
  | .drop => (s.uploads d).bind fun _ => some (s.setUpload d none)
  | .write n =>
    (s.uploads d).bind fun u =>
      if u.pending.take n ≠ [] then
        some ((s.setIncomplete d (bytes ++ u.pending.take n)).setUpload d
          (some { u with pending := u.pending.drop n }))
      else none
  | .rename =>
    (s.uploads d).bind fun u =>
      if u.ended ∧ u.pending = [] ∧ u.intact hash bytes then
        some ((((s.setFinal d bytes).setIncomplete d []).setUpload d none).answer u)
      else none
  | .mismatch =>
    (s.uploads d).bind fun u =>
      if u.ended ∧ u.pending = [] ∧ !u.intact hash bytes then
        some ((s.setIncomplete d []).setUpload d none)
      else none

/-- One step. -/
def step (hash : Bytes → Text) (s : State) : Act → Option State
  | .worker r a => workerStep s r a
  | .node d a => nodeStep hash s d a

/-- Nothing has been done for the rows. -/
structure Fresh (s : State) : Prop where
  uploads : ∀ d, s.uploads d = none
  done : ∀ r, (s.rows r).done = []
  completed : ∀ r, (s.rows r).completed = false
  worker : ∀ r, (s.rows r).worker = .idle

/-! ## What a step does -/

/-- The moves of a worker, one for each action. -/
inductive Moves (s : State) (r : ℕ) : WorkerAct → State → Prop where
  | start (hw : (s.rows r).worker = .idle) (hc : (s.rows r).completed = false) :
    Moves s r .start (s.setWorker r (.stat ((s.rows r).plan.items.map Item.dest) []))
  | stat {d : Path} {todo : List Path} {stats : List (Path × Stat)}
      (hw : (s.rows r).worker = .stat (d :: todo) stats) :
    Moves s r .stat (s.setWorker r (.stat todo ((d, s.tree.stat d) :: stats)))
  | enter {stats : List (Path × Stat)} (hw : (s.rows r).worker = .stat [] stats) :
    Moves s r .enter (s.setWorker r (.next 0 ⟨stats, (s.rows r).done, []⟩))
  | skip {i : ℕ} {run : Run} {it : Item} (hw : (s.rows r).worker = .next i run)
      (hi : (s.rows r).plan.items[i]? = some it)
      (hok : run.complete (s.rows r).plan it = true ∨ it.dest ∈ run.written) :
    Moves s r .skip (s.setWorker r (.next (i + 1) run))
  | anew {i : ℕ} {run : Run} {it : Item} {restart : Bool} (hw : (s.rows r).worker = .next i run)
      (hi : (s.rows r).plan.items[i]? = some it) (hfree : s.uploads it.dest = none) :
    Moves s r (.upload restart) (((s.setIncomplete it.dest []).setUpload it.dest
      (some ⟨r, it, [], false⟩)).setWorker r (.sending i 0 run))
  | resume {i : ℕ} {run : Run} {it : Item} (hw : (s.rows r).worker = .next i run)
      (hi : (s.rows r).plan.items[i]? = some it) (hfree : s.uploads it.dest = none)
      (hpos : 0 < run.offset it) (hlen : run.offset it = (s.tree.incomplete it.dest).length) :
    Moves s r (.upload false) ((s.setUpload it.dest (some ⟨r, it, [], false⟩)).setWorker r
      (.sending i (run.offset it) run))
  | send {i sent n : ℕ} {run : Run} {it : Item} {u : Upload}
      (hw : (s.rows r).worker = .sending i sent run)
      (hi : (s.rows r).plan.items[i]? = some it) (hu : s.uploads it.dest = some u)
      (hr : u.row = r) :
    Moves s r (.send n) ((s.setUpload it.dest
      (some { u with pending := u.pending ++ (it.source.drop sent).take n })).setWorker r
        (.sending i (sent + ((it.source.drop sent).take n).length) run))
  | close {i sent : ℕ} {run : Run} {it : Item} {u : Upload}
      (hw : (s.rows r).worker = .sending i sent run)
      (hi : (s.rows r).plan.items[i]? = some it) (hu : s.uploads it.dest = some u)
      (hr : u.row = r) (hsent : sent = it.size) :
    Moves s r .close ((s.setUpload it.dest (some { u with ended := true })).setWorker r
      (.waiting i run))
  | record {i : ℕ} {run : Run} {it : Item} (hw : (s.rows r).worker = .stored i run)
      (hi : (s.rows r).plan.items[i]? = some it) :
    Moves s r .record (s.setRow r { s.rows r with
      done := it.dest :: (s.rows r).done
      worker := .next (i + 1) { run with written := it.dest :: run.written } })
  | toLinks {run : Run} (hw : (s.rows r).worker = .next (s.rows r).plan.items.length run)
      (hlayout : (s.rows r).plan.layout ≠ .files) :
    Moves s r .leave (s.setWorker r (.link 0))
  | toFinish {run : Run} (hw : (s.rows r).worker = .next (s.rows r).plan.items.length run) :
    Moves s r .leave (s.setWorker r .finish)
  | noLink {i : ℕ} {it : Item} (hw : (s.rows r).worker = .link i)
      (hi : (s.rows r).plan.items[i]? = some it) (hl : it.link = none) :
    Moves s r .link (s.setWorker r (.link (i + 1)))
  | link {i : ℕ} {it : Item} {l target : Path} (hw : (s.rows r).worker = .link i)
      (hi : (s.rows r).plan.items[i]? = some it) (hl : it.link = some (l, target)) :
    Moves s r .link ((s.setLink l target).setWorker r (.link (i + 1)))
  | linkRefused {i : ℕ} (hw : (s.rows r).worker = .link i) :
    Moves s r .linkRefused (s.setWorker r (.relink i))
  | relink {i : ℕ} {it : Item} {l target : Path} (hw : (s.rows r).worker = .relink i)
      (hi : (s.rows r).plan.items[i]? = some it) (hl : it.link = some (l, target))
      (hleads : s.tree.leads l = true) :
    Moves s r .relink (s.setWorker r (.link (i + 1)))
  | linked (hw : (s.rows r).worker = .link (s.rows r).plan.items.length) :
    Moves s r .linked (s.setWorker r .refs)
  | publish {f : Path} {commit : Text} (hw : (s.rows r).worker = .refs)
      (hf : (s.rows r).plan.refsPath = some f) (hc : (s.rows r).plan.commit = some commit) :
    Moves s r .publish ((s.setRefs f commit).setWorker r .finish)
  | complete (hw : (s.rows r).worker = .finish) :
    Moves s r .complete (s.setRow r { s.rows r with completed := true, worker := .idle })
  | fail (hw : (s.rows r).worker ≠ .idle) : Moves s r .fail (s.setWorker r .idle)

theorem workerStep_fail {s t : State} {r : ℕ} (h : workerStep s r .fail = some t) :
    (s.rows r).worker ≠ .idle ∧ t = s.setWorker r .idle := by
  cases hw : (s.rows r).worker <;> simp only [workerStep, hw, reduceCtorEq, Option.some.injEq] at h
  case stat todo stats =>
    cases todo <;> exact ⟨by simp, h.symm⟩
  all_goals exact ⟨by simp, h.symm⟩

theorem workerStep_upload {s t : State} {r i : ℕ} {run : Run} {restart : Bool}
    (hw : (s.rows r).worker = .next i run) (h : workerStep s r (.upload restart) = some t) :
    Moves s r (.upload restart) t := by
  simp only [workerStep, hw] at h
  obtain ⟨it, hi, h⟩ := Option.bind_eq_some_iff.1 h
  generalize hoff : (if restart = true then 0 else run.offset it) = offset at h
  split_ifs at h with hdone hrestart hfree hzero hlen
  · obtain rfl := Option.some.inj h
    exact .anew hw hi (by simpa using hfree)
  · obtain rfl := Option.some.inj h
    cases restart with
    | true => exact absurd hoff.symm hzero
    | false =>
      obtain rfl : run.offset it = offset := hoff
      exact .resume hw hi (by simpa using hfree) (Nat.pos_of_ne_zero hzero) hlen

theorem workerStep_moves {s t : State} {r : ℕ} {a : WorkerAct} (h : workerStep s r a = some t) :
    Moves s r a t := by
  cases a with
  | fail =>
    obtain ⟨hw, rfl⟩ := workerStep_fail h
    exact .fail hw
  | start =>
    cases hw : (s.rows r).worker <;> simp only [workerStep, hw, reduceCtorEq] at h
    case idle =>
      split_ifs at h with hc
      obtain rfl := Option.some.inj h
      exact .start hw (by simpa using hc)
  | stat =>
    cases hw : (s.rows r).worker <;> simp only [workerStep, hw, reduceCtorEq] at h
    case stat todo stats =>
      cases todo with
      | nil => cases h
      | cons d todo =>
        obtain rfl := Option.some.inj h
        exact .stat hw
  | enter =>
    cases hw : (s.rows r).worker <;> simp only [workerStep, hw, reduceCtorEq] at h
    case stat todo stats =>
      cases todo with
      | nil =>
        obtain rfl := Option.some.inj h
        exact .enter hw
      | cons d todo => cases h
  | skip =>
    cases hw : (s.rows r).worker <;> simp only [workerStep, hw, reduceCtorEq] at h
    case next i run =>
      obtain ⟨it, hi, h⟩ := Option.bind_eq_some_iff.1 h
      split_ifs at h with hok
      obtain rfl := Option.some.inj h
      exact .skip hw hi (by simpa using hok)
  | upload restart =>
    cases hw : (s.rows r).worker
    case next i run => exact workerStep_upload hw h
    case stat todo stats => cases todo <;> simp only [workerStep, hw, reduceCtorEq] at h
    all_goals simp only [workerStep, hw, reduceCtorEq] at h
  | send n =>
    cases hw : (s.rows r).worker <;> simp only [workerStep, hw, reduceCtorEq] at h
    case sending i sent run =>
      obtain ⟨it, hi, h⟩ := Option.bind_eq_some_iff.1 h
      obtain ⟨u, hu, h⟩ := Option.bind_eq_some_iff.1 h
      split_ifs at h with hok
      obtain rfl := Option.some.inj h
      exact .send hw hi hu hok.1
  | close =>
    cases hw : (s.rows r).worker <;> simp only [workerStep, hw, reduceCtorEq] at h
    case sending i sent run =>
      obtain ⟨it, hi, h⟩ := Option.bind_eq_some_iff.1 h
      obtain ⟨u, hu, h⟩ := Option.bind_eq_some_iff.1 h
      split_ifs at h with hok
      obtain rfl := Option.some.inj h
      exact .close hw hi hu hok.1 hok.2.1
  | record =>
    cases hw : (s.rows r).worker <;> simp only [workerStep, hw, reduceCtorEq] at h
    case stored i run =>
      obtain ⟨it, hi, h⟩ := Option.bind_eq_some_iff.1 h
      obtain rfl := Option.some.inj h
      exact .record hw hi
  | leave =>
    cases hw : (s.rows r).worker <;> simp only [workerStep, hw, reduceCtorEq] at h
    case next i run =>
      split_ifs at h with hi hlayout
      · obtain rfl := Option.some.inj h
        exact .toLinks (hi ▸ hw) hlayout.1
      · obtain rfl := Option.some.inj h
        exact .toFinish (hi ▸ hw)
  | link =>
    cases hw : (s.rows r).worker <;> simp only [workerStep, hw, reduceCtorEq] at h
    case link i =>
      obtain ⟨it, hi, h⟩ := Option.bind_eq_some_iff.1 h
      cases hl : it.link with
      | none =>
        rw [hl] at h
        obtain rfl := Option.some.inj h
        exact .noLink hw hi hl
      | some l =>
        rw [hl] at h
        obtain rfl := Option.some.inj h
        exact .link hw hi hl
  | linkRefused =>
    cases hw : (s.rows r).worker <;> simp only [workerStep, hw, reduceCtorEq] at h
    case link i =>
      obtain ⟨it, hi, h⟩ := Option.bind_eq_some_iff.1 h
      split_ifs at h
      obtain rfl := Option.some.inj h
      exact .linkRefused hw
  | relink =>
    cases hw : (s.rows r).worker <;> simp only [workerStep, hw, reduceCtorEq] at h
    case relink i =>
      obtain ⟨it, hi, h⟩ := Option.bind_eq_some_iff.1 h
      obtain ⟨l, hl, h⟩ := Option.bind_eq_some_iff.1 h
      split_ifs at h with hleads
      obtain rfl := Option.some.inj h
      exact .relink hw hi hl hleads
  | linked =>
    cases hw : (s.rows r).worker <;> simp only [workerStep, hw, reduceCtorEq] at h
    case link i =>
      split_ifs at h with hi
      obtain rfl := Option.some.inj h
      exact .linked (hi ▸ hw)
  | publish =>
    cases hw : (s.rows r).worker <;> simp only [workerStep, hw, reduceCtorEq] at h
    case refs =>
      obtain ⟨f, hf, h⟩ := Option.bind_eq_some_iff.1 h
      obtain ⟨commit, hc, h⟩ := Option.bind_eq_some_iff.1 h
      obtain rfl := Option.some.inj h
      exact .publish hw hf hc
  | complete =>
    cases hw : (s.rows r).worker <;> simp only [workerStep, hw, reduceCtorEq] at h
    case finish =>
      obtain rfl := Option.some.inj h
      exact .complete hw

/-- The moves of the node on the upload of a path. -/
inductive NodeMoves (hash : Bytes → Text) (s : State) (d : Path) : NodeAct → State → Prop where
  | clean : NodeMoves hash s d .clean ((s.setIncomplete d []).setUpload d none)
  | drop : NodeMoves hash s d .drop (s.setUpload d none)
  | write {n : ℕ} {u : Upload} (hu : s.uploads d = some u) :
    NodeMoves hash s d (.write n)
      ((s.setIncomplete d (s.tree.incomplete d ++ u.pending.take n)).setUpload d
        (some { u with pending := u.pending.drop n }))
  | rename {u : Upload} (hu : s.uploads d = some u) (hp : u.pending = [])
      (hlen : (s.tree.incomplete d).length = u.item.size) :
    NodeMoves hash s d .rename
      ((((s.setFinal d (s.tree.incomplete d)).setIncomplete d []).setUpload d none).answer u)
  | mismatch : NodeMoves hash s d .mismatch ((s.setIncomplete d []).setUpload d none)

theorem nodeStep_moves {hash : Bytes → Text} {s t : State} {d : Path} {a : NodeAct}
    (h : nodeStep hash s d a = some t) : NodeMoves hash s d a t := by
  cases a with
  | clean =>
    obtain rfl := Option.some.inj h
    exact .clean
  | drop =>
    obtain ⟨u, -, h⟩ := Option.bind_eq_some_iff.1 h
    obtain rfl := Option.some.inj h
    exact .drop
  | write n =>
    obtain ⟨u, hu, h⟩ := Option.bind_eq_some_iff.1 h
    split_ifs at h
    obtain rfl := Option.some.inj h
    exact .write hu
  | rename =>
    obtain ⟨u, hu, h⟩ := Option.bind_eq_some_iff.1 h
    split_ifs at h with hok
    obtain rfl := Option.some.inj h
    have hint := hok.2.2
    simp only [Upload.intact, Bool.and_eq_true, decide_eq_true_eq] at hint
    exact .rename hu hok.2.1 hint.1
  | mismatch =>
    obtain ⟨u, -, h⟩ := Option.bind_eq_some_iff.1 h
    split_ifs at h
    obtain rfl := Option.some.inj h
    exact .mismatch

/-! ## What a step leaves -/

namespace State

variable (s : State) (r r' : ℕ) (row : Row) (w : Worker) (d : Path) (u : Upload)

@[simp] theorem setRow_tree : (s.setRow r row).tree = s.tree := rfl
@[simp] theorem setRow_uploads : (s.setRow r row).uploads = s.uploads := rfl
@[simp] theorem setRow_same : (s.setRow r row).rows r = row := Function.update_self ..
@[simp] theorem setUpload_tree (o : Option Upload) : (s.setUpload d o).tree = s.tree := rfl

@[simp] theorem setUpload_same (o : Option Upload) : (s.setUpload d o).uploads d = o :=
  Function.update_self ..

@[simp] theorem setIncomplete_same (bytes : Bytes) :
    (s.setIncomplete d bytes).tree.incomplete d = bytes := Function.update_self ..

@[simp] theorem setWorker_tree : (s.setWorker r w).tree = s.tree := rfl
@[simp] theorem setWorker_uploads : (s.setWorker r w).uploads = s.uploads := rfl

@[simp] theorem setWorker_same : (s.setWorker r w).rows r = { s.rows r with worker := w } :=
  Function.update_self ..

theorem setWorker_rows : (s.setWorker r w).rows r' =
    { s.rows r' with worker := if r' = r then w else (s.rows r').worker } := by
  by_cases h : r' = r
  · subst h
    rw [setWorker_same, if_pos rfl]
  · rw [if_neg h]
    exact Function.update_of_ne h ..

@[simp] theorem setWorker_plan : ((s.setWorker r w).rows r').plan = (s.rows r').plan := by
  rw [setWorker_rows]

@[simp] theorem setWorker_copy : ((s.setWorker r w).rows r').copy = (s.rows r').copy := by
  rw [setWorker_rows]

@[simp] theorem setWorker_done : ((s.setWorker r w).rows r').done = (s.rows r').done := by
  rw [setWorker_rows]

@[simp] theorem setWorker_completed :
    ((s.setWorker r w).rows r').completed = (s.rows r').completed := by
  rw [setWorker_rows]

variable {r r'} in
theorem setRow_other (h : r' ≠ r) : (s.setRow r row).rows r' = s.rows r' :=
  Function.update_of_ne h ..

variable {r r'} in
theorem setWorker_other (h : r' ≠ r) : (s.setWorker r w).rows r' = s.rows r' :=
  Function.update_of_ne h ..

@[simp] theorem answer_tree : (s.answer u).tree = s.tree := by
  unfold answer
  split
  · split <;> rfl
  · rfl

@[simp] theorem answer_uploads : (s.answer u).uploads = s.uploads := by
  unfold answer
  split
  · split <;> rfl
  · rfl

/-- An answer moves the worker that waits for it, and nothing else. -/
theorem answer_row : (s.answer u).rows r = s.rows r ∨
    r = u.row ∧ ∃ i run it, (s.rows r).worker = .waiting i run ∧
      (s.rows r).plan.items[i]? = some it ∧ it.dest = u.item.dest ∧
      (s.answer u).rows r = { s.rows r with worker := .stored i run } := by
  unfold answer
  split
  · rename_i i run hw
    split_ifs with hi
    · by_cases hr : r = u.row
      · subst hr
        obtain ⟨it, hit, hd⟩ := (Option.any_eq_true _ _).1 hi
        exact .inr ⟨rfl, i, run, it, hw, hit, by simpa using hd, setWorker_same ..⟩
      · exact .inl (setWorker_other _ _ hr)
    · exact .inl rfl
  · exact .inl rfl

end State

/-- A worker changes its own row, and neither its plan nor its kind. -/
theorem Moves.rows {s t : State} {r : ℕ} {a : WorkerAct} (h : Moves s r a t) :
    (∀ r', r' ≠ r → t.rows r' = s.rows r') ∧ (t.rows r).plan = (s.rows r).plan ∧
      (t.rows r).copy = (s.rows r).copy := by
  cases h with
  | record | complete =>
    exact ⟨fun r' h => State.setRow_other _ _ h, by rw [State.setRow_same], by rw [State.setRow_same]⟩
  | _ =>
    exact ⟨fun r' h => State.setWorker_other _ _ h, State.setWorker_plan .., State.setWorker_copy ..⟩

/-- The node changes no more of a row than where its worker is. -/
theorem NodeMoves.rows {hash : Bytes → Text} {s t : State} {d : Path} {a : NodeAct}
    (h : NodeMoves hash s d a t) (r : ℕ) : ∃ w, t.rows r = { s.rows r with worker := w } := by
  cases h with
  | rename hu hp hlen =>
    rcases State.answer_row (((s.setFinal d (s.tree.incomplete d)).setIncomplete d []).setUpload d none)
      r _ with h | ⟨-, i, run, it, -, -, -, h⟩
    · exact ⟨(s.rows r).worker, h⟩
    · exact ⟨.stored i run, h⟩
  | _ => exact ⟨(s.rows r).worker, rfl⟩

/-- No step changes the plan or the kind of a row. -/
theorem step_plan {hash : Bytes → Text} {s t : State} {a : Act} (h : step hash s a = some t)
    (r : ℕ) : (t.rows r).plan = (s.rows r).plan ∧ (t.rows r).copy = (s.rows r).copy := by
  cases a with
  | worker r' a =>
    obtain ⟨hother, hplan, hcopy⟩ := (workerStep_moves h).rows
    by_cases hr : r = r'
    · subst hr
      exact ⟨hplan, hcopy⟩
    · rw [hother r hr]
      exact ⟨rfl, rfl⟩
  | node d a =>
    obtain ⟨w, hw⟩ := (nodeStep_moves h).rows r
    rw [hw]
    exact ⟨rfl, rfl⟩

end EngineConsole.Transfers
