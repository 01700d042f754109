import EngineConsole.Usage

/-!
# Copies on shared storage

The library lists the copies that the nodes report, and folds those on an NFS mount into the
copy on the disk that is exported, when the server is a configured host that lists it
(`mergeShared`). A copy is deleted only when nothing uses it at the places folded into it
(`deleteCopy`).

A machine may reach the bytes of a copy at a place that was not folded into its record : a
disk that two roots list has two records and only the later one gets the places on NFS, the
clients of a server that is not a configured host have a record each, and a client that has
not listed the copy yet has none. `delete_checked` is when every place is asked about.
-/

set_option linter.unusedSectionVars false

namespace EngineConsole

namespace Usage

open Web Lifecycle

/-! ## Paths, as Python has them -/

/-- The components of `normpath`, the last one first in `out`. -/
def normParts (absolute : Bool) : List Text → List Text → List Text
  | out, [] => out.reverse
  | out, c :: cs =>
    if c = [] ∨ c = "." then normParts absolute out cs
    else if c ≠ ".." ∨ (!absolute ∧ out = []) ∨ out.head? = some ".." then
      normParts absolute (c :: out) cs
    else normParts absolute out.tail cs

/-- `normpath`. -/
def normpath (path : Text) : Text :=
  let initial :=
    if (ascii "/").isPrefixOf path then
      if (ascii "//").isPrefixOf path && !(ascii "///").isPrefixOf path then 2 else 1
    else 0
  let s := List.replicate initial '/' ++
    ['/'].intercalate (normParts (decide (0 < initial)) [] (path.splitOn '/'))
  if s = [] then "." else s

/-- `norm` : with a leading `//` folded. -/
def norm (path : Text) : Text :=
  if path = [] then []
  else
    let n := normpath path
    if (ascii "//").isPrefixOf n then '/' :: n.dropWhile (· == '/') else n

/-- `join`. -/
def join (a b : Text) : Text :=
  if (ascii "/").isPrefixOf b then b
  else if a = [] ∨ a.getLast? = some '/' then a ++ b
  else a ++ ['/'] ++ b

/-- The components of a path. -/
def components (path : Text) : List Text :=
  ((normpath path).splitOn '/').filter fun c => c ≠ [] ∧ c ≠ "."

/-- `relpath`. -/
def relpath (path start : Text) : Text :=
  let sl := components start
  let pl := components path
  let common := ((sl.zip pl).takeWhile fun c => c.1 = c.2).length
  let parts := List.replicate (sl.length - common) (ascii "..") ++ pl.drop common
  if parts = [] then "." else ['/'].intercalate parts

/-- `under`. -/
def under (path base : Text) : Bool :=
  base = "/" || inside path base

/-! ## What the nodes report -/

/-- The parts of `Mount` that say where the bytes are. -/
structure Disk where
  mount : Text
  fstype : Option Text
  remoteHost : Option Text
  remotePath : Option Text
deriving DecidableEq

/-- `nfs` : no character outside ASCII has `n`, `f` or `s` as its lower case. -/
def Disk.nfs (m : Disk) : Bool :=
  (m.fstype.any fun f => (ascii "nfs").isPrefixOf (f.map Char.toLower)) && m.remoteHost.isSome &&
    m.remotePath.isSome

/-- A model root of a node's policy. -/
structure Root where
  id : Text
  path : Text
  writable : Bool

/-- `HostView`, with the facts of the host. -/
structure View where
  id : Text
  state : Text
  roots : List Root
  mode : Text
  allowDelete : Bool
  mounts : List Disk

/-- `root`. -/
def View.root (v : View) (id : Text) : Option Root :=
  v.roots.find? fun r => r.id = id

/-- `mount_for` : the longest mount point above the path. -/
def mountFor (mounts : List Disk) (path : Text) : Option Disk :=
  mounts.foldl (fun best m =>
    if under path m.mount ∧ best.all fun b => b.mount.length < m.mount.length then some m
    else best) none

/-- `AddressBook` : the configured hosts by their addresses and names. -/
structure Book where
  /-- `canon_addr` -/
  canon : Text → Text
  /-- `is_loopback` -/
  loopback : Text → Bool
  addr : Text → Option Text
  name : Text → Option Text

/-- `find` : the host that a server is, if it is not `exclude`. -/
def Book.find (book : Book) (server : Option Text) (exclude : Text) : Option Text :=
  (server.filter (· ≠ [])).bind fun server =>
    let key := book.canon server
    if key = [] ∨ book.loopback key then none
    else ((book.addr key).or (book.name key)).filter (· ≠ exclude)

/-! ## Records -/

/-- `Alias` : a place of a copy. -/
structure Alias where
  host : Text
  root : Text
  rel : Text
  path : Text
deriving DecidableEq

/-- `Rec` : a listed copy, and the places folded into it. -/
structure Rec where
  id : Text
  host : Text
  root : Text
  rel : Text
  path : Text
  mount : Option Disk
  visibleOn : List Text
  aliases : List Alias

/-- The copy is on an NFS mount. -/
def Rec.nfs (r : Rec) : Bool :=
  r.mount.any Disk.nfs

/-- The place of a record. -/
def Rec.place (r : Rec) : Alias :=
  ⟨r.host, r.root, r.rel, r.path⟩

/-- An entry of a node's listing. -/
structure Entry where
  root : Option Text
  rel : Option Text

/-- `make_rec`; `copyId` is the hash of a place. -/
def makeRec (copyId : Text → Text → Text → Text) (view : View) (e : Entry) : Option Rec :=
  ((e.root.filter (· ≠ [])).map (·.take 32)).bind fun rootId =>
    (view.root rootId).bind fun spec =>
      e.rel.bind fun rel =>
        let rel := if rel = "." then [] else rel
        -- a node-supplied path that breaks the node's own rules is not listed
        if rel ≠ [] ∧ !relOk rel then none
        else
          let path := if rel = [] then spec.path else norm (spec.path ++ ['/'] ++ rel)
          some
            { id := copyId view.id rootId rel
              host := view.id
              root := rootId
              rel := rel
              path := path
              mount := mountFor view.mounts path
              visibleOn := [view.id]
              aliases := [⟨view.id, rootId, rel, path⟩] }

/-! ## Shared storage -/

/-- The record of a path on a host's own disks; a later one wins. -/
def ownerAt (recs : List Rec) (place : Text × Text) : Option ℕ :=
  ((List.range recs.length).filter fun i =>
    (recs[i]?).any fun r => !r.nfs && (r.host, norm r.path) = place).getLast?

/-- The path on the server of a path below an NFS mount. -/
def Disk.remote (m : Disk) (remotePath path : Text) : Text :=
  let sub := relpath path m.mount
  if sub = "." then remotePath else normpath (join remotePath sub)

/-- The record that a copy on an NFS mount is folded into. -/
def folded (recs : List Rec) (book : Book) (r : Rec) : Option ℕ :=
  if r.nfs then
    r.mount.bind fun m =>
      (book.find m.remoteHost r.host).bind fun owner =>
        m.remotePath.bind fun rp =>
          if under r.path m.mount then ownerAt recs (owner, m.remote rp r.path) else none
  else none

/-- Fold a place into a record. -/
def Rec.fold (r : Rec) (t : Rec) : Rec :=
  { t with
    visibleOn := if r.host ∈ t.visibleOn then t.visibleOn else t.visibleOn ++ [r.host]
    aliases := t.aliases ++ [r.place] }

/-- The records, with the places folded into them. -/
def foldAll (recs : List Rec) (book : Book) : List Rec :=
  recs.foldl (fun acc r =>
    match folded recs book r with
    | some t => acc.modify t r.fold
    | none => acc) recs

/-- `merge_shared` : without the records that were folded away. -/
def mergeShared (recs : List Rec) (book : Book) : List Rec :=
  (((foldAll recs book).zip recs).filter fun r => (folded recs book r.2).isNone).map Prod.fst

/-- Lists of characters, by their code points. -/
def textLe : Text → Text → Bool
  | [], _ => true
  | _ :: _, [] => false
  | a :: s, b :: t => decide (a.toNat < b.toNat) || a == b && textLe s t

/-- What the library has from the nodes. -/
structure Library where
  book : Book
  copyId : Text → Text → Text → Text
  /-- the place of each configured host in the list of hosts -/
  order : Text → ℕ
  views : List View
  /-- the entries of each host, one for each file of a repository of GGUF files -/
  snaps : List (Text × List Entry)

/-- The order of the records. -/
def Library.le (lib : Library) (a b : Rec) : Bool :=
  decide (lib.order a.host < lib.order b.host) ||
    lib.order a.host == lib.order b.host &&
      (textLe a.root b.root && a.root != b.root || a.root == b.root && textLe a.rel b.rel)

/-- The records before shared storage is folded. -/
def Library.recs (lib : Library) : List Rec :=
  (lib.snaps.flatMap fun s =>
    match lib.views.find? fun v => v.id = s.1 with
    | some view => s.2.filterMap (makeRec lib.copyId view)
    | none => []).insertionSort fun a b => lib.le a b = true

/-- The records of the view that `rebuild` makes. -/
def Library.view (lib : Library) : List Rec :=
  mergeShared lib.recs lib.book

/-- `COPY_ID`. -/
def copyIdOk (id : Text) : Bool :=
  id.length = 16 && id.all fun c => c.isDigit || ('a' ≤ c && c ≤ 'f')

/-- `rec` : the last record with the id. -/
def Library.rec? (lib : Library) (id : Text) : Option Rec :=
  if copyIdOk id then lib.view.reverse.find? fun r => r.id = id else none

/-! ## Deletion -/

/-- Why a copy is not deleted. -/
inductive Refusal where
  | copyNotFound
  | nodeUnavailable
  | deleteDenied
  | monitorOnly
  | rootReadOnly
  | modelInUse (users : List Text)
  | rootNotDeletable
  | unknownHost
deriving DecidableEq

/-- `users` : the instances that use a copy at one of its places. -/
def Rec.users (r : Rec) (inUse : Text → Text → List Text) : List Text :=
  (r.aliases.flatMap fun a => inUse a.host a.path).foldl (push some) []

/-- `delete_copy`, up to its call of `fs.delete` : the host, the root and the path. `now` is
what is known of the hosts at the time, `node` says which are configured. -/
def deleteCopy (lib : Library) (now : List View) (node : Text → Bool)
    (inUse : Text → Text → List Text) (id : Text) : Except Refusal (Text × Text × Text) :=
  match lib.rec? id with
  | none => .error .copyNotFound
  | some r =>
    match (now.find? fun v => v.id = r.host).filter fun v => v.state = ascii "up" with
    | none => .error .nodeUnavailable
    | some view =>
      if !view.allowDelete then .error .deleteDenied
      else if view.mode ≠ "manage" then .error .monitorOnly
      else if !((view.root r.root).any (·.writable)) then .error .rootReadOnly
      else if r.users inUse ≠ [] then .error (.modelInUse (r.users inUse))
      else if r.rel = [] then .error .rootNotDeletable
      else if !node r.host then .error .unknownHost
      else .ok (r.host, r.root, r.rel)

/-- Nothing but its use is in the way of deleting a copy. -/
def Rec.Deletable (r : Rec) (now : List View) (node : Text → Bool) : Prop :=
  ∃ view, now.find? (fun v => v.id = r.host) = some view ∧ view.state = "up" ∧
    view.allowDelete = true ∧ view.mode = "manage" ∧
      (view.root r.root).any (·.writable) = true ∧ r.rel ≠ [] ∧ node r.host = true

section

variable {lib : Library} {recs : List Rec} {book : Book} {now : List View} {node : Text → Bool}
  {inUse : Text → Text → List Text} {id : Text} {r : Rec}

/-! ## What is folded into a record -/

/-- A record with the places of others. -/
def Rec.foldMany (t : Rec) (rs : List Rec) : Rec :=
  rs.foldl (fun t r => r.fold t) t

theorem foldMany_aliases (t : Rec) (rs : List Rec) :
    (t.foldMany rs).aliases = t.aliases ++ rs.map Rec.place := by
  induction rs generalizing t with
  | nil => simp [Rec.foldMany]
  | cons r rs ih =>
    have h := ih (r.fold t)
    rw [Rec.foldMany, List.foldl_cons, ← Rec.foldMany, h]
    simp [Rec.fold]

theorem foldMany_place (t : Rec) (rs : List Rec) :
    (t.foldMany rs).place = t.place ∧ (t.foldMany rs).mount = t.mount := by
  induction rs generalizing t with
  | nil => exact ⟨rfl, rfl⟩
  | cons r rs ih => exact ih (r.fold t)

/-- Each record gets the places of those that are folded into it, in their order. -/
theorem foldAll_getElem? (recs : List Rec) (book : Book) (i : ℕ) : (foldAll recs book)[i]? =
    (recs[i]?).map fun t => t.foldMany (recs.filter fun r => folded recs book r = some i) := by
  suffices h : ∀ (l acc : List Rec), (l.foldl (fun acc r =>
      match folded recs book r with
      | some t => acc.modify t r.fold
      | none => acc) acc)[i]? =
        (acc[i]?).map fun t => t.foldMany (l.filter fun r => folded recs book r = some i) from
    h recs recs
  intro l
  induction l with
  | nil =>
    intro acc
    simp [Rec.foldMany]
  | cons r l ih =>
    intro acc
    rw [List.foldl_cons, ih]
    cases hr : folded recs book r with
    | none => simp [hr]
    | some t =>
      rw [List.getElem?_modify, Option.map_eq_map, Option.map_map]
      congr 1
      funext t'
      by_cases ht : t = i
      · subst ht
        simp [hr, Rec.foldMany]
      · simp [hr, ht]

/-- A record of the merged view : one that was not folded away, with the places of those that
were folded into it. -/
theorem mem_mergeShared : r ∈ mergeShared recs book ↔ ∃ (i : ℕ) (t : Rec), recs[i]? = some t ∧
    folded recs book t = none ∧
      r = t.foldMany (recs.filter fun q => folded recs book q = some i) := by
  simp only [mergeShared, List.mem_map, List.mem_filter, Option.isNone_iff_eq_none, Prod.exists]
  constructor
  · rintro ⟨t', t, ⟨hmem, hnone⟩, rfl⟩
    obtain ⟨i, hi⟩ := List.getElem?_of_mem hmem
    rw [List.getElem?_zip_eq_some, foldAll_getElem?] at hi
    obtain ⟨hmerged, ht⟩ := hi
    rw [ht] at hmerged
    exact ⟨i, t, ht, hnone, (Option.some.inj hmerged).symm⟩
  · rintro ⟨i, t, ht, hnone, rfl⟩
    refine ⟨_, t, ⟨List.mem_of_getElem? (i := i) ?_, hnone⟩, rfl⟩
    rw [List.getElem?_zip_eq_some, foldAll_getElem?, ht]
    exact ⟨rfl, rfl⟩

/-- What is listed has its own place only, before anything is folded into it. -/
theorem makeRec_aliases {copyId : Text → Text → Text → Text} {view : View} {e : Entry}
    (h : makeRec copyId view e = some r) : r.aliases = [r.place] := by
  simp only [makeRec, Option.bind_eq_some_iff] at h
  obtain ⟨rootId, -, spec, -, rel, -, h⟩ := h
  split_ifs at h <;> (obtain rfl := Option.some.inj h; rfl)

theorem recs_aliases (h : r ∈ lib.recs) : r.aliases = [r.place] := by
  rw [Library.recs, List.mem_insertionSort, List.mem_flatMap] at h
  obtain ⟨s, -, h⟩ := h
  split at h
  · obtain ⟨e, -, he⟩ := List.mem_filterMap.1 h
    exact makeRec_aliases he
  · cases h

/-- The places of a record : its own, and those of the copies on NFS mounts of it. -/
theorem rec?_aliases (h : lib.rec? id = some r) : ∃ i t, lib.recs[i]? = some t ∧
    t.place = r.place ∧ ∀ a, a ∈ r.aliases ↔
      a = r.place ∨ ∃ q ∈ lib.recs, folded lib.recs lib.book q = some i ∧ a = q.place := by
  unfold Library.rec? at h
  split_ifs at h
  have hmem := List.mem_reverse.1 (List.mem_of_find?_eq_some h)
  obtain ⟨i, t, ht, -, rfl⟩ := mem_mergeShared.1 hmem
  refine ⟨i, t, ht, (foldMany_place ..).1.symm, fun a => ?_⟩
  rw [foldMany_aliases, recs_aliases (List.mem_of_getElem? ht), (foldMany_place ..).1]
  simp [eq_comm, and_assoc]

/-! ## Where the bytes are -/

/-- A machine that has disks : a configured host, or a server by its address. -/
inductive Machine where
  | host (id : Text)
  | server (addr : Text)
deriving DecidableEq

/-- The machine that a host knows under a name. -/
def Book.machine (book : Book) (host server : Text) : Machine :=
  let key := book.canon server
  if book.loopback key then .host host
  else
    match (book.addr key).or (book.name key) with
    | some owner => .host owner
    | none => .server key

/-- Where the bytes at a path of a host are, which is below this mount. -/
def Book.storedAt (book : Book) (host : Text) (mount : Option Disk) (path : Text) :
    Machine × Text :=
  match mount with
  | some ⟨mp, fstype, some server, some rp⟩ =>
    if Disk.nfs ⟨mp, fstype, some server, some rp⟩ ∧ under path mp then
      (book.machine host server, Disk.remote ⟨mp, fstype, some server, some rp⟩ rp path)
    else (.host host, norm path)
  | _ => (.host host, norm path)

/-- A host reaches the bytes of a record at a path : below one of its roots, on the disk
itself or by NFS. -/
def Library.Reaches (lib : Library) (r : Rec) (host path : Text) : Prop :=
  norm path = path ∧ ∃ v ∈ lib.views, v.id = host ∧ (∃ root ∈ v.roots, under path root.path = true) ∧
    lib.book.storedAt host (mountFor v.mounts path) path = lib.book.storedAt r.host r.mount r.path

/-! ## Deletion -/

theorem users_eq_nil : r.users inUse = [] ↔ ∀ a ∈ r.aliases, inUse a.host a.path = [] := by
  have hmem (x : Text) : x ∈ r.users inUse ↔ ∃ a ∈ r.aliases, x ∈ inUse a.host a.path := by
    simp [Rec.users, mem_foldl_push]
  simp only [List.eq_nil_iff_forall_not_mem, hmem]
  exact ⟨fun h a ha x hx => h x ⟨a, ha, hx⟩, fun h x ⟨a, ha, hx⟩ => h a ha x hx⟩

/-- What a deletion needs. -/
theorem deleteCopy_ok (hr : lib.rec? id = some r) :
    (∃ call, deleteCopy lib now node inUse id = .ok call) ↔
      r.Deletable now node ∧ ∀ a ∈ r.aliases, inUse a.host a.path = [] := by
  rw [← users_eq_nil, deleteCopy, hr]
  dsimp only
  unfold Rec.Deletable
  cases hv : now.find? fun v => v.id = r.host with
  | none => simp
  | some view =>
    by_cases hup : view.state = "up"
    · simp only [Option.filter_some, hup, decide_true, if_pos]
      split_ifs <;> simp_all
    · simp [Option.filter_some, hup]

/-- A copy is deleted only when nothing uses it at any place where a machine reaches it : this
is so just where all those places were folded into its record. -/
theorem delete_checked (lib : Library) (now : List View) (node : Text → Bool) (id : Text) :
    (∀ (inUse : Text → Text → List Text) (r : Rec) (call : Text × Text × Text),
      lib.rec? id = some r → deleteCopy lib now node inUse id = .ok call →
        ∀ host path, lib.Reaches r host path → inUse host path = []) ↔
      ∀ r, lib.rec? id = some r → r.Deletable now node → ∀ host path,
        lib.Reaches r host path → ∃ a ∈ r.aliases, a.host = host ∧ a.path = path := by
  constructor
  · intro h r hr hdel host path hreach
    by_contra hnone
    let inUse : Text → Text → List Text := fun h p => if h = host ∧ p = path then [host] else []
    have hunused : ∀ a ∈ r.aliases, inUse a.host a.path = [] := by
      intro a ha
      exact if_neg fun hc => hnone ⟨a, ha, hc⟩
    obtain ⟨call, hcall⟩ := (deleteCopy_ok hr).2 ⟨hdel, hunused⟩
    have hempty := h inUse r call hr hcall host path hreach
    rw [show inUse host path = [host] from if_pos ⟨rfl, rfl⟩] at hempty
    cases hempty
  · rintro h inUse r call hr hcall host path hreach
    obtain ⟨hdel, hunused⟩ := (deleteCopy_ok hr).1 ⟨call, hcall⟩
    obtain ⟨a, ha, rfl, rfl⟩ := h r hr hdel host path hreach
    exact hunused a ha

/-- An instance whose container uses a path is found just where the container tells that it
does; a copy that is in use anywhere is not deleted just where all its places were folded into
its record. -/
theorem use_reported (lib : Library) (now : List View) (node : Text → Bool) (id : Text) :
    (∀ (loc : Locale) (c : Container) (path : Text), c.live = true →
      c.Uses (trimEnd '/' path) →
        ((∀ hub : Hub, hub.loc = loc → ∀ host node iid, hub.nodes host = some node →
          c ∈ node.containers → hub.instanceFor host node c.name = some iid →
            iid ∈ hub.instancesUsing host path) ↔ loc.Tells c (trimEnd '/' path))) ∧
    ((∀ (inUse : Text → Text → List Text) (r : Rec) (call : Text × Text × Text),
      lib.rec? id = some r → deleteCopy lib now node inUse id = .ok call →
        ∀ host path, lib.Reaches r host path → inUse host path = []) ↔
      ∀ r, lib.rec? id = some r → r.Deletable now node → ∀ host path,
        lib.Reaches r host path → ∃ a ∈ r.aliases, a.host = host ∧ a.path = path) :=
  ⟨fun _ _ _ hlive huses => usage_found hlive huses, delete_checked lib now node id⟩

end

/-! ## A file of a folder, and a disk with two roots -/

/-- ASCII only. -/
def asciiLocale : Locale :=
  ⟨List.map Char.toLower, fun _ => false⟩

/-- A container that serves a file of `/data/models/foo`, which it has elsewhere. -/
def fileServer : Container where
  name := "llama"
  state := "running"
  mounts := [⟨"/data/models", "/models"⟩]
  params := [("model", "/models/foo/weights.gguf")]
  labels := []
  engine := true
  managed := false

theorem fileServer_uses : fileServer.Uses "/data/models/foo" :=
  ⟨⟨"/data/models", "/models"⟩, by simp [fileServer], by decide, by decide,
    .inr ⟨"/models/foo/weights.gguf", by decide, "/data/models/foo/weights.gguf", by decide,
      by decide⟩⟩

/-- A container that has the copy on NFS mounted. -/
def clientServer : Container where
  name := "vllm"
  state := "running"
  mounts := [⟨"/mnt/sub/foo", "/model"⟩]
  params := [("model", "/model")]
  labels := []
  engine := true
  managed := false

theorem clientServer_uses : clientServer.Uses "/mnt/sub/foo" :=
  ⟨⟨"/mnt/sub/foo", "/model"⟩, by simp [clientServer], by decide, by decide, .inl (by decide)⟩

/-- The hosts `a`, with the file server, and `b`, with the client. -/
def twoHosts : Hub where
  loc := asciiLocale
  fnmatch := fun _ _ => false
  nodes := fun h => if h = "a" then some ⟨[fileServer], []⟩ else some ⟨[clientServer], []⟩
  rows := []
  known := fun _ _ => none
  locate := fun _ _ => none

/-- The export of `a` at `b`. -/
def exported : Disk :=
  ⟨"/mnt", some (ascii "nfs4"), some "a", some (ascii "/srv/models")⟩

/-- Two roots of `a` list the same copy, and `b` lists it on NFS. -/
def twoRoots : Library where
  book := ⟨fun a => a, fun _ => false, fun a => if a = "a" then some a else none, fun _ => none⟩
  copyId := fun _ root _ => if root = "all" then "000000000000000a" else "000000000000000b"
  order := fun h => if h = "a" then 0 else 1
  views :=
    [⟨"a", "up", [⟨"all", "/srv/models", true⟩, ⟨"sub", "/srv/models/sub", true⟩], "manage", true, []⟩,
      ⟨"b", "up", [⟨"mnt", "/mnt", false⟩], "manage", true, [exported]⟩]
  snaps :=
    [("a", [⟨some (ascii "all"), some (ascii "sub/foo")⟩, ⟨some (ascii "sub"), some (ascii "foo")⟩]),
      ("b", [⟨some (ascii "mnt"), some (ascii "sub/foo")⟩])]

/-- The client is found by its mount. -/
theorem client_reported :
    ascii "ext-b-vllm" ∈ twoHosts.instancesUsing "b" "/mnt/sub/foo" := by
  have htells : asciiLocale.Tells clientServer (trimEnd '/' "/mnt/sub/foo") :=
    .inl ⟨⟨"/mnt/sub/foo", "/model"⟩, by simp [clientServer], by decide, by decide⟩
  exact ((use_reported twoRoots [] (fun _ => true) []).1 asciiLocale clientServer "/mnt/sub/foo" (by decide)
    clientServer_uses).2 htells twoHosts rfl "b" ⟨[clientServer], []⟩ "ext-b-vllm" rfl (by simp)
    (by decide +kernel)

/-- An instance that loads a file below a path is not found; a copy that an instance uses on
another host is deleted. -/
theorem use_missed :
    (¬∀ (hub : Hub) (host path iid : Text), hub.Uses host path iid →
      iid ∈ hub.instancesUsing host path) ∧
    ¬∀ (hub : Hub) (lib : Library) (now : List View) (node : Text → Bool) (id : Text) (r : Rec)
      (call : Text × Text × Text), lib.rec? id = some r →
        deleteCopy lib now node hub.instancesUsing id = .ok call →
          ∀ host path, lib.Reaches r host path → hub.instancesUsing host path = [] := by
  constructor
  · intro hclaim
    have h := hclaim twoHosts "a" "/data/models/foo" "ext-a-llama"
      ⟨⟨[fileServer], []⟩, rfl, fileServer, by simp, by decide, by decide, fileServer_uses⟩
    exact absurd h (by decide +kernel)
  · intro hclaim
    have hdel : ((twoRoots.rec? "000000000000000a").any fun r =>
        (match deleteCopy twoRoots twoRoots.views (fun _ => true) twoHosts.instancesUsing
            "000000000000000a" with
          | .ok _ => true
          | .error _ => false) && decide ((r.host, r.mount, r.path) =
            (ascii "a", none, ascii "/srv/models/sub/foo"))) = true := by decide +kernel
    obtain ⟨r, hr, hdel⟩ := (Option.any_eq_true _ _).1 hdel
    obtain ⟨hok, hplace⟩ := (Bool.and_eq_true _ _).mp hdel
    obtain ⟨hhost, hrest⟩ := Prod.mk.inj (of_decide_eq_true hplace)
    obtain ⟨hmount, hpath⟩ := Prod.mk.inj hrest
    split at hok
    · next call hcall =>
      have hreach : twoRoots.Reaches r "b" "/mnt/sub/foo" := by
        refine ⟨by decide, ⟨"b", "up", [⟨"mnt", "/mnt", false⟩], "manage", true, [exported]⟩, ?_,
          rfl, ⟨⟨"mnt", "/mnt", false⟩, by simp, by decide⟩, ?_⟩
        · simp [twoRoots]
        · rw [hhost, hmount, hpath]
          decide +kernel
      have h := hclaim twoHosts twoRoots _ _ _ r call hr hcall "b" "/mnt/sub/foo" hreach
      exact absurd h (by decide +kernel)
    · cases hok

end Usage

end EngineConsole
