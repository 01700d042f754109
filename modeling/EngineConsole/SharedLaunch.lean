import EngineConsole.MergedLibrary

/-!
# A copy on shared storage, loaded on another machine

The hub folds a copy on an NFS mount into the copy of the machine that exports it
(`mergeShared`), and knows every place it folded. The page knows only which machines see a copy
(`visible_on`) and, of each root of a machine, whose disk it is (`shared_from`, from `shares` of
`fleet_status.rs`). To load the copy on a machine that does not own it, `resolveOnHost` of
`js/library.js` takes the first root that is shared from the owner and the owner's relative path.

That is a place of the copy just when the machine lists that path in that root on an export of the
owner, and it is there the path of the copy on the owner (`located_iff`).
-/

set_option linter.unusedSectionVars false

namespace EngineConsole.SharedLaunch

open Web Usage

/-! ## The roots of a machine -/

/-- A mount as a node reports it, with the roots it says are on it. -/
structure NodeMount where
  mount : Option Text
  fstype : Option Text
  remoteHost : Option Text
  remotePath : Option Text
  roots : List Text

/-- `HostData` : the roots of the policy with their paths, and the mounts. -/
structure HostData where
  host : Text
  roots : List (Text × Text)
  mounts : List NodeMount

/-- `abs` -/
def absPath (p : Option Text) : Option Text :=
  (p.filter fun p => p.head? = some '/').map normpath

/-- How deep a mount point is. -/
def depth (mount : Text) : ℕ :=
  if mount = "/" then 0 else mount.count '/'

/-- The deeper of two mounts, if the root is below it. -/
def deeper (rootPath : Text) (best : Option (NodeMount × ℕ)) (m : NodeMount) :
    Option (NodeMount × ℕ) :=
  match absPath m.mount with
  | some mp =>
    if under rootPath mp && best.all (fun b => b.2 < depth mp) then some (m, depth mp) else best
  | none => best

/-- `mount_of_root` -/
def mountOfRoot (root rootPath : Text) (mounts : List NodeMount) : Option NodeMount :=
  match mounts.filter fun m => m.roots.contains root with
  | [m] => some m
  | _ => (mounts.foldl (deeper rootPath) none).map Prod.fst

/-- `RootLoc` -/
structure RootLoc where
  host : Text
  root : Text
  owner : Text
  path : Text
  imported : Bool

/-- `relpath_under` -/
def relpathUnder (path start : Text) : Text :=
  let rest := (if start = "/" then path.drop 1 else path.drop start.length).dropWhile (· = '/')
  if rest = [] then "." else rest

/-- A mount of another configured machine : the machine, the mount point and the export. -/
def imports (book : Book) (host : Text) (m : NodeMount) : Option (Text × Text × Text) :=
  if m.fstype.any fun f => (ascii "nfs").isPrefixOf (f.map Char.toLower) then
    (book.find m.remoteHost host).bind fun server =>
      (absPath m.mount).bind fun mp => (absPath m.remotePath).map fun rp => (server, mp, rp)
  else none

/-- The path on the server of a root below a mount. -/
def exportPath (export_ mount path : Text) : Text :=
  if relpathUnder path mount = "." then export_
  else normpath (export_.rdropWhile (· = '/') ++ ['/'] ++ relpathUnder path mount)

/-- One root of `root_locations`. -/
def rootLoc (book : Book) (x : HostData) (r : Text × Text) : Option RootLoc :=
  if r.1 = [] then none
  else
    (absPath (some r.2)).map fun path =>
      match ((mountOfRoot r.1 path x.mounts).bind (imports book x.host)).filter
        fun i => under path i.2.1 with
      | some i => ⟨x.host, r.1, i.1, exportPath i.2.2 i.2.1 path, true⟩
      | none => ⟨x.host, r.1, x.host, path, false⟩

/-- `root_locations` -/
def rootLocations (book : Book) (fleet : List HostData) : List RootLoc :=
  fleet.flatMap fun x => x.roots.filterMap (rootLoc book x)

/-- `overlap` -/
def overlap (a b : Text) : Bool :=
  under a b || under b a

/-- The `shared_from` of a location : its owner, if that has a root of its own there. -/
def sharedFrom (locs : List RootLoc) (loc : RootLoc) : Option Text :=
  if loc.imported && (locs.filter fun o => o.owner = loc.owner ∧ overlap o.path loc.path).any
    fun o => o.host = loc.owner && !o.imported then some loc.owner
  else none

/-- `RootInfo` -/
structure RootInfo where
  id : Text
  sharedFrom : Option Text

/-- The roots of `build_detail`; the last location of an id wins. -/
def hostRoots (book : Book) (fleet : List HostData) (host : Text) : Option (List RootInfo) :=
  let locs := rootLocations book fleet
  (fleet.find? fun x => x.host = host).map fun x =>
    (x.roots.filter fun r => r.1 ≠ [] ∧ (absPath (some r.2)).isSome).map fun r =>
      ⟨r.1, (locs.reverse.find? fun l => l.host = host ∧ l.root = r.1).bind
        (SharedLaunch.sharedFrom locs)⟩

/-! ## What the page sends -/

/-- A model of the library. -/
structure Model where
  format : Text
  name : Text
  copies : List Rec

/-- `ModelRef` -/
inductive Ref where
  | hf (repo : Text)
  | ollama (name : Text)
  | file (format root rel : Text)

/-- `refFor` -/
def refFor (m : Model) (copy : Rec) : Option Ref :=
  if m.format = "hf" then some (.hf m.name)
  else if m.format = "ollama" then some (.ollama m.name)
  else if m.format = "gguf" ∨ m.format = "plain" then some (.file m.format copy.root copy.rel)
  else none

/-- What `resolveOnHost` returns. -/
structure Found where
  copy : Rec
  ref : Option Ref
  own : Bool

/-- The root that is sent : the first that is shared from the owner. -/
def translate (details : Option (List RootInfo)) (owner root : Text) : Text :=
  if root = [] then root
  else (((details.getD []).find? fun r => r.sharedFrom = some owner).map (·.id)).getD root

/-- The reference with the root id of the machine. -/
def Ref.translate (details : Option (List RootInfo)) (owner : Text) : Ref → Ref
  | .file format root rel => .file format (SharedLaunch.translate details owner root) rel
  | r => r

/-- `resolveOnHost` -/
def resolveOnHost (m : Model) (host : Text) (details : Option (List RootInfo)) : Option Found :=
  match m.copies.find? fun c => c.host = host with
  | some own => some ⟨own, refFor m own, true⟩
  | none =>
    (m.copies.find? fun c => c.visibleOn.contains host).bind fun shared =>
      (refFor m shared).map fun ref => ⟨shared, some (ref.translate details shared.host), false⟩

/-! ## Where the reference leads -/

/-- What is sent is a place that the hub folded into the copy; its own place, if the copy is the
machine's own. -/
def Located (host : Text) (f : Found) : Prop :=
  ∃ format root rel, f.ref = some (.file format root rel) ∧
    (∃ a ∈ f.copy.aliases, a.host = host ∧ a.root = root ∧ a.rel = rel) ∧
      (f.copy.host = host → root = f.copy.root ∧ rel = f.copy.rel)

/-- A record on an export of a machine, at what is this path there. -/
def exported (book : Book) (owner path : Text) (r : Rec) : Bool :=
  r.nfs && r.mount.any fun m => book.find m.remoteHost r.host = some owner &&
    m.remotePath.any fun rp => under r.path m.mount && m.remote rp r.path = norm path

/-- The copy that another machine owns, if the machine has none. -/
def lent (m : Model) (host : Text) : Option Rec :=
  if m.copies.any (fun c => c.host = host) then none
  else m.copies.find? fun c => c.visibleOn.contains host

variable {lib : Library} {recs : List Rec} {book : Book} {m : Model} {host : Text} {r c : Rec}

theorem recs_visibleOn (h : r ∈ lib.recs) : r.visibleOn = [r.host] := by
  rw [Library.recs, List.mem_insertionSort, List.mem_flatMap] at h
  obtain ⟨s, -, h⟩ := h
  rcases hview : lib.views.find? fun v => v.id = s.1 with _ | view
  · rw [hview] at h
    cases h
  · rw [hview] at h
    obtain ⟨e, -, he⟩ := List.mem_filterMap.1 h
    simp only [makeRec, Option.bind_eq_some_iff] at he
    obtain ⟨rootId, -, spec, -, rel, -, he⟩ := he
    split_ifs at he <;> (obtain rfl := Option.some.inj he; rfl)

/-- The record at a position has the place that is looked for. -/
theorem ownerAt_place {place : Text × Text} {i : ℕ} (h : ownerAt recs place = some i) :
    ∃ t, recs[i]? = some t ∧ (t.host, norm t.path) = place := by
  have hmem := List.mem_of_getLast? h
  obtain ⟨t, ht, hplace⟩ := (Option.any_eq_true _ _).1 (List.mem_filter.1 hmem).2
  exact ⟨t, ht, of_decide_eq_true ((Bool.and_eq_true _ _).mp hplace).2⟩

/-- A record on an export is folded into the one that the owner has at its path. -/
theorem folded_of_exported {owner path : Text} (h : exported book owner path r = true) :
    folded recs book r = ownerAt recs (owner, norm path) := by
  simp only [exported, Bool.and_eq_true, Option.any_eq_true, decide_eq_true_eq] at h
  obtain ⟨hnfs, mount, hmount, howner, rp, hrp, hunder, hpath⟩ := h
  rw [folded, if_pos hnfs, hmount, Option.bind_some, howner, Option.bind_some, hrp,
    Option.bind_some, if_pos hunder, hpath]

/-- What is folded is on an export of the machine that it is folded into. -/
theorem exported_of_folded {i : ℕ} {t : Rec} (ht : recs[i]? = some t)
    (h : folded recs book r = some i) :
    exported book t.host t.path r = true ∧ ownerAt recs (t.host, norm t.path) = some i := by
  rw [folded] at h
  split_ifs at h with hnfs
  simp only [Option.bind_eq_some_iff] at h
  obtain ⟨mount, hmount, owner, howner, rp, hrp, h⟩ := h
  split_ifs at h with hunder
  obtain ⟨t', ht', hplace⟩ := ownerAt_place h
  obtain rfl := Option.some.inj (ht.symm.trans ht')
  obtain ⟨rfl, hpath⟩ := Prod.mk.inj hplace
  rw [hpath, exported]
  simp only [Bool.and_eq_true, Option.any_eq_true, decide_eq_true_eq]
  exact ⟨⟨hnfs, mount, hmount, howner, rp, hrp, hunder, hpath.symm⟩, h⟩

/-- The places of a copy that another machine sees : those of the records on exports of it. -/
theorem mem_aliases (hc : c ∈ lib.view) (hseen : host ∈ c.visibleOn) (hother : c.host ≠ host)
    {a : Alias} (ha : a.host = host) :
    a ∈ c.aliases ↔ ∃ r ∈ lib.recs, r.place = a ∧ exported lib.book c.host c.path r = true := by
  obtain ⟨i, t, ht, -, hc⟩ := mem_mergeShared.1 hc
  have hmem : t ∈ lib.recs := List.mem_of_getElem? ht
  have hplace : c.place = t.place := hc ▸ (foldMany_place t _).1
  have hhost : c.host = t.host := congrArg Alias.host hplace
  have hpath : c.path = t.path := congrArg Alias.path hplace
  rw [hhost] at hother
  -- some record is folded into this one, so it is the last of its machine at its path
  have hlast : ownerAt lib.recs (t.host, norm t.path) = some i := by
    rw [hc, mem_foldMany_visibleOn, recs_visibleOn hmem, List.mem_singleton] at hseen
    obtain ⟨r, hr, -⟩ := hseen.resolve_left fun h => hother h.symm
    exact (exported_of_folded ht (of_decide_eq_true (List.mem_filter.1 hr).2)).2
  have hnot : a ≠ t.place := fun h => hother (by rw [← ha, h]; rfl)
  rw [hhost, hpath, hc, foldMany_aliases, recs_aliases hmem, List.singleton_append, List.mem_cons,
    or_iff_right hnot, List.mem_map]
  constructor
  · rintro ⟨r, hr, rfl⟩
    obtain ⟨hr, hfolded⟩ := List.mem_filter.1 hr
    exact ⟨r, hr, rfl, (exported_of_folded ht (of_decide_eq_true hfolded)).1⟩
  · rintro ⟨r, hr, rfl, hexp⟩
    refine ⟨r, List.mem_filter.2 ⟨hr, decide_eq_true ?_⟩, rfl⟩
    rw [folded_of_exported hexp, hlast]

/-- The own place of a copy. -/
theorem place_mem_aliases (hc : c ∈ lib.view) : c.place ∈ c.aliases := by
  obtain ⟨i, t, ht, -, rfl⟩ := mem_mergeShared.1 hc
  rw [(foldMany_place t _).1, foldMany_aliases, recs_aliases (List.mem_of_getElem? ht)]
  exact List.mem_append_left _ (List.mem_singleton_self _)

/-- A model picked on shared storage is loaded from a place of its copy just when the copy is the
machine's own, or the root that is picked has it : the machine lists the owner's relative path in
that root, on an export of the owner, at the path of the copy. -/
theorem located_iff (lib : Library) (book : Book) (fleet : List HostData) {m : Model}
    (hformat : m.format = "gguf" ∨ m.format = "plain") (hcopies : ∀ c ∈ m.copies, c ∈ lib.view)
    {host : Text} {f : Found}
    (hfound : resolveOnHost m host (hostRoots book fleet host) = some f) :
    Located host f ↔ (∃ c ∈ m.copies, c.host = host) ∨
      ∃ c, lent m host = some c ∧ ∃ r ∈ lib.recs, r.host = host ∧ r.rel = c.rel ∧
        r.root = translate (hostRoots book fleet host) c.host c.root ∧
          exported lib.book c.host c.path r = true := by
  have href (c : Rec) : refFor m c = some (.file m.format c.root c.rel) := by
    have hhf : m.format ≠ "hf" := by rcases hformat with h | h <;> rw [h] <;> decide
    have hollama : m.format ≠ "ollama" := by rcases hformat with h | h <;> rw [h] <;> decide
    rw [refFor, if_neg hhf, if_neg hollama, if_pos hformat]
  rw [resolveOnHost] at hfound
  rcases hown : m.copies.find? fun c => c.host = host with _ | own
  · rw [hown] at hfound
    have hnone : ∀ c ∈ m.copies, c.host ≠ host := fun c hc => by
      simpa using List.find?_eq_none.1 hown c hc
    have hlent : lent m host = m.copies.find? fun c => c.visibleOn.contains host := by
      rw [lent, if_neg]
      simpa using hnone
    obtain ⟨c, hc, hfound⟩ := Option.bind_eq_some_iff.1 hfound
    rw [href, Option.map_some] at hfound
    obtain rfl := Option.some.inj hfound
    have hmem := List.mem_of_find?_eq_some hc
    have hseen : host ∈ c.visibleOn := by simpa using List.find?_some hc
    have haliases {a : Alias} := mem_aliases (hcopies c hmem) hseen (hnone c hmem) (a := a)
    constructor
    · rintro ⟨format, root, rel, hrefs, ⟨a, ha, hhost, hroot, hrel⟩, -⟩
      obtain ⟨-, rfl, rfl⟩ := Ref.file.inj (Option.some.inj hrefs)
      obtain ⟨r, hr, rfl, hexp⟩ := (haliases hhost).1 ha
      exact .inr ⟨c, hlent.trans hc, r, hr, hhost, hrel, hroot, hexp⟩
    · rintro (⟨c', hc', hhost⟩ | ⟨c', hc', r, hr, hhost, hrel, hroot, hexp⟩)
      · exact absurd hhost (hnone c' hc')
      · obtain rfl := Option.some.inj (hc.symm.trans (hlent.symm.trans hc'))
        exact ⟨m.format, _, c.rel, rfl, ⟨r.place, (haliases hhost).2 ⟨r, hr, rfl, hexp⟩, hhost,
          hroot, hrel⟩, fun h => absurd h (hnone c hmem)⟩
  · rw [hown] at hfound
    dsimp only at hfound
    rw [href] at hfound
    obtain rfl := Option.some.inj hfound
    have hmem := List.mem_of_find?_eq_some hown
    have hhost : own.host = host := by simpa using List.find?_some hown
    exact iff_of_true ⟨m.format, own.root, own.rel, rfl,
      ⟨own.place, place_mem_aliases (hcopies own hmem), hhost, rfl, rfl⟩, fun _ => ⟨rfl, rfl⟩⟩
      (.inl ⟨own, hmem, hhost⟩)

/-! ## Two exports of one machine -/

/-- The machine `a` by its name. -/
def nameBook : Book :=
  ⟨fun a => a, fun _ => false, fun a => if a = "a" then some a else none, fun _ => none⟩

/-- A file of `a` in one of its roots, which `b` lists in one of the two that it mounts. -/
def twoExports (root mounted : Text) : Library where
  book := nameBook
  copyId := fun host _ _ => host
  order := fun h => if h = "a" then 0 else 1
  views :=
    [⟨"a", "up", [⟨"one", "/data/one", true⟩, ⟨"two", "/data/two", true⟩], "manage", true, []⟩,
      ⟨"b", "up", [⟨"m1", "/mnt/one", false⟩, ⟨"m2", "/mnt/two", false⟩], "manage", true,
        [⟨"/mnt/one", some (ascii "nfs4"), some "a", some (ascii "/data/one")⟩,
          ⟨"/mnt/two", some (ascii "nfs4"), some "a", some (ascii "/data/two")⟩]⟩]
  snaps :=
    [("a", [⟨some root, some (ascii "x.gguf")⟩]), ("b", [⟨some mounted, some (ascii "x.gguf")⟩])]

/-- The machines as `fleet_status` has them. -/
def twoHosts : List HostData :=
  [⟨"a", [("one", "/data/one"), ("two", "/data/two")], []⟩,
    ⟨"b", [("m1", "/mnt/one"), ("m2", "/mnt/two")],
      [⟨some (ascii "/mnt/one"), some (ascii "nfs4"), some "a", some (ascii "/data/one"), []⟩,
        ⟨some (ascii "/mnt/two"), some (ascii "nfs4"), some "a", some (ascii "/data/two"), []⟩]⟩]

/-- The model of the file. -/
def fileModel (root mounted : Text) : Model :=
  ⟨"gguf", "x", (twoExports root mounted).view⟩

/-- The root that is sent. -/
def Ref.rootId : Ref → Text
  | .file _ root _ => root
  | _ => []

theorem located_iff_first : ∃ f, resolveOnHost (fileModel "one" "m1") "b"
    (hostRoots nameBook twoHosts "b") = some f ∧ Located "b" f := by
  have hsome : (resolveOnHost (fileModel "one" "m1") "b"
      (hostRoots nameBook twoHosts "b")).isSome = true := by decide +kernel
  obtain ⟨f, hf⟩ := Option.isSome_iff_exists.1 hsome
  have hlent : ((lent (fileModel "one" "m1") "b").any fun c => (twoExports "one" "m1").recs.any
      fun r => decide (r.host = ascii "b" ∧ r.rel = c.rel ∧
        r.root = translate (hostRoots nameBook twoHosts "b") c.host c.root) &&
          exported nameBook c.host c.path r) = true := by decide +kernel
  obtain ⟨c, hc, hany⟩ := (Option.any_eq_true _ _).1 hlent
  obtain ⟨r, hr, hall⟩ := List.any_eq_true.1 hany
  obtain ⟨hplace, hexp⟩ := (Bool.and_eq_true _ _).mp hall
  obtain ⟨hhost, hrel, hroot⟩ := of_decide_eq_true hplace
  exact ⟨f, hf, (located_iff (twoExports "one" "m1") nameBook twoHosts (.inl rfl) (fun _ h => h)
    hf).2 (.inr ⟨c, hc, r, hr, hhost, hrel, hroot, hexp⟩)⟩

/-- For the file in the second root the first is sent. -/
theorem first_sent : ∃ f, resolveOnHost (fileModel "two" "m2") "b"
    (hostRoots nameBook twoHosts "b") = some f ∧ ¬Located "b" f := by
  have hany : ((resolveOnHost (fileModel "two" "m2") "b" (hostRoots nameBook twoHosts "b")).any
      fun f => decide (f.ref.map Ref.rootId = some (ascii "m1") ∧
        f.copy.aliases.map (fun a => (a.host, a.root)) =
          [(ascii "a", ascii "two"), (ascii "b", ascii "m2")])) = true := by decide +kernel
  obtain ⟨f, hf, hall⟩ := (Option.any_eq_true _ _).1 hany
  obtain ⟨href, haliases⟩ := of_decide_eq_true hall
  refine ⟨f, hf, ?_⟩
  rintro ⟨format, root, rel, hrefs, ⟨a, ha, hhost, hroot, -⟩, -⟩
  rw [hrefs] at href
  have hpair : (ascii "b", ascii "m1") ∈ f.copy.aliases.map fun a => (a.host, a.root) :=
    List.mem_map.2 ⟨a, ha, by rw [hhost, hroot, ← Option.some.inj href]; rfl⟩
  rw [haliases] at hpair
  revert hpair
  decide

end EngineConsole.SharedLaunch
