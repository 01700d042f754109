import EngineConsole.JsonText
import EngineConsole.SharedCopies

/-!
# The merged library

`rebuild` makes the library's view of what all hosts list : a record for each entry that
`make_rec` accepts, the records on shared storage folded into those of the disk that is
exported, and indexes of what is left, by id, by host, by place and by model.

Folding moves the places of records and loses none (`aliases_mergeListed`). The indexes are
those of the records when the ids are distinct, and nothing makes them distinct : a node may
list an entry twice, and the text that an id is the hash of does not say where the root ends
and the path starts. `copies_listed` is when every entry is listed once.
-/

set_option linter.unusedSectionVars false

namespace EngineConsole

namespace Usage

open Web Lifecycle

/-! ## Entries -/

/-- A JSON value of an entry; its numbers are not looked at here. -/
abbrev Value := Json Text ℚ

/-- The fields of an object. -/
abbrev Obj := List (Text × Value)

/-- `get`. -/
def Obj.get (e : Obj) (k : Text) : Option Value :=
  (Keyed.find Prod.fst k e).map Prod.snd

/-- `insert`. -/
def Obj.insert (e : Obj) (k : Text) (v : Value) : Obj :=
  Keyed.put Prod.fst (k, v) e

/-- `as_str`. -/
def asStr : Option Value → Option Text
  | some (.str s) => some s
  | _ => none

/-- `s_` : a text that is not empty, cut to a length. -/
def strOf (v : Option Value) (cap : ℕ) : Option Text :=
  ((asStr v).filter (· ≠ [])).map (·.take cap)

/-- What depends on tables that are not of this model. -/
structure Texts where
  /-- `strip` -/
  strip : Text → Text
  /-- `to_lowercase` -/
  lower : Text → Text
  /-- `to_uppercase` -/
  upper : Text → Text
  /-- an address as `IpAddr` shows it, and whether it is a loopback address -/
  ip : Text → Option (Text × Bool)
  /-- the owner and the name of `HF_DIR` -/
  hfDir : Text → Option (Text × Text)
  /-- `gguf_stem` -/
  ggufStem : Text → Text
  /-- `gguf_quant` -/
  ggufQuant : Text → Text
  /-- the first 16 digits of SHA-1 -/
  digest : Text → Text

/-- `FORMATS`. -/
def formats : List Text :=
  ["hf", "gguf", "ollama", "plain", "other"]

/-- `fmt_of`. -/
def fmtOf (e : Obj) : Text :=
  match strOf (e.get "format") 16 with
  | some f => if f ∈ formats then f else "other"
  | none => "other"

/-- The text after the last slash. -/
def lastPart (rel : Text) : Text :=
  (rel.splitOn '/').getLast?.getD []

def orModel (s : Text) : Text :=
  if s = [] then "model" else s

/-- `derive_name`. -/
def deriveName (T : Texts) (fmt : Text) (e : Obj) (rel : Text) : Text :=
  match strOf (e.get "name") 256 with
  | some name => name
  | none =>
    if fmt = "hf" then
      match T.hfDir rel with
      | some (owner, name) => owner ++ "/" ++ name
      | none => orModel (lastPart rel)
    else if fmt = "gguf" then orModel (T.ggufStem (lastPart rel))
    else orModel (lastPart rel)

/-- `entry_key`, without the quant. -/
def entryKey (T : Texts) (fmt name : Text) (e : Obj) (rel : Text) : Text :=
  let quant := strOf (e.get "quant") 32
  if fmt = "gguf" then
    let quant := quant.or (if T.ggufQuant rel = [] then none else some (T.ggufQuant rel))
    let base :=
      match quant with
      | some q =>
        if (':' :: T.lower q).isSuffixOf (T.lower name) then name else name ++ ":" ++ T.upper q
      | none => name
    "gguf:" ++ base
  else if fmt = "other" then "other:" ++ name
  else fmt ++ ":" ++ name

/-- `ends_with_ci` of `.gguf` : only ASCII characters have these in lower case. -/
def endsGguf (s : Text) : Bool :=
  (ascii ".gguf").isSuffixOf (s.map Char.toLower)

/-- The field of a value, if it is an object. -/
def field? (v : Value) (k : Text) : Option Value :=
  match v with
  | .obj fs => Obj.get fs k
  | _ => none

/-- The value that a missing field counts as. -/
def orNull (v : Option Value) : Value :=
  v.getD .null

/-- The entry of one file of a repository of GGUF files. -/
def ggufFile (e info : Obj) (baseRel : Text) (warnings : List Value) (f : Value) : Option Obj :=
  match f with
  | .obj fs =>
    match Obj.get fs "role" with
    | none | some .null =>
      ((asStr (Obj.get fs "rel")).filter (· ≠ [])).map fun rel =>
        let e := e.insert "rel" (.str (baseRel ++ "/" ++ rel))
        let e := [ascii "size", ascii "files", ascii "shards", ascii "quant"].foldl
          (fun e k => e.insert k (orNull (Obj.get fs k))) e
        let e := (e.insert "params" .null).insert "warnings" (.arr warnings)
        e.insert "meta" (.obj [("hf_repo", orNull (info.get "hf_repo")), ("repo_rel", .str baseRel)])
    | some _ => none
  | _ => none

/-- `expand_gguf_repo`. -/
def expandGgufRepo (e : Obj) : List Obj :=
  match e.get "meta", asStr (e.get "rel") with
  | some (.obj info), some baseRel =>
    match Obj.get info "gguf_files" with
    | some (.arr files) =>
      if fmtOf e ≠ "gguf" ∨ files = [] ∨ baseRel = [] ∨ endsGguf baseRel then [e]
      else
        let strings :=
          match e.get "warnings" with
          | some (.arr ws) => (ws.filter fun w => (asStr (some w)).isSome).take 7
          | _ => []
        let projector := files.any fun f => asStr (field? f "role") = some (ascii "mmproj")
        let warnings := strings ++ if projector then
          [.str "the repo also has a vision projector (mmproj) file; image input is not wired up for it yet"]
          else []
        let out := files.filterMap (ggufFile e info baseRel warnings)
        if out = [] then [e] else out
    | _ => [e]
  | _, _ => [e]

/-! ## Who owns an address -/

/-- `HostView`, with the facts that say which machine it is. -/
structure HostView extends View where
  addresses : List Text
  hostname : Option Text

/-- `canon_addr`. -/
def Texts.canonAddr (T : Texts) (text : Text) : Text :=
  let bracket (c : Char) : Bool := c = '[' || c = ']'
  let t := ((T.strip text).dropWhile bracket).reverse.dropWhile bracket |>.reverse
  let t := T.lower (t.takeWhile (· ≠ '%'))
  match T.ip t with
  | some (a, _) => a
  | none => t

/-- `is_loopback`. -/
def Texts.isLoopback (T : Texts) (addr : Text) : Bool :=
  match T.ip addr with
  | some (_, loopback) => loopback
  | none => addr = "localhost" || addr = "localhost.localdomain"

/-- The host that claims a key, when no other host does. -/
def single (claims : List (Text × Text)) (k : Text) : Option Text :=
  match ((claims.filter fun c => c.1 = k).map Prod.snd).dedup with
  | [h] => some h
  | _ => none

/-- `AddressBook::new`. -/
def addressBook (T : Texts) (views : List HostView) : Book :=
  let byAddr := views.flatMap fun v => (v.addresses.map T.canonAddr).filterMap fun n =>
    if n ≠ [] ∧ !T.isLoopback n then some (n, v.id) else none
  let byName := views.flatMap fun v =>
    let name := T.lower (v.hostname.getD [])
    if name ≠ [] ∧ !T.isLoopback name then [(name, v.id), (name.takeWhile (· ≠ '.'), v.id)] else []
  ⟨T.canonAddr, T.isLoopback, single byAddr, single byName⟩

/-! ## Records -/

/-- A record, with what the library groups it by. -/
structure Listed extends Rec where
  fmt : Text
  name : Text
  key : Text
  entry : Obj

/-- The text that the id of a copy is the hash of. -/
def placeText (host root rel : Text) : Text :=
  host ++ "|" ++ root ++ "|" ++ rel

/-- `copy_id`. -/
def Texts.copyId (T : Texts) (host root rel : Text) : Text :=
  T.digest (placeText host root rel)

/-- What `make_rec` reads of an entry for its place. -/
def entryOf (e : Obj) : Entry :=
  ⟨asStr (e.get "root"), asStr (e.get "rel")⟩

/-- `make_rec`. -/
def makeListed (T : Texts) (view : View) (e : Obj) : Option Listed :=
  (makeRec T.copyId view (entryOf e)).map fun r =>
    let fmt := fmtOf e
    let name := deriveName T fmt e r.rel
    { r with fmt := fmt, name := name, key := entryKey T fmt name e r.rel, entry := e }

/-- `merge_shared`. -/
def mergeListed (recs : List Listed) (book : Book) : List Listed :=
  let own := recs.map Listed.toRec
  (((foldAll own book).zip recs).filter fun r => (folded own book r.2.toRec).isNone).map fun r =>
    { r.2 with toRec := r.1 }

/-! ## The view -/

/-- `Snapshot`; a model stands for its key. -/
structure Snapshot where
  recs : List Listed := []
  recIdx : Text → Option ℕ := fun _ => none
  models : List Text := []
  modelIdx : Text → Option ℕ := fun _ => none
  members : Text → Option (List Text) := fun _ => none
  aliasOf : Text × Text × Text → Option Text := fun _ => none
  byHost : Text → List Text := fun _ => []
  hfByName : Text → List Text := fun _ => []
  ollamaByName : Text → List Text := fun _ => []

/-- The view while it is made, and the positions of the records of each model. -/
structure Building extends Snapshot where
  byKey : List (Text × List ℕ) := []

/-- `push` on the list of a key. -/
def pushAt (m : Text → List Text) (k id : Text) : Text → List Text :=
  Function.update m k (m k ++ [id])

/-- The key of a place. -/
def Alias.key (a : Alias) : Text × Text × Text :=
  (a.host, a.root, a.rel)

/-- Index a record. -/
def Building.add (b : Building) (r : Listed) : Building :=
  let idx := b.recs.length
  { recs := b.recs ++ [r]
    recIdx := Function.update b.recIdx r.id (some idx)
    models := b.models
    modelIdx := b.modelIdx
    members := b.members
    aliasOf := r.aliases.foldl (fun m a => Function.update m a.key (some r.id)) b.aliasOf
    byHost := pushAt b.byHost r.host r.id
    hfByName := if r.fmt = "hf" then pushAt b.hfByName r.name r.id else b.hfByName
    ollamaByName :=
      if r.fmt ≠ "hf" ∧ r.fmt = "ollama" then pushAt b.ollamaByName r.name r.id else b.ollamaByName
    byKey :=
      match Keyed.find Prod.fst r.key b.byKey with
      | some _ => Keyed.update Prod.fst r.key (fun p => (p.1, p.2 ++ [idx])) b.byKey
      | none => b.byKey ++ [(r.key, [idx])] }

/-- Add a model. -/
def Snapshot.addModel (v : Snapshot) (p : Text × List ℕ) : Snapshot :=
  { v with
    modelIdx := Function.update v.modelIdx p.1 (some v.models.length)
    members := Function.update v.members p.1
      (some (p.2.filterMap fun i => (v.recs[i]?).map fun r => r.id))
    models := v.models ++ [p.1] }

/-- The indexes of records. -/
def index (recs : List Listed) : Snapshot :=
  let b := recs.foldl Building.add {}
  b.byKey.foldl Snapshot.addModel b.toSnapshot

/-- What `rebuild` reads. -/
structure Fleet where
  texts : Texts
  /-- the configured hosts, in their order -/
  hosts : List Text
  /-- `views` -/
  views : List HostView
  /-- the entries of the last snapshot of each host -/
  snaps : List (Text × List Obj)

/-- What the nodes report, as the deletion of a copy looks at it. -/
def Fleet.library (f : Fleet) : Library where
  book := addressBook f.texts f.views
  copyId := f.texts.copyId
  order := fun h => (f.hosts.idxOf? h).getD (2 ^ 30)
  views := f.views.map HostView.toView
  snaps := f.snaps.map fun s => (s.1, (s.2.flatMap expandGgufRepo).map entryOf)

/-- The records that `make_rec` accepts, in their order. -/
def Fleet.listed (f : Fleet) : List Listed :=
  (f.snaps.flatMap fun s =>
    match f.views.find? fun v => v.id = s.1 with
    | some view => (s.2.flatMap expandGgufRepo).filterMap (makeListed f.texts view.toView)
    | none => []).insertionSort fun a b => f.library.le a.toRec b.toRec = true

/-- `rebuild`. -/
def Fleet.rebuild (f : Fleet) : Snapshot :=
  index (mergeListed f.listed f.library.book)

/-! ## What is listed -/

/-- The copy lies on the disk of a configured host, which lists it there. -/
def Fleet.Shared (f : Fleet) (r : Listed) : Prop :=
  ∃ m owner rp, r.mount = some m ∧ m.nfs = true ∧
    f.library.book.find m.remoteHost r.host = some owner ∧ m.remotePath = some rp ∧
    under r.path m.mount = true ∧
    ∃ q ∈ f.listed, q.nfs = false ∧ q.host = owner ∧ norm q.path = m.remote rp r.path

/-- No place is listed twice, and no two copies with a record of their own have one text. -/
def Fleet.Distinct (f : Fleet) : Prop :=
  f.listed.Pairwise fun a b => a.place.key ≠ b.place.key ∧
    (¬f.Shared a → ¬f.Shared b → placeText a.host a.root a.rel ≠ placeText b.host b.root b.rel)

/-- Each of the listed copies is one alias of one record, the ids are distinct, and the indexes
are those of the records. -/
structure Snapshot.Exact (listed : List Listed) (v : Snapshot) : Prop where
  once : ∀ e ∈ listed,
    ((v.recs.flatMap fun r => r.aliases).map Alias.key).count e.place.key = 1
  only : ∀ r ∈ v.recs, ∀ a ∈ r.aliases, ∃ e ∈ listed, a = e.place
  ids : (v.recs.map fun r => r.id).Nodup
  recIdx : ∀ id i, v.recIdx id = some i ↔ ∃ r, v.recs[i]? = some r ∧ r.id = id
  byHost : ∀ h, v.byHost h = (v.recs.filter fun r => r.host = h).map fun r => r.id
  aliasOf : ∀ k id, v.aliasOf k = some id ↔
    ∃ r ∈ v.recs, r.id = id ∧ k ∈ r.aliases.map Alias.key
  models : v.models.Nodup ∧ ∀ key, key ∈ v.models ↔ ∃ r ∈ v.recs, r.key = key
  modelIdx : ∀ key i, v.modelIdx key = some i ↔ v.models[i]? = some key
  members : ∀ key, v.members key = if key ∈ v.models then
    some ((v.recs.filter fun r => r.key = key).map fun r => r.id) else none
  oneModel : ∀ r ∈ v.recs, ∃! key, ∃ ids, v.members key = some ids ∧ r.id ∈ ids
  visibleOn : ∀ r ∈ v.recs, ∀ h, h ∈ r.visibleOn ↔ ∃ a ∈ r.aliases, a.host = h

/-! ## Folding loses no place -/

section

variable {α β : Type*} {own : List Rec} {recs : List Listed} {book : Book} {r : Rec}

theorem flatMap_modify_perm {g : α → List β} {f : α → α} {ys : List β} {x : α} :
    ∀ {l : List α} {i : ℕ}, l[i]? = some x → g (f x) = g x ++ ys →
      ((l.modify i f).flatMap g).Perm (l.flatMap g ++ ys)
  | [], i, h, _ => by simp at h
  | y :: l, 0, h, hg => by
    obtain rfl : y = x := by simpa using h
    simp only [List.modify_zero_cons, List.flatMap_cons, hg, List.append_assoc]
    exact List.Perm.append_left _ List.perm_append_comm
  | y :: l, i + 1, h, hg => by
    have ih := flatMap_modify_perm (l := l) (i := i) (by simpa using h) hg
    simp only [List.modify_succ_cons, List.flatMap_cons, List.append_assoc]
    exact ih.append_left _

theorem zip_modify (f : Rec → Rec) : ∀ (acc own : List Rec) (i : ℕ),
    (acc.modify i f).zip own = (acc.zip own).modify i (Prod.map f id)
  | [], own, i => by simp
  | _ :: _, [], i => by simp
  | a :: acc, b :: own, 0 => by simp
  | a :: acc, b :: own, i + 1 => by simp [zip_modify f acc own i]

/-- What is folded into is a record that is not folded away. -/
theorem folded_target {i : ℕ} (h : folded own book r = some i) :
    ∃ t, own[i]? = some t ∧ folded own book t = none := by
  unfold folded at h
  split_ifs at h
  simp only [Option.bind_eq_some_iff] at h
  obtain ⟨m, -, owner, -, rp, -, h⟩ := h
  split_ifs at h
  have hmem := List.mem_of_getLast? h
  obtain ⟨-, hany⟩ := List.mem_filter.1 hmem
  obtain ⟨t, ht, hplace⟩ := (Option.any_eq_true _ _).1 hany
  rw [Bool.and_eq_true, Bool.not_eq_true'] at hplace
  exact ⟨t, ht, if_neg (by simp [hplace.1])⟩

/-- The places of a pair of a record and what became of it. -/
def placesLeft (own : List Rec) (book : Book) (p : Rec × Rec) : List Alias :=
  if (folded own book p.2).isNone then p.1.aliases else []

theorem foldl_places (l acc : List Rec) (hlen : acc.length = own.length) :
    (((l.foldl (fun acc r =>
      match folded own book r with
      | some t => acc.modify t r.fold
      | none => acc) acc).zip own).flatMap (placesLeft own book)).Perm
        ((acc.zip own).flatMap (placesLeft own book) ++
          (l.filter fun r => (folded own book r).isSome).map Rec.place) := by
  induction l generalizing acc with
  | nil => simp
  | cons r l ih =>
    rw [List.foldl_cons]
    cases hr : folded own book r with
    | none => simpa [hr] using ih acc hlen
    | some i =>
      obtain ⟨t, ht, hnone⟩ := folded_target hr
      have hi : i < acc.length := hlen ▸ (List.getElem?_eq_some_iff.1 ht).1
      have hpair : (acc.zip own)[i]? = some (acc[i], t) :=
        List.getElem?_zip_eq_some.2 ⟨List.getElem?_eq_getElem hi, ht⟩
      have hstep : placesLeft own book (Prod.map r.fold id (acc[i], t)) =
          placesLeft own book (acc[i], t) ++ [r.place] := by
        simp [placesLeft, hnone, Rec.fold]
      refine (ih (acc.modify i r.fold) (by simpa using hlen)).trans ?_
      rw [zip_modify, List.filter_cons_of_pos (by simp [hr]), List.map_cons]
      refine ((flatMap_modify_perm hpair hstep).append_right _).trans ?_
      simp

theorem flatMap_filter (p : α → Bool) (g : α → List β) (l : List α) :
    (l.filter p).flatMap g = l.flatMap fun x => if p x then g x else [] := by
  induction l with
  | nil => rfl
  | cons x l ih =>
    by_cases hx : p x = true <;> simp [hx, ih]

/-- The places of the merged records are those of all records. -/
theorem aliases_mergeShared (hown : ∀ r ∈ own, r.aliases = [r.place]) :
    ((mergeShared own book).flatMap fun r => r.aliases).Perm (own.map Rec.place) := by
  have hleft : (mergeShared own book).flatMap (fun r => r.aliases) =
      ((foldAll own book).zip own).flatMap (placesLeft own book) := by
    rw [mergeShared, List.flatMap_map, flatMap_filter]
    rfl
  have hstart : (own.zip own).flatMap (placesLeft own book) =
      (own.filter fun r => (folded own book r).isNone).map Rec.place := by
    suffices h : ∀ l : List Rec, (∀ r ∈ l, r.aliases = [r.place]) →
        (l.zip l).flatMap (placesLeft own book) =
          (l.filter fun r => (folded own book r).isNone).map Rec.place from h own hown
    intro l hl
    induction l with
    | nil => rfl
    | cons r l ih =>
      have hrest := ih fun r' hr' => hl r' (List.mem_cons_of_mem r hr')
      rw [List.zip_cons_cons, List.flatMap_cons, hrest, placesLeft, hl r List.mem_cons_self]
      cases hr : folded own book r <;> simp [hr]
  rw [hleft]
  refine (foldl_places own own rfl).trans ?_
  rw [hstart, ← List.map_append]
  refine List.Perm.map _ ?_
  simpa using List.filter_append_perm (fun r => (folded own book r).isNone) own

theorem length_foldAll : (foldAll own book).length = own.length := by
  suffices h : ∀ (l acc : List Rec), (l.foldl (fun acc r =>
      match folded own book r with
      | some t => acc.modify t r.fold
      | none => acc) acc).length = acc.length from h own own
  intro l
  induction l with
  | nil => exact fun _ => rfl
  | cons r l ih =>
    intro acc
    rw [List.foldl_cons, ih]
    split
    · rw [List.length_modify]
    · rfl

/-- Folding keeps everything but where else a record is. -/
theorem foldAll_pair {p : Rec × Listed}
    (hp : p ∈ (foldAll (recs.map Listed.toRec) book).zip recs) :
    ∃ (i : ℕ), recs[i]? = some p.2 ∧ p.1 = p.2.toRec.foldMany
      ((recs.map Listed.toRec).filter fun q =>
        folded (recs.map Listed.toRec) book q = some i) := by
  obtain ⟨i, hi⟩ := List.getElem?_of_mem hp
  rw [List.getElem?_zip_eq_some, foldAll_getElem?, List.getElem?_map] at hi
  obtain ⟨hmerged, hr⟩ := hi
  rw [hr] at hmerged
  exact ⟨i, hr, (Option.some.inj hmerged).symm⟩

/-- A merged record is one that was not folded away, with the places of others. -/
theorem mem_mergeListed {r' : Listed} (h : r' ∈ mergeListed recs book) : ∃ (i : ℕ) (r : Listed),
    recs[i]? = some r ∧ folded (recs.map Listed.toRec) book r.toRec = none ∧
      r' = { r with toRec := r.toRec.foldMany ((recs.map Listed.toRec).filter fun q =>
        folded (recs.map Listed.toRec) book q = some i) } := by
  obtain ⟨p, hp, rfl⟩ := List.mem_map.1 h
  obtain ⟨hp, hnone⟩ := List.mem_filter.1 hp
  obtain ⟨i, hr, hfold⟩ := foldAll_pair hp
  exact ⟨i, p.2, hr, Option.isNone_iff_eq_none.1 hnone, by rw [hfold]⟩

theorem mergeListed_toRec : (mergeListed recs book).map Listed.toRec =
    mergeShared (recs.map Listed.toRec) book := by
  have hzip : (foldAll (recs.map Listed.toRec) book).zip (recs.map Listed.toRec) =
      ((foldAll (recs.map Listed.toRec) book).zip recs).map (Prod.map id Listed.toRec) := by
    rw [List.zip_map_right]
  rw [mergeListed, mergeShared, hzip, List.filter_map, List.map_map, List.map_map]
  rfl

/-- What folding keeps is kept in the order of the records. -/
theorem map_mergeListed {γ : Type*} (g : Listed → γ)
    (hg : ∀ (r : Listed) (rs : List Rec), g { r with toRec := r.toRec.foldMany rs } = g r) :
    (mergeListed recs book).map g =
      (recs.filter fun r => (folded (recs.map Listed.toRec) book r.toRec).isNone).map g := by
  have hlen : recs.length ≤ (foldAll (recs.map Listed.toRec) book).length := by
    rw [length_foldAll, List.length_map]
  have hsnd : ((foldAll (recs.map Listed.toRec) book).zip recs).map Prod.snd = recs :=
    List.map_snd_zip hlen
  have hright (q : Listed → Bool) : recs.filter q =
      (((foldAll (recs.map Listed.toRec) book).zip recs).filter fun p => q p.2).map Prod.snd := by
    conv_lhs => rw [← hsnd, List.filter_map]
    rfl
  rw [mergeListed, List.map_map, hright, List.map_map]
  refine List.map_congr_left fun p hp => ?_
  obtain ⟨i, -, hfold⟩ := foldAll_pair (List.mem_of_mem_filter hp)
  simp only [Function.comp_apply, hfold, hg]

theorem foldMany_fields (t : Rec) (rs : List Rec) :
    (t.foldMany rs).id = t.id ∧ (t.foldMany rs).host = t.host := by
  induction rs generalizing t with
  | nil => exact ⟨rfl, rfl⟩
  | cons r rs ih => exact ih (r.fold t)

theorem mem_foldMany_visibleOn (t : Rec) (rs : List Rec) (h : Text) :
    h ∈ (t.foldMany rs).visibleOn ↔ h ∈ t.visibleOn ∨ ∃ r ∈ rs, r.host = h := by
  induction rs generalizing t with
  | nil => simp [Rec.foldMany]
  | cons r rs ih =>
    have hstep : h ∈ (r.fold t).visibleOn ↔ h ∈ t.visibleOn ∨ r.host = h := by
      unfold Rec.fold
      dsimp only
      split_ifs with hmem
      · exact ⟨.inl, fun hor => hor.elim id fun he => he ▸ hmem⟩
      · simp [eq_comm]
    rw [Rec.foldMany, List.foldl_cons, ← Rec.foldMany, ih, hstep]
    simp [or_assoc]

end

/-! ## Indexes -/

/-- The ids of the records at positions. -/
def idsAt (recs : List Listed) (is : List ℕ) : List Text :=
  is.filterMap fun i => (recs[i]?).map fun r => r.id

/-- The positions of the records of each model. -/
structure Grouped (recs : List Listed) (byKey : List (Text × List ℕ)) : Prop where
  nodup : (Keyed.keys Prod.fst byKey).Nodup
  key : ∀ key, key ∈ Keyed.keys Prod.fst byKey ↔ ∃ r ∈ recs, r.key = key
  within : ∀ p ∈ byKey, ∀ i ∈ p.2, i < recs.length
  members : ∀ p ∈ byKey, idsAt recs p.2 = (recs.filter fun r => r.key = p.1).map fun r => r.id

/-- What the indexes are while records are added. -/
structure Building.Sound (b : Building) : Prop where
  idx : ∀ id i, b.recIdx id = some i → ∃ r, b.recs[i]? = some r ∧ r.id = id
  known : ∀ r ∈ b.recs, (b.recIdx r.id).isSome
  aliasOf : ∀ k id, b.aliasOf k = some id → ∃ r ∈ b.recs, r.id = id ∧ k ∈ r.aliases.map Alias.key
  placed : ∀ r ∈ b.recs, ∀ a ∈ r.aliases, (b.aliasOf a.key).isSome
  byHost : ∀ h, b.byHost h = (b.recs.filter fun r => r.host = h).map fun r => r.id
  groups : Grouped b.recs b.byKey
  models : b.models = [] ∧ (∀ k, b.modelIdx k = none) ∧ ∀ k, b.members k = none

theorem foldl_update_eq {κ ν : Type*} [DecidableEq κ] (key : Alias → κ) (v : ν) (k : κ) :
    ∀ (l : List Alias) (m : κ → Option ν),
      l.foldl (fun m a => Function.update m (key a) (some v)) m k =
        if k ∈ l.map key then some v else m k
  | [], m => by simp
  | a :: l, m => by
    rw [List.foldl_cons, foldl_update_eq key v k l]
    by_cases ha : k = key a
    · simp [ha]
    · simp [ha]

section

variable {b : Building} {r : Listed}

theorem pushAt_of (m : Text → List Text) (k k' id : Text) :
    pushAt m k id k' = if k = k' then m k' ++ [id] else m k' := by
  unfold pushAt
  split_ifs with hk
  · rw [← hk, Function.update_self]
  · rw [Function.update_of_ne (Ne.symm hk)]

theorem filter_concat (p : Listed → Prop) [DecidablePred p] (l : List Listed) (r : Listed) :
    ((l ++ [r]).filter fun r => p r).map (fun r => r.id) =
      if p r then ((l.filter fun r => p r).map fun r => r.id) ++ [r.id]
      else (l.filter fun r => p r).map fun r => r.id := by
  split_ifs with hr <;> simp [List.filter_append, hr]

theorem idsAt_concat (l : List Listed) (r : Listed) {is : List ℕ} (h : ∀ i ∈ is, i < l.length) :
    idsAt (l ++ [r]) is = idsAt l is := by
  refine List.filterMap_congr fun i hi => ?_
  rw [List.getElem?_append_left (h i hi)]

theorem Grouped.add {recs : List Listed} {byKey : List (Text × List ℕ)} (h : Grouped recs byKey)
    (r : Listed) : Grouped (recs ++ [r]) (match Keyed.find Prod.fst r.key byKey with
      | some _ => Keyed.update Prod.fst r.key (fun p => (p.1, p.2 ++ [recs.length])) byKey
      | none => byKey ++ [(r.key, [recs.length])]) := by
  have hlen (p : Text × List ℕ) (hp : p ∈ byKey) (i : ℕ) (hi : i ∈ p.2) :
      i < (recs ++ [r]).length :=
    (h.within p hp i hi).trans (by simp)
  have hids (p : Text × List ℕ) (hp : p ∈ byKey) : idsAt (recs ++ [r]) p.2 =
      (recs.filter fun r => r.key = p.1).map fun r => r.id := by
    rw [idsAt_concat recs r (h.within p hp), h.members p hp]
  have hlast : idsAt (recs ++ [r]) [recs.length] = [r.id] := by simp [idsAt]
  cases hfind : Keyed.find Prod.fst r.key byKey with
  | some q =>
    have hq : r.key ∈ Keyed.keys Prod.fst byKey := Keyed.isSome_find.1 (by simp [hfind])
    have hkeys : Keyed.keys Prod.fst (Keyed.update Prod.fst r.key
        (fun p : Text × List ℕ => (p.1, p.2 ++ [recs.length])) byKey) =
        Keyed.keys Prod.fst byKey := Keyed.keys_update (fun p => by rfl) r.key byKey
    refine ⟨hkeys ▸ h.nodup, fun k => ?_, fun p hp i hi => ?_, fun p hp => ?_⟩
    · rw [hkeys, h.key k]
      simp only [List.mem_append, List.mem_singleton]
      constructor
      · rintro ⟨r', hr', hk⟩
        exact ⟨r', .inl hr', hk⟩
      · rintro ⟨r', hr' | rfl, hk⟩
        · exact ⟨r', hr', hk⟩
        · exact (h.key k).1 (hk ▸ hq)
    · obtain ⟨e, he, rfl | ⟨-, rfl⟩⟩ := Keyed.mem_update hp
      · exact hlen _ he i hi
      · rcases List.mem_append.1 hi with hi | hi
        · exact hlen e he i hi
        · simp [List.mem_singleton.1 hi]
    · obtain ⟨e, he, rfl⟩ := List.mem_map.1 hp
      rw [filter_concat fun r => r.key = _]
      split_ifs with hk hk' hk'
      · rw [← hids e he, ← hlast]
        exact List.filterMap_append
      · exact absurd hk.symm hk'
      · exact absurd hk'.symm hk
      · exact hids e he
  | none =>
    have hq : r.key ∉ Keyed.keys Prod.fst byKey := Keyed.find_eq_none.1 hfind
    refine ⟨?_, fun k => ?_, fun p hp i hi => ?_, fun p hp => ?_⟩
    · have hne (k : Text) (is : List ℕ) (hk : (k, is) ∈ byKey) : k ≠ r.key := fun he =>
        hq (he ▸ List.mem_map_of_mem hk)
      simpa [Keyed.keys, List.nodup_append] using ⟨h.nodup, hne⟩
    · rw [Keyed.keys, List.map_append, List.mem_append, ← Keyed.keys, h.key k]
      simp [or_and_right, exists_or, eq_comm]
    · rcases List.mem_append.1 hp with hp | hp
      · exact hlen p hp i hi
      · rw [List.mem_singleton.1 hp] at hi
        simp [List.mem_singleton.1 hi]
    · rw [filter_concat fun r => r.key = _]
      rcases List.mem_append.1 hp with hp | hp
      · have hne : r.key ≠ p.1 := fun he => hq (he ▸ List.mem_map_of_mem hp)
        rw [if_neg hne, hids p hp]
      · have hnone : recs.filter (fun r' => r'.key = r.key) = [] := by
          refine List.filter_eq_nil_iff.2 fun r' hr' hk => hq ((h.key _).2 ⟨r', hr', ?_⟩)
          simpa using hk
        rw [List.mem_singleton.1 hp, if_pos rfl, hnone, hlast]
        rfl

theorem Building.Sound.add (h : b.Sound) (r : Listed) : (b.add r).Sound := by
  have hnew : (b.recs ++ [r])[b.recs.length]? = some r := by simp
  have hold {i : ℕ} {r' : Listed} (hr' : b.recs[i]? = some r') : (b.recs ++ [r])[i]? = some r' := by
    rw [List.getElem?_append_left (List.getElem?_eq_some_iff.1 hr').1, hr']
  constructor
  case idx =>
    intro id i hi
    by_cases hid : id = r.id
    · obtain rfl := hid
      obtain rfl : b.recs.length = i := by simpa [Building.add] using hi
      exact ⟨r, hnew, rfl⟩
    · obtain ⟨r', hr', hid'⟩ := h.idx id i (by simpa [Building.add, hid] using hi)
      exact ⟨r', hold hr', hid'⟩
  case known =>
    intro r' hr'
    rcases List.mem_append.1 hr' with hr' | hr'
    · by_cases hid : r'.id = r.id
      · simp [Building.add, hid]
      · simpa [Building.add, hid] using h.known r' hr'
    · obtain rfl := List.mem_singleton.1 hr'
      simp [Building.add]
  case aliasOf =>
    intro k id hk
    rw [show (b.add r).aliasOf k = _ from foldl_update_eq Alias.key r.id k r.aliases b.aliasOf] at hk
    split_ifs at hk with hmem
    · exact ⟨r, by simp [Building.add], Option.some.inj hk, hmem⟩
    · obtain ⟨r', hr', hid, hmem'⟩ := h.aliasOf k id hk
      exact ⟨r', List.mem_append_left _ hr', hid, hmem'⟩
  case placed =>
    intro r' hr' a ha
    rw [show (b.add r).aliasOf a.key = _ from foldl_update_eq Alias.key r.id _ r.aliases b.aliasOf]
    split_ifs with hmem
    · rfl
    · rcases List.mem_append.1 hr' with hr' | hr'
      · exact h.placed r' hr' a ha
      · obtain rfl := List.mem_singleton.1 hr'
        exact absurd (List.mem_map_of_mem ha) hmem
  case byHost =>
    intro host
    rw [show (b.add r).byHost host = _ from pushAt_of b.byHost r.host host r.id, h.byHost]
    exact (filter_concat (fun r => r.host = host) b.recs r).symm
  case models => exact h.models
  case groups => exact h.groups.add r

theorem Building.sound_of (recs : List Listed) : (recs.foldl Building.add {}).Sound ∧
    (recs.foldl Building.add {}).recs = recs := by
  have hstart : Building.Sound {} := by
    constructor
    case groups => constructor <;> simp
    all_goals simp
  suffices h : ∀ (l : List Listed) (b : Building), b.Sound → (l.foldl Building.add b).Sound ∧
      (l.foldl Building.add b).recs = b.recs ++ l from by simpa using h recs {} hstart
  intro l
  induction l with
  | nil => exact fun b hb => ⟨hb, by simp⟩
  | cons r l ih =>
    intro b hb
    obtain ⟨hsound, hrecs⟩ := ih (b.add r) (hb.add r)
    exact ⟨hsound, by rw [List.foldl_cons, hrecs]; simp [Building.add]⟩

end

section

variable {v : Snapshot} {f : Fleet}

/-- The models of a view while they are added. -/
structure Snapshot.Modelled (v : Snapshot) : Prop where
  nodup : v.models.Nodup
  idx : ∀ key i, v.modelIdx key = some i ↔ v.models[i]? = some key
  members : ∀ key, v.members key = if key ∈ v.models then
    some ((v.recs.filter fun r => r.key = key).map fun r => r.id) else none

theorem Snapshot.Modelled.add (h : v.Modelled) {p : Text × List ℕ} (hnew : p.1 ∉ v.models)
    (hp : idsAt v.recs p.2 = (v.recs.filter fun r => r.key = p.1).map fun r => r.id) :
    (v.addModel p).Modelled := by
  refine ⟨?_, fun key i => ?_, fun key => ?_⟩
  · exact List.nodup_append.2 ⟨h.nodup, List.nodup_singleton _, fun a ha b hb he =>
      hnew (List.mem_singleton.1 hb ▸ he ▸ ha)⟩
  · show Function.update v.modelIdx p.1 (some v.models.length) key = some i ↔
      (v.models ++ [p.1])[i]? = some key
    by_cases hk : key = p.1
    · subst hk
      rw [Function.update_self, List.getElem?_append]
      split_ifs with hi
      · refine ⟨fun he => ?_, fun he => absurd (List.mem_of_getElem? he) hnew⟩
        exact absurd (Option.some.inj he) (by omega)
      · rw [List.getElem?_singleton]
        split_ifs with hz
        · simpa using by omega
        · simpa using by omega
    · rw [Function.update_of_ne hk, h.idx, List.getElem?_append]
      split_ifs with hi
      · rfl
      · rw [List.getElem?_eq_none (by omega), List.getElem?_singleton]
        split_ifs with hz
        · simpa using Ne.symm hk
        · rfl
  · show Function.update v.members p.1 (some (idsAt v.recs p.2)) key =
      if key ∈ v.models ++ [p.1] then _ else none
    by_cases hk : key = p.1
    · subst hk
      rw [Function.update_self, if_pos (by simp), hp]
      rfl
    · rw [Function.update_of_ne hk, h.members]
      simp [hk, addModel]

/-- The indexes of records. -/
theorem index_spec (recs : List Listed) : ∃ b : Building, b.Sound ∧ b.recs = recs ∧
    (index recs).recs = recs ∧ (index recs).recIdx = b.recIdx ∧ (index recs).byHost = b.byHost ∧
    (index recs).aliasOf = b.aliasOf ∧ (index recs).Modelled ∧
      (index recs).models = Keyed.keys Prod.fst b.byKey := by
  obtain ⟨hb, hrecs⟩ := Building.sound_of recs
  generalize hbuilt : recs.foldl Building.add {} = b at hb hrecs
  have hindex : index recs = b.byKey.foldl Snapshot.addModel b.toSnapshot := by
    rw [index, hbuilt]
  suffices h : ∀ (l : List (Text × List ℕ)) (v : Snapshot), v.Modelled → v.recs = recs →
      (∀ p ∈ l, p ∈ b.byKey) → (v.models ++ Keyed.keys Prod.fst l).Nodup →
        (l.foldl Snapshot.addModel v).Modelled ∧
        (l.foldl Snapshot.addModel v).models = v.models ++ Keyed.keys Prod.fst l ∧
        (l.foldl Snapshot.addModel v).recs = v.recs ∧
        (l.foldl Snapshot.addModel v).recIdx = v.recIdx ∧
        (l.foldl Snapshot.addModel v).byHost = v.byHost ∧
        (l.foldl Snapshot.addModel v).aliasOf = v.aliasOf by
    have hstart : b.toSnapshot.Modelled :=
      ⟨by simp [hb.models.1], by simp [hb.models.1, hb.models.2.1],
        by simp [hb.models.1, hb.models.2.2]⟩
    obtain ⟨hmodels, hkeys, hr, hidx, hhost, halias⟩ := h b.byKey b.toSnapshot hstart hrecs
      (fun p hp => hp) (by simpa [hb.models.1] using hb.groups.nodup)
    rw [← hindex] at hmodels hkeys hr hidx hhost halias
    exact ⟨b, hb, hrecs, hr.trans hrecs, hidx, hhost, halias, hmodels,
      by simpa [hb.models.1] using hkeys⟩
  intro l
  induction l with
  | nil => exact fun v hv _ _ _ => ⟨hv, by simp, rfl, rfl, rfl, rfl⟩
  | cons p l ih =>
    intro v hv hv' hl hnodup
    have hnew : p.1 ∉ v.models := fun hmem => by
      rw [Keyed.keys, List.map_cons, List.nodup_append] at hnodup
      exact hnodup.2.2 _ hmem _ List.mem_cons_self rfl
    have hids : idsAt v.recs p.2 = (v.recs.filter fun r => r.key = p.1).map fun r => r.id := by
      rw [hv', ← hrecs]
      exact hb.groups.members p (hl p List.mem_cons_self)
    obtain ⟨hm, hkeys, hr, hidx, hhost, halias⟩ := ih (v.addModel p) (hv.add hnew hids) hv'
      (fun q hq => hl q (List.mem_cons_of_mem p hq))
      (by simpa [Snapshot.addModel, Keyed.keys] using hnodup)
    exact ⟨hm, by rw [List.foldl_cons, hkeys]; simp [Snapshot.addModel, Keyed.keys], hr, hidx,
      hhost, halias⟩

end

/-! ## Every copy is listed once -/

section

variable {f : Fleet} {r : Listed}

theorem makeListed_spec {T : Texts} {view : View} {e : Obj} (h : makeListed T view e = some r) :
    r.aliases = [r.place] ∧ r.visibleOn = [r.host] ∧
      r.id = T.digest (placeText r.host r.root r.rel) := by
  obtain ⟨q, hq, rfl⟩ := Option.map_eq_some_iff.1 h
  simp only [makeRec, Option.bind_eq_some_iff] at hq
  obtain ⟨rootId, -, spec, -, rel, -, hq⟩ := hq
  split_ifs at hq <;> (obtain rfl := Option.some.inj hq; exact ⟨rfl, rfl, rfl⟩)

theorem listed_spec (h : r ∈ f.listed) : r.aliases = [r.place] ∧ r.visibleOn = [r.host] ∧
    r.id = f.texts.digest (placeText r.host r.root r.rel) := by
  rw [Fleet.listed, List.mem_insertionSort, List.mem_flatMap] at h
  obtain ⟨s, -, h⟩ := h
  split at h
  · obtain ⟨e, -, he⟩ := List.mem_filterMap.1 h
    exact makeListed_spec he
  · cases h

/-- The records are those that the deletion of a copy looks at. -/
theorem listed_toRec : f.listed.map Listed.toRec = f.library.recs := by
  rw [Fleet.listed, Library.recs]
  refine (List.map_insertionSort _ (fun a b => f.library.le a b = true) Listed.toRec _
    fun a _ b _ => Iff.rfl).trans ?_
  congr 1
  rw [List.map_flatMap, Fleet.library, List.flatMap_map]
  refine List.flatMap_congr fun s _ => ?_
  dsimp only
  rw [List.find?_map]
  have hsame : ((fun v : View => decide (v.id = s.1)) ∘ HostView.toView) =
      fun v : HostView => decide (v.id = s.1) := rfl
  rw [hsame]
  cases f.views.find? fun v => decide (v.id = s.1) with
  | none => rfl
  | some view =>
    simp only [Option.map_some, List.map_filterMap, List.filterMap_map]
    refine List.filterMap_congr fun e _ => ?_
    simp [makeListed, Function.comp_def]

/-- The view is the one that the deletion of a copy looks at. -/
theorem rebuild_toRec : f.rebuild.recs.map Listed.toRec = f.library.view := by
  obtain ⟨-, -, -, hrecs, -⟩ := index_spec (mergeListed f.listed f.library.book)
  rw [Fleet.rebuild, hrecs, mergeListed_toRec, listed_toRec, Library.view]

theorem folded_eq_none : folded (f.listed.map Listed.toRec) f.library.book r.toRec = none ↔
    ¬f.Shared r := by
  have howner (place : Text × Text) : ownerAt (f.listed.map Listed.toRec) place = none ↔
      ¬∃ q ∈ f.listed, q.nfs = false ∧ (q.host, norm q.path) = place := by
    rw [ownerAt, List.getLast?_eq_none_iff, List.filter_eq_nil_iff]
    constructor
    · rintro h ⟨q, hq, hnfs, hplace⟩
      obtain ⟨i, hi⟩ := List.getElem?_of_mem hq
      have hlen : i < f.listed.length := (List.getElem?_eq_some_iff.1 hi).1
      exact h i (by simpa using hlen) (by simp [hi, hnfs, hplace])
    · intro h i _ hany
      obtain ⟨q, hq, hplace⟩ := (Option.any_eq_true _ _).1 hany
      rw [List.getElem?_map] at hq
      obtain ⟨e, he, rfl⟩ := Option.map_eq_some_iff.1 hq
      simp only [Bool.and_eq_true, Bool.not_eq_true', decide_eq_true_eq] at hplace
      exact h ⟨e, List.mem_of_getElem? he, hplace⟩
  rw [← not_iff_not, not_not, ← ne_eq, Option.ne_none_iff_exists']
  refine Iff.symm ?_
  constructor
  · rintro ⟨m, owner, rp, hm, hnfs, hfind, hrp, hunder, q, hq, hown, hhost, hpath⟩
    have hr : r.nfs = true := by simp [Rec.nfs, hm, hnfs]
    have hsome : ownerAt (f.listed.map Listed.toRec) (owner, m.remote rp r.path) ≠ none := fun hn =>
      (howner _).1 hn ⟨q, hq, hown, by rw [hhost, hpath]⟩
    obtain ⟨i, hi⟩ := Option.ne_none_iff_exists'.1 hsome
    exact ⟨i, by simp [folded, hr, hm, hfind, hrp, hunder, hi]⟩
  · rintro ⟨i, hi⟩
    unfold folded at hi
    split_ifs at hi with hr
    simp only [Option.bind_eq_some_iff] at hi
    obtain ⟨m, hm, owner, hfind, rp, hrp, hi⟩ := hi
    split_ifs at hi with hunder
    have hsome : ownerAt (f.listed.map Listed.toRec) (owner, m.remote rp r.path) ≠ none := by
      rw [hi]
      exact Option.some_ne_none _
    obtain ⟨q, hq, hown, hplace⟩ := not_not.1 (mt (howner _).2 hsome)
    obtain ⟨hhost, hpath⟩ := Prod.mk.inj hplace
    exact ⟨m, owner, rp, hm, by simpa [Rec.nfs, hm] using hr, hfind, hrp, hunder, q, hq, hown,
      hhost, hpath⟩

/-- The places of the view are those that are listed. -/
theorem places_perm : (f.rebuild.recs.flatMap fun r => r.aliases).Perm
    (f.listed.map fun r => r.place) := by
  have hown : ∀ r ∈ f.listed.map Listed.toRec, r.aliases = [r.place] := by
    intro r hr
    obtain ⟨r', hr', rfl⟩ := List.mem_map.1 hr
    exact (listed_spec hr').1
  have h : ((mergeShared (f.listed.map Listed.toRec) f.library.book).flatMap fun r =>
      r.aliases).Perm ((f.listed.map Listed.toRec).map Rec.place) := aliases_mergeShared hown
  rw [listed_toRec, ← Library.view, ← rebuild_toRec, List.flatMap_map, ← listed_toRec,
    List.map_map] at h
  exact h

theorem ids_rebuild : f.rebuild.recs.map (fun r => r.id) = (f.listed.filter fun r =>
    (folded (f.listed.map Listed.toRec) f.library.book r.toRec).isNone).map fun r => r.id := by
  obtain ⟨-, -, -, hrecs, -⟩ := index_spec (mergeListed f.listed f.library.book)
  rw [Fleet.rebuild, hrecs]
  exact map_mergeListed (fun r => r.id) fun r rs => (foldMany_fields r.toRec rs).1

theorem distinct_iff (hinj : Function.Injective f.texts.digest) : f.Distinct ↔
    (f.listed.map fun r => r.place.key).Nodup ∧ (f.rebuild.recs.map fun r => r.id).Nodup := by
  rw [ids_rebuild, List.Nodup, List.pairwise_map, List.Nodup, List.pairwise_map,
    List.pairwise_filter, ← List.pairwise_and_iff, Fleet.Distinct]
  refine List.Pairwise.iff_of_mem fun {a b} ha hb => and_congr_right fun _ => ?_
  rw [Option.isNone_iff_eq_none, Option.isNone_iff_eq_none, folded_eq_none, folded_eq_none,
    (listed_spec ha).2.2, (listed_spec hb).2.2, hinj.ne_iff]

end

section

variable {f : Fleet}

/-- Two records that hold one place are one. -/
theorem eq_of_place (hn : (f.rebuild.recs.flatMap fun r => r.aliases.map Alias.key).Nodup)
    {r r' : Listed} (hr : r ∈ f.rebuild.recs) (hr' : r' ∈ f.rebuild.recs) {k : Text × Text × Text}
    (hk : k ∈ r.aliases.map Alias.key) (hk' : k ∈ r'.aliases.map Alias.key) : r = r' := by
  by_contra hne
  have hpair := (List.nodup_flatMap.1 hn).2
  have hsymm : Std.Symm (Function.onFun List.Disjoint fun r : Listed =>
      r.aliases.map Alias.key) := ⟨fun _ _ h => h.symm⟩
  exact hpair.forall hr hr' hne hk hk'

theorem visibleOn_rebuild {r : Listed} (hr : r ∈ f.rebuild.recs) (h : Text) :
    h ∈ r.visibleOn ↔ ∃ a ∈ r.aliases, a.host = h := by
  obtain ⟨-, -, -, hrecs, -⟩ := index_spec (mergeListed f.listed f.library.book)
  rw [Fleet.rebuild, hrecs] at hr
  obtain ⟨i, t, ht, -, rfl⟩ := mem_mergeListed hr
  obtain ⟨halias, hvisible, -⟩ := listed_spec (List.mem_of_getElem? ht)
  simp only [mem_foldMany_visibleOn, foldMany_aliases, halias, hvisible]
  simp [Rec.place, eq_comm]

/-- Every copy that the hosts list is listed once, and the indexes are those of the records :
this is so just where no place is listed twice and no two records have one text to hash. -/
theorem copies_listed (f : Fleet) (hinj : Function.Injective f.texts.digest) :
    f.rebuild.Exact f.listed ↔ f.Distinct := by
  have hperm := (places_perm (f := f)).map Alias.key
  rw [List.map_map] at hperm
  rw [distinct_iff hinj]
  constructor
  · intro h
    refine ⟨List.nodup_iff_count_eq_one.2 fun k hk => ?_, h.ids⟩
    obtain ⟨e, he, rfl⟩ := List.mem_map.1 hk
    rw [← h.once e he]
    exact (hperm.count_eq _).symm
  · rintro ⟨hplaces, hids⟩
    have hn : (f.rebuild.recs.flatMap fun r => r.aliases.map Alias.key).Nodup := by
      rw [← List.map_flatMap]
      exact hperm.nodup_iff.2 hplaces
    obtain ⟨b, hb, hrecs, hr, hidx, hhost, halias, hmodels, hkeys⟩ :=
      index_spec (mergeListed f.listed f.library.book)
    rw [← Fleet.rebuild] at hr hidx hhost halias hmodels hkeys
    rw [← hr] at hrecs
    have hsame {r r' : Listed} (hr : r ∈ f.rebuild.recs) (hr' : r' ∈ f.rebuild.recs)
        (hid : r.id = r'.id) : r = r' :=
      List.inj_on_of_nodup_map hids hr hr' hid
    have hkey (key : Text) : key ∈ f.rebuild.models ↔ ∃ r ∈ f.rebuild.recs, r.key = key := by
      rw [hkeys, hb.groups.key, hrecs]
    constructor
    case once =>
      intro e he
      rw [hperm.count_eq]
      exact List.count_eq_one_of_mem hplaces (List.mem_map_of_mem he)
    case only =>
      intro r hr a ha
      obtain ⟨e, he, rfl⟩ := List.mem_map.1
        (places_perm.mem_iff.1 (List.mem_flatMap.2 ⟨r, hr, ha⟩))
      exact ⟨e, he, rfl⟩
    case ids => exact hids
    case recIdx =>
      intro id i
      rw [hidx, ← hrecs]
      refine ⟨hb.idx id i, fun ⟨r, hr, hid⟩ => ?_⟩
      obtain ⟨j, hj⟩ := Option.isSome_iff_exists.1 (hb.known r (List.mem_of_getElem? hr))
      obtain ⟨r', hr', hid'⟩ := hb.idx _ j hj
      have heq : (b.recs.map fun r => r.id)[i]? = (b.recs.map fun r => r.id)[j]? := by
        simp [hr, hr', hid']
      have hi : i < (b.recs.map fun r => r.id).length := by
        simpa using (List.getElem?_eq_some_iff.1 hr).1
      have hij : i = j := (List.getElem?_inj hi (hrecs ▸ hids)).1 heq
      rw [← hid, hj, hij]
    case byHost =>
      intro h
      rw [hhost, hb.byHost, hrecs]
    case aliasOf =>
      intro k id
      rw [halias]
      constructor
      · intro hk
        rw [← hrecs]
        exact hb.aliasOf k id hk
      · rintro ⟨r, hr, rfl, hk⟩
        obtain ⟨a, ha, rfl⟩ := List.mem_map.1 hk
        obtain ⟨id, hid⟩ := Option.isSome_iff_exists.1 (hb.placed r (hrecs ▸ hr) a ha)
        obtain ⟨r', hr', hid', hk'⟩ := hb.aliasOf _ id hid
        rw [hid, ← hid', eq_of_place hn (hrecs ▸ hr') hr hk' hk]
    case models => exact ⟨hmodels.nodup, hkey⟩
    case modelIdx => exact hmodels.idx
    case members => exact hmodels.members
    case oneModel =>
      intro r hr
      refine ⟨r.key, ⟨_, (hmodels.members r.key).trans (if_pos ((hkey _).2 ⟨r, hr, rfl⟩)), ?_⟩, ?_⟩
      · exact List.mem_map_of_mem (List.mem_filter.2 ⟨hr, by simp⟩)
      · rintro key ⟨ids, hmem, hid⟩
        rw [hmodels.members] at hmem
        split_ifs at hmem
        rw [← Option.some.inj hmem] at hid
        obtain ⟨r', hr', hid⟩ := List.mem_map.1 hid
        obtain ⟨hr', hk⟩ := List.mem_filter.1 hr'
        rw [← of_decide_eq_true hk, hsame hr' hr hid]
    case visibleOn => exact fun r hr h => visibleOn_rebuild hr h

end

/-! ## An entry that is listed twice -/

/-- ASCII only, with texts for their own digests. -/
def plainTexts : Texts where
  strip := id
  lower := List.map Char.toLower
  upper := List.map Char.toUpper
  ip := fun _ => none
  hfDir := fun _ => none
  ggufStem := id
  ggufQuant := fun _ => []
  digest := id

/-- An entry of a root. -/
def entryAt (root rel : Text) : Obj :=
  [("root", .str root), ("rel", .str rel), ("format", .str "plain"), ("name", .str "m")]

/-- One host with two roots lists these. -/
def oneHost (entries : List Obj) : Fleet where
  texts := plainTexts
  hosts := ["a"]
  views := [⟨⟨"a", "up", [⟨"r", "/srv", true⟩, ⟨"r|s", "/data", true⟩], "manage", true, []⟩, [],
    none⟩]
  snaps := [("a", entries)]

theorem twoCopies_listed : (oneHost [entryAt "r" "x", entryAt "r|s" "x"]).rebuild.Exact
    (oneHost [entryAt "r" "x", entryAt "r|s" "x"]).listed := by
  have htexts : (oneHost [entryAt "r" "x", entryAt "r|s" "x"]).listed.Pairwise fun a b =>
      a.place.key ≠ b.place.key ∧
        placeText a.host a.root a.rel ≠ placeText b.host b.root b.rel := by
    decide +kernel
  exact (copies_listed _ Function.injective_id).2 (htexts.imp fun h => ⟨h.1, fun _ _ => h.2⟩)

/-- A host lists an entry twice; or the path of one says what the root of the other does. -/
theorem not_listed : ¬(∀ f : Fleet, Function.Injective f.texts.digest →
      f.rebuild.Exact f.listed) ∧
    ¬((oneHost [entryAt "r" "x", entryAt "r" "x"]).rebuild.recs.map fun r => r.id).Nodup ∧
    ¬((oneHost [entryAt "r" "s|x", entryAt "r|s" "x"]).rebuild.recs.map fun r => r.id).Nodup := by
  have htwice :
      ¬((oneHost [entryAt "r" "x", entryAt "r" "x"]).rebuild.recs.map fun r => r.id).Nodup := by
    decide +kernel
  exact ⟨fun h => htwice (h (oneHost _) Function.injective_id).ids, htwice, by decide +kernel⟩

end Usage

end EngineConsole
