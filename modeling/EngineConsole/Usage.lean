import EngineConsole.Adoption

/-!
# What uses a model

`instancesUsing` answers which instances of a host use the model at a path : those with a
container that mounts the path or a part of it, or that mounts a folder that holds it and
loads that model, and those whose row names a copy there (`mem_instancesUsing`).

Which model a container loads is told from texts : the values of its arguments are compared
with the path as the host has it, with the name of the repository or of its cache folder, or
with the last part of the path. A container that has the folder mounted elsewhere and loads a
file below the path, and one that mounts the host's `/`, are not seen. `usage_found` is when
every instance that uses the path is found.
-/

set_option linter.unusedSectionVars false

namespace EngineConsole

namespace Usage

open Web Lifecycle

/-! ## Paths -/

/-- `p` is `q` or inside it. -/
def inside (p q : Text) : Bool :=
  p = q || (q ++ ['/']).isPrefixOf p

/-- One is the other or inside it. -/
def near (p q : Text) : Bool :=
  inside p q || inside q p

/-! ## What the hub knows -/

/-- A folder of the host in a container. -/
structure Mount where
  source : Text
  dest : Text

/-- A container of a node's inventory. -/
structure Container where
  name : Text
  state : Text
  mounts : List Mount
  /-- the parsed command line -/
  params : List (Text × Text)
  labels : List Label
  engine : Bool
  managed : Bool

/-- A script of a node's policy, and the patterns of the containers it starts. -/
structure Script where
  name : Text
  containers : List Text

/-- What a node reports. -/
structure Inventory where
  containers : List Container
  scripts : List Script

/-- What depends on characters outside ASCII. -/
structure Locale where
  /-- `to_lowercase` -/
  lower : Text → Text
  /-- white space -/
  white : Char → Bool

/-- What the hub knows of hosts and instances. -/
structure Hub where
  loc : Locale
  /-- `fnmatchcase` -/
  fnmatch : Text → Text → Bool
  nodes : Text → Option Inventory
  rows : List Row
  /-- `ext_by_container` of each host -/
  known : Text → Text → Option Text
  /-- the library's `locate` : the path of the copy that a host loads -/
  locate : Text → ModelRef → Option Text

/-- The value of a field, if it is not empty. -/
def field (fs : List (Text × Text)) (k : Text) : Option Text :=
  (get fs k).filter (· ≠ [])

/-! ## The instance of a container -/

/-- Runs of anything but `[a-z0-9]` become one `-`. -/
def dashes : Bool → Text → Text
  | _, [] => []
  | inRun, c :: s =>
    if c.isDigit || c.isLower then c :: dashes false s
    else if inRun then dashes true s
    else '-' :: dashes true s

/-- `slug`. -/
def Locale.slug (loc : Locale) (s : Text) : Text :=
  let out := (trimEnd '-' ((dashes false (loc.lower s)).dropWhile (· == '-'))).take 48
  if out.isEmpty then "unknown" else out

/-- `host_part`. -/
def hostPart (host : Text) : Text :=
  host.flatMap fun c => if c = '-' then ['-', '-'] else [c]

/-- `script_instance_id`. -/
def Hub.scriptInstanceId (hub : Hub) (host name : Text) : Text :=
  "scr-" ++ hostPart host ++ ['-'] ++ hub.loc.slug name

/-- `external_instance_id`. -/
def Hub.externalInstanceId (hub : Hub) (host key : Text) : Text :=
  "ext-" ++ hostPart host ++ ['-'] ++ hub.loc.slug key

/-- `instance_for_container`. -/
def Hub.instanceFor (hub : Hub) (host : Text) (node : Inventory) (container : Text) : Option Text :=
  match hub.rows.find? fun r => r.hostId = host ∧ r.container = container with
  | some r => some r.id
  | none =>
    (hub.known host container).or <|
      match node.scripts.find? fun s => s.containers.any (hub.fnmatch container) with
      | some s => some (hub.scriptInstanceId host s.name)
      | none =>
        match node.containers.find? fun c => c.name = container with
        | some c => if c.engine && !c.managed then some (hub.externalInstanceId host container)
          else none
        | none => none

/-! ## Which model a container loads -/

/-- `MODEL_KEYS`. -/
def modelKeys : List Text :=
  ["model", "model_path", "model_id", "model_name_or_path", "speculative_model",
    "speculative_draft_model_path", "draft_model", "tokenizer", "tokenizer_path", "mmproj"]

/-- The model arguments of a container. -/
def Container.modelArgs (c : Container) : List Text :=
  modelKeys.filterMap (field c.params)

/-- A value, for a comparison. -/
def Locale.normal (loc : Locale) (s : Text) : Text :=
  loc.lower (trimEnd '/' (trim loc.white s))

/-- `([^/]+?)--([^/]+)`, with what of the first part is read. -/
def hfParts (org : Text) : Text → Option (Text × Text)
  | [] => none
  | c :: s =>
    let name := ((c :: s).drop 2).takeWhile (· ≠ '/')
    if !org.isEmpty && (ascii "--").isPrefixOf (c :: s) && !name.isEmpty then some (org, name)
    else if c = '/' then none
    else hfParts (org ++ [c]) s

/-- `HF_DIR`, in a text. -/
def hfDir : Text → Option (Text × Text)
  | [] => none
  | c :: s =>
    if (ascii "models--").isPrefixOf (c :: s) then
      (hfParts [] ((c :: s).drop (ascii "models--").length)).or (hfDir s)
    else hfDir s

/-- A value is taken for the model at `target`. -/
def recognised (target v : Text) : Bool :=
  -- the same host path (mounted at the same place)
  v = target || (target ++ ['/']).isPrefixOf v ||
    match hfDir target with
    -- the repo id, or a path into that repo's cache folder
    | some (org, name) => v = org ++ ['/'] ++ name || occurs ("models--" ++ org ++ "--" ++ name) v
    -- a plain folder mounted somewhere else in the container
    | none => basename v = basename target

/-- The values that may name the model of a container. -/
def Locale.modelValues (loc : Locale) (c : Container) : List Text :=
  (c.modelArgs ++ (field c.labels "engine-console.model").toList).map loc.normal

/-- `loads_model`. -/
def Locale.loadsModel (loc : Locale) (c : Container) (path : Text) : Bool :=
  (loc.modelValues c).isEmpty ||
    (loc.modelValues c).any (recognised (loc.lower (trimEnd '/' path)))

/-! ## The instances that use a path -/

/-- The states of a container that count. -/
def Container.live (c : Container) : Bool :=
  [ascii "running", "restarting", "paused", "created"].contains c.state

/-- A mount of a container tells that it uses the path. -/
def Locale.seen (loc : Locale) (c : Container) (norm : Text) : Bool :=
  c.mounts.any fun m =>
    let src := trimEnd '/' m.source
    !src.isEmpty && (inside src norm ||
      (src ++ ['/']).isPrefixOf norm && loc.loadsModel c norm)

/-- Add to a list what is not in it. -/
def push {α : Type} (f : α → Option Text) (ids : List Text) (a : α) : List Text :=
  match f a with
  | some id => if id ∈ ids then ids else ids ++ [id]
  | none => ids

/-- `ref_of`. -/
def refOf (r : Row) : ModelRef :=
  (r.model.filter fun m => [ascii "hf", "gguf", "ollama", "plain"].contains m.format).getD
    (.hf r.repoId)

/-- `location_of`. -/
def Hub.locationOf (hub : Hub) (host : Text) (r : ModelRef) : Option Text :=
  if r.format ≠ "ollama" ∨ (r.name.any fun n => !n.isEmpty) then hub.locate host r else none

/-- The row of an instance names a copy at, above or below the path. -/
def Hub.rowAt (hub : Hub) (host norm : Text) (r : Row) : Bool :=
  (hub.locationOf host (refOf r)).any fun p => near norm (trimEnd '/' p)

/-- `instances_using`. -/
def Hub.instancesUsing (hub : Hub) (host path : Text) : List Text :=
  match hub.nodes host with
  | none => []
  | some node =>
    let norm := trimEnd '/' path
    let ids := node.containers.foldl (push fun c =>
      if c.live && hub.loc.seen c norm then hub.instanceFor host node c.name else none) []
    -- a launch the inventory has not caught up with yet
    hub.rows.foldl (push fun r =>
      if r.hostId = host ∧ r.state.active ∧ hub.rowAt host norm r then some r.id else none) ids

section

variable {loc : Locale} {hub : Hub} {host path iid : Text} {node : Inventory}

theorem mem_push {α : Type} {f : α → Option Text} {ids : List Text} {a : α} {x : Text} :
    x ∈ push f ids a ↔ x ∈ ids ∨ f a = some x := by
  unfold push
  cases hf : f a with
  | none => simp
  | some id =>
    by_cases hid : id ∈ ids
    · have : id = x → x ∈ ids := fun h => h ▸ hid
      simp [hid]
      exact this
    · simp [hid, eq_comm]

theorem mem_foldl_push {α : Type} {f : α → Option Text} {l : List α} {ids : List Text} {x : Text} :
    x ∈ l.foldl (push f) ids ↔ x ∈ ids ∨ ∃ a ∈ l, f a = some x := by
  induction l generalizing ids with
  | nil => simp
  | cons a l ih =>
    rw [List.foldl_cons, ih, mem_push]
    simp [or_assoc]

/-- An instance is found by a container of it that is seen, or by its row. -/
theorem mem_instancesUsing (hnode : hub.nodes host = some node) :
    iid ∈ hub.instancesUsing host path ↔
      (∃ c ∈ node.containers, c.live = true ∧ hub.instanceFor host node c.name = some iid ∧
        hub.loc.seen c (trimEnd '/' path) = true) ∨
      ∃ r ∈ hub.rows, r.id = iid ∧ r.hostId = host ∧ r.state.active = true ∧
        hub.rowAt host (trimEnd '/' path) r = true := by
  unfold Hub.instancesUsing
  rw [hnode]
  simp only [mem_foldl_push, List.not_mem_nil, false_or]
  refine or_congr (exists_congr fun c => and_congr_right fun _ => ?_)
    (exists_congr fun r => and_congr_right fun _ => ?_)
  · simp only [Option.ite_none_right_eq_some, Bool.and_eq_true]
    tauto
  · simp only [Option.ite_none_right_eq_some, Option.some.injEq]
    tauto

/-! ## Use -/

/-- The path on the host of a path in a container, through a mount. -/
def Mount.hostPath (m : Mount) (v : Text) : Option Text :=
  let v := trimEnd '/' v
  let dest := trimEnd '/' m.dest
  if inside v dest then some (trimEnd '/' m.source ++ v.drop dest.length) else none

/-- A container uses a path : it mounts it or a part of it, or it mounts a folder that holds
it, and a model argument is, through that mount, at, above or below it. -/
def Container.Uses (c : Container) (norm : Text) : Prop :=
  ∃ m ∈ c.mounts, m.source ≠ [] ∧ near (trimEnd '/' m.source) norm = true ∧
    (inside (trimEnd '/' m.source) norm = true ∨
      ∃ v ∈ c.modelArgs, ∃ p, m.hostPath v = some p ∧ near p norm = true)

/-- An instance of a host uses a path. -/
def Hub.Uses (hub : Hub) (host path iid : Text) : Prop :=
  ∃ node, hub.nodes host = some node ∧ ∃ c ∈ node.containers, c.live = true ∧
    hub.instanceFor host node c.name = some iid ∧ c.Uses (trimEnd '/' path)

/-- A container tells that it uses a path : it mounts the path or a part of it, or it mounts a
folder that holds it and one of its values is taken for the model there. A mount of the host's
`/` tells nothing. -/
def Locale.Tells (loc : Locale) (c : Container) (norm : Text) : Prop :=
  (∃ m ∈ c.mounts, trimEnd '/' m.source ≠ [] ∧ inside (trimEnd '/' m.source) norm = true) ∨
    (∃ m ∈ c.mounts, trimEnd '/' m.source ≠ [] ∧ trimEnd '/' m.source ++ ['/'] <+: norm) ∧
      ∃ v ∈ loc.modelValues c, recognised (loc.lower (trimEnd '/' norm)) v = true

theorem inside_nil {norm : Text} : inside [] norm = true ↔ norm = [] := by
  simp [inside, eq_comm]

/-- A container with a model argument loads what a value of it is taken for. -/
theorem loadsModel_iff {c : Container} {v norm : Text} (hv : v ∈ c.modelArgs) :
    loc.loadsModel c norm = true ↔
      ∃ v ∈ loc.modelValues c, recognised (loc.lower (trimEnd '/' norm)) v = true := by
  have hmem : loc.normal v ∈ loc.modelValues c :=
    List.mem_map_of_mem (List.mem_append_left _ hv)
  rw [Locale.loadsModel, Bool.or_eq_true, List.isEmpty_iff, List.any_eq_true]
  exact or_iff_right (List.ne_nil_of_mem hmem)

/-- A container that uses a path is seen just where it tells so. -/
theorem Container.Uses.seen_iff {c : Container} {norm : Text} (h : c.Uses norm) :
    loc.seen c norm = true ↔ loc.Tells c norm := by
  obtain ⟨m₀, hm₀, hsrc, hnear, hwhy⟩ := h
  simp only [Locale.seen, List.any_eq_true, Bool.and_eq_true, Bool.or_eq_true, Bool.not_eq_true',
    List.isEmpty_eq_false_iff, List.isPrefixOf_iff_prefix]
  constructor
  · rintro ⟨m, hm, hne, hin | ⟨hholds, hloads⟩⟩
    · exact .inl ⟨m, hm, hne, hin⟩
    · rcases hwhy with hin | ⟨v, hv, -⟩
      · refine .inl ⟨m₀, hm₀, fun h0 => ?_, hin⟩
        rw [h0, inside_nil] at hin
        subst hin
        simp at hholds
      · exact .inr ⟨⟨m, hm, hne, hholds⟩, (loadsModel_iff hv).1 hloads⟩
  · rintro (⟨m, hm, hne, hin⟩ | ⟨⟨m, hm, hne, hholds⟩, v, hv, hrec⟩)
    · exact ⟨m, hm, hne, .inl hin⟩
    · have hloads : loc.loadsModel c norm = true := by
        rw [Locale.loadsModel, Bool.or_eq_true, List.any_eq_true]
        exact .inr ⟨v, hv, hrec⟩
      exact ⟨m, hm, hne, .inr ⟨hholds, hloads⟩⟩

/-- A hub that knows of one container. -/
def hubOf (loc : Locale) (c : Container) : Hub where
  loc := loc
  fnmatch := fun _ _ => false
  nodes := fun _ => some ⟨[c], []⟩
  rows := []
  known := fun _ _ => some "inst"
  locate := fun _ _ => none

/-- Wherever a container of an instance uses the path, the instance is found : for a
container, this is so just where it tells that it does. -/
theorem usage_found {c : Container} (hlive : c.live = true) (huses : c.Uses (trimEnd '/' path)) :
    (∀ hub : Hub, hub.loc = loc → ∀ host node iid, hub.nodes host = some node →
      c ∈ node.containers → hub.instanceFor host node c.name = some iid →
        iid ∈ hub.instancesUsing host path) ↔ loc.Tells c (trimEnd '/' path) := by
  rw [← huses.seen_iff]
  constructor
  · intro h
    have hmem := h (hubOf loc c) rfl [] ⟨[c], []⟩ "inst" rfl (by simp) rfl
    rw [mem_instancesUsing rfl] at hmem
    rcases hmem with ⟨c', hc', -, -, hseen⟩ | ⟨r, hr, -⟩
    · obtain rfl := List.mem_singleton.1 hc'
      exact hseen
    · cases hr
  · rintro hseen hub rfl host node iid hnode hc hinst
    exact (mem_instancesUsing hnode).2 (.inl ⟨c, hc, hlive, hinst, hseen⟩)

end

end Usage

end EngineConsole
