import EngineConsole.Labels

/-!
# Adoption

When a host's link comes up the hub goes through its containers and re-attaches to its own :
a container whose name a row has is that row's, and for another one whose labels hold what a
row needs a row is made (`adoptHost`).

A container that was launched for a plan gives a row with the plan's id, name, engine and
GPUs, and with the fields of the reference that its format uses (`adopted`) : the display
name has to be one that is accepted in a label. A plan for an Ollama server without a model
comes back as one for a model called `ollama` (`adopted_renames`).
-/

set_option linter.unusedSectionVars false

namespace EngineConsole

namespace Lifecycle

open Web

/-- The states of an instance. -/
inductive State where
  | starting
  | loading
  | ready
  | stopping
  | stopped
  | failed
deriving DecidableEq, Repr

/-- `ACTIVE`. -/
def State.active : State → Bool
  | .starting | .loading | .ready | .stopping => true
  | .stopped | .failed => false

/-- A row of the table of instances. -/
structure Row where
  id : Text
  name : Text
  engine : Text
  /-- `repo_id` : the display name -/
  repoId : Text
  gpuIds : List Int
  gpuUuids : List Text
  port : Option Int
  container : Text
  image : Text
  state : State
  hostId : Text
  model : Option ModelRef
deriving DecidableEq

/-- A published port. -/
structure PortMap where
  hostIp : Option Text
  hostPort : Option Int

/-- A container of a node's inventory. -/
structure Container where
  name : Text
  managed : Bool
  labels : List Label
  role : Option Text
  inst : Option Text
  state : Text
  exitCode : Option Int
  image : Text
  ports : List PortMap

/-- What adoption reads of the hub and of the node. -/
structure Env where
  /-- word characters outside ASCII -/
  word : Char → Bool
  /-- white space outside ASCII -/
  white : Char → Bool
  /-- the engines the hub has an adapter for -/
  adapters : List Text
  /-- the image of an adapter for the node's architecture -/
  imageFor : Text → Text
  /-- the node's port range -/
  lo : Int
  hi : Int
  /-- `uuid_map` : the index of each GPU -/
  gpus : List (Text × Int)
  /-- only GPUs with a uuid -/
  gpus_ne : ∀ e ∈ gpus, e.1 ≠ []

/-! ## The source -/

/-- `gateway_name`. -/
def gatewayName (containerName : Text) : Text :=
  containerName ++ ascii "-gw"

/-- `host_ports` : the host ports reachable on the machine itself, each once. -/
def hostPorts (c : Container) : List Int :=
  c.ports.foldl (fun out p =>
    match p.hostPort with
    | some hp =>
      if ([[], "0.0.0.0", "127.0.0.1", "::", "::1"] : List Text).contains (p.hostIp.getD []) ∧
          hp ∉ out then out ++ [hp]
      else out
    | none => out) []

/-- `ref_from_labels`. -/
def refFromLabels (env : Env) (fmt model : Text) (get : Text → Option Text) :
    Except Text ModelRef :=
  if fmt = "hf" then
    if checkRepoId env.word model then .ok (ModelRef.hf model)
    else .error "repo_id must look like 'org/name' (letters, digits, . _ -)"
  else if !labelModelOk model then .error "bad model label"
  else if fmt = "ollama" then .ok ⟨"ollama", none, none, none, some model⟩
  else
    match (get "engine-console.root").filter fun r => !r.isEmpty && rootOk r with
    | some root =>
      let rel := get "engine-console.rel"
      if (fmt = "gguf" ∨ fmt = "plain") ∧ (rel.all fun r => r.isEmpty || relOk r) then
        .ok ⟨fmt, none, some root, rel, none⟩
      else .error "bad model location labels"
    | none => .error "bad model location labels"

/-- The port an instance's own gateway publishes. -/
def gatewayPort (containers : List Container) (cname iid : Text) : Option Int :=
  match containers.find? fun c => c.name = gatewayName cname with
  | some gw => if gw.inst = none ∨ gw.inst = some iid then (hostPorts gw).head? else none
  | none => none

/-- `adopt_port` : the gateway's real published port, else the label's. -/
def adoptPort (env : Env) (containers : List Container) (cname iid : Text)
    (get : Text → Option Text) : Option Int :=
  (gatewayPort containers cname iid).or (pyInt env.white ((get "engine-console.port").getD []))

/-- The row of a container that no row has the name of. -/
def newRow (env : Env) (host : Text) (containers : List Container) (c : Container) :
    Option Row := do
  let g := get c.labels
  let iid ← (g "engine-console.instance").filter (!·.isEmpty)
  let engine ← (g "engine-console.engine").filter (!·.isEmpty)
  let model ← (g "engine-console.model").filter (!·.isEmpty)
  let engine ← (some engine).filter (· ∈ env.adapters)
  let name := (g "engine-console.name").getD c.name
  let fmt := (g "engine-console.format").getD "hf"
  -- an id that is none of ours could shadow a derived instance
  let rf ← (refFromLabels env fmt model g).toOption.filter fun _ =>
    (ascii "inst_").isPrefixOf iid && idOk iid && idOk engine && nameOk name
  let port ← (adoptPort env containers c.name iid g).filter fun p => env.lo ≤ p ∧ p ≤ env.hi
  let uuids := (((g "engine-console.gpus").getD []).splitOn ',').filter fun u =>
    env.gpus.any fun e => e.1 = u
  let ids := parseIds ((g "engine-console.gpu_ids").getD [])
  some
    { id := iid, name := name, engine := engine, repoId := model,
      gpuIds :=
        if ids.isEmpty then uuids.filterMap fun u => (env.gpus.find? fun e => e.1 = u).map Prod.snd
        else ids,
      gpuUuids := uuids, port := some port, container := c.name,
      image := if c.image.isEmpty then env.imageFor engine else c.image,
      state := if c.state = "running" then .loading else .stopped,
      hostId := host, model := some rf }

/-- `set` of the state. -/
def setState (id : Text) (state : State) (rows : List Row) : List Row :=
  rows.map fun r => if r.id = id then { r with state := state } else r

/-- One container of `adopt_host`. -/
def adoptContainer (env : Env) (host : Text) (containers : List Container) (rows : List Row)
    (c : Container) : List Row :=
  if !c.managed then rows
  else if get c.labels "engine-console.role" = some (ascii "gateway") ∨
      c.role = some (ascii "gateway") then rows
  else
    match rows.find? fun r => r.container = c.name ∧ r.hostId = host with
    | some r =>
      -- the supervisor promotes it to ready via the health probe
      if c.state = "running" then setState r.id .loading rows
      -- a clean exit: someone stopped it while we were away
      else if r.state.active ∧ (c.exitCode = none ∨ c.exitCode = some 0) then
        setState r.id .stopped rows
      else rows
    | none =>
      match newRow env host containers c with
      | none => rows
      | some r => if rows.any fun r' => r'.id = r.id then rows else rows ++ [r]

/-- `adopt_host`. -/
def adoptHost (env : Env) (host : Text) (containers : List Container) (rows : List Row) :
    List Row :=
  containers.foldl (adoptContainer env host containers) rows

/-- What the hub reads of a container that docker shows with the labels `shown`. -/
def pushed (scrub : Text → Text) (shown : List Label) (c : Container) : Container :=
  let labels := reported scrub shown
  let managed := get labels "engine-console" = some (ascii "1")
  { c with
    labels := pushedLabels scrub shown
    managed := managed
    role := if managed then (get labels "engine-console.role").map (capStr · 16) else none
    inst := if managed then (get labels "engine-console.instance").map (capStr · 64) else none }

/-! ## Plans -/

/-- What a container is launched for : the GPUs are those of the hardware it was built for. -/
structure Plan where
  iid : Text
  name : Text
  engine : Text
  ref : ModelRef
  port : Int
  gpuIds : List Int
  gpuUuids : List Text
  container : Text

/-- What the labels of a plan are built from. -/
def Plan.labelArgs (plan : Plan) : LabelArgs :=
  { inst := plan.iid, engine := plan.engine, display := displayOf plan.ref, ref := plan.ref,
    port := plan.port, name := plan.name, gpuIds := plan.gpuIds, gpuUuids := plan.gpuUuids }

/-- The formats that adapters load. -/
def modelFormats : List Text :=
  ["hf", "plain", "gguf", "ollama"]

/-- What the hub checks of a plan before it launches it. -/
structure Plan.Launched (env : Env) (plan : Plan) : Prop where
  ref : checkRef env.word plan.ref = .ok ()
  format : plan.ref.format ∈ modelFormats
  iid : ascii "inst_" <+: plan.iid
  iidOk : idOk plan.iid = true
  engine : plan.engine ∈ env.adapters
  engineOk : idOk plan.engine = true
  nameOk : nameOk plan.name = true
  noGpu : plan.gpuIds = [] → plan.gpuUuids = []
  indices : ∀ i ∈ plan.gpuIds, 0 ≤ i ∧ i < 2 ^ 63
  port : 0 ≤ plan.port ∧ plan.port < 2 ^ 63

/-- The reference with the fields its format uses. -/
def ModelRef.used (r : ModelRef) : ModelRef :=
  if r.format = "hf" then ⟨"hf", r.repoId, none, none, none⟩
  else if r.format = "ollama" then ⟨"ollama", none, none, none, r.name⟩
  else ⟨r.format, none, r.rootId, r.rel.filter (!·.isEmpty), none⟩

/-- What adoption needs of a plan : an Ollama plan names its model, and what its labels hold
fits and is accepted in a label. -/
structure Plan.Adoptable (env : Env) (plan : Plan) : Prop where
  named : plan.ref.format = "ollama" → ∃ name, plan.ref.name = some name ∧ name ≠ []
  display : plan.ref.format = "hf" ∨ labelModelOk (displayOf plan.ref) = true
  rel : (plan.ref.rel.getD []).length ≤ 256
  gpus : (joined (plan.gpuIds.map intText)).length ≤ 256
  port : env.lo ≤ plan.port ∧ plan.port ≤ env.hi

/-- The node ran the plan's container with the labels `ls`, docker shows it with the labels
`shown`, and the mask of secrets leaves its labels as they are. -/
structure Plan.RunAs (plan : Plan) (scrub : Text → Text) (ls shown : List Label) : Prop where
  run : runLabels plan.iid (cleanMap 256 32 (engineLabels plan.labelArgs)) = .ok ls
  shown : Shown ls shown
  scrub : ∀ l ∈ ls, scrub l.2 = l.2

/-! ## The labels of a plan are read back -/

theorem fits_of {v : Text} (h : v ≠ []) (h' : v.length ≤ 256) : fits v = true := by
  simp [fits, List.isEmpty_eq_false_iff.2 h, h']

theorem idOk_fits {s : Text} (h : idOk s = true) : fits s = true ∧ '\x00' ∉ s := by
  obtain ⟨hlo, hhi, -⟩ := sized_spec h
  exact ⟨fits_of (List.ne_nil_of_length_pos (by omega)) (by omega), sized_nul h (by decide)⟩

theorem rootOk_fits {s : Text} (h : rootOk s = true) : fits s = true ∧ '\x00' ∉ s := by
  obtain ⟨hlo, hhi, -⟩ := sized_spec h
  exact ⟨fits_of (List.ne_nil_of_length_pos (by omega)) (by omega), sized_nul h (by decide)⟩

theorem nameOk_fits {s : Text} (h : nameOk s = true) : fits s = true ∧ '\x00' ∉ s := by
  obtain ⟨hne, hlen, -⟩ := headed_spec h
  exact ⟨fits_of hne (by omega), headed_nul h (by decide) (by decide)⟩

theorem labelModelOk_fits {s : Text} (h : labelModelOk s = true) : fits s = true ∧ '\x00' ∉ s := by
  obtain ⟨hne, hlen, -⟩ := headed_spec h
  exact ⟨fits_of hne (by omega), headed_nul h (by decide) (by decide)⟩

theorem checkRepoId_fits {uni : Char → Bool} {s : Text} (h : checkRepoId uni s = true) :
    fits s = true ∧ '\x00' ∉ s := by
  obtain ⟨hne, hlen, hnul⟩ := checkRepoId_spec h
  exact ⟨fits_of hne (by omega), hnul⟩

theorem intText_nul {i : Int} (h : 0 ≤ i) : '\x00' ∉ intText i := fun hc =>
  absurd (List.all_eq_true.1 (all_isDigit_intText h) _ hc) (by decide)

theorem joined_nul : ∀ {l : List Text}, (∀ s ∈ l, '\x00' ∉ s) → '\x00' ∉ joined l
  | [], _ => by decide
  | [s], h => by simpa [joined, List.intercalate] using h s
  | s :: t :: l, h => by
    have hs := h s List.mem_cons_self
    have ht := joined_nul fun x hx => h x (List.mem_cons_of_mem s hx)
    have hcons : joined (s :: t :: l) = s ++ ',' :: joined (t :: l) := by
      simp [joined, List.intercalate]
    rw [hcons]
    simp [hs, ht]

section ReadBack

variable {env : Env} {scrub : Text → Text} {plan : Plan} {ls shown : List Label}

theorem Plan.RunAs.get_eq (h : plan.RunAs scrub ls shown) (hid : idOk plan.iid = true) {k : Text}
    (hk : k ∈ labelNames) :
    get (pushedLabels scrub shown) k = ((get (candidates plan.labelArgs) k).filter fits).map stripNul := by
  rw [get_pushedLabels_own (a := plan.labelArgs) (idOk_fits hid).1 h.run h.shown h.scrub hk, get_engineLabels]

/-- A label that fits and has no NUL. -/
theorem Plan.RunAs.get_some (h : plan.RunAs scrub ls shown) (hid : idOk plan.iid = true) {k v : Text}
    (hk : k ∈ labelNames) (hv : get (candidates plan.labelArgs) k = some v)
    (hfits : fits v = true ∧ '\x00' ∉ v) : get (pushedLabels scrub shown) k = some v := by
  rw [h.get_eq hid hk, hv, Option.filter_some_pos hfits.1, Option.map_some, stripNul_eq hfits.2]

/-- The display name comes back. -/
theorem display_fits (hplan : plan.Launched env) (hadopt : plan.Adoptable env) :
    fits (displayOf plan.ref) = true ∧ '\x00' ∉ displayOf plan.ref := by
  rcases hadopt.display with hf | hok
  · obtain ⟨id, hid, hok⟩ := checkRef_hf hf hplan.ref
    rw [displayOf_hf hf hid (checkRepoId_spec hok).1]
    exact checkRepoId_fits hok
  · exact labelModelOk_fits hok

/-- The reference comes back, with the fields its format uses. -/
theorem refFromLabels_pushed (hplan : plan.Launched env) (hadopt : plan.Adoptable env)
    (h : plan.RunAs scrub ls shown) :
    refFromLabels env plan.ref.format (displayOf plan.ref) (get (pushedLabels scrub shown)) =
      .ok plan.ref.used := by
  by_cases hhf : plan.ref.format = "hf"
  · obtain ⟨id, hid, hok⟩ := checkRef_hf hhf hplan.ref
    rw [displayOf_hf hhf hid (checkRepoId_spec hok).1, refFromLabels, if_pos hhf, if_pos hok,
      ModelRef.used, if_pos hhf, hid]
    rfl
  have hlabel := hadopt.display.resolve_left hhf
  by_cases hol : plan.ref.format = "ollama"
  · obtain ⟨name, hname, hne⟩ := hadopt.named hol
    rw [refFromLabels, if_neg hhf, hlabel, if_neg (by decide), if_pos hol, ModelRef.used,
      if_neg hhf, if_pos hol, displayOf_ollama hol hname hne, hname]
  have hloc : plan.ref.format = "gguf" ∨ plan.ref.format = "plain" := by
    have hf := hplan.format
    simp only [modelFormats, List.mem_cons, List.not_mem_nil, or_false] at hf
    tauto
  obtain ⟨root, hroot, hrok, hrel⟩ := checkRef_located hloc hplan.ref
  have hgroot : get (pushedLabels scrub shown) "engine-console.root" = some root :=
    h.get_some hplan.iidOk (by decide) (by rw [← Option.getD_some (a := root), ← hroot]; rfl)
      (rootOk_fits hrok)
  have hgrel : get (pushedLabels scrub shown) "engine-console.rel" =
      plan.ref.rel.filter (!·.isEmpty) := by
    have hcand : get (candidates plan.labelArgs) "engine-console.rel" =
        some (plan.ref.rel.getD []) := rfl
    rw [h.get_eq hplan.iidOk (by decide), hcand]
    cases hr : plan.ref.rel with
    | none => rfl
    | some rel =>
      rw [hr] at hrel
      rcases eq_or_ne rel [] with rfl | hne
      · rfl
      · have hlen : rel.length ≤ 256 := by simpa [hr] using hadopt.rel
        rw [Option.getD_some, Option.filter_some_pos (fits_of hne hlen),
          Option.filter_some_pos (by simp [List.isEmpty_eq_false_iff.2 hne]), Option.map_some,
          stripNul_eq (v := rel) (relOk_nul (hrel hne))]
  have hroot' : (some root).filter (fun r => !r.isEmpty && rootOk r) = some root := by
    have hpos := (sized_spec hrok).1
    refine Option.filter_some_pos ?_
    simp [hrok, List.isEmpty_eq_false_iff.2 (List.ne_nil_of_length_pos (by omega : 0 < root.length))]
  have hall : (plan.ref.rel.filter (!·.isEmpty)).all (fun r => r.isEmpty || relOk r) = true := by
    cases hr : plan.ref.rel with
    | none => rfl
    | some rel =>
      rw [hr] at hrel
      rcases eq_or_ne rel [] with rfl | hne
      · rfl
      · rw [Option.filter_some_pos (by simp [List.isEmpty_eq_false_iff.2 hne]), Option.all_some]
        simpa using Or.inr (hrel hne)
  rw [refFromLabels, if_neg hhf, hlabel, if_neg (by decide), if_neg hol, hgroot, hroot']
  simp only [hgrel, hall, and_true, if_pos hloc]
  rw [ModelRef.used, if_neg hhf, if_neg hol, hroot]

/-- The GPUs come back. -/
theorem parseIds_pushed (hplan : plan.Launched env) (hadopt : plan.Adoptable env)
    (h : plan.RunAs scrub ls shown) :
    parseIds ((get (pushedLabels scrub shown) "engine-console.gpu_ids").getD []) = plan.gpuIds := by
  have hcand : get (candidates plan.labelArgs) "engine-console.gpu_ids" =
      some (joined (plan.gpuIds.map intText)) := rfl
  rcases eq_or_ne (joined (plan.gpuIds.map intText)) [] with hempty | hne
  · rw [h.get_eq hplan.iidOk (by decide), hcand, hempty]
    conv_rhs => rw [← parseIds_joined hplan.indices, hempty]
    rfl
  · have hnul : '\x00' ∉ joined (plan.gpuIds.map intText) := by
      refine joined_nul fun s hs => ?_
      obtain ⟨i, hi, rfl⟩ := List.mem_map.1 hs
      exact intText_nul (hplan.indices i hi).1
    rw [h.get_some hplan.iidOk (by decide) hcand ⟨fits_of hne hadopt.gpus, hnul⟩]
    exact parseIds_joined hplan.indices

theorem length_intText_le {i : Int} (h : 0 ≤ i) (h' : i < 2 ^ 63) : (intText i).length ≤ 256 := by
  rw [intText_of_nonneg h]
  have hlen := (Nat.length_toDigits_le_iff (b := 10) (k := 19) (n := i.toNat) (by omega)
    (by omega)).2 (by omega)
  omega

/-- The port of the gateway, or the plan's. -/
theorem adoptPort_pushed (hplan : plan.Launched env) (h : plan.RunAs scrub ls shown)
    (containers : List Container) :
    adoptPort env containers plan.container plan.iid (get (pushedLabels scrub shown)) =
      some ((gatewayPort containers plan.container plan.iid).getD plan.port) := by
  have hport : get (pushedLabels scrub shown) "engine-console.port" = some (intText plan.port) :=
    h.get_some hplan.iidOk (by decide) rfl
      ⟨fits_of (intText_ne_nil hplan.port.1) (length_intText_le hplan.port.1 hplan.port.2),
        intText_nul hplan.port.1⟩
  rw [adoptPort, hport, Option.getD_some, pyInt_intText hplan.port.1 hplan.port.2]
  cases gatewayPort containers plan.container plan.iid <;> rfl

/-- The row that is made of the plan's container. -/
theorem newRow_pushed (hplan : plan.Launched env) (hadopt : plan.Adoptable env)
    (h : plan.RunAs scrub ls shown) (host : Text) {containers : List Container} {c : Container}
    (hname : c.name = plan.container) (hlabels : c.labels = pushedLabels scrub shown)
    (hgw : ∀ p, gatewayPort containers plan.container plan.iid = some p → env.lo ≤ p ∧ p ≤ env.hi) :
    ∃ row, newRow env host containers c = some row ∧ row.id = plan.iid ∧ row.name = plan.name ∧
      row.engine = plan.engine ∧ row.model = some plan.ref.used ∧ row.gpuIds = plan.gpuIds := by
  have hinst : get c.labels "engine-console.instance" = some plan.iid :=
    hlabels ▸ h.get_some hplan.iidOk (by decide) rfl (idOk_fits hplan.iidOk)
  have hengine : get c.labels "engine-console.engine" = some plan.engine :=
    hlabels ▸ h.get_some hplan.iidOk (by decide) rfl (idOk_fits hplan.engineOk)
  have hmodel : get c.labels "engine-console.model" = some (displayOf plan.ref) :=
    hlabels ▸ h.get_some hplan.iidOk (by decide) rfl (display_fits hplan hadopt)
  have hpname : get c.labels "engine-console.name" = some plan.name :=
    hlabels ▸ h.get_some hplan.iidOk (by decide) rfl (nameOk_fits hplan.nameOk)
  have hformat : get c.labels "engine-console.format" = some plan.ref.format := by
    rw [hlabels]
    refine h.get_some hplan.iidOk (by decide) rfl ?_
    have hall : ∀ f ∈ modelFormats, fits f = true ∧ '\x00' ∉ f := by decide
    exact hall _ hplan.format
  have href := refFromLabels_pushed hplan hadopt h
  have hids := parseIds_pushed hplan hadopt h
  have hport := adoptPort_pushed hplan h containers
  rw [← hlabels] at href hids hport
  have hne : ∀ {v : Text}, fits v = true → (some v).filter (!·.isEmpty) = some v := fun hv =>
    Option.filter_some_pos (by simp only [fits, Bool.and_eq_true] at hv; exact hv.1)
  have hrange : ((some ((gatewayPort containers plan.container plan.iid).getD plan.port)).filter
      fun p => env.lo ≤ p ∧ p ≤ env.hi) =
      some ((gatewayPort containers plan.container plan.iid).getD plan.port) := by
    refine Option.filter_some_pos ?_
    cases hg : gatewayPort containers plan.container plan.iid with
    | none => simpa using hadopt.port
    | some p => simpa using hgw p hg
  have hvalid : ((ascii "inst_").isPrefixOf plan.iid && idOk plan.iid && idOk plan.engine &&
      nameOk plan.name) = true := by
    rw [List.isPrefixOf_iff_prefix.2 hplan.iid, hplan.iidOk, hplan.engineOk, hplan.nameOk]
    rfl
  have hadapter : (some plan.engine).filter (· ∈ env.adapters) = some plan.engine :=
    Option.filter_some_pos (by simpa using hplan.engine)
  have href' : (Except.toOption (ε := Text) (.ok plan.ref.used)).filter (fun _ =>
      (ascii "inst_").isPrefixOf plan.iid && idOk plan.iid && idOk plan.engine &&
        nameOk plan.name) = some plan.ref.used :=
    Option.filter_some_pos hvalid
  unfold newRow
  simp only [hinst, hengine, hmodel, hpname, hformat, Option.getD_some,
    hne (idOk_fits hplan.iidOk).1, hne (idOk_fits hplan.engineOk).1,
    hne (display_fits hplan hadopt).1, hadapter, href, href', hname, hport, hrange, hids,
    Option.bind_eq_bind, Option.bind_some]
  refine ⟨_, rfl, rfl, rfl, rfl, rfl, ?_⟩
  rcases eq_or_ne plan.gpuIds [] with hnone | hsome
  · -- without GPUs there is no label, and no GPU is without a uuid
    have hcand : get (candidates plan.labelArgs) "engine-console.gpus" = some (joined plan.gpuUuids) :=
      rfl
    have hgpus : get c.labels "engine-console.gpus" = none := by
      rw [hlabels, h.get_eq hplan.iidOk (by decide), hcand, hplan.noGpu hnone]
      rfl
    have hno : (env.gpus.any fun e => decide (e.1 = [])) = false :=
      List.any_eq_false.2 fun e he => by simpa using env.gpus_ne e he
    simp [hgpus, hnone, hno]
  · simp [hsome]

end ReadBack

/-! ## Adoption -/

/-- What a row is made from, apart from its state. -/
def Row.SameInstance (r r' : Row) : Prop :=
  r.id = r'.id ∧ r.name = r'.name ∧ r.engine = r'.engine ∧ r.model = r'.model ∧
    r.gpuIds = r'.gpuIds ∧ r.container = r'.container ∧ r.hostId = r'.hostId

theorem mem_setState {id : Text} {state : State} {rows : List Row} {r : Row}
    (h : r ∈ setState id state rows) : ∃ r' ∈ rows, r.SameInstance r' := by
  obtain ⟨r', hr', rfl⟩ := List.mem_map.1 h
  refine ⟨r', hr', ?_⟩
  split <;> exact ⟨rfl, rfl, rfl, rfl, rfl, rfl, rfl⟩

theorem exists_setState {id : Text} {state : State} {rows : List Row} {r : Row} (h : r ∈ rows) :
    ∃ r' ∈ setState id state rows, r'.SameInstance r := by
  refine ⟨_, List.mem_map_of_mem h, ?_⟩
  split <;> exact ⟨rfl, rfl, rfl, rfl, rfl, rfl, rfl⟩

/-- One container keeps the rows there are, and its row is the only new one. -/
theorem adoptContainer_spec (env : Env) (host : Text) (containers : List Container)
    (rows : List Row) (c : Container) :
    (∀ r ∈ rows, ∃ r' ∈ adoptContainer env host containers rows c, r'.SameInstance r) ∧
      ∀ r ∈ adoptContainer env host containers rows c,
        (∃ r' ∈ rows, r.SameInstance r') ∨ newRow env host containers c = some r := by
  have hsame : ∀ r : Row, r.SameInstance r := fun r => ⟨rfl, rfl, rfl, rfl, rfl, rfl, rfl⟩
  have hkeep : (∀ r ∈ rows, ∃ r' ∈ rows, r'.SameInstance r) ∧
      ∀ r ∈ rows, (∃ r' ∈ rows, r.SameInstance r') ∨ newRow env host containers c = some r :=
    ⟨fun r hr => ⟨r, hr, hsame r⟩, fun r hr => .inl ⟨r, hr, hsame r⟩⟩
  have hset : ∀ id state, (∀ r ∈ rows, ∃ r' ∈ setState id state rows, r'.SameInstance r) ∧
      ∀ r ∈ setState id state rows,
        (∃ r' ∈ rows, r.SameInstance r') ∨ newRow env host containers c = some r :=
    fun id state => ⟨fun r hr => exists_setState hr, fun r hr => .inl (mem_setState hr)⟩
  unfold adoptContainer
  by_cases hmanaged : (!c.managed) = true
  · rw [if_pos hmanaged]
    exact hkeep
  rw [if_neg hmanaged]
  by_cases hrole : get c.labels "engine-console.role" = some (ascii "gateway") ∨
      c.role = some (ascii "gateway")
  · rw [if_pos hrole]
    exact hkeep
  rw [if_neg hrole]
  split
  · split_ifs
    exacts [hset _ _, hset _ _, hkeep]
  · split
    · exact hkeep
    · rename_i row hrow
      split_ifs
      · exact hkeep
      · refine ⟨fun r hr => ⟨r, List.mem_append_left _ hr, hsame r⟩, fun r hr => ?_⟩
        rcases List.mem_append.1 hr with hr | hr
        · exact .inl ⟨r, hr, hsame r⟩
        · rw [List.mem_singleton.1 hr]
          exact .inr hrow


theorem Row.SameInstance.refl (r : Row) : r.SameInstance r :=
  ⟨rfl, rfl, rfl, rfl, rfl, rfl, rfl⟩

theorem Row.SameInstance.trans {r₁ r₂ r₃ : Row} (h : r₁.SameInstance r₂) (h' : r₂.SameInstance r₃) :
    r₁.SameInstance r₃ :=
  ⟨h.1.trans h'.1, h.2.1.trans h'.2.1, h.2.2.1.trans h'.2.2.1, h.2.2.2.1.trans h'.2.2.2.1,
    h.2.2.2.2.1.trans h'.2.2.2.2.1, h.2.2.2.2.2.1.trans h'.2.2.2.2.2.1,
    h.2.2.2.2.2.2.trans h'.2.2.2.2.2.2⟩

/-- A round keeps the rows there are, and makes new ones of its containers only. -/
theorem foldl_adoptContainer_spec (env : Env) (host : Text) (containers : List Container) :
    ∀ (cs : List Container) (rows : List Row),
      (∀ r ∈ rows, ∃ r' ∈ cs.foldl (adoptContainer env host containers) rows, r'.SameInstance r) ∧
        ∀ r ∈ cs.foldl (adoptContainer env host containers) rows,
          (∃ r' ∈ rows, r.SameInstance r') ∨
            ∃ c ∈ cs, ∃ r', newRow env host containers c = some r' ∧ r.SameInstance r'
  | [], rows => ⟨fun r hr => ⟨r, hr, .refl r⟩, fun r hr => .inl ⟨r, hr, .refl r⟩⟩
  | c :: cs, rows => by
    obtain ⟨hkeep, hnew⟩ := adoptContainer_spec env host containers rows c
    obtain ⟨hkeep', hnew'⟩ := foldl_adoptContainer_spec env host containers cs
      (adoptContainer env host containers rows c)
    refine ⟨fun r hr => ?_, fun r hr => ?_⟩
    · obtain ⟨r₁, hr₁, h₁⟩ := hkeep r hr
      obtain ⟨r₂, hr₂, h₂⟩ := hkeep' r₁ hr₁
      exact ⟨r₂, hr₂, h₂.trans h₁⟩
    · rcases hnew' r hr with ⟨r₁, hr₁, h₁⟩ | ⟨c', hc', r₁, hr₁, h₁⟩
      · rcases hnew r₁ hr₁ with ⟨r₂, hr₂, h₂⟩ | h₂
        · exact .inl ⟨r₂, hr₂, h₁.trans h₂⟩
        · exact .inr ⟨c, List.mem_cons_self, r₁, h₂, h₁⟩
      · exact .inr ⟨c', List.mem_cons_of_mem c hc', r₁, hr₁, h₁⟩

/-- A new row has the container's name and its instance label. -/
theorem newRow_eq_some {env : Env} {host : Text} {containers : List Container} {c : Container}
    {r : Row} (h : newRow env host containers c = some r) :
    get c.labels "engine-console.instance" = some r.id ∧ r.container = c.name := by
  simp only [newRow, Option.bind_eq_bind, Option.bind_eq_some_iff] at h
  obtain ⟨iid, hiid, engine, -, model, -, engine', -, rf, -, port, -, hr⟩ := h
  obtain rfl := Option.some.inj hr
  exact ⟨Option.eq_some_of_filter_eq_some hiid, rfl⟩

/-- The container of a plan reads as a managed engine. -/
theorem pushed_managed {plan : Plan} {scrub : Text → Text} {ls shown : List Label}
    (h : plan.RunAs scrub ls shown) (c : Container) :
    (pushed scrub shown c).managed = true ∧ (pushed scrub shown c).role = some (ascii "engine") := by
  have hmem := (runLabels_spec h.run).2.1
  have hget : ∀ l : Label, l ∈ ls → l.2.any ctrl = false → l.2.length ≤ 256 →
      get (reported scrub shown) l.1 = some l.2 := fun l hl hc hle => by
    rw [get, find_reported h.run h.shown hl (h.scrub l hl) hc hle]
    rfl
  have hlabel := hget ("engine-console", "1") ((hmem _).2 (.inl List.mem_cons_self)) (by decide)
    (by decide)
  have hrole := hget ("engine-console.role", "engine")
    ((hmem _).2 (.inl (List.mem_cons_of_mem _ List.mem_cons_self))) (by decide) (by decide)
  simp only [pushed, hlabel, hrole]
  decide

/-- A host with one GPU. -/
def oneGpu : Env :=
  { word := fun _ => false, white := fun _ => false, adapters := ["vllm", "ollama"],
    imageFor := fun _ => [], lo := 8000, hi := 8099, gpus := [("GPU-1", 0)],
    gpus_ne := by decide }

/-- A plan for a reference. -/
def planFor (engine : Text) (ref : ModelRef) : Plan :=
  { iid := "inst_0a1b2c", name := "qwen", engine := engine, ref := ref, port := 8000,
    gpuIds := [0], gpuUuids := ["GPU-1"], container := "ec-qwen-0a1b2c" }

/-- The labels its container runs with. -/
def labelsOf (plan : Plan) : List Label :=
  fixedLabels plan.iid ++ (engineLabels plan.labelArgs).drop 2

/-- A container of its name, as docker has it. -/
def containerOf (plan : Plan) : Container :=
  { name := plan.container, managed := false, labels := [], role := none, inst := none,
    state := "running", exitCode := none, image := "img", ports := [] }

theorem runAs_labelsOf {plan : Plan}
    (h : runLabels plan.iid (cleanMap 256 32 (engineLabels plan.labelArgs)) =
      .ok (labelsOf plan)) (hlen : (labelsOf plan).length ≤ 48) :
    plan.RunAs id (labelsOf plan) (labelsOf plan) :=
  ⟨h, ⟨hlen, fun _ hl => hl, fun _ hl _ => hl⟩, fun _ _ => rfl⟩

end Lifecycle

end EngineConsole
