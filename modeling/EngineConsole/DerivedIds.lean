import EngineConsole.Usage

/-!
# Ids of engines the hub did not start

`build_host_instances` gives an id to each script of a host's policy, to each running engine
container that no script claims and to each bare endpoint. The id holds the host with its
hyphens doubled and a slug of the name; a container or an endpoint whose id is taken gets the
first digits of a hash after it.

Ids of two hosts differ (`host_eq_of_id`), and so do ids of scripts and of the others. On one
host the slug of a script's name is all that tells it from the others, and the id with the
hash is not checked again. `identified` is when all ids are distinct and a container keeps its
id from one inventory to the next : `Crowded` names the keys that get the hash, from the keys
before them in the order of the names.
-/

set_option linter.unusedSectionVars false

namespace EngineConsole

namespace Derived

open Web Usage

/-! ## First come, with a fallback -/

section Fallback

variable {ε ι : Type*} [DecidableEq ι] (base fallback : ε → ι)

/-- The name of `e` when `taken` are given. -/
def nameIn (taken : List ι) (e : ε) : ι :=
  if base e ∈ taken then fallback e else base e

/-- Name one after the other. -/
def named : List ι → List ε → List (ε × ι)
  | _, [] => []
  | taken, e :: es =>
    (e, nameIn base fallback taken e) ::
      named (taken ++ [nameIn base fallback taken e]) es

/-- The names given. -/
def names (taken : List ι) (es : List ε) : List ι :=
  (named base fallback taken es).map Prod.snd

/-- The base name of `e` is gone after `pre` : one of them has it as its base name, or a crowded
one has it as its fallback. -/
inductive Crowded : List ε → ε → Prop
  | shares {pre : List ε} {e' e : ε} : e' ∈ pre → base e' = base e → Crowded pre e
  | suffixed {pre post : List ε} {e' e : ε} :
      Crowded pre e' → fallback e' = base e → Crowded (pre ++ e' :: post) e

variable {base fallback} {taken pre post es : List ε} {e e' : ε}

@[simp] theorem names_nil (t : List ι) : names base fallback t [] = [] := rfl

theorem named_concat (t : List ι) (es : List ε) (e : ε) :
    named base fallback t (es ++ [e]) = named base fallback t es ++
      [(e, nameIn base fallback (t ++ names base fallback t es) e)] := by
  induction es generalizing t with
  | nil => simp [named]
  | cons a es ih =>
    simp only [List.cons_append, named, ih, names, List.map_cons]
    simp

theorem names_concat (t : List ι) (es : List ε) (e : ε) :
    names base fallback t (es ++ [e]) = names base fallback t es ++
      [nameIn base fallback (t ++ names base fallback t es) e] := by
  simp [names, named_concat]

/-- What has no base name does not count. -/
theorem named_of_disjoint {t : List ι} (ht : ∀ e, base e ∉ t) (es : List ε) :
    named base fallback t es = named base fallback [] es := by
  induction es using List.reverseRecOn with
  | nil => rfl
  | append_singleton es e ih =>
    have hnames : names base fallback t es = names base fallback [] es := by rw [names, ih, names]
    rw [named_concat, named_concat, ih, hnames]
    simp [nameIn, ht e]

/-- Where a list and one more is cut. -/
theorem split_concat {pre post es : List ε} {e a : ε} :
    es ++ [a] = pre ++ e :: post ↔
      (pre = es ∧ e = a ∧ post = []) ∨ ∃ post', post = post' ++ [a] ∧ es = pre ++ e :: post' := by
  induction post using List.reverseRecOn with
  | nil =>
    rw [List.append_singleton_inj]
    simp only [List.nil_eq, List.append_eq_nil_iff, List.cons_ne_self, and_false, false_and,
      exists_false, or_false, and_true]
    exact and_congr eq_comm eq_comm
  | append_singleton post y _ =>
    rw [← List.cons_append, ← List.append_assoc, List.append_singleton_inj]
    simp only [List.append_eq_nil_iff, List.cons_ne_self, and_false, false_or,
      List.append_singleton_inj]
    constructor
    · rintro ⟨rfl, rfl⟩
      exact ⟨post, ⟨rfl, rfl⟩, rfl⟩
    · rintro ⟨post', ⟨rfl, rfl⟩, rfl⟩
      exact ⟨rfl, rfl⟩

theorem crowded_concat {es : List ε} {a e : ε} :
    Crowded base fallback (es ++ [a]) e ↔ Crowded base fallback es e ∨ base a = base e ∨
      Crowded base fallback es a ∧ fallback a = base e := by
  constructor
  · intro h
    generalize hl : es ++ [a] = l at h
    cases h with
    | shares hmem heq =>
      subst hl
      rcases List.mem_append.1 hmem with hmem | hmem
      · exact .inl (.shares hmem heq)
      · exact .inr (.inl (List.mem_singleton.1 hmem ▸ heq))
    | suffixed hcrowded heq =>
      rcases split_concat.1 hl with ⟨rfl, rfl, -⟩ | ⟨post', -, rfl⟩
      · exact .inr (.inr ⟨hcrowded, heq⟩)
      · exact .inl (.suffixed hcrowded heq)
  · rintro (h | h | ⟨h, heq⟩)
    · cases h with
      | shares hmem heq => exact .shares (List.mem_append_left _ hmem) heq
      | suffixed hcrowded heq =>
        rw [List.append_assoc, List.cons_append]
        exact .suffixed hcrowded heq
    · exact .shares (List.mem_append_right _ (List.mem_singleton_self a)) h
    · exact .suffixed h heq

theorem base_mem_names {es : List ε} {e : ε} :
    base e ∈ names base fallback [] es ↔ Crowded base fallback es e := by
  induction es using List.reverseRecOn generalizing e with
  | nil =>
    refine iff_of_false (by simp) fun h => ?_
    generalize hl : ([] : List ε) = l at h
    cases h with
    | shares hmem _ => simp [← hl] at hmem
    | suffixed => simp at hl
  | append_singleton es a ih =>
    rw [names_concat, List.mem_append, List.mem_singleton, ih, crowded_concat, List.nil_append,
      nameIn]
    refine or_congr_right' fun hnot => ?_
    by_cases ha : base a ∈ names base fallback [] es
    · have hne : base a ≠ base e := fun heq => hnot (ih.1 (heq ▸ ha))
      rw [if_pos ha]
      simp [hne, ih.1 ha, eq_comm]
    · rw [if_neg ha]
      simp [mt ih.2 ha, eq_comm]

/-- Which name is given. -/
theorem mem_named {es : List ε} {e : ε} {i : ι} :
    (e, i) ∈ named base fallback [] es ↔ ∃ pre post, es = pre ++ e :: post ∧
      (Crowded base fallback pre e ∧ i = fallback e ∨
        ¬Crowded base fallback pre e ∧ i = base e) := by
  induction es using List.reverseRecOn with
  | nil => simp [named]
  | append_singleton es a ih =>
    rw [named_concat, List.mem_append, List.mem_singleton, ih, Prod.mk.injEq, List.nil_append]
    simp only [split_concat]
    constructor
    · rintro (⟨pre, post, rfl, h⟩ | ⟨rfl, rfl⟩)
      · exact ⟨pre, post ++ [a], .inr ⟨post, rfl, rfl⟩, h⟩
      · refine ⟨es, [], .inl ⟨rfl, rfl, rfl⟩, ?_⟩
        rw [nameIn]
        by_cases h : base e ∈ names base fallback [] es
        · exact .inl ⟨base_mem_names.1 h, if_pos h⟩
        · exact .inr ⟨mt base_mem_names.2 h, if_neg h⟩
    · rintro ⟨pre, post, ⟨rfl, rfl, rfl⟩ | ⟨post', rfl, rfl⟩, h⟩
      · refine .inr ⟨rfl, ?_⟩
        rw [nameIn]
        rcases h with ⟨h, rfl⟩ | ⟨h, rfl⟩
        · rw [if_pos (base_mem_names.2 h)]
        · rw [if_neg (mt base_mem_names.1 h)]
      · exact .inl ⟨pre, post', rfl, h⟩

/-- A fallback is gone after `es` : it is a base name there, or a crowded one has it. -/
theorem fallback_mem_names {es : List ε} {e : ε} :
    fallback e ∈ names base fallback [] es ↔ ∃ pre e' post, es = pre ++ e' :: post ∧
      (base e' = fallback e ∨ Crowded base fallback pre e' ∧ fallback e' = fallback e) := by
  constructor
  · intro h
    obtain ⟨⟨e', i⟩, hmem, rfl⟩ := List.mem_map.1 h
    obtain ⟨pre, post, rfl, ⟨hcrowded, hi⟩ | ⟨-, hi⟩⟩ := mem_named.1 hmem
    · exact ⟨pre, e', post, rfl, .inr ⟨hcrowded, hi.symm⟩⟩
    · exact ⟨pre, e', post, rfl, .inl hi.symm⟩
  · rintro ⟨pre, e', post, rfl, heq | ⟨hcrowded, heq⟩⟩
    · rw [← heq]
      exact base_mem_names.2 (.shares (List.mem_append_right _ List.mem_cons_self) rfl)
    · exact List.mem_map.2 ⟨_, mem_named.2 ⟨pre, post, rfl, .inl ⟨hcrowded, heq.symm⟩⟩, rfl⟩

/-- The names are distinct if no crowded one finds its fallback gone. -/
theorem names_nodup {es : List ε} :
    (names base fallback [] es).Nodup ↔ ∀ pre e post, es = pre ++ e :: post →
      Crowded base fallback pre e → fallback e ∉ names base fallback [] pre := by
  induction es using List.reverseRecOn with
  | nil => simp
  | append_singleton es a ih =>
    rw [names_concat, List.nodup_append_comm, List.singleton_append, List.nodup_cons, ih,
      List.nil_append, nameIn]
    simp only [split_concat]
    constructor
    · rintro ⟨hlast, hinit⟩ pre e post (⟨rfl, rfl, rfl⟩ | ⟨post', rfl, rfl⟩) hcrowded
      · rwa [if_pos (base_mem_names.2 hcrowded)] at hlast
      · exact hinit pre e post' rfl hcrowded
    · intro h
      refine ⟨?_, fun pre e post heq => h pre e (post ++ [a]) (.inr ⟨post, rfl, heq⟩)⟩
      by_cases ha : base a ∈ names base fallback [] es
      · rw [if_pos ha]
        exact h es a [] (.inl ⟨rfl, rfl, rfl⟩) (base_mem_names.1 ha)
      · rwa [if_neg ha]

end Fallback

/-! ## What a node reports -/

/-- A container of an inventory. -/
structure Container where
  name : Text
  /-- its state is `running` -/
  running : Bool
  managed : Bool
  engine : Bool
  /-- the host ports it publishes on the loopback -/
  ports : List Int

/-- A probed port. -/
structure Endpoint where
  port : Int
  /-- it belongs to a container -/
  container : Bool
  engine : Bool
  healthStatus : Option Int
  modelsStatus : Option Int
  metricsStatus : Option Int

/-- A node's policy and its latest inventory. -/
structure Report where
  scripts : List Script
  containers : List Container
  endpoints : List Endpoint

/-- `ok_status`. -/
def okStatus (s : Option Int) : Bool :=
  s.any fun n => 200 ≤ n && n < 300

/-- `auth_status`. -/
def authStatus (s : Option Int) : Bool :=
  s.any fun n => n == 401 || n == 403

/-- `answered`. -/
def Endpoint.answered (e : Endpoint) : Bool :=
  [e.healthStatus, e.modelsStatus, e.metricsStatus].any fun s => okStatus s || authStatus s

/-- It is an engine that can be recognised. -/
def Endpoint.recognised (e : Endpoint) : Bool :=
  e.engine || e.answered && okStatus e.modelsStatus &&
    (okStatus e.metricsStatus || okStatus e.healthStatus)

/-- `SCRIPT_NAME`. -/
def isScriptName : Text → Bool
  | [] => false
  | c :: s => c.isAlphanum && decide (s.length ≤ 31) &&
    s.all fun c => c.isAlphanum || c == '_' || c == '.' || c == '-'

/-- What an id is given to. -/
inductive Engine
  | script (name : Text)
  | container (name : Text)
  | endpoint (port : Int)
  deriving DecidableEq

/-- The text of a number. -/
def decimal (n : Int) : Text :=
  ascii (toString n)

/-- What the slug is made from. -/
def Engine.key : Engine → Text
  | .script name => name
  | .container name => name
  | .endpoint port => "127.0.0.1:" ++ decimal port

/-- What the hash is made from. -/
def Engine.salt : Engine → Text
  | .script name => name
  | .container name => name
  | .endpoint port => decimal port

/-! ## `build_host_instances` -/

section

variable (hub : Usage.Hub) (sha6 : Text → Text)

/-- `matches_script`. -/
def matchesScript (name : Text) (s : Script) : Bool :=
  s.containers.any (hub.fnmatch name)

/-- The scripts with a name that can be one. -/
def Report.named (r : Report) : List Script :=
  r.scripts.filter fun s => isScriptName s.name

def Report.running (r : Report) : List Container :=
  r.containers.filter (·.running)

/-- The containers that belong to scripts. -/
def Report.claimed (r : Report) : List Text :=
  r.named.flatMap fun s =>
    (r.running.filter fun c => !c.managed && matchesScript hub c.name s).map (·.name)

/-- The containers listed, in the order of their names. -/
def Report.externals (r : Report) : List Engine :=
  ((r.running.insertionSort fun a b => a.name ≤ b.name).filter fun c =>
    !(c.managed || (r.claimed hub).contains c.name || !c.engine)).map fun c => .container c.name

/-- The ports of the hub's own containers and of those that run. -/
def Report.covered (r : Report) : List Int :=
  (r.containers.filter (·.managed)).flatMap (·.ports) ++ r.running.flatMap (·.ports)

/-- The endpoints listed, in the order of their ports. -/
def Report.bare (r : Report) : List Engine :=
  ((r.endpoints.insertionSort fun a b => a.port ≤ b.port).filter fun e =>
    !(e.container || r.covered.contains e.port) && e.recognised).map fun e => .endpoint e.port

/-- What gets an id that is looked up among those taken, in the order of the loops. -/
def Report.others (r : Report) : List Engine :=
  r.externals hub ++ r.bare

/-- The id with the hash. -/
def withHash (host : Text) (e : Engine) : Text :=
  hub.externalInstanceId host e.key ++ '-' :: sha6 e.salt

/-- `build_host_instances` : the ids. -/
def buildHostInstances (host : Text) (r : Report) : List (Engine × Text) :=
  let scripts := r.named.map fun s => (Engine.script s.name, hub.scriptInstanceId host s.name)
  scripts ++ named (fun e => hub.externalInstanceId host e.key) (withHash hub sha6 host)
    (scripts.map Prod.snd) (r.others hub)

/-- The ids of a host. -/
def ids (host : Text) (r : Report) : List Text :=
  (buildHostInstances hub sha6 host r).map Prod.snd

end

/-! ## Slugs and hosts -/

section

variable {hub : Usage.Hub} {sha6 : Text → Text} {host host' : Text} {r : Report}

theorem slug_ne_nil (loc : Usage.Locale) (x : Text) : loc.slug x ≠ [] := by
  unfold Usage.Locale.slug
  dsimp only
  split_ifs with h
  · decide
  · exact fun h0 => h (List.isEmpty_iff.2 h0)

/-- A slug never starts with a hyphen. -/
theorem slug_head (loc : Usage.Locale) (x s : Text) : loc.slug x ≠ '-' :: s := by
  unfold Usage.Locale.slug
  dsimp only
  split_ifs with h
  · intro heq
    have hhead : (ascii "unknown").head? = some '-' := by rw [heq]; rfl
    exact absurd hhead (by decide)
  · intro heq
    set l := (dashes false (loc.lower x)).dropWhile (· == '-') with hl
    have hpre : '-' :: s <+: l := by
      rw [← heq]
      exact (List.take_prefix _ _).trans (List.rdropWhile_prefix _ _)
    obtain ⟨t, ht⟩ := hpre
    have hhead := List.head?_dropWhile_not (· == '-') (dashes false (loc.lower x))
    rw [← hl, ← ht] at hhead
    simp at hhead

/-- The first hyphen that is not doubled ends the host. -/
theorem hostPart_inj {t t' : Text} (ht : ∀ s, t ≠ '-' :: s) (ht' : ∀ s, t' ≠ '-' :: s)
    (h : hostPart host ++ '-' :: t = hostPart host' ++ '-' :: t') : host = host' ∧ t = t' := by
  induction host generalizing host' with
  | nil =>
    cases host' with
    | nil => exact ⟨rfl, by simpa [hostPart] using h⟩
    | cons c host' =>
      by_cases hc : c = '-'
      · simp [hostPart, hc] at h
        exact absurd h (ht _)
      · simp [hostPart, hc] at h
        exact absurd h.1.symm hc
  | cons c host ih =>
    cases host' with
    | nil =>
      by_cases hc : c = '-'
      · simp [hostPart, hc] at h
        exact absurd h.symm (ht' _)
      · simp [hostPart, hc] at h
    | cons c' host' =>
      by_cases hc : c = '-' <;> by_cases hc' : c' = '-'
      · obtain ⟨rfl, rfl⟩ := ih (by simpa [hostPart, hc, hc'] using h)
        exact ⟨by rw [hc, hc'], rfl⟩
      · simp [hostPart, hc, hc'] at h
        exact absurd h.1.symm hc'
      · simp [hostPart, hc, hc'] at h
      · have h' : c = c' ∧ hostPart host ++ '-' :: t = hostPart host' ++ '-' :: t' := by
          simpa [hostPart, hc, hc'] using h
        obtain ⟨rfl, rfl⟩ := ih h'.2
        exact ⟨by rw [h'.1], rfl⟩

/-- The host can be read off an id. -/
def IdOf (host i : Text) : Prop :=
  ∃ p t : Text, p.length = 4 ∧ i = p ++ (hostPart host ++ '-' :: t) ∧ ∀ s, t ≠ '-' :: s

theorem host_eq_of_id {i : Text} (h : IdOf host i) (h' : IdOf host' i) : host = host' := by
  obtain ⟨p, t, hp, rfl, ht⟩ := h
  obtain ⟨p', t', hp', heq, ht'⟩ := h'
  exact (hostPart_inj ht ht' (List.append_inj heq (hp.trans hp'.symm)).2).1

theorem hashed_head (loc : Usage.Locale) (x u s : Text) : loc.slug x ++ u ≠ '-' :: s := by
  intro heq
  rcases hx : loc.slug x with _ | ⟨c, l⟩
  · exact slug_ne_nil loc x hx
  · rw [hx, List.cons_append, List.cons.injEq] at heq
    exact slug_head loc x l (heq.1 ▸ hx)

/-- The slug an id is made from. -/
def slugOf (hub : Usage.Hub) (e : Engine) : Text :=
  hub.loc.slug e.key

/-- The slug with the hash after it. -/
def hashedSlug (hub : Usage.Hub) (sha6 : Text → Text) (e : Engine) : Text :=
  slugOf hub e ++ '-' :: sha6 e.salt

/-- What stands before the slug of a container or an endpoint. -/
def extId (host s : Text) : Text :=
  "ext-" ++ (hostPart host ++ '-' :: s)

theorem extId_injective (host : Text) : Function.Injective (extId host) := by
  intro s s' h
  have h' := List.append_cancel_left (List.append_cancel_left h)
  exact (List.cons.inj h').2

theorem externalInstanceId_eq (e : Engine) :
    hub.externalInstanceId host e.key = extId host (slugOf hub e) := by
  simp [Usage.Hub.externalInstanceId, extId, slugOf]

theorem withHash_eq (e : Engine) :
    withHash hub sha6 host e = extId host (hashedSlug hub sha6 e) := by
  simp [withHash, Usage.Hub.externalInstanceId, extId, hashedSlug, slugOf]

/-- Names under an injective map. -/
theorem named_comp {ε ι κ : Type*} [DecidableEq ι] [DecidableEq κ] {f : ι → κ}
    (hf : Function.Injective f) (base fallback : ε → ι) (taken : List ι) (es : List ε) :
    named (fun e => f (base e)) (fun e => f (fallback e)) (taken.map f) es =
      (named base fallback taken es).map fun x => (x.1, f x.2) := by
  induction es generalizing taken with
  | nil => rfl
  | cons e es ih =>
    have hname : nameIn (fun e => f (base e)) (fun e => f (fallback e)) (taken.map f) e =
        f (nameIn base fallback taken e) := by
      have hmem : f (base e) ∈ taken.map f ↔ base e ∈ taken := List.mem_map_of_injective hf
      unfold nameIn
      by_cases h : base e ∈ taken
      · rw [if_pos h, if_pos (hmem.2 h)]
      · rw [if_neg h, if_neg (mt hmem.1 h)]
    have ih' := ih (taken ++ [nameIn base fallback taken e])
    rw [List.map_append, List.map_cons, List.map_nil] at ih'
    rw [named, named, hname, ih', List.map_cons]

/-- What a container or an endpoint is told apart by on its host. -/
def slugs (hub : Usage.Hub) (sha6 : Text → Text) (r : Report) : List (Engine × Text) :=
  named (slugOf hub) (hashedSlug hub sha6) [] (r.others hub)

theorem scriptInstanceId_ne_extId {name t : Text} :
    hub.scriptInstanceId host name ≠ extId host t := by
  intro heq
  have hscr : (ascii "scr-").head? = some 's' := by decide
  have hext : (ascii "ext-").head? = some 'e' := by decide
  have hhead := congrArg List.head? heq
  simp [Usage.Hub.scriptInstanceId, extId, List.head?_append, hscr, hext] at hhead

/-- The scripts' ids do not count for the others. -/
theorem buildHostInstances_eq : buildHostInstances hub sha6 host r =
    (r.named.map fun s => (Engine.script s.name, hub.scriptInstanceId host s.name)) ++
      (slugs hub sha6 r).map fun x => (x.1, extId host x.2) := by
  have hbase : (fun e : Engine => hub.externalInstanceId host e.key) =
      fun e => extId host (slugOf hub e) := funext externalInstanceId_eq
  have hfall : withHash hub sha6 host = fun e => extId host (hashedSlug hub sha6 e) :=
    funext withHash_eq
  rw [buildHostInstances, named_of_disjoint, hbase, hfall, slugs, ← named_comp (extId_injective host),
    List.map_nil]
  intro e h
  rw [List.map_map, List.mem_map] at h
  obtain ⟨s, -, hs⟩ := h
  rw [externalInstanceId_eq] at hs
  exact scriptInstanceId_ne_extId hs

theorem ids_eq : ids hub sha6 host r =
    r.named.map (fun s => hub.scriptInstanceId host s.name) ++
      (names (slugOf hub) (hashedSlug hub sha6) [] (r.others hub)).map (extId host) := by
  rw [ids, buildHostInstances_eq, List.map_append, List.map_map, List.map_map, names, List.map_map]
  rfl

theorem idOf_of_mem {i : Text} (h : i ∈ ids hub sha6 host r) : IdOf host i := by
  rw [ids_eq, List.mem_append, List.mem_map, List.mem_map] at h
  rcases h with ⟨s, -, rfl⟩ | ⟨t, ht, rfl⟩
  · exact ⟨"scr-", hub.loc.slug s.name, by decide, by simp [Usage.Hub.scriptInstanceId],
      slug_head _ _⟩
  · refine ⟨"ext-", t, by decide, rfl, ?_⟩
    obtain ⟨⟨e, t⟩, hmem, rfl⟩ := List.mem_map.1 ht
    obtain ⟨pre, post, -, ⟨-, rfl⟩ | ⟨-, rfl⟩⟩ := mem_named.1 hmem
    · exact hashed_head _ _ _
    · exact slug_head _ _

/-! ## When ids tell engines apart -/

/-- A container or an endpoint that gets the hash : its slug is gone. -/
def Hashed (hub : Usage.Hub) (sha6 : Text → Text) (pre : List Engine) (e : Engine) : Prop :=
  Crowded (slugOf hub) (hashedSlug hub sha6) pre e

/-- No two scripts of the policy have one slug, and one that gets the hash finds no slug before
it that is its own with the hash, and no other with the same slug and hash. -/
structure Separate (hub : Usage.Hub) (sha6 : Text → Text) (r : Report) : Prop where
  scripts : (r.named.map fun s => hub.loc.slug s.name).Nodup
  others : ∀ pre e post, r.others hub = pre ++ e :: post → Hashed hub sha6 pre e →
    ∀ pre' e' post', pre = pre' ++ e' :: post' → slugOf hub e' ≠ hashedSlug hub sha6 e ∧
      ¬(Hashed hub sha6 pre' e' ∧ slugOf hub e' = slugOf hub e ∧ sha6 e'.salt = sha6 e.salt)

/-- A container of both inventories gets the hash in both or in none. -/
def Steady (hub : Usage.Hub) (sha6 : Text → Text) (a b : Report) : Prop :=
  ∀ name pre post pre' post', a.others hub = pre ++ .container name :: post →
    b.others hub = pre' ++ .container name :: post' →
    (Hashed hub sha6 pre (.container name) ↔ Hashed hub sha6 pre' (.container name))

theorem hashedSlug_inj (hsha : ∀ s, (sha6 s).length = 6) {e e' : Engine} :
    hashedSlug hub sha6 e' = hashedSlug hub sha6 e ↔
      slugOf hub e' = slugOf hub e ∧ sha6 e'.salt = sha6 e.salt := by
  constructor
  · intro h
    have hlen : ('-' :: sha6 e'.salt).length = ('-' :: sha6 e.salt).length := by simp [hsha]
    obtain ⟨hslug, htail⟩ := List.append_inj' h hlen
    exact ⟨hslug, (List.cons.inj htail).2⟩
  · rintro ⟨hslug, htail⟩
    rw [hashedSlug, hashedSlug, hslug, htail]

/-- The ids of one host. -/
theorem ids_nodup (hsha : ∀ s, (sha6 s).length = 6) :
    (ids hub sha6 host r).Nodup ↔ Separate hub sha6 r := by
  have hscr : (r.named.map fun s => hub.scriptInstanceId host s.name).Nodup ↔
      (r.named.map fun s => hub.loc.slug s.name).Nodup := by
    have hinj : Function.Injective fun t : Text => "scr-" ++ hostPart host ++ ['-'] ++ t :=
      fun t t' h => List.append_cancel_left h
    have hmap : (r.named.map fun s => hub.scriptInstanceId host s.name) =
        (r.named.map fun s => hub.loc.slug s.name).map
          fun t : Text => "scr-" ++ hostPart host ++ ['-'] ++ t := by
      rw [List.map_map]
      rfl
    rw [hmap, List.nodup_map_iff hinj]
  have hext : ((names (slugOf hub) (hashedSlug hub sha6) [] (r.others hub)).map
      (extId host)).Nodup ↔ ∀ pre e post, r.others hub = pre ++ e :: post →
        Hashed hub sha6 pre e → ∀ pre' e' post', pre = pre' ++ e' :: post' →
          slugOf hub e' ≠ hashedSlug hub sha6 e ∧ ¬(Hashed hub sha6 pre' e' ∧
            slugOf hub e' = slugOf hub e ∧ sha6 e'.salt = sha6 e.salt) := by
    rw [List.nodup_map_iff (extId_injective host), names_nodup]
    refine forall_congr' fun pre => forall_congr' fun e => forall_congr' fun post =>
      forall_congr' fun _ => forall_congr' fun _ => ?_
    rw [fallback_mem_names]
    simp only [hashedSlug_inj hsha, not_exists, not_and, not_or]
    rfl
  have hdisj : List.Disjoint (r.named.map fun s => hub.scriptInstanceId host s.name)
      ((names (slugOf hub) (hashedSlug hub sha6) [] (r.others hub)).map (extId host)) := by
    intro i hi hi'
    obtain ⟨s, -, rfl⟩ := List.mem_map.1 hi
    obtain ⟨t, -, ht⟩ := List.mem_map.1 hi'
    exact scriptInstanceId_ne_extId ht.symm
  rw [ids_eq, List.nodup_append', hscr, hext]
  exact ⟨fun h => ⟨h.1, h.2.1⟩, fun h => ⟨h.1, h.2, hdisj⟩⟩

theorem mem_buildHostInstances {name i : Text} :
    (Engine.container name, i) ∈ buildHostInstances hub sha6 host r ↔
      ∃ pre post, r.others hub = pre ++ .container name :: post ∧
        (Hashed hub sha6 pre (.container name) ∧
            i = extId host (hashedSlug hub sha6 (.container name)) ∨
          ¬Hashed hub sha6 pre (.container name) ∧ i = extId host (slugOf hub (.container name))) := by
  rw [buildHostInstances_eq, List.mem_append, List.mem_map, List.mem_map]
  constructor
  · rintro (⟨s, -, hs⟩ | ⟨⟨e, t⟩, hmem, heq⟩)
    · simp at hs
    · obtain ⟨rfl, rfl⟩ := Prod.mk.inj heq
      obtain ⟨pre, post, hsplit, ⟨h, rfl⟩ | ⟨h, rfl⟩⟩ := mem_named.1 hmem
      · exact ⟨pre, post, hsplit, .inl ⟨h, rfl⟩⟩
      · exact ⟨pre, post, hsplit, .inr ⟨h, rfl⟩⟩
  · rintro ⟨pre, post, hsplit, ⟨h, rfl⟩ | ⟨h, rfl⟩⟩
    · exact .inr ⟨_, mem_named.2 ⟨pre, post, hsplit, .inl ⟨h, rfl⟩⟩, rfl⟩
    · exact .inr ⟨_, mem_named.2 ⟨pre, post, hsplit, .inr ⟨h, rfl⟩⟩, rfl⟩

/-- A container keeps its id. -/
def KeepsId (hub : Usage.Hub) (sha6 : Text → Text) (host : Text) (a b : Report) : Prop :=
  ∀ name i j, (Engine.container name, i) ∈ buildHostInstances hub sha6 host a →
    (Engine.container name, j) ∈ buildHostInstances hub sha6 host b → i = j

theorem keepsId_iff {a b : Report} : KeepsId hub sha6 host a b ↔ Steady hub sha6 a b := by
  have hne (name : Text) : extId host (hashedSlug hub sha6 (.container name)) ≠
      extId host (slugOf hub (.container name)) := by
    intro h
    have hlen := congrArg List.length (extId_injective host h)
    simp [hashedSlug] at hlen
  constructor
  · intro h name pre post pre' post' ha hb
    by_cases hpre : Hashed hub sha6 pre (.container name) <;>
      by_cases hpre' : Hashed hub sha6 pre' (.container name)
    · exact iff_of_true hpre hpre'
    · exact absurd (h name _ _ (mem_buildHostInstances.2 ⟨pre, post, ha, .inl ⟨hpre, rfl⟩⟩)
        (mem_buildHostInstances.2 ⟨pre', post', hb, .inr ⟨hpre', rfl⟩⟩)) (hne name)
    · exact absurd (h name _ _ (mem_buildHostInstances.2 ⟨pre, post, ha, .inr ⟨hpre, rfl⟩⟩)
        (mem_buildHostInstances.2 ⟨pre', post', hb, .inl ⟨hpre', rfl⟩⟩)) (hne name).symm
    · exact iff_of_false hpre hpre'
  · intro h name i j hi hj
    obtain ⟨pre, post, ha, hi⟩ := mem_buildHostInstances.1 hi
    obtain ⟨pre', post', hb, hj⟩ := mem_buildHostInstances.1 hj
    have hiff := h name pre post pre' post' ha hb
    rcases hi with ⟨hh, rfl⟩ | ⟨hh, rfl⟩ <;> rcases hj with ⟨hh', rfl⟩ | ⟨hh', rfl⟩
    · rfl
    · exact absurd (hiff.1 hh) hh'
    · exact absurd (hiff.2 hh') hh
    · rfl

/-! ## The fleet -/

/-- A host, and what its node reports twice in a row. -/
structure Host where
  id : Text
  before : Report
  after : Report

/-- All ids differ, and what stays keeps its id. -/
structure Identified (hub : Usage.Hub) (sha6 : Text → Text) (fleet : List Host) : Prop where
  before : (fleet.flatMap fun h => ids hub sha6 h.id h.before).Nodup
  after : (fleet.flatMap fun h => ids hub sha6 h.id h.after).Nodup
  keeps : ∀ h ∈ fleet, KeepsId hub sha6 h.id h.before h.after

theorem fleet_nodup (hsha : ∀ s, (sha6 s).length = 6) {fleet : List Host} {rep : Host → Report}
    (hids : (fleet.map Host.id).Nodup) :
    (fleet.flatMap fun h => ids hub sha6 h.id (rep h)).Nodup ↔
      ∀ h ∈ fleet, Separate hub sha6 (rep h) := by
  have hdisj : fleet.Pairwise fun h h' =>
      List.Disjoint (ids hub sha6 h.id (rep h)) (ids hub sha6 h'.id (rep h')) := by
    refine (List.pairwise_map.1 hids).imp fun hne i hi hi' => hne ?_
    exact host_eq_of_id (idOf_of_mem hi) (idOf_of_mem hi')
  rw [List.nodup_flatMap]
  constructor
  · exact fun h x hx => (ids_nodup hsha).1 (h.1 x hx)
  · exact fun h => ⟨fun x hx => (ids_nodup hsha).2 (h x hx), hdisj⟩

/-- An id seen for a container that is still there names, in the whole fleet, that container. -/
theorem Identified.same_engine {fleet : List Host} (h : Identified hub sha6 fleet)
    (hids : (fleet.map Host.id).Nodup) {x y : Host} (hx : x ∈ fleet) (hy : y ∈ fleet)
    {name i j : Text} {e : Engine}
    (hi : (Engine.container name, i) ∈ buildHostInstances hub sha6 x.id x.before)
    (hj : (Engine.container name, j) ∈ buildHostInstances hub sha6 x.id x.after)
    (he : (e, i) ∈ buildHostInstances hub sha6 y.id y.after) :
    x = y ∧ e = .container name := by
  obtain rfl := h.keeps x hx name i j hi hj
  have hxi : i ∈ ids hub sha6 x.id x.after := List.mem_map_of_mem hj
  have hyi : i ∈ ids hub sha6 y.id y.after := List.mem_map_of_mem he
  obtain rfl := List.inj_on_of_nodup_map hids hx hy
    (host_eq_of_id (idOf_of_mem hxi) (idOf_of_mem hyi))
  have hnodup := (List.nodup_flatMap.1 h.after).1 x hx
  exact ⟨rfl, congrArg Prod.fst (List.inj_on_of_nodup_map hnodup he hj rfl)⟩

/-! ## Main results -/

/-- The ids of a fleet identify its engines just if on each host the slugs of the scripts differ,
no id with the hash is taken, and the containers that stay get the hash in both inventories or in
none. Then an id seen for a container that stays names that container alone. -/
theorem identified (hsha : ∀ s, (sha6 s).length = 6) (fleet : List Host)
    (hids : (fleet.map Host.id).Nodup) :
    (Identified hub sha6 fleet ↔ ∀ h ∈ fleet, Separate hub sha6 h.before ∧
      Separate hub sha6 h.after ∧ Steady hub sha6 h.before h.after) ∧
    (Identified hub sha6 fleet → ∀ x ∈ fleet, ∀ y ∈ fleet, ∀ name i j e,
      (Engine.container name, i) ∈ buildHostInstances hub sha6 x.id x.before →
      (Engine.container name, j) ∈ buildHostInstances hub sha6 x.id x.after →
      (e, i) ∈ buildHostInstances hub sha6 y.id y.after → x = y ∧ e = .container name) := by
  refine ⟨⟨fun h x hx => ?_, fun h => ?_⟩, fun h x hx y hy name i j e hi hj he =>
    h.same_engine hids hx hy hi hj he⟩
  · exact ⟨(fleet_nodup hsha hids).1 h.before x hx, (fleet_nodup hsha hids).1 h.after x hx,
      keepsId_iff.1 (h.keeps x hx)⟩
  · exact {
      before := (fleet_nodup hsha hids).2 fun x hx => (h x hx).1
      after := (fleet_nodup hsha hids).2 fun x hx => (h x hx).2.1
      keeps := fun x hx => keepsId_iff.2 (h x hx).2.2 }

/-! ## Runs -/

/-- Digests of the names below. -/
def digests (s : Text) : Text :=
  if s = "a.b" then "69f664" else if s = "a-b" then "34fafd"
  else if s = "a-b-69f664" then "5d16fe" else if s = "vllm" then "87185e" else "80003e"

/-- A hub for names in ASCII. -/
def asciiHub : Usage.Hub where
  loc := ⟨List.map Char.toLower, fun _ => false⟩
  fnmatch := fun _ _ => false
  nodes := fun _ => none
  rows := []
  known := fun _ _ => none
  locate := fun _ _ => none

/-- An engine that runs. -/
def engineNamed (name : Text) : Container :=
  ⟨name, true, false, true, []⟩

/-- A node with these scripts and engines. -/
def reportOf (scripts names : List Text) : Report :=
  ⟨scripts.map fun s => ⟨s, []⟩, names.map engineNamed, []⟩

/-- Host `gpu` with `2-vllm` and host `gpu-2` with `vllm`; `gpu-2` has two containers of one slug
in both inventories. -/
def hyphenated : List Host :=
  [⟨"gpu", reportOf ["up"] ["2-vllm"], reportOf ["up"] ["2-vllm", "vllm"]⟩,
    ⟨"gpu-2", reportOf [] ["vllm", "a.b", "a-b"], reportOf ["up"] ["a-b", "a.b"]⟩]

theorem keepsId_of {a b : Report}
    (h : ∀ p ∈ buildHostInstances hub sha6 host a, ∀ q ∈ buildHostInstances hub sha6 host b,
      p.1 = q.1 → p.2 = q.2) : KeepsId hub sha6 host a b :=
  fun name i j hi hj => h (.container name, i) hi (.container name, j) hj rfl

theorem digests_length (s : Text) : (digests s).length = 6 := by
  unfold digests
  split_ifs <;> decide

/-- Their engines are told apart. -/
theorem identified_hyphenated : Identified asciiHub digests hyphenated ∧
    ∀ h ∈ hyphenated, Separate asciiHub digests h.before ∧
      Separate asciiHub digests h.after ∧ Steady asciiHub digests h.before h.after := by
  have hkeeps : ∀ h ∈ hyphenated, ∀ p ∈ buildHostInstances asciiHub digests h.id h.before,
      ∀ q ∈ buildHostInstances asciiHub digests h.id h.after, p.1 = q.1 → p.2 = q.2 := by
    decide +kernel
  have hid : Identified asciiHub digests hyphenated :=
    { before := by decide +kernel
      after := by decide +kernel
      keeps := fun x hx => keepsId_of (hkeeps x hx) }
  exact ⟨hid, (identified digests_length hyphenated (by decide)).1.1 hid⟩

/-- Names and ports are distinct, and so are the digests of those listed. -/
structure Valid (hub : Usage.Hub) (sha6 : Text → Text) (r : Report) : Prop where
  scripts : (r.named.map Script.name).Nodup
  containers : (r.running.map Container.name).Nodup
  endpoints : (r.endpoints.map Endpoint.port).Nodup
  digests : ∀ e ∈ r.others hub, ∀ e' ∈ r.others hub, sha6 e.salt = sha6 e'.salt →
    e.salt = e'.salt

/-- Two scripts of one slug have one id; so do `a.b` with its hash and the container of that
name; and `a.b` loses its id to `a-b` when that starts. -/
theorem not_identified :
    ¬(∀ fleet : List Host, (fleet.map Host.id).Nodup →
      (∀ h ∈ fleet, Valid asciiHub digests h.before ∧ Valid asciiHub digests h.after) →
      Identified asciiHub digests fleet) ∧
    ¬(∀ host before after, Valid asciiHub digests before → Valid asciiHub digests after →
      before.scripts = [] → (ids asciiHub digests host before).Nodup) ∧
    ¬(∀ host before after, Valid asciiHub digests before → Valid asciiHub digests after →
      KeepsId asciiHub digests host before after) := by
  have hscripts : Valid asciiHub digests (reportOf ["a_b", "a-b"] []) :=
    ⟨by decide +kernel, by decide +kernel, by decide +kernel, by decide +kernel⟩
  have hnames : Valid asciiHub digests (reportOf [] ["a.b", "a-b", "a-b-69f664"]) :=
    ⟨by decide +kernel, by decide +kernel, by decide +kernel, by decide +kernel⟩
  have hone : Valid asciiHub digests (reportOf [] ["a.b"]) :=
    ⟨by decide +kernel, by decide +kernel, by decide +kernel, by decide +kernel⟩
  have htwo : Valid asciiHub digests (reportOf [] ["a.b", "a-b"]) :=
    ⟨by decide +kernel, by decide +kernel, by decide +kernel, by decide +kernel⟩
  refine ⟨fun h => ?_, fun h => ?_, fun h => ?_⟩
  · have hfleet := h [⟨"h", _, _⟩] (by simp) fun x hx => by
      rw [List.mem_singleton.1 hx]
      exact ⟨hscripts, hscripts⟩
    exact absurd hfleet.before (by decide +kernel)
  · exact absurd (h "h" _ _ hnames hnames rfl) (by decide +kernel)
  · have heq := h "h" _ _ hone htwo "a.b" "ext-h-a-b" "ext-h-a-b-69f664" (by decide +kernel)
      (by decide +kernel)
    exact absurd heq (by decide +kernel)

end

end Derived

end EngineConsole
