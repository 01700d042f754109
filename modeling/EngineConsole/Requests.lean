import EngineConsole.Security

/-!
# The route table and the request pipeline

Every route of the hub in the order of its registration (`api/routes/mod.rs`), and what
becomes of a request (`handle_request` of `app.rs`) up to the handler : a refusal before it,
or a handler that runs for a principal.

What the pipeline promises of a handler that runs is `Rightful`. It rests on two views of a
path that must agree, its text (`guarded`, `viewerMay`) and the templates. They disagree on
one path, `/metrics` with a newline, which the route of `/metrics` takes and `guarded` does
not (`rightful_iff`).
-/

set_option linter.unusedSectionVars false

namespace EngineConsole.Web

/-! ## The routes -/

/-- The routes that are always there. -/
def table : List Route :=
  [
    ⟨"GET", "/api/v1/openapi.json", .open⟩,
    ⟨"HEAD", "/api/v1/openapi.json", .open⟩,
    ⟨"GET", "/api/v1/health", .caller⟩,
    ⟨"GET", "/api/v1/hardware", .caller⟩,
    ⟨"GET", "/api/v1/learn", .caller⟩,
    ⟨"GET", "/api/v1/engines", .caller⟩,
    ⟨"GET", "/api/v1/engines/{engine}/params", .caller⟩,
    ⟨"GET", "/api/v1/hf/search", .admin⟩,
    ⟨"GET", "/api/v1/hf/models/{repo_id:path}", .admin⟩,
    ⟨"POST", "/api/v1/fit", .caller⟩,
    ⟨"GET", "/api/v1/downloads", .caller⟩,
    ⟨"POST", "/api/v1/downloads", .caller⟩,
    ⟨"GET", "/api/v1/downloads/stream", .caller⟩,
    ⟨"GET", "/api/v1/downloads/{did}", .caller⟩,
    ⟨"POST", "/api/v1/downloads/{did}/pause", .caller⟩,
    ⟨"POST", "/api/v1/downloads/{did}/resume", .caller⟩,
    ⟨"POST", "/api/v1/downloads/{did}/cancel", .caller⟩,
    ⟨"DELETE", "/api/v1/downloads/{did}", .caller⟩,
    ⟨"GET", "/api/v1/models", .caller⟩,
    ⟨"DELETE", "/api/v1/models/{repo_id:path}", .admin⟩,
    ⟨"GET", "/api/v1/library", .caller⟩,
    ⟨"POST", "/api/v1/library/rescan", .admin⟩,
    ⟨"DELETE", "/api/v1/library/copies/{copy_id}", .admin⟩,
    ⟨"POST", "/api/v1/library/copies/{copy_id}/copy", .admin⟩,
    ⟨"GET", "/api/v1/instances", .caller⟩,
    ⟨"POST", "/api/v1/instances", .caller⟩,
    ⟨"POST", "/api/v1/instances/preflight", .caller⟩,
    ⟨"POST", "/api/v1/instances/discover", .admin⟩,
    ⟨"GET", "/api/v1/instances/{iid}", .caller⟩,
    ⟨"PATCH", "/api/v1/instances/{iid}", .caller⟩,
    ⟨"POST", "/api/v1/instances/{iid}/stop", .caller⟩,
    ⟨"POST", "/api/v1/instances/{iid}/start", .caller⟩,
    ⟨"POST", "/api/v1/instances/{iid}/restart", .caller⟩,
    ⟨"DELETE", "/api/v1/instances/{iid}", .caller⟩,
    ⟨"GET", "/api/v1/instances/{iid}/logs", .caller⟩,
    ⟨"GET", "/api/v1/instances/{iid}/logs/stream", .caller⟩,
    ⟨"GET", "/api/v1/instances/{iid}/command", .caller⟩,
    ⟨"GET", "/api/v1/profiles", .caller⟩,
    ⟨"POST", "/api/v1/profiles", .caller⟩,
    ⟨"POST", "/api/v1/profiles/import", .caller⟩,
    ⟨"GET", "/api/v1/profiles/{a}/diff/{b}", .caller⟩,
    ⟨"GET", "/api/v1/profiles/{pid}/export", .caller⟩,
    ⟨"PUT", "/api/v1/profiles/{pid}", .caller⟩,
    ⟨"DELETE", "/api/v1/profiles/{pid}", .caller⟩,
    ⟨"GET", "/api/v1/metrics/system", .caller⟩,
    ⟨"GET", "/api/v1/metrics/instances/{iid}", .caller⟩,
    ⟨"GET", "/api/v1/metrics/stream", .caller⟩,
    ⟨"POST", "/api/v1/bench", .caller⟩,
    ⟨"GET", "/api/v1/bench", .caller⟩,
    ⟨"GET", "/api/v1/bench/{bid}", .caller⟩,
    ⟨"GET", "/api/v1/bench/{bid}/stream", .caller⟩,
    ⟨"GET", "/api/v1/usage", .caller⟩,
    ⟨"GET", "/api/v1/usage/export.csv", .caller⟩,
    ⟨"GET", "/api/v1/audit", .admin⟩,
    ⟨"POST", "/api/v1/chat/completions", .caller⟩,
    ⟨"GET", "/api/v1/conversations", .caller⟩,
    ⟨"POST", "/api/v1/conversations", .caller⟩,
    ⟨"GET", "/api/v1/conversations/{cid}", .caller⟩,
    ⟨"DELETE", "/api/v1/conversations/{cid}", .caller⟩,
    ⟨"GET", "/api/v1/prompts", .caller⟩,
    ⟨"POST", "/api/v1/prompts", .caller⟩,
    ⟨"PUT", "/api/v1/prompts/{pid}", .caller⟩,
    ⟨"DELETE", "/api/v1/prompts/{pid}", .caller⟩,
    ⟨"POST", "/api/v1/arena/matches", .caller⟩,
    ⟨"POST", "/api/v1/arena/matches/{mid}/vote", .caller⟩,
    ⟨"GET", "/api/v1/arena/leaderboard", .caller⟩,
    ⟨"GET", "/api/v1/settings", .caller⟩,
    ⟨"PUT", "/api/v1/settings", .admin⟩,
    ⟨"GET", "/api/v1/keys", .admin⟩,
    ⟨"POST", "/api/v1/keys", .admin⟩,
    ⟨"DELETE", "/api/v1/keys/{kid}", .admin⟩,
    ⟨"GET", "/api/v1/config/{file}", .admin⟩,
    ⟨"POST", "/api/v1/config/validate", .admin⟩,
    ⟨"GET", "/api/v1/hosts", .caller⟩,
    ⟨"GET", "/api/v1/hosts/{host_id}", .caller⟩,
    ⟨"POST", "/api/v1/hosts/{host_id}/reconnect", .admin⟩,
    ⟨"GET", "/api/v1/fleet/stream", .caller⟩,
    ⟨"GET", "/api/v1/scripts", .caller⟩,
    ⟨"POST", "/api/v1/scripts/{host_id}/{name}/{action}", .admin⟩,
    ⟨"GET", "/api/v1/scripts/jobs/{job_id}", .caller⟩,
    ⟨"GET", "/api/v1/scripts/jobs/{job_id}/stream", .caller⟩,
    ⟨"GET", "/metrics", .open⟩]

/-- The route of the frontend, which takes every other path. -/
def spa : Route := ⟨"GET", "/{path:path}", .open⟩

/-- `router` -/
def routes (frontend : Bool) : List Route :=
  if frontend then table ++ [spa] else table

/-! ## Requests -/

/-- A request as the listener hands it over : the path before it is decoded, the headers in
their order with names in lower case, and the peer's address. -/
structure Request where
  method : String
  rawPath : List UInt8
  rawHeaders : List (Text × List UInt8)
  clientHost : String

/-- The decoded path. -/
def Request.path (req : Request) : Text :=
  decodePath req.rawPath

/-- The headers by name. -/
def Request.headers (req : Request) : Headers :=
  req.rawHeaders.foldl (fun headers h => (h.1, latin1 h.2) :: headers) []

/-- What becomes of a request. -/
inductive Outcome where
  | denied (d : Deny)
  /-- the handler of the route runs -/
  | ran (r : Route) (params : List (String × Text)) (p : Principal)
  | forbidden (r : Route) (detail : String)
  | methodNotAllowed (r : Route)
  | redirect (other : Text)
  | notFound

/-- The checks before routing : the principal of the request, or a refusal. -/
def admitted (hub : Hub) (req : Request) : Except Deny Principal :=
  match precheck hub req.method req.path req.headers with
  | some d => .error d
  | none =>
    if guarded req.path then
      match principal hub req.clientHost req.headers with
      | none => .error ⟨401, "unauthorized", "a valid bearer API key is required"⟩
      | some p =>
        if p.role ≠ "admin" && mutating.contains req.method && !viewerMay req.method req.path then
          .error ⟨403, "forbidden", "this key has the viewer role (read-only)"⟩
        else .ok p
    else .ok Principal.public

/-- `handle_request` -/
def handleRequest (hub : Hub) (req : Request) : Outcome :=
  match admitted hub req with
  | .error d => .denied d
  | .ok p =>
    match find (routes hub.frontend) req.method req.path with
    | .full r params =>
      match checkAccess r.access req.method req.path p with
      | some detail => .forbidden r detail
      | none => .ran r params p
    | .pathOnly r => .methodNotAllowed r
    | .none =>
      match slashRedirect (routes hub.frontend) req.method req.path with
      | some other => .redirect other
      | none => .notFound

/-! ## What a handler may rely on -/

/-- The templates a viewer may post to. -/
def viewerTemplates : List Text :=
  ["/api/v1/chat/completions", "/api/v1/fit", "/api/v1/conversations", "/api/v1/arena/matches",
    "/api/v1/arena/matches/{mid}/vote"]

/-- The principal is that of a key which is valid and which the request carries. -/
def FromKey (hub : Hub) (headers : Headers) (p : Principal) : Prop :=
  ∃ auth tok keys, headers.get "authorization" = some auth ∧ bearer hub auth = some tok ∧
    hub.keys = some keys ∧ ∃ k ∈ keys, k.hash = hub.keyHash tok ∧ k.revoked = false ∧
      p = k.principal

/-- The principal is the trusted loopback caller. -/
def FromLoopback (hub : Hub) (req : Request) (p : Principal) : Prop :=
  p = ⟨"loopback", "admin", none⟩ ∧ hub.cfg.trustLoopback = true ∧ req.clientHost ∈ loopback ∧
    req.headers.has "x-forwarded-for" = false ∧ (req.headers.get "authorization").getD [] = []

/-- The template is one that needs a principal. -/
def needsPrincipal (r : Route) : Bool :=
  r.path = "/metrics" || (ascii "/api/").isPrefixOf r.path && r.path ≠ "/api/v1/health"

/-- A handler that runs for a request has the right to. -/
structure Rightful (hub : Hub) (req : Request) (r : Route) (p : Principal) : Prop where
  host : hub.hostOf req.headers ∈ hub.allowedHosts
  origin : req.method ∉ safeMethods → ∀ origin, req.headers.get "origin" = some origin →
    hub.lower (urlsplitNetloc origin) = hub.hostOf req.headers
  csrf : req.method ∉ safeMethods → req.headers.has "authorization" = true ∨
    req.headers.get "x-engine-console" = some ['1']
  principal : needsPrincipal r = true →
    (FromKey hub req.headers p ∨ FromLoopback hub req p) ∧ p ≠ Principal.public
  admin : p.role ≠ "admin" → r.access ≠ .admin
  viewer : p.role ≠ "admin" → r.method ∈ mutating → r.path ∈ viewerTemplates

variable {hub : Hub} {req : Request} {r : Route} {params : List (String × Text)} {p : Principal}
variable {path : Text}

/-! ## The pipeline -/

theorem precheck_host {headers : Headers} {method : String}
    (h : precheck hub method path headers = none) : hub.hostOf headers ∈ hub.allowedHosts := by
  by_contra hhost
  rw [precheck, if_pos (by simpa using hhost)] at h
  cases h

theorem precheck_mutating {headers : Headers} {method : String}
    (h : precheck hub method path headers = none) (hmethod : method ∉ safeMethods) :
    crossOrigin hub (hub.hostOf headers) headers = false ∧ csrfShown headers = true := by
  have hhost := precheck_host h
  rw [precheck, if_neg (by simpa using hhost), if_neg (by simpa using hmethod)] at h
  split_ifs at h with horigin hcsrf
  all_goals exact ⟨by simpa using horigin, by simpa using hcsrf⟩

/-- A GET request passes when its host does. -/
theorem precheck_get {headers : Headers} (h : hub.hostOf headers ∈ hub.allowedHosts) :
    precheck hub "GET" path headers = none := by
  rw [precheck, if_neg (by simpa using h), if_pos (by decide)]

/-- A request that is admitted. -/
theorem admitted_ok (h : admitted hub req = .ok p) :
    precheck hub req.method req.path req.headers = none ∧
      (guarded req.path = true → principal hub req.clientHost req.headers = some p) ∧
      (guarded req.path = false → p = Principal.public) := by
  unfold admitted at h
  split at h
  · cases h
  rename_i hpre
  refine ⟨hpre, fun hguarded => ?_, fun hguarded => ?_⟩
  · rw [if_pos hguarded] at h
    split at h
    · cases h
    rename_i q hq
    split_ifs at h
    rw [hq, Except.ok.inj h]
  · rw [if_neg (by simp [hguarded])] at h
    exact (Except.ok.inj h).symm

/-- A handler that runs : the request was admitted, its route matches it, and the role of the
route is the principal's. -/
theorem handleRequest_ran (h : handleRequest hub req = .ran r params p) :
    admitted hub req = .ok p ∧ r ∈ routes hub.frontend ∧ r.method = req.method ∧
      (r.captures req.path).isSome ∧ checkAccess r.access req.method req.path p = none := by
  unfold handleRequest at h
  split at h
  · cases h
  rename_i q hprincipal
  split at h
  · rename_i r' params' hfind
    split at h
    · cases h
    rename_i haccess
    obtain ⟨rfl, rfl, rfl⟩ := Outcome.ran.inj h
    obtain ⟨hmem, hmethod, hmatch⟩ := find_full hfind
    exact ⟨hprincipal, hmem, hmethod, hmatch, haccess⟩
  · cases h
  · split at h <;> cases h

/-- The principal of a guarded request. -/
theorem principal_some (h : principal hub req.clientHost req.headers = some p) :
    (FromKey hub req.headers p ∨ FromLoopback hub req p) ∧ p ≠ Principal.public := by
  unfold principal at h
  dsimp only at h
  split_ifs at h with hauth hloop
  · split at h
    · rename_i tok htok
      obtain ⟨auth, hget⟩ : ∃ auth, req.headers.get "authorization" = some auth := by
        cases hget : req.headers.get "authorization" with
        | none => simp [hget] at hauth
        | some auth => exact ⟨auth, rfl⟩
      rw [hget, Option.getD_some] at htok
      unfold authenticate at h
      split at h
      · cases h
      rename_i keys hkeys
      split at h
      · cases h
      rename_i k hk
      split_ifs at h
      obtain rfl := Option.some.inj h
      have hvalid := List.find?_some hk
      rw [Bool.and_eq_true, decide_eq_true_eq, Bool.not_eq_true'] at hvalid
      refine ⟨.inl ⟨auth, tok, keys, hget, htok, hkeys, k, List.mem_of_find?_eq_some hk, hvalid.1,
        hvalid.2, rfl⟩, fun hpublic => ?_⟩
      cases congrArg Principal.keyId hpublic
    · cases h
  · obtain rfl := Option.some.inj h
    rw [Bool.and_eq_true, Bool.and_eq_true, Bool.not_eq_true'] at hloop
    refine ⟨.inr ⟨rfl, hloop.1.1, by simpa using hloop.1.2, hloop.2, by simpa using hauth⟩, ?_⟩
    decide

/-! ## The two views of a path -/

theorem routes_subset {frontend : Bool} (h : r ∈ routes frontend) : r ∈ routes true := by
  cases frontend with
  | true => exact h
  | false => exact List.mem_append_left _ h

/-- The templates : under /api/ there is no parameter in that part, and but for its own none of
them takes the path that is open to all; /metrics is read, and literal; of those one posts to only
the viewer's take the viewer's paths; those without a role are read. -/
theorem templates : ∀ r ∈ routes true,
    ((ascii "/api/").isPrefixOf r.path = true → (ascii "/api/").isPrefixOf r.litPrefix = true ∧
      (r.path = "/api/v1/health" ∨ (r.captures "/api/v1/health").isSome = false)) ∧
    (r.path = "/metrics" → r.plain = true ∧ r.method = "GET") ∧
    (r.method = "POST" → r.path ∉ viewerTemplates →
      (∀ path ∈ viewerTemplates, (r.captures path).isSome = false) ∧
        (ascii "/api/v1/arena/matches/").isPrefixOf r.litPrefix = false ∧
        r.litPrefix.isPrefixOf "/api/v1/arena/matches/" = false) ∧
    (r.access = .open → r.method ∉ mutating) := by
  decide +kernel

/-- A route under /api/ takes guarded paths only. -/
theorem guarded_of_api (hr : r ∈ routes true) (hapi : (ascii "/api/").isPrefixOf r.path = true)
    (hhealth : r.path ≠ "/api/v1/health") (hmatch : (r.captures path).isSome) :
    guarded path = true := by
  obtain ⟨hstart, hopen⟩ := (templates r hr).1 hapi
  have hpath : (ascii "/api/").isPrefixOf path = true :=
    List.isPrefixOf_iff_prefix.2
      ((List.isPrefixOf_iff_prefix.1 hstart).trans (litPrefix_of_matches hmatch))
  have hne : path ≠ "/api/v1/health" := by
    rintro rfl
    rw [hopen.resolve_left hhealth] at hmatch
    cases hmatch
  simp [guarded, hpath, openPaths, hne]

/-- The route of /metrics takes one path that is not guarded. -/
theorem guarded_of_metrics (hr : r ∈ routes true) (hmetrics : r.path = "/metrics")
    (hmatch : (r.captures path).isSome) (hpath : path ≠ "/metrics\n") : guarded path = true := by
  have hplain := ((templates r hr).2.1 hmetrics).1
  rcases matches_plain hplain hmatch with h | h
  · rw [h, hmetrics]
    decide
  · exact absurd (h.trans (by rw [hmetrics]; decide)) hpath

/-! ## The viewer's routes -/

/-- A path a viewer may post to. -/
theorem viewerMay_path {method : String} (h : viewerMay method path = true) :
    method = "POST" ∧ (path ∈ viewerTemplates ∨ ascii "/api/v1/arena/matches/" <+: path) := by
  rw [viewerMay, Bool.and_eq_true, decide_eq_true_eq, Regex.isMatch_iff] at h
  refine ⟨h.1, ?_⟩
  obtain ⟨w, hw, rfl⟩ := Regex.mem_cat_lit.1 h.2
  rcases Regex.mem_alt.1 hw with hw | hw
  · left
    rw [Regex.mem_lit.1 hw]
    decide
  rcases Regex.mem_alt.1 hw with hw | hw
  · left
    rw [Regex.mem_lit.1 hw]
    decide
  rcases Regex.mem_alt.1 hw with hw | hw
  · left
    rw [Regex.mem_lit.1 hw]
    decide
  rcases Regex.mem_alt.1 hw with hw | hw
  · left
    rw [Regex.mem_lit.1 hw]
    decide
  · right
    obtain ⟨v, -, rfl⟩ := Regex.mem_cat_lit.1 hw
    rw [← List.append_assoc]
    exact List.prefix_append _ _

theorem viewer_template (hr : r ∈ routes true) (hmethod : r.method = "POST")
    (hmatch : (r.captures path).isSome) (hmay : viewerMay "POST" path = true) :
    r.path ∈ viewerTemplates := by
  by_contra hne
  obtain ⟨hfixed, hlong, hshort⟩ := (templates r hr).2.2.1 hmethod hne
  rcases (viewerMay_path hmay).2 with hpath | hpath
  · rw [hfixed path hpath] at hmatch
    cases hmatch
  · -- the literal text of the template and that of the viewer's path both start the path
    rcases List.prefix_or_prefix_of_prefix hpath (litPrefix_of_matches hmatch) with h | h
    · rw [List.isPrefixOf_iff_prefix.2 h] at hlong
      cases hlong
    · rw [List.isPrefixOf_iff_prefix.2 h] at hshort
      cases hshort

theorem mutating_not_safe : ∀ method ∈ mutating, method ∉ safeMethods := by
  decide

theorem checkAccess_admin {method : String} (h : checkAccess .admin method path p = none) :
    p.role = "admin" := by
  have hadmin := (Option.or_eq_none_iff.1 h).2
  by_contra hne
  rw [requireAdminFor, if_neg hne] at hadmin
  cases hadmin

theorem enforceRolesFor_viewer {method : String} (h : enforceRolesFor method path p = none)
    (hmethod : method ∉ safeMethods) (hrole : p.role ≠ "admin") :
    viewerMay method path = true := by
  rw [enforceRolesFor, if_neg (by simpa using hmethod)] at h
  by_contra hmay
  rw [if_neg (by simp [hrole, hmay])] at h
  cases h

/-! ## Who runs a handler -/

/-- A handler that runs is rightful, but for the one path of /metrics that is not guarded. -/
theorem rightful_of_ran (h : handleRequest hub req = .ran r params p)
    (hmetrics : r.path = "/metrics" → req.path ≠ "/metrics\n") : Rightful hub req r p := by
  obtain ⟨hprincipal, hmem, hmethod, hmatch, haccess⟩ := handleRequest_ran h
  obtain ⟨hpre, hguarded, -⟩ := admitted_ok hprincipal
  have hr := routes_subset hmem
  refine ⟨precheck_host hpre, fun hunsafe origin horigin => ?_, fun hunsafe => ?_, fun hneeds => ?_,
    fun hrole hadmin => ?_, fun hrole hmutating => ?_⟩
  · have hcross := (precheck_mutating hpre hunsafe).1
    rw [crossOrigin, horigin] at hcross
    simp only [ne_eq, Bool.or_eq_false_iff, decide_eq_false_iff_not, not_not] at hcross
    exact hcross.2
  · have hcsrf := (precheck_mutating hpre hunsafe).2
    rwa [csrfShown, Bool.or_eq_true, decide_eq_true_eq] at hcsrf
  · refine principal_some (hguarded ?_)
    rw [needsPrincipal, Bool.or_eq_true, Bool.and_eq_true, decide_eq_true_eq,
      decide_eq_true_eq] at hneeds
    rcases hneeds with hpath | ⟨hapi, hhealth⟩
    · exact guarded_of_metrics hr hpath hmatch (hmetrics hpath)
    · exact guarded_of_api hr hapi hhealth hmatch
  · rw [hadmin] at haccess
    exact hrole (checkAccess_admin haccess)
  · have hunsafe := mutating_not_safe _ (hmethod ▸ hmutating)
    cases hkind : r.access with
    | «open» => exact absurd hmutating ((templates r hr).2.2.2 hkind)
    | admin =>
      rw [hkind] at haccess
      exact absurd (checkAccess_admin haccess) hrole
    | caller =>
      rw [hkind] at haccess
      have hmay := enforceRolesFor_viewer haccess hunsafe hrole
      have hpost := (viewerMay_path hmay).1
      exact viewer_template hr (hmethod.trans hpost) hmatch (hpost ▸ hmay)

/-- The unguarded path of /metrics reaches its handler with the public principal. -/
theorem ran_metrics (hmethod : req.method = "GET") (hpath : req.path = "/metrics\n")
    (hhost : hub.hostOf req.headers ∈ hub.allowedHosts) :
    handleRequest hub req = .ran ⟨"GET", "/metrics", .open⟩ [] Principal.public := by
  have hfind : ∀ frontend, find (routes frontend) "GET" "/metrics\n" =
      .full ⟨"GET", "/metrics", .open⟩ [] := by
    decide +kernel
  have hprincipal : admitted hub req = .ok Principal.public := by
    have hunguarded : guarded "/metrics\n" = false := by decide
    rw [admitted, hmethod, precheck_get hhost, hpath]
    simp only [hunguarded, Bool.false_eq_true, if_false]
  rw [handleRequest, hprincipal]
  simp only [hmethod, hpath, hfind, checkAccess]

/-- Every handler that runs for a request has the right to, if and only if the request is
not a GET of /metrics with a newline that names an allowed host. -/
theorem rightful_iff (hub : Hub) (req : Request) :
    (∀ r params p, handleRequest hub req = .ran r params p → Rightful hub req r p) ↔
      ¬(req.method = "GET" ∧ req.path = "/metrics\n" ∧
        hub.hostOf req.headers ∈ hub.allowedHosts) := by
  refine ⟨fun h hmetrics => ?_, fun h r params p hran => ?_⟩
  · have hrightful := h _ _ _ (ran_metrics hmetrics.1 hmetrics.2.1 hmetrics.2.2)
    exact (hrightful.principal (by decide)).2 rfl
  · refine rightful_of_ran hran fun hpath hnewline => h ?_
    obtain ⟨hprincipal, hmem, hmethod, -⟩ := handleRequest_ran hran
    have hget := ((templates r (routes_subset hmem)).2.1 hpath).2
    exact ⟨hmethod.symm.trans hget, hnewline, precheck_host (admitted_ok hprincipal).1⟩

/-- A hub with no keys that trusts no one. -/
def lonelyHub : Hub where
  cfg :=
    { host := "127.0.0.1", port := 8791, allowedHosts := [], bodyCapBytes := 2 ^ 20
      chatBodyCapBytes := 2 ^ 25, importBodyCapBytes := 2 ^ 18, trustLoopback := false }
  frontend := true
  keys := some []
  touchFails _ := false
  keyHash _ := ""
  lower := List.map Char.toLower

/-- `GET /metrics%0A` -/
def getMetrics : Request where
  method := "GET"
  rawPath := "/metrics%0A".toUTF8.data.toList
  rawHeaders := [("host", "127.0.0.1:8791".toUTF8.data.toList)]
  clientHost := "10.0.0.7"

/-- Without a key, `GET /metrics%0A` runs the handler of /metrics. -/
theorem metrics_without_key :
    ∃ r params p, handleRequest lonelyHub getMetrics = .ran r params p ∧
      ¬Rightful lonelyHub getMetrics r p := by
  refine ⟨_, _, _, ran_metrics rfl (by decide +kernel) (by decide +kernel), fun h => ?_⟩
  exact (h.principal (by decide)).2 rfl

end EngineConsole.Web
