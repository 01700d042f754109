import EngineConsole.Instances

/-!
# The ports of active instances

A create or a start looks for a port that no other active instance uses, and holds the
host's lock until the row says so. So does the gateway when its port is taken. But an
instance that is not active keeps its port, and some writes make it active again without a
look at the others : a stop of a failed instance, a stop that puts the state back, the
supervisor with a row it read before, and adoption (`stop_takes_port`).

As long as such a write finds the port of its row free, no two active instances have one
port (`ports_unique`). What an operation in flight may still write to a row it holds
(`Op.ports`), and nothing else that is active uses it (`Ported.held`).
-/

set_option linter.unusedSectionVars false

namespace EngineConsole

namespace Lifecycle

open Web

/-! ## Ports in use -/

/-- The ports of the active instances. -/
def activePorts (rows : List Row) : List Int :=
  rows.filterMap fun r => if r.state.active then r.port.filter (· ≠ 0) else none

/-- An active instance has the port. -/
def Row.Uses (r : Row) (p : Int) : Prop :=
  r.state.active = true ∧ r.port = some p

/-- The ports a launch may still write. -/
def LaunchAt.ports : LaunchAt → List Int
  | .gateway order => order
  | .finish q => [q]
  | _ => []

/-- The ports an operation holds. -/
def Op.ports : Op → List Int
  | .asked _ p => [p]
  | .launch _ p pc => p :: pc.ports
  | _ => []

/-- The instance it holds them for. -/
def Op.target : Op → Option Text
  | .asked iid _ => iid
  | .launch iid _ _ => some iid
  | _ => none

/-- It has the host's lock. -/
def Op.locked : Op → Bool
  | .entered _ | .asked _ _ | .launch _ _ _ => true
  | _ => false

/-- No other active instance has the port, and no operation holds it for another one. -/
def Free (s : System) (id : Text) (p : Int) : Prop :=
  (∀ r ∈ s.rows, r.id ≠ id → ¬r.Uses p) ∧ ∀ k, p ∈ (s.ops k).ports → (s.ops k).target = some id

/-- Where the row of an instance is not active, its port is free. -/
def WakesFree (s : System) (id : Text) : Prop :=
  ∀ r, s.row? id = some r → r.state.active = false → ∀ p, r.port = some p → p ≠ 0 → Free s id p

/-- A row that becomes active without a look for a port has a free one. -/
def Clear (env : Env) (host : Text) (s : System) : Act → Prop
  | .op _ (.stop iid) | .op _ (.restart iid) =>
    (∃ r, s.row? iid = some r ∧ r.state = .failed) → WakesFree s iid
  | .op k .ttl =>
    match s.ops k with
    | .supervise seen .idleTtl =>
      (∃ r, s.row? seen.id = some r ∧ r.state = .failed) → WakesFree s seen.id
    | _ => True
  | .op k .write =>
    match s.ops k with
    | .stop iid _ (.restore state) _ => state.active = true → WakesFree s iid
    | .supervise seen (.write state) => state.active = true → WakesFree s seen.id
    | _ => True
  | .adopt containers i => ∀ c, containers[i]? = some c →
      match s.rows.find? fun r => r.container = c.name ∧ r.hostId = host with
      | some r => c.state = "running" → WakesFree s r.id
      | none => ∀ r, newRow env host containers c = some r → r.state.active = true →
          ∀ p, r.port = some p → p ≠ 0 → Free s r.id p
  | _ => True

/-! ## The table -/

section

variable {env : Env} {host : Text} {s t : System} {rows : List Row} {id : Text}

theorem mem_updateRow {f : Row → Row} {r : Row} (h : r ∈ updateRow id f rows) :
    ∃ r₀ ∈ rows, r₀.id = id ∧ r = f r₀ ∨ r₀.id ≠ id ∧ r = r₀ := by
  obtain ⟨r₀, hr₀, rfl⟩ := List.mem_map.1 h
  by_cases hid : r₀.id = id
  · exact ⟨r₀, hr₀, .inl ⟨hid, if_pos hid⟩⟩
  · exact ⟨r₀, hr₀, .inr ⟨hid, if_neg hid⟩⟩

theorem ids_updateRow {f : Row → Row} (hf : ∀ r, (f r).id = r.id) :
    (updateRow id f rows).map Row.id = rows.map Row.id := by
  rw [updateRow, List.map_map]
  refine List.map_congr_left fun r _ => ?_
  simp only [Function.comp]
  split_ifs
  · exact hf r
  · rfl

theorem row?_spec {r : Row} (h : s.row? id = some r) : r ∈ s.rows ∧ r.id = id :=
  ⟨List.mem_of_find?_eq_some h, by simpa using List.find?_some h⟩

theorem row?_none (h : s.row? id = none) : ∀ r ∈ s.rows, r.id ≠ id := by
  intro r hr
  simpa using List.find?_eq_none.1 h r hr

/-- Ids are unique, so the row of an instance is the one with its id. -/
theorem row?_of_mem (hids : (s.rows.map Row.id).Nodup) {r : Row} (hr : r ∈ s.rows) :
    s.row? r.id = some r := by
  cases h : s.row? r.id with
  | none => exact absurd rfl (row?_none h r hr)
  | some r' =>
    obtain ⟨hr', hid⟩ := row?_spec h
    rw [List.inj_on_of_nodup_map hids hr' hr hid]

theorem mem_candidatePorts {inv : Inventory} {exclude : Option Text} {p : Int}
    (h : p ∈ candidatePorts env rows inv exclude) (hp : p ≠ 0) :
    ∀ r ∈ rows, exclude ≠ some r.id → r.id ≠ [] → ¬r.Uses p := by
  intro r hr hne hid ⟨hactive, hport⟩
  have hused := (List.mem_filter.1 h).2
  rw [decide_eq_true_eq] at hused
  refine hused (List.mem_append_left _ (List.mem_append_left _ (List.mem_filterMap.2 ⟨r, hr, ?_⟩)))
  have hex : r.id ≠ exclude.getD [] := by
    cases exclude with
    | none => exact hid
    | some x => exact fun h => hne (congrArg some h.symm)
  rw [if_pos ⟨hactive, hex⟩, hport]
  simp [hp]

theorem allocPort_spec {inv : Inventory} {exclude : Option Text} {p : Int}
    (h : allocPort env rows inv exclude = some p) (hp : p ≠ 0) :
    ∀ r ∈ rows, exclude ≠ some r.id → r.id ≠ [] → ¬r.Uses p :=
  mem_candidatePorts (List.mem_of_mem_head? h) hp

theorem mem_gatewayOrder {inv : Inventory} {iid : Text} {p q : Int}
    (h : q ∈ gatewayOrder env rows inv iid p) :
    q = p ∨ q ∈ candidatePorts env rows inv (some iid) := by
  rcases List.mem_cons.1 (List.mem_of_mem_take h) with rfl | h
  · exact .inl rfl
  · exact .inr (List.mem_of_mem_filter h)

/-- What adoption does about a container. -/
theorem adoptContainer_cases (containers : List Container) (c : Container) :
    adoptContainer env host containers rows c = rows ∨
      (∃ r, rows.find? (fun r => r.container = c.name ∧ r.hostId = host) = some r ∧
        c.state = "running" ∧ adoptContainer env host containers rows c =
          updateRow r.id (fun r => { r with state := .loading }) rows) ∨
      (∃ r, rows.find? (fun r => r.container = c.name ∧ r.hostId = host) = some r ∧
        c.state ≠ "running" ∧ (r.state.active = true ∧ (c.exitCode = none ∨ c.exitCode = some 0)) ∧
        adoptContainer env host containers rows c =
          updateRow r.id (fun r => { r with state := .stopped }) rows) ∨
      ∃ r, rows.find? (fun r => r.container = c.name ∧ r.hostId = host) = none ∧
        newRow env host containers c = some r ∧ (∀ r' ∈ rows, r'.id ≠ r.id) ∧
        adoptContainer env host containers rows c = rows ++ [r] := by
  unfold adoptContainer
  by_cases hmanaged : (!c.managed) = true
  · exact .inl (if_pos hmanaged)
  rw [if_neg hmanaged]
  by_cases hrole : get c.labels "engine-console.role" = some (ascii "gateway") ∨
      c.role = some (ascii "gateway")
  · exact .inl (if_pos hrole)
  rw [if_neg hrole]
  cases hfind : rows.find? fun r => r.container = c.name ∧ r.hostId = host with
  | some r =>
    dsimp only
    split_ifs with hrun hstop
    · exact .inr (.inl ⟨r, rfl, hrun, rfl⟩)
    · exact .inr (.inr (.inl ⟨r, rfl, hrun, hstop, rfl⟩))
    · exact .inl rfl
  | none =>
    dsimp only
    cases hnew : newRow env host containers c with
    | none => exact .inl rfl
    | some r =>
      dsimp only
      split_ifs with htaken
      · exact .inl rfl
      · refine .inr (.inr (.inr ⟨r, rfl, rfl, fun r' hr' => ?_, rfl⟩))
        simp only [List.any_eq_true, decide_eq_true_eq, not_exists, not_and] at htaken
        exact htaken r' hr'

theorem newRow_id {containers : List Container} {c : Container} {r : Row}
    (h : newRow env host containers c = some r) : ascii "inst_" <+: r.id := by
  simp only [newRow, Option.bind_eq_bind, Option.bind_eq_some_iff] at h
  obtain ⟨iid, -, engine, -, model, -, engine', -, rf, hrf, port, -, hr⟩ := h
  obtain rfl := Option.some.inj hr
  have hok := (Option.filter_eq_some_iff.1 hrf).2
  simp only [Bool.and_eq_true] at hok
  exact List.isPrefixOf_iff_prefix.1 hok.1.1.1

theorem ne_nil_of_inst {id : Text} (h : ascii "inst_" <+: id) : id ≠ [] := by
  rintro rfl
  exact absurd (List.prefix_nil.1 h) (by decide)

end

/-! ## The invariant -/

/-- Rows have ids of their own, active ones ports of their own, and what an operation holds no
other instance uses. -/
structure Ported (s : System) : Prop where
  ids : (s.rows.map Row.id).Nodup
  named : ∀ r ∈ s.rows, r.id ≠ []
  unique : ∀ r ∈ s.rows, ∀ r' ∈ s.rows, r.id ≠ r'.id → ∀ p, p ≠ 0 → r.Uses p → ¬r'.Uses p
  locked : ∀ k, (s.ops k).locked = true → s.holder = some k
  held : ∀ k p, p ∈ (s.ops k).ports → p ≠ 0 → ∀ r ∈ s.rows, (s.ops k).target ≠ some r.id →
    ¬r.Uses p

section

variable {env : Env} {host : Text} {s t : System} {id : Text}

/-- An operation that holds ports has the lock. -/
theorem locked_of_mem_ports {op : Op} {p : Int} (h : p ∈ op.ports) : op.locked = true := by
  cases op <;> first | rfl | cases h

/-- A step that changes no row. -/
theorem Ported.of_ops (h : Ported s) (hrows : t.rows = s.rows)
    (hlocked : ∀ k, (t.ops k).locked = true → t.holder = some k)
    (hports : ∀ k p, p ∈ (t.ops k).ports → p ≠ 0 →
      (p ∈ (s.ops k).ports ∧ (t.ops k).target = (s.ops k).target) ∨
        ∀ r ∈ s.rows, (t.ops k).target ≠ some r.id → ¬r.Uses p) : Ported t := by
  refine ⟨hrows ▸ h.ids, hrows ▸ h.named, hrows ▸ h.unique, hlocked, fun k p hp h0 r hr ht => ?_⟩
  rw [hrows] at hr
  rcases hports k p hp h0 with ⟨hp, htarget⟩ | hfree
  · exact h.held k p hp h0 r hr (htarget ▸ ht)
  · exact hfree r hr ht

/-- A step that changes the row of one instance, which used the port before or finds it
free. -/
theorem Ported.of_row (h : Ported s) (id : Text) (hids : (t.rows.map Row.id).Nodup)
    (hnamed : ∀ r ∈ t.rows, r.id ≠ []) (hother : ∀ r ∈ t.rows, r.id ≠ id → r ∈ s.rows)
    (hself : ∀ r ∈ t.rows, r.id = id → ∀ p, p ≠ 0 → r.Uses p →
      (∃ r₀ ∈ s.rows, r₀.id = id ∧ r₀.Uses p) ∨ (∀ r ∈ s.rows, r.id ≠ id → ¬r.Uses p) ∧
        ∀ k, p ∈ (t.ops k).ports → (t.ops k).target = some id)
    (hlocked : ∀ k, (t.ops k).locked = true → t.holder = some k)
    (hports : ∀ k p, p ∈ (t.ops k).ports → p ∈ (s.ops k).ports ∧
      ((t.ops k).target = (s.ops k).target ∨
        (s.ops k).target = none ∧ (t.ops k).target = some id)) : Ported t := by
  have hself' {r : Row} (hr : r ∈ t.rows) (hid : r.id = id) {p : Int} (h0 : p ≠ 0)
      (hp : r.Uses p) {r' : Row} (hr' : r' ∈ s.rows) (hid' : r'.id ≠ id) : ¬r'.Uses p := by
    rcases hself r hr hid p h0 hp with ⟨r₀, hr₀, hid₀, hp₀⟩ | hfree
    · exact h.unique r₀ hr₀ r' hr' (hid₀ ▸ hid'.symm) p h0 hp₀
    · exact hfree.1 r' hr' hid'
  refine ⟨hids, hnamed, fun r hr r' hr' hne p h0 hp hp' => ?_, hlocked,
    fun k p hp h0 r hr ht huse => ?_⟩
  · by_cases hid : r.id = id
    · have hid' : r'.id ≠ id := fun h => hne (hid.trans h.symm)
      exact hself' hr hid h0 hp (hother r' hr' hid') hid' hp'
    · by_cases hid' : r'.id = id
      · exact hself' hr' hid' h0 hp' (hother r hr hid) hid hp
      · exact h.unique r (hother r hr hid) r' (hother r' hr' hid') hne p h0 hp hp'
  · have hpt := hp
    obtain ⟨hp, htarget⟩ := hports k p hp
    by_cases hid : r.id = id
    · have htarget : (t.ops k).target = (s.ops k).target :=
        htarget.resolve_right fun hc => ht (hc.2.trans (congrArg some hid.symm))
      rcases hself r hr hid p h0 huse with ⟨r₀, hr₀, hid₀, hp₀⟩ | hfree
      · refine h.held k p hp h0 r₀ hr₀ ?_ hp₀
        rwa [← htarget, hid₀, ← hid]
      · exact ht ((hfree.2 k hpt).trans (congrArg some hid.symm))
    · refine h.held k p hp h0 r (hother r hr hid) ?_ huse
      rcases htarget with htarget | ⟨hnone, -⟩
      · exact htarget ▸ ht
      · rw [hnone]
        exact nofun

/-- A step that changes the row of one instance, and its operation. -/
theorem Ported.of_update (h : Ported s) {f : Row → Row} (hf : ∀ r, (f r).id = r.id)
    (hrows : t.rows = updateRow id f s.rows)
    (huse : ∀ r ∈ s.rows, r.id = id → ∀ p, p ≠ 0 → (f r).Uses p → r.Uses p ∨ Free s id p)
    (hlocked : ∀ k, (t.ops k).locked = true → t.holder = some k)
    (hports : ∀ k p, p ∈ (t.ops k).ports → p ∈ (s.ops k).ports ∧
      (t.ops k).target = (s.ops k).target) : Ported t := by
  refine h.of_row id ?_ (fun r hr => ?_) (fun r hr hne => ?_) (fun r hr hid p h0 hp => ?_)
    hlocked fun k p hp => ⟨(hports k p hp).1, .inl (hports k p hp).2⟩
  · rw [hrows, ids_updateRow hf]
    exact h.ids
  all_goals
    rw [hrows] at hr
    obtain ⟨r₀, hr₀, ⟨hid₀, rfl⟩ | ⟨hid₀, rfl⟩⟩ := mem_updateRow hr
  · rw [hf]
    exact h.named r₀ hr₀
  · exact h.named r hr₀
  · exact absurd ((hf r₀).trans hid₀) hne
  · exact hr₀
  · refine (huse r₀ hr₀ hid₀ p h0 hp).imp (fun hp => ⟨r₀, hr₀, hid₀, hp⟩) fun hfree => ?_
    exact ⟨hfree.1, fun k hk => (hports k p hk).2.trans (hfree.2 k (hports k p hk).1)⟩
  · exact absurd hid hid₀

/-- A step that makes a row, whose port is free. -/
theorem Ported.of_append (h : Ported s) {row : Row} (hrows : t.rows = s.rows ++ [row])
    (hnew : ∀ r ∈ s.rows, r.id ≠ row.id) (hid : row.id ≠ [])
    (hfree : ∀ p, p ≠ 0 → row.Uses p → (∀ r ∈ s.rows, r.id ≠ row.id → ¬r.Uses p) ∧
      ∀ k, p ∈ (t.ops k).ports → (t.ops k).target = some row.id)
    (hlocked : ∀ k, (t.ops k).locked = true → t.holder = some k)
    (hports : ∀ k p, p ∈ (t.ops k).ports → p ∈ (s.ops k).ports ∧
      ((t.ops k).target = (s.ops k).target ∨
        (s.ops k).target = none ∧ (t.ops k).target = some row.id)) : Ported t := by
  have hmem {r : Row} (hr : r ∈ t.rows) : r ∈ s.rows ∨ r = row := by
    rw [hrows] at hr
    exact (List.mem_append.1 hr).imp_right List.mem_singleton.1
  refine h.of_row _ ?_ (fun r hr => ?_) (fun r hr hne => ?_)
    (fun r hr hrid p h0 hp => .inr ?_) hlocked hports
  · rw [hrows, List.map_append, List.nodup_append]
    refine ⟨h.ids, List.nodup_singleton _, fun x hx y hy => ?_⟩
    obtain ⟨r, hr, rfl⟩ := List.mem_map.1 hx
    rw [List.mem_singleton.1 hy]
    exact hnew r hr
  · rcases hmem hr with hr | rfl
    · exact h.named r hr
    · exact hid
  · exact (hmem hr).resolve_right fun hc => hne (congrArg Row.id hc)
  · obtain rfl := (hmem hr).resolve_left fun hr => hnew r hr hrid
    exact hfree p h0 hp

/-- A state that is written to a row that is active already, or whose port is free. -/
theorem Ported.uses_state (h : Ported s) {state : State}
    (hwakes : state.active = true → WakesFree s id) :
    ∀ r ∈ s.rows, r.id = id → ∀ p, p ≠ 0 → ({ r with state := state } : Row).Uses p →
      r.Uses p ∨ Free s id p := by
  rintro r hr rfl p h0 ⟨hactive, hport⟩
  cases hr' : r.state.active with
  | true => exact .inl ⟨hr', hport⟩
  | false => exact .inr (hwakes hactive r (row?_of_mem h.ids hr) hr' p hport h0)

/-! ## The lock and the ports held -/

theorem setOp_ops (s : System) (k k' : ℕ) (op : Op) :
    (s.setOp k op).ops k' = if k' = k then op else s.ops k' :=
  Function.update_apply ..

theorem call_spec {iid : Text} {c : Call} {a : Answer} (h : s.call iid c a = some t) :
    t.rows = s.rows ∧ t.ops = s.ops ∧ t.holder = s.holder := by
  obtain ⟨p, -, rfl⟩ := Option.map_eq_some_iff.1 h
  exact ⟨rfl, rfl, rfl⟩

/-- An operation moves on, and has the lock only if it had it. -/
theorem Ported.locked_setOp (h : Ported s) {s' : System} {k : ℕ} {op : Op}
    (hops : s'.ops = s.ops) (hholder : s'.holder = s.holder)
    (hop : op.locked = true → (s.ops k).locked = true) (k' : ℕ)
    (hl : ((s'.setOp k op).ops k').locked = true) : (s'.setOp k op).holder = some k' := by
  rw [setOp_ops, hops] at hl
  refine hholder.trans (h.locked k' ?_)
  split_ifs at hl with hk
  · exact hk ▸ hop hl
  · exact hl

/-- An operation ends, and gives back the lock if it had it. -/
theorem Ported.locked_leave (h : Ported s) {s' : System} {k : ℕ} (hops : s'.ops = s.ops)
    (hholder : s'.holder = s.holder) (k' : ℕ) (hl : ((s'.leave k).ops k').locked = true) :
    (s'.leave k).holder = some k' := by
  have hl : ((s'.setOp k .idle).ops k').locked = true := hl
  rw [setOp_ops, hops] at hl
  split_ifs at hl with hk
  · cases hl
  · have hs := h.locked k' hl
    have hne : s.holder ≠ some k := fun hc => hk (Option.some.inj (hs.symm.trans hc))
    exact (if_neg (hholder ▸ hne)).trans (hholder.trans hs)

/-- An operation takes the free lock. -/
theorem Ported.locked_lock (h : Ported s) {k : ℕ} {op : Op} (hfree : s.holder = none) (k' : ℕ)
    (hl : (((s.setOp k op).lock k).ops k').locked = true) :
    ((s.setOp k op).lock k).holder = some k' := by
  have hl : ((s.setOp k op).ops k').locked = true := hl
  rw [setOp_ops] at hl
  split_ifs at hl with hk
  · exact congrArg some hk.symm
  · rw [h.locked k' hl] at hfree
    cases hfree

/-- An operation moves on, and holds no more ports. -/
theorem ports_setOp {s' : System} {k : ℕ} (op : Op) (hops : s'.ops = s.ops)
    (hop : ∀ p ∈ op.ports, p ∈ (s.ops k).ports ∧ op.target = (s.ops k).target) (k' : ℕ) (p : Int)
    (hp : p ∈ ((s'.setOp k op).ops k').ports) :
    p ∈ (s.ops k').ports ∧ ((s'.setOp k op).ops k').target = (s.ops k').target := by
  rw [setOp_ops, hops] at hp ⊢
  split_ifs at hp ⊢ with hk
  · exact hk ▸ hop p hp
  · exact ⟨hp, rfl⟩

theorem ports_next {a : Answer} {pc : LaunchAt} {p : Int} (h : p ∈ (pc.next a).ports) :
    p ∈ pc.ports := by
  cases pc with
  | gateway order =>
    cases order with
    | nil => exact h
    | cons q order =>
      cases a with
      | ok => exact List.mem_cons.2 (.inl (List.mem_singleton.1 h))
      | inUse =>
        simp only [LaunchAt.next] at h
        split_ifs at h
        · cases h
        · exact List.mem_cons_of_mem q h
      | missing | failed => cases h
  | finish q => exact h
  | _ =>
    simp only [LaunchAt.next] at h
    first
    | cases h
    | split_ifs at h <;> cases h

/-- The supervisor has no lock and holds no ports. -/
theorem lookAt_spec (seen : Row) (view : View) :
    (seen.lookAt view).locked = false ∧ (seen.lookAt view).ports = [] := by
  unfold Row.lookAt
  split_ifs <;> exact ⟨rfl, rfl⟩

theorem progressTo_spec (seen : Row) (phase healthy timedOut changed : Bool) :
    (seen.progressTo phase healthy timedOut changed).locked = false ∧
      (seen.progressTo phase healthy timedOut changed).ports = [] := by
  unfold Row.progressTo
  dsimp only
  split_ifs <;> exact ⟨rfl, rfl⟩

/-- An operation moves on without a row, and takes neither the lock nor a port. -/
theorem Ported.quiet (h : Ported s) {s' : System} {k : ℕ} {op : Op} (hrows : s'.rows = s.rows)
    (hops : s'.ops = s.ops) (hholder : s'.holder = s.holder) (hlocked : op.locked = false)
    (hports : op.ports = []) : Ported (s'.setOp k op) := by
  refine h.of_ops hrows (h.locked_setOp hops hholder fun hl => ?_) fun k' p hp _ => .inl ?_
  · rw [hlocked] at hl
    cases hl
  · refine ports_setOp _ hops (fun p hp => ?_) k' p hp
    rw [hports] at hp
    cases hp

/-- An operation ends with a write of a row. -/
theorem Ported.write (h : Ported s) {f : Row → Row} (hf : ∀ r, (f r).id = r.id) {k : ℕ} {op : Op}
    (hlocked : op.locked = false) (hports : op.ports = [])
    (huse : ∀ r ∈ s.rows, r.id = id → ∀ p, p ≠ 0 → (f r).Uses p → r.Uses p ∨ Free s id p) :
    Ported ({ s with rows := updateRow id f s.rows }.setOp k op) := by
  refine h.of_update hf rfl huse (h.locked_setOp rfl rfl fun hl => ?_)
    (ports_setOp _ rfl fun p hp => ?_)
  · rw [hlocked] at hl
    cases hl
  · rw [hports] at hp
    cases hp

/-- An operation writes a state, and one that is active where the port is free. -/
theorem Ported.writeState (h : Ported s) {state : State} {k : ℕ} {op : Op}
    (hlocked : op.locked = false) (hports : op.ports = [])
    (hwakes : state.active = true → WakesFree s id) :
    Ported ((s.setState id state).setOp k op) :=
  h.write (f := fun r => { r with state := state }) (fun _ => rfl) hlocked hports
    (h.uses_state hwakes)

/-- What an operation with the lock holds is free for its instance. -/
theorem Ported.free_held (h : Ported s) {k : ℕ} {p : Int} (hp : p ∈ (s.ops k).ports) (h0 : p ≠ 0)
    (htarget : (s.ops k).target = some id) : Free s id p := by
  refine ⟨fun r hr hne => h.held k p hp h0 r hr ?_, fun k' hk' => ?_⟩
  · rw [htarget]
    exact fun hc => hne (Option.some.inj hc).symm
  · have hl := h.locked k (locked_of_mem_ports hp)
    have hl' := h.locked k' (locked_of_mem_ports hk')
    obtain rfl : k' = k := Option.some.inj (hl'.symm.trans hl)
    exact htarget

/-- A launch writes a port it holds. -/
theorem Ported.uses_starting (h : Ported s) {k : ℕ} {q : Int} (hq : q ∈ (s.ops k).ports)
    (htarget : (s.ops k).target = some id) : ∀ r ∈ s.rows, r.id = id → ∀ p, p ≠ 0 →
      ({ r with state := .starting, port := some q } : Row).Uses p → r.Uses p ∨ Free s id p := by
  rintro r - - p h0 ⟨-, hport⟩
  obtain rfl : q = p := Option.some.inj hport
  exact .inr (h.free_held hq h0 htarget)

theorem Ported.op (h : Ported s) {k : ℕ} {a : OpAct} (hm : Moves env host s (.op k a) t)
    (hclear : Clear env host s (.op k a)) : Ported t := by
  cases hm with
  | drop hop =>
    refine h.of_ops rfl (h.locked_leave rfl rfl) fun k' p hp _ => .inl ?_
    exact ports_setOp .idle rfl (fun p hp => nomatch hp) k' p hp
  | create hop hfree =>
    refine h.of_ops rfl (h.locked_lock hfree) fun k' p hp _ => .inl ?_
    exact ports_setOp (.entered none) rfl (fun p hp => nomatch hp) k' p hp
  | start hop hr | again hop hr | remove hop hr | snapshot hop hr hactive =>
    exact h.quiet rfl rfl rfl rfl rfl
  | @enter _ iid _ _ hop hr hfree =>
    refine h.of_ops rfl (h.locked_lock hfree) fun k' p hp _ => .inl ?_
    exact ports_setOp (.entered (some iid)) rfl (fun p hp => nomatch hp) k' p hp
  | @alloc k iid inv p hop hp =>
    have hl : (s.ops k).locked = true := by rw [hop]; rfl
    refine h.of_ops rfl (h.locked_setOp rfl rfl fun _ => hl) fun k' q hq h0 => ?_
    rw [setOp_ops] at hq ⊢
    split_ifs at hq ⊢ with hk
    · obtain rfl := List.mem_singleton.1 hq
      exact .inr fun r hr ht => allocPort_spec hp h0 r hr ht (h.named r hr)
    · exact .inl ⟨hq, rfl⟩
  | @insert k p row hop hnew hid hport hstate hhost =>
    have hl : (s.ops k).locked = true := by rw [hop]; rfl
    have hp : p ∈ (s.ops k).ports := by rw [hop]; exact List.mem_singleton_self p
    have hnew := row?_none hnew
    refine h.of_append rfl hnew (ne_nil_of_inst hid) (fun q h0 hq => ?_)
      (h.locked_setOp rfl rfl fun _ => hl) fun k' q hq => ?_
    · obtain rfl : p = q := Option.some.inj (hport.symm.trans hq.2)
      refine ⟨fun r' hr' _ => h.held k p hp h0 r' hr' (by rw [hop]; exact nofun), fun k' hk' => ?_⟩
      rw [setOp_ops] at hk' ⊢
      split_ifs at hk' ⊢ with hk
      · rfl
      · have hheld := (h.locked k hl).symm.trans (h.locked k' (locked_of_mem_ports hk'))
        exact absurd (Option.some.inj hheld).symm hk
    · rw [setOp_ops] at hq ⊢
      split_ifs at hq ⊢ with hk
      · obtain rfl : q = p := by simpa [Op.ports, LaunchAt.ports] using hq
        rw [hk]
        exact ⟨hp, .inr ⟨by rw [hop]; rfl, rfl⟩⟩
      · exact ⟨hq, .inl rfl⟩
  | @place k iid p hop =>
    have hl : (s.ops k).locked = true := by rw [hop]; rfl
    have hp : p ∈ (s.ops k).ports := by rw [hop]; exact List.mem_singleton_self p
    have ht : (s.ops k).target = some iid := by rw [hop]; rfl
    refine h.of_update (f := fun r => { r with state := .starting, port := some p })
      (fun _ => rfl) rfl (h.uses_starting hp ht) (h.locked_setOp rfl rfl fun _ => hl)
      (ports_setOp _ rfl fun q hq => ?_)
    exact ⟨List.mem_singleton.1 hq ▸ hp, ht.symm⟩
  | @launchPorts k iid p inv hop =>
    have hl : (s.ops k).locked = true := by rw [hop]; rfl
    refine h.of_ops rfl (h.locked_setOp rfl rfl fun _ => hl) fun k' q hq h0 => ?_
    rw [setOp_ops] at hq ⊢
    split_ifs at hq ⊢ with hk
    · have hold : q = p → q ∈ (s.ops k').ports ∧ some iid = (s.ops k').target := by
        rintro rfl
        rw [hk, hop]
        exact ⟨List.mem_cons_self, rfl⟩
      rcases List.mem_cons.1 hq with hq | hq
      · exact .inl (hold hq)
      · rcases mem_gatewayOrder hq with hq | hq
        · exact .inl (hold hq)
        · exact .inr fun r hr ht => mem_candidatePorts hq h0 r hr ht (h.named r hr)
    · exact .inl ⟨hq, rfl⟩
  | @launchCall k iid p pc c a s' hop hc hs =>
    obtain ⟨hrows, hops, hholder⟩ := call_spec hs
    have hl : (s.ops k).locked = true := by rw [hop]; rfl
    refine h.of_ops hrows (h.locked_setOp hops hholder fun _ => hl) fun k' q hq _ => .inl ?_
    refine ports_setOp _ hops (fun q hq => ?_) k' q hq
    rw [hop]
    rcases List.mem_cons.1 hq with rfl | hq
    · exact ⟨List.mem_cons_self, rfl⟩
    · exact ⟨List.mem_cons_of_mem p (ports_next hq), rfl⟩
  | @launchFail k iid p hop =>
    refine h.of_update (f := fun r => { r with state := .failed }) (fun _ => rfl) rfl
      (h.uses_state nofun) (h.locked_leave rfl rfl)
      (ports_setOp _ rfl nofun)
  | @launchFinish k iid p q hop =>
    have hq : q ∈ (s.ops k).ports := by
      rw [hop]
      exact List.mem_cons_of_mem p (List.mem_singleton_self q)
    have ht : (s.ops k).target = some iid := by rw [hop]; rfl
    exact h.of_update (f := fun r => { r with state := .starting, port := some q })
      (fun _ => rfl) rfl (h.uses_starting hq ht) (h.locked_leave rfl rfl)
      (ports_setOp _ rfl nofun)
  | @stopped _ _ iid restart r hop hr hstate =>
    cases restart <;> exact h.quiet rfl rfl rfl rfl rfl
  | @stopBegin k _ iid restart r hop hr hstate =>
    refine h.writeState rfl rfl fun _ r' hr' hinactive => ?_
    obtain rfl := Option.some.inj (hr.symm.trans hr')
    have hfailed : r.state = .failed := by
      cases hs : r.state <;> simp_all [State.active]
    cases hk : s.ops k <;> rw [hk] at hop <;> cases hop
    · exact hclear ⟨r, hr, hfailed⟩ r hr hinactive
    · exact hclear ⟨r, hr, hfailed⟩ r hr hinactive
    · simp only [Clear, hk] at hclear
      exact hclear ⟨r, hr, hfailed⟩ r hr hinactive
  | stopCall hop hc hs =>
    obtain ⟨hrows, hops, hholder⟩ := call_spec hs
    exact h.quiet hrows hops hholder rfl rfl
  | @stopRestore _ iid before state restart hop =>
    refine h.writeState rfl rfl ?_
    simpa only [Clear, hop] using hclear
  | @stopFinish _ iid before restart hop =>
    cases restart <;> exact h.writeState rfl rfl nofun
  | @removeCall _ iid pc pc' c a s' hop hc hs =>
    obtain ⟨hrows, hops, hholder⟩ := call_spec hs
    cases a.fine <;> exact h.quiet hrows hops hholder rfl rfl
  | @removeFinish k iid hop =>
    have hsub : ∀ r ∈ s.rows.filter (·.id ≠ iid), r ∈ s.rows := fun r hr => List.mem_of_mem_filter hr
    refine h.of_row iid (h.ids.sublist (List.filter_sublist.map _))
      (fun r hr => h.named r (hsub r hr)) (fun r hr _ => hsub r hr)
      (fun r hr hid => ?_) (h.locked_setOp rfl rfl nofun) fun k' p hp => ?_
    · exact absurd hid (by simpa using (List.mem_filter.1 hr).2)
    · obtain ⟨hp, ht⟩ := ports_setOp .idle rfl nofun k' p hp
      exact ⟨hp, .inl ht⟩
  | @patch k iid name hop =>
    exact h.of_update (f := fun r => { r with name := name.getD r.name }) (fun _ => rfl) rfl
      (fun r _ _ p _ hp => .inl hp) h.locked fun k p hp => ⟨hp, rfl⟩
  | look hop => exact h.quiet rfl rfl rfl (lookAt_spec _ _).1 (lookAt_spec _ _).2
  | exited hop | failed hop => exact h.writeState rfl rfl nofun
  | stopGateway hop hs =>
    obtain ⟨hrows, hops, hholder⟩ := call_spec hs
    exact h.quiet hrows hops hholder rfl rfl
  | progress hop => exact h.quiet rfl rfl rfl (progressTo_spec ..).1 (progressTo_spec ..).2
  | @watched _ seen state hop =>
    refine h.writeState rfl rfl ?_
    simpa only [Clear, hop] using hclear

theorem Ported.adopt (h : Ported s) {containers : List Container} {i : ℕ} {c : Container}
    (hc : containers[i]? = some c) (hclear : Clear env host s (.adopt containers i)) :
    Ported { s with rows := adoptContainer env host containers s.rows c } := by
  have hclear := hclear c hc
  have hsame (k : ℕ) (p : Int) (hp : p ∈ (s.ops k).ports) :
      p ∈ (s.ops k).ports ∧ (s.ops k).target = (s.ops k).target := ⟨hp, rfl⟩
  rcases adoptContainer_cases containers c with
    hrows | ⟨r, hr, hrun, hrows⟩ | ⟨r, hr, -, -, hrows⟩ | ⟨r, hr, hnew, hids, hrows⟩
  · rw [hrows]
    exact h
  · rw [hr] at hclear
    exact h.of_update (f := fun r => { r with state := .loading }) (fun _ => rfl) hrows
      (h.uses_state fun _ => hclear hrun) h.locked hsame
  · exact h.of_update (f := fun r => { r with state := .stopped }) (fun _ => rfl) hrows
      (h.uses_state fun hactive => nomatch hactive) h.locked hsame
  · rw [hr] at hclear
    exact h.of_append hrows hids (ne_nil_of_inst (newRow_id hnew))
      (fun p h0 hp => hclear r hnew hp.1 p hp.2 h0) h.locked fun k p hp => ⟨hp, .inl rfl⟩

/-- Every step keeps the ports apart. -/
theorem Ported.step (h : Ported s) {a : Act} (hclear : Clear env host s a)
    (hs : step env host s a = some t) : Ported t := by
  have hm := step_moves hs
  cases a with
  | op k a => exact h.op hm hclear
  | adopt containers i =>
    cases hm with
    | adopt hc => exact h.adopt hc hclear
  | exit iid gateway =>
    cases hm with
    | exit hc => exact ⟨h.ids, h.named, h.unique, h.locked, h.held⟩

/-! ## Runs -/

/-- No operation is in flight, and the active instances have ports of their own. -/
structure Started (s : System) : Prop where
  ops : ∀ k, s.ops k = .idle
  holder : s.holder = none
  ids : (s.rows.map Row.id).Nodup
  named : ∀ r ∈ s.rows, r.id ≠ []
  ports : (activePorts s.rows).Nodup

theorem mem_activePort {r : Row} {p : Int} :
    (if r.state.active then r.port.filter (· ≠ 0) else none) = some p ↔ r.Uses p ∧ p ≠ 0 := by
  unfold Row.Uses
  split_ifs with hactive
  · rw [Option.filter_eq_some_iff, decide_eq_true_eq]
    exact ⟨fun h => ⟨⟨hactive, h.1⟩, h.2⟩, fun h => ⟨h.1.2, h.2⟩⟩
  · exact ⟨nofun, fun h => absurd h.1.1 hactive⟩

/-- Two rows of the list with a common port. -/
theorem nodup_activePorts {rows : List Row} : (activePorts rows).Nodup ↔
    rows.Pairwise fun r r' => ∀ p, p ≠ 0 → r.Uses p → ¬r'.Uses p := by
  rw [activePorts, List.Nodup, List.pairwise_filterMap]
  refine List.Pairwise.iff fun r r' => ⟨fun h p h0 hp hp' => ?_, fun h p hp p' hp' => ?_⟩
  · exact h p (mem_activePort.2 ⟨hp, h0⟩) p (mem_activePort.2 ⟨hp', h0⟩) rfl
  · obtain ⟨hp, h0⟩ := mem_activePort.1 hp
    rintro rfl
    exact h p h0 hp (mem_activePort.1 hp').1

theorem Started.ported (h : Started s) : Ported s := by
  have hlocked : ∀ k, (s.ops k).locked = true → s.holder = some k := by
    intro k hl
    rw [h.ops k] at hl
    cases hl
  refine ⟨h.ids, h.named, fun r hr r' hr' hne p h0 hp hp' => ?_, hlocked, fun k p hp => ?_⟩
  · have : Std.Symm fun r r' : Row => ∀ p, p ≠ 0 → r.Uses p → ¬r'.Uses p :=
      ⟨fun r r' h p h0 hp hp' => h p h0 hp' hp⟩
    exact (nodup_activePorts.1 h.ports).forall hr hr' (fun hc => hne (congrArg Row.id hc)) p h0 hp
      hp'
  · rw [h.ops k] at hp
    cases hp

theorem Ported.nodup (h : Ported s) : (activePorts s.rows).Nodup := by
  refine nodup_activePorts.2 ((List.pairwise_map.1 h.ids).imp_of_mem ?_)
  exact fun hr hr' hne p h0 hp hp' => h.unique _ hr _ hr' hne p h0 hp hp'

end

/-! ## Two instances -/

/-- A host with the ports 8000 and 8001. -/
def twoPorts : Env where
  word := fun _ => false
  white := fun _ => false
  adapters := []
  imageFor := fun _ => []
  lo := 8000
  hi := 8001
  gpus := []
  gpus_ne := by simp

/-- Nothing is there yet. -/
def emptyHost : System where
  rows := []
  holder := none
  ops := fun _ => .idle
  node := fun _ => ⟨none, none⟩

theorem emptyHost_started : Started emptyHost :=
  ⟨fun _ => rfl, rfl, List.nodup_nil, nofun, List.nodup_nil⟩

/-- The row of a new instance. -/
def newInstance (id : Text) (port : Int) : Row :=
  { id := id, name := id, engine := "vllm", repoId := "org/name", gpuIds := [], gpuUuids := [],
    port := some port, container := id, image := "image", state := .starting, hostId := "host",
    model := none }

/-- Operation `k` creates an instance. -/
def createActs (k : ℕ) (id : Text) (port : Int) : List Act :=
  [.op k .create, .op k (.alloc ⟨[], []⟩), .op k (.insert (newInstance id port)),
    .op k (.call .ok), .op k (.call .missing), .op k (.call .missing), .op k (.call .ok),
    .op k (.alloc ⟨[], []⟩), .op k (.call .ok), .op k .write]

/-- A step of a create. -/
def isCreate (s : System) : Act → Bool
  | .op _ .create | .op _ (.alloc _) | .op _ (.insert _) | .op _ (.call _) => true
  | .op k .write =>
    match s.ops k with
    | .launch _ _ _ => true
    | _ => false
  | _ => false

theorem clear_of_isCreate {env : Env} {host : Text} {s : System} {a : Act}
    (h : isCreate s a = true) : Clear env host s a := by
  unfold isCreate at h
  split at h
  · trivial
  · trivial
  · trivial
  · trivial
  · split at h
    · next hop =>
      simp only [Clear, hop]
    · cases h
  · cases h

/-- The instance of the first create exits, and the supervisor sees it. -/
def exitActs (k : ℕ) (id : Text) : List Act :=
  [.exit id false, .op k (.snapshot id), .op k (.look ⟨false, true, true⟩), .op k .write,
    .op k (.call .ok)]

end Lifecycle

end EngineConsole
