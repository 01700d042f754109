import EngineConsole.Ports

/-!
# The states of an instance

The state machine of an instance as its diagram has it, and what its states say about the
containers. Operations on one instance are not kept apart : a stop may write `stopped` over
a start that was faster, and a removal may delete the row of one; a stop of a failed instance
and one that the node refuses take ways that the diagram does not have
(`states_not_kept`).

In runs where a start does not meet a stop or a removal, no write comes over a state that its
operation did not see, and the operations are used from the states the diagram has them in
(`Tidy`), the states move along its edges, a stopped instance has no container that runs, and
a removed one has none at all (`states_kept`).
-/

set_option linter.unusedSectionVars false

namespace EngineConsole

namespace Lifecycle

open Web

/-! ## The diagram -/

/-- The edges of the diagram; `none` is before the row and after it. -/
def edge : Option State → Option State → Bool
  | none, some .starting => true
  | some .starting, some .loading => true
  | some .starting, some .ready => true
  | some .loading, some .ready => true
  | some .starting, some .failed => true
  | some .loading, some .failed => true
  | some .ready, some .failed => true
  | some .ready, some .stopping => true
  | some .starting, some .stopping => true
  | some .loading, some .stopping => true
  | some .stopping, some .stopped => true
  | some .failed, some .starting => true
  | some .stopped, some .starting => true
  | some .stopped, none => true
  | some .failed, none => true
  | none, some .loading => true
  | _, _ => false

/-- The state of an instance. -/
def System.stateOf (s : System) (id : Text) : Option State :=
  (s.row? id).map (·.state)

/-- Neither container runs. -/
def Pods.Down (p : Pods) : Prop :=
  p.engine ≠ some true ∧ p.gateway ≠ some true

/-- A launch of the instance is in flight. -/
def Launching (s : System) (iid : Text) : Prop :=
  ∃ k p pc, s.ops k = .launch iid p pc

/-- A stop or a removal of the instance is in flight. -/
def Ending (s : System) (iid : Text) : Prop :=
  ∃ k, (∃ before pc restart, s.ops k = .stop iid before pc restart) ∨ ∃ pc, s.ops k = .remove iid pc

/-- A stop may begin : the instance has not failed, and is not being launched. -/
def StopTidy (s : System) (iid : Text) : Prop :=
  s.stateOf iid ≠ some .failed ∧ ¬Launching s iid

/-- The operations on an instance keep out of each other's way, and to the diagram. -/
def Tidy (env : Env) (host iid : Text) (s : System) : Act → Prop
  | .op k a =>
    match s.ops k, a with
    | .asked none _, .insert row => row.id ≠ iid
    -- a start finds the instance at rest
    | .asked (some j) _, .place =>
      j = iid → (s.stateOf iid = some .stopped ∨ s.stateOf iid = some .failed) ∧ ¬Ending s iid
    | .launch j _ .fail, .write | .launch j _ (.finish _), .write =>
      j = iid → s.stateOf iid = some .starting
    | .idle, .stop j | .idle, .restart j => j = iid → StopTidy s iid
    | .supervise seen .idleTtl, .ttl => seen.id = iid → StopTidy s iid
    -- the node does what a stop asks
    | .stop j _ _ _, .call answer => j = iid → answer.fine = true
    | .stop j _ .finish _, .write =>
      j = iid → s.stateOf iid = some .stopping ∨ s.stateOf iid = some .stopped
    | .idle, .remove j => j = iid → ¬Launching s iid
    | .remove j .finish, .write =>
      j = iid → s.stateOf iid = some .stopped ∨ s.stateOf iid = some .failed
    -- the supervisor writes over what it read
    | .supervise seen .exited, .write | .supervise seen .fail, .write =>
      seen.id = iid → s.stateOf iid = some seen.state
    | .supervise seen (.write state), .write =>
      seen.id = iid → s.stateOf iid = some seen.state ∧ (state = .stopped → (s.node iid).Down)
    | _, _ => True
  | .adopt containers i => ∀ c, containers[i]? = some c →
      match s.rows.find? fun r => r.container = c.name ∧ r.hostId = host with
      | some r => r.id = iid →
          (c.state = "running" →
            s.stateOf iid = some .starting ∨ s.stateOf iid = some .loading) ∧
          (c.state ≠ "running" → r.state.active = true → c.exitCode = none ∨ c.exitCode = some 0 →
            s.stateOf iid = some .stopping ∧ (s.node iid).Down)
      -- what adoption finds is there
      | none => ∀ r, newRow env host containers c = some r → r.id = iid →
          c.state = "running" ∧ (s.node iid).engine.isSome = true
  | .exit _ _ => True

section

variable {env : Env} {host iid j : Text} {s t : System} {k : ℕ} {a : OpAct}

/-! ## What a step does to the table -/

@[simp] theorem setOp_same (s : System) (k : ℕ) (op : Op) : (s.setOp k op).ops k = op :=
  Function.update_self ..

@[simp] theorem leave_same (s : System) (k : ℕ) : (s.leave k).ops k = .idle :=
  Function.update_self ..

@[simp] theorem stateOf_setOp (s : System) (k : ℕ) (op : Op) :
    (s.setOp k op).stateOf j = s.stateOf j := rfl

@[simp] theorem stateOf_leave (s : System) (k : ℕ) : (s.leave k).stateOf j = s.stateOf j := rfl

theorem stateOf_of_rows (h : t.rows = s.rows) : t.stateOf j = s.stateOf j := by
  unfold System.stateOf System.row?
  rw [h]

theorem row?_update {f : Row → Row} (hf : ∀ r, (f r).id = r.id) (id : Text) :
    ({ s with rows := updateRow id f s.rows } : System).row? j =
      (s.row? j).map fun r => if r.id = id then f r else r := by
  unfold System.row? updateRow
  rw [List.find?_map]
  congr 2
  funext r
  simp only [Function.comp]
  split_ifs
  · rw [hf]
  · rfl

theorem stateOf_update {f : Row → Row} (hf : ∀ r, (f r).id = r.id) {id : Text} {state : State}
    (hstate : ∀ r, (f r).state = state) :
    ({ s with rows := updateRow id f s.rows } : System).stateOf j =
      if j = id then (s.stateOf j).map fun _ => state else s.stateOf j := by
  unfold System.stateOf
  rw [row?_update hf]
  cases hr : s.row? j with
  | none => simp
  | some r =>
    obtain rfl := (row?_spec hr).2
    simp only [Option.map_some]
    split_ifs
    · rw [hstate]
    · rfl

theorem stateOf_setState (id : Text) (state : State) : (s.setState id state).stateOf j =
    if j = id then (s.stateOf j).map fun _ => state else s.stateOf j :=
  stateOf_update (f := fun r => { r with state := state }) (fun _ => rfl) fun _ => rfl

theorem stateOf_setStarting (id : Text) (p : Int) : (s.setStarting id p).stateOf j =
    if j = id then (s.stateOf j).map fun _ => .starting else s.stateOf j :=
  stateOf_update (f := fun r => { r with state := .starting, port := some p }) (fun _ => rfl)
    fun _ => rfl

theorem stateOf_append {row : Row} : ({ s with rows := s.rows ++ [row] } : System).stateOf j =
    s.stateOf j ∨ row.id = j ∧ s.stateOf j = none ∧
      ({ s with rows := s.rows ++ [row] } : System).stateOf j = some row.state := by
  unfold System.stateOf System.row?
  rw [List.find?_append]
  cases hr : s.rows.find? fun r => r.id = j with
  | some r => exact .inl rfl
  | none =>
    rw [Option.none_or, List.find?_singleton]
    by_cases hid : row.id = j
    · exact .inr ⟨hid, rfl, by simp [hid]⟩
    · exact .inl (by simp [hid])

theorem stateOf_filter (id : Text) :
    ({ s with rows := s.rows.filter (·.id ≠ id) } : System).stateOf j =
      if j = id then none else s.stateOf j := by
  unfold System.stateOf System.row?
  rw [List.find?_filter]
  split_ifs with hid
  · subst hid
    have : (s.rows.find? fun r => decide (decide (r.id ≠ j) = true ∧ decide (r.id = j) = true)) =
        none := by
      simp
    rw [this]
    rfl
  · congr 2
    funext r
    by_cases hr : r.id = j
    · simp [hr, hid]
    · simp [hr]

/-- The writes of a state. -/
inductive Writes (env : Env) (host : Text) (s : System) (j : Text) : Act → State → Prop where
  | place {k : ℕ} {p : Int} (hop : s.ops k = .asked (some j) p) :
    Writes env host s j (.op k .place) .starting
  | launchFail {k : ℕ} {p : Int} (hop : s.ops k = .launch j p .fail) :
    Writes env host s j (.op k .write) .failed
  | launchFinish {k : ℕ} {p q : Int} (hop : s.ops k = .launch j p (.finish q)) :
    Writes env host s j (.op k .write) .starting
  | stopBegin {k : ℕ} {a : OpAct} (hop : Stops (s.ops k) a j)
      (hstate : s.stateOf j ≠ some .stopped) : Writes env host s j (.op k a) .stopping
  | stopRestore {k : ℕ} {before state : State} {restart : Bool}
      (hop : s.ops k = .stop j before (.restore state) restart) :
    Writes env host s j (.op k .write) state
  | stopFinish {k : ℕ} {before : State} {restart : Bool}
      (hop : s.ops k = .stop j before .finish restart) :
    Writes env host s j (.op k .write) .stopped
  | failed {k : ℕ} {seen : Row} {pc : Watch} (hop : s.ops k = .supervise seen pc)
      (hpc : pc = .exited ∨ pc = .fail) (hid : seen.id = j) :
    Writes env host s j (.op k .write) .failed
  | watched {k : ℕ} {seen : Row} {state : State} (hop : s.ops k = .supervise seen (.write state))
      (hid : seen.id = j) : Writes env host s j (.op k .write) state
  | adopted {containers : List Container} {i : ℕ} {c : Container} {r : Row}
      (hc : containers[i]? = some c)
      (hr : s.rows.find? (fun r => r.container = c.name ∧ r.hostId = host) = some r)
      (hid : r.id = j) (hrun : c.state = "running") :
    Writes env host s j (.adopt containers i) .loading
  | cleaned {containers : List Container} {i : ℕ} {c : Container} {r : Row}
      (hc : containers[i]? = some c)
      (hr : s.rows.find? (fun r => r.container = c.name ∧ r.hostId = host) = some r)
      (hid : r.id = j) (hrun : c.state ≠ "running") (hactive : r.state.active = true)
      (hexit : c.exitCode = none ∨ c.exitCode = some 0) :
    Writes env host s j (.adopt containers i) .stopped

/-- What a step does to the state of an instance. -/
inductive Changes (env : Env) (host : Text) (s : System) (j : Text) : Act → Option State → Prop where
  | same {a : Act} : Changes env host s j a (s.stateOf j)
  | writes {a : Act} {state : State} (hw : Writes env host s j a state)
      (hrow : s.stateOf j ≠ none) : Changes env host s j a (some state)
  | removed {k : ℕ} (hop : s.ops k = .remove j .finish) : Changes env host s j (.op k .write) none
  | inserted {k : ℕ} {p : Int} {row : Row} (hop : s.ops k = .asked none p) (hid : row.id = j) :
    Changes env host s j (.op k (.insert row)) (some row.state)
  | adopted {containers : List Container} {i : ℕ} {c : Container} {row : Row}
      (hc : containers[i]? = some c)
      (hr : s.rows.find? (fun r => r.container = c.name ∧ r.hostId = host) = none)
      (hnew : newRow env host containers c = some row) (hid : row.id = j)
      (hrow : s.stateOf j = none) : Changes env host s j (.adopt containers i) (some row.state)

/-- A write of the state of one instance. -/
theorem Changes.of_write {a : Act} {id : Text} {state : State} {x : Option State}
    (hx : x = if j = id then (s.stateOf j).map fun _ => state else s.stateOf j)
    (hw : j = id → Writes env host s j a state) : Changes env host s j a x := by
  subst hx
  split_ifs with hid
  · cases hstate : s.stateOf j with
    | none =>
      have h : Changes env host s j a (s.stateOf j) := .same
      rwa [hstate] at h
    | some st => exact .writes (hw hid) (by simp [hstate])
  · exact .same

theorem Moves.changes {a : Act} (hm : Moves env host s a t) :
    Changes env host s j a (t.stateOf j) := by
  cases hm with
  | @place k iid p hop =>
    refine .of_write (stateOf_setStarting iid p) ?_
    rintro rfl
    exact .place hop
  | @launchFail k iid p hop =>
    refine .of_write (stateOf_setState iid .failed) ?_
    rintro rfl
    exact .launchFail hop
  | @launchFinish k iid p q hop =>
    refine .of_write (stateOf_setStarting iid q) ?_
    rintro rfl
    exact .launchFinish hop
  | @stopBegin k a iid restart r hop hr hstate =>
    refine .of_write (stateOf_setState iid .stopping) ?_
    rintro rfl
    exact .stopBegin hop (by simpa [System.stateOf, hr] using hstate)
  | @stopRestore k iid before state restart hop =>
    refine .of_write (stateOf_setState iid state) ?_
    rintro rfl
    exact .stopRestore hop
  | @stopFinish k iid before restart hop =>
    refine .of_write (stateOf_setState iid .stopped) ?_
    rintro rfl
    exact .stopFinish hop
  | @exited k seen hop =>
    exact .of_write (stateOf_setState seen.id .failed) fun hid => .failed hop (.inl rfl) hid.symm
  | @failed k seen hop =>
    exact .of_write (stateOf_setState seen.id .failed) fun hid => .failed hop (.inr rfl) hid.symm
  | @watched k seen state hop =>
    exact .of_write (stateOf_setState seen.id state) fun hid => .watched hop hid.symm
  | @removeFinish k iid hop =>
    have h := stateOf_filter (s := s) (j := j) iid
    split_ifs at h with hid
    · subst hid
      exact h ▸ .removed hop
    · exact h ▸ .same
  | @insert k p row hop hnew hid hport hstate hhost =>
    rcases stateOf_append (s := s) (j := j) with h | ⟨hid, -, h⟩
    · exact h ▸ .same
    · exact h ▸ .inserted hop hid
  | @adopt containers i c hc =>
    rcases adoptContainer_cases containers c with
      hrows | ⟨r, hr, hrun, hrows⟩ | ⟨r, hr, hrun, ⟨hactive, hexit⟩, hrows⟩ | ⟨r, hr, hnew, hids, hrows⟩
    · rw [hrows]
      exact .same
    · rw [hrows]
      exact .of_write (stateOf_setState r.id .loading) fun hid => .adopted hc hr hid.symm hrun
    · rw [hrows]
      exact .of_write (stateOf_setState r.id .stopped) fun hid =>
        .cleaned hc hr hid.symm hrun hactive hexit
    · rw [hrows]
      rcases stateOf_append (s := s) (j := j) with h | ⟨hid, hnone, h⟩
      · exact h ▸ .same
      · exact h ▸ .adopted hc hr hnew hid hnone
  | @patch k iid name hop =>
    have h : ({ s with rows := updateRow iid (fun r => { r with name := name.getD r.name }) s.rows } :
        System).stateOf j = s.stateOf j := by
      unfold System.stateOf
      rw [row?_update (f := fun r => { r with name := name.getD r.name }) fun _ => rfl,
        Option.map_map]
      congr 1
      funext r
      simp only [Function.comp]
      split_ifs <;> rfl
    exact h ▸ .same
  | launchCall hop hc hs | stopCall hop hc hs | removeCall hop hc hs | stopGateway hop hs =>
    rw [stateOf_setOp, stateOf_of_rows (call_spec hs).1]
    exact .same
  | _ => exact .same

/-! ## What a step does to the operations -/

theorem Moves.ops_other (hm : Moves env host s (.op k a) t) {k' : ℕ} (hk : k' ≠ k) :
    t.ops k' = s.ops k' := by
  cases hm with
  | launchCall hop hc hs | stopCall hop hc hs | removeCall hop hc hs | stopGateway hop hs =>
    rw [setOp_ops, if_neg hk, (call_spec hs).2.1]
  | patch hop => rfl
  | _ => exact Function.update_of_ne hk ..

theorem call_node {c : Call} {answer : Answer} (h : s.call iid c answer = some t) :
    c.after (s.node iid) answer = some (t.node iid) ∧ ∀ j, j ≠ iid → t.node j = s.node j := by
  obtain ⟨p, hp, rfl⟩ := Option.map_eq_some_iff.1 h
  refine ⟨?_, fun j hj => Function.update_of_ne hj ..⟩
  exact hp.trans (congrArg some (Function.update_self iid p s.node).symm)

/-- What the supervisor is about fits the state that it read. -/
def Watch.Fits (seen : State) : Watch → Prop
  | .look => seen.active = true
  | .exited | .stopGateway | .fail => seen = .starting ∨ seen = .loading ∨ seen = .ready
  | .progress => seen = .starting ∨ seen = .loading
  | .idleTtl => seen = .ready
  | .write state => (seen = .stopping ∧ state = .stopped) ∨
      (seen = .starting ∨ seen = .loading) ∧ (state = seen ∨ state = .loading ∨ state = .ready)

theorem active_cases {seen : State} (h : seen.active = true) :
    seen = .stopping ∨ seen = .starting ∨ seen = .loading ∨ seen = .ready := by
  cases seen <;> simp_all [State.active]

theorem lookAt_fits (seen : Row) (view : View) : seen.lookAt view = .idle ∨
    ∃ pc, seen.lookAt view = .supervise seen pc ∧
      (Watch.look.Fits seen.state → pc.Fits seen.state) := by
  rw [Row.lookAt]
  by_cases hstop : seen.state = .stopping
  · rw [if_pos hstop]
    cases view.running with
    | true => exact .inl rfl
    | false => exact .inr ⟨.write .stopped, rfl, fun _ => .inl ⟨hstop, rfl⟩⟩
  rw [if_neg hstop]
  have hup (h : Watch.look.Fits seen.state) :
      seen.state = .starting ∨ seen.state = .loading ∨ seen.state = .ready :=
    (active_cases h).resolve_left hstop
  by_cases hrun : (!view.running) = true
  · rw [if_pos hrun]
    exact .inr ⟨.exited, rfl, hup⟩
  rw [if_neg hrun]
  by_cases hgateway : (view.engineRole && !view.gatewayOk) = true
  · rw [if_pos hgateway]
    exact .inr ⟨.fail, rfl, hup⟩
  rw [if_neg hgateway]
  by_cases hnew : seen.state = .starting ∨ seen.state = .loading
  · rw [if_pos hnew]
    exact .inr ⟨.progress, rfl, fun _ => hnew⟩
  rw [if_neg hnew]
  by_cases hready : seen.state = .ready
  · rw [if_pos hready]
    exact .inr ⟨.idleTtl, rfl, fun _ => hready⟩
  · rw [if_neg hready]
    exact .inl rfl

theorem progressState_cases (seen : State) (phase healthy : Bool) :
    progressState seen phase healthy = seen ∨ progressState seen phase healthy = .loading ∨
      progressState seen phase healthy = .ready := by
  rw [progressState]
  by_cases hhealthy : healthy = true
  · rw [if_pos hhealthy]
    exact .inr (.inr rfl)
  rw [if_neg hhealthy]
  by_cases hphase : phase ∧ seen = .starting
  · rw [if_pos hphase]
    exact .inr (.inl rfl)
  · rw [if_neg hphase]
    exact .inl rfl

theorem progressTo_fits (seen : Row) (phase healthy timedOut changed : Bool) :
    seen.progressTo phase healthy timedOut changed = .idle ∨
      ∃ pc, seen.progressTo phase healthy timedOut changed = .supervise seen pc ∧
        (Watch.progress.Fits seen.state → pc.Fits seen.state) := by
  rw [Row.progressTo]
  by_cases hfail : (!healthy && timedOut) = true
  · rw [if_pos hfail]
    exact .inr ⟨.fail, rfl, fun h => h.elim .inl fun h => .inr (.inl h)⟩
  rw [if_neg hfail]
  by_cases hwrite : progressState seen.state phase healthy ≠ seen.state ∨ changed = true
  · rw [if_pos hwrite]
    exact .inr ⟨.write _, rfl, fun h => .inr ⟨h, progressState_cases ..⟩⟩
  · rw [if_neg hwrite]
    exact .inl rfl

/-- What an operation is after a step of it. -/
inductive Next (s : System) (k : ℕ) (a : OpAct) (t : System) : Op → Prop where
  /-- it is over, or does nothing to an instance yet -/
  | idle : Next s k a t .idle
  | waiting (j : Text) : Next s k a t (.waiting j)
  | entered (j : Option Text) : Next s k a t (.entered j)
  | asked (j : Option Text) (p : Int) : Next s k a t (.asked j p)
  | restart (j : Text) : Next s k a t (.restart j)
  | placed {j : Text} {p : Int} (ha : a = .place) (hop : s.ops k = .asked (some j) p) :
    Next s k a t (.launch j p .net)
  | inserted {row : Row} {p : Int} (ha : a = .insert row) (hop : s.ops k = .asked none p) :
    Next s k a t (.launch row.id p .net)
  | launch {j : Text} {p : Int} {pc pc' : LaunchAt} (hop : s.ops k = .launch j p pc) :
    Next s k a t (.launch j p pc')
  | stop {j : Text} {before : State} {restart : Bool} (hop : Stops (s.ops k) a j) :
    Next s k a t (.stop j before .gateway restart)
  | stopCall {j : Text} {before : State} {restart : Bool} {pc : StopAt} {c : Call}
      {answer : Answer} (ha : a = .call answer) (hop : s.ops k = .stop j before pc restart)
      (hc : pc.call = some c) (hnode : c.after (s.node j) answer = some (t.node j)) :
    Next s k a t (.stop j before (pc.next before answer) restart)
  | remove {j : Text} (ha : a = .remove j) (hop : s.ops k = .idle) :
    Next s k a t (.remove j .gateway)
  | removeCall {j : Text} {pc pc' : RemoveAt} {c : Call} {answer : Answer}
      (hop : s.ops k = .remove j pc) (hc : pc.call = some (c, pc')) (hfine : answer.fine = true)
      (hnode : c.after (s.node j) answer = some (t.node j)) : Next s k a t (.remove j pc')
  | snapshot {r : Row} (hactive : r.state.active = true) : Next s k a t (.supervise r .look)
  | watch {seen : Row} {pc pc' : Watch} (hop : s.ops k = .supervise seen pc)
      (hfits : pc.Fits seen.state → pc'.Fits seen.state) : Next s k a t (.supervise seen pc')

theorem Moves.next (hm : Moves env host s (.op k a) t) : Next s k a t (t.ops k) := by
  cases hm with
  | drop | launchFail | launchFinish =>
    rw [leave_same]
    exact .idle
  | patch hop => exact hop ▸ .idle
  | create => exact (setOp_same s k _).symm ▸ .entered none
  | @enter _ iid => exact (setOp_same s k _).symm ▸ .entered (some iid)
  | start | again =>
    rw [setOp_same]
    exact .waiting _
  | alloc =>
    rw [setOp_same]
    exact .asked ..
  | insert hop =>
    rw [setOp_same]
    exact .inserted rfl hop
  | place hop =>
    rw [setOp_same]
    exact .placed rfl hop
  | launchPorts hop | launchCall hop =>
    rw [setOp_same]
    exact .launch hop
  | @stopped _ _ iid restart =>
    rw [setOp_same]
    split_ifs
    · exact .restart iid
    · exact .idle
  | stopBegin hop =>
    rw [setOp_same]
    exact .stop hop
  | stopCall hop hc hs =>
    rw [setOp_same]
    exact .stopCall rfl hop hc (call_node hs).1
  | @stopFinish _ iid before restart =>
    rw [setOp_same]
    split_ifs
    · exact .restart iid
    · exact .idle
  | remove hop =>
    rw [setOp_same]
    exact .remove rfl hop
  | removeCall hop hc hs =>
    rw [setOp_same]
    split_ifs with hfine
    · exact .removeCall hop hc hfine (call_node hs).1
    · exact .idle
  | snapshot hop hr hactive =>
    rw [setOp_same]
    exact .snapshot hactive
  | @look _ seen view hop =>
    rw [setOp_same]
    rcases lookAt_fits seen view with h | ⟨pc, h, hfits⟩ <;> rw [h]
    · exact .idle
    · exact .watch hop hfits
  | exited hop =>
    rw [setOp_same]
    exact .watch hop fun h => h
  | @progress _ seen phase healthy timedOut changed hop =>
    rw [setOp_same]
    rcases progressTo_fits seen phase healthy timedOut changed with h | ⟨pc, h, hfits⟩ <;> rw [h]
    · exact .idle
    · exact .watch hop hfits
  | stopRestore | removeFinish | stopGateway | failed | watched =>
    rw [setOp_same]
    exact .idle

/-! ## What a step does to the containers -/

/-- Nothing runs, or is there, that did not run or was not there before. -/
structure Pods.Calms (p p' : Pods) : Prop where
  engine : p.engine ≠ some true → p'.engine ≠ some true
  gateway : p.gateway ≠ some true → p'.gateway ≠ some true
  noEngine : p.engine = none → p'.engine = none
  noGateway : p.gateway = none → p'.gateway = none

theorem Pods.Calms.refl (p : Pods) : p.Calms p :=
  ⟨fun h => h, fun h => h, fun h => h, fun h => h⟩

/-- Only a launch asks for something to run. -/
theorem Call.effect_calms {c : Call} (hrun : c ≠ .run) (hstart : c ≠ .startGateway) (p : Pods) :
    p.Calms (c.effect p) := by
  cases c with
  | run => exact absurd rfl hrun
  | startGateway => exact absurd rfl hstart
  | _ => constructor <;> simp_all [Call.effect]

theorem Call.after_calms {c : Call} (hrun : c ≠ .run) (hstart : c ≠ .startGateway)
    {answer : Answer} {p p' : Pods} (h : c.after p answer = some p') : p.Calms p' := by
  cases answer with
  | ok => exact Option.some.inj h ▸ effect_calms hrun hstart p
  | missing =>
    unfold Call.after at h
    split_ifs at h
    exact Option.some.inj h ▸ .refl p
  | inUse =>
    rw [Call.after, if_neg hstart] at h
    cases h
  | failed u done =>
    obtain rfl := Option.some.inj h
    split_ifs
    · exact effect_calms hrun hstart p
    · exact .refl p

theorem System.call_calms {c : Call} {answer : Answer} (hrun : c ≠ .run)
    (hstart : c ≠ .startGateway) (h : s.call iid c answer = some t) (j : Text) :
    (s.node j).Calms (t.node j) := by
  obtain ⟨hself, hother⟩ := call_node h
  by_cases hj : j = iid
  · exact hj ▸ Call.after_calms hrun hstart hself
  · rw [hother j hj]
    exact .refl _

theorem Moves.pods {a : Act} (hm : Moves env host s a t) (j : Text) :
    (s.node j).Calms (t.node j) ∨ Launching s j := by
  cases hm with
  | @launchCall k iid p pc c answer s' hop hc hs =>
    by_cases hj : j = iid
    · exact .inr ⟨k, p, pc, hj ▸ hop⟩
    · refine .inl ?_
      have h : s'.node j = s.node j := (call_node hs).2 j hj
      exact (congrArg (s.node j).Calms h).mpr (.refl _)
  | @stopCall k iid before pc restart c answer s' hop hc hs =>
    have hne : c ≠ .run ∧ c ≠ .startGateway := by
      cases pc <;> cases hc <;> exact ⟨nofun, nofun⟩
    exact .inl (System.call_calms hne.1 hne.2 hs j)
  | @removeCall k iid pc pc' c answer s' hop hc hs =>
    have hne : c ≠ .run ∧ c ≠ .startGateway := by
      cases pc <;> cases hc <;> exact ⟨nofun, nofun⟩
    exact .inl (System.call_calms hne.1 hne.2 hs j)
  | @stopGateway k seen answer s' hop hs =>
    have h : (s.node j).Calms (s'.node j) :=
      System.call_calms (c := .stopGateway) (by decide) (by decide) hs j
    exact .inl h
  | @exit iid gateway c hc =>
    refine .inl ?_
    by_cases hj : j = iid
    · subst hj
      have hne : c ≠ .run ∧ c ≠ .startGateway := by
        rcases hc with rfl | rfl <;> exact ⟨nofun, nofun⟩
      have h : Function.update s.node j (c.effect (s.node j)) j = c.effect (s.node j) :=
        Function.update_self ..
      exact (congrArg (s.node j).Calms h).mpr (Call.effect_calms hne.1 hne.2 _)
    · have h : Function.update s.node iid (c.effect (s.node iid)) j = s.node j :=
        Function.update_of_ne hj ..
      exact (congrArg (s.node j).Calms h).mpr (.refl _)
  | _ => exact .inl (.refl _)

/-! ## The invariant -/

/-- What a stop has done so far. -/
def StopAt.Done (p : Pods) : StopAt → Prop
  | .gateway => True
  | .engine => p.gateway ≠ some true
  | .finish => p.Down
  | .restore _ => False

/-- What a removal has done so far. -/
def RemoveAt.Done (p : Pods) : RemoveAt → Prop
  | .gateway => True
  | .engine => p.gateway = none
  | .finish => p.engine = none ∧ p.gateway = none

/-- The operations on an instance know what they are about. -/
structure Orderly (iid : Text) (s : System) : Prop where
  watch : ∀ k seen pc, s.ops k = .supervise seen pc → pc.Fits seen.state
  launch : Launching s iid → s.stateOf iid ≠ some .stopped ∧ s.stateOf iid ≠ some .stopping
  apart : Ending s iid → ¬Launching s iid
  stop : ∀ k before pc restart, s.ops k = .stop iid before pc restart → pc.Done (s.node iid)
  remove : ∀ k pc, s.ops k = .remove iid pc → pc.Done (s.node iid)
  stopped : s.stateOf iid = some .stopped → (s.node iid).Down

theorem StopAt.Done.calms {p p' : Pods} {pc : StopAt} (h : pc.Done p) (hc : p.Calms p') :
    pc.Done p' := by
  cases pc with
  | gateway => trivial
  | engine => exact hc.gateway h
  | finish => exact ⟨hc.engine h.1, hc.gateway h.2⟩
  | restore => exact h

theorem RemoveAt.Done.calms {p p' : Pods} {pc : RemoveAt} (h : pc.Done p) (hc : p.Calms p') :
    pc.Done p' := by
  cases pc with
  | gateway => trivial
  | engine => exact hc.noGateway h
  | finish => exact ⟨hc.noEngine h.1, hc.noGateway h.2⟩

theorem Pods.Down.calms {p p' : Pods} (h : p.Down) (hc : p.Calms p') : p'.Down :=
  ⟨hc.engine h.1, hc.gateway h.2⟩

theorem Call.after_fine {c : Call} {answer : Answer} {p p' : Pods} (hfine : answer.fine = true)
    (h : c.after p answer = some p') : p' = c.effect p ∨ c.lacks p = true ∧ p' = p := by
  cases answer with
  | ok => exact .inl (Option.some.inj h).symm
  | missing =>
    by_cases hlacks : c.lacks p = true
    · rw [Call.after, if_pos hlacks] at h
      exact .inr ⟨hlacks, (Option.some.inj h).symm⟩
    · rw [Call.after, if_neg hlacks] at h
      cases h
  | inUse => cases hfine
  | failed => cases hfine

/-- A stop goes on when the node did what it asked. -/
theorem StopAt.done_next {before : State} {pc : StopAt} {c : Call} {answer : Answer} {p p' : Pods}
    (hc : pc.call = some c) (hfine : answer.fine = true) (hp : c.after p answer = some p')
    (h : pc.Done p) : (pc.next before answer).Done p' := by
  cases pc with
  | gateway =>
    obtain rfl := Option.some.inj hc
    rw [StopAt.next, if_pos hfine]
    rcases Call.after_fine hfine hp with rfl | ⟨hlacks, rfl⟩
    · simp [StopAt.Done, Call.effect]
    · simp_all [StopAt.Done, Call.lacks]
  | engine =>
    obtain rfl := Option.some.inj hc
    rw [StopAt.next, if_pos hfine]
    rcases Call.after_fine hfine hp with rfl | ⟨hlacks, rfl⟩
    · exact ⟨by simp [Call.effect], h⟩
    · exact ⟨by simp_all [Call.lacks], h⟩
  | finish | restore => cases hc

theorem RemoveAt.done_next {pc pc' : RemoveAt} {c : Call} {answer : Answer} {p p' : Pods}
    (hc : pc.call = some (c, pc')) (hfine : answer.fine = true) (hp : c.after p answer = some p')
    (h : pc.Done p) : pc'.Done p' := by
  cases pc with
  | gateway =>
    obtain ⟨rfl, rfl⟩ := Prod.mk.inj (Option.some.inj hc)
    rcases Call.after_fine hfine hp with rfl | ⟨hlacks, rfl⟩
    · rfl
    · exact Option.isNone_iff_eq_none.1 hlacks
  | engine =>
    obtain ⟨rfl, rfl⟩ := Prod.mk.inj (Option.some.inj hc)
    rcases Call.after_fine hfine hp with rfl | ⟨hlacks, rfl⟩
    · exact ⟨rfl, h⟩
    · exact ⟨Option.isNone_iff_eq_none.1 hlacks, h⟩
  | finish => cases hc

/-- The supervisor reads states it can do something about. -/
theorem Moves.watch {a : Act} (hm : Moves env host s a t)
    (h : ∀ k seen pc, s.ops k = .supervise seen pc → pc.Fits seen.state) :
    ∀ k seen pc, t.ops k = .supervise seen pc → pc.Fits seen.state := by
  intro k' seen pc ht
  cases a with
  | op k a =>
    by_cases hk : k' = k
    · subst hk
      have hn := hm.next
      rw [ht] at hn
      cases hn with
      | snapshot hactive => exact hactive
      | watch hop hfits => exact hfits (h _ _ _ hop)
    · rw [hm.ops_other hk] at ht
      exact h k' seen pc ht
  | adopt containers i =>
    cases hm with
    | adopt hc => exact h k' seen pc ht
  | exit iid gateway =>
    cases hm with
    | exit hc => exact h k' seen pc ht

/-- A launch that was not in flight before was placed, or made its row. -/
theorem Moves.launching {a : Act} (hm : Moves env host s a t) (h : Launching t iid) :
    Launching s iid ∨ (∃ k p, a = .op k .place ∧ s.ops k = .asked (some iid) p) ∨
      ∃ k row p, a = .op k (.insert row) ∧ s.ops k = .asked none p ∧ row.id = iid := by
  obtain ⟨k', p, pc, ht⟩ := h
  cases a with
  | op k a =>
    by_cases hk : k' = k
    · subst hk
      have hn := hm.next
      rw [ht] at hn
      cases hn with
      | placed ha hop => exact .inr (.inl ⟨k', p, by rw [ha], hop⟩)
      | @inserted row _ ha hop => exact .inr (.inr ⟨k', row, p, by rw [ha], hop, rfl⟩)
      | launch hop => exact .inl ⟨k', p, _, hop⟩
    · rw [hm.ops_other hk] at ht
      exact .inl ⟨k', p, pc, ht⟩
  | adopt containers i =>
    cases hm with
    | adopt hc => exact .inl ⟨k', p, pc, ht⟩
  | exit iid gateway =>
    cases hm with
    | exit hc => exact .inl ⟨k', p, pc, ht⟩

/-- A stop or a removal that was not in flight before has begun. -/
theorem Moves.ending {a : Act} (hm : Moves env host s a t) (h : Ending t iid) :
    Ending s iid ∨ ∃ k b, a = .op k b ∧
      (Stops (s.ops k) b iid ∨ b = .remove iid ∧ s.ops k = .idle) := by
  obtain ⟨k', h⟩ := h
  have hsame (hops : t.ops k' = s.ops k') : Ending s iid := by
    rw [hops] at h
    exact ⟨k', h⟩
  cases a with
  | op k b =>
    by_cases hk : k' = k
    · subst hk
      have hn := hm.next
      rcases h with ⟨before, pc, restart, ht⟩ | ⟨pc, ht⟩
      · rw [ht] at hn
        cases hn with
        | stop hop => exact .inr ⟨k', b, rfl, .inl hop⟩
        | stopCall ha hop => exact .inl ⟨k', .inl ⟨_, _, _, hop⟩⟩
      · rw [ht] at hn
        cases hn with
        | remove ha hop => exact .inr ⟨k', b, rfl, .inr ⟨ha, hop⟩⟩
        | removeCall hop => exact .inl ⟨k', .inr ⟨_, hop⟩⟩
    · exact .inl (hsame (hm.ops_other hk))
  | adopt containers i =>
    cases hm with
    | adopt hc => exact .inl (hsame rfl)
  | exit iid gateway =>
    cases hm with
    | exit hc => exact .inl (hsame rfl)

/-! ## Tidy steps -/

theorem Tidy.stop {b : OpAct} (h : Tidy env host iid s (.op k b)) (hop : Stops (s.ops k) b iid) :
    StopTidy s iid := by
  cases hk : s.ops k <;> rw [hk] at hop <;> cases hop <;> simp only [Tidy.eq_def, hk] at h <;> exact h trivial

theorem newRow_running {containers : List Container} {c : Container} {r : Row}
    (h : newRow env host containers c = some r) (hrun : c.state = "running") :
    r.state = .loading := by
  simp only [newRow, Option.bind_eq_bind, Option.bind_eq_some_iff] at h
  obtain ⟨iid, -, engine, -, model, -, engine', -, rf, -, port, -, hr⟩ := h
  obtain rfl := Option.some.inj hr
  exact if_pos hrun

/-- A tidy write of `stopped` : the instance was about to stop, and nothing of it runs. -/
theorem Orderly.writes_stopped (h : Orderly iid s) {a : Act} (htidy : Tidy env host iid s a)
    (hw : Writes env host s iid a .stopped) :
    (s.node iid).Down ∧ (Ending s iid ∨ s.stateOf iid = some .stopping) := by
  cases hw with
  | stopRestore hop => exact (h.stop _ _ _ _ hop).elim
  | stopFinish hop => exact ⟨h.stop _ _ _ _ hop, .inl ⟨_, .inl ⟨_, _, _, hop⟩⟩⟩
  | @watched k seen _ hop hid =>
    simp only [Tidy.eq_def, hop] at htidy
    obtain ⟨hstate, hdown⟩ := htidy hid
    refine ⟨hdown trivial, .inr ?_⟩
    rcases h.watch k seen _ hop with ⟨hseen, -⟩ | ⟨hseen, hs⟩
    · rw [hstate, hseen]
    · rcases hseen with hseen | hseen <;> rw [hseen] at hs <;> simp at hs
  | cleaned hc hr hid hrun hactive hexit =>
    have htidy := htidy _ hc
    rw [hr] at htidy
    obtain ⟨hstate, hdown⟩ := (htidy hid).2 hrun hactive hexit
    exact ⟨hdown, .inr hstate⟩

/-- What adoption makes of a container is loading. -/
theorem Tidy.adopt {containers : List Container} {i : ℕ} {c : Container} {row : Row}
    (h : Tidy env host iid s (.adopt containers i)) (hc : containers[i]? = some c)
    (hr : s.rows.find? (fun r => r.container = c.name ∧ r.hostId = host) = none)
    (hnew : newRow env host containers c = some row) (hid : row.id = iid) :
    row.state = .loading ∧ (s.node iid).engine.isSome = true := by
  have h := h c hc
  rw [hr] at h
  obtain ⟨hrun, hthere⟩ := h row hnew hid
  exact ⟨newRow_running hnew hrun, hthere⟩

/-- The states move along the edges of the diagram. -/
theorem Orderly.edge (h : Orderly iid s) {a : Act} (htidy : Tidy env host iid s a)
    (hm : Moves env host s a t) : t.stateOf iid = s.stateOf iid ∨
      edge (s.stateOf iid) (t.stateOf iid) = true := by
  generalize hx : t.stateOf iid = x
  have hc := hm.changes (j := iid)
  rw [hx] at hc
  cases hc with
  | same => exact .inl rfl
  | removed hop =>
    simp only [Tidy.eq_def, hop] at htidy
    rcases htidy trivial with hs | hs <;> rw [hs] <;> exact .inr rfl
  | inserted hop hid =>
    simp only [Tidy.eq_def, hop] at htidy
    exact absurd hid htidy
  | adopted hc hr hnew hid hrow =>
    rw [hrow, (htidy.adopt hc hr hnew hid).1]
    exact .inr rfl
  | writes hw hrow =>
    cases hw with
    | place hop =>
      simp only [Tidy.eq_def, hop] at htidy
      rcases (htidy trivial).1 with hs | hs <;> rw [hs] <;> exact .inr rfl
    | launchFail hop | launchFinish hop =>
      simp only [Tidy.eq_def, hop] at htidy
      rw [htidy trivial]
      first
      | exact .inl rfl
      | exact .inr rfl
    | stopBegin hop hstate =>
      have hfailed := (htidy.stop hop).1
      cases hs : s.stateOf iid with
      | none => exact absurd hs hrow
      | some st =>
        rw [hs] at hstate hfailed
        cases st <;> first | exact .inl rfl | exact .inr rfl | exact absurd rfl hstate |
          exact absurd rfl hfailed
    | stopRestore hop => exact (h.stop _ _ _ _ hop).elim
    | stopFinish hop =>
      simp only [Tidy.eq_def, hop] at htidy
      rcases htidy trivial with hs | hs <;> rw [hs]
      · exact .inr rfl
      · exact .inl rfl
    | @failed k seen pc hop hpc hid =>
      have hfits := h.watch k seen pc hop
      rcases hpc with rfl | rfl <;> simp only [Tidy.eq_def, hop] at htidy <;> rw [htidy hid] <;>
        rcases hfits with hs | hs | hs <;> rw [hs] <;> exact .inr rfl
    | @watched k seen state hop hid =>
      simp only [Tidy.eq_def, hop] at htidy
      rw [(htidy hid).1]
      rcases h.watch k seen _ hop with ⟨hs, rfl⟩ | ⟨hs | hs, rfl | rfl | rfl⟩ <;> rw [hs] <;>
        first | exact .inl rfl | exact .inr rfl
    | adopted hc hr hid hrun =>
      have htidy := htidy _ hc
      rw [hr] at htidy
      rcases (htidy hid).1 hrun with hs | hs <;> rw [hs]
      · exact .inr rfl
      · exact .inl rfl
    | cleaned hc hr hid hrun hactive hexit =>
      have htidy := htidy _ hc
      rw [hr] at htidy
      rw [((htidy hid).2 hrun hactive hexit).1]
      exact .inr rfl

/-- No tidy step writes over a launch. -/
theorem Orderly.writes_launching (h : Orderly iid s) {a : Act} {state : State}
    (htidy : Tidy env host iid s a) (hw : Writes env host s iid a state)
    (hlaunch : Launching s iid) : state ≠ .stopped ∧ state ≠ .stopping := by
  refine ⟨?_, ?_⟩
  · rintro rfl
    rcases (h.writes_stopped htidy hw).2 with hend | hs
    · exact h.apart hend hlaunch
    · exact (h.launch hlaunch).2 hs
  · rintro rfl
    cases hw with
    | stopBegin hop hstate => exact (htidy.stop hop).2 hlaunch
    | stopRestore hop => exact (h.stop _ _ _ _ hop).elim
    | @watched k seen _ hop hid =>
      rcases h.watch k seen _ hop with ⟨-, hs⟩ | ⟨hs | hs, hw | hw | hw⟩ <;> simp_all

theorem Orderly.step_launch (h : Orderly iid s) {a : Act} (htidy : Tidy env host iid s a)
    (hm : Moves env host s a t) (hlaunch : Launching t iid) :
    t.stateOf iid ≠ some .stopped ∧ t.stateOf iid ≠ some .stopping := by
  rcases hm.launching hlaunch with hlaunch | ⟨k, p, rfl, hop⟩ | ⟨k, row, p, rfl, hop, hid⟩
  · generalize hx : t.stateOf iid = x
    have hc := hm.changes (j := iid)
    rw [hx] at hc
    cases hc with
    | same => exact h.launch hlaunch
    | removed hop => exact ⟨nofun, nofun⟩
    | inserted hop hid =>
      simp only [Tidy.eq_def, hop] at htidy
      exact absurd hid htidy
    | adopted hc hr hnew hid hrow =>
      rw [(htidy.adopt hc hr hnew hid).1]
      exact ⟨nofun, nofun⟩
    | writes hw hrow =>
      obtain ⟨hstopped, hstopping⟩ := h.writes_launching htidy hw hlaunch
      exact ⟨fun hs => hstopped (Option.some.inj hs), fun hs => hstopping (Option.some.inj hs)⟩
  · cases hm with
    | @place k iid' p hop' =>
      obtain ⟨hi, -⟩ := Op.asked.inj (hop.symm.trans hop')
      obtain rfl := Option.some.inj hi
      rw [stateOf_setOp, stateOf_setStarting, if_pos rfl]
      cases s.stateOf iid <;> exact ⟨nofun, nofun⟩
    | stopped hstops | stopBegin hstops =>
      rw [hop] at hstops
      cases hstops
  · simp only [Tidy.eq_def, hop] at htidy
    exact absurd hid htidy

theorem Orderly.step_apart (h : Orderly iid s) {a : Act} (htidy : Tidy env host iid s a)
    (hm : Moves env host s a t) (hend : Ending t iid) : ¬Launching t iid := by
  intro hlaunch
  rcases hm.launching hlaunch with hlaunch | ⟨k, p, rfl, hop⟩ | ⟨k, row, p, rfl, hop, hid⟩
  · rcases hm.ending hend with hend | ⟨k, b, rfl, hstops | ⟨rfl, hop⟩⟩
    · exact h.apart hend hlaunch
    · exact (htidy.stop hstops).2 hlaunch
    · simp only [Tidy.eq_def, hop] at htidy
      exact htidy trivial hlaunch
  · rcases hm.ending hend with hend | ⟨k', b, ha, hstops | ⟨rfl, -⟩⟩
    · simp only [Tidy.eq_def, hop] at htidy
      exact (htidy trivial).2 hend
    · obtain ⟨rfl, rfl⟩ := Act.op.inj ha
      rw [hop] at hstops
      cases hstops
    · cases ha
  · simp only [Tidy.eq_def, hop] at htidy
    exact absurd hid htidy

/-- While it is being ended, nothing starts to run. -/
theorem Orderly.calms (h : Orderly iid s) {a : Act} (hm : Moves env host s a t)
    (hend : Ending s iid) : (s.node iid).Calms (t.node iid) :=
  (hm.pods iid).resolve_right (h.apart hend)

theorem Orderly.step_stop (h : Orderly iid s) {a : Act} (htidy : Tidy env host iid s a)
    (hm : Moves env host s a t) (k : ℕ) (before : State) (pc : StopAt) (restart : Bool)
    (ht : t.ops k = .stop iid before pc restart) : pc.Done (t.node iid) := by
  have hsame (hops : t.ops k = s.ops k) : pc.Done (t.node iid) := by
    rw [hops] at ht
    exact (h.stop k before pc restart ht).calms (h.calms hm ⟨k, .inl ⟨_, _, _, ht⟩⟩)
  cases a with
  | op k' b =>
    by_cases hk : k = k'
    · subst hk
      have hn := hm.next
      rw [ht] at hn
      cases hn with
      | stop hop => trivial
      | stopCall ha hop hc hnode =>
        subst ha
        simp only [Tidy.eq_def, hop] at htidy
        exact StopAt.done_next hc (htidy trivial) hnode (h.stop _ _ _ _ hop)
    · exact hsame (hm.ops_other hk)
  | adopt containers i =>
    cases hm with
    | adopt hc => exact hsame rfl
  | exit iid gateway =>
    cases hm with
    | exit hc => exact hsame rfl

theorem Orderly.step_remove (h : Orderly iid s) {a : Act} (hm : Moves env host s a t) (k : ℕ)
    (pc : RemoveAt) (ht : t.ops k = .remove iid pc) : pc.Done (t.node iid) := by
  have hsame (hops : t.ops k = s.ops k) : pc.Done (t.node iid) := by
    rw [hops] at ht
    exact (h.remove k pc ht).calms (h.calms hm ⟨k, .inr ⟨_, ht⟩⟩)
  cases a with
  | op k' b =>
    by_cases hk : k = k'
    · subst hk
      have hn := hm.next
      rw [ht] at hn
      cases hn with
      | remove ha hop => trivial
      | removeCall hop hc hfine hnode =>
        exact RemoveAt.done_next hc hfine hnode (h.remove _ _ hop)
    · exact hsame (hm.ops_other hk)
  | adopt containers i =>
    cases hm with
    | adopt hc => exact hsame rfl
  | exit iid gateway =>
    cases hm with
    | exit hc => exact hsame rfl

theorem Orderly.step_stopped (h : Orderly iid s) {a : Act} (htidy : Tidy env host iid s a)
    (hm : Moves env host s a t) (ht : t.stateOf iid = some .stopped) : (t.node iid).Down := by
  have hc := hm.changes (j := iid)
  rw [ht] at hc
  generalize hx : some State.stopped = x at hc
  cases hc with
  | same =>
    have hlaunch : ¬Launching s iid := fun hl => (h.launch hl).1 hx.symm
    exact (h.stopped hx.symm).calms ((hm.pods iid).resolve_right hlaunch)
  | removed hop => cases hx
  | inserted hop hid =>
    simp only [Tidy.eq_def, hop] at htidy
    exact absurd hid htidy
  | adopted hc hr hnew hid hrow =>
    rw [(htidy.adopt hc hr hnew hid).1] at hx
    cases hx
  | writes hw hrow =>
    obtain rfl := Option.some.inj hx
    obtain ⟨hdown, hwhy⟩ := h.writes_stopped htidy hw
    have hlaunch : ¬Launching s iid := by
      rcases hwhy with hend | hs
      · exact h.apart hend
      · exact fun hl => (h.launch hl).2 hs
    exact hdown.calms ((hm.pods iid).resolve_right hlaunch)

/-- Tidy steps keep the operations on an instance orderly. -/
theorem Orderly.step (h : Orderly iid s) {a : Act} (htidy : Tidy env host iid s a)
    (hs : step env host s a = some t) : Orderly iid t :=
  have hm := step_moves hs
  { watch := hm.watch h.watch
    launch := h.step_launch htidy hm
    apart := h.step_apart htidy hm
    stop := h.step_stop htidy hm
    remove := h.step_remove hm
    stopped := h.step_stopped htidy hm }

/-! ## After a removal -/

/-- Nothing is left of the instance, and nothing brings it back. -/
structure Gone (iid : Text) (s : System) : Prop where
  row : s.stateOf iid = none
  pods : s.node iid = ⟨none, none⟩
  launch : ¬Launching s iid

theorem Pods.Calms.none {p p' : Pods} (h : p.Calms p') (hp : p = ⟨none, none⟩) :
    p' = ⟨none, none⟩ := by
  subst hp
  have hengine := h.noEngine rfl
  have hgateway := h.noGateway rfl
  cases p'
  simp_all

theorem Gone.step (h : Gone iid s) {a : Act} (htidy : Tidy env host iid s a)
    (hs : step env host s a = some t) : Gone iid t := by
  have hm := step_moves hs
  refine ⟨?_, ((hm.pods iid).resolve_right h.launch).none h.pods, fun hlaunch => ?_⟩
  · generalize hx : t.stateOf iid = x
    have hc := hm.changes (j := iid)
    rw [hx] at hc
    cases hc with
    | same => exact h.row
    | writes hw hrow => exact absurd h.row hrow
    | removed hop => rfl
    | inserted hop hid =>
      simp only [Tidy.eq_def, hop] at htidy
      exact absurd hid htidy
    | adopted hc hr hnew hid hrow =>
      have hthere := (htidy.adopt hc hr hnew hid).2
      rw [h.pods] at hthere
      cases hthere
  · rcases hm.launching hlaunch with hlaunch | ⟨k, p, rfl, hop⟩ | ⟨k, row, p, rfl, hop, hid⟩
    · exact h.launch hlaunch
    · simp only [Tidy.eq_def, hop] at htidy
      rcases (htidy trivial).1 with hs | hs <;> rw [h.row] at hs <;> cases hs
    · simp only [Tidy.eq_def, hop] at htidy
      exact absurd hid htidy

/-- A removal that is over leaves nothing. -/
theorem Orderly.gone (h : Orderly iid s) (hop : s.ops k = .remove iid .finish)
    (hs : Lifecycle.step env host s (.op k .write) = some t) : Gone iid t := by
  have hm := step_moves hs
  have hend : Ending s iid := ⟨k, .inr ⟨_, hop⟩⟩
  obtain ⟨hengine, hgateway⟩ := h.remove k _ hop
  refine ⟨?_, (h.calms hm hend).none ?_, fun hlaunch => ?_⟩
  · have ht : t = { s with rows := s.rows.filter (·.id ≠ iid) }.setOp k .idle := by
      have : Lifecycle.step env host s (.op k .write) =
          some ({ s with rows := s.rows.filter (·.id ≠ iid) }.setOp k .idle) := by
        simp [Lifecycle.step, opStep, hop, removeStep]
      exact (Option.some.inj (this.symm.trans hs)).symm
    rw [ht, stateOf_setOp, stateOf_filter, if_pos rfl]
  · cases hp : s.node iid
    simp_all
  · rcases hm.launching hlaunch with hlaunch | ⟨k', p, ha, -⟩ | ⟨k', row, p, ha, -⟩
    · exact h.apart hend hlaunch
    · cases ha
    · cases ha

/-! ## Runs -/

/-- No operation is in flight, and an instance that is stopped does not run. -/
structure Rests (iid : Text) (s : System) : Prop where
  ops : ∀ k, s.ops k = .idle
  stopped : s.stateOf iid = some .stopped → (s.node iid).Down

theorem Rests.orderly (h : Rests iid s) : Orderly iid s where
  watch k seen pc hop := by
    rw [h.ops k] at hop
    cases hop
  launch := by
    rintro ⟨k, p, pc, hop⟩
    rw [h.ops k] at hop
    cases hop
  apart := by
    rintro - ⟨k, p, pc, hop⟩
    rw [h.ops k] at hop
    cases hop
  stop k before pc restart hop := by
    rw [h.ops k] at hop
    cases hop
  remove k pc hop := by
    rw [h.ops k] at hop
    cases hop
  stopped := h.stopped

/-- In tidy runs the states move along the edges of the diagram, a stopped instance has no
container that runs, and of a removed one nothing is left, whatever comes after. -/
theorem states_kept {s₀ : System} (hstart : Rests iid s₀)
    (hrun : ReachBy (step env host) (Tidy env host iid) s₀ s) :
    (∀ a t, Tidy env host iid s a → step env host s a = some t →
      t.stateOf iid = s.stateOf iid ∨ edge (s.stateOf iid) (t.stateOf iid) = true) ∧
    (s.stateOf iid = some .stopped → (s.node iid).Down) ∧
    ∀ k t u, s.ops k = .remove iid .finish → step env host s (.op k .write) = some t →
      ReachBy (step env host) (Tidy env host iid) t u →
        u.row? iid = none ∧ u.node iid = ⟨none, none⟩ := by
  have h : Orderly iid s :=
    hrun.invariant (Orderly iid) (fun _ _ _ hok h hs => h.step hok hs) hstart.orderly
  refine ⟨fun a t htidy hs => h.edge htidy (step_moves hs), h.stopped, ?_⟩
  intro k t u hop hs hafter
  have hgone : Gone iid u :=
    hafter.invariant (Gone iid) (fun _ _ _ hok h hs => h.step hok hs) (h.gone hop hs)
  exact ⟨Option.map_eq_none_iff.1 hgone.row, hgone.pods⟩

end

/-! ## A stop, and a removal -/

/-- An instance that is ready. -/
def readyHost : System :=
  { emptyHost with
    rows := [{ newInstance "inst_a" 8000 with state := .ready }]
    node := fun _ => ⟨some true, some true⟩ }

theorem readyHost_rests : Rests "inst_a" readyHost :=
  ⟨fun _ => rfl, fun h => absurd h (by decide)⟩

/-- Steps of stops and removals, one at a time. -/
def oneEnd (iid : Text) (s : System) : Act → Bool
  | .op 0 a =>
    match s.ops 0, a with
    | .idle, .stop _ => s.stateOf iid ≠ some .failed
    | .stop _ _ _ _, .call answer => answer.fine
    | .stop _ _ .finish _, .write => s.stateOf iid = some .stopping
    | .idle, .remove _ | .remove _ _, .call _ => true
    | .remove _ .finish, .write => s.stateOf iid = some .stopped
    | _, _ => false
  | _ => false

theorem tidy_of_oneEnd {env : Env} {host iid : Text} {s : System} {a : Act}
    (hidle : ∀ k, k ≠ 0 → s.ops k = .idle) (h : oneEnd iid s a = true) : Tidy env host iid s a := by
  have hlaunch (hop : s.ops 0 = .idle) : ¬Launching s iid := by
    rintro ⟨k, p, pc, hk⟩
    by_cases h0 : k = 0
    · rw [h0, hop] at hk
      cases hk
    · rw [hidle k h0] at hk
      cases hk
  unfold oneEnd at h
  split at h
  · split at h
    · next hop =>
      simp only [Tidy.eq_def, hop]
      exact fun _ => ⟨of_decide_eq_true h, hlaunch hop⟩
    · next hop =>
      simp only [Tidy.eq_def, hop]
      exact fun _ => h
    · next hop =>
      simp only [Tidy.eq_def, hop]
      exact fun _ => .inl (of_decide_eq_true h)
    · next hop =>
      simp only [Tidy.eq_def, hop]
      exact fun _ => hlaunch hop
    · next hop =>
      simp only [Tidy.eq_def, hop]
    · next hop =>
      simp only [Tidy.eq_def, hop]
      exact fun _ => .inl (of_decide_eq_true h)
    · cases h
  · cases h

/-- The number of the operation that steps. -/
def Act.number : Act → ℕ
  | .op k _ => k
  | _ => 0

theorem step_ops_other {env : Env} {host : Text} {s t : System} {a : Act} {k : ℕ}
    (h : step env host s a = some t) (hk : a.number < k) : t.ops k = s.ops k := by
  have hm := step_moves h
  cases a with
  | op k' b => exact hm.ops_other (Nat.ne_of_gt hk)
  | adopt containers i =>
    cases hm with
    | adopt hc => rfl
  | exit iid gateway =>
    cases hm with
    | exit hc => rfl

theorem runActs_ops_other {env : Env} {host : Text} {t : System} {n k : ℕ} (hk : n < k) :
    ∀ {as : List Act} {s : System}, (as.all fun a => a.number ≤ n) = true →
      runActs (step env host) s as = some t → t.ops k = s.ops k
  | [], s, _, h => by
    obtain rfl : s = t := by simpa [runActs] using h
    rfl
  | a :: as, s, hall, h => by
    obtain ⟨u, hu, hrun⟩ := Option.bind_eq_some_iff.1 h
    rw [List.all_cons, Bool.and_eq_true, decide_eq_true_eq] at hall
    rw [runActs_ops_other hk hall.2 hrun, step_ops_other hu (by omega)]

/-- A stop, from its request to its last write. -/
def stopActs (k : ℕ) (id : Text) : List Act :=
  [.op k (.stop id), .op k (.call .ok), .op k (.call .ok)]

/-- A removal, up to its last write. -/
def removeActs (k : ℕ) (id : Text) : List Act :=
  [.op k (.remove id), .op k (.call .ok), .op k (.call .ok)]

/-- A start, from its request to its last write. -/
def startActs (k : ℕ) (id : Text) : List Act :=
  [.op k (.start id true), .op k (.enter true), .op k (.alloc ⟨[], []⟩), .op k .place,
    .op k (.call .ok), .op k (.call .ok), .op k (.call .ok), .op k (.call .ok),
    .op k (.alloc ⟨[], []⟩), .op k (.call .ok), .op k .write]

/-- The instance whose row is about to be removed. -/
def Op.leaving : Op → Option Text
  | .remove iid .finish => some iid
  | _ => none

theorem Op.eq_of_leaving {op : Op} {iid : Text} (h : op.leaving = some iid) :
    op = .remove iid .finish := by
  unfold Op.leaving at h
  split at h
  · rw [Option.some.inj h]
  · cases h

/-- An instance is stopped and removed. -/
theorem one_removed : ∃ s t, ReachBy (step twoPorts "host") (Tidy twoPorts "host" "inst_a")
      readyHost s ∧ step twoPorts "host" s (.op 0 .write) = some t ∧
    t.row? "inst_a" = none ∧ t.node "inst_a" = ⟨none, none⟩ := by
  have hrun : ((runBy (step twoPorts "host") (fun s a => oneEnd "inst_a" s a = true) readyHost
      (stopActs 0 "inst_a" ++ [.op 0 .write] ++ removeActs 0 "inst_a")).any fun s =>
        decide ((s.ops 0).leaving = some (ascii "inst_a")) && (step twoPorts "host" s (.op 0 .write)).isSome) = true := by
    decide +kernel
  obtain ⟨s, hs, hend⟩ := (Option.any_eq_true _ _).1 hrun
  obtain ⟨hop, ht⟩ := (Bool.and_eq_true _ _).mp hend
  obtain ⟨t, ht⟩ := Option.isSome_iff_exists.1 ht
  have hrun : ReachBy (step twoPorts "host") (Tidy twoPorts "host" "inst_a") readyHost s := by
    refine (ReachBy.of_runBy hs).mono_of (fun s => ∀ k, k ≠ 0 → s.ops k = .idle)
      (fun s a u hok hidle hstep k hk => ?_) (fun s a hidle hok => tidy_of_oneEnd hidle hok)
      fun _ _ => rfl
    have hnumber : a.number = 0 := by
      unfold oneEnd at hok
      split at hok
      · rfl
      · cases hok
    rw [step_ops_other hstep (by omega), hidle k hk]
  have hop : s.ops 0 = .remove "inst_a" .finish := Op.eq_of_leaving (of_decide_eq_true hop)
  exact ⟨s, t, hrun, ht, (states_kept readyHost_rests hrun).2.2 0 t t hop ht (.refl t)⟩

/-! ## Stops that are late -/

theorem emptyHost_rests (iid : Text) : Rests iid emptyHost :=
  ⟨fun _ => rfl, nofun⟩

/-- Is nothing in flight? -/
def Op.isIdle : Op → Bool
  | .idle => true
  | _ => false

theorem Op.eq_idle {op : Op} (h : op.isIdle = true) : op = .idle := by
  cases op <;> first | rfl | cases h

/-- After a run of the first two operations that leaves neither in flight, none is. -/
theorem idle_of_run {env : Env} {host : Text} {t : System} {as : List Act}
    (hall : (as.all fun a => a.number ≤ 1) = true)
    (hrun : runActs (step env host) emptyHost as = some t) (h0 : (t.ops 0).isIdle = true)
    (h1 : (t.ops 1).isIdle = true) (k : ℕ) : t.ops k = .idle := by
  by_cases hk : 1 < k
  · rw [runActs_ops_other hk hall hrun]
    rfl
  · obtain rfl | rfl : k = 0 ∨ k = 1 := by omega
    · exact Op.eq_idle h0
    · exact Op.eq_idle h1

/-- A stop of an instance that has failed. -/
theorem stop_of_failed : ∃ s t, Reach (step twoPorts "host") emptyHost s ∧
    step twoPorts "host" s (.op 0 (.stop "inst_a")) = some t ∧
    s.stateOf "inst_a" = some .failed ∧ t.stateOf "inst_a" = some .stopping := by
  have hrun : ((runActs (step twoPorts "host") emptyHost (createActs 0 "inst_a" 8000 ++
      exitActs 0 "inst_a")).any fun s => s.stateOf "inst_a" = some .failed ∧
        ((step twoPorts "host" s (.op 0 (.stop "inst_a"))).any fun t =>
          t.stateOf "inst_a" = some .stopping) = true) = true := by decide +kernel
  obtain ⟨s, hs, hend⟩ := (Option.any_eq_true _ _).1 hrun
  obtain ⟨hfailed, hend⟩ := of_decide_eq_true hend
  obtain ⟨t, ht, hstopping⟩ := (Option.any_eq_true _ _).1 hend
  exact ⟨s, t, Reach.of_runActs hs, ht, hfailed, of_decide_eq_true hstopping⟩

/-- A start that is over before the stop it overtook writes `stopped`. -/
def lateStop : List Act :=
  createActs 0 "inst_a" 8000 ++ stopActs 0 "inst_a" ++ startActs 1 "inst_a" ++ [.op 0 .write]

theorem stopped_runs : ∃ s, Reach (step twoPorts "host") emptyHost s ∧ (∀ k, s.ops k = .idle) ∧
    s.stateOf "inst_a" = some .stopped ∧ s.node "inst_a" = ⟨some true, some true⟩ := by
  have hrun : ((runActs (step twoPorts "host") emptyHost lateStop).any fun s =>
      ((s.ops 0).isIdle = true ∧ (s.ops 1).isIdle = true) ∧
        s.stateOf "inst_a" = some .stopped ∧ s.node "inst_a" = ⟨some true, some true⟩) = true := by
    decide +kernel
  obtain ⟨s, hs, hend⟩ := (Option.any_eq_true _ _).1 hrun
  obtain ⟨⟨h0, h1⟩, hend⟩ := of_decide_eq_true hend
  exact ⟨s, Reach.of_runActs hs, idle_of_run (by decide) hs h0 h1, hend⟩

/-- A start that is over before the removal it overtook deletes the row. -/
def lateRemove : List Act :=
  createActs 0 "inst_a" 8000 ++ stopActs 0 "inst_a" ++ [.op 0 .write] ++ removeActs 0 "inst_a" ++
    startActs 1 "inst_a"

theorem removed_runs : ∃ s t, Reach (step twoPorts "host") emptyHost s ∧
    s.ops 0 = .remove "inst_a" .finish ∧ step twoPorts "host" s (.op 0 .write) = some t ∧
    (∀ k, t.ops k = .idle) ∧ t.node "inst_a" = ⟨some true, some true⟩ := by
  have hrun : ((runActs (step twoPorts "host") emptyHost lateRemove).any fun s =>
      decide ((s.ops 0).leaving = some (ascii "inst_a")) &&
      (step twoPorts "host" s (.op 0 .write)).any fun t =>
        ((t.ops 0).isIdle = true ∧ (t.ops 1).isIdle = true) ∧
          t.node "inst_a" = ⟨some true, some true⟩) = true := by decide +kernel
  obtain ⟨s, hs, hend⟩ := (Option.any_eq_true _ _).1 hrun
  obtain ⟨hop, hend⟩ := (Bool.and_eq_true _ _).mp hend
  obtain ⟨t, ht, hend⟩ := (Option.any_eq_true _ _).1 hend
  obtain ⟨⟨h0, h1⟩, hnode⟩ := of_decide_eq_true hend
  have hop : s.ops 0 = .remove "inst_a" .finish := Op.eq_of_leaving (of_decide_eq_true hop)
  have hidle (k : ℕ) : t.ops k = .idle := by
    by_cases hk : 1 < k
    · rw [step_ops_other ht (Nat.zero_lt_of_lt hk), runActs_ops_other hk (by decide) hs]
      rfl
    · obtain rfl | rfl : k = 0 ∨ k = 1 := by omega
      · exact Op.eq_idle h0
      · exact Op.eq_idle h1
  exact ⟨s, t, Reach.of_runActs hs, hop, ht, hidle, hnode⟩

/-- A stop of an instance that has failed is not in the diagram; a stop that is late leaves a
stopped instance that runs, and a removal that is late containers without a row. -/
theorem states_not_kept :
    (¬∀ (env : Env) (host iid : Text) (s₀ s t : System) (a : Act), Rests iid s₀ →
      Reach (step env host) s₀ s → step env host s a = some t →
        t.stateOf iid = s.stateOf iid ∨ edge (s.stateOf iid) (t.stateOf iid) = true) ∧
    (¬∀ (env : Env) (host iid : Text) (s₀ s : System), Rests iid s₀ →
      Reach (step env host) s₀ s → (∀ k, s.ops k = .idle) → s.stateOf iid = some .stopped →
        (s.node iid).Down) ∧
    ¬∀ (env : Env) (host iid : Text) (s₀ s t : System) (k : ℕ), Rests iid s₀ →
      Reach (step env host) s₀ s → s.ops k = .remove iid .finish →
        step env host s (.op k .write) = some t → (∀ k, t.ops k = .idle) →
          t.row? iid = none ∧ t.node iid = ⟨none, none⟩ := by
  refine ⟨fun hclaim => ?_, fun hclaim => ?_, fun hclaim => ?_⟩
  · obtain ⟨s, t, hs, ht, hfailed, hstopping⟩ := stop_of_failed
    have h := hclaim twoPorts "host" "inst_a" emptyHost s t _ (emptyHost_rests _) hs ht
    rw [hfailed, hstopping] at h
    exact absurd h (by decide)
  · obtain ⟨s, hs, hidle, hstopped, hnode⟩ := stopped_runs
    have h := hclaim twoPorts "host" "inst_a" emptyHost s (emptyHost_rests _) hs hidle hstopped
    rw [hnode] at h
    exact h.1 rfl
  · obtain ⟨s, t, hs, hop, ht, hidle, hnode⟩ := removed_runs
    have h := hclaim twoPorts "host" "inst_a" emptyHost s t 0 (emptyHost_rests _) hs hop ht hidle
    rw [hnode] at h
    cases h.2

end Lifecycle

end EngineConsole
