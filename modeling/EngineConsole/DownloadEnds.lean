import EngineConsole.Downloads
import EngineConsole.OneWorker

/-!
# A row that ended stays as it ended

The state diagram of a download has no way out of `completed` and `cancelled`. The service
keeps to it in the runs of `Service.Careful` (`ended_stays`) : the condition of one row
(`Job.Careful`), with `recover` at start-up only.

Outside them it does not. `stop_task` writes `paused` whenever the task it finds has ended,
whatever the row says, and the task of a completed row stays in the task map : a shutdown
turns every row that was completed since the start to `paused` (`shutdown_reopens`).
-/

set_option linter.unusedSectionVars false

namespace EngineConsole.Downloads

namespace Job

/-- While no call is in flight and the task is not live, nobody may write. -/
theorem Orderly.idle_of_not_live {j : Job} (h : j.Orderly) (hc : j.calls = [])
    (hlive : j.isLive = false) : j.Idle := by
  cases ht : j.task with
  | none => exact h.idle (by rw [holder_of_nil hc, ht])
  | some i =>
    refine h.idle_of_finished (i := i) (by rw [holder_of_nil hc, ht]) ?_
    simpa [isLive, ht] using hlive

theorem Idle.calm {j : Job} (h : j.Idle) (hc : j.calls = [])
    (hknown : ∀ i, j.task = some i → i < j.nextWorker) : j.Calm where
  toOrderly := h.orderly (.inl hc) hknown (by simp [pc_of_nil hc])
  intended k hk := by simp [hc] at hk
  stopping i w x hw hx := by
    have he := h i w hw
    rw [Worker.engaged_of_pc (by simp [hx])] at he
    cases he
  settled i w hw he := by simp [h i w hw] at he
  undecided k hk := by simp [hc] at hk

end Job

namespace Service

/-- `recover` finds no call in flight and no task that is live. -/
def AtStart (s : Service) : Prop :=
  ∀ d ∈ s.ids, (s.jobs d).calls = [] ∧ (s.jobs d).isLive = false

instance (s : Service) : Decidable s.AtStart := by
  unfold AtStart; infer_instance

/-- The steps that do not undo how a row ended. -/
def Careful (s : Service) : Act → Prop
  | .job d a => (s.jobs d).Careful a
  | .shutdownStep id => ∀ h ∈ s.shutdowns, h.id = id → h.stopping = none →
      ∀ d ∈ h.rest.head?, (s.jobs d).Careful .stop
  | .recover => s.AtStart
  | _ => True

instance (s : Service) : (a : Act) → Decidable (s.Careful a)
  | .job _ _ => inferInstanceAs (Decidable (Job.Careful _ _))
  | .shutdownStep _ => inferInstanceAs (Decidable (∀ h ∈ s.shutdowns, _))
  | .recover => inferInstanceAs (Decidable s.AtStart)
  | .create _ | .creation _ _ | .refuse _ _ | .restart | .shutdown _ => .isTrue trivial

/-- Every row is calm, and only ids that were given have one. -/
structure Calm (s : Service) : Prop where
  jobs : ∀ d, (s.jobs d).Calm
  fresh : ∀ d, d ∉ s.ids → s.row d = none

variable {s s' : Service} {d : Did}

theorem calm_empty (q : ℤ) : (empty q).Calm :=
  ⟨fun _ => Job.calm_loaded none, fun _ _ => rfl⟩

theorem row_map_recover {o : Option Row} (ho : o = none) : o.map Row.recover = none := by
  rw [ho]; rfl

/-- `recover` does nothing to an id without a row. -/
theorem recover_of_fresh (h : s.row d = none) : s.recover.jobs d = s.jobs d := by
  have hrow : (s.jobs d).row = none := h
  cases hj : s.jobs d
  simp_all [Service.recover, row_eq]

theorem Calm.recover (h : s.Calm) (hok : s.AtStart) : s.recover.Calm := by
  refine ⟨fun d => ?_, fun d hd => row_map_recover (h.fresh d hd)⟩
  by_cases hd : d ∈ s.ids
  · obtain ⟨hc, hl⟩ := hok d hd
    have hidle := (h.jobs d).idle_of_not_live hc hl
    exact Job.Idle.calm (j := s.recover.jobs d) hidle hc (h.jobs d).known
  · exact recover_of_fresh (h.fresh d hd) ▸ h.jobs d

theorem Calm.step (h : s.Calm) {a : Act} (hok : s.Careful a) (hs : s.step a = some s') :
    s'.Calm := by
  cases step_jobs hs with
  | none hids hjobs => exact ⟨fun d => hjobs ▸ h.jobs d, fun d hd => by
      rw [row_eq, hjobs]; exact h.fresh d (hids ▸ hd)⟩
  | one d b j hids hjobs hj hact =>
    have hb : (s.jobs d).Careful b := by
      rcases hact with ⟨rfl, _⟩ | ⟨h', hmem, rfl, rfl, rest, hrest, hstop⟩
      · exact hok
      · exact hok h' hmem rfl hstop d (by simp [hrest])
    have hcalm := (h.jobs d).step hb hj
    refine ⟨fun d' => ?_, fun d' hd' => ?_⟩
    · by_cases hd : d' = d
      · obtain rfl := hd
        simpa [hjobs] using hcalm
      · simpa [hjobs, hd] using h.jobs d'
    · rw [row_eq, hjobs]
      by_cases hd : d' = d
      · obtain rfl := hd
        rcases hact with ⟨_, hin⟩ | ⟨_, _, _, rfl, _⟩
        · exact absurd (hids ▸ hin) hd'
        · obtain rfl := Option.some.inj hj
          simpa [Job.begin, row_eq] using h.fresh d' (hids ▸ hd')
      · simpa [hd, row_eq] using h.fresh d' (hids ▸ hd')
  | new d c hc hpc hd hids hjobs hact =>
    refine ⟨fun d' => ?_, fun d' hd' => ?_⟩
    · by_cases hdd : d' = d
      · obtain rfl := hdd
        simpa [hjobs] using Job.calm_created c.key
      · simpa [hjobs, hdd] using h.jobs d'
    · rw [hids, List.mem_append, List.mem_singleton, not_or] at hd'
      rw [row_eq, hjobs]
      simpa [hd'.2, row_eq] using h.fresh d' hd'.1
  | all hids hact =>
    rcases hact with ⟨rfl, rfl⟩ | ⟨rfl, rfl⟩
    · exact h.recover hok
    · exact ⟨fun d => Job.calm_loaded _, fun d hd => h.fresh d hd⟩

/-- The row of `d` is gone, or in the state `x`. -/
def Stays (s : Service) (d : Did) (x : RowState) : Prop :=
  d ∈ s.ids ∧ ∀ r, s.row d = some r → r.state = x

theorem Calm.stays (h : s.Calm) {a : Act} (hs : s.step a = some s') {x : RowState}
    (hx : x.terminal) (hd : s.Stays d x) : s'.Stays d x := by
  obtain ⟨hin, hrow⟩ := hd
  cases step_jobs hs with
  | none hids hjobs => exact ⟨hids ▸ hin, by simpa [row_eq, hjobs] using hrow⟩
  | one d' b j hids hjobs hj hact =>
    refine ⟨hids ▸ hin, ?_⟩
    rw [row_eq, hjobs]
    by_cases hdd : d = d'
    · obtain rfl := hdd
      intro r' hr'
      rw [Function.update_self] at hr'
      cases hr : s.row d with
      | none => simp [Job.step_row_none hr hj] at hr'
      | some r =>
        obtain rfl := hrow r hr
        rcases (h.jobs d).terminal hj hr hx with hnone | ⟨r'', hr'', hst⟩
        · simp [hnone] at hr'
        · obtain rfl : r'' = r' := by simpa [hr''] using hr'
          exact hst
    · simpa [hdd, row_eq] using hrow
  | new d' c hc hpc hd' hids hjobs hact =>
    refine ⟨by simp [hids, hin], ?_⟩
    have hne : d ≠ d' := fun hdd => hd' (hdd ▸ hin)
    simpa [row_eq, hjobs, hne] using hrow
  | all hids hact =>
    refine ⟨hids ▸ hin, ?_⟩
    rcases hact with ⟨rfl, rfl⟩ | ⟨rfl, rfl⟩
    · intro r' hr'
      obtain ⟨r, hr, rfl⟩ := Option.map_eq_some_iff.1 hr'
      have hst := hrow r hr
      cases x <;> simp_all [Row.recover, RowState.active, RowState.terminal]
    · exact hrow

/-! ## Runs -/

/-- Once a row is completed or cancelled, every later state of a careful run finds it so, or
deleted. -/
theorem ended_stays {q : ℤ} {s t : Service} (hs : ReachBy step Careful (empty q) s)
    (ht : ReachBy step Careful s t) {d : Did} {r : Row} (hr : s.row d = some r)
    (hend : r.state = .completed ∨ r.state = .cancelled) :
    t.row d = none ∨ ∃ r', t.row d = some r' ∧ r'.state = r.state := by
  have hcalm : s.Calm :=
    hs.invariant Calm (fun s a t hok h hst => h.step hok hst) (calm_empty q)
  have hin : d ∈ s.ids := by
    by_contra hd
    simp [hcalm.fresh d hd] at hr
  have hterm : r.state.terminal := by rcases hend with h | h <;> simp [h, RowState.terminal]
  have hstays : t.Stays d r.state :=
    ht.stable Calm (fun s => s.Stays d r.state) (fun s a t hok h hst => h.step hok hst)
      (fun s a t _ h hp hst => h.stays hst hterm hp) hcalm
      ⟨hin, fun r' hr' => by rw [hr, Option.some.injEq] at hr'; rw [hr']⟩
  cases hrow : t.row d with
  | none => exact .inl rfl
  | some r' => exact .inr ⟨r', rfl, hstays.2 r' hrow⟩

/-- One download, started. -/
def started : List Act :=
  .create Job.someKey :: List.replicate 4 (.creation 0 "dl_a") ++
    List.replicate 4 (.job "dl_a" (.call 0))

/-- Its worker runs to the end and returns. -/
def finishes : List Act :=
  ([.next, .next, .next, .complete, .next, .next] : List Move).map fun m =>
    .job "dl_a" (.worker 0 m)

/-- The state of its row. -/
def stateOf (s : Service) : Option RowState :=
  (s.row "dl_a").map Row.state

/-- A resume of the completed row is turned down. -/
theorem ended_stays_resume :
    ∃ s t, ReachBy step Careful (empty 50) s ∧ ReachBy step Careful s t ∧
      s.stateOf = some .completed ∧
      (t.row "dl_a" = none ∨ ∃ r', t.row "dl_a" = some r' ∧ r'.state = .completed) := by
  have hrun : ((runBy step Careful (empty 50) (started ++ finishes)).any fun s =>
      s.stateOf = some .completed ∧
      (runBy step Careful s [.job "dl_a" (.api .resume), .job "dl_a" (.call 1)]).isSome) =
        true := by decide +kernel
  obtain ⟨s, hs, hp⟩ := (Option.any_eq_true _ _).1 hrun
  obtain ⟨hst, ht⟩ := of_decide_eq_true hp
  obtain ⟨t, ht⟩ := Option.isSome_iff_exists.1 ht
  obtain ⟨r, hr, hrs⟩ := Option.map_eq_some_iff.1 hst
  refine ⟨s, t, .of_runBy hs, .of_runBy ht, hst, ?_⟩
  have hstays := ended_stays (.of_runBy hs) (.of_runBy ht) hr (.inl hrs)
  rwa [hrs] at hstays

/-- The console shuts down. -/
def shutsDown : List Act :=
  [.shutdown ["dl_a"], .shutdownStep 0] ++ List.replicate 4 (.job "dl_a" (.call 1))

/-- A row is completed and its worker has returned; a shutdown makes it `paused`. -/
theorem shutdown_reopens :
    ∃ s t, Reach step (empty 50) s ∧ Reach step s t ∧
      s.stateOf = some .completed ∧ t.stateOf = some .paused := by
  have hrun : ((runActs step (empty 50) (started ++ finishes)).any fun s =>
      s.stateOf = some .completed ∧
      (runActs step s shutsDown).any fun t => t.stateOf = some .paused) = true := by
    decide +kernel
  obtain ⟨s, hs, hp⟩ := (Option.any_eq_true _ _).1 hrun
  obtain ⟨hst, ht⟩ := of_decide_eq_true hp
  obtain ⟨t, ht, hpt⟩ := (Option.any_eq_true _ _).1 ht
  exact ⟨s, t, .of_runActs hs, .of_runActs ht, hst, of_decide_eq_true hpt⟩

end Service

end EngineConsole.Downloads
