import EngineConsole.DownloadJob

/-!
# Calls that do not overlap

`Orderly` is what holds of a row while its calls come one after another : the worker that
may still write the row, if there is one, is the one in the task map or the one the call in
flight holds (`Job.holder`), the row is in a state that fits where this worker is, and a
worker whose token is cancelled is awaited. It is kept by every step (`Orderly.step`), one
lemma for a step of a worker and one for a step of a call.
-/

set_option linter.unusedSectionVars false

namespace EngineConsole.Downloads

/-! ## The worker that may write -/

/-- It has not returned, nor is it about to after it failed. -/
def Worker.engaged (w : Worker) : Bool :=
  w.going && !(w.pc = .closing && w.last = some .failed)

/-- It has neither returned nor written how it ended. -/
def Worker.live (w : Worker) : Bool :=
  w.going && w.last = none

/-- The state of the row where a worker is, and what the worker wrote to get there. -/
def Worker.Fits (w : Worker) (s : RowState) : Prop :=
  match w.pc with
  | .start | .waiting | .admitted => w.last = none ∧ s = .queued
  | .busy | .node | .failing _ => w.last = none ∧ s = .running
  | .wrote | .rescan => w.last = some .completed ∧ s = .completed
  | .cancelling | .stopping _ =>
    w.token = true ∧ (w.last = none ∧ s.active ∨ w.last = some .completed ∧ s = .completed)
  | .cleaning | .closing => w.token = true ∧ w.last ≠ none
  | .ended | .finished => True

/-- Whom a call holds, or leaves in the task map. -/
def CallPc.holder (task : Option ℕ) : CallPc → Option ℕ
  | .read | .isLive | .stop .remove | .cancelOld _ | .answer => task
  | .stop (.intend t) | .stop (.check t) => t
  | .stop (.cancelToken w) | .stop (.await w) | .insert w => some w
  | _ => none

/-- The places an operation comes to. -/
def Op.at : Op → CallPc → Bool
  | .pause, .read | .resume, .read | .cancel, .read | .delete, .read => true
  | .cancel, .isLive | .delete, .isLive => true
  | .pause, .stop _ | .shutdown, .stop _ => true
  | .cancel, .stop pc | .delete, .stop pc => pc ≠ .park
  | .pause, .pauseRead | .pause, .pauseSet => true
  | .cancel, .setCancelled => true
  | .cancel, .cleanup | .delete, .cleanup => true
  | .delete, .deleteRow => true
  | .resume, .setQueued => true
  | .resume, .reread | .create, .reread => true
  | .resume, .forget | .create, .forget => true
  | .resume, .spawn | .create, .spawn => true
  | .resume, .insert _ | .create, .insert _ => true
  | .resume, .cancelOld _ | .create, .cancelOld _ => true
  | .pause, .answer | .cancel, .answer => true
  | _, _ => false

namespace Job

/-- Where the call in flight is, while there is at most one. -/
def pc (j : Job) : Option CallPc :=
  j.calls.head?.map Call.pc

/-- The only worker that may still write the row. -/
def holder (j : Job) : Option ℕ :=
  match j.pc with
  | some pc => pc.holder j.task
  | none => j.task

/-- No worker may write the row. -/
def Idle (j : Job) : Prop :=
  ∀ i w, j.workers i = some w → w.engaged = false

/-- What a call has made sure of where it is. -/
def Ready (j : Job) : CallPc → Prop
  | .setQueued => ∃ r, j.row = some r ∧ (r.state = .paused ∨ r.state = .failed)
  | .reread | .forget | .spawn => ∃ r, j.row = some r ∧ r.state = .queued
  | .insert w => j.task ≠ some w ∧ w < j.nextWorker
  | .cancelOld w => j.task ≠ some w
  | _ => True

/-- One call at a time. -/
structure Orderly (j : Job) : Prop where
  one : j.calls = [] ∨ ∃ k, j.calls = [k] ∧ k.op.at k.pc
  known : ∀ i, j.task = some i → i < j.nextWorker
  held : ∀ i w, j.workers i = some w → w.engaged → j.holder = some i
  fits : ∀ i w, j.workers i = some w → w.engaged → ∃ r, j.row = some r ∧ w.Fits r.state
  token : ∀ i w, j.workers i = some w → w.engaged → w.token →
    j.pc = some (.stop (.await i))
  ready : ∀ pc, j.pc = some pc → j.Ready pc

/-! ## Small facts -/

section

variable {j j' : Job} {k : Call} {i : ℕ} {w w' : Worker} {p : CallPc}

theorem pc_of_calls (h : j.calls = [k]) : j.pc = some k.pc := by
  simp [pc, h]

theorem pc_of_nil (h : j.calls = []) : j.pc = none := by
  simp [pc, h]

theorem holder_of_calls (h : j.calls = [k]) : j.holder = k.pc.holder j.task := by
  simp [holder, pc, h]

theorem holder_of_nil (h : j.calls = []) : j.holder = j.task := by
  simp [holder, pc, h]

theorem calls_goto (h : j.calls = [k]) (p : CallPc) :
    (j.goto k p).calls = [{ k with pc := p }] := by
  simp [goto, Keyed.update, h]

theorem calls_finish (h : j.calls = [k]) (a : Answer) : (j.finish k a).calls = [] := by
  simp [finish, Keyed.remove, h]

@[simp] theorem row_goto : (j.goto k p).row = j.row := rfl
@[simp] theorem task_goto : (j.goto k p).task = j.task := rfl
@[simp] theorem intent_goto : (j.goto k p).intent = j.intent := rfl
@[simp] theorem workers_goto : (j.goto k p).workers = j.workers := rfl
@[simp] theorem nextWorker_goto : (j.goto k p).nextWorker = j.nextWorker := rfl

@[simp] theorem row_finish {a : Answer} : (j.finish k a).row = j.row := rfl
@[simp] theorem task_finish {a : Answer} : (j.finish k a).task = j.task := rfl
@[simp] theorem intent_finish {a : Answer} : (j.finish k a).intent = j.intent := rfl
@[simp] theorem workers_finish {a : Answer} : (j.finish k a).workers = j.workers := rfl
@[simp] theorem nextWorker_finish {a : Answer} :
    (j.finish k a).nextWorker = j.nextWorker := rfl

@[simp] theorem row_leaveStop : (j.leaveStop k).row = j.row := by
  unfold leaveStop; split <;> rfl
@[simp] theorem workers_leaveStop : (j.leaveStop k).workers = j.workers := by
  unfold leaveStop; split <;> rfl

@[simp] theorem row_cancelToken : (j.cancelToken i).row = j.row := by
  unfold cancelToken; split <;> rfl
@[simp] theorem task_cancelToken : (j.cancelToken i).task = j.task := by
  unfold cancelToken; split <;> rfl
@[simp] theorem intent_cancelToken : (j.cancelToken i).intent = j.intent := by
  unfold cancelToken; split <;> rfl
@[simp] theorem calls_cancelToken : (j.cancelToken i).calls = j.calls := by
  unfold cancelToken; split <;> rfl
@[simp] theorem nextWorker_cancelToken : (j.cancelToken i).nextWorker = j.nextWorker := by
  unfold cancelToken; split <;> rfl

/-- Cancelling a token changes nothing else of the worker, and no other worker. -/
theorem worker_of_cancelToken {i' : ℕ} (h : (j.cancelToken i).workers i' = some w) :
    (i' ≠ i ∧ j.workers i' = some w) ∨
      (i' = i ∧ ∃ v, j.workers i = some v ∧ w = { v with token := true }) := by
  unfold cancelToken at h
  cases hv : j.workers i with
  | none =>
    rw [hv] at h
    refine .inl ⟨fun hi => ?_, h⟩
    simp [hi, hv] at h
  | some v =>
    rw [hv] at h
    by_cases hi : i' = i
    · obtain rfl := hi
      exact .inr ⟨rfl, v, rfl, by simpa [putWorker] using h.symm⟩
    · exact .inl ⟨hi, by simpa [putWorker, hi] using h⟩

theorem Worker.fits_token {s : RowState} (h : w.Fits s) : { w with token := true }.Fits s := by
  cases hpc : w.pc <;> simp_all [Worker.Fits]

theorem isFinished_eq_false (hw : j.workers i = some w) (he : w.engaged) :
    j.isFinished i = false := by
  cases hpc : w.pc <;> simp_all [isFinished, Worker.engaged, Worker.going]

theorem engaged_of_live (h : w.live) : w.engaged := by
  cases hpc : w.pc <;> simp_all [Worker.live, Worker.engaged, Worker.going]

theorem Worker.engaged_of_pc (h : w.pc ≠ .closing ∧ w.pc ≠ .ended ∧ w.pc ≠ .finished) :
    w.engaged := by
  simp [Worker.engaged, Worker.going, h]

/-- With nobody held nobody may write. -/
theorem Orderly.idle (h : j.Orderly) (hh : j.holder = none) : j.Idle := by
  intro i w hw
  cases he : w.engaged with
  | false => rfl
  | true => simp [h.held i w hw he] at hh

/-- The worker that is held has finished. -/
theorem Orderly.idle_of_finished (h : j.Orderly) (hh : j.holder = some i)
    (hf : j.isFinished i) : j.Idle := by
  intro i' w hw
  cases he : w.engaged with
  | false => rfl
  | true =>
    obtain rfl : i = i' := by simpa [hh] using h.held i' w hw he
    simp [isFinished_eq_false hw he] at hf

theorem Orderly.legal (h : j.Orderly) (hk : j.calls = [k]) : k.op.at k.pc := by
  obtain hnil | ⟨k', hk', hat⟩ := h.one
  · simp [hnil] at hk
  · obtain rfl : k' = k := by simpa [hk'] using hk
    exact hat

/-- A paused or failed row has no worker that may write it, but one that is awaited. -/
theorem Orderly.idle_of_parked (h : j.Orderly) (hawait : ∀ i, j.pc ≠ some (.stop (.await i)))
    {r : Row} (hr : j.row = some r) (hs : r.state = .paused ∨ r.state = .failed) : j.Idle := by
  intro i w hw
  cases he : w.engaged with
  | false => rfl
  | true =>
    obtain ⟨r', hr', hf⟩ := h.fits i w hw he
    obtain rfl : r = r' := by simpa [hr] using hr'
    have ht : w.token ≠ true := fun ht => hawait i (h.token i w hw he ht)
    cases hpc : w.pc <;> rcases hs with hs | hs <;>
      simp_all [Worker.Fits, Worker.engaged, Worker.going, RowState.active]

/-- Two workers that may write are one. -/
theorem Orderly.unique (h : j.Orderly) {i' : ℕ} (hw : j.workers i = some w) (he : w.engaged)
    (hw' : j.workers i' = some w') (he' : w'.engaged) : i = i' := by
  have h₁ := h.held i w hw he
  have h₂ := h.held i' w' hw' he'
  simpa [h₁] using h₂

theorem Idle.congr (h : j.Idle) (hw : j'.workers = j.workers) : j'.Idle := by
  intro i w hi
  exact h i w (hw ▸ hi)

/-- While nobody may write, only the call in flight matters. -/
theorem Idle.orderly (h : j.Idle)
    (hone : j.calls = [] ∨ ∃ k, j.calls = [k] ∧ k.op.at k.pc)
    (hknown : ∀ i, j.task = some i → i < j.nextWorker)
    (hready : ∀ pc, j.pc = some pc → j.Ready pc) : j.Orderly where
  one := hone
  known := hknown
  held i w hw he := by simp [h i w hw] at he
  fits i w hw he := by simp [h i w hw] at he
  token i w hw he := by simp [h i w hw] at he
  ready := hready

/-! ## What a step of a worker does -/

/-- A step that leaves the row. -/
structure Passes (j : Job) (w w' : Worker) : Prop where
  token : w'.token = w.token
  last : w'.last = w.last
  engaged : w'.engaged → w.engaged
  fits : ∀ {r}, j.row = some r → w.Fits r.state → w'.Fits r.state
  live : ∀ {r}, j.row = some r → w.Fits r.state → w.live → w'.live
  /-- A worker that comes to write an intent read it now. -/
  intent : ∀ x, w'.pc = .stopping x → w.pc = .cancelling ∧ x = j.intent.getD .paused

/-- What a step makes of a worker and of the row. -/
inductive Effect (j : Job) (w : Worker) (m : Move) : Worker → Option Row → Prop
  | pass {w' : Worker} (h : Passes j w w') : Effect j w m w' j.row
  | admitted (hpc : w.pc = .admitted) :
    Effect j w m { w with pc := .busy } (j.row.map fun r => { r with state := .running })
  | complete (hpc : w.pc = .busy) (hm : m = .complete) :
    Effect j w m { w with pc := .wrote, last := some .completed }
      (j.row.map fun r => { r with state := .completed })
  | stop (x : Intent) (hpc : w.pc = .stopping x) {pc : WorkerPc}
    (hpc' : pc = .cleaning ∨ pc = .closing) :
    Effect j w m { w with pc, last := some x.state }
      (j.row.map fun r => { r with state := x.state })
  | fail (error : String × String) (hpc : w.pc = .failing error) :
    Effect j w m { w with pc := .closing, last := some .failed }
      (j.row.map fun r => { r with state := .failed, error := some error })

theorem workerStep_effect {m : Move} (hs : j.workerStep i w m = some j') :
    ∃ w' row, Effect j w m w' row ∧ j' = { j with row }.putWorker i w' := by
  have pass : ∀ {w' m}, Passes j w w' → some (j.putWorker i w') = some j' →
      ∃ w' row, Effect j w m w' row ∧ j' = { j with row }.putWorker i w' :=
    fun hp hs => ⟨_, _, .pass hp, (Option.some.inj hs).symm⟩
  cases m with
  | next =>
    cases hpc : w.pc with
    | start =>
      cases hr : j.row with
      | some r =>
        refine pass ?_ (by simpa [workerStep, hpc, hr] using hs)
        constructor <;> simp_all [Worker.engaged, Worker.going, Worker.Fits, Worker.live]
      | none =>
        refine pass ?_ (by simpa [workerStep, hpc, hr] using hs)
        constructor <;> simp_all [Worker.engaged, Worker.going]
    | waiting =>
      refine pass ?_ (by simpa only [workerStep, hpc] using hs)
      cases ht : w.token <;>
        constructor <;> simp_all [Worker.engaged, Worker.going, Worker.Fits, Worker.live,
          RowState.active]
    | admitted =>
      exact ⟨_, _, .admitted hpc, by simpa [workerStep, hpc, setState] using hs.symm⟩
    | node =>
      refine pass ?_ (by simpa only [workerStep, hpc] using hs)
      cases ht : w.token <;>
        constructor <;> simp_all [Worker.engaged, Worker.going, Worker.Fits, Worker.live,
          RowState.active]
    | rescan =>
      refine pass ?_ (by simpa only [workerStep, hpc] using hs)
      cases ht : w.token <;>
        constructor <;> simp_all [Worker.engaged, Worker.going, Worker.Fits, Worker.live]
    | stopping x =>
      refine ⟨_, _, .stop x hpc ?_, by simpa [workerStep, hpc, setState] using hs.symm⟩
      cases x <;> simp
    | failing error =>
      exact ⟨_, _, .fail error hpc, by simpa [workerStep, hpc, setOutcome] using hs.symm⟩
    | wrote | cancelling | cleaning | closing | ended =>
      refine pass ?_ (by simpa only [workerStep, hpc] using hs)
      constructor <;> simp_all [Worker.engaged, Worker.going, Worker.Fits, Worker.live]
    | busy | finished => simp [workerStep, hpc] at hs
  | call =>
    cases hpc : w.pc with
    | busy | wrote =>
      refine pass ?_ (by simpa only [workerStep, hpc] using hs)
      constructor <;> simp_all [Worker.engaged, Worker.going, Worker.Fits, Worker.live]
    | _ => simp [workerStep, hpc] at hs
  | complete =>
    cases hpc : w.pc with
    | busy => exact ⟨_, _, .complete hpc rfl, by simpa [workerStep, hpc, setState] using hs.symm⟩
    | _ => simp [workerStep, hpc] at hs
  | fail error =>
    cases hpc : w.pc with
    | busy =>
      refine pass ?_ (by simpa only [workerStep, hpc] using hs)
      constructor <;> simp_all [Worker.engaged, Worker.going, Worker.Fits, Worker.live]
    | _ => simp [workerStep, hpc] at hs

/-! ## Steps of a worker -/

/-- Worker `i` goes from `w` to `w'`, and the row to `row`. -/
theorem Orderly.put (h : j.Orderly) (hw : j.workers i = some w) {row : Option Row}
    (he : w'.engaged → w.engaged) (ht : w'.token = w.token)
    (hrow : w.engaged ∨ row = j.row)
    (hfit : w'.engaged → ∃ r, row = some r ∧ w'.Fits r.state) :
    ({ j with row }.putWorker i w').Orderly := by
  have hothers : ∀ i' v, i' ≠ i → j.workers i' = some v → v.engaged → row = j.row := by
    intro i' v hne hv hve
    rcases hrow with hwe | hrow
    · exact absurd (h.unique hv hve hw hwe) hne
    · exact hrow
  refine ⟨h.one, h.known, ?_, ?_, ?_, ?_⟩
  · intro i' v hv hve
    by_cases hi : i' = i
    · obtain rfl := hi
      obtain rfl : w' = v := by simpa [putWorker] using hv
      exact h.held _ w hw (he hve)
    · exact h.held i' v (by simpa [putWorker, hi] using hv) hve
  · intro i' v hv hve
    by_cases hi : i' = i
    · obtain rfl := hi
      obtain rfl : w' = v := by simpa [putWorker] using hv
      exact hfit hve
    · have hv' : j.workers i' = some v := by simpa [putWorker, hi] using hv
      have hsame := hothers i' v hi hv' hve
      exact hsame ▸ h.fits i' v hv' hve
  · intro i' v hv hve htok
    by_cases hi : i' = i
    · obtain rfl := hi
      obtain rfl : w' = v := by simpa [putWorker] using hv
      exact h.token _ w hw (he hve) (ht ▸ htok)
    · exact h.token i' v (by simpa [putWorker, hi] using hv) hve htok
  · intro p hp
    have hr := h.ready p hp
    rcases hrow with hwe | hrow
    · -- a call that relies on the row holds nobody
      have hheld := h.held i w hw hwe
      have hp' : j.pc = some p := hp
      cases p <;> simp [holder, hp', CallPc.holder, Ready] at hheld hr ⊢ <;> exact hr
    · obtain rfl := hrow
      exact hr

theorem Orderly.worker (h : j.Orderly) (hw : j.workers i = some w) {m : Move}
    (hs : j.workerStep i w m = some j') : j'.Orderly := by
  obtain ⟨w', row, heff, rfl⟩ := workerStep_effect hs
  cases heff with
  | pass hp =>
    refine h.put hw hp.engaged hp.token (.inr rfl) fun he' => ?_
    obtain ⟨r, hr, hf⟩ := h.fits i w hw (hp.engaged he')
    exact ⟨r, hr, hp.fits hr hf⟩
  | admitted hpc =>
    have hwe : w.engaged := Worker.engaged_of_pc (by simp [hpc])
    obtain ⟨r, hr, hf⟩ := h.fits i w hw hwe
    refine h.put hw (fun _ => hwe) rfl (.inl hwe) fun _ => ⟨_, by rw [hr]; rfl, ?_⟩
    simp_all [Worker.Fits]
  | complete hpc =>
    have hwe : w.engaged := Worker.engaged_of_pc (by simp [hpc])
    obtain ⟨r, hr, hf⟩ := h.fits i w hw hwe
    exact h.put hw (fun _ => hwe) rfl (.inl hwe) fun _ =>
      ⟨_, by rw [hr]; rfl, by simp [Worker.Fits]⟩
  | stop intent hpc hpc' =>
    have hwe : w.engaged := Worker.engaged_of_pc (by simp [hpc])
    obtain ⟨r, hr, hf⟩ := h.fits i w hw hwe
    refine h.put hw (fun _ => hwe) rfl (.inl hwe) fun _ => ⟨_, by rw [hr]; rfl, ?_⟩
    have htok : w.token = true := by simp_all [Worker.Fits]
    rcases hpc' with rfl | rfl <;> simp [Worker.Fits, htok]
  | fail error hpc =>
    have hwe : w.engaged := Worker.engaged_of_pc (by simp [hpc])
    exact h.put hw (fun _ => hwe) rfl (.inl hwe) fun he' => by
      simp [Worker.engaged, Worker.going] at he'

/-! ## Steps of a call -/

theorem pc_goto (h : j.calls = [k]) (p : CallPc) : (j.goto k p).pc = some p :=
  pc_of_calls (calls_goto h p)

/-- The workers and the row stay, and so does whom the call holds. -/
theorem Orderly.pass (h : j.Orderly) (hw : j'.workers = j.workers) (hrow : j'.row = j.row)
    (hawait : ∀ i, j.pc ≠ some (.stop (.await i)))
    (hheld : ∀ i, j.holder = some i → j'.holder = some i)
    (hone : j'.calls = [] ∨ ∃ k, j'.calls = [k] ∧ k.op.at k.pc)
    (hknown : ∀ i, j'.task = some i → i < j'.nextWorker)
    (hready : ∀ pc, j'.pc = some pc → j'.Ready pc) : j'.Orderly where
  one := hone
  known := hknown
  held i w hi he := hheld i (h.held i w (hw ▸ hi) he)
  fits i w hi he := hrow ▸ h.fits i w (hw ▸ hi) he
  token i w hi he ht := absurd (h.token i w (hw ▸ hi) he ht) (hawait i)
  ready := hready

/-- The call goes on. -/
theorem Orderly.goto (h : j.Orderly) (hk : j.calls = [k]) (p : CallPc) (hat : k.op.at p)
    (hawait : ∀ i, k.pc ≠ .stop (.await i))
    (hheld : ∀ i, k.pc.holder j.task = some i → p.holder j.task = some i)
    (hready : j.Ready p) : (j.goto k p).Orderly := by
  refine h.pass rfl rfl ?_ ?_ (.inr ⟨_, calls_goto hk p, hat⟩) h.known ?_
  · simpa [pc_of_calls hk] using hawait
  · simpa [holder_of_calls hk, holder_of_calls (calls_goto hk p)] using hheld
  · intro p' hp'
    obtain rfl : p = p' := by simpa [pc_goto hk] using hp'
    cases p <;> exact hready

/-- The call goes on while nobody may write. -/
theorem Idle.goto (h : j.Idle) (hk : j.calls = [k]) (p : CallPc) (hat : k.op.at p)
    (hknown : ∀ i, j.task = some i → i < j.nextWorker) (hready : j.Ready p) :
    (j.goto k p).Orderly := by
  have h' : (j.goto k p).Idle := h
  refine h'.orderly (.inr ⟨_, calls_goto hk p, hat⟩) hknown ?_
  intro p' hp'
  obtain rfl : p = p' := by simpa [pc_goto hk] using hp'
  cases p <;> exact hready

/-- The call returns. -/
theorem Orderly.finish (h : j.Orderly) (hk : j.calls = [k]) (a : Answer)
    (hawait : ∀ i, k.pc ≠ .stop (.await i))
    (hheld : ∀ i, k.pc.holder j.task = some i → j.task = some i) :
    (j.finish k a).Orderly := by
  have hnil := calls_finish hk a
  refine h.pass rfl rfl ?_ ?_ (.inl hnil) h.known (by simp [pc_of_nil hnil])
  · simpa [pc_of_calls hk] using hawait
  · simpa [holder_of_calls hk, holder_of_nil hnil] using hheld

/-- The call returns while nobody may write. -/
theorem Idle.finish (h : j.Idle) (hk : j.calls = [k]) (a : Answer)
    (hknown : ∀ i, j.task = some i → i < j.nextWorker) : (j.finish k a).Orderly :=
  have h' : (j.finish k a).Idle := h
  h'.orderly (.inl (calls_finish hk a)) hknown (by simp [pc_of_nil (calls_finish hk a)])

/-- The call leaves `stop_task`. -/
theorem Idle.leaveStop (h : j.Idle) (hk : j.calls = [k])
    (hknown : ∀ i, j.task = some i → i < j.nextWorker) :
    (j.leaveStop k).Orderly := by
  unfold Job.leaveStop afterStop
  cases hop : k.op with
  | pause => exact h.goto hk _ (by simp [hop, Op.at]) hknown trivial
  | cancel => exact h.goto hk _ (by simp [hop, Op.at]) hknown trivial
  | delete =>
    simp only
    split
    · exact h.goto hk _ (by simp [hop, Op.at]) hknown trivial
    · exact h.goto hk _ (by simp [hop, Op.at]) hknown trivial
  | create => exact h.finish hk _ hknown
  | resume => exact h.finish hk _ hknown
  | shutdown => exact h.finish hk _ hknown

theorem Orderly.stop (h : j.Orderly) (hk : j.calls = [k]) {pc : StopPc}
    (hpc : k.pc = .stop pc) (hs : j.stopStep k pc = some j') : j'.Orderly := by
  have hat := h.legal hk
  have hh := holder_of_calls hk
  rw [hpc] at hat hh
  have hat' : ∀ p : StopPc, p ≠ .park → k.op.at (.stop p) := by
    intro p hp
    cases hop : k.op <;> simp_all [Op.at]
  -- the last steps of `stop_task`, once nobody may write
  have hleave : j.Idle → ∀ j', (if k.op.intent = .paused then some (j.goto k (.stop .park))
      else some (j.leaveStop k)) = some j' → j'.Orderly := by
    intro hidle j' hs
    split at hs
    · obtain rfl := Option.some.inj hs
      refine hidle.goto hk _ ?_ h.known trivial
      cases hop : k.op <;> simp_all [Op.at, Op.intent]
    · obtain rfl := Option.some.inj hs
      exact hidle.leaveStop hk h.known
  cases pc with
  | remove =>
    obtain rfl := Option.some.inj hs
    have hc := calls_goto (j := { j with task := none }) hk (.stop (.intend j.task))
    refine h.pass rfl rfl (by simp [pc_of_calls hk, hpc]) ?_
      (.inr ⟨_, hc, hat' _ (by simp)⟩) (by simp) ?_
    · simp [hh, holder_of_calls hc, CallPc.holder]
    · simp [pc_of_calls hc, Ready]
  | intend t =>
    obtain rfl := Option.some.inj hs
    have hc := calls_goto (j := { j with intent := some k.op.intent }) hk (.stop (.check t))
    refine h.pass rfl rfl (by simp [pc_of_calls hk, hpc]) ?_
      (.inr ⟨_, hc, hat' _ (by simp)⟩) h.known ?_
    · simp [hh, holder_of_calls hc, CallPc.holder]
    · simp [pc_of_calls hc, Ready]
  | check t =>
    cases t with
    | none => exact hleave (h.idle hh) j' hs
    | some i =>
      simp only [stopStep] at hs
      split at hs
      · exact hleave (h.idle_of_finished hh ‹_›) j' hs
      · obtain rfl := Option.some.inj hs
        exact h.goto hk _ (hat' _ (by simp)) (by simp [hpc])
          (by simp [hpc, CallPc.holder]) trivial
  | cancelToken i =>
    obtain rfl := Option.some.inj hs
    have hc := calls_goto (j := j.cancelToken i) (by simpa using hk) (.stop (.await i))
    refine ⟨.inr ⟨_, hc, hat' _ (by simp)⟩, by simpa using h.known, ?_, ?_, ?_, ?_⟩
    · intro i' w hw he
      rw [holder_of_calls hc]
      rcases worker_of_cancelToken hw with ⟨_, hv⟩ | ⟨rfl, _, _, _⟩
      · rw [← h.held i' w hv he, hh]
        rfl
      · rfl
    · intro i' w hw he
      rcases worker_of_cancelToken hw with ⟨_, hv⟩ | ⟨rfl, v, hv, rfl⟩
      · simpa using h.fits i' w hv he
      · obtain ⟨r, hr, hf⟩ := h.fits i' v hv he
        exact ⟨r, by simpa using hr, Worker.fits_token hf⟩
    · intro i' w hw he _
      rw [pc_of_calls hc]
      rcases worker_of_cancelToken hw with ⟨_, hv⟩ | ⟨rfl, _, _, _⟩
      · obtain rfl : i = i' := by simpa [hh, CallPc.holder] using h.held i' w hv he
        rfl
      · rfl
    · simp [pc_of_calls hc, Ready]
  | await i =>
    simp only [stopStep] at hs
    split at hs
    · obtain rfl := Option.some.inj hs
      exact (h.idle_of_finished hh ‹_›).leaveStop hk h.known
    · cases hs
  | park =>
    obtain rfl := Option.some.inj hs
    exact Idle.leaveStop (j := j.setState .paused) (h.idle hh) hk h.known

theorem Orderly.call (h : j.Orderly) (hk : j.calls = [k]) (hs : j.callStep k = some j') :
    j'.Orderly := by
  have hat := h.legal hk
  have hh := holder_of_calls hk
  have hr := h.ready k.pc (pc_of_calls hk)
  cases hpc : k.pc with
  | read =>
    rw [hpc] at hat hh
    simp only [callStep, hpc, readStep] at hs
    cases hrow : j.row with
    | none =>
      rw [hrow] at hs
      obtain rfl := Option.some.inj hs
      exact h.finish hk _ (by simp [hpc]) (by simp [hpc, CallPc.holder])
    | some r =>
      rw [hrow] at hs
      cases hop : k.op with
      | pause =>
        simp only [hop] at hs
        split at hs
        · obtain rfl := Option.some.inj hs
          exact h.goto hk _ (by simp [hop, Op.at]) (by simp [hpc]) (by simp [hpc, CallPc.holder])
            trivial
        · obtain rfl := Option.some.inj hs
          exact h.finish hk _ (by simp [hpc]) (by simp [hpc, CallPc.holder])
      | resume =>
        simp only [hop] at hs
        split at hs
        · obtain rfl := Option.some.inj hs
          rename_i hst
          have hst' : r.state = .paused ∨ r.state = .failed := by simpa using hst
          refine Idle.goto ?_ hk _ (by simp [hop, Op.at]) h.known ⟨r, hrow, hst'⟩
          exact h.idle_of_parked (by simp [pc_of_calls hk, hpc]) hrow hst'
        · obtain rfl := Option.some.inj hs
          exact h.finish hk _ (by simp [hpc]) (by simp [hpc, CallPc.holder])
      | cancel =>
        simp only [hop] at hs
        split at hs
        · obtain rfl := Option.some.inj hs
          exact h.finish hk _ (by simp [hpc]) (by simp [hpc, CallPc.holder])
        · obtain rfl := Option.some.inj hs
          exact h.goto hk _ (by simp [hop, Op.at]) (by simp [hpc]) (by simp [hpc, CallPc.holder])
            trivial
      | delete =>
        simp only [hop, Option.some.injEq] at hs
        subst hs
        have hc : (Keyed.update Call.id k.id (fun k =>
            { k with pc := .isLive, completed := r.state = .completed }) j.calls) =
            [{ k with pc := .isLive, completed := r.state = .completed }] := by
          simp [Keyed.update, hk]
        refine h.pass rfl hrow.symm (by simp [pc_of_calls hk, hpc]) ?_
          (.inr ⟨_, hc, by simp [hop, Op.at]⟩) h.known ?_
        · exact fun i hi => Eq.trans (holder_of_calls hc) (hh ▸ hi)
        · simp [Job.pc, hc, Ready]
      | create => simp [hop] at hs
      | shutdown => simp [hop] at hs
  | isLive =>
    rw [hpc] at hat hh
    simp only [callStep, hpc, Option.some.injEq] at hs
    subst hs
    have hc : (Keyed.update Call.id k.id (fun k =>
        { k with pc := .stop .remove, live := j.isLive }) j.calls) =
        [{ k with pc := .stop .remove, live := j.isLive }] := by
      simp [Keyed.update, hk]
    refine h.pass rfl rfl (by simp [pc_of_calls hk, hpc]) ?_ (.inr ⟨_, hc, ?_⟩) h.known ?_
    · exact fun i hi => Eq.trans (holder_of_calls hc) (hh ▸ hi)
    · cases hop : k.op <;> simp_all [Op.at]
    · simp [Job.pc, hc, Ready]
  | stop pc => exact h.stop hk hpc (by simpa [callStep, hpc] using hs)
  | pauseRead =>
    rw [hpc] at hat hh
    have hidle := h.idle hh
    have hop : k.op = .pause := by cases hop : k.op <;> simp_all [Op.at]
    simp only [callStep, hpc] at hs
    split at hs
    · obtain rfl := Option.some.inj hs
      exact hidle.finish hk _ h.known
    · obtain rfl := Option.some.inj hs
      split
      · exact hidle.goto hk _ (by simp [hop, Op.at]) h.known trivial
      · exact hidle.goto hk _ (by simp [hop, Op.at]) h.known trivial
  | pauseSet =>
    rw [hpc] at hat hh
    have hop : k.op = .pause := by cases hop : k.op <;> simp_all [Op.at]
    simp only [callStep, hpc, Option.some.injEq] at hs
    subst hs
    exact Idle.goto (j := j.setState .paused) (h.idle hh) hk _ (by simp [hop, Op.at]) h.known
      trivial
  | setCancelled =>
    rw [hpc] at hat hh
    have hop : k.op = .cancel := by cases hop : k.op <;> simp_all [Op.at]
    simp only [callStep, hpc, Option.some.injEq] at hs
    subst hs
    split
    · exact Idle.goto (j := j.setState .cancelled) (h.idle hh) hk _ (by simp [hop, Op.at])
        h.known trivial
    · exact Idle.goto (j := j.setState .cancelled) (h.idle hh) hk _ (by simp [hop, Op.at])
        h.known trivial
  | cleanup =>
    rw [hpc] at hat hh
    simp only [callStep, hpc, Option.some.injEq] at hs
    subst hs
    split
    · exact (h.idle hh).goto hk _ (by simp [*, Op.at]) h.known trivial
    · have hop : k.op = .cancel := by cases hop : k.op <;> simp_all [Op.at]
      exact (h.idle hh).goto hk _ (by simp [hop, Op.at]) h.known trivial
  | deleteRow =>
    rw [hpc] at hh
    simp only [callStep, hpc, Option.some.injEq] at hs
    subst hs
    exact Idle.finish (j := { j with row := none }) (h.idle hh) hk _ h.known
  | setQueued =>
    rw [hpc] at hat hh hr
    obtain ⟨r, hrow, _⟩ := hr
    have hop : k.op = .resume := by cases hop : k.op <;> simp_all [Op.at]
    simp only [callStep, hpc, Option.some.injEq] at hs
    subst hs
    exact Idle.goto (j := j.setOutcome .queued none) (h.idle hh) hk _ (by simp [hop, Op.at])
      h.known ⟨_, by simp [setOutcome, hrow]; rfl, rfl⟩
  | reread =>
    rw [hpc] at hat hh hr
    simp only [callStep, hpc] at hs
    split at hs
    · obtain rfl := Option.some.inj hs
      exact (h.idle hh).finish hk _ h.known
    · obtain rfl := Option.some.inj hs
      refine (h.idle hh).goto hk _ ?_ h.known hr
      cases hop : k.op <;> simp_all [Op.at]
  | forget =>
    rw [hpc] at hat hh hr
    simp only [callStep, hpc, Option.some.injEq] at hs
    subst hs
    refine Idle.goto (j := { j with intent := none }) (h.idle hh) hk _ ?_ h.known hr
    cases hop : k.op <;> simp_all [Op.at]
  | spawn =>
    rw [hpc] at hat hh hr
    obtain ⟨r, hrow, hq⟩ := hr
    have hidle := h.idle hh
    simp only [callStep, hpc, Option.some.injEq] at hs
    subst hs
    have hc := calls_goto (j := { j.putWorker j.nextWorker .new with nextWorker := j.nextWorker + 1 })
      hk (.insert j.nextWorker)
    have hnew : ∀ i w, (j.putWorker j.nextWorker .new).workers i = some w → w.engaged →
        i = j.nextWorker ∧ w = .new := by
      intro i w hw he
      by_cases hi : i = j.nextWorker
      · exact ⟨hi, by simpa [putWorker, hi] using hw.symm⟩
      · have hw' : j.workers i = some w := by simpa [putWorker, hi] using hw
        simp [hidle i w hw'] at he
    refine ⟨.inr ⟨_, hc, ?_⟩, ?_, ?_, ?_, ?_, ?_⟩
    · cases hop : k.op <;> simp_all [Op.at]
    · exact fun i hi => Nat.lt_succ_of_lt (h.known i hi)
    · intro i w hw he
      rw [holder_of_calls hc, (hnew i w hw he).1]
      rfl
    · intro i w hw he
      obtain rfl := (hnew i w hw he).2
      exact ⟨r, hrow, by simp [Worker.Fits, Worker.new, hq]⟩
    · intro i w hw he ht
      obtain rfl := (hnew i w hw he).2
      simp [Worker.new] at ht
    · intro p hp
      obtain rfl : CallPc.insert j.nextWorker = p := by simpa [pc_of_calls hc] using hp
      exact ⟨fun ht => absurd (h.known _ ht) (Nat.lt_irrefl _), Nat.lt_succ_self _⟩
  | insert i =>
    rw [hpc] at hat hh hr
    simp only [callStep, hpc] at hs
    split at hs
    · obtain rfl := Option.some.inj hs
      rename_i old hold
      have hc := calls_goto (j := { j with task := some i }) hk (.cancelOld old)
      refine h.pass rfl rfl (by simp [pc_of_calls hk, hpc]) ?_ (.inr ⟨_, hc, ?_⟩) ?_ ?_
      · simp [hh, holder_of_calls hc, CallPc.holder]
      · cases hop : k.op <;> simp_all [Op.at]
      · intro i' hi'
        obtain rfl : i = i' := by simpa using hi'
        exact hr.2
      · intro p hp
        obtain rfl : CallPc.cancelOld old = p := by simpa [pc_of_calls hc] using hp
        have hne : i ≠ old := fun hi => hr.1 (hold.trans (congrArg some hi.symm))
        simpa [Ready] using hne
    · obtain rfl := Option.some.inj hs
      have hc := calls_finish (j := { j with task := some i }) hk .done
      refine h.pass rfl rfl (by simp [pc_of_calls hk, hpc]) ?_ (.inl hc) ?_
        (by simp [pc_of_nil hc])
      · simp [hh, holder_of_nil hc, CallPc.holder]
      · intro i' hi'
        obtain rfl : i = i' := by simpa using hi'
        exact hr.2
  | cancelOld i =>
    rw [hpc] at hh hr
    simp only [callStep, hpc, Option.some.injEq] at hs
    subst hs
    have hc := calls_finish (j := j.cancelToken i) (by simpa using hk) .done
    have hold : ∀ i' w, (j.cancelToken i).workers i' = some w → w.engaged →
        j.workers i' = some w := by
      intro i' w hw he
      rcases worker_of_cancelToken hw with ⟨_, hv⟩ | ⟨rfl, v, hv, rfl⟩
      · exact hv
      · exact absurd (h.held i' v hv he) (hh ▸ hr)
    refine ⟨.inl hc, by simpa using h.known, ?_, ?_, ?_, by simp [pc_of_nil hc]⟩
    · intro i' w hw he
      rw [holder_of_nil hc, ← h.held i' w (hold i' w hw he) he, hh]
      simp [CallPc.holder]
    · intro i' w hw he
      simpa using h.fits i' w (hold i' w hw he) he
    · intro i' w hw he ht
      have hp := h.token i' w (hold i' w hw he) he ht
      simp [pc_of_calls hk, hpc] at hp
  | answer =>
    rw [hpc] at hh
    simp only [callStep, hpc, Option.some.injEq] at hs
    subst hs
    exact h.finish hk _ (by simp [hpc]) (by simp [hpc, CallPc.holder])

/-- What a step of a call makes of the row. -/
inductive RowEffect (j : Job) (k : Call) : Option Row → Prop
  | same : RowEffect j k j.row
  | pause (hpc : k.pc = .stop .park ∨ k.pc = .pauseSet) :
    RowEffect j k (j.row.map fun r => { r with state := .paused })
  | cancel (hpc : k.pc = .setCancelled) :
    RowEffect j k (j.row.map fun r => { r with state := .cancelled })
  | queue (hpc : k.pc = .setQueued) :
    RowEffect j k (j.row.map fun r => { r with state := .queued, error := none })
  | delete (hpc : k.pc = .deleteRow) : RowEffect j k none

theorem stopStep_row {q : StopPc} (hpc : k.pc = .stop q) (hs : j.stopStep k q = some j') :
    RowEffect j k j'.row := by
  have hsame : ∀ {j₁ : Job}, some j₁ = some j' → j₁.row = j.row → RowEffect j k j'.row := by
    intro j₁ hj hr
    rw [← Option.some.inj hj, hr]
    exact .same
  cases q with
  | remove | intend => exact hsame hs rfl
  | check t =>
    cases t <;> simp only [stopStep] at hs <;> split at hs <;> (try split at hs) <;>
      exact hsame hs (by simp)
  | cancelToken => exact hsame hs (by simp)
  | await =>
    simp only [stopStep] at hs
    split at hs
    · exact hsame hs (by simp)
    · cases hs
  | park =>
    obtain rfl := Option.some.inj hs
    rw [row_leaveStop]
    exact .pause (.inl hpc)

theorem callStep_row (hs : j.callStep k = some j') : RowEffect j k j'.row := by
  have hsame : ∀ {j₁ : Job}, some j₁ = some j' → j₁.row = j.row → RowEffect j k j'.row := by
    intro j₁ hj hr
    rw [← Option.some.inj hj, hr]
    exact .same
  cases hpc : k.pc with
  | read =>
    simp only [callStep, hpc, readStep] at hs
    cases hrow : j.row with
    | none =>
      rw [hrow] at hs
      exact hsame hs rfl
    | some r =>
      rw [hrow] at hs
      cases hop : k.op <;> simp only [hop] at hs
      case pause | resume | cancel => split at hs <;> exact hsame hs rfl
      case delete => exact hsame hs hrow.symm
      all_goals cases hs
  | stop q => exact stopStep_row hpc (by simpa [callStep, hpc] using hs)
  | isLive | cleanup | forget | spawn | answer =>
    simp only [callStep, hpc] at hs
    exact hsame hs rfl
  | pauseRead | reread | insert =>
    simp only [callStep, hpc] at hs
    split at hs <;> exact hsame hs rfl
  | pauseSet =>
    obtain rfl : _ = j' := by simpa [callStep, hpc] using hs
    exact .pause (.inr hpc)
  | setCancelled =>
    obtain rfl : _ = j' := by simpa [callStep, hpc] using hs
    exact .cancel hpc
  | setQueued =>
    obtain rfl : _ = j' := by simpa [callStep, hpc] using hs
    exact .queue hpc
  | deleteRow =>
    obtain rfl : _ = j' := by simpa [callStep, hpc] using hs
    exact .delete hpc
  | cancelOld =>
    simp only [callStep, hpc] at hs
    exact hsame hs (by simp)

/-- The workers stay, but for tokens and a new one. -/
def SameWorkers (j j' : Job) : Prop :=
  ∀ i w, j'.workers i = some w →
    (∃ v, j.workers i = some v ∧ v.pc = w.pc ∧ v.last = w.last) ∨ w = .new

theorem SameWorkers.of_eq (h : j'.workers = j.workers) : SameWorkers j j' :=
  fun _ w hi => .inl ⟨w, h ▸ hi, rfl, rfl⟩

theorem sameWorkers_cancelToken (i : ℕ) : SameWorkers j (j.cancelToken i) := by
  intro i' w hw
  rcases worker_of_cancelToken hw with ⟨_, hv⟩ | ⟨rfl, v, hv, rfl⟩
  · exact .inl ⟨w, hv, rfl, rfl⟩
  · exact .inl ⟨v, hv, rfl, rfl⟩

theorem stopStep_sameWorkers {q : StopPc} (hs : j.stopStep k q = some j') :
    SameWorkers j j' := by
  have hsame : ∀ {j₁ : Job}, some j₁ = some j' → j₁.workers = j.workers → SameWorkers j j' :=
    fun hj hw => Option.some.inj hj ▸ .of_eq hw
  cases q with
  | remove | intend => exact hsame hs rfl
  | check t =>
    cases t <;> simp only [stopStep] at hs <;> split at hs <;> (try split at hs) <;>
      exact hsame hs (by simp)
  | cancelToken i =>
    obtain rfl := Option.some.inj hs
    exact sameWorkers_cancelToken i
  | await =>
    simp only [stopStep] at hs
    split at hs
    · exact hsame hs (by simp)
    · cases hs
  | park => exact hsame hs (by simp [setState])

theorem callStep_sameWorkers (hs : j.callStep k = some j') : SameWorkers j j' := by
  have hsame : ∀ {j₁ : Job}, some j₁ = some j' → j₁.workers = j.workers → SameWorkers j j' :=
    fun hj hw => Option.some.inj hj ▸ .of_eq hw
  cases hpc : k.pc with
  | read =>
    simp only [callStep, hpc, readStep] at hs
    cases hrow : j.row with
    | none =>
      rw [hrow] at hs
      exact hsame hs rfl
    | some r =>
      rw [hrow] at hs
      cases hop : k.op <;> simp only [hop] at hs
      case pause | resume | cancel => split at hs <;> exact hsame hs rfl
      case delete => exact hsame hs rfl
      all_goals cases hs
  | stop q => exact stopStep_sameWorkers (by simpa [callStep, hpc] using hs)
  | isLive | cleanup | forget | answer | pauseSet | setCancelled | setQueued | deleteRow =>
    simp only [callStep, hpc] at hs
    exact hsame hs rfl
  | pauseRead | reread | insert =>
    simp only [callStep, hpc] at hs
    split at hs <;> exact hsame hs rfl
  | spawn =>
    simp only [callStep, hpc, Option.some.injEq] at hs
    subst hs
    intro i w hw
    by_cases hi : i = j.nextWorker
    · exact .inr (by simpa [putWorker, hi] using hw.symm)
    · exact .inl ⟨w, by simpa [putWorker, hi] using hw, rfl, rfl⟩
  | cancelOld i =>
    simp only [callStep, hpc, Option.some.injEq] at hs
    subst hs
    exact sameWorkers_cancelToken i

/-! ## Intents -/

/-- A worker that is stopped is told what the call that stops it means. -/
structure Obeyed (j : Job) : Prop extends j.Orderly where
  /-- From `intend` on, the intent is the one of the call. -/
  intended : ∀ k, j.calls = [k] →
    ∀ p, k.pc = .stop p → p ≠ .remove → (∀ t, p ≠ .intend t) → j.intent = some k.op.intent
  stopping : ∀ i w x, j.workers i = some w → w.pc = .stopping x →
    ∃ k, j.calls = [k] ∧ x = k.op.intent

/-- A worker about to write an intent is awaited. -/
theorem Orderly.await_of_stopping (h : j.Orderly) (hw : j.workers i = some w) {x : Intent}
    (hpc : w.pc = .stopping x) : j.pc = some (.stop (.await i)) := by
  have he : w.engaged := Worker.engaged_of_pc (by simp [hpc])
  obtain ⟨r, hr, hf⟩ := h.fits i w hw he
  exact h.token i w hw he (by simp_all [Worker.Fits])

theorem Obeyed.worker (h : j.Obeyed) (hw : j.workers i = some w) {m : Move}
    (hs : j.workerStep i w m = some j') : j'.Obeyed := by
  have hord := h.toOrderly.worker hw hs
  obtain ⟨w', row, heff, rfl⟩ := workerStep_effect hs
  refine { hord with intended := h.intended, stopping := ?_ }
  intro i' v x hv hx
  by_cases hi : i' = i
  · obtain rfl := hi
    obtain rfl : w' = v := by simpa [putWorker] using hv
    cases heff with
    | pass hp =>
      obtain ⟨hpc, rfl⟩ := hp.intent x hx
      -- a cancelled worker is awaited, by the call whose intent it reads
      have he : w.engaged := Worker.engaged_of_pc (by simp [hpc])
      obtain ⟨r, hr, hf⟩ := h.fits i' w hw he
      have ha := h.token i' w hw he (by simp_all [Worker.Fits])
      obtain hnil | ⟨k, hk, _⟩ := h.one
      · simp [pc_of_nil hnil] at ha
      · refine ⟨k, hk, ?_⟩
        have hkpc : k.pc = .stop (.await i') := by simpa [pc_of_calls hk] using ha
        rw [h.intended k hk _ hkpc (by simp) (by simp)]
        rfl
    | stop y _ hpc' => rcases hpc' with rfl | rfl <;> simp at hx
    | _ => simp at hx
  · exact h.stopping i' v x (by simpa [putWorker, hi] using hv) hx

/-- Where a call goes, and what the intent is then. -/
def Follows (j : Job) (k : Call) (j' : Job) : Prop :=
  j'.calls = [] ∨ ∃ k', j'.calls = [k'] ∧ k'.op = k.op ∧
    ∀ p, k'.pc = .stop p → p = .remove ∨ ∃ q, k.pc = .stop q ∧
      ((∃ t, p = .intend t) ∨ j'.intent = some k.op.intent ∨
        (q ≠ .remove ∧ (∀ t, q ≠ .intend t) ∧ j'.intent = j.intent))

/-- A step to a place outside `stop_task`, or to its start. -/
theorem follows_goto {j₁ : Job} (hk : j₁.calls = [k]) {p : CallPc}
    (hp : ∀ q, p = .stop q → q = .remove) : Follows j k (j₁.goto k p) :=
  .inr ⟨_, calls_goto hk p, rfl, fun q hq => .inl (hp q hq)⟩

theorem follows_leaveStop {j₁ : Job} (hk : j₁.calls = [k]) : Follows j k (j₁.leaveStop k) := by
  unfold leaveStop afterStop
  cases k.op with
  | pause | cancel => exact follows_goto hk (by simp)
  | delete => exact follows_goto hk (by split <;> simp)
  | create | resume | shutdown => exact .inl (calls_finish hk _)

theorem stopStep_follows (hk : j.calls = [k]) {q : StopPc} (hpc : k.pc = .stop q)
    (hs : j.stopStep k q = some j') : Follows j k j' := by
  -- from `check` on the intent stays
  have hstay : ∀ {j₁ : Job} {p : StopPc}, some (j₁.goto k (.stop p)) = some j' →
      j₁.calls = [k] → j₁.intent = j.intent → q ≠ .remove → (∀ t, q ≠ .intend t) →
      Follows j k j' := by
    intro j₁ p hj hk₁ hint hq hq'
    obtain rfl := Option.some.inj hj
    exact .inr ⟨_, calls_goto hk₁ _, rfl, fun p' _ =>
      .inr ⟨q, hpc, .inr (.inr ⟨hq, hq', hint⟩)⟩⟩
  cases q with
  | remove =>
    obtain rfl := Option.some.inj hs
    refine .inr ⟨_, calls_goto (j := { j with task := none }) hk _, rfl, fun p hp => ?_⟩
    exact .inr ⟨.remove, hpc, .inl ⟨j.task, by simpa using hp.symm⟩⟩
  | intend t =>
    obtain rfl := Option.some.inj hs
    refine .inr ⟨_, calls_goto (j := { j with intent := some k.op.intent }) hk _, rfl,
      fun p _ => .inr ⟨.intend t, hpc, .inr (.inl rfl)⟩⟩
  | check t =>
    have hleave : (if k.op.intent = .paused then some (j.goto k (.stop .park))
        else some (j.leaveStop k)) = some j' → Follows j k j' := by
      intro hs
      split at hs
      · exact hstay hs hk rfl (by simp) (by simp)
      · obtain rfl := Option.some.inj hs
        exact follows_leaveStop hk
    cases t with
    | none => exact hleave hs
    | some i =>
      simp only [stopStep] at hs
      split at hs
      · exact hleave hs
      · exact hstay hs hk rfl (by simp) (by simp)
  | cancelToken i =>
    exact hstay hs (by simpa using hk) (by simp) (by simp) (by simp)
  | await i =>
    simp only [stopStep] at hs
    split at hs
    · obtain rfl := Option.some.inj hs
      exact follows_leaveStop hk
    · cases hs
  | park =>
    obtain rfl := Option.some.inj hs
    exact follows_leaveStop hk

theorem callStep_follows (hk : j.calls = [k]) (hs : j.callStep k = some j') :
    Follows j k j' := by
  have hgoto : ∀ {j₁ : Job} {p : CallPc}, some (j₁.goto k p) = some j' → j₁.calls = [k] →
      (∀ q, p = .stop q → q = .remove) → Follows j k j' :=
    fun hj hk₁ hp => Option.some.inj hj ▸ follows_goto hk₁ hp
  have hfinish : ∀ {j₁ : Job} {a : Answer}, some (j₁.finish k a) = some j' → j₁.calls = [k] →
      Follows j k j' :=
    fun hj hk₁ => Option.some.inj hj ▸ .inl (calls_finish hk₁ _)
  cases hpc : k.pc with
  | read =>
    simp only [callStep, hpc, readStep] at hs
    cases hrow : j.row with
    | none =>
      rw [hrow] at hs
      exact hfinish hs hk
    | some r =>
      rw [hrow] at hs
      cases hop : k.op <;> simp only [hop] at hs
      case pause | resume | cancel =>
        split at hs <;> first | exact hgoto hs hk (by simp) | exact hfinish hs hk
      case delete =>
        obtain rfl := Option.some.inj hs
        exact .inr ⟨{ k with pc := .isLive, completed := r.state = .completed },
          by simp [Keyed.update, hk], rfl, by simp⟩
      all_goals cases hs
  | stop q => exact stopStep_follows hk hpc (by simpa [callStep, hpc] using hs)
  | isLive =>
    simp only [callStep, hpc, Option.some.injEq] at hs
    subst hs
    exact .inr ⟨{ k with pc := .stop .remove, live := j.isLive }, by simp [Keyed.update, hk],
      rfl, fun p hp => .inl (by simpa using hp.symm)⟩
  | pauseRead =>
    simp only [callStep, hpc] at hs
    split at hs
    · exact hfinish hs hk
    · exact hgoto hs hk (by split <;> simp)
  | reread =>
    simp only [callStep, hpc] at hs
    split at hs
    · exact hfinish hs hk
    · exact hgoto hs hk (by simp)
  | pauseSet | setQueued | forget =>
    simp only [callStep, hpc] at hs
    exact hgoto hs hk (by simp)
  | setCancelled =>
    simp only [callStep, hpc] at hs
    exact hgoto hs hk (by split <;> simp)
  | cleanup =>
    simp only [callStep, hpc] at hs
    exact hgoto hs hk (by split <;> simp)
  | deleteRow =>
    simp only [callStep, hpc] at hs
    exact hfinish hs hk
  | spawn =>
    simp only [callStep, hpc] at hs
    exact hgoto hs hk (by simp)
  | insert i =>
    simp only [callStep, hpc] at hs
    split at hs
    · exact hgoto hs hk (by simp)
    · exact hfinish hs hk
  | cancelOld i =>
    simp only [callStep, hpc] at hs
    exact hfinish hs (by simpa using hk)
  | answer =>
    simp only [callStep, hpc] at hs
    exact hfinish hs hk

/-- A call that is past `await` left no worker about to write an intent. -/
theorem Orderly.no_stopping (h : j.Orderly) (hk : j.calls = [k])
    (hs : j.callStep k = some j') (hw : j.workers i = some w) (x : Intent) :
    w.pc ≠ .stopping x := by
  intro hpc
  have ha := h.await_of_stopping hw hpc
  have hkpc : k.pc = .stop (.await i) := by simpa [pc_of_calls hk] using ha
  have hf := isFinished_eq_false hw (Worker.engaged_of_pc (by simp [hpc]))
  simp [callStep, hkpc, stopStep, hf] at hs

theorem Obeyed.call (h : j.Obeyed) (hk : j.calls = [k]) (hs : j.callStep k = some j') :
    j'.Obeyed := by
  refine { h.toOrderly.call hk hs with intended := ?_, stopping := ?_ }
  · intro k' hk' p hp hne hi
    rcases callStep_follows hk hs with hnil | ⟨k'', hk'', hop, hto⟩
    · simp [hnil] at hk'
    · obtain rfl : k'' = k' := by simpa [hk''] using hk'
      rw [hop]
      rcases hto p hp with rfl | ⟨q, hq, ⟨t, rfl⟩ | hint | ⟨hq₁, hq₂, hint⟩⟩
      · exact absurd rfl hne
      · exact absurd rfl (hi t)
      · exact hint
      · rw [hint]
        exact h.intended k hk q hq hq₁ hq₂
  · intro i w x hw hx
    rcases callStep_sameWorkers hs i w hw with ⟨v, hv, hvpc, _⟩ | rfl
    · exact absurd (hvpc.trans hx) (h.no_stopping hk hs hv x)
    · simp [Worker.new] at hx

/-! ## Runs -/

theorem Orderly.begin (h : j.Orderly) (hc : j.calls = []) {op : Op} {p : CallPc}
    (hat : op.at p) (hp : p = .read ∨ p = .stop .remove) : (j.begin op p).Orderly := by
  have hc' : (j.begin op p).calls = [⟨j.nextCall, op, p, false, false⟩] := by
    simp [Job.begin, hc]
  refine h.pass rfl rfl (by simp [pc_of_nil hc]) ?_ (.inr ⟨_, hc', hat⟩) h.known ?_
  · rw [holder_of_nil hc, holder_of_calls hc']
    rcases hp with rfl | rfl <;> exact fun i hi => hi
  · intro p' hp'
    obtain rfl : p = p' := by simpa [pc_of_calls hc'] using hp'
    rcases hp with rfl | rfl <;> trivial

/-- A call begins only where none is in flight. -/
def Alone (j : Job) : Act → Prop
  | .api _ | .stop => j.calls = []
  | .call _ | .worker _ _ => True

instance (j : Job) : (a : Act) → Decidable (j.Alone a)
  | .api _ | .stop => inferInstanceAs (Decidable (_ = _))
  | .call _ | .worker _ _ => .isTrue trivial

/-- With one call at a time, the call that is found is the only one. -/
theorem Orderly.calls_of_find (h : j.Orderly) {id : ℕ}
    (hk : Keyed.find Call.id id j.calls = some k) : j.calls = [k] := by
  have hmem := Keyed.mem_of_find hk
  rcases h.one with hnil | ⟨k', hk', _⟩
  · simp [hnil] at hmem
  · rw [hk'] at hmem ⊢
    rw [List.mem_singleton.1 hmem]

theorem Orderly.step (h : j.Orderly) {a : Act} (hok : j.Alone a) (hs : j.step a = some j') :
    j'.Orderly := by
  cases a with
  | api op =>
    simp only [Job.step] at hs
    split at hs
    · obtain rfl := Option.some.inj hs
      exact h.begin hok (by cases op <;> simp_all [isApi, Op.at]) (.inl rfl)
    · cases hs
  | stop =>
    obtain rfl := Option.some.inj hs
    exact h.begin hok rfl (.inr rfl)
  | call id =>
    simp only [Job.step] at hs
    split at hs
    · exact h.call (h.calls_of_find ‹_›) hs
    · cases hs
  | worker i m =>
    simp only [Job.step] at hs
    split at hs
    · exact h.worker ‹_› hs
    · cases hs

theorem Obeyed.begin (h : j.Obeyed) (hc : j.calls = []) {op : Op} {p : CallPc}
    (hat : op.at p) (hp : p = .read ∨ p = .stop .remove) : (j.begin op p).Obeyed := by
  have hc' : (j.begin op p).calls = [⟨j.nextCall, op, p, false, false⟩] := by
    simp [Job.begin, hc]
  refine { h.toOrderly.begin hc hat hp with intended := ?_, stopping := ?_ }
  · intro k hk q hq hne _
    obtain rfl : _ = k := by simpa [hc'] using hk
    rcases hp with rfl | rfl <;> simp_all
  · intro i w x hw hx
    have ha := h.await_of_stopping hw hx
    simp [pc_of_nil hc] at ha

theorem Obeyed.step (h : j.Obeyed) {a : Act} (hok : j.Alone a) (hs : j.step a = some j') :
    j'.Obeyed := by
  cases a with
  | api op =>
    simp only [Job.step] at hs
    split at hs
    · obtain rfl := Option.some.inj hs
      exact h.begin hok (by cases op <;> simp_all [isApi, Op.at]) (.inl rfl)
    · cases hs
  | stop =>
    obtain rfl := Option.some.inj hs
    exact h.begin hok rfl (.inr rfl)
  | call id =>
    simp only [Job.step] at hs
    split at hs
    · exact h.call (h.calls_of_find ‹_›) hs
    · cases hs
  | worker i m =>
    simp only [Job.step] at hs
    split at hs
    · exact h.worker ‹_› hs
    · cases hs

/-- A row that is gone does not come back. -/
theorem step_row_none {a : Act} (hr : j.row = none) (hs : j.step a = some j') :
    j'.row = none := by
  cases a with
  | api op =>
    simp only [Job.step] at hs
    split at hs
    · obtain rfl := Option.some.inj hs
      exact hr
    · cases hs
  | stop =>
    obtain rfl := Option.some.inj hs
    exact hr
  | call id =>
    simp only [Job.step] at hs
    split at hs
    · have heff := callStep_row hs
      generalize j'.row = row at heff ⊢
      cases heff <;> simp [hr]
    · cases hs
  | worker i m =>
    simp only [Job.step] at hs
    split at hs
    · obtain ⟨w', row, heff, rfl⟩ := workerStep_effect hs
      cases heff <;> simp [putWorker, hr]
    · cases hs

theorem orderly_created (key : Key) : (created key).Orderly :=
  Idle.orderly (fun _ _ h => by simp [created] at h) (.inr ⟨_, rfl, rfl⟩)
    (fun _ h => by simp [created] at h) fun p hp => by
      obtain rfl : CallPc.reread = p := by simpa [created, Job.pc] using hp
      exact ⟨_, rfl, rfl⟩

theorem orderly_loaded (row : Option Row) : (loaded row).Orderly :=
  Idle.orderly (fun _ _ h => by simp [loaded] at h) (.inl rfl)
    (fun _ h => by simp [loaded] at h) fun p hp => by simp [loaded, Job.pc] at hp

theorem obeyed_created (key : Key) : (created key).Obeyed where
  toOrderly := orderly_created key
  intended k hk p hp := by
    obtain rfl : _ = k := by simpa [created] using hk
    simp at hp
  stopping i w x hw := by simp [created] at hw

theorem obeyed_loaded (row : Option Row) : (loaded row).Obeyed where
  toOrderly := orderly_loaded row
  intended k hk := by simp [loaded] at hk
  stopping i w x hw := by simp [loaded] at hw

end

end Job

end EngineConsole.Downloads
