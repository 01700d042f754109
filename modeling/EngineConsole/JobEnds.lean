import EngineConsole.JobOrder

/-!
# Rows that have ended

When a row is `completed` or `cancelled` it is to stay so until it is deleted. What keeps it
so is stated as a condition on the steps (`Job.Careful`) : calls on the row come one after
another, its worker does not write `completed` under a call that is about to stop it, and
nobody stops a row that has ended, but a delete may while no worker is left.

`Calm` is what these steps keep beside `Orderly`, and under it a terminal state stays
(`Calm.terminal`).
-/

set_option linter.unusedSectionVars false

namespace EngineConsole.Downloads

/-! ## The condition and the invariant -/

/-- What a call that is to stop a worker knows of the state of the row. -/
def Op.Undecided (s : RowState) : Op → CallPc → Prop
  | .pause, .stop _ | .pause, .pauseRead | .pause, .pauseSet | .shutdown, .stop _ =>
    s.terminal = false
  | .cancel, .isLive | .cancel, .stop _ | .cancel, .setCancelled => s ≠ .completed
  | _, _ => True

namespace Job

/-- The row is in a state that `p` holds of, if there is a row. -/
def RowIn (j : Job) (p : RowState → Bool) : Prop :=
  (j.row.map Row.state).all p

instance (j : Job) (p : RowState → Bool) : Decidable (j.RowIn p) := by
  unfold RowIn; infer_instance

/-- The steps that do not undo how a row ended. -/
def Careful (j : Job) : Act → Prop
  | .api _ => j.calls = []
  | .stop => j.calls = [] ∧ j.RowIn fun s => !s.terminal
  | .call id => ∀ k ∈ j.calls, k.id = id → k.op = .delete → k.pc = .stop .remove →
      j.RowIn (· = .completed) → j.isLive = false
  | .worker _ .complete => ∀ k ∈ j.calls, k.op = .create ∨ k.op = .resume
  | .worker _ _ => True

instance (j : Job) : (a : Act) → Decidable (j.Careful a)
  | .api _ => inferInstanceAs (Decidable (_ = _))
  | .stop => inferInstanceAs (Decidable (_ ∧ _))
  | .call _ | .worker _ .complete => inferInstanceAs (Decidable (∀ k ∈ _, _))
  | .worker _ .next | .worker _ .call | .worker _ (.fail _) => .isTrue trivial

theorem Careful.alone {j : Job} {a : Act} (h : j.Careful a) : j.Alone a := by
  cases a with
  | api => exact h
  | stop => exact h.1
  | call | worker => trivial

/-- Nobody undoes how the row ended. -/
structure Calm (j : Job) : Prop extends j.Obeyed where
  /-- A worker that wrote `completed` is not being stopped. -/
  settled : ∀ i w, j.workers i = some w → w.engaged → w.last = some .completed →
    ∀ p, j.pc = some (.stop p) → p = .remove
  undecided : ∀ k, j.calls = [k] → ∀ r, j.row = some r → k.op.Undecided r.state k.pc

section

variable {j j' : Job} {k : Call} {i : ℕ} {w w' : Worker}

/-- A worker that wrote `completed` and may be stopped leaves its row completed. -/
theorem Orderly.completed_of_last (h : j.Orderly) (hw : j.workers i = some w) (he : w.engaged)
    (hl : w.last = some .completed) (hawait : ∀ i, j.pc ≠ some (.stop (.await i))) :
    ∃ r, j.row = some r ∧ r.state = .completed := by
  obtain ⟨r, hr, hf⟩ := h.fits i w hw he
  have ht : w.token ≠ true := fun ht => hawait i (h.token i w hw he ht)
  refine ⟨r, hr, ?_⟩
  cases hpc : w.pc <;> simp_all [Worker.Fits, Worker.engaged, Worker.going]

theorem Calm.put (h : j.Calm) {row : Option Row}
    (hob : ({ j with row }.putWorker i w').Obeyed)
    (hset : w'.engaged → w'.last = some .completed → ∀ p, j.pc = some (.stop p) → p = .remove)
    (hund : ∀ k, j.calls = [k] → ∀ r, row = some r → k.op.Undecided r.state k.pc) :
    ({ j with row }.putWorker i w').Calm := by
  refine { hob with settled := ?_, undecided := hund }
  intro i' v hv
  by_cases hi : i' = i
  · obtain rfl := hi
    obtain rfl : w' = v := by simpa [putWorker] using hv
    exact hset
  · exact h.settled i' v (by simpa [putWorker, hi] using hv)

/-- What a call knows of the row stands when a worker writes how it was stopped. -/
theorem undecided_of_intent {s : RowState} {p : StopPc} (hpc : k.pc = .stop p) (hs : s = k.op.intent.state) : k.op.Undecided s k.pc := by
  cases hop : k.op <;> simp_all [Op.Undecided, Op.intent, Intent.state, RowState.terminal]

theorem Calm.worker (h : j.Calm) (hw : j.workers i = some w) {m : Move}
    (hok : j.Careful (.worker i m)) (hs : j.workerStep i w m = some j') : j'.Calm := by
  have hob := h.toObeyed.worker hw hs
  obtain ⟨w', row, heff, rfl⟩ := workerStep_effect hs
  cases heff with
  | pass hp =>
    exact h.put hob (fun he hl => h.settled i w hw (hp.engaged he) (hp.last ▸ hl)) h.undecided
  | admitted hpc =>
    have he : w.engaged := Worker.engaged_of_pc (by simp [hpc])
    obtain ⟨r, hr, hf⟩ := h.fits i w hw he
    have hf' : w.last = none ∧ r.state = .queued := by simpa [Worker.Fits, hpc] using hf
    refine h.put hob (fun _ hl => by simp [hf'.1] at hl) fun k hk r' hr' => ?_
    obtain ⟨r'', hr'', rfl⟩ := Option.map_eq_some_iff.1 hr'
    cases hop : k.op <;> cases hkpc : k.pc <;> simp [Op.Undecided, RowState.terminal]
  | complete hpc hm =>
    subst hm
    have hops : ∀ k, j.calls = [k] → k.op = .create ∨ k.op = .resume :=
      fun k hk => hok k (by simp [hk])
    refine h.put hob (fun _ _ p hp => ?_) fun k hk r' hr' => ?_
    · obtain hnil | ⟨k, hk, hat⟩ := h.one
      · simp [pc_of_nil hnil] at hp
      · have hkpc : k.pc = .stop p := by simpa [pc_of_calls hk] using hp
        rcases hops k hk with hop | hop <;> simp [hop, hkpc, Op.at] at hat
    · rcases hops k hk with hop | hop <;> simp [hop, Op.Undecided]
  | stop x hpc hpc' =>
    obtain ⟨k, hk, hx⟩ := h.stopping i w x hw hpc
    refine h.put hob (fun _ hl => ?_) fun k' hk' r' hr' => ?_
    · cases x <;> simp [Intent.state] at hl
    · obtain rfl : k = k' := by simpa [hk] using hk'
      obtain ⟨r'', hr'', rfl⟩ := Option.map_eq_some_iff.1 hr'
      have ha := h.await_of_stopping hw hpc
      have hkpc : k.pc = .stop (.await i) := by simpa [pc_of_calls hk] using ha
      exact undecided_of_intent hkpc (congrArg Intent.state hx)
  | fail error hpc =>
    refine h.put hob (fun _ hl => by simp at hl) fun k hk r' hr' => ?_
    obtain ⟨r'', hr'', rfl⟩ := Option.map_eq_some_iff.1 hr'
    cases hop : k.op <;> cases hkpc : k.pc <;> simp [Op.Undecided, RowState.terminal]

/-- A step of a call after which what the call knows stands. -/
theorem Calm.next (h : j.Calm) (hk : j.calls = [k]) (hs : j.callStep k = some j')
    (hset : ∀ p, j'.pc = some (.stop p) → p ≠ .remove →
      (∃ p', k.pc = .stop p' ∧ p' ≠ .remove) ∨
        ∀ i w, j.workers i = some w → w.engaged → w.last ≠ some .completed)
    (hund : ∀ k', j'.calls = [k'] → ∀ r, j'.row = some r → k'.op.Undecided r.state k'.pc) :
    j'.Calm := by
  refine { h.toObeyed.call hk hs with settled := ?_, undecided := hund }
  intro i w hw' he hl p hp
  by_contra hne
  rcases callStep_sameWorkers hs i w hw' with ⟨v, hv, hvpc, hvl⟩ | rfl
  · have he' : v.engaged := by simpa [Worker.engaged, Worker.going, hvpc, hvl] using he
    rcases hset p hp hne with ⟨p', hp', hne'⟩ | hno
    · exact hne' (h.settled i v hv he' (hvl.trans hl) p' (by rw [pc_of_calls hk, hp']))
    · exact hno i v hv he' (hvl.trans hl)
  · simp [Worker.new] at hl

/-- The call goes on to a place outside `stop_task`, or to its start. -/
theorem Calm.goto (h : j.Calm) (hk : j.calls = [k]) {j₁ : Job} (hk₁ : j₁.calls = [k])
    {p : CallPc} (hs : j.callStep k = some (j₁.goto k p))
    (hp : ∀ q, p = .stop q → q = .remove)
    (hund : ∀ r, j₁.row = some r → k.op.Undecided r.state p) : (j₁.goto k p).Calm := by
  refine h.next hk hs ?_ ?_
  · intro q hq hne
    rw [pc_goto hk₁] at hq
    exact absurd (hp q (Option.some.inj hq)) hne
  · intro k' hk' r hr
    obtain rfl : { k with pc := p } = k' := by simpa [calls_goto hk₁] using hk'
    exact hund r hr

/-- The call goes on inside `stop_task`. -/
theorem Calm.gotoStop (h : j.Calm) (hk : j.calls = [k]) {j₁ : Job} (hk₁ : j₁.calls = [k])
    {p q : StopPc} (hpc : k.pc = .stop q) (hs : j.callStep k = some (j₁.goto k (.stop p)))
    (hrow : j₁.row = j.row)
    (hset : q ≠ .remove ∨
      ∀ i w, j.workers i = some w → w.engaged → w.last ≠ some .completed) :
    (j₁.goto k (.stop p)).Calm := by
  refine h.next hk hs ?_ ?_
  · intro _ _ _
    rcases hset with hne | hno
    · exact .inl ⟨q, hpc, hne⟩
    · exact .inr hno
  · intro k' hk' r hr
    obtain rfl : { k with pc := .stop p } = k' := by simpa [calls_goto hk₁] using hk'
    have hund := h.undecided k hk r (hrow ▸ hr)
    rw [hpc] at hund
    cases hop : k.op <;> simp_all [Op.Undecided]

/-- The call returns. -/
theorem Calm.finish (h : j.Calm) (hk : j.calls = [k]) {j₁ : Job} (hk₁ : j₁.calls = [k])
    {a : Answer} (hs : j.callStep k = some (j₁.finish k a)) : (j₁.finish k a).Calm := by
  have hnil := calls_finish hk₁ a
  exact h.next hk hs (by simp [pc_of_nil hnil]) (by simp [hnil])

/-- The call leaves `stop_task`, with the row as `stop_task` left it. -/
theorem Calm.leaveStop (h : j.Calm) (hk : j.calls = [k]) {j₁ : Job} (hk₁ : j₁.calls = [k])
    {q : StopPc} (hs : j.callStep k = some (j₁.leaveStop k))
    (hrow : ∀ r, j₁.row = some r → k.op.Undecided r.state (.stop q)) :
    (j₁.leaveStop k).Calm := by
  unfold Job.leaveStop at hs ⊢
  cases hop : k.op with
  | pause | cancel =>
    simp only [afterStop, hop] at hs ⊢
    refine h.goto hk hk₁ hs (by simp) fun r hr => ?_
    simpa [hop, Op.Undecided] using hrow r hr
  | delete =>
    simp only [afterStop, hop] at hs ⊢
    refine h.goto hk hk₁ hs ?_ fun r hr => ?_
    · split <;> simp
    · simp [hop, Op.Undecided]
  | create | resume | shutdown =>
    simp only [afterStop, hop] at hs ⊢
    exact h.finish hk hk₁ hs

theorem Calm.stop (h : j.Calm) (hk : j.calls = [k]) (hok : j.Careful (.call k.id)) {q : StopPc}
    (hpc : k.pc = .stop q) (hs : j.stopStep k q = some j') : j'.Calm := by
  have hcall : j.callStep k = some j' := by simpa [callStep, hpc] using hs
  have hh := holder_of_calls hk
  rw [hpc] at hh
  have hund : ∀ r, j.row = some r → k.op.Undecided r.state (.stop q) :=
    fun r hr => hpc ▸ h.undecided k hk r hr
  cases q with
  | remove =>
    obtain rfl := Option.some.inj hs
    refine h.gotoStop hk (show { j with task := none }.calls = [k] from hk) hpc hcall rfl (.inr ?_)
    -- who comes here with a completed row is a delete that found no worker
    intro i w hw he hl
    obtain ⟨r, hr, hst⟩ := h.completed_of_last hw he hl (by simp [pc_of_calls hk, hpc])
    have hat := h.legal hk
    have hr' := hund r hr
    have hheld : j.task = some i := by simpa [hh, CallPc.holder] using h.held i w hw he
    cases hop : k.op <;>
      simp [hop, hpc, Op.at, Op.Undecided, hst, RowState.terminal] at hat hr'
    case delete =>
      have hlive := hok k (by simp [hk]) rfl hop hpc (by simp [RowIn, hr, hst])
      simp [isLive, hheld, isFinished_eq_false hw he] at hlive
  | intend t =>
    obtain rfl := Option.some.inj hs
    exact h.gotoStop hk (show { j with intent := some k.op.intent }.calls = [k] from hk) hpc hcall
      rfl (.inl (by simp))
  | check t =>
    -- past `intend`, so nobody who wrote `completed` is held
    have hleave : (if k.op.intent = .paused then some (j.goto k (.stop .park))
        else some (j.leaveStop k)) = some j' → j'.Calm := by
      intro hs
      split at hs
      · obtain rfl := Option.some.inj hs
        exact h.gotoStop hk hk hpc hcall rfl (.inl (by simp))
      · obtain rfl := Option.some.inj hs
        exact h.leaveStop hk hk hcall hund
    cases t with
    | none => exact hleave hs
    | some i =>
      simp only [stopStep] at hs
      split at hs
      · exact hleave hs
      · obtain rfl := Option.some.inj hs
        exact h.gotoStop hk hk hpc hcall rfl (.inl (by simp))
  | cancelToken i =>
    obtain rfl := Option.some.inj hs
    exact h.gotoStop hk (by simpa using hk) hpc hcall (by simp) (.inl (by simp))
  | await i =>
    simp only [stopStep] at hs
    split at hs
    · obtain rfl := Option.some.inj hs
      exact h.leaveStop hk hk hcall hund
    · cases hs
  | park =>
    obtain rfl := Option.some.inj hs
    refine h.leaveStop hk (q := .park) hk hcall fun r hr => ?_
    obtain ⟨r', _, rfl⟩ := Option.map_eq_some_iff.1 hr
    cases hop : k.op <;> simp [Op.Undecided, RowState.terminal]

/-- The call reads its row, and knows then what the state is. -/
theorem Calm.read (h : j.Calm) (hk : j.calls = [k]) (hpc : k.pc = .read)
    (hs : j.readStep k = some j') : j'.Calm := by
  have hcall : j.callStep k = some j' := by simpa [callStep, hpc] using hs
  unfold readStep at hs
  cases hrow : j.row with
  | none =>
    rw [hrow] at hs
    obtain rfl := Option.some.inj hs
    exact h.finish hk hk hcall
  | some r =>
    rw [hrow] at hs
    cases hop : k.op with
    | pause =>
      simp only [hop] at hs
      split at hs
      · rename_i hact
        obtain rfl := Option.some.inj hs
        refine h.goto hk hk hcall (by simp) fun r' hr' => ?_
        obtain rfl : r = r' := by simpa [hrow] using hr'
        cases hst : r.state <;> simp_all [Op.Undecided, RowState.terminal, RowState.active]
      · obtain rfl := Option.some.inj hs
        exact h.finish hk hk hcall
    | resume =>
      simp only [hop] at hs
      split at hs <;> obtain rfl := Option.some.inj hs
      · exact h.goto hk hk hcall (by simp) (by simp [hop, Op.Undecided])
      · exact h.finish hk hk hcall
    | cancel =>
      simp only [hop] at hs
      split at hs
      · obtain rfl := Option.some.inj hs
        exact h.finish hk hk hcall
      · rename_i hterm
        obtain rfl := Option.some.inj hs
        refine h.goto hk hk hcall (by simp) fun r' hr' => ?_
        obtain rfl : r = r' := by simpa [hrow] using hr'
        cases hst : r.state <;> simp_all [Op.Undecided, RowState.terminal]
    | delete =>
      simp only [hop, Option.some.injEq] at hs
      subst hs
      have hc : (Keyed.update Call.id k.id (fun k =>
          { k with pc := .isLive, completed := r.state = .completed }) j.calls) =
          [{ k with pc := .isLive, completed := r.state = .completed }] := by
        simp [Keyed.update, hk]
      refine h.next hk hcall (by simp [Job.pc, hc]) ?_
      intro k' hk' _ _
      obtain rfl : _ = k' := by simpa [hc] using hk'
      simp [hop, Op.Undecided]
    | create => simp [hop] at hs
    | shutdown => simp [hop] at hs

theorem Calm.call (h : j.Calm) (hk : j.calls = [k]) (hok : j.Careful (.call k.id))
    (hs : j.callStep k = some j') : j'.Calm := by
  have hcall := hs
  have hat := h.legal hk
  have hund := h.undecided k hk
  cases hpc : k.pc with
  | read => exact h.read hk hpc (by simpa [callStep, hpc] using hs)
  | isLive =>
    simp only [callStep, hpc, Option.some.injEq] at hs
    subst hs
    have hc : (Keyed.update Call.id k.id (fun k =>
        { k with pc := .stop .remove, live := j.isLive }) j.calls) =
        [{ k with pc := .stop .remove, live := j.isLive }] := by
      simp [Keyed.update, hk]
    refine h.next hk hcall ?_ ?_
    · intro p hp hne
      obtain rfl : StopPc.remove = p := by simpa [Job.pc, hc] using hp
      simp at hne
    · intro k' hk' r hr
      obtain rfl : _ = k' := by simpa [hc] using hk'
      have hr' := hund r hr
      rw [hpc] at hat hr'
      cases hop : k.op <;> simp_all [Op.Undecided, Op.at]
  | stop q => exact h.stop hk hok hpc (by simpa [callStep, hpc] using hs)
  | pauseRead =>
    simp only [callStep, hpc] at hs
    split at hs
    · obtain rfl := Option.some.inj hs
      exact h.finish hk hk hcall
    · obtain rfl := Option.some.inj hs
      refine h.goto hk hk hcall ?_ fun r hr => ?_
      · split <;> simp
      · have hr' := hund r hr
        rw [hpc] at hr'
        split <;> cases hop : k.op <;> simp_all [Op.Undecided]
  | pauseSet =>
    simp only [callStep, hpc, Option.some.injEq] at hs
    subst hs
    refine h.goto hk (show (j.setState .paused).calls = [k] from hk) hcall (by simp) fun r hr => ?_
    cases hop : k.op <;> simp [Op.Undecided]
  | setCancelled =>
    simp only [callStep, hpc, Option.some.injEq] at hs
    subst hs
    refine h.goto hk (show (j.setState .cancelled).calls = [k] from hk) hcall ?_ fun r hr => ?_
    · split <;> simp
    · split <;> cases hop : k.op <;> simp [Op.Undecided]
  | cleanup =>
    simp only [callStep, hpc, Option.some.injEq] at hs
    subst hs
    refine h.goto hk hk hcall ?_ fun r hr => ?_
    · split <;> simp
    · split <;> cases hop : k.op <;> simp [Op.Undecided]
  | deleteRow =>
    simp only [callStep, hpc, Option.some.injEq] at hs
    subst hs
    exact h.finish hk (show { j with row := none }.calls = [k] from hk) hcall
  | setQueued =>
    simp only [callStep, hpc, Option.some.injEq] at hs
    subst hs
    refine h.goto hk (show (j.setOutcome .queued none).calls = [k] from hk) hcall (by simp)
      fun r hr => ?_
    cases hop : k.op <;> simp [Op.Undecided]
  | reread =>
    simp only [callStep, hpc] at hs
    split at hs
    · obtain rfl := Option.some.inj hs
      exact h.finish hk hk hcall
    · obtain rfl := Option.some.inj hs
      refine h.goto hk hk hcall (by simp) fun r hr => ?_
      cases hop : k.op <;> simp [Op.Undecided]
  | forget =>
    simp only [callStep, hpc, Option.some.injEq] at hs
    subst hs
    refine h.goto hk (show { j with intent := none }.calls = [k] from hk) hcall (by simp)
      fun r hr => ?_
    cases hop : k.op <;> simp [Op.Undecided]
  | spawn =>
    simp only [callStep, hpc, Option.some.injEq] at hs
    subst hs
    have hk₁ : { j.putWorker j.nextWorker .new with nextWorker := j.nextWorker + 1 }.calls = [k] :=
      hk
    refine h.goto hk hk₁ hcall (by simp) fun r hr => ?_
    cases hop : k.op <;> simp [Op.Undecided]
  | insert i =>
    simp only [callStep, hpc] at hs
    split at hs
    · obtain rfl := Option.some.inj hs
      refine h.goto hk (show { j with task := some i }.calls = [k] from hk) hcall (by simp)
        fun r hr => ?_
      cases hop : k.op <;> simp [Op.Undecided]
    · obtain rfl := Option.some.inj hs
      exact h.finish hk (show { j with task := some i }.calls = [k] from hk) hcall
  | cancelOld i =>
    simp only [callStep, hpc, Option.some.injEq] at hs
    subst hs
    exact h.finish hk (by simpa using hk) hcall
  | answer =>
    simp only [callStep, hpc, Option.some.injEq] at hs
    subst hs
    exact h.finish hk hk hcall

/-! ## Runs -/

theorem Calm.begin (h : j.Calm) (hc : j.calls = []) {op : Op} {p : CallPc}
    (hat : op.at p) (hp : p = .read ∨ p = .stop .remove)
    (hund : ∀ r, j.row = some r → op.Undecided r.state p) : (j.begin op p).Calm := by
  have hc' : (j.begin op p).calls = [⟨j.nextCall, op, p, false, false⟩] := by
    simp [Job.begin, hc]
  refine { h.toObeyed.begin hc hat hp with settled := ?_, undecided := ?_ }
  · intro i w hw he hl q hq
    rcases hp with rfl | rfl <;> simp_all [Job.pc]
  · intro k hk r hr
    obtain rfl : _ = k := by simpa [hc'] using hk
    exact hund r hr

theorem Calm.step (h : j.Calm) {a : Act} (hok : j.Careful a) (hs : j.step a = some j') :
    j'.Calm := by
  cases a with
  | api op =>
    simp only [Job.step] at hs
    split at hs
    · obtain rfl := Option.some.inj hs
      refine h.begin hok (by cases op <;> simp_all [isApi, Op.at]) (.inl rfl) fun r _ => ?_
      cases op <;> simp [Op.Undecided]
    · cases hs
  | stop =>
    obtain rfl := Option.some.inj hs
    refine h.begin hok.1 rfl (.inr rfl) fun r hr => ?_
    simpa [RowIn, hr, Op.Undecided] using hok.2
  | call id =>
    simp only [Job.step] at hs
    split at hs
    · rename_i hk
      have hid := Keyed.key_of_find hk
      exact h.call (h.calls_of_find hk) (hid ▸ hok) hs
    · cases hs
  | worker i m =>
    simp only [Job.step] at hs
    split at hs
    · exact h.worker ‹_› hok hs
    · cases hs

/-- A worker that writes the row finds it in no terminal state. -/
theorem Calm.terminal_worker (h : j.Calm) (hw : j.workers i = some w) {m : Move}
    (hs : j.workerStep i w m = some j') {r : Row} (hr : j.row = some r)
    (ht : r.state.terminal) : j'.row = some r := by
  obtain ⟨w', row, heff, rfl⟩ := workerStep_effect hs
  have hfits : w.engaged → w.Fits r.state := by
    intro he
    obtain ⟨r', hr', hf⟩ := h.fits i w hw he
    obtain rfl : r = r' := by simpa [hr] using hr'
    exact hf
  cases heff with
  | pass => exact hr
  | admitted hpc | complete hpc | fail _ hpc =>
    have hf := hfits (Worker.engaged_of_pc (by simp [hpc]))
    cases hst : r.state <;> simp_all [Worker.Fits, RowState.terminal]
  | stop x hpc =>
    have he : w.engaged := Worker.engaged_of_pc (by simp [hpc])
    have hf := hfits he
    have hl : w.last = some .completed := by
      cases hst : r.state <;> simp_all [Worker.Fits, RowState.terminal, RowState.active]
    have := h.settled i w hw he hl _ (h.await_of_stopping hw hpc)
    simp at this

/-- A call that writes the row leaves a terminal state. -/
theorem Calm.terminal_call (h : j.Calm) (hk : j.calls = [k]) (hs : j.callStep k = some j')
    {r : Row} (hr : j.row = some r) (ht : r.state.terminal) :
    j'.row = none ∨ ∃ r', j'.row = some r' ∧ r'.state = r.state := by
  have hat := h.legal hk
  have hund := h.undecided k hk r hr
  have hready := h.ready _ (pc_of_calls hk)
  have heff := callStep_row hs
  generalize j'.row = row at heff ⊢
  cases heff with
  | same => exact .inr ⟨r, hr, rfl⟩
  | pause hpc =>
    rcases hpc with hpc | hpc <;> cases hop : k.op <;>
      simp_all [Op.at, Op.Undecided]
  | cancel hpc =>
    refine .inr ⟨{ r with state := .cancelled }, by simp [hr], ?_⟩
    have hop : k.op = .cancel := by cases hop : k.op <;> simp_all [Op.at]
    cases hst : r.state <;> simp_all [Op.Undecided, RowState.terminal]
  | queue hpc =>
    rw [hpc] at hready
    obtain ⟨r', hr', hst⟩ := hready
    obtain rfl : r = r' := by simpa [hr] using hr'
    rcases hst with hst | hst <;> simp [hst, RowState.terminal] at ht
  | delete => exact .inl rfl

/-- A row that is completed or cancelled stays so until it is deleted. -/
theorem Calm.terminal (h : j.Calm) {a : Act} (hs : j.step a = some j') {r : Row}
    (hr : j.row = some r) (ht : r.state.terminal) :
    j'.row = none ∨ ∃ r', j'.row = some r' ∧ r'.state = r.state := by
  cases a with
  | api op =>
    simp only [Job.step] at hs
    split at hs
    · obtain rfl := Option.some.inj hs
      exact .inr ⟨r, hr, rfl⟩
    · cases hs
  | stop =>
    obtain rfl := Option.some.inj hs
    exact .inr ⟨r, hr, rfl⟩
  | call id =>
    simp only [Job.step] at hs
    split at hs
    · exact h.terminal_call (h.calls_of_find ‹_›) hs hr ht
    · cases hs
  | worker i m =>
    simp only [Job.step] at hs
    split at hs
    · exact .inr ⟨r, h.terminal_worker ‹_› hs hr ht, rfl⟩
    · cases hs

theorem calm_created (key : Key) : (created key).Calm where
  toObeyed := obeyed_created key
  settled i w hw := by simp [created] at hw
  undecided k hk r hr := by
    obtain rfl : _ = k := by simpa [created] using hk
    trivial

theorem calm_loaded (row : Option Row) : (loaded row).Calm where
  toObeyed := obeyed_loaded row
  settled i w hw := by simp [loaded] at hw
  undecided k hk := by simp [loaded] at hk

end

end Job

end EngineConsole.Downloads
