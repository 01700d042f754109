import EngineConsole.DownloadEnds

/-!
# Unfinished rows have distinct destinations

`create` and `copy` turn down a second unfinished row for one destination, and one row too
many. `resume` asks for neither when it puts a failed row back in the queue
(`resume_clashes`). In the runs in which each such resume finds room (`Service.Sequential`)
no two unfinished rows clash and there are at most `max_queue` of them (`no_clash`).

Between the read of a `pause` and its last write the row may be failed for a while and then
paused, so the invariant counts such a row as held throughout (`Job.holding`).
-/

set_option linter.unusedSectionVars false

namespace EngineConsole.Downloads

theorem RowState.unfinished_of_active {s : RowState} (h : s.active) : s.unfinished := by
  cases s <;> first | rfl | cases h

theorem Op.eq_of_at_park {op : Op} (h : op.at (.stop .park)) : op = .pause ∨ op = .shutdown := by
  cases op <;> simp_all [Op.at]

theorem Op.eq_of_at_pauseSet {op : Op} (h : op.at .pauseSet) : op = .pause := by
  cases op <;> simp_all [Op.at]

namespace Job

/-! ## Rows that hold their destination -/

/-- A pause is past its first read. -/
def pausing (j : Job) : Bool :=
  j.calls.any fun k => k.op = .pause && k.pc ≠ .read && k.pc ≠ .answer

/-- The row is unfinished, or about to be paused. -/
def holding (j : Job) : Bool :=
  j.row.any fun r => r.state.unfinished || j.pausing

section

variable {j j' : Job} {k : Call} {i : ℕ} {w : Worker}

theorem holding_of_unfinished {r : Row} (hr : j.row = some r) (h : r.state.unfinished) :
    j.holding := by
  simp [holding, hr, h]

theorem holding_of_pausing {r : Row} (hr : j.row = some r) (h : j.pausing) : j.holding := by
  simp [holding, hr, h]

theorem holding_iff : j.holding ↔ ∃ r, j.row = some r ∧ (r.state.unfinished ∨ j.pausing) := by
  simp [holding, Option.any_eq_true]

theorem pausing_of_calls (h : j.calls = [k]) :
    j.pausing ↔ k.op = .pause ∧ k.pc ≠ .read ∧ k.pc ≠ .answer := by
  simp [pausing, h, and_assoc]

theorem pausing_of_nil (h : j.calls = []) : j.pausing = false := by
  simp [pausing, h]

/-- Without a pause in flight the row alone counts. -/
theorem holding_of_no_pause (h : j.pausing = false) :
    j.holding = j.row.any fun r => r.state.unfinished := by
  simp [holding, h]

theorem key_of_step {a : Act} (hs : j.step a = some j') {r' : Row} (hr' : j'.row = some r') :
    ∃ r, j.row = some r ∧ r.key = r'.key := by
  cases a with
  | api op =>
    simp only [Job.step] at hs
    split at hs
    · obtain rfl := Option.some.inj hs
      exact ⟨r', hr', rfl⟩
    · cases hs
  | stop =>
    obtain rfl := Option.some.inj hs
    exact ⟨r', hr', rfl⟩
  | call id =>
    simp only [Job.step] at hs
    split at hs
    · have heff := callStep_row hs
      rw [hr'] at heff
      generalize hrow : some r' = row at heff
      cases heff with
      | same => exact ⟨r', hrow.symm, rfl⟩
      | delete => cases hrow
      | _ =>
        obtain ⟨r, hr, rfl⟩ := Option.map_eq_some_iff.1 hrow.symm
        exact ⟨r, hr, rfl⟩
    · cases hs
  | worker i m =>
    simp only [Job.step] at hs
    split at hs
    · obtain ⟨w', row, heff, rfl⟩ := workerStep_effect hs
      replace hr' : row = some r' := hr'
      cases heff with
      | pass => exact ⟨r', hr', rfl⟩
      | _ =>
        obtain ⟨r, hr, rfl⟩ := Option.map_eq_some_iff.1 hr'
        exact ⟨r, hr, rfl⟩
    · cases hs

/-- A worker takes no destination. -/
theorem Obeyed.holding_worker (h : j.Obeyed) (hop : ∀ k ∈ j.calls, k.op ≠ .shutdown)
    (hw : j.workers i = some w) {m : Move} (hs : j.workerStep i w m = some j')
    (hj : j'.holding) : j.holding := by
  obtain ⟨w', row, heff, rfl⟩ := workerStep_effect hs
  obtain ⟨r', hr', hu⟩ := holding_iff.1 hj
  replace hr' : row = some r' := hr'
  have hu' : r'.state.unfinished ∨ j.pausing := hu
  have hfits : w.engaged → ∀ r, j.row = some r → w.Fits r.state := by
    intro he r hr
    obtain ⟨r₁, hr₁, hf⟩ := h.fits i w hw he
    obtain rfl : r = r₁ := by simpa [hr] using hr₁
    exact hf
  cases heff with
  | pass => exact holding_iff.2 ⟨r', hr', hu'⟩
  | admitted hpc =>
    obtain ⟨r, hr, rfl⟩ := Option.map_eq_some_iff.1 hr'
    have hf := hfits (Worker.engaged_of_pc (by simp [hpc])) r hr
    exact holding_of_unfinished hr (by simp_all [Worker.Fits, RowState.unfinished])
  | complete | fail =>
    obtain ⟨r, hr, rfl⟩ := Option.map_eq_some_iff.1 hr'
    exact holding_of_pausing hr (by simpa [RowState.unfinished] using hu')
  | stop x hpc =>
    obtain ⟨r, hr, rfl⟩ := Option.map_eq_some_iff.1 hr'
    rcases hu' with hu' | hp
    · -- it writes `paused`, for a pause that is in flight
      obtain ⟨k, hk, hx⟩ := h.stopping i w x hw hpc
      have hkpc : k.pc = .stop (.await i) := by
        simpa [pc_of_calls hk] using h.await_of_stopping hw hpc
      have hat := h.legal hk
      have hne := hop k (by simp [hk])
      have hpause : k.op = .pause := by
        cases hko : k.op <;>
          simp_all [Op.at, Op.intent, Intent.state, RowState.unfinished]
      exact holding_of_pausing hr ((pausing_of_calls hk).2 ⟨hpause, by simp [hkpc]⟩)
    · exact holding_of_pausing hr hp

/-- A pause that is past its read was past it before, or read a row to pause. -/
theorem pausing_call (hk : j.calls = [k]) (hs : j.callStep k = some j') (hj : j'.pausing) :
    j.pausing ∨ ∃ r, j.row = some r ∧ r.state.active := by
  rcases callStep_follows hk hs with hnil | ⟨k', hk', hop, _⟩
  · simp [pausing_of_nil hnil] at hj
  · have hko : k.op = .pause := by rw [← hop]; exact ((pausing_of_calls hk').1 hj).1
    by_cases hread : k.pc = .read
    · refine .inr ?_
      simp only [callStep, hread, readStep, hko] at hs
      cases hrow : j.row with
      | none =>
        rw [hrow] at hs
        obtain rfl := Option.some.inj hs
        simp [calls_finish hk] at hk'
      | some r =>
        rw [hrow] at hs
        simp only at hs
        split at hs
        · exact ⟨r, rfl, ‹_›⟩
        · obtain rfl := Option.some.inj hs
          simp [calls_finish hk] at hk'
    · by_cases hans : k.pc = .answer
      · simp only [callStep, hans, Option.some.injEq] at hs
        subst hs
        simp [calls_finish hk] at hk'
      · exact .inl ((pausing_of_calls hk).2 ⟨hko, hread, hans⟩)

/-- A call takes no destination, but a resume of a failed row. -/
theorem Obeyed.holding_call (h : j.Obeyed) (hk : j.calls = [k]) (hop : k.op ≠ .shutdown)
    (hq : k.pc = .setQueued → ∀ r, j.row = some r → r.state ≠ .failed)
    (hs : j.callStep k = some j') (hj : j'.holding) : j.holding := by
  obtain ⟨r', hr', hu⟩ := holding_iff.1 hj
  have hat := h.legal hk
  have heff := callStep_row hs
  rw [hr'] at heff
  have hpausing : j'.pausing → ∀ r, j.row = some r → j.holding := by
    intro hp r hr
    rcases pausing_call hk hs hp with hp | ⟨r₁, hr₁, hact⟩
    · exact holding_of_pausing hr hp
    · exact holding_of_unfinished hr₁ (RowState.unfinished_of_active hact)
  generalize hrow : some r' = row at heff
  cases heff with
  | same =>
    rcases hu with hu | hp
    · exact holding_of_unfinished hrow.symm hu
    · exact hpausing hp r' hrow.symm
  | pause hpc =>
    obtain ⟨r, hr, rfl⟩ := Option.map_eq_some_iff.1 hrow.symm
    have hpause : k.op = .pause := by
      rcases hpc with hpc | hpc <;> rw [hpc] at hat
      · exact (Op.eq_of_at_park hat).resolve_right hop
      · exact Op.eq_of_at_pauseSet hat
    refine holding_of_pausing hr ((pausing_of_calls hk).2 ⟨hpause, ?_⟩)
    rcases hpc with hpc | hpc <;> simp [hpc]
  | cancel hpc =>
    obtain ⟨r, hr, rfl⟩ := Option.map_eq_some_iff.1 hrow.symm
    rcases hu with hu | hp
    · simp [RowState.unfinished] at hu
    · exact hpausing hp r hr
  | queue hpc =>
    obtain ⟨r, hr, rfl⟩ := Option.map_eq_some_iff.1 hrow.symm
    have hready := h.ready _ (pc_of_calls hk)
    rw [hpc] at hready
    obtain ⟨r₁, hr₁, hst⟩ := hready
    obtain rfl : r = r₁ := by simpa [hr] using hr₁
    rcases hst with hst | hst
    · exact holding_of_unfinished hr (by simp [hst, RowState.unfinished])
    · exact absurd hst (hq hpc r hr)
  | delete => cases hrow

end

end Job

namespace Service

/-! ## The condition and the invariant -/

/-- No call is in flight. -/
def Quiet (s : Service) : Prop :=
  s.creations = [] ∧ ∀ d ∈ s.ids, (s.jobs d).calls = []

instance (s : Service) : Decidable s.Quiet := by
  unfold Quiet; infer_instance

/-- Calls come one after another, none of them a shutdown; a resume that puts a failed row
back in the queue finds room, and no other unfinished row for its destination; `recover`
runs at start-up. -/
def Sequential (s : Service) : Act → Prop
  | .create _ => s.Quiet
  | .job d (.api _) => d ∈ s.ids → s.Quiet
  | .job d (.call id) => ∀ k ∈ (s.jobs d).calls, k.id = id → k.pc = .setQueued →
      ∀ r ∈ s.row d, r.state = .failed → s.full = false ∧ s.duplicate r.key = false
  | .recover => s.Quiet ∧ s.AtStart
  | .shutdown _ | .shutdownStep _ => False
  | _ => True

instance (s : Service) : (a : Act) → Decidable (s.Sequential a)
  | .create _ => inferInstanceAs (Decidable s.Quiet)
  | .job d (.api _) => inferInstanceAs (Decidable (d ∈ s.ids → s.Quiet))
  | .job d (.call _) => inferInstanceAs (Decidable (∀ k ∈ (s.jobs d).calls, _))
  | .recover => inferInstanceAs (Decidable (s.Quiet ∧ s.AtStart))
  | .shutdown _ | .shutdownStep _ => .isFalse id
  | .job _ .stop | .job _ (.worker _ _) | .creation _ _ | .refuse _ _ | .restart => .isTrue trivial

/-- How many rows hold their destination. -/
def heldCount (s : Service) : ℕ :=
  (s.ids.filter fun d => (s.jobs d).holding).length

/-- Rows that hold their destination are apart, and there is room for what was let in. -/
structure Apart (s : Service) : Prop where
  nodup : s.ids.Nodup
  fresh : ∀ d, d ∉ s.ids → s.row d = none ∧ (s.jobs d).calls = []
  jobs : ∀ d, (s.jobs d).Obeyed
  noShutdown : s.shutdowns = [] ∧ ∀ d, ∀ k ∈ (s.jobs d).calls, k.op ≠ .shutdown
  /-- one `create` or `copy` at most, and then no other call -/
  creation : s.creations.length ≤ 1 ∧
    (s.creations ≠ [] → ∀ d, (s.jobs d).calls = [])
  one : ∀ d d', (s.jobs d).calls ≠ [] → (s.jobs d').calls ≠ [] → d = d'
  apart : ∀ d d' r r', s.row d = some r → s.row d' = some r' → (s.jobs d).holding →
    (s.jobs d').holding → clashes r.key r'.key → d = d'
  count : s.heldCount ≤ s.maxQueue
  room : ∀ c ∈ s.creations, c.pc ≠ .capacity → s.heldCount < s.maxQueue
  alone : ∀ c ∈ s.creations, c.pc = .insert → ∀ d r, s.row d = some r →
    (s.jobs d).holding → clashes r.key c.key = false

section

variable {s s' : Service} {d : Did}

theorem clashes_symm {k k' : Key} (h : clashes k k') : clashes k' k := by
  simp only [clashes, Bool.and_eq_true, decide_eq_true_eq] at h ⊢
  exact ⟨⟨⟨⟨h.1.1.1.1.symm, h.1.1.1.2.symm⟩, h.1.1.2.symm⟩, h.1.2.symm⟩, h.2.symm⟩

/-- Steps after which no more rows hold a destination, and no more calls are in flight. -/
theorem Apart.shrink (h : s.Apart) (hids : s'.ids = s.ids) (hmax : s'.maxQueue = s.maxQueue)
    (hsub : ∀ c ∈ s'.creations, c ∈ s.creations) (hlen : s'.creations.length ≤ s.creations.length)
    (hshut : s'.shutdowns = []) (hjobs : ∀ d, (s'.jobs d).Obeyed)
    (hcalls : ∀ d, (s.jobs d).calls = [] → (s'.jobs d).calls = [])
    (hops : ∀ d, ∀ k ∈ (s'.jobs d).calls, k.op ≠ .shutdown)
    (hrow : ∀ d r', s'.row d = some r' → ∃ r, s.row d = some r ∧ r.key = r'.key)
    (hhold : ∀ d, (s'.jobs d).holding → (s.jobs d).holding) : s'.Apart := by
  have hcount : s'.heldCount ≤ s.heldCount := by
    unfold heldCount
    rw [hids]
    exact List.Sublist.length_le (List.monotone_filter_right _ fun d hd => hhold d hd)
  refine ⟨hids ▸ h.nodup, ?_, hjobs, ⟨hshut, hops⟩, ⟨?_, ?_⟩, ?_, ?_, ?_, ?_, ?_⟩
  · intro d hd
    obtain ⟨hr, hc⟩ := h.fresh d (hids ▸ hd)
    refine ⟨?_, hcalls d hc⟩
    cases hr' : s'.row d with
    | none => rfl
    | some r' =>
      obtain ⟨r, hr₁, _⟩ := hrow d r' hr'
      simp [hr] at hr₁
  · exact Nat.le_trans hlen h.creation.1
  · intro hne d
    refine hcalls d (h.creation.2 ?_ d)
    obtain ⟨c, hc⟩ := List.exists_mem_of_ne_nil _ hne
    exact List.ne_nil_of_mem (hsub c hc)
  · exact fun d d' hd hd' => h.one d d' (fun hc => hd (hcalls d hc)) fun hc => hd' (hcalls d' hc)
  · intro d d' r r' hr hr' hh hh' hcl
    obtain ⟨r₁, hr₁, hk₁⟩ := hrow d r hr
    obtain ⟨r₂, hr₂, hk₂⟩ := hrow d' r' hr'
    exact h.apart d d' r₁ r₂ hr₁ hr₂ (hhold d hh) (hhold d' hh') (by rw [hk₁, hk₂]; exact hcl)
  · rw [hmax]
    have := h.count
    omega
  · intro c hc hpc
    rw [hmax]
    have := h.room c (hsub c hc) hpc
    omega
  · intro c hc hpc d r hr hh
    obtain ⟨r₁, hr₁, hk₁⟩ := hrow d r hr
    rw [← hk₁]
    exact h.alone c (hsub c hc) hpc d r₁ hr₁ (hhold d hh)

/-- The jobs stay. -/
theorem Apart.same_jobs (h : s.Apart) (hids : s'.ids = s.ids) (hmax : s'.maxQueue = s.maxQueue)
    (hjobs : s'.jobs = s.jobs) (hsub : ∀ c ∈ s'.creations, c ∈ s.creations)
    (hlen : s'.creations.length ≤ s.creations.length) (hshut : s'.shutdowns = []) :
    s'.Apart :=
  h.shrink hids hmax hsub hlen hshut (fun d => hjobs ▸ h.jobs d) (fun d hc => by rw [hjobs, hc])
    (fun d => hjobs ▸ h.noShutdown.2 d) (fun d r' hr' => ⟨r', by rw [row_eq, ← hjobs]; exact hr', rfl⟩)
    (fun d hd => hjobs ▸ hd)

/-- Where no call on a row is in flight, what counts is the rows. -/
theorem holding_eq_unfinished (hc : (s.jobs d).calls = []) :
    (s.jobs d).holding = s.unfinished d :=
  Job.holding_of_no_pause (Job.pausing_of_nil hc)

theorem heldCount_eq (hc : ∀ d, (s.jobs d).calls = []) : s.heldCount = s.unfinishedCount := by
  unfold heldCount unfinishedCount
  rw [show (fun d => (s.jobs d).holding) = s.unfinished from
    funext fun d => holding_eq_unfinished (hc d)]

/-- What `check_capacity` and `check_duplicate` say of the destinations that are held. -/
theorem room_of_not_full (hc : ∀ d, (s.jobs d).pausing = false) (hf : s.full = false) :
    s.heldCount < s.maxQueue := by
  have heq : s.heldCount = s.unfinishedCount := by
    unfold heldCount unfinishedCount
    rw [show (fun d => (s.jobs d).holding) = s.unfinished from
      funext fun d => Job.holding_of_no_pause (hc d)]
  rw [heq]
  simpa [full] using hf

theorem Apart.alone_of_not_duplicate (h : s.Apart) (hc : ∀ d, (s.jobs d).pausing = false)
    {key : Key} (hdup : s.duplicate key = false) {r : Row} (hr : s.row d = some r)
    (hh : (s.jobs d).holding) : clashes r.key key = false := by
  have hin : d ∈ s.ids := by
    by_contra hd
    simp [(h.fresh d hd).1] at hr
  have hu : r.state.unfinished := by
    rw [Job.holding_of_no_pause (hc d), ← row_eq, hr] at hh
    exact hh
  have hall := List.any_eq_false.1 hdup d hin
  simpa [hr, hu] using hall

theorem Apart.calls_of_creation (h : s.Apart) {c : Creation} (hc : c ∈ s.creations) :
    s.creations = [c] ∧ ∀ d, (s.jobs d).calls = [] := by
  refine ⟨?_, h.creation.2 (List.ne_nil_of_mem hc)⟩
  have hlen := h.creation.1
  match hcs : s.creations, hlen, hc with
  | [c'], _, hc => simpa [hcs, eq_comm] using hc

/-- The creation in flight goes on. -/
theorem Apart.advance (h : s.Apart) {c : Creation} (hc : c ∈ s.creations) {pc : CreatePc}
    (hroom : s.heldCount < s.maxQueue)
    (halone : pc = .insert → ∀ d r, s.row d = some r → (s.jobs d).holding →
      clashes r.key c.key = false) : (s.creationAt c pc).Apart := by
  obtain ⟨hcs, hcalls⟩ := h.calls_of_creation hc
  have hcs' : (s.creationAt c pc).creations = [{ c with pc }] := by
    simp [creationAt, Keyed.update, hcs]
  refine { nodup := h.nodup, fresh := h.fresh, jobs := h.jobs, noShutdown := h.noShutdown,
           creation := ⟨by simp [hcs'], fun _ => hcalls⟩, one := h.one, apart := h.apart,
           count := h.count, room := fun _ _ _ => hroom, alone := ?_ }
  intro c' hc' hpc d r hr hh
  obtain rfl : c' = { c with pc } := by simpa [hcs'] using hc'
  exact halone hpc d r hr hh

/-- The row is inserted. -/
theorem Apart.insert (h : s.Apart) {c : Creation} (hc : c ∈ s.creations) (hpc : c.pc = .insert)
    (hd : d ∉ s.ids) :
    Apart { s.putJob d (.created c.key) with
      ids := s.ids ++ [d]
      creations := Keyed.remove Creation.id c.id s.creations } := by
  obtain ⟨hcs, hcalls⟩ := h.calls_of_creation hc
  have hcs' : Keyed.remove Creation.id c.id s.creations = [] := by simp [Keyed.remove, hcs]
  have hself : (s.putJob d (.created c.key)).jobs d = .created c.key := putJob_same
  have hother : ∀ {e}, e ≠ d → (s.putJob d (.created c.key)).jobs e = s.jobs e := putJob_of_ne
  have halone := h.alone c hc hpc
  refine ⟨?_, ?_, ?_, ⟨h.noShutdown.1, ?_⟩, ⟨by simp [hcs'], by simp [hcs']⟩, ?_, ?_, ?_,
    by simp [hcs'], by simp [hcs']⟩
  · exact List.nodup_append.2 ⟨h.nodup, by simp, fun a ha b hb => by
      obtain rfl := List.mem_singleton.1 hb
      exact fun hab => hd (hab ▸ ha)⟩
  · intro e he
    rw [List.mem_append, List.mem_singleton, not_or] at he
    simpa only [row_eq, hother he.2] using h.fresh e he.1
  · intro e
    by_cases hed : e = d
    · rw [hed]
      exact hself.symm ▸ Job.obeyed_created c.key
    · simpa only [hother hed] using h.jobs e
  · intro e k hk
    by_cases hed : e = d
    · rw [hed, hself] at hk
      obtain rfl := List.mem_singleton.1 hk
      simp
    · rw [hother hed, hcalls e] at hk
      simp at hk
  · -- only the new row has a call
    have hmine : ∀ e, ((s.putJob d (.created c.key)).jobs e).calls ≠ [] → e = d := by
      intro e he
      by_contra hed
      exact he (by rw [hother hed, hcalls e])
    exact fun e e' he he' => (hmine e he).trans (hmine e' he').symm
  · intro e e' r r' hr hr' hh hh' hcl
    by_cases hed : e = d
    · by_cases hed' : e' = d
      · rw [hed, hed']
      · have hkey : r.key = c.key := by
          rw [row_eq, hed, hself] at hr
          obtain rfl := Option.some.inj hr
          rfl
        rw [row_eq, hother hed'] at hr'
        rw [hother hed'] at hh'
        have hno := halone e' r' hr' hh'
        rw [← hkey] at hno
        simp [clashes_symm hcl] at hno
    · rw [row_eq, hother hed] at hr
      rw [hother hed] at hh
      by_cases hed' : e' = d
      · have hkey : r'.key = c.key := by
          rw [row_eq, hed', hself] at hr'
          obtain rfl := Option.some.inj hr'
          rfl
        have hno := halone e r hr hh
        rw [← hkey, hcl] at hno
        cases hno
      · rw [row_eq, hother hed'] at hr'
        rw [hother hed'] at hh'
        exact h.apart e e' r r' hr hr' hh hh' hcl
  · have hold : s.ids.filter (fun e => ((s.putJob d (.created c.key)).jobs e).holding) =
        s.ids.filter fun e => (s.jobs e).holding :=
      List.filter_congr fun e he => by rw [hother fun hed => hd (hed ▸ he)]
    have hroom := h.room c hc (by simp [hpc])
    simp only [heldCount] at hroom ⊢
    rw [List.filter_append, List.length_append, hold]
    have hone : (([d] : List Did).filter fun e =>
        ((s.putJob d (.created c.key)).jobs e).holding).length ≤ 1 := List.length_filter_le _ _
    have hmax : (s.putJob d (.created c.key)).maxQueue = s.maxQueue := rfl
    rw [hmax]
    push_cast
    omega

theorem Apart.creationStep (h : s.Apart) {c : Creation} (hc : c ∈ s.creations)
    (hs : s.creationStep c d = some s') : s'.Apart := by
  obtain ⟨hcs, hcalls⟩ := h.calls_of_creation hc
  have hnp : ∀ d, (s.jobs d).pausing = false := fun d => Job.pausing_of_nil (hcalls d)
  have hrefuse : ∀ r, (s.refuse c r).Apart := fun r =>
    h.same_jobs rfl rfl rfl (fun c' hc' => Keyed.mem_of_mem_remove hc')
      (List.length_filter_le _ _) h.noShutdown.1
  cases hpc : c.pc with
  | capacity =>
    simp only [Service.creationStep, hpc, Option.some.injEq] at hs
    subst hs
    split
    · exact hrefuse _
    · rename_i hf
      exact h.advance hc (room_of_not_full hnp (Bool.eq_false_iff.2 hf)) (by simp)
  | resolve =>
    simp only [Service.creationStep, hpc, Option.some.injEq] at hs
    subst hs
    exact h.advance hc (h.room c hc (by simp [hpc])) (by simp)
  | duplicate =>
    simp only [Service.creationStep, hpc, Option.some.injEq] at hs
    subst hs
    split
    · exact hrefuse _
    · rename_i hdup
      exact h.advance hc (h.room c hc (by simp [hpc])) fun _ d r hr hh =>
        h.alone_of_not_duplicate hnp (Bool.eq_false_iff.2 hdup) hr hh
  | insert =>
    simp only [Service.creationStep, hpc] at hs
    split at hs
    · cases hs
    · obtain rfl := Option.some.inj hs
      exact h.insert hc hpc ‹_›

/-- A step of one job that takes no destination and begins no call. -/
theorem Apart.job (h : s.Apart) {j : Job} {a : Job.Act} (hs : (s.jobs d).step a = some j)
    (hob : j.Obeyed) (hcalls : (s.jobs d).calls = [] → j.calls = [])
    (hops : ∀ k ∈ j.calls, k.op ≠ .shutdown) (hhold : j.holding → (s.jobs d).holding) :
    (s.putJob d j).Apart := by
  refine h.shrink rfl rfl (fun _ hc => hc) (Nat.le_refl _) h.noShutdown.1 ?_ ?_ ?_ ?_ ?_
  all_goals
    intro e
    by_cases hed : e = d
  · subst hed
    exact putJob_same.symm ▸ hob
  · exact (putJob_of_ne hed).symm ▸ h.jobs e
  · subst hed
    exact putJob_same.symm ▸ hcalls
  · exact fun hc => (putJob_of_ne hed).symm ▸ hc
  · subst hed
    exact putJob_same.symm ▸ hops
  · exact (putJob_of_ne hed).symm ▸ h.noShutdown.2 e
  · subst hed
    intro r' hr'
    rw [row_eq, putJob_same] at hr'
    exact Job.key_of_step hs hr'
  · intro r' hr'
    rw [row_eq, putJob_of_ne hed] at hr'
    exact ⟨r', hr', rfl⟩
  · subst hed
    exact putJob_same.symm ▸ hhold
  · exact fun hh => by rwa [putJob_of_ne hed] at hh

theorem Quiet.calls (hq : s.Quiet) (h : s.Apart) (d : Did) : (s.jobs d).calls = [] := by
  by_cases hd : d ∈ s.ids
  · exact hq.2 d hd
  · exact (h.fresh d hd).2

/-- With one call in flight on a row, nothing else is in flight. -/
theorem Apart.only (h : s.Apart) (hc : (s.jobs d).calls ≠ []) :
    s.creations = [] ∧ ∀ e, e ≠ d → (s.jobs e).calls = [] := by
  refine ⟨?_, fun e hed => ?_⟩
  · by_contra hcs
    exact hc (h.creation.2 hcs d)
  · by_contra he
    exact hed (h.one e d he hc)

/-- A call on a row arrives. -/
theorem Apart.api (h : s.Apart) (hq : s.Quiet) (hd : d ∈ s.ids) {op : Op}
    (hop : Job.isApi op) : (s.putJob d ((s.jobs d).begin op .read)).Apart := by
  have hcalls := hq.calls h
  have hself : (s.putJob d ((s.jobs d).begin op .read)).jobs d = (s.jobs d).begin op .read :=
    putJob_same
  have hother : ∀ {e}, e ≠ d →
      (s.putJob d ((s.jobs d).begin op .read)).jobs e = s.jobs e := putJob_of_ne
  have hcd : ((s.jobs d).begin op .read).calls = [⟨(s.jobs d).nextCall, op, .read, false, false⟩] := by
    simp [Job.begin, hcalls d]
  have hrow : ∀ e, (s.putJob d ((s.jobs d).begin op .read)).row e = s.row e := by
    intro e
    by_cases hed : e = d
    · rw [row_eq, hed, hself]
      rfl
    · rw [row_eq, hother hed]
      rfl
  have hhold : ∀ e, ((s.putJob d ((s.jobs d).begin op .read)).jobs e).holding =
      (s.jobs e).holding := by
    intro e
    by_cases hed : e = d
    · rw [hed, hself, Job.holding_of_no_pause (Job.pausing_of_nil (hcalls d)),
        Job.holding_of_no_pause (by simp [Job.pausing, hcd])]
      rfl
    · rw [hother hed]
  have hone : ∀ e, ((s.putJob d ((s.jobs d).begin op .read)).jobs e).calls ≠ [] → e = d := by
    intro e he
    by_contra hed
    exact he (by rw [hother hed, hcalls e])
  have hob : ((s.jobs d).begin op .read).Obeyed :=
    (h.jobs d).begin (hcalls d) (by cases op <;> simp_all [Job.isApi, Op.at]) (.inl rfl)
  refine ⟨h.nodup, ?_, ?_, ⟨h.noShutdown.1, ?_⟩, ⟨h.creation.1, ?_⟩, ?_, ?_, ?_, ?_, ?_⟩
  · intro e he
    have hed : e ≠ d := fun hed => he (hed ▸ hd)
    rw [hrow, hother hed]
    exact h.fresh e he
  · intro e
    by_cases hed : e = d
    · rw [hed, hself]
      exact hob
    · rw [hother hed]
      exact h.jobs e
  · intro e k hk
    by_cases hed : e = d
    · rw [hed, hself, hcd] at hk
      obtain rfl := List.mem_singleton.1 hk
      intro hk
      simp only at hk
      subst hk
      cases hop
    · rw [hother hed, hcalls e] at hk
      simp at hk
  · exact fun hne => absurd hq.1 hne
  · exact fun e e' he he' => (hone e he).trans (hone e' he').symm
  · intro e e' r r' hr hr' hh hh'
    rw [hrow] at hr hr'
    rw [hhold] at hh hh'
    exact h.apart e e' r r' hr hr' hh hh'
  · have hcount := h.count
    simp only [heldCount, hhold] at hcount ⊢
    exact hcount
  · exact fun c hc => absurd hc (by simp [putJob, hq.1])
  · exact fun c hc => absurd hc (by simp [putJob, hq.1])

/-- A resume puts a failed row back in the queue. -/
theorem Apart.requeue (h : s.Apart) (hd : d ∈ s.ids) {k : Call} (hk : (s.jobs d).calls = [k])
    (hpc : k.pc = .setQueued) {r : Row} (hr : s.row d = some r)
    (hroom : s.full = false ∧ s.duplicate r.key = false) {j : Job}
    (hs : (s.jobs d).callStep k = some j) : (s.putJob d j).Apart := by
  have hob := (h.jobs d).call hk hs
  have hat := (h.jobs d).legal hk
  have hop : k.op = .resume := by
    rw [hpc] at hat
    cases hko : k.op <;> simp_all [Op.at]
  simp only [Job.callStep, hpc, Option.some.injEq] at hs
  subst hs
  obtain ⟨hcs, hcalls⟩ := h.only (d := d) (by simp [hk])
  have hnp : ∀ e, (s.jobs e).pausing = false := by
    intro e
    by_cases hed : e = d
    · rw [hed]
      simp [Job.pausing, hk, hop]
    · exact Job.pausing_of_nil (hcalls e hed)
  generalize hjj : ((s.jobs d).setOutcome .queued none).goto k .reread = j at hob ⊢
  have hcd : j.calls = [{ k with pc := .reread }] := by
    rw [← hjj]
    exact Job.calls_goto (j := (s.jobs d).setOutcome .queued none) hk _
  have hrd : j.row = some { r with state := .queued, error := none } := by
    have hr' : (s.jobs d).row = some r := hr
    rw [← hjj]
    simp [Job.setOutcome, hr']
  have hself : (s.putJob d j).jobs d = j := putJob_same
  have hother : ∀ {e}, e ≠ d → (s.putJob d j).jobs e = s.jobs e := putJob_of_ne
  have hone : ∀ e, ((s.putJob d j).jobs e).calls ≠ [] → e = d := by
    intro e he
    by_contra hed
    exact he (by rw [hother hed, hcalls e hed])
  refine ⟨h.nodup, ?_, ?_, ⟨h.noShutdown.1, ?_⟩, ⟨h.creation.1, ?_⟩, ?_, ?_, ?_, ?_, ?_⟩
  · intro e he
    have hed : e ≠ d := fun hed => he (hed ▸ hd)
    rw [row_eq, hother hed]
    exact h.fresh e he
  · intro e
    by_cases hed : e = d
    · rw [hed, hself]
      exact hob
    · rw [hother hed]
      exact h.jobs e
  · intro e k' hk'
    by_cases hed : e = d
    · rw [hed, hself, hcd] at hk'
      obtain rfl := List.mem_singleton.1 hk'
      simp [hop]
    · rw [hother hed] at hk'
      exact h.noShutdown.2 e k' hk'
  · exact fun hne => absurd hcs hne
  · exact fun e e' he he' => (hone e he).trans (hone e' he').symm
  · -- the other rows that hold a destination were asked by `check_duplicate`
    have hnew : ∀ e r', e ≠ d → s.row e = some r' → (s.jobs e).holding →
        clashes r'.key r.key = false := fun e r' _ hr' hh =>
      h.alone_of_not_duplicate hnp hroom.2 hr' hh
    intro e e' r₁ r₂ hr₁ hr₂ hh₁ hh₂ hcl
    by_cases hed : e = d
    · by_cases hed' : e' = d
      · rw [hed, hed']
      · rw [row_eq, hed, hself, hrd] at hr₁
        obtain rfl := Option.some.inj hr₁
        rw [row_eq, hother hed'] at hr₂
        rw [hother hed'] at hh₂
        have hno := hnew e' r₂ hed' hr₂ hh₂
        simp [clashes_symm hcl] at hno
    · rw [row_eq, hother hed] at hr₁
      rw [hother hed] at hh₁
      by_cases hed' : e' = d
      · rw [row_eq, hed', hself, hrd] at hr₂
        obtain rfl := Option.some.inj hr₂
        have hno := hnew e r₁ hed hr₁ hh₁
        simp [hcl] at hno
      · rw [row_eq, hother hed'] at hr₂
        rw [hother hed'] at hh₂
        exact h.apart e e' r₁ r₂ hr₁ hr₂ hh₁ hh₂ hcl
  · have hlt := room_of_not_full hnp hroom.1
    have hsub : (s.ids.filter fun e => ((s.putJob d j).jobs e).holding) ⊆
        d :: s.ids.filter fun e => (s.jobs e).holding := by
      intro e he
      obtain ⟨hein, hh⟩ := List.mem_filter.1 he
      by_cases hed : e = d
      · exact hed ▸ List.mem_cons_self
      · rw [hother hed] at hh
        exact List.mem_cons_of_mem _ (List.mem_filter.2 ⟨hein, hh⟩)
    have hle := (List.subperm_of_subset (h.nodup.filter _) hsub).length_le
    have hmax : (s.putJob d j).maxQueue = s.maxQueue := rfl
    simp only [heldCount, List.length_cons] at hle hlt ⊢
    have hids : (s.putJob d j).ids = s.ids := rfl
    rw [hmax, hids]
    omega
  · exact fun c hc => absurd hc (by simp [putJob, hcs])
  · exact fun c hc => absurd hc (by simp [putJob, hcs])

theorem Apart.recover (h : s.Apart) (hq : s.Quiet) (hok : s.AtStart) : s.recover.Apart := by
  have hcalls := hq.calls h
  refine h.shrink rfl rfl (fun _ hc => hc) (Nat.le_refl _) h.noShutdown.1 ?_ ?_ ?_ ?_ ?_
  · intro d
    by_cases hd : d ∈ s.ids
    · have hidle := (h.jobs d).idle_of_not_live (hcalls d) (hok d hd).2
      exact (Job.Idle.calm (j := s.recover.jobs d) hidle (hcalls d) (h.jobs d).known).toObeyed
    · exact recover_of_fresh (h.fresh d hd).1 ▸ h.jobs d
  · exact fun d hc => hc
  · exact fun d => h.noShutdown.2 d
  · intro d r' hr'
    obtain ⟨r, hr, rfl⟩ := Option.map_eq_some_iff.1 hr'
    exact ⟨r, hr, by unfold Row.recover; split <;> rfl⟩
  · intro d hh
    obtain ⟨r', hr', hu⟩ := Job.holding_iff.1 hh
    obtain ⟨r, hr, rfl⟩ := Option.map_eq_some_iff.1 hr'
    refine Job.holding_iff.2 ⟨r, hr, .inl ?_⟩
    rcases hu with hu | hp
    · unfold Row.recover at hu
      split at hu
      · exact RowState.unfinished_of_active ‹_›
      · exact hu
    · have hpc : (s.jobs d).pausing = false := Job.pausing_of_nil (hcalls d)
      have hp' : (s.jobs d).pausing = true := hp
      simp [hpc] at hp'

theorem Apart.restart (h : s.Apart) : s.restart.Apart := by
  refine h.shrink rfl rfl (fun _ hc => by simp [Service.restart] at hc) (Nat.zero_le _) rfl
    (fun d => Job.obeyed_loaded _) (fun d _ => rfl) (fun d k hk => ?_)
    (fun d r' hr' => ⟨r', hr', rfl⟩) fun d hh => ?_
  · simp [Service.restart, Job.loaded] at hk
  · obtain ⟨r, hr, hu⟩ := Job.holding_iff.1 hh
    rcases hu with hu | hp
    · exact Job.holding_of_unfinished hr hu
    · rw [Job.pausing_of_nil rfl] at hp
      cases hp

theorem Apart.jobStep (h : s.Apart) (hd : d ∈ s.ids) {b : Job.Act} (hb : b ≠ .stop)
    (hok : s.Sequential (.job d b)) {j : Job} (hj : (s.jobs d).step b = some j) :
    (s.putJob d j).Apart := by
  have hj' := hj
  cases b with
  | api op =>
    simp only [Job.step] at hj
    split at hj
    · obtain rfl := Option.some.inj hj
      exact h.api (hok hd) hd ‹_›
    · cases hj
  | stop => exact absurd rfl hb
  | call id =>
    simp only [Job.step] at hj
    split at hj
    · rename_i k hk
      have hcalls := (h.jobs d).calls_of_find hk
      have hid := Keyed.key_of_find hk
      have hne : k.op ≠ .shutdown := h.noShutdown.2 d k (by simp [hcalls])
      by_cases hq : k.pc = .setQueued ∧ ∃ r, s.row d = some r ∧ r.state = .failed
      · obtain ⟨hpc, r, hr, hst⟩ := hq
        exact h.requeue hd hcalls hpc hr (hok k (by simp [hcalls]) hid hpc r hr hst) hj
      · refine h.job hj' ((h.jobs d).call hcalls hj) (fun hnil => by simp [hcalls] at hnil) ?_
          ((h.jobs d).holding_call hcalls hne (fun hpc r hr hst => hq ⟨hpc, r, hr, hst⟩) hj)
        intro k' hk'
        rcases Job.callStep_follows hcalls hj with hnil | ⟨k'', hk'', hop, _⟩
        · simp [hnil] at hk'
        · obtain rfl : k' = k'' := by simpa [hk''] using hk'
          exact hop ▸ hne
    · cases hj
  | worker i m =>
    simp only [Job.step] at hj
    split at hj
    · rename_i w hw
      have hcalls : j.calls = (s.jobs d).calls := by
        obtain ⟨w', row, _, rfl⟩ := Job.workerStep_effect hj
        rfl
      exact h.job hj' ((h.jobs d).worker hw hj) (fun hnil => hcalls.trans hnil)
        (hcalls ▸ h.noShutdown.2 d) ((h.jobs d).holding_worker (h.noShutdown.2 d) hw hj)
    · cases hj

theorem Apart.step (h : s.Apart) {a : Act} (hok : s.Sequential a) (hs : s.step a = some s') :
    s'.Apart := by
  cases a with
  | create key =>
    obtain rfl := Option.some.inj hs
    have hq : s.Quiet := hok
    refine { nodup := h.nodup, fresh := h.fresh, jobs := h.jobs, noShutdown := h.noShutdown,
             creation := ⟨by simp [hq.1], fun _ => hq.calls h⟩, one := h.one, apart := h.apart,
             count := h.count, room := ?_, alone := ?_ }
    · intro c hc hpc
      obtain rfl : c = ⟨s.nextCreation, key, .capacity⟩ := by simpa [hq.1] using hc
      simp at hpc
    · intro c hc hpc
      obtain rfl : c = ⟨s.nextCreation, key, .capacity⟩ := by simpa [hq.1] using hc
      simp at hpc
  | creation id d =>
    simp only [Service.step] at hs
    split at hs
    · exact h.creationStep (Keyed.mem_of_find ‹_›) hs
    · cases hs
  | refuse id message =>
    simp only [Service.step] at hs
    split at hs
    · split at hs
      · obtain rfl := Option.some.inj hs
        exact h.same_jobs rfl rfl rfl (fun c' hc' => Keyed.mem_of_mem_remove hc')
          (List.length_filter_le _ _) h.noShutdown.1
      · cases hs
    · cases hs
  | job d b =>
    simp only [Service.step] at hs
    split at hs
    · rename_i hd
      obtain ⟨j, hj, rfl⟩ := Option.map_eq_some_iff.1 hs
      exact h.jobStep hd.1 hd.2 hok hj
    · cases hs
  | recover =>
    obtain rfl := Option.some.inj hs
    exact h.recover hok.1 hok.2
  | restart =>
    obtain rfl := Option.some.inj hs
    exact h.restart
  | shutdown | shutdownStep => exact hok.elim

theorem apart_empty {q : ℤ} (hq : 0 ≤ q) : (empty q).Apart where
  nodup := List.nodup_nil
  fresh _ _ := ⟨rfl, rfl⟩
  jobs _ := Job.obeyed_loaded none
  noShutdown := ⟨rfl, fun d k hk => by simp [empty, Job.loaded] at hk⟩
  creation := ⟨by simp [empty], fun _ _ => rfl⟩
  one d d' hd := absurd rfl hd
  apart d d' r r' hr := by simp [empty, row_eq, Job.loaded] at hr
  count := by simpa [heldCount, empty] using hq
  room c hc := by simp [empty] at hc
  alone c hc := by simp [empty] at hc

/-! ## Runs -/

theorem clashes_self (k : Key) : clashes k k := by
  simp [clashes]

/-- In a sequential run no two unfinished rows have one destination, and no more than
`max_queue` rows are unfinished. -/
theorem no_clash {q : ℤ} (hq : 0 ≤ q) (h : ReachBy step Sequential (empty q) s) :
    (∀ d d' r r', s.row d = some r → s.row d' = some r' → r.state.unfinished →
      r'.state.unfinished → r.key = r'.key → d = d') ∧
    s.unfinishedCount ≤ q := by
  have hs : s.Apart ∧ s.maxQueue = q := by
    refine h.invariant (fun s => s.Apart ∧ s.maxQueue = q) ?_ ⟨apart_empty hq, rfl⟩
    intro s a t hok hi hst
    exact ⟨hi.1.step hok hst, (maxQueue_step hst).trans hi.2⟩
  refine ⟨fun d d' r r' hr hr' hu hu' hkey => ?_, ?_⟩
  · exact hs.1.apart d d' r r' hr hr' (Job.holding_of_unfinished hr hu)
      (Job.holding_of_unfinished hr' hu') (hkey ▸ clashes_self r.key)
  · have hle : s.unfinishedCount ≤ s.heldCount :=
      List.Sublist.length_le (List.monotone_filter_right _ fun d hd => by
        obtain ⟨r, hr, hu⟩ := (Option.any_eq_true _ _).1 hd
        exact Job.holding_of_unfinished hr hu)
    have hcount := hs.1.count
    rw [hs.2] at hcount
    omega

end

/-- The download fails : its row can be resumed. -/
def fails : List Act :=
  ([.next, .next, .next, .fail ("hf_error", "gone"), .next, .next, .next] : List Move).map fun m =>
    .job "dl_a" (.worker 0 m)

/-- The row is resumed. -/
def resumes : List Act :=
  .job "dl_a" (.api .resume) :: List.replicate 7 (.job "dl_a" (.call 1))

/-- A failed row that finds room is resumed. -/
theorem no_clash_resumed :
    ∃ s, ReachBy step Sequential (empty 1) s ∧ s.stateOf = some .queued ∧
      s.unfinishedCount ≤ (1 : ℤ) := by
  have hrun : ((runBy step Sequential (empty 1) (started ++ fails ++ resumes)).any fun s =>
      s.stateOf = some .queued) = true := by decide +kernel
  obtain ⟨s, hs, hp⟩ := (Option.any_eq_true _ _).1 hrun
  exact ⟨s, .of_runBy hs, of_decide_eq_true hp,
    (no_clash (by decide : (0 : ℤ) ≤ 1) (ReachBy.of_runBy hs)).2⟩

/-- The same repository is downloaded again, by a new row. -/
def again : List Act :=
  .create Job.someKey :: List.replicate 4 (.creation 1 "dl_b") ++
    List.replicate 4 (.job "dl_b" (.call 0))

/-- A download fails, its repository is downloaded again, and the failed row is resumed :
two rows are unfinished for one destination, where `max_queue` is one. -/
theorem resume_clashes :
    ∃ s, Reach step (empty 1) s ∧ ∃ r r', s.row "dl_a" = some r ∧ s.row "dl_b" = some r' ∧
      r.state.unfinished ∧ r'.state.unfinished ∧ r.key = r'.key ∧
      s.maxQueue < s.unfinishedCount := by
  have hrun : ((runActs step (empty 1) (started ++ fails ++ again ++ resumes)).any fun s =>
      s.row "dl_a" = some ⟨Job.someKey, .queued, none⟩ ∧
      s.row "dl_b" = some ⟨Job.someKey, .queued, none⟩ ∧
      s.maxQueue < s.unfinishedCount) = true := by decide +kernel
  obtain ⟨s, hs, hp⟩ := (Option.any_eq_true _ _).1 hrun
  obtain ⟨ha, hb, hcount⟩ := of_decide_eq_true hp
  exact ⟨s, .of_runActs hs, _, _, ha, hb, rfl, rfl, rfl, hcount⟩

end Service

end EngineConsole.Downloads
