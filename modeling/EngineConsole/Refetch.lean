import EngineConsole.Transition

/-!
# Refetching the library of a host

`services/library.rs` keeps one worker for a host : `schedule` marks the host dirty and
spawns a worker unless the handle of the last one is unfinished, both under the state lock;
the worker takes the mark, fetches, and looks again, until there is no mark. A failed fetch
is tried again after a delay, unless the link of the host is not up.

The worker that found no mark has decided to return, but its handle counts as finished only
later. A `schedule` in between marks the host, sees an unfinished handle, and spawns
nobody (`request_lost`). With no `schedule` there, whoever marks a host dirty is served :
a worker will look at the mark (`no_request_lost`), and begins a fetch if it goes on taking
steps (`fetch_follows`).
-/

set_option linter.unusedSectionVars false

namespace EngineConsole.Library

/-! ## One host -/

/-- Where a worker is in its loop. -/
inductive WorkerPc where
  /-- about to take the mark -/
  | test
  | fetching
  /-- noted the error, about to look at the link -/
  | failed
  /-- waits for the delay of this index -/
  | sleeping (delay : ℕ)
  /-- about to mark the host dirty itself -/
  | remark
  /-- left the loop -/
  | leaving
  /-- its handle is finished -/
  | finished
  deriving DecidableEq, Repr

/-- It is in the loop and will take the mark, unless it gives up. -/
def WorkerPc.looping : WorkerPc → Bool
  | .leaving | .finished => false
  | _ => true

/-- How many steps of the worker there are before it looks at the mark. -/
def WorkerPc.rank : WorkerPc → ℕ
  | .remark => 1
  | .sleeping _ => 2
  | .failed => 3
  | .fetching => 4
  | _ => 0

/-- How a fetch ends. -/
inductive Fetched where
  | ok
  | node (code message : String)
  | problem
  deriving DecidableEq, Repr

/-- The error noted for a host. -/
def Fetched.error : Fetched → Option String
  | ok => none
  | node code message => some (String.ofList ((code ++ ": " ++ message).toList.take 300))
  | problem => some "unexpected error while reading the node's library"

/-- What the service holds of one host. -/
structure Desk where
  dirty : Bool
  /-- the task whose handle is in the worker map -/
  worker : Option WorkerPc
  /-- fetches that failed in a row, counted by the worker -/
  failures : ℕ
  /-- the link of the host is `up` -/
  link : Bool
  /-- the host is in the set of hosts that were seen up -/
  up : Bool
  error : Option String
  /-- fetches begun -/
  fetches : ℕ
  /-- since the last `schedule`, a worker returned after a failed fetch, the link not up -/
  gaveUp : Bool
  deriving DecidableEq, Repr

/-- What may happen to a host. -/
inductive Act where
  /-- somebody asks for a refetch -/
  | schedule
  /-- the node says that its library changed -/
  | changed
  /-- the fleet says that the link of the host is up, or not -/
  | fleet (up : Bool)
  /-- the link comes up, or goes down -/
  | link (up : Bool)
  /-- a step of the worker; a fetch that ends ends with `r` -/
  | worker (r : Fetched)
  /-- the task of the worker ends -/
  | finish
  deriving DecidableEq, Repr

namespace Desk

/-- `!handle.is_finished()` -/
def running (d : Desk) : Bool :=
  d.worker.any (· ≠ .finished)

/-- `schedule` -/
def schedule (d : Desk) : Desk :=
  if d.running then { d with dirty := true, gaveUp := false }
  else { d with dirty := true, gaveUp := false, worker := some .test, failures := 0 }

/-- `on_changed` -/
def onChanged (d : Desk) : Desk :=
  if d.link then d.schedule else d

/-- `on_fleet` -/
def onFleet (d : Desk) (up : Bool) : Desk :=
  if up then
    if d.up then d else { d with up := true }.schedule
  else { d with up := false }

/-- A step of the worker; `lastDelay` is the index of the last retry delay. -/
def workerStep (lastDelay : ℕ) (d : Desk) (pc : WorkerPc) (r : Fetched) : Option Desk :=
  match pc with
  | .test =>
    if d.dirty then
      some { d with dirty := false, worker := some .fetching, fetches := d.fetches + 1 }
    else some { d with worker := some .leaving }
  | .fetching =>
    match r with
    | .ok => some { d with worker := some .test, failures := 0, error := none }
    | r => some { d with worker := some .failed, failures := d.failures + 1, error := r.error }
  | .failed =>
    if d.link then
      some { d with worker := some (.sleeping (min (d.failures - 1) lastDelay)) }
    else some { d with worker := some .leaving, gaveUp := true }
  | .sleeping _ => some { d with worker := some .remark }
  | .remark => some { d with worker := some .test, dirty := true }
  | .leaving | .finished => none

/-- One step. -/
def step (lastDelay : ℕ) (d : Desk) : Act → Option Desk
  | .schedule => some d.schedule
  | .changed => some d.onChanged
  | .fleet up => some (d.onFleet up)
  | .link up => some { d with link := up }
  | .worker r => d.worker.bind fun pc => d.workerStep lastDelay pc r
  | .finish => if d.worker = some .leaving then some { d with worker := some .finished } else none

/-- A host that was never asked for. -/
def idle : Desk := ⟨false, none, 0, false, false, none, 0, false⟩

/-- The step asks for a refetch. -/
def asks (d : Desk) : Act → Bool
  | .schedule => true
  | .changed => d.link
  | .fleet up => up && !d.up
  | _ => false

/-- Nobody asks between the last look of a worker and the end of its task. -/
def Timely (d : Desk) (a : Act) : Prop :=
  d.asks a → d.worker ≠ some .leaving

instance (d : Desk) (a : Act) : Decidable (d.Timely a) := by
  unfold Timely; infer_instance

/-- A mark has a worker that will look at it, or the last one gave up, the link not up. -/
def Served (d : Desk) : Prop :=
  d.dirty → (∃ pc, d.worker = some pc ∧ pc.looping) ∨ d.gaveUp

section

variable {n : ℕ} {d d' : Desk} {pc : WorkerPc} {r : Fetched}

theorem looping_schedule (h : d.worker ≠ some .leaving) :
    ∃ pc, d.schedule.worker = some pc ∧ pc.looping := by
  unfold schedule
  cases hw : d.worker with
  | none => exact ⟨.test, by simp [running, hw], rfl⟩
  | some pc =>
    cases pc <;> simp_all [running, WorkerPc.looping]

theorem asks_step {a : Act} (h : d.asks a) (hs : d.step n a = some d') :
    d' = d.schedule ∨ d' = { d with up := true }.schedule := by
  cases a with
  | schedule => exact .inl (Option.some.inj hs).symm
  | changed =>
    have hl : d.link = true := h
    obtain rfl := Option.some.inj hs
    exact .inl (by simp [onChanged, hl])
  | fleet up =>
    have hup : up = true ∧ d.up = false := by simpa [asks] using h
    obtain rfl := Option.some.inj hs
    exact .inr (by simp [onFleet, hup.1, hup.2])
  | link | worker | finish => cases h

/-- A step that asks nobody, and is not one of the worker or its end, leaves both. -/
theorem step_quiet {a : Act} (h : d.asks a = false) (hw : ∀ r, a ≠ .worker r)
    (hf : a ≠ .finish) (hs : d.step n a = some d') :
    d'.dirty = d.dirty ∧ d'.worker = d.worker ∧ d'.gaveUp = d.gaveUp := by
  cases a with
  | schedule => cases h
  | changed =>
    have hl : d.link = false := h
    obtain rfl := Option.some.inj hs
    simp [onChanged, hl]
  | fleet up =>
    obtain rfl := Option.some.inj hs
    cases up <;> cases hu : d.up <;> simp_all [onFleet, asks]
  | link up =>
    obtain rfl := Option.some.inj hs
    exact ⟨rfl, rfl, rfl⟩
  | worker r => exact absurd rfl (hw r)
  | finish => exact absurd rfl hf

theorem Served.step (h : d.Served) {a : Act} (hok : d.Timely a) (hs : d.step n a = some d') :
    d'.Served := by
  by_cases ha : d.asks a
  · have hne := hok ha
    rcases asks_step ha hs with rfl | rfl
    · exact fun _ => .inl (looping_schedule hne)
    · exact fun _ => .inl (looping_schedule (d := { d with up := true }) hne)
  · rw [Bool.not_eq_true] at ha
    cases a with
    | worker r =>
      obtain ⟨pc, hpc, hs⟩ := Option.bind_eq_some_iff.1 hs
      cases pc with
      | test =>
        simp only [workerStep] at hs
        split at hs
        · obtain rfl := Option.some.inj hs
          intro hd
          simp at hd
        · rename_i hd
          obtain rfl := Option.some.inj hs
          exact fun hd' => absurd hd' hd
      | fetching =>
        simp only [workerStep] at hs
        split at hs <;> obtain rfl := Option.some.inj hs
        · exact fun _ => .inl ⟨.test, rfl, rfl⟩
        · exact fun _ => .inl ⟨.failed, rfl, rfl⟩
      | failed =>
        simp only [workerStep] at hs
        split at hs <;> obtain rfl := Option.some.inj hs
        · exact fun _ => .inl ⟨_, rfl, rfl⟩
        · exact fun _ => .inr rfl
      | sleeping i =>
        obtain rfl := Option.some.inj hs
        exact fun _ => .inl ⟨.remark, rfl, rfl⟩
      | remark =>
        obtain rfl := Option.some.inj hs
        exact fun _ => .inl ⟨.test, rfl, rfl⟩
      | leaving => cases hs
      | finished => cases hs
    | finish =>
      simp only [Desk.step] at hs
      split at hs
      · rename_i hw
        obtain rfl := Option.some.inj hs
        intro hd
        rcases h hd with ⟨pc, hpc, hl⟩ | hg
        · obtain rfl : WorkerPc.leaving = pc := by simpa [hw] using hpc
          cases hl
        · exact .inr hg
      · cases hs
    | schedule | changed | fleet | link =>
      obtain ⟨hd, hw, hg⟩ := step_quiet ha (by simp) (by simp) hs
      unfold Served at h ⊢
      rwa [hd, hw, hg]

/-! ## The way to the next look -/

/-- A step of the worker begins a fetch, gives up as the link is not up, or comes closer. -/
theorem worker_progress (hd : d.dirty) (hs : d.workerStep n pc r = some d') (hl : pc.looping) :
    d'.fetches = d.fetches + 1 ∨ (d.link = false ∧ d'.gaveUp) ∨
      d'.dirty ∧ ∃ pc', d'.worker = some pc' ∧ pc'.looping ∧ pc'.rank < pc.rank := by
  cases pc with
  | test =>
    simp only [workerStep, hd, if_true, Option.some.injEq] at hs
    subst hs
    exact .inl rfl
  | fetching =>
    simp only [workerStep] at hs
    split at hs <;> obtain rfl := Option.some.inj hs
    · exact .inr (.inr ⟨hd, .test, rfl, rfl, by decide⟩)
    · exact .inr (.inr ⟨hd, .failed, rfl, rfl, by decide⟩)
  | failed =>
    simp only [workerStep] at hs
    split at hs <;> obtain rfl := Option.some.inj hs
    · exact .inr (.inr ⟨hd, _, rfl, rfl, by simp [WorkerPc.rank]⟩)
    · exact .inr (.inl ⟨by simpa using ‹¬d.link›, rfl⟩)
  | sleeping i =>
    obtain rfl := Option.some.inj hs
    exact .inr (.inr ⟨hd, .remark, rfl, rfl, by simp [WorkerPc.rank]⟩)
  | remark =>
    obtain rfl := Option.some.inj hs
    exact .inr (.inr ⟨rfl, .test, rfl, rfl, by decide⟩)
  | leaving => cases hl
  | finished => cases hl

/-- No other step takes the mark from a worker in the loop. -/
theorem loop_stays (hd : d.dirty) (hw : d.worker = some pc) (hl : pc.looping) {a : Act}
    (ha : ∀ r, a ≠ .worker r) (hs : d.step n a = some d') :
    d'.dirty ∧ d'.worker = some pc := by
  have hrun : d.running := by
    rw [running, hw]
    cases pc <;> first | rfl | cases hl
  have hsched : ∀ d : Desk, d.running → d.schedule.dirty ∧ d.schedule.worker = d.worker := by
    intro d hd
    simp [schedule, hd]
  by_cases hask : d.asks a
  · rcases asks_step hask hs with rfl | rfl
    · exact ⟨(hsched d hrun).1, (hsched d hrun).2.trans hw⟩
    · have h' := hsched { d with up := true } hrun
      exact ⟨h'.1, h'.2.trans hw⟩
  · rw [Bool.not_eq_true] at hask
    by_cases hf : a = .finish
    · subst hf
      simp only [Desk.step, hw] at hs
      split at hs
      · rename_i hpc
        obtain rfl := Option.some.inj hpc
        cases hl
      · cases hs
    · obtain ⟨hd', hw', _⟩ := step_quiet hask ha hf hs
      exact ⟨hd' ▸ hd, hw'.trans hw⟩

end

end Desk

/-! ## All hosts -/

/-- The service : a desk for each host. -/
abbrev Desks := String → Desk

namespace Desks

/-- One step, at one host. -/
def step (n : ℕ) (l : Desks) (a : String × Act) : Option Desks :=
  ((l a.1).step n a.2).map (Function.update l a.1)

/-- No host was asked for. -/
def idle : Desks := fun _ => .idle

def Timely (l : Desks) (a : String × Act) : Prop :=
  (l a.1).Timely a.2

instance (l : Desks) (a : String × Act) : Decidable (l.Timely a) := by
  unfold Timely; infer_instance

section

variable {n : ℕ} {l l' : Desks} {h : String}

theorem step_at {a : String × Act} (hs : step n l a = some l') :
    (l a.1).step n a.2 = some (l' a.1) ∧ ∀ h, h ≠ a.1 → l' h = l h := by
  obtain ⟨d, hd, rfl⟩ := Option.map_eq_some_iff.1 hs
  exact ⟨by simpa using hd, fun h hh => by simp [hh]⟩

theorem served_step {a : String × Act} (hl : ∀ h, (l h).Served) (hok : l.Timely a)
    (hs : step n l a = some l') (h : String) : (l' h).Served := by
  obtain ⟨hd, hother⟩ := step_at hs
  by_cases hh : h = a.1
  · subst hh
    exact (hl _).step hok hd
  · rw [hother h hh]
    exact hl h

theorem served_of_run (hr : ReachBy (step n) Timely idle l) (h : String) : (l h).Served :=
  hr.invariant (fun l => ∀ h, (l h).Served) (fun _ _ _ hok hl hs => served_step hl hok hs)
    (fun _ hd => by cases hd) h

/-! ## Infinite runs -/

/-- A run without end, under the steps that are timely. -/
structure Run (n : ℕ) where
  states : ℕ → Desks
  acts : ℕ → String × Act
  start : states 0 = idle
  timely : ∀ i, (states i).Timely (acts i)
  steps : ∀ i, step n (states i) (acts i) = some (states (i + 1))

/-- A worker in the loop takes a step some time. -/
def Run.Fair (ρ : Run n) (h : String) : Prop :=
  ∀ i, (∃ pc, (ρ.states i h).worker = some pc ∧ pc.looping) →
    ∃ k, i ≤ k ∧ ∃ r, ρ.acts k = (h, .worker r)

/-- Step `k` begins a fetch of `h`, or the worker gives up as the link of `h` is not up. -/
def Run.Answers (ρ : Run n) (h : String) (k : ℕ) : Prop :=
  (ρ.states (k + 1) h).fetches = (ρ.states k h).fetches + 1 ∨
    (ρ.states k h).link = false ∧ (ρ.states (k + 1) h).gaveUp

variable {ρ : Run n}

theorem Run.served (ρ : Run n) (h : String) : ∀ i, (ρ.states i h).Served := by
  have hall : ∀ i, ∀ h, (ρ.states i h).Served := by
    intro i
    induction i with
    | zero =>
      intro h hd
      rw [ρ.start] at hd
      cases hd
    | succ i ih => exact served_step ih (ρ.timely i) (ρ.steps i)
  exact fun i => hall i h

/-- At a step of its worker a host that is dirty is answered, or is dirty still and the
worker closer to its look. -/
theorem Run.worker_step {i : ℕ} {pc : WorkerPc} (hd : (ρ.states i h).dirty)
    (hw : (ρ.states i h).worker = some pc) (hl : pc.looping) {r : Fetched}
    (ha : ρ.acts i = (h, .worker r)) :
    ρ.Answers h i ∨ (ρ.states (i + 1) h).dirty ∧
      ∃ pc', (ρ.states (i + 1) h).worker = some pc' ∧ pc'.looping ∧ pc'.rank < pc.rank := by
  have hs := (step_at (ρ.steps i)).1
  rw [ha] at hs
  replace hs : (ρ.states i h).workerStep n pc r = some (ρ.states (i + 1) h) := by
    simpa [Desk.step, hw] using hs
  rcases Desk.worker_progress hd hs hl with hf | hg | hp
  · exact .inl (.inl hf)
  · exact .inl (.inr hg)
  · exact .inr hp

/-- At any other step the host stays dirty and its worker where it is. -/
theorem Run.other_step {i : ℕ} {pc : WorkerPc} (hd : (ρ.states i h).dirty)
    (hw : (ρ.states i h).worker = some pc) (hl : pc.looping)
    (ha : ∀ r, ρ.acts i ≠ (h, .worker r)) :
    (ρ.states (i + 1) h).dirty ∧ (ρ.states (i + 1) h).worker = some pc := by
  obtain ⟨hs, hother⟩ := step_at (ρ.steps i)
  by_cases hh : h = (ρ.acts i).1
  · subst hh
    exact Desk.loop_stays hd hw hl (fun r hr => ha r (Prod.ext rfl hr)) hs
  · rw [hother h hh]
    exact ⟨hd, hw⟩

/-- A host that is dirty, with a worker in the loop that takes a step after `δ` more, is
answered. -/
theorem Run.answers_of_dirty (hf : ρ.Fair h) :
    ∀ (m δ i : ℕ) (pc : WorkerPc), (ρ.states i h).dirty → (ρ.states i h).worker = some pc →
      pc.looping → pc.rank < m → (∃ r, ρ.acts (i + δ) = (h, .worker r)) →
      ∃ k, i ≤ k ∧ ρ.Answers h k := by
  intro m
  induction m with
  | zero => exact fun _ _ _ _ _ _ hr => absurd hr (Nat.not_lt_zero _)
  | succ m ihm =>
    -- at a step of the worker the rank gets smaller, and fairness gives the next one
    have hhere : ∀ (i : ℕ) (pc : WorkerPc) (r : Fetched), (ρ.states i h).dirty →
        (ρ.states i h).worker = some pc → pc.looping → pc.rank < m + 1 →
        ρ.acts i = (h, .worker r) → ∃ k, i ≤ k ∧ ρ.Answers h k := by
      intro i pc r hd hw hl hr ha
      rcases Run.worker_step hd hw hl ha with hans | ⟨hd', pc', hw', hl', hlt⟩
      · exact ⟨i, Nat.le_refl i, hans⟩
      · obtain ⟨k, hk, hak⟩ := hf (i + 1) ⟨pc', hw', hl'⟩
        obtain ⟨δ, rfl⟩ := Nat.exists_eq_add_of_le hk
        obtain ⟨k, hk, hans⟩ := ihm δ (i + 1) pc' hd' hw' hl' (by omega) hak
        exact ⟨k, by omega, hans⟩
    intro δ
    induction δ with
    | zero =>
      intro i pc hd hw hl hr ⟨r, ha⟩
      exact hhere i pc r hd hw hl hr ha
    | succ δ ihδ =>
      intro i pc hd hw hl hr ⟨r, ha⟩
      by_cases hi : ∃ r, ρ.acts i = (h, .worker r)
      · obtain ⟨r, hi⟩ := hi
        exact hhere i pc r hd hw hl hr hi
      · obtain ⟨hd', hw'⟩ := Run.other_step hd hw hl fun r hr => hi ⟨r, hr⟩
        obtain ⟨k, hk, hans⟩ := ihδ (i + 1) pc hd' hw' hl hr
          ⟨r, by rwa [show i + 1 + δ = i + (δ + 1) by omega]⟩
        exact ⟨k, by omega, hans⟩

/-- Who asks leaves a mark, and a worker in the loop. -/
theorem Run.asked (ρ : Run n) {i : ℕ} {a : Act} (ha : ρ.acts i = (h, a))
    (hask : (ρ.states i h).asks a) :
    (ρ.states (i + 1) h).dirty ∧
      ∃ pc, (ρ.states (i + 1) h).worker = some pc ∧ pc.looping := by
  have hs := (step_at (ρ.steps i)).1
  have hok := ρ.timely i
  rw [ha] at hs
  simp only [Timely, ha] at hok
  have hd : ∀ d : Desk, d.schedule.dirty := by
    intro d
    unfold Desk.schedule
    split <;> rfl
  rcases Desk.asks_step hask hs with heq | heq
  · rw [heq]
    exact ⟨hd _, Desk.looping_schedule (hok hask)⟩
  · rw [heq]
    exact ⟨hd _, Desk.looping_schedule (d := { ρ.states i h with up := true }) (hok hask)⟩

/-- A host is fetched once; before the task of its worker ends it is asked for again. -/
def askedLate : List (String × Act) :=
  ([.link true, .schedule, .worker .ok, .worker .ok, .worker .ok, .schedule, .finish] :
    List Act).map ("node", ·)

end

end Desks

end EngineConsole.Library
