import EngineConsole.JobEnds

/-!
# The download service

All rows together : `create` and `copy`, which ask for room and for duplicates before they
insert a row, the calls and workers of each row (`Job.step`), `recover`, which rewrites the
states in bulk, and `shutdown`, which stops the tasks of the task map one after another.

What `create` and `copy` check of their arguments, and of machines and roots, is the step
`refuse` : the call may be turned down there. A call on an id that no row ever had is
answered `notFound` and changes nothing, so it is left out.
-/

set_option linter.unusedSectionVars false

namespace EngineConsole.Downloads

/-! ## The state -/

/-- The id of a row. -/
abbrev Did := String

/-- Where a `create` or `copy` is before its row is there. -/
inductive CreatePc where
  | capacity
  /-- asks for the machine and the root -/
  | resolve
  | duplicate
  | insert
  deriving DecidableEq, Repr

/-- A `create` or `copy` in flight. -/
structure Creation where
  id : ℕ
  key : Key
  pc : CreatePc
  deriving DecidableEq, Repr

/-- Why one was turned down. -/
inductive Refusal where
  | queueFull
  | exists
  | other (message : String)
  deriving DecidableEq, Repr

def Refusal.code : Refusal → Option String
  | queueFull => some "download_queue_full"
  | .exists => some "download_exists"
  | other _ => none

def Refusal.message : Refusal → String
  | queueFull => "too many unfinished downloads; cancel or finish some first"
  | .exists => "this is already being downloaded to that location (queued, running or paused)"
  | other message => message

/-- A shutdown in flight. -/
structure Shutdown where
  id : ℕ
  /-- the rows it has yet to stop -/
  rest : List Did
  /-- the row it is stopping, and its call there -/
  stopping : Option (Did × ℕ)
  deriving DecidableEq, Repr

/-- The service. -/
structure Service where
  maxQueue : ℤ
  /-- the ids of all rows there were -/
  ids : List Did
  jobs : Did → Job
  creations : List Creation
  nextCreation : ℕ
  refusals : List (ℕ × Refusal)
  shutdowns : List Shutdown
  nextShutdown : ℕ

namespace Service

/-- The row of an id. -/
def row (s : Service) (d : Did) : Option Row :=
  (s.jobs d).row

/-- The row is `queued`, `running` or `paused`. -/
def unfinished (s : Service) (d : Did) : Bool :=
  (s.row d).any fun r => r.state.unfinished

/-- What `check_duplicate` compares; no source and an empty one are the same to it. -/
def clashes (k k' : Key) : Bool :=
  k.kind = k'.kind && k.repoId = k'.repoId && k.hostId = k'.hostId && k.rootId = k'.rootId &&
    k.source.getD "" = k'.source.getD ""

/-- `SELECT COUNT(*) … WHERE state IN ('queued','running','paused')` -/
def unfinishedCount (s : Service) : ℕ :=
  (s.ids.filter s.unfinished).length

/-- `check_capacity` turns down. -/
def full (s : Service) : Bool :=
  s.maxQueue ≤ s.unfinishedCount

/-- `check_duplicate` turns down. -/
def duplicate (s : Service) (key : Key) : Bool :=
  s.ids.any fun d => (s.row d).any fun r => clashes r.key key && r.state.unfinished

/-- Change a job. -/
def putJob (s : Service) (d : Did) (j : Job) : Service :=
  { s with jobs := Function.update s.jobs d j }

/-- The creation goes on. -/
def creationAt (s : Service) (c : Creation) (pc : CreatePc) : Service :=
  { s with
    creations := Keyed.update Creation.id c.id (fun c => { c with pc }) s.creations }

/-- The creation is turned down. -/
def refuse (s : Service) (c : Creation) (r : Refusal) : Service :=
  { s with
    creations := Keyed.remove Creation.id c.id s.creations
    refusals := s.refusals ++ [(c.id, r)] }

/-- The ids of the task map. -/
def taskIds (s : Service) : List Did :=
  s.ids.filter fun d => (s.jobs d).task.isSome

/-! ## Steps -/

/-- A step of a `create` or `copy`; a new row gets the id `d`. -/
def creationStep (s : Service) (c : Creation) (d : Did) : Option Service :=
  match c.pc with
  | .capacity => some (if s.full then s.refuse c .queueFull else s.creationAt c .resolve)
  | .resolve => some (s.creationAt c .duplicate)
  | .duplicate =>
    some (if s.duplicate c.key then s.refuse c .exists else s.creationAt c .insert)
  | .insert =>
    if d ∈ s.ids then none
    else some { s.putJob d (.created c.key) with
      ids := s.ids ++ [d]
      creations := Keyed.remove Creation.id c.id s.creations }

/-- `recover` -/
def recover (s : Service) : Service :=
  { s with jobs := fun d => { s.jobs d with row := (s.row d).map Row.recover } }

/-- The process ends and another one starts on the same rows. -/
def restart (s : Service) : Service :=
  { s with
    jobs := fun d => .loaded (s.row d)
    creations := []
    shutdowns := [] }

/-- A step of a shutdown. -/
def shutdownStep (s : Service) (h : Shutdown) : Option Service :=
  match h.stopping with
  | some (d, call) =>
    if (Keyed.find Call.id call (s.jobs d).calls).isSome then none
    else some { s with
      shutdowns := Keyed.update Shutdown.id h.id (fun h => { h with stopping := none })
        s.shutdowns }
  | none =>
    match h.rest with
    | [] => some { s with shutdowns := Keyed.remove Shutdown.id h.id s.shutdowns }
    | d :: rest =>
      match (s.jobs d).step .stop with
      | none => none
      | some j => some { s.putJob d j with
          shutdowns := Keyed.update Shutdown.id h.id
            (fun h => { h with rest, stopping := some (d, (s.jobs d).nextCall) }) s.shutdowns }

/-- What may happen. -/
inductive Act where
  /-- `create` or `copy` is called -/
  | create (key : Key)
  | creation (id : ℕ) (d : Did)
  /-- its machine or root is refused -/
  | refuse (id : ℕ) (message : String)
  /-- a call on a row arrives or takes a step, or a worker does -/
  | job (d : Did) (a : Job.Act)
  | recover
  | restart
  /-- `shutdown` is called and lists the task map, in some order -/
  | shutdown (order : List Did)
  | shutdownStep (id : ℕ)
  deriving DecidableEq

/-- One step. -/
def step (s : Service) : Act → Option Service
  | .create key => some { s with
      creations := s.creations ++ [⟨s.nextCreation, key, .capacity⟩]
      nextCreation := s.nextCreation + 1 }
  | .creation id d =>
    match Keyed.find Creation.id id s.creations with
    | some c => s.creationStep c d
    | none => none
  | .refuse id message =>
    match Keyed.find Creation.id id s.creations with
    | some c => if c.pc = .resolve then some (s.refuse c (.other message)) else none
    | none => none
  | .job d a =>
    if d ∈ s.ids ∧ a ≠ .stop then ((s.jobs d).step a).map (s.putJob d) else none
  | .recover => some s.recover
  | .restart => some s.restart
  | .shutdown order =>
    if order.Perm s.taskIds then some { s with
      shutdowns := s.shutdowns ++ [⟨s.nextShutdown, order, none⟩]
      nextShutdown := s.nextShutdown + 1 }
    else none
  | .shutdownStep id =>
    match Keyed.find Shutdown.id id s.shutdowns with
    | some h => s.shutdownStep h
    | none => none

/-- No rows yet. -/
def empty (maxQueue : ℤ) : Service where
  maxQueue
  ids := []
  jobs _ := .loaded none
  creations := []
  nextCreation := 0
  refusals := []
  shutdowns := []
  nextShutdown := 0

/-! ## Small facts -/

section

variable {s s' : Service} {d d' : Did} {j : Job}

@[simp] theorem putJob_same : (s.putJob d j).jobs d = j := by
  simp [putJob]

theorem putJob_of_ne (h : d' ≠ d) : (s.putJob d j).jobs d' = s.jobs d' := by
  simp [putJob, h]

theorem row_eq : s.row d = (s.jobs d).row := rfl

/-- What a step does to the jobs : nothing, a step of one of them, a new one, or a change of
all of them. -/
inductive JobsEffect (s : Service) (a : Act) (s' : Service) : Prop
  | none (hids : s'.ids = s.ids) (hjobs : s'.jobs = s.jobs)
  | one (d : Did) (b : Job.Act) (j : Job) (hids : s'.ids = s.ids)
    (hjobs : s'.jobs = Function.update s.jobs d j) (hj : (s.jobs d).step b = some j)
    (hact : a = .job d b ∧ d ∈ s.ids ∨
      ∃ h ∈ s.shutdowns, a = .shutdownStep h.id ∧ b = .stop ∧
        ∃ rest, h.rest = d :: rest ∧ h.stopping = Option.none)
  | new (d : Did) (c : Creation) (hc : c ∈ s.creations) (hpc : c.pc = .insert)
    (hd : d ∉ s.ids) (hids : s'.ids = s.ids ++ [d])
    (hjobs : s'.jobs = Function.update s.jobs d (.created c.key))
    (hact : a = .creation c.id d)
  | all (hids : s'.ids = s.ids) (hact : a = .recover ∧ s' = s.recover ∨
      a = .restart ∧ s' = s.restart)

theorem step_jobs {a : Act} (hs : s.step a = some s') : JobsEffect s a s' := by
  cases a with
  | create key =>
    obtain rfl := Option.some.inj hs
    exact .none rfl rfl
  | creation id d =>
    simp only [step] at hs
    split at hs
    · rename_i c hc
      have hid := Keyed.key_of_find hc
      cases hpc : c.pc <;> simp only [creationStep, hpc] at hs
      case insert =>
        split at hs
        · cases hs
        · rename_i hd
          obtain rfl := Option.some.inj hs
          exact .new d c (Keyed.mem_of_find hc) hpc hd rfl rfl (by rw [hid])
      case resolve =>
        obtain rfl := Option.some.inj hs
        exact .none rfl rfl
      all_goals
        obtain rfl := Option.some.inj hs
        split <;> exact .none rfl rfl
    · cases hs
  | refuse id message =>
    simp only [step] at hs
    split at hs
    · split at hs
      · obtain rfl := Option.some.inj hs
        exact .none rfl rfl
      · cases hs
    · cases hs
  | job d b =>
    simp only [step] at hs
    split at hs
    · rename_i hd
      obtain ⟨j, hj, rfl⟩ := Option.map_eq_some_iff.1 hs
      exact .one d b j rfl rfl hj (.inl ⟨rfl, hd.1⟩)
    · cases hs
  | recover =>
    obtain rfl := Option.some.inj hs
    exact .all rfl (.inl ⟨rfl, rfl⟩)
  | restart =>
    obtain rfl := Option.some.inj hs
    exact .all rfl (.inr ⟨rfl, rfl⟩)
  | shutdown order =>
    simp only [step] at hs
    split at hs
    · obtain rfl := Option.some.inj hs
      exact .none rfl rfl
    · cases hs
  | shutdownStep id =>
    simp only [step] at hs
    split at hs
    · rename_i h hh
      have hid := Keyed.key_of_find hh
      simp only [shutdownStep] at hs
      split at hs
      · split at hs
        · cases hs
        · obtain rfl := Option.some.inj hs
          exact .none rfl rfl
      · rename_i hstop
        split at hs
        · obtain rfl := Option.some.inj hs
          exact .none rfl rfl
        · rename_i d rest hrest
          split at hs
          · cases hs
          · rename_i j hj
            obtain rfl := Option.some.inj hs
            exact .one d .stop j rfl rfl hj
              (.inr ⟨h, Keyed.mem_of_find hh, by rw [hid], rfl, rest, hrest, hstop⟩)
    · cases hs

theorem maxQueue_step {a : Act} (hs : s.step a = some s') : s'.maxQueue = s.maxQueue := by
  cases a with
  | create | recover | restart =>
    obtain rfl := Option.some.inj hs
    rfl
  | creation id d =>
    simp only [step] at hs
    split at hs
    · rename_i c _
      cases hpc : c.pc <;> simp only [creationStep, hpc] at hs
      case insert =>
        split at hs
        · cases hs
        · obtain rfl := Option.some.inj hs
          rfl
      all_goals
        obtain rfl := Option.some.inj hs
        first | rfl | (split <;> rfl)
    · cases hs
  | refuse id message =>
    simp only [step] at hs
    split at hs
    · split at hs
      · obtain rfl := Option.some.inj hs
        rfl
      · cases hs
    · cases hs
  | job d b =>
    simp only [step] at hs
    split at hs
    · obtain ⟨j, hj, rfl⟩ := Option.map_eq_some_iff.1 hs
      rfl
    · cases hs
  | shutdown order =>
    simp only [step] at hs
    split at hs
    · obtain rfl := Option.some.inj hs
      rfl
    · cases hs
  | shutdownStep id =>
    simp only [step] at hs
    split at hs
    · simp only [shutdownStep] at hs
      split at hs
      · split at hs
        · cases hs
        · obtain rfl := Option.some.inj hs
          rfl
      · split at hs
        · obtain rfl := Option.some.inj hs
          rfl
        · split at hs
          · cases hs
          · obtain rfl := Option.some.inj hs
            rfl
    · cases hs

end

end Service

end EngineConsole.Downloads
