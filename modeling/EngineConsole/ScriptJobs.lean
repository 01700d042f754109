import EngineConsole.LogRing
import EngineConsole.Router
import EngineConsole.Transition

/-!
# Script jobs

A job of the console runs one action of a script on its host, or `down` and then `up`. Its task
opens `scripts.run` for each step, emits the lines that come, and ends the job with the first
step that does not end with 0. A node runs a script once at a time : a call holds the name of
its script until its run has ended, whichever way. The console's maps, the lines of a job, its
state and the counter that wakes subscribers are each under a lock of its own, and each step
holds one of them.

`Books` : every job whose state is running is in the map and among the jobs, one for each script;
the map has no other entry but that of a job whose state is set and whose entry is about to be
removed. `Slots` : the names that a node holds are those of its runs, each of one run.
`Ordered` : a call is only made once the calls of the steps before it have ended with 0.
-/

set_option linter.unusedSectionVars false

namespace EngineConsole

namespace Scripts

open Web LogRing

/-! ## Jobs -/

/-- `TAIL_CHARS` -/
def tailChars : ℕ :=
  20000

/-- `MAX_LINES` -/
def maxLines : ℕ :=
  2000

/-- `MAX_JOBS` -/
def maxJobs : ℕ :=
  50

/-- `LINE_CAP` -/
def lineCap : ℕ :=
  4000

/-- `CONTROL` : everything but tab and newline, and the line separators. -/
def control (c : Char) : Bool :=
  let n := c.toNat
  decide (n ≤ 0x08) || decide (0x0b ≤ n ∧ n ≤ 0x1f) || decide (0x7f ≤ n ∧ n ≤ 0x9f) ||
    decide (n = 0x2028) || decide (n = 0x2029)

/-- A line as it is kept and sent. -/
def clean (scrub : Text → Text) (line : Text) : Text :=
  ((scrub line).map fun c => if control c then ' ' else c).take lineCap

/-- `ScriptJob.state` -/
inductive JobState
  | running
  | completed
  | failed
  deriving DecidableEq

/-- Where the task of a job is : what it does next. -/
inductive Pc
  /-- the loop comes to a step, or ends -/
  | head (k : ℕ)
  /-- the name of the step is emitted -/
  | header (k : ℕ)
  | headerBump (k : ℕ)
  | opens (k : ℕ)
  /-- the next item of the stream, or its result, is awaited -/
  | reading (k : ℕ)
  | lineBump (k : ℕ)
  | lineTail (k : ℕ)
  | lineInfo (k : ℕ) (tail : Text)
  | setRc (rc : Option ℤ)
  /-- what went wrong is emitted -/
  | say (text : Text)
  | sayBump
  | tail (state : JobState)
  | finish (state : JobState) (tail : Text)
  /-- the state is set, the entry of the map is to be removed -/
  | free
  | bump
  | announce
  | over
  deriving DecidableEq

/-- A job and its task. -/
structure Job where
  hostId : Text
  name : Text
  action : Text
  arg : Option Text
  steps : List (Text × Option Text)
  state : JobState
  rc : Option ℤ
  outputTail : Text
  ring : Buffer Text
  /-- the action running right now -/
  step : Text
  changed : ℕ
  done : Bool
  pc : Pc
  /-- every line that was emitted -/
  emitted : List Text

/-- The script of a job. -/
def Job.key (j : Job) : Text × Text :=
  (j.hostId, j.name)

/-- A new job. -/
def Job.new (hostId name label : Text) (arg : Option Text) (steps : List (Text × Option Text)) :
    Job where
  hostId := hostId
  name := name
  action := label
  arg := arg
  steps := steps
  state := .running
  rc := none
  outputTail := []
  ring := .empty
  step := (steps.head?.map Prod.fst).getD []
  changed := 0
  done := false
  pc := .head 0
  emitted := []

/-- `tail` -/
def Job.tail (j : Job) : Text :=
  let text := List.intercalate (ascii "\n") j.ring.lines
  text.drop (text.length - tailChars)

/-- The part of `emit` under the lock of the lines. -/
def Job.emit (scrub : Text → Text) (j : Job) (line : Text) : Job :=
  { j with
    ring := j.ring.push maxLines (clean scrub line)
    emitted := j.emitted ++ [clean scrub line] }

/-- How a step of a task goes. -/
inductive Move
  | next
  /-- an event with a line -/
  | line (text : Text)
  | result (rc : Option ℤ)
  /-- the node, or the link, fails the stream -/
  | error (code message : Text)
  | timeout
  /-- the stream cannot be opened -/
  | refused (kind : Text)
  /-- the console is shutting down -/
  | cancelled
  | panics

/-- The task is inside of `one`, where a panic is caught. -/
def Pc.guarded : Pc → Bool
  | .opens _ | .reading _ | .lineBump _ | .lineTail _ | .lineInfo _ _ => true
  | _ => false

/-- The task is at the first step of `one`, or waits : it can be dropped. -/
def Pc.waits : Pc → Bool
  | .opens _ | .reading _ => true
  | _ => false

/-- `[code] message` -/
def nodeText (code message : Text) : Text :=
  "[" ++ code ++ "] " ++ message

/-- What a step of a task does to its job. -/
def Job.move (scrub : Text → Text) (j : Job) : Move → Option Job
  | .next =>
    match j.pc with
    | .head k =>
      match j.steps[k]? with
      | none => some { j with pc := .setRc (some 0) }
      | some s =>
        some { j with step := s.1, pc := if 1 < j.steps.length then .header k else .opens k }
    | .header k => some { j.emit scrub ("== " ++ j.step ++ " ==") with pc := .headerBump k }
    | .headerBump k => some { j with changed := j.changed + 1, pc := .opens k }
    | .opens k => some { j with pc := .reading k }
    | .reading _ => none
    | .lineBump k => some { j with changed := j.changed + 1, pc := .lineTail k }
    | .lineTail k => some { j with pc := .lineInfo k j.tail }
    | .lineInfo k tail => some { j with outputTail := tail, pc := .reading k }
    | .setRc rc =>
      some { j with rc := rc, pc := .tail (if rc = some 0 then .completed else .failed) }
    | .say text => some { j.emit scrub text with pc := .sayBump }
    | .sayBump => some { j with changed := j.changed + 1, pc := .tail .failed }
    | .tail state => some { j with pc := .finish state j.tail }
    | .finish state tail => some { j with state := state, outputTail := tail, pc := .free }
    | .free => some { j with pc := .bump }
    | .bump => some { j with changed := j.changed + 1, pc := .announce }
    | .announce => some { j with done := true, pc := .over }
    | .over => none
  | .line text =>
    match j.pc with
    | .reading k => some { j.emit scrub text with pc := .lineBump k }
    | _ => none
  | .result rc =>
    match j.pc with
    | .reading k => some { j with pc := if rc = some 0 then .head (k + 1) else .setRc rc }
    | _ => none
  | .error code message =>
    match j.pc with
    | .reading _ => some { j with pc := .say (nodeText code message) }
    | _ => none
  | .timeout =>
    match j.pc with
    | .reading _ =>
      some { j with pc := .say (nodeText "timeout" "the script ran longer than 4 hours") }
    | _ => none
  | .refused kind =>
    match j.pc with
    | .opens _ => some { j with pc := .say ("[internal] " ++ kind) }
    | _ => none
  | .cancelled =>
    if j.pc.waits then some { j with pc := .say "[cancelled] the console is shutting down" }
    else none
  | .panics => if j.pc.guarded then some { j with pc := .say "[internal] panic" } else none

/-! ## Runs on a node -/

/-- How a run, or its call, ends. -/
inductive Ending
  | exit (rc : ℤ)
  | error (code : Text)
  | timeout
  | cancelled
  | panic
  deriving DecidableEq

/-- Where a call is on its node. -/
inductive Phase
  | asked
  | running
  /-- the run has ended, its name is still held -/
  | ended (e : Ending)
  | answered (e : Ending)
  deriving DecidableEq

/-- A `scripts.run` of a step of a job. -/
structure Call where
  host : Text
  name : Text
  action : Text
  arg : Option Text
  job : Text
  step : ℕ
  phase : Phase

/-- The script of a call. -/
def Call.key (c : Call) : Text × Text :=
  (c.host, c.name)

/-- The call holds the name of its script. -/
def Call.holds (c : Call) : Bool :=
  match c.phase with
  | .running | .ended _ => true
  | _ => false

/-- A step of a call. -/
inductive NodeMove
  /-- the policy has no such script, action or argument -/
  | deny (code : Text)
  /-- the name is taken, if it is free -/
  | take
  /-- the run ends -/
  | ends (e : Ending)
  | release

/-- What a step of a call does to it and to the names held. -/
def Call.move (slots : List (Text × Text)) (c : Call) : NodeMove →
    Option (Call × List (Text × Text))
  | .deny code =>
    if c.phase = .asked then some ({ c with phase := .answered (.error code) }, slots) else none
  | .take =>
    if c.phase = .asked then
      if c.key ∈ slots then some ({ c with phase := .answered (.error "busy") }, slots)
      else some ({ c with phase := .running }, slots ++ [c.key])
    else none
  | .ends e => if c.phase = .running then some ({ c with phase := .ended e }, slots) else none
  | .release =>
    match c.phase with
    | .ended e => some ({ c with phase := .answered e }, slots.erase c.key)
    | _ => none

/-! ## Subscribers -/

/-- An event of a stream. -/
inductive Item
  | line (text : Text)
  /-- the end, with the state of the job -/
  | ended (state : JobState)
  deriving DecidableEq

/-- Where a subscriber is : what it does next. -/
inductive Stand
  | subscribe
  | top
  | look
  | read (finished : Bool)
  | yield (pending : List Text) (finished : Bool)
  | wait
  | snapshot
  | ended

/-- A subscriber of a job. -/
structure Sub where
  job : Text
  once : Bool
  seen : ℕ
  pos : ℕ
  stand : Stand
  out : List Item
  /-- it was behind by more than `MAX_LINES` when it read -/
  late : Bool

/-- What a subscriber does next; `none` while it waits for a change, and after its end. -/
def Sub.next (j : Job) (u : Sub) : Option Sub :=
  match u.stand with
  | .subscribe => some { u with seen := j.changed, stand := .top }
  | .top => some { u with seen := j.changed, stand := .look }
  | .look => some { u with stand := .read (decide (j.state ≠ .running)) }
  | .read finished =>
    let pending := j.ring.from u.pos
    let late := u.late || decide (maxLines < j.emitted.length - u.pos)
    if pending = [] ∧ finished = false ∧ u.once = false then
      some { u with pos := max u.pos j.ring.base, late := late, stand := .wait }
    else
      some { u with
        pos := max u.pos j.ring.base + pending.length
        late := late
        stand := .yield pending finished }
  | .yield (p :: pending) finished =>
    some { u with out := u.out ++ [.line p], stand := .yield pending finished }
  | .yield [] finished => some { u with stand := if finished ∨ u.once then .snapshot else .top }
  | .wait => if u.seen < j.changed then some { u with seen := j.changed, stand := .top } else none
  | .snapshot => some { u with out := u.out ++ [.ended j.state], stand := .ended }
  | .ended => none

/-! ## The console and its nodes -/

/-- The maps, every job that was created, the calls, the names held on nodes, and subscribers. -/
structure State where
  store : Text → Option Job
  /-- the ids of the jobs that the console has, in the order in which they came -/
  jobs : List Text
  running : List ((Text × Text) × Text)
  cancel : Bool
  calls : List Call
  slots : List (Text × Text)
  subs : List Sub

/-- What happens. -/
inductive Act
  /-- `valid` : the script, the action and the argument are offered, and the node manages -/
  | run (id hostId name action : Text) (arg : Option Text) (valid : Bool)
  | restart (id hostId name : Text) (valid : Bool)
  /-- `found` : the jobs that were found to have finished -/
  | evict (found : List Text)
  | shutdown
  | task (id : Text) (m : Move)
  | node (i : ℕ) (m : NodeMove)
  | stream (id : Text) (once : Bool)
  | sub (i : ℕ)

/-- `start` : a script that is running stays the only one. -/
def State.start (s : State) (id : Text) (j : Job) : State :=
  if j.key ∈ s.running.map Prod.fst then s
  else
    { s with
      store := Function.update s.store id (some j)
      jobs := s.jobs ++ [id]
      running := s.running ++ [(j.key, id)] }

/-- A job of the console has finished. -/
def State.finished (s : State) (id : Text) : Bool :=
  (s.store id).any fun j => decide (j.state ≠ .running)

/-- `evict` : of the jobs found, in order, the last `MAX_JOBS` stay. -/
def State.evict (s : State) (found : List Text) : State :=
  let done := s.jobs.filter fun id => found.contains id
  let drop := done.take (done.length - maxJobs)
  { s with jobs := s.jobs.filter fun id => !drop.contains id }

/-- The calls with that of the step that a task opens. -/
def State.opened (s : State) (id : Text) (j : Job) : List Call :=
  match j.pc with
  | .opens k =>
    match j.steps[k]? with
    | some x => s.calls ++ [⟨j.hostId, j.name, x.1, x.2, id, k, .asked⟩]
    | none => s.calls
  | _ => s.calls

/-- The code with which a call was answered. -/
def Phase.rc : Phase → Option ℤ
  | .answered (.exit z) => some z
  | _ => none

/-- The call of a step of a job was answered with this code. -/
def State.answered (s : State) (id : Text) (k : ℕ) (rc : Option ℤ) : Bool :=
  rc.isSome && s.calls.any fun c => decide (c.job = id ∧ c.step = k ∧ c.phase.rc = rc)

/-- What a move needs outside of its job. -/
def State.allows (s : State) (id : Text) (j : Job) : Move → Bool
  | .result rc =>
    match j.pc with
    | .reading k => s.answered id k rc
    | _ => false
  | .cancelled => s.cancel
  | _ => true

/-- The map after a step of a task. -/
def State.freed (s : State) (j : Job) : List ((Text × Text) × Text) :=
  match j.pc with
  | .free => s.running.filter fun x => x.1 ≠ j.key
  | _ => s.running

section

variable (scrub : Text → Text)

/-- A step of the task of a job. -/
def State.task (s : State) (id : Text) (m : Move) : Option State :=
  match s.store id with
  | none => none
  | some j =>
    if s.allows id j m = true then
      match j.move scrub m with
      | none => none
      | some j' =>
        match m with
        | .next =>
          some { s with
            store := Function.update s.store id (some j')
            running := s.freed j
            calls := s.opened id j }
        | _ => some { s with store := Function.update s.store id (some j') }
    else none

/-- A step of a call on its node. -/
def State.node (s : State) (i : ℕ) (m : NodeMove) : Option State :=
  match s.calls[i]? with
  | none => none
  | some c => (c.move s.slots m).map fun r => { s with calls := s.calls.set i r.1, slots := r.2 }

/-- A step of a subscriber. -/
def State.sub (s : State) (i : ℕ) : Option State :=
  match s.subs[i]? with
  | none => none
  | some u =>
    match s.store u.job with
    | none => none
    | some j => (u.next j).map fun u' => { s with subs := s.subs.set i u' }

/-- What happens, if it can. The id of a job is new. -/
def step (s : State) : Act → Option State
  | .run id hostId name action arg valid =>
    if (s.store id).isSome ∨ valid = false then none
    else some (s.start id (.new hostId name action arg [(action, arg)]))
  | .restart id hostId name valid =>
    if (s.store id).isSome ∨ valid = false then none
    else some (s.start id (.new hostId name "restart" none [("down", none), ("up", none)]))
  | .evict found => if found.all s.finished then some (s.evict found) else none
  | .shutdown => some { s with cancel := true }
  | .task id m => s.task scrub id m
  | .node i m => s.node i m
  | .stream id once =>
    if id ∈ s.jobs then
      some { s with subs := s.subs ++ [⟨id, once, 0, 0, .subscribe, [], false⟩] }
    else none
  | .sub i => s.sub i

end

/-- A console without jobs, and nodes without runs. -/
def State.init : State :=
  ⟨fun _ => none, [], [], false, [], [], []⟩

/-! ## What a step of a task does -/

/-- The state of the job is not set yet. -/
def Pc.live : Pc → Bool
  | .free | .bump | .announce | .over => false
  | _ => true

/-- The job is in the map. -/
def Pc.held : Pc → Bool
  | .bump | .announce | .over => false
  | _ => true

/-- The state that the task is about to set. -/
def Pc.verdict : Pc → Option JobState
  | .tail state => some state
  | .finish state _ => some state
  | _ => none

/-- The step of the job that the task is at. -/
def Pc.step : Pc → Option ℕ
  | .head k | .header k | .headerBump k | .opens k | .reading k | .lineBump k | .lineTail k
  | .lineInfo k _ => some k
  | _ => none

/-- The verdict is not that the job is running. -/
def Pc.Sound (pc : Pc) : Prop :=
  pc.verdict ≠ some .running

/-- How a job changes in one step of its task. -/
inductive Turn (j : Job) : Job → Prop
  | emits (a : Text) (pc : Pc) (hlive : j.pc.live = true) (hpc : pc.live = true)
    (hsound : pc.Sound) :
    Turn j { j with ring := j.ring.push maxLines a, emitted := j.emitted ++ [a], pc := pc }
  | bumps (pc : Pc) (hlive : j.pc.live = true) (hpc : pc.live = true) (hsound : pc.Sound) :
    Turn j { j with changed := j.changed + 1, pc := pc }
  | goes (step tail : Text) (rc : Option ℤ) (pc : Pc) (hlive : j.pc.live = true)
    (hpc : pc.live = true) (hsound : j.pc.Sound → pc.Sound) :
    Turn j { j with step := step, outputTail := tail, rc := rc, pc := pc }
  | ends (state : JobState) (tail : Text) (hpc : j.pc = .finish state tail) :
    Turn j { j with state := state, outputTail := tail, pc := .free }
  | frees (hpc : j.pc = .free) : Turn j { j with pc := .bump }
  | tells (hpc : j.pc = .bump) : Turn j { j with changed := j.changed + 1, pc := .announce }
  | rests (hpc : j.pc = .announce) : Turn j { j with done := true, pc := .over }

section

variable {scrub : Text → Text} {j j' : Job} {m : Move}

theorem turn_next (h : j.move scrub .next = some j') : Turn j j' := by
  have hgo {step tail : Text} {rc : Option ℤ} {pc : Pc} (hlive : j.pc.live = true)
      (hpc : pc.live = true) (hsound : j.pc.Sound → pc.Sound) :
      Turn j { j with step := step, outputTail := tail, rc := rc, pc := pc } :=
    .goes step tail rc pc hlive hpc hsound
  unfold Job.move at h
  dsimp only at h
  split at h
  · next k hpc =>
    split at h
    · obtain rfl := Option.some.inj h
      exact hgo (by rw [hpc]; rfl) rfl fun _ => by simp [Pc.Sound, Pc.verdict]
    · obtain rfl := Option.some.inj h
      refine hgo (by rw [hpc]; rfl) (by split_ifs <;> rfl) fun _ => ?_
      split_ifs <;> simp [Pc.Sound, Pc.verdict]
  · next k hpc =>
    obtain rfl := Option.some.inj h
    exact .emits _ _ (by rw [hpc]; rfl) rfl (by simp [Pc.Sound, Pc.verdict])
  · next k hpc =>
    obtain rfl := Option.some.inj h
    exact .bumps _ (by rw [hpc]; rfl) rfl (by simp [Pc.Sound, Pc.verdict])
  · next k hpc =>
    obtain rfl := Option.some.inj h
    exact hgo (by rw [hpc]; rfl) rfl fun _ => by simp [Pc.Sound, Pc.verdict]
  · simp at h
  · next k hpc =>
    obtain rfl := Option.some.inj h
    exact .bumps _ (by rw [hpc]; rfl) rfl (by simp [Pc.Sound, Pc.verdict])
  · next k hpc =>
    obtain rfl := Option.some.inj h
    exact hgo (by rw [hpc]; rfl) rfl fun _ => by simp [Pc.Sound, Pc.verdict]
  · next k tail hpc =>
    obtain rfl := Option.some.inj h
    exact hgo (by rw [hpc]; rfl) rfl fun _ => by simp [Pc.Sound, Pc.verdict]
  · next rc hpc =>
    obtain rfl := Option.some.inj h
    refine hgo (by rw [hpc]; rfl) rfl fun _ => ?_
    split_ifs <;> simp [Pc.Sound, Pc.verdict]
  · next text hpc =>
    obtain rfl := Option.some.inj h
    exact .emits _ _ (by rw [hpc]; rfl) rfl (by simp [Pc.Sound, Pc.verdict])
  · next hpc =>
    obtain rfl := Option.some.inj h
    exact .bumps _ (by rw [hpc]; rfl) rfl (by simp [Pc.Sound, Pc.verdict])
  · next state hpc =>
    obtain rfl := Option.some.inj h
    exact hgo (by rw [hpc]; rfl) rfl fun hsound => by rwa [hpc] at hsound
  · next state tail hpc =>
    obtain rfl := Option.some.inj h
    exact .ends state tail hpc
  · next hpc =>
    obtain rfl := Option.some.inj h
    exact .frees hpc
  · next hpc =>
    obtain rfl := Option.some.inj h
    exact .tells hpc
  · next hpc =>
    obtain rfl := Option.some.inj h
    exact .rests hpc
  · simp at h

/-- Every step of a task is one of the seven. -/
theorem turn_of_move (h : j.move scrub m = some j') : Turn j j' := by
  have hgo {pc : Pc} (hlive : j.pc.live = true) (hpc : pc.live = true) (hsound : pc.Sound) :
      Turn j { j with pc := pc } :=
    .goes j.step j.outputTail j.rc pc hlive hpc fun _ => hsound
  cases m with
  | next => exact turn_next h
  | line text =>
    unfold Job.move at h
    dsimp only at h
    split at h
    · next k hpc =>
      obtain rfl := Option.some.inj h
      exact .emits _ _ (by rw [hpc]; rfl) rfl (by simp [Pc.Sound, Pc.verdict])
    · simp at h
  | result rc =>
    unfold Job.move at h
    dsimp only at h
    split at h
    · next k hpc =>
      obtain rfl := Option.some.inj h
      refine hgo (by rw [hpc]; rfl) (by split_ifs <;> rfl) ?_
      split_ifs <;> simp [Pc.Sound, Pc.verdict]
    · simp at h
  | error code message =>
    unfold Job.move at h
    dsimp only at h
    split at h
    · next k hpc =>
      obtain rfl := Option.some.inj h
      exact hgo (by rw [hpc]; rfl) rfl (by simp [Pc.Sound, Pc.verdict])
    · simp at h
  | timeout =>
    unfold Job.move at h
    dsimp only at h
    split at h
    · next k hpc =>
      obtain rfl := Option.some.inj h
      exact hgo (by rw [hpc]; rfl) rfl (by simp [Pc.Sound, Pc.verdict])
    · simp at h
  | refused kind =>
    unfold Job.move at h
    dsimp only at h
    split at h
    · next k hpc =>
      obtain rfl := Option.some.inj h
      exact hgo (by rw [hpc]; rfl) rfl (by simp [Pc.Sound, Pc.verdict])
    · simp at h
  | cancelled =>
    obtain ⟨hwaits, heq⟩ := Option.ite_none_right_eq_some.1 h
    obtain rfl := Option.some.inj heq
    refine hgo ?_ rfl (by simp [Pc.Sound, Pc.verdict])
    cases hpc : j.pc <;> simp [hpc, Pc.waits] at hwaits <;> rfl
  | panics =>
    obtain ⟨hguarded, heq⟩ := Option.ite_none_right_eq_some.1 h
    obtain rfl := Option.some.inj heq
    refine hgo ?_ rfl (by simp [Pc.Sound, Pc.verdict])
    cases hpc : j.pc <;> simp [hpc, Pc.guarded] at hguarded <;> rfl

/-- The task comes to the next step of its job only with the result 0. -/
theorem step_of_move {k' : ℕ} (h : j.move scrub m = some j') (hk : j'.pc.step = some k') :
    j.pc.step = some k' ∨ ∃ k, k' = k + 1 ∧ m = .result (some 0) ∧ j.pc = .reading k := by
  cases m with
  | result rc =>
    unfold Job.move at h
    dsimp only at h
    split at h
    · next k hpc =>
      obtain rfl := Option.some.inj h
      dsimp only at hk
      split_ifs at hk with hrc
      · exact .inr ⟨k, (Option.some.inj hk).symm, by rw [hrc], hpc⟩
      · simp [Pc.step] at hk
    · simp at h
  | next =>
    left
    unfold Job.move at h
    dsimp only at h
    split at h
    · next k hpc =>
      split at h
      · obtain rfl := Option.some.inj h
        simp [Pc.step] at hk
      · obtain rfl := Option.some.inj h
        dsimp only at hk
        rw [hpc]
        split_ifs at hk <;> exact hk
    all_goals
      rename_i hpc
      first
        | (simp at h; done)
        | obtain rfl := Option.some.inj h
          rw [hpc]
          exact hk
  | line text =>
    left
    unfold Job.move at h
    dsimp only at h
    split at h
    · next k hpc =>
      obtain rfl := Option.some.inj h
      rw [hpc]
      exact hk
    · simp at h
  | cancelled =>
    obtain ⟨-, heq⟩ := Option.ite_none_right_eq_some.1 h
    obtain rfl := Option.some.inj heq
    simp [Pc.step] at hk
  | panics =>
    obtain ⟨-, heq⟩ := Option.ite_none_right_eq_some.1 h
    obtain rfl := Option.some.inj heq
    simp [Pc.step] at hk
  | _ =>
    unfold Job.move at h
    dsimp only at h
    split at h
    · obtain rfl := Option.some.inj h
      simp [Pc.step] at hk
    · simp at h

end

/-! ## Jobs and the map -/

/-- A job keeps the end of its lines, and its state is running until its task has set it. -/
structure Job.Ok (j : Job) : Prop where
  ring : j.ring.Of maxLines j.emitted
  state : j.state = .running ↔ j.pc.live = true
  sound : j.pc.Sound

theorem Job.Ok.new (hostId name label : Text) (arg : Option Text)
    (steps : List (Text × Option Text)) : (Job.new hostId name label arg steps).Ok where
  ring := .empty
  state := by simp [Job.new, Pc.live]
  sound := by simp [Job.new, Pc.Sound, Pc.verdict]

section

variable {scrub : Text → Text} {j j' : Job}

theorem Job.Ok.turn (h : j.Ok) (hturn : Turn j j') : j'.Ok := by
  have hkeep {pc : Pc} (hlive : j.pc.live = true) (hpc : pc.live = true) :
      j.state = .running ↔ pc.live = true := by
    rw [h.state, hlive, hpc]
  cases hturn with
  | emits a pc hlive hpc hsound => exact ⟨h.ring.push (by decide) a, hkeep hlive hpc, hsound⟩
  | bumps pc hlive hpc hsound => exact ⟨h.ring, hkeep hlive hpc, hsound⟩
  | goes step tail rc pc hlive hpc hsound => exact ⟨h.ring, hkeep hlive hpc, hsound h.sound⟩
  | ends state tail hpc =>
    have hsound := h.sound
    rw [hpc] at hsound
    refine ⟨h.ring, ?_, by simp [Pc.Sound, Pc.verdict]⟩
    simp only [Pc.live, Bool.false_eq_true, iff_false]
    exact fun heq => hsound (congrArg some heq)
  | frees hpc =>
    have hstate := h.state
    rw [hpc] at hstate
    exact ⟨h.ring, hstate, by simp [Pc.Sound, Pc.verdict]⟩
  | tells hpc =>
    have hstate := h.state
    rw [hpc] at hstate
    exact ⟨h.ring, hstate, by simp [Pc.Sound, Pc.verdict]⟩
  | rests hpc =>
    have hstate := h.state
    rw [hpc] at hstate
    exact ⟨h.ring, hstate, by simp [Pc.Sound, Pc.verdict]⟩

theorem held_of_live {pc : Pc} (h : pc.live = true) : pc.held = true := by
  cases pc <;> first | rfl | simp [Pc.live] at h

/-- A step keeps the script of its job, and the job in the map unless the step removes it. -/
theorem Turn.spec (h : Turn j j') : j'.key = j.key ∧ j'.steps = j.steps ∧
    (j'.pc.live = true → j.pc.live = true) ∧ (j.pc ≠ .free → j'.pc.held = j.pc.held) ∧
    (j.pc = .free → j'.pc = .bump) := by
  have hlives {pc : Pc} (hlive : j.pc.live = true) (hpc : pc.live = true) :
      (pc.live = true → j.pc.live = true) ∧ (j.pc ≠ .free → pc.held = j.pc.held) ∧
        (j.pc = .free → pc = .bump) :=
    ⟨fun _ => hlive, fun _ => (held_of_live hpc).trans (held_of_live hlive).symm,
      fun heq => by simp [heq, Pc.live] at hlive⟩
  cases h with
  | emits a pc hlive hpc hsound => exact ⟨rfl, rfl, hlives hlive hpc⟩
  | bumps pc hlive hpc hsound => exact ⟨rfl, rfl, hlives hlive hpc⟩
  | goes step tail rc pc hlive hpc hsound => exact ⟨rfl, rfl, hlives hlive hpc⟩
  | ends state tail hpc =>
    exact ⟨rfl, rfl, by simp [Pc.live], fun _ => by rw [hpc]; rfl, fun heq => by simp [hpc] at heq⟩
  | frees hpc => exact ⟨rfl, rfl, by simp [Pc.live], fun hne => absurd hpc hne, fun _ => rfl⟩
  | tells hpc =>
    exact ⟨rfl, rfl, by simp [Pc.live], fun _ => by rw [hpc]; rfl, fun heq => by simp [hpc] at heq⟩
  | rests hpc =>
    exact ⟨rfl, rfl, by simp [Pc.live], fun _ => by rw [hpc]; rfl, fun heq => by simp [hpc] at heq⟩

end

/-- The jobs that run are among the jobs and, with those about to leave it, in the map, one for
each script. -/
structure Books (s : State) : Prop where
  ok : ∀ id j, s.store id = some j → j.Ok
  created : ∀ id ∈ s.jobs, (s.store id).isSome
  listed : ∀ id j, s.store id = some j → j.pc.live = true → id ∈ s.jobs
  entry : ∀ id j, s.store id = some j → ((j.key, id) ∈ s.running ↔ j.pc.held = true)
  mapped : ∀ x ∈ s.running, ∃ j, s.store x.2 = some j ∧ j.key = x.1
  keys : (s.running.map Prod.fst).Nodup

theorem books_init : Books .init := by
  constructor <;> simp [State.init]

section

variable {scrub : Text → Text} {s t : State} {id : Text} {j j' : Job} {m : Move}

/-- In the map a script has one job. -/
theorem Books.unique (h : Books s) {k : Text × Text} {a b : Text} (ha : (k, a) ∈ s.running)
    (hb : (k, b) ∈ s.running) : a = b :=
  (Prod.mk.inj (List.inj_on_of_nodup_map h.keys ha hb rfl)).2

theorem Books.start (h : Books s) (hid : s.store id = none) (hok : j.Ok)
    (hheld : j.pc.held = true) : Books (s.start id j) := by
  unfold State.start
  split_ifs with hbusy
  · exact h
  · have hold {a : Text} {i : Job} (hi : Function.update s.store id (some j) a = some i) :
        (a = id ∧ i = j) ∨ a ≠ id ∧ s.store a = some i := by
      by_cases ha : a = id
      · subst ha
        rw [Function.update_self] at hi
        exact .inl ⟨rfl, (Option.some.inj hi).symm⟩
      · rw [Function.update_of_ne ha] at hi
        exact .inr ⟨ha, hi⟩
    have hnew {x : (Text × Text) × Text} (hx : x ∈ s.running) : x.2 ≠ id := by
      intro heq
      obtain ⟨i, hi, -⟩ := h.mapped x hx
      rw [heq, hid] at hi
      simp at hi
    refine ⟨fun a i hi => ?_, fun a ha => ?_, fun a i hi hlive => ?_, fun a i hi => ?_,
      fun x hx => ?_, ?_⟩
    · rcases hold hi with ⟨-, rfl⟩ | ⟨-, hi⟩
      · exact hok
      · exact h.ok a i hi
    · dsimp only
      by_cases heq : a = id
      · rw [heq, Function.update_self]
        rfl
      · rw [Function.update_of_ne heq]
        exact h.created a ((List.mem_append.1 ha).resolve_right (by simpa using heq))
    · rcases hold hi with ⟨rfl, -⟩ | ⟨-, hi⟩
      · exact List.mem_append_right _ (List.mem_singleton_self _)
      · exact List.mem_append_left _ (h.listed a i hi hlive)
    · rw [List.mem_append, List.mem_singleton]
      rcases hold hi with ⟨rfl, rfl⟩ | ⟨hne, hi⟩
      · simp [hheld]
      · rw [← h.entry a i hi]
        simp [hne]
    · rcases List.mem_append.1 hx with hx | hx
      · obtain ⟨i, hi, hkey⟩ := h.mapped x hx
        exact ⟨i, (Function.update_of_ne (hnew hx) _ _).trans hi, hkey⟩
      · rw [List.mem_singleton.1 hx]
        exact ⟨j, Function.update_self .., rfl⟩
    · rw [List.map_append, List.map_singleton]
      refine List.nodup_append.2 ⟨h.keys, List.nodup_singleton _, fun a ha b hb heq => hbusy ?_⟩
      have hkey : a = j.key := heq.trans (List.mem_singleton.1 hb)
      exact hkey ▸ ha

/-- A job that runs stays. -/
theorem mem_evict {found : List Text} (hfound : found.all s.finished = true) (hid : id ∈ s.jobs)
    (hj : s.store id = some j) (hstate : j.state = .running) : id ∈ (s.evict found).jobs := by
  refine List.mem_filter.2 ⟨hid, ?_⟩
  rw [Bool.not_eq_true', ← Bool.not_eq_true, List.contains_iff_mem]
  intro hdrop
  have hdone := (List.mem_filter.1 (List.mem_of_mem_take hdrop)).2
  have hfin := List.all_eq_true.1 hfound id (List.contains_iff_mem.1 hdone)
  simp [State.finished, hj, hstate] at hfin

theorem Books.evict (h : Books s) {found : List Text} (hfound : found.all s.finished = true) :
    Books (s.evict found) :=
  ⟨h.ok, fun a ha => h.created a (List.mem_of_mem_filter ha), fun a i hi hlive =>
    mem_evict hfound (h.listed a i hi hlive) hi ((h.ok a i hi).state.2 hlive), h.entry, h.mapped,
    h.keys⟩

/-- The maps after a step of a task. -/
theorem Books.turn (h : Books s) (hj : s.store id = some j) (hturn : Turn j j')
    {calls : List Call} : Books { s with
      store := Function.update s.store id (some j')
      running := s.freed j
      calls := calls } := by
  obtain ⟨hkey, -, hlive, hheld, hfree⟩ := hturn.spec
  have hold {a : Text} {i : Job} (hi : Function.update s.store id (some j') a = some i) :
      (a = id ∧ i = j') ∨ a ≠ id ∧ s.store a = some i := by
    by_cases ha : a = id
    · subst ha
      rw [Function.update_self] at hi
      exact .inl ⟨rfl, (Option.some.inj hi).symm⟩
    · rw [Function.update_of_ne ha] at hi
      exact .inr ⟨ha, hi⟩
  have hfreed : (j.pc ≠ .free ∧ s.freed j = s.running) ∨
      j.pc = .free ∧ s.freed j = s.running.filter fun x => x.1 ≠ j.key := by
    unfold State.freed
    by_cases hpc : j.pc = .free
    · exact .inr ⟨hpc, by rw [hpc]⟩
    · left
      refine ⟨hpc, ?_⟩
      split
      · next heq => exact absurd heq hpc
      · rfl
  have hsub : ∀ x ∈ s.freed j, x ∈ s.running := by
    intro x hx
    rcases hfreed with ⟨-, heq⟩ | ⟨-, heq⟩
    · rwa [heq] at hx
    · rw [heq] at hx
      exact List.mem_of_mem_filter hx
  refine ⟨fun a i hi => ?_, fun a ha => ?_, fun a i hi hl => ?_, fun a i hi => ?_, fun x hx => ?_,
    ?_⟩
  · rcases hold hi with ⟨-, rfl⟩ | ⟨-, hi⟩
    · exact (h.ok id j hj).turn hturn
    · exact h.ok a i hi
  · dsimp only
    by_cases heq : a = id
    · rw [heq, Function.update_self]
      rfl
    · rw [Function.update_of_ne heq]
      exact h.created a ha
  · rcases hold hi with ⟨rfl, rfl⟩ | ⟨-, hi⟩
    · exact h.listed a j hj (hlive hl)
    · exact h.listed a i hi hl
  · dsimp only
    rcases hold hi with ⟨rfl, rfl⟩ | ⟨hne, hi⟩
    · rcases hfreed with ⟨hpc, heq⟩ | ⟨hpc, heq⟩
      · rw [heq, hheld hpc, hkey]
        exact h.entry a j hj
      · rw [heq, hfree hpc, hkey]
        simp [Pc.held]
    · rw [← h.entry a i hi]
      rcases hfreed with ⟨-, heq⟩ | ⟨hpc, heq⟩
      · rw [heq]
      · rw [heq, List.mem_filter]
        refine ⟨And.left, fun hmem => ⟨hmem, ?_⟩⟩
        have hin : (j.key, id) ∈ s.running := (h.entry id j hj).2 (by rw [hpc]; rfl)
        exact decide_eq_true fun hsame => hne (h.unique (hsame ▸ hmem) hin)
  · obtain ⟨i, hi, hk⟩ := h.mapped x (hsub x hx)
    by_cases heq : x.2 = id
    · rw [heq, hj] at hi
      obtain rfl := Option.some.inj hi
      exact ⟨j', by dsimp only; rw [heq, Function.update_self], hkey.trans hk⟩
    · exact ⟨i, (Function.update_of_ne heq _ _).trans hi, hk⟩
  · rcases hfreed with ⟨-, heq⟩ | ⟨-, heq⟩
    · exact heq ▸ h.keys
    · exact heq ▸ h.keys.sublist (List.filter_sublist.map _)

/-- Only a step of its own takes a task past the removal of its entry. -/
theorem not_free_of_move (h : j.move scrub m = some j') (hm : m ≠ .next) : j.pc ≠ .free := by
  intro hpc
  cases m with
  | next => exact hm rfl
  | _ => simp [Job.move, hpc, Pc.waits, Pc.guarded] at h

/-- A step of a task, and what the maps are then. -/
theorem task_spec (h : s.task scrub id m = some t) : ∃ j j', s.store id = some j ∧
    s.allows id j m = true ∧ j.move scrub m = some j' ∧ ∃ calls, t = { s with
      store := Function.update s.store id (some j')
      running := s.freed j
      calls := calls } ∧ (calls = s.calls ∨ m = .next ∧ calls = s.opened id j) := by
  unfold State.task at h
  split at h
  · simp at h
  · next j hj =>
    split_ifs at h with hallows
    split at h
    · simp at h
    · next j' hmove =>
      refine ⟨j, j', hj, hallows, hmove, ?_⟩
      split at h
      · exact ⟨_, (Option.some.inj h).symm, .inr ⟨rfl, rfl⟩⟩
      · next hm =>
        have hfreed : s.freed j = s.running := by
          have hne := not_free_of_move hmove fun heq => hm heq
          unfold State.freed
          split
          · next hpc => exact absurd hpc hne
          · rfl
        refine ⟨s.calls, ?_, .inl rfl⟩
        rw [hfreed]
        exact (Option.some.inj h).symm

theorem Books.step (h : Books s) {a : Act} (hstep : step scrub s a = some t) : Books t := by
  cases a with
  | run id hostId name action arg valid =>
    obtain ⟨hnew, heq⟩ := Option.ite_none_left_eq_some.1 hstep
    obtain rfl := Option.some.inj heq
    exact h.start (by simpa using (not_or.1 hnew).1) (.new ..) rfl
  | restart id hostId name valid =>
    obtain ⟨hnew, heq⟩ := Option.ite_none_left_eq_some.1 hstep
    obtain rfl := Option.some.inj heq
    exact h.start (by simpa using (not_or.1 hnew).1) (.new ..) rfl
  | evict found =>
    obtain ⟨hfound, heq⟩ := Option.ite_none_right_eq_some.1 hstep
    obtain rfl := Option.some.inj heq
    exact h.evict hfound
  | shutdown =>
    obtain rfl := Option.some.inj hstep
    exact ⟨h.ok, h.created, h.listed, h.entry, h.mapped, h.keys⟩
  | task id m =>
    obtain ⟨j, j', hj, -, hmove, calls, rfl, -⟩ := task_spec hstep
    exact h.turn hj (turn_of_move hmove)
  | node i m =>
    change s.node i m = some t at hstep
    unfold State.node at hstep
    split at hstep
    · simp at hstep
    · obtain ⟨r, -, rfl⟩ := Option.map_eq_some_iff.1 hstep
      exact ⟨h.ok, h.created, h.listed, h.entry, h.mapped, h.keys⟩
  | stream id once =>
    obtain ⟨-, heq⟩ := Option.ite_none_right_eq_some.1 hstep
    obtain rfl := Option.some.inj heq
    exact ⟨h.ok, h.created, h.listed, h.entry, h.mapped, h.keys⟩
  | sub i =>
    change s.sub i = some t at hstep
    unfold State.sub at hstep
    split at hstep
    · simp at hstep
    · split at hstep
      · simp at hstep
      · obtain ⟨r, -, rfl⟩ := Option.map_eq_some_iff.1 hstep
        exact ⟨h.ok, h.created, h.listed, h.entry, h.mapped, h.keys⟩

end

/-! ## Runs on the nodes -/

/-- A node holds the name of a script for the one call that has it. -/
structure Slots (s : State) : Prop where
  nodup : s.slots.Nodup
  held : ∀ k, s.calls.countP (fun c => c.holds && decide (c.key = k)) = s.slots.count k

theorem slots_init : Slots .init where
  nodup := .nil
  held := by simp [State.init]

section

variable {scrub : Text → Text} {s t : State} {id : Text} {j j' : Job} {m : Move} {c c' : Call}
  {slots : List (Text × Text)}

/-- A call that is asked holds nothing, and what a step of it takes or releases is its name. -/
theorem call_move_spec {m : NodeMove} (h : c.move s.slots m = some (c', slots)) :
    c'.key = c.key ∧ c'.action = c.action ∧ c'.job = c.job ∧ c'.step = c.step ∧
      (∀ z, c.phase.rc = some z → c'.phase.rc = some z) ∧
      ((c'.holds = c.holds ∧ slots = s.slots) ∨
        (c.holds = false ∧ c'.holds = true ∧ c.key ∉ s.slots ∧ slots = s.slots ++ [c.key]) ∨
        (c.holds = true ∧ c'.holds = false ∧ slots = s.slots.erase c.key)) := by
  cases m with
  | deny code =>
    obtain ⟨hphase, heq⟩ := Option.ite_none_right_eq_some.1 h
    obtain ⟨rfl, rfl⟩ := Prod.mk.inj (Option.some.inj heq)
    exact ⟨rfl, rfl, rfl, rfl, by simp [hphase, Phase.rc], .inl ⟨by simp [Call.holds, hphase], rfl⟩⟩
  | take =>
    obtain ⟨hphase, heq⟩ := Option.ite_none_right_eq_some.1 h
    split_ifs at heq with hbusy
    · obtain ⟨rfl, rfl⟩ := Prod.mk.inj (Option.some.inj heq)
      exact ⟨rfl, rfl, rfl, rfl, by simp [hphase, Phase.rc],
        .inl ⟨by simp [Call.holds, hphase], rfl⟩⟩
    · obtain ⟨rfl, rfl⟩ := Prod.mk.inj (Option.some.inj heq)
      exact ⟨rfl, rfl, rfl, rfl, by simp [hphase, Phase.rc],
        .inr (.inl ⟨by simp [Call.holds, hphase], rfl, hbusy, rfl⟩)⟩
  | ends e =>
    obtain ⟨hphase, heq⟩ := Option.ite_none_right_eq_some.1 h
    obtain ⟨rfl, rfl⟩ := Prod.mk.inj (Option.some.inj heq)
    exact ⟨rfl, rfl, rfl, rfl, by simp [hphase, Phase.rc], .inl ⟨by simp [Call.holds, hphase], rfl⟩⟩
  | release =>
    unfold Call.move at h
    dsimp only at h
    split at h
    · next e hphase =>
      obtain ⟨rfl, rfl⟩ := Prod.mk.inj (Option.some.inj h)
      exact ⟨rfl, rfl, rfl, rfl, by simp [hphase, Phase.rc],
        .inr (.inr ⟨by simp [Call.holds, hphase], rfl, rfl⟩)⟩
    · simp at h

/-- One element of a list changes. -/
theorem countP_set {α : Type*} {p : α → Bool} {l : List α} {i : ℕ} {a b : α}
    (ha : l[i]? = some a) :
    (l.set i b).countP p + (if p a then 1 else 0) = l.countP p + if p b then 1 else 0 := by
  obtain ⟨hi, rfl⟩ := List.getElem?_eq_some_iff.1 ha
  rw [(List.set_perm_cons_eraseIdx hi b).countP_eq,
    ← (List.getElem_cons_eraseIdx_perm hi).countP_eq p, List.countP_cons, List.countP_cons]
  omega

theorem Slots.node (h : Slots s) {i : ℕ} {m : NodeMove} (hc : s.calls[i]? = some c)
    (hmove : c.move s.slots m = some (c', slots)) :
    Slots { s with calls := s.calls.set i c', slots := slots } := by
  obtain ⟨hkey, -, -, -, -, hcase⟩ := call_move_spec hmove
  have hset (k : Text × Text) := countP_set (p := fun c : Call => c.holds && decide (c.key = k))
    (b := c') hc
  rcases hcase with ⟨hholds, rfl⟩ | ⟨hfalse, htrue, hfree, rfl⟩ | ⟨htrue, hfalse, rfl⟩
  · refine ⟨h.nodup, fun k => ?_⟩
    have hk := hset k
    rw [hholds, hkey] at hk
    exact (Nat.add_right_cancel hk).trans (h.held k)
  · refine ⟨List.nodup_append.2 ⟨h.nodup, List.nodup_singleton _, fun a ha b hb heq =>
      hfree ((heq.trans (List.mem_singleton.1 hb)) ▸ ha)⟩, fun k => ?_⟩
    have hk := hset k
    rw [hfalse, htrue, hkey, h.held k] at hk
    simp only [Bool.false_and, Bool.false_eq_true, if_false, Bool.true_and, decide_eq_true_eq,
      Nat.add_zero] at hk
    dsimp only
    rw [hk, List.count_append, List.count_singleton]
    simp [beq_iff_eq]
  · refine ⟨h.nodup.erase _, fun k => ?_⟩
    have hk := hset k
    rw [hfalse, htrue, hkey, h.held k] at hk
    simp only [Bool.false_and, Bool.false_eq_true, if_false, Bool.true_and, decide_eq_true_eq,
      Nat.add_zero] at hk
    dsimp only
    rw [List.count_erase]
    simp only [beq_iff_eq]
    split_ifs at hk ⊢ <;> omega

/-- A call that is new holds nothing. -/
theorem Slots.opened (h : Slots s) (id : Text) (j : Job) {t : State} (hslots : t.slots = s.slots)
    (hcalls : t.calls = s.opened id j) : Slots t := by
  refine ⟨hslots ▸ h.nodup, fun k => ?_⟩
  rw [hslots, hcalls, ← h.held k]
  unfold State.opened
  split
  · split
    · rw [List.countP_append, List.countP_singleton]
      simp [Call.holds]
    · rfl
  · rfl

theorem Slots.congr (h : Slots s) (hcalls : t.calls = s.calls) (hslots : t.slots = s.slots) :
    Slots t :=
  ⟨hslots ▸ h.nodup, fun k => by rw [hcalls, hslots]; exact h.held k⟩

theorem start_fields : (s.start id j).calls = s.calls ∧ (s.start id j).slots = s.slots ∧
    (s.start id j).subs = s.subs := by
  unfold State.start
  split_ifs <;> exact ⟨rfl, rfl, rfl⟩

theorem Slots.step (h : Slots s) {a : Act} (hstep : step scrub s a = some t) : Slots t := by
  cases a with
  | run id hostId name action arg valid =>
    obtain ⟨-, heq⟩ := Option.ite_none_left_eq_some.1 hstep
    obtain rfl := Option.some.inj heq
    exact h.congr start_fields.1 start_fields.2.1
  | restart id hostId name valid =>
    obtain ⟨-, heq⟩ := Option.ite_none_left_eq_some.1 hstep
    obtain rfl := Option.some.inj heq
    exact h.congr start_fields.1 start_fields.2.1
  | evict found =>
    obtain ⟨-, heq⟩ := Option.ite_none_right_eq_some.1 hstep
    obtain rfl := Option.some.inj heq
    exact h.congr rfl rfl
  | shutdown =>
    obtain rfl := Option.some.inj hstep
    exact h.congr rfl rfl
  | task id m =>
    obtain ⟨j, j', hj, -, hmove, calls, rfl, hcalls | ⟨-, hcalls⟩⟩ := task_spec hstep
    · exact h.congr hcalls rfl
    · exact h.opened id j rfl hcalls
  | node i m =>
    change s.node i m = some t at hstep
    unfold State.node at hstep
    split at hstep
    · simp at hstep
    · next c hc =>
      obtain ⟨⟨c', slots⟩, hmove, rfl⟩ := Option.map_eq_some_iff.1 hstep
      exact h.node hc hmove
  | stream id once =>
    obtain ⟨-, heq⟩ := Option.ite_none_right_eq_some.1 hstep
    obtain rfl := Option.some.inj heq
    exact h.congr rfl rfl
  | sub i =>
    change s.sub i = some t at hstep
    unfold State.sub at hstep
    split at hstep
    · simp at hstep
    · split at hstep
      · simp at hstep
      · obtain ⟨r, -, rfl⟩ := Option.map_eq_some_iff.1 hstep
        exact h.congr rfl rfl

end

/-! ## The order of the steps -/

/-- A step of a job was called and ended with 0. -/
def State.Passed (s : State) (id : Text) (k : ℕ) : Prop :=
  ∃ c ∈ s.calls, c.job = id ∧ c.step = k ∧ c.phase.rc = some 0

/-- A call is that of a step of its job, and neither a call nor a task is past a step that did not
end with 0. -/
structure Ordered (s : State) : Prop where
  call : ∀ c ∈ s.calls, ∃ j, s.store c.job = some j ∧ ∃ x, j.steps[c.step]? = some x ∧
    c.action = x.1
  before : ∀ c ∈ s.calls, ∀ k < c.step, s.Passed c.job k
  task : ∀ id j, s.store id = some j → ∀ k, j.pc.step = some k → ∀ k' < k, s.Passed id k'

theorem ordered_init : Ordered .init := by
  constructor <;> simp [State.init]

section

variable {scrub : Text → Text} {s t : State} {id : Text} {j j' : Job} {m : Move} {c c' : Call}

theorem State.Passed.mono {k : ℕ} (h : s.Passed id k) (hcalls : ∀ c ∈ s.calls, ∃ c' ∈ t.calls,
    c'.job = c.job ∧ c'.step = c.step ∧ ∀ z, c.phase.rc = some z → c'.phase.rc = some z) :
    t.Passed id k := by
  obtain ⟨c, hc, hjob, hstep, hrc⟩ := h
  obtain ⟨c', hc', hjob', hstep', hrc'⟩ := hcalls c hc
  exact ⟨c', hc', hjob'.trans hjob, hstep'.trans hstep, hrc' 0 hrc⟩

/-- Steps that leave the jobs and the calls. -/
theorem Ordered.congr (h : Ordered s) (hstore : t.store = s.store) (hcalls : t.calls = s.calls) :
    Ordered t := by
  have hpassed {id : Text} {k : ℕ} (hp : s.Passed id k) : t.Passed id k :=
    hp.mono fun c hc => ⟨c, hcalls ▸ hc, rfl, rfl, fun _ hz => hz⟩
  refine ⟨fun c hc => ?_, fun c hc k hk => ?_, fun id j hj k hk k' hk' => ?_⟩
  · rw [hcalls] at hc
    rw [hstore]
    exact h.call c hc
  · rw [hcalls] at hc
    exact hpassed (h.before c hc k hk)
  · rw [hstore] at hj
    exact hpassed (h.task id j hj k hk k' hk')

theorem Ordered.start (h : Ordered s) (hid : s.store id = none) (hpc : j.pc = .head 0) :
    Ordered (s.start id j) := by
  unfold State.start
  split_ifs with hbusy
  · exact h
  · have hpassed {a : Text} {k : ℕ} (hp : s.Passed a k) :
        State.Passed { s with
          store := Function.update s.store id (some j)
          jobs := s.jobs ++ [id]
          running := s.running ++ [(j.key, id)] } a k :=
      hp.mono fun c hc => ⟨c, hc, rfl, rfl, fun _ hz => hz⟩
    refine ⟨fun c hc => ?_, fun c hc k hk => hpassed (h.before c hc k hk),
      fun a i hi k hk k' hk' => ?_⟩
    · obtain ⟨i, hi, hx⟩ := h.call c hc
      have hne : c.job ≠ id := fun heq => by simp [heq, hid] at hi
      exact ⟨i, (Function.update_of_ne hne _ _).trans hi, hx⟩
    · by_cases ha : a = id
      · subst ha
        dsimp only at hi
        rw [Function.update_self] at hi
        obtain rfl := Option.some.inj hi
        rw [hpc] at hk
        obtain rfl := Option.some.inj hk
        exact absurd hk' (Nat.not_lt_zero k')
      · exact hpassed (h.task a i ((Function.update_of_ne ha _ _).symm.trans hi) k hk k' hk')

/-- The call that a task opens is of the step it is at. -/
theorem mem_opened (hc : c ∈ s.opened id j) : c ∈ s.calls ∨ j.pc.step = some c.step ∧
    c.job = id ∧ ∃ x, j.steps[c.step]? = some x ∧ c.action = x.1 := by
  unfold State.opened at hc
  split at hc
  · next k hpc =>
    split at hc
    · next x hx =>
      rcases List.mem_append.1 hc with hc | hc
      · exact .inl hc
      · obtain rfl := List.mem_singleton.1 hc
        exact .inr ⟨by rw [hpc]; rfl, rfl, x, hx, rfl⟩
    · exact .inl hc
  · exact .inl hc

theorem calls_opened (hc : c ∈ s.calls) : c ∈ s.opened id j := by
  unfold State.opened
  split
  · split
    · exact List.mem_append_left _ hc
    · exact hc
  · exact hc

theorem passed_of_answered {k : ℕ} (h : s.answered id k (some 0) = true) : s.Passed id k := by
  obtain ⟨-, hany⟩ := (Bool.and_eq_true _ _).mp h
  obtain ⟨c, hc, heq⟩ := List.any_eq_true.1 hany
  obtain ⟨hjob, hstep, hrc⟩ := of_decide_eq_true heq
  exact ⟨c, hc, hjob, hstep, hrc⟩

theorem Ordered.turn (h : Ordered s) (hj : s.store id = some j) (hallows : s.allows id j m = true)
    (hmove : j.move scrub m = some j') {running : List ((Text × Text) × Text)} {calls : List Call}
    (hcalls : calls = s.calls ∨ m = .next ∧ calls = s.opened id j) :
    Ordered { s with
      store := Function.update s.store id (some j')
      running := running
      calls := calls } := by
  have hmono : ∀ c ∈ s.calls, c ∈ calls := by
    intro c hc
    rcases hcalls with rfl | ⟨-, rfl⟩
    · exact hc
    · exact calls_opened hc
  have hnew : ∀ c ∈ calls, c ∈ s.calls ∨ j.pc.step = some c.step ∧ c.job = id ∧
      ∃ x, j.steps[c.step]? = some x ∧ c.action = x.1 := by
    intro c hc
    rcases hcalls with rfl | ⟨-, rfl⟩
    · exact .inl hc
    · exact mem_opened hc
  have hpassed {a : Text} {k : ℕ} (hp : s.Passed a k) :
      State.Passed { s with
        store := Function.update s.store id (some j')
        running := running
        calls := calls } a k :=
    hp.mono fun c hc => ⟨c, hmono c hc, rfl, rfl, fun _ hz => hz⟩
  obtain ⟨-, hsteps, -⟩ := (turn_of_move hmove).spec
  refine ⟨fun c hc => ?_, fun c hc k hk => ?_, fun a i hi k hk k' hk' => ?_⟩
  · dsimp only
    rcases hnew c hc with hold | ⟨-, hjob, hx⟩
    · obtain ⟨i, hi, hx⟩ := h.call c hold
      by_cases heq : c.job = id
      · rw [heq] at hi ⊢
        obtain rfl := Option.some.inj (hj.symm.trans hi)
        exact ⟨j', Function.update_self .., by rwa [hsteps]⟩
      · exact ⟨i, (Function.update_of_ne heq _ _).trans hi, hx⟩
    · rw [hjob]
      exact ⟨j', Function.update_self .., by rwa [hsteps]⟩
  · rcases hnew c hc with hold | ⟨hat, hjob, -⟩
    · exact hpassed (h.before c hold k hk)
    · exact hpassed (hjob ▸ h.task id j hj c.step hat k hk)
  · by_cases ha : a = id
    · subst ha
      dsimp only at hi
      rw [Function.update_self] at hi
      obtain rfl := Option.some.inj hi
      rcases step_of_move hmove hk with hat | ⟨k₀, rfl, rfl, hpc⟩
      · exact hpassed (h.task a j hj k hat k' hk')
      · rcases Nat.lt_succ_iff_lt_or_eq.1 hk' with hlt | rfl
        · exact hpassed (h.task a j hj k₀ (by rw [hpc]; rfl) k' hlt)
        · have hanswered : s.answered a k' (some 0) = true := by
            rw [State.allows, hpc] at hallows
            exact hallows
          exact hpassed (passed_of_answered hanswered)
    · exact hpassed (h.task a i ((Function.update_of_ne ha _ _).symm.trans hi) k hk k' hk')

theorem Ordered.node (h : Ordered s) {i : ℕ} {m : NodeMove} {slots : List (Text × Text)}
    (hc : s.calls[i]? = some c) (hmove : c.move s.slots m = some (c', slots)) :
    Ordered { s with calls := s.calls.set i c', slots := slots } := by
  obtain ⟨hkey, haction, hjob, hstep, hrc, -⟩ := call_move_spec hmove
  have hmem : c ∈ s.calls := List.mem_iff_getElem?.2 ⟨i, hc⟩
  have hi : i < s.calls.length := (List.getElem?_eq_some_iff.1 hc).1
  have hpassed {a : Text} {k : ℕ} (hp : s.Passed a k) :
      State.Passed { s with calls := s.calls.set i c', slots := slots } a k := by
    refine hp.mono fun d hd => ?_
    obtain ⟨n, hn⟩ := List.mem_iff_getElem?.1 hd
    by_cases heq : i = n
    · subst heq
      obtain rfl := Option.some.inj (hc.symm.trans hn)
      exact ⟨c', List.mem_set hi _, hjob, hstep, hrc⟩
    · exact ⟨d, List.mem_iff_getElem?.2 ⟨n, by rw [List.getElem?_set_ne heq, hn]⟩, rfl, rfl,
        fun _ hz => hz⟩
  have hold {d : Call} (hd : d ∈ s.calls.set i c') : ∃ e ∈ s.calls, d.job = e.job ∧
      d.step = e.step ∧ d.action = e.action := by
    rcases List.mem_or_eq_of_mem_set hd with hd | rfl
    · exact ⟨d, hd, rfl, rfl, rfl⟩
    · exact ⟨c, hmem, hjob, hstep, haction⟩
  refine ⟨fun d hd => ?_, fun d hd k hk => ?_, fun a j hj k hk k' hk' =>
    hpassed (h.task a j hj k hk k' hk')⟩
  · obtain ⟨e, he, hj, hs, ha⟩ := hold hd
    rw [hj, hs, ha]
    exact h.call e he
  · obtain ⟨e, he, hj, hs, -⟩ := hold hd
    rw [hj]
    exact hpassed (h.before e he k (hs ▸ hk))

theorem Ordered.step (h : Ordered s) {a : Act} (hstep : step scrub s a = some t) : Ordered t := by
  cases a with
  | run id hostId name action arg valid =>
    obtain ⟨hnew, heq⟩ := Option.ite_none_left_eq_some.1 hstep
    obtain rfl := Option.some.inj heq
    exact h.start (by simpa using (not_or.1 hnew).1) rfl
  | restart id hostId name valid =>
    obtain ⟨hnew, heq⟩ := Option.ite_none_left_eq_some.1 hstep
    obtain rfl := Option.some.inj heq
    exact h.start (by simpa using (not_or.1 hnew).1) rfl
  | evict found =>
    obtain ⟨-, heq⟩ := Option.ite_none_right_eq_some.1 hstep
    obtain rfl := Option.some.inj heq
    exact h.congr rfl rfl
  | shutdown =>
    obtain rfl := Option.some.inj hstep
    exact h.congr rfl rfl
  | task id m =>
    obtain ⟨j, j', hj, hallows, hmove, calls, rfl, hcalls⟩ := task_spec hstep
    exact h.turn hj hallows hmove hcalls
  | node i m =>
    change s.node i m = some t at hstep
    unfold State.node at hstep
    split at hstep
    · simp at hstep
    · next c hc =>
      obtain ⟨⟨c', slots⟩, hmove, rfl⟩ := Option.map_eq_some_iff.1 hstep
      exact h.node hc hmove
  | stream id once =>
    obtain ⟨-, heq⟩ := Option.ite_none_right_eq_some.1 hstep
    obtain rfl := Option.some.inj heq
    exact h.congr rfl rfl
  | sub i =>
    change s.sub i = some t at hstep
    unfold State.sub at hstep
    split at hstep
    · simp at hstep
    · split at hstep
      · simp at hstep
      · obtain ⟨r, -, rfl⟩ := Option.map_eq_some_iff.1 hstep
        exact h.congr rfl rfl

end

end Scripts

end EngineConsole
