import EngineConsole.Keyed
import EngineConsole.Transition

/-!
# One download : its row, its workers and the calls on it

What the download service (`services/downloads.rs`) holds of one id : the row in the
database, the entries of the task map and of the intent map, every worker that was spawned
for it, and the API calls in flight on it. A step is one statement on the database, one lock
taken, one node call begun or awaited, so that any two may be interleaved.

A worker sees that its token is cancelled only where it is polled, at an await; until then
it goes on. The `select!` of `run` is biased : at an await the token is looked at first.
The steps of `stop_task` are those of `StopPc`, which four calls share.

The semaphore only delays a worker, so it is left out : a worker may get its permit whenever
it waits for one.
-/

set_option linter.unusedSectionVars false

namespace EngineConsole.Downloads

/-! ## Rows -/

/-- The states of a row. -/
inductive RowState where
  | queued
  | running
  | paused
  | completed
  | failed
  | cancelled
  deriving DecidableEq, Repr

/-- A state as the errors name it. -/
def RowState.text : RowState → String
  | queued => "queued"
  | running => "running"
  | paused => "paused"
  | completed => "completed"
  | failed => "failed"
  | cancelled => "cancelled"

/-- A worker is to run, or runs. -/
def RowState.active (s : RowState) : Bool :=
  s = .queued || s = .running

/-- `state IN ('queued','running','paused')` -/
def RowState.unfinished (s : RowState) : Bool :=
  s = .queued || s = .running || s = .paused

/-- The states a row is to stay in. -/
def RowState.terminal (s : RowState) : Bool :=
  s = .completed || s = .cancelled

/-- The kind of a row. -/
inductive Kind where
  | hf
  | copy
  deriving DecidableEq, Repr

/-- What a row writes, and where. -/
structure Key where
  kind : Kind
  repoId : String
  hostId : String
  rootId : String
  source : Option String
  deriving DecidableEq, Repr

/-- A row of `downloads`, as far as its life goes. -/
structure Row where
  key : Key
  state : RowState
  /-- `error` and `error_code` -/
  error : Option (String × String)
  deriving DecidableEq, Repr

/-- `recover` : a row that a worker of an earlier process left can be resumed. -/
def Row.recover (r : Row) : Row :=
  if r.state.active then { r with state := .paused } else r

/-! ## Workers -/

/-- What a cancelled worker is told to write. -/
inductive Intent where
  | paused
  | cancelled
  deriving DecidableEq, Repr

/-- The state an intent stands for. -/
def Intent.state : Intent → RowState
  | paused => .paused
  | cancelled => .cancelled

/-- Where a worker is in `run`. -/
inductive WorkerPc where
  /-- before it reads its row -/
  | start
  /-- at the await of the semaphore -/
  | waiting
  /-- about to write `running` -/
  | admitted
  /-- in `download_run` or `copy_run`, between two awaits -/
  | busy
  /-- at an await of these : a node call, or a read of the source -/
  | node
  /-- wrote `completed` -/
  | wrote
  /-- at the await of the rescan, after `completed` -/
  | rescan
  /-- saw its token cancelled -/
  | cancelling
  /-- about to write the intent it read -/
  | stopping (i : Intent)
  /-- wrote `cancelled`, at the await of `cleanup_partial` -/
  | cleaning
  /-- about to write `failed` -/
  | failing (error : String × String)
  /-- wrote its last state, about to publish it -/
  | closing
  /-- returned -/
  | ended
  /-- its handle is finished -/
  | finished
  deriving DecidableEq, Repr

/-- A worker. -/
structure Worker where
  pc : WorkerPc
  /-- its token is cancelled -/
  token : Bool
  /-- it began a node call -/
  called : Bool
  /-- the last of `completed`, `failed`, `paused` and `cancelled` it wrote -/
  last : Option RowState
  deriving DecidableEq, Repr

/-- A worker that was just spawned. -/
def Worker.new : Worker := ⟨.start, false, false, none⟩

/-- It has not returned. -/
def Worker.going (w : Worker) : Bool :=
  w.pc ≠ .ended && w.pc ≠ .finished

/-- What a worker does next, where it has a choice. -/
inductive Move where
  | next
  /-- begin a node call -/
  | call
  /-- all files are done -/
  | complete
  | fail (error : String × String)
  deriving DecidableEq, Repr

/-! ## Calls -/

/-- The operations on one row; a shutdown stops the rows of its task map one by one. -/
inductive Op where
  | create
  | pause
  | resume
  | cancel
  | delete
  | shutdown
  deriving DecidableEq, Repr

/-- The intent an operation stops a task with. -/
def Op.intent : Op → Intent
  | .cancel => .cancelled
  | .delete => .cancelled
  | _ => .paused

/-- Where a call is in `stop_task`. -/
inductive StopPc where
  | remove
  | intend (task : Option ℕ)
  | check (task : Option ℕ)
  | cancelToken (w : ℕ)
  | await (w : ℕ)
  /-- about to write `paused` itself -/
  | park
  deriving DecidableEq, Repr

/-- Where a call is. -/
inductive CallPc where
  | read
  | isLive
  | stop (pc : StopPc)
  | pauseRead
  | pauseSet
  | setCancelled
  | cleanup
  | deleteRow
  | setQueued
  | reread
  | forget
  | spawn
  | insert (w : ℕ)
  | cancelOld (w : ℕ)
  /-- about to read the row it returns -/
  | answer
  deriving DecidableEq, Repr

/-- A call in flight. -/
structure Call where
  id : ℕ
  op : Op
  pc : CallPc
  /-- what `is_live` said -/
  live : Bool
  /-- the row was completed when it was read -/
  completed : Bool
  deriving DecidableEq, Repr

/-- How a call is answered. -/
inductive Answer where
  | done
  | notFound
  | conflict (message : String)
  deriving DecidableEq, Repr

/-! ## The state -/

/-- Everything the service holds of one id. -/
structure Job where
  row : Option Row
  /-- the task map : the worker of the row -/
  task : Option ℕ
  /-- the intent map -/
  intent : Option Intent
  workers : ℕ → Option Worker
  nextWorker : ℕ
  calls : List Call
  nextCall : ℕ
  answers : List (ℕ × Answer)

namespace Job

/-- `_set` of the state. -/
def setState (j : Job) (s : RowState) : Job :=
  { j with row := j.row.map fun r => { r with state := s } }

/-- `_set` of the state and the error. -/
def setOutcome (j : Job) (s : RowState) (error : Option (String × String)) : Job :=
  { j with row := j.row.map fun r => { r with state := s, error := error } }

/-- Change a worker. -/
def putWorker (j : Job) (i : ℕ) (w : Worker) : Job :=
  { j with workers := Function.update j.workers i (some w) }

/-- `handle.is_finished` -/
def isFinished (j : Job) (i : ℕ) : Bool :=
  match j.workers i with
  | some w => w.pc = .finished
  | none => true

/-- `is_live` -/
def isLive (j : Job) : Bool :=
  match j.task with
  | some i => !j.isFinished i
  | none => false

/-- `token.cancel` -/
def cancelToken (j : Job) (i : ℕ) : Job :=
  match j.workers i with
  | some w => j.putWorker i { w with token := true }
  | none => j

/-- The call goes on at `pc`. -/
def goto (j : Job) (k : Call) (pc : CallPc) : Job :=
  { j with calls := Keyed.update Call.id k.id (fun k => { k with pc }) j.calls }

/-- The call returns. -/
def finish (j : Job) (k : Call) (a : Answer) : Job :=
  { j with calls := Keyed.remove Call.id k.id j.calls, answers := j.answers ++ [(k.id, a)] }

/-- A call arrives. -/
def begin (j : Job) (op : Op) (pc : CallPc) : Job :=
  { j with
    calls := j.calls ++ [⟨j.nextCall, op, pc, false, false⟩]
    nextCall := j.nextCall + 1 }

/-! ## Steps of a worker -/

/-- A step of worker `i`. -/
def workerStep (j : Job) (i : ℕ) (w : Worker) : Move → Option Job
  | .next =>
    match w.pc with
    | .start =>
      match j.row with
      | some _ => some (j.putWorker i { w with pc := .waiting })
      | none => some (j.putWorker i { w with pc := .ended })
    | .waiting =>
      some (j.putWorker i { w with pc := if w.token then .cancelling else .admitted })
    | .admitted => some ((j.setState .running).putWorker i { w with pc := .busy })
    | .node => some (j.putWorker i { w with pc := if w.token then .cancelling else .busy })
    | .wrote => some (j.putWorker i { w with pc := .ended })
    | .rescan => some (j.putWorker i { w with pc := if w.token then .cancelling else .ended })
    | .cancelling => some (j.putWorker i { w with pc := .stopping (j.intent.getD .paused) })
    | .stopping intent =>
      some ((j.setState intent.state).putWorker i
        { w with
          pc := if intent = .cancelled then .cleaning else .closing
          last := some intent.state })
    | .cleaning => some (j.putWorker i { w with pc := .closing })
    | .failing error =>
      some ((j.setOutcome .failed (some error)).putWorker i
        { w with pc := .closing, last := some .failed })
    | .closing => some (j.putWorker i { w with pc := .ended })
    | .ended => some (j.putWorker i { w with pc := .finished })
    | .busy | .finished => none
  | .call =>
    match w.pc with
    | .busy => some (j.putWorker i { w with pc := .node, called := true })
    | .wrote => some (j.putWorker i { w with pc := .rescan })
    | _ => none
  | .complete =>
    match w.pc with
    | .busy => some ((j.setState .completed).putWorker i
        { w with pc := .wrote, last := some .completed })
    | _ => none
  | .fail error =>
    match w.pc with
    | .busy => some (j.putWorker i { w with pc := .failing error })
    | _ => none

/-! ## Steps of a call -/

/-- Where an operation goes on after `stop_task`. -/
def afterStop (k : Call) : Option CallPc :=
  match k.op with
  | .pause => some .pauseRead
  | .cancel => some .setCancelled
  | .delete => some (if !k.completed && !k.live then .cleanup else .deleteRow)
  | _ => none

/-- Go on after `stop_task`; a shutdown is done with the row. -/
def leaveStop (j : Job) (k : Call) : Job :=
  match afterStop k with
  | some pc => j.goto k pc
  | none => j.finish k .done

/-- A step in `stop_task`. -/
def stopStep (j : Job) (k : Call) : StopPc → Option Job
  | .remove => some ({ j with task := none }.goto k (.stop (.intend j.task)))
  | .intend task => some ({ j with intent := some k.op.intent }.goto k (.stop (.check task)))
  | .check task =>
    match task with
    | some w =>
      if j.isFinished w then
        if k.op.intent = .paused then some (j.goto k (.stop .park)) else some (j.leaveStop k)
      else some (j.goto k (.stop (.cancelToken w)))
    | none =>
      if k.op.intent = .paused then some (j.goto k (.stop .park)) else some (j.leaveStop k)
  | .cancelToken w => some ((j.cancelToken w).goto k (.stop (.await w)))
  | .await w => if j.isFinished w then some (j.leaveStop k) else none
  | .park => some ((j.setState .paused).leaveStop k)

/-- The first statement of a call : its row, and whether the row is in a state for it. -/
def readStep (j : Job) (k : Call) : Option Job :=
  match j.row with
  | none => some (j.finish k .notFound)
  | some r =>
    match k.op with
    | .pause =>
      if r.state.active then some (j.goto k (.stop .remove))
      else some (j.finish k (.conflict s!"cannot pause a {r.state.text} download"))
    | .resume =>
      if r.state = .paused || r.state = .failed then some (j.goto k .setQueued)
      else some (j.finish k (.conflict s!"cannot resume a {r.state.text} download"))
    | .cancel =>
      if r.state.terminal then some (j.finish k (.conflict s!"download already {r.state.text}"))
      else some (j.goto k .isLive)
    | .delete =>
      some { j with
        calls := Keyed.update Call.id k.id
          (fun k => { k with pc := .isLive, completed := r.state = .completed }) j.calls }
    | .create | .shutdown => none

/-- A step of a call. -/
def callStep (j : Job) (k : Call) : Option Job :=
  match k.pc with
  | .read => j.readStep k
  | .isLive =>
    some { j with
      calls := Keyed.update Call.id k.id
        (fun k => { k with pc := .stop .remove, live := j.isLive }) j.calls }
  | .stop pc => j.stopStep k pc
  | .pauseRead =>
    match j.row with
    | none => some (j.finish k .notFound)
    | some r => some (j.goto k (if r.state.active then .pauseSet else .answer))
  | .pauseSet => some ((j.setState .paused).goto k .answer)
  | .setCancelled =>
    some ((j.setState .cancelled).goto k (if k.live then .answer else .cleanup))
  | .cleanup => some (j.goto k (if k.op = .delete then .deleteRow else .answer))
  | .deleteRow => some ({ j with row := none }.finish k .done)
  | .setQueued => some ((j.setOutcome .queued none).goto k .reread)
  | .reread =>
    match j.row with
    | none => some (j.finish k .notFound)
    | some _ => some (j.goto k .forget)
  | .forget => some ({ j with intent := none }.goto k .spawn)
  | .spawn =>
    some ({ j.putWorker j.nextWorker .new with nextWorker := j.nextWorker + 1 }.goto k
      (.insert j.nextWorker))
  | .insert w =>
    match j.task with
    | some old => some ({ j with task := some w }.goto k (.cancelOld old))
    | none => some ({ j with task := some w }.finish k .done)
  | .cancelOld w => some ((j.cancelToken w).finish k .done)
  | .answer => some (j.finish k (if j.row.isSome then .done else .notFound))

/-! ## The machine -/

/-- What may happen to one id. -/
inductive Act where
  /-- a call of pause, resume, cancel or delete arrives -/
  | api (op : Op)
  /-- a shutdown comes to the row -/
  | stop
  | call (id : ℕ)
  | worker (i : ℕ) (m : Move)
  deriving DecidableEq, Repr

/-- The operations an API call names. -/
def isApi (op : Op) : Bool :=
  op = .pause || op = .resume || op = .cancel || op = .delete

/-- One step. -/
def step (j : Job) : Act → Option Job
  | .api op => if isApi op then some (j.begin op .read) else none
  | .stop => some (j.begin .shutdown (.stop .remove))
  | .call id =>
    match Keyed.find Call.id id j.calls with
    | some k => j.callStep k
    | none => none
  | .worker i m =>
    match j.workers i with
    | some w => j.workerStep i w m
    | none => none

/-- A row that was just inserted : the call that did so is about to start its worker. -/
def created (key : Key) : Job where
  row := some ⟨key, .queued, none⟩
  task := none
  intent := none
  workers _ := none
  nextWorker := 0
  calls := [⟨0, .create, .reread, false, false⟩]
  nextCall := 1
  answers := []

/-- A row as a process finds it when it starts. -/
def loaded (row : Option Row) : Job where
  row
  task := none
  intent := none
  workers _ := none
  nextWorker := 0
  calls := []
  nextCall := 0
  answers := []

end Job

end EngineConsole.Downloads
