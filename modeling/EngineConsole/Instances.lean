import EngineConsole.Adoption
import EngineConsole.Transition

/-!
# The instances of a host

The operations on the managed instances of one host (`create`, `start`, `stop`, `restart`,
`remove`, `patch`, the supervisor and adoption of `services/lifecycle.rs`) as processes over
the table of instances and the containers of the node, for any number of operations at a
time.

A call of the node, and a write of the database with the reads right before it, is one step.
A call may fail, with what it was for done or not. `create` and `start` hold the host's
lock from before they look for a port until the launch is over; the other operations take no
lock. A request may go away at any point. What the hub reads of the node's inventory is
given with the step : it may be out of date.
-/

set_option linter.unusedSectionVars false

namespace EngineConsole

namespace Lifecycle

open Web

/-! ## Ports -/

/-- An endpoint of a node's inventory : the container it is of, and its port. -/
structure Endpoint where
  container : Option Text
  port : Option Int

/-- The part of a node's inventory that ports are read from. -/
structure Inventory where
  containers : List Container
  endpoints : List Endpoint

/-- `candidate_ports` : not used by another active instance, not published by a container. -/
def candidatePorts (env : Env) (rows : List Row) (inv : Inventory) (exclude : Option Text) :
    List Int :=
  let used := rows.filterMap fun r =>
    if r.state.active ∧ r.id ≠ exclude.getD [] then r.port.filter (· ≠ 0) else none
  let mine := inv.containers.filter fun c => exclude.any fun x => !x.isEmpty && c.inst = some x
  let others := inv.containers.filter fun c => !exclude.any fun x => !x.isEmpty && c.inst = some x
  let theirs := inv.endpoints.filter fun e =>
    !e.container.any fun c => (mine.map (·.name)).contains c
  let used := used ++ others.flatMap hostPorts ++ theirs.filterMap (·.port)
  ((List.range (env.hi - env.lo + 1).toNat).map fun n => env.lo + (n : Int)).filter (· ∉ used)

/-- `alloc_port`. -/
def allocPort (env : Env) (rows : List Row) (inv : Inventory) (exclude : Option Text) :
    Option Int :=
  (candidatePorts env rows inv exclude).head?

/-- `GATEWAY_ATTEMPTS`. -/
def gatewayAttempts : ℕ :=
  8

/-- The ports that `gateway` tries. -/
def gatewayOrder (env : Env) (rows : List Row) (inv : Inventory) (iid : Text) (port : Int) :
    List Int :=
  (port :: (candidatePorts env rows inv (some iid)).filter (· ≠ port)).take gatewayAttempts

/-! ## The node -/

/-- The containers of an instance : whether each is there, and whether it runs. -/
structure Pods where
  engine : Option Bool
  gateway : Option Bool
deriving DecidableEq

/-- What the hub asks of the node. -/
inductive Call where
  | ensureNet
  | rmGateway
  | rmEngine
  | run
  | startGateway
  | stopGateway
  | stopEngine
deriving DecidableEq

/-- What the node says. -/
inductive Answer where
  | ok
  /-- `not_found` -/
  | missing
  /-- `port_in_use` -/
  | inUse
  /-- another problem : is it one of `UNAVAILABLE_CODES`, and was it done nevertheless -/
  | failed (unavailable done : Bool)
deriving DecidableEq

/-- What stop and remove take as the outcome they wanted. -/
def Answer.fine : Answer → Bool
  | .ok | .missing => true
  | .inUse | .failed _ _ => false

/-- The node could not even be asked. -/
def Answer.unavailable : Answer → Bool
  | .failed u _ => u
  | _ => false

/-- What a call does. -/
def Call.effect : Call → Pods → Pods
  | .ensureNet, p => p
  | .rmGateway, p => { p with gateway := none }
  | .rmEngine, p => { p with engine := none }
  | .run, p => { p with engine := some true }
  | .startGateway, p => { p with gateway := some true }
  | .stopGateway, p => { p with gateway := p.gateway.map fun _ => false }
  | .stopEngine, p => { p with engine := p.engine.map fun _ => false }

/-- The container a call is about is not there. -/
def Call.lacks : Call → Pods → Bool
  | .rmGateway, p | .stopGateway, p => p.gateway.isNone
  | .rmEngine, p | .stopEngine, p => p.engine.isNone
  | _, _ => false

/-- The containers after a call with such an answer, if the node can give it. -/
def Call.after (c : Call) (p : Pods) : Answer → Option Pods
  | .ok => some (c.effect p)
  | .missing => if c.lacks p then some p else none
  | .inUse => if c = .startGateway then some p else none
  | .failed _ done => some (if done then c.effect p else p)

/-! ## Operations -/

/-- Where a launch is. -/
inductive LaunchAt where
  | net
  | rmGateway
  | rmEngine
  | run
  /-- about to list the ports for the gateway -/
  | choose
  /-- the ports still to try -/
  | gateway (order : List Int)
  /-- never leave an engine running without its front door -/
  | undo
  | fail
  | finish (port : Int)

/-- Where a stop is. -/
inductive StopAt where
  | gateway
  | engine
  | finish
  /-- about to write this state back -/
  | restore (state : State)

/-- Where a removal is. -/
inductive RemoveAt where
  | gateway
  | engine
  | finish
deriving DecidableEq

/-- Where the supervisor is with an instance. -/
inductive Watch where
  | look
  /-- the engine does not run -/
  | exited
  | stopGateway
  | fail
  | progress
  /-- about to write this state -/
  | write (state : State)
  | idleTtl

/-- An operation in flight. -/
inductive Op where
  | idle
  /-- a start, for the host's lock -/
  | waiting (iid : Text)
  /-- a create or a start, with the lock -/
  | entered (iid : Option Text)
  /-- and with a port -/
  | asked (iid : Option Text) (port : Int)
  | launch (iid : Text) (port : Int) (pc : LaunchAt)
  | stop (iid : Text) (before : State) (pc : StopAt) (restart : Bool)
  /-- a restart, between stop and start -/
  | restart (iid : Text)
  | remove (iid : Text) (pc : RemoveAt)
  /-- the supervisor, with the row as it read it -/
  | supervise (seen : Row) (pc : Watch)

/-- What the supervisor sees of an instance's containers. -/
structure View where
  running : Bool
  /-- a container of the time before gateways has no such role -/
  engineRole : Bool
  gatewayOk : Bool

/-- The steps of an operation. -/
inductive OpAct where
  | create
  | start (iid : Text) (up : Bool)
  | again (up : Bool)
  | enter (up : Bool)
  | alloc (inv : Inventory)
  | insert (row : Row)
  | place
  | call (answer : Answer)
  | write
  | stop (iid : Text)
  | restart (iid : Text)
  | remove (iid : Text)
  | patch (iid : Text) (name : Option Text)
  | snapshot (iid : Text)
  | look (view : View)
  | progress (phase healthy timedOut changed : Bool)
  | ttl
  /-- an error, a refusal, or the request goes away -/
  | drop

/-- A step of the system. -/
inductive Act where
  | op (k : ℕ) (a : OpAct)
  /-- adoption comes to a container of the inventory -/
  | adopt (containers : List Container) (i : ℕ)
  /-- a container exits -/
  | exit (iid : Text) (gateway : Bool)

/-- The table of the host's instances, its lock, the operations and the node. -/
structure System where
  rows : List Row
  holder : Option ℕ
  ops : ℕ → Op
  node : Text → Pods

/-! ## Steps -/

/-- `UPDATE` of the row of an instance. -/
def updateRow (id : Text) (f : Row → Row) (rows : List Row) : List Row :=
  rows.map fun r => if r.id = id then f r else r

/-- `start` refuses these. -/
def State.already : State → Bool
  | .starting | .loading | .ready => true
  | _ => false

namespace System

/-- Move an operation. -/
def setOp (s : System) (k : ℕ) (op : Op) : System :=
  { s with ops := Function.update s.ops k op }

/-- End an operation, and give its lock back. -/
def leave (s : System) (k : ℕ) : System :=
  { s.setOp k .idle with holder := if s.holder = some k then none else s.holder }

/-- Take the lock. -/
def lock (s : System) (k : ℕ) : System :=
  { s with holder := some k }

/-- Write the state of an instance. -/
def setState (s : System) (id : Text) (state : State) : System :=
  { s with rows := updateRow id (fun r => { r with state := state }) s.rows }

/-- Write `starting` and the port of an instance. -/
def setStarting (s : System) (id : Text) (port : Int) : System :=
  { s with rows := updateRow id (fun r => { r with state := .starting, port := some port }) s.rows }

/-- Call the node for an instance. -/
def call (s : System) (iid : Text) (c : Call) (answer : Answer) : Option System :=
  (c.after (s.node iid) answer).map fun p => { s with node := Function.update s.node iid p }

/-- The row of an instance. -/
def row? (s : System) (id : Text) : Option Row :=
  s.rows.find? fun r => r.id = id

/-- The row of an instance that may be started; `up` : the link is, else the state shows as
`unreachable`. -/
def startable (s : System) (id : Text) (up : Bool) : Option Row :=
  (s.row? id).filter fun r => !(up && r.state.already)

end System

/-- What a launch asks of the node. -/
def LaunchAt.call : LaunchAt → Option Call
  | .net => some .ensureNet
  | .rmGateway => some .rmGateway
  | .rmEngine | .undo => some .rmEngine
  | .run => some .run
  | .gateway (_ :: _) => some .startGateway
  | _ => none

/-- Where a launch is after the node's answer. -/
def LaunchAt.next (a : Answer) : LaunchAt → LaunchAt
  | .net => if a = .ok then .rmGateway else .fail
  -- clear stale containers of the same name
  | .rmGateway => if a.fine then .rmEngine else .fail
  | .rmEngine => if a.fine then .run else .fail
  | .run => if a = .ok then .choose else .fail
  | .gateway (q :: order) =>
    match a with
    | .ok => .finish q
    | .inUse => if order.isEmpty then .undo else .gateway order
    | _ => .undo
  | .undo => .fail
  | pc => pc

/-- `launch`. -/
def launchStep (env : Env) (s : System) (k : ℕ) (iid : Text) (port : Int) (pc : LaunchAt)
    (a : OpAct) : Option System :=
  match pc, a with
  | .choose, .alloc inv =>
    some (s.setOp k (.launch iid port (.gateway (gatewayOrder env s.rows inv iid port))))
  | .fail, .write => some ((s.setState iid .failed).leave k)
  | .finish q, .write => some ((s.setStarting iid q).leave k)
  | pc, .call a =>
    pc.call.bind fun c => (s.call iid c a).map (·.setOp k (.launch iid port (pc.next a)))
  | _, _ => none

/-- What a stop asks of the node. -/
def StopAt.call : StopAt → Option Call
  | .gateway => some .stopGateway
  | .engine => some .stopEngine
  | _ => none

/-- Where a stop is after the node's answer. -/
def StopAt.next (before : State) (a : Answer) : StopAt → StopAt
  | .gateway =>
    if a.fine then .engine
    -- a node that could not even be asked changed nothing
    else .restore (if a.unavailable then before else .failed)
  | .engine => if a.fine then .finish else .restore (if a.unavailable then before else .failed)
  | pc => pc

/-- The first steps of `stop`. -/
def stopBegin (s : System) (k : ℕ) (iid : Text) (restart : Bool) : Option System :=
  (s.row? iid).map fun r =>
    if r.state = .stopped then s.setOp k (if restart then .restart iid else .idle)
    else (s.setState iid .stopping).setOp k (.stop iid r.state .gateway restart)

/-- The rest of `stop`. -/
def stopStep (s : System) (k : ℕ) (iid : Text) (before : State) (restart : Bool) (pc : StopAt)
    (a : OpAct) : Option System :=
  match pc, a with
  | .restore state, .write => some ((s.setState iid state).setOp k .idle)
  | .finish, .write =>
    some ((s.setState iid .stopped).setOp k (if restart then .restart iid else .idle))
  | pc, .call a =>
    pc.call.bind fun c =>
      (s.call iid c a).map (·.setOp k (.stop iid before (pc.next before a) restart))
  | _, _ => none

/-- What a removal asks of the node, and where it is after an answer it wanted. -/
def RemoveAt.call : RemoveAt → Option (Call × RemoveAt)
  | .gateway => some (.rmGateway, .engine)
  | .engine => some (.rmEngine, .finish)
  | .finish => none

/-- `remove`. -/
def removeStep (s : System) (k : ℕ) (iid : Text) (pc : RemoveAt) (a : OpAct) : Option System :=
  match pc, a with
  | .finish, .write => some ({ s with rows := s.rows.filter (·.id ≠ iid) }.setOp k .idle)
  | pc, .call a =>
    pc.call.bind fun c =>
      (s.call iid c.1 a).map (·.setOp k (if a.fine then .remove iid c.2 else .idle))
  | _, _ => none

/-- The state that `progress` comes to. -/
def progressState (seen : State) (phase healthy : Bool) : State :=
  if healthy then .ready else if phase ∧ seen = .starting then .loading else seen

/-- What the supervisor does about what it sees. -/
def Row.lookAt (seen : Row) (view : View) : Op :=
  if seen.state = .stopping then
    -- a stop whose request went away half way must not leave the instance stopping forever
    if view.running then .idle else .supervise seen (.write .stopped)
  else if !view.running then .supervise seen .exited
  else if view.engineRole && !view.gatewayOk then .supervise seen .fail
  else if seen.state = .starting ∨ seen.state = .loading then .supervise seen .progress
  else if seen.state = .ready then .supervise seen .idleTtl
  else .idle

/-- What it does about an instance that starts up. -/
def Row.progressTo (seen : Row) (phase healthy timedOut changed : Bool) : Op :=
  let state := progressState seen.state phase healthy
  if !healthy && timedOut then .supervise seen .fail
  else if state ≠ seen.state ∨ changed then .supervise seen (.write state)
  else .idle

/-- `supervise` and `progress`. -/
def superviseStep (s : System) (k : ℕ) (seen : Row) (pc : Watch) (a : OpAct) : Option System :=
  match pc, a with
  | .look, .look view => some (s.setOp k (seen.lookAt view))
  | .exited, .write => some ((s.setState seen.id .failed).setOp k (.supervise seen .stopGateway))
  | .stopGateway, .call a => (s.call seen.id .stopGateway a).map (·.setOp k .idle)
  | .fail, .write => some ((s.setState seen.id .failed).setOp k .idle)
  | .progress, .progress phase healthy timedOut changed =>
    some (s.setOp k (seen.progressTo phase healthy timedOut changed))
  | .write state, .write => some ((s.setState seen.id state).setOp k .idle)
  | .idleTtl, .ttl => stopBegin s k seen.id false
  | _, _ => none

/-- One step of operation `k`. -/
def opStep (env : Env) (host : Text) (s : System) (k : ℕ) (a : OpAct) : Option System :=
  match s.ops k, a with
  | .idle, .drop => none
  | _, .drop => some (s.leave k)
  | .idle, .create =>
    if s.holder = none then some ((s.setOp k (.entered none)).lock k) else none
  | .idle, .start iid up => (s.startable iid up).map fun _ => s.setOp k (.waiting iid)
  | .restart iid, .again up => (s.startable iid up).map fun _ => s.setOp k (.waiting iid)
  | .waiting iid, .enter up =>
    -- another request may have started it while this one waited for the host's lock
    (s.startable iid up).bind fun _ =>
      if s.holder = none then some ((s.setOp k (.entered (some iid))).lock k) else none
  | .entered iid, .alloc inv =>
    (allocPort env s.rows inv iid).map fun p => s.setOp k (.asked iid p)
  | .asked none p, .insert row =>
    if (s.row? row.id).isNone ∧ (ascii "inst_").isPrefixOf row.id ∧ row.port = some p ∧
        row.state = .starting ∧ row.hostId = host then
      some ({ s with rows := s.rows ++ [row] }.setOp k (.launch row.id p .net))
    else none
  | .asked (some iid) p, .place => some ((s.setStarting iid p).setOp k (.launch iid p .net))
  | .launch iid p pc, a => launchStep env s k iid p pc a
  | .idle, .stop iid => stopBegin s k iid false
  | .idle, .restart iid => stopBegin s k iid true
  | .stop iid before pc restart, a => stopStep s k iid before restart pc a
  | .idle, .remove iid => (s.row? iid).map fun _ => s.setOp k (.remove iid .gateway)
  | .remove iid pc, a => removeStep s k iid pc a
  | .idle, .patch iid name =>
    (s.row? iid).map fun _ =>
      { s with rows := updateRow iid (fun r => { r with name := name.getD r.name }) s.rows }
  | .idle, .snapshot iid =>
    ((s.row? iid).filter (·.state.active)).map fun r => s.setOp k (.supervise r .look)
  | .supervise seen pc, a => superviseStep s k seen pc a
  | _, _ => none

/-- One step. -/
def step (env : Env) (host : Text) (s : System) : Act → Option System
  | .op k a => opStep env host s k a
  | .adopt containers i =>
    (containers[i]?).map fun c => { s with rows := adoptContainer env host containers s.rows c }
  | .exit iid gateway =>
    let c : Call := if gateway then .stopGateway else .stopEngine
    some { s with node := Function.update s.node iid (c.effect (s.node iid)) }

/-! ## What a step does -/

/-- A stop of an instance begins : asked for, as part of a restart, or by the idle TTL. -/
inductive Stops : Op → OpAct → Text → Prop where
  | stop (iid : Text) : Stops .idle (.stop iid) iid
  | restart (iid : Text) : Stops .idle (.restart iid) iid
  | ttl (seen : Row) : Stops (.supervise seen .idleTtl) .ttl seen.id

/-- The moves of an operation, and what happens around them. -/
inductive Moves (env : Env) (host : Text) (s : System) : Act → System → Prop where
  | drop {k : ℕ} (hop : s.ops k ≠ .idle) : Moves env host s (.op k .drop) (s.leave k)
  | create {k : ℕ} (hop : s.ops k = .idle) (hfree : s.holder = none) :
    Moves env host s (.op k .create) ((s.setOp k (.entered none)).lock k)
  | start {k : ℕ} {iid : Text} {up : Bool} {r : Row} (hop : s.ops k = .idle)
      (hr : s.startable iid up = some r) :
    Moves env host s (.op k (.start iid up)) (s.setOp k (.waiting iid))
  | again {k : ℕ} {iid : Text} {up : Bool} {r : Row} (hop : s.ops k = .restart iid)
      (hr : s.startable iid up = some r) :
    Moves env host s (.op k (.again up)) (s.setOp k (.waiting iid))
  | enter {k : ℕ} {iid : Text} {up : Bool} {r : Row} (hop : s.ops k = .waiting iid)
      (hr : s.startable iid up = some r) (hfree : s.holder = none) :
    Moves env host s (.op k (.enter up)) ((s.setOp k (.entered (some iid))).lock k)
  | alloc {k : ℕ} {iid : Option Text} {inv : Inventory} {p : Int} (hop : s.ops k = .entered iid)
      (hp : allocPort env s.rows inv iid = some p) :
    Moves env host s (.op k (.alloc inv)) (s.setOp k (.asked iid p))
  | insert {k : ℕ} {p : Int} {row : Row} (hop : s.ops k = .asked none p)
      (hnew : s.row? row.id = none) (hid : ascii "inst_" <+: row.id) (hport : row.port = some p)
      (hstate : row.state = .starting) (hhost : row.hostId = host) :
    Moves env host s (.op k (.insert row))
      ({ s with rows := s.rows ++ [row] }.setOp k (.launch row.id p .net))
  | place {k : ℕ} {iid : Text} {p : Int} (hop : s.ops k = .asked (some iid) p) :
    Moves env host s (.op k .place) ((s.setStarting iid p).setOp k (.launch iid p .net))
  | launchPorts {k : ℕ} {iid : Text} {p : Int} {inv : Inventory}
      (hop : s.ops k = .launch iid p .choose) :
    Moves env host s (.op k (.alloc inv))
      (s.setOp k (.launch iid p (.gateway (gatewayOrder env s.rows inv iid p))))
  | launchCall {k : ℕ} {iid : Text} {p : Int} {pc : LaunchAt} {c : Call} {a : Answer}
      {s' : System} (hop : s.ops k = .launch iid p pc) (hc : pc.call = some c)
      (hs : s.call iid c a = some s') :
    Moves env host s (.op k (.call a)) (s'.setOp k (.launch iid p (pc.next a)))
  | launchFail {k : ℕ} {iid : Text} {p : Int} (hop : s.ops k = .launch iid p .fail) :
    Moves env host s (.op k .write) ((s.setState iid .failed).leave k)
  | launchFinish {k : ℕ} {iid : Text} {p q : Int} (hop : s.ops k = .launch iid p (.finish q)) :
    Moves env host s (.op k .write) ((s.setStarting iid q).leave k)
  | stopped {k : ℕ} {a : OpAct} {iid : Text} {restart : Bool} {r : Row}
      (hop : Stops (s.ops k) a iid) (hr : s.row? iid = some r) (hstate : r.state = .stopped) :
    Moves env host s (.op k a) (s.setOp k (if restart then .restart iid else .idle))
  | stopBegin {k : ℕ} {a : OpAct} {iid : Text} {restart : Bool} {r : Row}
      (hop : Stops (s.ops k) a iid) (hr : s.row? iid = some r) (hstate : r.state ≠ .stopped) :
    Moves env host s (.op k a)
      ((s.setState iid .stopping).setOp k (.stop iid r.state .gateway restart))
  | stopCall {k : ℕ} {iid : Text} {before : State} {pc : StopAt} {restart : Bool} {c : Call}
      {a : Answer} {s' : System} (hop : s.ops k = .stop iid before pc restart)
      (hc : pc.call = some c) (hs : s.call iid c a = some s') :
    Moves env host s (.op k (.call a)) (s'.setOp k (.stop iid before (pc.next before a) restart))
  | stopRestore {k : ℕ} {iid : Text} {before state : State} {restart : Bool}
      (hop : s.ops k = .stop iid before (.restore state) restart) :
    Moves env host s (.op k .write) ((s.setState iid state).setOp k .idle)
  | stopFinish {k : ℕ} {iid : Text} {before : State} {restart : Bool}
      (hop : s.ops k = .stop iid before .finish restart) :
    Moves env host s (.op k .write)
      ((s.setState iid .stopped).setOp k (if restart then .restart iid else .idle))
  | remove {k : ℕ} {iid : Text} {r : Row} (hop : s.ops k = .idle) (hr : s.row? iid = some r) :
    Moves env host s (.op k (.remove iid)) (s.setOp k (.remove iid .gateway))
  | removeCall {k : ℕ} {iid : Text} {pc pc' : RemoveAt} {c : Call} {a : Answer} {s' : System}
      (hop : s.ops k = .remove iid pc) (hc : pc.call = some (c, pc'))
      (hs : s.call iid c a = some s') :
    Moves env host s (.op k (.call a)) (s'.setOp k (if a.fine then .remove iid pc' else .idle))
  | removeFinish {k : ℕ} {iid : Text} (hop : s.ops k = .remove iid .finish) :
    Moves env host s (.op k .write) ({ s with rows := s.rows.filter (·.id ≠ iid) }.setOp k .idle)
  | patch {k : ℕ} {iid : Text} {name : Option Text} (hop : s.ops k = .idle) :
    Moves env host s (.op k (.patch iid name))
      { s with rows := updateRow iid (fun r => { r with name := name.getD r.name }) s.rows }
  | snapshot {k : ℕ} {iid : Text} {r : Row} (hop : s.ops k = .idle) (hr : s.row? iid = some r)
      (hactive : r.state.active = true) :
    Moves env host s (.op k (.snapshot iid)) (s.setOp k (.supervise r .look))
  | look {k : ℕ} {seen : Row} {view : View} (hop : s.ops k = .supervise seen .look) :
    Moves env host s (.op k (.look view)) (s.setOp k (seen.lookAt view))
  | exited {k : ℕ} {seen : Row} (hop : s.ops k = .supervise seen .exited) :
    Moves env host s (.op k .write)
      ((s.setState seen.id .failed).setOp k (.supervise seen .stopGateway))
  | stopGateway {k : ℕ} {seen : Row} {a : Answer} {s' : System}
      (hop : s.ops k = .supervise seen .stopGateway) (hs : s.call seen.id .stopGateway a = some s') :
    Moves env host s (.op k (.call a)) (s'.setOp k .idle)
  | failed {k : ℕ} {seen : Row} (hop : s.ops k = .supervise seen .fail) :
    Moves env host s (.op k .write) ((s.setState seen.id .failed).setOp k .idle)
  | progress {k : ℕ} {seen : Row} {phase healthy timedOut changed : Bool}
      (hop : s.ops k = .supervise seen .progress) :
    Moves env host s (.op k (.progress phase healthy timedOut changed))
      (s.setOp k (seen.progressTo phase healthy timedOut changed))
  | watched {k : ℕ} {seen : Row} {state : State} (hop : s.ops k = .supervise seen (.write state)) :
    Moves env host s (.op k .write) ((s.setState seen.id state).setOp k .idle)
  | adopt {containers : List Container} {i : ℕ} {c : Container} (hc : containers[i]? = some c) :
    Moves env host s (.adopt containers i)
      { s with rows := adoptContainer env host containers s.rows c }
  | exit {iid : Text} {gateway : Bool} {c : Call} (hc : c = .stopGateway ∨ c = .stopEngine) :
    Moves env host s (.exit iid gateway)
      { s with node := Function.update s.node iid (c.effect (s.node iid)) }

section

variable {env : Env} {host : Text} {s t : System} {k : ℕ} {a : OpAct}

theorem launchStep_moves {iid : Text} {p : Int} {pc : LaunchAt}
    (hop : s.ops k = .launch iid p pc) (h : launchStep env s k iid p pc a = some t) :
    Moves env host s (.op k a) t := by
  unfold launchStep at h
  split at h
  · obtain rfl := Option.some.inj h
    exact .launchPorts hop
  · obtain rfl := Option.some.inj h
    exact .launchFail hop
  · obtain rfl := Option.some.inj h
    exact .launchFinish hop
  · obtain ⟨c, hc, h⟩ := Option.bind_eq_some_iff.1 h
    obtain ⟨s', hs, rfl⟩ := Option.map_eq_some_iff.1 h
    exact .launchCall hop hc hs
  · cases h

theorem stopBegin_moves {iid : Text} {restart : Bool} (hop : Stops (s.ops k) a iid) (h : stopBegin s k iid restart = some t) :
    Moves env host s (.op k a) t := by
  obtain ⟨r, hr, h⟩ := Option.map_eq_some_iff.1 h
  split_ifs at h with hstate hrestart
  · obtain rfl := h
    exact @Moves.stopped _ _ _ _ _ _ true _ hop hr hstate
  · obtain rfl := h
    exact @Moves.stopped _ _ _ _ _ _ false _ hop hr hstate
  · obtain rfl := h
    exact .stopBegin hop hr hstate

theorem stopStep_moves {iid : Text} {before : State} {restart : Bool} {pc : StopAt}
    (hop : s.ops k = .stop iid before pc restart)
    (h : stopStep s k iid before restart pc a = some t) : Moves env host s (.op k a) t := by
  unfold stopStep at h
  split at h
  · obtain rfl := Option.some.inj h
    exact .stopRestore hop
  · obtain rfl := Option.some.inj h
    exact .stopFinish hop
  · obtain ⟨c, hc, h⟩ := Option.bind_eq_some_iff.1 h
    obtain ⟨s', hs, rfl⟩ := Option.map_eq_some_iff.1 h
    exact .stopCall hop hc hs
  · cases h

theorem removeStep_moves {iid : Text} {pc : RemoveAt} (hop : s.ops k = .remove iid pc)
    (h : removeStep s k iid pc a = some t) : Moves env host s (.op k a) t := by
  unfold removeStep at h
  split at h
  · obtain rfl := Option.some.inj h
    exact .removeFinish hop
  · obtain ⟨c, hc, h⟩ := Option.bind_eq_some_iff.1 h
    obtain ⟨s', hs, rfl⟩ := Option.map_eq_some_iff.1 h
    exact .removeCall hop hc hs
  · cases h

theorem superviseStep_moves {seen : Row} {pc : Watch} (hop : s.ops k = .supervise seen pc)
    (h : superviseStep s k seen pc a = some t) : Moves env host s (.op k a) t := by
  unfold superviseStep at h
  split at h
  · obtain rfl := Option.some.inj h
    exact .look hop
  · obtain rfl := Option.some.inj h
    exact .exited hop
  · obtain ⟨s', hs, rfl⟩ := Option.map_eq_some_iff.1 h
    exact .stopGateway hop hs
  · obtain rfl := Option.some.inj h
    exact .failed hop
  · obtain rfl := Option.some.inj h
    exact .progress hop
  · obtain rfl := Option.some.inj h
    exact .watched hop
  · exact stopBegin_moves (hop ▸ .ttl seen) h
  · cases h

theorem opStep_moves (h : opStep env host s k a = some t) : Moves env host s (.op k a) t := by
  unfold opStep at h
  split at h
  · cases h
  · next hop =>
    obtain rfl := Option.some.inj h
    exact .drop hop
  · next hop =>
    split_ifs at h with hfree
    obtain rfl := Option.some.inj h
    exact .create hop hfree
  · next hop =>
    obtain ⟨r, hr, rfl⟩ := Option.map_eq_some_iff.1 h
    exact .start hop hr
  · next hop =>
    obtain ⟨r, hr, rfl⟩ := Option.map_eq_some_iff.1 h
    exact .again hop hr
  · next hop =>
    obtain ⟨r, hr, h⟩ := Option.bind_eq_some_iff.1 h
    split_ifs at h with hfree
    obtain rfl := Option.some.inj h
    exact .enter hop hr hfree
  · next hop =>
    obtain ⟨p, hp, rfl⟩ := Option.map_eq_some_iff.1 h
    exact .alloc hop hp
  · next hop =>
    split_ifs at h with hok
    obtain rfl := Option.some.inj h
    obtain ⟨hnew, hid, hport, hstate, hhost⟩ := hok
    exact .insert hop (by simpa using hnew) (List.isPrefixOf_iff_prefix.1 hid) hport hstate hhost
  · next hop =>
    obtain rfl := Option.some.inj h
    exact .place hop
  · next hop _ => exact launchStep_moves hop h
  · next hop => exact stopBegin_moves (hop ▸ .stop _) h
  · next hop => exact stopBegin_moves (hop ▸ .restart _) h
  · next hop _ => exact stopStep_moves hop h
  · next hop =>
    obtain ⟨r, hr, rfl⟩ := Option.map_eq_some_iff.1 h
    exact .remove hop hr
  · next hop _ => exact removeStep_moves hop h
  · next hop =>
    obtain ⟨r, -, rfl⟩ := Option.map_eq_some_iff.1 h
    exact .patch hop
  · next hop =>
    obtain ⟨r, hr, rfl⟩ := Option.map_eq_some_iff.1 h
    obtain ⟨hr, hactive⟩ := Option.filter_eq_some_iff.1 hr
    exact .snapshot hop hr hactive
  · next hop _ => exact superviseStep_moves hop h
  · cases h

theorem step_moves {a : Act} (h : step env host s a = some t) : Moves env host s a t := by
  cases a with
  | op k a => exact opStep_moves h
  | adopt containers i =>
    obtain ⟨c, hc, rfl⟩ := Option.map_eq_some_iff.1 h
    exact .adopt hc
  | exit iid gateway =>
    obtain rfl := Option.some.inj h
    cases gateway with
    | true => exact .exit (.inl rfl)
    | false => exact .exit (.inr rfl)

end

end Lifecycle

end EngineConsole
