import EngineConsole.Proto
import EngineConsole.Transition
import EngineConsole.Keyed

/-!
# Requests on one link session

The hub (`Link` of fleet.rs) gives every request it begins an id and keeps it in `pending`
until the node's res with that id arrives or the session ends. The node (`on_req` and
`handle` of server.rs) screens a request, enters it in its table, runs it on a thread of its
own, queues the res and only then takes the entry out again.

`Session` is both tables with the frames in flight. Every lock section, every frame queued
and every frame taken off the wire is one step of `step`, so its runs are the interleavings
of the hub's callers, its reader and its teardown with the node's reader and its handler
threads. Frames that touch neither table (events, DATA, credit, pings, pushes) are left
out, and so is the hub's watchdog, which forgets a request that the node leaves unanswered
long after its cancel.

What ec-proto and the handlers decide about one message is a parameter (`Rules`) : nothing
below depends on it.
-/

set_option linter.unusedSectionVars false

namespace EngineConsole

namespace Link

variable {Args Result : Type*}

/-! ## Messages -/

/-- The answer of a `res` message : `msg::res_ok`, `msg::res_err`. -/
inductive Res (Result : Type*) where
  | ok (result : Result)
  | err (code message : String)

/-- `msg::res_err` -/
def resErr (code message : String) : Res Result :=
  .err code (takeChars 1000 message)

/-- `Policy`, as far as a request is screened by it. -/
structure Policy where
  mode : String
  error : Option String
  path : Option String

/-- `Policy::manage` -/
def Policy.manage (p : Policy) : Bool :=
  p.mode == "manage"

/-- `Policy::where_` -/
def Policy.file (p : Policy) : String :=
  p.path.getD "/etc/ecnode/policy.json"

/-- What ec-proto's tables and cleaning say about a message, and the texts of `repr_str`,
`scrub` and `text`. -/
structure Rules (Args Result : Type*) where
  /-- `specs::is_op` -/
  isOp : String → Bool
  /-- `specs::is_monitor_op` -/
  isMonitorOp : String → Bool
  /-- The error of `encode_json` on the `req` message, if it has one. -/
  encodeReq : ℕ → String → Args → Option String
  /-- `encode_json` takes the `res` message. -/
  encodesRes : ℕ → Res Result → Bool
  /-- `clean_args` -/
  cleanArgs : String → Args → Option Args
  /-- `overlong_args` -/
  overlongArgs : String → Args → Option String
  /-- `missing_args` -/
  missingArgs : String → Args → List String
  /-- `clean_obj` of a result, by the spec of its op. -/
  cleanResult : String → Result → Result
  /-- `repr_str` -/
  reprStr : String → String
  /-- `scrub` -/
  scrub : String → String
  /-- `text` : what the hub shows of a text, cut. -/
  text : String → ℕ → String

/-- `cap_str` -/
def capStr (n : ℕ) (s : String) : String :=
  String.ofList ((s.toList.take n).filter (· ≠ '\x00'))

/-- `sanitize_res` : the answer as the hub keeps it. -/
def Rules.sanitizeRes (R : Rules Args Result) (op : String) : Res Result → Res Result
  | .ok result => .ok (R.cleanResult op result)
  | .err code message =>
    let pick := fun (n : ℕ) (s dflt : String) => if (capStr n s).isEmpty then dflt else capStr n s
    .err (pick 64 code "internal") (pick 1000 message "the node refused without saying why")

/-- A frame for the node. -/
inductive ToNode (Args : Type*) where
  | req (rid : ℕ) (op : String) (args : Args)
  | cancel (rid : ℕ)

/-- A `res` frame for the hub. -/
structure ResFrame (Result : Type*) where
  rid : ℕ
  res : Res Result

/-! ## The node -/

/-- What a handler returns, or a panic. -/
inductive Outcome (Result : Type*) where
  | ok (result : Result)
  | cancelled
  | op (code message : String)
  | internal (kind : String)
  | panic

/-- Where the thread of a request is : entered but not started, running, about to queue its
res, about to leave the table. -/
inductive ThreadPc (Result : Type*) where
  | starting
  | running
  | answer (res : Res Result)
  | sent

/-- `Request`, an entry of the node's table. -/
structure Entry (Args Result : Type*) where
  rid : ℕ
  op : String
  args : Args
  cancelled : Bool
  pc : ThreadPc Result

/-- `Request::cancel` -/
def Entry.cancel (e : Entry Args Result) : Entry Args Result :=
  { e with cancelled := true }

/-- The entry with its thread at `pc`. -/
def Entry.goto (pc : ThreadPc Result) (e : Entry Args Result) : Entry Args Result :=
  { e with pc := pc }

/-- Where the node's reader is : between frames, about to start the thread of a request, or
about to queue a refusal. -/
inductive NodeReader (Result : Type*) where
  | idle
  | start (rid : ℕ)
  | refuse (rid : ℕ) (res : Res Result)

/-- `Shared` of server.rs : the table of requests and the state of its reader and writer. -/
structure Node (Args Result : Type*) where
  requests : List (Entry Args Result)
  reader : NodeReader Result
  maxInflight : ℕ
  done : Bool
  closed : Bool

/-- What `on_req` makes of a request before it looks at the table. -/
inductive Screen (Args : Type*) where
  | ignore
  | refuse (code why : String)
  | pass (args : Args)

/-- The part of `on_req` before the table : the op, the policy, the arguments. -/
def Rules.screen (R : Rules Args Result) (policy : Policy) (op : String) (args : Args) :
    Screen Args :=
  if !R.isOp op then
    let shown := R.reprStr (takeChars 64 op)
    .refuse "unknown_op" s!"this node does not know the op {shown} (ecnode protocol 1)"
  else if !R.isMonitorOp op && !policy.manage then
    let why := match policy.error with
      | some e => s!" ({e})"
      | none => ""
    let file := policy.file
    .refuse "monitor_only" (s!"this node's policy is in monitor mode{why}, so {op}, which " ++
      "would change the machine, is refused; an administrator can set \"mode\": \"manage\" " ++
      s!"in {file}")
  else
    match R.cleanArgs op args with
    | none => .ignore
    | some cleaned =>
      match R.overlongArgs op args with
      | some why => .refuse "bad_args" why
      | none =>
        if (R.missingArgs op cleaned).isEmpty then .pass cleaned
        else
          let missing := String.intercalate ", " (R.missingArgs op cleaned)
          .refuse "bad_args" s!"{op} needs {missing}"

/-- The refusal of a full table. -/
def busyRes (maxInflight : ℕ) : Res Result :=
  resErr "busy" s!"this node is already running {maxInflight} requests; try again shortly"

/-- The answer to a request whose thread could not be started. -/
def noThreadRes : Res Result :=
  resErr "internal" "the node could not start a thread for this request"

/-- The res `handle` makes of a handler's outcome, with the request's cancel flag. -/
def Rules.handleRes (R : Rules Args Result) (op : String) (cancelled : Bool) :
    Outcome Result → Res Result
  | .ok result => .ok (R.cleanResult op result)
  | .cancelled => resErr "cancelled" "cancelled"
  | .op code message =>
    if cancelled && code != "cancelled" then resErr "cancelled" "cancelled"
    else resErr code (R.scrub message)
  | .internal kind =>
    if cancelled then resErr "cancelled" "cancelled"
    else resErr "internal"
      s!"the node hit an unexpected error in {op} ({kind}); see the node's stderr"
  | .panic =>
    if cancelled then resErr "cancelled" "cancelled"
    else resErr "internal"
      s!"the node hit an unexpected error in {op} (panic); see the node's stderr"

/-- What `Shared::send` queues for a res : itself, a notice where it does not encode, or
nothing. -/
def Rules.sendable (R : Rules Args Result) (rid : ℕ) (res : Res Result) : Option (Res Result) :=
  let notice : Res Result := resErr "internal" "the result was too large or malformed to send"
  if R.encodesRes rid res then some res
  else if R.encodesRes rid notice then some notice
  else none

/-! ## The hub -/

/-- `Req` : what a caller of the hub holds of its request. `args` and `finishes`, the number
of calls of `finish`, are kept for the statements only. -/
structure Req (Args Result : Type*) where
  rid : ℕ
  op : String
  args : Args
  streaming : Bool
  cancelSent : Bool
  finished : Bool
  res : Option (Res Result)
  unavailable : Option String
  finishes : ℕ

/-- `Req::new` -/
def Req.new (rid : ℕ) (op : String) (args : Args) (streaming : Bool) : Req Args Result where
  rid := rid
  op := op
  args := args
  streaming := streaming
  cancelSent := false
  finished := false
  res := none
  unavailable := none
  finishes := 0

/-- `Req::finish` : only the first call counts. -/
def Req.finish (q : Req Args Result) (res : Option (Res Result)) (unavailable : Option String) :
    Req Args Result :=
  let q := { q with finishes := q.finishes + 1 }
  if q.finished then q
  else { q with res := res, unavailable := unavailable, finished := true }

/-- A pending request : its id, and its place among the requests the hub has admitted. -/
structure Pending where
  rid : ℕ
  req : ℕ

/-- Where the hub's reader is in the `res` branch of `on_json` : between frames, with the
request found, or with it out of `pending`. -/
inductive HubReader (Result : Type*) where
  | idle
  | found (p : Pending) (res : Res Result)
  | removed (p : Pending) (res : Res Result)

/-- The teardown of `Link::session` : frames are read; the writer is gone; `fail_all` has the
requests it drained; the link is down. -/
inductive Ending where
  | running
  | closing (reason : String)
  | failing (reason : String) (left : List Pending)
  | down

/-- `Link` with its state. `writer` is whether there is a writer that is not closed; `reqs`
are the admitted requests in order and `cancels` the calls of `cancel_request` that have not
sent their frame yet. `begun`, the number of ids taken, is kept for the statements only. -/
structure Hub (Args Result : Type*) where
  label : String
  up : Bool
  error : Option String
  writer : Bool
  nextId : ℕ
  begun : ℕ
  pending : List Pending
  reqs : List (Req Args Result)
  cancels : List ℕ
  reader : HubReader Result
  ending : Ending

/-- `rid % MAX_ID + 1` -/
def succId (rid : ℕ) : ℕ :=
  rid % maxId + 1

/-- The id loop of `begin`, from `rid` on : the id it takes, and the next one. The first of
`pending.length + 1` ids in a row that is not pending ends it. -/
def takeId (pending : List Pending) : ℕ → ℕ → Option (ℕ × ℕ)
  | 0, _ => none
  | fuel + 1, rid =>
    if (Keyed.find Pending.rid rid pending).isSome then takeId pending fuel (succId rid)
    else some (rid, succId rid)

/-- An error of `begin` : its code and text. -/
structure NodeError where
  code : String
  message : String

/-- `begin` : the hub after it, and the frame it queued or its error. -/
def begin (R : Rules Args Result) (h : Hub Args Result) (op : String) (args : Args)
    (streaming : Bool) : Option (Hub Args Result × Except NodeError (ToNode Args)) :=
  let label := h.label
  if !R.isOp op then
    let shown := R.reprStr op
    some (h, .error ⟨"unknown_op", s!"{shown} is not an operation of the node protocol"⟩)
  else if !(h.writer && h.up) then
    let why := R.text (h.error.getD (if h.up then "up" else "down")) 200
    some (h, .error ⟨"unavailable", s!"{label} is not connected ({why})"⟩)
  else if maxInflight ≤ h.pending.length then
    some (h, .error ⟨"busy", s!"{label} already has {maxInflight} requests in flight"⟩)
  else
    match takeId h.pending (h.pending.length + 1) h.nextId with
    | none => none
    | some (rid, nextId) =>
      match R.encodeReq rid op args with
      | some e =>
        let why := R.text e 200
        some ({ h with nextId := nextId, begun := h.begun + 1 },
          .error ⟨"bad_args", s!"cannot send {op}: {why}"⟩)
      | none =>
        some ({ h with
          nextId := nextId
          begun := h.begun + 1
          pending := h.pending ++ [⟨rid, h.reqs.length⟩]
          reqs := h.reqs ++ [Req.new rid op args streaming] }, .ok (.req rid op args))

/-! ## One session -/

/-- Who answered a request on the node : its handler, the screening, the full table, or the
failed start of its thread. -/
inductive Origin where
  | handler
  | screen
  | busy
  | noThread
deriving DecidableEq

/-- An answer the node made : the request as it had it, and the res. -/
structure Answer (Args Result : Type*) where
  rid : ℕ
  op : String
  args : Args
  origin : Origin
  res : Res Result

/-- Both ends of a session and the frames in flight. `answered`, the answers the node made so
far, and `failed`, the ids `fail_all` drained, are kept for the statements only. -/
structure Session (Args Result : Type*) where
  hub : Hub Args Result
  node : Node Args Result
  toNode : List (ToNode Args)
  toHub : List (ResFrame Result)
  answered : List (Answer Args Result)
  failed : List ℕ

/-- A session that has just come up; ids go on from the session before. -/
def Session.start (label : String) (nextId limit : ℕ) : Session Args Result where
  hub :=
    { label := label, up := true, error := none, writer := true, nextId := nextId,
      begun := 0, pending := [], reqs := [], cancels := [], reader := .idle, ending := .running }
  node :=
    { requests := [], reader := .idle, maxInflight := limit, done := false, closed := false }
  toNode := []
  toHub := []
  answered := []
  failed := []

/-- The steps of the hub's callers, reader, writer and teardown, and those of the node's
reader, threads and end. -/
inductive Act (Result : Type*) (Args : Type*) where
  | begin (op : String) (args : Args) (streaming : Bool)
  | cancelMark (req : ℕ)
  | cancelSend (rid : ℕ)
  | resFind
  | resRemove
  | resFinish
  | writerFail (keep : ℕ)
  | dropWriter (reason : String)
  | failAll
  | failOne
  | nodeRead (policy : Policy)
  | startThread (started : Bool)
  | sendRefusal
  | finish (rid : ℕ) (outcome : Outcome Result)
  | sendRes (rid : ℕ)
  | removeReq (rid : ℕ)
  | nodeDone
  | nodeClose (keep : ℕ)

/-- `Shared::send` of a res : queued unless the writer is closed. -/
def Session.send (R : Rules Args Result) (s : Session Args Result) (rid : ℕ)
    (res : Res Result) : List (ResFrame Result) :=
  match s.node.closed, R.sendable rid res with
  | false, some res => s.toHub ++ [⟨rid, res⟩]
  | _, _ => s.toHub

/-- `on_req` : screen the request, then look at the table and enter it. -/
def Session.onReq (R : Rules Args Result) (s : Session Args Result) (policy : Policy) (rid : ℕ)
    (op : String) (args : Args) : Session Args Result :=
  match R.screen policy op args with
  | .ignore => s
  | .refuse code why =>
    { s with
      node := { s.node with reader := .refuse rid (resErr code why) }
      answered := s.answered ++ [⟨rid, op, args, .screen, resErr code why⟩] }
  | .pass cleaned =>
    if (Keyed.find Entry.rid rid s.node.requests).isSome then s
    else if s.node.maxInflight ≤ s.node.requests.length then
      { s with
        node := { s.node with reader := .refuse rid (busyRes s.node.maxInflight) }
        answered := s.answered ++ [⟨rid, op, args, .busy, busyRes s.node.maxInflight⟩] }
    else
      { s with
        node := { s.node with
          requests := s.node.requests ++ [⟨rid, op, cleaned, false, .starting⟩]
          reader := .start rid } }

/-- `Link::request` -/
def Hub.request (h : Hub Args Result) (rid : ℕ) : Option Pending :=
  if validId rid then Keyed.find Pending.rid rid h.pending else none

/-- `Req::finish` on an admitted request. -/
def Hub.finishReq (h : Hub Args Result) (p : Pending) (res : Option (Res Result))
    (unavailable : Option String) : Hub Args Result :=
  { h with reqs := h.reqs.modify p.req fun q => q.finish res unavailable }

/-- Change the table entry of `rid`. -/
def Node.updateReq (n : Node Args Result) (rid : ℕ) (f : Entry Args Result → Entry Args Result) :
    Node Args Result :=
  { n with requests := Keyed.update Entry.rid rid f n.requests }

/-- `lock(&sh.requests).remove(&rid)` -/
def Node.removeReq (n : Node Args Result) (rid : ℕ) : Node Args Result :=
  { n with requests := Keyed.remove Entry.rid rid n.requests }

/-- One step. -/
def step (R : Rules Args Result) (s : Session Args Result) :
    Act Result Args → Option (Session Args Result)
  | .begin op args streaming =>
    match begin R s.hub op args streaming with
    | some (hub, .ok frame) => some { s with hub := hub, toNode := s.toNode ++ [frame] }
    | some (hub, .error _) => some { s with hub := hub }
    | none => none
  | .cancelMark k =>
    match s.hub.reqs[k]? with
    | some q =>
      if q.finished || q.cancelSent then some s
      else
        some { s with hub := { s.hub with
          reqs := s.hub.reqs.modify k fun q => { q with cancelSent := true }
          cancels := s.hub.cancels ++ [q.rid] } }
    | none => none
  | .cancelSend rid =>
    if rid ∈ s.hub.cancels then
      some { s with
        hub := { s.hub with cancels := s.hub.cancels.erase rid }
        toNode := if s.hub.writer then s.toNode ++ [.cancel rid] else s.toNode }
    else none
  | .resFind =>
    match s.hub.ending, s.hub.reader, s.toHub with
    | .running, .idle, f :: rest =>
      match s.hub.request f.rid with
      | some p => some { s with hub := { s.hub with reader := .found p f.res }, toHub := rest }
      | none => some { s with toHub := rest }
    | _, _, _ => none
  | .resRemove =>
    match s.hub.reader with
    | .found p res =>
      some { s with hub := { s.hub with
        pending := Keyed.remove Pending.rid p.rid s.hub.pending
        reader := .removed p res } }
    | _ => none
  | .resFinish =>
    match s.hub.reader with
    | .removed p res =>
      match s.hub.reqs[p.req]? with
      | some q =>
        let hub := s.hub.finishReq p (some (R.sanitizeRes q.op res)) none
        some { s with hub := { hub with reader := .idle } }
      | none => none
    | _ => none
  | .writerFail keep =>
    some { s with hub := { s.hub with writer := false }, toNode := s.toNode.take keep }
  | .dropWriter reason =>
    match s.hub.ending, s.hub.reader with
    | .running, .idle =>
      some { s with hub := { s.hub with writer := false, ending := .closing reason } }
    | _, _ => none
  | .failAll =>
    match s.hub.ending with
    | .closing reason =>
      some { s with
        hub := { s.hub with pending := [], ending := .failing reason s.hub.pending }
        failed := s.hub.pending.map Pending.rid }
    | _ => none
  | .failOne =>
    match s.hub.ending with
    | .failing reason (p :: left) =>
      let hub := s.hub.finishReq p none (some reason)
      some { s with hub := { hub with ending := .failing reason left } }
    | .failing reason [] =>
      some { s with hub := { s.hub with up := false, error := some reason, ending := .down } }
    | _ => none
  | .nodeRead policy =>
    match s.node.done, s.node.reader, s.toNode with
    | false, .idle, .req rid op args :: rest =>
      if validId rid then some (Session.onReq R { s with toNode := rest } policy rid op args)
      else some { s with toNode := rest }
    | false, .idle, .cancel rid :: rest =>
      some { s with
        node := s.node.updateReq rid Entry.cancel
        toNode := rest }
    | _, _, _ => none
  | .startThread started =>
    match s.node.reader with
    | .start rid =>
      if started then
        some { s with node :=
          { s.node.updateReq rid (Entry.goto .running) with reader := .idle } }
      else
        match Keyed.find Entry.rid rid s.node.requests with
        | some e =>
          some { s with
            node := { s.node.removeReq rid with reader := .refuse rid noThreadRes }
            answered := s.answered ++ [⟨rid, e.op, e.args, .noThread, noThreadRes⟩] }
        | none => none
    | _ => none
  | .sendRefusal =>
    match s.node.reader with
    | .refuse rid res =>
      some { s with node := { s.node with reader := .idle }, toHub := s.send R rid res }
    | _ => none
  | .finish rid outcome =>
    match Keyed.find Entry.rid rid s.node.requests with
    | some e =>
      match e.pc with
      | .running =>
        let res := R.handleRes e.op (e.cancelled || s.node.done) outcome
        some { s with
          node := s.node.updateReq rid (Entry.goto (.answer res))
          answered := s.answered ++ [⟨rid, e.op, e.args, .handler, res⟩] }
      | _ => none
    | none => none
  | .sendRes rid =>
    match Keyed.find Entry.rid rid s.node.requests with
    | some e =>
      match e.pc with
      | .answer res =>
        some { s with
          node := s.node.updateReq rid (Entry.goto .sent)
          toHub := s.send R rid res }
      | _ => none
    | none => none
  | .removeReq rid =>
    match Keyed.find Entry.rid rid s.node.requests with
    | some e =>
      match e.pc with
      | .sent => some { s with node := s.node.removeReq rid }
      | _ => none
    | none => none
  | .nodeDone => some { s with node := { s.node with done := true } }
  | .nodeClose keep =>
    some { s with node := { s.node with closed := true }, toHub := s.toHub.take keep }

end Link

end EngineConsole
