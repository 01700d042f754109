import EngineConsole.Proto
import EngineConsole.Transition
import EngineConsole.CreditFlow

/-!
# Credit flow control on one request's stream

A stream carries DATA both ways between the hub (`Req`, `LinkStream` of fleet.rs) and the
node (`Request` of server.rs). Each end may have `window` bytes outstanding; the node
grants upload credit back in steps of at least `grantStep` bytes as its handler reads, the
hub download credit in batches of `creditBatch` bytes as its consumer does.

`Session` is both halves of one stream with the frames in flight. Every lock section is one
action of its own : a writer takes credit in one step and queues the frame in another, a
reader moves its window in one and sends the credit message in another. Each direction is
an account of its window (`Up`, `Down` : a `CreditFlow`), which every action keeps
(`Session.Inv.step`), and `flow_control` reads the safety of the stream off the accounts.
Events carry no credit and are left out.
-/

set_option linter.unusedSectionVars false

namespace EngineConsole

namespace Flow

/-- `GRANT_STEP` : the node grants upload credit in steps of at least this many bytes. -/
def grantStep : ℤ := 1024 * 1024

/-- `CREDIT_BATCH` : the hub gives download credit back in batches of this many bytes. -/
def creditBatch : ℤ := window / 4

/-- `MAX_CREDIT` : a node cannot make the hub's send window absurd. -/
def maxCredit : ℤ := 2 ^ 30

/-! ## The node's half -/

/-- `Request` with its `RState` : the node's cancel state, both credit windows and the
upload buffer. -/
structure Request where
  upload : Bool
  cancelled : Bool
  sendCredit : ℤ
  chunks : List (List UInt8)
  received : ℤ
  granted : ℤ
  consumed : ℤ
  ended : Bool
  violation : Option String

/-- `Request::new` -/
def Request.new (upload : Bool) : Request where
  upload := upload
  cancelled := false
  sendCredit := window
  chunks := []
  received := 0
  granted := window
  consumed := 0
  ended := false
  violation := none

/-- `add_credit` -/
def Request.addCredit (r : Request) (n : ℤ) : Request :=
  { r with sendCredit := min (r.sendCredit + n) (2 ^ 40) }

/-- The credit branch of `on_message` : only an amount in range is added. -/
def Request.onCredit (r : Request) (bytes : ℤ) : Request :=
  if 0 < bytes ∧ bytes ≤ 2 ^ 40 then r.addCredit bytes else r

/-- `add_data` -/
def Request.addData (r : Request) (data : List UInt8) : Request :=
  if !r.upload || r.ended then r
  else
    let r := { r with received := r.received + data.length }
    if r.granted < r.received then
      { r with
        violation := some "the hub sent more upload data than the credit this node granted"
        chunks := [] }
    else if r.violation.isNone && !data.isEmpty then { r with chunks := r.chunks ++ [data] }
    else r

/-- What the locked part of a round of `send_data` or `write` found. -/
inductive SendRound (R : Type) where
  | wait
  | stop
  | take (n : ℕ) (r : R)

/-- The locked part of a round of `send_data` with `view` left to send : it waits for
credit unless cancelled, and takes credit for one frame. -/
def Request.sendRound (r : Request) (view : List UInt8) : SendRound Request :=
  if r.sendCredit ≤ 0 && !r.cancelled then .wait
  else if r.cancelled then .stop
  else
    let n := min (min view.length r.sendCredit.toNat) maxData
    .take n { r with sendCredit := r.sendCredit - n }

/-- What the locked part of `read_upload` found. -/
inductive ReadRound where
  | wait
  | cancelled
  | badArgs (why : String)
  | ended
  | chunk (data : List UInt8) (grant : ℤ) (r : Request)

/-- The locked part of `read_upload` : the next chunk, and the credit to grant for it once
at least `grantStep` bytes are due. -/
def Request.readUpload (r : Request) : ReadRound :=
  if r.chunks.isEmpty && !r.ended && !r.cancelled && r.violation.isNone then .wait
  else if r.cancelled then .cancelled
  else
    match r.violation, r.chunks with
    | some why, _ => .badArgs why
    | none, [] => .ended
    | none, chunk :: rest =>
      let consumed := r.consumed + chunk.length
      let grant := consumed + window - r.granted
      if grantStep ≤ grant && !r.ended then
        .chunk chunk grant
          { r with chunks := rest, consumed := consumed, granted := r.granted + grant }
      else .chunk chunk 0 { r with chunks := rest, consumed := consumed }

/-! ## The hub's half -/

/-- `Req` with its `ReqState` : the hub's queue for the consumer (`none` is the end marker)
and both credit windows. -/
structure Req where
  rid : ℕ
  streaming : Bool
  finished : Bool
  queue : List (Option (List UInt8))
  cancelSent : Bool
  ended : Bool
  sendCredit : ℤ
  recvWindow : ℤ
  unacked : ℤ

/-- `Req::new` -/
def Req.new (rid : ℕ) (streaming : Bool) : Req where
  rid := rid
  streaming := streaming
  finished := false
  queue := []
  cancelSent := false
  ended := false
  sendCredit := window
  recvWindow := window
  unacked := 0

/-- `Link::on_data` : the new state, or the reason to drop the link. -/
def Req.onData (r : Req) (data : List UInt8) : Except String Req :=
  if !r.streaming then .ok r
  else if r.recvWindow < data.length then
    .error s!"the node sent more data on stream {r.rid} than the credit this hub granted it"
  else
    let r := { r with recvWindow := r.recvWindow - data.length }
    if !data.isEmpty && !r.cancelSent then .ok { r with queue := r.queue ++ [some data] }
    else .ok r

/-- `clean` of an integer field : within `± 2^53`, or null. -/
def cleanInt (n : ℤ) : Option ℤ :=
  if n.natAbs ≤ 2 ^ 53 then some n else none

/-- The credit branch of `Link::on_json`. -/
def Req.onCredit (r : Req) (bytes : ℤ) : Req :=
  match cleanInt bytes with
  | some n => if 0 < n then { r with sendCredit := min (r.sendCredit + n) maxCredit } else r
  | none => r

/-- What the locked part of `LinkStream::next` found. -/
inductive NextRound where
  | wait
  | ended
  | item (data : List UInt8) (r : Req)

/-- The locked part of `LinkStream::next` : the end marker stays in the queue. -/
def Req.next (r : Req) : NextRound :=
  match r.queue with
  | [] => .wait
  | none :: _ => .ended
  | some data :: rest => .item data { r with queue := rest }

/-- The locked part of `LinkStream::consumed`, with the credit to send. -/
def Req.consumed (r : Req) (n : ℕ) : Req × Option ℤ :=
  let unacked := r.unacked + n
  if creditBatch ≤ unacked && !r.finished then
    ({ r with unacked := 0, recvWindow := r.recvWindow + unacked }, some unacked)
  else ({ r with unacked := unacked }, none)

/-- The locked part of a round of `LinkStream::write` with `data` left to send. -/
def Req.writeRound (r : Req) (data : List UInt8) : SendRound Req :=
  if r.finished then .stop
  else if r.sendCredit ≤ 0 then .wait
  else
    let n := min (min data.length maxData) r.sendCredit.toNat
    .take n { r with sendCredit := r.sendCredit - n }

/-! ## One stream -/

/-- A frame of the stream in flight. -/
inductive Wire where
  | data (payload : List UInt8)
  | credit (bytes : ℤ)

/-- Where a `write` or `send_data` call is : not called, at the top of a round with `rest`
to send, or about to queue `frame`. -/
inductive SendPc where
  | idle
  | round (rest : List UInt8)
  | queue (frame rest : List UInt8)

/-- Where `LinkStream::next` is : not in a call, about to call `consumed`, or about to send
the credit message. -/
inductive NextPc where
  | idle
  | popped (n : ℕ)
  | grant (bytes : ℤ)

/-- Both halves of one stream, the calls in progress and the frames in flight each way, in
order. `upIn` and `downIn` are the bytes given to `write` and `send_data` so far, `upOut` and
`downOut` those the handler and the consumer read. -/
structure Session where
  hub : Req
  node : Request
  write : SendPc
  next : NextPc
  send : SendPc
  read : Option ℤ
  toNode : List Wire
  toHub : List Wire
  dropped : Option String
  upIn : List UInt8
  upOut : List UInt8
  downIn : List UInt8
  downOut : List UInt8

/-- The stream `open_stream` opens for a request, whose op decides `upload` on the node. -/
def Session.start (rid : ℕ) (upload : Bool) : Session where
  hub := Req.new rid true
  node := Request.new upload
  write := .idle
  next := .idle
  send := .idle
  read := none
  toNode := []
  toHub := []
  dropped := none
  upIn := []
  upOut := []
  downIn := []
  downOut := []

/-- The steps of the two ends and the delivery of the next frame each way. -/
inductive Act where
  | write (data : List UInt8)
  | writeRound
  | writeQueue
  | next
  | nextConsumed
  | nextCredit
  | atHub
  | sendData (data : List UInt8)
  | sendRound
  | sendQueue
  | readUpload
  | readCredit
  | atNode

/-- One step. The hub writes only on a request that carries an upload (`fs.write`, and
`http.request` with a body), for which the node computes `upload`, and not after `end()`. -/
def step (s : Session) : Act → Option Session
  | .write data =>
    match s.write with
    | .idle =>
      if s.node.upload && !s.hub.ended then
        some { s with write := .round data, upIn := s.upIn ++ data }
      else none
    | _ => none
  | .writeRound =>
    match s.write with
    | .round [] => some { s with write := .idle }
    | .round rest =>
      match s.hub.writeRound rest with
      | .take n hub => some { s with hub := hub, write := .queue (rest.take n) (rest.drop n) }
      | _ => none
    | _ => none
  | .writeQueue =>
    match s.write with
    | .queue frame rest =>
      some { s with write := .round rest, toNode := s.toNode ++ [.data frame] }
    | _ => none
  | .next =>
    match s.next, s.hub.next with
    | .idle, .item data hub =>
      some { s with hub := hub, next := .popped data.length, downOut := s.downOut ++ data }
    | _, _ => none
  | .nextConsumed =>
    match s.next with
    | .popped n =>
      match s.hub.consumed n with
      | (hub, some g) => some { s with hub := hub, next := .grant g }
      | (hub, none) => some { s with hub := hub, next := .idle }
    | _ => none
  | .nextCredit =>
    match s.next with
    | .grant g => some { s with next := .idle, toNode := s.toNode ++ [.credit g] }
    | _ => none
  | .atHub =>
    match s.dropped, s.toHub with
    | none, .data payload :: rest =>
      match s.hub.onData payload with
      | .ok hub => some { s with hub := hub, toHub := rest }
      | .error why => some { s with dropped := some why, toHub := rest }
    | none, .credit n :: rest => some { s with hub := s.hub.onCredit n, toHub := rest }
    | _, _ => none
  | .sendData data =>
    match s.send with
    | .idle => some { s with send := .round data, downIn := s.downIn ++ data }
    | _ => none
  | .sendRound =>
    match s.send with
    | .round [] => some { s with send := .idle }
    | .round rest =>
      match s.node.sendRound rest with
      | .take n node => some { s with node := node, send := .queue (rest.take n) (rest.drop n) }
      | _ => none
    | _ => none
  | .sendQueue =>
    match s.send with
    | .queue frame rest =>
      some { s with send := .round rest, toHub := s.toHub ++ [.data frame] }
    | _ => none
  | .readUpload =>
    match s.read, s.node.readUpload with
    | none, .chunk data grant node =>
      some { s with
        node := node
        read := if 0 < grant then some grant else none
        upOut := s.upOut ++ data }
    | _, _ => none
  | .readCredit =>
    match s.read with
    | some g => some { s with read := none, toHub := s.toHub ++ [.credit g] }
    | none => none
  | .atNode =>
    match s.toNode with
    | .data payload :: rest => some { s with node := s.node.addData payload, toNode := rest }
    | .credit n :: rest => some { s with node := s.node.onCredit n, toNode := rest }
    | [] => none

/-! ## The accounts of the two windows -/

/-- The DATA bytes in flight, in order. -/
def payloads : List Wire → List UInt8
  | [] => []
  | .data payload :: fs => payload ++ payloads fs
  | .credit _ :: fs => payloads fs

/-- The credit in flight. -/
def credits : List Wire → ℤ
  | [] => 0
  | .data _ :: fs => credits fs
  | .credit n :: fs => n + credits fs

@[simp] theorem payloads_append (fs gs : List Wire) :
    payloads (fs ++ gs) = payloads fs ++ payloads gs := by
  induction fs with
  | nil => rfl
  | cons f fs ih => cases f <;> simp [payloads, ih]

@[simp] theorem credits_append (fs gs : List Wire) :
    credits (fs ++ gs) = credits fs + credits gs := by
  induction fs with
  | nil => simp [credits]
  | cons f fs ih => cases f <;> simp [credits, ih, add_assoc]

theorem credits_nonneg {fs : List Wire} (h : ∀ n, Wire.credit n ∈ fs → 0 < n) :
    0 ≤ credits fs := by
  induction fs with
  | nil => exact le_refl 0
  | cons f fs ih =>
    have hfs := ih fun n hn => h n (List.mem_cons_of_mem _ hn)
    cases f with
    | data payload => exact hfs
    | credit n =>
      have := h n List.mem_cons_self
      simp only [credits]
      omega

/-- The bytes whose credit is taken and whose frame is not queued yet. -/
def SendPc.frame : SendPc → List UInt8
  | .queue frame _ => frame
  | _ => []

/-- The bytes of the call not sent yet. -/
def SendPc.unsent : SendPc → List UInt8
  | .idle => []
  | .round rest => rest
  | .queue frame rest => frame ++ rest

/-- Bytes out of the queue that `consumed` has not counted yet. -/
def NextPc.uncounted : NextPc → ℕ
  | .popped n => n
  | _ => 0

/-- Credit granted whose message is not sent yet. -/
def NextPc.granted : NextPc → ℤ
  | .grant bytes => bytes
  | _ => 0

/-- The bytes waiting in the hub's queue, in order. -/
def queued (q : List (Option (List UInt8))) : List UInt8 :=
  (q.filterMap id).flatten

@[simp] theorem queued_nil : queued [] = [] :=
  rfl

@[simp] theorem queued_cons (data : List UInt8) (q : List (Option (List UInt8))) :
    queued (some data :: q) = data ++ queued q := by
  simp [queued]

@[simp] theorem queued_append (q q' : List (Option (List UInt8))) :
    queued (q ++ q') = queued q ++ queued q' := by
  simp [queued]

/-- The account of the upload window (hub to node). -/
def Session.up (s : Session) : Account where
  credit := s.hub.sendCredit
  inflight := s.write.frame.length + (payloads s.toNode).length
  held := s.node.chunks.flatten.length
  unacked := s.node.consumed + window - s.node.granted
  granting := s.read.getD 0 + credits s.toHub

/-- The account of the download window (node to hub). -/
def Session.down (s : Session) : Account where
  credit := s.node.sendCredit
  inflight := s.send.frame.length + (payloads s.toHub).length
  held := (queued s.hub.queue).length + s.next.uncounted
  unacked := s.hub.unacked
  granting := s.next.granted + credits s.toNode

/-- Every credit on its way is positive. -/
structure Session.Positive (s : Session) : Prop where
  toNode : ∀ n, Wire.credit n ∈ s.toNode → 0 < n
  toHub : ∀ n, Wire.credit n ∈ s.toHub → 0 < n
  read : ∀ n, s.read = some n → 0 < n
  next : ∀ n, s.next = .grant n → 0 < n

/-- No step of a running stream ends, cancels or drops it. -/
structure Session.Running (s : Session) : Prop where
  streaming : s.hub.streaming = true
  finished : s.hub.finished = false
  cancelSent : s.hub.cancelSent = false
  noMarker : none ∉ s.hub.queue
  dropped : s.dropped = none
  cancelled : s.node.cancelled = false
  ended : s.node.ended = false
  violation : s.node.violation = none
  /-- Only a request that carries an upload is written to. -/
  noUpload : s.node.upload = false → s.write = .idle ∧ payloads s.toNode = []

/-- The invariant of a stream : both windows are accounted for, and what went in on one
side is what came out on the other, is buffered there, in flight or not yet sent. -/
structure Session.Inv (s : Session) : Prop where
  up : ∃ f : CreditFlow window grantStep, s.up = f.toAccount
  down : ∃ f : CreditFlow window creditBatch, s.down = f.toAccount
  received : s.node.received = s.node.consumed + s.node.chunks.flatten.length
  recvWindow : s.hub.recvWindow =
    window - (queued s.hub.queue).length - s.next.uncounted - s.hub.unacked
  upBytes : s.upOut ++ s.node.chunks.flatten ++ payloads s.toNode ++ s.write.unsent = s.upIn
  downBytes : s.downOut ++ queued s.hub.queue ++ payloads s.toHub ++ s.send.unsent = s.downIn
  positive : s.Positive
  running : s.Running

theorem Session.Inv.start (rid : ℕ) (upload : Bool) : (Session.start rid upload).Inv where
  up := ⟨.fresh (by decide) (by decide), rfl⟩
  down := ⟨.fresh (by decide) (by decide), rfl⟩
  received := rfl
  recvWindow := rfl
  upBytes := rfl
  downBytes := rfl
  positive := ⟨by simp [Session.start], by simp [Session.start], by simp [Session.start],
    by simp [Session.start]⟩
  running := ⟨rfl, rfl, rfl, by simp [Session.start, Req.new], rfl, rfl, rfl, rfl,
    fun _ => ⟨rfl, rfl⟩⟩

/-! ## What each lock section does -/

theorem Request.onCredit_eq {r : Request} {n : ℤ} (hn : 0 < n) (hc : 0 ≤ r.sendCredit)
    (hw : r.sendCredit + n ≤ window) :
    r.onCredit n = { r with sendCredit := r.sendCredit + n } := by
  have hwin : window ≤ 2 ^ 40 := by decide
  rw [Request.onCredit, if_pos ⟨hn, by omega⟩, Request.addCredit, min_eq_left (by omega)]

theorem Req.onCredit_eq {r : Req} {n : ℤ} (hn : 0 < n) (hc : 0 ≤ r.sendCredit)
    (hw : r.sendCredit + n ≤ window) :
    r.onCredit n = { r with sendCredit := r.sendCredit + n } := by
  have hwin : window ≤ maxCredit := by decide
  have hmax : maxCredit ≤ 2 ^ 53 := by decide
  have hclean : cleanInt n = some n := if_pos (by omega)
  simp only [Req.onCredit, hclean, if_pos hn, min_eq_left (hw.trans hwin)]

/-- DATA within the granted window is buffered whole. -/
theorem Request.addData_eq {r : Request} {data : List UInt8} (hu : r.upload = true)
    (he : r.ended = false) (hv : r.violation = none)
    (hg : r.received + data.length ≤ r.granted) :
    r.addData data = { r with
      received := r.received + data.length
      chunks := if data.isEmpty then r.chunks else r.chunks ++ [data] } := by
  cases data with
  | nil =>
    have hng : r.received ≤ r.granted := by simpa using hg
    simp [Request.addData, hu, he, hng.not_gt]
  | cons b data =>
    simp [Request.addData, hu, he, hv]
    simpa using hg

/-- DATA within the receive window is queued whole. -/
theorem Req.onData_eq {r : Req} {data : List UInt8} (hs : r.streaming = true)
    (hc : r.cancelSent = false) (hw : data.length ≤ r.recvWindow) :
    r.onData data = .ok { r with
      recvWindow := r.recvWindow - data.length
      queue := if data.isEmpty then r.queue else r.queue ++ [some data] } := by
  cases data with
  | nil =>
    simp [Req.onData, hs, hc]
    simpa using hw
  | cons b data =>
    simp [Req.onData, hs, hc]
    simpa using hw

theorem flatten_ite_append (chunks : List (List UInt8)) (data : List UInt8) :
    (if data.isEmpty then chunks else chunks ++ [data]).flatten = chunks.flatten ++ data := by
  cases data <;> simp

theorem queued_ite_append (q : List (Option (List UInt8))) (data : List UInt8) :
    queued (if data.isEmpty then q else q ++ [some data]) = queued q ++ data := by
  cases data <;> simp

/-- A round of `write` that goes on takes credit it has, for a part of the data. -/
theorem Req.writeRound_take {r r' : Req} {rest : List UInt8} {n : ℕ}
    (h : r.writeRound rest = .take n r') :
    n ≤ rest.length ∧ (n : ℤ) ≤ r.sendCredit ∧
      r' = { r with sendCredit := r.sendCredit - n } := by
  unfold Req.writeRound at h
  split_ifs at h with hf hc
  obtain ⟨rfl, rfl⟩ := SendRound.take.inj h
  refine ⟨by omega, ?_, rfl⟩
  have : ((r.sendCredit.toNat : ℕ) : ℤ) = r.sendCredit := Int.toNat_of_nonneg (by omega)
  omega

/-- A round of `send_data` that goes on takes credit it has, for a part of the data. -/
theorem Request.sendRound_take {r r' : Request} {view : List UInt8} {n : ℕ}
    (h : r.sendRound view = .take n r') :
    n ≤ view.length ∧ (n : ℤ) ≤ r.sendCredit ∧
      r' = { r with sendCredit := r.sendCredit - n } := by
  unfold Request.sendRound at h
  split_ifs at h with hw hc
  obtain ⟨rfl, rfl⟩ := SendRound.take.inj h
  have hpos : 0 < r.sendCredit := by simpa [hc] using hw
  refine ⟨by omega, ?_, rfl⟩
  have : ((r.sendCredit.toNat : ℕ) : ℤ) = r.sendCredit := Int.toNat_of_nonneg (by omega)
  omega

/-- `read_upload` hands out the first chunk, and grants what is due once it is enough. -/
theorem Request.readUpload_chunk {r r' : Request} {data : List UInt8} {grant : ℤ}
    (he : r.ended = false) (h : r.readUpload = .chunk data grant r') :
    ∃ rest, r.chunks = data :: rest ∧
      ((grantStep ≤ r.consumed + data.length + window - r.granted ∧
          grant = r.consumed + data.length + window - r.granted ∧
          r' = { r with
            chunks := rest, consumed := r.consumed + data.length
            granted := r.granted + grant }) ∨
        (r.consumed + data.length + window - r.granted < grantStep ∧ grant = 0 ∧
          r' = { r with chunks := rest, consumed := r.consumed + data.length })) := by
  unfold Request.readUpload at h
  split_ifs at h with hw hc
  cases hch : r.chunks with
  | nil => cases hv : r.violation <;> simp [hch, hv] at h
  | cons chunk rest =>
    cases hv : r.violation with
    | some why => simp [hv] at h
    | none =>
      simp only [hch, hv, he, Bool.not_false, Bool.and_true, decide_eq_true_eq] at h
      split_ifs at h with hg
      · obtain ⟨rfl, rfl, rfl⟩ := ReadRound.chunk.inj h
        exact ⟨rest, rfl, Or.inl ⟨hg, rfl, by simp [he]⟩⟩
      · obtain ⟨rfl, rfl, rfl⟩ := ReadRound.chunk.inj h
        exact ⟨rest, rfl, Or.inr ⟨by omega, rfl, by simp [he]⟩⟩

theorem Req.next_item {r r' : Req} {data : List UInt8} (h : r.next = .item data r') :
    ∃ rest, r.queue = some data :: rest ∧ r' = { r with queue := rest } := by
  unfold Req.next at h
  split at h
  · cases h
  · cases h
  · rename_i d rest hq
    obtain ⟨rfl, rfl⟩ := NextRound.item.inj h
    exact ⟨rest, hq, rfl⟩

/-! ## Every step keeps the accounts -/

namespace Session

variable {s t : Session}

namespace Inv

theorem write {data : List UInt8} (h : s.Inv) (hs : step s (.write data) = some t) : t.Inv := by
  cases hw : s.write with
  | idle =>
    simp only [step, hw] at hs
    split_ifs at hs with hu
    obtain rfl := Option.some.inj hs
    obtain ⟨f, hf⟩ := h.up
    exact { h with
      up := ⟨f, by rw [← hf]; simp [Session.up, SendPc.frame, hw]⟩
      upBytes := by
        have := h.upBytes
        simp only [hw, SendPc.unsent, List.append_nil] at this
        simp [SendPc.unsent, ← this]
      positive := ⟨h.positive.1, h.positive.2, h.positive.3, h.positive.4⟩
      running := { h.running with
        noUpload := fun hnu => by simp [show s.node.upload = false from hnu] at hu } }
  | round rest => simp [step, hw] at hs
  | queue frame rest => simp [step, hw] at hs

theorem writeRound (h : s.Inv) (hs : step s .writeRound = some t) : t.Inv := by
  cases hw : s.write with
  | idle => simp [step, hw] at hs
  | queue frame rest => simp [step, hw] at hs
  | round rest =>
    obtain ⟨f, hf⟩ := h.up
    have hup : s.node.upload = true := by
      by_contra hu
      simp [(h.running.noUpload (by simpa using hu)).1] at hw
    cases rest with
    | nil =>
      simp only [step, hw, Option.some.injEq] at hs
      subst hs
      exact { h with
        up := ⟨f, by rw [← hf]; simp [Session.up, SendPc.frame, hw]⟩
        upBytes := by simpa [hw, SendPc.unsent] using h.upBytes
        positive := ⟨h.positive.1, h.positive.2, h.positive.3, h.positive.4⟩
        running := { h.running with noUpload := fun hnu => by simp [hup] at hnu } }
    | cons b rest =>
      simp only [step, hw] at hs
      split at hs
      · rename_i n hub hround
        obtain rfl := Option.some.inj hs
        obtain ⟨hn, hc, rfl⟩ := Req.writeRound_take hround
        have hcredit : s.hub.sendCredit = f.credit := congrArg Account.credit hf
        exact { h with
          up := ⟨f.send n (by omega) (hcredit ▸ hc), by
            have htake : ((b :: rest).take n).length = n := List.length_take_of_le hn
            simp only [Session.up, CreditFlow.send, ← hf, SendPc.frame, hw, htake,
              List.length_nil, Account.mk.injEq, true_and, and_true]
            omega⟩
          upBytes := by simpa [hw, SendPc.unsent] using h.upBytes
          positive := ⟨h.positive.1, h.positive.2, h.positive.3, h.positive.4⟩
          running := { h.running with noUpload := fun hnu => by simp [hup] at hnu } }
      · cases hs

theorem writeQueue (h : s.Inv) (hs : step s .writeQueue = some t) : t.Inv := by
  cases hw : s.write with
  | idle => simp [step, hw] at hs
  | round rest => simp [step, hw] at hs
  | queue frame rest =>
    simp only [step, hw, Option.some.injEq] at hs
    subst hs
    obtain ⟨f, hf⟩ := h.up
    obtain ⟨g, hg⟩ := h.down
    exact { h with
      up := ⟨f, by
        simp only [← hf, Session.up, SendPc.frame, hw, payloads_append, payloads,
          List.append_nil, List.length_append, List.length_nil, Account.mk.injEq, true_and,
          and_true]
        omega⟩
      down := ⟨g, by rw [← hg]; simp [Session.down, credits]⟩
      upBytes := by simpa [hw, SendPc.unsent, payloads] using h.upBytes
      positive := ⟨fun n hn => h.positive.toNode n (by simpa using hn), h.positive.2,
        h.positive.3, h.positive.4⟩
      running := { h.running with
        noUpload := fun hnu => by simp [(h.running.noUpload hnu).1] at hw } }

theorem next (h : s.Inv) (hs : step s .next = some t) : t.Inv := by
  simp only [step] at hs
  split at hs
  · rename_i data hub hpc hnext
    obtain rfl := Option.some.inj hs
    obtain ⟨rest, hq, rfl⟩ := Req.next_item hnext
    obtain ⟨g, hg⟩ := h.down
    exact { h with
      down := ⟨g, by
        simp only [← hg, Session.down, hq, hpc, queued_cons, NextPc.uncounted, NextPc.granted,
          List.length_append, Account.mk.injEq, true_and, and_true]
        omega⟩
      recvWindow := by
        have hrecv := h.recvWindow
        simp only [hq, hpc, queued_cons, NextPc.uncounted, List.length_append] at hrecv ⊢
        omega
      downBytes := by simpa [hq] using h.downBytes
      positive := ⟨h.positive.1, h.positive.2, h.positive.3, by simp⟩
      running := { h.running with
        noMarker := fun hmem => h.running.noMarker (by simp [hq, hmem]) } }
  · cases hs

theorem nextConsumed (h : s.Inv) (hs : step s .nextConsumed = some t) : t.Inv := by
  cases hpc : s.next with
  | idle => simp [step, hpc] at hs
  | grant n => simp [step, hpc] at hs
  | popped n =>
    obtain ⟨g, hg⟩ := h.down
    have hheld : ((queued s.hub.queue).length : ℤ) + n = g.held := by
      simpa [Session.down, hpc, NextPc.uncounted] using congrArg Account.held hg
    have hunacked : s.hub.unacked = g.unacked := congrArg Account.unacked hg
    have hrecv := h.recvWindow
    simp only [hpc, NextPc.uncounted] at hrecv
    simp only [step, hpc, Req.consumed] at hs
    split_ifs at hs with hb
    · -- the batch is full : everything consumed is granted
      obtain rfl := Option.some.inj hs
      have hbatch : creditBatch ≤ s.hub.unacked + n := by
        simpa [h.running.finished] using hb
      have hpos : 0 < creditBatch := by decide
      exact { h with
        down := ⟨g.grant n (by omega) (by omega), by
          simp only [← hg, CreditFlow.grant, Session.down, hpc, NextPc.uncounted,
            NextPc.granted, Account.mk.injEq, true_and]
          omega⟩
        recvWindow := by simp only [NextPc.uncounted]; omega
        positive := ⟨h.positive.1, h.positive.2, h.positive.3, by
          intro m hm
          obtain rfl := NextPc.grant.inj hm
          omega⟩
        running := { h.running with } }
    · obtain rfl := Option.some.inj hs
      have hbatch : s.hub.unacked + n < creditBatch := by
        simpa [h.running.finished] using hb
      exact { h with
        down := ⟨g.consume n (by omega) (by omega) (by omega), by
          simp only [← hg, CreditFlow.consume, Session.down, hpc, NextPc.uncounted,
            NextPc.granted, Account.mk.injEq, true_and, and_true]
          omega⟩
        recvWindow := by simp only [NextPc.uncounted]; omega
        positive := ⟨h.positive.1, h.positive.2, h.positive.3, by simp⟩
        running := { h.running with } }

theorem nextCredit (h : s.Inv) (hs : step s .nextCredit = some t) : t.Inv := by
  cases hpc : s.next with
  | idle => simp [step, hpc] at hs
  | popped n => simp [step, hpc] at hs
  | grant n =>
    simp only [step, hpc, Option.some.injEq] at hs
    subst hs
    obtain ⟨f, hf⟩ := h.up
    obtain ⟨g, hg⟩ := h.down
    exact { h with
      up := ⟨f, by rw [← hf]; simp [Session.up, payloads]⟩
      down := ⟨g, by
        simp only [← hg, Session.down, hpc, NextPc.uncounted, NextPc.granted, credits_append,
          credits, Account.mk.injEq, true_and, add_zero]
        omega⟩
      recvWindow := by simpa [hpc, NextPc.uncounted] using h.recvWindow
      upBytes := by simpa [payloads] using h.upBytes
      positive := ⟨fun m hm => by
          rcases List.mem_append.1 hm with hm | hm
          · exact h.positive.toNode m hm
          · obtain rfl := Wire.credit.inj (List.mem_singleton.1 hm)
            exact h.positive.next _ hpc, h.positive.2, h.positive.3, by simp⟩
      running := { h.running with
        noUpload := fun hnu => by simpa [payloads] using h.running.noUpload hnu } }

theorem sendData {data : List UInt8} (h : s.Inv) (hs : step s (.sendData data) = some t) :
    t.Inv := by
  cases hw : s.send with
  | idle =>
    simp only [step, hw, Option.some.injEq] at hs
    subst hs
    obtain ⟨g, hg⟩ := h.down
    exact { h with
      down := ⟨g, by rw [← hg]; simp [Session.down, SendPc.frame, hw]⟩
      downBytes := by
        have := h.downBytes
        simp only [hw, SendPc.unsent, List.append_nil] at this
        simp [SendPc.unsent, ← this]
      positive := ⟨h.positive.1, h.positive.2, h.positive.3, h.positive.4⟩
      running := { h.running with } }
  | round rest => simp [step, hw] at hs
  | queue frame rest => simp [step, hw] at hs

theorem sendRound (h : s.Inv) (hs : step s .sendRound = some t) : t.Inv := by
  cases hw : s.send with
  | idle => simp [step, hw] at hs
  | queue frame rest => simp [step, hw] at hs
  | round rest =>
    obtain ⟨g, hg⟩ := h.down
    cases rest with
    | nil =>
      simp only [step, hw, Option.some.injEq] at hs
      subst hs
      exact { h with
        down := ⟨g, by rw [← hg]; simp [Session.down, SendPc.frame, hw]⟩
        downBytes := by simpa [hw, SendPc.unsent] using h.downBytes
        positive := ⟨h.positive.1, h.positive.2, h.positive.3, h.positive.4⟩
        running := { h.running with } }
    | cons b rest =>
      simp only [step, hw] at hs
      split at hs
      · rename_i n node hround
        obtain rfl := Option.some.inj hs
        obtain ⟨hn, hc, rfl⟩ := Request.sendRound_take hround
        have hcredit : s.node.sendCredit = g.credit := congrArg Account.credit hg
        exact { h with
          down := ⟨g.send n (by omega) (hcredit ▸ hc), by
            have htake : ((b :: rest).take n).length = n := List.length_take_of_le hn
            simp only [Session.down, CreditFlow.send, ← hg, SendPc.frame, hw, htake,
              List.length_nil, Account.mk.injEq, true_and, and_true]
            omega⟩
          downBytes := by simpa [hw, SendPc.unsent] using h.downBytes
          positive := ⟨h.positive.1, h.positive.2, h.positive.3, h.positive.4⟩
          running := { h.running with } }
      · cases hs

theorem sendQueue (h : s.Inv) (hs : step s .sendQueue = some t) : t.Inv := by
  cases hw : s.send with
  | idle => simp [step, hw] at hs
  | round rest => simp [step, hw] at hs
  | queue frame rest =>
    simp only [step, hw, Option.some.injEq] at hs
    subst hs
    obtain ⟨f, hf⟩ := h.up
    obtain ⟨g, hg⟩ := h.down
    exact { h with
      up := ⟨f, by rw [← hf]; simp [Session.up, credits]⟩
      down := ⟨g, by
        simp only [← hg, Session.down, SendPc.frame, hw, payloads_append, payloads,
          List.append_nil, List.length_append, List.length_nil, Account.mk.injEq, true_and,
          and_true]
        omega⟩
      downBytes := by simpa [hw, SendPc.unsent, payloads] using h.downBytes
      positive := ⟨h.positive.1, fun n hn => h.positive.toHub n (by simpa using hn),
        h.positive.3, h.positive.4⟩
      running := { h.running with } }

theorem readUpload (h : s.Inv) (hs : step s .readUpload = some t) : t.Inv := by
  simp only [step] at hs
  split at hs
  · rename_i data grant node hread hround
    obtain rfl := Option.some.inj hs
    obtain ⟨rest, hch, hcase⟩ := Request.readUpload_chunk h.running.ended hround
    obtain ⟨f, hf⟩ := h.up
    have hheld : ((data.length : ℤ) + rest.flatten.length) = f.held := by
      simpa [Session.up, hch] using congrArg Account.held hf
    have hunacked : s.node.consumed + window - s.node.granted = f.unacked :=
      congrArg Account.unacked hf
    have hreceived := h.received
    simp only [hch, List.flatten_cons, List.length_append, Nat.cast_add] at hreceived
    rcases hcase with ⟨hdue, rfl, rfl⟩ | ⟨hdue, rfl, rfl⟩
    · have hstep : 0 < grantStep := by decide
      exact { h with
        up := ⟨f.grant data.length (by omega) (by omega), by
          simp only [← hf, CreditFlow.grant, Session.up, hread, hch, Option.getD_none,
            if_pos (hstep.trans_le hdue), Option.getD_some, List.flatten_cons,
            List.length_append, Account.mk.injEq, true_and]
          omega⟩
        received := by simp only; omega
        upBytes := by simpa [hch] using h.upBytes
        positive := ⟨h.positive.1, h.positive.2, by
          intro n hn
          rw [if_pos (hstep.trans_le hdue)] at hn
          obtain rfl := Option.some.inj hn
          omega, h.positive.4⟩
        running := { h.running with } }
    · exact { h with
        up := ⟨f.consume data.length (by omega) (by omega) (by omega), by
          simp only [← hf, CreditFlow.consume, Session.up, hread, hch, lt_irrefl, if_false,
            List.flatten_cons, List.length_append, Account.mk.injEq, true_and, and_true]
          omega⟩
        received := by simp only; omega
        upBytes := by simpa [hch] using h.upBytes
        positive := ⟨h.positive.1, h.positive.2, by simp, h.positive.4⟩
        running := { h.running with } }
  · cases hs

theorem readCredit (h : s.Inv) (hs : step s .readCredit = some t) : t.Inv := by
  cases hr : s.read with
  | none => simp [step, hr] at hs
  | some n =>
    simp only [step, hr, Option.some.injEq] at hs
    subst hs
    obtain ⟨f, hf⟩ := h.up
    obtain ⟨g, hg⟩ := h.down
    exact { h with
      up := ⟨f, by
        simp only [← hf, Session.up, hr, Option.getD_some, Option.getD_none, credits_append,
          credits, Account.mk.injEq, true_and, add_zero]
        omega⟩
      down := ⟨g, by rw [← hg]; simp [Session.down, payloads]⟩
      downBytes := by simpa [payloads] using h.downBytes
      positive := ⟨h.positive.1, fun m hm => by
          rcases List.mem_append.1 hm with hm | hm
          · exact h.positive.toHub m hm
          · obtain rfl := Wire.credit.inj (List.mem_singleton.1 hm)
            exact h.positive.read _ hr, by simp, h.positive.4⟩
      running := { h.running with } }

theorem read_nonneg (h : s.Inv) : 0 ≤ s.read.getD 0 := by
  cases hr : s.read with
  | none => exact le_refl 0
  | some n => exact (h.positive.read n hr).le

theorem next_granted_nonneg (h : s.Inv) : 0 ≤ s.next.granted := by
  cases hn : s.next with
  | idle => exact le_refl 0
  | popped n => exact le_refl 0
  | grant n => exact (h.positive.next n hn).le

/-- DATA in flight to the hub fits the window the hub has open. -/
theorem inflight_le_recvWindow (h : s.Inv) :
    s.send.frame.length + (payloads s.toHub).length ≤ s.hub.recvWindow := by
  obtain ⟨g, hg⟩ := h.down
  have hopen := g.inflight_le_open
  rw [← hg] at hopen
  simp only [Session.down] at hopen
  rw [h.recvWindow]
  omega

/-- DATA in flight to the node fits the credit the node granted. -/
theorem received_add_inflight_le (h : s.Inv) :
    s.node.received + (s.write.frame.length + (payloads s.toNode).length) ≤ s.node.granted := by
  obtain ⟨f, hf⟩ := h.up
  have hopen := f.inflight_le_open
  rw [← hf] at hopen
  simp only [Session.up] at hopen
  rw [h.received]
  omega

theorem atHub (h : s.Inv) (hs : step s .atHub = some t) : t.Inv := by
  obtain ⟨f, hf⟩ := h.up
  obtain ⟨g, hg⟩ := h.down
  cases hin : s.toHub with
  | nil => simp [step, hin, h.running.dropped] at hs
  | cons frame rest =>
    cases frame with
    | data payload =>
      have hwin := h.inflight_le_recvWindow
      simp only [hin, payloads, List.length_append, Nat.cast_add] at hwin
      have hinflight : (s.send.frame.length : ℤ) + (payload.length + (payloads rest).length) =
          g.inflight := by
        simpa [Session.down, hin, payloads] using congrArg Account.inflight hg
      have hfits : payload.length ≤ s.hub.recvWindow := by omega
      have hdata := Req.onData_eq h.running.streaming h.running.cancelSent hfits
      simp only [step, hin, h.running.dropped, hdata, Option.some.injEq] at hs
      subst hs
      exact { h with
        up := ⟨f, by rw [← hf]; simp [Session.up, hin, credits]⟩
        down := ⟨g.arrive payload.length (by omega) (by omega), by
          simp only [← hg, CreditFlow.arrive, Session.down, hin, payloads, queued_ite_append,
            List.length_append, Account.mk.injEq, true_and, and_true]
          omega⟩
        recvWindow := by
          have := h.recvWindow
          simp only [queued_ite_append, List.length_append]
          omega
        downBytes := by
          simp only [queued_ite_append]
          simpa [hin, payloads] using h.downBytes
        positive := ⟨h.positive.1, fun n hn => h.positive.toHub n (by simp [hin, hn]),
          h.positive.3, h.positive.4⟩
        running := { h.running with
          dropped := rfl
          noMarker := by
            have := h.running.noMarker
            split_ifs <;> simpa using this } }
    | credit n =>
      have hn : 0 < n := h.positive.toHub n (by simp [hin])
      have hrest : 0 ≤ credits rest :=
        credits_nonneg fun m hm => h.positive.toHub m (by simp [hin, hm])
      have hgranting : s.read.getD 0 + (n + credits rest) = f.granting := by
        simpa [Session.up, hin, credits] using congrArg Account.granting hf
      have hcredit : s.hub.sendCredit = f.credit := congrArg Account.credit hf
      have hread := h.read_nonneg
      have hle := f.credit_add_granting_le
      have hpos := f.credit_nonneg
      have hon := Req.onCredit_eq (r := s.hub) hn (by omega) (by omega)
      simp only [step, hin, h.running.dropped, hon, Option.some.injEq] at hs
      subst hs
      exact { h with
        up := ⟨f.receive n hn.le (by omega), by
          simp only [← hf, CreditFlow.receive, Session.up, hin, credits, Account.mk.injEq,
            true_and]
          omega⟩
        down := ⟨g, by rw [← hg]; simp [Session.down, hin, payloads]⟩
        downBytes := by simpa [hin, payloads] using h.downBytes
        positive := ⟨h.positive.1, fun m hm => h.positive.toHub m (by simp [hin, hm]),
          h.positive.3, h.positive.4⟩
        running := { h.running with dropped := rfl } }

theorem atNode (h : s.Inv) (hs : step s .atNode = some t) : t.Inv := by
  obtain ⟨f, hf⟩ := h.up
  obtain ⟨g, hg⟩ := h.down
  cases hin : s.toNode with
  | nil => simp [step, hin] at hs
  | cons frame rest =>
    cases frame with
    | data payload =>
      simp only [step, hin, Option.some.injEq] at hs
      have hwin := h.received_add_inflight_le
      simp only [hin, payloads, List.length_append, Nat.cast_add] at hwin
      have hinflight :
          (s.write.frame.length : ℤ) + (payload.length + (payloads rest).length) =
            f.inflight := by
        simpa [Session.up, hin, payloads] using congrArg Account.inflight hf
      cases hu : s.node.upload with
      | false =>
        -- nothing is ever written to such a request, so the frame is empty
        obtain ⟨hidle, hno⟩ := h.running.noUpload hu
        simp only [hin, payloads, List.append_eq_nil_iff] at hno
        obtain ⟨rfl, hno⟩ := hno
        have hsame : s.node.addData [] = s.node := by simp [Request.addData, hu]
        simp only [hsame] at hs
        subst hs
        exact { h with
          up := ⟨f, by rw [← hf]; simp [Session.up, hin, payloads]⟩
          down := ⟨g, by rw [← hg]; simp [Session.down, hin, credits]⟩
          upBytes := by simpa [hin, payloads] using h.upBytes
          positive := ⟨fun n hn => h.positive.toNode n (by simp [hin, hn]), h.positive.2,
            h.positive.3, h.positive.4⟩
          running := { h.running with noUpload := fun _ => ⟨hidle, hno⟩ } }
      | true =>
        have hfits : s.node.received + payload.length ≤ s.node.granted := by omega
        have hdata := Request.addData_eq hu h.running.ended h.running.violation hfits
        rw [hdata] at hs
        subst hs
        exact { h with
          up := ⟨f.arrive payload.length (by omega) (by omega), by
            simp only [← hf, CreditFlow.arrive, Session.up, hin, payloads,
              flatten_ite_append, List.length_append, Account.mk.injEq, true_and, and_true]
            omega⟩
          down := ⟨g, by rw [← hg]; simp [Session.down, hin, credits]⟩
          received := by
            have := h.received
            simp only [flatten_ite_append, List.length_append]
            omega
          upBytes := by
            simp only [flatten_ite_append]
            simpa [hin, payloads] using h.upBytes
          positive := ⟨fun n hn => h.positive.toNode n (by simp [hin, hn]), h.positive.2,
            h.positive.3, h.positive.4⟩
          running := { h.running with noUpload := fun hnu => by simp [hu] at hnu } }
    | credit n =>
      simp only [step, hin, Option.some.injEq] at hs
      subst hs
      have hn : 0 < n := h.positive.toNode n (by simp [hin])
      have hrest : 0 ≤ credits rest :=
        credits_nonneg fun m hm => h.positive.toNode m (by simp [hin, hm])
      have hgranting : s.next.granted + (n + credits rest) = g.granting := by
        simpa [Session.down, hin, credits] using congrArg Account.granting hg
      have hcredit : s.node.sendCredit = g.credit := congrArg Account.credit hg
      have hnext := h.next_granted_nonneg
      have hle := g.credit_add_granting_le
      have hpos := g.credit_nonneg
      have hon := Request.onCredit_eq (r := s.node) hn (by omega) (by omega)
      rw [hon]
      exact { h with
        up := ⟨f, by rw [← hf]; simp [Session.up, hin, payloads]⟩
        down := ⟨g.receive n hn.le (by omega), by
          simp only [← hg, CreditFlow.receive, Session.down, hin, credits, Account.mk.injEq,
            true_and]
          omega⟩
        upBytes := by simpa [hin, payloads] using h.upBytes
        positive := ⟨fun m hm => h.positive.toNode m (by simp [hin, hm]), h.positive.2,
          h.positive.3, h.positive.4⟩
        running := { h.running with
          noUpload := fun hnu => by simpa [hin, payloads] using h.running.noUpload hnu } }

/-- Every step keeps the invariant. -/
theorem step (h : s.Inv) (a : Act) (hs : Flow.step s a = some t) : t.Inv := by
  cases a with
  | write data => exact h.write hs
  | writeRound => exact h.writeRound hs
  | writeQueue => exact h.writeQueue hs
  | next => exact h.next hs
  | nextConsumed => exact h.nextConsumed hs
  | nextCredit => exact h.nextCredit hs
  | atHub => exact h.atHub hs
  | sendData data => exact h.sendData hs
  | sendRound => exact h.sendRound hs
  | sendQueue => exact h.sendQueue hs
  | readUpload => exact h.readUpload hs
  | readCredit => exact h.readCredit hs
  | atNode => exact h.atNode hs

end Inv

theorem Inv.of_reach {rid : ℕ} {upload : Bool} (h : Reach Flow.step (Session.start rid upload) s) :
    s.Inv :=
  h.invariant Session.Inv (fun _ a _ _ hi hs => hi.step a hs) (Inv.start rid upload)

/-! ## Safety and progress of the stream -/

/-- Nothing of the upload direction is under way : every byte sent is delivered and read,
and every grant has arrived. The writer may be waiting with more to send. -/
def UpQuiet (s : Session) : Prop :=
  s.write.frame = [] ∧ payloads s.toNode = [] ∧ s.node.chunks.flatten = [] ∧
    s.read = none ∧ credits s.toHub = 0

/-- Nothing of the download direction is under way. -/
def DownQuiet (s : Session) : Prop :=
  s.send.frame = [] ∧ payloads s.toHub = [] ∧ queued s.hub.queue = [] ∧
    s.next = .idle ∧ credits s.toNode = 0

end Session

open Session in
/-- Credit flow control is safe and cannot wedge. In every state two unmodified ends reach :
the node records no violation and the hub drops no link, a DATA frame about to be delivered
fits the window of its receiver; what either side buffers fits the window, and what came
out is what went in, in order, up to what is buffered, in flight and not yet sent; and a
direction in which nothing is under way has credit left. -/
theorem flow_control {rid : ℕ} {upload : Bool} {s : Session}
    (h : Reach step (Session.start rid upload) s) :
    (s.node.violation = none ∧ s.node.received ≤ s.node.granted ∧ s.dropped = none ∧
      (∀ payload rest, s.toHub = .data payload :: rest → payload.length ≤ s.hub.recvWindow)) ∧
    (s.node.chunks.flatten.length ≤ window ∧ (queued s.hub.queue).length ≤ window ∧
      s.upOut ++ s.node.chunks.flatten ++ payloads s.toNode ++ s.write.unsent = s.upIn ∧
      s.downOut ++ queued s.hub.queue ++ payloads s.toHub ++ s.send.unsent = s.downIn) ∧
    ((s.UpQuiet → 0 < s.hub.sendCredit) ∧ (s.DownQuiet → 0 < s.node.sendCredit)) := by
  have hi := Inv.of_reach h
  obtain ⟨f, hf⟩ := hi.up
  obtain ⟨g, hg⟩ := hi.down
  refine ⟨⟨hi.running.violation, ?_, hi.running.dropped, ?_⟩,
    ⟨?_, ?_, hi.upBytes, hi.downBytes⟩, ?_, ?_⟩
  · have := hi.received_add_inflight_le
    omega
  · intro payload rest hin
    have hwin := hi.inflight_le_recvWindow
    simp only [hin, payloads, List.length_append, Nat.cast_add] at hwin
    omega
  · have hheld := f.held_le
    rwa [← hf] at hheld
  · have hheld := g.held_le
    rw [← hg] at hheld
    simp only [Session.down] at hheld
    omega
  · rintro ⟨hframe, hflight, hchunks, hread, hcredits⟩
    have hpos := f.credit_pos_of_quiet (by decide)
    rw [← hf] at hpos
    exact hpos (by simp [Session.up, hframe, hflight]) (by simp [Session.up, hchunks])
      (by simp [Session.up, hread, hcredits])
  · rintro ⟨hframe, hflight, hqueue, hnext, hcredits⟩
    have hpos := g.credit_pos_of_quiet (by decide)
    rw [← hg] at hpos
    exact hpos (by simp [Session.down, hframe, hflight])
      (by simp [Session.down, hqueue, hnext, NextPc.uncounted])
      (by simp [Session.down, hnext, NextPc.granted, hcredits])

/-- Three uploaded bytes, written, delivered and read. -/
theorem flow_control_upload : ∃ s, runActs step (Session.start 7 true)
      [.write [1, 2, 3], .writeRound, .writeQueue, .atNode, .readUpload] = some s ∧
    s.upOut = [1, 2, 3] ∧ s.node.received ≤ s.node.granted ∧ 0 < s.hub.sendCredit := by
  obtain ⟨s, hrun, hout, hquiet⟩ : ∃ s, runActs step (Session.start 7 true)
      [.write [1, 2, 3], .writeRound, .writeQueue, .atNode, .readUpload] = some s ∧
      s.upOut = [1, 2, 3] ∧ s.UpQuiet := ⟨_, rfl, rfl, rfl, rfl, rfl, rfl, rfl⟩
  have hsafe := flow_control (Reach.of_runActs hrun)
  exact ⟨s, hrun, hout, hsafe.1.2.1, hsafe.2.2.1 hquiet⟩

end Flow

end EngineConsole
