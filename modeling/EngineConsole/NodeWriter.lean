import EngineConsole.Transition

/-!
# The node's writer

All frames of a node leave through one queue (`Writer` of `server.rs`) : any thread may `put` a
frame, one thread takes batches off the queue and writes them (`run`), and `close` waits for the
queue to empty.

The counters are the sizes of what is queued, and what is written is what was accepted, in order,
up to a write that failed (`Kept`). What was accepted before a `close` that returned in time is
written, unless the thread then had a batch in its hands (`writer_keeps`) : `close` looks at the
queue only.
-/

set_option linter.unusedSectionVars false

namespace EngineConsole

namespace Out

/-! ## The queue -/

/-- `DATA_QUEUE_MAX` -/
def dataQueueMax : ℕ := 4 * 1024 * 1024

/-- `JSON_QUEUE_MAX` -/
def jsonQueueMax : ℕ := 64 * 1024 * 1024

/-- `WRITE_BATCH` -/
def writeBatch : ℕ := 1024 * 1024

/-- `BULK_WINDOW_S`, in milliseconds. -/
def bulkWindow : ℕ := 10 * 1000

/-- An encoded frame, and whether it is a DATA frame. -/
structure Frame where
  bytes : List UInt8
  data : Bool

/-- The limits of a bulk window : `bulk_bytes` and `bulk_frames`. -/
structure Limits where
  bulkBytes : ℕ
  bulkFrames : ℕ

/-- `BULK_BYTES` and `BULK_FRAMES` -/
def Limits.standard : Limits := ⟨8 * 1024 * 1024, 20000⟩

/-- `WState` -/
structure WState where
  q : List Frame
  data : ℕ
  json : ℕ
  closing : Bool
  closed : Bool
  winStart : ℕ
  winBytes : ℕ
  winFrames : ℕ

/-- `Writer::new` -/
def WState.new : WState := ⟨[], 0, 0, false, false, 0, 0, 0⟩

section Put

variable (limits : Limits)

/-- `bulk_room` -/
def WState.bulkRoom (now : ℕ) (st : WState) (n : ℕ) : Bool × WState :=
  let st := if bulkWindow ≤ now - st.winStart then
    { st with winStart := now, winBytes := 0, winFrames := 0 } else st
  (st.winFrames < limits.bulkFrames && (st.winBytes + n ≤ limits.bulkBytes || st.winBytes == 0),
    st)

/-- `must_wait` -/
def WState.mustWait (now : ℕ) (st : WState) (n : ℕ) (data bulk : Bool) : Bool × WState :=
  if data then (0 < st.data && dataQueueMax < st.data + n, st)
  else if 0 < st.json && jsonQueueMax < st.json + n then (true, st)
  else if bulk then
    let r := st.bulkRoom limits now n
    (!r.1, r.2)
  else (false, st)

/-- A frame that is accepted. -/
def WState.push (st : WState) (frame : Frame) (bulk : Bool) : WState :=
  let st := if bulk then
    { st with winBytes := st.winBytes + frame.bytes.length, winFrames := st.winFrames + 1 } else st
  let st := if frame.data then { st with data := st.data + frame.bytes.length }
    else { st with json := st.json + frame.bytes.length }
  { st with q := st.q ++ [frame] }

/-- What one pass of the loop of `put` ends with. -/
inductive Answer where
  | accepted
  | refused
  | waits
  deriving DecidableEq

/-- One pass of the loop of `put`, with the lock held. -/
def WState.put (now : ℕ) (st : WState) (frame : Frame) (bulk abort : Bool) : Answer × WState :=
  if st.closed || st.closing then (.refused, st)
  else
    let r := st.mustWait limits now frame.bytes.length frame.data bulk
    if r.1 then (if abort then .refused else .waits, r.2) else (.accepted, r.2.push frame bulk)

end Put

/-- The loop that takes a batch off the queue, where it has `size` bytes; `none` where a counter
would underflow. -/
def takeLoop : ℕ → List Frame → ℕ → ℕ → Option (List Frame × List Frame × ℕ × ℕ)
  | _, [], data, json => some ([], [], data, json)
  | size, frame :: q, data, json =>
    if size < writeBatch then
      let n := frame.bytes.length
      if frame.data then
        if n ≤ data then
          (takeLoop (size + n) q (data - n) json).map fun r => (frame :: r.1, r.2)
        else none
      else
        if n ≤ json then
          (takeLoop (size + n) q data (json - n)).map fun r => (frame :: r.1, r.2)
        else none
    else some ([], frame :: q, data, json)

/-- The next batch, and the queue without it. -/
def WState.takeBatch (st : WState) : Option (List Frame × WState) :=
  (takeLoop 0 st.q st.data st.json).map fun r =>
    (r.1, { st with q := r.2.1, data := r.2.2.1, json := r.2.2.2 })

/-! ## The threads -/

/-- Where the writer's thread is : at the top of its loop, with a batch that it writes, or at its
end. -/
inductive Thread where
  | top
  | holds (batch : List Frame)
  | ended

/-- The batch in its hands. -/
def Thread.batch : Thread → List Frame
  | .top => []
  | .holds batch => batch
  | .ended => []

/-- Where the call of `close` is. Of a call that has returned : whether in time, and the batch
that the writer's thread then had. -/
inductive Closing where
  | notYet
  | waits (deadline : ℕ)
  | returned (inTime : Bool) (batch : List Frame)

/-- The writer : its state, its threads, the frames that `put` has accepted and the bytes that the
output has got; `failed` says that a write has failed. -/
structure State where
  st : WState
  thread : Thread
  close : Closing
  accepted : List Frame
  out : List UInt8
  failed : Bool

/-- At the start of a session. -/
def State.new : State := ⟨.new, .top, .notYet, [], [], false⟩

/-- The bytes of frames. -/
def bytesOf (frames : List Frame) : List UInt8 :=
  (frames.map Frame.bytes).flatten

/-- A look of `close` at the queue. -/
def State.look (s : State) (deadline now : ℕ) : State :=
  if !s.st.q.isEmpty && !s.st.closed && now < deadline then { s with close := .waits deadline }
  else
    { s with st.closed := true, close := .returned (now < deadline) s.thread.batch }

/-- What may happen next, in the order of the locks. -/
inductive Act where
  /-- a pass of a call of `put`, by any thread -/
  | put (now : ℕ) (frame : Frame) (bulk abort : Bool)
  /-- the writer's thread looks at the queue -/
  | take
  /-- its batch is written -/
  | write
  /-- its write fails when so many bytes are out -/
  | fail (n : ℕ)
  /-- `close` is called -/
  | close (now timeout : ℕ)
  /-- it looks again -/
  | look (now : ℕ)

/-- The writer's thread at the top of its loop, in `run`. -/
def State.take (s : State) : Option State :=
  match s.st.q with
  | [] =>
    if s.st.closed || s.st.closing then
      some { s with st.closed := true, thread := .ended }
    else none
  | _ :: _ => s.st.takeBatch.map fun r => { s with st := r.2, thread := .holds r.1 }

/-- A step, `none` where it cannot happen. -/
def step (limits : Limits) (s : State) : Act → Option State
  | .put now frame bulk abort =>
    let r := s.st.put limits now frame bulk abort
    some { s with
      st := r.2
      accepted := if r.1 = .accepted then s.accepted ++ [frame] else s.accepted }
  | .take =>
    match s.thread with
    | .top => s.take
    | _ => none
  | .write =>
    match s.thread with
    | .holds batch => some { s with thread := .top, out := s.out ++ bytesOf batch }
    | _ => none
  | .fail n =>
    match s.thread with
    | .holds batch => some { s with
        st := { s.st with closed := true, q := [], data := 0, json := 0 }
        thread := .ended
        out := s.out ++ (bytesOf batch).take n
        failed := true }
    | _ => none
  | .close now timeout =>
    match s.close with
    | .notYet => some ({ s with st.closing := true }.look (now + timeout) now)
    | _ => none
  | .look now =>
    match s.close with
    | .waits deadline => some (s.look deadline now)
    | _ => none

/-! ## The counters -/

/-- The bytes of the DATA frames among these. -/
def dataSize (frames : List Frame) : ℕ :=
  ((frames.filter Frame.data).map fun f => f.bytes.length).sum

/-- The bytes of the other frames among these. -/
def jsonSize (frames : List Frame) : ℕ :=
  ((frames.filter fun f => !f.data).map fun f => f.bytes.length).sum

theorem dataSize_concat (frames : List Frame) (f : Frame) :
    dataSize (frames ++ [f]) = dataSize frames + if f.data then f.bytes.length else 0 := by
  cases h : f.data <;> simp [dataSize, h]

theorem jsonSize_concat (frames : List Frame) (f : Frame) :
    jsonSize (frames ++ [f]) = jsonSize frames + if f.data then 0 else f.bytes.length := by
  cases h : f.data <;> simp [jsonSize, h]

theorem dataSize_cons (f : Frame) (frames : List Frame) :
    dataSize (f :: frames) = (if f.data then f.bytes.length else 0) + dataSize frames := by
  cases h : f.data <;> simp [dataSize, h]

theorem jsonSize_cons (f : Frame) (frames : List Frame) :
    jsonSize (f :: frames) = (if f.data then 0 else f.bytes.length) + jsonSize frames := by
  cases h : f.data <;> simp [jsonSize, h]

/-- Taking a batch off a queue whose sizes are counted : no counter underflows. -/
theorem takeLoop_spec : ∀ (q : List Frame) (size : ℕ), ∃ batch rest, q = batch ++ rest ∧
    takeLoop size q (dataSize q) (jsonSize q) = some (batch, rest, dataSize rest, jsonSize rest)
  | [], size => ⟨[], [], rfl, rfl⟩
  | f :: q, size => by
    by_cases hsize : size < writeBatch
    · obtain ⟨batch, rest, hq, htake⟩ := takeLoop_spec q (size + f.bytes.length)
      refine ⟨f :: batch, rest, by rw [hq, List.cons_append], ?_⟩
      rw [takeLoop, if_pos hsize, dataSize_cons, jsonSize_cons]
      dsimp only
      cases f.data with
      | true =>
        rw [if_pos rfl, if_pos rfl, if_pos rfl, if_pos (Nat.le_add_right ..),
          Nat.add_sub_cancel_left, Nat.zero_add, htake]
        rfl
      | false =>
        rw [if_neg Bool.false_ne_true, if_neg Bool.false_ne_true, if_neg Bool.false_ne_true,
          if_pos (Nat.le_add_right ..), Nat.add_sub_cancel_left, Nat.zero_add, htake]
        rfl
    · exact ⟨[], f :: q, rfl, if_neg hsize⟩

/-- The counters are the sizes of what is queued. -/
structure WState.Counted (st : WState) : Prop where
  data : st.data = dataSize st.q
  json : st.json = jsonSize st.q

theorem takeBatch_spec {st : WState} (h : st.Counted) : ∃ batch rest, st.q = batch ++ rest ∧
    st.takeBatch =
      some (batch, { st with q := rest, data := dataSize rest, json := jsonSize rest }) := by
  obtain ⟨batch, rest, hq, htake⟩ := takeLoop_spec st.q 0
  refine ⟨batch, rest, hq, ?_⟩
  rw [WState.takeBatch, h.data, h.json, htake]
  rfl

/-! ## One pass of `put` -/

/-- What a pass changes but the bulk window. -/
inductive Pass (st : WState) (frame : Frame) : Answer → WState → Prop
  | same {answer t} (h : answer ≠ .accepted) (hq : t.q = st.q) (hdata : t.data = st.data)
      (hjson : t.json = st.json) (hclosed : t.closed = st.closed) : Pass st frame answer t
  | accepted {t} (hopen : st.closed = false) (hq : t.q = st.q ++ [frame])
      (hdata : t.data = st.data + if frame.data then frame.bytes.length else 0)
      (hjson : t.json = st.json + if frame.data then 0 else frame.bytes.length)
      (hclosed : t.closed = false) : Pass st frame .accepted t

variable {limits : Limits} {now n : ℕ} {st : WState} {frame : Frame} {data bulk abort : Bool}

theorem push_q (st : WState) (frame : Frame) (bulk : Bool) :
    (st.push frame bulk).q = st.q ++ [frame] := by
  cases bulk <;> cases h : frame.data <;> simp [WState.push, h]

theorem push_data (st : WState) (frame : Frame) (bulk : Bool) : (st.push frame bulk).data =
    st.data + if frame.data then frame.bytes.length else 0 := by
  cases bulk <;> cases h : frame.data <;> simp [WState.push, h]

theorem push_json (st : WState) (frame : Frame) (bulk : Bool) : (st.push frame bulk).json =
    st.json + if frame.data then 0 else frame.bytes.length := by
  cases bulk <;> cases h : frame.data <;> simp [WState.push, h]

theorem push_closed (st : WState) (frame : Frame) (bulk : Bool) :
    (st.push frame bulk).closed = st.closed := by
  cases bulk <;> cases h : frame.data <;> simp [WState.push, h]

/-- Waiting changes the bulk window only. -/
theorem mustWait_spec (limits : Limits) (now : ℕ) (st : WState) (n : ℕ) (data bulk : Bool) :
    ∃ start bytes frames, (st.mustWait limits now n data bulk).2 =
      { st with winStart := start, winBytes := bytes, winFrames := frames } := by
  rw [WState.mustWait]
  by_cases hdata : data = true
  · rw [if_pos hdata]
    exact ⟨_, _, _, rfl⟩
  rw [if_neg hdata]
  by_cases hfull : (0 < st.json && jsonQueueMax < st.json + n : Bool) = true
  · rw [if_pos (by simpa using hfull)]
    exact ⟨_, _, _, rfl⟩
  rw [if_neg (by simpa using hfull)]
  by_cases hbulk : bulk = true
  · rw [if_pos hbulk, WState.bulkRoom]
    by_cases hwindow : bulkWindow ≤ now - st.winStart
    · rw [if_pos hwindow]
      exact ⟨_, _, _, rfl⟩
    · rw [if_neg hwindow]
      exact ⟨_, _, _, rfl⟩
  · rw [if_neg hbulk]
    exact ⟨_, _, _, rfl⟩

theorem put_spec (limits : Limits) (now : ℕ) (st : WState) (frame : Frame) (bulk abort : Bool) :
    Pass st frame (st.put limits now frame bulk abort).1
      (st.put limits now frame bulk abort).2 := by
  rw [WState.put]
  by_cases hshut : (st.closed || st.closing) = true
  · rw [if_pos hshut]
    exact .same (by simp) rfl rfl rfl rfl
  rw [if_neg hshut]
  have hopen : st.closed = false := by
    cases h : st.closed with
    | true => simp [h] at hshut
    | false => rfl
  obtain ⟨start, bytes, frames, hwait⟩ :=
    mustWait_spec limits now st frame.bytes.length frame.data bulk
  dsimp only
  rw [hwait]
  by_cases hw : (st.mustWait limits now frame.bytes.length frame.data bulk).1 = true
  · rw [if_pos hw]
    refine .same ?_ rfl rfl rfl rfl
    split_ifs <;> simp
  · rw [if_neg hw]
    exact .accepted hopen (push_q ..) (push_data ..) (push_json ..) ((push_closed ..).trans hopen)

/-! ## The invariant -/

theorem bytesOf_append (frames more : List Frame) :
    bytesOf (frames ++ more) = bytesOf frames ++ bytesOf more := by
  rw [bytesOf, List.map_append, List.flatten_append]
  rfl

/-- What is written, what the writer's thread has and what is queued is what was accepted. -/
structure Kept (s : State) : Prop where
  counted : s.st.Counted
  whole : s.failed = false → ∃ written,
    s.accepted = written ++ s.thread.batch ++ s.st.q ∧ s.out = bytesOf written
  cut : s.failed = true → s.thread = .ended ∧ s.st.closed = true ∧ ∃ written rest n,
    s.accepted = written ++ rest ∧ s.out = bytesOf written ++ (bytesOf rest).take n
  -- a closed queue is empty, unless `close` ran out of time
  empty : s.st.closed = true → s.st.q = [] ∨ ∃ batch, s.close = .returned false batch
  returned : ∀ inTime batch, s.close = .returned inTime batch → s.st.closed = true
  quiet : s.close = .returned true [] → s.thread.batch = []
  atEnd : s.thread = .ended → s.st.closed = true ∧ s.st.q = []

theorem kept_new : Kept .new where
  counted := ⟨rfl, rfl⟩
  whole _ := ⟨[], rfl, rfl⟩
  cut h := by cases h
  empty h := by cases h
  returned _ _ h := by cases h
  quiet h := by cases h
  atEnd h := by cases h

variable {s t : State} {deadline : ℕ}

theorem Kept.put (h : Kept s) {answer : Answer} {st : WState} (hp : Pass s.st frame answer st) :
    Kept { s with
      st := st
      accepted := if answer = .accepted then s.accepted ++ [frame] else s.accepted } := by
  cases hp with
  | same ha hq hdata hjson hclosed =>
    rw [if_neg ha]
    exact {
      counted := ⟨by rw [hdata, hq, h.counted.data], by rw [hjson, hq, h.counted.json]⟩
      whole := fun hf => by
        obtain ⟨written, hall, hout⟩ := h.whole hf
        exact ⟨written, by rw [hall, hq], hout⟩
      cut := fun hf => by
        obtain ⟨hended, hc, hparts⟩ := h.cut hf
        exact ⟨hended, hclosed.trans hc, hparts⟩
      empty := fun hc => by
        rw [hq]
        exact h.empty (hclosed.symm.trans hc)
      returned := fun inTime batch hr => hclosed.trans (h.returned inTime batch hr)
      quiet := h.quiet
      atEnd := fun hend => ⟨hclosed.trans (h.atEnd hend).1, hq.trans (h.atEnd hend).2⟩ }
  | accepted hopen hq hdata hjson hclosed =>
    have hfine : s.failed = false := by
      cases hf : s.failed with
      | false => rfl
      | true =>
        rw [(h.cut hf).2.1] at hopen
        cases hopen
    rw [if_pos rfl]
    exact {
      counted := by
        refine ⟨?_, ?_⟩
        · rw [hdata, hq, dataSize_concat, h.counted.data]
        · rw [hjson, hq, jsonSize_concat, h.counted.json]
      whole := fun hf => by
        obtain ⟨written, hall, hout⟩ := h.whole hf
        exact ⟨written, by rw [hall, hq, List.append_assoc], hout⟩
      cut := fun hf => by
        rw [hfine] at hf
        cases hf
      empty := fun hc => by
        rw [hclosed] at hc
        cases hc
      returned := fun inTime batch hr => by
        have hc := h.returned inTime batch hr
        rw [hopen] at hc
        cases hc
      quiet := h.quiet
      atEnd := fun hend => by
        have hc := (h.atEnd hend).1
        rw [hopen] at hc
        cases hc }

theorem Kept.take (h : Kept s) (htop : s.thread = .top) (ht : s.take = some t) : Kept t := by
  rw [State.take] at ht
  cases hq : s.st.q with
  | nil =>
    rw [hq] at ht
    dsimp only at ht
    split_ifs at ht with hshut
    obtain rfl := Option.some.inj ht
    exact {
      counted := ⟨h.counted.data, h.counted.json⟩
      whole := fun hf => by
        obtain ⟨written, hall, hout⟩ := h.whole hf
        rw [htop] at hall
        exact ⟨written, hall, hout⟩
      cut := fun hf => by
        obtain ⟨-, -, hparts⟩ := h.cut hf
        exact ⟨rfl, rfl, hparts⟩
      empty := fun _ => .inl hq
      returned := fun _ _ _ => rfl
      quiet := fun _ => rfl
      atEnd := fun _ => ⟨rfl, hq⟩ }
  | cons f q =>
    rw [hq] at ht
    obtain ⟨batch, rest, hsplit, htake⟩ := takeBatch_spec h.counted
    dsimp only at ht
    rw [htake] at ht
    obtain rfl := Option.some.inj ht
    exact {
      counted := ⟨rfl, rfl⟩
      whole := fun hf => by
        obtain ⟨written, hall, hout⟩ := h.whole hf
        rw [htop, hsplit] at hall
        exact ⟨written, by simpa [Thread.batch] using hall, hout⟩
      cut := fun hf => by
        obtain ⟨hended, -⟩ := h.cut hf
        rw [htop] at hended
        cases hended
      empty := fun hc => by
        rcases h.empty hc with hnil | hlate
        · rw [hq] at hnil
          cases hnil
        · exact .inr hlate
      returned := h.returned
      quiet := fun hr => by
        rcases h.empty (h.returned _ _ hr) with hnil | ⟨_, hlate⟩
        · rw [hq] at hnil
          cases hnil
        · rw [hlate] at hr
          cases hr
      atEnd := fun hend => by cases hend }

theorem Kept.write {batch : List Frame} (h : Kept s) (hb : s.thread = .holds batch) :
    Kept { s with thread := .top, out := s.out ++ bytesOf batch } where
  counted := h.counted
  whole hf := by
    obtain ⟨written, hall, hout⟩ := h.whole hf
    rw [hb] at hall
    refine ⟨written ++ batch, ?_, ?_⟩
    · simpa [Thread.batch] using hall
    · rw [bytesOf_append, ← hout]
  cut hf := by
    obtain ⟨hended, -⟩ := h.cut hf
    rw [hb] at hended
    cases hended
  empty := h.empty
  returned := h.returned
  quiet _ := rfl
  atEnd hend := by cases hend

theorem Kept.fail {batch : List Frame} (h : Kept s) (hb : s.thread = .holds batch) (n : ℕ) :
    Kept { s with
      st := { s.st with closed := true, q := [], data := 0, json := 0 }
      thread := .ended
      out := s.out ++ (bytesOf batch).take n
      failed := true } where
  counted := ⟨rfl, rfl⟩
  whole hf := by cases hf
  cut _ := by
    have hfine : s.failed = false := by
      cases hf : s.failed with
      | false => rfl
      | true =>
        obtain ⟨hended, -⟩ := h.cut hf
        rw [hb] at hended
        cases hended
    obtain ⟨written, hall, hout⟩ := h.whole hfine
    rw [hb, List.append_assoc] at hall
    -- what the write got out is a part of the batch
    refine ⟨rfl, rfl, written, batch ++ s.st.q, min n (bytesOf batch).length, hall, ?_⟩
    dsimp only
    rw [hout, bytesOf_append, List.take_append_of_le_length (Nat.min_le_right ..),
      ← List.take_eq_take_min]
  empty _ := .inl rfl
  returned _ _ _ := rfl
  quiet _ := rfl
  atEnd _ := ⟨rfl, rfl⟩

theorem Kept.look (h : Kept s) (hlook : ∀ inTime batch, s.close ≠ .returned inTime batch)
    (deadline now : ℕ) : Kept (s.look deadline now) := by
  rw [State.look]
  by_cases hwaits : (!s.st.q.isEmpty && !s.st.closed && now < deadline : Bool) = true
  · rw [if_pos (by simpa using hwaits)]
    have hopen : s.st.closed = false := by
      cases hc : s.st.closed with
      | false => rfl
      | true => simp [hc] at hwaits
    exact {
      counted := h.counted
      whole := h.whole
      cut := h.cut
      empty := fun hc => by
        rw [hopen] at hc
        cases hc
      returned := fun _ _ hr => by cases hr
      quiet := fun hr => by cases hr
      atEnd := h.atEnd }
  · rw [if_neg (by simpa using hwaits)]
    exact {
      counted := ⟨h.counted.data, h.counted.json⟩
      whole := h.whole
      cut := fun hf => by
        obtain ⟨hended, -, hparts⟩ := h.cut hf
        exact ⟨hended, rfl, hparts⟩
      empty := fun _ => by
        by_cases hnow : now < deadline
        · left
          cases hc : s.st.closed with
          | false => simpa [hc, hnow] using hwaits
          | true =>
            rcases h.empty hc with hnil | ⟨_, hr⟩
            · exact hnil
            · exact absurd hr (hlook _ _)
        · exact .inr ⟨s.thread.batch, by rw [decide_eq_false hnow]⟩
      returned := fun _ _ _ => rfl
      quiet := fun hr => by
        injection hr
      atEnd := fun hend => ⟨rfl, (h.atEnd hend).2⟩ }

theorem Kept.close (h : Kept s) : Kept { s with st.closing := true } where
  counted := ⟨h.counted.data, h.counted.json⟩
  whole := h.whole
  cut := h.cut
  empty := h.empty
  returned := h.returned
  quiet := h.quiet
  atEnd := h.atEnd

theorem Kept.step (h : Kept s) {a : Act} (hs : step limits s a = some t) : Kept t := by
  cases a with
  | put now frame bulk abort =>
    obtain rfl := Option.some.inj hs
    exact h.put (put_spec limits now s.st frame bulk abort)
  | take =>
    rw [Out.step] at hs
    cases hthread : s.thread with
    | top =>
      rw [hthread] at hs
      exact h.take hthread hs
    | holds batch | ended => simp [hthread] at hs
  | write =>
    rw [Out.step] at hs
    cases hthread : s.thread with
    | holds batch =>
      rw [hthread] at hs
      obtain rfl := Option.some.inj hs
      exact h.write hthread
    | top | ended => simp [hthread] at hs
  | fail n =>
    rw [Out.step] at hs
    cases hthread : s.thread with
    | holds batch =>
      rw [hthread] at hs
      obtain rfl := Option.some.inj hs
      exact h.fail hthread n
    | top | ended => simp [hthread] at hs
  | close now timeout =>
    rw [Out.step] at hs
    cases hclose : s.close with
    | notYet =>
      rw [hclose] at hs
      obtain rfl := Option.some.inj hs
      exact h.close.look (fun _ _ hr => by cases hclose.symm.trans hr) _ _
    | waits deadline | returned inTime batch => simp [hclose] at hs
  | look now =>
    rw [Out.step] at hs
    cases hclose : s.close with
    | waits deadline =>
      rw [hclose] at hs
      obtain rfl := Option.some.inj hs
      exact h.look (fun _ _ hr => by cases hclose.symm.trans hr) _ _
    | notYet | returned inTime batch => simp [hclose] at hs

theorem kept_of_run (h : Reach (step limits) .new s) : Kept s :=
  h.invariant Kept (fun _ _ _ _ hs ha => hs.step ha) kept_new

/-! ## What the writer keeps -/

/-- In every state of every run the counters are the sizes of what is queued, and never underflow;
what is written is what was accepted, whole and in order, up to a write that failed; and when no
write failed and `close` returned in time, at a moment when the writer's thread had no batch, all
that was accepted is written. -/
theorem writer_keeps (h : Reach (step limits) .new s) :
    (s.st.Counted ∧ s.st.takeBatch ≠ none) ∧
    (∃ written rest n, s.accepted = written ++ rest ∧
      s.out = bytesOf written ++ (bytesOf rest).take n ∧ (s.failed = false → n = 0)) ∧
    (s.failed = false → s.close = .returned true [] → s.out = bytesOf s.accepted) := by
  have hk := kept_of_run h
  refine ⟨⟨hk.counted, ?_⟩, ?_, ?_⟩
  · obtain ⟨batch, rest, -, htake⟩ := takeBatch_spec hk.counted
    rw [htake]
    exact Option.some_ne_none _
  · cases hf : s.failed with
    | false =>
      obtain ⟨written, hall, hout⟩ := hk.whole hf
      refine ⟨written, s.thread.batch ++ s.st.q, 0, ?_, ?_, fun _ => rfl⟩
      · rw [hall, List.append_assoc]
      · rw [hout, List.take_zero, List.append_nil]
    | true =>
      obtain ⟨-, -, written, rest, n, hall, hout⟩ := hk.cut hf
      exact ⟨written, rest, n, hall, hout, fun hno => by cases hno⟩
  · intro hf hr
    obtain ⟨written, hall, hout⟩ := hk.whole hf
    have hq : s.st.q = [] := by
      rcases hk.empty (hk.returned _ _ hr) with hnil | ⟨_, hlate⟩
      · exact hnil
      · rw [hlate] at hr
        cases hr
    rw [hk.quiet hr, hq, List.append_nil, List.append_nil] at hall
    rw [hout, hall]

/-- When the writer's thread is at its end and no write failed, all that was accepted is
written, whatever `close` found. -/
theorem written_at_end (h : Reach (step limits) .new s) (hend : s.thread = .ended)
    (hf : s.failed = false) : s.out = bytesOf s.accepted := by
  have hk := kept_of_run h
  obtain ⟨written, hall, hout⟩ := hk.whole hf
  rw [hend, (hk.atEnd hend).2, List.append_nil] at hall
  rw [hout, hall]
  simp [Thread.batch]

/-- A last message. -/
def fatal : Frame := ⟨[0, 0, 0, 3, 1, 123, 125], false⟩

/-- It is written before `close` looks. -/
theorem fatal_written : ∃ s, runActs (step .standard) .new
    [.put 0 fatal false false, .take, .write, .close 0 2000] = some s ∧
      s.out = bytesOf s.accepted := by
  refine ⟨_, rfl, ?_⟩
  have hrun := Reach.of_runActs (show runActs (step .standard) .new
    [.put 0 fatal false false, .take, .write, .close 0 2000] = some _ from rfl)
  exact (writer_keeps hrun).2.2 rfl rfl

/-- `close` returns in time though the last message is not written, as the writer's thread has
taken it off the queue; and a write that fails may leave a part of a frame behind. -/
theorem fatal_lost :
    (∃ s, runActs (step .standard) .new [.put 0 fatal false false, .take, .close 0 2000] = some s ∧
      s.failed = false ∧ s.close = .returned true [fatal] ∧ s.out ≠ bytesOf s.accepted) ∧
    ∃ s, runActs (step .standard) .new [.put 0 fatal false false, .take, .fail 3] = some s ∧
      ∀ frames, frames.Sublist s.accepted → s.out ≠ bytesOf frames := by
  refine ⟨⟨_, rfl, rfl, rfl, by decide⟩, ⟨_, rfl, ?_⟩⟩
  intro frames hsub
  rcases List.sublist_singleton.1 hsub with rfl | rfl
  · decide
  · decide

end Out

end EngineConsole
