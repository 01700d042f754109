import EngineConsole.Transition

/-!
# The life of a link

One task per machine keeps its node connected : it starts the node process, greets it, reads its
messages until the connection ends, fails the requests that are left, reaps the process, and waits
before it tries again. Other threads begin requests, ask for a reconnection, and stop the link, and
timers kill a process that does not end.

`Life.step` is one lock section, or one process or timer event, of any thread. The model gives what
the node and the system do (a handshake, an answer, an exit) as actions; a process that was sent
SIGKILL may take its time to go. The steps of `stop` after its first may come at any time and in any
number, which covers every run of the code.

`one_process` : a link never has two node processes, and none between two sessions.
-/

set_option linter.unusedSectionVars false

namespace EngineConsole.LinkLife

/-! ## Data -/

/-- The durations of `LinkTiming` that the retries use, in milliseconds. -/
structure Timing where
  backoffMin : ℕ
  backoffMax : ℕ
  stable : ℕ
  fixRetry : ℕ

def Timing.default : Timing :=
  ⟨1000, 60000, 60000, 300000⟩

def maxInflight : ℕ :=
  64

inductive LinkState where
  | connecting
  | up
  | down
  | incompatible
  deriving DecidableEq

structure Request where
  num : ℕ
  session : ℕ
  deriving DecidableEq

inductive Outcome where
  | answered
  | unavailable (reason : String)
  deriving DecidableEq

/-- How a conversation with the node ended. -/
structure Talk where
  err : Option String
  wait : Option ℕ
  incompatible : Bool
  up : ℕ
  wasUp : Bool
  deriving DecidableEq

/-- A conversation that did not get as far as `hello`. -/
def Talk.failed (err : Option String) : Talk :=
  ⟨err, none, false, 0, false⟩

/-- How one connection attempt ended. -/
structure End where
  error : String
  wait : Option ℕ
  incompatible : Bool
  up : ℕ
  deriving DecidableEq

/-- Where `run` is, in `session`, `converse`, `reap` and `wait_wake` as well. -/
inductive Pc where
  | idle
  | top
  | starting
  | spawned (p : ℕ)
  | talking (p : ℕ)
  | reading (p since : ℕ)
  | talked (p : ℕ) (t : Talk)
  | told (p : ℕ) (t : Talk) (reason : String)
  | shut (p : ℕ) (t : Talk) (reason : String)
  | failed (p : ℕ) (t : Talk) (reason : String)
  | reaping (p : ℕ) (t : Talk)
  | killing (p : ℕ) (t : Talk)
  | reaped (p : ℕ) (t : Talk)
  | released (t : Talk)
  | ended (e : End)
  | backing (e : End) (w : ℕ)
  | waiting (since w : ℕ)
  | over
  | aborted
  deriving DecidableEq

/-- What `reconnect` saw under its first lock. -/
structure Seen where
  pid : Option ℕ
  state : LinkState
  session : ℕ
  deriving DecidableEq

structure Life where
  state : LinkState
  error : Option String
  retryAt : Option ℕ
  pid : Option ℕ
  session : ℕ
  /-- The queue to the node's input, and whether its far end is there. -/
  writer : Option Bool
  stopping : Bool
  wake : Bool
  dropReason : Option String
  backoff : ℕ
  lastWait : Option ℕ
  pending : List Request
  done : List (Request × Outcome)
  next : ℕ
  pc : Pc
  /-- The node processes that nobody has killed. -/
  running : List ℕ
  /-- Those that were sent SIGKILL and are not gone yet. -/
  doomed : List ℕ
  nextPid : ℕ
  seen : List Seen
  timers : List (ℕ × ℕ)
  now : ℕ
  /-- So far: connection attempts, calls of `reconnect`, waits that ran out. -/
  attempts : ℕ
  kicks : ℕ
  slept : List ℕ
  /-- Ordinary failures since the backoff was last reset. -/
  streak : ℕ

def Life.init (T : Timing) : Life where
  state := .connecting
  error := none
  retryAt := none
  pid := none
  session := 0
  writer := none
  stopping := false
  wake := false
  dropReason := none
  backoff := T.backoffMin
  lastWait := none
  pending := []
  done := []
  next := 0
  pc := .idle
  running := []
  doomed := []
  nextPid := 0
  seen := []
  timers := []
  now := 0
  attempts := 0
  kicks := 0
  slept := []
  streak := 0

inductive Act where
  -- `run` and what it calls
  | start
  | enter
  | noStart (msg : String) (fix : Bool)
  | spawn
  | register (p : ℕ)
  | badHello (p : ℕ) (kill : Bool) (err : Option String)
  | mismatch (p : ℕ) (msg : String)
  | connected (p : ℕ)
  | hangUp (p since : ℕ) (err : Option String)
  | explain (p : ℕ) (t : Talk)
  | shut (p : ℕ) (t : Talk) (reason : String)
  | failAll (p : ℕ) (t : Talk) (reason : String)
  | fall (p : ℕ) (t : Talk) (reason : String)
  | reap (p : ℕ) (t : Talk)
  | graceOver (p : ℕ) (t : Talk)
  | reapLate (p : ℕ) (t : Talk)
  | giveUp (p : ℕ) (t : Talk)
  | release (p : ℕ) (t : Talk)
  | conclude (t : Talk) (msg : String) (fix : Bool)
  | settle (e : End)
  | retreat (e : End) (w : ℕ)
  | woken (since w : ℕ)
  | expired (since w : ℕ)
  -- requests, answered by the reader or forgotten by the watchdog
  | begin
  | answer (r : Request)
  | orphan (r : Request)
  | silent (reason : String)
  -- other threads
  | stop
  | stopKill
  | stopFail
  | stopDown
  | abort
  | reconnect
  | reconnectNow (v : Seen)
  | timer (p session : ℕ)
  -- the system
  | exit (p : ℕ)
  | writeFails
  | tick

/-! ## The functions of the link -/

/-- Move to a state; an error replaces the one there was, and `up` clears it. -/
def Life.to (s : Life) (state : LinkState) (error : Option String) (wait : Option ℕ) : Life :=
  { s with
    state
    error := if state = .up then none else error.or s.error
    retryAt := wait.map (s.now + ·) }

/-- `kill_proc` -/
def Life.killProc (s : Life) : Option ℕ → Life
  | none => s
  | some p =>
    { s with
      running := s.running.filter (· ≠ p)
      doomed := if p ∈ s.running then p :: s.doomed else s.doomed }

/-- `kill`: the first reason is kept. -/
def Life.kill (s : Life) (reason : Option String) : Life :=
  { s with dropReason := s.dropReason.or reason }.killProc s.pid

def Life.failPending (s : Life) (reason : String) : Life :=
  { s with
    pending := []
    done := s.done ++ s.pending.map fun r => (r, .unavailable reason) }

def Life.finish (s : Life) (r : Request) (o : Outcome) : Life :=
  { s with pending := s.pending.erase r, done := s.done ++ [(r, o)] }

/-- The end of `session` : the reason that is known, or what the exit status explains. -/
def endOf (T : Timing) (s : Life) (t : Talk) (msg : String) (fix : Bool) : End :=
  match t.err.or s.dropReason with
  | some error => ⟨error, t.wait, t.incompatible, t.up⟩
  | none => ⟨msg, if fix then some T.fixRetry else none, false, t.up⟩

/-- The backoff of a failure that no person has to fix, after a connection of `up`. -/
def Life.ordinary (T : Timing) (s : Life) (up : ℕ) : ℕ :=
  if T.stable ≤ up then T.backoffMin else s.backoff

/-- How long the link waits after an attempt, with the backoff and the streak it goes on with. -/
def Backs (T : Timing) (s : Life) (e : End) (w b k : ℕ) : Prop :=
  (e.wait = some w ∧ b = s.backoff ∧ k = s.streak) ∨
    (e.wait = none ∧ w = s.ordinary T e.up ∧ b = min (s.ordinary T e.up * 2) T.backoffMax ∧
      k = if T.stable ≤ e.up then 1 else s.streak + 1)

def Life.backOff (T : Timing) (s : Life) (e : End) : Option ℕ → Life
  | some w => { s with lastWait := some w, pc := .backing e w }
  | none =>
    { s with
      lastWait := some (s.ordinary T e.up)
      backoff := min (s.ordinary T e.up * 2) T.backoffMax
      streak := if T.stable ≤ e.up then 1 else s.streak + 1
      pc := .backing e (s.ordinary T e.up) }

/-- After an attempt: return, retry at once, or choose how long to wait. -/
def Life.settle (T : Timing) (s : Life) (e : End) : Life :=
  if s.stopping then { s with pc := .over }
  else if s.wake then { s with pc := .top }
  else s.backOff T e e.wait

/-- The second half of `reconnect`, on what its first half saw. -/
def Life.reconnectNow (s : Life) (v : Seen) : Life :=
  match v.pid with
  | none => s
  | some p =>
    match v.state with
    | .up =>
      { s with
        dropReason := some "reconnecting at your request"
        writer := none
        timers := (p, v.session) :: s.timers }
    | .connecting => s.kill (some "reconnecting at your request")
    | _ => s

/-- `begin` finds the link up and its queue open, with room for one more request. -/
def Life.canBegin (s : Life) : Bool :=
  s.writer = some true && s.state = .up && s.pending.length < maxInflight

/-! ## The steps -/

/-- The task is at a point where it waits, so that it can be aborted. -/
def Pc.awaits : Pc → Bool
  | .talking _ | .reading _ _ | .reaping _ _ | .killing _ _ | .reaped _ _ | .waiting _ _ => true
  | _ => false

/-- The watchdog runs while the link reads; an aborted task leaves its watchdog behind. -/
def Pc.watched : Pc → Bool
  | .reading _ _ | .aborted => true
  | _ => false

/-- The process a session has registered and has not given up. -/
def Pc.guarded : Pc → Option ℕ
  | .talking p | .reading p _ | .talked p _ | .told p _ _ | .shut p _ _ | .failed p _ _
  | .reaping p _ | .killing p _ | .reaped p _ => some p
  | _ => none

def Life.may (s : Life) : Act → Bool
  | .start => s.pc = .idle
  | .enter => s.pc = .top
  | .noStart _ _ | .spawn => s.pc = .starting
  | .register p => s.pc = .spawned p
  | .badHello p kill err => s.pc = .talking p && (!kill || err.isSome)
  | .mismatch p _ | .connected p => s.pc = .talking p
  | .hangUp p since _ => s.pc = .reading p since
  | .explain p t => s.pc = .talked p t
  | .shut p t reason => s.pc = .told p t reason
  | .failAll p t reason => s.pc = .shut p t reason
  | .fall p t reason => s.pc = .failed p t reason
  | .reap p t => s.pc = .reaping p t && p ∉ s.running && p ∉ s.doomed
  | .graceOver p t => s.pc = .reaping p t
  | .reapLate p t => s.pc = .killing p t && p ∉ s.running && p ∉ s.doomed
  | .giveUp p t => s.pc = .killing p t
  | .release p t => s.pc = .reaped p t
  | .conclude t _ _ => s.pc = .released t
  | .settle e => s.pc = .ended e
  | .retreat e w => s.pc = .backing e w
  | .woken since w => s.pc = .waiting since w && s.wake
  | .expired since w => s.pc = .waiting since w && since + w ≤ s.now
  | .begin => s.canBegin
  | .answer r => (s.pc matches .reading _ _) && r ∈ s.pending
  | .orphan r => s.pc.watched && r ∈ s.pending
  | .silent _ => s.pc.watched
  | .stop => true
  | .stopKill | .stopFail | .stopDown => s.stopping
  | .abort => s.stopping && s.pc.awaits
  | .reconnect => true
  | .reconnectNow v => v ∈ s.seen
  | .timer p session => (p, session) ∈ s.timers
  | .exit p => p ∈ s.running || p ∈ s.doomed
  | .writeFails => s.writer = some true
  | .tick => true

def Life.after (T : Timing) (s : Life) : Act → Life
  | .start => { s with pc := .top }
  | .enter =>
    if s.stopping then { s with pc := .over }
    else
      { s with wake := false, pc := .starting, attempts := s.attempts + 1 }.to .connecting none none
  | .noStart msg fix =>
    { s with pc := .ended ⟨msg, if fix then some T.fixRetry else none, false, 0⟩ }
  | .spawn =>
    { s with
      running := s.nextPid :: s.running, nextPid := s.nextPid + 1, pc := .spawned s.nextPid }
  | .register p =>
    -- stop() may have run while the process was started
    { s with
      pid := some p, session := s.session + 1, writer := some true, dropReason := none
      pc := .talking p }.killProc (if s.stopping then some p else none)
  | .badHello p kill err =>
    (if kill then s.kill none else s) |> fun s => { s with pc := .talked p (.failed err) }
  | .mismatch p msg => { s with pc := .talked p ⟨some msg, some T.fixRetry, true, 0, false⟩ }
  | .connected p => { s with wake := false, pc := .reading p s.now }.to .up none none
  | .hangUp p since err =>
    (if err.isSome then s.kill none else s) |> fun s =>
      { s with pc := .talked p ⟨err, none, false, s.now - since, true⟩ }
  | .explain p t =>
    { s with pc := .told p t ((t.err.or s.dropReason).getD "the node closed the connection") }
  | .shut p t reason => { s with writer := none, pc := .shut p t reason }
  | .failAll p t reason => { s.failPending reason with pc := .failed p t reason }
  | .fall p t reason =>
    (if t.wasUp then s.to .down (some reason) none else s) |> fun s => { s with pc := .reaping p t }
  | .reap p t => { s with pid := none, pc := .reaped p t }
  | .graceOver p t => { s with pc := .killing p t }.killProc (some p)
  | .reapLate p t => { s with pid := none, pc := .reaped p t }
  | .giveUp p t => { s with pc := .reaped p t }
  | .release p t =>
    (if s.pid = some p then s.killProc (some p) else s) |> fun s =>
      { s with pid := none, writer := none, pc := .released t }
  | .conclude t msg fix => { s with pc := .ended (endOf T s t msg fix) }
  | .settle e => s.settle T e
  | .retreat e w =>
    { s with pc := .waiting s.now w }.to (if e.incompatible then .incompatible else .down)
      (some e.error) (some w)
  | .woken _ _ => { s with pc := .top }
  | .expired _ w => { s with pc := .top, slept := s.slept ++ [w] }
  | .begin => { s with pending := s.pending ++ [⟨s.next, s.session⟩], next := s.next + 1 }
  | .answer r => s.finish r .answered
  | .orphan r => s.finish r (.unavailable "the node never answered a cancelled request")
  | .silent reason => s.kill (some reason)
  | .stop => { s with stopping := true, wake := true, writer := none }
  | .stopKill => s.killProc s.pid
  | .stopFail => s.failPending "the console is shutting down"
  | .stopDown => s.to .down (some "stopped") none
  | .abort =>
    -- the process guard of a session that is dropped
    (if s.pid.isSome ∧ s.pid = s.pc.guarded then s.killProc s.pid else s) |> fun s =>
      { s with pc := .aborted }
  | .reconnect =>
    { s with
      backoff := T.backoffMin, streak := 0, wake := true, kicks := s.kicks + 1
      seen := ⟨s.pid, s.state, s.session⟩ :: s.seen }
  | .reconnectNow v => { s.reconnectNow v with seen := s.seen.erase v }
  | .timer p session =>
    (if s.session = session ∧ s.pid = some p then s.killProc (some p) else s) |> fun s =>
      { s with timers := s.timers.erase (p, session) }
  | .exit p =>
    { s with running := s.running.filter (· ≠ p), doomed := s.doomed.filter (· ≠ p) }
  | .writeFails => { s with writer := some false }
  | .tick => { s with now := s.now + 1 }

def Life.step (T : Timing) (s : Life) (a : Act) : Option Life :=
  if s.may a then some (s.after T a) else none

variable {T : Timing} {s s' : Life} {a : Act} {p : ℕ}

theorem step_eq (h : s.step T a = some s') : s.may a = true ∧ s' = s.after T a := by
  obtain ⟨hmay, h⟩ := Option.ite_none_right_eq_some.1 h
  exact ⟨hmay, (Option.some.inj h).symm⟩

@[simp] theorem to_running (s : Life) (st : LinkState) (e : Option String) (w : Option ℕ) :
    (s.to st e w).running = s.running := rfl

@[simp] theorem to_pc (s : Life) (st : LinkState) (e : Option String) (w : Option ℕ) :
    (s.to st e w).pc = s.pc := rfl

/-- A kill takes a process out of those that run, and changes nothing else of the link. -/
theorem killProc_eq (s : Life) (o : Option ℕ) :
    s.killProc o =
      { s with running := (s.killProc o).running, doomed := (s.killProc o).doomed } := by
  cases o with
  | none => rfl
  | some p => rfl

theorem killProc_running (s : Life) (o : Option ℕ) :
    List.Sublist (s.killProc o).running s.running := by
  cases o with
  | none => exact List.Sublist.refl _
  | some p => exact List.filter_sublist

theorem not_mem_killProc (s : Life) (p : ℕ) : p ∉ (s.killProc (some p)).running := fun h =>
  of_decide_eq_true (List.mem_filter.1 h).2 rfl

/-- The three ways an attempt is followed up. -/
theorem settle_cases (T : Timing) (s : Life) (e : End) :
    (s.stopping = true ∧ s.settle T e = { s with pc := .over }) ∨
      (s.stopping = false ∧ s.wake = true ∧ s.settle T e = { s with pc := .top }) ∨
      ∃ w b k, s.stopping = false ∧ s.wake = false ∧ Backs T s e w b k ∧ s.settle T e =
        { s with lastWait := some w, backoff := b, streak := k, pc := .backing e w } := by
  by_cases hstop : s.stopping = true
  · exact .inl ⟨hstop, if_pos hstop⟩
  have hgo : s.stopping = false := Bool.eq_false_iff.2 hstop
  by_cases hwake : s.wake = true
  · exact .inr (.inl ⟨hgo, hwake, (if_neg hstop).trans (if_pos hwake)⟩)
  refine .inr (.inr ?_)
  have hwait := (if_neg hstop : s.settle T e = _).trans (if_neg hwake)
  cases hw : e.wait with
  | none =>
    exact ⟨_, _, _, hgo, Bool.eq_false_iff.2 hwake, .inr ⟨hw, rfl, rfl, rfl⟩,
      hwait.trans (congrArg (s.backOff T e) hw)⟩
  | some w =>
    exact ⟨w, s.backoff, s.streak, hgo, Bool.eq_false_iff.2 hwake, .inl ⟨hw, rfl, rfl⟩,
      hwait.trans (congrArg (s.backOff T e) hw)⟩

theorem reconnectNow_cases (s : Life) (v : Seen) :
    s.reconnectNow v = s ∨
      (∃ p, v.pid = some p ∧ s.reconnectNow v = { s with
        dropReason := some "reconnecting at your request"
        writer := none
        timers := (p, v.session) :: s.timers }) ∨
      s.reconnectNow v = s.kill (some "reconnecting at your request") := by
  obtain ⟨pid, state, session⟩ := v
  cases pid with
  | none => exact .inl rfl
  | some p =>
    cases state with
    | up => exact .inr (.inl ⟨p, rfl, rfl⟩)
    | connecting => exact .inr (.inr rfl)
    | down => exact .inl rfl
    | incompatible => exact .inl rfl

/-! ## One process at a time -/

/-- The process the task is responsible for. -/
def Pc.proc : Pc → Option ℕ
  | .spawned p => some p
  | pc => pc.guarded

/-- A running process is the one of the task, and known to the link once it is registered. -/
structure Procs (s : Life) : Prop where
  nodup : s.running.Nodup
  own : ∀ p ∈ s.running, s.pc.proc = some p
  known : ∀ p ∈ s.running, s.pc.guarded = some p → s.pid = some p

theorem procs_init (T : Timing) : Procs (Life.init T) :=
  ⟨List.nodup_nil, fun _ h => absurd h List.not_mem_nil, fun _ h => absurd h List.not_mem_nil⟩

theorem guarded_of_proc {pc : Pc} (h : pc.proc = some p) (hpc : pc ≠ .spawned p) :
    pc.guarded = some p := by
  cases pc with
  | spawned q => exact absurd (congrArg Pc.spawned (Option.some.inj h)) hpc
  | _ => exact h

/-- The task moves on with the same process. -/
theorem Procs.move (h : Procs s) (hrun : List.Sublist s'.running s.running) (hpid : s'.pid = s.pid)
    (hproc : s'.pc.proc = s.pc.proc) (hguard : s'.pc.guarded = s.pc.guarded) : Procs s' where
  nodup := h.nodup.sublist hrun
  own p hp := hproc.trans (h.own p (hrun.subset hp))
  known p hp hg := hpid.trans (h.known p (hrun.subset hp) (hguard.symm.trans hg))

/-- Nothing runs. -/
theorem Procs.of_nil (h : s.running = []) : Procs s where
  nodup := h ▸ List.nodup_nil
  own p hp := absurd (h ▸ hp : p ∈ []) List.not_mem_nil
  known p hp := absurd (h ▸ hp : p ∈ []) List.not_mem_nil

theorem Procs.nil_of_proc (h : Procs s) (hpc : s.pc.proc = none) : s.running = [] :=
  List.eq_nil_iff_forall_not_mem.2 fun p hp => Option.some_ne_none p ((h.own p hp).symm.trans hpc)

/-- Between two processes nothing runs, whatever the task does. -/
theorem Procs.idle (h : Procs s) (hpc : s.pc.proc = none) (hrun : s'.running = s.running) :
    Procs s' :=
  .of_nil (hrun.trans (h.nil_of_proc hpc))

/-- Once the registered process was killed, nothing runs. -/
theorem Procs.nil_of_kill (h : Procs s) (hpc : s.pc.guarded = some p)
    (hproc : s.pc.proc = some p) (hrun : List.Sublist s'.running s.running)
    (hkill : s.pid = some p → p ∉ s'.running) : s'.running = [] := by
  refine List.eq_nil_iff_forall_not_mem.2 fun q hq => ?_
  have hq' := hrun.subset hq
  obtain rfl : p = q := Option.some.inj (hproc.symm.trans (h.own q hq'))
  exact hkill (h.known p hq' hpc) hq

theorem Procs.kill (h : Procs s) (o : Option ℕ) : Procs (s.killProc o) := by
  refine h.move (killProc_running s o) ?_ ?_ ?_
  all_goals rw [killProc_eq]

theorem Procs.killWhy (h : Procs s) (reason : Option String) : Procs (s.kill reason) :=
  Procs.kill (s := { s with dropReason := s.dropReason.or reason }) ⟨h.nodup, h.own, h.known⟩ s.pid

theorem proc_of_awaits {pc : Pc} (h : pc.awaits = true) : pc.proc = pc.guarded := by
  cases pc with
  | spawned p => exact absurd h Bool.false_ne_true
  | _ => rfl

/-- Every step keeps the invariant. -/
theorem Procs.after (h : Procs s) (hm : s.may a = true) : Procs (s.after T a) := by
  cases a with
  | start =>
    have hpc : s.pc = .idle := of_decide_eq_true hm
    exact h.idle (hpc ▸ rfl) rfl
  | enter =>
    have hpc : s.pc = .top := of_decide_eq_true hm
    refine h.idle (hpc ▸ rfl) ?_
    show (if s.stopping then _ else _ : Life).running = s.running
    split_ifs <;> rfl
  | noStart msg fix =>
    have hpc : s.pc = .starting := of_decide_eq_true hm
    exact h.idle (hpc ▸ rfl) rfl
  | spawn =>
    have hpc : s.pc = .starting := of_decide_eq_true hm
    have hnil := h.nil_of_proc (hpc ▸ rfl)
    have hrun : (s.after T .spawn).running = [s.nextPid] := congrArg (s.nextPid :: ·) hnil
    refine ⟨hrun ▸ List.nodup_singleton _, fun p hp => ?_, fun p _ hg =>
      absurd hg (Option.some_ne_none p).symm⟩
    rw [hrun] at hp
    exact congrArg some (List.mem_singleton.1 hp).symm
  | register p =>
    have hpc : s.pc = .spawned p := of_decide_eq_true hm
    refine Procs.kill (s := { s with
      pid := some p, session := s.session + 1, writer := some true, dropReason := none
      pc := .talking p }) ⟨h.nodup, fun q hq => ?_, fun q _ hg => hg⟩ _
    exact (hpc ▸ h.own q hq : (Pc.spawned p).proc = some q)
  | badHello p kill err =>
    have hpc : s.pc = .talking p := of_decide_eq_true (Bool.and_eq_true_iff.1 hm).1
    have hkill : Procs (if kill then s.kill none else s) := by
      split_ifs
      · exact h.killWhy none
      · exact h
    have hpc' : (if kill then s.kill none else s).pc = .talking p := by
      split_ifs
      · exact (congrArg Life.pc (killProc_eq _ _)).trans hpc
      · exact hpc
    exact hkill.move (List.Sublist.refl _) rfl (hpc' ▸ rfl) (hpc' ▸ rfl)
  | mismatch p msg =>
    have hpc : s.pc = .talking p := of_decide_eq_true hm
    exact h.move (List.Sublist.refl _) rfl (hpc ▸ rfl) (hpc ▸ rfl)
  | connected p =>
    have hpc : s.pc = .talking p := of_decide_eq_true hm
    exact h.move (List.Sublist.refl _) rfl (hpc ▸ rfl) (hpc ▸ rfl)
  | hangUp p since err =>
    have hpc : s.pc = .reading p since := of_decide_eq_true hm
    have hkill : Procs (if err.isSome then s.kill none else s) := by
      split_ifs
      · exact h.killWhy none
      · exact h
    have hpc' : (if err.isSome then s.kill none else s).pc = .reading p since := by
      split_ifs
      · exact (congrArg Life.pc (killProc_eq _ _)).trans hpc
      · exact hpc
    exact hkill.move (List.Sublist.refl _) rfl (hpc' ▸ rfl) (hpc' ▸ rfl)
  | explain p t =>
    have hpc : s.pc = .talked p t := of_decide_eq_true hm
    exact h.move (List.Sublist.refl _) rfl (hpc ▸ rfl) (hpc ▸ rfl)
  | shut p t reason =>
    have hpc : s.pc = .told p t reason := of_decide_eq_true hm
    exact h.move (List.Sublist.refl _) rfl (hpc ▸ rfl) (hpc ▸ rfl)
  | failAll p t reason =>
    have hpc : s.pc = .shut p t reason := of_decide_eq_true hm
    exact h.move (List.Sublist.refl _) rfl (hpc ▸ rfl) (hpc ▸ rfl)
  | fall p t reason =>
    have hpc : s.pc = .failed p t reason := of_decide_eq_true hm
    have hto : Procs (if t.wasUp then s.to .down (some reason) none else s) := by
      split_ifs
      · exact ⟨h.nodup, h.own, h.known⟩
      · exact h
    have hpc' : (if t.wasUp then s.to .down (some reason) none else s).pc = .failed p t reason := by
      split_ifs <;> exact hpc
    exact hto.move (List.Sublist.refl _) rfl (hpc' ▸ rfl) (hpc' ▸ rfl)
  | reap p t =>
    obtain ⟨hm, -⟩ := Bool.and_eq_true_iff.1 hm
    obtain ⟨hpc, hgone⟩ := Bool.and_eq_true_iff.1 hm
    have hpc : s.pc = .reaping p t := of_decide_eq_true hpc
    refine .of_nil (h.nil_of_kill (p := p) (hpc ▸ rfl) (hpc ▸ rfl) (List.Sublist.refl _) ?_)
    exact fun _ => of_decide_eq_true hgone
  | graceOver p t =>
    have hpc : s.pc = .reaping p t := of_decide_eq_true hm
    have hmove : Procs { s with pc := .killing p t } :=
      h.move (List.Sublist.refl _) rfl (hpc ▸ rfl) (hpc ▸ rfl)
    exact hmove.kill (some p)
  | reapLate p t =>
    obtain ⟨hm, -⟩ := Bool.and_eq_true_iff.1 hm
    obtain ⟨hpc, hgone⟩ := Bool.and_eq_true_iff.1 hm
    have hpc : s.pc = .killing p t := of_decide_eq_true hpc
    refine .of_nil (h.nil_of_kill (p := p) (hpc ▸ rfl) (hpc ▸ rfl) (List.Sublist.refl _) ?_)
    exact fun _ => of_decide_eq_true hgone
  | giveUp p t =>
    have hpc : s.pc = .killing p t := of_decide_eq_true hm
    exact h.move (List.Sublist.refl _) rfl (hpc ▸ rfl) (hpc ▸ rfl)
  | release p t =>
    have hpc : s.pc = .reaped p t := of_decide_eq_true hm
    refine .of_nil (h.nil_of_kill (p := p) (hpc ▸ rfl) (hpc ▸ rfl) ?_ fun hpid => ?_)
    · show List.Sublist (if s.pid = some p then _ else _ : Life).running _
      split_ifs
      · exact killProc_running s _
      · exact List.Sublist.refl _
    · show p ∉ (if s.pid = some p then _ else _ : Life).running
      rw [if_pos hpid]
      exact not_mem_killProc s p
  | conclude t msg fix =>
    have hpc : s.pc = .released t := of_decide_eq_true hm
    exact h.idle (hpc ▸ rfl) rfl
  | settle e =>
    have hpc : s.pc = .ended e := of_decide_eq_true hm
    refine h.idle (hpc ▸ rfl) ?_
    rcases settle_cases T s e with ⟨-, heq⟩ | ⟨-, -, heq⟩ | ⟨w, b, k, -, -, -, heq⟩
    all_goals exact (congrArg Life.running heq).trans rfl
  | retreat e w =>
    have hpc : s.pc = .backing e w := of_decide_eq_true hm
    exact h.idle (hpc ▸ rfl) rfl
  | woken since w =>
    have hpc : s.pc = .waiting since w := of_decide_eq_true (Bool.and_eq_true_iff.1 hm).1
    exact h.idle (hpc ▸ rfl) rfl
  | expired since w =>
    have hpc : s.pc = .waiting since w := of_decide_eq_true (Bool.and_eq_true_iff.1 hm).1
    exact h.idle (hpc ▸ rfl) rfl
  | silent reason => exact h.killWhy _
  | stopKill => exact h.kill _
  | abort =>
    obtain ⟨-, hawaits⟩ := Bool.and_eq_true_iff.1 hm
    refine .of_nil ?_
    show (if s.pid.isSome ∧ s.pid = s.pc.guarded then s.killProc s.pid else s : Life).running = []
    cases hg : s.pc.guarded with
    | none =>
      rw [if_neg fun h => Option.ne_none_iff_isSome.2 h.1 h.2]
      exact h.nil_of_proc (proc_of_awaits hawaits ▸ hg)
    | some p =>
      refine h.nil_of_kill hg (proc_of_awaits hawaits ▸ hg) ?_ fun hpid => ?_
      · split_ifs
        · exact killProc_running s _
        · exact List.Sublist.refl _
      · rw [hpid, if_pos ⟨rfl, rfl⟩]
        exact not_mem_killProc s p
  | reconnectNow v =>
    have hnow : Procs (s.reconnectNow v) := by
      rcases reconnectNow_cases s v with heq | ⟨p, -, heq⟩ | heq
      · rwa [heq]
      · rw [heq]
        exact ⟨h.nodup, h.own, h.known⟩
      · rw [heq]
        exact h.killWhy _
    exact ⟨hnow.nodup, hnow.own, hnow.known⟩
  | timer p session =>
    have hkill :
        Procs (if s.session = session ∧ s.pid = some p then s.killProc (some p) else s) := by
      split_ifs
      · exact h.kill _
      · exact h
    exact ⟨hkill.nodup, hkill.own, hkill.known⟩
  | exit p => exact h.move List.filter_sublist rfl rfl rfl
  | _ => exact ⟨h.nodup, h.own, h.known⟩

theorem procs_reach (h : Reach (Life.step T) (Life.init T) s) : Procs s :=
  h.invariant Procs (fun _ _ _ _ hi ha => (step_eq ha).2 ▸ hi.after (step_eq ha).1) (procs_init T)

/-- In every interleaving at most one node process of the link runs unkilled, it is the one the task
is responsible for, and between two sessions there is none. -/
theorem one_process (h : Reach (Life.step T) (Life.init T) s) :
    s.running.length ≤ 1 ∧ (∀ p ∈ s.running, s.pc.proc = some p) ∧
      (s.pc.proc = none → s.running = []) := by
  have hp := procs_reach h
  refine ⟨?_, hp.own, hp.nil_of_proc⟩
  rcases hrun : s.running with _ | ⟨p, _ | ⟨q, rest⟩⟩
  · exact Nat.zero_le 1
  · exact le_rfl
  · have hn := hp.nodup
    have ho := hp.own
    rw [hrun] at hn ho
    have hpq : some p = some q := (ho p (by simp)).symm.trans (ho q (by simp))
    exact absurd (Option.some.inj hpq ▸ List.mem_cons_self) (List.nodup_cons.1 hn).1

/-- A session that is up when a reconnection is asked for, with one request answered. -/
def oneSession : List Act :=
  [.start, .enter, .spawn, .register 0, .connected 0, .begin, .begin, .answer ⟨0, 1⟩, .reconnect]

theorem one_process_up :
    ∃ s, runActs (Life.step .default) (Life.init .default) oneSession = some s ∧
      s.running.length ≤ 1 ∧ (∀ p ∈ s.running, s.pc.proc = some p) ∧
      (s.pc.proc = none → s.running = []) :=
  ⟨_, rfl, one_process (T := .default) (Reach.of_runActs
    (show runActs (Life.step .default) (Life.init .default) oneSession = some _ from rfl))⟩

end EngineConsole.LinkLife
