import Mathlib

/-!
# One run of a script

The receive loop of `run_script` (`scripts.rs`), in time : two threads (`pump`) put the lines of
the script's pipes into a channel, the loop takes them out and sends them on, and looks whether the
script has exited when no line came for a poll interval. Once the output grace has passed since the
first such look after the exit it stops waiting for the pipes, which something that the script left
in the background may still hold.

A line restarts the wait, so the run ends as it should just when the output leaves the pauses that
the looks need (`ends_on_time_iff`).
-/

set_option linter.unusedSectionVars false

namespace EngineConsole

namespace ScriptRun

/-! ## The script -/

/-- A pipe of the script, under the name of its events. -/
inductive Pipe where
  | out
  | err
  deriving DecidableEq

/-- What a `pump` puts into the channel : a line, or `None` at the end of its pipe. -/
inductive Msg where
  | line (pipe : Pipe) (text : String)
  | ended (pipe : Pipe)
  deriving DecidableEq

def Msg.pipe : Msg → Pipe
  | .line pipe _ => pipe
  | .ended pipe => pipe

/-- The poll interval of the loop, in milliseconds. -/
def pollInterval : ℕ := 500

/-- `OUTPUT_GRACE_S`, in milliseconds. -/
def outputGrace : ℕ := 2000

/-- What `kill_group` of the timer waits for at most : twice its grace. -/
def killGraces : ℕ := 2 * 5000

/-- What comes before the time `n`. -/
def upTo (output : ℕ → List Msg) (n : ℕ) : List Msg :=
  (List.range n).flatMap output

/-- What happens while a script runs, at times in milliseconds from its start : what its pipes
give, when it exits and when its request is cancelled. -/
structure Behaviour where
  timeout : ℕ
  exit : ℕ
  output : ℕ → List Msg
  cancel : Option ℕ
  /-- a pipe gives nothing after its end -/
  ended : ∀ n pipe before after, upTo output n = before ++ .ended pipe :: after →
    ∀ m ∈ after, m.pipe ≠ pipe
  /-- `kill_group` ends a script that runs too long, or that is cancelled -/
  killed : exit ≤ timeout + killGraces
  stopped : ∀ c, cancel = some c → exit ≤ c + killGraces

variable (b : Behaviour)

/-- `stream.cancelled` -/
def Behaviour.cancelled (t : ℕ) : Bool :=
  b.cancel.any fun c => c ≤ t

/-! ## The loop -/

/-- The pipes that `pump` threads read. -/
def readers : ℕ := 2

/-- The state of the loop : when it began to wait, the pipes that have ended, when it found the
script exited, whether it is done with waiting, and the lines it has received and those it has
sent on. -/
structure State where
  since : ℕ
  done : ℕ
  exitedAt : Option ℕ
  finished : Bool
  received : List (ℕ × Pipe × String)
  sent : List (Pipe × String)

def State.start : State := ⟨0, 0, none, false, [], []⟩

/-- `recv_timeout` gives a message. -/
def State.receive (t : ℕ) (s : State) (m : Msg) : State :=
  if s.finished then s
  else
    match m with
    | .ended _ => { s with since := t, done := s.done + 1, finished := readers ≤ s.done + 1 }
    | .line pipe text => { s with
        since := t
        received := s.received ++ [(t, pipe, text)]
        sent := if b.cancelled t then s.sent else s.sent ++ [(pipe, text)] }

/-- `recv_timeout` gives nothing for a poll interval. The clock has moved on between two looks :
more than the grace has passed when that many milliseconds have. -/
def State.look (t : ℕ) (s : State) : State :=
  if s.finished || t < s.since + pollInterval then s
  else if b.exit ≤ t then
    let first := s.exitedAt.getD t
    { s with since := t, exitedAt := some first, finished := outputGrace ≤ t - first }
  else { s with since := t }

/-- What the loop does at the time `t`. -/
def State.tick (s : State) (t : ℕ) : State :=
  ((b.output t).foldl (State.receive b t) s).look b t

/-- The loop before the time `n`. -/
def run : ℕ → State
  | 0 => .start
  | n + 1 => (run n).tick b n

/-- The result comes when the loop is finished and the script has exited (`proc.wait`). -/
def Over (n : ℕ) : Prop :=
  (run b n).finished = true ∧ b.exit < n

/-! ## On time -/

/-- A message that is a line. -/
def Msg.line? : Msg → Option (Pipe × String)
  | .line pipe text => some (pipe, text)
  | .ended _ => none

/-- The lines that come before the time `n`, with their times. -/
def linesUpTo (n : ℕ) : List (ℕ × Pipe × String) :=
  (List.range n).flatMap fun t => (b.output t).filterMap fun m => m.line?.map fun l => (t, l)

/-- The lines that come before the time `n` and not after the request is cancelled. -/
def eventsUpTo (n : ℕ) : List (Pipe × String) :=
  (List.range n).flatMap fun t =>
    if b.cancelled t then [] else (b.output t).filterMap Msg.line?

/-- The latest time for a line : the output grace and a poll interval after the exit, and after
what the timeout and its kill allow. -/
def lastLine : ℕ :=
  min (b.exit + outputGrace + pollInterval)
    (b.timeout + killGraces + outputGrace + pollInterval)

/-- The result comes, no line is received later than the latest time, and the result comes after
all lines that came before the script exited and the request was cancelled. -/
structure EndsOnTime : Prop where
  ends : ∃ n, Over b n
  inTime : ∀ n, ∀ l ∈ (run b n).received, l.1 ≤ lastLine b
  sent : ∀ n, Over b n → List.IsPrefix (eventsUpTo b (b.exit + 1)) (run b n).sent

/-- At the time `t` a whole number of poll intervals has passed since the last message. -/
def Look (t : ℕ) : Prop :=
  ∃ since, (since = 0 ∨ b.output since ≠ []) ∧ since < t ∧ pollInterval ∣ t - since ∧
    ∀ u, since < u → u ≤ t → b.output u = []

/-- Before the time `t` the output left room for a look after the exit, and for another one when
the grace had passed. -/
def Pauses (t : ℕ) : Prop :=
  ∃ first last, Look b first ∧ Look b last ∧ b.exit ≤ first ∧ first + outputGrace ≤ last ∧ last < t

/-! ## The ends of the pipes -/

/-- The pipes that have ended. -/
def ends (ms : List Msg) : ℕ :=
  ms.countP fun m => m.line?.isNone

theorem ends_line (pipe : Pipe) (text : String) (ms : List Msg) :
    ends (.line pipe text :: ms) = ends ms := by
  simp [ends, Msg.line?]

theorem ends_ended (pipe : Pipe) (ms : List Msg) : ends (.ended pipe :: ms) = ends ms + 1 := by
  simp [ends, Msg.line?]

theorem exists_ended {ms : List Msg} (h : 0 < ends ms) :
    ∃ before pipe after, ms = before ++ .ended pipe :: after := by
  obtain ⟨m, hm, hend⟩ := List.countP_pos_iff.1 h
  obtain ⟨before, after, rfl⟩ := List.append_of_mem hm
  cases m with
  | line pipe text => cases hend
  | ended pipe => exact ⟨before, pipe, after, rfl⟩

theorem exists_two_ended : ∀ {ms : List Msg}, 2 ≤ ends ms → ∃ before pipe mid pipe' after,
    ms = before ++ .ended pipe :: (mid ++ .ended pipe' :: after)
  | [], h => by cases h
  | .line pipe text :: ms, h => by
    rw [ends_line] at h
    obtain ⟨before, p, mid, p', after, rfl⟩ := exists_two_ended h
    exact ⟨.line pipe text :: before, p, mid, p', after, rfl⟩
  | .ended pipe :: ms, h => by
    rw [ends_ended] at h
    obtain ⟨mid, p', after, rfl⟩ := exists_ended (Nat.le_of_succ_le_succ h)
    exact ⟨[], pipe, mid, p', after, rfl⟩

/-- After the ends of both pipes nothing comes. -/
theorem nil_of_ended {n : ℕ} {before after : List Msg} (h : upTo b.output n = before ++ after)
    (hends : 2 ≤ ends before) : after = [] := by
  obtain ⟨pre, p, mid, p', post, rfl⟩ := exists_two_ended hends
  have h₁ := b.ended n p pre (mid ++ .ended p' :: post ++ after) (by rw [h]; simp)
  have h₂ := b.ended n p' (pre ++ .ended p :: mid) (post ++ after) (by rw [h]; simp)
  have hne : p' ≠ p := h₁ (.ended p') (by simp)
  refine List.eq_nil_iff_forall_not_mem.2 fun m hm => ?_
  have hm₁ : m.pipe ≠ p := h₁ m (by simp [hm])
  have hm₂ : m.pipe ≠ p' := h₂ m (by simp [hm])
  cases hp : m.pipe <;> cases p <;> cases p' <;> simp_all

/-! ## Receiving -/

variable {b} {t n : ℕ} {s : State}

theorem receive_line (hopen : s.finished = false) (pipe : Pipe) (text : String) :
    s.receive b t (.line pipe text) = { s with
      since := t
      received := s.received ++ [(t, pipe, text)]
      sent := if b.cancelled t then s.sent else s.sent ++ [(pipe, text)] } := by
  rw [State.receive, hopen]
  rfl

theorem receive_ended (hopen : s.finished = false) (pipe : Pipe) :
    s.receive b t (.ended pipe) =
      { s with since := t, done := s.done + 1, finished := readers ≤ s.done + 1 } := by
  rw [State.receive, hopen]
  rfl

/-- What the messages of one moment make of the state. -/
def State.receiveAll (b : Behaviour) (t : ℕ) (s : State) (ms : List Msg) : State :=
  { s with
    since := if ms = [] then s.since else t
    done := s.done + ends ms
    finished := readers ≤ s.done + ends ms
    received := s.received ++ ms.filterMap fun m => m.line?.map fun l => (t, l)
    sent := s.sent ++ if b.cancelled t then [] else ms.filterMap Msg.line? }

/-- All messages of one moment are received, if none comes after the ends of both pipes. -/
theorem receive_all : ∀ (ms : List Msg) {s : State}, s.finished = false → s.done < readers →
    (∀ before after, ms = before ++ after → readers ≤ s.done + ends before → after = []) →
    ms.foldl (State.receive b t) s = s.receiveAll b t ms
  | [], s, hopen, hdone, _ => by
    have hfew : ¬readers ≤ s.done + ends [] := Nat.not_le.2 hdone
    rw [List.foldl_nil, State.receiveAll, if_pos rfl, decide_eq_false hfew, ← hopen]
    simp [ends]
  | .line pipe text :: ms, s, hopen, hdone, hends => by
    have hrest : ∀ before after, ms = before ++ after → readers ≤ s.done + ends before →
        after = [] := by
      intro before after hms hcount
      refine hends (.line pipe text :: before) after (by rw [hms, List.cons_append]) ?_
      rwa [ends_line]
    have ih := receive_all ms (s := { s with
      since := t
      received := s.received ++ [(t, pipe, text)]
      sent := if b.cancelled t then s.sent else s.sent ++ [(pipe, text)] }) hopen hdone hrest
    rw [List.foldl_cons, receive_line hopen, ih]
    cases hc : b.cancelled t <;> simp [State.receiveAll, ends_line, Msg.line?, hc]
  | .ended pipe :: ms, s, hopen, hdone, hends => by
    rw [List.foldl_cons, receive_ended hopen]
    by_cases hlast : readers ≤ s.done + 1
    · -- the ends of both pipes : nothing comes after it
      obtain rfl : ms = [] := hends [.ended pipe] ms rfl (by simpa [ends, Msg.line?] using hlast)
      simp [State.receiveAll, ends, Msg.line?]
    · have hrest : ∀ before after, ms = before ++ after → readers ≤ s.done + 1 + ends before →
          after = [] := by
        intro before after hms hcount
        refine hends (.ended pipe :: before) after (by rw [hms, List.cons_append]) ?_
        rw [ends_ended]
        omega
      rw [receive_all ms (decide_eq_false hlast) (Nat.not_le.1 hlast) hrest]
      have hcount : s.done + 1 + ends ms = s.done + (ends ms + 1) := by omega
      simp [State.receiveAll, ends_ended, List.filterMap_cons, Msg.line?, hcount]

/-! ## Waiting -/

/-- Since when the loop waits, before the time `n` : whole poll intervals after the last
message. -/
structure Waits (b : Behaviour) (n since : ℕ) : Prop where
  last : ∃ t, (t = 0 ∨ b.output t ≠ []) ∧ t ≤ since ∧ pollInterval ∣ since - t ∧
    ∀ u, t < u → u < n → b.output u = []
  lt : since < n ∨ since = 0
  le : n ≤ since + pollInterval

theorem not_look_of_output (h : b.output t ≠ []) : ¬Look b t := by
  rintro ⟨since, -, hlt, -, hquiet⟩
  exact h (hquiet t hlt le_rfl)

/-- The last message is the same for any two that count from it. -/
theorem last_unique {t t' : ℕ} (ht : t = 0 ∨ b.output t ≠ [])
    (hq : ∀ u, t < u → u < n → b.output u = []) (ht' : t' = 0 ∨ b.output t' ≠ [])
    (hq' : ∀ u, t' < u → u < n → b.output u = []) (hlt : t < n) (hlt' : t' < n) : t = t' := by
  rcases Nat.lt_trichotomy t t' with h | h | h
  · rcases ht' with rfl | hout
    · exact absurd h (Nat.not_lt_zero t)
    · exact absurd (hq t' h hlt') hout
  · exact h
  · rcases ht with rfl | hout
    · exact absurd h (Nat.not_lt_zero t')
    · exact absurd (hq' t h hlt) hout

theorem Waits.start : Waits b 0 0 :=
  ⟨⟨0, .inl rfl, le_rfl, Nat.dvd_zero pollInterval, fun _ _ hu => absurd hu (Nat.not_lt_zero _)⟩,
    .inr rfl, Nat.zero_le _⟩

theorem Waits.message (h : b.output n ≠ []) : Waits b (n + 1) n where
  last := ⟨n, .inr h, le_rfl, by simp, fun u hu hu' => absurd hu' (by omega)⟩
  lt := .inl (Nat.lt_succ_self n)
  le := Nat.add_le_add_left (by decide) n

/-- The loop looks at a moment without a message just when it has waited for a poll interval. -/
theorem Waits.look_iff {since : ℕ} (h : Waits b n since) (hnone : b.output n = []) :
    Look b n ↔ n = since + pollInterval := by
  obtain ⟨t, ht, hle, hdvd, hquiet⟩ := h.last
  constructor
  · rintro ⟨t', ht', hlt, hdvd', hq⟩
    have hsince : since < n := h.lt.elim id fun h0 => by omega
    obtain rfl : t = t' := last_unique ht hquiet ht' (fun u hu hu' => hq u hu hu'.le)
      (lt_of_le_of_lt hle hsince) hlt
    have hdiff : pollInterval ∣ n - since := by
      have hsub := Nat.dvd_sub hdvd' hdvd
      rwa [show n - t - (since - t) = n - since by omega] at hsub
    have hge := Nat.le_of_dvd (by omega) hdiff
    have hn := h.le
    omega
  · rintro rfl
    have hpos : 0 < pollInterval := by decide
    refine ⟨t, ht, by omega, ?_, fun u htu hu => ?_⟩
    · rw [show since + pollInterval - t = since - t + pollInterval by omega]
      exact Nat.dvd_add hdvd dvd_rfl
    · rcases Nat.lt_or_eq_of_le hu with hu | rfl
      · exact hquiet u htu hu
      · exact hnone

theorem quiet_succ {t : ℕ} (hq : ∀ u, t < u → u < n → b.output u = []) (hnone : b.output n = []) :
    ∀ u, t < u → u < n + 1 → b.output u = [] := fun u htu hu =>
  (Nat.lt_succ_iff_lt_or_eq.1 hu).elim (hq u htu) fun hu => by rw [hu, hnone]

/-- It goes on waiting. -/
theorem Waits.quiet {since : ℕ} (h : Waits b n since) (hnone : b.output n = [])
    (hn : n < since + pollInterval) : Waits b (n + 1) since := by
  obtain ⟨t, ht, hle, hdvd, hquiet⟩ := h.last
  refine ⟨⟨t, ht, hle, hdvd, quiet_succ hquiet hnone⟩, .inl ?_, hn⟩
  rcases h.lt with hlt | rfl
  · exact Nat.lt_succ_of_lt hlt
  · exact Nat.succ_pos n

/-- It waits again after a look. -/
theorem Waits.looked {since : ℕ} (h : Waits b n since) (hnone : b.output n = [])
    (hn : n = since + pollInterval) : Waits b (n + 1) n := by
  obtain ⟨t, ht, hle, hdvd, hquiet⟩ := h.last
  refine ⟨⟨t, ht, by omega, ?_, quiet_succ hquiet hnone⟩, .inl (Nat.lt_succ_self n), ?_⟩
  · rw [show n - t = since - t + pollInterval by omega]
    exact Nat.dvd_add hdvd dvd_rfl
  · exact Nat.add_le_add_left (by decide) n

/-! ## The loop goes on, or stops -/

/-- The loop is not finished before the time `n`. -/
structure Listening (b : Behaviour) (n : ℕ) (s : State) : Prop where
  going : s.finished = false
  done : s.done = ends (upTo b.output n)
  few : s.done < readers
  received : s.received = linesUpTo b n
  sent : s.sent = eventsUpTo b n
  waits : Waits b n s.since
  exited : ∀ first, s.exitedAt = some first → Look b first ∧ b.exit ≤ first ∧ first < n
  looked : ∀ t, t < n → Look b t → b.exit ≤ t →
    ∃ first, s.exitedAt = some first ∧ first ≤ t ∧ t < first + outputGrace

/-- The loop finished at the time `m`. -/
structure Stopped (b : Behaviour) (m : ℕ) (s : State) : Prop where
  finished : s.finished = true
  received : s.received = linesUpTo b (m + 1)
  sent : s.sent = eventsUpTo b (m + 1)
  why : Pauses b (m + 1) ∨ ∀ t, m < t → b.output t = []

theorem Listening.not_pauses (h : Listening b n s) : ¬Pauses b n := by
  rintro ⟨first, last, hfirst, hlast, hexit, hgrace, hn⟩
  obtain ⟨f, hf, hle, -⟩ := h.looked first (by omega) hfirst hexit
  obtain ⟨f', hf', -, hlt⟩ := h.looked last hn hlast (by omega)
  obtain rfl := Option.some.inj (hf.symm.trans hf')
  omega

theorem Listening.exited_succ (h : Listening b n s) (first : ℕ) (hf : s.exitedAt = some first) :
    Look b first ∧ b.exit ≤ first ∧ first < n + 1 :=
  (h.exited first hf).imp_right fun h => ⟨h.1, Nat.lt_succ_of_lt h.2⟩

theorem listening_start : Listening b 0 .start where
  going := rfl
  done := rfl
  few := by decide
  received := rfl
  sent := rfl
  waits := .start
  exited _ h := by cases h
  looked t ht := absurd ht (Nat.not_lt_zero t)

theorem linesUpTo_succ (b : Behaviour) (n : ℕ) : linesUpTo b (n + 1) =
    linesUpTo b n ++ (b.output n).filterMap fun m => m.line?.map fun l => (n, l) := by
  simp [linesUpTo, List.range_succ]

theorem eventsUpTo_succ (b : Behaviour) (n : ℕ) : eventsUpTo b (n + 1) =
    eventsUpTo b n ++ if b.cancelled n then [] else (b.output n).filterMap Msg.line? := by
  simp [eventsUpTo, List.range_succ]

theorem upTo_succ (output : ℕ → List Msg) (n : ℕ) :
    upTo output (n + 1) = upTo output n ++ output n := by
  simp [upTo, List.range_succ]

theorem ends_append (ms more : List Msg) : ends (ms ++ more) = ends ms + ends more :=
  List.countP_append

theorem upTo_le (output : ℕ → List Msg) {n m : ℕ} (h : n ≤ m) :
    ∃ mid, upTo output m = upTo output n ++ mid := by
  induction m, h using Nat.le_induction with
  | base => exact ⟨[], (List.append_nil _).symm⟩
  | succ m h ih =>
    obtain ⟨mid, ih⟩ := ih
    exact ⟨mid ++ output m, by rw [upTo_succ, ih, List.append_assoc]⟩

/-- Nothing comes after both pipes have ended. -/
theorem output_of_ended (hends : readers ≤ ends (upTo b.output n)) (ht : n ≤ t) :
    b.output t = [] := by
  obtain ⟨mid, hmid⟩ := upTo_le b.output ht
  refine nil_of_ended b (upTo_succ b.output t) ?_
  rw [hmid, ends_append]
  exact Nat.le_add_right_of_le hends

/-- What came so far, and the messages of the next moment. -/
theorem Listening.receive (h : Listening b n s) :
    (b.output n).foldl (State.receive b n) s = s.receiveAll b n (b.output n) := by
  refine receive_all _ h.going h.few fun before after hms hcount => ?_
  have hall : upTo b.output (n + 1) = upTo b.output n ++ before ++ after := by
    rw [upTo_succ, hms, List.append_assoc]
  refine nil_of_ended b hall ?_
  rw [ends_append, ← h.done]
  exact hcount

theorem tick_message (h : Listening b n s) (hsome : b.output n ≠ []) :
    s.tick b n = s.receiveAll b n (b.output n) := by
  rw [State.tick, h.receive, State.look]
  have hnew : n < (s.receiveAll b n (b.output n)).since + pollInterval := by
    rw [State.receiveAll, if_neg hsome]
    exact Nat.lt_add_of_pos_right (by decide)
  rw [if_pos (by simp [hnew])]

/-- Messages come. -/
theorem Listening.message (h : Listening b n s) (hsome : b.output n ≠ []) :
    Listening b (n + 1) (s.tick b n) ∨ Stopped b n (s.tick b n) := by
  rw [tick_message h hsome]
  have hdone : s.done + ends (b.output n) = ends (upTo b.output (n + 1)) := by
    rw [upTo_succ, ends_append, h.done]
  by_cases hlast : readers ≤ s.done + ends (b.output n)
  · refine .inr ⟨decide_eq_true hlast, ?_, ?_, .inr fun t ht => ?_⟩
    · rw [linesUpTo_succ, ← h.received]
      rfl
    · rw [eventsUpTo_succ, ← h.sent]
      rfl
    · rw [hdone] at hlast
      exact output_of_ended hlast ht
  · refine .inl {
      going := decide_eq_false hlast
      done := hdone
      few := Nat.not_le.1 hlast
      received := by
        rw [linesUpTo_succ, ← h.received]
        rfl
      sent := by
        rw [eventsUpTo_succ, ← h.sent]
        rfl
      waits := by
        rw [State.receiveAll, if_neg hsome]
        exact .message hsome
      exited := h.exited_succ
      looked := fun t ht hlook => ?_ }
    rcases Nat.lt_succ_iff_lt_or_eq.1 ht with ht | rfl
    · exact h.looked t ht hlook
    · exact absurd hlook (not_look_of_output hsome)

/-- A moment without messages changes nothing of what came. -/
theorem Listening.nothing (h : Listening b n s) (hnone : b.output n = []) :
    s.done = ends (upTo b.output (n + 1)) ∧ s.received = linesUpTo b (n + 1) ∧
      s.sent = eventsUpTo b (n + 1) := by
  refine ⟨?_, ?_, ?_⟩
  · rw [upTo_succ, hnone, List.append_nil, h.done]
  · rw [linesUpTo_succ, hnone, h.received]
    simp
  · rw [eventsUpTo_succ, hnone, h.sent]
    simp

theorem tick_nothing (hnone : b.output n = []) : s.tick b n = s.look b n := by
  rw [State.tick, hnone]
  rfl

/-- No message comes, and it is not yet time for a look. -/
theorem Listening.wait (h : Listening b n s) (hnone : b.output n = [])
    (hn : n < s.since + pollInterval) : Listening b (n + 1) (s.tick b n) := by
  obtain ⟨hdone, hreceived, hsent⟩ := h.nothing hnone
  rw [tick_nothing hnone, State.look, if_pos (by simp [hn])]
  refine ⟨h.going, hdone, h.few, hreceived, hsent, h.waits.quiet hnone hn, h.exited_succ, ?_⟩
  intro t ht hlook
  rcases Nat.lt_succ_iff_lt_or_eq.1 ht with ht | rfl
  · exact h.looked t ht hlook
  · exact absurd ((h.waits.look_iff hnone).1 hlook) (Nat.ne_of_lt hn)

/-- No message comes for a poll interval. -/
theorem Listening.look (h : Listening b n s) (hnone : b.output n = [])
    (hn : n = s.since + pollInterval) :
    Listening b (n + 1) (s.tick b n) ∨ Stopped b n (s.tick b n) := by
  obtain ⟨hdone, hreceived, hsent⟩ := h.nothing hnone
  have hlook : Look b n := (h.waits.look_iff hnone).2 hn
  have hwaits := h.waits.looked hnone hn
  rw [tick_nothing hnone, State.look, if_neg (by simp [h.going, hn])]
  by_cases hexit : b.exit ≤ n
  · rw [if_pos hexit]
    dsimp only
    have hpos : 0 < outputGrace := by decide
    cases hfirst : s.exitedAt with
    | none =>
      -- the first look after the exit
      have hnew : ¬outputGrace ≤ n - n := by omega
      refine .inl ⟨decide_eq_false hnew, hdone, h.few, hreceived, hsent, hwaits, ?_, ?_⟩
      · intro first hf
        obtain rfl := Option.some.inj hf
        exact ⟨hlook, hexit, Nat.lt_succ_self n⟩
      · intro t ht hlook' hexit'
        rcases Nat.lt_succ_iff_lt_or_eq.1 ht with ht | rfl
        · obtain ⟨f, hf, -⟩ := h.looked t ht hlook' hexit'
          rw [hfirst] at hf
          cases hf
        · exact ⟨t, rfl, le_rfl, Nat.lt_add_of_pos_right hpos⟩
    | some first =>
      obtain ⟨hlook₁, hexit₁, hlt⟩ := h.exited first hfirst
      by_cases hgrace : outputGrace ≤ n - first
      · refine .inr ⟨decide_eq_true hgrace, hreceived, hsent, .inl ?_⟩
        exact ⟨first, n, hlook₁, hlook, hexit₁, by omega, Nat.lt_succ_self n⟩
      · refine .inl ⟨decide_eq_false hgrace, hdone, h.few, hreceived, hsent, hwaits, ?_, ?_⟩
        · intro f hf
          obtain rfl := Option.some.inj hf
          exact ⟨hlook₁, hexit₁, Nat.lt_succ_of_lt hlt⟩
        · intro t ht hlook' hexit'
          rcases Nat.lt_succ_iff_lt_or_eq.1 ht with ht | rfl
          · obtain ⟨f, hf, hf'⟩ := h.looked t ht hlook' hexit'
            rw [hfirst] at hf
            exact ⟨f, hf, hf'⟩
          · exact ⟨first, rfl, hlt.le, by omega⟩
  · rw [if_neg hexit]
    refine .inl ⟨h.going, hdone, h.few, hreceived, hsent, hwaits, h.exited_succ, ?_⟩
    intro t ht hlook' hexit'
    rcases Nat.lt_succ_iff_lt_or_eq.1 ht with ht | rfl
    · exact h.looked t ht hlook' hexit'
    · exact absurd hexit' hexit

theorem Listening.tick (h : Listening b n s) :
    Listening b (n + 1) (s.tick b n) ∨ Stopped b n (s.tick b n) := by
  by_cases hnone : b.output n = []
  · rcases Nat.lt_or_eq_of_le h.waits.le with hn | hn
    · exact .inl (h.wait hnone hn)
    · exact h.look hnone hn
  · exact h.message hnone

theorem receive_finished (h : s.finished = true) (ms : List Msg) :
    ms.foldl (State.receive b t) s = s := by
  induction ms with
  | nil => rfl
  | cons m ms ih =>
    have hm : s.receive b t m = s := if_pos h
    rw [List.foldl_cons, hm, ih]

theorem tick_finished (h : s.finished = true) : s.tick b t = s := by
  rw [State.tick, receive_finished h, State.look, if_pos (by simp [h])]

/-- The loop has gone on until now, or stopped once. -/
theorem run_cases (b : Behaviour) (n : ℕ) : Listening b n (run b n) ∨
    ∃ m < n, Listening b m (run b m) ∧ Stopped b m (run b n) := by
  induction n with
  | zero => exact .inl listening_start
  | succ n ih =>
    rcases ih with h | ⟨m, hm, h, hstop⟩
    · rcases h.tick with hnext | hstop
      · exact .inl hnext
      · exact .inr ⟨n, Nat.lt_succ_self n, h, hstop⟩
    · refine .inr ⟨m, Nat.lt_succ_of_lt hm, h, ?_⟩
      rwa [run, tick_finished hstop.finished]

theorem run_finished {m : ℕ} (h : (run b n).finished = true) (hm : n ≤ m) :
    run b m = run b n := by
  induction m, hm using Nat.le_induction with
  | base => rfl
  | succ m hm ih => rw [run, ih, tick_finished h]

/-- The loop was going on at every time before. -/
theorem listening_of_le {m : ℕ} (h : Listening b n (run b n)) (hm : m ≤ n) :
    Listening b m (run b m) := by
  rcases run_cases b m with h' | ⟨k, -, -, hstop⟩
  · exact h'
  · have heq := run_finished hstop.finished hm
    have hgoing := h.going
    rw [heq, hstop.finished] at hgoing
    cases hgoing

/-! ## The condition -/

theorem mem_linesUpTo {l : ℕ × Pipe × String} : l ∈ linesUpTo b n ↔
    l.1 < n ∧ .line l.2.1 l.2.2 ∈ b.output l.1 := by
  obtain ⟨t, pipe, text⟩ := l
  simp only [linesUpTo, List.mem_flatMap, List.mem_range, List.mem_filterMap,
    Option.map_eq_some_iff, Prod.mk.injEq]
  constructor
  · rintro ⟨t', ht', m, hm, l, hl, rfl, rfl⟩
    cases m with
    | line p x =>
      obtain ⟨rfl, rfl⟩ := Prod.mk.inj (Option.some.inj hl)
      exact ⟨ht', hm⟩
    | ended p => cases hl
  · rintro ⟨ht, hm⟩
    exact ⟨t, ht, _, hm, _, rfl, rfl, rfl⟩

theorem eventsUpTo_prefix (b : Behaviour) {m : ℕ} (h : n ≤ m) :
    List.IsPrefix (eventsUpTo b n) (eventsUpTo b m) := by
  induction m, h using Nat.le_induction with
  | base => exact List.prefix_rfl
  | succ m h ih =>
    rw [eventsUpTo_succ]
    exact ih.trans (List.prefix_append _ _)

theorem eventsUpTo_quiet {m : ℕ} (hquiet : ∀ t, n ≤ t → b.output t = []) (h : n ≤ m) :
    eventsUpTo b m = eventsUpTo b n := by
  induction m, h using Nat.le_induction with
  | base => rfl
  | succ m h ih =>
    rw [eventsUpTo_succ, hquiet m h, ih]
    simp

theorem Pauses.mono {m : ℕ} (h : Pauses b n) (hm : n ≤ m) : Pauses b m := by
  obtain ⟨first, last, hfirst, hlast, hexit, hgrace, hn⟩ := h
  exact ⟨first, last, hfirst, hlast, hexit, hgrace, hn.trans_le hm⟩

theorem Pauses.exit_lt (h : Pauses b n) : b.exit < n := by
  obtain ⟨first, last, -, -, hexit, hgrace, hn⟩ := h
  omega

/-- A line is received while the loop goes on. -/
theorem listening_of_received {l : ℕ × Pipe × String} (h : l ∈ (run b n).received) :
    .line l.2.1 l.2.2 ∈ b.output l.1 ∧ Listening b l.1 (run b l.1) := by
  rcases run_cases b n with hl | ⟨m, hm, hl, hstop⟩
  · rw [hl.received] at h
    obtain ⟨ht, hline⟩ := mem_linesUpTo.1 h
    exact ⟨hline, listening_of_le hl ht.le⟩
  · rw [hstop.received] at h
    obtain ⟨ht, hline⟩ := mem_linesUpTo.1 h
    exact ⟨hline, listening_of_le hl (Nat.le_of_lt_succ ht)⟩

/-- A line that is not received comes after the pauses. -/
theorem pauses_of_not_received {pipe : Pipe} {text : String} (h : .line pipe text ∈ b.output t)
    (hno : (t, pipe, text) ∉ (run b (t + 1)).received) : Pauses b t := by
  rcases run_cases b (t + 1) with hl | ⟨m, hm, -, hstop⟩
  · rw [hl.received] at hno
    exact absurd (mem_linesUpTo.2 ⟨Nat.lt_succ_self t, h⟩) hno
  · rw [hstop.received] at hno
    rcases Nat.lt_succ_iff_lt_or_eq.1 hm with hlt | rfl
    · rcases hstop.why with hp | hnone
      · exact hp.mono hlt
      · rw [hnone t hlt] at h
        cases h
    · exact absurd (mem_linesUpTo.2 ⟨Nat.lt_succ_self m, h⟩) hno

/-- Two pipes end twice. -/
theorem exists_quiet_ends (h : ∀ n, ends (upTo b.output n) < readers) :
    ∃ n, ∀ t, n ≤ t → ∀ pipe, .ended pipe ∉ b.output t := by
  by_contra hno
  push Not at hno
  obtain ⟨t₁, -, p₁, h₁⟩ := hno 0
  obtain ⟨t₂, hle, p₂, h₂⟩ := hno (t₁ + 1)
  have hends {t : ℕ} {pipe : Pipe} (h : .ended pipe ∈ b.output t) : 0 < ends (b.output t) :=
    List.countP_pos_iff.2 ⟨_, h, rfl⟩
  have hcount := h (t₂ + 1)
  obtain ⟨mid, hmid⟩ := upTo_le b.output hle
  rw [upTo_succ, hmid, upTo_succ, ends_append, ends_append, ends_append] at hcount
  have hpos₁ := hends h₁
  have hpos₂ := hends h₂
  have htwo : readers = 2 := rfl
  omega

/-- After the last message there are looks without end. -/
theorem Waits.looks {since : ℕ} (h : Waits b n since) (hquiet : ∀ t, n ≤ t → b.output t = [])
    (k : ℕ) : Look b (since + pollInterval * (k + 1)) := by
  obtain ⟨t, ht, hle, hdvd, hq⟩ := h.last
  have hpos : 0 < pollInterval * (k + 1) := Nat.mul_pos (by decide) (Nat.succ_pos k)
  refine ⟨t, ht, by omega, ?_, fun u hu _ => ?_⟩
  · rw [show since + pollInterval * (k + 1) - t = since - t + pollInterval * (k + 1) by omega]
    exact Nat.dvd_add hdvd (Nat.dvd_mul_right _ _)
  · rcases Nat.lt_or_ge u n with hun | hun
    · exact hq u hu hun
    · exact hquiet u hun

/-- The result comes, if no line keeps the loop going. -/
theorem exists_over
    (h : ∀ t pipe text, .line pipe text ∈ b.output t → lastLine b < t → Pauses b t) :
    ∃ n, Over b n := by
  by_contra hno
  push Not at hno
  have hall (n : ℕ) : Listening b n (run b n) := by
    rcases run_cases b n with hl | ⟨m, hm, -, hstop⟩
    · exact hl
    · have hlater := run_finished hstop.finished (Nat.le_max_left n (b.exit + 1))
      refine absurd ⟨?_, ?_⟩ (hno (max n (b.exit + 1)))
      · rw [hlater, hstop.finished]
      · exact Nat.lt_of_succ_le (Nat.le_max_right n (b.exit + 1))
  obtain ⟨k, hk⟩ := exists_quiet_ends fun n => (hall n).done ▸ (hall n).few
  have hquiet : ∀ t, max k (lastLine b + 1) ≤ t → b.output t = [] := by
    intro t ht
    refine List.eq_nil_iff_forall_not_mem.2 fun m hm => ?_
    cases m with
    | line pipe text =>
      have hlate : lastLine b < t := Nat.lt_of_succ_le ((Nat.le_max_right ..).trans ht)
      exact (hall t).not_pauses (h t pipe text hm hlate)
    | ended pipe => exact hk t ((Nat.le_max_left ..).trans ht) pipe hm
  obtain ⟨since, hwaits⟩ : ∃ since, Waits b (max k (lastLine b + 1)) since :=
    ⟨_, (hall _).waits⟩
  have hfirst := hwaits.looks hquiet b.exit
  have hlast := hwaits.looks hquiet (b.exit + 4)
  have hgrace : outputGrace = pollInterval * 4 := rfl
  have hpoll : pollInterval = 500 := rfl
  refine (hall _).not_pauses ⟨_, _, hfirst, hlast, ?_, ?_, Nat.lt_succ_self _⟩
  · rw [hpoll]
    omega
  · rw [hgrace, hpoll]
    omega

/-- The run ends on time just when every line that comes later than the latest time comes after
the pauses that the looks of the loop need. -/
theorem ends_on_time_iff (b : Behaviour) : EndsOnTime b ↔
    ∀ t pipe text, .line pipe text ∈ b.output t → lastLine b < t → Pauses b t := by
  constructor
  · intro h t pipe text hline hlate
    refine pauses_of_not_received hline fun hreceived => ?_
    exact absurd (h.inTime _ _ hreceived) (Nat.not_le.2 hlate)
  · intro h
    refine ⟨exists_over h, ?_, ?_⟩
    · intro n l hl
      by_contra hlate
      obtain ⟨hline, hlistening⟩ := listening_of_received hl
      exact hlistening.not_pauses (h _ _ _ hline (Nat.not_le.1 hlate))
    · intro n hover
      rcases run_cases b n with hl | ⟨m, hm, -, hstop⟩
      · rw [Over, hl.going] at hover
        cases hover.1
      · rw [hstop.sent]
        rcases Nat.lt_or_ge m b.exit with hlt | hge
        · rcases hstop.why with hp | hnone
          · have hexit := hp.exit_lt
            omega
          · rw [eventsUpTo_quiet (fun t ht => hnone t ht) (Nat.succ_le_succ hlt.le)]
        · exact eventsUpTo_prefix b (Nat.succ_le_succ hge)

/-! ## A script that leaves something behind -/

theorem no_ended_upTo {output : ℕ → List Msg} (h : ∀ t pipe, .ended pipe ∉ output t)
    {pipe : Pipe} {before after : List Msg} : upTo output n ≠ before ++ .ended pipe :: after := by
  intro hsplit
  have hmem : .ended pipe ∈ upTo output n := by
    rw [hsplit]
    simp
  obtain ⟨t, -, ht⟩ := List.mem_flatMap.1 hmem
  exact h t pipe ht

/-- The script exits after a second and leaves a process in the background that prints a line
every 400 ms. -/
def chatter : Behaviour where
  timeout := 60 * 1000
  exit := 1000
  output t := if 400 ∣ t then [.line .out "."] else []
  cancel := none
  ended n pipe before after h := by
    refine absurd h (no_ended_upTo fun t pipe => ?_)
    split_ifs <;> simp
  killed := by decide
  stopped c h := by cases h

theorem chatter_not_look (t : ℕ) : ¬Look chatter t := by
  rintro ⟨since, -, hlt, hdvd, hquiet⟩
  have hle : pollInterval ≤ t - since := Nat.le_of_dvd (by omega) hdvd
  have hpoll : pollInterval = 500 := rfl
  have hnone := hquiet (400 * (since / 400 + 1)) (by omega) (by omega)
  have hsome : chatter.output (400 * (since / 400 + 1)) = [.line .out "."] :=
    if_pos (Nat.dvd_mul_right ..)
  rw [hsome] at hnone
  cases hnone

/-- It keeps the run going. -/
theorem chatter_not_on_time : ¬EndsOnTime chatter := by
  intro h
  have hline : .line .out "." ∈ chatter.output 3600 := by decide
  have hreceived : (3600, .out, ".") ∈ (run chatter 3601).received := by
    by_contra hno
    obtain ⟨first, -, hfirst, -⟩ := pauses_of_not_received hline hno
    exact chatter_not_look first hfirst
  exact absurd (h.inTime _ _ hreceived) (by decide)

end ScriptRun

end EngineConsole
