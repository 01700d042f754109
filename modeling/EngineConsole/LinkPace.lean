import EngineConsole.LinkLife

/-!
# The pace of a link's attempts

An attempt is paid for by a wait that ran out or by a call of `reconnect`, but for the first
(`Paced`). The waits double from the least to the most and start over after a connection that was
stable, so a machine that fails is not tried more often than once per least wait
(`attempts_paced`).
-/

set_option linter.unusedSectionVars false

namespace EngineConsole.LinkLife

variable {T : Timing} {s s' : Life} {a : Act} {p : ℕ}

/-! ## The pace of the attempts -/

/-- What the pace depends on. -/
structure Tally where
  attempts : ℕ
  kicks : ℕ
  slept : List ℕ
  wake : Bool
  stopping : Bool
  backoff : ℕ
  streak : ℕ
  now : ℕ

def Life.tally (s : Life) : Tally :=
  ⟨s.attempts, s.kicks, s.slept, s.wake, s.stopping, s.backoff, s.streak, s.now⟩

/-- The next attempt is due. -/
def Pc.due : Pc → Bool
  | .idle | .top => true
  | _ => false

/-- How long the task is about to wait. -/
def Pc.pause : Pc → Option ℕ
  | .backing _ w | .waiting _ w => some w
  | _ => none

/-- The forced wait of the attempt that is under way. -/
def Pc.forced : Pc → Option ℕ
  | .talked _ t | .told _ t _ | .shut _ t _ | .failed _ t _ | .reaping _ t | .killing _ t
  | .reaped _ t | .released t => t.wait
  | .ended e => e.wait
  | _ => none

/-- A wait for a person, or a power of two times the least one, up to the most. -/
def Allowed (T : Timing) (w : ℕ) : Prop :=
  w = T.fixRetry ∨ ∃ k, w = min (T.backoffMin * 2 ^ k) T.backoffMax

/-- An attempt that the task may still make before its next wait. -/
def Tally.spare (c : Tally) (pc : Pc) : ℕ :=
  if pc.due || c.wake then 1 else 0

/-- Attempts are paid for by waits and by calls of `reconnect`. -/
structure Paced (T : Timing) (c : Tally) (pc : Pc) : Prop where
  slept : c.slept.sum ≤ c.now
  since : ∀ since w, pc = .waiting since w → c.slept.sum ≤ since
  paid : c.attempts ≤ 1 + c.slept.length + c.kicks
  spare : c.stopping = false → c.attempts + c.spare pc ≤ 1 + c.slept.length + c.kicks
  backoff : c.backoff = min (T.backoffMin * 2 ^ c.streak) T.backoffMax
  allowed : ∀ w ∈ c.slept, Allowed T w
  pause : ∀ w, pc.pause = some w → Allowed T w
  forced : ∀ w, pc.forced = some w → w = T.fixRetry

variable {c : Tally} {pc pc' : Pc}

/-- The task moves on without a wait. -/
theorem Paced.move (h : Paced T c pc) (hdue : pc'.due = true → pc.due = true)
    (hpause : pc'.pause = none) (hforced : ∀ w, pc'.forced = some w → w = T.fixRetry) :
    Paced T c pc' where
  slept := h.slept
  since since w hw := by
    rw [hw] at hpause
    exact absurd hpause (Option.some_ne_none w)
  paid := h.paid
  spare hstop := by
    refine le_trans (Nat.add_le_add_left ?_ _) (h.spare hstop)
    unfold Tally.spare
    split_ifs with h' ht
    · exact le_rfl
    · exact absurd (Bool.or_eq_true_iff.2 ((Bool.or_eq_true_iff.1 h').imp_left hdue)) ht
    · exact Nat.zero_le _
    · exact le_rfl
  backoff := h.backoff
  allowed := h.allowed
  pause w hw := absurd (hpause.symm.trans hw) (Option.some_ne_none w).symm
  forced := hforced

/-- A wake-up lets the task make one more attempt, and is paid for or stops the link. -/
theorem Paced.idle (h : Paced T c pc) (hpc : pc.due = false) (hwake : c.wake = true) :
    Paced T c .top where
  slept := h.slept
  since _ _ hw := Pc.noConfusion hw
  paid := h.paid
  spare hstop := by
    have hspare := h.spare hstop
    rwa [Tally.spare, hpc, hwake] at hspare
  backoff := h.backoff
  allowed := h.allowed
  pause _ hw := absurd hw (Option.some_ne_none _).symm
  forced _ hw := absurd hw (Option.some_ne_none _).symm

theorem paced_init (hT : T.backoffMin ≤ T.backoffMax) :
    Paced T (Life.init T).tally (Life.init T).pc where
  slept := Nat.zero_le _
  since _ _ hw := Pc.noConfusion hw
  paid := Nat.zero_le _
  spare _ := le_rfl
  backoff := by
    show T.backoffMin = min (T.backoffMin * 2 ^ 0) T.backoffMax
    rw [pow_zero, Nat.mul_one, min_eq_left hT]
  allowed _ hw := absurd hw List.not_mem_nil
  pause _ hw := absurd hw (Option.some_ne_none _).symm
  forced _ hw := absurd hw (Option.some_ne_none _).symm

theorem killProc_tally (s : Life) (o : Option ℕ) :
    (s.killProc o).tally = s.tally ∧ (s.killProc o).pc = s.pc := by
  cases o with
  | none => exact ⟨rfl, rfl⟩
  | some p => exact ⟨rfl, rfl⟩

theorem Paced.kill (h : Paced T s.tally s.pc) (o : Option ℕ) :
    Paced T (s.killProc o).tally (s.killProc o).pc := by
  rwa [(killProc_tally s o).1, (killProc_tally s o).2]

theorem Paced.killWhy (h : Paced T s.tally s.pc) (reason : Option String) :
    Paced T (s.kill reason).tally (s.kill reason).pc :=
  Paced.kill (s := { s with dropReason := s.dropReason.or reason }) h s.pid

theorem Paced.killIf (h : Paced T s.tally s.pc) (b : Prop) [Decidable b] (o : Option ℕ) :
    Paced T (if b then s.killProc o else s).tally (if b then s.killProc o else s).pc := by
  split_ifs
  · exact h.kill o
  · exact h

/-- Doubling the backoff counts one more failure. -/
theorem min_double (T : Timing) (k : ℕ) :
    min (min (T.backoffMin * 2 ^ k) T.backoffMax * 2) T.backoffMax =
      min (T.backoffMin * 2 ^ (k + 1)) T.backoffMax := by
  have hpow : T.backoffMin * 2 ^ (k + 1) = T.backoffMin * 2 ^ k * 2 := by
    rw [pow_succ, mul_assoc]
  omega

/-- What an ordinary failure waits, and the backoff after it. -/
theorem ordinary_eq (hT : T.backoffMin ≤ T.backoffMax) (h : Paced T s.tally s.pc) (up : ℕ) :
    ∃ k, s.ordinary T up = min (T.backoffMin * 2 ^ k) T.backoffMax ∧
      (if T.stable ≤ up then 1 else s.streak + 1) = k + 1 := by
  unfold Life.ordinary
  split_ifs
  · refine ⟨0, ?_, rfl⟩
    rw [pow_zero, Nat.mul_one, min_eq_left hT]
  · exact ⟨s.streak, h.backoff, rfl⟩

theorem Paced.settle (hT : T.backoffMin ≤ T.backoffMax) {e : End} (h : Paced T s.tally s.pc)
    (hpc : s.pc = .ended e) : Paced T (s.settle T e).tally (s.settle T e).pc := by
  rcases settle_cases T s e with ⟨-, heq⟩ | ⟨-, hwake, heq⟩ | ⟨w, b, k, hgo, hwake, hback, heq⟩
  · rw [heq]
    exact h.move (fun hd => absurd hd Bool.false_ne_true) rfl fun _ hw =>
      absurd hw (Option.some_ne_none _).symm
  · rw [heq]
    exact h.idle (hpc ▸ rfl) hwake
  · have hspare := h.spare hgo
    rw [heq]
    have hdue : s.tally.spare s.pc = 0 := by
      rw [Tally.spare, hpc]
      exact if_neg fun ht => Bool.false_ne_true (hwake.symm.trans ht)
    rw [hdue] at hspare
    have hall : Allowed T w ∧ b = min (T.backoffMin * 2 ^ k) T.backoffMax := by
      rcases hback with ⟨hw, rfl, rfl⟩ | ⟨-, rfl, rfl, rfl⟩
      · exact ⟨.inl (h.forced w (hpc ▸ hw)), h.backoff⟩
      · obtain ⟨j, hj, hstreak⟩ := ordinary_eq hT h e.up
        refine ⟨.inr ⟨j, hj⟩, ?_⟩
        rw [hstreak, hj]
        exact min_double T j
    refine ⟨h.slept, fun _ _ hw => Pc.noConfusion hw, h.paid, fun _ => ?_, hall.2, h.allowed,
      fun v hv => ?_, fun _ hw => absurd hw (Option.some_ne_none _).symm⟩
    · show s.attempts + (if (false || s.wake) then 1 else 0) ≤ _
      rw [hwake]
      exact hspare
    · exact Option.some.inj hv ▸ hall.1

/-- Every step keeps the invariant. -/
theorem Paced.after (hT : T.backoffMin ≤ T.backoffMax) (h : Paced T s.tally s.pc)
    (hm : s.may a = true) : Paced T (s.after T a).tally (s.after T a).pc := by
  have hnone : ∀ w, (none : Option ℕ) = some w → w = T.fixRetry := fun w hw =>
    absurd hw (Option.some_ne_none w).symm
  have hlate : ∀ {b : Bool}, false = true → b = true := fun hd => absurd hd Bool.false_ne_true
  cases a with
  | start =>
    have hpc : s.pc = .idle := of_decide_eq_true hm
    exact h.move (fun _ => hpc ▸ rfl) rfl hnone
  | enter =>
    have hpc : s.pc = .top := of_decide_eq_true hm
    show Paced T (if s.stopping then _ else _ : Life).tally (if s.stopping then _ else _ : Life).pc
    split_ifs with hstop
    · exact h.move hlate rfl hnone
    · have hspare := h.spare (Bool.eq_false_iff.2 hstop)
      rw [Tally.spare, hpc] at hspare
      exact ⟨h.slept, fun _ _ hw => Pc.noConfusion hw, hspare, fun _ => hspare, h.backoff,
        h.allowed, fun w hw => absurd hw (Option.some_ne_none w).symm, hnone⟩
  | noStart msg fix =>
    refine h.move hlate rfl fun w hw => ?_
    have hw : (if fix then some T.fixRetry else none) = some w := hw
    split_ifs at hw
    exact (Option.some.inj hw).symm
  | spawn => exact h.move hlate rfl hnone
  | register p =>
    have h' : Paced T s.tally (.talking p) := h.move hlate rfl hnone
    exact Paced.kill h' _
  | badHello p kill err =>
    have hkill : Paced T (if kill then s.kill none else s).tally
        (if kill then s.kill none else s).pc := by
      split_ifs
      · exact h.killWhy none
      · exact h
    exact hkill.move hlate rfl hnone
  | mismatch p msg => exact h.move hlate rfl fun w hw => (Option.some.inj hw).symm
  | connected p =>
    have h' : Paced T s.tally (.reading p s.now) := h.move hlate rfl hnone
    refine ⟨h'.slept, h'.since, h'.paid, fun hstop => ?_, h'.backoff, h'.allowed, h'.pause,
      h'.forced⟩
    exact (Nat.add_zero _).le.trans h'.paid
  | hangUp p since err =>
    have hkill : Paced T (if err.isSome then s.kill none else s).tally
        (if err.isSome then s.kill none else s).pc := by
      split_ifs
      · exact h.killWhy none
      · exact h
    exact hkill.move hlate rfl hnone
  | explain p t =>
    have hpc : s.pc = .talked p t := of_decide_eq_true hm
    exact h.move hlate rfl fun w hw => h.forced w (hpc ▸ hw)
  | shut p t reason =>
    have hpc : s.pc = .told p t reason := of_decide_eq_true hm
    exact h.move hlate rfl fun w hw => h.forced w (hpc ▸ hw)
  | failAll p t reason =>
    have hpc : s.pc = .shut p t reason := of_decide_eq_true hm
    exact h.move hlate rfl fun w hw => h.forced w (hpc ▸ hw)
  | fall p t reason =>
    have hpc : s.pc = .failed p t reason := of_decide_eq_true hm
    have h' : Paced T s.tally (.reaping p t) :=
      h.move hlate rfl fun w hw => h.forced w (hpc ▸ hw)
    show Paced T (if t.wasUp then s.to .down (some reason) none else s).tally _
    split_ifs <;> exact h'
  | reap p t =>
    obtain ⟨hm, -⟩ := Bool.and_eq_true_iff.1 hm
    have hpc : s.pc = .reaping p t := of_decide_eq_true (Bool.and_eq_true_iff.1 hm).1
    exact h.move hlate rfl fun w hw => h.forced w (hpc ▸ hw)
  | graceOver p t =>
    have hpc : s.pc = .reaping p t := of_decide_eq_true hm
    exact h.move hlate rfl fun w hw => h.forced w (hpc ▸ hw)
  | reapLate p t =>
    obtain ⟨hm, -⟩ := Bool.and_eq_true_iff.1 hm
    have hpc : s.pc = .killing p t := of_decide_eq_true (Bool.and_eq_true_iff.1 hm).1
    exact h.move hlate rfl fun w hw => h.forced w (hpc ▸ hw)
  | giveUp p t =>
    have hpc : s.pc = .killing p t := of_decide_eq_true hm
    exact h.move hlate rfl fun w hw => h.forced w (hpc ▸ hw)
  | release p t =>
    have hpc : s.pc = .reaped p t := of_decide_eq_true hm
    have h' : Paced T s.tally (.released t) :=
      h.move hlate rfl fun w hw => h.forced w (hpc ▸ hw)
    show Paced T (if s.pid = some p then s.killProc (some p) else s).tally _
    split_ifs <;> exact h'
  | conclude t msg fix =>
    have hpc : s.pc = .released t := of_decide_eq_true hm
    refine h.move hlate rfl fun w hw => ?_
    have hw : (endOf T s t msg fix).wait = some w := hw
    unfold endOf at hw
    split at hw
    · exact h.forced w (hpc ▸ hw)
    · have hw : (if fix then some T.fixRetry else none) = some w := hw
      split_ifs at hw
      exact (Option.some.inj hw).symm
  | settle e =>
    have hpc : s.pc = .ended e := of_decide_eq_true hm
    exact h.settle hT hpc
  | retreat e w =>
    have hpc : s.pc = .backing e w := of_decide_eq_true hm
    refine ⟨h.slept, fun since w' hw => ?_, h.paid, fun hstop => ?_, h.backoff, h.allowed,
      fun v hv => h.pause v (hpc ▸ hv), hnone⟩
    · exact (Pc.waiting.inj hw).1 ▸ h.slept
    · have hspare := h.spare hstop
      rw [hpc] at hspare
      exact hspare
  | woken since w =>
    obtain ⟨hpc, hwake⟩ := Bool.and_eq_true_iff.1 hm
    have hpc : s.pc = .waiting since w := of_decide_eq_true hpc
    exact h.idle (hpc ▸ rfl) hwake
  | expired since w =>
    obtain ⟨hpc, htime⟩ := Bool.and_eq_true_iff.1 hm
    have hpc : s.pc = .waiting since w := of_decide_eq_true hpc
    have htime : since + w ≤ s.now := of_decide_eq_true htime
    have hsince := h.since since w hpc
    have hpaid := h.paid
    have hlen : (s.slept ++ [w]).length = s.slept.length + 1 := List.length_append
    refine ⟨?_, fun _ _ hw => Pc.noConfusion hw, ?_, fun _ => ?_, h.backoff, fun v hv => ?_,
      fun v hv => absurd hv (Option.some_ne_none v).symm, hnone⟩
    · show (s.slept ++ [w]).sum ≤ s.now
      rw [List.sum_append, List.sum_singleton]
      exact (Nat.add_le_add_right hsince w).trans htime
    · show s.attempts ≤ 1 + (s.slept ++ [w]).length + s.kicks
      change s.attempts ≤ 1 + s.slept.length + s.kicks at hpaid
      omega
    · show s.attempts + 1 ≤ 1 + (s.slept ++ [w]).length + s.kicks
      change s.attempts ≤ 1 + s.slept.length + s.kicks at hpaid
      omega
    · rcases List.mem_append.1 hv with hv | hv
      · exact h.allowed v hv
      · exact List.mem_singleton.1 hv ▸ h.pause w (hpc ▸ rfl)
  | silent reason => exact h.killWhy _
  | stop =>
    exact ⟨h.slept, h.since, h.paid, fun hstop => absurd hstop Bool.false_ne_true.symm, h.backoff,
      h.allowed, h.pause, h.forced⟩
  | stopKill => exact h.kill _
  | abort => exact Paced.move (h.killIf _ s.pid) hlate rfl hnone
  | reconnect =>
    have hpaid := h.paid
    refine ⟨h.slept, h.since, ?_, fun hstop => ?_, ?_, h.allowed, h.pause, h.forced⟩
    · exact hpaid.trans (Nat.le_succ _)
    · show s.attempts + (if s.pc.due || true then 1 else 0) ≤ 1 + s.slept.length + (s.kicks + 1)
      rw [Bool.or_true]
      exact Nat.succ_le_succ hpaid
    · show T.backoffMin = min (T.backoffMin * 2 ^ 0) T.backoffMax
      rw [pow_zero, Nat.mul_one, min_eq_left hT]
  | reconnectNow v =>
    show Paced T (s.reconnectNow v).tally (s.reconnectNow v).pc
    rcases reconnectNow_cases s v with heq | ⟨p, -, heq⟩ | heq
    · rwa [heq]
    · rw [heq]
      exact h
    · rw [heq]
      exact h.killWhy _
  | timer p session => exact h.killIf _ (some p)
  | tick =>
    exact ⟨h.slept.trans (Nat.le_succ _), h.since, h.paid, h.spare, h.backoff, h.allowed, h.pause,
      h.forced⟩
  | _ => exact h

theorem paced_reach (hT : T.backoffMin ≤ T.backoffMax)
    (h : Reach (Life.step T) (Life.init T) s) : Paced T s.tally s.pc :=
  h.invariant (fun s => Paced T s.tally s.pc)
    (fun _ _ _ _ hi ha => (step_eq ha).2 ▸ hi.after hT (step_eq ha).1) (paced_init hT)

theorem length_mul_le {m : ℕ} : ∀ {ws : List ℕ}, (∀ w ∈ ws, m ≤ w) → ws.length * m ≤ ws.sum
  | [], _ => (Nat.zero_mul m).le
  | w :: ws, h => by
    have hrest := length_mul_le fun v hv => h v (List.mem_cons_of_mem w hv)
    have hw := h w List.mem_cons_self
    rw [List.length_cons, List.sum_cons, Nat.succ_mul]
    omega

theorem le_of_allowed {m w : ℕ} (hT : T.backoffMin ≤ T.backoffMax) (hm : m ≤ T.backoffMin)
    (hfix : m ≤ T.fixRetry) (hw : Allowed T w) : m ≤ w := by
  rcases hw with rfl | ⟨k, rfl⟩
  · exact hfix
  · exact le_min (hm.trans (Nat.le_mul_of_pos_right _ (Nat.two_pow_pos k))) (hm.trans hT)

/-- Every wait that ran out is the time a person is given, or a power of two times the least backoff
up to the most; the attempts are at most one more than these waits and the calls of `reconnect`, so
a machine that does not answer is tried at most once per least wait, however it fails. -/
theorem attempts_paced (hT : T.backoffMin ≤ T.backoffMax) {m : ℕ} (hm : m ≤ T.backoffMin)
    (hfix : m ≤ T.fixRetry) (h : Reach (Life.step T) (Life.init T) s) :
    (∀ w ∈ s.slept, Allowed T w) ∧ s.attempts ≤ 1 + s.slept.length + s.kicks ∧
      (s.attempts - (1 + s.kicks)) * m ≤ s.now := by
  have hp := paced_reach hT h
  refine ⟨hp.allowed, hp.paid, ?_⟩
  have hpaid : s.attempts ≤ 1 + s.slept.length + s.kicks := hp.paid
  have hle : s.attempts - (1 + s.kicks) ≤ s.slept.length := by omega
  have hsum := length_mul_le fun w hw => le_of_allowed hT hm hfix (hp.allowed w hw)
  exact (Nat.mul_le_mul_right m hle).trans (hsum.trans hp.slept)

def shortTiming : Timing :=
  ⟨2, 4, 1, 3⟩

/-- The node cannot be started, and is tried again after the first wait. -/
def twoAttempts : List Act :=
  [.start, .enter, .noStart "" false, .settle ⟨"", none, false, 0⟩,
    .retreat ⟨"", none, false, 0⟩ 2, .tick, .tick, .expired 0 2, .enter]

theorem attempts_paced_two :
    ∃ s, runActs (Life.step shortTiming) (Life.init shortTiming) twoAttempts = some s ∧
      (∀ w ∈ s.slept, Allowed shortTiming w) ∧ s.attempts ≤ 1 + s.slept.length + s.kicks ∧
      (s.attempts - (1 + s.kicks)) * 2 ≤ s.now :=
  ⟨_, rfl, attempts_paced (T := shortTiming) (by decide) (by decide) (by decide)
    (Reach.of_runActs
      (show runActs (Life.step shortTiming) (Life.init shortTiming) twoAttempts = some _ from rfl))⟩

end EngineConsole.LinkLife
