import EngineConsole.LinkLife

/-!
# The requests of a link over its sessions

A request is begun while the link shows `up` and its queue is open, and both belong to the session
that the task is in (`Requests`). The session closes the queue before it fails what is pending, so
no request is left behind for the next one (`requests_end_once`).
-/

set_option linter.unusedSectionVars false

namespace EngineConsole.LinkLife

variable {T : Timing} {s s' : Life} {a : Act} {p : ℕ}

/-! ## Every request ends once -/

/-- The session has the requests that are pending, and fails them before it goes on. -/
def Pc.serving : Pc → Bool
  | .reading _ _ | .talked _ _ | .told _ _ _ | .shut _ _ _ | .aborted => true
  | _ => false

/-- The queue to the node may be there. -/
def Pc.writing : Pc → Bool
  | .talking _ | .reading _ _ | .talked _ _ | .told _ _ _ | .aborted => true
  | _ => false

/-- The link may still show `up`. -/
def Pc.maybeUp : Pc → Bool
  | .reading _ _ | .aborted => true
  | .talked _ t | .told _ t _ | .shut _ t _ | .failed _ t _ => t.wasUp
  | _ => false

/-- Requests are pending in their own session only, and each one begun is pending or ended, once. -/
structure Requests (s : Life) : Prop where
  serving : s.pending ≠ [] → s.pc.serving = true
  writing : s.writer ≠ none → s.pc.writing = true
  maybeUp : s.state = .up → s.pc.maybeUp = true
  own : ∀ r ∈ s.pending, r.session = s.session
  count : (s.pending.map Request.num ++ s.done.map fun d => d.1.num).Perm (List.range s.next)
  room : s.pending.length ≤ maxInflight

theorem requests_init (T : Timing) : Requests (Life.init T) where
  serving h := absurd rfl h
  writing h := absurd rfl h
  maybeUp h := LinkState.noConfusion h
  own _ h := absurd h List.not_mem_nil
  count := List.Perm.refl _
  room := Nat.zero_le _

/-- The task moves on, and no request begins or ends. -/
theorem Requests.move (h : Requests s) (hp : s'.pending = s.pending) (hd : s'.done = s.done)
    (hn : s'.next = s.next) (hs : s'.session = s.session)
    (hserving : s.pc.serving = true → s'.pc.serving = true)
    (hwriting : s'.writer ≠ none → s'.pc.writing = true)
    (hup : s'.state = .up → s'.pc.maybeUp = true) : Requests s' where
  serving hne := hserving (h.serving (hp ▸ hne))
  writing := hwriting
  maybeUp := hup
  own r hr := (h.own r (hp ▸ hr)).trans hs.symm
  count := by
    rw [hp, hd, hn]
    exact h.count
  room := by
    rw [hp]
    exact h.room

theorem Requests.kill (h : Requests s) (o : Option ℕ) : Requests (s.killProc o) := by
  rw [killProc_eq]
  exact ⟨h.serving, h.writing, h.maybeUp, h.own, h.count, h.room⟩

theorem Requests.killWhy (h : Requests s) (reason : Option String) : Requests (s.kill reason) :=
  Requests.kill (s := { s with dropReason := s.dropReason.or reason })
    ⟨h.serving, h.writing, h.maybeUp, h.own, h.count, h.room⟩ s.pid

/-- Without its queue the link is shown as it was. -/
theorem Requests.noWriter (h : Requests s) : Requests { s with writer := none } :=
  ⟨h.serving, fun hne => absurd rfl hne, h.maybeUp, h.own, h.count, h.room⟩

theorem Requests.failPending (h : Requests s) (reason : String) :
    Requests (s.failPending reason) where
  serving hne := absurd rfl hne
  writing := h.writing
  maybeUp := h.maybeUp
  own _ hr := absurd hr List.not_mem_nil
  count := by
    refine List.Perm.trans ?_ h.count
    show (List.map _ (s.done ++ s.pending.map fun r => (r, _))).Perm _
    rw [List.map_append, List.map_map]
    exact List.perm_append_comm
  room := Nat.zero_le _

theorem Requests.finish (h : Requests s) {r : Request} (hr : r ∈ s.pending) (o : Outcome) :
    Requests (s.finish r o) where
  serving hne := h.serving fun hnil => absurd (hnil ▸ hr) List.not_mem_nil
  writing := h.writing
  maybeUp := h.maybeUp
  own q hq := h.own q (List.mem_of_mem_erase hq)
  count := by
    refine List.Perm.trans ?_ h.count
    show ((s.pending.erase r).map Request.num ++ List.map _ (s.done ++ [(r, o)])).Perm _
    rw [List.map_append, ← List.append_assoc]
    refine List.perm_append_comm.trans ?_
    exact ((List.perm_cons_erase hr).map Request.num).symm.append_right _
  room := (List.length_erase_le).trans h.room

theorem serving_of_writing {pc : Pc} (hw : pc.writing = true) (hu : pc.maybeUp = true) :
    pc.serving = true := by
  cases pc with
  | talking p => exact absurd hu Bool.false_ne_true
  | reading p since => rfl
  | talked p t => rfl
  | told p t reason => rfl
  | aborted => rfl
  | _ => exact absurd hw Bool.false_ne_true

theorem Requests.begin (h : Requests s) (hm : s.canBegin = true) :
    Requests { s with pending := s.pending ++ [⟨s.next, s.session⟩], next := s.next + 1 } := by
  obtain ⟨hm, hroom⟩ := Bool.and_eq_true_iff.1 hm
  obtain ⟨hwriter, hup⟩ := Bool.and_eq_true_iff.1 hm
  have hwriting := h.writing (ne_of_eq_of_ne (of_decide_eq_true hwriter) (Option.some_ne_none _))
  have hmaybe := h.maybeUp (of_decide_eq_true hup)
  refine ⟨fun _ => ?_, h.writing, h.maybeUp, fun r hr => ?_, ?_, ?_⟩
  · exact serving_of_writing hwriting hmaybe
  · rcases List.mem_append.1 hr with hr | hr
    · exact h.own r hr
    · exact congrArg Request.session (List.mem_singleton.1 hr)
  · show (List.map _ (s.pending ++ _) ++ _).Perm (List.range (s.next + 1))
    rw [List.map_append, List.append_assoc, List.range_succ]
    refine List.Perm.trans ?_ (h.count.append_right [s.next])
    rw [List.append_assoc]
    exact List.perm_append_comm.append_left _
  · show (s.pending ++ [_]).length ≤ maxInflight
    rw [List.length_append, List.length_singleton]
    exact of_decide_eq_true hroom

/-- Where the task serves no request, none is pending. -/
theorem Requests.nil_of_pc (h : Requests s) (hpc : s.pc.serving = false) : s.pending = [] := by
  by_contra hne
  exact Bool.false_ne_true (hpc.symm.trans (h.serving hne))

theorem Requests.writer_none (h : Requests s) (hpc : s.pc.writing = false) : s.writer = none := by
  by_contra hne
  exact Bool.false_ne_true (hpc.symm.trans (h.writing hne))

theorem Requests.not_up (h : Requests s) (hpc : s.pc.maybeUp = false) : s.state ≠ .up := fun hup =>
  Bool.false_ne_true (hpc.symm.trans (h.maybeUp hup))

/-- Outside of a session the task may go anywhere. -/
theorem Requests.away (h : Requests s) (hserving : s.pc.serving = false)
    (hwriting : s.pc.writing = false) (hmaybe : s.pc.maybeUp = false) (pc : Pc) :
    Requests { s with pc } :=
  h.move rfl rfl rfl rfl (fun ht => absurd (hserving.symm.trans ht) Bool.false_ne_true)
    (fun hne => absurd (h.writer_none hwriting) hne) fun hup => absurd hup (h.not_up hmaybe)

/-- Every step keeps the invariant. -/
theorem Requests.after (h : Requests s) (hm : s.may a = true) : Requests (s.after T a) := by
  cases a with
  | start =>
    have hpc : s.pc = .idle := of_decide_eq_true hm
    exact h.away (hpc ▸ rfl) (hpc ▸ rfl) (hpc ▸ rfl) _
  | enter =>
    have hpc : s.pc = .top := of_decide_eq_true hm
    show Requests (if s.stopping then _ else _)
    split_ifs
    · exact h.away (hpc ▸ rfl) (hpc ▸ rfl) (hpc ▸ rfl) _
    · have h' := h.away (hpc ▸ rfl) (hpc ▸ rfl) (hpc ▸ rfl) .starting
      exact ⟨h'.serving, h'.writing, fun hup => LinkState.noConfusion hup, h'.own, h'.count,
        h'.room⟩
  | noStart msg fix =>
    have hpc : s.pc = .starting := of_decide_eq_true hm
    exact h.away (hpc ▸ rfl) (hpc ▸ rfl) (hpc ▸ rfl) _
  | spawn =>
    have hpc : s.pc = .starting := of_decide_eq_true hm
    have h' := h.away (hpc ▸ rfl) (hpc ▸ rfl) (hpc ▸ rfl) (.spawned s.nextPid)
    exact ⟨h'.serving, h'.writing, h'.maybeUp, h'.own, h'.count, h'.room⟩
  | register p =>
    have hpc : s.pc = .spawned p := of_decide_eq_true hm
    have hnil := h.nil_of_pc (hpc ▸ rfl)
    refine Requests.kill (s := { s with
      pid := some p, session := s.session + 1, writer := some true, dropReason := none
      pc := .talking p }) ⟨fun hne => absurd hnil hne, fun _ => rfl, fun hup => ?_, fun r hr => ?_,
        h.count, h.room⟩ _
    · exact absurd hup (h.not_up (hpc ▸ rfl))
    · exact absurd (hnil ▸ hr : r ∈ []) List.not_mem_nil
  | badHello p kill err =>
    have hpc : s.pc = .talking p := of_decide_eq_true (Bool.and_eq_true_iff.1 hm).1
    have hkill : Requests (if kill then s.kill none else s) := by
      split_ifs
      · exact h.killWhy none
      · exact h
    have hpc' : (if kill then s.kill none else s).pc = .talking p := by
      split_ifs
      · exact (congrArg Life.pc (killProc_eq _ _)).trans hpc
      · exact hpc
    exact hkill.move rfl rfl rfl rfl (fun _ => rfl) (fun _ => rfl) fun hup =>
      absurd hup (hkill.not_up (hpc' ▸ rfl))
  | mismatch p msg =>
    have hpc : s.pc = .talking p := of_decide_eq_true hm
    exact h.move rfl rfl rfl rfl (fun _ => rfl) (fun _ => rfl) fun hup =>
      absurd hup (h.not_up (hpc ▸ rfl))
  | connected p => exact h.move rfl rfl rfl rfl (fun _ => rfl) (fun _ => rfl) fun _ => rfl
  | hangUp p since err =>
    have hkill : Requests (if err.isSome then s.kill none else s) := by
      split_ifs
      · exact h.killWhy none
      · exact h
    exact hkill.move rfl rfl rfl rfl (fun _ => rfl) (fun _ => rfl) fun _ => rfl
  | explain p t =>
    have hpc : s.pc = .talked p t := of_decide_eq_true hm
    exact h.move rfl rfl rfl rfl (fun _ => rfl) (fun _ => rfl) fun hup => (hpc ▸ h.maybeUp hup :)
  | shut p t reason =>
    have hpc : s.pc = .told p t reason := of_decide_eq_true hm
    exact h.noWriter.move rfl rfl rfl rfl (fun _ => rfl) (fun hne => absurd rfl hne) fun hup =>
      (hpc ▸ h.maybeUp hup :)
  | failAll p t reason =>
    have hpc : s.pc = .shut p t reason := of_decide_eq_true hm
    have hnone := h.writer_none (hpc ▸ rfl)
    have hfail := h.failPending reason
    exact ⟨fun hne => absurd rfl hne, fun hne => absurd hnone hne,
      fun hup => (hpc ▸ h.maybeUp hup :), hfail.own, hfail.count, hfail.room⟩
  | fall p t reason =>
    have hpc : s.pc = .failed p t reason := of_decide_eq_true hm
    have hserving : s.pc.serving = false := hpc ▸ rfl
    have hnone := h.writer_none (hpc ▸ rfl)
    show Requests { (if t.wasUp then s.to .down (some reason) none else s) with pc := .reaping p t }
    split_ifs with hup
    · exact h.move rfl rfl rfl rfl (fun ht => absurd (hserving.symm.trans ht) Bool.false_ne_true)
        (fun hne => absurd hnone hne) fun hdown => LinkState.noConfusion hdown
    · exact h.move rfl rfl rfl rfl (fun ht => absurd (hserving.symm.trans ht) Bool.false_ne_true)
        (fun hne => absurd hnone hne) fun ht => absurd (hpc ▸ h.maybeUp ht :) hup
  | reap p t =>
    obtain ⟨hm, -⟩ := Bool.and_eq_true_iff.1 hm
    have hpc : s.pc = .reaping p t := of_decide_eq_true (Bool.and_eq_true_iff.1 hm).1
    have h' := h.away (hpc ▸ rfl) (hpc ▸ rfl) (hpc ▸ rfl) (.reaped p t)
    exact ⟨h'.serving, h'.writing, h'.maybeUp, h'.own, h'.count, h'.room⟩
  | graceOver p t =>
    have hpc : s.pc = .reaping p t := of_decide_eq_true hm
    exact (h.away (hpc ▸ rfl) (hpc ▸ rfl) (hpc ▸ rfl) (.killing p t)).kill (some p)
  | reapLate p t =>
    obtain ⟨hm, -⟩ := Bool.and_eq_true_iff.1 hm
    have hpc : s.pc = .killing p t := of_decide_eq_true (Bool.and_eq_true_iff.1 hm).1
    have h' := h.away (hpc ▸ rfl) (hpc ▸ rfl) (hpc ▸ rfl) (.reaped p t)
    exact ⟨h'.serving, h'.writing, h'.maybeUp, h'.own, h'.count, h'.room⟩
  | giveUp p t =>
    have hpc : s.pc = .killing p t := of_decide_eq_true hm
    exact h.away (hpc ▸ rfl) (hpc ▸ rfl) (hpc ▸ rfl) _
  | release p t =>
    have hpc : s.pc = .reaped p t := of_decide_eq_true hm
    have hkill : Requests (if s.pid = some p then s.killProc (some p) else s) := by
      split_ifs
      · exact h.kill _
      · exact h
    have hpc' : (if s.pid = some p then s.killProc (some p) else s).pc = .reaped p t := by
      split_ifs <;> exact hpc
    have h' := hkill.noWriter.away (hpc' ▸ rfl) (hpc' ▸ rfl) (hpc' ▸ rfl) (.released t)
    exact ⟨h'.serving, h'.writing, h'.maybeUp, h'.own, h'.count, h'.room⟩
  | conclude t msg fix =>
    have hpc : s.pc = .released t := of_decide_eq_true hm
    exact h.away (hpc ▸ rfl) (hpc ▸ rfl) (hpc ▸ rfl) _
  | settle e =>
    have hpc : s.pc = .ended e := of_decide_eq_true hm
    have h' := h.away (hpc ▸ rfl) (hpc ▸ rfl) (hpc ▸ rfl)
    show Requests (s.settle T e)
    rcases settle_cases T s e with ⟨-, heq⟩ | ⟨-, -, heq⟩ | ⟨w, b, k, -, -, -, heq⟩
    · rw [heq]
      exact h' _
    · rw [heq]
      exact h' _
    · rw [heq]
      have h' := h' (.backing e w)
      exact ⟨h'.serving, h'.writing, h'.maybeUp, h'.own, h'.count, h'.room⟩
  | retreat e w =>
    have hpc : s.pc = .backing e w := of_decide_eq_true hm
    have h' := h.away (hpc ▸ rfl) (hpc ▸ rfl) (hpc ▸ rfl) (.waiting s.now w)
    refine ⟨h'.serving, h'.writing, fun hup => ?_, h'.own, h'.count, h'.room⟩
    have hstate : (if e.incompatible then LinkState.incompatible else .down) = .up := hup
    split_ifs at hstate
  | woken since w =>
    have hpc : s.pc = .waiting since w := of_decide_eq_true (Bool.and_eq_true_iff.1 hm).1
    exact h.away (hpc ▸ rfl) (hpc ▸ rfl) (hpc ▸ rfl) _
  | expired since w =>
    have hpc : s.pc = .waiting since w := of_decide_eq_true (Bool.and_eq_true_iff.1 hm).1
    have h' := h.away (hpc ▸ rfl) (hpc ▸ rfl) (hpc ▸ rfl) .top
    exact ⟨h'.serving, h'.writing, h'.maybeUp, h'.own, h'.count, h'.room⟩
  | begin => exact h.begin hm
  | answer r => exact h.finish (of_decide_eq_true (Bool.and_eq_true_iff.1 hm).2) _
  | orphan r => exact h.finish (of_decide_eq_true (Bool.and_eq_true_iff.1 hm).2) _
  | silent reason => exact h.killWhy _
  | stop => exact ⟨h.serving, fun hne => absurd rfl hne, h.maybeUp, h.own, h.count, h.room⟩
  | stopKill => exact h.kill _
  | stopFail => exact h.failPending _
  | stopDown =>
    exact ⟨h.serving, h.writing, fun hup => LinkState.noConfusion hup, h.own, h.count, h.room⟩
  | abort =>
    have hkill :
        Requests (if s.pid.isSome ∧ s.pid = s.pc.guarded then s.killProc s.pid else s) := by
      split_ifs
      · exact h.kill _
      · exact h
    exact hkill.move rfl rfl rfl rfl (fun _ => rfl) (fun _ => rfl) fun _ => rfl
  | reconnectNow v =>
    have hnow : Requests (s.reconnectNow v) := by
      rcases reconnectNow_cases s v with heq | ⟨p, -, heq⟩ | heq
      · rwa [heq]
      · rw [heq]
        exact ⟨h.serving, fun hne => absurd rfl hne, h.maybeUp, h.own, h.count, h.room⟩
      · rw [heq]
        exact h.killWhy _
    exact ⟨hnow.serving, hnow.writing, hnow.maybeUp, hnow.own, hnow.count, hnow.room⟩
  | timer p session =>
    have hkill :
        Requests (if s.session = session ∧ s.pid = some p then s.killProc (some p) else s) := by
      split_ifs
      · exact h.kill _
      · exact h
    exact ⟨hkill.serving, hkill.writing, hkill.maybeUp, hkill.own, hkill.count, hkill.room⟩
  | writeFails =>
    have hsome : s.writer = some true := of_decide_eq_true hm
    have hne : s.writer ≠ none := ne_of_eq_of_ne hsome (Option.some_ne_none _)
    exact ⟨h.serving, fun _ => h.writing hne, h.maybeUp, h.own, h.count, h.room⟩
  | _ => exact ⟨h.serving, h.writing, h.maybeUp, h.own, h.count, h.room⟩

theorem requests_reach (h : Reach (Life.step T) (Life.init T) s) : Requests s :=
  h.invariant Requests (fun _ _ _ _ hi ha => (step_eq ha).2 ▸ hi.after (step_eq ha).1)
    (requests_init T)

end EngineConsole.LinkLife
