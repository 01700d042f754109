import EngineConsole.ScriptJobs

/-!
# Subscribers of script jobs

A subscriber of a job reads its state, and then the lines that the job still keeps; it waits for
a change only where there was nothing to read and the job was running. Since the state is set
after the last line, and the change is told after the state, a subscriber has read all that was
kept when it sends the end.

`Follows` is what a subscriber has of its job : its lines are those of the job, once and in
order, without those that were dropped before it came to them, and its end is the state of the
job. `settles` : once the task of a job is over, its subscribers come to their end by themselves.

`scripts_followed` puts together what holds of jobs, runs and subscribers in every state that is
reached; `not_followed` are the two ways in which more does not hold.
-/

set_option linter.unusedSectionVars false

namespace EngineConsole

namespace Scripts

open Web LogRing

/-! ## What a subscriber has -/

/-- The text of a line. -/
def Item.text : Item → Option Text
  | .line text => some text
  | .ended _ => none

/-- The lines that a subscriber was sent. -/
def Sub.lines (u : Sub) : List Text :=
  u.out.filterMap Item.text

/-- The lines that it has read and not sent yet. -/
def Stand.pending : Stand → List Text
  | .yield pending _ => pending
  | _ => []

/-- What a subscriber is sent : lines, and after them one end, with the state of the job if it was
not asked for at once. -/
def Sub.Sent (j : Job) (u : Sub) : Prop :=
  match u.stand with
  | .ended => ∃ state, u.out = u.lines.map .line ++ [.ended state] ∧
      (u.once = false → state = j.state)
  | _ => u.out = u.lines.map .line

/-- A subscriber that has seen the job finished, or sends its end, has read to the end. -/
def Sub.Sees (j : Job) (u : Sub) : Prop :=
  match u.stand with
  | .read finished => finished = true → j.pc.live = false
  | .yield _ finished => finished = true → j.pc.live = false ∧ u.pos = j.emitted.length
  | .snapshot | .ended => u.once = false → j.pc.live = false ∧ u.pos = j.emitted.length
  | _ => True

/-- The last change was told. -/
def Pc.told : Pc → Bool
  | .announce | .over => true
  | _ => false

/-- A subscriber that is going to wait, or waits, while the job has more for it. -/
def Stand.waits : Stand → Bool
  | .read finished => !finished
  | .wait => true
  | _ => false

/-- How a subscriber follows its job. -/
structure Follows (j : Job) (u : Sub) : Prop where
  reads : Reads j.emitted j.ring.base u.pos (u.lines ++ u.stand.pending) u.late
  sent : u.Sent j
  sees : u.Sees j
  seen : u.seen ≤ j.changed
  woken : j.pc.told = true → u.stand.waits = true → u.seen < j.changed

theorem Follows.new (j : Job) (id : Text) (once : Bool) :
    Follows j ⟨id, once, 0, 0, .subscribe, [], false⟩ where
  reads := .start ..
  sent := rfl
  sees := trivial
  seen := Nat.zero_le _
  woken := by simp [Stand.waits]

section

variable {scrub : Text → Text} {j j' : Job} {u u' : Sub}

/-- What a subscriber saw stays when the state of the job is set already. -/
theorem Sub.Sees.mono (h : u.Sees j) (hlive : j.pc.live = false → j'.pc.live = false)
    (hemitted : j.pc.live = false → j'.emitted = j.emitted) : u.Sees j' := by
  have hboth (h : j.pc.live = false ∧ u.pos = j.emitted.length) :
      j'.pc.live = false ∧ u.pos = j'.emitted.length :=
    ⟨hlive h.1, by rw [hemitted h.1]; exact h.2⟩
  unfold Sub.Sees at h ⊢
  split at h
  · exact fun hf => hlive (h hf)
  · exact fun hf => hboth (h hf)
  · exact fun ho => hboth (h ho)
  · exact fun ho => hboth (h ho)
  · exact trivial

theorem Sub.Sent.mono (h : u.Sent j) (hsees : u.Sees j)
    (hstate : j.pc.live = false → j'.state = j.state) : u.Sent j' := by
  unfold Sub.Sent at h ⊢
  unfold Sub.Sees at hsees
  split at h
  · next heq =>
    rw [heq] at hsees
    obtain ⟨state, hout, hst⟩ := h
    exact ⟨state, hout, fun ho => (hst ho).trans (hstate (hsees ho).1).symm⟩
  · exact h

theorem live_of_told {pc : Pc} (h : pc.told = true) : pc.live = false := by
  cases pc <;> first | rfl | simp [Pc.told] at h

/-- A step of the task of its job. -/
theorem Follows.turn (h : Follows j u) (hturn : Turn j j') : Follows j' u := by
  have hcontra (hlive : j.pc.live = true) {p : Prop} (hdead : j.pc.live = false) : p := by
    rw [hlive] at hdead
    exact absurd hdead (by simp)
  have htold {pc : Pc} (hpc : pc.live = true) (ht : pc.told = true) {p : Prop} : p := by
    rw [live_of_told ht] at hpc
    exact absurd hpc (by simp)
  cases hturn with
  | emits a pc hlive hpc hsound =>
    exact ⟨h.reads.push (j.ring.base_le_push a) a, h.sent.mono h.sees fun _ => rfl,
      h.sees.mono (hcontra hlive) (hcontra hlive), h.seen, fun ht => htold hpc ht⟩
  | bumps pc hlive hpc hsound =>
    exact ⟨h.reads, h.sent.mono h.sees fun _ => rfl, h.sees.mono (hcontra hlive) fun _ => rfl,
      Nat.le_succ_of_le h.seen, fun ht => htold hpc ht⟩
  | goes step tail rc pc hlive hpc hsound =>
    exact ⟨h.reads, h.sent.mono h.sees fun _ => rfl, h.sees.mono (hcontra hlive) fun _ => rfl,
      h.seen, fun ht => htold hpc ht⟩
  | ends state tail hpc =>
    have hlive : j.pc.live = true := by rw [hpc]; rfl
    exact ⟨h.reads, h.sent.mono h.sees (hcontra hlive), h.sees.mono (hcontra hlive) fun _ => rfl,
      h.seen, by simp [Pc.told]⟩
  | frees hpc =>
    exact ⟨h.reads, h.sent.mono h.sees fun _ => rfl, h.sees.mono (fun _ => rfl) fun _ => rfl, h.seen,
      by simp [Pc.told]⟩
  | tells hpc =>
    exact ⟨h.reads, h.sent.mono h.sees fun _ => rfl, h.sees.mono (fun _ => rfl) fun _ => rfl,
      Nat.le_succ_of_le h.seen, fun _ _ => Nat.lt_succ_of_le h.seen⟩
  | rests hpc =>
    exact ⟨h.reads, h.sent.mono h.sees fun _ => rfl, h.sees.mono (fun _ => rfl) fun _ => rfl, h.seen,
      fun _ => h.woken (by rw [hpc]; rfl)⟩

theorem live_of_state (hok : j.Ok) : j.pc.live = false ↔ j.state ≠ .running := by
  rw [ne_eq, hok.state, Bool.not_eq_true]

/-- A subscriber reads : it is then at the end of the lines. -/
theorem Follows.read (h : Follows j u) (hok : j.Ok) {finished : Bool}
    (hstand : u.stand = .read finished) (hnext : u.next j = some u') :
    Follows j u' ∧ u'.pos = j.emitted.length := by
  obtain ⟨hend, hreads⟩ := h.reads.read hok.ring
  have hnone : u.stand.pending = [] := by rw [hstand]; rfl
  rw [hnone, List.append_nil] at hreads
  have hsees := h.sees
  have hsent := h.sent
  have hwoken := h.woken
  unfold Sub.Sees at hsees
  unfold Sub.Sent at hsent
  unfold Sub.next at hnext
  rw [hstand] at hsees hsent hwoken hnext
  dsimp only at hsees hsent hnext
  split_ifs at hnext with hwait
  · obtain rfl := Option.some.inj hnext
    rw [hwait.1] at hend hreads
    rw [List.append_nil] at hreads
    refine ⟨⟨?_, hsent, trivial, h.seen, fun ht _ => hwoken ht (by rw [hwait.2.1]; rfl)⟩, hend⟩
    dsimp only [Stand.pending]
    rwa [List.append_nil]
  · obtain rfl := Option.some.inj hnext
    exact ⟨⟨hreads, hsent, fun hf => ⟨hsees hf, hend⟩, h.seen, by simp [Stand.waits]⟩, hend⟩

theorem Follows.next (h : Follows j u) (hok : j.Ok) (hnext : u.next j = some u') :
    Follows j u' := by
  have hreads := h.reads
  have hsees := h.sees
  have hsent := h.sent
  cases hstand : u.stand with
  | read finished => exact (h.read hok hstand hnext).1
  | subscribe =>
    unfold Sub.next at hnext
    unfold Sub.Sent at hsent
    rw [hstand] at hreads hsent hnext
    obtain rfl := Option.some.inj hnext
    exact ⟨hreads, hsent, trivial, le_rfl, by simp [Stand.waits]⟩
  | top =>
    unfold Sub.next at hnext
    unfold Sub.Sent at hsent
    rw [hstand] at hreads hsent hnext
    obtain rfl := Option.some.inj hnext
    exact ⟨hreads, hsent, trivial, le_rfl, by simp [Stand.waits]⟩
  | look =>
    unfold Sub.next at hnext
    unfold Sub.Sent at hsent
    rw [hstand] at hreads hsent hnext
    obtain rfl := Option.some.inj hnext
    refine ⟨hreads, hsent, fun hf => (live_of_state hok).2 (of_decide_eq_true hf), h.seen,
      fun ht hw => ?_⟩
    have hstate := (live_of_state hok).1 (live_of_told ht)
    simp [Stand.waits, hstate] at hw
  | yield pending finished =>
    unfold Sub.next at hnext
    unfold Sub.Sent at hsent
    unfold Sub.Sees at hsees
    rw [hstand] at hreads hsent hsees hnext
    dsimp only at hsent hsees
    cases pending with
    | nil =>
      obtain rfl := Option.some.inj hnext
      by_cases hend : finished = true ∨ u.once = true
      · rw [if_pos hend]
        have hdone (ho : u.once = false) : finished = true := hend.resolve_right (by simp [ho])
        exact ⟨hreads, hsent, fun ho => hsees (hdone ho), h.seen, by simp [Stand.waits]⟩
      · rw [if_neg hend]
        exact ⟨hreads, hsent, trivial, h.seen, by simp [Stand.waits]⟩
    | cons p pending =>
      obtain rfl := Option.some.inj hnext
      have hlines : Sub.lines { u with
          out := u.out ++ [.line p], stand := .yield pending finished } = u.lines ++ [p] := by
        simp [Sub.lines, Item.text]
      refine ⟨?_, ?_, hsees, h.seen, by simp [Stand.waits]⟩
      · rw [hlines, List.append_assoc]
        exact hreads
      · change u.out ++ [Item.line p] = _
        rw [hlines, List.map_append, ← hsent]
        rfl
  | wait =>
    unfold Sub.next at hnext
    unfold Sub.Sent at hsent
    rw [hstand] at hreads hsent hnext
    obtain ⟨-, heq⟩ := Option.ite_none_right_eq_some.1 hnext
    obtain rfl := Option.some.inj heq
    exact ⟨hreads, hsent, trivial, le_rfl, by simp [Stand.waits]⟩
  | snapshot =>
    unfold Sub.next at hnext
    unfold Sub.Sent at hsent
    unfold Sub.Sees at hsees
    rw [hstand] at hreads hsent hsees hnext
    obtain rfl := Option.some.inj hnext
    have hlines : Sub.lines { u with
        out := u.out ++ [.ended j.state], stand := .ended } = u.lines := by
      simp [Sub.lines, Item.text]
    refine ⟨?_, ⟨j.state, ?_, fun _ => rfl⟩, hsees, h.seen, by simp [Stand.waits]⟩
    · rw [hlines]
      exact hreads
    · rw [hlines, ← hsent]
  | ended =>
    unfold Sub.next at hnext
    rw [hstand] at hnext
    simp at hnext

/-! ## The way to the end -/

/-- A subscriber comes to its end by its own steps. -/
def Ends (j : Job) (u : Sub) : Prop :=
  ∃ v, Relation.ReflTransGen (fun u v => Sub.next j u = some v) u v ∧ v.stand = .ended

theorem Ends.of_next (h : u.next j = some u') (hends : Ends j u') : Ends j u := by
  obtain ⟨v, hrun, hv⟩ := hends
  exact ⟨v, .head h hrun, hv⟩

theorem ends_snapshot (hstand : u.stand = .snapshot) : Ends j u :=
  .of_next (by unfold Sub.next; rw [hstand]) ⟨_, .refl, rfl⟩

/-- What was read is sent, and then the end, or the next round. -/
theorem ends_yield {finished : Bool} (htop : ∀ v : Sub, v.stand = .top → Ends j v) :
    ∀ {pending : List Text} {u : Sub}, u.stand = .yield pending finished → Ends j u
  | [], u, hstand => by
    refine .of_next (by unfold Sub.next; rw [hstand]) ?_
    by_cases hend : finished = true ∨ u.once = true
    · exact ends_snapshot (if_pos hend)
    · exact htop _ (if_neg hend)
  | p :: pending, u, hstand =>
    .of_next (by unfold Sub.next; rw [hstand]) (ends_yield htop rfl)

theorem ends_done : ∀ {pending : List Text} {u : Sub}, u.stand = .yield pending true → Ends j u
  | [], u, hstand => by
    refine .of_next (by unfold Sub.next; rw [hstand]) (ends_snapshot ?_)
    simp
  | p :: pending, u, hstand => .of_next (by unfold Sub.next; rw [hstand]) (ends_done rfl)

/-- A read finds something to send, or the end, or waits. -/
theorem next_read {finished : Bool} (hstand : u.stand = .read finished) :
    ∃ v, u.next j = some v ∧ (v.stand = .yield (j.ring.from u.pos) finished ∨
      finished = false ∧ v.stand = .wait ∧ v.seen = u.seen) := by
  unfold Sub.next
  rw [hstand]
  dsimp only
  split_ifs with hwait
  · exact ⟨_, rfl, .inr ⟨hwait.2.1, rfl, rfl⟩⟩
  · exact ⟨_, rfl, .inl rfl⟩

theorem ends_read (hstand : u.stand = .read true) : Ends j u := by
  obtain ⟨v, hv, hyield | ⟨hfalse, -⟩⟩ := next_read (j := j) hstand
  · exact .of_next hv (ends_done hyield)
  · simp at hfalse

theorem ends_look (hstate : j.state ≠ .running) (hstand : u.stand = .look) : Ends j u := by
  refine .of_next (by unfold Sub.next; rw [hstand]) (ends_read ?_)
  exact congrArg Stand.read (decide_eq_true hstate)

/-- Once the job has finished, the next round is the last. -/
theorem ends_top (hstate : j.state ≠ .running) (hstand : u.stand = .top) : Ends j u :=
  .of_next (by unfold Sub.next; rw [hstand]) (ends_look hstate rfl)

/-- Once the task of its job is over, a subscriber comes to its end. -/
theorem Follows.ends (h : Follows j u) (hok : j.Ok) (htold : j.pc.told = true) : Ends j u := by
  have hstate : j.state ≠ .running := (live_of_state hok).1 (live_of_told htold)
  have htop (v : Sub) (hv : v.stand = .top) : Ends j v := ends_top hstate hv
  have hwait {v : Sub} (hv : v.stand = .wait) (hseen : v.seen < j.changed) : Ends j v := by
    refine .of_next ?_ (htop { v with seen := j.changed, stand := .top } rfl)
    unfold Sub.next
    rw [hv]
    exact if_pos hseen
  cases hstand : u.stand with
  | subscribe => exact .of_next (by unfold Sub.next; rw [hstand]) (htop _ rfl)
  | top => exact htop u hstand
  | look => exact ends_look hstate hstand
  | read finished =>
    have hwoken := h.woken htold
    rw [hstand] at hwoken
    obtain ⟨v, hv, hyield | ⟨hfalse, hw, hseen⟩⟩ := next_read (j := j) hstand
    · exact .of_next hv (ends_yield htop hyield)
    · exact .of_next hv (hwait hw (hseen ▸ hwoken (by rw [hfalse]; rfl)))
  | yield pending finished => exact ends_yield htop hstand
  | wait => exact hwait hstand (h.woken htold (by rw [hstand]; rfl))
  | snapshot => exact ends_snapshot hstand
  | ended => exact ⟨u, .refl, hstand⟩

end

/-! ## Every state that is reached -/

/-- Every subscriber follows its job. -/
def Streams (s : State) : Prop :=
  ∀ u ∈ s.subs, ∃ j, s.store u.job = some j ∧ Follows j u

section

variable {scrub : Text → Text} {s t : State}

theorem Sub.next_job {j : Job} {u u' : Sub} (h : u.next j = some u') :
    u'.job = u.job ∧ u'.once = u.once := by
  unfold Sub.next at h
  split at h
  all_goals first
    | (obtain rfl := Option.some.inj h; exact ⟨rfl, rfl⟩)
    | (simp at h; done)
    | skip
  · dsimp only at h
    split_ifs at h <;> (obtain rfl := Option.some.inj h; exact ⟨rfl, rfl⟩)
  · obtain ⟨-, heq⟩ := Option.ite_none_right_eq_some.1 h
    obtain rfl := Option.some.inj heq
    exact ⟨rfl, rfl⟩

theorem Streams.congr (h : Streams s) (hsubs : t.subs = s.subs)
    (hstore : ∀ id j, s.store id = some j → t.store id = some j) : Streams t := by
  intro u hu
  rw [hsubs] at hu
  obtain ⟨j, hj, hf⟩ := h u hu
  exact ⟨j, hstore _ j hj, hf⟩

theorem start_store {id id' : Text} {j j' : Job} (hid : s.store id = none)
    (hj : s.store id' = some j') : (s.start id j).store id' = some j' := by
  unfold State.start
  split_ifs
  · exact hj
  · have hne : id' ≠ id := fun heq => by simp [heq, hid] at hj
    exact (Function.update_of_ne hne _ _).trans hj

theorem Streams.step (h : Streams s) (hbooks : Books s) {a : Act}
    (hstep : step scrub s a = some t) : Streams t := by
  cases a with
  | run id hostId name action arg valid =>
    obtain ⟨hnew, heq⟩ := Option.ite_none_left_eq_some.1 hstep
    obtain rfl := Option.some.inj heq
    exact h.congr start_fields.2.2 fun _ _ hj =>
      start_store (by simpa using (not_or.1 hnew).1) hj
  | restart id hostId name valid =>
    obtain ⟨hnew, heq⟩ := Option.ite_none_left_eq_some.1 hstep
    obtain rfl := Option.some.inj heq
    exact h.congr start_fields.2.2 fun _ _ hj =>
      start_store (by simpa using (not_or.1 hnew).1) hj
  | evict found =>
    obtain ⟨-, heq⟩ := Option.ite_none_right_eq_some.1 hstep
    obtain rfl := Option.some.inj heq
    exact h.congr rfl fun _ _ hj => hj
  | shutdown =>
    obtain rfl := Option.some.inj hstep
    exact h.congr rfl fun _ _ hj => hj
  | task id m =>
    obtain ⟨j, j', hj, -, hmove, calls, rfl, -⟩ := task_spec hstep
    intro u hu
    obtain ⟨i, hi, hf⟩ := h u hu
    dsimp only
    by_cases heq : u.job = id
    · rw [heq] at hi ⊢
      obtain rfl := Option.some.inj (hj.symm.trans hi)
      exact ⟨j', Function.update_self .., hf.turn (turn_of_move hmove)⟩
    · exact ⟨i, (Function.update_of_ne heq _ _).trans hi, hf⟩
  | node i m =>
    change s.node i m = some t at hstep
    unfold State.node at hstep
    split at hstep
    · simp at hstep
    · obtain ⟨r, -, rfl⟩ := Option.map_eq_some_iff.1 hstep
      exact h.congr rfl fun _ _ hj => hj
  | stream id once =>
    obtain ⟨hid, heq⟩ := Option.ite_none_right_eq_some.1 hstep
    obtain rfl := Option.some.inj heq
    intro u hu
    rcases List.mem_append.1 hu with hu | hu
    · exact h u hu
    · obtain rfl := List.mem_singleton.1 hu
      obtain ⟨j, hj⟩ := Option.isSome_iff_exists.1 (hbooks.created id hid)
      exact ⟨j, hj, .new j id once⟩
  | sub i =>
    change s.sub i = some t at hstep
    unfold State.sub at hstep
    split at hstep
    · simp at hstep
    · next u hu =>
      split at hstep
      · simp at hstep
      · next j hj =>
        obtain ⟨u', hnext, rfl⟩ := Option.map_eq_some_iff.1 hstep
        intro v hv
        rcases List.mem_or_eq_of_mem_set hv with hv | rfl
        · exact h v hv
        · obtain ⟨i', hi', hf⟩ := h u (List.mem_iff_getElem?.2 ⟨i, hu⟩)
          obtain rfl := Option.some.inj (hj.symm.trans hi')
          exact ⟨j, by rw [(Sub.next_job hnext).1]; exact hj,
            hf.next (hbooks.ok _ j hj) hnext⟩

/-- Only a step of a call takes or releases a name. -/
theorem slots_step {a : Act} (h : step scrub s a = some t) (ha : ∀ i m, a ≠ .node i m) :
    t.slots = s.slots := by
  cases a with
  | run id hostId name action arg valid =>
    obtain ⟨-, heq⟩ := Option.ite_none_left_eq_some.1 h
    obtain rfl := Option.some.inj heq
    exact start_fields.2.1
  | restart id hostId name valid =>
    obtain ⟨-, heq⟩ := Option.ite_none_left_eq_some.1 h
    obtain rfl := Option.some.inj heq
    exact start_fields.2.1
  | evict found =>
    obtain ⟨-, heq⟩ := Option.ite_none_right_eq_some.1 h
    obtain rfl := Option.some.inj heq
    rfl
  | shutdown =>
    obtain rfl := Option.some.inj h
    rfl
  | task id m =>
    obtain ⟨j, j', -, -, -, calls, rfl, -⟩ := task_spec h
    rfl
  | node i m => exact absurd rfl (ha i m)
  | stream id once =>
    obtain ⟨-, heq⟩ := Option.ite_none_right_eq_some.1 h
    obtain rfl := Option.some.inj heq
    rfl
  | sub i =>
    change s.sub i = some t at h
    unfold State.sub at h
    split at h
    · simp at h
    · split at h
      · simp at h
      · obtain ⟨r, -, rfl⟩ := Option.map_eq_some_iff.1 h
        rfl

variable (scrub)

/-- Every job whose state is running is a job of the console and in the map, which has one job for
each script and no other but those whose state is set and whose entry goes next; and no such job
is dropped. -/
def OneEach (s : State) : Prop :=
  (∀ id j, s.store id = some j → j.state = .running → id ∈ s.jobs ∧ (j.key, id) ∈ s.running) ∧
    (s.running.map Prod.fst).Nodup ∧
    (∀ x ∈ s.running, ∃ j, s.store x.2 = some j ∧ j.key = x.1 ∧
      (j.state = .running ∨ j.pc = .free)) ∧
    ∀ found t, step scrub s (.evict found) = some t →
      ∀ id j, s.store id = some j → j.state = .running → id ∈ t.jobs

/-- A name is held for one call, that of its run; a run that has ended, whichever way, releases
its name, and nothing else does. -/
def HeldByRun (s : State) : Prop :=
  (∀ k, k ∈ s.slots ↔ ∃ c ∈ s.calls, c.key = k ∧ c.holds = true) ∧
    (∀ k, s.calls.countP (fun c => c.holds && decide (c.key = k)) ≤ 1) ∧
    (∀ i c e, s.calls[i]? = some c → c.phase = .ended e →
      ∃ t, step scrub s (.node i .release) = some t ∧ c.key ∉ t.slots) ∧
    ∀ a t, step scrub s a = some t → ∀ k ∈ s.slots, k ∉ t.slots →
      ∃ i c e, a = .node i .release ∧ s.calls[i]? = some c ∧ c.key = k ∧ c.phase = .ended e

/-- `up` of a restart is called when its `down` has ended with 0. -/
def UpAfterDown (s : State) : Prop :=
  ∀ c ∈ s.calls, ∀ j, s.store c.job = some j → j.steps = [(ascii "down", none), (ascii "up", none)] →
    c.action = ascii "up" →
      ∃ d ∈ s.calls, d.job = c.job ∧ d.action = ascii "down" ∧ d.phase.rc = some 0

/-- A subscriber has read, once and in order, all lines but those that were dropped before, a read
brings it to the end of the lines, it is sent what it has read, and one end with the state that
the job has ended with; it is sent every line unless it was late; and once the task of the job is
over, it comes to its end by itself. -/
def Told (j : Job) (u : Sub) : Prop :=
  Reads j.emitted j.ring.base u.pos (u.lines ++ u.stand.pending) u.late ∧
    (∀ finished u', u.stand = .read finished → u.next j = some u' → u'.pos = j.emitted.length) ∧
    (u.stand ≠ .ended → u.out = u.lines.map .line) ∧
    (u.stand = .ended → j.state ≠ .running ∧ u.pos = j.emitted.length ∧
      u.out = u.lines.map .line ++ [.ended j.state] ∧
      (u.late = false → u.lines = j.emitted)) ∧
    (j.pc = .over → Ends j u)

variable {scrub}

theorem Follows.told {j : Job} {u : Sub} (h : Follows j u) (hok : j.Ok) (honce : u.once = false) :
    Told j u := by
  have hsent := h.sent
  have hsees := h.sees
  have hreads := h.reads
  refine ⟨hreads, fun finished u' hstand hnext => (h.read hok hstand hnext).2, fun hne => ?_,
    fun hend => ?_, fun hover => h.ends hok (by rw [hover]; rfl)⟩
  · unfold Sub.Sent at hsent
    split at hsent
    · next heq => exact absurd heq hne
    · exact hsent
  · unfold Sub.Sent at hsent
    unfold Sub.Sees at hsees
    rw [hend] at hsent hsees hreads
    obtain ⟨state, hout, hstate⟩ := hsent
    obtain ⟨hlive, hpos⟩ := hsees honce
    refine ⟨(live_of_state hok).1 hlive, hpos, by rw [← hstate honce]; exact hout, fun hlate => ?_⟩
    rw [hlate, hpos] at hreads
    exact (List.append_nil _).symm.trans hreads.eq_log

theorem Books.oneEach (h : Books s) : OneEach scrub s := by
  refine ⟨fun id j hj hstate => ?_, h.keys, fun x hx => ?_, fun found t hstep id j hj hstate => ?_⟩
  · have hlive := (h.ok id j hj).state.1 hstate
    exact ⟨h.listed id j hj hlive, (h.entry id j hj).2 (held_of_live hlive)⟩
  · obtain ⟨j, hj, hkey⟩ := h.mapped x hx
    refine ⟨j, hj, hkey, ?_⟩
    have hheld := (h.entry x.2 j hj).1 (hkey ▸ hx)
    by_cases hlive : j.pc.live = true
    · exact .inl ((h.ok x.2 j hj).state.2 hlive)
    · right
      cases hpc : j.pc <;> rw [hpc] at hheld hlive <;>
        first
        | rfl
        | exact absurd rfl hlive
        | exact absurd hheld Bool.false_ne_true
  · obtain ⟨hfound, heq⟩ := Option.ite_none_right_eq_some.1 hstep
    obtain rfl := Option.some.inj heq
    have hlive := (h.ok id j hj).state.1 hstate
    exact mem_evict hfound (h.listed id j hj hlive) hj hstate

theorem Slots.heldByRun (h : Slots s) : HeldByRun scrub s := by
  have hcount (k : Text × Text) := h.held k
  refine ⟨fun k => ?_, fun k => ?_, fun i c e hc hphase => ?_, fun a t hstep k hk hnot => ?_⟩
  · rw [← List.count_pos_iff, ← hcount k, List.countP_pos_iff]
    constructor
    · rintro ⟨c, hc, hp⟩
      obtain ⟨hholds, hkey⟩ := (Bool.and_eq_true _ _).mp hp
      exact ⟨c, hc, of_decide_eq_true hkey, hholds⟩
    · rintro ⟨c, hc, hkey, hholds⟩
      exact ⟨c, hc, by rw [hholds, decide_eq_true hkey]; rfl⟩
  · rw [hcount k]
    exact List.nodup_iff_count_le_one.1 h.nodup k
  · refine ⟨{ s with
      calls := s.calls.set i { c with phase := .answered e }
      slots := s.slots.erase c.key }, ?_, h.nodup.not_mem_erase⟩
    change s.node i .release = _
    unfold State.node
    rw [hc]
    dsimp only [Call.move]
    rw [hphase]
    rfl
  · cases a with
    | node i m =>
      change s.node i m = some t at hstep
      unfold State.node at hstep
      split at hstep
      · simp at hstep
      · next c hc =>
        obtain ⟨⟨c', slots⟩, hmove, rfl⟩ := Option.map_eq_some_iff.1 hstep
        cases m with
        | release =>
          unfold Call.move at hmove
          dsimp only at hmove
          split at hmove
          · next e hphase =>
            obtain ⟨-, rfl⟩ := Prod.mk.inj (Option.some.inj hmove)
            refine ⟨i, c, e, rfl, hc, ?_, hphase⟩
            by_contra hne
            exact hnot ((List.mem_erase_of_ne fun heq => hne heq.symm).2 hk)
          · simp at hmove
        | deny code =>
          obtain ⟨-, heq⟩ := Option.ite_none_right_eq_some.1 hmove
          obtain ⟨-, rfl⟩ := Prod.mk.inj (Option.some.inj heq)
          exact absurd hk hnot
        | take =>
          obtain ⟨-, heq⟩ := Option.ite_none_right_eq_some.1 hmove
          split_ifs at heq
          · obtain ⟨-, rfl⟩ := Prod.mk.inj (Option.some.inj heq)
            exact absurd hk hnot
          · obtain ⟨-, rfl⟩ := Prod.mk.inj (Option.some.inj heq)
            exact absurd (List.mem_append_left _ hk) hnot
        | ends e =>
          obtain ⟨-, heq⟩ := Option.ite_none_right_eq_some.1 hmove
          obtain ⟨-, rfl⟩ := Prod.mk.inj (Option.some.inj heq)
          exact absurd hk hnot
    | _ => exact absurd (slots_step hstep (by simp) ▸ hk) hnot

theorem Ordered.upAfterDown (h : Ordered s) : UpAfterDown s := by
  intro c hc j hj hsteps hup
  obtain ⟨i, hi, x, hx, haction⟩ := h.call c hc
  obtain rfl := Option.some.inj (hj.symm.trans hi)
  have hpos : 0 < c.step := by
    refine Nat.pos_of_ne_zero fun hzero => ?_
    rw [hsteps, hzero] at hx
    obtain rfl := Option.some.inj hx
    rw [haction] at hup
    exact absurd hup (by decide)
  obtain ⟨d, hd, hjob, hstep, hrc⟩ := h.before c hc 0 hpos
  refine ⟨d, hd, hjob, ?_, hrc⟩
  obtain ⟨i, hi, y, hy, hdaction⟩ := h.call d hd
  rw [hjob, hj] at hi
  obtain rfl := Option.some.inj hi
  rw [hsteps, hstep] at hy
  obtain rfl := Option.some.inj hy
  exact hdaction

/-- In every state that is reached : running jobs are in the map, one for each script; runs hold
their names, one for each script, until they end; `up` comes after `down`; and subscribers
follow their jobs to the end. -/
theorem scripts_followed (hrun : Reach (step scrub) .init s) :
    OneEach scrub s ∧ HeldByRun scrub s ∧ UpAfterDown s ∧
      ∀ u ∈ s.subs, u.once = false → ∃ j, s.store u.job = some j ∧ Told j u := by
  have hbooks : Books s :=
    hrun.invariant Books (fun s a t _ h hstep => h.step hstep) books_init
  have hslots : Slots s :=
    hrun.invariant Slots (fun s a t _ h hstep => h.step hstep) slots_init
  have hordered : Ordered s :=
    hrun.invariant Ordered (fun s a t _ h hstep => h.step hstep) ordered_init
  have hstreams : Books s ∧ Streams s :=
    hrun.invariant (fun s => Books s ∧ Streams s)
      (fun s a t _ h hstep => ⟨h.1.step hstep, h.2.step h.1 hstep⟩)
      ⟨books_init, by simp [Streams, State.init]⟩
  refine ⟨hbooks.oneEach, hslots.heldByRun, hordered.upAfterDown, fun u hu honce => ?_⟩
  obtain ⟨j, hj, hfollows⟩ := hstreams.2 u hu
  exact ⟨j, hj, hfollows.told (hbooks.ok _ j hj) honce⟩

end

/-! ## Runs -/

/-- The next steps of the task of the job `j`. -/
def tasks (n : ℕ) : List Act :=
  List.replicate n (.task "j" .next)

/-- The call at `i` takes the name, runs, ends with 0 and releases the name. -/
def runs (i : ℕ) : List Act :=
  [.node i .take, .node i (.ends (.exit 0)), .node i .release, .task "j" (.result (some 0))]

/-- A restart, its task to the end. -/
def restarts : List Act :=
  [.restart "j" "h" "s" true, .stream "j" false] ++ tasks 4 ++ [.task "j" (.line "x")] ++ tasks 3 ++
    runs 0 ++ tasks 4 ++ runs 1 ++ tasks 7

/-- A subscriber has the lines of a restart and its end. -/
theorem scripts_followed_restart :
    ∃ s, Reach (step id) .init s ∧ UpAfterDown s ∧ ∃ u ∈ s.subs, u.out =
      [.line "== down ==", .line "x", .line "== up ==", .ended .completed] := by
  have hrun : ((runActs (step id) .init (restarts ++ List.replicate 9 (.sub 0))).any fun s =>
      s.subs.any fun u => decide (u.out =
        [.line "== down ==", .line "x", .line "== up ==", .ended .completed])) = true := by
    decide +kernel
  obtain ⟨s, hs, hp⟩ := (Option.any_eq_true _ _).1 hrun
  obtain ⟨u, hu, hout⟩ := List.any_eq_true.1 hp
  have hreach := Reach.of_runActs hs
  exact ⟨s, hreach, (scripts_followed hreach).2.2.1, u, hu, of_decide_eq_true hout⟩

/-- A job that has completed is in the map until its task removes it, and a subscriber that asks
for what is there at once is sent its end while the job runs. -/
theorem not_followed :
    (∃ s, Reach (step id) .init s ∧ ∃ x ∈ s.running, ∃ j, s.store x.2 = some j ∧
      j.state ≠ .running) ∧
    ∃ s, Reach (step id) .init s ∧ ∃ u ∈ s.subs, u.out = [.ended .running] := by
  constructor
  · have hrun : ((runActs (step id) .init ([.run "j" "h" "s" "up" none true] ++ tasks 2 ++ runs 0 ++
        tasks 4)).any fun s => s.running.any fun x => (s.store x.2).any fun j =>
          decide (j.state ≠ .running)) = true := by decide +kernel
    obtain ⟨s, hs, hp⟩ := (Option.any_eq_true _ _).1 hrun
    obtain ⟨x, hx, hp⟩ := List.any_eq_true.1 hp
    obtain ⟨j, hj, hstate⟩ := (Option.any_eq_true _ _).1 hp
    exact ⟨s, Reach.of_runActs hs, x, hx, j, hj, of_decide_eq_true hstate⟩
  · have hrun : ((runActs (step id) .init ([.run "j" "h" "s" "up" none true, .stream "j" true] ++
        List.replicate 6 (.sub 0))).any fun s => s.subs.any fun u =>
          decide (u.out = [.ended .running])) = true := by decide +kernel
    obtain ⟨s, hs, hp⟩ := (Option.any_eq_true _ _).1 hrun
    obtain ⟨u, hu, hout⟩ := List.any_eq_true.1 hp
    exact ⟨s, Reach.of_runActs hs, u, hu, of_decide_eq_true hout⟩

end Scripts

end EngineConsole
