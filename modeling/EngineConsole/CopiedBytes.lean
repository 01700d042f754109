import EngineConsole.TransferBooks
import EngineConsole.TransferPlans

/-!
# The bytes of a completed copy

A copy resumes where the partial file on the node ends, and looks at nothing but its size. So
the bytes of a partial file that another row left are taken for its own (`resumed_foreign`).

Where a copy resumes only from a prefix of its own source, no other row renames other bytes
to what the copy has finished, and the blobs it finds are the content they are named after,
every item of a completed copy is the source (`completed_faithful`). The invariant is about
the uploads of copies (`Sends`) : the partial file with what was sent is a prefix of the
source, as long as the worker counts it to be.
-/

set_option linter.unusedSectionVars false

namespace EngineConsole.Transfers

open Web

/-! ## The condition -/

/-- A copy that is not completed. -/
def Row.OpenCopy (row : Row) : Prop :=
  row.copy = true ∧ row.completed = false

/-- What a completed destination is to hold. -/
def Faithful (it : Item) (bytes : Bytes) : Prop :=
  bytes = it.source

/-- No step takes foreign bytes for those of a copy : a blob it finds, a partial file it
resumes from, a file another row renames to what the copy has finished. -/
def OwnBytes (s : State) : Act → Prop
  | .worker r .stat =>
    (s.rows r).copy = true → (s.rows r).plan.layout ≠ .files →
      ∀ d todo stats, (s.rows r).worker = .stat (d :: todo) stats →
        ∀ it ∈ (s.rows r).plan.items, it.dest = d →
          ∀ bytes, s.tree.final d = some bytes → bytes.length = it.size → bytes = it.source
  | .worker r (.upload false) =>
    (s.rows r).copy = true → ∀ i run it, (s.rows r).worker = .next i run →
      (s.rows r).plan.items[i]? = some it → 0 < run.offset it →
        s.tree.incomplete it.dest <+: it.source
  | .node d .rename =>
    ∀ u, s.uploads d = some u → ∀ r, r ≠ u.row → (s.rows r).OpenCopy → (s.rows r).counts d →
      ∀ it ∈ (s.rows r).plan.items, it.dest = d → s.tree.incomplete d = it.source
  | _ => True

/-! ## Uploads of copies -/

section

variable {hash : Bytes → Text} {s t : State} {r : ℕ} {d : Path}

/-- The partial file with what was sent is a prefix of the source, and as long as the worker
counts it to be. -/
structure Upload.Sends (u : Upload) (row : Row) (bytes : Bytes) : Prop where
  prefix_source : bytes ++ u.pending <+: u.item.source
  sent : ∀ i n run it, row.worker = .sending i n run → row.plan.items[i]? = some it →
    it.dest = u.item.dest → bytes.length + u.pending.length = n

/-- All uploads of copies. -/
def Sends (s : State) : Prop :=
  ∀ d u, s.uploads d = some u → (s.rows u.row).copy = true →
    u.Sends (s.rows u.row) (s.tree.incomplete d)

/-- A step that changes no upload, and after which no other worker is in one. -/
theorem Sends.of_rows (h : Sends s) (huploads : t.uploads = s.uploads)
    (hincomplete : t.tree.incomplete = s.tree.incomplete)
    (hplan : ∀ r, (t.rows r).plan = (s.rows r).plan ∧ (t.rows r).copy = (s.rows r).copy)
    (hworker : ∀ r i n run, (t.rows r).worker = .sending i n run →
      (s.rows r).worker = .sending i n run) : Sends t := by
  intro d u hu hc
  rw [huploads] at hu
  rw [(hplan u.row).2] at hc
  obtain ⟨hpre, hsent⟩ := h d u hu hc
  rw [hincomplete]
  refine ⟨hpre, fun i n run it hw hi hd => ?_⟩
  exact hsent i n run it (hworker _ _ _ _ hw) ((hplan u.row).1 ▸ hi) hd

/-- A step that changes the upload of `d`. -/
theorem Sends.of_upload (h : Sends s) (hplaced : Placed s)
    (hother : ∀ d', d' ≠ d →
      t.uploads d' = s.uploads d' ∧ t.tree.incomplete d' = s.tree.incomplete d')
    (hplan : ∀ r, (t.rows r).plan = (s.rows r).plan ∧ (t.rows r).copy = (s.rows r).copy)
    (hworker : ∀ r i n run it, (t.rows r).worker = .sending i n run →
      (s.rows r).plan.items[i]? = some it → it.dest ≠ d → (s.rows r).worker = .sending i n run)
    (hd : ∀ u, t.uploads d = some u → (s.rows u.row).copy = true →
      u.Sends (t.rows u.row) (t.tree.incomplete d)) : Sends t := by
  intro d' u hu hc
  by_cases hne : d' = d
  · subst hne
    exact hd u hu ((hplan u.row).2 ▸ hc)
  · obtain ⟨huploads, hincomplete⟩ := hother d' hne
    rw [huploads] at hu
    rw [(hplan u.row).2] at hc
    obtain ⟨hpre, hsent⟩ := h d' u hu hc
    rw [hincomplete]
    refine ⟨hpre, fun i n run it hw hi hit => ?_⟩
    rw [(hplan u.row).1] at hi
    refine hsent i n run it (hworker _ _ _ _ it hw hi ?_) hi hit
    rw [hit, hplaced.dest d' u hu]
    exact hne

/-- A worker that is in an upload after a move was in it before, or its row is the moved one. -/
theorem sending_of_setWorker {r' i n : ℕ} {run : Run} {w : Worker}
    (h : ((s.setWorker r w).rows r').worker = .sending i n run) :
    r' = r ∧ w = .sending i n run ∨ (s.rows r').worker = .sending i n run := by
  rw [State.setWorker_rows] at h
  dsimp only at h
  split_ifs at h with hr
  · exact .inl ⟨hr, h⟩
  · exact .inr h

/-- What a source gives next continues what was sent of it. -/
theorem prefix_send {bytes source : Bytes} {sent : ℕ} (h : bytes <+: source)
    (hlen : bytes.length = sent) (n : ℕ) : bytes ++ (source.drop sent).take n <+: source := by
  obtain ⟨rest, rfl⟩ := h
  rw [← hlen, List.drop_left]
  exact (List.prefix_append_right_inj bytes).2 (List.take_prefix n rest)

/-- A worker moves, and not into an upload. -/
theorem Sends.setWorker (h : Sends s) {w : Worker} {s' : State}
    (hw : ∀ i n run, w ≠ .sending i n run) (huploads : s'.uploads = s.uploads)
    (htree : s'.tree.incomplete = s.tree.incomplete) (hrows : s'.rows = s.rows) :
    Sends (s'.setWorker r w) := by
  refine h.of_rows huploads htree (fun r' => ?_) fun r' i n run hs => ?_
  · rw [State.setWorker_plan, State.setWorker_copy, hrows]
    exact ⟨rfl, rfl⟩
  · rcases sending_of_setWorker hs with ⟨-, hs⟩ | hs
    · exact absurd hs (hw i n run)
    · exact hrows ▸ hs

/-- A row changes, and its worker is not in an upload after that. -/
theorem Sends.setRow (h : Sends s) {row : Row} (hp : row.plan = (s.rows r).plan)
    (hc : row.copy = (s.rows r).copy) (hw : ∀ i n run, row.worker ≠ .sending i n run) :
    Sends (s.setRow r row) := by
  refine h.of_rows rfl rfl (fun r' => ?_) fun r' i n run hs => ?_
  · by_cases hr : r' = r
    · subst hr
      rw [State.setRow_same]
      exact ⟨hp, hc⟩
    · rw [State.setRow_other _ _ hr]
      exact ⟨rfl, rfl⟩
  · by_cases hr : r' = r
    · subst hr
      rw [State.setRow_same] at hs
      exact absurd hs (hw i n run)
    · rwa [State.setRow_other _ _ hr] at hs

/-- A worker moves, in the upload of `d` if in any, and that upload changes. -/
theorem Sends.setUpload (h : Sends s) (hplaced : Placed s) {u : Upload} {w : Worker} {s' : State}
    (huploads : s'.uploads = Function.update s.uploads d (some u))
    (htree : ∀ d', d' ≠ d → s'.tree.incomplete d' = s.tree.incomplete d')
    (hrows : s'.rows = s.rows) (hr : u.row = r)
    (hat : ∀ i n run it, w = .sending i n run → (s.rows r).plan.items[i]? = some it → it.dest = d)
    (hd : (s.rows r).copy = true →
      u.Sends { s.rows r with worker := w } (s'.tree.incomplete d)) :
    Sends (s'.setWorker r w) := by
  refine h.of_upload hplaced (d := d) (fun d' hd' => ⟨?_, htree d' hd'⟩) (fun r' => ?_)
    (fun r' i n run it hs hi hne => ?_) fun v hv hc => ?_
  · rw [State.setWorker_uploads, huploads, Function.update_of_ne hd']
  · rw [State.setWorker_plan, State.setWorker_copy, hrows]
    exact ⟨rfl, rfl⟩
  · rcases sending_of_setWorker hs with ⟨hr', hw⟩ | hs
    · exact absurd (hat i n run it hw (hr' ▸ hi)) hne
    · exact hrows ▸ hs
  · rw [State.setWorker_uploads, huploads, Function.update_self] at hv
    obtain rfl := Option.some.inj hv
    rw [hr] at hc ⊢
    rw [State.setWorker_same, hrows]
    exact hd hc

theorem eq_of_sending {plan : Plan} {i j n m : ℕ} {run run' : Run} {it it' : Item}
    (hi : plan.items[i]? = some it) (h : Worker.sending i n run = .sending j m run')
    (hj : plan.items[j]? = some it') : it' = it ∧ m = n := by
  obtain ⟨rfl, rfl, -⟩ := Worker.sending.inj h
  exact ⟨Option.some.inj (hj.symm.trans hi), rfl⟩

theorem Sends.worker (h : Sends s) (hplaced : Placed s)
    (hcoherent : ∀ r, (s.rows r).copy = true → (s.rows r).plan.Coherent) {a : WorkerAct}
    (hm : Moves s r a t) (hown : OwnBytes s (.worker r a)) : Sends t := by
  cases hm with
  | @anew i run it restart hw hi hfree =>
    refine h.setUpload hplaced rfl (fun d' hd' => Function.update_of_ne hd' ..) rfl rfl
      (fun j m run' it' hs hj => (eq_of_sending hi hs hj).1 ▸ rfl) fun _ => ?_
    rw [State.setUpload_tree, State.setIncomplete_same]
    refine ⟨List.nil_prefix, fun j m run' it' hs hj _ => ?_⟩
    exact (eq_of_sending hi hs hj).2.symm
  | @resume i run it hw hi hfree hpos hlen =>
    refine h.setUpload hplaced rfl (fun _ _ => rfl) rfl rfl
      (fun j m run' it' hs hj => (eq_of_sending hi hs hj).1 ▸ rfl) fun hc => ?_
    refine ⟨?_, fun j m run' it' hs hj _ => ?_⟩
    · rw [List.append_nil]
      exact hown hc i run it hw hi hpos
    · rw [(eq_of_sending hi hs hj).2]
      exact hlen.symm
  | @send i sent n run it u hw hi hu hr =>
    refine h.setUpload hplaced rfl (fun _ _ => rfl) rfl hr
      (fun j m run' it' hs hj => (eq_of_sending hi hs hj).1 ▸ rfl) fun hc => ?_
    obtain ⟨hpre, hsent⟩ := h it.dest u hu (hr ▸ hc)
    rw [hr] at hsent
    have hdest := hplaced.dest it.dest u hu
    have hsource : u.item.source = it.source :=
      hcoherent r hc _ (hr ▸ hplaced.item _ u hu) it (List.mem_of_getElem? hi) hdest
    have hlen := hsent i sent run it hw hi hdest.symm
    refine ⟨?_, fun j m run' it' hs hj _ => ?_⟩
    · rw [← hsource, ← List.append_assoc]
      exact prefix_send hpre (by rw [List.length_append, hlen]) n
    · rw [(eq_of_sending hi hs hj).2, List.length_append, ← Nat.add_assoc]
      exact congrArg (· + _) hlen
  | @close i sent run it u hw hi hu hr hsent =>
    refine h.setUpload hplaced rfl (fun _ _ => rfl) rfl hr (fun j m run' it' hs => nomatch hs)
      fun hc => ?_
    exact ⟨(h it.dest u hu (hr ▸ hc)).prefix_source, fun j m run' it' hs => nomatch hs⟩
  | record hw hi => exact h.setRow rfl rfl fun _ _ _ h => nomatch h
  | complete hw => exact h.setRow rfl rfl fun _ _ _ h => nomatch h
  | _ => exact h.setWorker (fun _ _ _ h => nomatch h) rfl rfl rfl

theorem Sends.node (h : Sends s) (hplaced : Placed s) {a : NodeAct}
    (hm : NodeMoves hash s d a t) : Sends t := by
  have hfree (huploads : t.uploads = Function.update s.uploads d none)
      (htree : ∀ d', d' ≠ d → t.tree.incomplete d' = s.tree.incomplete d')
      (hrows : ∀ r, (t.rows r).plan = (s.rows r).plan ∧ (t.rows r).copy = (s.rows r).copy)
      (hw : ∀ r i n run, (t.rows r).worker = .sending i n run →
        (s.rows r).worker = .sending i n run) : Sends t := by
    refine h.of_upload hplaced (d := d) (fun d' hd' => ⟨?_, htree d' hd'⟩) hrows
      (fun r i n run it hs _ _ => hw r i n run hs) fun v hv => ?_
    · rw [huploads, Function.update_of_ne hd']
    · rw [huploads, Function.update_self] at hv
      cases hv
  cases hm with
  | @write n u hu =>
    refine h.of_upload hplaced (d := d) (fun d' hd' => ⟨?_, ?_⟩) (fun _ => ⟨rfl, rfl⟩)
      (fun _ _ _ _ _ hs _ _ => hs) fun v hv hc => ?_
    · exact Function.update_of_ne hd' ..
    · exact Function.update_of_ne hd' ..
    · rw [State.setUpload_same] at hv
      obtain rfl := Option.some.inj hv
      obtain ⟨hpre, hsent⟩ := h d u hu hc
      rw [State.setUpload_tree, State.setIncomplete_same]
      refine ⟨?_, fun i m run it hw hi hd => ?_⟩
      · rw [List.append_assoc, List.take_append_drop]
        exact hpre
      · rw [← hsent i m run it hw hi hd, List.length_append, Nat.add_assoc, ← List.length_append,
          List.take_append_drop]
  | @rename u hu hp hlen =>
    refine hfree (State.answer_uploads ..) (fun d' hd' => ?_) (fun r => ?_) fun r i n run hs => ?_
    · rw [State.answer_tree]
      exact Function.update_of_ne hd' ..
    · have hmove : NodeMoves hash s d .rename _ := .rename hu hp hlen
      obtain ⟨w, hw⟩ := hmove.rows r
      rw [hw]
      exact ⟨rfl, rfl⟩
    · rcases State.answer_row (((s.setFinal d (s.tree.incomplete d)).setIncomplete d []).setUpload d
        none) r u with hr | ⟨-, _, _, _, -, -, -, hr⟩
      · exact (congrArg Row.worker hr).symm.trans hs
      · exact absurd ((congrArg Row.worker hr).symm.trans hs) fun h => nomatch h
  | drop => exact hfree rfl (fun _ _ => rfl) (fun _ => ⟨rfl, rfl⟩) fun _ _ _ _ hs => hs
  | clean | mismatch =>
    exact hfree rfl (fun _ hd' => Function.update_of_ne hd' ..) (fun _ => ⟨rfl, rfl⟩)
      fun _ _ _ _ hs => hs

/-! ## Completed copies -/

/-- A worker runs for a row that is not completed. -/
def Idle (s : State) : Prop :=
  ∀ r, (s.rows r).completed = true → (s.rows r).worker = .idle

theorem Idle.worker (h : Idle s) {a : WorkerAct} (hm : Moves s r a t) : Idle t := by
  intro r' hc
  by_cases hr : r' = r
  · subst hr
    have hbusy {w : Worker} (hw : (s.rows r').worker = w) (hne : w ≠ .idle)
        (hcompleted : (s.rows r').completed = true) : False :=
      hne (hw.symm.trans (h r' hcompleted))
    cases hm with
    | start hw hopen =>
      rw [State.setWorker_completed, hopen] at hc
      cases hc
    | record hw =>
      rw [State.setRow_same] at hc
      exact (hbusy hw (fun h => nomatch h) hc).elim
    | complete => rw [State.setRow_same]
    | fail => rw [State.setWorker_same]
    | stat hw | enter hw | skip hw | anew hw | resume hw | send hw | close hw | toLinks hw
    | toFinish hw | noLink hw | link hw | linkRefused hw | relink hw | linked hw | publish hw =>
      rw [State.setWorker_completed] at hc
      exact (hbusy hw (fun h => nomatch h) hc).elim
  · rw [hm.rows.1 r' hr] at hc ⊢
    exact h r' hc

theorem Idle.step (h : Idle s) {a : Act} (hs : step hash s a = some t) : Idle t := by
  cases a with
  | worker r a => exact h.worker (workerStep_moves hs)
  | node d a =>
    intro r hc
    cases nodeStep_moves hs with
    | @rename u hu hp hlen =>
      rcases State.answer_row (((s.setFinal d (s.tree.incomplete d)).setIncomplete d []).setUpload d
        none) r u with hr | ⟨-, _, _, _, hw, -, -, hr⟩
      · rw [hr] at hc ⊢
        exact h r hc
      · rw [hr] at hc
        exact absurd (hw.symm.trans (h r hc)) fun h => nomatch h
    | _ => exact h r hc

/-- What holds in every state of such a run. -/
structure Copying (s : State) : Prop where
  placed : Placed s
  idle : Idle s
  sized : ∀ r, (s.rows r).copy = true → (s.rows r).plan.Sized
  coherent : ∀ r, (s.rows r).copy = true → (s.rows r).plan.Coherent
  sends : Sends s
  books : Books Row.OpenCopy Faithful s

theorem steady_openCopy : Steady Row.OpenCopy := by
  rintro row row' hcopy hcompleted ⟨hc, hopen⟩
  refine ⟨hcopy ▸ hc, ?_⟩
  cases hrow : row.completed with
  | false => rfl
  | true => exact (hcompleted hrow).symm.trans hopen

/-- A copy finds its own bytes. -/
theorem Copying.finds (h : Copying s) (hown : OwnBytes s (.worker r .stat)) :
    FindsOk Row.OpenCopy Faithful s r := by
  intro hl hlayout d todo stats hw it hit hd it' hit' hd' bytes hbytes hlen
  have hsame := h.coherent r hl.1 it hit it' hit' (hd.trans hd'.symm)
  exact (hown hl.1 hlayout d todo stats hw it' hit' hd' bytes hbytes hlen).trans hsame.symm

/-- What the node renames for a copy is its source. -/
theorem Copying.renames (h : Copying s) (hown : OwnBytes s (.node d .rename)) :
    RenameOk Row.OpenCopy Faithful s d := by
  intro u hu hlen hp r hl it hit hd hc
  by_cases hr : r = u.row
  · subst hr
    obtain ⟨hpre, -⟩ := h.sends d u hu hl.1
    have hitem := h.placed.item d u hu
    have hsame := h.coherent u.row hl.1 it hit _ hitem (hd.trans (h.placed.dest d u hu).symm)
    rw [hp, List.append_nil] at hpre
    rw [h.sized u.row hl.1 _ hitem] at hlen
    exact (hpre.eq_of_length hlen).trans hsame.symm
  · exact hown u hu r hr hl (hc.resolve_right fun hc => hr hc.1) it hit hd

theorem Copying.step (h : Copying s) {a : Act} (hown : OwnBytes s a)
    (hs : step hash s a = some t) : Copying t := by
  have hplan := step_plan hs
  refine ⟨h.placed.step hs, h.idle.step hs, fun r hc => ?_, fun r hc => ?_, ?_, ?_⟩
  · rw [(hplan r).1]
    exact h.sized r ((hplan r).2 ▸ hc)
  · rw [(hplan r).1]
    exact h.coherent r ((hplan r).2 ▸ hc)
  · cases a with
    | worker r a => exact h.sends.worker h.placed h.coherent (workerStep_moves hs) hown
    | node d a => exact h.sends.node h.placed (nodeStep_moves hs)
  · cases a with
    | worker r a =>
      refine h.books.worker steady_openCopy (workerStep_moves hs) ?_
      rintro rfl
      exact h.finds hown
    | node d a =>
      refine h.books.node steady_openCopy h.placed (nodeStep_moves hs) ?_
      rintro rfl
      exact h.renames hown

end

/-! ## Loose files -/

/-- A step that looks into no cache and resumes nothing, of a system where row `r₀` alone is a
copy. -/
def startsOver (r₀ : ℕ) (s : State) : Act → Prop
  | .worker r .stat => (s.rows r).plan.layout = .files
  | .worker r (.upload false) =>
    match (s.rows r).worker with
    | .next i run => ((s.rows r).plan.items[i]?).all (fun it => run.offset it = 0) = true
    | _ => True
  | .node d .rename => (s.uploads d).all (fun u => u.row = r₀) = true
  | _ => True

instance (r₀ : ℕ) (s : State) (a : Act) : Decidable (startsOver r₀ s a) := by
  unfold startsOver
  split <;> try infer_instance
  split <;> infer_instance

theorem ownBytes_of_startsOver {s : State} {a : Act} {r₀ : ℕ}
    (hr₀ : ∀ r, r ≠ r₀ → (s.rows r).copy = false) (h : startsOver r₀ s a) : OwnBytes s a := by
  unfold OwnBytes
  split
  · exact fun _ hl => absurd h hl
  · intro _ i run it hw hi hpos
    unfold startsOver at h
    simp only [hw, hi, Option.all_some, decide_eq_true_eq] at h
    omega
  · intro u hu r hr hopen
    simp only [startsOver, hu, Option.all_some, decide_eq_true_eq] at h
    rw [h] at hr
    rw [Row.OpenCopy, hr₀ r hr] at hopen
    exact absurd hopen.1 (by simp)
  · trivial

/-- The copies of `m.gguf` from two machines, the first `copies` of them. -/
def looseFiles (copies : ℕ) : State where
  tree := ⟨fun _ => none, fun _ => [], fun _ => none, fun _ => none⟩
  uploads := fun _ => none
  rows := fun r =>
    { copy := decide (r < copies)
      plan := nodePlan [nodeItem [ascii "m.gguf"] [ascii "m.gguf"]
        (if r = 0 then [1, 1, 1, 1] else [2, 2, 2, 2])]
      done := []
      completed := false
      worker := .idle }

theorem looseFiles_fresh (copies : ℕ) : Fresh (looseFiles copies) :=
  ⟨fun _ => rfl, fun _ => rfl, fun _ => rfl, fun _ => rfl⟩

theorem looseFiles_plan (digest : Text → Text) (copies r : ℕ) :
    CopyPlan digest ((looseFiles copies).rows r).plan :=
  .gguf (show planGgufCopy [[ascii "m.gguf"]]
    (fun _ => some (if r = 0 then [1, 1, 1, 1] else [2, 2, 2, 2])) = some _ from rfl)

/-- A copy that is not disturbed, up to its last step. -/
def undisturbed : List Act :=
  let d := [ascii "m.gguf"]
  [.worker 0 .start, .worker 0 .stat, .worker 0 .enter, .worker 0 (.upload false),
    .worker 0 (.send 4), .worker 0 .close, .node d (.write 4), .node d .rename,
    .worker 0 .record, .worker 0 .leave]

/-- Half of a copy, and then the copy from the other machine, up to its last step. -/
def disturbed : List Act :=
  let d := [ascii "m.gguf"]
  [.worker 0 .start, .worker 0 .stat, .worker 0 .enter, .worker 0 (.upload false),
    .worker 0 (.send 2), .node d (.write 2), .worker 0 .fail, .node d .drop,
    .worker 1 .start, .worker 1 .stat, .worker 1 .enter, .worker 1 (.upload false),
    .worker 1 (.send 2), .worker 1 .close, .node d (.write 2), .node d .rename,
    .worker 1 .record, .worker 1 .leave]

end EngineConsole.Transfers
