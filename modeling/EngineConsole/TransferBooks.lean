import EngineConsole.Transfers

/-!
# What a row takes as done

A worker does not look at a destination again once it counts it as done : because the row
finished it in this run or in an earlier one (`done_json`), or because the run found a blob
of its name and size. `Row.counts` says which destinations those are, and a worker that is
past its items counts all of them (`Sound.all`).

A property of what a destination holds is kept for all destinations that a row counts
(`Books`) if it holds of what a worker finds and of what the node renames into place.
-/

set_option linter.unusedSectionVars false

namespace EngineConsole.Transfers

open Web

/-- The run found a blob of the name and size of an item. -/
def Found (plan : Plan) (stats : List (Path × Stat)) (d : Path) : Prop :=
  plan.layout ≠ .files ∧ ∃ it ∈ plan.items, it.dest = d ∧ (statOf stats d).isThere = true ∧
    (statOf stats d).size = it.size

/-- The worker does not look at `d` again. -/
def Worker.counts (plan : Plan) (d : Path) : Worker → Prop
  | .idle => False
  | .stat _ stats => Found plan stats d
  | .next _ run | .sending _ _ run | .waiting _ run => Found plan run.stats d
  | .stored i run => Found plan run.stats d ∨ ∃ it, plan.items[i]? = some it ∧ it.dest = d
  | .link _ | .relink _ | .refs | .finish => ∃ it ∈ plan.items, it.dest = d

/-- The row takes `d` as done. -/
def Row.counts (row : Row) (d : Path) : Prop :=
  d ∈ row.done ∨ row.worker.counts row.plan d

/-- The items before the one a run is at are done. -/
def Run.Sound (run : Run) (row : Row) (i : ℕ) : Prop :=
  run.finished ⊆ row.done ∧ run.written ⊆ row.done ∧
    ∀ j it, j < i → row.plan.items[j]? = some it →
      run.complete row.plan it = true ∨ it.dest ∈ run.written

/-- So they are where a worker has a run. -/
def Row.Sound (row : Row) : Prop :=
  match row.worker with
  | .next i run | .sending i _ run | .waiting i run | .stored i run => run.Sound row i
  | _ => True

theorem counts_of_complete {row : Row} {run : Run} {it : Item} (hit : it ∈ row.plan.items)
    (hf : run.finished ⊆ row.done) (h : run.complete row.plan it = true) :
    it.dest ∈ row.done ∨ Found row.plan run.stats it.dest := by
  simp only [Run.complete, Bool.and_eq_true, decide_eq_true_eq, Bool.or_eq_true,
    List.contains_iff_mem] at h
  obtain ⟨⟨hthere, hsize⟩, hl | hd⟩ := h
  · exact .inr ⟨hl, it, hit, rfl, hthere, hsize⟩
  · exact .inl (hf hd)

/-- A worker at the end of its items counts all of them. -/
theorem Row.Sound.all {row : Row} {run : Run} (h : row.Sound)
    (hw : row.worker = .next row.plan.items.length run) {it : Item} (hit : it ∈ row.plan.items) :
    row.counts it.dest := by
  rw [Row.Sound, hw] at h
  obtain ⟨hf, hwr, hall⟩ := h
  obtain ⟨j, hj, rfl⟩ := List.getElem_of_mem hit
  rw [Row.counts, hw]
  rcases hall j _ hj (List.getElem?_eq_getElem hj) with hc | hc
  · exact counts_of_complete hit hf hc
  · exact .inl (hwr hc)

/-! ## The books -/

section

variable {live : Row → Prop} {P : Item → Bytes → Prop} {hash : Bytes → Text} {s t : State}
  {r : ℕ} {d : Path}

/-- What a live row counts as done is there, and `P` holds of it. -/
structure Books (live : Row → Prop) (P : Item → Bytes → Prop) (s : State) : Prop where
  sound : ∀ r, (s.rows r).Sound
  kept : ∀ r, live (s.rows r) → ∀ it ∈ (s.rows r).plan.items, (s.rows r).counts it.dest →
    ∃ bytes, s.tree.final it.dest = some bytes ∧ P it bytes

/-- A step that changes one row and no file. -/
theorem Books.of_row (h : Books live P s) (hfinal : t.tree.final = s.tree.final)
    (hother : ∀ r', r' ≠ r → t.rows r' = s.rows r') (hplan : (t.rows r).plan = (s.rows r).plan)
    (hlive : live (t.rows r) → live (s.rows r)) (hsound : (t.rows r).Sound)
    (hcounts : live (s.rows r) → ∀ it ∈ (s.rows r).plan.items, (t.rows r).counts it.dest →
      (s.rows r).counts it.dest ∨ ∃ bytes, s.tree.final it.dest = some bytes ∧ P it bytes) :
    Books live P t := by
  refine ⟨fun r' => ?_, fun r' hl it hit hc => ?_⟩
  · by_cases hr : r' = r
    · exact hr ▸ hsound
    · rw [hother r' hr]
      exact h.sound r'
  · rw [hfinal]
    by_cases hr : r' = r
    · subst hr
      rw [hplan] at hit
      rcases hcounts (hlive hl) it hit hc with hc | hb
      · exact h.kept r' (hlive hl) it hit hc
      · exact hb
    · rw [hother r' hr] at hl hit hc
      exact h.kept r' hl it hit hc

theorem not_found_nil {plan : Plan} : ¬Found plan [] d := by
  rintro ⟨-, it, -, -, hthere, -⟩
  cases hthere

theorem statOf_cons {stats : List (Path × Stat)} {d' : Path} {st : Stat} :
    statOf ((d', st) :: stats) d = if d' = d then st else statOf stats d := by
  unfold statOf
  rw [List.find?_cons]
  by_cases h : d' = d <;> simp [h]

/-- What a worker finds : it was found before, or it is there now. -/
theorem Found.of_stat {plan : Plan} {stats : List (Path × Stat)} {d' : Path}
    (h : Found plan ((d', s.tree.stat d') :: stats) d) : Found plan stats d ∨
      plan.layout ≠ .files ∧ d' = d ∧ ∃ it ∈ plan.items, it.dest = d ∧
        ∃ bytes, s.tree.final d = some bytes ∧ bytes.length = it.size := by
  obtain ⟨hl, it, hit, hd, hthere, hsize⟩ := h
  rw [statOf_cons] at hthere hsize
  by_cases he : d' = d
  · subst he
    rw [if_pos rfl] at hthere hsize
    refine .inr ⟨hl, rfl, it, hit, hd, ?_⟩
    unfold Tree.stat at hthere hsize
    cases hf : s.tree.final d' with
    | none => simp [hf] at hthere
    | some bytes => exact ⟨bytes, rfl, by simpa [hf] using hsize⟩
  · rw [if_neg he] at hthere hsize
    exact .inl ⟨hl, it, hit, hd, hthere, hsize⟩

/-- A row is live only while it is not completed, if that matters. -/
def Steady (live : Row → Prop) : Prop :=
  ∀ row row' : Row, row'.copy = row.copy → (row.completed = true → row'.completed = true) →
    live row' → live row

/-- What a worker may find, `P` holds of. -/
def FindsOk (live : Row → Prop) (P : Item → Bytes → Prop) (s : State) (r : ℕ) : Prop :=
  live (s.rows r) → (s.rows r).plan.layout ≠ .files → ∀ d todo stats,
    (s.rows r).worker = .stat (d :: todo) stats → ∀ it ∈ (s.rows r).plan.items, it.dest = d →
      ∀ it' ∈ (s.rows r).plan.items, it'.dest = d → ∀ bytes, s.tree.final d = some bytes →
        bytes.length = it'.size → P it bytes

/-- A step that moves one worker. -/
theorem Books.of_worker (h : Books live P s) (hlive : Steady live) {s' : State}
    (hfinal : s'.tree.final = s.tree.final) (hsame : s'.rows = s.rows) {w : Worker}
    (hsound : ({ s.rows r with worker := w } : Row).Sound)
    (hcounts : live (s.rows r) → ∀ it ∈ (s.rows r).plan.items, w.counts (s.rows r).plan it.dest →
      (s.rows r).counts it.dest ∨ ∃ bytes, s.tree.final it.dest = some bytes ∧ P it bytes) :
    Books live P (s'.setWorker r w) := by
  have hrow : (s'.setWorker r w).rows r = { s.rows r with worker := w } := by
    rw [State.setWorker_same, hsame]
  refine h.of_row (r := r) hfinal (fun r' hr => ?_) ?_ ?_ ?_ fun hl it hit hc => ?_
  · rw [State.setWorker_other _ _ hr, hsame]
  · rw [hrow]
  · rw [hrow]
    exact hlive _ _ rfl id
  · rw [hrow]
    exact hsound
  · rw [hrow] at hc
    rcases hc with hd | hc
    · exact .inl (.inl hd)
    · exact hcounts hl it hit hc

theorem counts_of_worker {row : Row} {w : Worker} (hw : row.worker = w)
    (h : w.counts row.plan d) : row.counts d :=
  .inr (hw ▸ h)

/-- A step that moves one worker, which counts no more. -/
theorem Books.move (h : Books live P s) (hlive : Steady live) {s' : State} {w w' : Worker}
    (hw : (s.rows r).worker = w) (hfinal : s'.tree.final = s.tree.final)
    (hsame : s'.rows = s.rows) (hsound : ({ s.rows r with worker := w' } : Row).Sound)
    (hcounts : ∀ d, w'.counts (s.rows r).plan d → w.counts (s.rows r).plan d) :
    Books live P (s'.setWorker r w') :=
  h.of_worker hlive hfinal hsame hsound
    fun _ _ _ hc => .inl (counts_of_worker hw (hcounts _ hc))

theorem Row.Sound.run {row : Row} (h : row.Sound) : ∀ {i : ℕ} (sent : ℕ) {run : Run},
    row.worker = .next i run ∨ row.worker = .sending i sent run ∨ row.worker = .waiting i run ∨
      row.worker = .stored i run → run.Sound row i := by
  intro i sent run hw
  unfold Row.Sound at h
  rcases hw with hw | hw | hw | hw <;> simpa only [hw] using h

theorem Books.worker (h : Books live P s) (hlive : Steady live) {a : WorkerAct}
    (hm : Moves s r a t) (hfinds : a = .stat → FindsOk live P s r) : Books live P t := by
  have hsnd := h.sound r
  cases hm with
  | start hw hc =>
    exact h.of_worker hlive rfl rfl trivial fun _ it _ hcnt => absurd hcnt not_found_nil
  | @stat d todo stats hw =>
    refine h.of_worker hlive rfl rfl trivial fun hl it hit hcnt => ?_
    rcases Found.of_stat hcnt with hf | ⟨hlayout, hd, it', hit', hd', bytes, hbytes, hlen⟩
    · exact .inl (counts_of_worker hw hf)
    · exact .inr ⟨bytes, hbytes, hfinds rfl hl hlayout d todo stats hw it hit hd.symm it' hit'
        (hd'.trans hd.symm) bytes (hd ▸ hbytes) hlen⟩
  | enter hw =>
    refine h.of_worker hlive rfl rfl ⟨fun _ hd => hd, fun _ hd => absurd hd (by simp), ?_⟩
      fun _ it _ hcnt => .inl (counts_of_worker hw hcnt)
    exact fun j it hj _ => absurd hj (by omega)
  | @skip i run it hw hi hok =>
    obtain ⟨hf, hwr, hall⟩ := hsnd.run 0 (.inl hw)
    refine h.of_worker hlive rfl rfl ⟨hf, hwr, fun j it' hj hit' => ?_⟩
      fun _ it _ hcnt => .inl (counts_of_worker hw hcnt)
    rcases Nat.lt_succ_iff_lt_or_eq.1 hj with hj | rfl
    · exact hall j it' hj hit'
    · obtain rfl := Option.some.inj (hi.symm.trans hit')
      exact hok
  | anew hw hi hfree =>
    exact h.move hlive hw (by rfl) (by rfl) (hsnd.run 0 (.inl hw)) fun _ hc => hc
  | resume hw hi hfree hpos hlen =>
    exact h.move hlive hw (by rfl) (by rfl) (hsnd.run 0 (.inl hw)) fun _ hc => hc
  | send hw hi hu hr =>
    exact h.move hlive hw (by rfl) (by rfl) (hsnd.run _ (.inr (.inl hw))) fun _ hc => hc
  | close hw hi hu hr hsent =>
    exact h.move hlive hw (by rfl) (by rfl) (hsnd.run _ (.inr (.inl hw))) fun _ hc => hc
  | @record i run it hw hi =>
    obtain ⟨hf, hwr, hall⟩ := hsnd.run 0 (.inr (.inr (.inr hw)))
    refine h.of_row (r := r) rfl (fun r' hr => State.setRow_other _ _ hr)
      (by rw [State.setRow_same]) ?_ ?_ fun _ it' _ hcnt => .inl ?_
    · rw [State.setRow_same]
      exact hlive _ _ rfl id
    · rw [State.setRow_same]
      refine ⟨fun d hd => List.mem_cons_of_mem _ (hf hd), ?_, fun j it' hj hit' => ?_⟩
      · exact List.cons_subset_cons _ hwr
      · rcases Nat.lt_succ_iff_lt_or_eq.1 hj with hj | rfl
        · exact (hall j it' hj hit').imp id fun hd => List.mem_cons_of_mem _ hd
        · obtain rfl := Option.some.inj (hi.symm.trans hit')
          exact .inr List.mem_cons_self
    · rw [State.setRow_same] at hcnt
      rcases hcnt with hd | hfound
      · rcases List.mem_cons.1 hd with hd | hd
        · exact counts_of_worker hw (.inr ⟨it, hi, hd.symm⟩)
        · exact .inl hd
      · exact counts_of_worker hw (.inl hfound)
  | toLinks hw hlayout =>
    exact h.of_worker hlive rfl rfl trivial fun _ it hit _ => .inl (hsnd.all hw hit)
  | toFinish hw =>
    exact h.of_worker hlive rfl rfl trivial fun _ it hit _ => .inl (hsnd.all hw hit)
  | noLink hw hi hl =>
    exact h.move hlive hw (by rfl) (by rfl) trivial fun _ hc => hc
  | link hw hi hl =>
    exact h.move hlive hw (by rfl) (by rfl) trivial fun _ hc => hc
  | linkRefused hw =>
    exact h.move hlive hw (by rfl) (by rfl) trivial fun _ hc => hc
  | relink hw hi hl hleads =>
    exact h.move hlive hw (by rfl) (by rfl) trivial fun _ hc => hc
  | linked hw =>
    exact h.move hlive hw (by rfl) (by rfl) trivial fun _ hc => hc
  | publish hw hf hc =>
    exact h.move hlive hw (by rfl) (by rfl) trivial fun _ hc => hc
  | complete hw =>
    refine h.of_row (r := r) rfl (fun r' hr => State.setRow_other _ _ hr)
      (by rw [State.setRow_same]) ?_ ?_ fun _ it _ hcnt => .inl ?_
    · rw [State.setRow_same]
      exact hlive _ _ rfl fun _ => rfl
    · rw [State.setRow_same]
      trivial
    · rw [State.setRow_same] at hcnt
      exact hcnt.imp id False.elim
  | fail hw =>
    exact h.move hlive rfl (by rfl) (by rfl) trivial fun _ hc => hc.elim

/-- An upload is of an item of its row, and holds the path of it. -/
structure Placed (s : State) : Prop where
  dest : ∀ d u, s.uploads d = some u → u.item.dest = d
  item : ∀ d u, s.uploads d = some u → u.item ∈ (s.rows u.row).plan.items

/-- The worker of a row waits for the upload of `d`. -/
def Row.waits (row : Row) (d : Path) : Prop :=
  ∃ i run it, row.worker = .waiting i run ∧ row.plan.items[i]? = some it ∧ it.dest = d

/-- What the node renames into place, `P` holds of : for the rows that count the destination
and for the row whose worker waits for it. -/
def RenameOk (live : Row → Prop) (P : Item → Bytes → Prop) (s : State) (d : Path) : Prop :=
  ∀ u, s.uploads d = some u → (s.tree.incomplete d).length = u.item.size → u.pending = [] →
    ∀ r, live (s.rows r) → ∀ it ∈ (s.rows r).plan.items, it.dest = d →
      (s.rows r).counts d ∨ r = u.row ∧ (s.rows r).waits d → P it (s.tree.incomplete d)

theorem Books.node (h : Books live P s) (hlive : Steady live) (hplaced : Placed s) {a : NodeAct}
    (hm : NodeMoves hash s d a t) (hrename : a = .rename → RenameOk live P s d) :
    Books live P t := by
  cases hm with
  | @rename u hu hp hlen =>
    set s₁ := ((s.setFinal d (s.tree.incomplete d)).setIncomplete d []).setUpload d none with hs₁
    have hrows : s₁.rows = s.rows := rfl
    have hfinal : ∀ d', (s₁.answer u).tree.final d' =
        if d' = d then some (s.tree.incomplete d) else s.tree.final d' := by
      intro d'
      rw [State.answer_tree]
      exact Function.update_apply ..
    refine ⟨fun r => ?_, fun r hl it hit hc => ?_⟩
    · rcases s₁.answer_row r u with hr | ⟨-, i, run, it, hw, -, -, hr⟩
      · rw [hr, hrows]
        exact h.sound r
      · rw [hr, hrows]
        exact (h.sound r).run 0 (.inr (.inr (.inl hw)))
    · have hold : live (s.rows r) ∧ it ∈ (s.rows r).plan.items ∧
          ((s.rows r).counts it.dest ∨ it.dest = d ∧ r = u.row ∧ (s.rows r).waits d) := by
        rcases s₁.answer_row r u with hr | ⟨hru, i, run, it', hw, hi, hd, hr⟩
        · rw [hr, hrows] at hl hit hc
          exact ⟨hl, hit, .inl hc⟩
        · rw [hr, hrows] at hl hit hc
          rw [hplaced.dest d u hu] at hd
          refine ⟨hlive (s.rows r) { s.rows r with worker := .stored i run } rfl id hl, hit, ?_⟩
          rcases hc with hc | hc | ⟨it₂, hi₂, hd₂⟩
          · exact .inl (.inl hc)
          · exact .inl (counts_of_worker hw hc)
          · obtain rfl := Option.some.inj (hi.symm.trans hi₂)
            exact .inr ⟨hd₂.symm.trans hd, hru, i, run, it', hw, hi, hd⟩
      obtain ⟨hl, hit, hc⟩ := hold
      rw [hfinal]
      split_ifs with hd
      · refine ⟨_, rfl, hrename rfl u hu hlen hp r hl it hit hd ?_⟩
        exact hc.imp (fun hc => hd ▸ hc) fun hc => hc.2
      · exact h.kept r hl it hit (hc.resolve_right fun hc => hd hc.1)
  | _ => exact ⟨h.sound, h.kept⟩

/-- Nothing is counted at the start. -/
theorem Fresh.books (h : Fresh s) : Books live P s := by
  refine ⟨fun r => ?_, fun r _ it _ hc => ?_⟩
  · rw [Row.Sound, h.worker r]
    trivial
  · rw [Row.counts, h.done r, h.worker r] at hc
    exact hc.elim (fun hd => absurd hd List.not_mem_nil) False.elim

theorem Placed.update (h : Placed s) (hplan : ∀ r, (t.rows r).plan = (s.rows r).plan)
    {u : Option Upload} (ht : t.uploads = Function.update s.uploads d u)
    (hu : ∀ v, u = some v → v.item.dest = d ∧ v.item ∈ (s.rows v.row).plan.items) : Placed t := by
  have hold (d' : Path) (v : Upload) (hv : t.uploads d' = some v) :
      v.item.dest = d' ∧ v.item ∈ (s.rows v.row).plan.items := by
    rw [ht, Function.update_apply] at hv
    split_ifs at hv with hd
    · exact hd ▸ hu v hv
    · exact ⟨h.dest d' v hv, h.item d' v hv⟩
  exact ⟨fun d' v hv => (hold d' v hv).1, fun d' v hv => hplan v.row ▸ (hold d' v hv).2⟩

theorem Placed.step (h : Placed s) {a : Act} (hs : step hash s a = some t) : Placed t := by
  have hplan (r : ℕ) := (step_plan hs r).1
  have hsame (ht : t.uploads = s.uploads) : Placed t := by
    refine ⟨fun d u hu => h.dest d u (ht ▸ hu), fun d u hu => ?_⟩
    rw [hplan]
    exact h.item d u (ht ▸ hu)
  cases a with
  | worker r a =>
    have hm := workerStep_moves hs
    cases hm with
    | anew hw hi hfree | resume hw hi hfree hpos hlen =>
      refine h.update hplan rfl fun v hv => ?_
      obtain rfl := Option.some.inj hv
      exact ⟨rfl, List.mem_of_getElem? hi⟩
    | @send _ _ _ _ _ u hw hi hu hr | @close _ _ _ _ u hw hi hu hr hsent =>
      refine h.update hplan rfl fun v hv => ?_
      obtain rfl := Option.some.inj hv
      exact ⟨h.dest _ u hu, h.item _ u hu⟩
    | _ => exact hsame rfl
  | node d a =>
    have hm := nodeStep_moves hs
    cases hm with
    | rename hu hp hlen => exact h.update hplan (State.answer_uploads ..) fun v hv => nomatch hv
    | @write _ u hu =>
      refine h.update hplan rfl fun v hv => ?_
      obtain rfl := Option.some.inj hv
      exact ⟨h.dest _ u hu, h.item _ u hu⟩
    | _ => exact h.update hplan rfl fun v hv => nomatch hv

/-- There are no uploads at the start. -/
theorem Fresh.placed (h : Fresh s) : Placed s := by
  refine ⟨fun d u hu => ?_, fun d u hu => ?_⟩ <;>
  · rw [h.uploads d] at hu
    cases hu

end

end EngineConsole.Transfers
