import EngineConsole.LinkSteps

/-!
# The two tables of a session agree

An id is owed an answer while its request is on its way to the node, in the node's table
with its res not yet queued, in a refusal about to be queued, or in a res that the hub has
not taken off `pending` (`Session.owed`). `Session.Ids` is what every step keeps of it :
each id is owed once, and only while it is pending on the hub or was when the session ended.

The hub's limit is over `pending`, the node's over its table, and an entry stays in the
table after its res is queued. So the node answers `busy` exactly where its table is full
of such entries whose answer the hub has already had : in a run in which it never looks at
a full table holding one, it answers no request `busy` (`no_busy`).
-/

set_option linter.unusedSectionVars false

namespace EngineConsole

namespace Link

variable {Args Result : Type*} {R : Rules Args Result} {s t : Session Args Result}

/-! ## The ids that are owed an answer -/

/-- The ids of the requests on their way to the node. -/
def reqIds : List (ToNode Args) → List ℕ
  | [] => []
  | .req rid _ _ :: fs => rid :: reqIds fs
  | .cancel _ :: fs => reqIds fs

@[simp] theorem reqIds_append (fs gs : List (ToNode Args)) :
    reqIds (fs ++ gs) = reqIds fs ++ reqIds gs := by
  induction fs with
  | nil => rfl
  | cons f fs ih => cases f <;> simp [reqIds, ih]

theorem reqIds_take_sublist (n : ℕ) (fs : List (ToNode Args)) :
    (reqIds (fs.take n)).Sublist (reqIds fs) := by
  conv_rhs => rw [← List.take_append_drop n fs, reqIds_append]
  exact List.sublist_append_left _ _

/-- The id of a refusal about to be queued. -/
def NodeReader.refusing : NodeReader Result → List ℕ
  | .refuse rid _ => [rid]
  | _ => []

/-- The res of the request is not queued yet. -/
def Entry.unsent (e : Entry Args Result) : Bool :=
  match e.pc with
  | .sent => false
  | _ => true

@[simp] theorem Entry.rid_cancel (e : Entry Args Result) : e.cancel.rid = e.rid :=
  rfl

@[simp] theorem Entry.unsent_cancel (e : Entry Args Result) : e.cancel.unsent = e.unsent :=
  rfl

@[simp] theorem Entry.rid_goto (pc : ThreadPc Result) (e : Entry Args Result) :
    (e.goto pc).rid = e.rid :=
  rfl

/-- The id of a res that is read and not yet taken off `pending`. -/
def HubReader.reading : HubReader Result → List ℕ
  | .found p _ => [p.rid]
  | _ => []

/-- The ids that are owed an answer, wherever it is. -/
def Session.owed (s : Session Args Result) : List ℕ :=
  reqIds s.toNode ++ s.node.reader.refusing ++
    Keyed.keysWhere Entry.rid Entry.unsent s.node.requests ++ s.toHub.map ResFrame.rid ++
    s.hub.reader.reading

/-- The ids that wait for an answer on the hub, or did when the session ended. -/
def Session.openIds (s : Session Args Result) : List ℕ :=
  s.hub.pending.map Pending.rid ++ s.failed

theorem Session.owed_def (s : Session Args Result) :
    s.owed = reqIds s.toNode ++ s.node.reader.refusing ++
      Keyed.keysWhere Entry.rid Entry.unsent s.node.requests ++ s.toHub.map ResFrame.rid ++
      s.hub.reader.reading :=
  rfl

/-- What `takeId` returns. -/
theorem takeId_spec {pending : List Pending} {rid nextId : ℕ} :
    ∀ {fuel n : ℕ}, takeId pending fuel n = some (rid, nextId) →
      rid ∉ Keyed.keys Pending.rid pending ∧ nextId = succId rid
  | 0, n, h => by simp [takeId] at h
  | fuel + 1, n, h => by
    unfold takeId at h
    split_ifs at h with hp
    · exact takeId_spec h
    · obtain ⟨rfl, rfl⟩ := Prod.mk.inj (Option.some.inj h)
      exact ⟨Keyed.isSome_find.not.1 hp, rfl⟩

/-- The invariant of the ids. -/
structure Session.Ids (s : Session Args Result) : Prop where
  owed_le : ∀ r, s.owed.count r ≤ s.openIds.count r
  open_nodup : s.openIds.Nodup
  open_le : s.openIds.length ≤ maxInflight
  table_nodup : (Keyed.keys Entry.rid s.node.requests).Nodup
  running : s.hub.writer = true → s.hub.ending = .running
  failed : s.hub.ending = .running ∨ (∃ reason, s.hub.ending = .closing reason) → s.failed = []
  starting : ∀ rid, s.node.reader = .start rid →
    ∃ e, Keyed.find Entry.rid rid s.node.requests = some e ∧ e.pc = .starting

namespace Session.Ids

theorem start (label : String) (nextId limit : ℕ) :
    (Session.start label nextId limit : Session Args Result).Ids where
  owed_le r := by simp [Session.owed, Session.start, reqIds, NodeReader.refusing,
    HubReader.reading, Keyed.keysWhere]
  open_nodup := by simp [Session.openIds, Session.start]
  open_le := by simp [Session.openIds, Session.start]
  table_nodup := by simp [Session.start]
  running _ := rfl
  failed _ := rfl
  starting rid h := by simp [Session.start] at h

/-- What the hub and the node still owe of an id that is not open is nothing. -/
theorem not_mem_owed (h : s.Ids) {r : ℕ} (hr : r ∉ s.openIds) : r ∉ s.owed := by
  have hle := h.owed_le r
  rw [List.count_eq_zero_of_not_mem hr] at hle
  exact List.count_eq_zero.1 (by omega)

theorem mem_open (h : s.Ids) {r : ℕ} (hr : r ∈ s.owed) : r ∈ s.openIds := by
  by_contra hno
  exact h.not_mem_owed hno hr

/-- A step that leaves the open ids as they are. -/
theorem of_owed_le (h : s.Ids) (howed : ∀ r, t.owed.count r ≤ s.owed.count r)
    (hpending : t.hub.pending = s.hub.pending) (hfailed : t.failed = s.failed)
    (htable : (Keyed.keys Entry.rid t.node.requests).Nodup)
    (hwriter : t.hub.writer = true → s.hub.writer = true)
    (hending : t.hub.ending = s.hub.ending)
    (hstarting : ∀ rid, t.node.reader = .start rid →
      ∃ e, Keyed.find Entry.rid rid t.node.requests = some e ∧ e.pc = .starting) : t.Ids where
  owed_le r := by
    have hopen : t.openIds = s.openIds := by simp only [Session.openIds, hpending, hfailed]
    rw [hopen]
    exact Nat.le_trans (howed r) (h.owed_le r)
  open_nodup := by
    have := h.open_nodup
    simpa only [Session.openIds, hpending, hfailed] using this
  open_le := by
    have := h.open_le
    simpa only [Session.openIds, hpending, hfailed] using this
  table_nodup := htable
  running hw := hending ▸ h.running (hwriter hw)
  failed he := hfailed ▸ h.failed (hending ▸ he)
  starting := hstarting

/-- Moving a thread on changes the ids of the table by its own only. -/
theorem count_goto (h : s.Ids) {rid : ℕ} {e : Entry Args Result}
    (he : Keyed.find Entry.rid rid s.node.requests = some e) (pc : ThreadPc Result) (r : ℕ) :
    (Keyed.keysWhere Entry.rid Entry.unsent
        (Keyed.update Entry.rid rid (Entry.goto pc) s.node.requests)).count r +
      (if e.unsent then [rid] else []).count r =
    (Keyed.keysWhere Entry.rid Entry.unsent s.node.requests).count r +
      (if (e.goto pc).unsent then [rid] else []).count r :=
  Keyed.count_keysWhere_update h.table_nodup he rfl r

/-- The entry the reader is about to start is not one of a thread that runs. -/
theorem ne_of_start (h : s.Ids) {rid r : ℕ} {e : Entry Args Result}
    (he : Keyed.find Entry.rid rid s.node.requests = some e) (hpc : e.pc ≠ .starting)
    (hr : s.node.reader = .start r) : r ≠ rid := by
  rintro rfl
  obtain ⟨e', he', hpc'⟩ := h.starting _ hr
  rw [he] at he'
  exact hpc (Option.some.inj he' ▸ hpc')

theorem starting_goto (h : s.Ids) {rid : ℕ} {e : Entry Args Result}
    (he : Keyed.find Entry.rid rid s.node.requests = some e) (hpc : e.pc ≠ .starting)
    (pc : ThreadPc Result) (r : ℕ) (hr : s.node.reader = .start r) :
    ∃ e, Keyed.find Entry.rid r (Keyed.update Entry.rid rid (Entry.goto pc) s.node.requests) =
      some e ∧ e.pc = .starting := by
  obtain ⟨e', he', hpc'⟩ := h.starting r hr
  refine ⟨e', ?_, hpc'⟩
  rw [Keyed.find_update (Entry.rid_goto pc), he', Option.map_some, Keyed.key_of_find he',
    if_neg (h.ne_of_start he hpc hr)]

theorem count_send_le (s : Session Args Result) (rid : ℕ) (res : Res Result) (r : ℕ) :
    ((s.send R rid res).map ResFrame.rid).count r ≤
      (s.toHub.map ResFrame.rid).count r + [rid].count r := by
  unfold Session.send
  split
  · simp [List.count_append]
  · exact Nat.le_add_right _ _

/-- Every step keeps the invariant. -/
theorem step (h : s.Ids) {a : Act Result Args} (hs : Link.step R s a = some t) : t.Ids := by
  have hkeep := h.starting
  cases step_cases hs with
  | stay => exact h
  | skip hid => exact { h with }
  | @admitted rid nextId op args streaming hw hlt hid =>
    have hfailed : s.failed = [] := h.failed (.inl (h.running hw))
    have hnew : rid ∉ Keyed.keys Pending.rid s.hub.pending := (takeId_spec hid).1
    exact { h with
      owed_le := fun r => by
        have := h.owed_le r
        simp only [Session.owed, Session.openIds, reqIds_append, reqIds, List.map_append,
          List.map_cons, List.map_nil, List.count_append] at this ⊢
        omega
      open_nodup := by
        have := h.open_nodup
        simp only [Session.openIds, hfailed, List.append_nil] at this
        simp only [Session.openIds, hfailed, List.append_nil, List.map_append, List.map_cons,
          List.map_nil]
        exact List.nodup_append.2 ⟨this, List.nodup_singleton rid, fun r hr r' hr' => by
          rw [List.mem_singleton.1 hr']
          exact fun hrr => hnew (hrr ▸ hr)⟩
      open_le := by
        simp only [Session.openIds, hfailed, List.append_nil, List.map_append, List.map_cons,
          List.map_nil, List.length_append, List.length_map, List.length_singleton]
        omega }
  | cancelMark hq => exact { h with }
  | cancelSend hrid hsent =>
    refine h.of_owed_le (fun r => ?_) rfl rfl h.table_nodup id rfl hkeep
    rcases hsent with rfl | rfl <;> simp [Session.owed, reqIds]
  | resDrop hin =>
    refine h.of_owed_le (fun r => ?_) rfl rfl h.table_nodup id rfl hkeep
    simp only [Session.owed, hin, List.map_cons, List.count_append, List.count_cons]
    omega
  | @resFind f rest p hrun hidle hin hp =>
    refine h.of_owed_le (fun r => ?_) rfl rfl h.table_nodup id rfl hkeep
    simp only [Session.owed, hin, hidle, HubReader.reading, Keyed.key_of_find hp, List.map_cons,
      List.count_append, List.count_cons, List.count_nil]
    omega
  | @resRemove p res hr =>
    have hcount : ∀ r, r ≠ p.rid →
        ((Keyed.remove Pending.rid p.rid s.hub.pending).map Pending.rid).count r =
          (s.hub.pending.map Pending.rid).count r := fun r hne => by
      rw [show (Keyed.remove Pending.rid p.rid s.hub.pending).map Pending.rid = _ from
        Keyed.keys_remove p.rid _, List.count_filter (by simpa using hne)]
    have hsub : ((Keyed.remove Pending.rid p.rid s.hub.pending).map Pending.rid).Sublist
        (s.hub.pending.map Pending.rid) := List.filter_sublist.map _
    exact { h with
      owed_le := fun r => by
        have hle := h.owed_le r
        simp only [Session.owed, Session.openIds, hr, HubReader.reading, List.count_append,
          List.count_nil] at hle ⊢
        by_cases hrp : r = p.rid
        · have hone := List.nodup_iff_count_le_one.1 h.open_nodup r
          simp only [Session.openIds, List.count_append] at hone
          subst hrp
          simp only [List.count_singleton_self] at hle
          omega
        · rw [hcount r hrp]
          omega
      open_nodup := h.open_nodup.sublist (hsub.append_right _)
      open_le := Nat.le_trans (hsub.append_right _).length_le h.open_le }
  | resFinish hr hq =>
    refine h.of_owed_le (fun r => ?_) rfl rfl h.table_nodup id rfl hkeep
    simp [Session.owed, hr, HubReader.reading]
  | @writerFail keep =>
    refine h.of_owed_le (fun r => ?_) rfl rfl h.table_nodup (fun hw => by simp at hw) rfl hkeep
    have := (reqIds_take_sublist keep s.toNode).count_le r
    simp only [Session.owed, List.count_append]
    omega
  | dropWriter hrun hidle =>
    exact { h with
      running := fun hw => by simp at hw
      failed := fun _ => h.failed (.inl hrun) }
  | failAll hend =>
    have hfailed : s.failed = [] := h.failed (.inr ⟨_, hend⟩)
    exact { h with
      owed_le := fun r => by
        have := h.owed_le r
        simpa [Session.owed, Session.openIds, hfailed] using this
      open_nodup := by simpa [Session.openIds, hfailed] using h.open_nodup
      open_le := by simpa [Session.openIds, hfailed] using h.open_le
      running := fun hw => by simp [h.running hw] at hend
      failed := fun he => by simp at he }
  | failOne hend =>
    exact { h with
      running := fun hw => by simp [h.running hw] at hend
      failed := fun he => by simp at he }
  | failEnd hend =>
    exact { h with
      running := fun hw => by simp [h.running hw] at hend
      failed := fun he => by simp at he }
  | reqDrop hin =>
    refine h.of_owed_le (fun r => ?_) rfl rfl h.table_nodup id rfl hkeep
    simp only [Session.owed, hin, reqIds, List.count_append, List.count_cons]
    omega
  | reqRefuse hidle hin =>
    refine h.of_owed_le (fun r => ?_) rfl rfl h.table_nodup id rfl (fun rid hr => by simp at hr)
    simp only [Session.owed, hin, hidle, reqIds, NodeReader.refusing, List.count_append,
      List.count_cons, List.count_nil]
    omega
  | reqBusy hidle hin hnew hfull =>
    refine h.of_owed_le (fun r => ?_) rfl rfl h.table_nodup id rfl (fun rid hr => by simp at hr)
    simp only [Session.owed, hin, hidle, reqIds, NodeReader.refusing, List.count_append,
      List.count_cons, List.count_nil]
    omega
  | @reqEnter policy rid op args rest cleaned hidle hin hnew hclean =>
    refine h.of_owed_le (fun r => ?_) rfl rfl ?_ id rfl ?_
    · simp only [Session.owed, hin, hidle, reqIds, NodeReader.refusing, Keyed.keysWhere_append,
        Keyed.keysWhere_cons, Entry.unsent, List.count_append, List.count_cons, List.count_nil,
        if_true, Keyed.keysWhere_nil]
      omega
    · simp only [Keyed.keys, List.map_append, List.map_cons, List.map_nil]
      exact List.nodup_append.2 ⟨h.table_nodup, List.nodup_singleton rid, fun r hr r' hr' => by
        rw [List.mem_singleton.1 hr']
        exact fun hrr => hnew (hrr ▸ hr)⟩
    · intro r hr
      obtain rfl := NodeReader.start.inj hr
      refine ⟨⟨rid, op, cleaned, false, .starting⟩, ?_, rfl⟩
      rw [Keyed.find_append_of_not_mem hnew]
      simp [Keyed.find]
  | @cancelRead policy rid rest hin =>
    refine h.of_owed_le (fun r => ?_) rfl rfl ?_ id rfl (fun r hr => ?_)
    · simp only [Session.owed, hin, reqIds, Node.updateReq, List.count_append,
        Keyed.keysWhere_update_same Entry.rid_cancel Entry.unsent_cancel, Nat.le_refl]
    · simpa only [Node.updateReq, Keyed.keys_update Entry.rid_cancel] using h.table_nodup
    · obtain ⟨e, he, hpc⟩ := hkeep r hr
      refine ⟨_, (Keyed.find_update Entry.rid_cancel r rid _).trans (congrArg _ he), ?_⟩
      show (if e.rid = rid then e.cancel else e).pc = .starting
      split <;> exact hpc
  | @threadStart rid hr =>
    obtain ⟨e, he, hpc⟩ := hkeep rid hr
    refine h.of_owed_le (fun r => ?_) rfl rfl ?_ id rfl (fun rid hr => by simp at hr)
    · have := h.count_goto he .running r
      simp only [Entry.unsent, Entry.goto, hpc, if_true] at this
      simp only [Session.owed, Node.updateReq, hr, NodeReader.refusing, List.count_append]
      omega
    · simpa only [Node.updateReq, Keyed.keys_update (Entry.rid_goto _)] using h.table_nodup
  | @threadFail rid e hr he =>
    have hpc : e.pc = .starting := by
      obtain ⟨e', he', hpc'⟩ := hkeep rid hr
      rw [he] at he'
      exact Option.some.inj he' ▸ hpc'
    refine h.of_owed_le (fun r => ?_) rfl rfl ?_ id rfl (fun rid hr => by simp at hr)
    · have := Keyed.count_keysWhere_remove (p := Entry.unsent) h.table_nodup he r
      simp only [Entry.unsent, hpc, if_true] at this
      simp only [Session.owed, Node.removeReq, hr, NodeReader.refusing, List.count_append]
      omega
    · exact Keyed.nodup_keys_remove rid h.table_nodup
  | @sendRefusal rid res hr =>
    refine h.of_owed_le (fun r => ?_) rfl rfl h.table_nodup id rfl (fun rid hr => by simp at hr)
    have := count_send_le (R := R) s rid res r
    simp only [Session.owed, hr, NodeReader.refusing, List.count_append, List.count_nil]
    omega
  | @finish rid e outcome res he hpc hres =>
    refine h.of_owed_le (fun r => ?_) rfl rfl ?_ id rfl ?_
    · have := h.count_goto he (.answer res) r
      simp only [Entry.unsent, Entry.goto, hpc, if_true] at this
      simp only [Session.owed, Node.updateReq, List.count_append]
      omega
    · simpa only [Node.updateReq, Keyed.keys_update (Entry.rid_goto _)] using h.table_nodup
    · exact h.starting_goto he (by simp [hpc]) _
  | @sendRes rid e res he hpc =>
    refine h.of_owed_le (fun r => ?_) rfl rfl ?_ id rfl ?_
    · have hsend := count_send_le (R := R) s rid res r
      have := h.count_goto he .sent r
      simp only [Entry.unsent, Entry.goto, hpc, if_true, Bool.false_eq_true, if_false,
        List.count_nil] at this
      simp only [Session.owed, Node.updateReq, List.count_append]
      omega
    · simpa only [Node.updateReq, Keyed.keys_update (Entry.rid_goto _)] using h.table_nodup
    · exact h.starting_goto he (by simp [hpc]) _
  | @removeReq rid e he hpc =>
    refine h.of_owed_le (fun r => ?_) rfl rfl ?_ id rfl (fun r hr => ?_)
    · have := Keyed.count_keysWhere_remove (p := Entry.unsent) h.table_nodup he r
      simp only [Session.owed, Node.removeReq, List.count_append]
      omega
    · exact Keyed.nodup_keys_remove rid h.table_nodup
    · obtain ⟨e', he', hpc'⟩ := hkeep r hr
      exact ⟨e', (Keyed.find_remove (h.ne_of_start he (by simp [hpc]) hr) _).trans he', hpc'⟩
  | nodeDone => exact { h with }
  | @nodeClose keep =>
    refine h.of_owed_le (fun r => ?_) rfl rfl h.table_nodup id rfl hkeep
    have := ((List.take_sublist keep s.toHub).map ResFrame.rid).count_le r
    simp only [Session.owed, List.count_append]
    omega

end Session.Ids

theorem Session.Ids.of_reach {label : String} {nextId limit : ℕ}
    (h : Reach (Link.step R) (Session.start label nextId limit) s) : s.Ids :=
  h.invariant Session.Ids (fun _ _ _ _ hi hs => hi.step hs) (Session.Ids.start label nextId limit)

/-! ## The limit of the hub and the limit of the node -/

/-- When the node looks at a full table, each entry of it is of a request that still waits on
the hub : none lingers there after its answer has arrived. -/
def Prompt (s : Session Args Result) : Act Result Args → Prop
  | .nodeRead _ => s.node.maxInflight ≤ s.node.requests.length →
      ∀ e ∈ s.node.requests, e.rid ∈ s.openIds
  | _ => True

instance (s : Session Args Result) : ∀ a, Decidable (Prompt s a)
  | .nodeRead _ => inferInstanceAs (Decidable (_ → ∀ e ∈ s.node.requests, e.rid ∈ s.openIds))
  | .begin _ _ _ | .cancelMark _ | .cancelSend _ | .resFind | .resRemove | .resFinish
  | .writerFail _ | .dropWriter _ | .failAll | .failOne | .startThread _ | .sendRefusal
  | .finish _ _ | .sendRes _ | .removeReq _ | .nodeDone | .nodeClose _ =>
    inferInstanceAs (Decidable True)

/-- A table of ids that all wait on the hub, without one more that does, is not full. -/
theorem Session.Ids.table_lt (h : s.Ids) {rid : ℕ} (hrid : rid ∈ s.openIds)
    (hnew : rid ∉ Keyed.keys Entry.rid s.node.requests)
    (hall : ∀ e ∈ s.node.requests, e.rid ∈ s.openIds) : s.node.requests.length < maxInflight := by
  have hsub : rid :: Keyed.keys Entry.rid s.node.requests ⊆ s.openIds := by
    intro r hr
    rcases List.mem_cons.1 hr with rfl | hr
    · exact hrid
    · obtain ⟨e, he, rfl⟩ := List.mem_map.1 hr
      exact hall e he
  have hle := ((List.nodup_cons.2 ⟨hnew, h.table_nodup⟩).subperm hsub).length_le
  rw [List.length_cons, List.length_map] at hle
  have := h.open_le
  omega

/-- What `no_busy` keeps along a run. -/
structure Session.NoBusy (s : Session Args Result) : Prop where
  ids : s.Ids
  limit : s.node.maxInflight = maxInflight
  noBusy : ∀ a ∈ s.answered, a.origin ≠ .busy

theorem maxInflight_step {a : Act Result Args} (hs : step R s a = some t) :
    t.node.maxInflight = s.node.maxInflight := by
  cases step_cases hs <;> rfl

theorem Session.NoBusy.step (h : s.NoBusy) {a : Act Result Args} (hok : Prompt s a)
    (hs : Link.step R s a = some t) : t.NoBusy := by
  refine ⟨h.ids.step hs, (maxInflight_step hs).trans h.limit, ?_⟩
  have hadd : ∀ (answer : Answer Args Result), answer.origin ≠ .busy →
      ∀ a ∈ s.answered ++ [answer], a.origin ≠ .busy := by
    intro answer hne a ha
    rcases List.mem_append.1 ha with ha | ha
    · exact h.noBusy a ha
    · rwa [List.mem_singleton.1 ha]
  cases step_cases hs with
  | reqRefuse => exact hadd _ (by simp)
  | threadFail => exact hadd _ (by simp)
  | finish => exact hadd _ (by simp)
  | @reqBusy policy rid op args rest hidle hin hnew hfull =>
    have howed : rid ∈ s.owed := by simp [Session.owed, hin, reqIds]
    have hlt := h.ids.table_lt (h.ids.mem_open howed) hnew (hok hfull)
    have := h.limit
    omega
  | _ => exact h.noBusy

/-- In a run in which the node never looks at a full table that holds a request whose answer
has arrived on the hub, it answers no request `busy`. -/
theorem no_busy {label : String} {nextId : ℕ}
    (h : ReachBy (step R) Prompt (Session.start label nextId maxInflight) s) :
    ∀ a ∈ s.answered, a.origin ≠ .busy := by
  have hstart : (Session.start label nextId maxInflight : Session Args Result).NoBusy :=
    ⟨Session.Ids.start label nextId maxInflight, rfl, by simp [Session.start]⟩
  exact (h.invariant Session.NoBusy (fun _ _ _ hok hi hs => hi.step hok hs) hstart).noBusy

/-! ## A run that is answered `busy` -/

/-- Rules by which every request is accepted and encodes. -/
def plainRules : Rules Unit Unit where
  isOp _ := true
  isMonitorOp op := op == "fs.stat"
  encodeReq _ _ _ := none
  encodesRes _ _ := true
  cleanArgs _ args := some args
  overlongArgs _ _ := none
  missingArgs _ _ := []
  cleanResult _ result := result
  reprStr s := s
  scrub s := s
  text s _ := s

/-- A request is begun, and its thread starts on the node. -/
def enterActs : List (Act Unit Unit) :=
  [.begin "fs.stat" () false, .nodeRead ⟨"manage", none, none⟩, .startThread true]

/-- The handler of `rid` returns, and the hub has the answer before the entry is gone. -/
def answerActs (rid : ℕ) : List (Act Unit Unit) :=
  [.finish rid (.ok ()), .sendRes rid, .resFind, .resRemove, .resFinish]

/-- A full table whose first entry is answered and gone in time for the next request. -/
theorem no_busy_full : ∃ s, runBy (step plainRules) Prompt (Session.start "node" 1 maxInflight)
      ((List.replicate maxInflight enterActs).flatten ++ answerActs 1 ++ [.removeReq 1] ++
        enterActs) = some s ∧
    s.node.requests.length = maxInflight ∧ ∀ a ∈ s.answered, a.origin ≠ .busy := by
  have hrun : ((runBy (step plainRules) Prompt (Session.start "node" 1 maxInflight)
      ((List.replicate maxInflight enterActs).flatten ++ answerActs 1 ++ [.removeReq 1] ++
        enterActs)).map fun s => s.node.requests.length) = some maxInflight := by decide +kernel
  obtain ⟨s, hs, hlen⟩ := Option.map_eq_some_iff.1 hrun
  exact ⟨s, hs, hlen, no_busy (ReachBy.of_runBy hs)⟩

/-- The hub has the answer to request 1 and begins another one while the node's table of 64
still holds request 1 : the node answers it `busy`. -/
theorem busy_while_lingering : ¬ ∀ s, Reach (step plainRules)
      (Session.start "node" 1 maxInflight) s → ∀ a ∈ s.answered, a.origin ≠ .busy := by
  intro hall
  have hrun : ((runActs (step plainRules) (Session.start "node" 1 maxInflight)
      ((List.replicate maxInflight enterActs).flatten ++ answerActs 1 ++ enterActs.take 2)).any
        fun s => s.answered.any fun a => a.origin = .busy) = true := by decide +kernel
  obtain ⟨s, hs, hbusy⟩ := (Option.any_eq_true _ _).1 hrun
  obtain ⟨a, ha, horigin⟩ := List.any_eq_true.1 hbusy
  exact hall s (Reach.of_runActs hs) a ha (by simpa using horigin)

end Link

end EngineConsole
