import EngineConsole.LinkTables

/-!
# Every request gets its own single answer

What the hub asked (`Session.asks`) is answered on the node at most once for each id, by the
handler that ran with the request's own op and arguments or by the refusal of that very
request (`Session.Origins`); each res in flight, and the one the hub's reader holds, is such
an answer. On the hub a request is finished when it leaves `pending`, and only then
(`Session.Finishes`). While fewer than `maxId` ids were taken, no id comes round a second
time (`Session.FreshIds`), so the id of an answer names one request.

Together : `Session.Answered`, in every state of every session (`own_answer`).
-/

set_option linter.unusedSectionVars false

namespace EngineConsole

namespace Link

variable {Args Result : Type*} {R : Rules Args Result} {s t : Session Args Result}

/-! ## What is asked and what is answered -/

/-- What a request asks for, under its id. -/
structure Ask (Args : Type*) where
  rid : ℕ
  op : String
  args : Args

/-- What the request asks for. -/
def Req.ask (q : Req Args Result) : Ask Args :=
  ⟨q.rid, q.op, q.args⟩

/-- What the hub has asked for, in order. -/
def Session.asks (s : Session Args Result) : List (Ask Args) :=
  s.hub.reqs.map Req.ask

/-- The answer is one to `q` : its handler ran, or was about to, with the op and the cleaned
arguments of `q`, or `q` itself was refused. -/
def Answer.Of (R : Rules Args Result) (a : Answer Args Result) (q : Ask Args) : Prop :=
  a.rid = q.rid ∧ a.op = q.op ∧
    match a.origin with
    | .handler | .noThread => R.cleanArgs q.op q.args = some a.args
    | .screen | .busy => a.args = q.args

/-- The node has made the answer `res` to `rid`. -/
def Made (answered : List (Answer Args Result)) (rid : ℕ) (res : Res Result) : Prop :=
  ∃ a ∈ answered, a.rid = rid ∧ a.res = res

/-- `res` is what is sent for an answer the node has made to `rid`. -/
def Sent (R : Rules Args Result) (answered : List (Answer Args Result)) (rid : ℕ)
    (res : Res Result) : Prop :=
  ∃ a ∈ answered, a.rid = rid ∧ R.sendable rid a.res = some res

variable {answered answered' : List (Answer Args Result)} {rid : ℕ} {res res' : Res Result}

theorem Made.append (h : Made answered rid res) : Made (answered ++ answered') rid res := by
  obtain ⟨a, ha, hr⟩ := h
  exact ⟨a, List.mem_append_left _ ha, hr⟩

theorem Sent.append (h : Sent R answered rid res) : Sent R (answered ++ answered') rid res := by
  obtain ⟨a, ha, hr⟩ := h
  exact ⟨a, List.mem_append_left _ ha, hr⟩

theorem Made.sent (h : Made answered rid res) (hs : R.sendable rid res = some res') :
    Sent R answered rid res' := by
  obtain ⟨a, ha, hr, rfl⟩ := h
  exact ⟨a, ha, hr, hs⟩

theorem made_append_self (a : Answer Args Result) :
    Made (answered ++ [a]) a.rid a.res :=
  ⟨a, by simp, rfl, rfl⟩

/-- The node has not answered the request yet. -/
def Entry.unanswered (e : Entry Args Result) : Bool :=
  match e.pc with
  | .starting | .running => true
  | _ => false

@[simp] theorem Entry.unanswered_cancel (e : Entry Args Result) :
    e.cancel.unanswered = e.unanswered :=
  rfl

/-- The ids of the requests the node has not answered. -/
def Session.asking (s : Session Args Result) : List ℕ :=
  reqIds s.toNode ++ Keyed.keysWhere Entry.rid Entry.unanswered s.node.requests

/-- Where what is under way comes from. -/
structure Session.Origins (R : Rules Args Result) (s : Session Args Result) : Prop where
  frames : ∀ rid op args, ToNode.req rid op args ∈ s.toNode → ⟨rid, op, args⟩ ∈ s.asks
  entries : ∀ e ∈ s.node.requests, ∃ args, ⟨e.rid, e.op, args⟩ ∈ s.asks ∧
    R.cleanArgs e.op args = some e.args
  answers : ∀ a ∈ s.answered, ∃ q ∈ s.asks, a.Of R q
  once : ∀ r, s.asking.count r + (s.answered.map Answer.rid).count r ≤
    (s.asks.map Ask.rid).count r
  refusing : ∀ rid res, s.node.reader = .refuse rid res → Made s.answered rid res
  answering : ∀ e ∈ s.node.requests, ∀ res, e.pc = .answer res → Made s.answered e.rid res
  inFlight : ∀ f ∈ s.toHub, Sent R s.answered f.rid f.res
  found : ∀ p res, s.hub.reader = .found p res → Sent R s.answered p.rid res
  removed : ∀ p res, s.hub.reader = .removed p res → Sent R s.answered p.rid res

/-- What `modify` does to a list is not seen by a map that does not see `f`. -/
theorem asks_modify (l : List (Req Args Result)) (k : ℕ)
    {f : Req Args Result → Req Args Result} (hf : ∀ q, (f q).ask = q.ask) :
    (l.modify k f).map Req.ask = l.map Req.ask := by
  refine List.ext_getElem? fun i => ?_
  simp only [List.getElem?_map, List.getElem?_modify]
  split
  · cases l[i]? <;> simp [hf]
  · simp

theorem ask_finish (q : Req Args Result) (res : Option (Res Result))
    (unavailable : Option String) : (q.finish res unavailable).ask = q.ask := by
  unfold Req.finish
  dsimp only
  split <;> rfl

theorem mem_send {f : ResFrame Result} (h : f ∈ s.send R rid res) :
    f ∈ s.toHub ∨ (f.rid = rid ∧ R.sendable rid res = some f.res) := by
  unfold Session.send at h
  split at h
  · rename_i res' _ hres
    rcases List.mem_append.1 h with h | h
    · exact .inl h
    · obtain rfl := List.mem_singleton.1 h
      exact .inr ⟨rfl, hres⟩
  · exact .inl h

namespace Session.Origins

theorem start (label : String) (nextId limit : ℕ) :
    (Session.start label nextId limit : Session Args Result).Origins R where
  frames _ _ _ h := by simp [Session.start] at h
  entries _ h := by simp [Session.start] at h
  answers _ h := by simp [Session.start] at h
  once r := by simp [Session.asking, Session.asks, Session.start, reqIds, Keyed.keysWhere]
  refusing _ _ h := by simp [Session.start] at h
  answering _ h := by simp [Session.start] at h
  inFlight _ h := by simp [Session.start] at h
  found _ _ h := by simp [Session.start] at h
  removed _ _ h := by simp [Session.start] at h

/-- A step on the hub that asks for nothing. -/
theorem of_asks_eq (h : s.Origins R) (hasks : t.asks = s.asks)
    (hnode : t.node = s.node) (hanswered : t.answered = s.answered)
    (hframes : ∀ rid op args, ToNode.req rid op args ∈ t.toNode → .req rid op args ∈ s.toNode)
    (hcount : ∀ r, (reqIds t.toNode).count r ≤ (reqIds s.toNode).count r)
    (hinFlight : ∀ f ∈ t.toHub, f ∈ s.toHub)
    (hfound : ∀ p res, t.hub.reader = .found p res → Sent R s.answered p.rid res)
    (hremoved : ∀ p res, t.hub.reader = .removed p res → Sent R s.answered p.rid res) :
    t.Origins R where
  frames rid op args hf := hasks ▸ h.frames rid op args (hframes rid op args hf)
  entries e he := by
    rw [hasks]
    exact h.entries e (hnode ▸ he)
  answers a ha := by
    rw [hasks]
    exact h.answers a (hanswered ▸ ha)
  once r := by
    have := h.once r
    have := hcount r
    simp only [Session.asking, List.count_append, hasks, hnode, hanswered] at *
    omega
  refusing rid res hr := by
    rw [hanswered]
    exact h.refusing rid res (hnode ▸ hr)
  answering e he res hpc := by
    rw [hanswered]
    exact h.answering e (hnode ▸ he) res hpc
  inFlight f hf := by
    rw [hanswered]
    exact h.inFlight f (hinFlight f hf)
  found p res hr := by
    rw [hanswered]
    exact hfound p res hr
  removed p res hr := by
    rw [hanswered]
    exact hremoved p res hr

/-- A step on the node that answers a request. -/
theorem of_answer (h : s.Origins R) {a : Answer Args Result} (hof : ∃ q ∈ s.asks, a.Of R q)
    (hhub : t.hub = s.hub) (htoHub : t.toHub = s.toHub)
    (hanswered : t.answered = s.answered ++ [a])
    (hframes : ∀ f ∈ t.toNode, f ∈ s.toNode)
    (hentries : ∀ e ∈ t.node.requests, ∃ e' ∈ s.node.requests,
      e.rid = e'.rid ∧ e.op = e'.op ∧ e.args = e'.args ∧
        ∀ res, e.pc = .answer res → e'.pc = .answer res ∨ (e.rid = a.rid ∧ res = a.res))
    (hcount : ∀ r, t.asking.count r + [a.rid].count r ≤ s.asking.count r)
    (hrefusing : ∀ rid res, t.node.reader = .refuse rid res →
      s.node.reader = .refuse rid res ∨ (rid = a.rid ∧ res = a.res)) : t.Origins R := by
  have hasks : t.asks = s.asks := by simp only [Session.asks, hhub]
  have hself : Made t.answered a.rid a.res := hanswered ▸ made_append_self a
  exact {
    frames := fun rid op args hf => hasks ▸ h.frames rid op args (hframes _ hf)
    entries := fun e he => by
      obtain ⟨e', he', hrid, hop, hargs, -⟩ := hentries e he
      rw [hasks, hrid, hop, hargs]
      exact h.entries e' he'
    answers := fun b hb => by
      rw [hasks]
      rcases List.mem_append.1 (hanswered ▸ hb) with hb | hb
      · exact h.answers b hb
      · rw [List.mem_singleton.1 hb]
        exact hof
    once := fun r => by
      have hone := h.once r
      have hle := hcount r
      rw [hanswered, hasks, List.map_append, List.count_append, List.map_singleton]
      omega
    refusing := fun rid res hr => by
      rcases hrefusing rid res hr with hr | ⟨rfl, rfl⟩
      · exact hanswered ▸ (h.refusing rid res hr).append
      · exact hself
    answering := fun e he res hpc => by
      obtain ⟨e', he', hrid, -, -, hcase⟩ := hentries e he
      rcases hcase res hpc with hpc | ⟨hrid', rfl⟩
      · rw [hanswered, hrid]
        exact (h.answering e' he' res hpc).append
      · rw [hrid']
        exact hself
    inFlight := fun f hf => hanswered ▸ (h.inFlight f (htoHub ▸ hf)).append
    found := fun p res hr => hanswered ▸ (h.found p res (hhub ▸ hr)).append
    removed := fun p res hr => hanswered ▸ (h.removed p res (hhub ▸ hr)).append }

/-- Every step keeps the invariant. -/
theorem step (h : s.Origins R) (hids : s.Ids) {a : Act Result Args}
    (hs : Link.step R s a = some t) : t.Origins R := by
  cases step_cases hs with
  | stay => exact h
  | skip hid => exact { h with }
  | @admitted rid nextId op args streaming hw hlt hid =>
    have hasks : ∀ q ∈ s.asks, q ∈ (s.hub.reqs ++ [Req.new rid op args streaming]).map
        (Req.ask) := fun q hq => by
      rw [List.map_append]
      exact List.mem_append_left _ hq
    exact { h with
      frames := fun rid' op' args' hf => by
        rcases List.mem_append.1 hf with hf | hf
        · exact hasks _ (h.frames rid' op' args' hf)
        · obtain ⟨rfl, rfl, rfl⟩ := ToNode.req.inj (List.mem_singleton.1 hf)
          simp [Session.asks, Req.new, Req.ask]
      entries := fun e he => by
        obtain ⟨args', hq, hclean⟩ := h.entries e he
        exact ⟨args', hasks _ hq, hclean⟩
      answers := fun b hb => by
        obtain ⟨q, hq, hof⟩ := h.answers b hb
        exact ⟨q, hasks q hq, hof⟩
      once := fun r => by
        have := h.once r
        simp only [Session.asking, Session.asks, reqIds_append, reqIds, List.map_append,
          List.map_cons, List.map_nil, Req.ask, Req.new, List.count_append] at this ⊢
        omega }
  | cancelMark hq =>
    exact h.of_asks_eq (asks_modify _ _ fun q => rfl) rfl rfl (fun _ _ _ hf => hf)
      (fun r => Nat.le_refl _) (fun f hf => hf) h.found h.removed
  | cancelSend hrid hsent =>
    refine h.of_asks_eq rfl rfl rfl (fun rid op args hf => ?_) (fun r => ?_) (fun f hf => hf)
      h.found h.removed
    · rcases hsent with rfl | rfl <;> simpa using hf
    · rcases hsent with rfl | rfl <;> simp [reqIds]
  | resDrop hin =>
    exact h.of_asks_eq rfl rfl rfl (fun _ _ _ hf => hf) (fun r => Nat.le_refl _)
      (fun f hf => by simp [hin, hf]) h.found h.removed
  | @resFind f rest p hrun hidle hin hp =>
    refine h.of_asks_eq rfl rfl rfl (fun _ _ _ hf => hf) (fun r => Nat.le_refl _)
      (fun f hf => by simp [hin, hf]) (fun p' res hr => ?_) (fun p' res hr => by simp at hr)
    obtain ⟨rfl, rfl⟩ := HubReader.found.inj hr
    rw [Keyed.key_of_find hp]
    exact h.inFlight f (by simp [hin])
  | @resRemove p res hr =>
    refine h.of_asks_eq rfl rfl rfl (fun _ _ _ hf => hf) (fun r => Nat.le_refl _)
      (fun f hf => hf) (fun p' res' hr' => by simp at hr') (fun p' res' hr' => ?_)
    obtain ⟨rfl, rfl⟩ := HubReader.removed.inj hr'
    exact h.found _ _ hr
  | resFinish hr hq =>
    exact h.of_asks_eq (asks_modify _ _ fun q => ask_finish q _ _) rfl rfl
      (fun _ _ _ hf => hf) (fun r => Nat.le_refl _) (fun f hf => hf)
      (fun p' res' hr' => by simp at hr') (fun p' res' hr' => by simp at hr')
  | @writerFail keep =>
    exact h.of_asks_eq rfl rfl rfl (fun _ _ _ hf => List.mem_of_mem_take hf)
      (fun r => (reqIds_take_sublist keep s.toNode).count_le r) (fun f hf => hf) h.found h.removed
  | dropWriter => exact { h with }
  | failAll => exact { h with }
  | failOne hend =>
    exact h.of_asks_eq (asks_modify _ _ fun q => ask_finish q _ _) rfl rfl
      (fun _ _ _ hf => hf) (fun r => Nat.le_refl _) (fun f hf => hf) h.found h.removed
  | failEnd => exact { h with }
  | reqDrop hin =>
    refine h.of_asks_eq rfl rfl rfl (fun _ _ _ hf => by simp [hin, hf]) (fun r => ?_)
      (fun f hf => hf) h.found h.removed
    simp only [hin, reqIds, List.count_cons]
    omega
  | @reqRefuse policy rid op args rest code why hidle hin =>
    have hq := h.frames rid op args (by simp [hin])
    refine h.of_answer ⟨_, hq, rfl, rfl, rfl⟩ rfl rfl rfl (fun f hf => by simp [hin, hf])
      (fun e he => ⟨e, he, rfl, rfl, rfl, fun _ hpc => .inl hpc⟩) (fun r => ?_)
      (fun rid' res hr => ?_)
    · simp only [Session.asking, hin, reqIds, List.count_append, List.count_cons, List.count_nil]
      omega
    · obtain ⟨rfl, rfl⟩ := NodeReader.refuse.inj hr
      exact .inr ⟨rfl, rfl⟩
  | @reqBusy policy rid op args rest hidle hin hnew hfull =>
    have hq := h.frames rid op args (by simp [hin])
    refine h.of_answer ⟨_, hq, rfl, rfl, rfl⟩ rfl rfl rfl (fun f hf => by simp [hin, hf])
      (fun e he => ⟨e, he, rfl, rfl, rfl, fun _ hpc => .inl hpc⟩) (fun r => ?_)
      (fun rid' res hr => ?_)
    · simp only [Session.asking, hin, reqIds, List.count_append, List.count_cons, List.count_nil]
      omega
    · obtain ⟨rfl, rfl⟩ := NodeReader.refuse.inj hr
      exact .inr ⟨rfl, rfl⟩
  | @reqEnter policy rid op args rest cleaned hidle hin hnew hclean =>
    have hq := h.frames rid op args (by simp [hin])
    exact { h with
      frames := fun _ _ _ hf => h.frames _ _ _ (by simp [hin, hf])
      entries := fun e he => by
        rcases List.mem_append.1 he with he | he
        · exact h.entries e he
        · rw [List.mem_singleton.1 he]
          exact ⟨args, hq, hclean⟩
      once := fun r => by
        have := h.once r
        simp only [Session.asking, Session.asks, hin, reqIds, Keyed.keysWhere_append,
          Keyed.keysWhere_cons, Keyed.keysWhere_nil, Entry.unanswered, List.count_append,
          List.count_cons, List.count_nil, if_true] at this ⊢
        omega
      refusing := fun _ _ hr => by simp at hr
      answering := fun e he res hpc => by
        rcases List.mem_append.1 he with he | he
        · exact h.answering e he res hpc
        · rw [List.mem_singleton.1 he] at hpc
          cases hpc }
  | @cancelRead policy rid rest hin =>
    exact { h with
      frames := fun _ _ _ hf => h.frames _ _ _ (by simp [hin, hf])
      entries := fun e he => by
        obtain ⟨e', he', rfl | ⟨-, rfl⟩⟩ := Keyed.mem_update he
        · exact h.entries _ he'
        · exact h.entries e' he'
      once := fun r => by
        have := h.once r
        simpa only [Session.asking, Session.asks, hin, reqIds, Node.updateReq,
          Keyed.keysWhere_update_same Entry.rid_cancel Entry.unanswered_cancel] using this
      answering := fun e he res hpc => by
        obtain ⟨e', he', rfl | ⟨-, rfl⟩⟩ := Keyed.mem_update he
        · exact h.answering _ he' res hpc
        · exact h.answering e' he' res hpc }
  | @threadStart rid hr =>
    obtain ⟨e, he, hpc⟩ := hids.starting rid hr
    exact { h with
      entries := fun e he => by
        obtain ⟨e', he', rfl | ⟨-, rfl⟩⟩ := Keyed.mem_update he
        · exact h.entries _ he'
        · exact h.entries e' he'
      once := fun r => by
        have hone := h.once r
        have := Keyed.count_keysWhere_update (p := Entry.unanswered) (f := Entry.goto .running)
          hids.table_nodup he rfl r
        simp only [Entry.unanswered, Entry.goto, hpc, if_true] at this
        simp only [Session.asking, Session.asks, Node.updateReq, List.count_append] at hone ⊢
        omega
      refusing := fun _ _ hr => by simp at hr
      answering := fun e he res hpc => by
        obtain ⟨e', he', rfl | ⟨-, rfl⟩⟩ := Keyed.mem_update he
        · exact h.answering _ he' res hpc
        · cases hpc }
  | @threadFail rid e hr he =>
    have hpc : e.pc = .starting := by
      obtain ⟨e', he', hpc'⟩ := hids.starting rid hr
      rw [he] at he'
      exact Option.some.inj he' ▸ hpc'
    obtain ⟨args, hq, hclean⟩ := h.entries e (Keyed.mem_of_find he)
    obtain rfl := Keyed.key_of_find he
    refine h.of_answer ⟨_, hq, rfl, rfl, hclean⟩ rfl rfl rfl (fun f hf => hf)
      (fun e' he' => ⟨e', Keyed.mem_of_mem_remove he', rfl, rfl, rfl, fun _ hpc => .inl hpc⟩)
      (fun r => ?_) (fun rid' res hr => ?_)
    · have := Keyed.count_keysWhere_remove (p := Entry.unanswered) hids.table_nodup he r
      simp only [Entry.unanswered, hpc, if_true] at this
      simp only [Session.asking, Node.removeReq, List.count_append]
      omega
    · obtain ⟨rfl, rfl⟩ := NodeReader.refuse.inj hr
      exact .inr ⟨rfl, rfl⟩
  | @sendRefusal rid res hr =>
    exact { h with
      refusing := fun _ _ hr => by simp at hr
      inFlight := fun f hf => by
        rcases mem_send hf with hf | ⟨rfl, hsend⟩
        · exact h.inFlight f hf
        · exact (h.refusing _ _ hr).sent hsend }
  | @finish rid e outcome res he hpc hres =>
    obtain ⟨args, hq, hclean⟩ := h.entries e (Keyed.mem_of_find he)
    obtain rfl := Keyed.key_of_find he
    refine h.of_answer ⟨_, hq, rfl, rfl, hclean⟩ rfl rfl rfl (fun f hf => hf)
      (fun e' he' => ?_) (fun r => ?_) (fun rid' res hr => .inl hr)
    · obtain ⟨e'', he'', rfl | ⟨hrid, rfl⟩⟩ := Keyed.mem_update he'
      · exact ⟨_, he'', rfl, rfl, rfl, fun _ hpc => .inl hpc⟩
      · exact ⟨e'', he'', rfl, rfl, rfl, fun res' hpc' =>
          .inr ⟨hrid, (ThreadPc.answer.inj hpc').symm⟩⟩
    · have := Keyed.count_keysWhere_update (p := Entry.unanswered) (f := Entry.goto (.answer res))
        hids.table_nodup he rfl r
      simp only [Entry.unanswered, Entry.goto, hpc, if_true, Bool.false_eq_true, if_false,
        List.count_nil] at this
      simp only [Session.asking, Node.updateReq, List.count_append]
      omega
  | @sendRes rid e res he hpc =>
    obtain rfl := Keyed.key_of_find he
    exact { h with
      entries := fun e he => by
        obtain ⟨e', he', rfl | ⟨-, rfl⟩⟩ := Keyed.mem_update he
        · exact h.entries _ he'
        · exact h.entries e' he'
      once := fun r => by
        have hone := h.once r
        have := Keyed.count_keysWhere_update (p := Entry.unanswered) (f := Entry.goto .sent)
          hids.table_nodup he rfl r
        simp only [Entry.unanswered, Entry.goto, hpc, Bool.false_eq_true, if_false,
          List.count_nil] at this
        simp only [Session.asking, Session.asks, Node.updateReq, List.count_append] at hone ⊢
        omega
      answering := fun e he res hpc => by
        obtain ⟨e', he', rfl | ⟨-, rfl⟩⟩ := Keyed.mem_update he
        · exact h.answering _ he' res hpc
        · cases hpc
      inFlight := fun f hf => by
        rcases mem_send hf with hf | ⟨hrid, hsend⟩
        · exact h.inFlight f hf
        · rw [hrid]
          exact (h.answering e (Keyed.mem_of_find he) res hpc).sent hsend }
  | @removeReq rid e he hpc =>
    exact { h with
      entries := fun e he => h.entries e (Keyed.mem_of_mem_remove he)
      once := fun r => by
        have hone := h.once r
        have := Keyed.count_keysWhere_remove (p := Entry.unanswered) hids.table_nodup he r
        simp only [Session.asking, Session.asks, Node.removeReq, List.count_append] at hone ⊢
        omega
      answering := fun e he => h.answering e (Keyed.mem_of_mem_remove he) }
  | nodeDone => exact { h with }
  | @nodeClose keep =>
    exact { h with inFlight := fun f hf => h.inFlight f (List.mem_of_mem_take hf) }

end Session.Origins

/-! ## When a request is finished -/

/-- A request the reader has taken off `pending` and not finished yet. -/
def HubReader.taken : HubReader Result → List Pending
  | .removed p _ => [p]
  | _ => []

/-- The requests the teardown has drained and not finished yet. -/
def Ending.left : Ending → List Pending
  | .failing _ left => left
  | _ => []

/-- The requests that are not finished. -/
def Hub.waiting (h : Hub Args Result) : List Pending :=
  h.pending ++ h.reader.taken ++ h.ending.left

/-- The request was given what was sent for an answer of the node. -/
def OwnAnswer (R : Rules Args Result) (answered : List (Answer Args Result))
    (q : Req Args Result) : Prop :=
  q.unavailable = none ∧
    ∃ res, Sent R answered q.rid res ∧ q.res = some (R.sanitizeRes q.op res)

/-- The request was failed by the teardown. -/
def FailedBy (ending : Ending) (q : Req Args Result) : Prop :=
  q.res = none ∧ q.unavailable.isSome ∧ ending ≠ .running

/-- Finished once, with an answer or by the teardown. -/
def Settled (R : Rules Args Result) (s : Session Args Result) (q : Req Args Result) : Prop :=
  q.finished = true ∧ q.finishes = 1 ∧ (OwnAnswer R s.answered q ∨ FailedBy s.hub.ending q)

/-- Not finished. -/
def Unfinished (q : Req Args Result) : Prop :=
  q.finished = false ∧ q.finishes = 0

/-- The requests in `waiting` are not finished, and all others are. -/
structure Session.Finishes (R : Rules Args Result) (s : Session Args Result) : Prop where
  nodup : (s.hub.waiting.map Pending.req).Nodup
  unfinished : ∀ p ∈ s.hub.waiting, ∃ q, s.hub.reqs[p.req]? = some q ∧ q.rid = p.rid ∧
    Unfinished q
  settled : ∀ k q, s.hub.reqs[k]? = some q → k ∉ s.hub.waiting.map Pending.req → Settled R s q
  found : ∀ p res, s.hub.reader = .found p res → p ∈ s.hub.pending
  idle : s.hub.ending ≠ .running → s.hub.reader = .idle
  drained : (∃ reason left, s.hub.ending = .failing reason left) ∨ s.hub.ending = .down →
    s.hub.pending = []

theorem Settled.mono {q : Req Args Result} (h : Settled R s q)
    (hanswered : ∃ new, t.answered = s.answered ++ new)
    (hending : s.hub.ending ≠ .running → t.hub.ending ≠ .running) : Settled R t q := by
  obtain ⟨hf, hc, ⟨hu, res, hsent, hres⟩ | ⟨hr, hu, he⟩⟩ := h
  · obtain ⟨new, hnew⟩ := hanswered
    exact ⟨hf, hc, .inl ⟨hu, res, hnew ▸ hsent.append, hres⟩⟩
  · exact ⟨hf, hc, .inr ⟨hr, hu, hending he⟩⟩

/-- Finishing a request for the first time. -/
theorem finish_unfinished {q : Req Args Result} (h : Unfinished q) (res : Option (Res Result))
    (unavailable : Option String) :
    q.finish res unavailable =
      { q with finishes := 1, res := res, unavailable := unavailable, finished := true } := by
  simp [Req.finish, h.1, h.2]

namespace Session.Finishes

theorem start (label : String) (nextId limit : ℕ) :
    (Session.start label nextId limit : Session Args Result).Finishes R where
  nodup := by simp [Session.start, Hub.waiting, HubReader.taken, Ending.left]
  unfinished p h := by simp [Session.start, Hub.waiting, HubReader.taken, Ending.left] at h
  settled k q h := by simp [Session.start] at h
  found p res h := by simp [Session.start] at h
  idle _ := rfl
  drained h := by simp [Session.start] at h

/-- A step that finishes nothing and leaves the requests as they are. -/
theorem of_hub_eq (h : s.Finishes R) (hhub : t.hub = s.hub)
    (hanswered : ∃ new, t.answered = s.answered ++ new) : t.Finishes R where
  nodup := hhub ▸ h.nodup
  unfinished := hhub ▸ h.unfinished
  settled k q hq hk :=
    (h.settled k q (hhub ▸ hq) (hhub ▸ hk)).mono hanswered (fun he => hhub ▸ he)
  found := hhub ▸ h.found
  idle := hhub ▸ h.idle
  drained := hhub ▸ h.drained

/-- One request of `waiting` is finished. -/
theorem finishReq (h : s.Finishes R) {p : Pending} {q : Req Args Result} (left : List Pending)
    {res : Option (Res Result)} {unavailable : Option String}
    (hperm : s.hub.waiting.Perm (p :: left)) (hq : s.hub.reqs[p.req]? = some q)
    (hreqs : t.hub.reqs = s.hub.reqs.modify p.req fun q => q.finish res unavailable)
    (hwaiting : t.hub.waiting = left) (hanswered : t.answered = s.answered)
    (hending : s.hub.ending ≠ .running → t.hub.ending ≠ .running)
    (hfinished : q.rid = p.rid → OwnAnswer R t.answered
        { q with finishes := 1, res := res, unavailable := unavailable, finished := true } ∨
      FailedBy t.hub.ending
        { q with finishes := 1, res := res, unavailable := unavailable, finished := true })
    (hfound : ∀ p res, t.hub.reader = .found p res → p ∈ t.hub.pending)
    (hidle : t.hub.ending ≠ .running → t.hub.reader = .idle)
    (hdrained : (∃ reason left, t.hub.ending = .failing reason left) ∨ t.hub.ending = .down →
      t.hub.pending = []) : t.Finishes R := by
  have hnodup : ((p :: left).map Pending.req).Nodup := (hperm.map Pending.req).nodup h.nodup
  obtain ⟨hnot, hleft⟩ := List.nodup_cons.1 hnodup
  obtain ⟨q', hq', hrid, hunf⟩ := h.unfinished p (hperm.mem_iff.2 List.mem_cons_self)
  obtain rfl : q' = q := Option.some.inj (hq'.symm.trans hq)
  have hget : ∀ k, k ≠ p.req → t.hub.reqs[k]? = s.hub.reqs[k]? := fun k hk => by
    rw [hreqs, List.getElem?_modify_ne _ _ (Ne.symm hk)]
  exact {
    nodup := hwaiting ▸ hleft
    unfinished := fun p' hp' => by
      rw [hwaiting] at hp'
      have hne : p'.req ≠ p.req := fun heq => hnot (heq ▸ List.mem_map_of_mem hp')
      rw [hget _ hne]
      exact h.unfinished p' (hperm.mem_iff.2 (List.mem_cons_of_mem p hp'))
    settled := fun k q₁ hq₁ hk => by
      by_cases hkp : k = p.req
      · subst hkp
        rw [hreqs, List.getElem?_modify_eq, hq, Option.map_eq_map, Option.map_some,
          finish_unfinished hunf] at hq₁
        rw [← Option.some.inj hq₁]
        exact ⟨rfl, rfl, hfinished hrid⟩
      · rw [hget k hkp] at hq₁
        refine (h.settled k q₁ hq₁ fun hmem => hk ?_).mono ⟨[], by simp [hanswered]⟩ hending
        rw [hwaiting]
        rcases List.mem_cons.1 ((hperm.map Pending.req).mem_iff.1 hmem) with heq | hmem
        · exact absurd heq hkp
        · exact hmem
    found := hfound
    idle := hidle
    drained := hdrained }

theorem step (h : s.Finishes R) (hids : s.Ids) (horigins : s.Origins R) {a : Act Result Args}
    (hs : Link.step R s a = some t) : t.Finishes R := by
  cases step_cases hs with
  | stay => exact h
  | skip => exact { h with settled := fun k q hq hk => h.settled k q hq hk }
  | @admitted rid nextId op args streaming hw hlt hid =>
    have hrun : s.hub.ending = .running := hids.running hw
    have hlast : ∀ p ∈ s.hub.waiting, p.req < s.hub.reqs.length := fun p hp => by
      obtain ⟨q, hq, -⟩ := h.unfinished p hp
      exact (List.getElem?_eq_some_iff.1 hq).1
    let new : Pending := ⟨rid, s.hub.reqs.length⟩
    have hperm : (s.hub.pending ++ [new] ++ s.hub.reader.taken ++ s.hub.ending.left).Perm
        (new :: s.hub.waiting) := by
      simp only [Hub.waiting, List.append_assoc, List.singleton_append]
      exact List.perm_middle
    exact { h with
      nodup := (hperm.map Pending.req).nodup_iff.2 (List.nodup_cons.2 ⟨fun hmem => by
        obtain ⟨p, hp, hreq⟩ := List.mem_map.1 hmem
        exact absurd (hlast p hp) (by simp [hreq, new]), h.nodup⟩)
      unfinished := fun p hp => by
        rcases List.mem_cons.1 (hperm.mem_iff.1 hp) with rfl | hp
        · exact ⟨_, List.getElem?_concat_length, rfl, rfl, rfl⟩
        · obtain ⟨q, hq, hrest⟩ := h.unfinished p hp
          exact ⟨q, (List.getElem?_append_left (hlast p hp)).trans hq, hrest⟩
      settled := fun k q hq hk => by
        have hk' : k ∉ (new :: s.hub.waiting).map Pending.req := fun hmem =>
          hk ((hperm.map Pending.req).mem_iff.2 hmem)
        simp only [List.map_cons, List.mem_cons, not_or] at hk'
        have hlt : k < s.hub.reqs.length := by
          have := (List.getElem?_eq_some_iff.1 hq).1
          have hne : k ≠ s.hub.reqs.length := hk'.1
          simp only [List.length_append, List.length_singleton] at this
          omega
        exact h.settled k q ((List.getElem?_append_left hlt).symm.trans hq) hk'.2
      found := fun p res hr => List.mem_append_left _ (h.found p res hr)
      drained := fun hend => by simp [hrun] at hend }
  | @cancelMark k q hq =>
    exact { h with
      unfinished := fun p hp => by
        obtain ⟨q', hq', hrid, hunf⟩ := h.unfinished p hp
        simp only [List.getElem?_modify, hq', Option.map_eq_map, Option.map_some]
        split
        · exact ⟨_, rfl, hrid, hunf⟩
        · exact ⟨_, rfl, hrid, hunf⟩
      settled := fun k' q' hq' hk => by
        simp only [List.getElem?_modify, Option.map_eq_map] at hq'
        obtain ⟨q'', hq'', rfl⟩ := Option.map_eq_some_iff.1 hq'
        have hset := h.settled k' q'' hq'' hk
        split
        · exact hset
        · exact hset }
  | cancelSend => exact { h with settled := fun k q hq hk => h.settled k q hq hk }
  | resDrop => exact { h with settled := fun k q hq hk => h.settled k q hq hk }
  | @resFind f rest p hrun hidle hin hp =>
    exact { h with
      nodup := by simpa [Hub.waiting, hidle, HubReader.taken] using h.nodup
      unfinished := by simpa [Hub.waiting, hidle, HubReader.taken] using h.unfinished
      settled := fun k q hq hk => h.settled k q hq (by
        simpa [Hub.waiting, hidle, HubReader.taken] using hk)
      found := fun p' res hr => by
        obtain ⟨rfl, -⟩ := HubReader.found.inj hr
        exact Keyed.mem_of_find hp
      idle := fun hend => absurd hrun hend }
  | @resRemove p res hr =>
    have hrun : s.hub.ending = .running := by
      by_contra hne
      simp [h.idle hne] at hr
    have hkeys : (Keyed.keys Pending.rid s.hub.pending).Nodup :=
      (List.nodup_append.1 hids.open_nodup).1
    have hperm : (Keyed.remove Pending.rid p.rid s.hub.pending ++ [p] ++
        s.hub.ending.left).Perm s.hub.waiting := by
      simp only [Hub.waiting, hr, HubReader.taken, List.append_nil]
      refine List.Perm.append_right _ ?_
      exact (List.perm_append_singleton p _).trans
        (Keyed.perm_cons_remove hkeys (Keyed.find_of_mem hkeys (h.found p res hr))).symm
    exact { h with
      nodup := (hperm.map Pending.req).nodup_iff.2 h.nodup
      unfinished := fun p' hp' => h.unfinished p' (hperm.mem_iff.1 hp')
      settled := fun k q hq hk => h.settled k q hq fun hmem =>
        hk ((hperm.map Pending.req).mem_iff.2 hmem)
      found := fun p' res' hr' => by simp at hr'
      idle := fun hend => absurd hrun hend
      drained := fun hend => by simp [hrun] at hend }
  | @resFinish p res q hr hq =>
    have hrun : s.hub.ending = .running := by
      by_contra hne
      simp [h.idle hne] at hr
    refine h.finishReq (p := p) (s.hub.pending ++ s.hub.ending.left) ?_ hq rfl ?_ rfl
      (fun hne => hne) (fun hrid => .inl ⟨rfl, res, ?_, rfl⟩) (fun p' res' hr' => by simp at hr')
      (fun _ => rfl) h.drained
    · simp only [Hub.waiting, hr, HubReader.taken, List.append_assoc, List.singleton_append]
      exact List.perm_middle
    · simp [Hub.waiting, Hub.finishReq, HubReader.taken]
    · exact hrid ▸ horigins.removed p res hr
  | writerFail => exact { h with settled := fun k q hq hk => h.settled k q hq hk }
  | @dropWriter reason hrun hidle =>
    exact { h with
      nodup := by simpa [Hub.waiting, hrun, Ending.left] using h.nodup
      unfinished := by simpa [Hub.waiting, hrun, Ending.left] using h.unfinished
      settled := fun k q hq hk => (h.settled k q hq (by
        simpa [Hub.waiting, hrun, Ending.left] using hk)).mono ⟨[], by simp⟩ fun _ => by simp
      idle := fun _ => hidle
      drained := fun hend => by simp at hend }
  | @failAll reason hend =>
    have hidle : s.hub.reader = .idle := h.idle (by simp [hend])
    exact { h with
      nodup := by simpa [Hub.waiting, hend, hidle, Ending.left, HubReader.taken] using h.nodup
      unfinished := by
        simpa [Hub.waiting, hend, hidle, Ending.left, HubReader.taken] using h.unfinished
      settled := fun k q hq hk => (h.settled k q hq (by
        simpa [Hub.waiting, hend, hidle, Ending.left, HubReader.taken] using hk)).mono
          ⟨[], by simp⟩ fun _ => by simp
      found := fun p res hr => by simp [hidle] at hr
      idle := fun _ => hidle
      drained := fun _ => rfl }
  | @failOne reason p left hend =>
    have hidle : s.hub.reader = .idle := h.idle (by simp [hend])
    have hpending : s.hub.pending = [] := h.drained (.inl ⟨reason, _, hend⟩)
    have hwaiting : s.hub.waiting = p :: left := by
      simp [Hub.waiting, hend, hidle, hpending, Ending.left, HubReader.taken]
    obtain ⟨q, hq, -⟩ := h.unfinished p (by simp [hwaiting])
    refine h.finishReq (p := p) _ (by rw [hwaiting]) hq rfl ?_ rfl
      (fun _ => by simp) (fun _ => .inr ⟨rfl, rfl, by simp⟩)
      (fun p' res' hr' => by simp [Hub.finishReq, hidle] at hr') (fun _ => hidle)
      (fun _ => hpending)
    simp [Hub.waiting, Hub.finishReq, hidle, hpending, Ending.left, HubReader.taken]
  | @failEnd reason hend =>
    have hidle : s.hub.reader = .idle := h.idle (by simp [hend])
    exact { h with
      nodup := by simpa [Hub.waiting, hend, Ending.left] using h.nodup
      unfinished := by simpa [Hub.waiting, hend, Ending.left] using h.unfinished
      settled := fun k q hq hk => (h.settled k q hq (by
        simpa [Hub.waiting, hend, Ending.left] using hk)).mono ⟨[], by simp⟩ fun _ => by simp
      idle := fun _ => hidle
      drained := fun _ => h.drained (.inl ⟨reason, [], hend⟩) }
  | reqDrop => exact h.of_hub_eq rfl ⟨[], by simp⟩
  | reqRefuse => exact h.of_hub_eq rfl ⟨_, rfl⟩
  | reqBusy => exact h.of_hub_eq rfl ⟨_, rfl⟩
  | reqEnter => exact h.of_hub_eq rfl ⟨[], by simp⟩
  | cancelRead => exact h.of_hub_eq rfl ⟨[], by simp⟩
  | threadStart => exact h.of_hub_eq rfl ⟨[], by simp⟩
  | threadFail => exact h.of_hub_eq rfl ⟨_, rfl⟩
  | sendRefusal => exact h.of_hub_eq rfl ⟨[], by simp⟩
  | finish => exact h.of_hub_eq rfl ⟨_, rfl⟩
  | sendRes => exact h.of_hub_eq rfl ⟨[], by simp⟩
  | removeReq => exact h.of_hub_eq rfl ⟨[], by simp⟩
  | nodeDone => exact h.of_hub_eq rfl ⟨[], by simp⟩
  | nodeClose => exact h.of_hub_eq rfl ⟨[], by simp⟩

end Session.Finishes

/-! ## Ids do not come round -/

/-- The id after `i` steps of `succId` from `n`. -/
def idAt (n i : ℕ) : ℕ :=
  (n - 1 + i) % maxId + 1

theorem succId_idAt (n i : ℕ) : succId (idAt n i) = idAt n (i + 1) := by
  simp only [succId, idAt, Nat.mod_add_mod, add_assoc]

theorem idAt_zero {n : ℕ} (hn : validId n = true) : idAt n 0 = n := by
  simp only [validId, Bool.and_eq_true, decide_eq_true_eq] at hn
  rw [idAt, Nat.add_zero, Nat.mod_eq_of_lt (by omega)]
  omega

theorem idAt_inj {n i j : ℕ} (hi : i < maxId) (hj : j < maxId) (h : idAt n i = idAt n j) :
    i = j := by
  have hmod : n - 1 + i ≡ n - 1 + j [MOD maxId] := Nat.succ.inj h
  have hij : i ≡ j [MOD maxId] := Nat.ModEq.add_left_cancel' (n - 1) hmod
  rwa [Nat.ModEq, Nat.mod_eq_of_lt hi, Nat.mod_eq_of_lt hj] at hij

theorem nodup_idAt (n : ℕ) {k : ℕ} (hk : k ≤ maxId) : ((List.range k).map (idAt n)).Nodup :=
  List.Nodup.map_on (fun _ hi _ hj h => idAt_inj ((List.mem_range.1 hi).trans_le hk)
    ((List.mem_range.1 hj).trans_le hk) h) List.nodup_range

/-- The first id tried is taken where it is not pending. -/
theorem takeId_first {pending : List Pending} {n rid nextId : ℕ} (fuel : ℕ)
    (hn : n ∉ Keyed.keys Pending.rid pending)
    (h : takeId pending (fuel + 1) n = some (rid, nextId)) : rid = n := by
  unfold takeId at h
  rw [if_neg (Keyed.isSome_find.not.2 hn)] at h
  exact (Prod.mk.inj (Option.some.inj h)).1.symm

/-- Until `maxId` of them were taken, ids come in order and once each. -/
structure Session.FreshIds (n : ℕ) (s : Session Args Result) : Prop where
  next : s.hub.begun ≤ maxId → s.hub.nextId = idAt n s.hub.begun
  taken : s.hub.begun ≤ maxId →
    (s.asks.map Ask.rid).Sublist ((List.range s.hub.begun).map (idAt n))

namespace Session.FreshIds

variable {n : ℕ}

theorem start {nextId : ℕ} (hid : validId nextId = true) (label : String) (limit : ℕ) :
    (Session.start label nextId limit : Session Args Result).FreshIds nextId where
  next _ := (idAt_zero hid).symm
  taken _ := List.nil_sublist _

theorem of_asks_eq (h : s.FreshIds n) (hnext : t.hub.nextId = s.hub.nextId)
    (hbegun : t.hub.begun = s.hub.begun) (hasks : t.asks = s.asks) : t.FreshIds n := by
  refine ⟨fun hle => ?_, fun hle => ?_⟩
  · rw [hnext, hbegun]
    exact h.next (hbegun ▸ hle)
  · rw [hasks, hbegun]
    exact h.taken (hbegun ▸ hle)

/-- The next id is not one of those taken. -/
theorem next_not_mem (h : s.FreshIds n) (hlt : s.hub.begun < maxId) :
    s.hub.nextId ∉ s.asks.map Ask.rid := by
  rw [h.next hlt.le]
  intro hmem
  obtain ⟨i, hi, heq⟩ := List.mem_map.1 ((h.taken hlt.le).subset hmem)
  have hi := List.mem_range.1 hi
  have := idAt_inj (hi.trans hlt) hlt heq
  omega

/-- The id that `begin` takes is the next one. -/
theorem takeId_eq (h : s.FreshIds n) (hf : s.Finishes R) (hlt : s.hub.begun < maxId)
    {rid nextId fuel : ℕ}
    (hid : takeId s.hub.pending (fuel + 1) s.hub.nextId = some (rid, nextId)) :
    rid = idAt n s.hub.begun ∧ nextId = idAt n (s.hub.begun + 1) := by
  have hnot : s.hub.nextId ∉ Keyed.keys Pending.rid s.hub.pending := by
    intro hmem
    obtain ⟨p, hp, hrid⟩ := List.mem_map.1 hmem
    obtain ⟨q, hq, hqp, -⟩ := hf.unfinished p (by simp [Hub.waiting, hp])
    refine h.next_not_mem hlt ?_
    rw [← hrid, ← hqp, Session.asks, List.map_map]
    exact List.mem_map_of_mem (List.mem_of_getElem? hq)
  obtain rfl := takeId_first fuel hnot hid
  refine ⟨h.next hlt.le, ?_⟩
  rw [(takeId_spec hid).2, h.next hlt.le, succId_idAt]

theorem step (h : s.FreshIds n) (hf : s.Finishes R) {a : Act Result Args}
    (hs : Link.step R s a = some t) : t.FreshIds n := by
  cases step_cases hs with
  | skip hid =>
    refine ⟨fun hle => (h.takeId_eq hf (Nat.lt_of_succ_le hle) hid).2, fun hle => ?_⟩
    refine (h.taken (Nat.le_of_succ_le hle)).trans ?_
    rw [List.range_succ, List.map_append]
    exact List.sublist_append_left _ _
  | @admitted rid nextId op args streaming hw hlt hid =>
    refine ⟨fun hle => (h.takeId_eq hf (Nat.lt_of_succ_le hle) hid).2, fun hle => ?_⟩
    have hrid := (h.takeId_eq hf (Nat.lt_of_succ_le hle) hid).1
    have htaken := h.taken (Nat.le_of_succ_le hle)
    simp only [Session.asks, List.map_append, List.range_succ, List.map_cons, List.map_nil]
    rw [show (Req.new rid op args streaming : Req Args Result).ask.rid = idAt n s.hub.begun from
      hrid]
    exact htaken.append (List.Sublist.refl _)
  | cancelMark => exact h.of_asks_eq rfl rfl (asks_modify _ _ fun q => rfl)
  | resFinish => exact h.of_asks_eq rfl rfl (asks_modify _ _ fun q => ask_finish q _ _)
  | failOne => exact h.of_asks_eq rfl rfl (asks_modify _ _ fun q => ask_finish q _ _)
  | _ => exact ⟨h.next, h.taken⟩

end Session.FreshIds

/-! ## Every request gets its own answer -/

/-- The invariants of a session, together. -/
structure Session.Inv (R : Rules Args Result) (n : ℕ) (s : Session Args Result) : Prop where
  ids : s.Ids
  origins : s.Origins R
  finishes : s.Finishes R
  fresh : s.FreshIds n

theorem Session.Inv.of_reach {label : String} {nextId limit : ℕ} (hid : validId nextId = true)
    (h : Reach (Link.step R) (Session.start label nextId limit) s) : s.Inv R nextId := by
  refine h.invariant (Session.Inv R nextId) (fun s a t _ hi hs => ?_) ?_
  · exact ⟨hi.ids.step hs, hi.origins.step hi.ids hs, hi.finishes.step hi.ids hi.origins hs,
      hi.fresh.step hi.finishes hs⟩
  · exact ⟨Ids.start label nextId limit, Origins.start label nextId limit,
      Finishes.start label nextId limit, FreshIds.start hid label limit⟩

/-- The node answered `q` once, and `q` was given what was sent for that answer. -/
def OwnSingleAnswer (R : Rules Args Result) (s : Session Args Result) (q : Req Args Result) :
    Prop :=
  ∃ a ∈ s.answered, a.Of R q.ask ∧ (∀ b ∈ s.answered, b.rid = q.rid → b = a) ∧
    q.unavailable = none ∧
      ∃ res, R.sendable q.rid a.res = some res ∧ q.res = some (R.sanitizeRes q.op res)

/-- Every admitted request gets its own single answer : no id is taken twice, and the node's
table holds taken ids only; a request is finished once or not at all, with the answer the
node made to it or as unavailable by the end of the session; and once the session is down,
none is pending and all are finished. -/
structure Session.Answered (R : Rules Args Result) (s : Session Args Result) : Prop where
  fresh : (s.hub.reqs.map Req.rid).Nodup
  table : ∀ e ∈ s.node.requests, e.rid ∈ s.hub.reqs.map Req.rid
  once : ∀ q ∈ s.hub.reqs, q.finishes = if q.finished then 1 else 0
  own : ∀ q ∈ s.hub.reqs, q.finished = true →
    OwnSingleAnswer R s q ∨ FailedBy s.hub.ending q
  down : s.hub.ending = .down → s.hub.pending = [] ∧ ∀ q ∈ s.hub.reqs, q.finished = true

theorem Session.map_rid_asks (s : Session Args Result) :
    s.asks.map Ask.rid = s.hub.reqs.map Req.rid := by
  simp [Session.asks, Req.ask, Function.comp_def]

namespace Session.Inv

variable {n : ℕ}

theorem nodup_rids (h : s.Inv R n) (hlt : s.hub.begun < maxId) :
    (s.asks.map Ask.rid).Nodup :=
  (nodup_idAt n hlt.le).sublist (h.fresh.taken hlt.le)

/-- A request is waiting and not finished, or it is settled. -/
theorem unfinished_or_settled (h : s.Inv R n) {q : Req Args Result} (hq : q ∈ s.hub.reqs) :
    (Unfinished q ∧ s.hub.waiting ≠ []) ∨ Settled R s q := by
  obtain ⟨k, hk⟩ := List.getElem?_of_mem hq
  by_cases hmem : k ∈ s.hub.waiting.map Pending.req
  · obtain ⟨p, hp, rfl⟩ := List.mem_map.1 hmem
    obtain ⟨q', hq', -, hunf⟩ := h.finishes.unfinished p hp
    obtain rfl := Option.some.inj (hk.symm.trans hq')
    exact .inl ⟨hunf, List.ne_nil_of_mem hp⟩
  · exact .inr (h.finishes.settled k q hk hmem)

/-- The answer sent for the id of a request is the answer to it, and its only one. -/
theorem ownSingleAnswer (h : s.Inv R n) (hlt : s.hub.begun < maxId) {q : Req Args Result}
    (hq : q ∈ s.hub.reqs) (hown : OwnAnswer R s.answered q) : OwnSingleAnswer R s q := by
  obtain ⟨hunavailable, res, ⟨a, ha, hrid, hsend⟩, hres⟩ := hown
  have hnodup := h.nodup_rids hlt
  have hask : q.ask ∈ s.asks := List.mem_map_of_mem hq
  obtain ⟨q', hq', hof⟩ := h.origins.answers a ha
  obtain rfl : q' = q.ask := List.inj_on_of_nodup_map hnodup hq' hask (hof.1.symm.trans hrid)
  refine ⟨a, ha, hof, fun b hb hbrid => ?_, hunavailable, res, hsend, hres⟩
  have hanswers : (s.answered.map Answer.rid).Nodup := by
    refine List.nodup_iff_count_le_one.2 fun r => ?_
    have honce := h.origins.once r
    have := List.nodup_iff_count_le_one.1 hnodup r
    omega
  exact List.inj_on_of_nodup_map hanswers hb ha (hbrid.trans hrid.symm)

end Session.Inv

/-- In every session in which fewer than `maxId` ids were taken, every admitted request gets
its own single answer. -/
theorem own_answer {label : String} {nextId limit : ℕ} (hid : validId nextId = true)
    (h : Reach (step R) (Session.start label nextId limit) s) (hbegun : s.hub.begun < maxId) :
    s.Answered R := by
  have hi := Session.Inv.of_reach hid h
  refine ⟨?_, fun e he => ?_, fun q hq => ?_, fun q hq hfin => ?_, fun hdown => ?_⟩
  · rw [← s.map_rid_asks]
    exact hi.nodup_rids hbegun
  · obtain ⟨args, hask, -⟩ := hi.origins.entries e he
    rw [← s.map_rid_asks]
    exact List.mem_map_of_mem (f := Ask.rid) hask
  · rcases hi.unfinished_or_settled hq with ⟨⟨hfin, hcount⟩, -⟩ | ⟨hfin, hcount, -⟩
    · simp [hfin, hcount]
    · simp [hfin, hcount]
  · rcases hi.unfinished_or_settled hq with ⟨⟨hunf, -⟩, -⟩ | ⟨-, -, hown | hfailed⟩
    · simp [hunf] at hfin
    · exact .inl (hi.ownSingleAnswer hbegun hq hown)
    · exact .inr hfailed
  · have hpending : s.hub.pending = [] := hi.finishes.drained (.inr hdown)
    have hwaiting : s.hub.waiting = [] := by
      simp [Hub.waiting, hpending, hdown, hi.finishes.idle (by simp [hdown]), HubReader.taken,
        Ending.left]
    refine ⟨hpending, fun q hq => ?_⟩
    rcases hi.unfinished_or_settled hq with ⟨-, hne⟩ | ⟨hfin, -⟩
    · exact absurd hwaiting hne
    · exact hfin

/-- Two requests : one is answered, the other cancelled and failed by the end of the session. -/
theorem own_answer_two : ∃ s, runActs (step plainRules) (Session.start "node" maxId maxInflight)
      (enterActs ++ enterActs ++ answerActs maxId ++ [.cancelMark 1, .cancelSend 1, .removeReq maxId,
        .dropWriter "the node closed the connection", .failAll, .failOne, .failOne]) = some s ∧
    s.Answered plainRules := by
  obtain ⟨s, hrun, hbegun⟩ : ∃ s, runActs (step plainRules)
      (Session.start "node" maxId maxInflight)
      (enterActs ++ enterActs ++ answerActs maxId ++ [.cancelMark 1, .cancelSend 1, .removeReq maxId,
        .dropWriter "the node closed the connection", .failAll, .failOne, .failOne]) = some s ∧
      s.hub.begun < maxId := ⟨_, rfl, by decide⟩
  exact ⟨s, hrun, own_answer (by decide) (Reach.of_runActs hrun) hbegun⟩

/-- An answer need not be a handler's : a node whose policy does not manage refuses an op that
changes the machine, and the request is finished with the refusal. -/
theorem refused_unhandled : ¬ ∀ s, Reach (step plainRules) (Session.start "node" 1 maxInflight) s →
      s.hub.begun < maxId → ∀ q ∈ s.hub.reqs, q.finished = true →
        (∃ a ∈ s.answered, a.rid = q.rid ∧ a.origin = .handler) ∨
          FailedBy s.hub.ending q := by
  intro hall
  have hrun : ((runActs (step plainRules) (Session.start "node" 1 maxInflight)
      [.begin "docker.rm" () false, .nodeRead ⟨"monitor", none, none⟩, .sendRefusal, .resFind,
        .resRemove, .resFinish]).any fun s =>
      decide (s.hub.begun < maxId) && s.answered.all (fun a => a.origin ≠ .handler) &&
        s.hub.reqs.any fun q => q.finished && q.res.isSome) = true := by decide +kernel
  obtain ⟨s, hs, hend⟩ := (Option.any_eq_true _ _).1 hrun
  simp only [Bool.and_eq_true, decide_eq_true_eq] at hend
  obtain ⟨⟨hbegun, hall'⟩, hfin⟩ := hend
  obtain ⟨q, hq, hqfin⟩ := List.any_eq_true.1 hfin
  rw [Bool.and_eq_true] at hqfin
  rcases hall s (Reach.of_runActs hs) hbegun q hq hqfin.1 with ⟨a, ha, -, horigin⟩ | ⟨hres, -⟩
  · simpa [horigin] using List.all_eq_true.1 hall' a ha
  · simp [hres] at hqfin

end Link

end EngineConsole
