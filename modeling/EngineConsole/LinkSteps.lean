import EngineConsole.Link

/-!
# What a step of a link session can do

`StepTo R s a t` lists the effects a step of `step R` can have, each with what is known where
it happens; `step_cases` is that there are no others. The invariants of a session are
proved by cases on it and unfold no step.
-/

set_option linter.unusedSectionVars false

namespace EngineConsole

namespace Link

variable {Args Result : Type*} {R : Rules Args Result} {s t : Session Args Result}

/-- The effects of a step from `s` by each action. -/
inductive StepTo (R : Rules Args Result) (s : Session Args Result) :
    Act Result Args → Session Args Result → Prop
  /-- Nothing changes. -/
  | stay {a} : StepTo R s a s
  /-- `begin` takes an id for a message that does not encode. -/
  | skip {rid nextId op args streaming}
      (hid : takeId s.hub.pending (s.hub.pending.length + 1) s.hub.nextId = some (rid, nextId)) :
      StepTo R s (.begin op args streaming)
        { s with hub := { s.hub with nextId := nextId, begun := s.hub.begun + 1 } }
  /-- `begin` admits a request. -/
  | admitted {rid nextId op args streaming} (hw : s.hub.writer = true)
      (hlt : s.hub.pending.length < maxInflight)
      (hid : takeId s.hub.pending (s.hub.pending.length + 1) s.hub.nextId = some (rid, nextId)) :
      StepTo R s (.begin op args streaming) { s with
        hub := { s.hub with
          nextId := nextId
          begun := s.hub.begun + 1
          pending := s.hub.pending ++ [⟨rid, s.hub.reqs.length⟩]
          reqs := s.hub.reqs ++ [Req.new rid op args streaming] }
        toNode := s.toNode ++ [.req rid op args] }
  | cancelMark {k q} (hq : s.hub.reqs[k]? = some q) :
      StepTo R s (.cancelMark k) { s with hub := { s.hub with
        reqs := s.hub.reqs.modify k fun q => { q with cancelSent := true }
        cancels := s.hub.cancels ++ [q.rid] } }
  | cancelSend {rid sent} (hrid : rid ∈ s.hub.cancels) (hsent : sent = [] ∨ sent = [.cancel rid]) :
      StepTo R s (.cancelSend rid) { s with
        hub := { s.hub with cancels := s.hub.cancels.erase rid }
        toNode := s.toNode ++ sent }
  /-- A res of no pending request is dropped. -/
  | resDrop {f rest} (hin : s.toHub = f :: rest) :
      StepTo R s .resFind { s with toHub := rest }
  | resFind {f rest p} (hrun : s.hub.ending = .running) (hidle : s.hub.reader = .idle)
      (hin : s.toHub = f :: rest) (hp : Keyed.find Pending.rid f.rid s.hub.pending = some p) :
      StepTo R s .resFind { s with hub := { s.hub with reader := .found p f.res }, toHub := rest }
  | resRemove {p res} (hr : s.hub.reader = .found p res) :
      StepTo R s .resRemove { s with hub := { s.hub with
        pending := Keyed.remove Pending.rid p.rid s.hub.pending
        reader := .removed p res } }
  | resFinish {p res q} (hr : s.hub.reader = .removed p res) (hq : s.hub.reqs[p.req]? = some q) :
      StepTo R s .resFinish { s with hub :=
        { s.hub.finishReq p (some (R.sanitizeRes q.op res)) none with reader := .idle } }
  | writerFail {keep} :
      StepTo R s (.writerFail keep)
        { s with hub := { s.hub with writer := false }, toNode := s.toNode.take keep }
  | dropWriter {reason} (hrun : s.hub.ending = .running) (hidle : s.hub.reader = .idle) :
      StepTo R s (.dropWriter reason)
        { s with hub := { s.hub with writer := false, ending := .closing reason } }
  | failAll {reason} (hend : s.hub.ending = .closing reason) :
      StepTo R s .failAll { s with
        hub := { s.hub with pending := [], ending := .failing reason s.hub.pending }
        failed := s.hub.pending.map Pending.rid }
  | failOne {reason p left} (hend : s.hub.ending = .failing reason (p :: left)) :
      StepTo R s .failOne { s with hub := { s.hub.finishReq p none (some reason) with
        ending := .failing reason left } }
  | failEnd {reason} (hend : s.hub.ending = .failing reason []) :
      StepTo R s .failOne { s with
        hub := { s.hub with up := false, error := some reason, ending := .down } }
  /-- The node drops a request : its op has no argument spec, or its id is in the table. -/
  | reqDrop {policy rid op args rest} (hin : s.toNode = .req rid op args :: rest) :
      StepTo R s (.nodeRead policy) { s with toNode := rest }
  | reqRefuse {policy rid op args rest code why} (hidle : s.node.reader = .idle)
      (hin : s.toNode = .req rid op args :: rest) :
      StepTo R s (.nodeRead policy) { s with
        node := { s.node with reader := .refuse rid (resErr code why) }
        toNode := rest
        answered := s.answered ++ [⟨rid, op, args, .screen, resErr code why⟩] }
  | reqBusy {policy rid op args rest} (hidle : s.node.reader = .idle)
      (hin : s.toNode = .req rid op args :: rest)
      (hnew : rid ∉ Keyed.keys Entry.rid s.node.requests)
      (hfull : s.node.maxInflight ≤ s.node.requests.length) :
      StepTo R s (.nodeRead policy) { s with
        node := { s.node with reader := .refuse rid (busyRes s.node.maxInflight) }
        toNode := rest
        answered := s.answered ++ [⟨rid, op, args, .busy, busyRes s.node.maxInflight⟩] }
  | reqEnter {policy rid op args rest cleaned} (hidle : s.node.reader = .idle)
      (hin : s.toNode = .req rid op args :: rest)
      (hnew : rid ∉ Keyed.keys Entry.rid s.node.requests)
      (hclean : R.cleanArgs op args = some cleaned) :
      StepTo R s (.nodeRead policy) { s with
        node := { s.node with
          requests := s.node.requests ++ [⟨rid, op, cleaned, false, .starting⟩]
          reader := .start rid }
        toNode := rest }
  | cancelRead {policy rid rest} (hin : s.toNode = .cancel rid :: rest) :
      StepTo R s (.nodeRead policy) { s with
        node := s.node.updateReq rid Entry.cancel
        toNode := rest }
  | threadStart {rid} (hr : s.node.reader = .start rid) :
      StepTo R s (.startThread true) { s with node :=
        { s.node.updateReq rid (Entry.goto .running) with reader := .idle } }
  | threadFail {rid e} (hr : s.node.reader = .start rid)
      (he : Keyed.find Entry.rid rid s.node.requests = some e) :
      StepTo R s (.startThread false) { s with
        node := { s.node.removeReq rid with reader := .refuse rid noThreadRes }
        answered := s.answered ++ [⟨rid, e.op, e.args, .noThread, noThreadRes⟩] }
  | sendRefusal {rid res} (hr : s.node.reader = .refuse rid res) :
      StepTo R s .sendRefusal { s with
        node := { s.node with reader := .idle }
        toHub := s.send R rid res }
  | finish {rid e outcome res} (he : Keyed.find Entry.rid rid s.node.requests = some e)
      (hpc : e.pc = .running)
      (hres : res = R.handleRes e.op (e.cancelled || s.node.done) outcome) :
      StepTo R s (.finish rid outcome) { s with
        node := s.node.updateReq rid (Entry.goto (.answer res))
        answered := s.answered ++ [⟨rid, e.op, e.args, .handler, res⟩] }
  | sendRes {rid e res} (he : Keyed.find Entry.rid rid s.node.requests = some e)
      (hpc : e.pc = .answer res) :
      StepTo R s (.sendRes rid) { s with
        node := s.node.updateReq rid (Entry.goto .sent)
        toHub := s.send R rid res }
  | removeReq {rid e} (he : Keyed.find Entry.rid rid s.node.requests = some e)
      (hpc : e.pc = .sent) :
      StepTo R s (.removeReq rid) { s with node := s.node.removeReq rid }
  | nodeDone : StepTo R s .nodeDone { s with node := { s.node with done := true } }
  | nodeClose {keep} :
      StepTo R s (.nodeClose keep)
        { s with node := { s.node with closed := true }, toHub := s.toHub.take keep }

theorem cleanArgs_of_screen {policy : Policy} {op : String} {args cleaned : Args}
    (h : R.screen policy op args = .pass cleaned) : R.cleanArgs op args = some cleaned := by
  unfold Rules.screen at h
  split_ifs at h
  split at h
  · cases h
  · rename_i hclean
    split at h
    · cases h
    · split_ifs at h
      obtain rfl := Screen.pass.inj h
      exact hclean

theorem step_begin {op : String} {args : Args} {streaming : Bool}
    (h : step R s (.begin op args streaming) = some t) :
    StepTo R s (.begin op args streaming) t := by
  simp only [step, begin] at h
  by_cases hop : R.isOp op
  swap
  · simp only [hop, Bool.not_false, ↓reduceIte, Option.some.injEq] at h
    exact h ▸ .stay
  by_cases hw : s.hub.writer && s.hub.up
  swap
  · simp only [hop, hw, Bool.not_true, Bool.not_false, Bool.false_eq_true, ↓reduceIte,
      Option.some.injEq] at h
    exact h ▸ .stay
  by_cases hfull : maxInflight ≤ s.hub.pending.length
  · simp only [hop, hw, hfull, Bool.not_true, Bool.false_eq_true, ↓reduceIte,
      Option.some.injEq] at h
    exact h ▸ .stay
  cases hid : takeId s.hub.pending (s.hub.pending.length + 1) s.hub.nextId with
  | none => simp [hop, hw, hfull, hid] at h
  | some ids =>
    obtain ⟨rid, nextId⟩ := ids
    cases henc : R.encodeReq rid op args with
    | some e =>
      simp only [hop, hw, hfull, hid, henc, Bool.not_true, Bool.false_eq_true, ↓reduceIte,
        Option.some.injEq] at h
      exact h ▸ .skip hid
    | none =>
      simp only [hop, hw, hfull, hid, henc, Bool.not_true, Bool.false_eq_true, ↓reduceIte,
        Option.some.injEq] at h
      exact h ▸ .admitted (Bool.and_eq_true_iff.1 hw).1 (by omega) hid

theorem step_nodeRead {policy : Policy} (h : step R s (.nodeRead policy) = some t) :
    StepTo R s (.nodeRead policy) t := by
  simp only [step] at h
  split at h
  · rename_i rid op args rest _ hidle hin
    split at h
    · simp only [Session.onReq, Option.some.injEq] at h
      split at h
      · exact h ▸ .reqDrop hin
      · exact h ▸ .reqRefuse hidle hin
      · rename_i cleaned hscreen
        split_ifs at h with hdup hfull
        · exact h ▸ .reqDrop hin
        · exact h ▸ .reqBusy hidle hin (Keyed.isSome_find.not.1 hdup) hfull
        · exact h ▸ .reqEnter hidle hin (Keyed.isSome_find.not.1 hdup) (cleanArgs_of_screen hscreen)
    · obtain rfl := Option.some.inj h
      exact .reqDrop hin
  · rename_i rid rest _ _ hin
    obtain rfl := Option.some.inj h
    exact .cancelRead hin
  · cases h

/-- A step has one of the effects of `StepTo`. -/
theorem step_cases {a : Act Result Args} (h : step R s a = some t) : StepTo R s a t := by
  cases a with
  | begin op args streaming => exact step_begin h
  | nodeRead policy => exact step_nodeRead h
  | cancelMark k =>
    simp only [step] at h
    split at h
    · rename_i q hq
      split_ifs at h
      · exact Option.some.inj h ▸ .stay
      · exact Option.some.inj h ▸ .cancelMark hq
    · cases h
  | cancelSend rid =>
    simp only [step] at h
    split_ifs at h with hmem hw
    · exact Option.some.inj h ▸ .cancelSend hmem (.inr rfl)
    · have hsent := StepTo.cancelSend (R := R) hmem (.inl rfl)
      rw [List.append_nil] at hsent
      exact Option.some.inj h ▸ hsent
  | resFind =>
    simp only [step] at h
    split at h
    · rename_i f rest hrun hidle hin
      split at h
      · rename_i p hp
        have hfind : Keyed.find Pending.rid f.rid s.hub.pending = some p := by
          unfold Hub.request at hp
          split_ifs at hp
          exact hp
        exact Option.some.inj h ▸ .resFind hrun hidle hin hfind
      · exact Option.some.inj h ▸ .resDrop hin
    · cases h
  | resRemove =>
    simp only [step] at h
    split at h
    · rename_i p res hr
      exact Option.some.inj h ▸ .resRemove hr
    · cases h
  | resFinish =>
    simp only [step] at h
    split at h
    · rename_i p res hr
      split at h
      · rename_i q hq
        exact Option.some.inj h ▸ .resFinish hr hq
      · cases h
    · cases h
  | writerFail keep => exact Option.some.inj h ▸ .writerFail
  | dropWriter reason =>
    simp only [step] at h
    split at h
    · rename_i hrun hidle
      exact Option.some.inj h ▸ .dropWriter hrun hidle
    · cases h
  | failAll =>
    simp only [step] at h
    split at h
    · rename_i reason hend
      exact Option.some.inj h ▸ .failAll hend
    · cases h
  | failOne =>
    simp only [step] at h
    split at h
    · rename_i reason p left hend
      exact Option.some.inj h ▸ .failOne hend
    · rename_i reason hend
      exact Option.some.inj h ▸ .failEnd hend
    · cases h
  | startThread started =>
    simp only [step] at h
    split at h
    · rename_i rid hr
      rcases started with _ | _
      · simp only [Bool.false_eq_true, ↓reduceIte] at h
        split at h
        · rename_i e he
          exact Option.some.inj h ▸ .threadFail hr he
        · cases h
      · exact Option.some.inj h ▸ .threadStart hr
    · cases h
  | sendRefusal =>
    simp only [step] at h
    split at h
    · rename_i rid res hr
      exact Option.some.inj h ▸ .sendRefusal hr
    · cases h
  | finish rid outcome =>
    simp only [step] at h
    split at h
    · rename_i e he
      split at h
      · rename_i hpc
        exact Option.some.inj h ▸ .finish he hpc rfl
      · cases h
    · cases h
  | sendRes rid =>
    simp only [step] at h
    split at h
    · rename_i e he
      split at h
      · rename_i res hpc
        exact Option.some.inj h ▸ .sendRes he hpc
      · cases h
    · cases h
  | removeReq rid =>
    simp only [step] at h
    split at h
    · rename_i e he
      split at h
      · rename_i hpc
        exact Option.some.inj h ▸ .removeReq he hpc
      · cases h
    · cases h
  | nodeDone => exact Option.some.inj h ▸ .nodeDone
  | nodeClose keep => exact Option.some.inj h ▸ .nodeClose

end Link

end EngineConsole
