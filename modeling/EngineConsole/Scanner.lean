import EngineConsole.Router
import EngineConsole.Transition

/-!
# The scanner

The thread that scans the model roots of a node. A request hands out the number of the
generation that the next run will publish; a run takes what is pending, reads each root,
publishes the entries, and then notes the signature of each root. A check compares the
signatures with those noted.

`promises_kept` : where no run panics before it has published what it owes, and no root changes
between its scan and the note of its signature, every number handed out is published when the
scanner is idle, and a root that a check finds unchanged is listed as it is.

A panic loses the number that the run was to publish, and a change between the scan and the note
is in the signature but not in the entries (`promises_broken`).
-/

set_option linter.unusedSectionVars false

namespace EngineConsole

namespace Scanner

open Web

/-! ## Entries -/

/-- An entry of the library. -/
structure Entry where
  root : Text
  rel : Text
  /-- the other fields -/
  info : Text
  atime : Option ℕ
  deriving DecidableEq

/-- Without the access time. -/
def Entry.strip (e : Entry) : Entry :=
  { e with atime := none }

/-- `comparable`. -/
def comparable (es : List Entry) : List Entry :=
  es.map Entry.strip

/-- The order of the entries. -/
def Entry.le (a b : Entry) : Bool :=
  decide (a.root < b.root) || decide (a.root = b.root) && decide (a.rel ≤ b.rel)

/-- What can be seen of a root : its entries, and the times of its directories. -/
structure Eyes (δ σ : Type) where
  /-- `signature` -/
  sig : δ → σ
  /-- the signature without directories -/
  noSig : σ
  /-- `scan_root` -/
  read : Text → δ → List Entry
  root_of_read : ∀ r d, ∀ e ∈ read r d, e.root = r

/-! ## State -/

/-- What a run has taken. -/
structure Run where
  gen : ℕ
  notify : Bool
  /-- the roots asked for, or all -/
  roots : Option (List Text)
  deriving DecidableEq

/-- The run scans a root. -/
def Run.wants (run : Run) (r : Text) : Bool :=
  run.roots.all fun rs => rs.contains r

/-- What a scan gave for each root. -/
abbrev Results := List (Text × Option (List Entry))

/-- Where the thread is. -/
inductive Pc
  | top
  /-- nothing was pending, the policy is to be read -/
  | look
  | check (todo stale : List Text)
  /-- the time of the next full rescan is to be read -/
  | due (stale : List Text)
  | take
  /-- a run has taken what was pending, the policy is to be read -/
  | start (run : Run)
  | scan (run : Run) (ids todo : List Text) (results : Results)
  /-- the entries are published, signatures are to be noted -/
  | record (run : Run) (todo : List Text) (publish : Bool)
  /-- `on_change` is to be called -/
  | announce
  deriving DecidableEq

/-- The scanner, the policy and the roots on disk. -/
structure State (δ σ : Type) where
  policy : List Text
  disk : Text → δ
  pending : Bool
  pendingAll : Bool
  pendingRoots : List Text
  notify : Bool
  running : Bool
  generation : ℕ
  assigned : ℕ
  byRoot : Text → Option (List Entry)
  snapshot : List Entry
  sigs : Text → Option σ
  pc : Pc
  /-- the numbers that requests have returned -/
  promised : List ℕ
  /-- the generations published -/
  published : List ℕ

/-- After `start`, which asks for a scan of all roots. -/
def State.init {δ σ : Type} (policy : List Text) (disk : Text → δ) : State δ σ where
  policy := policy
  disk := disk
  pending := true
  pendingAll := true
  pendingRoots := []
  notify := true
  running := false
  generation := 0
  assigned := 0
  byRoot := fun _ => none
  snapshot := []
  sigs := fun _ => none
  pc := .top
  promised := [1]
  published := []

/-! ## Steps -/

/-- What may happen next. -/
inductive Act (δ : Type)
  /-- `fresh` : the last scan finished a moment ago -/
  | request (roots : Option (List Text)) (force fresh : Bool)
  /-- a root changes on disk -/
  | change (root : Text) (d : δ)
  /-- the policy is loaded again -/
  | setPolicy (ids : List Text)
  /-- the thread goes on. `ok` : the guarded call answers; at `due`, a full rescan is due -/
  | go (ok : Bool)
  /-- the round panics, and `run_loop` goes on -/
  | panic

section

variable {δ σ : Type} [DecidableEq σ] (E : Eyes δ σ)

/-- `Scanner::request`. -/
def State.request (s : State δ σ) (roots : Option (List Text)) (force fresh : Bool) : State δ σ :=
  let idle := !s.running && !s.pending
  let roots := roots.filter fun rs => !rs.isEmpty
  if !force && roots.isNone && idle && s.generation ≠ 0 && fresh then s
  else
    { s with
      pending := true
      notify := true
      pendingRoots := s.pendingRoots ++ roots.getD []
      pendingAll := s.pendingAll || roots.isNone
      promised := s.promised ++ [s.assigned + 1] }

/-- `changed` : the signature is not the one noted. Without an answer, or without a note, it
counts as unchanged. -/
def State.changed (s : State δ σ) (r : Text) (ok : Bool) : Bool :=
  ok && (s.sigs r).any fun old => old ≠ E.sig (s.disk r)

/-- Queue the roots that have changed, or all. -/
def State.queue (s : State δ σ) (stale : List Text) (full : Bool) : State δ σ :=
  if stale = [] ∧ full = false then { s with pc := .top }
  else if s.pending then { s with pc := .take }
  else
    { s with
      pending := true
      pendingAll := s.pendingAll || full
      pendingRoots := s.pendingRoots ++ stale
      pc := .take }

/-- The start of `run_once`. -/
def State.take (s : State δ σ) : State δ σ :=
  if s.pending then
    { s with
      pending := false
      pendingAll := false
      notify := false
      pendingRoots := []
      assigned := s.assigned + 1
      running := true
      pc := .start ⟨s.assigned + 1, s.notify, if s.pendingAll then none else some s.pendingRoots⟩ }
  else { s with pc := .top }

/-- The entries of each root with the results of a scan. -/
def merge (byRoot : Text → Option (List Entry)) (results : Results) : Text → Option (List Entry) :=
  results.foldl (fun b x => if x.2.isSome then Function.update b x.1 x.2 else b) byRoot

/-- The entries of all roots, in order. -/
def listAll (ids : List Text) (byRoot : Text → Option (List Entry)) : List Entry :=
  (ids.flatMap fun r => (byRoot r).getD []).insertionSort fun a b => a.le b = true

/-- The end of the scan. -/
def State.publish (s : State δ σ) (run : Run) (ids : List Text) (results : Results) : State δ σ :=
  let merged := merge s.byRoot results
  let byRoot := fun r => if r ∈ ids then merged r else none
  let new := listAll ids byRoot
  let publish := decide (comparable new ≠ comparable s.snapshot) || run.notify
  { s with
    running := false
    byRoot := byRoot
    generation := if publish then run.gen else s.generation
    snapshot := if publish then new else s.snapshot
    published := if publish then s.published ++ [run.gen] else s.published
    pc := .record run (ids.filter run.wants) publish }

/-- The next step of the thread. -/
def State.go (s : State δ σ) (ok : Bool) : State δ σ :=
  match s.pc with
  | .top => { s with pc := if s.pending then .take else .look }
  | .look => { s with pc := .check s.policy [] }
  | .check [] stale => { s with pc := .due stale }
  | .check (r :: todo) stale =>
    { s with pc := .check todo (if s.changed E r ok then stale ++ [r] else stale) }
  | .due stale => s.queue stale ok
  | .take => s.take
  | .start run => { s with pc := .scan run s.policy (s.policy.filter run.wants) [] }
  | .scan run ids (r :: todo) results =>
    { s with
      pc := .scan run ids todo
        (results ++ [(r, if ok then some (E.read r (s.disk r)) else none)]) }
  | .scan run ids [] results => s.publish run ids results
  | .record run (r :: todo) publish =>
    { s with
      sigs := Function.update s.sigs r (some (if ok then E.sig (s.disk r) else E.noSig))
      pc := .record run todo publish }
  | .record _ [] publish => { s with pc := if publish then .announce else .top }
  | .announce => { s with pc := .top }

/-- One step. The ids of a policy are distinct. -/
def step (s : State δ σ) : Act δ → Option (State δ σ)
  | .request roots force fresh => some (s.request roots force fresh)
  | .change r d => some { s with disk := Function.update s.disk r d }
  | .setPolicy ids => if ids.Nodup then some { s with policy := ids } else none
  | .go ok => some (s.go E ok)
  | .panic =>
    match s.pc with
    | .top => none
    | _ => some { s with running := false, pc := .top }

end

/-! ## When the scanner keeps its promises -/

/-- The run that has taken a number and not published yet. -/
def Pc.owes : Pc → Option Run
  | .start run => some run
  | .scan run _ _ _ => some run
  | _ => none

/-- The roots that are scanned and whose signature is not noted yet. -/
def Pc.between : Pc → List Text
  | .scan _ _ _ results => results.map Prod.fst
  | .record _ todo _ => todo
  | _ => []

/-- The roots whose entries are newer than the signature noted. -/
def Pc.unnoted : Pc → List Text
  | .record _ todo _ => todo
  | _ => []

/-- A check is under way. -/
def Pc.checks : Pc → Bool
  | .look | .check _ _ => true
  | _ => false

/-- The next step waits for the filesystem. -/
def Pc.calls : Pc → Bool
  | .check (_ :: _) _ | .scan _ _ (_ :: _) _ | .record _ (_ :: _) _ => true
  | _ => false

section

variable {δ σ : Type}

/-- Both the entries and the signature of a root are there. -/
def State.known (s : State δ σ) (r : Text) : Bool :=
  (s.byRoot r).isSome && (s.sigs r).isSome

/-- A run of all roots is still to read the policy. -/
def State.fullAhead (s : State δ σ) : Bool :=
  s.pendingAll ||
    match s.pc with
    | .start run => run.roots.isNone
    | _ => false

/-- The steps that do not lose anything : a root keeps its signature from its scan until the
signature is noted, a root comes into the policy only while a scan of all is ahead and no check
is under way, guarded calls answer, and a panic does not cost a run that owes a number, that is
to scan a root for the first time, or that has signatures to note. -/
def Calm (E : Eyes δ σ) (s : State δ σ) : Act δ → Prop
  | .request _ _ _ => True
  | .change r d => r ∈ s.pc.between → E.sig d = E.sig (s.disk r)
  | .setPolicy ids => (∀ r ∈ ids, r ∈ s.policy) ∨ s.fullAhead = true ∧ s.pc.checks = false
  | .go ok => s.pc.calls = true → ok = true
  | .panic =>
    (∀ run, s.pc.owes = some run → run.notify = false ∧
      (s.pendingAll = true ∨ ∀ r ∈ s.policy, s.known r = true)) ∧ s.pc.unnoted = []

/-- The loop has nothing to do. -/
def Idle (s : State δ σ) : Prop :=
  s.pc = .top ∧ s.pending = false

/-- What is published of a root is what a disk with its signature of now holds. -/
def Reflects (E : Eyes δ σ) (s : State δ σ) (r : Text) : Prop :=
  ∃ d, E.sig d = E.sig (s.disk r) ∧
    (comparable (s.snapshot.filter fun e => e.root = r)).Perm (comparable (E.read r d))

/-! ## Promises -/

/-- Generations are published in order, and each number handed out is published, or waits for the
next run, or is that of the run under way. -/
structure Promises (s : State δ σ) : Prop where
  sorted : s.published.Pairwise (· < ·)
  le : ∀ m ∈ s.published, m ≤ s.assigned
  owed : ∀ run, s.pc.owes = some run → run.gen = s.assigned ∧ ∀ m ∈ s.published, m < run.gen
  kept : ∀ n ∈ s.promised, n ∈ s.published ∨
    (s.pending = true ∧ s.notify = true ∧ n = s.assigned + 1) ∨
      ∃ run, s.pc.owes = some run ∧ run.notify = true ∧ n = run.gen

theorem promises_init (policy : List Text) (disk : Text → δ) :
    Promises (.init policy disk : State δ σ) where
  sorted := .nil
  le := by simp [State.init]
  owed := by simp [State.init, Pc.owes]
  kept := by simp [State.init]

/-- A step that touches none of this. -/
theorem Promises.congr {s t : State δ σ} (h : Promises s) (hpub : t.published = s.published)
    (has : t.assigned = s.assigned) (hpro : t.promised = s.promised)
    (hpend : s.pending = true → t.pending = true) (hnot : t.notify = s.notify)
    (howes : t.pc.owes = s.pc.owes) : Promises t where
  sorted := hpub ▸ h.sorted
  le := by rw [hpub, has]; exact h.le
  owed := by rw [hpub, has, howes]; exact h.owed
  kept := by
    rw [hpub, has, hpro, hnot, howes]
    intro n hn
    rcases h.kept n hn with hp | ⟨hp, hnotify, rfl⟩ | hr
    · exact .inl hp
    · exact .inr (.inl ⟨hpend hp, hnotify, rfl⟩)
    · exact .inr (.inr hr)

theorem Promises.request {s : State δ σ} (h : Promises s) (roots : Option (List Text))
    (force fresh : Bool) : Promises (s.request roots force fresh) := by
  unfold State.request
  dsimp only
  split_ifs with hfresh
  · exact h
  · refine ⟨h.sorted, h.le, h.owed, fun n hn => ?_⟩
    rcases List.mem_append.1 hn with hn | hn
    · rcases h.kept n hn with hp | ⟨-, -, rfl⟩ | hr
      · exact .inl hp
      · exact .inr (.inl ⟨rfl, rfl, rfl⟩)
      · exact .inr (.inr hr)
    · exact .inr (.inl ⟨rfl, rfl, List.mem_singleton.1 hn⟩)

theorem Promises.take {s : State δ σ} (h : Promises s) (hpc : s.pc = .take) :
    Promises s.take := by
  have howes : s.pc.owes = none := by rw [hpc]; rfl
  unfold State.take
  by_cases hpend : s.pending = true
  · rw [if_pos hpend]
    refine ⟨h.sorted, fun m hm => Nat.le_succ_of_le (h.le m hm), fun run hrun => ?_,
      fun n hn => ?_⟩
    · obtain rfl := Option.some.inj hrun
      exact ⟨rfl, fun m hm => Nat.lt_succ_of_le (h.le m hm)⟩
    · rcases h.kept n hn with hp | ⟨-, hnot, rfl⟩ | ⟨run, hrun, -⟩
      · exact .inl hp
      · exact .inr (.inr ⟨_, rfl, hnot, rfl⟩)
      · rw [howes] at hrun
        exact absurd hrun (by simp)
  · rw [if_neg hpend]
    exact h.congr rfl rfl rfl id rfl howes.symm

theorem Promises.publish {s : State δ σ} (h : Promises s) {run : Run} {ids todo : List Text}
    {results : Results} (hpc : s.pc = .scan run ids todo results) :
    Promises (s.publish run ids results) := by
  have howes : s.pc.owes = some run := by rw [hpc]; rfl
  obtain ⟨hgen, hlt⟩ := h.owed run howes
  unfold State.publish
  dsimp only
  split_ifs with hp
  · refine ⟨?_, ?_, by simp [Pc.owes], fun n hn => ?_⟩
    · rw [List.pairwise_append]
      exact ⟨h.sorted, List.pairwise_singleton _ _, fun a ha b hb =>
        List.mem_singleton.1 hb ▸ hlt a ha⟩
    · intro m hm
      rcases List.mem_append.1 hm with hm | hm
      · exact h.le m hm
      · rw [List.mem_singleton.1 hm, hgen]
    · rcases h.kept n hn with hpub | hpend | ⟨run', hrun, -, rfl⟩
      · exact .inl (List.mem_append_left _ hpub)
      · exact .inr (.inl hpend)
      · obtain rfl := Option.some.inj (howes.symm.trans hrun)
        exact .inl (List.mem_append_right _ (List.mem_singleton_self _))
  · refine ⟨h.sorted, h.le, by simp [Pc.owes], fun n hn => ?_⟩
    rcases h.kept n hn with hpub | hpend | ⟨run', hrun, hnot, rfl⟩
    · exact .inl hpub
    · exact .inr (.inl hpend)
    · obtain rfl := Option.some.inj (howes.symm.trans hrun)
      exact absurd hp (by simp [hnot])

variable [DecidableEq σ] {E : Eyes δ σ}

theorem Promises.go {s : State δ σ} (h : Promises s) (ok : Bool) : Promises (s.go E ok) := by
  unfold State.go
  split
  · next hpc => exact h.congr rfl rfl rfl id rfl (by rw [hpc]; dsimp only; split_ifs <;> rfl)
  · next hpc => exact h.congr rfl rfl rfl id rfl (by rw [hpc]; rfl)
  · next hpc => exact h.congr rfl rfl rfl id rfl (by rw [hpc]; rfl)
  · next hpc => exact h.congr rfl rfl rfl id rfl (by rw [hpc]; rfl)
  · next hpc =>
    unfold State.queue
    split_ifs
    · exact h.congr rfl rfl rfl id rfl (by rw [hpc]; rfl)
    · exact h.congr rfl rfl rfl id rfl (by rw [hpc]; rfl)
    · exact h.congr rfl rfl rfl (fun _ => rfl) rfl (by rw [hpc]; rfl)
  · next hpc => exact h.take hpc
  · next hpc => exact h.congr rfl rfl rfl id rfl (by rw [hpc]; rfl)
  · next hpc => exact h.congr rfl rfl rfl id rfl (by rw [hpc]; rfl)
  · next hpc => exact h.publish hpc
  · next hpc => exact h.congr rfl rfl rfl id rfl (by rw [hpc]; rfl)
  · next hpc => exact h.congr rfl rfl rfl id rfl (by rw [hpc]; dsimp only; split_ifs <;> rfl)
  · next hpc => exact h.congr rfl rfl rfl id rfl (by rw [hpc]; rfl)

theorem step_panic {s t : State δ σ} (hstep : Scanner.step E s .panic = some t) :
    t = { s with running := false, pc := .top } := by
  unfold Scanner.step at hstep
  dsimp only at hstep
  split at hstep
  · simp at hstep
  · exact (Option.some.inj hstep).symm

theorem Promises.step {s t : State δ σ} (h : Promises s) {a : Act δ} (hcalm : Calm E s a)
    (hstep : step E s a = some t) : Promises t := by
  cases a with
  | request roots force fresh =>
    obtain rfl := Option.some.inj hstep
    exact h.request roots force fresh
  | change r d =>
    obtain rfl := Option.some.inj hstep
    exact h.congr rfl rfl rfl id rfl rfl
  | setPolicy ids =>
    obtain ⟨-, heq⟩ := Option.ite_none_right_eq_some.1 hstep
    obtain rfl := Option.some.inj heq
    exact h.congr rfl rfl rfl id rfl rfl
  | go ok =>
    obtain rfl := Option.some.inj hstep
    exact h.go ok
  | panic =>
    rw [step_panic hstep]
    refine ⟨h.sorted, h.le, by simp [Pc.owes], fun n hn => ?_⟩
    rcases h.kept n hn with hpub | hpend | ⟨run, hrun, hnot, -⟩
    · exact .inl hpub
    · exact .inr (.inl hpend)
    · rw [(hcalm.1 run hrun).1] at hnot
      exact absurd hnot Bool.false_ne_true

/-! ## Entries and signatures -/

/-- What the place of the thread says of the roots. -/
def PcOk (E : Eyes δ σ) (s : State δ σ) : Pc → Prop
  | .look => ∀ r ∈ s.policy, s.known r = true
  | .check todo _ => ∀ r, r ∈ s.policy ∨ r ∈ todo → s.known r = true
  | .start run => ∀ r ∈ s.policy, s.pendingAll = true ∨ run.roots = none ∨ s.known r = true
  | .scan run ids todo results =>
    ids.Nodup ∧ results.map Prod.fst ++ todo = ids.filter run.wants ∧
      (∀ x ∈ results, ∃ d, x.2 = some (E.read x.1 d) ∧ E.sig d = E.sig (s.disk x.1)) ∧
      ∀ r ∈ s.policy, s.pendingAll = true ∨ r ∈ ids ∧ (run.wants r = true ∨ s.known r = true)
  | .record _ todo _ =>
    todo.Nodup ∧ (∀ r ∈ todo, ∃ d, s.byRoot r = some (E.read r d) ∧ E.sig d = E.sig (s.disk r)) ∧
      ∀ r ∈ s.policy, s.pendingAll = true ∨ r ∈ todo ∨ s.known r = true
  | _ => ∀ r ∈ s.policy, s.pendingAll = true ∨ s.known r = true

/-- The snapshot lists the entries of each root, the signature noted for a root is that of the disk
its entries are from, and each root of the policy has both or will have. -/
structure Books (E : Eyes δ σ) (s : State δ σ) : Prop where
  all : s.pendingAll = true → s.pending = true
  ids : s.policy.Nodup
  roots : ∀ r es, s.byRoot r = some es → ∀ e ∈ es, e.root = r
  snap : ∀ r es, s.byRoot r = some es →
    (comparable (s.snapshot.filter fun e => e.root = r)).Perm (comparable es)
  paired : ∀ r es old, r ∉ s.pc.unnoted → s.byRoot r = some es → s.sigs r = some old →
    ∃ d, es = E.read r d ∧ old = E.sig d
  place : PcOk E s s.pc

theorem books_init {policy : List Text} (hpolicy : policy.Nodup) (disk : Text → δ) :
    Books E (.init policy disk) where
  all := fun _ => rfl
  ids := hpolicy
  roots := by simp [State.init]
  snap := by simp [State.init]
  paired := by simp [State.init]
  place := fun _ _ => .inl rfl

theorem merge_of_not_mem {b : Text → Option (List Entry)} {results : Results} {r : Text}
    (hr : r ∉ results.map Prod.fst) : merge b results r = b r := by
  induction results generalizing b with
  | nil => rfl
  | cons x results ih =>
    rw [List.map_cons, List.mem_cons, not_or] at hr
    have hstep := ih (b := if x.2.isSome then Function.update b x.1 x.2 else b) hr.2
    rw [merge, List.foldl_cons]
    rw [merge] at hstep
    rw [hstep]
    split_ifs
    · exact Function.update_of_ne hr.1 _ _
    · rfl

theorem merge_of_mem {b : Text → Option (List Entry)} {results : Results} {r : Text}
    {es : List Entry} (hnodup : (results.map Prod.fst).Nodup) (hr : (r, some es) ∈ results) :
    merge b results r = some es := by
  induction results generalizing b with
  | nil => simp at hr
  | cons x results ih =>
    rw [List.map_cons, List.nodup_cons] at hnodup
    rcases List.mem_cons.1 hr with rfl | hr
    · have hrest := merge_of_not_mem (b := Function.update b r (some es)) hnodup.1
      rw [merge] at hrest
      rw [merge, List.foldl_cons]
      exact hrest.trans (Function.update_self _ _ _)
    · have hrest := ih (b := if x.2.isSome then Function.update b x.1 x.2 else b) hnodup.2 hr
      rw [merge] at hrest
      rw [merge, List.foldl_cons]
      exact hrest

/-- The entries of one root in the list of all. -/
theorem filter_listAll {ids : List Text} {f : Text → Option (List Entry)} (hids : ids.Nodup)
    (hroots : ∀ r es, f r = some es → ∀ e ∈ es, e.root = r) {r : Text} (hr : r ∈ ids)
    {es : List Entry} (hes : f r = some es) :
    ((listAll ids f).filter fun e => e.root = r).Perm es := by
  have hperm : (listAll ids f).Perm (ids.flatMap fun r => (f r).getD []) :=
    List.perm_insertionSort _ _
  refine (hperm.filter _).trans (List.Perm.of_eq ?_)
  have hother {r' : Text} (h : r' ≠ r) : ((f r').getD []).filter (fun e => e.root = r) = [] := by
    rw [List.filter_eq_nil_iff]
    intro e he
    cases hf : f r' with
    | none => simp [hf] at he
    | some es' =>
      have hroot := hroots r' es' hf e (by simpa [hf] using he)
      simpa [hroot] using h
  have hown : ((f r).getD []).filter (fun e => e.root = r) = es := by
    rw [hes, Option.getD_some, List.filter_eq_self]
    intro e he
    simpa using hroots r es hes e he
  induction ids with
  | nil => simp at hr
  | cons a ids ih =>
    rw [List.nodup_cons] at hids
    rw [List.flatMap_cons, List.filter_append]
    rcases List.mem_cons.1 hr with rfl | hr
    · have hrest : (ids.flatMap fun r => (f r).getD []).filter (fun e => e.root = r) = [] := by
        rw [List.filter_flatMap, List.flatMap_eq_nil_iff]
        intro r' hr'
        exact hother fun h => hids.1 (h ▸ hr')
      rw [hown, hrest, List.append_nil]
    · have ha : a ≠ r := fun h => hids.1 (h ▸ hr)
      rw [hother ha, List.nil_append]
      exact ih hids.2 hr (List.perm_insertionSort _ _)

theorem comparable_filter (r : Text) (es : List Entry) :
    comparable (es.filter fun e => e.root = r) =
      (comparable es).filter fun e => e.root = r := by
  rw [comparable, comparable, List.filter_map]
  rfl

theorem Books.publish {s : State δ σ} (h : Books E s) {run : Run} {ids : List Text}
    {results : Results} (hpc : s.pc = .scan run ids [] results) :
    Books E (s.publish run ids results) := by
  have hplace := h.place
  rw [hpc] at hplace
  obtain ⟨hids, hkeys, hresults, hpolicy⟩ := hplace
  rw [List.append_nil] at hkeys
  have hnodup : (results.map Prod.fst).Nodup := hkeys ▸ hids.filter _
  -- what is scanned is new, and the rest of the policy's roots stay
  have hwanted {r : Text} (hr : r ∈ ids) (hw : run.wants r = true) :
      ∃ d, merge s.byRoot results r = some (E.read r d) ∧ E.sig d = E.sig (s.disk r) := by
    have hmem : r ∈ results.map Prod.fst := by
      rw [hkeys]
      exact List.mem_filter.2 ⟨hr, hw⟩
    obtain ⟨⟨r', es⟩, hx, rfl⟩ := List.mem_map.1 hmem
    obtain ⟨d, hes, hsig⟩ := hresults _ hx
    dsimp only at hes
    subst hes
    exact ⟨d, merge_of_mem hnodup hx, hsig⟩
  have hother {r : Text} (hw : run.wants r ≠ true) : merge s.byRoot results r = s.byRoot r := by
    refine merge_of_not_mem fun hmem => hw ?_
    rw [hkeys] at hmem
    exact (List.mem_filter.1 hmem).2
  have hroots : ∀ r es, (if r ∈ ids then merge s.byRoot results r else none) = some es →
      ∀ e ∈ es, e.root = r := by
    intro r es hes
    obtain ⟨hr, hes⟩ := Option.ite_none_right_eq_some.1 hes
    by_cases hw : run.wants r = true
    · obtain ⟨d, hd, -⟩ := hwanted hr hw
      obtain rfl := Option.some.inj (hd.symm.trans hes)
      exact E.root_of_read r d
    · exact h.roots r es ((hother hw).symm.trans hes)
  refine ⟨h.all, h.ids, hroots, fun r es hes => ?_, fun r es old hr hes hold => ?_, ?_, ?_, ?_⟩
  · have hmem := (Option.ite_none_right_eq_some.1 hes).1
    have hlist := (filter_listAll hids hroots hmem hes).map Entry.strip
    unfold State.publish
    dsimp only
    split_ifs with hp
    · exact hlist
    · have hsame : comparable s.snapshot = comparable (listAll ids fun r =>
          if r ∈ ids then merge s.byRoot results r else none) := by
        simp only [Bool.or_eq_true, decide_eq_true_eq, not_or, not_not] at hp
        exact hp.1.symm
      rw [comparable_filter, hsame, ← comparable_filter]
      exact hlist
  · obtain ⟨hmem, hes⟩ := Option.ite_none_right_eq_some.1 hes
    have hw : run.wants r ≠ true := fun hw => hr (List.mem_filter.2 ⟨hmem, hw⟩)
    exact h.paired r es old (by rw [hpc]; simp [Pc.unnoted]) ((hother hw).symm.trans hes) hold
  · exact hids.filter _
  · intro r hr
    obtain ⟨hmem, hw⟩ := List.mem_filter.1 hr
    obtain ⟨d, hd, hsig⟩ := hwanted hmem hw
    exact ⟨d, (if_pos hmem).trans hd, hsig⟩
  · intro r hr
    rcases hpolicy r hr with hall | ⟨hmem, hcase⟩
    · exact .inl hall
    · by_cases hw : run.wants r = true
      · exact .inr (.inl (List.mem_filter.2 ⟨hmem, hw⟩))
      · have hknown := hcase.resolve_left hw
        rw [State.known] at hknown
        refine .inr (.inr ?_)
        rw [State.known, State.publish]
        dsimp only
        rw [if_pos hmem, hother hw, hknown]

/-- A step that leaves the entries and the signatures. -/
theorem Books.move {s t : State δ σ} (h : Books E s) (hpolicy : t.policy.Nodup)
    (hby : t.byRoot = s.byRoot) (hsnap : t.snapshot = s.snapshot) (hsigs : t.sigs = s.sigs)
    (hunnoted : ∀ r ∈ s.pc.unnoted, r ∈ t.pc.unnoted)
    (hall : t.pendingAll = true → t.pending = true) (hplace : PcOk E t t.pc) : Books E t where
  all := hall
  ids := hpolicy
  roots := hby ▸ h.roots
  snap := by rw [hby, hsnap]; exact h.snap
  paired := by
    rw [hby, hsigs]
    exact fun r es old hr => h.paired r es old fun hmem => hr (hunnoted r hmem)
  place := hplace

/-- The same place, with more pending, other roots in the policy, or other disks that look the
same. -/
theorem PcOk.mono {s t : State δ σ} {pc : Pc} (h : PcOk E s pc)
    (hpolicy : ∀ r ∈ t.policy, r ∈ s.policy) (hby : t.byRoot = s.byRoot) (hsigs : t.sigs = s.sigs)
    (hall : s.pendingAll = true → t.pendingAll = true)
    (hdisk : ∀ r ∈ pc.between, E.sig (t.disk r) = E.sig (s.disk r)) : PcOk E t pc := by
  have hknown (r : Text) : t.known r = s.known r := by rw [State.known, State.known, hby, hsigs]
  have hrest (hs : ∀ r ∈ s.policy, s.pendingAll = true ∨ s.known r = true) :
      ∀ r ∈ t.policy, t.pendingAll = true ∨ t.known r = true := by
    intro r hr
    rw [hknown]
    exact (hs r (hpolicy r hr)).imp_left hall
  cases pc with
  | top => exact hrest h
  | due stale => exact hrest h
  | take => exact hrest h
  | announce => exact hrest h
  | look =>
    intro r hr
    rw [hknown]
    exact h r (hpolicy r hr)
  | check todo stale =>
    intro r hr
    rw [hknown]
    exact h r (hr.imp_left (hpolicy r))
  | start run =>
    intro r hr
    rw [hknown]
    exact (h r (hpolicy r hr)).imp_left hall
  | scan run ids todo results =>
    obtain ⟨hids, hkeys, hresults, hscan⟩ := h
    refine ⟨hids, hkeys, fun x hx => ?_, fun r hr => ?_⟩
    · obtain ⟨d, hd, hsig⟩ := hresults x hx
      exact ⟨d, hd, hsig.trans (hdisk x.1 (List.mem_map_of_mem hx)).symm⟩
    · rw [hknown]
      exact (hscan r (hpolicy r hr)).imp_left hall
  | record run todo publish =>
    obtain ⟨hnodup, htodo, hnoted⟩ := h
    refine ⟨hnodup, fun r hr => ?_, fun r hr => ?_⟩
    · obtain ⟨d, hd, hsig⟩ := htodo r hr
      exact ⟨d, by rw [hby, hd], hsig.trans (hdisk r hr).symm⟩
    · rw [hknown]
      exact (hnoted r (hpolicy r hr)).imp_left hall

theorem Books.request {s : State δ σ} (h : Books E s) (roots : Option (List Text))
    (force fresh : Bool) : Books E (s.request roots force fresh) := by
  unfold State.request
  dsimp only
  split_ifs with hfresh
  · exact h
  · exact h.move h.ids rfl rfl rfl (fun _ => id) (fun _ => rfl)
      (h.place.mono (fun _ => id) rfl rfl (fun hall => by simp [hall]) fun _ _ => rfl)

theorem Books.change {s : State δ σ} (h : Books E s) {r : Text} {d : δ}
    (hsame : r ∈ s.pc.between → E.sig d = E.sig (s.disk r)) :
    Books E { s with disk := Function.update s.disk r d } := by
  refine h.move h.ids rfl rfl rfl (fun _ => id) h.all
    (h.place.mono (fun _ => id) rfl rfl id fun r' hr' => ?_)
  by_cases hr : r' = r
  · subst hr
    dsimp only
    rw [Function.update_self]
    exact hsame hr'
  · dsimp only
    rw [Function.update_of_ne hr]

theorem Books.setPolicy {s : State δ σ} (h : Books E s) {ids : List Text} (hids : ids.Nodup)
    (hcalm : (∀ r ∈ ids, r ∈ s.policy) ∨ s.fullAhead = true ∧ s.pc.checks = false) :
    Books E { s with policy := ids } := by
  refine h.move hids rfl rfl rfl (fun _ => id) h.all ?_
  rcases hcalm with hsub | ⟨hfull, hcheck⟩
  · exact h.place.mono hsub rfl rfl id fun _ _ => rfl
  · have hplace := h.place
    rw [State.fullAhead, Bool.or_eq_true] at hfull
    dsimp only
    generalize hpc : s.pc = pc at hplace hfull hcheck
    cases pc with
    | top => exact fun r _ => .inl (by simpa using hfull)
    | due stale => exact fun r _ => .inl (by simpa using hfull)
    | take => exact fun r _ => .inl (by simpa using hfull)
    | announce => exact fun r _ => .inl (by simpa using hfull)
    | look => simp [Pc.checks] at hcheck
    | check todo stale => simp [Pc.checks] at hcheck
    | start run =>
      intro r _
      rcases hfull with hall | hnone
      · exact .inl hall
      · exact .inr (.inl (Option.isNone_iff_eq_none.1 hnone))
    | scan run scanned todo results =>
      obtain ⟨hnodup, hkeys, hresults, -⟩ := hplace
      exact ⟨hnodup, hkeys, hresults, fun r _ => .inl (by simpa using hfull)⟩
    | record run todo publish =>
      obtain ⟨hnodup, htodo, -⟩ := hplace
      exact ⟨hnodup, htodo, fun r _ => .inl (by simpa using hfull)⟩

theorem Books.queue {s : State δ σ} (h : Books E s) {stale : List Text} (full : Bool)
    (hpc : s.pc = .due stale) : Books E (s.queue stale full) := by
  have hplace := h.place
  have hunnoted : ∀ r ∈ s.pc.unnoted, r ∈ ([] : List Text) := by simp [hpc, Pc.unnoted]
  rw [hpc] at hplace
  unfold State.queue
  split_ifs with hnone hpend
  · exact h.move h.ids rfl rfl rfl hunnoted h.all hplace
  · exact h.move h.ids rfl rfl rfl hunnoted h.all hplace
  · refine h.move h.ids rfl rfl rfl hunnoted (fun _ => rfl) fun r hr => ?_
    exact (hplace r hr).imp_left fun hall => by simp [hall]

theorem Books.take {s : State δ σ} (h : Books E s) (hpc : s.pc = .take) : Books E s.take := by
  have hplace := h.place
  have hunnoted : ∀ r ∈ s.pc.unnoted, r ∈ ([] : List Text) := by simp [hpc, Pc.unnoted]
  rw [hpc] at hplace
  unfold State.take
  split_ifs with hpend hall
  · exact h.move h.ids rfl rfl rfl hunnoted (by simp) fun _ _ => .inr (.inl rfl)
  · refine h.move h.ids rfl rfl rfl hunnoted (by simp) fun r hr => ?_
    exact .inr (.inr ((hplace r hr).resolve_left hall))
  · exact h.move h.ids rfl rfl rfl hunnoted h.all hplace

theorem Books.record {s : State δ σ} (h : Books E s) {run : Run} {r : Text} {todo : List Text}
    {publish : Bool} (hpc : s.pc = .record run (r :: todo) publish) :
    Books E { s with
      sigs := Function.update s.sigs r (some (E.sig (s.disk r)))
      pc := .record run todo publish } := by
  have hplace := h.place
  rw [hpc] at hplace
  obtain ⟨hnodup, htodo, hpolicy⟩ := hplace
  obtain ⟨hr, hnodup⟩ := List.nodup_cons.1 hnodup
  obtain ⟨d, hd, hsig⟩ := htodo r List.mem_cons_self
  refine ⟨h.all, h.ids, h.roots, h.snap, fun r' es old hr' hes hold => ?_, hnodup,
    fun r' hr' => htodo r' (List.mem_cons_of_mem _ hr'), fun r' hr' => ?_⟩
  · by_cases heq : r' = r
    · subst heq
      obtain rfl := Option.some.inj (hd.symm.trans hes)
      dsimp only at hold
      rw [Function.update_self] at hold
      exact ⟨d, rfl, (Option.some.inj hold).symm.trans hsig.symm⟩
    · dsimp only at hold
      rw [Function.update_of_ne heq] at hold
      refine h.paired r' es old (fun hmem => ?_) hes hold
      rw [hpc] at hmem
      exact hr' ((List.mem_cons.1 hmem).resolve_left heq)
  · have hnoted {r'' : Text} (hby : (s.byRoot r'').isSome = true)
        (hcase : r'' = r ∨ (s.sigs r'').isSome = true) :
        ((s.byRoot r'').isSome && (Function.update s.sigs r (some (E.sig (s.disk r)))
          r'').isSome) = true := by
      rw [Bool.and_eq_true]
      refine ⟨hby, ?_⟩
      by_cases heq : r'' = r
      · rw [heq, Function.update_self, Option.isSome_some]
      · rw [Function.update_of_ne heq]
        exact hcase.resolve_left heq
    rcases hpolicy r' hr' with hall | hmem | hknown
    · exact .inl hall
    · rcases List.mem_cons.1 hmem with rfl | hmem
      · exact .inr (.inr (hnoted (by rw [hd, Option.isSome_some]) (.inl rfl)))
      · exact .inr (.inl hmem)
    · rw [State.known, Bool.and_eq_true] at hknown
      exact .inr (.inr (hnoted hknown.1 (.inr hknown.2)))

theorem Books.go {s : State δ σ} (h : Books E s) {ok : Bool}
    (hcalm : s.pc.calls = true → ok = true) : Books E (s.go E ok) := by
  have hplace := h.place
  have hmove {pc : Pc} (hunnoted : s.pc.unnoted = []) (hpc : PcOk E { s with pc := pc } pc) :
      Books E { s with pc := pc } :=
    h.move h.ids rfl rfl rfl (by simp [hunnoted]) h.all hpc
  unfold State.go
  split
  · next hpc =>
    rw [hpc] at hplace
    refine hmove (by rw [hpc]; rfl) ?_
    split_ifs with hpend
    · exact hplace
    · exact fun r hr => (hplace r hr).resolve_left fun hall => hpend (h.all hall)
  · next hpc =>
    rw [hpc] at hplace
    exact hmove (by rw [hpc]; rfl) fun r hr => hplace r (or_self_iff.1 hr)
  · next stale hpc =>
    rw [hpc] at hplace
    exact hmove (by rw [hpc]; rfl) fun r hr => .inr (hplace r (.inl hr))
  · next r todo stale hpc =>
    rw [hpc] at hplace
    exact hmove (by rw [hpc]; rfl) fun r' hr' =>
      hplace r' (hr'.imp_right (List.mem_cons_of_mem r))
  · next hpc => exact h.queue ok hpc
  · next hpc => exact h.take hpc
  · next run hpc =>
    rw [hpc] at hplace
    refine hmove (by rw [hpc]; rfl) ⟨h.ids, rfl, by simp, fun r hr => ?_⟩
    rcases hplace r hr with hall | hnone | hknown
    · exact .inl hall
    · exact .inr ⟨hr, .inl (by simp [Run.wants, hnone])⟩
    · exact .inr ⟨hr, .inr hknown⟩
  · next run ids r todo results hpc =>
    obtain rfl := hcalm (by rw [hpc]; rfl)
    rw [hpc] at hplace
    obtain ⟨hids, hkeys, hresults, hpolicy⟩ := hplace
    refine hmove (by rw [hpc]; rfl) ⟨hids, ?_, fun x hx => ?_, hpolicy⟩
    · rw [List.map_append, List.append_assoc]
      exact hkeys
    · rcases List.mem_append.1 hx with hx | hx
      · exact hresults x hx
      · rw [List.mem_singleton.1 hx]
        exact ⟨s.disk r, rfl, rfl⟩
  · next hpc => exact h.publish hpc
  · next run r todo publish hpc =>
    obtain rfl := hcalm (by rw [hpc]; rfl)
    exact h.record hpc
  · next run publish hpc =>
    rw [hpc] at hplace
    obtain ⟨-, -, hpolicy⟩ := hplace
    refine hmove (by rw [hpc]; rfl) ?_
    have hdone : ∀ r ∈ s.policy, s.pendingAll = true ∨ s.known r = true := fun r hr =>
      (hpolicy r hr).imp_right fun hcase => hcase.resolve_left (by simp)
    split_ifs
    · exact hdone
    · exact hdone
  · next hpc =>
    rw [hpc] at hplace
    exact hmove (by rw [hpc]; rfl) hplace

theorem Books.panic {s : State δ σ} (h : Books E s)
    (howes : ∀ run, s.pc.owes = some run → s.pendingAll = true ∨ ∀ r ∈ s.policy, s.known r = true)
    (hunnoted : s.pc.unnoted = []) : Books E { s with running := false, pc := .top } := by
  refine h.move h.ids rfl rfl rfl (by simp [hunnoted]) h.all fun r hr => ?_
  have hplace := h.place
  have hrun {run : Run} (hpc : s.pc.owes = some run) :
      s.pendingAll = true ∨ s.known r = true :=
    (howes run hpc).imp_right fun hall => hall r hr
  generalize hpc : s.pc = pc at hplace hunnoted
  cases pc with
  | top => exact hplace r hr
  | due stale => exact hplace r hr
  | take => exact hplace r hr
  | announce => exact hplace r hr
  | look => exact .inr (hplace r hr)
  | check todo stale => exact .inr (hplace r (.inl hr))
  | start run => exact hrun (by rw [hpc]; rfl)
  | scan run ids todo results => exact hrun (by rw [hpc]; rfl)
  | record run todo publish =>
    obtain ⟨-, -, hpolicy⟩ := hplace
    obtain rfl : todo = [] := hunnoted
    exact (hpolicy r hr).imp_right fun hcase => hcase.resolve_left (by simp)

theorem Books.step {s t : State δ σ} (h : Books E s) {a : Act δ} (hcalm : Calm E s a)
    (hstep : step E s a = some t) : Books E t := by
  cases a with
  | request roots force fresh =>
    obtain rfl := Option.some.inj hstep
    exact h.request roots force fresh
  | change r d =>
    obtain rfl := Option.some.inj hstep
    exact h.change hcalm
  | setPolicy ids =>
    obtain ⟨hids, heq⟩ := Option.ite_none_right_eq_some.1 hstep
    obtain rfl := Option.some.inj heq
    exact h.setPolicy hids hcalm
  | go ok =>
    obtain rfl := Option.some.inj hstep
    exact h.go hcalm
  | panic =>
    rw [step_panic hstep]
    exact h.panic (fun run hrun => (hcalm.1 run hrun).2) hcalm.2

/-! ## The way back to idle -/

/-- The thread alone comes to rest : guarded calls answer, and no full rescan is due. -/
def Settles (E : Eyes δ σ) (s : State δ σ) : Prop :=
  ∃ n, Idle ((fun t => t.go E t.pc.calls)^[n] s)

theorem Settles.of_go {s : State δ σ} (h : Settles E (s.go E s.pc.calls)) : Settles E s := by
  obtain ⟨n, hn⟩ := h
  exact ⟨n + 1, by rwa [Function.iterate_succ_apply]⟩

theorem settles_record {b : Bool}
    (htop : ∀ t : State δ σ, t.pc = .top → t.pending = b → Settles E t) {run : Run}
    {publish : Bool} : ∀ {todo : List Text} {s : State δ σ}, s.pc = .record run todo publish →
      s.pending = b → Settles E s
  | [], s, hpc, hb => by
    refine .of_go ?_
    rw [State.go, hpc]
    dsimp only
    split_ifs
    · exact .of_go (htop _ rfl hb)
    · exact htop _ rfl hb
  | r :: todo, s, hpc, hb => by
    refine .of_go ?_
    rw [State.go, hpc]
    exact settles_record htop rfl hb

theorem settles_scan {b : Bool}
    (htop : ∀ t : State δ σ, t.pc = .top → t.pending = b → Settles E t) {run : Run}
    {ids : List Text} : ∀ {todo : List Text} {results : Results} {s : State δ σ},
      s.pc = .scan run ids todo results → s.pending = b → Settles E s
  | [], results, s, hpc, hb => by
    refine .of_go ?_
    rw [State.go, hpc]
    exact settles_record htop rfl hb
  | r :: todo, results, s, hpc, hb => by
    refine .of_go ?_
    rw [State.go, hpc]
    exact settles_scan htop rfl hb

theorem settles_start {b : Bool}
    (htop : ∀ t : State δ σ, t.pc = .top → t.pending = b → Settles E t) {run : Run}
    {s : State δ σ} (hpc : s.pc = .start run) (hb : s.pending = b) : Settles E s := by
  refine .of_go ?_
  rw [State.go, hpc]
  exact settles_scan htop rfl hb

theorem settles_take {s : State δ σ} (hpc : s.pc = .take) : Settles E s := by
  have hrest (t : State δ σ) (htop : t.pc = .top) (hpend : t.pending = false) : Settles E t :=
    ⟨0, htop, hpend⟩
  refine .of_go ?_
  rw [State.go, hpc]
  dsimp only
  rw [State.take]
  split_ifs with hpend hall
  · exact settles_start hrest rfl rfl
  · exact settles_start hrest rfl rfl
  · exact hrest _ rfl (by simpa using hpend)

theorem settles_top {s : State δ σ} (hpc : s.pc = .top) : Settles E s := by
  by_cases hpend : s.pending = true
  · refine .of_go ?_
    rw [State.go, hpc]
    exact settles_take (by simp [hpend])
  · exact ⟨0, hpc, by simpa using hpend⟩

theorem settles_check : ∀ {todo stale : List Text} {s : State δ σ}, s.pc = .check todo stale →
    Settles E s
  | [], stale, s, hpc => by
    refine .of_go (.of_go ?_)
    rw [State.go, State.go, hpc]
    dsimp only [State.queue, Pc.calls]
    split_ifs
    · exact settles_top rfl
    · exact settles_take rfl
    · exact settles_take rfl
  | r :: todo, stale, s, hpc => by
    refine .of_go ?_
    rw [State.go, hpc]
    exact settles_check rfl

/-- From wherever the thread is. -/
theorem settles (s : State δ σ) : Settles E s := by
  cases hpc : s.pc with
  | top => exact settles_top hpc
  | look =>
    refine .of_go ?_
    rw [State.go, hpc]
    exact settles_check rfl
  | check todo stale => exact settles_check hpc
  | due stale =>
    refine .of_go ?_
    rw [State.go, hpc]
    dsimp only [State.queue, Pc.calls]
    split_ifs
    · exact settles_top rfl
    · exact settles_take rfl
    · exact settles_take rfl
  | take => exact settles_take hpc
  | start run => exact settles_start (fun t h _ => settles_top h) hpc rfl
  | scan run ids todo results => exact settles_scan (fun t h _ => settles_top h) hpc rfl
  | record run todo publish => exact settles_record (fun t h _ => settles_top h) hpc rfl
  | announce =>
    refine .of_go ?_
    rw [State.go, hpc]
    exact settles_top rfl

/-! ## The promises -/

theorem Promises.idle {s : State δ σ} (h : Promises s) (hidle : Idle s) :
    ∀ n ∈ s.promised, n ∈ s.published := by
  intro n hn
  rcases h.kept n hn with hpub | ⟨hpend, -⟩ | ⟨run, hrun, -⟩
  · exact hpub
  · rw [hidle.2] at hpend
    exact absurd hpend Bool.false_ne_true
  · rw [hidle.1] at hrun
    exact absurd hrun (by simp [Pc.owes])

/-- What a check finds unchanged is listed. -/
theorem Books.unchanged {s : State δ σ} (h : Books E s) {r : Text} {todo stale : List Text}
    (hpc : s.pc = .check (r :: todo) stale) (hsame : s.changed E r true = false) :
    Reflects E s r := by
  have hplace := h.place
  rw [hpc] at hplace
  have hknown := hplace r (.inr List.mem_cons_self)
  rw [State.known, Bool.and_eq_true] at hknown
  obtain ⟨es, hes⟩ := Option.isSome_iff_exists.1 hknown.1
  obtain ⟨old, hold⟩ := Option.isSome_iff_exists.1 hknown.2
  obtain ⟨d, rfl, rfl⟩ := h.paired r es old (by simp [hpc, Pc.unnoted]) hes hold
  refine ⟨d, ?_, h.snap r _ hes⟩
  simpa [State.changed, hold] using hsame

instance (s : State δ σ) (a : Act δ) : Decidable (Calm E s a) :=
  match a with
  | .request _ _ _ => isTrue trivial
  | .change r d => inferInstanceAs (Decidable (r ∈ s.pc.between → E.sig d = E.sig (s.disk r)))
  | .setPolicy ids =>
    inferInstanceAs (Decidable ((∀ r ∈ ids, r ∈ s.policy) ∨ s.fullAhead = true ∧ _))
  | .go ok => inferInstanceAs (Decidable (s.pc.calls = true → ok = true))
  | .panic =>
    decidable_of_iff ((s.pc.owes.all fun run => decide (run.notify = false ∧
      (s.pendingAll = true ∨ ∀ r ∈ s.policy, s.known r = true))) = true ∧ s.pc.unnoted = [])
      (and_congr_left' (by cases s.pc.owes <;> simp))

end

/-! ## Runs -/

/-- A disk is a number : it is the signature, and the number of files. -/
def numbered : Eyes ℕ ℕ where
  sig := id
  noSig := 0
  read := fun r n => (List.range n).map fun k => ⟨r, List.replicate k 'f', "", none⟩
  root_of_read := by
    intro r n e he
    obtain ⟨k, -, rfl⟩ := List.mem_map.1 he
    rfl

/-- One root, with one file. -/
def oneRoot : State ℕ ℕ :=
  .init ["a"] fun _ => 1

/-- The thread goes on. -/
def goes (n : ℕ) : List (Act ℕ) :=
  List.replicate n (.go true)

end Scanner

end EngineConsole
