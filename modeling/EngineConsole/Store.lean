import EngineConsole.Transactions
import EngineConsole.Router

/-!
# The hub's store

The calls of `services/store.rs` that change the database : `migrate`, `execute`, `executemany` and
`transaction`, on the one connection of the store. Each statement may fail, and the closure of a
transaction may panic, which poisons the lock of the connection; the next call takes the
connection back, and rolls back what is open.

A call that goes through has committed what its statements did, and one that fails has changed
nothing but for the migrations before the one that failed (`all_or_nothing`).
-/

set_option linter.unusedSectionVars false

namespace EngineConsole

namespace Db

open Web Sql

variable {D : Type*}

/-! ## Calls -/

/-- A store : its connection, and whether a panic has poisoned the lock. -/
structure Store (D : Type*) where
  conn : Conn D
  poisoned : Bool

/-- `conn` -/
def Store.take (s : Store D) : Conn D :=
  if s.poisoned && !s.conn.autocommit then s.conn.rollback else s.conn

/-- A migration as one call runs it : its `BEGIN`, its statements, the row that records it, and
its `COMMIT`. -/
structure Migration (D : Type*) where
  name : Text
  beginFails : Bool
  script : List (Stmt D)
  record : Stmt D
  commit : Commit

/-- How the closure of a transaction ends. -/
inductive Finish where
  | ok
  | err
  | panic
deriving DecidableEq

/-- A call, with what each of its statements does. -/
inductive Call (D : Type*) where
  | migrate (create : Stmt D) (selectFails : Bool) (readable : Text → Bool)
      (migrations : List (Migration D))
  | execute (s : Stmt D)
  | executemany (prepareFails : Bool) (rows : List (Stmt D))
  | transaction (beginFails : Bool) (steps : List (Stmt D)) (finish : Finish) (commit : Commit)

/-- How a call ends. -/
inductive Result where
  | ok
  | err
  | panicked
deriving DecidableEq

/-- The migrations that are not yet recorded, one after another. -/
def migrateFrom (done : List Text) : List (Migration D) → Conn D → Result × Conn D
  | [], c => (.ok, c)
  | m :: ms, c =>
    if m.name ∈ done then migrateFrom done ms c
    else
      let began := c.begin m.beginFails
      if !began.1 then (.err, began.2)
      else
        let ran := Conn.execAll (m.script ++ [m.record]) began.2
        if ran.1 then
          let com := ran.2.commit m.commit
          if com.1 then migrateFrom done ms com.2 else (.err, com.2)
        else (.err, ran.2.rollback)

variable (names : D → List Text)

/-- `migrate_now` -/
def migrateNow (create : Stmt D) (selectFails : Bool) (readable : Text → Bool)
    (migrations : List (Migration D)) (c : Conn D) : Result × Conn D :=
  if create.fails then (.err, c)
  else
    let c := c.exec create
    if selectFails then (.err, c)
    else migrateFrom ((names (c.work.getD c.db)).filter readable) migrations c

/-- `transaction` -/
def transaction (beginFails : Bool) (steps : List (Stmt D)) (finish : Finish) (commit : Commit)
    (c : Conn D) : Result × Conn D :=
  let began := c.begin beginFails
  if !began.1 then (.err, began.2)
  else
    let c := steps.foldl (fun c s => c.exec s) began.2
    match finish with
    | .ok =>
      let com := c.commit commit
      (if com.1 then .ok else .err, com.2)
    | .err => (.err, c.rollback)
    | .panic => (.panicked, c)

/-- A call on the store. -/
def Store.run (call : Call D) (s : Store D) : Result × Store D :=
  let c := s.take
  let r :=
    match call with
    | .migrate create selectFails readable migrations =>
      migrateNow names create selectFails readable migrations c
    | .execute stmt => (if stmt.fails then .err else .ok, c.exec stmt)
    | .executemany prepareFails rows =>
      if prepareFails then (.err, c)
      else
        let ran := Conn.execAll rows c
        (if ran.1 then .ok else .err, ran.2)
    | .transaction beginFails steps finish commit => transaction beginFails steps finish commit c
  (r.1, ⟨r.2, r.1 = .panicked⟩)

/-- Calls, one after another. -/
def Store.runAll (calls : List (Call D)) (s : Store D) : Store D :=
  calls.foldl (fun s call => (s.run names call).2) s

/-! ## What a call may change -/

/-- What a migration makes of the data. -/
def Migration.apply (m : Migration D) (d : D) : D :=
  applyAll (m.script ++ [m.record]) d

/-- A migration goes through. -/
def Migration.through (m : Migration D) : Bool :=
  !m.beginFails && ((m.script ++ [m.record]).all fun s => !s.fails) && m.commit == .done

/-- The migrations that are to be run. -/
def pending (done : List Text) (migrations : List (Migration D)) : List (Migration D) :=
  migrations.filter fun m => m.name ∉ done

/-- What migrations make of the data. -/
def migrated (ms : List (Migration D)) (d : D) : D :=
  ms.foldl (fun d m => m.apply d) d

/-- What all statements of a call make of the data. -/
def Call.changes (call : Call D) (d : D) : D :=
  match call with
  | .migrate create _ readable migrations =>
    migrated (pending ((names (create.apply d)).filter readable) migrations) (create.apply d)
  | .execute stmt => stmt.apply d
  | .executemany _ rows => applyAll rows d
  | .transaction _ steps _ _ => applyAll steps d

/-- What stays of a call that fails : of `migrate`, the migrations before the one that fails. -/
def Call.kept (call : Call D) (d : D) : D :=
  match call with
  | .migrate create selectFails readable migrations =>
    if create.fails || selectFails then create.apply d
    else
      migrated ((pending ((names (create.apply d)).filter readable) migrations).takeWhile
        Migration.through) (create.apply d)
  | _ => d

/-- No `COMMIT` fails and leaves its transaction open, and of many rows none fails but the
first. -/
def Call.Fair : Call D → Prop
  | .migrate _ _ _ migrations => ∀ m ∈ migrations, m.commit ≠ .leftOpen
  | .execute _ => True
  | .executemany _ rows => (∀ s ∈ rows.head?, s.fails) ∨ ∀ s ∈ rows, s.fails = false
  | .transaction _ _ _ commit => commit ≠ .leftOpen

/-- A call starts outside any transaction; it has committed its changes, or has failed and keeps
what it may keep, or a panic has ended it and nothing of it will stay. -/
structure AllOrNothing (call : Call D) (s : Store D) : Prop where
  apart : s.take = ⟨s.conn.db, none⟩
  ok : (s.run names call).1 = .ok →
    (s.run names call).2 = ⟨⟨call.changes names s.conn.db, none⟩, false⟩
  err : (s.run names call).1 = .err →
    (s.run names call).2 = ⟨⟨call.kept names s.conn.db, none⟩, false⟩
  panicked : (s.run names call).1 = .panicked →
    (s.run names call).2.conn.db = s.conn.db ∧ (s.run names call).2.poisoned

/-- A store that is between two calls. -/
def Store.Ready (s : Store D) : Prop :=
  s.take = ⟨s.conn.db, none⟩

/-! ## Each call -/

variable {names}

theorem migrateFrom_spec (done : List Text) : ∀ (ms : List (Migration D)) (d : D),
    (∀ m ∈ ms, m.commit ≠ .leftOpen) →
    migrateFrom done ms ⟨d, none⟩ =
      (if (pending done ms).all Migration.through then .ok else .err,
        ⟨migrated ((pending done ms).takeWhile Migration.through) d, none⟩)
  | [], d, _ => rfl
  | m :: ms, d, h => by
    obtain ⟨hm, hms⟩ := List.forall_mem_cons.1 h
    have ih := fun d => migrateFrom_spec done ms d hms
    rw [migrateFrom]
    by_cases hdone : m.name ∈ done
    · have hp : pending done (m :: ms) = pending done ms := by simp [pending, hdone]
      rw [if_pos hdone, ih, hp]
    · have hp : pending done (m :: ms) = m :: pending done ms := by simp [pending, hdone]
      rw [if_neg hdone, hp]
      cases hbegin : m.beginFails with
      | true =>
        have hno : m.through = false := by simp [Migration.through, hbegin]
        simp [hno, migrated]
      | false =>
        obtain ⟨w, hexec, hw⟩ := execAll_open (d := d) (m.script ++ [m.record]) d
        rw [begin_autocommit]
        dsimp only
        rw [hexec]
        cases hall : (m.script ++ [m.record]).all fun s => !s.fails with
        | false =>
          have hno : m.through = false := by
            rw [Migration.through, hall, Bool.and_false, Bool.false_and]
          simp [hno, migrated, Conn.rollback]
        | true =>
          rw [hw hall]
          cases hcommit : m.commit with
          | done =>
            have hyes : m.through = true := by
              rw [Migration.through, hbegin, hall, hcommit]
              rfl
            have hmig : migrated (m :: (pending done ms).takeWhile Migration.through) d =
                migrated ((pending done ms).takeWhile Migration.through) (m.apply d) := rfl
            simp only [Bool.not_true, Bool.false_eq_true, if_false, if_true, commit_done]
            rw [List.all_cons, hyes, Bool.true_and, List.takeWhile_cons, if_pos hyes, hmig, ← ih]
            rfl
          | leftOpen => exact absurd hcommit hm
          | dropped =>
            have hno : m.through = false := by
              rw [Migration.through, hcommit]
              simp
            simp [hno, migrated]

theorem transaction_spec (beginFails : Bool) (steps : List (Stmt D)) (finish : Finish)
    {commit : Commit} (h : commit ≠ .leftOpen) (d : D) :
    let r := transaction beginFails steps finish commit ⟨d, none⟩
    (r.1 = .ok → r.2 = ⟨applyAll steps d, none⟩) ∧ (r.1 = .err → r.2 = ⟨d, none⟩) ∧
      r.2.db = if r.1 = .ok then applyAll steps d else d := by
  unfold transaction
  cases beginFails with
  | true => simp
  | false =>
    rw [begin_autocommit]
    dsimp only
    rw [foldl_exec_open]
    cases finish with
    | ok =>
      cases commit with
      | done => simp
      | leftOpen => exact absurd rfl h
      | dropped => simp
    | err => simp [Conn.rollback]
    | panic => simp

theorem migrateNow_spec (create : Stmt D) (selectFails : Bool) (readable : Text → Bool)
    {ms : List (Migration D)} (h : ∀ m ∈ ms, m.commit ≠ .leftOpen) (d : D) :
    let r := migrateNow names create selectFails readable ms ⟨d, none⟩
    let call := Call.migrate create selectFails readable ms
    (r.1 = .ok → r.2 = ⟨call.changes names d, none⟩) ∧
      (r.1 = .err → r.2 = ⟨call.kept names d, none⟩) ∧ r.1 ≠ .panicked := by
  unfold migrateNow
  cases hc : create.fails with
  | true => simp [Call.kept, Stmt.apply, hc]
  | false =>
    cases hsel : selectFails with
    | true => simp [Call.kept, hc]
    | false =>
      have hspec := migrateFrom_spec ((names (create.apply d)).filter readable) ms
        (create.apply d) h
      simp only [Bool.false_eq_true, if_false, exec_autocommit, Option.getD_none, hspec]
      cases hall : (pending ((names (create.apply d)).filter readable) ms).all
          Migration.through with
      | true =>
        have hwhole := List.takeWhile_eq_self_iff.2 (List.all_eq_true.1 hall)
        simp [Call.changes, hwhole]
      | false => simp [Call.kept, hc]

theorem executemany_spec {rows : List (Stmt D)}
    (h : (∀ s ∈ rows.head?, s.fails) ∨ ∀ s ∈ rows, s.fails = false) (d : D) :
    let r := Conn.execAll rows ⟨d, none⟩
    (r.1 = true → r.2 = ⟨applyAll rows d, none⟩) ∧ (r.1 = false → r.2 = ⟨d, none⟩) := by
  dsimp only
  rcases h with h | h
  · cases rows with
    | nil => exact ⟨fun _ => rfl, fun _ => rfl⟩
    | cons s rows =>
      have hs : s.fails = true := h s rfl
      simp [Conn.execAll, hs]
  · have hall : rows.all fun s => !s.fails := by simpa using h
    rw [execAll_autocommit rows d hall]
    simp

/-- A call that is fair, on a store between two calls. -/
theorem allOrNothing (call : Call D) (h : call.Fair) {s : Store D} (hs : s.Ready) :
    AllOrNothing names call s ∧ (s.run names call).2.Ready := by
  have hrun (r : Result × Conn D) (hpanic : r.1 = .panicked → r.2.db = s.conn.db)
      (hok : r.1 = .ok → r.2 = ⟨call.changes names s.conn.db, none⟩)
      (herr : r.1 = .err → r.2 = ⟨call.kept names s.conn.db, none⟩)
      (heq : s.run names call = (r.1, ⟨r.2, r.1 = .panicked⟩)) :
      AllOrNothing names call s ∧ (s.run names call).2.Ready := by
    rw [heq]
    obtain ⟨res, c⟩ := r
    cases res with
    | ok =>
      obtain rfl := hok rfl
      exact ⟨⟨hs, fun _ => heq ▸ rfl, fun h => by simp [heq] at h, fun h => by simp [heq] at h⟩, rfl⟩
    | err =>
      obtain rfl := herr rfl
      exact ⟨⟨hs, fun h => by simp [heq] at h, fun _ => heq ▸ rfl, fun h => by simp [heq] at h⟩, rfl⟩
    | panicked =>
      refine ⟨⟨hs, fun h => by simp [heq] at h, fun h => by simp [heq] at h,
        fun _ => heq ▸ ⟨hpanic rfl, rfl⟩⟩, ?_⟩
      cases c with
      | mk db work =>
        cases work with
        | none => rfl
        | some w => rfl
  have htake : s.take = ⟨s.conn.db, none⟩ := hs
  cases call with
  | migrate create selectFails readable migrations =>
    obtain ⟨hok, herr, hno⟩ := migrateNow_spec create selectFails readable h s.conn.db
    refine hrun (migrateNow names create selectFails readable migrations s.take) ?_ ?_ ?_ rfl
    · rw [htake]
      exact fun hp => absurd hp hno
    · rw [htake]
      exact hok
    · rw [htake]
      exact herr
  | execute stmt =>
    refine hrun (if stmt.fails then .err else .ok, s.take.exec stmt) ?_ ?_ ?_ rfl
    all_goals
      rw [htake]
      cases hf : stmt.fails with
      | true => simp [Stmt.apply, hf, Call.kept]
      | false => simp [Stmt.apply, hf, Call.changes]
  | executemany prepareFails rows =>
    obtain ⟨hok, herr⟩ := executemany_spec h s.conn.db
    cases prepareFails with
    | true =>
      refine hrun (.err, s.take) (fun hp => by cases hp) (fun hp => by cases hp) ?_ rfl
      exact fun _ => htake
    | false =>
      refine hrun (if (Conn.execAll rows s.take).1 then .ok else .err,
        (Conn.execAll rows s.take).2) ?_ ?_ ?_ rfl
      all_goals rw [htake]
      · intro hp
        split at hp
        · cases hp
        · cases hp
      · intro hp
        exact hok (by_contra fun hno => by simp [hno] at hp)
      · intro hp
        exact herr (by_contra fun hno => by simp [hno] at hp)
  | transaction beginFails steps finish commit =>
    obtain ⟨hok, herr, hdb⟩ := transaction_spec beginFails steps finish h s.conn.db
    refine hrun (transaction beginFails steps finish commit s.take) ?_ ?_ ?_ rfl
    · intro hp
      rw [htake] at hp ⊢
      rw [hdb, hp]
      rfl
    · rw [htake]
      exact hok
    · rw [htake]
      exact herr

/-! ## Runs -/

/-- In a run of fair calls, each call is all or nothing. -/
theorem all_or_nothing {calls : List (Call D)} {s : Store D} (hs : s.Ready)
    (h : ∀ call ∈ calls, call.Fair) {pre post : List (Call D)} {call : Call D}
    (hcalls : calls = pre ++ call :: post) :
    AllOrNothing names call (s.runAll names pre) := by
  have hready : ∀ (pre : List (Call D)) (s : Store D), s.Ready → (∀ call ∈ pre, call.Fair) →
      (s.runAll names pre).Ready := by
    intro pre
    induction pre with
    | nil => exact fun s hs _ => hs
    | cons call pre ih =>
      intro s hs hpre
      obtain ⟨hcall, hpre⟩ := List.forall_mem_cons.1 hpre
      exact ih _ (allOrNothing call hcall hs).2 hpre
  subst hcalls
  have hfair := List.forall_mem_append.1 h
  exact (allOrNothing call (List.forall_mem_cons.1 hfair.2).1 (hready pre s hs hfair.1)).1

/-! ## Examples -/

/-- A store of numbers, empty. -/
def numbers : Store (List ℕ) :=
  ⟨⟨[], none⟩, false⟩

def put (n : ℕ) : Stmt (List ℕ) :=
  ⟨fun d => d ++ [n], false⟩

def failing : Stmt (List ℕ) :=
  ⟨id, true⟩

/-- A migration that puts a number. -/
def migration (n : ℕ) (record : Stmt (List ℕ)) : Migration (List ℕ) :=
  ⟨Nat.toDigits 10 n, false, [put n], record, .done⟩

/-- A closure that panics, and a call after it. -/
theorem after_panic : AllOrNothing (fun _ => []) (.execute (put 2))
    (Store.runAll (fun _ => []) [.transaction false [put 1] .panic .done] numbers) := by
  have hfair : ∀ call ∈ [Call.transaction false [put 1] .panic .done, .execute (put 2)],
      call.Fair := by simp [Call.Fair]
  have hready : numbers.Ready := rfl
  exact all_or_nothing hready hfair rfl

/-- A migration stays when the next one fails, and a panic leaves its transaction open until the
next call; a `COMMIT` that fails leaves its own to the next call, and rows before one that fails
stay. -/
theorem not_all_or_nothing :
    (numbers.run (fun _ => []) (.migrate ⟨id, false⟩ false (fun _ => true)
        [migration 1 ⟨id, false⟩, migration 2 failing]) = (.err, ⟨⟨[1], none⟩, false⟩)) ∧
      (numbers.run (fun _ => []) (.transaction false [put 1] .panic .done)).2.conn.autocommit =
        false ∧
      (numbers.runAll (fun _ => [])
        [.transaction false [put 1] .ok .leftOpen, .execute (put 2)]).conn = ⟨[], some [1, 2]⟩ ∧
      numbers.run (fun _ => []) (.executemany false [put 1, failing]) =
        (.err, ⟨⟨[1], none⟩, false⟩) :=
  ⟨rfl, rfl, rfl, rfl⟩

end Db

end EngineConsole
