import Mathlib

/-!
# Connections with transactions

A connection to a database, as SQL has it : outside a transaction each statement is committed by
itself; inside one, what statements do is seen by the connection only, until `COMMIT` makes it
the database or `ROLLBACK` drops it. A statement that fails changes nothing. A `COMMIT` that
fails may leave the transaction open.
-/

set_option linter.unusedSectionVars false

namespace EngineConsole

namespace Sql

variable {D : Type*}

/-- A statement that is executed : what it does, and whether it fails instead. -/
structure Stmt (D : Type*) where
  effect : D → D
  fails : Bool

/-- How a `COMMIT` ends. -/
inductive Commit where
  | done
  /-- it fails, and the transaction is still open -/
  | leftOpen
  /-- it fails, and the transaction is rolled back -/
  | dropped
deriving DecidableEq

/-- A connection : what is committed, and what a transaction that is open has made of it. -/
@[ext]
structure Conn (D : Type*) where
  db : D
  work : Option D

/-- Autocommit mode : no transaction is open. -/
def Conn.autocommit (c : Conn D) : Bool :=
  c.work.isNone

/-- What a statement makes of the data. -/
def Stmt.apply (s : Stmt D) (d : D) : D :=
  if s.fails then d else s.effect d

/-- What statements make of the data, one after another. -/
def applyAll (ss : List (Stmt D)) (d : D) : D :=
  ss.foldl (fun d s => s.apply d) d

/-- A statement on a connection. -/
def Conn.exec (s : Stmt D) (c : Conn D) : Conn D :=
  match c.work with
  | none => ⟨s.apply c.db, none⟩
  | some w => ⟨c.db, some (s.apply w)⟩

/-- `BEGIN`, and whether it went through. -/
def Conn.begin (fails : Bool) (c : Conn D) : Bool × Conn D :=
  if fails || !c.autocommit then (false, c) else (true, ⟨c.db, some c.db⟩)

/-- `COMMIT`, and whether it went through. -/
def Conn.commit (how : Commit) (c : Conn D) : Bool × Conn D :=
  match c.work with
  | none => (false, c)
  | some w =>
    match how with
    | .done => (true, ⟨w, none⟩)
    | .leftOpen => (false, c)
    | .dropped => (false, ⟨c.db, none⟩)

/-- `ROLLBACK` -/
def Conn.rollback (c : Conn D) : Conn D :=
  ⟨c.db, none⟩

/-- Statements on a connection, up to one that fails : whether none did. -/
def Conn.execAll : List (Stmt D) → Conn D → Bool × Conn D
  | [], c => (true, c)
  | s :: ss, c => if s.fails then (false, c) else Conn.execAll ss (c.exec s)

/-! ## What statements do -/

variable {s : Stmt D} {ss : List (Stmt D)} {d w : D} {c : Conn D}

@[simp] theorem exec_autocommit : (⟨d, none⟩ : Conn D).exec s = ⟨s.apply d, none⟩ := rfl

@[simp] theorem exec_open : (⟨d, some w⟩ : Conn D).exec s = ⟨d, some (s.apply w)⟩ := rfl

@[simp] theorem begin_autocommit :
    (⟨d, none⟩ : Conn D).begin false = (true, ⟨d, some d⟩) := rfl

@[simp] theorem begin_fails : c.begin true = (false, c) := rfl

@[simp] theorem commit_done : (⟨d, some w⟩ : Conn D).commit .done = (true, ⟨w, none⟩) := rfl

@[simp] theorem commit_leftOpen :
    (⟨d, some w⟩ : Conn D).commit .leftOpen = (false, ⟨d, some w⟩) := rfl

@[simp] theorem commit_dropped :
    (⟨d, some w⟩ : Conn D).commit .dropped = (false, ⟨d, none⟩) := rfl

@[simp] theorem rollback_db : c.rollback.db = c.db := rfl

@[simp] theorem rollback_work : c.rollback.work = none := rfl

/-- In a transaction, statements leave what is committed. -/
theorem foldl_exec_open : ∀ (ss : List (Stmt D)) (w : D),
    ss.foldl (fun c s => Conn.exec s c) ⟨d, some w⟩ = ⟨d, some (applyAll ss w)⟩
  | [], w => rfl
  | s :: ss, w => by
    rw [List.foldl_cons, exec_open, foldl_exec_open ss]
    rfl

theorem execAll_open : ∀ (ss : List (Stmt D)) (w : D), ∃ w',
    Conn.execAll ss (⟨d, some w⟩ : Conn D) = (ss.all fun s => !s.fails, ⟨d, some w'⟩) ∧
      ((ss.all fun s => !s.fails) → w' = applyAll ss w)
  | [], w => ⟨w, rfl, fun _ => rfl⟩
  | s :: ss, w => by
    rw [Conn.execAll]
    cases hs : s.fails with
    | true => exact ⟨w, by simp [hs], fun h => by simp [hs] at h⟩
    | false =>
      obtain ⟨w', heq, hw'⟩ := execAll_open ss (s.apply w)
      refine ⟨w', ?_, fun h => ?_⟩
      · simp [hs, heq]
      · simp only [List.all_cons, hs, Bool.not_false, Bool.true_and] at h
        exact hw' h

theorem execAll_autocommit : ∀ (ss : List (Stmt D)) (d : D), (ss.all fun s => !s.fails) →
    Conn.execAll ss (⟨d, none⟩ : Conn D) = (true, ⟨applyAll ss d, none⟩)
  | [], d, _ => rfl
  | s :: ss, d, h => by
    simp only [List.all_cons, Bool.and_eq_true, Bool.not_eq_true'] at h
    rw [Conn.execAll, h.1, exec_autocommit]
    exact execAll_autocommit ss _ (by simpa using h.2)

end Sql

end EngineConsole
