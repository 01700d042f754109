import EngineConsole.Router

/-!
# The first administrator's key

At each start of the hub `ensure_bootstrap_key` (`services/settings.rs`) sees to it that there is
an administrator : where the database has no key it inserts one, and then writes its secret to a
file. Any of the steps may fail, or be the last before a crash, so that the next start finds what
this one left.

The row comes first and is all the next start looks at. The hub can be entered after a start that
goes through just when no start before it ended between the two (`ensure_rightful_iff`).
-/

set_option linter.unusedSectionVars false

namespace EngineConsole

namespace Bootstrap

open Web

/-! ## A start -/

/-- A row of `api_keys`. -/
structure KeyRow where
  id : Text
  name : Text
  role : Text
  shown : Text
  hash : Text
  revoked : Bool
deriving DecidableEq

/-- What is kept from one start to the next : the keys, and what the bootstrap key file holds. -/
structure Disk where
  keys : List KeyRow
  file : Option Text
deriving DecidableEq

/-- A new data directory. -/
def Disk.fresh : Disk := ⟨[], none⟩

/-- What is drawn for a key : its id and its token. -/
structure Mint where
  id : Text
  token : Text

/-- The secret of a key. -/
def Mint.secret (mint : Mint) : Text :=
  ascii "ec_" ++ mint.token

/-- What the file holds when it is whole. -/
def Mint.line (mint : Mint) : Text :=
  mint.secret ++ ['\n']

/-- The steps. Of the line, so much may have been written. -/
inductive Step where
  | count
  | token
  | insert
  | mkdir
  | create
  | check
  | chmod
  | write (k : ℕ)
deriving DecidableEq

/-- A start, and the step that fails or that a crash ends, if one does. -/
structure Start where
  mint : Mint
  stop : Option Step

/-- How a start leaves `ensure_bootstrap_key` : with no need for a key, with one in the file, or
by an error or a crash. -/
inductive Outcome where
  | settled
  | wrote
  | failed
deriving DecidableEq

variable (keyHash : Text → Text)

/-- The row of `create_key`. -/
def Mint.row (mint : Mint) (name role : Text) : KeyRow :=
  ⟨mint.id, name, role, mint.secret.take 8, keyHash mint.secret, false⟩

/-- `create_key`, up to where it stops. -/
def createKey (start : Start) (name role : Text) (keys : List KeyRow) : Option (List KeyRow) :=
  if start.stop = some .token ∨ start.stop = some .insert then none
  else some (keys ++ [start.mint.row keyHash name role])

/-- `ensure_bootstrap_key`, up to where it stops. -/
def ensureBootstrapKey (start : Start) (d : Disk) : Outcome × Disk :=
  if start.stop = some .count then (.failed, d)
  else if d.keys ≠ [] then (.settled, d)
  else
    match createKey keyHash start "bootstrap-admin" "admin" d.keys with
    | none => (.failed, d)
    | some keys =>
      match start.stop with
      | some .mkdir => (.failed, ⟨keys, d.file⟩)
      | some .create => (.failed, ⟨keys, d.file⟩)
      | some .check => (.failed, ⟨keys, some []⟩)
      | some .chmod => (.failed, ⟨keys, some []⟩)
      | some (.write k) => (.failed, ⟨keys, some (start.mint.line.take k)⟩)
      | _ => (.wrote, ⟨keys, some start.mint.line⟩)

/-- What is left after starts. -/
def after (d : Disk) (history : List Start) : Disk :=
  history.foldl (fun d start => (ensureBootstrapKey keyHash start d).2) d

/-- No start has finished. -/
def Unfinished (d : Disk) : List Start → Prop
  | [] => True
  | start :: history =>
    (ensureBootstrapKey keyHash start d).1 = .failed ∧
      Unfinished (ensureBootstrapKey keyHash start d).2 history

/-! ## Who can enter -/

/-- The file holds the secret of an administrator's key that is not revoked. -/
def Rightful (d : Disk) : Prop :=
  ∃ row ∈ d.keys, row.role = ascii "admin" ∧ row.revoked = false ∧
    ∃ secret content, row.hash = keyHash secret ∧ d.file = some content ∧ secret <+: content

/-- A start does not end between the row and the whole secret. -/
def Start.Safe (start : Start) : Prop :=
  match start.stop with
  | some (.write k) => start.mint.secret.length ≤ k
  | some .count => True
  | some .token => True
  | some .insert => True
  | none => True
  | _ => False

instance (start : Start) : Decidable start.Safe :=
  match h : start.stop with
  | some (.write k) =>
    decidable_of_iff (start.mint.secret.length ≤ k) (by simp [Start.Safe, h])
  | some .count => isTrue (by simp [Start.Safe, h])
  | some .token => isTrue (by simp [Start.Safe, h])
  | some .insert => isTrue (by simp [Start.Safe, h])
  | none => isTrue (by simp [Start.Safe, h])
  | some .mkdir => isFalse (by simp [Start.Safe, h])
  | some .create => isFalse (by simp [Start.Safe, h])
  | some .check => isFalse (by simp [Start.Safe, h])
  | some .chmod => isFalse (by simp [Start.Safe, h])

variable {keyHash} {start : Start} {d : Disk} {mint : Mint}

/-- Where there is a key, a start changes nothing. -/
theorem ensure_of_key (h : d.keys ≠ []) : ensureBootstrapKey keyHash start d =
    (if start.stop = some .count then .failed else .settled, d) := by
  rw [ensureBootstrapKey]
  split_ifs
  · rfl
  · rfl

/-- A start that goes through, where there is no key. -/
theorem ensure_whole (h : d.keys = []) : (ensureBootstrapKey keyHash ⟨mint, none⟩ d).2 =
    ⟨[mint.row keyHash (ascii "bootstrap-admin") (ascii "admin")], some mint.line⟩ := by
  rw [ensureBootstrapKey, if_neg (by simp), if_neg (not_not.2 h), createKey, if_neg (by simp), h]
  rfl

/-- After starts that failed where there is a key, nothing is changed, and they failed in time. -/
theorem after_of_key (h : d.keys ≠ []) : ∀ {history : List Start},
    Unfinished keyHash d history → after keyHash d history = d ∧ ∀ start ∈ history, start.Safe
  | [], _ => ⟨rfl, fun _ h => by cases h⟩
  | start :: history, hun => by
    rw [Unfinished, ensure_of_key h] at hun
    obtain ⟨hfail, hrest⟩ := hun
    have hstop : start.stop = some .count := by
      by_contra hstop
      simp [hstop] at hfail
    obtain ⟨hafter, hsafe⟩ := after_of_key h hrest
    refine ⟨?_, fun s hs => ?_⟩
    · rw [after, List.foldl_cons, ensure_of_key h]
      exact hafter
    · rcases List.mem_cons.1 hs with rfl | hs
      · simp [Start.Safe, hstop]
      · exact hsafe s hs

theorem secret_ne_nil (mint : Mint) : 0 < mint.secret.length := by
  rw [Mint.secret, List.length_append]
  have : 0 < (ascii "ec_").length := by decide
  omega

/-- With one key, the secret is that of its mint. -/
theorem rightful_row (hinj : Function.Injective keyHash) {name : Text} {file : Option Text} :
    Rightful keyHash ⟨[mint.row keyHash name (ascii "admin")], file⟩ ↔
      ∃ content, file = some content ∧ mint.secret <+: content := by
  constructor
  · rintro ⟨row, hrow, -, -, secret, content, hhash, hfile, hin⟩
    obtain rfl := List.mem_singleton.1 hrow
    obtain rfl : mint.secret = secret := hinj hhash
    exact ⟨content, hfile, hin⟩
  · rintro ⟨content, hfile, hin⟩
    exact ⟨_, List.mem_singleton_self _, rfl, rfl, mint.secret, content, rfl, hfile, hin⟩

/-- What a start that stops leaves of a new directory : no key, or one that is right just when
the start was safe. -/
theorem ensure_fresh (hinj : Function.Injective keyHash)
    (hfail : (ensureBootstrapKey keyHash start .fresh).1 = .failed) :
    ((ensureBootstrapKey keyHash start .fresh).2 = .fresh ∧ start.Safe) ∨
      ((ensureBootstrapKey keyHash start .fresh).2.keys ≠ [] ∧
        (Rightful keyHash (ensureBootstrapKey keyHash start .fresh).2 ↔ start.Safe)) := by
  obtain ⟨mint, stop⟩ := start
  have hno (file : Option Text) (h : ∀ content, file = some content → content = []) :
      ¬Rightful keyHash ⟨[mint.row keyHash (ascii "bootstrap-admin") (ascii "admin")], file⟩ := by
    rw [rightful_row hinj]
    rintro ⟨content, hfile, hin⟩
    have := hin.length_le
    have hpos := secret_ne_nil mint
    rw [h content hfile, List.length_nil] at this
    omega
  cases stop with
  | none => simp [ensureBootstrapKey, createKey, Disk.fresh] at hfail
  | some stop =>
    cases stop with
    | count => exact .inl ⟨rfl, trivial⟩
    | token => exact .inl ⟨rfl, trivial⟩
    | insert => exact .inl ⟨rfl, trivial⟩
    | mkdir => exact .inr ⟨List.cons_ne_nil _ _, iff_of_false (hno none (by simp)) id⟩
    | create => exact .inr ⟨List.cons_ne_nil _ _, iff_of_false (hno none (by simp)) id⟩
    | check => exact .inr ⟨List.cons_ne_nil _ _, iff_of_false (hno (some []) (by simp)) id⟩
    | chmod => exact .inr ⟨List.cons_ne_nil _ _, iff_of_false (hno (some []) (by simp)) id⟩
    | write k =>
      refine .inr ⟨List.cons_ne_nil _ _, (rightful_row hinj).trans ?_⟩
      constructor
      · rintro ⟨content, hfile, hin⟩
        have hlen := hin.length_le
        rw [← Option.some.inj hfile, List.length_take] at hlen
        exact hlen.trans (min_le_left _ _)
      · intro hk
        have hk' : mint.secret.length ≤ k := hk
        refine ⟨_, rfl, ?_⟩
        rw [Mint.line, List.take_append, List.take_of_length_le hk']
        exact List.prefix_append _ _

/-- After starts that did not finish, one that goes through lets the administrator in just when
none of them ended between the row and the whole secret. -/
theorem ensure_rightful_iff (hinj : Function.Injective keyHash) {history : List Start}
    (h : Unfinished keyHash .fresh history) (mint : Mint) :
    Rightful keyHash (ensureBootstrapKey keyHash ⟨mint, none⟩ (after keyHash .fresh history)).2 ↔
      ∀ start ∈ history, start.Safe := by
  induction history with
  | nil =>
    refine iff_of_true ?_ (fun _ h => by cases h)
    rw [after, List.foldl_nil, ensure_whole rfl, rightful_row hinj]
    exact ⟨_, rfl, List.prefix_append _ _⟩
  | cons start history ih =>
    obtain ⟨hfail, hrest⟩ := h
    rw [List.forall_mem_cons, after, List.foldl_cons, ← after]
    rcases ensure_fresh hinj hfail with ⟨heq, hsafe⟩ | ⟨hkey, hright⟩
    · rw [heq] at hrest ⊢
      rw [ih hrest, and_iff_right hsafe]
    · obtain ⟨hafter, hsafe⟩ := after_of_key hkey hrest
      rw [hafter, ensure_of_key hkey, and_iff_left hsafe]
      exact hright

/-- A start whose count fails, and one that goes through. -/
theorem second_start_rightful :
    Rightful id (ensureBootstrapKey id ⟨⟨"key_2", "b"⟩, none⟩
      (after id .fresh [⟨⟨"key_1", "a"⟩, some .count⟩])).2 :=
  (ensure_rightful_iff Function.injective_id
    (show Unfinished id .fresh [⟨⟨"key_1", "a"⟩, some .count⟩] from ⟨rfl, trivial⟩)
    ⟨"key_2", "b"⟩).2 (by decide)

/-- Where the directory cannot be made after the key is inserted, no later start writes a key. -/
theorem locked_out : Unfinished id .fresh [⟨⟨"key_1", "a"⟩, some .mkdir⟩] ∧
    (ensureBootstrapKey id ⟨⟨"key_2", "b"⟩, none⟩
      (after id .fresh [⟨⟨"key_1", "a"⟩, some .mkdir⟩])).1 = .settled ∧
    ¬Rightful id (ensureBootstrapKey id ⟨⟨"key_2", "b"⟩, none⟩
      (after id .fresh [⟨⟨"key_1", "a"⟩, some .mkdir⟩])).2 := by
  refine ⟨⟨rfl, trivial⟩, rfl, ?_⟩
  rintro ⟨row, -, -, -, secret, content, -, hfile, -⟩
  cases hfile

end Bootstrap

end EngineConsole
