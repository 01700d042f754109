import EngineConsole.CrashLogic
import EngineConsole.JsonText
import EngineConsole.Proto

/-!
# Files of a node : fs.stat and fs.write

Uploads of ecnode (`fsops.rs`, with `split_rel` of `confine.rs`). An upload is written to
`<name>.incomplete` and renamed to its name when its size, and its hash where one was given,
are right.

The state is that of one path (`Place`) : its directory, if there is one, with the entry of
the file and that of its partial file. A system call is answered by the environment (`Env`) :
it goes well, fails with an error number, or the node is stopped there. What the policy says
of a root, how a text is quoted in an error and the hash function are fields of `Node`.
-/

set_option linter.unusedSectionVars false

namespace EngineConsole.Files

/-! ## Arguments -/

/-- A number of a JSON text : an integer, or a float, which is zero or not. -/
inductive Number where
  | int (n : ℤ)
  | float (zero : Bool)

/-- A JSON value of a request. -/
abbrev Value := Json String Number

/-- The arguments of a request. -/
abbrev Args := List (String × Value)

/-- `arg` -/
def arg (args : Args) (k : String) : Value :=
  ((args.find? fun f => f.1 = k).map Prod.snd).getD .null

/-- `Value::as_str` -/
def asStr : Value → Option String
  | .str s => some s
  | _ => none

/-- `truthy` -/
def truthy : Value → Bool
  | .null => false
  | .bool b => b
  | .num (.int n) => n ≠ 0
  | .num (.float zero) => !zero
  | .str s => s ≠ ""
  | .arr vs => !vs.isEmpty
  | .obj fs => !fs.isEmpty

/-- The largest `i64`. -/
def maxI64 : ℤ := 2 ^ 63 - 1

/-- `py_int` : an integer that is none of `i64` counts as the largest. -/
def pyInt : Value → Option ℤ
  | .num (.int n) => if -2 ^ 63 ≤ n && n ≤ maxI64 then some n else some maxI64
  | .bool b => some (if b then 1 else 0)
  | _ => none

/-! ## Errors -/

/-- `OpError` -/
structure OpError where
  code : String
  message : String

/-- `HandlerError` -/
inductive HandlerError where
  | op (e : OpError)
  | cancelled
  | internal (kind : String)

/-- A refusal by its code and its text. -/
def refusal (code message : String) : HandlerError :=
  .op ⟨code, message⟩

/-- `int_or_zero` -/
def intOrZero (args : Args) (k : String) : Except HandlerError ℤ :=
  let v := arg args k
  if !truthy v then .ok 0
  else
    match pyInt v with
    | some n => .ok n
    | none => .error (.internal "TypeError")

/-- What the code takes from outside : the policy, how texts are shown, and the hash. -/
structure Node where
  /-- `open_root` -/
  openRoot : Value → Bool → Except HandlerError Unit
  /-- `is_write_protected_name` -/
  writeProtected : String → Bool
  /-- `repr_take` -/
  reprTake : String → ℕ → String
  /-- `strerror` -/
  strerror : ℤ → String
  /-- SHA-256 -/
  sha256 : List UInt8 → List UInt8

/-! ## Names -/

/-- `PARTIAL` -/
def partialSuffix : String := ".incomplete"

/-- `MIN_FREE` : what an upload leaves free on the disk. -/
def minFree : ℤ := 2 ^ 30

/-- `MAX_FILE` -/
def maxFile : ℤ := 2 ^ 50

/-- `rel_repr` -/
def relRepr (node : Node) (rel : String) : String :=
  node.reprTake rel 300

/-- `BAD_CHARS` : control characters and the backslash. -/
def badChar (c : Char) : Bool :=
  c.toNat ≤ 0x1f || c.toNat = 0x7f || c = '\\'

/-- `split_rel` : the segments of a relative path. -/
def splitRel (node : Node) (rel : Option String) (what : String) :
    Except HandlerError (List String) :=
  match rel with
  | none | some "" =>
    .error (refusal "bad_args"
      s!"the {what} is empty; name a file or directory inside the model root")
  | some rel =>
    let shown := node.reprTake rel 200
    if rel.toList.head? = some '/' then
      .error (refusal "bad_args"
        s!"the {what} {shown} must be relative to the model root, not absolute")
    else if rel.toList.any badChar then
      .error (refusal "bad_args" s!"the {what} contains a backslash or a control character")
    else
      let parts := (rel.toList.splitOn '/').map String.ofList
      match parts.find? fun p => p = "" || p = "." || p = ".." || 255 < p.utf8ByteSize with
      | none => .ok parts
      | some p =>
        if p = "" || p = "." || p = ".." then
          .error (refusal "bad_args" s!"the {what} {shown} has an empty, '.' or '..' segment")
        else
          .error (refusal "bad_args" s!"the {what} has a segment longer than 255 bytes")

/-- `split_rel_for_write` -/
def splitRelForWrite (node : Node) (rel : Option String) (what : String) :
    Except HandlerError (List String) :=
  match splitRel node rel what with
  | .error e => .error e
  | .ok parts =>
    if parts.any node.writeProtected then
      .error (refusal "policy_denied" ("refusing to write a file or directory whose name " ++
        "looks like a key, a credential, a login script or git's settings"))
    else .ok parts

/-- A name that leaves room for the suffix of its partial file. -/
def partialFits (name : String) : Bool :=
  name.utf8ByteSize + partialSuffix.utf8ByteSize ≤ 255

/-- `name_ok_for_partial` -/
def nameOkForPartial (name : String) : Except HandlerError Unit :=
  if partialFits name then .ok ()
  else .error (refusal "bad_args"
    "the file name is too long to hold an upload in progress (max 243 bytes)")

/-! ## Places -/

/-- What `stat` says of the file a link leads to. -/
structure Stat where
  isDir : Bool
  /-- of a regular file -/
  size : Option ℕ

/-- What a name in a directory stands for. A link leads to a file inside the root, or not. -/
inductive Entry where
  | absent
  | file (bytes : List UInt8)
  | dir
  | link (target : Option Stat)
  | special

/-- The two entries of a path. -/
structure Slot where
  final : Entry
  incomplete : Entry

/-- A path in a root : nothing where its directory does not exist. -/
abbrev Place := Option Slot

/-! ## fs.stat -/

/-- An item of the result of fs.stat. -/
structure StatItem where
  rel : Value
  isThere : Bool
  isDir : Bool
  size : Option ℕ
  partialSize : ℕ

/-- What may be wrong with a directory that is there. -/
inductive DirFault where
  | outside
  | errno (e : ℤ)

/-- How the environment answers fs.stat on each path. -/
structure StatEnv where
  openDir : List String → Option DirFault
  lstatFinal : List String → Option ℤ
  lstatPartial : List String → Option ℤ

/-- `stat` of an entry, through a link. -/
def Entry.stat : Entry → Option Stat
  | .absent => none
  | .file bytes => some ⟨false, some bytes.length⟩
  | .dir => some ⟨true, none⟩
  | .link target => target
  | .special => some ⟨false, none⟩

/-- The bytes of a regular file, none of anything else. -/
def Entry.content : Entry → List UInt8
  | .file bytes => bytes
  | _ => []

/-- The error of an `lstat`. -/
def cannotLook (node : Node) (name : String) (e : ℤ) : HandlerError :=
  refusal "io_error" s!"cannot look at {node.reprTake name 200}: {node.strerror e}"

/-- `open_dir` of a directory that is not to be created. -/
def openDirRead (node : Node) (env : StatEnv) (tree : List String → Place)
    (parts : List String) : Except HandlerError Slot :=
  let joined := node.reprTake (String.intercalate "/" parts.dropLast) 300
  match env.openDir parts with
  | some .outside =>
    .error (refusal "policy_denied" "that path resolves to somewhere outside the model root")
  | some (.errno e) => .error (refusal "io_error" s!"cannot open {joined}: {node.strerror e}")
  | none =>
    match tree parts with
    | some slot => .ok slot
    | none => .error (refusal "not_found" s!"directory {joined} does not exist in the model root")

/-- The item of a path whose directory is open. -/
def slotItem (node : Node) (env : StatEnv) (rel : Value) (parts : List String) (slot : Slot) :
    Except HandlerError StatItem :=
  let name := parts.getLast?.getD ""
  match env.lstatFinal parts with
  | some e => .error (cannotLook node name e)
  | none =>
    let item : StatItem :=
      match slot.final.stat with
      | none => ⟨rel, false, false, none, 0⟩
      | some st => ⟨rel, true, st.isDir, st.size, 0⟩
    if partialFits name then
      match env.lstatPartial parts with
      | some e => .error (cannotLook node (name ++ partialSuffix) e)
      | none => .ok { item with partialSize := slot.incomplete.content.length }
    else .ok item

/-- One path of fs.stat. -/
def statItem (node : Node) (env : StatEnv) (tree : List String → Place) (rel : Value) :
    Except HandlerError StatItem :=
  match splitRel node (asStr rel) "path" with
  | .error e => .error e
  | .ok parts =>
    match openDirRead node env tree parts with
    | .ok slot => slotItem node env rel parts slot
    | .error (.op e) =>
      if e.code = "not_found" || e.code = "bad_args" then .ok ⟨rel, false, false, none, 0⟩
      else .error (.op e)
    | .error e => .error e

/-- `fs_stat` -/
def fsStat (node : Node) (env : StatEnv) (tree : List String → Place) (args : Args) :
    Except HandlerError (List StatItem) :=
  match node.openRoot (arg args "root") false with
  | .error e => .error e
  | .ok () =>
    let paths : List Value :=
      match arg args "paths" with
      | .arr vs => vs.take 256
      | _ => []
    paths.mapM (statItem node env tree)

end EngineConsole.Files
