import EngineConsole.NodeFiles

/-!
# The upload operation of a node

`fs_write_with` of ecnode (`fsops.rs`) as a program over the state of its path (`Disk`) :
the arguments are checked (`writeArgs`), the path is locked, and then, in this order, the
partial file is opened, truncated or found to be as long as the offset says, its bytes are
hashed, the upload is appended to it, and it is renamed. An error before the rename leaves
the partial file where it is, but for the two mismatches, which delete it.

A crash is anywhere before the rename. The `fsync` of the directory after it changes
nothing that is seen here and its errors are ignored, so it is left out.
-/

set_option linter.unusedSectionVars false

namespace EngineConsole.Files

/-! ## Arguments -/

/-- A hex digit of a hash. -/
def isHex (c : Char) : Bool :=
  c.isDigit || 'a' ≤ c && c ≤ 'f' || 'A' ≤ c && c ≤ 'F'

/-- `SHA` : 64 hex digits. -/
def isSha (s : String) : Bool :=
  s.toList.length = 64 && s.toList.all isHex

/-- `hex::encode` -/
def hexEncode (bytes : List UInt8) : String :=
  String.ofList
    (bytes.flatMap fun b => [Nat.digitChar (b.toNat / 16), Nat.digitChar (b.toNat % 16)])

/-- The arguments of fs.write once they are checked. -/
structure WriteArgs where
  parts : List String
  rel : String
  size : ℕ
  offset : ℕ
  /-- The hash the file is to have, in lower case. -/
  want : Option String
  size_le : size ≤ maxFile
  offset_le : offset ≤ size
  fits : partialFits (parts.getLast?.getD "") = true

/-- The name of the file. -/
def WriteArgs.name (a : WriteArgs) : String :=
  a.parts.getLast?.getD ""

theorem toNat_le {s m : ℤ} (h : 0 ≤ s ∧ s ≤ m) : (s.toNat : ℤ) ≤ m := by
  omega

/-- The argument `size`. -/
def sizeArg (v : Value) : Except HandlerError { n : ℕ // n ≤ maxFile } :=
  match pyInt v with
  | some s =>
    if h : 0 ≤ s ∧ s ≤ maxFile then .ok ⟨s.toNat, toNat_le h⟩
    else .error (refusal "bad_args" "size must be the whole file's size in bytes")
  | none => .error (refusal "bad_args" "size must be the whole file's size in bytes")

/-- The argument `sha256`. -/
def shaArg : Value → Except HandlerError (Option String)
  | .null => .ok none
  | .str s =>
    if isSha s then .ok (some s.toLower)
    else .error (refusal "bad_args" "sha256 must be 64 hex digits")
  | _ => .error (.internal "TypeError")

/-- The checks `fs_write_with` makes before it takes its lock. -/
def writeArgs (node : Node) (args : Args) : Except HandlerError WriteArgs :=
  match node.openRoot (arg args "root") true with
  | .error e => .error e
  | .ok () =>
    let rel := asStr (arg args "rel")
    match splitRelForWrite node rel "path" with
    | .error e => .error e
    | .ok parts =>
      if hfits : partialFits (parts.getLast?.getD "") then
        match sizeArg (arg args "size") with
        | .error e => .error e
        | .ok size =>
          match shaArg (arg args "sha256") with
          | .error e => .error e
          | .ok want =>
            match intOrZero args "offset" with
            | .error e => .error e
            | .ok offset =>
              if hoffset : 0 ≤ offset ∧ offset ≤ size.1 then
                .ok { parts, rel := rel.getD "", size := size.1, offset := offset.toNat, want,
                      size_le := size.2, offset_le := by omega, fits := hfits }
              else
                .error (refusal "bad_args"
                  s!"offset {offset} is outside the file (0-{size.1})")
      else .error (refusal "bad_args"
        "the file name is too long to hold an upload in progress (max 243 bytes)")

/-! ## The environment -/

/-- The system calls of an upload; reads and writes are counted. -/
inductive Site where
  | openDir
  | lstatFinal
  | lstatPartial
  | openPartial
  | flock
  | fstat
  | truncate
  | statvfs
  | read (i : ℕ)
  | seek
  | write (i : ℕ)
  | unlink
  | sync
  | rename

/-- How a system call goes. -/
inductive Fate where
  | ok
  | errno (e : ℤ)
  | crash

/-- What `read_upload` returns : a chunk, or an error (a cancellation, a timeout, a violation
of flow control); or the node is stopped while it waits. After the last event, the end. -/
inductive Event where
  | chunk (bytes : List UInt8)
  | failed (e : HandlerError)
  | crash

/-- How the environment answers one call of fs.write. -/
structure Env where
  /-- a refusal of `open_dir` -/
  denied : Option HandlerError
  fate : Site → Fate
  upload : List Event
  /-- blocks that are free, and their size -/
  free : ℕ × ℕ
  /-- whether the request has been cancelled by the `i`-th read of the partial file -/
  cancelled : ℕ → Bool
  /-- how much that read returns at most -/
  readLimit : ℕ → ℕ
  /-- how much of the `i`-th chunk is written before its write fails -/
  written : ℕ → ℕ

/-- The state of a path on a node, and whether an upload to it holds its lock. -/
structure Disk where
  place : Place
  held : Bool

/-- The entries of the path, in a directory that is there. -/
def Disk.slot (d : Disk) : Slot :=
  d.place.getD ⟨.absent, .absent⟩

/-- Put an entry under the name of the partial file. -/
def Disk.setIncomplete (e : Entry) (d : Disk) : Disk :=
  { d with place := some { d.slot with incomplete := e } }

/-! ## System calls -/

/-- `E` : an error of the guarded section. -/
inductive WriteError where
  | handler (e : HandlerError)
  | os (errno : ℤ)

/-- A program of the guarded section. -/
abbrev Upload := Prog Disk WriteError

/-- End with a refusal. -/
def refuse {α : Type} (code message : String) : Upload α :=
  Prog.fail (.handler (refusal code message))

/-- A system call that changes nothing here. -/
def sys (env : Env) (site : Site) : Upload Unit :=
  match env.fate site with
  | .ok => pure ()
  | .errno e => Prog.fail (.os e)
  | .crash => Prog.crash

/-- `lstat_at` -/
def lstatAt (node : Node) (env : Env) (site : Site) (name : String) (f : Slot → Entry) :
    Upload Entry :=
  match env.fate site with
  | .ok => Prog.look fun d => f d.slot
  | .errno e => Prog.fail (.handler (cannotLook node name e))
  | .crash => Prog.crash

/-- Write `chunk` at `pos` of a file. -/
def writeAt (pos : ℕ) (chunk : List UInt8) (d : Disk) : Disk :=
  let bytes := d.slot.incomplete.content
  d.setIncomplete (.file (bytes.take pos ++ chunk ++ bytes.drop (pos + chunk.length)))

/-- `write_all` of the `i`-th chunk. -/
def writeAll (env : Env) (i pos : ℕ) (chunk : List UInt8) : Upload Unit :=
  match env.fate (.write i) with
  | .ok => Prog.change (writeAt pos chunk)
  | .errno e => do
    Prog.change (writeAt pos (chunk.take (env.written i)))
    Prog.fail (.os e)
  | .crash => do
    Prog.change (writeAt pos (chunk.take (env.written i)))
    Prog.crash

/-- `unlink_quiet` of the partial file. -/
def unlinkQuiet (env : Env) : Upload Unit :=
  match env.fate .unlink with
  | .ok => Prog.change (Disk.setIncomplete .absent)
  | .errno _ => pure ()
  | .crash => Prog.crash

/-- `read_at` of the partial file : up to `n` bytes from `pos`. -/
def readAt (env : Env) (i pos n : ℕ) : Upload (List UInt8) := do
  sys env (.read i)
  Prog.look fun d => ((d.slot.incomplete.content.drop pos).take n).take (env.readLimit i)

/-! ## The upload -/

/-- `ENOENT` and the other error numbers the code looks at. -/
def eloop : ℤ := 40
def ewouldblock : ℤ := 11
def eisdir : ℤ := 21
def enospc : ℤ := 28
def edquot : ℤ := 122

/-- `open_dir` of a directory that is created where it is missing. -/
def openDirWrite (node : Node) (env : Env) : Prog Disk HandlerError Unit :=
  match env.denied with
  | some e => Prog.fail e
  | none =>
    match env.fate .openDir with
    | .ok => Prog.change fun d => { d with place := some d.slot }
    | .errno e =>
      if e = enospc then Prog.fail (refusal "no_space" "the disk is full")
      else Prog.fail (refusal "io_error"
        s!"cannot create directories for that path: {node.strerror e}")
    | .crash => Prog.crash

/-- An upload replaces no directory and no special file. -/
def checkFinal (node : Node) (env : Env) (a : WriteArgs) : Upload Unit := do
  match ← lstatAt node env .lstatFinal a.name Slot.final with
  | .dir => refuse "conflict" s!"{relRepr node a.rel} is a directory"
  | .special =>
    refuse "conflict"
      s!"{relRepr node a.rel} is a FIFO, socket or device file; refusing to replace it"
  | _ => pure ()

/-- A special file is not opened. -/
def checkPartial (node : Node) (env : Env) (a : WriteArgs) : Upload Entry := do
  let st ← lstatAt node env .lstatPartial (a.name ++ partialSuffix) Slot.incomplete
  match st with
  | .special => refuse "conflict" "the upload's partial file is not a regular file"
  | st => pure st

/-- `openat` of the partial file, which creates it. -/
def createPartial (env : Env) (st : Entry) : Upload Unit :=
  let symlink := "the upload's partial file is a symlink; refusing"
  match env.fate .openPartial with
  | .crash => Prog.crash
  | .errno e => if e = eloop then refuse "policy_denied" symlink else Prog.fail (.os e)
  | .ok =>
    match st with
    | .link _ => refuse "policy_denied" symlink
    | .dir => Prog.fail (.os eisdir)
    | st => Prog.change (Disk.setIncomplete (.file st.content))

/-- `Flock::lock` -/
def lockPartial (env : Env) : Upload Unit :=
  match env.fate .flock with
  | .crash => Prog.crash
  | .errno e =>
    if e = ewouldblock then refuse "conflict" "another process is writing that file"
    else Prog.fail (.os e)
  | .ok => pure ()

/-- Open the partial file and lock it; its bytes. -/
def openPartial (node : Node) (env : Env) (a : WriteArgs) : Upload (List UInt8) := do
  checkFinal node env a
  let st ← checkPartial node env a
  createPartial env st
  lockPartial env
  sys env .fstat
  pure st.content

/-- Start anew, or where the partial file ends. -/
def startAt (env : Env) (a : WriteArgs) (current : ℕ) : Upload Unit :=
  if a.offset = 0 then do
    sys env .truncate
    Prog.change (Disk.setIncomplete (.file []))
  else if a.offset ≠ current then
    refuse "conflict" (s!"resume offset {a.offset} does not match the partial file " ++
      s!"({current} bytes): resume from {current}, or start at 0")
  else pure ()

/-- Leave `MIN_FREE` on the disk. -/
def checkFree (env : Env) (a : WriteArgs) : Upload Unit := do
  sys env .statvfs
  let free : ℤ := env.free.1 * env.free.2
  let more : ℤ := a.size - a.offset
  if free - more < minFree then
    refuse "no_space" (s!"writing {more} more bytes would leave less than 1 GiB free on that " ++
      s!"disk ({free} bytes free)")
  else pure ()

/-- Feed what the partial file holds to the hasher, which keeps what it was fed. -/
def hashPrefix (env : Env) (offset i pos : ℕ) (hasher : List UInt8) : Upload (List UInt8) :=
  if pos < offset then
    if env.cancelled i then Prog.fail (.handler .cancelled)
    else do
      let data ← readAt env i pos (min (offset - pos) (4 * 2 ^ 20))
      if data.length = 0 then
        refuse "io_error" "the partial file shrank while it was being read"
      else hashPrefix env offset (i + 1) (pos + data.length) (hasher ++ data)
  else pure hasher
termination_by offset - pos

/-- Make the hasher, where one is needed. -/
def startHasher (env : Env) (a : WriteArgs) : Upload (Option (List UInt8)) :=
  if a.want.isSome || a.offset = 0 then some <$> hashPrefix env a.offset 0 0 []
  else pure none

/-- What the reading of an upload comes to : the bytes of the file, whether there were too
many, and the hasher. -/
structure Received where
  total : ℕ
  overflow : Bool
  hasher : Option (List UInt8)

/-- Append the upload. -/
def receive (env : Env) (a : WriteArgs) :
    List Event → ℕ → ℕ → Option (List UInt8) → Upload Received
  | [], _, total, hasher => pure ⟨total, false, hasher⟩
  | .crash :: _, _, _, _ => Prog.crash
  | .failed e :: _, _, _, _ => Prog.fail (.handler e)
  | .chunk chunk :: events, i, total, hasher =>
    if chunk.isEmpty then pure ⟨total, false, hasher⟩
    else if a.size < total + chunk.length then pure ⟨total, true, hasher⟩
    else do
      writeAll env i total chunk
      receive env a events (i + 1) (total + chunk.length) (hasher.map (· ++ chunk))

/-- The result of fs.write. -/
structure Written where
  size : ℕ
  sha256 : Option String

/-- Check what was received and put it under its name. -/
def finish (node : Node) (env : Env) (a : WriteArgs) (r : Received) : Upload Written :=
  if r.overflow || r.total ≠ a.size then do
    unlinkQuiet env
    let got := if r.overflow then "more than" else s!"{r.total} of"
    refuse "size_mismatch"
      s!"received {got} {a.size} bytes for {relRepr node a.rel}; the partial file was deleted"
  else do
    sys env .sync
    let digest := r.hasher.map fun fed => hexEncode (node.sha256 fed)
    if a.want.isSome && digest ≠ a.want then
      unlinkQuiet env
      refuse "hash_mismatch"
        s!"sha256 of {relRepr node a.rel} does not match; the partial file was deleted"
    else
      sys env .rename
      Prog.change fun d => { d with place := some ⟨d.slot.incomplete, .absent⟩ }
      pure ⟨a.size, digest⟩

/-- The guarded section of `fs_write_with`. -/
def upload (node : Node) (env : Env) (a : WriteArgs) : Upload Written := do
  let bytes ← openPartial node env a
  startAt env a bytes.length
  checkFree env a
  let hasher ← startHasher env a
  sys env .seek
  let r ← receive env a env.upload 0 a.offset hasher
  finish node env a r

/-- How the errors of the guarded section are answered. -/
def WriteError.answer (node : Node) (rel : String) : WriteError → HandlerError
  | .handler e => e
  | .os e =>
    if e = enospc || e = edquot then refusal "no_space"
      "the disk filled up during the upload; the partial file was kept for a resume"
    else refusal "io_error" s!"writing {relRepr node rel} failed: {node.strerror e}"

/-- `fs_write_with` -/
def fsWriteWith (node : Node) (env : Env) (args : Args) : Prog Disk HandlerError Written :=
  match writeArgs node args with
  | .error e => Prog.fail e
  | .ok a => do
    if ← Prog.look Disk.held then
      Prog.fail (refusal "conflict" "another upload to that file is in progress")
    else
      Prog.change fun d => { d with held := true }
      let body : Prog Disk HandlerError Written := do
        openDirWrite node env
        (upload node env a).mapError (WriteError.answer node a.rel)
      body.finallyChange fun d => { d with held := false }

end EngineConsole.Files
