import EngineConsole.FileTree
import EngineConsole.FsWrite

/-!
# The file operations of a node, on its whole tree

`fs.write`, `fs.put_small`, `fs.symlink` and `fs.delete` of ecnode (`fsops.rs`, `confine.rs`)
as programs over the file tree of the machine : the directory of a path is opened component by
component and created where it is missing, a link on the way is followed only inside the root,
and what is written goes under a temporary name first.

A directory that is open is its physical path. Any system call may fail. `fs.write` runs the
upload of `FsWrite` on the two entries of its path. The paths that are changed are noted
(`Host.touched`).
-/

set_option linter.unusedSectionVars false

namespace EngineConsole

namespace Prog

variable {σ ε ε' α : Type}

/-- Go on after an error. -/
def rescue (m : Prog σ ε α) (f : ε → Prog σ ε' α) : Prog σ ε' α := fun s =>
  match m s with
  | (.done a, t) => (.done a, t)
  | (.failed e, t) => f e t
  | (.crashed, t) => (.crashed, t)

end Prog

namespace Files

open FileTree

/-! ## The machine -/

/-- The file tree, and the paths that were changed. -/
structure Host where
  tree : Tree
  touched : List Path

/-- A node, the root that is named, and the policy. -/
structure Setup where
  node : Node
  /-- the realpath of the root -/
  root : Path
  /-- `repr` of its id -/
  rootRepr : String
  /-- where the policy is -/
  policyAt : String
  allowDelete : Bool
  /-- `repr` of the ids of the other roots, and their paths -/
  others : List (String × Path)
  /-- `os_error_name` -/
  osErrorName : ℤ → String

/-- The system calls on paths. -/
inductive Sys where
  | opendir
  | mkdir
  | reopen
  | openReal
  | lstat
  | create
  | write
  | sync
  | rename
  | unlink
  | rmdir
  | readdir
deriving DecidableEq

/-- How the surroundings answer one operation. -/
structure Around where
  /-- the error of a system call -/
  fault : Sys → Path → Option ℤ
  /-- how much is written before a write fails -/
  written : ℕ
  /-- `token_hex` -/
  token : String
  /-- `running_mounts` -/
  mounts : Except HandlerError (List Path)
  /-- the surroundings of an upload -/
  upload : Env

/-- An operation. -/
abbrev Op := Prog Host HandlerError

/-- The guarded section of an operation. -/
abbrev Guarded := Prog Host WriteError

def enoent : ℤ := 2
def eexist : ℤ := 17
def enotdir : ℤ := 20
def enotempty : ℤ := 39

/-- What is at a path. -/
def at? {ε : Type} (p : Path) : Prog Host ε (Option Inode) :=
  Prog.look fun h => h.tree.get p

/-- Change a path. -/
def mutate {ε : Type} (p : Path) (f : Tree → Tree) : Prog Host ε Unit :=
  Prog.change fun h => ⟨f h.tree, h.touched ++ [p]⟩

/-- A system call that changes nothing here. -/
def trySys (a : Around) (sys : Sys) (p : Path) : Guarded Unit :=
  match a.fault sys p with
  | some e => Prog.fail (.os e)
  | none => pure ()

/-- The error of opening a directory without following a link. -/
def dirError (a : Around) (sys : Sys) (t : Tree) (p : Path) : Option ℤ :=
  (a.fault sys p).or <|
    match t.get p with
    | some .dir => none
    | none => some enoent
    | some (.link _) => some eloop
    | some _ => some enotdir

/-! ## Directories -/

/-- `inside` -/
def inside (child root : Path) : Bool :=
  root.isPrefixOf child

/-- `write_protected_inside` -/
def Setup.protectedInside (s : Setup) (p : Path) : Bool :=
  (if inside p s.root then p.drop s.root.length else p).any s.node.writeProtected

/-- `WRITE_PROTECTED` -/
def writeProtectedText : String :=
  "refusing to write a file or directory whose name looks like a key, a credential, a login " ++
    "script or git's settings"

/-- `mkdirat`, which may find the directory there. -/
def mkdirAt (a : Around) (p : Path) : Guarded Unit :=
  match a.fault .mkdir p with
  | some e => if e = eexist then pure () else Prog.fail (.os e)
  | none => do
    match ← at? p with
    | none => mutate p (Tree.put p .dir)
    | some _ => pure ()

/-- One component of `open_dir`. -/
def openStep (s : Setup) (a : Around) (d : Path) (c : String) : Guarded Path := do
  let p := d ++ [c]
  let t ← Prog.look Host.tree
  match dirError a .opendir t p with
  | none => pure p
  | some e =>
    if e = enoent then do
      mkdirAt a p
      let t ← Prog.look Host.tree
      match dirError a .reopen t p with
      | none => pure p
      | some e => Prog.fail (.os e)
    else if e = eloop ∨ e = enotdir then
      -- a symlinked directory: allowed only when it resolves inside the root
      let real := realpath t p
      if inside real s.root ∧ t.get real = some .dir then
        match dirError a .openReal t real with
        | none => pure real
        | some e => Prog.fail (.os e)
      else
        Prog.fail (.handler (refusal "policy_denied"
          (s!"{s.node.reprTake c 200} is a link to somewhere outside the model root, or not a " ++
            "directory")))
    else Prog.fail (.os e)

/-- The errors of a component. -/
def stepError (s : Setup) : WriteError → HandlerError
  | .handler e => e
  | .os e =>
    if e = enospc then refusal "no_space" "the disk is full"
    else refusal "io_error" s!"cannot create directories for that path: {s.node.strerror e}"

/-- `check_fd` and `check_write_dir` -/
def checkDir (s : Setup) (d : Path) : Op Unit :=
  if !inside d s.root then
    Prog.fail (refusal "policy_denied" "that path leads outside the model root")
  else if s.protectedInside d then Prog.fail (refusal "policy_denied" writeProtectedText)
  else pure ()

/-- The components of `open_dir`. -/
def openSteps (s : Setup) (a : Around) : Path → List String → Op Path
  | d, [] => pure d
  | d, c :: cs => do
    let d ← (openStep s a d c).mapError (stepError s)
    checkDir s d
    openSteps s a d cs

/-- `open_dir`, of a directory that is created where it is missing. -/
def openDir (s : Setup) (a : Around) (parts : List String) : Op Path := do
  let t ← Prog.look Host.tree
  match dirError a .openReal t s.root with
  | some e => Prog.fail (.internal (s.osErrorName e))
  | none => openSteps s a s.root parts

/-- `open_dir`, of a directory that is there. -/
def openExisting (s : Setup) (a : Around) (parts : List String) : Op Path := do
  let joined := s.node.reprTake (String.intercalate "/" parts) 300
  let t ← Prog.look Host.tree
  let real := realpath t (s.root ++ parts)
  if !inside real s.root then
    Prog.fail (refusal "policy_denied" "that path resolves to somewhere outside the model root")
  else
    match dirError a .opendir t real with
    | none => pure real
    | some e =>
      if e = enoent then
        Prog.fail (refusal "not_found" s!"directory {joined} does not exist in the model root")
      else if e = enotdir then Prog.fail (refusal "bad_args" s!"{joined} is not a directory")
      else Prog.fail (refusal "io_error" s!"cannot open {joined}: {s.node.strerror e}")

/-! ## Small files and links -/

/-- The name of a temporary entry. -/
def tmpName (a : Around) (name : String) : String :=
  "." ++ String.ofList (name.toList.take 200) ++ ".ecnode-" ++ a.token

/-- `unlink_quiet` -/
def unlinkTmp (a : Around) (p : Path) : Op Unit :=
  match a.fault .unlink p with
  | some _ => pure ()
  | none => do
    match ← at? p with
    | none | some .dir => pure ()
    | some _ => mutate p (Tree.erase p)

/-- `renameat` -/
def renameAt (a : Around) (p q : Path) : Guarded Unit := do
  trySys a .rename q
  match ← at? p with
  | none => Prog.fail (.os enoent)
  | some n => Prog.change fun h => ⟨(h.tree.erase p).put q n, h.touched ++ [p, q]⟩

/-- `replace_into` : make a temporary entry and rename it. -/
def replaceInto (s : Setup) (a : Around) (d : Path) (name : String)
    (make : Path → Guarded Unit) : Op Unit := do
  let shown := s.node.reprTake name 200
  match a.fault .lstat (d ++ [name]) with
  | some e => Prog.fail (cannotLook s.node name e)
  | none =>
    match ← at? (d ++ [name]) with
    | some .dir => Prog.fail (refusal "conflict" s!"{shown} is a directory")
    | some .special =>
      Prog.fail (refusal "conflict"
        s!"{shown} is a FIFO, socket or device file; refusing to replace it")
    | _ =>
      let tmp := d ++ [tmpName a name]
      let body : Guarded Unit := do
        make tmp
        renameAt a tmp (d ++ [name])
      body.rescue fun e =>
        match e with
        | .handler e => Prog.fail e
        | .os e => do
          unlinkTmp a tmp
          if e = enospc ∨ e = edquot then Prog.fail (refusal "no_space" "the disk is full")
          else Prog.fail (refusal "io_error" s!"cannot write {shown}: {s.node.strerror e}")

/-- A new entry. -/
def createAt (a : Around) (p : Path) (n : Inode) : Guarded Unit := do
  trySys a .create p
  match ← at? p with
  | some _ => Prog.fail (.os eexist)
  | none => mutate p (Tree.put p n)

/-- A new file with these bytes. -/
def makeFile (a : Around) (content : List UInt8) (p : Path) : Guarded Unit := do
  createAt a p (.file [])
  match a.fault .write p with
  | some e => do
    mutate p (Tree.put p (.file (content.take a.written)))
    Prog.fail (.os e)
  | none => do
    mutate p (Tree.put p (.file content))
    trySys a .sync p

/-- The segments of the target of a link : a relative path with `..` only at its start. -/
def linkTarget (v : Value) : Except HandlerError (List String) :=
  let bad : HandlerError :=
    refusal "bad_args" "the link target must be a relative path like ../../blobs/<hash>"
  match v with
  | .str text =>
    let segs := (text.toList.splitOn '/').map String.ofList
    if text = "" ∨ text.toList.head? = some '/' ∨ text.toList.any badChar ∨
        (segs.any fun c => c = "" || c = ".") then .error bad
    else if (segs.dropWhile (· = "..")).contains ".." then
      .error (refusal "policy_denied"
        "the link target may use '..' only at its start, like ../../blobs/<hash>")
    else .ok segs
  | _ => .error bad

/-- `fs_symlink`, once its directory is open. -/
def symlinkIn (s : Setup) (a : Around) (segs : List String) (name : String) (d : Path) :
    Op Unit := do
  let real ← Prog.look fun h => realpath h.tree (d ++ segs)
  if !inside real s.root then
    Prog.fail (refusal "policy_denied" "the link target leads outside the model root")
  else replaceInto s a d name fun tmp => createAt a tmp (.link segs)

/-- `fs_symlink` -/
def fsSymlink (s : Setup) (a : Around) (args : Args) : Op Unit := do
  Prog.ofExcept (s.node.openRoot (arg args "root") true)
  let parts ← Prog.ofExcept (splitRelForWrite s.node (asStr (arg args "link")) "link")
  let segs ← Prog.ofExcept (linkTarget (arg args "target"))
  let d ← openDir s a parts.dropLast
  symlinkIn s a segs (parts.getLast?.getD "") d

/-- `b64_value` -/
def b64Value (c : Char) : Option ℕ :=
  if 'A' ≤ c ∧ c ≤ 'Z' then some (c.toNat - 'A'.toNat)
  else if 'a' ≤ c ∧ c ≤ 'z' then some (c.toNat - 'a'.toNat + 26)
  else if '0' ≤ c ∧ c ≤ '9' then some (c.toNat - '0'.toNat + 52)
  else if c = '+' then some 62
  else if c = '/' then some 63
  else none

/-- The rest of `b64decode_strict`, at a place in a group of four, with the bits that are left
over and the padding so far. -/
def b64Rest : ℕ → ℕ → ℕ → Bool → List Char → Option (List UInt8)
  | quad, _, _, _, [] => if quad = 0 then some [] else none
  | quad, left, pads, started, c :: cs =>
    if c = '=' then
      if quad = 0 then none
      else if 2 ≤ quad then
        if 4 ≤ quad + (pads + 1) then if cs = [] then some [] else none
        else b64Rest quad left (pads + 1) true cs
      else b64Rest quad left pads true cs
    else
      (b64Value c).bind fun v =>
        if started then none
        else
          match quad with
          | 0 => b64Rest 1 v 0 started cs
          | 1 => (b64Rest 2 (v % 16) 0 started cs).map (UInt8.ofNat (left * 4 + v / 16) :: ·)
          | 2 => (b64Rest 3 (v % 4) 0 started cs).map (UInt8.ofNat (left * 16 + v / 4) :: ·)
          | _ => (b64Rest 0 0 0 started cs).map (UInt8.ofNat (left * 64 + v) :: ·)

/-- `b64decode_strict` -/
def b64decodeStrict (text : String) : Option (List UInt8) :=
  b64Rest 0 0 0 false text.toList

/-- `PUT_SMALL_MAX` -/
def putSmallMax : ℕ := 96 * 1024

/-- The argument `content_b64`. -/
def smallContent (v : Value) : Except HandlerError (List UInt8) :=
  match v with
  | .str text =>
    match b64decodeStrict text with
    | none => .error (refusal "bad_args" "content_b64 is not valid base64")
    | some content =>
      if putSmallMax < content.length then
        .error (refusal "bad_args"
          s!"fs.put_small takes at most {putSmallMax} bytes; use fs.write")
      else .ok content
  | _ => .error (.internal "TypeError")

/-- `fs_put_small` -/
def fsPutSmall (s : Setup) (a : Around) (args : Args) : Op Unit := do
  Prog.ofExcept (s.node.openRoot (arg args "root") true)
  let parts ← Prog.ofExcept (splitRelForWrite s.node (asStr (arg args "rel")) "path")
  let content ← Prog.ofExcept (smallContent (arg args "content_b64"))
  let d ← openDir s a parts.dropLast
  replaceInto s a d (parts.getLast?.getD "") (makeFile a content)

/-! ## Uploads -/

/-- What an upload sees of a name. -/
def entryOf : Option Inode → Entry
  | none => .absent
  | some .dir => .dir
  | some (.file bytes) => .file bytes
  | some (.link _) => .link none
  | some .special => .special

/-- Put back what an upload left : it makes and removes files only. -/
def putEntry (p : Path) (e : Entry) (h : Host) : Host :=
  match e with
  | .absent => if h.tree.get p = none then h else ⟨h.tree.erase p, h.touched ++ [p]⟩
  | .file bytes =>
    if h.tree.get p = some (.file bytes) then h
    else ⟨h.tree.put p (.file bytes), h.touched ++ [p]⟩
  | _ => h

/-- Run a program of an upload on the entries of a name. -/
def onSlot {ε α : Type} (d : Path) (name : String) (m : Prog Disk ε α) : Prog Host ε α := fun h =>
  let final := d ++ [name]
  let incomplete := d ++ [name ++ partialSuffix]
  let r := m ⟨some ⟨entryOf (h.tree.get final), entryOf (h.tree.get incomplete)⟩, true⟩
  (r.1, putEntry incomplete r.2.slot.incomplete (putEntry final r.2.slot.final h))

/-- `fs_write_with`, one call at a time. -/
def fsWrite (s : Setup) (a : Around) (args : Args) : Op Unit := do
  let w ← Prog.ofExcept (writeArgs s.node args)
  let d ← openDir s a w.parts.dropLast
  let body : Op Written :=
    onSlot d w.name ((Files.upload s.node a.upload w).mapError (WriteError.answer s.node w.rel))
  let _ ← body

/-! ## Deletion -/

/-- `MAX_DELETE_DEPTH` -/
def maxDeleteDepth : ℕ := 64

/-- `unlinkat`, of a directory or of something else. -/
def unlinkAt (a : Around) (sys : Sys) (p : Path) : Guarded Unit := do
  trySys a sys p
  let t ← Prog.look Host.tree
  if sys = .rmdir ∧ t.names p ≠ [] then Prog.fail (.os enotempty) else mutate p (Tree.erase p)

/-- One name of `empty_dir_at`. -/
def emptyName (s : Setup) (a : Around) (emptyDir : Path → Guarded Unit) (p : Path) :
    Guarded Unit := do
  match a.fault .lstat p with
  | some e => Prog.fail (.handler (cannotLook s.node (p.getLast?.getD "") e))
  | none =>
    match ← at? p with
    | none => pure ()
    | some .dir => do
      -- O_NOFOLLOW: a directory swapped for a link fails here
      trySys a .opendir p
      emptyDir p
      unlinkAt a .rmdir p
    | some _ => unlinkAt a .unlink p

/-- `empty_dir_at`, with how many directories deep it may still go. -/
def emptyDir (s : Setup) (a : Around) : ℕ → Path → Guarded Unit
  | 0, _ =>
    Prog.fail (.handler (refusal "bad_args"
      (s!"the tree is more than {maxDeleteDepth} directories deep; the delete stopped " ++
        "part-way (what was removed stays removed)")))
  | n + 1, p => do
    trySys a .readdir p
    let names ← Prog.look fun h => h.tree.names p
    names.foldlM (fun _ c => emptyName s a (emptyDir s a n) (p ++ [c])) ()

/-- The removal of `fs_delete`. -/
def removeAt (s : Setup) (a : Around) (p : Path) (isDir : Bool) : Guarded Unit :=
  if isDir then do
    emptyDir s a (maxDeleteDepth + 1) p
    unlinkAt a .rmdir p
  else unlinkAt a .unlink p

/-- `fs_delete`, once what it names is found. -/
def deleteFound (s : Setup) (a : Around) (rel : String) (real : Path) (isDir : Bool) : Op Unit := do
  let t ← Prog.look Host.tree
  let shown := relRepr s.node rel
  if !inside real s.root ∨ real = s.root then
    Prog.fail (refusal "policy_denied"
      "refusing to delete the model root itself or anything outside it")
  else
    match s.others.find? fun o => inside (realpath t o.2) real with
    | some o =>
      Prog.fail (refusal "policy_denied"
        s!"refusing to delete {shown}: it holds model root {o.1}")
    | none => do
      let mounts ← Prog.ofExcept a.mounts
      if mounts.any fun m => inside (realpath t m) real || inside m real then
        Prog.fail (refusal "in_use"
          s!"a running container mounts {shown}; stop it before deleting")
      else
        (removeAt s a real isDir).mapError fun e =>
          match e with
          | .handler e => e
          | .os e => refusal "io_error" s!"deleting {shown} failed part-way: {s.node.strerror e}"

/-- `fs_delete` -/
def fsDelete (s : Setup) (a : Around) (args : Args) : Op Unit :=
  if !s.allowDelete then
    Prog.fail (refusal "policy_denied"
      s!"this node's policy does not allow deleting models (allow_delete in {s.policyAt})")
  else do
    Prog.ofExcept (s.node.openRoot (arg args "root") true)
    let rel := (asStr (arg args "rel")).getD ""
    let parts ← Prog.ofExcept (splitRel s.node (asStr (arg args "rel")) "path")
    let name := parts.getLast?.getD ""
    let d ← openExisting s a parts.dropLast
    match a.fault .lstat (d ++ [name]) with
    | some e => Prog.fail (cannotLook s.node name e)
    | none =>
      match ← at? (d ++ [name]) with
      | none =>
        Prog.fail (refusal "not_found"
          s!"{relRepr s.node rel} does not exist in model root {s.rootRepr}")
      | some .dir =>
        match a.fault .opendir (d ++ [name]) with
        | some e =>
          Prog.fail (refusal "conflict"
            s!"{relRepr s.node rel} changed while being deleted: {s.node.strerror e}")
        | none => deleteFound s a rel (d ++ [name]) true
      | some _ => deleteFound s a rel (d ++ [name]) false

/-! ## Runs -/

/-- A call of the hub. -/
inductive FileCall where
  | write (args : Args)
  | putSmall (args : Args)
  | symlink (args : Args)
  | delete (args : Args)

/-- What a call does. -/
def FileCall.run (s : Setup) (a : Around) : FileCall → Op Unit
  | .write args => fsWrite s a args
  | .putSmall args => fsPutSmall s a args
  | .symlink args => fsSymlink s a args
  | .delete args => fsDelete s a args

/-- One call after another; a call always ends. -/
def treeStep (s : Setup) (h : Host) (c : FileCall × Around) : Option Host :=
  some (c.1.run s c.2 h).2

end Files

end EngineConsole
