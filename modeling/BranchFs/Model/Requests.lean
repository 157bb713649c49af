/-
# BranchFs.Model.Requests -- the requests that make, read and open entries

The handlers of `fs.rs` that are not in `Model.Mount` and `Model.Handlers`: each looks up the inode it is
given, classifies its path, checks the branch, and runs a body of `Model.FileOps` or looks at what the path
resolves to. The files made in a mount's own branch are removed again when the branch is gone by then.
`unlink` and `rmdir` only leave a job for the worker, and are in `Model.Process` with it.

The passthrough of open files, the owner of made-up entries and the inodes a mount has opened are not part
of the state.
-/
import BranchFs.Model.Handlers

namespace BranchFs

open BranchFs.Posix BranchFs.Logic

/-! ## Directories and what they stand for -/

/-- The branch a directory of the inode table belongs to, and its path there. -/
def Mount.dirAt (s : Mount) (path : RelPath) : Option (String × RelPath) :=
  match classifyPath path with
  | .branchDir branch => some (branch, [])
  | .branchPath branch rel => some (branch, rel)
  | .rootPath rel => some (s.branchName, rel)
  | .branchCtl _ => none

/-- The path stands for something of the mount's own branch. -/
def ofRoot (path : RelPath) : Bool :=
  match classifyPath path with
  | .rootPath _ => true
  | _ => false

/-- The branch and path of a directory that an entry is to be made in: one below `@branch` has to be
there, and either can be written. -/
def writableDir (path : RelPath) : MountReq (String × RelPath) := do
  let s ← get
  match s.dirAt path with
  | none => throw .EPERM
  | some (branch, rel) => do
    when (ofRoot path = false) (needBranch branch)
    onReq (denyUnlessWritable branch)
    pure (branch, rel)

/-! ## Making entries -/

/-- `make_attr` of an entry that has just been made in the delta. -/
def replyMade (ino : Nat) (delta : Place) : MountReq AttrReply := fun s =>
  match s.manager.disk.lstat delta with
  | .ok node => .ok (.entry ino node) s
  | .error _ => .error Errno.EIO s

/-- What the handlers that make an entry differ in: the body, how the entry is removed again, and whether
it is a directory. -/
structure Maker where
  body : String → RelPath → Req Unit
  undo : Place → Io Unit
  isDir : Bool

/-- An entry that is made in a mount's own branch goes again when the branch is gone. -/
def undoWhenStale (m : Maker) (delta : Place) : MountReq Unit := do
  let stale ← isStale
  when (stale = true) do
    onReq (ignoring (m.undo delta))
    throw .ESTALE

/-- The handlers that make an entry. -/
def makeEntry (m : Maker) (parent : Nat) (name : String) : MountReq AttrReply := do
  let path ← inodePath parent
  let (branch, rel) ← writableDir path
  onReq (m.body branch (rel ++ [name]))
  when (ofRoot path = true) (undoWhenStale m (deltaPath branch (rel ++ [name])))
  let ino ← inodeFor (path ++ [name]) m.isDir
  replyMade ino (deltaPath branch (rel ++ [name]))

/-- The mode bits a new entry gets. -/
def maskedMode (mode umask : UInt32) : Nat := (mode &&& ~~~umask).toNat

/-- `create`. -/
def create (parent : Nat) (name : String) (mode umask : UInt32) : MountReq AttrReply :=
  makeEntry ⟨fun branch p => createFile branch p (maskedMode mode umask), Posix.Sys.removeFile, false⟩
    parent name

/-- `mkdir`. -/
def mkdir (parent : Nat) (name : String) (mode umask : UInt32) : MountReq AttrReply :=
  makeEntry ⟨fun branch p => makeDir branch p (maskedMode mode umask), Posix.Sys.removeDirAll, true⟩
    parent name

/-- `symlink`. -/
def symlink (parent : Nat) (name : String) (target : Target) : MountReq AttrReply :=
  makeEntry ⟨fun branch p => makeSymlink branch p target, Posix.Sys.removeFile, false⟩ parent name

/-! ## Looking at entries -/

/-- The answer of `getattr`: a directory that no tree has an entry for is made up. -/
inductive AttrAnswer where
  | of (attr : AttrReply)
  | syntheticDir (ino : Nat)
  deriving DecidableEq

/-- `getattr` of the control file of a branch. -/
def getattrCtl (branch : String) (ino : Nat) : MountReq AttrAnswer := fun s =>
  if s.exposeControl && s.manager.isBranchValid branch then .ok (.of (ctlFileAttr ino)) s
  else .error .ENOENT s

/-- `getattr` of a path of the mount's own branch. The mount root is answered when nothing resolves, and is
never stale. -/
def getattrInRoot (rel : RelPath) (ino : Nat) : MountReq AttrAnswer := do
  when (ino ≠ rootIno) failWhenStale
  let s ← get
  if s.resolveForBranch s.branchName rel = none ∧ ino = rootIno then pure (.syntheticDir rootIno)
  else do
    let attr ← replyAttr s.branchName rel ino
    pure (.of attr)

/-- `getattr` of a known inode. -/
def getattrAt (path : RelPath) (ino : Nat) : MountReq AttrAnswer :=
  match classifyPath path with
  | .branchDir branch => do
    needBranch branch
    pure (.syntheticDir ino)
  | .branchCtl branch => getattrCtl branch ino
  | .branchPath branch rel => do
    needBranch branch
    let attr ← replyAttr branch rel ino
    pure (.of attr)
  | .rootPath rel => getattrInRoot rel ino

/-- `getattr`. -/
def getattr (ino : Nat) : MountReq AttrAnswer := do
  let s ← get
  match s.ctlFileOf ino with
  | some .root => if s.exposeControl then pure (.of (ctlFileAttr ino)) else throw .ENOENT
  | some (.branch branch) => getattrCtl branch ino
  | none =>
    if s.inodes.getPath ino = none ∧ ino = rootIno then pure (.syntheticDir rootIno)
    else do
      let path ← inodePath ino
      getattrAt path ino

/-- `classify_ino`, but for the control files. -/
def Mount.classifyIno (s : Mount) (ino : Nat) : Option PathContext :=
  if ino = rootIno then some (.rootPath [])
  else if (s.ctlFileOf ino).isSome then none
  else (s.inodes.getPath ino).map classifyPath

/-- What a path of a branch resolves to. -/
def resolvedIn (branch : String) (rel : RelPath) : MountReq Place := fun s =>
  match s.resolveForBranch branch rel with
  | some l => .ok l s
  | none => .error .ENOENT s

/-- `fs::read_link`. -/
def readLinkAt (l : Place) : MountReq Target := fun s =>
  match Posix.Sys.readLink l s.manager.disk with
  | .ok target _ => .ok target s
  | .error _ _ => .error .EINVAL s

/-- `readlink`. -/
def readlink (ino : Nat) : MountReq Target := do
  let s ← get
  match s.classifyIno ino with
  | some (.branchPath branch rel) => do
    needBranch branch
    let l ← resolvedIn branch rel
    readLinkAt l
  | some (.rootPath rel) => do
    failWhenStale
    let s ← get
    let l ← resolvedIn s.branchName rel
    readLinkAt l
  | _ => throw .EINVAL

/-! ## Opening -/

/-- The flags of `open`, as far as they are looked at. -/
structure OpenFlags where
  write : Bool
  trunc : Bool
  append : Bool
  deriving DecidableEq, Repr

/-- `flags_want_write`. -/
def flagsWantWrite (f : OpenFlags) : Bool := f.write || f.trunc || f.append

/-- `open` of a path below a branch directory. -/
def openInBranch (branch : String) (rel : RelPath) (f : OpenFlags) : MountReq Unit := do
  when (flagsWantWrite f = true) (onReq (denyUnlessWritable branch))
  needBranch branch
  let _ ← resolvedIn branch rel

/-- `open` of a path of the mount's own branch. -/
def openInRoot (rel : RelPath) (f : OpenFlags) : MountReq Unit := do
  failWhenStale
  let s ← get
  let _ ← resolvedIn s.branchName rel
  when (flagsWantWrite f = true) (onReq (denyUnlessWritable s.branchName))

/-- `open`, without passthrough: nothing is kept for it. -/
def openFile (ino : Nat) (f : OpenFlags) : MountReq Unit := do
  let s ← get
  match s.ctlFileOf ino with
  | some _ => pure ()
  | none => do
    let path ← inodePath ino
    match classifyPath path with
    | .branchDir _ => pure ()
    | .branchCtl _ => pure ()
    | .branchPath branch rel => openInBranch branch rel f
    | .rootPath rel => openInRoot rel f

end BranchFs
