/-
# BranchFs.Model.FileOps -- the file operations behind the FUSE handlers

What the handlers of `fs.rs` do to a path of a branch once the request is decoded: copy-on-write
first, then the system call on the delta path. The root-path and the `@branch` form of a handler
share these bodies. Errors are errnos; `ensure_cow` reports every manager error as EIO.
-/
import BranchFs.Model.Commit

namespace BranchFs

open BranchFs.Posix BranchFs.Logic

/-- A request in progress: it may reply an errno. -/
abbrev Req := EStateM Errno Manager

/-- `branch_error_errno`. -/
def branchErrorErrno : BranchError → Errno
  | .io e => e
  | .notFound _ => .ENOENT
  | .invalid _ => .EROFS
  | _ => Errno.EIO

/-- Run a manager operation, its error replied as `f` says. -/
def asReq {α : Type} (f : BranchError → Errno) (x : Mgr α) : Req α := fun m =>
  match x m with
  | .ok a m' => .ok a m'
  | .error e m' => .error (f e) m'

/-- A system call whose failure is replied as EIO. -/
def ioOrEio {α : Type} (x : Io α) : Req α := asReq (fun _ => Errno.EIO) (onDisk x)

/-- A system call whose failure is ignored. -/
def ignoring {α : Type} (x : Io α) : Req Unit := do
  let _ ← attempt (ioOrEio x)

/-- `ensure_cow_for_branch`. -/
def ensureCowForBranch (branch : String) (p : RelPath) : Req Place :=
  asReq (fun _ => Errno.EIO) (ensureDeltaPathForWrite branch p)

/-- `write_denied_error`. -/
def denyUnlessWritable (branch : String) : Req Unit := fun m =>
  if m.isBranchWritable branch then .ok () m else .error .EROFS m

def readReq {α : Type} (f : Manager → α) : Req α := fun m => .ok (f m) m

/-! ## Making entries -/

/-- The body of `create`. -/
def createFile (branch : String) (p : RelPath) (mode : Nat) : Req Unit := do
  let delta ← ensureCowForBranch branch p
  ioOrEio (Io.ensureParentDirs delta)
  let _ ← ioOrEio (Posix.Sys.openWrite delta true true)
  ignoring (Posix.Sys.setPermissions delta mode)

/-- The body of `mkdir`. -/
def makeDir (branch : String) (p : RelPath) (mode : Nat) : Req Unit := do
  let delta ← ensureCowForBranch branch p
  ioOrEio (Posix.Sys.createDirAll delta)
  ignoring (Posix.Sys.setPermissions delta mode)

/-- The body of `symlink`. -/
def makeSymlink (branch : String) (p : RelPath) (target : Target) : Req Unit := do
  let delta ← ensureCowForBranch branch p
  ioOrEio (Io.ensureParentDirs delta)
  ioOrEio (Posix.Sys.symlink target delta)

/-! ## Writing -/

/-- The length an open file reports. -/
def handleLen (d : Tree) (h : FileHandle) : UInt64 := .ofNat ((d.fileOf h).getD []).length

/-- `effective_write_offset`: an append goes to the end of what is visible. -/
def effectiveWriteOffset (append : Bool) (requested : Int) (visibleLen : Option UInt64) :
    Except Errno Int :=
  if requested < 0 then .error .EINVAL
  else if !append then .ok requested
  else
    let len := (visibleLen.getD 0).toNat
    if 2 ^ 63 ≤ len then .error .EFBIG else .ok len

/-- Open the delta file for writing, after copy-on-write. -/
def openForWrite (branch : String) (p : RelPath) : Req FileHandle := do
  let delta ← ensureCowForBranch branch p
  ioOrEio (Posix.Sys.openWrite delta true false)

/-- Write through an open delta file, charging the quota for what it grows by. -/
def writeThrough (h : FileHandle) (offset : Nat) (data : Bytes) : Req Nat := do
  let oldSize ← readReq fun m => handleLen m.disk h
  let writeEnd : UInt64 := .ofNat (offset + data.length)
  when (writeEnd > oldSize) (asReq (fun _ => .ENOSPC) (quotaCheck (writeEnd - oldSize)))
  let n ← ioOrEio (Posix.Sys.pwrite h offset data)
  let newEnd : UInt64 := .ofNat (offset + n)
  when (newEnd > oldSize) (asReq (fun _ => Errno.EIO) (quotaAdd (newEnd - oldSize)))
  pure n

/-- The write of the worker, for a path that had no delta when the request came. -/
def writeByWorker (branch : String) (p : RelPath) (offset : Int) (data : Bytes) : Req Nat :=
  asReq branchErrorErrno (writeDataToBranch branch p offset data)

/-! ## Attributes -/

/-- `TimeOrNow`. -/
inductive TimeOrNow where
  | specificTime (ns : Nat)
  | now
  deriving DecidableEq, Repr

/-- The attributes a `setattr` asks for, its size apart. -/
structure SetAttr where
  mode : Option Nat
  uid : Option Nat
  gid : Option Nat
  atime : Option TimeOrNow
  mtime : Option TimeOrNow
  deriving DecidableEq, Repr

def SetAttr.any (a : SetAttr) : Bool :=
  a.mode.isSome || a.uid.isSome || a.gid.isSome || a.atime.isSome || a.mtime.isSome

/-- The instant a `TimeOrNow` stands for. -/
def TimeOrNow.at (d : Tree) : TimeOrNow → Nat
  | specificTime ns => ns
  | now => d.clock

/-- `utimensat` with `FollowSymlink`; access times are not kept. -/
def utimensat (l : Place) (mtime : Option TimeOrNow) : Io Unit := fun d =>
  Posix.Sys.utimens l (mtime.map (TimeOrNow.at d)) d

def applyMode (delta : Place) : Option Nat → Req Unit
  | some m => ignoring (Posix.Sys.setPermissions delta m)
  | none => pure ()

/-- `apply_setattr`; every failure is ignored. -/
def applySetattr (delta : Place) (a : SetAttr) : Req Unit := do
  applyMode delta a.mode
  when (a.uid.isSome || a.gid.isSome) (ignoring (Posix.Sys.chown delta a.uid a.gid))
  when (a.atime.isSome || a.mtime.isSome) (ignoring (utimensat delta a.mtime))

/-- Set the length of an open file, with the quota kept in step. -/
def setHandleLen (h : FileHandle) (newSize : Nat) : Req Unit := do
  let oldSize ← readReq fun m => handleLen m.disk h
  let new : UInt64 := .ofNat newSize
  when (new > oldSize) (asReq (fun _ => .ENOSPC) (quotaCheck (new - oldSize)))
  ignoring (Posix.Sys.setLen h newSize)
  if new > oldSize then asReq (fun _ => Errno.EIO) (quotaAdd (new - oldSize))
  else if oldSize > new then asReq (fun _ => Errno.EIO) (quotaSub (oldSize - new))
  else pure ()

/-- The size part of `setattr`: a failed copy-on-write or open is passed over. -/
def truncatePath (branch : String) (p : RelPath) (newSize : Nat) : Req Unit := do
  match ← attempt (ensureCowForBranch branch p) with
  | .error _ => pure ()
  | .ok delta =>
    match ← attempt (ioOrEio (Posix.Sys.openWrite delta false false)) with
    | .error _ => pure ()
    | .ok h => setHandleLen h newSize

/-- The other part of `setattr`. -/
def setAttrPath (branch : String) (p : RelPath) (a : SetAttr) : Req Unit := do
  match ← attempt (ensureCowForBranch branch p) with
  | .error _ => pure ()
  | .ok delta => applySetattr delta a

/-! ## Rename and removal -/

/-- Clear the delta the renamed entry is to replace; what follows a link decides how. -/
def clearDestination (branch : String) (p : RelPath) : Req Unit := do
  let d := deltaPath branch p
  let there ← readReq fun m => m.disk.pathExists d
  let isDir ← readReq fun m => m.disk.isDir d
  when there
    (if isDir then ignoring (Posix.Sys.removeDirAll d) else ignoring (Posix.Sys.removeFile d))

/-- The tombstones after a rename: the old name stays hidden where something is inherited, the new
one is revived. -/
def renameTombstones (src dst : RelPath) (srcInherited dstExisted : Bool) (b : Branch) : Branch :=
  let b := if srcInherited then b.addTombstone src else b.removeTombstone src
  let b := if dstExisted then b.addTombstone dst else b
  b.removeTombstone dst

/-- The body of `rename`. -/
def renamePath (branch : String) (src dst : RelPath) (noReplace : Bool) : Req Unit := do
  let srcThere ← readReq fun m => (m.resolved branch src).isSome
  failIf (¬ srcThere) .ENOENT
  let srcInherited ← readReq fun m =>
    (m.forest.get? branch).any fun b => m.inheritedPathExists b src
  let dstThere ← readReq fun m => (m.resolved branch dst).isSome
  failIf (noReplace && dstThere) .EEXIST
  let srcDelta ← ensureCowForBranch branch src
  let dstDelta ← ensureCowForBranch branch dst
  ioOrEio (Io.ensureParentDirs dstDelta)
  let dstExisted ← readReq fun m => (m.resolved branch dst).isSome
  when dstExisted (clearDestination branch dst)
  ioOrEio (Posix.Sys.rename srcDelta dstDelta)
  asReq (fun _ => Errno.EIO) do
    let _ ← getBranch branch
    modifyBranch branch (renameTombstones src dst srcInherited dstExisted)

/-- The worker's `unlink`. -/
def unlinkPath (branch : String) (p : RelPath) : Req Unit :=
  asReq branchErrorErrno (deletePathInBranch branch p)

/-- The worker's `rmdir`. -/
def rmdirPath (branch : String) (p : RelPath) : Req Unit :=
  asReq branchErrorErrno (rmdirPathInBranch branch p)

end BranchFs
