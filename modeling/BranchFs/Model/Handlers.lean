/-
# BranchFs.Model.Handlers -- setattr and rename, from the inode on

The two handlers of a mount that change a path and answer with what stands there: the inode is looked
up and classified, the branch checked, the body run (`FileOps`), and at the end the attributes are read
again, or the inode table is brought up to date. The copies `setattr` needs may fail.
-/
import BranchFs.Model.Faults
import BranchFs.Model.Mount

namespace BranchFs

open BranchFs.Posix BranchFs.Logic

/-- Run the body of a handler inside a request. -/
def onReq {α : Type} (x : Req α) : MountReq α := fun s =>
  match x s.manager with
  | .ok a m => .ok a { s with manager := m }
  | .error e m => .error e { s with manager := m }

/-! ## Attributes -/

/-- What `reply.attr` is given: what `symlink_metadata` says of an entry, or the attributes of a control
file, which are made up. -/
inductive AttrReply where
  | entry (ino : Nat) (node : Node String)
  | ctlFile (ino size : Nat)
  deriving DecidableEq

/-- `ctl_file_attr`. -/
def ctlFileAttr (ino : Nat) : AttrReply := .ctlFile ino (if ino = ctlIno then 256 else 0)

/-- `make_attr` of what a path of a branch resolves to. -/
def replyAttr (branch : String) (rel : RelPath) (ino : Nat) : MountReq AttrReply := fun s =>
  match s.resolveForBranch branch rel with
  | none => .error .ENOENT s
  | some l =>
    match s.manager.disk.lstat l with
    | .ok node => .ok (.entry ino node) s
    | .error _ => .error .ENOENT s

/-- A `setattr` asks for something. -/
def asksFor (size : Option Nat) (a : SetAttr) : Bool := size.isSome || a.any

namespace Faulty

variable (f : Faults)

/-- `ensure_cow_for_branch`. -/
def ensureCowForBranch (branch : String) (p : RelPath) : Req Place :=
  asReq (fun _ => Errno.EIO) (ensureDeltaPathForWrite f branch p)

/-- The size part of `setattr`. -/
def truncatePath (branch : String) (p : RelPath) (newSize : Nat) : Req Unit := do
  match ← attempt (ensureCowForBranch f branch p) with
  -- no error of `ensure_cow` carries an errno, so this one is never met
  | .error .ENOSPC => throw .ENOSPC
  | .error _ => pure ()
  | .ok delta =>
    match ← attempt (ioOrEio (Posix.Sys.openWrite delta false false)) with
    | .error _ => pure ()
    | .ok h => setHandleLen h newSize

/-- The other part of `setattr`. -/
def setAttrPath (branch : String) (p : RelPath) (a : SetAttr) : Req Unit := do
  match ← attempt (ensureCowForBranch f branch p) with
  | .error _ => pure ()
  | .ok delta => applySetattr delta a

/-- What `setattr` does to a path of a branch. -/
def changeAttr (branch : String) (rel : RelPath) (size : Option Nat) (a : SetAttr) : Req Unit := do
  match size with
  | some newSize => truncatePath f branch rel newSize
  | none => pure ()
  when (a.any = true) (setAttrPath f branch rel a)

/-- `setattr` of a path below a branch directory. -/
def setattrInBranch (branch : String) (rel : RelPath) (ino : Nat) (size : Option Nat) (a : SetAttr) :
    MountReq AttrReply := do
  when (asksFor size a = true) (onReq (denyUnlessWritable branch))
  needBranch branch
  onReq (changeAttr f branch rel size a)
  replyAttr branch rel ino

/-- `setattr` of a path of the mount's own branch. -/
def setattrInRoot (rel : RelPath) (ino : Nat) (size : Option Nat) (a : SetAttr) :
    MountReq AttrReply := do
  let s ← get
  when (asksFor size a = true) (onReq (denyUnlessWritable s.branchName))
  onReq (changeAttr f s.branchName rel size a)
  failWhenStale
  let s ← get
  replyAttr s.branchName rel ino

/-- `setattr` of a known inode. -/
def setattrAt (path : RelPath) (ino : Nat) (size : Option Nat) (a : SetAttr) : MountReq AttrReply :=
  match classifyPath path with
  | .branchDir _ => throw .EPERM
  | .branchCtl _ => throw .EPERM
  | .branchPath branch rel => setattrInBranch f branch rel ino size a
  | .rootPath rel => setattrInRoot f rel ino size a

/-- `setattr`, on a host where copies may fail. -/
def setattr (ino : Nat) (size : Option Nat) (a : SetAttr) : MountReq AttrReply := do
  let s ← get
  match s.ctlFileOf ino with
  | some .root => if s.exposeControl then pure (ctlFileAttr ino) else throw .ENOENT
  | some (.branch branch) =>
    if s.exposeControl && s.manager.isBranchValid branch then pure (ctlFileAttr ino)
    else throw .ENOENT
  | none => do
    let path ← inodePath ino
    setattrAt f path ino size a

/-! ### Without a fault -/

/-- The size part of a host without faults, with the arm nothing takes. -/
theorem truncatePath_absent (branch : String) (p : RelPath) (newSize : Nat) :
    truncatePath .absent branch p newSize = BranchFs.truncatePath branch p newSize := by
  funext m
  unfold truncatePath BranchFs.truncatePath
  show (attempt (asReq _ (ensureDeltaPathForWrite .absent branch p)) >>= _) m =
    (attempt (asReq _ (BranchFs.ensureDeltaPathForWrite branch p)) >>= _) m
  rw [ensureDeltaPathForWrite_absent]
  cases hrun : BranchFs.ensureDeltaPathForWrite branch p m with
  | ok delta m' =>
    have hcow : attempt (asReq (fun _ => Errno.EIO) (BranchFs.ensureDeltaPathForWrite branch p)) m =
        .ok (.ok delta) m' := by
      simp only [attempt, asReq, hrun]
    refine (bind_ok hcow).trans (Eq.trans ?_ (bind_ok hcow).symm)
    rfl
  | error e m' =>
    have hcow : attempt (asReq (fun _ => Errno.EIO) (BranchFs.ensureDeltaPathForWrite branch p)) m =
        .ok (.error Errno.EIO) m' := by
      simp only [attempt, asReq, hrun]
    refine (bind_ok hcow).trans (Eq.trans ?_ (bind_ok hcow).symm)
    rfl

theorem setAttrPath_absent (branch : String) (p : RelPath) (a : SetAttr) :
    setAttrPath .absent branch p a = BranchFs.setAttrPath branch p a := by
  have hcow : ensureCowForBranch .absent branch p = BranchFs.ensureCowForBranch branch p := by
    unfold ensureCowForBranch BranchFs.ensureCowForBranch
    rw [ensureDeltaPathForWrite_absent]
  unfold setAttrPath BranchFs.setAttrPath
  rw [hcow] <;> rfl

end Faulty

/-! ## Rename -/

/-- A directory a rename names: its branch, none for the mount's own, the path in it, and what stands
before the path in the inode table. -/
structure RenameParent where
  branch : Option String
  rel : RelPath
  inodePrefix : RelPath

/-- `resolve_parent`. -/
def resolveParent (path : RelPath) : Option RenameParent :=
  match classifyPath path with
  | .branchDir b => some ⟨some b, [], [atName b]⟩
  | .branchPath b rel => some ⟨some b, rel, [atName b]⟩
  | .rootPath rel => some ⟨none, rel, []⟩
  | .branchCtl _ => none

def needParent (path : RelPath) : MountReq RenameParent := fun s =>
  match resolveParent path with
  | some parent => .ok parent s
  | none => .error .EPERM s

/-- The branch a rename is for. -/
def renameBranch : Option String → MountReq String
  | none => do
    let s ← get
    pure s.branchName
  | some b => do
    needBranch b
    pure b

/-- The flags of `renameat2`. -/
structure RenameFlags where
  exchange : Bool
  noReplace : Bool

/-- The inode table after a rename. -/
def moveInode (src dst : RelPath) (isDir : Bool) (t : InodeManager) : InodeManager :=
  (((t.remove src).remove dst).getOrCreate dst isDir).2

/-- The paths of a rename in the branch and in the inode table. -/
structure RenamePaths where
  branch : String
  src : RelPath
  dst : RelPath
  srcInode : RelPath
  dstInode : RelPath
  ofRoot : Bool

/-- What a rename names, checked: both parents in one branch, which can be written. -/
def renamePaths (parent : Nat) (name : String) (newparent : Nat) (newname : String) :
    MountReq RenamePaths := do
  let parentPath ← inodePath parent
  let newparentPath ← inodePath newparent
  let src ← needParent parentPath
  let dst ← needParent newparentPath
  failIf (src.branch ≠ dst.branch) .EXDEV
  let branch ← renameBranch src.branch
  onReq (denyUnlessWritable branch)
  pure
    { branch := branch
      src := src.rel ++ [name]
      dst := dst.rel ++ [newname]
      srcInode := src.inodePrefix ++ src.rel ++ [name]
      dstInode := dst.inodePrefix ++ dst.rel ++ [newname]
      ofRoot := src.branch.isNone }

/-- `rename`. -/
def rename (parent : Nat) (name : String) (newparent : Nat) (newname : String)
    (flags : RenameFlags) : MountReq Unit := do
  failIf (flags.exchange = true) .EINVAL
  let paths ← renamePaths parent name newparent newname
  onReq (renamePath paths.branch paths.src paths.dst flags.noReplace)
  when (paths.ofRoot = true) failWhenStale
  modify fun s =>
    let isDir := s.manager.disk.isDir (deltaPath paths.branch paths.dst)
    { s with inodes := moveInode paths.srcInode paths.dstInode isDir s.inodes }

/-! ### With calls that fail -/

namespace Faulty

variable (f : Faults)

/-- The part of `rename` after copy-on-write of both names. -/
def moveDelta (branch : String) (src dst : RelPath) (srcInherited : Bool) (srcDelta dstDelta : Place) :
    Req Unit := do
  ioOrEio (Io.ensureParentDirs dstDelta)
  let dstExisted ← readReq fun m => (m.resolved branch dst).isSome
  when dstExisted (clearDestination branch dst)
  ioOrEio (rename f srcDelta dstDelta)
  asReq (fun _ => Errno.EIO) do
    let _ ← getBranch branch
    modifyBranch branch (renameTombstones src dst srcInherited dstExisted)

/-- The body of `rename`. -/
def renamePath (branch : String) (src dst : RelPath) (noReplace : Bool) : Req Unit := do
  let srcThere ← readReq fun m => (m.resolved branch src).isSome
  failIf (¬ srcThere) .ENOENT
  let srcInherited ← readReq fun m =>
    (m.forest.get? branch).any fun b => m.inheritedPathExists b src
  let dstThere ← readReq fun m => (m.resolved branch dst).isSome
  failIf (noReplace && dstThere) .EEXIST
  let srcDelta ← ensureCowForBranch f branch src
  let dstDelta ← ensureCowForBranch f branch dst
  moveDelta f branch src dst srcInherited srcDelta dstDelta

/-- `rename`, on a host where copies and renames may fail. -/
def renameEntry (parent : Nat) (name : String) (newparent : Nat) (newname : String)
    (flags : RenameFlags) : MountReq Unit := do
  failIf (flags.exchange = true) .EINVAL
  let paths ← renamePaths parent name newparent newname
  onReq (renamePath f paths.branch paths.src paths.dst flags.noReplace)
  when (paths.ofRoot = true) failWhenStale
  modify fun s =>
    let isDir := s.manager.disk.isDir (deltaPath paths.branch paths.dst)
    { s with inodes := moveInode paths.srcInode paths.dstInode isDir s.inodes }

theorem renamePath_absent (branch : String) (src dst : RelPath) (noReplace : Bool) :
    renamePath .absent branch src dst noReplace = BranchFs.renamePath branch src dst noReplace := by
  have hcow : ensureCowForBranch .absent = BranchFs.ensureCowForBranch := by
    funext branch p
    unfold ensureCowForBranch BranchFs.ensureCowForBranch
    rw [ensureDeltaPathForWrite_absent]
  unfold renamePath BranchFs.renamePath
  rw [hcow]
  rfl

/-- **The rename of a host without faults.** -/
theorem renameEntry_absent (parent : Nat) (name : String) (newparent : Nat) (newname : String)
    (flags : RenameFlags) :
    renameEntry .absent parent name newparent newname flags =
      BranchFs.rename parent name newparent newname flags := by
  unfold renameEntry BranchFs.rename
  simp only [renamePath_absent]

end Faulty

end BranchFs
