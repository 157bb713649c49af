/-
# BranchFs.Model.Halts -- a rename that stops at any of its calls

The `rename` handler once more, over a host on which the call of one's choice fails: one of the calls of
either copy-on-write, making the parent directories of the destination, `fs::rename`, or appending to the
tombstone log. Every one of these failures ends the request with an error. Without one it is the handler of
`Model.Handlers`.
-/
import BranchFs.Model.Handlers

namespace BranchFs

open BranchFs.Posix BranchFs.Logic

/-- The calls of copy-on-write that may fail: keeping the touch record, `fs::copy` with some of the bytes
written or nothing made, appending to the tombstone log, making the parent directories. -/
inductive CowCall where
  | touch
  | copy (made : Option Nat)
  | log
  | dirs
  deriving DecidableEq, Repr

/-- The calls of `rename` that may fail, in their order. -/
inductive RenameCall where
  | source (c : CowCall)
  | target (c : CowCall)
  | parents
  | move
  | sourceLog
  | targetHidden
  | targetRevived
  deriving DecidableEq, Repr

/-- The call of the first copy-on-write. -/
def RenameCall.ofSource : RenameCall → Option CowCall
  | source c => some c
  | _ => none

/-- The call of the second copy-on-write. -/
def RenameCall.ofTarget : RenameCall → Option CowCall
  | target c => some c
  | _ => none

def readMgr {α : Type} (f : Manager → α) : Mgr α := fun m => .ok (f m) m

namespace Manager

/-- The branch has a tombstone for the path. -/
def tombstoned (m : Manager) (branch : String) (p : RelPath) : Bool :=
  (m.forest.get? branch).any fun b => b.tombstones.contains p

/-- The branch has a touch record for the path. -/
def touched (m : Manager) (branch : String) (p : RelPath) : Bool :=
  (m.forest.get? branch).any fun b => (b.getTouchRecord p).isSome

end Manager

namespace Halts

/-! ## Copy-on-write -/

section Cow

variable (y : Option CowCall)

/-- The faults of `fs::copy`. -/
def copyFaults : Option CowCall → Faults
  | some (.copy made) => ⟨some made, false⟩
  | _ => .absent

/-- `Branch::add_tombstone`: the set first, then the log, where the set has changed. -/
def addTombstone (fails : Bool) (branch : String) (p : RelPath) : Mgr Unit := do
  let there ← readMgr fun m => m.tombstoned branch p
  modifyBranch branch (Branch.addTombstone p)
  failIf (fails && !there) (.io Errno.EIO)

/-- `Branch::remove_tombstone`. -/
def removeTombstone (fails : Bool) (branch : String) (p : RelPath) : Mgr Unit := do
  let there ← readMgr fun m => m.tombstoned branch p
  modifyBranch branch (Branch.removeTombstone p)
  failIf (fails && there) (.io Errno.EIO)

/-- The first touch of a path without delta; a record that is there is not written again. -/
def touchAndCopyUp (branch : String) (p : RelPath) : Mgr Unit := do
  let inherited ← inheritedForTouch branch p
  let known ← readMgr fun m => m.touched branch p
  recordFirstTouch branch p inherited true
  failIf (decide (y = some .touch) && !known) (.io Errno.EIO)
  Faulty.copyUpInherited (copyFaults y) (deltaPath branch p) inherited

/-- The end of copy-on-write. -/
def finishCow (branch : String) (p : RelPath) : Mgr Place := do
  removeTombstone (decide (y = some .log)) branch p
  failIf (y = some .dirs) (.io Errno.EIO)
  onDisk (Io.ensureParentDirs (deltaPath branch p))
  pure (deltaPath branch p)

/-- `ensure_delta_path_for_write_locked`. -/
def ensureDeltaPathForWrite (branch : String) (p : RelPath) : Mgr Place := do
  let _ ← writableBranch branch
  let there ← readDisk fun d => d.lexists (deltaPath branch p)
  when (¬ there) (touchAndCopyUp y branch p)
  finishCow y branch p

/-- `ensure_cow_for_branch`. -/
def ensureCowForBranch (branch : String) (p : RelPath) : Req Place :=
  asReq (fun _ => Errno.EIO) (ensureDeltaPathForWrite y branch p)

end Cow

/-! ## The handler -/

section Rename

variable (x : Option RenameCall)

/-- The tombstones after the move. -/
def renameTombstones (branch : String) (src dst : RelPath) (srcInherited dstExisted : Bool) :
    Mgr Unit := do
  let _ ← getBranch branch
  if srcInherited then addTombstone (decide (x = some .sourceLog)) branch src
  else removeTombstone (decide (x = some .sourceLog)) branch src
  when dstExisted (addTombstone (decide (x = some .targetHidden)) branch dst)
  removeTombstone (decide (x = some .targetRevived)) branch dst

/-- The part of `rename` after copy-on-write of both names. -/
def moveDelta (branch : String) (src dst : RelPath) (srcInherited : Bool) (srcDelta dstDelta : Place) :
    Req Unit := do
  failIf (x = some .parents) Errno.EIO
  ioOrEio (Io.ensureParentDirs dstDelta)
  let dstExisted ← readReq fun m => (m.resolved branch dst).isSome
  when dstExisted (clearDestination branch dst)
  failIf (x = some .move) Errno.EIO
  ioOrEio (Posix.Sys.rename srcDelta dstDelta)
  asReq (fun _ => Errno.EIO) (renameTombstones x branch src dst srcInherited dstExisted)

/-- Copy-on-write of both names, and the move. -/
def moveNames (branch : String) (src dst : RelPath) (srcInherited : Bool) : Req Unit := do
  let srcDelta ← ensureCowForBranch (x.bind RenameCall.ofSource) branch src
  let dstDelta ← ensureCowForBranch (x.bind RenameCall.ofTarget) branch dst
  moveDelta x branch src dst srcInherited srcDelta dstDelta

/-- The body of `rename`. -/
def renamePath (branch : String) (src dst : RelPath) (noReplace : Bool) : Req Unit := do
  let srcThere ← readReq fun m => (m.resolved branch src).isSome
  failIf (¬ srcThere) .ENOENT
  let srcInherited ← readReq fun m =>
    (m.forest.get? branch).any fun b => m.inheritedPathExists b src
  let dstThere ← readReq fun m => (m.resolved branch dst).isSome
  failIf (noReplace && dstThere) .EEXIST
  moveNames x branch src dst srcInherited

/-- `rename`. -/
def rename (parent : Nat) (name : String) (newparent : Nat) (newname : String)
    (flags : RenameFlags) : MountReq Unit := do
  failIf (flags.exchange = true) .EINVAL
  let paths ← renamePaths parent name newparent newname
  onReq (renamePath x paths.branch paths.src paths.dst flags.noReplace)
  when (paths.ofRoot = true) failWhenStale
  modify fun s =>
    let isDir := s.manager.disk.isDir (deltaPath paths.branch paths.dst)
    { s with inodes := moveInode paths.srcInode paths.dstInode isDir s.inodes }

end Rename

/-! ## Without a failure -/

section Absent

variable {branch : String}

theorem touchAndCopyUp_none (p : RelPath) :
    touchAndCopyUp none branch p = BranchFs.touchAndCopyUp branch p := by
  unfold touchAndCopyUp BranchFs.touchAndCopyUp
  simp only [show copyFaults none = Faults.absent from rfl, Faulty.copyUpInherited_absent]
  rfl

/-- **Copy-on-write where nothing fails.** -/
theorem ensureDeltaPathForWrite_none (p : RelPath) :
    ensureDeltaPathForWrite none branch p = BranchFs.ensureDeltaPathForWrite branch p := by
  unfold ensureDeltaPathForWrite BranchFs.ensureDeltaPathForWrite
  simp only [touchAndCopyUp_none]
  rfl

theorem addTombstone_name (p : RelPath) (b : Branch) : (b.addTombstone p).name = b.name := by
  unfold Branch.addTombstone
  split <;> rfl

theorem addTombstone_parent (p : RelPath) (b : Branch) : (b.addTombstone p).parent = b.parent := by
  unfold Branch.addTombstone
  split <;> rfl

/-- Two changes of a record are one. -/
theorem modifyBranch_modifyBranch {f g : Branch → Branch} (hname : ∀ b, (f b).name = b.name)
    (hparent : ∀ b, (f b).parent = b.parent) :
    (do modifyBranch branch f; modifyBranch branch g : Mgr Unit) = modifyBranch branch (g ∘ f) := by
  funext m
  rw [bind_ok (show modifyBranch branch f m = .ok () { m with forest := m.forest.modify branch f } from
    rfl)]
  unfold modifyBranch
  rw [Forest.modify_modify_of_same hname hparent]

/-- **The three changes of the tombstones**, where the log takes them, are the one of `Model.FileOps`. -/
theorem renameTombstones_none (src dst : RelPath) (srcInherited dstExisted : Bool) :
    renameTombstones none branch src dst srcInherited dstExisted = (do
      let _ ← getBranch branch
      modifyBranch branch (BranchFs.renameTombstones src dst srcInherited dstExisted)) := by
  have hadd : (addTombstone false branch src >>= fun _ => modifyBranch branch (Branch.removeTombstone dst)) =
      modifyBranch branch (Branch.removeTombstone dst ∘ Branch.addTombstone src) :=
    modifyBranch_modifyBranch (addTombstone_name src) (addTombstone_parent src)
  have htarget : (addTombstone false branch dst >>= fun _ => removeTombstone false branch dst) =
      modifyBranch branch (Branch.removeTombstone dst ∘ Branch.addTombstone dst) :=
    modifyBranch_modifyBranch (addTombstone_name dst) (addTombstone_parent dst)
  unfold renameTombstones
  refine congrArg (getBranch branch >>= ·) (funext fun b => ?_)
  cases srcInherited <;> cases dstExisted
  · exact modifyBranch_modifyBranch (fun _ => rfl) fun _ => rfl
  · show (removeTombstone false branch src >>= fun _ =>
      addTombstone false branch dst >>= fun _ => removeTombstone false branch dst) = _
    rw [htarget]
    exact modifyBranch_modifyBranch (fun _ => rfl) fun _ => rfl
  · exact hadd
  · show (addTombstone false branch src >>= fun _ =>
      addTombstone false branch dst >>= fun _ => removeTombstone false branch dst) = _
    rw [htarget]
    exact modifyBranch_modifyBranch (addTombstone_name src) (addTombstone_parent src)

theorem moveDelta_none (src dst : RelPath) (srcInherited : Bool) (srcDelta dstDelta : Place) :
    moveDelta none branch src dst srcInherited srcDelta dstDelta =
      Faulty.moveDelta .absent branch src dst srcInherited srcDelta dstDelta := by
  unfold moveDelta Faulty.moveDelta
  simp only [renameTombstones_none]
  rfl

/-- **The body of the handler where nothing fails.** -/
theorem renamePath_none (src dst : RelPath) (noReplace : Bool) :
    renamePath none branch src dst noReplace = BranchFs.renamePath branch src dst noReplace := by
  have hcow : ensureCowForBranch none = BranchFs.ensureCowForBranch := by
    funext name p
    unfold ensureCowForBranch BranchFs.ensureCowForBranch
    rw [ensureDeltaPathForWrite_none]
  rw [← Faulty.renamePath_absent]
  unfold renamePath moveNames
  have hcow' : Faulty.ensureCowForBranch .absent = BranchFs.ensureCowForBranch := by
    funext name p
    unfold Faulty.ensureCowForBranch BranchFs.ensureCowForBranch
    rw [Faulty.ensureDeltaPathForWrite_absent]
  unfold Faulty.renamePath
  simp only [moveDelta_none, hcow', show (none : Option RenameCall).bind RenameCall.ofSource = none from rfl,
    show (none : Option RenameCall).bind RenameCall.ofTarget = none from rfl, hcow]

/-- **The rename where nothing fails.** -/
theorem rename_none (parent : Nat) (name : String) (newparent : Nat) (newname : String)
    (flags : RenameFlags) :
    rename none parent name newparent newname flags =
      BranchFs.rename parent name newparent newname flags := by
  unfold rename BranchFs.rename
  simp only [renamePath_none]

end Absent

/-! ## Where nothing failed -/

section Ok

variable {branch : String} {m m' : Manager} {p : RelPath}

theorem removeTombstone_of_ok {fails : Bool} (h : removeTombstone fails branch p m = .ok () m') :
    removeTombstone false branch p m = .ok () m' := by
  obtain ⟨_, m₁, hthere, hrest⟩ := bind_eq_ok h
  cases hthere
  obtain ⟨_, m₂, hset, hlog⟩ := bind_eq_ok hrest
  obtain ⟨-, rfl⟩ := failIf_eq_ok hlog
  exact hset

end Ok

end Halts

end BranchFs
