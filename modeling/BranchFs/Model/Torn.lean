/-
# BranchFs.Model.Torn -- a merge that stops at any of its calls

The staging of `StagedMerge` once more, over a host on which the call of one's choice fails: the rename
that moves an entry aside, making the directories of a copy with some of them made, the copy itself with
nothing made or some of the bytes written. Without a failure it is the staging of `Model.Staged`.
-/
import BranchFs.Model.Commit
import BranchFs.Model.Faults

namespace BranchFs

open BranchFs.Posix BranchFs.Logic

/-- The calls of staging that may fail: the rename to the trash name, `create_dir_all` after so many
directories, reading the source and copying it with nothing made or so many bytes written. -/
inductive StageCall where
  | aside
  | dirs (made : Nat)
  | copy (made : Option Nat)
  deriving DecidableEq, Repr

/-- How many directories `create_dir_all` makes before it fails. -/
def StageCall.dirsMade : StageCall → Option Nat
  | dirs made => some made
  | _ => none

/-- What `fs::copy` has written when it fails. -/
def StageCall.copied : StageCall → Option (Option Nat)
  | copy made => some made
  | _ => none

/-- The calls a commit makes to `StagedMerge`. -/
inductive StageStep where
  | delete (t : RelPath)
  | copy (f : RelPath) (src : Place)

namespace Halts

section

variable (y : Option StageCall)

def trashEntry (target : Place) : Stage Unit := do
  let trash := commitSidePath target "trash"
  -- what an earlier merge left there goes first, also when the rename then fails
  let _ ← onStage (attempt (Io.removeEntry trash))
  failIf (y = some .aside) Errno.EIO
  onStage (Posix.Sys.rename target trash)
  record fun w => { w with deletes := w.deletes ++ [(trash, target)] }

/-- `StagedMerge::stage_delete`. -/
def stageDelete (target : Place) : Stage Unit := do
  let there ← readStage fun d => d.lexists target
  when there (trashEntry y target)

/-- `storage::ensure_parent_dirs`; where it fails some of the directories may be there. -/
def ensureParentDirs (l : Place) : Io Unit :=
  match y.bind StageCall.dirsMade with
  | none => Io.ensureParentDirs l
  | some made => do
    -- the way down is made from the top, so what is there is a prefix of it
    Posix.Sys.createDirAll { l.parent with path := l.parent.path.take made }
    throw Errno.EIO

/-- The end of `copy_entry`. A link is made whole or not at all. -/
def copyNode (src dst : Place) (n : Node String) : Io Unit :=
  match n.kind with
  | .symlink target => do
    let _ ← attempt (Posix.Sys.removeFile dst)
    -- `symlink` writes no part of a link: it fails with nothing made
    failIf ((y.bind StageCall.copied).isSome = true) Errno.EIO
    Posix.Sys.symlink target dst
  | _ => Faulty.copyFile ⟨y.bind StageCall.copied, false⟩ src dst

/-- `storage::copy_entry`. -/
def copyEntry (src dst : Place) : Io Unit := do
  ensureParentDirs y dst
  let n ← Io.symlinkMetadata src
  copyNode y src dst n

def copyAside (rel : RelPath) (src dest : Place) : Stage Unit := do
  let tmp := commitSidePath dest "tmp"
  -- the copy is recorded only when it is whole: a torn one is not known to the rollback
  onStage (copyEntry y src tmp)
  let len ← readStage fun d => ((d.lstat src).toOption.map metaLen).getD 0
  record fun w =>
    { w with copies := w.copies ++ [(tmp, dest)], merged := w.merged ++ [rel], bytes := w.bytes + len }

/-- `StagedMerge::stage_copy`. -/
def stageCopy (destRoot : RelPath → Place) (rel : RelPath) (src : Place) : Stage Unit := do
  let dest := destRoot rel
  let isDir ← readStage fun d => (d.lkind dest).any Kind.isDir
  when isDir (stageDelete y dest)
  copyAside y rel src dest

/-- One call of a commit. -/
def stageStep (destRoot : RelPath → Place) : StageStep → Stage Unit
  | .delete t => stageDelete y (destRoot t)
  | .copy f src => stageCopy y destRoot f src

end

/-- The calls of a commit, none of which fails by itself: the deletions, then the copies. -/
def stageCalls (destRoot : RelPath → Place) (tombstones : List RelPath)
    (files : List (RelPath × Place)) : Stage Unit := do
  tombstones.forM fun t => stageStep none destRoot (.delete t)
  files.forM fun f => stageStep none destRoot (.copy f.1 f.2)

/-! ## Without a failure -/

/-- A deletion can only fail at its rename to the trash name. -/
theorem stageDelete_of_ne {y : Option StageCall} (hne : y ≠ some .aside) (target : Place) :
    stageDelete y target = BranchFs.stageDelete target := by
  have hgo : (failIf (y = some .aside) Errno.EIO : Stage Unit) = pure () :=
    funext fun s => failIf_ok hne _ s
  unfold stageDelete BranchFs.stageDelete trashEntry BranchFs.trashEntry
  rw [hgo]
  rfl

theorem copyNode_none (src dst : Place) (n : Node String) :
    copyNode none src dst n = Io.copyNode src dst n := by
  unfold copyNode Io.copyNode
  cases n.kind <;> rfl

/-- **A copy where nothing fails.** -/
theorem stageCopy_none (destRoot : RelPath → Place) (rel : RelPath) (src : Place) :
    stageCopy none destRoot rel src = BranchFs.stageCopy destRoot rel src := by
  have hcopy : copyEntry none = Io.copyEntry := by
    funext src dst
    unfold copyEntry Io.copyEntry
    simp only [copyNode_none]
    rfl
  unfold stageCopy BranchFs.stageCopy copyAside BranchFs.copyAside
  rw [hcopy]
  rfl

theorem copies_calls (destRoot : RelPath → Place) (r : Report) (files : List (RelPath × Place)) :
    (files.map fun f => (f.1, r.sourceOf f)).forM
        (fun f => stageStep none destRoot (.copy f.1 f.2)) = stageCopies destRoot r files := by
  funext s
  rw [forM_map_apply]
  simp only [stageStep, stageCopy_none]
  rfl

/-- **The staging of a commit into the base directory** makes these calls. -/
theorem stageIntoBase_calls (r : Report) (tombstones : List RelPath)
    (files : List (RelPath × Place)) : stageIntoBase r tombstones files =
      stageCalls basePath tombstones (files.map fun f => (f.1, r.sourceOf f)) := by
  rw [stageCalls, copies_calls]
  rfl

/-- Of a nested deletion the rest of the staging sees what `stage_delete` did. -/
theorem delete_call (m : Manager) (parent : Branch) (t : RelPath) (w : NestedWork)
    (next : Stage Unit) : (stageParentDelete m parent t w >>= fun _ => next) =
      (stageStep none (deltaPath parent.name) (.delete t) >>= fun _ => next) := by
  have hstep : stageStep none (deltaPath parent.name) (.delete t) =
      BranchFs.stageDelete (deltaPath parent.name t) :=
    stageDelete_of_ne (Option.some_ne_none StageCall.aside).symm _
  rw [hstep, stageParentDelete]
  simp only [bind_assoc, pure_bind]
  rfl

theorem deletes_calls (m : Manager) (parent : Branch) (tombstones : List RelPath) (w : NestedWork)
    (next : Stage Unit) : (stageParentDeletes m parent tombstones w >>= fun _ => next) =
      ((tombstones.forM fun t => stageStep none (deltaPath parent.name) (.delete t)) >>=
        fun _ => next) := by
  -- the work of a nested staging is only written down, so its value does not matter to the calls
  induction tombstones generalizing w with
  | nil => rfl
  | cons t rest ih =>
    show ((stageParentDelete m parent t w >>= fun w' => stageParentDeletes m parent rest w') >>=
      fun _ => next) = ((stageStep none (deltaPath parent.name) (.delete t) >>= fun _ =>
        rest.forM fun t => stageStep none (deltaPath parent.name) (.delete t)) >>= fun _ => next)
    rw [bind_assoc, bind_assoc]
    simp only [ih]
    exact delete_call m parent t w _

/-- **The staging of a commit into a parent's delta** makes the same calls. -/
theorem stageIntoParent_calls (m : Manager) (parent : Branch) (r : Report) (tombstones : List RelPath)
    (files : List (RelPath × Place)) :
    (stageIntoParent m parent r tombstones files >>= fun _ => pure ()) =
      stageCalls (deltaPath parent.name) tombstones (files.map fun f => (f.1, r.sourceOf f)) := by
  unfold stageIntoParent stageCalls
  rw [bind_assoc]
  simp only [bind_assoc, pure_bind, copies_calls]
  rw [deletes_calls]
  simp

end Halts

end BranchFs
