/-
# BranchFs.Model.Staged -- the two-phase merge

`StagedMerge` prepares a merge as side files next to their destinations: a deletion moves the entry
to a trash name, a copy is made under a temporary name. `publish` moves the copies into place and
discards the trash; `rollback`, which runs whenever the merge is dropped before that, discards the
copies and moves the trash back.
-/
import BranchFs.Model.Cow

namespace BranchFs

open BranchFs.Posix BranchFs.Logic

/-- The work staged so far, oldest first. -/
structure StagedMerge where
  /-- Temporary place and destination of each copy. -/
  copies : List (Place × Place)
  /-- Trash place and original place of each deletion. -/
  deletes : List (Place × Place)
  merged : List RelPath
  bytes : UInt64

/-- The disk while a merge is staged. -/
structure Staging where
  disk : Tree
  work : StagedMerge

abbrev Stage := EStateM Errno Staging

namespace Staging

/-- `StagedMerge::new`. -/
def start (d : Tree) : Staging := ⟨d, ⟨[], [], [], 0⟩⟩

end Staging

/-- `commit_side_path`: the sibling `.branchfs-<tag>.<name>`. -/
def commitSidePath (target : Place) (tag : String) : Place :=
  target.parent.child (".branchfs-" ++ tag ++ "." ++ target.path.getLastD "")

def onStage {α : Type} (x : Io α) : Stage α := fun s =>
  match x s.disk with
  | .ok a d => .ok a { s with disk := d }
  | .error e d => .error e { s with disk := d }

def readStage {α : Type} (f : Tree → α) : Stage α := fun s => .ok (f s.disk) s

def record (f : StagedMerge → StagedMerge) : Stage Unit := fun s =>
  .ok () { s with work := f s.work }

/-- Move an existing entry to its trash name, clearing stale trash first. -/
def trashEntry (target : Place) : Stage Unit := do
  let trash := commitSidePath target "trash"
  let _ ← onStage (attempt (Io.removeEntry trash))
  onStage (Posix.Sys.rename target trash)
  record fun w => { w with deletes := w.deletes ++ [(trash, target)] }

/-- `StagedMerge::stage_delete`. -/
def stageDelete (target : Place) : Stage Unit := do
  let there ← readStage fun d => d.lexists target
  when there (trashEntry target)

/-- The part of `stage_copy` after a directory in the way has been moved aside. -/
def copyAside (rel : RelPath) (src dest : Place) : Stage Unit := do
  let tmp := commitSidePath dest "tmp"
  onStage (Io.copyEntry src tmp)
  let len ← readStage fun d => ((d.lstat src).toOption.map metaLen).getD 0
  record fun w =>
    { w with copies := w.copies ++ [(tmp, dest)], merged := w.merged ++ [rel], bytes := w.bytes + len }

/-- `StagedMerge::stage_copy`. -/
def stageCopy (destRoot : RelPath → Place) (rel : RelPath) (src : Place) : Stage Unit := do
  let dest := destRoot rel
  let isDir ← readStage fun d => (d.lkind dest).any Kind.isDir
  when isDir (stageDelete dest)
  copyAside rel src dest

/-- `StagedMerge::commit`: every copy into its place, then the trash away. -/
def publish : Stage Unit := fun s =>
  (do
    s.work.copies.forM fun c => onStage (Posix.Sys.rename c.1 c.2)
    s.work.deletes.forM fun t => onStage (Io.removeEntry t.1) : Stage Unit) s

/-- `Drop for StagedMerge`: errors are ignored, the trash goes back in the order it was made. -/
def rollback (s : Staging) : Tree :=
  after (do
    s.work.copies.forM fun c => do
      let _ ← attempt (Io.removeEntry c.1)
    s.work.deletes.forM fun t => do
      let _ ← attempt (Posix.Sys.rename t.1 t.2) : Io Unit) s.disk

/-- Stage `body` and publish it; a failure anywhere rolls back. -/
def runStaged {α : Type} (body : Stage α) : Io (α × List RelPath) := fun d =>
  match body (Staging.start d) with
  | .error e s => .error e (rollback s)
  | .ok a s =>
    match publish s with
    | .error e s' => .error e (rollback s')
    | .ok _ s' => .ok (a, s'.work.merged) s'.disk

end BranchFs
