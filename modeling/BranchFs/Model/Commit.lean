/-
# BranchFs.Model.Commit -- create, commit, abort, freeze

The branch life cycle of `branch.rs`. A commit compares what the parent holds now with what the
branch saw at its first touches (`detect`), merges text where it can, and then applies tombstones and
delta files through a `StagedMerge`: to the base directory when the parent is `main`, to the
parent's delta otherwise.
-/
import BranchFs.Model.Staged
import BranchFs.Model.TextMerge
import Mathlib.Data.List.Sort

namespace BranchFs

open BranchFs.Posix BranchFs.Logic

/-- The order in which a hash set hands out its elements. -/
structure HashOrder where
  iter : List RelPath → List RelPath
  perm : ∀ l, (iter l).Perm l

/-! ## Creation -/

/-- `validate_branch_name`; the error carries the source's message. -/
def validateBranchName (name : String) : Except BranchError Unit :=
  if name = "" then .error (.invalid "branch name cannot be empty")
  else if name = "." ∨ name = ".." then
    .error (.invalid ("'" ++ name ++ "' is not a valid branch name"))
  else if name.toList.contains '/' ∨ name.toList.contains '\x00' then
    .error (.invalid "branch name cannot contain '/' or null bytes")
  else if startsWith name "@" then
    .error (.invalid "branch name cannot start with '@' (reserved for virtual paths)")
  else if 255 < name.utf8ByteSize then
    .error (.invalid "branch name cannot exceed 255 characters")
  else .ok ()

/-- `snapshot_visible_dir`: copy what the branch shows below `p`. -/
def snapshotVisibleDir (m : Manager) (source name : String) : (fuel : Nat) → RelPath → Io Unit
  | 0, _ => throw .ELOOP
  | fuel + 1, p => do
    let names := fun d : Tree => ({ m with disk := d }.collected source p).insertionSort (· ≤ ·)
    (← fun d => .ok (names d) d : List String).forM fun n => do
      let child := p ++ [n]
      match ← fun d => .ok ({ m with disk := d }.resolved source child) d with
      | none => pure ()
      | some src => do
        let node ← Io.symlinkMetadata src
        let dst := inheritedPath name child
        if node.kind.isDir then
          Posix.Sys.createDirAll dst
          Posix.Sys.setPermissions dst node.mode
          snapshotVisibleDir m source name fuel child
        else Io.copyEntry src dst

/-- `snapshot_visible_tree`, into the emptied `inherited` directory of the new branch. -/
def snapshotVisibleTree (source name : String) : Mgr Unit := fun m =>
  let m := { m with disk := m.disk.purge fun r => r == some (.inherited name) }
  onDisk (snapshotVisibleDir m source name
    ((m.disk.height + 1) * (m.forest.list.length + 1)) []) m

/-- The trees of a branch's store. -/
def ofBranch (name : String) (r : Option Root) : Bool := (r.bind Root.owner) == some name

/-- `remove_branch_store_dir_all` of a branch directory. -/
def removeStore (name : String) : Mgr Unit := fun m =>
  .ok () { m with disk := m.disk.purge (ofBranch name) }

/-- `Branch::new`. -/
def newBranch (name parent : String) (parentVersion : Nat) (inheritance : InheritanceMode)
    (hidePaths : List String) : Branch where
  name := name
  parent := some parent
  inheritance := inheritance
  state := .open
  tombstones := []
  touches := []
  commitCount := 0
  parentVersionAtFork := parentVersion
  hidePaths := hidePaths.filterMap normalizeHidePath

/-- `branches.insert`. -/
def insertBranch (b : Branch) (parent : String) : Mgr Unit := fun m =>
  if h : b.parent = some parent ∧ m.forest.get? parent ≠ none ∧ m.forest.get? b.name = none then
    .ok () { m with forest := m.forest.fork b parent h }
  else .error (.alreadyExists b.name) m

/-- The snapshot of a new branch; its store goes when the copy fails. -/
def takeSnapshot (parent name : String) : Mgr Unit := do
  match ← attempt (snapshotVisibleTree parent name) with
  | .ok _ => pure ()
  | .error e => do
    removeStore name
    throw e

/-- `create_branch_with_options`. -/
def createBranchWithOptions (name parent : String) (inheritance : InheritanceMode)
    (hidePaths : List String) : Mgr Unit := do
  fromExcept (validateBranchName name)
  let taken ← fun m => .ok (m.isBranchValid name) m
  failIf taken (.alreadyExists name)
  let parentBranch ← fun m =>
    match m.forest.get? parent with
    | some b => .ok b m
    | none => .error (.parentNotFound parent) m
  let branch := newBranch name parent parentBranch.commitCount inheritance hidePaths
  when (inheritance = .snapshot) (takeSnapshot parent name)
  insertBranch branch parent
  bumpEpoch

/-- `freeze_branch` and `thaw_branch`. -/
def setBranchState (name : String) (state : BranchState) : Mgr Unit := do
  failIf (name = "main") .cannotOperateOnMain
  let _ ← getBranch name
  modifyBranch name fun b => { b with state := state }
  bumpEpoch

def freezeBranch (name : String) : Mgr Unit := setBranchState name .frozen

def thawBranch (name : String) : Mgr Unit := setBranchState name .open

/-! ## The delta files of a branch -/

/-- `walk_files`: every entry below `dir` that is no directory, with its path from the start. -/
def walkFilesFrom (d : Tree) : (fuel : Nat) → Place → RelPath → List (RelPath × Place)
  | 0, _, _ => []
  | fuel + 1, dir, rel =>
    if (d.lkind dir).any Kind.isDir then
      ((d.readDir dir).toOption.getD []).flatMap fun n =>
        let path := dir.child n
        if (d.lkind path).any Kind.isDir then walkFilesFrom d fuel path (rel ++ [n])
        else [(rel ++ [n], path)]
    else []

/-- The delta files of a branch; no path is longer than the disk is high. -/
def walkFiles (d : Tree) (branch : String) : List (RelPath × Place) :=
  walkFilesFrom d (d.height + 1) (deltaPath branch []) []

/-! ## Detection -/

/-- What the record of a path says, or that nothing was there. -/
def Branch.touchRecordOrMissing (b : Branch) (p : RelPath) : TouchRecord :=
  (b.getTouchRecord p).getD ⟨p, PathIdentity.missing, none⟩

/-- What the commit takes to be the parent's version of `p`. -/
def Manager.currentParentPath (m : Manager) (b : Branch) (p : RelPath) : Option Place :=
  if b.isHidden p then none else m.inheritedResolve b p

def Manager.currentIdentity (m : Manager) (b : Branch) (p : RelPath) : PathIdentity :=
  PathIdentity.fromPath m.disk (m.currentParentPath b p)

/-- The conflict record of a path. -/
def mkConflict (p : RelPath) (action : String) (first commit : PathIdentity) : CommitConflict where
  path := p
  sessionAction := action
  resolution := "session_won"
  reason := "parent_changed_after_first_touch"
  baseAtFirstTouch := first
  baseAtCommit := commit

/-- The tombstones the parent has moved on from. -/
def tombstoneConflicts (m : Manager) (b : Branch) (tombstones : List RelPath) :
    List CommitConflict :=
  tombstones.filterMap fun p =>
    let first := (b.touchRecordOrMissing p).baseAtFirstTouch
    let current := m.currentIdentity b p
    if first ≠ current then some (mkConflict p "delete" first current) else none

/-- Where a merged file is built. -/
def mergedPath (branch : String) (p : RelPath) : Place :=
  ⟨some (.mergeContent branch), [touchContentKey p]⟩

/-- What the detection has found: outcome so far, and the sources the merge replaces. -/
structure Report where
  autoMerges : List CommitAutoMerge
  conflicts : List CommitConflict
  sources : List (RelPath × Place)

/-- The merged text of a file both sides changed, if it merges. -/
def mergedText (b : Branch) (p : RelPath) (src : Place) : Mgr (Option Bytes) := do
  let m ← get
  let baseBytes ← readTouchBaseContent b.name (b.touchRecordOrMissing p)
  let sessionBytes ← onDisk (readBoundedText src)
  match baseBytes, m.currentParentPath b p, sessionBytes with
  | some base, some currentPath, some session => do
    match ← onDisk (readBoundedText currentPath) with
    | none => pure none
    | some current =>
      match tryThreeWayTextMerge base current session with
      | .ok merged => pure merged
      | .error _ => throw .panicked
  | _, _, _ => pure none

/-- The merge a changed path gets, both sides being files. -/
def mergeAttempt (b : Branch) (p : RelPath) (src : Place) (first current : PathIdentity) :
    Mgr (Option Bytes) :=
  if first.kind = .file ∧ current.kind = .file then mergedText b p src else pure none

/-- One delta file of the detection. -/
def detectFile (b : Branch) (p : RelPath) (src : Place) (r : Report) : Mgr Report := do
  let m ← get
  let first := (b.touchRecordOrMissing p).baseAtFirstTouch
  let current := m.currentIdentity b p
  if first = current then pure r
  else do
    let merged ← mergeAttempt b p src first current
    match merged with
    | some bytes => do
      onDisk (Io.ensureParentDirs (mergedPath b.name p))
      onDisk (Posix.Sys.writeFile (mergedPath b.name p) bytes)
      pure { r with
        autoMerges := r.autoMerges ++ [⟨p, "clean_text_merge"⟩]
        sources := r.sources ++ [(p, mergedPath b.name p)] }
    | none =>
      let action := if first.exists then "modify" else "create"
      pure { r with conflicts := r.conflicts ++ [mkConflict p action first current] }

def detectFiles (b : Branch) : List (RelPath × Place) → Report → Mgr Report
  | [], r => pure r
  | (p, src) :: rest, r => do
    let r' ← detectFile b p src r
    detectFiles b rest r'

/-- The conflict detection of `commit_with_report`, when the parent has changed. -/
def detect (b : Branch) (tombstones : List RelPath) (files : List (RelPath × Place)) :
    Mgr Report := do
  let m ← get
  detectFiles b files ⟨[], tombstoneConflicts m b tombstones, []⟩

/-! ## Application -/

/-- The source a delta file is committed from. -/
def Report.sourceOf (r : Report) (f : RelPath × Place) : Place := (r.sources.lookup f.1).getD f.2

/-- The copies of a commit. -/
def stageCopies (destRoot : RelPath → Place) (r : Report) (files : List (RelPath × Place)) :
    Stage Unit :=
  files.forM fun f => stageCopy destRoot f.1 (r.sourceOf f)

/-- The staging of a commit into the base directory. -/
def stageIntoBase (r : Report) (tombstones : List RelPath) (files : List (RelPath × Place)) :
    Stage Unit := do
  tombstones.forM fun p => stageDelete (basePath p)
  stageCopies basePath r files

/-- `branches.remove` and the removal of the store. -/
def removeBranch (name : String) : Mgr Unit := fun m =>
  if h : m.forest.isLeaf name = true ∧ name ≠ "main" then
    .ok () { m with forest := m.forest.remove name h, disk := m.disk.purge (ofBranch name) }
  else .error (.notALeaf name) m

def countCommit (parent : String) : Mgr Unit :=
  modifyBranch parent fun b => { b with commitCount := b.commitCount + 1 }

/-- `main`'s own delta no longer shadows what was committed. -/
def dropMainDelta (paths : List RelPath) : Mgr Unit :=
  paths.forM fun p => do
    let _ ← attempt (onDisk (Io.removeEntry (deltaPath "main" p)))

/-- A commit whose parent is `main`. -/
def commitIntoBase (name : String) (r : Report) (tombstones : List RelPath)
    (files : List (RelPath × Place)) : Mgr Unit := do
  let (_, committed) ← onDisk (runStaged (stageIntoBase r tombstones files))
  dropMainDelta (committed ++ tombstones)
  countCommit "main"
  removeBranch name
  bumpEpoch

/-- What the deletions of a nested commit leave to do: the parent's tombstones, and the directories
a deletion may have emptied. -/
structure NestedWork where
  tombstones : List RelPath
  emptied : List RelPath

def insertTombstone (ts : List RelPath) (p : RelPath) : List RelPath :=
  if ts.contains p then ts else p :: ts

def dropTombstone (ts : List RelPath) (p : RelPath) : List RelPath := ts.filter (· ≠ p)

/-- One tombstone of a nested commit. -/
def stageParentDelete (m : Manager) (parent : Branch) (p : RelPath) (w : NestedWork) :
    Stage NestedWork := do
  let there ← readStage fun d => d.lexists (deltaPath parent.name p)
  let inherited ← readStage fun d => { m with disk := d }.inheritedPathExists parent p
  stageDelete (deltaPath parent.name p)
  pure {
    tombstones := if inherited then insertTombstone w.tombstones p else dropTombstone w.tombstones p
    emptied := if there then w.emptied ++ [p.dropLast] else w.emptied }

def stageParentDeletes (m : Manager) (parent : Branch) : List RelPath → NestedWork →
    Stage NestedWork
  | [], w => pure w
  | p :: rest, w => do
    let w' ← stageParentDelete m parent p w
    stageParentDeletes m parent rest w'

/-- The staging of a commit into the parent's delta. -/
def stageIntoParent (m : Manager) (parent : Branch) (r : Report) (tombstones : List RelPath)
    (files : List (RelPath × Place)) : Stage NestedWork := do
  let w ← stageParentDeletes m parent tombstones ⟨parent.tombstones, []⟩
  stageCopies (deltaPath parent.name) r files
  pure w

/-- A commit whose parent is a branch other than `main`. -/
def commitIntoParent (name : String) (parent : Branch) (r : Report) (tombstones : List RelPath)
    (files : List (RelPath × Place)) : Mgr Unit := do
  let m ← get
  let (w, copied) ← onDisk (runStaged (stageIntoParent m parent r tombstones files))
  w.emptied.forM fun dir => pruneEmptyDeltaParents parent.name dir.length dir
  modifyBranch parent.name fun b =>
    { b with tombstones := copied.foldl dropTombstone w.tombstones }
  countCommit parent.name
  removeBranch name
  bumpEpoch

/-- The checks `commit_with_report` and `abort` share: a leaf other than `main`, with its parent. -/
def finalizable (name : String) : Mgr (Branch × Branch) := fun m =>
  if name = "main" then .error .cannotOperateOnMain m
  else
    match m.forest.get? name with
    | none => .error (.notFound name) m
    | some b =>
      if !m.forest.isLeaf name then .error (.notALeaf name) m
      else
        match b.parent with
        | none => .error (.notFound name) m
        | some parent =>
          match m.forest.get? parent with
          | none => .error (.notFound parent) m
          | some q => .ok (b, q) m

/-- The report of a commit: nothing is looked at while the parent's counter has not moved. -/
def reportFor (b parent : Branch) (tombstones : List RelPath) (files : List (RelPath × Place)) :
    Mgr Report :=
  if parent.commitCount ≠ b.parentVersionAtFork then detect b tombstones files
  else pure ⟨[], [], []⟩

/-- The application of a commit, by where it goes. -/
def applyCommit (name : String) (parent : Branch) (report : Report) (tombstones : List RelPath)
    (files : List (RelPath × Place)) : Mgr Unit :=
  if parent.name = "main" then commitIntoBase name report tombstones files
  else commitIntoParent name parent report tombstones files

/-- `commit_with_report`. -/
def commitWithReport (order : HashOrder) (name : String) : Mgr CommitOutcome := do
  let (b, parent) ← finalizable name
  let tombstones := order.iter b.tombstones
  let files ← readDisk fun d => walkFiles d name
  let report ← reportFor b parent tombstones files
  applyCommit name parent report tombstones files
  pure ⟨parent.name, report.autoMerges, report.conflicts⟩

/-- `abort`. -/
def abort (name : String) : Mgr String := do
  let (_, parent) ← finalizable name
  removeBranch name
  pure parent.name

end BranchFs
