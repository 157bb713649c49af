/-
# BranchFs.Model.Cow -- first touches, copy-on-write, deletion, revert

The operations of `storage.rs` and of `branch.rs` that change one path of one branch. Each takes the
branch by name and checks that it is there and open. A first touch records what the branch inherited
at the path and, for text, the contents themselves, so that a later commit can tell whether the
parent has moved on and can merge.

`StoreDirModeGuard` and `make_branch_store_tree_removable` lift directory modes for the time of one
call and are not modelled: the modes of the model never refuse the daemon.
-/
import BranchFs.Model.Manager

namespace BranchFs

open BranchFs.Posix BranchFs.Logic

/-! ## `storage.rs` -/

namespace Io

open Posix.Sys

/-- `symlink_metadata`. -/
def symlinkMetadata (l : Place) : Io (Node String) := fun d =>
  match d.lstat l with
  | .ok n => .ok n d
  | .error e => .error e d

/-- `storage::ensure_parent_dirs`. -/
def ensureParentDirs (l : Place) : Io Unit := createDirAll l.parent

/-- The part of `copy_entry` after the directories are made: a link is made again, anything else
copied as a file. -/
def copyNode (src dst : Place) (n : Node String) : Io Unit :=
  match n.kind with
  | .symlink target => do
    let _ ← attempt (removeFile dst)
    symlink target dst
  | _ => copyFile src dst

/-- `storage::copy_entry`. -/
def copyEntry (src dst : Place) : Io Unit := do
  ensureParentDirs dst
  let n ← symlinkMetadata src
  copyNode src dst n

/-- `remove_entry`: nothing to do where nothing is. -/
def removeEntry (l : Place) : Io Unit := fun d =>
  match d.lstat l with
  | .ok n => if n.kind.isDir then removeDirAll l d else removeFile l d
  | .error .ENOENT => .ok () d
  | .error e => .error e d

end Io

/-! ## Text worth merging -/

/-- `MAX_TEXT_MERGE_BYTES`. -/
def maxTextMergeBytes : Nat := 1024 * 1024

/-- A continuation byte in `lo..=hi`. -/
def continues (lo hi : UInt8) (b : UInt8) : Bool := decide (lo ≤ b) && decide (b ≤ hi)

/-- `std::str::from_utf8` succeeds: no overlong forms, no surrogates, nothing above U+10FFFF. -/
def isUtf8 : Bytes → Bool
  | [] => true
  | a :: rest =>
    if a < 0x80 then isUtf8 rest
    else
      match rest with
      | [] => false
      | b :: rest₁ =>
        if 0xC2 ≤ a && a ≤ 0xDF then continues 0x80 0xBF b && isUtf8 rest₁
        else
          match rest₁ with
          | [] => false
          | c :: rest₂ =>
            if 0xE0 ≤ a && a ≤ 0xEF then
              continues (if a == 0xE0 then 0xA0 else 0x80) (if a == 0xED then 0x9F else 0xBF) b &&
                continues 0x80 0xBF c && isUtf8 rest₂
            else
              match rest₂ with
              | [] => false
              | e :: rest₃ =>
                0xF0 ≤ a && a ≤ 0xF4 &&
                  continues (if a == 0xF0 then 0x90 else 0x80) (if a == 0xF4 then 0x8F else 0xBF) b &&
                  continues 0x80 0xBF c && continues 0x80 0xBF e && isUtf8 rest₃

/-- `read_bounded_text`: the contents of a text file that is not too long. -/
def readBoundedText (l : Place) : Io (Option Bytes) := fun d =>
  match d.lstat l with
  | .error .ENOENT => .ok none d
  | .error e => .error e d
  | .ok n =>
    if !n.kind.isFile || decide (maxTextMergeBytes < (metaLen n).toNat) then .ok none d
    else
      match Posix.Sys.readFile l d with
      | .error e d' => .error e d'
      | .ok bytes d' => .ok (if bytes.contains 0 || !isUtf8 bytes then none else some bytes) d'

def hexDigit (n : Nat) : Char := ("0123456789abcdef".toList).getD n '0'

/-- `{:016x}`. -/
def hex16 (h : UInt64) : String :=
  String.ofList ((List.range 16).map fun i => hexDigit (h.toNat / 16 ^ (15 - i) % 16))

/-- `touch_content_key`: FNV-1a of the path's text. -/
def touchContentKey (p : RelPath) : String :=
  let hash := ((relText p).toList.flatMap String.utf8EncodeChar).foldl
    (fun (hash : UInt64) b => (hash ^^^ b.toUInt64) * 1099511628211) 14695981039346656037
  hex16 hash ++ ".base"

/-- `Branch::touch_content_path`. -/
def touchContentPath (branch key : String) : Place := ⟨some (.touchContent branch), [key]⟩

/-! ## First touches -/

/-- Keep the text of a touched file. -/
def keepBaseContent (branch : String) (p : RelPath) : Option Bytes → Mgr (Option String)
  | none => pure none
  | some bytes => do
    let key := touchContentKey p
    onDisk (Io.ensureParentDirs (touchContentPath branch key))
    onDisk (Posix.Sys.writeFile (touchContentPath branch key) bytes)
    pure (some key)

/-- The text a first touch keeps for a later merge. -/
def captureBaseContent (branch : String) (p : RelPath) : Option Place → Mgr (Option String)
  | none => pure none
  | some src => do
    let text ← onDisk (readBoundedText src)
    keepBaseContent branch p text

/-- The content kept with a record, where the caller asks for it. -/
def contentKey (branch : String) (p : RelPath) (inherited : Option Place) (capture : Bool) :
    Mgr (Option String) :=
  if capture then captureBaseContent branch p inherited else pure none

/-- Record what `branch` inherits at `p`. -/
def addTouchRecord (branch : String) (p : RelPath) (inherited : Option Place) (capture : Bool) :
    Mgr Unit := do
  let baseIdentity ← readDisk fun d => PathIdentity.fromPath d inherited
  let baseContentKey ← contentKey branch p inherited capture
  modifyBranch branch fun b =>
    { b with touches := ⟨p, baseIdentity, baseContentKey⟩ :: b.touches }

/-- `Branch::record_first_touch`: only the first touch of a path is recorded. -/
def recordFirstTouch (branch : String) (p : RelPath) (inherited : Option Place) (capture : Bool) :
    Mgr Unit := do
  let b ← getBranch branch
  if (b.getTouchRecord p).isSome then pure ()
  else addTouchRecord branch p inherited capture

/-- Look up what `branch` inherits at `p`, for a mutation of `p`. -/
def inheritedForTouch (branch : String) (p : RelPath) : Mgr (Option Place) := fun m =>
  match m.forest.get? branch with
  | none => .error (.notFound branch) m
  | some b => .ok (m.inheritedForTouch b p) m

/-- `Branch::read_touch_base_content`. -/
def readTouchBaseContent (branch : String) (record : TouchRecord) : Mgr (Option Bytes) :=
  match record.baseContentKey with
  | none => pure none
  | some key => fun m =>
    match Posix.Sys.readFile (touchContentPath branch key) m.disk with
    | .ok bytes d => .ok (some bytes) { m with disk := d }
    | .error .ENOENT d => .ok none { m with disk := d }
    | .error e d => .error (.io e) { m with disk := d }

/-! ## Copy-on-write -/

/-- Copy a file or link into the delta, charging the quota. -/
def copyUpNode (src delta : Place) (n : Node String) : Mgr Unit := do
  quotaCheck (metaLen n)
  onDisk (Io.copyEntry src delta)
  quotaAdd (metaLen n)

/-- Bring an inherited file or link into the delta. -/
def copyUp (src delta : Place) : Mgr Unit := do
  let found ← readDisk fun d => d.lstat src
  match found with
  | .error _ => pure ()
  | .ok n => if n.kind.isDir then pure () else copyUpNode src delta n

/-- Bring up whatever is inherited. -/
def copyUpInherited (delta : Place) : Option Place → Mgr Unit
  | none => pure ()
  | some src => copyUp src delta

/-- The first touch of a path that has no delta yet. -/
def touchAndCopyUp (branch : String) (p : RelPath) : Mgr Unit := do
  let inherited ← inheritedForTouch branch p
  recordFirstTouch branch p inherited true
  copyUpInherited (deltaPath branch p) inherited

/-- `ensure_delta_path_for_write_locked`. -/
def ensureDeltaPathForWrite (branch : String) (p : RelPath) : Mgr Place := do
  let _ ← writableBranch branch
  let delta := deltaPath branch p
  let there ← readDisk fun d => d.lexists delta
  when (¬ there) (touchAndCopyUp branch p)
  modifyBranch branch (Branch.removeTombstone p)
  onDisk (Io.ensureParentDirs delta)
  pure delta

/-! ## Writing -/

/-- `write_data_to_file`: write at an offset, creating the file but not truncating it. -/
def writeDataToFile (l : Place) (offset : Nat) (data : Bytes) : Io Nat := do
  let h ← Posix.Sys.openWrite l true false
  Posix.Sys.pwrite h offset data

/-- `Path::metadata().len()`. -/
def statLen (d : Tree) (l : Place) : Option UInt64 := (d.stat l).toOption.map metaLen

/-- `Branch::staging_path`; the source draws a fresh name each time and leaves none behind. -/
def stagingPath (branch : String) : Place := ⟨some (.staging branch), ["cow.tmp"]⟩

/-- Build the written copy aside and move it into the delta; the aside copy goes on failure. -/
def stageWrite (branch : String) (src delta : Place) (offset : Nat) (data : Bytes) :
    Io (Nat × UInt64) := fun d =>
  let staging := stagingPath branch
  let work : Io (Nat × UInt64) := do
    Posix.Sys.copyFile src staging
    let written ← writeDataToFile staging offset data
    let finalLen ← fun d =>
      match d.stat staging with
      | .ok n => .ok (metaLen n) d
      | .error e => .error e d
    Posix.Sys.rename staging delta
    pure (written, finalLen)
  match work d with
  | .ok r d' => .ok r d'
  | .error e d' => .error e (after (Posix.Sys.removeFile staging) d')

/-- `fs::metadata(path)?.len()`. -/
def lenAt (l : Place) : Io UInt64 := fun d =>
  match d.stat l with
  | .ok n => .ok (metaLen n) d
  | .error e => .error e d

theorem after_lenAt (l : Place) (d : Tree) : after (lenAt l) d = d := by
  unfold after lenAt
  cases d.stat l <;> rfl

/-- The calls of `stageWrite`, without the clean-up after a failure. -/
def stageWriteCalls (branch : String) (src delta : Place) (offset : Nat) (data : Bytes) :
    Io (Nat × UInt64) := do
  Posix.Sys.copyFile src (stagingPath branch)
  let written ← writeDataToFile (stagingPath branch) offset data
  let finalLen ← lenAt (stagingPath branch)
  Posix.Sys.rename (stagingPath branch) delta
  pure (written, finalLen)

theorem stageWrite_of_ok {branch : String} {src delta : Place} {offset : Nat} {data : Bytes}
    {r : Nat × UInt64} {d d' : Tree} (h : stageWriteCalls branch src delta offset data d = .ok r d') :
    stageWrite branch src delta offset data d = .ok r d' := by
  unfold stageWrite
  dsimp only
  split
  · next hrun => exact hrun.symm.trans h
  · next hrun => cases hrun.symm.trans h

theorem stageWrite_of_error {branch : String} {src delta : Place} {offset : Nat} {data : Bytes}
    {e : Errno} {d d' : Tree} (h : stageWriteCalls branch src delta offset data d = .error e d') :
    stageWrite branch src delta offset data d =
      .error e (after (Posix.Sys.removeFile (stagingPath branch)) d') := by
  unfold stageWrite
  dsimp only
  split
  · next hrun => cases hrun.symm.trans h
  · next hrun =>
    cases hrun.symm.trans h
    rfl

/-- The write of a path that inherits a file and has no delta yet. -/
def writeFirstCopy (branch : String) (p : RelPath) (src : Place) (srcLen : UInt64) (offset : Nat)
    (data : Bytes) : Mgr Nat := do
  let delta := deltaPath branch p
  quotaCheck (max srcLen (.ofNat (offset + data.length)))
  onDisk (Io.ensureParentDirs delta)
  let (written, finalLen) ← onDisk (stageWrite branch src delta offset data)
  quotaAdd finalLen
  modifyBranch branch (Branch.removeTombstone p)
  pure written

/-- The write through the delta path itself. -/
def writeInPlace (branch : String) (p : RelPath) (offset : Nat) (data : Bytes) : Mgr Nat := do
  let delta := deltaPath branch p
  modifyBranch branch (Branch.removeTombstone p)
  let oldSize ← readDisk fun d => (statLen d delta).getD 0
  let writeEnd : UInt64 := .ofNat (offset + data.length)
  when (writeEnd > oldSize) (quotaCheck (writeEnd - oldSize))
  let written ← onDisk (writeDataToFile delta offset data)
  let newSize ← readDisk fun d => (statLen d delta).getD oldSize
  when (newSize > oldSize) (quotaAdd (newSize - oldSize))
  pure written

/-- The write of a path without delta that inherits nothing to copy and write aside: whatever else
is inherited is brought up first. -/
def writeFirstPlain (branch : String) (p : RelPath) (offset : Nat) (data : Bytes) : Mgr Nat := do
  onDisk (Io.ensureParentDirs (deltaPath branch p))
  writeInPlace branch p offset data

/-- The write of a path without delta, by the kind of what it inherits. -/
def writeFirstNode (branch : String) (p : RelPath) (src : Place) (n : Node String) (offset : Nat)
    (data : Bytes) : Mgr Nat := do
  if n.kind.isFile then writeFirstCopy branch p src (metaLen n) offset data
  else do
    when n.kind.isSymlink (copyUpNode src (deltaPath branch p) n)
    writeFirstPlain branch p offset data

/-- The write of a path without delta. -/
def writeFirst (branch : String) (p : RelPath) (offset : Nat) (data : Bytes) :
    Option Place → Mgr Nat
  | none => writeFirstPlain branch p offset data
  | some src => do
    let found ← readDisk fun d => d.lstat src
    match found with
    | .error _ => writeFirstPlain branch p offset data
    | .ok n => writeFirstNode branch p src n offset data

/-- The body of `write_data_to_branch`, its arguments checked. -/
def writeChecked (branch : String) (p : RelPath) (offset : Nat) (data : Bytes) : Mgr Nat := do
  let _ ← writableBranch branch
  let there ← readDisk fun d => d.lexists (deltaPath branch p)
  if there then writeInPlace branch p offset data
  else do
    let inherited ← inheritedForTouch branch p
    recordFirstTouch branch p inherited true
    writeFirst branch p offset data inherited

/-- `write_data_to_branch`. -/
def writeDataToBranch (branch : String) (p : RelPath) (offset : Int) (data : Bytes) : Mgr Nat :=
  if offset < 0 then throw (.io .EINVAL)
  else if 2 ^ 64 ≤ offset.toNat + data.length then throw (.io .EFBIG)
  else writeChecked branch p offset.toNat data

/-! ## Deletion -/

/-- `prune_empty_delta_parents`: from a directory of the delta upwards, drop the empty ones no
touch record speaks of. -/
def pruneEmptyDeltaParents (branch : String) : (levels : Nat) → RelPath → Mgr Unit
  | 0, _ => pure ()
  | levels + 1, p => do
    let b ← getBranch branch
    if p.isEmpty || (b.getTouchRecord p).isSome then pure ()
    else
      match ← attempt (onDisk (Posix.Sys.removeDir (deltaPath branch p))) with
      | .ok _ => pruneEmptyDeltaParents branch levels p.dropLast
      | .error _ => pure ()

/-- Remove the entry of the delta at `p`, with the empty directories this leaves above. -/
def removeDeltaNode (branch : String) (p : RelPath) (n : Node String) : Mgr Unit := do
  let delta := deltaPath branch p
  let freed ← readDisk fun d => if n.kind.isDir then dirSize d delta else metaLen n
  onDisk (Io.removeEntry delta)
  quotaSub freed
  pruneEmptyDeltaParents branch p.length p.dropLast

/-- Remove what the delta holds at `p`, if anything. -/
def removeDelta (branch : String) (p : RelPath) : Mgr Unit := do
  let found ← readDisk fun d => d.lstat (deltaPath branch p)
  match found with
  | .error _ => pure ()
  | .ok n => removeDeltaNode branch p n

/-- The part `delete_path_in_branch` and `rmdir_path_in_branch` share: touch, remove the delta, and
leave a tombstone where something is inherited. -/
def deleteTouched (branch : String) (p : RelPath) : Mgr Unit := do
  let inherited ← inheritedForTouch branch p
  recordFirstTouch branch p inherited false
  removeDelta branch p
  if inherited.isSome then modifyBranch branch (Branch.addTombstone p)
  else modifyBranch branch (Branch.removeTombstone p)

/-- `delete_path_in_branch`. -/
def deletePathInBranch (branch : String) (p : RelPath) : Mgr Unit := do
  let _ ← writableBranch branch
  deleteTouched branch p

/-- The checks of `rmdir`: a visible directory with no visible entry. -/
def checkEmptyDir (branch : String) (p : RelPath) : Mgr Unit := fun m =>
  match m.resolved branch p with
  | none => .error (.io .ENOENT) m
  | some l =>
    match m.disk.lstat l with
    | .error e => .error (.io e) m
    | .ok n =>
      if !n.kind.isDir then .error (.io .ENOTDIR) m
      else if !(m.collected branch p).isEmpty then .error (.io .ENOTEMPTY) m
      else .ok () m

/-- `rmdir_path_in_branch`. -/
def rmdirPathInBranch (branch : String) (p : RelPath) : Mgr Unit := do
  let _ ← writableBranch branch
  checkEmptyDir branch p
  deleteTouched branch p

/-! ## Revert -/

/-- `remove_touch_records_under`, with the contents the records kept. -/
def removeTouchRecordsUnder (branch : String) (p : RelPath) : Mgr Unit := do
  let b ← getBranch branch
  let removed := b.touches.filter fun r => pathIsSameOrDescendant r.path p
  modifyBranch branch fun b =>
    { b with touches := b.touches.filter fun r => !pathIsSameOrDescendant r.path p }
  removed.forM fun record =>
    match record.baseContentKey with
    | none => pure ()
    | some key => fun m =>
      match Posix.Sys.removeFile (touchContentPath branch key) m.disk with
      | .ok _ d => .ok () { m with disk := d }
      | .error .ENOENT d => .ok () { m with disk := d }
      | .error e d => .error (.io e) { m with disk := d }

/-- `revert_path_in_branch`, for a path that `normalize_branch_rel_path` has put in canonical
form. -/
def revertPathInBranch (branch : String) (p : RelPath) : Mgr Unit := do
  failIf p.isEmpty (.invalid "cannot revert the branch root")
  let _ ← writableBranch branch
  removeDelta branch p
  modifyBranch branch (Branch.removeTombstonesUnder p)
  removeTouchRecordsUnder branch p
  bumpEpoch

end BranchFs
