/-
# BranchFs.Model.Faults -- copy-on-write with calls that fail

`ensure_delta_path_for_write` and `write_data_to_branch` once more, over a host on which `fs::copy` and
`fs::rename` may fail. A copy that fails may have made its destination, with part of the bytes in it. The
bodies are those of `Model.Cow` with the two calls exchanged; without a fault they are the same functions.
-/
import BranchFs.Model.Cow

namespace BranchFs

open BranchFs.Posix BranchFs.Logic

/-- The calls that fail: a copy before it made anything, or after it wrote some of the bytes; a
rename. -/
structure Faults where
  copy : Option (Option Nat)
  rename : Bool
  deriving DecidableEq, Repr

def Faults.absent : Faults := ⟨none, false⟩

namespace Faulty

variable (f : Faults)

/-- `fs::copy`. -/
def copyFile (src dst : Place) : Io Unit :=
  match f.copy with
  | none => Posix.Sys.copyFile src dst
  | some none => throw Errno.EIO
  | some (some k) => do
    let data ← Posix.Sys.readFile src
    Posix.Sys.writeFile dst (data.take k)
    throw Errno.EIO

/-- `fs::rename`. -/
def rename (s t : Place) : Io Unit := if f.rename then throw Errno.EIO else Posix.Sys.rename s t

def copyNode (src dst : Place) (n : Node String) : Io Unit :=
  match n.kind with
  | .symlink target => do
    let _ ← attempt (Posix.Sys.removeFile dst)
    Posix.Sys.symlink target dst
  | _ => copyFile f src dst

/-- `storage::copy_entry`. -/
def copyEntry (src dst : Place) : Io Unit := do
  Io.ensureParentDirs dst
  let n ← Io.symlinkMetadata src
  copyNode f src dst n

def copyUpNode (src delta : Place) (n : Node String) : Mgr Unit := do
  quotaCheck (metaLen n)
  onDisk (copyEntry f src delta)
  quotaAdd (metaLen n)

def copyUp (src delta : Place) : Mgr Unit := do
  let found ← readDisk fun d => d.lstat src
  match found with
  | .error _ => pure ()
  | .ok n => if n.kind.isDir then pure () else copyUpNode f src delta n

def copyUpInherited (delta : Place) : Option Place → Mgr Unit
  | none => pure ()
  | some src => copyUp f src delta

def touchAndCopyUp (branch : String) (p : RelPath) : Mgr Unit := do
  let inherited ← inheritedForTouch branch p
  recordFirstTouch branch p inherited true
  copyUpInherited f (deltaPath branch p) inherited

/-- `ensure_delta_path_for_write_locked`. -/
def ensureDeltaPathForWrite (branch : String) (p : RelPath) : Mgr Place := do
  let _ ← writableBranch branch
  let delta := deltaPath branch p
  let there ← readDisk fun d => d.lexists delta
  when (¬ there) (touchAndCopyUp f branch p)
  modifyBranch branch (Branch.removeTombstone p)
  onDisk (Io.ensureParentDirs delta)
  pure delta

/-- Build the written copy aside and move it into the delta; the aside copy goes on failure. -/
def stageWrite (branch : String) (src delta : Place) (offset : Nat) (data : Bytes) :
    Io (Nat × UInt64) := fun d =>
  let staging := stagingPath branch
  let work : Io (Nat × UInt64) := do
    copyFile f src staging
    let written ← writeDataToFile staging offset data
    let finalLen ← fun d =>
      match d.stat staging with
      | .ok n => .ok (metaLen n) d
      | .error e => .error e d
    rename f staging delta
    pure (written, finalLen)
  match work d with
  | .ok r d' => .ok r d'
  | .error e d' => .error e (after (Posix.Sys.removeFile staging) d')

def writeFirstCopy (branch : String) (p : RelPath) (src : Place) (srcLen : UInt64) (offset : Nat)
    (data : Bytes) : Mgr Nat := do
  let delta := deltaPath branch p
  quotaCheck (max srcLen (.ofNat (offset + data.length)))
  onDisk (Io.ensureParentDirs delta)
  let (written, finalLen) ← onDisk (stageWrite f branch src delta offset data)
  quotaAdd finalLen
  modifyBranch branch (Branch.removeTombstone p)
  pure written

def writeFirstNode (branch : String) (p : RelPath) (src : Place) (n : Node String) (offset : Nat)
    (data : Bytes) : Mgr Nat := do
  if n.kind.isFile then writeFirstCopy f branch p src (metaLen n) offset data
  else do
    when n.kind.isSymlink (copyUpNode f src (deltaPath branch p) n)
    writeFirstPlain branch p offset data

def writeFirst (branch : String) (p : RelPath) (offset : Nat) (data : Bytes) :
    Option Place → Mgr Nat
  | none => writeFirstPlain branch p offset data
  | some src => do
    let found ← readDisk fun d => d.lstat src
    match found with
    | .error _ => writeFirstPlain branch p offset data
    | .ok n => writeFirstNode f branch p src n offset data

def writeChecked (branch : String) (p : RelPath) (offset : Nat) (data : Bytes) : Mgr Nat := do
  let _ ← writableBranch branch
  let there ← readDisk fun d => d.lexists (deltaPath branch p)
  if there then writeInPlace branch p offset data
  else do
    let inherited ← inheritedForTouch branch p
    recordFirstTouch branch p inherited true
    writeFirst f branch p offset data inherited

/-- `write_data_to_branch`. -/
def writeDataToBranch (branch : String) (p : RelPath) (offset : Int) (data : Bytes) : Mgr Nat :=
  if offset < 0 then throw (.io .EINVAL)
  else if 2 ^ 64 ≤ offset.toNat + data.length then throw (.io .EFBIG)
  else writeChecked f branch p offset.toNat data

/-! ## Without a fault -/

theorem copyNode_absent (src dst : Place) (n : Node String) :
    copyNode .absent src dst n = Io.copyNode src dst n := by
  unfold copyNode Io.copyNode
  cases n.kind <;> rfl

theorem copyUpNode_absent (src delta : Place) (n : Node String) :
    copyUpNode .absent src delta n = BranchFs.copyUpNode src delta n := by
  unfold copyUpNode BranchFs.copyUpNode copyEntry Io.copyEntry
  simp only [copyNode_absent]

theorem copyUpInherited_absent (delta : Place) (inherited : Option Place) :
    copyUpInherited .absent delta inherited = BranchFs.copyUpInherited delta inherited := by
  cases inherited with
  | none => rfl
  | some src =>
    show copyUp .absent src delta = BranchFs.copyUp src delta
    unfold copyUp BranchFs.copyUp
    simp only [copyUpNode_absent] <;> rfl

/-- **Copy-on-write of a host without faults.** -/
theorem ensureDeltaPathForWrite_absent (branch : String) (p : RelPath) :
    ensureDeltaPathForWrite .absent branch p = BranchFs.ensureDeltaPathForWrite branch p := by
  unfold ensureDeltaPathForWrite BranchFs.ensureDeltaPathForWrite touchAndCopyUp
    BranchFs.touchAndCopyUp
  simp only [copyUpInherited_absent]

/-- Copy-on-write calls `fs::copy` and nothing else that may fail. -/
theorem ensureDeltaPathForWrite_copies {f : Faults} (h : f.copy = none) (branch : String)
    (p : RelPath) : ensureDeltaPathForWrite f branch p = BranchFs.ensureDeltaPathForWrite branch p := by
  obtain ⟨copy, rename⟩ := f
  obtain rfl : copy = none := h
  rw [← ensureDeltaPathForWrite_absent]
  rfl

/-- **The write of a host without faults.** -/
theorem writeDataToBranch_absent (branch : String) (p : RelPath) (offset : Int) (data : Bytes) :
    writeDataToBranch .absent branch p offset data =
      BranchFs.writeDataToBranch branch p offset data := by
  have hnode : ∀ src n o, writeFirstNode .absent branch p src n o data =
      BranchFs.writeFirstNode branch p src n o data := by
    intro src n o
    unfold writeFirstNode BranchFs.writeFirstNode
    simp only [copyUpNode_absent] <;> rfl
  have hfirst : ∀ o inherited, writeFirst .absent branch p o data inherited =
      BranchFs.writeFirst branch p o data inherited := by
    intro o inherited
    cases inherited with
    | none => rfl
    | some src =>
      unfold writeFirst BranchFs.writeFirst
      simp only [hnode] <;> rfl
  unfold writeDataToBranch BranchFs.writeDataToBranch writeChecked BranchFs.writeChecked
  simp only [hfirst]

end Faulty

end BranchFs
