/-
# BranchFs.Model.Modes -- the temporary modes of a merge

In the other models no mode keeps anybody out, so `StoreDirModeGuard` has nothing to do there. Here the
host is one tree from `/` whose directories have permission bits, and a directory's mode can be set when
every directory above it carries the owner's search bit. The calls of a staged merge act on this host: what
`stage_delete` and `stage_copy` do to it, and the renames and removals by which the merge is published or
rolled back. What the merge writes down of them is in `Model.Staged`.

Beside the tree stands a list of the directories that `set_permissions` was called on.
-/
import BranchFs.Logic.Effect
import BranchFs.Posix.Calls

namespace BranchFs.Modes

open BranchFs.Posix BranchFs.Logic

/-! ## The host -/

/-- A place of the host. -/
abbrev HostPath := Loc Unit String

/-- The place of an absolute path. -/
def hostPath (p : List String) : HostPath := ⟨some (), p⟩

/-- One tree, which hangs at `/`. -/
def hostLayout : Layout Unit String where
  mountPath _ := []
  mountAt p := if p = [] then some () else none
  hostDir p := p.isEmpty
  mountsIn _ := []
  mem_mountsIn := by simp
  hostDir_dropLast := by
    intro p hp
    rw [List.isEmpty_iff.mp hp]
    rfl
  hostDir_mountPath := fun _ => rfl
  hostDir_mountAt := by simp

/-- The host, its tree laid out as above. -/
structure Host where
  disk : Disk Unit String
  /-- The mode of `/`, for which the tree has no entry. -/
  rootMode : Nat
  /-- The directories that `set_permissions` was called on, in that order. -/
  chmods : List HostPath

abbrev Call := EStateM Errno Host

/-- `mode & 0o700 == 0o700`. -/
def ownerRwx (mode : Nat) : Bool := mode &&& 0o700 == 0o700

/-- The owner may search the directory. -/
def ownerSearch (mode : Nat) : Bool := mode &&& 0o100 == 0o100

namespace Host

def node (h : Host) (l : HostPath) : Option (Node String) :=
  if l = hostPath [] then some { Disk.rootNode with mode := h.rootMode } else h.disk.get l

def mode (h : Host) (l : HostPath) : Nat := ((h.node l).map Node.mode).getD 0

/-- Every directory above carries the owner's search bit. -/
def searchable (h : Host) (l : HostPath) : Bool := l.above.all fun a => ownerSearch (h.mode a)

def setMode (h : Host) (l : HostPath) (mode : Nat) : Host :=
  if l = hostPath [] then { h with rootMode := mode }
  else { h with disk := (h.disk.modify l fun n => { n with mode := mode }).tick }

/-- The node at a place that can be searched for. EPERM stands for EACCES as well. -/
def statAt (h : Host) (r : HostPath) : Except Errno (Node String) :=
  if h.searchable r then
    match h.node r with
    | some n => .ok n
    | none => .error .ENOENT
  else .error .EPERM

def isDirAt (h : Host) (r : HostPath) : Bool := (h.statAt r).toOption.any fun n => n.kind.isDir

/-- `symlink_metadata`. -/
def lstat (h : Host) (l : HostPath) : Except Errno (Node String) :=
  match h.disk.realpath l with
  | .ok r => h.statAt r
  | .error e => .error e

/-- `symlink_metadata().map(is_dir).unwrap_or(false)`. -/
def isDir (h : Host) (l : HostPath) : Bool := (h.lstat l).toOption.any fun n => n.kind.isDir

end Host

def readHost {α : Type} (f : Host → α) : Call α := fun h => .ok (f h) h

def atDisk {α : Type} (x : Sys Unit String α) : Call α := fun h =>
  match x h.disk with
  | .ok a d => .ok a { h with disk := d }
  | .error e d => .error e { h with disk := d }

/-- Act on the place a path names, its last component not followed. -/
def resolved {α : Type} (l : HostPath) (act : HostPath → Call α) : Call α := fun h =>
  match h.disk.realpath l with
  | .error e => .error e h
  | .ok r => act r h

def chmodAt (mode : Nat) (r : HostPath) : Call Unit := fun h =>
  let h' := { h with chmods := h.chmods ++ [r] }
  match h'.statAt r with
  | .error e => .error e h'
  | .ok _ => .ok () (h'.setMode r mode)

/-- `fs::set_permissions`. -/
def setPermissions (l : HostPath) (mode : Nat) : Call Unit := fun h =>
  match h.disk.realpathFollow l with
  | .error e => .error e h
  | .ok r => chmodAt mode r h

/-! ## Guards -/

def addOwnerRwxAt (r : HostPath) : Call (Option Nat) := fun h =>
  match h.statAt r with
  | .error e => .error e h
  | .ok n =>
    if n.kind.isDir ∧ ownerRwx n.mode = false then
      match chmodAt (n.mode ||| 0o700) r h with
      | .error e h' => .error e h'
      | .ok _ h' => .ok (some n.mode) h'
    else .ok none h

/-- `add_owner_rwx_if_dir`: the mode from before, if it was changed. A directory is found in the same place
by `symlink_metadata` and by `set_permissions`. -/
def addOwnerRwxIfDir (l : HostPath) : Call (Option Nat) := resolved l addOwnerRwxAt

structure StoreDirModeGuard where
  path : HostPath
  originalMode : Option Nat

/-- `StoreDirModeGuard::new`. -/
def StoreDirModeGuard.new (l : HostPath) : Call StoreDirModeGuard := do
  let mode ← addOwnerRwxIfDir l
  pure ⟨l, mode⟩

/-- `Drop for StoreDirModeGuard`. -/
def StoreDirModeGuard.drop (g : StoreDirModeGuard) : Call Unit :=
  match g.originalMode with
  | some mode => do
    let _ ← attempt (setPermissions g.path mode)
  | none => pure ()

/-- A vector drops its elements from the first to the last. -/
def dropAll (guards : List StoreDirModeGuard) : Call Unit := guards.forM StoreDirModeGuard.drop

/-- The loop of `guard_existing_parent_dirs`; a failure drops the guards taken so far. -/
def guardDirs : List HostPath → List StoreDirModeGuard → Call (List StoreDirModeGuard)
  | [], guards => pure guards
  | dir :: dirs, guards => fun h =>
    match h.lstat dir with
    | .ok n =>
      if n.kind.isDir then
        match StoreDirModeGuard.new dir h with
        | .ok g h' => guardDirs dirs (guards ++ [g]) h'
        | .error e h' => .error e (after (dropAll guards) h')
      else guardDirs dirs guards h
    | .error .ENOENT => guardDirs dirs guards h
    | .error e => .error e (after (dropAll guards) h)

/-- `guard_existing_parent_dirs`, from `/` down. -/
def guardExistingParentDirs (l : HostPath) : Call (List StoreDirModeGuard) := guardDirs l.above []

/-! ## Removing -/

/-- `make_branch_store_tree_removable`, at the place its path names: what is below is found from there. -/
def makeTreeRemovableAt : Nat → HostPath → Call Unit
  | 0, _ => pure ()
  | fuel + 1, r => fun h =>
    match h.statAt r with
    | .error .ENOENT => .ok () h
    | .error e => .error e h
    | .ok n =>
      if n.kind.isDir then
        (do
          let _ ← addOwnerRwxAt r
          let names ← readHost fun h => h.disk.children r
          names.forM fun name => do
            let isDir ← readHost fun h => h.isDirAt (r.child name)
            when (isDir = true) (makeTreeRemovableAt fuel (r.child name))) h
      else .ok () h

/-- What the kernel refuses during a call for reasons of its own: other permissions, space, the device. -/
structure Refusals where
  rename : Bool
  removeAll : Bool
  createDirs : Bool
  /-- A copy fails before it made anything, or after it wrote some of the bytes. -/
  copy : Option (Option Nat)
  deriving DecidableEq, Repr

def Refusals.absent : Refusals := ⟨false, false, false, none⟩

section Calls

variable (f : Refusals)

/-- `fs::remove_dir_all`. -/
def removeDirAll (l : HostPath) : Call Unit := do
  failIf (f.removeAll = true) Errno.EIO
  atDisk (Sys.removeDirAll l)

/-- `remove_branch_store_dir_all`. -/
def removeBranchStoreDirAll (l : HostPath) : Call Unit := fun h =>
  match h.lstat l with
  | .ok n =>
    if n.kind.isDir then
      (do
        resolved l (makeTreeRemovableAt (h.disk.height + 1))
        removeDirAll f l) h
    else atDisk (Sys.removeFile l) h
  | .error .ENOENT => .ok () h
  | .error e => .error e h

/-- `remove_entry`. -/
def removeEntry (l : HostPath) : Call Unit := fun h =>
  match h.lstat l with
  | .ok n => if n.kind.isDir then removeBranchStoreDirAll f l h else atDisk (Sys.removeFile l) h
  | .error .ENOENT => .ok () h
  | .error e => .error e h

/-- `fs::rename`. -/
def rename (s t : HostPath) : Call Unit := do
  failIf (f.rename = true) Errno.EIO
  atDisk (Sys.rename s t)

/-! ## Staging -/

/-- `commit_side_path`. -/
def commitSidePath (target : HostPath) (tag : String) : HostPath :=
  target.parent.child (".branchfs-" ++ tag ++ "." ++ target.path.getLastD "")

/-- `StagedMerge::stage_delete`. -/
def stageDelete (target : HostPath) : Call Unit := fun h =>
  match h.lstat target with
  | .error _ => .ok () h
  | .ok _ =>
    let trash := commitSidePath target "trash"
    (do
      let _ ← attempt (removeEntry f trash)
      rename f target trash) h

/-- `fs::copy`. -/
def copyFile (src dst : HostPath) : Sys Unit String Unit :=
  match f.copy with
  | none => Sys.copyFile src dst
  | some none => throw Errno.EIO
  | some (some k) => do
    let data ← Sys.readFile src
    Sys.writeFile dst (data.take k)
    throw Errno.EIO

def copyNode (src dst : HostPath) (n : Node String) : Sys Unit String Unit :=
  match n.kind with
  | .symlink target => do
    let _ ← attempt (Sys.removeFile dst)
    Sys.symlink target dst
  | _ => copyFile f src dst

/-- `storage::copy_entry`. -/
def copyEntry (src dst : HostPath) : Sys Unit String Unit := do
  failIf (f.createDirs = true) Errno.EIO
  Sys.createDirAll dst.parent
  let n ← fun d => fromExcept (d.lstat src) d
  copyNode f src dst n

/-- The part of `stage_copy` for which the guards are held. -/
def copyGuarded (src tmp : HostPath) : Call Unit := fun h =>
  match guardExistingParentDirs src h with
  | .error e h' => .error e h'
  | .ok guards h' =>
    match atDisk (copyEntry f src tmp) h' with
    | .error e h'' => .error e (after (dropAll guards) h'')
    | .ok _ h'' => .ok () (after (dropAll guards) h'')

/-- The part of `stage_copy` before: a directory in the way is moved aside. -/
def clearWay (dest : HostPath) : Call Unit := do
  let isDir ← readHost fun h => h.isDir dest
  when (isDir = true) (stageDelete f dest)

/-- `StagedMerge::stage_copy`. -/
def stageCopy (src dest : HostPath) : Call Unit := do
  clearWay f dest
  copyGuarded f src (commitSidePath dest "tmp")

end Calls

/-- The calls of a merge: while it is staged, and the removals and renames by which it is then published or
rolled back. -/
inductive MergeCall where
  | stageDelete (target : List String)
  | stageCopy (src dest : List String)
  | removeEntry (path : List String)
  | rename (s t : List String)

def MergeCall.run (f : Refusals) : MergeCall → Call Unit
  | .stageDelete target => Modes.stageDelete f (hostPath target)
  | .stageCopy src dest => Modes.stageCopy f (hostPath src) (hostPath dest)
  | .removeEntry path => Modes.removeEntry f (hostPath path)
  | .rename s t => Modes.rename f (hostPath s) (hostPath t)

structure MergeStep where
  call : MergeCall
  refusals : Refusals

/-- The host after a call, failed or not. -/
def mergeStep (h : Host) (s : MergeStep) : Host := after (s.call.run s.refusals) h

end BranchFs.Modes
