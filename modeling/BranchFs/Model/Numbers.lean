/-
# BranchFs.Model.Numbers -- inode numbers as the code counts them

`InodeManager` of `inode.rs` with its two maps and its counter kept apart, and the numbers of the control
files of branches beside it, all of them `u64`: a counter goes on from `u64::MAX` with 0. `Model.Inodes`
and `Model.Mount` have the two maps as one table and the counters as natural numbers.

A text is what the code keeps of a path here, so any text may stand for one.
-/
import BranchFs.Model.Mount
import Mathlib.Data.List.AList

namespace BranchFs.Numbers

open BranchFs.Logic

/-! ## The inode table -/

structure InodeInfo where
  ino : UInt64
  path : String
  isDir : Bool
  deriving DecidableEq, Repr

structure InodeManager where
  nextIno : UInt64
  pathToIno : AList fun _ : String => UInt64
  inoToInfo : AList fun _ : UInt64 => InodeInfo

/-- `ROOT_INO`. -/
def rootIno : UInt64 := 1

namespace InodeManager

def rootPath : String := "/"

/-- `InodeManager::new`. -/
def new : InodeManager where
  nextIno := rootIno + 1
  pathToIno := (∅ : AList fun _ : String => UInt64).insert rootPath rootIno
  inoToInfo := (∅ : AList fun _ : UInt64 => InodeInfo).insert rootIno ⟨rootIno, rootPath, true⟩

/-- `get_ino`. -/
def getIno (t : InodeManager) (path : String) : Option UInt64 := t.pathToIno.lookup path

/-- `get_info`. -/
def getInfo (t : InodeManager) (ino : UInt64) : Option InodeInfo := t.inoToInfo.lookup ino

/-- `get_path`. -/
def getPath (t : InodeManager) (ino : UInt64) : Option String := (t.getInfo ino).map InodeInfo.path

/-- `get_or_create`. -/
def getOrCreate (t : InodeManager) (path : String) (isDir : Bool) : UInt64 × InodeManager :=
  match t.pathToIno.lookup path with
  | some ino => (ino, t)
  | none =>
    (t.nextIno,
      { nextIno := t.nextIno + 1
        pathToIno := t.pathToIno.insert path t.nextIno
        inoToInfo := t.inoToInfo.insert t.nextIno ⟨t.nextIno, path, isDir⟩ })

/-- `remove`. -/
def remove (t : InodeManager) (path : String) : InodeManager :=
  match t.pathToIno.lookup path with
  | some ino =>
    { t with
      pathToIno := t.pathToIno.erase path
      inoToInfo := t.inoToInfo.erase ino }
  | none => t

/-- `clear_prefix`. -/
def clearPrefix (t : InodeManager) (order : MapOrder) (pre : String) : InodeManager :=
  ((order.iter t.pathToIno.keys).filter (startsWith · pre)).foldl remove t

/-- `clear`; the numbering goes on. -/
def clear (t : InodeManager) : InodeManager where
  nextIno := t.nextIno
  pathToIno := (∅ : AList fun _ : String => UInt64).insert rootPath rootIno
  inoToInfo := (∅ : AList fun _ : UInt64 => InodeInfo).insert rootIno ⟨rootIno, rootPath, true⟩

end InodeManager

/-- The calls that change the table. -/
inductive TableCall where
  | getOrCreate (path : String) (isDir : Bool)
  | remove (path : String)
  | clearPrefix (order : MapOrder) (pre : String)
  | clear

def InodeManager.call (t : InodeManager) : TableCall → InodeManager
  | .getOrCreate path isDir => (t.getOrCreate path isDir).2
  | .remove path => t.remove path
  | .clearPrefix order pre => t.clearPrefix order pre
  | .clear => t.clear

/-- The table after a sequence of calls. -/
def tableAfter (calls : List TableCall) : InodeManager := run InodeManager.call .new calls

/-! ## Control files -/

/-- The tables of a mount that inode numbers come from. -/
structure MountNumbers where
  inodes : InodeManager
  branchCtlInodes : AList fun _ : String => UInt64
  nextCtlIno : UInt64

/-- `CTL_INO`, `u64::MAX - 1`. -/
def ctlIno : UInt64 := 0xFFFFFFFFFFFFFFFF - 1

namespace MountNumbers

/-- `BranchFs::new`. -/
def new : MountNumbers where
  inodes := .new
  branchCtlInodes := ∅
  nextCtlIno := 0xFFFFFFFFFFFFFFFF - 1000000

/-- `get_or_create_branch_ctl_ino`. -/
def getOrCreateBranchCtlIno (s : MountNumbers) (branch : String) : UInt64 × MountNumbers :=
  match s.branchCtlInodes.lookup branch with
  | some ino => (ino, s)
  | none =>
    (s.nextCtlIno,
      { s with
        branchCtlInodes := s.branchCtlInodes.insert branch s.nextCtlIno
        nextCtlIno := s.nextCtlIno + 1 })

/-- `branch_for_ctl_ino`: the first branch of the map that has the number. -/
def branchForCtlIno (s : MountNumbers) (order : MapOrder) (ino : UInt64) : Option String :=
  (order.iter s.branchCtlInodes.keys).find? fun name => s.branchCtlInodes.lookup name == some ino

/-- The control file `write` takes a number for. -/
def ctlFileOf (s : MountNumbers) (order : MapOrder) (ino : UInt64) : Option CtlFile :=
  if ino = ctlIno then some .root else (s.branchForCtlIno order ino).map .branch

end MountNumbers

/-- The calls that hand out numbers of a mount, or take them back. -/
inductive NumberCall where
  | table (call : TableCall)
  | ctl (branch : String)

def MountNumbers.call (s : MountNumbers) : NumberCall → MountNumbers
  | .table c => { s with inodes := s.inodes.call c }
  | .ctl branch => (s.getOrCreateBranchCtlIno branch).2

/-- The tables after a sequence of calls. -/
def numbersAfter (calls : List NumberCall) : MountNumbers := run MountNumbers.call .new calls

end BranchFs.Numbers
