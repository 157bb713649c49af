/-
# BranchFs.Serve.Acts -- what a process does to its manager, one act at a time

A request checks first and changes later, a job runs long after the request that left it, and a kept
descriptor skips the checks. Each event of a process still comes down to a few acts of its manager, computed
here from what is asked and the state it is asked in; `trace` puts those of a run in a row.

An act checks what it needs on its own, so a request that is refused may still have one: it does nothing.
-/
import BranchFs.Logic.Drive
import BranchFs.Model.Process
import BranchFs.Mount.Follow

namespace BranchFs

open BranchFs.Posix BranchFs.Logic

/-! ## Acts -/

/-- An act of the manager: a step, a write through a descriptor that was kept, and a change of what a
mountpoint shows. -/
inductive Act where
  | op (op : Op)
  | through (h : FileHandle) (offset : Nat) (data : Bytes)
  | switch (mountpoint branch : String)
  | unmount (mountpoint : String)

/-- The state after an act, failed or not. -/
def act (m : Manager) : Act → Manager
  | .op op => step m op
  | .through h offset data => after (writeThrough h offset data) m
  | .switch mountpoint branch => { m with mountBranches :=
      (mountpoint, branch) :: m.mountBranches.filter fun b => b.1 != mountpoint }
  | .unmount mountpoint => { m with mountBranches := m.mountBranches.filter fun b => b.1 != mountpoint }

/-! ## Control -/

/-- How a branch ends. -/
inductive Finish where
  | commit (order : HashOrder)
  | abort

def Finish.op (branch : String) : Finish → Op
  | commit order => .commit order branch
  | abort => .abort branch

def Finish.run (branch : String) : Finish → Mgr String
  | commit order => commitBranch order branch
  | abort => BranchFs.abort branch

namespace Mount

/-- A mount that showed the branch shows its parent afterwards. -/
def finishActs (s : Mount) (branch : String) (f : Finish) : List Act :=
  .op (f.op branch) ::
    match f.run branch s.manager with
    | .ok parent m =>
      if branchName { s with manager := m } = branch then [.switch s.mountpoint parent] else []
    | .error _ _ => []

/-- The acts of a command written to the control file of the mount. -/
def rootCtlActs (s : Mount) : CtlCommand → List Act
  | .switch branch =>
    if branch = "" ∨ s.manager.isBranchValid branch = false then [] else [.switch s.mountpoint branch]
  | .create name => if name = "" then [] else [.op (.create name s.branchName .lazy [])]
  | .commit order => s.finishActs s.branchName (.commit order)
  | .abort => s.finishActs s.branchName .abort
  | .unknown => []

/-- The acts of a command written to the control file of a branch. -/
def branchCtlActs (s : Mount) (branch : String) : CtlCommand → List Act
  | .commit order => s.finishActs branch (.commit order)
  | .abort => s.finishActs branch .abort
  | .create name => if name = "" then [] else [.op (.create name branch .lazy [])]
  | _ => []

def ctlActs (s : Mount) (file : CtlFile) (command : CtlCommand) : List Act :=
  if s.exposeControl then
    match file with
    | .root => s.rootCtlActs command
    | .branch name => s.branchCtlActs name command
  else []

def ioctlActs (s : Mount) (ino : Nat) (command : IoctlCommand) : List Act :=
  match s.ctlFileOf ino with
  | none => []
  | some file =>
    match command with
    | .create name => [.op (.create name (file.about s) .lazy [])]
    | .commit order => [.op (.commit order (file.about s))]
    | .abort => [.op (.abort (file.about s))]
    | .unknown => []

/-! ## Names -/

/-- The path of a branch that a number stands for, if it is not the branch's own directory. -/
def denotesFile (s : Mount) (ino : Nat) : Option (String × RelPath) :=
  (s.inodes.getPath ino).bind fun path =>
    match classifyPath path with
    | .branchDir _ => none
    | .branchCtl _ => none
    | .branchPath branch rel => some (branch, rel)
    | .rootPath rel => some (s.branchName, rel)

/-- The act of a handler that makes an entry. -/
def makeActs (s : Mount) (parent : Nat) (op : RelPath → FileOp) : List Act :=
  match s.denotes parent with
  | some (branch, dir) => [.op (.file branch (op dir))]
  | none => []

def renameActs (s : Mount) (parent : Nat) (name : String) (newparent : Nat) (newname : String)
    (flags : RenameFlags) : List Act :=
  if flags.exchange then []
  else
    match renamePaths parent name newparent newname s with
    | .ok paths _ => [.op (.file paths.branch
        (.rename paths.src.dropLast name paths.dst.dropLast newname flags.noReplace))]
    | .error _ _ => []

/-- The size comes first; where it fails, nothing else is changed. -/
def attrActs (s : Mount) (branch : String) (rel : RelPath) (size : Option Nat) (a : SetAttr) : List Act :=
  let rest := if a.any then [.op (.file branch (.setattr rel a))] else []
  match size with
  | none => rest
  | some newSize =>
    .op (.file branch (.truncate rel newSize)) ::
      if Logic.succeeds (truncatePath branch rel newSize) s.manager then rest else []

def setattrActs (s : Mount) (ino : Nat) (size : Option Nat) (a : SetAttr) : List Act :=
  if (s.ctlFileOf ino).isSome then []
  else
    match s.denotesFile ino with
    | some (branch, rel) => s.attrActs branch rel size a
    | none => []

end Mount

/-! ## Writing -/

/-- The acts of a write to a path of a branch: one to a file without a delta is left to the worker. -/
def writeAtActs (m : Manager) (branch : String) (rel : RelPath) (offset : Int) (data : Bytes)
    (append : Bool) : List Act :=
  match effectiveWriteOffset append offset (if append then m.fileLen branch rel else none) with
  | .ok offset =>
    if m.branchHasDelta branch rel then [.op (.file branch (.write rel offset.toNat data))] else []
  | .error _ => []

namespace CachedMount

/-- The acts of a write that no descriptor is kept for. -/
def writeSlowActs (s : CachedMount) (ino : Nat) (offset : Int) (data : Bytes) (append : Bool) : List Act :=
  match s.mount.denotesFile ino with
  | none => []
  | some (branch, rel) => writeAtActs s.mount.manager branch rel offset data append

def writeFileActs (s : CachedMount) (ino : Nat) (offset : Int) (data : Bytes) (append : Bool) : List Act :=
  let m := s.mount.manager
  if m.isBranchValid s.mount.branchName = false ∨ offset < 0 then []
  else
    match s.writeCache.get ino m.epoch with
    | some h =>
      match effectiveWriteOffset append offset (some (handleLen m.disk h)) with
      | .ok offset => [.through h offset.toNat data]
      | .error _ => []
    | none => s.writeSlowActs ino offset data append

def writeActs (s : CachedMount) (ino : Nat) (offset : Int) (data : Bytes) (append : Bool)
    (command : CtlCommand) : List Act :=
  match s.mount.ctlFileOf ino with
  | some file => s.mount.ctlActs file command
  | none => s.writeFileActs ino offset data append

end CachedMount

/-! ## Events -/

/-- The acts of a request, of which most have none. -/
def Request.acts (s : CachedMount) : Request → List Act
  | write ino offset data append command => s.writeActs ino offset data append command
  | create parent name mode umask =>
    s.mount.makeActs parent fun dir => .create dir name (maskedMode mode umask)
  | mkdir parent name mode umask =>
    s.mount.makeActs parent fun dir => .mkdir dir name (maskedMode mode umask)
  | symlink parent name target => s.mount.makeActs parent fun dir => .symlink dir name target
  | rename parent name newparent newname flags => s.mount.renameActs parent name newparent newname flags
  | setattr ino size attr => s.mount.setattrActs ino size attr
  | ioctl ino command => s.mount.ioctlActs ino command
  | _ => []

/-- The act of a job. -/
def Job.act : Job → Act
  | write branch rel offset data => .op (.file branch (.writeByWorker rel offset data))
  | delete branch dir name _ _ => .op (.file branch (.unlink dir name))
  | rmdir branch dir name _ _ => .op (.file branch (.rmdir dir name))

namespace Process

/-- The acts of an event. -/
def acts (p : Process) : Event → List Act
  | .mount branch mountpoint _ =>
    if p.manager.isBranchValid branch then [.switch mountpoint branch] else []
  | .unmount mountpoint => [.unmount mountpoint]
  | .request i r =>
    match p.mountAt i with
    | some s => r.acts s
    | none => []
  | .work =>
    match p.queue with
    | [] => []
    | (i, job) :: _ => if (p.mountAt i).isSome then [job.act] else []
  | .manager op => [.op op]

/-- The acts of a run, in order. -/
def trace (p : Process) (events : List Event) : List Act := Logic.trace Process.step Process.acts p events

end Process

end BranchFs
