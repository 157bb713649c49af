/-
# BranchFs.Model.Mount -- a mount: names, listings, control

The state of a `BranchFs` and its handlers for names, listings and control commands. An inode path is
classified by its first name (`classifyPath`): `/@b` and what is below belongs to the branch `b`,
anything else to the branch the mount shows. The manager is part of the state, as no other thread runs
inside one request.

Control commands come decoded; the descriptor caches, owner ids and the passthrough are not part of
this state.
-/
import BranchFs.Model.Inodes
import BranchFs.Model.Ops

namespace BranchFs

open BranchFs.Posix BranchFs.Logic

/-- `CTL_INO`, `u64::MAX - 1`. -/
def ctlIno : Nat := 2 ^ 64 - 2

/-- `CTL_FILE`. -/
def ctlFile : String := ".branchfs_ctl"

/-- `fuser::FileType`, as far as it is reported. -/
inductive FileType where
  | directory
  | symlink
  | regularFile
  deriving DecidableEq, Repr

/-! ## Classification -/

/-- `PathContext`. -/
inductive PathContext where
  | branchDir (branch : String)
  | branchCtl (branch : String)
  | branchPath (branch : String) (rel : RelPath)
  | rootPath (rel : RelPath)
  deriving DecidableEq, Repr

/-- `strip_prefix('@')`. -/
def stripAt (name : String) : Option String :=
  match name.toList with
  | '@' :: rest => some (String.ofList rest)
  | _ => none

/-- `classify_path`. -/
def classifyPath : RelPath → PathContext
  | [] => .rootPath []
  | n :: rest =>
    match stripAt n with
    | none => .rootPath (n :: rest)
    | some branch =>
      if rest = [] then .branchDir branch
      else if rest = [ctlFile] then .branchCtl branch
      else .branchPath branch rest

/-- The name of the virtual directory of a branch. -/
def atName (branch : String) : String := "@" ++ branch

/-! ## The mount -/

structure Mount where
  manager : Manager
  inodes : InodeManager
  mountpoint : String
  currentEpoch : Nat
  branchCtlInodes : List (String × Nat)
  nextCtlIno : Nat
  exposeControl : Bool

/-- A request in progress: it may reply an errno. -/
abbrev MountReq := EStateM Errno Mount

namespace Mount

/-- `BranchFs::new`. -/
def new (manager : Manager) (mountpoint : String) (exposeControl : Bool) : Mount where
  manager := manager
  inodes := .new
  mountpoint := mountpoint
  currentEpoch := manager.epoch
  branchCtlInodes := []
  nextCtlIno := 2 ^ 64 - 1 - 1000000
  exposeControl := exposeControl

/-- `get_branch_name`: the branch the mount shows. -/
def branchName (s : Mount) : String := (s.manager.mountBranches.lookup s.mountpoint).getD "main"

/-- `resolve_for_branch`. -/
def resolveForBranch (s : Mount) (branch : String) (p : RelPath) : Option Place :=
  (s.manager.resolvePath branch p).toOption.join

/-- The file type `make_attr` reports. -/
def attrKind (d : Tree) (l : Place) : Option FileType :=
  (d.lkind l).map fun
    | .dir => .directory
    | .symlink _ => .symlink
    | .file _ => .regularFile

end Mount

/-! ## Parts of the handlers -/

/-- `is_stale`: the mount takes over the manager's epoch, and is stale when its branch is gone. -/
def isStale : MountReq Bool := fun s =>
  .ok (!s.manager.isBranchValid s.branchName) { s with currentEpoch := s.manager.epoch }

def failWhenStale : MountReq Unit := do
  let stale ← isStale
  failIf stale .ESTALE

/-- The path of a known inode. -/
def inodePath (ino : Nat) : MountReq RelPath := fun s =>
  match s.inodes.getPath ino with
  | some p => .ok p s
  | none => .error .ENOENT s

def needBranch (branch : String) : MountReq Unit := fun s =>
  if s.manager.isBranchValid branch then .ok () s else .error .ENOENT s

/-- `inodes.get_or_create`. -/
def inodeFor (path : RelPath) (isDir : Bool) : MountReq Nat := fun s =>
  let (ino, inodes) := s.inodes.getOrCreate path isDir
  .ok ino { s with inodes := inodes }

/-- `get_or_create_branch_ctl_ino`. -/
def ctlInodeFor (branch : String) : MountReq Nat := fun s =>
  match s.branchCtlInodes.lookup branch with
  | some ino => .ok ino s
  | none =>
    .ok s.nextCtlIno { s with
      branchCtlInodes := (branch, s.nextCtlIno) :: s.branchCtlInodes
      nextCtlIno := s.nextCtlIno + 1 }

/-- The entry of a path that resolves: its number, and the type of what it resolves to. -/
def replyEntry (branch : String) (rel inode : RelPath) : MountReq (Nat × FileType) := do
  let s ← get
  match s.resolveForBranch branch rel with
  | none => throw .ENOENT
  | some l => do
    let ino ← inodeFor inode ((s.manager.disk.lkind l).any Kind.isDir)
    match Mount.attrKind s.manager.disk l with
    | some kind => pure (ino, kind)
    | none => throw .ENOENT

/-! ## Lookup -/

/-- A name below `parent`, which is the branch directory itself or deeper. -/
def lookupInBranch (branch : String) (parent : RelPath) (name : String) :
    MountReq (Nat × FileType) := do
  let s ← get
  if s.exposeControl ∧ parent = [] ∧ name = ctlFile then do
    let ino ← ctlInodeFor branch
    pure (ino, .regularFile)
  -- names with an `@` are not valid inside a branch directory
  else if (stripAt name).isSome then throw .ENOENT
  else do
    needBranch branch
    replyEntry branch (parent ++ [name]) (atName branch :: parent ++ [name])

/-- A name the mount's own branch resolves. -/
def lookupInRoot (parent : RelPath) (name : String) : MountReq (Nat × FileType) := do
  failWhenStale
  let s ← get
  replyEntry s.branchName (parent ++ [name]) (parent ++ [name])

/-- A name of the mount root. -/
def lookupAtRoot (name : String) : MountReq (Nat × FileType) := do
  let s ← get
  if s.exposeControl ∧ name = ctlFile then pure (ctlIno, .regularFile)
  else
    match (if s.exposeControl then stripAt name else none) with
    | some branch => do
      needBranch branch
      let ino ← inodeFor [name] true
      pure (ino, .directory)
    | none => lookupInRoot [] name

/-- `lookup`: the number and type of the entry. -/
def lookup (parent : Nat) (name : String) : MountReq (Nat × FileType) := do
  let path ← inodePath parent
  if path = [] then lookupAtRoot name
  else
    match classifyPath path with
    | .branchDir branch => lookupInBranch branch [] name
    | .branchPath branch rel => lookupInBranch branch rel name
    | _ => lookupInRoot path name

/-! ## Listing -/

/-- An entry of a listing. -/
structure DirEntry where
  ino : Nat
  kind : FileType
  name : String
  deriving DecidableEq, Repr

/-- The type `collect_readdir_entries` reports. -/
def listedKind (d : Tree) (l : Place) : FileType :=
  match d.lkind l with
  | some .dir => .directory
  | some (.symlink _) => .symlink
  | _ => .regularFile

/-- The loop of `collect_readdir_entries` over the candidates. -/
def listNames (branch : String) (rel inode : RelPath) : List String → MountReq (List DirEntry)
  | [] => pure []
  | name :: rest => do
    let s ← get
    match s.resolveForBranch branch (rel ++ [name]) with
    | none => listNames branch rel inode rest
    | some l => do
      let ino ← inodeFor (inode ++ [name]) (listedKind s.manager.disk l == .directory)
      let entries ← listNames branch rel inode rest
      pure (⟨ino, listedKind s.manager.disk l, name⟩ :: entries)

/-- `collect_readdir_entries`; `inode` is the inode path of the directory. -/
def collectReaddirEntries (branch : String) (rel : RelPath) (ino : Nat) (inode : RelPath) :
    MountReq (List DirEntry) := do
  let s ← get
  let dots := [⟨ino, .directory, "."⟩, ⟨ino, .directory, ".."⟩]
  match s.manager.collectDirNames branch rel with
  | .error _ => pure dots
  | .ok names => do
    let entries ← listNames branch rel inode (names.insertionSort (· ≤ ·))
    pure (dots ++ entries)

/-- The order in which the branch map hands out its entries. -/
structure MapOrder where
  iter : List String → List String
  perm : ∀ l, (iter l).Perm l

/-- The virtual directories of the mount root. -/
def listBranches : List String → MountReq (List DirEntry)
  | [] => pure []
  | branch :: rest =>
    if branch = "main" then listBranches rest
    else do
      let ino ← inodeFor [atName branch] true
      let entries ← listBranches rest
      pure (⟨ino, .directory, atName branch⟩ :: entries)

/-- The entries of the mount root. -/
def listRoot (order : MapOrder) (ino : Nat) : MountReq (List DirEntry) := do
  failWhenStale
  let s ← get
  let entries ← collectReaddirEntries s.branchName [] ino []
  let virtual ←
    if s.exposeControl then do
      let dirs ← listBranches (order.iter (s.manager.forest.list.map Branch.name))
      pure (⟨ctlIno, .regularFile, ctlFile⟩ :: dirs)
    else pure []
  failWhenStale
  pure (entries ++ virtual)

/-- The entries of a directory of the mount's own branch. -/
def listInRoot (rel : RelPath) (ino : Nat) : MountReq (List DirEntry) := do
  failWhenStale
  let s ← get
  let entries ← collectReaddirEntries s.branchName rel ino rel
  failWhenStale
  pure entries

/-- The entries of a branch directory. -/
def listBranchDir (branch : String) (ino : Nat) : MountReq (List DirEntry) := do
  needBranch branch
  let s ← get
  let entries ← collectReaddirEntries branch [] ino [atName branch]
  if s.exposeControl then do
    let ctl ← ctlInodeFor branch
    pure (entries ++ [⟨ctl, .regularFile, ctlFile⟩])
  else pure entries

/-- The entries of a directory below a branch directory. -/
def listInBranch (branch : String) (rel : RelPath) (ino : Nat) : MountReq (List DirEntry) := do
  needBranch branch
  collectReaddirEntries branch rel ino (atName branch :: rel)

/-- All entries `readdir` has for an inode. -/
def listDir (order : MapOrder) (ino : Nat) : MountReq (List DirEntry) := do
  let s ← get
  let path ← if s.inodes.getPath ino = none ∧ ino = rootIno then pure [] else inodePath ino
  match classifyPath path with
  | .branchDir branch => listBranchDir branch ino
  | .branchPath branch rel => listInBranch branch rel ino
  | .rootPath [] => listRoot order ino
  | .rootPath rel => listInRoot rel ino
  | .branchCtl _ => throw .ENOTDIR

/-- `readdir`: from the entry `offset` on, what the reply has `room` for. -/
def readdir (order : MapOrder) (ino offset room : Nat) : MountReq (List DirEntry) := do
  let entries ← listDir order ino
  pure ((entries.drop offset).take room)

/-! ## Control -/

/-- A command written to a control file. A name that was not given is the one that was made up. -/
inductive CtlCommand where
  | switch (branch : String)
  | create (name : String)
  | commit (order : HashOrder)
  | abort
  | unknown

/-- Run a manager operation inside a request. -/
def onManager {α : Type} (x : Mgr α) : EStateM BranchError Mount α := fun s =>
  match x s.manager with
  | .ok a m => .ok a { s with manager := m }
  | .error e m => .error e { s with manager := m }

/-- Run a manager operation, its failure replied as EIO. -/
def onManagerOrEio {α : Type} (x : Mgr α) : MountReq α := fun s =>
  match onManager x s with
  | .ok a s => .ok a s
  | .error _ s => .error Errno.EIO s

/-- The mount shows another branch. -/
def switchMountBranch (branch : String) : MountReq Unit := fun s =>
  .ok () { s with manager :=
    { s.manager with mountBranches :=
      (s.mountpoint, branch) :: s.manager.mountBranches.filter fun b => b.1 != s.mountpoint } }

/-- `current_epoch.store(manager.get_epoch())`. -/
def storeEpoch : MountReq Unit := fun s => .ok () { s with currentEpoch := s.manager.epoch }

/-- `inodes.clear_prefix` of the subtree of a branch. -/
def clearBranchInodes (branch : String) : MountReq Unit := fun s =>
  .ok () { s with inodes := s.inodes.clearPrefix ("/@" ++ branch) }

/-- `BranchManager::commit`. -/
def commitBranch (order : HashOrder) (branch : String) : Mgr String := do
  let outcome ← commitWithReport order branch
  pure outcome.parent

/-- `finalize_branch_op`, with the operation it is given the result of. -/
def finalizeBranchOp (branch : String) (op : Mgr String) : MountReq Unit := do
  let parent ← onManagerOrEio op
  clearBranchInodes branch
  storeEpoch
  let s ← get
  when (s.branchName = branch) (switchMountBranch parent)

/-- `switch_to_branch`. -/
def switchToBranch (branch : String) : MountReq Unit := do
  switchMountBranch branch
  storeEpoch
  modify fun s => { s with inodes := s.inodes.clear }

/-- A branch forked by a control command. -/
def createByCommand (name parent : String) : MountReq Unit := do
  failIf (name = "") .EINVAL
  onManagerOrEio (createBranchWithOptions name parent .lazy [])
  storeEpoch

/-- `handle_root_ctl_write`. -/
def handleRootCtlWrite : CtlCommand → MountReq Unit
  | .switch branch => do
    failIf (branch = "") .EINVAL
    needBranch branch
    switchToBranch branch
  | .create name => do
    let s ← get
    createByCommand name s.branchName
  | .commit order => do
    let s ← get
    finalizeBranchOp s.branchName (commitBranch order s.branchName)
  | .abort => do
    let s ← get
    finalizeBranchOp s.branchName (BranchFs.abort s.branchName)
  | .unknown => throw .EINVAL

/-- `handle_branch_ctl_write`. -/
def handleBranchCtlWrite (branch : String) : CtlCommand → MountReq Unit
  | .commit order => finalizeBranchOp branch (commitBranch order branch)
  | .abort => finalizeBranchOp branch (BranchFs.abort branch)
  | .create name => createByCommand name branch
  | _ => throw .EINVAL

/-- `branch_for_ctl_ino`. -/
def Mount.branchForCtlIno (s : Mount) (ino : Nat) : Option String :=
  (s.branchCtlInodes.find? fun c => c.2 == ino).map Prod.fst

/-- A control file: of the mount, or of a branch. -/
inductive CtlFile where
  | root
  | branch (name : String)
  deriving DecidableEq, Repr

/-- The control file an inode number stands for. -/
def Mount.ctlFileOf (s : Mount) (ino : Nat) : Option CtlFile :=
  if ino = ctlIno then some .root else (s.branchForCtlIno ino).map .branch

/-- `write`, to a control file. -/
def writeCtl (file : CtlFile) (command : CtlCommand) : MountReq Unit := do
  let s ← get
  if s.exposeControl then
    match file with
    | .root => handleRootCtlWrite command
    | .branch name => handleBranchCtlWrite name command
  else throw .EPERM

/-- The branch a control file is about. -/
def CtlFile.about (s : Mount) : CtlFile → String
  | .root => s.branchName
  | .branch name => name

/-- `ioctl` commands. -/
inductive IoctlCommand where
  | create (name : String)
  | commit (order : HashOrder)
  | abort
  | unknown

/-- A commit or abort by `ioctl`; the mount stays where it is. -/
def finalizeByIoctl (branch : String) (op : Mgr String) : MountReq Unit := do
  let _ ← onManagerOrEio op
  clearBranchInodes branch
  storeEpoch

/-- `ioctl`, on a control file. -/
def ioctlCtl (file : CtlFile) (command : IoctlCommand) : MountReq Unit := do
  let s ← get
  let branch := file.about s
  match command with
  | .create name => do
    onManagerOrEio (createBranchWithOptions name branch .lazy [])
    storeEpoch
  | .commit order => finalizeByIoctl branch (commitBranch order branch)
  | .abort => finalizeByIoctl branch (BranchFs.abort branch)
  | .unknown => throw .ENOTTY

/-- `ioctl`. -/
def ioctl (ino : Nat) (command : IoctlCommand) : MountReq Unit := do
  let s ← get
  match s.ctlFileOf ino with
  | some file => ioctlCtl file command
  | none => throw .ENOTTY

/-! ## Runs -/

/-- What happens at a mount: requests of its own, and steps of the manager that others ask for. -/
inductive MountEvent where
  | lookup (parent : Nat) (name : String)
  | readdir (order : MapOrder) (ino offset room : Nat)
  | writeCtl (file : CtlFile) (command : CtlCommand)
  | ioctl (ino : Nat) (command : IoctlCommand)
  | manager (op : Op)

/-- The state after an event, failed or not. -/
def Mount.step (s : Mount) : MountEvent → Mount
  | .lookup parent name => after (BranchFs.lookup parent name) s
  | .readdir order ino offset room => after (BranchFs.readdir order ino offset room) s
  | .writeCtl file command => after (BranchFs.writeCtl file command) s
  | .ioctl ino command => after (BranchFs.ioctl ino command) s
  | .manager op => { s with manager := BranchFs.step s.manager op }

/-- The states of a mount made at some time over a fresh store. -/
def Mount.Reachable (s : Mount) : Prop :=
  ∃ m mountpoint control events, BranchFs.Reachable m ∧
    s = run Mount.step (Mount.new m mountpoint control) events

end BranchFs
