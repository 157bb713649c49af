/-
# BranchFs.Model.Process -- descriptor caches, the worker, and the mounts of one process

A mount keeps the descriptor it read through last and the one it wrote through last, each under an inode
number and an epoch. A read or write of that number at that epoch goes through the descriptor and looks at
no path. Writes to files without a delta, `unlink` and `rmdir` are left to a worker, one job after the other,
which answers them when it is done.

A process has one manager, any number of mounts, and one queue for the worker. It takes one request of a mount
at a time, as the session loop does; the worker and the daemon come in between requests. Control commands come
decoded, and a read or write of a directory's descriptor fails as one of a file that is not there.
-/
import BranchFs.Model.Requests

namespace BranchFs

open BranchFs.Posix BranchFs.Logic

/-! ## Descriptor caches -/

/-- An open file kept for an inode number and an epoch. -/
structure FileCache where
  ino : Nat
  epoch : Nat
  file : Option FileHandle

namespace FileCache

/-- `new`. -/
def new : FileCache := ⟨0, 0, none⟩

/-- `get`. -/
def get (c : FileCache) (ino epoch : Nat) : Option FileHandle :=
  if c.ino = ino ∧ c.epoch = epoch then c.file else none

/-- `insert`. -/
def insert (_ : FileCache) (ino epoch : Nat) (file : FileHandle) : FileCache := ⟨ino, epoch, some file⟩

/-- `invalidate_ino`. -/
def invalidateIno (c : FileCache) (ino : Nat) : FileCache :=
  if c.ino = ino then { c with ino := 0, file := none } else c

end FileCache

/-- `OpenFileCache`. -/
abbrev OpenFileCache := FileCache

/-- `WriteFileCache`. -/
abbrev WriteFileCache := FileCache

/-! ## Jobs -/

/-- What a handler leaves to the worker. A name that goes is given with the directory it stands in and with
its inode path; it may find the mount stale at the end. -/
inductive Job where
  | write (branch : String) (rel : RelPath) (offset : Int) (data : Bytes)
  | delete (branch : String) (dir : RelPath) (name : String) (inode : RelPath) (mayBeStale : Bool)
  | rmdir (branch : String) (dir : RelPath) (name : String) (inode : RelPath) (mayBeStale : Bool)

/-- A mount with its caches: the state of a `BranchFs`. -/
structure CachedMount where
  mount : Mount
  openCache : OpenFileCache
  writeCache : WriteFileCache

/-- A request in progress: it may reply an errno. -/
abbrev CachedReq := EStateM Errno CachedMount

/-- `BranchFs::new`. -/
def CachedMount.new (manager : Manager) (mountpoint : String) (exposeControl : Bool) : CachedMount where
  mount := .new manager mountpoint exposeControl
  openCache := .new
  writeCache := .new

/-- Run a handler that has nothing to do with the caches. -/
def onMount {α : Type} (x : MountReq α) : CachedReq α := fun s =>
  match x s.mount with
  | .ok a m => .ok a { s with mount := m }
  | .error e m => .error e { s with mount := m }

/-- What a handler answers: at once, or when the worker has run a job. -/
inductive Answer (α : Type) where
  | now (a : α)
  | later (job : Job)

/-! ## Reading -/

/-- `String::as_bytes`. -/
def textBytes (text : String) : Bytes := text.toList.flatMap String.utf8EncodeChar

/-- The part of `bytes` a read asks for; nothing from the end on. -/
def slice (bytes : Bytes) (offset size : Nat) : Bytes := (bytes.drop offset).take size

/-- `read` of the mount's control file. -/
def readCtl (offset : Int) (size : Nat) : MountReq Bytes := fun s =>
  if s.exposeControl then
    .ok (if offset < 0 then [] else slice (textBytes s.branchName) offset.toNat size) s
  else .error .ENOENT s

/-- Read through an open file. -/
def readThrough (h : FileHandle) (offset : Int) (size : Nat) : CachedReq Bytes := fun s =>
  if offset < 0 then .error Errno.EIO s
  else
    match s.mount.manager.disk.fileOf h with
    | some bytes => .ok (slice bytes offset.toNat size) s
    | none => .error Errno.EIO s

/-- `File::open` of what a path resolves to, kept for the inode. -/
def openToRead (ino : Nat) (l : Place) : CachedReq FileHandle := fun s =>
  match Posix.Sys.openRead l s.mount.manager.disk with
  | .ok h _ => .ok h { s with openCache := s.openCache.insert ino s.mount.currentEpoch h }
  | .error _ _ => .error Errno.EIO s

/-- A `read` that no descriptor is kept for, of a path below a branch directory. -/
def readInBranch (branch : String) (rel : RelPath) (ino : Nat) (offset : Int) (size : Nat) :
    CachedReq Bytes := do
  onMount (needBranch branch)
  let l ← onMount (resolvedIn branch rel)
  let h ← openToRead ino l
  readThrough h offset size

/-- A `read` that no descriptor is kept for, of anything else. -/
def readInRoot (ino : Nat) (offset : Int) (size : Nat) : CachedReq Bytes := do
  onMount failWhenStale
  let path ← onMount (inodePath ino)
  let s ← get
  let l ← onMount (resolvedIn s.mount.branchName path)
  let h ← openToRead ino l
  let bytes ← readThrough h offset size
  onMount failWhenStale
  pure bytes

/-- A `read` that no descriptor is kept for. -/
def readSlow (ino : Nat) (offset : Int) (size : Nat) : CachedReq Bytes := do
  let s ← get
  match s.mount.classifyIno ino with
  | some (.branchPath branch rel) => readInBranch branch rel ino offset size
  | some (.branchDir _) => throw .EISDIR
  | some (.branchCtl _) => throw .EISDIR
  | some (.rootPath _) => readInRoot ino offset size
  | none => if (s.mount.ctlFileOf ino).isSome then throw .EISDIR else readInRoot ino offset size

/-- `read`. -/
def read (ino : Nat) (offset : Int) (size : Nat) : CachedReq Bytes :=
  if ino = ctlIno then onMount (readCtl offset size)
  else do
    onMount failWhenStale
    let s ← get
    match s.openCache.get ino s.mount.currentEpoch with
    | some h => readThrough h offset size
    | none => readSlow ino offset size

/-! ## Writing -/

/-- `file_len` of what a path resolves to. -/
def Manager.fileLen (m : Manager) (branch : String) (rel : RelPath) : Option UInt64 :=
  (m.resolved branch rel).bind fun l => statLen m.disk l

/-- `effective_write_offset`, as a reply. -/
def writeOffset (append : Bool) (requested : Int) (len : Option UInt64) : CachedReq Int := fun s =>
  match effectiveWriteOffset append requested len with
  | .ok offset => .ok offset s
  | .error e => .error e s

/-- Run the body of a handler. -/
def onBody {α : Type} (x : Req α) : CachedReq α := onMount (onReq x)

/-- Write through the descriptor that is kept. -/
def writeCached (h : FileHandle) (offset : Int) (data : Bytes) (append : Bool) : CachedReq Nat := do
  let s ← get
  let offset ← writeOffset append offset (some (handleLen s.mount.manager.disk h))
  onBody (writeThrough h offset.toNat data)

/-- Open the delta file, and keep it for the inode. -/
def openToWrite (branch : String) (rel : RelPath) (ino : Nat) : CachedReq FileHandle := do
  let s ← get
  let h ← onBody (openForWrite branch rel)
  modify fun t => { t with writeCache := t.writeCache.insert ino s.mount.currentEpoch h }
  pure h

/-- Write through a descriptor that has just been opened; for a mount that is stale by then nothing is
charged. -/
def writeOpened (h : FileHandle) (offset : Nat) (data : Bytes) (ofRoot : Bool) : CachedReq Nat := do
  let oldSize ← onBody (readReq fun m => handleLen m.disk h)
  let writeEnd : UInt64 := .ofNat (offset + data.length)
  onBody (when (writeEnd > oldSize) (asReq (fun _ => .ENOSPC) (quotaCheck (writeEnd - oldSize))))
  let n ← onBody (ioOrEio (Posix.Sys.pwrite h offset data))
  when (ofRoot = true) (onMount failWhenStale)
  let newEnd : UInt64 := .ofNat (offset + n)
  onBody (when (newEnd > oldSize) (asReq (fun _ => Errno.EIO) (quotaAdd (newEnd - oldSize))))
  pure n

/-- A `write` that no descriptor is kept for, of a path of a branch. -/
def writeAt (branch : String) (rel : RelPath) (ofRoot : Bool) (ino : Nat) (offset : Int) (data : Bytes)
    (append : Bool) : CachedReq (Answer Nat) := do
  let s ← get
  let offset ← writeOffset append offset
    (if append then s.mount.manager.fileLen branch rel else none)
  if s.mount.manager.branchHasDelta branch rel then do
    let h ← openToWrite branch rel ino
    let n ← writeOpened h offset.toNat data ofRoot
    pure (.now n)
  else pure (.later (.write branch rel offset data))

/-- A `write` that no descriptor is kept for. -/
def writeSlow (ino : Nat) (offset : Int) (data : Bytes) (append : Bool) : CachedReq (Answer Nat) := do
  let path ← onMount (inodePath ino)
  match classifyPath path with
  | .branchDir _ => throw .EPERM
  | .branchCtl _ => throw .EPERM
  | .branchPath branch rel => do
    onBody (denyUnlessWritable branch)
    onMount (needBranch branch)
    writeAt branch rel false ino offset data append
  | .rootPath rel => do
    let s ← get
    writeAt s.mount.branchName rel true ino offset data append

/-- `write`, to a number that is not a control file's. -/
def writeFile (ino : Nat) (offset : Int) (data : Bytes) (append : Bool) : CachedReq (Answer Nat) := do
  onMount failWhenStale
  failIf (offset < 0) .EINVAL
  let s ← get
  match s.writeCache.get ino s.mount.currentEpoch with
  | some h => do
    let n ← writeCached h offset data append
    pure (.now n)
  | none => writeSlow ino offset data append

/-- `write`; `command` is what the data say, if the file is a control file. -/
def write (ino : Nat) (offset : Int) (data : Bytes) (append : Bool) (command : CtlCommand) :
    CachedReq (Answer Nat) := do
  modify fun s => { s with openCache := s.openCache.invalidateIno ino }
  let s ← get
  match s.mount.ctlFileOf ino with
  | some file => do
    onMount (writeCtl file command)
    pure (.now data.length)
  | none => writeFile ino offset data append

/-! ## The other handlers that know of the caches -/

/-- `setattr`: a new size makes both descriptors of the inode useless. -/
def CachedMount.setattr (ino : Nat) (size : Option Nat) (a : SetAttr) : CachedReq AttrReply := do
  when (size.isSome = true) (modify fun s =>
    { s with openCache := s.openCache.invalidateIno ino, writeCache := s.writeCache.invalidateIno ino })
  onMount (Faulty.setattr .absent ino size a)

/-- `rename`: the number the destination gets has no descriptor. -/
def CachedMount.rename (parent : Nat) (name : String) (newparent : Nat) (newname : String)
    (flags : RenameFlags) : CachedReq Unit := do
  let s ← get
  onMount (BranchFs.rename parent name newparent newname flags)
  let t ← get
  -- the paths are those the request had at first: the rename has changed the table
  match renamePaths parent name newparent newname s.mount with
  | .ok paths _ =>
    match t.mount.inodes.getIno paths.dstInode with
    | some ino => modify fun s => { s with
        openCache := s.openCache.invalidateIno ino, writeCache := s.writeCache.invalidateIno ino }
    | none => pure ()
  | .error _ _ => pure ()

/-- A name `unlink` and `rmdir` may take out, in a directory below `@branch` or of the mount's own
branch. -/
def removable (path : RelPath) (name : String) : MountReq (String × RelPath) := do
  let s ← get
  match s.dirAt path with
  | none => throw .EPERM
  | some (branch, rel) => do
    when (ofRoot path = false) do
      failIf ((stripAt name).isSome = true ∨ name = ctlFile) .EPERM
      needBranch branch
    onReq (denyUnlessWritable branch)
    pure (branch, rel)

/-- `unlink`. -/
def unlink (parent : Nat) (name : String) : MountReq Job := do
  let path ← inodePath parent
  let (branch, rel) ← removable path name
  pure (.delete branch rel name (path ++ [name]) (ofRoot path))

/-- `rmdir`. -/
def rmdir (parent : Nat) (name : String) : MountReq Job := do
  let path ← inodePath parent
  let (branch, rel) ← removable path name
  pure (.rmdir branch rel name (path ++ [name]) (ofRoot path))

/-! ## The worker -/

/-- `reply_from_delete_result`: an error of a mount that has become stale is that. -/
def finishDelete (branch : String) (inode : RelPath) (mayBeStale : Bool) (x : Req Unit) :
    MountReq Unit := fun s =>
  let stale (s : Mount) : Bool := mayBeStale && !s.manager.isBranchValid branch
  match onReq x s with
  | .ok _ s => if stale s then .error .ESTALE s else .ok () { s with inodes := s.inodes.remove inode }
  | .error e s => .error (if stale s then .ESTALE else e) s

/-- Run a job, for the mount that left it. -/
def Job.run : Job → MountReq Unit
  | write branch rel offset data => onReq do
    let _ ← writeByWorker branch rel offset data
  | delete branch dir name inode mayBeStale =>
    finishDelete branch inode mayBeStale (unlinkPath branch (dir ++ [name]))
  | rmdir branch dir name inode mayBeStale =>
    finishDelete branch inode mayBeStale (rmdirPath branch (dir ++ [name]))

/-! ## Requests -/

/-- A request of the kernel to a mount. -/
inductive Request where
  | lookup (parent : Nat) (name : String)
  | getattr (ino : Nat)
  | readdir (order : MapOrder) (ino offset room : Nat)
  | readlink (ino : Nat)
  | openFile (ino : Nat) (flags : OpenFlags)
  | read (ino : Nat) (offset : Int) (size : Nat)
  | write (ino : Nat) (offset : Int) (data : Bytes) (append : Bool) (command : CtlCommand)
  | create (parent : Nat) (name : String) (mode umask : UInt32)
  | mkdir (parent : Nat) (name : String) (mode umask : UInt32)
  | symlink (parent : Nat) (name : String) (target : Target)
  | unlink (parent : Nat) (name : String)
  | rmdir (parent : Nat) (name : String)
  | rename (parent : Nat) (name : String) (newparent : Nat) (newname : String) (flags : RenameFlags)
  | setattr (ino : Nat) (size : Option Nat) (attr : SetAttr)
  | ioctl (ino : Nat) (command : IoctlCommand)

/-- What a request is answered. -/
inductive Reply where
  | entry (ino : Nat) (kind : FileType)
  | attr (a : AttrAnswer)
  | made (a : AttrReply)
  | entries (es : List DirEntry)
  | link (target : Target)
  | data (bytes : Bytes)
  | written (n : Nat)
  | done

/-- The answer of a handler that answers at once. -/
def answered {α : Type} (f : α → Reply) (x : CachedReq α) : CachedReq (Answer Reply) := do
  let a ← x
  pure (.now (f a))

/-- The answer of a handler that leaves a job. -/
def queued (x : MountReq Job) : CachedReq (Answer Reply) := do
  let job ← onMount x
  pure (.later job)

/-- The handler of a request. -/
def Request.run : Request → CachedReq (Answer Reply)
  | lookup parent name => answered (fun e => .entry e.1 e.2) (onMount (BranchFs.lookup parent name))
  | getattr ino => answered .attr (onMount (BranchFs.getattr ino))
  | readdir order ino offset room =>
    answered .entries (onMount (BranchFs.readdir order ino offset room))
  | readlink ino => answered .link (onMount (BranchFs.readlink ino))
  | openFile ino flags => answered (fun _ => .done) (onMount (BranchFs.openFile ino flags))
  | read ino offset size => answered .data (BranchFs.read ino offset size)
  | write ino offset data append command => do
    let a ← BranchFs.write ino offset data append command
    match a with
    | .now n => pure (.now (.written n))
    | .later job => pure (.later job)
  | create parent name mode umask =>
    answered .made (onMount (BranchFs.create parent name mode umask))
  | mkdir parent name mode umask => answered .made (onMount (BranchFs.mkdir parent name mode umask))
  | symlink parent name target => answered .made (onMount (BranchFs.symlink parent name target))
  | unlink parent name => queued (BranchFs.unlink parent name)
  | rmdir parent name => queued (BranchFs.rmdir parent name)
  | rename parent name newparent newname flags =>
    answered (fun _ => .done) (CachedMount.rename parent name newparent newname flags)
  | setattr ino size attr => answered .made (CachedMount.setattr ino size attr)
  | ioctl ino command => answered (fun _ => .done) (onMount (BranchFs.ioctl ino command))

/-! ## The process -/

/-- One manager with its mounts, and the jobs the worker has not run yet, each with the mount that left it.
A mount holds the manager it was given at its last request; it is given the process's own at the next. -/
structure Process where
  manager : Manager
  mounts : List CachedMount
  queue : List (Nat × Job)

/-- What happens in a process: a mount is added or given up, a mount takes a request, the worker runs its
next job, and the daemon or the host does something on its own. -/
inductive Event where
  | mount (branch mountpoint : String) (exposeControl : Bool)
  | unmount (mountpoint : String)
  | request (i : Nat) (r : Request)
  | work
  | manager (op : Op)

namespace Process

/-- A mount, with the manager as it is now. -/
def mountAt (p : Process) (i : Nat) : Option CachedMount :=
  p.mounts[i]?.map fun s => { s with mount := { s.mount with manager := p.manager } }

/-- The process after a request or job of a mount. -/
def put (p : Process) (i : Nat) (s : CachedMount) : Process :=
  { p with manager := s.mount.manager, mounts := p.mounts.set i s }

/-- A mount takes a request; a job it leaves goes to the end of the queue. -/
def take (p : Process) (i : Nat) (r : Request) : Process :=
  match p.mountAt i with
  | none => p
  | some s =>
    match r.run s with
    | .ok (.later job) s => { p.put i s with queue := p.queue ++ [(i, job)] }
    | .ok (.now _) s => p.put i s
    | .error _ s => p.put i s

/-- The worker runs the oldest job. -/
def work (p : Process) : Process :=
  match p.queue with
  | [] => p
  | (i, job) :: rest =>
    match p.mountAt i with
    | none => { p with queue := rest }
    | some s => { p.put i { s with mount := after job.run s.mount } with queue := rest }

/-- `spawn_mount`, as far as the process goes: the branch is entered first. -/
def addMount (p : Process) (branch mountpoint : String) (exposeControl : Bool) : Process :=
  if p.manager.isBranchValid branch then
    let m := { p.manager with mountBranches :=
      (mountpoint, branch) :: p.manager.mountBranches.filter fun b => b.1 != mountpoint }
    { p with manager := m, mounts := p.mounts ++ [.new m mountpoint exposeControl] }
  else p

/-- `unregister_mount`: the kernel sends no request for the mount any more, its jobs are still run. -/
def unmount (p : Process) (mountpoint : String) : Process :=
  { p with manager := { p.manager with
      mountBranches := p.manager.mountBranches.filter fun b => b.1 != mountpoint } }

/-- The state after an event. -/
def step (p : Process) : Event → Process
  | .mount branch mountpoint exposeControl => p.addMount branch mountpoint exposeControl
  | .unmount mountpoint => p.unmount mountpoint
  | .request i r => p.take i r
  | .work => p.work
  | .manager op => { p with manager := BranchFs.step p.manager op }

/-- A process over a manager, before anything is mounted. -/
def init (m : Manager) : Process := ⟨m, [], []⟩

end Process

end BranchFs
