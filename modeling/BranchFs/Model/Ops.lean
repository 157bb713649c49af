/-
# BranchFs.Model.Ops -- the manager as a state machine

Every way the state of a manager changes, as one step: the branch life cycle, the file operations of
the mounts (each after the writability check its handler makes), and edits of the base directory by
the host. A step that fails leaves the state its failure left. `Reachable` are the states after any
run from a fresh store.
-/
import BranchFs.Model.FileOps

namespace BranchFs

open BranchFs.Posix BranchFs.Logic

/-- An edit of the base directory from outside. -/
inductive HostEdit where
  | write (p : RelPath) (data : Bytes)
  | mkdir (p : RelPath)
  | symlink (p : RelPath) (target : Target)
  | unlink (p : RelPath)
  | removeTree (p : RelPath)
  deriving DecidableEq, Repr

def HostEdit.run : HostEdit → Io Unit
  | write p data => Posix.Sys.writeFile (basePath p) data
  | mkdir p => Posix.Sys.mkdir (basePath p) 0o755
  | symlink p target => Posix.Sys.symlink target (basePath p)
  | unlink p => Posix.Sys.removeFile (basePath p)
  | removeTree p => Posix.Sys.removeDirAll (basePath p)

/-- A file operation of a mount, on a path of a branch. Names that are made or removed are given
with the directory they stand in. -/
inductive FileOp where
  | create (dir : RelPath) (name : String) (mode : Nat)
  | mkdir (dir : RelPath) (name : String) (mode : Nat)
  | symlink (dir : RelPath) (name : String) (target : Target)
  /-- The write of the worker. -/
  | writeByWorker (p : RelPath) (offset : Int) (data : Bytes)
  /-- The write through a delta file opened for it. -/
  | write (p : RelPath) (offset : Nat) (data : Bytes)
  /-- A later write through a descriptor of this branch's delta that is still open. -/
  | writeCached (id : Nat) (offset : Nat) (data : Bytes)
  | truncate (p : RelPath) (size : Nat)
  | setattr (p : RelPath) (attr : SetAttr)
  | unlink (dir : RelPath) (name : String)
  | rmdir (dir : RelPath) (name : String)
  | rename (dir : RelPath) (name : String) (newDir : RelPath) (newName : String) (noReplace : Bool)
  deriving DecidableEq, Repr

def FileOp.run (branch : String) : FileOp → Req Unit
  | create dir name mode => createFile branch (dir ++ [name]) mode
  | mkdir dir name mode => makeDir branch (dir ++ [name]) mode
  | symlink dir name target => makeSymlink branch (dir ++ [name]) target
  | writeByWorker p offset data => do let _ ← BranchFs.writeByWorker branch p offset data
  | write p offset data => do
    let h ← openForWrite branch p
    let _ ← writeThrough h offset data
  | writeCached id offset data => do
    let _ ← writeThrough ⟨some (.files branch), id⟩ offset data
  | truncate p size => truncatePath branch p size
  | setattr p attr => setAttrPath branch p attr
  | unlink dir name => unlinkPath branch (dir ++ [name])
  | rmdir dir name => rmdirPath branch (dir ++ [name])
  | rename dir name newDir newName noReplace =>
    renamePath branch (dir ++ [name]) (newDir ++ [newName]) noReplace

/-- A step of the system. -/
inductive Op where
  | create (name parent : String) (inheritance : InheritanceMode) (hidePaths : List String)
  | commit (order : HashOrder) (name : String)
  | abort (name : String)
  | freeze (name : String)
  | thaw (name : String)
  | revert (branch : String) (p : RelPath)
  | file (branch : String) (op : FileOp)
  | host (edit : HostEdit)

/-- The state after a step, failed or not. -/
def step (m : Manager) : Op → Manager
  | .create name parent inheritance hidePaths =>
    after (createBranchWithOptions name parent inheritance hidePaths) m
  | .commit order name => after (commitWithReport order name) m
  | .abort name => after (BranchFs.abort name) m
  | .freeze name => after (freezeBranch name) m
  | .thaw name => after (thawBranch name) m
  | .revert branch p => after (revertPathInBranch branch p) m
  | .file branch op => after (do denyUnlessWritable branch; op.run branch) m
  | .host edit => after (onDisk edit.run) m

/-- `main` as `BranchManager::new` makes it. -/
def mainBranch : Branch where
  name := "main"
  parent := none
  inheritance := .lazy
  state := .open
  tombstones := []
  touches := []
  commitCount := 0
  parentVersionAtFork := 0
  hidePaths := []

/-- A fresh store: any host, nothing in the daemon's own trees. -/
structure FreshStore where
  disk : Tree
  maxBytes : Option UInt64
  empty : ∀ e ∈ disk.entries, (e.1.root.bind Root.owner) = none

/-- The tree of a branch's directory. -/
def branchTree (b : String) : String → Option Root
  | "files" => some (.files b)
  | "inherited" => some (.inherited b)
  | "staging" => some (.staging b)
  | "touch-content" => some (.touchContent b)
  | "merge-content" => some (.mergeContent b)
  | _ => none

/-- Where the trees hang when the base is `/base` and the storage `/store`. -/
def storeLayout : Posix.Layout Root String where
  mountPath
    | .base => ["base"]
    | .files b => ["store", "branches", b, "files"]
    | .inherited b => ["store", "branches", b, "inherited"]
    | .staging b => ["store", "branches", b, "staging"]
    | .touchContent b => ["store", "branches", b, "touch-content"]
    | .mergeContent b => ["store", "branches", b, "merge-content"]
  mountAt
    | ["base"] => some .base
    | ["store", "branches", b, tree] => branchTree b tree
    | _ => none
  hostDir p := p.isPrefixOf ["store", "branches"] || (p.length == 3 && p.take 2 == ["store", "branches"])
  mountsIn
    | [] => ["base"]
    | ["store", "branches", _] =>
      ["files", "inherited", "staging", "touch-content", "merge-content"]
    | _ => []
  mem_mountsIn := by
    intro p n
    have htree : ∀ b : String,
        n ∈ ["files", "inherited", "staging", "touch-content", "merge-content"] ↔
          (branchTree b n).isSome = true := by
      intro b
      unfold branchTree
      split <;> simp_all
    rcases p with _ | ⟨a, _ | ⟨b, _ | ⟨c, _ | ⟨e, rest⟩⟩⟩⟩
    · simp only [List.nil_append]
      split <;> simp_all
    · simp
    · simp
    · by_cases h : a = "store" ∧ b = "branches"
      · obtain ⟨rfl, rfl⟩ := h
        exact htree c
      · split <;> split <;> simp_all
    · simp
  hostDir_dropLast := by
    intro p h
    rcases p with _ | ⟨a, _ | ⟨b, _ | ⟨c, _ | ⟨e, rest⟩⟩⟩⟩ <;> simp_all
  hostDir_mountPath := by
    intro r
    cases r <;> simp
  hostDir_mountAt := by
    intro p n h
    rcases p with _ | ⟨a, _ | ⟨b, _ | ⟨c, _ | ⟨e, rest⟩⟩⟩⟩ <;> simp at h ⊢
    split at h <;> simp_all

/-- A fresh store without a quota over an empty base directory. -/
def FreshStore.bare : FreshStore where
  disk := { layout := storeLayout, entries := [], orphans := [], clock := 1,
            closed := by simp, unique := by simp }
  maxBytes := none
  empty := by simp

/-- `BranchManager::new` on a fresh store. -/
def Manager.init (s : FreshStore) : Manager where
  disk := s.disk
  forest := Forest.init mainBranch ⟨rfl, rfl⟩
  epoch := 0
  quota := ⟨0, s.maxBytes⟩
  mountBranches := []

/-- The states after any run from a fresh store. -/
def Reachable (m : Manager) : Prop := ∃ s ops, m = run step (Manager.init s) ops

end BranchFs
