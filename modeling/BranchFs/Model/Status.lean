/-
# BranchFs.Model.Status -- the review of a branch

`branch_status`: what a branch is and what a commit of it would apply, the delta files by a walker of
their own and the tombstones, sorted by path.
-/
import BranchFs.Model.Commit

namespace BranchFs

open BranchFs.Posix BranchFs.Logic

/-- The `op` of a `DiffEntry`. -/
inductive DiffOp where
  | delete
  | delta
  deriving DecidableEq, Repr

/-- The `kind` of a `DiffEntry`. -/
inductive DiffKind where
  | file
  | symlink
  | tombstone
  deriving DecidableEq, Repr

structure DiffEntry where
  op : DiffOp
  path : RelPath
  kind : DiffKind
  bytes : UInt64
  deriving DecidableEq, Repr

structure BranchStatus where
  name : String
  parent : Option String
  inheritance : InheritanceMode
  state : BranchState
  parentVersionAtFork : Nat
  commitCount : Nat
  deltaEntries : Nat
  tombstones : Nat
  diff : List DiffEntry

/-- The entry of a delta file. -/
def deltaEntry (p : RelPath) (n : Node String) : DiffEntry where
  op := .delta
  path := p
  kind := if n.kind.isSymlink then .symlink else .file
  bytes := if n.kind.isFile then metaLen n else 0

def deleteEntry (p : RelPath) : DiffEntry where
  op := .delete
  path := p
  kind := .tombstone
  bytes := 0

/-- `collect_delta_diff`; an entry that cannot be read stops it. -/
def collectDeltaDiff (d : Tree) : (fuel : Nat) → Place → RelPath → Except Errno (List DiffEntry)
  | 0, _, _ => .error .ELOOP
  | fuel + 1, dir, rel =>
    match d.lstat dir with
    | .error .ENOENT => .ok []
    | .error e => .error e
    | .ok n =>
      if n.kind.isDir then do
        let names ← d.readDir dir
        let parts ← names.mapM fun name => do
          let node ← d.lstat (dir.child name)
          if node.kind.isDir then collectDeltaDiff d fuel (dir.child name) (rel ++ [name])
          else pure [deltaEntry (rel ++ [name]) node]
        pure parts.flatten
      else .ok []

/-- `get_tombstones`: the set has each path once. -/
def Branch.getTombstones (b : Branch) : List RelPath := b.tombstones.dedup

/-- `String::cmp` on the paths, then on `"delete"` and `"delta"`. -/
def DiffEntry.le (a b : DiffEntry) : Bool :=
  if relText a.path = relText b.path then decide (a.op = .delete ∨ b.op = .delta)
  else decide (relText a.path ≤ relText b.path)

/-- `branch_status`. -/
def branchStatus (m : Manager) (order : HashOrder) (name : String) :
    Except BranchError BranchStatus :=
  match m.forest.get? name with
  | none => .error (.notFound name)
  | some b =>
    match collectDeltaDiff m.disk (m.disk.height + 1) (deltaPath name []) [] with
    | .error e => .error (.io e)
    | .ok delta =>
      let diff := (delta ++ (order.iter b.getTombstones).map deleteEntry).mergeSort DiffEntry.le
      .ok {
        name := b.name
        parent := b.parent
        inheritance := b.inheritance
        state := b.state
        parentVersionAtFork := b.parentVersionAtFork
        commitCount := b.commitCount
        deltaEntries := (diff.filter fun e => e.op = .delta).length
        tombstones := (diff.filter fun e => e.op = .delete).length
        diff := diff }

end BranchFs
