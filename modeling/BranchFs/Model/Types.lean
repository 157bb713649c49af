/-
# BranchFs.Model.Types -- paths, branches, errors

The data of `branch.rs`. A branch-relative path is the list of its components (`/a/b` is
`["a", "b"]`); where the source works on the text of a path (`normalize_hide_path`) the text is
rebuilt by `relText`. The trees of the store are the roots of the disk: the base directory and, for
every branch, its `files`, `inherited`, `staging`, `touch-content` and `merge-content` directories.
-/
import BranchFs.Posix.Outcome
import Mathlib.Algebra.Group.Int.Defs
import Mathlib.Algebra.Group.Nat.Defs

namespace BranchFs

open BranchFs.Posix

/-- The directories the daemon holds by name. -/
inductive Root where
  | base
  | files (branch : String)
  | inherited (branch : String)
  | staging (branch : String)
  | touchContent (branch : String)
  | mergeContent (branch : String)
  deriving DecidableEq, Repr

/-- The branch whose store a tree belongs to. -/
def Root.owner : Root → Option String
  | .base => none
  | .files b => some b
  | .inherited b => some b
  | .staging b => some b
  | .touchContent b => some b
  | .mergeContent b => some b

abbrev Place := Posix.Loc Root String
abbrev Tree := Posix.Disk Root String
abbrev Entry := Posix.Kind String
abbrev Target := Posix.Link String
abbrev FileHandle := Posix.Handle Root

/-- A path inside a branch, component by component. -/
abbrev RelPath := List String

/-- `base_path.join(rel_path)`. -/
def basePath (p : RelPath) : Place := ⟨some .base, p⟩

/-- `Branch::delta_path`. -/
def deltaPath (branch : String) (p : RelPath) : Place := ⟨some (.files branch), p⟩

/-- `Branch::inherited_path`. -/
def inheritedPath (branch : String) (p : RelPath) : Place := ⟨some (.inherited branch), p⟩

/-! ## Text -/

/-- The text of a path. -/
def relText (p : RelPath) : String := "/" ++ "/".intercalate p

/-- The characters `str::trim` strips. -/
def isWhiteSpace (c : Char) : Bool :=
  let n := c.toNat
  (0x09 ≤ n && n ≤ 0x0D) || n == 0x20 || n == 0x85 || n == 0xA0 || n == 0x1680 ||
    (0x2000 ≤ n && n ≤ 0x200A) || n == 0x2028 || n == 0x2029 || n == 0x202F || n == 0x205F ||
    n == 0x3000

def trimStart (P : Char → Bool) (s : List Char) : List Char := s.dropWhile P

def trimEnd (P : Char → Bool) (s : List Char) : List Char := (s.reverse.dropWhile P).reverse

/-- `normalize_hide_path`: `/`-prefixed, without trailing slash; nothing for the root. -/
def normalizeHidePath (path : String) : Option String :=
  let trimmed := trimEnd (· == '/') (trimStart (· == '/')
    (trimEnd isWhiteSpace (trimStart isWhiteSpace path.toList)))
  if trimmed.isEmpty then none else some (String.ofList ('/' :: trimmed))

/-- `str::starts_with`. -/
def startsWith (s pre : String) : Bool := pre.toList.isPrefixOf s.toList

/-! ## Errors -/

/-- `BranchError`, as far as the manager returns it. -/
inductive BranchError where
  | notFound (name : String)
  | alreadyExists (name : String)
  | invalid (msg : String)
  | parentNotFound (name : String)
  | cannotOperateOnMain
  | notALeaf (name : String)
  | io (errno : Errno)
  /-- No error the manager returns: its thread panicked, and the caller is not answered. -/
  | panicked
  deriving DecidableEq, Repr

/-! ## Records -/

inductive InheritanceMode where
  | lazy
  | snapshot
  deriving DecidableEq, Repr

inductive BranchState where
  | «open»
  | frozen
  deriving DecidableEq, Repr

/-- The `kind` of a `PathIdentity`. -/
inductive IdentityKind where
  | missing
  | dir
  | symlink
  | file
  deriving DecidableEq, Repr

structure PathIdentity where
  «exists» : Bool
  kind : IdentityKind
  bytes : Nat
  mtime : Option Nat
  deriving DecidableEq, Repr

namespace PathIdentity

def missing : PathIdentity := { «exists» := false, kind := .missing, bytes := 0, mtime := none }

/-- The identity of a node. -/
def ofNode (n : Node String) : PathIdentity where
  «exists» := true
  kind :=
    match n.kind with
    | .dir => .dir
    | .symlink _ => .symlink
    | .file _ => .file
  bytes :=
    match n.kind with
    | .file data => data.length
    | _ => 0
  mtime := some n.mtime

/-- `PathIdentity::from_path`. -/
def fromPath (d : Tree) : Option Place → PathIdentity
  | none => missing
  | some l =>
    match d.lstat l with
    | .ok n => ofNode n
    | .error _ => missing

end PathIdentity

structure TouchRecord where
  path : RelPath
  baseAtFirstTouch : PathIdentity
  baseContentKey : Option String
  deriving DecidableEq, Repr

structure CommitAutoMerge where
  path : RelPath
  resolution : String
  deriving DecidableEq, Repr

structure CommitConflict where
  path : RelPath
  sessionAction : String
  resolution : String
  reason : String
  baseAtFirstTouch : PathIdentity
  baseAtCommit : PathIdentity
  deriving DecidableEq, Repr

structure CommitOutcome where
  parent : String
  autoMerges : List CommitAutoMerge
  conflicts : List CommitConflict
  deriving DecidableEq, Repr

/-- The outcome names `p`. -/
def CommitOutcome.lists (o : CommitOutcome) (p : RelPath) : Bool :=
  o.autoMerges.any (·.path == p) || o.conflicts.any (·.path == p)

end BranchFs
