/-
# BranchFs.Model.Manager -- the branch manager and path resolution

`Manager` is the state of `BranchManager`: the host's trees, the branch map, the epoch, the storage
quota and the branch each mount shows. An operation that fails keeps the effects it had, as the
source does. Path resolution walks from a branch to `main` and on to the base directory.
-/
import BranchFs.Model.Branch
import Mathlib.Data.List.Dedup

namespace BranchFs

open BranchFs.Posix BranchFs.Logic

/-! ## The storage quota -/

/-- `StorageQuota`: a signed running total and an optional bound. -/
structure StorageQuota where
  usedBytes : Int64
  maxBytes : Option UInt64
  deriving DecidableEq

namespace StorageQuota

/-- Room for `additional` more bytes, in the machine's arithmetic. -/
def check (q : StorageQuota) (additional : UInt64) : Bool :=
  match q.maxBytes with
  | none => true
  | some max => !decide (q.usedBytes.toUInt64 + additional > max)

def add (q : StorageQuota) (bytes : UInt64) : StorageQuota :=
  { q with usedBytes := q.usedBytes + bytes.toInt64 }

def sub (q : StorageQuota) (bytes : UInt64) : StorageQuota :=
  { q with usedBytes := q.usedBytes - bytes.toInt64 }

end StorageQuota

/-- The text of a link target. -/
def targetText (t : Target) : String :=
  (if t.absolute then "/" else "") ++
    "/".intercalate (t.comps.map fun c =>
      match c with
      | .up => ".."
      | .name n => n)

/-- `Metadata::len` of a file or link; of a directory the value is not used. -/
def metaLen (n : Node String) : UInt64 :=
  match n.kind with
  | .file data => .ofNat data.length
  | .symlink t => .ofNat (targetText t).utf8ByteSize
  | .dir => 0

/-- `StorageQuota::dir_size`, which follows links to directories; a path through more links than
the kernel follows is no directory, so the recursion ends. A name another tree hangs over is read
once. -/
def dirSizeUpTo (d : Tree) : Nat → Place → UInt64
  | 0, _ => 0
  | fuel + 1, dir =>
    match d.readDir dir with
    | .error _ => 0
    | .ok names =>
      names.dedup.foldl (fun total n =>
        let p := dir.child n
        if d.isDir p then total + dirSizeUpTo d fuel p
        else
          match d.lstat p with
          | .ok node => total + metaLen node
          | .error _ => total) 0

def dirSize (d : Tree) (dir : Place) : UInt64 :=
  dirSizeUpTo d ((Disk.maxLinks + 1) * (2 * (d.height + 1))) dir

/-! ## The manager -/

structure Manager where
  disk : Tree
  forest : Forest
  epoch : Nat
  quota : StorageQuota
  mountBranches : List (String × String)

/-- A manager operation. -/
abbrev Mgr := EStateM BranchError Manager

abbrev Io := Posix.Sys Root String

def onDisk {α : Type} (x : Io α) : Mgr α := fun m =>
  match x m.disk with
  | .ok a d => .ok a { m with disk := d }
  | .error e d => .error (.io e) { m with disk := d }

def readDisk {α : Type} (f : Tree → α) : Mgr α := fun m => .ok (f m.disk) m

def getBranch (name : String) : Mgr Branch := fun m =>
  match m.forest.get? name with
  | some b => .ok b m
  | none => .error (.notFound name) m

/-- The guard every mutating operation starts with. -/
def writableBranch (name : String) : Mgr Branch := fun m =>
  match m.forest.get? name with
  | some b =>
    if b.isWritable then .ok b m
    else .error (.invalid ("branch '" ++ name ++ "' is frozen/read-only")) m
  | none => .error (.notFound name) m

def modifyBranch (name : String) (f : Branch → Branch) : Mgr Unit := fun m =>
  .ok () { m with forest := m.forest.modify name f }

def quotaCheck (additional : UInt64) : Mgr Unit := fun m =>
  if m.quota.check additional then .ok () m else .error (.io .ENOSPC) m

def quotaAdd (bytes : UInt64) : Mgr Unit := fun m => .ok () { m with quota := m.quota.add bytes }

def quotaSub (bytes : UInt64) : Mgr Unit := fun m => .ok () { m with quota := m.quota.sub bytes }

def bumpEpoch : Mgr Unit := fun m => .ok () { m with epoch := m.epoch + 1 }

/-! ## Resolution -/

/-- `Branch::has_delta`. -/
def hasDelta (d : Tree) (branch : String) (p : RelPath) : Bool := d.lexists (deltaPath branch p)

/-- What a branch inherits at `p`, given what its parent resolves `p` to. -/
def inheritedStep (d : Tree) (b : Branch) (p : RelPath) (parentResolves : Option Place) :
    Option Place :=
  match b.parent, b.inheritance with
  | none, _ => if d.lexists (basePath p) then some (basePath p) else none
  | some _, .lazy => parentResolves
  | some _, .snapshot =>
    if d.lexists (inheritedPath b.name p) then some (inheritedPath b.name p) else none

/-- What a branch resolves `p` to, given what its parent does: its own delta first, then nothing if
deleted or hidden, then what it inherits. -/
def resolveStep (d : Tree) (b : Branch) (p : RelPath) (parentResolves : Option Place) :
    Option Place :=
  if hasDelta d b.name p then some (deltaPath b.name p)
  else if b.isDeleted p then none
  else if b.isHidden p then none
  else inheritedStep d b p parentResolves

namespace Manager

/-- `resolve_path_locked`, for a branch that is there. -/
def resolved (m : Manager) (branch : String) (p : RelPath) : Option Place :=
  climb Branch.name Branch.parent none (fun b => resolveStep m.disk b p none)
    (fun b up => resolveStep m.disk b p up) m.forest.list branch

/-- `BranchManager::resolve_path`. -/
def resolvePath (m : Manager) (branch : String) (p : RelPath) : Except BranchError (Option Place) :=
  match m.forest.get? branch with
  | none => .error (.notFound branch)
  | some _ => .ok (m.resolved branch p)

/-- `inherited_resolve_path_locked`. -/
def inheritedResolve (m : Manager) (b : Branch) (p : RelPath) : Option Place :=
  inheritedStep m.disk b p (b.parent.bind fun parent => m.resolved parent p)

/-- **Resolution as the source computes it**: a branch asks its own delta, its tombstones and its
hide rules, and then what it inherits. -/
theorem resolved_eq {m : Manager} {branch : String} {b : Branch}
    (h : m.forest.get? branch = some b) (p : RelPath) :
    m.resolved branch p =
      if hasDelta m.disk branch p then some (deltaPath branch p)
      else if b.isDeleted p then none
      else if b.isHidden p then none
      else m.inheritedResolve b p := by
  have hname := Forest.name_of_get? h
  unfold resolved
  cases hup : b.parent with
  | none =>
    rw [climb_root m.forest.grown h hup]
    simp only [resolveStep, inheritedResolve, hname, hup, Option.bind_none]
  | some parent =>
    rw [climb_above m.forest.grown h hup]
    simp only [resolveStep, inheritedResolve, hname, hup, Option.bind_some]
    rfl

theorem resolved_of_missing {m : Manager} {branch : String} (h : m.forest.get? branch = none)
    (p : RelPath) : m.resolved branch p = none :=
  climb_missing (Forest.get?_eq_none.mp h)

/-- `resolve_inherited_for_touch_locked`: what a mutation of `p` starts from. -/
def inheritedForTouch (m : Manager) (b : Branch) (p : RelPath) : Option Place :=
  if b.isHidden p then none else m.inheritedResolve b p

/-- `inherited_path_exists_locked`. -/
def inheritedPathExists (m : Manager) (b : Branch) (p : RelPath) : Bool :=
  (m.inheritedForTouch b p).isSome

/-! ## Names in a directory -/

/-- `read_dir_names`; an unreadable directory has none. -/
def readDirNames (d : Tree) (l : Place) : List String := ((d.readDir l).toOption.getD []).dedup

/-- The names a branch inherits in a directory, given those its parent collects. -/
def inheritedNamesStep (d : Tree) (b : Branch) (p : RelPath) (parentNames : List String) :
    List String :=
  match b.parent, b.inheritance with
  | none, _ => readDirNames d (basePath p)
  | some _, .lazy => parentNames
  | some _, .snapshot => readDirNames d (inheritedPath b.name p)

/-- The names a branch collects: its delta's, and the inherited ones that are neither hidden nor
deleted. -/
def collectStep (d : Tree) (b : Branch) (p : RelPath) (parentNames : List String) : List String :=
  readDirNames d (deltaPath b.name p) ∪
    (inheritedNamesStep d b p parentNames).filter fun n =>
      !(b.isHidden (p ++ [n]) || b.isDeleted (p ++ [n]))

/-- `collect_dir_names_locked`, for a branch that is there. -/
def collected (m : Manager) (branch : String) (p : RelPath) : List String :=
  climb Branch.name Branch.parent [] (fun b => collectStep m.disk b p [])
    (fun b up => collectStep m.disk b p up) m.forest.list branch

/-- `BranchManager::collect_dir_names`. -/
def collectDirNames (m : Manager) (branch : String) (p : RelPath) :
    Except BranchError (List String) :=
  match m.forest.get? branch with
  | none => .error (.notFound branch)
  | some _ => .ok (m.collected branch p)

def isBranchValid (m : Manager) (branch : String) : Bool := (m.forest.get? branch).isSome

def isBranchWritable (m : Manager) (branch : String) : Bool :=
  (m.forest.get? branch).any Branch.isWritable

def branchHasDelta (m : Manager) (branch : String) (p : RelPath) : Bool :=
  (m.forest.get? branch).isSome && hasDelta m.disk branch p

/-! ## What is collected -/

theorem readDirNames_nodup (d : Tree) (l : Place) : (readDirNames d l).Nodup := List.nodup_dedup _

theorem inheritedNamesStep_nodup (d : Tree) (b : Branch) (p : RelPath) {parentNames : List String}
    (h : parentNames.Nodup) : (inheritedNamesStep d b p parentNames).Nodup := by
  unfold inheritedNamesStep
  split
  · exact readDirNames_nodup d _
  · exact h
  · exact readDirNames_nodup d _

/-- A branch collects a name once. -/
theorem collected_nodup (m : Manager) (branch : String) (p : RelPath) :
    (m.collected branch p).Nodup := by
  have hstep : ∀ (b : Branch) (names : List String), names.Nodup →
      (collectStep m.disk b p names).Nodup := fun b names h =>
    List.Nodup.union _ ((inheritedNamesStep_nodup m.disk b p h).filter _)
  unfold collected
  apply climb_of (P := List.Nodup)
  · exact List.nodup_nil
  · exact fun b _ => hstep b [] List.nodup_nil
  · exact fun b _ names h => hstep b names h

/-- A branch lists a name in a tree iff the tree has it. -/
theorem mem_readDirNames {d : Tree} {l : Place} {n : String} :
    n ∈ readDirNames d l ↔ d.lexists (l.child n) = true := by
  rw [Disk.mem_readDir, readDirNames, List.mem_dedup]
  cases d.readDir l <;> simp [Except.toOption]

/-- A branch collects a name iff it resolves it, if its parent does. -/
theorem mem_collectStep {d : Tree} {b : Branch} {p : RelPath} {n : String} {up : Option Place}
    {names : List String} (hup : n ∈ names ↔ up.isSome = true) :
    n ∈ collectStep d b p names ↔ (resolveStep d b (p ++ [n]) up).isSome = true := by
  have hdelta : n ∈ readDirNames d (deltaPath b.name p) ↔ hasDelta d b.name (p ++ [n]) = true :=
    mem_readDirNames
  have hbase : n ∈ readDirNames d (basePath p) ↔ d.lexists (basePath (p ++ [n])) = true :=
    mem_readDirNames
  have hcopy : n ∈ readDirNames d (inheritedPath b.name p) ↔
      d.lexists (inheritedPath b.name (p ++ [n])) = true := mem_readDirNames
  have hinh : n ∈ inheritedNamesStep d b p names ↔
      (inheritedStep d b (p ++ [n]) up).isSome = true := by
    unfold inheritedNamesStep inheritedStep
    cases b.parent with
    | none => simp only [hbase]; split <;> simp [*]
    | some parent =>
      cases b.inheritance with
      | lazy => exact hup
      | snapshot => simp only [hcopy]; split <;> simp [*]
  unfold collectStep resolveStep
  rw [List.mem_union_iff, List.mem_filter, hdelta, hinh]
  by_cases hd : hasDelta d b.name (p ++ [n]) = true
  · simp [hd]
  · cases b.isDeleted (p ++ [n]) <;> cases b.isHidden (p ++ [n]) <;> simp [hd]

/-- **A branch collects in a directory exactly the names it resolves there**, whichever trees and
links they come from. -/
theorem mem_collected {m : Manager} {branch : String} {p : RelPath} {n : String} :
    n ∈ m.collected branch p ↔ (m.resolved branch (p ++ [n])).isSome = true := by
  cases hb : m.forest.get? branch with
  | none =>
    have hnone : m.collected branch p = [] := climb_missing (Forest.get?_eq_none.mp hb)
    rw [resolved_of_missing hb, hnone]
    simp
  | some b =>
    have main : ∀ c ∈ m.forest.list,
        n ∈ m.collected c.name p ↔ (m.resolved c.name (p ++ [n])).isSome = true := by
      -- from `main` down the branches: what the parent collects, it resolves
      refine m.forest.grown.ancestry (P := fun name =>
        n ∈ m.collected name p ↔ (m.resolved name (p ++ [n])).isSome = true) ?_ ?_
      · intro c hc hup
        have hget := Forest.get?_of_mem hc
        unfold resolved collected
        rw [climb_root m.forest.grown hget hup, climb_root m.forest.grown hget hup]
        exact mem_collectStep (by simp)
      · intro c hc q hq ih
        have hget := Forest.get?_of_mem hc
        unfold resolved collected
        rw [climb_above m.forest.grown hget hq, climb_above m.forest.grown hget hq]
        exact mem_collectStep ih
    rw [← Forest.name_of_get? hb]
    exact main b (Forest.mem_of_get? hb)

end Manager

end BranchFs
