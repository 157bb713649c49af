/-
# BranchFs.Model.Daemon -- the mounts of one store

The daemon's side of `daemon.rs` and the tables of the manager that a mount appears in: the branch each
mountpoint shows, and the notifiers through which the kernel is told that a branch changed. A session
is a number. Hash maps are association lists that keep one entry a key.

Whether the kernel takes a mount (`fuser::spawn_mount2`) is no part of the repository: a request comes
with the answer, a session or an errno.
-/
import BranchFs.Model.Ops

namespace BranchFs

open BranchFs.Posix BranchFs.Logic

/-! ## Tables -/

section Table

variable {κ β : Type} [BEq κ]

/-- `HashMap::remove`. -/
def tableRemove (k : κ) (t : List (κ × β)) : List (κ × β) := t.filter fun e => e.1 != k

/-- `HashMap::insert`. -/
def tableInsert (k : κ) (v : β) (t : List (κ × β)) : List (κ × β) := (k, v) :: tableRemove k t

variable [LawfulBEq κ] [DecidableEq κ]

theorem lookup_tableRemove (k k' : κ) (t : List (κ × β)) :
    (tableRemove k t).lookup k' = if k' = k then none else t.lookup k' := by
  induction t with
  | nil => simp [tableRemove]
  | cons e t ih =>
    obtain ⟨x, v⟩ := e
    rw [tableRemove] at ih ⊢
    rw [List.filter_cons, List.lookup_cons]
    by_cases hx : x = k
    · subst hx
      rw [if_neg (by simp), ih]
      by_cases hk : k' = x
      · rw [if_pos hk, if_pos hk]
      · rw [if_neg hk, if_neg hk, beq_false_of_ne hk]
    · rw [if_pos (by simpa using hx), List.lookup_cons, ih]
      by_cases hk : k' = x
      · subst hk
        simp [hx]
      · rw [beq_false_of_ne hk]

@[simp] theorem lookup_tableRemove_self (k : κ) (t : List (κ × β)) :
    (tableRemove k t).lookup k = none := by
  rw [lookup_tableRemove, if_pos rfl]

theorem lookup_tableInsert (k k' : κ) (v : β) (t : List (κ × β)) :
    (tableInsert k v t).lookup k' = if k' = k then some v else t.lookup k' := by
  rw [tableInsert, List.lookup_cons, lookup_tableRemove]
  by_cases hk : k' = k
  · simp [hk]
  · rw [beq_false_of_ne hk, if_neg hk, if_neg hk]

@[simp] theorem lookup_tableInsert_self (k : κ) (v : β) (t : List (κ × β)) :
    (tableInsert k v t).lookup k = some v := by
  rw [lookup_tableInsert, if_pos rfl]

end Table

/-! ## The daemon -/

/-- A notifier is registered under a branch and a mountpoint. -/
abbrev NotifierKey := String × String

structure Daemon where
  manager : Manager
  notifiers : List (NotifierKey × Nat)
  /-- The live mounts with their sessions. -/
  mounts : List (String × Nat)
  shutdown : Bool

/-- `BranchError`, as far as the daemon returns it. -/
inductive DaemonError where
  | branch (e : BranchError)
  | mountNotFound (mountpoint : String)
  deriving DecidableEq

/-- A request to the daemon. -/
abbrev DaemonReq := EStateM DaemonError Daemon

namespace Daemon

/-- `get_mount_branch`. -/
def getMountBranch (d : Daemon) (mountpoint : String) : Option String :=
  d.manager.mountBranches.lookup mountpoint

/-- `get_branch_name`, of the mount at a mountpoint. -/
def branchName (d : Daemon) (mountpoint : String) : String :=
  (d.getMountBranch mountpoint).getD "main"

/-- `set_mount_branch`. -/
def setMountBranch (mountpoint branch : String) (d : Daemon) : Daemon :=
  { d with manager :=
    { d.manager with mountBranches := tableInsert mountpoint branch d.manager.mountBranches } }

/-- `unregister_mount`. -/
def unregisterMount (mountpoint : String) (d : Daemon) : Daemon :=
  let manager :=
    { d.manager with mountBranches := tableRemove mountpoint d.manager.mountBranches }
  match d.getMountBranch mountpoint with
  | some old =>
    { d with manager := manager, notifiers := tableRemove (old, mountpoint) d.notifiers }
  | none => { d with manager := manager }

/-- `switch_mount_branch`. -/
def switchMountBranch (mountpoint newBranch : String) (d : Daemon) : Daemon :=
  let old := d.getMountBranch mountpoint
  let d := d.setMountBranch mountpoint newBranch
  match old with
  | none => d
  | some old =>
    match d.notifiers.lookup (old, mountpoint) with
    | none => d
    | some session =>
      { d with notifiers :=
        tableInsert (newBranch, mountpoint) session (tableRemove (old, mountpoint) d.notifiers) }

/-- `register_notifier`. -/
def registerNotifier (branch mountpoint : String) (session : Nat) (d : Daemon) : Daemon :=
  { d with notifiers := tableInsert (branch, mountpoint) session d.notifiers }

/-- The keys of the registered notifiers. -/
def registered (d : Daemon) : List NotifierKey := d.notifiers.map Prod.fst

/-- `invalidate_all_mounts`: the notifiers it goes through. -/
def invalidateAllMounts (d : Daemon) : List NotifierKey := d.registered

/-- `invalidate_branches`: the notifiers it goes through. -/
def invalidateBranches (branchNames : List String) (d : Daemon) : List NotifierKey :=
  d.registered.filter fun key => branchNames.contains key.1

end Daemon

/-- An operation of the manager. -/
def askManager {α : Type} (x : Mgr α) : DaemonReq α := fun d =>
  match x d.manager with
  | .ok a m => .ok a { d with manager := m }
  | .error e m => .error (.branch e) { d with manager := m }

/-- `Daemon::spawn_mount`; `answer` is what `spawn_mount2` says. -/
def spawnMount (branch mountpoint : String) (answer : Except Errno Nat) : DaemonReq Unit := fun d =>
  if d.manager.isBranchValid branch then
    -- registered before the file system is made, so that it knows its branch
    let d := d.setMountBranch mountpoint branch
    match answer with
    | .error errno => .error (.branch (.io errno)) (d.unregisterMount mountpoint)
    | .ok session =>
      let d := d.registerNotifier branch mountpoint session
      .ok () { d with mounts := tableInsert mountpoint session d.mounts }
  else .error (.branch (.notFound branch)) d

/-- `Daemon::unmount`. -/
def unmount (mountpoint : String) : DaemonReq Unit := fun d =>
  match d.mounts.lookup mountpoint with
  | none => .error (.mountNotFound mountpoint) d
  | some _ =>
    let mounts := tableRemove mountpoint d.mounts
    let d := { d with mounts := mounts }.unregisterMount mountpoint
    .ok () { d with shutdown := d.shutdown || mounts.isEmpty }

end BranchFs
