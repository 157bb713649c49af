/-
# BranchFs.Mount.Tables -- what a failed mount request leaves behind

`spawn_mount` enters the mountpoint into the branch table before it asks the kernel, and on failure
takes it out again together with the notifier under the new branch. Whatever stood under the mountpoint
before is gone with it (`spawnMount_error`): a live mount there has no branch any more, and falls back
to `main`. Requests for a mountpoint that is free do no harm, and keep every live mount registered
(`Registered`).
-/
import BranchFs.Logic.Framed
import BranchFs.Model.Daemon

namespace BranchFs

open BranchFs.Posix BranchFs.Logic

namespace Daemon

variable {d d' : Daemon} {branch mountpoint mp : String} {answer : Except Errno Nat}

/-! ## Lookups -/

@[simp] theorem getMountBranch_set : (d.setMountBranch mountpoint branch).getMountBranch mp =
    if mp = mountpoint then some branch else d.getMountBranch mp :=
  lookup_tableInsert mountpoint mp branch _

@[simp] theorem notifiers_set : (d.setMountBranch mountpoint branch).notifiers = d.notifiers := rfl

@[simp] theorem mounts_set : (d.setMountBranch mountpoint branch).mounts = d.mounts := rfl

@[simp] theorem getMountBranch_unregister : (d.unregisterMount mountpoint).getMountBranch mp =
    if mp = mountpoint then none else d.getMountBranch mp := by
  unfold unregisterMount
  cases d.getMountBranch mountpoint with
  | none => exact lookup_tableRemove mountpoint mp _
  | some old => exact lookup_tableRemove mountpoint mp _

@[simp] theorem mounts_unregister : (d.unregisterMount mountpoint).mounts = d.mounts := by
  unfold unregisterMount
  cases d.getMountBranch mountpoint <;> rfl

/-- A mountpoint that is unregistered takes the notifier of its branch with it. -/
theorem notifiers_unregister (key : NotifierKey) :
    (d.unregisterMount mountpoint).notifiers.lookup key =
      if d.getMountBranch mountpoint = some key.1 ∧ key.2 = mountpoint then none
      else d.notifiers.lookup key := by
  unfold unregisterMount
  cases hold : d.getMountBranch mountpoint with
  | none => simp
  | some old =>
    show (tableRemove (old, mountpoint) d.notifiers).lookup key = _
    rw [lookup_tableRemove]
    obtain ⟨b, p⟩ := key
    simp only [Prod.mk.injEq, Option.some.injEq]
    by_cases hb : b = old
    · by_cases hp : p = mountpoint
      · rw [if_pos ⟨hb, hp⟩, if_pos ⟨hb.symm, hp⟩]
      · rw [if_neg fun h => hp h.2, if_neg fun h => hp h.2]
    · rw [if_neg fun h => hb h.1, if_neg fun h => hb h.1.symm]

/-! ## A failed request -/

/-- What a failed request leaves: nothing changed, or the mountpoint and the notifier under the new
branch taken out. -/
theorem spawnMount_error {e : DaemonError}
    (h : spawnMount branch mountpoint answer d = .error e d') :
    d.manager.isBranchValid branch = false ∧ d' = d ∨
      d.manager.isBranchValid branch = true ∧
        (∀ mp, d'.getMountBranch mp = if mp = mountpoint then none else d.getMountBranch mp) ∧
        ∀ key, d'.notifiers.lookup key =
          if key = (branch, mountpoint) then none else d.notifiers.lookup key := by
  unfold spawnMount at h
  cases hvalid : d.manager.isBranchValid branch with
  | false =>
    rw [hvalid] at h
    injection h with _ hd
    exact Or.inl ⟨rfl, hd.symm⟩
  | true =>
    rw [hvalid] at h
    cases answer with
    | ok session => cases h
    | error errno =>
      injection h with _ hd
      refine Or.inr ⟨rfl, fun mp => ?_, fun key => ?_⟩
      · rw [← hd, getMountBranch_unregister, getMountBranch_set]
        by_cases hmp : mp = mountpoint
        · rw [if_pos hmp, if_pos hmp]
        · rw [if_neg hmp, if_neg hmp, if_neg hmp]
      · rw [← hd, notifiers_unregister, getMountBranch_set, notifiers_set, if_pos rfl]
        obtain ⟨b, p⟩ := key
        simp only [Option.some.injEq, Prod.mk.injEq, eq_comm]

/-- Every live mount shows the branch it showed, and the notifiers are what they were. -/
structure Harmless (d d' : Daemon) : Prop where
  branch : ∀ mp session, d.mounts.lookup mp = some session →
    d'.getMountBranch mp = d.getMountBranch mp
  notifiers : ∀ key, d'.notifiers.lookup key = d.notifiers.lookup key

/-- Every failed mount request is harmless, whatever is mounted and however the kernel refuses. -/
def FailedMountsAreHarmless : Prop :=
  ∀ (d d' : Daemon) branch mountpoint answer e,
    spawnMount branch mountpoint answer d = .error e d' → Harmless d d'

/-- A failed request is harmless exactly when the branch does not exist, or when no live mount is
registered at the mountpoint and no notifier under the new branch. -/
theorem failed_mount_harmless_iff {e : DaemonError}
    (h : spawnMount branch mountpoint answer d = .error e d') :
    Harmless d d' ↔ d.manager.isBranchValid branch = false ∨
      (d.mounts.lookup mountpoint = none ∨ d.getMountBranch mountpoint = none) ∧
        d.notifiers.lookup (branch, mountpoint) = none := by
  rcases spawnMount_error h with ⟨hinvalid, rfl⟩ | ⟨hvalid, hbranch, hnotifiers⟩
  · exact iff_of_true ⟨fun _ _ _ => rfl, fun _ => rfl⟩ (Or.inl hinvalid)
  · simp only [hvalid, Bool.true_eq_false, false_or]
    constructor
    · intro hsafe
      constructor
      · cases hlive : d.mounts.lookup mountpoint with
        | none => exact Or.inl rfl
        | some session =>
          have hsame := hsafe.branch mountpoint session hlive
          rw [hbranch, if_pos rfl] at hsame
          exact Or.inr hsame.symm
      · have hsame := hsafe.notifiers (branch, mountpoint)
        rw [hnotifiers, if_pos rfl] at hsame
        exact hsame.symm
    · rintro ⟨hfree, hnone⟩
      constructor
      · intro mp session hlive
        rw [hbranch]
        split
        · next heq =>
          subst heq
          rcases hfree with hfree | hfree
          · rw [hfree] at hlive
            cases hlive
          · exact hfree.symm
        · rfl
      · intro key
        rw [hnotifiers]
        split
        · next heq => rw [heq, hnone]
        · rfl

/-! ## Daemons in order -/

/-- Every live mount has its branch and its notifier, and there are no others. -/
structure Registered (d : Daemon) : Prop where
  live : ∀ mp, (d.mounts.lookup mp).isSome = (d.getMountBranch mp).isSome
  notifier : ∀ b mp, d.notifiers.lookup (b, mp) =
    if d.getMountBranch mp = some b then d.mounts.lookup mp else none

/-- In such a daemon a request for a free mountpoint fails without harm. -/
theorem Registered.harmless (hd : d.Registered) (hfree : d.mounts.lookup mountpoint = none)
    {e : DaemonError} (h : spawnMount branch mountpoint answer d = .error e d') : Harmless d d' := by
  have hnone : d.notifiers.lookup (branch, mountpoint) = none := by
    rw [hd.notifier, hfree, ite_self]
  rcases spawnMount_error h with ⟨-, rfl⟩ | ⟨-, hbranch, hnotifiers⟩
  · exact ⟨fun _ _ _ => rfl, fun _ => rfl⟩
  · constructor
    · intro mp session hlive
      rw [hbranch, if_neg]
      rintro rfl
      rw [hfree] at hlive
      cases hlive
    · intro key
      rw [hnotifiers]
      split
      · next heq => rw [heq, hnone]
      · rfl

/-- Tables that look alike are in order alike. -/
theorem Registered.congr (hd : d.Registered) (hmounts : d'.mounts = d.mounts)
    (hbranch : ∀ mp, d'.getMountBranch mp = d.getMountBranch mp)
    (hnotifiers : ∀ key, d'.notifiers.lookup key = d.notifiers.lookup key) : d'.Registered where
  live mp := by rw [hmounts, hbranch, hd.live]
  notifier b mp := by rw [hmounts, hbranch, hnotifiers, hd.notifier]

/-- A mountpoint that is not live has no entry. -/
theorem Registered.free (hd : d.Registered) (hfree : d.mounts.lookup mp = none) :
    d.getMountBranch mp = none := by
  have hlive := hd.live mp
  rw [hfree, Option.isSome_none] at hlive
  exact Option.not_isSome_iff_eq_none.mp (by rw [← hlive]; exact Bool.false_ne_true)

/-! ## Requests in sequence -/

/-- What happens to a daemon: requests, and a live mount that is switched to another branch. -/
inductive Event where
  | mount (branch mountpoint : String) (answer : Except Errno Nat)
  | unmount (mountpoint : String)
  | switch (mountpoint branch : String)

def step (d : Daemon) : Event → Daemon
  | .mount branch mountpoint answer => after (spawnMount branch mountpoint answer) d
  | .unmount mountpoint => after (BranchFs.unmount mountpoint) d
  | .switch mountpoint branch => d.switchMountBranch mountpoint branch

/-- A request for a mountpoint that is free, or a change at one that is live. -/
def Event.Orderly (d : Daemon) : Event → Prop
  | .mount _ mountpoint _ => d.mounts.lookup mountpoint = none
  | .unmount _ => True
  | .switch mountpoint _ => d.mounts.lookup mountpoint ≠ none

theorem Registered.mount (hd : d.Registered) (hfree : d.mounts.lookup mountpoint = none) :
    (after (spawnMount branch mountpoint answer) d).Registered := by
  cases hrun : spawnMount branch mountpoint answer d with
  | error e d' =>
    rw [after_error hrun]
    have hmounts : d'.mounts = d.mounts := by
      unfold spawnMount at hrun
      split at hrun
      · cases answer with
        | ok session => cases hrun
        | error errno =>
          injection hrun with _ hd'
          rw [← hd', mounts_unregister, mounts_set]
      · injection hrun with _ hd'
        rw [hd']
    refine hd.congr hmounts (fun mp => ?_) (hd.harmless hfree hrun).notifiers
    rcases spawnMount_error hrun with ⟨-, rfl⟩ | ⟨-, hbranch, -⟩
    · rfl
    · rw [hbranch]
      split
      · next heq => rw [heq, hd.free hfree]
      · rfl
  | ok _ d' =>
    rw [after_ok hrun]
    unfold spawnMount at hrun
    split at hrun
    · cases answer with
      | error errno => cases hrun
      | ok session =>
        injection hrun with _ hd'
        subst hd'
        constructor
        · intro mp
          show ((tableInsert mountpoint session d.mounts).lookup mp).isSome =
            ((d.setMountBranch mountpoint branch).getMountBranch mp).isSome
          rw [lookup_tableInsert, getMountBranch_set]
          split
          · rfl
          · exact hd.live mp
        · intro b mp
          show (tableInsert (branch, mountpoint) session d.notifiers).lookup (b, mp) =
            if (d.setMountBranch mountpoint branch).getMountBranch mp = some b then
              (tableInsert mountpoint session d.mounts).lookup mp else none
          rw [lookup_tableInsert, getMountBranch_set, lookup_tableInsert, hd.notifier]
          by_cases hmp : mp = mountpoint
          · subst hmp
            by_cases hb : b = branch
            · subst hb
              simp
            · have hb' : ¬ branch = b := fun h => hb h.symm
              simp [hb, hb', hfree]
          · simp [hmp]
    · cases hrun

theorem Registered.unmount (hd : d.Registered) (mountpoint : String) :
    (after (BranchFs.unmount mountpoint) d).Registered := by
  cases hlive : d.mounts.lookup mountpoint with
  | none =>
    have hrun : BranchFs.unmount mountpoint d = .error (.mountNotFound mountpoint) d := by
      rw [BranchFs.unmount, hlive]
    rw [after_error hrun]
    exact hd
  | some session =>
    let cut : Daemon := { d with mounts := tableRemove mountpoint d.mounts }
    have hafter : after (BranchFs.unmount mountpoint) d =
        { cut.unregisterMount mountpoint with
          shutdown := (cut.unregisterMount mountpoint).shutdown || cut.mounts.isEmpty } := by
      rw [after, BranchFs.unmount, hlive]
    rw [hafter]
    constructor
    · intro mp
      show ((cut.unregisterMount mountpoint).mounts.lookup mp).isSome =
        ((cut.unregisterMount mountpoint).getMountBranch mp).isSome
      rw [mounts_unregister, getMountBranch_unregister]
      show ((tableRemove mountpoint d.mounts).lookup mp).isSome = _
      rw [lookup_tableRemove]
      split
      · rfl
      · exact hd.live mp
    · intro b mp
      show (cut.unregisterMount mountpoint).notifiers.lookup (b, mp) =
        if (cut.unregisterMount mountpoint).getMountBranch mp = some b then
          (cut.unregisterMount mountpoint).mounts.lookup mp else none
      rw [notifiers_unregister, getMountBranch_unregister, mounts_unregister]
      show (if d.getMountBranch mountpoint = some b ∧ mp = mountpoint then none
          else d.notifiers.lookup (b, mp)) =
        if (if mp = mountpoint then none else d.getMountBranch mp) = some b then
          (tableRemove mountpoint d.mounts).lookup mp else none
      rw [hd.notifier, lookup_tableRemove]
      by_cases hmp : mp = mountpoint
      · subst hmp
        by_cases hb : d.getMountBranch mp = some b
        · simp [hb]
        · simp [hb]
      · simp [hmp]

theorem Registered.switch (hd : d.Registered) (hlive : d.mounts.lookup mountpoint ≠ none) :
    (d.switchMountBranch mountpoint branch).Registered := by
  obtain ⟨session, hsession⟩ := Option.ne_none_iff_exists'.mp hlive
  obtain ⟨old, hold⟩ : ∃ old, d.getMountBranch mountpoint = some old := by
    rw [← Option.isSome_iff_exists, ← hd.live, hsession, Option.isSome_some]
  have hnotifier : d.notifiers.lookup (old, mountpoint) = some session := by
    rw [hd.notifier, if_pos hold, hsession]
  have hswitch : d.switchMountBranch mountpoint branch =
      { d.setMountBranch mountpoint branch with
        notifiers := tableInsert (branch, mountpoint) session
          (tableRemove (old, mountpoint) d.notifiers) } := by
    unfold switchMountBranch
    have hset : (d.setMountBranch mountpoint branch).notifiers = d.notifiers := rfl
    simp only [hold, hset, hnotifier]
  rw [hswitch]
  constructor
  · intro mp
    show (d.mounts.lookup mp).isSome = ((d.setMountBranch mountpoint branch).getMountBranch mp).isSome
    rw [getMountBranch_set]
    split
    · next heq => rw [heq, hsession, Option.isSome_some, Option.isSome_some]
    · exact hd.live mp
  · intro b mp
    show (tableInsert (branch, mountpoint) session
        (tableRemove (old, mountpoint) d.notifiers)).lookup (b, mp) =
      if (d.setMountBranch mountpoint branch).getMountBranch mp = some b then d.mounts.lookup mp
      else none
    rw [lookup_tableInsert, lookup_tableRemove, getMountBranch_set, hd.notifier]
    by_cases hmp : mp = mountpoint
    · subst hmp
      by_cases hb : b = branch
      · subst hb
        simp [hsession]
      · have hb' : ¬ branch = b := fun h => hb h.symm
        by_cases hbo : b = old
        · subst hbo
          simp [hb, hb']
        · have hbo' : ¬ old = b := fun h => hbo h.symm
          simp [hb, hb', hbo, hold, hbo']
    · simp [hmp]

/-- A daemon in order stays so through orderly events. -/
theorem Registered.step (hd : d.Registered) {event : Event} (h : event.Orderly d) :
    (d.step event).Registered := by
  cases event with
  | mount branch mountpoint answer => exact hd.mount h
  | unmount mountpoint => exact hd.unmount mountpoint
  | switch mountpoint branch => exact hd.switch h

/-- From its start on, a daemon whose mount requests are for free mountpoints is in order. -/
theorem registered_along (m : Manager) (hm : m.mountBranches = []) (events : List Event)
    (h : Along Daemon.step (fun d event => event.Orderly d)
      { manager := m, notifiers := [], mounts := [], shutdown := false } events) :
    (run Daemon.step { manager := m, notifiers := [], mounts := [], shutdown := false }
      events).Registered := by
  refine run_inv (fun _ _ hd hevent => hd.step hevent) events _ ?_ h
  constructor
  · intro mp
    rw [getMountBranch, hm]
    rfl
  · intro b mp
    rw [getMountBranch, hm]
    rfl

/-! ## A busy mountpoint -/

/-- A daemon with a branch `b` mounted at `/mnt`. -/
def mounted : Daemon :=
  run Daemon.step
    { manager := BranchFs.step (Manager.init .bare) (.create "b" "main" .lazy []),
      notifiers := [], mounts := [], shutdown := false }
    [.mount "b" "/mnt" (.ok 1)]

theorem mounted_run :
    mounted.manager.isBranchValid "b" = true ∧ mounted.manager.isBranchValid "c" = false ∧
      mounted.getMountBranch "/mnt" = some "b" ∧ mounted.mounts.lookup "/mnt" = some 1 ∧
      mounted.mounts.lookup "/other" = none ∧ mounted.notifiers.lookup ("b", "/other") = none := by
  decide +kernel

/-- A request for another mountpoint that the kernel refuses. -/
theorem failed_mount_harmless_elsewhere : ∃ d',
    spawnMount "b" "/other" (.error .ENOENT) mounted = .error (.branch (.io .ENOENT)) d' ∧
      Harmless mounted d' := by
  obtain ⟨hvalid, -, -, -, hfree, hnone⟩ := mounted_run
  have hrun : spawnMount "b" "/other" (.error .ENOENT) mounted = .error (.branch (.io .ENOENT))
      ((mounted.setMountBranch "/other" "b").unregisterMount "/other") := by
    rw [spawnMount, hvalid]
    rfl
  exact ⟨_, hrun, (failed_mount_harmless_iff hrun).mpr (Or.inr ⟨Or.inl hfree, hnone⟩)⟩

/-- A second request for `/mnt` that the kernel refuses: the mount that runs there has lost its
branch. -/
theorem not_failedMountsAreHarmless : ¬ FailedMountsAreHarmless := by
  intro h
  obtain ⟨hvalid, -, hbranch, hlive, -, -⟩ := mounted_run
  have hrun : spawnMount "b" "/mnt" (.error Errno.EBUSY) mounted = .error (.branch (.io Errno.EBUSY))
      ((mounted.setMountBranch "/mnt" "b").unregisterMount "/mnt") := by
    rw [spawnMount, hvalid]
    rfl
  have hsame := (h _ _ _ _ _ _ hrun).branch "/mnt" 1 hlive
  rw [getMountBranch_unregister, if_pos rfl, hbranch] at hsame
  cases hsame

end Daemon

end BranchFs
