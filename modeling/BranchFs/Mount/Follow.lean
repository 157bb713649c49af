/-
# BranchFs.Mount.Follow -- the inode table after a rename

A rename moves a subtree, the inode table is flat: `rename` takes out the entries of the two names and
hands out a new number for the destination. The number a program holds of the renamed entry is dead, and
the numbers of what lies below keep the old paths, where something else may be created next. So the
numbers follow exactly those renames whose source no number denotes (`rename_follows_iff`).
-/
import BranchFs.Isolate.Handlers
import BranchFs.Model.Handlers

namespace BranchFs

open BranchFs.Posix BranchFs.Logic

/-! ## What a number denotes -/

/-- The path of a branch a number stands for. -/
def Mount.denotes (s : Mount) (ino : Nat) : Option (String × RelPath) :=
  (s.inodes.getPath ino).bind fun path =>
    match classifyPath path with
    | .branchDir b => some (b, [])
    | .branchPath b rel => some (b, rel)
    | .rootPath rel => some (s.branchName, rel)
    | .branchCtl _ => none

/-- Each number of the source or of something below it denotes the corresponding path of the
destination afterwards, and none has stayed at the source. -/
structure InodesFollow (s s' : Mount) (branch : String) (src dst : RelPath) : Prop where
  follow : ∀ ino q, s.denotes ino = some (branch, src ++ q) →
    s'.denotes ino = some (branch, dst ++ q)
  gone : ∀ ino q q', s.denotes ino = some (branch, src ++ q) →
    s'.denotes ino ≠ some (branch, src ++ q')

/-- The numbers follow every rename that is answered with success. -/
def InodesFollowRenames : Prop :=
  ∀ s : Mount, s.Reachable → ∀ parent name newparent newname flags paths s',
    renamePaths parent name newparent newname s = .ok paths s →
    rename parent name newparent newname flags s = .ok () s' →
    InodesFollow s s' paths.branch paths.src paths.dst

/-! ## The mount's branch -/

/-- The mounts show the branches they showed. -/
def SameBranchOf (m m' : Manager) : Prop := m'.mountBranches = m.mountBranches

section Mounts

variable {ε α β : Type}

theorem SameBranchOf.refl (m : Manager) : SameBranchOf m m := rfl

theorem SameBranchOf.trans (m m' m'' : Manager) (h : SameBranchOf m m') (h' : SameBranchOf m' m'') :
    SameBranchOf m m'' := Eq.trans h' h

theorem mountOf_bind {x : EStateM ε Manager α} {f : α → EStateM ε Manager β}
    (hx : Keeps SameBranchOf x) (hf : ∀ a, Keeps SameBranchOf (f a)) : Keeps SameBranchOf (x >>= f) :=
  keeps_bind SameBranchOf.trans hx hf

theorem mountOf_still {x : EStateM ε Manager α} (h : ∀ m, after x m = m) : Keeps SameBranchOf x :=
  fun m => (h m).symm ▸ SameBranchOf.refl m

theorem mountOf_pure (a : α) : Keeps SameBranchOf (pure a : EStateM ε Manager α) := fun _ => rfl

theorem mountOf_onDisk (x : Io α) : Keeps SameBranchOf (onDisk x) := by
  intro m
  unfold after onDisk
  cases x m.disk <;> rfl

theorem mountOf_asReq (f : BranchError → Errno) {x : Mgr α} (hx : Keeps SameBranchOf x) :
    Keeps SameBranchOf (asReq f x) := by
  intro m
  rw [after_asReq]
  exact hx m

theorem mountOf_ioOrEio (x : Io α) : Keeps SameBranchOf (ioOrEio x) := mountOf_asReq _ (mountOf_onDisk x)

theorem mountOf_ignoring (x : Io α) : Keeps SameBranchOf (ignoring x) :=
  mountOf_bind (keeps_attempt (mountOf_ioOrEio x)) fun _ => mountOf_pure _

theorem mountOf_when {c : Prop} [Decidable c] {x : EStateM ε Manager PUnit}
    (hx : Keeps SameBranchOf x) : Keeps SameBranchOf (when c x) :=
  keeps_when SameBranchOf.refl c fun _ => hx

theorem mountOf_quotaCheck (n : UInt64) : Keeps SameBranchOf (quotaCheck n) := by
  intro m
  unfold after quotaCheck
  split
  · next h =>
    split at h <;> cases h
    rfl
  · next h =>
    split at h <;> cases h
    rfl

theorem mountOf_recordFirstTouch (name : String) (p : RelPath) (inherited : Option Place)
    (capture : Bool) : Keeps SameBranchOf (recordFirstTouch name p inherited capture) := by
  have hkeep : ∀ text, Keeps SameBranchOf (keepBaseContent name p text) := by
    intro text
    cases text with
    | none => exact mountOf_pure _
    | some bytes =>
      exact mountOf_bind (mountOf_onDisk _) fun _ => mountOf_bind (mountOf_onDisk _) fun _ =>
        mountOf_pure _
  have hcapture : Keeps SameBranchOf (captureBaseContent name p inherited) := by
    cases inherited with
    | none => exact mountOf_pure _
    | some src => exact mountOf_bind (mountOf_onDisk _) fun text => hkeep text
  have hkey : Keeps SameBranchOf (contentKey name p inherited capture) := by
    unfold contentKey
    split
    · exact hcapture
    · exact mountOf_pure _
  refine mountOf_bind (mountOf_still (after_getBranch name)) fun b => ?_
  split
  · exact mountOf_pure _
  · exact mountOf_bind (fun _ => rfl) fun _ => mountOf_bind hkey fun _ => fun _ => rfl

theorem mountOf_copyUpInherited (f : Faults) (delta : Place) (inherited : Option Place) :
    Keeps SameBranchOf (Faulty.copyUpInherited f delta inherited) := by
  cases inherited with
  | none => exact mountOf_pure _
  | some src =>
    refine mountOf_bind (fun _ => rfl) fun found => ?_
    cases found with
    | error e => exact mountOf_pure _
    | ok n =>
      show Keeps SameBranchOf (if n.kind.isDir then pure () else Faulty.copyUpNode f src delta n)
      split
      · exact mountOf_pure _
      · exact mountOf_bind (mountOf_quotaCheck _) fun _ => mountOf_bind (mountOf_onDisk _) fun _ =>
          fun _ => rfl

theorem mountOf_ensureDelta (f : Faults) (name : String) (p : RelPath) :
    Keeps SameBranchOf (Faulty.ensureDeltaPathForWrite f name p) := by
  have htouch : Keeps SameBranchOf (Faulty.touchAndCopyUp f name p) :=
    mountOf_bind (mountOf_still (after_inheritedForTouch name p)) fun inherited =>
      mountOf_bind (mountOf_recordFirstTouch name p inherited true) fun _ =>
        mountOf_copyUpInherited f _ inherited
  refine mountOf_bind (mountOf_still (after_writableBranch name)) fun _ => ?_
  refine mountOf_bind (fun _ => rfl) fun there => ?_
  refine mountOf_bind (mountOf_when htouch) fun _ => ?_
  refine mountOf_bind (fun _ => rfl) fun _ => ?_
  exact mountOf_bind (mountOf_onDisk _) fun _ => mountOf_pure _

theorem mountOf_renamePath (name : String) (src dst : RelPath) (noReplace : Bool) :
    Keeps SameBranchOf (renamePath name src dst noReplace) := by
  have hclear : Keeps SameBranchOf (clearDestination name dst) := by
    refine mountOf_bind (fun _ => rfl) fun there => ?_
    refine mountOf_bind (fun _ => rfl) fun isDir => mountOf_when ?_
    split <;> exact mountOf_ignoring _
  have hcow : ∀ p, Keeps SameBranchOf (ensureCowForBranch name p) := fun p => by
    rw [ensureCowForBranch, ← Faulty.ensureDeltaPathForWrite_absent]
    exact mountOf_asReq _ (mountOf_ensureDelta .absent name p)
  refine mountOf_bind (fun _ => rfl) fun srcThere => ?_
  refine mountOf_bind (keeps_failIf SameBranchOf.refl _ _) fun _ => ?_
  refine mountOf_bind (fun _ => rfl) fun srcInherited => ?_
  refine mountOf_bind (fun _ => rfl) fun dstThere => ?_
  refine mountOf_bind (keeps_failIf SameBranchOf.refl _ _) fun _ => ?_
  refine mountOf_bind (hcow src) fun srcDelta => ?_
  refine mountOf_bind (hcow dst) fun dstDelta => ?_
  refine mountOf_bind (mountOf_ioOrEio _) fun _ => ?_
  refine mountOf_bind (fun _ => rfl) fun dstExisted => ?_
  refine mountOf_bind (mountOf_when hclear) fun _ => ?_
  refine mountOf_bind (mountOf_ioOrEio _) fun _ => ?_
  exact mountOf_asReq _ (mountOf_bind (mountOf_still (after_getBranch name)) fun _ => fun _ => rfl)

end Mounts

/-! ## What a rename does to the table -/

variable {s s' : Mount} {parent newparent : Nat} {name newname : String} {flags : RenameFlags}
variable {paths : RenamePaths}

/-- A number that was handed out has the path it had, or none any more. -/
theorem getPath_moveInode {t : InodeManager} {path : RelPath} {ino : Nat}
    (h : t.getPath ino = some path) (src dst : RelPath) (isDir : Bool) :
    (moveInode src dst isDir t).getPath ino = some path ∨
      (moveInode src dst isDir t).getPath ino = none := by
  have hlt : ino < t.nextIno := by
    obtain ⟨i, hi, rfl, -⟩ := InodeManager.getPath_eq_some.mp h
    exact t.below i hi
  cases hafter : (moveInode src dst isDir t).getPath ino with
  | none => exact Or.inr rfl
  | some path' =>
    left
    obtain ⟨i, hi, hino, rfl⟩ := InodeManager.getPath_eq_some.mp hafter
    -- the only new entry has a new number
    have hold : i ∈ ((t.remove src).remove dst).infos := by
      unfold moveInode InodeManager.getOrCreate at hi
      split at hi
      · exact hi
      · rcases List.mem_cons.mp hi with rfl | hi
        · exact absurd hino (Nat.ne_of_gt hlt)
        · exact hi
    have hmem : i ∈ t.infos := List.mem_of_mem_filter (List.mem_of_mem_filter hold)
    have hsame : t.getPath ino = some i.path :=
      InodeManager.getPath_eq_some.mpr ⟨i, hmem, hino, rfl⟩
    rw [h] at hsame
    exact hsame.symm

theorem onReq_ok {α : Type} {x : Req α} {a : α} (h : onReq x s = .ok a s') :
    s' = { s with manager := after x s.manager } := by
  unfold onReq at h
  unfold after
  split at h
  · next hx =>
    injection h with _ hs
    rw [← hs, hx]
  · cases h

theorem epoch_failWhenStale (h : failWhenStale s = .ok () s') :
    s' = { s with currentEpoch := s.manager.epoch } := by
  obtain ⟨stale, s₁, hstale, h⟩ := bind_eq_ok h
  injection hstale with hvalue hs
  subst hs
  cases hv : stale with
  | true =>
    rw [hv] at h
    cases h
  | false =>
    rw [hv] at h
    injection h with _ hs
    exact hs.symm

/-- **What a rename leaves of the mount**: what its body leaves of the manager, the branch it shows, and
the table with the two names taken out and one number more. -/
theorem rename_eq_ok (hpaths : renamePaths parent name newparent newname s = .ok paths s)
    (h : rename parent name newparent newname flags s = .ok () s') :
    renamePath paths.branch paths.src paths.dst flags.noReplace s.manager = .ok () s'.manager ∧
      s'.branchName = s.branchName ∧
      ∃ isDir, s'.inodes = moveInode paths.srcInode paths.dstInode isDir s.inodes := by
  obtain ⟨_, s₁, hflags, hrest⟩ := bind_eq_ok h
  rw [(failIf_eq_ok hflags).2] at hrest
  obtain ⟨paths', s₂, hpaths', hrest⟩ := bind_eq_ok hrest
  rw [hpaths] at hpaths'
  cases hpaths'
  obtain ⟨_, s₃, hbody, hrest⟩ := bind_eq_ok hrest
  have hs₃ := onReq_ok hbody
  obtain ⟨_, s₄, hstale, hrest⟩ := bind_eq_ok hrest
  have hs₄ : s₄.manager = s₃.manager ∧ s₄.inodes = s₃.inodes ∧ s₄.mountpoint = s₃.mountpoint := by
    unfold when at hstale
    split at hstale
    · rw [epoch_failWhenStale hstale]
      exact ⟨rfl, rfl, rfl⟩
    · injection hstale with _ hs
      rw [← hs]
      exact ⟨rfl, rfl, rfl⟩
  injection hrest with _ hs'
  have hmounts : s₃.manager.mountBranches = s.manager.mountBranches := by
    rw [hs₃]
    exact mountOf_renamePath paths.branch paths.src paths.dst flags.noReplace s.manager
  have hinodes : s₄.inodes = s.inodes := by rw [hs₄.2.1, hs₃]
  have hpoint : s₄.mountpoint = s.mountpoint := by rw [hs₄.2.2, hs₃]
  have hmanager : s'.manager = s₃.manager := by rw [← hs', ← hs₄.1]
  refine ⟨?_, ?_, s₄.manager.disk.isDir (deltaPath paths.branch paths.dst), by rw [← hs', ← hinodes]⟩
  · rw [hmanager]
    unfold onReq at hbody
    split at hbody
    · next m hm =>
      injection hbody with _ hbody
      rw [hm, ← hbody]
    · cases hbody
  · rw [← hs']
    show (s₄.manager.mountBranches.lookup s₄.mountpoint).getD "main" = s.branchName
    rw [hs₄.1, hmounts, hpoint]
    rfl

/-- A number keeps what it denotes, or denotes nothing any more. -/
theorem denotes_after_rename (hpaths : renamePaths parent name newparent newname s = .ok paths s)
    (h : rename parent name newparent newname flags s = .ok () s') {ino : Nat}
    {place : String × RelPath} (hino : s.denotes ino = some place) :
    s'.denotes ino = some place ∨ s'.denotes ino = none := by
  obtain ⟨-, hbranch, isDir, hinodes⟩ := rename_eq_ok hpaths h
  unfold Mount.denotes at hino ⊢
  rw [hinodes, hbranch]
  cases hpath : s.inodes.getPath ino with
  | none => simp [hpath] at hino
  | some path =>
    rw [hpath] at hino
    rcases getPath_moveInode hpath paths.srcInode paths.dstInode isDir with hkept | hgone
    · left
      rw [hkept]
      exact hino
    · right
      rw [hgone]
      rfl

/-- **The numbers follow a rename exactly when none denotes the source or anything below it.** -/
theorem rename_follows_iff (hpaths : renamePaths parent name newparent newname s = .ok paths s)
    (h : rename parent name newparent newname flags s = .ok () s') :
    InodesFollow s s' paths.branch paths.src paths.dst ↔
      ∀ ino q, s.denotes ino ≠ some (paths.branch, paths.src ++ q) := by
  constructor
  · intro hfollows ino q hino
    rcases denotes_after_rename hpaths h hino with hkept | hgone
    · exact hfollows.gone ino q q hino hkept
    · have hmoved := hfollows.follow ino q hino
      rw [hgone] at hmoved
      cases hmoved
  · intro hnone
    exact ⟨fun ino q hino => absurd hino (hnone ino q), fun ino q _ hino _ => hnone ino q hino⟩

/-! ## A directory and what lies in it -/

/-- A mount of `main` with a directory, a file in it and a file beside it; the first two have been
looked up. -/
def openedDir : Mount :=
  run Mount.step (Mount.new (Manager.init .bare) "/mnt" true)
    [.manager (.file "main" (.mkdir [] "d" 0o755)), .manager (.file "main" (.create ["d"] "x" 0o644)),
      .manager (.file "main" (.create [] "f" 0o644)), .lookup rootIno "d", .lookup 2 "x"]

theorem openedDir_reachable : openedDir.Reachable := ⟨_, _, _, _, ⟨_, [], rfl⟩, rfl⟩

theorem openedDir_run :
    (resultOf (rename rootIno "d" rootIno "e" ⟨false, false⟩) openedDir = some () ∧
      openedDir.denotes 3 = some ("main", ["d", "x"]) ∧
      (after (rename rootIno "d" rootIno "e" ⟨false, false⟩) openedDir).denotes 3 =
        some ("main", ["d", "x"])) ∧
    resultOf (rename rootIno "f" rootIno "g" ⟨false, false⟩) openedDir = some () ∧
      (∀ i ∈ openedDir.inodes.infos, i.path.head? ≠ some "f" ∧ stripAt (i.path.headD "") = none) ∧
      openedDir.inodes.getPath rootIno = some [] ∧ openedDir.branchName = "main" ∧
      openedDir.manager.isBranchWritable "main" = true := by
  decide +kernel

/-- What a rename in the root of a mount of an open `main` is about. -/
theorem renamePaths_root (hroot : s.inodes.getPath rootIno = some []) (hbranch : s.branchName = "main")
    (hwritable : s.manager.isBranchWritable "main" = true) (name newname : String) :
    renamePaths rootIno name rootIno newname s =
      .ok ⟨"main", [name], [newname], [name], [newname], true⟩ s := by
  have hpath : inodePath rootIno s = .ok [] s := by
    rw [inodePath, hroot]
  have hdeny : onReq (denyUnlessWritable "main") s = .ok () s := by
    rw [onReq, denyUnlessWritable, if_pos hwritable]
  have hparent : needParent [] s = .ok ⟨none, [], []⟩ s := rfl
  have hof : renameBranch none s = .ok "main" s := by
    rw [← hbranch]
    rfl
  unfold renamePaths
  rw [bind_ok hpath, bind_ok hpath, bind_ok hparent, bind_ok hparent]
  have hsame : failIf ((none : Option String) ≠ none) Errno.EXDEV s = .ok () s :=
    failIf_ok (fun h => h rfl) _ _
  refine (bind_ok hsame).trans ?_
  exact (bind_ok hof).trans (bind_ok hdeny)

/-- After `d` has been renamed the number of `d/x` still says `d/x`. -/
theorem not_inodesFollowRenames : ¬ InodesFollowRenames := by
  intro h
  obtain ⟨⟨hok, hbefore, hafter⟩, -, -, hroot, hbranch, hwritable⟩ := openedDir_run
  have hfollows := h openedDir openedDir_reachable rootIno "d" rootIno "e" ⟨false, false⟩ _ _
    (renamePaths_root hroot hbranch hwritable "d" "e") (ok_of_resultOf hok)
  exact hfollows.gone 3 ["x"] ["x"] hbefore hafter

/-- The file nobody has looked up is renamed. -/
theorem rename_follows_unseen : InodesFollow openedDir
    (after (rename rootIno "f" rootIno "g" ⟨false, false⟩) openedDir) "main" ["f"] ["g"] := by
  obtain ⟨-, hok, hpaths, hroot, hbranch, hwritable⟩ := openedDir_run
  refine (rename_follows_iff (renamePaths_root hroot hbranch hwritable "f" "g")
    (ok_of_resultOf hok)).mpr ?_
  intro ino q hino
  unfold Mount.denotes at hino
  cases hpath : openedDir.inodes.getPath ino with
  | none => simp [hpath] at hino
  | some path =>
    obtain ⟨i, hi, -, rfl⟩ := InodeManager.getPath_eq_some.mp hpath
    obtain ⟨hhead, hname⟩ := hpaths i hi
    rw [hpath, Option.bind_some] at hino
    cases hp : i.path with
    | nil =>
      rw [hp] at hino
      simp [classifyPath] at hino
    | cons n rest =>
      rw [hp] at hhead hname hino
      have hclass : classifyPath (n :: rest) = .rootPath (n :: rest) := by
        rw [classifyPath, show stripAt n = none from hname]
      simp only [hclass, Option.some.injEq, Prod.mk.injEq, List.singleton_append,
        List.cons.injEq] at hino
      exact hhead (congrArg some hino.2.1)

end BranchFs
