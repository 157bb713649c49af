/-
# BranchFs.Quota.Unpriced -- what leaves the counter alone

Only copy-on-write, writes, truncations and deletions move the counter. Forking, committing, aborting and
freezing leave it as it is, whatever they add to a store or take from it; so do edits of the host.
-/
import BranchFs.Isolate.Commit

namespace BranchFs

open BranchFs.Posix BranchFs.Logic

variable {ε α β : Type}

/-- The counter stands where it stood. -/
def SameQuota (m m' : Manager) : Prop := m'.quota = m.quota

theorem SameQuota.refl (m : Manager) : SameQuota m m := rfl

theorem SameQuota.trans (m m' m'' : Manager) (h : SameQuota m m') (h' : SameQuota m' m'') :
    SameQuota m m'' := Eq.trans h' h

/-- No run of the operation moves the counter. -/
abbrev Unpriced (x : EStateM ε Manager α) : Prop := Keeps SameQuota x

theorem unpriced_bind {x : EStateM ε Manager α} {f : α → EStateM ε Manager β} (hx : Unpriced x)
    (hf : ∀ a, Unpriced (f a)) : Unpriced (x >>= f) := keeps_bind SameQuota.trans hx hf

theorem unpriced_pure (a : α) : Unpriced (pure a : EStateM ε Manager α) := fun _ => rfl

theorem unpriced_still {x : EStateM ε Manager α} (h : ∀ m, after x m = m) : Unpriced x :=
  fun m => (h m).symm ▸ SameQuota.refl m

theorem unpriced_onDisk (x : Io α) : Unpriced (onDisk x) := by
  intro m
  unfold after onDisk
  cases x m.disk <;> rfl

theorem unpriced_when {c : Prop} [Decidable c] {x : EStateM ε Manager PUnit} (hx : Unpriced x) :
    Unpriced (when c x) := keeps_when SameQuota.refl c fun _ => hx

theorem unpriced_failIf (c : Prop) [Decidable c] (e : ε) :
    Unpriced (failIf c e : EStateM ε Manager PUnit) := keeps_failIf SameQuota.refl c e

theorem unpriced_forM {f : α → EStateM ε Manager PUnit} (xs : List α) (hf : ∀ x, Unpriced (f x)) :
    Unpriced (xs.forM f) :=
  keeps_forM SameQuota.refl SameQuota.trans xs fun x _ => hf x

theorem unpriced_modifyBranch (name : String) (f : Branch → Branch) : Unpriced (modifyBranch name f) :=
  fun _ => rfl

theorem unpriced_bumpEpoch : Unpriced bumpEpoch := fun _ => rfl

theorem unpriced_removeBranch (name : String) : Unpriced (removeBranch name) := by
  intro m
  unfold after removeBranch
  split
  · next h =>
    split at h
    · cases h
      rfl
    · cases h
  · next h =>
    split at h
    · cases h
    · cases h
      rfl

/-! ## Deletions, before and after the removal -/

theorem unpriced_prune (name : String) : ∀ (levels : Nat) (q : RelPath),
    Unpriced (pruneEmptyDeltaParents name levels q) := by
  intro levels
  induction levels with
  | zero => exact fun _ => unpriced_pure _
  | succ levels ih =>
    intro q
    refine unpriced_bind (unpriced_still (after_getBranch name)) fun b => ?_
    split
    · exact unpriced_pure _
    · refine unpriced_bind (keeps_attempt (unpriced_onDisk _)) fun r => ?_
      cases r with
      | ok _ => exact ih q.dropLast
      | error _ => exact unpriced_pure _

theorem unpriced_removeTouchRecordsUnder (name : String) (p : RelPath) :
    Unpriced (removeTouchRecordsUnder name p) := by
  refine unpriced_bind (unpriced_still (after_getBranch name)) fun b => ?_
  refine unpriced_bind (unpriced_modifyBranch name _) fun _ => ?_
  refine unpriced_forM _ fun record => ?_
  cases record.baseContentKey with
  | none => exact unpriced_pure _
  | some key =>
    intro m
    unfold after
    dsimp only
    cases Posix.Sys.removeFile (touchContentPath name key) m.disk with
    | ok a d => rfl
    | error e d => cases e <;> rfl

/-! ## The life cycle -/

theorem unpriced_takeSnapshot (parent name : String) : Unpriced (takeSnapshot parent name) := by
  have hcopy : Unpriced (snapshotVisibleTree parent name) := fun m =>
    unpriced_onDisk _ { m with disk := m.disk.purge fun r => r == some (.inherited name) }
  refine unpriced_bind (keeps_attempt hcopy) fun r => ?_
  cases r with
  | ok _ => exact unpriced_pure _
  | error e => exact unpriced_bind (fun _ => rfl) fun _ _ => rfl

theorem unpriced_createBranch (name parent : String) (inheritance : InheritanceMode)
    (hidePaths : List String) :
    Unpriced (createBranchWithOptions name parent inheritance hidePaths) := by
  refine unpriced_bind (keeps_fromExcept SameQuota.refl _) fun _ => ?_
  refine unpriced_bind (fun _ => rfl) fun taken => ?_
  refine unpriced_bind (unpriced_failIf _ _) fun _ => ?_
  refine unpriced_bind (fun m => ?_) fun parentBranch => ?_
  · unfold SameQuota after
    dsimp only
    cases m.forest.get? parent <;> rfl
  refine unpriced_bind (unpriced_when (unpriced_takeSnapshot parent name)) fun _ => ?_
  refine unpriced_bind (fun m => ?_) fun _ => unpriced_bumpEpoch
  unfold after insertBranch
  split
  · next h =>
    split at h
    · cases h
      rfl
    · cases h
  · next h =>
    split at h
    · cases h
    · cases h
      rfl

theorem unpriced_setBranchState (name : String) (state : BranchState) :
    Unpriced (setBranchState name state) := by
  refine unpriced_bind (unpriced_failIf _ _) fun _ => ?_
  refine unpriced_bind (unpriced_still (after_getBranch name)) fun _ => ?_
  exact unpriced_bind (unpriced_modifyBranch name _) fun _ => unpriced_bumpEpoch

theorem unpriced_abort (name : String) : Unpriced (abort name) := by
  refine unpriced_bind (unpriced_still (after_finalizable name)) fun found => ?_
  exact unpriced_bind (unpriced_removeBranch name) fun _ => unpriced_pure _

/-! ## Commit -/

theorem unpriced_mergedText (b : Branch) (p : RelPath) (src : Place) :
    Unpriced (mergedText b p src) := by
  refine unpriced_bind (fun _ => rfl) fun m => ?_
  refine unpriced_bind (unpriced_still (after_readTouchBaseContent _ _)) fun baseBytes => ?_
  refine unpriced_bind (unpriced_onDisk _) fun sessionBytes => ?_
  split
  · refine unpriced_bind (unpriced_onDisk _) fun current => ?_
    split
    · exact unpriced_pure _
    · split <;> exact fun _ => rfl
  · exact unpriced_pure _

theorem unpriced_detectFile (b : Branch) (p : RelPath) (src : Place) (r : Report) :
    Unpriced (detectFile b p src r) := by
  refine unpriced_bind (fun _ => rfl) fun m => ?_
  dsimp only
  split
  · exact unpriced_pure _
  · refine unpriced_bind ?_ fun merged => ?_
    · unfold mergeAttempt
      split
      · exact unpriced_mergedText b p src
      · exact unpriced_pure _
    · cases merged with
      | none => exact unpriced_pure _
      | some bytes =>
        refine unpriced_bind (unpriced_onDisk _) fun _ => ?_
        exact unpriced_bind (unpriced_onDisk _) fun _ => unpriced_pure _

theorem unpriced_detectFiles (b : Branch) : ∀ (files : List (RelPath × Place)) (r : Report),
    Unpriced (detectFiles b files r) := by
  intro files
  induction files with
  | nil => exact fun _ => unpriced_pure _
  | cons f files ih =>
    exact fun r => unpriced_bind (unpriced_detectFile b f.1 f.2 r) fun r' => ih r'

theorem unpriced_commitIntoBase (name : String) (r : Report) (tombstones : List RelPath)
    (files : List (RelPath × Place)) : Unpriced (commitIntoBase name r tombstones files) := by
  refine unpriced_bind (unpriced_onDisk _) fun staged => ?_
  refine unpriced_bind (unpriced_forM _ fun p => ?_) fun _ => ?_
  · exact unpriced_bind (keeps_attempt (unpriced_onDisk _)) fun _ => unpriced_pure _
  refine unpriced_bind (unpriced_modifyBranch "main" _) fun _ => ?_
  exact unpriced_bind (unpriced_removeBranch name) fun _ => unpriced_bumpEpoch

theorem unpriced_commitIntoParent (name : String) (parent : Branch) (r : Report)
    (tombstones : List RelPath) (files : List (RelPath × Place)) :
    Unpriced (commitIntoParent name parent r tombstones files) := by
  refine unpriced_bind (fun _ => rfl) fun m => ?_
  refine unpriced_bind (unpriced_onDisk _) fun staged => ?_
  refine unpriced_bind (unpriced_forM _ fun dir => unpriced_prune _ _ _) fun _ => ?_
  refine unpriced_bind (unpriced_modifyBranch _ _) fun _ => ?_
  refine unpriced_bind (unpriced_modifyBranch _ _) fun _ => ?_
  exact unpriced_bind (unpriced_removeBranch name) fun _ => unpriced_bumpEpoch

/-- **A commit** moves deltas without the counter. -/
theorem unpriced_commit (order : HashOrder) (name : String) :
    Unpriced (commitWithReport order name) := by
  refine unpriced_bind (unpriced_still (after_finalizable name)) fun found => ?_
  refine unpriced_bind (fun _ => rfl) fun files => ?_
  refine unpriced_bind ?_ fun report => unpriced_bind ?_ fun _ => unpriced_pure _
  · unfold reportFor
    split
    · exact unpriced_bind (fun _ => rfl) fun m => unpriced_detectFiles _ _ _
    · exact unpriced_pure _
  · unfold applyCommit
    split
    · exact unpriced_commitIntoBase name report _ files
    · exact unpriced_commitIntoParent name _ report _ files

end BranchFs
