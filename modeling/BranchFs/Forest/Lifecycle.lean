/-
# BranchFs.Forest.Lifecycle -- the map under the life-cycle calls

Create, commit, abort, freeze and thaw change the branch map by steps that keep it rooted at `main`:
a new branch goes below one that is there, only a leaf is taken out, and anything else leaves the
parents alone. That holds of a call that fails as well, wherever it fails, down to the removal of
the store directory, which comes after the branch has left the map.
-/
import BranchFs.Forest.Recursion
import BranchFs.Isolate.Commit
import Mathlib.Logic.Relation

namespace BranchFs

open BranchFs.Posix BranchFs.Logic

/-! ## Calls -/

/-- `m'` is `done` but that the removal of the store of `name` failed: of the branch's trees anything
may be left, and the call ended there with an error. -/
structure RemovalFailed (name : String) (m done m' : Manager) : Prop where
  outside : m'.disk.purge (ofBranch name) = done.disk
  rest : m' = { done with disk := m'.disk, epoch := m.epoch }

/-- One life-cycle call, successful or failing. -/
inductive LifecycleCall (m : Manager) : Manager → Prop
  | create (name parent : String) (inheritance : InheritanceMode) (hidePaths : List String) :
    LifecycleCall m (after (createBranchWithOptions name parent inheritance hidePaths) m)
  | commit (order : HashOrder) (name : String) :
    LifecycleCall m (after (commitWithReport order name) m)
  | commitLeft (order : HashOrder) (name : String) {o : CommitOutcome} {done m' : Manager}
    (h : commitWithReport order name m = .ok o done) (hleft : RemovalFailed name m done m') :
    LifecycleCall m m'
  | abort (name : String) : LifecycleCall m (after (BranchFs.abort name) m)
  | abortLeft (name : String) {parent : String} {done m' : Manager}
    (h : BranchFs.abort name m = .ok parent done) (hleft : RemovalFailed name m done m') :
    LifecycleCall m m'
  | freeze (name : String) : LifecycleCall m (after (freezeBranch name) m)
  | thaw (name : String) : LifecycleCall m (after (thawBranch name) m)

/-- Any sequence of life-cycle calls. -/
abbrev Lifecycle : Manager → Manager → Prop := Relation.ReflTransGen LifecycleCall

/-! ## The steps of the map -/

/-- The branch map went through steps that keep it rooted. -/
def Relinked (m m' : Manager) : Prop :=
  Relation.ReflTransGen (MapStep Branch.parent "main") m.forest.get? m'.forest.get?

section

variable {m m' : Manager} {α : Type}

theorem Relinked.refl (m : Manager) : Relinked m m := Relation.ReflTransGen.refl

theorem Relinked.trans (m₁ m₂ m₃ : Manager) (h : Relinked m₁ m₂) (h' : Relinked m₂ m₃) :
    Relinked m₁ m₃ := Relation.ReflTransGen.trans h h'

theorem Relinked.of_forest (h : m'.forest = m.forest) : Relinked m m' := by
  unfold Relinked
  rw [h]

/-- Steps of the map keep it rooted. -/
theorem Relinked.rooted (h : Relinked m m') (hm : Rooted Branch.parent m.forest.get? "main") :
    Rooted Branch.parent m'.forest.get? "main" := by
  unfold Relinked at h
  generalize m'.forest.get? = find' at h
  induction h with
  | refl => exact hm
  | tail _ hstep ih => exact ih.step hstep

theorem relinked_seq {β : Type} {x : Mgr α} {f : α → Mgr β} (hx : Keeps Relinked x)
    (hf : ∀ a, Keeps Relinked (f a)) : Keeps Relinked (x >>= f) :=
  keeps_bind Relinked.trans hx hf

theorem relinked_pure (a : α) : Keeps Relinked (pure a : Mgr α) := keeps_pure Relinked.refl a

theorem relinked_onDisk (x : Io α) : Keeps Relinked (onDisk x) := by
  intro m
  refine Relinked.of_forest ?_
  unfold after onDisk
  cases x m.disk <;> rfl

theorem relinked_read {x : Mgr α} (h : ∀ m, after x m = m) : Keeps Relinked x := by
  intro m
  rw [h m]
  exact Relinked.refl m

theorem relinked_bumpEpoch : Keeps Relinked bumpEpoch := fun _ => Relinked.of_forest rfl

theorem relinked_getBranch (name : String) : Keeps Relinked (getBranch name) := by
  refine relinked_read fun m => ?_
  unfold after getBranch
  cases m.forest.get? name <;> rfl

/-! ## The three kinds of step -/

theorem relinked_modifyBranch (name : String) (f : Branch → Branch) :
    Keeps Relinked (modifyBranch name f) := by
  intro m
  refine Relation.ReflTransGen.single (.inPlace fun j => ?_)
  show ((m.forest.modify name f).get? j).map Branch.parent = _
  rw [Forest.get?_modify, Option.map_map]
  congr 1
  exact funext fun b => Forest.modifyAt_parent name f b

theorem relinked_insertBranch (b : Branch) (parent : String) :
    Keeps Relinked (insertBranch b parent) := by
  intro m
  unfold after insertBranch
  by_cases h : b.parent = some parent ∧ m.forest.get? parent ≠ none ∧ m.forest.get? b.name = none
  · rw [dif_pos h]
    refine Relation.ReflTransGen.single (.insert b.name b parent h.2.2 h.1 h.2.1 ?_ ?_)
    · show (m.forest.fork b parent h).get? b.name = some b
      rw [Forest.get?_fork, if_pos rfl]
    · intro j hj
      show (m.forest.fork b parent h).get? j = m.forest.get? j
      rw [Forest.get?_fork, if_neg hj]
  · rw [dif_neg h]
    exact Relinked.refl m

theorem relinked_removeBranch (name : String) : Keeps Relinked (removeBranch name) := by
  intro m
  unfold after removeBranch
  by_cases h : m.forest.isLeaf name = true ∧ name ≠ "main"
  · rw [dif_pos h]
    refine Relation.ReflTransGen.single (.erase name h.2 ?_ ?_ ?_)
    · intro j b hb
      simpa using List.all_eq_true.mp h.1 b (Forest.mem_of_get? hb)
    · show (m.forest.remove name h).get? name = none
      rw [Forest.get?_remove, if_pos rfl]
    · intro j hj
      show (m.forest.remove name h).get? j = m.forest.get? j
      rw [Forest.get?_remove, if_neg hj]
  · rw [dif_neg h]
    exact Relinked.refl m

/-! ## The calls -/

theorem relinked_takeSnapshot (parent name : String) : Keeps Relinked (takeSnapshot parent name) := by
  have htree : Keeps Relinked (snapshotVisibleTree parent name) := by
    intro m
    exact (Relinked.of_forest rfl).trans _ _ _ (relinked_onDisk _ { m with disk := m.disk.purge _ })
  refine relinked_seq (keeps_attempt htree) fun r => ?_
  cases r with
  | ok _ => exact relinked_pure _
  | error e =>
    refine relinked_seq (fun m => Relinked.of_forest rfl) fun _ => ?_
    exact keeps_throw Relinked.refl e

theorem relinked_create (name parent : String) (inheritance : InheritanceMode)
    (hidePaths : List String) :
    Keeps Relinked (createBranchWithOptions name parent inheritance hidePaths) := by
  refine relinked_seq (keeps_fromExcept Relinked.refl _) fun _ => ?_
  refine relinked_seq (relinked_read fun _ => rfl) fun taken => ?_
  refine relinked_seq (keeps_failIf Relinked.refl _ _) fun _ => ?_
  refine relinked_seq (relinked_read fun m => ?_) fun parentBranch => ?_
  · unfold after
    cases h : m.forest.get? parent <;> simp only [h]
  · refine relinked_seq (keeps_when Relinked.refl _ fun _ => relinked_takeSnapshot parent name)
      fun _ => ?_
    exact relinked_seq (relinked_insertBranch _ _) fun _ => relinked_bumpEpoch

theorem relinked_setBranchState (name : String) (state : BranchState) :
    Keeps Relinked (setBranchState name state) := by
  refine relinked_seq (keeps_failIf Relinked.refl _ _) fun _ => ?_
  refine relinked_seq (relinked_getBranch name) fun _ => ?_
  exact relinked_seq (relinked_modifyBranch name _) fun _ => relinked_bumpEpoch

theorem relinked_abort (name : String) : Keeps Relinked (BranchFs.abort name) :=
  relinked_seq (relinked_read (after_finalizable name)) fun _ =>
    relinked_seq (relinked_removeBranch name) fun _ => relinked_pure _

/-! ### Commit -/

theorem relinked_readDisk (f : Tree → α) : Keeps Relinked (readDisk f) := relinked_read fun _ => rfl

theorem relinked_mergeAttempt (b : Branch) (p : RelPath) (src : Place)
    (first current : PathIdentity) : Keeps Relinked (mergeAttempt b p src first current) := by
  unfold mergeAttempt
  split
  · refine relinked_seq (relinked_read fun _ => rfl) fun m => ?_
    refine relinked_seq (relinked_read (after_readTouchBaseContent _ _)) fun baseBytes => ?_
    refine relinked_seq (relinked_onDisk _) fun sessionBytes => ?_
    split
    · refine relinked_seq (relinked_onDisk _) fun current => ?_
      cases current with
      | none => exact relinked_pure _
      | some bytes =>
        dsimp only
        split
        · exact relinked_pure _
        · exact keeps_throw Relinked.refl _
    · exact relinked_pure _
  · exact relinked_pure _

theorem relinked_detectFile (b : Branch) (p : RelPath) (src : Place) (r : Report) :
    Keeps Relinked (detectFile b p src r) := by
  refine relinked_seq (relinked_read fun _ => rfl) fun m => ?_
  dsimp only
  split
  · exact relinked_pure _
  · refine relinked_seq (relinked_mergeAttempt b p src _ _) fun merged => ?_
    cases merged with
    | none => exact relinked_pure _
    | some bytes =>
      exact relinked_seq (relinked_onDisk _) fun _ => relinked_seq (relinked_onDisk _) fun _ =>
        relinked_pure _

theorem relinked_detectFiles (b : Branch) : ∀ (files : List (RelPath × Place)) (r : Report),
    Keeps Relinked (detectFiles b files r) := by
  intro files
  induction files with
  | nil => exact fun r => relinked_pure r
  | cons f rest ih => exact fun r => relinked_seq (relinked_detectFile b f.1 f.2 r) fun r' => ih r'

theorem relinked_reportFor (b parent : Branch) (tombstones : List RelPath)
    (files : List (RelPath × Place)) : Keeps Relinked (reportFor b parent tombstones files) := by
  unfold reportFor
  split
  · exact relinked_seq (relinked_read fun _ => rfl) fun _ => relinked_detectFiles b files _
  · exact relinked_pure _

theorem relinked_pruneEmptyDeltaParents (branch : String) : ∀ (levels : Nat) (p : RelPath),
    Keeps Relinked (pruneEmptyDeltaParents branch levels p) := by
  intro levels
  induction levels with
  | zero => exact fun p => relinked_pure _
  | succ n ih =>
    intro p
    refine relinked_seq (relinked_getBranch branch) fun b => ?_
    split
    · exact relinked_pure _
    · refine relinked_seq (keeps_attempt (relinked_onDisk _)) fun r => ?_
      cases r with
      | ok _ => exact ih p.dropLast
      | error _ => exact relinked_pure _

/-- The end of a commit: the parent's counter, the map, the epoch. -/
theorem relinked_finish (parent name : String) : Keeps Relinked (do
    countCommit parent
    removeBranch name
    bumpEpoch) :=
  relinked_seq (relinked_modifyBranch parent _) fun _ =>
    relinked_seq (relinked_removeBranch name) fun _ => relinked_bumpEpoch

theorem relinked_applyCommit (name : String) (parent : Branch) (r : Report)
    (tombstones : List RelPath) (files : List (RelPath × Place)) :
    Keeps Relinked (applyCommit name parent r tombstones files) := by
  unfold applyCommit
  split
  · refine relinked_seq (relinked_onDisk _) fun staged => ?_
    refine relinked_seq (keeps_forM Relinked.refl Relinked.trans _ fun p _ => ?_) fun _ =>
      relinked_finish "main" name
    exact relinked_seq (keeps_attempt (relinked_onDisk _)) fun _ => relinked_pure _
  · refine relinked_seq (relinked_read fun _ => rfl) fun m => ?_
    refine relinked_seq (relinked_onDisk _) fun staged => ?_
    refine relinked_seq (keeps_forM Relinked.refl Relinked.trans _ fun dir _ =>
      relinked_pruneEmptyDeltaParents _ _ _) fun _ => ?_
    exact relinked_seq (relinked_modifyBranch _ _) fun _ => relinked_finish parent.name name

theorem relinked_commit (order : HashOrder) (name : String) :
    Keeps Relinked (commitWithReport order name) := by
  refine relinked_seq (relinked_read (after_finalizable name)) fun bp => ?_
  refine relinked_seq (relinked_readDisk _) fun files => ?_
  refine relinked_seq (relinked_reportFor bp.1 bp.2 _ files) fun report => ?_
  exact relinked_seq (relinked_applyCommit name bp.2 report _ files) fun _ => relinked_pure _

/-- **Every life-cycle call changes the map by steps that keep it rooted.** -/
theorem LifecycleCall.relinked (h : LifecycleCall m m') : Relinked m m' := by
  -- a removal that fails leaves the map of one that does not
  have hleft : ∀ {name : String} {done : Manager}, Relinked m done → RemovalFailed name m done m' →
      Relinked m m' := by
    intro name done hdone hfailed
    refine hdone.trans _ _ _ (Relinked.of_forest ?_)
    rw [hfailed.rest]
  cases h with
  | create name parent inheritance hidePaths => exact relinked_create _ _ _ _ m
  | commit order name => exact relinked_commit order name m
  | commitLeft order name h hfailed => exact hleft ((relinked_commit order name).ok h) hfailed
  | abort name => exact relinked_abort name m
  | abortLeft name h hfailed => exact hleft ((relinked_abort name).ok h) hfailed
  | freeze name => exact relinked_setBranchState name .frozen m
  | thaw name => exact relinked_setBranchState name .open m

theorem Lifecycle.relinked (h : Lifecycle m m') : Relinked m m' := by
  induction h with
  | refl => exact Relinked.refl m
  | tail _ hcall ih => exact ih.trans _ _ _ hcall.relinked

end

/-! ## The invariant -/

/-- The map is a tree under `main`: `main` is there without a parent, every other branch has a parent
that is there, and the parents of each lead to `main`. So both recursions of the resolution return,
without an error, for every branch and at every path. -/
structure TreeUnderMain (m : Manager) : Prop where
  rooted : Rooted Branch.parent m.forest.get? "main"
  resolves : ∀ name, m.forest.get? name ≠ none → ∀ p,
    Returns (resolvePathLocked m.disk m.forest.get? p) name (m.resolved name p)
  collects : ∀ name, m.forest.get? name ≠ none → ∀ p,
    Returns (collectDirNamesLocked m.disk m.forest.get? p) name (m.collected name p)

end BranchFs
