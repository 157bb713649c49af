/-
# BranchFs.Isolate.Snapshot -- snapshots are isolated

A snapshot branch starts with what its parent shows, and keeps it whatever is done to other branches
and to the base directory: nothing of it is read through the parent again. Both need that no link is
followed, in the directories that are copied and by the steps that come after; a base directory
replaced by a link into the store of the branch is written through by the next commit.
-/
import BranchFs.Fork.Create
import BranchFs.Isolate.Commit
import BranchFs.Isolate.Until

namespace BranchFs

open BranchFs.Posix BranchFs.Logic

/-! ## Steps elsewhere -/

/-- The branch is neither `name` nor a child of it. -/
def Manager.Elsewhere (m : Manager) (name branch : String) : Prop :=
  branch ≠ name ∧ ∀ c, m.forest.get? branch = some c → c.parent ≠ some name

/-- The step is not done to `name` or to a child of it. -/
def Op.Elsewhere (name : String) (m : Manager) : Op → Prop
  | .create branch parent _ _ => branch ≠ name ∧ parent ≠ name
  | .commit _ branch => m.Elsewhere name branch
  | .abort branch => m.Elsewhere name branch
  | .freeze branch => m.Elsewhere name branch
  | .thaw branch => m.Elsewhere name branch
  | .revert branch _ => m.Elsewhere name branch
  | .file branch _ => m.Elsewhere name branch
  | .host _ => True

/-- The edit of the base directory is one: no link leads it out of there. -/
def HostEdit.InBase (m : Manager) : HostEdit → Prop
  | write p _ => m.disk.NoLinkAbove (basePath p) ∧ m.disk.linkAt (basePath p) = false
  | mkdir p => m.disk.NoLinkAbove (basePath p)
  | symlink p _ => m.disk.NoLinkAbove (basePath p)
  | unlink p => m.disk.NoLinkAbove (basePath p)
  | removeTree p => m.disk.NoLinkAbove (basePath p)

/-- The step follows no link. -/
def Op.FollowsNoLink (m : Manager) : Op → Prop
  | .file branch op => op.Contained m branch
  | .revert branch p => m.ClearWay branch p
  | .commit _ branch => ∀ c parent, m.forest.get? branch = some c → c.parent = some parent.name →
      m.forest.get? parent.name = some parent → m.CommitClear branch c parent
  | .host edit => edit.InBase m
  | _ => True

section

variable {b name parent : String} {m m' : Manager} {α : Type}

theorem spares_keep {β : Type} {x : Mgr α} {f : α → Mgr β} (hx : Keeps (Spares b) x)
    (hf : ∀ a, Keeps (Spares b) (f a)) : Keeps (Spares b) (x >>= f) :=
  keeps_bind (fun _ _ _ h h' => h.trans h') hx hf

theorem spares_read {x : Mgr α} (h : ∀ m, after x m = m) : Keeps (Spares b) x := by
  intro m
  rw [h m]
  exact Spares.refl b m

/-- An operation without invariant, from one with a guard that is empty. -/
theorem spares_unguarded {x : Mgr α} {Q : Manager → Prop}
    (h : Framed (Spares b) (Clear ∅) Q x) : Keeps (Spares b) x := fun m =>
  (h m fun l hl => absurd hl (Set.notMem_empty l)).1

theorem spares_of_sameOn {d : Tree} (hne : b ≠ name)
    (h : SameOn (fun r => r ≠ some (.inherited name)) m.disk d) :
    Spares b m { m with disk := d } where
  record := rfl
  layers := h.mono fun r hr => by
    rcases hr with rfl | rfl
    · simp
    · simpa using hne

/-! ## Creation -/

/-- A snapshot is taken in the new branch's own store. -/
theorem after_snapshotVisibleTree (m : Manager) (parent name : String) :
    ∃ d, after (snapshotVisibleTree parent name) m = { m with disk := d } ∧
      SameOn (fun r => r ≠ some (.inherited name)) m.disk d := by
  have hfilled := snapshotVisibleDir_filled m parent name
    (((emptied m name).height + 1) * (m.forest.list.length + 1)) [] _ (emptyAt_root m name)
  refine ⟨_, ?_, (sameOn_emptied m name).trans hfilled.same⟩
  unfold after snapshotVisibleTree onDisk
  dsimp only
  rw [snapshotVisibleDir_disk]
  unfold emptied
  cases snapshotVisibleDir m parent name
    (((m.disk.purge fun r => r == some (.inherited name)).height + 1) *
      (m.forest.list.length + 1)) [] (m.disk.purge fun r => r == some (.inherited name)) <;> rfl

theorem spares_snapshotVisibleTree (hne : b ≠ name) :
    Keeps (Spares b) (snapshotVisibleTree parent name) := by
  intro m
  obtain ⟨d, hrun, hsame⟩ := after_snapshotVisibleTree m parent name
  rw [hrun]
  exact spares_of_sameOn hne hsame

theorem spares_removeStore (hne : b ≠ name) : Keeps (Spares b) (removeStore name) := by
  intro m
  refine ⟨rfl, ?_⟩
  refine (sameOn_purge (d := m.disk) (P := ofBranch name)).mono fun r hr => ?_
  rcases hr with rfl | rfl
  · simp [ofBranch, Root.owner, hne]
  · simp [ofBranch, Root.owner, hne]

theorem spares_takeSnapshot (hne : b ≠ name) : Keeps (Spares b) (takeSnapshot parent name) := by
  refine spares_keep (keeps_attempt (spares_snapshotVisibleTree hne)) fun r => ?_
  cases r with
  | ok _ => exact keeps_pure (Spares.refl b) _
  | error e =>
    exact spares_keep (spares_removeStore hne) fun _ => keeps_throw (Spares.refl b) e

theorem spares_insertBranch {c : Branch} (hne : b ≠ c.name) :
    Keeps (Spares b) (insertBranch c parent) := by
  intro m
  unfold after insertBranch
  by_cases h : c.parent = some parent ∧ m.forest.get? parent ≠ none ∧ m.forest.get? c.name = none
  · rw [dif_pos h]
    refine ⟨?_, SameOn.refl _ _⟩
    rw [Forest.get?_fork, if_neg hne]
  · rw [dif_neg h]
    exact Spares.refl b m

theorem spares_create {inheritance : InheritanceMode} {hidePaths : List String} (hne : b ≠ name) :
    Keeps (Spares b) (createBranchWithOptions name parent inheritance hidePaths) := by
  refine spares_keep (keeps_fromExcept (Spares.refl b) _) fun _ => ?_
  refine spares_keep (spares_read fun _ => rfl) fun taken => ?_
  refine spares_keep (keeps_failIf (Spares.refl b) _ _) fun _ => ?_
  refine spares_keep (spares_read fun m => ?_) fun parentBranch => ?_
  · unfold after
    cases h : m.forest.get? parent <;> simp only [h]
  · refine spares_keep (keeps_when (Spares.refl b) _ fun _ => spares_takeSnapshot hne) fun _ => ?_
    refine spares_keep (spares_insertBranch hne) fun _ => spares_unguarded (Q := Clear ∅) ?_
    exact spares_bumpEpoch

/-! ## The other steps -/

theorem spares_setBranchState {state : BranchState} (hne : b ≠ name) :
    Keeps (Spares b) (setBranchState name state) := by
  refine spares_keep (keeps_failIf (Spares.refl b) _ _) fun _ => ?_
  refine spares_keep (spares_read (after_getBranch name)) fun _ => ?_
  refine spares_keep (spares_unguarded (Q := Clear ∅) (spares_modify hne)) fun _ => ?_
  exact spares_unguarded (Q := Clear ∅) spares_bumpEpoch

theorem spares_abort (hne : b ≠ name) : Keeps (Spares b) (BranchFs.abort name) := by
  refine spares_keep (spares_read (after_finalizable name)) fun _ => ?_
  refine spares_keep (spares_unguarded (Q := fun _ => True) (spares_removeBranch hne)) fun _ => ?_
  exact keeps_pure (Spares.refl b) _

/-- An edit that stays in the base directory reaches no branch. -/
theorem spares_host {edit : HostEdit} (h : edit.InBase m) :
    Spares b m (after (onDisk edit.run) m) := by
  let S : Set Place := { l | m.disk.linkAt l = false }
  have hclear : Clear S m := fun _ hl => hl
  have hway : ∀ {p : RelPath}, m.disk.NoLinkAbove (basePath p) → WayIn S (basePath p) :=
    fun hp a ha hne => hp.not_link ha hne
  have hbase : ∀ r, OwnLayer b r → ¬ r = some .base := by
    rintro r (rfl | rfl) <;> simp
  have hframed : Framed (Inside (· = some .base)) (Guard S) (Guard ∅) edit.run := by
    have hlose : ∀ {x : Io Unit}, Framed (Inside (· = some .base)) (Guard S) (Guard S) x →
        Framed (Inside (· = some .base)) (Guard S) (Guard ∅) x := fun hx =>
      hx.mono (fun _ hd => hd) fun _ hd => hd.mono (Set.empty_subset S)
    cases edit with
    | write p data => exact hlose (Posix.Sys.framed_writeFile rfl rfl (hway h.1) h.2)
    | mkdir p => exact hlose (Posix.Sys.framed_mkdir rfl rfl (hway h))
    | symlink p target =>
      exact Posix.Sys.framed_symlink rfl rfl (hway h) fun x hx => absurd hx (Set.notMem_empty x)
    | unlink p => exact hlose (Posix.Sys.framed_removeFile rfl rfl (hway h))
    | removeTree p => exact hlose (Posix.Sys.framed_removeDirAll rfl rfl (hway h))
  exact (spares_onDisk hframed hbase m hclear).1

/-- **A step elsewhere that follows no link spares a branch.** -/
theorem step_spares {op : Op} (h : op.Elsewhere b m) (hlink : op.FollowsNoLink m) :
    Spares b m (step m op) := by
  cases op with
  | create branch up inheritance hidePaths => exact spares_create (fun heq => h.1 heq.symm) m
  | commit order branch =>
    refine spares_commit (fun heq => h.1 heq.symm) fun c up hc hup hparent => ?_
    refine ⟨?_, hlink c up hc hup hparent⟩
    rintro rfl
    exact h.2 c hc hup
  | abort branch => exact spares_abort (fun heq => h.1 heq.symm) m
  | freeze branch => exact spares_setBranchState (fun heq => h.1 heq.symm) m
  | thaw branch => exact spares_setBranchState (fun heq => h.1 heq.symm) m
  | revert branch p =>
    have hstep : Op.ContainedIn branch m (.revert branch p) := ⟨rfl, hlink⟩
    exact Spares.of_isolated (step_isolated hstep) fun heq => h.1 heq.symm
  | file branch fop =>
    have hstep : Op.ContainedIn branch m (.file branch fop) := ⟨rfl, hlink⟩
    exact Spares.of_isolated (step_isolated hstep) fun heq => h.1 heq.symm
  | host edit => exact spares_host hlink

theorem run_spares {ops : List Op}
    (h : Along step (fun m op => op.Elsewhere b m ∧ op.FollowsNoLink m) m ops) :
    Spares b m (run step m ops) :=
  run_inv (I := Spares b m) (fun _ _ hs hop => hs.trans (step_spares hop.1 hop.2)) ops m
    (Spares.refl b m) h

end

/-! ## Snapshots -/

/-- A snapshot branch without a change of its own. -/
structure PureSnapshot (m : Manager) (name : String) : Prop where
  record : ∃ c, m.forest.get? name = some c ∧ c.parent ≠ none ∧ c.inheritance = .snapshot ∧
    c.tombstones = [] ∧ c.hidePaths = []
  unchanged : ∀ q, q ≠ [] → deltaKind m.disk name q = none

/-- What such a branch shows is its snapshot. -/
theorem PureSnapshot.view {m : Manager} {name : String} (h : PureSnapshot m name) :
    m.view name = treeKind (.inherited name) m.disk := by
  obtain ⟨c, hc, hup, hmode, htomb, hhide⟩ := h.record
  obtain ⟨parent, hparent⟩ := Option.ne_none_iff_exists'.mp hup
  obtain rfl : c.name = name := Forest.name_of_get? hc
  have hno : ∀ q, ¬ Leaf .dir (deltaKind m.disk c.name) q := by
    rintro q ⟨k, hk, hkd⟩
    by_cases hq : q = []
    · subst hq
      rw [(deltaKind_closed m.disk c.name).root] at hk
      exact hkd (Option.some.inj hk).symm
    · rw [h.unchanged q hq] at hk
      cases hk
  rw [Manager.view_eq_walk, ← shown_lookup]
  refine shown_congr_of_dirs fun q _ => ?_
  rw [kindOf_of_dirs hc htomb hno (Branch.isHidden_of_noRules hhide q)]
  have hinherited : kindAtPath m.disk (m.inheritedResolve c q) = kindAtPath m.disk
      (if m.disk.lexists (inTree (.inherited c.name) q) then
        some (inTree (.inherited c.name) q) else none) := by
    simp only [Manager.inheritedResolve, inheritedStep, hparent, hmode]
    rfl
  rw [hinherited]
  by_cases hq : q = []
  · subst hq
    have hroot := Disk.kindAt_root m.disk (l := inTree (.inherited c.name) []) rfl
    have hread := Manager.kindAtPath_here (R := .inherited c.name) (p := [])
      (Disk.noLinkAbove_of_dir (d := m.disk) hroot)
    rw [(deltaKind_closed m.disk c.name).root, Option.some_or]
    exact (hread.trans hroot).symm
  · rw [h.unchanged q hq, Option.none_or]

theorem PureSnapshot.of_spares {m m' : Manager} {name : String} (h : PureSnapshot m name)
    (hs : Spares name m m') : PureSnapshot m' name where
  record := by
    rw [hs.record]
    exact h.record
  unchanged q hq := by
    rw [← h.unchanged q hq]
    exact hs.layers.kindAt (Or.inl rfl)

/-- A snapshot branch shows at its creation what its parent shows, and goes on to show it whatever
is done elsewhere. -/
def SnapshotsAreIsolated : Prop :=
  ∀ m, Reachable m → ∀ name parent m₁,
    createBranchWithOptions name parent .snapshot [] m = .ok () m₁ →
      m₁.view name = m.view parent ∧
        ∀ ops, Along step (fun m op => op.Elsewhere name m) m₁ ops →
          (run step m₁ ops).view name = m.view parent

section

variable {m m₁ : Manager} {name parent : String}

theorem pureSnapshot_of_create
    (hok : createBranchWithOptions name parent .snapshot [] m = .ok () m₁)
    (hfree : ∀ q, q ≠ [] → deltaKind m.disk name q = none) : PureSnapshot m₁ name := by
  obtain ⟨q, -, h⟩ := createBranch_eq_ok hok
  refine ⟨⟨_, by rw [h.record]; exact if_pos rfl, by simp [newBranch], rfl, rfl, rfl⟩, ?_⟩
  intro p hp
  rw [← hfree p hp]
  exact h.kept.kindAt (by simp [deltaPath])

/-- **Snapshots are isolated.** Where no delta was left under the name and no tree has a link in
place of a directory the parent shows, the new branch shows what its parent shows, and keeps showing
it in every run of steps elsewhere that follow no link. -/
theorem snapshot_isolated (ops : List Op)
    (hok : createBranchWithOptions name parent .snapshot [] m = .ok () m₁)
    (hfree : ∀ q, q ≠ [] → deltaKind m.disk name q = none) (hlink : m.NoLinkUnderShown parent)
    (h : Along step (fun m op => op.Elsewhere name m ∧ op.FollowsNoLink m) m₁ ops) :
    (run step m₁ ops).view name = m.view parent := by
  have hpure := pureSnapshot_of_create hok hfree
  have hspares := run_spares h
  rw [(hpure.of_spares hspares).view]
  obtain ⟨_, -, hforked⟩ := createBranch_eq_ok hok
  funext q
  have hsame : treeKind (.inherited name) (run step m₁ ops).disk q =
      treeKind (.inherited name) m₁.disk q := hspares.layers.kindAt (Or.inr rfl)
  rw [hsame]
  exact hforked.copied rfl hlink q

end

/-! ## A base directory replaced by a link -/

/-- A base directory with a directory, and a branch that made a file in it. -/
def fileInDir : Manager :=
  run step (Manager.init .bare)
    [.host (.mkdir ["d"]), .create "b" "main" .lazy [], .file "b" (.create ["d"] "x" 0o644)]

/-- The state with a snapshot of `main`. -/
def withSnapshot (m : Manager) : Manager := step m (.create "n" "main" .snapshot [])

/-- The directory is replaced by a link into the store of the snapshot, and the file committed. -/
def linkedAndCommitted : List Op :=
  [.host (.removeTree ["d"]),
    .host (.symlink ["d"] ⟨true, [.name "store", .name "branches", .name "n", .name "inherited"]⟩),
    .commit .listed "b"]

/-- Whether the snapshot could be taken. -/
def snapshotTaken (m : Manager) : Bool :=
  match createBranchWithOptions "n" "main" .snapshot [] m with
  | .ok _ _ => true
  | .error _ _ => false

theorem withSnapshot_ok {m : Manager} (h : snapshotTaken m = true) :
    createBranchWithOptions "n" "main" .snapshot [] m = .ok () (withSnapshot m) := by
  unfold snapshotTaken at h
  cases hrun : createBranchWithOptions "n" "main" .snapshot [] m with
  | ok u m' =>
    have hafter : withSnapshot m = m' := after_ok hrun
    rw [hafter]
  | error e m' =>
    rw [hrun] at h
    cases h

/-- The file stands in the snapshot after the commit, and did not before. -/
theorem fileInDir_run :
    snapshotTaken fileInDir = true ∧ fileInDir.view "main" ["x"] = none ∧
      (run step (withSnapshot fileInDir) linkedAndCommitted).view "n" ["x"] = some (.file []) ∧
      (((run step (withSnapshot fileInDir) (linkedAndCommitted.take 2)).forest.get? "b").map
        Branch.parent = some (some "main")) := by
  decide +kernel

theorem not_snapshotsAreIsolated : ¬ SnapshotsAreIsolated := by
  intro h
  obtain ⟨htaken, hbefore, hafter, hup⟩ := fileInDir_run
  have hstays := (h fileInDir ⟨.bare, _, rfl⟩ "n" "main" _ (withSnapshot_ok htaken)).2
    linkedAndCommitted ⟨trivial, trivial, ⟨by decide, ?_⟩, trivial⟩
  · rw [hstays, hbefore] at hafter
    cases hafter
  · intro c hc
    have hc' : (run step (withSnapshot fileInDir) (linkedAndCommitted.take 2)).forest.get? "b" =
        some c := hc
    rw [hc', Option.map_some, Option.some.injEq] at hup
    rw [hup]
    decide

/-! ## A run without links -/

/-- Without links, and without side names among the targets, a commit follows none. -/
theorem commitClear_of_linkless {m : Manager} {name : String} {c parent : Branch}
    (h : Linkless m.disk) (hplain : ∀ t ∈ c.tombstones ++ (walkFiles m.disk name).map Prod.fst,
      PlainPath t) : m.CommitClear name c parent where
  plain t ht := hplain t (List.mem_append.mpr ht)
  content l _ := h.linkAt l
  way _ _ := h.linkAt _
  tmp _ _ := h.linkAt _
  between _ _ _ := h.linkAt _
  shadow _ _ _ _ _ _ := h.linkAt _

/-- A base directory with a file, and a branch that made another. -/
def fileBeside : Manager :=
  run step (Manager.init .bare)
    [.host (.write ["f"] [120]), .create "b" "main" .lazy [], .file "b" (.create [] "g" 0o644)]

/-- The branch is committed, and the file of the base directory removed. -/
def committedAndRemoved : List Op := [.commit .listed "b", .host (.unlink ["f"])]

theorem fileBeside_run :
    (snapshotTaken fileBeside = true ∧ Linkless fileBeside.disk ∧
      fileBeside.view "main" ["f"] = some (.file [120])) ∧
    (Linkless (withSnapshot fileBeside).disk ∧
      ((withSnapshot fileBeside).forest.get? "b").map Branch.parent = some (some "main") ∧
      ((withSnapshot fileBeside).forest.get? "b").map Branch.tombstones = some [] ∧
      (walkFiles (withSnapshot fileBeside).disk "b").map Prod.fst = [["g"]]) ∧
    Linkless (step (withSnapshot fileBeside) (.commit .listed "b")).disk ∧
    (run step (withSnapshot fileBeside) committedAndRemoved).view "main" ["f"] = none ∧
    fileBeside.disk.entries.all (fun e => e.1.root != some (.files "n")) = true := by
  decide +kernel

/-- The snapshot keeps the file that is removed from the base directory. -/
theorem snapshot_isolated_sample :
    (run step (withSnapshot fileBeside) committedAndRemoved).view "n" ["f"] = some (.file [120]) ∧
      (run step (withSnapshot fileBeside) committedAndRemoved).view "main" ["f"] = none := by
  obtain ⟨⟨htaken, hlinkless, hbefore⟩, hmade, hlinkless₂, hafter, hfree⟩ := fileBeside_run
  obtain ⟨hlinkless₁, hup, htomb, hfiles⟩ := hmade
  refine ⟨?_, hafter⟩
  rw [← hbefore, ← snapshot_isolated committedAndRemoved (withSnapshot_ok htaken) ?_
    (fun _ _ _ _ => hlinkless.linkAt _) ⟨⟨⟨by decide, ?_⟩, ?_⟩, ⟨trivial, ?_⟩, trivial⟩]
  · exact fun q hq => deltaKind_of_entries hfree hq
  · intro c hc
    rw [hc, Option.map_some, Option.some.injEq] at hup
    rw [hup]
    decide
  · intro c parent hc _ _
    refine commitClear_of_linkless hlinkless₁ ?_
    rw [hc, Option.map_some, Option.some.injEq] at htomb
    rw [htomb, hfiles]
    decide
  · exact Disk.noLinkAbove_of fun a _ _ => hlinkless₂.linkAt a

end BranchFs
