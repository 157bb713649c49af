/-
# BranchFs.Cow.Revert -- taking back what a branch did to one path

`revert_path_in_branch` drops the branch's delta, tombstones and touch records at a path and below. What
the branch did above the path stays: a tombstone on a directory above still covers the path, and a file
or link of the delta still stands in the way. Where neither is there the inherited subtree comes back,
and no directory that is dropped with the delta is missed.
-/
import BranchFs.Cow.Create
import BranchFs.Cow.Delete

namespace BranchFs

open BranchFs.Posix BranchFs.Logic

theorem pathIsSameOrDescendant_iff {q p : RelPath} (hp : p ≠ []) :
    pathIsSameOrDescendant q p = true ↔ p <+: q := by
  unfold pathIsSameOrDescendant
  rw [Bool.or_eq_true, beq_iff_eq, Bool.and_eq_true, List.isPrefixOf_iff_prefix]
  constructor
  · rintro (rfl | ⟨_, h⟩)
    · exact List.prefix_rfl
    · exact h
  · exact fun h => Or.inr ⟨by simpa using hp, h⟩

/-- The path shows what is inherited, with everything below and nothing of the branch's own left there;
nothing else has changed. -/
structure Reverted (m m' : Manager) (name : String) (b : Branch) (p : RelPath) : Prop where
  restored : ∀ q, p <+: q → m'.view name q = m.inheritedView b q
  kept : ∀ q, ¬ p <+: q → m'.view name q = m.view name q
  noDelta : ∀ q, p <+: q → deltaKind m'.disk name q = none
  noRecord : ∀ b', m'.forest.get? name = some b' →
    (∀ t ∈ b'.tombstones, ¬ p <+: t) ∧ ∀ r ∈ b'.touches, ¬ p <+: r.path

section

variable {m m' : Manager} {name : String} {b : Branch} {p : RelPath}

/-- What dropping kept contents changes: files of the touch-content directory. -/
structure Forgets (name : String) (m m' : Manager) : Prop where
  forest : m'.forest = m.forest
  same : SameOn (fun r => r ≠ some (.touchContent name)) m.disk m'.disk
  mounts : SameMounts m m'

theorem Forgets.trans {m'' : Manager} (h : Forgets name m m') (h' : Forgets name m' m'') :
    Forgets name m m'' :=
  ⟨h'.forest.trans h.forest, h.same.trans h'.same, h.mounts.trans h'.mounts⟩

theorem forgets_refl (name : String) (m : Manager) : Forgets name m m := ⟨rfl, SameOn.refl _ _, rfl⟩

theorem forgets_removeFile (key : String) (m : Manager) :
    Forgets name m { m with disk := after (Sys.removeFile (touchContentPath name key)) m.disk } := by
  refine ⟨rfl, ?_, Sys.settled_removeFile _ m.disk⟩
  have hlink : m.disk.NoLinkAbove (touchContentPath name key) :=
    Disk.noLinkAbove_of_dir (Disk.kindAt_root _ rfl)
  rcases Sys.after_removeFile (l := touchContentPath name key) rfl hlink with h | ⟨hne, _, h⟩
  · show SameOn _ m.disk (after _ m.disk)
    rw [h]
    exact SameOn.refl _ _
  · show SameOn _ m.disk (after _ m.disk)
    rw [h]
    exact Disk.sameOn_cut m.disk hne fun hroot => hroot rfl

/-- **Dropping touch records** below a path. -/
theorem removeTouchRecordsUnder_ok (hb : m.forest.get? name = some b)
    (hok : removeTouchRecordsUnder name p m = .ok () m') :
    Forgets name { m with forest := m.forest.modify name fun b =>
      { b with touches := b.touches.filter fun r => !pathIsSameOrDescendant r.path p } } m' := by
  unfold removeTouchRecordsUnder at hok
  rw [bind_ok (getBranch_ok hb)] at hok
  obtain ⟨_, m₁, hmod, hloop⟩ := bind_eq_ok hok
  cases hmod
  refine (keeps_forM (forgets_refl name) (fun _ _ _ => Forgets.trans) _ ?_).ok hloop
  intro record _ m₀
  unfold after
  cases record.baseContentKey with
  | none => exact forgets_refl name m₀
  | some key =>
    have hstep : Forgets name m₀ _ := forgets_removeFile key m₀
    unfold after at hstep
    simp only
    cases hr : Sys.removeFile (touchContentPath name key) m₀.disk with
    | ok a d => simpa [hr] using hstep
    | error e d => cases e <;> simpa [hr] using hstep

/-- **A revert** takes the path out of the delta, with its tombstones and its touch records. -/
theorem revertPathInBranch_ok (hb : m.forest.get? name = some b)
    (hlink : m.disk.NoLinkAbove (deltaPath name p))
    (hok : revertPathInBranch name p m = .ok () m') :
    p ≠ [] ∧ ∃ b', TakenOut m m' name b b' p ∧ (∀ t ∈ b'.tombstones, ¬ p <+: t) ∧
      ∀ r ∈ b'.touches, ¬ p <+: r.path := by
  unfold revertPathInBranch at hok
  have hp : p ≠ [] := by
    rintro rfl
    rw [bind_error (failIf_error (by simp) _ _)] at hok
    cases hok
  rw [bind_ok (failIf_ok (by simpa using hp) _ _)] at hok
  obtain ⟨_, m₀, hw, hrest⟩ := bind_eq_ok hok
  obtain rfl : m₀ = m := by
    unfold writableBranch at hw
    split at hw
    · split at hw
      · cases hw
        rfl
      · cases hw
    · cases hw
  obtain ⟨d, q, hrun, hdelta, hsame⟩ := removeDelta_ok hb hp hlink
  rw [bind_ok hrun] at hrest
  obtain ⟨_, m₂, hmod, hrest₂⟩ := bind_eq_ok hrest
  cases hmod
  obtain ⟨_, m₃, htouches, hbump⟩ := bind_eq_ok hrest₂
  cases hbump
  have hb₁ : (m₀.forest.modify name (Branch.removeTombstonesUnder p)).get? name =
      some (b.removeTombstonesUnder p) := Forest.get?_modify_self hb rfl rfl
  have hforget := removeTouchRecordsUnder_ok
    (m := { m₀ with disk := d, quota := q, forest := m₀.forest.modify name (Branch.removeTombstonesUnder p) })
    hb₁ htouches
  let dropTouches : Branch → Branch := fun b =>
    { b with touches := b.touches.filter fun r => !pathIsSameOrDescendant r.path p }
  have hsettings : ∀ c, SameSettings c (Branch.removeTombstonesUnder p c) :=
    fun c => ⟨rfl, rfl, rfl, rfl, rfl, rfl, rfl⟩
  have hsettings' : ∀ c, SameSettings c (dropTouches c) := fun c => ⟨rfl, rfl, rfl, rfl, rfl, rfl, rfl⟩
  have hmounts : SameMounts m₀ { m₀ with disk := d, quota := q } := (mounts_removeDelta p).ok hrun
  refine ⟨hp, dropTouches (b.removeTombstonesUnder p), ⟨?_, ?_, ?_, ?_, ?_, ?_⟩, ?_, ?_⟩
  · show m₃.forest.get? name = _
    rw [hforget.forest]
    exact Forest.get?_modify_self hb₁ rfl rfl
  · show m₀.forest.SameBut name m₃.forest
    rw [hforget.forest]
    exact (Forest.SameBut.of_modify hsettings).trans (Forest.SameBut.of_modify hsettings')
  · rw [← hdelta]
    funext x
    exact hforget.same.kindAt (by simp [deltaPath])
  · exact (sameOn_of_own (own_files name) hsame).trans (sameOn_of_own (own_touchContent name) hforget.same)
  · exact hmounts.trans hforget.mounts
  · intro t ht
    show t ∈ b.tombstones.filter _ ↔ _
    rw [List.mem_filter]
    have : pathIsSameOrDescendant t p = false := by
      rw [← Bool.not_eq_true, pathIsSameOrDescendant_iff hp]
      exact ht
    simp [this]
  · intro t ht hpt
    have hmem : t ∈ b.tombstones.filter fun t => !pathIsSameOrDescendant t p := ht
    have := (List.mem_filter.mp hmem).2
    rw [(pathIsSameOrDescendant_iff hp).mpr hpt] at this
    cases this
  · intro r hr hpr
    have hmem : r ∈ b.touches.filter fun r => !pathIsSameOrDescendant r.path p := hr
    have := (List.mem_filter.mp hmem).2
    rw [(pathIsSameOrDescendant_iff hp).mpr hpr] at this
    cases this

/-- **When a revert brings back what is inherited**: exactly when no tombstone stands above the path,
and no file or link of the delta. -/
theorem reverted_iff (hb : m.forest.get? name = some b) (hap : m.LayersApart name)
    (hthere : m.inheritedView b p ≠ none) (hok : revertPathInBranch name p m = .ok () m') :
    Reverted m m' name b p ↔
      (∀ t ∈ b.tombstones, t ≠ [] → t <+: p → t = p) ∧
        ∀ f, Leaf .dir (deltaKind m.disk name) f → f <+: p → f = p := by
  rw [Manager.inheritedView_eq_shown] at hthere
  by_cases hleaf : ∀ f, Leaf .dir (deltaKind m.disk name) f → f <+: p → f = p
  · have hlink : m.disk.NoLinkAbove (deltaPath name p) := by
      refine Disk.noLinkAbove_of fun x hx hne => ?_
      obtain ⟨a, ha, rfl⟩ := le_deltaPath.mp hx
      rcases shape_cases .dir (deltaKind m.disk name) a with hl | hd | hn
      · exact absurd (hleaf a hl ha) (deltaPath_ne.mp hne)
      · exact Disk.linkAt_eq_false_of_kind hd rfl
      · exact Disk.linkAt_of_none hn
    obtain ⟨hp, b', hout, hts, hrs⟩ := revertPathInBranch_ok hb hlink hok
    have hview := hout.view hb hap
    obtain rfl := Forest.name_of_get? hb
    have hiff := shown_removed_below_iff (δ := deltaKind m.disk b.name) (K := HasRecord b)
      (T := Whiteout b) (deltaKind_closed _ _) hp hout.whiteouts
      (fun t ht => hts t ht.1) hthere
    have hcond : (∀ t, Whiteout b t → t <+: p → t = p) ↔
        ∀ t ∈ b.tombstones, t ≠ [] → t <+: p → t = p :=
      ⟨fun h t ht hne => h t ⟨ht, hne⟩, fun h t ht => h t ht.1 ht.2⟩
    rw [← hcond, ← hiff]
    have hshown : ∀ q, m'.view b.name q =
        shown .dir (overlay (removed .dir (deltaKind m.disk b.name) (HasRecord b) p)
          (Whiteout b') (m.inheritedKind b)) q := congrFun hview
    have hbefore := congrFun (Manager.view_eq_overlay hb)
    constructor
    · intro h
      refine ⟨fun q hq => ?_, fun q hq => ?_⟩
      · rw [← hshown, h.restored q hq, Manager.inheritedView_eq_shown]
      · rw [← hshown, h.kept q hq, hbefore]
    · rintro ⟨hin, hoff⟩
      refine ⟨fun q hq => ?_, fun q hq => ?_, fun q hq => ?_, fun c hc => ?_⟩
      · rw [hshown, hin q hq, Manager.inheritedView_eq_shown]
      · rw [hshown, hoff q hq, hbefore]
      · rw [hout.delta]
        exact removed_below hq
      · rw [hout.branch] at hc
        cases hc
        exact ⟨hts, hrs⟩
  · -- what stands above the path is shown before and after, and nothing is shown below it
    refine iff_of_false (fun h => ?_) fun h => hleaf h.2
    push Not at hleaf
    obtain ⟨f, ⟨k, hk, hkd⟩, hfp, hne⟩ := hleaf
    have hnot : ¬ p <+: f := fun hpf => hne (hfp.eq_of_length_le hpf.length_le)
    have hshows : m'.view name f = some k := by
      rw [h.kept f hnot]
      exact view_of_delta hb hk
    have hgone := view_below hshows hkd hfp (Ne.symm hne)
    rw [h.restored p List.prefix_rfl, Manager.inheritedView_eq_shown] at hgone
    exact hthere hgone

end

/-- Every revert that returns Ok, of a path that exists in what the branch inherits, brings it back. -/
def RevertsRestore : Prop :=
  ∀ (store : FreshStore) ops name b p m', let m := run step (Manager.init store) ops
    m.forest.get? name = some b → m.inheritedView b p ≠ none →
      revertPathInBranch name p m = .ok () m' → Reverted m m' name b p

/-- A directory with a file is deleted as a whole. -/
def deletedDirOps : List Op :=
  [.host (.mkdir ["d"]), .host (.write ["d", "x"] [1]), .create "b" "main" .lazy [],
    .file "b" (.unlink [] "d")]

def deletedDir : Manager := run step (Manager.init .bare) deletedDirOps

/-- Reverting the file leaves the tombstone of the directory; reverting the directory brings both
back. -/
theorem deletedDir_run :
    deletedDir.forest.get? "b" = some (deletedDir.recordOf "b") ∧
      (∀ e ∈ deletedDir.disk.entries, e.2.kind.isSymlink = false) ∧
      (deletedDir.recordOf "b").tombstones = [["d"]] ∧
      deletedDir.inheritedView (deletedDir.recordOf "b") ["d"] = some .dir ∧
      deletedDir.inheritedView (deletedDir.recordOf "b") ["d", "x"] = some (.file [1]) ∧
      succeeds (revertPathInBranch "b" ["d", "x"]) deletedDir = true ∧
      (after (revertPathInBranch "b" ["d", "x"]) deletedDir).view "b" ["d", "x"] = none ∧
      succeeds (revertPathInBranch "b" ["d"]) deletedDir = true := by
  decide +kernel

theorem not_revertsRestore : ¬ RevertsRestore := by
  intro h
  obtain ⟨hb, _, _, _, hthere, hok, hafter, _⟩ := deletedDir_run
  have hinh : deletedDir.inheritedView (deletedDir.recordOf "b") ["d", "x"] ≠ none := by
    rw [hthere]
    simp
  have hrev : Reverted deletedDir (after (revertPathInBranch "b" ["d", "x"]) deletedDir) "b"
      (deletedDir.recordOf "b") ["d", "x"] :=
    h .bare deletedDirOps "b" _ _ _ hb hinh (ok_of_succeeds hok)
  have hshown := hrev.restored ["d", "x"] List.prefix_rfl
  rw [hafter, hthere] at hshown
  cases hshown

/-- No leaf stands above a path at the top. -/
theorem leaf_at_top {d : Tree} {name n : String} {f : RelPath}
    (hf : Leaf .dir (deltaKind d name) f) (hle : f <+: [n]) : f = [n] := by
  rcases List.prefix_cons_iff.mp hle with rfl | ⟨t, rfl, ht⟩
  · exact absurd (deltaKind_closed d name).root hf.ne_dir
  · rw [List.prefix_nil.mp ht]

theorem deletedDir_reverted :
    Reverted deletedDir (after (revertPathInBranch "b" ["d"]) deletedDir) "b"
      (deletedDir.recordOf "b") ["d"] := by
  obtain ⟨hb, hlinks, hts, hthere, _, _, _, hok⟩ := deletedDir_run
  have hlink := linkAt_of_entries hlinks
  refine (reverted_iff hb (Manager.layersApart_of_linkless fun _ _ _ => hlink _)
    (by rw [hthere]; simp) (ok_of_succeeds hok)).mpr ⟨?_, ?_⟩
  · intro t ht _ _
    rw [hts] at ht
    exact List.mem_singleton.mp ht
  · exact fun f hf hle => leaf_at_top hf hle

/-- Every revert brings back what is inherited where no tombstone stands above the path, and no file or
link of the delta. -/
def UnblockedRevertsRestore : Prop :=
  ∀ (store : FreshStore) ops name b p m', let m := run step (Manager.init store) ops
    m.forest.get? name = some b → m.inheritedView b p ≠ none →
      (∀ t ∈ b.tombstones, t ≠ [] → t <+: p → t = p) →
      (∀ f, Leaf .dir (deltaKind m.disk name) f → f <+: p → f = p) →
      revertPathInBranch name p m = .ok () m' → Reverted m m' name b p

/-- The parent shows a directory of its own; in the base directory a link into the branch's delta has
taken its place. -/
def seenThroughLinkOps : List Op :=
  [.host (.mkdir ["d"]), .host (.write ["x"] [1]), .create "a" "main" .lazy [],
    .file "a" (.create ["d"] "f" 0o644), .create "b" "a" .lazy [], .host (.removeTree ["d"]),
    .host (.symlink ["d"]
      ⟨true, [.name "store", .name "branches", .name "b", .name "files"]⟩),
    .file "b" (.write ["x"] 0 [2])]

def seenThroughLink : Manager := run step (Manager.init .bare) seenThroughLinkOps

/-- The reverted delta file was also shown below the directory. -/
theorem seenThroughLink_run :
    seenThroughLink.forest.get? "b" = some (seenThroughLink.recordOf "b") ∧
      (seenThroughLink.recordOf "b").tombstones = [] ∧
      seenThroughLink.inheritedView (seenThroughLink.recordOf "b") ["x"] = some (.file [1]) ∧
      succeeds (revertPathInBranch "b" ["x"]) seenThroughLink = true ∧
      seenThroughLink.view "b" ["d", "x"] = some (.file [2]) ∧
      (after (revertPathInBranch "b" ["x"]) seenThroughLink).view "b" ["d", "x"] = none := by
  decide +kernel

theorem not_unblockedRevertsRestore : ¬ UnblockedRevertsRestore := by
  intro h
  obtain ⟨hb, hts, hthere, hok, hbefore, hafter⟩ := seenThroughLink_run
  have hinh : seenThroughLink.inheritedView (seenThroughLink.recordOf "b") ["x"] ≠ none := by
    rw [hthere]
    simp
  have hclear : ∀ t ∈ (seenThroughLink.recordOf "b").tombstones, t ≠ [] → t <+: ["x"] → t = ["x"] := by
    intro t ht
    rw [hts] at ht
    cases ht
  have hrev : Reverted seenThroughLink (after (revertPathInBranch "b" ["x"]) seenThroughLink) "b"
      (seenThroughLink.recordOf "b") ["x"] :=
    h .bare seenThroughLinkOps "b" _ _ _ hb hinh hclear (fun f hf hle => leaf_at_top hf hle)
      (ok_of_succeeds hok)
  have hkept := hrev.kept ["d", "x"] (by decide)
  rw [hafter, hbefore] at hkept
  cases hkept

end BranchFs
