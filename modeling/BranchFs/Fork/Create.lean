/-
# BranchFs.Fork.Create -- what a new branch shows

A branch that has just been created reads its parent, or the snapshot taken of it. `ForkedOff` is the
state after a creation, whatever record the branch starts with; where the delta it finds under its
name has no files, the branch shows what the parent shows exactly when the directories it finds
there are directories of the parent as well.
-/
import BranchFs.Fork.Copy

namespace BranchFs

open BranchFs.Posix BranchFs.Logic

variable {m m' m₁ : Manager} {name parent : String} {b : Branch}

/-- The branch `b` was added below `parent`; a snapshot was taken if it is one. -/
structure ForkedOff (m m' : Manager) (b : Branch) (parent : String) : Prop where
  up : b.parent = some parent
  there : m.forest.get? parent ≠ none
  fresh : m.forest.get? b.name = none
  record : ∀ c, m'.forest.get? c = if c = b.name then some b else m.forest.get? c
  kept : SameOn (fun r => r ≠ some (.inherited b.name)) m.disk m'.disk
  lazy : b.inheritance = .lazy → m'.disk = m.disk
  copied : b.inheritance = .snapshot → m.NoLinkUnderShown parent →
    ∀ q, treeKind (.inherited b.name) m'.disk q = m.view parent q

/-! ## Creation, step by step -/

theorem snapshotVisibleDir_disk (d₀ : Tree) (source : String) (fuel : Nat) (p : RelPath) :
    snapshotVisibleDir { m with disk := d₀ } source name fuel p =
      snapshotVisibleDir m source name fuel p := by
  induction fuel generalizing p with
  | zero => rfl
  | succ fuel ih =>
    funext d
    rw [snapshotVisibleDir_succ, snapshotVisibleDir_succ, funext ih]
    rfl

/-- The root of the emptied directory. -/
theorem emptyAt_root (m : Manager) (name : String) :
    EmptyAt name [] (m.disk.purge fun r => r == some (.inherited name)) where
  dir := Disk.kindAt_root _ rfl
  free q _ hne := by
    rw [treeKind, Disk.kindAt, Disk.get_purge, if_pos ⟨hne, by simp [inTree]⟩]
    rfl

theorem sameOn_emptied (m : Manager) (name : String) :
    SameOn (fun r => r ≠ some (.inherited name)) m.disk
      (m.disk.purge fun r => r == some (.inherited name)) := by
  intro l hl
  rw [Disk.get_purge, if_neg fun h => hl (by simpa using h.2)]

/-- The `inherited` directory of a new branch, emptied. -/
def emptied (m : Manager) (name : String) : Tree :=
  m.disk.purge fun r => r == some (.inherited name)

/-- A snapshot that is taken is a copy that went through. -/
theorem takeSnapshot_eq_ok (h : takeSnapshot parent name m = .ok () m₁) :
    ∃ fuel d', snapshotVisibleDir m parent name fuel [] (emptied m name) = .ok () d' ∧
      m₁ = { m with disk := d' } := by
  obtain ⟨r, m₂, htree, hrest⟩ := bind_eq_ok h
  unfold attempt snapshotVisibleTree onDisk at htree
  dsimp only at htree
  rw [snapshotVisibleDir_disk] at htree
  refine ⟨((emptied m name).height + 1) * (m.forest.list.length + 1), ?_⟩
  cases hrun : snapshotVisibleDir m parent name (((emptied m name).height + 1) *
      (m.forest.list.length + 1)) [] (emptied m name) with
  | ok u d' =>
    unfold emptied at hrun
    rw [hrun] at htree
    cases htree
    cases hrest
    exact ⟨d', rfl, rfl⟩
  | error e d' =>
    -- a copy that failed is not answered with success
    unfold emptied at hrun
    rw [hrun] at htree
    cases htree
    obtain ⟨_, _, _, hthrow⟩ := bind_eq_ok hrest
    cases hthrow

theorem view_root (h : m.forest.get? name ≠ none) : m.view name [] = some .dir := by
  obtain ⟨c, hc⟩ := Option.ne_none_iff_exists'.mp h
  have hroot : m.disk.lkind (deltaPath name []) = some .dir := by
    have hdir := Disk.kindAt_root m.disk (l := deltaPath name []) rfl
    rw [Disk.lkind_eq rfl (Disk.noLinkAbove_of_dir hdir), hdir]
  rw [Manager.view_eq_kindOf fun a ha hne => absurd (List.prefix_nil.mp ha) hne,
    Manager.kindOf_eq hc, if_pos, hroot]
  rw [hasDelta, Disk.lexists_iff_lkind, hroot]
  exact Option.some_ne_none _

/-- **A snapshot is what the parent shows**, and changes nothing else. -/
theorem copied_of_takeSnapshot (hname : m.forest.get? name = none)
    (hparent : m.forest.get? parent ≠ none) (h : takeSnapshot parent name m = .ok () m₁) :
    SameOn (fun r => r ≠ some (.inherited name)) m.disk m₁.disk ∧
      (m.NoLinkUnderShown parent →
        ∀ q, treeKind (.inherited name) m₁.disk q = m.view parent q) := by
  obtain ⟨fuel, d', hcopy, rfl⟩ := takeSnapshot_eq_ok h
  have hfilled := snapshotVisibleDir_filled m parent name fuel [] _ (emptyAt_root m name)
  rw [show m.disk.purge _ = emptied m name from rfl, after_ok hcopy] at hfilled
  refine ⟨(sameOn_emptied m name).trans hfilled.same, fun hlink q => ?_⟩
  exact snapshotVisibleDir_copied hparent hname hlink fuel [] _ d' (emptyAt_root m name)
    (sameOn_emptied m name) (view_root hparent) hcopy q List.nil_prefix

theorem insertBranch_eq_ok (h : insertBranch b parent m = .ok () m') :
    b.parent = some parent ∧ m.forest.get? parent ≠ none ∧ m.forest.get? b.name = none ∧
      m'.disk = m.disk ∧
      ∀ c, m'.forest.get? c = if c = b.name then some b else m.forest.get? c := by
  unfold insertBranch at h
  split at h
  · next hb =>
    cases h
    exact ⟨hb.1, hb.2.1, hb.2.2, rfl, fun c => Forest.get?_fork (h := hb) c⟩
  · cases h

/-- The branch with record `b` is made below `parent`, its snapshot taken first. -/
def forkBranch (b : Branch) (parent : String) : Mgr Unit := do
  when (b.inheritance = .snapshot) (takeSnapshot parent b.name)
  insertBranch b parent
  bumpEpoch

theorem forkBranch_eq_ok (h : forkBranch b parent m = .ok () m') : ForkedOff m m' b parent := by
  obtain ⟨_, m₁, hsnap, hrest⟩ := bind_eq_ok h
  obtain ⟨_, m₂, hinsert, hbump⟩ := bind_eq_ok hrest
  cases hbump
  obtain ⟨hup, hparent, hfresh, hdisk, hrecord⟩ := insertBranch_eq_ok hinsert
  by_cases hmode : b.inheritance = .snapshot
  · rw [when_true hmode] at hsnap
    have hforest : m₁.forest = m.forest := by
      obtain ⟨_, _, -, rfl⟩ := takeSnapshot_eq_ok hsnap
      rfl
    rw [hforest] at hparent hfresh hrecord
    obtain ⟨hsame, hcopied⟩ := copied_of_takeSnapshot hfresh hparent hsnap
    refine ⟨hup, hparent, hfresh, hrecord, ?_, fun hlazy => ?_, fun _ hlink q => ?_⟩
    · show SameOn _ m.disk m₂.disk
      rw [hdisk]
      exact hsame
    · rw [hmode] at hlazy
      cases hlazy
    · show treeKind _ m₂.disk q = _
      rw [hdisk]
      exact hcopied hlink q
  · rw [when_false hmode] at hsnap
    cases hsnap
    refine ⟨hup, hparent, hfresh, hrecord, ?_, fun _ => hdisk, fun h _ => absurd h hmode⟩
    show SameOn _ m.disk m₂.disk
    rw [hdisk]
    exact SameOn.refl _ _

/-- The checks before a branch is made; they give its parent. -/
def creationParent (name parent : String) : Mgr Branch := do
  fromExcept (validateBranchName name)
  let taken ← fun m => .ok (m.isBranchValid name) m
  failIf taken (.alreadyExists name)
  fun m =>
    match m.forest.get? parent with
    | some b => .ok b m
    | none => .error (.parentNotFound parent) m

/-- `create_branch_with_options` in two parts. -/
theorem createBranch_eq (name parent : String) (inheritance : InheritanceMode)
    (hidePaths : List String) :
    createBranchWithOptions name parent inheritance hidePaths = (do
      let q ← creationParent name parent
      forkBranch (newBranch name parent q.commitCount inheritance hidePaths) parent) := by
  unfold createBranchWithOptions creationParent
  refine Eq.trans (congrArg _ (funext fun _ => ?_)) (bind_assoc _ _ _).symm
  refine Eq.trans (congrArg _ (funext fun _ => ?_)) (bind_assoc _ _ _).symm
  exact (bind_assoc _ _ _).symm

theorem creationParent_eq_ok {q : Branch} (h : creationParent name parent m = .ok q m') :
    m' = m ∧ m.forest.get? parent = some q := by
  unfold creationParent at h
  obtain ⟨_, m₁, hvalid, h⟩ := bind_eq_ok h
  obtain ⟨taken, m₂, htaken, h⟩ := bind_eq_ok h
  obtain ⟨_, m₃, hfree, h⟩ := bind_eq_ok h
  obtain rfl : m = m₁ := by
    cases hv : validateBranchName name with
    | ok _ =>
      rw [hv] at hvalid
      cases hvalid
      rfl
    | error e =>
      rw [hv] at hvalid
      cases hvalid
  cases htaken
  obtain rfl : m = m₃ := by
    by_cases ht : m.isBranchValid name = true
    · rw [failIf_error ht] at hfree
      cases hfree
    · rw [failIf_ok ht] at hfree
      cases hfree
      rfl
  cases hq : m.forest.get? parent with
  | none =>
    rw [hq] at h
    cases h
  | some c =>
    rw [hq] at h
    cases h
    exact ⟨rfl, rfl⟩

/-- The checks pass for a valid name that is free. -/
theorem creationParent_ok {q : Branch} (hvalid : validateBranchName name = .ok ())
    (hfree : m.forest.get? name = none) (hq : m.forest.get? parent = some q) :
    creationParent name parent m = .ok q m := by
  have htaken : ¬ (m.isBranchValid name = true) := by
    simp [Manager.isBranchValid, hfree]
  unfold creationParent
  refine (bind_ok (by rw [hvalid]; rfl)).trans ((bind_ok rfl).trans ?_)
  refine (bind_ok (failIf_ok htaken _ _)).trans ?_
  rw [hq]

theorem forkBranch_ok (hmode : b.inheritance ≠ .snapshot) (hup : b.parent = some parent)
    (hparent : m.forest.get? parent ≠ none) (hfree : m.forest.get? b.name = none) :
    ∃ m', forkBranch b parent m = .ok () m' := by
  have hinsert : ∃ m', insertBranch b parent m = .ok () m' :=
    ⟨_, dif_pos ⟨hup, hparent, hfree⟩⟩
  obtain ⟨m', hm'⟩ := hinsert
  unfold forkBranch
  rw [when_false hmode]
  exact ⟨_, (bind_ok rfl).trans ((bind_ok hm').trans rfl)⟩

theorem createBranch_eq_ok {inheritance : InheritanceMode} {hidePaths : List String}
    (h : createBranchWithOptions name parent inheritance hidePaths m = .ok () m') :
    ∃ q, m.forest.get? parent = some q ∧
      ForkedOff m m' (newBranch name parent q.commitCount inheritance hidePaths) parent := by
  rw [createBranch_eq] at h
  obtain ⟨q, m₁, hchecks, hfork⟩ := bind_eq_ok h
  obtain ⟨rfl, hq⟩ := creationParent_eq_ok hchecks
  exact ⟨q, hq, forkBranch_eq_ok hfork⟩

/-! ## What it shows -/

theorem treeKind_closed (R : Root) (d : Tree) : Closed .dir (treeKind R d) where
  root := Disk.kindAt_root d rfl
  above := by
    intro q a hq ha hne
    exact Disk.dir_above hq (inTree_le.mpr ha) (inTree_ne.mpr hne)

theorem noLinkAbove_of_dirs {R : Root} {d : Tree} {q : RelPath}
    (h : ∀ a, a <+: q → a ≠ q → treeKind R d a = some .dir) : d.NoLinkAbove (inTree R q) := by
  refine Disk.noLinkAbove_of fun x hx hne => ?_
  obtain ⟨a, ha, rfl⟩ := le_inTree.mp hx
  exact Disk.linkAt_eq_false_of_kind (h a ha (inTree_ne.mp hne)) rfl

/-- A tree read through the calls of the host is the tree, as far as a walk goes. -/
theorem shown_lookup (R : Root) (d : Tree) :
    shown .dir (fun q => kindAtPath d (if d.lexists (inTree R q) then some (inTree R q) else none)) =
      treeKind R d := by
  rw [← (treeKind_closed R d).shown]
  refine shown_congr_of_dirs fun q hway => ?_
  exact Manager.kindAtPath_here (noLinkAbove_of_dirs fun a ha hne => (hway a ha hne).2)

/-- Below a branch that was there, nothing reads the new one. -/
theorem ForkedOff.sameReads (h : ForkedOff m m' b parent) (hdisk : m'.disk = m.disk) (q : RelPath) :
    Manager.SameReads m m' parent q where
  record a ha := by
    rw [h.record, if_neg]
    rintro rfl
    exact Manager.reads_ne_of_missing h.there h.fresh (Or.inr ⟨_, ha, Or.inr rfl⟩) rfl
  kind r _ := by rw [hdisk]

/-- What the new branch inherits, a walk finds in the parent. -/
theorem ForkedOff.shown_inherited (h : ForkedOff m m' b parent)
    (hlink : b.inheritance = .snapshot → m.NoLinkUnderShown parent) :
    shown .dir (fun q => kindAtPath m'.disk (m'.inheritedResolve b q)) = m.view parent := by
  cases hmode : b.inheritance with
  | «lazy» =>
    have hI : (fun q => kindAtPath m'.disk (m'.inheritedResolve b q)) = m.kindOf parent := by
      funext q
      rw [← Manager.kindOf_of_sameReads (h.sameReads (h.lazy hmode) q)]
      simp only [Manager.inheritedResolve, inheritedStep, h.up, hmode, Option.bind_some]
      rfl
    rw [hI, Manager.view_eq_walk]
  | snapshot =>
    have hI : (fun q => kindAtPath m'.disk (m'.inheritedResolve b q)) = fun q =>
        kindAtPath m'.disk (if m'.disk.lexists (inTree (.inherited b.name) q) then
          some (inTree (.inherited b.name) q) else none) := by
      funext q
      simp only [Manager.inheritedResolve, inheritedStep, h.up, hmode]
      rfl
    rw [hI, shown_lookup]
    funext q
    exact h.copied hmode (hlink hmode) q

/-- No hide rule masks the path or a directory on the way to it. -/
def Branch.Unhidden (b : Branch) (q : RelPath) : Prop := ∀ a, a <+: q → b.isHidden a = false

theorem Branch.unhidden_of_noRules (h : b.hidePaths = []) (q : RelPath) : b.Unhidden q :=
  fun a _ => Branch.isHidden_of_noRules h a

/-- What a branch without tombstones and delta files resolves, away from its hide rules. -/
theorem kindOf_of_dirs {name : String} (hb : m.forest.get? name = some b) (htomb : b.tombstones = [])
    (hno : ∀ q, ¬ Leaf .dir (deltaKind m.disk name) q) {q : RelPath} (hq : b.isHidden q = false) :
    m.kindOf name q =
      (deltaKind m.disk name q).or (kindAtPath m.disk (m.inheritedResolve b q)) := by
  -- a delta of directories has no link
  have hway : m.disk.NoLinkAbove (deltaPath name q) := by
    refine Disk.noLinkAbove_of fun x hx _ => ?_
    obtain ⟨a, _, rfl⟩ := le_inTree.mp hx
    by_contra hl
    obtain ⟨t, ht⟩ := Disk.linkAt_iff.mp (by simpa using hl)
    exact hno a ⟨_, ht, by simp⟩
  have hdel : b.isDeleted q = false := by
    rw [Bool.eq_false_iff]
    intro h
    obtain ⟨t, ht, -⟩ := Branch.isDeleted_iff.mp h
    rw [htomb] at ht
    exact List.not_mem_nil ht
  have hkind : m.disk.lkind (deltaPath name q) = deltaKind m.disk name q := Disk.lkind_eq rfl hway
  rw [Manager.kindOf_eq hb]
  cases hδ : deltaKind m.disk name q with
  | some k =>
    rw [if_pos, hkind, hδ, Option.some_or]
    rw [hasDelta, Disk.lexists_iff_lkind, hkind, hδ]
    exact Option.some_ne_none k
  | none =>
    rw [if_neg, hdel, if_neg (by simp), Manager.inheritedKind, Manager.inheritedForTouch, hq,
      if_neg (by simp), Option.none_or]
    rw [hasDelta, Disk.lexists_iff_lkind, hkind, hδ]
    exact fun hc => hc rfl

/-- **A new branch shows its parent**, away from its hide rules, exactly when the directories it
finds under its name are directories of the parent. -/
theorem ForkedOff.view_iff (h : ForkedOff m m' b parent) (htomb : b.tombstones = [])
    (hno : ∀ q, ¬ Leaf .dir (deltaKind m.disk b.name) q)
    (hlink : b.inheritance = .snapshot → m.NoLinkUnderShown parent) :
    (∀ q, b.Unhidden q → m'.view b.name q = m.view parent q) ↔
      ∀ q, b.Unhidden q → deltaKind m.disk b.name q = some .dir → m.view parent q = some .dir := by
  have hb : m'.forest.get? b.name = some b := by rw [h.record, if_pos rfl]
  have hδ : deltaKind m'.disk b.name = deltaKind m.disk b.name := by
    funext q
    exact h.kept.kindAt (by simp [deltaPath])
  rw [← hδ] at hno ⊢
  have hiff := shown_over_dirs_iff (K := m'.kindOf b.name)
    (I := fun q => kindAtPath m'.disk (m'.inheritedResolve b q)) (H := fun q => ¬ b.Unhidden q)
    (deltaKind_closed m'.disk b.name) hno
    (fun a q ha haq hq => ha fun c hc => hq c (hc.trans haq))
    fun q hq => kindOf_of_dirs hb htomb hno (not_not.mp hq q List.prefix_rfl)
  simpa only [not_not, h.shown_inherited hlink, ← Manager.view_eq_walk] using hiff

end BranchFs
