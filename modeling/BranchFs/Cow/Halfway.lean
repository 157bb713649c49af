/-
# BranchFs.Cow.Halfway -- what copy-on-write leaves that fails for a rename

A request that fails should leave the branch as it was: what it shows, its tombstones, the files in its
delta. Copy-on-write of a name that the branch shows brings up what was shown there before and makes
directories where directories were shown, and so disturbs nothing, unless it makes a file in the delta or
drops a tombstone on its way to the failure (`ensure_kept`, `ensure_disturbs`).
-/
import BranchFs.Cow.Rename
import BranchFs.Model.Halts

namespace BranchFs

open BranchFs.Posix BranchFs.Logic

/-! ## Nothing is disturbed -/

/-- The bytes of a file. -/
def fileOf : Option Entry → Option Bytes
  | some (.file c) => some c
  | _ => none

/-- The contents of the file the delta of the branch has at a path. -/
def deltaFile (d : Tree) (name : String) (p : RelPath) : Option Bytes := fileOf (deltaKind d name p)

/-- The branch shows what it showed, has the tombstones it had, and its delta holds the files it held. -/
structure Undisturbed (m m' : Manager) (name : String) : Prop where
  view : m'.view name = m.view name
  tombstones : ∀ t, m'.tombstoned name t = m.tombstoned name t
  files : ∀ p, deltaFile m'.disk name p = deltaFile m.disk name p

namespace Undisturbed

variable {m m₁ m' : Manager} {name : String}

theorem refl (m : Manager) (name : String) : Undisturbed m m name := ⟨rfl, fun _ => rfl, fun _ => rfl⟩

theorem trans (h : Undisturbed m m₁ name) (h' : Undisturbed m₁ m' name) : Undisturbed m m' name where
  view := h'.view.trans h.view
  tombstones := fun t => (h'.tombstones t).trans (h.tombstones t)
  files := fun p => (h'.files p).trans (h.files p)

/-- What comes after a state that disturbs nothing disturbs as much as it does from there. -/
theorem iff_of (h : Undisturbed m m₁ name) : Undisturbed m m' name ↔ Undisturbed m₁ m' name := by
  constructor
  · intro h'
    exact ⟨h'.view.trans h.view.symm, fun t => (h'.tombstones t).trans (h.tombstones t).symm,
      fun p => (h'.files p).trans (h.files p).symm⟩
  · exact h.trans

end Undisturbed

theorem tombstoned_iff {m : Manager} {name : String} {b : Branch} (hb : m.forest.get? name = some b)
    (t : RelPath) : m.tombstoned name t = true ↔ t ∈ b.tombstones := by
  unfold Manager.tombstoned
  rw [hb, Option.any_some, List.contains_iff_mem]

/-- What is left of a request that disturbs nothing, as an overlay. -/
structure Kept (m m' : Manager) (name : String) (b : Branch) : Prop where
  branch : ∃ b', m'.forest.get? name = some b' ∧ ∀ t, t ∈ b'.tombstones ↔ t ∈ b.tombstones
  forest : m.forest.SameBut name m'.forest
  overlaid : ∀ x, overlay (deltaKind m'.disk name) (Whiteout b) (m.inheritedKind b) x =
    overlay (deltaKind m.disk name) (Whiteout b) (m.inheritedKind b) x
  files : ∀ x, deltaFile m'.disk name x = deltaFile m.disk name x
  same : SameOn (fun r => ¬ Own name r) m.disk m'.disk
  mounts : SameMounts m m'

section Kept

variable {m m' : Manager} {name : String} {b b' : Branch} {dir : RelPath}

theorem whiteout_congr (h : ∀ t, t ∈ b'.tombstones ↔ t ∈ b.tombstones) : Whiteout b' = Whiteout b := by
  funext t
  unfold Whiteout
  rw [h]

theorem Kept.refl (hb : m.forest.get? name = some b) : Kept m m name b :=
  ⟨⟨b, hb, fun _ => Iff.rfl⟩, Forest.SameBut.refl name _, fun _ => rfl, fun _ => rfl, SameOn.refl _ _, rfl⟩

theorem Kept.tombstoned (h : Kept m m' name b) (hb : m.forest.get? name = some b) (t : RelPath) :
    m'.tombstoned name t = m.tombstoned name t := by
  obtain ⟨b', hb', hts⟩ := h.branch
  rw [Bool.eq_iff_iff, tombstoned_iff hb', tombstoned_iff hb, hts]

theorem Kept.undisturbed_of (h : Kept m m' name b) (hb : m.forest.get? name = some b)
    (hunseen : m.LayersUnseen name) : Undisturbed m m' name where
  view := by
    obtain ⟨b', hb', hts⟩ := h.branch
    rw [Manager.view_eq_overlay hb', Manager.view_eq_overlay hb,
      Manager.inheritedKind_of_apart hunseen.apart h.forest hb hb' h.same h.mounts, whiteout_congr hts]
    exact congrArg _ (funext h.overlaid)
  tombstones := h.tombstoned hb
  files := h.files

theorem Kept.undisturbed (h : Kept m m' name b) (hin : NameIn m name b dir) : Undisturbed m m' name :=
  h.undisturbed_of hin.branch hin.unseen

end Kept

/-! ## Copy-on-write -/

/-- Copy-on-write of the path has nothing to add to what is shown: there is no tombstone to drop, and what
comes up is a link that is shown. -/
def Manager.Idle (m : Manager) (name : String) (b : Branch) (p : RelPath) : Prop :=
  p ∉ b.tombstones ∧ (deltaKind m.disk name p = none →
    ∀ k, m.copyKind b p = some k → k.isSymlink = true ∧ b.isDeleted p = false)

/-- The quota turns away what copy-on-write of the path has to bring up. -/
def Manager.Refused (m : Manager) (name : String) (b : Branch) (p : RelPath) : Prop :=
  deltaKind m.disk name p = none ∧ m.refuses b p = true

section Added

variable {m m' : Manager} {name : String} {b : Branch} {p x dir : RelPath} {n : String} {k : Entry}

/-- What comes up was inherited. -/
theorem inheritedKind_of_copyKind (h : m.copyKind b p = some k) :
    m.inheritedKind b p = some k ∧ k ≠ .dir := by
  unfold Manager.copyKind at h
  obtain ⟨u, hu, rfl⟩ := Option.map_eq_some_iff.mp h
  obtain ⟨node, hnode, hcopy⟩ := Option.bind_eq_some_iff.mp hu
  obtain ⟨hkind, hdir⟩ := kind_of_copyAttr hcopy
  exact ⟨by rw [Manager.inheritedKind_eq, hnode, Option.map_some, hkind], hdir⟩

theorem fileOf_of_isSymlink (h : k.isSymlink = true) : fileOf (some k) = none := by
  cases k with
  | symlink t => rfl
  | file c => simp [Kind.isSymlink] at h
  | dir => rfl

/-- **What copy-on-write adds to the delta was shown there before**, and is no file. -/
theorem overlay_or_cowKind (hin : NameIn m name b dir) (hidle : m.Idle name b (dir ++ [n]))
    {δ : RelPath → Option Entry} (h : δ x = (deltaKind m.disk name x).or (m.cowKind b (dir ++ [n]) x)) :
    overlay δ (Whiteout b) (m.inheritedKind b) x =
        overlay (deltaKind m.disk name) (Whiteout b) (m.inheritedKind b) x ∧
      fileOf (δ x) = fileOf (deltaKind m.disk name x) := by
  have hsame : ∀ {y : Option Entry}, δ x = y → deltaKind m.disk name x = y →
      overlay δ (Whiteout b) (m.inheritedKind b) x =
        overlay (deltaKind m.disk name) (Whiteout b) (m.inheritedKind b) x ∧
      fileOf (δ x) = fileOf (deltaKind m.disk name x) := by
    intro y hx hk
    unfold overlay
    rw [hx, hk]
    exact ⟨rfl, rfl⟩
  cases hk : deltaKind m.disk name x with
  | some k =>
    rw [hk, Option.some_or] at h
    exact hk ▸ hsame h hk
  | none =>
    rw [hk, Option.none_or] at h
    cases hcow : m.cowKind b (dir ++ [n]) x with
    | none => exact hk ▸ hsame (h.trans hcow) hk
    | some k =>
      rw [hcow] at h
      unfold Manager.cowKind at hcow
      by_cases hx : x = dir ++ [n]
      · rw [if_pos hx] at hcow
        subst hx
        obtain ⟨hlink, hdel⟩ := hidle.2 hk k hcow
        have hcov : ¬ Covers (Whiteout b) (dir ++ [n]) := by
          rw [covers_whiteout (by simp), hdel]
          simp
        rw [overlay_of_some h, overlay_of_none hk hcov, (inheritedKind_of_copyKind hcow).1, h,
          fileOf_of_isSymlink hlink]
        exact ⟨rfl, rfl⟩
      · rw [if_neg hx] at hcow
        split at hcow
        · next hle =>
          cases hcow
          rw [overlay_of_some h, hin.overlay_way hle hx, h]
          exact ⟨rfl, rfl⟩
        · cases hcow

/-- Copy-on-write that returns Ok and has nothing to add. -/
theorem Placed.kept (h : Placed m m' name b (dir ++ [n]) (m.upAttr b (dir ++ [n])))
    (hin : NameIn m name b dir) (hidle : m.Idle name b (dir ++ [n])) : Kept m m' name b := by
  obtain ⟨b', hb', hts⟩ := h.branch
  have hsame : b'.tombstones = b.tombstones := hts.trans ((removeTombstone_idle b _).mpr hidle.1)
  exact ⟨⟨b', hb', fun t => by rw [hsame]⟩, h.forest,
    fun x => (overlay_or_cowKind hin hidle (h.cow hin x)).1,
    fun x => (overlay_or_cowKind hin hidle (h.cow hin x)).2, h.same, h.mounts⟩

end Added

section Fails

variable {m m₁ m' : Manager} {name : String} {b : Branch} {p dir : RelPath} {n : String}
  {y : Option CowCall} {e : BranchError}

/-- A touch, and the tombstone the branch did not have. -/
theorem Touched.kept (ht : Touched name m m₁) (hc : Calm m m₁) (hb : m.forest.get? name = some b)
    (hforest : m'.forest = m₁.forest ∨
      (p ∉ b.tombstones ∧ m'.forest = m₁.forest.modify name (Branch.removeTombstone p)))
    (hdisk : m'.disk = m₁.disk) : Kept m m' name b := by
  obtain ⟨b₁, hb₁, -, hts⟩ := ht.get? hb
  have hkind : ∀ x, deltaKind m'.disk name x = deltaKind m.disk name x := by
    intro x
    unfold deltaKind Disk.kindAt
    rw [hdisk, ht.delta rfl]
  refine ⟨?_, ?_, fun x => ?_, fun x => ?_, ?_, ?_⟩
  · rcases hforest with hf | ⟨hp, hf⟩
    · exact ⟨b₁, by rw [hf, hb₁], fun t => by rw [hts]⟩
    · refine ⟨b₁.removeTombstone p, ?_, fun t => ?_⟩
      · rw [hf]
        exact Forest.get?_modify_self hb₁ rfl rfl
      · rw [Branch.mem_removeTombstone, hts]
        exact ⟨fun h => h.1, fun h => ⟨h, fun heq => hp (heq ▸ h)⟩⟩
  · rcases hforest with hf | ⟨-, hf⟩
    · rw [hf]
      exact ht.adds.forest
    · rw [hf]
      exact ht.adds.forest.trans (Forest.SameBut.of_modify fun c => ⟨rfl, rfl, rfl, rfl, rfl, rfl, rfl⟩)
  · unfold overlay
    rw [hkind]
  · unfold deltaFile
    rw [hkind]
  · rw [hdisk]
    exact ht.adds.same
  · unfold SameMounts
    rw [hdisk]
    exact hc.1

/-- Where the end of copy-on-write fails, the tombstone is dropped all the same. -/
theorem finishCow_error {c : Branch} {d : Tree} (hb : m.forest.get? name = some c)
    (hdirs : Posix.Sys.createDirAll (deltaPath name p).parent m.disk = .ok () d)
    (herr : Halts.finishCow y name p m = .error e m') :
    m' = { m with forest := m.forest.modify name (Branch.removeTombstone p) } ∧
      (p ∈ c.tombstones ∨ y = some .dirs) := by
  let m₂ : Manager := { m with forest := m.forest.modify name (Branch.removeTombstone p) }
  have hlog : Halts.removeTombstone (decide (y = some .log)) name p m =
      failIf ((decide (y = some .log) && m.tombstoned name p) = true) (.io Errno.EIO) m₂ := rfl
  unfold Halts.finishCow at herr
  by_cases hfails : (decide (y = some .log) && m.tombstoned name p) = true
  · rw [bind_error (hlog.trans (failIf_error hfails _ _))] at herr
    injection herr with _ hm
    rw [Bool.and_eq_true] at hfails
    exact ⟨hm.symm, Or.inl ((tombstoned_iff hb p).mp hfails.2)⟩
  · rw [bind_ok (hlog.trans (failIf_ok hfails _ _))] at herr
    by_cases hy : y = some .dirs
    · rw [bind_error (failIf_error hy _ _)] at herr
      injection herr with _ hm
      exact ⟨hm.symm, Or.inr hy⟩
    · rw [bind_ok (failIf_ok hy _ _), bind_ok (show onDisk (Io.ensureParentDirs (deltaPath name p)) m₂ =
        .ok () { m₂ with disk := d } from onDisk_ok hdirs)] at herr
      cases herr

/-- The first touch, and then the copy. -/
theorem touchAndCopyUp_error (hin : NameIn m name b dir)
    (hrec : recordFirstTouch name p (m.inheritedForTouch b p) true m = .ok () m₁)
    (herr : Halts.touchAndCopyUp y name p m = .error e m') :
    m' = m₁ ∨ Faulty.copyUpInherited (Halts.copyFaults y) (deltaPath name p)
      (m.inheritedForTouch b p) m₁ = .error e m' := by
  unfold Halts.touchAndCopyUp at herr
  rw [bind_ok (inheritedForTouch_ok hin.branch)] at herr
  rw [bind_ok (show readMgr (fun m => m.touched name p) m = .ok (m.touched name p) m from rfl),
    bind_ok hrec] at herr
  rcases bind_eq_error herr with htouch | ⟨_, m₂, htouch, hcopy⟩
  · left
    unfold failIf when at htouch
    split at htouch
    · cases htouch
      rfl
    · cases htouch
  · obtain ⟨-, rfl⟩ := failIf_eq_ok htouch
    exact Or.inr hcopy

theorem touchAndCopyUp_ok (hin : NameIn m name b dir)
    (hrec : recordFirstTouch name p (m.inheritedForTouch b p) true m = .ok () m₁)
    (hok : Halts.touchAndCopyUp y name p m = .ok () m') :
    Faulty.copyUpInherited (Halts.copyFaults y) (deltaPath name p) (m.inheritedForTouch b p) m₁ =
      .ok () m' := by
  unfold Halts.touchAndCopyUp at hok
  rw [bind_ok (inheritedForTouch_ok hin.branch)] at hok
  rw [bind_ok (show readMgr (fun m => m.touched name p) m = .ok (m.touched name p) m from rfl),
    bind_ok hrec] at hok
  obtain ⟨_, m₂, htouch, hcopy⟩ := bind_eq_ok hok
  obtain ⟨-, rfl⟩ := failIf_eq_ok htouch
  exact hcopy

theorem Manager.Idle.noFile (h : m.Idle name b p) (hk : deltaKind m.disk name p = none) :
    ¬ ∃ node, m.inheritedNode b p = some node ∧ node.kind.isFile = true := by
  rintro ⟨node, hnode, hfile⟩
  cases hkind : node.kind with
  | file c =>
    have hcopy : m.copyKind b p = some (.file c) := by
      unfold Manager.copyKind copyAttr
      rw [hnode, Option.bind_some, hkind]
      rfl
    exact absurd (h.2 hk _ hcopy).1 (by simp [Kind.isSymlink])
  | dir => simp [hkind, Kind.isFile] at hfile
  | symlink t => simp [hkind, Kind.isFile] at hfile

/-- **Copy-on-write that fails and had nothing to add** leaves the branch as it was. -/
theorem ensure_kept (hin : NameIn m name b dir) (hidle : m.Idle name b (dir ++ [n]))
    (herr : Halts.ensureDeltaPathForWrite y name (dir ++ [n]) m = .error e m') : Kept m m' name b := by
  unfold Halts.ensureDeltaPathForWrite at herr
  rcases bind_eq_error herr with hw | ⟨c, m₀, hw, hrest⟩
  · have hm : m' = m := by simpa only [after, hw] using after_writableBranch name m
    rw [hm]
    exact Kept.refl hin.branch
  rw [writableBranch_idle hw, readDisk_bind] at hrest
  by_cases hk : deltaKind m.disk name (dir ++ [n]) = none
  · have hno : m.disk.lexists (deltaPath name (dir ++ [n])) = false := by
      rw [← Bool.not_eq_true, hin.lexists, not_not]
      exact hk
    obtain ⟨m₁, hrec, htouch⟩ := hin.touch (dir ++ [n])
    have ht := htouch.touched
    have hc := htouch.calm
    rw [hno, when_true (by simp)] at hrest
    rcases bind_eq_error hrest with hfail | ⟨_, m₂, hok, hfinish⟩
    · rcases touchAndCopyUp_error hin hrec hfail with rfl | hcopy
      · exact ht.kept (p := dir ++ [n]) hc hin.branch (Or.inl rfl) rfl
      · rcases copyUp_cases (Halts.copyFaults y) hin hk ht hc with ⟨-, m₂, d, hrun, -⟩ | ⟨-, hrun⟩ |
            ⟨-, hfile, -⟩
        · cases hrun.symm.trans hcopy
        · cases hrun.symm.trans hcopy
          exact ht.kept (p := dir ++ [n]) hc hin.branch (Or.inl rfl) rfl
        · exact absurd hfile (hidle.noFile hk)
    · have hcopy := touchAndCopyUp_ok hin hrec hok
      obtain ⟨hforest, hcase⟩ :=
        copyUpInherited_entered hin hk ht hc (Faulty.copyUpInherited_of_ok hcopy)
      obtain ⟨d, hdirs⟩ : ∃ d, Posix.Sys.createDirAll (deltaPath name (dir ++ [n])).parent m₂.disk =
          .ok () d := by
        rcases copyUp_cases (Halts.copyFaults y) hin hk ht hc with ⟨-, m₃, d, hrun, hd⟩ | ⟨-, hrun⟩ |
            ⟨-, -, d, hrun, -⟩
        · cases hrun.symm.trans hcopy
          exact ⟨d, hd⟩
        · cases hrun.symm.trans hcopy
        · cases hrun.symm.trans hcopy
      obtain ⟨b₁, hb₁, -, -⟩ := ht.get? hin.branch
      obtain ⟨rfl, -⟩ := finishCow_error (by rw [hforest]; exact hb₁) hdirs hfinish
      let m₃ : Manager := { m₂ with forest := m₂.forest.modify name (Branch.removeTombstone (dir ++ [n])) }
      have hmodify : m₃.forest = m₁.forest.modify name (Branch.removeTombstone (dir ++ [n])) := by
        show m₂.forest.modify name _ = _
        rw [hforest]
      rcases hcase with ⟨-, hdisk, -⟩ | ⟨-, hent⟩
      · exact ht.kept hc hin.branch (Or.inr ⟨hidle.1, hmodify⟩) hdisk
      · have hup : m.upAttr b (dir ++ [n]) = (m.inheritedNode b (dir ++ [n])).bind copyAttr := by
          unfold Manager.upAttr
          rw [Forest.name_of_get? hin.branch, Disk.attrAt_eq_none.mpr hk, Option.none_or]
        have hplaced : Placed m m₃ name b (dir ++ [n]) (m.upAttr b (dir ++ [n])) := by
          rw [hup]
          exact ht.placed hc hin.branch hmodify hent.attr (sameOn_of_own (own_files name) hent.same)
            hent.mounts
        exact hplaced.kept hin hidle
  · rw [hin.lexists.mpr hk, when_false (by simp),
      bind_ok (show (pure ⟨⟩ : Mgr PUnit) m = .ok ⟨⟩ m from rfl)] at hrest
    obtain ⟨rfl, -⟩ := finishCow_error hin.branch
      (Sys.createDirAll_of_dir rfl (Disk.dir_parent hk)) hrest
    exact (Touched.refl hin.capture).kept (Calm.refl m) hin.branch (Or.inr ⟨hidle.1, rfl⟩) rfl

/-- Copy-on-write of a name the delta lacks. -/
theorem ensure_free (hin : NameIn m name b dir) (hw : b.isWritable = true)
    (hk : deltaKind m.disk name (dir ++ [n]) = none) (y : Option CowCall) :
    Halts.ensureDeltaPathForWrite y name (dir ++ [n]) m =
      (do
        Halts.touchAndCopyUp y name (dir ++ [n])
        Halts.finishCow y name (dir ++ [n])) m := by
  have hno : m.disk.lexists (deltaPath name (dir ++ [n])) = false := by
    rw [← Bool.not_eq_true, hin.lexists, not_not]
    exact hk
  unfold Halts.ensureDeltaPathForWrite
  rw [bind_ok (writableBranch_ok hin.branch hw), readDisk_bind, hno, when_true (by simp)]

/-- Copy-on-write of a name the delta has. -/
theorem ensure_there (hin : NameIn m name b dir) (hw : b.isWritable = true)
    (hk : deltaKind m.disk name (dir ++ [n]) ≠ none) (y : Option CowCall) :
    Halts.ensureDeltaPathForWrite y name (dir ++ [n]) m = Halts.finishCow y name (dir ++ [n]) m := by
  unfold Halts.ensureDeltaPathForWrite
  rw [bind_ok (writableBranch_ok hin.branch hw), readDisk_bind, hin.lexists.mpr hk,
    when_false (by simp)]
  rfl

/-- A touch that is recorded, and the copy after it. -/
theorem touchAndCopyUp_eq (hin : NameIn m name b dir)
    (hrec : recordFirstTouch name p (m.inheritedForTouch b p) true m = .ok () m₁)
    (hy : y ≠ some .touch) : Halts.touchAndCopyUp y name p m =
      Faulty.copyUpInherited (Halts.copyFaults y) (deltaPath name p) (m.inheritedForTouch b p) m₁ := by
  unfold Halts.touchAndCopyUp
  rw [bind_ok (inheritedForTouch_ok hin.branch)]
  rw [bind_ok (show readMgr (fun m => m.touched name p) m = .ok (m.touched name p) m from rfl),
    bind_ok hrec, bind_ok (failIf_ok (by simp [hy]) _ _)]

/-- **A copy the quota refuses** stops copy-on-write, before anything is made. -/
theorem ensure_refused (hin : NameIn m name b dir) (hw : b.isWritable = true)
    (href : m.Refused name b (dir ++ [n])) (y : Option CowCall) :
    ∃ e m', Halts.ensureDeltaPathForWrite y name (dir ++ [n]) m = .error e m' ∧ Kept m m' name b := by
  obtain ⟨hk, hroom⟩ := href
  obtain ⟨m₁, hrec, htouch⟩ := hin.touch (dir ++ [n])
  have hkept : Kept m m₁ name b :=
    htouch.touched.kept (p := dir ++ [n]) htouch.calm hin.branch (Or.inl rfl) rfl
  have hcopy : Faulty.copyUpInherited (Halts.copyFaults y) (deltaPath name (dir ++ [n]))
      (m.inheritedForTouch b (dir ++ [n])) m₁ = .error (.io .ENOSPC) m₁ := by
    rcases copyUp_cases (Halts.copyFaults y) hin hk htouch.touched htouch.calm with ⟨hno, -⟩ |
        ⟨-, hrun⟩ | ⟨hno, -⟩
    · rw [hroom] at hno
      cases hno
    · exact hrun
    · rw [hroom] at hno
      cases hno
  have herr : ∃ e, Halts.touchAndCopyUp y name (dir ++ [n]) m = .error e m₁ := by
    cases hrun : Halts.touchAndCopyUp y name (dir ++ [n]) m with
    | ok u m' => cases (touchAndCopyUp_ok hin hrec hrun).symm.trans hcopy
    | error e m' =>
      rcases touchAndCopyUp_error hin hrec hrun with rfl | herr
      · exact ⟨e, rfl⟩
      · cases herr.symm.trans hcopy
        exact ⟨_, rfl⟩
  obtain ⟨e, herr⟩ := herr
  exact ⟨e, m₁, (ensure_free hin hw hk y).trans (bind_error herr), hkept⟩

/-- What the end of copy-on-write starts from, where neither the touch nor the copy fails. -/
structure Reaches (m m₂ : Manager) (name : String) (b : Branch) (p : RelPath) : Prop where
  branch : ∃ c, m₂.forest.get? name = some c ∧ c.tombstones = b.tombstones
  dirs : ∃ d, Posix.Sys.createDirAll (deltaPath name p).parent m₂.disk = .ok () d
  run : ∀ y, y = none ∨ y = some .log ∨ y = some .dirs →
    Halts.ensureDeltaPathForWrite y name p m = Halts.finishCow y name p m₂
  copied : deltaKind m.disk name p = none → ∀ k, m.copyKind b p = some k → deltaKind m₂.disk name p = some k

theorem ensure_reaches (hin : NameIn m name b dir) (hw : b.isWritable = true)
    (hno : ¬ m.Refused name b (dir ++ [n])) : ∃ m₂, Reaches m m₂ name b (dir ++ [n]) := by
  by_cases hk : deltaKind m.disk name (dir ++ [n]) = none
  · obtain ⟨m₁, hrec, htouch⟩ := hin.touch (dir ++ [n])
    rcases copyUp_cases .absent hin hk htouch.touched htouch.calm with ⟨-, m₂, d, hrun, hdirs⟩ |
        ⟨hroom, -⟩ | ⟨-, -, d, -, hfault⟩
    · obtain ⟨hforest, hcase⟩ := copyUpInherited_entered hin hk htouch.touched htouch.calm
        (Faulty.copyUpInherited_of_ok hrun)
      obtain ⟨b₁, hb₁, -, hts⟩ := htouch.touched.get? hin.branch
      refine ⟨m₂, ⟨b₁, by rw [hforest, hb₁], hts⟩, ⟨d, hdirs⟩, fun y hy => ?_, fun _ k hcopy => ?_⟩
      · have hfaults : Halts.copyFaults y = .absent := by rcases hy with rfl | rfl | rfl <;> rfl
        have hy' : y ≠ some .touch := by rcases hy with rfl | rfl | rfl <;> simp
        rw [ensure_free hin hw hk, bind_ok ((touchAndCopyUp_eq hin hrec hy').trans (hfaults ▸ hrun))]
      · obtain ⟨u, hu, rfl⟩ := Option.map_eq_some_iff.mp hcopy
        rcases hcase with ⟨hnone, -⟩ | ⟨-, hent⟩
        · rw [hnone] at hu
          cases hu
        · unfold deltaKind
          rw [Disk.kindAt_eq_attr, hent.attr _ rfl, if_pos rfl, hu]
          rfl
    · exact absurd ⟨hk, hroom⟩ hno
    · rcases hfault with ⟨hf, -⟩ | ⟨⟨k, hf⟩, -⟩ <;> cases hf
  · exact ⟨m, ⟨b, hin.branch, rfl⟩, ⟨_, Sys.createDirAll_of_dir rfl (Disk.dir_parent hk)⟩,
      fun y _ => ensure_there hin hw hk y, fun hnone => absurd hnone hk⟩

/-- **Copy-on-write returns Ok** unless the quota refuses it. -/
theorem ensure_ok (hin : NameIn m name b dir) (hw : b.isWritable = true)
    (hno : ¬ m.Refused name b (dir ++ [n])) :
    ∃ m', ensureDeltaPathForWrite name (dir ++ [n]) m = .ok (deltaPath name (dir ++ [n])) m' := by
  obtain ⟨m₂, hreach⟩ := ensure_reaches hin hw hno
  obtain ⟨d, hd⟩ := hreach.dirs
  rw [← Halts.ensureDeltaPathForWrite_none, hreach.run none (Or.inl rfl)]
  refine ⟨{ m₂ with
    forest := m₂.forest.modify name (Branch.removeTombstone (dir ++ [n])), disk := d }, ?_⟩
  let m₃ : Manager := { m₂ with forest := m₂.forest.modify name (Branch.removeTombstone (dir ++ [n])) }
  show (do
    Halts.removeTombstone false name (dir ++ [n])
    failIf ((none : Option CowCall) = some .dirs) (.io Errno.EIO)
    onDisk (Io.ensureParentDirs (deltaPath name (dir ++ [n])))
    pure (deltaPath name (dir ++ [n])) : Mgr Place) m₂ = _
  rw [bind_ok (show Halts.removeTombstone false name (dir ++ [n]) m₂ = .ok () m₃ from rfl),
    bind_ok (failIf_ok (by simp) _ _),
    bind_ok (show onDisk (Io.ensureParentDirs (deltaPath name (dir ++ [n]))) m₃ = .ok () { m₃ with disk := d }
      from onDisk_ok hd)]
  rfl

theorem NameIn.view_name (hin : NameIn m name b dir) : m.view name (dir ++ [n]) =
    overlay (deltaKind m.disk name) (Whiteout b) (m.inheritedKind b) (dir ++ [n]) := by
  rw [Manager.view_eq_overlay hin.branch, shown_of_dirs fun a ha hne => hin.overlay_way ha hne]

/-- **Copy-on-write that has something to add** can fail when it has added it. -/
theorem ensure_disturbs (hin : NameIn m name b dir) (hw : b.isWritable = true)
    (hno : ¬ m.Refused name b (dir ++ [n])) (hidle : ¬ m.Idle name b (dir ++ [n])) :
    ∃ y e m', Halts.ensureDeltaPathForWrite y name (dir ++ [n]) m = .error e m' ∧
      ¬ Undisturbed m m' name := by
  obtain ⟨m₂, ⟨c, hc, hts⟩, -, hrun, hcopied⟩ := ensure_reaches hin hw hno
  let m₃ : Manager := { m₂ with forest := m₂.forest.modify name (Branch.removeTombstone (dir ++ [n])) }
  have hb₃ : m₃.forest.get? name = some (c.removeTombstone (dir ++ [n])) :=
    Forest.get?_modify_self hc rfl rfl
  by_cases hp : dir ++ [n] ∈ b.tombstones
  · -- the log fails once the set has lost the tombstone
    refine ⟨some .log, .io Errno.EIO, m₃, ?_, fun hsame => ?_⟩
    · have hthere : m₂.tombstoned name (dir ++ [n]) = true := (tombstoned_iff hc _).mpr (hts ▸ hp)
      have hlog : Halts.removeTombstone (decide (some CowCall.log = some .log)) name (dir ++ [n]) m₂ =
          .error (.io Errno.EIO) m₃ := by
        show failIf ((true && m₂.tombstoned name (dir ++ [n])) = true) _ m₃ = _
        exact failIf_error (by rw [hthere]; rfl) _ _
      rw [hrun _ (Or.inr (Or.inl rfl))]
      exact bind_error hlog
    · have hafter := hsame.tombstones (dir ++ [n])
      rw [(tombstoned_iff hin.branch _).mpr hp, tombstoned_iff hb₃, Branch.mem_removeTombstone] at hafter
      exact hafter.2 rfl
  · -- the copy has been made when the directories are asked for
    have hadds : ∃ k, deltaKind m.disk name (dir ++ [n]) = none ∧
        m.copyKind b (dir ++ [n]) = some k ∧ ¬ (k.isSymlink = true ∧ b.isDeleted (dir ++ [n]) = false) := by
      by_contra hall
      push Not at hall
      refine hidle ⟨hp, fun hk k hcopy => ?_⟩
      have hlink := hall k hk hcopy
      exact hlink
    obtain ⟨k, hk, hcopy, hadd⟩ := hadds
    have hthere := hcopied hk k hcopy
    refine ⟨some .dirs, .io Errno.EIO, m₃, ?_, fun hsame => ?_⟩
    · rw [hrun _ (Or.inr (Or.inr rfl))]
      show (do
        Halts.removeTombstone false name (dir ++ [n])
        failIf (some CowCall.dirs = some .dirs) (.io Errno.EIO)
        onDisk (Io.ensureParentDirs (deltaPath name (dir ++ [n])))
        pure (deltaPath name (dir ++ [n])) : Mgr Place) m₂ = _
      rw [bind_ok (show Halts.removeTombstone false name (dir ++ [n]) m₂ = .ok () m₃ from rfl)]
      exact bind_error (failIf_error rfl _ _)
    · cases hkind : k with
      | dir => exact (inheritedKind_of_copyKind hcopy).2 hkind
      | file c =>
        have hfile := hsame.files (dir ++ [n])
        have hthere₃ : deltaKind m₃.disk name (dir ++ [n]) = some (.file c) := hkind ▸ hthere
        unfold deltaFile at hfile
        rw [hthere₃, hk] at hfile
        cases hfile
      | symlink t =>
        have hdel : b.isDeleted (dir ++ [n]) = true := by
          by_contra hdel
          exact hadd ⟨by rw [hkind]; rfl, by simpa using hdel⟩
        have hbefore : m.view name (dir ++ [n]) = none := by
          rw [hin.view_name, overlay_of_covered hk ((covers_whiteout (by simp)).mpr hdel)]
        have hafter : m₃.view name (dir ++ [n]) = some k := view_of_delta hb₃ hthere
        rw [hsame.view, hbefore] at hafter
        cases hafter

end Fails

/-! ## Copy-on-write that returned Ok -/

section Ok

variable {m m₁ m' : Manager} {name : String} {b : Branch} {p dir : RelPath} {n : String} {l : Place}
  {y : Option CowCall}

/-- **Copy-on-write that returns Ok** has met no failure. -/
theorem Halts.ensureDeltaPathForWrite_of_ok (hok : Halts.ensureDeltaPathForWrite y name p m = .ok l m') :
    BranchFs.ensureDeltaPathForWrite name p m = .ok l m' := by
  obtain ⟨_, m₀, hw, hrest⟩ := bind_eq_ok hok
  rw [readDisk_bind] at hrest
  obtain ⟨_, m₂, htouch, hfinish⟩ := bind_eq_ok hrest
  have hplain : when (¬ m₀.disk.lexists (deltaPath name p)) (BranchFs.touchAndCopyUp name p) m₀ =
      .ok () m₂ := by
    unfold when at htouch ⊢
    split at htouch
    · next hc =>
      rw [if_pos hc]
      obtain ⟨inherited, m₃, hinh, hrest⟩ := bind_eq_ok htouch
      obtain ⟨_, m₄, hknown, hrest'⟩ := bind_eq_ok hrest
      cases hknown
      obtain ⟨_, m₅, hrecord, hrest''⟩ := bind_eq_ok hrest'
      obtain ⟨_, m₆, hfail, hcopy⟩ := bind_eq_ok hrest''
      rw [(failIf_eq_ok hfail).2] at hcopy
      exact (bind_ok hinh).trans ((bind_ok hrecord).trans (Faulty.copyUpInherited_of_ok hcopy))
    · next hc =>
      rw [if_neg hc]
      exact htouch
  obtain ⟨_, m₇, hremove, hrest'⟩ := bind_eq_ok hfinish
  obtain ⟨_, m₈, hfail, htail⟩ := bind_eq_ok hrest'
  rw [(failIf_eq_ok hfail).2] at htail
  refine (bind_ok hw).trans ?_
  rw [readDisk_bind, bind_ok hplain]
  exact (bind_ok (show modifyBranch name (Branch.removeTombstone p) m₂ = .ok () m₇ from
    removeTombstone_of_ok hremove)).trans htail

/-- What is not a file has no contents to keep. -/
theorem captureBaseContent_idle {inherited : Option Place}
    (h : ∀ src, inherited = some src → ∃ node, m.disk.lstat src = .ok node ∧ node.kind.isFile = false) :
    captureBaseContent name p inherited m = .ok none m := by
  cases inherited with
  | none => rfl
  | some src =>
    obtain ⟨node, hnode, hkind⟩ := h src rfl
    have hread : readBoundedText src m.disk = .ok none m.disk := by
      unfold readBoundedText
      rw [hnode]
      dsimp only
      rw [if_pos (by simp [hkind])]
    show (do
      let text ← onDisk (readBoundedText src)
      keepBaseContent name p text : Mgr (Option String)) m = _
    rw [bind_ok (onDisk_ok hread)]
    rfl

/-- The first touch of what is not a file leaves the disk alone. -/
theorem recordFirstTouch_disk {inherited : Option Place} (hb : m.forest.get? name = some b)
    (h : ∀ src, inherited = some src → ∃ node, m.disk.lstat src = .ok node ∧ node.kind.isFile = false)
    (hrec : recordFirstTouch name p inherited true m = .ok () m₁) : m₁.disk = m.disk := by
  unfold recordFirstTouch at hrec
  rw [bind_ok (getBranch_ok hb)] at hrec
  split at hrec
  · cases hrec
    rfl
  · unfold addTouchRecord at hrec
    rw [readDisk_bind, bind_ok (show contentKey name p inherited true m = .ok none m from
      captureBaseContent_idle h)] at hrec
    cases hrec
    rfl

/-- The inherited entry, at its place. -/
theorem lstat_of_inheritedNode {src : Place} {node : Node String} (hsrc : m.inheritedForTouch b p = some src)
    (hnode : m.inheritedNode b p = some node) : m.disk.lstat src = .ok node := by
  unfold Manager.inheritedNode at hnode
  rw [hsrc, Option.bind_some] at hnode
  cases hl : m.disk.lstat src with
  | error e =>
    rw [hl] at hnode
    cases hnode
  | ok node' =>
    rw [hl] at hnode
    cases hnode
    rfl

/-- The quota once the path is up: what comes up is charged. -/
def Manager.quotaUp (m : Manager) (name : String) (b : Branch) (p : RelPath) : StorageQuota :=
  match deltaKind m.disk name p, m.inheritedNode b p with
  | none, some node => if node.kind.isDir then m.quota else m.quota.add (metaLen node)
  | _, _ => m.quota

/-- The steps of copy-on-write that returns Ok: the quota is what the copy leaves, and only the delta is
changed after the touch. -/
theorem ensure_steps (hin : NameIn m name b dir)
    (hok : ensureDeltaPathForWrite name (dir ++ [n]) m = .ok l m') :
    (deltaKind m.disk name (dir ++ [n]) ≠ none ∧ m'.quota = m.quota ∧ m'.disk = m.disk) ∨
      (deltaKind m.disk name (dir ++ [n]) = none ∧ ∃ m₁ m₂,
        recordFirstTouch name (dir ++ [n]) (m.inheritedForTouch b (dir ++ [n])) true m = .ok () m₁ ∧
        AfterTouch m m₁ name b (dir ++ [n]) ∧
        copyUpInherited (deltaPath name (dir ++ [n])) (m.inheritedForTouch b (dir ++ [n])) m₁ = .ok () m₂ ∧
        m'.quota = m₂.quota ∧ SameOn (fun r => r ≠ some (.files name)) m₁.disk m'.disk) := by
  unfold ensureDeltaPathForWrite at hok
  obtain ⟨_, m₀, hw, hrest⟩ := bind_eq_ok hok
  rw [writableBranch_idle hw, readDisk_bind] at hrest
  by_cases hk : deltaKind m.disk name (dir ++ [n]) = none
  · have hno : m.disk.lexists (deltaPath name (dir ++ [n])) = false := by
      rw [← Bool.not_eq_true, hin.lexists, not_not]
      exact hk
    rw [hno, when_true (by simp)] at hrest
    obtain ⟨_, m₂, htouch, htail⟩ := bind_eq_ok hrest
    obtain ⟨m₁, hrec, hafter⟩ := hin.touch (dir ++ [n])
    rw [touchAndCopyUp, bind_ok (inheritedForTouch_ok hin.branch), bind_ok hrec] at htouch
    refine Or.inr ⟨hk, m₁, m₂, hrec, hafter, htouch, ?_⟩
    let m₃ : Manager := { m₂ with forest := m₂.forest.modify name (Branch.removeTombstone (dir ++ [n])) }
    have finish : ∀ d, Posix.Sys.createDirAll (deltaPath name (dir ++ [n])).parent m₂.disk = .ok () d →
        m' = { m₃ with disk := d } := by
      intro d hd
      rw [bind_ok (show modifyBranch name (Branch.removeTombstone (dir ++ [n])) m₂ = .ok () m₃ from rfl),
        bind_ok (show onDisk (Io.ensureParentDirs (deltaPath name (dir ++ [n]))) m₃ =
          .ok () { m₃ with disk := d } from onDisk_ok hd)] at htail
      injection htail with _ hm
      exact hm.symm
    obtain ⟨-, hcase⟩ := copyUpInherited_entered hin hk hafter.touched hafter.calm htouch
    rcases hcase with ⟨-, hdisk, -⟩ | ⟨hsome, hent⟩
    · obtain ⟨d, hd, hent, -⟩ := (hafter.free (hin.free hk)).entered
      rw [finish d (hdisk ▸ hd)]
      exact ⟨rfl, hent.same⟩
    · have hthere : m₂.disk.kindAt (deltaPath name (dir ++ [n])) ≠ none := by
        intro hnone
        have hattr := Disk.attrAt_eq_none.mpr hnone
        rw [hent.attr _ rfl, if_pos rfl] at hattr
        exact hsome hattr
      rw [finish _ (Sys.createDirAll_of_dir rfl (Disk.dir_parent hthere))]
      exact ⟨rfl, hent.same⟩
  · rw [hin.lexists.mpr hk, when_false (by simp),
      bind_ok (show (pure ⟨⟩ : Mgr PUnit) m = .ok ⟨⟩ m from rfl)] at hrest
    let m₃ : Manager := { m with forest := m.forest.modify name (Branch.removeTombstone (dir ++ [n])) }
    rw [bind_ok (show modifyBranch name (Branch.removeTombstone (dir ++ [n])) m = .ok () m₃ from rfl),
      bind_ok (show onDisk (Io.ensureParentDirs (deltaPath name (dir ++ [n]))) m₃ = .ok () m₃ from
        onDisk_ok (Sys.createDirAll_of_dir rfl (Disk.dir_parent hk)))] at hrest
    injection hrest with _ hm
    rw [← hm]
    exact Or.inl ⟨hk, rfl, rfl⟩

/-- **The quota after copy-on-write.** -/
theorem ensure_quota (hin : NameIn m name b dir)
    (hok : ensureDeltaPathForWrite name (dir ++ [n]) m = .ok l m') :
    m'.quota = m.quotaUp name b (dir ++ [n]) := by
  unfold Manager.quotaUp
  rcases ensure_steps hin hok with ⟨hk, hquota, -⟩ | ⟨hk, m₁, m₂, -, htouch, hcopy, hquota, -⟩
  · obtain ⟨k, hk⟩ := Option.ne_none_iff_exists'.mp hk
    rw [hk, hquota]
  · rw [hk, hquota]
    cases hsrc : m.inheritedForTouch b (dir ++ [n]) with
    | none =>
      have hnone : m.inheritedNode b (dir ++ [n]) = none := by rw [Manager.inheritedNode, hsrc]; rfl
      rw [hsrc] at hcopy
      cases hcopy
      rw [hnone]
      exact htouch.touched.quota
    | some src =>
      obtain ⟨node, hnode⟩ := inheritedNode_of_some hsrc
      have hread : m₁.disk.lstat src = .ok node :=
        hin.unseen.lstat hin.branch htouch.touched.adds.same htouch.calm.1 hsrc hnode
      rw [hsrc] at hcopy
      change copyUp src (deltaPath name (dir ++ [n])) m₁ = .ok () m₂ at hcopy
      rw [copyUp, readDisk_bind, hread] at hcopy
      dsimp only at hcopy
      rw [hnode]
      dsimp only
      split at hcopy
      · next hdir =>
        cases hcopy
        rw [if_pos hdir]
        exact htouch.touched.quota
      · next hdir =>
        rw [if_neg hdir]
        obtain ⟨_, m₃, hcheck, hrest⟩ := bind_eq_ok hcopy
        rw [quotaCheck_idle hcheck] at hrest
        obtain ⟨_, m₄, hdisk, hadd⟩ := bind_eq_ok hrest
        cases hadd
        unfold onDisk at hdisk
        split at hdisk
        · cases hdisk
          show m₁.quota.add _ = _
          rw [htouch.touched.quota]
        · cases hdisk

/-- **Copy-on-write that brings up no file** leaves everything but the delta alone. -/
theorem ensure_same (hin : NameIn m name b dir) (hidle : m.Idle name b (dir ++ [n]))
    (hok : ensureDeltaPathForWrite name (dir ++ [n]) m = .ok l m') :
    SameOn (fun r => r ≠ some (.files name)) m.disk m'.disk := by
  rcases ensure_steps hin hok with ⟨-, -, hdisk⟩ | ⟨hk, m₁, m₂, hrec, -, -, -, hsame⟩
  · rw [hdisk]
    exact SameOn.refl _ _
  · have hdisk : m₁.disk = m.disk := by
      refine recordFirstTouch_disk hin.branch (fun src hsrc => ?_) hrec
      obtain ⟨node, hnode⟩ := inheritedNode_of_some hsrc
      refine ⟨node, lstat_of_inheritedNode hsrc hnode, ?_⟩
      rw [← Bool.not_eq_true]
      exact fun hfile => hidle.noFile hk ⟨node, hnode, hfile⟩
    rwa [hdisk] at hsame

end Ok

end BranchFs
