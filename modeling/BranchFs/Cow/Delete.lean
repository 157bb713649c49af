/-
# BranchFs.Cow.Delete -- deleting one path

`delete_path_in_branch` and `rmdir_path_in_branch` drop what the delta holds at the path, then the
directories above that this leaves empty, as long as no touch record speaks of them, and put up a
tombstone where something is inherited. The path is gone. Whether anything else goes with it is decided
by the directories that were dropped: a directory that was renamed into place, or came with a commit, has
no record of its own, and where nothing is inherited in its place it disappears.
-/
import BranchFs.Cow.Overlaid
import BranchFs.Logic.Removal
import BranchFs.Merge.Success

namespace BranchFs

open BranchFs.Posix BranchFs.Logic

/-! ## Mounts stay -/

section Mounts

variable {α : Type} {name : String}

/-- The mounts of the disk are where they were. -/
def SameMounts (m m' : Manager) : Prop := SameLayout m.disk m'.disk

/-- The mounts of the disk stay where they are. -/
abbrev KeepsMounts (x : Mgr α) : Prop := Keeps SameMounts x

theorem SameMounts.trans {m m' m'' : Manager} (h : SameMounts m m') (h' : SameMounts m' m'') :
    SameMounts m m'' := SameLayout.trans h h'

theorem mounts_bind {β : Type} {x : Mgr α} {f : α → Mgr β} (hx : KeepsMounts x)
    (hf : ∀ a, KeepsMounts (f a)) : KeepsMounts (x >>= f) := by
  have htrans : ∀ s t u : Manager, SameMounts s t → SameMounts t u → SameMounts s u :=
    fun _ _ _ => SameMounts.trans
  exact keeps_bind htrans hx hf

theorem mounts_onDisk {x : Io α} (h : Sys.Settled x) : KeepsMounts (onDisk x) := by
  intro m
  show SameLayout m.disk (after (onDisk x) m).disk
  have hd := h m.disk
  unfold after at hd ⊢
  unfold onDisk
  cases hx : x m.disk with
  | ok a d => simpa [hx] using hd
  | error e d => simpa [hx] using hd

theorem mounts_pure (a : α) : KeepsMounts (pure a : Mgr α) := fun _ => rfl

theorem mounts_readDisk (f : Tree → α) : KeepsMounts (readDisk f) := fun _ => rfl

theorem mounts_modifyBranch (f : Branch → Branch) : KeepsMounts (modifyBranch name f) := fun _ => rfl

theorem mounts_getBranch : KeepsMounts (getBranch name) := by
  intro m
  unfold after getBranch
  cases m.forest.get? name <;> rfl

theorem settled_removeEntry (l : Place) : Sys.Settled (Io.removeEntry l) := by
  refine Sys.settled_iff.mpr fun d => ?_
  unfold Sys.Ends Io.removeEntry
  split
  · split
    · exact Sys.settled_iff.mp (Sys.settled_removeDirAll l) d
    · exact Sys.settled_iff.mp (Sys.settled_removeFile l) d
  · exact Or.inr ⟨_, _, rfl, rfl⟩
  · exact Or.inl ⟨_, _, rfl, rfl⟩

theorem mounts_pruneEmptyDeltaParents :
    ∀ (levels : Nat) (p : RelPath), KeepsMounts (pruneEmptyDeltaParents name levels p) := by
  intro levels
  induction levels with
  | zero => exact fun p => mounts_pure ()
  | succ levels ih =>
    intro p
    refine mounts_bind mounts_getBranch fun b => ?_
    split
    · exact mounts_pure ()
    · refine mounts_bind (keeps_attempt (mounts_onDisk (Sys.settled_removeDir _))) fun r => ?_
      cases r with
      | ok a => exact ih p.dropLast
      | error e => exact mounts_pure ()

theorem mounts_removeDelta (p : RelPath) : KeepsMounts (removeDelta name p) := by
  refine mounts_bind (mounts_readDisk _) fun found => ?_
  cases found with
  | error e => exact mounts_pure ()
  | ok n =>
    refine mounts_bind (mounts_readDisk _) fun freed => ?_
    refine mounts_bind (mounts_onDisk (settled_removeEntry _)) fun _ => ?_
    refine mounts_bind (fun _ => rfl) fun _ => ?_
    exact mounts_pruneEmptyDeltaParents _ _

end Mounts

/-! ## The delta without a path -/

/-- A touch record speaks of the path. -/
def HasRecord (b : Branch) (z : RelPath) : Prop := (b.getTouchRecord z).isSome = true

instance (b : Branch) (z : RelPath) : Decidable (HasRecord b z) := inferInstanceAs (Decidable (_ = true))

/-- What is left of the delta of `b` when `p` is taken out of it. -/
noncomputable def deltaWithout (m : Manager) (b : Branch) (p : RelPath) : RelPath → Option Entry :=
  removed .dir (deltaKind m.disk b.name) (HasRecord b) p

/-- The directory goes with `p`: the delta holds nothing else in it, and neither it nor a directory from
there down to `p` has a record. -/
def GoesWith (m : Manager) (b : Branch) (p x : RelPath) : Prop :=
  Emptied .dir (deltaKind m.disk b.name) (HasRecord b) p x

section Removal

variable {m : Manager} {name : String} {b : Branch} {p : RelPath}

/-- **Taking a path out of the delta.** -/
theorem removeDelta_ok (hb : m.forest.get? name = some b) (hp : p ≠ [])
    (hlink : m.disk.NoLinkAbove (deltaPath name p)) :
    ∃ d q, removeDelta name p m = .ok () { m with disk := d, quota := q } ∧
      deltaKind d name = deltaWithout m b p ∧
      SameOn (fun r => r ≠ some (.files name)) m.disk d := by
  obtain rfl := Forest.name_of_get? hb
  have hget := Disk.lstat_toOption (l := deltaPath b.name p) rfl hlink
  unfold removeDelta deltaWithout
  rw [readDisk_bind]
  cases hl : m.disk.lstat (deltaPath b.name p) with
  | error e =>
    rw [hl] at hget
    have hnone : deltaKind m.disk b.name p = none := (Disk.get_none_iff _ _).mp hget.symm
    refine ⟨m.disk, m.quota, rfl, ?_, SameOn.refl _ _⟩
    rw [removed_of_none (deltaKind_closed _ _) hnone]
  | ok n =>
    rw [hl] at hget
    have hthere : deltaKind m.disk b.name p ≠ none := by
      rw [deltaKind, Disk.kindAt_of_get hget.symm]
      simp
    obtain ⟨d₁, hrun, hkind, hsame⟩ :=
      removeEntry_clears (l := deltaPath b.name p) rfl hp (Disk.dir_parent hthere)
    let freed := if n.kind.isDir then dirSize m.disk (deltaPath b.name p) else metaLen n
    let m₁ : Manager := { m with disk := d₁, quota := m.quota.sub freed }
    have hdropped : deltaKind d₁ b.name = dropped (deltaKind m.disk b.name) p := by
      funext q
      rw [deltaKind, hkind]
      exact if_congr (inTree_le (R := .files b.name)) rfl rfl
    have hlink₁ : m₁.disk.NoLinkAbove (deltaPath b.name p.dropLast) := by
      refine (hlink.mono (deltaPath_le.mpr (List.dropLast_prefix p))).of_le fun x _ _ hl => ?_
      unfold Disk.linkAt at hl ⊢
      rw [hkind] at hl
      split at hl
      · cases hl
      · exact hl
    obtain ⟨d₂, hprune, hd₂, hsame₂⟩ := pruneEmptyDeltaParents_ok p.length p.dropLast m₁
      (by rw [List.length_dropLast]; omega) hb hlink₁
    refine ⟨d₂, m.quota.sub freed, ?_, ?_, hsame.trans hsame₂⟩
    · show removeDeltaNode b.name p n m = _
      rw [removeDeltaNode, readDisk_bind, bind_ok (onDisk_ok hrun)]
      exact hprune
    · rw [hd₂]
      show prune (deltaKind d₁ b.name) _ = removed _ _ _ _
      rw [hdropped]
      have hiff : ∀ x, Climbed .dir (dropped (deltaKind m.disk b.name) p) (HasRecord b) p.dropLast x ↔
          GoesWith m b p x := fun x => ⟨fun h => ⟨hthere, h⟩, fun h => h.2⟩
      exact congrArg (prune _) (funext fun x => propext (hiff x))

/-- What an operation leaves that takes `p` out of the delta and changes tombstones at `p` and below. -/
structure TakenOut (m m' : Manager) (name : String) (b b' : Branch) (p : RelPath) : Prop where
  branch : m'.forest.get? name = some b'
  forest : m.forest.SameBut name m'.forest
  delta : deltaKind m'.disk name = deltaWithout m b p
  same : SameOn (fun r => ¬ Own name r) m.disk m'.disk
  mounts : SameMounts m m'
  tombstones : ∀ t, ¬ p <+: t → (t ∈ b'.tombstones ↔ t ∈ b.tombstones)

variable {m' : Manager} {b' : Branch}

theorem TakenOut.whiteouts (h : TakenOut m m' name b b' p) (t : RelPath) (ht : ¬ p <+: t) :
    Whiteout b' t ↔ Whiteout b t := by
  unfold Whiteout
  rw [h.tombstones t ht]

/-- **What is shown afterwards.** -/
theorem TakenOut.view (h : TakenOut m m' name b b' p) (hb : m.forest.get? name = some b)
    (hap : m.LayersApart name) : m'.view name =
      shown .dir (overlay (deltaWithout m b p) (Whiteout b') (m.inheritedKind b)) := by
  rw [Manager.view_eq_overlay h.branch, h.delta,
    Manager.inheritedKind_of_apart hap h.forest hb h.branch h.same h.mounts]

/-- **Elsewhere everything stays** exactly when each directory that goes is inherited as one, and not
deleted. -/
theorem TakenOut.elsewhere_iff (h : TakenOut m m' name b b' p) (hb : m.forest.get? name = some b)
    (hap : m.LayersApart name) (hp : p ≠ []) :
    (∀ q, ¬ p <+: q → m'.view name q = m.view name q) ↔
      ∀ x, GoesWith m b p x → ¬ Covers (Whiteout b) x ∧ m.inheritedKind b x = some .dir := by
  rw [h.view hb hap, Manager.view_eq_overlay hb]
  obtain rfl := Forest.name_of_get? hb
  exact shown_removed_off_iff h.whiteouts (deltaKind_closed _ _) hp

/-! ## The touch of a deletion -/

theorem getTouchRecord_cons {r : TouchRecord} {z : RelPath} (h : r.path ≠ z) :
    Branch.getTouchRecord { b with touches := r :: b.touches } z = b.getTouchRecord z := by
  unfold Branch.getTouchRecord
  rw [List.find?_cons_of_neg]
  simpa using h

/-- The first touch of a deletion keeps no contents, so the disk stays. -/
theorem recordFirstTouch_bare (hb : m.forest.get? name = some b) (inherited : Option Place) :
    ∃ f : Branch → Branch, recordFirstTouch name p inherited false m =
        .ok () { m with forest := m.forest.modify name f } ∧
      (∀ c, SameSettings c (f c)) ∧ (f b).tombstones = b.tombstones ∧
      ∀ z, z ≠ p → (HasRecord (f b) z ↔ HasRecord b z) := by
  unfold recordFirstTouch
  rw [bind_ok (getBranch_ok hb)]
  by_cases hr : (b.getTouchRecord p).isSome = true
  · rw [if_pos hr]
    refine ⟨id, ?_, fun c => SameSettings.refl c, rfl, fun _ _ => Iff.rfl⟩
    rw [modify_id]
    rfl
  · rw [if_neg hr]
    let record : TouchRecord := ⟨p, PathIdentity.fromPath m.disk inherited, none⟩
    refine ⟨fun c => { c with touches := record :: c.touches }, rfl,
      fun c => ⟨rfl, rfl, rfl, rfl, rfl, rfl, rfl⟩, rfl, fun z hz => ?_⟩
    unfold HasRecord
    rw [getTouchRecord_cons (r := record) fun heq => hz heq.symm]

/-- **A deletion** takes the path out of the delta and leaves a tombstone where something is
inherited. -/
theorem deleteTouched_ok (hb : m.forest.get? name = some b) (hp : p ≠ [])
    (hlink : m.disk.NoLinkAbove (deltaPath name p)) :
    ∃ m' b', deleteTouched name p m = .ok () m' ∧ TakenOut m m' name b b' p ∧
      (m.inheritedKind b p ≠ none → p ∈ b'.tombstones) := by
  obtain ⟨f, hrec, hset, hts, hrecords⟩ := recordFirstTouch_bare (p := p) hb (m.inheritedForTouch b p)
  let m₁ : Manager := { m with forest := m.forest.modify name f }
  have hb₁ : m₁.forest.get? name = some (f b) :=
    Forest.get?_modify_self hb (hset b).name (hset b).parent
  obtain ⟨d, q, hrun, hdelta, hsame⟩ := removeDelta_ok hb₁ hp (m := m₁) hlink
  let m₂ : Manager := { m₁ with disk := d, quota := q }
  have hmounts : SameMounts m₁ m₂ := (mounts_removeDelta p).ok hrun
  let g : Branch → Branch := if (m.inheritedForTouch b p).isSome = true then Branch.addTombstone p
    else Branch.removeTombstone p
  have hg : ∀ c, SameSettings c (g c) := by
    intro c
    unfold g
    split
    · unfold Branch.addTombstone
      split <;> exact ⟨rfl, rfl, rfl, rfl, rfl, rfl, rfl⟩
    · exact ⟨rfl, rfl, rfl, rfl, rfl, rfl, rfl⟩
  have hwhole : deleteTouched name p m = .ok () { m₂ with forest := m₂.forest.modify name g } := by
    rw [deleteTouched, bind_ok (inheritedForTouch_ok hb), bind_ok hrec, bind_ok hrun]
    unfold g
    split <;> rfl
  have hwithout : deltaWithout m₁ (f b) p = deltaWithout m b p := by
    unfold deltaWithout
    rw [(hset b).name]
    refine removed_congr fun z hz => hrecords z ?_
    rintro rfl
    exact not_prefix_dropLast hp hz
  refine ⟨_, g (f b), hwhole, ⟨?_, ?_, ?_, ?_, hmounts, ?_⟩, ?_⟩
  · exact Forest.get?_modify_self hb₁ (hg _).name (hg _).parent
  · exact (Forest.SameBut.of_modify hset).trans (Forest.SameBut.of_modify hg)
  · exact hdelta.trans hwithout
  · exact sameOn_of_own (own_files name) hsame
  · intro t ht
    have hne : t ≠ p := fun heq => ht (heq ▸ List.prefix_rfl)
    unfold g
    split
    · rw [Branch.mem_addTombstone, hts]
      simp [hne]
    · rw [Branch.mem_removeTombstone, hts]
      simp [hne]
  · intro hinh
    have hsome : (m.inheritedForTouch b p).isSome = true := by
      rw [Option.isSome_iff_ne_none]
      exact fun h => hinh (Manager.inheritedKind_eq_none.mpr h)
    unfold g
    rw [if_pos hsome, Branch.mem_addTombstone]
    exact Or.inl rfl

end Removal

/-! ## What a deletion takes away -/

/-- `delete_path_in_branch` or `rmdir_path_in_branch` returned Ok. -/
def Deletes (m : Manager) (name : String) (p : RelPath) (m' : Manager) : Prop :=
  deletePathInBranch name p m = .ok () m' ∨ rmdirPathInBranch name p m = .ok () m'

/-- The path is gone with everything below, and nothing else has changed. -/
structure DeletedExactly (m m' : Manager) (name : String) (p : RelPath) : Prop where
  gone : ∀ q, p <+: q → m'.view name q = none
  kept : ∀ q, ¬ p <+: q → m'.view name q = m.view name q

section Deletion

variable {m m' : Manager} {name : String} {b : Branch} {p : RelPath}

theorem Deletes.touched (h : Deletes m name p m') : deleteTouched name p m = .ok () m' := by
  have hguard : ∀ {x : Mgr Unit}, (writableBranch name >>= fun _ => x) m = .ok () m' →
      x m = .ok () m' := by
    intro x hx
    obtain ⟨_, m₁, hw, hrest⟩ := bind_eq_ok hx
    unfold writableBranch at hw
    split at hw
    · split at hw
      · cases hw
        exact hrest
      · cases hw
    · cases hw
  rcases h with h | h
  · exact hguard h
  · obtain ⟨_, m₁, hcheck, hrest⟩ := bind_eq_ok (hguard h)
    have hm : m₁ = m := by
      unfold checkEmptyDir at hcheck
      split at hcheck
      · cases hcheck
      · split at hcheck
        · cases hcheck
        · split at hcheck
          · cases hcheck
          · split at hcheck
            · cases hcheck
            · cases hcheck
              rfl
    rwa [hm] at hrest

/-- **When a deletion removes exactly its target**: exactly when each directory that goes with it is
inherited as a directory, and not deleted. -/
theorem deletes_exactly_iff (hb : m.forest.get? name = some b) (hp : p ≠ [])
    (hlink : m.disk.NoLinkAbove (deltaPath name p)) (hap : m.LayersApart name)
    (hdel : Deletes m name p m') :
    DeletedExactly m m' name p ↔
      ∀ x, GoesWith m b p x → ¬ Covers (Whiteout b) x ∧ m.inheritedKind b x = some .dir := by
  obtain ⟨m₁, b', hrun, hout, htomb⟩ := deleteTouched_ok hb hp hlink
  obtain rfl : m₁ = m' := by
    have := hdel.touched
    rw [hrun] at this
    cases this
    rfl
  rw [← hout.elsewhere_iff hb hap hp]
  refine ⟨DeletedExactly.kept, fun hkept => ⟨fun q hq => ?_, hkept⟩⟩
  rw [hout.view hb hap]
  refine shown_of_none_above ?_ hq
  obtain rfl := Forest.name_of_get? hb
  have hnone : deltaWithout m b p p = none := removed_below List.prefix_rfl
  by_cases hinh : m.inheritedKind b p = none
  · by_cases hcov : Covers (Whiteout b') p
    · exact overlay_of_covered hnone hcov
    · rw [overlay_of_none hnone hcov, hinh]
  · exact overlay_of_covered hnone ⟨p, ⟨htomb hinh, hp⟩, List.prefix_rfl⟩

end Deletion

/-- Every deletion that returns Ok removes exactly its target. -/
def DeletionsAreExact : Prop :=
  ∀ (store : FreshStore) ops name b p m', let m := run step (Manager.init store) ops
    m.forest.get? name = some b → p ≠ [] → Deletes m name p m' → DeletedExactly m m' name p

/-- A directory with a directory and a file in it is made and renamed. -/
def renamedDirOps : List Op :=
  [.create "b" "main" .lazy [], .file "b" (.mkdir [] "d" 0o755),
    .file "b" (.mkdir ["d"] "s" 0o755), .file "b" (.create ["d", "s"] "f" 0o644),
    .file "b" (.rename [] "d" [] "e" false)]

def renamedDir : Manager := run step (Manager.init .bare) renamedDirOps

/-- The record of the inner directory still names the old path, so the directory goes with its file. -/
theorem renamedDir_run :
    renamedDir.forest.get? "b" = some (renamedDir.recordOf "b") ∧
      succeeds (deletePathInBranch "b" ["e", "s", "f"]) renamedDir = true ∧
      renamedDir.view "b" ["e", "s"] = some .dir ∧
      (after (deletePathInBranch "b" ["e", "s", "f"]) renamedDir).view "b" ["e", "s"] = none := by
  decide +kernel

theorem not_deletionsAreExact : ¬ DeletionsAreExact := by
  intro h
  obtain ⟨hb, hok, hbefore, hafter⟩ := renamedDir_run
  have hexact : DeletedExactly renamedDir
      (after (deletePathInBranch "b" ["e", "s", "f"]) renamedDir) "b" ["e", "s", "f"] :=
    h .bare renamedDirOps "b" _ _ _ hb (by decide) (Or.inl (ok_of_succeeds hok))
  have hkept := hexact.kept ["e", "s"] (by decide)
  rw [hafter, hbefore] at hkept
  cases hkept

/-- A file made in an inherited directory. -/
def fileInInherited : Manager := run step (Manager.init .bare)
  [.host (.mkdir ["d"]), .create "b" "main" .lazy [], .file "b" (.create ["d"] "f" 0o644)]

theorem fileInInherited_run :
    fileInInherited.forest.get? "b" = some (fileInInherited.recordOf "b") ∧
      (fileInInherited.recordOf "b").tombstones = [] ∧
      fileInInherited.inheritedKind (fileInInherited.recordOf "b") ["d"] = some .dir ∧
      (∀ e ∈ fileInInherited.disk.entries, e.2.kind.isSymlink = false) ∧
      succeeds (deletePathInBranch "b" ["d", "f"]) fileInInherited = true := by
  decide +kernel

/-- The directory goes from the delta with its file, and is still shown. -/
theorem fileInInherited_deleted :
    DeletedExactly fileInInherited (after (deletePathInBranch "b" ["d", "f"]) fileInInherited)
      "b" ["d", "f"] := by
  obtain ⟨hb, hts, hinh, hlinks, hok⟩ := fileInInherited_run
  have hlink := linkAt_of_entries hlinks
  refine (deletes_exactly_iff hb (by decide) (fun x _ => hlink x)
    (Manager.layersApart_of_linkless fun _ _ _ => hlink _) (Or.inl (ok_of_succeeds hok))).mpr ?_
  intro x hx
  have hxd : x = ["d"] := by
    have hle : x <+: ["d"] := hx.2.2.1
    rcases List.prefix_cons_iff.mp hle with rfl | ⟨t, rfl, ht⟩
    · exact absurd rfl hx.ne_nil
    · rw [List.prefix_nil.mp ht]
  subst hxd
  refine ⟨?_, hinh⟩
  rintro ⟨t, ⟨ht, _⟩, _⟩
  rw [hts] at ht
  cases ht

end BranchFs
