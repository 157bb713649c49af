/-
# BranchFs.Mount.Setattr -- what setattr answers

`setattr` passes over a copy-on-write that fails, and over an open that fails, and answers with the
attributes it finds in the end. Where the path is in the delta, or a file comes up that the quota has
room for, these are the attributes that were asked for. Where nothing comes up, for want of room or
because only files and links do, the answer is the inherited entry as it was, under a success
(`setattr_truthful_iff`); and no failure of copy-on-write is ever replied as ENOSPC, since
`ensure_cow` hides the errno it would be matched by.
-/
import BranchFs.Cow.Metadata
import BranchFs.Cow.Traceless
import BranchFs.Mount.Follow
import BranchFs.Mount.Listing

namespace BranchFs

open BranchFs.Posix BranchFs.Logic

/-! ## What the answer owes -/

/-- The path does not get into the delta: copy-on-write returns an error, or the path is an inherited
directory, which it leaves where it is. -/
def CowFails (f : Faults) (m : Manager) (name : String) (p : RelPath) : Prop :=
  (∃ e m', Faulty.ensureDeltaPathForWrite f name p m = .error e m') ∨
    (m.view name p = some .dir ∧ deltaKind m.disk name p = none)

/-- A success has the effect that was asked for, and a path that does not get into the delta is an
error, ENOSPC where the quota is the reason. -/
structure SetattrTruthful (f : Faults) (s : Mount) (ino : Nat) (name : String) (p : RelPath)
    (size : Option Nat) (a : SetAttr) : Prop where
  sized : ∀ reply s', Faulty.setattr f ino size a s = .ok reply s' → ∀ len, size = some len →
    ∃ data, s'.manager.view name p = some (.file data) ∧ data.length = len
  moded : ∀ reply s', Faulty.setattr f ino size a s = .ok reply s' → ∀ mode, a.mode = some mode →
    (s'.manager.perms name p).map Perms.mode = some mode
  refused : asksFor size a = true → CowFails f s.manager name p →
    ∃ e s', Faulty.setattr f ino size a s = .error e s' ∧ s'.manager = s.manager
  full : asksFor size a = true →
    (∃ m', Faulty.ensureDeltaPathForWrite f name p s.manager = .error (.io .ENOSPC) m') →
    ∃ s', Faulty.setattr f ino size a s = .error .ENOSPC s'

/-- The answers are truthful about every file and directory below the root of a branch. -/
def SetattrTellsTheTruth : Prop :=
  ∀ s : Mount, s.Reachable → ∀ ino name p, s.ctlFileOf ino = none → p ≠ [] →
    s.denotes ino = some (name, p) →
    (∃ k, s.manager.view name p = some k ∧ k.isSymlink = false) →
    ∀ f size a, SetattrTruthful f s ino name p size a

/-- The delta has the path, or copy-on-write has something to bring up, room for it, and a copy that
works. -/
def GetsCopy (f : Faults) (m : Manager) (b : Branch) (p : RelPath) : Prop :=
  deltaKind m.disk b.name p ≠ none ∨ (m.broughtUp b p ≠ none ∧ f.copy = none)

/-- The number of a file or directory in a directory the branch shows. -/
structure Numbers (s : Mount) (ino : Nat) (name : String) (b : Branch) (dir : RelPath)
    (n : String) : Prop where
  noCtl : s.ctlFileOf ino = none
  denotes : s.denotes ino = some (name, dir ++ [n])
  inside : NameIn s.manager name b dir
  visible : ∃ k, s.manager.view name (dir ++ [n]) = some k ∧ k.isSymlink = false

/-! ## Copy-on-write of what is shown -/

section Copy

variable {f : Faults} {m m' : Manager} {name : String} {b : Branch} {dir p : RelPath} {n : String}
  {k : Entry}

/-- Copy-on-write of a path the delta has drops its tombstone and no more. -/
theorem ensureDelta_there (f : Faults) (hb : m.forest.get? name = some b) (hw : b.isWritable = true)
    (hk : deltaKind m.disk name p ≠ none) :
    Faulty.ensureDeltaPathForWrite f name p m = .ok (deltaPath name p)
      { m with forest := m.forest.modify name (Branch.removeTombstone p) } := by
  have hpar : m.disk.kindAt (deltaPath name p).parent = some .dir := Disk.dir_parent hk
  have hyes : m.disk.lexists (deltaPath name p) = true :=
    (Disk.lexists_eq rfl (Disk.noLinkAbove_of_dir hpar)).mpr hk
  let m₁ : Manager := { m with forest := m.forest.modify name (Branch.removeTombstone p) }
  have hdirs : onDisk (Io.ensureParentDirs (deltaPath name p)) m₁ = .ok () m₁ :=
    onDisk_ok (Posix.Sys.createDirAll_of_dir rfl hpar)
  unfold Faulty.ensureDeltaPathForWrite
  rw [bind_ok (writableBranch_ok hb hw), readDisk_bind, hyes, when_false (by simp)]
  rw [bind_ok (show (pure ⟨⟩ : Mgr PUnit) m = .ok ⟨⟩ m from rfl)]
  rw [bind_ok (show modifyBranch name (Branch.removeTombstone p) m = .ok () m₁ from rfl), bind_ok hdirs]
  rfl

/-- The ways copy-on-write of a path ends that the delta does not have. -/
theorem ensureDelta_cases (f : Faults) (h : NameIn m name b dir) (hw : b.isWritable = true)
    (hfree : deltaKind m.disk name (dir ++ [n]) = none) :
    (∃ m', Faulty.ensureDeltaPathForWrite f name (dir ++ [n]) m =
        .ok (deltaPath name (dir ++ [n])) m') ∨
      (m.refuses b (dir ++ [n]) = true ∧
        ∃ m', Faulty.ensureDeltaPathForWrite f name (dir ++ [n]) m = .error (.io .ENOSPC) m') ∨
      (f.copy ≠ none ∧
        ∃ m', Faulty.ensureDeltaPathForWrite f name (dir ++ [n]) m = .error (.io Errno.EIO) m') := by
  obtain ⟨m₁, hrec, ht⟩ := h.touch (dir ++ [n])
  have hno : m.disk.lexists (deltaPath name (dir ++ [n])) = false := by
    rw [← Bool.not_eq_true, h.lexists, not_not]
    exact hfree
  have hrun : ∀ {r : EStateM.Result BranchError Manager Unit},
      Faulty.copyUpInherited f (deltaPath name (dir ++ [n])) (m.inheritedForTouch b (dir ++ [n])) m₁ = r →
      Faulty.touchAndCopyUp f name (dir ++ [n]) m = r := by
    intro r hr
    unfold Faulty.touchAndCopyUp
    rw [bind_ok (inheritedForTouch_ok h.branch), bind_ok hrec]
    exact hr
  unfold Faulty.ensureDeltaPathForWrite
  rw [bind_ok (writableBranch_ok h.branch hw), readDisk_bind, hno, when_true (by simp)]
  rcases copyUp_cases f h hfree ht.touched ht.calm with ⟨-, m₂, d, hcopy, hd⟩ | ⟨hroom, hcopy⟩ |
    ⟨-, -, d, hcopy, hfault⟩
  · left
    let m₃ : Manager := { m₂ with forest := m₂.forest.modify name (Branch.removeTombstone (dir ++ [n])) }
    refine ⟨{ m₃ with disk := d }, ?_⟩
    rw [bind_ok (hrun hcopy)]
    rw [bind_ok (show modifyBranch name (Branch.removeTombstone (dir ++ [n])) m₂ = .ok () m₃ from rfl)]
    rw [bind_ok (show onDisk (Io.ensureParentDirs (deltaPath name (dir ++ [n]))) m₃ =
      .ok () { m₃ with disk := d } from onDisk_ok hd)]
    rfl
  · right; left
    exact ⟨hroom, m₁, bind_error (hrun hcopy)⟩
  · right; right
    refine ⟨?_, _, bind_error (hrun hcopy)⟩
    rcases hfault with ⟨hf, -⟩ | ⟨⟨j, hf⟩, -⟩ <;> simp [hf]

/-- What is shown and not in the delta is inherited. -/
theorem node_of_visible (h : NameIn m name b dir)
    (hfree : deltaKind m.disk name (dir ++ [n]) = none) (hv : m.view name (dir ++ [n]) = some k) :
    ∃ node, m.inheritedNode b (dir ++ [n]) = some node ∧ node.kind = k := by
  have hkind : m.kindOf name (dir ++ [n]) = some k := by
    unfold Manager.view at hv
    split at hv
    · exact hv
    · cases hv
  have hno : hasDelta m.disk name (dir ++ [n]) = false := by
    rw [← Bool.not_eq_true]
    exact fun hd => h.lexists.mp hd hfree
  rw [Manager.kindOf_eq h.branch, hno, if_neg (by simp)] at hkind
  split at hkind
  · cases hkind
  · rw [Manager.inheritedKind_eq] at hkind
    exact Option.map_eq_some_iff.mp hkind

/-- What is shown and in the delta is what the delta has. -/
theorem delta_of_visible (h : NameIn m name b dir)
    (hthere : deltaKind m.disk name (dir ++ [n]) ≠ none)
    (hv : m.view name (dir ++ [n]) = some k) : deltaKind m.disk name (dir ++ [n]) = some k := by
  obtain ⟨k', hk'⟩ := Option.ne_none_iff_exists'.mp hthere
  have hshown := view_of_delta h.branch hk'
  rw [hv] at hshown
  rw [hk', hshown]

/-- Where a file would have to be copied, a quota without room for it and a host that cannot copy stop
copy-on-write. -/
theorem ensureDelta_stopped (h : NameIn m name b dir)
    (hstop : m.refuses b (dir ++ [n]) = true ∨ f.copy ≠ none)
    (hfree : deltaKind m.disk name (dir ++ [n]) = none) {node : Node String} {c : Bytes}
    (hnode : m.inheritedNode b (dir ++ [n]) = some node) (hfile : node.kind = .file c) (l : Place) :
    Faulty.ensureDeltaPathForWrite f name (dir ++ [n]) m ≠ .ok l m' := by
  intro hok
  obtain ⟨hroom, hcopy⟩ := ensureDelta_room h hfree hnode (by simp [hfile]) hok
  rcases hstop with hfull | hf
  · rw [hroom] at hfull
    cases hfull
  · exact hf (hcopy c hfile)

/-- **What copy-on-write leaves**, where it returns Ok. -/
theorem faultyDelta_placed (h : NameIn m name b dir) {l : Place}
    (hok : Faulty.ensureDeltaPathForWrite f name (dir ++ [n]) m = .ok l m') :
    Placed m m' name b (dir ++ [n]) (m.upAttr b (dir ++ [n])) :=
  ensureDelta_placed h (Faulty.ensureDeltaPathForWrite_of_ok hok)

/-- What gets into the delta is what was shown. -/
theorem upAttr_of_visible (h : NameIn m name b dir) (hv : m.view name (dir ++ [n]) = some k)
    (hk : k.isSymlink = false) (hcopy : GetsCopy f m b (dir ++ [n])) :
    ∃ x, m.upAttr b (dir ++ [n]) = some x ∧ x.kind = k := by
  have hname := Forest.name_of_get? h.branch
  unfold Manager.upAttr
  rw [hname]
  by_cases hthere : deltaKind m.disk name (dir ++ [n]) = none
  · obtain ⟨node, hnode, hkind⟩ := node_of_visible h hthere hv
    have hup : m.broughtUp b (dir ++ [n]) ≠ none := by
      rcases hcopy with hdelta | ⟨hup, -⟩
      · rw [hname] at hdelta
        exact absurd hthere hdelta
      · exact hup
    rw [Disk.attrAt_eq_none.mpr hthere, hnode, Option.none_or, Option.bind_some]
    unfold copyAttr
    cases k with
    | symlink t => cases hk
    | file c =>
      rw [hkind]
      exact ⟨_, rfl, rfl⟩
    | dir =>
      refine absurd (broughtUp_of_dir fun node' hnode' => ?_) hup
      rw [hnode] at hnode'
      cases hnode'
      exact hkind
  · obtain ⟨x, hx, hxk⟩ := Disk.exists_attr (delta_of_visible h hthere hv)
    exact ⟨x, by rw [hx]; rfl, hxk⟩

/-- What keeps a file that is shown from getting into the delta. -/
theorem stop_of_noCopy (h : NameIn m name b dir) {c : Bytes}
    (hv : m.view name (dir ++ [n]) = some (.file c)) (hno : ¬ GetsCopy f m b (dir ++ [n])) :
    ∃ node, m.inheritedNode b (dir ++ [n]) = some node ∧ node.kind = .file c ∧
      (m.refuses b (dir ++ [n]) = true ∨ f.copy ≠ none) := by
  obtain ⟨hthere, hup⟩ := not_or.mp hno
  rw [Forest.name_of_get? h.branch, not_not] at hthere
  obtain ⟨node, hnode, hkind⟩ := node_of_visible h hthere hv
  refine ⟨node, hnode, hkind, ?_⟩
  by_cases hf : f.copy = none
  · left
    by_contra hroom
    refine hup ⟨?_, hf⟩
    have hcheck : m.quota.check (metaLen node) = true := by
      simpa [Manager.refuses, hnode, hkind, Kind.isDir] using hroom
    simp [Manager.broughtUp, hnode, hkind, Kind.isDir, hcheck]
  · exact Or.inr hf

theorem free_of_noCopy (h : NameIn m name b dir) (hno : ¬ GetsCopy f m b p) :
    deltaKind m.disk name p = none := by
  have hthere := (not_or.mp hno).1
  rwa [Forest.name_of_get? h.branch, not_not] at hthere

/-- Where no copy comes about, copy-on-write fails. -/
theorem cowFails_of_noCopy (h : NameIn m name b dir) (hv : m.view name (dir ++ [n]) = some k)
    (hk : k.isSymlink = false) (hno : ¬ GetsCopy f m b (dir ++ [n])) :
    CowFails f m name (dir ++ [n]) := by
  have hfree := free_of_noCopy h hno
  cases k with
  | symlink t => cases hk
  | dir => exact Or.inr ⟨hv, hfree⟩
  | file c =>
    obtain ⟨node, hnode, hkind, hstop⟩ := stop_of_noCopy h hv hno
    cases hcow : Faulty.ensureDeltaPathForWrite f name (dir ++ [n]) m with
    | error e m₁ => exact Or.inl ⟨e, m₁, hcow⟩
    | ok l m₁ => exact absurd hcow (ensureDelta_stopped h hstop hfree hnode hkind l)

/-- Where no copy comes about and copy-on-write returns Ok all the same, the delta is without the
path. -/
theorem none_of_noCopy (h : NameIn m name b dir) (hv : m.view name (dir ++ [n]) = some k)
    (hk : k.isSymlink = false) (hno : ¬ GetsCopy f m b (dir ++ [n])) {l : Place}
    (hok : Faulty.ensureDeltaPathForWrite f name (dir ++ [n]) m = .ok l m') :
    deltaKind m'.disk name (dir ++ [n]) = none := by
  have hfree := free_of_noCopy h hno
  cases k with
  | symlink t => cases hk
  | file c =>
    obtain ⟨node, hnode, hkind, hstop⟩ := stop_of_noCopy h hv hno
    exact absurd hok (ensureDelta_stopped h hstop hfree hnode hkind l)
  | dir =>
    obtain ⟨node, hnode, hkind⟩ := node_of_visible h hfree hv
    have hattr := (faultyDelta_placed h hok).attr (dir ++ [n])
    rw [if_pos rfl, Manager.upAttr, Forest.name_of_get? h.branch, Disk.attrAt_eq_none.mpr hfree,
      Option.none_or, hnode, Option.bind_some, copyAttr, hkind] at hattr
    exact Disk.attrAt_eq_none.mp hattr

end Copy

/-! ## What the calls leave in the delta -/

/-- A path of an open branch that the delta has, and that is no link. -/
structure InDelta (m : Manager) (name : String) (p : RelPath) (k : Entry) : Prop where
  branch : ∃ b, m.forest.get? name = some b ∧ b.isWritable = true
  entry : deltaKind m.disk name p = some k
  plain : k.isSymlink = false
  below : p ≠ []

section Body

variable {f : Faults} {m m₁ : Manager} {name : String} {b : Branch} {dir p : RelPath} {n : String}
  {k : Entry}

theorem InDelta.view (h : InDelta m name p k) : m.view name p = some k := by
  obtain ⟨b, hb, -⟩ := h.branch
  exact view_of_delta hb h.entry

theorem InDelta.valid (h : InDelta m name p k) : m.isBranchValid name = true := by
  obtain ⟨b, hb, -⟩ := h.branch
  unfold Manager.isBranchValid
  rw [hb]
  rfl

theorem InDelta.mode (h : InDelta m name p k) {x : Attr String}
    (hx : m.disk.attrAt (deltaPath name p) = some x) :
    (m.perms name p).map Perms.mode = some x.mode := by
  obtain ⟨b, hb, -⟩ := h.branch
  rw [Manager.perms_eq hb (by simp [h.view]), Manager.permsAt, Forest.name_of_get? hb, hx]
  rfl

/-- A change of the disk that leaves the entry. -/
theorem InDelta.of_disk {m' : Manager} {k' : Entry} (h : InDelta m name p k)
    (hforest : m'.forest = m.forest) (hk : m'.disk.kindAt (deltaPath name p) = some k')
    (hplain : k'.isSymlink = false) : InDelta m' name p k' :=
  ⟨hforest ▸ h.branch, hk, hplain, h.below⟩

/-- Copy-on-write once more changes nothing in the delta. -/
theorem InDelta.again (h : InDelta m name p k) (f : Faults) :
    ∃ m', Faulty.ensureCowForBranch f name p m = .ok (deltaPath name p) m' ∧ InDelta m' name p k := by
  obtain ⟨b, hb, hw⟩ := h.branch
  refine ⟨_, asReq_ok (ensureDelta_there f hb hw (by simp [h.entry])), ?_, h.entry, h.plain, h.below⟩
  exact ⟨b.removeTombstone p, Forest.get?_modify_self hb rfl rfl, hw⟩

/-- Copy-on-write brings what is shown into the delta. -/
theorem inDelta_of_copy (h : NameIn m name b dir) (hw : b.isWritable = true)
    (hv : m.view name (dir ++ [n]) = some k) (hk : k.isSymlink = false)
    (hcopy : GetsCopy f m b (dir ++ [n])) :
    ∃ m₁, Faulty.ensureDeltaPathForWrite f name (dir ++ [n]) m = .ok (deltaPath name (dir ++ [n])) m₁ ∧
      InDelta m₁ name (dir ++ [n]) k := by
  have hname := Forest.name_of_get? h.branch
  obtain ⟨m₁, hok⟩ : ∃ m₁, Faulty.ensureDeltaPathForWrite f name (dir ++ [n]) m =
      .ok (deltaPath name (dir ++ [n])) m₁ := by
    by_cases hthere : deltaKind m.disk name (dir ++ [n]) = none
    · obtain ⟨hup, hf⟩ : m.broughtUp b (dir ++ [n]) ≠ none ∧ f.copy = none := by
        refine hcopy.resolve_left fun hdelta => ?_
        rw [hname] at hdelta
        exact hdelta hthere
      rcases ensureDelta_cases f h hw hthere with hok | ⟨hroom, -⟩ | ⟨hfault, -⟩
      · exact hok
      · exact absurd (broughtUp_of_refuses hroom) hup
      · exact absurd hf hfault
    · exact ⟨_, ensureDelta_there f h.branch hw hthere⟩
  refine ⟨m₁, hok, ?_⟩
  have hplaced := faultyDelta_placed h hok
  obtain ⟨b₁, hb₁, hset, -⟩ := (hplaced.forest.get? name).1 b h.branch
  obtain ⟨x, hx, hxk⟩ := upAttr_of_visible h hv hk hcopy
  have hattr := hplaced.attr (dir ++ [n])
  rw [if_pos rfl, hx] at hattr
  refine ⟨⟨b₁, hb₁, ?_⟩, ?_, hk, by simp⟩
  · rw [hset.isWritable]
    exact hw
  · show m₁.disk.kindAt _ = _
    rw [Disk.kindAt_of_attr hattr, hxk]

/-- One change of attributes. -/
theorem InDelta.step (h : InDelta m name p k) {x : Node String}
    (hx : m.disk.get (deltaPath name p) = some x) (g : Node String → Node String) {α : Type} (io : Io α)
    (hio : after io m.disk = after (Posix.Sys.setAttr (deltaPath name p) g) m.disk) :
    ∃ m' y, ignoring io m = .ok () m' ∧ InDelta m' name p k ∧
      m'.disk.get (deltaPath name p) = some y ∧ y.mode = (g x).mode := by
  have hk : x.kind = k := by
    have hentry := h.entry
    unfold deltaKind at hentry
    rw [Disk.kindAt_of_get hx] at hentry
    exact Option.some.inj hentry
  have hget := Posix.Sys.get_setAttr (l := deltaPath name p) rfl hx (by rw [hk]; exact h.plain) h.below g
  rw [← hio] at hget
  refine ⟨_, _, ignoring_eq io m, h.of_disk rfl ?_ h.plain, hget, rfl⟩
  show (after io m.disk).kindAt _ = _
  rw [Disk.kindAt_of_get hget]
  exact congrArg some hk

/-- **`apply_setattr`** leaves the entry and sets the mode that is asked for. -/
theorem InDelta.applied (h : InDelta m name p k) (a : SetAttr) :
    ∃ m', applySetattr (deltaPath name p) a m = .ok () m' ∧ InDelta m' name p k ∧
      ∀ mode, a.mode = some mode → (m'.perms name p).map Perms.mode = some mode := by
  obtain ⟨x, hx, -⟩ := Disk.exists_get h.entry
  obtain ⟨m₁, x₁, hrun₁, h₁, hx₁, hmode⟩ : ∃ m₁ x₁, applyMode (deltaPath name p) a.mode m = .ok () m₁ ∧
      InDelta m₁ name p k ∧ m₁.disk.get (deltaPath name p) = some x₁ ∧
      ∀ mode, a.mode = some mode → x₁.mode = mode := by
    cases hmode : a.mode with
    | none => exact ⟨m, x, rfl, h, hx, by simp⟩
    | some mode =>
      obtain ⟨m₁, x₁, hrun, h₁, hx₁, hset⟩ := h.step hx (fun n => { n with mode := mode })
        (Posix.Sys.setPermissions (deltaPath name p) mode) rfl
      refine ⟨m₁, x₁, hrun, h₁, hx₁, fun mode' heq => ?_⟩
      rw [hset, ← Option.some.inj heq]
  obtain ⟨m₂, x₂, hrun₂, h₂, hx₂, hkeep₂⟩ : ∃ m₂ x₂,
      when (a.uid.isSome || a.gid.isSome) (ignoring (Posix.Sys.chown (deltaPath name p) a.uid a.gid)) m₁ =
        .ok () m₂ ∧ InDelta m₂ name p k ∧ m₂.disk.get (deltaPath name p) = some x₂ ∧
        x₂.mode = x₁.mode := by
    by_cases hc : (a.uid.isSome || a.gid.isSome) = true
    · rw [when_true hc]
      exact h₁.step hx₁ (fun n => { n with uid := a.uid.getD n.uid, gid := a.gid.getD n.gid }) _ rfl
    · rw [when_false hc]
      exact ⟨m₁, x₁, rfl, h₁, hx₁, rfl⟩
  obtain ⟨m₃, x₃, hrun₃, h₃, hx₃, hkeep₃⟩ : ∃ m₃ x₃,
      when (a.atime.isSome || a.mtime.isSome) (ignoring (utimensat (deltaPath name p) a.mtime)) m₂ =
        .ok () m₃ ∧ InDelta m₃ name p k ∧ m₃.disk.get (deltaPath name p) = some x₃ ∧
        x₃.mode = x₂.mode := by
    by_cases hc : (a.atime.isSome || a.mtime.isSome) = true
    · rw [when_true hc]
      let t := a.mtime.map (TimeOrNow.at m₂.disk)
      exact h₂.step hx₂ (fun n => { n with mtime := t.getD n.mtime }) _ rfl
    · rw [when_false hc]
      exact ⟨m₂, x₂, rfl, h₂, hx₂, rfl⟩
  refine ⟨m₃, ?_, h₃, fun mode hask => ?_⟩
  · unfold applySetattr
    rw [bind_ok hrun₁, bind_ok hrun₂]
    exact hrun₃
  · rw [h₃.mode (Disk.attrAt_of_get hx₃)]
    show some x₃.mode = some mode
    rw [hkeep₃, hkeep₂, hmode mode hask]

/-- The other part of `setattr`, of a path that gets into the delta. -/
theorem InDelta.changed (h : InDelta m₁ name p k)
    (hcow : Faulty.ensureCowForBranch f name p m = .ok (deltaPath name p) m₁) (a : SetAttr) :
    ∃ m', Faulty.setAttrPath f name p a m = .ok () m' ∧ InDelta m' name p k ∧
      ∀ mode, a.mode = some mode → (m'.perms name p).map Perms.mode = some mode := by
  obtain ⟨m₂, hrun, h₂, hmode⟩ := h.applied a
  refine ⟨m₂, ?_, h₂, hmode⟩
  have hattempt : attempt (Faulty.ensureCowForBranch f name p) m = .ok (.ok (deltaPath name p)) m₁ := by
    simp only [attempt, hcow]
  exact (bind_ok hattempt).trans hrun

theorem length_resize (old : Bytes) (len : Nat) : (resize old len).length = len := by
  rw [resize, List.length_append, List.length_take, List.length_replicate]
  omega

/-- A file of the delta is given the length, unless it would grow past the quota. -/
theorem InDelta.resized {c : Bytes} (h : InDelta m₁ name p (.file c))
    (hcow : Faulty.ensureCowForBranch f name p m = .ok (deltaPath name p) m₁) (len : Nat) :
    (∃ m', Faulty.truncatePath f name p len m = .error .ENOSPC m') ∨
      ∃ m', Faulty.truncatePath f name p len m = .ok () m' ∧
        InDelta m' name p (.file (resize c len)) := by
  obtain ⟨x, hx, hxk⟩ := Disk.exists_get h.entry
  let handle : FileHandle := ⟨(deltaPath name p).root, x.id⟩
  have hattempt : attempt (Faulty.ensureCowForBranch f name p) m = .ok (.ok (deltaPath name p)) m₁ := by
    simp only [attempt, hcow]
  have hopen : attempt (ioOrEio (Posix.Sys.openWrite (deltaPath name p) false false)) m₁ =
      .ok (.ok handle) m₁ := by
    have hio : ioOrEio (Posix.Sys.openWrite (deltaPath name p) false false) m₁ = .ok handle m₁ :=
      ioOrEio_ok (Posix.Sys.openWrite_file rfl hx hxk)
    simp only [attempt, hio]
  have hrun : Faulty.truncatePath f name p len m = setHandleLen handle len m₁ :=
    (bind_ok hattempt).trans (bind_ok hopen)
  let m₂ : Manager := { m₁ with disk := m₁.disk.mapFile handle fun old => resize old len }
  have h₂ : InDelta m₂ name p (.file (resize c len)) :=
    h.of_disk rfl (Posix.Sys.kindAt_mapFile_self hx hxk h.below _) rfl
  have hset : ignoring (Posix.Sys.setLen handle len) m₁ = .ok () m₂ := rfl
  obtain ⟨old, hold⟩ : ∃ old, handleLen m₁.disk handle = old := ⟨_, rfl⟩
  have hread : readReq (fun m => handleLen m.disk handle) m₁ = .ok old m₁ := by
    simp only [readReq, hold]
  have hrest : ∀ q : StorageQuota, InDelta { m₂ with quota := q } name p (.file (resize c len)) :=
    fun q => h₂.of_disk rfl h₂.entry rfl
  rw [hrun]
  unfold setHandleLen
  by_cases hgrow : UInt64.ofNat len > old
  · have hask : when (UInt64.ofNat len > old)
        (asReq (fun _ => Errno.ENOSPC) (quotaCheck (UInt64.ofNat len - old))) m₁ =
        asReq (fun _ => Errno.ENOSPC) (quotaCheck (UInt64.ofNat len - old)) m₁ := by
      rw [when_true hgrow]
    cases hcheck : m₁.quota.check (UInt64.ofNat len - old) with
    | false =>
      left
      have hfull : quotaCheck (UInt64.ofNat len - old) m₁ = .error (.io .ENOSPC) m₁ := by
        simp only [quotaCheck, hcheck, Bool.false_eq_true, if_false]
      exact ⟨m₁, (bind_ok hread).trans (bind_error (hask.trans (asReq_error hfull)))⟩
    | true =>
      right
      have hroom : quotaCheck (UInt64.ofNat len - old) m₁ = .ok () m₁ := by
        simp only [quotaCheck, hcheck, if_true]
      refine ⟨_, ?_, hrest (m₁.quota.add (UInt64.ofNat len - old))⟩
      refine (bind_ok hread).trans ((bind_ok (hask.trans (asReq_ok hroom))).trans ?_)
      refine (bind_ok hset).trans ?_
      rw [if_pos hgrow]
      rfl
  · right
    have hidle : when (UInt64.ofNat len > old)
        (asReq (fun _ => Errno.ENOSPC) (quotaCheck (UInt64.ofNat len - old))) m₁ = .ok () m₁ := by
      rw [when_false hgrow]
      rfl
    by_cases hshrink : old > UInt64.ofNat len
    · refine ⟨_, ?_, hrest (m₁.quota.sub (old - UInt64.ofNat len))⟩
      refine (bind_ok hread).trans ((bind_ok hidle).trans ((bind_ok hset).trans ?_))
      rw [if_neg hgrow, if_pos hshrink]
      rfl
    · refine ⟨m₂, ?_, h₂⟩
      refine (bind_ok hread).trans ((bind_ok hidle).trans ((bind_ok hset).trans ?_))
      rw [if_neg hgrow, if_neg hshrink]
      rfl

/-- What cannot be opened for writing is left as it is. -/
theorem truncatePath_passes {len : Nat} {delta : Place} {e : Errno}
    (hcow : Faulty.ensureCowForBranch f name p m = .ok delta m₁)
    (hopen : Posix.Sys.openWrite delta false false m₁.disk = .error e m₁.disk) :
    Faulty.truncatePath f name p len m = .ok () m₁ := by
  have hattempt : attempt (Faulty.ensureCowForBranch f name p) m = .ok (.ok delta) m₁ := by
    simp only [attempt, hcow]
  have hio : ioOrEio (Posix.Sys.openWrite delta false false) m₁ = .error Errno.EIO m₁ :=
    ioOrEio_error hopen
  have hfailed : attempt (ioOrEio (Posix.Sys.openWrite delta false false)) m₁ =
      .ok (.error Errno.EIO) m₁ := by
    simp only [attempt, hio]
  exact (bind_ok hattempt).trans ((bind_ok hfailed).trans rfl)

/-- The entry once its size is set. -/
def sizedTo (size : Option Nat) (k : Entry) : Entry :=
  match size, k with
  | some len, .file c => .file (resize c len)
  | _, k => k

/-- **What `setattr` does to a path that gets into the delta**: what it was asked for, unless a file
would grow past the quota. -/
theorem InDelta.changeAttr (h : InDelta m₁ name p k)
    (hcow : Faulty.ensureCowForBranch f name p m = .ok (deltaPath name p) m₁) {size : Option Nat}
    {a : SetAttr} (hask : asksFor size a = true) :
    ((∃ c, k = .file c) ∧ ∃ m', Faulty.changeAttr f name p size a m = .error .ENOSPC m') ∨
      ∃ m', Faulty.changeAttr f name p size a m = .ok () m' ∧ InDelta m' name p (sizedTo size k) ∧
        ∀ mode, a.mode = some mode → (m'.perms name p).map Perms.mode = some mode := by
  have hmodeless : a.any = false → ∀ mode, a.mode ≠ some mode := by
    intro hany mode hmode
    simp [SetAttr.any, hmode] at hany
  -- the attributes, once the size is set
  have hrest : ∀ {m₂ : Manager} {k₂ : Entry}, InDelta m₂ name p k₂ →
      ∃ m', when (a.any = true) (Faulty.setAttrPath f name p a) m₂ = .ok () m' ∧ InDelta m' name p k₂ ∧
        ∀ mode, a.mode = some mode → (m'.perms name p).map Perms.mode = some mode := by
    intro m₂ k₂ h₂
    by_cases hany : a.any = true
    · obtain ⟨m₃, hcow₂, h₃⟩ := h₂.again f
      rw [when_true hany]
      exact h₃.changed hcow₂ a
    · rw [when_false hany]
      refine ⟨m₂, rfl, h₂, fun mode hmode => absurd hmode (hmodeless ?_ mode)⟩
      simpa using hany
  unfold Faulty.changeAttr
  cases size with
  | none =>
    right
    have hany : a.any = true := by simpa [asksFor] using hask
    obtain ⟨m', hrun, h', hmode⟩ := h.changed hcow a
    refine ⟨m', ?_, h', hmode⟩
    show when (a.any = true) (Faulty.setAttrPath f name p a) m = .ok () m'
    rw [when_true hany]
    exact hrun
  | some len =>
    cases k with
    | symlink t => cases h.plain
    | file c =>
      rcases h.resized hcow len with ⟨m', hfull⟩ | ⟨m₂, hsize, h₂⟩
      · exact Or.inl ⟨⟨c, rfl⟩, m', bind_error hfull⟩
      · obtain ⟨m', hrun, h', hmode⟩ := hrest h₂
        exact Or.inr ⟨m', (bind_ok hsize).trans hrun, h', hmode⟩
    | dir =>
      have hentry : deltaKind m₁.disk name p ≠ none := by simp [h.entry]
      obtain ⟨e, hopen⟩ := Posix.Sys.openWrite_refused (l := deltaPath name p) rfl
        (Disk.dir_parent hentry) (Or.inr h.entry)
      obtain ⟨m', hrun, h', hmode⟩ := hrest h
      exact Or.inr ⟨m', (bind_ok (truncatePath_passes hcow hopen)).trans hrun, h', hmode⟩

theorem setAttrPath_total (f : Faults) (name : String) (p : RelPath) (a : SetAttr) (m : Manager) :
    ∃ m', Faulty.setAttrPath f name p a m = .ok () m' := by
  have hwhen : ∀ (c : Bool) {α : Type} (io : Io α) (m : Manager),
      ∃ m', when (c = true) (ignoring io) m = .ok () m' := by
    intro c α io m
    by_cases hc : c = true
    · rw [when_true hc]
      exact ⟨_, ignoring_eq io m⟩
    · rw [when_false hc]
      exact ⟨m, rfl⟩
  unfold Faulty.setAttrPath
  cases hcow : Faulty.ensureCowForBranch f name p m with
  | error e m₁ =>
    have hattempt : attempt (Faulty.ensureCowForBranch f name p) m = .ok (.error e) m₁ := by
      simp only [attempt, hcow]
    exact ⟨m₁, bind_ok hattempt⟩
  | ok delta m₁ =>
    have hattempt : attempt (Faulty.ensureCowForBranch f name p) m = .ok (.ok delta) m₁ := by
      simp only [attempt, hcow]
    obtain ⟨m₂, h₂⟩ : ∃ m₂, applyMode delta a.mode m₁ = .ok () m₂ := by
      cases a.mode with
      | none => exact ⟨m₁, rfl⟩
      | some mode => exact ⟨_, ignoring_eq _ m₁⟩
    obtain ⟨m₃, h₃⟩ := hwhen (a.uid.isSome || a.gid.isSome) (Posix.Sys.chown delta a.uid a.gid) m₂
    obtain ⟨m₄, h₄⟩ := hwhen (a.atime.isSome || a.mtime.isSome) (utimensat delta a.mtime) m₃
    exact ⟨m₄, (bind_ok hattempt).trans ((bind_ok h₂).trans ((bind_ok h₃).trans h₄))⟩

/-- **What `setattr` does to a path that does not get into the delta**: it returns Ok. -/
theorem changeAttr_of_noCopy (h : NameIn m name b dir) (hv : m.view name (dir ++ [n]) = some k)
    (hk : k.isSymlink = false) (hno : ¬ GetsCopy f m b (dir ++ [n])) (size : Option Nat) (a : SetAttr) :
    ∃ m', Faulty.changeAttr f name (dir ++ [n]) size a m = .ok () m' := by
  have hrest : ∀ m₂ : Manager, ∃ m',
      when (a.any = true) (Faulty.setAttrPath f name (dir ++ [n]) a) m₂ = .ok () m' := by
    intro m₂
    by_cases hany : a.any = true
    · rw [when_true hany]
      exact setAttrPath_total f name (dir ++ [n]) a m₂
    · rw [when_false hany]
      exact ⟨m₂, rfl⟩
  have hsize : ∀ len, ∃ m₂, Faulty.truncatePath f name (dir ++ [n]) len m = .ok () m₂ := by
    intro len
    cases hcow : Faulty.ensureDeltaPathForWrite f name (dir ++ [n]) m with
    | error e m₁ =>
      have hattempt : attempt (Faulty.ensureCowForBranch f name (dir ++ [n])) m =
          .ok (.error Errno.EIO) m₁ := by
        have herr : Faulty.ensureCowForBranch f name (dir ++ [n]) m = .error Errno.EIO m₁ :=
          asReq_error hcow
        simp only [attempt, herr]
      exact ⟨m₁, (bind_ok hattempt).trans rfl⟩
    | ok l m₁ =>
      have hnone := none_of_noCopy h hv hk hno hcow
      have hplaced := faultyDelta_placed h hcow
      -- the directory of the path has been made
      have hne : dir ≠ dir ++ [n] := by simp
      have hparent : m₁.disk.kindAt (deltaPath name dir) = some .dir := by
        rw [Disk.kindAt_eq_attr, hplaced.attr, if_neg hne]
        rcases h.way (List.prefix_refl dir) with hway | hway
        · rw [if_pos ⟨List.prefix_append dir [n], hway⟩]
          rfl
        · rw [if_neg (by simp [hway]), ← Disk.kindAt_eq_attr]
          exact hway
      have hup : (deltaPath name (dir ++ [n])).parent = deltaPath name dir := by
        simp [deltaPath, Loc.parent]
      obtain ⟨e, hopen⟩ := Posix.Sys.openWrite_refused (l := deltaPath name (dir ++ [n])) rfl
        (by rw [hup]; exact hparent) (Or.inl hnone)
      rw [Faulty.ensureDelta_place hcow] at hcow
      exact ⟨m₁, truncatePath_passes (asReq_ok hcow) hopen⟩
  unfold Faulty.changeAttr
  cases size with
  | none =>
    obtain ⟨m', hrun⟩ := hrest m
    exact ⟨m', hrun⟩
  | some len =>
    obtain ⟨m₂, hrun₂⟩ := hsize len
    obtain ⟨m', hrun⟩ := hrest m₂
    exact ⟨m', (bind_ok hrun₂).trans hrun⟩

end Body

/-! ## The request around its body -/

section Request

variable {f : Faults} {s s' : Mount} {ino : Nat} {name : String} {b : Branch} {dir p : RelPath} {n : String}
  {size : Option Nat} {a : SetAttr} {m' : Manager}

theorem mountOf_applySetattr (delta : Place) (a : SetAttr) :
    Keeps SameBranchOf (applySetattr delta a) := by
  have hmode : Keeps SameBranchOf (applyMode delta a.mode) := by
    cases a.mode with
    | none => exact mountOf_pure _
    | some mode => exact mountOf_ignoring _
  refine mountOf_bind hmode fun _ => ?_
  exact mountOf_bind (mountOf_when (mountOf_ignoring _)) fun _ => mountOf_when (mountOf_ignoring _)

theorem mountOf_setHandleLen (h : FileHandle) (len : Nat) : Keeps SameBranchOf (setHandleLen h len) := by
  refine mountOf_bind (fun _ => rfl) fun old => ?_
  refine mountOf_bind (mountOf_when (mountOf_asReq _ (mountOf_quotaCheck _))) fun _ => ?_
  refine mountOf_bind (mountOf_ignoring _) fun _ => ?_
  split
  · exact mountOf_asReq _ fun _ => rfl
  · split
    · exact mountOf_asReq _ fun _ => rfl
    · exact mountOf_pure _

theorem mountOf_changeAttr (f : Faults) (name : String) (p : RelPath) (size : Option Nat) (a : SetAttr) :
    Keeps SameBranchOf (Faulty.changeAttr f name p size a) := by
  have hcow : Keeps SameBranchOf (attempt (Faulty.ensureCowForBranch f name p)) :=
    keeps_attempt (mountOf_asReq _ (mountOf_ensureDelta f name p))
  have hattr : Keeps SameBranchOf (Faulty.setAttrPath f name p a) := by
    refine mountOf_bind hcow fun r => ?_
    cases r with
    | error e => exact mountOf_pure _
    | ok delta => exact mountOf_applySetattr delta a
  have hsize : ∀ len, Keeps SameBranchOf (Faulty.truncatePath f name p len) := by
    intro len
    refine mountOf_bind hcow fun r => ?_
    cases r with
    | error e =>
      cases e with
      | ENOSPC => exact mountOf_still fun _ => rfl
      | _ => exact mountOf_pure _
    | ok delta =>
      refine mountOf_bind (keeps_attempt (mountOf_ioOrEio _)) fun r => ?_
      cases r with
      | error e => exact mountOf_pure _
      | ok h => exact mountOf_setHandleLen h len
  unfold Faulty.changeAttr
  cases size with
  | none => exact mountOf_bind (mountOf_pure _) fun _ => mountOf_when hattr
  | some len => exact mountOf_bind (hsize len) fun _ => mountOf_when hattr

theorem readMount (s : Mount) : (get : MountReq Mount) s = .ok s s := rfl

/-- The two arms of the handler. -/
theorem Numbers.arm (h : Numbers s ino name b dir n) (size : Option Nat) (a : SetAttr) :
    Faulty.setattr f ino size a s = Faulty.setattrInBranch f name (dir ++ [n]) ino size a s ∨
      (s.branchName = name ∧ Faulty.setattr f ino size a s = Faulty.setattrInRoot f (dir ++ [n]) ino size a s) := by
  have hdenotes := h.denotes
  unfold Mount.denotes at hdenotes
  obtain ⟨path, hpath, hclass⟩ := Option.bind_eq_some_iff.mp hdenotes
  have hrun : Faulty.setattr f ino size a s = Faulty.setattrAt f path ino size a s := by
    have hpathOf : inodePath ino s = .ok path s := by
      rw [inodePath, hpath]
    unfold Faulty.setattr
    refine (bind_ok (readMount s)).trans ?_
    rw [h.noCtl]
    exact bind_ok hpathOf
  rw [hrun]
  unfold Faulty.setattrAt
  cases hc : classifyPath path with
  | branchDir c =>
    rw [hc] at hclass
    simp at hclass
  | branchCtl c =>
    rw [hc] at hclass
    simp at hclass
  | branchPath c rel =>
    rw [hc] at hclass
    simp only [Option.some.injEq, Prod.mk.injEq] at hclass
    obtain ⟨rfl, rfl⟩ := hclass
    exact Or.inl rfl
  | rootPath rel =>
    rw [hc] at hclass
    simp only [Option.some.injEq, Prod.mk.injEq] at hclass
    obtain ⟨hname, rfl⟩ := hclass
    exact Or.inr ⟨hname, rfl⟩

/-- A branch that may not be written is refused before anything is done. -/
theorem Numbers.denied (h : Numbers s ino name b dir n) (hask : asksFor size a = true)
    (hw : s.manager.isBranchWritable name = false) : Faulty.setattr f ino size a s = .error .EROFS s := by
  have hdeny : when (asksFor size a = true) (onReq (denyUnlessWritable name)) s =
      .error .EROFS s := by
    rw [when_true hask, onReq, denyUnlessWritable, if_neg (by simp [hw])]
  rcases h.arm size a with harm | ⟨hname, harm⟩
  · rw [harm]
    exact bind_error hdeny
  · rw [harm]
    subst hname
    exact (bind_ok (readMount s)).trans (bind_error hdeny)

/-- The checks before the body go through. -/
theorem admitted (hw : asksFor size a = true → s.manager.isBranchWritable name = true) :
    when (asksFor size a = true) (onReq (denyUnlessWritable name)) s = .ok () s := by
  by_cases hask : asksFor size a = true
  · rw [when_true hask, onReq, denyUnlessWritable, if_pos (hw hask)]
  · rw [when_false hask]
    rfl

theorem Numbers.valid (h : Numbers s ino name b dir n) : needBranch name s = .ok () s := by
  rw [needBranch, if_pos]
  unfold Manager.isBranchValid
  rw [h.inside.branch]
  rfl

/-- An error of the body is the answer. -/
theorem Numbers.failed (h : Numbers s ino name b dir n)
    (hw : asksFor size a = true → s.manager.isBranchWritable name = true) {e : Errno}
    (hbody : Faulty.changeAttr f name (dir ++ [n]) size a s.manager = .error e m') :
    Faulty.setattr f ino size a s = .error e { s with manager := m' } := by
  have hrun : onReq (Faulty.changeAttr f name (dir ++ [n]) size a) s = .error e { s with manager := m' } := by
    rw [onReq, hbody]
  have hadmit := admitted hw
  rcases h.arm size a with harm | ⟨hname, harm⟩
  · rw [harm]
    exact (bind_ok hadmit).trans ((bind_ok h.valid).trans (bind_error hrun))
  · rw [harm]
    subst hname
    refine (bind_ok (readMount s)).trans ?_
    exact (bind_ok hadmit).trans (bind_error hrun)

/-- After the body the attributes are read again, unless the branch of the mount has gone. -/
theorem Numbers.answered (h : Numbers s ino name b dir n)
    (hw : asksFor size a = true → s.manager.isBranchWritable name = true)
    (hbody : Faulty.changeAttr f name (dir ++ [n]) size a s.manager = .ok () m') :
    ∃ s', s'.manager = m' ∧
      (Faulty.setattr f ino size a s = replyAttr name (dir ++ [n]) ino s' ∨
        (m'.isBranchValid name = false ∧ Faulty.setattr f ino size a s = .error .ESTALE s')) := by
  have hrun : onReq (Faulty.changeAttr f name (dir ++ [n]) size a) s = .ok () { s with manager := m' } := by
    rw [onReq, hbody]
  have hadmit := admitted hw
  rcases h.arm size a with harm | ⟨hname, harm⟩
  · refine ⟨{ s with manager := m' }, rfl, Or.inl ?_⟩
    rw [harm]
    exact (bind_ok hadmit).trans ((bind_ok h.valid).trans (bind_ok hrun))
  · subst hname
    -- the body leaves the mount at its branch
    have hmount : m'.mountBranches = s.manager.mountBranches :=
      (mountOf_changeAttr f s.branchName (dir ++ [n]) size a).ok hbody
    let s₁ : Mount := { s with manager := m', currentEpoch := m'.epoch }
    have hsame : s₁.branchName = s.branchName := by
      show (m'.mountBranches.lookup s.mountpoint).getD "main" = _
      rw [hmount]
      rfl
    have hpre : Faulty.setattr f ino size a s =
        (do
          failWhenStale
          let s ← get
          replyAttr s.branchName (dir ++ [n]) ino : MountReq AttrReply) { s with manager := m' } := by
      rw [harm]
      refine (bind_ok (readMount s)).trans ?_
      exact (bind_ok hadmit).trans (bind_ok hrun)
    refine ⟨s₁, rfl, ?_⟩
    have hbr : Mount.branchName { s with manager := m' } = s.branchName := hsame
    have hcheck : failWhenStale { s with manager := m' } =
        failIf (!m'.isBranchValid s.branchName) Errno.ESTALE s₁ := by
      rw [← hbr]
      rfl
    rw [hpre]
    cases hv : m'.isBranchValid s.branchName with
    | false =>
      rw [hv] at hcheck
      exact Or.inr ⟨rfl, bind_error hcheck⟩
    | true =>
      rw [hv] at hcheck
      left
      rw [bind_ok hcheck]
      show replyAttr s₁.branchName (dir ++ [n]) ino s₁ = _
      rw [hsame]

/-- What is shown is answered with. -/
theorem replyAttr_shown (hv : s.manager.view name p ≠ none) (ino : Nat) :
    ∃ node, replyAttr name p ino s = .ok (.entry ino node) s := by
  have hkind : s.manager.kindOf name p ≠ none := by
    unfold Manager.view at hv
    split at hv
    · exact hv
    · exact absurd rfl hv
  obtain ⟨l, hl⟩ : ∃ l, s.manager.resolved name p = some l :=
    Option.ne_none_iff_exists'.mp fun hnone => hkind (Manager.kindOf_eq_none.mpr hnone)
  have hthere := Manager.resolved_lkind hl
  unfold Disk.lkind at hthere
  cases hfound : s.manager.disk.lstat l with
  | error e => simp [hfound, Except.toOption] at hthere
  | ok node =>
    refine ⟨node, ?_⟩
    unfold replyAttr
    rw [resolveForBranch_eq, hl]
    simp only [hfound]

theorem replyAttr_state {reply : AttrReply} (h : replyAttr name p ino s = .ok reply s') : s' = s := by
  unfold replyAttr at h
  split at h
  · cases h
  · split at h
    · cases h
      rfl
    · cases h

theorem replyAttr_error {e : Errno} (h : replyAttr name p ino s = .error e s') : s' = s := by
  unfold replyAttr at h
  split at h
  · cases h
    rfl
  · split at h
    · cases h
    · cases h
      rfl

end Request

/-! ## When the answer is true -/

section Truthful

variable {f : Faults} {s : Mount} {ino : Nat} {name : String} {b : Branch} {dir : RelPath} {n : String}
  {size : Option Nat} {a : SetAttr}

/-- A request that asks for nothing owes nothing. -/
theorem truthful_of_idle {p : RelPath} (hask : asksFor size a = false) :
    SetattrTruthful f s ino name p size a := by
  obtain ⟨hsize, hany⟩ : size = none ∧ a.any = false := by
    simpa [asksFor] using hask
  constructor
  · intro reply s' _ len hlen
    rw [hsize] at hlen
    cases hlen
  · intro reply s' _ mode hmode
    simp [SetAttr.any, hmode] at hany
  · intro h
    rw [hask] at h
    cases h
  · intro h
    rw [hask] at h
    cases h

/-- A request that is refused has changed nothing. -/
theorem Numbers.truthful_of_denied (h : Numbers s ino name b dir n) (hask : asksFor size a = true)
    (hw : s.manager.isBranchWritable name = false) :
    SetattrTruthful f s ino name (dir ++ [n]) size a := by
  have hrun : Faulty.setattr f ino size a s = .error .EROFS s := h.denied hask hw
  have hfrozen : b.isWritable = false := by
    unfold Manager.isBranchWritable at hw
    rw [h.inside.branch] at hw
    exact hw
  constructor
  · intro reply s' hok
    rw [hrun] at hok
    cases hok
  · intro reply s' hok
    rw [hrun] at hok
    cases hok
  · exact fun _ _ => ⟨_, s, hrun, rfl⟩
  · rintro - ⟨m', hfull⟩
    unfold Faulty.ensureDeltaPathForWrite at hfull
    rw [bind_error (writableBranch_frozen h.inside.branch hfrozen)] at hfull
    cases hfull

/-- A path that gets into the delta is changed as asked for. -/
theorem Numbers.truthful_of_copy (h : Numbers s ino name b dir n) (hask : asksFor size a = true)
    (hw : s.manager.isBranchWritable name = true) (hcopy : GetsCopy f s.manager b (dir ++ [n]))
    (hfile : size.isSome = true → ∃ c, s.manager.view name (dir ++ [n]) = some (.file c)) :
    SetattrTruthful f s ino name (dir ++ [n]) size a := by
  obtain ⟨k, hv, hk⟩ := h.visible
  have hopen : b.isWritable = true := by
    unfold Manager.isBranchWritable at hw
    rw [h.inside.branch] at hw
    exact hw
  obtain ⟨m₁, hcow, hdelta⟩ := inDelta_of_copy h.inside hopen hv hk hcopy
  have hnofail : ¬ CowFails f s.manager name (dir ++ [n]) := by
    rintro (⟨e, m', herr⟩ | ⟨hdir, hfree⟩)
    · rw [hcow] at herr
      cases herr
    · obtain ⟨x, hx, hxk⟩ := upAttr_of_visible h.inside hv hk hcopy
      obtain ⟨node, hnode, hkind⟩ := node_of_visible h.inside hfree hdir
      rw [Manager.upAttr, Forest.name_of_get? h.inside.branch, Disk.attrAt_eq_none.mpr hfree,
        Option.none_or, hnode, Option.bind_some, copyAttr, hkind] at hx
      cases hx
  have hrefused : asksFor size a = true → CowFails f s.manager name (dir ++ [n]) →
      ∃ e s', Faulty.setattr f ino size a s = .error e s' ∧ s'.manager = s.manager :=
    fun _ hfail => absurd hfail hnofail
  have hfull : asksFor size a = true →
      (∃ m', Faulty.ensureDeltaPathForWrite f name (dir ++ [n]) s.manager = .error (.io .ENOSPC) m') →
      ∃ s', Faulty.setattr f ino size a s = .error .ENOSPC s' := by
    rintro - ⟨m', herr⟩
    rw [hcow] at herr
    cases herr
  rcases hdelta.changeAttr (asReq_ok hcow) hask with ⟨-, m', hbody⟩ | ⟨m', hbody, hin, hmode⟩
  · have hrun := h.failed (fun _ => hw) hbody
    refine ⟨fun reply s' hok => ?_, fun reply s' hok => ?_, hrefused, hfull⟩
    · rw [hrun] at hok
      cases hok
    · rw [hrun] at hok
      cases hok
  · obtain ⟨t, hmanager, hanswer⟩ := h.answered (fun _ => hw) hbody
    have hreply : Faulty.setattr f ino size a s = replyAttr name (dir ++ [n]) ino t := by
      refine hanswer.resolve_right fun hgone => ?_
      rw [hin.valid] at hgone
      cases hgone.1
    refine ⟨fun reply s' hok len hlen => ?_, fun reply s' hok mode hask => ?_, hrefused, hfull⟩
    · rw [hreply] at hok
      rw [replyAttr_state hok, hmanager]
      obtain ⟨c, hc⟩ := hfile (by rw [hlen]; rfl)
      obtain rfl : k = .file c := Option.some.inj (hv.symm.trans hc)
      refine ⟨resize c len, ?_, length_resize c len⟩
      rw [hin.view, hlen]
      rfl
    · rw [hreply] at hok
      rw [replyAttr_state hok, hmanager]
      exact hmode mode hask

/-- **`setattr` tells the truth** exactly when nothing was asked for, the branch may not be written, or
the path gets into the delta and is a file if a size was asked for. -/
theorem setattr_truthful_iff (h : Numbers s ino name b dir n) :
    SetattrTruthful f s ino name (dir ++ [n]) size a ↔
      asksFor size a = false ∨ s.manager.isBranchWritable name = false ∨
        (GetsCopy f s.manager b (dir ++ [n]) ∧
          (size.isSome = true → ∃ c, s.manager.view name (dir ++ [n]) = some (.file c))) := by
  obtain ⟨k, hv, hk⟩ := h.visible
  constructor
  · intro htrue
    by_contra hcon
    obtain ⟨hask, hcon⟩ := not_or.mp hcon
    obtain ⟨hw, hcon⟩ := not_or.mp hcon
    rw [Bool.not_eq_false] at hask hw
    have hopen : b.isWritable = true := by
      unfold Manager.isBranchWritable at hw
      rw [h.inside.branch] at hw
      exact hw
    have hcopy : GetsCopy f s.manager b (dir ++ [n]) := by
      by_contra hno
      -- the body returns Ok, so an error that left everything alone could only have found nothing
      obtain ⟨m', hbody⟩ := changeAttr_of_noCopy h.inside hv hk hno size a
      obtain ⟨t, hmanager, hanswer⟩ := h.answered (fun _ => hw) hbody
      have hfails := cowFails_of_noCopy h.inside hv hk hno
      obtain ⟨e, s', herr, hsame⟩ := htrue.refused hask hfails
      rcases hanswer with hreply | ⟨hgone, hstale⟩
      · rw [hreply] at herr
        obtain rfl := replyAttr_error herr
        have hshown : s'.manager.view name (dir ++ [n]) ≠ none := by
          rw [hsame, hv]
          simp
        obtain ⟨node, hok⟩ := replyAttr_shown hshown ino
        rw [hok] at herr
        cases herr
      · rw [hstale] at herr
        cases herr
        rw [← hmanager, hsame] at hgone
        unfold Manager.isBranchValid at hgone
        rw [h.inside.branch] at hgone
        cases hgone
    refine hcon ⟨hcopy, fun hsize => ?_⟩
    obtain ⟨len, hlen⟩ := Option.isSome_iff_exists.mp hsize
    cases k with
    | symlink t => cases hk
    | file c => exact ⟨c, hv⟩
    | dir =>
      obtain ⟨m₁, hcow, hdelta⟩ := inDelta_of_copy h.inside hopen hv hk hcopy
      rcases hdelta.changeAttr (asReq_ok hcow) hask with ⟨⟨c, hc⟩, -⟩ | ⟨m', hbody, hin, -⟩
      · cases hc
      · obtain ⟨t, hmanager, hanswer⟩ := h.answered (fun _ => hw) hbody
        have hreply : Faulty.setattr f ino size a s = replyAttr name (dir ++ [n]) ino t := by
          refine hanswer.resolve_right fun hgone => ?_
          rw [hin.valid] at hgone
          cases hgone.1
        have hview : t.manager.view name (dir ++ [n]) = some .dir := by
          rw [hmanager, hin.view, hlen]
          rfl
        have hshown : t.manager.view name (dir ++ [n]) ≠ none := by
          rw [hview]
          simp
        obtain ⟨node, hok⟩ := replyAttr_shown hshown ino
        obtain ⟨c, hc, -⟩ := htrue.sized _ _ (hreply.trans hok) len hlen
        rw [hview] at hc
        cases hc
  · rintro (hask | hw | ⟨hcopy, hfile⟩)
    · exact truthful_of_idle hask
    · cases hask : asksFor size a with
      | false => exact truthful_of_idle hask
      | true => exact h.truthful_of_denied hask hw
    · cases hask : asksFor size a with
      | false => exact truthful_of_idle hask
      | true =>
        cases hw : s.manager.isBranchWritable name with
        | false => exact h.truthful_of_denied hask hw
        | true => exact h.truthful_of_copy hask hw hcopy hfile

end Truthful

/-! ## A branch with little room -/

/-- A mount of a store with room for two bytes. A branch inherits a file of three bytes and one of one
byte; both have been looked up. -/
def littleRoom : Mount :=
  run Mount.step (Mount.new (Manager.init .narrow) "/mnt" true)
    [.manager (.host (.write ["f"] [0, 0, 0])), .manager (.host (.write ["g"] [0])),
      .manager (.create "b" "main" .lazy []), .lookup rootIno "@b", .lookup 2 "f", .lookup 2 "g"]

theorem littleRoom_reachable : littleRoom.Reachable := ⟨_, _, _, _, ⟨_, [], rfl⟩, rfl⟩

/-- `chmod 600`. -/
def chmod600 : SetAttr := ⟨some 0o600, none, none, none, none⟩

theorem littleRoom_run :
    ((resultOf (Faulty.setattr .absent 3 none chmod600) littleRoom).isSome = true ∧
      failureOf (Faulty.ensureDeltaPathForWrite .absent "b" ["f"]) littleRoom.manager =
        some (.io .ENOSPC) ∧
      littleRoom.ctlFileOf 3 = none ∧ littleRoom.denotes 3 = some ("b", ["f"]) ∧
      littleRoom.manager.view "b" ["f"] = some (.file [0, 0, 0])) ∧
    littleRoom.ctlFileOf 4 = none ∧ littleRoom.denotes 4 = some ("b", ["g"]) ∧
      littleRoom.manager.view "b" ["g"] = some (.file [0]) ∧
      littleRoom.manager.forest.get? "b" = some (littleRoom.manager.recordOf "b") ∧
      littleRoom.manager.view "b" [] = some .dir ∧
      (∀ e ∈ littleRoom.manager.disk.entries, ¬ Own "b" e.1.root) ∧
      (∀ e ∈ littleRoom.manager.disk.entries, e.2.kind.isSymlink = false) ∧
      littleRoom.manager.broughtUp (littleRoom.manager.recordOf "b") ["g"] ≠ none := by
  decide +kernel

/-- The mode of the larger file stays what it was, and the answer is a success. -/
theorem not_setattrTellsTheTruth : ¬ SetattrTellsTheTruth := by
  intro h
  obtain ⟨⟨hok, hfail, hctl, hdenotes, hview⟩, -⟩ := littleRoom_run
  have htrue := h littleRoom littleRoom_reachable 3 "b" ["f"] hctl (by simp) hdenotes
    ⟨_, hview, rfl⟩ .absent none chmod600
  obtain ⟨e, s', herr, -⟩ := htrue.refused rfl (Or.inl ⟨_, _, error_of_failureOf hfail⟩)
  unfold resultOf at hok
  rw [herr] at hok
  cases hok

/-- The smaller one gets the mode. -/
theorem littleRoom_truthful : SetattrTruthful .absent littleRoom 4 "b" ["g"] none chmod600 := by
  obtain ⟨-, hctl, hdenotes, hview, hb, hdir, hown, hlinks, hup⟩ := littleRoom_run
  have hnumbers : Numbers littleRoom 4 "b" (littleRoom.manager.recordOf "b") [] "g" :=
    ⟨hctl, hdenotes, nameIn_of_untouched hb hdir hown hlinks, _, hview, rfl⟩
  exact (setattr_truthful_iff hnumbers).mpr (Or.inr (Or.inr ⟨Or.inr ⟨hup, rfl⟩, by simp⟩))

end BranchFs
