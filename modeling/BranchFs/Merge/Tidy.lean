/-
# BranchFs.Merge.Tidy -- a merge leaves no mode changed

The calls of a merge, one after another: each says which directories `set_permissions` is called on, and the
guarded copy says which modes are back afterwards. Both are exact conditions on the host before the call, and
with them on the hosts of a run (`merge_tidy_iff`).
-/
import BranchFs.Merge.Modes
import BranchFs.Posix.Layout

namespace BranchFs.Modes

open BranchFs.Posix BranchFs.Logic

/-! ## The copy -/

/-- Directories stay directories, with their attributes. -/
def DirsKept (d d' : Disk Unit String) : Prop :=
  ∀ l, d.kindAt l = some .dir → d'.attrAt l = d.attrAt l

theorem DirsKept.refl (d : Disk Unit String) : DirsKept d d := fun _ _ => rfl

theorem DirsKept.trans {d d' d'' : Disk Unit String} (h : DirsKept d d') (h' : DirsKept d' d'') :
    DirsKept d d'' := by
  intro l hl
  have hl' : d'.kindAt l = some .dir := by rw [Disk.kindAt_eq_attr, h l hl, ← Disk.kindAt_eq_attr, hl]
  rw [h' l hl', h l hl]

section DirsKept

variable {l : HostPath}

theorem dirsKept_createDirAll (l : HostPath) : Keeps DirsKept (Sys.createDirAll l) := by
  intro d x hx
  rcases Sys.onlyDirsAdded_createDirAll l d x with h | ⟨hnone, _⟩
  · exact h
  · rw [Disk.attrAt_eq_none, hx] at hnone
    cases hnone

theorem dirsKept_addAt (k : Kind String) (mode : Nat) (r : HostPath) :
    Keeps DirsKept (Sys.addAt k mode r) := by
  intro d
  rcases Sys.after_addAt k mode r d with h | h
  · rw [h]
    exact DirsKept.refl d
  · intro x hx
    rw [Disk.attrAt_add h, if_neg]
    rintro rfl
    rw [Disk.free_of_add h] at hx
    cases hx

theorem dirsKept_putFileAt (data : Bytes) (mode : Option Nat) (r : HostPath) :
    Keeps DirsKept (Sys.putFileAt data mode r) := by
  intro d
  rcases Sys.after_putFileAt data mode r d with h | h
  · rw [h]
    exact DirsKept.refl d
  · intro x hx
    rw [Disk.attrAt_putFile h, if_neg]
    rintro rfl
    unfold Disk.putFile at h
    rw [hx] at h
    cases h

theorem dirsKept_removeFileAt (r : HostPath) : Keeps DirsKept (Sys.removeFileAt r) := by
  intro d
  unfold after Sys.removeFileAt
  cases hk : d.kindAt r with
  | none => exact DirsKept.refl d
  | some k =>
    by_cases hdir : k = .dir
    · rw [hdir]
      exact DirsKept.refl d
    · have hne : d.kindAt r ≠ some .dir := by rw [hk]; simpa using hdir
      have hcut : DirsKept d (d.cut r) := by
        intro x hx
        rw [Disk.attrAt_cut d (Disk.path_ne_nil_of_not_dir hne), if_neg]
        intro hle
        by_cases heq : r = x
        · exact hne (heq ▸ hx)
        · rw [Disk.none_below hne hle heq] at hx
          cases hx
      cases k with
      | dir => exact absurd rfl hdir
      | file b => exact hcut
      | symlink t => exact hcut

theorem dirsKept_writeAt (dst : HostPath) (data : Bytes) (mode : Option Nat) :
    Keeps DirsKept (Sys.followed dst (Sys.putFileAt data mode)) :=
  Sys.keeps_followed DirsKept.refl fun r => dirsKept_putFileAt data mode r

theorem dirsKept_wholeCopy (src dst : HostPath) : Keeps DirsKept (Sys.copyFile src dst) := by
  intro d
  unfold after Sys.copyFile
  cases d.stat src with
  | error e => exact DirsKept.refl d
  | ok n =>
    cases hk : n.kind with
    | dir =>
      simp only [hk]
      exact DirsKept.refl d
    | symlink t =>
      simp only [hk]
      exact DirsKept.refl d
    | file data =>
      simp only [hk]
      exact dirsKept_writeAt dst data (some n.mode) d

theorem dirsKept_readFile (src : HostPath) : Keeps DirsKept (Sys.readFile src) := by
  intro d
  unfold after Sys.readFile
  cases d.stat src with
  | error e => exact DirsKept.refl d
  | ok n =>
    cases hk : n.kind <;> simp only [hk] <;> exact DirsKept.refl d

theorem dirsKept_copyFile (f : Refusals) (src dst : HostPath) : Keeps DirsKept (copyFile f src dst) := by
  have htrans : ∀ s t u : Disk Unit String, DirsKept s t → DirsKept t u → DirsKept s u :=
    fun _ _ _ h h' => h.trans h'
  unfold copyFile
  split
  · exact dirsKept_wholeCopy src dst
  · exact keeps_throw DirsKept.refl _
  · refine keeps_bind htrans (dirsKept_readFile src) fun data => ?_
    exact keeps_bind htrans (dirsKept_writeAt dst _ none) fun _ => keeps_throw DirsKept.refl _

/-- **The copy leaves every directory its attributes**, whatever it makes or fails to make. -/
theorem dirsKept_copyEntry (f : Refusals) (src dst : HostPath) :
    Keeps DirsKept (copyEntry f src dst) := by
  have htrans : ∀ s t u : Disk Unit String, DirsKept s t → DirsKept t u → DirsKept s u :=
    fun _ _ _ h h' => h.trans h'
  unfold copyEntry
  refine keeps_bind htrans (keeps_failIf DirsKept.refl _ _) fun _ => ?_
  refine keeps_bind htrans (dirsKept_createDirAll dst.parent) fun _ => ?_
  refine keeps_bind htrans (fun d => keeps_fromExcept DirsKept.refl (d.lstat src) d) fun n => ?_
  unfold copyNode
  split
  · refine keeps_bind htrans (keeps_attempt ?_) fun _ => ?_
    · exact Sys.keeps_resolved DirsKept.refl fun r => dirsKept_removeFileAt r
    · exact Sys.keeps_resolved DirsKept.refl fun r => dirsKept_addAt _ _ r
  · exact dirsKept_copyFile f src dst

end DirsKept

theorem after_atDisk {α : Type} (x : Sys Unit String α) (h : Host) :
    after (atDisk x) h = { h with disk := after x h.disk } := by
  unfold after atDisk
  cases x h.disk <;> rfl

/-- A host with the directories of another and its other modes. -/
theorem mode_of_dirsKept {h : Host} {d : Disk Unit String} (hd : DirsKept h.disk d) {l : HostPath}
    (hl : h.disk.kindAt l = some .dir) :
    d.kindAt l = some .dir ∧ ({ h with disk := d } : Host).mode l = h.mode l := by
  have hattr := hd l hl
  refine ⟨by rw [Disk.kindAt_eq_attr, hattr, ← Disk.kindAt_eq_attr, hl], ?_⟩
  unfold Host.mode Host.node
  split
  · rfl
  · unfold Disk.attrAt at hattr
    have hmodes := congrArg (Option.map Attr.mode) hattr
    rw [Option.map_map, Option.map_map] at hmodes
    exact congrArg (fun m : Option Nat => m.getD 0) hmodes

/-! ## The calls of `set_permissions` -/

/-- Between two hosts `set_permissions` was called on the directories of `P`. -/
def Called (P : HostPath → Prop) (h h' : Host) : Prop :=
  ∃ calls, h'.chmods = h.chmods ++ calls ∧ ∀ l, l ∈ calls ↔ P l

namespace Called

variable {P Q : HostPath → Prop} {h h' h'' : Host}

theorem of_eq (heq : h'.chmods = h.chmods) (hP : ∀ l, ¬ P l) : Called P h h' :=
  ⟨[], by simp [heq], fun l => by simp [hP l]⟩

theorem trans (hc : Called P h h') (hc' : Called Q h' h'') : Called (fun l => P l ∨ Q l) h h'' := by
  obtain ⟨calls, heq, hmem⟩ := hc
  obtain ⟨calls', heq', hmem'⟩ := hc'
  refine ⟨calls ++ calls', by rw [heq', heq, List.append_assoc], fun l => ?_⟩
  rw [List.mem_append, hmem, hmem']

theorem congr (hc : Called P h h') (hPQ : ∀ l, P l ↔ Q l) : Called Q h h' := by
  obtain ⟨calls, heq, hmem⟩ := hc
  exact ⟨calls, heq, fun l => (hmem l).trans (hPQ l)⟩

theorem of_chmods_eq (hc : Called P h h') (heq : h''.chmods = h'.chmods) : Called P h h'' := by
  obtain ⟨calls, hcalls, hmem⟩ := hc
  exact ⟨calls, heq.trans hcalls, hmem⟩

end Called

section Calls

variable {h : Host} {l path : HostPath} (f : Refusals)

/-- A directory that lacks bits in the tree that a path names. -/
def Host.Clears (h : Host) (path l : HostPath) : Prop :=
  ∃ r, h.disk.realpath path = .ok r ∧ h.searchable r = true ∧ r ≤ l ∧ h.Lacks l

theorem chmods_atDisk {α : Type} (x : Sys Unit String α) (h : Host) :
    (after (atDisk x) h).chmods = h.chmods := by
  rw [after_atDisk]

theorem chmods_removeDirAll (l : HostPath) (h : Host) :
    (after (removeDirAll f l) h).chmods = h.chmods := by
  unfold removeDirAll
  by_cases hr : f.removeAll = true
  · rw [after_bind_error (failIf_error hr _ h)]
  · rw [after_bind_ok (failIf_ok hr _ h), chmods_atDisk]

theorem chmods_rename (s t : HostPath) (h : Host) : (after (rename f s t) h).chmods = h.chmods := by
  unfold rename
  by_cases hr : f.rename = true
  · rw [after_bind_error (failIf_error hr _ h)]
  · rw [after_bind_ok (failIf_ok hr _ h), chmods_atDisk]

/-- A tree is cleared where its path names a directory. -/
theorem Host.Clears.dir (hc : h.Clears path l) : ∃ r n, h.disk.realpath path = .ok r ∧
    h.lstat path = .ok n ∧ n.kind = .dir := by
  obtain ⟨r, hreal, hs, hle, hlacks⟩ := hc
  have hk : h.disk.kindAt r = some .dir := by
    by_cases heq : r = l
    · rw [heq]
      exact hlacks.1
    · exact Disk.dir_above (by rw [hlacks.1]; exact Option.some_ne_none _) hle heq
  obtain ⟨n, hstat, hkind, -⟩ := Host.statAt_dir hs hk
  refine ⟨r, n, hreal, ?_, hkind⟩
  unfold Host.lstat
  rw [hreal]
  exact hstat

/-- **`remove_entry`** calls `set_permissions` on what lacks bits in the tree it removes. -/
theorem called_removeEntry (path : HostPath) (h : Host) :
    Called (h.Clears path) h (after (removeEntry f path) h) := by
  cases hl : h.lstat path with
  | error e =>
    have hno : ∀ l, ¬ h.Clears path l := by
      intro l hc
      obtain ⟨r, n, -, hn, -⟩ := hc.dir
      rw [hl] at hn
      cases hn
    have hsame : after (removeEntry f path) h = h := by
      unfold after removeEntry
      rw [hl]
      cases e <;> rfl
    exact Called.of_eq (by rw [hsame]) hno
  | ok n =>
    by_cases hdir : n.kind.isDir = true
    · obtain ⟨r, hreal, hstat⟩ : ∃ r, h.disk.realpath path = .ok r ∧ h.statAt r = .ok n := by
        unfold Host.lstat at hl
        cases hreal : h.disk.realpath path with
        | error e => simp [hreal] at hl
        | ok r => exact ⟨r, rfl, by simpa [hreal] using hl⟩
      have hs : h.searchable r = true := by
        by_contra hs
        unfold Host.statAt at hstat
        rw [if_neg hs] at hstat
        cases hstat
      have hroom : ∀ l, r ≤ l → h.disk.kindAt l ≠ none →
          l.path.length < r.path.length + (h.disk.height + 1) := by
        intro l _ hsome
        have hlen := Disk.length_le_height hsome
        omega
      obtain ⟨h', hrun, hopen⟩ := makeTreeRemovableAt_ok _ hroom hs
      have hcalls : Called (h.Clears path) h h' := by
        refine Called.congr hopen.chmods fun l => ?_
        constructor
        · rintro ⟨hle, hlacks⟩
          exact ⟨r, hreal, hs, hle, hlacks⟩
        · rintro ⟨r', hreal', -, hle, hlacks⟩
          rw [hreal] at hreal'
          exact ⟨(Except.ok.inj hreal') ▸ hle, hlacks⟩
      have hresolved : resolved path (makeTreeRemovableAt (h.disk.height + 1)) h = .ok () h' := by
        unfold resolved
        rw [hreal]
        exact hrun
      have hentry : removeEntry f path h = (do
          resolved path (makeTreeRemovableAt (h.disk.height + 1))
          removeDirAll f path : Call Unit) h := by
        unfold removeEntry removeBranchStoreDirAll
        simp only [hl, hdir, if_true]
      refine hcalls.of_chmods_eq ?_
      have hafter : after (removeEntry f path) h = after (removeDirAll f path) h' := by
        have hbind := after_bind_ok (f := fun _ => removeDirAll f path) hresolved
        rw [← hbind]
        unfold after
        rw [hentry]
      rw [hafter, chmods_removeDirAll]
    · have hno : ∀ l, ¬ h.Clears path l := by
        intro l hc
        obtain ⟨r, n', -, hn', hkind⟩ := hc.dir
        rw [hl] at hn'
        rw [Except.ok.inj hn', hkind] at hdir
        exact hdir rfl
      have hafter : after (removeEntry f path) h = after (atDisk (Sys.removeFile path)) h := by
        unfold after removeEntry
        simp only [hl, hdir]
        rfl
      exact Called.of_eq (by rw [hafter, chmods_atDisk]) hno

/-- **`stage_delete`** calls it on what lacks bits in a stale trash. -/
theorem called_stageDelete (target : HostPath) (h : Host) :
    Called (fun l => (h.lstat target).toOption.isSome = true ∧
      h.Clears (commitSidePath target "trash") l) h (after (stageDelete f target) h) := by
  cases hl : h.lstat target with
  | error e =>
    have hsame : after (stageDelete f target) h = h := by
      unfold after stageDelete
      rw [hl]
    exact Called.of_eq (by rw [hsame]) fun l hc => by cases hc.1
  | ok n =>
    obtain ⟨r, hr⟩ := attempt_after (removeEntry f (commitSidePath target "trash")) h
    have hafter : after (stageDelete f target) h =
        after (rename f target (commitSidePath target "trash"))
          (after (removeEntry f (commitSidePath target "trash")) h) := by
      have hbind := after_bind_ok
        (f := fun _ => rename f target (commitSidePath target "trash")) hr
      rw [← hbind]
      unfold after stageDelete
      rw [hl]
    have hcalls := called_removeEntry f (commitSidePath target "trash") h
    rw [hafter]
    refine (hcalls.congr fun l => ?_).of_chmods_eq (chmods_rename f _ _ _)
    exact (and_iff_right rfl).symm

theorem called_clearWay (dest : HostPath) (h : Host) :
    Called (fun l => h.isDir dest = true ∧ h.Clears (commitSidePath dest "trash") l) h
      (after (clearWay f dest) h) := by
  have hafter : after (clearWay f dest) h =
      after (when (h.isDir dest = true) (stageDelete f dest)) h := rfl
  rw [hafter]
  by_cases hdir : h.isDir dest = true
  · rw [when_true hdir]
    refine (called_stageDelete f dest h).congr fun l => and_congr_left fun _ => ?_
    unfold Host.isDir at hdir
    cases hl : h.lstat dest with
    | error e => simp [hl, Except.toOption] at hdir
    | ok n => simp [Host.isDir, hl, Except.toOption] at hdir ⊢; exact hdir
  · rw [when_false hdir]
    exact Called.of_eq rfl fun l hc => hdir hc.1

end Calls

/-! ## The guarded copy -/

section Guarded

variable {g : Host} {src : HostPath} (f : Refusals) (tmp : HostPath)

/-- Between the guards and their drops: the directories above the source are open, and every other
directory is as it was. -/
structure Open (g h : Host) (src : HostPath) : Prop where
  held : Held g h src
  kind : ∀ l, g.disk.kindAt l = some .dir → h.disk.kindAt l = some .dir
  others : ∀ l, g.disk.kindAt l = some .dir → l ∉ src.above → h.mode l = g.mode l

theorem Open.of_opened {h : Host} (hroot : src.root = some ()) (ho : Opened (· ∈ src.above) g h) :
    Open g h src where
  held := {
    root := hroot
    dir := fun a _ hk => by rw [ho.kind, hk]
    mode := fun a ha _ => by
      split
      · next hlacks => exact ho.given a ha hlacks
      · next hlacks => exact ho.same a fun hc => hlacks hc.2 }
  kind := fun l hl => by rw [ho.kind, hl]
  others := fun l _ hl => ho.same l fun hc => hl hc.1

theorem Open.of_dirsKept {h : Host} {d : Disk Unit String} (ho : Open g h src)
    (hd : DirsKept h.disk d) : Open g { h with disk := d } src where
  held := {
    root := ho.held.root
    dir := fun a ha hk => (mode_of_dirsKept hd (ho.held.dir a ha hk)).1
    mode := fun a ha hk => (mode_of_dirsKept hd (ho.held.dir a ha hk)).2.trans (ho.held.mode a ha hk) }
  kind := fun l hl => (mode_of_dirsKept hd (ho.kind l hl)).1
  others := fun l hl hout => (mode_of_dirsKept hd (ho.kind l hl)).2.trans (ho.others l hl hout)

/-- **The guarded copy**: the guards open the way to the source, something is done elsewhere, and the guards
are dropped, whether the copy was made or not. -/
theorem copyGuarded_spec (hroot : src.root = some ()) (hlink : g.disk.NoLinkAbove src) : ∃ h,
    Open g h src ∧ Called (fun l => l ∈ src.above ∧ g.Lacks l) g h ∧
      after (copyGuarded f src tmp) g = (guardsOf g src.above).foldl dropped h := by
  have hnone : Opened (· ∈ ([] : List HostPath)) g g := Opened.refl fun l hl => by cases hl
  have hall : src.above = [] ++ src.above := rfl
  obtain ⟨h, ho, hrun⟩ := guardDirs_spec hroot hlink hall hnone
  have hstart : guardExistingParentDirs src g = guardDirs src.above (guardsOf g []) g := rfl
  rw [← hstart] at hrun
  rcases hrun with hrun | ⟨e, hrun⟩
  · refine ⟨after (atDisk (copyEntry f src tmp)) h, ?_, ?_, ?_⟩
    · rw [after_atDisk]
      exact (Open.of_opened hroot ho).of_dirsKept (dirsKept_copyEntry f src tmp h.disk)
    · exact Called.of_chmods_eq ho.chmods (chmods_atDisk _ h)
    · rw [← after_dropAll]
      unfold copyGuarded
      cases hcopy : atDisk (copyEntry f src tmp) h with
      | ok a t =>
        unfold after
        simp only [hrun, hcopy]
      | error e t =>
        unfold after
        simp only [hrun, hcopy]
  · refine ⟨h, Open.of_opened hroot ho, ho.chmods, ?_⟩
    rw [← after_dropAll]
    unfold copyGuarded
    conv_lhs => unfold after
    simp only [hrun]

/-- Every directory has the mode it had. -/
def Restored (h h' : Host) : Prop :=
  ∀ l, h.disk.kindAt l = some .dir → h'.disk.kindAt l = some .dir ∧ h'.mode l = h.mode l

/-- **After the guarded copy every directory has its mode again** exactly when none of the directories that
lack bits lies below one that is not searchable. -/
theorem copyGuarded_restored (hroot : src.root = some ()) (hlink : g.disk.NoLinkAbove src) :
    Restored g (after (copyGuarded f src tmp) g) ↔ NoneClosed g src := by
  obtain ⟨h, ho, -, hafter⟩ := copyGuarded_spec f tmp hroot hlink
  have hsub : ∀ a ∈ src.above, a ∈ src.above := fun _ ha => ha
  have hframe := drops_frame (ho.held.guards hsub)
  rw [hafter, ← drops_restore_iff ho.held]
  constructor
  · exact fun hback a _ hk => (hback a hk).2
  · intro hback l hl
    refine ⟨by rw [hframe.1, ho.kind l hl], ?_⟩
    by_cases habove : l ∈ src.above
    · exact hback l habove hl
    · rw [hframe.2 l, ho.others l hl habove]
      rintro d hd rfl
      exact absurd (mem_guardsOf.mp hd).1 habove

/-- The guards call `set_permissions` on the directories above the source that lack bits, when they are
taken and when they are dropped. -/
theorem called_copyGuarded (hroot : src.root = some ()) (hlink : g.disk.NoLinkAbove src) :
    Called (fun l => l ∈ src.above ∧ g.Lacks l) g (after (copyGuarded f src tmp) g) := by
  obtain ⟨h, ho, hcalls, hafter⟩ := copyGuarded_spec f tmp hroot hlink
  have hdrops : Called (fun l => l ∈ src.above ∧ g.Lacks l) h
      ((guardsOf g src.above).foldl dropped h) := by
    refine ⟨_, drops_chmods (ho.held.guards fun _ ha => ha), fun l => ?_⟩
    rw [List.mem_map]
    constructor
    · rintro ⟨d, hd, rfl⟩
      rw [List.mem_filter] at hd
      obtain ⟨hmem, -, hmode⟩ := mem_guardsOf.mp hd.1
      refine ⟨hmem, ?_⟩
      by_contra hlacks
      rw [hmode, if_neg hlacks] at hd
      cases hd.2
    · rintro ⟨hmem, hlacks⟩
      refine ⟨⟨l, some (g.mode l)⟩, List.mem_filter.mpr ⟨mem_guardsOf.mpr ⟨hmem, hlacks.1, ?_⟩, rfl⟩, rfl⟩
      exact (if_pos hlacks).symm
  rw [hafter]
  exact (hcalls.trans hdrops).congr fun l => or_self_iff

end Guarded

/-! ## The calls of a merge -/

namespace MergeStep

variable {h : Host} {s : MergeStep} {F : HostPath}

/-- The directories without all of their owner's bits that a call comes to: in a stale trash or what else it
removes, and above the source of a copy. -/
def Meets (h : Host) (s : MergeStep) (l : HostPath) : Prop :=
  match s.call with
  | .stageDelete target => (h.lstat (hostPath target)).toOption.isSome = true ∧
      h.Clears (commitSidePath (hostPath target) "trash") l
  | .stageCopy src dest =>
      (h.isDir (hostPath dest) = true ∧ h.Clears (commitSidePath (hostPath dest) "trash") l) ∨
      ∃ g, clearWay s.refusals (hostPath dest) h = .ok () g ∧ l ∈ (hostPath src).above ∧ g.Lacks l
  | .removeEntry path => h.Clears (hostPath path) l
  | .rename _ _ => False

/-- Where a copy takes its guards, no directory that lacks bits lies below one that cannot be searched. -/
def Closes (h : Host) (s : MergeStep) : Prop :=
  match s.call with
  | .stageCopy src dest => ∀ g, clearWay s.refusals (hostPath dest) h = .ok () g →
      NoneClosed g (hostPath src)
  | _ => True

/-- Where a copy takes its guards, nothing on the way to its source is a link. -/
def SourceWay (h : Host) (s : MergeStep) : Prop :=
  match s.call with
  | .stageCopy src dest => ∀ g, clearWay s.refusals (hostPath dest) h = .ok () g →
      g.disk.NoLinkAbove (hostPath src)
  | _ => True

/-- What the modes of the host have to be for a call to be tidy in the branch with these files. -/
structure Safe (F : HostPath) (h : Host) (s : MergeStep) : Prop where
  inside : ∀ l, s.Meets h l → F ≤ l
  closes : s.Closes h

theorem called (hway : s.SourceWay h) : Called (s.Meets h) h (mergeStep h s) := by
  obtain ⟨call, f⟩ := s
  cases call with
  | stageDelete target => exact called_stageDelete f (hostPath target) h
  | stageCopy src dest =>
    have hclear := called_clearWay f (hostPath dest) h
    cases hrun : clearWay f (hostPath dest) h with
    | error e g =>
      have hafter : mergeStep h ⟨.stageCopy src dest, f⟩ = after (clearWay f (hostPath dest)) h := by
        show after (clearWay f (hostPath dest) >>= _) h = _
        rw [after_bind_error hrun]
        unfold after
        rw [hrun]
      rw [hafter]
      refine hclear.congr fun l => (or_iff_left ?_).symm
      rintro ⟨g', hg', -⟩
      rw [hrun] at hg'
      cases hg'
    | ok a g =>
      have hafter : mergeStep h ⟨.stageCopy src dest, f⟩ =
          after (copyGuarded f (hostPath src) (commitSidePath (hostPath dest) "tmp")) g := by
        show after (clearWay f (hostPath dest) >>= _) h = _
        rw [after_bind_ok hrun]
      have hcleared : after (clearWay f (hostPath dest)) h = g := by
        unfold after
        rw [hrun]
      rw [hcleared] at hclear
      have hcopy := called_copyGuarded f (commitSidePath (hostPath dest) "tmp") rfl (hway g hrun)
      rw [hafter]
      refine (hclear.trans hcopy).congr fun l => or_congr_right ?_
      constructor
      · exact fun hl => ⟨g, hrun, hl⟩
      · rintro ⟨g', hg', hl⟩
        change clearWay f (hostPath dest) h = .ok () g' at hg'
        rw [hrun] at hg'
        cases hg'
        exact hl
  | removeEntry path => exact called_removeEntry f (hostPath path) h
  | rename s t => exact Called.of_eq (chmods_rename f _ _ h) fun l => id

end MergeStep

/-! ## Runs -/

/-- What temporary mode changes are to come to in a merge of the branch with these files: `set_permissions` is
called on directories among them only, and when the guards of a copy are dropped every directory has the mode
it had. -/
structure Tidy (F : List String) (h : Host) (steps : List MergeStep) : Prop where
  confined : ∀ l ∈ (run mergeStep h steps).chmods, hostPath F ≤ l
  undone : ∀ before src dest f rest, steps = before ++ ⟨.stageCopy src dest, f⟩ :: rest → ∀ g,
    clearWay f (hostPath dest) (run mergeStep h before) = .ok () g →
    Restored g (after (copyGuarded f (hostPath src) (commitSidePath (hostPath dest) "tmp")) g)

section Runs

variable {F : List String} {h : Host} {steps : List MergeStep}

theorem confined_iff {F : HostPath} (hway : Along mergeStep (fun h s => s.SourceWay h) h steps) :
    (∀ l ∈ (run mergeStep h steps).chmods, F ≤ l) ↔ (∀ l ∈ h.chmods, F ≤ l) ∧
      Along mergeStep (fun h s => ∀ l, s.Meets h l → F ≤ l) h steps := by
  induction steps generalizing h with
  | nil => exact (and_iff_left trivial).symm
  | cons s steps ih =>
    obtain ⟨calls, heq, hmem⟩ := MergeStep.called hway.1
    rw [run_cons, ih hway.2, heq]
    constructor
    · rintro ⟨hall, hrest⟩
      refine ⟨fun l hl => hall l (List.mem_append_left _ hl), fun l hl => ?_, hrest⟩
      exact hall l (List.mem_append_right _ ((hmem l).mpr hl))
    · rintro ⟨hold, hnew, hrest⟩
      refine ⟨fun l hl => ?_, hrest⟩
      rcases List.mem_append.mp hl with hl | hl
      · exact hold l hl
      · exact hnew l ((hmem l).mp hl)

theorem undone_iff (hway : Along mergeStep (fun h s => s.SourceWay h) h steps) :
    (∀ before src dest f rest, steps = before ++ ⟨.stageCopy src dest, f⟩ :: rest → ∀ g,
      clearWay f (hostPath dest) (run mergeStep h before) = .ok () g →
      Restored g (after (copyGuarded f (hostPath src) (commitSidePath (hostPath dest) "tmp")) g)) ↔
    Along mergeStep (fun h s => s.Closes h) h steps := by
  rw [along_iff] at hway ⊢
  have hcopy : ∀ before src dest f rest g, steps = before ++ ⟨.stageCopy src dest, f⟩ :: rest →
      clearWay f (hostPath dest) (run mergeStep h before) = .ok () g →
      (Restored g (after (copyGuarded f (hostPath src) (commitSidePath (hostPath dest) "tmp")) g) ↔
        NoneClosed g (hostPath src)) := by
    intro before src dest f rest g heq hg
    exact copyGuarded_restored f _ rfl (hway before _ rest heq g hg)
  constructor
  · intro hback before s rest heq
    obtain ⟨call, f⟩ := s
    cases call with
    | stageCopy src dest =>
      intro g hg
      exact (hcopy before src dest f rest g heq hg).mp (hback before src dest f rest heq g hg)
    | stageDelete target => trivial
    | removeEntry path => trivial
    | rename s t => trivial
  · intro hclosed before src dest f rest heq g hg
    exact (hcopy before src dest f rest g heq hg).mpr (hclosed before _ rest heq g hg)

/-- **A merge is tidy** exactly when at each of its calls the directories that lack bits of their owner's, of
those the call comes to, are among the branch's files, and none of them that lie above the source of a copy
lies below one that cannot be searched. -/
theorem merge_tidy_iff (hstart : h.chmods = [])
    (hway : Along mergeStep (fun h s => s.SourceWay h) h steps) :
    Tidy F h steps ↔ Along mergeStep (fun h s => s.Safe (hostPath F) h) h steps := by
  have hconfined := confined_iff (F := hostPath F) hway
  have hundone := undone_iff hway
  rw [hstart] at hconfined
  constructor
  · rintro ⟨hc, hu⟩
    have hinside := along_iff.mp (hconfined.mp hc).2
    have hcloses := along_iff.mp (hundone.mp hu)
    exact along_iff.mpr fun before s rest heq => ⟨hinside before s rest heq, hcloses before s rest heq⟩
  · intro hsafe
    rw [along_iff] at hsafe
    constructor
    · refine hconfined.mpr ⟨by simp, along_iff.mpr fun before s rest heq => ?_⟩
      exact (hsafe before s rest heq).inside
    · exact hundone.mpr (along_iff.mpr fun before s rest heq => (hsafe before s rest heq).closes)

end Runs

/-! ## A directory closed above another -/

/-- Every merge is tidy. -/
def MergesAlwaysTidy : Prop := ∀ (F : List String) (h : Host) (steps : List MergeStep), h.chmods = [] →
  Along mergeStep (fun h s => s.SourceWay h) h steps → Tidy F h steps

/-- A branch's files in `/store/work`, two directories deep, with these modes. -/
def sampleHost (upper lower : Nat) : Host where
  disk := {
    layout := hostLayout
    entries := [(hostPath ["base"], ⟨.dir, 0o755, 0, 0, 0, 1⟩), (hostPath ["store"], ⟨.dir, 0o755, 0, 0, 0, 2⟩),
      (hostPath ["store", "work"], ⟨.dir, 0o755, 0, 0, 0, 3⟩),
      (hostPath ["store", "work", "a"], ⟨.dir, upper, 0, 0, 0, 4⟩),
      (hostPath ["store", "work", "a", "b"], ⟨.dir, lower, 0, 0, 0, 5⟩),
      (hostPath ["store", "work", "a", "b", "f"], ⟨.file [], 0o644, 0, 0, 0, 6⟩)]
    orphans := []
    clock := 7
    closed := by
      intro e he
      simp only [List.mem_cons, List.not_mem_nil, or_false] at he
      rcases he with rfl | rfl | rfl | rfl | rfl | rfl <;> exact ⟨List.cons_ne_nil _ _, rfl⟩
    unique := by
      show List.Nodup [hostPath ["base"], hostPath ["store"], hostPath ["store", "work"],
        hostPath ["store", "work", "a"], hostPath ["store", "work", "a", "b"],
        hostPath ["store", "work", "a", "b", "f"]]
      decide }
  rootMode := 0o755
  chmods := []

/-- The copy of the file in the lower directory. -/
def sampleCopy : MergeStep := ⟨.stageCopy ["store", "work", "a", "b", "f"] ["base", "f"], .absent⟩

theorem clearWay_free {f : Refusals} {dest : HostPath} {h : Host} (hdest : h.isDir dest = false) :
    clearWay f dest h = .ok () h := by
  show (when (h.isDir dest = true) (stageDelete f dest)) h = _
  rw [when_false (by rw [hdest]; exact Bool.false_ne_true)]
  rfl

theorem eq_of_clearWay {f : Refusals} {dest : HostPath} {h g : Host} (hdest : h.isDir dest = false)
    (hg : clearWay f dest h = .ok () g) : g = h := by
  rw [clearWay_free hdest] at hg
  cases hg
  rfl

theorem sampleHost_run :
    (sampleHost 0 0).isDir (hostPath ["base", "f"]) = false ∧
    (sampleHost 0 0).disk.NoLinkAbove (hostPath ["store", "work", "a", "b", "f"]) ∧
    (sampleHost 0 0).disk.kindAt (hostPath ["store", "work", "a", "b"]) = some .dir ∧
    (after (copyGuarded .absent (hostPath ["store", "work", "a", "b", "f"])
      (commitSidePath (hostPath ["base", "f"]) "tmp")) (sampleHost 0 0)).mode
      (hostPath ["store", "work", "a", "b"]) = 0o700 ∧
    (sampleHost 0 0).mode (hostPath ["store", "work", "a", "b"]) = 0 := by decide +kernel

/-- Of two directories with mode 0, the lower one stays open. -/
theorem not_mergesAlwaysTidy : ¬ MergesAlwaysTidy := by
  intro hall
  obtain ⟨hdest, hlink, hk, hmode, hold⟩ := sampleHost_run
  have hclear := clearWay_free (f := .absent) hdest
  have hway : sampleCopy.SourceWay (sampleHost 0 0) := by
    intro g hg
    rw [eq_of_clearWay hdest hg]
    exact hlink
  have htidy := hall ["store", "work"] (sampleHost 0 0) [sampleCopy] rfl ⟨hway, trivial⟩
  have hback := (htidy.undone [] _ _ _ [] rfl _ hclear _ hk).2
  rw [hmode, hold] at hback
  cases hback

theorem openHost_run :
    (sampleHost 0o500 0).isDir (hostPath ["base", "f"]) = false ∧
    (sampleHost 0o500 0).disk.NoLinkAbove (hostPath ["store", "work", "a", "b", "f"]) ∧
    (∀ a ∈ (hostPath ["store", "work", "a", "b", "f"]).above, (sampleHost 0o500 0).Lacks a →
      hostPath ["store", "work"] ≤ a) ∧
    NoneClosed (sampleHost 0o500 0) (hostPath ["store", "work", "a", "b", "f"]) := by decide +kernel

/-- Below a directory that can be searched both modes come back. -/
theorem openHost_tidy : Tidy ["store", "work"] (sampleHost 0o500 0) [sampleCopy] := by
  obtain ⟨hdest, hlink, hinside, hclosed⟩ := openHost_run
  have hway : sampleCopy.SourceWay (sampleHost 0o500 0) := by
    intro g hg
    rw [eq_of_clearWay hdest hg]
    exact hlink
  have hways : Along mergeStep (fun h s => s.SourceWay h) (sampleHost 0o500 0) [sampleCopy] :=
    ⟨hway, trivial⟩
  refine (merge_tidy_iff rfl hways).mpr ⟨⟨?_, ?_⟩, trivial⟩
  · rintro l (⟨hdir, -⟩ | ⟨g, hg, hl, hlacks⟩)
    · rw [show (sampleHost 0o500 0).isDir _ = _ from hdest] at hdir
      cases hdir
    · rw [eq_of_clearWay hdest hg] at hlacks
      exact hinside l hl hlacks
  · intro g hg
    rw [eq_of_clearWay hdest hg]
    exact hclosed

end BranchFs.Modes
