/-
# BranchFs.Posix.Outcome -- what a call does to a location no link stands above

Resolution is the identity there (`realpath_eq`), so each call comes down to one update of the table
or to an error that leaves the disk alone. For every call two facts are stated: how it ends, with
the update it applies, and `Confined`, the frame the callers thread through a sequence of calls.
-/
import BranchFs.Posix.Calls

namespace BranchFs.Posix

open BranchFs.Logic

variable {ρ ν : Type} [DecidableEq ρ] [DecidableEq ν]

/-- Nothing outside the tree of `l` changes, and no link appears except perhaps at `l`. -/
structure Confined (l : Loc ρ ν) (d d' : Disk ρ ν) : Prop where
  same : SameOn (fun r => r ≠ l.root) d d'
  links : ∀ x, x ≠ l → d'.linkAt x = true → d.linkAt x = true

namespace Confined

variable {l : Loc ρ ν} {d d' d'' : Disk ρ ν}

theorem refl (l : Loc ρ ν) (d : Disk ρ ν) : Confined l d d := ⟨SameOn.refl _ d, fun _ _ h => h⟩

theorem trans (h : Confined l d d') (h' : Confined l d' d'') : Confined l d d'' :=
  ⟨h.same.trans h'.same, fun x hx hl => h.links x hx (h'.links x hx hl)⟩

/-- A step at another location of the same tree that makes no link is confined here too. -/
theorem of_noNewLinks {k : Loc ρ ν} (hroot : k.root = l.root) (h : SameOn (fun r => r ≠ k.root) d d')
    (hl : NoNewLinks d d') : Confined l d d' := by
  refine ⟨?_, fun x _ hx => hl x hx⟩
  rw [← hroot]
  exact h

theorem noLinkAbove (h : Confined l d d') (hl : d.NoLinkAbove l) : d'.NoLinkAbove l :=
  hl.of_le fun a _ hne ha => h.links a hne ha

end Confined

namespace Disk

/-- A place that is no link has the same kind everywhere: as `stat` and as `lstat` read it. -/
theorem stat_of_get {d : Disk ρ ν} {l : Loc ρ ν} {r : ρ} {n : Node ν} (hr : l.root = some r)
    (h : d.get l = some n) (hl : d.linkAt l = false) : d.stat l = .ok n := by
  have hdir : d.kindAt l.parent = some .dir := dir_parent (by simp [kindAt_of_get h])
  simp [stat, realpathFollow_of_dir hr hdir hl, h]

theorem exists_get {d : Disk ρ ν} {l : Loc ρ ν} {k : Kind ν} (h : d.kindAt l = some k) :
    ∃ n, d.get l = some n ∧ n.kind = k := by
  simpa [kindAt] using h

theorem parent_dir_of_realpath {d : Disk ρ ν} {l l' : Loc ρ ν} {r : ρ} (hr : l.root = some r)
    (hlink : d.NoLinkAbove l) (h : d.realpath l = .ok l') : d.kindAt l.parent = some .dir := by
  by_contra hdir
  rw [realpath_blocked hr hlink hdir] at h
  cases h

theorem fileAbove_of_le {d : Disk ρ ν} {a l : Loc ρ ν} (h : d.fileAbove a = true) (hle : a ≤ l) :
    d.fileAbove l = true := by
  obtain ⟨b, hb, hne, hf⟩ := fileAbove_iff.mp h
  refine fileAbove_iff.mpr ⟨b, le_trans hb hle, ?_, hf⟩
  rintro rfl
  exact hne (le_antisymm hb hle)

theorem fileAt_iff {d : Disk ρ ν} {l : Loc ρ ν} :
    d.fileAt l = true ↔ ∃ b, d.kindAt l = some (.file b) := by
  unfold fileAt
  cases d.kindAt l with
  | none => simp
  | some k => cases k <;> simp [Kind.isFile]

theorem linkAt_iff {d : Disk ρ ν} {l : Loc ρ ν} :
    d.linkAt l = true ↔ ∃ t, d.kindAt l = some (.symlink t) := by
  unfold linkAt
  cases d.kindAt l with
  | none => simp
  | some k => cases k <;> simp [Kind.isSymlink]

/-- With neither file nor link on the way, what stands above is a directory or missing. -/
theorem dir_or_none {d : Disk ρ ν} {l : Loc ρ ν} (hf : d.fileAt l = false) (hl : d.linkAt l = false) :
    d.kindAt l = some .dir ∨ d.kindAt l = none := by
  cases hk : d.kindAt l with
  | none => exact Or.inr rfl
  | some k =>
    cases k with
    | dir => exact Or.inl rfl
    | file b => simp [fileAt, hk, Kind.isFile] at hf
    | symlink t => simp [linkAt, hk, Kind.isSymlink] at hl

/-- Below a missing directory with nothing but directories above it no file stands in the way. -/
theorem not_fileAbove_of_dir {d : Disk ρ ν} {l : Loc ρ ν} (h : d.kindAt l.parent = some .dir) :
    d.fileAbove l = false := by
  by_contra hf
  obtain ⟨a, ha, hne, hfa⟩ := fileAbove_iff.mp (by simpa using hf)
  obtain ⟨b, hb⟩ := fileAt_iff.mp hfa
  have hle := Loc.le_parent_of_lt ha hne
  by_cases heq : a = l.parent
  · rw [heq, h] at hb
    cases hb
  · rw [dir_above (by simp [h]) hle heq] at hb
    cases hb

end Disk

namespace Sys

open Disk

variable {l : Loc ρ ν} {r : ρ} {d : Disk ρ ν}

/-! ## Resolution, once for all calls -/

variable {α : Type}

theorem resolved_of_dir {act : Loc ρ ν → Sys ρ ν α} (hr : l.root = some r)
    (hp : d.kindAt l.parent = some .dir) : resolved l act d = act l d := by
  simp only [resolved, realpath_of_dir hr hp]

theorem resolved_blocked {act : Loc ρ ν → Sys ρ ν α} (hr : l.root = some r)
    (hlink : d.NoLinkAbove l) (hp : d.kindAt l.parent ≠ some .dir) :
    resolved l act d = .error (if d.fileAbove l then .ENOTDIR else .ENOENT) d := by
  simp only [resolved, realpath_blocked hr hlink hp]

theorem followed_of_dir {act : Loc ρ ν → Sys ρ ν α} (hr : l.root = some r)
    (hp : d.kindAt l.parent = some .dir) (hl : d.linkAt l = false) :
    followed l act d = act l d := by
  simp only [followed, realpathFollow_of_dir hr hp hl]

theorem followed_blocked {act : Loc ρ ν → Sys ρ ν α} (hr : l.root = some r)
    (hlink : d.NoLinkAbove l) (hp : d.kindAt l.parent ≠ some .dir) :
    followed l act d = .error (if d.fileAbove l then .ENOTDIR else .ENOENT) d := by
  simp only [followed, realpathFollow_blocked hr hlink hp]

theorem after_resolved {act : Loc ρ ν → Sys ρ ν α} (hr : l.root = some r)
    (hlink : d.NoLinkAbove l) {P : Disk ρ ν → Prop} (h0 : P d) (h : P (after (act l) d)) :
    P (after (resolved l act) d) := by
  by_cases hp : d.kindAt l.parent = some .dir
  · unfold after
    rw [resolved_of_dir hr hp]
    exact h
  · unfold after
    rw [resolved_blocked hr hlink hp]
    exact h0

theorem after_followed {act : Loc ρ ν → Sys ρ ν α} (hr : l.root = some r)
    (hlink : d.NoLinkAbove l) (hl : d.linkAt l = false) {P : Disk ρ ν → Prop} (h0 : P d)
    (h : P (after (act l) d)) : P (after (followed l act) d) := by
  by_cases hp : d.kindAt l.parent = some .dir
  · unfold after
    rw [followed_of_dir hr hp hl]
    exact h
  · unfold after
    rw [followed_blocked hr hlink hp]
    exact h0

/-- An action on what a path leads to happens at some place, or not at all. -/
theorem after_followed_cases (l : Loc ρ ν) (act : Loc ρ ν → Sys ρ ν α) (d : Disk ρ ν) :
    after (followed l act) d = d ∨ ∃ r, after (followed l act) d = after (act r) d := by
  unfold after followed
  cases d.realpathFollow l with
  | error e => exact Or.inl rfl
  | ok r => exact Or.inr ⟨r, rfl⟩

/-! ## Making entries -/

theorem addAt_ok {k : Kind ν} {mode : Nat} (hp : d.kindAt l.parent = some .dir)
    (hl : d.kindAt l = none) : ∃ d', addAt k mode l d = .ok () d' ∧ d.add l k mode = some d' := by
  obtain ⟨d', hd'⟩ := add_eq d k mode hl hp
  exact ⟨d', by simp only [addAt, hl, hd'], hd'⟩

theorem addAt_of_taken {k : Kind ν} {mode : Nat} (hl : d.kindAt l ≠ none) :
    addAt k mode l d = .error .EEXIST d := by
  obtain ⟨k', hk⟩ := Option.ne_none_iff_exists'.mp hl
  simp only [addAt, hk]

/-- Whatever happens, the disk is as it was or got the one new entry. -/
theorem after_addAt (k : Kind ν) (mode : Nat) (l : Loc ρ ν) (d : Disk ρ ν) :
    after (addAt k mode l) d = d ∨ d.add l k mode = some (after (addAt k mode l) d) := by
  unfold after addAt
  cases d.kindAt l with
  | some k' => exact Or.inl rfl
  | none =>
    simp only
    cases d.add l k mode with
    | none => exact Or.inl rfl
    | some d' => exact Or.inr rfl

theorem mkdir_of_free (mode : Nat) (hr : l.root = some r) (hp : d.kindAt l.parent = some .dir)
    (hl : d.kindAt l = none) : ∃ d', mkdir l mode d = .ok () d' ∧ d.add l .dir mode = some d' := by
  rw [mkdir, resolved_of_dir hr hp]
  exact addAt_ok hp hl

theorem mkdir_of_taken {mode : Nat} (hr : l.root = some r) (hl : d.kindAt l ≠ none) :
    mkdir l mode d = .error .EEXIST d := by
  rw [mkdir, resolved_of_dir hr (dir_parent hl), addAt_of_taken hl]

/-- `createDirAll` finds nothing to do at a directory. -/
theorem createDirAll_of_dir (hr : l.root = some r) (h : d.kindAt l = some .dir) :
    createDirAll l d = .ok () d := by
  have hm : mkdir l 0o755 d = .error .EEXIST d := mkdir_of_taken hr (by simp [h])
  have hisDir : d.isDir l = true := by
    rw [isDir_eq hr (noLinkAbove_of_dir (dir_parent (by simp [h])))
      (linkAt_eq_false_of_kind h rfl), h]
    simp
  unfold createDirAll
  cases l.path.length <;> simp [createDirAllUpTo, hm, hisDir]

/-- A missing directory in one that is there is made by the first attempt. -/
theorem createDirAll_of_free (hr : l.root = some r) (hp : d.kindAt l.parent = some .dir)
    (hl : d.kindAt l = none) :
    ∃ d', createDirAll l d = .ok () d' ∧ d.add l .dir 0o755 = some d' := by
  obtain ⟨d', hd', hadd⟩ := mkdir_of_free 0o755 hr hp hl
  refine ⟨d', ?_, hadd⟩
  unfold createDirAll
  cases l.path.length <;> simp [createDirAllUpTo, hd']

/-- A taken name is left as it is. -/
theorem after_createDirAll_of_taken (hr : l.root = some r) (hl : d.kindAt l ≠ none) :
    after (createDirAll l) d = d := by
  have hm : mkdir l 0o755 d = .error .EEXIST d := mkdir_of_taken hr hl
  have hrun : createDirAll l d = if d.isDir l then .ok () d else .error .EEXIST d := by
    unfold createDirAll
    cases l.path.length <;> simp [createDirAllUpTo, hm]
  unfold after
  rw [hrun]
  cases d.isDir l <;> rfl

theorem mkdir_of_blocked {mode : Nat} (hr : l.root = some r) (hlink : d.NoLinkAbove l)
    (hp : d.kindAt l.parent ≠ some .dir) :
    mkdir l mode d = .error (if d.fileAbove l then .ENOTDIR else .ENOENT) d := by
  rw [mkdir, resolved_blocked hr hlink hp]

theorem symlink_of_free {t : Link ν} (hr : l.root = some r) (hp : d.kindAt l.parent = some .dir)
    (hl : d.kindAt l = none) :
    ∃ d', symlink t l d = .ok () d' ∧ d.add l (.symlink t) 0o777 = some d' := by
  rw [symlink, resolved_of_dir hr hp]
  exact addAt_ok hp hl

theorem symlink_of_taken {t : Link ν} (hr : l.root = some r) (hl : d.kindAt l ≠ none) :
    symlink t l d = .error .EEXIST d := by
  rw [symlink, resolved_of_dir hr (dir_parent hl), addAt_of_taken hl]

theorem symlink_confined (t : Link ν) (hr : l.root = some r) (hlink : d.NoLinkAbove l) :
    Confined l d (after (symlink t l) d) := by
  refine after_resolved hr hlink (Confined.refl l d) ?_
  rcases after_addAt (.symlink t) 0o777 l d with h | h
  · rw [h]
    exact Confined.refl l d
  · refine ⟨sameOn_add h (by simp), fun x hx hlx => ?_⟩
    unfold linkAt at hlx ⊢
    rwa [kindAt_add h, if_neg hx] at hlx

/-- What `createDirAll` leaves: directories all the way down to `l`, everything else as it was. -/
structure MadeDirs (l : Loc ρ ν) (d d' : Disk ρ ν) : Prop where
  layout : d'.layout = d.layout
  kind : ∀ x, d'.kindAt x = if x ≤ l then some .dir else d.kindAt x
  same : SameOn (fun r => r ≠ l.root) d d'
  noNew : NoNewLinks d d'

theorem MadeDirs.of_dir (h : d.kindAt l = some .dir) : MadeDirs l d d where
  layout := rfl
  kind := by
    intro x
    split
    · next hle =>
      by_cases heq : x = l
      · rw [heq, h]
      · exact dir_above (by simp [h]) hle heq
    · rfl
  same := SameOn.refl _ d
  noNew := NoNewLinks.refl d

theorem MadeDirs.child {d₁ d₂ : Disk ρ ν} {mode : Nat} (h : MadeDirs l.parent d d₁)
    (ha : d₁.add l .dir mode = some d₂) : MadeDirs l d d₂ where
  layout := (layout_add ha).trans h.layout
  kind := by
    intro x
    rw [kindAt_add ha, h.kind]
    by_cases hx : x = l
    · rw [if_pos hx, hx, if_pos (le_refl l)]
    · rw [if_neg hx]
      by_cases hle : x ≤ l
      · rw [if_pos hle, if_pos (Loc.le_parent_of_lt hle hx)]
      · rw [if_neg hle, if_neg (fun h => hle (le_trans h (Loc.parent_le l)))]
  same := h.same.trans (sameOn_add ha (by simp))
  noNew := h.noNew.trans (noNewLinks_add ha rfl)

/-- Without link or file on the way the directories get made; the recursion goes up to the first
directory that is there. -/
theorem createDirAllUpTo_ok : ∀ (n : Nat) (l : Loc ρ ν), l.root = some r → l.path.length ≤ n →
    d.NoLinkAbove l → d.linkAt l = false → d.fileAbove l = false → d.fileAt l = false →
    ∃ d', createDirAllUpTo n l d = .ok () d' ∧ MadeDirs l d d' := by
  intro n
  induction n with
  | zero =>
    intro l hr hlen _ _ _ _
    have hp : l.path = [] := List.eq_nil_of_length_eq_zero (Nat.le_zero.mp hlen)
    have hdir := kindAt_root d hp
    have hm : mkdir l 0o755 d = .error .EEXIST d := mkdir_of_taken hr (by simp [hdir])
    have hisDir : d.isDir l = true := by
      rw [isDir_eq hr (noLinkAbove_of_dir (dir_parent (by simp [hdir])))
        (linkAt_eq_false_of_kind hdir rfl), hdir]
      simp
    exact ⟨d, by simp [createDirAllUpTo, hm, hisDir], MadeDirs.of_dir hdir⟩
  | succ n ih =>
    intro l hr hlen hlink hl hfa hf
    rcases dir_or_none hf hl with hdir | hnone
    · have hm : mkdir l 0o755 d = .error .EEXIST d := mkdir_of_taken hr (by simp [hdir])
      have hisDir : d.isDir l = true := by
        rw [isDir_eq hr hlink hl, hdir]
        simp
      exact ⟨d, by simp [createDirAllUpTo, hm, hisDir], MadeDirs.of_dir hdir⟩
    · by_cases hp : d.kindAt l.parent = some .dir
      · obtain ⟨d', hd', ha⟩ := mkdir_of_free 0o755 hr hp hnone
        exact ⟨d', by simp [createDirAllUpTo, hd'], (MadeDirs.of_dir hp).child ha⟩
      · have hm : mkdir l 0o755 d = .error .ENOENT d := by
          rw [mkdir_of_blocked hr hlink hp, hfa]
          rfl
        have hne : l.path ≠ [] := path_ne_nil_of_not_dir (d := d) (by simp [hnone])
        have hup : l.parent ≠ l := Loc.parent_ne hne
        obtain ⟨d₁, hd₁, hmade⟩ := ih l.parent hr (by simp; omega)
          (hlink.mono (Loc.parent_le l)) (hlink.not_link (Loc.parent_le l) hup)
          (by
            by_contra h
            rw [fileAbove_of_le (by simpa using h) (Loc.parent_le l)] at hfa
            cases hfa)
          (by
            by_contra h
            rw [fileAbove_iff.mpr ⟨l.parent, Loc.parent_le l, hup, by simpa using h⟩] at hfa
            cases hfa)
        have hnone₁ : d₁.kindAt l = none := by
          rw [hmade.kind, if_neg, hnone]
          exact fun h => hup (le_antisymm (Loc.parent_le l) h)
        have hp₁ : d₁.kindAt l.parent = some .dir := by rw [hmade.kind, if_pos (le_refl _)]
        obtain ⟨d₂, hd₂, ha⟩ := mkdir_of_free 0o755 hr hp₁ hnone₁
        exact ⟨d₂, by simp [createDirAllUpTo, hm, hd₁, hd₂], hmade.child ha⟩

theorem createDirAll_ok (hr : l.root = some r) (hlink : d.NoLinkAbove l) (hl : d.linkAt l = false)
    (hfa : d.fileAbove l = false) (hf : d.fileAt l = false) :
    ∃ d', createDirAll l d = .ok () d' ∧ MadeDirs l d d' :=
  createDirAllUpTo_ok l.path.length l hr (Nat.le_refl _) hlink hl hfa hf

/-- A file on the way, or in the place itself, stops `createDirAll` before it made anything. -/
theorem createDirAll_blocked (hr : l.root = some r) (hlink : d.NoLinkAbove l)
    (hl : d.linkAt l = false) (hf : d.fileAbove l = true ∨ d.fileAt l = true) :
    ∃ e, createDirAll l d = .error e d := by
  have hnotdir : d.isDir l = false := by
    rw [isDir_eq hr hlink hl, decide_eq_false_iff_not]
    intro hdir
    rcases hf with hf | hf
    · rw [not_fileAbove_of_dir (dir_parent (by simp [hdir]))] at hf
      cases hf
    · simp [fileAt, hdir, Kind.isFile] at hf
  have hm : ∃ e, mkdir l 0o755 d = .error e d ∧ e ≠ .ENOENT := by
    by_cases hk : d.kindAt l = none
    · rcases hf with hf | hf
      · have hp : d.kindAt l.parent ≠ some .dir := by
          intro hp
          rw [not_fileAbove_of_dir hp] at hf
          cases hf
        exact ⟨.ENOTDIR, by rw [mkdir_of_blocked hr hlink hp, hf]; rfl, by simp⟩
      · simp [fileAt, hk] at hf
    · exact ⟨.EEXIST, mkdir_of_taken hr hk, by simp⟩
  obtain ⟨e, he, hne⟩ := hm
  refine ⟨e, ?_⟩
  unfold createDirAll
  cases l.path.length <;> simp [createDirAllUpTo, he, hne, hnotdir]

/-- Where `createDirAll` returns Ok nothing was in the way, and it made what it should. -/
theorem createDirAll_made {d' : Disk ρ ν} (hr : l.root = some r) (hlink : d.NoLinkAbove l)
    (hl : d.linkAt l = false) (h : createDirAll l d = .ok () d') :
    MadeDirs l d d' ∧ d.fileAbove l = false ∧ d.fileAt l = false := by
  by_cases hf : d.fileAbove l = true ∨ d.fileAt l = true
  · obtain ⟨e, he⟩ := createDirAll_blocked hr hlink hl hf
    rw [he] at h
    cases h
  · push Not at hf
    obtain ⟨d₁, hd₁, hmade⟩ := createDirAll_ok hr hlink hl (by simpa using hf.1) (by simpa using hf.2)
    rw [hd₁] at h
    cases h
    exact ⟨hmade, by simpa using hf.1, by simpa using hf.2⟩

theorem createDirAll_confined (hr : l.root = some r) (hlink : d.NoLinkAbove l)
    (hl : d.linkAt l = false) :
    SameOn (fun r => r ≠ l.root) d (after (createDirAll l) d) ∧
      NoNewLinks d (after (createDirAll l) d) := by
  by_cases hf : d.fileAbove l = true ∨ d.fileAt l = true
  · obtain ⟨e, he⟩ := createDirAll_blocked hr hlink hl hf
    simp only [after, he]
    exact ⟨SameOn.refl _ d, NoNewLinks.refl d⟩
  · obtain ⟨d', hd', hmade⟩ := createDirAll_ok hr hlink hl
      (by simpa using fun h => hf (Or.inl h)) (by simpa using fun h => hf (Or.inr h))
    simp only [after, hd']
    exact ⟨hmade.same, hmade.noNew⟩

/-! ## Removing -/

theorem removeFile_ok (hr : l.root = some r) {k : Kind ν} (hk : d.kindAt l = some k)
    (hd : k ≠ .dir) : removeFile l d = .ok () (d.cut l) := by
  rw [removeFile, resolved_of_dir hr (dir_parent (by simp [hk]))]
  cases k with
  | dir => exact absurd rfl hd
  | file b => simp only [removeFileAt, hk]
  | symlink t => simp only [removeFileAt, hk]

theorem removeFile_other (hr : l.root = some r) (hlink : d.NoLinkAbove l)
    (hk : d.kindAt l = none ∨ d.kindAt l = some .dir) : ∃ e, removeFile l d = .error e d := by
  by_cases hp : d.kindAt l.parent = some .dir
  · rw [removeFile, resolved_of_dir hr hp]
    rcases hk with hk | hk <;> simp [removeFileAt, hk]
  · exact ⟨_, by rw [removeFile, resolved_blocked hr hlink hp]⟩

/-- Whatever `unlink` answers, the disk is as it was or lost the entry. -/
theorem after_removeFile (hr : l.root = some r) (hlink : d.NoLinkAbove l) :
    after (removeFile l) d = d ∨
      (l.path ≠ [] ∧ d.kindAt l ≠ some .dir ∧ after (removeFile l) d = d.cut l) := by
  cases hk : d.kindAt l with
  | none =>
    obtain ⟨e, he⟩ := removeFile_other hr hlink (Or.inl hk)
    exact Or.inl (by simp only [after, he])
  | some k =>
    by_cases hd : k = .dir
    · obtain ⟨e, he⟩ := removeFile_other hr hlink (Or.inr (by rw [hk, hd]))
      exact Or.inl (by simp only [after, he])
    · refine Or.inr ⟨path_ne_nil_of_not_dir (d := d) (by simp [hk, hd]), by simp [hd], ?_⟩
      simp only [after, removeFile_ok hr hk hd]

theorem removeDirAll_ok (hr : l.root = some r) (hne : l.path ≠ []) (hk : d.kindAt l = some .dir) :
    removeDirAll l d = .ok () (d.cut l) := by
  rw [removeDirAll, resolved_of_dir hr (dir_parent (by simp [hk]))]
  simp only [removeDirAllAt, hk, hne, if_false]

/-- Whatever `remove_dir_all` answers, the disk is as it was or lost the subtree. -/
theorem after_removeDirAll (hr : l.root = some r) (hlink : d.NoLinkAbove l) :
    after (removeDirAll l) d = d ∨
      (l.path ≠ [] ∧ after (removeDirAll l) d = d.cut l) := by
  refine after_resolved (P := fun d' => d' = d ∨ (l.path ≠ [] ∧ d' = d.cut l)) hr hlink
    (Or.inl rfl) ?_
  unfold after removeDirAllAt
  cases hk : d.kindAt l with
  | none => exact Or.inl rfl
  | some k =>
    by_cases hp : l.path = []
    · cases k <;> simp [hp]
    · cases k <;> simp [hp]

theorem removeDir_ok (hr : l.root = some r) (hne : l.path ≠ []) (hk : d.kindAt l = some .dir)
    (hc : d.children l = []) : removeDir l d = .ok () (d.cut l) := by
  rw [removeDir, resolved_of_dir hr (dir_parent (by simp [hk]))]
  simp only [removeDirAt, hk, hne, hc, if_false, if_true]

/-- `rmdir` fails and changes nothing, or takes an empty directory away. -/
theorem removeDir_cases (hr : l.root = some r) (hlink : d.NoLinkAbove l) :
    (∃ e, removeDir l d = .error e d) ∨
      (l.path ≠ [] ∧ d.kindAt l = some .dir ∧ d.children l = [] ∧
        removeDir l d = .ok () (d.cut l)) := by
  by_cases hdir : d.kindAt l.parent = some .dir
  · rw [removeDir, resolved_of_dir hr hdir]
    unfold removeDirAt
    cases hk : d.kindAt l with
    | none => exact Or.inl ⟨_, rfl⟩
    | some k =>
      cases k with
      | file b => exact Or.inl ⟨_, rfl⟩
      | symlink t => exact Or.inl ⟨_, rfl⟩
      | dir =>
        by_cases hp : l.path = []
        · simp [hp]
        · by_cases hc : d.children l = []
          · simp [hp, hc]
          · simp [hp, hc]
  · exact Or.inl ⟨_, by rw [removeDir, resolved_blocked hr hlink hdir]⟩

/-! ## Files -/

theorem linkAt_of_free_or_file (hl : d.kindAt l = none ∨ d.fileAt l = true) :
    d.linkAt l = false := by
  rcases hl with hl | hl
  · exact linkAt_of_none hl
  · obtain ⟨b', hb'⟩ := fileAt_iff.mp hl
    exact linkAt_eq_false_of_kind hb' rfl

/-- A copy reads its source wherever that leads and puts contents and mode at `l`. -/
theorem copyFile_ok {src : Loc ρ ν} {n : Node ν} {b : Bytes} (hr : l.root = some r)
    (hs : d.stat src = .ok n) (hn : n.kind = .file b) (hp : d.kindAt l.parent = some .dir)
    (hl : d.kindAt l = none ∨ d.fileAt l = true) :
    ∃ d', copyFile src l d = .ok () d' ∧ d.putFile l b (some n.mode) = .ok () d' := by
  obtain ⟨d', hd'⟩ := putFile_ok d b (some n.mode) hp hl
  exact ⟨d', by simp only [copyFile, hs, hn, followed_of_dir hr hp (linkAt_of_free_or_file hl),
    putFileAt, hd'], hd'⟩

theorem after_putFileAt (data : Bytes) (mode : Option Nat) (l : Loc ρ ν) (d : Disk ρ ν) :
    after (putFileAt data mode l) d = d ∨
      d.putFile l data mode = .ok () (after (putFileAt data mode l) d) := by
  unfold after putFileAt
  cases h : d.putFile l data mode with
  | ok a d' => exact Or.inr rfl
  | error e d' =>
    left
    unfold putFile at h
    split at h
    · cases h
    · cases h; rfl
    · cases h; rfl
    · split at h
      · cases h
      · cases h; rfl

theorem sameOn_putFile_ok {data : Bytes} {mode : Option Nat} {d' : Disk ρ ν}
    (h : d.putFile l data mode = .ok () d') : SameOn (fun r => r ≠ l.root) d d' := by
  have hself : ¬ l.root ≠ l.root := not_not_intro rfl
  have hsame := @sameOn_putFile ρ ν _ _ d l data mode (fun r => r ≠ l.root) hself
  rwa [h] at hsame

theorem putFileAt_confined (data : Bytes) (mode : Option Nat) :
    SameOn (fun r => r ≠ l.root) d (after (putFileAt data mode l) d) ∧
      NoNewLinks d (after (putFileAt data mode l) d) := by
  rcases after_putFileAt data mode l d with h | h
  · rw [h]
    exact ⟨SameOn.refl _ d, NoNewLinks.refl d⟩
  · exact ⟨sameOn_putFile_ok h, noNewLinks_putFile h⟩

theorem copyFile_confined (src : Loc ρ ν) (hr : l.root = some r) (hlink : d.NoLinkAbove l)
    (hl : d.linkAt l = false) :
    SameOn (fun r => r ≠ l.root) d (after (copyFile src l) d) ∧
      NoNewLinks d (after (copyFile src l) d) := by
  have hrefl : SameOn (fun r => r ≠ l.root) d d ∧ NoNewLinks d d :=
    ⟨SameOn.refl _ d, NoNewLinks.refl d⟩
  cases hs : d.stat src with
  | error e => simpa only [after, copyFile, hs] using hrefl
  | ok n =>
    cases hn : n.kind with
    | symlink t => simpa only [after, copyFile, hs, hn] using hrefl
    | dir => simpa only [after, copyFile, hs, hn] using hrefl
    | file b =>
      have heq : after (copyFile src l) d = after (followed l (putFileAt b (some n.mode))) d := by
        simp only [after, copyFile, hs, hn]
      rw [heq]
      exact after_followed hr hlink hl (P := fun d' => SameOn (fun r => r ≠ l.root) d d' ∧
        NoNewLinks d d') hrefl (putFileAt_confined b (some n.mode))

/-- `open` for writing makes a file where nothing is, and empties one that is there. -/
theorem openWrite_fresh (hr : l.root = some r) (hp : d.kindAt l.parent = some .dir)
    (hl : d.kindAt l = none ∨ d.fileAt l = true) :
    ∃ h d', openWrite l true true d = .ok h d' ∧ d'.kindAt l = some (.file []) := by
  rw [openWrite, followed_of_dir hr hp (linkAt_of_free_or_file hl)]
  unfold openWriteAt
  rcases hl with hnone | hfile
  · have hg : d.get l = none := (get_none_iff d l).mpr hnone
    obtain ⟨d', hd'⟩ := add_eq d (.file []) 0o644 hnone hp
    refine ⟨⟨l.root, d.clock⟩, d', by simp [hg, hd'], ?_⟩
    rw [kindAt_add hd', if_pos rfl]
  · obtain ⟨b, hb⟩ := fileAt_iff.mp hfile
    obtain ⟨n, hg, hn⟩ := exists_get hb
    refine ⟨⟨l.root, n.id⟩, d.mapFile ⟨l.root, n.id⟩ fun _ => [], by simp [hg, hn], ?_⟩
    have hne : l.path ≠ [] := path_ne_nil_of_not_dir (d := d) (by simp [hb])
    show ((d.update _).get l).map (·.kind) = _
    rw [get_update d _ hne, hg]
    simp [guarded, mapData, hn, Kind.isDir]

/-- Opening a file for writing leaves links where they are. -/
theorem openWrite_keeps_link (create trunc : Bool) {k : Loc ρ ν} {t : Link ν}
    (hk : d.kindAt k = some (.symlink t)) :
    (after (openWrite l create trunc) d).kindAt k = some (.symlink t) := by
  rcases after_followed_cases l (openWriteAt create trunc) d with h | ⟨r, h⟩
  · rw [openWrite, h, hk]
  · rw [openWrite, h]
    unfold after openWriteAt
    cases hg : d.get r with
    | some n =>
      obtain ⟨kn, hkn⟩ : ∃ kn, n.kind = kn := ⟨_, rfl⟩
      cases kn with
      | dir => simpa only [hkn] using hk
      | symlink t' => simpa only [hkn] using hk
      | file b =>
        simp only [hkn]
        cases trunc
        · exact hk
        · rcases kindAt_mapFile d ⟨r.root, n.id⟩ (fun _ => []) k with heq | ⟨c, c', hc, _⟩
          · simpa only [if_true, heq] using hk
          · rw [hk] at hc
            cases hc
    | none =>
      cases create
      · exact hk
      · simp only [if_true]
        cases ha : d.add r (.file []) 0o644 with
        | none => exact hk
        | some d' =>
          show d'.kindAt k = _
          rw [kindAt_add ha, if_neg, hk]
          rintro rfl
          rw [free_of_add ha] at hk
          cases hk

/-- `open` for writing lands in the tree of `l`. -/
theorem openWrite_root (create trunc : Bool) (hr : l.root = some r) (hlink : d.NoLinkAbove l)
    (hl : d.linkAt l = false) {h : Handle ρ} {d' : Disk ρ ν}
    (ho : openWrite l create trunc d = .ok h d') : h.root = l.root := by
  by_cases hp : d.kindAt l.parent = some .dir
  · rw [openWrite, followed_of_dir hr hp hl] at ho
    unfold openWriteAt at ho
    split at ho
    · split at ho
      · cases ho
      · cases ho
      · cases ho; rfl
    · split at ho
      · split at ho
        · cases ho; rfl
        · cases ho
      · cases ho
  · rw [openWrite, followed_blocked hr hlink hp] at ho
    cases ho

theorem openWriteAt_confined (create trunc : Bool) :
    SameOn (fun r => r ≠ l.root) d (after (openWriteAt create trunc l) d) ∧
      NoNewLinks d (after (openWriteAt create trunc l) d) := by
  have hrefl : SameOn (fun r => r ≠ l.root) d d ∧ NoNewLinks d d :=
    ⟨SameOn.refl _ d, NoNewLinks.refl d⟩
  unfold after openWriteAt
  cases hg : d.get l with
  | some n =>
    obtain ⟨k, hk⟩ : ∃ k, n.kind = k := ⟨_, rfl⟩
    cases k with
    | dir => simpa only [hk] using hrefl
    | symlink t => simpa only [hk] using hrefl
    | file b =>
      simp only [hk]
      cases trunc
      · exact hrefl
      · exact ⟨sameOn_mapFile d _ _ (by simp), noNewLinks_mapFile d _ _⟩
  | none =>
    cases create
    · exact hrefl
    · simp only [if_true]
      cases ha : d.add l (.file []) 0o644 with
      | none => exact hrefl
      | some d' => exact ⟨sameOn_add ha (by simp), noNewLinks_add ha rfl⟩

theorem openWrite_confined (create trunc : Bool) (hr : l.root = some r) (hlink : d.NoLinkAbove l)
    (hl : d.linkAt l = false) :
    SameOn (fun r => r ≠ l.root) d (after (openWrite l create trunc) d) ∧
      NoNewLinks d (after (openWrite l create trunc) d) :=
  after_followed hr hlink hl (P := fun d' => SameOn (fun r => r ≠ l.root) d d' ∧ NoNewLinks d d')
    ⟨SameOn.refl _ d, NoNewLinks.refl d⟩ (openWriteAt_confined create trunc)

/-- A change of attributes changes no entry. -/
theorem kindAt_setAttr (l : Loc ρ ν) (f : Node ν → Node ν) (d : Disk ρ ν) (x : Loc ρ ν) :
    (after (setAttr l f) d).kindAt x = d.kindAt x := by
  rcases after_followed_cases l (setAttrAt f) d with h | ⟨r, h⟩
  · rw [setAttr, h]
  · rw [setAttr, h]
    unfold after setAttrAt
    cases hk : d.kindAt r with
    | none => rfl
    | some k => exact kindAt_modify d r (fun n => { f n with kind := n.kind, id := n.id }) (fun _ => rfl) x

theorem setAttr_confined (f : Node ν → Node ν) (hr : l.root = some r) (hlink : d.NoLinkAbove l)
    (hl : d.linkAt l = false) :
    SameOn (fun r => r ≠ l.root) d (after (setAttr l f) d) ∧
      (∀ x, (after (setAttr l f) d).kindAt x = d.kindAt x) := by
  refine after_followed hr hlink hl (P := fun d' => SameOn (fun r => r ≠ l.root) d d' ∧
    ∀ x, d'.kindAt x = d.kindAt x) ⟨SameOn.refl _ d, fun _ => rfl⟩ ?_
  unfold after setAttrAt
  cases hk : d.kindAt l with
  | none => exact ⟨SameOn.refl _ d, fun _ => rfl⟩
  | some k =>
    refine ⟨?_, fun x => ?_⟩
    · intro x hx
      refine get_modify_ne d _ ?_
      rintro rfl
      exact hx rfl
    · exact kindAt_modify d l (fun n => { f n with kind := n.kind, id := n.id }) (fun _ => rfl) x

/-! ## Moving -/

theorem children_eq_nil (d : Disk ρ ν) {l : Loc ρ ν} (h : d.kindAt l ≠ some .dir) :
    d.children l = [] := by
  rw [List.eq_nil_iff_forall_not_mem]
  intro n hn
  refine h ?_
  simpa using dir_parent (mem_children.mp hn)

/-- A rename finds the target free or replaceable: a file or link replaces anything but a
directory, a directory only an empty one. -/
structure Fits (d : Disk ρ ν) (k : Kind ν) (t : Loc ρ ν) : Prop where
  dir : k = .dir → d.kindAt t = none ∨ d.kindAt t = some .dir
  other : k ≠ .dir → d.kindAt t ≠ some .dir
  empty : d.children t = []

variable {s t : Loc ρ ν}

theorem renameAt_ok {k : Kind ν} (hs : d.kindAt s = some k) (htp : d.kindAt t.parent = some .dir)
    (hsp : s.path ≠ []) (ht : t.path ≠ []) (hst : ¬ s ≤ t) (hfit : Fits d k t) :
    ∃ d', renameAt s t d = .ok () d' ∧ d.shift s t = some d' := by
  have hne : s ≠ t := by
    rintro rfl
    exact hst (le_refl _)
  obtain ⟨d', hd'⟩ := shift_eq hsp hst htp ht
  have h1 : ¬ (k.isDir = true ∧ (d.kindAt t).any (fun k' => !k'.isDir) = true) := by
    rintro ⟨hk, hany⟩
    rcases hfit.dir (Kind.isDir_iff.mp hk) with h | h <;> simp [h, Kind.isDir] at hany
  have h2 : ¬ (k.isDir = false ∧ d.kindAt t = some .dir) := by
    rintro ⟨hk, hkt⟩
    refine hfit.other ?_ hkt
    rintro rfl
    cases hk
  refine ⟨d', ?_, hd'⟩
  simp only [renameAt, hs, hne, hsp, ht, hst, or_self, if_false, h1, h2, hfit.empty, ne_eq,
    not_true_eq_false, hd']

theorem rename_ok {rs : ρ} {k : Kind ν} (hrs : s.root = some rs) (hrt : t.root = some r)
    (hs : d.kindAt s = some k) (htp : d.kindAt t.parent = some .dir) (hsp : s.path ≠ [])
    (ht : t.path ≠ []) (hst : ¬ s ≤ t) (hfit : Fits d k t) :
    ∃ d', rename s t d = .ok () d' ∧ d.shift s t = some d' := by
  rw [rename, resolved_of_dir hrs (dir_parent (by simp [hs])), resolved_of_dir hrt htp]
  exact renameAt_ok hs htp hsp ht hst hfit

/-- A rename that fails changes nothing; one that succeeds moved the source. -/
theorem renameAt_cases (s t : Loc ρ ν) (d : Disk ρ ν) :
    (∃ e, renameAt s t d = .error e d) ∨ (s = t ∧ renameAt s t d = .ok () d) ∨
      ∃ d' k, d.kindAt s = some k ∧ Fits d k t ∧ ¬ s ≤ t ∧
        d.shift s t = some d' ∧ renameAt s t d = .ok () d' := by
  unfold renameAt
  cases hk : d.kindAt s with
  | none => exact Or.inl ⟨_, rfl⟩
  | some k =>
    simp only
    split_ifs with h1 h2 h3 h4 h5 h6
    · exact Or.inr (Or.inl ⟨h1, rfl⟩)
    · exact Or.inl ⟨_, rfl⟩
    · exact Or.inl ⟨_, rfl⟩
    · exact Or.inl ⟨_, rfl⟩
    · exact Or.inl ⟨_, rfl⟩
    · exact Or.inl ⟨_, rfl⟩
    · cases hd : d.shift s t with
      | none => exact Or.inl ⟨_, rfl⟩
      | some d' =>
        refine Or.inr (Or.inr ⟨d', k, rfl, ⟨?_, ?_, by simpa using h6⟩, h3, rfl, rfl⟩)
        · rintro rfl
          cases hkt : d.kindAt t with
          | none => exact Or.inl rfl
          | some k' =>
            right
            rw [Option.some.injEq, ← Kind.isDir_iff]
            by_contra hc
            exact h4 ⟨rfl, by simp [hkt, hc]⟩
        · intro hnd hkt
          refine h5 ⟨?_, hkt⟩
          rw [Bool.eq_false_iff]
          exact fun h => hnd (Kind.isDir_iff.mp h)

theorem rename_cases {rs : ρ} (hrs : s.root = some rs) (hrt : t.root = some r)
    (hs : d.NoLinkAbove s) (ht : d.NoLinkAbove t) :
    (∃ e, rename s t d = .error e d) ∨ (s = t ∧ rename s t d = .ok () d) ∨
      ∃ d' k, d.kindAt s = some k ∧ Fits d k t ∧ ¬ s ≤ t ∧
        d.shift s t = some d' ∧ rename s t d = .ok () d' := by
  by_cases hps : d.kindAt s.parent = some .dir
  · by_cases hpt : d.kindAt t.parent = some .dir
    · rw [rename, resolved_of_dir hrs hps, resolved_of_dir hrt hpt]
      exact renameAt_cases s t d
    · exact Or.inl ⟨_, by rw [rename, resolved_of_dir hrs hps, resolved_blocked hrt ht hpt]⟩
  · exact Or.inl ⟨_, by rw [rename, resolved_blocked hrs hs hps]⟩

/-- **When a rename goes through**: the source is there, and is the target, or does not lie above it and
fits in its place. -/
theorem rename_ok_iff {rs : ρ} (hrs : s.root = some rs) (hrt : t.root = some r)
    (hps : d.kindAt s.parent = some .dir) (hpt : d.kindAt t.parent = some .dir) (hsp : s.path ≠ [])
    (ht : t.path ≠ []) : (∃ d', rename s t d = .ok () d') ↔
      ∃ k, d.kindAt s = some k ∧ (s = t ∨ (¬ s ≤ t ∧ Fits d k t)) := by
  rw [rename, resolved_of_dir hrs hps, resolved_of_dir hrt hpt]
  cases hk : d.kindAt s with
  | none =>
    have hfail : renameAt s t d = .error .ENOENT d := by
      unfold renameAt
      rw [hk]
    rw [hfail]
    simp
  | some k =>
    constructor
    · rintro ⟨d', hok⟩
      rcases renameAt_cases s t d with ⟨e, he⟩ | ⟨heq, -⟩ | ⟨d₁, k', hk', hfit, hst, -, -⟩
      · cases he.symm.trans hok
      · exact ⟨k, rfl, Or.inl heq⟩
      · obtain rfl := Option.some.inj (hk'.symm.trans hk)
        exact ⟨k', rfl, Or.inr ⟨hst, hfit⟩⟩
    · rintro ⟨k', hk', hcase⟩
      obtain rfl := Option.some.inj hk'
      rcases hcase with heq | ⟨hst, hfit⟩
      · refine ⟨d, ?_⟩
        unfold renameAt
        rw [hk]
        simp only [heq, if_true]
      · obtain ⟨d', hok, -⟩ := renameAt_ok hk hpt hsp ht hst hfit
        exact ⟨d', hok⟩

/-- `remove_dir_all` of a link takes the link. -/
theorem removeDirAll_link {target : Link ν} (hr : l.root = some r) (hne : l.path ≠ [])
    (hk : d.kindAt l = some (.symlink target)) : removeDirAll l d = .ok () (d.cut l) := by
  rw [removeDirAll, resolved_of_dir hr (dir_parent (by simp [hk]))]
  simp only [removeDirAllAt, hk, hne, if_false]

end Sys

end BranchFs.Posix
