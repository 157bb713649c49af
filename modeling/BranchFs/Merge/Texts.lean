/-
# BranchFs.Merge.Texts -- the texts a commit looks at

Where the parent has moved on from a path of the session, the detection looks for three texts: the
one kept at the first touch, the one inherited now, and the one in the delta. What it comes to is
read off the state here (`mergedBytes`): a merged text, none, or a panic of the merge itself.
-/
import BranchFs.Merge.Walk

namespace BranchFs

open BranchFs.Posix BranchFs.Logic

/-- A place without a link on the way reads the same from a tree with the same nodes. -/
theorem lstat_of_sameTree {d d' : Tree} {r : Root} {p : RelPath} (hlink : d.NoLinkAbove ⟨some r, p⟩)
    (hget : ∀ x : Place, x.root = some r → d'.get x = d.get x) :
    (d'.lstat ⟨some r, p⟩).toOption = (d.lstat ⟨some r, p⟩).toOption := by
  have hlink' : d'.NoLinkAbove ⟨some r, p⟩ := by
    intro a ha
    have hroot : a.root = some r := (Loc.mem_above.mp ha).1.1
    have := hlink a ha
    unfold Disk.linkAt Disk.kindAt at this ⊢
    rwa [hget a hroot]
  rw [Disk.lstat_toOption rfl hlink, Disk.lstat_toOption rfl hlink', hget _ rfl]

section

variable {m m' m₁ : Manager} {name : String} {b : Branch} {r r' : Report} {p : RelPath}

/-- The identity on record is another than the one the branch inherits now. -/
def MovedOn (m : Manager) (b : Branch) (p : RelPath) : Prop :=
  (b.touchRecordOrMissing p).baseAtFirstTouch ≠ m.currentIdentity b p

instance (m : Manager) (b : Branch) (p : RelPath) : Decidable (MovedOn m b p) :=
  inferInstanceAs (Decidable (_ ≠ _))

/-- A layer is none of the directories merged texts are written to. -/
theorem layer_ne_mergeContent {n : String} {R : Root} (hR : R ∈ m.layers n) :
    some R ≠ some (Root.mergeContent name) := by
  simp only [Manager.layers, List.mem_cons, List.mem_flatMap, List.not_mem_nil, or_false] at hR
  rcases hR with rfl | rfl | ⟨c, _, rfl | rfl⟩ <;> simp

theorem mem_layers_of_inheritedForTouch (hb : m.forest.get? name = some b) {l : Place}
    (hl : m.inheritedForTouch b p = some l) : ∃ R ∈ m.layers name, l = ⟨some R, p⟩ := by
  unfold Manager.inheritedForTouch at hl
  split at hl
  · cases hl
  · exact Manager.mem_layers_of_inherited hb hl

theorem currentIdentity_eq (m : Manager) (b : Branch) (p : RelPath) :
    m.currentIdentity b p =
      match m.inheritedNode b p with
      | none => PathIdentity.missing
      | some n => PathIdentity.ofNode n := by
  show PathIdentity.fromPath m.disk (m.inheritedForTouch b p) = _
  unfold Manager.inheritedNode
  cases m.inheritedForTouch b p with
  | none => rfl
  | some l =>
    simp only [PathIdentity.fromPath, Option.bind_some]
    cases m.disk.lstat l <;> rfl

theorem currentParentPath_lkind {m : Manager} {b : Branch} {p : RelPath} {l : Place}
    (h : m.currentParentPath b p = some l) : m.disk.lkind l ≠ none := by
  unfold Manager.currentParentPath at h
  split at h
  · cases h
  · exact Manager.inheritedResolve_lkind h

/-- What is merged is merged with something: the branch inherits at the path. -/
theorem inherited_of_mergeAttempt {m m' : Manager} {b : Branch} {p : RelPath} {src : Place}
    {first : PathIdentity} {bytes : Bytes}
    (h : mergeAttempt b p src first (m.currentIdentity b p) m = .ok (some bytes) m') :
    m.inheritedForTouch b p ≠ none := by
  intro hnone
  have hmissing : m.currentIdentity b p = PathIdentity.missing := by
    show PathIdentity.fromPath m.disk (m.inheritedForTouch b p) = _
    rw [hnone]
    rfl
  unfold mergeAttempt at h
  rw [hmissing, if_neg fun hk => by cases hk.2] at h
  cases h

/-! ## The text of a merge -/

/-- What `read_bounded_text` answers for a node. -/
def boundedTextOf (n : Node String) : Option Bytes :=
  if !n.kind.isFile || decide (maxTextMergeBytes < (metaLen n).toNat) then none
  else (Disk.contents n).bind fun bytes =>
    if bytes.contains 0 || !isUtf8 bytes then none else some bytes

theorem readBoundedText_eq {d : Tree} {l : Place} {n : Node String} (h : d.lstat l = .ok n) :
    readBoundedText l d = .ok (boundedTextOf n) d := by
  unfold readBoundedText boundedTextOf
  rw [h]
  simp only
  split
  · rfl
  · next hc =>
    have hfile : n.kind.isFile = true := by
      by_contra hf
      exact hc (by simp [hf])
    cases hk : n.kind with
    | file bytes =>
      have hs := Disk.stat_of_lstat h (by simp [hk, Kind.isSymlink])
      simp only [Posix.Sys.readFile, hs, hk, Disk.contents, Option.bind_some]
    | dir => simp [hk, Kind.isFile] at hfile
    | symlink t => simp [hk, Kind.isFile] at hfile

/-- The text kept at the first touch. -/
def baseText (m : Manager) (b : Branch) (p : RelPath) : Option Bytes :=
  (b.touchRecordOrMissing p).baseContentKey.bind fun key =>
    (m.disk.get (touchContentPath b.name key)).bind Disk.contents

theorem readTouchBaseContent_eq (hcap : CanCapture m.disk b.name) (p : RelPath) :
    readTouchBaseContent b.name (b.touchRecordOrMissing p) m = .ok (baseText m b p) m := by
  unfold readTouchBaseContent baseText
  cases (b.touchRecordOrMissing p).baseContentKey with
  | none => rfl
  | some key =>
    have hp : m.disk.kindAt (touchContentPath b.name key).parent = some .dir :=
      Disk.kindAt_root _ rfl
    have hway := Disk.realpathFollow_of_dir (l := touchContentPath b.name key) rfl hp
      (Posix.Sys.linkAt_of_free_or_file (hcap key))
    simp only [Option.bind_some]
    rcases hcap key with hnone | hfile
    · have hget := (Disk.get_none_iff _ _).mpr hnone
      have hstat : m.disk.stat (touchContentPath b.name key) = .error .ENOENT := by
        simp only [Disk.stat, hway, hget]
      rw [hget]
      simp only [Posix.Sys.readFile, hstat, Option.bind_none]
    · obtain ⟨bytes, hk⟩ := Disk.fileAt_iff.mp hfile
      obtain ⟨n, hg, hn⟩ := Disk.exists_get hk
      have hstat : m.disk.stat (touchContentPath b.name key) = .ok n := by
        simp only [Disk.stat, hway, hg]
      rw [hg]
      simp only [Posix.Sys.readFile, hstat, hn, Option.bind_some, Disk.contents]

/-- The three-way merge of the text at the first touch, the one inherited now, and the delta's. -/
def mergedBytes (m : Manager) (b : Branch) (p : RelPath) : Except SlicePanic (Option Bytes) :=
  match baseText m b p, (m.inheritedNode b p).bind boundedTextOf,
    (m.disk.get (deltaPath b.name p)).bind boundedTextOf with
  | some base, some current, some session => tryThreeWayTextMerge base current session
  | _, _, _ => .ok none

/-- Both sides of `p` are files, so that their texts are looked at. -/
def BothFiles (m : Manager) (b : Branch) (p : RelPath) : Prop :=
  (b.touchRecordOrMissing p).baseAtFirstTouch.kind = .file ∧ (m.currentIdentity b p).kind = .file

instance (m : Manager) (b : Branch) (p : RelPath) : Decidable (BothFiles m b p) :=
  inferInstanceAs (Decidable (_ ∧ _))

/-- The detection merges `p`: both sides are files, and their texts merge. -/
def MergesCleanly (m : Manager) (b : Branch) (p : RelPath) : Prop :=
  BothFiles m b p ∧ (mergedBytes m b p).toOption.join ≠ none

instance (m : Manager) (b : Branch) (p : RelPath) : Decidable (MergesCleanly m b p) :=
  inferInstanceAs (Decidable (_ ∧ _))

/-- The detection panics at `p`: the parent has moved on, both sides are files, and the merge of
their texts panics. -/
def PanicsAt (m : Manager) (b : Branch) (p : RelPath) : Prop :=
  MovedOn m b p ∧ BothFiles m b p ∧ (mergedBytes m b p).toOption = none

instance (m : Manager) (b : Branch) (p : RelPath) : Decidable (PanicsAt m b p) :=
  inferInstanceAs (Decidable (_ ∧ _ ∧ _))

/-- The answer of the merge, its panic as the manager's. -/
def answerOf (m : Manager) : Except SlicePanic (Option Bytes) →
    EStateM.Result BranchError Manager (Option Bytes)
  | .ok t => .ok t m
  | .error _ => .error .panicked m

theorem mergedText_eq (hcap : CanCapture m.disk b.name) {src : Place}
    (hplace : src = deltaPath b.name p) (hleaf : Leaf .dir (deltaKind m.disk b.name) p) :
    mergedText b p src m = answerOf m (mergedBytes m b p) := by
  have hget : (get : Mgr Manager) m = .ok m m := rfl
  obtain ⟨k, hk, -⟩ := hleaf
  obtain ⟨n, hn, -⟩ := Disk.exists_get hk
  have hlstat : m.disk.lstat (deltaPath b.name p) = .ok n :=
    Disk.lstat_of_get rfl hn
  have hcur : m.currentParentPath b p = m.inheritedForTouch b p := rfl
  subst hplace
  rw [mergedText, bind_ok hget, bind_ok (readTouchBaseContent_eq hcap p),
    bind_ok (onDisk_ok (readBoundedText_eq hlstat)), hcur]
  unfold mergedBytes Manager.inheritedNode
  rw [hn, Option.bind_some]
  cases baseText m b p with
  | none => rfl
  | some base =>
    cases hinh : m.inheritedForTouch b p with
    | none => rfl
    | some l =>
      have hlk := currentParentPath_lkind (hcur.trans hinh)
      cases hl : m.disk.lstat l with
      | error e =>
        unfold Disk.lkind at hlk
        simp [hl, Except.toOption] at hlk
      | ok n' =>
        simp only [Option.bind_some, hl, Except.toOption]
        cases boundedTextOf n with
        | none => cases boundedTextOf n' <;> rfl
        | some session =>
          simp only
          rw [bind_ok (onDisk_ok (readBoundedText_eq hl))]
          cases boundedTextOf n' with
          | none => rfl
          | some current =>
            show _ = answerOf m (tryThreeWayTextMerge base current session)
            simp only
            cases tryThreeWayTextMerge base current session <;> rfl

/-- Looking for a merge comes to the merged text or panics, and changes nothing. -/
theorem mergeAttempt_eq (hcap : CanCapture m.disk b.name) {src : Place}
    (hplace : src = deltaPath b.name p) (hleaf : Leaf .dir (deltaKind m.disk b.name) p)
    (hmoved : MovedOn m b p) :
    (¬ PanicsAt m b p ∧ ∃ t, mergeAttempt b p src (b.touchRecordOrMissing p).baseAtFirstTouch
        (m.currentIdentity b p) m = .ok t m ∧ (t ≠ none ↔ MergesCleanly m b p)) ∨
      (PanicsAt m b p ∧ mergeAttempt b p src (b.touchRecordOrMissing p).baseAtFirstTouch
        (m.currentIdentity b p) m = .error .panicked m) := by
  unfold mergeAttempt PanicsAt MergesCleanly BothFiles
  by_cases hkinds : (b.touchRecordOrMissing p).baseAtFirstTouch.kind = .file ∧
      (m.currentIdentity b p).kind = .file
  · rw [if_pos hkinds, mergedText_eq hcap hplace hleaf]
    cases hmerged : mergedBytes m b p with
    | ok t => exact Or.inl ⟨by simp [Except.toOption], t, rfl, by simp [hkinds, Except.toOption]⟩
    | error e => exact Or.inr ⟨⟨hmoved, hkinds, rfl⟩, rfl⟩
  · rw [if_neg hkinds]
    refine Or.inl ⟨fun h => hkinds h.2.1, none, rfl, ?_⟩
    simp only [ne_eq, not_true_eq_false, false_iff]
    exact fun h => hkinds h.1

end

end BranchFs
