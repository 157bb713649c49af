/-
# BranchFs.Merge.Aside -- a commit among other names

A merge puts what it removes and what it copies under side names, without a look at what has these
names. Here the names are arbitrary, in the destination and in the session. A merge that goes through
is then a change of the destination through side names (`changedAside`), step by step; all it asks is
that no link and no side name is on the way to its places. What such a change keeps is known.
-/
import BranchFs.Merge.Success
import BranchFs.Posix.Guard

namespace BranchFs

open BranchFs.Posix BranchFs.Logic

/-- What a tree holds. -/
def treeKind (R : Root) (d : Tree) : Shape String Entry := fun q => d.kindAt (inTree R q)

/-- No link stands at a path of `S`. -/
def LinkFree (S : RelPath → Prop) (G : Shape String Entry) : Prop :=
  ∀ a, S a → ∀ l, G a ≠ some (.symlink l)

/-- The paths above those of `P`. -/
def Above (P : RelPath → Prop) (a : RelPath) : Prop := ∃ p, P p ∧ a <+: p ∧ a ≠ p

section Steps

variable {R : Root} {d d' : Tree} {f t : RelPath} {s s' : Staging} {P S : RelPath → Prop}

theorem LinkFree.linkAt (h : LinkFree S (treeKind R d)) {a : RelPath} (ha : S a) :
    d.linkAt (inTree R a) = false := by
  by_contra hc
  obtain ⟨l, hl⟩ := Disk.linkAt_iff.mp (by simpa using hc)
  exact h a ha l hl

theorem LinkFree.noLinkAbove (h : LinkFree (Above P) (treeKind R d)) {p : RelPath} (hp : P p) :
    d.NoLinkAbove (inTree R p) := by
  refine Disk.noLinkAbove_of fun x hx hne => ?_
  obtain ⟨a, ha, rfl⟩ := le_inTree.mp hx
  exact h.linkAt ⟨p, hp, ha, inTree_ne.mp hne⟩

/-- The way to a side name is the way to the place itself. -/
theorem noLinkAbove_side {tag : String} (hne : f ≠ []) (h : d.NoLinkAbove (inTree R f)) :
    d.NoLinkAbove (inTree R (sidePath tag f)) := by
  refine Disk.noLinkAbove_of fun x hx hxne => ?_
  obtain ⟨a, ha, rfl⟩ := le_inTree.mp hx
  have hdir := (le_sibling (sidePath_dropLast tag f) ha).resolve_left (inTree_ne.mp hxne)
  obtain ⟨hle, haf⟩ := (prefix_dropLast_iff hne).mp hdir
  exact h.not_link (inTree_le.mpr hle) (inTree_ne.mpr haf)

theorem treeKind_moved {src dst : RelPath} (h : ∀ x, d'.kindAt x =
    if inTree R dst ≤ x then d.kindAt (Loc.rebase (inTree R dst) (inTree R src) x)
    else if inTree R src ≤ x then none else d.kindAt x) :
    treeKind R d' = moved (treeKind R d) src dst := by
  funext q
  rw [treeKind, h, moved]
  simp only [inTree_le]
  rfl

/-! ## The steps of a merge -/

/-- One deletion. -/
theorem stageDelete_kinds (hne : t ≠ []) (hlink : s.disk.NoLinkAbove (inTree R t)) :
    ∃ s', stageDelete (inTree R t) s = .ok () s' ∧
      treeKind R s'.disk = binOne (sidePath "trash") (treeKind R s.disk) t ∧
      SameOn (fun r => r ≠ some R) s.disk s'.disk ∧ s'.work.copies = s.work.copies ∧
      s'.work.merged = s.work.merged ∧ s'.work.deletes = s.work.deletes ++
        (if treeKind R s.disk t = none then [] else [trashOf R t]) := by
  rcases stageDelete_ok hne hlink with ⟨hnone, hrun⟩ | ⟨hsome, d', htr, hrun⟩
  · have hnone : treeKind R s.disk t = none := hnone
    refine ⟨s, hrun, ?_, SameOn.refl _ _, rfl, rfl, ?_⟩
    · rw [binOne, if_pos hnone]
    · rw [if_pos hnone, List.append_nil]
  · have hsome : treeKind R s.disk t ≠ none := hsome
    refine ⟨_, hrun, ?_, htr.same, rfl, rfl, ?_⟩
    · rw [binOne, if_neg hsome]
      exact treeKind_moved htr.kind
    · rw [if_neg hsome]

/-- A directory in the place of a copy is set aside. -/
theorem stageAside_kinds (hne : f ≠ []) (hlink : s.disk.NoLinkAbove (inTree R f)) :
    ∃ s', when (((s.disk.lkind (inTree R f)).any Kind.isDir) = true) (stageDelete (inTree R f)) s =
        .ok () s' ∧
      treeKind R s'.disk = setAside .dir (sidePath "trash") (treeKind R s.disk) f ∧
      SameOn (fun r => r ≠ some R) s.disk s'.disk ∧ s'.work.copies = s.work.copies ∧
      s'.work.merged = s.work.merged ∧ s'.work.deletes = s.work.deletes ++
        (if treeKind R s.disk f = some .dir then [trashOf R f] else []) := by
  by_cases hdir : treeKind R s.disk f = some .dir
  · obtain ⟨s', hrun, hkind, hsame, hcopies, hmerged, hdeletes⟩ := stageDelete_kinds hne hlink
    refine ⟨s', ?_, ?_, hsame, hcopies, hmerged, ?_⟩
    · rw [when_true ((lkind_isDir_iff hlink).mpr hdir), hrun]
    · rw [hkind, binOne, if_neg (by simp [hdir]), setAside, if_pos hdir]
    · rw [hdeletes, if_neg (by simp [hdir]), if_pos hdir]
  · refine ⟨s, ?_, ?_, SameOn.refl _ _, rfl, rfl, ?_⟩
    · rw [when_false fun hany => hdir ((lkind_isDir_iff hlink).mp hany)]
      rfl
    · rw [setAside, if_neg hdir]
    · rw [if_neg hdir, List.append_nil]

/-- The copy of a leaf over nothing or another leaf. -/
theorem copyNode_made {src dst : Place} {r : Root} {n : Node String} (hr : dst.root = some r)
    (hp : d.kindAt dst.parent = some .dir) (hl : d.linkAt dst = false)
    (hsrc : d.lstat src = .ok n) (hleaf : n.kind ≠ .dir) (h : Io.copyNode src dst n d = .ok () d') :
    d.kindAt dst ≠ some .dir ∧ (∀ x, d'.kindAt x = if x = dst then some n.kind else d.kindAt x) ∧
      SameOn (fun r => r ≠ dst.root) d d' := by
  cases hk : n.kind with
  | dir => exact absurd hk hleaf
  | file b =>
    simp only [Io.copyNode, hk] at h
    have hst : d.stat src = .ok n := Disk.stat_of_lstat hsrc (by simp [hk, Kind.isSymlink])
    simp only [Posix.Sys.copyFile, hst, hk, Posix.Sys.followed_of_dir hr hp hl,
      Posix.Sys.putFileAt] at h
    refine ⟨?_, Disk.kindAt_putFile h, Posix.Sys.sameOn_putFile_ok h⟩
    intro hdir
    rcases Disk.free_or_file_of_putFile h with hnone | hfile
    · rw [hdir] at hnone
      cases hnone
    · simp [Disk.fileAt, hdir, Kind.isFile] at hfile
  | symlink l =>
    simp only [Io.copyNode, hk] at h
    obtain ⟨_, d₁, hrem, hlinked⟩ := bind_eq_ok h
    -- what was there is gone, unless it is a directory
    have hgone : d.kindAt dst ≠ some .dir ∧ d₁.kindAt dst = none ∧
        (∀ x, x ≠ dst → d₁.kindAt x = d.kindAt x) ∧ SameOn (fun r => r ≠ dst.root) d d₁ := by
      by_cases hfree : d.kindAt dst = none ∨ d.kindAt dst = some .dir
      · obtain ⟨e, he⟩ := Posix.Sys.removeFile_other hr (Disk.noLinkAbove_of_dir hp) hfree
        have hattempt : attempt (Posix.Sys.removeFile dst) d = .ok (.error e) d := by
          simp only [attempt, he]
        rw [hattempt] at hrem
        cases hrem
        rcases hfree with hnone | hdir
        · exact ⟨by simp [hnone], hnone, fun _ _ => rfl, SameOn.refl _ _⟩
        · rw [Posix.Sys.symlink_of_taken hr (by simp [hdir])] at hlinked
          cases hlinked
      · push Not at hfree
        obtain ⟨k', hk'⟩ := Option.ne_none_iff_exists'.mp hfree.1
        have hkd : k' ≠ .dir := fun heq => hfree.2 (by rw [hk', heq])
        have hne : dst.path ≠ [] := Disk.path_ne_nil_of_not_dir hfree.2
        have hattempt : attempt (Posix.Sys.removeFile dst) d = .ok (.ok ()) (d.cut dst) := by
          simp only [attempt, Posix.Sys.removeFile_ok hr hk' hkd]
        rw [hattempt] at hrem
        cases hrem
        refine ⟨hfree.2, ?_, fun x hx => ?_, Disk.sameOn_cut d hne (by simp)⟩
        · rw [Disk.kindAt_cut d hne, if_pos (le_refl _)]
        · rw [Disk.kindAt_cut d hne]
          split
          · next hle =>
            -- nothing stands below a leaf
            exact (Disk.none_below hfree.2 hle fun heq => hx heq.symm).symm
          · rfl
    obtain ⟨hnotdir, hnone, hother, hsame⟩ := hgone
    have hpar : d₁.kindAt dst.parent = some .dir := by
      rw [hother _ fun heq => ?_, hp]
      rw [heq] at hp
      exact hnotdir hp
    obtain ⟨d₂, hd₂, hadd⟩ := Posix.Sys.symlink_of_free (t := l) hr hpar hnone
    rw [hd₂] at hlinked
    cases hlinked
    refine ⟨hnotdir, fun x => ?_, hsame.trans (Disk.sameOn_add hadd (by simp))⟩
    rw [Disk.kindAt_add hadd]
    split
    · rfl
    · next hx => exact hother x hx

/-- The copy of one file under its temporary name. -/
theorem copyAside_kinds {src : Place} {k : Entry} (hne : f ≠ [])
    (hlink : s.disk.NoLinkAbove (inTree R f)) (htmp : s.disk.linkAt (inTree R (sidePath "tmp" f)) = false)
    (hsrc : Source R s.disk src k) (h : copyAside f src (inTree R f) s = .ok () s') :
    (treeKind R s.disk (sidePath "tmp" f) ≠ some .dir ∧
      ∀ a, a <+: f → a ≠ f → treeKind R s.disk a = none ∨ treeKind R s.disk a = some .dir) ∧
    treeKind R s'.disk = planted .dir (treeKind R s.disk) (sidePath "tmp" f) k ∧
    SameOn (fun r => r ≠ some R) s.disk s'.disk ∧ s'.work.copies = s.work.copies ++ [copyOf R f] ∧
    s'.work.merged = s.work.merged ++ [f] ∧ s'.work.deletes = s.work.deletes := by
  let tmp := inTree R (sidePath "tmp" f)
  have hparent : tmp.parent = inTree R f.dropLast := by
    show inTree R (sidePath "tmp" f).dropLast = _
    rw [sidePath_dropLast]
  have hup : ∀ a, a <+: f.dropLast ↔ a <+: f ∧ a ≠ f := fun a => prefix_dropLast_iff hne
  obtain ⟨d', hcopy, hdisk, hcopies, hmerged, hdeletes⟩ : ∃ d', Io.copyEntry src tmp s.disk = .ok () d' ∧
      s'.disk = d' ∧ s'.work.copies = s.work.copies ++ [copyOf R f] ∧
      s'.work.merged = s.work.merged ++ [f] ∧ s'.work.deletes = s.work.deletes := by
    rw [copyAside, commitSidePath_inTree] at h
    cases hrun : Io.copyEntry src tmp s.disk with
    | error e d' =>
      rw [bind_error (onStage_error hrun)] at h
      cases h
    | ok u d' =>
      rw [bind_ok (onStage_ok hrun), readStage_bind] at h
      cases h
      exact ⟨d', rfl, rfl, rfl, rfl, rfl⟩
  subst hdisk
  rw [Io.copyEntry] at hcopy
  obtain ⟨_, d₁, hdirs, hrest⟩ := bind_eq_ok hcopy
  obtain ⟨n, d₂, hmeta, hnode⟩ := bind_eq_ok hrest
  rw [Io.ensureParentDirs, hparent] at hdirs
  have hway : s.disk.NoLinkAbove (inTree R f.dropLast) :=
    hlink.mono (inTree_le.mpr (List.dropLast_prefix f))
  have hself : s.disk.linkAt (inTree R f.dropLast) = false := by
    obtain ⟨hle, hfne⟩ := (hup f.dropLast).mp List.prefix_rfl
    exact hlink.not_link (inTree_le.mpr hle) (inTree_ne.mpr hfne)
  obtain ⟨hmade, hnofile, hnotfile⟩ := Posix.Sys.createDirAll_made rfl hway hself hdirs
  have hkind₁ : ∀ x, d₁.kindAt (inTree R x) =
      if x <+: f.dropLast then some .dir else s.disk.kindAt (inTree R x) := by
    intro x
    rw [hmade.kind]
    exact if_congr inTree_le rfl rfl
  have hsame₁ : SameOn (fun r => r ≠ some R) s.disk d₁ := hmade.same
  obtain ⟨n', hn', hnk⟩ := hsrc.lstat hsame₁
  have hnn : n' = n ∧ d₂ = d₁ := by
    simp only [Io.symlinkMetadata, hn'] at hmeta
    cases hmeta
    exact ⟨rfl, rfl⟩
  obtain ⟨rfl, rfl⟩ := hnn
  have htmpup : ¬ sidePath "tmp" f <+: f.dropLast :=
    not_le_dropLast (sidePath_dropLast "tmp" f) (sidePath_ne_nil "tmp" f)
  have hlink₁ : d₂.linkAt tmp = false := hmade.noNew.linkAt htmp
  have hdir₁ : d₂.kindAt tmp.parent = some .dir := by
    rw [hparent, hkind₁, if_pos List.prefix_rfl]
  obtain ⟨hnotdir, hkind₂, hsame₂⟩ := copyNode_made (r := R) rfl hdir₁ hlink₁ hn'
    (by rw [hnk]; exact hsrc.leaf) hnode
  refine ⟨⟨?_, fun a ha hane => ?_⟩, ?_, hsame₁.trans hsame₂, hcopies, hmerged, hdeletes⟩
  · rw [hkind₁, if_neg htmpup] at hnotdir
    exact hnotdir
  · -- neither a link nor a file is on the way
    have hle : inTree R a ≤ inTree R f.dropLast := inTree_le.mpr ((hup a).mpr ⟨ha, hane⟩)
    have hnolink := hlink.not_link (inTree_le.mpr ha) (inTree_ne.mpr hane)
    refine Disk.dir_or_none ?_ hnolink |>.symm
    by_contra hfile
    rw [Bool.not_eq_false] at hfile
    by_cases heq : inTree R a = inTree R f.dropLast
    · rw [heq, hnotfile] at hfile
      cases hfile
    · have habove := Disk.fileAbove_iff.mpr ⟨_, hle, heq, hfile⟩
      rw [hnofile] at habove
      cases habove
  · funext x
    rw [treeKind, hkind₂, planted, hnk]
    by_cases hx : x = sidePath "tmp" f
    · rw [if_pos (by rw [hx]), if_pos hx]
    · rw [if_neg fun heq => hx (congrArg Loc.path heq), if_neg hx, hkind₁]
      refine if_congr ?_ rfl rfl
      constructor
      · intro hle
        rw [← sidePath_dropLast "tmp" f] at hle
        exact hle.trans (List.dropLast_prefix _)
      · exact fun hle => (le_sibling (sidePath_dropLast "tmp" f) hle).resolve_left hx

/-- One copy. -/
theorem stageCopy_kinds {src : Place} {k : RelPath → Entry} (hne : f ≠ [])
    (hlink : s.disk.NoLinkAbove (inTree R f)) (htmp : s.disk.linkAt (inTree R (sidePath "tmp" f)) = false)
    (hsrc : Source R s.disk src (k f)) (h : stageCopy (inTree R) f src s = .ok () s') :
    CopyFits .dir (sidePath "tmp") (sidePath "trash") (treeKind R s.disk) f ∧
    treeKind R s'.disk =
      copyOne .dir (sidePath "tmp") (sidePath "trash") k (treeKind R s.disk) f ∧
    SameOn (fun r => r ≠ some R) s.disk s'.disk ∧ s'.work.copies = s.work.copies ++ [copyOf R f] ∧
    s'.work.merged = s.work.merged ++ [f] ∧ s'.work.deletes = s.work.deletes ++
      (if treeKind R s.disk f = some .dir then [trashOf R f] else []) := by
  obtain ⟨s₁, hrun, hkind, hsame, hcopies, hmerged, hdeletes⟩ := stageAside_kinds hne hlink
  rw [stageCopy, readStage_bind, bind_ok hrun] at h
  -- what is set aside is neither on the way nor at the temporary name
  have hkeep : ∀ a, (a <+: f ∧ a ≠ f) ∨ a = sidePath "tmp" f →
      treeKind R s₁.disk a = treeKind R s.disk a := by
    intro a ha
    rw [hkind]
    refine setAside_eq fun _ => ⟨fun hle => ?_, fun hle => ?_⟩
    · rcases ha with ⟨haf, hafne⟩ | rfl
      · exact hafne (haf.eq_of_length_le hle.length_le)
      · exact not_self_le_side "tmp" hne hle
    · rcases ha with ⟨haf, _⟩ | rfl
      · exact not_side_le_self "trash" hne (hle.trans haf)
      · refine tmp_ne_trash (hle.eq_of_length ?_).symm
        simp [sidePath]
  have hlink₁ : s₁.disk.NoLinkAbove (inTree R f) := by
    refine hlink.of_le fun x hx hxne hl => ?_
    obtain ⟨a, ha, rfl⟩ := le_inTree.mp hx
    have heq := hkeep a (Or.inl ⟨ha, inTree_ne.mp hxne⟩)
    unfold treeKind at heq
    unfold Disk.linkAt at hl ⊢
    rwa [heq] at hl
  have htmp₁ : s₁.disk.linkAt (inTree R (sidePath "tmp" f)) = false := by
    have heq := hkeep _ (Or.inr rfl)
    unfold treeKind at heq
    unfold Disk.linkAt at htmp ⊢
    rwa [heq]
  have hsrc₁ : Source R s₁.disk src (k f) := by
    obtain ⟨r, hr, hrne⟩ := hsrc.root
    refine ⟨⟨r, hr, hrne⟩, ?_, hsrc.leaf⟩
    rw [hsame.kindAt, hsrc.kind]
    rw [hr]
    simpa using hrne
  obtain ⟨hfits, hkind₂, hsame₂, hcopies₂, hmerged₂, hdeletes₂⟩ :=
    copyAside_kinds hne hlink₁ htmp₁ hsrc₁ h
  rw [hkind] at hfits hkind₂
  refine ⟨hfits, hkind₂, hsame.trans hsame₂, ?_, ?_, ?_⟩
  · rw [hcopies₂, hcopies]
  · rw [hmerged₂, hmerged]
  · rw [hdeletes₂, hdeletes]

/-- One copy into its place. -/
theorem rename_kinds (hne : f ≠ []) (hlink : d.NoLinkAbove (inTree R f))
    (h : Posix.Sys.rename (inTree R (sidePath "tmp" f)) (inTree R f) d = .ok () d') :
    treeKind R d' = moved (treeKind R d) (sidePath "tmp" f) f ∧
      SameOn (fun r => r ≠ some R) d d' := by
  have hroot : ∀ p, (inTree R p).root = some R := fun _ => rfl
  rcases Posix.Sys.rename_cases (hroot (sidePath "tmp" f)) (hroot f) (noLinkAbove_side hne hlink) hlink
    with ⟨e, he⟩ | ⟨heq, _⟩ | ⟨d₁, _, _, _, _, hshift, hrun⟩
  · rw [he] at h
    cases h
  · exact absurd (congrArg Loc.path heq) (sidePath_ne "tmp" f)
  · rw [hrun] at h
    cases h
    refine ⟨treeKind_moved (Disk.kindAt_shift hshift fun hle => ?_),
      Disk.sameOn_shift hshift (fun h => h rfl) (fun h => h rfl)⟩
    exact not_self_le_side "tmp" hne (inTree_le.mp hle)

/-- The trash of one deletion dropped. -/
theorem removeEntry_kinds (hne : t ≠ []) (hlink : d.NoLinkAbove (inTree R t))
    (h : Io.removeEntry (inTree R (sidePath "trash" t)) d = .ok () d') :
    treeKind R d' = dropped (treeKind R d) (sidePath "trash" t) ∧
      SameOn (fun r => r ≠ some R) d d' := by
  let l := inTree R (sidePath "trash" t)
  have hkinds : (∀ x, d'.kindAt x = if l ≤ x then none else d.kindAt x) ∧
      SameOn (fun r => r ≠ some R) d d' := by
    by_cases hdir : d.kindAt l.parent = some .dir
    · obtain ⟨d₁, hrun, hkind, hsame⟩ :=
        removeEntry_clears (l := l) (d := d) rfl (sidePath_ne_nil _ _) hdir
      rw [hrun] at h
      cases h
      exact ⟨hkind, hsame⟩
    · have hlstat : d.lstat l = .error (if d.fileAbove l then .ENOTDIR else .ENOENT) := by
        simp only [Disk.lstat, Disk.realpath_blocked (l := l) rfl (noLinkAbove_side hne hlink) hdir]
      unfold Io.removeEntry at h
      rw [hlstat] at h
      by_cases hfa : d.fileAbove l = true
      · rw [if_pos hfa] at h
        cases h
      · rw [if_neg hfa] at h
        cases h
        refine ⟨fun x => ?_, SameOn.refl _ _⟩
        split
        · next hle =>
          -- its directory is not there, so nothing is
          by_contra hk
          exact hdir (Disk.dir_parent fun hn => hk (Disk.none_of_le hn hle))
        · rfl
  refine ⟨?_, hkinds.2⟩
  funext q
  rw [treeKind, hkinds.1, dropped]
  exact if_congr inTree_le rfl rfl

end Steps

/-! ## A merge that goes through -/

/-- What a merge asks of its paths and of the tree it goes to: no link and no side name on the way to
a path of the merge, no link under a temporary name, sources elsewhere. -/
structure Passable (R : Root) (d : Tree) (ts : List RelPath) (files : List (RelPath × Place))
    (src : RelPath × Place → Place) (k : RelPath → Entry) : Prop where
  deletion : ∀ t ∈ ts, t ≠ []
  change : ChangeSet .dir (sidePath "tmp") (sidePath "trash") k ts (files.map Prod.fst)
  sides : ∀ tag, tag = "tmp" ∨ tag = "trash" → ∀ p, p ∈ ts ∨ p ∈ files.map Prod.fst →
    ∀ t ∈ ts, sidePath tag p <+: t → sidePath tag p = t
  source : ∀ f ∈ files, Source R d (src f) (k f.1)
  straight : LinkFree (Above fun p => p ∈ ts ∨ p ∈ files.map Prod.fst) (treeKind R d)
  temporary : LinkFree (fun a => ∃ f ∈ files.map Prod.fst, a = sidePath "tmp" f) (treeKind R d)
  linkOver : ∀ t ∈ ts, ∀ f ∈ files.map Prod.fst, f <+: t → f ≠ t →
    (∀ l, k f ≠ .symlink l) ∧ sidePath "tmp" f ∉ files.map Prod.fst

section Runs

variable {R : Root} {d d' : Tree} {ts fs : List RelPath} {files : List (RelPath × Place)}
variable {src : RelPath × Place → Place} {k : RelPath → Entry} {s s' : Staging}
variable {P : RelPath → Prop} {G : Shape String Entry} {f t : RelPath}

/-- A side name that is not above the path stays off its way. -/
theorem linkFree_moved_side {tag : String} (h : LinkFree (Above P) G)
    (hside : ∀ p, P p → sidePath tag t <+: p → sidePath tag t = p) :
    LinkFree (Above P) (moved G t (sidePath tag t)) := by
  rintro a ⟨p, hp, ha, hne⟩ l hl
  rw [moved, if_neg fun hle => ?_] at hl
  · split at hl
    · cases hl
    · exact h a ⟨p, hp, ha, hne⟩ l hl
  · have heq := hside p hp (hle.trans ha)
    rw [heq] at hle
    exact hne (ha.eq_of_length_le hle.length_le)

theorem linkFree_binOne (h : LinkFree (Above P) G)
    (hside : ∀ p, P p → sidePath "trash" t <+: p → sidePath "trash" t = p) :
    LinkFree (Above P) (binOne (sidePath "trash") G t) := by
  rw [binOne]
  split
  · exact h
  · exact linkFree_moved_side h hside

theorem linkFree_setAside (h : LinkFree (Above P) G)
    (hside : ∀ p, P p → sidePath "trash" f <+: p → sidePath "trash" f = p) :
    LinkFree (Above P) (setAside .dir (sidePath "trash") G f) := by
  rw [setAside]
  split
  · exact linkFree_moved_side h hside
  · exact h

theorem linkFree_copyOne (h : LinkFree (Above P) G)
    (hside : ∀ tag, tag = "tmp" ∨ tag = "trash" → ∀ p, P p → sidePath tag f <+: p →
      sidePath tag f = p) :
    LinkFree (Above P) (copyOne .dir (sidePath "tmp") (sidePath "trash") k G f) := by
  have hset := linkFree_setAside h (hside "trash" (Or.inr rfl))
  rintro a ⟨p, hp, ha, hne⟩ l hl
  rw [copyOne, planted, if_neg] at hl
  · split at hl
    · cases hl
    · exact hset a ⟨p, hp, ha, hne⟩ l hl
  · rintro rfl
    exact hne (hside "tmp" (Or.inl rfl) p hp ha)

/-- The temporary names of the copies to come stay without links. -/
theorem linkFree_copyOne_tmp {S : RelPath → Prop} (h : LinkFree S G)
    (hS : ∀ a, S a → a ≠ sidePath "tmp" f ∧ ¬ sidePath "trash" f <+: a) :
    LinkFree S (copyOne .dir (sidePath "tmp") (sidePath "trash") k G f) := by
  intro a ha l hl
  obtain ⟨hne, hnle⟩ := hS a ha
  rw [copyOne, planted, if_neg hne] at hl
  split at hl
  · cases hl
  · rw [setAside] at hl
    split at hl
    · rw [moved, if_neg hnle] at hl
      split at hl
      · cases hl
      · exact h a ha l hl
    · exact h a ha l hl

/-- **The deletions of a merge.** -/
theorem stageDeletes_kinds (hts : ∀ t ∈ ts, t ≠ [] ∧ P t)
    (hside : ∀ t ∈ ts, ∀ p, P p → sidePath "trash" t <+: p → sidePath "trash" t = p)
    (hfree : LinkFree (Above P) (treeKind R s.disk)) :
    ∃ s', ts.forM (fun t => stageDelete (inTree R t)) s = .ok () s' ∧
      treeKind R s'.disk = afterBins (sidePath "trash") (treeKind R s.disk) ts ∧
      LinkFree (Above P) (treeKind R s'.disk) ∧ SameOn (fun r => r ≠ some R) s.disk s'.disk ∧
      s'.work.copies = s.work.copies ∧ s'.work.merged = s.work.merged ∧ s'.work.deletes =
        s.work.deletes ++ (bins (sidePath "trash") (treeKind R s.disk) ts).map (trashOf R) := by
  induction ts generalizing s with
  | nil => exact ⟨s, rfl, rfl, hfree, SameOn.refl _ _, rfl, rfl, by simp [bins]⟩
  | cons t ts ih =>
    obtain ⟨hne, hP⟩ := hts t (List.mem_cons_self ..)
    obtain ⟨s₁, hrun₁, hkind₁, hsame₁, hcopies₁, hmerged₁, hdeletes₁⟩ :=
      stageDelete_kinds hne (hfree.noLinkAbove hP)
    have hfree₁ : LinkFree (Above P) (treeKind R s₁.disk) := by
      rw [hkind₁]
      exact linkFree_binOne hfree (hside t (List.mem_cons_self ..))
    obtain ⟨s₂, hrun₂, hkind₂, hfree₂, hsame₂, hcopies₂, hmerged₂, hdeletes₂⟩ :=
      ih (fun u hu => hts u (List.mem_cons_of_mem _ hu))
        (fun u hu => hside u (List.mem_cons_of_mem _ hu)) hfree₁
    refine ⟨s₂, ?_, ?_, hfree₂, hsame₁.trans hsame₂, hcopies₂.trans hcopies₁,
      hmerged₂.trans hmerged₁, ?_⟩
    · show (stageDelete (inTree R t) >>= fun _ => ts.forM _) s = _
      rw [bind_ok hrun₁, hrun₂]
    · rw [hkind₂, hkind₁]
      rfl
    · rw [hdeletes₂, hdeletes₁, hkind₁, bins, List.map_append, List.append_assoc]
      congr 2
      split <;> rfl

/-- **The copies of a merge**, once they are all made. -/
theorem stageCopies_kinds (hsame : SameOn (fun r => r ≠ some R) d s.disk)
    (hchange : ChangeSet .dir (sidePath "tmp") (sidePath "trash") k ts (files.map Prod.fst))
    (hfiles : ∀ f ∈ files, P f.1)
    (hside : ∀ tag, tag = "tmp" ∨ tag = "trash" → ∀ f ∈ files, ∀ p, P p → sidePath tag f.1 <+: p →
      sidePath tag f.1 = p)
    (hsrc : ∀ f ∈ files, Source R d (src f) (k f.1))
    (hfree : LinkFree (Above P) (treeKind R s.disk))
    (htmp : LinkFree (fun a => ∃ f ∈ files.map Prod.fst, a = sidePath "tmp" f) (treeKind R s.disk))
    (h : files.forM (fun f => stageCopy (inTree R) f.1 (src f)) s = .ok () s') :
    AllFit .dir (sidePath "tmp") (sidePath "trash") k (treeKind R s.disk) (files.map Prod.fst) ∧
      treeKind R s'.disk = afterCopies .dir (sidePath "tmp") (sidePath "trash") k
        (treeKind R s.disk) (files.map Prod.fst) ∧
      LinkFree (Above P) (treeKind R s'.disk) ∧ SameOn (fun r => r ≠ some R) d s'.disk ∧
      s'.work.copies = s.work.copies ++ (files.map Prod.fst).map (copyOf R) ∧
      s'.work.merged = s.work.merged ++ files.map Prod.fst ∧
      s'.work.deletes = s.work.deletes ++ (replaced .dir (sidePath "tmp") (sidePath "trash") k
        (treeKind R s.disk) (files.map Prod.fst)).map (trashOf R) := by
  induction files generalizing s with
  | nil =>
    cases h
    exact ⟨trivial, rfl, hfree, hsame, by simp, by simp, by simp [replaced]⟩
  | cons f files ih =>
    obtain ⟨_, s₁, hrun, hrest⟩ := bind_eq_ok (show (stageCopy (inTree R) f.1 (src f) >>= fun _ =>
      files.forM fun f => stageCopy (inTree R) f.1 (src f)) s = .ok () s' from h)
    have hf := List.mem_cons_self (a := f) (l := files)
    have hff : f.1 ∈ (f :: files).map Prod.fst := List.mem_cons_self ..
    have hsrc₁ : Source R s.disk (src f) (k f.1) := by
      obtain ⟨⟨r, hr, hrne⟩, hkind, hleaf⟩ := hsrc f hf
      refine ⟨⟨r, hr, hrne⟩, ?_, hleaf⟩
      rw [hsame.kindAt, hkind]
      rw [hr]
      simpa using hrne
    obtain ⟨hfits, hkind₁, hsame₁, hcopies₁, hmerged₁, hdeletes₁⟩ :=
      stageCopy_kinds (hchange.ne_nil _ hff) (hfree.noLinkAbove (hfiles f hf))
        (htmp.linkAt ⟨f.1, hff, rfl⟩) hsrc₁ hrun
    have hfree₁ : LinkFree (Above P) (treeKind R s₁.disk) := by
      rw [hkind₁]
      exact linkFree_copyOne hfree fun tag htag => hside tag htag f hf
    have htmp₁ : LinkFree (fun a => ∃ g ∈ files.map Prod.fst, a = sidePath "tmp" g)
        (treeKind R s₁.disk) := by
      rw [hkind₁]
      have hrest : LinkFree (fun a => ∃ g ∈ files.map Prod.fst, a = sidePath "tmp" g)
          (treeKind R s.disk) := by
        rintro a ⟨g, hg, ha⟩
        exact htmp a ⟨g, List.mem_cons_of_mem _ hg, ha⟩
      refine linkFree_copyOne_tmp hrest ?_
      rintro a ⟨g, hg, rfl⟩
      have hgc : g ∈ (f :: files).map Prod.fst := List.mem_cons_of_mem _ hg
      refine ⟨fun heq => ?_, hchange.not_trash_le_tmp sideNames (Or.inr hff) hgc⟩
      exact hchange.ne_head hg (sidePath_inj (hchange.ne_nil g hgc) (hchange.ne_nil _ hff) heq)
    obtain ⟨hfits₂, hkind₂, hfree₂, hsame₂, hcopies₂, hmerged₂, hdeletes₂⟩ :=
      ih (hsame.trans hsame₁) hchange.tail (fun g hg => hfiles g (List.mem_cons_of_mem _ hg))
        (fun tag htag g hg => hside tag htag g (List.mem_cons_of_mem _ hg))
        (fun g hg => hsrc g (List.mem_cons_of_mem _ hg)) hfree₁ htmp₁ hrest
    rw [hkind₁] at hfits₂ hkind₂ hdeletes₂
    refine ⟨⟨hfits, hfits₂⟩, hkind₂, hfree₂, hsame₂, ?_, ?_, ?_⟩
    · rw [hcopies₂, hcopies₁, List.append_assoc]
      rfl
    · rw [hmerged₂, hmerged₁, List.append_assoc]
      rfl
    · rw [hdeletes₂, hdeletes₁, List.map_cons, replaced, List.map_append, List.append_assoc]
      congr 2
      split <;> rfl

/-- A copy in its place is in no way, unless it is a link over a deletion. -/
theorem linkFree_moved_tmp (h : LinkFree (Above P) (treeKind R d)) (hleaf : k f ≠ .dir)
    (hover : ∀ p, P p → f <+: p → f ≠ p → (∀ l, k f ≠ .symlink l) ∧
      treeKind R d (sidePath "tmp" f) = some (k f)) :
    LinkFree (Above P) (moved (treeKind R d) (sidePath "tmp" f) f) := by
  rintro a ⟨p, hp, ha, hne⟩ l hl
  by_cases hfa : f <+: a
  · obtain ⟨hnolink, hcopy⟩ := hover p hp (hfa.trans ha) fun heq =>
      hne (ha.eq_of_length_le (heq ▸ hfa.length_le))
    obtain ⟨r, rfl⟩ := hfa
    rw [moved, if_pos (List.prefix_append f r), List.drop_left] at hl
    by_cases hr : r = []
    · rw [hr, List.append_nil, hcopy] at hl
      exact hnolink l (Option.some.inj hl)
    · -- nothing is below a copy
      have hnone : treeKind R d (sidePath "tmp" f ++ r) = none := by
        refine Disk.none_below (a := inTree R (sidePath "tmp" f)) ?_ (inTree_le.mpr
          (List.prefix_append _ r)) (inTree_ne.mpr fun heq => hr ?_)
        · show treeKind R d (sidePath "tmp" f) ≠ _
          rw [hcopy]
          exact fun heq => hleaf (Option.some.inj heq)
        · simpa using heq
      rw [hnone] at hl
      cases hl
  · rw [moved, if_neg hfa] at hl
    split at hl
    · cases hl
    · exact h a ⟨p, hp, ha, hne⟩ l hl

/-- **The copies of a merge moved**, once they all are. -/
theorem moveCopies_kinds (hchange : ChangeSet .dir (sidePath "tmp") (sidePath "trash") k ts fs)
    (hP : ∀ f ∈ fs, P f)
    (hover : ∀ f ∈ fs, ∀ p, P p → f <+: p → f ≠ p → (∀ l, k f ≠ .symlink l) ∧
      sidePath "tmp" f ∉ fs ∧ treeKind R s.disk (sidePath "tmp" f) = some (k f))
    (hfree : LinkFree (Above P) (treeKind R s.disk))
    (h : fs.forM (fun f => onStage (Posix.Sys.rename (copyOf R f).1 (copyOf R f).2)) s = .ok () s') :
    treeKind R s'.disk = afterMoves (sidePath "tmp") (treeKind R s.disk) fs ∧
      LinkFree (Above P) (treeKind R s'.disk) ∧ SameOn (fun r => r ≠ some R) s.disk s'.disk ∧
      s'.work = s.work := by
  induction fs generalizing s with
  | nil =>
    cases h
    exact ⟨rfl, hfree, SameOn.refl _ _, rfl⟩
  | cons f fs ih =>
    obtain ⟨_, s₁, hrun, hrest⟩ := bind_eq_ok (show (onStage (Posix.Sys.rename (copyOf R f).1
      (copyOf R f).2) >>= fun _ => fs.forM fun f => onStage (Posix.Sys.rename (copyOf R f).1
        (copyOf R f).2)) s = .ok () s' from h)
    have hf := List.mem_cons_self (a := f) (l := fs)
    obtain ⟨d₁, hmove, rfl⟩ : ∃ d₁, Posix.Sys.rename (inTree R (sidePath "tmp" f)) (inTree R f) s.disk =
        .ok () d₁ ∧ s₁ = { s with disk := d₁ } := by
      cases hren : Posix.Sys.rename (inTree R (sidePath "tmp" f)) (inTree R f) s.disk with
      | error e d₁ =>
        rw [onStage_error (show Posix.Sys.rename (copyOf R f).1 (copyOf R f).2 s.disk = _ from hren)]
          at hrun
        cases hrun
      | ok u d₁ =>
        rw [onStage_ok (show Posix.Sys.rename (copyOf R f).1 (copyOf R f).2 s.disk = _ from hren)]
          at hrun
        cases hrun
        exact ⟨d₁, rfl, rfl⟩
    obtain ⟨hkind₁, hsame₁⟩ := rename_kinds (hchange.ne_nil f hf) (hfree.noLinkAbove (hP f hf)) hmove
    have hfree₁ : LinkFree (Above P) (treeKind R d₁) := by
      rw [hkind₁]
      refine linkFree_moved_tmp hfree (hchange.leaf f hf) fun p hp hle hne => ?_
      obtain ⟨hnolink, _, hcopy⟩ := hover f hf p hp hle hne
      exact ⟨hnolink, hcopy⟩
    have hover₁ : ∀ g ∈ fs, ∀ p, P p → g <+: p → g ≠ p → (∀ l, k g ≠ .symlink l) ∧
        sidePath "tmp" g ∉ fs ∧ treeKind R d₁ (sidePath "tmp" g) = some (k g) := by
      intro g hg p hp hle hne
      have hgc := List.mem_cons_of_mem f hg
      obtain ⟨hnolink, hnot, hcopy⟩ := hover g hgc p hp hle hne
      refine ⟨hnolink, fun hmem => hnot (List.mem_cons_of_mem _ hmem), ?_⟩
      rw [hkind₁, moved_of_not, hcopy]
      · exact hchange.not_tmp_le_tmp sideNames hgc hf (hchange.ne_head hg).symm
      · exact fun hle' => hnot (hchange.eq_tmp sideNames hgc hf hle' ▸ hf)
    obtain ⟨hkind₂, hfree₂, hsame₂, hwork₂⟩ := ih (s := { s with disk := d₁ }) hchange.tail
      (fun g hg => hP g (List.mem_cons_of_mem _ hg)) hover₁ hfree₁ hrest
    refine ⟨?_, hfree₂, hsame₁.trans hsame₂, hwork₂⟩
    rw [hkind₂]
    show afterMoves _ (treeKind R d₁) fs = _
    rw [hkind₁]
    rfl

/-- **The trash of a merge dropped**, once it all is. -/
theorem dropTrash_kinds {ds : List RelPath} (hds : ∀ t ∈ ds, t ≠ [] ∧ P t)
    (hfree : LinkFree (Above P) (treeKind R s.disk))
    (h : ds.forM (fun t => onStage (Io.removeEntry (trashOf R t).1)) s = .ok () s') :
    treeKind R s'.disk = afterDrops (sidePath "trash") (treeKind R s.disk) ds ∧
      LinkFree (Above P) (treeKind R s'.disk) ∧ SameOn (fun r => r ≠ some R) s.disk s'.disk ∧
      s'.work = s.work := by
  induction ds generalizing s with
  | nil =>
    cases h
    exact ⟨rfl, hfree, SameOn.refl _ _, rfl⟩
  | cons t ds ih =>
    obtain ⟨_, s₁, hrun, hrest⟩ := bind_eq_ok (show (onStage (Io.removeEntry (trashOf R t).1) >>=
      fun _ => ds.forM fun t => onStage (Io.removeEntry (trashOf R t).1)) s = .ok () s' from h)
    obtain ⟨hne, hPt⟩ := hds t (List.mem_cons_self ..)
    obtain ⟨d₁, hrem, rfl⟩ : ∃ d₁, Io.removeEntry (inTree R (sidePath "trash" t)) s.disk = .ok () d₁ ∧
        s₁ = { s with disk := d₁ } := by
      cases hrem : Io.removeEntry (trashOf R t).1 s.disk with
      | error e d₁ =>
        rw [onStage_error hrem] at hrun
        cases hrun
      | ok u d₁ =>
        rw [onStage_ok hrem] at hrun
        cases hrun
        exact ⟨d₁, hrem, rfl⟩
    obtain ⟨hkind₁, hsame₁⟩ := removeEntry_kinds hne (hfree.noLinkAbove hPt) hrem
    have hfree₁ : LinkFree (Above P) (treeKind R d₁) := by
      intro a ha l hl
      rw [hkind₁, dropped] at hl
      split at hl
      · cases hl
      · exact hfree a ha l hl
    obtain ⟨hkind₂, hfree₂, hsame₂, hwork₂⟩ := ih (s := { s with disk := d₁ })
      (fun u hu => hds u (List.mem_cons_of_mem _ hu)) hfree₁ hrest
    refine ⟨?_, hfree₂, hsame₁.trans hsame₂, hwork₂⟩
    rw [hkind₂]
    show afterDrops _ (treeKind R d₁) ds = _
    rw [hkind₁]
    rfl

/-- **A merge that goes through** is a change through side names: the deletions staged, the rest
follows. -/
theorem runStaged_kinds {α : Type} {body : Stage α} {w a : α} {s₁ : Staging} {merged : List RelPath}
    (h : Passable R d ts files src k) (hdel : ts.forM (fun t => stageDelete (inTree R t))
      (Staging.start d) = .ok () s₁)
    (hbody : body (Staging.start d) =
      ((files.forM fun f => stageCopy (inTree R) f.1 (src f)) >>= fun _ => pure w) s₁)
    (hok : runStaged body d = .ok (a, merged) d') :
    AllFit .dir (sidePath "tmp") (sidePath "trash") k (afterBins (sidePath "trash") (treeKind R d) ts)
        (files.map Prod.fst) ∧
      treeKind R d' = changedAside .dir (sidePath "tmp") (sidePath "trash") k (treeKind R d) ts
        (files.map Prod.fst) ∧
      LinkFree (Above fun p => p ∈ ts ∨ p ∈ files.map Prod.fst) (treeKind R d') ∧
      SameOn (fun r => r ≠ some R) d d' ∧ a = w ∧ merged = files.map Prod.fst := by
  let P : RelPath → Prop := fun p => p ∈ ts ∨ p ∈ files.map Prod.fst
  have hsides : ∀ tag, tag = "tmp" ∨ tag = "trash" → ∀ q, P q → ∀ p, P p →
      sidePath tag q <+: p → (tag = "tmp" → q ∈ files.map Prod.fst) → sidePath tag q = p := by
    intro tag htag q hq p hp hle htmp
    rcases hp with hp | hp
    · exact h.sides tag htag q hq p hp hle
    · rcases htag with rfl | rfl
      · exact h.change.tmp_below q (htmp rfl) p hp hle
      · exact h.change.trash_below q hq p hp hle
  obtain ⟨s₁', hrun₁, hkind₁, hfree₁, hsame₁, hcopies₁, hmerged₁, hdeletes₁⟩ :=
    stageDeletes_kinds (P := P) (s := Staging.start d) (fun t ht => ⟨h.deletion t ht, Or.inl ht⟩)
      (fun t ht p hp hle => hsides "trash" (Or.inr rfl) t (Or.inl ht) p hp hle (by simp)) h.straight
  rw [hdel] at hrun₁
  cases hrun₁
  have htmp₁ : LinkFree (fun a => ∃ f ∈ files.map Prod.fst, a = sidePath "tmp" f)
      (treeKind R s₁.disk) := by
    rw [hkind₁]
    have main : ∀ (us : List RelPath) (G : Shape String Entry), (∀ t ∈ us, t ∈ ts) →
        LinkFree (fun a => ∃ f ∈ files.map Prod.fst, a = sidePath "tmp" f) G →
        LinkFree (fun a => ∃ f ∈ files.map Prod.fst, a = sidePath "tmp" f)
          (afterBins (sidePath "trash") G us) := by
      intro us
      induction us with
      | nil => exact fun _ _ hG => hG
      | cons t us ih =>
        intro G hus hG
        refine ih _ (fun u hu => hus u (List.mem_cons_of_mem _ hu)) ?_
        rintro a ⟨f, hf, rfl⟩ l hl
        rw [binOne] at hl
        split at hl
        · exact hG _ ⟨f, hf, rfl⟩ l hl
        · rw [moved, if_neg (h.change.not_trash_le_tmp sideNames
            (Or.inl (hus t (List.mem_cons_self ..))) hf)] at hl
          split at hl
          · cases hl
          · exact hG _ ⟨f, hf, rfl⟩ l hl
    exact main ts _ (fun _ ht => ht) h.temporary
  cases hcop : files.forM (fun f => stageCopy (inTree R) f.1 (src f)) s₁ with
  | error e s₂ =>
    rw [bind_error hcop] at hbody
    simp only [runStaged, hbody] at hok
    cases hok
  | ok u s₂ =>
  rw [bind_ok hcop] at hbody
  have hbody₂ : body (Staging.start d) = .ok w s₂ := hbody
  obtain ⟨hfits, hkind₂, hfree₂, hsame₂, hcopies₂, hmerged₂, hdeletes₂⟩ :=
    stageCopies_kinds (d := d) (P := P) hsame₁ h.change
      (fun f hf => Or.inr (List.mem_map_of_mem hf))
      (fun tag htag f hf p hp hle => hsides tag htag f.1 (Or.inr (List.mem_map_of_mem hf)) p hp hle
        fun _ => List.mem_map_of_mem hf) h.source hfree₁ htmp₁ hcop
  rw [hkind₁] at hfits hkind₂ hdeletes₂
  cases hpub : publish s₂ with
  | error e s₃ =>
    simp only [runStaged, hbody₂, hpub] at hok
    cases hok
  | ok u s₃ =>
  simp only [runStaged, hbody₂, hpub] at hok
  cases hok
  rw [publish] at hpub
  obtain ⟨_, s₄, hmoves, hdrops⟩ := bind_eq_ok hpub
  rw [hcopies₂, hcopies₁] at hmoves
  have hmoves' : ((files.map Prod.fst).map (copyOf R)).forM (fun c =>
      onStage (Posix.Sys.rename c.1 c.2)) s₂ = .ok () s₄ := hmoves
  rw [forM_map_apply] at hmoves'
  have htmp₂ : ∀ f ∈ files.map Prod.fst, treeKind R s₂.disk (sidePath "tmp" f) = some (k f) := by
    intro f hf
    rw [hkind₂]
    exact afterCopies_tmp sideNames h.change hfits hf
  obtain ⟨hkind₄, hfree₄, hsame₄, hwork₄⟩ := moveCopies_kinds (P := P) h.change
    (fun f hf => Or.inr hf)
    (fun f hf p hp hle hne => by
      rcases hp with hp | hp
      · obtain ⟨hnolink, hnot⟩ := h.linkOver p hp f hf hle hne
        exact ⟨hnolink, hnot, htmp₂ f hf⟩
      · exact absurd (h.change.apart hf hp hle) hne) hfree₂ hmoves'
  rw [hdeletes₂, hdeletes₁] at hdrops
  have hdrops' : ((bins (sidePath "trash") (treeKind R d) ts ++ replaced .dir (sidePath "tmp")
      (sidePath "trash") k (afterBins (sidePath "trash") (treeKind R d) ts)
        (files.map Prod.fst)).map (trashOf R)).forM (fun t => onStage (Io.removeEntry t.1)) s₄ =
        .ok () s₃ := by
    rw [List.map_append]
    exact hdrops
  rw [forM_map_apply] at hdrops'
  obtain ⟨hkind₃, hfree₃, hsame₃, hwork₃⟩ := dropTrash_kinds (P := P) (fun t ht => by
      rcases List.mem_append.mp ht with ht | ht
      · have hmem := mem_of_mem_bins ht
        exact ⟨h.deletion t hmem, Or.inl hmem⟩
      · have hmem := mem_of_mem_replaced ht
        exact ⟨h.change.ne_nil t hmem, Or.inr hmem⟩) hfree₄ hdrops'
  refine ⟨hfits, ?_, hfree₃, (hsame₂.trans hsame₄).trans hsame₃, rfl, ?_⟩
  · rw [hkind₃, hkind₄, hkind₂]
    rfl
  · rw [hwork₃, hwork₄, hmerged₂, hmerged₁]
    rfl

end Runs

end BranchFs
