/-
# BranchFs.Merge.Rollback -- what is left of a merge that failed

A merge that fails while it is staged is rolled back by `Drop for StagedMerge`: the copies it knows of are
removed and the trash is moved back, in the order in which it was made. The calls of a commit prepare the
destination in the sense of `Logic.Undo`, and the rollback takes back as described there. So it is known
exactly when the destination is what it was (`rollback_restores_iff`).
-/
import BranchFs.Logic.Undo
import BranchFs.Merge.Aside
import BranchFs.Model.Torn

namespace BranchFs

open BranchFs.Posix BranchFs.Logic

/-! ## The names of a merge -/

/-- A trash name without what makes it one. -/
def homeName (n : String) : String :=
  if startsWith n ".branchfs-trash." then String.ofList (n.toList.drop 16) else n

theorem homeName_of_plain {n : String} (h : isSideName n = false) : homeName n = n := by
  rw [isSideName, Bool.or_eq_false_iff] at h
  rw [homeName, if_neg (by simp [h.2])]

theorem homeName_trash (n : String) : homeName (sideName "trash" n) = n := by
  have hlist : (sideName "trash" n).toList = ".branchfs-trash.".toList ++ n.toList := by
    simp [sideName, String.toList_append]
  have hstarts : startsWith (sideName "trash" n) ".branchfs-trash." = true := by
    simp [startsWith, hlist]
  rw [homeName, if_pos hstarts, hlist]
  exact String.ofList_toList

theorem sidePath_append (tag : String) (a : RelPath) {r : RelPath} (hr : r ≠ []) :
    sidePath tag (a ++ r) = a ++ sidePath tag r := by
  rw [sidePath, sidePath, List.dropLast_append_of_ne_nil hr, List.append_assoc]
  congr 3
  rw [List.getLastD_eq_getLast?, List.getLastD_eq_getLast?, List.getLast?_append_of_ne_nil _ hr]

/-- **The side names of a merge are reserved**: no plain path has one on its way. -/
theorem reservedNames :
    Reserved (sidePath "tmp") (sidePath "trash") (List.map homeName) PlainPath where
  toSideNames := sideNames
  plain_mono := fun hq ha => hq.mono ha
  tmp_off := not_plain_of_side (Or.inl rfl)
  trash_off := not_plain_of_side (Or.inr rfl)
  trash_inj := sidePath_inj
  trash_append := sidePath_append "trash"
  home_plain := fun hq => (List.map_congr_left fun n hn => homeName_of_plain (hq n hn)).trans (List.map_id' _)
  home_trash := by
    intro t ht htn r
    have hlast : homeName (t.getLastD "") = t.getLastD "" := by
      refine homeName_of_plain (ht _ ?_)
      rw [← dropLast_getLastD htn]
      simp
    conv_rhs => rw [← dropLast_getLastD htn]
    simp only [sidePath, List.map_append, List.map_cons, List.map_nil, homeName_trash, hlast]

/-! ## The rollback -/

section Rollback

variable {R : Root} {d d' : Tree} {G₀ G : Shape String Entry} {ds ms fs known us vs : List RelPath}
variable {f p t : RelPath} {s : Staging}

/-- A tree as a merge holds it while it prepares: `Held` with the names of a merge. -/
abbrev Preparing (d : Tree) (R : Root) (G : Shape String Entry) (ds ms fs : List RelPath) : Prop :=
  Held .dir (sidePath "tmp") (sidePath "trash") (List.map homeName) PlainPath (treeKind R d) G ds ms fs

theorem closed_treeKind (R : Root) (d : Tree) : Closed .dir (treeKind R d) where
  root := Disk.kindAt_root d rfl
  above := fun h ha hne => Disk.dir_above h (inTree_le.mpr ha) (inTree_ne.mpr hne)

/-- No link comes to stand on the way to a plain path. -/
theorem noLinkAbove_of_preparing (h : Preparing d R (treeKind R d') ds ms fs) (hp : PlainPath p)
    (hlink : d.NoLinkAbove (inTree R p)) : d'.NoLinkAbove (inTree R p) := by
  refine hlink.of_le fun x hx hne hl => ?_
  obtain ⟨a, ha, rfl⟩ := le_inTree.mp hx
  obtain ⟨l, hk⟩ := Disk.linkAt_iff.mp hl
  have hplain : treeKind R d' a = _ := h.plain a (hp.mono ha)
  have hk' : treeKind R d' a = some (.symlink l) := hk
  rw [hplain] at hk'
  split at hk'
  · cases hk'
  · split at hk'
    · cases hk'
    · exact Disk.linkAt_iff.mpr ⟨l, hk'⟩

theorem children_nil_iff {d : Tree} (p : RelPath) : d.children (inTree R p) = [] ↔
    ∀ x, p <+: x → x ≠ p → treeKind R d x = none := by
  constructor
  · rintro hnil x ⟨r, rfl⟩ hne
    cases r with
    | nil => exact absurd (List.append_nil p) hne
    | cons n r =>
      by_contra hk
      have hchild : d.kindAt ((inTree R p).child n) ≠ none := by
        refine fun hnone => hk (Disk.none_of_le hnone ?_)
        exact inTree_le.mpr (by simp : p ++ [n] <+: p ++ n :: r)
      rw [← Disk.mem_children, hnil] at hchild
      cases hchild
  · intro h
    refine List.eq_nil_iff_forall_not_mem.mpr fun n hn => Disk.mem_children.mp hn ?_
    exact h (p ++ [n]) (List.prefix_append _ _) (by simp)

/-- When the trash of an entry can be moved back. -/
theorem rename_back_iff (hp : d.kindAt (inTree R t).parent = some .dir) :
    (∃ k, d.kindAt (inTree R (sidePath "trash" t)) = some k ∧ Posix.Sys.Fits d k (inTree R t)) ↔
      CanMove .dir (treeKind R d) (sidePath "trash" t) t := by
  constructor
  · rintro ⟨k, hk, hfit⟩
    have hk' : treeKind R d (sidePath "trash" t) = some k := hk
    refine ⟨by simp [hk'], hp, fun hdir => ?_, fun hleaf => ?_, (children_nil_iff t).mp hfit.empty⟩
    · exact hfit.dir (by simpa [hk'] using hdir)
    · exact hfit.other (by simpa [hk'] using hleaf)
  · intro h
    obtain ⟨k, hk⟩ := Option.ne_none_iff_exists'.mp h.source
    refine ⟨k, hk, fun hdir => h.ofDir (by rw [hk, hdir]), fun hleaf => h.ofLeaf ?_,
      (children_nil_iff t).mpr h.empty⟩
    rw [hk]
    simpa using hleaf

/-- One entry of the trash moved back, or left where it is. -/
theorem putBack_kinds (hne : t ≠ []) (hlink : d.NoLinkAbove (inTree R t)) :
    treeKind R (after (Posix.Sys.rename (inTree R (sidePath "trash" t)) (inTree R t)) d) =
      putBack .dir (sidePath "trash") (treeKind R d) t := by
  have hside : d.NoLinkAbove (inTree R (sidePath "trash" t)) := noLinkAbove_side hne hlink
  have hparent : (inTree R (sidePath "trash" t)).parent = (inTree R t).parent := by
    rw [inTree_parent, inTree_parent, sidePath_dropLast]
  have hroot : ∀ p, (inTree R p).root = some R := fun _ => rfl
  -- `drop` ignores the result, so a rename that fails leaves the entry in the trash
  rcases Posix.Sys.rename_cases (hroot _) (hroot _) hside hlink with
    ⟨e, he⟩ | ⟨heq, -⟩ | ⟨d₁, k, hk, hfit, hnot, hshift, hrun⟩
  · rw [putBack, if_neg, after_error he]
    intro hcan
    have hp : d.kindAt (inTree R t).parent = some .dir := hcan.parent
    obtain ⟨k, hk, hfit⟩ := (rename_back_iff hp).mpr hcan
    obtain ⟨d₁, hok, -⟩ := Posix.Sys.rename_ok (hroot _) (hroot _) hk hp (sidePath_ne_nil _ _) hne
      (fun hle => not_side_le_self "trash" hne (inTree_le.mp hle)) hfit
    cases he.symm.trans hok
  · exact absurd (congrArg Loc.path heq) (sidePath_ne "trash" t)
  · have hp : d.kindAt (inTree R t).parent = some .dir := by
      rw [← hparent]
      exact Disk.dir_parent (by simp [hk])
    rw [putBack, if_pos ((rename_back_iff hp).mp ⟨k, hk, hfit⟩), after_ok hrun]
    refine treeKind_moved (Disk.kindAt_shift hshift fun hle => ?_)
    exact not_self_le_side "trash" hne (inTree_le.mp hle)

/-- One copy removed from under its temporary name. -/
theorem dropTmp_kinds (hdir : d.kindAt (inTree R f.dropLast) = some .dir) :
    treeKind R (after (Io.removeEntry (inTree R (sidePath "tmp" f))) d) =
      dropped (treeKind R d) (sidePath "tmp" f) := by
  have hp : d.kindAt (inTree R (sidePath "tmp" f)).parent = some .dir := by
    rw [inTree_parent, sidePath_dropLast, hdir]
  obtain ⟨d₁, hrun, hkind, -⟩ := removeEntry_clears (d := d) rfl (sidePath_ne_nil "tmp" f) hp
  rw [after_ok hrun]
  funext q
  rw [treeKind, hkind, dropped]
  exact if_congr inTree_le rfl rfl

section

variable (h : Preparing d R (treeKind R d') ds ms fs)
include h

/-- The copies a rollback knows of are removed. -/
theorem dropTmps_kinds (hknown : ∀ f ∈ known, f ∈ fs) :
    ∃ e, ((known.map (copyOf R)).forM fun c => do
        let _ ← attempt (Io.removeEntry c.1) : Io Unit) d' = .ok () e ∧
      treeKind R e = afterDropped (sidePath "tmp") (treeKind R d') known := by
  rw [forM_map_apply]
  refine forM_ok (I := fun done e => treeKind R e = afterDropped (sidePath "tmp") (treeKind R d') done)
    rfl fun done f rest e hsplit hkind => ?_
  have hf : f ∈ known := by simp [hsplit]
  obtain ⟨hfp, -, hmade, -⟩ := h.copies f (hknown f hf)
  have hdir : e.kindAt (inTree R f.dropLast) = some .dir := by
    show treeKind R e f.dropLast = _
    have hplain := hfp.mono (List.dropLast_prefix f)
    rw [hkind, reservedNames.afterDropped_plain done _ hplain, h.plain _ hplain,
      if_pos ⟨_, hmade, List.prefix_rfl⟩]
  obtain ⟨r, hr⟩ := attempt_after (Io.removeEntry (inTree R (sidePath "tmp" f))) e
  refine ⟨_, bind_ok hr, ?_⟩
  rw [dropTmp_kinds hdir, hkind, afterDropped, afterDropped, List.foldl_append]
  rfl

/-- The trash is moved back, entry by entry. -/
theorem putBacks_kinds {e : Tree}
    (hkind : treeKind R e = afterDropped (sidePath "tmp") (treeKind R d') known)
    (hlinks : ∀ t ∈ ds, d'.NoLinkAbove (inTree R t)) :
    ∃ e', ((ds.map (trashOf R)).forM fun t => do
        let _ ← attempt (Posix.Sys.rename t.1 t.2) : Io Unit) e = .ok () e' ∧
      treeKind R e' = afterPutBack .dir (sidePath "trash") (treeKind R e) ds := by
  rw [forM_map_apply]
  refine forM_ok (I := fun done e' => treeKind R e' =
    afterPutBack .dir (sidePath "trash") (treeKind R e) done) rfl fun done t rest e' hsplit hback => ?_
  have ht : t ∈ ds := by simp [hsplit]
  obtain ⟨htp, htn, -⟩ := h.binned t ht
  -- what was put back before is not on the way
  have hlink : e'.NoLinkAbove (inTree R t) := by
    refine (hlinks t ht).of_le fun x hx hne hl => ?_
    obtain ⟨a, ha, rfl⟩ := le_inTree.mp hx
    have hap := htp.mono ha
    have hsame : treeKind R e' a = treeKind R d' a := by
      rw [hback, afterPutBack_of_not fun w hw => ⟨fun hle => ?_, fun hle => ?_⟩, hkind,
        reservedNames.afterDropped_plain known _ hap]
      · exact h.not_above_later reservedNames hsplit.symm hw (hle.trans ha)
      · exact not_plain_of_side (Or.inr rfl) hle hap
    unfold treeKind at hsame
    unfold Disk.linkAt at hl ⊢
    rwa [← hsame]
  obtain ⟨r, hr⟩ := attempt_after
    (Posix.Sys.rename (inTree R (sidePath "trash" t)) (inTree R t)) e'
  refine ⟨_, bind_ok hr, ?_⟩
  rw [putBack_kinds htn hlink, hback, afterPutBack_append]
  rfl

end

/-- **What a rollback does to the destination.** -/
theorem rollback_kinds (h : Preparing d R (treeKind R s.disk) ds ms fs) (hknown : ∀ f ∈ known, f ∈ fs)
    (hcopies : s.work.copies = known.map (copyOf R)) (hdeletes : s.work.deletes = ds.map (trashOf R))
    (hlinks : ∀ t ∈ ds, d.NoLinkAbove (inTree R t)) :
    treeKind R (rollback s) =
      undone .dir (sidePath "tmp") (sidePath "trash") (treeKind R s.disk) known ds := by
  obtain ⟨e, hdrop, hkind⟩ := dropTmps_kinds h hknown
  obtain ⟨e', hback, hkind'⟩ := putBacks_kinds h hkind fun t ht =>
    noLinkAbove_of_preparing h (h.binned t ht).1 (hlinks t ht)
  rw [rollback, hcopies, hdeletes, after_bind_ok hdrop, after_ok hback, hkind', hkind]
  rfl

end Rollback

/-! ## The calls of a commit -/

/-- What a commit stages: deletions and copies of plain paths with no link on the way, the copies apart
from each other, each from a file or link elsewhere. No name of the destination is a side name. -/
structure Stageable (R : Root) (d : Tree) (k : RelPath → Entry) (ts : List RelPath)
    (files : List (RelPath × Place)) : Prop where
  deletions : ∀ t ∈ ts, SessionPath t ∧ d.NoLinkAbove (inTree R t)
  copies : ∀ f ∈ files, SessionPath f.1 ∧ d.NoLinkAbove (inTree R f.1) ∧ Source R d f.2 (k f.1)
  apart : (files.map Prod.fst).Pairwise fun f g => ¬ f <+: g ∧ ¬ g <+: f
  plain : ∀ x, d.kindAt (inTree R x) ≠ none → PlainPath x

/-- A call that comes after others of its commit: deletions come before copies. -/
def Follows (R : Root) (d : Tree) (k : RelPath → Entry) (ts : List RelPath)
    (files : List (RelPath × Place)) : StageStep → Prop
  | .delete t => files = [] ∧ Stageable R d k (ts ++ [t]) []
  | .copy f src => Stageable R d k ts (files ++ [(f, src)])

section Staging

variable {R : Root} {d : Tree} {k : RelPath → Entry} {ts fs : List RelPath}
variable {files : List (RelPath × Place)} {f t : RelPath} {src : Place} {s s' : Staging}

/-- A destination in which some calls were made: what `Staged` says, and prepared in the sense of the
library. -/
structure StagedBy (R : Root) (d : Tree) (k : RelPath → Entry) (ts fs : List RelPath) (s : Staging) :
    Prop where
  staged : Staged R d ts fs (fun f => some (k f)) s
  prepared : Prepared .dir (sidePath "tmp") (sidePath "trash") PlainPath (treeKind R d)
    (treeKind R s.disk) (recorded d R ts fs) (fs.map List.dropLast) fs
  opens : ∀ f ∈ fs, Open d R ts f

theorem StagedBy.preparing (h : StagedBy R d k ts fs s)
    (hfree : ∀ x, d.kindAt (inTree R x) ≠ none → PlainPath x) :
    Preparing d R (treeKind R s.disk) (recorded d R ts fs) (fs.map List.dropLast) fs :=
  h.prepared.held reservedNames hfree

theorem StagedBy.start (R : Root) (d : Tree) (k : RelPath → Entry) :
    StagedBy R d k [] [] (Staging.start d) where
  staged := Staged.start R d _
  prepared := .start
  opens := by simp

theorem recorded_delete (d : Tree) (R : Root) (ts : List RelPath) (t : RelPath) :
    recorded d R (ts ++ [t]) [] =
      recorded d R ts [] ++ if cutKind d R ts t = none then [] else [t] := by
  simp [recorded, trashed_append]

theorem recorded_copy (d : Tree) (R : Root) (ts fs : List RelPath) (f : RelPath) :
    recorded d R ts (fs ++ [f]) =
      recorded d R ts fs ++ if cutKind d R ts f = some .dir then [f] else [] := by
  unfold recorded
  rw [List.filter_append, List.append_assoc]
  congr 1
  by_cases hdir : cutKind d R ts f = some .dir <;> simp [hdir]

/-- What is staged leaves the sources alone. -/
theorem Source.of_same {d' : Tree} {kf : Entry} (h : Source R d src kf)
    (hd : SameOn (fun r => r ≠ some R) d d') : Source R d' src kf := by
  obtain ⟨r, hr, hne⟩ := h.root
  refine ⟨⟨r, hr, hne⟩, ?_, h.leaf⟩
  rw [hd.kindAt, h.kind]
  rw [hr]
  simpa using hne

/-- One deletion more. -/
theorem StagedBy.delete (h : StagedBy R d k ts [] s) (ht : SessionPath t)
    (hlink : d.NoLinkAbove (inTree R t))
    (hfree : ∀ x, d.kindAt (inTree R x) ≠ none → PlainPath x) :
    ∃ s', stageDelete (inTree R t) s = .ok () s' ∧ StagedBy R d k (ts ++ [t]) [] s' := by
  obtain ⟨s', hrun, hstaged⟩ := h.staged.delete ht hlink
  obtain ⟨s'', hrun', hkind, -⟩ := stageDelete_kinds ht.ne_nil
    (noLinkAbove_of_preparing (h.preparing hfree) ht.plain hlink)
  obtain rfl : s' = s'' := by
    cases hrun.symm.trans hrun'
    rfl
  refine ⟨s', hrun, hstaged, ?_, by simp⟩
  have hcut : treeKind R s.disk t = cutKind d R ts t := by
    show s.disk.kindAt _ = _
    rw [h.staged.plain t ht.plain, midKind_nil]
  rw [hkind, binOne, recorded_delete]
  by_cases hnone : cutKind d R ts t = none
  · rw [if_pos (hcut.trans hnone), if_pos hnone, List.append_nil]
    exact h.prepared
  · rw [if_neg (hcut ▸ hnone), if_neg hnone]
    exact .bin h.prepared ht.plain ht.ne_nil (hcut ▸ hnone) (by simp)

/-- What is set aside was not on the way. -/
theorem setAside_above {G : Shape String Entry} (hfn : f ≠ []) {a : RelPath} (ha : a <+: f)
    (hne : a ≠ f) : setAside .dir (sidePath "trash") G f a = G a :=
  setAside_eq fun _ => ⟨fun hle => hne (ha.eq_of_length_le hle.length_le),
    fun hle => not_side_le_self "trash" hfn (hle.trans ha)⟩

/-- Where all names are plain, a temporary name is free. -/
theorem tmp_free (hfree : ∀ x, d.kindAt (inTree R x) ≠ none → PlainPath x) (f : RelPath) :
    d.kindAt (inTree R (sidePath "tmp" f)) = none := by
  by_contra hk
  exact not_plain_of_side (Or.inl rfl) List.prefix_rfl (hfree _ hk)

/-- A copy apart from others is not above the directories made for them. -/
theorem Apart.not_above_made (h : Apart fs f) {g : RelPath} (hg : g ∈ fs.map List.dropLast) :
    ¬ f <+: g := by
  obtain ⟨g', hg', rfl⟩ := List.mem_map.mp hg
  exact fun hle => (h g' hg').2 (hle.trans (List.dropLast_prefix g'))

section Copy

variable (h : StagedBy R d k ts fs s) (hf : SessionPath f) (hapart : Apart fs f)
include h hf hapart

theorem StagedBy.kind_of_apart : treeKind R s.disk f = cutKind d R ts f := by
  show s.disk.kindAt _ = _
  rw [h.staged.plain f hf.plain, midKind_of_apart hapart]

/-- On the way to a copy stands what stood there, where it is open. -/
theorem StagedBy.way_iff {a : RelPath} (ha : a <+: f) :
    (treeKind R s.disk a = none ∨ treeKind R s.disk a = some .dir) ↔
      cutKind d R ts a = none ∨ cutKind d R ts a = some .dir := by
  have hplain : treeKind R s.disk a = midKind d R ts fs a := h.staged.plain a (hf.plain.mono ha)
  by_cases hmade : ∃ g ∈ fs, a <+: g ∧ a ≠ g
  · obtain ⟨g, hg, hag, hagne⟩ := hmade
    refine ⟨fun _ => h.opens g hg a hag hagne, fun _ => Or.inr ?_⟩
    rw [hplain, midKind, if_pos ⟨g, hg, hag, hagne⟩]
  · rw [hplain, midKind, if_neg hmade, if_neg]
    rintro ⟨g, hg, hle, -⟩
    exact (hapart g hg).1 (hle.trans ha)

/-- Setting aside a directory in the place of a copy. -/
theorem StagedBy.setAside {tmpKind : Shape String Entry}
    (hset : tmpKind = Logic.setAside .dir (sidePath "trash") (treeKind R s.disk) f) :
    Prepared .dir (sidePath "tmp") (sidePath "trash") PlainPath (treeKind R d) tmpKind
      (recorded d R ts (fs ++ [f])) (fs.map List.dropLast) fs := by
  have hself := h.kind_of_apart hf hapart
  rw [hset, Logic.setAside, recorded_copy]
  by_cases hdir : cutKind d R ts f = some .dir
  · rw [if_pos (hself.trans hdir), if_pos hdir]
    exact .bin h.prepared hf.plain hf.ne_nil (by simp [hself, hdir]) fun g hg => hapart.not_above_made hg
  · rw [if_neg (hself ▸ hdir), if_neg hdir, List.append_nil]
    exact h.prepared

/-- One copy more, where it was made. -/
theorem StagedBy.copy (hfs : ∀ g ∈ fs, SessionPath g) (hlink : d.NoLinkAbove (inTree R f))
    (hsrc : Source R d src (k f)) (hfree : ∀ x, d.kindAt (inTree R x) ≠ none → PlainPath x)
    (hrun : stageCopy (inTree R) f src s = .ok () s') : StagedBy R d k ts (fs ++ [f]) s' := by
  have hfreeTmp := tmp_free hfree f
  have hnot : f ∉ fs := fun hmem => (hapart f hmem).1 List.prefix_rfl
  have htmp : s.disk.linkAt (inTree R (sidePath "tmp" f)) = false :=
    Disk.linkAt_of_none (h.staged.free f hf hnot hfreeTmp)
  have hsrc' : Source R s.disk src (k f) := hsrc.of_same h.staged.same
  obtain ⟨⟨-, hway⟩, hkind, -⟩ := stageCopy_kinds (k := k) hf.ne_nil
    (noLinkAbove_of_preparing (h.preparing hfree) hf.plain hlink) htmp hsrc' hrun
  have hprep := h.setAside hf hapart rfl
  have hopen : Open d R ts f := by
    intro a ha hne
    have hfits := hway a ha hne
    rw [setAside_above hf.ne_nil ha hne] at hfits
    exact (h.way_iff hf hapart ha).mp hfits
  obtain ⟨s'', hrun', hstaged⟩ := h.staged.copy hf hapart hfs hopen hfreeTmp hsrc rfl
  obtain rfl : s' = s'' := by
    cases hrun.symm.trans hrun'
    rfl
  refine ⟨hstaged, ?_, ?_⟩
  · rw [hkind, copyOne, planted_eq_put, sidePath_dropLast, List.map_append]
    refine .leaf (.dirs hprep (hf.plain.mono (List.dropLast_prefix f)) fun a ha => ?_) hf.plain hf.ne_nil
      (by simp) hsrc.leaf
    obtain ⟨hle, hne⟩ := (prefix_dropLast_iff hf.ne_nil).mp ha
    exact hway a hle hne
  · intro g hg
    rcases List.mem_append.mp hg with hg | hg
    · exact h.opens g hg
    · rw [List.mem_singleton.mp hg]
      exact hopen

end Copy

end Staging

/-! ## The call that fails -/

/-- The directory a copy of `f` has directories made down to. -/
def dirsDownTo (y : Option StageCall) (f : RelPath) : RelPath :=
  match y.bind StageCall.dirsMade with
  | none => f.dropLast
  | some made => f.dropLast.take made

/-- What the call that fails leaves: the entry in the trash, the directories made, the copy nothing knows
of. -/
structure TornCall where
  binned : List RelPath
  made : List RelPath
  copies : List RelPath

/-- Nothing but directories is on the way down to `g`, the deletions made. -/
def wayOpen (d : Tree) (R : Root) (ts : List RelPath) (g : RelPath) : Bool :=
  g.inits.all fun a => cutKind d R ts a == none || cutKind d R ts a == some .dir

/-- The copy fails with some of the bytes written. -/
def tearsFile (d : Tree) (y : Option StageCall) (src : Place) : Bool :=
  (y.bind StageCall.copied).join.isSome && (d.kindAt src).any Kind.isFile

def tornCall (d : Tree) (R : Root) (ts : List RelPath) (y : Option StageCall) : StageStep → TornCall
  | .delete _ => ⟨[], [], []⟩
  | .copy f src =>
    if cutKind d R ts f = some .dir ∧ y = some .aside then ⟨[], [], []⟩
    else
      -- a directory set aside for the copy is known to the rollback, the torn copy is not
      let binned := if cutKind d R ts f = some .dir then [f] else []
      if wayOpen d R ts (dirsDownTo y f) then
        ⟨binned, [dirsDownTo y f], if tearsFile d y src then [f] else []⟩
      else ⟨binned, [], []⟩

section Torn

variable {R : Root} {d d' : Tree} {k : RelPath → Entry} {ts fs : List RelPath} {f g t : RelPath}
variable {src : Place} {s s' : Staging} {y : Option StageCall} {e : Errno}

theorem wayOpen_iff : wayOpen d R ts g = true ↔
    ∀ a, a <+: g → cutKind d R ts a = none ∨ cutKind d R ts a = some .dir := by
  simp [wayOpen, List.mem_inits]

/-- Making directories: all of them where nothing else is in the way, else none. -/
theorem createDirAll_kinds (hlink : d.NoLinkAbove (inTree R g)) (hself : d.linkAt (inTree R g) = false) :
    ((∀ a, a <+: g → treeKind R d a = none ∨ treeKind R d a = some .dir) ∧
      ∃ d', Posix.Sys.createDirAll (inTree R g) d = .ok () d' ∧
        treeKind R d' = dirsTo .dir (treeKind R d) g ∧ SameOn (fun r => r ≠ some R) d d') ∨
    ((¬ ∀ a, a <+: g → treeKind R d a = none ∨ treeKind R d a = some .dir) ∧
      ∃ e, Posix.Sys.createDirAll (inTree R g) d = .error e d) := by
  by_cases hopen : ∀ a, a <+: g → treeKind R d a = none ∨ treeKind R d a = some .dir
  · have hnofile : ∀ x, x ≤ inTree R g → d.fileAt x = false := by
      intro x hx
      obtain ⟨a, ha, rfl⟩ := le_inTree.mp hx
      have hk : d.kindAt (inTree R a) = none ∨ d.kindAt (inTree R a) = some .dir := hopen a ha
      rcases hk with hk | hk <;> simp [Disk.fileAt, hk, Kind.isFile]
    have habove : d.fileAbove (inTree R g) = false := by
      rw [← Bool.not_eq_true, Disk.fileAbove_iff]
      rintro ⟨x, hx, -, hfile⟩
      rw [hnofile x hx] at hfile
      cases hfile
    obtain ⟨d', hok, hmade⟩ :=
      Posix.Sys.createDirAll_ok (r := R) rfl hlink hself habove (hnofile _ (le_refl _))
    refine Or.inl ⟨hopen, d', hok, ?_, hmade.same⟩
    funext x
    rw [treeKind, hmade.kind, dirsTo]
    exact if_congr inTree_le rfl rfl
  · refine Or.inr ⟨hopen, Posix.Sys.createDirAll_blocked (r := R) rfl hlink hself ?_⟩
    push Not at hopen
    obtain ⟨a, ha, hsome, hnotdir⟩ := hopen
    have hle : inTree R a ≤ inTree R g := inTree_le.mpr ha
    have hnolink : d.linkAt (inTree R a) = false := by
      by_cases heq : a = g
      · rw [heq, hself]
      · exact hlink.not_link hle (inTree_ne.mpr heq)
    have hfile : d.fileAt (inTree R a) = true := by
      by_contra hno
      rcases Disk.dir_or_none (by simpa using hno) hnolink with hk | hk
      · exact hnotdir hk
      · exact hsome hk
    by_cases heq : a = g
    · exact Or.inr (heq ▸ hfile)
    · exact Or.inl (Disk.fileAbove_iff.mpr ⟨_, hle, inTree_ne.mpr heq, hfile⟩)

/-- What a failing copy of bytes leaves at its destination: nothing, or a file. -/
theorem copyNode_torn {dst : Place} {n : Node String} {kd : Entry} (hdst : dst.root = some R)
    (hp : d.kindAt dst.parent = some .dir) (hfree : d.kindAt dst = none) (hsrc : d.lstat src = .ok n)
    (hkind : n.kind = kd) (hleaf : kd ≠ .dir) (h : Halts.copyNode y src dst n d = .error e d') :
    (((y.bind StageCall.copied).join.isSome = true ∧ kd.isFile = true) ∧
      ∃ b, ∀ x, d'.kindAt x = if x = dst then some (.file b) else d.kindAt x) ∨
    (¬ ((y.bind StageCall.copied).join.isSome = true ∧ kd.isFile = true) ∧ d' = d) := by
  subst hkind
  unfold Halts.copyNode at h
  cases hk : n.kind with
  | dir => exact absurd hk hleaf
  | symlink l =>
    right
    simp only [hk] at h
    obtain ⟨er, her⟩ := Posix.Sys.removeFile_other hdst (Disk.noLinkAbove_of_dir hp) (Or.inl hfree)
    have hattempt : attempt (Posix.Sys.removeFile dst) d = .ok (.error er) d := by
      simp only [attempt, her]
    rw [bind_ok hattempt] at h
    refine ⟨by simp [Kind.isFile], ?_⟩
    by_cases hfails : (y.bind StageCall.copied).isSome = true
    · rw [bind_error (failIf_error hfails _ _)] at h
      cases h
      rfl
    · obtain ⟨d₁, hok, -⟩ := Posix.Sys.symlink_of_free (t := l) hdst hp hfree
      rw [bind_ok (failIf_ok hfails _ _), hok] at h
      cases h
  | file b =>
    simp only [hk] at h
    have hst : d.stat src = .ok n := Disk.stat_of_lstat hsrc (by simp [hk, Kind.isSymlink])
    unfold Faulty.copyFile at h
    cases hcopied : y.bind StageCall.copied with
    | none =>
      -- nothing fails here
      rw [hcopied] at h
      obtain ⟨d₁, hok, -⟩ := Posix.Sys.copyFile_ok hdst hst hk hp (Or.inl hfree)
      cases hok.symm.trans h
    | some made =>
      cases made with
      | none =>
        rw [hcopied] at h
        cases h
        exact Or.inr ⟨by simp, rfl⟩
      | some count =>
        rw [hcopied] at h
        have hread : Posix.Sys.readFile src d = .ok b d := by
          simp only [Posix.Sys.readFile, hst, hk]
        obtain ⟨d₁, hput⟩ := Disk.putFile_ok d (b.take count) none hp (Or.inl hfree)
        have hwrite : Posix.Sys.writeFile dst (b.take count) d = .ok () d₁ := by
          rw [Posix.Sys.writeFile, Posix.Sys.followed_of_dir hdst hp (Disk.linkAt_of_none hfree),
            Posix.Sys.putFileAt, hput]
        simp only [bind_ok hread, bind_ok hwrite] at h
        cases h
        exact Or.inl ⟨⟨by simp, by simp [Kind.isFile]⟩, b.take count, Disk.kindAt_putFile hput⟩

/-- The way down to the directories of a copy is free of links, if the way to the copy is. -/
theorem noLink_dirsDownTo (hfn : f ≠ []) (hlink : d.NoLinkAbove (inTree R f)) :
    dirsDownTo y f <+: f.dropLast ∧ d.NoLinkAbove (inTree R (dirsDownTo y f)) ∧
      d.linkAt (inTree R (dirsDownTo y f)) = false := by
  have hle : dirsDownTo y f <+: f.dropLast := by
    unfold dirsDownTo
    split
    · exact List.prefix_rfl
    · exact List.take_prefix _ _
  obtain ⟨hlf, hne⟩ := (prefix_dropLast_iff hfn).mp hle
  exact ⟨hle, hlink.mono (inTree_le.mpr hlf), hlink.not_link (inTree_le.mpr hlf) (inTree_ne.mpr hne)⟩

/-- The directories of a copy are made, with a failure or without. -/
theorem ensureParentDirs_torn (f : RelPath) (d : Tree) :
    Halts.ensureParentDirs y (inTree R (sidePath "tmp" f)) d =
      match Posix.Sys.createDirAll (inTree R (dirsDownTo y f)) d with
      | .error e d' => .error e d'
      | .ok _ d' => if (y.bind StageCall.dirsMade).isSome then .error Errno.EIO d' else .ok () d' := by
  unfold Halts.ensureParentDirs dirsDownTo
  cases hmade : y.bind StageCall.dirsMade with
  | none =>
    simp only [Io.ensureParentDirs, inTree_parent, sidePath_dropLast]
    cases Posix.Sys.createDirAll (inTree R f.dropLast) d <;> rfl
  | some made =>
    have hplace : ({ (inTree R (sidePath "tmp" f)).parent with
        path := (inTree R (sidePath "tmp" f)).parent.path.take made } : Place) =
        inTree R (f.dropLast.take made) := by
      rw [inTree_parent, sidePath_dropLast]
      rfl
    simp only [hplace]
    cases hrun : Posix.Sys.createDirAll (inTree R (f.dropLast.take made)) d with
    | error e d' => rw [bind_error hrun]
    | ok u d' =>
      rw [bind_ok hrun]
      rfl

/-- **What a failing copy leaves**: the directories down to where it got, where nothing else was in the
way, and a torn file where some bytes were written. -/
theorem copyEntry_torn {kf : Entry} (hfn : f ≠ []) (hlink : d.NoLinkAbove (inTree R f))
    (hfree : d.kindAt (inTree R (sidePath "tmp" f)) = none) (hsrc : Source R d src kf)
    (h : Halts.copyEntry y src (inTree R (sidePath "tmp" f)) d = .error e d') :
    ((∀ a, a <+: dirsDownTo y f → treeKind R d a = none ∨ treeKind R d a = some .dir) ∧
      ((((y.bind StageCall.copied).join.isSome = true ∧ kf.isFile = true) ∧
          dirsDownTo y f = f.dropLast ∧ ∃ b, treeKind R d' =
            put (dirsTo .dir (treeKind R d) (dirsDownTo y f)) (sidePath "tmp" f) (.file b)) ∨
        (¬ ((y.bind StageCall.copied).join.isSome = true ∧ kf.isFile = true) ∧
          treeKind R d' = dirsTo .dir (treeKind R d) (dirsDownTo y f)))) ∨
    ((¬ ∀ a, a <+: dirsDownTo y f → treeKind R d a = none ∨ treeKind R d a = some .dir) ∧ d' = d) := by
  obtain ⟨hle, hway, hself⟩ := noLink_dirsDownTo (y := y) hfn hlink
  unfold Halts.copyEntry at h
  rcases createDirAll_kinds hway hself with ⟨hopen, d₁, hmade, hkind, hsame⟩ | ⟨hblocked, er, hmade⟩
  · refine Or.inl ⟨hopen, ?_⟩
    have hdirs := ensureParentDirs_torn (y := y) (R := R) f d
    rw [hmade] at hdirs
    by_cases hfails : (y.bind StageCall.dirsMade).isSome = true
    · -- the last directory made is the last thing done
      simp only [hfails, if_true] at hdirs
      rw [bind_error hdirs] at h
      cases h
      refine Or.inr ⟨?_, hkind⟩
      rintro ⟨hcopied, -⟩
      cases y with
      | none => simp at hfails
      | some c =>
        cases c with
        | aside => simp [StageCall.dirsMade] at hfails
        | dirs made => simp [StageCall.copied] at hcopied
        | copy made => simp [StageCall.dirsMade] at hfails
    · have hall : dirsDownTo y f = f.dropLast := by
        unfold dirsDownTo
        rw [Option.not_isSome_iff_eq_none.mp hfails]
      simp only [hfails] at hdirs
      rw [bind_ok hdirs] at h
      obtain ⟨n, hn, hnk⟩ := hsrc.lstat hsame
      have hmeta : Io.symlinkMetadata src d₁ = .ok n d₁ := by simp only [Io.symlinkMetadata, hn]
      rw [bind_ok hmeta] at h
      have hoff : ∀ x, ¬ x <+: dirsDownTo y f → d₁.kindAt (inTree R x) = d.kindAt (inTree R x) := by
        intro x hx
        show treeKind R d₁ x = _
        rw [hkind, dirsTo, if_neg hx]
        rfl
      have hp : d₁.kindAt (inTree R (sidePath "tmp" f)).parent = some .dir := by
        rw [inTree_parent, sidePath_dropLast]
        show treeKind R d₁ f.dropLast = _
        rw [hkind, dirsTo, if_pos (hall ▸ List.prefix_rfl)]
      have hfree₁ : d₁.kindAt (inTree R (sidePath "tmp" f)) = none := by
        rw [hoff _ fun hx => ?_, hfree]
        exact not_le_dropLast (sidePath_dropLast "tmp" f) (sidePath_ne_nil "tmp" f) (hall ▸ hx)
      rcases copyNode_torn (R := R) rfl hp hfree₁ hn hnk hsrc.leaf h with ⟨htears, b, hput⟩ | ⟨hnot, rfl⟩
      · refine Or.inl ⟨htears, hall, b, ?_⟩
        rw [← hkind]
        funext x
        rw [treeKind, hput, put]
        exact if_congr ⟨fun heq => congrArg Loc.path heq, fun heq => heq ▸ rfl⟩ rfl rfl
      · exact Or.inr ⟨hnot, hkind⟩
  · refine Or.inr ⟨hblocked, ?_⟩
    have hdirs := ensureParentDirs_torn (y := y) (R := R) f d
    rw [hmade] at hdirs
    rw [bind_error hdirs] at h
    cases h
    rfl

theorem tornCall_binned (haside : ¬ (cutKind d R ts f = some .dir ∧ y = some .aside)) :
    (tornCall d R ts y (.copy f src)).binned =
      if cutKind d R ts f = some .dir then [f] else [] := by
  simp only [tornCall, if_neg haside]
  split <;> rfl

/-- Where the rename to the trash name fails, the destination and the records stay. -/
theorem stageDelete_aside (hthere : treeKind R s.disk t ≠ none)
    (hlink : s.disk.NoLinkAbove (inTree R t))
    (hfree : treeKind R s.disk (sidePath "trash" t) = none) :
    ∃ d₁, Halts.stageDelete (some .aside) (inTree R t) s = .error Errno.EIO { s with disk := d₁ } ∧
      treeKind R d₁ = treeKind R s.disk := by
  have hex : s.disk.lexists (inTree R t) = true :=
    (Disk.lexists_eq (d := s.disk) (l := inTree R t) rfl hlink).mpr hthere
  have hparent : s.disk.kindAt (inTree R (sidePath "trash" t)).parent = some .dir := by
    rw [inTree_parent, sidePath_dropLast]
    exact Disk.dir_parent hthere
  obtain ⟨d₁, hclear, hkind, -⟩ :=
    removeEntry_clears (d := s.disk) (r := R) rfl (sidePath_ne_nil "trash" t) hparent
  have hattempt : attempt (Io.removeEntry (inTree R (sidePath "trash" t))) s.disk =
      .ok (.ok ()) d₁ := by
    simp only [attempt, hclear]
  refine ⟨d₁, ?_, ?_⟩
  · rw [Halts.stageDelete, readStage_bind, when_true hex, Halts.trashEntry, commitSidePath_inTree,
      bind_ok (onStage_ok hattempt), bind_error (failIf_error rfl _ _)]
  · funext x
    rw [treeKind, hkind, treeKind]
    split
    · next hle => exact (Disk.none_of_le hfree hle).symm
    · rfl

/-- **What the call that fails leaves of the preparation.** -/
theorem StagedBy.torn_copy (h : StagedBy R d k ts fs s) (hf : SessionPath f) (hapart : Apart fs f)
    (hlink : d.NoLinkAbove (inTree R f)) (hsrc : Source R d src (k f))
    (hfree : ∀ x, d.kindAt (inTree R x) ≠ none → PlainPath x)
    (hrun : Halts.stageCopy y (inTree R) f src s = .error e s') :
    Prepared .dir (sidePath "tmp") (sidePath "trash") PlainPath (treeKind R d) (treeKind R s'.disk)
        (recorded d R ts fs ++ (tornCall d R ts y (.copy f src)).binned)
        (fs.map List.dropLast ++ (tornCall d R ts y (.copy f src)).made)
        (fs ++ (tornCall d R ts y (.copy f src)).copies) ∧
      s'.work.copies = fs.map (copyOf R) ∧
      s'.work.deletes =
        (recorded d R ts fs ++ (tornCall d R ts y (.copy f src)).binned).map (trashOf R) := by
  have hprep := h.preparing hfree
  have hself := h.kind_of_apart hf hapart
  have hlink' := noLinkAbove_of_preparing hprep hf.plain hlink
  have hnot : f ∉ fs := fun hmem => (hapart f hmem).1 List.prefix_rfl
  have hfreeTmp : treeKind R s.disk (sidePath "tmp" f) = none :=
    h.staged.free f hf hnot (tmp_free hfree f)
  unfold Halts.stageCopy at hrun
  rw [readStage_bind] at hrun
  by_cases haside : cutKind d R ts f = some .dir ∧ y = some .aside
  · -- the directory in the way is not moved
    obtain ⟨hdir, rfl⟩ := haside
    have hyes := (lkind_isDir_iff hlink').mpr (hself.trans hdir)
    have hthere : treeKind R s.disk f ≠ none := by simp [hself, hdir]
    have hfreeTrash : treeKind R s.disk (sidePath "trash" f) = none :=
      hprep.trash_free reservedNames hf.plain hf.ne_nil hthere (fun g hg => hapart.not_above_made hg)
        List.prefix_rfl
    obtain ⟨d₁, herr, hkind⟩ := stageDelete_aside hthere hlink' hfreeTrash
    rw [when_true hyes, bind_error herr] at hrun
    cases hrun
    simp only [tornCall, hdir, and_self, if_true, List.append_nil, hkind]
    exact ⟨h.prepared, h.staged.copies, h.staged.deletes⟩
  · -- it is set aside as in a merge that succeeds, and the copy is what fails
    obtain ⟨s₁, hset, hkind, hsame, hcopies, -, hdeletes⟩ := stageAside_kinds hf.ne_nil hlink'
    have hwhen : when (((s.disk.lkind (inTree R f)).any Kind.isDir) = true)
        (Halts.stageDelete y (inTree R f)) s = .ok () s₁ := by
      by_cases hdir : cutKind d R ts f = some .dir
      · rw [Halts.stageDelete_of_ne fun hy => haside ⟨hdir, hy⟩, hset]
      · have hno : ¬ ((s.disk.lkind (inTree R f)).any Kind.isDir) = true := fun hany =>
          hdir (hself.symm.trans ((lkind_isDir_iff hlink').mp hany))
        rw [when_false hno] at hset ⊢
        exact hset
    rw [bind_ok hwhen] at hrun
    have hprep₁ := h.setAside hf hapart hkind
    have hlink₁ := noLinkAbove_of_preparing (hprep₁.held reservedNames hfree) hf.plain hlink
    have hfree₁ : treeKind R s₁.disk (sidePath "tmp" f) = none := by
      rw [hkind, setAside_eq fun _ => ⟨not_self_le_side "tmp" hf.ne_nil,
        reservedNames.not_trash_le_tmp hf.plain⟩, hfreeTmp]
    have hsrc₁ : Source R s₁.disk src (k f) := hsrc.of_same (h.staged.same.trans hsame)
    -- the way is open now if it was open from the start
    obtain ⟨hle, -, -⟩ := noLink_dirsDownTo (y := y) hf.ne_nil hlink₁
    have hway : (∀ a, a <+: dirsDownTo y f → treeKind R s₁.disk a = none ∨
        treeKind R s₁.disk a = some .dir) ↔ wayOpen d R ts (dirsDownTo y f) = true := by
      rw [wayOpen_iff]
      refine forall_congr' fun a => imp_congr_right fun ha => ?_
      obtain ⟨haf, hne⟩ := (prefix_dropLast_iff hf.ne_nil).mp (ha.trans hle)
      rw [hkind, setAside_above hf.ne_nil haf hne]
      exact h.way_iff hf hapart haf
    have htears : tearsFile d y src = true ↔
        (y.bind StageCall.copied).join.isSome = true ∧ (k f).isFile = true := by
      rw [tearsFile, hsrc.kind, Bool.and_eq_true]
      rfl
    rw [tornCall_binned haside, ← recorded_copy]
    have hdel : s₁.work.deletes = (recorded d R ts (fs ++ [f])).map (trashOf R) := by
      rw [hdeletes, h.staged.deletes, hself, recorded_copy, List.map_append]
      congr 1
      split <;> rfl
    unfold Halts.copyAside at hrun
    rw [commitSidePath_inTree] at hrun
    cases hcopy : Halts.copyEntry y src (inTree R (sidePath "tmp" f)) s₁.disk with
    | ok u d₂ =>
      -- what comes after a whole copy does not fail
      rw [bind_ok (onStage_ok hcopy), readStage_bind] at hrun
      cases hrun
    | error er d₂ =>
      rw [bind_error (onStage_error hcopy)] at hrun
      cases hrun
      refine ⟨?_, hcopies.trans h.staged.copies, hdel⟩
      have hgp := hf.plain.mono (hle.trans (List.dropLast_prefix f))
      rcases copyEntry_torn hf.ne_nil hlink₁ hfree₁ hsrc₁ hcopy with
        ⟨hopen, ⟨htorn, hall, b, hput⟩ | ⟨hwhole, hdirs⟩⟩ | ⟨hblocked, rfl⟩
      · simp only [tornCall, if_neg haside, if_pos (hway.mp hopen), if_pos (htears.mpr htorn)]
        show Prepared _ _ _ _ _ (treeKind R d₂) _ _ _
        rw [hput]
        exact .leaf (.dirs hprep₁ hgp hopen) hf.plain hf.ne_nil (by simp [hall]) (by simp)
      · simp only [tornCall, if_neg haside, if_pos (hway.mp hopen), if_neg fun ht => hwhole (htears.mp ht),
          List.append_nil]
        show Prepared _ _ _ _ _ (treeKind R d₂) _ _ _
        rw [hdirs]
        exact .dirs hprep₁ hgp hopen
      · simp only [tornCall, if_neg haside, if_neg fun ho => hblocked (hway.mpr ho), List.append_nil]
        exact hprep₁

end Torn

/-! ## A merge that fails while it is staged -/

section Fails

variable {R : Root} {d : Tree} {k : RelPath → Entry} {ts ts' fs : List RelPath}
variable {files files' : List (RelPath × Place)} {s s' s₀ : Staging} {y : Option StageCall}
variable {last : StageStep} {e : Errno}

theorem stagedBy_deletes (h : StagedBy R d k ts' [] s)
    (hfree : ∀ x, d.kindAt (inTree R x) ≠ none → PlainPath x)
    (hts : ∀ t ∈ ts, SessionPath t ∧ d.NoLinkAbove (inTree R t)) :
    ∃ s', ts.forM (fun t => Halts.stageStep none (inTree R) (.delete t)) s = .ok () s' ∧
      StagedBy R d k (ts' ++ ts) [] s' := by
  induction ts generalizing ts' s with
  | nil => exact ⟨s, rfl, by rwa [List.append_nil]⟩
  | cons t ts ih =>
    obtain ⟨ht, hlink⟩ := hts t List.mem_cons_self
    obtain ⟨s₁, hrun, hstaged⟩ := h.delete ht hlink hfree
    obtain ⟨s', hrest, hall⟩ := ih hstaged fun t' ht' => hts t' (List.mem_cons_of_mem t ht')
    refine ⟨s', ?_, by rwa [List.append_assoc, List.singleton_append] at hall⟩
    show (stageDelete (inTree R t) >>= fun _ =>
      ts.forM fun t => Halts.stageStep none (inTree R) (.delete t)) s = _
    rw [bind_ok hrun, hrest]

theorem Stageable.apart_last {f : RelPath × Place} (h : Stageable R d k ts (files ++ f :: files')) :
    Apart (files.map Prod.fst) f.1 := by
  have hpair := h.apart
  rw [List.map_append, List.pairwise_append] at hpair
  exact fun g hg => hpair.2.2 g hg f.1 (by simp)

theorem Stageable.session (h : Stageable R d k ts (files ++ files')) :
    ∀ g ∈ files.map Prod.fst, SessionPath g ∧ d.NoLinkAbove (inTree R g) := by
  intro g hg
  obtain ⟨f, hf, rfl⟩ := List.mem_map.mp hg
  obtain ⟨hsession, hlink, -⟩ := h.copies f (List.mem_append_left _ hf)
  exact ⟨hsession, hlink⟩

theorem stagedBy_copies (hset : Stageable R d k ts (files' ++ files))
    (h : StagedBy R d k ts (files'.map Prod.fst) s)
    (hrun : files.forM (fun f => Halts.stageStep none (inTree R) (.copy f.1 f.2)) s = .ok () s') :
    StagedBy R d k ts ((files' ++ files).map Prod.fst) s' := by
  induction files generalizing files' s with
  | nil =>
    cases hrun
    rwa [List.append_nil]
  | cons f files ih =>
    obtain ⟨_, s₁, hcopy, hrest⟩ := bind_eq_ok (show (Halts.stageCopy none (inTree R) f.1 f.2 >>= fun _ =>
      files.forM fun f => Halts.stageStep none (inTree R) (.copy f.1 f.2)) s = .ok () s' from hrun)
    rw [Halts.stageCopy_none] at hcopy
    obtain ⟨hf, hlink, hsrc⟩ := hset.copies f (by simp)
    have hone := h.copy hf hset.apart_last (fun g hg => (hset.session g hg).1) hlink hsrc hset.plain hcopy
    have hset' : Stageable R d k ts ((files' ++ [f]) ++ files) := by
      rwa [List.append_assoc, List.singleton_append]
    have hall := ih hset' (by rwa [List.map_append]) hrest
    rwa [List.append_assoc] at hall

/-- **The calls of a commit prepare its destination.** -/
theorem stagedBy_calls (hset : Stageable R d k ts files)
    (hrun : Halts.stageCalls (inTree R) ts files (Staging.start d) = .ok () s₀) :
    StagedBy R d k ts (files.map Prod.fst) s₀ := by
  obtain ⟨s₁, hdeletes, hstaged⟩ :=
    stagedBy_deletes (StagedBy.start R d k) hset.plain hset.deletions
  rw [Halts.stageCalls, bind_ok hdeletes] at hrun
  have hset' : Stageable R d k ts ([] ++ files) := hset
  exact stagedBy_copies hset' hstaged hrun

theorem Follows.stageable (h : Follows R d k ts files last) : Stageable R d k ts files := by
  cases last with
  | delete t =>
    obtain ⟨rfl, hset⟩ := h
    exact ⟨fun t' ht' => hset.deletions t' (List.mem_append_left _ ht'), hset.copies, hset.apart,
      hset.plain⟩
  | copy f src =>
    have hpair := h.apart
    rw [List.map_append, List.pairwise_append] at hpair
    exact ⟨h.deletions, fun g hg => h.copies g (List.mem_append_left _ hg), hpair.1, h.plain⟩

/-- What the failing call leaves prepared, and what the rollback knows of. -/
theorem torn_prepared (hnext : Follows R d k ts files last)
    (hdone : Halts.stageCalls (inTree R) ts files (Staging.start d) = .ok () s₀)
    (hlast : Halts.stageStep y (inTree R) last s₀ = .error e s) :
    Prepared .dir (sidePath "tmp") (sidePath "trash") PlainPath (treeKind R d) (treeKind R s.disk)
        (recorded d R ts (files.map Prod.fst) ++ (tornCall d R ts y last).binned)
        ((files.map Prod.fst).map List.dropLast ++ (tornCall d R ts y last).made)
        (files.map Prod.fst ++ (tornCall d R ts y last).copies) ∧
      s.work.copies = (files.map Prod.fst).map (copyOf R) ∧
      s.work.deletes =
        (recorded d R ts (files.map Prod.fst) ++ (tornCall d R ts y last).binned).map (trashOf R) := by
  have hstaged := stagedBy_calls hnext.stageable hdone
  cases last with
  | copy f src =>
    obtain ⟨hf, hlink, hsrc⟩ := hnext.copies (f, src) (by simp)
    exact hstaged.torn_copy hf hnext.apart_last hlink hsrc hnext.plain hlast
  | delete t =>
    obtain ⟨rfl, hset⟩ := hnext
    obtain ⟨ht, hlink⟩ := hset.deletions t (by simp)
    have hprep := hstaged.preparing hset.plain
    have hlink₀ := noLinkAbove_of_preparing hprep ht.plain hlink
    have hdelete : Halts.stageDelete y (inTree R t) s₀ = .error e s := hlast
    obtain ⟨s₁, hok, -⟩ := stageDelete_kinds ht.ne_nil hlink₀
    by_cases hy : y = some .aside
    · subst hy
      by_cases hthere : treeKind R s₀.disk t = none
      · -- nothing to move, so nothing fails
        have hno : ¬ s₀.disk.lexists (inTree R t) = true := fun hex =>
          (Disk.lexists_eq (d := s₀.disk) (l := inTree R t) rfl hlink₀).mp hex hthere
        rw [Halts.stageDelete, readStage_bind, when_false hno] at hdelete
        cases hdelete
      · obtain ⟨d₁, herr, hkind⟩ := stageDelete_aside hthere hlink₀
          (hprep.trash_free reservedNames ht.plain ht.ne_nil hthere (by simp) List.prefix_rfl)
        cases herr.symm.trans hdelete
        simp only [tornCall, List.append_nil, hkind]
        exact ⟨hstaged.prepared, hstaged.staged.copies, hstaged.staged.deletes⟩
    · rw [Halts.stageDelete_of_ne hy] at hdelete
      cases hok.symm.trans hdelete

/-- No link is on the way to what went to the trash. -/
theorem Follows.noLinkAbove (h : Follows R d k ts files last) {t : RelPath}
    (ht : t ∈ recorded d R ts (files.map Prod.fst) ++ (tornCall d R ts y last).binned) :
    d.NoLinkAbove (inTree R t) := by
  have hset := h.stageable
  rcases List.mem_append.mp ht with ht | ht
  · rcases List.mem_append.mp ht with ht | ht
    · exact (hset.deletions t (mem_of_mem_trashed ht).1).2
    · obtain ⟨f, hf, rfl⟩ := List.mem_map.mp (List.mem_filter.mp ht).1
      exact (hset.copies f hf).2.1
  · cases last with
    | delete t' => simp [tornCall] at ht
    | copy f src =>
      have hmem : t = f := by
        by_cases haside : cutKind d R ts f = some .dir ∧ y = some .aside
        · simp only [tornCall, if_pos haside] at ht
          cases ht
        · rw [tornCall_binned haside] at ht
          split at ht
          · exact List.mem_singleton.mp ht
          · cases ht
      rw [hmem]
      exact (h.copies (f, src) (by simp)).2.1

/-- **When a failed merge is undone.** Let any call of a commit fail, at any point of it, after others of
its calls were made. Rolling back puts every entry of the destination back and leaves nothing but new
directories, if and only if no entry went to the trash below one that went there later, directories were
made in the place of a removed directory at most and not below it, and the failing copy has written
nothing. -/
theorem rollback_restores_iff (hnext : Follows R d k ts files last)
    (hdone : Halts.stageCalls (inTree R) ts files (Staging.start d) = .ok () s₀)
    (hlast : Halts.stageStep y (inTree R) last s₀ = .error e s) :
    Restored .dir PlainPath (treeKind R d) (treeKind R (rollback s)) ↔
      Undoable .dir (treeKind R d)
        (recorded d R ts (files.map Prod.fst) ++ (tornCall d R ts y last).binned)
        (files.map (fun f => f.1.dropLast) ++ (tornCall d R ts y last).made)
        (files.map Prod.fst ++ (tornCall d R ts y last).copies) (files.map Prod.fst) := by
  obtain ⟨hprep, hcopies, hdeletes⟩ := torn_prepared hnext hdone hlast
  have hfree : ∀ x, treeKind R d x ≠ none → PlainPath x := hnext.stageable.plain
  have hheld : Preparing d R _ _ _ _ := hprep.held reservedNames hfree
  have hknown : ∀ f ∈ files.map Prod.fst,
      f ∈ files.map Prod.fst ++ (tornCall d R ts y last).copies :=
    fun f hf => List.mem_append_left _ hf
  rw [rollback_kinds hheld hknown hcopies hdeletes fun t ht => hnext.noLinkAbove ht,
    undone_restores_iff reservedNames hheld hknown hfree (closed_treeKind R d), List.map_map]
  rfl

end Fails

/-! ## A copy torn in the place of a removed directory -/

section Sample

/-- A base directory with a directory `d` that holds a file, and a session that holds `d/f` and `g`. -/
@[irreducible] def dirToReplace : Tree :=
  after (do
    Posix.Sys.mkdir (basePath ["d"]) 0o755
    Posix.Sys.writeFile (basePath ["d", "e"]) [120]
    Posix.Sys.writeFile (deltaPath "s" ["g"]) [121]
    Posix.Sys.mkdir (deltaPath "s" ["d"]) 0o755
    Posix.Sys.writeFile (deltaPath "s" ["d", "f"]) [121] : Io Unit) (Manager.init .bare).disk

/-- `d` removed and `g` copied. -/
@[irreducible] def copiedOne : Staging :=
  after (Halts.stageCalls (inTree .base) [["d"]] [(["g"], deltaPath "s" ["g"])]) (Staging.start dirToReplace)

/-- The copy of `d/f` fails when `d` is there again. -/
@[irreducible] def copyFailed : Staging :=
  after (Halts.stageStep (some (.copy none)) (inTree .base) (.copy ["d", "f"] (deltaPath "s" ["d", "f"])))
    copiedOne

theorem names_plain : ∀ x, dirToReplace.kindAt (inTree .base x) ≠ none → PlainPath x := by
  have hall : ∀ e ∈ dirToReplace.entries, e.1.root = some .base → PlainPath e.1.path := by decide +kernel
  intro x hk
  obtain ⟨kx, hkx⟩ := Option.ne_none_iff_exists'.mp hk
  rcases Disk.entry_of_kindAt hkx with ⟨hnil, -⟩ | ⟨e, he, hloc, -⟩
  · obtain rfl : x = [] := hnil
    exact fun n hn => by cases hn
  · have hplain := hall e he (by rw [hloc]; rfl)
    rwa [hloc] at hplain

theorem copy_stageable : Follows .base dirToReplace (fun _ => .file [121]) [["d"]]
    [(["g"], deltaPath "s" ["g"])] (.copy ["d", "f"] (deltaPath "s" ["d", "f"])) := by
  refine ⟨fun t ht => ?_, fun f hf => ?_, by decide, names_plain⟩
  · obtain rfl := List.mem_singleton.mp ht
    exact ⟨⟨by decide, by decide⟩, by decide +kernel⟩
  · rcases List.mem_cons.mp hf with rfl | hf
    · exact ⟨⟨by decide, by decide⟩, by decide +kernel, ⟨_, rfl, by decide⟩, by decide +kernel, by decide⟩
    · obtain rfl := List.mem_singleton.mp hf
      exact ⟨⟨by decide, by decide⟩, by decide +kernel, ⟨_, rfl, by decide⟩, by decide +kernel, by decide⟩

/-- The removed directory is back with its file, and the copies are gone. -/
theorem rollback_restores_sample :
    Restored .dir PlainPath (treeKind .base dirToReplace) (treeKind .base (rollback copyFailed)) := by
  have hdone : Halts.stageCalls (inTree .base) [["d"]] [(["g"], deltaPath "s" ["g"])]
      (Staging.start dirToReplace) = .ok () copiedOne := by
    unfold copiedOne
    exact ok_of_succeeds (by decide +kernel)
  have hlast : Halts.stageStep (some (.copy none)) (inTree .base)
      (.copy ["d", "f"] (deltaPath "s" ["d", "f"])) copiedOne = .error Errno.EIO copyFailed := by
    unfold copyFailed
    exact error_of_failureOf (by decide +kernel)
  refine (rollback_restores_iff copy_stageable hdone hlast).mpr ⟨?_, ?_, ?_⟩
  · unfold NoneBelowLater
    decide +kernel
  · unfold treeKind
    decide +kernel
  · decide +kernel

end Sample

end BranchFs
