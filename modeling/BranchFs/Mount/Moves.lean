/-
# BranchFs.Mount.Moves -- the visible subtree a rename leaves behind

A directory a branch shows is spread over its delta and the layers below, and `rename` moves the delta's
share of it. The rest is hidden at the old name and missing at the new one, where what used to be inherited
under the new name comes back instead. A rename moves the whole visible subtree exactly when the two names
let the same through below the delta, and nothing visible stood in a directory it replaced
(`rename_moves_iff`).
-/
import BranchFs.Cow.Rename
import BranchFs.Mount.Follow

namespace BranchFs

open BranchFs.Posix BranchFs.Logic

/-- Every rename that is answered with success moves the visible subtree and nothing else. -/
def RenamesMove : Prop :=
  ∀ s : Mount, s.Reachable → ∀ parent name newparent newname flags paths s',
    renamePaths parent name newparent newname s = .ok paths s →
    s.manager.view paths.branch paths.src.dropLast = some .dir →
    s.manager.view paths.branch paths.dst.dropLast = some .dir →
    ¬ paths.src <+: paths.dst → ¬ paths.dst <+: paths.src →
    rename parent name newparent newname flags s = .ok () s' →
    Moves s.manager s'.manager paths.branch paths.src paths.dst

/-- Two names in directories that the branch shows, neither inside the other. -/
structure RenameReady (s : Mount) (paths : RenamePaths) (b : Branch) : Prop where
  source : NameIn s.manager paths.branch b paths.src.dropLast
  target : NameIn s.manager paths.branch b paths.dst.dropLast
  notInto : ¬ paths.src <+: paths.dst
  notOver : ¬ paths.dst <+: paths.src

section Body

variable {s s' : Mount} {parent newparent : Nat} {name newname : String} {flags : RenameFlags}
  {paths : RenamePaths} {b : Branch}

/-- Both paths end in the names that were asked for. -/
theorem renamePaths_names (hpaths : renamePaths parent name newparent newname s = .ok paths s) :
    paths.src = paths.src.dropLast ++ [name] ∧ paths.dst = paths.dst.dropLast ++ [newname] := by
  unfold renamePaths at hpaths
  obtain ⟨_, _, _, hrest⟩ := bind_eq_ok hpaths
  obtain ⟨_, _, _, hrest⟩ := bind_eq_ok hrest
  obtain ⟨src, _, _, hrest⟩ := bind_eq_ok hrest
  obtain ⟨dst, _, _, hrest⟩ := bind_eq_ok hrest
  obtain ⟨_, _, _, hrest⟩ := bind_eq_ok hrest
  obtain ⟨branch, _, _, hrest⟩ := bind_eq_ok hrest
  obtain ⟨_, _, _, hlast⟩ := bind_eq_ok hrest
  injection hlast with hvalue _
  rw [← hvalue]
  simp

/-- **When a rename moves the whole visible subtree and nothing else**: exactly when no directory with
something in it was shown at the destination, and below the source the same shows through as at the
destination wherever the delta has nothing. -/
theorem rename_moves_iff (hpaths : renamePaths parent name newparent newname s = .ok paths s)
    (hready : RenameReady s paths b)
    (h : rename parent name newparent newname flags s = .ok () s') :
    Moves s.manager s'.manager paths.branch paths.src paths.dst ↔
      ¬ (s.manager.view paths.branch paths.dst = some .dir ∧
        ∃ r, r ≠ [] ∧ s.manager.view paths.branch (paths.dst ++ r) ≠ none) ∧
      ThroughAlike s.manager paths.branch b paths.src paths.dst := by
  obtain ⟨hsrc, hdst⟩ := renamePaths_names hpaths
  obtain ⟨hs, hd, hsd, hds⟩ := hready
  obtain ⟨hbody, -⟩ := rename_eq_ok hpaths h
  rw [← Faulty.renamePath_absent] at hbody
  rw [hsrc, hdst] at hsd hds hbody ⊢
  obtain ⟨hrenamed, hthere⟩ := renamePath_renamed hs hd hsd hds hbody
  exact hrenamed.moves_iff hs hd hsd hds hthere

end Body

/-! ## A directory of which one file has been written -/

/-- A mount of `main` over a directory with two files, one of which has come up. -/
def partlyUp : Mount :=
  run Mount.step (Mount.new (Manager.init .bare) "/mnt" true)
    [.manager (.host (.mkdir ["d"])), .manager (.host (.write ["d", "x"] [1])),
      .manager (.host (.write ["d", "y"] [2])),
      .manager (.file "main" (.writeByWorker ["d", "x"] 0 [3]))]

theorem partlyUp_reachable : partlyUp.Reachable := ⟨_, _, _, _, ⟨_, [], rfl⟩, rfl⟩

theorem partlyUp_run :
    resultOf (rename rootIno "d" rootIno "e" ⟨false, false⟩) partlyUp = some () ∧
      partlyUp.manager.view "main" ["d", "y"] = some (.file [2]) ∧
      (after (rename rootIno "d" rootIno "e" ⟨false, false⟩) partlyUp).manager.view "main" ["e", "y"] =
        none ∧
      partlyUp.manager.view "main" [] = some .dir ∧ partlyUp.inodes.getPath rootIno = some [] ∧
      partlyUp.branchName = "main" ∧ partlyUp.manager.isBranchWritable "main" = true := by
  decide +kernel

/-- The file that has not been written is gone after the rename. -/
theorem not_renamesMove : ¬ RenamesMove := by
  intro h
  obtain ⟨hok, hbefore, hafter, hdir, hroot, hbranch, hwritable⟩ := partlyUp_run
  have hmoves := h partlyUp partlyUp_reachable rootIno "d" rootIno "e" ⟨false, false⟩ _ _
    (renamePaths_root hroot hbranch hwritable "d" "e") hdir hdir (by decide) (by decide)
    (ok_of_resultOf hok)
  have hmoved := hmoves.moved ["y"]
  change (after (rename rootIno "d" rootIno "e" ⟨false, false⟩) partlyUp).manager.view "main" ["e", "y"] =
    partlyUp.manager.view "main" ["d", "y"] at hmoved
  rw [hafter, hbefore] at hmoved
  cases hmoved

/-- A mount of `main` over a base directory with one file. -/
def baseFile : Mount :=
  run Mount.step (Mount.new (Manager.init .bare) "/mnt" true) [.manager (.host (.write ["f"] [1]))]

theorem baseFile_run :
    resultOf (rename rootIno "f" rootIno "g" ⟨false, false⟩) baseFile = some () ∧
      baseFile.manager.forest.get? "main" = some (baseFile.manager.recordOf "main") ∧
      baseFile.manager.view "main" [] = some .dir ∧
      baseFile.manager.view "main" ["f"] = some (.file [1]) ∧
      baseFile.manager.view "main" ["g"] = none ∧
      (∀ e ∈ baseFile.manager.disk.entries, ¬ Own "main" e.1.root) ∧
      (∀ e ∈ baseFile.manager.disk.entries, e.2.kind.isSymlink = false) ∧
      baseFile.inodes.getPath rootIno = some [] ∧ baseFile.branchName = "main" ∧
      baseFile.manager.isBranchWritable "main" = true := by
  decide +kernel

/-- A file is moved whole. -/
theorem baseFile_moves : Moves baseFile.manager
    (after (rename rootIno "f" rootIno "g" ⟨false, false⟩) baseFile).manager "main" ["f"] ["g"] := by
  obtain ⟨hok, hb, hdir, hfile, hfree, hown, hlinks, hroot, hbranch, hwritable⟩ := baseFile_run
  have hin : NameIn baseFile.manager "main" (baseFile.manager.recordOf "main") [] :=
    nameIn_of_untouched hb hdir hown hlinks
  refine (rename_moves_iff (renamePaths_root hroot hbranch hwritable "f" "g")
    ⟨hin, hin, by decide, by decide⟩ (ok_of_resultOf hok)).mpr ⟨?_, ?_⟩
  · rintro ⟨hg, -⟩
    change baseFile.manager.view "main" ["g"] = _ at hg
    rw [hfree] at hg
    cases hg
  · intro r hr hway _
    have hf := hway [] List.nil_prefix (Ne.symm hr)
    change baseFile.manager.view "main" ["f"] = _ at hf
    rw [hfile] at hf
    cases hf

end BranchFs
