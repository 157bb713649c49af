/-
# BranchFs.Mount.Finalize -- which inodes a finalisation takes away

After a commit or abort of `b` through a control file or an `ioctl`, the inodes below `/@b` are
cleared, by comparing the text of every inode path with `/@b`. That is too short a text to end at the
name: the subtree of a branch whose name goes on from `b` goes as well, and its open files with it.
-/
import BranchFs.Model.Mount
import BranchFs.Store.PathText

namespace BranchFs

open BranchFs.Posix BranchFs.Logic

/-! ## The text of a prefix -/

/-- A text without a slash is a prefix of a path's text only within the first name. -/
theorem prefix_bareText {pre : Text} (hslash : '/' ∉ pre) (n : String) (rest : RelPath) :
    pre <+: Store.bareText (n :: rest) ↔ pre <+: n.toList := by
  match rest with
  | [] => simp [Store.bareText]
  | m :: rest =>
    rw [Store.bareText_cons_cons]
    constructor
    · intro h
      have hname : n.toList ++ ['/'] <+: n.toList ++ '/' :: Store.bareText (m :: rest) :=
        (List.prefix_append_right_inj _).mpr (List.cons_prefix_cons.mpr ⟨rfl, List.nil_prefix⟩)
      rcases List.prefix_or_prefix_of_prefix h hname with h | h
      · rcases List.prefix_concat_iff.mp h with rfl | h
        · exact absurd (by simp) hslash
        · exact h
      · exact absurd (h.subset (by simp)) hslash
    · exact fun h => h.trans (List.prefix_append _ _)

/-- The inode paths that `clear_prefix` takes for a branch, by their first name. -/
theorem startsWith_branch {b : String} (hslash : '/' ∉ b.toList) (path : RelPath) :
    startsWith (relText path) ("/@" ++ b) = true ↔
      ∃ n, path.head? = some n ∧ startsWith n (atName b) = true := by
  have hpre : '/' ∉ '@' :: b.toList := by
    rw [List.mem_cons, not_or]
    exact ⟨by decide, hslash⟩
  have htext : startsWith (relText path) ("/@" ++ b) = true ↔
      '@' :: b.toList <+: Store.bareText path := by
    unfold startsWith
    rw [List.isPrefixOf_iff_prefix, show (relText path).toList = _ from Store.pathText_eq path]
    simp [List.cons_prefix_cons]
  have hname : ∀ n : String, startsWith n (atName b) = true ↔ '@' :: b.toList <+: n.toList := by
    intro n
    unfold startsWith atName
    rw [List.isPrefixOf_iff_prefix]
    simp
  rw [htext]
  match path with
  | [] => simp [Store.bareText]
  | n :: rest => simp [prefix_bareText hpre, hname]

/-! ## The subtrees -/

/-- The inode path is the virtual directory of `branch` or lies below it. -/
def InSubtree (branch : String) (path : RelPath) : Prop := path.head? = some (atName branch)

instance (branch : String) (path : RelPath) : Decidable (InSubtree branch path) :=
  inferInstanceAs (Decidable (_ = _))

theorem atName_injective {b c : String} (h : atName b = atName c) : b = c := by
  apply String.toList_injective
  simpa [atName] using congrArg String.toList h

theorem startsWith_atName {b c : String} :
    startsWith (atName c) (atName b) = true ↔ startsWith c b = true := by
  simp [startsWith, atName]

/-- What begins with the text `@b` is the virtual directory of a branch. -/
theorem exists_atName {b n : String} (h : startsWith n (atName b) = true) :
    ∃ c, n = atName c ∧ startsWith c b = true := by
  have hpre : '@' :: b.toList <+: n.toList := by simpa [startsWith, atName] using h
  obtain ⟨t, ht⟩ := hpre
  have hn : n = atName (String.ofList (b.toList ++ t)) := by
    apply String.toList_injective
    rw [← ht]
    simp [atName]
  exact ⟨_, hn, startsWith_atName.mp (hn ▸ h)⟩

/-- An inode of another branch's subtree, or of the mount's own view, is taken when the other branch's
name goes on from `b`. -/
theorem cleared_iff {b : String} (hslash : '/' ∉ b.toList) {path : RelPath}
    (hout : ¬ InSubtree b path) : startsWith (relText path) ("/@" ++ b) = true ↔
      ∃ c, c ≠ b ∧ startsWith c b = true ∧ InSubtree c path := by
  rw [startsWith_branch hslash]
  constructor
  · rintro ⟨n, hn, hstart⟩
    obtain ⟨c, rfl, hc⟩ := exists_atName hstart
    refine ⟨c, ?_, hc, hn⟩
    rintro rfl
    exact hout hn
  · rintro ⟨c, -, hc, hin⟩
    exact ⟨_, hin, startsWith_atName.mpr hc⟩

/-! ## Finalisation -/

/-- A commit or abort asked for at a mount. -/
inductive Finalize where
  | write (file : CtlFile) (commit : Option HashOrder)
  | ioctl (file : CtlFile) (commit : Option HashOrder)

namespace Finalize

/-- The control file it is asked through. -/
def file : Finalize → CtlFile
  | write file _ => file
  | ioctl file _ => file

def run : Finalize → MountReq Unit
  | write file (some order) => writeCtl file (.commit order)
  | write file none => writeCtl file .abort
  | ioctl file (some order) => ioctlCtl file (.commit order)
  | ioctl file none => ioctlCtl file .abort

end Finalize

section

variable {s s' : Mount} {b : String} {α : Type}

theorem onManagerOrEio_ok {x : Mgr α} {a : α} (h : onManagerOrEio x s = .ok a s') :
    s'.inodes = s.inodes := by
  unfold onManagerOrEio onManager at h
  cases hx : x s.manager with
  | ok a m =>
    simp only [hx] at h
    cases h
    rfl
  | error e m =>
    simp only [hx] at h
    cases h

theorem finalizeBranchOp_inodes {op : Mgr String} (h : finalizeBranchOp b op s = .ok () s') :
    s'.inodes = s.inodes.clearPrefix ("/@" ++ b) := by
  obtain ⟨parent, s₁, hop, h⟩ := bind_eq_ok h
  obtain ⟨_, s₂, hclear, h⟩ := bind_eq_ok h
  obtain ⟨_, s₃, hepoch, h⟩ := bind_eq_ok h
  obtain ⟨_, s₄, hget, h⟩ := bind_eq_ok h
  cases hclear
  cases hepoch
  cases hget
  rw [← onManagerOrEio_ok hop]
  unfold when at h
  split at h
  · cases h
    rfl
  · cases h
    rfl

theorem finalizeByIoctl_inodes {op : Mgr String} (h : finalizeByIoctl b op s = .ok () s') :
    s'.inodes = s.inodes.clearPrefix ("/@" ++ b) := by
  obtain ⟨parent, s₁, hop, h⟩ := bind_eq_ok h
  obtain ⟨_, s₂, hclear, h⟩ := bind_eq_ok h
  cases hclear
  cases h
  rw [← onManagerOrEio_ok hop]

/-- What a successful finalisation does to the inodes, however it was asked for. -/
theorem Finalize.inodes {r : Finalize} (h : r.run s = .ok () s') :
    s'.inodes = s.inodes.clearPrefix ("/@" ++ r.file.about s) := by
  cases r with
  | write file commit =>
    cases file with
    | root =>
      have hwrite : ∀ command, writeCtl .root command s = .ok () s' →
          handleRootCtlWrite command s = .ok () s' := by
        intro command h
        obtain ⟨_, s₁, hget, h⟩ := bind_eq_ok h
        cases hget
        split at h
        · exact h
        · cases h
      cases commit with
      | some order =>
        obtain ⟨_, s₁, hget, h⟩ := bind_eq_ok (hwrite _ h)
        cases hget
        exact finalizeBranchOp_inodes h
      | none =>
        obtain ⟨_, s₁, hget, h⟩ := bind_eq_ok (hwrite _ h)
        cases hget
        exact finalizeBranchOp_inodes h
    | branch name =>
      have hwrite : ∀ command, writeCtl (.branch name) command s = .ok () s' →
          handleBranchCtlWrite name command s = .ok () s' := by
        intro command h
        obtain ⟨_, s₁, hget, h⟩ := bind_eq_ok h
        cases hget
        split at h
        · exact h
        · cases h
      cases commit with
      | some order => exact finalizeBranchOp_inodes (hwrite _ h)
      | none => exact finalizeBranchOp_inodes (hwrite _ h)
  | ioctl file commit =>
    cases commit with
    | some order =>
      obtain ⟨_, s₁, hget, h⟩ := bind_eq_ok h
      cases hget
      exact finalizeByIoctl_inodes h
    | none =>
      obtain ⟨_, s₁, hget, h⟩ := bind_eq_ok h
      cases hget
      exact finalizeByIoctl_inodes h

/-- Every inode outside the subtree of `b` maps to the path it had. -/
def SparesOtherInodes (b : String) (s s' : Mount) : Prop :=
  ∀ ino path, s.inodes.getPath ino = some path → ¬ InSubtree b path →
    s'.inodes.getPath ino = some path

theorem slash_not_mem_of_valid (h : validateBranchName b = .ok ()) : '/' ∉ b.toList := by
  intro hmem
  unfold validateBranchName at h
  split at h
  · cases h
  · split at h
    · cases h
    · rw [if_pos (Or.inl (by simpa using hmem))] at h
      cases h

/-- **A finalisation of `b` leaves the inodes outside the subtree of `b` alone exactly when no inode
is known in the subtree of another name that begins with `b`.** -/
theorem finalize_spares_iff {r : Finalize} (hvalid : validateBranchName (r.file.about s) = .ok ())
    (h : r.run s = .ok () s') : SparesOtherInodes (r.file.about s) s s' ↔
      ∀ c, c ≠ r.file.about s → startsWith c (r.file.about s) = true →
        ∀ ino path, s.inodes.getPath ino = some path → ¬ InSubtree c path := by
  have hslash := slash_not_mem_of_valid hvalid
  have hinodes := Finalize.inodes h
  unfold SparesOtherInodes
  simp only [hinodes, InodeManager.getPath_clearPrefix]
  constructor
  · intro hspare c hc hstart ino path hpath hin
    have hout : ¬ InSubtree (r.file.about s) path := by
      intro hb
      exact hc (atName_injective (Option.some.inj (hin.symm.trans hb)))
    have hkept := (hspare ino path hpath hout).2
    rw [(cleared_iff hslash hout).mpr ⟨c, hc, hstart, hin⟩] at hkept
    cases hkept
  · intro hnone ino path hpath hout
    refine ⟨hpath, ?_⟩
    rw [Bool.eq_false_iff, Ne, cleared_iff hslash hout]
    rintro ⟨c, hc, hstart, hin⟩
    exact hnone c hc hstart ino path hpath hin

end

/-! ## Two branches, one name the beginning of the other -/

/-- Every commit and abort at a mount leaves the inodes of the other branches alone. -/
def FinalizationSparesInodes : Prop :=
  ∀ s : Mount, s.Reachable → ∀ (r : Finalize) s', r.run s = .ok () s' →
    SparesOtherInodes (r.file.about s) s s'

def Finalize.succeeds (r : Finalize) (s : Mount) : Bool :=
  match r.run s with
  | .ok _ _ => true
  | .error _ _ => false

theorem Finalize.ok_of_succeeds {r : Finalize} {s : Mount} (h : r.succeeds s = true) :
    r.run s = .ok () (after r.run s) := by
  unfold succeeds at h
  cases hr : r.run s with
  | ok a s' => simp [after, hr]
  | error e s' => simp [hr] at h

/-- Branches of `main`. -/
def forkedFromMain (names : List String) : Manager :=
  run step (Manager.init FreshStore.bare) (names.map fun n => .create n "main" .lazy [])

/-- A mount that has looked up the directories of branches of `main`. -/
def lookedUp (names : List String) : Mount :=
  run Mount.step (Mount.new (forkedFromMain names) "/mnt" true)
    (names.map fun n => .lookup rootIno (atName n))

theorem lookedUp_reachable (names : List String) : (lookedUp names).Reachable :=
  ⟨_, _, _, _, ⟨_, _, rfl⟩, rfl⟩

/-- `a` is aborted while `ab` is looked up, or while `b` is. -/
theorem lookedUp_run :
    ((Finalize.write (.branch "a") none).succeeds (lookedUp ["a", "ab"]) = true ∧
      (lookedUp ["a", "ab"]).inodes.getPath 3 = some ["@ab"] ∧
      (after (Finalize.write (.branch "a") none).run (lookedUp ["a", "ab"])).inodes.getPath 3 =
        none) ∧
    (Finalize.write (.branch "a") none).succeeds (lookedUp ["a", "b"]) = true ∧
      (lookedUp ["a", "b"]).inodes.infos.map InodeInfo.path = [["@b"], ["@a"], []] := by
  decide +kernel

/-- Aborting `a` takes the inode of the directory of `ab`. -/
theorem not_finalizationSparesInodes : ¬ FinalizationSparesInodes := by
  intro h
  obtain ⟨⟨hok, hbefore, hafter⟩, -⟩ := lookedUp_run
  have hkept := h _ (lookedUp_reachable _) _ _ (Finalize.ok_of_succeeds hok) 3 _ hbefore (by decide)
  rw [hafter] at hkept
  cases hkept

/-- Aborting `a` leaves the inode of `b` alone. -/
theorem finalize_spares_other : SparesOtherInodes "a" (lookedUp ["a", "b"])
    (after (Finalize.write (.branch "a") none).run (lookedUp ["a", "b"])) := by
  obtain ⟨-, hok, hpaths⟩ := lookedUp_run
  refine (finalize_spares_iff (r := .write (.branch "a") none) (by decide)
    (Finalize.ok_of_succeeds hok)).mpr ?_
  intro c hc hstart ino path hpath hin
  obtain ⟨i, hi, -, rfl⟩ := InodeManager.getPath_eq_some.mp hpath
  have hmem : i.path ∈ [["@b"], ["@a"], []] := hpaths ▸ List.mem_map_of_mem hi
  have hname : atName c ∈ ["@b", "@a"] := by
    simp only [List.mem_cons, List.not_mem_nil, or_false] at hmem
    rcases hmem with h | h | h <;> simp [InSubtree, h] at hin <;> simp [← hin]
  simp only [List.mem_cons, List.not_mem_nil, or_false] at hname
  rcases hname with h | h
  · rw [atName_injective (c := "b") h] at hstart
    exact absurd hstart (by decide)
  · exact hc (atName_injective (c := "a") h)

end BranchFs
