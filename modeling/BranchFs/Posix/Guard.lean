/-
# BranchFs.Posix.Guard -- calls that stay in their trees

A call ends up in another tree than the one it was given only through a symbolic link. `Guard S d`
says that no link stands at any location of `S`; where `S` covers the ways of a call, the call
changes nothing outside the trees it names, and leaves the guard standing (`Framed`, with `SameOn`
for the frame). The one call that makes links makes them at the place it is given, and a rename
carries along the links below what it moves.
-/
import BranchFs.Posix.Outcome
import BranchFs.Logic.Framed

namespace BranchFs.Posix

open BranchFs.Logic

variable {ρ ν : Type} [DecidableEq ρ] [DecidableEq ν]

/-- No link stands at a location of `S`. -/
def Guard (S : Set (Loc ρ ν)) (d : Disk ρ ν) : Prop := ∀ l ∈ S, d.linkAt l = false

/-- `S` covers the way to `l`. -/
def WayIn (S : Set (Loc ρ ν)) (l : Loc ρ ν) : Prop := ∀ a, a ≤ l → a ≠ l → a ∈ S

variable {S S' : Set (Loc ρ ν)} {d d' : Disk ρ ν} {l : Loc ρ ν}

theorem Guard.mono (h : Guard S d) (hS : S' ⊆ S) : Guard S' d := fun x hx => h x (hS hx)

theorem Guard.of_noNewLinks (h : Guard S d) (hn : NoNewLinks d d') : Guard S d' :=
  fun x hx => hn.linkAt (h x hx)

theorem Guard.noLinkAbove (h : Guard S d) (hl : WayIn S l) : d.NoLinkAbove l :=
  Disk.noLinkAbove_of fun a ha hne => h a (hl a ha hne)

theorem Guard.insert (h : Guard S d) (hl : d.linkAt l = false) : Guard (insert l S) d := by
  intro x hx
  rcases hx with rfl | hx
  · exact hl
  · exact h x hx

omit [DecidableEq ρ] [DecidableEq ν] in
theorem WayIn.mono (h : WayIn S l) (hS : S ⊆ S') : WayIn S' l := fun a ha hne => hS (h a ha hne)

omit [DecidableEq ρ] [DecidableEq ν] in
theorem WayIn.parent (h : WayIn S l) : WayIn S l.parent := by
  intro a ha hne
  refine h a (le_trans ha (Loc.parent_le l)) ?_
  rintro rfl
  exact hne (le_antisymm ha (Loc.parent_le a))

omit [DecidableEq ρ] [DecidableEq ν] in
/-- The directory of a location other than a root lies on the way to it. -/
theorem WayIn.parent_mem (h : WayIn S l) (hl : l.path ≠ []) : l.parent ∈ S :=
  h l.parent (Loc.parent_le l) (Loc.parent_ne hl)

/-- The trees `W` picks are the only ones that change. -/
abbrev Inside (W : Option ρ → Prop) : Disk ρ ν → Disk ρ ν → Prop := SameOn fun r => ¬ W r

theorem Inside.of_root {W : Option ρ → Prop} (hW : W l.root) (h : SameOn (fun r => r ≠ l.root) d d') :
    Inside W d d' := by
  refine h.mono fun r hr heq => ?_
  exact hr (heq ▸ hW)

variable {W : Option ρ → Prop} {r : ρ} {α : Type}

/-- A call that stays in the tree of `l` and makes no link. -/
theorem framed_of_confined {x : Sys ρ ν α} (hW : W l.root)
    (h : ∀ d, Guard S d → SameOn (fun r => r ≠ l.root) d (after x d) ∧ NoNewLinks d (after x d)) :
    Framed (Inside W) (Guard S) (Guard S) x := by
  intro d hd
  obtain ⟨hsame, hlinks⟩ := h d hd
  exact ⟨Inside.of_root hW hsame, hd.of_noNewLinks hlinks⟩

namespace Sys

open Disk

/-- What `createDirAll` made is a directory. -/
theorem kindAt_of_createDirAll (hr : l.root = some r) (hlink : d.NoLinkAbove l)
    (hl : d.linkAt l = false) (h : createDirAll l d = .ok () d') : d'.kindAt l = some .dir := by
  obtain ⟨hmade, -, -⟩ := createDirAll_made hr hlink hl h
  rw [hmade.kind, if_pos (le_refl l)]

theorem framed_createDirAll (hr : l.root = some r) (hW : W l.root) (hway : WayIn S l)
    (hl : l ∈ S) : Framed (Inside W) (Guard S) (Guard S) (createDirAll l) :=
  framed_of_confined hW fun _ hd =>
    createDirAll_confined hr (hd.noLinkAbove hway) (hd l hl)

/-- The directory of `l` is made on the way to `l`. -/
theorem framed_createDirAll_parent (hr : l.root = some r) (hW : W l.root) (hway : WayIn S l) :
    Framed (Inside W) (Guard S) (Guard S) (createDirAll l.parent) := by
  by_cases hl : l.path = []
  · have hroot : l.parent.path = [] := by simp [hl]
    have hdone : ∀ d : Disk ρ ν, createDirAll l.parent d = .ok () d := fun d =>
      createDirAll_of_dir (l := l.parent) hr (kindAt_root d hroot)
    exact (framed_read (fun d => SameOn.refl _ d) fun d => after_ok (hdone d))
  · exact framed_createDirAll (l := l.parent) hr hW hway.parent (hway.parent_mem hl)

theorem framed_mkdir {mode : Nat} (hr : l.root = some r) (hW : W l.root) (hway : WayIn S l) :
    Framed (Inside W) (Guard S) (Guard S) (mkdir l mode) := by
  refine framed_of_confined hW fun d hd => ?_
  refine after_resolved (P := fun d' => SameOn (fun r => r ≠ l.root) d d' ∧ NoNewLinks d d') hr
    (hd.noLinkAbove hway) ⟨SameOn.refl _ d, NoNewLinks.refl d⟩ ?_
  rcases after_addAt .dir mode l d with h | h
  · rw [h]
    exact ⟨SameOn.refl _ d, NoNewLinks.refl d⟩
  · exact ⟨sameOn_add h (by simp), noNewLinks_add h rfl⟩

theorem framed_writeFile {data : Bytes} (hr : l.root = some r) (hW : W l.root) (hway : WayIn S l)
    (hl : l ∈ S) : Framed (Inside W) (Guard S) (Guard S) (writeFile l data) :=
  framed_of_confined hW fun d hd =>
    after_followed hr (hd.noLinkAbove hway) (hd l hl)
      (P := fun d' => SameOn (fun r => r ≠ l.root) d d' ∧ NoNewLinks d d')
      ⟨SameOn.refl _ d, NoNewLinks.refl d⟩ (putFileAt_confined data none)

theorem framed_copyFile (src : Loc ρ ν) (hr : l.root = some r) (hW : W l.root) (hway : WayIn S l)
    (hl : l ∈ S) : Framed (Inside W) (Guard S) (Guard S) (copyFile src l) :=
  framed_of_confined hW fun _ hd =>
    copyFile_confined src hr (hd.noLinkAbove hway) (hd l hl)

theorem framed_openWrite {create trunc : Bool} (hr : l.root = some r) (hW : W l.root)
    (hway : WayIn S l) (hl : l ∈ S) :
    Framed (Inside W) (Guard S) (Guard S) (openWrite l create trunc) :=
  framed_of_confined hW fun _ hd =>
    openWrite_confined create trunc hr (hd.noLinkAbove hway) (hd l hl)

/-- An open file is changed in the tree it was opened in. -/
theorem framed_mapFile {h : Handle ρ} {f : Bytes → Bytes} {a : α} (hW : W h.root) :
    Framed (Inside W) (Guard S) (Guard S) (fun d => .ok a (d.mapFile h f) : Sys ρ ν α) := by
  intro d hd
  refine ⟨sameOn_mapFile d h f fun hn => hn hW, hd.of_noNewLinks (noNewLinks_mapFile d h f)⟩

theorem framed_setAttr {f : Node ν → Node ν} (hr : l.root = some r) (hW : W l.root)
    (hway : WayIn S l) (hl : l ∈ S) : Framed (Inside W) (Guard S) (Guard S) (setAttr l f) :=
  framed_of_confined hW fun d hd => by
    obtain ⟨hsame, hkind⟩ := setAttr_confined f hr (hd.noLinkAbove hway) (hd l hl)
    exact ⟨hsame, noNewLinks_of_kindAt fun x => Or.inl (hkind x)⟩

/-- What a cut leaves. -/
theorem framed_of_cut {x : Sys ρ ν α} (hW : W l.root)
    (h : ∀ d, Guard S d → after x d = d ∨ (l.path ≠ [] ∧ after x d = d.cut l)) :
    Framed (Inside W) (Guard S) (Guard S) x :=
  framed_of_confined hW fun d hd => by
    rcases h d hd with h | ⟨hne, h⟩
    · rw [h]
      exact ⟨SameOn.refl _ d, NoNewLinks.refl d⟩
    · rw [h]
      exact ⟨sameOn_cut d hne (by simp), noNewLinks_cut d hne⟩

theorem framed_removeFile (hr : l.root = some r) (hW : W l.root) (hway : WayIn S l) :
    Framed (Inside W) (Guard S) (Guard S) (removeFile l) :=
  framed_of_cut hW fun _ hd => by
    rcases after_removeFile hr (hd.noLinkAbove hway) with h | ⟨hne, -, h⟩
    · exact Or.inl h
    · exact Or.inr ⟨hne, h⟩

theorem framed_removeDirAll (hr : l.root = some r) (hW : W l.root) (hway : WayIn S l) :
    Framed (Inside W) (Guard S) (Guard S) (removeDirAll l) :=
  framed_of_cut hW fun _ hd => after_removeDirAll hr (hd.noLinkAbove hway)

theorem framed_removeDir (hr : l.root = some r) (hW : W l.root) (hway : WayIn S l) :
    Framed (Inside W) (Guard S) (Guard S) (removeDir l) :=
  framed_of_cut hW fun _ hd => by
    rcases removeDir_cases hr (hd.noLinkAbove hway) with ⟨e, h⟩ | ⟨hne, -, -, h⟩
    · exact Or.inl (after_error h)
    · exact Or.inr ⟨hne, after_ok h⟩

/-- A new link stands at the place it was made, and only there. -/
theorem framed_symlink {t : Link ν} (hr : l.root = some r) (hW : W l.root) (hway : WayIn S l)
    (hS : ∀ x ∈ S', x ∈ S ∧ x ≠ l) : Framed (Inside W) (Guard S) (Guard S') (symlink t l) := by
  intro d hd
  have h := symlink_confined t hr (hd.noLinkAbove hway)
  refine ⟨Inside.of_root hW h.same, fun x hx => ?_⟩
  by_contra hlink
  rw [Bool.not_eq_false] at hlink
  have hold := h.links x (hS x hx).2 hlink
  rw [hd x (hS x hx).1] at hold
  cases hold

/-- A rename brings links where there were links below what it moves. -/
theorem framed_rename {s t : Loc ρ ν} {rs rt : ρ} (hrs : s.root = some rs) (hrt : t.root = some rt)
    (hWs : W s.root) (hWt : W t.root) (hs : WayIn S s) (ht : WayIn S t)
    (hS : ∀ x ∈ S', x ∈ S ∧ (t ≤ x → Loc.rebase t s x ∈ S)) :
    Framed (Inside W) (Guard S) (Guard S') (rename s t) := by
  intro d hd
  have hsub : S' ⊆ S := fun x hx => (hS x hx).1
  rcases rename_cases hrs hrt (hd.noLinkAbove hs) (hd.noLinkAbove ht) with
    ⟨e, h⟩ | ⟨-, h⟩ | ⟨d', k, hk, hfit, hst, hshift, h⟩
  · rw [after_error h]
    exact ⟨SameOn.refl _ d, hd.mono hsub⟩
  · rw [after_ok h]
    exact ⟨SameOn.refl _ d, hd.mono hsub⟩
  · rw [after_ok h]
    -- a target with nothing below it is not above the source
    have hts : ¬ t ≤ s := by
      intro hle
      have hne : t ≠ s := by
        rintro rfl
        exact hst (le_refl _)
      have hchild : d.kindAt t = some .dir := dir_above (by simp [hk]) hle hne
      obtain ⟨n, hn⟩ : ∃ n, t.child n ≤ s := by
        obtain ⟨hroot, q, hq⟩ := hle
        match q with
        | [] => exact absurd (Loc.ext' hroot (by simpa using hq)) hne
        | n :: q => exact ⟨n, hroot, q, by simpa using hq⟩
      have hnone := hfit.empty
      have hthere : d.kindAt (t.child n) ≠ none := by
        intro h0
        rw [none_of_le h0 hn] at hk
        cases hk
      have hmem := mem_children.mpr hthere
      rw [hnone] at hmem
      cases hmem
    refine ⟨sameOn_shift hshift (fun hn => hn hWs) (fun hn => hn hWt), fun x hx => ?_⟩
    unfold linkAt
    rw [kindAt_shift hshift hts]
    obtain ⟨hxS, hback⟩ := hS x hx
    by_cases htx : t ≤ x
    · rw [if_pos htx]
      exact hd _ (hback htx)
    · rw [if_neg htx]
      by_cases hsx : s ≤ x
      · rw [if_pos hsx]
        rfl
      · rw [if_neg hsx]
        exact hd x hxS

end Sys

end BranchFs.Posix
