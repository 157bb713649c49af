/-
# BranchFs.Merge.Side -- the side names of a staged merge, and the calls that use them

A merge keeps its copies and its trash under the names `.branchfs-tmp.*` and `.branchfs-trash.*`
next to their destinations. A path without such a component is `PlainPath`; the side names of two
plain paths never meet, so the side files of one step are out of the way of every other.
-/
import BranchFs.Model.Staged
import BranchFs.Logic.Aside

namespace BranchFs

open BranchFs.Posix BranchFs.Logic

/-- The side name of an entry. -/
def sideName (tag name : String) : String := ".branchfs-" ++ tag ++ "." ++ name

/-- A name a merge reserves for itself. -/
def isSideName (n : String) : Bool :=
  startsWith n ".branchfs-tmp." || startsWith n ".branchfs-trash."

/-- No component is a side name. -/
def PlainPath (p : RelPath) : Prop := ∀ n ∈ p, isSideName n = false

instance (p : RelPath) : Decidable (PlainPath p) := inferInstanceAs (Decidable (∀ n ∈ p, _))

theorem PlainPath.mono {a p : RelPath} (h : PlainPath p) (ha : a <+: p) : PlainPath a :=
  fun n hn => h n (ha.subset hn)

theorem isSideName_tmp (n : String) : isSideName (sideName "tmp" n) = true := by
  simp [isSideName, startsWith, sideName, String.toList_append, List.isPrefixOf]

theorem isSideName_trash (n : String) : isSideName (sideName "trash" n) = true := by
  simp [isSideName, startsWith, sideName, String.toList_append, List.isPrefixOf]

theorem sideName_inj {tag n n' : String} (h : sideName tag n = sideName tag n') : n = n' := by
  have hl := congrArg String.toList h
  simp only [sideName, String.toList_append, List.append_assoc, List.append_cancel_left_eq] at hl
  exact String.toList_inj.mp hl

theorem sideName_tmp_ne_trash (n n' : String) : sideName "tmp" n ≠ sideName "trash" n' := by
  intro h
  have hl := congrArg String.toList h
  simp [sideName, String.toList_append] at hl

/-- A path in one of the trees. -/
def inTree (R : Root) (p : RelPath) : Place := ⟨some R, p⟩

/-- The path of the side file of `p`. -/
def sidePath (tag : String) (p : RelPath) : RelPath := p.dropLast ++ [sideName tag (p.getLastD "")]

theorem commitSidePath_inTree (R : Root) (p : RelPath) (tag : String) :
    commitSidePath (inTree R p) tag = inTree R (sidePath tag p) := rfl

@[simp] theorem sidePath_dropLast (tag : String) (p : RelPath) :
    (sidePath tag p).dropLast = p.dropLast := by
  simp [sidePath]

@[simp] theorem sidePath_ne_nil (tag : String) (p : RelPath) : sidePath tag p ≠ [] := by
  simp [sidePath]

theorem inTree_le {R : Root} {a p : RelPath} : inTree R a ≤ inTree R p ↔ a <+: p := by
  simp [inTree]

theorem inTree_ne {R : Root} {a p : RelPath} : inTree R a ≠ inTree R p ↔ a ≠ p := by
  simp [inTree]

theorem le_inTree {R : Root} {x : Place} {p : RelPath} :
    x ≤ inTree R p ↔ ∃ a, a <+: p ∧ x = inTree R a := by
  constructor
  · intro h
    exact ⟨x.path, h.2, Loc.ext' h.1 rfl⟩
  · rintro ⟨a, ha, rfl⟩
    exact ⟨rfl, ha⟩

theorem inTree_parent (R : Root) (p : RelPath) : (inTree R p).parent = inTree R p.dropLast := rfl

/-- Nothing at or below a side path is plain. -/
theorem not_plain_of_side {tag : String} (htag : tag = "tmp" ∨ tag = "trash") {p q : RelPath}
    (hle : sidePath tag p <+: q) : ¬ PlainPath q := by
  intro hq
  have hmem : sideName tag (p.getLastD "") ∈ q := hle.subset (by simp [sidePath])
  have hside := hq _ hmem
  rcases htag with rfl | rfl
  · rw [isSideName_tmp] at hside
    cases hside
  · rw [isSideName_trash] at hside
    cases hside

theorem sidePath_ne_of_plain {tag : String} (htag : tag = "tmp" ∨ tag = "trash") {p q : RelPath}
    (hq : PlainPath q) : sidePath tag p ≠ q := by
  rintro rfl
  exact not_plain_of_side htag List.prefix_rfl hq

/-- The last name of a path puts it back together. -/
theorem dropLast_getLastD {p : RelPath} (h : p ≠ []) : p.dropLast ++ [p.getLastD ""] = p := by
  conv_rhs => rw [← List.dropLast_append_getLast h]
  rw [List.getLastD_eq_getLast?, List.getLast?_eq_getLast_of_ne_nil h]
  rfl

theorem sidePath_inj {tag : String} {p q : RelPath} (hp : p ≠ []) (hq : q ≠ [])
    (h : sidePath tag p = sidePath tag q) : p = q := by
  obtain ⟨hd, hl⟩ := List.append_inj' h rfl
  have hname : p.getLastD "" = q.getLastD "" := sideName_inj (List.cons.inj hl).1
  rw [← dropLast_getLastD hp, ← dropLast_getLastD hq, hd, hname]

/-- A side path is above nothing but what is below it: another side path of the same kind stands
apart, or is the same. -/
theorem sidePath_not_le {tag tag' : String} (htag : tag = "tmp" ∨ tag = "trash")
    {p q : RelPath} (hq : PlainPath q) (h : sidePath tag p <+: sidePath tag' q) :
    sidePath tag p = sidePath tag' q := by
  rcases List.prefix_concat_iff.mp h with heq | hpre
  · exact heq
  · exact absurd (hq.mono (List.dropLast_prefix q)) (not_plain_of_side htag hpre)

theorem tmp_ne_trash {p q : RelPath} : sidePath "tmp" p ≠ sidePath "trash" q := by
  intro h
  obtain ⟨_, hl⟩ := List.append_inj' h rfl
  exact sideName_tmp_ne_trash _ _ (List.cons.inj hl).1

theorem sideName_ne (tag n : String) : sideName tag n ≠ n := by
  intro h
  have hl := congrArg (fun s => s.toList.length) h
  simp only [sideName, String.toList_append, List.length_append] at hl
  have hpos : 0 < ".branchfs-".toList.length := by decide
  omega

theorem sidePath_ne (tag : String) (p : RelPath) : sidePath tag p ≠ p := by
  intro h
  have hne : p ≠ [] := h ▸ sidePath_ne_nil tag p
  have hl : sideName tag (p.getLastD "") = p.getLastD "" := by
    conv_rhs => rw [← h]
    rw [sidePath, List.getLastD_concat]
  exact sideName_ne tag _ hl

/-- The side names of a merge. -/
theorem sideNames : SideNames (sidePath "tmp") (sidePath "trash") where
  tmp_dropLast := sidePath_dropLast "tmp"
  trash_dropLast := sidePath_dropLast "trash"
  tmp_ne_nil := sidePath_ne_nil "tmp"
  trash_ne_nil := sidePath_ne_nil "trash"
  tmp_ne := sidePath_ne "tmp"
  trash_ne := sidePath_ne "trash"
  tmp_inj := sidePath_inj
  tmp_ne_trash := fun _ _ => tmp_ne_trash

theorem not_side_le_self (tag : String) {p : RelPath} (hne : p ≠ []) : ¬ sidePath tag p <+: p :=
  not_le_sibling (sidePath_dropLast tag p) (sidePath_ne_nil tag p) hne (sidePath_ne tag p)

theorem not_self_le_side (tag : String) {p : RelPath} (hne : p ≠ []) : ¬ p <+: sidePath tag p :=
  not_le_sibling (sidePath_dropLast tag p).symm hne (sidePath_ne_nil tag p) (sidePath_ne tag p).symm

/-- A plain path and a side path stand apart unless the plain one is the directory of the other or
above it. -/
theorem plain_le_side {tag : String} {p q : RelPath} (hq : PlainPath q)
    (htag : tag = "tmp" ∨ tag = "trash") (h : q <+: sidePath tag p) : q <+: p.dropLast := by
  rcases List.prefix_concat_iff.mp h with heq | hpre
  · exact absurd hq (heq ▸ not_plain_of_side htag List.prefix_rfl)
  · exact hpre

end BranchFs
