/-
# BranchFs.Model.Through -- what is read through lazy branches

A lazy branch shows at a path what its parent shows there, unless its own delta, a tombstone or a hide
rule stands in the way. So a change of one branch is seen at a path by the branches that read the path
through to it, at any depth below it, and by no other.
-/
import BranchFs.Model.Flat

namespace BranchFs

open BranchFs.Posix BranchFs.Logic

namespace Manager

/-- `name` reads `q` in `branch`: it is the branch itself, or lies lazily over one that does and has
nothing of its own at the path. -/
inductive ReadsThrough (m : Manager) (branch : String) (q : RelPath) : String → Prop
  | self : ReadsThrough m branch q branch
  | up {name parent : String} {b : Branch} (hb : m.forest.get? name = some b)
      (hp : b.parent = some parent) (hlazy : b.inheritance = .lazy)
      (hdelta : deltaKind m.disk name q = none) (hdel : b.isDeleted q = false)
      (hhide : b.isHidden q = false) (h : ReadsThrough m branch q parent) :
      ReadsThrough m branch q name

/-- Of the branches that are left only `branch` has changed, and the base directory has not. -/
structure ChangesOnly (m m' : Manager) (branch : String) : Prop where
  record : ∀ n c, n ≠ branch → m'.forest.get? n = some c → m.forest.get? n = some c
  delta : ∀ n, n ≠ branch → m'.forest.get? n ≠ none →
    ∀ q, deltaKind m'.disk n q = deltaKind m.disk n q
  snapshot : ∀ n, m'.forest.get? n ≠ none →
    ∀ q, m'.disk.kindAt (inheritedPath n q) = m.disk.kindAt (inheritedPath n q)
  base : ∀ q, m'.disk.kindAt (basePath q) = m.disk.kindAt (basePath q)

variable {m m' : Manager} {branch name : String} {b : Branch} {q : RelPath}

theorem ReadsThrough.flat (h : m.ReadsThrough branch q name) : m.flat name q = m.flat branch q := by
  induction h with
  | self => rfl
  | up hb hp hlazy hdelta hdel hhide _ ih =>
    rw [flat_eq hb, hdelta]
    simp only [hdel, flatInherited, hhide, flatInheritedStep, hp, hlazy, Option.bind_some,
      Bool.false_eq_true, if_false]
    exact ih

/-- The branches between are left as they were. -/
theorem ReadsThrough.after (h : m.ReadsThrough branch q name) (hc : m.ChangesOnly m' branch)
    (hname : m'.forest.get? name ≠ none) : m'.ReadsThrough branch q name := by
  induction h with
  | self => exact .self
  | @up name parent b hb hp hlazy hdelta hdel hhide _ ih =>
    by_cases hne : name = branch
    · rw [hne]
      exact .self
    obtain ⟨c, hc'⟩ := Option.ne_none_iff_exists'.mp hname
    obtain rfl : b = c := Option.some.inj (hb.symm.trans (hc.record name c hne hc'))
    obtain ⟨up, hup⟩ := Forest.get?_parent hc' hp
    refine .up hc' hp hlazy ?_ hdel hhide (ih (by rw [hup]; simp))
    rw [hc.delta name hne hname, hdelta]

/-- What is read through to a branch is only read while the branch is there. -/
theorem ReadsThrough.there (h : m.ReadsThrough branch q name) (hname : m.forest.get? name ≠ none) :
    m.forest.get? branch ≠ none := by
  induction h with
  | self => exact hname
  | up hb hp _ _ _ _ _ ih =>
    obtain ⟨up, hup⟩ := Forest.get?_parent hb hp
    exact ih (by rw [hup]; simp)

/-- **A branch that does not read a path through to the changed one** has there what it had. -/
theorem ChangesOnly.flat (hc : m.ChangesOnly m' branch) (hname : m'.forest.get? name ≠ none)
    (hnot : ¬ m.ReadsThrough branch q name) : m'.flat name q = m.flat name q := by
  -- one branch: its record, its own trees and, where it is lazy, its parent
  have hown : ∀ c, m'.forest.get? c.name = some c → ¬ m.ReadsThrough branch q c.name →
      (∀ parent, c.parent = some parent → m.ReadsThrough branch q parent ∨
        m'.flat parent q = m.flat parent q) → m'.flat c.name q = m.flat c.name q := by
    intro c hget' hno hup
    have hne : c.name ≠ branch := by
      rintro rfl
      exact hno .self
    have hget := hc.record _ _ hne hget'
    have hthere : m'.forest.get? c.name ≠ none := by simp [hget']
    rw [flat_eq hget', flat_eq hget, hc.delta _ hne hthere]
    cases hdelta : deltaKind m.disk c.name q with
    | some k => rfl
    | none =>
      by_cases hdel : c.isDeleted q = true
      · simp only [hdel, if_true]
      by_cases hhide : c.isHidden q = true
      · simp only [hdel, flatInherited, hhide, if_true]
      rw [Bool.not_eq_true] at hdel hhide
      simp only [hdel, flatInherited, hhide, Bool.false_eq_true, if_false]
      cases hp : c.parent with
      | none =>
        simp only [flatInheritedStep, hp]
        exact hc.base q
      | some parent =>
        cases hinh : c.inheritance with
        | snapshot =>
          simp only [flatInheritedStep, hp, hinh]
          exact hc.snapshot _ hthere q
        | «lazy» =>
          simp only [flatInheritedStep, hp, hinh, Option.bind_some]
          exact (hup parent hp).resolve_left fun h => hno (.up hget hp hinh hdelta hdel hhide h)
  obtain ⟨c, hget⟩ := Option.ne_none_iff_exists'.mp hname
  have main := m'.forest.grown.ancestry
    (P := fun n => m.ReadsThrough branch q n ∨ m'.flat n q = m.flat n q) ?_ ?_
  · have hc' := main c (Forest.mem_of_get? hget)
    rw [Forest.name_of_get? hget] at hc'
    exact hc'.resolve_left hnot
  · intro c hmem hroot
    by_cases hthrough : m.ReadsThrough branch q c.name
    · exact Or.inl hthrough
    · exact Or.inr (hown c (Forest.get?_of_mem hmem) hthrough (by rw [hroot]; simp))
  · intro c hmem parent hp ih
    by_cases hthrough : m.ReadsThrough branch q c.name
    · exact Or.inl hthrough
    · refine Or.inr (hown c (Forest.get?_of_mem hmem) hthrough fun up hup => ?_)
      obtain rfl : parent = up := Option.some.inj (hp.symm.trans hup)
      exact ih

/-- **Where a branch changes**: where it reads through to the changed branch and that one changes. -/
theorem ChangesOnly.flat_ne_iff (hc : m.ChangesOnly m' branch) (hname : m'.forest.get? name ≠ none) :
    m'.flat name q ≠ m.flat name q ↔
      m.ReadsThrough branch q name ∧ m'.flat branch q ≠ m.flat branch q := by
  by_cases hthrough : m.ReadsThrough branch q name
  · rw [hthrough.flat, (hthrough.after hc hname).flat]
    exact ⟨fun h => ⟨hthrough, h⟩, fun h => h.2⟩
  · rw [hc.flat hname hthrough]
    exact ⟨fun h => absurd rfl h, fun h => absurd h.1 hthrough⟩

/-- **When a walk through a branch changes.** -/
theorem ChangesOnly.view_ne_iff (hc : m.ChangesOnly m' branch) (hb : m.forest.get? name = some b)
    (hname : m'.forest.get? name ≠ none) (hlink : m.NoLinkUnderFlat name)
    (hlink' : m'.NoLinkUnderFlat name) :
    (∃ q, m'.view name q ≠ m.view name q) ↔
      ∃ q, (∀ a, a <+: q → a ≠ q → m.view name a = some .dir) ∧ m.ReadsThrough branch q name ∧
        m'.flat branch q ≠ m.flat branch q := by
  obtain ⟨b', hb'⟩ := Option.ne_none_iff_exists'.mp hname
  have hview : m.view name = shown .dir (m.flat name) := funext (view_eq_shown hb hlink)
  have hview' : m'.view name = shown .dir (m'.flat name) := funext (view_eq_shown hb' hlink')
  have hsame : shown .dir (m.flat name) = shown .dir (m'.flat name) ↔
      ∀ q, (∀ a, a <+: q → a ≠ q → m.flat name a = some .dir) → m.flat name q = m'.flat name q :=
    shown_eq_iff
  rw [← Function.ne_iff, hview, hview', ne_comm, ne_eq, hsame]
  push Not
  refine exists_congr fun q => ?_
  rw [shown_way_iff, ← hc.flat_ne_iff hname, ne_comm]

/-- Where nothing had a link and the changed branch's delta has none, no layer has one. -/
theorem ChangesOnly.noLink (hc : m.ChangesOnly m' branch) (hlink : ∀ l, m.disk.linkAt l = false)
    (hbranch : m'.forest.get? branch ≠ none → ∀ q, m'.disk.linkAt (deltaPath branch q) = false)
    (hname : m'.forest.get? name ≠ none) : m'.NoLinkUnderFlat name := by
  have hkeep : ∀ l, m'.disk.kindAt l = m.disk.kindAt l → m'.disk.linkAt l = false := by
    intro l hl
    have hbefore := hlink l
    unfold Disk.linkAt at hbefore ⊢
    rwa [hl]
  intro q _ r hr
  simp only [layers, List.mem_cons, List.mem_flatMap, List.not_mem_nil, or_false] at hr
  rcases hr with rfl | rfl | ⟨c, hc', rfl | rfl⟩
  · exact hkeep _ (hc.base q)
  · exact hkeep _ (hc.snapshot name hname q)
  · have hthere := Forest.get?_of_mem (mem_of_mem_olderThan hc')
    by_cases hne : c.name = branch
    · rw [hne]
      exact hbranch (by rw [← hne]; simp [hthere]) q
    · exact hkeep _ (hc.delta c.name hne (by simp [hthere]) q)
  · have hthere := Forest.get?_of_mem (mem_of_mem_olderThan hc')
    exact hkeep _ (hc.snapshot c.name (by simp [hthere]) q)

end Manager

end BranchFs
