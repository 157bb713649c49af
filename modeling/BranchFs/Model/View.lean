/-
# BranchFs.Model.View -- what a branch shows

`kindOf` is what `resolve_path` denotes at a path, `view` the same where every directory on the way
is shown as a directory: what a walk through the mount finds.
-/
import BranchFs.Model.Ops
import BranchFs.Posix.Grow

namespace BranchFs

open BranchFs.Posix BranchFs.Logic

/-- The proper prefixes of a path, the root first. -/
def properPrefixes : RelPath → List RelPath
  | [] => []
  | n :: p => [] :: (properPrefixes p).map (n :: ·)

theorem mem_properPrefixes {a p : RelPath} : a ∈ properPrefixes p ↔ a <+: p ∧ a ≠ p := by
  induction p generalizing a with
  | nil => simp [properPrefixes]
  | cons n p ih =>
    simp only [properPrefixes, List.mem_cons, List.mem_map]
    constructor
    · rintro (rfl | ⟨b, hb, rfl⟩)
      · exact ⟨List.nil_prefix, by simp⟩
      · obtain ⟨hpre, hne⟩ := ih.mp hb
        exact ⟨List.cons_prefix_cons.mpr ⟨rfl, hpre⟩, by simpa using hne⟩
    · rintro ⟨hpre, hne⟩
      cases a with
      | nil => exact Or.inl rfl
      | cons m a =>
        obtain ⟨rfl, hpre'⟩ := List.cons_prefix_cons.mp hpre
        exact Or.inr ⟨a, ih.mpr ⟨hpre', by simpa using hne⟩, rfl⟩

/-- What a path denotes, as `symlink_metadata` reads it. -/
def kindAtPath (d : Tree) (l : Option Place) : Option Entry := l.bind d.lkind

theorem kindAtPath_none (d : Tree) : kindAtPath d none = none := rfl

namespace Manager

/-- What `resolve_path` denotes. -/
def kindOf (m : Manager) (branch : String) (p : RelPath) : Option Entry :=
  kindAtPath m.disk (m.resolved branch p)

/-- What a branch inherits at a path that is not hidden. -/
def inheritedKind (m : Manager) (b : Branch) (p : RelPath) : Option Entry :=
  kindAtPath m.disk (m.inheritedForTouch b p)

/-- What a walk through a mount of the branch finds. -/
def view (m : Manager) (branch : String) (p : RelPath) : Option Entry :=
  if ∀ a ∈ properPrefixes p, m.kindOf branch a = some .dir then m.kindOf branch p else none

theorem inheritedStep_lkind {d : Tree} {b : Branch} {p : RelPath} {up l : Option Place}
    (hup : ∀ k, up = some k → d.lkind k ≠ none) (h : inheritedStep d b p up = l) :
    ∀ k, l = some k → d.lkind k ≠ none := by
  rintro k rfl
  unfold inheritedStep at h
  split at h
  · split at h
    · next hex =>
      cases h
      exact Disk.lexists_iff_lkind.mp hex
    · cases h
  · exact hup k h
  · split at h
    · next hex =>
      cases h
      exact Disk.lexists_iff_lkind.mp hex
    · cases h

/-- Whatever resolution answers is there. -/
theorem resolved_lkind {m : Manager} {branch : String} {p : RelPath} {l : Place}
    (h : m.resolved branch p = some l) : m.disk.lkind l ≠ none := by
  cases hb : m.forest.get? branch with
  | none =>
    rw [resolved_of_missing hb] at h
    cases h
  | some b =>
    have main : ∀ c ∈ m.forest.list, ∀ l, m.resolved c.name p = some l → m.disk.lkind l ≠ none := by
      refine m.forest.grown.ancestry (P := fun n => ∀ l, m.resolved n p = some l →
        m.disk.lkind l ≠ none) ?_ ?_
      · intro c hc hup l hl
        rw [resolved_eq (Forest.get?_of_mem hc)] at hl
        split at hl
        · next hd =>
          cases hl
          exact Disk.lexists_iff_lkind.mp hd
        · split at hl
          · cases hl
          · split at hl
            · cases hl
            · unfold inheritedResolve at hl
              rw [hup, Option.bind_none] at hl
              exact inheritedStep_lkind (fun _ hk => absurd hk (by simp)) hl l rfl
      · intro c hc q hq ih l hl
        rw [resolved_eq (Forest.get?_of_mem hc)] at hl
        split at hl
        · next hd =>
          cases hl
          exact Disk.lexists_iff_lkind.mp hd
        · split at hl
          · cases hl
          · split at hl
            · cases hl
            · unfold inheritedResolve at hl
              rw [hq, Option.bind_some] at hl
              exact inheritedStep_lkind ih hl l rfl
    have hmem := Forest.mem_of_get? hb
    have hname := Forest.name_of_get? hb
    exact main b hmem l (by rw [hname]; exact h)

theorem kindOf_eq_none {m : Manager} {branch : String} {p : RelPath} :
    m.kindOf branch p = none ↔ m.resolved branch p = none := by
  unfold kindOf kindAtPath
  cases h : m.resolved branch p with
  | none => simp
  | some l => simpa using resolved_lkind h

theorem inheritedResolve_lkind {m : Manager} {b : Branch} {p : RelPath} {l : Place}
    (h : m.inheritedResolve b p = some l) : m.disk.lkind l ≠ none := by
  refine inheritedStep_lkind (d := m.disk) ?_ h l rfl
  intro k hk
  cases hp : b.parent with
  | none => simp [hp] at hk
  | some q =>
    rw [hp, Option.bind_some] at hk
    exact resolved_lkind hk

theorem inheritedKind_eq_none {m : Manager} {b : Branch} {p : RelPath} :
    m.inheritedKind b p = none ↔ m.inheritedForTouch b p = none := by
  unfold inheritedKind kindAtPath
  cases h : m.inheritedForTouch b p with
  | none => simp
  | some l =>
    unfold inheritedForTouch at h
    split at h
    · cases h
    · simpa using inheritedResolve_lkind h

/-- What a branch shows at a path, from its own delta and what it inherits. -/
theorem kindOf_eq {m : Manager} {branch : String} {b : Branch}
    (h : m.forest.get? branch = some b) (p : RelPath) :
    m.kindOf branch p =
      if hasDelta m.disk branch p then m.disk.lkind (deltaPath branch p)
      else if b.isDeleted p then none
      else m.inheritedKind b p := by
  unfold kindOf inheritedKind inheritedForTouch
  rw [resolved_eq h]
  split
  · rfl
  · split
    · rfl
    · rfl

theorem view_eq_kindOf {m : Manager} {branch : String} {p : RelPath}
    (h : ∀ a, a <+: p → a ≠ p → m.kindOf branch a = some .dir) :
    m.view branch p = m.kindOf branch p := by
  unfold view
  rw [if_pos]
  intro a ha
  obtain ⟨hpre, hne⟩ := mem_properPrefixes.mp ha
  exact h a hpre hne

theorem view_eq_none {m : Manager} {branch : String} {p a : RelPath} (ha : a <+: p) (hne : a ≠ p)
    (h : m.kindOf branch a ≠ some .dir) : m.view branch p = none := by
  unfold view
  rw [if_neg]
  exact fun hall => h (hall a (mem_properPrefixes.mpr ⟨ha, hne⟩))

theorem kindOf_of_view_dir {m : Manager} {branch : String} {p : RelPath}
    (h : m.view branch p = some .dir) : ∀ a, a <+: p → m.kindOf branch a = some .dir := by
  unfold view at h
  split at h
  · next hall =>
    intro a ha
    by_cases heq : a = p
    · rw [heq, h]
    · exact hall a (mem_properPrefixes.mpr ⟨ha, heq⟩)
  · cases h

end Manager

end BranchFs
