/-
# BranchFs.Cow.Shown -- from what a branch shows to what its delta holds

A directory that a branch shows is a directory in its delta or not there at all, at every step of
the way: the delta shadows what is inherited, so a file or link in it would be shown instead. This
is what makes the delta path of a name in a shown directory a `FreePlace`, and in the other
direction lets the delta decide what is shown once it holds the directories itself.
-/
import BranchFs.Cow.Ensure

namespace BranchFs

open BranchFs.Posix BranchFs.Logic

theorem le_deltaPath {name : String} {x : Place} {p : RelPath} :
    x ≤ deltaPath name p ↔ ∃ a, a <+: p ∧ x = deltaPath name a := by
  constructor
  · intro h
    exact ⟨x.path, h.2, Loc.ext' h.1 rfl⟩
  · rintro ⟨a, ha, rfl⟩
    exact ⟨rfl, ha⟩

theorem deltaPath_le {name : String} {a p : RelPath} :
    deltaPath name a ≤ deltaPath name p ↔ a <+: p := by
  simp [deltaPath]

theorem deltaPath_ne {name : String} {a p : RelPath} :
    deltaPath name a ≠ deltaPath name p ↔ a ≠ p := by
  simp [deltaPath]

theorem prefix_of_mem_dir {a dir : RelPath} {n : String} (h : a <+: dir ++ [n])
    (hne : a ≠ dir ++ [n]) : a <+: dir := by
  rcases List.prefix_concat_iff.mp h with heq | hpre
  · exact absurd heq hne
  · exact hpre

section Shown

variable {m : Manager} {name : String} {b : Branch}

/-- The delta has a directory or nothing at every step to a directory the branch shows. -/
theorem delta_of_shown (hb : m.forest.get? name = some b) {dir : RelPath}
    (hshown : ∀ a, a <+: dir → m.kindOf name a = some .dir) :
    ∀ (k : Nat) (a : RelPath), a.length = k → a <+: dir →
      m.disk.NoLinkAbove (deltaPath name a) ∧
      (m.disk.kindAt (deltaPath name a) = none ∨ m.disk.kindAt (deltaPath name a) = some .dir) := by
  intro k
  -- from the root down: what stands above `a` is no link, so the delta is read where it stands
  induction k using Nat.strong_induction_on with
  | _ k ih =>
    intro a hk ha
    have hlink : m.disk.NoLinkAbove (deltaPath name a) := by
      refine Disk.noLinkAbove_of fun x hx hne => ?_
      obtain ⟨c, hc, rfl⟩ := le_deltaPath.mp hx
      have hlt : c.length < a.length := by
        refine lt_of_le_of_ne hc.length_le fun heq => ?_
        exact (deltaPath_ne.mp hne) (hc.eq_of_length heq)
      rcases (ih c.length (hk ▸ hlt) c rfl (hc.trans ha)).2 with hnone | hdir
      · exact Disk.linkAt_of_none hnone
      · exact Disk.linkAt_eq_false_of_kind hdir rfl
    refine ⟨hlink, ?_⟩
    have hkind := hshown a ha
    rw [Manager.kindOf_eq hb] at hkind
    unfold hasDelta at hkind
    by_cases hd : m.disk.lexists (deltaPath name a) = true
    · rw [if_pos hd, Disk.lkind_eq rfl hlink] at hkind
      exact Or.inr hkind
    · rw [Disk.lexists_eq rfl hlink, not_not] at hd
      exact Or.inl hd

/-- **The delta path of a missing name in a shown directory is free.** -/
theorem freePlace_of_shown (hb : m.forest.get? name = some b) {dir : RelPath} {n : String}
    (hdir : m.view name dir = some .dir) (hnone : m.view name (dir ++ [n]) = none) :
    FreePlace m.disk (deltaPath name (dir ++ [n])) := by
  have hshown := Manager.kindOf_of_view_dir hdir
  have hdelta := fun a ha => (delta_of_shown hb hshown a.length a rfl ha).2
  have hup : ∀ x, x ≤ deltaPath name (dir ++ [n]) → x ≠ deltaPath name (dir ++ [n]) →
      m.disk.kindAt x = none ∨ m.disk.kindAt x = some .dir := by
    intro x hx hne
    obtain ⟨a, ha, rfl⟩ := le_deltaPath.mp hx
    exact hdelta a (prefix_of_mem_dir ha (deltaPath_ne.mp hne))
  have hlink : m.disk.NoLinkAbove (deltaPath name (dir ++ [n])) := by
    refine Disk.noLinkAbove_of fun x hx hne => ?_
    rcases hup x hx hne with h | h
    · exact Disk.linkAt_of_none h
    · exact Disk.linkAt_eq_false_of_kind h rfl
  refine ⟨⟨_, rfl⟩, hlink, ?_, ?_⟩
  · rw [← Bool.not_eq_true, Disk.fileAbove_iff]
    rintro ⟨x, hx, hne, hf⟩
    rcases hup x hx hne with h | h <;> simp [Disk.fileAt, h, Kind.isFile] at hf
  · rw [Manager.view_eq_kindOf fun a ha hne => hshown a (prefix_of_mem_dir ha hne),
      Manager.kindOf_eq_none, Manager.resolved_eq hb] at hnone
    by_contra hk
    have hex : hasDelta m.disk name (dir ++ [n]) = true := (Disk.lexists_eq rfl hlink).mpr hk
    rw [if_pos hex] at hnone
    cases hnone

/-- A name that is missing from a shown directory is deleted or not inherited. -/
theorem deleted_of_shown (hb : m.forest.get? name = some b) {dir : RelPath} {n : String}
    (hdir : m.view name dir = some .dir) (hnone : m.view name (dir ++ [n]) = none) :
    b.isDeleted (dir ++ [n]) = true ∨ m.inheritedKind b (dir ++ [n]) = none := by
  have hshown := Manager.kindOf_of_view_dir hdir
  have hfree := freePlace_of_shown hb hdir hnone
  have hdelta : hasDelta m.disk name (dir ++ [n]) = false := not_lexists_of_free hfree
  rw [Manager.view_eq_kindOf fun a ha hne => hshown a (prefix_of_mem_dir ha hne),
    Manager.kindOf_eq hb, hdelta] at hnone
  by_cases hdel : b.isDeleted (dir ++ [n]) = true
  · exact Or.inl hdel
  · simp only [Bool.false_eq_true, if_false, hdel] at hnone
    exact Or.inr hnone

/-- What the delta holds is what the branch resolves to. -/
theorem kindOf_of_delta {k : Entry} (hb : m.forest.get? name = some b) {p : RelPath}
    (hlink : m.disk.NoLinkAbove (deltaPath name p)) (hk : m.disk.kindAt (deltaPath name p) = some k) :
    m.kindOf name p = some k := by
  have hl : m.disk.lkind (deltaPath name p) = some k := by rw [Disk.lkind_eq rfl hlink, hk]
  have hex : hasDelta m.disk name p = true := Disk.lexists_iff_lkind.mpr (by simp [hl])
  rw [Manager.kindOf_eq hb, if_pos hex, hl]

/-- With directories all the way down to it, what the delta holds is what the branch shows. -/
theorem view_of_delta {k : Entry} (hb : m.forest.get? name = some b) {p : RelPath}
    (hk : m.disk.kindAt (deltaPath name p) = some k) : m.view name p = some k := by
  have hnon : m.disk.kindAt (deltaPath name p) ≠ none := by simp [hk]
  have hlink := Disk.noLinkAbove_of_dir (Disk.dir_parent hnon)
  rw [Manager.view_eq_kindOf, kindOf_of_delta hb hlink hk]
  intro a ha hne
  have hdir : m.disk.kindAt (deltaPath name a) = some .dir :=
    Disk.dir_above hnon (deltaPath_le.mpr ha) (deltaPath_ne.mpr hne)
  exact kindOf_of_delta hb (hlink.mono (deltaPath_le.mpr ha)) hdir

end Shown

end BranchFs
