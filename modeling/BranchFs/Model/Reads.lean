/-
# BranchFs.Model.Reads -- the trees a branch reads

A branch reads its own delta and snapshot, those of the branches it descends from, and the base
directory. What it resolves, and what a walk through it shows, depends on nothing else: records and
trees of branches it does not descend from can change freely.
-/
import BranchFs.Model.Flat

namespace BranchFs

open BranchFs.Posix BranchFs.Logic

namespace Manager

/-- `name` is the branch itself or one it descends from. -/
inductive Inherits (m : Manager) (name : String) : String → Prop
  | self : Inherits m name name
  | up {branch parent : String} {b : Branch} (hb : m.forest.get? branch = some b)
      (hp : b.parent = some parent) (h : Inherits m name parent) : Inherits m name branch

/-- Resolution in `branch` looks into the tree `r`. -/
def Reads (m : Manager) (branch : String) (r : Root) : Prop :=
  r = .base ∨ ∃ a, m.Inherits a branch ∧ (r = .files a ∨ r = .inherited a)

variable {m m' : Manager} {branch parent : String} {b : Branch}

theorem Reads.base (m : Manager) (branch : String) : m.Reads branch .base := Or.inl rfl

theorem Reads.files (m : Manager) (branch : String) : m.Reads branch (.files branch) :=
  Or.inr ⟨branch, .self, Or.inl rfl⟩

theorem Reads.inherited (m : Manager) (branch : String) : m.Reads branch (.inherited branch) :=
  Or.inr ⟨branch, .self, Or.inr rfl⟩

/-- What the parent reads, the branch reads. -/
theorem Reads.up (hb : m.forest.get? branch = some b) (hp : b.parent = some parent) {r : Root}
    (h : m.Reads parent r) : m.Reads branch r := by
  rcases h with rfl | ⟨a, ha, hr⟩
  · exact Or.inl rfl
  · exact Or.inr ⟨a, .up hb hp ha, hr⟩

/-- The records a branch reads through and the places it may resolve `p` to are the same. -/
structure SameReads (m m' : Manager) (branch : String) (p : RelPath) : Prop where
  record : ∀ a, m.Inherits a branch → m'.forest.get? a = m.forest.get? a
  kind : ∀ r, m.Reads branch r → m'.disk.lkind ⟨some r, p⟩ = m.disk.lkind ⟨some r, p⟩

theorem SameReads.up {p : RelPath} (h : SameReads m m' branch p)
    (hb : m.forest.get? branch = some b) (hp : b.parent = some parent) : SameReads m m' parent p where
  record a ha := h.record a (.up hb hp ha)
  kind r hr := h.kind r (Reads.up hb hp hr)

theorem SameReads.lexists {p : RelPath} (h : SameReads m m' branch p) {r : Root}
    (hr : m.Reads branch r) : m'.disk.lexists ⟨some r, p⟩ = m.disk.lexists ⟨some r, p⟩ := by
  rw [Bool.eq_iff_iff, Disk.lexists_iff_lkind, Disk.lexists_iff_lkind, h.kind r hr]

/-- One step of resolution reads the branch's own trees and the base directory. -/
theorem resolveStep_of_sameReads {p : RelPath} (hb : m.forest.get? branch = some b)
    (h : SameReads m m' branch p) (up : Option Place) :
    resolveStep m'.disk b p up = resolveStep m.disk b p up := by
  have hname := Forest.name_of_get? hb
  refine resolveStep_congr ?_ (h.lexists (Reads.base m branch)) ?_
  · rw [hname]
    exact h.lexists (Reads.files m branch)
  · rw [hname]
    exact h.lexists (Reads.inherited m branch)

theorem resolved_of_sameReads {p : RelPath} (h : SameReads m m' branch p) :
    m'.resolved branch p = m.resolved branch p := by
  cases hb : m.forest.get? branch with
  | none =>
    have hb' : m'.forest.get? branch = none := by rw [h.record branch .self, hb]
    rw [resolved_of_missing hb, resolved_of_missing hb']
  | some b =>
    have main : ∀ c ∈ m.forest.list, SameReads m m' c.name p →
        m'.resolved c.name p = m.resolved c.name p := by
      refine m.forest.grown.ancestry
        (P := fun n => SameReads m m' n p → m'.resolved n p = m.resolved n p) ?_ ?_
      · intro c hc hup hsame
        have hget := Forest.get?_of_mem hc
        have hget' : m'.forest.get? c.name = some c := by rw [hsame.record _ .self, hget]
        unfold resolved
        rw [climb_root m.forest.grown hget hup, climb_root m'.forest.grown hget' hup]
        exact resolveStep_of_sameReads hget hsame none
      · intro c hc q hq ih hsame
        have hget := Forest.get?_of_mem hc
        have hget' : m'.forest.get? c.name = some c := by rw [hsame.record _ .self, hget]
        have hparent := ih (hsame.up hget hq)
        unfold resolved at hparent ⊢
        rw [climb_above m.forest.grown hget hq, climb_above m'.forest.grown hget' hq, hparent]
        exact resolveStep_of_sameReads hget hsame _
    have hname := Forest.name_of_get? hb
    rw [← hname]
    exact main b (Forest.mem_of_get? hb) (hname ▸ h)

/-- What a branch resolves a path to stands in a tree it reads. -/
theorem reads_of_resolved {p : RelPath} {l : Place} (h : m.resolved branch p = some l) :
    ∃ r, m.Reads branch r ∧ l = ⟨some r, p⟩ := by
  cases hb : m.forest.get? branch with
  | none =>
    rw [resolved_of_missing hb] at h
    cases h
  | some b =>
    have hstep : ∀ c, m.forest.get? c.name = some c → ∀ up : Option Place,
        (∀ k, up = some k → ∃ r, m.Reads c.name r ∧ k = ⟨some r, p⟩) →
        ∀ k, resolveStep m.disk c p up = some k → ∃ r, m.Reads c.name r ∧ k = ⟨some r, p⟩ := by
      intro c hc up hup k hk
      unfold resolveStep inheritedStep at hk
      split at hk
      · cases hk
        exact ⟨_, Reads.files m c.name, rfl⟩
      split at hk
      · cases hk
      split at hk
      · cases hk
      split at hk
      · split at hk
        · cases hk
          exact ⟨_, Reads.base m c.name, rfl⟩
        · cases hk
      · exact hup k hk
      · split at hk
        · cases hk
          exact ⟨_, Reads.inherited m c.name, rfl⟩
        · cases hk
    have main : ∀ c ∈ m.forest.list, ∀ l, m.resolved c.name p = some l →
        ∃ r, m.Reads c.name r ∧ l = ⟨some r, p⟩ := by
      refine m.forest.grown.ancestry (P := fun n => ∀ l, m.resolved n p = some l →
        ∃ r, m.Reads n r ∧ l = ⟨some r, p⟩) ?_ ?_
      · intro c hc hup l hl
        have hget := Forest.get?_of_mem hc
        unfold resolved at hl
        rw [climb_root m.forest.grown hget hup] at hl
        exact hstep c hget none (fun k hk => by cases hk) l hl
      · intro c hc q hq ih l hl
        have hget := Forest.get?_of_mem hc
        unfold resolved at hl
        rw [climb_above m.forest.grown hget hq] at hl
        refine hstep c hget _ ?_ l hl
        intro k hk
        obtain ⟨r, hr, heq⟩ := ih k hk
        exact ⟨r, Reads.up hget hq hr, heq⟩
    have hname := Forest.name_of_get? hb
    rw [← hname] at h ⊢
    exact main b (Forest.mem_of_get? hb) l h

theorem kindOf_of_sameReads {p : RelPath} (h : SameReads m m' branch p) :
    m'.kindOf branch p = m.kindOf branch p := by
  unfold kindOf
  rw [resolved_of_sameReads h]
  cases hl : m.resolved branch p with
  | none => rfl
  | some l =>
    obtain ⟨r, hr, rfl⟩ := reads_of_resolved hl
    exact h.kind r hr

/-- No tree the branch reads has a link where the branch shows a directory. -/
def NoLinkUnderShown (m : Manager) (branch : String) : Prop :=
  ∀ q, m.view branch q = some .dir → ∀ r, m.Reads branch r → m.disk.linkAt ⟨some r, q⟩ = false

/-- **A walk through a branch depends on what it reads.** -/
theorem view_of_sameReads (hrecord : ∀ a, m.Inherits a branch → m'.forest.get? a = m.forest.get? a)
    (hkind : ∀ r, m.Reads branch r → ∀ p, m'.disk.kindAt ⟨some r, p⟩ = m.disk.kindAt ⟨some r, p⟩)
    (hlink : m.NoLinkUnderShown branch) : m'.view branch = m.view branch := by
  rw [view_eq_walk, view_eq_walk]
  refine (shown_congr_of_dirs fun q hway => ?_).symm
  -- below directories that are shown every tree is read where it stands
  have hnolink : ∀ r, m.Reads branch r → ∀ a, a <+: q → a ≠ q →
      m.disk.linkAt ⟨some r, a⟩ = false := by
    intro r hr a ha hne
    refine hlink a ?_ r hr
    rw [view_eq_kindOf fun c hc hca => (hway c (proper_of_proper ha hc hca).1
      (proper_of_proper ha hc hca).2).1]
    exact (hway a ha hne).1
  have habove : ∀ d : Tree, ∀ r, (∀ a, a <+: q → a ≠ q → d.linkAt ⟨some r, a⟩ = false) →
      d.NoLinkAbove ⟨some r, q⟩ := by
    intro d r hd
    refine Disk.noLinkAbove_of fun x hx hne => ?_
    have hxq : x = ⟨some r, x.path⟩ := Loc.ext' hx.1 rfl
    rw [hxq]
    exact hd x.path hx.2 fun heq => hne (by rw [hxq, heq])
  refine (kindOf_of_sameReads ⟨hrecord, fun r hr => ?_⟩).symm
  rw [Disk.lkind_eq rfl (habove _ r (hnolink r hr)), Disk.lkind_eq rfl (habove _ r ?_)]
  · exact hkind r hr q
  · intro a ha hne
    unfold Disk.linkAt
    rw [hkind r hr a]
    exact hnolink r hr a ha hne

end Manager

end BranchFs
