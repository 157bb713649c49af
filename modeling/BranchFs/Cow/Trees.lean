/-
# BranchFs.Cow.Trees -- when the views are trees

A lookup asks the delta of one path, the tombstones and hide rules of a branch, and then the next branch
on the way to `main`: nothing compares what it finds with what stands above. So the views are trees as
long as no lookup gets past that. It does in four ways: through a symlink of a delta, or of the tree under
the last branch; below a file that took a directory's place when its tombstone was dropped; and below a
directory that a hide rule masks without masking what is in it.
-/
import BranchFs.Model.View
import BranchFs.Store.Hidden

namespace BranchFs

open BranchFs.Posix BranchFs.Logic BranchFs.Store

/-! ## The branches a lookup reads -/

/-- A tombstone or a hide rule of the branch covers the path. -/
def Branch.Masks (b : Branch) (p : RelPath) : Prop := b.isDeleted p = true ∨ b.isHidden p = true

theorem Branch.not_masks {b : Branch} {p : RelPath} :
    ¬ b.Masks p ↔ b.isDeleted p = false ∧ b.isHidden p = false := by
  simp [Branch.Masks]

/-- Where a branch that reads no other one reads what it inherits. -/
def Branch.groundPath (b : Branch) (p : RelPath) : Place :=
  match b.parent with
  | none => basePath p
  | some _ => inheritedPath b.name p

/-- The branches further up that a branch reads, given those its parent reads and the parent. -/
def Branch.linePast (b : Branch) (up : List Branch) : List Branch :=
  match b.parent, b.inheritance with
  | some _, .lazy => up
  | _, _ => []

namespace Manager

/-- The branches a lookup reads, from the branch itself up to `main` or to one with a snapshot. -/
def line (m : Manager) (branch : String) : List Branch :=
  climb Branch.name Branch.parent [] (fun b => [b]) (fun b up => b :: b.linePast up) m.forest.list
    branch

/-- Those past the branch itself. -/
def lineAbove (m : Manager) (b : Branch) : List Branch :=
  b.linePast ((b.parent.map m.line).getD [])

theorem line_eq {m : Manager} {branch : String} {b : Branch} (h : m.forest.get? branch = some b) :
    m.line branch = b :: m.lineAbove b := by
  unfold lineAbove
  cases hup : b.parent with
  | none =>
    rw [line, climb_root m.forest.grown h hup]
    simp [Branch.linePast, hup]
  | some parent =>
    rw [line, climb_above m.forest.grown h hup]
    rfl

end Manager

/-- What stands at a path along a line of branches: in the delta of one, masked by none before it, or in
the tree under the last, masked by none. -/
def Held (d : Tree) (line : List Branch) (p : RelPath) : Prop :=
  (∃ nearer c further, line = nearer ++ c :: further ∧ (∀ a ∈ nearer, ¬ a.Masks p) ∧
    hasDelta d c.name p = true) ∨
  ∃ nearer c, line = nearer ++ [c] ∧ (∀ a ∈ line, ¬ a.Masks p) ∧
    d.lexists (c.groundPath p) = true

/-- What a branch reads of a path past its own delta, tombstones and hide rules. -/
def Manager.HeldPast (m : Manager) (b : Branch) (p : RelPath) : Prop :=
  (m.lineAbove b = [] ∧ m.disk.lexists (b.groundPath p) = true) ∨ Held m.disk (m.lineAbove b) p

theorem held_cons {d : Tree} {b : Branch} {line : List Branch} {p : RelPath} :
    Held d (b :: line) p ↔ hasDelta d b.name p = true ∨
      (¬ b.Masks p ∧ ((line = [] ∧ d.lexists (b.groundPath p) = true) ∨ Held d line p)) := by
  constructor
  · rintro (⟨nearer, c, further, hline, hclear, hdelta⟩ | ⟨nearer, c, hline, hclear, hground⟩)
    · cases nearer with
      | nil =>
        obtain ⟨rfl, rfl⟩ := List.cons.inj hline
        exact Or.inl hdelta
      | cons a nearer =>
        obtain ⟨rfl, rfl⟩ := List.cons.inj hline
        refine Or.inr ⟨hclear _ List.mem_cons_self, Or.inr (Or.inl ⟨nearer, c, further, rfl, ?_, hdelta⟩)⟩
        exact fun a ha => hclear a (List.mem_cons_of_mem _ ha)
    · right
      refine ⟨hclear b List.mem_cons_self, ?_⟩
      cases nearer with
      | nil =>
        obtain ⟨rfl, rfl⟩ := List.cons.inj hline
        exact Or.inl ⟨rfl, hground⟩
      | cons a nearer =>
        obtain ⟨rfl, rfl⟩ := List.cons.inj hline
        exact Or.inr (Or.inr ⟨nearer, c, rfl, fun a ha => hclear a (List.mem_cons_of_mem _ ha), hground⟩)
  · rintro (hdelta | ⟨hmask, ⟨rfl, hground⟩ | hheld⟩)
    · exact Or.inl ⟨[], b, line, rfl, by simp, hdelta⟩
    · exact Or.inr ⟨[], b, rfl, by simpa using hmask, hground⟩
    · rcases hheld with ⟨nearer, c, further, rfl, hclear, hdelta⟩ | ⟨nearer, c, rfl, hclear, hground⟩
      · refine Or.inl ⟨b :: nearer, c, further, rfl, ?_, hdelta⟩
        exact List.forall_mem_cons.mpr ⟨hmask, hclear⟩
      · exact Or.inr ⟨b :: nearer, c, rfl, List.forall_mem_cons.mpr ⟨hmask, hclear⟩, hground⟩

theorem not_held_nil {d : Tree} {p : RelPath} : ¬ Held d [] p := by
  rintro (⟨nearer, c, further, hline, -⟩ | ⟨nearer, c, hline, -⟩) <;> simp at hline

namespace Manager

variable {m : Manager} {branch : String} {b : Branch} {p q : RelPath} {n : String}

/-- What a branch resolves past itself stands past itself, if what its parent resolves stands along the
parent's line. -/
theorem inheritedResolve_iff_heldPast (h : m.forest.get? branch = some b)
    (hup : ∀ parent, b.parent = some parent →
      (m.resolved parent p ≠ none ↔ Held m.disk (m.line parent) p)) :
    m.inheritedResolve b p ≠ none ↔ m.HeldPast b p := by
  unfold inheritedResolve inheritedStep HeldPast lineAbove Branch.linePast Branch.groundPath
  cases hp : b.parent with
  | none => simp [not_held_nil]
  | some parent =>
    cases hi : b.inheritance with
    | «lazy» =>
      obtain ⟨c, hc⟩ := Forest.get?_parent h hp
      simp [hup parent hp, line_eq hc]
    | snapshot => simp [not_held_nil]

/-- **Resolution reads the line**: a path resolves in a branch iff it stands along the branch's line. -/
theorem resolved_iff_held (h : m.forest.get? branch = some b) (p : RelPath) :
    m.resolved branch p ≠ none ↔ Held m.disk (m.line branch) p := by
  have hstep : ∀ c ∈ m.forest.list, (m.inheritedResolve c p ≠ none ↔ m.HeldPast c p) →
      (m.resolved c.name p ≠ none ↔ Held m.disk (m.line c.name) p) := by
    intro c hc hpast
    have hget := Forest.get?_of_mem hc
    rw [line_eq hget, held_cons, resolved_eq hget]
    unfold HeldPast at hpast
    rw [← hpast]
    unfold Branch.Masks
    cases hasDelta m.disk c.name p <;> cases c.isDeleted p <;> cases c.isHidden p <;> simp
  rw [← Forest.name_of_get? h]
  refine m.forest.grown.ancestry (P := fun name =>
    m.resolved name p ≠ none ↔ Held m.disk (m.line name) p) ?_ ?_ b (Forest.mem_of_get? h)
  · intro c hc hroot
    refine hstep c hc (inheritedResolve_iff_heldPast (Forest.get?_of_mem hc) ?_)
    intro parent hp
    rw [hroot] at hp
    cases hp
  · intro c hc parent hp ih
    refine hstep c hc (inheritedResolve_iff_heldPast (Forest.get?_of_mem hc) ?_)
    intro parent' hp'
    rw [hp] at hp'
    cases hp'
    exact ih

/-- A branch inherits a path iff it stands past it. -/
theorem inherits_iff (h : m.forest.get? branch = some b) (p : RelPath) :
    m.inheritedResolve b p ≠ none ↔ m.HeldPast b p :=
  inheritedResolve_iff_heldPast h fun _ hp =>
    have ⟨_, hc⟩ := Forest.get?_parent h hp
    resolved_iff_held hc p

end Manager

/-! ## Views and trees -/

/-- The branch's own delta has something other than a directory at the path. -/
def Replaced (d : Tree) (branch : String) (p : RelPath) : Prop :=
  ∃ k, d.lkind (deltaPath branch p) = some k ∧ k ≠ .dir

/-- What resolves stands in a directory that resolves, and nothing inherited resolves below what a branch
has in the place of a directory. -/
structure ViewsAreTrees (m : Manager) : Prop where
  inDirectory : ∀ branch q n l, Canonical (q ++ [n]) → q ≠ [] →
    m.resolvePath branch (q ++ [n]) = .ok (some l) →
    ∃ dir, m.resolvePath branch q = .ok (some dir) ∧ m.disk.lkind dir = some .dir
  notBelowReplaced : ∀ branch p r l, Canonical (p ++ r) → p ≠ [] → r ≠ [] → Replaced m.disk branch p →
    m.resolvePath branch (p ++ r) = .ok (some l) → hasDelta m.disk branch (p ++ r) = true

/-- A lookup of `n` in `q` gets past what the branch has at `q`. -/
inductive Manager.Torn (m : Manager) (b : Branch) (q : RelPath) (n : String) : Prop
  /-- The delta has the entry through a symlink of its own. -/
  | throughDelta {a : RelPath} {t : Target} (ha : a ≠ []) (haq : a <+: q)
      (hlink : m.disk.lkind (deltaPath b.name a) = some (.symlink t))
      (hdelta : hasDelta m.disk b.name (q ++ [n]) = true)
  /-- The delta has a file or symlink there, and what stands further up is not deleted. -/
  | belowReplaced (hrepl : Replaced m.disk b.name q) (hclear : ¬ b.Masks (q ++ [n]))
      (hpast : m.HeldPast b (q ++ [n]))
  /-- A hide rule masks the directory and not the entry. -/
  | belowHidden (hdelta : hasDelta m.disk b.name q = false) (hhid : b.isHidden q = true)
      (hclear : ¬ b.Masks (q ++ [n])) (hpast : m.HeldPast b (q ++ [n]))
  /-- The tree under the last branch has the entry through a symlink. -/
  | throughGround (hdelta : hasDelta m.disk b.name q = false) (hmask : ¬ b.Masks q)
      (hlast : m.lineAbove b = []) (hlink : m.disk.lkind (b.groundPath q) ≠ some .dir)
      (hclear : ¬ b.Masks (q ++ [n])) (hground : m.disk.lexists (b.groundPath (q ++ [n])) = true)

/-- No branch is torn anywhere. -/
def Manager.Whole (m : Manager) : Prop :=
  ∀ b ∈ m.forest.list, ∀ q n, Canonical (q ++ [n]) → q ≠ [] → ¬ m.Torn b q n

namespace Manager

/-- What resolves in the branch stands in what the branch shows as a directory. -/
def Upright (m : Manager) (branch : String) : Prop :=
  ∀ q n, Canonical (q ++ [n]) → q ≠ [] → m.resolved branch (q ++ [n]) ≠ none →
    m.kindOf branch q = some .dir

section Upright

variable {m : Manager} {branch : String} {b : Branch} {p q : RelPath} {n : String}

/-- Then so does everything above it. -/
theorem Upright.dir_above (hup : m.Upright branch) {a r : RelPath} (hcanon : Canonical (a ++ r))
    (ha : a ≠ []) (hr : r ≠ []) (h : m.resolved branch (a ++ r) ≠ none) :
    m.kindOf branch a = some .dir := by
  induction r using List.reverseRecOn with
  | nil => exact absurd rfl hr
  | append_singleton r n ih =>
    rw [← List.append_assoc] at hcanon h
    have hne : a ++ r ≠ [] := by simp [ha]
    have hdir := hup (a ++ r) n hcanon hne h
    by_cases hnil : r = []
    · rwa [hnil, List.append_nil] at hdir
    · refine ih (hcanon.mono (List.prefix_append _ _)) hnil ?_
      intro hnone
      rw [kindOf_eq_none.mpr hnone] at hdir
      cases hdir

theorem resolvePath_eq_some {l : Place} : m.resolvePath branch p = .ok (some l) ↔
    (∃ b, m.forest.get? branch = some b) ∧ m.resolved branch p = some l := by
  unfold resolvePath
  cases m.forest.get? branch <;> simp

/-- A branch shows a directory at a path iff the path resolves to one. -/
theorem kindOf_eq_dir : m.kindOf branch p = some .dir ↔
    ∃ l, m.resolved branch p = some l ∧ m.disk.lkind l = some .dir := by
  unfold kindOf kindAtPath
  cases m.resolved branch p <;> simp

/-- What a branch has in its own delta it shows. -/
theorem kindOf_of_lkind {k : Entry} (h : m.forest.get? branch = some b)
    (hk : m.disk.lkind (deltaPath branch p) = some k) : m.kindOf branch p = some k := by
  have hdelta : hasDelta m.disk branch p = true := Disk.lexists_iff_lkind.mpr (by simp [hk])
  rw [kindOf_eq h, if_pos hdelta, hk]

/-- The views are trees iff everything that resolves stands in a directory. -/
theorem viewsAreTrees_iff_upright : ViewsAreTrees m ↔ ∀ b ∈ m.forest.list, m.Upright b.name := by
  constructor
  · intro h b hb q n hcanon hq hres
    obtain ⟨l, hl⟩ := Option.ne_none_iff_exists'.mp hres
    have hget := Forest.get?_of_mem hb
    obtain ⟨dir, hdir, hkind⟩ :=
      h.inDirectory b.name q n l hcanon hq (resolvePath_eq_some.mpr ⟨⟨b, hget⟩, hl⟩)
    exact kindOf_eq_dir.mpr ⟨dir, (resolvePath_eq_some.mp hdir).2, hkind⟩
  · intro h
    have hup : ∀ branch b, m.forest.get? branch = some b → m.Upright branch := by
      intro branch b hb
      rw [← Forest.name_of_get? hb]
      exact h b (Forest.mem_of_get? hb)
    constructor
    · intro branch q n l hcanon hq hres
      obtain ⟨⟨b, hb⟩, hl⟩ := resolvePath_eq_some.mp hres
      obtain ⟨dir, hdir, hkind⟩ :=
        kindOf_eq_dir.mp (hup branch b hb q n hcanon hq (by simp [hl]))
      exact ⟨dir, resolvePath_eq_some.mpr ⟨⟨b, hb⟩, hdir⟩, hkind⟩
    · rintro branch p r l hcanon hp hr ⟨k, hk, hne⟩ hres
      obtain ⟨⟨b, hb⟩, hl⟩ := resolvePath_eq_some.mp hres
      -- nothing at all resolves there
      have hdir := (hup branch b hb).dir_above hcanon hp hr (by simp [hl])
      rw [kindOf_of_lkind hb hk] at hdir
      exact absurd (Option.some.inj hdir) hne

/-- Past a branch's delta, what is masked by none and stands further up resolves. -/
theorem resolved_of_heldPast (h : m.forest.get? branch = some b) (hclear : ¬ b.Masks p)
    (hpast : m.HeldPast b p) : m.resolved branch p ≠ none := by
  rw [resolved_iff_held h, line_eq h, held_cons]
  exact Or.inr ⟨hclear, hpast⟩

/-- What a branch shows where it has nothing of its own and masks nothing. -/
theorem kindOf_past (h : m.forest.get? branch = some b) (hdelta : hasDelta m.disk branch p = false)
    (hclear : ¬ b.Masks p) : m.kindOf branch p = kindAtPath m.disk (m.inheritedResolve b p) := by
  obtain ⟨hdel, hhid⟩ := Branch.not_masks.mp hclear
  simp [kindOf, resolved_eq h, hdelta, hdel, hhid]

/-- The last branch of a line reads the tree under it, any other one its parent. -/
theorem inheritedResolve_cases (h : m.forest.get? branch = some b) :
    (m.lineAbove b = [] ∧ ∀ p, m.inheritedResolve b p =
      if m.disk.lexists (b.groundPath p) then some (b.groundPath p) else none) ∨
    (m.lineAbove b ≠ [] ∧ ∃ parent, b.parent = some parent ∧
      ∀ p, m.inheritedResolve b p = m.resolved parent p) := by
  unfold inheritedResolve inheritedStep lineAbove Branch.linePast Branch.groundPath
  cases hp : b.parent with
  | none => exact Or.inl ⟨by simp, fun p => by simp⟩
  | some parent =>
    cases hi : b.inheritance with
    | «lazy» =>
      obtain ⟨c, hc⟩ := Forest.get?_parent h hp
      exact Or.inr ⟨by simp [line_eq hc], parent, rfl, fun p => by simp⟩
    | snapshot => exact Or.inl ⟨by simp, fun p => by simp⟩

/-- A torn view is no tree. -/
theorem Torn.not_upright (hb : m.forest.get? branch = some b) (hcanon : Canonical (q ++ [n]))
    (hq : q ≠ []) (h : m.Torn b q n) : ¬ m.Upright branch := by
  intro hup
  have hname := Forest.name_of_get? hb
  cases h with
  | @throughDelta a t ha haq hlink hdelta =>
    rw [hname] at hlink hdelta
    obtain ⟨s, rfl⟩ := haq
    have hres : m.resolved branch (a ++ s ++ [n]) ≠ none := by
      rw [resolved_eq hb, if_pos hdelta]
      simp
    rw [List.append_assoc] at hcanon hres
    have hdir := hup.dir_above hcanon ha (by simp) hres
    rw [kindOf_of_lkind hb hlink] at hdir
    cases hdir
  | belowReplaced hrepl hclear hpast =>
    rw [hname] at hrepl
    obtain ⟨k, hk, hne⟩ := hrepl
    have hdir := hup q n hcanon hq (resolved_of_heldPast hb hclear hpast)
    rw [kindOf_of_lkind hb hk] at hdir
    exact hne (Option.some.inj hdir)
  | belowHidden hdelta hhid hclear hpast =>
    rw [hname] at hdelta
    have hdir := hup q n hcanon hq (resolved_of_heldPast hb hclear hpast)
    have hnone : m.resolved branch q = none := by
      rw [resolved_eq hb]
      simp [hdelta, hhid]
    rw [kindOf_eq_none.mpr hnone] at hdir
    cases hdir
  | throughGround hdelta hmask hlast hlink hclear hground =>
    rw [hname] at hdelta
    have hres : m.resolved branch (q ++ [n]) ≠ none :=
      resolved_of_heldPast hb hclear (Or.inl ⟨hlast, hground⟩)
    have hdir := hup q n hcanon hq hres
    rw [kindOf_past hb hdelta hmask] at hdir
    rcases inheritedResolve_cases hb with ⟨-, hground⟩ | ⟨hmore, -⟩
    · rw [hground] at hdir
      split at hdir
      · exact hlink hdir
      · cases hdir
    · exact hmore hlast

/-- **A step up the line**: a branch that is torn nowhere, over a parent whose view is a tree. -/
theorem upright_of_parent (hb : m.forest.get? branch = some b)
    (hwhole : ∀ q n, Canonical (q ++ [n]) → q ≠ [] → ¬ m.Torn b q n)
    (hparent : ∀ parent, b.parent = some parent → m.Upright parent) : m.Upright branch := by
  intro q n hcanon hq hres
  have hname := Forest.name_of_get? hb
  have hnot := hwhole q n hcanon hq
  by_cases hdelta : hasDelta m.disk branch (q ++ [n]) = true
  · -- its own entry stands in a directory of its own, or beyond a link of its own
    rcases Disk.dir_or_link_of_lexists_child (l := deltaPath branch q) rfl hdelta with hdir | ⟨a, t, hle, ht⟩
    · exact kindOf_of_lkind hb hdir
    · have hroot : a.root = some (.files branch) := hle.1
      have ha : deltaPath branch a.path = a := Loc.ext' hroot.symm rfl
      have htorn : m.Torn b q n := by
        refine .throughDelta (t := t) (Disk.path_ne_nil_of_link hroot ht) hle.2 ?_ ?_
        · rw [hname, ha]
          exact ht
        · rw [hname]
          exact hdelta
      exact absurd htorn hnot
  · rw [resolved_iff_held hb, line_eq hb, held_cons, hname] at hres
    obtain ⟨hclear, hpast⟩ := hres.resolve_left hdelta
    cases hk : m.disk.lkind (deltaPath branch q) with
    | some k =>
      rw [kindOf_of_lkind hb hk]
      by_contra hne
      refine hnot (.belowReplaced ⟨k, by rw [hname]; exact hk, ?_⟩ hclear hpast)
      rintro rfl
      exact hne rfl
    | none =>
      have hno : hasDelta m.disk branch q = false := by
        rw [← Bool.not_eq_true]
        exact fun h => Disk.lexists_iff_lkind.mp h hk
      have hmask : ¬ b.Masks q := by
        rintro (hdel | hhid)
        · exact hclear (Or.inl (Branch.isDeleted_mono hdel hq (List.prefix_append _ _)))
        · exact hnot (.belowHidden (by rw [hname]; exact hno) hhid hclear hpast)
      rw [kindOf_past hb hno hmask]
      rcases inheritedResolve_cases hb with ⟨hlast, hground⟩ | ⟨-, parent, hp, hup⟩
      · -- the tree under the branch has the entry: in a directory, or the branch is torn there
        have hentry : m.disk.lexists (b.groundPath (q ++ [n])) = true := by
          rcases hpast with ⟨-, hentry⟩ | hheld
          · exact hentry
          · rw [hlast] at hheld
            exact absurd hheld not_held_nil
        by_cases hdir : m.disk.lkind (b.groundPath q) = some .dir
        · rw [hground, if_pos (Disk.lexists_iff_lkind.mpr (by simp [hdir]))]
          exact hdir
        · exact absurd (.throughGround (by rw [hname]; exact hno) hmask hlast hdir hclear hentry) hnot
      · rw [hup]
        apply hparent parent hp q n hcanon hq
        rw [← hup]
        exact (inherits_iff hb _).mpr hpast

/-- **The views are trees** exactly when no lookup gets past what stands above it. -/
theorem viewsAreTrees_iff_whole : ViewsAreTrees m ↔ m.Whole := by
  rw [viewsAreTrees_iff_upright]
  constructor
  · intro h b hb q n hcanon hq htorn
    exact htorn.not_upright (Forest.get?_of_mem hb) hcanon hq (h b hb)
  · intro h
    refine m.forest.grown.ancestry ?_ ?_
    · intro b hb hroot
      refine upright_of_parent (Forest.get?_of_mem hb) (h b hb) ?_
      intro parent hp
      rw [hroot] at hp
      cases hp
    · intro b hb parent hp ih
      refine upright_of_parent (Forest.get?_of_mem hb) (h b hb) ?_
      intro parent' hp'
      rw [hp] at hp'
      cases hp'
      exact ih

end Upright

end Manager

/-! ## Along a run -/

/-- The views are trees in every state. -/
def ViewsAlwaysTrees : Prop := ∀ m, Reachable m → ViewsAreTrees m

/-- A branch renames a directory away and makes a file in its place. -/
def replaceDirOps : List Op :=
  [.file "main" (.mkdir [] "d" 0o755), .file "main" (.create ["d"] "x" 0o644),
    .create "b" "main" .lazy [], .file "b" (.rename [] "d" [] "e" false),
    .file "b" (.create [] "d" 0o644)]

theorem replaceDir_run :
    let m := run step (Manager.init .bare) replaceDirOps
    m.resolvePath "b" ["d", "x"] = .ok (some (deltaPath "main" ["d", "x"])) ∧
      m.resolvePath "b" ["d"] = .ok (some (deltaPath "b" ["d"])) ∧
      m.disk.lkind (deltaPath "b" ["d"]) = some (.file []) := by
  decide +kernel

end BranchFs
