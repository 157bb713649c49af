/-
# BranchFs.Model.Layers -- the layers below a branch

A branch reads through the layers of the branches it descends from, down to the base directory:
`layers` lists their trees. What it inherits depends on these trees and on the records of older
branches only, so an operation that stays inside its own store leaves it alone.
-/
import BranchFs.Model.View

namespace BranchFs

open BranchFs.Posix BranchFs.Logic

/-- What no file operation changes about a branch. -/
structure SameSettings (b b' : Branch) : Prop where
  name : b'.name = b.name
  parent : b'.parent = b.parent
  inheritance : b'.inheritance = b.inheritance
  state : b'.state = b.state
  commitCount : b'.commitCount = b.commitCount
  parentVersionAtFork : b'.parentVersionAtFork = b.parentVersionAtFork
  hidePaths : b'.hidePaths = b.hidePaths

theorem SameSettings.refl (b : Branch) : SameSettings b b := ⟨rfl, rfl, rfl, rfl, rfl, rfl, rfl⟩

theorem SameSettings.trans {b b' b'' : Branch} (h : SameSettings b b') (h' : SameSettings b' b'') :
    SameSettings b b'' :=
  ⟨h'.name.trans h.name, h'.parent.trans h.parent, h'.inheritance.trans h.inheritance,
    h'.state.trans h.state, h'.commitCount.trans h.commitCount,
    h'.parentVersionAtFork.trans h.parentVersionAtFork, h'.hidePaths.trans h.hidePaths⟩

theorem SameSettings.isHidden {b b' : Branch} (h : SameSettings b b') (p : RelPath) :
    b'.isHidden p = b.isHidden p := by
  simp only [Branch.isHidden, h.hidePaths]

theorem SameSettings.isWritable {b b' : Branch} (h : SameSettings b b') :
    b'.isWritable = b.isWritable := by
  simp only [Branch.isWritable, h.state]

/-- The branch maps differ in the record of `name` at most, and there not in its settings. -/
def Forest.SameBut (name : String) (F F' : Forest) : Prop :=
  ∃ f : Branch → Branch, F'.list = F.list.map f ∧ (∀ b, SameSettings b (f b)) ∧
    ∀ b, b.name ≠ name → f b = b

namespace Forest.SameBut

variable {name : String} {F F' F'' : Forest}

theorem refl (name : String) (F : Forest) : F.SameBut name F :=
  ⟨id, by simp, fun b => SameSettings.refl b, fun _ _ => rfl⟩

theorem trans (h : F.SameBut name F') (h' : F'.SameBut name F'') : F.SameBut name F'' := by
  obtain ⟨f, hf, hs, ho⟩ := h
  obtain ⟨g, hg, hs', ho'⟩ := h'
  refine ⟨g ∘ f, by rw [hg, hf, List.map_map], fun b => (hs b).trans (hs' (f b)), ?_⟩
  intro b hb
  simp only [Function.comp_apply, ho b hb, ho' b hb]

theorem of_modify {f : Branch → Branch} (hf : ∀ b, SameSettings b (f b)) :
    F.SameBut name (F.modify name f) := by
  refine ⟨modifyAt name f, rfl, ?_, ?_⟩
  · intro b
    unfold modifyAt
    split
    · have h := hf b
      exact ⟨rfl, rfl, h.inheritance, h.state, h.commitCount, h.parentVersionAtFork, h.hidePaths⟩
    · exact SameSettings.refl b
  · intro b hb
    simp [modifyAt, hb]

theorem get? (h : F.SameBut name F') (n : String) :
    (∀ b, F.get? n = some b → ∃ b', F'.get? n = some b' ∧ SameSettings b b' ∧
      (n ≠ name → b' = b)) ∧ (F.get? n = none → F'.get? n = none) := by
  obtain ⟨f, hf, hs, ho⟩ := h
  have hlook : F'.get? n = (F.get? n).map f := by
    unfold Forest.get?
    rw [hf]
    exact lookupKey_map (fun b => (hs b).name) F.list n
  refine ⟨?_, ?_⟩
  · intro b hb
    refine ⟨f b, by rw [hlook, hb]; rfl, hs b, fun hn => ho b ?_⟩
    rw [Forest.name_of_get? hb]
    exact hn
  · intro hb
    rw [hlook, hb]
    rfl

theorem get?_ne (h : F.SameBut name F') {n : String} (hn : n ≠ name) : F'.get? n = F.get? n := by
  cases hb : F.get? n with
  | none => exact (h.get? n).2 hb
  | some b =>
    obtain ⟨b', hb', _, heq⟩ := (h.get? n).1 b hb
    rw [hb', heq hn]

theorem older (h : F.SameBut name F') :
    olderThan Branch.name F'.list name = olderThan Branch.name F.list name := by
  obtain ⟨f, hf, hs, ho⟩ := h
  rw [hf]
  exact olderThan_map (fun b => (hs b).name) ho F.grown.nodup

end Forest.SameBut

namespace Manager

/-- The branches older than `name`. -/
def older (m : Manager) (name : String) : List Branch := olderThan Branch.name m.forest.list name

/-- The trees below a branch's own delta: its snapshot, the deltas and snapshots of older branches,
and the base directory. -/
def layers (m : Manager) (name : String) : List Root :=
  .base :: .inherited name ::
    (m.older name).flatMap fun c => [.files c.name, .inherited c.name]

/-- What a branch inherits, from the older branches alone. -/
theorem inheritedResolve_eq {m : Manager} {name : String} {b : Branch}
    (h : m.forest.get? name = some b) (p : RelPath) :
    m.inheritedResolve b p = inheritedStep m.disk b p (b.parent.bind fun parent =>
      climb Branch.name Branch.parent none (fun b => resolveStep m.disk b p none)
        (fun b up => resolveStep m.disk b p up) (m.older name) parent) := by
  unfold inheritedResolve
  cases hp : b.parent with
  | none => rfl
  | some parent =>
    simp only [Option.bind_some]
    congr 1
    exact climb_olderThan m.forest.grown h hp

theorem base_mem_layers (m : Manager) (name : String) : Root.base ∈ m.layers name :=
  List.mem_cons_self ..

theorem inherited_mem_layers (m : Manager) (name : String) : Root.inherited name ∈ m.layers name :=
  List.mem_cons_of_mem _ (List.mem_cons_self ..)

theorem older_mem_layers {m : Manager} {name : String} {c : Branch} (hc : c ∈ m.older name) :
    Root.files c.name ∈ m.layers name ∧ Root.inherited c.name ∈ m.layers name := by
  refine ⟨?_, ?_⟩
  · exact List.mem_cons_of_mem _ (List.mem_cons_of_mem _ (List.mem_flatMap.mpr ⟨c, hc, by simp⟩))
  · exact List.mem_cons_of_mem _ (List.mem_cons_of_mem _ (List.mem_flatMap.mpr ⟨c, hc, by simp⟩))

/-- A parent is older than its children. -/
theorem parent_mem_older {m : Manager} {name parent : String} {b : Branch}
    (h : m.forest.get? name = some b) (hp : b.parent = some parent) :
    ∃ c ∈ m.older name, c.name = parent := by
  obtain ⟨c, hc, hname⟩ := List.mem_map.mp (up_mem_olderThan m.forest.grown h hp)
  exact ⟨c, hc, hname⟩

/-- The delta of the parent is a layer, and so are the layers below the parent. -/
theorem parent_files_mem_layers {m : Manager} {name parent : String} {b : Branch}
    (h : m.forest.get? name = some b) (hp : b.parent = some parent) :
    Root.files parent ∈ m.layers name := by
  obtain ⟨c, hc, rfl⟩ := parent_mem_older h hp
  exact (older_mem_layers hc).1

theorem layers_parent_subset {m : Manager} {name parent : String} {b : Branch}
    (h : m.forest.get? name = some b) (hp : b.parent = some parent) :
    ∀ r ∈ m.layers parent, r ∈ m.layers name := by
  intro r hr
  have hsub : m.older parent <:+ m.older name :=
    olderThan_suffix_of_mem m.forest.grown.nodup (up_mem_olderThan m.forest.grown h hp)
  simp only [layers, List.mem_cons, List.mem_flatMap] at hr
  rcases hr with rfl | rfl | ⟨c, hc, hr⟩
  · exact m.base_mem_layers name
  · obtain ⟨c, hc, rfl⟩ := parent_mem_older h hp
    exact (older_mem_layers hc).2
  · have hlayer := older_mem_layers (hsub.subset hc)
    simp only [List.not_mem_nil, or_false] at hr
    rcases hr with rfl | rfl
    · exact hlayer.1
    · exact hlayer.2

/-- Whatever a branch inherits at `p` stands at `p` in one of its layers. -/
theorem mem_layers_of_inherited {m : Manager} {name : String} {b : Branch}
    (h : m.forest.get? name = some b) {p : RelPath} {l : Place}
    (hl : m.inheritedResolve b p = some l) : ∃ r ∈ m.layers name, l = ⟨some r, p⟩ := by
  have hname := Forest.name_of_get? h
  have hinh : ∀ (c : Branch) (up : Option Place), Root.inherited c.name ∈ m.layers name →
      (∀ k, up = some k → ∃ r ∈ m.layers name, k = ⟨some r, p⟩) →
      ∀ k, inheritedStep m.disk c p up = some k → ∃ r ∈ m.layers name, k = ⟨some r, p⟩ := by
    intro c up hc hup k hk
    unfold inheritedStep at hk
    split at hk
    · split at hk
      · cases hk
        exact ⟨.base, m.base_mem_layers name, rfl⟩
      · cases hk
    · exact hup k hk
    · split at hk
      · cases hk
        exact ⟨_, hc, rfl⟩
      · cases hk
  have hstep : ∀ c ∈ m.older name, ∀ up : Option Place,
      (∀ k, up = some k → ∃ r ∈ m.layers name, k = ⟨some r, p⟩) →
      ∀ k, resolveStep m.disk c p up = some k → ∃ r ∈ m.layers name, k = ⟨some r, p⟩ := by
    intro c hc up hup k hk
    unfold resolveStep at hk
    split at hk
    · cases hk
      exact ⟨_, (older_mem_layers hc).1, rfl⟩
    · split at hk
      · cases hk
      · split at hk
        · cases hk
        · exact hinh c up (older_mem_layers hc).2 hup k hk
  rw [inheritedResolve_eq h] at hl
  refine hinh b _ (by rw [hname]; exact m.inherited_mem_layers name) ?_ l hl
  cases hp : b.parent with
  | none => simp
  | some q =>
    let Found : Option Place → Prop := fun v => ∀ k, v = some k → ∃ r ∈ m.layers name, k = ⟨some r, p⟩
    have hnone : Found none := fun k hk => by cases hk
    exact climb_of (P := Found) hnone (fun c hc => hstep c hc none hnone) hstep q

theorem resolveStep_congr {d d' : Tree} {b : Branch} {p : RelPath} {up : Option Place}
    (hf : d'.lexists (deltaPath b.name p) = d.lexists (deltaPath b.name p))
    (hb : d'.lexists (basePath p) = d.lexists (basePath p))
    (hi : d'.lexists (inheritedPath b.name p) = d.lexists (inheritedPath b.name p)) :
    resolveStep d' b p up = resolveStep d b p up := by
  unfold resolveStep inheritedStep hasDelta
  rw [hf, hb, hi]

/-- **What a branch inherits depends on its layers.** An operation that changes at most the record of
the branch itself, and no layer below it at `p`, leaves what it inherits at `p` as it was. -/
theorem inheritedResolve_congr {m m' : Manager} {name : String} {b b' : Branch}
    (hF : m.forest.SameBut name m'.forest) (hb : m.forest.get? name = some b)
    (hb' : m'.forest.get? name = some b') {p : RelPath}
    (hd : ∀ r ∈ m.layers name, m'.disk.lexists ⟨some r, p⟩ = m.disk.lexists ⟨some r, p⟩) :
    m'.inheritedResolve b' p = m.inheritedResolve b p := by
  obtain ⟨b₁, hb₁, hs, _⟩ := (hF.get? name).1 b hb
  have hbb : b₁ = b' := by
    rw [hb₁] at hb'
    exact Option.some.inj hb'
  subst hbb
  have hname := Forest.name_of_get? hb
  have holder : m'.older name = m.older name := hF.older
  have hbase : m'.disk.lexists (basePath p) = m.disk.lexists (basePath p) :=
    hd _ (m.base_mem_layers name)
  have hown : m'.disk.lexists (inheritedPath name p) = m.disk.lexists (inheritedPath name p) :=
    hd _ (m.inherited_mem_layers name)
  rw [inheritedResolve_eq hb', inheritedResolve_eq hb, holder]
  have hup : ∀ up, inheritedStep m'.disk b₁ p up = inheritedStep m.disk b p up := by
    intro up
    simp only [inheritedStep, hs.parent, hs.inheritance, hs.name, hname, hbase, hown]
  rw [hup, hs.parent]
  congr 2
  funext parent
  refine climb_congr rfl ?_ ?_ parent
  · intro c hc
    exact resolveStep_congr (hd _ (older_mem_layers hc).1) hbase (hd _ (older_mem_layers hc).2)
  · intro c hc up
    exact resolveStep_congr (hd _ (older_mem_layers hc).1) hbase (hd _ (older_mem_layers hc).2)

theorem inheritedForTouch_congr {m m' : Manager} {name : String} {b b' : Branch}
    (hF : m.forest.SameBut name m'.forest) (hb : m.forest.get? name = some b)
    (hb' : m'.forest.get? name = some b') {p : RelPath}
    (hd : ∀ r ∈ m.layers name, m'.disk.lexists ⟨some r, p⟩ = m.disk.lexists ⟨some r, p⟩) :
    m'.inheritedForTouch b' p = m.inheritedForTouch b p := by
  obtain ⟨b₁, hb₁, hs, _⟩ := (hF.get? name).1 b hb
  have hbb : b₁ = b' := by
    rw [hb₁] at hb'
    exact Option.some.inj hb'
  subst hbb
  unfold inheritedForTouch
  rw [hs.isHidden, inheritedResolve_congr hF hb hb' hd]

/-- What was inherited is still inherited after entries were added. -/
theorem inheritedResolve_grows {m m' : Manager} {name : String} {b b' : Branch}
    (hF : m.forest.SameBut name m'.forest) (hb : m.forest.get? name = some b)
    (hb' : m'.forest.get? name = some b') (hd : Grows m.disk m'.disk) {p : RelPath}
    (h : m.inheritedResolve b p ≠ none) : m'.inheritedResolve b' p ≠ none := by
  obtain ⟨b₁, hb₁, hs, _⟩ := (hF.get? name).1 b hb
  have hbb : b₁ = b' := by
    rw [hb₁] at hb'
    exact Option.some.inj hb'
  subst hbb
  have holder : m'.older name = m.older name := hF.older
  -- one step of the climb keeps "found"
  have hinh : ∀ (c c' : Branch) (up up' : Option Place), SameSettings c c' →
      (up ≠ none → up' ≠ none) → inheritedStep m.disk c p up ≠ none →
      inheritedStep m'.disk c' p up' ≠ none := by
    intro c c' up up' hc hup hfound
    unfold inheritedStep at hfound ⊢
    rw [hc.parent, hc.inheritance, hc.name]
    cases hp : c.parent with
    | none =>
      rw [hp] at hfound
      by_cases hex : m.disk.lexists (basePath p) = true
      · simp [hd.lexists hex]
      · simp [hex] at hfound
    | some q =>
      rw [hp] at hfound
      cases hi : c.inheritance with
      | lazy =>
        rw [hi] at hfound
        exact hup hfound
      | snapshot =>
        rw [hi] at hfound
        by_cases hex : m.disk.lexists (inheritedPath c.name p) = true
        · simp [hd.lexists hex]
        · simp [hex] at hfound
  have hstep : ∀ (c : Branch) (up up' : Option Place), (up ≠ none → up' ≠ none) →
      resolveStep m.disk c p up ≠ none → resolveStep m'.disk c p up' ≠ none := by
    intro c up up' hup hfound
    unfold resolveStep at hfound ⊢
    by_cases h1 : hasDelta m.disk c.name p = true
    · have h1' : hasDelta m'.disk c.name p = true := hd.lexists h1
      simp [h1']
    · by_cases h1' : hasDelta m'.disk c.name p = true
      · simp [h1']
      · simp only [h1, h1', Bool.false_eq_true, if_false] at hfound ⊢
        split at hfound
        · exact absurd rfl hfound
        · split at hfound
          · exact absurd rfl hfound
          · next h2 h3 =>
            simp only [h2, h3, Bool.false_eq_true, if_false]
            exact hinh c c up up' (SameSettings.refl c) hup hfound
  have hclimb : ∀ (bs : List Branch) (q : String),
      climb Branch.name Branch.parent none (fun b => resolveStep m.disk b p none)
        (fun b up => resolveStep m.disk b p up) bs q ≠ none →
      climb Branch.name Branch.parent none (fun b => resolveStep m'.disk b p none)
        (fun b up => resolveStep m'.disk b p up) bs q ≠ none := by
    intro bs
    induction bs with
    | nil =>
      intro q hq
      exact hq
    | cons c bs ih =>
      intro q hq
      simp only [climb] at hq ⊢
      split at hq
      · next hc =>
        rw [if_pos hc]
        cases hup : c.parent with
        | none =>
          rw [hup] at hq
          exact hstep c none none (fun h => h) hq
        | some r =>
          rw [hup] at hq
          exact hstep c _ _ (ih r) hq
      · next hc =>
        rw [if_neg hc]
        exact ih q hq
  rw [inheritedResolve_eq hb] at h
  rw [inheritedResolve_eq hb', holder, hs.parent]
  refine hinh b b₁ _ _ hs ?_ h
  cases hp : b.parent with
  | none => exact fun h => h
  | some q =>
    simp only [Option.bind_some]
    exact hclimb _ q

end Manager

end BranchFs
