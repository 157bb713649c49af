/-
# BranchFs.Model.Flat -- branches as overlays

Path resolution reads every layer through the calls of the host, which follow links on the way.
`flat` reads every layer where it stands instead: it is an overlay of the branch's delta and its
tombstones over what it inherits. While no layer has a link in the place of a directory that a
branch shows, a walk through the branch shows the overlay.
-/
import BranchFs.Model.Layers
import BranchFs.Logic.Overlay

namespace BranchFs

open BranchFs.Posix BranchFs.Logic

/-- `inheritedStep` with every layer read where it stands. -/
def flatInheritedStep (d : Tree) (b : Branch) (p : RelPath) (up : Option Entry) : Option Entry :=
  match b.parent, b.inheritance with
  | none, _ => d.kindAt (basePath p)
  | some _, .lazy => up
  | some _, .snapshot => d.kindAt (inheritedPath b.name p)

/-- `resolveStep` with every layer read where it stands. -/
def flatStep (d : Tree) (b : Branch) (p : RelPath) (up : Option Entry) : Option Entry :=
  match d.kindAt (deltaPath b.name p) with
  | some k => some k
  | none =>
    if b.isDeleted p then none
    else if b.isHidden p then none
    else flatInheritedStep d b p up

/-- What a delta holds at a path. -/
def deltaKind (d : Tree) (name : String) (q : RelPath) : Option Entry := d.kindAt (deltaPath name q)

/-- A delta without entries has its root only. -/
theorem deltaKind_of_entries {d : Tree} {name : String}
    (h : d.entries.all (fun e => e.1.root != some (.files name)) = true) {q : RelPath}
    (hq : q ≠ []) : deltaKind d name q = none := by
  cases hk : deltaKind d name q with
  | none => rfl
  | some k =>
    exfalso
    rcases Disk.entry_of_kindAt hk with ⟨hroot, -⟩ | ⟨e, he, hloc, -⟩
    · exact hq hroot
    · have hne := List.all_eq_true.mp h e he
      rw [hloc] at hne
      simp [deltaPath] at hne

/-- The tombstones of a branch as whiteouts; one at the root would cover nothing. -/
def Whiteout (b : Branch) (t : RelPath) : Prop := t ∈ b.tombstones ∧ t ≠ []

theorem covers_whiteout {b : Branch} {q : RelPath} (hq : q ≠ []) :
    Covers (Whiteout b) q ↔ b.isDeleted q = true := by
  rw [Branch.isDeleted_iff]
  constructor
  · rintro ⟨t, ⟨ht, hne⟩, hle⟩
    exact ⟨t, ht, hle, fun h => absurd h hne⟩
  · rintro ⟨t, ht, hle, hnil⟩
    exact ⟨t, ⟨ht, fun h => hq (hnil h)⟩, hle⟩

theorem not_covers_nil (b : Branch) : ¬ Covers (Whiteout b) [] := by
  rintro ⟨t, ⟨_, hne⟩, hle⟩
  exact hne (List.prefix_nil.mp hle)

theorem deltaKind_closed (d : Tree) (name : String) : Closed .dir (deltaKind d name) where
  root := Disk.kindAt_root d rfl
  above := by
    intro q a hq ha hne
    refine Disk.dir_above hq ?_ ?_
    · simpa [deltaPath] using ha
    · simpa [deltaPath] using hne

namespace Manager

/-- What a branch shows at a path, every layer read where it stands. -/
def flat (m : Manager) (branch : String) (p : RelPath) : Option Entry :=
  climb Branch.name Branch.parent none (fun b => flatStep m.disk b p none)
    (fun b up => flatStep m.disk b p up) m.forest.list branch

/-- What a branch inherits, every layer read where it stands. -/
def flatInherited (m : Manager) (b : Branch) (p : RelPath) : Option Entry :=
  if b.isHidden p then none
  else flatInheritedStep m.disk b p (b.parent.bind fun parent => m.flat parent p)

variable {m : Manager} {name : String} {b : Branch}

theorem flat_eq (h : m.forest.get? name = some b) (p : RelPath) :
    m.flat name p =
      match deltaKind m.disk name p with
      | some k => some k
      | none => if b.isDeleted p then none else m.flatInherited b p := by
  have hname := Forest.name_of_get? h
  unfold flat flatInherited deltaKind
  cases hup : b.parent with
  | none =>
    rw [climb_root m.forest.grown h hup]
    simp only [flatStep, hname, Option.bind_none]
    rfl
  | some parent =>
    rw [climb_above m.forest.grown h hup]
    simp only [flatStep, hname, Option.bind_some]
    rfl

/-- **A branch is its delta and tombstones laid over what it inherits.** -/
theorem flat_eq_overlay (h : m.forest.get? name = some b) :
    m.flat name = overlay (deltaKind m.disk name) (Whiteout b) (m.flatInherited b) := by
  funext p
  rw [flat_eq h p]
  cases hk : deltaKind m.disk name p with
  | some k => rw [overlay_of_some hk]
  | none =>
    have hp : p ≠ [] := by
      rintro rfl
      rw [deltaKind, Disk.kindAt_root _ rfl] at hk
      cases hk
    simp only
    by_cases hdel : b.isDeleted p = true
    · rw [if_pos hdel, overlay_of_covered hk ((covers_whiteout hp).mpr hdel)]
    · rw [if_neg hdel, overlay_of_none hk fun h => hdel ((covers_whiteout hp).mp h)]

/-- What a lazy branch without hide rules inherits is what its parent shows. -/
theorem flatInherited_lazy {parent : String} (hp : b.parent = some parent)
    (hlazy : b.inheritance = .lazy) (hhide : b.hidePaths = []) :
    m.flatInherited b = m.flat parent := by
  funext p
  simp only [flatInherited, Branch.isHidden_of_noRules hhide, flatInheritedStep, hp, hlazy,
    Option.bind_some, Bool.false_eq_true, if_false]

theorem flatInherited_main (hp : b.parent = none) (hhide : b.hidePaths = []) :
    m.flatInherited b = fun p => m.disk.kindAt (basePath p) := by
  funext p
  simp only [flatInherited, Branch.isHidden_of_noRules hhide, flatInheritedStep, hp,
    Bool.false_eq_true, if_false]

/-- What is inherited, from the older branches alone. -/
theorem flatInherited_eq (h : m.forest.get? name = some b) (p : RelPath) :
    m.flatInherited b p =
      if b.isHidden p then none
      else flatInheritedStep m.disk b p (b.parent.bind fun parent =>
        climb Branch.name Branch.parent none (fun b => flatStep m.disk b p none)
          (fun b up => flatStep m.disk b p up) (m.older name) parent) := by
  unfold flatInherited
  cases hp : b.parent with
  | none => rfl
  | some parent =>
    simp only [Option.bind_some]
    congr 2
    exact climb_olderThan m.forest.grown h hp

/-- What decides where a branch inherits from. -/
structure SameAncestry (b b' : Branch) : Prop where
  name : b'.name = b.name
  parent : b'.parent = b.parent
  inheritance : b'.inheritance = b.inheritance
  hidePaths : b'.hidePaths = b.hidePaths

theorem flatStep_congr {d d' : Tree} {c : Branch} {p : RelPath} {up : Option Entry}
    (hf : d'.kindAt (deltaPath c.name p) = d.kindAt (deltaPath c.name p))
    (hb : d'.kindAt (basePath p) = d.kindAt (basePath p))
    (hi : d'.kindAt (inheritedPath c.name p) = d.kindAt (inheritedPath c.name p)) :
    flatStep d' c p up = flatStep d c p up := by
  unfold flatStep flatInheritedStep
  rw [hf, hb, hi]

/-- **What a branch inherits depends on its layers.** -/
theorem flatInherited_congr (m' : Manager) {b' : Branch} (h : m.forest.get? name = some b)
    (h' : m'.forest.get? name = some b') (hs : SameAncestry b b') (holder : m'.older name = m.older name)
    {p : RelPath} (hk : ∀ r ∈ m.layers name, m'.disk.kindAt ⟨some r, p⟩ = m.disk.kindAt ⟨some r, p⟩) :
    m'.flatInherited b' p = m.flatInherited b p := by
  have hname := Forest.name_of_get? h
  have hbase : m'.disk.kindAt (basePath p) = m.disk.kindAt (basePath p) :=
    hk _ (m.base_mem_layers name)
  have hown : m'.disk.kindAt (inheritedPath name p) = m.disk.kindAt (inheritedPath name p) :=
    hk _ (m.inherited_mem_layers name)
  have hhid : b'.isHidden p = b.isHidden p := by simp only [Branch.isHidden, hs.hidePaths]
  rw [flatInherited_eq h', flatInherited_eq h, hhid, holder, hs.parent]
  have hstep : ∀ up, flatInheritedStep m'.disk b' p up = flatInheritedStep m.disk b p up := by
    intro up
    simp only [flatInheritedStep, hs.parent, hs.inheritance, hs.name, hname, hbase, hown]
  rw [hstep]
  congr 3
  funext parent
  refine climb_congr rfl ?_ ?_ parent
  · intro c hc
    exact flatStep_congr (hk _ (older_mem_layers hc).1) hbase (hk _ (older_mem_layers hc).2)
  · intro c hc up
    exact flatStep_congr (hk _ (older_mem_layers hc).1) hbase (hk _ (older_mem_layers hc).2)

/-! ## Where nothing is inherited, nothing below is -/

theorem none_of_prefix {d : Tree} {R : Root} {t q : RelPath} (h : d.kindAt ⟨some R, t⟩ = none)
    (htq : t <+: q) : d.kindAt ⟨some R, q⟩ = none :=
  Disk.none_of_le h ⟨rfl, htq⟩

theorem flatInheritedStep_none {d : Tree} {c : Branch} {t q : RelPath} (htq : t <+: q)
    {up up' : Option Entry} (hup : up = none → up' = none)
    (h : flatInheritedStep d c t up = none) : flatInheritedStep d c q up' = none := by
  unfold flatInheritedStep at h ⊢
  split at h
  · exact none_of_prefix h htq
  · exact hup h
  · exact none_of_prefix h htq

theorem flatStep_none {d : Tree} {c : Branch} {t q : RelPath} (htq : t <+: q)
    (hhide : c.isHidden t = true → c.isHidden q = true) {up up' : Option Entry} (hup : up = none → up' = none)
    (h : flatStep d c t up = none) : flatStep d c q up' = none := by
  unfold flatStep at h ⊢
  cases hk : d.kindAt (deltaPath c.name t) with
  | some k => simp [hk] at h
  | none =>
    have hkq : d.kindAt (deltaPath c.name q) = none := none_of_prefix hk htq
    rw [hk] at h
    rw [hkq]
    simp only at h ⊢
    have hne : t ≠ [] := by
      rintro rfl
      rw [Disk.kindAt_root _ rfl] at hk
      cases hk
    by_cases hdel : c.isDeleted q = true
    · rw [if_pos hdel]
    rw [if_neg hdel]
    rw [if_neg fun ht => hdel (Branch.isDeleted_mono ht hne htq)] at h
    by_cases hh : c.isHidden q = true
    · rw [if_pos hh]
    rw [if_neg hh]
    rw [if_neg fun ht => hh (hhide ht)] at h
    exact flatInheritedStep_none htq hup h

/-- A branch masks what stands below a path it masks. -/
def MasksBelow (d : Tree) (c : Branch) : Prop :=
  ∀ e ∈ d.entries, ∀ t, t <+: e.1.path → c.isHidden t = true → c.isHidden e.1.path = true

/-- What is inherited stands in a layer. -/
theorem flatInherited_mem_layers {q : RelPath} (h : m.forest.get? name = some b) (hk : m.flatInherited b q ≠ none) :
    ∃ r ∈ m.layers name, m.disk.kindAt ⟨some r, q⟩ ≠ none := by
  by_contra hno
  push Not at hno
  refine hk ?_
  have hname := Forest.name_of_get? h
  have hstep : ∀ c : Branch, Root.inherited c.name ∈ m.layers name →
      flatInheritedStep m.disk c q none = none := by
    intro c hc
    unfold flatInheritedStep
    split
    · exact hno _ (m.base_mem_layers name)
    · rfl
    · exact hno _ hc
  rw [flatInherited_eq h]
  split
  · rfl
  · have hup : (b.parent.bind fun parent =>
        climb Branch.name Branch.parent none (fun c => flatStep m.disk c q none)
          (fun c up => flatStep m.disk c q up) (m.older name) parent) = none := by
      cases hp : b.parent with
      | none => rfl
      | some parent =>
        have hfound : ∀ c ∈ m.older name, ∀ up, up = none → flatStep m.disk c q up = none := by
          rintro c hc _ rfl
          unfold flatStep
          have hown : m.disk.kindAt (deltaPath c.name q) = none := hno _ (older_mem_layers hc).1
          rw [hown]
          simp only
          split
          · rfl
          · split
            · rfl
            · exact hstep c (older_mem_layers hc).2
        exact climb_of (P := fun x => x = none) rfl (fun c hc => hfound c hc none rfl) hfound parent
    rw [hup]
    exact hstep b (by rw [hname]; exact m.inherited_mem_layers name)

/-- Where nothing is inherited, nothing is inherited below. -/
theorem flatInherited_sealed (h : m.forest.get? name = some b)
    (hhide : ∀ c ∈ m.forest.list, MasksBelow m.disk c) {t q : RelPath}
    (ht : m.flatInherited b t = none) (htq : t <+: q) : m.flatInherited b q = none := by
  by_cases hempty : ∀ r, m.disk.kindAt ⟨some r, q⟩ = none
  · by_contra hne
    obtain ⟨r, _, hk⟩ := flatInherited_mem_layers h hne
    exact hk (hempty r)
  have hmask : ∀ c ∈ m.forest.list, c.isHidden t = true → c.isHidden q = true := by
    intro c hc hct
    push Not at hempty
    obtain ⟨r, hr⟩ := hempty
    obtain ⟨k, hk⟩ := Option.ne_none_iff_exists'.mp hr
    rcases Disk.entry_of_kindAt hk with ⟨hnil, _⟩ | ⟨e, he, heq, _⟩
    · obtain rfl : q = [] := hnil
      rwa [List.prefix_nil.mp htq] at hct
    · have hpath : e.1.path = q := by rw [heq]
      rw [← hpath] at htq ⊢
      exact hhide c hc e he t htq hct
  unfold flatInherited at ht ⊢
  by_cases hh : b.isHidden q = true
  · rw [if_pos hh]
  rw [if_neg hh]
  rw [if_neg fun hht => hh (hmask b (Forest.mem_of_get? h) hht)] at ht
  refine flatInheritedStep_none htq ?_ ht
  cases hp : b.parent with
  | none => exact fun h => h
  | some parent =>
    simp only [Option.bind_some, flat]
    refine climb_rel (R := fun up up' => up = none → up' = none) (fun h => h) ?_ ?_ parent
    · intro c hc
      exact flatStep_none htq (hmask c hc) fun h => h
    · intro c hc up up' hup
      exact flatStep_none htq (hmask c hc) hup

/-! ## Reading the layers where they stand -/

/-- A layer without a link on the way is read where it stands. -/
theorem kindAtPath_here {d : Tree} {R : Root} {p : RelPath} (h : d.NoLinkAbove ⟨some R, p⟩) :
    kindAtPath d (if d.lexists ⟨some R, p⟩ then some ⟨some R, p⟩ else none) =
      d.kindAt ⟨some R, p⟩ := by
  by_cases hk : d.kindAt ⟨some R, p⟩ = none
  · rw [if_neg fun hl => (Disk.lexists_eq rfl h).mp hl hk, hk]
    rfl
  · rw [if_pos ((Disk.lexists_eq rfl h).mpr hk)]
    exact Disk.lkind_eq rfl h

theorem kindAtPath_inheritedStep {d : Tree} {c : Branch} {p : RelPath} {up : Option Place}
    (hbase : d.NoLinkAbove (basePath p)) (hinh : d.NoLinkAbove (inheritedPath c.name p)) :
    kindAtPath d (inheritedStep d c p up) = flatInheritedStep d c p (kindAtPath d up) := by
  unfold inheritedStep flatInheritedStep
  cases c.parent with
  | none => exact kindAtPath_here hbase
  | some parent =>
    cases c.inheritance with
    | «lazy» => rfl
    | snapshot => exact kindAtPath_here hinh

theorem kindAtPath_resolveStep {d : Tree} {c : Branch} {p : RelPath} {up : Option Place}
    (hbase : d.NoLinkAbove (basePath p)) (hinh : d.NoLinkAbove (inheritedPath c.name p))
    (hfiles : d.NoLinkAbove (deltaPath c.name p)) :
    kindAtPath d (resolveStep d c p up) = flatStep d c p (kindAtPath d up) := by
  have hown := kindAtPath_here (R := .files c.name) hfiles
  unfold resolveStep flatStep hasDelta
  by_cases hl : d.lexists (deltaPath c.name p) = true
  · rw [if_pos hl]
    have hk := (Disk.lexists_eq rfl hfiles).mp hl
    obtain ⟨k, hk'⟩ := Option.ne_none_iff_exists'.mp hk
    rw [hk']
    show d.lkind (deltaPath c.name p) = some k
    rw [Disk.lkind_eq rfl hfiles, hk']
  · rw [if_neg hl]
    have hk : d.kindAt (deltaPath c.name p) = none := by
      by_contra hk
      exact hl ((Disk.lexists_eq rfl hfiles).mpr hk)
    rw [hk]
    simp only
    split
    · rfl
    · split
      · rfl
      · exact kindAtPath_inheritedStep hbase hinh

/-- What a branch inherits where no layer has a link on the way. -/
theorem inheritedKind_eq_flat (h : m.forest.get? name = some b) {p : RelPath}
    (hlink : ∀ r ∈ m.layers name, m.disk.NoLinkAbove ⟨some r, p⟩) :
    m.inheritedKind b p = m.flatInherited b p := by
  have hname := Forest.name_of_get? h
  have hbase := hlink _ (m.base_mem_layers name)
  unfold inheritedKind inheritedForTouch
  rw [flatInherited_eq h, inheritedResolve_eq h]
  split
  · rfl
  · rw [kindAtPath_inheritedStep hbase (by rw [hname]; exact hlink _ (m.inherited_mem_layers name))]
    congr 1
    cases hp : b.parent with
    | none => rfl
    | some parent =>
      simp only [Option.bind_some]
      refine climb_rel (R := fun up up' => kindAtPath m.disk up = up') rfl ?_ ?_ parent
      · intro c hc
        exact kindAtPath_resolveStep hbase (hlink _ (older_mem_layers hc).2)
          (hlink _ (older_mem_layers hc).1)
      · rintro c hc up _ rfl
        exact kindAtPath_resolveStep hbase (hlink _ (older_mem_layers hc).2)
          (hlink _ (older_mem_layers hc).1)

theorem kindOf_eq_flat (h : m.forest.get? name = some b) {p : RelPath}
    (hlink : ∀ r ∈ m.layers name, m.disk.NoLinkAbove ⟨some r, p⟩)
    (hown : m.disk.NoLinkAbove (deltaPath name p)) : m.kindOf name p = m.flat name p := by
  rw [kindOf_eq h, flat_eq h, ← inheritedKind_eq_flat h hlink]
  unfold hasDelta deltaKind
  by_cases hl : m.disk.lexists (deltaPath name p) = true
  · rw [if_pos hl, Disk.lkind_eq rfl hown]
    obtain ⟨k, hk⟩ := Option.ne_none_iff_exists'.mp ((Disk.lexists_eq rfl hown).mp hl)
    rw [hk]
  · rw [if_neg hl]
    have hk : m.disk.kindAt (deltaPath name p) = none := by
      by_contra hk
      exact hl ((Disk.lexists_eq rfl hown).mpr hk)
    rw [hk]

/-- No layer has a link where the branch shows a directory. -/
def NoLinkUnderDirs (m : Manager) (name : String) : Prop :=
  ∀ q, m.view name q = some .dir → ∀ r ∈ m.layers name, m.disk.linkAt ⟨some r, q⟩ = false

/-- The same of the directories of the overlay. -/
def NoLinkUnderFlat (m : Manager) (name : String) : Prop :=
  ∀ q, (∀ a, a <+: q → m.flat name a = some .dir) →
    ∀ r ∈ m.layers name, m.disk.linkAt ⟨some r, q⟩ = false

/-- Below directories of the overlay that stand over no link, the layers are read where they
stand. -/
theorem kindOf_eq_flat_of_way (h : m.forest.get? name = some b) {q : RelPath}
    (hway : ∀ a, a <+: q → a ≠ q → m.flat name a = some .dir ∧
      ∀ r ∈ m.layers name, m.disk.linkAt ⟨some r, a⟩ = false) :
    m.kindOf name q = m.flat name q := by
  refine kindOf_eq_flat h ?_ ?_
  · intro r hr
    refine Disk.noLinkAbove_of fun x hx hne => ?_
    have hxq : x = ⟨some r, x.path⟩ := Loc.ext' hx.1 rfl
    have hne' : x.path ≠ q := fun heq => hne (by rw [hxq, heq])
    rw [hxq]
    exact (hway x.path hx.2 hne').2 r hr
  · refine Disk.noLinkAbove_of fun x hx hne => ?_
    have hxq : x = deltaPath name x.path := Loc.ext' hx.1 rfl
    have hne' : x.path ≠ q := fun heq => hne (by rw [hxq, heq])
    have hflat := (hway x.path hx.2 hne').1
    rw [flat_eq h] at hflat
    rw [hxq]
    cases hk : m.disk.kindAt (deltaPath name x.path) with
    | none => exact Disk.linkAt_of_none hk
    | some k =>
      rw [deltaKind, hk] at hflat
      exact Disk.linkAt_eq_false_of_kind hk (by rw [Option.some.inj hflat]; rfl)

theorem proper_of_proper {a c q : RelPath} (ha : a <+: q) (hc : c <+: a) (hne : c ≠ a) :
    c <+: q ∧ c ≠ q := by
  refine ⟨hc.trans ha, ?_⟩
  rintro rfl
  exact hne (hc.eq_of_length_le ha.length_le)

theorem NoLinkUnderDirs.flat (h : m.forest.get? name = some b) (hlink : m.NoLinkUnderDirs name) :
    m.NoLinkUnderFlat name := by
  intro q
  obtain ⟨n, hn⟩ : ∃ n, n = q.length := ⟨_, rfl⟩
  induction n using Nat.strong_induction_on generalizing q with
  | _ n ih =>
    intro hdirs
    have hkind : ∀ a, a <+: q → m.kindOf name a = some .dir := by
      intro a ha
      rw [kindOf_eq_flat_of_way h, hdirs a ha]
      intro c hc hca
      obtain ⟨hcq, hcne⟩ := proper_of_proper ha hc hca
      refine ⟨hdirs c hcq, ih c.length ?_ c rfl fun e he => hdirs e (he.trans hcq)⟩
      exact hn ▸ lt_of_le_of_ne hcq.length_le fun heq => hcne (hcq.eq_of_length heq)
    refine hlink q ?_
    rw [view_eq_kindOf fun a ha _ => hkind a ha]
    exact hkind q List.prefix_rfl

/-- A view is a walk through what resolution denotes. -/
theorem view_eq_walk (m : Manager) (name : String) : m.view name = shown .dir (m.kindOf name) := by
  funext q
  by_cases hall : ∀ a, a <+: q → a ≠ q → m.kindOf name a = some .dir
  · rw [view_eq_kindOf hall, shown_of_dirs hall]
  · push Not at hall
    obtain ⟨a, ha, hne, hnot⟩ := hall
    rw [view_eq_none ha hne hnot, shown_of_not ha hne hnot]

/-- **A walk through a branch shows the overlay.** -/
theorem view_eq_shown (h : m.forest.get? name = some b) (hlink : m.NoLinkUnderFlat name)
    (q : RelPath) : m.view name q = shown .dir (m.flat name) q := by
  rw [view_eq_walk, shown_congr_of_dirs]
  -- while directories are shown, every layer is read where it stands
  intro q hway
  refine kindOf_eq_flat_of_way h fun a ha hne => ⟨(hway a ha hne).2, hlink a fun c hc => ?_⟩
  by_cases hca : c = a
  · rw [hca]
    exact (hway a ha hne).2
  · obtain ⟨hcq, hcne⟩ := proper_of_proper ha hc hca
    exact (hway c hcq hcne).2

end Manager

end BranchFs
