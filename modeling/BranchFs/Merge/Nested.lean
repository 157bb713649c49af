/-
# BranchFs.Merge.Nested -- a commit into the parent's delta

The commit of a child of another branch: the merge into the parent's delta, the parent's tombstones,
and the directories the deletions have emptied. What the parent inherits decides which tombstones it
takes over; what is left of its delta is the graft of the session without the emptied directories.
-/
import BranchFs.Merge.Base
import BranchFs.Logic.Prune

namespace BranchFs

open BranchFs.Posix BranchFs.Logic

/-! ## Tombstones -/

theorem mem_insertTombstone {ts : List RelPath} {p x : RelPath} :
    x ∈ insertTombstone ts p ↔ x = p ∨ x ∈ ts := by
  unfold insertTombstone
  split
  · next h =>
    have hp : p ∈ ts := by simpa using h
    constructor
    · exact Or.inr
    · rintro (rfl | hx)
      · exact hp
      · exact hx
  · simp

theorem mem_dropTombstone {ts : List RelPath} {p x : RelPath} :
    x ∈ dropTombstone ts p ↔ x ∈ ts ∧ x ≠ p := by
  simp [dropTombstone]

theorem mem_foldl_dropTombstone {fs ts : List RelPath} {x : RelPath} :
    x ∈ fs.foldl dropTombstone ts ↔ x ∈ ts ∧ x ∉ fs := by
  induction fs generalizing ts with
  | nil => simp
  | cons f fs ih =>
    rw [List.foldl_cons, ih, mem_dropTombstone, List.mem_cons, not_or, and_assoc]

section Deletes

variable {m : Manager} {parent : Branch} {ts : List RelPath} {K : RelPath → Option Entry}

/-- What the deletions of a nested commit have collected. -/
structure Collected (m : Manager) (parent : Branch) (done : List RelPath) (w : NestedWork) :
    Prop where
  tombstones : ∀ x, x ∈ w.tombstones ↔
    (x ∈ parent.tombstones ∨ x ∈ done ∧ m.flatInherited parent x ≠ none) ∧
      ¬ (x ∈ done ∧ m.flatInherited parent x = none)
  emptied : w.emptied = (trashed m.disk (.files parent.name) [] done).map List.dropLast

/-- Whether a path is inherited does not change while the parent's delta does. -/
theorem inheritedPathExists_staged (hparent : m.forest.get? parent.name = some parent)
    {s : Staging} (hsame : SameOn (fun r => r ≠ some (.files parent.name)) m.disk s.disk) {t : RelPath}
    (hst : Straight m parent.name t) :
    { m with disk := s.disk }.inheritedPathExists parent t = true ↔
      m.flatInherited parent t ≠ none := by
  let m' : Manager := { m with disk := s.disk }
  have hown : ∀ r ∈ m.layers parent.name, some r ≠ some (Root.files parent.name) := by
    intro r hr heq
    have hno := not_own_of_mem_layers hr
    exact hno (heq ▸ own_files parent.name)
  have hkind : ∀ r ∈ m.layers parent.name, ∀ x : Place, x.root = some r →
      m'.disk.kindAt x = m.disk.kindAt x := fun r hr x hx => hsame.kindAt (by rw [hx]; exact hown r hr)
  have hflat : m'.flatInherited parent t = m.flatInherited parent t :=
    Manager.flatInherited_congr m' hparent hparent ⟨rfl, rfl, rfl, rfl⟩ rfl
      fun r hr => hkind r hr _ rfl
  have hlink : ∀ r ∈ m'.layers parent.name, m'.disk.NoLinkAbove ⟨some r, t⟩ := by
    intro r hr
    refine (hst r hr).of_le fun x hx _ hl => ?_
    unfold Disk.linkAt at hl ⊢
    rwa [hkind r hr x hx.1] at hl
  have hexists : m'.inheritedPathExists parent t = true ↔ m'.inheritedKind parent t ≠ none := by
    rw [ne_eq, Manager.inheritedKind_eq_none, Manager.inheritedPathExists,
      Option.isSome_iff_ne_none]
  rw [hexists, Manager.inheritedKind_eq_flat (m := m') hparent hlink, hflat]

/-- One deletion of a nested commit. -/
theorem stageParentDelete_ok (hparent : m.forest.get? parent.name = some parent) {t : RelPath}
    {done : List RelPath} {w : NestedWork} {s : Staging}
    (hs : Staged (.files parent.name) m.disk done [] K s) (hw : Collected m parent done w)
    (ht : SessionPath t) (hst : Straight m parent.name t)
    (hlink : m.disk.NoLinkAbove (deltaPath parent.name t)) :
    ∃ w' s', stageParentDelete m parent t w s = .ok w' s' ∧
      Staged (.files parent.name) m.disk (done ++ [t]) [] K s' ∧
      Collected m parent (done ++ [t]) w' := by
  obtain ⟨s', hrun, hs'⟩ := hs.delete ht hlink
  have hinh := inheritedPathExists_staged hparent hs.same hst
  have hthere : s.disk.lexists (deltaPath parent.name t) = true ↔
      cutKind m.disk (.files parent.name) done t ≠ none := by
    have hlink' : s.disk.NoLinkAbove (deltaPath parent.name t) := by
      refine hlink.of_le fun x hx _ hl => ?_
      obtain ⟨a, ha, rfl⟩ := le_deltaPath.mp hx
      have hk := hs.plain a (ht.plain.mono ha)
      rw [midKind_nil] at hk
      have hk' : s.disk.kindAt (deltaPath parent.name a) =
          cutKind m.disk (.files parent.name) done a := hk
      unfold Disk.linkAt at hl ⊢
      rw [hk'] at hl
      unfold cutKind at hl
      split at hl
      · cases hl
      · exact hl
    rw [Disk.lexists_eq rfl hlink']
    have hk := hs.plain t ht.plain
    rw [midKind_nil] at hk
    exact iff_of_eq (congrArg (· ≠ none) hk)
  let w' : NestedWork := {
    tombstones := if { m with disk := s.disk }.inheritedPathExists parent t = true
      then insertTombstone w.tombstones t else dropTombstone w.tombstones t
    emptied := if s.disk.lexists (deltaPath parent.name t) = true
      then w.emptied ++ [t.dropLast] else w.emptied }
  refine ⟨w', s', ?_, hs', ?_, ?_⟩
  · rw [stageParentDelete, readStage_bind, readStage_bind]
    have hrun' : stageDelete (deltaPath parent.name t) s = .ok () s' := hrun
    rw [bind_ok hrun']
    rfl
  · intro x
    show x ∈ (if { m with disk := s.disk }.inheritedPathExists parent t = true
      then insertTombstone w.tombstones t else dropTombstone w.tombstones t) ↔ _
    by_cases hI : { m with disk := s.disk }.inheritedPathExists parent t = true
    · have hIt := hinh.mp hI
      rw [if_pos hI, mem_insertTombstone, hw.tombstones]
      by_cases hx : x = t
      · subst hx
        simp [hIt]
      · simp [hx]
    · have hIt : m.flatInherited parent t = none := by
        by_contra hne
        exact hI (hinh.mpr hne)
      rw [if_neg hI, mem_dropTombstone, hw.tombstones]
      by_cases hx : x = t
      · subst hx
        simp [hIt]
      · simp [hx]
  · show (if s.disk.lexists (deltaPath parent.name t) = true
      then w.emptied ++ [t.dropLast] else w.emptied) = _
    rw [trashed_append, List.nil_append, List.map_append, ← hw.emptied]
    by_cases hl : s.disk.lexists (deltaPath parent.name t) = true
    · rw [if_pos hl, if_neg (hthere.mp hl)]
      rfl
    · have hnone : cutKind m.disk (.files parent.name) done t = none := by
        by_contra hne
        exact hl (hthere.mpr hne)
      rw [if_neg hl, if_pos hnone]
      simp

/-- **The deletions of a nested commit are staged without failure.** -/
theorem stageParentDeletes_ok (hparent : m.forest.get? parent.name = some parent)
    (hts : ∀ t ∈ ts, SessionPath t ∧ Straight m parent.name t ∧
      m.disk.NoLinkAbove (deltaPath parent.name t)) :
    ∃ w s, stageParentDeletes m parent ts ⟨parent.tombstones, []⟩ (Staging.start m.disk) = .ok w s ∧
      Staged (.files parent.name) m.disk ts [] K s ∧ Collected m parent ts w := by
  have main : ∀ (rest done : List RelPath) (w : NestedWork) (s : Staging), ts = done ++ rest →
      Staged (.files parent.name) m.disk done [] K s → Collected m parent done w →
      ∃ w' s', stageParentDeletes m parent rest w s = .ok w' s' ∧
        Staged (.files parent.name) m.disk (done ++ rest) [] K s' ∧
        Collected m parent (done ++ rest) w' := by
    intro rest
    induction rest with
    | nil =>
      intro done w s _ hs hw
      exact ⟨w, s, rfl, by rwa [List.append_nil], by rwa [List.append_nil]⟩
    | cons t rest ih =>
      intro done w s hsplit hs hw
      obtain ⟨hses, hst, hlink⟩ := hts t (by simp [hsplit])
      obtain ⟨w₁, s₁, hrun₁, hs₁, hw₁⟩ := stageParentDelete_ok hparent hs hw hses hst hlink
      obtain ⟨w₂, s₂, hrun₂, hs₂, hw₂⟩ := ih (done ++ [t]) w₁ s₁ (by simp [hsplit]) hs₁ hw₁
      refine ⟨w₂, s₂, ?_, by simpa using hs₂, by simpa using hw₂⟩
      rw [stageParentDeletes, bind_ok hrun₁, hrun₂]
  have hstart : Collected m parent [] ⟨parent.tombstones, []⟩ := ⟨by simp, rfl⟩
  simpa using main ts [] _ _ rfl (Staged.start _ _ K) hstart

end Deletes

/-! ## The climbs -/

/-- **One climb**: the empty directories from a place upwards, as far as no record stops it. -/
theorem pruneEmptyDeltaParents_ok {name : String} {b : Branch} :
    ∀ (levels : Nat) (q : RelPath) (m : Manager), q.length ≤ levels →
      m.forest.get? name = some b → m.disk.NoLinkAbove (deltaPath name q) →
      ∃ d', pruneEmptyDeltaParents name levels q m = .ok () { m with disk := d' } ∧
        deltaKind d' name = prune (deltaKind m.disk name) (Climbed .dir (deltaKind m.disk name)
          (fun z => (b.getTouchRecord z).isSome = true) q) ∧
        SameOn (fun r => r ≠ some (.files name)) m.disk d' := by
  intro levels
  induction levels with
  | zero =>
    intro q m hq _ _
    have hnil : q = [] := List.length_eq_zero_iff.mp (Nat.le_zero.mp hq)
    refine ⟨m.disk, rfl, ?_, SameOn.refl _ _⟩
    funext x
    rw [prune_of_not (not_climbed (Or.inl hnil))]
  | succ levels ih =>
    intro q m hq hb hlink
    have hstay : (q = [] ∨ deltaKind m.disk name q ≠ some .dir ∨ (b.getTouchRecord q).isSome = true ∨
        ∃ y, q <+: y ∧ q ≠ y ∧ deltaKind m.disk name y ≠ none) →
        deltaKind m.disk name = prune (deltaKind m.disk name) (Climbed .dir (deltaKind m.disk name)
          (fun z => (b.getTouchRecord z).isSome = true) q) := by
      intro h
      funext x
      rw [prune_of_not (not_climbed h)]
    rw [pruneEmptyDeltaParents, bind_ok (getBranch_ok hb)]
    by_cases hne : q = []
    · have hstop : (q.isEmpty || (b.getTouchRecord q).isSome) = true := by simp [hne]
      rw [if_pos hstop]
      exact ⟨m.disk, rfl, hstay (Or.inl hne), SameOn.refl _ _⟩
    by_cases hrec : (b.getTouchRecord q).isSome = true
    · have hstop : (q.isEmpty || (b.getTouchRecord q).isSome) = true := by simp [hrec]
      rw [if_pos hstop]
      exact ⟨m.disk, rfl, hstay (Or.inr (Or.inr (Or.inl hrec))), SameOn.refl _ _⟩
    have hgo : ¬ (q.isEmpty || (b.getTouchRecord q).isSome) = true := by simp [hrec, hne]
    rw [if_neg hgo]
    rcases Posix.Sys.removeDir_cases (l := deltaPath name q) rfl hlink with
      ⟨e, he⟩ | ⟨_, hdir, hchildren, hcut⟩
    · -- the directory is still in use, or is none
      have hattempt : attempt (onDisk (Posix.Sys.removeDir (deltaPath name q))) m =
          .ok (.error (.io e)) m := by
        simp only [attempt, onDisk_error he]
      rw [bind_ok hattempt]
      refine ⟨m.disk, rfl, hstay ?_, SameOn.refl _ _⟩
      by_cases hdir : deltaKind m.disk name q = some .dir
      · right; right; right
        by_contra hno
        push Not at hno
        have hempty : m.disk.children (deltaPath name q) = [] := by
          rw [List.eq_nil_iff_forall_not_mem]
          intro n hn
          exact Disk.mem_children.mp hn (hno (q ++ [n]) (List.prefix_append q [n]) (by simp))
        rw [Posix.Sys.removeDir_ok rfl hne hdir hempty] at he
        cases he
      · exact Or.inr (Or.inl hdir)
    · have hattempt : attempt (onDisk (Posix.Sys.removeDir (deltaPath name q))) m =
          .ok (.ok ()) { m with disk := m.disk.cut (deltaPath name q) } := by
        simp only [attempt, onDisk_ok hcut]
      rw [bind_ok hattempt]
      have hkind : ∀ y, deltaKind (m.disk.cut (deltaPath name q)) name y =
          if q <+: y then none else deltaKind m.disk name y := by
        intro y
        rw [deltaKind, Disk.kindAt_cut m.disk hne]
        exact if_congr (inTree_le (R := .files name)) rfl rfl
      have hlink' : (m.disk.cut (deltaPath name q)).NoLinkAbove (deltaPath name q.dropLast) := by
        refine (hlink.mono ((inTree_le (R := .files name)).mpr (List.dropLast_prefix q))).of_le
          fun x hx _ hl => ?_
        obtain ⟨a, _, rfl⟩ := le_deltaPath.mp hx
        have hk := hkind a
        unfold deltaKind at hk
        unfold Disk.linkAt at hl ⊢
        rw [hk] at hl
        split at hl
        · cases hl
        · exact hl
      obtain ⟨d', hrun, hd', hsame⟩ := ih q.dropLast { m with disk := m.disk.cut (deltaPath name q) }
        (by rw [List.length_dropLast]; omega) hb hlink'
      refine ⟨d', hrun, ?_, (Disk.sameOn_cut m.disk hne (by simp [deltaPath])).trans hsame⟩
      have hempty : ∀ y, q <+: y → q ≠ y → deltaKind m.disk name y = none := by
        intro y hqy hqne
        by_contra hy
        obtain ⟨n, hn⟩ := exists_child hqy hqne
        have hthere : m.disk.kindAt ((deltaPath name q).child n) ≠ none :=
          fun hnone => hy (Disk.none_of_le hnone ((inTree_le (R := .files name)).mpr hn))
        have hmem := Disk.mem_children.mpr hthere
        rw [hchildren] at hmem
        cases hmem
      rw [hd']
      funext x
      have hiff : Climbed .dir (deltaKind m.disk name)
          (fun z => (b.getTouchRecord z).isSome = true) q x ↔
          x = q ∨ Climbed .dir (deltaKind (m.disk.cut (deltaPath name q)) name)
            (fun z => (b.getTouchRecord z).isSome = true) q.dropLast x :=
        climbed_iff hne hdir hrec hempty (fun y hy => by rw [hkind, if_pos hy])
          (fun y hy => by rw [hkind, if_neg hy])
      by_cases hc : Climbed .dir (deltaKind (m.disk.cut (deltaPath name q)) name)
          (fun z => (b.getTouchRecord z).isSome = true) q.dropLast x
      · rw [prune_of hc, prune_of (hiff.mpr (Or.inr hc))]
      · rw [prune_of_not hc, hkind]
        by_cases hxq : x = q
        · rw [if_pos (hxq ▸ List.prefix_rfl), prune_of (hiff.mpr (Or.inl hxq))]
        · rw [prune_of_not fun h => (hiff.mp h).elim hxq hc]
          split
          · next hqx => exact (hempty x hqx fun heq => hxq heq.symm).symm
          · rfl

/-- **All the climbs of a commit.** -/
theorem pruneAll_ok {name : String} {b : Branch} {m : Manager} {Q : List RelPath}
    (hb : m.forest.get? name = some b)
    (hlink : ∀ q ∈ Q, m.disk.NoLinkAbove (deltaPath name q)) :
    ∃ d', Q.forM (fun dir => pruneEmptyDeltaParents name dir.length dir) m =
        .ok () { m with disk := d' } ∧
      deltaKind d' name = prune (deltaKind m.disk name) (Prunable .dir (deltaKind m.disk name)
        (fun z => (b.getTouchRecord z).isSome = true) Q) ∧
      SameOn (fun r => r ≠ some (.files name)) m.disk d' := by
  let G := deltaKind m.disk name
  let keep : RelPath → Prop := fun z => (b.getTouchRecord z).isSome = true
  have hG : ∀ {y a : RelPath}, G y ≠ none → a <+: y → G a ≠ none := by
    intro y a hy ha hnone
    exact hy (Disk.none_of_le hnone ((inTree_le (R := .files name)).mpr ha))
  have hloop : ∃ m', Q.forM (fun dir => pruneEmptyDeltaParents name dir.length dir) m = .ok () m' ∧
      ∃ d', m' = { m with disk := d' } ∧ deltaKind d' name = prune G (Prunable .dir G keep Q) ∧
        SameOn (fun r => r ≠ some (.files name)) m.disk d' := by
    refine forM_ok (I := fun done m' => ∃ d', m' = { m with disk := d' } ∧
      deltaKind d' name = prune G (Prunable .dir G keep done) ∧
      SameOn (fun r => r ≠ some (.files name)) m.disk d') ⟨m.disk, rfl, ?_, SameOn.refl _ _⟩ ?_
    · funext x
      rw [prune_of_not not_prunable_nil]
    · rintro done q rest _ hsplit ⟨d₁, rfl, hd₁, hsame₁⟩
      have hlink₁ : d₁.NoLinkAbove (deltaPath name q) := by
        refine (hlink q (by simp [hsplit])).of_le fun x hx _ hl => ?_
        obtain ⟨a, _, rfl⟩ := le_deltaPath.mp hx
        have hk : d₁.kindAt (deltaPath name a) = prune G (Prunable .dir G keep done) a :=
          congrFun hd₁ a
        unfold Disk.linkAt at hl ⊢
        rw [hk] at hl
        unfold prune at hl
        split at hl
        · cases hl
        · exact hl
      obtain ⟨d₂, hrun, hd₂, hsame₂⟩ := pruneEmptyDeltaParents_ok q.length q { m with disk := d₁ }
        le_rfl hb hlink₁
      refine ⟨_, hrun, d₂, rfl, ?_, hsame₁.trans hsame₂⟩
      rw [hd₂]
      show prune (deltaKind d₁ name) (Climbed .dir (deltaKind d₁ name) keep q) = _
      rw [hd₁, prune_climbed hG]
  obtain ⟨_, hrun, d', rfl, hd', hsame⟩ := hloop
  exact ⟨d', hrun, hd', hsame⟩

/-! ## The commit -/

/-- The parent's delta with the session grafted on. -/
noncomputable def grafted (m : Manager) (b parent : Branch) (K : RelPath → Option Entry) :
    RelPath → Option Entry :=
  graft .dir (deltaKind m.disk parent.name) (· ∈ b.tombstones) K

/-- The directories of the deleted entries the parent's delta holds. -/
def emptiedPlaces (m : Manager) (b parent : Branch) : List RelPath :=
  (b.tombstones.filter fun t => decide (deltaKind m.disk parent.name t ≠ none)).map List.dropLast

/-- The directories a nested commit prunes: no record of the parent speaks of them, and they hold
nothing but such directories, above the place of a deleted entry. -/
def EmptiedDir (m : Manager) (name : String) (b parent : Branch) : RelPath → Prop :=
  Prunable .dir (grafted m b parent (deltaKind m.disk name))
    (fun z => (parent.getTouchRecord z).isSome = true) (emptiedPlaces m b parent)

/-- The record of the parent after a nested commit. -/
def committedParent (parent : Branch) (tombstones : List RelPath) : Branch :=
  { parent with tombstones := tombstones, commitCount := parent.commitCount + 1 }

/-- What a commit into the parent's delta leaves. -/
structure IntoParent (m : Manager) (name : String) (b parent : Branch) (K : RelPath → Option Entry)
    (m' : Manager) : Prop where
  delta : deltaKind m'.disk parent.name =
    prune (grafted m b parent K) (EmptiedDir m name b parent)
  same : SameOn (fun r => r ≠ some (.files parent.name) ∧ ofBranch name r = false) m.disk m'.disk
  record : ∃ ts f, Finalized name parent.name f m.forest m'.forest ∧
    m'.forest.get? parent.name = some (committedParent parent ts) ∧
    ∀ t, t ∈ ts ↔ (t ∈ parent.tombstones ∨ t ∈ b.tombstones ∧ m.flatInherited parent t ≠ none) ∧
      ¬ (t ∈ b.tombstones ∧ m.flatInherited parent t = none) ∧ ¬ Leaf .dir (deltaKind m.disk name) t

section

variable {m m₁ : Manager} {name : String} {b parent : Branch} {r : Report}
variable {K : RelPath → Option Entry}

theorem graft_shape {δ δ' : RelPath → Option Entry} {T : RelPath → Prop} {G : RelPath → Option Entry}
    (h : ∀ f, Leaf .dir δ f ↔ Leaf .dir δ' f) (y : RelPath) :
    (graft .dir G T δ y = some .dir ↔ graft .dir G T δ' y = some .dir) ∧
    (graft .dir G T δ y = none ↔ graft .dir G T δ' y = none) := by
  by_cases hl : Leaf .dir δ y
  · have hl' := (h y).mp hl
    rw [graft_of_leaf hl, graft_of_leaf hl']
    exact ⟨iff_of_false hl.ne_dir hl'.ne_dir, iff_of_false hl.ne_none hl'.ne_none⟩
  · have heq : graft .dir G T δ y = graft .dir G T δ' y := by
      have hprop : Leaf .dir δ = Leaf .dir δ' := funext fun f => propext (h f)
      have hl' : ¬ Leaf .dir δ' y := fun hl' => hl ((h y).mpr hl')
      unfold graft
      rw [if_neg hl, if_neg hl', hprop]
    rw [heq]
    exact ⟨Iff.rfl, Iff.rfl⟩

/-- Which directories are pruned does not depend on the order of the deletions, nor on merged
texts. -/
theorem prunable_iff_emptied {ts : List RelPath} (hT : ∀ t, t ∈ ts ↔ t ∈ b.tombstones)
    (hK : ∀ f, Leaf .dir K f ↔ Leaf .dir (deltaKind m.disk name) f) (x : RelPath) :
    Prunable .dir (grafted m b parent K) (fun z => (parent.getTouchRecord z).isSome = true)
      ((trashed m.disk (.files parent.name) [] ts).map List.dropLast) x ↔
    EmptiedDir m name b parent x := by
  have hshape := fun y => graft_shape (G := deltaKind m.disk parent.name) (T := (· ∈ b.tombstones)) hK y
  unfold EmptiedDir
  rw [grafted, prunable_congr (fun y => (hshape y).1) (fun y => (hshape y).2)]
  constructor
  · refine fun h => h.mono ?_
    intro q hq
    obtain ⟨t, ht, rfl⟩ := List.mem_map.mp hq
    obtain ⟨hmem, hk⟩ := mem_of_mem_trashed ht
    exact List.mem_map.mpr ⟨t, List.mem_filter.mpr ⟨(hT t).mp hmem, decide_eq_true hk⟩, rfl⟩
  · intro h
    refine ⟨h.1, h.2.1, fun y hxy hy => ?_⟩
    obtain ⟨hd, hk, q, hq, hyq, hGq⟩ := h.2.2 y hxy hy
    refine ⟨hd, hk, q, ?_, hyq, hGq⟩
    obtain ⟨t, ht, rfl⟩ := List.mem_map.mp hq
    obtain ⟨htmem, htk⟩ := List.mem_filter.mp ht
    refine List.mem_map.mpr ⟨t, mem_trashed (of_decide_eq_true htk) ((hT t).mpr htmem) (by simp) ?_, rfl⟩
    intro u hu hut
    by_contra hne
    -- a tombstone above would have taken the place itself, unless a leaf keeps it
    have hcov : Covers (· ∈ b.tombstones) t.dropLast :=
      ⟨u, (hT u).mp hu, prefix_dropLast hut hne⟩
    have hleafBelow : ¬ ∃ f, Leaf .dir (deltaKind m.disk name) f ∧ t.dropLast <+: f := by
      rintro ⟨f, hf, hle⟩
      have hGf : graft .dir (deltaKind m.disk parent.name) (· ∈ b.tombstones)
          (deltaKind m.disk name) f = deltaKind m.disk name f := graft_of_leaf hf
      have := (h.2.2 f (hxy.trans (hyq.trans hle)) (by rw [grafted, hGf]; exact hf.ne_none)).1
      rw [grafted, hGf] at this
      exact hf.ne_dir this
    have hleafAbove : ¬ ∃ f, Leaf .dir (deltaKind m.disk name) f ∧ f <+: t.dropLast := by
      rintro ⟨f, hf, hle⟩
      by_cases heq : f = t.dropLast
      · exact hleafBelow ⟨f, hf, heq ▸ List.prefix_rfl⟩
      · apply hGq
        exact graft_of_leaf_above (fun hl => hleafBelow ⟨_, hl, List.prefix_rfl⟩) hf hle
    exact hGq (graft_of_covered hleafAbove hleafBelow hcov)

/-- After the merge, nothing that could be a link stands above the place of a deletion that has
trash. -/
theorem noLinkAbove_emptied {R : Root} {d d₂ : Tree} {ts : List RelPath}
    {files : List (RelPath × Place)} {src : RelPath × Place → Place}
    (h : Mergeable R d ts files src K) (hpub : Published R d ts (files.map Prod.fst) K d₂)
    {t : RelPath} (ht : t ∈ trashed d R [] ts) : d₂.NoLinkAbove (inTree R t.dropLast) := by
  obtain ⟨hmem, hthere⟩ := mem_of_mem_trashed ht
  have hses := h.deletion t hmem
  refine Disk.noLinkAbove_of fun x hx _ => ?_
  obtain ⟨a, ha, rfl⟩ := le_inTree.mp hx
  obtain ⟨hat, hne⟩ := (prefix_dropLast_iff hses.ne_nil).mp ha
  have hk := hpub.plain a (hses.plain.mono hat)
  by_cases hf : a ∈ files.map Prod.fst
  · obtain ⟨f, hf', rfl⟩ := List.mem_map.mp hf
    rw [pubKind, if_pos hf] at hk
    obtain ⟨k, _, hK⟩ := h.source f hf'
    cases k with
    | symlink l => exact absurd hK (h.noLinkOver t hmem f hf' hat hne l)
    | file bytes => exact Disk.linkAt_eq_false_of_kind (hk.trans hK) rfl
    | dir => exact Disk.linkAt_eq_false_of_kind (hk.trans hK) rfl
  · rcases pubKind_above K ts hthere hat hne hf with hp | hp
    · exact Disk.linkAt_of_none (hk.trans hp)
    · exact Disk.linkAt_eq_false_of_kind (hk.trans hp) rfl

/-- With no side names to begin with, the merge leaves the graft everywhere. -/
theorem deltaKind_published {R : Root} {n : String} (hR : R = .files n) {d d₂ : Tree}
    {ts fs : List RelPath} {T : RelPath → Prop} (hT : ∀ t, t ∈ ts ↔ T t) (hapart : Antichain fs)
    (hfs : ∀ f, f ∈ fs ↔ Leaf .dir K f) (hplain : ∀ f ∈ fs, PlainPath f)
    (hclean : ∀ x, ¬ PlainPath x → deltaKind d n x = none) (hpub : Published R d ts fs K d₂)
    (hleft : Leftover R d [] d₂) : deltaKind d₂ n = graft .dir (deltaKind d n) T K := by
  subst hR
  have htree : plainTree d (.files n) = deltaKind d n := by
    funext q
    by_cases hq : PlainPath q
    · rw [plainTree_of hq]
      rfl
    · rw [hclean q hq]
      exact if_neg hq
  funext q
  by_cases hq : PlainPath q
  · rw [← htree, ← pubKind_eq_graft hT hapart hfs hq]
    exact hpub.plain q hq
  · have hnone : deltaKind d₂ n q = none := by
      by_contra hk
      rcases hleft q hq hk with h | ⟨t, ht, _⟩
      · exact h (hclean q hq)
      · cases ht
    rw [hnone]
    have hl : ¬ Leaf .dir K q := fun hl => hq (hplain q ((hfs q).mpr hl))
    have hdown : ¬ ∃ f, Leaf .dir K f ∧ q <+: f :=
      fun ⟨f, hf, hle⟩ => hq ((hplain f ((hfs f).mpr hf)).mono hle)
    by_cases hup : ∃ f, Leaf .dir K f ∧ f <+: q
    · obtain ⟨f, hf, hle⟩ := hup
      exact (graft_of_leaf_above hl hf hle).symm
    · by_cases hc : Covers T q
      · exact (graft_of_covered hup hdown hc).symm
      · exact ((graft_of_apart hup hdown hc).trans (hclean q hq)).symm

theorem modify_modify (F : Forest) (n : String) (f g : Branch → Branch) :
    ((F.modify n f).modify n g).list = F.list.map (Forest.modifyAt n fun b =>
      g { f b with name := b.name, parent := b.parent }) := by
  show (F.list.map _).map _ = _
  rw [List.map_map]
  refine List.map_congr_left fun b _ => ?_
  simp only [Function.comp]
  unfold Forest.modifyAt
  by_cases hb : b.name = n
  · simp only [hb, if_true]
  · simp only [hb, if_false]

/-- **The application of a commit into the parent's delta**, once its report is made. -/
theorem applyNested_cases (hb : m.forest.get? name = some b)
    (hleaf : m.forest.isLeaf name = true) (hne : name ≠ "main")
    (hp : b.parent = some parent.name) (hmain : parent.name ≠ "main")
    (hparent : m.forest.get? parent.name = some parent)
    (h : Committable m name b (.files parent.name))
    (hclean : ∀ x, ¬ PlainPath x → deltaKind m.disk parent.name x = none)
    (hno : ¬ CommitPanics m name b) (hdet : Detected name m r m₁) (order : HashOrder) :
    (Commits m name b (.files parent.name) order ∧ ∃ m',
      applyCommit name parent r (order.iter b.tombstones) (walkFiles m.disk name) m₁ = .ok () m' ∧
        IntoParent m name b parent (committedKind m₁.disk name r) m') ∨
    (¬ Commits m name b (.files parent.name) order ∧ ∃ e m',
      applyCommit name parent r (order.iter b.tombstones) (walkFiles m.disk name) m₁ =
        .error e m') := by
  have hpn : parent.name ≠ name := by
    intro heq
    exact Forest.parent_ne_self hb (by rw [hp, heq])
  have hforeign : Foreign name (.files parent.name) := Or.inr ⟨_, hpn, rfl⟩
  have hlayer := Manager.parent_files_mem_layers hb hp
  have hsub := Manager.layers_parent_subset hb hp
  have hmerge := h.mergeable hforeign hlayer hdet order
  let ts := order.iter b.tombstones
  let fs := (walkFiles m.disk name).map Prod.fst
  let K := committedKind m₁.disk name r
  have hT : ∀ t, t ∈ ts ↔ t ∈ b.tombstones := fun t => (order.perm _).mem_iff
  have hfs : ∀ f, f ∈ fs ↔ Leaf .dir K f := fun f => by
    rw [committedKind_leaf hdet]
    exact mem_walkFiles_fst
  have hrest : m₁ = { m with disk := m₁.disk } := hdet.rest
  have hforest : m₁.forest = m.forest := by rw [hrest]
  have hparent₁ : m₁.forest.get? parent.name = some parent := by rw [hforest]; exact hparent
  have hlayers : ∀ n, m₁.layers n = m.layers n := by
    intro n
    unfold Manager.layers Manager.older
    rw [hforest]
  have hlayerKind : ∀ r ∈ m.layers name, ∀ x : Place, x.root = some r →
      m₁.disk.kindAt x = m.disk.kindAt x := by
    intro r' hr' x hx
    refine hdet.same.kindAt ?_
    rw [hx]
    intro heq
    have hmem : Root.mergeContent name ∈ m.layers name := Option.some.inj heq ▸ hr'
    simp [Manager.layers] at hmem
  have hdel : ∀ t ∈ ts, SessionPath t ∧ Straight m₁ parent.name t ∧
      m₁.disk.NoLinkAbove (deltaPath parent.name t) := by
    intro t ht
    refine ⟨hmerge.deletion t ht, ?_, hmerge.straightT t ht⟩
    intro r' hr'
    rw [hlayers] at hr'
    refine (h.straight t (Or.inl ((hT t).mp ht)) r' (hsub r' hr')).of_le fun x hx _ hl => ?_
    unfold Disk.linkAt at hl ⊢
    rwa [hlayerKind r' (hsub r' hr') x hx.1] at hl
  obtain ⟨w, s₁, hdels, hstaged, hcol⟩ := stageParentDeletes_ok (K := K) hparent₁ hdel
  have hbody : stageIntoParent m₁ parent r ts (walkFiles m.disk name) (Staging.start m₁.disk) =
      (((walkFiles m.disk name).forM fun f => stageCopy (inTree (.files parent.name)) f.1 (r.sourceOf f)) >>=
        fun _ => pure w) s₁ := by
    unfold stageIntoParent
    rw [bind_ok hdels]
    rfl
  have hget : (get : Mgr Manager) m₁ = .ok m₁ m₁ := rfl
  have hflat : ∀ t ∈ ts, m₁.flatInherited parent t = m.flatInherited parent t := by
    intro t _
    refine Manager.flatInherited_congr m₁ hparent hparent₁ ⟨rfl, rfl, rfl, rfl⟩ ?_ ?_
    · unfold Manager.older
      rw [hforest]
    · intro r' hr'
      exact hlayerKind r' (hsub r' hr') _ rfl
  rcases runStaged_cases hmerge hstaged hbody with ⟨hgo, d₂, hrun, hpub, hleft⟩ | ⟨hstop, e, d₂, hrun⟩
  · have hdelta₁ : deltaKind m₁.disk parent.name = deltaKind m.disk parent.name := by
      funext q
      exact hdet.deltaKind parent.name q
    have hdelta₂ : deltaKind d₂ parent.name = grafted m b parent K := by
      rw [deltaKind_published rfl hT hmerge.apart hfs
        (fun f hf => h.file f ((committedKind_leaf hdet).mp ((hfs f).mp hf)))
        (by rw [hdelta₁]; exact hclean) hpub hleft, hdelta₁]
      rfl
    have hlinks : ∀ q ∈ w.emptied, d₂.NoLinkAbove (deltaPath parent.name q) := by
      intro q hq
      rw [hcol.emptied] at hq
      obtain ⟨t, ht, rfl⟩ := List.mem_map.mp hq
      exact noLinkAbove_emptied hmerge hpub ht
    obtain ⟨d₃, hprune, hdelta₃, hsame₃⟩ :=
      pruneAll_ok (m := { m₁ with disk := d₂ }) hparent₁ hlinks
    have hemptied : ∀ x, Prunable .dir (deltaKind d₂ parent.name)
        (fun z => (parent.getTouchRecord z).isSome = true) w.emptied x ↔
        EmptiedDir m name b parent x := by
      intro x
      rw [hdelta₂, hcol.emptied, trashed_congr (hdet.dest hforeign)]
      exact prunable_iff_emptied hT (fun f => committedKind_leaf hdet) x
    let ts' := fs.foldl dropTombstone w.tombstones
    let f₁ : Branch → Branch := fun b => { b with tombstones := ts' }
    let f : Branch → Branch := fun b => countedCommit { f₁ b with name := b.name, parent := b.parent }
    obtain ⟨F', hremove, hfinal⟩ := removeBranch_ok
      { m₁ with disk := d₃, forest := m₁.forest.modify parent.name f₁ } name parent.name countedCommit
      (by rw [isLeaf_modify, hforest]; exact hleaf) hne
    have hfinal' : Finalized name parent.name f m.forest F' := by
      refine ⟨?_⟩
      rw [hfinal.list]
      congr 1
      rw [← hforest]
      exact modify_modify m₁.forest parent.name f₁ countedCommit
    let m' : Manager := { m₁ with forest := F', disk := d₃.purge (ofBranch name), epoch := m₁.epoch + 1 }
    have howner : ofBranch name (some (.files parent.name)) = false := by
      simp only [ofBranch, Option.bind_some, Root.owner, beq_eq_false_iff_ne, ne_eq]
      exact fun heq => hpn (Option.some.inj heq)
    have hget' : ∀ x : Place, ofBranch name x.root = false → m'.disk.get x = d₃.get x := by
      intro x hx
      show (d₃.purge (ofBranch name)).get x = _
      rw [Disk.get_purge, if_neg fun h => by rw [hx] at h; exact Bool.false_ne_true h.2]
    have happly : applyCommit name parent r ts (walkFiles m.disk name) m₁ = .ok () m' := by
      unfold applyCommit
      rw [if_neg hmain, commitIntoParent, bind_ok hget, bind_ok (onDisk_ok hrun)]
      show ((w.emptied.forM fun dir => pruneEmptyDeltaParents parent.name dir.length dir : Mgr Unit) >>=
        _) { m₁ with disk := d₂ } = _
      rw [bind_ok hprune]
      show (modifyBranch parent.name f₁ >>= _) { m₁ with disk := d₃ } = _
      have hmodify : modifyBranch parent.name f₁ { m₁ with disk := d₃ } =
          .ok () { m₁ with disk := d₃, forest := m₁.forest.modify parent.name f₁ } := rfl
      rw [bind_ok hmodify]
      have hcount : countCommit parent.name
          { m₁ with disk := d₃, forest := m₁.forest.modify parent.name f₁ } =
          .ok () { m₁ with disk := d₃, forest :=
            (m₁.forest.modify parent.name f₁).modify parent.name countedCommit } := rfl
      rw [bind_ok hcount, bind_ok hremove]
      rfl
    refine Or.inl ⟨(commits_iff h hforeign hdet hno order).mp hgo, m', happly, ?_, ?_,
      ts', f, hfinal', ?_, ?_⟩
    · funext x
      rw [deltaKind, Disk.kindAt, hget' _ howner]
      show deltaKind d₃ parent.name x = _
      rw [hdelta₃]
      show prune (deltaKind d₂ parent.name) _ x = _
      by_cases hx : EmptiedDir m name b parent x
      · rw [prune_of ((hemptied x).mpr hx), prune_of hx]
      · rw [prune_of_not fun hp => hx ((hemptied x).mp hp), prune_of_not hx, hdelta₂]
    · intro x hx
      obtain ⟨hx1, hx2⟩ := hx
      have hnm : x.root ≠ some (.mergeContent name) := by
        intro heq
        rw [heq] at hx2
        simp [ofBranch, Root.owner] at hx2
      rw [hget' x hx2, hsame₃ x hx1, hpub.same x hx1, hdet.same x hnm]
    · rw [hfinal'.get?, if_neg hpn, hparent, Option.map_some]
      unfold Forest.modifyAt
      rw [if_pos rfl]
      rfl
    · intro t
      show t ∈ fs.foldl dropTombstone w.tombstones ↔ _
      rw [mem_foldl_dropTombstone, hcol.tombstones, hfs, committedKind_leaf hdet]
      by_cases ht : t ∈ b.tombstones
      · rw [hflat t ((hT t).mpr ht)]
        simp only [hT, ht, true_and, and_assoc]
      · simp only [hT, ht, false_and, and_assoc]
  · refine Or.inr ⟨fun hc => hstop ((commits_iff h hforeign hdet hno order).mpr hc), .io e,
      { m₁ with disk := d₂ }, ?_⟩
    unfold applyCommit
    rw [if_neg hmain, commitIntoParent, bind_ok hget, bind_error (onDisk_error hrun)]

/-- **A commit into the parent's delta** goes through exactly when nothing is in its way and no trash
is stranded; it then leaves the graft of the session, without the directories it emptied. -/
theorem commitNested_cases (hb : m.forest.get? name = some b)
    (hleaf : m.forest.isLeaf name = true) (hne : name ≠ "main")
    (hp : b.parent = some parent.name) (hmain : parent.name ≠ "main")
    (hparent : m.forest.get? parent.name = some parent)
    (h : Committable m name b (.files parent.name))
    (hclean : ∀ x, ¬ PlainPath x → deltaKind m.disk parent.name x = none) (order : HashOrder) :
    (Commits m name b (.files parent.name) order ∧ ∃ o m' K, commitWithReport order name m = .ok o m' ∧
      Committed m name o.autoMerges K ∧ IntoParent m name b parent K m') ∨
    (¬ Commits m name b (.files parent.name) order ∧
      ∃ e m', commitWithReport order name m = .error e m') := by
  rcases commit_reported hb hleaf hne hp hparent h.store (fun p hf => h.straight p (Or.inr hf))
    order with ⟨hno, r, m₁, hdet, hcommit⟩ | ⟨hpanic, m', hcommit⟩
  swap
  · exact Or.inr ⟨fun hgo => hgo.2.2 hpanic, _, m', hcommit⟩
  rcases applyNested_cases hb hleaf hne hp hmain hparent h hclean hno hdet order with
    ⟨hgo, m', happly, hi⟩ | ⟨hstop, e, m', happly⟩
  · refine Or.inl ⟨hgo, ⟨parent.name, r.autoMerges, r.conflicts⟩, m', _, ?_, hdet.committed, hi⟩
    rw [hcommit, bind_ok happly]
    rfl
  · refine Or.inr ⟨hstop, e, m', ?_⟩
    rw [hcommit, bind_error happly]

end

end BranchFs
