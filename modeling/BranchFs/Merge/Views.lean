/-
# BranchFs.Merge.Views -- what a commit shows

A commit in the terms of those who read the parent: before it and after it the parent is an overlay,
and a walk through the parent shows that overlay. What the two overlays are is said here once, for a
parent that is `main` and for any other; what a commit preserves is then a matter of overlays.
-/
import BranchFs.Merge.Nested
import BranchFs.Logic.Untouched
import BranchFs.Model.Flat

namespace BranchFs

open BranchFs.Posix BranchFs.Logic

/-- What the base directory holds at a path. -/
def baseKind (d : Tree) (q : RelPath) : Option Entry := d.kindAt (basePath q)

theorem baseKind_closed (d : Tree) : Closed .dir (baseKind d) where
  root := Disk.kindAt_root d rfl
  above := by
    intro q a hq ha hne
    exact Disk.dir_above hq (inTree_le (R := .base).mpr ha) (inTree_ne (R := .base).mpr hne)

/-- Where the session of a child of `parent` is committed to. -/
def destination (parent : String) : Root := if parent = "main" then .base else .files parent

/-- A leaf branch over its parent, its session ready to be committed: no side names anywhere, and no
link in any layer where the session or the parent has a directory. -/
structure Session (m : Manager) (name : String) (b parent : Branch) : Prop where
  branch : m.forest.get? name = some b
  leaf : m.forest.isLeaf name = true
  up : b.parent = some parent.name
  record : m.forest.get? parent.name = some parent
  committable : Committable m name b (destination parent.name)
  clean : ∀ r, r = .files name ∨ r ∈ m.layers name →
    ∀ x, ¬ PlainPath x → m.disk.kindAt ⟨some r, x⟩ = none
  dirs : ∀ q, deltaKind m.disk name q = some .dir ∨ m.flat parent.name q = some .dir →
    ∀ r ∈ m.layers name, m.disk.linkAt ⟨some r, q⟩ = false
  masks : ∀ c ∈ m.forest.list, Manager.MasksBelow m.disk c
  main : parent.parent = none → parent.hidePaths = []

section

variable {m m' : Manager} {name : String} {b parent : Branch} {K : RelPath → Option Entry}
variable {auto : List CommitAutoMerge}

theorem Session.name_ne_main (h : Session m name b parent) : name ≠ "main" := by
  intro heq
  have hb := Forest.mem_of_get? h.branch
  have hnone := (m.forest.main b hb).mp ((Forest.name_of_get? h.branch).trans heq)
  rw [h.up] at hnone
  cases hnone

theorem Session.parent_ne (h : Session m name b parent) : parent.name ≠ name := by
  intro heq
  exact Forest.parent_ne_self h.branch (by rw [h.up, heq])

/-- `main` is the parent without a parent. -/
theorem Session.main_iff (h : Session m name b parent) : parent.name = "main" ↔ parent.parent = none :=
  m.forest.main parent (Forest.mem_of_get? h.record)

theorem Session.clean_dest (h : Session m name b parent) :
    ∀ x, ¬ PlainPath x → m.disk.kindAt (inTree (destination parent.name) x) = none := by
  intro x hx
  refine h.clean _ (Or.inr ?_) x hx
  unfold destination
  split
  · exact m.base_mem_layers name
  · exact Manager.parent_files_mem_layers h.branch h.up

/-- Below the root of a tree without side names, all of it is plain. -/
theorem plainTree_clean {d : Tree} {R : Root}
    (h : ∀ x, ¬ PlainPath x → d.kindAt (inTree R x) = none) :
    plainTree d R = fun q => d.kindAt (inTree R q) := by
  funext q
  by_cases hq : PlainPath q
  · exact plainTree_of hq
  · rw [h q hq]
    exact if_neg hq

/-! ## The branch map after a commit -/

/-- The branches older than the parent are others than the session's. -/
theorem Session.older_ne (h : Session m name b parent) {c : Branch} (hc : c ∈ m.older parent.name) :
    c.name ≠ name := by
  intro heq
  have hnodup := m.forest.grown.nodup
  have hmem : name ∈ (olderThan Branch.name m.forest.list parent.name).map Branch.name :=
    List.mem_map.mpr ⟨c, hc, heq⟩
  have hsub := olderThan_suffix_of_mem hnodup hmem
  obtain ⟨c', hc', hname⟩ := List.mem_map.mp (up_mem_olderThan m.forest.grown h.branch h.up)
  exact key_ne_of_mem_olderThan hnodup (hsub.subset hc') hname

theorem layer_ne_files {n : String} {r : Root} (hr : r ∈ m.layers n) :
    some r ≠ some (Root.files n) := by
  intro heq
  have hno := not_own_of_mem_layers hr
  rw [heq] at hno
  exact hno (own_files n)

/-- A layer below the parent is none of the session's own trees. -/
theorem Session.layer_foreign (h : Session m name b parent) {r : Root}
    (hr : r ∈ m.layers parent.name) : ofBranch name (some r) = false := by
  have hne : ∀ n, n ≠ name → ∀ r' : Root, r'.owner = some n → ofBranch name (some r') = false := by
    intro n hn r' hown
    simp only [ofBranch, Option.bind_some, hown, beq_eq_false_iff_ne, ne_eq]
    exact fun heq => hn (Option.some.inj heq)
  simp only [Manager.layers, List.mem_cons, List.mem_flatMap, List.not_mem_nil, or_false] at hr
  rcases hr with rfl | rfl | ⟨c, hc, rfl | rfl⟩
  · rfl
  · exact hne _ h.parent_ne _ rfl
  · exact hne _ (h.older_ne hc) _ rfl
  · exact hne _ (h.older_ne hc) _ rfl

/-- A commit leaves the branches older than the parent alone. -/
theorem Session.older (h : Session m name b parent) {f : Branch → Branch}
    (hf : Finalized name parent.name f m.forest m'.forest) :
    m'.older parent.name = m.older parent.name := by
  have hnodup := m.forest.grown.nodup
  unfold Manager.older
  rw [hf.list, olderThan_filter h.parent_ne, map_olderThan (Forest.modifyAt_name parent.name f)]
  have hmap : (olderThan Branch.name m.forest.list parent.name).map (Forest.modifyAt parent.name f) =
      olderThan Branch.name m.forest.list parent.name := by
    refine (List.map_congr_left fun c hc => ?_).trans (List.map_id _)
    unfold Forest.modifyAt
    rw [if_neg (key_ne_of_mem_olderThan hnodup hc)]
    rfl
  rw [hmap, List.filter_eq_self.mpr]
  exact fun c hc => decide_eq_true (h.older_ne hc)

theorem Session.layers (h : Session m name b parent) {f : Branch → Branch}
    (hf : Finalized name parent.name f m.forest m'.forest) :
    m'.layers parent.name = m.layers parent.name := by
  unfold Manager.layers
  rw [h.older hf]

/-! ## A parent that is `main` -/

section Base

variable (h : Session m name b parent) (hmain : parent.name = "main")
  (hc : Committed m name auto K) (hi : IntoBase m name b K m')

include h hmain

/-- `main` is its delta over the base directory. -/
theorem Session.flat_main : m.flat "main" =
    overlay (deltaKind m.disk "main") (Whiteout parent) (baseKind m.disk) := by
  have hroot := h.main_iff.mp hmain
  have hget := h.record
  rw [hmain] at hget
  rw [Manager.flat_eq_overlay hget, Manager.flatInherited_main hroot (h.main hroot)]
  rfl

include hi

theorem Session.main_after : m'.forest.get? "main" = some (countedCommit parent) := by
  have hget := h.record
  rw [hmain] at hget
  rw [hi.forest.get?, if_neg fun heq => h.name_ne_main heq.symm, hget, Option.map_some]
  unfold Forest.modifyAt
  rw [if_pos hmain]
  rfl

include hc

/-- The base directory holds the graft of the session. -/
theorem Session.base_after :
    baseKind m'.disk = graft .dir (baseKind m.disk) (· ∈ b.tombstones) K := by
  have hdest : destination parent.name = .base := if_pos hmain
  have hclean := h.clean_dest
  rw [hdest] at hclean
  funext q
  by_cases hq : PlainPath q
  · have hbase := hi.base q hq
    rw [plainTree_clean hclean] at hbase
    exact hbase
  · have hnone : baseKind m'.disk q = none := by
      by_contra hk
      exact hi.side q hq hk (hclean q hq)
    have hleaf : ∀ f, Leaf .dir K f → PlainPath f := fun f hf =>
      h.committable.file f ((hc.leaf f).mp hf)
    have hl : ¬ Leaf .dir K q := fun hl => hq (hleaf q hl)
    have hdown : ¬ ∃ f, Leaf .dir K f ∧ q <+: f := fun ⟨f, hf, hqf⟩ => hq ((hleaf f hf).mono hqf)
    rw [hnone]
    by_cases hup : ∃ f, Leaf .dir K f ∧ f <+: q
    · obtain ⟨f, hf, hfq⟩ := hup
      exact (graft_of_leaf_above hl hf hfq).symm
    · by_cases hT : Covers (· ∈ b.tombstones) q
      · exact (graft_of_covered hup hdown hT).symm
      · exact ((graft_of_apart hup hdown hT).trans (hclean q hq)).symm

/-- After the commit `main` is what is left of its delta over the graft. -/
theorem Session.flat_main_after : m'.flat "main" = overlay (deltaKind m'.disk "main") (Whiteout parent)
    (graft .dir (baseKind m.disk) (· ∈ b.tombstones) K) := by
  have hroot : (countedCommit parent).parent = none := h.main_iff.mp hmain
  rw [Manager.flat_eq_overlay (h.main_after hmain hi), Manager.flatInherited_main hroot
    (h.main (h.main_iff.mp hmain))]
  show overlay _ (Whiteout parent) (baseKind m'.disk) = _
  rw [h.base_after hmain hc hi]

/-- No layer of `main` has a link where `main` shows a directory. -/
theorem Session.noLink_main_after : m'.NoLinkUnderFlat "main" := by
  intro q hway r hr
  have hlayers : m'.layers parent.name = m.layers parent.name :=
    h.layers (f := countedCommit) (by rw [hmain]; exact hi.forest)
  rw [hmain] at hlayers
  rw [hlayers] at hr
  have hself : m'.flat "main" q = some .dir := hway q List.prefix_rfl
  rw [h.flat_main_after hmain hc hi] at hself
  have hbefore := dir_before_of_dir_after hc.closed hi.delta hself
  have hdirs : ∀ r ∈ m.layers name, m.disk.linkAt ⟨some r, q⟩ = false := by
    refine h.dirs q ((overlay_eq_some hbefore).imp (hc.dir q).mp fun hd => ?_)
    rw [hmain, h.flat_main hmain, hd]
  have hsub := Manager.layers_parent_subset h.branch h.up
  rw [hmain] at hsub
  by_cases hbase : r = .base
  · subst hbase
    have hlink := hdirs _ (m.base_mem_layers name)
    have hb := congrFun (h.base_after hmain hc hi) q
    by_cases hup : ∃ f, Leaf .dir K f ∧ f <+: q
    · exfalso
      have hM := (hi.delta q).1 (Or.inr hup)
      by_cases hcov : Covers (Whiteout parent) q
      · rw [overlay_of_covered hM hcov] at hself
        cases hself
      rw [overlay_of_none hM hcov] at hself
      by_cases hl : Leaf .dir K q
      · rw [graft_of_leaf hl] at hself
        exact hl.ne_dir hself
      · obtain ⟨f, hf, hfq⟩ := hup
        rw [graft_of_leaf_above hl hf hfq] at hself
        cases hself
    rcases graft_cases (K := baseKind m.disk) (T := (· ∈ b.tombstones)) hup with
      ⟨_, hg⟩ | ⟨_, _, hg⟩ | ⟨_, _, hg⟩
    · exact Disk.linkAt_eq_false_of_kind (hb.trans hg) rfl
    · exact Disk.linkAt_of_none (hb.trans hg)
    · have hsame : m'.disk.kindAt ⟨some .base, q⟩ = m.disk.kindAt ⟨some .base, q⟩ := hb.trans hg
      unfold Disk.linkAt at hlink ⊢
      rwa [hsame]
  · have hforeign : ofBranch name (some r) = false := h.layer_foreign (by rw [hmain]; exact hr)
    have hsame : m'.disk.kindAt ⟨some r, q⟩ = m.disk.kindAt ⟨some r, q⟩ :=
      hi.same.kindAt ⟨fun heq => hbase (Option.some.inj heq), layer_ne_files hr, hforeign⟩
    have hlink := hdirs r (hsub r hr)
    unfold Disk.linkAt at hlink ⊢
    rwa [hsame]

/-- A walk through `main` after the commit. -/
theorem Session.view_main_after (q : RelPath) : m'.view "main" q =
    shown .dir (overlay (deltaKind m'.disk "main") (Whiteout parent)
      (graft .dir (baseKind m.disk) (· ∈ b.tombstones) K)) q := by
  rw [Manager.view_eq_shown (h.main_after hmain hi) (h.noLink_main_after hmain hc hi),
    h.flat_main_after hmain hc hi]

end Base

/-! ## Before the commit -/

/-- No layer of the parent has a link where the parent shows a directory. -/
theorem Session.noLink_parent (h : Session m name b parent) : m.NoLinkUnderFlat parent.name := by
  intro q hway r hr
  exact h.dirs q (Or.inr (hway q List.prefix_rfl)) r (Manager.layers_parent_subset h.branch h.up r hr)

theorem Session.view_parent (h : Session m name b parent) (q : RelPath) :
    m.view parent.name q = shown .dir (m.flat parent.name) q :=
  Manager.view_eq_shown h.record h.noLink_parent q

/-- A lazy branch without hide rules lies over what its parent shows. -/
theorem Session.flat_lazy (h : Session m name b parent) (hlazy : b.inheritance = .lazy)
    (hhide : b.hidePaths = []) :
    m.flat name = overlay (deltaKind m.disk name) (Whiteout b) (m.flat parent.name) := by
  rw [Manager.flat_eq_overlay h.branch, Manager.flatInherited_lazy h.up hlazy hhide]

theorem Session.view_lazy (h : Session m name b parent) (hlazy : b.inheritance = .lazy)
    (hhide : b.hidePaths = []) (q : RelPath) :
    m.view name q =
      shown .dir (overlay (deltaKind m.disk name) (Whiteout b) (m.flat parent.name)) q := by
  rw [← h.flat_lazy hlazy hhide]
  refine Manager.view_eq_shown h.branch (fun q hway r hr => h.dirs q ?_ r hr) q
  have hself := hway q List.prefix_rfl
  rw [h.flat_lazy hlazy hhide] at hself
  exact overlay_eq_some hself

/-- The tombstones of a session as whiteouts: none is at the root. -/
theorem Session.whiteouts (h : Session m name b parent) : Whiteout b = (· ∈ b.tombstones) := by
  funext t
  exact propext ⟨fun ht => ht.1, fun ht => ⟨ht, (h.committable.deletion t ht).ne_nil⟩⟩

/-! ## A parent that is another branch -/

section Nested

variable (h : Session m name b parent) (hmain : parent.name ≠ "main")
  (hc : Committed m name auto K) (hi : IntoParent m name b parent K m')

/-- What the parent inherits does not come back below a path where it is missing. -/
theorem Session.sealed (h : Session m name b parent) : ∀ t q, m.flatInherited parent t = none →
    t <+: q → m.flatInherited parent q = none :=
  fun _ _ => Manager.flatInherited_sealed h.record h.masks

/-- What the parent shows before the commit. -/
theorem Session.flat_parent (h : Session m name b parent) : m.flat parent.name =
    overlay (deltaKind m.disk parent.name) (Whiteout parent) (m.flatInherited parent) :=
  Manager.flat_eq_overlay h.record

include hc

/-- The emptied directories are pruned from the graft of the session. -/
theorem Committed.pruned : Pruned .dir (graft .dir (deltaKind m.disk parent.name) (· ∈ b.tombstones) K)
    (EmptiedDir m name b parent) := by
  have hpruned : Pruned .dir (grafted m b parent (deltaKind m.disk name))
      (EmptiedDir m name b parent) := Prunable.pruned
  have hshape := fun y => graft_shape (G := deltaKind m.disk parent.name)
    (T := (· ∈ b.tombstones)) hc.leaf y
  constructor
  · exact fun hx => (hshape _).1.mpr (hpruned.dir_of hx)
  · exact fun hx hxy hne hy => hpruned.below hx hxy hne fun hnone => hy ((hshape _).2.mpr hnone)

include h hi

/-- After the commit the parent is the pruned graft over what it inherits. -/
theorem Session.flat_parent_after : m'.flat parent.name =
    committedOverlay .dir K (deltaKind m.disk parent.name) (m.flatInherited parent)
      (· ∈ b.tombstones) (Whiteout parent) (EmptiedDir m name b parent) := by
  obtain ⟨ts, f, hfinal, hget, hts⟩ := hi.record
  have hinh : ∀ p, m'.flatInherited (committedParent parent ts) p = m.flatInherited parent p := by
    intro p
    refine Manager.flatInherited_congr m' h.record hget ⟨rfl, rfl, rfl, rfl⟩ (h.older hfinal) ?_
    intro r hr
    exact hi.same.kindAt ⟨layer_ne_files hr, h.layer_foreign hr⟩
  have hwhite : Whiteout (committedParent parent ts) =
      mergedWhiteouts .dir (m.flatInherited parent) K (· ∈ b.tombstones) (Whiteout parent) := by
    funext t
    have hne : t ∈ b.tombstones → t ≠ [] := fun ht => (h.committable.deletion t ht).ne_nil
    refine propext ?_
    show (t ∈ ts ∧ t ≠ []) ↔ _
    rw [hts, ← hc.leaf]
    unfold mergedWhiteouts Whiteout
    constructor
    · rintro ⟨⟨hor, hgone, hl⟩, hnil⟩
      exact ⟨hor.imp (fun ht => ⟨ht, hnil⟩) id, hgone, hl⟩
    · rintro ⟨hor, hgone, hl⟩
      refine ⟨⟨hor.imp And.left id, hgone, hl⟩, ?_⟩
      rcases hor with ht | ht
      · exact ht.2
      · exact hne ht.1
  rw [Manager.flat_eq_overlay hget, hwhite, hi.delta, funext hinh]
  rfl

/-- No layer of the parent has a link where the parent shows a directory. -/
theorem Session.noLink_parent_after : m'.NoLinkUnderFlat parent.name := by
  intro q hway r hr
  obtain ⟨ts, f, hfinal, _⟩ := hi.record
  rw [h.layers hfinal] at hr
  have hsame : m'.disk.kindAt ⟨some r, q⟩ = m.disk.kindAt ⟨some r, q⟩ := by
    exact hi.same.kindAt ⟨layer_ne_files hr, h.layer_foreign hr⟩
  have hafter := h.flat_parent_after hc hi
  have hbefore := dir_before_of_dirs_after hc.closed hc.pruned h.sealed
    (W := Whiteout parent) (x := q) fun y hy => by
      rw [← hway y hy, hafter]
      rfl
  have hdirs := h.dirs q ?_ r (Manager.layers_parent_subset h.branch h.up r hr)
  · unfold Disk.linkAt at hdirs ⊢
    rwa [hsame]
  · rw [← h.flat_parent] at hbefore
    exact (overlay_eq_some hbefore).imp (hc.dir q).mp id

/-- A walk through the parent after the commit. -/
theorem Session.view_parent_after (q : RelPath) : m'.view parent.name q =
    shown .dir (committedOverlay .dir K (deltaKind m.disk parent.name) (m.flatInherited parent)
      (· ∈ b.tombstones) (Whiteout parent) (EmptiedDir m name b parent)) q := by
  obtain ⟨ts, f, _, hget, _⟩ := hi.record
  rw [Manager.view_eq_shown hget (h.noLink_parent_after hc hi), h.flat_parent_after hc hi]

end Nested

/-- Without links among the entries there is none anywhere. -/
theorem linkAt_of_entries {d : Tree} (h : ∀ e ∈ d.entries, e.2.kind.isSymlink = false) (l : Place) :
    d.linkAt l = false := by
  unfold Disk.linkAt
  cases hk : d.kindAt l with
  | none => rfl
  | some k =>
    rcases Disk.entry_of_kindAt hk with ⟨_, rfl⟩ | ⟨e, he, _, rfl⟩
    · rfl
    · exact h e he

/-- A directory of nothing but files. -/
theorem file_of_entries {d : Tree} {R : Root}
    (h : ∀ e ∈ d.entries, e.1.root = some R → e.2.kind.isFile = true) (key : String) :
    d.kindAt ⟨some R, [key]⟩ = none ∨ d.fileAt ⟨some R, [key]⟩ = true := by
  cases hk : d.kindAt ⟨some R, [key]⟩ with
  | none => exact Or.inl rfl
  | some k =>
    right
    rcases Disk.entry_of_kindAt hk with ⟨hnil, _⟩ | ⟨e, he, hroot, rfl⟩
    · cases hnil
    · unfold Disk.fileAt
      rw [hk]
      exact h e he (by rw [hroot])

/-- Trees without links and side names, a session without tombstones at side names, only files in
its content directories, and hide rules that mask what is below: all of it can be checked. -/
def PlainSession (m : Manager) (name : String) (b parent : Branch) : Prop :=
  (m.forest.get? name = some b ∧ m.forest.isLeaf name = true ∧ b.parent = some parent.name ∧
    m.forest.get? parent.name = some parent ∧ (parent.parent = none → parent.hidePaths = [])) ∧
  (∀ e ∈ m.disk.entries, e.2.kind.isSymlink = false ∧ PlainPath e.1.path ∧
    (e.1.root = some (.touchContent name) ∨ e.1.root = some (.mergeContent name) →
      e.2.kind.isFile = true)) ∧
  (∀ t ∈ b.tombstones, PlainPath t ∧ t ≠ []) ∧
  ∀ c ∈ m.forest.list, ∀ e ∈ m.disk.entries, ∀ t ∈ e.1.path.inits,
    c.isHidden t = true → c.isHidden e.1.path = true

instance (m : Manager) (name : String) (b parent : Branch) :
    Decidable (PlainSession m name b parent) :=
  inferInstanceAs (Decidable ((_ ∧ _ ∧ _ ∧ _ ∧ (_ → _)) ∧ (∀ e ∈ _, _) ∧ (∀ t ∈ _, _) ∧ ∀ c ∈ _, _))

/-- Over such trees a session is ready to be committed. -/
theorem PlainSession.session (h : PlainSession m name b parent) : Session m name b parent := by
  obtain ⟨⟨hb, hleaf, hup, hrecord, hmain⟩, hentries, hdelete, hmask⟩ := h
  have hplain : ∀ e ∈ m.disk.entries, PlainPath e.1.path := fun e he => (hentries e he).2.1
  have hnoLink : ∀ l, m.disk.linkAt l = false :=
    linkAt_of_entries fun e he => (hentries e he).1
  have hside : ∀ l : Place, ¬ PlainPath l.path → m.disk.kindAt l = none := by
    intro l hl
    by_contra hne
    obtain ⟨k, hk⟩ := Option.ne_none_iff_exists'.mp hne
    rcases Disk.entry_of_kindAt hk with ⟨hnil, _⟩ | ⟨e, he, rfl, _⟩
    · exact hl (by rw [hnil]; simp [PlainPath])
    · exact hl (hplain e he)
  have hfiles : ∀ R : Root, R = .touchContent name ∨ R = .mergeContent name → ∀ key,
      m.disk.kindAt ⟨some R, [key]⟩ = none ∨ m.disk.fileAt ⟨some R, [key]⟩ = true := by
    intro R hR
    refine file_of_entries fun e he hroot => (hentries e he).2.2 ?_
    rw [hroot]
    exact hR.imp (congrArg some) (congrArg some)
  have hnone : ∀ l : Place, m.disk.NoLinkAbove l :=
    fun l => Disk.noLinkAbove_of fun x _ _ => hnoLink x
  refine ⟨hb, hleaf, hup, hrecord, ⟨?_, ?_, ?_, ?_, ⟨?_, ?_⟩, ?_⟩, ?_, ?_, ?_, ?_⟩
  · exact fun t ht => ⟨(hdelete t ht).1, (hdelete t ht).2⟩
  · intro f hf
    by_contra hno
    exact hf.ne_none (hside _ hno)
  · exact fun f _ => hside _ (not_plain_of_side (Or.inl rfl) List.prefix_rfl)
  · exact fun p _ r _ => hnone _
  · exact hfiles _ (Or.inl rfl)
  · exact hfiles _ (Or.inr rfl)
  · intro t _ f _ _ l hk
    have hno := hnoLink (deltaPath name f)
    unfold Disk.linkAt at hno
    unfold deltaKind at hk
    rw [hk] at hno
    cases hno
  · exact fun r _ x hx => hside _ hx
  · exact fun q _ r _ => hnoLink _
  · exact fun c hc e he t ht => hmask c hc e he t ((List.mem_inits t _).mpr ht)
  · exact hmain

end

end BranchFs
