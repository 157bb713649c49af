/-
# BranchFs.Merge.Scope -- what a commit touches

A commit should leave every file and link of its destination alone that its session has neither
deleted nor written over, and bring every file of the session to its own name, whatever names there
are on both sides. It does so exactly when its side names are apart from all of them.
-/
import BranchFs.Merge.Aside

namespace BranchFs

open BranchFs.Posix BranchFs.Logic

/-- A path of the session: a tombstone or a file of the delta. -/
def SessionAt (m : Manager) (name : String) (b : Branch) (p : RelPath) : Prop :=
  p ∈ b.tombstones ∨ Leaf .dir (deltaKind m.disk name) p

/-- The ways of a session lead over directories: no link in any layer and no side name of the session
is on the way to one of its paths. -/
structure OpenWays (m : Manager) (name : String) (b : Branch) (R : Root) : Prop where
  deletion : ∀ t ∈ b.tombstones, t ≠ []
  sides : ∀ tag, tag = "tmp" ∨ tag = "trash" → ∀ p q, SessionAt m name b p → SessionAt m name b q →
    sidePath tag p <+: q → sidePath tag p = q
  temporary : ∀ f, Leaf .dir (deltaKind m.disk name) f →
    m.disk.linkAt (inTree R (sidePath "tmp" f)) = false
  straight : ∀ p, SessionAt m name b p → Straight m name p
  store : PlainStore m.disk name
  linkOver : ∀ t ∈ b.tombstones, ∀ f, Leaf .dir (deltaKind m.disk name) f → f <+: t → f ≠ t →
    (∀ l, deltaKind m.disk name f ≠ some (.symlink l)) ∧
      ¬ Leaf .dir (deltaKind m.disk name) (sidePath "tmp" f)

/-- What a commit should leave of the destination and bring to it: the files of the session as they
are, or a merged text. -/
structure TouchesOnlySession (m m' : Manager) (name : String) (b : Branch) (R : Root)
    (merged : List RelPath) : Prop where
  kept : ∀ q k, treeKind R m.disk q = some k → k ≠ .dir →
    Untouched .dir (deltaKind m.disk name) (· ∈ b.tombstones) q → treeKind R m'.disk q = some k
  arrived : ∀ f, Leaf .dir (deltaKind m.disk name) f →
    treeKind R m'.disk f = deltaKind m.disk name f ∨
      f ∈ merged ∧ ∃ bytes, treeKind R m'.disk f = some (.file bytes)

/-- The side names a commit uses are apart: no file or link that the session leaves alone stands at or
below one, no file of the session has the trash name of an entry that is moved away, and none is
copied before another whose temporary name it has. -/
structure SidesApart (m : Manager) (name : String) (b : Branch) (R : Root) (order : HashOrder) :
    Prop where
  others : ∀ q, Leaf .dir (treeKind R m.disk) q →
    Untouched .dir (deltaKind m.disk name) (· ∈ b.tombstones) q →
    ∀ s, SideInUse .dir (sidePath "tmp") (sidePath "trash") (treeKind R m.disk)
      (order.iter b.tombstones) (deltaFiles m name) s → ¬ s <+: q
  trash : ∀ t, BinInUse .dir (sidePath "trash") (treeKind R m.disk) (order.iter b.tombstones)
    (deltaFiles m name) t → ¬ Leaf .dir (deltaKind m.disk name) (sidePath "trash" t)
  temporary : InOrder (sidePath "tmp") (deltaFiles m name)

section

variable {m m₁ m' : Manager} {name : String} {b parent : Branch} {R : Root} {r : Report}
variable {order : HashOrder} {o : CommitOutcome}

/-- What a file of the session is committed as. -/
noncomputable def commitEntry (d : Tree) (name : String) (r : Report) (f : RelPath) : Entry :=
  (committedKind d name r f).getD .dir

theorem committedKind_eq_some (h : Detected name m r m₁) {f : RelPath}
    (hf : Leaf .dir (deltaKind m.disk name) f) :
    committedKind m₁.disk name r f = some (commitEntry m₁.disk name r f) := by
  obtain ⟨k, hk, _⟩ := (committedKind_leaf h).mpr hf
  rw [commitEntry, hk]
  rfl

theorem OpenWays.linkFree (h : OpenWays m name b R) (hlayer : R ∈ m.layers name) :
    LinkFree (Above (SessionAt m name b)) (treeKind R m.disk) := by
  rintro a ⟨p, hp, ha, hne⟩ l hl
  have hno := Disk.NoLinkAbove.not_link (h.straight p hp R hlayer)
    (inTree_le.mpr ha) (inTree_ne.mpr hne)
  unfold treeKind at hl
  simp [Disk.linkAt, hl, Kind.isSymlink] at hno

/-- The merge of a session with open ways is passable. -/
theorem OpenWays.passable (h : OpenWays m name b R) (hR : Foreign name R)
    (hlayer : R ∈ m.layers name) (hdet : Detected name m r m₁) (order : HashOrder) :
    Passable R m₁.disk (order.iter b.tombstones) (walkFiles m.disk name) r.sourceOf
      (commitEntry m₁.disk name r) := by
  have hts : ∀ t, t ∈ order.iter b.tombstones ↔ t ∈ b.tombstones := fun t => (order.perm _).mem_iff
  have hfs : ∀ f, f ∈ (walkFiles m.disk name).map Prod.fst ↔ Leaf .dir (deltaKind m.disk name) f :=
    fun f => mem_walkFiles_fst
  have hat : ∀ p, (p ∈ order.iter b.tombstones ∨ p ∈ (walkFiles m.disk name).map Prod.fst) ↔
      SessionAt m name b p := fun p => or_congr (hts p) (hfs p)
  have htree : treeKind R m₁.disk = treeKind R m.disk := funext fun x => hdet.dest hR x
  have hleafEntry : ∀ f, Leaf .dir (deltaKind m.disk name) f →
      commitEntry m₁.disk name r f ≠ .dir := by
    intro f hf heq
    obtain ⟨k, hk, hkd⟩ := (committedKind_leaf hdet).mpr hf
    rw [committedKind_eq_some hdet hf] at hk
    exact hkd (Option.some.inj hk ▸ heq)
  have hanti := walkFiles_antichain m.disk name
  refine ⟨fun t ht => h.deletion t ((hts t).mp ht), ⟨?_, hanti.nodup, hanti.eq, ?_, ?_, ?_⟩, ?_, ?_, ?_,
    ?_, ?_⟩
  · intro f hf hnil
    rw [hnil] at hf
    exact ((hfs _).mp hf).ne_dir (deltaKind_closed m.disk name).root
  · exact fun f hf => hleafEntry f ((hfs f).mp hf)
  · exact fun f hf g hg => h.sides "tmp" (Or.inl rfl) f g (Or.inr ((hfs f).mp hf))
      (Or.inr ((hfs g).mp hg))
  · exact fun t ht g hg => h.sides "trash" (Or.inr rfl) t g ((hat t).mp ht) (Or.inr ((hfs g).mp hg))
  · exact fun tag htag p hp t ht => h.sides tag htag p t ((hat p).mp hp) (Or.inl ((hts t).mp ht))
  · rintro ⟨f, src⟩ hf
    obtain ⟨hsrc, hl⟩ := mem_walkFiles.mp hf
    refine ⟨?_, ?_, hleafEntry f hl⟩
    · rcases hdet.sourceOf (f, src) with hs | ⟨hs, _⟩
      · exact ⟨.files name, by rw [hs, hsrc]; rfl, fun heq => hR.ne.1 heq.symm⟩
      · exact ⟨.mergeContent name, by rw [hs]; rfl, fun heq => hR.ne.2 heq.symm⟩
    · have hk := committedKind_eq_some hdet hl
      obtain ⟨k', hk', hkd'⟩ := hl
      have hk'' : BranchFs.deltaKind m.disk name f = some k' := hk'
      unfold committedKind at hk
      rw [hdet.deltaKind, hk''] at hk
      subst hsrc
      cases k' with
      | dir => exact absurd rfl hkd'
      | file _ => exact hk
      | symlink _ => exact hk
  · rw [htree]
    rintro a ⟨p, hp, ha⟩
    exact h.linkFree hlayer a ⟨p, (hat p).mp hp, ha⟩
  · rw [htree]
    rintro a ⟨f, hf, rfl⟩ l hl
    have hno := h.temporary f ((hfs f).mp hf)
    unfold treeKind at hl
    simp [Disk.linkAt, hl, Kind.isSymlink] at hno
  · intro t ht f hf hle hne
    obtain ⟨hnolink, hnot⟩ := h.linkOver t ((hts t).mp ht) f ((hfs f).mp hf) hle hne
    refine ⟨fun l hl => ?_, fun hmem => hnot ((hfs _).mp hmem)⟩
    have hk := committedKind_eq_some hdet ((hfs f).mp hf)
    rw [hl] at hk
    rcases committedKind_cases hdet ((hfs f).mp hf) with heq | ⟨_, bytes, hfile⟩
    · exact hnolink l (heq ▸ hk)
    · rw [hfile] at hk
      cases hk

/-! ## The commit -/

/-- The destination after a commit is the tree the merge leaves, without some empty directories. -/
structure CommittedAside (m m' : Manager) (name : String) (b : Branch) (R : Root) (order : HashOrder)
    (merged : List RelPath) (k : RelPath → Entry) : Prop where
  change : ChangeSet .dir (sidePath "tmp") (sidePath "trash") k (order.iter b.tombstones)
    (deltaFiles m name)
  fits : AllFit .dir (sidePath "tmp") (sidePath "trash") k
    (afterBins (sidePath "trash") (treeKind R m.disk) (order.iter b.tombstones)) (deltaFiles m name)
  leaf : ∀ q e, e ≠ .dir → (treeKind R m'.disk q = some e ↔
    changedAside .dir (sidePath "tmp") (sidePath "trash") k (treeKind R m.disk)
      (order.iter b.tombstones) (deltaFiles m name) q = some e)
  entry : ∀ f, Leaf .dir (deltaKind m.disk name) f →
    some (k f) = deltaKind m.disk name f ∨ f ∈ merged ∧ ∃ bytes, k f = .file bytes

theorem onDisk_eq_ok {α : Type} {x : Io α} {a : α} (h : onDisk x m = .ok a m') :
    ∃ d, x m.disk = .ok a d ∧ m' = { m with disk := d } := by
  unfold onDisk at h
  cases hx : x m.disk with
  | ok a' d =>
    rw [hx] at h
    cases h
    exact ⟨d, rfl, rfl⟩
  | error e d =>
    rw [hx] at h
    cases h

/-- The removal of a branch leaves the trees of the others. -/
theorem removeBranch_kindAt {x : Place} (h : removeBranch name m = .ok () m')
    (hx : ofBranch name x.root = false) : m'.disk.kindAt x = m.disk.kindAt x := by
  unfold removeBranch at h
  split at h
  · cases h
    show (m.disk.purge (ofBranch name)).kindAt x = _
    unfold Disk.kindAt
    rw [Disk.get_purge, if_neg fun hp => by rw [hx] at hp; exact Bool.false_ne_true hp.2]
  · cases h

/-- A file of the session is committed as it is, or as a merged text. -/
theorem committedKind_entry (h : Detected name m r m₁) {f : RelPath}
    (hf : Leaf .dir (deltaKind m.disk name) f) :
    some (commitEntry m₁.disk name r f) = deltaKind m.disk name f ∨
      f ∈ r.autoMerges.map CommitAutoMerge.path ∧
        ∃ bytes, commitEntry m₁.disk name r f = .file bytes := by
  have hk := committedKind_eq_some h hf
  rcases committedKind_cases h hf with heq | ⟨hauto, bytes, hfile⟩
  · exact Or.inl (by rw [← hk, heq])
  · rw [hfile] at hk
    exact Or.inr ⟨hauto, bytes, (Option.some.inj hk).symm⟩

/-- The tree a merge leaves, as a tree of the commit. -/
theorem committedAside_of {d₂ : Tree} (hR : Foreign name R) (hdet : Detected name m r m₁)
    (hpass : Passable R m₁.disk (order.iter b.tombstones) (walkFiles m.disk name) r.sourceOf
      (commitEntry m₁.disk name r))
    (hfits : AllFit .dir (sidePath "tmp") (sidePath "trash") (commitEntry m₁.disk name r)
      (afterBins (sidePath "trash") (treeKind R m₁.disk) (order.iter b.tombstones))
        ((walkFiles m.disk name).map Prod.fst))
    (hkind : treeKind R d₂ = changedAside .dir (sidePath "tmp") (sidePath "trash")
      (commitEntry m₁.disk name r) (treeKind R m₁.disk) (order.iter b.tombstones)
        ((walkFiles m.disk name).map Prod.fst))
    (hafter : ∀ q e, e ≠ .dir → (treeKind R m'.disk q = some e ↔ treeKind R d₂ q = some e)) :
    CommittedAside m m' name b R order (r.autoMerges.map CommitAutoMerge.path)
      (commitEntry m₁.disk name r) := by
  have htree : treeKind R m₁.disk = treeKind R m.disk := funext fun x => hdet.dest hR x
  rw [htree] at hfits hkind
  refine ⟨hpass.change, hfits, fun q e he => ?_, fun f hf => committedKind_entry hdet hf⟩
  rw [hafter q e he, hkind]
  rfl

/-- **A commit into the base directory**, once it has gone through. -/
theorem commitBase_aside {main : Branch} (hb : m.forest.get? name = some b)
    (hp : b.parent = some "main") (hmain : m.forest.get? "main" = some main)
    (h : OpenWays m name b .base) (hok : commitWithReport order name m = .ok o m') :
    ∃ k, CommittedAside m m' name b .base order (o.autoMerges.map CommitAutoMerge.path) k := by
  have hmainName : main.name = "main" := Forest.name_of_get? hmain
  obtain ⟨hne, hleaf⟩ : name ≠ "main" ∧ m.forest.isLeaf name = true := by
    unfold commitWithReport at hok
    obtain ⟨⟨b', q'⟩, _, hfin, _⟩ := bind_eq_ok hok
    obtain ⟨_, hne, _, hleaf, _⟩ := finalizable_eq_ok hfin
    exact ⟨hne, hleaf⟩
  rcases commit_reported hb hleaf hne hp hmain h.store (fun p hf => h.straight p (Or.inr hf))
    order with ⟨-, r, m₁, hdet, hcommit⟩ | ⟨-, m'', hcommit⟩
  swap
  · rw [hok] at hcommit
    cases hcommit
  have hforeign : Foreign name .base := Or.inl rfl
  have hpass := h.passable hforeign (m.base_mem_layers name) hdet order
  rw [hok] at hcommit
  obtain ⟨_, m₂, happly, hout⟩ := bind_eq_ok hcommit.symm
  cases hout
  unfold applyCommit at happly
  rw [if_pos hmainName, commitIntoBase] at happly
  obtain ⟨⟨_, merged⟩, m₃, hrun, hrest⟩ := bind_eq_ok happly
  obtain ⟨d₂, hstaged, rfl⟩ := onDisk_eq_ok hrun
  obtain ⟨s₁, hdel, -⟩ := stageDeletes_kinds (R := .base) (s := Staging.start m₁.disk)
    (P := fun p => p ∈ order.iter b.tombstones ∨ p ∈ (walkFiles m.disk name).map Prod.fst)
    (fun t ht => ⟨hpass.deletion t ht, Or.inl ht⟩) (fun t ht p hp hle => by
      rcases hp with hp | hp
      · exact hpass.sides "trash" (Or.inr rfl) t (Or.inl ht) p hp hle
      · exact hpass.change.trash_below t (Or.inl ht) p hp hle) hpass.straight
  have hbody : stageIntoBase r (order.iter b.tombstones) (walkFiles m.disk name)
      (Staging.start m₁.disk) = (((walkFiles m.disk name).forM fun f =>
        stageCopy (inTree .base) f.1 (r.sourceOf f)) >>= fun _ => pure ()) s₁ := by
    have hdel' : (order.iter b.tombstones).forM (fun p => stageDelete (basePath p))
        (Staging.start m₁.disk) = .ok () s₁ := hdel
    unfold stageIntoBase
    rw [bind_ok hdel']
    exact (congrFun (bind_pure (stageCopies basePath r (walkFiles m.disk name))) s₁).symm
  obtain ⟨hfits, hkind, -, hsame, -, rfl⟩ := runStaged_kinds hpass hdel hbody hstaged
  refine ⟨_, committedAside_of hforeign hdet hpass hfits hkind fun q e he => ?_⟩
  -- what follows does not reach the base directory
  obtain ⟨_, m₄, hdrop, hrest⟩ := bind_eq_ok hrest
  obtain ⟨_, m₅, hcount, hrest⟩ := bind_eq_ok hrest
  obtain ⟨_, m₆, hremove, hbump⟩ := bind_eq_ok hrest
  cases hcount
  cases hbump
  have hpaths : ∀ p ∈ (walkFiles m.disk name).map Prod.fst ++ order.iter b.tombstones,
      p ≠ [] ∧ SessionAt m name b p := by
    intro p hp'
    rcases List.mem_append.mp hp' with hf | ht
    · exact ⟨hpass.change.ne_nil p hf, Or.inr (mem_walkFiles_fst.mp hf)⟩
    · exact ⟨hpass.deletion p ht, Or.inl ((order.perm _).mem_iff.mp ht)⟩
  have hlink : ∀ p ∈ (walkFiles m.disk name).map Prod.fst ++ order.iter b.tombstones,
      d₂.NoLinkAbove (deltaPath "main" p) := by
    intro p hp'
    refine (h.straight p (hpaths p hp').2 _ (Manager.parent_files_mem_layers hb hp)).of_le
      fun x hx _ hl => ?_
    obtain ⟨a, _, rfl⟩ := le_deltaPath.mp hx
    have hk : d₂.kindAt (deltaPath "main" a) = m.disk.kindAt (deltaPath "main" a) := by
      rw [hsame.kindAt (by simp [deltaPath])]
      exact hdet.deltaKind "main" a
    unfold Disk.linkAt at hl ⊢
    rwa [hk] at hl
  obtain ⟨d₃, hdrop', -, hsame₃⟩ := dropMainDelta_ok (m := { m₁ with disk := d₂ })
    (fun p hp' => (hpaths p hp').1) hlink
  rw [show dropMainDelta _ _ = _ from hdrop'] at hdrop
  cases hdrop
  have hfinal : treeKind .base m₆.disk q = treeKind .base d₂ q := by
    show m₆.disk.kindAt (basePath q) = d₂.kindAt (basePath q)
    rw [removeBranch_kindAt hremove rfl]
    exact hsame₃.kindAt (by simp [basePath])
  exact iff_of_eq (congrArg (· = some e) hfinal)

/-- The deletions of a nested commit stage what the deletions themselves do, and leave directories to
look at above the places of deletions only. -/
theorem stageParentDeletes_run {p : Branch} {ts : List RelPath} {w : NestedWork} {s s' : Staging}
    (h : ts.forM (fun t => stageDelete (deltaPath p.name t)) s = .ok () s') :
    ∃ w', stageParentDeletes m p ts w s = .ok w' s' ∧
      ∀ q ∈ w'.emptied, q ∈ w.emptied ∨ ∃ t ∈ ts, q = t.dropLast := by
  induction ts generalizing w s with
  | nil =>
    cases h
    exact ⟨w, rfl, fun q hq => Or.inl hq⟩
  | cons t ts ih =>
    obtain ⟨_, s₁, hrun, hrest⟩ := bind_eq_ok (show (stageDelete (deltaPath p.name t) >>= fun _ =>
      ts.forM fun t => stageDelete (deltaPath p.name t)) s = .ok () s' from h)
    obtain ⟨w₁, hstep, hnext⟩ : ∃ w₁, stageParentDelete m p t w s = .ok w₁ s₁ ∧ w₁.emptied =
        if s.disk.lexists (deltaPath p.name t) = true then w.emptied ++ [t.dropLast]
        else w.emptied := by
      rw [stageParentDelete, readStage_bind, readStage_bind, bind_ok hrun]
      exact ⟨_, rfl, rfl⟩
    have hemptied : ∀ q ∈ w₁.emptied, q ∈ w.emptied ∨ q = t.dropLast := by
      intro q hq
      rw [hnext] at hq
      split at hq
      · simpa using hq
      · exact Or.inl hq
    obtain ⟨w₂, hrun₂, hemptied₂⟩ := ih (w := w₁) hrest
    refine ⟨w₂, by rw [stageParentDeletes, bind_ok hstep, hrun₂], fun q hq => ?_⟩
    rcases hemptied₂ q hq with hq | ⟨u, hu, rfl⟩
    · exact (hemptied q hq).imp_right fun heq => ⟨t, List.mem_cons_self .., heq⟩
    · exact Or.inr ⟨u, List.mem_cons_of_mem _ hu, rfl⟩

/-- **A commit into the parent's delta**, once it has gone through. -/
theorem commitNested_aside (hb : m.forest.get? name = some b) (hp : b.parent = some parent.name)
    (hmain : parent.name ≠ "main") (hparent : m.forest.get? parent.name = some parent)
    (h : OpenWays m name b (.files parent.name)) (hok : commitWithReport order name m = .ok o m') :
    ∃ k, CommittedAside m m' name b (.files parent.name) order
      (o.autoMerges.map CommitAutoMerge.path) k := by
  obtain ⟨hne, hleaf⟩ : name ≠ "main" ∧ m.forest.isLeaf name = true := by
    unfold commitWithReport at hok
    obtain ⟨⟨b', q'⟩, _, hfin, _⟩ := bind_eq_ok hok
    obtain ⟨_, hne, _, hleaf, _⟩ := finalizable_eq_ok hfin
    exact ⟨hne, hleaf⟩
  have hpn : parent.name ≠ name := by
    intro heq
    exact Forest.parent_ne_self hb (by rw [hp, heq])
  rcases commit_reported hb hleaf hne hp hparent h.store (fun p hf => h.straight p (Or.inr hf))
    order with ⟨-, r, m₁, hdet, hcommit⟩ | ⟨-, m'', hcommit⟩
  swap
  · rw [hok] at hcommit
    cases hcommit
  have hforeign : Foreign name (.files parent.name) := Or.inr ⟨_, hpn, rfl⟩
  have hpass := h.passable hforeign (Manager.parent_files_mem_layers hb hp) hdet order
  have hparent₁ : m₁.forest.get? parent.name = some parent := by
    rw [show m₁.forest = m.forest by rw [hdet.rest]]
    exact hparent
  rw [hok] at hcommit
  obtain ⟨_, m₂, happly, hout⟩ := bind_eq_ok hcommit.symm
  cases hout
  unfold applyCommit at happly
  rw [if_neg hmain, commitIntoParent, bind_ok (rfl : (get : Mgr Manager) m₁ = .ok m₁ m₁)] at happly
  obtain ⟨⟨w, merged⟩, m₃, hrun, hrest⟩ := bind_eq_ok happly
  obtain ⟨d₂, hstaged, rfl⟩ := onDisk_eq_ok hrun
  let P : RelPath → Prop := fun p =>
    p ∈ order.iter b.tombstones ∨ p ∈ (walkFiles m.disk name).map Prod.fst
  obtain ⟨s₁, hdel, -⟩ := stageDeletes_kinds (R := .files parent.name)
    (s := Staging.start m₁.disk) (P := P)
    (fun t ht => ⟨hpass.deletion t ht, Or.inl ht⟩) (fun t ht p hp hle => by
      rcases hp with hp | hp
      · exact hpass.sides "trash" (Or.inr rfl) t (Or.inl ht) p hp hle
      · exact hpass.change.trash_below t (Or.inl ht) p hp hle) hpass.straight
  obtain ⟨w₁, hdels, hemptied⟩ := stageParentDeletes_run (m := m₁) (p := parent)
    (w := ⟨parent.tombstones, []⟩) hdel
  have hbody : stageIntoParent m₁ parent r (order.iter b.tombstones) (walkFiles m.disk name)
      (Staging.start m₁.disk) = (((walkFiles m.disk name).forM fun f =>
        stageCopy (inTree (.files parent.name)) f.1 (r.sourceOf f)) >>= fun _ => pure w₁) s₁ := by
    unfold stageIntoParent
    rw [bind_ok hdels]
    rfl
  obtain ⟨hfits, hkind, hfree, hsame, rfl, rfl⟩ := runStaged_kinds hpass hdel hbody hstaged
  refine ⟨_, committedAside_of hforeign hdet hpass hfits hkind fun q e he => ?_⟩
  -- only empty directories of the parent's delta go after the merge
  dsimp only at hrest
  obtain ⟨_, m₄, hprune, hrest⟩ := bind_eq_ok hrest
  obtain ⟨_, m₅, hmodify, hrest⟩ := bind_eq_ok hrest
  obtain ⟨_, m₆, hcount, hrest⟩ := bind_eq_ok hrest
  obtain ⟨_, m₇, hremove, hbump⟩ := bind_eq_ok hrest
  cases hmodify
  cases hcount
  cases hbump
  have hlinks : ∀ q ∈ w.emptied, d₂.NoLinkAbove (deltaPath parent.name q) := by
    intro q hq
    rcases hemptied q hq with hq | ⟨t, ht, rfl⟩
    · cases hq
    · exact (hfree.noLinkAbove (Or.inl ht)).mono (inTree_le.mpr (List.dropLast_prefix t))
  obtain ⟨d₃, hprune', hdelta₃, -⟩ := pruneAll_ok (m := { m₁ with disk := d₂ }) hparent₁ hlinks
  rw [hprune'] at hprune
  cases hprune
  have howner : ofBranch name (some (.files parent.name)) = false := by
    simp only [ofBranch, Option.bind_some, Root.owner, beq_eq_false_iff_ne, ne_eq]
    exact fun heq => hpn (Option.some.inj heq)
  have hfinal : treeKind (.files parent.name) m₇.disk q = deltaKind d₃ parent.name q :=
    removeBranch_kindAt hremove howner
  show treeKind (.files parent.name) m₇.disk q = some e ↔ deltaKind d₂ parent.name q = some e
  rw [hfinal, hdelta₃]
  show prune (deltaKind d₂ parent.name) _ q = some e ↔ _
  by_cases hx : Prunable .dir (deltaKind d₂ parent.name)
      (fun z => (parent.getTouchRecord z).isSome = true) w.emptied q
  · have hdir : deltaKind d₂ parent.name q = some .dir := (hx.2.2 q List.prefix_rfl hx.2.1).1
    rw [prune_of hx, hdir]
    constructor
    · intro h
      cases h
    · intro h
      exact absurd (Option.some.inj h).symm he
  · rw [prune_of_not hx]

/-- **What a commit touches.** A commit that goes through touches only what its session touched, and
brings all of it, exactly when its side names are apart. -/
theorem touches_only_iff (hb : m.forest.get? name = some b) (hp : b.parent = some parent.name)
    (hparent : m.forest.get? parent.name = some parent)
    (h : OpenWays m name b (destination parent.name))
    (hok : commitWithReport order name m = .ok o m') :
    TouchesOnlySession m m' name b (destination parent.name)
        (o.autoMerges.map CommitAutoMerge.path) ↔
      SidesApart m name b (destination parent.name) order := by
  obtain ⟨k, hc⟩ : ∃ k, CommittedAside m m' name b (destination parent.name) order
      (o.autoMerges.map CommitAutoMerge.path) k := by
    by_cases hmain : parent.name = "main"
    · have hdest : destination parent.name = .base := by rw [destination, if_pos hmain]
      rw [hdest] at h ⊢
      rw [hmain] at hp hparent
      exact commitBase_aside hb hp hparent h hok
    · have hdest : destination parent.name = .files parent.name := by rw [destination, if_neg hmain]
      rw [hdest] at h ⊢
      exact commitNested_aside hb hp hmain hparent h hok
  have hfs : ∀ f, f ∈ deltaFiles m name ↔ Leaf .dir (deltaKind m.disk name) f :=
    fun f => mem_deltaFiles
  have hts : ∀ t, t ∈ order.iter b.tombstones ↔ t ∈ b.tombstones := fun t => (order.perm _).mem_iff
  have hun : ∀ q, Unchanged (order.iter b.tombstones) (deltaFiles m name) q ↔
      Untouched .dir (deltaKind m.disk name) (· ∈ b.tombstones) q := by
    intro q
    constructor
    · rintro ⟨h1, h2⟩
      exact ⟨fun ⟨t, ht, hle⟩ => h1 t ((hts t).mpr ht) hle,
        fun ⟨f, hf, hle⟩ => h2 f ((hfs f).mpr hf) hle⟩
    · rintro ⟨h1, h2⟩
      exact ⟨fun t ht hle => h1 ⟨t, (hts t).mp ht, hle⟩,
        fun f hf hle => h2 ⟨f, (hfs f).mp hf, hle⟩⟩
  constructor
  · intro htouch
    have hkept : ∀ x, Leaf .dir (treeKind (destination parent.name) m.disk) x →
        Unchanged (order.iter b.tombstones) (deltaFiles m name) x →
        changedAside .dir (sidePath "tmp") (sidePath "trash") k
          (treeKind (destination parent.name) m.disk) (order.iter b.tombstones)
            (deltaFiles m name) x ≠ none := by
      rintro x ⟨e, he, hed⟩ hxu
      rw [(hc.leaf x e hed).mp (htouch.kept x e he hed ((hun x).mp hxu))]
      exact Option.some_ne_none e
    have harrived : ∀ f ∈ deltaFiles m name,
        changedAside .dir (sidePath "tmp") (sidePath "trash") k
          (treeKind (destination parent.name) m.disk) (order.iter b.tombstones)
            (deltaFiles m name) f ≠ none := by
      intro f hf
      have hl := (hfs f).mp hf
      obtain ⟨e, hed, he⟩ : ∃ e, e ≠ .dir ∧
          treeKind (destination parent.name) m'.disk f = some e := by
        rcases htouch.arrived f hl with heq | ⟨_, bytes, hfile⟩
        · obtain ⟨e, he, hed⟩ := hl
          exact ⟨e, hed, heq.trans he⟩
        · exact ⟨_, by simp, hfile⟩
      rw [(hc.leaf f e hed).mp he]
      exact Option.some_ne_none e
    obtain ⟨hothers, htrash, hord⟩ := sides_apart_of_kept hc.change hc.fits hkept harrived
    exact ⟨fun q hq hqu => hothers q hq ((hun q).mpr hqu),
      fun t ht hf => htrash t ht ((hfs _).mpr hf), hord⟩
  · intro hapart
    obtain ⟨hkept, harrived⟩ := kept_of_sides_apart sideNames hc.change hc.fits
      (fun x hx hxu => hapart.others x hx ((hun x).mp hxu))
      (fun t ht hmem => hapart.trash t ht ((hfs _).mp hmem)) hapart.temporary
    refine ⟨fun q e hq he hqu => (hc.leaf q e he).mpr (hkept q e hq he ((hun q).mpr hqu)), ?_⟩
    intro f hf
    have hleaf := hc.change.leaf f ((hfs f).mpr hf)
    have harr := (hc.leaf f (k f) hleaf).mpr (harrived f ((hfs f).mpr hf))
    rcases hc.entry f hf with heq | ⟨hmem, bytes, hfile⟩
    · exact Or.inl (harr.trans heq)
    · exact Or.inr ⟨hmem, bytes, by rw [harr, hfile]⟩

end

/-- Trees without links, only files in the content directories of the branch, no side name of the
session on the way to a path of it and no file of it above a tombstone: all of it can be checked. -/
def LinklessSession (m : Manager) (name : String) (b : Branch) : Prop :=
  (∀ e ∈ m.disk.entries, e.2.kind.isSymlink = false ∧
    (e.1.root = some (.touchContent name) ∨ e.1.root = some (.mergeContent name) →
      e.2.kind.isFile = true)) ∧
  (∀ t ∈ b.tombstones, t ≠ []) ∧
  (∀ tag ∈ ["tmp", "trash"], ∀ p ∈ b.tombstones ++ deltaFiles m name,
    ∀ q ∈ b.tombstones ++ deltaFiles m name, sidePath tag p <+: q → sidePath tag p = q) ∧
  ∀ t ∈ b.tombstones, ∀ f ∈ deltaFiles m name, f <+: t → f = t

instance (m : Manager) (name : String) (b : Branch) : Decidable (LinklessSession m name b) :=
  inferInstanceAs (Decidable ((∀ e ∈ _, _) ∧ (∀ t ∈ _, _) ∧ (∀ tag ∈ _, ∀ p ∈ _, ∀ q ∈ _, _) ∧
    ∀ t ∈ _, ∀ f ∈ _, _))

theorem LinklessSession.openWays {m : Manager} {name : String} {b : Branch}
    (h : LinklessSession m name b) (R : Root) : OpenWays m name b R := by
  obtain ⟨hentries, hdelete, hsides, hover⟩ := h
  have hnoLink := linkAt_of_entries fun e he => (hentries e he).1
  have hat : ∀ p, SessionAt m name b p → p ∈ b.tombstones ++ deltaFiles m name := by
    rintro p (ht | hf)
    · exact List.mem_append_left _ ht
    · exact List.mem_append_right _ (mem_deltaFiles.mpr hf)
  refine ⟨hdelete, ?_, fun f _ => hnoLink _, ?_, ⟨?_, ?_⟩, ?_⟩
  · rintro tag htag p q hp hq
    exact hsides tag (by simpa using htag) p (hat p hp) q (hat q hq)
  · exact fun p _ r _ => Disk.noLinkAbove_of fun x _ _ => hnoLink x
  · exact file_of_entries fun e he hroot => (hentries e he).2 (Or.inl hroot)
  · exact file_of_entries fun e he hroot => (hentries e he).2 (Or.inr hroot)
  · intro t ht f hf hle hne
    exact absurd (hover t ht f (mem_deltaFiles.mpr hf) hle) hne

/-! ## A file with a side name -/

/-- Every commit that goes through touches only what its session touched, and brings all of it. -/
def CommitsTouchOnlySession : Prop :=
  ∀ (store : FreshStore) ops name b parent order o m', let m := run step (Manager.init store) ops
    m.forest.get? name = some b → m.forest.isLeaf name = true → b.parent = some parent →
      commitWithReport order name m = .ok o m' →
        TouchesOnlySession m m' name b (destination parent) (o.autoMerges.map CommitAutoMerge.path)

/-- A base directory with a file under a temporary name, and a branch that makes the file whose
temporary name it is. -/
def sideNameOps : List Op :=
  [.host (.write [".branchfs-tmp.f"] [120]), .create "b" "main" .lazy [],
    .file "b" (.create [] "f" 0o644)]

def besideSideName : Manager := run step (Manager.init .bare) sideNameOps

/-- The commit of `f` takes the file with its temporary name. -/
theorem besideSideName_run :
    LinklessSession besideSideName "b" (besideSideName.recordOf "b") ∧
    (besideSideName.forest.get? "b" = some (besideSideName.recordOf "b") ∧
      besideSideName.forest.get? "main" = some (besideSideName.recordOf "main") ∧
      besideSideName.forest.isLeaf "b" = true) ∧
    ((besideSideName.recordOf "b").parent = some (besideSideName.recordOf "main").name ∧
      (besideSideName.recordOf "main").name = "main") ∧
    (outcomeOf besideSideName "b").map CommitOutcome.autoMerges = some [] ∧
    (deltaFiles besideSideName "b" = [["f"]] ∧ (besideSideName.recordOf "b").tombstones = []) ∧
    besideSideName.disk.kindAt (basePath [".branchfs-tmp.f"]) = some (.file [120]) ∧
    (after (commitWithReport .listed "b") besideSideName).disk.kindAt
      (basePath [".branchfs-tmp.f"]) = none := by
  decide +kernel

theorem besideSideName_untouched : Untouched .dir (deltaKind besideSideName.disk "b")
    (· ∈ (besideSideName.recordOf "b").tombstones) [".branchfs-tmp.f"] := by
  obtain ⟨-, -, -, -, ⟨hfiles, hts⟩, -⟩ := besideSideName_run
  refine ⟨?_, ?_⟩
  · rintro ⟨t, ht, -⟩
    rw [hts] at ht
    cases ht
  · rintro ⟨f, hf, hle⟩
    have hmem : f ∈ deltaFiles besideSideName "b" := mem_deltaFiles.mpr hf
    rw [hfiles, List.mem_singleton] at hmem
    subst hmem
    exact absurd hle (by decide)

theorem not_commitsTouchOnlySession : ¬ CommitsTouchOnlySession := by
  intro h
  obtain ⟨-, ⟨hb, -, hleaf⟩, ⟨hp, hmain⟩, houtcome, -, hbefore, hafter⟩ := besideSideName_run
  obtain ⟨o, hok, -⟩ := ok_of_outcome besideSideName "b" houtcome
  have htouch := h .bare sideNameOps "b" _ _ .listed o _ hb hleaf hp hok
  have hdest : destination (besideSideName.recordOf "main").name = .base := by
    rw [hmain, destination, if_pos rfl]
  rw [hdest] at htouch
  have hkept := htouch.kept [".branchfs-tmp.f"] (.file [120]) hbefore (by simp)
    besideSideName_untouched
  exact Option.some_ne_none _ (hkept.symm.trans hafter)

/-- The file with the side name is what keeps the commit of `f` from touching `f` only. -/
theorem besideSideName_touches :
    ¬ SidesApart besideSideName "b" (besideSideName.recordOf "b")
      (destination (besideSideName.recordOf "main").name) .listed := by
  obtain ⟨hways, ⟨hb, hparent, -⟩, ⟨hp, hmain⟩, houtcome, -, hbefore, hafter⟩ := besideSideName_run
  obtain ⟨o, hok, -⟩ := ok_of_outcome besideSideName "b" houtcome
  have hdest : destination (besideSideName.recordOf "main").name = .base := by
    rw [hmain, destination, if_pos rfl]
  intro hapart
  have htouch := (touches_only_iff hb hp (by rw [hmain]; exact hparent) (hways.openWays _) hok).mpr
    hapart
  rw [hdest] at htouch
  have hkept := htouch.kept [".branchfs-tmp.f"] (.file [120]) hbefore (by simp)
    besideSideName_untouched
  exact Option.some_ne_none _ (hkept.symm.trans hafter)

end BranchFs
