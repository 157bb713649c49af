/-
# BranchFs.Merge.Base -- a commit into the base directory

The commit of a child of `main`: the merge into the base directory, the removal of what shadows it
from `main`'s own delta, and the removal of the branch. It succeeds exactly while nothing but
directories is in the way of its files and no file it publishes strands trash; the base directory is
then the graft of the session.
-/
import BranchFs.Merge.Session
import BranchFs.Cow.Shown

namespace BranchFs

open BranchFs.Posix BranchFs.Logic

section Run

variable {R : Root} {d : Tree} {ts : List RelPath} {files : List (RelPath × Place)}
variable {src : RelPath × Place → Place} {K : RelPath → Option Entry}

/-- **A merge is published as a whole, or fails**: the deletions staged, it depends on what is in the
way of the copies, and on the trash. -/
theorem runStaged_cases {α : Type} {body : Stage α} {w : α} {s₁ : Staging}
    (h : Mergeable R d ts files src K) (hs : Staged R d ts [] K s₁)
    (hbody : body (Staging.start d) =
      ((files.forM fun f => stageCopy (inTree R) f.1 (src f)) >>= fun _ => pure w) s₁) :
    (((∀ f ∈ files, Open d R ts f.1) ∧ ¬ Stranded d R ts (files.map Prod.fst)) ∧
      ∃ d', runStaged body d = .ok (w, files.map Prod.fst) d' ∧
        Published R d ts (files.map Prod.fst) K d' ∧ Leftover R d [] d') ∨
    (¬ ((∀ f ∈ files, Open d R ts f.1) ∧ ¬ Stranded d R ts (files.map Prod.fst)) ∧
      ∃ e d', runStaged body d = .error e d') := by
  have hfs : ∀ g ∈ files.map Prod.fst, SessionPath g := by
    intro g hg
    obtain ⟨f, hf, rfl⟩ := List.mem_map.mp hg
    exact h.file f hf
  have hK : ∀ f ∈ files.map Prod.fst, ∃ k, K f = some k ∧ k ≠ .dir := by
    intro g hg
    obtain ⟨f, hf, rfl⟩ := List.mem_map.mp hg
    obtain ⟨k, hsrc, hk⟩ := h.source f hf
    exact ⟨k, hk, hsrc.leaf⟩
  have hlinks : ∀ t ∈ ts, ∀ f ∈ files.map Prod.fst, f <+: t → f ≠ t →
      ∀ l, K f ≠ some (.symlink l) := by
    intro t ht g hg
    obtain ⟨f, hf, rfl⟩ := List.mem_map.mp hg
    exact h.noLinkOver t ht f hf
  rcases stageCopies_cases h hs with ⟨hopen, s₂, hrun, hst⟩ | ⟨⟨f, hf, hblocked⟩, e, s₂, hrun⟩
  · have hbody₂ : body (Staging.start d) = .ok w s₂ := by
      rw [hbody, bind_ok hrun]
      rfl
    rcases publish_cases hst h.apart h.deletion hfs hK hlinks with
      ⟨hclear, s₃, hpub, hp, hl, hw⟩ | ⟨hstr, e, s₃, hpub⟩
    · refine Or.inl ⟨⟨hopen, hclear⟩, s₃.disk, ?_, hp, hl⟩
      simp only [runStaged, hbody₂, hpub, hw, hst.merged]
    · refine Or.inr ⟨fun hboth => hboth.2 hstr, e, rollback s₃, ?_⟩
      simp only [runStaged, hbody₂, hpub]
  · refine Or.inr ⟨fun hboth => hblocked (hboth.1 f hf), e, rollback s₂, ?_⟩
    have hbody₂ : body (Staging.start d) = .error e s₂ := by
      rw [hbody, bind_error hrun]
    simp only [runStaged, hbody₂]

end Run

/-! ## What shadows the base directory -/

/-- Clearing one path of `main`'s delta. -/
theorem dropMainDelta_step {m : Manager} {p : RelPath} (hp : p ≠ [])
    (hlink : m.disk.NoLinkAbove (deltaPath "main" p)) :
    ∃ d' a, attempt (onDisk (Io.removeEntry (deltaPath "main" p))) m = .ok a { m with disk := d' } ∧
      (∀ q, deltaKind d' "main" q = if p <+: q then none else deltaKind m.disk "main" q) ∧
      SameOn (fun r => r ≠ some (.files "main")) m.disk d' := by
  by_cases hdir : m.disk.kindAt (deltaPath "main" p).parent = some .dir
  · obtain ⟨d', hrun, hkind, hsame⟩ := removeEntry_clears (l := deltaPath "main" p) rfl hp hdir
    refine ⟨d', .ok (), ?_, ?_, hsame⟩
    · simp only [attempt, onDisk_ok hrun]
    · intro q
      rw [deltaKind, hkind]
      exact if_congr (inTree_le (R := .files "main")) rfl rfl
  · -- nothing is there, and the attempt changes nothing
    have hnone : m.disk.kindAt (deltaPath "main" p) = none := by
      by_contra hk
      exact hdir (Disk.dir_parent hk)
    have hstay : ∀ q, deltaKind m.disk "main" q =
        if p <+: q then none else deltaKind m.disk "main" q := by
      intro q
      split
      · next hpq => exact Disk.none_of_le hnone ((inTree_le (R := .files "main")).mpr hpq)
      · rfl
    have hlstat : m.disk.lstat (deltaPath "main" p) =
        .error (if m.disk.fileAbove (deltaPath "main" p) then .ENOTDIR else .ENOENT) := by
      simp only [Disk.lstat, Disk.realpath_blocked rfl hlink hdir]
    by_cases hfa : m.disk.fileAbove (deltaPath "main" p) = true
    · rw [hfa, if_pos rfl] at hlstat
      refine ⟨m.disk, .error (.io .ENOTDIR), ?_, hstay, SameOn.refl _ _⟩
      have hrun : Io.removeEntry (deltaPath "main" p) m.disk = .error .ENOTDIR m.disk := by
        simp only [Io.removeEntry, hlstat]
      simp only [attempt, onDisk_error hrun]
    · rw [Bool.not_eq_true] at hfa
      rw [hfa] at hlstat
      refine ⟨m.disk, .ok (), ?_, hstay, SameOn.refl _ _⟩
      have hrun : Io.removeEntry (deltaPath "main" p) m.disk = .ok () m.disk := by
        simp only [Io.removeEntry, hlstat, Bool.false_eq_true, if_false]
      simp only [attempt, onDisk_ok hrun]

/-- What clearing `main`'s delta leaves of it. -/
theorem dropMainDelta_ok {m : Manager} {paths : List RelPath} (hne : ∀ p ∈ paths, p ≠ [])
    (hlink : ∀ p ∈ paths, m.disk.NoLinkAbove (deltaPath "main" p)) :
    ∃ d', dropMainDelta paths m = .ok () { m with disk := d' } ∧
      (∀ q, deltaKind d' "main" q =
        if ∃ p ∈ paths, p <+: q then none else deltaKind m.disk "main" q) ∧
      SameOn (fun r => r ≠ some (.files "main")) m.disk d' := by
  have hloop : ∃ m', dropMainDelta paths m = .ok () m' ∧ ∃ d', m' = { m with disk := d' } ∧
      (∀ q, deltaKind d' "main" q =
        if ∃ p ∈ paths, p <+: q then none else deltaKind m.disk "main" q) ∧
      SameOn (fun r => r ≠ some (.files "main")) m.disk d' := by
    unfold dropMainDelta
    refine forM_ok (I := fun done m' => ∃ d', m' = { m with disk := d' } ∧
      (∀ q, deltaKind d' "main" q =
        if ∃ p ∈ done, p <+: q then none else deltaKind m.disk "main" q) ∧
      SameOn (fun r => r ≠ some (.files "main")) m.disk d') ⟨m.disk, rfl, by simp, SameOn.refl _ _⟩ ?_
    rintro done p rest _ hsplit ⟨d₁, rfl, hkind, hsame⟩
    have hmem : p ∈ paths := by simp [hsplit]
    have hlink₁ : d₁.NoLinkAbove (deltaPath "main" p) := by
      refine (hlink p hmem).of_le fun x hx _ hl => ?_
      obtain ⟨a, _, rfl⟩ := le_deltaPath.mp hx
      unfold Disk.linkAt at hl ⊢
      have hk := hkind a
      unfold deltaKind at hk
      rw [hk] at hl
      split at hl
      · cases hl
      · exact hl
    obtain ⟨d₂, a, hrun, hkind₂, hsame₂⟩ :=
      dropMainDelta_step (m := { m with disk := d₁ }) (hne p hmem) hlink₁
    refine ⟨{ m with disk := d₂ }, ?_, d₂, rfl, ?_, hsame.trans hsame₂⟩
    · rw [bind_ok hrun]
      rfl
    · intro q
      rw [hkind₂]
      show (if p <+: q then none else deltaKind d₁ "main" q) = _
      rw [hkind]
      by_cases hpq : p <+: q
      · rw [if_pos hpq, if_pos ⟨p, by simp, hpq⟩]
      · rw [if_neg hpq]
        refine if_congr ?_ rfl rfl
        constructor
        · rintro ⟨u, hu, huq⟩
          exact ⟨u, List.mem_append_left _ hu, huq⟩
        · rintro ⟨u, hu, huq⟩
          rcases List.mem_append.mp hu with hu | hu
          · exact ⟨u, hu, huq⟩
          · rw [List.mem_singleton] at hu
            exact absurd (hu ▸ huq) hpq
  obtain ⟨_, hrun, d', rfl, hkind, hsame⟩ := hloop
  exact ⟨d', hrun, hkind, hsame⟩

/-! ## The commit -/

theorem finalizable_ok {m : Manager} {name parent : String} {b q : Branch} (hne : name ≠ "main")
    (hb : m.forest.get? name = some b) (hleaf : m.forest.isLeaf name = true)
    (hp : b.parent = some parent) (hq : m.forest.get? parent = some q) :
    finalizable name m = .ok (b, q) m := by
  simp only [finalizable, if_neg hne, hb, hleaf, hp, hq]
  rfl

/-- The other way: what a branch that can be finalized is. -/
theorem finalizable_eq_ok {m m' : Manager} {name : String} {b q : Branch}
    (h : finalizable name m = .ok (b, q) m') :
    m' = m ∧ name ≠ "main" ∧ m.forest.get? name = some b ∧ m.forest.isLeaf name = true ∧
      ∃ parent, b.parent = some parent ∧ m.forest.get? parent = some q := by
  unfold finalizable at h
  split at h
  · cases h
  · next hne =>
    cases hb : m.forest.get? name with
    | none => simp only [hb] at h; cases h
    | some b' =>
      simp only [hb] at h
      split at h
      · cases h
      · next hleaf =>
        cases hp : b'.parent with
        | none => simp only [hp] at h; cases h
        | some parent =>
          simp only [hp] at h
          cases hq : m.forest.get? parent with
          | none => simp only [hq] at h; cases h
          | some q' =>
            simp only [hq] at h
            cases h
            exact ⟨rfl, hne, rfl, by simpa using hleaf, parent, hp, hq⟩

theorem isLeaf_modify {F : Forest} {name n : String} {f : Branch → Branch} :
    (F.modify n f).isLeaf name = F.isLeaf name := by
  unfold Forest.isLeaf Forest.modify
  rw [List.all_map]
  congr 1
  funext b
  simp only [Function.comp, Forest.modifyAt_parent]

/-- The branch map after the commit of a leaf. -/
structure Finalized (name parent : String) (f : Branch → Branch) (F F' : Forest) : Prop where
  list : F'.list = (F.list.map (Forest.modifyAt parent f)).filter fun b => decide (b.name ≠ name)

/-- `branches.remove` of a leaf, after the parent's record has changed. -/
theorem removeBranch_ok (m : Manager) (name parent : String) (f : Branch → Branch)
    (hleaf : m.forest.isLeaf name = true) (hne : name ≠ "main") :
    ∃ F', removeBranch name { m with forest := m.forest.modify parent f } =
        .ok () { m with forest := F', disk := m.disk.purge (ofBranch name) } ∧
      Finalized name parent f m.forest F' := by
  have h : (m.forest.modify parent f).isLeaf name = true ∧ name ≠ "main" :=
    ⟨by rw [isLeaf_modify, hleaf], hne⟩
  refine ⟨(m.forest.modify parent f).remove name h, ?_, ⟨rfl⟩⟩
  unfold removeBranch
  rw [dif_pos h]

theorem Finalized.get? {name parent : String} {f : Branch → Branch} {F F' : Forest}
    (h : Finalized name parent f F F') (n : String) :
    F'.get? n = if n = name then none else (F.get? n).map (Forest.modifyAt parent f) := by
  unfold Forest.get?
  rw [h.list, lookupKey_prune, lookupKey_map (Forest.modifyAt_name parent f)]

section Congr

variable {R : Root} {d d' : Tree}

theorem cutKind_congr (h : ∀ x, d'.kindAt (inTree R x) = d.kindAt (inTree R x)) (ts : List RelPath)
    (q : RelPath) : cutKind d' R ts q = cutKind d R ts q := by
  unfold cutKind
  rw [h]

theorem trashed_congr (h : ∀ x, d'.kindAt (inTree R x) = d.kindAt (inTree R x))
    (done ts : List RelPath) : trashed d' R done ts = trashed d R done ts := by
  induction ts generalizing done with
  | nil => rfl
  | cons t ts ih => rw [trashed, trashed, cutKind_congr h, ih]

theorem plainTree_congr (h : ∀ x, d'.kindAt (inTree R x) = d.kindAt (inTree R x)) :
    plainTree d' R = plainTree d R := by
  funext q
  unfold plainTree
  rw [h]

theorem stranded_congr (h : ∀ x, d'.kindAt (inTree R x) = d.kindAt (inTree R x))
    (ts fs : List RelPath) : Stranded d' R ts fs ↔ Stranded d R ts fs := by
  unfold Stranded
  rw [trashed_congr h]

end Congr

/-- What the delta of a branch has become in a commit: some of its files are merged texts. -/
structure Committed (m : Manager) (name : String) (autoMerges : List CommitAutoMerge)
    (K : RelPath → Option Entry) : Prop where
  closed : Closed .dir K
  leaf : ∀ f, Leaf .dir K f ↔ Leaf .dir (deltaKind m.disk name) f
  dir : ∀ q, K q = some .dir ↔ deltaKind m.disk name q = some .dir
  eq : ∀ q, q ∉ autoMerges.map CommitAutoMerge.path → K q = deltaKind m.disk name q
  mergedOver : ∀ q ∈ autoMerges.map CommitAutoMerge.path, MergedOver m name q

theorem Detected.committed {m m₁ : Manager} {name : String} {r : Report}
    (h : Detected name m r m₁) : Committed m name r.autoMerges (committedKind m₁.disk name r) :=
  ⟨committedKind_closed h, fun _ => committedKind_leaf h, fun _ => committedKind_dir h,
    fun _ => committedKind_eq h, h.mergedOver⟩

/-- A commit counted by its parent. -/
def countedCommit (b : Branch) : Branch := { b with commitCount := b.commitCount + 1 }

/-- What a commit into the base directory leaves. -/
structure IntoBase (m : Manager) (name : String) (b : Branch) (K : RelPath → Option Entry)
    (m' : Manager) : Prop where
  base : ∀ q, PlainPath q → m'.disk.kindAt (basePath q) =
    graft .dir (plainTree m.disk .base) (· ∈ b.tombstones) K q
  side : ∀ q, ¬ PlainPath q → m'.disk.kindAt (basePath q) ≠ none → m.disk.kindAt (basePath q) ≠ none
  delta : cleared .dir (deltaKind m.disk "main") (· ∈ b.tombstones) K (deltaKind m'.disk "main")
  same : SameOn (fun r => r ≠ some .base ∧ r ≠ some (.files "main") ∧ ofBranch name r = false)
    m.disk m'.disk
  forest : Finalized name "main" countedCommit m.forest m'.forest

/-- A merge of texts panics in the commit of `name`. -/
def CommitPanics (m : Manager) (name : String) (b : Branch) : Prop :=
  ∃ parent, b.parent = some parent.name ∧ m.forest.get? parent.name = some parent ∧
    DetectionPanics m name b parent

theorem commitPanics_iff {m : Manager} {name parent : String} {b q : Branch}
    (hp : b.parent = some parent) (hq : m.forest.get? parent = some q) :
    CommitPanics m name b ↔ DetectionPanics m name b q := by
  obtain rfl : q.name = parent := Forest.name_of_get? hq
  constructor
  · rintro ⟨q', hp', hq', h⟩
    rw [hp, Option.some.injEq] at hp'
    rw [← hp', hq] at hq'
    exact Option.some.inj hq' ▸ h
  · exact fun h => ⟨q, hp, hq, h⟩

/-- The commit of a branch goes through. -/
def Commits (m : Manager) (name : String) (b : Branch) (R : Root) (order : HashOrder) : Prop :=
  Unblocked .dir (plainTree m.disk R) (· ∈ b.tombstones) (deltaKind m.disk name) ∧
    ¬ Stranded m.disk R (order.iter b.tombstones) (deltaFiles m name) ∧ ¬ CommitPanics m name b

section

variable {m m₁ : Manager} {name : String} {b : Branch} {R : Root} {r : Report}

theorem Detected.dest (h : Detected name m r m₁) (hR : Foreign name R) (x : RelPath) :
    m₁.disk.kindAt (inTree R x) = m.disk.kindAt (inTree R x) :=
  h.same.kindAt (by simpa [inTree] using hR.ne.2)

/-- The two facts that decide a merge, read before the commit. -/
theorem commits_iff (h : Committable m name b R) (hR : Foreign name R) (hdet : Detected name m r m₁)
    (hno : ¬ CommitPanics m name b) (order : HashOrder) :
    ((∀ f ∈ walkFiles m.disk name, Open m₁.disk R (order.iter b.tombstones) f.1) ∧
      ¬ Stranded m₁.disk R (order.iter b.tombstones) ((walkFiles m.disk name).map Prod.fst)) ↔
    Commits m name b R order := by
  have hT : ∀ t, t ∈ order.iter b.tombstones ↔ t ∈ b.tombstones := fun t => (order.perm _).mem_iff
  have hopen : (∀ f ∈ deltaFiles m name, Open m₁.disk R (order.iter b.tombstones) f) ↔
      Unblocked .dir (plainTree m₁.disk R) (· ∈ b.tombstones) (deltaKind m.disk name) :=
    open_iff_unblocked hT (fun f => mem_deltaFiles) (fun f hf => h.file f (mem_deltaFiles.mp hf))
  rw [plainTree_congr (hdet.dest hR)] at hopen
  unfold Commits
  rw [stranded_congr (hdet.dest hR), ← hopen, and_iff_left hno]
  refine and_congr ?_ Iff.rfl
  constructor
  · intro hall f hf
    obtain ⟨g, hg, rfl⟩ := List.mem_map.mp hf
    exact hall g hg
  · intro hall f hf
    exact hall f.1 (List.mem_map.mpr ⟨f, hf, rfl⟩)

/-- A commit of a leaf comes to its report, unless a merge of texts panics. -/
theorem commit_reported {q : Branch} {parent : String} (hb : m.forest.get? name = some b)
    (hleaf : m.forest.isLeaf name = true) (hne : name ≠ "main") (hp : b.parent = some parent)
    (hq : m.forest.get? parent = some q) (hstore : PlainStore m.disk name)
    (hst : ∀ p, Leaf .dir (deltaKind m.disk name) p → Straight m name p) (order : HashOrder) :
    (¬ CommitPanics m name b ∧ ∃ r m₁, Detected name m r m₁ ∧ commitWithReport order name m =
      (do applyCommit name q r (order.iter b.tombstones) (walkFiles m.disk name)
          pure ⟨q.name, r.autoMerges, r.conflicts⟩ : Mgr CommitOutcome) m₁) ∨
    (CommitPanics m name b ∧ ∃ m', commitWithReport order name m = .error .panicked m') := by
  obtain rfl : b.name = name := Forest.name_of_get? hb
  rw [commitPanics_iff hp hq]
  unfold commitWithReport
  rw [bind_ok (finalizable_ok hne hb hleaf hp hq)]
  rcases reportFor_cases q hb hstore hst (order.iter b.tombstones) with
    ⟨hno, r, m₁, hreport, hdet⟩ | ⟨hpanic, m', hreport⟩
  · refine Or.inl ⟨hno, r, m₁, hdet, ?_⟩
    show (readDisk _ >>= _) m = _
    rw [readDisk_bind, bind_ok hreport]
  · refine Or.inr ⟨hpanic, m', ?_⟩
    show (readDisk _ >>= _) m = _
    rw [readDisk_bind, bind_error hreport]

/-- **A commit into the base directory** goes through exactly when nothing is in its way and no trash
is stranded; it then leaves the graft of the session. -/
theorem commitBase_cases {main : Branch} (hb : m.forest.get? name = some b)
    (hleaf : m.forest.isLeaf name = true) (hne : name ≠ "main") (hp : b.parent = some "main")
    (hmain : m.forest.get? "main" = some main) (h : Committable m name b .base)
    (order : HashOrder) :
    (Commits m name b .base order ∧ ∃ o m' K, commitWithReport order name m = .ok o m' ∧
      Committed m name o.autoMerges K ∧ IntoBase m name b K m') ∨
    (¬ Commits m name b .base order ∧ ∃ e m', commitWithReport order name m = .error e m') := by
  have hmainName : main.name = "main" := Forest.name_of_get? hmain
  rcases commit_reported hb hleaf hne hp hmain h.store (fun p hf => h.straight p (Or.inr hf))
    order with ⟨hno, r, m₁, hdet, hcommit⟩ | ⟨hpanic, m', hcommit⟩
  swap
  · exact Or.inr ⟨fun hgo => hgo.2.2 hpanic, _, m', hcommit⟩
  have hforeign : Foreign name .base := Or.inl rfl
  have hmerge := h.mergeable hforeign (m.base_mem_layers name) hdet order
  let ts := order.iter b.tombstones
  let fs := (walkFiles m.disk name).map Prod.fst
  let K := committedKind m₁.disk name r
  have hT : ∀ t, t ∈ ts ↔ t ∈ b.tombstones := fun t => (order.perm _).mem_iff
  have hfs : ∀ f, f ∈ fs ↔ Leaf .dir K f := fun f => by
    rw [committedKind_leaf hdet]
    exact mem_walkFiles_fst
  obtain ⟨s₁, hdel, hstaged⟩ := stageDeletes_ok (K := K) hmerge.deletion hmerge.straightT
  have hbody : stageIntoBase r ts (walkFiles m.disk name) (Staging.start m₁.disk) =
      (((walkFiles m.disk name).forM fun f => stageCopy (inTree .base) f.1 (r.sourceOf f)) >>=
        fun _ => pure ()) s₁ := by
    have hdel' : ts.forM (fun p => stageDelete (basePath p)) (Staging.start m₁.disk) = .ok () s₁ :=
      hdel
    unfold stageIntoBase
    rw [bind_ok hdel']
    exact (congrFun (bind_pure (stageCopies basePath r (walkFiles m.disk name))) s₁).symm
  rcases runStaged_cases hmerge hstaged hbody with ⟨hgo, d₂, hrun, hpub, hleft⟩ | ⟨hstop, e, d₂, hrun⟩
  · -- the merge is published; `main`'s delta, its counter and the branch follow
    have hpaths : ∀ p ∈ fs ++ ts, p ≠ [] ∧ (p ∈ b.tombstones ∨ Leaf .dir (deltaKind m.disk name) p) := by
      intro p hp'
      rcases List.mem_append.mp hp' with hf | ht
      · obtain ⟨f, hf', rfl⟩ := List.mem_map.mp hf
        exact ⟨(hmerge.file f hf').ne_nil, Or.inr (mem_walkFiles_fst.mp hf)⟩
      · exact ⟨(hmerge.deletion p ht).ne_nil, Or.inl ((hT p).mp ht)⟩
    have hmainLayer : Root.files "main" ∈ m.layers name :=
      Manager.parent_files_mem_layers hb hp
    have hkindMain : ∀ q, deltaKind d₂ "main" q = deltaKind m.disk "main" q := by
      intro q
      rw [deltaKind, hpub.same.kindAt (by simp [deltaPath])]
      exact hdet.deltaKind "main" q
    have hlinkMain : ∀ p ∈ fs ++ ts, d₂.NoLinkAbove (deltaPath "main" p) := by
      intro p hp'
      refine (h.straight p (hpaths p hp').2 _ hmainLayer).of_le fun x hx _ hl => ?_
      obtain ⟨a, _, rfl⟩ := le_deltaPath.mp hx
      have hk := hkindMain a
      unfold deltaKind at hk
      unfold Disk.linkAt at hl ⊢
      rwa [hk] at hl
    obtain ⟨d₃, hdrop, hkind₃, hsame₃⟩ := dropMainDelta_ok (m := { m₁ with disk := d₂ })
      (fun p hp' => (hpaths p hp').1) hlinkMain
    have hrest : m₁ = { m with disk := m₁.disk } := hdet.rest
    have hforest : m₁.forest = m.forest := by rw [hrest]
    obtain ⟨F', hremove, hfinal⟩ := removeBranch_ok { m₁ with disk := d₃ } name "main" countedCommit
      (by rw [hforest]; exact hleaf) hne
    rw [hforest] at hfinal
    let m' : Manager := { m₁ with forest := F', disk := d₃.purge (ofBranch name), epoch := m₁.epoch + 1 }
    have hnoOwner : ∀ R' : Root, R' = .base ∨ R' = .files "main" → ofBranch name (some R') = false := by
      rintro R' (rfl | rfl)
      · rfl
      · simp only [ofBranch, Option.bind_some, Root.owner, beq_eq_false_iff_ne, ne_eq]
        exact fun heq => hne (Option.some.inj heq).symm
    have hpurge : ∀ x : Place, ofBranch name x.root = false → m'.disk.kindAt x = d₃.kindAt x := by
      intro x hx
      show (d₃.purge (ofBranch name)).kindAt x = _
      unfold Disk.kindAt
      rw [Disk.get_purge, if_neg fun h => by rw [hx] at h; exact Bool.false_ne_true h.2]
    have hbase₃ : ∀ q, d₃.kindAt (basePath q) = d₂.kindAt (basePath q) :=
      fun q => hsame₃.kindAt (by simp [basePath])
    have hplain : ∀ q, m'.disk.kindAt (basePath q) = d₂.kindAt (basePath q) := fun q => by
      rw [hpurge _ (hnoOwner _ (Or.inl rfl)), hbase₃]
    refine Or.inl ⟨(commits_iff h hforeign hdet hno order).mp hgo,
      ⟨main.name, r.autoMerges, r.conflicts⟩, m', K, ?_, hdet.committed, ?_, ?_, ?_, ?_, hfinal⟩
    · have happly : applyCommit name main r ts (walkFiles m.disk name) m₁ = .ok () m' := ?_
      · rw [hcommit, bind_ok happly]
        rfl
      unfold applyCommit
      rw [if_pos hmainName, commitIntoBase, bind_ok (onDisk_ok hrun)]
      show (dropMainDelta (fs ++ ts) >>= _) { m₁ with disk := d₂ } = _
      rw [bind_ok hdrop]
      show (modifyBranch "main" countedCommit >>= _) { m₁ with disk := d₃ } = _
      have hcount : modifyBranch "main" countedCommit { m₁ with disk := d₃ } =
          .ok () { m₁ with disk := d₃, forest := m₁.forest.modify "main" countedCommit } := rfl
      rw [bind_ok hcount, bind_ok hremove]
      rfl
    · intro q hq
      rw [hplain, ← plainTree_congr (hdet.dest hforeign)]
      exact (hpub.plain q hq).trans (pubKind_eq_graft hT hmerge.apart hfs hq)
    · intro q hq hk
      rw [hplain] at hk
      rcases hleft q hq hk with hk | ⟨t, ht, _⟩
      · exact fun hnone => hk ((hdet.dest hforeign q).trans hnone)
      · cases ht
    · have hkind : ∀ q, deltaKind m'.disk "main" q =
          if ∃ p ∈ fs ++ ts, p <+: q then none else deltaKind m.disk "main" q := by
        intro q
        rw [deltaKind, hpurge _ (hnoOwner _ (Or.inr rfl))]
        exact (hkind₃ q).trans (by rw [← hkindMain q])
      intro q
      constructor
      · intro hq
        rw [hkind, if_pos]
        rcases hq with ⟨t, ht, hle⟩ | ⟨f, hf, hle⟩
        · exact ⟨t, List.mem_append_right _ ((hT t).mpr ht), hle⟩
        · exact ⟨f, List.mem_append_left _ ((hfs f).mpr hf), hle⟩
      · intro hc hup
        rw [hkind, if_neg]
        rintro ⟨p, hp', hle⟩
        rcases List.mem_append.mp hp' with hf | ht
        · exact hup ⟨p, (hfs p).mp hf, hle⟩
        · exact hc ⟨p, (hT p).mp ht, hle⟩
    · intro x hx
      obtain ⟨hx1, hx2, hx3⟩ := hx
      have hnm : x.root ≠ some (.mergeContent name) := by
        intro heq
        rw [heq] at hx3
        simp [ofBranch, Root.owner] at hx3
      show (d₃.purge (ofBranch name)).get x = _
      rw [Disk.get_purge, if_neg fun h => by rw [hx3] at h; exact Bool.false_ne_true h.2,
        hsame₃ x hx2, hpub.same x hx1, hdet.same x hnm]
  · refine Or.inr ⟨fun hc => hstop ((commits_iff h hforeign hdet hno order).mpr hc), .io e,
      { m₁ with disk := d₂ }, ?_⟩
    rw [hcommit, bind_error]
    unfold applyCommit
    rw [if_pos hmainName, commitIntoBase, bind_error (onDisk_error hrun)]

end

end BranchFs
