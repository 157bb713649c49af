/-
# BranchFs.Merge.Session -- the session a commit applies

A commit applies the tombstones of the branch and its delta files, some of them from merged texts.
`Committable` is what it takes for granted of the session and of the tree it goes to; from there on
the merge is decided by two facts about the trees, and leaves a `graft`.
-/
import BranchFs.Merge.Detect

namespace BranchFs

open BranchFs.Posix BranchFs.Logic

/-- The session of a branch is plain, and so is what it meets in the tree `R` it is committed to: no
side names, no links on the way in any layer, nothing but files in the content directories. -/
structure Committable (m : Manager) (name : String) (b : Branch) (R : Root) : Prop where
  deletion : ∀ t ∈ b.tombstones, SessionPath t
  file : ∀ f, Leaf .dir (deltaKind m.disk name) f → PlainPath f
  free : ∀ f, Leaf .dir (deltaKind m.disk name) f →
    m.disk.kindAt (inTree R (sidePath "tmp" f)) = none
  straight : ∀ p, p ∈ b.tombstones ∨ Leaf .dir (deltaKind m.disk name) p → Straight m name p
  store : PlainStore m.disk name
  noLinkOver : ∀ t ∈ b.tombstones, ∀ f, f <+: t → f ≠ t →
    ∀ l, deltaKind m.disk name f ≠ some (.symlink l)

/-- The delta as it is committed: merged texts in the place of the files they were merged for. -/
def committedKind (d : Tree) (name : String) (r : Report) (q : RelPath) : Option Entry :=
  match deltaKind d name q with
  | some .dir => some .dir
  | none => none
  | some _ => d.kindAt (r.sourceOf (q, deltaPath name q))

/-- The paths of the delta files. -/
def deltaFiles (m : Manager) (name : String) : List RelPath :=
  (walkFiles m.disk name).map Prod.fst

theorem mem_deltaFiles {m : Manager} {name : String} {f : RelPath} :
    f ∈ deltaFiles m name ↔ Leaf .dir (deltaKind m.disk name) f := mem_walkFiles_fst

/-- A tree, its plain part. -/
noncomputable def plainTree (d : Tree) (R : Root) (q : RelPath) : Option Entry :=
  if PlainPath q then d.kindAt (inTree R q) else none

theorem plainTree_of {d : Tree} {R : Root} {q : RelPath} (h : PlainPath q) :
    plainTree d R q = d.kindAt (inTree R q) := if_pos h

theorem plainTree_closed (d : Tree) (R : Root) : Closed .dir (plainTree d R) where
  root := by
    rw [plainTree_of (by simp [PlainPath])]
    exact Disk.kindAt_root d rfl
  above := by
    intro q a hq ha hne
    by_cases hp : PlainPath q
    · rw [plainTree_of hp] at hq
      rw [plainTree_of (hp.mono ha)]
      exact Disk.dir_above hq (inTree_le.mpr ha) (inTree_ne.mpr hne)
    · exact absurd (if_neg hp) hq

section

variable {m m₁ : Manager} {name : String} {b : Branch} {R : Root} {r : Report}

theorem Detected.deltaKind (h : Detected name m r m₁) (n : String) (q : RelPath) :
    deltaKind m₁.disk n q = BranchFs.deltaKind m.disk n q :=
  h.same.kindAt (by simp [deltaPath])

/-- A committed file is the file of the delta, or a merged text in its place. -/
theorem committedKind_cases (h : Detected name m r m₁) {f : RelPath}
    (hf : Leaf .dir (deltaKind m.disk name) f) :
    committedKind m₁.disk name r f = deltaKind m.disk name f ∨
    (f ∈ r.autoMerges.map CommitAutoMerge.path ∧
      ∃ bytes, committedKind m₁.disk name r f = some (.file bytes)) := by
  obtain ⟨k, hk, hkd⟩ := hf
  have hcommitted : committedKind m₁.disk name r f =
      m₁.disk.kindAt (r.sourceOf (f, deltaPath name f)) := by
    unfold committedKind
    rw [h.deltaKind, hk]
    cases k with
    | dir => exact absurd rfl hkd
    | file b => rfl
    | symlink l => rfl
  rw [hcommitted]
  rcases h.sourceOf (f, deltaPath name f) with hs | ⟨hs, hfile, hauto⟩
  · rw [hs]
    exact Or.inl (h.deltaKind name f)
  · right
    rw [hs]
    refine ⟨hauto, ?_⟩
    unfold Disk.fileAt at hfile
    cases hkind : m₁.disk.kindAt (mergedPath name f) with
    | none => simp [hkind] at hfile
    | some k' =>
      cases k' with
      | file bytes => exact ⟨bytes, rfl⟩
      | dir => simp [hkind, Kind.isFile] at hfile
      | symlink l => simp [hkind, Kind.isFile] at hfile

/-- The committed delta has its leaves and directories where the delta has them. -/
theorem committedKind_leaf (h : Detected name m r m₁) {f : RelPath} :
    Leaf .dir (committedKind m₁.disk name r) f ↔ Leaf .dir (deltaKind m.disk name) f := by
  constructor
  · rintro ⟨k, hk, hkd⟩
    unfold committedKind at hk
    rw [h.deltaKind] at hk
    rcases shape_cases .dir (deltaKind m.disk name) f with hl | hd | hn
    · exact hl
    · rw [hd] at hk
      exact absurd (Option.some.inj hk).symm hkd
    · rw [hn] at hk
      cases hk
  · intro hf
    rcases committedKind_cases h hf with heq | ⟨_, bytes, hk⟩
    · obtain ⟨k, hk, hkd⟩ := hf
      exact ⟨k, heq.trans hk, hkd⟩
    · exact ⟨_, hk, by simp⟩

theorem committedKind_of_not_leaf (h : Detected name m r m₁) {q : RelPath}
    (hq : ¬ Leaf .dir (deltaKind m.disk name) q) :
    committedKind m₁.disk name r q = deltaKind m.disk name q := by
  unfold committedKind
  rw [h.deltaKind]
  rcases shape_cases .dir (deltaKind m.disk name) q with hl | hd | hn
  · exact absurd hl hq
  · rw [hd]
  · rw [hn]

theorem committedKind_dir (h : Detected name m r m₁) {q : RelPath} :
    committedKind m₁.disk name r q = some .dir ↔ deltaKind m.disk name q = some .dir := by
  by_cases hl : Leaf .dir (deltaKind m.disk name) q
  · exact iff_of_false ((committedKind_leaf h).mpr hl).ne_dir hl.ne_dir
  · rw [committedKind_of_not_leaf h hl]

/-- Outside the merged files the committed delta is the delta. -/
theorem committedKind_eq (h : Detected name m r m₁) {q : RelPath}
    (hq : q ∉ r.autoMerges.map CommitAutoMerge.path) :
    committedKind m₁.disk name r q = deltaKind m.disk name q := by
  by_cases hl : Leaf .dir (deltaKind m.disk name) q
  · exact (committedKind_cases h hl).resolve_right fun h => hq h.1
  · exact committedKind_of_not_leaf h hl

theorem committedKind_closed (h : Detected name m r m₁) :
    Closed .dir (committedKind m₁.disk name r) where
  root := by
    rw [committedKind_of_not_leaf h, (deltaKind_closed m.disk name).root]
    exact fun hl => hl.ne_dir (deltaKind_closed m.disk name).root
  above := by
    intro q a hq ha hne
    have hdq : deltaKind m.disk name q ≠ none := by
      intro hnone
      rw [committedKind_of_not_leaf h fun hl => hl.ne_none hnone] at hq
      exact hq hnone
    have hda := (deltaKind_closed m.disk name).above hdq ha hne
    rw [committedKind_of_not_leaf h fun hl => hl.ne_dir hda, hda]

/-- The tree a commit goes to is not one of the session's own. -/
def Foreign (name : String) (R : Root) : Prop := R = .base ∨ ∃ n, n ≠ name ∧ R = .files n

theorem Foreign.ne {name : String} {R : Root} (h : Foreign name R) :
    R ≠ .files name ∧ R ≠ .mergeContent name := by
  rcases h with rfl | ⟨n, hn, rfl⟩
  · simp
  · simpa using hn

theorem Committable.mergeable (h : Committable m name b R) (hR : Foreign name R)
    (hlayer : R ∈ m.layers name) (hdet : Detected name m r m₁) (order : HashOrder) :
    Mergeable R m₁.disk (order.iter b.tombstones) (walkFiles m.disk name) r.sourceOf
      (committedKind m₁.disk name r) := by
  have hleaf : ∀ f ∈ walkFiles m.disk name, f.2 = deltaPath name f.1 ∧
      Leaf .dir (deltaKind m.disk name) f.1 := by
    rintro ⟨f, src⟩ hf
    exact mem_walkFiles.mp hf
  have hts : ∀ t ∈ order.iter b.tombstones, t ∈ b.tombstones :=
    fun t ht => (order.perm _).mem_iff.mp ht
  have hdest : ∀ x, m₁.disk.kindAt (inTree R x) = m.disk.kindAt (inTree R x) :=
    fun x => hdet.same.kindAt (by simpa [inTree] using hR.ne.2)
  have hnolink : ∀ p, p ∈ b.tombstones ∨ Leaf .dir (deltaKind m.disk name) p →
      m₁.disk.NoLinkAbove (inTree R p) := by
    intro p hp
    refine (h.straight p hp R hlayer).of_le fun x hx _ hl => ?_
    obtain ⟨a, _, rfl⟩ := le_inTree.mp hx
    unfold Disk.linkAt at hl ⊢
    rwa [hdest] at hl
  refine ⟨fun t ht => h.deletion t (hts t ht), ?_, walkFiles_antichain m.disk name, ?_, ?_, ?_, ?_, ?_⟩
  · intro f hf
    obtain ⟨_, hl⟩ := hleaf f hf
    refine ⟨h.file f.1 hl, ?_⟩
    intro hnil
    rw [hnil] at hl
    exact hl.ne_dir (deltaKind_closed m.disk name).root
  · intro f hf
    obtain ⟨hsrc, hl⟩ := hleaf f hf
    obtain ⟨k, hk, hkd⟩ := (committedKind_leaf hdet).mpr hl
    refine ⟨k, ?_, hk⟩
    have hkind : m₁.disk.kindAt (r.sourceOf f) = some k := by
      have hf' : f = (f.1, deltaPath name f.1) := Prod.ext rfl hsrc
      obtain ⟨k', hk', hkd'⟩ := hl
      unfold committedKind at hk
      rw [hdet.deltaKind, hk'] at hk
      rw [hf']
      cases k' with
      | dir => exact absurd rfl hkd'
      | file b => exact hk
      | symlink l => exact hk
    refine ⟨?_, hkind, hkd⟩
    rcases hdet.sourceOf f with hs | ⟨hs, _⟩
    · exact ⟨.files name, by rw [hs, hsrc]; rfl, fun heq => hR.ne.1 heq.symm⟩
    · exact ⟨.mergeContent name, by rw [hs]; rfl, fun heq => hR.ne.2 heq.symm⟩
  · intro f hf
    rw [hdest]
    exact h.free f.1 (hleaf f hf).2
  · exact fun t ht => hnolink t (Or.inl (hts t ht))
  · exact fun f hf => hnolink f.1 (Or.inr (hleaf f hf).2)
  · intro t ht f hf hle hne l hk
    obtain ⟨_, hl⟩ := hleaf f hf
    rcases committedKind_cases hdet hl with heq | ⟨_, bytes, hfile⟩
    · exact h.noLinkOver t (hts t ht) f.1 hle hne l (heq ▸ hk)
    · rw [hfile] at hk
      cases hk

/-! ## The merge as a graft -/

/-- What a merge leaves is the graft of the committed delta. -/
theorem pubKind_eq_graft {d : Tree} {ts fs : List RelPath} {K : RelPath → Option Entry}
    {T : RelPath → Prop} (hT : ∀ t, t ∈ ts ↔ T t) (hapart : Antichain fs)
    (hfs : ∀ f, f ∈ fs ↔ Leaf .dir K f) {q : RelPath} (hq : PlainPath q) :
    pubKind d R ts fs K q = graft .dir (plainTree d R) T K q := by
  have hcov : (∃ t ∈ ts, t <+: q) ↔ Covers T q := by
    constructor
    · rintro ⟨t, ht, hle⟩
      exact ⟨t, (hT t).mp ht, hle⟩
    · rintro ⟨t, ht, hle⟩
      exact ⟨t, (hT t).mpr ht, hle⟩
  by_cases hl : Leaf .dir K q
  · rw [graft_of_leaf hl, pubKind, if_pos ((hfs q).mpr hl)]
  have hnot : q ∉ fs := fun h => hl ((hfs q).mp h)
  rw [pubKind, if_neg hnot]
  by_cases hup : ∃ f, Leaf .dir K f ∧ f <+: q
  · obtain ⟨f, hf, hfq⟩ := hup
    rw [graft_of_leaf_above hl hf hfq]
    exact midKind_below_file hapart ((hfs f).mpr hf) hfq fun heq => hl (heq ▸ hf)
  by_cases hdown : ∃ f, Leaf .dir K f ∧ q <+: f
  · obtain ⟨f, hf, hqf⟩ := hdown
    rw [graft_of_leaf_below hup hf hqf]
    exact midKind_dir_of_file ((hfs f).mpr hf) hqf fun heq => hl (heq ▸ hf)
  have hmid : midKind d R ts fs q = cutKind d R ts q := by
    unfold midKind
    rw [if_neg, if_neg]
    · rintro ⟨f, hf, hfq, _⟩
      exact hup ⟨f, (hfs f).mp hf, hfq⟩
    · rintro ⟨f, hf, hqf, _⟩
      exact hdown ⟨f, (hfs f).mp hf, hqf⟩
  rw [hmid]
  by_cases hc : Covers T q
  · rw [graft_of_covered hup hdown hc, cutKind, if_pos (hcov.mpr hc)]
  · rw [graft_of_apart hup hdown hc, cutKind, if_neg fun h => hc (hcov.mp h), plainTree_of hq]

/-- That nothing is in the way, said of the trees. -/
theorem open_iff_unblocked {d : Tree} {ts fs : List RelPath} {K : RelPath → Option Entry}
    {T : RelPath → Prop} (hT : ∀ t, t ∈ ts ↔ T t) (hfs : ∀ f, f ∈ fs ↔ Leaf .dir K f)
    (hplain : ∀ f ∈ fs, PlainPath f) :
    (∀ f ∈ fs, Open d R ts f) ↔ Unblocked .dir (plainTree d R) T K := by
  constructor
  · intro h f a hf ha hne hT'
    have hmem := (hfs f).mpr hf
    have hopen := h f hmem a ha hne
    rw [plainTree_of ((hplain f hmem).mono ha)]
    unfold cutKind at hopen
    rwa [if_neg] at hopen
    rintro ⟨t, ht, hle⟩
    exact hT' ⟨t, (hT t).mp ht, hle⟩
  · intro h f hf a ha hne
    unfold cutKind
    split
    · exact Or.inl rfl
    · next hno =>
      have := h f a ((hfs f).mp hf) ha hne ?_
      · rwa [plainTree_of ((hplain f hf).mono ha)] at this
      · rintro ⟨t, ht, hle⟩
        exact hno ⟨t, (hT t).mpr ht, hle⟩

end

end BranchFs
