/-
# BranchFs.Merge.Publish -- what a merge leaves of the destination

The loops of a commit over its deletions and its copies, and the publication of what they staged.
A merge either fails, and then something other than a directory stands in the way of one of its
files, or a file it published stands above a place it has trash in; or it leaves the destination as
`pubKind` says: the files, the directories above them, and what neither a deletion nor a replaced
directory took.
-/
import BranchFs.Merge.Stage

namespace BranchFs

open BranchFs.Posix BranchFs.Logic

/-- The paths of the list stand apart: none is twice there, and none is above another. -/
structure Antichain (fs : List RelPath) : Prop where
  nodup : fs.Nodup
  eq : ∀ {f g}, f ∈ fs → g ∈ fs → f <+: g → f = g

theorem Antichain.apart {done rest : List RelPath} {f : RelPath}
    (h : Antichain (done ++ f :: rest)) : Apart done f := by
  have hf : f ∈ done ++ f :: rest := by simp
  intro g hg
  have hgf : g ≠ f := by
    rintro rfl
    exact (List.nodup_append.mp h.nodup).2.2 g hg g (List.mem_cons_self ..) rfl
  have hg' : g ∈ done ++ f :: rest := List.mem_append_left _ hg
  exact ⟨fun hle => hgf (h.eq hg' hf hle), fun hle => hgf (h.eq hf hg' hle).symm⟩

/-- What a merge asks of the session and of the tree it goes to: plain paths that stand apart,
sources elsewhere, no stale temporary names and no links on the way. -/
structure Mergeable (R : Root) (d : Tree) (ts : List RelPath) (files : List (RelPath × Place))
    (src : RelPath × Place → Place) (K : RelPath → Option Entry) : Prop where
  deletion : ∀ t ∈ ts, SessionPath t
  file : ∀ f ∈ files, SessionPath f.1
  apart : Antichain (files.map Prod.fst)
  source : ∀ f ∈ files, ∃ k, Source R d (src f) k ∧ K f.1 = some k
  free : ∀ f ∈ files, d.kindAt (inTree R (sidePath "tmp" f.1)) = none
  straightT : ∀ t ∈ ts, d.NoLinkAbove (inTree R t)
  straightF : ∀ f ∈ files, d.NoLinkAbove (inTree R f.1)
  noLinkOver : ∀ t ∈ ts, ∀ f ∈ files, f.1 <+: t → f.1 ≠ t → ∀ l, K f.1 ≠ some (.symlink l)

section

variable {R : Root} {d : Tree} {ts : List RelPath} {files : List (RelPath × Place)}
variable {src : RelPath × Place → Place} {K : RelPath → Option Entry} {s : Staging}

/-- What stands on the way to a file of the session, the deletions made, is no link. -/
theorem Mergeable.cut_no_link (h : Mergeable R d ts files src K) {f : RelPath × Place}
    (hf : f ∈ files) {a : RelPath} (ha : a <+: f.1) (hne : a ≠ f.1) (l : Link String) :
    cutKind d R ts a ≠ some (.symlink l) := by
  intro hk
  have hlink := (h.straightF f hf).not_link (inTree_le.mpr ha) (inTree_ne.mpr hne)
  unfold cutKind at hk
  split at hk
  · cases hk
  · simp [Disk.linkAt, hk, Kind.isSymlink] at hlink

/-- **The copies of a commit are staged, or something other than a directory is in the way of
one.** -/
theorem stageCopies_cases (h : Mergeable R d ts files src K) (hs : Staged R d ts [] K s) :
    ((∀ f ∈ files, Open d R ts f.1) ∧
      ∃ s', files.forM (fun f => stageCopy (inTree R) f.1 (src f)) s = .ok () s' ∧
        Staged R d ts (files.map Prod.fst) K s') ∨
    ((∃ f ∈ files, ¬ Open d R ts f.1) ∧
      ∃ e s', files.forM (fun f => stageCopy (inTree R) f.1 (src f)) s = .error e s') := by
  refine forM_cases (I := fun done s => Staged R d ts (done.map Prod.fst) K s) hs ?_
  intro done f rest t hsplit hdone hst
  have hmem : f ∈ files := by simp [hsplit]
  have hdoneMem : ∀ g ∈ done, g ∈ files := fun g hg => by simp [hsplit, hg]
  have hapart : Apart (done.map Prod.fst) f.1 := by
    have hall := h.apart
    rw [hsplit, List.map_append, List.map_cons] at hall
    exact hall.apart
  by_cases hopen : Open d R ts f.1
  · refine Or.inl ⟨hopen, ?_⟩
    obtain ⟨k, hsrc, hK⟩ := h.source f hmem
    obtain ⟨s', hrun, hst'⟩ := hst.copy (h.file f hmem) hapart
      (fun g hg => by
        obtain ⟨g', hg', rfl⟩ := List.mem_map.mp hg
        exact h.file g' (hdoneMem g' hg'))
      hopen (h.free f hmem) hsrc hK
    exact ⟨s', hrun, by simpa using hst'⟩
  · refine Or.inr ⟨hopen, ?_⟩
    obtain ⟨a, ha, hne, hnone, hdir⟩ : ∃ a, a <+: f.1 ∧ a ≠ f.1 ∧ cutKind d R ts a ≠ none ∧
        cutKind d R ts a ≠ some .dir := by
      unfold Open at hopen
      push Not at hopen
      obtain ⟨a, ha, hne, h1, h2⟩ := hopen
      exact ⟨a, ha, hne, h1, h2⟩
    -- no copy before passed through `a`, so what was in the way still is
    have hmid : midKind d R ts (done.map Prod.fst) a = cutKind d R ts a := by
      unfold midKind
      rw [if_neg, if_neg]
      · rintro ⟨g, hg, hle, _⟩
        exact (hapart g hg).1 (hle.trans ha)
      · rintro ⟨g, hg, hle, hag⟩
        obtain ⟨g', hg', rfl⟩ := List.mem_map.mp hg
        rcases hdone g' hg' a hle hag with hk | hk
        · exact hnone hk
        · exact hdir hk
    have hkind : t.disk.kindAt (inTree R a) = cutKind d R ts a := by
      rw [hst.plain a ((h.file f hmem).plain.mono ha), hmid]
    have hfile : t.disk.fileAt (inTree R a) = true := by
      obtain ⟨k, hk⟩ := Option.ne_none_iff_exists'.mp hnone
      cases k with
      | dir => exact absurd hk hdir
      | symlink l => exact absurd hk (h.cut_no_link hmem ha hne l)
      | file b => simp [Disk.fileAt, hkind, hk, Kind.isFile]
    have hlink : t.disk.NoLinkAbove (inTree R f.1) := by
      refine Disk.noLinkAbove_of fun x hx hxne => ?_
      obtain ⟨c, hc, rfl⟩ := le_inTree.mp hx
      have hk := hst.plain c ((h.file f hmem).plain.mono hc)
      rcases midKind_above (d := d) (R := R) ts hapart hc with hm | hm
      · exact Disk.linkAt_eq_false_of_kind (hk.trans hm) rfl
      · rw [hm] at hk
        cases hck : cutKind d R ts c with
        | none => exact Disk.linkAt_of_none (hk.trans hck)
        | some k =>
          refine Disk.linkAt_eq_false_of_kind (hk.trans hck) ?_
          cases k with
          | dir => rfl
          | file b => rfl
          | symlink l => exact absurd hck (h.cut_no_link hmem hc (inTree_ne.mp hxne) l)
    exact stageCopy_blocked hlink ha hne hfile

/-! ## Publication -/

/-- The destination after the merge. -/
def pubKind (d : Tree) (R : Root) (ts fs : List RelPath) (K : RelPath → Option Entry)
    (q : RelPath) : Option Entry :=
  if q ∈ fs then K q else midKind d R ts fs q

/-- The destination with some of the copies moved into place. -/
structure Moved (R : Root) (d : Tree) (ts fs done : List RelPath) (K : RelPath → Option Entry)
    (d' : Tree) : Prop where
  plain : ∀ q, PlainPath q → d'.kindAt (inTree R q) =
    if q ∈ done then K q else midKind d R ts fs q
  same : SameOn (fun r => r ≠ some R) d d'
  tmps : ∀ f ∈ fs, f ∉ done → d'.kindAt (inTree R (sidePath "tmp" f)) = K f
  side : ∀ x, ¬ PlainPath x → d'.kindAt (inTree R x) ≠ none → d.kindAt (inTree R x) ≠ none ∨
    (∃ f ∈ fs, f ∉ done ∧ sidePath "tmp" f <+: x) ∨
    ∃ t ∈ recorded d R ts fs, sidePath "trash" t <+: x

variable {fs : List RelPath}

/-- In the place of a copy is nothing that a rename would not replace. -/
theorem midKind_at_file (hapart : Antichain fs) {f : RelPath} (hf : f ∈ fs) :
    midKind d R ts fs f ≠ some .dir := by
  unfold midKind
  rw [if_neg]
  · split
    · simp
    · next hno => exact fun hk => hno ⟨f, hf, List.prefix_rfl, hk⟩
  · rintro ⟨g, hg, hle, hne⟩
    exact hne (hapart.eq hf hg hle)

/-- Below a copy nothing is left. -/
theorem midKind_below_file (hapart : Antichain fs) {f q : RelPath} (hf : f ∈ fs) (hfq : f <+: q)
    (hne : f ≠ q) : midKind d R ts fs q = none := by
  unfold midKind
  rw [if_neg]
  · split
    · rfl
    · next hno =>
      by_contra hk
      exact hno ⟨f, hf, hfq, cutKind_above hk hfq hne⟩
  · rintro ⟨g, hg, hle, hqg⟩
    have hfg := hapart.eq hf hg (hfq.trans hle)
    subst hfg
    exact hqg (hle.eq_of_length_le hfq.length_le)

theorem midKind_dir_of_file {f a : RelPath} (hf : f ∈ fs) (ha : a <+: f) (hne : a ≠ f) :
    midKind d R ts fs a = some .dir := by
  unfold midKind
  rw [if_pos ⟨f, hf, ha, hne⟩]

/-- One copy more is in place. -/
theorem Moved.move {done : List RelPath} {d₁ : Tree} (h : Moved R d ts fs done K d₁)
    (hapart : Antichain fs) (hfs : ∀ g ∈ fs, SessionPath g) (hdone : ∀ g ∈ done, g ∈ fs)
    {f : RelPath} (hf : f ∈ fs) (hnot : f ∉ done) {k : Entry} (hK : K f = some k) (hk : k ≠ .dir) :
    ∃ d₂, Posix.Sys.rename (inTree R (sidePath "tmp" f)) (inTree R f) d₁ = .ok () d₂ ∧
      Moved R d ts fs (done ++ [f]) K d₂ := by
  have hses := hfs f hf
  have htmp : d₁.kindAt (inTree R (sidePath "tmp" f)) = some k := by rw [h.tmps f hf hnot, hK]
  have hself : d₁.kindAt (inTree R f) = midKind d R ts fs f := by rw [h.plain f hses.plain, if_neg hnot]
  have hnotdir : d₁.kindAt (inTree R f) ≠ some .dir := by rw [hself]; exact midKind_at_file hapart hf
  have hparent : d₁.kindAt (inTree R f).parent = some .dir := by
    obtain ⟨hle, hne⟩ := (prefix_dropLast_iff hses.ne_nil).mp List.prefix_rfl
    rw [inTree_parent, h.plain _ (hses.plain.mono hle), if_neg, midKind_dir_of_file hf hle hne]
    intro hmem
    exact hne (hapart.eq (hdone _ hmem) hf hle)
  have hapart₁ : ¬ inTree R (sidePath "tmp" f) ≤ inTree R f :=
    fun hle => not_plain_of_side (Or.inl rfl) (inTree_le.mp hle) hses.plain
  have hapart₂ : ¬ inTree R f ≤ inTree R (sidePath "tmp" f) :=
    fun hle => not_self_le_side _ hses.ne_nil (inTree_le.mp hle)
  have hfit : Posix.Sys.Fits d₁ k (inTree R f) :=
    ⟨fun hdir => absurd hdir hk, fun _ => hnotdir, Posix.Sys.children_eq_nil d₁ hnotdir⟩
  obtain ⟨d₂, hrun, hshift⟩ := Posix.Sys.rename_ok (s := inTree R (sidePath "tmp" f))
    (t := inTree R f) rfl rfl htmp hparent (sidePath_ne_nil _ _) hses.ne_nil hapart₁ hfit
  -- the copy is no directory, so nothing arrives below it
  have hbelow : ∀ q, f <+: q → f ≠ q → d₂.kindAt (inTree R q) = none := by
    intro q hfq heq
    rw [Disk.kindAt_shift hshift hapart₂, if_pos (inTree_le.mpr hfq)]
    refine Disk.none_below (a := inTree R (sidePath "tmp" f)) ?_ (Loc.le_rebase _ _ _) ?_
    · rw [htmp]
      exact fun hc => hk (Option.some.inj hc)
    · intro hc
      have hback := Loc.rebase_rebase (t := inTree R (sidePath "tmp" f))
        (inTree_le (R := R).mpr hfq)
      rw [← hc, Loc.rebase_self] at hback
      exact inTree_ne.mpr heq hback
  refine ⟨d₂, hrun, ?_, h.same.trans (Disk.sameOn_shift hshift (fun h => h rfl) (fun h => h rfl)),
    ?_, ?_⟩
  · intro q hq
    by_cases hfq : f <+: q
    · by_cases heq : f = q
      · subst heq
        rw [Disk.kindAt_shift hshift hapart₂, if_pos (le_refl _), if_pos (by simp), Loc.rebase_self,
          htmp, hK]
      · have hqdone : q ∉ done := fun hmem => heq (hapart.eq hf (hdone q hmem) hfq)
        have hqf : q ∉ done ++ [f] := by
          intro hmem
          rcases List.mem_append.mp hmem with hmem | hmem
          · exact hqdone hmem
          · exact heq (List.mem_singleton.mp hmem).symm
        rw [hbelow q hfq heq, if_neg hqf, midKind_below_file hapart hf hfq heq]
    · rw [Disk.kindAt_shift hshift hapart₂, if_neg fun hle => hfq (inTree_le.mp hle),
        if_neg fun hle => not_plain_of_side (Or.inl rfl) (inTree_le.mp hle) hq, h.plain q hq]
      have hqf : q ≠ f := fun heq => hfq (heq ▸ List.prefix_rfl)
      simp [hqf]
  · intro g hg hgnot
    have hgf : g ≠ f := fun heq => hgnot (by simp [heq])
    have hgdone : g ∉ done := fun hmem => hgnot (List.mem_append_left _ hmem)
    rw [Disk.kindAt_shift hshift hapart₂, if_neg, if_neg, h.tmps g hg hgdone]
    · intro hle
      exact hgf (sidePath_inj (hfs g hg).ne_nil hses.ne_nil
        (sidePath_not_le (Or.inl rfl) (hfs g hg).plain (inTree_le.mp hle)).symm)
    · intro hle
      exact hgf (hapart.eq hf hg
        ((plain_le_side hses.plain (Or.inl rfl) (inTree_le.mp hle)).trans (List.dropLast_prefix g))).symm
  · intro x hx hkx
    have hfx : ¬ f <+: x := by
      intro hfx
      by_cases heq : f = x
      · exact hx (heq ▸ hses.plain)
      · exact hkx (hbelow x hfx heq)
    rw [Disk.kindAt_shift hshift hapart₂, if_neg fun hle => hfx (inTree_le.mp hle)] at hkx
    by_cases htx : sidePath "tmp" f <+: x
    · rw [if_pos (inTree_le.mpr htx)] at hkx
      exact absurd rfl hkx
    · rw [if_neg fun hle => htx (inTree_le.mp hle)] at hkx
      rcases h.side x hx hkx with h1 | ⟨g, hg, hgnot, hgx⟩ | h3
      · exact Or.inl h1
      · have hgf : g ≠ f := fun heq => htx (heq ▸ hgx)
        exact Or.inr (Or.inl ⟨g, hg, by simp [hgnot, hgf], hgx⟩)
      · exact Or.inr (Or.inr h3)

theorem Moved.start (h : Staged R d ts fs K s) : Moved R d ts fs [] K s.disk where
  plain := by
    intro q hq
    rw [h.plain q hq, if_neg (by simp)]
  same := h.same
  tmps := fun f hf _ => h.tmps f hf
  side := by
    intro x hx hk
    rcases h.side x hx hk with h1 | ⟨f, hf, hfx⟩ | h3
    · exact Or.inl h1
    · exact Or.inr (Or.inl ⟨f, hf, by simp, hfx⟩)
    · exact Or.inr (Or.inr h3)

/-- **The copies are moved into place without failure.** -/
theorem publishCopies_ok (h : Staged R d ts fs K s) (hapart : Antichain fs)
    (hfs : ∀ g ∈ fs, SessionPath g) (hK : ∀ f ∈ fs, ∃ k, K f = some k ∧ k ≠ .dir) :
    ∃ s', (s.work.copies.forM fun c => onStage (Posix.Sys.rename c.1 c.2)) s = .ok () s' ∧
      Moved R d ts fs fs K s'.disk ∧ s'.work = s.work := by
  rw [h.copies, forM_map_apply]
  refine forM_ok (I := fun done (s' : Staging) => Moved R d ts fs done K s'.disk ∧ s'.work = s.work)
    ⟨Moved.start h, rfl⟩ ?_
  intro done f rest t hsplit ⟨hmoved, hwork⟩
  have hf : f ∈ fs := by simp [hsplit]
  have hdone : ∀ g ∈ done, g ∈ fs := fun g hg => by simp [hsplit, hg]
  have hnot : f ∉ done := by
    intro hmem
    have hap : Antichain (done ++ f :: rest) := hsplit ▸ hapart
    exact (hap.apart f hmem).1 List.prefix_rfl
  obtain ⟨k, hk, hkd⟩ := hK f hf
  obtain ⟨d₂, hrun, hmoved₂⟩ := hmoved.move hapart hfs hdone hf hnot hk hkd
  exact ⟨_, onStage_ok hrun, hmoved₂, hwork⟩

/-- What a merge has made of the destination. -/
structure Published (R : Root) (d : Tree) (ts fs : List RelPath) (K : RelPath → Option Entry)
    (d' : Tree) : Prop where
  plain : ∀ q, PlainPath q → d'.kindAt (inTree R q) = pubKind d R ts fs K q
  same : SameOn (fun r => r ≠ some R) d d'

/-- What is left of the trash: none but that of `rest`, apart from what stood there before. -/
def Leftover (R : Root) (d : Tree) (rest : List RelPath) (d' : Tree) : Prop :=
  ∀ x, ¬ PlainPath x → d'.kindAt (inTree R x) ≠ none → d.kindAt (inTree R x) ≠ none ∨
    ∃ t ∈ rest, sidePath "trash" t <+: x

/-- A published file stands above the place of a deletion that has trash. -/
def Stranded (d : Tree) (R : Root) (ts fs : List RelPath) : Prop :=
  ∃ t ∈ trashed d R [] ts, ∃ f ∈ fs, f <+: t ∧ f ≠ t

/-- Above what stood in the destination are directories and published files. -/
theorem pubKind_above (K : RelPath → Option Entry) (ts : List RelPath) {t a : RelPath} (ht : d.kindAt (inTree R t) ≠ none) (ha : a <+: t)
    (hne : a ≠ t) (hnot : a ∉ fs) :
    pubKind d R ts fs K a = none ∨ pubKind d R ts fs K a = some .dir := by
  have hdir : d.kindAt (inTree R a) = some .dir :=
    Disk.dir_above ht (inTree_le.mpr ha) (inTree_ne.mpr hne)
  unfold pubKind midKind cutKind
  rw [if_neg hnot]
  split
  · exact Or.inr rfl
  · split
    · exact Or.inl rfl
    · split
      · exact Or.inl rfl
      · exact Or.inr hdir

/-- The trash of one deletion goes, unless a published file stands above its place. -/
theorem Published.discard {d₁ : Tree} (h : Published R d ts fs K d₁) {t : RelPath}
    (ht : SessionPath t) (hthere : d.kindAt (inTree R t) ≠ none)
    (hfile : ∀ f ∈ fs, f <+: t → f ≠ t → ∃ b, K f = some (.file b)) :
    ((∀ f ∈ fs, f <+: t → f = t) ∧ ∃ d₂, Io.removeEntry (trashOf R t).1 d₁ = .ok () d₂ ∧
      Published R d ts fs K d₂ ∧
      ∀ x, d₂.kindAt (inTree R x) =
        if sidePath "trash" t <+: x then none else d₁.kindAt (inTree R x)) ∨
    ((∃ f ∈ fs, f <+: t ∧ f ≠ t) ∧ ∃ e, Io.removeEntry (trashOf R t).1 d₁ = .error e d₁) := by
  have hparent : (inTree R (sidePath "trash" t)).parent = inTree R t.dropLast := by
    rw [inTree_parent, sidePath_dropLast]
  have habove : ∀ a, a <+: t → a ≠ t → d₁.kindAt (inTree R a) = pubKind d R ts fs K a :=
    fun a ha _ => h.plain a (ht.plain.mono ha)
  have hwalk : ∀ x, x ≤ inTree R (sidePath "trash" t) → x ≠ inTree R (sidePath "trash" t) →
      ∃ a, x = inTree R a ∧ a <+: t ∧ a ≠ t := by
    intro x hx hne
    obtain ⟨a, ha, rfl⟩ := le_inTree.mp hx
    have ha' := (prefix_dropLast_iff (sidePath_ne_nil "trash" t)).mpr ⟨ha, inTree_ne.mp hne⟩
    rw [sidePath_dropLast] at ha'
    obtain ⟨h1, h2⟩ := (prefix_dropLast_iff ht.ne_nil).mp ha'
    exact ⟨a, rfl, h1, h2⟩
  have hlink : d₁.NoLinkAbove (inTree R (sidePath "trash" t)) := by
    refine Disk.noLinkAbove_of fun x hx hne => ?_
    obtain ⟨a, rfl, ha, hat⟩ := hwalk x hx hne
    have hk := habove a ha hat
    by_cases hmem : a ∈ fs
    · obtain ⟨b, hb⟩ := hfile a hmem ha hat
      rw [pubKind, if_pos hmem, hb] at hk
      exact Disk.linkAt_eq_false_of_kind hk rfl
    · rcases pubKind_above K ts hthere ha hat hmem with hp | hp
      · exact Disk.linkAt_of_none (hk.trans hp)
      · exact Disk.linkAt_eq_false_of_kind (hk.trans hp) rfl
  by_cases hdir : d₁.kindAt (inTree R (sidePath "trash" t)).parent = some .dir
  · -- the directory of the trash is still there
    refine Or.inl ⟨?_, ?_⟩
    · intro f hf hft
      by_contra hne
      obtain ⟨b, hb⟩ := hfile f hf hft hne
      have hk := habove f hft hne
      rw [pubKind, if_pos hf, hb] at hk
      rw [hparent] at hdir
      have hle : f <+: t.dropLast := (prefix_dropLast_iff ht.ne_nil).mpr ⟨hft, hne⟩
      by_cases heq : f = t.dropLast
      · rw [← heq, hk] at hdir
        cases hdir
      · rw [Disk.dir_above (a := inTree R f) (by simp [hdir]) (inTree_le.mpr hle)
          (inTree_ne.mpr heq)] at hk
        cases hk
    · obtain ⟨d₂, hrun, hkind, hsame⟩ := removeEntry_clears (l := inTree R (sidePath "trash" t))
        (d := d₁) rfl (sidePath_ne_nil _ _) hdir
      refine ⟨d₂, hrun, ⟨?_, h.same.trans hsame⟩, ?_⟩
      · intro q hq
        rw [hkind, if_neg fun hle => not_plain_of_side (Or.inr rfl) (inTree_le.mp hle) hq,
          h.plain q hq]
      · intro x
        rw [hkind]
        simp only [inTree_le]
  · have hlstat : d₁.lstat (inTree R (sidePath "trash" t)) =
        .error (if d₁.fileAbove (inTree R (sidePath "trash" t)) then .ENOTDIR else .ENOENT) := by
      simp only [Disk.lstat, Disk.realpath_blocked rfl hlink hdir]
    by_cases hfa : d₁.fileAbove (inTree R (sidePath "trash" t)) = true
    · refine Or.inr ⟨?_, .ENOTDIR, ?_⟩
      · obtain ⟨x, hx, hne, hxf⟩ := Disk.fileAbove_iff.mp hfa
        obtain ⟨a, rfl, ha, hat⟩ := hwalk x hx hne
        refine ⟨a, ?_, ha, hat⟩
        by_contra hmem
        have hk := habove a ha hat
        rcases pubKind_above K ts hthere ha hat hmem with hp | hp <;>
          simp [Disk.fileAt, hk, hp, Kind.isFile] at hxf
      · rw [hfa, if_pos rfl] at hlstat
        show Io.removeEntry (inTree R (sidePath "trash" t)) d₁ = _
        simp only [Io.removeEntry, hlstat]
    · refine Or.inl ⟨?_, d₁, ?_, h, ?_⟩
      · intro f hf hft
        by_contra hne
        obtain ⟨b, hb⟩ := hfile f hf hft hne
        refine hfa (Disk.fileAbove_iff.mpr ⟨inTree R f, ?_, ?_, ?_⟩)
        · have hle : f <+: t.dropLast := (prefix_dropLast_iff ht.ne_nil).mpr ⟨hft, hne⟩
          exact inTree_le.mpr (hle.trans (List.prefix_append _ _))
        · exact inTree_ne.mpr (sidePath_ne_of_plain (Or.inr rfl) (ht.plain.mono hft)).symm
        · have hk := habove f hft hne
          rw [pubKind, if_pos hf, hb] at hk
          simp [Disk.fileAt, hk, Kind.isFile]
      · rw [Bool.not_eq_true] at hfa
        rw [hfa] at hlstat
        show Io.removeEntry (inTree R (sidePath "trash" t)) d₁ = _
        simp only [Io.removeEntry, hlstat, Bool.false_eq_true, if_false]
      · intro x
        split
        · next hle =>
          by_contra hk
          exact hdir (Disk.dir_parent fun hn => hk (Disk.none_of_le hn (inTree_le.mpr hle)))
        · rfl

/-- **What was staged is published, or a published file stands above trash.** -/
theorem publish_cases (h : Staged R d ts fs K s) (hapart : Antichain fs)
    (hts : ∀ t ∈ ts, SessionPath t) (hfs : ∀ g ∈ fs, SessionPath g)
    (hK : ∀ f ∈ fs, ∃ k, K f = some k ∧ k ≠ .dir)
    (hfile : ∀ t ∈ ts, ∀ f ∈ fs, f <+: t → f ≠ t → ∀ l, K f ≠ some (.symlink l)) :
    (¬ Stranded d R ts fs ∧ ∃ s', publish s = .ok () s' ∧ Published R d ts fs K s'.disk ∧
      Leftover R d [] s'.disk ∧ s'.work = s.work) ∨
    (Stranded d R ts fs ∧ ∃ e s', publish s = .error e s') := by
  obtain ⟨s₁, hrun₁, hmoved, hwork⟩ := publishCopies_ok h hapart hfs hK
  have hpub : Published R d ts fs K s₁.disk := ⟨hmoved.plain, hmoved.same⟩
  let ds := recorded d R ts fs
  have hleft : Leftover R d ds s₁.disk := by
    intro x hx hk
    rcases hmoved.side x hx hk with h1 | ⟨f, hf, hnot, _⟩ | h3
    · exact Or.inl h1
    · exact absurd hf hnot
    · exact Or.inr h3
  have hpublish : publish s = (ds.forM fun t => onStage (Io.removeEntry (trashOf R t).1)) s₁ := by
    unfold publish
    rw [bind_ok hrun₁, h.deletes, forM_map_apply]
  have hds : ∀ t ∈ ds, SessionPath t ∧ d.kindAt (inTree R t) ≠ none ∧
      ∀ f ∈ fs, f <+: t → f ≠ t → ∃ b, K f = some (.file b) := by
    intro t ht
    rcases List.mem_append.mp ht with ht | ht
    · obtain ⟨hmem, hk⟩ := mem_of_mem_trashed ht
      refine ⟨hts t hmem, hk, ?_⟩
      intro f hf hft hne
      obtain ⟨k, hk, hkd⟩ := hK f hf
      cases k with
      | dir => exact absurd rfl hkd
      | symlink l => exact absurd hk (hfile t hmem f hf hft hne l)
      | file b => exact ⟨b, hk⟩
    · obtain ⟨hmem, hcut⟩ := List.mem_filter.mp ht
      rw [decide_eq_true_eq] at hcut
      refine ⟨hfs t hmem, ?_, ?_⟩
      · unfold cutKind at hcut
        split at hcut
        · cases hcut
        · rw [hcut]
          simp
      · intro f hf hft hne
        exact absurd (hapart.eq hf hmem hft) hne
  have hstart : ∀ rest, ds = [] ++ rest → Leftover R d rest s₁.disk := by
    intro rest hrest
    rw [List.nil_append] at hrest
    exact hrest ▸ hleft
  have hloop := forM_cases (l := ds) (f := fun t => onStage (Io.removeEntry (trashOf R t).1))
    (I := fun done (s' : Staging) => Published R d ts fs K s'.disk ∧
      (∀ rest, ds = done ++ rest → Leftover R d rest s'.disk) ∧ s'.work = s.work)
    (P := fun t => ∀ f ∈ fs, f <+: t → f = t) (s := s₁) ⟨hpub, hstart, hwork⟩ ?_
  · rcases hloop with ⟨hall, s', hrun, hp, hl, hw⟩ | ⟨⟨t, ht, hbad⟩, e, s', hrun⟩
    · refine Or.inl ⟨?_, s', hpublish.trans hrun, hp, hl [] (by simp), hw⟩
      rintro ⟨t, ht, f, hf, hft, hne⟩
      exact hne (hall t (List.mem_append_left _ ht) f hf hft)
    · refine Or.inr ⟨?_, e, s', hpublish.trans hrun⟩
      push Not at hbad
      obtain ⟨f, hf, hft, hne⟩ := hbad
      rcases List.mem_append.mp ht with ht | ht
      · exact ⟨t, ht, f, hf, hft, hne⟩
      · exact absurd (hapart.eq hf (List.mem_filter.mp ht).1 hft) hne
  · intro done t rest s' hsplit _ ⟨hp, hl, hw⟩
    obtain ⟨hses, hthere, hfiles⟩ := hds t (by rw [hsplit]; simp)
    rcases hp.discard hses hthere hfiles with
      ⟨hgood, d₂, hrun, hp₂, hkind⟩ | ⟨⟨f, hf, hft, hne⟩, e, hrun⟩
    · refine Or.inl ⟨hgood, _, onStage_ok hrun, hp₂, ?_, hw⟩
      intro rest' hrest x hx hk
      have hk' : d₂.kindAt (inTree R x) ≠ none := hk
      rw [hkind] at hk'
      split at hk'
      · exact absurd rfl hk'
      · next htx =>
        rcases hl (t :: rest') (by rw [hrest]; simp) x hx hk' with h1 | ⟨u, hu, hux⟩
        · exact Or.inl h1
        · rcases List.mem_cons.mp hu with rfl | hu
          · exact absurd hux htx
          · exact Or.inr ⟨u, hu, hux⟩
    · exact Or.inr ⟨fun hgood => hne (hgood f hf hft), e, _, onStage_error hrun⟩

end

end BranchFs
