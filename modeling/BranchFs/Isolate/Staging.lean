/-
# BranchFs.Isolate.Staging -- a staged merge stays in its tree

The calls of a merge go to the targets, to the side names next to them and to the directories on the
way to both. A link is followed only if it stands on such a way; since a merge moves entries to their
side names and back, what stands below a side name counts as standing below the target itself
(`Sealing`). From there on a merge changes nothing outside the tree it merges into, published or
rolled back.
-/
import BranchFs.Isolate.Frame
import BranchFs.Merge.Stage

namespace BranchFs

open BranchFs.Posix BranchFs.Logic

/-! ## The way to the targets -/

/-- `S` has the ways to the targets `T` in the tree `R`, and does not tell a side name of a target
from the target. -/
structure Sealing (S : Set Place) (R : Root) (T : Set RelPath) : Prop where
  plain : ∀ t ∈ T, PlainPath t
  way : ∀ t ∈ T, ∀ q, q <+: t → q ≠ t → inTree R q ∈ S
  root : inTree R [] ∈ S
  side : ∀ tag, tag = "tmp" ∨ tag = "trash" → ∀ t ∈ T, t ≠ [] → ∀ s,
    inTree R (sidePath tag t ++ s) ∈ S ↔ inTree R (t ++ s) ∈ S

/-- The temporary places of some targets. -/
def tmpPlaces (R : Root) (files : List RelPath) : Set Place :=
  { l | ∃ f ∈ files, l = inTree R (sidePath "tmp" f) }

/-- The work staged so far has its targets in `T`. -/
structure WorkOn (R : Root) (T : Set RelPath) (w : StagedMerge) : Prop where
  copies : ∀ c ∈ w.copies, ∃ f ∈ T, f ≠ [] ∧ c = copyOf R f
  deletes : ∀ c ∈ w.deletes, ∃ t ∈ T, t ≠ [] ∧ c = trashOf R t
  merged : ∀ f ∈ w.merged, f ∈ T

/-- The disk meets the guard, and the work is on the targets. -/
structure Underway (S : Set Place) (R : Root) (T : Set RelPath) (s : Staging) : Prop where
  guard : Guard S s.disk
  work : WorkOn R T s.work

/-- Only the tree `R` changes while a merge is staged. -/
def InsideStage (R : Root) (s s' : Staging) : Prop := Inside (· = some R) s.disk s'.disk

theorem InsideStage.refl (R : Root) (s : Staging) : InsideStage R s s := by
  unfold InsideStage
  exact SameOn.refl _ _

theorem InsideStage.trans {R : Root} (s t u : Staging) (h : InsideStage R s t)
    (h' : InsideStage R t u) : InsideStage R s u := by
  unfold InsideStage at h h' ⊢
  exact h.trans h'

/-! ## The places a merge passes -/

/-- A name without the prefix a merge puts before it. -/
def bareName (n : String) : String :=
  if startsWith n ".branchfs-tmp." then String.ofList (n.toList.drop 14)
  else if startsWith n ".branchfs-trash." then String.ofList (n.toList.drop 16)
  else n

theorem bareName_of_plain {n : String} (h : isSideName n = false) : bareName n = n := by
  unfold isSideName at h
  rw [Bool.or_eq_false_iff] at h
  unfold bareName
  rw [h.1, h.2]
  simp

theorem bareName_tmp (n : String) : bareName (sideName "tmp" n) = n := by
  simp [bareName, startsWith, sideName, String.toList_append, List.isPrefixOf]

theorem bareName_trash (n : String) : bareName (sideName "trash" n) = n := by
  simp [bareName, startsWith, sideName, String.toList_append, List.isPrefixOf]

def barePath (q : RelPath) : RelPath := q.map bareName

theorem barePath_append (p q : RelPath) : barePath (p ++ q) = barePath p ++ barePath q :=
  List.map_append

theorem barePath_of_plain {p : RelPath} (h : PlainPath p) : barePath p = p := by
  unfold barePath
  rw [List.map_congr_left fun n hn => bareName_of_plain (h n hn), List.map_id']

theorem barePath_side {tag : String} (htag : tag = "tmp" ∨ tag = "trash") {p : RelPath}
    (h : PlainPath p) (hne : p ≠ []) : barePath (sidePath tag p) = p := by
  have hlast : bareName (sideName tag (p.getLastD "")) = p.getLastD "" := by
    rcases htag with rfl | rfl
    · exact bareName_tmp _
    · exact bareName_trash _
  unfold sidePath
  rw [barePath_append, barePath_of_plain (h.mono (List.dropLast_prefix p))]
  show p.dropLast ++ [bareName (sideName tag (p.getLastD ""))] = p
  rw [hlast, dropLast_getLastD hne]

/-- The path leads over a way to a target: it is one up to side names, and where it goes through a
side name that is the side name of a target. -/
structure Passes (T : Set RelPath) (q : RelPath) : Prop where
  above : ∃ t ∈ T, barePath q <+: t ∧ barePath q ≠ t
  side : ∀ r n, r ++ [n] <+: q → isSideName n = true → barePath (r ++ [n]) ∈ T

/-- The places of the tree a merge of `T` passes. -/
def wayPlaces (R : Root) (T : Set RelPath) : Set Place :=
  { l | ∃ q, l = inTree R q ∧ (q = [] ∨ Passes T q) }

theorem inTree_mem_wayPlaces {R : Root} {T : Set RelPath} {q : RelPath} :
    inTree R q ∈ wayPlaces R T ↔ q = [] ∨ Passes T q := by
  constructor
  · rintro ⟨q', hq, h⟩
    obtain rfl : q = q' := congrArg Loc.path hq
    exact h
  · exact fun h => ⟨q, rfl, h⟩

theorem prefix_split {r p s : RelPath} {n : String} (h : r ++ [n] <+: p ++ s) :
    r ++ [n] <+: p ∨ ∃ s', r = p ++ s' ∧ s' ++ [n] <+: s := by
  rcases List.prefix_or_prefix_of_prefix h (List.prefix_append p s) with hle | hle
  · exact Or.inl hle
  · rcases List.prefix_concat_iff.mp hle with rfl | ⟨s', rfl⟩
    · exact Or.inl List.prefix_rfl
    · rw [List.append_assoc, List.prefix_append_right_inj] at h
      exact Or.inr ⟨s', rfl, h⟩

/-- Through a side name of a target leads what leads through the target. -/
theorem passes_side {T : Set RelPath} (hplain : ∀ t ∈ T, PlainPath t) {tag : String}
    (htag : tag = "tmp" ∨ tag = "trash") {t : RelPath} (ht : t ∈ T) (hne : t ≠ []) (s : RelPath) :
    Passes T (sidePath tag t ++ s) ↔ Passes T (t ++ s) := by
  have hbare : ∀ s', barePath (sidePath tag t ++ s') = barePath (t ++ s') := by
    intro s'
    rw [barePath_append, barePath_append, barePath_side htag (hplain t ht) hne,
      barePath_of_plain (hplain t ht)]
  have hmove : ∀ {p q : RelPath}, (∀ s', barePath (p ++ s') = barePath (q ++ s')) →
      (∀ r n, r ++ [n] <+: q → isSideName n = true → barePath (r ++ [n]) ∈ T) →
        Passes T (p ++ s) → Passes T (q ++ s) := by
    intro p q heq hq ⟨habove, hside⟩
    rw [heq s] at habove
    refine ⟨habove, fun r n hle hn => ?_⟩
    rcases prefix_split hle with hpre | ⟨s', rfl, hs'⟩
    · exact hq r n hpre hn
    · rw [List.append_assoc, ← heq, ← List.append_assoc]
      refine hside _ n ?_ hn
      rw [List.append_assoc, List.prefix_append_right_inj]
      exact hs'
  constructor
  · refine hmove hbare fun r n hle hn => ?_
    -- a target has no side name
    have hn' := hplain t ht n (hle.subset (by simp))
    rw [hn] at hn'
    cases hn'
  · refine hmove (fun s' => (hbare s').symm) fun r n hle hn => ?_
    -- the one side name of the target's side path is its last
    rcases List.prefix_concat_iff.mp hle with heq | hpre
    · rw [heq]
      show barePath (sidePath tag t) ∈ T
      rw [barePath_side htag (hplain t ht) hne]
      exact ht
    · have hn' := hplain t ht n ((hpre.trans (List.dropLast_prefix t)).subset (by simp))
      rw [hn] at hn'
      cases hn'

/-- **The places passed seal a merge.** -/
theorem sealing_wayPlaces {R : Root} {T : Set RelPath} (hplain : ∀ t ∈ T, PlainPath t) :
    Sealing (wayPlaces R T) R T where
  plain := hplain
  root := inTree_mem_wayPlaces.mpr (Or.inl rfl)
  way := by
    intro t ht q hle hne
    have hq : PlainPath q := (hplain t ht).mono hle
    refine inTree_mem_wayPlaces.mpr (Or.inr ⟨⟨t, ht, ?_⟩, fun r n hr hn => ?_⟩)
    · rw [barePath_of_plain hq]
      exact ⟨hle, hne⟩
    · have hn' := hq n (hr.subset (by simp))
      rw [hn] at hn'
      cases hn'
  side := by
    intro tag htag t ht hne s
    rw [inTree_mem_wayPlaces, inTree_mem_wayPlaces, passes_side hplain htag ht hne]
    have hside : sidePath tag t ++ s ≠ [] := by simp [sidePath]
    simp [hside, hne]

/-- More places, none of them in the tree. -/
theorem Sealing.union {S X : Set Place} {R : Root} {T : Set RelPath} (h : Sealing S R T)
    (hX : ∀ l ∈ X, l.root ≠ some R) : Sealing (S ∪ X) R T where
  plain := h.plain
  way t ht q hle hne := Or.inl (h.way t ht q hle hne)
  root := Or.inl h.root
  side := by
    intro tag htag t ht hne s
    have hout : ∀ q, inTree R q ∉ X := fun q hq => hX _ hq rfl
    simp only [Set.mem_union, hout, or_false]
    exact h.side tag htag t ht hne s

section

variable {S S' : Set Place} {R : Root} {T : Set RelPath} {t f : RelPath} {α : Type}

theorem framed_onStage {x : Io α} (h : Framed (Inside (· = some R)) (Guard S) (Guard S') x) :
    Framed (InsideStage R) (Underway S R T) (Underway S' R T) (onStage x) := by
  intro s hs
  obtain ⟨hsame, hS'⟩ := h s.disk hs.guard
  have hrun : after (onStage x) s = { s with disk := after x s.disk } := by
    unfold after onStage
    cases hx : x s.disk <;> rfl
  rw [hrun]
  exact ⟨hsame, hS', hs.work⟩

theorem framed_record {g : StagedMerge → StagedMerge} {P : Staging → Prop}
    (hg : ∀ w, WorkOn R T w → WorkOn R T (g w)) (hP : ∀ s, P s → Underway S R T s) :
    Framed (InsideStage R) P (Underway S R T) (record g) := fun s hs =>
  ⟨InsideStage.refl R s, (hP s hs).guard, hg _ (hP s hs).work⟩

theorem framed_readStage {P : Staging → Prop} (g : Tree → α) :
    Framed (InsideStage R) P P (readStage g) := framed_read (InsideStage.refl R) fun _ => rfl

theorem framed_stageSeq {β : Type} {P Q U : Staging → Prop} {x : Stage α} {g : α → Stage β}
    (hx : Framed (InsideStage R) P Q x) (hg : ∀ a, Framed (InsideStage R) Q U (g a))
    (hU : ∀ s, Q s → U s) : Framed (InsideStage R) P U (x >>= g) :=
  framed_bind (R := InsideStage R) (fun s u v => InsideStage.trans s u v) hx
    (fun a _ _ _ _ => hg a) hU

/-- The way to a target, or to a side name of it. -/
theorem Sealing.wayIn (h : Sealing S R T) (ht : t ∈ T) : WayIn S (inTree R t) := by
  rintro ⟨r, a⟩ ⟨hr, ha⟩ hne
  obtain rfl : r = some R := hr
  exact h.way t ht a ha fun heq => hne (by rw [heq]; rfl)

theorem Sealing.wayIn_side (h : Sealing S R T) (ht : t ∈ T) (tag : String) :
    WayIn S (inTree R (sidePath tag t)) := by
  rintro ⟨r, a⟩ ⟨hr, hle⟩ hne
  obtain rfl : r = some R := hr
  have ha : a <+: t.dropLast ++ [sideName tag (t.getLastD "")] := hle
  rcases List.prefix_concat_iff.mp ha with heq | hpre
  · subst heq
    exact absurd rfl hne
  · by_cases hnil : t = []
    · subst hnil
      rw [List.dropLast_nil, List.prefix_nil] at hpre
      subst hpre
      exact h.root
    · refine h.way t ht a (hpre.trans (List.dropLast_prefix t)) ?_
      rintro rfl
      have hle := hpre.length_le
      have hpos := List.length_pos_iff.mpr hnil
      rw [List.length_dropLast] at hle
      omega

/-- The root of a tree is moved nowhere. -/
theorem rename_root (R : Root) (q : RelPath) (hq : q ≠ []) (d : Tree)
    (hway : d.NoLinkAbove (inTree R q)) :
    ∃ e, Posix.Sys.rename (inTree R []) (inTree R q) d = .error e d := by
  have hroot : ∀ p, (inTree R p).root = some R := fun _ => rfl
  rcases Posix.Sys.rename_cases (d := d) (hroot []) (hroot q) (Disk.noLinkAbove_of_dir (Disk.kindAt_root d rfl)) hway with h | ⟨heq, -⟩ | h
  · exact h
  · exact absurd (congrArg Loc.path heq).symm hq
  · obtain ⟨_, _, _, _, hnle, _⟩ := h
    exact absurd ⟨rfl, List.nil_prefix⟩ hnle

/-- Moving a target to its trash carries no link over a way, nor to a temporary place. -/
theorem Sealing.framed_aside (h : Sealing S R T) (ht : t ∈ T) (hne : t ≠ []) {rest : List RelPath}
    (hrest : ∀ g ∈ rest, g ∈ T) :
    Framed (Inside (· = some R)) (Guard (S ∪ tmpPlaces R rest)) (Guard (S ∪ tmpPlaces R rest))
      (Posix.Sys.rename (inTree R t) (inTree R (sidePath "trash" t))) := by
  refine Posix.Sys.framed_rename rfl rfl rfl rfl ((h.wayIn ht).mono Set.subset_union_left)
    ((h.wayIn_side ht "trash").mono Set.subset_union_left) fun x hx => ⟨hx, ?_⟩
  rintro ⟨hr, s, hs⟩
  obtain rfl : x = inTree R (sidePath "trash" t ++ s) := Loc.ext' hr.symm hs.symm
  have hback : Loc.rebase (inTree R (sidePath "trash" t)) (inTree R t)
      (inTree R (sidePath "trash" t ++ s)) = inTree R (t ++ s) := by
    simp [Loc.rebase, inTree]
  rw [hback]
  rcases hx with hx | ⟨g, hg, hx⟩
  · exact Or.inl ((h.side "trash" (Or.inr rfl) t ht hne s).mp hx)
  · -- a temporary place is not below a trash name
    have hpath : sidePath "trash" t ++ s = sidePath "tmp" g := congrArg Loc.path hx
    have hle : sidePath "trash" t <+: sidePath "tmp" g := ⟨s, hpath⟩
    exact absurd (sidePath_not_le (Or.inr rfl) (h.plain g (hrest g hg)) hle).symm tmp_ne_trash

/-- Moving a side name back to its target carries no link over a way. -/
theorem Sealing.framed_back (h : Sealing S R T) {tag : String} (htag : tag = "tmp" ∨ tag = "trash")
    (ht : t ∈ T) (hne : t ≠ []) :
    Framed (Inside (· = some R)) (Guard S) (Guard S)
      (Posix.Sys.rename (inTree R (sidePath tag t)) (inTree R t)) := by
  refine Posix.Sys.framed_rename rfl rfl rfl rfl (h.wayIn_side ht tag) (h.wayIn ht) fun x hx =>
    ⟨hx, ?_⟩
  rintro ⟨hr, s, hs⟩
  obtain rfl : x = inTree R (t ++ s) := Loc.ext' hr.symm hs.symm
  have hback : Loc.rebase (inTree R t) (inTree R (sidePath tag t)) (inTree R (t ++ s)) =
      inTree R (sidePath tag t ++ s) := by
    simp [Loc.rebase, inTree]
  rw [hback]
  exact (h.side tag htag t ht hne s).mpr hx

/-! ## Staging -/

theorem WorkOn.record_delete {w : StagedMerge} (hw : WorkOn R T w) (ht : t ∈ T) (hne : t ≠ []) :
    WorkOn R T { w with deletes := w.deletes ++ [trashOf R t] } where
  copies := hw.copies
  merged := hw.merged
  deletes := by
    intro c hc
    rcases List.mem_append.mp hc with hc | hc
    · exact hw.deletes c hc
    · exact ⟨t, ht, hne, List.mem_singleton.mp hc⟩

theorem WorkOn.record_copy {w : StagedMerge} (hw : WorkOn R T w) (hf : f ∈ T) (hne : f ≠ [])
    (bytes : UInt64) :
    WorkOn R T { w with copies := w.copies ++ [copyOf R f], merged := w.merged ++ [f],
                        bytes := bytes } where
  deletes := hw.deletes
  copies := by
    intro c hc
    rcases List.mem_append.mp hc with hc | hc
    · exact hw.copies c hc
    · exact ⟨f, hf, hne, List.mem_singleton.mp hc⟩
  merged := by
    intro g hg
    rcases List.mem_append.mp hg with hg | hg
    · exact hw.merged g hg
    · exact List.mem_singleton.mp hg ▸ hf

theorem framed_trashEntry (h : Sealing S R T) (ht : t ∈ T) {rest : List RelPath}
    (hrest : ∀ g ∈ rest, g ∈ T) :
    Framed (InsideStage R) (Underway (S ∪ tmpPlaces R rest) R T)
      (Underway (S ∪ tmpPlaces R rest) R T) (trashEntry (inTree R t)) := by
  have hside : WayIn (S ∪ tmpPlaces R rest) (inTree R (sidePath "trash" t)) :=
    (h.wayIn_side ht "trash").mono Set.subset_union_left
  refine framed_stageSeq (framed_onStage (framed_attempt (framed_removeEntry rfl rfl hside)))
    (fun _ => ?_) fun _ h => h
  show Framed _ _ _ (onStage (Posix.Sys.rename (inTree R t) (inTree R (sidePath "trash" t))) >>= _)
  by_cases hne : t = []
  · -- the root stays, so nothing is recorded
    subst hne
    intro s hs
    obtain ⟨e, he⟩ := rename_root R _ (sidePath_ne_nil "trash" []) s.disk (hs.guard.noLinkAbove hside)
    rw [after_error (bind_error (onStage_error he))]
    exact ⟨InsideStage.refl R s, hs⟩
  · refine framed_stageSeq (framed_onStage (h.framed_aside ht hne hrest)) (fun _ => ?_) fun _ h => h
    exact framed_record (fun w hw => hw.record_delete ht hne) fun _ h => h

theorem framed_stageDelete (h : Sealing S R T) (ht : t ∈ T) {rest : List RelPath}
    (hrest : ∀ g ∈ rest, g ∈ T) :
    Framed (InsideStage R) (Underway (S ∪ tmpPlaces R rest) R T)
      (Underway (S ∪ tmpPlaces R rest) R T) (stageDelete (inTree R t)) :=
  framed_stageSeq (framed_readStage _) (fun _ => framed_when (InsideStage.refl R) _ fun _ =>
    framed_trashEntry h ht hrest) fun _ h => h

/-- A target on the way to another one is no link, and neither is what is copied there. -/
def Unlinked (S : Set Place) (R : Root) (f : RelPath) (src : Place) : Prop :=
  inTree R f ∈ S → (∃ r, src.root = some r) ∧ ∀ a, a ≤ src → a ∈ S

theorem framed_copyAside (h : Sealing S R T) (hf : f ∈ T) (hne : f ≠ []) {rest : List RelPath}
    (hrest : ∀ g ∈ rest, g ∈ T ∧ g ≠ []) (hnew : f ∉ rest) {src : Place} (hsrc : Unlinked S R f src) :
    Framed (InsideStage R) (Underway (S ∪ tmpPlaces R (f :: rest)) R T)
      (Underway (S ∪ tmpPlaces R rest) R T) (copyAside f src (inTree R f)) := by
  have hsub : S ∪ tmpPlaces R rest ⊆ S ∪ tmpPlaces R (f :: rest) := by
    refine Set.union_subset_union_right S ?_
    rintro x ⟨g, hg, rfl⟩
    exact ⟨g, List.mem_cons_of_mem f hg, rfl⟩
  have hin : inTree R (sidePath "tmp" f) ∈ S ∪ tmpPlaces R (f :: rest) :=
    Or.inr ⟨f, List.mem_cons_self, rfl⟩
  have hcopy : Framed (Inside (· = some R)) (Guard (S ∪ tmpPlaces R (f :: rest)))
      (Guard (S ∪ tmpPlaces R rest)) (Io.copyEntry src (inTree R (sidePath "tmp" f))) := by
    refine framed_copyEntry (W := (· = some R)) rfl rfl ((h.wayIn_side hf "tmp").mono Set.subset_union_left) hin hsub ?_
    rintro (hmem | ⟨g, hg, heq⟩)
    · have hseal := h.side "tmp" (Or.inl rfl) f hf hne []
      rw [List.append_nil, List.append_nil] at hseal
      obtain ⟨hroot, hall⟩ := hsrc (hseal.mp hmem)
      exact ⟨hroot, fun a ha => Or.inl (hall a ha)⟩
    · -- the temporary places of two targets are two places
      obtain ⟨hgT, hgne⟩ := hrest g hg
      have hpath : sidePath "tmp" f = sidePath "tmp" g := congrArg Loc.path heq
      rw [sidePath_inj hne hgne hpath] at hnew
      exact absurd hg hnew
  show Framed _ _ _ (onStage (Io.copyEntry src (inTree R (sidePath "tmp" f))) >>= _)
  refine framed_stageSeq (framed_onStage hcopy) (fun _ => ?_) fun _ h => h
  refine framed_stageSeq (framed_readStage _) (fun len => ?_) fun _ h => h
  exact framed_record (fun w hw => hw.record_copy hf hne _) fun _ h => h

theorem framed_stageCopy (h : Sealing S R T) (hf : f ∈ T) (hne : f ≠ []) {rest : List RelPath}
    (hrest : ∀ g ∈ rest, g ∈ T ∧ g ≠ []) (hnew : f ∉ rest) {src : Place} (hsrc : Unlinked S R f src) :
    Framed (InsideStage R) (Underway (S ∪ tmpPlaces R (f :: rest)) R T)
      (Underway (S ∪ tmpPlaces R rest) R T) (stageCopy (inTree R) f src) := by
  have hdelete : Framed (InsideStage R) (Underway (S ∪ tmpPlaces R (f :: rest)) R T)
      (Underway (S ∪ tmpPlaces R (f :: rest)) R T) (stageDelete (inTree R f)) := by
    refine framed_stageDelete h hf fun g hg => ?_
    rcases List.mem_cons.mp hg with rfl | hg
    · exact hf
    · exact (hrest g hg).1
  have hlose : ∀ s, Underway (S ∪ tmpPlaces R (f :: rest)) R T s →
      Underway (S ∪ tmpPlaces R rest) R T s := by
    refine fun s hs => ⟨hs.guard.mono (Set.union_subset_union_right S ?_), hs.work⟩
    rintro x ⟨g, hg, rfl⟩
    exact ⟨g, List.mem_cons_of_mem f hg, rfl⟩
  refine framed_stageSeq (framed_readStage _) (fun isDir => ?_) hlose
  refine framed_stageSeq (framed_when (InsideStage.refl R) _ fun _ => hdelete) (fun _ => ?_) hlose
  exact framed_copyAside h hf hne hrest hnew hsrc

/-- The copies of a commit, each using up the temporary place it was promised. -/
theorem framed_stageCopies (h : Sealing S R T) (r : Report) :
    ∀ files : List (RelPath × Place), (∀ f ∈ files, f.1 ∈ T ∧ f.1 ≠ []) →
      (files.map Prod.fst).Nodup → (∀ f ∈ files, Unlinked S R f.1 (r.sourceOf f)) →
        Framed (InsideStage R) (Underway (S ∪ tmpPlaces R (files.map Prod.fst)) R T)
          (Underway S R T) (stageCopies (inTree R) r files) := by
  intro files
  induction files with
  | nil =>
    intro _ _ _
    refine framed_pure (InsideStage.refl R) (fun s hs => ?_) _
    exact ⟨hs.guard.mono Set.subset_union_left, hs.work⟩
  | cons f rest ih =>
    intro hT hnodup hsrc
    rw [List.map_cons, List.nodup_cons] at hnodup
    have hrest : ∀ g ∈ rest.map Prod.fst, g ∈ T ∧ g ≠ [] := by
      rintro g hg
      obtain ⟨x, hx, rfl⟩ := List.mem_map.mp hg
      exact hT x (List.mem_cons_of_mem f hx)
    obtain ⟨hf, hne⟩ := hT f List.mem_cons_self
    show Framed _ _ _ (stageCopy (inTree R) f.1 (r.sourceOf f) >>= fun _ =>
      stageCopies (inTree R) r rest)
    refine framed_stageSeq (framed_stageCopy h hf hne hrest hnodup.1 (hsrc f List.mem_cons_self))
      (fun _ => ih (fun x hx => hT x (List.mem_cons_of_mem f hx)) hnodup.2
        fun x hx => hsrc x (List.mem_cons_of_mem f hx)) ?_
    exact fun s hs => ⟨hs.guard.mono Set.subset_union_left, hs.work⟩

/-! ## Publishing and rolling back -/

theorem framed_publish (h : Sealing S R T) :
    Framed (InsideStage R) (Underway S R T) (Underway S R T) publish := by
  refine framed_at fun s hs => ?_
  have hcopies : Framed (InsideStage R) (Underway S R T) (Underway S R T)
      (s.work.copies.forM fun c => onStage (Posix.Sys.rename c.1 c.2)) := by
    refine framed_forM (InsideStage.refl R) (InsideStage.trans) _ fun c hc => ?_
    obtain ⟨f, hf, hne, rfl⟩ := hs.work.copies c hc
    exact framed_onStage (h.framed_back (Or.inl rfl) hf hne)
  have hdeletes : Framed (InsideStage R) (Underway S R T) (Underway S R T)
      (s.work.deletes.forM fun t => onStage (Io.removeEntry t.1)) := by
    refine framed_forM (InsideStage.refl R) (InsideStage.trans) _ fun c hc => ?_
    obtain ⟨t, ht, hne, rfl⟩ := hs.work.deletes c hc
    exact framed_onStage (framed_removeEntry rfl rfl (h.wayIn_side ht "trash"))
  rintro t rfl
  exact (framed_stageSeq hcopies (fun _ => hdeletes) fun _ h => h) t hs

/-- **A roll-back stays in the tree.** -/
theorem rollback_inside (h : Sealing S R T) {s : Staging} (hs : Underway S R T s) :
    Inside (· = some R) s.disk (rollback s) ∧ Guard S (rollback s) := by
  have hstep : ∀ s t u : Tree, Inside (· = some R) s t → Inside (· = some R) t u →
      Inside (· = some R) s u := fun _ _ _ h h' => h.trans h'
  have hidle : ∀ a : Except Errno Unit, Framed (Inside (· = some R)) (Guard S) (Guard S)
      (pure () : Io Unit) := fun _ => framed_pure (fun d => SameOn.refl _ d) (fun _ h => h) _
  have hcopies : Framed (Inside (· = some R)) (Guard S) (Guard S)
      (s.work.copies.forM fun c => do let _ ← attempt (Io.removeEntry c.1) : Io Unit) := by
    refine framed_forM (fun d => SameOn.refl _ d) hstep _ fun c hc => ?_
    obtain ⟨f, hf, hne, rfl⟩ := hs.work.copies c hc
    exact framed_bind hstep (framed_attempt (framed_removeEntry rfl rfl (h.wayIn_side hf "tmp")))
      (fun a _ _ _ _ => hidle a) fun _ h => h
  have hdeletes : Framed (Inside (· = some R)) (Guard S) (Guard S)
      (s.work.deletes.forM fun t => do let _ ← attempt (Posix.Sys.rename t.1 t.2) : Io Unit) := by
    refine framed_forM (fun d => SameOn.refl _ d) hstep _ fun c hc => ?_
    obtain ⟨t, ht, hne, rfl⟩ := hs.work.deletes c hc
    exact framed_bind hstep (framed_attempt (h.framed_back (Or.inr rfl) ht hne))
      (fun a _ _ _ _ => hidle a) fun _ h => h
  exact (framed_bind hstep hcopies (fun _ _ _ _ _ => hdeletes) fun _ h => h) s.disk hs.guard

/-- What a staged merge answers is what its body answered, and the copies it made. -/
theorem runStaged_answer (h : Sealing S R T) {body : Stage α}
    (hbody : Framed (InsideStage R) (Underway S' R T) (Underway S R T) body) {d d' : Tree}
    (hd : Guard S' d) {a : α} {merged : List RelPath} (hok : runStaged body d = .ok (a, merged) d') :
    (∃ s, body (Staging.start d) = .ok a s) ∧ ∀ f ∈ merged, f ∈ T := by
  have hstart : Underway S' R T (Staging.start d) :=
    ⟨hd, by simp [Staging.start], by simp [Staging.start], by simp [Staging.start]⟩
  obtain ⟨-, hs⟩ := hbody _ hstart
  unfold runStaged at hok
  cases hrun : body (Staging.start d) with
  | error e s => simp [hrun] at hok
  | ok b s =>
    rw [after_ok hrun] at hs
    have hs' := (framed_publish h s hs).2
    cases hp : publish s with
    | error e s' => simp [hrun, hp] at hok
    | ok u s' =>
      rw [after_ok hp] at hs'
      simp only [hrun, hp, EStateM.Result.ok.injEq, Prod.mk.injEq] at hok
      obtain ⟨⟨rfl, rfl⟩, -⟩ := hok
      exact ⟨⟨s, rfl⟩, hs'.work.merged⟩

/-- **A staged merge stays in the tree**, whether it is published or rolled back. -/
theorem framed_runStaged (h : Sealing S R T) {body : Stage α}
    (hbody : Framed (InsideStage R) (Underway S' R T) (Underway S R T) body) :
    Framed (Inside (· = some R)) (Guard S') (Guard S) (runStaged body) := by
  intro d hd
  have hstart : Underway S' R T (Staging.start d) :=
    ⟨hd, by simp [Staging.start], by simp [Staging.start], by simp [Staging.start]⟩
  obtain ⟨hin, hs⟩ := hbody _ hstart
  unfold InsideStage at hin
  cases hrun : body (Staging.start d) with
  | error e s =>
    rw [after_error hrun] at hin hs
    obtain ⟨hback, hguard⟩ := rollback_inside h hs
    have hafter : after (runStaged body) d = rollback s := by
      simp only [after, runStaged, hrun]
    rw [hafter]
    exact ⟨hin.trans hback, hguard⟩
  | ok a s =>
    rw [after_ok hrun] at hin hs
    obtain ⟨hpub, hs'⟩ := framed_publish h s hs
    unfold InsideStage at hpub
    cases hp : publish s with
    | error e s' =>
      rw [after_error hp] at hpub hs'
      obtain ⟨hback, hguard⟩ := rollback_inside h hs'
      have hafter : after (runStaged body) d = rollback s' := by
        simp only [after, runStaged, hrun, hp]
      rw [hafter]
      exact ⟨(hin.trans hpub).trans hback, hguard⟩
    | ok u s' =>
      rw [after_ok hp] at hpub hs'
      have hafter : after (runStaged body) d = s'.disk := by
        simp only [after, runStaged, hrun, hp]
      rw [hafter]
      exact ⟨hin.trans hpub, hs'.guard⟩

end

end BranchFs
