/-
# BranchFs.Merge.Stage -- what staging leaves of the destination

A staged deletion moves its entry to the trash name next to it, a staged copy makes the directories
on the way and the copy under the temporary name. On plain paths the destination is then given by
`midKind`: the directories of the copies, nothing at or below a deletion or a directory that a copy
replaces, and the destination as it was for the rest. `Staged` carries this through the two loops of
a commit, together with where the copies and the trash are.
-/
import BranchFs.Merge.Side
import BranchFs.Cow.Ensure
import BranchFs.Logic.Overlay

namespace BranchFs

open BranchFs.Posix BranchFs.Logic

/-! ## Removing an entry -/

/-- `remove_entry` in a directory that is there clears the place, whatever stands there. -/
theorem removeEntry_clears {d : Tree} {l : Place} {r : Root} (hr : l.root = some r)
    (hne : l.path ≠ []) (hp : d.kindAt l.parent = some .dir) :
    ∃ d', Io.removeEntry l d = .ok () d' ∧
      (∀ x, d'.kindAt x = if l ≤ x then none else d.kindAt x) ∧
      SameOn (fun s => s ≠ l.root) d d' := by
  cases hg : d.get l with
  | none =>
    have hl : d.lstat l = .error .ENOENT := by
      simp only [Disk.lstat, Disk.realpath_of_dir hr hp, hg]
    refine ⟨d, by simp only [Io.removeEntry, hl], ?_, SameOn.refl _ d⟩
    intro x
    split
    · next hle => exact Disk.none_of_le ((Disk.get_none_iff d l).mp hg) hle
    · rfl
  | some n =>
    have hl : d.lstat l = .ok n := by
      simp only [Disk.lstat, Disk.realpath_of_dir hr hp, hg]
    have hk : d.kindAt l = some n.kind := Disk.kindAt_of_get hg
    refine ⟨d.cut l, ?_, Disk.kindAt_cut d hne, Disk.sameOn_cut d hne (by simp)⟩
    by_cases hdir : n.kind = .dir
    · have hrun := Posix.Sys.removeDirAll_ok (d := d) hr hne (by rw [hk, hdir])
      simp only [Io.removeEntry, hl, hdir, Kind.isDir, if_true, hrun]
    · have hrun := Posix.Sys.removeFile_ok (d := d) hr hk hdir
      have hnd : n.kind.isDir = false := by
        rw [Bool.eq_false_iff]
        exact fun h => hdir (Kind.isDir_iff.mp h)
      simp only [Io.removeEntry, hl, hnd, Bool.false_eq_true, if_false, hrun]

/-! ## Steps of the stage -/

theorem onStage_ok {α : Type} {x : Io α} {s : Staging} {a : α} {d : Tree} (h : x s.disk = .ok a d) :
    onStage x s = .ok a { s with disk := d } := by
  simp only [onStage, h]

theorem onStage_error {α : Type} {x : Io α} {s : Staging} {e : Errno} {d : Tree}
    (h : x s.disk = .error e d) : onStage x s = .error e { s with disk := d } := by
  simp only [onStage, h]

theorem readStage_bind {α β : Type} (f : Tree → α) (g : α → Stage β) (s : Staging) :
    (readStage f >>= g) s = g (f s.disk) s := rfl

/-- The trash of a path, with where it came from. -/
def trashOf (R : Root) (t : RelPath) : Place × Place := (inTree R (sidePath "trash" t), inTree R t)

/-- The copy of a path, with where it goes. -/
def copyOf (R : Root) (f : RelPath) : Place × Place := (inTree R (sidePath "tmp" f), inTree R f)

/-- What moving an entry to its trash name does to the disk. -/
structure Trashed (R : Root) (t : RelPath) (d d' : Tree) : Prop where
  same : SameOn (fun r => r ≠ some R) d d'
  kind : ∀ x, d'.kindAt x =
    if inTree R (sidePath "trash" t) ≤ x then
      d.kindAt (Loc.rebase (inTree R (sidePath "trash" t)) (inTree R t) x)
    else if inTree R t ≤ x then none else d.kindAt x

theorem Trashed.plain {R : Root} {t : RelPath} {d d' : Tree} (h : Trashed R t d d') {q : RelPath}
    (hq : PlainPath q) :
    d'.kindAt (inTree R q) = if t <+: q then none else d.kindAt (inTree R q) := by
  rw [h.kind, if_neg fun hle => not_plain_of_side (Or.inr rfl) (inTree_le.mp hle) hq]
  simp only [inTree_le]

theorem Trashed.tmp {R : Root} {t p : RelPath} {d d' : Tree} (h : Trashed R t d d')
    (hp : PlainPath p) :
    d'.kindAt (inTree R (sidePath "tmp" p)) =
      if t <+: sidePath "tmp" p then none else d.kindAt (inTree R (sidePath "tmp" p)) := by
  rw [h.kind, if_neg fun hle => ?_]
  · simp only [inTree_le]
  · exact tmp_ne_trash (sidePath_not_le (Or.inr rfl) hp (inTree_le.mp hle)).symm

/-- **A deletion is staged without failure**: an entry that is there goes to the trash. -/
theorem stageDelete_ok {R : Root} {t : RelPath} {s : Staging} (hne : t ≠ [])
    (hlink : s.disk.NoLinkAbove (inTree R t)) :
    (s.disk.kindAt (inTree R t) = none ∧ stageDelete (inTree R t) s = .ok () s) ∨
    (s.disk.kindAt (inTree R t) ≠ none ∧ ∃ d, Trashed R t s.disk d ∧
      stageDelete (inTree R t) s =
        .ok () ⟨d, { s.work with deletes := s.work.deletes ++ [trashOf R t] }⟩) := by
  have hex := Disk.lexists_eq (d := s.disk) (l := inTree R t) rfl hlink
  by_cases hk : s.disk.kindAt (inTree R t) = none
  · refine Or.inl ⟨hk, ?_⟩
    have hno : ¬ s.disk.lexists (inTree R t) = true := fun h => hex.mp h hk
    rw [stageDelete, readStage_bind, when_false hno]
    rfl
  · refine Or.inr ⟨hk, ?_⟩
    obtain ⟨k, hkind⟩ := Option.ne_none_iff_exists'.mp hk
    have hparent : s.disk.kindAt (inTree R t).parent = some .dir := Disk.dir_parent hk
    let trash := inTree R (sidePath "trash" t)
    have htrash : s.disk.kindAt trash.parent = some .dir := by
      have heq : trash.parent = (inTree R t).parent := by
        rw [inTree_parent, inTree_parent, sidePath_dropLast]
      rw [heq, hparent]
    obtain ⟨d₁, hd₁, hk₁, hsame₁⟩ :=
      removeEntry_clears (l := trash) (d := s.disk) rfl (sidePath_ne_nil _ _) htrash
    have hapart : ¬ trash ≤ inTree R t := fun h => not_side_le_self _ hne (inTree_le.mp h)
    have hapart' : ¬ inTree R t ≤ trash :=
      fun h => not_self_le_side _ hne (inTree_le.mp h)
    have hkt : d₁.kindAt (inTree R t) = some k := by rw [hk₁, if_neg hapart, hkind]
    have hfree : d₁.kindAt trash = none := by rw [hk₁, if_pos (le_refl _)]
    have hpar₁ : d₁.kindAt trash.parent = some .dir := by
      rw [hk₁, if_neg, htrash]
      intro hle
      exact Loc.parent_ne (sidePath_ne_nil _ _) (le_antisymm (Loc.parent_le _) hle)
    have hfit : Posix.Sys.Fits d₁ k trash :=
      ⟨fun _ => Or.inl hfree, fun _ => by simp [hfree], Posix.Sys.children_eq_nil d₁ (by simp [hfree])⟩
    obtain ⟨d₂, hd₂, hshift⟩ := Posix.Sys.rename_ok (s := inTree R t) (t := trash) rfl rfl hkt hpar₁
      hne (sidePath_ne_nil _ _) hapart' hfit
    refine ⟨d₂, ⟨?_, ?_⟩, ?_⟩
    · exact hsame₁.trans (Disk.sameOn_shift hshift (fun h => h rfl) (fun h => h rfl))
    · intro x
      rw [Disk.kindAt_shift hshift hapart]
      by_cases hx : trash ≤ x
      · rw [if_pos hx, if_pos hx, hk₁, if_neg]
        intro hle
        exact hapart' ((Loc.le_total_of_le (Loc.le_rebase trash (inTree R t) x) hle).elim id
          fun h => absurd h hapart)
      · rw [if_neg hx, if_neg hx, hk₁, if_neg hx]
    · have hyes : s.disk.lexists (inTree R t) = true := hex.mpr hk
      have hattempt : attempt (Io.removeEntry trash) s.disk = .ok (.ok ()) d₁ := by
        simp only [attempt, hd₁]
      rw [stageDelete, readStage_bind, when_true hyes, trashEntry, commitSidePath_inTree,
        bind_ok (onStage_ok hattempt)]
      show (onStage (Posix.Sys.rename (inTree R t) trash) >>= _) { s with disk := d₁ } = _
      rw [bind_ok (onStage_ok hd₂)]
      rfl

/-! ## The destination while the merge is staged -/

/-- The destination without what stands at or below the deletions. -/
def cutKind (d : Tree) (R : Root) (ts : List RelPath) (q : RelPath) : Option Entry :=
  if ∃ t ∈ ts, t <+: q then none else d.kindAt (inTree R q)

/-- The destination with the deletions made and the copies staged. -/
def midKind (d : Tree) (R : Root) (ts fs : List RelPath) (q : RelPath) : Option Entry :=
  if ∃ f ∈ fs, q <+: f ∧ q ≠ f then some .dir
  else if ∃ f ∈ fs, f <+: q ∧ cutKind d R ts f = some .dir then none
  else cutKind d R ts q

/-- The deletions that find something, in order. -/
def trashed (d : Tree) (R : Root) : (done : List RelPath) → List RelPath → List RelPath
  | _, [] => []
  | done, t :: rest =>
    (if cutKind d R done t = none then [] else [t]) ++ trashed d R (done ++ [t]) rest

theorem trashed_append (d : Tree) (R : Root) (done ts : List RelPath) (t : RelPath) :
    trashed d R done (ts ++ [t]) =
      trashed d R done ts ++ if cutKind d R (done ++ ts) t = none then [] else [t] := by
  induction ts generalizing done with
  | nil => simp [trashed]
  | cons u ts ih =>
    rw [List.cons_append, trashed, trashed, ih]
    simp

theorem mem_of_mem_trashed {d : Tree} {R : Root} {t : RelPath} :
    ∀ {done ts : List RelPath}, t ∈ trashed d R done ts →
      t ∈ ts ∧ d.kindAt (inTree R t) ≠ none := by
  intro done ts
  induction ts generalizing done with
  | nil => intro h; cases h
  | cons u ts ih =>
    intro h
    rw [trashed, List.mem_append] at h
    rcases h with h | h
    · split at h
      · cases h
      · next hc =>
        rw [List.mem_singleton] at h
        subst h
        refine ⟨List.mem_cons_self .., ?_⟩
        unfold cutKind at hc
        split at hc
        · exact absurd rfl hc
        · exact hc
    · obtain ⟨hm, hk⟩ := ih h
      exact ⟨List.mem_cons_of_mem _ hm, hk⟩

/-- A deletion that finds something is recorded, unless one above it came first. -/
theorem mem_trashed {d : Tree} {R : Root} {t : RelPath} (hk : d.kindAt (inTree R t) ≠ none) :
    ∀ {done ts : List RelPath}, t ∈ ts → (∀ u ∈ done, ¬ u <+: t) →
      (∀ u ∈ ts, u <+: t → u = t) → t ∈ trashed d R done ts := by
  intro done ts
  induction ts generalizing done with
  | nil => intro h; cases h
  | cons u ts ih =>
    intro hmem hdone hts
    rw [trashed, List.mem_append]
    by_cases hut : u = t
    · subst hut
      left
      rw [if_neg]
      · exact List.mem_singleton.mpr rfl
      · unfold cutKind
        rwa [if_neg]
        rintro ⟨v, hv, hle⟩
        exact hdone v hv hle
    · right
      refine ih ?_ ?_ fun v hv => hts v (List.mem_cons_of_mem u hv)
      · exact (List.mem_cons.mp hmem).resolve_left fun h => hut h.symm
      · intro v hv
        rcases List.mem_append.mp hv with hv | hv
        · exact hdone v hv
        · rw [List.mem_singleton] at hv
          subst hv
          exact fun hle => hut (hts v (List.mem_cons_self ..) hle)

theorem cutKind_nil (d : Tree) (R : Root) (q : RelPath) : cutKind d R [] q = d.kindAt (inTree R q) := by
  simp [cutKind]

theorem midKind_nil (d : Tree) (R : Root) (ts : List RelPath) (q : RelPath) :
    midKind d R ts [] q = cutKind d R ts q := by
  simp [midKind]

theorem cutKind_append (d : Tree) (R : Root) (ts : List RelPath) (t q : RelPath) :
    cutKind d R (ts ++ [t]) q = if t <+: q then none else cutKind d R ts q := by
  unfold cutKind
  by_cases ht : t <+: q
  · rw [if_pos ht, if_pos ⟨t, by simp, ht⟩]
  · rw [if_neg ht]
    refine if_congr ?_ rfl rfl
    constructor
    · rintro ⟨u, hu, hle⟩
      rcases List.mem_append.mp hu with hu | hu
      · exact ⟨u, hu, hle⟩
      · rw [List.mem_singleton] at hu
        exact absurd (hu ▸ hle) ht
    · rintro ⟨u, hu, hle⟩
      exact ⟨u, List.mem_append_left _ hu, hle⟩

/-- Cutting leaves a tree: above what stands there are directories. -/
theorem cutKind_above {d : Tree} {R : Root} {ts : List RelPath} {a q : RelPath}
    (hq : cutKind d R ts q ≠ none) (ha : a <+: q) (hne : a ≠ q) : cutKind d R ts a = some .dir := by
  unfold cutKind at hq ⊢
  split at hq
  · exact absurd rfl hq
  · next hT =>
    rw [if_neg]
    · exact Disk.dir_above hq (inTree_le.mpr ha) (inTree_ne.mpr hne)
    · rintro ⟨t, ht, hta⟩
      exact hT ⟨t, ht, hta.trans ha⟩

/-- The paths of a session: plain, not the root. -/
structure SessionPath (p : RelPath) : Prop where
  plain : PlainPath p
  ne_nil : p ≠ []

/-- The deletions with trash: those that found something, and the directories copies replace. -/
def recorded (d : Tree) (R : Root) (ts fs : List RelPath) : List RelPath :=
  trashed d R [] ts ++ fs.filter fun f => cutKind d R ts f = some .dir

/-- What staging has left: the destination on plain paths, the copies under their temporary names,
and the records of both. -/
structure Staged (R : Root) (d : Tree) (ts fs : List RelPath) (K : RelPath → Option Entry)
    (s : Staging) : Prop where
  plain : ∀ q, PlainPath q → s.disk.kindAt (inTree R q) = midKind d R ts fs q
  same : SameOn (fun r => r ≠ some R) d s.disk
  tmps : ∀ f ∈ fs, s.disk.kindAt (inTree R (sidePath "tmp" f)) = K f
  free : ∀ p, SessionPath p → p ∉ fs → d.kindAt (inTree R (sidePath "tmp" p)) = none →
    s.disk.kindAt (inTree R (sidePath "tmp" p)) = none
  side : ∀ x, ¬ PlainPath x → s.disk.kindAt (inTree R x) ≠ none → d.kindAt (inTree R x) ≠ none ∨
    (∃ f ∈ fs, sidePath "tmp" f <+: x) ∨ ∃ t ∈ recorded d R ts fs, sidePath "trash" t <+: x
  copies : s.work.copies = fs.map (copyOf R)
  merged : s.work.merged = fs
  deletes : s.work.deletes = (recorded d R ts fs).map (trashOf R)

theorem Staged.start (R : Root) (d : Tree) (K : RelPath → Option Entry) :
    Staged R d [] [] K (Staging.start d) where
  plain := by
    intro q _
    rw [midKind_nil, cutKind_nil]
    rfl
  same := SameOn.refl _ d
  tmps := by simp
  free := fun p _ _ h => h
  side := fun x _ h => Or.inl h
  copies := rfl
  merged := rfl
  deletes := rfl

section Deletes

variable {R : Root} {d : Tree} {ts : List RelPath} {K : RelPath → Option Entry} {s : Staging}

/-- One deletion more. -/
theorem Staged.delete {t : RelPath} (h : Staged R d ts [] K s) (ht : SessionPath t)
    (hlink : d.NoLinkAbove (inTree R t)) :
    ∃ s', stageDelete (inTree R t) s = .ok () s' ∧ Staged R d (ts ++ [t]) [] K s' := by
  have hkind : ∀ q, PlainPath q → s.disk.kindAt (inTree R q) = cutKind d R ts q := by
    intro q hq
    rw [h.plain q hq, midKind_nil]
  have hlink' : s.disk.NoLinkAbove (inTree R t) := by
    refine hlink.of_le fun x hx hne hl => ?_
    obtain ⟨a, ha, rfl⟩ := le_inTree.mp hx
    have hk := hkind a (ht.plain.mono ha)
    unfold Disk.linkAt at hl ⊢
    rw [hk] at hl
    unfold cutKind at hl
    split at hl
    · cases hl
    · exact hl
  rcases stageDelete_ok ht.ne_nil hlink' with ⟨hnone, hrun⟩ | ⟨hsome, d', htr, hrun⟩
  · have hcut : cutKind d R ts t = none := by rw [← hkind t ht.plain, hnone]
    have hrec : recorded d R (ts ++ [t]) [] = recorded d R ts [] := by
      rw [recorded, trashed_append, List.nil_append, if_pos hcut]
      simp [recorded]
    refine ⟨s, hrun, ?_, h.same, h.tmps, h.free, ?_, h.copies, h.merged, ?_⟩
    · intro q hq
      rw [hkind q hq, midKind_nil, cutKind_append]
      split
      · next htq =>
        by_contra hne
        by_cases heq : t = q
        · exact hne (heq ▸ hcut)
        · rw [cutKind_above hne htq heq] at hcut
          cases hcut
      · rfl
    · rw [hrec]
      exact h.side
    · rw [h.deletes, hrec]
  · have hcut : cutKind d R ts t ≠ none := by rw [← hkind t ht.plain]; exact hsome
    have hrec : recorded d R (ts ++ [t]) [] = recorded d R ts [] ++ [t] := by
      rw [recorded, trashed_append, List.nil_append, if_neg hcut]
      simp [recorded]
    refine ⟨_, hrun, ?_, h.same.trans htr.same, by simp, ?_, ?_, h.copies, h.merged, ?_⟩
    · intro q hq
      show d'.kindAt (inTree R q) = _
      rw [htr.plain hq, hkind q hq, midKind_nil, cutKind_append]
    · intro p hp hnot hfree
      show d'.kindAt _ = none
      rw [htr.tmp hp.plain]
      split
      · rfl
      · exact h.free p hp hnot hfree
    · intro x hx hk
      have hk' : d'.kindAt (inTree R x) ≠ none := hk
      rw [hrec]
      by_cases hxt : sidePath "trash" t <+: x
      · exact Or.inr (Or.inr ⟨t, by simp, hxt⟩)
      · have hsk : s.disk.kindAt (inTree R x) ≠ none := by
          rw [htr.kind, if_neg fun hle => hxt (inTree_le.mp hle)] at hk'
          split at hk'
          · exact absurd rfl hk'
          · exact hk'
        rcases h.side x hx hsk with h1 | ⟨f, hf, _⟩ | ⟨u, hu, hux⟩
        · exact Or.inl h1
        · cases hf
        · exact Or.inr (Or.inr ⟨u, List.mem_append_left _ hu, hux⟩)
    · show s.work.deletes ++ [trashOf R t] = _
      rw [h.deletes, hrec, List.map_append]
      rfl

/-- **The deletions of a commit are staged without failure.** -/
theorem stageDeletes_ok (hts : ∀ t ∈ ts, SessionPath t)
    (hlink : ∀ t ∈ ts, d.NoLinkAbove (inTree R t)) :
    ∃ s, ts.forM (fun t => stageDelete (inTree R t)) (Staging.start d) = .ok () s ∧
      Staged R d ts [] K s := by
  refine forM_ok (I := fun done s => Staged R d done [] K s) (Staged.start R d K) ?_
  intro done t rest s hsplit hst
  have hmem : t ∈ ts := by simp [hsplit]
  exact hst.delete (hts t hmem) (hlink t hmem)

end Deletes

/-! ## Copies -/

/-- A source outside the destination's tree, a file or a link. -/
structure Source (R : Root) (d : Tree) (src : Place) (k : Entry) : Prop where
  root : ∃ r, src.root = some r ∧ r ≠ R
  kind : d.kindAt src = some k
  leaf : k ≠ .dir

theorem Source.lstat {R : Root} {d d' : Tree} {src : Place} {k : Entry} (h : Source R d src k)
    (hd : SameOn (fun r => r ≠ some R) d d') : ∃ n, d'.lstat src = .ok n ∧ n.kind = k := by
  obtain ⟨r, hr, hne⟩ := h.root
  have hkind : d'.kindAt src = some k := by
    rw [hd.kindAt, h.kind]
    rw [hr]
    simpa using hne
  obtain ⟨n, hg, hn⟩ := Disk.exists_get hkind
  exact ⟨n, Disk.lstat_of_get hr hg, hn⟩

/-- No path of the list is at, above or below another. -/
def Apart (fs : List RelPath) (f : RelPath) : Prop := ∀ g ∈ fs, ¬ g <+: f ∧ ¬ f <+: g

/-- Nothing but directories is in the way of a copy, the deletions made. -/
def Open (d : Tree) (R : Root) (ts : List RelPath) (f : RelPath) : Prop :=
  ∀ a, a <+: f → a ≠ f → cutKind d R ts a = none ∨ cutKind d R ts a = some .dir

section Copies

variable {R : Root} {d : Tree} {ts fs : List RelPath} {K : RelPath → Option Entry} {s : Staging}
variable {f : RelPath}

theorem midKind_of_apart (h : Apart fs f) : midKind d R ts fs f = cutKind d R ts f := by
  unfold midKind
  rw [if_neg, if_neg]
  · rintro ⟨g, hg, hle, _⟩
    exact (h g hg).1 hle
  · rintro ⟨g, hg, hle, _⟩
    exact (h g hg).2 hle

/-- On the way to a copy stands what stood there, or a directory made for an earlier copy. -/
theorem midKind_above (ts : List RelPath) (h : Apart fs f) {a : RelPath} (ha : a <+: f) :
    midKind d R ts fs a = some .dir ∨ midKind d R ts fs a = cutKind d R ts a := by
  unfold midKind
  split
  · exact Or.inl rfl
  · right
    rw [if_neg]
    rintro ⟨g, hg, hle, _⟩
    exact (h g hg).1 (hle.trans ha)

theorem midKind_open (h : Apart fs f) (hopen : Open d R ts f) {a : RelPath} (ha : a <+: f)
    (hne : a ≠ f) : midKind d R ts fs a = none ∨ midKind d R ts fs a = some .dir := by
  rcases midKind_above (d := d) (R := R) ts h ha with hk | hk
  · exact Or.inr hk
  · rw [hk]
    exact hopen a ha hne

/-- What one more copy adds to the destination. -/
theorem midKind_append (h : Apart fs f) (q : RelPath) :
    midKind d R ts (fs ++ [f]) q =
      if q <+: f ∧ q ≠ f then some .dir
      else if f <+: q ∧ cutKind d R ts f = some .dir then none
      else midKind d R ts fs q := by
  unfold midKind
  by_cases hbelow : q <+: f ∧ q ≠ f
  · rw [if_pos hbelow, if_pos ⟨f, by simp, hbelow⟩]
  rw [if_neg hbelow]
  have hdirs : (∃ g ∈ fs ++ [f], q <+: g ∧ q ≠ g) ↔ ∃ g ∈ fs, q <+: g ∧ q ≠ g := by
    constructor
    · rintro ⟨g, hg, hle⟩
      rcases List.mem_append.mp hg with hg | hg
      · exact ⟨g, hg, hle⟩
      · rw [List.mem_singleton] at hg
        exact absurd (hg ▸ hle) hbelow
    · rintro ⟨g, hg, hle⟩
      exact ⟨g, List.mem_append_left _ hg, hle⟩
  by_cases hfq : f <+: q ∧ cutKind d R ts f = some .dir
  · rw [if_pos hfq, if_neg, if_pos ⟨f, by simp, hfq⟩]
    rw [hdirs]
    rintro ⟨g, hg, hqg, _⟩
    exact (h g hg).2 (hfq.1.trans hqg)
  rw [if_neg hfq]
  refine if_congr hdirs rfl (if_congr ?_ rfl rfl)
  constructor
  · rintro ⟨g, hg, hle⟩
    rcases List.mem_append.mp hg with hg | hg
    · exact ⟨g, hg, hle⟩
    · rw [List.mem_singleton] at hg
      exact absurd (hg ▸ hle) hfq
  · rintro ⟨g, hg, hle⟩
    exact ⟨g, List.mem_append_left _ hg, hle⟩

theorem prefix_dropLast_iff {q p : RelPath} (hp : p ≠ []) : q <+: p.dropLast ↔ q <+: p ∧ q ≠ p := by
  constructor
  · intro h
    refine ⟨h.trans (List.dropLast_prefix p), ?_⟩
    rintro rfl
    have hlen := h.length_le
    rw [List.length_dropLast] at hlen
    have hpos := List.length_pos_of_ne_nil hp
    omega
  · rintro ⟨h, hne⟩
    have hle : inTree .base q ≤ inTree .base p := inTree_le.mpr h
    exact inTree_le.mp (Loc.le_parent_of_lt hle (inTree_ne.mpr hne))

theorem noLinkAbove_of_kinds {d : Tree} (h : ∀ a, a <+: f → a ≠ f →
    d.kindAt (inTree R a) = none ∨ d.kindAt (inTree R a) = some .dir) :
    d.NoLinkAbove (inTree R f) := by
  refine Disk.noLinkAbove_of fun x hx hne => ?_
  obtain ⟨a, ha, rfl⟩ := le_inTree.mp hx
  rcases h a ha (inTree_ne.mp hne) with hk | hk
  · exact Disk.linkAt_of_none hk
  · exact Disk.linkAt_eq_false_of_kind hk rfl

/-- The temporary name of a copy is free when nothing but directories is on the way to it. -/
theorem freePlace_tmp {d : Tree} (hf : SessionPath f) (h : ∀ a, a <+: f → a ≠ f →
    d.kindAt (inTree R a) = none ∨ d.kindAt (inTree R a) = some .dir)
    (hfree : d.kindAt (inTree R (sidePath "tmp" f)) = none) :
    FreePlace d (inTree R (sidePath "tmp" f)) := by
  have hup : ∀ x, x ≤ inTree R (sidePath "tmp" f) → x ≠ inTree R (sidePath "tmp" f) →
      d.kindAt x = none ∨ d.kindAt x = some .dir := by
    intro x hx hne
    obtain ⟨a, ha, rfl⟩ := le_inTree.mp hx
    have ha' : a <+: f.dropLast := by
      have := (prefix_dropLast_iff (sidePath_ne_nil "tmp" f)).mpr ⟨ha, inTree_ne.mp hne⟩
      rwa [sidePath_dropLast] at this
    obtain ⟨hle, hne'⟩ := (prefix_dropLast_iff hf.ne_nil).mp ha'
    exact h a hle hne'
  refine ⟨⟨R, rfl⟩, ?_, ?_, hfree⟩
  · refine Disk.noLinkAbove_of fun x hx hne => ?_
    rcases hup x hx hne with hk | hk
    · exact Disk.linkAt_of_none hk
    · exact Disk.linkAt_eq_false_of_kind hk rfl
  · rw [← Bool.not_eq_true, Disk.fileAbove_iff]
    rintro ⟨x, hx, hne, hfile⟩
    rcases hup x hx hne with hk | hk <;> simp [Disk.fileAt, hk, Kind.isFile] at hfile

/-- The part of `stage_copy` after a directory in the way is gone. -/
theorem copyAside_ok {src : Place} {k : Entry} (hf : SessionPath f)
    (hup : ∀ a, a <+: f → a ≠ f →
      s.disk.kindAt (inTree R a) = none ∨ s.disk.kindAt (inTree R a) = some .dir)
    (hfree : s.disk.kindAt (inTree R (sidePath "tmp" f)) = none) (hsrc : Source R s.disk src k) :
    ∃ s', copyAside f src (inTree R f) s = .ok () s' ∧
      CopiedUp (inTree R (sidePath "tmp" f)) (some k) s.disk s'.disk ∧
      s'.work.copies = s.work.copies ++ [copyOf R f] ∧ s'.work.merged = s.work.merged ++ [f] ∧
      s'.work.deletes = s.work.deletes := by
  have hplace := freePlace_tmp hf hup hfree
  obtain ⟨d₁, hd₁, hmade, hgrow⟩ := hplace.parentDirs
  obtain ⟨n, hn, hnk⟩ := hsrc.lstat hmade.same
  obtain ⟨d₂, hd₂, hcopied⟩ :=
    copyEntry_made hplace hd₁ hmade hgrow hn (by rw [hnk]; exact hsrc.leaf)
  have hrun : onStage (Io.copyEntry src (inTree R (sidePath "tmp" f))) s =
      .ok () { s with disk := d₂ } := onStage_ok hd₂
  let len := ((d₂.lstat src).toOption.map metaLen).getD 0
  refine ⟨⟨d₂, ⟨s.work.copies ++ [copyOf R f], s.work.deletes, s.work.merged ++ [f],
    s.work.bytes + len⟩⟩, ?_, hnk ▸ hcopied, rfl, rfl, rfl⟩
  rw [copyAside, commitSidePath_inTree, bind_ok hrun, readStage_bind]
  rfl

/-- What `stage_copy` asks of its destination, where no link is on the way to it. -/
theorem lkind_isDir_iff (hlink : d.NoLinkAbove (inTree R f)) :
    ((d.lkind (inTree R f)).any Kind.isDir) = true ↔ d.kindAt (inTree R f) = some .dir := by
  rw [Disk.lkind_eq rfl hlink, Option.any_eq_true]
  constructor
  · rintro ⟨k, hk, hdir⟩
    rw [hk, Kind.isDir_iff.mp hdir]
  · intro hk
    exact ⟨_, hk, rfl⟩

/-- One copy more. -/
theorem Staged.copy {src : Place} {k : Entry} (h : Staged R d ts fs K s) (hf : SessionPath f)
    (hapart : Apart fs f) (hfs : ∀ g ∈ fs, SessionPath g) (hopen : Open d R ts f)
    (hfree : d.kindAt (inTree R (sidePath "tmp" f)) = none) (hsrc : Source R d src k)
    (hK : K f = some k) :
    ∃ s', stageCopy (inTree R) f src s = .ok () s' ∧ Staged R d ts (fs ++ [f]) K s' := by
  have hfnot : f ∉ fs := fun hmem => (hapart f hmem).1 List.prefix_rfl
  have hway : ∀ a, a <+: f → a ≠ f →
      s.disk.kindAt (inTree R a) = none ∨ s.disk.kindAt (inTree R a) = some .dir := by
    intro a ha hne
    rw [h.plain a (hf.plain.mono ha)]
    exact midKind_open hapart hopen ha hne
  have hlink : s.disk.NoLinkAbove (inTree R f) := noLinkAbove_of_kinds hway
  have hself : s.disk.kindAt (inTree R f) = cutKind d R ts f := by
    rw [h.plain f hf.plain, midKind_of_apart hapart]
  -- a directory in the place of the copy goes first
  obtain ⟨s₁, hrun₁, hplain₁, hsame₁, htmp₁, hside₁, hcopies₁, hmerged₁, hdeletes₁⟩ :
      ∃ s₁, when (((s.disk.lkind (inTree R f)).any Kind.isDir) = true)
          (stageDelete (inTree R f)) s = .ok () s₁ ∧
        (∀ q, PlainPath q → s₁.disk.kindAt (inTree R q) =
          if f <+: q ∧ cutKind d R ts f = some .dir then none else midKind d R ts fs q) ∧
        SameOn (fun r => r ≠ some R) d s₁.disk ∧
        (∀ p, PlainPath p → (s₁.disk.kindAt (inTree R (sidePath "tmp" p)) =
          if f <+: sidePath "tmp" p ∧ cutKind d R ts f = some .dir then none
          else s.disk.kindAt (inTree R (sidePath "tmp" p)))) ∧
        (∀ x, s₁.disk.kindAt (inTree R x) ≠ none → s.disk.kindAt (inTree R x) ≠ none ∨
          cutKind d R ts f = some .dir ∧ sidePath "trash" f <+: x) ∧
        s₁.work.copies = s.work.copies ∧ s₁.work.merged = s.work.merged ∧
        s₁.work.deletes = s.work.deletes ++
          (if cutKind d R ts f = some .dir then [trashOf R f] else []) := by
    by_cases hdir : cutKind d R ts f = some .dir
    · have hyes := (lkind_isDir_iff hlink).mpr (hself.trans hdir)
      rcases stageDelete_ok hf.ne_nil hlink with ⟨hnone, _⟩ | ⟨_, d', htr, hrun⟩
      · rw [hself, hdir] at hnone
        cases hnone
      · refine ⟨⟨d', { s.work with deletes := s.work.deletes ++ [trashOf R f] }⟩,
          by rw [when_true hyes]; exact hrun, ?_, h.same.trans htr.same, ?_, ?_, rfl, rfl, ?_⟩
        · intro q hq
          show d'.kindAt (inTree R q) = _
          rw [htr.plain hq, h.plain q hq]
          simp only [hdir, and_true]
        · intro p hp
          show d'.kindAt _ = _
          rw [htr.tmp hp]
          simp only [hdir, and_true]
        · intro x hk
          have hk' : d'.kindAt (inTree R x) ≠ none := hk
          by_cases hxt : sidePath "trash" f <+: x
          · exact Or.inr ⟨hdir, hxt⟩
          · rw [htr.kind, if_neg fun hle => hxt (inTree_le.mp hle)] at hk'
            split at hk'
            · exact absurd rfl hk'
            · exact Or.inl hk'
        · rw [if_pos hdir]
    · have hno : ¬ ((s.disk.lkind (inTree R f)).any Kind.isDir) = true := fun hany =>
        hdir (hself.symm.trans ((lkind_isDir_iff hlink).mp hany))
      refine ⟨s, by rw [when_false hno]; rfl, ?_, h.same, ?_, fun x hk => Or.inl hk, rfl, rfl, ?_⟩
      · intro q hq
        rw [h.plain q hq, if_neg fun hc => hdir hc.2]
      · intro p _
        rw [if_neg fun hc => hdir hc.2]
      · rw [if_neg hdir, List.append_nil]
  have hup₁ : ∀ a, a <+: f → a ≠ f →
      s₁.disk.kindAt (inTree R a) = none ∨ s₁.disk.kindAt (inTree R a) = some .dir := by
    intro a ha hne
    rw [hplain₁ a (hf.plain.mono ha), if_neg]
    · exact midKind_open hapart hopen ha hne
    · rintro ⟨hfa, _⟩
      exact hne (ha.eq_of_length_le hfa.length_le)
  have hfree₁ : s₁.disk.kindAt (inTree R (sidePath "tmp" f)) = none := by
    rw [htmp₁ f hf.plain]
    split
    · rfl
    · exact h.free f hf hfnot hfree
  have hsrc₁ : Source R s₁.disk src k := by
    obtain ⟨r, hr, hne⟩ := hsrc.root
    refine ⟨⟨r, hr, hne⟩, ?_, hsrc.leaf⟩
    rw [hsame₁.kindAt, hsrc.kind]
    rw [hr]
    simpa using hne
  obtain ⟨s₂, hrun₂, hup, hcopies₂, hmerged₂, hdeletes₂⟩ := copyAside_ok hf hup₁ hfree₁ hsrc₁
  refine ⟨s₂, ?_, ?_⟩
  · rw [stageCopy, readStage_bind, bind_ok hrun₁]
    exact hrun₂
  have htmpkeep : ∀ p, SessionPath p → p ≠ f →
      s₂.disk.kindAt (inTree R (sidePath "tmp" p)) = s₁.disk.kindAt (inTree R (sidePath "tmp" p)) := by
    intro p hp hne
    refine hup.other _ fun hle => hne ?_
    exact sidePath_inj hp.ne_nil hf.ne_nil (sidePath_not_le (Or.inl rfl) hf.plain (inTree_le.mp hle))
  have hrec : recorded d R ts (fs ++ [f]) =
      recorded d R ts fs ++ if cutKind d R ts f = some .dir then [f] else [] := by
    unfold recorded
    rw [List.filter_append, List.append_assoc]
    congr 1
    by_cases hdir : cutKind d R ts f = some .dir <;> simp [hdir]
  refine ⟨?_, hsame₁.trans hup.same, ?_, ?_, ?_, ?_, ?_, ?_⟩
  · intro q hq
    rw [midKind_append hapart]
    by_cases hqf : q <+: f ∧ q ≠ f
    · rw [if_pos hqf]
      have hle : q <+: sidePath "tmp" f :=
        ((prefix_dropLast_iff hf.ne_nil).mpr hqf).trans (List.prefix_append _ _)
      refine hup.above (by simp) _ (inTree_le.mpr hle) (inTree_ne.mpr ?_)
      exact fun heq => sidePath_ne_of_plain (Or.inl rfl) hq heq.symm
    · rw [if_neg hqf, hup.other, hplain₁ q hq]
      intro hle
      exact hqf ((prefix_dropLast_iff hf.ne_nil).mp (plain_le_side hq (Or.inl rfl) (inTree_le.mp hle)))
  · intro g hg
    rcases List.mem_append.mp hg with hg | hg
    · have hgf : g ≠ f := fun heq => hfnot (heq ▸ hg)
      rw [htmpkeep g (hfs g hg) hgf, htmp₁ g (hfs g hg).plain, if_neg, h.tmps g hg]
      rintro ⟨hle, _⟩
      exact (hapart g hg).2
        ((plain_le_side hf.plain (Or.inl rfl) hle).trans (List.dropLast_prefix g))
    · rw [List.mem_singleton] at hg
      rw [hg, hup.at_delta, hK]
  · intro p hp hnot hpfree
    have hpf : p ≠ f := fun heq => hnot (by simp [heq])
    have hpfs : p ∉ fs := fun hmem => hnot (List.mem_append_left _ hmem)
    rw [htmpkeep p hp hpf, htmp₁ p hp.plain]
    split
    · rfl
    · exact h.free p hp hpfs hpfree
  · intro x hx hk
    by_cases hle : x <+: sidePath "tmp" f
    · -- of the way to the copy only its own name is a side name
      have heq : x = sidePath "tmp" f := by
        rcases List.prefix_concat_iff.mp hle with heq | hpre
        · exact heq
        · exact absurd (hf.plain.mono (hpre.trans (List.dropLast_prefix f))) hx
      exact Or.inr (Or.inl ⟨f, by simp, heq ▸ List.prefix_rfl⟩)
    · rw [hup.other _ fun h => hle (inTree_le.mp h)] at hk
      rw [hrec]
      rcases hside₁ x hk with hk | ⟨hdir, hxt⟩
      · rcases h.side x hx hk with h1 | ⟨g, hg, hgx⟩ | ⟨u, hu, hux⟩
        · exact Or.inl h1
        · exact Or.inr (Or.inl ⟨g, List.mem_append_left _ hg, hgx⟩)
        · exact Or.inr (Or.inr ⟨u, List.mem_append_left _ hu, hux⟩)
      · exact Or.inr (Or.inr ⟨f, by rw [if_pos hdir]; simp, hxt⟩)
  · rw [hcopies₂, hcopies₁, h.copies, List.map_append]
    rfl
  · rw [hmerged₂, hmerged₁, h.merged]
  · rw [hdeletes₂, hdeletes₁, h.deletes, hrec, List.map_append]
    congr 1
    split <;> rfl

/-- A file in the way of a copy stops it. -/
theorem stageCopy_blocked {src : Place} {a : RelPath} (hlink : s.disk.NoLinkAbove (inTree R f))
    (ha : a <+: f) (hne : a ≠ f) (hfile : s.disk.fileAt (inTree R a) = true) :
    ∃ e s', stageCopy (inTree R) f src s = .error e s' := by
  have hnil : f ≠ [] := by
    rintro rfl
    exact hne (List.prefix_nil.mp ha)
  have hnotdir : s.disk.kindAt (inTree R a) ≠ some .dir := by
    intro hk
    rw [Disk.fileAt, hk] at hfile
    cases hfile
  have hnone : s.disk.kindAt (inTree R f) = none := by
    by_contra hk
    exact hnotdir (Disk.dir_above hk (inTree_le.mpr ha) (inTree_ne.mpr hne))
  have hno : ¬ ((s.disk.lkind (inTree R f)).any Kind.isDir) = true := by
    rw [lkind_isDir_iff hlink, hnone]
    exact (Option.some_ne_none _).symm
  have hparent : a <+: f.dropLast := (prefix_dropLast_iff hnil).mpr ⟨ha, hne⟩
  have hup : s.disk.NoLinkAbove (inTree R f.dropLast) :=
    hlink.mono (inTree_le.mpr (List.dropLast_prefix f))
  have hblock : ∃ e, Posix.Sys.createDirAll (inTree R f.dropLast) s.disk = .error e s.disk := by
    refine Posix.Sys.createDirAll_blocked rfl hup ?_ ?_
    · exact Disk.NoLinkAbove.not_link hlink (inTree_le.mpr (List.dropLast_prefix f))
        (inTree_ne.mpr fun heq => by
          have := congrArg List.length heq
          rw [List.length_dropLast] at this
          have := List.length_pos_of_ne_nil hnil
          omega)
    · by_cases heq : a = f.dropLast
      · exact Or.inr (heq ▸ hfile)
      · exact Or.inl (Disk.fileAbove_iff.mpr ⟨_, inTree_le.mpr hparent, inTree_ne.mpr heq, hfile⟩)
  obtain ⟨e, he⟩ := hblock
  have hcopy : Io.copyEntry src (inTree R (sidePath "tmp" f)) s.disk = .error e s.disk := by
    rw [Io.copyEntry, bind_error]
    rw [Io.ensureParentDirs, inTree_parent, sidePath_dropLast]
    exact he
  refine ⟨e, { s with disk := s.disk }, ?_⟩
  rw [stageCopy, readStage_bind, when_false hno]
  show copyAside f src (inTree R f) s = _
  rw [copyAside, commitSidePath_inTree, bind_error (onStage_error hcopy)]

end Copies

end BranchFs
