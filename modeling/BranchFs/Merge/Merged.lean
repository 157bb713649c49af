/-
# BranchFs.Merge.Merged -- the texts a commit merges

Which files of a session are committed as merged texts, and which texts these are, is settled before
the commit: `mergedDelta` is the delta as it will be committed. Merged texts are kept under the keys of
their paths; while no two of these collide, that delta is what the parent gets.
-/
import BranchFs.Merge.Listed

namespace BranchFs

open BranchFs.Posix BranchFs.Logic

/-- The detection of a commit merges the file at `p`. -/
def MergedAt (m : Manager) (b : Branch) (p : RelPath) : Prop :=
  Leaf .dir (deltaKind m.disk b.name) p ∧ MovedOn m b p ∧ MergesCleanly m b p

/-- No two merged texts are kept under one key. -/
def KeysApart (m : Manager) (b : Branch) : Prop :=
  ∀ p q, MergedAt m b p → MergedAt m b q → touchContentKey p = touchContentKey q → p = q

open Classical in
/-- The delta of `b` as a commit into `parent` takes it: merged texts in the place of their files. -/
noncomputable def mergedDelta (m : Manager) (b parent : Branch) (q : RelPath) : Option Entry :=
  if parent.commitCount ≠ b.parentVersionAtFork ∧ MergedAt m b q then
    (mergedBytes m b q).toOption.join.map .file
  else deltaKind m.disk b.name q

/-- It is enough that no two files of the delta have one key. -/
theorem keysApart_of_files {m : Manager} {b : Branch} (h : ∀ p ∈ deltaFiles m b.name,
    ∀ q ∈ deltaFiles m b.name, touchContentKey p = touchContentKey q → p = q) : KeysApart m b :=
  fun p q hp hq => h p (mem_deltaFiles.mpr hp.1) q (mem_deltaFiles.mpr hq.1)

section

variable {m m' m₁ : Manager} {name : String} {b parent : Branch} {r r' : Report} {q : RelPath}
variable {done : List RelPath}

theorem mergeAttempt_text (hcap : CanCapture m.disk b.name) {src : Place}
    (hplace : src = deltaPath b.name q) (hleaf : Leaf .dir (deltaKind m.disk b.name) q)
    {first current : PathIdentity} {bytes : Bytes}
    (hok : mergeAttempt b q src first current m = .ok (some bytes) m₁) :
    mergedBytes m b q = .ok (some bytes) := by
  unfold mergeAttempt at hok
  split at hok
  · rw [mergedText_eq hcap hplace hleaf] at hok
    cases hmerged : mergedBytes m b q with
    | ok t =>
      rw [hmerged] at hok
      injection hok with ht _
      rw [ht]
    | error e =>
      rw [hmerged] at hok
      cases hok
  · cases hok

/-- The merged texts so far stand where the report says, one for each path it lists. -/
structure Texts (m : Manager) (b : Branch) (done : List RelPath) (r : Report) (m' : Manager) : Prop where
  listed : r.sources.map Prod.fst = r.autoMerges.map CommitAutoMerge.path
  among : ∀ s ∈ r.sources, s.1 ∈ done
  text : ∀ s ∈ r.sources, MergedAt m b s.1 ∧ ∃ bytes, mergedBytes m b s.1 = .ok (some bytes) ∧
    m'.disk.kindAt (mergedPath b.name s.1) = some (.file bytes)

theorem Texts.mono {done' : List RelPath} (h : Texts m b done r m') (hsub : done ⊆ done') :
    Texts m b done' r m' :=
  ⟨h.listed, fun s hs => hsub (h.among s hs), h.text⟩

/-- One file of the detection. -/
theorem Texts.file (ht : Texts m b done r m') (h : Detected b.name m r m')
    (hb : m.forest.get? b.name = some b) (hcap : CanCapture m.disk b.name) (hkeys : KeysApart m b)
    {src : Place} (hst : Straight m b.name q) (hplace : src = deltaPath b.name q)
    (hleaf : Leaf .dir (deltaKind m.disk b.name) q) (hnew : q ∉ done)
    (hok : detectFile b q src r m' = .ok r' m₁) : Texts m b (done ++ [q]) r' m₁ := by
  have hsub : done ⊆ done ++ [q] := List.subset_append_left _ _
  have hid := h.currentIdentity hb hst
  have hget : (get : Mgr Manager) m' = .ok m' m' := rfl
  rw [detectFile, bind_ok hget] at hok
  simp only at hok
  by_cases hsame : (b.touchRecordOrMissing q).baseAtFirstTouch = m'.currentIdentity b q
  · rw [if_pos hsame] at hok
    cases hok
    exact ht.mono hsub
  rw [if_neg hsame] at hok
  have hmoved : MovedOn m b q := by rwa [hid] at hsame
  have hleaf' : Leaf .dir (deltaKind m'.disk b.name) q := by
    obtain ⟨k, hk, hkd⟩ := hleaf
    exact ⟨k, (h.deltaKind b.name q).trans hk, hkd⟩
  have hcap' : CanCapture m'.disk b.name := canCapture_of_same h.same hcap
  rcases mergeAttempt_eq hcap' hplace hleaf' hsame with ⟨-, t, hmerge, hclean⟩ | ⟨-, herror⟩
  swap
  · rw [bind_error herror] at hok
    cases hok
  rw [bind_ok hmerge] at hok
  cases t with
  | none =>
    cases hok
    exact ⟨ht.listed, fun s hs => hsub (ht.among s hs), ht.text⟩
  | some bytes =>
    have hmergedAt : MergedAt m b q :=
      ⟨hleaf, hmoved, (h.mergesCleanly hb hst).mp (hclean.mp (by simp))⟩
    have hbytes : mergedBytes m b q = .ok (some bytes) := by
      rw [← h.mergedBytes hb hst]
      exact mergeAttempt_text hcap' hplace hleaf' hmerge
    have hdirs : onDisk (Io.ensureParentDirs (mergedPath b.name q)) m' = .ok () m' :=
      onDisk_ok (Posix.Sys.createDirAll_of_dir rfl (Disk.kindAt_root _ rfl))
    obtain ⟨d, hd, hput⟩ := writeFile_top bytes (h.can (touchContentKey q))
    have hwrite : onDisk (Posix.Sys.writeFile (mergedPath b.name q) bytes) m' =
        .ok () { m' with disk := d } := onDisk_ok hd
    simp only at hok
    rw [bind_ok hdirs, bind_ok hwrite] at hok
    cases hok
    refine ⟨?_, ?_, ?_⟩
    · rw [List.map_append, List.map_append, ht.listed]
      rfl
    · intro s hs
      rcases List.mem_append.mp hs with hs | hs
      · exact hsub (ht.among s hs)
      · rw [List.mem_singleton.mp hs]
        exact List.mem_append_right _ List.mem_cons_self
    · intro s hs
      rcases List.mem_append.mp hs with hs | hs
      · -- an earlier text is kept under another key
        obtain ⟨hmerged, old, hold, hk⟩ := ht.text s hs
        have hne : s.1 ≠ q := fun heq => hnew (heq ▸ ht.among s hs)
        refine ⟨hmerged, old, hold, ?_⟩
        show d.kindAt (mergedPath b.name s.1) = _
        rw [Disk.kindAt_putFile hput, if_neg, hk]
        intro heq
        have hpath := congrArg Loc.path heq
        exact hne (hkeys _ _ hmerged hmergedAt (List.cons.inj hpath).1)
      · rw [List.mem_singleton.mp hs]
        refine ⟨hmergedAt, bytes, hbytes, ?_⟩
        show d.kindAt (mergedPath b.name q) = _
        rw [Disk.kindAt_putFile hput]
        exact if_pos rfl

/-- **All files of the detection.** -/
theorem Texts.files (hb : m.forest.get? b.name = some b) (hcap : CanCapture m.disk b.name)
    (hkeys : KeysApart m b) :
    ∀ (files : List (RelPath × Place)) (done : List RelPath) (r : Report) (m' : Manager),
      (∀ f ∈ files, (f.2 = deltaPath b.name f.1 ∧ Leaf .dir (deltaKind m.disk b.name) f.1) ∧
        Straight m b.name f.1) →
      (done ++ files.map Prod.fst).Nodup → Detected b.name m r m' → Texts m b done r m' →
      detectFiles b files r m' = .ok r' m₁ → Texts m b (done ++ files.map Prod.fst) r' m₁ := by
  intro files
  induction files with
  | nil =>
    intro done r m' _ _ _ ht hok
    cases hok
    exact ht.mono (List.subset_append_left _ _)
  | cons f files ih =>
    intro done r m' hfiles hnodup h ht hok
    obtain ⟨q, src⟩ := f
    obtain ⟨⟨hplace, hleaf⟩, hst⟩ := hfiles (q, src) List.mem_cons_self
    have hsplit : done ++ q :: files.map Prod.fst = (done ++ [q]) ++ files.map Prod.fst := by simp
    have hnew : q ∉ done := fun hq =>
      (List.nodup_append.mp hnodup).2.2 q hq q List.mem_cons_self rfl
    rw [detectFiles] at hok
    rcases h.file hb hcap hst hplace hleaf with ⟨-, r₂, m₂, hrun, h₂⟩ | ⟨-, herror⟩
    swap
    · rw [bind_error herror] at hok
      cases hok
    rw [bind_ok hrun] at hok
    have hfile := ht.file h hb hcap hkeys hst hplace hleaf hnew hrun
    have hrest := ih (done ++ [q]) r₂ m₂ (fun g hg => hfiles g (List.mem_cons_of_mem _ hg))
      (hsplit ▸ hnodup) h₂ hfile hok
    exact hsplit ▸ hrest

/-- **The delta that is committed** is known before the commit. -/
theorem Session.committedKind (h : Session m name b parent) (hkeys : KeysApart m b) {order : HashOrder}
    (hreport : reportFor b parent (order.iter b.tombstones) (walkFiles m.disk name) m = .ok r m₁) :
    Detected name m r m₁ ∧ committedKind m₁.disk name r = mergedDelta m b parent := by
  have hname := Forest.name_of_get? h.branch
  have hbranch : m.forest.get? b.name = some b := by rw [hname]; exact h.branch
  have hstore : PlainStore m.disk b.name := by rw [hname]; exact h.committable.store
  have hdet : Detected name m r m₁ := by
    have hst : ∀ p, Leaf .dir (deltaKind m.disk b.name) p → Straight m b.name p := by
      rw [hname]
      exact fun p hp => h.committable.straight p (Or.inr hp)
    rcases reportFor_cases parent hbranch hstore hst (order.iter b.tombstones) with
      ⟨-, r₂, m₂, hrun, hdet⟩ | ⟨-, m₂, hrun⟩
    · rw [hname, hreport] at hrun
      cases hrun
      rwa [hname] at hdet
    · rw [hname, hreport] at hrun
      cases hrun
  refine ⟨hdet, funext fun q => ?_⟩
  have hauto := (h.names (p := q) hreport).auto
  unfold mergedDelta
  by_cases hq : parent.commitCount ≠ b.parentVersionAtFork ∧ MergedAt m b q
  swap
  · rw [if_neg hq, hname]
    refine committedKind_eq hdet fun hmem => hq ?_
    obtain ⟨hmoved, hmerged⟩ := hauto.mp hmem
    exact ⟨hmoved, by unfold MergedAt; rw [hname]; exact hmerged⟩
  rw [if_pos hq]
  obtain ⟨hmoved, hmerged⟩ := hq
  have htexts : Texts m b ([] ++ (walkFiles m.disk name).map Prod.fst) r m₁ := by
    have hstart : Texts m b [] ⟨[], tombstoneConflicts m b (order.iter b.tombstones), []⟩ m :=
      ⟨rfl, by simp, by simp⟩
    have hget : (get : Mgr Manager) m = .ok m m := rfl
    unfold reportFor at hreport
    rw [if_pos hmoved, detect, bind_ok hget, ← hname] at hreport
    have hnodup : ([] ++ (walkFiles m.disk b.name).map Prod.fst).Nodup :=
      (walkFiles_antichain m.disk b.name).nodup
    have htexts := Texts.files hbranch hstore.capture hkeys _ [] _ m h.walk hnodup (h.detectedStart _)
      hstart hreport
    rwa [hname] at htexts
  have hmem : q ∈ r.sources.map Prod.fst := by
    rw [htexts.listed, hauto]
    refine ⟨hmoved, ?_⟩
    unfold MergedAt at hmerged
    rwa [hname] at hmerged
  have hlookup : r.sourceOf (q, deltaPath name q) = mergedPath name q := by
    rcases hdet.sourceOf (q, deltaPath name q) with hs | ⟨hs, -⟩
    · -- a listed path has a source
      unfold Report.sourceOf at hs ⊢
      cases hl : r.sources.lookup q with
      | none =>
        obtain ⟨s, hs', heq⟩ := List.mem_map.mp hmem
        have hno := List.lookup_eq_none_iff.mp hl s hs'
        simp [heq] at hno
      | some l =>
        obtain ⟨l₁, l₂, hsplit, -⟩ := List.lookup_eq_some_iff.mp hl
        exact (hdet.sources (q, l) (by simp [hsplit])).1
    · exact hs
  obtain ⟨s, hs, rfl⟩ := List.mem_map.mp hmem
  obtain ⟨-, bytes, hbytes, hk⟩ := htexts.text s hs
  rw [hbytes]
  unfold BranchFs.committedKind
  rw [hdet.deltaKind, hlookup]
  have hleaf := hmerged.1
  rw [hname] at hleaf hk
  obtain ⟨k, hdelta, hkd⟩ := hleaf
  rw [hdelta]
  cases k with
  | dir => exact absurd rfl hkd
  | file c => exact hk
  | symlink t => exact hk

/-- **What a nested commit leaves**, in terms of the state before it. -/
theorem Session.intoParent (h : Session m name b parent) (hmain : parent.name ≠ "main")
    (hkeys : KeysApart m b) {order : HashOrder} {o : CommitOutcome}
    (hok : commitWithReport order name m = .ok o m') :
    Committed m name o.autoMerges (mergedDelta m b parent) ∧
      IntoParent m name b parent (mergedDelta m b parent) m' := by
  obtain ⟨r, m₂, hreport, happly, rfl⟩ := report_of_commit h hok
  obtain ⟨hdet, hkind⟩ := h.committedKind hkeys hreport
  have hdest : destination parent.name = .files parent.name := if_neg hmain
  have hcommittable := h.committable
  have hclean := h.clean_dest
  rw [hdest] at hcommittable hclean
  have hno : ¬ CommitPanics m name b := by
    rcases commit_reported h.branch h.leaf h.name_ne_main h.up h.record hcommittable.store
        (fun p hp => hcommittable.straight p (Or.inr hp)) order with ⟨hno, -⟩ | ⟨-, m'', herror⟩
    · exact hno
    · rw [herror] at hok
      cases hok
  rw [← hkind]
  refine ⟨hdet.committed, ?_⟩
  rcases applyNested_cases h.branch h.leaf h.name_ne_main h.up hmain h.record hcommittable hclean hno hdet
      order with ⟨-, m'', hrun, hi⟩ | ⟨-, e, m'', hrun⟩
  · rw [happly] at hrun
    cases hrun
    exact hi
  · rw [happly] at hrun
    cases hrun

end

end BranchFs
