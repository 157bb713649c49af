/-
# BranchFs.Merge.Detect -- what the detection of a commit leaves

The detection of `commit_with_report` reads both sides and writes merged texts into the branch's own
merge-content directory, and nothing else. While the daemon's content directories hold only files it
does not fail, and every file of the session is then committed from its delta, or from a file that
was merged for it.
-/
import BranchFs.Merge.Texts

namespace BranchFs

open BranchFs.Posix BranchFs.Logic

/-- The merge-content directory holds nothing but files. -/
def CanMerge (d : Tree) (name : String) : Prop :=
  ∀ key, d.kindAt ⟨some (.mergeContent name), [key]⟩ = none ∨
    d.fileAt ⟨some (.mergeContent name), [key]⟩ = true

/-- The daemon's content directories of a branch hold nothing but files. -/
structure PlainStore (d : Tree) (name : String) : Prop where
  capture : CanCapture d name
  merge : CanMerge d name

theorem canCapture_of_same {d d' : Tree} {name : String}
    (h : SameOn (fun r => r ≠ some (.mergeContent name)) d d') (hc : CanCapture d name) :
    CanCapture d' name := by
  intro key
  have hk : d'.kindAt (touchContentPath name key) = d.kindAt (touchContentPath name key) :=
    h.kindAt (by simp [touchContentPath])
  unfold Disk.fileAt
  rw [hk]
  exact hc key

/-- The branch has a file at the path, and inherits something there, as far as the detection can
tell. -/
def MergedOver (m : Manager) (name : String) (p : RelPath) : Prop :=
  Leaf .dir (deltaKind m.disk name) p ∧ ∃ d, SameOn (fun r => r ≠ some (.mergeContent name)) m.disk d ∧
    ∀ b, m.forest.get? name = some b → { m with disk := d }.inheritedForTouch b p ≠ none

/-- What the detection has left after some files: merged texts, and their entries in the report. -/
structure Detected (name : String) (m : Manager) (r : Report) (m' : Manager) : Prop where
  mergedOver : ∀ p ∈ r.autoMerges.map CommitAutoMerge.path, MergedOver m name p
  rest : m' = { m with disk := m'.disk }
  same : SameOn (fun r => r ≠ some (.mergeContent name)) m.disk m'.disk
  can : CanMerge m'.disk name
  sources : ∀ s ∈ r.sources, s.2 = mergedPath name s.1 ∧ m'.disk.fileAt s.2 = true ∧
    s.1 ∈ r.autoMerges.map CommitAutoMerge.path

theorem Detected.report {name : String} {m m' : Manager} {r : Report} (h : Detected name m r m')
    {r' : Report} (hs : r'.sources = r.sources) (ha : r'.autoMerges = r.autoMerges) :
    Detected name m r' m' where
  mergedOver := by
    rw [ha]
    exact h.mergedOver
  rest := h.rest
  same := h.same
  can := h.can
  sources := by
    rw [hs, ha]
    exact h.sources

section

variable {m m₁ : Manager} {name : String} {b : Branch} {r : Report} {p : RelPath}

theorem Detected.lstat (h : Detected name m r m₁) (hst : Straight m name p) {R : Root}
    (hR : R ∈ m.layers name) :
    (m₁.disk.lstat ⟨some R, p⟩).toOption = (m.disk.lstat ⟨some R, p⟩).toOption :=
  lstat_of_sameTree (hst R hR) fun x hx => h.same x (by rw [hx]; exact layer_ne_mergeContent hR)

/-- Merged texts do not change where the branch inherits from. -/
theorem Detected.inheritedForTouch (h : Detected name m r m₁) (hb : m.forest.get? name = some b)
    (hst : Straight m name p) : m₁.inheritedForTouch b p = m.inheritedForTouch b p := by
  have hforest : m₁.forest = m.forest := by rw [h.rest]
  refine Manager.inheritedForTouch_congr (by rw [hforest]; exact Forest.SameBut.refl name _)
    hb (by rw [hforest]; exact hb) fun R hR => ?_
  unfold Disk.lexists
  rw [h.lstat hst hR]

/-- What the branch inherits reads the same while texts are merged. -/
theorem Detected.inheritedNode (h : Detected name m r m₁) (hb : m.forest.get? name = some b)
    (hst : Straight m name p) : m₁.inheritedNode b p = m.inheritedNode b p := by
  unfold Manager.inheritedNode
  rw [h.inheritedForTouch hb hst]
  cases hl : m.inheritedForTouch b p with
  | none => rfl
  | some l =>
    obtain ⟨R, hR, rfl⟩ := mem_layers_of_inheritedForTouch hb hl
    exact h.lstat hst hR

theorem Detected.currentIdentity (h : Detected name m r m₁) (hb : m.forest.get? name = some b)
    (hst : Straight m name p) : m₁.currentIdentity b p = m.currentIdentity b p := by
  rw [currentIdentity_eq, currentIdentity_eq, h.inheritedNode hb hst]

/-- The merge comes out the same while others are written. -/
theorem Detected.mergedBytes (h : Detected b.name m r m₁) (hb : m.forest.get? b.name = some b)
    (hst : Straight m b.name p) : mergedBytes m₁ b p = BranchFs.mergedBytes m b p := by
  have hbase : baseText m₁ b p = baseText m b p := by
    unfold baseText
    cases (b.touchRecordOrMissing p).baseContentKey with
    | none => rfl
    | some key => rw [Option.bind_some, Option.bind_some, h.same _ (by simp [touchContentPath])]
  have hdelta : m₁.disk.get (deltaPath b.name p) = m.disk.get (deltaPath b.name p) :=
    h.same _ (by simp [deltaPath])
  unfold BranchFs.mergedBytes
  rw [hbase, h.inheritedNode hb hst, hdelta]

theorem Detected.mergesCleanly (h : Detected b.name m r m₁) (hb : m.forest.get? b.name = some b)
    (hst : Straight m b.name p) : MergesCleanly m₁ b p ↔ MergesCleanly m b p := by
  unfold MergesCleanly BothFiles
  rw [h.currentIdentity hb hst, h.mergedBytes hb hst]

theorem Detected.panicsAt (h : Detected b.name m r m₁) (hb : m.forest.get? b.name = some b)
    (hst : Straight m b.name p) : PanicsAt m₁ b p ↔ PanicsAt m b p := by
  unfold PanicsAt MovedOn BothFiles
  rw [h.currentIdentity hb hst, h.mergedBytes hb hst]

end

/-- One file of the detection. -/
theorem Detected.file {m m' : Manager} {b : Branch} {r : Report} (h : Detected b.name m r m')
    (hb : m.forest.get? b.name = some b) (hcap : CanCapture m.disk b.name) {p : RelPath} {src : Place}
    (hst : Straight m b.name p) (hplace : src = deltaPath b.name p)
    (hleaf : Leaf .dir (deltaKind m.disk b.name) p) :
    (¬ PanicsAt m b p ∧
      ∃ r' m'', detectFile b p src r m' = .ok r' m'' ∧ Detected b.name m r' m'') ∨
    (PanicsAt m b p ∧ detectFile b p src r m' = .error .panicked m') := by
  have hget : (get : Mgr Manager) m' = .ok m' m' := rfl
  rw [detectFile, bind_ok hget]
  simp only
  by_cases hsame : (b.touchRecordOrMissing p).baseAtFirstTouch = m'.currentIdentity b p
  · rw [if_pos hsame]
    rw [h.currentIdentity hb hst] at hsame
    exact Or.inl ⟨fun hp => hp.1 hsame, r, m', rfl, h⟩
  rw [if_neg hsame]
  have hleaf' : Leaf .dir (deltaKind m'.disk b.name) p := by
    obtain ⟨k, hk, hkd⟩ := hleaf
    refine ⟨k, ?_, hkd⟩
    unfold deltaKind at hk ⊢
    rw [h.same.kindAt (by simp [deltaPath]), hk]
  rcases mergeAttempt_eq (canCapture_of_same h.same hcap) hplace hleaf' hsame with
    ⟨hno, merged, hmerged, -⟩ | ⟨hpanic, herror⟩
  swap
  · exact Or.inr ⟨(h.panicsAt hb hst).mp hpanic, by rw [bind_error herror]⟩
  refine Or.inl ⟨fun hp => hno ((h.panicsAt hb hst).mpr hp), ?_⟩
  rw [bind_ok hmerged]
  cases merged with
  | none => exact ⟨_, m', rfl, h.report rfl rfl⟩
  | some bytes =>
    have hdirs : onDisk (Io.ensureParentDirs (mergedPath b.name p)) m' = .ok () m' :=
      onDisk_ok (Posix.Sys.createDirAll_of_dir rfl (Disk.kindAt_root _ rfl))
    obtain ⟨d, hd, hput⟩ := writeFile_top bytes (h.can (touchContentKey p))
    have hwrite : onDisk (Posix.Sys.writeFile (mergedPath b.name p) bytes) m' =
        .ok () { m' with disk := d } := onDisk_ok hd
    -- a merged file stays one while others are written
    have hfile : ∀ l, l.root = some (.mergeContent b.name) → m'.disk.fileAt l = true →
        d.fileAt l = true := by
      intro l _ hl
      unfold Disk.fileAt at hl ⊢
      rw [Disk.kindAt_putFile hput]
      split
      · rfl
      · exact hl
    let r' : Report := { r with
      autoMerges := r.autoMerges ++ [⟨p, "clean_text_merge"⟩]
      sources := r.sources ++ [(p, mergedPath b.name p)] }
    refine ⟨r', { m' with disk := d }, ?_, ?_⟩
    · simp only
      rw [bind_ok hdirs, bind_ok hwrite]
      rfl
    · refine ⟨?_, ?_, h.same.trans (Posix.Sys.sameOn_putFile_ok hput), ?_, ?_⟩
      · intro q hq
        rw [List.map_append] at hq
        rcases List.mem_append.mp hq with hq | hq
        · exact h.mergedOver q hq
        · obtain rfl : q = p := by simpa using hq
          refine ⟨hleaf, m'.disk, h.same, fun b' hb' => ?_⟩
          obtain rfl : b = b' := Option.some.inj (hb.symm.trans hb')
          rw [← h.rest]
          exact inherited_of_mergeAttempt hmerged
      · rw [h.rest]
      · intro key
        unfold Disk.fileAt
        rw [Disk.kindAt_putFile hput]
        split
        · exact Or.inr rfl
        · exact h.can key
      · intro s hs
        rcases List.mem_append.mp hs with hs | hs
        · obtain ⟨h1, h2, h3⟩ := h.sources s hs
          exact ⟨h1, hfile _ (by rw [h1]; rfl) h2, by
            rw [List.map_append]
            exact List.mem_append_left _ h3⟩
        · rw [List.mem_singleton] at hs
          subst hs
          have hkind : d.kindAt (mergedPath b.name p) = some (.file bytes) := by
            rw [Disk.kindAt_putFile hput]
            exact if_pos rfl
          refine ⟨rfl, ?_, ?_⟩
          · show d.fileAt (mergedPath b.name p) = true
            rw [Disk.fileAt, hkind]
            rfl
          · show p ∈ (r.autoMerges ++ [(⟨p, "clean_text_merge"⟩ : CommitAutoMerge)]).map _
            simp

/-- **The detection fails only in a panic**, and leaves the disk as it was but for merged texts. -/
theorem detectFiles_cases {m : Manager} {b : Branch} (hb : m.forest.get? b.name = some b)
    (hcap : CanCapture m.disk b.name) :
    ∀ (files : List (RelPath × Place)) (r : Report) (m' : Manager),
      (∀ f ∈ files, (f.2 = deltaPath b.name f.1 ∧ Leaf .dir (deltaKind m.disk b.name) f.1) ∧
        Straight m b.name f.1) →
      Detected b.name m r m' →
      ((∀ f ∈ files, ¬ PanicsAt m b f.1) ∧
        ∃ r' m'', detectFiles b files r m' = .ok r' m'' ∧ Detected b.name m r' m'') ∨
      ((∃ f ∈ files, PanicsAt m b f.1) ∧
        ∃ m'', detectFiles b files r m' = .error .panicked m'') := by
  intro files
  induction files with
  | nil =>
    intro r m' _ h
    exact Or.inl ⟨by simp, r, m', rfl, h⟩
  | cons f files ih =>
    intro r m' hfiles h
    obtain ⟨p, src⟩ := f
    obtain ⟨⟨hplace, hleaf⟩, hst⟩ := hfiles (p, src) List.mem_cons_self
    rcases h.file hb hcap hst hplace hleaf with ⟨hno, r₁, m₁, hrun, h₁⟩ | ⟨hpanic, hrun⟩
    swap
    · exact Or.inr ⟨⟨_, List.mem_cons_self, hpanic⟩, m', by rw [detectFiles, bind_error hrun]⟩
    rcases ih r₁ m₁ (fun g hg => hfiles g (List.mem_cons_of_mem _ hg)) h₁ with
      ⟨hrest, r₂, m₂, hrun₂, h₂⟩ | ⟨⟨g, hg, hpanic⟩, m₂, hrun₂⟩
    · refine Or.inl ⟨fun g hg => ?_, r₂, m₂, by rw [detectFiles, bind_ok hrun, hrun₂], h₂⟩
      rcases List.mem_cons.mp hg with rfl | hg
      · exact hno
      · exact hrest g hg
    · exact Or.inr ⟨⟨g, List.mem_cons_of_mem _ hg, hpanic⟩, m₂, by
        rw [detectFiles, bind_ok hrun, hrun₂]⟩

/-- The detection of a commit of `name` into `parent` panics. -/
def DetectionPanics (m : Manager) (name : String) (b parent : Branch) : Prop :=
  parent.commitCount ≠ b.parentVersionAtFork ∧
    ∃ p, Leaf .dir (deltaKind m.disk name) p ∧ PanicsAt m b p

/-- **The report of a commit is made**, unless a merge panics. -/
theorem reportFor_cases {m : Manager} {b : Branch} (parent : Branch)
    (hb : m.forest.get? b.name = some b) (hstore : PlainStore m.disk b.name)
    (hst : ∀ p, Leaf .dir (deltaKind m.disk b.name) p → Straight m b.name p) (ts : List RelPath) :
    (¬ DetectionPanics m b.name b parent ∧
      ∃ r m', reportFor b parent ts (walkFiles m.disk b.name) m = .ok r m' ∧
        Detected b.name m r m') ∨
    (DetectionPanics m b.name b parent ∧
      ∃ m', reportFor b parent ts (walkFiles m.disk b.name) m = .error .panicked m') := by
  have hstart : ∀ cs, Detected b.name m ⟨[], cs, []⟩ m :=
    fun cs => ⟨by simp, rfl, SameOn.refl _ _, hstore.merge, by simp⟩
  unfold reportFor
  by_cases hcount : parent.commitCount ≠ b.parentVersionAtFork
  swap
  · rw [if_neg hcount]
    exact Or.inl ⟨fun h => hcount h.1, _, m, rfl, hstart []⟩
  have hget : (get : Mgr Manager) m = .ok m m := rfl
  rw [if_pos hcount, detect, bind_ok hget]
  have hfiles : ∀ f ∈ walkFiles m.disk b.name, (f.2 = deltaPath b.name f.1 ∧
      Leaf .dir (deltaKind m.disk b.name) f.1) ∧ Straight m b.name f.1 := fun f hf =>
    have hf' := mem_walkFiles.mp (show (f.1, f.2) ∈ _ from hf)
    ⟨hf', hst f.1 hf'.2⟩
  rcases detectFiles_cases hb hstore.capture _ _ m hfiles (hstart _) with
    ⟨hno, hok⟩ | ⟨⟨f, hf, hpanic⟩, herror⟩
  · refine Or.inl ⟨?_, hok⟩
    rintro ⟨-, p, hleaf, hpanic⟩
    obtain ⟨f, hf, rfl⟩ := List.mem_map.mp (mem_walkFiles_fst.mpr hleaf)
    exact hno f hf hpanic
  · exact Or.inr ⟨⟨hcount, f.1, (hfiles f hf).1.2, hpanic⟩, herror⟩

/-- A file of the session is committed from its delta, or from the text merged for it. -/
theorem Detected.sourceOf {m m' : Manager} {name : String} {r : Report} (h : Detected name m r m')
    (f : RelPath × Place) :
    r.sourceOf f = f.2 ∨
    (r.sourceOf f = mergedPath name f.1 ∧ m'.disk.fileAt (mergedPath name f.1) = true ∧
      f.1 ∈ r.autoMerges.map CommitAutoMerge.path) := by
  unfold Report.sourceOf
  cases hl : r.sources.lookup f.1 with
  | none => exact Or.inl rfl
  | some l =>
    obtain ⟨l₁, l₂, hsplit, _⟩ := List.lookup_eq_some_iff.mp hl
    obtain ⟨h1, h2, h3⟩ := h.sources (f.1, l) (by simp [hsplit])
    right
    simp only [Option.getD_some]
    simp only at h1 h2 h3
    subst h1
    exact ⟨rfl, h2, h3⟩

end BranchFs
