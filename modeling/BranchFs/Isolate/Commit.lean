/-
# BranchFs.Isolate.Commit -- what a commit leaves alone

A commit writes the tree it goes to, the merged contents of its branch, and for a commit into the
base `main`'s own delta; it changes the record of the parent and drops the branch. `Spares b` says
that the record, the delta and the snapshot of `b` are none of that. It holds of every commit of another branch
into another branch that follows no link, whether the commit goes through or not.
-/
import BranchFs.Isolate.Staging
import BranchFs.Merge.Views

namespace BranchFs

open BranchFs.Posix BranchFs.Logic

/-- The trees a branch shows of its own: its delta and its snapshot. -/
def OwnLayer (b : String) (r : Option Root) : Prop := r = some (.files b) ∨ r = some (.inherited b)

/-- The record, the delta and the snapshot of `b` are what they were. -/
structure Spares (b : String) (m m' : Manager) : Prop where
  record : m'.forest.get? b = m.forest.get? b
  layers : SameOn (OwnLayer b) m.disk m'.disk

namespace Spares

variable {b name : String} {m m' m'' : Manager}

theorem refl (b : String) (m : Manager) : Spares b m m := ⟨rfl, SameOn.refl _ _⟩

theorem trans (h : Spares b m m') (h' : Spares b m' m'') : Spares b m m'' :=
  ⟨h'.record.trans h.record, h.layers.trans h'.layers⟩

/-- What is done to one branch spares the others. -/
theorem of_isolated (h : Isolated name m m') (hne : b ≠ name) : Spares b m m' where
  record := h.forest.get?_ne hne
  layers := h.same.mono fun r hr hown => by
    rcases hr with rfl | rfl
    · simp [Own, hne] at hown
    · simp [Own] at hown

end Spares

section

variable {b name : String} {S S' : Set Place} {W : Option Root → Prop} {α : Type}

theorem spares_onDisk {x : Io α} (h : Framed (Inside W) (Guard S) (Guard S') x)
    (hW : ∀ r, OwnLayer b r → ¬ W r) : Framed (Spares b) (Clear S) (Clear S') (onDisk x) := by
  intro m hm
  obtain ⟨hsame, hS'⟩ := h m.disk hm
  have hrun : after (onDisk x) m = { m with disk := after x m.disk } := by
    unfold after onDisk
    cases hx : x m.disk <;> rfl
  rw [hrun]
  exact ⟨⟨rfl, hsame.mono fun r hr => hW r hr⟩, hS'⟩

theorem spares_modify {f : Branch → Branch} (hne : b ≠ name) :
    Framed (Spares b) (Clear S) (Clear S) (modifyBranch name f) := fun _ hm =>
  ⟨⟨Forest.get?_modify_ne hne, SameOn.refl _ _⟩, hm⟩

theorem spares_bumpEpoch : Framed (Spares b) (Clear S) (Clear S) bumpEpoch := fun _ hm =>
  ⟨⟨rfl, SameOn.refl _ _⟩, hm⟩

/-- The trees of another branch are not those of `b`. -/
theorem sameOn_purge {d : Tree} {P : Option Root → Bool} :
    SameOn (fun r => P r = false) d (d.purge P) := by
  intro l hl
  rw [Disk.get_purge, if_neg (by simp [hl])]

theorem spares_removeBranch (hne : b ≠ name) :
    Framed (Spares b) (Clear S) (fun _ => True) (removeBranch name) := by
  intro m _
  unfold after removeBranch
  by_cases h : m.forest.isLeaf name = true ∧ name ≠ "main"
  · rw [dif_pos h]
    refine ⟨⟨?_, ?_⟩, trivial⟩
    · rw [Forest.get?_remove, if_neg hne]
    · refine sameOn_purge.mono fun r hr => ?_
      rcases hr with rfl | rfl
      · simp [ofBranch, Root.owner, hne]
      · simp [ofBranch, Root.owner, hne]
  · rw [dif_neg h]
    exact ⟨Spares.refl b m, trivial⟩

end

/-! ## A commit that follows no link -/

namespace Manager

/-- What a commit of `name` has as targets: its tombstones and its delta files. -/
def commitTargets (m : Manager) (name : String) (c : Branch) : Set RelPath :=
  { p | p ∈ c.tombstones ∨ p ∈ (walkFiles m.disk name).map Prod.fst }

/-- The commit of `name` into `parent` finds no link where it goes: in its contents directory, on the
way to a target, at the temporary place of a copy; it copies no link to a place on the way to another
target; and `main`'s delta, when it is the base that is committed to, has none on the way to a
target. -/
structure CommitClear (m : Manager) (name : String) (c parent : Branch) : Prop where
  plain : ∀ t ∈ m.commitTargets name c, PlainPath t
  content : ∀ l : Place, l.root = some (.mergeContent name) → m.disk.linkAt l = false
  way : ∀ q, Passes (m.commitTargets name c) q →
    m.disk.linkAt (inTree (destination parent.name) q) = false
  tmp : ∀ f ∈ (walkFiles m.disk name).map Prod.fst,
    m.disk.linkAt (inTree (destination parent.name) (sidePath "tmp" f)) = false
  between : ∀ f ∈ (walkFiles m.disk name).map Prod.fst,
    (∃ t ∈ m.commitTargets name c, f <+: t ∧ f ≠ t) → m.disk.linkAt (deltaPath name f) = false
  shadow : parent.name = "main" → ∀ t ∈ m.commitTargets name c, ∀ q, q <+: t → q ≠ t →
    m.disk.linkAt (deltaPath "main" q) = false

end Manager

/-- The delta files of `name` that stand on the way to another target, with the way to them. -/
def overPlaces (m : Manager) (name : String) (c : Branch) : Set Place :=
  { l | ∃ f ∈ (walkFiles m.disk name).map Prod.fst,
    (∃ t ∈ m.commitTargets name c, f <+: t ∧ f ≠ t) ∧ l ≤ deltaPath name f }

def contentPlaces (name : String) : Set Place := { l | l.root = some (.mergeContent name) }

/-- `main`'s delta on the way to the targets. -/
def shadowPlaces (m : Manager) (name : String) (c parent : Branch) : Set Place :=
  { l | parent.name = "main" ∧ ∃ t ∈ m.commitTargets name c, l < deltaPath "main" t }

/-- What the commit of `name` goes by, and does not change, outside the tree it goes to. -/
def asidePlaces (m : Manager) (name : String) (c parent : Branch) : Set Place :=
  overPlaces m name c ∪ contentPlaces name ∪ shadowPlaces m name c parent

/-- What is guarded through the whole of a commit. -/
def commitPlaces (m : Manager) (name : String) (c parent : Branch) : Set Place :=
  wayPlaces (destination parent.name) (m.commitTargets name c) ∪ asidePlaces m name c parent

/-- And before the copies are made, their temporary places. -/
def stagedPlaces (m : Manager) (name : String) (c parent : Branch) : Set Place :=
  commitPlaces m name c parent ∪
    tmpPlaces (destination parent.name) ((walkFiles m.disk name).map Prod.fst)

section

variable {m : Manager} {b name : String} {c parent : Branch}

theorem destination_ne_content (parent name : String) :
    destination parent ≠ .mergeContent name := by
  unfold destination
  split <;> simp

/-- The destination is the delta of another branch only if that is the parent. -/
theorem destination_ne_files {parent b : String} (h : b ≠ parent) :
    destination parent ≠ .files b := by
  unfold destination
  split
  · simp
  · simpa using fun heq => h heq.symm

theorem destination_ne_layer {parent b : String} (h : b ≠ parent) :
    ∀ r, OwnLayer b r → ¬ r = some (destination parent) := by
  rintro r (rfl | rfl) heq
  · exact destination_ne_files h (Option.some.inj heq).symm
  · have hdest := Option.some.inj heq
    unfold destination at hdest
    split at hdest
    · cases hdest
    · cases hdest

theorem asidePlaces_root (hup : name ≠ parent.name) {l : Place}
    (hl : l ∈ asidePlaces m name c parent) : l.root ≠ some (destination parent.name) := by
  rcases hl with (⟨f, -, -, hle⟩ | hl) | ⟨hmain, t, -, hlt⟩
  · rw [Loc.root_eq_of_le hle]
    intro h
    exact destination_ne_files hup (Option.some.inj h).symm
  · rw [show l.root = some (.mergeContent name) from hl]
    intro h
    exact destination_ne_content _ _ (Option.some.inj h).symm
  · rw [Loc.root_eq_of_le hlt.le]
    unfold destination
    rw [if_pos hmain]
    simp [deltaPath]

theorem Manager.CommitClear.sealing (h : m.CommitClear name c parent) (hup : name ≠ parent.name) :
    Sealing (commitPlaces m name c parent) (destination parent.name) (m.commitTargets name c) :=
  (sealing_wayPlaces h.plain).union fun _ hl => asidePlaces_root hup hl

theorem walkFiles_ne_nil {d : Tree} {name : String} {f : RelPath}
    (hf : f ∈ (walkFiles d name).map Prod.fst) : f ≠ [] := by
  rintro rfl
  obtain ⟨k, hk, hkd⟩ := mem_walkFiles_fst.mp hf
  rw [Disk.kindAt_root d rfl] at hk
  exact hkd (Option.some.inj hk).symm

/-- The state a clear commit starts from meets its guard. -/
theorem Manager.CommitClear.clear (h : m.CommitClear name c parent) :
    Clear (stagedPlaces m name c parent) m := by
  have hroot : ∀ R, m.disk.linkAt (inTree R []) = false := fun R =>
    Disk.linkAt_eq_false_of_kind (Disk.kindAt_root m.disk rfl) rfl
  rintro l ((⟨q, rfl, rfl | hq⟩ | (⟨f, hf, hbetween, hle⟩ | hl) | ⟨hmain, t, ht, hlt⟩) | ⟨f, hf, rfl⟩)
  · exact hroot _
  · exact h.way q hq
  · by_cases heq : l = deltaPath name f
    · rw [heq]
      exact h.between f hf hbetween
    · -- above a delta file there are directories
      obtain ⟨k, hk, -⟩ := mem_walkFiles_fst.mp hf
      exact Disk.linkAt_eq_false_of_kind (Disk.dir_above (by simp [hk]) hle heq) rfl
  · exact h.content l hl
  · have hroot : l.root = (deltaPath "main" t).root := Loc.root_eq_of_le hlt.le
    obtain ⟨q, rfl⟩ : ∃ q, l = deltaPath "main" q := ⟨l.path, Loc.ext' hroot rfl⟩
    exact h.shadow hmain t ht q hlt.le.2 fun heq => hlt.ne (by rw [heq])
  · exact h.tmp f hf

/-! ## Relations a commit keeps -/

/-- What a relation between states has to allow so that it holds of a commit of `name` into `parent`: merged
contents, the tree the commit goes to and the delta of the parent, the parent's record, the branch taken
out. -/
structure AllowsCommit (R : Manager → Manager → Prop) (name : String) (parent : Branch) : Prop where
  refl : ∀ m, R m m
  trans : ∀ m₁ m₂ m₃, R m₁ m₂ → R m₂ m₃ → R m₁ m₃
  disk : ∀ (m : Manager) (d : Tree), SameOn (fun r => r ≠ some (.mergeContent name) ∧
    r ≠ some (destination parent.name) ∧ r ≠ some (.files parent.name)) m.disk d →
      R m { m with disk := d }
  isolated : ∀ m m', Isolated parent.name m m' → R m m'
  record : ∀ f m, R m (after (modifyBranch parent.name f) m)
  remove : ∀ m, R m (after (removeBranch name) m)
  epoch : ∀ m, R m (after bumpEpoch m)

namespace AllowsCommit

variable {R : Manager → Manager → Prop} {S S' : Set Place} {α β : Type}

theorem onDisk {x : Io α} {V : Option Root → Prop} (h : AllowsCommit R name parent)
    (hx : Framed (Inside V) (Guard S) (Guard S') x)
    (hV : ∀ r, V r → r = some (.mergeContent name) ∨ r = some (destination parent.name) ∨
      r = some (.files parent.name)) :
    Framed R (Clear S) (Clear S') (onDisk x) := by
  intro m hm
  obtain ⟨hsame, hS'⟩ := hx m.disk hm
  have hrun : after (BranchFs.onDisk x) m = { m with disk := after x m.disk } := by
    unfold after BranchFs.onDisk
    cases hx : x m.disk <;> rfl
  rw [hrun]
  refine ⟨h.disk m _ (hsame.mono fun r hr hVr => ?_), hS'⟩
  rcases hV r hVr with heq | heq | heq
  · exact hr.1 heq
  · exact hr.2.1 heq
  · exact hr.2.2 heq

theorem seq {P Q U : Manager → Prop} {x : Mgr α} {f : α → Mgr β} (h : AllowsCommit R name parent)
    (hx : Framed R P Q x) (hf : ∀ a, Framed R Q U (f a)) (hU : ∀ m, Q m → U m) :
    Framed R P U (x >>= f) :=
  framed_bind h.trans hx (fun a _ _ _ _ => hf a) hU

theorem pure {P : Manager → Prop} (h : AllowsCommit R name parent) (a : α) :
    Framed R P P (Pure.pure a : Mgr α) := framed_pure h.refl (fun _ h => h) a

theorem look {P : Manager → Prop} {x : Mgr α} (h : AllowsCommit R name parent)
    (hx : ∀ m, after x m = m) : Framed R P P x := framed_read h.refl hx

end AllowsCommit

section Detection

variable {R : Manager → Manager → Prop} {S : Set Place}

/-! ### Detection -/

theorem after_readTouchBaseContent (n : String) (r : TouchRecord) (m : Manager) :
    after (readTouchBaseContent n r) m = m := by
  unfold readTouchBaseContent
  cases r.baseContentKey with
  | none => rfl
  | some key =>
    have hread := after_readFile (touchContentPath n key) m.disk
    cases hr : Posix.Sys.readFile (touchContentPath n key) m.disk with
    | ok bytes d =>
      rw [after_ok hr] at hread
      simp only [after, hr, hread]
    | error e d =>
      rw [after_error hr] at hread
      cases e <;> simp only [after, hr, hread]

/-- The attempt at a merge only reads. -/
theorem framed_mergeAttempt {P : Manager → Prop} (h : AllowsCommit R name parent) (p : RelPath)
    (src : Place) (first current : PathIdentity) :
    Framed R P P (mergeAttempt c p src first current) := by
  have hread : ∀ l : Place, Framed R P P (onDisk (readBoundedText l)) := fun l =>
    h.look (after_onDisk_of (after_readBoundedText l))
  unfold mergeAttempt
  split
  · refine h.seq (h.look fun _ => rfl) (fun m => ?_) fun _ h => h
    refine h.seq (h.look (after_readTouchBaseContent _ _)) (fun baseBytes => ?_) fun _ h => h
    refine h.seq (hread src) (fun sessionBytes => ?_) fun _ h => h
    split
    · refine h.seq (hread _) (fun current => ?_) fun _ h => h
      cases current with
      | none => exact h.pure _
      | some bytes =>
        dsimp only
        split
        · exact h.pure _
        · exact framed_throw h.refl (fun _ h => h) _
    · exact h.pure _
  · exact h.pure _

/-- The merged contents of a commit are the only thing its detection writes. -/
theorem framed_detectFile (h : AllowsCommit R c.name parent) (hS : contentPlaces c.name ⊆ S)
    (p : RelPath) (src : Place) (r : Report) :
    Framed R (Clear S) (Clear S) (detectFile c p src r) := by
  have hway : WayIn S (mergedPath c.name p) := by
    refine fun a ha _ => hS ?_
    show a.root = _
    rw [Loc.root_eq_of_le ha]
    rfl
  have hin : mergedPath c.name p ∈ S := hS rfl
  have hout : ∀ r, (mergedPath c.name p).root = r → r = some (.mergeContent c.name) ∨
      r = some (destination parent.name) ∨ r = some (.files parent.name) := fun _ hr => Or.inl hr.symm
  refine h.seq (h.look fun _ => rfl) (fun m => ?_) fun _ h => h
  dsimp only
  split
  · exact h.pure r
  · refine h.seq (framed_mergeAttempt h p src _ _) (fun merged => ?_) fun _ h => h
    cases merged with
    | none => exact h.pure _
    | some bytes =>
      refine h.seq (h.onDisk (framed_ensureParentDirs rfl rfl hway) hout) (fun _ => ?_) fun _ h => h
      exact h.seq (h.onDisk (Posix.Sys.framed_writeFile rfl rfl hway hin) hout) (fun _ => h.pure _)
        fun _ h => h

theorem framed_detectFiles (h : AllowsCommit R c.name parent) (hS : contentPlaces c.name ⊆ S) :
    ∀ (files : List (RelPath × Place)) (r : Report),
      Framed R (Clear S) (Clear S) (detectFiles c files r) := by
  intro files
  induction files with
  | nil => exact fun r => h.pure r
  | cons f rest ih =>
    exact fun r => h.seq (framed_detectFile h hS f.1 f.2 r) (fun r' => ih r') fun _ h => h

theorem framed_reportFor (h : AllowsCommit R c.name parent) (hS : contentPlaces c.name ⊆ S)
    (tombstones : List RelPath) (files : List (RelPath × Place)) :
    Framed R (Clear S) (Clear S) (reportFor c parent tombstones files) := by
  unfold reportFor
  split
  · exact h.seq (h.look fun _ => rfl) (fun m => framed_detectFiles h hS files _) fun _ h => h
  · exact h.pure _

end Detection

/-- Every source that replaces a delta file is a merged content of the branch. -/
def OwnSources (name : String) (r : Report) : Prop :=
  ∀ s ∈ r.sources, s.2.root = some (.mergeContent name)

theorem ownSources_detectFile {m m' : Manager} {p : RelPath} {src : Place} {r r' : Report}
    (hr : OwnSources c.name r) (h : detectFile c p src r m = .ok r' m') : OwnSources c.name r' := by
  unfold detectFile at h
  obtain ⟨m₁, _, -, h⟩ := bind_eq_ok h
  dsimp only at h
  split at h
  · cases h
    exact hr
  · obtain ⟨merged, m₂, -, h⟩ := bind_eq_ok h
    cases merged with
    | none =>
      cases h
      exact hr
    | some bytes =>
      obtain ⟨_, m₃, -, h⟩ := bind_eq_ok h
      obtain ⟨_, m₄, -, h⟩ := bind_eq_ok h
      cases h
      intro s hs
      rcases List.mem_append.mp hs with hs | hs
      · exact hr s hs
      · rw [List.mem_singleton.mp hs]
        rfl

theorem ownSources_detectFiles : ∀ (files : List (RelPath × Place)) {m m' : Manager} {r r' : Report},
    OwnSources c.name r → detectFiles c files r m = .ok r' m' → OwnSources c.name r' := by
  intro files
  induction files with
  | nil =>
    intro m m' r r' hr h
    cases h
    exact hr
  | cons f rest ih =>
    intro m m' r r' hr h
    obtain ⟨r₁, m₁, hfirst, h⟩ := bind_eq_ok h
    exact ih (ownSources_detectFile hr hfirst) h

theorem ownSources_reportFor {m m' : Manager} {tombstones : List RelPath}
    {files : List (RelPath × Place)} {r : Report}
    (h : reportFor c parent tombstones files m = .ok r m') : OwnSources c.name r := by
  unfold reportFor at h
  split at h
  · obtain ⟨m₁, _, -, h⟩ := bind_eq_ok h
    exact ownSources_detectFiles files (by simp [OwnSources]) h
  · cases h
    simp [OwnSources]

/-! ## Application -/

/-- What a copy is made from is no link where the copy stands on the way to another target. -/
theorem unlinked_sourceOf {r : Report} (hr : OwnSources name r)
    {f : RelPath × Place} (hf : f ∈ walkFiles m.disk name) (hup : name ≠ parent.name)
    (hplain : ∀ t ∈ m.commitTargets name c, PlainPath t) :
    Unlinked (commitPlaces m name c parent) (destination parent.name) f.1 (r.sourceOf f) := by
  have hmem : f.1 ∈ (walkFiles m.disk name).map Prod.fst := List.mem_map.mpr ⟨f, hf, rfl⟩
  intro hin
  rcases hin with hin | hin
  swap
  · exact absurd rfl (asidePlaces_root hup hin)
  have hover : ∃ t ∈ m.commitTargets name c, f.1 <+: t ∧ f.1 ≠ t := by
    rcases inTree_mem_wayPlaces.mp hin with hnil | hpass
    · exact absurd hnil (walkFiles_ne_nil hmem)
    · have habove := hpass.above
      rwa [barePath_of_plain (hplain _ (Or.inr hmem))] at habove
  unfold Report.sourceOf
  cases hl : r.sources.lookup f.1 with
  | none =>
    have hsrc : f.2 = deltaPath name f.1 := (mem_walkFiles.mp (show (f.1, f.2) ∈ _ from hf)).1
    show (∃ r, f.2.root = some r) ∧ _
    rw [Option.getD_none, hsrc]
    exact ⟨⟨_, rfl⟩, fun a ha => Or.inr (Or.inl (Or.inl ⟨f.1, hmem, hover, ha⟩))⟩
  | some l =>
    have hroot : l.root = some (.mergeContent name) := by
      obtain ⟨l₁, l₂, hsplit, -⟩ := List.lookup_eq_some_iff.mp hl
      exact hr (f.1, l) (by simp [hsplit])
    rw [Option.getD_some]
    refine ⟨⟨_, hroot⟩, fun a ha => Or.inr (Or.inl (Or.inr ?_))⟩
    show a.root = _
    rw [Loc.root_eq_of_le ha]
    exact hroot

/-- `main`'s delta is dropped at the targets, with no link on the way. -/
theorem framed_dropMainDelta {R : Manager → Manager → Prop} {S : Set Place}
    (h : AllowsCommit R name parent) (hmain : parent.name = "main") (paths : List RelPath)
    (hway : ∀ p ∈ paths, WayIn S (deltaPath "main" p)) :
    Framed R (Clear S) (Clear S) (dropMainDelta paths) := by
  refine framed_forM h.refl h.trans _ fun p hp => ?_
  have hdrop : Framed R (Clear S) (Clear S) (onDisk (Io.removeEntry (deltaPath "main" p))) := by
    refine h.onDisk (V := (· = some (.files "main"))) (framed_removeEntry rfl rfl (hway p hp)) ?_
    rintro r rfl
    exact Or.inr (Or.inr (by rw [hmain]))
  exact h.seq (framed_attempt hdrop) (fun _ => h.pure _) fun _ h => h

/-- What is left of a commit once the tree is merged. -/
theorem framed_finish {R : Manager → Manager → Prop} {S : Set Place} {P : Mgr Unit}
    (h : AllowsCommit R name parent) (hP : Framed R (Clear S) (Clear S) P) :
    Framed R (Clear S) (fun _ => True) (do
      P
      countCommit parent.name
      removeBranch name
      bumpEpoch) := by
  refine h.seq hP (fun _ => ?_) fun _ _ => trivial
  refine h.seq (Q := fun _ => True) (fun m _ => ⟨h.record _ m, trivial⟩) (fun _ => ?_) fun _ _ => trivial
  refine h.seq (Q := fun _ => True) (fun m _ => ⟨h.remove m, trivial⟩) (fun _ => ?_) fun _ _ => trivial
  exact fun m _ => ⟨h.epoch m, trivial⟩

section Apply

variable {r : Report} {tombstones : List RelPath} {Rel : Manager → Manager → Prop}

/-- The deletions of a nested commit. -/
theorem framed_stageParentDeletes {S : Set Place} {T : Set RelPath} {R : Root} {rest : List RelPath}
    (h : Sealing S R T) (hR : R = .files parent.name) (hrest : ∀ g ∈ rest, g ∈ T) :
    ∀ (ts : List RelPath) (w : NestedWork), (∀ t ∈ ts, t ∈ T) →
      Framed (InsideStage R) (Underway (S ∪ tmpPlaces R rest) R T)
        (Underway (S ∪ tmpPlaces R rest) R T) (stageParentDeletes m parent ts w) := by
  subst hR
  intro ts
  induction ts with
  | nil => exact fun w _ => framed_pure (InsideStage.refl _) (fun _ h => h) w
  | cons t ts ih =>
    intro w hts
    have hone : Framed (InsideStage (.files parent.name))
        (Underway (S ∪ tmpPlaces (.files parent.name) rest) (.files parent.name) T)
        (Underway (S ∪ tmpPlaces (.files parent.name) rest) (.files parent.name) T)
        (stageParentDelete m parent t w) := by
      refine framed_stageSeq (framed_readStage _) (fun there => ?_) fun _ h => h
      refine framed_stageSeq (framed_readStage _) (fun inherited => ?_) fun _ h => h
      exact framed_stageSeq (framed_stageDelete h (hts t List.mem_cons_self) hrest)
        (fun _ => framed_pure (InsideStage.refl _) (fun _ h => h) _) fun _ h => h
    exact framed_stageSeq hone (fun w' => ih w' fun x hx => hts x (List.mem_cons_of_mem t hx))
      fun _ h => h

/-- The directories a nested commit may have emptied are those of its tombstones. -/
theorem emptied_of_stageParentDeletes :
    ∀ (ts : List RelPath) {w w' : NestedWork} {s s' : Staging},
      stageParentDeletes m parent ts w s = .ok w' s' →
        ∀ d ∈ w'.emptied, d ∈ w.emptied ∨ ∃ t ∈ ts, d = t.dropLast := by
  intro ts
  induction ts with
  | nil =>
    intro w w' s s' h d hd
    cases h
    exact Or.inl hd
  | cons t ts ih =>
    intro w w' s s' h d hd
    obtain ⟨w₁, s₁, hone, hrest⟩ := bind_eq_ok h
    obtain ⟨there, s₂, -, hone⟩ := bind_eq_ok hone
    obtain ⟨inherited, s₃, -, hone⟩ := bind_eq_ok hone
    obtain ⟨_, s₄, -, hone⟩ := bind_eq_ok hone
    cases hone
    rcases ih hrest d hd with hd | ⟨x, hx, rfl⟩
    · -- the directory of this tombstone is listed if the delta had an entry there
      cases there with
      | false => exact Or.inl (by simpa using hd)
      | true =>
        rcases List.mem_append.mp (by simpa using hd : d ∈ w.emptied ++ [t.dropLast]) with hd | hd
        · exact Or.inl hd
        · exact Or.inr ⟨t, List.mem_cons_self, List.mem_singleton.mp hd⟩
    · exact Or.inr ⟨x, List.mem_cons_of_mem t hx, rfl⟩

theorem commitTarget_of_file {f : RelPath × Place} (hf : f ∈ walkFiles m.disk name) :
    f.1 ∈ m.commitTargets name c ∧ f.1 ≠ [] := by
  have hmem : f.1 ∈ (walkFiles m.disk name).map Prod.fst := List.mem_map.mpr ⟨f, hf, rfl⟩
  exact ⟨Or.inr hmem, walkFiles_ne_nil hmem⟩

/-- The state of the stage when the deletions are done, and when the copies are made. -/
theorem framed_commitCopies (h : m.CommitClear name c parent) (hup : name ≠ parent.name)
    (hr : OwnSources name r) :
    Framed (InsideStage (destination parent.name))
      (Underway (stagedPlaces m name c parent) (destination parent.name) (m.commitTargets name c))
      (Underway (commitPlaces m name c parent) (destination parent.name) (m.commitTargets name c))
      (stageCopies (inTree (destination parent.name)) r (walkFiles m.disk name)) :=
  framed_stageCopies (h.sealing hup) r (walkFiles m.disk name) (fun _ hf => commitTarget_of_file hf)
    (walkFiles_antichain m.disk name).nodup fun _ hf => unlinked_sourceOf hr hf hup h.plain

theorem framed_stageIntoBase (hmain : parent.name = "main") (h : m.CommitClear name c parent)
    (hup : name ≠ parent.name) (hts : ∀ t ∈ tombstones, t ∈ m.commitTargets name c)
    (hr : OwnSources name r) :
    Framed (InsideStage (destination parent.name))
      (Underway (stagedPlaces m name c parent) (destination parent.name) (m.commitTargets name c))
      (Underway (commitPlaces m name c parent) (destination parent.name) (m.commitTargets name c))
      (stageIntoBase r tombstones (walkFiles m.disk name)) := by
  have hbase : basePath = inTree (destination parent.name) := by
    rw [show destination parent.name = .base from if_pos hmain]
    rfl
  unfold stageIntoBase
  rw [hbase]
  refine framed_stageSeq (framed_forM (InsideStage.refl _) InsideStage.trans _ fun t ht => ?_)
    (fun _ => framed_commitCopies h hup hr) fun s hs => ⟨hs.guard.mono Set.subset_union_left, hs.work⟩
  exact framed_stageDelete (h.sealing hup) (hts t ht) fun g hg => Or.inr hg

theorem framed_stageIntoParent (hmain : parent.name ≠ "main") (h : m.CommitClear name c parent)
    (hup : name ≠ parent.name) (hts : ∀ t ∈ tombstones, t ∈ m.commitTargets name c)
    (hr : OwnSources name r) (m₁ : Manager) :
    Framed (InsideStage (destination parent.name))
      (Underway (stagedPlaces m name c parent) (destination parent.name) (m.commitTargets name c))
      (Underway (commitPlaces m name c parent) (destination parent.name) (m.commitTargets name c))
      (stageIntoParent m₁ parent r tombstones (walkFiles m.disk name)) := by
  have hdest : destination parent.name = .files parent.name := if_neg hmain
  have hdelta : deltaPath parent.name = inTree (destination parent.name) := by
    rw [hdest]
    rfl
  have hlose : ∀ s, Underway (stagedPlaces m name c parent) (destination parent.name)
      (m.commitTargets name c) s → Underway (commitPlaces m name c parent)
        (destination parent.name) (m.commitTargets name c) s :=
    fun s hs => ⟨hs.guard.mono Set.subset_union_left, hs.work⟩
  unfold stageIntoParent
  rw [hdelta]
  refine framed_stageSeq (framed_stageParentDeletes (h.sealing hup) hdest
    (fun g hg => Or.inr hg) tombstones _ hts) (fun w => ?_) hlose
  exact framed_stageSeq (framed_commitCopies h hup hr)
    (fun _ => framed_pure (InsideStage.refl _) (fun _ h => h) w) fun _ h => h

/-- The answer of a call on the disk. -/
theorem onDisk_answer {α : Type} {x : Io α} {s t : Manager} {a : α} (h : onDisk x s = .ok a t) :
    ∃ d, x s.disk = .ok a d := by
  unfold onDisk at h
  cases hx : x s.disk with
  | error e d => simp [hx] at h
  | ok a' d =>
    simp only [hx, EStateM.Result.ok.injEq] at h
    exact ⟨d, by rw [h.1]⟩

theorem framed_commitIntoBase (hR : AllowsCommit Rel name parent) (hmain : parent.name = "main")
    (hup : name ≠ parent.name) (h : m.CommitClear name c parent)
    (hts : ∀ t ∈ tombstones, t ∈ m.commitTargets name c) (hr : OwnSources name r) :
    Framed Rel (Clear (stagedPlaces m name c parent)) (fun _ => True)
      (commitIntoBase name r tombstones (walkFiles m.disk name)) := by
  have hbody := framed_stageIntoBase hmain h hup hts hr
  have hrun := hR.onDisk (framed_runStaged (h.sealing hup) hbody) fun r hr => Or.inr (Or.inl hr)
  refine framed_bind_at hR.trans hrun ?_ fun _ _ => trivial
  rintro ⟨u, committed⟩ s t hs hok hclear
  obtain ⟨d, hd⟩ := onDisk_answer hok
  have hcommitted := (runStaged_answer (h.sealing hup) hbody hs hd).2
  show Framed _ _ _ (do
    dropMainDelta (committed ++ tombstones)
    countCommit "main"
    removeBranch name
    bumpEpoch)
  rw [← hmain]
  refine (framed_finish (S := commitPlaces m name c parent) hR ?_).mono
    (fun _ hu => hu ▸ hclear) fun _ h => h
  refine framed_dropMainDelta hR hmain _ fun p hp => ?_
  have hpT : p ∈ m.commitTargets name c := by
    rcases List.mem_append.mp hp with hp | hp
    · exact hcommitted p hp
    · exact hts p hp
  exact fun a ha hne => Or.inr (Or.inr ⟨hmain, p, hpT, lt_of_le_of_ne ha hne⟩)

/-- The directories that are pruned lie on the way to tombstones. -/
theorem emptied_on_way {m₁ : Manager} {s s' : Staging} {w : NestedWork} {ts : List RelPath}
    (hmain : parent.name ≠ "main") (hup : name ≠ parent.name) (h : m.CommitClear name c parent)
    (hts : ∀ t ∈ tombstones, t ∈ m.commitTargets name c)
    (hdeletes : stageParentDeletes m₁ parent tombstones ⟨ts, []⟩ s = .ok w s') :
    ∀ dir ∈ w.emptied, ∀ a, a <+: dir → deltaPath parent.name a ∈ commitPlaces m name c parent := by
  have hdest : destination parent.name = .files parent.name := if_neg hmain
  intro dir hdir a ha
  obtain ⟨x, hx, rfl⟩ : ∃ x ∈ tombstones, dir = x.dropLast := by
    rcases emptied_of_stageParentDeletes tombstones hdeletes dir hdir with hd | hd
    · cases hd
    · exact hd
  have hmem : inTree (destination parent.name) a ∈ commitPlaces m name c parent := by
    by_cases hnil : x = []
    · subst hnil
      rw [List.dropLast_nil, List.prefix_nil] at ha
      rw [ha]
      exact (h.sealing hup).root
    · refine (h.sealing hup).way x (hts x hx) a (ha.trans (List.dropLast_prefix x)) ?_
      rintro rfl
      have hle := ha.length_le
      have hpos := List.length_pos_iff.mpr hnil
      rw [List.length_dropLast] at hle
      omega
  rw [hdest] at hmem
  exact hmem

theorem framed_commitIntoParent (hR : AllowsCommit Rel name parent) (hmain : parent.name ≠ "main")
    (hup : name ≠ parent.name) (h : m.CommitClear name c parent)
    (hts : ∀ t ∈ tombstones, t ∈ m.commitTargets name c) (hr : OwnSources name r) :
    Framed Rel (Clear (stagedPlaces m name c parent)) (fun _ => True)
      (commitIntoParent name parent r tombstones (walkFiles m.disk name)) := by
  refine framed_at fun m₁ hm₁ => framed_look hR.refl rfl (fun m₂ hm₂ => ?_) trivial
  have hbody := framed_stageIntoParent hmain h hup hts hr m₂
  have hrun := hR.onDisk (framed_runStaged (h.sealing hup) hbody) fun r hr => Or.inr (Or.inl hr)
  refine framed_bind_at hR.trans (hrun.mono (fun s hs => hs ▸ hm₁) fun _ h => h) ?_ fun _ _ => trivial
  rintro ⟨w, copied⟩ s t rfl hok hclear
  obtain ⟨d, hd⟩ := onDisk_answer hok
  obtain ⟨st, hst⟩ := (runStaged_answer (h.sealing hup) hbody hm₁ hd).1
  obtain ⟨w', s', hdeletes, hafter⟩ := bind_eq_ok hst
  obtain ⟨_, s'', -, hpure⟩ := bind_eq_ok hafter
  cases hpure
  have hemptied := emptied_on_way hmain hup h hts hdeletes
  have hprune : Framed Rel (Clear (commitPlaces m name c parent))
      (Clear (commitPlaces m name c parent))
      (w.emptied.forM fun dir => pruneEmptyDeltaParents parent.name dir.length dir) := by
    refine framed_forM hR.refl hR.trans _ fun dir hdir => ?_
    exact (framed_prune dir.length dir (hemptied dir hdir)).weaken hR.isolated
  show Framed _ _ _ (do
    w.emptied.forM fun dir => pruneEmptyDeltaParents parent.name dir.length dir
    modifyBranch parent.name fun b =>
      { b with tombstones := copied.foldl dropTombstone w.tombstones }
    countCommit parent.name
    removeBranch name
    bumpEpoch)
  refine (hR.seq hprune (fun _ => ?_) fun _ _ => trivial).mono (fun _ hu => hu ▸ hclear) fun _ h => h
  exact framed_finish hR fun m hm => ⟨hR.record _ m, hm⟩

end Apply

/-! ## The commit -/

theorem after_finalizable (name : String) (m : Manager) : after (finalizable name) m = m := by
  cases hrun : finalizable name m with
  | ok a m' =>
    rw [after_ok hrun]
    exact (finalizable_eq_ok (show finalizable name m = .ok (a.1, a.2) m' from hrun)).1
  | error e m' =>
    rw [after_error hrun]
    unfold finalizable at hrun
    split at hrun
    · cases hrun
      rfl
    · cases hb : m.forest.get? name with
      | none =>
        simp only [hb] at hrun
        cases hrun
        rfl
      | some c =>
        simp only [hb] at hrun
        split at hrun
        · cases hrun
          rfl
        · cases hp : c.parent with
          | none =>
            simp only [hp] at hrun
            cases hrun
            rfl
          | some up =>
            simp only [hp] at hrun
            cases hq : m.forest.get? up with
            | none =>
              simp only [hq] at hrun
              cases hrun
              rfl
            | some q =>
              simp only [hq] at hrun
              cases hrun

/-- **A commit that follows no link** is framed by every relation that allows it. -/
theorem framed_commit {R : Manager → Manager → Prop} {order : HashOrder} (hrefl : ∀ m, R m m)
    (hclear : ∀ c parent, m.forest.get? name = some c → c.parent = some parent.name →
      m.forest.get? parent.name = some parent → AllowsCommit R name parent ∧
        m.CommitClear name c parent) :
    R m (after (commitWithReport order name) m) := by
  have hrun : Framed R (fun s => s = m) (fun _ => True) (commitWithReport order name) := by
    refine framed_look hrefl (after_finalizable name m) ?_ trivial
    rintro ⟨c, parent⟩ hfinal
    obtain ⟨-, -, hb, -, up, hup, hparent⟩ := finalizable_eq_ok hfinal
    obtain rfl : parent.name = up := Forest.name_of_get? hparent
    obtain ⟨hR, h⟩ := hclear c parent hb hup hparent
    have hself : name ≠ parent.name := by
      rintro rfl
      exact Forest.parent_ne_self hb hup
    obtain rfl : c.name = name := Forest.name_of_get? hb
    have hts : ∀ t ∈ order.iter c.tombstones, t ∈ m.commitTargets c.name c := fun t ht =>
      Or.inl ((order.perm c.tombstones).mem_iff.mp ht)
    refine framed_look hrefl rfl (fun files hfiles => ?_) trivial
    obtain rfl : walkFiles m.disk c.name = files := by
      simpa [readDisk] using hfiles
    have hcontent : contentPlaces c.name ⊆ stagedPlaces m c.name c parent :=
      fun l hl => Or.inl (Or.inr (Or.inl (Or.inr hl)))
    refine framed_bind_at hR.trans
      ((framed_reportFor hR hcontent _ _).mono (fun s hs => hs ▸ h.clear) fun _ h => h) ?_
      fun _ _ => trivial
    intro r s t _ hok hguard
    have hr : OwnSources c.name r := ownSources_reportFor hok
    have happly : Framed R (Clear (stagedPlaces m c.name c parent)) (fun _ => True)
        (applyCommit c.name parent r (order.iter c.tombstones) (walkFiles m.disk c.name)) := by
      unfold applyCommit
      by_cases hmain : parent.name = "main"
      · rw [if_pos hmain]
        exact framed_commitIntoBase hR hmain hself h hts hr
      · rw [if_neg hmain]
        exact framed_commitIntoParent hR hmain hself h hts hr
    exact (hR.seq happly (fun _ => hR.pure _) fun _ h => h).mono (fun u hu => hu ▸ hguard) fun _ h => h
  exact (hrun m rfl).1

theorem allowsCommit_spares (hname : b ≠ name) (hup : b ≠ parent.name) :
    AllowsCommit (Spares b) name parent where
  refl := Spares.refl b
  trans _ _ _ h h' := h.trans h'
  disk m d h := by
    refine ⟨rfl, h.mono fun r hr => ⟨?_, destination_ne_layer hup r hr, ?_⟩⟩
    · rintro rfl
      rcases hr with hr | hr <;> cases hr
    · rintro rfl
      rcases hr with hr | hr
      · cases hr
        exact hup rfl
      · cases hr
  isolated _ _ h := Spares.of_isolated h hup
  record _ _ := ⟨Forest.get?_modify_ne hup, SameOn.refl _ _⟩
  remove m := (spares_removeBranch (S := ∅) hname m fun l hl => absurd hl (Set.notMem_empty l)).1
  epoch _ := ⟨rfl, SameOn.refl _ _⟩

/-- **A commit of another branch into another branch spares `b`** where it follows no link. -/
theorem spares_commit {order : HashOrder} (hname : b ≠ name)
    (hclear : ∀ c parent, m.forest.get? name = some c → c.parent = some parent.name →
      m.forest.get? parent.name = some parent → b ≠ parent.name ∧ m.CommitClear name c parent) :
    Spares b m (after (commitWithReport order name) m) := by
  refine framed_commit (Spares.refl b) fun c parent hc hp hparent => ?_
  obtain ⟨hup, h⟩ := hclear c parent hc hp hparent
  exact ⟨allowsCommit_spares hname hup, h⟩

end

end BranchFs
