/-
# BranchFs.Isolate.Frozen -- a frozen branch stays as it is

Every operation on a branch asks first whether the branch may be written, and a frozen one may not.
The one way to change it is to be the parent of another: a commit writes delta and tombstones
of the branch it goes to, frozen or not. A run without such a commit, whose steps follow no link,
leaves the delta, the tombstones and the review of a frozen branch as they were.
-/
import BranchFs.Isolate.Snapshot
import BranchFs.Store.PathText

namespace BranchFs

open BranchFs.Posix BranchFs.Logic

/-! ## The operations of the manager -/

/-- An operation of the manager: a step, or one of those the handlers are made of. -/
inductive ManagerOp where
  | step (op : Op)
  | writeData (branch : String) (p : RelPath) (offset : Int) (data : Bytes)
  | ensureDelta (branch : String) (p : RelPath)
  | delete (branch : String) (p : RelPath)
  | rmdir (branch : String) (p : RelPath)

/-- The state after an operation, failed or not. -/
def ManagerOp.run (m : Manager) : ManagerOp → Manager
  | step op => BranchFs.step m op
  | writeData branch p offset data => after (writeDataToBranch branch p offset data) m
  | ensureDelta branch p => after (ensureDeltaPathForWrite branch p) m
  | delete branch p => after (deletePathInBranch branch p) m
  | rmdir branch p => after (rmdirPathInBranch branch p) m

/-- The step neither thaws the branch nor ends it. -/
def Op.Retains (b : String) : Op → Prop
  | .commit _ name => name ≠ b
  | .abort name => name ≠ b
  | .thaw name => name ≠ b
  | _ => True

/-- An operation of the manager during the review of `b`. -/
def ManagerOp.InReview (b : String) : ManagerOp → Prop
  | step (.file _ _) => False
  | step (.host _) => False
  | step op => op.Retains b
  | _ => True

def Manager.Frozen (m : Manager) (b : String) : Prop :=
  ∃ c, m.forest.get? b = some c ∧ c.state = .frozen

/-! ## What is refused -/

section Refused

variable {m : Manager} {b : String} {p : RelPath}

theorem Manager.Frozen.writableBranch (h : m.Frozen b) :
    ∃ e, BranchFs.writableBranch b m = .error e m := by
  obtain ⟨c, hc, hstate⟩ := h
  refine ⟨.invalid ("branch '" ++ b ++ "' is frozen/read-only"), ?_⟩
  have hno : c.isWritable = false := by
    simp [Branch.isWritable, hstate]
  simp only [BranchFs.writableBranch, hc, hno]
  rfl

/-- Whatever asks for a writable branch first does nothing to a frozen one. -/
theorem Manager.Frozen.refuses {α : Type} (h : m.Frozen b) (f : Branch → Mgr α) :
    after (BranchFs.writableBranch b >>= f) m = m := by
  obtain ⟨e, he⟩ := h.writableBranch
  exact after_error (bind_error he)

theorem Manager.Frozen.denied (h : m.Frozen b) (x : Req Unit) :
    after (do denyUnlessWritable b; x) m = m := by
  obtain ⟨c, hc, hstate⟩ := h
  have hno : m.isBranchWritable b = false := by
    simp [Manager.isBranchWritable, hc, Branch.isWritable, hstate]
  have hdeny : denyUnlessWritable b m = .error .EROFS m := by
    simp only [denyUnlessWritable, hno]
    rfl
  exact after_error (bind_error hdeny)

theorem Manager.Frozen.writeDataToBranch (h : m.Frozen b) (offset : Int) (data : Bytes) :
    after (BranchFs.writeDataToBranch b p offset data) m = m := by
  unfold BranchFs.writeDataToBranch
  split
  · rfl
  split
  · rfl
  exact h.refuses _

theorem Manager.Frozen.revert (h : m.Frozen b) : after (revertPathInBranch b p) m = m := by
  by_cases hp : p.isEmpty = true
  · exact after_error (bind_error (failIf_error hp _ m))
  · obtain ⟨e, he⟩ := h.writableBranch
    exact after_error ((bind_ok (failIf_ok hp _ m)).trans (bind_error he))

end Refused

/-! ## What a step leaves as it is -/

/-- State, tombstones and delta of `b` are what they were. -/
structure HeldStill (b : String) (m m' : Manager) : Prop where
  record : ∀ c, m.forest.get? b = some c →
    ∃ c', m'.forest.get? b = some c' ∧ c'.state = c.state ∧ c'.tombstones = c.tombstones
  files : SameOn (· = some (.files b)) m.disk m'.disk

namespace HeldStill

variable {b name : String} {m m' m'' : Manager}

theorem refl (b : String) (m : Manager) : HeldStill b m m :=
  ⟨fun c hc => ⟨c, hc, rfl, rfl⟩, SameOn.refl _ _⟩

theorem trans (h : HeldStill b m m') (h' : HeldStill b m' m'') : HeldStill b m m'' where
  record c hc := by
    obtain ⟨c₁, hc₁, hstate₁, htomb₁⟩ := h.record c hc
    obtain ⟨c₂, hc₂, hstate₂, htomb₂⟩ := h'.record c₁ hc₁
    exact ⟨c₂, hc₂, hstate₂.trans hstate₁, htomb₂.trans htomb₁⟩
  files := h.files.trans h'.files

theorem of_spares (h : Spares b m m') : HeldStill b m m' where
  record c hc := ⟨c, h.record.trans hc, rfl, rfl⟩
  files := h.layers.mono fun _ hr => Or.inl hr

theorem of_isolated (h : Isolated name m m') (hne : b ≠ name) : HeldStill b m m' :=
  of_spares (Spares.of_isolated h hne)

theorem of_bumpEpoch (m : Manager) : HeldStill b m (after bumpEpoch m) :=
  ⟨fun c hc => ⟨c, hc, rfl, rfl⟩, SameOn.refl _ _⟩

theorem frozen (h : HeldStill b m m') (hb : m.Frozen b) : m'.Frozen b := by
  obtain ⟨c, hc, hstate⟩ := hb
  obtain ⟨c', hc', hstate', -⟩ := h.record c hc
  exact ⟨c', hc', hstate'.trans hstate⟩

end HeldStill

/-! ## A commit of a child without changes -/

section

variable {b name : String} {m : Manager}

/-- A record may change in what is neither its state nor its tombstones. -/
theorem held_modify {up : String} {f : Branch → Branch} (hname : ∀ c, (f c).name = c.name)
    (hparent : ∀ c, (f c).parent = c.parent)
    (hsame : ∀ c, m.forest.get? b = some c →
      (f c).state = c.state ∧ (f c).tombstones = c.tombstones) :
    HeldStill b m (after (modifyBranch up f) m) where
  record c hc := by
    show ∃ c', (m.forest.modify up f).get? b = some c' ∧ _
    by_cases hb : b = up
    · subst hb
      rw [Forest.get?_modify_self hc (hname c) (hparent c)]
      exact ⟨_, rfl, hsame c hc⟩
    · rw [Forest.get?_modify_ne hb]
      exact ⟨c, hc, rfl, rfl⟩
  files := SameOn.refl _ _

theorem held_countCommit (up : String) : Keeps (HeldStill b) (countCommit up) := fun _ =>
  held_modify (fun _ => rfl) (fun _ => rfl) fun _ _ => ⟨rfl, rfl⟩

theorem held_removeBranch (hne : b ≠ name) : Keeps (HeldStill b) (removeBranch name) := fun m =>
  HeldStill.of_spares (spares_unguarded (Q := fun _ => True) (spares_removeBranch hne) m)

/-- What a commit does once the tree is merged. -/
theorem held_finish (up : String) (hne : b ≠ name) : Keeps (HeldStill b) (do
    countCommit up
    removeBranch name
    bumpEpoch : Mgr Unit) := by
  refine keeps_bind (fun _ _ _ h h' => h.trans h') (held_countCommit up) fun _ => ?_
  refine keeps_bind (fun _ _ _ h h' => h.trans h') (held_removeBranch hne) fun _ m => ?_
  exact HeldStill.of_bumpEpoch m

/-- The branch has neither delta files nor tombstones. -/
def Manager.Unchanged (m : Manager) (name : String) (c : Branch) : Prop :=
  c.tombstones = [] ∧ walkFiles m.disk name = []

theorem reportFor_nil (c parent : Branch) (m : Manager) :
    reportFor c parent [] [] m = .ok ⟨[], [], []⟩ m := by
  unfold reportFor
  split
  · rfl
  · rfl

/-- Nothing is applied for it, and only the counter of the parent moves. -/
theorem held_applyUnchanged {parent : Branch} (hparent : m.forest.get? parent.name = some parent)
    (hb : parent.name = b) (hne : b ≠ name) (r : Report) :
    HeldStill b m (after (applyCommit name parent r [] []) m) := by
  subst hb
  unfold applyCommit
  split
  · -- into the base: neither a copy nor a deletion, and nothing shadows one
    have hrun : onDisk (runStaged (stageIntoBase r [] [])) m = .ok ((), []) m := rfl
    have hafter : after (commitIntoBase name r [] []) m = after (do
        countCommit "main"
        removeBranch name
        bumpEpoch : Mgr Unit) m := (after_bind_ok hrun).trans rfl
    rw [hafter]
    exact held_finish "main" hne m
  · have hrun : onDisk (runStaged (stageIntoParent m parent r [] [])) m =
        .ok (⟨parent.tombstones, []⟩, []) m := rfl
    have hset : ∀ c, m.forest.get? parent.name = some c →
        c.state = c.state ∧ parent.tombstones = c.tombstones := by
      intro c hc
      rw [hparent] at hc
      rw [Option.some.inj hc]
      exact ⟨rfl, rfl⟩
    have hafter : after (commitIntoParent name parent r [] []) m =
        after (do
          modifyBranch parent.name fun c => { c with tombstones := parent.tombstones }
          countCommit parent.name
          removeBranch name
          bumpEpoch : Mgr Unit) m :=
      (after_bind_ok (t := m) rfl).trans ((after_bind_ok hrun).trans rfl)
    have htombs : HeldStill parent.name m
        (after (modifyBranch parent.name fun c => { c with tombstones := parent.tombstones }) m) :=
      held_modify (fun _ => rfl) (fun _ => rfl) hset
    rw [hafter]
    exact htombs.trans (held_finish parent.name hne _)

theorem held_commitUnchanged {order : HashOrder} {c parent : Branch}
    (hfinal : finalizable name m = .ok (c, parent) m) (hb : parent.name = b)
    (h : m.Unchanged name c) : HeldStill b m (after (commitWithReport order name) m) := by
  obtain ⟨-, -, hc, -, up, hup, hparent⟩ := finalizable_eq_ok hfinal
  obtain rfl : parent.name = up := Forest.name_of_get? hparent
  have hne : b ≠ name := by
    rintro rfl
    exact Forest.parent_ne_self hc (hb ▸ hup)
  have hnone : order.iter c.tombstones = [] := by
    rw [h.1]
    exact (order.perm []).eq_nil
  have hafter : after (commitWithReport order name) m =
      after (do
        applyCommit name parent ⟨[], [], []⟩ [] []
        pure ⟨parent.name, [], []⟩ : Mgr CommitOutcome) m := by
    refine (after_bind_ok hfinal).trans ?_
    dsimp only
    have hwalk : readDisk (fun d => walkFiles d name) m = .ok (walkFiles m.disk name) m := rfl
    refine (after_bind_ok hwalk).trans ?_
    rw [h.2, hnone]
    exact after_bind_ok (reportFor_nil c parent m)
  rw [hafter]
  have happly := held_applyUnchanged hparent hb hne ⟨[], [], []⟩
  cases hrun : applyCommit name parent ⟨[], [], []⟩ [] [] m with
  | ok u m' =>
    rw [after_ok hrun] at happly
    rw [after_bind_ok hrun]
    exact happly
  | error e m' =>
    rw [after_error hrun] at happly
    rw [after_bind_error hrun]
    exact happly

end

/-! ## Steps -/

/-- The step follows no link, and commits no change to `b`. -/
def Op.KeepsOff (b : String) (m : Manager) : Op → Prop
  | .commit _ name => ∀ c parent, finalizable name m = .ok (c, parent) m →
      if parent.name = b then m.Unchanged name c else m.CommitClear name c parent
  | .revert branch p => branch ≠ b → m.ClearWay branch p
  | .file branch op => branch ≠ b → op.Contained m branch
  | .host edit => edit.InBase m
  | _ => True

def ManagerOp.KeepsOff (b : String) (m : Manager) : ManagerOp → Prop
  | step op => op.KeepsOff b m
  | writeData branch p _ _ => branch ≠ b → m.ClearPrivate branch ∧ m.Plainly branch p
  | ensureDelta branch p => branch ≠ b → m.ClearPrivate branch ∧ m.ClearWay branch p
  | delete branch p => branch ≠ b → m.ClearWay branch p
  | rmdir branch p => branch ≠ b → m.ClearWay branch p

def ManagerOp.Retains (b : String) : ManagerOp → Prop
  | step op => op.Retains b
  | _ => True

section

variable {b name parent : String} {m : Manager}

/-- A name that is taken is not taken again. -/
theorem create_taken {inheritance : InheritanceMode} {hidePaths : List String}
    (h : m.forest.get? name ≠ none) :
    after (createBranchWithOptions name parent inheritance hidePaths) m = m := by
  have htaken : m.isBranchValid name = true := by
    simpa [Manager.isBranchValid, Option.isSome_iff_ne_none] using h
  unfold createBranchWithOptions
  cases hvalid : validateBranchName name with
  | error e => exact after_bind_error rfl
  | ok u =>
    refine (after_bind_ok (t := m) rfl).trans ((after_bind_ok (t := m) rfl).trans ?_)
    exact after_bind_error (failIf_error htaken _ m)

theorem held_freeze (hb : m.Frozen b) : HeldStill b m (after (setBranchState b .frozen) m) := by
  obtain ⟨c, hc, hstate⟩ := hb
  unfold setBranchState
  by_cases hmain : b = "main"
  · rw [after_bind_error (failIf_error hmain _ m)]
    exact HeldStill.refl b m
  · rw [after_bind_ok (failIf_ok hmain _ m), after_bind_ok (getBranch_ok hc)]
    have hset : HeldStill b m (after (modifyBranch b fun c => { c with state := .frozen }) m) := by
      refine held_modify (fun _ => rfl) (fun _ => rfl) fun c' hc' => ?_
      rw [hc] at hc'
      rw [← Option.some.inj hc', hstate]
      exact ⟨rfl, rfl⟩
    exact hset.trans (HeldStill.of_bumpEpoch _)

theorem held_commit {order : HashOrder} (hname : name ≠ b)
    (h : Op.KeepsOff b m (.commit order name)) :
    HeldStill b m (after (commitWithReport order name) m) := by
  cases hfinal : finalizable name m with
  | error e m' =>
    have hsame := after_finalizable name m
    rw [after_error hfinal] at hsame
    unfold commitWithReport
    rw [after_bind_error hfinal, hsame]
    exact HeldStill.refl b m
  | ok found m' =>
    obtain ⟨c, up⟩ := found
    obtain ⟨rfl, -, hc, -, u, hup, hparent⟩ := finalizable_eq_ok hfinal
    obtain rfl : up.name = u := Forest.name_of_get? hparent
    have hcond := h c up hfinal
    by_cases hb : up.name = b
    · rw [if_pos hb] at hcond
      exact held_commitUnchanged hfinal hb hcond
    · rw [if_neg hb] at hcond
      refine HeldStill.of_spares (spares_commit (fun heq => hname heq.symm) ?_)
      intro c' up' hc' hup' hparent'
      obtain rfl : c = c' := Option.some.inj (hc.symm.trans hc')
      have hnames : up.name = up'.name := Option.some.inj (hup.symm.trans hup')
      rw [← hnames, hparent] at hparent'
      obtain rfl : up = up' := Option.some.inj hparent'
      exact ⟨fun heq => hb heq.symm, hcond⟩

/-- **A step holds a frozen branch still**, unless it thaws or ends it, commits changes to it or
follows a link. -/
theorem step_held {op : Op} (hb : m.Frozen b) (hretains : op.Retains b) (h : op.KeepsOff b m) :
    HeldStill b m (step m op) := by
  cases op with
  | create name parent inheritance hidePaths =>
    by_cases hne : b = name
    · obtain ⟨c, hc, -⟩ := hb
      have htaken : m.forest.get? name ≠ none := by
        rw [← hne, hc]
        exact Option.some_ne_none c
      rw [step, create_taken htaken]
      exact HeldStill.refl b m
    · exact HeldStill.of_spares (spares_create hne m)
  | commit order name => exact held_commit hretains h
  | abort name => exact HeldStill.of_spares (spares_abort (fun heq => hretains heq.symm) m)
  | freeze name =>
    by_cases hne : b = name
    · subst hne
      exact held_freeze hb
    · exact HeldStill.of_spares (spares_setBranchState hne m)
  | thaw name => exact HeldStill.of_spares (spares_setBranchState (fun heq => hretains heq.symm) m)
  | revert branch p =>
    by_cases hne : branch = b
    · subst hne
      rw [step, hb.revert]
      exact HeldStill.refl branch m
    · have hstep : Op.ContainedIn branch m (.revert branch p) := ⟨rfl, h hne⟩
      exact HeldStill.of_isolated (step_isolated hstep) fun heq => hne heq.symm
  | file branch fop =>
    by_cases hne : branch = b
    · subst hne
      rw [step, hb.denied]
      exact HeldStill.refl branch m
    · have hstep : Op.ContainedIn branch m (.file branch fop) := ⟨rfl, h hne⟩
      exact HeldStill.of_isolated (step_isolated hstep) fun heq => hne heq.symm
  | host edit => exact HeldStill.of_spares (spares_host h)

theorem run_held {op : ManagerOp} (hb : m.Frozen b) (hretains : op.Retains b)
    (h : op.KeepsOff b m) : HeldStill b m (op.run m) := by
  have hother : ∀ {branch : String} {m' : Manager}, branch ≠ b → Isolated branch m m' →
      HeldStill b m m' := fun hne hi => HeldStill.of_isolated hi fun heq => hne heq.symm
  cases op with
  | step op => exact step_held hb hretains h
  | writeData branch p offset data =>
    by_cases hne : branch = b
    · subst hne
      rw [ManagerOp.run, hb.writeDataToBranch]
      exact HeldStill.refl branch m
    · obtain ⟨hpriv, hp⟩ := h hne
      exact hother hne (framed_writeDataToBranch hp.way.wayIn hpriv.subset hp.here offset data m
        hp.cowReady).1
  | ensureDelta branch p =>
    by_cases hne : branch = b
    · subst hne
      rw [ManagerOp.run, ensureDeltaPathForWrite, hb.refuses]
      exact HeldStill.refl branch m
    · obtain ⟨hpriv, hway⟩ := h hne
      exact hother hne (framed_ensureDeltaPathForWrite hway.wayIn_but (hpriv.subset_but p) m
        cowReady_plainBut).1
  | delete branch p =>
    by_cases hne : branch = b
    · subst hne
      rw [ManagerOp.run, deletePathInBranch, hb.refuses]
      exact HeldStill.refl branch m
    · exact hother hne (framed_deletePathInBranch (h hne).wayIn m (clear_plainPlaces m)).1
  | rmdir branch p =>
    by_cases hne : branch = b
    · subst hne
      rw [ManagerOp.run, rmdirPathInBranch, hb.refuses]
      exact HeldStill.refl branch m
    · exact hother hne (framed_rmdirPathInBranch (h hne).wayIn m (clear_plainPlaces m)).1

end

/-! ## The review -/

theorem DiffEntry.le_total (x y : DiffEntry) : (x.le y || y.le x) = true := by
  unfold DiffEntry.le
  by_cases h : relText x.path = relText y.path
  · rw [if_pos h, if_pos h.symm]
    cases x.op <;> simp
  · rw [if_neg h, if_neg fun h' => h h'.symm]
    simpa using String.le_total (relText x.path) (relText y.path)

theorem DiffEntry.le_iff {x y : DiffEntry} : x.le y = true ↔
    relText x.path < relText y.path ∨
      relText x.path = relText y.path ∧ (x.op = .delete ∨ y.op = .delta) := by
  unfold DiffEntry.le
  by_cases h : relText x.path = relText y.path
  · simp [h]
  · simp [h, lt_iff_le_and_ne]

theorem DiffEntry.le_trans {x y z : DiffEntry} (hxy : x.le y = true) (hyz : y.le z = true) :
    x.le z = true := by
  rw [DiffEntry.le_iff] at *
  rcases hxy with hxy | ⟨hxy, hop⟩
  · rcases hyz with hyz | ⟨hyz, -⟩
    · exact Or.inl (hxy.trans hyz)
    · exact Or.inl (hyz ▸ hxy)
  · rcases hyz with hyz | ⟨hyz, hop'⟩
    · exact Or.inl (hxy ▸ hyz)
    · refine Or.inr ⟨hxy.trans hyz, ?_⟩
      rcases hop with hop | hop
      · exact Or.inl hop
      · rcases hop' with hop' | hop'
        · rw [hop] at hop'
          cases hop'
        · exact Or.inr hop'

section

variable {b : String} {m m' : Manager}

/-- The paths of the branch's delta and tombstones are made of file names. -/
structure Manager.ProperNames (m : Manager) (b : String) : Prop where
  delta : ∀ q, deltaKind m.disk b q ≠ none → Store.NamePath q
  tombstones : ∀ c, m.forest.get? b = some c → ∀ t ∈ c.tombstones, Store.NamePath t

/-- What a branch with the tombstones `ts` has to review. -/
def reviewed (d : Tree) (b : String) (ts : List RelPath) : List DiffEntry :=
  (walkFiles d b).map (entryOf d) ++ ts.dedup.map deleteEntry

theorem mem_reviewed {d : Tree} {ts : List RelPath} {x : DiffEntry} : x ∈ reviewed d b ts ↔
    (∃ q k, deltaKind d b q = some k ∧ k ≠ .dir ∧ x = entryOf d (q, deltaPath b q)) ∨
      ∃ t ∈ ts, x = deleteEntry t := by
  unfold reviewed
  rw [List.mem_append, List.mem_map, List.mem_map]
  constructor
  · rintro (⟨⟨q, src⟩, hf, rfl⟩ | ⟨t, ht, rfl⟩)
    · obtain ⟨rfl, k, hk, hkd⟩ := mem_walkFiles.mp hf
      exact Or.inl ⟨q, k, hk, hkd, rfl⟩
    · exact Or.inr ⟨t, List.mem_dedup.mp ht, rfl⟩
  · rintro (⟨q, k, hk, hkd, rfl⟩ | ⟨t, ht, rfl⟩)
    · exact Or.inl ⟨_, mem_walkFiles.mpr ⟨rfl, k, hk, hkd⟩, rfl⟩
    · exact Or.inr ⟨t, List.mem_dedup.mpr ht, rfl⟩

/-- Two entries that sort alike are one. -/
theorem reviewed_antisymm {d : Tree} {ts : List RelPath} {x y : DiffEntry}
    (hdelta : ∀ q, deltaKind d b q ≠ none → Store.NamePath q)
    (htomb : ∀ t ∈ ts, Store.NamePath t) (hx : x ∈ reviewed d b ts) (hy : y ∈ reviewed d b ts)
    (hxy : x.le y = true) (hyx : y.le x = true) : x = y := by
  have hnames : ∀ z ∈ reviewed d b ts, Store.NamePath z.path := by
    intro z hz
    rcases mem_reviewed.mp hz with ⟨q, k, hk, -, rfl⟩ | ⟨t, ht, rfl⟩
    · exact hdelta q (by rw [hk]; exact Option.some_ne_none k)
    · exact htomb t ht
  rw [DiffEntry.le_iff] at hxy hyx
  have htext : relText x.path = relText y.path := by
    rcases hxy with hlt | ⟨heq, -⟩
    · rcases hyx with hlt' | ⟨heq, -⟩
      · exact absurd hlt' (lt_asymm hlt)
      · exact heq.symm
    · exact heq
  have hpath : x.path = y.path :=
    Store.pathText_injective (hnames x hx) (hnames y hy) (congrArg String.toList htext)
  have hop : x.op = y.op := by
    have h₁ : x.op = .delete ∨ y.op = .delta := (hxy.resolve_left (by simp [htext])).2
    have h₂ : y.op = .delete ∨ x.op = .delta := (hyx.resolve_left (by simp [htext])).2
    cases hxo : x.op <;> cases hyo : y.op <;> simp_all
  rcases mem_reviewed.mp hx with ⟨q, k, -, -, rfl⟩ | ⟨t, -, rfl⟩
  · rcases mem_reviewed.mp hy with ⟨q', k', -, -, rfl⟩ | ⟨t', -, rfl⟩
    · obtain rfl : q = q' := hpath
      rfl
    · cases hop
  · rcases mem_reviewed.mp hy with ⟨q', k', -, -, rfl⟩ | ⟨t', -, rfl⟩
    · cases hop
    · obtain rfl : t = t' := hpath
      rfl

theorem branchStatus_sorted {order : HashOrder} {s : BranchStatus}
    (h : branchStatus m order b = .ok s) : s.diff.Pairwise fun x y => x.le y = true := by
  unfold branchStatus at h
  split at h
  · cases h
  · split at h
    · cases h
    · cases h
      apply List.pairwise_mergeSort
      · exact fun x y z hxy hyz => DiffEntry.le_trans hxy hyz
      · exact DiffEntry.le_total

/-- The same delta and tombstones are reviewed alike. -/
theorem reviewed_perm {ts : List RelPath}
    (h : SameOn (· = some (.files b)) m.disk m'.disk) :
    (reviewed m'.disk b ts).Perm (reviewed m.disk b ts) := by
  have hkind : ∀ q, deltaKind m'.disk b q = deltaKind m.disk b q := fun q => h.kindAt rfl
  have hfiles : (walkFiles m'.disk b).Perm (walkFiles m.disk b) := by
    refine (List.perm_ext_iff_of_nodup (walkFiles_antichain m'.disk b).nodup.of_map
      (walkFiles_antichain m.disk b).nodup.of_map).mpr fun ⟨q, src⟩ => ?_
    rw [mem_walkFiles, mem_walkFiles]
    show (src = _ ∧ ∃ k, deltaKind m'.disk b q = some k ∧ k ≠ .dir) ↔ _
    rw [hkind]
    rfl
  have hentry : (walkFiles m.disk b).map (entryOf m'.disk) =
      (walkFiles m.disk b).map (entryOf m.disk) := by
    refine List.map_congr_left fun f hf => ?_
    obtain ⟨q, src⟩ := f
    obtain ⟨rfl, -⟩ := mem_walkFiles.mp hf
    rw [entryOf, entryOf, h _ rfl]
  exact ((hfiles.map _).trans (by rw [hentry])).append_right _

/-- Delta tree, tombstones and review of `b` are the same. -/
structure AsReviewed (b : String) (m m' : Manager) : Prop where
  delta : ∀ q, m'.disk.get (deltaPath b q) = m.disk.get (deltaPath b q)
  tombstones : (m'.forest.get? b).map Branch.tombstones = (m.forest.get? b).map Branch.tombstones
  diff : ∀ order, (branchStatus m' order b).map BranchStatus.diff =
    (branchStatus m order b).map BranchStatus.diff

theorem HeldStill.asReviewed (h : HeldStill b m m') (hb : m.Frozen b) (hnames : m.ProperNames b) :
    AsReviewed b m m' := by
  obtain ⟨c, hc, -⟩ := hb
  obtain ⟨c', hc', -, htomb⟩ := h.record c hc
  refine ⟨fun q => h.files _ rfl, by rw [hc, hc', Option.map_some, Option.map_some, htomb], ?_⟩
  intro order
  obtain ⟨s, hs, hperm⟩ := branchStatus_diff order hc
  obtain ⟨s', hs', hperm'⟩ := branchStatus_diff order hc'
  rw [htomb] at hperm'
  have hsame : s'.diff.Perm s.diff := hperm'.trans ((reviewed_perm h.files).trans hperm.symm)
  have heq : s'.diff = s.diff := by
    refine hsame.eq_of_pairwise ?_ (branchStatus_sorted hs') (branchStatus_sorted hs)
    intro x y hx hy
    exact reviewed_antisymm hnames.delta (hnames.tombstones c hc)
      (hperm.mem_iff.mp (hsame.mem_iff.mp hx)) (hperm.mem_iff.mp hy)
  rw [hs, hs']
  exact congrArg Except.ok heq

end

/-! ## Runs -/

/-- A frozen branch is what it was, in every state of a run that neither thaws nor ends it. -/
def FrozenIsImmutable : Prop :=
  ∀ m, Reachable m → ∀ b, m.Frozen b → m.ProperNames b → ∀ ops : List ManagerOp,
    (∀ op ∈ ops, op.InReview b) → AsReviewed b m (run ManagerOp.run m ops)

/-- **Frozen means immutable**, in every run that thaws or ends the branch at no step, commits no
changes to it and follows no link. -/
theorem frozen_immutable {b : String} {m : Manager} (hb : m.Frozen b) (hnames : m.ProperNames b)
    (ops : List ManagerOp)
    (h : Along ManagerOp.run (fun m op => op.Retains b ∧ op.KeepsOff b m) m ops) :
    AsReviewed b m (run ManagerOp.run m ops) := by
  refine HeldStill.asReviewed ?_ hb hnames
  refine run_inv (I := HeldStill b m) (fun s op hs hop => ?_) ops m (HeldStill.refl b m) h
  exact hs.trans (run_held (hs.frozen hb) hop.1 hop.2)

/-! ## A commit into a frozen branch -/

theorem properNames_of_entries {m : Manager} {b : String} {c : Branch}
    (h : m.disk.entries.all (fun e => e.1.root != some (.files b)) = true)
    (hc : m.forest.get? b = some c) (htomb : c.tombstones = []) : m.ProperNames b where
  delta q hq := by
    by_cases hnil : q = []
    · subst hnil
      intro n hn
      cases hn
    · exact absurd (deltaKind_of_entries h hnil) hq
  tombstones c' hc' t ht := by
    rw [hc] at hc'
    rw [← Option.some.inj hc', htomb] at ht
    cases ht

/-- A branch with a child that made a file, frozen. -/
def frozenParent : Manager :=
  run step (Manager.init .bare)
    [.create "b" "main" .lazy [], .create "c" "b" .lazy [], .file "c" (.create [] "f" 0o644),
      .freeze "b"]

theorem frozenParent_run :
    (frozenParent.forest.get? "b").map (fun c => (c.state, c.tombstones)) = some (.frozen, []) ∧
      frozenParent.disk.entries.all (fun e => e.1.root != some (.files "b")) = true ∧
      ((step frozenParent (.commit .listed "c")).disk.get (deltaPath "b" ["f"])).isSome = true := by
  decide +kernel

theorem record_of_map {m : Manager} {b : String} {s : BranchState} {ts : List RelPath}
    (h : (m.forest.get? b).map (fun c => (c.state, c.tombstones)) = some (s, ts)) :
    ∃ c, m.forest.get? b = some c ∧ c.state = s ∧ c.tombstones = ts := by
  obtain ⟨c, hc, heq⟩ := Option.map_eq_some_iff.mp h
  exact ⟨c, hc, congrArg Prod.fst heq, congrArg Prod.snd heq⟩

theorem not_frozenIsImmutable : ¬ FrozenIsImmutable := by
  intro h
  obtain ⟨hrecord, hfree, hcopied⟩ := frozenParent_run
  obtain ⟨c, hc, hstate, htomb⟩ := record_of_map hrecord
  have hsame := (h frozenParent ⟨.bare, _, rfl⟩ "b" ⟨c, hc, hstate⟩
    (properNames_of_entries hfree hc htomb) [.step (.commit .listed "c")]
    (by simp [ManagerOp.InReview, Op.Retains])).delta ["f"]
  rw [run_cons, run_nil, ManagerOp.run] at hsame
  have hnone : frozenParent.disk.get (deltaPath "b" ["f"]) = none :=
    (Disk.get_none_iff _ _).mpr (deltaKind_of_entries hfree (by simp))
  rw [hsame, hnone] at hcopied
  cases hcopied

/-! ## A run beside a frozen branch -/

/-- A frozen branch and a sibling that made a file. -/
def frozenSibling : Manager :=
  run step (Manager.init .bare)
    [.host (.write ["f"] [120]), .create "b" "main" .lazy [], .create "a" "main" .lazy [],
      .file "a" (.create [] "g" 0o644), .freeze "b"]

/-- A write that is refused, and the commit of the sibling. -/
def besideFrozen : List ManagerOp :=
  [.writeData "b" ["f"] 0 [121], .step (.commit .listed "a")]

theorem frozenSibling_run :
    ((frozenSibling.forest.get? "b").map (fun c => (c.state, c.tombstones)) = some (.frozen, []) ∧
      frozenSibling.disk.entries.all (fun e => e.1.root != some (.files "b")) = true) ∧
    (Linkless frozenSibling.disk ∧
      (frozenSibling.forest.get? "a").map (fun c => (c.parent, c.tombstones)) =
        some (some "main", []) ∧
      (walkFiles frozenSibling.disk "a").map Prod.fst = [["g"]]) := by
  decide +kernel

/-- The review of the frozen branch is the one that was made. -/
theorem frozen_immutable_sample :
    AsReviewed "b" frozenSibling (run ManagerOp.run frozenSibling besideFrozen) := by
  obtain ⟨⟨hrecord, hfree⟩, hlinkless, hchild, hfiles⟩ := frozenSibling_run
  obtain ⟨c, hc, hstate, htomb⟩ := record_of_map hrecord
  have hfrozen : frozenSibling.Frozen "b" := ⟨c, hc, hstate⟩
  refine frozen_immutable hfrozen (properNames_of_entries hfree hc htomb) besideFrozen
    ⟨⟨trivial, fun hne => absurd rfl hne⟩, ⟨by simp [ManagerOp.Retains, Op.Retains], ?_⟩, trivial⟩
  have hrefused : ManagerOp.run frozenSibling (.writeData "b" ["f"] 0 [121]) = frozenSibling :=
    hfrozen.writeDataToBranch (p := ["f"]) 0 [121]
  rw [hrefused]
  intro a up hfinal
  obtain ⟨-, -, ha, -, u, hup, hparent⟩ := finalizable_eq_ok hfinal
  obtain ⟨a', ha', heq⟩ := Option.map_eq_some_iff.mp hchild
  rw [ha] at ha'
  obtain rfl := Option.some.inj ha'
  obtain ⟨hmain, hnone⟩ := Prod.mk.inj heq
  have hname : up.name = "main" := by
    rw [Forest.name_of_get? hparent]
    exact Option.some.inj (hup.symm.trans hmain)
  rw [if_neg (by rw [hname]; decide)]
  refine commitClear_of_linkless hlinkless ?_
  rw [hnone, hfiles]
  decide

end BranchFs
