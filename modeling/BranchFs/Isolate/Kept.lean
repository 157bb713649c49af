/-
# BranchFs.Isolate.Kept -- what every file operation keeps

The file operations of a branch are put together from calls of the host, from edits of the branch's
record that leave its state alone, and from the quota counter. A relation between states that these keep is
kept by the operations, successful or failing (`KeptByCalls.fileOp`). One that a staged merge, the removal of
a branch and a new epoch keep as well is kept by a commit (`KeptByCommit.commit`); with a new branch and a new
state of one it is kept by every step (`KeptBySteps.step`).
-/
import BranchFs.Isolate.Commit
import BranchFs.Isolate.Handlers
import BranchFs.Isolate.Snapshot

namespace BranchFs

open BranchFs.Posix BranchFs.Logic

/-! ## Calls -/

/-- The calls of the host, and short sequences of them, that the file operations make. -/
inductive FileCall : {α : Type} → Io α → Prop
  | createDirAll (l : Place) : FileCall (Posix.Sys.createDirAll l)
  | writeFile (l : Place) (data : Bytes) : FileCall (Posix.Sys.writeFile l data)
  | copyEntry (src dst : Place) : FileCall (Io.copyEntry src dst)
  | stageWrite (branch : String) (src delta : Place) (offset : Nat) (data : Bytes) :
    FileCall (BranchFs.stageWrite branch src delta offset data)
  | openWrite (l : Place) (create trunc : Bool) : FileCall (Posix.Sys.openWrite l create trunc)
  | writeData (l : Place) (offset : Nat) (data : Bytes) : FileCall (writeDataToFile l offset data)
  | pwrite (h : FileHandle) (offset : Nat) (data : Bytes) : FileCall (Posix.Sys.pwrite h offset data)
  | setLen (h : FileHandle) (len : Nat) : FileCall (Posix.Sys.setLen h len)
  | setPermissions (l : Place) (mode : Nat) : FileCall (Posix.Sys.setPermissions l mode)
  | chown (l : Place) (uid gid : Option Nat) : FileCall (Posix.Sys.chown l uid gid)
  | utimensat (l : Place) (mtime : Option TimeOrNow) : FileCall (BranchFs.utimensat l mtime)
  | symlink (target : Target) (l : Place) : FileCall (Posix.Sys.symlink target l)
  | rename (src dst : Place) : FileCall (Posix.Sys.rename src dst)
  | removeFile (l : Place) : FileCall (Posix.Sys.removeFile l)
  | removeDir (l : Place) : FileCall (Posix.Sys.removeDir l)
  | removeDirAll (l : Place) : FileCall (Posix.Sys.removeDirAll l)
  | removeEntry (l : Place) : FileCall (Io.removeEntry l)

/-- A relation that holds from a state to the next whatever call is made, whatever is done to a record but
to its state, and however the quota is counted. -/
structure KeptByCalls (R : Manager → Manager → Prop) : Prop where
  refl : ∀ m, R m m
  trans : ∀ m₁ m₂ m₃, R m₁ m₂ → R m₂ m₃ → R m₁ m₃
  call : ∀ {α : Type} (x : Io α), FileCall x → Keeps R (onDisk x)
  record : ∀ (name : String) (f : Branch → Branch), (∀ b, (f b).state = b.state) →
    Keeps R (modifyBranch name f)
  quota : ∀ m q, R m { m with quota := q }

theorem addTombstone_state (p : RelPath) (b : Branch) : (b.addTombstone p).state = b.state := by
  unfold Branch.addTombstone
  split <;> rfl

theorem renameTombstones_state (src dst : RelPath) (inherited existed : Bool) (b : Branch) :
    (renameTombstones src dst inherited existed b).state = b.state := by
  unfold renameTombstones
  cases inherited <;> cases existed <;> simp [Branch.removeTombstone, addTombstone_state]

namespace KeptByCalls

variable {R : Manager → Manager → Prop} (h : KeptByCalls R) {ε α β : Type} {name : String} {p : RelPath}

include h

theorem seq {x : EStateM ε Manager α} {f : α → EStateM ε Manager β} (hx : Keeps R x)
    (hf : ∀ a, Keeps R (f a)) : Keeps R (x >>= f) := keeps_bind h.trans hx hf

theorem still {x : EStateM ε Manager α} (hx : ∀ m, after x m = m) : Keeps R x := by
  intro m
  rw [hx m]
  exact h.refl m

theorem pure (a : α) : Keeps R (Pure.pure a : EStateM ε Manager α) := keeps_pure h.refl a

theorem look (f : Tree → α) : Keeps R (readDisk f) := h.still fun _ => rfl

theorem quotaCheck (n : UInt64) : Keeps R (BranchFs.quotaCheck n) := by
  refine h.still fun m => ?_
  unfold after BranchFs.quotaCheck
  by_cases hroom : m.quota.check n = true
  · simp only [hroom, if_true]
  · simp only [hroom, Bool.false_eq_true, if_false]

theorem quotaAdd (n : UInt64) : Keeps R (BranchFs.quotaAdd n) := fun m => h.quota m _

theorem quotaSub (n : UInt64) : Keeps R (BranchFs.quotaSub n) := fun m => h.quota m _

theorem checked {c : Prop} [Decidable c] {x : EStateM ε Manager PUnit} (hx : Keeps R x) :
    Keeps R (when c x) := keeps_when h.refl c fun _ => hx

theorem parents (l : Place) : Keeps R (onDisk (Io.ensureParentDirs l)) :=
  h.call _ (.createDirAll l.parent)

/-! ### First touches -/

theorem recordFirstTouch (inherited : Option Place) (capture : Bool) :
    Keeps R (BranchFs.recordFirstTouch name p inherited capture) := by
  have htext : ∀ text, Keeps R (keepBaseContent name p text) := by
    intro text
    cases text with
    | none => exact h.pure _
    | some bytes =>
      exact h.seq (h.parents _) fun _ => h.seq (h.call _ (.writeFile _ _)) fun _ => h.pure _
  have hcapture : Keeps R (captureBaseContent name p inherited) := by
    cases inherited with
    | none => exact h.pure _
    | some src =>
      exact h.seq (h.still (after_onDisk_of (after_readBoundedText src))) fun text => htext text
  have hkey : Keeps R (contentKey name p inherited capture) := by
    cases capture with
    | true => exact hcapture
    | false => exact h.pure _
  refine h.seq (h.still (after_getBranch name)) fun b => ?_
  split
  · exact h.pure _
  · exact h.seq (h.look _) fun _ => h.seq hkey fun _ => h.record _ _ fun _ => rfl

/-! ### Copy-on-write -/

theorem copyUpNode (src delta : Place) (n : Node String) : Keeps R (BranchFs.copyUpNode src delta n) :=
  h.seq (h.quotaCheck _) fun _ => h.seq (h.call _ (.copyEntry src delta)) fun _ => h.quotaAdd _

theorem copyUpInherited (delta : Place) (inherited : Option Place) :
    Keeps R (BranchFs.copyUpInherited delta inherited) := by
  cases inherited with
  | none => exact h.pure _
  | some src =>
    refine h.seq (h.look _) fun found => ?_
    cases found with
    | error e => exact h.pure _
    | ok n =>
      show Keeps R (if n.kind.isDir then Pure.pure () else BranchFs.copyUpNode src delta n)
      split
      · exact h.pure _
      · exact h.copyUpNode src delta n

theorem ensureDelta : Keeps R (ensureDeltaPathForWrite name p) := by
  have htouch : Keeps R (touchAndCopyUp name p) :=
    h.seq (h.still (after_inheritedForTouch name p)) fun inherited =>
      h.seq (h.recordFirstTouch inherited true) fun _ => h.copyUpInherited _ inherited
  refine h.seq (h.still (after_writableBranch name)) fun _ => ?_
  refine h.seq (h.look _) fun there => h.seq (h.checked htouch) fun _ => ?_
  exact h.seq (h.record _ _ fun _ => rfl) fun _ => h.seq (h.parents _) fun _ => h.pure _

/-! ### Writing -/

theorem writeInPlace (offset : Nat) (data : Bytes) : Keeps R (BranchFs.writeInPlace name p offset data) := by
  refine h.seq (h.record _ _ fun _ => rfl) fun _ => h.seq (h.look _) fun oldSize => ?_
  refine h.seq (h.checked (h.quotaCheck _)) fun _ => ?_
  refine h.seq (h.call _ (.writeData _ _ _)) fun written => h.seq (h.look _) fun newSize => ?_
  exact h.seq (h.checked (h.quotaAdd _)) fun _ => h.pure _

theorem writeFirstPlain (offset : Nat) (data : Bytes) :
    Keeps R (BranchFs.writeFirstPlain name p offset data) :=
  h.seq (h.parents _) fun _ => h.writeInPlace offset data

theorem writeFirst (offset : Nat) (data : Bytes) (inherited : Option Place) :
    Keeps R (BranchFs.writeFirst name p offset data inherited) := by
  cases inherited with
  | none => exact h.writeFirstPlain offset data
  | some src =>
    refine h.seq (h.look _) fun found => ?_
    cases found with
    | error e => exact h.writeFirstPlain offset data
    | ok n =>
      show Keeps R (writeFirstNode name p src n offset data)
      unfold writeFirstNode
      split
      · refine h.seq (h.quotaCheck _) fun _ => h.seq (h.parents _) fun _ => ?_
        refine h.seq (h.call _ (.stageWrite _ _ _ _ _)) fun r => h.seq (h.quotaAdd _) fun _ => ?_
        exact h.seq (h.record _ _ fun _ => rfl) fun _ => h.pure _
      · exact h.seq (h.checked (h.copyUpNode _ _ _)) fun _ => h.writeFirstPlain offset data

theorem writeData (offset : Int) (data : Bytes) : Keeps R (writeDataToBranch name p offset data) := by
  unfold writeDataToBranch
  split
  · exact keeps_throw h.refl _
  split
  · exact keeps_throw h.refl _
  refine h.seq (h.still (after_writableBranch name)) fun _ => h.seq (h.look _) fun there => ?_
  split
  · exact h.writeInPlace _ data
  · exact h.seq (h.still (after_inheritedForTouch name p)) fun inherited =>
      h.seq (h.recordFirstTouch inherited true) fun _ => h.writeFirst _ data inherited

/-! ### Deletion and revert -/

theorem prune : ∀ (levels : Nat) (q : RelPath), Keeps R (pruneEmptyDeltaParents name levels q) := by
  intro levels
  induction levels with
  | zero => exact fun q => h.pure _
  | succ levels ih =>
    intro q
    refine h.seq (h.still (after_getBranch name)) fun b => ?_
    split
    · exact h.pure _
    · refine h.seq (keeps_attempt (h.call _ (.removeDir _))) fun r => ?_
      cases r with
      | ok _ => exact ih q.dropLast
      | error _ => exact h.pure _

theorem removeDelta : Keeps R (BranchFs.removeDelta name p) := by
  refine h.seq (h.look _) fun found => ?_
  cases found with
  | error e => exact h.pure _
  | ok n =>
    show Keeps R (removeDeltaNode name p n)
    refine h.seq (h.look _) fun freed => h.seq (h.call _ (.removeEntry _)) fun _ => ?_
    exact h.seq (h.quotaSub _) fun _ => h.prune _ _

theorem deleteTouched : Keeps R (BranchFs.deleteTouched name p) := by
  refine h.seq (h.still (after_inheritedForTouch name p)) fun inherited => ?_
  refine h.seq (h.recordFirstTouch inherited false) fun _ => h.seq h.removeDelta fun _ => ?_
  split
  · exact h.record _ _ (addTombstone_state p)
  · exact h.record _ _ fun _ => rfl

theorem deletePath : Keeps R (deletePathInBranch name p) :=
  h.seq (h.still (after_writableBranch name)) fun _ => h.deleteTouched

theorem rmdirPath : Keeps R (rmdirPathInBranch name p) :=
  h.seq (h.still (after_writableBranch name)) fun _ =>
    h.seq (h.still (after_checkEmptyDir name p)) fun _ => h.deleteTouched

/-- The part of a revert before the epoch moves. -/
theorem removeTouchRecords : Keeps R (removeTouchRecordsUnder name p) := by
  refine h.seq (h.still (after_getBranch name)) fun b => ?_
  refine h.seq (h.record _ _ fun _ => rfl) fun _ => keeps_forM h.refl h.trans _ fun record _ => ?_
  cases record.baseContentKey with
  | none => exact h.pure _
  | some key =>
    intro m
    have hcall := h.call _ (.removeFile (touchContentPath name key)) m
    unfold after onDisk at hcall
    unfold after
    cases hrun : Posix.Sys.removeFile (touchContentPath name key) m.disk with
    | ok u d => simpa only [hrun] using hcall
    | error e d => cases e <;> simpa only [hrun] using hcall

/-! ### Requests -/

omit h in
theorem asReq (f : BranchError → Errno) {x : Mgr α} (hx : Keeps R x) : Keeps R (BranchFs.asReq f x) := by
  intro m
  rw [after_asReq]
  exact hx m

theorem ioOrEio {x : Io α} (hx : FileCall x) : Keeps R (BranchFs.ioOrEio x) := asReq _ (h.call x hx)

theorem ignoring {x : Io α} (hx : FileCall x) : Keeps R (BranchFs.ignoring x) :=
  h.seq (keeps_attempt (h.ioOrEio hx)) fun _ => h.pure _

theorem ensureCow : Keeps R (ensureCowForBranch name p) := asReq _ h.ensureDelta

theorem readReq (f : Manager → α) : Keeps R (BranchFs.readReq f) := h.still fun _ => rfl

theorem writeThrough (file : FileHandle) (offset : Nat) (data : Bytes) :
    Keeps R (BranchFs.writeThrough file offset data) := by
  refine h.seq (h.readReq _) fun oldSize => h.seq (h.checked (asReq _ (h.quotaCheck _))) fun _ => ?_
  refine h.seq (h.ioOrEio (.pwrite file offset data)) fun n => ?_
  exact h.seq (h.checked (asReq _ (h.quotaAdd _))) fun _ => h.pure _

theorem createFile (mode : Nat) : Keeps R (BranchFs.createFile name p mode) := by
  refine h.seq h.ensureCow fun delta => h.seq (h.ioOrEio (.createDirAll delta.parent)) fun _ => ?_
  exact h.seq (h.ioOrEio (.openWrite _ _ _)) fun _ => h.ignoring (.setPermissions _ _)

theorem makeDir (mode : Nat) : Keeps R (BranchFs.makeDir name p mode) := by
  refine h.seq h.ensureCow fun delta => ?_
  exact h.seq (h.ioOrEio (.createDirAll _)) fun _ => h.ignoring (.setPermissions _ _)

theorem makeSymlink (target : Target) : Keeps R (BranchFs.makeSymlink name p target) := by
  refine h.seq h.ensureCow fun delta => h.seq (h.ioOrEio (.createDirAll delta.parent)) fun _ => ?_
  exact h.ioOrEio (.symlink _ _)

theorem openForWrite : Keeps R (BranchFs.openForWrite name p) :=
  h.seq h.ensureCow fun _ => h.ioOrEio (.openWrite _ _ _)

theorem truncatePath (size : Nat) : Keeps R (BranchFs.truncatePath name p size) := by
  refine h.seq (keeps_attempt h.ensureCow) fun cow => ?_
  cases cow with
  | error e => exact h.pure _
  | ok delta =>
    refine h.seq (keeps_attempt (h.ioOrEio (.openWrite _ _ _))) fun opened => ?_
    cases opened with
    | error e => exact h.pure _
    | ok file =>
      refine h.seq (h.readReq _) fun oldSize => ?_
      refine h.seq (h.checked (asReq _ (h.quotaCheck _))) fun _ => ?_
      refine h.seq (h.ignoring (.setLen _ _)) fun _ => ?_
      split
      · exact asReq _ (h.quotaAdd _)
      · split
        · exact asReq _ (h.quotaSub _)
        · exact h.pure _

theorem setAttrPath (a : SetAttr) : Keeps R (BranchFs.setAttrPath name p a) := by
  refine h.seq (keeps_attempt h.ensureCow) fun cow => ?_
  cases cow with
  | error e => exact h.pure _
  | ok delta =>
    have hmode : Keeps R (applyMode delta a.mode) := by
      cases a.mode with
      | none => exact h.pure _
      | some mode => exact h.ignoring (.setPermissions _ _)
    exact h.seq hmode fun _ => h.seq (h.checked (h.ignoring (.chown _ _ _))) fun _ =>
      h.checked (h.ignoring (.utimensat _ _))

theorem renamePath (src dst : RelPath) (noReplace : Bool) :
    Keeps R (BranchFs.renamePath name src dst noReplace) := by
  have hclear : Keeps R (clearDestination name dst) := by
    refine h.seq (h.readReq _) fun there => h.seq (h.readReq _) fun isDir => h.checked ?_
    split
    · exact h.ignoring (.removeDirAll _)
    · exact h.ignoring (.removeFile _)
  refine h.seq (h.readReq _) fun srcThere => h.seq (keeps_failIf h.refl _ _) fun _ => ?_
  refine h.seq (h.readReq _) fun srcInherited => h.seq (h.readReq _) fun dstThere => ?_
  refine h.seq (keeps_failIf h.refl _ _) fun _ => h.seq h.ensureCow fun srcDelta => ?_
  refine h.seq h.ensureCow fun dstDelta => h.seq (h.ioOrEio (.createDirAll dstDelta.parent)) fun _ => ?_
  refine h.seq (h.readReq _) fun dstExisted => h.seq (h.checked hclear) fun _ => ?_
  refine h.seq (h.ioOrEio (.rename _ _)) fun _ => asReq _ ?_
  exact h.seq (h.still (after_getBranch name)) fun _ => h.record _ _ (renameTombstones_state _ _ _ _)

/-- **Every file operation keeps what the calls keep.** -/
theorem fileOp (op : FileOp) : Keeps R (op.run name) := by
  cases op with
  | create dir n mode => exact h.createFile mode
  | mkdir dir n mode => exact h.makeDir mode
  | symlink dir n target => exact h.makeSymlink target
  | writeByWorker q offset data => exact h.seq (asReq _ (h.writeData offset data)) fun _ => h.pure _
  | write q offset data =>
    exact h.seq h.openForWrite fun file => h.seq (h.writeThrough file offset data) fun _ => h.pure _
  | writeCached id offset data => exact h.seq (h.writeThrough _ offset data) fun _ => h.pure _
  | truncate q size => exact h.truncatePath size
  | setattr q attr => exact h.setAttrPath attr
  | unlink dir n => exact asReq _ h.deletePath
  | rmdir dir n => exact asReq _ h.rmdirPath
  | rename dir n newDir newName noReplace => exact h.renamePath _ _ noReplace

end KeptByCalls

/-! ## Commits -/

/-- The relation holds over the parts of a commit that no file operation has. -/
structure KeptByCommit (R : Manager → Manager → Prop) : Prop extends KeptByCalls R where
  staged : ∀ {α : Type} (x : Stage α), Keeps R (onDisk (runStaged x))
  remove : ∀ name, Keeps R (removeBranch name)
  epoch : Keeps R bumpEpoch

namespace KeptByCommit

variable {R : Manager → Manager → Prop} (h : KeptByCommit R)

include h

theorem mergeAttempt (b : Branch) (p : RelPath) (src : Place) (first current : PathIdentity) :
    Keeps R (BranchFs.mergeAttempt b p src first current) := by
  have hread : ∀ l : Place, Keeps R (onDisk (readBoundedText l)) := fun l =>
    h.still (after_onDisk_of (after_readBoundedText l))
  unfold BranchFs.mergeAttempt
  split
  · refine h.seq (h.still fun _ => rfl) fun m => ?_
    refine h.seq (h.still (after_readTouchBaseContent _ _)) fun baseBytes => ?_
    refine h.seq (hread src) fun sessionBytes => ?_
    split
    · refine h.seq (hread _) fun current => ?_
      cases current with
      | none => exact h.pure _
      | some bytes =>
        dsimp only
        split
        · exact h.pure _
        · exact keeps_throw h.refl _
    · exact h.pure _
  · exact h.pure _

theorem detectFiles (b : Branch) : ∀ (files : List (RelPath × Place)) (r : Report),
    Keeps R (BranchFs.detectFiles b files r) := by
  have hfile : ∀ p src r, Keeps R (detectFile b p src r) := by
    intro p src r
    refine h.seq (h.still fun _ => rfl) fun m => ?_
    dsimp only
    split
    · exact h.pure _
    · refine h.seq (h.mergeAttempt b p src _ _) fun merged => ?_
      cases merged with
      | none => exact h.pure _
      | some bytes =>
        exact h.seq (h.parents _) fun _ => h.seq (h.call _ (.writeFile _ _)) fun _ => h.pure _
  intro files
  induction files with
  | nil => exact fun r => h.pure r
  | cons f rest ih => exact fun r => h.seq (hfile f.1 f.2 r) fun r' => ih r'

theorem reportFor (b parent : Branch) (tombstones : List RelPath) (files : List (RelPath × Place)) :
    Keeps R (BranchFs.reportFor b parent tombstones files) := by
  unfold BranchFs.reportFor
  split
  · exact h.seq (h.still fun _ => rfl) fun _ => h.detectFiles b files _
  · exact h.pure _

/-- The end of a commit: the parent's counter, the map, the epoch. -/
theorem finish (parent name : String) : Keeps R (do
    countCommit parent
    removeBranch name
    bumpEpoch) :=
  h.seq (h.record parent _ fun _ => rfl) fun _ => h.seq (h.remove name) fun _ => h.epoch

theorem applyCommit (name : String) (parent : Branch) (r : Report) (tombstones : List RelPath)
    (files : List (RelPath × Place)) :
    Keeps R (BranchFs.applyCommit name parent r tombstones files) := by
  unfold BranchFs.applyCommit
  split
  · refine h.seq (h.staged _) fun staged => ?_
    refine h.seq (keeps_forM h.refl h.trans _ fun p _ => ?_) fun _ => h.finish "main" name
    exact h.seq (keeps_attempt (h.call _ (.removeEntry _))) fun _ => h.pure _
  · refine h.seq (h.still fun _ => rfl) fun m => h.seq (h.staged _) fun staged => ?_
    refine h.seq (keeps_forM h.refl h.trans _ fun dir _ => h.prune _ _) fun _ => ?_
    exact h.seq (h.record _ _ fun _ => rfl) fun _ => h.finish parent.name name

/-- **A commit keeps what its parts keep.** -/
theorem commit (order : HashOrder) (name : String) : Keeps R (commitWithReport order name) := by
  refine h.seq (h.still (after_finalizable name)) fun bp => h.seq (h.look _) fun files => ?_
  refine h.seq (h.reportFor bp.1 bp.2 _ files) fun report => ?_
  exact h.seq (h.applyCommit name bp.2 report _ files) fun _ => h.pure _

theorem abort (name : String) : Keeps R (BranchFs.abort name) :=
  h.seq (h.still (after_finalizable name)) fun _ => h.seq (h.remove name) fun _ => h.pure _

end KeptByCommit

/-! ## Steps -/

/-- The relation holds over the parts of a step that no commit has. -/
structure KeptBySteps (R : Manager → Manager → Prop) : Prop extends KeptByCommit R where
  disk : ∀ m d, R m { m with disk := d }
  made : ∀ c parent, Keeps R (do insertBranch c parent; bumpEpoch)
  state : ∀ name state, Keeps R (do modifyBranch name fun b => { b with state := state }; bumpEpoch)

namespace KeptBySteps

variable {R : Manager → Manager → Prop} (h : KeptBySteps R)

include h

theorem create (name parent : String) (inheritance : InheritanceMode) (hidePaths : List String) :
    Keeps R (createBranchWithOptions name parent inheritance hidePaths) := by
  have hsnapshot : Keeps R (takeSnapshot parent name) := by
    refine h.seq (keeps_attempt fun m => ?_) fun r => ?_
    · obtain ⟨d, hrun, -⟩ := after_snapshotVisibleTree m parent name
      rw [hrun]
      exact h.disk m d
    · cases r with
      | ok _ => exact h.pure _
      | error e => exact h.seq (fun m => h.disk m _) fun _ => keeps_throw h.refl e
  refine h.seq (keeps_fromExcept h.refl _) fun _ => h.seq (h.still fun _ => rfl) fun taken => ?_
  refine h.seq (keeps_failIf h.refl _ _) fun _ => h.seq (h.still fun m => ?_) fun up => ?_
  · unfold after
    cases hparent : m.forest.get? parent <;> simp only [hparent]
  · exact h.seq (keeps_when h.refl _ fun _ => hsnapshot) fun _ => h.made _ _

theorem setBranchState (name : String) (state : BranchState) :
    Keeps R (BranchFs.setBranchState name state) :=
  h.seq (keeps_failIf h.refl _ _) fun _ => h.seq (h.still (after_getBranch name)) fun _ => h.state name state

theorem revert (name : String) (p : RelPath) : Keeps R (revertPathInBranch name p) := by
  refine h.seq (keeps_failIf h.refl _ _) fun _ => h.seq (h.still (after_writableBranch name)) fun _ => ?_
  refine h.seq h.removeDelta fun _ => h.seq (h.record _ _ fun _ => rfl) fun _ => ?_
  exact h.seq h.removeTouchRecords fun _ => h.epoch

/-- **A step keeps what its parts keep.** -/
theorem step (m : Manager) (op : Op) : R m (BranchFs.step m op) := by
  cases op with
  | create name parent inheritance hidePaths => exact h.create name parent inheritance hidePaths m
  | commit order name => exact h.commit order name m
  | abort name => exact h.abort name m
  | freeze name => exact h.setBranchState name .frozen m
  | thaw name => exact h.setBranchState name .open m
  | revert name p => exact h.revert name p m
  | file name op =>
    refine h.seq (h.still fun m => ?_) (fun _ => h.fileOp op) m
    unfold after denyUnlessWritable
    by_cases hw : m.isBranchWritable name = true
    · simp only [hw, if_true]
    · simp only [hw, Bool.false_eq_true, if_false]
  | host edit =>
    show R m (after (onDisk edit.run) m)
    unfold after onDisk
    cases edit.run m.disk <;> exact h.disk m _

end KeptBySteps

end BranchFs
