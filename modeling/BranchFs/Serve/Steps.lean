/-
# BranchFs.Serve.Steps -- what the handlers keep

A handler that only looks takes over the epoch (`KeptByLooks`), and hands out numbers (`KeptByNumbers`). One
that runs a body moves the manager and takes names out of the table (`KeptByBodies`); the others also change the
branches, what the mountpoint shows, and the table as a whole (`KeptByHandlers`). A relation between the states
of a mount that these keep is kept by every such handler, whatever it answers.
-/
import BranchFs.Isolate.Epochs
import BranchFs.Model.Process
import BranchFs.Mount.Listing
import BranchFs.Mount.Undone

namespace BranchFs

open BranchFs.Posix BranchFs.Logic

/-! ## Looking -/

/-- A relation that holds from a mount to the next when it takes over the epoch. -/
structure KeptByLooks (R : Mount → Mount → Prop) : Prop where
  refl : ∀ s, R s s
  trans : ∀ s t u, R s t → R t u → R s u
  stale : ∀ s, R s { s with currentEpoch := s.manager.epoch }

namespace KeptByLooks

variable {R : Mount → Mount → Prop} (h : KeptByLooks R) {α β : Type} {branch : String} {rel : RelPath}

include h

theorem seq {x : MountReq α} {f : α → MountReq β} (hx : Keeps R x) (hf : ∀ a, Keeps R (f a)) :
    Keeps R (x >>= f) := keeps_bind h.trans hx hf

theorem still {x : MountReq α} (hx : Keeps Eq x) : Keeps R x := by
  intro s
  rw [← hx s]
  exact h.refl s

theorem pure (a : α) : Keeps R (Pure.pure a : MountReq α) := keeps_pure h.refl a

theorem throw (e : Errno) : Keeps R (MonadExcept.throw e : MountReq α) := keeps_throw h.refl e

theorem failIf (c : Prop) [Decidable c] (e : Errno) : Keeps R (Logic.failIf c e : MountReq Unit) :=
  keeps_failIf h.refl c e

omit h in
theorem get {f : Mount → MountReq α} (hf : ∀ s, Keeps R (f s)) : Keeps R (MonadState.get >>= f) :=
  fun s => hf s s

theorem isStale : Keeps R BranchFs.isStale := h.stale

theorem failWhenStale : Keeps R BranchFs.failWhenStale := h.seq h.isStale fun _ => h.failIf _ _

theorem needBranch (branch : String) : Keeps R (BranchFs.needBranch branch) :=
  h.still (reads_needBranch branch)

theorem inodePath (ino : Nat) : Keeps R (BranchFs.inodePath ino) := h.still (reads_inodePath ino)

theorem denied (branch : String) : Keeps R (onReq (denyUnlessWritable branch)) :=
  h.still (reads_denyUnlessWritable branch)

theorem replyAttr (ino : Nat) : Keeps R (BranchFs.replyAttr branch rel ino) := by
  refine h.still fun s => ?_
  unfold after BranchFs.replyAttr
  cases s.resolveForBranch branch rel with
  | none => rfl
  | some l => cases hl : s.manager.disk.lstat l <;> simp only [hl]

theorem resolvedIn : Keeps R (BranchFs.resolvedIn branch rel) := by
  refine h.still fun s => ?_
  unfold after BranchFs.resolvedIn
  cases s.resolveForBranch branch rel <;> rfl

theorem readLinkAt (l : Place) : Keeps R (BranchFs.readLinkAt l) := by
  refine h.still fun s => ?_
  unfold after BranchFs.readLinkAt
  cases Posix.Sys.readLink l s.manager.disk <;> rfl

/-! ### Attributes, links and opening -/

theorem getattrCtl (ino : Nat) : Keeps R (BranchFs.getattrCtl branch ino) := by
  refine h.still fun s => ?_
  unfold after BranchFs.getattrCtl
  cases s.exposeControl && s.manager.isBranchValid branch <;> rfl

theorem getattrAt (path : RelPath) (ino : Nat) : Keeps R (BranchFs.getattrAt path ino) := by
  unfold BranchFs.getattrAt
  split
  · exact h.seq (h.needBranch _) fun _ => h.pure _
  · exact h.getattrCtl ino
  · exact h.seq (h.needBranch _) fun _ => h.seq (h.replyAttr ino) fun _ => h.pure _
  · refine h.seq (keeps_when h.refl _ fun _ => h.failWhenStale) fun _ => KeptByLooks.get fun s => ?_
    split
    · exact h.pure _
    · exact h.seq (h.replyAttr ino) fun _ => h.pure _

theorem getattr (ino : Nat) : Keeps R (BranchFs.getattr ino) := by
  refine KeptByLooks.get fun s => ?_
  split
  · split
    · exact h.pure _
    · exact h.throw _
  · exact h.getattrCtl ino
  · split
    · exact h.pure _
    · exact h.seq (h.inodePath ino) fun path => h.getattrAt path ino

theorem readlink (ino : Nat) : Keeps R (BranchFs.readlink ino) := by
  refine KeptByLooks.get fun s => ?_
  split
  · exact h.seq (h.needBranch _) fun _ => h.seq h.resolvedIn fun l => h.readLinkAt l
  · exact h.seq h.failWhenStale fun _ => KeptByLooks.get fun s => h.seq h.resolvedIn fun l => h.readLinkAt l
  · exact h.throw _

theorem openFile (ino : Nat) (f : OpenFlags) : Keeps R (BranchFs.openFile ino f) := by
  refine KeptByLooks.get fun s => ?_
  split
  · exact h.pure _
  refine h.seq (h.inodePath ino) fun path => ?_
  split
  · exact h.pure _
  · exact h.pure _
  · exact h.seq (keeps_when h.refl _ fun _ => h.denied _) fun _ =>
      h.seq (h.needBranch _) fun _ => h.seq h.resolvedIn fun _ => h.pure _
  · exact h.seq h.failWhenStale fun _ => KeptByLooks.get fun s =>
      h.seq h.resolvedIn fun _ => keeps_when h.refl _ fun _ => h.denied _

/-! ### Names that are to go -/

theorem removable (path : RelPath) (name : String) : Keeps R (BranchFs.removable path name) := by
  refine KeptByLooks.get fun s => ?_
  split
  · exact h.throw _
  · refine h.seq (keeps_when h.refl _ fun _ => ?_) fun _ => h.seq (h.denied _) fun _ => h.pure _
    exact h.seq (h.failIf _ _) fun _ => h.needBranch _

theorem unlink (parent : Nat) (name : String) : Keeps R (BranchFs.unlink parent name) :=
  h.seq (h.inodePath parent) fun path => h.seq (h.removable path name) fun _ => h.pure _

theorem rmdir (parent : Nat) (name : String) : Keeps R (BranchFs.rmdir parent name) :=
  h.seq (h.inodePath parent) fun path => h.seq (h.removable path name) fun _ => h.pure _

theorem readCtl (offset : Int) (size : Nat) : Keeps R (BranchFs.readCtl offset size) := by
  refine h.still fun s => ?_
  unfold after BranchFs.readCtl
  cases s.exposeControl <;> rfl

end KeptByLooks

/-! ## Reading -/

section

variable {α : Type} {s : CachedMount} {t : Mount}

theorem after_onMount (x : MountReq α) (s : CachedMount) :
    after (onMount x) s = { s with mount := after x s.mount } := by
  unfold after onMount
  cases x s.mount <;> rfl

theorem onMount_of_ok {x : MountReq α} {a : α} (h : x s.mount = .ok a t) :
    onMount x s = .ok a { s with mount := t } := by
  unfold onMount
  rw [h]

theorem onMount_of_error {x : MountReq α} {e : Errno} (h : x s.mount = .error e t) :
    onMount x s = .error e { s with mount := t } := by
  unfold onMount
  rw [h]

/-! ### Answers -/

theorem after_answered (f : α → Reply) (x : CachedReq α) (s : CachedMount) :
    after (answered f x) s = after x s := after_bind_pure x _ s

theorem after_queued (x : MountReq Job) (s : CachedMount) :
    after (queued x) s = { s with mount := after x s.mount } :=
  (after_bind_pure _ _ s).trans (after_onMount x s)

/-- A write is answered at once, or when the worker has run its job. -/
theorem after_written (ino : Nat) (offset : Int) (data : Bytes) (append : Bool) (command : CtlCommand)
    (s : CachedMount) : after (Request.write ino offset data append command).run s =
      after (write ino offset data append command) s := by
  show after (write ino offset data append command >>= _) s = _
  cases hrun : write ino offset data append command s with
  | error e t => rw [after_bind_error hrun, after_error hrun]
  | ok a t =>
    rw [after_bind_ok hrun, after_ok hrun]
    cases a <;> rfl

end

/-- A relation between the states of a mount with its caches: it holds when the mount changes by `R`, and when
another descriptor is kept to read through. -/
structure KeptByReading (R : Mount → Mount → Prop) (C : CachedMount → CachedMount → Prop) : Prop where
  looks : KeptByLooks R
  refl : ∀ s, C s s
  trans : ∀ s t u, C s t → C t u → C s u
  mount : ∀ s t, R s.mount t → C s { s with mount := t }
  reading : ∀ s cache, C s { s with openCache := cache }

namespace KeptByReading

variable {R : Mount → Mount → Prop} {C : CachedMount → CachedMount → Prop} (h : KeptByReading R C)
variable {α β : Type} {s : CachedMount}

include h

theorem seq {x : CachedReq α} {f : α → CachedReq β} (hx : Keeps C x) (hf : ∀ a, Keeps C (f a)) :
    Keeps C (x >>= f) := keeps_bind h.trans hx hf

theorem pure (a : α) : Keeps C (Pure.pure a : CachedReq α) := keeps_pure h.refl a

omit h in
theorem get {f : CachedMount → CachedReq α} (hf : ∀ s, Keeps C (f s)) :
    Keeps C (MonadState.get >>= f) := fun s => hf s s

/-- A handler that knows nothing of the caches. -/
theorem onMount_at {x : MountReq α} (hx : R s.mount (after x s.mount)) :
    C s (after (BranchFs.onMount x) s) := by
  rw [after_onMount]
  exact h.mount s _ hx

theorem onMount {x : MountReq α} (hx : Keeps R x) : Keeps C (BranchFs.onMount x) :=
  fun s => h.onMount_at (hx s.mount)

theorem readThrough (file : FileHandle) (offset : Int) (size : Nat) :
    Keeps C (BranchFs.readThrough file offset size) := by
  intro s
  have hstill : after (BranchFs.readThrough file offset size) s = s := by
    unfold after BranchFs.readThrough
    by_cases hneg : offset < 0
    · simp only [hneg, if_true]
    · simp only [hneg, if_false]
      cases s.mount.manager.disk.fileOf file <;> rfl
  rw [hstill]
  exact h.refl s

theorem openToRead (ino : Nat) (l : Place) : Keeps C (BranchFs.openToRead ino l) := by
  intro s
  unfold after BranchFs.openToRead
  cases Posix.Sys.openRead l s.mount.manager.disk with
  | ok file d => exact h.reading s _
  | error e d => exact h.refl s

/-- A read keeps what looking keeps, and may keep a descriptor to read through. -/
theorem read (ino : Nat) (offset : Int) (size : Nat) : Keeps C (BranchFs.read ino offset size) := by
  have hl := h.looks
  have hopen : ∀ l, Keeps C (do
      let file ← BranchFs.openToRead ino l
      BranchFs.readThrough file offset size) :=
    fun l => h.seq (h.openToRead ino l) fun file => h.readThrough file offset size
  have hroot : Keeps C (readInRoot ino offset size) := by
    refine h.seq (h.onMount hl.failWhenStale) fun _ => h.seq (h.onMount (hl.inodePath ino)) fun path => ?_
    refine get fun s => h.seq (h.onMount hl.resolvedIn) fun l => ?_
    refine h.seq (h.openToRead ino l) fun file => h.seq (h.readThrough file offset size) fun bytes => ?_
    exact h.seq (h.onMount hl.failWhenStale) fun _ => h.pure _
  have hslow : Keeps C (readSlow ino offset size) := by
    refine get fun s => ?_
    split
    · exact h.seq (h.onMount (hl.needBranch _)) fun _ => h.seq (h.onMount hl.resolvedIn) fun l => hopen l
    · exact keeps_throw h.refl _
    · exact keeps_throw h.refl _
    · exact hroot
    · split
      · exact keeps_throw h.refl _
      · exact hroot
  unfold BranchFs.read
  split
  · exact h.onMount (hl.readCtl offset size)
  · refine h.seq (h.onMount hl.failWhenStale) fun _ => get fun s => ?_
    split
    · exact h.readThrough _ offset size
    · exact hslow

end KeptByReading

/-! ## Numbers -/

/-- The relation also holds when a number is handed out. -/
structure KeptByNumbers (R : Mount → Mount → Prop) : Prop extends KeptByLooks R where
  number : ∀ s path isDir, R s { s with inodes := (s.inodes.getOrCreate path isDir).2 }
  ctlNumber : ∀ s numbers next, R s { s with branchCtlInodes := numbers, nextCtlIno := next }

namespace KeptByNumbers

variable {R : Mount → Mount → Prop} (h : KeptByNumbers R) {branch : String} {rel : RelPath}

include h

theorem inodeFor (path : RelPath) (isDir : Bool) : Keeps R (BranchFs.inodeFor path isDir) :=
  fun s => h.number s path isDir

theorem ctlInodeFor (branch : String) : Keeps R (BranchFs.ctlInodeFor branch) := by
  intro s
  unfold after BranchFs.ctlInodeFor
  cases s.branchCtlInodes.lookup branch with
  | some ino => exact h.refl s
  | none => exact h.ctlNumber s _ _

theorem replyEntry (inode : RelPath) : Keeps R (BranchFs.replyEntry branch rel inode) := by
  refine KeptByLooks.get fun s => ?_
  cases s.resolveForBranch branch rel with
  | none => exact h.throw _
  | some l =>
    refine h.seq (h.inodeFor inode _) fun ino => ?_
    split
    · exact h.pure _
    · exact h.throw _

/-! ### Names -/

theorem lookupInRoot (parent : RelPath) (name : String) : Keeps R (BranchFs.lookupInRoot parent name) :=
  h.seq h.failWhenStale fun _ => KeptByLooks.get fun _ => h.replyEntry _

theorem lookupInBranch (parent : RelPath) (name : String) :
    Keeps R (BranchFs.lookupInBranch branch parent name) := by
  refine KeptByLooks.get fun s => ?_
  split
  · exact h.seq (h.ctlInodeFor branch) fun _ => h.pure _
  · split
    · exact h.throw _
    · exact h.seq (h.needBranch branch) fun _ => h.replyEntry _

theorem lookupAtRoot (name : String) : Keeps R (BranchFs.lookupAtRoot name) := by
  refine KeptByLooks.get fun s => ?_
  split
  · exact h.pure _
  · split
    · exact h.seq (h.needBranch _) fun _ => h.seq (h.inodeFor _ _) fun _ => h.pure _
    · exact h.lookupInRoot [] name

theorem lookup (parent : Nat) (name : String) : Keeps R (BranchFs.lookup parent name) := by
  refine h.seq (h.inodePath parent) fun path => ?_
  split
  · exact h.lookupAtRoot name
  · split
    · exact h.lookupInBranch _ name
    · exact h.lookupInBranch _ name
    · exact h.lookupInRoot path name

/-! ### Listings -/

theorem listNames (inode : RelPath) (names : List String) :
    Keeps R (BranchFs.listNames branch rel inode names) := by
  induction names with
  | nil => exact h.pure _
  | cons name rest ih =>
    refine KeptByLooks.get fun s => ?_
    split
    · exact ih
    · exact h.seq (h.inodeFor _ _) fun _ => h.seq ih fun _ => h.pure _

theorem collectReaddirEntries (ino : Nat) (inode : RelPath) :
    Keeps R (BranchFs.collectReaddirEntries branch rel ino inode) := by
  refine KeptByLooks.get fun s => ?_
  cases s.manager.collectDirNames branch rel with
  | error e => exact h.pure _
  | ok names => exact h.seq (h.listNames inode _) fun _ => h.pure _

theorem listBranches (branches : List String) : Keeps R (BranchFs.listBranches branches) := by
  induction branches with
  | nil => exact h.pure _
  | cons b rest ih =>
    unfold BranchFs.listBranches
    split
    · exact ih
    · exact h.seq (h.inodeFor _ _) fun _ => h.seq ih fun _ => h.pure _

theorem listRoot (order : MapOrder) (ino : Nat) : Keeps R (BranchFs.listRoot order ino) := by
  refine h.seq h.failWhenStale fun _ => KeptByLooks.get fun s =>
    h.seq (h.collectReaddirEntries _ _) fun entries => ?_
  have hdone : ∀ virtual, Keeps R (do BranchFs.failWhenStale; Pure.pure (entries ++ virtual)) :=
    fun virtual => h.seq h.failWhenStale fun _ => h.pure _
  dsimp only
  split
  · exact h.seq (h.listBranches _) fun _ => h.seq (h.pure _) hdone
  · exact h.seq (h.pure _) hdone

theorem listAt (order : MapOrder) (path : RelPath) (ino : Nat) :
    Keeps R (BranchFs.listAt order path ino) := by
  unfold BranchFs.listAt
  split
  · refine h.seq (h.needBranch _) fun _ => KeptByLooks.get fun s =>
      h.seq (h.collectReaddirEntries _ _) fun _ => ?_
    split
    · exact h.seq (h.ctlInodeFor _) fun _ => h.pure _
    · exact h.pure _
  · exact h.seq (h.needBranch _) fun _ => h.collectReaddirEntries _ _
  · exact h.listRoot order ino
  · exact h.seq h.failWhenStale fun _ => KeptByLooks.get fun s =>
      h.seq (h.collectReaddirEntries _ _) fun _ => h.seq h.failWhenStale fun _ => h.pure _
  · exact h.throw _

theorem listDir (order : MapOrder) (ino : Nat) : Keeps R (BranchFs.listDir order ino) := by
  refine KeptByLooks.get fun s => ?_
  have hlist : ∀ path, Keeps R (BranchFs.listAt order path ino) := fun path => h.listAt order path ino
  dsimp only
  split
  · exact h.seq (h.pure _) hlist
  · exact h.seq (h.inodePath ino) hlist

theorem readdir (order : MapOrder) (ino offset room : Nat) :
    Keeps R (BranchFs.readdir order ino offset room) :=
  h.seq (h.listDir order ino) fun _ => h.pure _

end KeptByNumbers

/-! ## Bodies -/

section

variable {s : Mount}

theorem inodePath_ok {ino : Nat} {path : RelPath} (h : s.inodes.getPath ino = some path) :
    inodePath ino s = .ok path s := by
  unfold inodePath
  rw [h]

theorem inodePath_error {ino : Nat} (h : s.inodes.getPath ino = none) :
    inodePath ino s = .error .ENOENT s := by
  unfold inodePath
  rw [h]

end

/-- The relation also holds when the manager moves by `M` and when a name is taken out of the table. -/
structure KeptByBodies (M : Manager → Manager → Prop) (R : Mount → Mount → Prop) : Prop
    extends KeptByLooks R where
  calls : KeptByCalls M
  manager : ∀ s m, M s.manager m → R s { s with manager := m }
  remove : ∀ s path, R s { s with inodes := s.inodes.remove path }

namespace KeptByBodies

variable {M : Manager → Manager → Prop} {R : Mount → Mount → Prop} (h : KeptByBodies M R)
variable {α : Type} {branch : String} {rel : RelPath}

include h

theorem body {x : Req α} (hx : Keeps M x) : Keeps R (onReq x) := by
  intro s
  have hm := hx s.manager
  unfold after onReq at *
  cases hrun : x s.manager <;> rw [hrun] at hm <;> exact h.manager s _ hm

theorem changeAttr (size : Option Nat) (a : SetAttr) :
    Keeps M (Faulty.changeAttr .absent branch rel size a) := by
  have hattr : Keeps M (Faulty.setAttrPath .absent branch rel a) := by
    rw [Faulty.setAttrPath_absent]
    exact h.calls.setAttrPath a
  have hsize : ∀ n, Keeps M (Faulty.truncatePath .absent branch rel n) := by
    intro n
    rw [Faulty.truncatePath_absent]
    exact h.calls.truncatePath n
  cases size with
  | none => exact h.calls.seq (h.calls.pure _) fun _ => h.calls.checked hattr
  | some n => exact h.calls.seq (hsize n) fun _ => h.calls.checked hattr

theorem setattr (ino : Nat) (size : Option Nat) (a : SetAttr) :
    Keeps R (Faulty.setattr .absent ino size a) := by
  have hask : ∀ b, Keeps R (when (asksFor size a = true) (onReq (denyUnlessWritable b))) :=
    fun b => keeps_when h.refl _ fun _ => h.denied b
  refine KeptByLooks.get fun s => ?_
  split
  · split
    · exact h.pure _
    · exact h.throw _
  · split
    · exact h.pure _
    · exact h.throw _
  · refine h.seq (h.inodePath ino) fun path => ?_
    unfold Faulty.setattrAt
    split
    · exact h.throw _
    · exact h.throw _
    · exact h.seq (hask _) fun _ => h.seq (h.needBranch _) fun _ =>
        h.seq (h.body (h.changeAttr size a)) fun _ => h.replyAttr ino
    · exact KeptByLooks.get fun s => h.seq (hask _) fun _ => h.seq (h.body (h.changeAttr size a)) fun _ =>
        h.seq h.failWhenStale fun _ => KeptByLooks.get fun s => h.replyAttr ino

/-! ### Entries -/

/-- Making an entry, where the number of its path may be handed out. -/
theorem makeEntry {m : Maker} {s : Mount} {parent : Nat} {name : String}
    (hbody : ∀ b p, Keeps M (m.body b p)) (hundo : ∀ l, FileCall (m.undo l))
    (hnumber : ∀ path, s.inodes.getPath parent = some path → Keeps R (inodeFor (path ++ [name]) m.isDir)) :
    R s (after (BranchFs.makeEntry m parent name) s) := by
  unfold BranchFs.makeEntry
  cases hpath : s.inodes.getPath parent with
  | none =>
    rw [after_bind_error (inodePath_error hpath)]
    exact h.refl s
  | some path =>
    rw [after_bind_ok (inodePath_ok hpath)]
    refine h.seq ?_ (fun dir => ?_) s
    · refine KeptByLooks.get fun s => ?_
      cases s.dirAt path with
      | none => exact h.throw _
      | some d =>
        exact h.seq (keeps_when h.refl _ fun _ => h.needBranch _) fun _ =>
          h.seq (h.denied _) fun _ => h.pure _
    · obtain ⟨branch, rel⟩ := dir
      refine h.seq (h.body (hbody _ _)) fun _ => h.seq (keeps_when h.refl _ fun _ => ?_) fun _ => ?_
      · refine h.seq h.isStale fun stale => keeps_when h.refl _ fun _ => ?_
        exact h.seq (h.body (h.calls.ignoring (hundo _))) fun _ => h.throw _
      · refine h.seq (hnumber path hpath) fun ino => h.still fun s => ?_
        unfold after replyMade
        cases s.manager.disk.lstat (deltaPath branch (rel ++ [name])) <;> rfl

/-- A rename, where the table may be changed as it says. -/
theorem rename {s : Mount} {parent : Nat} {name : String} {newparent : Nat} {newname : String}
    (flags : RenameFlags)
    (htable : ∀ paths, renamePaths parent name newparent newname s = .ok paths s →
      ∀ isDir t, R t { t with inodes := moveInode paths.srcInode paths.dstInode isDir t.inodes }) :
    R s (after (BranchFs.rename parent name newparent newname flags) s) := by
  unfold BranchFs.rename
  by_cases hflags : flags.exchange = true
  · rw [after_bind_error (failIf_error hflags _ s)]
    exact h.refl s
  rw [after_bind_ok (failIf_ok hflags _ s)]
  cases hpaths : renamePaths parent name newparent newname s with
  | error e t =>
    rw [after_bind_error hpaths, ← (reads_renamePaths parent name newparent newname).error hpaths]
    exact h.refl s
  | ok paths t =>
    obtain rfl : s = t := (reads_renamePaths parent name newparent newname).ok hpaths
    rw [after_bind_ok hpaths]
    refine h.seq (h.body (h.calls.renamePath _ _ _)) (fun _ => ?_) s
    exact h.seq (keeps_when h.refl _ fun _ => h.failWhenStale) fun _ t => htable paths hpaths _ t

/-! ### Jobs -/

theorem finishDelete {x : Req Unit} (hx : Keeps M x) (inode : RelPath) (mayBeStale : Bool) :
    Keeps R (BranchFs.finishDelete branch inode mayBeStale x) := by
  intro s
  have hm := h.body hx s
  cases hrun : onReq x s with
  | ok u t =>
    rw [after_ok hrun] at hm
    unfold after BranchFs.finishDelete
    simp only [hrun]
    by_cases hstale : (mayBeStale && !t.manager.isBranchValid branch) = true
    · simp only [hstale, if_true]
      exact hm
    · simp only [hstale, Bool.false_eq_true, if_false]
      exact h.trans _ _ _ hm (h.remove t _)
  | error e t =>
    rw [after_error hrun] at hm
    unfold after BranchFs.finishDelete
    simp only [hrun]
    exact hm

theorem job (job : Job) : Keeps R job.run := by
  cases job with
  | write b p offset data =>
    exact h.body (h.calls.seq (KeptByCalls.asReq _ (h.calls.writeData offset data)) fun _ => h.calls.pure _)
  | delete b dir name inode mayBeStale =>
    exact h.finishDelete (KeptByCalls.asReq _ h.calls.deletePath) inode mayBeStale
  | rmdir b dir name inode mayBeStale =>
    exact h.finishDelete (KeptByCalls.asReq _ h.calls.rmdirPath) inode mayBeStale

end KeptByBodies

/-! ## All handlers -/

/-- The relation also holds when branches are made and ended, when the mountpoint shows another one, and
when the table is changed. -/
structure KeptByHandlers (M : Manager → Manager → Prop) (R : Mount → Mount → Prop) : Prop
    extends KeptByBodies M R, KeptByNumbers R where
  steps : KeptBySteps M
  switch : ∀ branch, Keeps R (switchMountBranch branch)
  table : ∀ s inodes, R s { s with inodes := inodes }

namespace KeptByHandlers

variable {M : Manager → Manager → Prop} {R : Mount → Mount → Prop} (h : KeptByHandlers M R)
variable {α : Type} {branch : String}

include h

theorem op {x : Mgr α} (hx : Keeps M x) : Keeps R (onManagerOrEio x) := by
  intro s
  have hm := hx s.manager
  unfold after onManagerOrEio onManager at *
  cases hrun : x s.manager <;> rw [hrun] at hm <;> exact h.manager s _ hm

/-! ### Entries -/

theorem create (parent : Nat) (name : String) (mode umask : UInt32) :
    Keeps R (BranchFs.create parent name mode umask) := fun _ =>
  h.makeEntry (fun _ _ => h.calls.createFile _) (fun l => .removeFile l) fun _ _ => h.inodeFor _ _

theorem mkdir (parent : Nat) (name : String) (mode umask : UInt32) :
    Keeps R (BranchFs.mkdir parent name mode umask) := fun _ =>
  h.makeEntry (fun _ _ => h.calls.makeDir _) (fun l => .removeDirAll l) fun _ _ => h.inodeFor _ _

theorem symlink (parent : Nat) (name : String) (target : Target) :
    Keeps R (BranchFs.symlink parent name target) := fun _ =>
  h.makeEntry (fun _ _ => h.calls.makeSymlink _) (fun l => .removeFile l) fun _ _ => h.inodeFor _ _

theorem rename (parent : Nat) (name : String) (newparent : Nat) (newname : String) (flags : RenameFlags) :
    Keeps R (BranchFs.rename parent name newparent newname flags) := fun _ =>
  h.toKeptByBodies.rename flags fun _ _ _ t => h.table t _

/-! ### Control -/

theorem finalizeBranchOp {x : Mgr String} (hx : Keeps M x) :
    Keeps R (BranchFs.finalizeBranchOp branch x) := by
  refine h.seq (h.op hx) fun parent => h.seq (fun s => h.table s _) fun _ => h.seq h.stale fun _ => ?_
  exact KeptByLooks.get fun s => keeps_when h.refl _ fun _ => h.switch parent

theorem commitBranch (order : HashOrder) : Keeps M (BranchFs.commitBranch order branch) :=
  h.calls.seq (h.steps.commit order branch) fun _ => h.calls.pure _

theorem createByCommand (name parent : String) : Keeps R (BranchFs.createByCommand name parent) :=
  h.seq (h.failIf _ _) fun _ => h.seq (h.op (h.steps.create _ _ _ _)) fun _ => h.stale

theorem writeCtl (file : CtlFile) (command : CtlCommand) : Keeps R (BranchFs.writeCtl file command) := by
  refine KeptByLooks.get fun s => ?_
  split
  · cases file with
    | root =>
      cases command with
      | switch b =>
        refine h.seq (h.failIf _ _) fun _ => h.seq (h.needBranch b) fun _ => ?_
        exact h.seq (h.switch b) fun _ => h.seq h.stale fun _ s => h.table s _
      | create name => exact KeptByLooks.get fun s => h.createByCommand name _
      | commit order => exact KeptByLooks.get fun s => h.finalizeBranchOp (h.commitBranch order)
      | abort => exact KeptByLooks.get fun s => h.finalizeBranchOp (h.steps.abort _)
      | unknown => exact h.throw _
    | branch b =>
      cases command with
      | switch => exact h.throw _
      | create name => exact h.createByCommand name b
      | commit order => exact h.finalizeBranchOp (h.commitBranch order)
      | abort => exact h.finalizeBranchOp (h.steps.abort _)
      | unknown => exact h.throw _
  · exact h.throw _

theorem ioctl (ino : Nat) (command : IoctlCommand) : Keeps R (BranchFs.ioctl ino command) := by
  have hfinish : ∀ {x : Mgr String} {b : String}, Keeps M x → Keeps R (finalizeByIoctl b x) := fun hx =>
    h.seq (h.op hx) fun _ => h.seq (fun s => h.table s _) fun _ => h.stale
  refine KeptByLooks.get fun s => ?_
  split
  · refine KeptByLooks.get fun s => ?_
    cases command with
    | create name => exact h.seq (h.op (h.steps.create _ _ _ _)) fun _ => h.stale
    | commit order => exact hfinish (h.commitBranch order)
    | abort => exact hfinish (h.steps.abort _)
    | unknown => exact h.throw _
  · exact h.throw _

end KeptByHandlers

end BranchFs
