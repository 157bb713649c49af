/-
# BranchFs.Serve.Descriptors -- what a kept descriptor may write to

A write that finds a descriptor kept for its number asks no branch and looks at no path. The epoch has to
stand in for the checks: it moves when a branch is made, frozen, thawed or committed, so at one epoch a
branch that could be written when the descriptor was opened can be written still, unless it has been aborted
(`served_run`).

A descriptor is of the delta it was opened in where no link stands on the way; `Act.Direct` says so of the
writes that open one.
-/
import BranchFs.Serve.Caches

namespace BranchFs

open BranchFs.Posix BranchFs.Logic

/-! ## Descriptors and epochs -/

/-- The descriptor is of the delta of a branch that is open, or of one that is not there. -/
def OfOpen (m : Manager) (h : FileHandle) : Prop :=
  ∃ b, h.root = some (.files b) ∧ ∀ c, m.forest.get? b = some c → c.state = .open

/-- A write that opens a delta file meets no link on the way. -/
def Act.Direct (m : Manager) : Act → Prop
  | .op (.file b (.write p _ _)) => m.isBranchWritable b = true → m.ClearPrivate b ∧ m.Plainly b p
  | _ => True

/-- A write through a descriptor goes to a branch that is open, or to one that is not there any more. -/
def Act.Served (m : Manager) : Act → Prop
  | .through h _ _ => OfOpen m h
  | _ => True

/-- The mount is not ahead of the manager, and the descriptor it keeps for writing is of an open branch if
it is of the manager's epoch. -/
structure Guard (m : Manager) (s : CachedMount) : Prop where
  mount : s.mount.currentEpoch ≤ m.epoch
  cache : s.writeCache.epoch ≤ m.epoch
  kept : s.writeCache.epoch = m.epoch → ∀ h, s.writeCache.file = some h → OfOpen m h

def Process.Guarded (p : Process) : Prop := ∀ s ∈ p.mounts, Guard p.manager s

section

variable {m m' : Manager} {s t : CachedMount} {h : FileHandle}

theorem OfOpen.watched (hopen : OfOpen m h) (hw : Watched m m') (heq : m'.epoch = m.epoch) :
    OfOpen m' h := by
  obtain ⟨b, hroot, hstate⟩ := hopen
  refine ⟨b, hroot, fun c' hc' => ?_⟩
  obtain ⟨c, hc, hsame⟩ := hw.told heq b c' hc'
  rw [hsame]
  exact hstate c hc

/-- Whatever the manager does in the meantime, the guard holds. -/
theorem Guard.watched (hs : Guard m s) (hw : Watched m m') : Guard m' s where
  mount := hs.mount.trans hw.later
  cache := hs.cache.trans hw.later
  kept heq h hfile := by
    have hcache := hs.cache
    have hlater := hw.later
    have hsame : m'.epoch = m.epoch := by omega
    exact (hs.kept (heq.trans hsame) h hfile).watched hw hsame

theorem watched_act (m : Manager) (a : Act) : Watched m (act m a) := by
  cases a with
  | op op => exact watched_step m op
  | through h offset data => exact (keptByCalls_gentle.writeThrough h offset data m).watched
  | switch mountpoint branch => exact ⟨le_rfl, fun _ _ c hc => ⟨c, hc, rfl⟩⟩
  | unmount mountpoint => exact ⟨le_rfl, fun _ _ c hc => ⟨c, hc, rfl⟩⟩

theorem watched_acts (m : Manager) (acts : List Act) : Watched m (run act m acts) :=
  run_inv (C := fun _ _ => True) (I := Watched m) (fun _ a hm _ => Watched.trans _ _ _ hm (watched_act _ a))
    acts m (Watched.refl m) (along_iff.mpr fun _ _ _ _ => trivial)

end

/-! ## Handlers -/

/-- The manager moves on, and a mount that was not ahead of it is not. -/
structure Forward (s t : Mount) : Prop where
  watched : Watched s.manager t.manager
  epoch : s.currentEpoch ≤ s.manager.epoch → t.currentEpoch ≤ t.manager.epoch

theorem keptByHandlers_forward : KeptByHandlers Watched Forward where
  refl _ := ⟨Watched.refl _, id⟩
  trans _ _ _ h h' := ⟨Watched.trans _ _ _ h.watched h'.watched, fun he => h'.epoch (h.epoch he)⟩
  stale _ := ⟨Watched.refl _, fun _ => le_rfl⟩
  number _ _ _ := ⟨Watched.refl _, id⟩
  ctlNumber _ _ _ := ⟨Watched.refl _, id⟩
  calls := keptBySteps_watched.toKeptByCalls
  remove _ _ := ⟨Watched.refl _, id⟩
  steps := keptBySteps_watched
  manager _ _ h := ⟨h, fun he => he.trans h.later⟩
  switch _ _ := ⟨⟨le_rfl, fun _ _ c hc => ⟨c, hc, rfl⟩⟩, id⟩
  table _ _ := ⟨Watched.refl _, id⟩

/-- The manager moves on, and a mount that was guarded is. -/
structure Guards (s t : CachedMount) : Prop where
  watched : Watched s.mount.manager t.mount.manager
  guard : Guard s.mount.manager s → Guard t.mount.manager t

section

variable {s t : CachedMount} {α β : Type}

theorem Guards.trans (s t u : CachedMount) (h : Guards s t) (h' : Guards t u) : Guards s u :=
  ⟨Watched.trans _ _ _ h.watched h'.watched, fun hs => h'.guard (h.guard hs)⟩

end

/-! ## Opening -/

section

variable {m m' : Manager} {s : CachedMount} {branch : String} {rel : RelPath} {h : FileHandle}

/-- A delta file that is opened with no link on the way lies in the delta. -/
theorem root_of_openForWrite (hpriv : m.ClearPrivate branch) (hplain : m.Plainly branch rel)
    (hok : openForWrite branch rel m = .ok h m') : h.root = some (.files branch) := by
  obtain ⟨l, m₁, hcow, hopen⟩ := bind_eq_ok hok
  have hready := hplain.cowReady
  rw [(ensureCowForBranch_spec hplain.way.wayIn hpriv.subset hready hcow).1] at hopen
  have hclear : Clear (plainPlaces m) m₁ := by
    have hframe := (framed_ensureCowForBranch hplain.way.wayIn hpriv.subset m hready).2
    rwa [after_ok hcow] at hframe
  unfold ioOrEio asReq onDisk at hopen
  cases hx : Posix.Sys.openWrite (deltaPath branch rel) true false m₁.disk with
  | error e d =>
    rw [hx] at hopen
    cases hopen
  | ok a d =>
    rw [hx] at hopen
    cases hopen
    exact Posix.Sys.openWrite_root true false rfl (hclear.noLinkAbove hplain.way.wayIn)
      (hclear _ hplain.here) hx

/-- What has been opened can be written. -/
theorem writable_of_openForWrite (hok : openForWrite branch rel m = .ok h m') :
    m.isBranchWritable branch = true := by
  by_contra hno
  obtain ⟨e, he⟩ := openForWrite_denied (Bool.eq_false_iff.mpr hno) rel
  rw [he] at hok
  cases hok

theorem ofOpen_of_openForWrite (hdirect : Act.Direct m (.op (.file branch (.write rel offset data))))
    (hok : openForWrite branch rel m = .ok h m') : OfOpen m' h := by
  have hw := writable_of_openForWrite hok
  obtain ⟨hpriv, hplain⟩ := hdirect hw
  refine ⟨branch, root_of_openForWrite hpriv hplain hok, fun c hc => ?_⟩
  rw [← (keptByCalls_gentle.openForWrite.ok hok : Gentle m m').writable] at hw
  rw [isBranchWritable_eq, hc] at hw
  exact Option.some.inj (eq_of_beq hw)

theorem keptByServing_guards : KeptByServing Act.Direct Watched Forward Guards where
  looks := keptByHandlers_forward.toKeptByLooks
  bodies := keptByHandlers_forward.toKeptByBodies
  refl _ := ⟨Watched.refl _, id⟩
  trans := Guards.trans
  mount _ _ h := by
    refine ⟨h.watched, fun hs => ?_⟩
    have hmoved := hs.watched h.watched
    exact ⟨h.epoch hs.mount, hmoved.cache, hmoved.kept⟩
  reading _ _ := ⟨Watched.refl _, fun hs => ⟨hs.mount, hs.cache, hs.kept⟩⟩
  -- a descriptor that is forgotten guards nothing
  forget s ino := by
    refine ⟨Watched.refl _, fun hs => ⟨hs.mount, ?_, ?_⟩⟩
    · show (s.writeCache.invalidateIno ino).epoch ≤ _
      unfold FileCache.invalidateIno
      split
      · exact hs.cache
      · exact hs.cache
    · show (s.writeCache.invalidateIno ino).epoch = _ → ∀ h, (s.writeCache.invalidateIno ino).file = some h → _
      unfold FileCache.invalidateIno
      split
      · intro _ h hfile
        cases hfile
      · exact hs.kept
  opened s branch rel offset data ino h m hdirect hrun := by
    have hgentle : Gentle s.mount.manager m := keptByCalls_gentle.openForWrite.ok hrun
    refine ⟨hgentle.watched, fun hs => ?_⟩
    have hmount := hs.mount
    rw [← hgentle.epoch] at hmount
    refine ⟨hmount, hmount, fun _ h' hfile => ?_⟩
    cases hfile
    exact ofOpen_of_openForWrite hdirect hrun

/-- **Every request leaves its mount guarded.** -/
theorem guards_request {r : Request} (hdirect : Along act Act.Direct s.mount.manager (r.acts s)) :
    Guards s (after r.run s) := by
  have hg := keptByServing_guards
  have hf := keptByHandlers_forward
  have hmount : ∀ {α : Type} (f : α → Reply) {x : MountReq α}, Keeps Forward x →
      Guards s (after (answered f (onMount x)) s) := by
    intro α f x hx
    rw [after_answered]
    exact hg.onMount hx s
  have hqueued : ∀ {x : MountReq Job}, Keeps Forward x → Guards s (after (queued x) s) := by
    intro x hx
    rw [after_queued]
    exact hg.mount s _ (hx s.mount)
  cases r with
  | lookup parent name => exact hmount _ (hf.lookup parent name)
  | getattr ino => exact hmount _ (hf.getattr ino)
  | readdir order ino offset room => exact hmount _ (hf.readdir order ino offset room)
  | readlink ino => exact hmount _ (hf.readlink ino)
  | openFile ino flags => exact hmount _ (hf.openFile ino flags)
  | read ino offset size =>
    show Guards s (after (answered _ _) s)
    rw [after_answered]
    exact hg.read ino offset size s
  | write ino offset data append command =>
    rw [after_written]
    exact hg.write (fun file _ => hf.writeCtl file command _) hdirect
  | create parent name mode umask => exact hmount _ (hf.create parent name mode umask)
  | mkdir parent name mode umask => exact hmount _ (hf.mkdir parent name mode umask)
  | symlink parent name target => exact hmount _ (hf.symlink parent name target)
  | unlink parent name => exact hqueued (hf.unlink parent name)
  | rmdir parent name => exact hqueued (hf.rmdir parent name)
  | rename parent name newparent newname flags =>
    show Guards s (after (answered _ _) s)
    rw [after_answered]
    exact hg.rename (hf.rename parent name newparent newname flags _)
  | setattr ino size attr =>
    show Guards s (after (answered _ _) s)
    rw [after_answered]
    exact hg.setattr ino size attr s
  | ioctl ino command => exact hmount _ (hf.ioctl ino command)

end

/-! ## Acts through descriptors -/

section

variable {s : CachedMount}

theorem served_finishActs (branch : String) (f : Finish) :
    Along act Act.Served s.mount.manager (s.mount.finishActs branch f) := by
  unfold Mount.finishActs
  refine ⟨trivial, ?_⟩
  split
  · split
    · exact ⟨trivial, trivial⟩
    · trivial
  · trivial

theorem served_ctlActs (file : CtlFile) (command : CtlCommand) :
    Along act Act.Served s.mount.manager (s.mount.ctlActs file command) := by
  have hcreate : ∀ name parent, Along act Act.Served s.mount.manager
      (if name = "" then [] else [.op (.create name parent .lazy [])]) := by
    intro name parent
    split
    · trivial
    · exact ⟨trivial, trivial⟩
  unfold Mount.ctlActs
  split
  · cases file with
    | root =>
      cases command with
      | switch b =>
        show Along act Act.Served s.mount.manager
          (if b = "" ∨ s.mount.manager.isBranchValid b = false then [] else [.switch s.mount.mountpoint b])
        split
        · trivial
        · exact ⟨trivial, trivial⟩
      | create name => exact hcreate name _
      | commit order => exact served_finishActs _ (.commit order)
      | abort => exact served_finishActs _ .abort
      | unknown => trivial
    | branch b =>
      cases command with
      | switch c => trivial
      | create name => exact hcreate name b
      | commit order => exact served_finishActs b (.commit order)
      | abort => exact served_finishActs b .abort
      | unknown => trivial
  · trivial

/-- The guard is what a write through a kept descriptor rests on. -/
theorem served_writeActs (hs : Guard s.mount.manager s) (ino : Nat) (offset : Int) (data : Bytes)
    (append : Bool) (command : CtlCommand) :
    Along act Act.Served s.mount.manager (s.writeActs ino offset data append command) := by
  unfold CachedMount.writeActs
  cases s.mount.ctlFileOf ino with
  | some file => exact served_ctlActs file command
  | none =>
    show Along act Act.Served s.mount.manager (s.writeFileActs ino offset data append)
    unfold CachedMount.writeFileActs
    simp only
    split
    · trivial
    · cases hkept : s.writeCache.get ino s.mount.manager.epoch with
      | some h =>
        simp only
        split
        · refine ⟨?_, trivial⟩
          unfold FileCache.get at hkept
          split at hkept
          · next hmatch => exact hs.kept hmatch.2 h hkept
          · cases hkept
        · trivial
      | none =>
        simp only
        unfold CachedMount.writeSlowActs writeAtActs
        split
        · trivial
        · split
          · split
            · exact ⟨trivial, trivial⟩
            · trivial
          · trivial

theorem served_attrActs (branch : String) (rel : RelPath) (size : Option Nat) (a : SetAttr) :
    Along act Act.Served s.mount.manager (s.mount.attrActs branch rel size a) := by
  have hrest : ∀ m, Along act Act.Served m
      (if a.any then [.op (.file branch (.setattr rel a))] else []) := by
    intro m
    split
    · exact ⟨trivial, trivial⟩
    · trivial
  unfold Mount.attrActs
  cases size with
  | none => exact hrest _
  | some newSize =>
    refine ⟨trivial, ?_⟩
    split
    · exact hrest _
    · trivial

theorem served_request (hs : Guard s.mount.manager s) (r : Request) :
    Along act Act.Served s.mount.manager (r.acts s) := by
  have hmake : ∀ parent op, Along act Act.Served s.mount.manager (s.mount.makeActs parent op) := by
    intro parent op
    unfold Mount.makeActs
    split
    · exact ⟨trivial, trivial⟩
    · trivial
  cases r with
  | write ino offset data append command => exact served_writeActs hs ino offset data append command
  | create parent name mode umask => exact hmake _ _
  | mkdir parent name mode umask => exact hmake _ _
  | symlink parent name target => exact hmake _ _
  | rename parent name newparent newname flags =>
    show Along act Act.Served s.mount.manager (s.mount.renameActs parent name newparent newname flags)
    unfold Mount.renameActs
    split
    · trivial
    · split
      · exact ⟨trivial, trivial⟩
      · trivial
  | setattr ino size attr =>
    show Along act Act.Served s.mount.manager (s.mount.setattrActs ino size attr)
    unfold Mount.setattrActs
    split
    · trivial
    · split
      · exact served_attrActs _ _ size attr
      · trivial
  | ioctl ino command =>
    show Along act Act.Served s.mount.manager (s.mount.ioctlActs ino command)
    unfold Mount.ioctlActs
    split
    · trivial
    · cases command <;> first | exact ⟨trivial, trivial⟩ | trivial
  | _ => trivial

end

/-! ## Runs -/

section

variable {p : Process}

theorem Process.Guarded.at (hp : p.Guarded) {i : Nat} {s : CachedMount} (hs : p.mountAt i = some s) :
    Guard p.manager s := by
  obtain ⟨u, hu, rfl⟩ := Option.map_eq_some_iff.mp hs
  have hguard := hp u (List.mem_of_getElem? hu)
  exact ⟨hguard.mount, hguard.cache, hguard.kept⟩

/-- The other mounts are guarded whatever the manager does. -/
theorem Process.Guarded.put (hp : p.Guarded) {i : Nat} {s : CachedMount}
    (hw : Watched p.manager s.mount.manager) (hs : Guard s.mount.manager s) : (p.put i s).Guarded := by
  intro t ht
  rcases List.mem_or_eq_of_mem_set ht with hold | rfl
  · exact (hp t hold).watched hw
  · exact hs

/-- **An event keeps the mounts guarded.** -/
theorem guarded_step (hp : p.Guarded) {e : Event} (hdirect : Along act Act.Direct p.manager (p.acts e)) :
    (p.step e).Guarded := by
  have hacts := watched_acts p.manager (p.acts e)
  rw [← drives_process.step] at hacts
  cases e with
  | mount branch mountpoint exposeControl =>
    show (p.addMount branch mountpoint exposeControl).Guarded
    unfold Process.addMount
    split
    · intro t ht
      rcases List.mem_append.mp ht with hold | hnew
      · exact (hp t hold).watched ⟨le_rfl, fun _ _ c hc => ⟨c, hc, rfl⟩⟩
      · rw [List.mem_singleton.mp hnew]
        exact ⟨le_rfl, Nat.zero_le _, fun _ h hfile => by cases hfile⟩
    · exact hp
  | unmount mountpoint => exact fun t ht => (hp t ht).watched hacts
  | manager op => exact fun t ht => (hp t ht).watched hacts
  | request i r =>
    show (p.take i r).Guarded
    unfold Process.acts at hdirect
    unfold Process.take
    cases hs : p.mountAt i with
    | none => exact hp
    | some s =>
      simp only [hs] at hdirect
      rw [← mountAt_manager hs] at hdirect
      have hmoved := guards_request hdirect
      have hw := hmoved.watched
      have hguard : Guard s.mount.manager s := by
        rw [mountAt_manager hs]
        exact hp.at hs
      rw [mountAt_manager hs] at hw
      have hput := hp.put (i := i) hw (hmoved.guard hguard)
      cases hrun : r.run s with
      | error e t =>
        rw [after_error hrun] at hput
        simp only [hrun]
        exact hput
      | ok a t =>
        rw [after_ok hrun] at hput
        cases a <;> simp only [hrun] <;> exact hput
  | work =>
    show p.work.Guarded
    unfold Process.work
    cases hqueue : p.queue with
    | nil => exact hp
    | cons entry rest =>
      obtain ⟨i, job⟩ := entry
      cases hs : p.mountAt i with
      | none =>
        simp only [hs]
        exact hp
      | some s =>
        have hmoved := keptByHandlers_forward.job job s.mount
        have hguard : Guard s.mount.manager s := by
          rw [mountAt_manager hs]
          exact hp.at hs
        have hw := hmoved.watched
        rw [mountAt_manager hs] at hw
        simp only [hs]
        have hnext := hguard.watched hmoved.watched
        exact hp.put hw ⟨hmoved.epoch hguard.mount, hnext.cache, hnext.kept⟩

/-- What an event writes through a kept descriptor goes to an open branch, or to one that is gone. -/
theorem served_acts (hp : p.Guarded) (e : Event) : Along act Act.Served p.manager (p.acts e) := by
  cases e with
  | mount branch mountpoint exposeControl =>
    show Along act Act.Served p.manager
      (if p.manager.isBranchValid branch then [.switch mountpoint branch] else [])
    split
    · exact ⟨trivial, trivial⟩
    · trivial
  | unmount mountpoint => exact ⟨trivial, trivial⟩
  | manager op => exact ⟨trivial, trivial⟩
  | request i r =>
    unfold Process.acts
    cases hs : p.mountAt i with
    | none =>
      simp only [hs]
      trivial
    | some s =>
      have hguard := hp.at hs
      simp only [hs]
      rw [← mountAt_manager hs] at hguard ⊢
      exact served_request hguard r
  | work =>
    unfold Process.acts
    cases hqueue : p.queue with
    | nil =>
      simp only
      trivial
    | cons entry rest =>
      obtain ⟨i, job⟩ := entry
      simp only
      split
      · cases job <;> exact ⟨trivial, trivial⟩
      · trivial

/-- **A kept descriptor never writes to a branch that is frozen or has been committed**: in every run whose
opening writes meet no link, each write through one goes to a branch that is open, or to one that has been
aborted. -/
theorem served_run (hp : p.Guarded) (events : List Event)
    (h : Along act Act.Direct p.manager (p.trace events)) :
    (run Process.step p events).Guarded ∧ Along act Act.Served p.manager (p.trace events) :=
  drives_process.safe (fun _ e hq hdirect => ⟨guarded_step hq hdirect, served_acts hq e⟩) events p hp h

theorem guarded_init (m : Manager) : (Process.init m).Guarded := fun _ hs => absurd hs List.not_mem_nil

theorem FileOp.contained_of_linkless {m : Manager} (h : Linkless m.disk) (op : FileOp) (name : String) :
    op.Contained m name := by
  have hin : Op.ContainedIn name m (.file name op) := Op.containedIn_of_linkless rfl h
  exact hin.2

theorem Act.direct_of_linkless {m : Manager} (h : Linkless m.disk) (a : Act) : a.Direct m := by
  unfold Act.Direct
  split
  · next b p offset data =>
    exact fun _ => FileOp.contained_of_linkless h (.write p offset data) b
  · trivial

end

/-! ## A descriptor that is kept -/

/-- Two branches, one mounted, in which a file is made and written twice: the second time through the
descriptor of the first. -/
def writtenTwice : List Event :=
  [.manager (.create "b" "main" .lazy []), .manager (.create "a" "main" .lazy []),
    .mount "b" "/b" false, .mount "a" "/a" false, .request 0 (.create 1 "f" 0o644 0),
    .request 0 (.write 2 0 [120] false .unknown), .request 0 (.write 2 1 [121] false .unknown)]

theorem writtenTwice_run : Along act (fun m _ => Linkless m.disk) (Manager.init .bare)
    ((Process.init (Manager.init .bare)).trace writtenTwice) := by
  decide +kernel

/-- The second write is served as it should be. -/
theorem served_run_sample :
    (run Process.step (Process.init (Manager.init .bare)) writtenTwice).Guarded ∧
      Along act Act.Served (Manager.init .bare)
        ((Process.init (Manager.init .bare)).trace writtenTwice) :=
  served_run (guarded_init _) writtenTwice (writtenTwice_run.mono fun _ a h => Act.direct_of_linkless h a)

end BranchFs
