/-
# BranchFs.Serve.Agent -- a mount without control files stays on its branch

What keeps an agent to the branch it was given is no check of a handler. A mount without control files
hands out no number for `/@b`, so a path from its table names its own branch (`Tame`), and the mountpoint
shows another one only by a control command. The one way out is a name of the branch that begins with `@`:
the table takes it for a branch directory. While the root of the branch shows no such name and the agent
makes none there (`PlainRoot`, `Request.Modest`), every act of the mount and of the jobs it leaves is on
its branch (`agent_run`), whatever other mounts, the worker and the daemon do meanwhile.
-/
import BranchFs.Serve.Descriptors

namespace BranchFs

open BranchFs.Posix BranchFs.Logic

/-! ## Paths of the mount's own branch -/

/-- The root of the branch shows no name that begins with `@`. -/
def Manager.PlainRoot (m : Manager) (b : String) : Prop :=
  ∀ name ∈ m.collected b [], (stripAt name).isSome = false

instance (m : Manager) (b : String) : Decidable (m.PlainRoot b) :=
  inferInstanceAs (Decidable (∀ name ∈ m.collected b [], (stripAt name).isSome = false))

section

variable {path : RelPath} {name : String}

theorem ofRoot_cons (n : String) (rest : RelPath) : ofRoot (n :: rest) = (stripAt n).isNone := by
  unfold ofRoot classifyPath
  cases hat : stripAt n with
  | none =>
    simp only [hat]
    rfl
  | some b =>
    simp only [hat]
    by_cases h : rest = []
    · simp only [h, if_true]
      rfl
    · by_cases hctl : rest = [ctlFile]
      · simp only [hctl, if_true]
        rfl
      · simp only [h, hctl, if_false]
        rfl

theorem classifyPath_ofRoot (h : ofRoot path = true) : classifyPath path = .rootPath path := by
  unfold ofRoot at h
  cases hc : classifyPath path with
  | rootPath rel => rw [classifyPath_rootPath hc]
  | branchDir b => simp only [hc, Bool.false_eq_true] at h
  | branchCtl b => simp only [hc, Bool.false_eq_true] at h
  | branchPath b rel => simp only [hc, Bool.false_eq_true] at h

/-- Below the root any name will do. -/
theorem ofRoot_append (h : ofRoot path = true) (hname : path = [] → (stripAt name).isSome = false) :
    ofRoot (path ++ [name]) = true := by
  cases path with
  | nil =>
    show ofRoot [name] = true
    rw [ofRoot_cons, ← Option.not_isSome, hname rfl]
    rfl
  | cons n rest =>
    show ofRoot (n :: (rest ++ [name])) = true
    rw [ofRoot_cons] at h ⊢
    exact h

end

/-! ## A tame mount -/

/-- The mount at `mp` shows `b`, has no control file, and every path it has a number for is one of its own
branch. -/
structure Tame (mp b : String) (s : Mount) : Prop where
  stands : s.mountpoint = mp
  shows : s.branchName = b
  hidden : s.exposeControl = false
  uncontrolled : s.branchCtlInodes = []
  numbers : ∀ i ∈ s.inodes.infos, ofRoot i.path = true

section

variable {mp b : String} {s : Mount} {path : RelPath} {ino : Nat} {name : String}

theorem Tame.ofRoot_path (h : Tame mp b s) (hpath : s.inodes.getPath ino = some path) : ofRoot path = true := by
  obtain ⟨i, hi, -, rfl⟩ := InodeManager.getPath_eq_some.mp hpath
  exact h.numbers i hi

theorem Tame.classify (h : Tame mp b s) (hpath : s.inodes.getPath ino = some path) :
    classifyPath path = .rootPath path := classifyPath_ofRoot (h.ofRoot_path hpath)

/-- Whatever a number stands for is of the branch. -/
theorem Tame.denotes (h : Tame mp b s) (hpath : s.inodes.getPath ino = some path) :
    s.denotes ino = some (b, path) := by
  rw [denotes_of_getPath hpath]
  unfold Mount.dirAt
  rw [h.classify hpath, ← h.shows]

theorem Tame.denotesFile (h : Tame mp b s) (hpath : s.inodes.getPath ino = some path) :
    s.denotesFile ino = some (b, path) := by
  unfold Mount.denotesFile
  rw [hpath, Option.bind_some, h.classify hpath, ← h.shows]

theorem Tame.ctlFileOf (h : Tame mp b s) {file : CtlFile} (hfile : s.ctlFileOf ino = some file) :
    ino = ctlIno := by
  by_contra hne
  unfold Mount.ctlFileOf Mount.branchForCtlIno at hfile
  rw [if_neg hne, h.uncontrolled] at hfile
  cases hfile

/-- A path of the branch may have a number. -/
theorem Tame.number (h : Tame mp b s) (hroot : ofRoot path = true) (isDir : Bool) :
    Tame mp b { s with inodes := (s.inodes.getOrCreate path isDir).2 } := by
  refine ⟨h.stands, h.shows, h.hidden, h.uncontrolled, ?_⟩
  show ∀ i ∈ (s.inodes.getOrCreate path isDir).2.infos, ofRoot i.path = true
  unfold InodeManager.getOrCreate
  split
  · exact h.numbers
  · intro i hi
    rcases List.mem_cons.mp hi with rfl | hold
    · exact hroot
    · exact h.numbers i hold

theorem Tame.remove (h : Tame mp b s) (path : RelPath) : Tame mp b { s with inodes := s.inodes.remove path } :=
  ⟨h.stands, h.shows, h.hidden, h.uncontrolled, fun i hi => h.numbers i (List.mem_of_mem_filter hi)⟩

/-- Of the manager only what the mountpoint shows matters. -/
theorem Tame.manager (h : Tame mp b s) {m : Manager}
    (hm : m.mountBranches.lookup mp = s.manager.mountBranches.lookup mp) :
    Tame mp b { s with manager := m } := by
  refine ⟨h.stands, ?_, h.hidden, h.uncontrolled, h.numbers⟩
  show (m.mountBranches.lookup s.mountpoint).getD "main" = b
  rw [h.stands, hm, ← h.stands]
  exact h.shows

theorem keptByBodies_tame (mp b : String) : KeptByBodies Gentle fun s t => Tame mp b s → Tame mp b t where
  refl _ := id
  trans _ _ _ h h' := fun hs => h' (h hs)
  stale _ := fun hs => ⟨hs.stands, hs.shows, hs.hidden, hs.uncontrolled, hs.numbers⟩
  calls := keptByCalls_gentle
  manager _ _ h := fun hs => hs.manager (by rw [h.mounts])
  remove _ path := fun hs => hs.remove path

/-! ### Looking up -/

/-- A path that resolves may have a number. -/
theorem ofRoot_of_resolves {l : Place} (hplain : s.manager.PlainRoot b) (hroot : ofRoot path = true)
    (hl : s.resolveForBranch b (path ++ [name]) = some l) : ofRoot (path ++ [name]) = true := by
  refine ofRoot_append hroot fun hnil => hplain name ?_
  subst hnil
  rw [Manager.mem_collected]
  unfold Mount.resolveForBranch Manager.resolvePath at hl
  cases hb : s.manager.forest.get? b with
  | none =>
    rw [hb] at hl
    cases hl
  | some c =>
    rw [hb] at hl
    have hres : s.manager.resolved b ([] ++ [name]) = some l := hl
    rw [hres]
    rfl

theorem tame_replyEntry (h : Tame mp b s) (hplain : s.manager.PlainRoot b) (hroot : ofRoot path = true) :
    Tame mp b (after (replyEntry b (path ++ [name]) (path ++ [name])) s) := by
  have hk := keptByBodies_tame mp b
  unfold replyEntry
  rw [after_bind_ok (rfl : (get : MountReq Mount) s = .ok s s)]
  cases hl : s.resolveForBranch b (path ++ [name]) with
  | none => exact h
  | some l =>
    have hof := ofRoot_of_resolves hplain hroot hl
    have hnumber : ∀ isDir, Keeps (fun s t => Tame mp b s → Tame mp b t) (inodeFor (path ++ [name]) isDir) :=
      fun isDir t ht => ht.number hof isDir
    refine hk.seq (hnumber _) (fun ino => ?_) s h
    split
    · exact hk.pure _
    · exact hk.throw _

theorem tame_lookupInRoot (h : Tame mp b s) (hplain : s.manager.PlainRoot b) (hroot : ofRoot path = true) :
    Tame mp b (after (lookupInRoot path name) s) := by
  have hlook := (keptByBodies_tame mp b).failWhenStale s h
  unfold lookupInRoot
  cases hlive : s.live with
  | false =>
    rw [after_error (failWhenStale_dead hlive)] at hlook
    rw [after_bind_error (failWhenStale_dead hlive)]
    exact hlook
  | true =>
    rw [after_ok (failWhenStale_eq hlive)] at hlook
    rw [after_bind_ok (failWhenStale_eq hlive)]
    rw [after_bind_ok (rfl : (get : MountReq Mount) _ = .ok _ _), hlook.shows]
    exact tame_replyEntry hlook hplain hroot

theorem tame_lookup (h : Tame mp b s) (hplain : s.manager.PlainRoot b) (parent : Nat) (name : String) :
    Tame mp b (after (lookup parent name) s) := by
  unfold lookup
  cases hpath : s.inodes.getPath parent with
  | none =>
    rw [after_bind_error (inodePath_error hpath)]
    exact h
  | some path =>
    have hroot := h.ofRoot_path hpath
    rw [after_bind_ok (inodePath_ok hpath)]
    by_cases hnil : path = []
    · rw [if_pos hnil]
      unfold lookupAtRoot
      rw [after_bind_ok (rfl : (get : MountReq Mount) s = .ok s s)]
      simp only [h.hidden, Bool.false_eq_true, false_and, if_false]
      subst hnil
      exact tame_lookupInRoot h hplain hroot
    · rw [if_neg hnil]
      simp only [h.classify hpath]
      exact tame_lookupInRoot h hplain hroot

/-! ### Listing -/

/-- The names that are listed are numbered one by one, those only that resolve. -/
theorem tame_listNames (h : Tame mp b s) (hplain : s.manager.PlainRoot b) (hroot : ofRoot path = true)
    (names : List String) : Tame mp b (after (listNames b path path names) s) := by
  induction names generalizing s with
  | nil => exact h
  | cons name rest ih =>
    unfold listNames
    rw [after_bind_ok (rfl : (get : MountReq Mount) s = .ok s s)]
    cases hl : s.resolveForBranch b (path ++ [name]) with
    | none =>
      simp only
      exact ih h hplain
    | some l =>
      have hof := ofRoot_of_resolves hplain hroot hl
      simp only
      rw [after_bind_ok (rfl : inodeFor (path ++ [name]) _ s = .ok _ _), after_bind_pure]
      exact ih (h.number hof _) hplain

theorem tame_collectReaddirEntries (h : Tame mp b s) (hplain : s.manager.PlainRoot b)
    (hroot : ofRoot path = true) (ino : Nat) : Tame mp b (after (collectReaddirEntries b path ino path) s) := by
  unfold collectReaddirEntries
  rw [after_bind_ok (rfl : (get : MountReq Mount) s = .ok s s)]
  cases s.manager.collectDirNames b path with
  | error e => exact h
  | ok names =>
    simp only
    rw [after_bind_pure]
    exact tame_listNames h hplain hroot _

/-- A directory of the mount's own branch, and what is done with the names in it. -/
theorem tame_listWith {α : Type} {f : Mount → List DirEntry → MountReq α} (h : Tame mp b s)
    (hplain : s.manager.PlainRoot b) (hroot : ofRoot path = true) (ino : Nat)
    (hf : ∀ u, Tame mp b u → ∀ entries, Keeps (fun s t => Tame mp b s → Tame mp b t) (f u entries)) :
    Tame mp b (after (do
      failWhenStale
      let u ← get
      let entries ← collectReaddirEntries u.branchName path ino path
      f u entries) s) := by
  have hlook := (keptByBodies_tame mp b).failWhenStale s h
  cases hlive : s.live with
  | false =>
    rw [after_error (failWhenStale_dead hlive)] at hlook
    rw [after_bind_error (failWhenStale_dead hlive)]
    exact hlook
  | true =>
    rw [after_ok (failWhenStale_eq hlive)] at hlook
    rw [after_bind_ok (failWhenStale_eq hlive)]
    rw [after_bind_ok (rfl : (get : MountReq Mount) _ = .ok _ _), hlook.shows]
    have hlisted := tame_collectReaddirEntries hlook hplain hroot ino
    cases hrun : collectReaddirEntries b path ino path { s with currentEpoch := s.manager.epoch } with
    | error e t =>
      rw [after_error hrun] at hlisted
      rw [after_bind_error hrun]
      exact hlisted
    | ok entries t =>
      rw [after_ok hrun] at hlisted
      rw [after_bind_ok hrun]
      exact hf _ hlook entries t hlisted

theorem tame_readdir (h : Tame mp b s) (hplain : s.manager.PlainRoot b) (order : MapOrder)
    (ino offset room : Nat) : Tame mp b (after (readdir order ino offset room) s) := by
  have hk := keptByBodies_tame mp b
  have hat : ∀ path, ofRoot path = true → Tame mp b (after (listAt order path ino) s) := by
    intro path hroot
    unfold listAt
    rw [classifyPath_ofRoot hroot]
    cases path with
    | nil =>
      refine tame_listWith h hplain hroot ino fun u hu entries => ?_
      simp only [hu.hidden, Bool.false_eq_true, if_false]
      exact hk.seq (hk.pure _) fun _ => hk.seq hk.failWhenStale fun _ => hk.pure _
    | cons n rest =>
      exact tame_listWith h hplain hroot ino fun _ _ entries =>
        hk.seq hk.failWhenStale fun _ => hk.pure _
  unfold readdir
  rw [after_bind_pure]
  cases hpath : s.inodes.getPath ino with
  | some path =>
    unfold after
    rw [listDir_eq hpath]
    exact hat path (h.ofRoot_path hpath)
  | none =>
    unfold listDir
    rw [after_bind_ok (rfl : (get : MountReq Mount) s = .ok s s)]
    by_cases hino : ino = rootIno
    · rw [if_pos ⟨hpath, hino⟩]
      exact hat [] rfl
    · rw [if_neg fun hroot => hino hroot.2, after_bind_error (inodePath_error hpath)]
      exact h

/-! ### Making and moving names -/

/-- The name may be made in the directory. -/
def Mount.PlainName (s : Mount) (parent : Nat) (name : String) : Prop :=
  s.inodes.getPath parent = some [] → (stripAt name).isSome = false

instance (s : Mount) (parent : Nat) (name : String) : Decidable (s.PlainName parent name) :=
  inferInstanceAs (Decidable (s.inodes.getPath parent = some [] → (stripAt name).isSome = false))

theorem Tame.ofRoot_name (h : Tame mp b s) {parent : Nat} (hname : s.PlainName parent name)
    (hpath : s.inodes.getPath parent = some path) : ofRoot (path ++ [name]) = true := by
  refine ofRoot_append (h.ofRoot_path hpath) fun hnil => hname ?_
  rw [hpath, hnil]

theorem tame_makeEntry (h : Tame mp b s) {m : Maker} {parent : Nat} (hname : s.PlainName parent name)
    (hbody : ∀ b p, Keeps Gentle (m.body b p)) (hundo : ∀ l, FileCall (m.undo l)) :
    Tame mp b (after (makeEntry m parent name) s) :=
  (keptByBodies_tame mp b).makeEntry hbody hundo
    (fun _ hpath _ ht => ht.number (h.ofRoot_name hname hpath) _) h

/-- The paths of a rename are of the branch. -/
theorem Tame.renamePaths (h : Tame mp b s) {parent newparent : Nat} {newname : String} {paths : RenamePaths}
    (hpaths : renamePaths parent name newparent newname s = .ok paths s) :
    paths.branch = b ∧ ∃ dir, s.inodes.getPath newparent = some dir ∧ paths.dstInode = dir ++ [newname] := by
  have hneed : ∀ {ino path}, s.inodes.getPath ino = some path →
      needParent path s = .ok ⟨none, path, []⟩ s := by
    intro ino path hpath
    unfold needParent resolveParent
    rw [h.classify hpath]
  unfold BranchFs.renamePaths at hpaths
  cases hsrc : s.inodes.getPath parent with
  | none =>
    rw [bind_error (inodePath_error hsrc)] at hpaths
    cases hpaths
  | some src =>
    cases hdst : s.inodes.getPath newparent with
    | none =>
      rw [bind_ok (inodePath_ok hsrc), bind_error (inodePath_error hdst)] at hpaths
      cases hpaths
    | some dir =>
      rw [bind_ok (inodePath_ok hsrc), bind_ok (inodePath_ok hdst)] at hpaths
      rw [bind_ok (hneed hsrc), bind_ok (hneed hdst)] at hpaths
      rw [bind_ok (failIf_ok (by simp) _ s)] at hpaths
      have hbranch : renameBranch none s = .ok s.branchName s := rfl
      rw [bind_ok hbranch] at hpaths
      obtain ⟨_, t, hdeny, hlast⟩ := bind_eq_ok hpaths
      cases hlast
      exact ⟨h.shows, dir, rfl, rfl⟩

theorem tame_rename (h : Tame mp b s) {parent newparent : Nat} {newname : String} (flags : RenameFlags)
    (hname : s.PlainName newparent newname) :
    Tame mp b (after (rename parent name newparent newname flags) s) := by
  refine (keptByBodies_tame mp b).rename flags (fun paths hpaths isDir t ht => ?_) h
  obtain ⟨-, dir, hdir, hdst⟩ := h.renamePaths hpaths
  have hroot := h.ofRoot_name hname hdir
  rw [hdst]
  exact ((ht.remove paths.srcInode).remove (dir ++ [newname])).number hroot isDir

theorem tame_writeCtl (h : Tame mp b s) (file : CtlFile) (command : CtlCommand) :
    Tame mp b (after (writeCtl file command) s) := by
  have hdenied : writeCtl file command s = .error .EPERM s := by
    unfold writeCtl
    rw [bind_ok (rfl : (get : MountReq Mount) s = .ok s s), if_neg (by simp [h.hidden])]
    rfl
  rw [after_error hdenied]
  exact h

theorem tame_ioctl (h : Tame mp b s) (hino : ino ≠ ctlIno) (command : IoctlCommand) :
    Tame mp b (after (ioctl ino command) s) := by
  have hnone : s.ctlFileOf ino = none := by
    by_contra hsome
    obtain ⟨file, hfile⟩ := Option.ne_none_iff_exists'.mp hsome
    exact hino (h.ctlFileOf hfile)
  have hdenied : ioctl ino command s = .error .ENOTTY s := by
    unfold ioctl
    rw [bind_ok (rfl : (get : MountReq Mount) s = .ok s s), hnone]
    rfl
  rw [after_error hdenied]
  exact h

end

/-! ## Its descriptor and its jobs -/

/-- The mount is tame, and keeps a descriptor for writing of its branch at most. -/
structure Agent (mp b : String) (s : CachedMount) : Prop where
  tame : Tame mp b s.mount
  kept : ∀ h, s.writeCache.file = some h → h.root = some (.files b)

/-- The act is on the branch: an operation of it, or a write through a descriptor of its delta. -/
def Act.On (b : String) : Act → Prop
  | .op (.file branch _) => branch = b
  | .through h _ _ => h.root = some (.files b)
  | _ => False

def Job.branch : Job → String
  | write branch _ _ _ => branch
  | delete branch _ _ _ _ => branch
  | rmdir branch _ _ _ _ => branch

/-- The request makes no name that begins with `@` in the root, and is no command to the control file. -/
def Request.Modest (s : Mount) : Request → Prop
  | create parent name _ _ => s.PlainName parent name
  | mkdir parent name _ _ => s.PlainName parent name
  | symlink parent name _ => s.PlainName parent name
  | rename _ _ newparent newname _ => s.PlainName newparent newname
  | ioctl ino _ => ino ≠ ctlIno
  | _ => True

instance (s : Mount) (r : Request) : Decidable (r.Modest s) := by
  cases r <;> unfold Request.Modest <;> infer_instance

section

variable {mp b : String} {s t : CachedMount} {r : Request} {job : Job} {ino : Nat}

theorem keptByServing_agent (mp b : String) : KeptByServing (fun m a => a.Direct m ∧ a.On b) Gentle
    (fun s t => Tame mp b s → Tame mp b t) (fun s t => Agent mp b s → Agent mp b t) where
  looks := (keptByBodies_tame mp b).toKeptByLooks
  bodies := keptByBodies_tame mp b
  refl _ := id
  trans _ _ _ h h' := fun hs => h' (h hs)
  mount _ _ h := fun hs => ⟨h hs.tame, hs.kept⟩
  reading _ _ := fun hs => ⟨hs.tame, hs.kept⟩
  forget s ino := by
    refine fun hs => ⟨hs.tame, ?_⟩
    show ∀ h, (s.writeCache.invalidateIno ino).file = some h → h.root = some (.files b)
    unfold FileCache.invalidateIno
    split
    · intro h hfile
      cases hfile
    · exact hs.kept
  opened s branch rel offset data ino h m hact hrun := by
    have hgentle : Gentle s.mount.manager m := keptByCalls_gentle.openForWrite.ok hrun
    obtain ⟨hpriv, hplain⟩ := hact.1 (writable_of_openForWrite hrun)
    obtain rfl : branch = b := hact.2
    refine fun hs => ⟨hs.tame.manager (by rw [hgentle.mounts]), fun h' hfile => ?_⟩
    cases hfile
    exact root_of_openForWrite hpriv hplain hrun

/-! ### Acts -/

theorem on_writeActs (h : Agent mp b s) (offset : Int) (data : Bytes) (append : Bool) (command : CtlCommand) :
    ∀ a ∈ s.writeActs ino offset data append command, a.On b := by
  unfold CachedMount.writeActs
  cases hfile : s.mount.ctlFileOf ino with
  | some file =>
    intro a ha
    simp only [Mount.ctlActs, h.tame.hidden, Bool.false_eq_true, if_false, List.not_mem_nil] at ha
  | none =>
    show ∀ a ∈ s.writeFileActs ino offset data append, a.On b
    unfold CachedMount.writeFileActs
    simp only
    split
    · exact fun a ha => absurd ha List.not_mem_nil
    cases hkept : s.writeCache.get ino s.mount.manager.epoch with
    | some file =>
      simp only
      split
      · intro a ha
        rw [List.mem_singleton.mp ha]
        unfold FileCache.get at hkept
        split at hkept
        · exact h.kept file hkept
        · cases hkept
      · exact fun a ha => absurd ha List.not_mem_nil
    | none =>
      simp only
      unfold CachedMount.writeSlowActs
      cases hpath : s.mount.inodes.getPath ino with
      | none =>
        have hnone : s.mount.denotesFile ino = none := by
          unfold Mount.denotesFile
          rw [hpath]
          rfl
        rw [hnone]
        exact fun a ha => absurd ha List.not_mem_nil
      | some path =>
        rw [h.tame.denotesFile hpath]
        simp only
        unfold writeAtActs
        split
        · split
          · intro a ha
            rw [List.mem_singleton.mp ha]
            rfl
          · exact fun a ha => absurd ha List.not_mem_nil
        · exact fun a ha => absurd ha List.not_mem_nil

theorem on_makeActs {m : Mount} (h : Tame mp b m) (parent : Nat) (op : RelPath → FileOp) :
    ∀ a ∈ m.makeActs parent op, a.On b := by
  unfold Mount.makeActs
  cases hpath : m.inodes.getPath parent with
  | none =>
    have hnone : m.denotes parent = none := by
      unfold Mount.denotes
      rw [hpath]
      rfl
    rw [hnone]
    exact fun a ha => absurd ha List.not_mem_nil
  | some path =>
    rw [h.denotes hpath]
    intro a ha
    rw [List.mem_singleton.mp ha]
    rfl

theorem on_renameActs {m : Mount} (h : Tame mp b m) (parent : Nat) (name : String) (newparent : Nat)
    (newname : String) (flags : RenameFlags) :
    ∀ a ∈ m.renameActs parent name newparent newname flags, a.On b := by
  unfold Mount.renameActs
  split
  · exact fun a ha => absurd ha List.not_mem_nil
  cases hpaths : renamePaths parent name newparent newname m with
  | error e t => exact fun a ha => absurd ha List.not_mem_nil
  | ok paths t =>
    obtain rfl : m = t := (reads_renamePaths parent name newparent newname).ok hpaths
    intro a ha
    rw [List.mem_singleton.mp ha]
    exact (h.renamePaths hpaths).1

theorem on_setattrActs {m : Mount} (h : Tame mp b m) (ino : Nat) (size : Option Nat) (attr : SetAttr) :
    ∀ a ∈ m.setattrActs ino size attr, a.On b := by
  have hrest : ∀ rel, ∀ a ∈ (if attr.any then [Act.op (.file b (.setattr rel attr))] else []), a.On b := by
    intro rel a ha
    split at ha
    · rw [List.mem_singleton.mp ha]
      rfl
    · exact absurd ha List.not_mem_nil
  unfold Mount.setattrActs
  split
  · exact fun a ha => absurd ha List.not_mem_nil
  cases hpath : m.inodes.getPath ino with
  | none =>
    have hnone : m.denotesFile ino = none := by
      unfold Mount.denotesFile
      rw [hpath]
      rfl
    rw [hnone]
    exact fun a ha => absurd ha List.not_mem_nil
  | some path =>
    rw [h.denotesFile hpath]
    simp only
    unfold Mount.attrActs
    cases size with
    | none => exact hrest path
    | some newSize =>
      intro a ha
      rcases List.mem_cons.mp ha with rfl | ha
      · rfl
      · split at ha
        · exact hrest path a ha
        · exact absurd ha List.not_mem_nil

/-- **What a tame mount is asked comes down to acts on its branch.** -/
theorem on_acts (h : Agent mp b s) (hmodest : r.Modest s.mount) : ∀ a ∈ r.acts s, a.On b := by
  cases r with
  | write ino offset data append command => exact on_writeActs h offset data append command
  | create parent name mode umask => exact on_makeActs h.tame _ _
  | mkdir parent name mode umask => exact on_makeActs h.tame _ _
  | symlink parent name target => exact on_makeActs h.tame _ _
  | rename parent name newparent newname flags => exact on_renameActs h.tame _ _ _ _ _
  | setattr ino size attr => exact on_setattrActs h.tame _ _ _
  | ioctl ino command =>
    have hnone : s.mount.ctlFileOf ino = none := by
      by_contra hsome
      obtain ⟨file, hfile⟩ := Option.ne_none_iff_exists'.mp hsome
      exact hmodest (h.tame.ctlFileOf hfile)
    show ∀ a ∈ s.mount.ioctlActs ino command, a.On b
    unfold Mount.ioctlActs
    rw [hnone]
    exact fun a ha => absurd ha List.not_mem_nil
  | _ => exact fun a ha => absurd ha List.not_mem_nil

/-! ### Requests -/

theorem agent_request (h : Agent mp b s) (hplain : s.mount.manager.PlainRoot b) (hmodest : r.Modest s.mount)
    (hdirect : Along act Act.Direct s.mount.manager (r.acts s)) : Agent mp b (after r.run s) := by
  have hk := keptByServing_agent mp b
  have hl := (keptByBodies_tame mp b).toKeptByLooks
  have hmount : ∀ {α : Type} (f : α → Reply) {x : MountReq α}, Tame mp b (after x s.mount) →
      Agent mp b (after (answered f (onMount x)) s) := by
    intro α f x hx
    rw [after_answered]
    exact hk.onMount_at (fun _ => hx) h
  have hqueued : ∀ {x : MountReq Job}, Tame mp b (after x s.mount) → Agent mp b (after (queued x) s) := by
    intro x hx
    rw [after_queued]
    exact ⟨hx, h.kept⟩
  cases r with
  | lookup parent name => exact hmount _ (tame_lookup h.tame hplain parent name)
  | getattr ino => exact hmount _ (hl.getattr ino _ h.tame)
  | readdir order ino offset room => exact hmount _ (tame_readdir h.tame hplain order ino offset room)
  | readlink ino => exact hmount _ (hl.readlink ino _ h.tame)
  | openFile ino flags => exact hmount _ (hl.openFile ino flags _ h.tame)
  | read ino offset size =>
    show Agent mp b (after (answered _ _) s)
    rw [after_answered]
    exact hk.read ino offset size s h
  | write ino offset data append command =>
    rw [after_written]
    refine hk.write (fun file _ ht => tame_writeCtl ht file command) ?_ h
    exact hdirect.and (along_of_forall (on_writeActs h offset data append command) _)
  | create parent name mode umask =>
    exact hmount _ (tame_makeEntry h.tame hmodest (fun _ _ => keptByCalls_gentle.createFile _)
      fun l => .removeFile l)
  | mkdir parent name mode umask =>
    exact hmount _ (tame_makeEntry h.tame hmodest (fun _ _ => keptByCalls_gentle.makeDir _)
      fun l => .removeDirAll l)
  | symlink parent name target =>
    exact hmount _ (tame_makeEntry h.tame hmodest (fun _ _ => keptByCalls_gentle.makeSymlink _)
      fun l => .removeFile l)
  | unlink parent name => exact hqueued (hl.unlink parent name _ h.tame)
  | rmdir parent name => exact hqueued (hl.rmdir parent name _ h.tame)
  | rename parent name newparent newname flags =>
    show Agent mp b (after (answered _ _) s)
    rw [after_answered]
    exact hk.rename (fun ht => tame_rename ht flags hmodest) h
  | setattr ino size attr =>
    show Agent mp b (after (answered _ _) s)
    rw [after_answered]
    exact hk.setattr ino size attr s h
  | ioctl ino command => exact hmount _ (tame_ioctl h.tame hmodest command)

/-! ### Jobs -/

theorem branch_of_removable {m n : Mount} {path : RelPath} {name : String} {d : String × RelPath}
    (h : Tame mp b m) (hpath : ofRoot path = true) (hrun : removable path name m = .ok d n) : d.1 = b := by
  have hdir : m.dirAt path = some (b, path) := by
    unfold Mount.dirAt
    rw [classifyPath_ofRoot hpath, ← h.shows]
  unfold removable at hrun
  rw [bind_ok (rfl : (get : MountReq Mount) m = .ok m m)] at hrun
  simp only [hdir] at hrun
  obtain ⟨_, u, -, hrest⟩ := bind_eq_ok hrun
  obtain ⟨_, v, -, hlast⟩ := bind_eq_ok hrest
  cases hlast
  rfl

theorem branch_of_unlink {m n : Mount} {parent : Nat} {name : String} (h : Tame mp b m)
    (hrun : unlink parent name m = .ok job n ∨ rmdir parent name m = .ok job n) : job.branch = b := by
  cases hpath : m.inodes.getPath parent with
  | none =>
    unfold unlink rmdir at hrun
    rw [bind_error (inodePath_error hpath), bind_error (inodePath_error hpath)] at hrun
    rcases hrun with hrun | hrun <;> cases hrun
  | some path =>
    unfold unlink rmdir at hrun
    rw [bind_ok (inodePath_ok hpath), bind_ok (inodePath_ok hpath)] at hrun
    rcases hrun with hrun | hrun
    · obtain ⟨d, u, hd, hlast⟩ := bind_eq_ok hrun
      cases hlast
      exact branch_of_removable h (h.ofRoot_path hpath) hd
    · obtain ⟨d, u, hd, hlast⟩ := bind_eq_ok hrun
      cases hlast
      exact branch_of_removable h (h.ofRoot_path hpath) hd

theorem branch_of_writeAt {branch : String} {rel : RelPath} {ofRoot : Bool} {offset : Int} {data : Bytes}
    {append : Bool} (hrun : writeAt branch rel ofRoot ino offset data append s = .ok (.later job) t) :
    job.branch = branch := by
  unfold writeAt at hrun
  rw [bind_ok (rfl : (get : CachedReq CachedMount) s = .ok s s)] at hrun
  obtain ⟨start, u, -, hrest⟩ := bind_eq_ok hrun
  split at hrest
  · obtain ⟨h, v, -, hwrite⟩ := bind_eq_ok hrest
    obtain ⟨n, w, -, hlast⟩ := bind_eq_ok hwrite
    cases hlast
  · cases hrest
    rfl

/-- The job a tame mount leaves is one on its branch. -/
theorem branch_of_writeFile {offset : Int} {data : Bytes} {append : Bool} (h : Agent mp b s)
    (hrun : writeFile ino offset data append s = .ok (.later job) t) : job.branch = b := by
  have hk := keptByServing_agent mp b
  unfold writeFile at hrun
  obtain ⟨_, u, hlook, hchecked⟩ := bind_eq_ok hrun
  obtain ⟨_, v, hoffset, hrest⟩ := bind_eq_ok hchecked
  obtain ⟨-, rfl⟩ := failIf_eq_ok hoffset
  rw [bind_ok (rfl : (get : CachedReq CachedMount) v = .ok v v)] at hrest
  have hv : Agent mp b v := (hk.onMount hk.looks.failWhenStale).ok hlook h
  cases hkept : v.writeCache.get ino v.mount.currentEpoch with
  | some file =>
    simp only [hkept] at hrest
    obtain ⟨n, w, -, hlast⟩ := bind_eq_ok hrest
    cases hlast
  | none =>
    simp only [hkept] at hrest
    unfold writeSlow at hrest
    cases hpath : v.mount.inodes.getPath ino with
    | none =>
      rw [bind_error (onMount_of_error (inodePath_error hpath))] at hrest
      cases hrest
    | some path =>
      rw [bind_ok (onMount_of_ok (inodePath_ok hpath))] at hrest
      simp only [hv.tame.classify hpath] at hrest
      rw [bind_ok (rfl : (get : CachedReq CachedMount) v = .ok v v), hv.tame.shows] at hrest
      exact branch_of_writeAt hrest

theorem branch_of_write {offset : Int} {data : Bytes} {append : Bool} {command : CtlCommand}
    (h : Agent mp b s) (hrun : write ino offset data append command s = .ok (.later job) t) :
    job.branch = b := by
  unfold write at hrun
  obtain ⟨_, u, hforgot, hrest⟩ := bind_eq_ok hrun
  rw [bind_ok (rfl : (get : CachedReq CachedMount) u = .ok u u)] at hrest
  have hu : Agent mp b u := by
    cases hforgot
    exact ⟨h.tame, h.kept⟩
  cases hfile : u.mount.ctlFileOf ino with
  | some file =>
    simp only [hfile] at hrest
    obtain ⟨_, v, -, hlast⟩ := bind_eq_ok hrest
    cases hlast
  | none =>
    simp only [hfile] at hrest
    exact branch_of_writeFile hu hrest

/-- **A job that a tame mount leaves is one on its branch.** -/
theorem branch_of_later (h : Agent mp b s) (hrun : r.run s = .ok (.later job) t) : job.branch = b := by
  have hqueued : ∀ {x : MountReq Job}, queued x s = .ok (.later job) t → ∃ n, x s.mount = .ok job n := by
    intro x hx
    obtain ⟨job', u, hrun, hlast⟩ := bind_eq_ok hx
    cases hlast
    cases hmount : x s.mount with
    | ok a n =>
      rw [onMount_of_ok hmount] at hrun
      cases hrun
      exact ⟨n, rfl⟩
    | error e n =>
      rw [onMount_of_error hmount] at hrun
      cases hrun
  have hanswered : ∀ {α : Type} {f : α → Reply} {x : CachedReq α}, answered f x s ≠ .ok (.later job) t := by
    intro α f x hx
    obtain ⟨a, u, -, hlast⟩ := bind_eq_ok hx
    cases hlast
  cases r with
  | write ino offset data append command =>
    obtain ⟨a, u, hwrite, hlast⟩ := bind_eq_ok hrun
    cases a with
    | now n => cases hlast
    | later left =>
      cases hlast
      exact branch_of_write h hwrite
  | unlink parent name =>
    obtain ⟨n, hn⟩ := hqueued hrun
    exact branch_of_unlink h.tame (Or.inl hn)
  | rmdir parent name =>
    obtain ⟨n, hn⟩ := hqueued hrun
    exact branch_of_unlink h.tame (Or.inr hn)
  | _ => exact absurd hrun hanswered

end

/-! ## Runs -/

/-- The act changes nothing of what the mountpoint shows. -/
def Act.Leaves (mp : String) : Act → Prop
  | .switch mountpoint _ => mountpoint ≠ mp
  | .unmount mountpoint => mountpoint ≠ mp
  | _ => True

instance (mp : String) (a : Act) : Decidable (a.Leaves mp) := by
  cases a <;> unfold Act.Leaves <;> infer_instance

/-- The act meets no link it follows. -/
def Act.Contained (b : String) (m : Manager) : Act → Prop
  | .op (.file _ change) => change.Contained m b
  | _ => True

namespace Process

/-- The event is a request of the mount `i`, or a job it has left. -/
def isOf (p : Process) (i : Nat) : Event → Bool
  | .request j _ => j == i
  | .work => p.queue.head?.any fun left => left.1 == i
  | _ => false

/-- The mount `i` stands at `mp`, is an agent on `b`, and has left jobs on it only. -/
structure Confines (mp b : String) (i : Nat) (p : Process) : Prop where
  agent : ∃ s, p.mountAt i = some s ∧ Agent mp b s
  jobs : ∀ job, (i, job) ∈ p.queue → job.branch = b

/-- What the mount `i` is asked is modest. -/
def Modest (i : Nat) (p : Process) : Event → Prop
  | .request j r => j = i → ∀ s ∈ p.mountAt i, r.Modest s.mount
  | _ => True

instance (i : Nat) (p : Process) (e : Event) : Decidable (p.Modest i e) := by
  cases e <;> unfold Process.Modest <;> infer_instance

/-- What the mount `i` does is modest, and nothing else changes what `mp` shows. -/
structure Allows (mp b : String) (i : Nat) (p : Process) (e : Event) : Prop where
  plain : p.isOf i e = true → p.manager.PlainRoot b
  modest : p.Modest i e
  contained : p.isOf i e = true → Along act (Act.Contained b) p.manager (p.acts e)
  others : p.isOf i e = false → ∀ a ∈ p.acts e, a.Leaves mp

/-- Whatever the mount `i` has a number for is of the branch, and what it does changes nothing but the
record and the trees of the branch. -/
structure Stays (b : String) (i : Nat) (p : Process) (e : Event) : Prop where
  reaches : ∀ s, p.mountAt i = some s → ∀ ino d, s.mount.denotes ino = some d → d.1 = b
  changes : p.isOf i e = true → Isolated b p.manager (p.step e).manager

end Process

section

variable {mp b : String} {i : Nat} {p : Process} {m : Manager} {a : Act}

theorem Act.Contained.direct (h : a.Contained b m) (hon : a.On b) : a.Direct m := by
  cases a with
  | op o =>
    cases o with
    | file name op =>
      obtain rfl : name = b := hon
      cases op with
      | write q offset data => exact fun _ => h
      | _ => trivial
    | _ => trivial
  | _ => trivial

/-- An act on the branch that follows no link is isolated. -/
theorem act_isolated (hon : a.On b) (h : a.Contained b m) : Isolated b m (act m a) := by
  cases a with
  | op o =>
    cases o with
    | file name op =>
      obtain rfl : name = b := hon
      have hcontained : Op.ContainedIn name m (.file name op) := ⟨rfl, h⟩
      exact step_isolated hcontained
    | _ => exact hon.elim
  | through file offset data =>
    have hown : Own b file.root := by
      rw [show file.root = some (.files b) from hon]
      exact own_files b
    exact (framed_writeThrough hown offset data m (clear_plainPlaces m)).1
  | switch mountpoint branch => exact hon.elim
  | unmount mountpoint => exact hon.elim

theorem acts_isolated {acts : List Act} (hon : ∀ a ∈ acts, a.On b)
    (h : Along act (Act.Contained b) m acts) : Isolated b m (run act m acts) :=
  run_inv (I := Isolated b m) (fun _ _ hs ha => hs.trans (act_isolated ha.1 ha.2)) acts m
    (Isolated.refl b m) ((along_of_forall hon m).and h)

theorem acts_direct {acts : List Act} (hon : ∀ a ∈ acts, a.On b)
    (h : Along act (Act.Contained b) m acts) : Along act Act.Direct m acts :=
  ((along_of_forall hon m).and h).mono fun _ _ ha => ha.2.direct ha.1

theorem lookup_filter_ne {mp' : String} (hne : mp' ≠ mp) (l : List (String × String)) :
    (l.filter fun c => c.1 != mp').lookup mp = l.lookup mp := by
  induction l with
  | nil => rfl
  | cons c l ih =>
    obtain ⟨key, branch⟩ := c
    by_cases hkey : key = mp'
    · have hdiff : (mp == key) = false := by
        rw [beq_eq_false_iff_ne, hkey]
        exact hne.symm
      rw [List.filter_cons_of_neg (by simp [hkey]), ih, List.lookup_cons, hdiff]
    · rw [List.filter_cons_of_pos (by simp [hkey]), List.lookup_cons, List.lookup_cons, ih]

/-- What is left alone shows what it showed. -/
theorem act_leaves (h : a.Leaves mp) : (act m a).mountBranches.lookup mp = m.mountBranches.lookup mp := by
  cases a with
  | op o =>
    show (step m o).mountBranches.lookup mp = _
    rw [keptBySteps_mounts.step m o]
  | through file offset data =>
    show (after (writeThrough file offset data) m).mountBranches.lookup mp = _
    rw [(keptByCalls_gentle.writeThrough file offset data m).mounts]
  | switch mountpoint branch =>
    show (List.lookup mp ((mountpoint, branch) :: m.mountBranches.filter fun c => c.1 != mountpoint)) = _
    have hdiff : (mp == mountpoint) = false := by
      rw [beq_eq_false_iff_ne]
      exact fun heq => h heq.symm
    rw [List.lookup_cons, hdiff]
    exact lookup_filter_ne h _
  | unmount mountpoint => exact lookup_filter_ne h _

theorem acts_leave {acts : List Act} (h : ∀ a ∈ acts, a.Leaves mp) :
    (run act m acts).mountBranches.lookup mp = m.mountBranches.lookup mp :=
  run_inv (C := fun _ a => a.Leaves mp)
    (I := fun n => n.mountBranches.lookup mp = m.mountBranches.lookup mp)
    (fun _ _ hn ha => (act_leaves ha).trans hn) acts m rfl (along_of_forall h m)

/-! ### The mount at rest -/

/-- What is not of the mount leaves it, and leaves no job for it. -/
theorem mounts_others {e : Event} {u : CachedMount} (hu : p.mounts[i]? = some u) (hother : p.isOf i e = false) :
    (p.step e).mounts[i]? = some u ∧ ∀ job, (i, job) ∈ (p.step e).queue → (i, job) ∈ p.queue := by
  have hput : ∀ {j : Nat}, j ≠ i → ∀ t, (p.put j t).mounts[i]? = some u :=
    fun hne t => (List.getElem?_set_ne hne).trans hu
  cases e with
  | mount branch mountpoint exposeControl =>
    show (p.addMount branch mountpoint exposeControl).mounts[i]? = some u ∧
      ∀ job, (i, job) ∈ (p.addMount branch mountpoint exposeControl).queue → _
    unfold Process.addMount
    split
    · refine ⟨?_, fun job hjob => hjob⟩
      rw [List.getElem?_append_left (List.getElem?_eq_some_iff.mp hu).1]
      exact hu
    · exact ⟨hu, fun job hjob => hjob⟩
  | unmount mountpoint => exact ⟨hu, fun job hjob => hjob⟩
  | manager op => exact ⟨hu, fun job hjob => hjob⟩
  | request j r =>
    have hne : j ≠ i := beq_eq_false_iff_ne.mp hother
    show (p.take j r).mounts[i]? = some u ∧ ∀ job, (i, job) ∈ (p.take j r).queue → _
    unfold Process.take
    cases hs : p.mountAt j with
    | none => exact ⟨hu, fun job hjob => hjob⟩
    | some s =>
      cases hrun : r.run s with
      | error e t =>
        simp only [hrun]
        exact ⟨hput hne t, fun job hjob => hjob⟩
      | ok answer t =>
        cases answer with
        | now reply =>
          simp only [hrun]
          exact ⟨hput hne t, fun job hjob => hjob⟩
        | later left =>
          simp only [hrun]
          refine ⟨hput hne t, fun job hjob => ?_⟩
          rcases List.mem_append.mp hjob with hold | hnew
          · exact hold
          · rw [List.mem_singleton, Prod.mk.injEq] at hnew
            exact absurd hnew.1.symm hne
  | work =>
    show p.work.mounts[i]? = some u ∧ ∀ job, (i, job) ∈ p.work.queue → _
    unfold Process.work
    cases hqueue : p.queue with
    | nil => exact ⟨hu, fun job hjob => by rw [hqueue] at hjob; exact hjob⟩
    | cons entry rest =>
      obtain ⟨j, job⟩ := entry
      have hne : j ≠ i := by
        unfold Process.isOf at hother
        rw [hqueue] at hother
        exact beq_eq_false_iff_ne.mp hother
      simp only
      cases hs : p.mountAt j with
      | none => exact ⟨hu, fun job' hjob => List.mem_cons_of_mem _ hjob⟩
      | some s => exact ⟨hput hne _, fun job' hjob => List.mem_cons_of_mem _ hjob⟩

theorem mountAt_put {t : CachedMount} (hi : i < p.mounts.length) : (p.put i t).mountAt i = some t := by
  show ((p.mounts.set i t)[i]?).map _ = some t
  rw [List.getElem?_set_self hi]
  rfl

theorem lt_of_mountAt {s : CachedMount} (hs : p.mountAt i = some s) : i < p.mounts.length := by
  obtain ⟨u, hu, -⟩ := Option.map_eq_some_iff.mp hs
  exact (List.getElem?_eq_some_iff.mp hu).1

theorem confines_others {e : Event} (hp : p.Confines mp b i) (hother : p.isOf i e = false)
    (hleaves : ∀ a ∈ p.acts e, a.Leaves mp) : (p.step e).Confines mp b i := by
  obtain ⟨⟨s, hs, hagent⟩, hjobs⟩ := hp
  obtain ⟨u, hu, rfl⟩ := Option.map_eq_some_iff.mp hs
  obtain ⟨hmount, hqueue⟩ := mounts_others hu hother
  have hlookup := acts_leave (m := p.manager) hleaves
  rw [← drives_process.step] at hlookup
  refine ⟨⟨_, Option.map_eq_some_iff.mpr ⟨u, hmount, rfl⟩, ?_, hagent.kept⟩,
    fun job hjob => hjobs job (hqueue job hjob)⟩
  exact hagent.tame.manager hlookup

/-! ### The mount at work -/

theorem acts_request {s : CachedMount} (hs : p.mountAt i = some s) (r : Request) :
    p.acts (.request i r) = r.acts s := by
  simp only [Process.acts, hs]

/-- A request or job of the mount comes down to acts on its branch. -/
theorem on_own {e : Event} (hp : p.Confines mp b i) (hallows : p.Allows mp b i e) (hof : p.isOf i e = true) :
    ∀ a ∈ p.acts e, a.On b := by
  obtain ⟨⟨s, hs, hagent⟩, hjobs⟩ := hp
  cases e with
  | request j r =>
    obtain rfl : j = i := beq_iff_eq.mp hof
    rw [acts_request hs]
    exact on_acts hagent (hallows.modest rfl s hs)
  | work =>
    unfold Process.isOf at hof
    unfold Process.acts
    cases hqueue : p.queue with
    | nil => exact fun a ha => absurd ha List.not_mem_nil
    | cons entry rest =>
      obtain ⟨j, job⟩ := entry
      rw [hqueue] at hof
      obtain rfl : j = i := beq_iff_eq.mp hof
      have hbranch := hjobs job (by rw [hqueue]; exact List.mem_cons_self)
      simp only [hs, Option.isSome_some, if_true]
      intro a ha
      rw [List.mem_singleton.mp ha]
      cases job <;> exact hbranch
  | mount branch mountpoint exposeControl => cases hof
  | unmount mountpoint => cases hof
  | manager op => cases hof

theorem confines_own {e : Event} (hp : p.Confines mp b i) (hallows : p.Allows mp b i e)
    (hof : p.isOf i e = true) : (p.step e).Confines mp b i := by
  have hon := on_own hp hallows hof
  have hdirect := acts_direct hon (hallows.contained hof)
  have hplain := hallows.plain hof
  obtain ⟨⟨s, hs, hagent⟩, hjobs⟩ := hp
  have hi := lt_of_mountAt hs
  cases e with
  | request j r =>
    obtain rfl : j = i := beq_iff_eq.mp hof
    rw [acts_request hs, ← mountAt_manager hs] at hdirect
    rw [← mountAt_manager hs] at hplain
    have hnext := agent_request hagent hplain (hallows.modest rfl s hs) hdirect
    show (p.take j r).Confines mp b j
    unfold Process.take
    rw [hs]
    cases hrun : r.run s with
    | error e t =>
      rw [after_error hrun] at hnext
      simp only [hrun]
      exact ⟨⟨t, mountAt_put hi, hnext⟩, hjobs⟩
    | ok answer t =>
      rw [after_ok hrun] at hnext
      cases answer with
      | now reply =>
        simp only [hrun]
        exact ⟨⟨t, mountAt_put hi, hnext⟩, hjobs⟩
      | later left =>
        simp only [hrun]
        refine ⟨⟨t, mountAt_put hi, hnext⟩, fun job hjob => ?_⟩
        rcases List.mem_append.mp hjob with hold | hnew
        · exact hjobs job hold
        · rw [List.mem_singleton, Prod.mk.injEq] at hnew
          rw [hnew.2]
          exact branch_of_later hagent hrun
  | work =>
    show p.work.Confines mp b i
    unfold Process.isOf at hof
    unfold Process.work
    cases hqueue : p.queue with
    | nil =>
      rw [hqueue] at hof
      cases hof
    | cons entry rest =>
      obtain ⟨j, job⟩ := entry
      rw [hqueue] at hof hjobs
      obtain rfl : j = i := beq_iff_eq.mp hof
      simp only [hs]
      refine ⟨⟨_, mountAt_put hi, ?_, hagent.kept⟩, fun job' hjob => hjobs job' (List.mem_cons_of_mem _ hjob)⟩
      exact (keptByBodies_tame mp b).job job _ hagent.tame
  | mount branch mountpoint exposeControl => cases hof
  | unmount mountpoint => cases hof
  | manager op => cases hof

/-- **One event**: the mount stays an agent on its branch. -/
theorem confines_step {e : Event} (hp : p.Confines mp b i) (hallows : p.Allows mp b i e) :
    (p.step e).Confines mp b i ∧ p.Stays b i e := by
  have hreaches : ∀ s, p.mountAt i = some s → ∀ ino d, s.mount.denotes ino = some d → d.1 = b := by
    intro s hs ino d hd
    obtain ⟨t, ht, hagent⟩ := hp.agent
    obtain rfl : t = s := Option.some.inj (ht.symm.trans hs)
    cases hpath : t.mount.inodes.getPath ino with
    | none =>
      unfold Mount.denotes at hd
      rw [hpath] at hd
      cases hd
    | some path =>
      rw [hagent.tame.denotes hpath] at hd
      rw [← Option.some.inj hd]
  by_cases hof : p.isOf i e = true
  · refine ⟨confines_own hp hallows hof, hreaches, fun _ => ?_⟩
    rw [drives_process.step]
    exact acts_isolated (on_own hp hallows hof) (hallows.contained hof)
  · rw [Bool.not_eq_true] at hof
    exact ⟨confines_others hp hof (hallows.others hof), hreaches, fun h => by rw [hof] at h; cases h⟩

/-- **A mount without control files stays on its branch**, whatever it is asked, with all it has left to the
worker and all it has opened: while the root of the branch shows no name with `@`, every number it has handed
out stands for a path of the branch, and nothing it does changes another branch or the base. -/
theorem agent_run (hp : p.Confines mp b i) (events : List Event)
    (h : Along Process.step (Process.Allows mp b i) p events) :
    (run Process.step p events).Confines mp b i ∧ Along Process.step (Process.Stays b i) p events :=
  run_safe (fun _ _ hq hallows => confines_step hq hallows) events p hp h

theorem Act.contained_of_linkless (h : Linkless m.disk) (a : Act) (b : String) : a.Contained b m := by
  cases a with
  | op o =>
    cases o with
    | file name change => exact FileOp.contained_of_linkless h change b
    | _ => trivial
  | _ => trivial

/-- A mount that is added without control files starts out so. -/
theorem confines_mounted (hb : p.manager.isBranchValid b = true)
    (hjobs : ∀ job, (p.mounts.length, job) ∉ p.queue) :
    (p.step (.mount b mp false)).Confines mp b p.mounts.length := by
  show (p.addMount b mp false).Confines mp b p.mounts.length
  unfold Process.addMount
  rw [if_pos hb]
  refine ⟨⟨_, Option.map_eq_some_iff.mpr ⟨_, List.getElem?_concat_length, rfl⟩, ?_, ?_⟩,
    fun job hjob => absurd hjob (hjobs job)⟩
  · refine ⟨rfl, ?_, rfl, rfl, ?_⟩
    · show (List.lookup mp ((mp, b) :: _)).getD "main" = b
      rw [List.lookup_cons, beq_self_eq_true]
      rfl
    · intro i hi
      rw [List.mem_singleton.mp hi]
      rfl
  · intro h hfile
    cases hfile

end

/-! ## An agent beside another -/

/-- Two agents, each mounted on a branch of its own. -/
@[irreducible] def twoAgents : Process := run Process.step (Process.init (Manager.init .bare))
  [.manager (.create "b" "main" .lazy []), .manager (.create "a" "main" .lazy []), .mount "a" "/a" false]

/-- One makes a file, writes it twice, leaves its removal to the worker and asks for the other branch by its `@`
name; the other one makes and writes a file meanwhile. -/
def besideAgent : List Event :=
  [.request 1 (.create 1 "f" 0o644 0), .request 0 (.create 1 "g" 0o644 0),
    .request 1 (.write 2 0 [120] false .unknown), .request 1 (.write 2 1 [121] false .unknown),
    .request 1 (.unlink 1 "f"), .request 0 (.write 2 0 [122] false .unknown), .work,
    .request 1 (.lookup 1 "@a")]

theorem besideAgent_run :
    (twoAgents.manager.isBranchValid "b" = true ∧ twoAgents.mounts.length = 1 ∧ twoAgents.queue.length = 0) ∧
    Along Process.step (fun q e => q.manager.PlainRoot "b" ∧ q.Modest 1 e ∧
        Along act (fun m _ => Linkless m.disk) q.manager (q.acts e) ∧
        (q.isOf 1 e = false → ∀ a ∈ q.acts e, a.Leaves "/b"))
      (twoAgents.step (.mount "b" "/b" false)) besideAgent := by
  decide +kernel

/-- Neither reaches the other. -/
theorem agent_run_sample :
    (run Process.step (twoAgents.step (.mount "b" "/b" false)) besideAgent).Confines "/b" "b" 1 ∧
      Along Process.step (Process.Stays "b" 1) (twoAgents.step (.mount "b" "/b" false)) besideAgent := by
  obtain ⟨⟨hvalid, hlength, hqueue⟩, hrun⟩ := besideAgent_run
  have hstart : (twoAgents.step (.mount "b" "/b" false)).Confines "/b" "b" 1 := by
    rw [← hlength]
    refine confines_mounted hvalid fun job hjob => ?_
    rw [List.eq_nil_of_length_eq_zero hqueue] at hjob
    exact absurd hjob List.not_mem_nil
  refine agent_run hstart besideAgent (hrun.mono fun q e h => ⟨fun _ => h.1, h.2.1, fun _ => ?_, h.2.2.2⟩)
  exact h.2.2.1.mono fun _ a hlink => Act.contained_of_linkless hlink a "b"

end BranchFs
