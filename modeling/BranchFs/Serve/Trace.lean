/-
# BranchFs.Serve.Trace -- a run of a process is the run of its acts

Whatever checks a handler makes before and after, and whichever mount, job or descriptor it is about, the
manager ends up where the acts of the event leave it. The checks after a body never undo anything: a body
takes no branch away, so a mount that is live before it is live after it.
-/
import BranchFs.Serve.Acts
import BranchFs.Serve.Steps
import BranchFs.Mount.Moves

namespace BranchFs

open BranchFs.Posix BranchFs.Logic

/-! ## Requests that only look -/

/-- The manager and the mountpoint are what they were; the epoch may have been taken over. -/
structure Quiet (s t : Mount) : Prop where
  manager : t.manager = s.manager
  mountpoint : t.mountpoint = s.mountpoint
  exposeControl : t.exposeControl = s.exposeControl
  epoch : t.currentEpoch = s.currentEpoch ∨ t.currentEpoch = s.manager.epoch

theorem keptByNumbers_quiet : KeptByNumbers Quiet where
  refl _ := ⟨rfl, rfl, rfl, Or.inl rfl⟩
  trans s t u h h' := by
    refine ⟨h'.manager.trans h.manager, h'.mountpoint.trans h.mountpoint,
      h'.exposeControl.trans h.exposeControl, ?_⟩
    rcases h'.epoch with heq | heq
    · rw [heq]
      exact h.epoch
    · right
      rw [heq, h.manager]
  stale _ := ⟨rfl, rfl, rfl, Or.inr rfl⟩
  number _ _ _ := ⟨rfl, rfl, rfl, Or.inl rfl⟩
  ctlNumber _ _ _ := ⟨rfl, rfl, rfl, Or.inl rfl⟩

section

variable {s t : Mount} {m m' : Manager} {branch name : String} {rel : RelPath} {α : Type}

theorem after_onReq (x : Req α) (s : Mount) :
    after (onReq x) s = { s with manager := after x s.manager } := by
  unfold after onReq
  cases x s.manager <;> rfl

theorem after_onManagerOrEio (x : Mgr α) (s : Mount) :
    after (onManagerOrEio x) s = { s with manager := after x s.manager } := by
  unfold after onManagerOrEio onManager
  cases x s.manager <;> rfl

theorem onReq_of_ok {x : Req α} {a : α} (h : x s.manager = .ok a m) :
    onReq x s = .ok a { s with manager := m } := by
  unfold onReq
  rw [h]

theorem onReq_of_error {x : Req α} {e : Errno} (h : x s.manager = .error e m) :
    onReq x s = .error e { s with manager := m } := by
  unfold onReq
  rw [h]

/-! ## A branch that cannot be written -/

theorem isBranchValid_of_writable (h : m.isBranchWritable branch = true) :
    m.isBranchValid branch = true := by
  unfold Manager.isBranchWritable at h
  unfold Manager.isBranchValid
  cases hc : m.forest.get? branch with
  | none =>
    rw [hc] at h
    cases h
  | some c => rfl

theorem denied_of_not_writable (h : m.isBranchWritable branch = false) :
    denyUnlessWritable branch m = .error .EROFS m := by
  unfold denyUnlessWritable
  simp only [h, Bool.false_eq_true, if_false]

/-- A step on a branch that cannot be written does nothing. -/
theorem step_denied (h : m.isBranchWritable branch = false) (op : FileOp) :
    step m (.file branch op) = m := after_error (bind_error (denied_of_not_writable h))

theorem step_writable (h : m.isBranchWritable branch = true) (op : FileOp) :
    step m (.file branch op) = after (op.run branch) m := by
  refine after_bind_ok (?_ : denyUnlessWritable branch m = .ok () m)
  unfold denyUnlessWritable
  rw [if_pos h]

theorem onDeny_ok (h : s.manager.isBranchWritable branch = true) :
    onReq (denyUnlessWritable branch) s = .ok () s := by
  refine onReq_of_ok (m := s.manager) ?_
  unfold denyUnlessWritable
  rw [if_pos h]

theorem onDeny_error (h : s.manager.isBranchWritable branch = false) :
    onReq (denyUnlessWritable branch) s = .error .EROFS s :=
  onReq_of_error (m := s.manager) (denied_of_not_writable h)

/-- What asks for a branch that can be written fails on one that cannot. -/
theorem writableBranch_error (h : m.isBranchWritable branch = false) :
    ∃ e, writableBranch branch m = .error e m := by
  unfold Manager.isBranchWritable at h
  unfold writableBranch
  cases hc : m.forest.get? branch with
  | none => exact ⟨_, rfl⟩
  | some c =>
    have hno : c.isWritable = false := by
      rw [hc] at h
      exact h
    exact ⟨_, if_neg (by simp [hno])⟩

/-! ## After a body -/

/-- A body takes no branch away. -/
theorem Gentle.live (h : Gentle s.manager m) : Mount.live { s with manager := m } = s.live := by
  unfold Mount.live Mount.branchName
  rw [h.mounts]
  exact h.valid

theorem isStale_live (h : s.live = true) :
    isStale s = .ok false { s with currentEpoch := s.manager.epoch } := by
  have hstale : (!s.manager.isBranchValid s.branchName) = false := by
    rw [show s.manager.isBranchValid s.branchName = true from h]
    rfl
  unfold isStale
  rw [hstale]

/-- A check that a mount is live looks no further. -/
theorem failWhenStale_eq (h : s.live = true) :
    failWhenStale s = .ok () { s with currentEpoch := s.manager.epoch } := by
  unfold failWhenStale
  rw [bind_ok (isStale_live h)]
  exact failIf_ok Bool.false_ne_true _ _

theorem failWhenStale_dead (h : s.live = false) :
    failWhenStale s = .error .ESTALE { s with currentEpoch := s.manager.epoch } := by
  have hstale : isStale s = .ok true { s with currentEpoch := s.manager.epoch } := by
    unfold isStale
    rw [show s.manager.isBranchValid s.branchName = false from h]
    rfl
  unfold failWhenStale
  rw [bind_ok hstale]
  exact failIf_error rfl _ _

end

/-! ## Entries -/

section

variable {s : Mount}

theorem denotes_of_getPath {ino : Nat} {path : RelPath} (h : s.inodes.getPath ino = some path) :
    s.denotes ino = s.dirAt path := by
  unfold Mount.denotes Mount.dirAt
  rw [h]
  cases hc : classifyPath path <;> simp only [Option.bind_some, hc]

theorem dirAt_ofRoot {path : RelPath} {d : String × RelPath} (h : s.dirAt path = some d)
    (hroot : ofRoot path = true) : d.1 = s.branchName := by
  unfold Mount.dirAt at h
  unfold ofRoot at hroot
  cases hc : classifyPath path with
  | rootPath rel =>
    rw [hc] at h
    cases h
    rfl
  | _ =>
    rw [hc] at hroot
    cases hroot

/-- The directory is taken exactly if it stands for one of a branch that can be written. -/
theorem writableDir_ok {path : RelPath} {branch : String} {rel : RelPath}
    (h : s.dirAt path = some (branch, rel)) (hw : s.manager.isBranchWritable branch = true) :
    writableDir path s = .ok (branch, rel) s := by
  unfold writableDir
  rw [bind_ok (rfl : (get : MountReq Mount) s = .ok s s)]
  simp only [h]
  have hneed : when (ofRoot path = false) (needBranch branch) s = .ok () s := by
    unfold when
    split
    · exact needBranch_ok (isBranchValid_of_writable hw)
    · rfl
  rw [bind_ok hneed, bind_ok (onDeny_ok hw)]
  rfl

theorem writableDir_error {path : RelPath} (h : ∀ d, s.dirAt path = some d →
    s.manager.isBranchWritable d.1 = false) : ∃ e, writableDir path s = .error e s := by
  unfold writableDir
  rw [bind_ok (rfl : (get : MountReq Mount) s = .ok s s)]
  cases hdir : s.dirAt path with
  | none => exact ⟨_, rfl⟩
  | some d =>
    obtain ⟨branch, rel⟩ := d
    have hw := h (branch, rel) hdir
    simp only
    have hneed : ∀ {t}, when (ofRoot path = false) (needBranch branch) s = .ok () t → t = s := by
      intro t ht
      exact ((keeps_when (fun _ => rfl) _ fun _ => reads_needBranch branch : Keeps Eq _).ok ht).symm
    cases hrun : when (ofRoot path = false) (needBranch branch) s with
    | error e t =>
      have heq := (keeps_when (fun _ => rfl) _ fun _ => reads_needBranch branch : Keeps Eq _).error hrun
      rw [bind_error hrun, ← heq]
      exact ⟨e, rfl⟩
    | ok u t =>
      rw [bind_ok hrun, hneed hrun, bind_error (onDeny_error hw)]
      exact ⟨_, rfl⟩

/-- **Making an entry is one step on the branch**: what follows the body gives a number out and no more. -/
theorem manager_makeEntry {m : Maker} {op : RelPath → FileOp} {name : String} (parent : Nat)
    (hop : ∀ b dir, (op dir).run b = m.body b (dir ++ [name])) (s : Mount) :
    (after (makeEntry m parent name) s).manager = run act s.manager (s.makeActs parent op) := by
  unfold makeEntry Mount.makeActs
  cases hpath : s.inodes.getPath parent with
  | none =>
    have hnone : s.denotes parent = none := by
      unfold Mount.denotes
      rw [hpath]
      rfl
    rw [after_bind_error (inodePath_error hpath), hnone]
    rfl
  | some path =>
    rw [after_bind_ok (inodePath_ok hpath), denotes_of_getPath hpath]
    by_cases hopen : ∃ d, s.dirAt path = some d ∧ s.manager.isBranchWritable d.1 = true
    · obtain ⟨⟨branch, rel⟩, hdir, hw⟩ := hopen
      rw [after_bind_ok (writableDir_ok hdir hw), hdir]
      simp only [run_cons, run_nil, act]
      rw [step_writable hw, hop]
      cases hbody : m.body branch (rel ++ [name]) s.manager with
      | error e m' => rw [after_bind_error (onReq_of_error hbody), after_error hbody]
      | ok u m' =>
        rw [after_bind_ok (onReq_of_ok hbody), after_ok hbody]
        have hgentle : Gentle s.manager m' := by
          have hfile := gentle_fileOp branch (op rel)
          rw [hop] at hfile
          exact hfile.ok hbody
        have hquiet : ∀ t : Mount, t.manager = m' → (after (do
            let ino ← inodeFor (path ++ [name]) m.isDir
            replyMade ino (deltaPath branch (rel ++ [name]))) t).manager = m' := by
          intro t ht
          have hkeeps : Keeps Quiet (do
              let ino ← inodeFor (path ++ [name]) m.isDir
              replyMade ino (deltaPath branch (rel ++ [name]))) := by
            refine keptByNumbers_quiet.seq (keptByNumbers_quiet.inodeFor _ _) fun ino => ?_
            refine keptByNumbers_quiet.still fun u => ?_
            unfold after replyMade
            cases u.manager.disk.lstat (deltaPath branch (rel ++ [name])) <;> rfl
          rw [(hkeeps t).manager, ht]
        unfold when
        split
        · next hroot =>
          have hlive : Mount.live { s with manager := m' } = true := by
            rw [hgentle.live]
            unfold Mount.live
            rw [← dirAt_ofRoot hdir hroot]
            exact isBranchValid_of_writable hw
          have hundo : undoWhenStale m (deltaPath branch (rel ++ [name])) { s with manager := m' } =
              .ok () { s with manager := m', currentEpoch := m'.epoch } := by
            unfold undoWhenStale
            rw [bind_ok (isStale_live hlive), when_false Bool.false_ne_true]
            rfl
          rw [after_bind_ok hundo]
          exact hquiet _ rfl
        · exact hquiet _ rfl
    · have hclosed : ∀ d, s.dirAt path = some d → s.manager.isBranchWritable d.1 = false :=
        fun d hd => Bool.eq_false_iff.mpr fun hw => hopen ⟨d, hd, hw⟩
      obtain ⟨e, he⟩ := writableDir_error hclosed
      rw [after_bind_error he]
      cases hdir : s.dirAt path with
      | none => rfl
      | some d => exact (step_denied (hclosed d hdir) _).symm

/-- **A rename is one step on the branch.** -/
theorem manager_rename (parent : Nat) (name : String) (newparent : Nat) (newname : String)
    (flags : RenameFlags) (s : Mount) :
    (after (rename parent name newparent newname flags) s).manager =
      run act s.manager (s.renameActs parent name newparent newname flags) := by
  unfold Mount.renameActs
  cases hflags : flags.exchange with
  | true =>
    unfold rename
    rw [after_bind_error (failIf_error hflags _ s)]
    rfl
  | false =>
    unfold rename
    rw [after_bind_ok (failIf_ok (by simp [hflags]) _ s)]
    simp only [Bool.false_eq_true, if_false]
    cases hpaths : renamePaths parent name newparent newname s with
    | error e t =>
      rw [after_bind_error hpaths, ← (reads_renamePaths parent name newparent newname).error hpaths]
      rfl
    | ok paths t =>
      obtain rfl : s = t := (reads_renamePaths parent name newparent newname).ok hpaths
      rw [after_bind_ok hpaths]
      obtain ⟨hsrc, hdst⟩ := renamePaths_names hpaths
      obtain ⟨hw, hroot⟩ := renamePaths_ok hpaths
      simp only [run_cons, run_nil, act]
      rw [step_writable hw]
      show _ = after (renamePath paths.branch (paths.src.dropLast ++ [name]) (paths.dst.dropLast ++ [newname])
        flags.noReplace) s.manager
      rw [← hsrc, ← hdst]
      cases hbody : renamePath paths.branch paths.src paths.dst flags.noReplace s.manager with
      | error e m' => rw [after_bind_error (onReq_of_error hbody), after_error hbody]
      | ok u m' =>
        rw [after_bind_ok (onReq_of_ok hbody), after_ok hbody]
        unfold when
        split
        · next hof =>
          have hgentle : Gentle s.manager m' :=
            (keptByCalls_gentle.renamePath paths.src paths.dst flags.noReplace).ok hbody
          have hlive : Mount.live { s with manager := m' } = true := by
            rw [hgentle.live]
            unfold Mount.live
            rw [← hroot hof]
            exact isBranchValid_of_writable hw
          rw [after_bind_ok (failWhenStale_eq hlive)]
          rfl
        · rfl

/-! ## Attributes -/

/-- What follows a body and only looks leaves the manager as the body left it. -/
theorem manager_body {α β : Type} {x : Req α} {f : α → MountReq β} (hf : ∀ a, Keeps Quiet (f a))
    (s : Mount) : (after (onReq x >>= f) s).manager = after x s.manager := by
  cases hrun : x s.manager with
  | error e m => rw [after_bind_error (onReq_of_error hrun), after_error hrun]
  | ok a m => rw [after_bind_ok (onReq_of_ok hrun), (hf a _).manager, after_ok hrun]

theorem run_attrActs_denied {branch : String} (hw : s.manager.isBranchWritable branch = false)
    (rel : RelPath) (size : Option Nat) (a : SetAttr) :
    run act s.manager (s.attrActs branch rel size a) = s.manager := by
  have hstill : ∀ op, act s.manager (.op (.file branch op)) = s.manager := step_denied hw
  have hrest : run act s.manager (if a.any then [.op (.file branch (.setattr rel a))] else []) = s.manager := by
    split
    · rw [run_cons, run_nil, hstill]
    · rfl
  unfold Mount.attrActs
  cases size with
  | none => exact hrest
  | some newSize =>
    simp only
    rw [run_cons, hstill]
    split
    · exact hrest
    · rfl

theorem after_changeAttr {branch : String} {size : Option Nat} {a : SetAttr}
    (hw : asksFor size a = true → s.manager.isBranchWritable branch = true) (rel : RelPath) :
    after (Faulty.changeAttr .absent branch rel size a) s.manager =
      run act s.manager (s.attrActs branch rel size a) := by
  have hattr : ∀ m : Manager, (a.any = true → m.isBranchWritable branch = true) →
      after (when (a.any = true) (Faulty.setAttrPath .absent branch rel a)) m =
        run act m (if a.any then [.op (.file branch (.setattr rel a))] else []) := by
    intro m hm
    rw [Faulty.setAttrPath_absent]
    by_cases hany : a.any = true
    · rw [when_true hany, if_pos hany, run_cons, run_nil]
      exact (step_writable (hm hany) (.setattr rel a)).symm
    · rw [when_false hany, if_neg hany]
      rfl
  unfold Faulty.changeAttr Mount.attrActs
  cases size with
  | none =>
    refine hattr s.manager fun hany => hw ?_
    unfold asksFor
    rw [hany, Bool.or_true]
  | some newSize =>
    have hopen := hw rfl
    simp only [Faulty.truncatePath_absent, run_cons]
    rw [show act s.manager (.op (.file branch (.truncate rel newSize))) =
      after (truncatePath branch rel newSize) s.manager from step_writable hopen _]
    unfold Logic.succeeds
    cases hrun : truncatePath branch rel newSize s.manager with
    | error e m =>
      rw [after_bind_error hrun, after_error hrun]
      rfl
    | ok u m =>
      rw [after_bind_ok hrun, after_ok hrun]
      refine hattr m fun _ => ?_
      rw [((keptByCalls_gentle.truncatePath newSize).ok hrun).writable]
      exact hopen

/-- **A `setattr` is the size, then the rest.** -/
theorem manager_setattr (ino : Nat) (size : Option Nat) (a : SetAttr) (s : Mount) :
    (after (Faulty.setattr .absent ino size a) s).manager =
      run act s.manager (s.setattrActs ino size a) := by
  have harm : ∀ (branch : String) (rel : RelPath) (check : MountReq Unit) (f : Unit → MountReq AttrReply),
      Keeps Eq check → (s.manager.isBranchWritable branch = true → check s = .ok () s) →
      (∀ u, Keeps Quiet (f u)) → (after (do
        when (asksFor size a = true) (onReq (denyUnlessWritable branch))
        check
        let u ← onReq (Faulty.changeAttr .absent branch rel size a)
        f u) s).manager = run act s.manager (s.attrActs branch rel size a) := by
    intro branch rel check f hlooks hcheck hf
    by_cases hdenied : asksFor size a = true ∧ s.manager.isBranchWritable branch = false
    · obtain ⟨hask, hw⟩ := hdenied
      rw [when_true hask, after_bind_error (onDeny_error hw), run_attrActs_denied hw]
    · have hw : asksFor size a = true → s.manager.isBranchWritable branch = true := by
        intro hask
        by_contra hno
        exact hdenied ⟨hask, Bool.eq_false_iff.mpr hno⟩
      have hask : when (asksFor size a = true) (onReq (denyUnlessWritable branch)) s = .ok () s := by
        by_cases hask : asksFor size a = true
        · rw [when_true hask]
          exact onDeny_ok (hw hask)
        · rw [when_false hask]
          rfl
      rw [after_bind_ok hask]
      cases hrun : check s with
      | ok u t =>
        obtain rfl : s = t := hlooks.ok hrun
        rw [after_bind_ok hrun, manager_body hf, after_changeAttr hw]
      | error e t =>
        obtain rfl : s = t := hlooks.error hrun
        rw [after_bind_error hrun, ← after_changeAttr hw]
        -- a branch that is not there has not been asked for, so nothing is asked for
        by_cases hask : asksFor size a = true
        · rw [hcheck (hw hask)] at hrun
          cases hrun
        · unfold asksFor at hask
          rw [Bool.not_eq_true, Bool.or_eq_false_iff] at hask
          obtain rfl := Option.not_isSome_iff_eq_none.mp (Bool.eq_false_iff.mp hask.1)
          unfold Faulty.changeAttr
          rw [when_false (by simp [hask.2])]
          rfl
  unfold Faulty.setattr Mount.setattrActs
  rw [after_bind_ok (rfl : (get : MountReq Mount) s = .ok s s)]
  cases hctl : s.ctlFileOf ino with
  | some file =>
    have hquiet : ∀ x : MountReq AttrReply, Keeps Quiet x → (after x s).manager = s.manager :=
      fun x hx => (hx s).manager
    cases file with
    | root =>
      refine hquiet _ ?_
      show Keeps Quiet (if s.exposeControl then pure (ctlFileAttr ino) else throw Errno.ENOENT)
      split
      · exact keptByNumbers_quiet.pure _
      · exact keptByNumbers_quiet.throw _
    | branch b =>
      refine hquiet _ ?_
      show Keeps Quiet (if s.exposeControl && s.manager.isBranchValid b then pure (ctlFileAttr ino)
        else throw Errno.ENOENT)
      split
      · exact keptByNumbers_quiet.pure _
      · exact keptByNumbers_quiet.throw _
  | none =>
    simp only [Option.isSome_none, Bool.false_eq_true, if_false]
    unfold Mount.denotesFile
    cases hpath : s.inodes.getPath ino with
    | none =>
      rw [after_bind_error (inodePath_error hpath)]
      rfl
    | some path =>
      rw [after_bind_ok (inodePath_ok hpath), Option.bind_some]
      unfold Faulty.setattrAt
      cases hc : classifyPath path with
      | branchDir b => rfl
      | branchCtl b => rfl
      | branchPath b rel =>
        exact harm b rel (needBranch b) _ (reads_needBranch b)
          (fun hw => needBranch_ok (isBranchValid_of_writable hw)) fun _ => keptByNumbers_quiet.replyAttr ino
      | rootPath rel =>
        exact harm s.branchName rel (pure ()) _ (keeps_pure (fun _ => rfl) ()) (fun _ => rfl) fun _ =>
          keptByNumbers_quiet.seq keptByNumbers_quiet.failWhenStale fun _ =>
            KeptByLooks.get fun t => keptByNumbers_quiet.replyAttr ino

/-! ## Control -/

theorem after_commitBranch (order : HashOrder) (branch : String) (m : Manager) :
    after (commitBranch order branch) m = after (commitWithReport order branch) m := by
  unfold commitBranch
  cases hrun : commitWithReport order branch m with
  | ok outcome m' =>
    rw [after_bind_ok hrun, after_ok hrun]
    rfl
  | error e m' => rw [after_bind_error hrun, after_error hrun]

theorem step_finish (f : Finish) (branch : String) (m : Manager) :
    step m (f.op branch) = after (f.run branch) m := by
  cases f with
  | commit order => exact (after_commitBranch order branch m).symm
  | abort => rfl

theorem onManagerOrEio_of_ok {α : Type} {x : Mgr α} {a : α} {m : Manager} (h : x s.manager = .ok a m) :
    onManagerOrEio x s = .ok a { s with manager := m } := by
  unfold onManagerOrEio onManager
  simp only [h]

theorem onManagerOrEio_of_error {α : Type} {x : Mgr α} {e : BranchError} {m : Manager}
    (h : x s.manager = .error e m) : onManagerOrEio x s = .error Errno.EIO { s with manager := m } := by
  unfold onManagerOrEio onManager
  simp only [h]

/-- **A branch is finished in one step**, and the mount follows it to the parent. -/
theorem manager_finalizeBranchOp (branch : String) (f : Finish) (s : Mount) :
    (after (finalizeBranchOp branch (f.run branch)) s).manager =
      run act s.manager (s.finishActs branch f) := by
  unfold finalizeBranchOp Mount.finishActs
  rw [run_cons, show act s.manager (.op (f.op branch)) = after (f.run branch) s.manager from
    step_finish f branch s.manager]
  cases hrun : f.run branch s.manager with
  | error e m =>
    rw [after_bind_error (onManagerOrEio_of_error hrun), after_error hrun]
    rfl
  | ok parent m =>
    rw [after_bind_ok (onManagerOrEio_of_ok hrun), after_ok hrun]
    show (after (when (Mount.branchName { s with manager := m } = branch) (switchMountBranch parent))
      { s with manager := m, inodes := s.inodes.clearPrefix ("/@" ++ branch),
               currentEpoch := m.epoch }).manager = _
    simp only
    split
    · next hshown =>
      rw [when_true hshown]
      rfl
    · next hother =>
      rw [when_false hother]
      rfl

theorem manager_finalizeByIoctl (branch : String) (f : Finish) (s : Mount) :
    (after (finalizeByIoctl branch (f.run branch)) s).manager = step s.manager (f.op branch) := by
  unfold finalizeByIoctl
  rw [step_finish]
  cases hrun : f.run branch s.manager with
  | error e m => rw [after_bind_error (onManagerOrEio_of_error hrun), after_error hrun]
  | ok parent m =>
    rw [after_bind_ok (onManagerOrEio_of_ok hrun), after_ok hrun]
    rfl

theorem manager_create (name parent : String) (s : Mount) :
    (after (do
      onManagerOrEio (createBranchWithOptions name parent .lazy [])
      storeEpoch) s).manager = step s.manager (.create name parent .lazy []) := by
  show _ = after (createBranchWithOptions name parent .lazy []) s.manager
  cases hrun : createBranchWithOptions name parent .lazy [] s.manager with
  | error e m => rw [after_bind_error (onManagerOrEio_of_error hrun), after_error hrun]
  | ok u m =>
    rw [after_bind_ok (onManagerOrEio_of_ok hrun), after_ok hrun]
    rfl

theorem manager_createByCommand (name parent : String) (s : Mount) :
    (after (createByCommand name parent) s).manager = run act s.manager
      (if name = "" then [] else [.op (.create name parent .lazy [])]) := by
  unfold createByCommand
  split
  · next hempty =>
    rw [after_bind_error (failIf_error hempty _ s)]
    rfl
  · next hname =>
    rw [after_bind_ok (failIf_ok hname _ s)]
    exact manager_create name parent s

/-- **A command to a control file.** -/
theorem manager_writeCtl (file : CtlFile) (command : CtlCommand) (s : Mount) :
    (after (writeCtl file command) s).manager = run act s.manager (s.ctlActs file command) := by
  unfold writeCtl Mount.ctlActs
  rw [after_bind_ok (rfl : (get : MountReq Mount) s = .ok s s)]
  cases hcontrol : s.exposeControl with
  | false => rfl
  | true =>
    simp only [if_true]
    cases file with
    | root =>
      cases command with
      | switch b =>
        show (after (do failIf (b = "") .EINVAL; needBranch b; switchToBranch b) s).manager = run act s.manager
          (if b = "" ∨ s.manager.isBranchValid b = false then [] else [.switch s.mountpoint b])
        by_cases hempty : b = ""
        · rw [after_bind_error (failIf_error hempty _ s), if_pos (Or.inl hempty)]
          rfl
        rw [after_bind_ok (failIf_ok hempty _ s)]
        cases hvalid : s.manager.isBranchValid b with
        | false =>
          rw [after_bind_error (needBranch_error hvalid), if_pos (Or.inr rfl)]
          rfl
        | true =>
          rw [after_bind_ok (needBranch_ok hvalid), if_neg (by simp [hempty])]
          rfl
      | create name => exact manager_createByCommand name s.branchName s
      | commit order => exact manager_finalizeBranchOp s.branchName (.commit order) s
      | abort => exact manager_finalizeBranchOp s.branchName .abort s
      | unknown => rfl
    | branch b =>
      cases command with
      | switch c => rfl
      | create name => exact manager_createByCommand name b s
      | commit order => exact manager_finalizeBranchOp b (.commit order) s
      | abort => exact manager_finalizeBranchOp b .abort s
      | unknown => rfl

theorem manager_ioctl (ino : Nat) (command : IoctlCommand) (s : Mount) :
    (after (ioctl ino command) s).manager = run act s.manager (s.ioctlActs ino command) := by
  unfold ioctl Mount.ioctlActs
  rw [after_bind_ok (rfl : (get : MountReq Mount) s = .ok s s)]
  cases s.ctlFileOf ino with
  | none => rfl
  | some file =>
    cases command with
    | create name => exact manager_create name (file.about s) s
    | commit order => exact manager_finalizeByIoctl (file.about s) (.commit order) s
    | abort => exact manager_finalizeByIoctl (file.about s) .abort s
    | unknown => rfl

/-! ## Jobs -/

theorem manager_finishDelete (branch : String) (inode : RelPath) (mayBeStale : Bool) (x : Req Unit)
    (s : Mount) : (after (finishDelete branch inode mayBeStale x) s).manager = after x s.manager := by
  have hbody := congrArg Mount.manager (after_onReq x s)
  cases hrun : onReq x s with
  | ok u t =>
    rw [after_ok hrun] at hbody
    unfold after finishDelete
    simp only [hrun]
    by_cases hstale : (mayBeStale && !t.manager.isBranchValid branch) = true
    · simp only [hstale, if_true]
      exact hbody
    · simp only [hstale, Bool.false_eq_true, if_false]
      exact hbody
  | error e t =>
    rw [after_error hrun] at hbody
    unfold after finishDelete
    simp only [hrun]
    exact hbody

/-- What a job asks for on a branch that cannot be written does nothing, checked or not. -/
theorem after_asReq_denied {α β : Type} {branch : String} {m : Manager} (f : BranchError → Errno)
    (x : Branch → Mgr α) (k : α → Req β) (hw : m.isBranchWritable branch = false) :
    after (asReq f (writableBranch branch >>= x) >>= k) m = m := by
  obtain ⟨e, he⟩ := writableBranch_error hw
  refine after_error (bind_error (e := f e) ?_)
  unfold asReq
  rw [bind_error he]

/-- **A job is one step on the branch**, which asks no more than the job itself. -/
theorem manager_job (job : Job) (s : Mount) : (after job.run s).manager = act s.manager job.act := by
  cases job with
  | write branch rel offset data =>
    show (after (onReq _) s).manager = step s.manager (.file branch (.writeByWorker rel offset data))
    rw [after_onReq]
    cases hw : s.manager.isBranchWritable branch with
    | true => exact (step_writable hw (.writeByWorker rel offset data)).symm
    | false =>
      rw [step_denied hw]
      show after (asReq branchErrorErrno (writeDataToBranch branch rel offset data) >>= fun _ => pure ())
        s.manager = s.manager
      unfold writeDataToBranch
      split
      · rfl
      split
      · rfl
      exact after_asReq_denied _ _ _ hw
  | delete branch dir name inode mayBeStale =>
    show (after (finishDelete branch inode mayBeStale (unlinkPath branch (dir ++ [name]))) s).manager =
      step s.manager (.file branch (.unlink dir name))
    rw [manager_finishDelete]
    cases hw : s.manager.isBranchWritable branch with
    | true => exact (step_writable hw (.unlink dir name)).symm
    | false =>
      rw [step_denied hw]
      exact (after_asReq branchErrorErrno _ _).trans ((writableBranch_error hw).elim fun e he =>
        after_error (bind_error he))
  | rmdir branch dir name inode mayBeStale =>
    show (after (finishDelete branch inode mayBeStale (rmdirPath branch (dir ++ [name]))) s).manager =
      step s.manager (.file branch (.rmdir dir name))
    rw [manager_finishDelete]
    cases hw : s.manager.isBranchWritable branch with
    | true => exact (step_writable hw (.rmdir dir name)).symm
    | false =>
      rw [step_denied hw]
      exact (after_asReq branchErrorErrno _ _).trans ((writableBranch_error hw).elim fun e he =>
        after_error (bind_error he))

end

/-! ## Kept descriptors -/

/-- The mount is quiet, and the descriptor kept for writing is the one that was kept. -/
structure Idle (s t : CachedMount) : Prop where
  mount : Quiet s.mount t.mount
  write : t.writeCache = s.writeCache

section

variable {s t : CachedMount} {m : Manager} {α : Type}

theorem keptByReading_idle : KeptByReading Quiet Idle where
  looks := keptByNumbers_quiet.toKeptByLooks
  refl _ := ⟨keptByNumbers_quiet.refl _, rfl⟩
  trans _ _ _ h h' := ⟨keptByNumbers_quiet.trans _ _ _ h.mount h'.mount, h'.write.trans h.write⟩
  mount _ _ h := ⟨h, rfl⟩
  reading _ _ := ⟨keptByNumbers_quiet.refl _, rfl⟩

/-! ### Writing -/

theorem onBody_of_ok {x : Req α} {a : α} (h : x s.mount.manager = .ok a m) :
    onBody x s = .ok a { s with mount := { s.mount with manager := m } } := onMount_of_ok (onReq_of_ok h)

theorem onBody_of_error {x : Req α} {e : Errno} (h : x s.mount.manager = .error e m) :
    onBody x s = .error e { s with mount := { s.mount with manager := m } } :=
  onMount_of_error (onReq_of_error h)

/-- A write through a descriptor that has just been opened is one through any descriptor: the mount that is
live before is live when the data are written. -/
theorem manager_writeOpened (h : FileHandle) (offset : Nat) (data : Bytes) {ofRoot : Bool}
    (hlive : ofRoot = true → s.mount.live = true) :
    (after (writeOpened h offset data ofRoot) s).mount.manager =
      after (writeThrough h offset data) s.mount.manager := by
  unfold writeOpened writeThrough
  have hsize : ∀ m : Manager, readReq (fun m => handleLen m.disk h) m = .ok (handleLen m.disk h) m :=
    fun _ => rfl
  rw [after_bind_ok (onBody_of_ok (hsize _)), after_bind_ok (hsize _)]
  simp only
  generalize hcheck : when (UInt64.ofNat (offset + data.length) > handleLen s.mount.manager.disk h)
    (asReq (fun _ => Errno.ENOSPC)
      (quotaCheck (UInt64.ofNat (offset + data.length) - handleLen s.mount.manager.disk h))) = check
  have hkeeps : Keeps Gentle check := by
    rw [← hcheck]
    exact keptByCalls_gentle.checked (KeptByCalls.asReq _ (keptByCalls_gentle.quotaCheck _))
  cases hrun : check s.mount.manager with
  | error e m₁ => rw [after_bind_error (onBody_of_error hrun), after_bind_error hrun]
  | ok u m₁ =>
    rw [after_bind_ok (onBody_of_ok hrun), after_bind_ok hrun]
    cases hwrite : ioOrEio (Posix.Sys.pwrite h offset data) m₁ with
    | error e m₂ => rw [after_bind_error (onBody_of_error hwrite), after_bind_error hwrite]
    | ok n m₂ =>
      rw [after_bind_ok (onBody_of_ok hwrite), after_bind_ok hwrite]
      have hgentle : Gentle s.mount.manager m₂ := Gentle.trans _ _ _ (hkeeps.ok hrun)
        ((keptByCalls_gentle.ioOrEio (.pwrite h offset data)).ok hwrite)
      have hrest : ∀ t : CachedMount, t.mount.manager = m₂ → (after (do
          onBody (when (UInt64.ofNat (offset + n) > handleLen s.mount.manager.disk h)
            (asReq (fun _ => Errno.EIO)
              (quotaAdd (UInt64.ofNat (offset + n) - handleLen s.mount.manager.disk h))))
          pure n) t).mount.manager = after (do
          when (UInt64.ofNat (offset + n) > handleLen s.mount.manager.disk h)
            (asReq (fun _ => Errno.EIO)
              (quotaAdd (UInt64.ofNat (offset + n) - handleLen s.mount.manager.disk h)))
          pure n) m₂ := by
        intro t ht
        rw [← ht]
        generalize (when (UInt64.ofNat (offset + n) > handleLen s.mount.manager.disk h)
          (asReq (fun _ => Errno.EIO)
            (quotaAdd (UInt64.ofNat (offset + n) - handleLen s.mount.manager.disk h)))) = charge
        cases hcharge : charge t.mount.manager with
        | error e m₃ => rw [after_bind_error (onBody_of_error hcharge), after_bind_error hcharge]
        | ok u m₃ =>
          rw [after_bind_ok (onBody_of_ok hcharge), after_bind_ok hcharge]
          rfl
      unfold when at hrest ⊢
      split
      · next hroot =>
        have hstill : Mount.live { s.mount with manager := m₂ } = true := by
          rw [hgentle.live]
          exact hlive hroot
        rw [after_bind_ok (onMount_of_ok (failWhenStale_eq hstill))]
        exact hrest _ rfl
      · exact hrest _ rfl

theorem openForWrite_denied {branch : String} (hw : m.isBranchWritable branch = false) (rel : RelPath) :
    ∃ e, openForWrite branch rel m = .error e m := by
  obtain ⟨e, he⟩ := writableBranch_error hw
  refine ⟨Errno.EIO, bind_error (?_ : ensureCowForBranch branch rel m = .error Errno.EIO m)⟩
  unfold ensureCowForBranch asReq ensureDeltaPathForWrite
  rw [bind_error he]

/-- A write to a delta that is there is one step on the branch; any other is left to the worker. -/
theorem manager_writeAt {branch : String} {ofRoot : Bool} (rel : RelPath) (ino : Nat) (offset : Int)
    (data : Bytes) (append : Bool) (hroot : ofRoot = true → branch = s.mount.branchName) :
    (after (writeAt branch rel ofRoot ino offset data append) s).mount.manager =
      run act s.mount.manager (writeAtActs s.mount.manager branch rel offset data append) := by
  unfold writeAt writeAtActs
  rw [after_bind_ok (rfl : (get : CachedReq CachedMount) s = .ok s s)]
  cases hoffset : effectiveWriteOffset append offset
    (if append then s.mount.manager.fileLen branch rel else none) with
  | error e =>
    have hrefused : writeOffset append offset
        (if append then s.mount.manager.fileLen branch rel else none) s = .error e s := by
      unfold writeOffset
      rw [hoffset]
    rw [after_bind_error hrefused]
    rfl
  | ok start =>
    have htaken : writeOffset append offset
        (if append then s.mount.manager.fileLen branch rel else none) s = .ok start s := by
      unfold writeOffset
      rw [hoffset]
    rw [after_bind_ok htaken]
    simp only
    split
    · rw [run_cons, run_nil]
      show _ = step s.mount.manager (.file branch (.write rel start.toNat data))
      cases hw : s.mount.manager.isBranchWritable branch with
      | false =>
        obtain ⟨e, he⟩ := openForWrite_denied hw rel
        have hopen : openToWrite branch rel ino s = .error e s := by
          unfold openToWrite
          rw [bind_ok (rfl : (get : CachedReq CachedMount) s = .ok s s)]
          exact bind_error (onBody_of_error he)
        rw [step_denied hw, after_bind_error hopen]
      | true =>
        rw [step_writable hw]
        show _ = after (do let h ← openForWrite branch rel; let _ ← writeThrough h start.toNat data)
          s.mount.manager
        cases hrun : openForWrite branch rel s.mount.manager with
        | error e m =>
          have hopen : openToWrite branch rel ino s =
              .error e { s with mount := { s.mount with manager := m } } := by
            unfold openToWrite
            rw [bind_ok (rfl : (get : CachedReq CachedMount) s = .ok s s)]
            exact bind_error (onBody_of_error hrun)
          rw [after_bind_error hopen, after_bind_error hrun]
        | ok h m =>
          have hopen : openToWrite branch rel ino s = .ok h { s with
              mount := { s.mount with manager := m }
              writeCache := s.writeCache.insert ino s.mount.currentEpoch h } := by
            unfold openToWrite
            rw [bind_ok (rfl : (get : CachedReq CachedMount) s = .ok s s)]
            rw [bind_ok (onBody_of_ok hrun)]
            rfl
          rw [after_bind_ok hopen, after_bind_ok hrun]
          have hlive : ofRoot = true → Mount.live { s.mount with manager := m } = true := by
            intro hof
            rw [(keptByCalls_gentle.openForWrite.ok hrun : Gentle s.mount.manager m).live]
            unfold Mount.live
            rw [← hroot hof]
            exact isBranchValid_of_writable hw
          have hwritten := manager_writeOpened (s := { s with
            mount := { s.mount with manager := m }
            writeCache := s.writeCache.insert ino s.mount.currentEpoch h }) h start.toNat data hlive
          rw [after_bind_pure, after_bind_pure]
          exact hwritten
    · rfl

theorem manager_writeSlow (ino : Nat) (offset : Int) (data : Bytes) (append : Bool) :
    (after (writeSlow ino offset data append) s).mount.manager =
      run act s.mount.manager (s.writeSlowActs ino offset data append) := by
  unfold writeSlow CachedMount.writeSlowActs Mount.denotesFile
  cases hpath : s.mount.inodes.getPath ino with
  | none =>
    rw [after_bind_error (onMount_of_error (inodePath_error hpath))]
    rfl
  | some path =>
    rw [after_bind_ok (onMount_of_ok (inodePath_ok hpath)), Option.bind_some]
    cases hc : classifyPath path with
    | branchDir b => rfl
    | branchCtl b => rfl
    | rootPath rel =>
      simp only
      rw [after_bind_ok (rfl : (get : CachedReq CachedMount) s = .ok s s)]
      exact manager_writeAt rel ino offset data append fun _ => rfl
    | branchPath b rel =>
      simp only
      cases hw : s.mount.manager.isBranchWritable b with
      | true =>
        have hopen : onBody (denyUnlessWritable b) s = .ok () s := onMount_of_ok (onDeny_ok hw)
        have hthere : onMount (needBranch b) s = .ok () s :=
          onMount_of_ok (needBranch_ok (isBranchValid_of_writable hw))
        rw [after_bind_ok hopen, after_bind_ok hthere]
        exact manager_writeAt rel ino offset data append fun hof => absurd hof Bool.false_ne_true
      | false =>
        have hdenied : onBody (denyUnlessWritable b) s = .error .EROFS s := onMount_of_error (onDeny_error hw)
        rw [after_bind_error hdenied]
        unfold writeAtActs
        split
        · split
          · exact (step_denied hw _).symm
          · rfl
        · rfl

/-- **A write goes through the descriptor that is kept, to the delta, or to the worker.** -/
theorem manager_writeFile (ino : Nat) (offset : Int) (data : Bytes) (append : Bool) :
    (after (writeFile ino offset data append) s).mount.manager =
      run act s.mount.manager (s.writeFileActs ino offset data append) := by
  unfold writeFile CachedMount.writeFileActs
  cases hlive : s.mount.live with
  | false =>
    rw [after_bind_error (onMount_of_error (failWhenStale_dead hlive))]
    unfold Mount.live at hlive
    simp only
    rw [if_pos (Or.inl hlive)]
    rfl
  | true =>
    rw [after_bind_ok (onMount_of_ok (failWhenStale_eq hlive))]
    unfold Mount.live at hlive
    simp only
    by_cases hneg : offset < 0
    · rw [after_bind_error (failIf_error hneg _ _), if_pos (Or.inr hneg)]
      rfl
    · rw [after_bind_ok (failIf_ok hneg _ _), if_neg (by simp [hlive, hneg])]
      generalize hfresh : ({ s with mount := { s.mount with currentEpoch := s.mount.manager.epoch } } :
        CachedMount) = u
      have hmanager : s.mount.manager = u.mount.manager := by rw [← hfresh]
      have hget : s.writeCache.get ino s.mount.manager.epoch = u.writeCache.get ino u.mount.currentEpoch := by
        rw [← hfresh]
      have hslow : s.writeSlowActs ino offset data append = u.writeSlowActs ino offset data append := by
        rw [← hfresh]
        rfl
      rw [after_bind_ok (rfl : (get : CachedReq CachedMount) u = .ok u u), hget, hslow, hmanager]
      cases u.writeCache.get ino u.mount.currentEpoch with
      | none => exact manager_writeSlow ino offset data append
      | some h =>
        simp only
        rw [after_bind_pure]
        unfold writeCached
        rw [after_bind_ok (rfl : (get : CachedReq CachedMount) u = .ok u u)]
        cases hoffset : effectiveWriteOffset append offset
          (some (handleLen u.mount.manager.disk h)) with
        | error e =>
          have hrefused : writeOffset append offset (some (handleLen u.mount.manager.disk h)) u =
              .error e u := by
            unfold writeOffset
            rw [hoffset]
          rw [after_bind_error hrefused]
          rfl
        | ok start =>
          have htaken : writeOffset append offset (some (handleLen u.mount.manager.disk h)) u =
              .ok start u := by
            unfold writeOffset
            rw [hoffset]
          rw [after_bind_ok htaken]
          unfold onBody
          rw [after_onMount, after_onReq]
          rfl

theorem manager_write (ino : Nat) (offset : Int) (data : Bytes) (append : Bool) (command : CtlCommand) :
    (after (write ino offset data append command) s).mount.manager =
      run act s.mount.manager (s.writeActs ino offset data append command) := by
  unfold write CachedMount.writeActs
  -- what becomes of the descriptor kept for reading plays no part
  generalize hforgot : ({ s with openCache := s.openCache.invalidateIno ino } : CachedMount) = u
  have hmodify : (modify (fun t : CachedMount => { t with openCache := t.openCache.invalidateIno ino }) :
      CachedReq Unit) s = .ok () u := by
    rw [← hforgot]
    rfl
  have hmount : s.mount = u.mount := by rw [← hforgot]
  have hfile : s.writeFileActs ino offset data append = u.writeFileActs ino offset data append := by
    rw [← hforgot]
    rfl
  rw [after_bind_ok hmodify, after_bind_ok (rfl : (get : CachedReq CachedMount) u = .ok u u), hfile, hmount]
  cases u.mount.ctlFileOf ino with
  | none => exact manager_writeFile ino offset data append
  | some file =>
    simp only
    rw [after_bind_pure, after_onMount]
    exact manager_writeCtl file command u.mount

end

/-! ## Requests -/

section

variable {s : CachedMount} {α : Type}

theorem manager_answered (f : α → Reply) (x : MountReq α) :
    (after (answered f (onMount x)) s).mount.manager = (after x s.mount).manager := by
  rw [after_answered, after_onMount]

theorem manager_answered_quiet (f : α → Reply) {x : MountReq α} (hx : Keeps Quiet x) :
    (after (answered f (onMount x)) s).mount.manager = s.mount.manager := by
  rw [manager_answered]
  exact (hx s.mount).manager

theorem manager_queued {x : MountReq Job} (hx : Keeps Quiet x) :
    (after (queued x) s).mount.manager = s.mount.manager := by
  rw [after_queued]
  exact (hx s.mount).manager

/-- A rename forgets descriptors, and that is all it does beyond the mount. -/
theorem after_rename_mount (parent : Nat) (name : String) (newparent : Nat) (newname : String)
    (flags : RenameFlags) :
    (after (CachedMount.rename parent name newparent newname flags) s).mount =
      after (BranchFs.rename parent name newparent newname flags) s.mount := by
  unfold CachedMount.rename
  rw [after_bind_ok (rfl : (get : CachedReq CachedMount) s = .ok s s)]
  cases hrun : BranchFs.rename parent name newparent newname flags s.mount with
  | error e t => rw [after_bind_error (onMount_of_error hrun), after_error hrun]
  | ok u t =>
    rw [after_bind_ok (onMount_of_ok hrun), after_ok hrun]
    rw [after_bind_ok (rfl : (get : CachedReq CachedMount) _ = .ok _ _)]
    cases renamePaths parent name newparent newname s.mount with
    | error e v => rfl
    | ok paths v =>
      simp only
      cases t.inodes.getIno paths.dstInode <;> rfl

theorem after_setattr_mount (ino : Nat) (size : Option Nat) (a : SetAttr) :
    (after (CachedMount.setattr ino size a) s).mount = after (Faulty.setattr .absent ino size a) s.mount := by
  unfold CachedMount.setattr when
  cases size with
  | none =>
    show (after (onMount _) s).mount = _
    rw [after_onMount]
  | some n =>
    show (after (onMount _) _).mount = _
    rw [after_onMount]

/-- **A request is its acts.** -/
theorem manager_request (r : Request) (s : CachedMount) :
    (after r.run s).mount.manager = run act s.mount.manager (r.acts s) := by
  have hl := keptByNumbers_quiet
  cases r with
  | lookup parent name => exact manager_answered_quiet _ (hl.lookup parent name)
  | getattr ino => exact manager_answered_quiet _ (hl.getattr ino)
  | readdir order ino offset room => exact manager_answered_quiet _ (hl.readdir order ino offset room)
  | readlink ino => exact manager_answered_quiet _ (hl.readlink ino)
  | openFile ino flags => exact manager_answered_quiet _ (hl.openFile ino flags)
  | read ino offset size =>
    show (after (answered _ _) s).mount.manager = _
    rw [after_answered]
    exact (keptByReading_idle.read ino offset size s).mount.manager
  | write ino offset data append command =>
    rw [after_written]
    exact manager_write ino offset data append command
  | create parent name mode umask =>
    exact (manager_answered _ _).trans (manager_makeEntry parent (fun b dir => rfl) s.mount)
  | mkdir parent name mode umask =>
    exact (manager_answered _ _).trans (manager_makeEntry parent (fun b dir => rfl) s.mount)
  | symlink parent name target =>
    exact (manager_answered _ _).trans (manager_makeEntry parent (fun b dir => rfl) s.mount)
  | unlink parent name => exact manager_queued (hl.unlink parent name)
  | rmdir parent name => exact manager_queued (hl.rmdir parent name)
  | rename parent name newparent newname flags =>
    show (after (answered _ _) s).mount.manager = _
    rw [after_answered, after_rename_mount]
    exact manager_rename parent name newparent newname flags s.mount
  | setattr ino size attr =>
    show (after (answered _ _) s).mount.manager = _
    rw [after_answered, after_setattr_mount]
    exact manager_setattr ino size attr s.mount
  | ioctl ino command => exact (manager_answered _ _).trans (manager_ioctl ino command s.mount)

end

/-! ## Runs -/

theorem mountAt_manager {p : Process} {i : Nat} {s : CachedMount} (h : p.mountAt i = some s) :
    s.mount.manager = p.manager := by
  obtain ⟨u, -, rfl⟩ := Option.map_eq_some_iff.mp h
  rfl

theorem manager_take (p : Process) (i : Nat) (r : Request) :
    (p.take i r).manager = run act p.manager (p.acts (.request i r)) := by
  unfold Process.take Process.acts
  cases hs : p.mountAt i with
  | none =>
    simp only [hs]
    rfl
  | some s =>
    have hrequest := manager_request r s
    rw [mountAt_manager hs] at hrequest
    cases hrun : r.run s with
    | error e t =>
      rw [after_error hrun] at hrequest
      simp only [hs, hrun]
      exact hrequest
    | ok a t =>
      rw [after_ok hrun] at hrequest
      cases a <;> simp only [hs, hrun] <;> exact hrequest

theorem manager_work (p : Process) : p.work.manager = run act p.manager (p.acts .work) := by
  unfold Process.work Process.acts
  cases hqueue : p.queue with
  | nil =>
    simp only
    rfl
  | cons entry rest =>
    obtain ⟨i, job⟩ := entry
    cases hs : p.mountAt i with
    | none =>
      simp only [hs]
      rfl
    | some s =>
      simp only [hs, Option.isSome_some, if_true]
      rw [run_cons, run_nil, ← mountAt_manager hs]
      exact manager_job job s.mount

/-- An event moves the manager by its acts. -/
theorem drives_process : Drives Process.step Process.acts act Process.manager where
  step p e := by
    cases e with
    | mount branch mountpoint exposeControl =>
      unfold Process.step Process.addMount Process.acts
      cases hvalid : p.manager.isBranchValid branch with
      | true =>
        simp only [hvalid, if_true]
        rfl
      | false =>
        simp only [hvalid, Bool.false_eq_true, if_false]
        rfl
    | unmount mountpoint => rfl
    | request i r => exact manager_take p i r
    | work => exact manager_work p
    | manager op => rfl

/-- **The manager of a process goes through the acts of its events and through nothing else**, whatever
mounts, jobs and kept descriptors come in between. -/
theorem manager_run (p : Process) (events : List Event) :
    (run Process.step p events).manager = run act p.manager (p.trace events) := drives_process.run p events

end BranchFs
