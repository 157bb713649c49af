/-
# BranchFs.Isolate.Handlers -- the handlers of a mount leave other branches alone

Writes and attribute changes open the delta path by name and follow a link that stands there, so
they need more than the other handlers: no link at the delta path, and none that copy-on-write would
bring there (`Plainly`). Unlink, rmdir, symlink and rename need only a way free of links. `Contained`
says for each handler which it is, and `isolated_fileOp` that this is enough.
-/
import BranchFs.Isolate.Frame

namespace BranchFs

open BranchFs.Posix BranchFs.Logic

variable {name : String} {S S' : Set Place} {α : Type} {p : RelPath}

/-! ## Writing -/

section Write

variable (hway : WayIn S (deltaPath name p)) (hpriv : privatePlaces name ⊆ S)

theorem framed_writeDataToFile {l : Place} {r : Root} (hr : l.root = some r)
    (hown : Own name l.root) (hl : WayIn S l) (hin : l ∈ S) (offset : Nat) (data : Bytes) :
    Framed (Inside (Own name)) (Guard S) (Guard S) (writeDataToFile l offset data) := by
  refine framed_bind (R := Inside (Own name)) (fun _ _ _ h h' => h.trans h')
    (Posix.Sys.framed_openWrite hr hown hl hin) ?_ fun _ h => h
  intro h d d' hd ho
  have hroot := Posix.Sys.openWrite_root true false hr (hd.noLinkAbove hl) (hd l hin) ho
  exact Posix.Sys.framed_mapFile (by rw [hroot]; exact hown)

include hpriv in
theorem private_way {l : Place} (hl : l ∈ privatePlaces name) : WayIn S l := by
  intro a ha _
  refine hpriv ?_
  show a.root = _ ∨ a.root = _
  rw [Loc.root_eq_of_le ha]
  exact hl

theorem stageWrite_eq (branch : String) (src delta : Place) (offset : Nat) (data : Bytes) :
    stageWrite branch src delta offset data = fun d =>
      match stageWriteCalls branch src delta offset data d with
      | .ok r d' => .ok r d'
      | .error e d' => .error e (after (Posix.Sys.removeFile (stagingPath branch)) d') := rfl

include hway hpriv in
theorem framed_stageWrite (src : Place) (offset : Nat) (data : Bytes) :
    Framed (Inside (Own name)) (Guard S) (Guard S)
      (stageWrite name src (deltaPath name p) offset data) := by
  have hst : stagingPath name ∈ privatePlaces name := Or.inl rfl
  have hstWay : WayIn S (stagingPath name) := private_way hpriv hst
  have htrans : ∀ s t u : Tree, Inside (Own name) s t → Inside (Own name) t u →
      Inside (Own name) s u := fun _ _ _ h h' => h.trans h'
  have hcalls : Framed (Inside (Own name)) (Guard S) (Guard S)
      (stageWriteCalls name src (deltaPath name p) offset data) := by
    refine framed_bind htrans (Posix.Sys.framed_copyFile src rfl (own_staging name) hstWay
      (hpriv hst)) (fun _ _ _ _ _ => ?_) fun _ h => h
    refine framed_bind htrans (framed_writeDataToFile rfl (own_staging name) hstWay (hpriv hst)
      offset data) (fun written _ _ _ _ => ?_) fun _ h => h
    refine framed_bind htrans (framed_read (fun d => SameOn.refl _ d) (after_lenAt _))
      (fun finalLen _ _ _ _ => ?_) fun _ h => h
    refine framed_bind htrans (Posix.Sys.framed_rename rfl rfl (own_staging name)
      (own_files name) hstWay hway fun x hx => ⟨hx, fun _ => hpriv (Or.inl rfl)⟩)
      (fun _ _ _ _ _ => ?_) fun _ h => h
    exact framed_pure (fun d => SameOn.refl _ d) (fun _ h => h) _
  rw [stageWrite_eq]
  refine framed_cleanup htrans ?_ ?_ hcalls
    (Posix.Sys.framed_removeFile rfl (own_staging name) hstWay)
  · intro d r d' h
    simp only [after, h]
  · intro d e d' h
    simp only [after, h]

theorem framed_whenQuota (c : Prop) [Decidable c] {x : Mgr Unit}
    (hx : Framed (Isolated name) (Clear S) (Clear S) x) :
    Framed (Isolated name) (Clear S) (Clear S) (when c x) :=
  framed_when (Isolated.refl name) c fun _ => hx

include hway hpriv in
theorem framed_writeFirstCopy (src : Place) (srcLen : UInt64) (offset : Nat) (data : Bytes) :
    Framed (Isolated name) (Clear S) (Clear S)
      (writeFirstCopy name p src srcLen offset data) := by
  refine framed_seq (framed_quotaCheck _) (fun _ => ?_) fun _ h => h
  refine framed_seq (framed_onDisk (framed_ensureParentDirs rfl (own_files name) hway))
    (fun _ => ?_) fun _ h => h
  refine framed_seq (framed_onDisk (framed_stageWrite hway hpriv src offset data)) (fun _ => ?_)
    fun _ h => h
  refine framed_seq (framed_quotaAdd _) (fun _ => ?_) fun _ h => h
  exact framed_seq (framed_removeTombstone p)
    (fun _ => framed_pure (Isolated.refl name) (fun _ h => h) _) fun _ h => h

variable (hin : deltaPath name p ∈ S)

include hway hin

theorem framed_writeInPlace (offset : Nat) (data : Bytes) :
    Framed (Isolated name) (Clear S) (Clear S) (writeInPlace name p offset data) := by
  refine framed_seq (framed_removeTombstone p) (fun _ => ?_) fun _ h => h
  refine framed_seq (framed_readDisk _) (fun oldSize => ?_) fun _ h => h
  refine framed_seq (framed_whenQuota _ (framed_quotaCheck _)) (fun _ => ?_) fun _ h => h
  refine framed_seq (framed_onDisk (framed_writeDataToFile rfl (own_files name) hway hin
    offset data)) (fun written => ?_) fun _ h => h
  refine framed_seq (framed_readDisk _) (fun newSize => ?_) fun _ h => h
  exact framed_seq (framed_whenQuota _ (framed_quotaAdd _))
    (fun _ => framed_pure (Isolated.refl name) (fun _ h => h) _) fun _ h => h

theorem framed_writeFirstPlain (offset : Nat) (data : Bytes) :
    Framed (Isolated name) (Clear S) (Clear S) (writeFirstPlain name p offset data) :=
  framed_seq (framed_onDisk (framed_ensureParentDirs rfl (own_files name) hway))
    (fun _ => framed_writeInPlace hway hin offset data) fun _ h => h

include hpriv

theorem framed_writeFirst (offset : Nat) (data : Bytes) (inherited : Option Place)
    (hsrc : ∀ src, inherited = some src → (∃ r, src.root = some r) ∧ ∀ a, a ≤ src → a ∈ S) :
    Framed (Isolated name) (Clear S) (Clear S) (writeFirst name p offset data inherited) := by
  cases inherited with
  | none => exact framed_writeFirstPlain hway hin offset data
  | some src =>
    refine framed_seq (framed_readDisk _) (fun found => ?_) fun _ h => h
    cases found with
    | error e => exact framed_writeFirstPlain hway hin offset data
    | ok n =>
      show Framed (Isolated name) (Clear S) (Clear S) (writeFirstNode name p src n offset data)
      unfold writeFirstNode
      by_cases hk : n.kind.isFile = true
      · rw [if_pos hk]
        exact framed_writeFirstCopy hway hpriv src (metaLen n) offset data
      · rw [if_neg hk]
        refine framed_seq (framed_when (Isolated.refl name) _ fun _ => ?_) (fun _ => ?_) fun _ h => h
        · exact framed_copyUpNode hway hin (fun _ h => h) fun _ => hsrc src rfl
        · exact framed_writeFirstPlain hway hin offset data

/-- **The write of the worker is isolated** where it finds no link and brings none up. -/
theorem framed_writeDataToBranch (offset : Int) (data : Bytes) :
    Framed (Isolated name) (CowReady S name p) (Clear S)
      (writeDataToBranch name p offset data) := by
  unfold writeDataToBranch
  split
  · exact framed_throw (Isolated.refl name) (fun _ h => h.clear) _
  split
  · exact framed_throw (Isolated.refl name) (fun _ h => h.clear) _
  refine framed_at fun m hready => ?_
  have hstart : ∀ s : Manager, s = m → Clear S s := fun s hs => hs ▸ hready.clear
  refine framed_look (Isolated.refl name) (after_writableBranch name m) ?_ hready.clear
  intro _ _
  refine framed_look (Isolated.refl name) rfl ?_ hready.clear
  intro there hthere
  have hval : m.disk.lexists (deltaPath name p) = there := by
    simpa [readDisk] using hthere
  cases there with
  | true =>
    rw [if_pos rfl]
    exact (framed_writeInPlace hway hin _ data).mono hstart fun _ h => h
  | false =>
    rw [if_neg (by simp)]
    refine framed_look (Isolated.refl name) (after_inheritedForTouch name p m) ?_ hready.clear
    intro inherited hread
    refine (framed_seq (framed_recordFirstTouch (fun _ => hpriv) p inherited)
      (fun _ => framed_writeFirst hway hpriv hin _ data inherited ?_) fun _ h => h).mono hstart
      fun _ h => h
    rintro src rfl
    unfold inheritedForTouch at hread
    cases hb : m.forest.get? name with
    | none => simp [hb] at hread
    | some b =>
      simp only [hb, EStateM.Result.ok.injEq, and_true] at hread
      exact ⟨root_of_inheritedForTouch hb hread, hready.plain hin hval b hb src hread⟩

end Write

/-! ## Requests -/

theorem after_asReq (f : BranchError → Errno) (x : Mgr α) (m : Manager) :
    after (asReq f x) m = after x m := by
  unfold after asReq
  cases x m <;> rfl

section Requests

variable {P Q : Manager → Prop}

theorem framed_asReq (f : BranchError → Errno) {x : Mgr α} (h : Framed (Isolated name) P Q x) :
    Framed (Isolated name) P Q (asReq f x) := by
  intro m hm
  rw [after_asReq]
  exact h m hm

theorem framed_ioOrEio {x : Io α} (h : Framed (Inside (Own name)) (Guard S) (Guard S') x) :
    Framed (Isolated name) (Clear S) (Clear S') (ioOrEio x) :=
  framed_asReq _ (framed_onDisk h)

theorem framed_ignoring {x : Io α} (h : Framed (Inside (Own name)) (Guard S) (Guard S) x) :
    Framed (Isolated name) (Clear S) (Clear S) (ignoring x) :=
  framed_seq (framed_attempt (framed_ioOrEio h))
    (fun _ => framed_pure (Isolated.refl name) (fun _ h => h) _) fun _ h => h

theorem framed_readReq (f : Manager → α) : Framed (Isolated name) P P (readReq f) :=
  framed_read (Isolated.refl name) fun _ => rfl

end Requests

section Handlers

variable (hway : WayIn S (deltaPath name p)) (hpriv : privatePlaces name ⊆ S)

include hway hpriv

theorem framed_ensureCowForBranch :
    Framed (Isolated name) (CowReady S name p) (Clear S) (ensureCowForBranch name p) :=
  framed_asReq _ (framed_ensureDeltaPathForWrite hway hpriv)

theorem ensureCowForBranch_spec {m m' : Manager} {l : Place} (hready : CowReady S name p m)
    (h : ensureCowForBranch name p m = .ok l m') :
    l = deltaPath name p ∧
      ∀ a, a ≤ deltaPath name p → a ≠ deltaPath name p → m'.disk.kindAt a = some .dir := by
  unfold ensureCowForBranch asReq at h
  cases hx : ensureDeltaPathForWrite name p m with
  | ok a s =>
    simp only [hx, EStateM.Result.ok.injEq] at h
    rw [← h.1, ← h.2]
    exact ensureDeltaPathForWrite_spec hway hpriv hready hx
  | error e s => simp [hx] at h

/-- A handler that goes on with the delta path. -/
theorem framed_afterCow {f : Place → Req α} {U : Manager → Prop}
    (hf : Framed (Isolated name) (Clear S) U (f (deltaPath name p)))
    (hU : ∀ m, Clear S m → U m) :
    Framed (Isolated name) (CowReady S name p) U (ensureCowForBranch name p >>= f) := by
  refine framed_bind (R := Isolated name) (fun _ _ _ h h' => h.trans h')
    (framed_ensureCowForBranch hway hpriv) ?_ hU
  intro l m m' hm hok
  rw [(ensureCowForBranch_spec hway hpriv hm hok).1]
  exact hf

/-- A handler that passes over a failed copy-on-write. -/
theorem framed_afterTriedCow {f : Except Errno Place → Req Unit}
    (hf : Framed (Isolated name) (Clear S) (Clear S) (f (.ok (deltaPath name p))))
    (he : ∀ e, Framed (Isolated name) (Clear S) (Clear S) (f (.error e))) :
    Framed (Isolated name) (CowReady S name p) (Clear S)
      (attempt (ensureCowForBranch name p) >>= f) := by
  refine framed_bind (R := Isolated name) (fun _ _ _ h h' => h.trans h')
    (framed_attempt (framed_ensureCowForBranch hway hpriv)) ?_ fun _ h => h
  intro r m m' hm hok
  cases r with
  | error e => exact he e
  | ok l =>
    have hl : l = deltaPath name p := by
      unfold attempt at hok
      cases hx : ensureCowForBranch name p m with
      | ok a s =>
        simp only [hx, EStateM.Result.ok.injEq, Except.ok.injEq] at hok
        rw [← hok.1]
        exact (ensureCowForBranch_spec hway hpriv hm hx).1
      | error e s => simp [hx] at hok
    rw [hl]
    exact hf

theorem framed_makeSymlink (target : Target) (hout : deltaPath name p ∉ S) :
    Framed (Isolated name) (CowReady S name p) (Clear S) (makeSymlink name p target) := by
  refine framed_afterCow hway hpriv ?_ fun _ h => h
  refine framed_seq (framed_ioOrEio (framed_ensureParentDirs rfl (own_files name) hway))
    (fun _ => ?_) fun _ h => h
  exact framed_ioOrEio (Posix.Sys.framed_symlink rfl (own_files name) hway fun x hx =>
    ⟨hx, fun heq => hout (heq ▸ hx)⟩)

variable (hin : deltaPath name p ∈ S)

include hin

omit hpriv in
theorem framed_setPermissions (mode : Nat) :
    Framed (Inside (Own name)) (Guard S) (Guard S)
      (Posix.Sys.setPermissions (deltaPath name p) mode) :=
  Posix.Sys.framed_setAttr rfl (own_files name) hway hin

theorem framed_createFile (mode : Nat) :
    Framed (Isolated name) (CowReady S name p) (Clear S) (createFile name p mode) := by
  refine framed_afterCow hway hpriv ?_ fun _ h => h
  refine framed_seq (framed_ioOrEio (framed_ensureParentDirs rfl (own_files name) hway))
    (fun _ => ?_) fun _ h => h
  refine framed_seq (framed_ioOrEio (Posix.Sys.framed_openWrite rfl (own_files name) hway hin))
    (fun _ => ?_) fun _ h => h
  exact framed_ignoring (framed_setPermissions hway hin mode)

theorem framed_makeDir (mode : Nat) :
    Framed (Isolated name) (CowReady S name p) (Clear S) (makeDir name p mode) := by
  refine framed_afterCow hway hpriv ?_ fun _ h => h
  refine framed_seq (framed_ioOrEio (Posix.Sys.framed_createDirAll rfl (own_files name) hway hin))
    (fun _ => ?_) fun _ h => h
  exact framed_ignoring (framed_setPermissions hway hin mode)

omit hpriv in
theorem framed_applySetattr (a : SetAttr) :
    Framed (Isolated name) (Clear S) (Clear S) (applySetattr (deltaPath name p) a) := by
  have hmode : Framed (Isolated name) (Clear S) (Clear S) (applyMode (deltaPath name p) a.mode) := by
    cases a.mode with
    | none => exact framed_pure (Isolated.refl name) (fun _ h => h) _
    | some m => exact framed_ignoring (framed_setPermissions hway hin m)
  refine framed_seq hmode (fun _ => ?_) fun _ h => h
  refine framed_seq (framed_when (Isolated.refl name) _ fun _ => framed_ignoring
    (Posix.Sys.framed_setAttr rfl (own_files name) hway hin)) (fun _ => ?_) fun _ h => h
  refine framed_when (Isolated.refl name) _ fun _ => framed_ignoring fun d hd => ?_
  exact Posix.Sys.framed_setAttr rfl (own_files name) hway hin d hd

theorem framed_setAttrPath (a : SetAttr) :
    Framed (Isolated name) (CowReady S name p) (Clear S) (setAttrPath name p a) :=
  framed_afterTriedCow hway hpriv (framed_applySetattr hway hin a)
    fun _ => framed_pure (Isolated.refl name) (fun _ h => h) _

omit hway hpriv hin in
theorem framed_setHandleLen {h : FileHandle} (hown : Own name h.root) (newSize : Nat) :
    Framed (Isolated name) (Clear S) (Clear S) (setHandleLen h newSize) := by
  refine framed_seq (framed_readReq _) (fun oldSize => ?_) fun _ h => h
  refine framed_seq (framed_when (Isolated.refl name) _ fun _ =>
    framed_asReq _ (framed_quotaCheck _)) (fun _ => ?_) fun _ h => h
  refine framed_seq (framed_ignoring (Posix.Sys.framed_mapFile hown)) (fun _ => ?_) fun _ h => h
  split
  · exact framed_asReq _ (framed_quotaAdd _)
  · split
    · exact framed_asReq _ (framed_quotaSub _)
    · exact framed_pure (Isolated.refl name) (fun _ h => h) _

omit hpriv in
/-- A file opened at the delta path lies in the branch's own tree. -/
theorem own_of_opened {create : Bool} {m m' : Manager} {h : FileHandle} (hm : Clear S m)
    (hok : ioOrEio (Posix.Sys.openWrite (deltaPath name p) create false) m = .ok h m') :
    Own name h.root := by
  unfold ioOrEio asReq onDisk at hok
  cases hx : Posix.Sys.openWrite (deltaPath name p) create false m.disk with
  | ok a d =>
    simp only [hx, EStateM.Result.ok.injEq] at hok
    have hroot := Posix.Sys.openWrite_root create false (r := .files name) rfl
      (hm.noLinkAbove hway) (hm _ hin) hx
    rw [← hok.1, hroot]
    exact own_files name
  | error e d => simp [hx] at hok

theorem framed_truncatePath (newSize : Nat) :
    Framed (Isolated name) (CowReady S name p) (Clear S) (truncatePath name p newSize) := by
  have hidle : Framed (Isolated name) (Clear S) (Clear S) (pure () : Req Unit) :=
    framed_pure (Isolated.refl name) (fun _ h => h) _
  refine framed_afterTriedCow hway hpriv ?_ fun _ => hidle
  refine framed_bind (R := Isolated name) (fun _ _ _ h h' => h.trans h')
    (framed_attempt (framed_ioOrEio (Posix.Sys.framed_openWrite rfl (own_files name) hway hin))) ?_
    fun _ h => h
  intro r m m' hm hok
  cases r with
  | error e => exact hidle
  | ok h =>
    refine framed_setHandleLen ?_ newSize
    unfold attempt at hok
    cases hx : ioOrEio (Posix.Sys.openWrite (deltaPath name p) false false) m with
    | ok a s =>
      simp only [hx, EStateM.Result.ok.injEq, Except.ok.injEq] at hok
      rw [← hok.1]
      exact own_of_opened hway hin hm hx
    | error e s => simp [hx] at hok

omit hway hpriv hin in
theorem framed_writeThrough {h : FileHandle} (hown : Own name h.root) (offset : Nat)
    (data : Bytes) : Framed (Isolated name) (Clear S) (Clear S) (writeThrough h offset data) := by
  refine framed_seq (framed_readReq _) (fun oldSize => ?_) fun _ h => h
  refine framed_seq (framed_when (Isolated.refl name) _ fun _ =>
    framed_asReq _ (framed_quotaCheck _)) (fun _ => ?_) fun _ h => h
  refine framed_seq (framed_ioOrEio (Posix.Sys.framed_mapFile hown)) (fun n => ?_) fun _ h => h
  exact framed_seq (framed_when (Isolated.refl name) _ fun _ => framed_asReq _ (framed_quotaAdd _))
    (fun _ => framed_pure (Isolated.refl name) (fun _ h => h) _) fun _ h => h

theorem framed_write (offset : Nat) (data : Bytes) :
    Framed (Isolated name) (CowReady S name p) (Clear S)
      (do
        let h ← openForWrite name p
        let _ ← writeThrough h offset data : Req Unit) := by
  refine framed_bind (R := Isolated name) (Q := Clear S) (fun _ _ _ h h' => h.trans h') ?_ ?_
    fun _ h => h
  · exact framed_afterCow hway hpriv (framed_ioOrEio (Posix.Sys.framed_openWrite rfl
      (own_files name) hway hin)) fun _ h => h
  · intro h m m' hm hok
    refine framed_seq (framed_writeThrough ?_ offset data)
      (fun _ => framed_pure (Isolated.refl name) (fun _ h => h) _) fun _ h => h
    obtain ⟨l, m₁, hcow, hopen⟩ := bind_eq_ok hok
    rw [(ensureCowForBranch_spec hway hpriv hm hcow).1] at hopen
    have hclear : Clear S m₁ := by
      have := (framed_ensureCowForBranch hway hpriv m hm).2
      rwa [after_ok hcow] at this
    exact own_of_opened hway hin hclear hopen

end Handlers

/-! ## Rename -/

theorem sameSettings_renameTombstones (src dst : RelPath) (i e : Bool) (b : Branch) :
    SameSettings b (renameTombstones src dst i e b) := by
  have hremove : ∀ (q : RelPath) (c : Branch), SameSettings c (c.removeTombstone q) :=
    fun _ _ => ⟨rfl, rfl, rfl, rfl, rfl, rfl, rfl⟩
  have hsrc : SameSettings b (if i then b.addTombstone src else b.removeTombstone src) := by
    cases i
    · exact hremove src b
    · exact sameSettings_addTombstone src b
  unfold renameTombstones
  refine SameSettings.trans (hsrc.trans ?_) (hremove dst _)
  cases e
  · exact SameSettings.refl _
  · exact sameSettings_addTombstone dst _

section Rename

variable {src dst : RelPath}

theorem framed_clearDestination (hway : WayIn S (deltaPath name dst)) :
    Framed (Isolated name) (Clear S) (Clear S) (clearDestination name dst) := by
  refine framed_seq (framed_readReq _) (fun there => ?_) fun _ h => h
  refine framed_seq (framed_readReq _) (fun isDir => ?_) fun _ h => h
  refine framed_when (Isolated.refl name) _ fun _ => ?_
  split
  · exact framed_ignoring (Posix.Sys.framed_removeDirAll rfl (own_files name) hway)
  · exact framed_ignoring (Posix.Sys.framed_removeFile rfl (own_files name) hway)

/-- The part of a rename after both copies are there. -/
theorem framed_renameRest (hsrc : WayIn S (deltaPath name src))
    (hdst : WayIn S (deltaPath name dst)) (srcInherited : Bool) :
    Framed (Isolated name) (Clear S) (Clear ∅) (do
      ioOrEio (Io.ensureParentDirs (deltaPath name dst))
      let dstExisted ← readReq fun m => (m.resolved name dst).isSome
      when dstExisted (clearDestination name dst)
      ioOrEio (Posix.Sys.rename (deltaPath name src) (deltaPath name dst))
      asReq (fun _ => Errno.EIO) do
        let _ ← getBranch name
        modifyBranch name (renameTombstones src dst srcInherited dstExisted) : Req Unit) := by
  have hempty : ∀ m, Clear S m → Clear ∅ m := fun m hm => hm.mono (Set.empty_subset S)
  refine framed_seq (framed_ioOrEio (framed_ensureParentDirs rfl (own_files name) hdst))
    (fun _ => ?_) hempty
  refine framed_seq (framed_readReq _) (fun dstExisted => ?_) hempty
  refine framed_seq (framed_when (Isolated.refl name) _ fun _ => framed_clearDestination hdst)
    (fun _ => ?_) hempty
  refine framed_seq (framed_ioOrEio (Posix.Sys.framed_rename rfl rfl (own_files name)
    (own_files name) hsrc hdst fun x (hx : x ∈ (∅ : Set Place)) =>
      absurd hx (Set.notMem_empty x))) (fun _ => ?_)
    fun _ h => h
  exact framed_asReq _ (framed_seq (framed_read (Isolated.refl name) (after_getBranch name))
    (fun _ => framed_modify (sameSettings_renameTombstones src dst srcInherited dstExisted))
    fun _ h => h)

/-- **A rename is isolated**: it moves what stands at its two places and follows neither, so only
the ways matter; a name above the other lies on the way to it. -/
theorem framed_renamePath (hsrc : WayIn S (deltaPath name src))
    (hdst : WayIn S (deltaPath name dst)) (hpriv : privatePlaces name ⊆ S)
    (hbelow : deltaPath name dst ∈ S → deltaPath name dst ≤ deltaPath name src ∧
      deltaPath name dst ≠ deltaPath name src) (noReplace : Bool) :
    Framed (Isolated name) (CowReady S name src) (Clear ∅)
      (renamePath name src dst noReplace) := by
  have hempty : ∀ m, Clear S m → Clear ∅ m := fun m hm => hm.mono (Set.empty_subset S)
  have hready : ∀ m, CowReady S name src m → Clear ∅ m := fun m hm => hempty m hm.clear
  unfold renamePath failIf
  refine framed_seq (framed_readReq _) (fun srcThere => ?_) hready
  refine framed_seq (framed_when (Isolated.refl name) _ fun _ =>
    framed_throw (Isolated.refl name) (fun _ h => h) _) (fun _ => ?_) hready
  refine framed_seq (framed_readReq _) (fun srcInherited => ?_) hready
  refine framed_seq (framed_readReq _) (fun dstThere => ?_) hready
  refine framed_seq (framed_when (Isolated.refl name) _ fun _ =>
    framed_throw (Isolated.refl name) (fun _ h => h) _) (fun _ => ?_) hready
  refine framed_bind_at (R := Isolated name) (fun _ _ _ h h' => h.trans h')
    (framed_ensureCowForBranch hsrc hpriv) ?_ hempty
  intro l m m₁ hm hok hclear
  obtain ⟨rfl, hdirs⟩ := ensureCowForBranch_spec hsrc hpriv hm hok
  -- a directory made for the source is no place a link could be brought to
  have hcow : CowReady S name dst m₁ := by
    refine ⟨hclear, fun hmem hfree => ?_⟩
    obtain ⟨hle, hne⟩ := hbelow hmem
    have hex := Disk.lexists_eq (d := m₁.disk) (l := deltaPath name dst) rfl
      (hclear.noLinkAbove hdst)
    rw [hfree, hdirs _ hle hne] at hex
    simp at hex
  exact (framed_afterCow hdst hpriv (framed_renameRest hsrc hdst srcInherited) hempty).mono
    (fun t ht => ht ▸ hcow) fun _ h => h

end Rename

end BranchFs
