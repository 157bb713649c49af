/-
# BranchFs.Quota.Exact -- the counter along a run

A deletion takes off the counter what the delta entry measures, whether it was ever charged or not: a link
made by `symlink` is not, nor is what a merge leaves in a parent's delta. A run in which nothing is freed
beyond what the counter holds, and whose charges stay below 2^63, keeps the counter exact; the test is then
the one on the integers wherever its own sum does not wrap.
-/
import BranchFs.Quota.Charges
import BranchFs.Quota.Unpriced

namespace BranchFs

open BranchFs.Posix BranchFs.Logic

/-! ## What is freed -/

/-- What the deletion of the delta entry at `p` takes off the counter. -/
def Manager.freedAt (m : Manager) (name : String) (p : RelPath) : UInt64 :=
  match m.disk.lstat (deltaPath name p) with
  | .error _ => 0
  | .ok n => if n.kind.isDir then dirSize m.disk (deltaPath name p) else metaLen n

/-- The length of the file that opens at a place. -/
def Manager.openLen (m : Manager) (l : Place) : Nat :=
  match Posix.Sys.openWrite l false false m.disk with
  | .ok h d => (handleLen d h).toNat
  | .error _ _ => 0

/-- The state a truncation frees in, once copy-on-write has run. -/
def FileOp.footing (name : String) (m : Manager) : FileOp → Manager
  | .truncate p _ => after (ensureDeltaPathForWrite name p) m
  | _ => m

/-- The bytes an operation takes off the counter. -/
def FileOp.frees (name : String) (m : Manager) : FileOp → Nat
  | .unlink dir n => (m.freedAt name (dir ++ [n])).toNat
  | .rmdir dir n =>
    if (resultOf (checkEmptyDir name (dir ++ [n])) m).isSome then (m.freedAt name (dir ++ [n])).toNat
    else 0
  | .truncate p size =>
    (FileOp.footing name m (.truncate p size)).openLen (deltaPath name p) - size
  | _ => 0

def Op.footing (m : Manager) : Op → Manager
  | .file name op => if m.isBranchWritable name then op.footing name m else m
  | _ => m

def Op.frees (m : Manager) : Op → Nat
  | .revert name p => if m.isBranchWritable name ∧ p ≠ [] then (m.freedAt name p).toNat else 0
  | .file name op => if m.isBranchWritable name then op.frees name m else 0
  | _ => 0

/-- How far into a file an operation reaches. -/
def FileOp.reach : FileOp → Nat
  | .symlink _ _ target => (targetText target).utf8ByteSize
  | .writeByWorker _ offset data => offset.toNat + data.length
  | .write _ offset data => offset + data.length
  | .writeCached _ offset data => offset + data.length
  | .truncate _ size => size
  | _ => 0

def Op.reach : Op → Nat
  | .file _ op => op.reach
  | _ => 0

/-- The longest entry of the host. -/
def Manager.longest (m : Manager) : Nat :=
  ((m.disk.entries.map fun e => entryLen e.2.kind) ++
    m.disk.orphans.map fun o => entryLen o.2.kind).foldr max 0

/-- The bound on everything an operation may charge for. -/
def Op.bound (m : Manager) (op : Op) : Nat := max m.longest op.reach

/-- The counter holds what the operation frees, and has room for what it may charge. -/
def Op.Metered (m : Manager) (op : Op) : Prop :=
  (op.frees m : Int) ≤ (op.footing m).quota.used ∧ m.quota.used + 2 * op.bound m < 2 ^ 63

instance (m : Manager) (op : Op) : Decidable (op.Metered m) := inferInstanceAs (Decidable (_ ∧ _))

section Freed

variable {α : Type} {B : Nat} {m : Manager} {name : String} {p : RelPath}

theorem Manager.within_longest (m : Manager) {B : Nat} (h : m.longest ≤ B) : m.Within B := by
  have hle : ∀ (ns : List Nat), ∀ n ∈ ns, n ≤ ns.foldr max 0 := by
    intro ns
    induction ns with
    | nil => simp
    | cons a ns ih =>
      intro n hn
      rcases List.mem_cons.mp hn with rfl | hn
      · exact le_max_left ..
      · exact (ih n hn).trans (le_max_right ..)
  constructor
  · intro e he
    refine (hle _ _ (List.mem_append_left _ (List.mem_map.mpr ⟨e, he, rfl⟩))).trans h
  · intro o ho
    refine (hle _ _ (List.mem_append_right _ (List.mem_map.mpr ⟨o, ho, rfl⟩))).trans h

/-- The operation takes off the counter what the delta entry at `p` measures, or nothing. -/
def Frees (name : String) (p : RelPath) (x : Mgr α) : Prop :=
  ∀ m, (after x m).quota = m.quota ∨ (after x m).quota = m.quota.sub (m.freedAt name p)

/-- The host and the counter are what they were. -/
def SameHost (m m' : Manager) : Prop := m'.disk = m.disk ∧ m'.quota = m.quota

theorem frees_after {β : Type} {x : Mgr β} {f : β → Mgr α} (hx : Keeps SameHost x)
    (hf : ∀ a, Frees name p (f a)) : Frees name p (x >>= f) := by
  intro m
  have hsame := hx m
  cases hrun : x m with
  | error e m₁ =>
    rw [after_error hrun] at hsame
    rw [after_bind_error hrun]
    exact Or.inl hsame.2
  | ok a m₁ =>
    rw [after_ok hrun] at hsame
    have hfreed : m₁.freedAt name p = m.freedAt name p := by
      unfold Manager.freedAt
      rw [hsame.1]
    rw [after_bind_ok hrun, ← hsame.2, ← hfreed]
    exact hf a m₁

theorem frees_before {β : Type} {x : Mgr β} {f : β → Mgr α} (hx : Frees name p x)
    (hf : ∀ a, Unpriced (f a)) : Frees name p (x >>= f) := by
  intro m
  have hx := hx m
  cases hrun : x m with
  | error e m₁ =>
    rw [after_error hrun] at hx
    rw [after_bind_error hrun]
    exact hx
  | ok a m₁ =>
    rw [after_ok hrun] at hx
    have hquota : (after (f a) m₁).quota = m₁.quota := hf a m₁
    rw [after_bind_ok hrun, hquota]
    exact hx

theorem sameHost_still {x : Mgr α} (h : ∀ m, after x m = m) : Keeps SameHost x :=
  fun m => ⟨by rw [h], by rw [h]⟩

/-- **The removal of a delta entry** frees what the entry measures. -/
theorem frees_removeDelta (name : String) (p : RelPath) : Frees name p (removeDelta name p) := by
  intro m
  unfold removeDelta Manager.freedAt
  cases hl : m.disk.lstat (deltaPath name p) with
  | error e =>
    left
    rw [after_bind_ok (show readDisk (fun d => d.lstat (deltaPath name p)) m = .ok (.error e) m by
      simp only [readDisk, hl])]
    rfl
  | ok n =>
    rw [after_bind_ok (show readDisk (fun d => d.lstat (deltaPath name p)) m = .ok (.ok n) m by
      simp only [readDisk, hl])]
    show (after (removeDeltaNode name p n) m).quota = _ ∨ (after (removeDeltaNode name p n) m).quota = _
    unfold removeDeltaNode
    rw [after_bind_ok (show readDisk (fun d => if n.kind.isDir then dirSize d (deltaPath name p)
      else metaLen n) m = .ok _ m from rfl)]
    cases hrem : onDisk (Io.removeEntry (deltaPath name p)) m with
    | error e m₁ =>
      left
      rw [after_bind_error hrem]
      exact (unpriced_onDisk _).error hrem
    | ok a m₁ =>
      right
      have hm₁ : m₁.quota = m.quota := (unpriced_onDisk _).ok hrem
      rw [after_bind_ok hrem, after_bind_ok (show quotaSub _ m₁ = .ok () _ from rfl)]
      have hprune := unpriced_prune name p.length p.dropLast
        { m₁ with quota := m₁.quota.sub (if n.kind.isDir then dirSize m.disk (deltaPath name p)
          else metaLen n) }
      rw [show (after (pruneEmptyDeltaParents name p.length p.dropLast) _).quota = _ from hprune, hm₁]

/-- The record of a deletion keeps no contents. -/
theorem sameHost_recordFirstTouch (inherited : Option Place) :
    Keeps SameHost (recordFirstTouch name p inherited false) := by
  refine keeps_bind (fun _ _ _ h h' => ⟨h'.1.trans h.1, h'.2.trans h.2⟩)
    (sameHost_still (after_getBranch name)) fun b => ?_
  split
  · exact fun m => ⟨rfl, rfl⟩
  · exact fun m => ⟨rfl, rfl⟩

theorem frees_deleteTouched (name : String) (p : RelPath) : Frees name p (deleteTouched name p) := by
  refine frees_after (sameHost_still (after_inheritedForTouch name p)) fun inherited => ?_
  refine frees_after (sameHost_recordFirstTouch inherited) fun _ => ?_
  refine frees_before (frees_removeDelta name p) fun _ => ?_
  split
  · exact unpriced_modifyBranch name _
  · exact unpriced_modifyBranch name _

theorem frees_delete (name : String) (p : RelPath) : Frees name p (deletePathInBranch name p) :=
  frees_after (sameHost_still (after_writableBranch name)) fun _ => frees_deleteTouched name p

theorem frees_revert (name : String) (p : RelPath) : Frees name p (revertPathInBranch name p) := by
  refine frees_after (keeps_failIf (fun _ => ⟨rfl, rfl⟩) _ _) fun _ => ?_
  refine frees_after (sameHost_still (after_writableBranch name)) fun _ => ?_
  refine frees_before (frees_removeDelta name p) fun _ => ?_
  refine unpriced_bind (unpriced_modifyBranch name _) fun _ => ?_
  exact unpriced_bind (unpriced_removeTouchRecordsUnder name p) fun _ => unpriced_bumpEpoch

/-- A revert of the root, or of a branch that may not be written, does nothing. -/
theorem revert_refused (h : ¬ (m.isBranchWritable name = true ∧ p ≠ [])) :
    after (revertPathInBranch name p) m = m := by
  unfold revertPathInBranch
  by_cases hp : p = []
  · rw [after_bind_error (failIf_error (by simp [hp]) _ m)]
  · have hw : m.isBranchWritable name = false := by simpa [hp] using h
    rw [after_bind_ok (failIf_ok (by simpa using hp) _ m)]
    have hno : ∃ e, writableBranch name m = .error e m := by
      unfold Manager.isBranchWritable at hw
      unfold writableBranch
      cases hb : m.forest.get? name with
      | none => exact ⟨_, rfl⟩
      | some b =>
        rw [hb, Option.any_some] at hw
        simp [hw]
    obtain ⟨e, he⟩ := hno
    rw [after_bind_error he]

/-- A refused `rmdir` frees nothing. -/
theorem rmdir_quota (name : String) (p : RelPath) (m : Manager) :
    (after (rmdirPathInBranch name p) m).quota = m.quota ∨
      ((resultOf (checkEmptyDir name p) m).isSome = true ∧
        (after (rmdirPathInBranch name p) m).quota = m.quota.sub (m.freedAt name p)) := by
  unfold rmdirPathInBranch
  have hwritable := after_writableBranch name m
  cases hw : writableBranch name m with
  | error e m₁ =>
    rw [after_error hw] at hwritable
    rw [after_bind_error hw, hwritable]
    exact Or.inl rfl
  | ok b m₁ =>
    obtain rfl : m₁ = m := (after_ok hw).symm.trans hwritable
    have hcheck := after_checkEmptyDir name p m₁
    rw [after_bind_ok hw]
    cases hc : checkEmptyDir name p m₁ with
    | error e m₂ =>
      rw [after_error hc] at hcheck
      rw [after_bind_error hc, hcheck]
      exact Or.inl rfl
    | ok u m₂ =>
      obtain rfl : m₂ = m₁ := (after_ok hc).symm.trans hcheck
      rw [after_bind_ok hc]
      refine (frees_deleteTouched name p m₂).imp_right fun h => ⟨?_, h⟩
      unfold resultOf
      rw [hc]
      rfl

/-! ## Truncation -/

/-- Setting the length of an open file charges for what it grows by and frees what it loses. -/
theorem setHandleLen_quota (h : FileHandle) {size : Nat} (hsize : size < 2 ^ 64) (m : Manager) :
    (∃ n : UInt64, n.toNat ≤ size ∧ (after (setHandleLen h size) m).quota = m.quota.add n) ∨
      (after (setHandleLen h size) m).quota = m.quota ∨
      ∃ n : UInt64, n.toNat = (handleLen m.disk h).toNat - size ∧
        (after (setHandleLen h size) m).quota = m.quota.sub n := by
  have hnew : (UInt64.ofNat size).toNat = size := Nat.mod_eq_of_lt hsize
  obtain ⟨old, hold⟩ : ∃ old, handleLen m.disk h = old := ⟨_, rfl⟩
  have hcheck : Unpriced (when (UInt64.ofNat size > old)
      (asReq (fun _ => Errno.ENOSPC) (quotaCheck (UInt64.ofNat size - old)))) := by
    refine unpriced_when (unpriced_still fun m => ?_)
    rw [after_asReq]
    unfold after quotaCheck
    cases m.quota.check (UInt64.ofNat size - old) <;> rfl
  unfold setHandleLen
  rw [after_bind_ok (show readReq (fun m => handleLen m.disk h) m = .ok old m by
    simp only [readReq, hold])]
  cases hc : when (UInt64.ofNat size > old)
      (asReq (fun _ => Errno.ENOSPC) (quotaCheck (UInt64.ofNat size - old))) m with
  | error e m₁ =>
    rw [after_bind_error hc]
    exact Or.inr (Or.inl (hcheck.error hc))
  | ok u m₁ =>
    have hm₁ : m₁.quota = m.quota := hcheck.ok hc
    rw [after_bind_ok hc]
    have hset : ignoring (Posix.Sys.setLen h size) m₁ = .ok ()
        { m₁ with disk := m₁.disk.mapFile h fun old => resize old size } := rfl
    rw [after_bind_ok hset]
    split
    · next hgt =>
      refine Or.inl ⟨UInt64.ofNat size - old, ?_, by rw [← hm₁]; rfl⟩
      rw [UInt64.toNat_sub_of_le _ _ (UInt64.le_of_lt hgt), hnew]
      omega
    · split
      · next hlt =>
        refine Or.inr (Or.inr ⟨old - UInt64.ofNat size, ?_, by rw [← hm₁]; rfl⟩)
        rw [UInt64.toNat_sub_of_le _ _ (UInt64.le_of_lt hlt), hnew, hold]
      · exact Or.inr (Or.inl hm₁)

/-- **A truncation** charges for what copy-on-write brings up and for growth, and frees what is cut. -/
theorem truncate_quota {size : Nat} (hB : size ≤ B) (hsize : size < 2 ^ 64) (hm : m.Within B) :
    Charged (B + B) m.quota (after (truncatePath name p size) m).quota ∨
      let m₁ := after (ensureDeltaPathForWrite name p) m
      Charged B m.quota m₁.quota ∧ ∃ n : UInt64, n.toNat = m₁.openLen (deltaPath name p) - size ∧
        (after (truncatePath name p size) m).quota = m₁.quota.sub n := by
  obtain ⟨_, hcharged, hplace⟩ := spends_ensureCow name p m hm
  have hdouble : ∀ {q : StorageQuota}, Charged B m.quota q → Charged (B + B) m.quota q :=
    fun h => h.mono (Nat.le_add_right B B)
  rw [← after_asReq (fun _ => Errno.EIO) (ensureDeltaPathForWrite name p) m]
  change Charged B m.quota (after (ensureCowForBranch name p) m).quota at hcharged
  show Charged (B + B) m.quota (after (truncatePath name p size) m).quota ∨
    let m₁ := after (ensureCowForBranch name p) m
    Charged B m.quota m₁.quota ∧ ∃ n : UInt64, n.toNat = m₁.openLen (deltaPath name p) - size ∧
      (after (truncatePath name p size) m).quota = m₁.quota.sub n
  unfold truncatePath
  cases hcow : ensureCowForBranch name p m with
  | error e m₁ =>
    rw [after_error hcow] at hcharged
    rw [after_bind_ok (show attempt (ensureCowForBranch name p) m = .ok (.error e) m₁ by
      unfold attempt
      rw [hcow])]
    exact Or.inl (hdouble hcharged)
  | ok l m₁ =>
    obtain rfl := hplace l m₁ hcow
    rw [after_ok hcow] at hcharged ⊢
    rw [after_bind_ok (show attempt (ensureCowForBranch name p) m = .ok (.ok (deltaPath name p)) m₁ by
      unfold attempt
      rw [hcow])]
    dsimp only
    unfold Manager.openLen
    cases hopen : Posix.Sys.openWrite (deltaPath name p) false false m₁.disk with
    | error e d =>
      have hio : attempt (ioOrEio (Posix.Sys.openWrite (deltaPath name p) false false)) m₁ =
          .ok (.error Errno.EIO) { m₁ with disk := d } := by
        simp only [attempt, ioOrEio, asReq, onDisk, hopen]
      rw [after_bind_ok hio]
      exact Or.inl (hdouble hcharged)
    | ok h d =>
      have hio : attempt (ioOrEio (Posix.Sys.openWrite (deltaPath name p) false false)) m₁ =
          .ok (.ok h) { m₁ with disk := d } := by
        simp only [attempt, ioOrEio, asReq, onDisk, hopen]
      rw [after_bind_ok hio]
      rcases setHandleLen_quota h hsize { m₁ with disk := d } with ⟨n, hn, hq⟩ | hq | ⟨n, hn, hq⟩
      · left
        show Charged (B + B) m.quota (after (setHandleLen h size) _).quota
        rw [hq]
        exact hcharged.trans (Charged.one m₁.quota (hn.trans hB))
      · left
        show Charged (B + B) m.quota (after (setHandleLen h size) _).quota
        rw [hq]
        exact hdouble hcharged
      · exact Or.inr ⟨hcharged, n, hn, hq⟩

end Freed

/-! ## A step and a run -/

section Step

variable {m : Manager} {op : Op}

/-- The counter has moved as an integer does: up by what was charged, down by what was freed. -/
def Accounted (m : Manager) (op : Op) (q' : StorageQuota) : Prop :=
  ∃ added freed : Nat, q'.used = m.quota.used + added - freed ∧ 0 ≤ q'.used ∧
    q'.maxBytes = m.quota.maxBytes ∧ added ≤ 2 * op.bound m ∧ freed ≤ op.frees m

theorem accounted_of_charged {a : Nat} {q' : StorageQuota} (h0 : 0 ≤ m.quota.used) (hmet : op.Metered m)
    (ha : a ≤ 2 * op.bound m) (h : Charged a m.quota q') : Accounted m op q' := by
  obtain ⟨added, hle, hused, hmax⟩ := h.exact h0 (by have := hmet.2; omega)
  exact ⟨added, 0, by omega, by omega, hmax, by omega, by omega⟩

theorem accounted_of_same {q' : StorageQuota} (h0 : 0 ≤ m.quota.used) (hmet : op.Metered m)
    (h : q' = m.quota) : Accounted m op q' :=
  accounted_of_charged h0 hmet (Nat.zero_le _) (h ▸ Charged.refl m.quota)

/-- What is freed is on the counter: none of it is taken twice. -/
theorem accounted_of_freed {n : UInt64} {q' : StorageQuota} (hmet : op.Metered m)
    (hfoot : op.footing m = m) (hn : n.toNat ≤ op.frees m) (h : q' = m.quota.sub n) :
    Accounted m op q' := by
  have hfree := hmet.1
  rw [hfoot] at hfree
  have hused : q'.used = m.quota.used - n.toNat := by
    rw [h]
    exact StorageQuota.used_sub (by omega)
  refine ⟨0, n.toNat, by omega, by omega, by rw [h]; rfl, by omega, hn⟩

theorem accounted_of_unpriced {α : Type} {x : Mgr α} (h0 : 0 ≤ m.quota.used) (hmet : op.Metered m)
    (hx : Unpriced x) : Accounted m op (after x m).quota := accounted_of_same h0 hmet (hx m)

theorem FileOp.accounted {name : String} {op : FileOp} (h0 : 0 ≤ m.quota.used)
    (hmet : (Op.file name op).Metered m) (hw : m.isBranchWritable name = true) :
    Accounted m (.file name op) (after (op.run name) m).quota := by
  have hB := le_max_left m.longest op.reach
  have hreach : op.reach ≤ (Op.file name op).bound m := le_max_right m.longest op.reach
  have hm : m.Within ((Op.file name op).bound m) := m.within_longest hB
  have hone : ∀ {x : Req Unit}, Spends ((Op.file name op).bound m) (fun _ => True)
      ((Op.file name op).bound m) x → Accounted m (.file name op) (after x m).quota := fun hx =>
    accounted_of_charged h0 hmet (by omega) (hx m hm).2.1
  have htwo : ∀ {x : Req Unit}, Spends ((Op.file name op).bound m) (fun _ => True)
      ((Op.file name op).bound m + (Op.file name op).bound m) x →
      Accounted m (.file name op) (after x m).quota := fun hx =>
    accounted_of_charged h0 hmet (by omega) (hx m hm).2.1
  have hfrees : (Op.file name op).frees m = op.frees name m := if_pos hw
  have hfooting : (Op.file name op).footing m = op.footing name m := if_pos hw
  cases op with
  | create dir n mode => exact hone (spends_createFile mode)
  | mkdir dir n mode => exact hone (spends_makeDir mode)
  | symlink dir n target => exact hone (spends_makeSymlink hreach)
  | writeByWorker p off data =>
    refine htwo ?_
    exact (costs_bind (spends_asReq _ (spends_writeDataToBranch name p hreach)) fun _ _ =>
      costs_pure trivial).mono (le_refl _)
  | write p off data => exact htwo (spends_write hreach)
  | writeCached id off data =>
    refine hone ?_
    exact (costs_bind (spends_writeThrough _ hreach) fun _ _ => costs_pure trivial).mono (le_refl _)
  | setattr p attr => exact hone (spends_setAttrPath attr)
  | rename dir n newDir newName noReplace => exact htwo (spends_rename _ _ noReplace)
  | unlink dir n =>
    show Accounted m _ (after (unlinkPath name (dir ++ [n])) m).quota
    unfold unlinkPath
    rw [after_asReq]
    rcases frees_delete name (dir ++ [n]) m with h | h
    · exact accounted_of_same h0 hmet h
    · exact accounted_of_freed hmet hfooting (by rw [hfrees]; exact le_refl _) h
  | rmdir dir n =>
    show Accounted m _ (after (rmdirPath name (dir ++ [n])) m).quota
    unfold rmdirPath
    rw [after_asReq]
    rcases rmdir_quota name (dir ++ [n]) m with h | ⟨hcheck, h⟩
    · exact accounted_of_same h0 hmet h
    · refine accounted_of_freed hmet hfooting ?_ h
      rw [hfrees, FileOp.frees, if_pos hcheck]
  | truncate p size =>
    change size ≤ _ at hreach
    have hsize : size < 2 ^ 64 := by
      have hroom := hmet.2
      omega
    rcases truncate_quota hreach hsize hm with h | ⟨hcharged, n, hn, hq⟩
    · exact accounted_of_charged h0 hmet (by omega) h
    · -- what is cut comes off a counter that copy-on-write may have raised
      have hfree := hmet.1
      rw [hfooting, hfrees] at hfree
      obtain ⟨added, hle, hused, hmax⟩ := hcharged.exact h0 (by have := hmet.2; omega)
      have hn' : (n.toNat : Int) ≤ (after (ensureDeltaPathForWrite name p) m).quota.used := by
        rw [hn]
        exact hfree
      have hcut := StorageQuota.used_sub hn'
      show Accounted m _ (after (truncatePath name p size) m).quota
      rw [hq]
      refine ⟨added, n.toNat, by omega, by omega, hmax, by omega, ?_⟩
      rw [hfrees, hn]
      exact le_refl _

/-- **A step** that meets the condition moves the counter as an integer. -/
theorem step_accounted (h0 : 0 ≤ m.quota.used) (hmet : op.Metered m) :
    Accounted m op (step m op).quota := by
  cases op with
  | create name parent inheritance hidePaths =>
    exact accounted_of_unpriced h0 hmet (unpriced_createBranch name parent inheritance hidePaths)
  | commit order name => exact accounted_of_unpriced h0 hmet (unpriced_commit order name)
  | abort name => exact accounted_of_unpriced h0 hmet (unpriced_abort name)
  | freeze name => exact accounted_of_unpriced h0 hmet (unpriced_setBranchState name .frozen)
  | thaw name => exact accounted_of_unpriced h0 hmet (unpriced_setBranchState name .open)
  | host edit => exact accounted_of_unpriced h0 hmet (unpriced_onDisk edit.run)
  | revert name p =>
    by_cases hcan : m.isBranchWritable name ∧ p ≠ []
    · rcases frees_revert name p m with h | h
      · exact accounted_of_same h0 hmet h
      · exact accounted_of_freed hmet rfl (by rw [Op.frees, if_pos hcan]) h
    · refine accounted_of_same h0 hmet ?_
      show (after (revertPathInBranch name p) m).quota = m.quota
      rw [revert_refused hcan]
  | file name op =>
    cases hw : m.isBranchWritable name with
    | true =>
      have hdeny : denyUnlessWritable name m = .ok () m := by simp only [denyUnlessWritable, hw, if_true]
      show Accounted m _ (after (do denyUnlessWritable name; op.run name) m).quota
      rw [after_bind_ok hdeny]
      exact FileOp.accounted h0 hmet hw
    | false =>
      have hdeny : denyUnlessWritable name m = .error .EROFS m := by
        simp only [denyUnlessWritable, hw, Bool.false_eq_true, if_false]
      refine accounted_of_same h0 hmet ?_
      show (after (do denyUnlessWritable name; op.run name) m).quota = m.quota
      rw [after_bind_error hdeny]

end Step

/-- In every state a run reaches the counter is not negative and the test is the one on the integers. -/
def CounterExact : Prop :=
  ∀ (store : FreshStore) ops, let m := run step (Manager.init store) ops
    0 ≤ m.quota.used ∧
      ∀ additional, m.quota.check additional = false ↔ m.quota.Exceeded additional

/-- A store for a hundred bytes of changes. -/
def FreshStore.hundred : FreshStore := { FreshStore.bare with maxBytes := some 100 }

/-- A link is made and removed. -/
def linkOps : List Op :=
  [.create "b" "main" .lazy [], .file "b" (.symlink [] "l" ⟨false, [.name "to"]⟩),
    .file "b" (.unlink [] "l")]

theorem linkOps_run : (run step (Manager.init .hundred) linkOps).quota.usedBytes = -2 := by
  decide +kernel

/-- A file is brought up, written and cut. -/
def fileOps : List Op :=
  [.host (.write ["f"] [97, 98, 99]), .create "b" "main" .lazy [],
    .file "b" (.write ["f"] 1 [120]), .file "b" (.truncate ["f"] 2)]

theorem fileOps_metered : Along step (fun m op => op.Metered m) (Manager.init .hundred) fileOps := by
  decide +kernel

theorem fileOps_used : (run step (Manager.init .hundred) fileOps).quota.usedBytes = 2 := by
  decide +kernel

end BranchFs
