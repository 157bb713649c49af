/-
# BranchFs.Quota.Charges -- what the operations charge

No operation charges for more than it brings up or writes: as long as no entry of the host is longer than
`B` and nothing is written beyond `B`, copy-on-write charges at most `B`, and no handler more than twice
that.
-/
import BranchFs.Isolate.Handlers
import BranchFs.Posix.Kinds
import BranchFs.Quota.Counter

namespace BranchFs

open BranchFs.Posix BranchFs.Logic

variable {ε α : Type} {B : Nat}

/-- The length `Metadata::len` reports, before the cast. -/
def entryLen : Kind String → Nat
  | .file data => data.length
  | .symlink t => (targetText t).utf8ByteSize
  | .dir => 0

theorem metaLen_le (n : Node String) : (metaLen n).toNat ≤ entryLen n.kind := by
  unfold metaLen entryLen
  cases n.kind with
  | dir => exact le_refl _
  | file data => exact Nat.mod_le _ _
  | symlink t => exact Nat.mod_le _ _

/-- No entry is longer than `B`. -/
abbrev Short (B : Nat) (k : Kind String) : Prop := entryLen k ≤ B

def Manager.Within (B : Nat) (m : Manager) : Prop := m.disk.Every (Short B)

/-- An operation that charges at most `a` where no entry is longer than `B`. -/
abbrev Spends (B : Nat) (Q : α → Prop) (a : Nat) (x : EStateM ε Manager α) : Prop :=
  Costs charges (Manager.Within B) Q a x

/-! ## Steps that charge nothing -/

section Quiet

variable {Q : α → Prop}

theorem spends_quiet {x : EStateM ε Manager α} (hd : ∀ m, (after x m).disk = m.disk)
    (hq : ∀ m, (after x m).quota = m.quota) (hQ : ∀ m r m', m.Within B → x m = .ok r m' → Q r) :
    Spends B Q 0 x := by
  refine costs_of_keeps (fun m hm => ?_) (fun m => ?_) hQ
  · unfold Manager.Within
    rw [hd]
    exact hm
  · show Charged 0 m.quota (after x m).quota
    rw [hq]
    exact Charged.refl _

theorem spends_onDisk {x : Io α} (hx : Sys.Leaves (Short B) x)
    (hQ : ∀ d r d', d.Every (Short B) → x d = .ok r d' → Q r) : Spends B Q 0 (onDisk x) := by
  refine costs_of_keeps (fun m hm => ?_) (fun m => ?_) fun m r m' hm h => ?_
  · have hd := hx m.disk hm
    unfold Manager.Within after onDisk at *
    cases h : x m.disk <;> simpa [h] using hd
  · show Charged 0 m.quota (after (onDisk x) m).quota
    have heq : (after (onDisk x) m).quota = m.quota := by
      unfold after onDisk
      cases x m.disk <;> rfl
    rw [heq]
    exact Charged.refl _
  · unfold onDisk at h
    cases hr : x m.disk with
    | ok a d =>
      rw [hr] at h
      cases h
      exact hQ _ _ _ hm hr
    | error e d =>
      rw [hr] at h
      cases h

theorem spends_call {x : Io α} (hx : Sys.Leaves (Short B) x) :
    Spends B (fun _ => True) 0 (onDisk x) := spends_onDisk hx fun _ _ _ _ _ => trivial

theorem spends_readDisk {f : Tree → α} (hQ : ∀ d, d.Every (Short B) → Q (f d)) :
    Spends B Q 0 (readDisk f) := by
  refine spends_quiet (fun _ => rfl) (fun _ => rfl) fun m r m' hm h => ?_
  cases h
  exact hQ _ hm

theorem spends_look (f : Tree → α) : Spends B (fun _ => True) 0 (readDisk f) :=
  spends_readDisk fun _ _ => trivial

/-- An operation that only looks. -/
theorem spends_still {x : EStateM ε Manager α} (h : ∀ m, after x m = m) :
    Spends B (fun _ => True) 0 x := by
  refine spends_quiet (fun m => ?_) (fun m => ?_) fun _ _ _ _ _ => trivial
  · rw [h]
  · rw [h]

theorem spends_modifyBranch (name : String) (f : Branch → Branch) :
    Spends B (fun _ => True) 0 (modifyBranch name f) :=
  spends_quiet (fun _ => rfl) (fun _ => rfl) fun _ _ _ _ _ => trivial

theorem spends_quotaCheck (n : UInt64) : Spends B (fun _ => True) 0 (quotaCheck n) := by
  refine spends_still fun m => ?_
  unfold after quotaCheck
  cases m.quota.check n <;> rfl

/-- The charge itself. -/
theorem spends_quotaAdd {n : UInt64} {a : Nat} (h : n.toNat ≤ a) :
    Spends B (fun _ => True) a (quotaAdd n) :=
  fun m hm => ⟨hm, Charged.one m.quota h, fun _ _ _ => trivial⟩

end Quiet

/-! ## Copy-on-write -/

section Cow

theorem leaves_ensureParentDirs (l : Place) : Sys.Leaves (Short B) (Io.ensureParentDirs l) :=
  Sys.leaves_createDirAll (Nat.zero_le B) l.parent

theorem leaves_copyNode (src dst : Place) {n : Node String} (hn : Short B n.kind) :
    Sys.Leaves (Short B) (Io.copyNode src dst n) := by
  unfold Io.copyNode
  cases hk : n.kind with
  | symlink t =>
    rw [hk] at hn
    exact keeps_bind (fun _ _ _ h h' hd => h' (h hd)) (keeps_attempt (Sys.leaves_removeFile dst))
      fun _ => Sys.leaves_symlink hn dst
  | file b => exact Sys.leaves_copyFile (Nat.zero_le B) src dst
  | dir => exact Sys.leaves_copyFile (Nat.zero_le B) src dst

theorem leaves_copyEntry (src dst : Place) : Sys.Leaves (Short B) (Io.copyEntry src dst) := by
  refine keeps_bind (fun _ _ _ h h' hd => h' (h hd)) (leaves_ensureParentDirs dst) fun _ d hd => ?_
  cases hs : d.lstat src with
  | error e =>
    rw [after_bind_error (show Io.symlinkMetadata src d = .error e d by
      simp only [Io.symlinkMetadata, hs])]
    exact hd
  | ok n =>
    rw [after_bind_ok (show Io.symlinkMetadata src d = .ok n d by simp only [Io.symlinkMetadata, hs])]
    exact leaves_copyNode src dst (hd.lstat (Nat.zero_le B) hs) d hd

/-- The text read for a capture is one of the host's files. -/
theorem short_readBoundedText {l : Place} {d d' : Tree} {t : Option Bytes} (hd : d.Every (Short B))
    (h : readBoundedText l d = .ok t d') : ∀ bytes, t = some bytes → bytes.length ≤ B := by
  unfold readBoundedText at h
  rintro bytes rfl
  split at h
  · cases h
  · cases h
  · split at h
    · cases h
    · split at h
      · cases h
      · next b d₁ hread =>
        unfold Posix.Sys.readFile at hread
        split at hread
        · cases hread
        · next n hs =>
          have hn := hd.stat (Nat.zero_le B) hs
          split at hread
          · next b' hk =>
            cases hread
            rw [hk] at hn
            injection h with h
            split at h
            · cases h
            · cases h
              exact hn
          · cases hread

theorem spends_keepBaseContent (name : String) (p : RelPath) {t : Option Bytes}
    (ht : ∀ bytes, t = some bytes → bytes.length ≤ B) :
    Spends B (fun _ => True) 0 (keepBaseContent name p t) := by
  cases t with
  | none => exact costs_pure trivial
  | some bytes =>
    refine costs_then (spends_call (leaves_ensureParentDirs _)) fun _ _ => ?_
    refine costs_then (spends_call (Sys.leaves_writeFile (ht bytes rfl) _)) fun _ _ => ?_
    exact costs_pure trivial

theorem spends_contentKey (name : String) (p : RelPath) (inherited : Option Place) (capture : Bool) :
    Spends B (fun _ => True) 0 (contentKey name p inherited capture) := by
  unfold contentKey
  split
  · cases inherited with
    | none => exact costs_pure trivial
    | some src =>
      refine costs_then (spends_onDisk (fun d hd => ?_) fun _ _ _ hd h => short_readBoundedText hd h)
        fun t ht => spends_keepBaseContent name p ht
      rw [after_readBoundedText]
      exact hd
  · exact costs_pure trivial

theorem spends_recordFirstTouch (name : String) (p : RelPath) (inherited : Option Place)
    (capture : Bool) : Spends B (fun _ => True) 0 (recordFirstTouch name p inherited capture) := by
  refine costs_then (spends_still (after_getBranch name)) fun b _ => ?_
  split
  · exact costs_pure trivial
  · refine costs_then (spends_look _) fun _ _ => ?_
    refine costs_then (spends_contentKey name p inherited capture) fun _ _ => ?_
    exact spends_modifyBranch name _

theorem spends_copyUpNode (src delta : Place) {n : Node String} (hn : Short B n.kind) :
    Spends B (fun _ => True) B (copyUpNode src delta n) := by
  refine costs_then (spends_quotaCheck _) fun _ _ => ?_
  refine costs_then (spends_call (leaves_copyEntry src delta)) fun _ _ => ?_
  exact spends_quotaAdd ((metaLen_le n).trans hn)

/-- What a look finds is no longer than anything else. -/
theorem spends_lstat (src : Place) : Spends B (fun r => ∀ n, r = .ok n → Short B n.kind) 0
    (readDisk fun d => d.lstat src) :=
  spends_readDisk fun _ hd _ hn => hd.lstat (Nat.zero_le B) hn

theorem spends_copyUpInherited (delta : Place) (inherited : Option Place) :
    Spends B (fun _ => True) B (copyUpInherited delta inherited) := by
  cases inherited with
  | none => exact (costs_pure trivial).mono (Nat.zero_le B)
  | some src =>
    refine costs_then (spends_lstat src) fun found hfound => ?_
    cases found with
    | error e => exact (costs_pure trivial).mono (Nat.zero_le B)
    | ok n =>
      dsimp only
      split
      · exact (costs_pure trivial).mono (Nat.zero_le B)
      · exact spends_copyUpNode src delta (hfound n rfl)

/-- **Copy-on-write** charges for no more than the one entry it brings up. -/
theorem spends_ensureDelta (name : String) (p : RelPath) :
    Spends B (fun l => l = deltaPath name p) B (ensureDeltaPathForWrite name p) := by
  refine costs_then (spends_still (after_writableBranch name)) fun _ _ => ?_
  refine costs_then (spends_look _) fun there _ => ?_
  have htouch : Spends B (fun _ => True) B (touchAndCopyUp name p) := by
    refine costs_then (spends_still (after_inheritedForTouch name p)) fun inherited _ => ?_
    refine costs_then (spends_recordFirstTouch name p inherited true) fun _ _ => ?_
    exact spends_copyUpInherited _ inherited
  refine (costs_bind (costs_when fun _ => htouch) fun _ _ => ?_).mono (le_refl (B + 0))
  refine costs_then (spends_modifyBranch name _) fun _ _ => ?_
  refine costs_then (spends_call (leaves_ensureParentDirs _)) fun _ _ => ?_
  exact costs_pure rfl

end Cow

/-! ## Writing -/

section Write

variable {off : Nat} {data : Bytes}

theorem length_splice_le {old : Bytes} (hold : old.length ≤ B) (hdata : off + data.length ≤ B) :
    (splice old off data).length ≤ B := by
  unfold splice
  simp only [List.length_append, List.length_take, List.length_replicate, List.length_drop]
  omega

theorem leaves_pwrite (h : FileHandle) (hdata : off + data.length ≤ B) :
    Sys.Leaves (Short B) (Posix.Sys.pwrite h off data : Io Nat) :=
  Sys.leaves_pwrite h fun _ hold => length_splice_le hold hdata

theorem leaves_openWrite (l : Place) (create trunc : Bool) :
    Sys.Leaves (Short B) (Posix.Sys.openWrite l create trunc : Io FileHandle) :=
  Sys.leaves_openWrite (Nat.zero_le B) l create trunc

theorem leaves_writeDataToFile (l : Place) (hdata : off + data.length ≤ B) :
    Sys.Leaves (Short B) (writeDataToFile l off data) :=
  keeps_bind (fun _ _ _ h h' hd => h' (h hd)) (leaves_openWrite l true false) fun h =>
    leaves_pwrite h hdata

/-- What `stat` reports is no longer than anything else. -/
theorem statLen_le {d : Tree} (hd : d.Every (Short B)) (l : Place) {n : UInt64}
    (h : statLen d l = some n) : n.toNat ≤ B := by
  unfold statLen at h
  cases hs : d.stat l with
  | error e => simp [hs, Except.toOption] at h
  | ok node =>
    simp only [hs, Except.toOption, Option.map_some, Option.some.injEq] at h
    rw [← h]
    exact (metaLen_le node).trans (hd.stat (Nat.zero_le B) hs)

/-- The growth charged for. -/
theorem spends_growth {old new : UInt64} (hnew : new.toNat ≤ B) :
    Spends B (fun _ => True) B (when (new > old) (quotaAdd (new - old))) := by
  refine costs_when fun hgt => spends_quotaAdd ?_
  rw [UInt64.toNat_sub_of_le _ _ (UInt64.le_of_lt hgt)]
  omega

theorem spends_writeInPlace (name : String) (p : RelPath) (hdata : off + data.length ≤ B) :
    Spends B (fun _ => True) B (writeInPlace name p off data) := by
  refine costs_then (spends_modifyBranch name _) fun _ _ => ?_
  refine costs_then (spends_readDisk (Q := fun old => old.toNat ≤ B) fun d hd => ?_) fun old hold => ?_
  · cases h : statLen d (deltaPath name p) with
    | none => exact Nat.zero_le B
    | some n => exact statLen_le hd _ h
  refine costs_then (costs_when fun _ => spends_quotaCheck _) fun _ _ => ?_
  refine costs_then (spends_call (leaves_writeDataToFile _ hdata)) fun _ _ => ?_
  refine costs_then (spends_readDisk (Q := fun new => new.toNat ≤ B) fun d hd => ?_) fun new hnew => ?_
  · cases h : statLen d (deltaPath name p) with
    | none => exact hold
    | some n => exact statLen_le hd _ h
  exact (costs_bind (spends_growth hnew) fun _ _ => costs_pure trivial).mono (le_refl (B + 0))

theorem spends_writeFirstPlain (name : String) (p : RelPath) (hdata : off + data.length ≤ B) :
    Spends B (fun _ => True) B (writeFirstPlain name p off data) :=
  costs_then (spends_call (leaves_ensureParentDirs _)) fun _ _ => spends_writeInPlace name p hdata

/-- The staged file is as long as the copy, or as far as the write goes. -/
theorem spends_stageWrite (name : String) (src delta : Place) (hdata : off + data.length ≤ B) :
    Spends B (fun r => r.2.toNat ≤ B) 0 (onDisk (stageWrite name src delta off data)) := by
  have hlen : Costs Meter.free (Disk.Every (Short B)) (fun n => n.toNat ≤ B) 0
      (lenAt (stagingPath name)) := by
    intro d hd
    cases hs : d.stat (stagingPath name) with
    | error e =>
      have hrun : lenAt (stagingPath name) d = .error e d := by simp only [lenAt, hs]
      rw [after_error hrun]
      refine ⟨hd, trivial, fun r t h => ?_⟩
      rw [hrun] at h
      cases h
    | ok n =>
      have hrun : lenAt (stagingPath name) d = .ok (metaLen n) d := by simp only [lenAt, hs]
      rw [after_ok hrun]
      refine ⟨hd, trivial, fun r t h => ?_⟩
      rw [hrun] at h
      cases h
      exact (metaLen_le n).trans (hd.stat (Nat.zero_le B) hs)
  have hwork : Costs Meter.free (Disk.Every (Short B)) (fun r : Nat × UInt64 => r.2.toNat ≤ B) 0
      (stageWriteCalls name src delta off data) := by
    refine costs_then (costs_free (Sys.leaves_copyFile (Nat.zero_le B) _ _)) fun _ _ => ?_
    refine costs_then (costs_free (leaves_writeDataToFile _ hdata)) fun _ _ => ?_
    refine costs_then hlen fun _ hfinal => ?_
    refine costs_then (costs_free (Sys.leaves_rename _ _)) fun _ _ => ?_
    exact costs_pure hfinal
  have hends : ∀ d, (∃ r d', stageWriteCalls name src delta off data d = .ok r d' ∧
        stageWrite name src delta off data d = .ok r d') ∨
      ∃ e d', stageWriteCalls name src delta off data d = .error e d' ∧
        stageWrite name src delta off data d =
          .error e (after (Posix.Sys.removeFile (stagingPath name)) d') := by
    intro d
    cases hrun : stageWriteCalls name src delta off data d with
    | ok r d' => exact Or.inl ⟨r, d', rfl, stageWrite_of_ok hrun⟩
    | error e d' => exact Or.inr ⟨e, d', rfl, stageWrite_of_error hrun⟩
  refine spends_onDisk (fun d hd => ?_) fun d r d' hd h => ?_
  · obtain ⟨hI, _, _⟩ := hwork d hd
    rcases hends d with ⟨r, d', hrun, heq⟩ | ⟨e, d', hrun, heq⟩
    · rw [after_ok heq]
      rwa [after_ok hrun] at hI
    · rw [after_error heq]
      rw [after_error hrun] at hI
      exact Sys.leaves_removeFile _ _ hI
  · rcases hends d with ⟨r', d'', hrun, heq⟩ | ⟨e, d'', _, heq⟩
    · rw [heq] at h
      cases h
      exact (hwork d hd).2.2 _ _ hrun
    · rw [heq] at h
      cases h

theorem spends_writeFirstCopy (name : String) (p : RelPath) (src : Place) (len : UInt64)
    (hdata : off + data.length ≤ B) :
    Spends B (fun _ => True) B (writeFirstCopy name p src len off data) := by
  refine costs_then (spends_quotaCheck _) fun _ _ => ?_
  refine costs_then (spends_call (leaves_ensureParentDirs _)) fun _ _ => ?_
  refine costs_then (spends_stageWrite name src _ hdata) fun r hr => ?_
  refine (costs_bind (spends_quotaAdd hr) fun _ _ => ?_).mono (le_refl (B + 0))
  exact costs_then (spends_modifyBranch name _) fun _ _ => costs_pure trivial

theorem spends_writeFirst (name : String) (p : RelPath) (inherited : Option Place)
    (hdata : off + data.length ≤ B) :
    Spends B (fun _ => True) (B + B) (writeFirst name p off data inherited) := by
  have hplain : Spends B (fun _ => True) (B + B) (writeFirstPlain name p off data) :=
    (spends_writeFirstPlain name p hdata).mono (Nat.le_add_right B B)
  cases inherited with
  | none => exact hplain
  | some src =>
    refine costs_then (spends_lstat src) fun found hfound => ?_
    cases found with
    | error e => exact hplain
    | ok n =>
      show Spends B _ (B + B) (writeFirstNode name p src n off data)
      unfold writeFirstNode
      split
      · exact (spends_writeFirstCopy name p src _ hdata).mono (Nat.le_add_right B B)
      · refine costs_bind (costs_when fun _ => spends_copyUpNode src _ (hfound n rfl)) fun _ _ => ?_
        exact spends_writeFirstPlain name p hdata

/-- **`write_data_to_branch`** charges for the link it brings up and for what it writes. -/
theorem spends_writeDataToBranch (name : String) (p : RelPath) {off : Int} {data : Bytes}
    (hdata : off.toNat + data.length ≤ B) :
    Spends B (fun _ => True) (B + B) (writeDataToBranch name p off data) := by
  unfold writeDataToBranch
  split
  · exact (costs_throw _).mono (Nat.zero_le _)
  · split
    · exact (costs_throw _).mono (Nat.zero_le _)
    · refine costs_then (spends_still (after_writableBranch name)) fun _ _ => ?_
      refine costs_then (spends_look _) fun there _ => ?_
      split
      · exact (spends_writeInPlace name p hdata).mono (Nat.le_add_right B B)
      · refine costs_then (spends_still (after_inheritedForTouch name p)) fun inherited _ => ?_
        refine costs_then (spends_recordFirstTouch name p inherited true) fun _ _ => ?_
        exact spends_writeFirst name p inherited hdata

end Write

/-! ## The handlers -/

section Handlers

variable {Q : α → Prop} {a off : Nat} {data : Bytes} {name : String} {p : RelPath}

theorem spends_asReq (f : BranchError → Errno) {x : Mgr α} (h : Spends B Q a x) :
    Spends B Q a (asReq f x) := by
  intro m hm
  rw [after_asReq]
  refine ⟨(h m hm).1, (h m hm).2.1, fun r m' hr => ?_⟩
  unfold asReq at hr
  cases hx : x m with
  | ok r' m₁ =>
    rw [hx] at hr
    cases hr
    exact (h m hm).2.2 _ _ hx
  | error e m₁ =>
    rw [hx] at hr
    cases hr

theorem spends_io {x : Io α} (hx : Sys.Leaves (Short B) x) :
    Spends B (fun _ => True) 0 (ioOrEio x) := spends_asReq _ (spends_call hx)

theorem spends_ignoring {x : Io α} (hx : Sys.Leaves (Short B) x) :
    Spends B (fun _ => True) 0 (ignoring x) :=
  costs_then (costs_attempt (spends_io hx)) fun _ _ => costs_pure trivial

theorem spends_ensureCow (name : String) (p : RelPath) :
    Spends B (fun l => l = deltaPath name p) B (ensureCowForBranch name p) :=
  spends_asReq _ (spends_ensureDelta name p)

/-- Copy-on-write and then calls that charge nothing. -/
theorem spends_cowThen {f : Place → Req Unit} (hf : ∀ l, Spends B (fun _ => True) 0 (f l)) :
    Spends B (fun _ => True) B (ensureCowForBranch name p >>= f) :=
  (costs_bind (spends_ensureCow name p) fun l _ => hf l).mono (le_refl (B + 0))

theorem spends_createFile (mode : Nat) : Spends B (fun _ => True) B (createFile name p mode) := by
  refine spends_cowThen fun l => ?_
  refine costs_then (spends_io (leaves_ensureParentDirs l)) fun _ _ => ?_
  refine costs_then (spends_io (leaves_openWrite l true true)) fun _ _ => ?_
  exact spends_ignoring (Sys.leaves_setAttr l _)

theorem spends_makeDir (mode : Nat) : Spends B (fun _ => True) B (makeDir name p mode) := by
  refine spends_cowThen fun l => ?_
  refine costs_then (spends_io (Sys.leaves_createDirAll (Nat.zero_le B) l)) fun _ _ => ?_
  exact spends_ignoring (Sys.leaves_setAttr l _)

/-- **A new link is charged for nothing**, however long its text. -/
theorem spends_makeSymlink {target : Target} (ht : (targetText target).utf8ByteSize ≤ B) :
    Spends B (fun _ => True) B (makeSymlink name p target) := by
  refine spends_cowThen fun l => ?_
  refine costs_then (spends_io (leaves_ensureParentDirs l)) fun _ _ => ?_
  exact spends_io (Sys.leaves_symlink ht l)

theorem spends_setAttrPath (attr : SetAttr) :
    Spends B (fun _ => True) B (setAttrPath name p attr) := by
  refine (costs_bind (costs_attempt (spends_ensureCow name p)) fun r _ => ?_).mono (le_refl (B + 0))
  cases r with
  | error e => exact costs_pure trivial
  | ok l =>
    have hmode : Spends B (fun _ => True) 0 (applyMode l attr.mode) := by
      unfold applyMode
      split
      · exact spends_ignoring (Sys.leaves_setAttr l _)
      · exact costs_pure trivial
    refine costs_then hmode fun _ _ => ?_
    refine costs_then (costs_when fun _ => spends_ignoring (Sys.leaves_setAttr l _)) fun _ _ => ?_
    exact costs_when fun _ => spends_ignoring fun d hd => Sys.leaves_setAttr l _ d hd

theorem spends_writeThrough (h : FileHandle) (hdata : off + data.length ≤ B) :
    Spends B (fun _ => True) B (writeThrough h off data) := by
  refine costs_then (spends_still fun _ => rfl) fun old _ => ?_
  refine costs_then (costs_when fun _ => spends_asReq _ (spends_quotaCheck _)) fun _ _ => ?_
  have hwrite : Spends B (fun n => n = data.length) 0 (ioOrEio (Posix.Sys.pwrite h off data)) :=
    spends_asReq _ (spends_onDisk (leaves_pwrite h hdata) fun _ _ _ _ hr => by cases hr; rfl)
  refine costs_then hwrite fun n hn => ?_
  have hnew : (UInt64.ofNat (off + n)).toNat ≤ B := by
    rw [hn]
    exact (Nat.mod_le _ _).trans hdata
  refine (costs_bind (costs_when fun hgt => spends_asReq _ (spends_quotaAdd ?_)) fun _ _ =>
    costs_pure trivial).mono (le_refl (B + 0))
  rw [UInt64.toNat_sub_of_le _ _ (UInt64.le_of_lt hgt)]
  omega

theorem spends_write (hdata : off + data.length ≤ B) :
    Spends B (fun _ => True) (B + B) (FileOp.run name (.write p off data)) := by
  have hopen : Spends B (fun _ => True) B (openForWrite name p) :=
    (costs_bind (spends_ensureCow name p) fun l _ => spends_io (leaves_openWrite l true false)).mono
      (le_refl (B + 0))
  refine costs_bind hopen fun h _ => ?_
  exact (costs_bind (spends_writeThrough h hdata) fun _ _ => costs_pure trivial).mono
    (le_refl (B + 0))

theorem spends_clearDestination : Spends B (fun _ => True) 0 (clearDestination name p) := by
  refine costs_then (spends_still fun _ => rfl) fun there _ => ?_
  refine costs_then (spends_still fun _ => rfl) fun isDir _ => ?_
  refine costs_when fun _ => ?_
  split
  · exact spends_ignoring (Sys.leaves_removeDirAll _)
  · exact spends_ignoring (Sys.leaves_removeFile _)

/-- A rename may bring up both its source and what it replaces. -/
theorem spends_rename (src dst : RelPath) (noReplace : Bool) :
    Spends B (fun _ => True) (B + B) (renamePath name src dst noReplace) := by
  refine costs_then (spends_still fun _ => rfl) fun srcThere _ => ?_
  refine costs_then (costs_failIf _ _) fun _ _ => ?_
  refine costs_then (spends_still fun _ => rfl) fun srcInherited _ => ?_
  refine costs_then (spends_still fun _ => rfl) fun dstThere _ => ?_
  refine costs_then (costs_failIf _ _) fun _ _ => ?_
  refine costs_bind (spends_ensureCow name src) fun srcDelta _ => ?_
  refine (costs_bind (spends_ensureCow name dst) fun dstDelta _ => ?_).mono (le_refl (B + 0))
  refine costs_then (spends_io (leaves_ensureParentDirs dstDelta)) fun _ _ => ?_
  refine costs_then (spends_still fun _ => rfl) fun existed _ => ?_
  refine costs_then (costs_when fun _ => spends_clearDestination) fun _ _ => ?_
  refine costs_then (spends_io (Sys.leaves_rename srcDelta dstDelta)) fun _ _ => ?_
  refine spends_asReq _ (costs_then (spends_still (after_getBranch name)) fun _ _ => ?_)
  exact spends_modifyBranch name _

end Handlers

end BranchFs
