/-
# BranchFs.Store.Reload -- what a branch holds is what its files hold

The invariant is `Durable`: each log is lines that were written whole, and replaying them gives the
set in memory. Every method keeps it as long as the paths it writes as raw lines are line-safe
(`StepSafe`); a record of the touch log is JSON and needs no such care. A durable branch reloads to
itself, so a run of safe steps from a new branch can be cut off anywhere.
-/
import BranchFs.Store.Persist
import Mathlib.Data.Countable.Basic
import Mathlib.Logic.Equiv.List
import Mathlib.Tactic.DeriveCountable

namespace BranchFs.Store

open BranchFs.Logic

/-! ## One line of a log -/

theorem isBlank_of_mem {line : Text} {c : Char} (hc : c ∈ line) (hw : isWhiteSpace c = false) :
    isBlank line = false := by
  rw [isBlank, List.all_eq_false]
  exact ⟨c, hc, by rw [hw]; exact Bool.false_ne_true⟩

theorem isBlank_marked (c : Char) (hw : isWhiteSpace c = false) (l : Text) :
    isBlank ([c, ' '] ++ l) = false :=
  isBlank_of_mem (c := c) (by simp) hw

theorem applyTombstone_add (S : Finset Text) (path : Text) :
    applyTombstone S (['+', ' '] ++ path) = insert path S := by
  rw [applyTombstone, isBlank_marked '+' rfl]
  rfl

theorem applyTombstone_remove (S : Finset Text) (path : Text) :
    applyTombstone S (['-', ' '] ++ path) = S.erase path := by
  rw [applyTombstone, isBlank_marked '-' rfl]
  rfl

theorem applyTouch_remove (json : SerdeJson) (T : Finset TouchRecord) (path : Text) :
    applyTouch json T (['-', ' '] ++ path) =
      some (T.filter fun r => !pathIsSameOrDescendant r.path path) := by
  rw [applyTouch, isBlank_marked '-' rfl]
  rfl

/-- A record takes the place of what there was for its path. -/
theorem applyTouch_write {json : SerdeJson} (hjson : json.Lawful) (T : Finset TouchRecord)
    (record : TouchRecord) : applyTouch json T (json.writeTouch record) =
      some (insert record (T.filter fun r => r.path ≠ record.path)) := by
  obtain ⟨body, hbody⟩ := hjson.braces record
  have hblank : isBlank (json.writeTouch record) = false := by
    rw [hbody]
    exact isBlank_of_mem (c := '{') (by simp) rfl
  have hmark : "- ".toList.isPrefixOf? (json.writeTouch record) = none := by
    rw [hbody]
    rfl
  rw [applyTouch, hblank]
  simp only [Bool.false_eq_true, if_false, hmark, hjson.readTouch_write, Option.bind_eq_bind,
    Option.bind_some]

/-- A record is added where no other one has its path. -/
theorem applyTouch_add {json : SerdeJson} (hjson : json.Lawful) {T : Finset TouchRecord}
    {record : TouchRecord} (hone : ∀ r ∈ T, r.path = record.path → r = record) :
    applyTouch json T (json.writeTouch record) = some (insert record T) := by
  rw [applyTouch_write hjson]
  congr 1
  ext r
  rw [Finset.mem_insert, Finset.mem_insert, Finset.mem_filter]
  constructor
  · rintro (rfl | ⟨hr, -⟩)
    · exact Or.inl rfl
    · exact Or.inr hr
  · rintro (rfl | hr)
    · exact Or.inl rfl
    · by_cases hpath : r.path = record.path
      · exact Or.inl (hone r hr hpath)
      · exact Or.inr ⟨hr, hpath⟩

/-- A record is read back where it is new. -/
theorem applyTouch_record {json : SerdeJson} (hjson : json.Lawful) {T : Finset TouchRecord}
    {record : TouchRecord} (hnew : ¬ ∃ r ∈ T, r.path = record.path) :
    applyTouch json T (json.writeTouch record) = some (insert record T) :=
  applyTouch_add hjson fun r hr hpath => absurd ⟨r, hr, hpath⟩ hnew

theorem lineSafe_record {json : SerdeJson} (hjson : json.Lawful) (record : TouchRecord) :
    LineSafe (json.writeTouch record) := by
  refine ⟨hjson.oneLine record, ?_⟩
  obtain ⟨body, hbody⟩ := hjson.braces record
  rw [hbody, ← List.cons_append, List.getLast?_concat]
  decide

/-! ## The logs -/

/-- The tombstone files were written line by line, and reading them gives `S`. -/
def TombstonesRead (f : BranchFiles) (S : Finset Text) : Prop :=
  ∃ paths log, f.tombstones = some (unlines paths) ∧ f.tombstonesLog.getD [] = unlines log ∧
    (∀ p ∈ paths, LineSafe p ∧ isBlank p = false) ∧ (∀ l ∈ log, LineSafe l) ∧
    log.foldl applyTombstone paths.toFinset = S

/-- The touch log was written line by line, and reading it gives `T`. -/
def TouchesRead (json : SerdeJson) (f : BranchFiles) (T : Finset TouchRecord) : Prop :=
  ∃ log, f.touches = none ∧ f.touchesLog.getD [] = unlines log ∧ (∀ l ∈ log, LineSafe l) ∧
    log.foldlM (applyTouch json) ∅ = some T

theorem snapshotPaths_unlines {paths : List Text}
    (h : ∀ p ∈ paths, LineSafe p ∧ isBlank p = false) :
    snapshotPaths (some (unlines paths)) = paths := by
  rw [snapshotPaths, Option.getD_some, lines_unlines fun p hp => (h p hp).1]
  apply List.filter_eq_self.mpr
  intro p hp
  rw [(h p hp).2]
  rfl

theorem TombstonesRead.load {f : BranchFiles} {S : Finset Text} (h : TombstonesRead f S) :
    loadTombstones f = S := by
  obtain ⟨paths, log, hsnap, hlog, hpaths, hlines, rfl⟩ := h
  rw [loadTombstones, hsnap, snapshotPaths_unlines hpaths, hlog, lines_unlines hlines]

/-- One more line is one more step of the replay. -/
theorem TombstonesRead.append {f : BranchFiles} {S : Finset Text} (h : TombstonesRead f S)
    {line : Text} (hline : LineSafe line) :
    TombstonesRead { f with tombstonesLog := appendLine f.tombstonesLog line }
      (applyTombstone S line) := by
  obtain ⟨paths, log, hsnap, hlog, hpaths, hlines, rfl⟩ := h
  refine ⟨paths, log ++ [line], hsnap, ?_, hpaths, ?_, ?_⟩
  · rw [unlines_concat, ← hlog]
    rfl
  · intro l hl
    rcases List.mem_append.mp hl with hl | hl
    · exact hlines l hl
    · rw [List.mem_singleton.mp hl]
      exact hline
  · simp

theorem foldl_add (ps : List Text) (S : Finset Text) :
    (ps.map ("+ ".toList ++ ·)).foldl applyTombstone S = S ∪ ps.toFinset := by
  induction ps generalizing S with
  | nil => simp
  | cons p ps ih =>
    rw [List.map_cons, List.foldl_cons]
    have hadd : applyTombstone S ("+ ".toList ++ p) = insert p S := applyTombstone_add S p
    rw [hadd, ih, List.toFinset_cons, Finset.insert_union, Finset.union_insert]

theorem lineSafe_mark (c : Char) (h : c ≠ '\n') : LineSafe [c, ' '] := by
  constructor
  · simp [h.symm]
  · simp

/-- Moving the snapshot into the log changes nothing that is read. -/
theorem TombstonesRead.migrate {f : BranchFiles} {S : Finset Text} (h : TombstonesRead f S) :
    TombstonesRead (migrateLegacyTombstones f) S := by
  have hf := h
  obtain ⟨paths, log, hsnap, hlog, hpaths, hlines, rfl⟩ := h
  rw [migrateLegacyTombstones, hsnap, snapshotPaths_unlines hpaths]
  generalize hsorted : (paths.mergeSort (· ≤ ·)).dedup = sorted
  have hmem : ∀ p, p ∈ sorted ↔ p ∈ paths := by
    intro p
    rw [← hsorted, List.mem_dedup, List.mem_mergeSort]
  by_cases hempty : sorted.isEmpty = true
  · simp only [hempty, if_true]
    exact hf
  · simp only [hempty, Bool.false_eq_true, if_false]
    refine ⟨[], sorted.map ("+ ".toList ++ ·) ++ log, rfl, ?_, by simp, ?_, ?_⟩
    · rw [unlines_append, ← hlog]
      rfl
    · intro l hl
      rcases List.mem_append.mp hl with hl | hl
      · obtain ⟨p, hp, rfl⟩ := List.mem_map.mp hl
        exact ((hpaths p ((hmem p).mp hp)).1).marked (lineSafe_mark '+' (by decide))
      · exact hlines l hl
    · have hset : sorted.toFinset = paths.toFinset := by
        ext p
        rw [List.mem_toFinset, List.mem_toFinset, hmem]
      rw [List.foldl_append, foldl_add, hset]
      simp

theorem TouchesRead.load {json : SerdeJson} {f : BranchFiles} {T : Finset TouchRecord}
    (h : TouchesRead json f T) : loadTouches json f = some T := by
  obtain ⟨log, hsnap, hlog, hlines, hT⟩ := h
  rw [loadTouches, snapshotTouches, hsnap, hlog, lines_unlines hlines]
  exact hT

theorem TouchesRead.append {json : SerdeJson} {f : BranchFiles} {T T' : Finset TouchRecord}
    (h : TouchesRead json f T) {line : Text} (hline : LineSafe line)
    (happly : applyTouch json T line = some T') :
    TouchesRead json { f with touchesLog := appendLine f.touchesLog line } T' := by
  obtain ⟨log, hsnap, hlog, hlines, hT⟩ := h
  refine ⟨log ++ [line], hsnap, ?_, ?_, ?_⟩
  · rw [unlines_concat, ← hlog]
    rfl
  · intro l hl
    rcases List.mem_append.mp hl with hl | hl
    · exact hlines l hl
    · rw [List.mem_singleton.mp hl]
      exact hline
  · rw [List.foldlM_append, hT]
    simpa using happly

/-! ## Durable branches -/

/-- The files hold what the memory holds. -/
structure Durable (json : SerdeJson) (b : Branch) : Prop where
  metadata : b.files.metadata = some (json.writeMetadata b.metadata)
  tombstones : TombstonesRead b.files b.tombstones
  touches : TouchesRead json b.files b.touches
  safe : ∀ t ∈ b.tombstones, LineSafe t

/-- Loading the files gives what the branch holds, and leaves a durable branch. -/
theorem Durable.load {json : SerdeJson} (hjson : json.Lawful) {b : Branch} (h : Durable json b) :
    ∃ b', load json b.files = some b' ∧ b'.metadata = b.metadata ∧
      b'.tombstones = b.tombstones ∧ b'.touches = b.touches ∧ Durable json b' := by
  have hfiles : { b.files with tombstones := some (b.files.tombstones.getD []) } = b.files := by
    obtain ⟨paths, log, hsnap, -⟩ := h.tombstones
    have hthere : some (b.files.tombstones.getD []) = b.files.tombstones := by
      rw [hsnap]
      rfl
    rw [hthere]
  have htouches : b.files.touches = none := by
    obtain ⟨log, hnone, -⟩ := h.touches
    exact hnone
  have hmigrate : migrateLegacyTouches json b.files = some b.files := by
    rw [migrateLegacyTouches, snapshotTouches, htouches]
    rfl
  -- the migration touches the tombstone files alone
  have hread : TouchesRead json (migrateLegacyTombstones b.files) b.touches := by
    obtain ⟨log, hnone, hlog, hlines, hT⟩ := h.touches
    unfold migrateLegacyTombstones
    dsimp only
    split
    · exact ⟨log, hnone, hlog, hlines, hT⟩
    · exact ⟨log, hnone, hlog, hlines, hT⟩
  have hmeta : (migrateLegacyTombstones b.files).metadata = some (json.writeMetadata b.metadata) := by
    unfold migrateLegacyTombstones
    dsimp only
    split
    · exact h.metadata
    · exact h.metadata
  have htomb := h.tombstones.migrate
  refine ⟨⟨b.metadata, b.tombstones, b.touches, migrateLegacyTombstones b.files⟩, ?_, rfl, rfl, rfl,
    ⟨hmeta, htomb, hread, h.safe⟩⟩
  simp only [Store.load, hfiles]
  simp only [Option.bind_eq_bind, h.metadata, Option.bind_some, hjson.readMetadata_write, hmigrate,
    hread.load, htomb.load]

/-! ## Steps -/

/-- The paths a step writes as raw lines are line-safe. -/
def StepSafe (b : Branch) : Op → Prop
  | .addTombstone path => path ∈ b.tombstones ∨ LineSafe path
  | .setTombstones _ tombstones => ∀ t ∈ tombstones, LineSafe t ∧ isBlank t = false
  | .removeTouchRecordsUnder path =>
    LineSafe path ∨ ∀ r ∈ b.touches, pathIsSameOrDescendant r.path path = false
  | _ => True

theorem Durable.writeMetadata {json : SerdeJson} {b : Branch} (h : Durable json b)
    (m : BranchMetadata) : Durable json (Branch.writeMetadata json { b with metadata := m }) where
  metadata := rfl
  tombstones := h.tombstones
  touches := h.touches
  safe := h.safe

theorem Durable.addTombstone {json : SerdeJson} {b : Branch} (h : Durable json b) {path : Text}
    (hsafe : path ∈ b.tombstones ∨ LineSafe path) : Durable json (b.addTombstone path) := by
  rw [Branch.addTombstone]
  split
  · exact h
  · next hnew =>
    have hpath : LineSafe path := hsafe.resolve_left hnew
    have happend := h.tombstones.append (hpath.marked (lineSafe_mark '+' (by decide)))
    rw [applyTombstone_add] at happend
    refine ⟨h.metadata, happend, h.touches, ?_⟩
    intro t ht
    rcases Finset.mem_insert.mp ht with rfl | ht
    · exact hpath
    · exact h.safe t ht

theorem Durable.eraseTombstone {json : SerdeJson} {b : Branch} (h : Durable json b) {path : Text}
    (hpath : LineSafe path) :
    Durable json (Branch.appendTombstoneOp '-' path
      { b with tombstones := b.tombstones.erase path }) := by
  have happend := h.tombstones.append (hpath.marked (lineSafe_mark '-' (by decide)))
  rw [applyTombstone_remove] at happend
  refine ⟨h.metadata, happend, h.touches, ?_⟩
  intro t ht
  exact h.safe t (Finset.mem_of_mem_erase ht)

theorem Durable.removeTombstone {json : SerdeJson} {b : Branch} (h : Durable json b)
    (path : Text) : Durable json (b.removeTombstone path) := by
  rw [Branch.removeTombstone]
  split
  · next hmem => exact h.eraseTombstone (h.safe path hmem)
  · exact h

/-- Logging a list of removals is removing them one by one. -/
theorem foldl_appendTombstoneOp (removed : List Text) (b : Branch) :
    removed.foldl (fun b t => Branch.appendTombstoneOp '-' t b)
        { b with tombstones := b.tombstones.filter (· ∉ removed) } =
      removed.foldl (fun b t => Branch.appendTombstoneOp '-' t
        { b with tombstones := b.tombstones.erase t }) b := by
  induction removed generalizing b with
  | nil => simp
  | cons t removed ih =>
    rw [List.foldl_cons, List.foldl_cons, ← ih]
    congr 1
    simp only [Branch.appendTombstoneOp]
    congr 1
    ext x
    simp only [Finset.mem_filter, Finset.mem_erase, List.mem_cons, not_or]
    tauto

theorem Durable.removeTombstonesUnder {json : SerdeJson} {b : Branch} (h : Durable json b)
    (order : HashIter) (path : Text) : Durable json (b.removeTombstonesUnder order path) := by
  rw [Branch.removeTombstonesUnder, foldl_appendTombstoneOp]
  have hsafe : ∀ t ∈ (order.iter b.tombstones).filter (pathIsSameOrDescendant · path),
      LineSafe t := by
    intro t ht
    exact h.safe t ((order.mem_iter _ t).mp (List.mem_of_mem_filter ht))
  generalize (order.iter b.tombstones).filter (pathIsSameOrDescendant · path) = removed at hsafe
  induction removed generalizing b with
  | nil => exact h
  | cons t removed ih =>
    rw [List.foldl_cons]
    exact ih (h.eraseTombstone (hsafe t List.mem_cons_self))
      fun x hx => hsafe x (List.mem_cons_of_mem t hx)

theorem Durable.setTombstones {json : SerdeJson} {b : Branch} (h : Durable json b)
    (order : HashIter) {S : Finset Text} (hsafe : ∀ t ∈ S, LineSafe t ∧ isBlank t = false) :
    Durable json (b.setTombstones order S) := by
  refine ⟨h.metadata, ?_, h.touches, fun t ht => (hsafe t ht).1⟩
  refine ⟨order.iter S, [], rfl, rfl, ?_, by simp, ?_⟩
  · intro p hp
    exact hsafe p ((order.mem_iter S p).mp hp)
  · ext t
    rw [List.foldl_nil, List.mem_toFinset]
    exact order.mem_iter S t

theorem Durable.recordFirstTouch {json : SerdeJson} (hjson : json.Lawful) {b : Branch}
    (h : Durable json b) (path : Text) (base : PathIdentity) (key : Option String) :
    Durable json (b.recordFirstTouch json path base key) := by
  rw [Branch.recordFirstTouch]
  split
  · exact h
  · next hnew =>
    exact ⟨h.metadata, h.tombstones,
      h.touches.append (lineSafe_record hjson _) (applyTouch_record hjson hnew), h.safe⟩

/-- A record is kept exactly when it is not at or below the path. -/
theorem kept_eq (touches : Finset TouchRecord) (path : Text) :
    (touches.filter fun r => ∀ x ∈ touches.filter
        (fun r => pathIsSameOrDescendant r.path path), r.path ≠ x.path) =
      touches.filter fun r => !pathIsSameOrDescendant r.path path := by
  apply Finset.filter_congr
  intro r hr
  simp only [Finset.mem_filter, Bool.not_eq_true', and_imp]
  constructor
  · intro hall
    by_contra hunder
    rw [Bool.not_eq_false] at hunder
    exact hall r hr hunder rfl
  · intro hout x _ hx hpathx
    rw [hpathx, hx] at hout
    cases hout

theorem Durable.removeTouchRecordsUnder {json : SerdeJson} {b : Branch} (h : Durable json b)
    {path : Text}
    (hsafe : LineSafe path ∨ ∀ r ∈ b.touches, pathIsSameOrDescendant r.path path = false) :
    Durable json (b.removeTouchRecordsUnder path) := by
  rw [Branch.removeTouchRecordsUnder]
  dsimp only
  split
  · exact h
  · next hremoved =>
    have hpath : LineSafe path := by
      apply hsafe.resolve_right
      intro hnone
      apply hremoved
      apply Finset.filter_false_of_mem
      intro r hr
      rw [hnone r hr]
      exact Bool.false_ne_true
    refine ⟨h.metadata, h.tombstones, ?_, h.safe⟩
    rw [kept_eq]
    exact h.touches.append (hpath.marked (lineSafe_mark '-' (by decide)))
      (applyTouch_remove json b.touches path)

/-- Every step with line-safe paths goes through and keeps the files in step with the memory. -/
theorem Durable.step {json : SerdeJson} (hjson : json.Lawful) {b : Branch} (h : Durable json b)
    {op : Op} (hsafe : StepSafe b op) : ∃ b', step json b op = some b' ∧ Durable json b' := by
  cases op with
  | recordFirstTouch path base key =>
    exact ⟨_, rfl, h.recordFirstTouch hjson path base key⟩
  | removeTouchRecordsUnder path => exact ⟨_, rfl, h.removeTouchRecordsUnder hsafe⟩
  | addTombstone path => exact ⟨_, rfl, h.addTombstone hsafe⟩
  | removeTombstone path => exact ⟨_, rfl, h.removeTombstone path⟩
  | removeTombstonesUnder order path => exact ⟨_, rfl, h.removeTombstonesUnder order path⟩
  | setTombstones order tombstones => exact ⟨_, rfl, h.setTombstones order hsafe⟩
  | setState state => exact ⟨_, rfl, h.writeMetadata _⟩
  | countCommit => exact ⟨_, rfl, h.writeMetadata _⟩
  | restart =>
    obtain ⟨b', hload, -, -, -, hb'⟩ := h.load hjson
    exact ⟨b', hload, hb'⟩

/-- A new branch in an empty directory is durable. -/
theorem Durable.create (json : SerdeJson) (name : String) (parent : Option String)
    (version : UInt64) (inheritance : InheritanceMode) (hidePaths : List String) :
    ∃ b, Branch.create json .fresh name parent version inheritance hidePaths = some b ∧
      Durable json b := by
  refine ⟨_, rfl, rfl, ⟨[], [], rfl, rfl, by simp, by simp, rfl⟩, ⟨[], rfl, rfl, by simp, rfl⟩, ?_⟩
  intro t ht
  exact absurd ht (Finset.notMem_empty t)

/-! ## Runs -/

/-- Every step of the run is safe where it is taken. -/
def SafeRun (json : SerdeJson) (b : Branch) : List Op → Prop
  | [] => True
  | op :: ops => StepSafe b op ∧ ∀ b', step json b op = some b' → SafeRun json b' ops

theorem Durable.run {json : SerdeJson} (hjson : json.Lawful) {b : Branch} (h : Durable json b)
    {ops : List Op} (hsafe : SafeRun json b ops) :
    ∃ b', run json b ops = some b' ∧ Durable json b' := by
  induction ops generalizing b with
  | nil => exact ⟨b, rfl, h⟩
  | cons op ops ih =>
    obtain ⟨b', hstep, hb'⟩ := h.step hjson hsafe.1
    obtain ⟨b'', hrun, hb''⟩ := ih hb' (hsafe.2 b' hstep)
    refine ⟨b'', ?_, hb''⟩
    rw [Store.run, List.foldlM_cons, hstep]
    exact hrun

/-- The files of `b` load, and give what `b` holds. -/
def Reloads (json : SerdeJson) (b : Branch) : Prop :=
  ∃ b', load json b.files = some b' ∧ b'.metadata = b.metadata ∧
    b'.tombstones = b.tombstones ∧ b'.touches = b.touches

/-- Every branch reloads, whatever was done to it. -/
def ReloadIsLossless : Prop :=
  ∀ json : SerdeJson, json.Lawful → ∀ name parent version inheritance hidePaths new,
    Branch.create json .fresh name parent version inheritance hidePaths = some new →
    ∀ ops b, Op.restart ∉ ops → run json new ops = some b → Reloads json b

/-- A run whose raw lines are safe goes through, restarts included, and ends in a branch that
reloads to itself. -/
theorem safe_run_reloads {json : SerdeJson} (hjson : json.Lawful) {name : String}
    {parent : Option String} {version : UInt64} {inheritance : InheritanceMode}
    {hidePaths : List String} {new : Branch}
    (hnew : Branch.create json .fresh name parent version inheritance hidePaths = some new)
    {ops : List Op} (hsafe : SafeRun json new ops) :
    ∃ b, run json new ops = some b ∧ Reloads json b := by
  obtain ⟨new', hnew', hdurable⟩ :=
    Durable.create json name parent version inheritance hidePaths
  rw [hnew] at hnew'
  obtain rfl := Option.some.inj hnew'
  obtain ⟨b, hrun, hb⟩ := hdurable.run hjson hsafe
  obtain ⟨b', hload, hm, ht, hr, -⟩ := hb.load hjson
  exact ⟨b, hrun, b', hload, hm, ht, hr⟩

/-! ## A JSON library with the text of one branch

The hypotheses on `serde_json` can be met: a lawful one that writes the metadata and the touch record
of a given branch the way `serde_json` does. What it writes for the others is a code of its own. -/

instance countable_char : Countable Char := (Function.LeftInverse.injective Char.ofNat_toNat).countable

instance countable_string : Countable String :=
  (Function.LeftInverse.injective fun _ => String.ofList_toList).countable

instance countable_uint64 : Countable UInt64 :=
  (Function.LeftInverse.injective fun n => UInt64.ofNat_toNat (x := n)).countable

deriving instance Countable for IdentityKind, PathIdentity, TouchRecord
deriving instance Countable for InheritanceMode, BranchState, BranchMetadata

/-- The code of every value but the sample. -/
def codeText (n : Nat) : Text := '{' :: (List.replicate n '0' ++ ['}'])

theorem codeText_injective : Function.Injective codeText := by
  intro n m h
  have hlen := congrArg List.length h
  simpa [codeText] using hlen

/-- A text for every value: `text` for `sample`, a code for the others. -/
theorem exists_writer {α : Type} [Countable α] (sample : α) (text : Text)
    (htext : ∀ n, text ≠ codeText n) : ∃ write : α → Text, Function.Injective write ∧
      write sample = text ∧ ∀ a, write a = text ∨ ∃ n, write a = codeText n := by
  classical
  obtain ⟨code, hcode⟩ := exists_injective_nat α
  refine ⟨fun a => if a = sample then text else codeText (code a), ?_, if_pos rfl, ?_⟩
  · intro a b hab
    dsimp only at hab
    split at hab
    · next ha =>
      split at hab
      · next hb => rw [ha, hb]
      · exact absurd hab (htext _)
    · split at hab
      · exact absurd hab.symm (htext _)
      · exact hcode (codeText_injective hab)
  · intro a
    dsimp only
    split
    · exact Or.inl rfl
    · exact Or.inr ⟨code a, rfl⟩

/-- What a writer wrote can be read back. -/
theorem exists_reader {α : Type} {write : α → Text} (h : Function.Injective write) :
    ∃ read : Text → Option α, ∀ a, read (write a) = some a := by
  classical
  refine ⟨fun t => if ht : ∃ a, write a = t then some ht.choose else none, ?_⟩
  intro a
  have ha : ∃ x, write x = write a := ⟨a, rfl⟩
  dsimp only
  rw [dif_pos ha]
  exact congrArg some (h ha.choose_spec)

theorem ne_codeText {text : Text} (h : '"' ∈ text) (n : Nat) : text ≠ codeText n := by
  rintro rfl
  simp [codeText, List.mem_replicate] at h

/-- A new lazy branch of `main`. -/
def sampleMetadata : BranchMetadata where
  name := "agent"
  parent := some "main"
  inheritance := .lazy
  state := .open
  parentVersionAtFork := 0
  commitCount := 0
  hidePaths := []

/-- Its `meta.json`, in the pretty form. -/
def sampleMetadataText : Text :=
  "\x7b\n  \"name\": \"agent\",\n".toList ++
    ("  \"parent\": \"main\",\n  \"inheritance\": \"lazy\",\n  \"state\": \"open\",\n" ++
      "  \"parent_version_at_fork\": 0,\n  \"commit_count\": 0,\n  \"hide_paths\": []\n\x7d").toList

/-- The first touch of a file whose name ends in a newline. -/
def sampleTouch : TouchRecord where
  path := "/docs/a\n".toList
  baseAtFirstTouch := PathIdentity.missing
  baseContentKey := none

/-- Its record in the compact form, between the braces. -/
def sampleTouchBody : Text :=
  ("\"path\":\"/docs/a\\n\",\"base_at_first_touch\":\x7b\"exists\":false,\"kind\":" ++
    "\"missing\",\"bytes\":0,\"mtime_ns\":null\x7d").toList

def sampleTouchText : Text := '{' :: (sampleTouchBody ++ ['}'])

theorem exists_sampleJson : ∃ json : SerdeJson, json.Lawful ∧
    json.writeMetadata sampleMetadata = sampleMetadataText ∧
    json.writeTouch sampleTouch = sampleTouchText := by
  obtain ⟨writeM, hinjM, hsampleM, -⟩ := exists_writer sampleMetadata sampleMetadataText
    (ne_codeText (List.mem_append_left _ (by decide)))
  obtain ⟨writeT, hinjT, hsampleT, hallT⟩ := exists_writer sampleTouch sampleTouchText
    (ne_codeText (by decide))
  obtain ⟨readM, hreadM⟩ := exists_reader hinjM
  obtain ⟨readT, hreadT⟩ := exists_reader hinjT
  refine ⟨⟨writeM, readM, writeT, readT, fun _ => none⟩, ⟨hreadM, hreadT, ?_, ?_⟩, hsampleM,
    hsampleT⟩
  · intro r
    rcases hallT r with h | ⟨n, h⟩
    · exact ⟨sampleTouchBody, h⟩
    · exact ⟨List.replicate n '0', h⟩
  · intro r
    show '\n' ∉ writeT r
    rcases hallT r with h | ⟨n, h⟩
    · rw [h]
      decide
    · rw [h]
      simp [codeText, List.mem_replicate]

noncomputable def sampleJson : SerdeJson := exists_sampleJson.choose

theorem sampleJson_lawful : sampleJson.Lawful := exists_sampleJson.choose_spec.1

/-- A touch of a name with a newline, a tombstone, a restart, and the tombstone taken back. -/
def sampleRun : List Op :=
  [.recordFirstTouch "/docs/a\n".toList PathIdentity.missing none, .addTombstone "/docs".toList,
    .restart, .removeTombstone "/docs".toList]

theorem safe_run_reloads_sample : ∃ new b,
    Branch.create sampleJson .fresh "agent" (some "main") 0 .lazy [] = some new ∧
    run sampleJson new sampleRun = some b ∧ Reloads sampleJson b := by
  obtain ⟨new, hnew, -⟩ := Durable.create sampleJson "agent" (some "main") 0 .lazy []
  have hsafe : SafeRun sampleJson new sampleRun := by
    refine ⟨trivial, fun _ _ => ⟨Or.inr (by decide), fun _ _ => ⟨trivial, fun _ _ => ⟨trivial, ?_⟩⟩⟩⟩
    exact fun _ _ => trivial
  obtain ⟨b, hrun, hb⟩ := safe_run_reloads sampleJson_lawful hnew hsafe
  exact ⟨new, b, hnew, hrun, hb⟩

/-- What a load reads as tombstones, where no `touches.json` is left to migrate. -/
theorem load_tombstones {json : SerdeJson} {f : BranchFiles} {b : Branch}
    (htouches : f.touches = none) (h : load json f = some b) :
    b.tombstones =
      loadTombstones (migrateLegacyTombstones { f with tombstones := some (f.tombstones.getD []) }) := by
  have hmigrate : migrateLegacyTouches json { f with tombstones := some (f.tombstones.getD []) } =
      some { f with tombstones := some (f.tombstones.getD []) } := by
    simp [migrateLegacyTouches, snapshotTouches, htouches]
  rw [load] at h
  simp only [Option.bind_eq_bind, hmigrate, Option.bind_some] at h
  obtain ⟨text, -, h⟩ := Option.bind_eq_some_iff.mp h
  obtain ⟨metadata, -, h⟩ := Option.bind_eq_some_iff.mp h
  obtain ⟨touches, -, h⟩ := Option.bind_eq_some_iff.mp h
  rw [← Option.some.inj h]

theorem migrateLegacyTombstones_of_empty {f : BranchFiles} (h : snapshotPaths f.tombstones = []) :
    migrateLegacyTombstones f = f := by
  simp [migrateLegacyTombstones, h]

/-- A tombstone for a name with a newline comes back as two others. -/
theorem not_reloadIsLossless : ¬ ReloadIsLossless := by
  intro hall
  obtain ⟨b', hload, -, htomb, -⟩ := hall sampleJson sampleJson_lawful "agent" (some "main") 0 .lazy
    [] _ rfl [.addTombstone "/a\nb".toList] _ (by simp) rfl
  have hread := load_tombstones rfl hload
  rw [migrateLegacyTombstones_of_empty rfl, htomb] at hread
  have hlost : "/a\nb".toList ∉ loadTombstones
      { BranchFiles.fresh with tombstonesLog := some "+ /a\nb\n".toList } := by decide
  apply hlost
  have hheld : "/a\nb".toList ∈ (insert "/a\nb".toList ∅ : Finset Text) := Finset.mem_insert_self _ _
  exact hread ▸ hheld

end BranchFs.Store
