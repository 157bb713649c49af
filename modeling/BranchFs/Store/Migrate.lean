/-
# BranchFs.Store.Migrate -- legacy snapshots moved to the head of their logs

`Branch::load` turns an old tombstone snapshot into `+ ` lines in front of the log, and the records of
an old `touches.json` into lines of the touch log; then it empties the snapshot. Replaying a log over
lines that were put in front of it is replaying it over what they hold, so nothing changes, however
often this is done and wherever it stops. One thing does: a path that was read off an unmarked line
with a `\r` at its end is written back with a `\n` behind it, and is then read without the `\r`.
-/
import BranchFs.Store.Rewrite

namespace BranchFs.Store

open BranchFs.Logic

/-! ## The migration, effect by effect -/

/-- The snapshot's paths as they are written to the log. -/
def movedPaths (f : BranchFiles) : List Text :=
  ((snapshotPaths f.tombstones).mergeSort (· ≤ ·)).dedup

/-- The tombstone log renamed into place, the snapshot still there. -/
def tombstonesMoved (f : BranchFiles) : BranchFiles :=
  { f with
    tombstonesLog := some (unlines ((movedPaths f).map ("+ ".toList ++ ·)) ++ f.tombstonesLog.getD []) }

section Json

variable (json : SerdeJson)

/-- The touch log renamed into place, `touches.json` still there. -/
def touchesMoved (records : List TouchRecord) (f : BranchFiles) : BranchFiles :=
  { f with
    touchesLog := some (unlines ((records.mergeSort fun a b => a.path ≤ b.path).map json.writeTouch) ++
      f.touchesLog.getD []) }

/-- `Branch::migrate_legacy_touch_and_tombstone_snapshots`. -/
def migrateLegacy (f : BranchFiles) : Option BranchFiles := do
  some (migrateLegacyTombstones (← migrateLegacyTouches json f))

/-- What is on disk before a migration, after each of its effects, and at its end. -/
inductive Migrating (f : BranchFiles) : BranchFiles → Prop
  | started : Migrating f f
  | touchesLog (records : List TouchRecord) (h : snapshotTouches json f = some records)
      (some_record : records ≠ []) : Migrating f (touchesMoved json records f)
  | touchesCleared (f' : BranchFiles) (h : migrateLegacyTouches json f = some f') : Migrating f f'
  | tombstonesLog (f' : BranchFiles) (h : migrateLegacyTouches json f = some f')
      (some_path : snapshotPaths f'.tombstones ≠ []) : Migrating f (tombstonesMoved f')
  | done (f' : BranchFiles) (h : migrateLegacy json f = some f') : Migrating f f'

/-- Two directories a load reads alike. -/
def LoadsAlike (f g : BranchFiles) : Prop :=
  loadTombstones g = loadTombstones f ∧ loadTouches json g = loadTouches json f

/-- Wherever the migration stops, the branch loads as before, and so it does when the migration is
made again from there. -/
def MigratesSafely (f : BranchFiles) : Prop :=
  ∀ g, Migrating json f g →
    LoadsAlike json f g ∧ ∃ g', migrateLegacy json g = some g' ∧ LoadsAlike json f g'

end Json

/-- Where the log is silent, an entry of the snapshot is one with a `\r` taken off its end, and the
other way round. -/
def EndsUnmarked (f : BranchFiles) : Prop :=
  ∀ path, path ∉ loggedPaths f →
    (path ∈ snapshotPaths f.tombstones ↔ path ∈ (snapshotPaths f.tombstones).map chompEnd)

/-! ## Tombstones -/

variable {json : SerdeJson} {f : BranchFiles}

/-- The replay of the tombstone log over a set. -/
def replayTombstones (f : BranchFiles) (S : Finset Text) : Finset Text :=
  (lines (f.tombstonesLog.getD [])).foldl applyTombstone S

theorem loadTombstones_eq (f : BranchFiles) :
    loadTombstones f = replayTombstones f (snapshotPaths f.tombstones).toFinset := rfl

theorem mem_movedPaths {path : Text} : path ∈ movedPaths f ↔ path ∈ snapshotPaths f.tombstones := by
  rw [movedPaths, List.mem_dedup, List.mem_mergeSort]

/-- A path of a snapshot is one line of it. -/
theorem notMem_of_mem_snapshotPaths {path : Text} (h : path ∈ snapshotPaths f.tombstones) :
    '\n' ∉ path := notMem_of_mem_lines (List.mem_of_mem_filter h)

theorem lines_tombstonesMoved (f : BranchFiles) :
    lines ((tombstonesMoved f).tombstonesLog.getD []) =
      ((movedPaths f).map chompEnd).map ("+ ".toList ++ ·) ++ lines (f.tombstonesLog.getD []) := by
  have hline : ∀ path ∈ movedPaths f,
      lines (("+ ".toList ++ path) ++ ['\n']) = ["+ ".toList ++ chompEnd path] := by
    intro path hpath
    have hnl : '\n' ∉ "+ ".toList ++ path := by
      rw [List.mem_append, not_or]
      exact ⟨by decide, notMem_of_mem_snapshotPaths (mem_movedPaths.mp hpath)⟩
    rw [lines_chompEnd hnl, chompEnd_marked (by decide)]
  rw [tombstonesMoved, Option.getD_some, lines_unlines_append, List.flatMap_map]
  congr 1
  rw [List.map_map, List.map_eq_flatMap]
  exact List.flatMap_congr hline

/-- A replay of the log with the snapshot at its head. -/
theorem replay_tombstonesMoved (f : BranchFiles) (S : Finset Text) :
    replayTombstones (tombstonesMoved f) S =
      replayTombstones f (S ∪ ((snapshotPaths f.tombstones).map chompEnd).toFinset) := by
  rw [replayTombstones, lines_tombstonesMoved, List.foldl_append, foldl_add]
  have hset : ((movedPaths f).map chompEnd).toFinset =
      ((snapshotPaths f.tombstones).map chompEnd).toFinset := by
    ext path
    simp only [List.mem_toFinset, List.mem_map, mem_movedPaths]
  rw [hset]
  rfl

theorem replayTombstones_eq_iff (S S' : Finset Text) :
    replayTombstones f S = replayTombstones f S' ↔
      ∀ path, path ∉ loggedPaths f → (path ∈ S ↔ path ∈ S') := by
  rw [replayTombstones, replayTombstones, replay_eq_iff applyTombstone_pointwise]
  simp only [mem_loggedPaths]

theorem migrateLegacyTombstones_of_some (h : snapshotPaths f.tombstones ≠ []) :
    migrateLegacyTombstones f = { tombstonesMoved f with tombstones := some [] } := by
  have hsome : (movedPaths f).isEmpty = false := by
    rw [List.isEmpty_eq_false_iff]
    intro hnil
    obtain ⟨path, hpath⟩ := List.exists_mem_of_ne_nil _ h
    have hmoved := mem_movedPaths.mpr hpath
    rw [hnil] at hmoved
    exact List.not_mem_nil hmoved
  rw [migrateLegacyTombstones]
  show (if (movedPaths f).isEmpty = true then f else _) = _
  rw [hsome]
  rfl

theorem snapshotPaths_cleared : snapshotPaths (some []) = [] := rfl

/-- A migrated directory is its log over nothing. -/
theorem load_migrateLegacyTombstones (f : BranchFiles) :
    loadTombstones (migrateLegacyTombstones f) =
      replayTombstones f ((snapshotPaths f.tombstones).map chompEnd).toFinset := by
  by_cases h : snapshotPaths f.tombstones = []
  · rw [migrateLegacyTombstones_of_empty h, loadTombstones_eq, h]
    rfl
  · rw [migrateLegacyTombstones_of_some h, loadTombstones_eq]
    show replayTombstones (tombstonesMoved f) ∅ = _
    rw [replay_tombstonesMoved, Finset.empty_union]

theorem load_tombstonesMoved (f : BranchFiles) :
    loadTombstones (tombstonesMoved f) = replayTombstones f
      ((snapshotPaths f.tombstones).toFinset ∪
        ((snapshotPaths f.tombstones).map chompEnd).toFinset) := by
  rw [loadTombstones_eq]
  show replayTombstones (tombstonesMoved f) (snapshotPaths f.tombstones).toFinset = _
  rw [replay_tombstonesMoved]

/-- The snapshot left over is put in front of the log once more. -/
theorem load_migrated_again (f : BranchFiles) :
    loadTombstones (migrateLegacyTombstones (tombstonesMoved f)) =
      replayTombstones f ((snapshotPaths f.tombstones).map chompEnd).toFinset := by
  rw [load_migrateLegacyTombstones]
  show replayTombstones (tombstonesMoved f) ((snapshotPaths f.tombstones).map chompEnd).toFinset = _
  rw [replay_tombstonesMoved, Finset.union_self]

theorem migrated_alike_iff :
    loadTombstones (migrateLegacyTombstones f) = loadTombstones f ↔ EndsUnmarked f := by
  rw [load_migrateLegacyTombstones, loadTombstones_eq, replayTombstones_eq_iff]
  simp only [EndsUnmarked, List.mem_toFinset, iff_comm]

theorem EndsUnmarked.moved (h : EndsUnmarked f) :
    loadTombstones (tombstonesMoved f) = loadTombstones f := by
  rw [load_tombstonesMoved, loadTombstones_eq, replayTombstones_eq_iff]
  intro path hpath
  rw [Finset.mem_union, List.mem_toFinset, List.mem_toFinset, ← h path hpath, or_self]

/-! ## Touches -/

/-- No two records share a path. -/
def OnePerPath (records : List TouchRecord) : Prop :=
  ∀ r ∈ records, ∀ r' ∈ records, r.path = r'.path → r = r'

/-- Records written to the log are added to what is there, where nothing there has their paths. -/
theorem foldlM_writeTouch (hjson : json.Lawful) (records : List TouchRecord) (T : Finset TouchRecord)
    (hone : OnePerPath (records ++ T.toList)) :
    (records.map json.writeTouch).foldlM (applyTouch json) T = some (T ∪ records.toFinset) := by
  induction records generalizing T with
  | nil => simp
  | cons record records ih =>
    have hadd : applyTouch json T (json.writeTouch record) = some (insert record T) := by
      apply applyTouch_add hjson
      intro r hr hpath
      exact hone r (by simp [hr]) record (by simp) hpath
    rw [List.map_cons, List.foldlM_cons, hadd]
    show (records.map json.writeTouch).foldlM (applyTouch json) (insert record T) = _
    rw [ih]
    · rw [List.toFinset_cons, Finset.insert_union, Finset.union_insert]
    · intro r hr r' hr' hpath
      apply hone r ?_ r' ?_ hpath
      · simp only [List.mem_append, Finset.mem_toList, Finset.mem_insert] at hr
        simp only [List.mem_append, List.mem_cons, Finset.mem_toList]
        tauto
      · simp only [List.mem_append, Finset.mem_toList, Finset.mem_insert] at hr'
        simp only [List.mem_append, List.mem_cons, Finset.mem_toList]
        tauto

/-- The replay of the touch log over a map. -/
def replayTouches (json : SerdeJson) (f : BranchFiles) (T : Finset TouchRecord) :
    Option (Finset TouchRecord) :=
  (lines (f.touchesLog.getD [])).foldlM (applyTouch json) T

theorem replay_touchesMoved (hjson : json.Lawful) {records : List TouchRecord}
    {T : Finset TouchRecord} (hone : OnePerPath (records ++ T.toList)) :
    replayTouches json (touchesMoved json records f) T =
      replayTouches json f (T ∪ records.toFinset) := by
  have hsorted : OnePerPath (records.mergeSort (fun a b => a.path ≤ b.path) ++ T.toList) := by
    intro r hr r' hr' hpath
    simp only [List.mem_append, List.mem_mergeSort] at hr hr'
    exact hone r (List.mem_append.mpr hr) r' (List.mem_append.mpr hr') hpath
  have hset : (records.mergeSort fun a b => a.path ≤ b.path).toFinset = records.toFinset := by
    ext r
    simp only [List.mem_toFinset, List.mem_mergeSort]
  have hlines : lines ((touchesMoved json records f).touchesLog.getD []) =
      (records.mergeSort fun a b => a.path ≤ b.path).map json.writeTouch ++
        lines (f.touchesLog.getD []) := by
    rw [touchesMoved, Option.getD_some, lines_unlines_append, ← lines_unlines_flatMap]
    rw [lines_unlines]
    intro l hl
    obtain ⟨r, -, rfl⟩ := List.mem_map.mp hl
    exact lineSafe_record hjson r
  rw [replayTouches, hlines, List.foldlM_append, foldlM_writeTouch hjson _ _ hsorted, hset]
  rfl

theorem loadTouches_eq {records : List TouchRecord} (h : snapshotTouches json f = some records) :
    loadTouches json f = replayTouches json f records.toFinset := by
  rw [loadTouches, h]
  rfl

/-- The records are there twice, in the log and in `touches.json`. -/
theorem load_touchesMoved (hjson : json.Lawful) {records : List TouchRecord}
    (h : snapshotTouches json f = some records) (hone : OnePerPath records) :
    loadTouches json (touchesMoved json records f) = loadTouches json f := by
  have hsame : snapshotTouches json (touchesMoved json records f) = some records := h
  rw [loadTouches_eq hsame, loadTouches_eq h, replay_touchesMoved hjson, Finset.union_self]
  intro r hr r' hr' hpath
  simp only [List.mem_append, Finset.mem_toList, List.mem_toFinset, or_self] at hr hr'
  exact hone r hr r' hr' hpath

/-! ## The two together -/

/-- Alike in the files of the tombstones. -/
def SameTombstones (f g : BranchFiles) : Prop :=
  g.tombstones = f.tombstones ∧ g.tombstonesLog = f.tombstonesLog

/-- Alike in the files of the touches. -/
def SameTouches (f g : BranchFiles) : Prop :=
  g.touches = f.touches ∧ g.touchesLog = f.touchesLog

theorem SameTombstones.load {g : BranchFiles} (h : SameTombstones f g) :
    loadTombstones g = loadTombstones f := by rw [loadTombstones, loadTombstones, h.1, h.2]

theorem SameTombstones.ends {g : BranchFiles} (h : SameTombstones f g) :
    EndsUnmarked g ↔ EndsUnmarked f := by
  rw [EndsUnmarked, EndsUnmarked, loggedPaths, loggedPaths, h.1, h.2]

theorem SameTouches.snapshot {g : BranchFiles} (h : SameTouches f g) :
    snapshotTouches json g = snapshotTouches json f := by
  rw [snapshotTouches, snapshotTouches, h.1]

theorem SameTouches.load {g : BranchFiles} (h : SameTouches f g) :
    loadTouches json g = loadTouches json f := by
  rw [loadTouches, loadTouches, h.snapshot, h.2]

theorem sameTouches_migrateLegacyTombstones (f : BranchFiles) :
    SameTouches f (migrateLegacyTombstones f) := by
  by_cases h : snapshotPaths f.tombstones = []
  · rw [migrateLegacyTombstones_of_empty h]
    exact ⟨rfl, rfl⟩
  · rw [migrateLegacyTombstones_of_some h]
    exact ⟨rfl, rfl⟩

theorem migrateLegacyTouches_of_empty (h : snapshotTouches json f = some []) :
    migrateLegacyTouches json f = some f := by
  rw [migrateLegacyTouches, h]
  rfl

/-- The records have moved to the log: nothing is left to move, and a load reads what it read. -/
theorem migrateLegacyTouches_spec (hjson : json.Lawful)
    (hempty : json.readTouches "\x7b\x7d\n".toList = some []) {records : List TouchRecord}
    (h : snapshotTouches json f = some records) (hone : OnePerPath records) :
    ∃ f', migrateLegacyTouches json f = some f' ∧ snapshotTouches json f' = some [] ∧
      loadTouches json f' = loadTouches json f ∧ SameTombstones f f' := by
  cases records with
  | nil => exact ⟨f, migrateLegacyTouches_of_empty h, h, rfl, rfl, rfl⟩
  | cons record records =>
    refine ⟨{ touchesMoved json (record :: records) f with touches := some "\x7b\x7d\n".toList }, ?_,
      hempty, ?_, rfl, rfl⟩
    · rw [migrateLegacyTouches, h]
      rfl
    · rw [loadTouches_eq h]
      have hcleared : snapshotTouches json { touchesMoved json (record :: records) f with
          touches := some "\x7b\x7d\n".toList } = some [] := hempty
      rw [loadTouches_eq hcleared]
      have honly : OnePerPath ((record :: records) ++ (∅ : Finset TouchRecord).toList) := by
        simpa using hone
      have hreplay : replayTouches json (touchesMoved json (record :: records) f) ∅ = _ :=
        replay_touchesMoved hjson honly
      rw [Finset.empty_union] at hreplay
      exact hreplay

/-- A migration goes through, and reads the touches it found. -/
theorem migrateLegacy_spec (hjson : json.Lawful)
    (hempty : json.readTouches "\x7b\x7d\n".toList = some []) {records : List TouchRecord}
    (h : snapshotTouches json f = some records) (hone : OnePerPath records) :
    ∃ g', migrateLegacy json f = some g' ∧ loadTouches json g' = loadTouches json f ∧
      loadTombstones g' = loadTombstones (migrateLegacyTombstones f) := by
  obtain ⟨f', hmigrate, -, htouches, hsame⟩ := migrateLegacyTouches_spec hjson hempty h hone
  refine ⟨migrateLegacyTombstones f', ?_, ?_, ?_⟩
  · rw [migrateLegacy, hmigrate]
    rfl
  · rw [(sameTouches_migrateLegacyTombstones f').load, htouches]
  · rw [load_migrateLegacyTombstones, load_migrateLegacyTombstones, replayTombstones,
      replayTombstones, hsame.1, hsame.2]

/-- Every legacy directory migrates safely; `touches.json` is a map whose keys are its records'
paths. -/
def MigrationIsLossless : Prop :=
  ∀ json : SerdeJson, json.Lawful → json.readTouches "\x7b\x7d\n".toList = some [] →
    ∀ f records, snapshotTouches json f = some records → OnePerPath records → MigratesSafely json f

/-- The migration loses and invents nothing, wherever it stops and however often it is made, exactly
when no `\r` at the end of an entry of the tombstone snapshot matters. -/
theorem migrates_safely_iff (hjson : json.Lawful)
    (hempty : json.readTouches "\x7b\x7d\n".toList = some []) {records : List TouchRecord}
    (h : snapshotTouches json f = some records) (hone : OnePerPath records) :
    MigratesSafely json f ↔ EndsUnmarked f := by
  constructor
  · intro hsafe
    obtain ⟨-, g', hmigrate, htomb, -⟩ := hsafe f .started
    obtain ⟨g'', hmigrate', -, htomb'⟩ := migrateLegacy_spec hjson hempty h hone
    obtain rfl : g' = g'' := Option.some.inj (hmigrate.symm.trans hmigrate')
    exact migrated_alike_iff.mp (htomb'.symm.trans htomb)
  · intro hends g hg
    obtain ⟨f', hmoved, hnone, htouches, hsame⟩ := migrateLegacyTouches_spec hjson hempty h hone
    have hends' : EndsUnmarked f' := hsame.ends.mpr hends
    have honeNil : OnePerPath [] := fun r hr => absurd hr List.not_mem_nil
    -- what is read at `g`, and what a migration from `g` reads
    have hread : LoadsAlike json f g ∧ (∃ rs, snapshotTouches json g = some rs ∧ OnePerPath rs) ∧
        loadTombstones (migrateLegacyTombstones g) = loadTombstones f := by
      cases hg with
      | started => exact ⟨⟨rfl, rfl⟩, ⟨records, h, hone⟩, migrated_alike_iff.mpr hends⟩
      | touchesLog records' h' some_record =>
        obtain rfl : records' = records := Option.some.inj (h'.symm.trans h)
        have hkept : SameTombstones f (touchesMoved json records' f) := ⟨rfl, rfl⟩
        refine ⟨⟨hkept.load, load_touchesMoved hjson h hone⟩, ⟨records', h, hone⟩, ?_⟩
        rw [migrated_alike_iff.mpr (hkept.ends.mpr hends), hkept.load]
      | touchesCleared g h' =>
        obtain rfl : g = f' := Option.some.inj (h'.symm.trans hmoved)
        refine ⟨⟨hsame.load, htouches⟩, ⟨[], hnone, honeNil⟩, ?_⟩
        rw [migrated_alike_iff.mpr hends', hsame.load]
      | tombstonesLog g h' some_path =>
        obtain rfl : g = f' := Option.some.inj (h'.symm.trans hmoved)
        have hkept : SameTouches g (tombstonesMoved g) := ⟨rfl, rfl⟩
        refine ⟨⟨?_, ?_⟩, ⟨[], hkept.snapshot.trans hnone, honeNil⟩, ?_⟩
        · rw [hends'.moved, hsame.load]
        · rw [hkept.load, htouches]
        · rw [load_migrated_again, ← load_migrateLegacyTombstones, migrated_alike_iff.mpr hends',
            hsame.load]
      | done g h' =>
        have hlast : g = migrateLegacyTombstones f' := by
          rw [migrateLegacy, hmoved] at h'
          exact (Option.some.inj h').symm
        subst hlast
        have hkept := sameTouches_migrateLegacyTombstones f'
        have htomb : loadTombstones (migrateLegacyTombstones f') = loadTombstones f := by
          rw [migrated_alike_iff.mpr hends', hsame.load]
        have hempty' : snapshotPaths (migrateLegacyTombstones f').tombstones = [] := by
          by_cases hnil : snapshotPaths f'.tombstones = []
          · rw [migrateLegacyTombstones_of_empty hnil, hnil]
          · rw [migrateLegacyTombstones_of_some hnil]
            rfl
        refine ⟨⟨htomb, ?_⟩, ⟨[], hkept.snapshot.trans hnone, honeNil⟩, ?_⟩
        · rw [hkept.load, htouches]
        · rw [migrateLegacyTombstones_of_empty hempty', htomb]
    obtain ⟨halike, ⟨rs, hrs, honers⟩, htomb⟩ := hread
    obtain ⟨g', hmigrate, htouches', htomb'⟩ := migrateLegacy_spec hjson hempty hrs honers
    exact ⟨halike, g', hmigrate, htomb'.trans htomb, htouches'.trans halike.2⟩

/-- The text of a `touches.json` with the sample's record. -/
def sampleTouchesText : Text :=
  "\x7b\"/docs/a\\n\":".toList ++ sampleTouchText ++ ['}']

/-- The sample library, which also reads the map with the sample's record and the empty one. -/
noncomputable def legacyJson : SerdeJson :=
  { sampleJson with
    readTouches := fun text =>
      if text = "\x7b\x7d\n".toList then some []
      else if text = sampleTouchesText then some [sampleTouch] else none }

theorem legacyJson_lawful : legacyJson.Lawful where
  readMetadata_write := sampleJson_lawful.readMetadata_write
  readTouch_write := sampleJson_lawful.readTouch_write
  braces := sampleJson_lawful.braces
  oneLine := sampleJson_lawful.oneLine

theorem legacyJson_empty : legacyJson.readTouches "\x7b\x7d\n".toList = some [] := rfl

/-- Two deletions and a touch in the old form, and a log that takes one deletion back. -/
def legacyFiles : BranchFiles :=
  { BranchFiles.fresh with
    tombstones := some "/b\n/a\n".toList
    tombstonesLog := some "- /a\n".toList
    touches := some sampleTouchesText }

theorem legacyFiles_touches : snapshotTouches legacyJson legacyFiles = some [sampleTouch] := by
  have hsome : sampleTouchesText.isEmpty = false := by decide
  have hne : ¬ sampleTouchesText = "\x7b\x7d\n".toList := by decide
  rw [snapshotTouches, legacyFiles]
  simp only [hsome, legacyJson, if_neg hne, if_true, Bool.false_eq_true, if_false]

theorem migrates_safely_sample : MigratesSafely legacyJson legacyFiles := by
  apply (migrates_safely_iff legacyJson_lawful legacyJson_empty legacyFiles_touches ?_).mpr
  · intro path _
    have hends : (snapshotPaths legacyFiles.tombstones).map chompEnd =
        snapshotPaths legacyFiles.tombstones := by decide
    rw [hends]
  · intro r hr r' hr' _
    rw [List.mem_singleton.mp hr, List.mem_singleton.mp hr']

/-- The deletion of a name that ends in two `\r`, in the old form. -/
def returnFiles : BranchFiles :=
  { BranchFiles.fresh with tombstones := some "/x\r\r\n".toList }

/-- The old form is read without one `\r`, the new one without both. -/
theorem not_migrationIsLossless : ¬ MigrationIsLossless := by
  intro h
  have hnone : snapshotTouches legacyJson returnFiles = some [] := rfl
  have hone : OnePerPath [] := fun r hr => absurd hr List.not_mem_nil
  obtain ⟨-, g', hmigrate, htomb, -⟩ :=
    h legacyJson legacyJson_lawful legacyJson_empty returnFiles [] hnone hone returnFiles .started
  obtain ⟨g'', hmigrate', -, htomb'⟩ :=
    migrateLegacy_spec legacyJson_lawful legacyJson_empty hnone hone
  obtain rfl : g' = g'' := Option.some.inj (hmigrate.symm.trans hmigrate')
  have hread : loadTombstones (migrateLegacyTombstones returnFiles) = loadTombstones returnFiles :=
    htomb'.symm.trans htomb
  have hlost : "/x\r".toList ∈ loadTombstones returnFiles := by decide
  rw [← hread, load_migrateLegacyTombstones] at hlost
  revert hlost
  decide

end BranchFs.Store
