/-
# BranchFs.Store.Persist -- a branch and the files it is rebuilt from

`Branch` of `branch.rs` with the files of its directory: the tombstone snapshot and its log, the
touch log (one JSON record a line, between raw removal lines), `meta.json`. Every method that
changes the memory also writes a file, and `load` reads the memory back from the files alone. Paths
are text here, as the source has them, since what a file name does to a line is the point; sets are
`Finset`s, and whoever writes one out brings the order in which the hash set hands it out.

`serde_json` is not part of the repository: what it writes and reads is a parameter.
-/
import BranchFs.Model.Branch
import BranchFs.Logic.Lines
import Mathlib.Data.Finset.Sort
import Mathlib.Data.String.Basic

namespace BranchFs.Store

open BranchFs.Logic

/-! ## Records and files -/

structure BranchMetadata where
  name : String
  parent : Option String
  inheritance : InheritanceMode
  state : BranchState
  parentVersionAtFork : UInt64
  commitCount : UInt64
  hidePaths : List String
  deriving DecidableEq

/-- `TouchRecord`, its path as text. -/
structure TouchRecord where
  path : Text
  baseAtFirstTouch : PathIdentity
  baseContentKey : Option String
  deriving DecidableEq

/-- The `serde_json` calls of a branch. -/
structure SerdeJson where
  writeMetadata : BranchMetadata → Text
  readMetadata : Text → Option BranchMetadata
  writeTouch : TouchRecord → Text
  readTouch : Text → Option TouchRecord
  readTouches : Text → Option (List TouchRecord)

/-- What the branch relies on: a value that was written is read back, and the compact form of a
record is one line, an object in braces with its control characters escaped. -/
structure SerdeJson.Lawful (json : SerdeJson) : Prop where
  readMetadata_write : ∀ m, json.readMetadata (json.writeMetadata m) = some m
  readTouch_write : ∀ r, json.readTouch (json.writeTouch r) = some r
  braces : ∀ r, ∃ body, json.writeTouch r = '{' :: (body ++ ['}'])
  oneLine : ∀ r, '\n' ∉ json.writeTouch r

/-- The order in which a hash set hands out its elements. -/
structure HashIter where
  iter : Finset Text → List Text
  mem_iter : ∀ S t, t ∈ iter S ↔ t ∈ S

/-- The files of a branch directory that `load` reads; `none` is a file that is not there. -/
structure BranchFiles where
  /-- `tombstones` -/
  tombstones : Option Text
  /-- `tombstones.log` -/
  tombstonesLog : Option Text
  /-- `touches.json` -/
  touches : Option Text
  /-- `touches.log` -/
  touchesLog : Option Text
  /-- `meta.json` -/
  metadata : Option Text
  deriving DecidableEq

/-- An empty branch directory. -/
def BranchFiles.fresh : BranchFiles where
  tombstones := none
  tombstonesLog := none
  touches := none
  touchesLog := none
  metadata := none

/-- A branch: what it holds in memory, and its files. -/
structure Branch where
  metadata : BranchMetadata
  tombstones : Finset Text
  touches : Finset TouchRecord
  files : BranchFiles
  deriving DecidableEq

/-! ## Text -/

/-- `str::trim(..).is_empty()`. -/
def isBlank (line : Text) : Bool := line.all isWhiteSpace

/-- `str::trim_matches('/')`. -/
def trimSlashes (p : Text) : Text := trimEnd (· == '/') (trimStart (· == '/') p)

/-- `path_is_same_or_descendant`. -/
def pathIsSameOrDescendant (candidate parent : Text) : Bool :=
  trimSlashes candidate == trimSlashes parent ||
    (trimSlashes parent ++ ['/']).isPrefixOf (trimSlashes candidate)

/-- A line at the end of a file, which is created for it. -/
def appendLine (file : Option Text) (line : Text) : Option Text :=
  some (file.getD [] ++ line ++ ['\n'])

/-! ## Loading -/

/-- One line of the tombstone log. -/
def applyTombstone (set : Finset Text) (line : Text) : Finset Text :=
  if isBlank line then set
  else
    match "+ ".toList.isPrefixOf? line with
    | some path => insert path set
    | none =>
      match "- ".toList.isPrefixOf? line with
      | some path => set.erase path
      -- a bare path is an add
      | none => insert line set

/-- The paths of a snapshot. -/
def snapshotPaths (snapshot : Option Text) : List Text :=
  (lines (snapshot.getD [])).filter fun line => !isBlank line

/-- `Branch::load_tombstones`. -/
def loadTombstones (f : BranchFiles) : Finset Text :=
  (lines (f.tombstonesLog.getD [])).foldl applyTombstone (snapshotPaths f.tombstones).toFinset

/-- `Branch::migrate_legacy_tombstones`: the snapshot moves to the head of the log. -/
def migrateLegacyTombstones (f : BranchFiles) : BranchFiles :=
  let paths := ((snapshotPaths f.tombstones).mergeSort (· ≤ ·)).dedup
  if paths.isEmpty then f
  else
    { f with
      tombstonesLog := some (unlines (paths.map ("+ ".toList ++ ·)) ++ f.tombstonesLog.getD [])
      tombstones := some [] }

section Json

variable (json : SerdeJson)

/-- One line of the touch log: a removal or a record. -/
def applyTouch (touches : Finset TouchRecord) (line : Text) : Option (Finset TouchRecord) :=
  if isBlank line then some touches
  else
    match "- ".toList.isPrefixOf? line with
    | some path => some (touches.filter fun r => !pathIsSameOrDescendant r.path path)
    | none => do
      let record ← json.readTouch line
      some (insert record (touches.filter fun r => r.path ≠ record.path))

/-- The records of `touches.json`. -/
def snapshotTouches (f : BranchFiles) : Option (List TouchRecord) :=
  match f.touches with
  | none => some []
  | some data => if data.isEmpty then some [] else json.readTouches data

/-- `Branch::load_touches`. -/
def loadTouches (f : BranchFiles) : Option (Finset TouchRecord) := do
  let touches ← snapshotTouches json f
  (lines (f.touchesLog.getD [])).foldlM (applyTouch json) touches.toFinset

/-- `Branch::migrate_legacy_touches`: the records of `touches.json` move to the head of the log. -/
def migrateLegacyTouches (f : BranchFiles) : Option BranchFiles := do
  let records ← snapshotTouches json f
  if records.isEmpty then some f
  else
    let records := records.mergeSort fun a b => a.path ≤ b.path
    some { f with
      touchesLog := some (unlines (records.map json.writeTouch) ++ f.touchesLog.getD [])
      touches := some "{}\n".toList }

/-- `Branch::load`. -/
def load (f : BranchFiles) : Option Branch := do
  let metadata ← json.readMetadata (← f.metadata)
  let f := { f with tombstones := some (f.tombstones.getD []) }
  let f := migrateLegacyTombstones (← migrateLegacyTouches json f)
  let touches ← loadTouches json f
  some
    { metadata := metadata
      tombstones := loadTombstones f
      touches := touches
      files := f }

/-! ## Changing a branch -/

namespace Branch

/-- `Branch::write_metadata`. -/
def writeMetadata (b : Branch) : Branch :=
  { b with files := { b.files with metadata := some (json.writeMetadata b.metadata) } }

/-- `Branch::new`, over what its directory holds already. -/
def create (f : BranchFiles) (name : String) (parent : Option String) (version : UInt64)
    (inheritance : InheritanceMode) (hidePaths : List String) : Option Branch := do
  let f := { f with tombstones := some (f.tombstones.getD []) }
  let touches ← loadTouches json f
  some <| writeMetadata json
    { metadata :=
        { name := name
          parent := parent
          inheritance := inheritance
          state := .open
          parentVersionAtFork := version
          commitCount := 0
          hidePaths := hidePaths.filterMap normalizeHidePath }
      tombstones := loadTombstones f
      touches := touches
      files := f }

/-- `Branch::set_state`. -/
def setState (state : BranchState) (b : Branch) : Branch :=
  writeMetadata json { b with metadata := { b.metadata with state := state } }

/-- What a commit into the branch does to its counter: `fetch_add(1)`, written at once. -/
def countCommit (b : Branch) : Branch :=
  writeMetadata json { b with metadata := { b.metadata with commitCount := b.metadata.commitCount + 1 } }

/-- `Branch::append_tombstone_op`. -/
def appendTombstoneOp (op : Char) (path : Text) (b : Branch) : Branch :=
  { b with files :=
    { b.files with tombstonesLog := appendLine b.files.tombstonesLog ([op, ' '] ++ path) } }

/-- `Branch::add_tombstone`. -/
def addTombstone (path : Text) (b : Branch) : Branch :=
  if path ∈ b.tombstones then b
  else appendTombstoneOp '+' path { b with tombstones := insert path b.tombstones }

/-- `Branch::remove_tombstone`. -/
def removeTombstone (path : Text) (b : Branch) : Branch :=
  if path ∈ b.tombstones then
    appendTombstoneOp '-' path { b with tombstones := b.tombstones.erase path }
  else b

/-- `Branch::remove_tombstones_under`. -/
def removeTombstonesUnder (order : HashIter) (path : Text) (b : Branch) : Branch :=
  let removed := (order.iter b.tombstones).filter (pathIsSameOrDescendant · path)
  removed.foldl (fun b t => appendTombstoneOp '-' t b)
    { b with tombstones := b.tombstones.filter (· ∉ removed) }

/-- `Branch::set_tombstones`, with `rewrite_tombstones`. -/
def setTombstones (order : HashIter) (tombstones : Finset Text) (b : Branch) : Branch :=
  { b with
    tombstones := tombstones
    files :=
      { b.files with
        tombstones := some (unlines (order.iter tombstones))
        tombstonesLog := none } }

/-- `Branch::record_first_touch`: `base` is the identity of what the branch inherits, `key` the name
under which its text was kept, if it was. -/
def recordFirstTouch (path : Text) (base : PathIdentity) (key : Option String) (b : Branch) :
    Branch :=
  if ∃ r ∈ b.touches, r.path = path then b
  else
    let record := { path := path, baseAtFirstTouch := base, baseContentKey := key }
    { b with
      touches := insert record b.touches
      files :=
        { b.files with touchesLog := appendLine b.files.touchesLog (json.writeTouch record) } }

/-- `Branch::remove_touch_records_under`; the kept texts of the removed records are no part of
this state. -/
def removeTouchRecordsUnder (path : Text) (b : Branch) : Branch :=
  let removed := b.touches.filter fun r => pathIsSameOrDescendant r.path path
  let kept := b.touches.filter fun r => ∀ x ∈ removed, r.path ≠ x.path
  if removed = ∅ then b
  else
    { b with
      touches := kept
      files :=
        { b.files with touchesLog := appendLine b.files.touchesLog ("- ".toList ++ path) } }

end Branch

/-! ## Runs -/

/-- What happens to a branch. -/
inductive Op where
  | recordFirstTouch (path : Text) (base : PathIdentity) (key : Option String)
  | removeTouchRecordsUnder (path : Text)
  | addTombstone (path : Text)
  | removeTombstone (path : Text)
  | removeTombstonesUnder (order : HashIter) (path : Text)
  | setTombstones (order : HashIter) (tombstones : Finset Text)
  | setState (state : BranchState)
  | countCommit
  /-- The daemon restarts: the memory is rebuilt from the files. -/
  | restart

/-- One step; only a restart can fail. -/
def step (b : Branch) : Op → Option Branch
  | .recordFirstTouch path base key => some (b.recordFirstTouch json path base key)
  | .removeTouchRecordsUnder path => some (b.removeTouchRecordsUnder path)
  | .addTombstone path => some (b.addTombstone path)
  | .removeTombstone path => some (b.removeTombstone path)
  | .removeTombstonesUnder order path => some (b.removeTombstonesUnder order path)
  | .setTombstones order tombstones => some (b.setTombstones order tombstones)
  | .setState state => some (b.setState json state)
  | .countCommit => some (b.countCommit json)
  | .restart => load json b.files

/-- A sequence of steps. -/
def run (b : Branch) (ops : List Op) : Option Branch := ops.foldlM (step json) b

end Json

end BranchFs.Store
