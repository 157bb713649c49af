/-
# BranchFs.Store.Reopen -- a branch is made over what its directory holds

`Branch::new` makes the directories of a branch where they are missing and then loads what is there.
`Daemon` keeps beside the manager the files that stand under the names without a branch: what a start
left alone because no metadata could be loaded from it. A branch made over such a directory starts
with its tombstones, touch records and delta; it starts clean exactly when there are none of these.
-/
import BranchFs.Fork.Create
import BranchFs.Merge.Walk
import BranchFs.Store.PathText
import BranchFs.Store.Reload

namespace BranchFs.Store

open BranchFs.Posix BranchFs.Logic

/-! ## The record of an opened branch -/

/-- The orders in which the tombstone set and the touch map are handed out. -/
structure LoadOrder where
  tombstones : HashIter
  touches : Finset TouchRecord → List TouchRecord
  mem_touches : ∀ S r, r ∈ touches S ↔ r ∈ S

/-- A path of the store as the list of its components. -/
def relPathOf (t : Text) : RelPath := ((t.splitOn '/').filter (· ≠ [])).map String.ofList

def TouchRecord.record (r : TouchRecord) : BranchFs.TouchRecord where
  path := relPathOf r.path
  baseAtFirstTouch := r.baseAtFirstTouch
  baseContentKey := r.baseContentKey

/-- The branch as the manager holds it. -/
def Branch.record (order : LoadOrder) (s : Branch) : BranchFs.Branch where
  name := s.metadata.name
  parent := s.metadata.parent
  inheritance := s.metadata.inheritance
  state := s.metadata.state
  tombstones := (order.tombstones.iter s.tombstones).map relPathOf
  touches := (order.touches s.touches).map TouchRecord.record
  commitCount := s.metadata.commitCount.toNat
  parentVersionAtFork := s.metadata.parentVersionAtFork.toNat
  hidePaths := s.metadata.hidePaths

theorem relPathOf_pathText {p : RelPath} (h : NamePath p) : relPathOf (pathText p) = p := by
  have hnames : ∀ l ∈ p.map String.toList, decide (l ≠ []) = true := by
    intro l hl
    obtain ⟨n, hn, rfl⟩ := List.mem_map.mp hl
    simpa using (h n hn).1
  have hback : (p.map String.toList).map String.ofList = p := by
    rw [List.map_map]
    conv_rhs => rw [← List.map_id p]
    exact List.map_congr_left fun n _ => String.ofList_toList
  rw [relPathOf, pathText_eq, List.splitOn_cons_eq_if_modifyHead]
  by_cases hp : p = []
  · subst hp
    simp [bareText]
  · simp only [beq_self_eq_true, if_true]
    rw [splitOn_bareText h hp, List.filter_cons_of_neg (by simp),
      List.filter_eq_self.mpr hnames, hback]

/-- The record carries what the daemon has written for paths of file names. -/
theorem Branch.carries_record (order : LoadOrder) (s : Branch)
    (htomb : ∀ t ∈ s.tombstones, ∃ p, NamePath p ∧ t = pathText p)
    (htouch : ∀ r ∈ s.touches, ∃ p, NamePath p ∧ r.path = pathText p) :
    Carries s (s.record order) where
  tombstones := by
    ext t
    simp only [Branch.record, List.map_map, List.mem_toFinset, List.mem_map, Function.comp_apply,
      order.tombstones.mem_iter]
    constructor
    · intro ht
      obtain ⟨p, hp, rfl⟩ := htomb t ht
      exact ⟨_, ht, by rw [relPathOf_pathText hp]⟩
    · rintro ⟨u, hu, rfl⟩
      obtain ⟨p, hp, rfl⟩ := htomb u hu
      rwa [relPathOf_pathText hp]
  touches := by
    have hback : ∀ r ∈ s.touches, TouchRecord.ofRecord r.record = r := by
      intro r hr
      obtain ⟨p, hp, heq⟩ := htouch r hr
      cases r
      simp only at heq
      subst heq
      simp only [TouchRecord.ofRecord, TouchRecord.record, relPathOf_pathText hp]
    ext r
    simp only [Branch.record, List.map_map, List.mem_toFinset, List.mem_map, Function.comp_apply,
      order.mem_touches]
    constructor
    · exact fun hr => ⟨r, hr, hback r hr⟩
    · rintro ⟨u, hu, rfl⟩
      rwa [hback u hu]
  names := by
    intro t ht
    obtain ⟨u, hu, rfl⟩ := List.mem_map.mp ht
    obtain ⟨p, hp, rfl⟩ := htomb u ((order.tombstones.mem_iter _ _).mp hu)
    rwa [relPathOf_pathText hp]
  touchNames := by
    intro r hr
    obtain ⟨u, hu, rfl⟩ := List.mem_map.mp hr
    obtain ⟨p, hp, heq⟩ := htouch u ((order.mem_touches _ _).mp hu)
    show NamePath (relPathOf u.path)
    rwa [heq, relPathOf_pathText hp]

/-! ## The daemon -/

/-- The manager, and the files in the directories of names that have no branch. -/
structure Daemon where
  manager : Manager
  dirs : String → BranchFiles

/-- Why a branch is not made: the manager's errors, and a touch log that cannot be read. -/
inductive OpenError where
  | branch (e : BranchError)
  | json
  deriving DecidableEq

abbrev Dmn := EStateM OpenError Daemon

/-- A directory is left with these files. -/
def Daemon.withDir (d : Daemon) (name : String) (f : BranchFiles) : Daemon :=
  { d with dirs := fun n => if n = name then f else d.dirs n }

def onManager {α : Type} (x : Mgr α) : Dmn α := fun d =>
  match x d.manager with
  | .ok a m => .ok a { d with manager := m }
  | .error e m => .error (.branch e) { d with manager := m }

section

variable (json : SerdeJson) (order : LoadOrder)

/-- `Branch::new` in the directory of `name`. -/
def openDir (name parent : String) (version : UInt64) (inheritance : InheritanceMode)
    (hidePaths : List String) : Dmn Branch := fun d =>
  match Branch.create json (d.dirs name) name (some parent) version inheritance hidePaths with
  | some s => .ok s (d.withDir name s.files)
  | none =>
    -- the tombstone file has been made by then
    .error .json (d.withDir name
      { d.dirs name with tombstones := some ((d.dirs name).tombstones.getD []) })

/-- The branch is put into the map; if its snapshot fails, its directory goes. -/
def insertOpened (name parent : String) (s : Branch) : Dmn Unit := fun d =>
  match onManager (forkBranch (s.record order) parent) d with
  | .ok _ d => .ok () d
  | .error e d => .error e (d.withDir name .fresh)

/-- `create_branch_with_options`, over whatever stands under the name. -/
def createBranchOver (name parent : String) (inheritance : InheritanceMode)
    (hidePaths : List String) : Dmn Unit := do
  let q ← onManager (creationParent name parent)
  let s ← openDir json name parent (.ofNat q.commitCount) inheritance hidePaths
  insertOpened order name parent s

/-- A step of the daemon; the directory of a branch that was committed or aborted is gone. -/
def Daemon.step (d : Daemon) : BranchFs.Op → Daemon
  | .create name parent inheritance hidePaths =>
    after (createBranchOver json order name parent inheritance hidePaths) d
  | op =>
    let m := BranchFs.step d.manager op
    { manager := m
      dirs := fun n =>
        if d.manager.isBranchValid n && !m.isBranchValid n then .fresh else d.dirs n }

/-- A store as the daemon finds it: the trees, and the files in each directory of `branches`. -/
structure OnDisk where
  disk : Tree
  dirs : String → Option BranchFiles

/-- `BranchManager::new`: the directories whose metadata loads are the branches, and `main` is made
if it is none of them. The branches are those of a tree, as everywhere in this model. -/
structure Started (s : OnDisk) (d : Daemon) : Prop where
  disk : d.manager.disk = s.disk
  left : ∀ n, d.manager.forest.get? n = none → d.dirs n = (s.dirs n).getD .fresh
  loaded : ∀ n f b, s.dirs n = some f → load json f = some b →
    d.manager.forest.get? n = some (b.record order)
  main : (∀ f, s.dirs "main" = some f → load json f = none) →
    ∃ b, Branch.create json ((s.dirs "main").getD .fresh) "main" none 0 .lazy [] = some b ∧
      d.manager.forest.get? "main" = some (b.record order)
  only : ∀ n b, d.manager.forest.get? n = some b →
    n = "main" ∨ ∃ f s', s.dirs n = some f ∧ load json f = some s'

end

/-! ## A clean start -/

/-- A new branch has no changes and no touch records, and shows what its parent shows. -/
structure StartsClean (order : HashOrder) (d d' : Daemon) (name parent : String)
    (b : BranchFs.Branch) : Prop where
  status : ∃ s, branchStatus d'.manager order name = .ok s ∧ s.diff = []
  touches : b.touches = []
  view : ∀ q, b.Unhidden q → d'.manager.view name q = d.manager.view parent q

/-- Nothing stands under the name but directories that the parent shows as well. -/
structure NothingLeft (json : SerdeJson) (d : Daemon) (name parent : String)
    (b : BranchFs.Branch) : Prop where
  tombstones : loadTombstones (d.dirs name) = ∅
  touches : loadTouches json (d.dirs name) = some ∅
  files : ∀ q, ¬ Leaf .dir (deltaKind d.manager.disk name) q
  dirs : ∀ q, b.Unhidden q → deltaKind d.manager.disk name q = some .dir →
    d.manager.view parent q = some .dir

variable {json : SerdeJson} {order : LoadOrder} {d d' : Daemon} {name parent : String}
variable {inheritance : InheritanceMode} {hidePaths : List String}

theorem onManager_eq_ok {α : Type} {x : Mgr α} {a : α} (h : onManager x d = .ok a d') :
    ∃ m, x d.manager = .ok a m ∧ d' = { d with manager := m } := by
  unfold onManager at h
  cases hx : x d.manager with
  | ok a' m =>
    rw [hx] at h
    cases h
    exact ⟨m, rfl, rfl⟩
  | error e m =>
    rw [hx] at h
    cases h

/-- What `Branch::new` finds in the directory. -/
theorem create_eq_some {f : BranchFiles} {up : Option String} {version : UInt64} {s : Branch}
    (h : Branch.create json f name up version inheritance hidePaths = some s) :
    s.metadata = { name := name, parent := up, inheritance := inheritance, state := .open,
                   parentVersionAtFork := version, commitCount := 0,
                   hidePaths := hidePaths.filterMap normalizeHidePath } ∧
      s.tombstones = loadTombstones f ∧ loadTouches json f = some s.touches := by
  unfold Branch.create at h
  have hsame : loadTouches json { f with tombstones := some (f.tombstones.getD []) } =
      loadTouches json f := rfl
  cases hload : loadTouches json f with
  | none =>
    simp [hsame, hload] at h
  | some T =>
    simp only [hsame, hload, Option.bind_eq_bind, Option.bind_some, Option.some.injEq] at h
    subst h
    refine ⟨rfl, ?_, rfl⟩
    show loadTombstones { f with tombstones := some (f.tombstones.getD []) } = _
    unfold loadTombstones snapshotPaths
    rfl

theorem openDir_eq_ok {version : UInt64} {s : Branch}
    (h : openDir json name parent version inheritance hidePaths d = .ok s d') :
    Branch.create json (d.dirs name) name (some parent) version inheritance hidePaths = some s ∧
      d' = d.withDir name s.files := by
  unfold openDir at h
  cases hs : Branch.create json (d.dirs name) name (some parent) version inheritance hidePaths with
  | none =>
    rw [hs] at h
    cases h
  | some s' =>
    rw [hs] at h
    cases h
    exact ⟨rfl, rfl⟩

/-- What a creation over a directory does. -/
theorem createBranchOver_eq_ok
    (h : createBranchOver json order name parent inheritance hidePaths d = .ok () d') :
    ∃ q s, d.manager.forest.get? parent = some q ∧
      Branch.create json (d.dirs name) name (some parent) (.ofNat q.commitCount) inheritance
        hidePaths = some s ∧
      ForkedOff d.manager d'.manager (s.record order) parent := by
  obtain ⟨q, d₁, hchecks, h⟩ := bind_eq_ok h
  obtain ⟨m₁, hparent, rfl⟩ := onManager_eq_ok hchecks
  obtain ⟨rfl, hq⟩ := creationParent_eq_ok hparent
  obtain ⟨s, d₂, hopen, hinsert⟩ := bind_eq_ok h
  obtain ⟨hcreate, rfl⟩ := openDir_eq_ok hopen
  refine ⟨q, s, hq, hcreate, ?_⟩
  unfold insertOpened at hinsert
  cases hfork : onManager (forkBranch (s.record order) parent) (d.withDir name s.files) with
  | error e d₃ =>
    rw [show { d with manager := d.manager } = d from rfl, hfork] at hinsert
    cases hinsert
  | ok u d₃ =>
    rw [show { d with manager := d.manager } = d from rfl, hfork] at hinsert
    cases hinsert
    obtain ⟨m, hrun, rfl⟩ := onManager_eq_ok hfork
    exact forkBranch_eq_ok hrun

/-- The changes of a branch are empty when it has neither files nor tombstones. -/
theorem status_empty_iff {m : Manager} {b : BranchFs.Branch} (iter : HashOrder)
    (hb : m.forest.get? name = some b) :
    (∃ s, branchStatus m iter name = .ok s ∧ s.diff = []) ↔
      (∀ q, ¬ Leaf .dir (deltaKind m.disk name) q) ∧ b.tombstones = [] := by
  obtain ⟨s, hs, hperm⟩ := branchStatus_diff iter hb
  have hempty : s.diff = [] ↔ walkFiles m.disk name = [] ∧ b.tombstones = [] := by
    have hiff : s.diff = [] ↔ (walkFiles m.disk name).map (entryOf m.disk) ++
        b.tombstones.dedup.map deleteEntry = [] := by
      constructor
      · intro h
        rw [h] at hperm
        exact hperm.symm.eq_nil
      · intro h
        rw [h] at hperm
        exact hperm.eq_nil
    rw [hiff, List.append_eq_nil_iff, List.map_eq_nil_iff, List.map_eq_nil_iff,
      List.dedup_eq_nil]
  have hfiles : walkFiles m.disk name = [] ↔ ∀ q, ¬ Leaf .dir (deltaKind m.disk name) q := by
    constructor
    · intro h q hq
      have hmem := mem_walkFiles_fst.mpr hq
      rw [h] at hmem
      cases hmem
    · intro h
      by_contra hne
      obtain ⟨f, rest, hf⟩ := List.exists_cons_of_ne_nil hne
      exact h f.1 (mem_walkFiles_fst.mp (by rw [hf]; exact List.mem_cons_self))
  rw [← hfiles, ← hempty]
  constructor
  · rintro ⟨s', hs', hdiff⟩
    rw [hs] at hs'
    cases hs'
    exact hdiff
  · exact fun h => ⟨s, hs, h⟩

theorem map_iter_eq_nil {S : Finset Text} :
    (order.tombstones.iter S).map relPathOf = [] ↔ S = ∅ := by
  rw [List.map_eq_nil_iff, Finset.eq_empty_iff_forall_notMem]
  constructor
  · intro h t ht
    have hmem := (order.tombstones.mem_iter S t).mpr ht
    rw [h] at hmem
    cases hmem
  · intro h
    by_contra hne
    obtain ⟨t, rest, hl⟩ := List.exists_cons_of_ne_nil hne
    exact h t ((order.tombstones.mem_iter S t).mp (by rw [hl]; exact List.mem_cons_self))

theorem map_touches_eq_nil {S : Finset TouchRecord} :
    (order.touches S).map TouchRecord.record = [] ↔ S = ∅ := by
  rw [List.map_eq_nil_iff, Finset.eq_empty_iff_forall_notMem]
  constructor
  · intro h r hr
    have hmem := (order.mem_touches S r).mpr hr
    rw [h] at hmem
    cases hmem
  · intro h
    by_contra hne
    obtain ⟨r, rest, hl⟩ := List.exists_cons_of_ne_nil hne
    exact h r ((order.mem_touches S r).mp (by rw [hl]; exact List.mem_cons_self))

/-- **A new branch starts clean** exactly when nothing is left under its name. -/
theorem starts_clean_iff (iter : HashOrder)
    (hok : createBranchOver json order name parent inheritance hidePaths d = .ok () d')
    (hlink : inheritance = .snapshot → d.manager.NoLinkUnderShown parent) :
    (∃ b, d'.manager.forest.get? name = some b ∧ StartsClean iter d d' name parent b) ↔
      NothingLeft json d name parent (newBranch name parent 0 inheritance hidePaths) := by
  obtain ⟨q, s, -, hcreate, hfork⟩ := createBranchOver_eq_ok hok
  obtain ⟨hmeta, htomb, htouch⟩ := create_eq_some hcreate
  let b := s.record order
  have hname : b.name = name := by
    show s.metadata.name = name
    rw [hmeta]
  have hmode : b.inheritance = inheritance := by
    show s.metadata.inheritance = inheritance
    rw [hmeta]
  have hhidden : ∀ p, b.Unhidden p ↔
      (newBranch name parent 0 inheritance hidePaths).Unhidden p := by
    have hrules : b.hidePaths = (newBranch name parent 0 inheritance hidePaths).hidePaths := by
      show s.metadata.hidePaths = _
      rw [hmeta]
      rfl
    intro p
    simp only [Branch.Unhidden, BranchFs.Branch.isHidden, hrules]
  have hb : d'.manager.forest.get? name = some b := by rw [hfork.record, if_pos hname.symm]
  have hδ : deltaKind d'.manager.disk name = deltaKind d.manager.disk name := by
    funext p
    exact hfork.kept.kindAt (by simp [deltaPath])
  have hstatus := status_empty_iff iter hb
  rw [hδ] at hstatus
  have htombs : b.tombstones = [] ↔ loadTombstones (d.dirs name) = ∅ := by
    rw [← htomb]
    exact map_iter_eq_nil
  have htouches : b.touches = [] ↔ loadTouches json (d.dirs name) = some ∅ := by
    rw [htouch, Option.some.injEq]
    exact map_touches_eq_nil
  have hview : b.tombstones = [] → (∀ p, ¬ Leaf .dir (deltaKind d.manager.disk name) p) →
      ((∀ p, b.Unhidden p → d'.manager.view name p = d.manager.view parent p) ↔
        ∀ p, b.Unhidden p → deltaKind d.manager.disk name p = some .dir →
          d.manager.view parent p = some .dir) := by
    intro hnone hno
    have hiff := hfork.view_iff hnone (by rw [hname]; exact hno)
      (fun h => hlink (hmode.symm.trans h))
    rwa [hname] at hiff
  constructor
  · rintro ⟨b', hb', hclean⟩
    obtain rfl : b = b' := by
      rw [hb] at hb'
      exact Option.some.inj hb'
    obtain ⟨hno, hnone⟩ := hstatus.mp hclean.status
    refine ⟨htombs.mp hnone, htouches.mp hclean.touches, hno, fun p hp hdir => ?_⟩
    exact (hview hnone hno).mp hclean.view p ((hhidden p).mpr hp) hdir
  · intro hleft
    have hnone := htombs.mpr hleft.tombstones
    refine ⟨b, hb, hstatus.mpr ⟨hleft.files, hnone⟩, htouches.mpr hleft.touches, ?_⟩
    exact (hview hnone hleft.files).mpr fun p hp hdir => hleft.dirs p ((hhidden p).mp hp) hdir

/-- A new branch starts clean, whatever store the daemon was started on and whatever it has done
since. -/
def NewBranchesStartClean : Prop :=
  ∀ json : SerdeJson, json.Lawful → ∀ order iter s d, Started json order s d →
    ∀ ops name parent inheritance hidePaths d',
      createBranchOver json order name parent inheritance hidePaths
          (Logic.run (Daemon.step json order) d ops) = .ok () d' →
        ∃ b, d'.manager.forest.get? name = some b ∧
          StartsClean iter (Logic.run (Daemon.step json order) d ops) d' name parent b

/-! ## A directory without metadata -/

/-- A lazy branch is made over any directory whose touch log can be read. -/
theorem createBranchOver_lazy {q : BranchFs.Branch} {s : Branch}
    (hvalid : validateBranchName name = .ok ()) (hfree : d.manager.forest.get? name = none)
    (hq : d.manager.forest.get? parent = some q)
    (hs : Branch.create json (d.dirs name) name (some parent) (.ofNat q.commitCount) .lazy
      hidePaths = some s) :
    ∃ d', createBranchOver json order name parent .lazy hidePaths d = .ok () d' := by
  have hmeta := (create_eq_some hs).1
  have hchecked : onManager (creationParent name parent) d = .ok q d := by
    rw [onManager, creationParent_ok hvalid hfree hq]
  have hopen : openDir json name parent (.ofNat q.commitCount) .lazy hidePaths d =
      .ok s (d.withDir name s.files) := by
    rw [openDir, hs]
  have hmode : (s.record order).inheritance ≠ .snapshot := by
    show s.metadata.inheritance ≠ _
    rw [hmeta]
    exact fun h => nomatch h
  have hname : (s.record order).name = name := by
    show s.metadata.name = name
    rw [hmeta]
  have hup : (s.record order).parent = some parent := by
    show s.metadata.parent = some parent
    rw [hmeta]
  obtain ⟨m, hm⟩ := forkBranch_ok (m := d.manager) hmode hup (by rw [hq]; exact Option.some_ne_none q)
    (by rw [hname]; exact hfree)
  have hforked : onManager (forkBranch (s.record order) parent) (d.withDir name s.files) =
      .ok () { d.withDir name s.files with manager := m } := by
    rw [onManager, show (d.withDir name s.files).manager = d.manager from rfl, hm]
  have hinserted : insertOpened order name parent s (d.withDir name s.files) =
      .ok () { d.withDir name s.files with manager := m } := by
    rw [insertOpened, hforked]
  exact ⟨_, (bind_ok hchecked).trans ((bind_ok hopen).trans hinserted)⟩

/-- A set handed out as the list of its elements. -/
noncomputable def listOrder : LoadOrder where
  tombstones := ⟨Finset.toList, fun _ _ => Finset.mem_toList⟩
  touches := Finset.toList
  mem_touches _ _ := Finset.mem_toList

/-- What is left of a branch whose metadata is lost: a tombstone. -/
def tombstoneLeft : BranchFiles := { BranchFiles.fresh with tombstones := some "/x\n".toList }

/-- A store with the directory of a lost branch. -/
def lostBranch : OnDisk where
  disk := (Manager.init .bare).disk
  dirs n := if n = "n" then some tombstoneLeft else none

/-- The daemon started on it. -/
def beforeReuse : Daemon where
  manager := Manager.init .bare
  dirs n := if n = "n" then tombstoneLeft else .fresh

theorem beforeReuse_started (json : SerdeJson) : Started json listOrder lostBranch beforeReuse where
  disk := rfl
  left n _ := by
    by_cases hn : n = "n"
    · simp [beforeReuse, lostBranch, hn]
    · simp [beforeReuse, lostBranch, hn]
  loaded n f b hf hload := by
    -- there is no metadata to load
    exfalso
    simp only [lostBranch, Option.ite_none_right_eq_some, Option.some.injEq] at hf
    rw [← hf.2] at hload
    simp [load, tombstoneLeft, BranchFiles.fresh] at hload
  main _ := by
    refine ⟨_, rfl, ?_⟩
    show some mainBranch = _
    simp [Branch.record, Branch.writeMetadata, mainBranch, listOrder, loadTombstones, lostBranch,
      BranchFiles.fresh, snapshotPaths, lines, linesFrom]
  only n b hb := by
    have hmem : b ∈ [mainBranch] := mem_of_lookupKey hb
    have hname : b.name = n := key_of_lookupKey hb
    rw [List.mem_singleton.mp hmem] at hname
    exact Or.inl hname.symm

theorem loadTombstones_left : loadTombstones tombstoneLeft ≠ ∅ := by
  decide

theorem create_over_left (json : SerdeJson) :
    ∃ d', createBranchOver json listOrder "n" "main" .lazy [] beforeReuse = .ok () d' :=
  createBranchOver_lazy rfl rfl rfl rfl

theorem not_newBranchesStartClean : ¬ NewBranchesStartClean := by
  intro h
  obtain ⟨d', hok⟩ := create_over_left sampleJson
  obtain ⟨b, hb, hclean⟩ := h sampleJson sampleJson_lawful listOrder .listed lostBranch beforeReuse
    (beforeReuse_started sampleJson) [] "n" "main" .lazy [] d' hok
  obtain ⟨q, s, -, hcreate, hfork⟩ := createBranchOver_eq_ok hok
  obtain ⟨hmeta, htomb, -⟩ := create_eq_some hcreate
  have hname : (s.record listOrder).name = "n" := by
    show s.metadata.name = "n"
    rw [hmeta]
  rw [hfork.record, if_pos hname.symm] at hb
  cases hb
  have hrecord : d'.manager.forest.get? "n" = some (s.record listOrder) := by
    rw [hfork.record, if_pos hname.symm]
  -- the new branch has the tombstone that was left
  have hnone := ((status_empty_iff .listed hrecord).mp hclean.status).2
  apply loadTombstones_left
  show loadTombstones (beforeReuse.dirs "n") = ∅
  rw [← htomb]
  exact map_iter_eq_nil.mp hnone

/-- The branch made over the tombstone does not start clean. -/
theorem starts_clean_left : ∃ d', createBranchOver sampleJson listOrder "n" "main" .lazy []
      beforeReuse = .ok () d' ∧
    ¬ ∃ b, d'.manager.forest.get? "n" = some b ∧
      StartsClean .listed beforeReuse d' "n" "main" b := by
  obtain ⟨d', hok⟩ := create_over_left sampleJson
  refine ⟨d', hok, fun hclean => ?_⟩
  exact loadTombstones_left ((starts_clean_iff .listed hok fun h => nomatch h).mp hclean).tombstones

end BranchFs.Store
