/-
# BranchFs.Store.Rescan -- the counter a restart computes

While it runs, a manager counts the deltas. When it opens a store it takes the whole of `branches`
instead: the texts beside the deltas, `meta.json` first of all, the kept base contents, the snapshots,
what a merge has staged, and whatever the links in any of these lead to. Only the links to directories
are missing from it. The two counters agree exactly when the one difference makes up for the other
(`rescan_exact_iff`): without links to directories, when there is nothing but deltas
(`rescan_without_links`), and a branch is never without its `meta.json`.
-/
import BranchFs.Quota.Measure
import BranchFs.Store.PathText
import BranchFs.Store.Reload
import Mathlib.Tactic.Abel

namespace BranchFs

open BranchFs.Posix BranchFs.Logic

namespace Store

/-- The length of a text file; one that is not there has none. -/
def textSize (text : Option Text) : UInt64 := .ofNat (String.ofList (text.getD [])).utf8ByteSize

/-- The length of the text files of a branch directory. -/
def BranchFiles.size (f : BranchFiles) : UInt64 :=
  textSize f.tombstones + textSize f.tombstonesLog + textSize f.touches + textSize f.touchesLog +
    textSize f.metadata

/-- A storage directory: the trees, the branch directories and the text files of each. -/
structure Storage where
  disk : Tree
  names : Finset String
  files : String → BranchFiles

end Store

open Store

/-- The trees of a branch directory beside its delta. -/
def otherTrees (name : String) : List Place :=
  [⟨some (.inherited name), []⟩, ⟨some (.staging name), []⟩, ⟨some (.touchContent name), []⟩,
    ⟨some (.mergeContent name), []⟩]

/-- `StorageQuota::dir_size` of a branch directory. -/
def Store.Storage.branchDirSize (s : Storage) (name : String) : UInt64 :=
  (s.files name).size + dirSize s.disk (deltaPath name []) +
    ((otherTrees name).map (dirSize s.disk)).sum

/-- `StorageQuota::scan_usage`: all of `branches`. -/
def scanUsage (s : Storage) (maxBytes : Option UInt64) : StorageQuota where
  usedBytes := (∑ name ∈ s.names, s.branchDirSize name).toInt64
  maxBytes := maxBytes

/-- The names of the branches. -/
def Manager.branchNames (m : Manager) : Finset String := (m.forest.list.map Branch.name).toFinset

/-- The length of the delta files of all branches. -/
noncomputable def Manager.deltaTotal (m : Manager) : UInt64 :=
  ∑ name ∈ m.branchNames, treeSize m.disk (deltaPath name [])

/-- What a manager has in its store: its trees, and for each branch a directory with the files the
changes of its record have written. -/
structure Manager.StoredAs (json : SerdeJson) (m : Manager) (s : Storage) : Prop where
  disk : s.disk = m.disk
  names : s.names = m.branchNames
  files : ∀ name b, m.forest.get? name = some b → ∃ hide new ops t,
    Store.Branch.create json .fresh name b.parent (.ofNat b.parentVersionAtFork) b.inheritance hide =
        some new ∧
      Store.run json new ops = some t ∧ Carries t b ∧ s.files name = t.files

/-- Wherever a run has got, with the deltas counted, a new manager counts what the old one did. -/
def RestartKeepsUsage : Prop :=
  ∀ (json : SerdeJson), json.Lawful → ∀ (store : FreshStore) ops s,
    let m := run step (Manager.init store) ops
    m.StoredAs json s → m.quota.usedBytes = m.deltaTotal.toInt64 →
      (scanUsage s store.maxBytes).usedBytes = m.quota.usedBytes

/-! ## The two counters -/

/-- What a scan finds beside the entries of the deltas: the texts, the other trees, and what the links
to directories lead to. -/
noncomputable def Store.Storage.besides (s : Storage) : UInt64 :=
  ∑ name ∈ s.names, ((s.files name).size + ((otherTrees name).map (treeSize s.disk)).sum +
    ((deltaPath name [] :: otherTrees name).map (behindLinks s.disk)).sum)

/-- The links to directories in the store, which a scan does not count. -/
noncomputable def Store.Storage.passedOver (s : Storage) : UInt64 :=
  ∑ name ∈ s.names, ((deltaPath name [] :: otherTrees name).map (linksToDirs s.disk)).sum

variable {m : Manager} {s : Storage}

/-- What a scan counts too much in a tree, it makes up for with what it passes over. -/
theorem dirSize_add (d : Tree) (p : Place) :
    dirSize d p + linksToDirs d p = treeSize d p + behindLinks d p := by
  rw [dirSize_split, treeSize_split, add_right_comm, add_comm (behindLinks d p)]
  exact add_right_comm ..

theorem sum_dirSize_add (d : Tree) (ps : List Place) :
    (ps.map (dirSize d)).sum + (ps.map (linksToDirs d)).sum =
      (ps.map (treeSize d)).sum + (ps.map (behindLinks d)).sum := by
  induction ps with
  | nil => rfl
  | cons p ps ih =>
    simp only [List.map_cons, List.sum_cons]
    rw [add_add_add_comm, ih, dirSize_add, add_add_add_comm]

/-- The scan and the deltas. -/
theorem scan_add (s : Storage) :
    (∑ name ∈ s.names, s.branchDirSize name) + s.passedOver =
      (∑ name ∈ s.names, treeSize s.disk (deltaPath name [])) + s.besides := by
  rw [Storage.passedOver, Storage.besides, ← Finset.sum_add_distrib, ← Finset.sum_add_distrib]
  refine Finset.sum_congr rfl fun name _ => ?_
  have hsum := sum_dirSize_add s.disk (deltaPath name [] :: otherTrees name)
  simp only [List.map_cons, List.sum_cons] at hsum
  unfold Storage.branchDirSize
  simp only [List.map_cons, List.sum_cons]
  calc (s.files name).size + dirSize s.disk (deltaPath name []) +
          ((otherTrees name).map (dirSize s.disk)).sum +
        (linksToDirs s.disk (deltaPath name []) + ((otherTrees name).map (linksToDirs s.disk)).sum)
      = (s.files name).size + (dirSize s.disk (deltaPath name []) +
          ((otherTrees name).map (dirSize s.disk)).sum +
          (linksToDirs s.disk (deltaPath name []) +
            ((otherTrees name).map (linksToDirs s.disk)).sum)) := by abel
    _ = (s.files name).size + (treeSize s.disk (deltaPath name []) +
          ((otherTrees name).map (treeSize s.disk)).sum +
          (behindLinks s.disk (deltaPath name []) +
            ((otherTrees name).map (behindLinks s.disk)).sum)) := by rw [hsum]
    _ = _ := by abel

/-- **A restart keeps the counter exactly when what the store has beside the deltas is as long as the
links to directories in it.** -/
theorem rescan_exact_iff {json : SerdeJson} (hstored : m.StoredAs json s)
    (hcounter : m.quota.usedBytes = m.deltaTotal.toInt64) (maxBytes : Option UInt64) :
    (scanUsage s maxBytes).usedBytes = m.quota.usedBytes ↔ s.besides = s.passedOver := by
  have hdelta : m.deltaTotal = ∑ name ∈ s.names, treeSize s.disk (deltaPath name []) := by
    rw [Manager.deltaTotal, hstored.names, hstored.disk]
  have hcast : ∀ a b : UInt64, a.toInt64 = b.toInt64 ↔ a = b := fun a b =>
    ⟨fun h => by simpa using congrArg Int64.toUInt64 h, fun h => by rw [h]⟩
  have hadd := scan_add s
  rw [hcounter, hdelta]
  show (∑ name ∈ s.names, s.branchDirSize name).toInt64 = _ ↔ _
  rw [hcast]
  constructor
  · intro h
    rw [h] at hadd
    exact (add_left_cancel hadd).symm
  · intro h
    rw [h] at hadd
    exact add_right_cancel hadd

/-- Without links to directories the counters agree when there is nothing beside the deltas. -/
theorem rescan_without_links {json : SerdeJson} (hstored : m.StoredAs json s)
    (hcounter : m.quota.usedBytes = m.deltaTotal.toInt64) (maxBytes : Option UInt64)
    (hno : ∀ name ∈ s.names, ∀ p ∈ deltaPath name [] :: otherTrees name, ∀ q,
      s.disk.Taken (realDir s.disk) p q → s.disk.isDir (p.join q) = false) :
    (scanUsage s maxBytes).usedBytes = m.quota.usedBytes ↔
      ∑ name ∈ s.names, ((s.files name).size + ((otherTrees name).map (treeSize s.disk)).sum) = 0 := by
  have hzero : ∀ name ∈ s.names, ∀ f : Tree → Place → UInt64,
      (∀ p ∈ deltaPath name [] :: otherTrees name, f s.disk p = 0) →
      ((deltaPath name [] :: otherTrees name).map (f s.disk)).sum = 0 := by
    intro name _ f hf
    refine List.sum_eq_zero fun x hx => ?_
    obtain ⟨p, hp, rfl⟩ := List.mem_map.mp hx
    exact hf p hp
  have hpassed : s.passedOver = 0 :=
    Finset.sum_eq_zero fun name hname => hzero name hname linksToDirs fun p hp =>
      (no_links (hno name hname p hp)).2
  have hbesides : s.besides =
      ∑ name ∈ s.names, ((s.files name).size + ((otherTrees name).map (treeSize s.disk)).sum) := by
    refine Finset.sum_congr rfl fun name hname => ?_
    rw [hzero name hname behindLinks fun p hp => (no_links (hno name hname p hp)).1, add_zero]
  rw [rescan_exact_iff hstored hcounter, hpassed, hbesides]

/-! ## A store with nothing but `main` -/

/-- A lawful library that writes a given record in a given way. -/
theorem exists_json (sample : BranchMetadata) {text : Text} (htext : '"' ∈ text) :
    ∃ json : SerdeJson, json.Lawful ∧ json.writeMetadata sample = text := by
  obtain ⟨write, hinj, hsample, -⟩ := exists_writer sample text (ne_codeText htext)
  obtain ⟨read, hread⟩ := exists_reader hinj
  refine ⟨{ sampleJson with writeMetadata := write, readMetadata := read }, ?_, hsample⟩
  exact ⟨hread, sampleJson_lawful.readTouch_write, sampleJson_lawful.braces, sampleJson_lawful.oneLine⟩

/-- What `Branch::new` writes for `main`. -/
def mainMetadata : BranchMetadata where
  name := "main"
  parent := none
  inheritance := .lazy
  state := .open
  parentVersionAtFork := 0
  commitCount := 0
  hidePaths := []

def mainMetadataText : Text :=
  "\x7b\n  \"name\": \"main\",\n".toList ++
    ("  \"parent\": null,\n  \"inheritance\": \"lazy\",\n  \"state\": \"open\",\n" ++
      "  \"parent_version_at_fork\": 0,\n  \"commit_count\": 0,\n  \"hide_paths\": []\n\x7d").toList

/-- The store of a daemon that has just started for the first time. -/
def mainStore : Storage where
  disk := FreshStore.bare.disk
  names := {"main"}
  files _ := { BranchFiles.fresh with tombstones := some [], metadata := some mainMetadataText }

theorem mainStore_stored {json : SerdeJson} (hmain : json.writeMetadata mainMetadata = mainMetadataText) :
    (Manager.init .bare).StoredAs json mainStore where
  disk := rfl
  names := by decide
  files := by
    intro name b hb
    obtain rfl : b = mainBranch := List.mem_singleton.mp (Forest.mem_of_get? hb)
    obtain rfl : mainBranch.name = name := Forest.name_of_get? hb
    refine ⟨[], { metadata := mainMetadata, tombstones := ∅, touches := ∅, files := { BranchFiles.fresh with
        tombstones := some [], metadata := some (json.writeMetadata mainMetadata) } }, [], _, rfl, rfl,
      ⟨rfl, rfl, fun t ht => absurd ht List.not_mem_nil, fun r hr => absurd hr List.not_mem_nil⟩, ?_⟩
    rw [hmain]
    rfl

theorem mainStore_run : (scanUsage mainStore none).usedBytes = 154 := by
  decide +kernel

theorem mainStore_delta : (Manager.init .bare).deltaTotal = 0 := by
  have hbelow : ∀ descend fuel, FreshStore.bare.disk.below descend fuel (deltaPath "main" []) = [] := by
    intro descend fuel
    cases fuel with
    | zero => rfl
    | succ fuel =>
      have hempty : FreshStore.bare.disk.readDir (deltaPath "main" []) = .ok [] := by decide
      rw [Disk.below_succ, hempty]
      rfl
  have hnames : (Manager.init .bare).branchNames = {"main"} := by decide
  rw [Manager.deltaTotal, hnames, Finset.sum_singleton, treeSize,
    (sum_taken _ _ (fun _ h => isDir_of_realDir _ h) _).2]
  show ((FreshStore.bare.disk.below _ _ _).map _).sum = 0
  rw [hbelow]
  rfl

/-- The first restart counts the `meta.json` of `main`. -/
theorem not_restartKeepsUsage : ¬ RestartKeepsUsage := by
  intro h
  have hquote : '"' ∈ mainMetadataText := by decide
  obtain ⟨json, hjson, hmain⟩ := exists_json mainMetadata hquote
  have hkept := h json hjson .bare [] mainStore (mainStore_stored hmain)
    (by rw [show run step (Manager.init .bare) [] = Manager.init .bare from rfl, mainStore_delta]; rfl)
  rw [show (FreshStore.bare).maxBytes = none from rfl, mainStore_run] at hkept
  exact absurd hkept (by decide)

/-- So what it has beside the deltas is not made up for. -/
theorem rescan_exact_main : ∃ json : SerdeJson, (Manager.init .bare).StoredAs json mainStore ∧
    mainStore.besides ≠ mainStore.passedOver := by
  have hquote : '"' ∈ mainMetadataText := by decide
  obtain ⟨json, hjson, hmain⟩ := exists_json mainMetadata hquote
  have hstored := mainStore_stored hmain
  refine ⟨json, hstored, fun heq => ?_⟩
  have hkept := (rescan_exact_iff hstored (by rw [mainStore_delta]; rfl) none).mpr heq
  rw [mainStore_run] at hkept
  exact absurd hkept (by decide)

end BranchFs
