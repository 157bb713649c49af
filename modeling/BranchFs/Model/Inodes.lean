/-
# BranchFs.Model.Inodes -- the inode table of a mount

`InodeManager` of `inode.rs`. Its two maps, path to number and number to path, are always changed
together and hold the same entries, so they are one table here, each path and each number in it once.
Numbers are handed out in order and never again. Paths are lists of names; `clear_prefix` works on
their text.
-/
import BranchFs.Model.Types
import BranchFs.Logic.Lineage

namespace BranchFs

open BranchFs.Logic

/-- `ROOT_INO`. -/
def rootIno : Nat := 1

structure InodeInfo where
  ino : Nat
  path : RelPath
  isDir : Bool
  deriving DecidableEq, Repr

structure InodeManager where
  nextIno : Nat
  infos : List InodeInfo
  paths : (infos.map InodeInfo.path).Nodup
  inos : (infos.map InodeInfo.ino).Nodup
  below : ∀ i ∈ infos, i.ino < nextIno
  started : rootIno < nextIno

namespace InodeManager

/-- The entry of the root directory. -/
def rootInfo : InodeInfo := ⟨rootIno, [], true⟩

/-- `InodeManager::new`. -/
def new : InodeManager where
  nextIno := rootIno + 1
  infos := [rootInfo]
  paths := by simp
  inos := by simp
  below := by simp [rootInfo]
  started := Nat.lt_succ_self _

/-- `get_info`. -/
def getInfo (t : InodeManager) (ino : Nat) : Option InodeInfo := lookupKey InodeInfo.ino t.infos ino

/-- `get_path`. -/
def getPath (t : InodeManager) (ino : Nat) : Option RelPath := (t.getInfo ino).map InodeInfo.path

/-- `get_ino`. -/
def getIno (t : InodeManager) (path : RelPath) : Option Nat :=
  (lookupKey InodeInfo.path t.infos path).map InodeInfo.ino

theorem getIno_eq_none {t : InodeManager} {path : RelPath} :
    t.getIno path = none ↔ path ∉ t.infos.map InodeInfo.path := by
  rw [getIno, Option.map_eq_none_iff, lookupKey_eq_none]

/-- A path that is not in the table gets the next number. -/
def insert (t : InodeManager) (path : RelPath) (isDir : Bool) (h : t.getIno path = none) :
    InodeManager where
  nextIno := t.nextIno + 1
  infos := ⟨t.nextIno, path, isDir⟩ :: t.infos
  paths := List.nodup_cons.mpr ⟨getIno_eq_none.mp h, t.paths⟩
  inos := by
    refine List.nodup_cons.mpr ⟨fun hmem => ?_, t.inos⟩
    obtain ⟨i, hi, heq⟩ := List.mem_map.mp hmem
    have hlt := t.below i hi
    rw [heq] at hlt
    exact Nat.lt_irrefl _ hlt
  below := by
    intro i hi
    rcases List.mem_cons.mp hi with rfl | hi
    · exact Nat.lt_succ_self _
    · exact Nat.lt_succ_of_lt (t.below i hi)
  started := Nat.lt_succ_of_lt t.started

/-- `get_or_create`. -/
def getOrCreate (t : InodeManager) (path : RelPath) (isDir : Bool) : Nat × InodeManager :=
  match h : t.getIno path with
  | some ino => (ino, t)
  | none => (t.nextIno, t.insert path isDir h)

/-- The entries of the table that `keep` says. -/
def restrict (t : InodeManager) (keep : InodeInfo → Bool) : InodeManager where
  nextIno := t.nextIno
  infos := t.infos.filter keep
  paths := t.paths.sublist (List.filter_sublist.map _)
  inos := t.inos.sublist (List.filter_sublist.map _)
  below := fun i hi => t.below i (List.mem_of_mem_filter hi)
  started := t.started

/-- `remove`. -/
def remove (t : InodeManager) (path : RelPath) : InodeManager := t.restrict fun i => i.path != path

/-- `clear_prefix`. -/
def clearPrefix (t : InodeManager) (pre : String) : InodeManager :=
  t.restrict fun i => !startsWith (relText i.path) pre

/-- `clear`; the numbering goes on. -/
def clear (t : InodeManager) : InodeManager where
  nextIno := t.nextIno
  infos := [rootInfo]
  paths := by simp
  inos := by simp
  below := by simpa [rootInfo] using t.started
  started := t.started

/-! ## What the operations do to a lookup -/

variable {t : InodeManager} {ino : Nat} {path q : RelPath}

theorem getPath_eq_some : t.getPath ino = some path ↔
    ∃ i ∈ t.infos, i.ino = ino ∧ i.path = path := by
  unfold getPath getInfo
  constructor
  · intro h
    obtain ⟨i, hi, rfl⟩ := Option.map_eq_some_iff.mp h
    exact ⟨i, mem_of_lookupKey hi, key_of_lookupKey hi, rfl⟩
  · rintro ⟨i, hi, rfl, rfl⟩
    rw [lookupKey_of_mem t.inos hi]
    rfl

theorem getIno_eq_some : t.getIno path = some ino ↔
    ∃ i ∈ t.infos, i.ino = ino ∧ i.path = path := by
  unfold getIno
  constructor
  · intro h
    obtain ⟨i, hi, rfl⟩ := Option.map_eq_some_iff.mp h
    exact ⟨i, mem_of_lookupKey hi, rfl, key_of_lookupKey hi⟩
  · rintro ⟨i, hi, rfl, rfl⟩
    rw [lookupKey_of_mem t.paths hi]
    rfl

/-- The two lookups are inverse. -/
theorem getPath_iff_getIno : t.getPath ino = some path ↔ t.getIno path = some ino := by
  rw [getPath_eq_some, getIno_eq_some]

theorem getPath_restrict {keep : InodeInfo → Bool} :
    (t.restrict keep).getPath ino = some path ↔
      ∃ i ∈ t.infos, i.ino = ino ∧ i.path = path ∧ keep i = true := by
  rw [getPath_eq_some]
  constructor
  · rintro ⟨i, hi, hino, hpath⟩
    obtain ⟨hmem, hkeep⟩ := List.mem_filter.mp hi
    exact ⟨i, hmem, hino, hpath, hkeep⟩
  · rintro ⟨i, hi, hino, hpath, hkeep⟩
    exact ⟨i, List.mem_filter.mpr ⟨hi, hkeep⟩, hino, hpath⟩

/-- `clear_prefix` takes away what its prefix matches and nothing else. -/
theorem getPath_clearPrefix {pre : String} : (t.clearPrefix pre).getPath ino = some path ↔
    t.getPath ino = some path ∧ startsWith (relText path) pre = false := by
  rw [clearPrefix, getPath_restrict, getPath_eq_some]
  constructor
  · rintro ⟨i, hi, hino, rfl, hkeep⟩
    exact ⟨⟨i, hi, hino, rfl⟩, by simpa using hkeep⟩
  · rintro ⟨⟨i, hi, hino, rfl⟩, hkeep⟩
    exact ⟨i, hi, hino, rfl, by simpa using hkeep⟩

/-- `get_or_create` answers the number of the path from then on. -/
theorem getIno_getOrCreate (t : InodeManager) (path : RelPath) (isDir : Bool) :
    (t.getOrCreate path isDir).2.getIno path = some (t.getOrCreate path isDir).1 := by
  unfold getOrCreate
  split
  · next h => exact h
  · exact getIno_eq_some.mpr ⟨_, List.mem_cons_self, rfl, rfl⟩

/-- And leaves the numbers that were handed out. -/
theorem getIno_getOrCreate_of_some {isDir : Bool} (h : t.getIno q = some ino) :
    (t.getOrCreate path isDir).2.getIno q = some ino := by
  unfold getOrCreate
  split
  · exact h
  · obtain ⟨i, hi, hino, hq⟩ := getIno_eq_some.mp h
    exact getIno_eq_some.mpr ⟨i, List.mem_cons_of_mem _ hi, hino, hq⟩

/-- A path that has a number keeps it, and the table stays as it is. -/
theorem getOrCreate_of_some {isDir : Bool} (h : t.getIno path = some ino) :
    t.getOrCreate path isDir = (ino, t) := by
  unfold getOrCreate
  split
  · next h' =>
    rw [h] at h'
    cases h'
    rfl
  · next h' =>
    rw [h] at h'
    cases h'

end InodeManager

end BranchFs
