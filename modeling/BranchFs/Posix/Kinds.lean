/-
# BranchFs.Posix.Kinds -- what every node of the host is

A property of kinds that every entry has, and every file that is only open any more. Calls move nodes
about, make directories, and write: a property that directories have is kept by every call that writes
nothing without it.
-/
import BranchFs.Posix.Layout

namespace BranchFs.Posix

open BranchFs.Logic

variable {ρ ν α : Type} [DecidableEq ρ] [DecidableEq ν]

namespace Disk

/-- Every node of the host is of a kind with the property. -/
structure Every (P : Kind ν → Prop) (d : Disk ρ ν) : Prop where
  entries : ∀ e ∈ d.entries, P e.2.kind
  orphans : ∀ o ∈ d.orphans, P o.2.kind

instance (P : Kind ν → Prop) [DecidablePred P] (d : Disk ρ ν) : Decidable (d.Every P) :=
  decidable_of_iff ((∀ e ∈ d.entries, P e.2.kind) ∧ ∀ o ∈ d.orphans, P o.2.kind)
    ⟨fun h => ⟨h.1, h.2⟩, fun h => ⟨h.entries, h.orphans⟩⟩

variable {P : Kind ν → Prop} {d d' : Disk ρ ν} {l s t : Loc ρ ν} {n : Node ν} {k : Kind ν}

/-! ## Reading -/

theorem Every.get (h : d.Every P) (hdir : P .dir) (hn : d.get l = some n) : P n.kind := by
  unfold Disk.get at hn
  split at hn
  · cases hn
    exact hdir
  · exact h.entries _ (mem_of_lookup hn)

theorem Every.lstat (h : d.Every P) (hdir : P .dir) (hn : d.lstat l = .ok n) : P n.kind := by
  unfold Disk.lstat at hn
  split at hn
  · split at hn
    · next hg =>
      cases hn
      exact h.get hdir hg
    · cases hn
  · cases hn

theorem Every.stat (h : d.Every P) (hdir : P .dir) (hn : d.stat l = .ok n) : P n.kind := by
  unfold Disk.stat at hn
  split at hn
  · split at hn
    · next hg =>
      cases hn
      exact h.get hdir hg
    · cases hn
  · cases hn

omit [DecidableEq ν] in
theorem kind_of_contents {b : Bytes} (h : contents n = some b) : n.kind = .file b := by
  unfold contents at h
  split at h
  · next hk =>
    cases h
    exact hk
  · cases h

theorem Every.fileOf (h : d.Every P) {hd : Handle ρ} {b : Bytes} (hb : d.fileOf hd = some b) :
    P (.file b) := by
  unfold Disk.fileOf at hb
  rcases Option.or_eq_some_iff.mp hb with hb | ⟨_, hb⟩
  · obtain ⟨e, he, hc⟩ := List.exists_of_findSome?_eq_some hb
    split at hc
    · rw [← kind_of_contents hc]
      exact h.entries e he
    · cases hc
  · obtain ⟨o, ho, hc⟩ := List.exists_of_findSome?_eq_some hb
    split at hc
    · rw [← kind_of_contents hc]
      exact h.orphans o ho
    · cases hc

/-! ## The updates -/

theorem Every.update (h : d.Every P) {F : Loc ρ ν → Node ν → Node ν}
    (hF : ∀ x n, P n.kind → P (F x n).kind) : (d.update F).Every P where
  entries := by
    intro e he
    obtain ⟨e₀, he₀, rfl⟩ := List.mem_map.mp he
    unfold guarded
    split
    · exact hF _ _ (h.entries e₀ he₀)
    · exact h.entries e₀ he₀
  orphans := h.orphans

theorem Every.modify (h : d.Every P) {f : Node ν → Node ν} (hf : ∀ n, P n.kind → P (f n).kind) :
    (d.modify l f).Every P := by
  refine h.update fun x n hn => ?_
  split
  · exact hf n hn
  · exact hn

theorem Every.tick (h : d.Every P) : d.tick.Every P := ⟨h.entries, h.orphans⟩

theorem Every.touchParent (h : d.Every P) : (d.touchParent l).Every P := h.modify fun _ hn => hn

theorem Every.add (h : d.Every P) {mode : Nat} (hk : P k) (ha : d.add l k mode = some d') :
    d'.Every P := by
  unfold Disk.add at ha
  split at ha
  · next hfree =>
    cases ha
    refine Every.tick (Every.touchParent ⟨fun e he => ?_, h.orphans⟩)
    rcases List.mem_cons.mp he with rfl | he
    · exact hk
    · exact h.entries e he
  · cases ha

theorem Every.remove (h : d.Every P) : (d.remove l).Every P where
  entries := fun e he => h.entries e (List.mem_of_mem_filter he)
  orphans := by
    intro o ho
    rcases List.mem_append.mp ho with ho | ho
    · obtain ⟨e, he, rfl⟩ := List.mem_map.mp ho
      exact h.entries e (List.mem_of_mem_filter he)
    · exact h.orphans o ho

theorem Every.cut (h : d.Every P) : (d.cut l).Every P :=
  Every.tick (Every.touchParent h.remove)

theorem Every.clear (h : d.Every P) : (d.clear t).Every P := by
  unfold Disk.clear
  split
  · exact h
  · exact h.remove

theorem Every.shift (h : d.Every P) (hs : d.shift s t = some d') : d'.Every P := by
  unfold Disk.shift at hs
  split at hs
  · next hfree =>
    cases hs
    refine Every.tick (Every.touchParent (Every.touchParent ⟨fun e he => ?_, h.clear.orphans⟩))
    rcases List.mem_append.mp he with he | he
    · obtain ⟨e₀, he₀, rfl⟩ := List.mem_map.mp he
      exact h.clear.entries e₀ (List.mem_of_mem_filter he₀)
    · exact h.clear.entries e (List.mem_of_mem_filter he)
  · cases hs

omit [DecidableEq ν] in
theorem every_mapData {f : Bytes → Bytes} (hf : ∀ b, P (.file b) → P (.file (f b))) {now : Nat}
    (hn : P n.kind) : P (mapData f now n).kind := by
  unfold mapData
  split
  · next b hk =>
    rw [hk] at hn
    exact hf b hn
  · exact hn

theorem Every.mapFile (h : d.Every P) {hd : Handle ρ} {f : Bytes → Bytes}
    (hf : ∀ b, P (.file b) → P (.file (f b))) : (d.mapFile hd f).Every P where
  entries := by
    refine (h.update fun x n hn => ?_).entries
    split
    · exact every_mapData hf hn
    · exact hn
  orphans := by
    intro o ho
    obtain ⟨o₀, ho₀, rfl⟩ := List.mem_map.mp ho
    split
    · exact every_mapData hf (h.orphans o₀ ho₀)
    · exact h.orphans o₀ ho₀

theorem Every.putFile (h : d.Every P) {data : Bytes} {mode : Option Nat} (hdata : P (.file data))
    (hput : d.putFile l data mode = .ok () d') : d'.Every P := by
  unfold Disk.putFile at hput
  split at hput
  · cases hput
    exact Every.tick (h.modify fun _ _ => hdata)
  · cases hput
  · cases hput
  · split at hput
    · next ha =>
      cases hput
      exact h.add hdata ha
    · cases hput

end Disk

namespace Sys

open Disk

variable {P : Kind ν → Prop}

/-- The call makes no node without the property. -/
abbrev Leaves (P : Kind ν → Prop) (x : Sys ρ ν α) : Prop := Keeps (fun d d' => d.Every P → d'.Every P) x

theorem leaves_addAt {k : Kind ν} (hk : P k) (mode : Nat) (r : Loc ρ ν) : Leaves P (addAt k mode r) := by
  intro d hd
  rcases after_addAt k mode r d with h | h
  · rw [h]
    exact hd
  · exact hd.add hk h

theorem leaves_symlink {target : Link ν} (hk : P (.symlink target)) (l : Loc ρ ν) :
    Leaves P (symlink target l) := keeps_resolved (fun _ h => h) (leaves_addAt hk 0o777)

theorem leaves_createDirAll (hdir : P .dir) (l : Loc ρ ν) : Leaves P (createDirAll l) := by
  refine keeps_createDirAllUpTo (fun _ _ _ h h' hd => h' (h hd)) (fun l => ?_) _ l
  exact keeps_resolved (fun _ h => h) (leaves_addAt hdir 0o755)

theorem leaves_openWrite (hempty : P (.file [])) (l : Loc ρ ν) (create trunc : Bool) :
    Leaves P (openWrite l create trunc) := by
  refine keeps_followed (fun _ h => h) fun r d hd => ?_
  unfold after openWriteAt
  cases hg : d.get r with
  | some n =>
    obtain ⟨k, hk⟩ : ∃ k, n.kind = k := ⟨_, rfl⟩
    cases k with
    | dir => simpa only [hk] using hd
    | symlink t => simpa only [hk] using hd
    | file b =>
      cases trunc with
      | false => simpa only [hk, Bool.false_eq_true, if_false] using hd
      | true => simpa only [hk, if_true] using hd.mapFile fun _ _ => hempty
  | none =>
    cases create with
    | false => simpa using hd
    | true =>
      cases ha : d.add r (.file []) 0o644 with
      | none => simpa only [ha, if_true] using hd
      | some d' => simpa only [ha, if_true] using hd.add hempty ha

theorem leaves_pwrite {off : Nat} {data : Bytes} (h : Handle ρ)
    (hdata : ∀ b, P (.file b) → P (.file (splice b off data))) :
    Leaves P (pwrite h off data : Sys ρ ν Nat) := fun _ hd => hd.mapFile hdata

theorem leaves_putFileAt {data : Bytes} (hdata : P (.file data)) (mode : Option Nat) (r : Loc ρ ν) :
    Leaves P (putFileAt data mode r) := by
  intro d hd
  rcases after_putFileAt data mode r d with h | h
  · rw [h]
    exact hd
  · exact hd.putFile hdata h

theorem leaves_writeFile {data : Bytes} (hdata : P (.file data)) (l : Loc ρ ν) :
    Leaves P (writeFile l data) := keeps_followed (fun _ h => h) (leaves_putFileAt hdata none)

/-- What is copied was there. -/
theorem leaves_copyFile (hdir : P .dir) (src dst : Loc ρ ν) : Leaves P (copyFile src dst) := by
  intro d hd
  unfold after copyFile
  cases hs : d.stat src with
  | error e => exact hd
  | ok n =>
    have hn := hd.stat hdir hs
    cases hk : n.kind with
    | dir => simpa only [hk] using hd
    | symlink t => simpa only [hk] using hd
    | file b =>
      rw [hk] at hn
      simp only [hk]
      exact (keeps_followed (fun _ h => h) (leaves_putFileAt hn (some n.mode))) d hd

theorem leaves_rename (s t : Loc ρ ν) : Leaves P (rename s t) := by
  refine keeps_resolved (fun _ h => h) fun rs => keeps_resolved (fun _ h => h) fun rt d hd => ?_
  unfold after
  rcases renameAt_cases rs rt d with ⟨e, h⟩ | ⟨_, h⟩ | ⟨d', _, _, _, _, hshift, h⟩
  · rw [h]
    exact hd
  · rw [h]
    exact hd
  · rw [h]
    exact hd.shift hshift

theorem leaves_removeFile (l : Loc ρ ν) : Leaves P (removeFile l) := by
  refine keeps_resolved (fun _ h => h) fun r d hd => ?_
  unfold after removeFileAt
  cases hk : d.kindAt r with
  | none => exact hd
  | some k => cases k <;> first | exact hd | exact hd.cut

theorem leaves_removeDirAll (l : Loc ρ ν) : Leaves P (removeDirAll l) := by
  refine keeps_resolved (fun _ h => h) fun r d hd => ?_
  unfold after removeDirAllAt
  cases hk : d.kindAt r with
  | none => exact hd
  | some k =>
    by_cases hr : r.path = []
    · cases k <;> simpa only [hr, if_true] using hd
    · cases k <;> first | exact hd | simpa only [hr, if_false] using hd.cut

theorem leaves_setAttr (l : Loc ρ ν) (f : Node ν → Node ν) : Leaves P (setAttr l f) := by
  refine keeps_followed (fun _ h => h) fun r d hd => ?_
  unfold after setAttrAt
  cases hk : d.kindAt r with
  | none => exact hd
  | some k => exact Every.tick (hd.modify fun _ hn => hn)

end Sys

end BranchFs.Posix
