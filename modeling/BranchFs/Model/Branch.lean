/-
# BranchFs.Model.Branch -- a branch record and the branch map

`Branch` holds what a branch keeps in memory: its ancestry, its mode and state, the tombstone set,
the touch map and the hide rules. The logs these are persisted to are not modelled here. Sets and
maps are lists; nothing below depends on their order.

`Forest` is the branch map as a lineage: `main` is its root, every other branch was forked from an
older one, and a branch is taken out only when it is a leaf. A map with a dangling parent or a cycle
cannot be built, so resolution through the ancestry is structural recursion.
-/
import BranchFs.Model.Types
import BranchFs.Logic.Lineage

namespace BranchFs

open BranchFs.Posix BranchFs.Logic

structure Branch where
  name : String
  parent : Option String
  inheritance : InheritanceMode
  state : BranchState
  tombstones : List RelPath
  touches : List TouchRecord
  /-- How many children have been committed into this branch. -/
  commitCount : Nat
  /-- The parent's `commitCount` when this branch was forked. -/
  parentVersionAtFork : Nat
  hidePaths : List String
  deriving DecidableEq, Repr

/-- The non-empty prefixes of a path, the path itself last. -/
def ancestors : RelPath → List RelPath
  | [] => []
  | n :: p => [n] :: (ancestors p).map (n :: ·)

theorem mem_ancestors {a p : RelPath} : a ∈ ancestors p ↔ a ≠ [] ∧ a <+: p := by
  induction p generalizing a with
  | nil =>
    simp only [ancestors, List.not_mem_nil, List.prefix_nil, false_iff, not_and]
    exact fun h => h
  | cons n p ih =>
    simp only [ancestors, List.mem_cons, List.mem_map]
    constructor
    · rintro (rfl | ⟨b, hb, rfl⟩)
      · exact ⟨by simp, by simp⟩
      · exact ⟨by simp, by simpa using (ih.mp hb).2⟩
    · rintro ⟨hne, hpre⟩
      cases a with
      | nil => exact absurd rfl hne
      | cons m a =>
        obtain ⟨rfl, hpre'⟩ := List.cons_prefix_cons.mp hpre
        by_cases ha : a = []
        · exact Or.inl (by rw [ha])
        · exact Or.inr ⟨a, ih.mpr ⟨ha, hpre'⟩, rfl⟩

/-- `path_is_same_or_descendant`; a root covers nothing but itself. -/
def pathIsSameOrDescendant (candidate parent : RelPath) : Bool :=
  candidate == parent || (!parent.isEmpty && parent.isPrefixOf candidate)

namespace Branch

/-- Masked by a hide rule, at the path or above it. -/
def isHidden (b : Branch) (p : RelPath) : Bool :=
  if b.hidePaths.isEmpty then false
  else
    match normalizeHidePath (relText p) with
    | none => false
    | some path => b.hidePaths.any fun hidden => path == hidden || startsWith path (hidden ++ "/")

def isWritable (b : Branch) : Bool := b.state == .open

/-- Tombstoned, at the path or above it. -/
def isDeleted (b : Branch) (p : RelPath) : Bool :=
  b.tombstones.contains p || (ancestors p).any b.tombstones.contains

def addTombstone (p : RelPath) (b : Branch) : Branch :=
  if b.tombstones.contains p then b else { b with tombstones := p :: b.tombstones }

def removeTombstone (p : RelPath) (b : Branch) : Branch :=
  { b with tombstones := b.tombstones.filter (· ≠ p) }

def removeTombstonesUnder (p : RelPath) (b : Branch) : Branch :=
  { b with tombstones := b.tombstones.filter fun t => !pathIsSameOrDescendant t p }

def getTouchRecord (b : Branch) (p : RelPath) : Option TouchRecord :=
  b.touches.find? fun r => r.path == p

@[simp] theorem mem_addTombstone {b : Branch} {p t : RelPath} :
    t ∈ (b.addTombstone p).tombstones ↔ t = p ∨ t ∈ b.tombstones := by
  unfold addTombstone
  split
  · next h =>
    have hp : p ∈ b.tombstones := by simpa using h
    constructor
    · exact Or.inr
    · rintro (rfl | ht)
      · exact hp
      · exact ht
  · simp

@[simp] theorem mem_removeTombstone {b : Branch} {p t : RelPath} :
    t ∈ (b.removeTombstone p).tombstones ↔ t ∈ b.tombstones ∧ t ≠ p := by
  simp [removeTombstone]

theorem isDeleted_iff {b : Branch} {p : RelPath} :
    b.isDeleted p = true ↔ ∃ t ∈ b.tombstones, t <+: p ∧ (t = [] → p = []) := by
  simp only [isDeleted, Bool.or_eq_true, List.contains_iff_mem, List.any_eq_true, mem_ancestors]
  constructor
  · rintro (h | ⟨t, ⟨hne, hpre⟩, ht⟩)
    · exact ⟨p, h, List.prefix_refl p, fun h => h⟩
    · exact ⟨t, ht, hpre, fun h => absurd h hne⟩
  · rintro ⟨t, ht, hpre, hnil⟩
    by_cases hne : t = []
    · left
      rw [hnil hne, ← hne]
      exact ht
    · exact Or.inr ⟨t, ⟨hne, hpre⟩, ht⟩

/-- What a tombstone covers stays covered further down. -/
theorem isDeleted_mono {b : Branch} {p q : RelPath} (h : b.isDeleted p = true) (hp : p ≠ [])
    (hpq : p <+: q) : b.isDeleted q = true := by
  obtain ⟨t, ht, htp, hnil⟩ := isDeleted_iff.mp h
  exact isDeleted_iff.mpr ⟨t, ht, htp.trans hpq, fun h => absurd (hnil h) hp⟩

theorem isHidden_of_noRules {b : Branch} (h : b.hidePaths = []) (p : RelPath) :
    b.isHidden p = false := by
  simp [isHidden, h]

end Branch

/-! ## The branch map -/

/-- The branches, newest first; `main` is the oldest and the only one without a parent. -/
structure Forest where
  list : List Branch
  grown : Grown Branch.name Branch.parent list
  main : ∀ b ∈ list, b.name = "main" ↔ b.parent = none

namespace Forest

def get? (F : Forest) (name : String) : Option Branch := lookupKey Branch.name F.list name

/-- No other branch was forked from `name`. -/
def isLeaf (F : Forest) (name : String) : Bool := F.list.all fun b => b.parent != some name

theorem mem_of_get? {F : Forest} {name : String} {b : Branch} (h : F.get? name = some b) :
    b ∈ F.list := mem_of_lookupKey h

theorem name_of_get? {F : Forest} {name : String} {b : Branch} (h : F.get? name = some b) :
    b.name = name := key_of_lookupKey h

theorem get?_of_mem {F : Forest} {b : Branch} (h : b ∈ F.list) : F.get? b.name = some b :=
  lookupKey_of_mem F.grown.nodup h

theorem get?_eq_none {F : Forest} {name : String} :
    F.get? name = none ↔ name ∉ F.list.map Branch.name := lookupKey_eq_none

/-- The parent of a branch is there. -/
theorem get?_parent {F : Forest} {name parent : String} {b : Branch} (h : F.get? name = some b)
    (hp : b.parent = some parent) : ∃ q, F.get? parent = some q := by
  have hmem := F.grown.up_mem (mem_of_get? h) hp
  exact Option.isSome_iff_exists.mp (lookupKey_isSome.mpr hmem)

theorem parent_ne_self {F : Forest} {name : String} {b : Branch} (h : F.get? name = some b) :
    b.parent ≠ some name := by
  have := F.grown.up_ne_key (mem_of_get? h)
  rwa [name_of_get? h] at this

/-- The map with `main` alone. -/
def init (b : Branch) (h : b.name = "main" ∧ b.parent = none) : Forest where
  list := [b]
  grown := Grown.root h.2
  main := by
    intro c hc
    rw [List.mem_singleton.mp hc]
    simp [h]

/-- `branches.insert`, for a new name below an existing parent. -/
def fork (F : Forest) (b : Branch) (parent : String)
    (h : b.parent = some parent ∧ F.get? parent ≠ none ∧ F.get? b.name = none) : Forest where
  list := b :: F.list
  grown := by
    refine Grown.fork F.grown h.1 ?_ ?_
    · exact lookupKey_isSome.mp (Option.ne_none_iff_isSome.mp h.2.1)
    · exact lookupKey_eq_none.mp h.2.2
  main := by
    intro c hc
    rcases List.mem_cons.mp hc with rfl | hc
    · constructor
      · intro hname
        -- `main` is there already, so a fresh name is another one
        exfalso
        have hroot : ∃ r ∈ F.list, r.parent = none := by
          have main := F.grown
          generalize F.list = bs at main
          induction main with
          | root h => exact ⟨_, List.mem_singleton_self _, h⟩
          | fork _ _ _ _ ih =>
            obtain ⟨r, hr, hrp⟩ := ih
            exact ⟨r, List.mem_cons_of_mem _ hr, hrp⟩
        obtain ⟨r, hr, hrp⟩ := hroot
        have hrm := (F.main r hr).mpr hrp
        have := get?_of_mem hr
        rw [hrm, ← hname, h.2.2] at this
        cases this
      · intro hnone
        rw [h.1] at hnone
        cases hnone
    · exact F.main c hc

/-- `branches.remove`, for a leaf other than `main`. -/
def remove (F : Forest) (name : String) (h : F.isLeaf name = true ∧ name ≠ "main") : Forest where
  list := F.list.filter fun b => decide (b.name ≠ name)
  grown := by
    refine F.grown.prune ?_ ?_
    · intro b hb
      simpa using List.all_eq_true.mp h.1 b hb
    · intro b hb hname hnone
      exact h.2 (hname ▸ (F.main b hb).mpr hnone)
  main := fun b hb => F.main b (List.mem_of_mem_filter hb)

/-- `f` on the record of `name`; name and ancestry stay. -/
def modifyAt (name : String) (f : Branch → Branch) (b : Branch) : Branch :=
  if b.name = name then { f b with name := b.name, parent := b.parent } else b

theorem modifyAt_name (name : String) (f : Branch → Branch) (b : Branch) :
    (modifyAt name f b).name = b.name := by
  unfold modifyAt
  split <;> rfl

theorem modifyAt_parent (name : String) (f : Branch → Branch) (b : Branch) :
    (modifyAt name f b).parent = b.parent := by
  unfold modifyAt
  split <;> rfl

/-- Change the record of `name`. -/
def modify (F : Forest) (name : String) (f : Branch → Branch) : Forest where
  list := F.list.map (modifyAt name f)
  grown := F.grown.map _ (modifyAt_name name f) (modifyAt_parent name f)
  main := by
    intro c hc
    obtain ⟨b, hb, rfl⟩ := List.mem_map.mp hc
    rw [modifyAt_name, modifyAt_parent]
    exact F.main b hb

theorem get?_fork {F : Forest} {b : Branch} {parent : String}
    {h : b.parent = some parent ∧ F.get? parent ≠ none ∧ F.get? b.name = none} (n : String) :
    (F.fork b parent h).get? n = if n = b.name then some b else F.get? n := by
  unfold get? fork
  by_cases hn : b.name = n
  · simp [lookupKey, hn]
  · rw [lookupKey_cons_ne hn, if_neg (fun h => hn h.symm)]

theorem get?_remove {F : Forest} {name : String} {h : F.isLeaf name = true ∧ name ≠ "main"}
    (n : String) : (F.remove name h).get? n = if n = name then none else F.get? n :=
  lookupKey_prune F.list name n

theorem get?_modify {F : Forest} {name : String} {f : Branch → Branch} (n : String) :
    (F.modify name f).get? n = (F.get? n).map (modifyAt name f) :=
  lookupKey_map (modifyAt_name name f) F.list n

theorem get?_modify_ne {F : Forest} {name : String} {f : Branch → Branch} {n : String}
    (h : n ≠ name) : (F.modify name f).get? n = F.get? n := by
  rw [get?_modify]
  cases hb : F.get? n with
  | none => rfl
  | some b =>
    have hn := name_of_get? hb
    simp [modifyAt, hn, h]

theorem get?_modify_self {F : Forest} {name : String} {f : Branch → Branch} {b : Branch}
    (h : F.get? name = some b) (hname : (f b).name = b.name) (hparent : (f b).parent = b.parent) :
    (F.modify name f).get? name = some (f b) := by
  rw [get?_modify, h, Option.map_some, modifyAt, if_pos (name_of_get? h), ← hname, ← hparent]

/-- Two changes of one record that leave its name and its parent are one. -/
theorem modify_modify_of_same {F : Forest} {name : String} {f g : Branch → Branch}
    (hname : ∀ b, (f b).name = b.name) (hparent : ∀ b, (f b).parent = b.parent) :
    (F.modify name f).modify name g = F.modify name (g ∘ f) := by
  have hlist : (F.list.map (modifyAt name f)).map (modifyAt name g) =
      F.list.map (modifyAt name (g ∘ f)) := by
    rw [List.map_map]
    refine List.map_congr_left fun b _ => ?_
    show modifyAt name g (modifyAt name f b) = modifyAt name (g ∘ f) b
    by_cases hb : b.name = name
    · have hf : modifyAt name f b = f b := by
        rw [modifyAt, if_pos hb, ← hname b, ← hparent b]
      rw [hf, modifyAt, modifyAt, if_pos ((hname b).trans hb), if_pos hb, hname, hparent]
      rfl
    · rw [modifyAt, modifyAt, modifyAt, if_neg hb, if_neg hb, if_neg hb]
  cases F
  simp only [modify, Forest.mk.injEq]
  exact hlist

end Forest

end BranchFs
