/-
# BranchFs.Posix.Disk -- directory trees, closed under "the parent is a directory"

A `Disk` is a finite table from locations to nodes. Its `closed` field says that every entry hangs
below a directory and `unique` that no location is listed twice, so a dangling subtree cannot be
built: each update below carries the side condition under which the fields survive and is used only
where that condition has been checked. The root of every tree is a directory that is always there.

The updates are the ones a file system has: put a node at a free place, change a node in place,
cut a subtree, move a subtree. Each has one lemma that says what `get` reads afterwards, and no
later proof unfolds an update. Path resolution and the system calls are built on top.
-/
import BranchFs.Posix.Loc
import Mathlib.Tactic.Common

namespace BranchFs.Posix

/-- File contents. -/
abbrev Bytes := List UInt8

/-- One component of a link target: `..` or a name. -/
inductive Comp (ν : Type) where
  | up
  | name (n : ν)
  deriving DecidableEq, Repr

/-- The text of a symbolic link, as the kernel reads it. -/
structure Link (ν : Type) where
  absolute : Bool
  comps : List (Comp ν)
  deriving DecidableEq, Repr

inductive Kind (ν : Type) where
  | file (data : Bytes)
  | symlink (target : Link ν)
  | dir
  deriving DecidableEq, Repr

namespace Kind

variable {ν : Type}

def isDir : Kind ν → Bool
  | dir => true
  | _ => false

def isSymlink : Kind ν → Bool
  | symlink _ => true
  | _ => false

def isFile : Kind ν → Bool
  | file _ => true
  | _ => false

@[simp] theorem isDir_iff {k : Kind ν} : k.isDir = true ↔ k = dir := by
  cases k <;> simp [isDir]

end Kind

/-- A directory entry with the attributes `stat` reports. `id` names the file object, so that an
open file can be told from a later file of the same name; `mtime` is a stamp of the disk's clock. -/
structure Node (ν : Type) where
  kind : Kind ν
  mode : Nat
  uid : Nat
  gid : Nat
  mtime : Nat
  id : Nat
  deriving DecidableEq, Repr

/-- Where the named trees hang in the host: the mount table path resolution consults when a link
leads out of the tree it started in. `hostDir` are the host directories that hold mounts, directly or
further down: they can be walked through whatever the table says of them. `mountsIn` lists the mounts
that hang in a host directory. -/
structure Layout (ρ ν : Type) where
  mountPath : ρ → List ν
  mountAt : List ν → Option ρ
  hostDir : List ν → Bool
  mountsIn : List ν → List ν
  mem_mountsIn : ∀ p n, n ∈ mountsIn p ↔ (mountAt (p ++ [n])).isSome = true
  hostDir_dropLast : ∀ p, hostDir p = true → hostDir p.dropLast = true
  hostDir_mountPath : ∀ r, hostDir (mountPath r).dropLast = true
  hostDir_mountAt : ∀ p n, (mountAt (p ++ [n])).isSome = true → hostDir p = true

section Tables

/-! ## Association tables -/

variable {κ α : Type} [DecidableEq κ]

theorem lookup_filter_key (P : κ → Bool) (es : List (κ × α)) (k : κ) :
    (es.filter (fun e => P e.1)).lookup k = if P k then es.lookup k else none := by
  induction es with
  | nil => simp
  | cons e es ih =>
    obtain ⟨a, b⟩ := e
    rw [List.filter_cons]
    by_cases hk : k = a
    · subst hk
      by_cases hP : P k = true <;> simp [hP, ih]
    · have hne : (k == a) = false := by simpa using hk
      by_cases hP : P a = true <;> simp [hP, ih, List.lookup_cons, hne]

theorem lookup_map_val (f : κ → α → α) (es : List (κ × α)) (k : κ) :
    (es.map (fun e => (e.1, f e.1 e.2))).lookup k = (es.lookup k).map (f k) := by
  induction es with
  | nil => simp
  | cons e es ih =>
    obtain ⟨a, b⟩ := e
    by_cases hk : k = a
    · subst hk
      simp
    · have hne : (k == a) = false := by simpa using hk
      simp [List.lookup_cons, hne, ih]

/-- Renaming the keys by a map that is undone on the keys looked up renames the lookup. -/
theorem lookup_map_key (f g : κ → κ) (es : List (κ × α)) (k : κ) (hfg : f (g k) = k)
    (hgf : ∀ e ∈ es, g (f e.1) = e.1) :
    (es.map (fun e => (f e.1, e.2))).lookup k = es.lookup (g k) := by
  induction es with
  | nil => simp
  | cons e es ih =>
    obtain ⟨a, b⟩ := e
    have ih' := ih (fun e' he' => hgf e' (List.mem_cons_of_mem _ he'))
    have ha : g (f a) = a := hgf (a, b) (List.mem_cons_self ..)
    by_cases hk : k = f a
    · subst hk
      simp [ha]
    · have hg : ¬ g k = a := by
        intro h
        exact hk (by rw [← h, hfg])
      have h1 : (k == f a) = false := by simpa using hk
      have h2 : (g k == a) = false := by simpa using hg
      simp [List.lookup_cons, h1, h2, ih']

theorem mem_of_lookup {es : List (κ × α)} {k : κ} {a : α} (h : es.lookup k = some a) :
    (k, a) ∈ es := by
  obtain ⟨l₁, l₂, rfl, _⟩ := List.lookup_eq_some_iff.mp h
  simp

theorem lookup_ne_none {es : List (κ × α)} {e : κ × α} (h : e ∈ es) : es.lookup e.1 ≠ none := by
  intro hn
  have hall := List.lookup_eq_none_iff.mp hn e h
  simp at hall

end Tables

variable {ρ ν : Type} [DecidableEq ρ] [DecidableEq ν]

/-- The table has a directory at `l`; a root always is one. -/
def dirIn (es : List (Loc ρ ν × Node ν)) (l : Loc ρ ν) : Bool :=
  l.path.isEmpty || (es.lookup l).any (fun n => n.kind.isDir)

theorem dirIn_iff {es : List (Loc ρ ν × Node ν)} {l : Loc ρ ν} :
    dirIn es l = true ↔ l.path = [] ∨ ∃ n, es.lookup l = some n ∧ n.kind = .dir := by
  simp [dirIn, Option.any_eq_true]

/-- The trees of the host. -/
structure Disk (ρ ν : Type) [DecidableEq ρ] [DecidableEq ν] where
  layout : Layout ρ ν
  entries : List (Loc ρ ν × Node ν)
  /-- File objects without a name, still reachable through an open file. -/
  orphans : List (Option ρ × Node ν)
  clock : Nat
  closed : ∀ e ∈ entries, e.1.path ≠ [] ∧ dirIn entries e.1.parent = true
  unique : (entries.map (·.1)).Nodup

namespace Disk

/-- The node a root directory reports. -/
def rootNode : Node ν := { kind := .dir, mode := 0o755, uid := 0, gid := 0, mtime := 0, id := 0 }

/-- The node at a location, without following anything. -/
def get (d : Disk ρ ν) (l : Loc ρ ν) : Option (Node ν) :=
  if l.path = [] then some rootNode else d.entries.lookup l

def kindAt (d : Disk ρ ν) (l : Loc ρ ν) : Option (Kind ν) := (d.get l).map (·.kind)

def dirAt (d : Disk ρ ν) (l : Loc ρ ν) : Bool := dirIn d.entries l

theorem get_root (d : Disk ρ ν) {l : Loc ρ ν} (h : l.path = []) : d.get l = some rootNode := by
  simp [get, h]

theorem kindAt_root (d : Disk ρ ν) {l : Loc ρ ν} (h : l.path = []) : d.kindAt l = some .dir := by
  simp [kindAt, get_root d h, rootNode]

theorem dirAt_iff (d : Disk ρ ν) (l : Loc ρ ν) : d.dirAt l = true ↔ d.kindAt l = some .dir := by
  unfold dirAt
  rw [dirIn_iff]
  by_cases h : l.path = []
  · simp [h, kindAt_root d h]
  · simp [kindAt, get, h]

theorem kindAt_of_get {d : Disk ρ ν} {l : Loc ρ ν} {n : Node ν} (h : d.get l = some n) :
    d.kindAt l = some n.kind := by
  simp [kindAt, h]

theorem get_none_iff (d : Disk ρ ν) (l : Loc ρ ν) : d.get l = none ↔ d.kindAt l = none := by
  simp [kindAt]

/-! ## What `closed` gives -/

/-- The directory of an entry is a directory. -/
theorem dir_parent {d : Disk ρ ν} {l : Loc ρ ν} (h : d.kindAt l ≠ none) :
    d.kindAt l.parent = some .dir := by
  by_cases hp : l.path = []
  · exact kindAt_root d (by simp [hp])
  · obtain ⟨n, hn⟩ : ∃ n, d.entries.lookup l = some n := by
      cases hl : d.entries.lookup l with
      | none => simp [kindAt, get, hp, hl] at h
      | some n => exact ⟨n, rfl⟩
    exact (dirAt_iff d _).mp (d.closed _ (mem_of_lookup hn)).2

/-- Everything properly above an entry is a directory. -/
theorem dir_above {d : Disk ρ ν} {a l : Loc ρ ν} (h : d.kindAt l ≠ none) (hal : a ≤ l)
    (hne : a ≠ l) : d.kindAt a = some .dir := by
  obtain ⟨n, hn⟩ : ∃ n, n = l.path.length := ⟨_, rfl⟩
  induction n generalizing l with
  | zero =>
    have hl : l.path = [] := List.eq_nil_of_length_eq_zero hn.symm
    exact kindAt_root d (List.prefix_nil.mp (hl ▸ hal.2))
  | succ n ih =>
    have hpar : d.kindAt l.parent = some .dir := dir_parent h
    by_cases heq : a = l.parent
    · rw [heq, hpar]
    · exact ih (l := l.parent) (by simp [hpar]) (Loc.le_parent_of_lt hal hne) heq (by simp; omega)

/-- Below anything that is not a directory there is nothing. -/
theorem none_below {d : Disk ρ ν} {a l : Loc ρ ν} (h : d.kindAt a ≠ some .dir) (hal : a ≤ l)
    (hne : a ≠ l) : d.kindAt l = none := by
  by_contra hl
  exact h (dir_above hl hal hne)

/-- Below a free place there is nothing. -/
theorem none_of_le {d : Disk ρ ν} {a l : Loc ρ ν} (h : d.kindAt a = none) (hal : a ≤ l) :
    d.kindAt l = none := by
  by_cases hne : a = l
  · rw [← hne, h]
  · exact none_below (by simp [h]) hal hne

omit [DecidableEq ρ] [DecidableEq ν] in
theorem path_ne_nil_of_not_dir [DecidableEq ρ] [DecidableEq ν] {d : Disk ρ ν} {l : Loc ρ ν}
    (h : d.kindAt l ≠ some .dir) : l.path ≠ [] := fun hp => h (kindAt_root d hp)

/-! ## Updates -/

/-- Advance the clock. -/
def tick (d : Disk ρ ν) : Disk ρ ν := { d with clock := d.clock + 1 }

@[simp] theorem get_tick (d : Disk ρ ν) (l : Loc ρ ν) : d.tick.get l = d.get l := rfl
@[simp] theorem kindAt_tick (d : Disk ρ ν) (l : Loc ρ ν) : d.tick.kindAt l = d.kindAt l := rfl

/-- `F`, except where it would change between directory and non-directory. -/
def guarded (F : Loc ρ ν → Node ν → Node ν) (k : Loc ρ ν) (n : Node ν) : Node ν :=
  if (F k n).kind.isDir = n.kind.isDir then F k n else n

omit [DecidableEq ρ] [DecidableEq ν] in
theorem guarded_isDir (F : Loc ρ ν → Node ν → Node ν) (k : Loc ρ ν) (n : Node ν) :
    (guarded F k n).kind.isDir = n.kind.isDir := by
  unfold guarded
  split
  · next h => exact h
  · rfl

/-- Change every node in place. -/
def update (d : Disk ρ ν) (F : Loc ρ ν → Node ν → Node ν) : Disk ρ ν where
  layout := d.layout
  entries := d.entries.map fun e => (e.1, guarded F e.1 e.2)
  orphans := d.orphans
  clock := d.clock
  closed := by
    intro e he
    obtain ⟨e₀, he₀, rfl⟩ := List.mem_map.mp he
    refine ⟨(d.closed e₀ he₀).1, ?_⟩
    have hdir := (d.closed e₀ he₀).2
    rw [dirIn_iff] at hdir ⊢
    refine hdir.imp_right ?_
    rintro ⟨n, hn, hk⟩
    refine ⟨guarded F e₀.1.parent n, ?_, ?_⟩
    · rw [lookup_map_val (guarded F), hn]
      rfl
    · rw [← Kind.isDir_iff, guarded_isDir, hk]
      rfl
  unique := by
    rw [List.map_map]
    exact d.unique

theorem get_update (d : Disk ρ ν) (F : Loc ρ ν → Node ν → Node ν) {k : Loc ρ ν}
    (hk : k.path ≠ []) : (d.update F).get k = (d.get k).map (guarded F k) := by
  simp only [get, hk, if_false, update]
  exact lookup_map_val (guarded F) d.entries k

/-- A place `F` leaves alone keeps its node. -/
theorem get_update_eq (d : Disk ρ ν) (F : Loc ρ ν → Node ν → Node ν) {k : Loc ρ ν}
    (h : ∀ n, F k n = n) : (d.update F).get k = d.get k := by
  by_cases hk : k.path = []
  · rw [get_root _ hk, get_root _ hk]
  · rw [get_update d F hk]
    cases d.get k <;> simp [guarded, h]

theorem kindAt_update (d : Disk ρ ν) (F : Loc ρ ν → Node ν → Node ν) {k : Loc ρ ν}
    (h : ∀ n, (F k n).kind = n.kind) : (d.update F).kindAt k = d.kindAt k := by
  unfold kindAt
  by_cases hk : k.path = []
  · rw [get_root _ hk, get_root _ hk]
  · rw [get_update d F hk]
    cases d.get k with
    | none => rfl
    | some n => simp [guarded, h]

/-- An update in place makes and unmakes no directory. -/
theorem kindAt_update_dir (d : Disk ρ ν) (F : Loc ρ ν → Node ν → Node ν) (k : Loc ρ ν) :
    (d.update F).kindAt k = some .dir ↔ d.kindAt k = some .dir := by
  unfold kindAt
  by_cases hk : k.path = []
  · rw [get_root _ hk, get_root _ hk]
  · rw [get_update d F hk]
    cases d.get k with
    | none => simp
    | some n =>
      simp only [Option.map_some, Option.some.injEq]
      rw [← Kind.isDir_iff, guarded_isDir, Kind.isDir_iff]

/-- Change the node at `l`. -/
def modify (d : Disk ρ ν) (l : Loc ρ ν) (f : Node ν → Node ν) : Disk ρ ν :=
  d.update fun k n => if k = l then f n else n

theorem get_modify (d : Disk ρ ν) (l : Loc ρ ν) (f : Node ν → Node ν) (k : Loc ρ ν)
    (hl : l.path ≠ []) (hf : ∀ n, d.get l = some n → (f n).kind.isDir = n.kind.isDir) :
    (d.modify l f).get k = if k = l then (d.get k).map f else d.get k := by
  by_cases hkl : k = l
  · subst hkl
    unfold modify
    rw [get_update d _ hl, if_pos rfl]
    cases hn : d.get k with
    | none => rfl
    | some n => simp [guarded, hf n hn]
  · rw [if_neg hkl]
    exact get_update_eq d _ (fun n => if_neg hkl)

/-- Other places keep their node. -/
theorem get_modify_ne (d : Disk ρ ν) {l k : Loc ρ ν} (f : Node ν → Node ν) (h : k ≠ l) :
    (d.modify l f).get k = d.get k := get_update_eq d _ (fun _ => if_neg h)

/-- A change of attributes changes no kind. -/
theorem kindAt_modify (d : Disk ρ ν) (l : Loc ρ ν) (f : Node ν → Node ν)
    (hf : ∀ n, (f n).kind = n.kind) (k : Loc ρ ν) : (d.modify l f).kindAt k = d.kindAt k := by
  refine kindAt_update d _ (fun n => ?_)
  split
  · exact hf n
  · rfl

/-- The directory of `l` gets a new modification time. -/
def touchParent (d : Disk ρ ν) (l : Loc ρ ν) : Disk ρ ν :=
  d.modify l.parent fun n => { n with mtime := d.clock }

@[simp] theorem kindAt_touchParent (d : Disk ρ ν) (l k : Loc ρ ν) :
    (d.touchParent l).kindAt k = d.kindAt k := by
  exact kindAt_modify d l.parent (fun n => { n with mtime := d.clock }) (fun _ => rfl) k

theorem get_touchParent_ne (d : Disk ρ ν) {l k : Loc ρ ν} (h : k ≠ l.parent) :
    (d.touchParent l).get k = d.get k := get_modify_ne d _ h

/-- Put a node at a free place below a directory. -/
def insert (d : Disk ρ ν) (l : Loc ρ ν) (n : Node ν)
    (h : d.kindAt l = none ∧ d.kindAt l.parent = some .dir) : Disk ρ ν where
  layout := d.layout
  entries := (l, n) :: d.entries
  orphans := d.orphans
  clock := d.clock
  closed := by
    have hp : l.path ≠ [] := by
      intro hp
      simp [kindAt_root d hp] at h
    have hl : d.entries.lookup l = none := by
      simpa [kindAt, get, hp] using h.1
    have keep : ∀ k, dirIn d.entries k = true → dirIn ((l, n) :: d.entries) k = true := by
      intro k hk
      rw [dirIn_iff] at hk ⊢
      refine hk.imp_right ?_
      rintro ⟨m, hm, hkind⟩
      refine ⟨m, ?_, hkind⟩
      have hne : (k == l) = false := by
        rw [beq_eq_false_iff_ne]
        rintro rfl
        simp [hl] at hm
      simp [List.lookup_cons, hne, hm]
    intro e he
    rcases List.mem_cons.mp he with rfl | he
    · exact ⟨hp, keep _ ((dirAt_iff d _).mpr h.2)⟩
    · exact ⟨(d.closed e he).1, keep _ (d.closed e he).2⟩
  unique := by
    rw [List.map_cons, List.nodup_cons]
    refine ⟨?_, d.unique⟩
    intro hmem
    obtain ⟨e, he, rfl⟩ := List.mem_map.mp hmem
    have hp := (d.closed e he).1
    exact lookup_ne_none he (by simpa [kindAt, get, hp] using h.1)

theorem get_insert (d : Disk ρ ν) (l : Loc ρ ν) (n : Node ν)
    (h : d.kindAt l = none ∧ d.kindAt l.parent = some .dir) (k : Loc ρ ν) :
    (d.insert l n h).get k = if k = l then some n else d.get k := by
  have hp : l.path ≠ [] := by
    intro hp
    simp [kindAt_root d hp] at h
  unfold get
  by_cases hk : k.path = []
  · have hne : k ≠ l := by
      rintro rfl
      exact hp hk
    simp [hk, hne]
  · simp only [hk, if_false, insert, List.lookup_cons]
    by_cases hkl : k = l
    · simp [hkl]
    · have hne : (k == l) = false := by simpa using hkl
      simp [hkl, hne]

/-- Cut the subtree at `l`; its file objects stay reachable through open files. -/
def remove (d : Disk ρ ν) (l : Loc ρ ν) : Disk ρ ν where
  layout := d.layout
  entries := d.entries.filter fun e => !decide (l ≤ e.1)
  orphans := (d.entries.filter fun e => decide (l ≤ e.1)).map (fun e => (e.1.root, e.2))
    ++ d.orphans
  clock := d.clock
  closed := by
    intro e he
    obtain ⟨he, hle⟩ := List.mem_filter.mp he
    have hle' : ¬ l ≤ e.1 := by simpa using hle
    refine ⟨(d.closed e he).1, ?_⟩
    have hdir := (d.closed e he).2
    rw [dirIn_iff] at hdir ⊢
    refine hdir.imp_right ?_
    rintro ⟨m, hm, hk⟩
    refine ⟨m, ?_, hk⟩
    have hpar : ¬ l ≤ e.1.parent := fun hl => hle' (le_trans hl (Loc.parent_le _))
    rw [lookup_filter_key (fun k => !decide (l ≤ k))]
    simp [hpar, hm]
  unique := d.unique.sublist (List.filter_sublist.map _)

theorem get_remove (d : Disk ρ ν) (l k : Loc ρ ν) (hl : l.path ≠ []) :
    (d.remove l).get k = if l ≤ k then none else d.get k := by
  unfold get
  by_cases hk : k.path = []
  · have hle : ¬ l ≤ k := fun h => hl (List.prefix_nil.mp (hk ▸ h.2))
    simp [hk, hle]
  · simp only [hk, if_false, remove]
    rw [lookup_filter_key (fun k => !decide (l ≤ k))]
    by_cases hle : l ≤ k <;> simp [hle]

/-- Move the subtree at `s` to the free place `t`. -/
def move (d : Disk ρ ν) (s t : Loc ρ ν)
    (h : s.path ≠ [] ∧ ¬ s ≤ t ∧ d.kindAt t = none ∧ d.kindAt t.parent = some .dir) :
    Disk ρ ν where
  layout := d.layout
  entries := (d.entries.filter fun e => decide (s ≤ e.1)).map (fun e => (Loc.rebase s t e.1, e.2))
    ++ d.entries.filter fun e => !decide (s ≤ e.1)
  orphans := d.orphans
  clock := d.clock
  closed := by
    obtain ⟨hs, hst, ht, htp⟩ := h
    have htpath : t.path ≠ [] := by
      intro hp
      simp [kindAt_root d hp] at ht
    -- what is not below `s` keeps its directory
    have keep : ∀ k, ¬ s ≤ k → dirIn d.entries k = true →
        dirIn ((d.entries.filter fun e => decide (s ≤ e.1)).map
          (fun e => (Loc.rebase s t e.1, e.2)) ++ d.entries.filter fun e => !decide (s ≤ e.1))
          k = true := by
      intro k hsk hk
      have hkd := (dirAt_iff d k).mp hk
      rw [dirIn_iff] at hk ⊢
      refine hk.imp_right ?_
      rintro ⟨m, hm, hkind⟩
      refine ⟨m, ?_, hkind⟩
      have hnone : ((d.entries.filter fun e => decide (s ≤ e.1)).map
          (fun e => (Loc.rebase s t e.1, e.2))).lookup k = none := by
        rw [List.lookup_eq_none_iff]
        intro p hp
        obtain ⟨e, _, rfl⟩ := List.mem_map.mp hp
        rw [bne_iff_ne]
        rintro rfl
        have hnone := none_of_le ht (Loc.le_rebase s t e.1)
        simp [hnone] at hkd
      rw [List.lookup_append, hnone, lookup_filter_key (fun k => !decide (s ≤ k))]
      simp [hsk, hm]
    intro e he
    rcases List.mem_append.mp he with he | he
    · obtain ⟨e₀, he₀, rfl⟩ := List.mem_map.mp he
      obtain ⟨he₀, hle⟩ := List.mem_filter.mp he₀
      have hle : s ≤ e₀.1 := by simpa using hle
      refine ⟨by simp [Loc.rebase, htpath], ?_⟩
      by_cases heq : s = e₀.1
      · -- the moved entry itself hangs below the directory of `t`
        rw [← heq, Loc.rebase_self]
        exact keep _ (fun hsp => hst (le_trans hsp (Loc.parent_le t))) ((dirAt_iff d _).mpr htp)
      · rw [Loc.parent_rebase hle heq]
        have hsp : s ≤ e₀.1.parent := Loc.le_parent_of_lt hle heq
        have hdir := (d.closed e₀ he₀).2
        rw [dirIn_iff] at hdir ⊢
        right
        rcases hdir with hroot | ⟨m, hm, hk⟩
        · exact absurd (List.prefix_nil.mp (hroot ▸ hsp.2)) hs
        · refine ⟨m, ?_, hk⟩
          rw [List.lookup_append, lookup_map_key (Loc.rebase s t) (Loc.rebase t s),
            lookup_filter_key (fun k => decide (s ≤ k))]
          · simp [Loc.rebase_rebase hsp, hsp, hm]
          · rw [Loc.rebase_rebase hsp]
          · intro e' he'
            exact Loc.rebase_rebase (by simpa using (List.mem_filter.mp he').2)
    · obtain ⟨he, hle⟩ := List.mem_filter.mp he
      have hle' : ¬ s ≤ e.1 := by simpa using hle
      exact ⟨(d.closed e he).1,
        keep _ (fun hsp => hle' (le_trans hsp (Loc.parent_le _))) (d.closed e he).2⟩
  unique := by
    rw [List.map_append, List.map_map, List.nodup_append]
    refine ⟨?_, d.unique.sublist (List.filter_sublist.map _), ?_⟩
    · -- moving is undone by moving back, so it merges no two entries
      have hfil : ((d.entries.filter fun e => decide (s ≤ e.1)).map (·.1)).Nodup :=
        d.unique.sublist (List.filter_sublist.map _)
      rw [List.Nodup, List.pairwise_map] at hfil ⊢
      refine hfil.imp_of_mem ?_
      intro a b ha hb hne heq
      have ha' : s ≤ a.1 := by simpa using (List.mem_filter.mp ha).2
      have hb' : s ≤ b.1 := by simpa using (List.mem_filter.mp hb).2
      refine hne ?_
      have := congrArg (Loc.rebase t s) heq
      simpa [Loc.rebase_rebase ha', Loc.rebase_rebase hb'] using this
    · -- nothing stood below the free place `t`
      intro k hk k' hk' heq
      subst heq
      obtain ⟨e, _, rfl⟩ := List.mem_map.mp hk
      obtain ⟨e', he', heq'⟩ := List.mem_map.mp hk'
      have hmem := (List.mem_filter.mp he').1
      have hnone := none_of_le h.2.2.1 (Loc.le_rebase s t e.1)
      have hp := (d.closed e' hmem).1
      refine lookup_ne_none hmem ?_
      have hkey : e'.1 = Loc.rebase s t e.1 := heq'
      rw [hkey] at hp ⊢
      simpa [kindAt, get, hp] using hnone

theorem get_move (d : Disk ρ ν) (s t : Loc ρ ν)
    (h : s.path ≠ [] ∧ ¬ s ≤ t ∧ d.kindAt t = none ∧ d.kindAt t.parent = some .dir)
    (k : Loc ρ ν) :
    (d.move s t h).get k =
      if t ≤ k then d.get (Loc.rebase t s k) else if s ≤ k then none else d.get k := by
  obtain ⟨hs, hst, ht, htp⟩ := h
  have htpath : t.path ≠ [] := by
    intro hp
    simp [kindAt_root d hp] at ht
  by_cases hk : k.path = []
  · have h1 : ¬ t ≤ k := fun h => htpath (List.prefix_nil.mp (hk ▸ h.2))
    have h2 : ¬ s ≤ k := fun h => hs (List.prefix_nil.mp (hk ▸ h.2))
    simp [get, hk, h1, h2]
  · have hsecond : (d.entries.filter fun e => !decide (s ≤ e.1)).lookup k
        = if s ≤ k then none else d.entries.lookup k := by
      rw [lookup_filter_key (fun k => !decide (s ≤ k))]
      by_cases hle : s ≤ k <;> simp [hle]
    by_cases htk : t ≤ k
    · have hreb : (Loc.rebase t s k).path ≠ [] := by simp [Loc.rebase, hs]
      have hsreb : s ≤ Loc.rebase t s k := Loc.le_rebase t s k
      have hfree : d.entries.lookup k = none := by
        simpa [kindAt, get, hk] using none_of_le ht htk
      simp only [get, hk, hreb, htk, if_false, if_true, move]
      rw [List.lookup_append, hsecond, lookup_map_key (Loc.rebase s t) (Loc.rebase t s),
        lookup_filter_key (fun k => decide (s ≤ k))]
      · simp [hsreb, hfree]
      · exact Loc.rebase_rebase htk
      · intro e' he'
        exact Loc.rebase_rebase (by simpa using (List.mem_filter.mp he').2)
    · have hnone : ((d.entries.filter fun e => decide (s ≤ e.1)).map
          (fun e => (Loc.rebase s t e.1, e.2))).lookup k = none := by
        rw [List.lookup_eq_none_iff]
        intro p hp
        obtain ⟨e, _, rfl⟩ := List.mem_map.mp hp
        rw [bne_iff_ne]
        rintro rfl
        exact htk (Loc.le_rebase s t e.1)
      simp only [get, hk, htk, if_false, move]
      rw [List.lookup_append, hnone, hsecond]
      simp

/-- Drop whole trees: the roots stay, nothing is left in them. -/
def purge (d : Disk ρ ν) (P : Option ρ → Bool) : Disk ρ ν where
  layout := d.layout
  entries := d.entries.filter fun e => !P e.1.root
  orphans := (d.entries.filter fun e => P e.1.root).map (fun e => (e.1.root, e.2)) ++ d.orphans
  clock := d.clock
  closed := by
    intro e he
    obtain ⟨he, hP⟩ := List.mem_filter.mp he
    refine ⟨(d.closed e he).1, ?_⟩
    have hdir := (d.closed e he).2
    rw [dirIn_iff] at hdir ⊢
    refine hdir.imp_right ?_
    rintro ⟨m, hm, hk⟩
    refine ⟨m, ?_, hk⟩
    rw [lookup_filter_key (fun k : Loc ρ ν => !P k.root) d.entries]
    simp only [Loc.parent_root, hP, if_true, hm]
  unique := d.unique.sublist (List.filter_sublist.map _)

theorem get_purge (d : Disk ρ ν) (P : Option ρ → Bool) (k : Loc ρ ν) :
    (d.purge P).get k = if k.path ≠ [] ∧ P k.root = true then none else d.get k := by
  unfold get
  by_cases hk : k.path = []
  · simp [hk]
  · simp only [hk, if_false, purge, ne_eq, not_false_eq_true, true_and]
    rw [lookup_filter_key (fun k : Loc ρ ν => !P k.root) d.entries]
    cases P k.root <;> simp

/-- No path of an entry is longer. -/
def height (d : Disk ρ ν) : Nat := (d.entries.map fun e => e.1.path.length).foldr max 0

/-- What stands somewhere is the root of a tree or an entry. -/
theorem entry_of_kindAt {d : Disk ρ ν} {l : Loc ρ ν} {k : Kind ν} (h : d.kindAt l = some k) :
    (l.path = [] ∧ k = .dir) ∨ ∃ e ∈ d.entries, e.1 = l ∧ e.2.kind = k := by
  by_cases hp : l.path = []
  · left
    rw [kindAt, get_root d hp] at h
    exact ⟨hp, (Option.some.inj h).symm⟩
  · right
    unfold kindAt get at h
    rw [if_neg hp] at h
    obtain ⟨n, hn, hk⟩ := Option.map_eq_some_iff.mp h
    exact ⟨(l, n), mem_of_lookup hn, rfl, hk⟩

theorem length_le_height {d : Disk ρ ν} {l : Loc ρ ν} (h : d.kindAt l ≠ none) :
    l.path.length ≤ d.height := by
  by_cases hp : l.path = []
  · simp [hp]
  · obtain ⟨n, hn⟩ : ∃ n, d.entries.lookup l = some n := by
      cases hl : d.entries.lookup l with
      | none => simp [kindAt, get, hp, hl] at h
      | some n => exact ⟨n, rfl⟩
    have hmem := mem_of_lookup hn
    have main : ∀ es : List (Loc ρ ν × Node ν), (l, n) ∈ es →
        l.path.length ≤ (es.map fun e => e.1.path.length).foldr max 0 := by
      intro es
      induction es with
      | nil => simp
      | cons e es ih =>
        intro hmem
        simp only [List.map_cons, List.foldr_cons]
        rcases List.mem_cons.mp hmem with rfl | hmem
        · exact Nat.le_max_left _ _
        · exact Nat.le_trans (ih hmem) (Nat.le_max_right _ _)
    exact main d.entries hmem

/-! ## The same, kind by kind -/

theorem kindAt_insert (d : Disk ρ ν) (l : Loc ρ ν) (n : Node ν)
    (h : d.kindAt l = none ∧ d.kindAt l.parent = some .dir) (k : Loc ρ ν) :
    (d.insert l n h).kindAt k = if k = l then some n.kind else d.kindAt k := by
  unfold kindAt
  rw [get_insert]
  split <;> rfl

theorem kindAt_remove (d : Disk ρ ν) (l k : Loc ρ ν) (hl : l.path ≠ []) :
    (d.remove l).kindAt k = if l ≤ k then none else d.kindAt k := by
  unfold kindAt
  rw [get_remove d l k hl]
  split <;> rfl

theorem kindAt_move (d : Disk ρ ν) (s t : Loc ρ ν)
    (h : s.path ≠ [] ∧ ¬ s ≤ t ∧ d.kindAt t = none ∧ d.kindAt t.parent = some .dir)
    (k : Loc ρ ν) :
    (d.move s t h).kindAt k =
      if t ≤ k then d.kindAt (Loc.rebase t s k) else if s ≤ k then none else d.kindAt k := by
  unfold kindAt
  rw [get_move]
  split
  · rfl
  · split <;> rfl

end Disk

end BranchFs.Posix
