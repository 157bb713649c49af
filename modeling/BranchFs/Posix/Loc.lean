/-
# BranchFs.Posix.Loc -- where an entry lives: a rooted path

A location is a root together with the list of names below it. `root = some r` is a tree the
program holds by name (a directory it opened once and joins names to); `root = none` is the rest of
the host. Locations are ordered by "is, or lies above": `a ≤ l` when `a` is `l` or one of the
directories on the way to `l`. Nothing here knows what a root or a name is.
-/
import Mathlib.Order.Basic
import Mathlib.Data.List.Infix

namespace BranchFs.Posix

/-- A rooted path. -/
structure Loc (ρ ν : Type) where
  root : Option ρ
  path : List ν
  deriving DecidableEq, Repr

namespace Loc

variable {ρ ν : Type}

/-- `PathBuf::join` with one more component. -/
def child (l : Loc ρ ν) (n : ν) : Loc ρ ν := ⟨l.root, l.path ++ [n]⟩

/-- `Path::parent`; the root is its own parent. -/
def parent (l : Loc ρ ν) : Loc ρ ν := ⟨l.root, l.path.dropLast⟩

/-- `PathBuf::join` with a relative path. -/
def join (l : Loc ρ ν) (p : List ν) : Loc ρ ν := ⟨l.root, l.path ++ p⟩

/-- The place `k` moves to when the subtree at `s` is moved to `t`. -/
def rebase (s t k : Loc ρ ν) : Loc ρ ν := ⟨t.root, t.path ++ k.path.drop s.path.length⟩

@[simp] theorem child_root (l : Loc ρ ν) (n : ν) : (l.child n).root = l.root := rfl
@[simp] theorem child_path (l : Loc ρ ν) (n : ν) : (l.child n).path = l.path ++ [n] := rfl
@[simp] theorem parent_root (l : Loc ρ ν) : l.parent.root = l.root := rfl
@[simp] theorem parent_path (l : Loc ρ ν) : l.parent.path = l.path.dropLast := rfl
@[simp] theorem join_root (l : Loc ρ ν) (p : List ν) : (l.join p).root = l.root := rfl
@[simp] theorem join_path (l : Loc ρ ν) (p : List ν) : (l.join p).path = l.path ++ p := rfl
@[simp] theorem rebase_root (s t k : Loc ρ ν) : (rebase s t k).root = t.root := rfl

@[ext] theorem ext' {l m : Loc ρ ν} (hr : l.root = m.root) (hp : l.path = m.path) : l = m := by
  cases l
  cases m
  simp_all

@[simp] theorem parent_child (l : Loc ρ ν) (n : ν) : (l.child n).parent = l := by
  ext1 <;> simp

theorem child_parent {l : Loc ρ ν} (h : l.path ≠ []) : l.parent.child (l.path.getLast h) = l := by
  ext1
  · rfl
  · simp [List.dropLast_append_getLast]

/-! ## The order -/

/-- `a ≤ l`: `a` is `l` or an ancestor directory of `l`. -/
instance : PartialOrder (Loc ρ ν) where
  le a l := a.root = l.root ∧ a.path <+: l.path
  le_refl a := ⟨rfl, List.prefix_refl _⟩
  le_trans a b c hab hbc := ⟨hab.1.trans hbc.1, hab.2.trans hbc.2⟩
  le_antisymm a b hab hba :=
    ext' hab.1 (hab.2.eq_of_length (Nat.le_antisymm hab.2.length_le hba.2.length_le))

theorem le_def {a l : Loc ρ ν} : a ≤ l ↔ a.root = l.root ∧ a.path <+: l.path := Iff.rfl

instance [DecidableEq ρ] [DecidableEq ν] (a l : Loc ρ ν) : Decidable (a ≤ l) :=
  inferInstanceAs (Decidable (a.root = l.root ∧ a.path <+: l.path))

@[simp] theorem mk_le_mk {r s : Option ρ} {p q : List ν} :
    (⟨r, p⟩ : Loc ρ ν) ≤ ⟨s, q⟩ ↔ r = s ∧ p <+: q := Iff.rfl

theorem root_eq_of_le {a l : Loc ρ ν} (h : a ≤ l) : a.root = l.root := h.1

theorem parent_le (l : Loc ρ ν) : l.parent ≤ l := ⟨rfl, List.dropLast_prefix _⟩

theorem le_join (l : Loc ρ ν) (p : List ν) : l ≤ l.join p := ⟨rfl, List.prefix_append _ _⟩

/-- What lies properly above `l` lies above the directory of `l`. -/
theorem le_parent_of_lt {a l : Loc ρ ν} (h : a ≤ l) (hne : a ≠ l) : a ≤ l.parent := by
  refine ⟨h.1, ?_⟩
  have hlen : a.path.length < l.path.length := by
    rcases Nat.lt_or_eq_of_le h.2.length_le with hlt | heq
    · exact hlt
    · exact absurd (ext' h.1 (h.2.eq_of_length heq)) hne
  have hdrop : l.parent.path <+: l.path := List.dropLast_prefix _
  exact List.prefix_of_prefix_length_le h.2 hdrop (by simp; omega)

theorem parent_ne {l : Loc ρ ν} (h : l.path ≠ []) : l.parent ≠ l := by
  intro heq
  have hlen := congrArg (fun k : Loc ρ ν => k.path.length) heq
  have hpos := List.length_pos_iff.mpr h
  simp only [parent_path, List.length_dropLast] at hlen
  omega

theorem le_child_iff {a l : Loc ρ ν} {n : ν} : a ≤ l.child n ↔ a ≤ l ∨ a = l.child n := by
  constructor
  · intro h
    by_cases heq : a = l.child n
    · exact Or.inr heq
    · left
      simpa using le_parent_of_lt h heq
  · rintro (h | rfl)
    · exact le_trans h (by simpa using parent_le (l.child n))
    · exact le_refl _

/-- Two locations above one location are comparable. -/
theorem le_total_of_le {a b l : Loc ρ ν} (ha : a ≤ l) (hb : b ≤ l) : a ≤ b ∨ b ≤ a := by
  rcases Nat.le_total a.path.length b.path.length with h | h
  · exact Or.inl ⟨ha.1.trans hb.1.symm, List.prefix_of_prefix_length_le ha.2 hb.2 h⟩
  · exact Or.inr ⟨hb.1.trans ha.1.symm, List.prefix_of_prefix_length_le hb.2 ha.2 h⟩

/-- The directories on the way to `l`, the root first. -/
def above (l : Loc ρ ν) : List (Loc ρ ν) :=
  (List.range l.path.length).map fun i => ⟨l.root, l.path.take i⟩

theorem mem_above {a l : Loc ρ ν} : a ∈ l.above ↔ a ≤ l ∧ a ≠ l := by
  simp only [above, List.mem_map, List.mem_range]
  constructor
  · rintro ⟨i, hi, rfl⟩
    refine ⟨⟨rfl, List.take_prefix i l.path⟩, ?_⟩
    intro heq
    have hlen := congrArg (fun k : Loc ρ ν => k.path.length) heq
    simp at hlen
    omega
  · rintro ⟨hle, hne⟩
    have htake : a = ⟨l.root, l.path.take a.path.length⟩ :=
      ext' hle.1 (List.prefix_iff_eq_take.mp hle.2)
    refine ⟨a.path.length, ?_, htake.symm⟩
    rcases Nat.lt_or_eq_of_le hle.2.length_le with hlt | heq
    · exact hlt
    · exact absurd (ext' hle.1 (hle.2.eq_of_length heq)) hne

/-! ## Moving a subtree -/

@[simp] theorem rebase_self (s t : Loc ρ ν) : rebase s t s = t := by
  ext1 <;> simp [rebase]

theorem le_rebase (s t k : Loc ρ ν) : t ≤ rebase s t k := ⟨rfl, List.prefix_append _ _⟩

/-- Moving back undoes a move. -/
theorem rebase_rebase {s t k : Loc ρ ν} (h : s ≤ k) : rebase t s (rebase s t k) = k := by
  obtain ⟨hr, q, hq⟩ := h
  ext1
  · simpa [rebase] using hr
  · simp [rebase, ← hq]

theorem rebase_mono {s t a k : Loc ρ ν} (hs : s ≤ a) (h : a ≤ k) :
    rebase s t a ≤ rebase s t k := by
  obtain ⟨_, q, hq⟩ := hs
  obtain ⟨_, q', hq'⟩ := h
  refine ⟨rfl, ?_⟩
  simp only [rebase, ← hq', ← hq]
  simp

theorem parent_rebase {s t k : Loc ρ ν} (h : s ≤ k) (hne : s ≠ k) :
    (rebase s t k).parent = rebase s t k.parent := by
  obtain ⟨hr, q, hq⟩ := h
  have hq0 : q ≠ [] := by
    rintro rfl
    exact hne (ext' hr (by simpa using hq))
  ext1
  · rfl
  · simp [rebase, ← hq, List.dropLast_append_of_ne_nil hq0]

end Loc

end BranchFs.Posix
