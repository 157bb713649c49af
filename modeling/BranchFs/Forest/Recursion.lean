/-
# BranchFs.Forest.Recursion -- resolution as it recurses

`resolve_path_locked` and `collect_dir_names_locked` call themselves through their `inherited_*`
halves, on the parent's name, with nothing that bounds the calls: over an arbitrary map they may not
find a branch, or not return. Here they are written over such a map, with the number of calls they
may still make, and over a map rooted at `main` they return for every branch that is there. What
they return is what the manager's `resolved` and `collected` compute.
-/
import BranchFs.Logic.Rooted
import BranchFs.Model.Manager

namespace BranchFs

open BranchFs.Posix BranchFs.Logic

/-- `branches`: a map by name, whatever it holds. -/
abbrev BranchMap := String → Option Branch

/-- The outcome of a recursion that may make so many calls; `none` when they did not suffice. -/
abbrev Calls (α : Type) := Option (Except BranchError α)

/-! ## The source's recursions -/

/-- `inherited_resolve_path_locked`; `ask` is `resolve_path_locked`. -/
def inheritedResolvePathLocked (d : Tree) (ask : String → Calls (Option Place)) (b : Branch)
    (p : RelPath) : Calls (Option Place) :=
  match b.parent, b.inheritance with
  | none, _ => some (.ok (if d.lexists (basePath p) then some (basePath p) else none))
  | some parent, .lazy => ask parent
  | some _, .snapshot =>
    some (.ok (if d.lexists (inheritedPath b.name p) then some (inheritedPath b.name p) else none))

/-- `resolve_path_locked`. -/
def resolvePathLocked (d : Tree) (branches : BranchMap) (p : RelPath) :
    (calls : Nat) → String → Calls (Option Place)
  | 0, _ => none
  | calls + 1, name =>
    match branches name with
    | none => some (.error (.notFound name))
    | some b =>
      if hasDelta d b.name p then some (.ok (some (deltaPath b.name p)))
      else if b.isDeleted p then some (.ok none)
      else if b.isHidden p then some (.ok none)
      else inheritedResolvePathLocked d (resolvePathLocked d branches p calls) b p

/-- `inherited_dir_names_locked`; `ask` is `collect_dir_names_locked`. -/
def inheritedDirNamesLocked (d : Tree) (ask : String → Calls (List String)) (b : Branch)
    (p : RelPath) : Calls (List String) :=
  match b.parent, b.inheritance with
  | none, _ => some (.ok (Manager.readDirNames d (basePath p)))
  | some parent, .lazy => ask parent
  | some _, .snapshot => some (.ok (Manager.readDirNames d (inheritedPath b.name p)))

/-- The loop of `collect_dir_names_locked` over the inherited names. -/
def mergeDirNames (d : Tree) (b : Branch) (p : RelPath) (inherited : List String) : List String :=
  Manager.readDirNames d (deltaPath b.name p) ∪
    inherited.filter fun n => !(b.isHidden (p ++ [n]) || b.isDeleted (p ++ [n]))

/-- `collect_dir_names_locked`. -/
def collectDirNamesLocked (d : Tree) (branches : BranchMap) (p : RelPath) :
    (calls : Nat) → String → Calls (List String)
  | 0, _ => none
  | calls + 1, name =>
    match branches name with
    | none => some (.error (.notFound name))
    | some b =>
      (inheritedDirNamesLocked d (collectDirNamesLocked d branches p calls) b p).map fun
        | .ok inherited => .ok (mergeDirNames d b p inherited)
        | .error e => .error e

/-! ## They return -/

/-- The recursion from `name` returns `a` once it may make enough calls. -/
def Returns {α : Type} (f : Nat → String → Calls α) (name : String) (a : α) : Prop :=
  ∃ enough, ∀ calls, enough ≤ calls → f calls name = some (.ok a)

section

variable {α : Type} {f : Nat → String → Calls α} {name parent : String} {a : α}

/-- A recursion that answers with one call more than its parent's takes. -/
theorem Returns.succ {b : α} (h : Returns f parent b)
    (hstep : ∀ calls, f calls parent = some (.ok b) → f (calls + 1) name = some (.ok a)) :
    Returns f name a := by
  obtain ⟨enough, hen⟩ := h
  refine ⟨enough + 1, fun calls hcalls => ?_⟩
  obtain ⟨n, rfl⟩ : ∃ n, calls = n + 1 := ⟨calls - 1, by omega⟩
  exact hstep n (hen n (by omega))

theorem Returns.now (h : ∀ calls, f (calls + 1) name = some (.ok a)) : Returns f name a := by
  refine ⟨1, fun calls hcalls => ?_⟩
  obtain ⟨n, rfl⟩ : ∃ n, calls = n + 1 := ⟨calls - 1, by omega⟩
  exact h n

end

section

variable {d : Tree} {branches : BranchMap} {name parent : String} {b : Branch} {p : RelPath}

theorem inheritedResolvePathLocked_eq {ask : String → Calls (Option Place)} {up : Option Place}
    (hup : ∀ q, b.parent = some q → ask q = some (.ok up)) :
    inheritedResolvePathLocked d ask b p = some (.ok (inheritedStep d b p up)) := by
  unfold inheritedResolvePathLocked inheritedStep
  cases hq : b.parent with
  | none => rfl
  | some q =>
    cases b.inheritance with
    | lazy => exact hup q hq
    | snapshot => rfl

theorem inheritedDirNamesLocked_eq {ask : String → Calls (List String)} {up : List String}
    (hup : ∀ q, b.parent = some q → ask q = some (.ok up)) :
    inheritedDirNamesLocked d ask b p = some (.ok (Manager.inheritedNamesStep d b p up)) := by
  unfold inheritedDirNamesLocked Manager.inheritedNamesStep
  cases hq : b.parent with
  | none => rfl
  | some q =>
    cases b.inheritance with
    | lazy => exact hup q hq
    | snapshot => rfl

theorem resolvePathLocked_succ (hb : branches name = some b) {calls : Nat} {up : Option Place}
    (hup : ∀ q, b.parent = some q → resolvePathLocked d branches p calls q = some (.ok up)) :
    resolvePathLocked d branches p (calls + 1) name = some (.ok (resolveStep d b p up)) := by
  rw [resolvePathLocked, hb]
  dsimp only
  rw [inheritedResolvePathLocked_eq hup, resolveStep]
  repeat' split
  all_goals rfl

theorem collectDirNamesLocked_succ (hb : branches name = some b) {calls : Nat} {up : List String}
    (hup : ∀ q, b.parent = some q → collectDirNamesLocked d branches p calls q = some (.ok up)) :
    collectDirNamesLocked d branches p (calls + 1) name =
      some (.ok (Manager.collectStep d b p up)) := by
  rw [collectDirNamesLocked, hb]
  dsimp only
  rw [inheritedDirNamesLocked_eq hup]
  rfl

/-- The recursion at a branch without a parent. -/
theorem returns_resolve_root (hb : branches name = some b) (hup : b.parent = none) :
    Returns (resolvePathLocked d branches p) name (resolveStep d b p none) :=
  .now fun _ => resolvePathLocked_succ hb fun q hq => by simp [hup] at hq

theorem returns_resolve_link (hb : branches name = some b) (hup : b.parent = some parent)
    {up : Option Place} (h : Returns (resolvePathLocked d branches p) parent up) :
    Returns (resolvePathLocked d branches p) name (resolveStep d b p up) :=
  h.succ fun calls hcalls => resolvePathLocked_succ hb fun q hq => by
    rw [hup] at hq
    exact Option.some.inj hq ▸ hcalls

theorem returns_collect_root (hb : branches name = some b) (hup : b.parent = none) :
    Returns (collectDirNamesLocked d branches p) name (Manager.collectStep d b p []) :=
  .now fun _ => collectDirNamesLocked_succ hb fun q hq => by simp [hup] at hq

theorem returns_collect_link (hb : branches name = some b) (hup : b.parent = some parent)
    {up : List String} (h : Returns (collectDirNamesLocked d branches p) parent up) :
    Returns (collectDirNamesLocked d branches p) name (Manager.collectStep d b p up) :=
  h.succ fun calls hcalls => collectDirNamesLocked_succ hb fun q hq => by
    rw [hup] at hq
    exact Option.some.inj hq ▸ hcalls

/-- **Over a rooted map both recursions return for every branch**, and find every branch they ask
for on the way. -/
theorem returns_of_rooted (h : Rooted Branch.parent branches "main") (hname : branches name ≠ none) :
    (∃ l, Returns (resolvePathLocked d branches p) name l) ∧
      ∃ ns, Returns (collectDirNamesLocked d branches p) name ns := by
  refine h.rec_up (P := fun name => (∃ l, Returns (resolvePathLocked d branches p) name l) ∧
    ∃ ns, Returns (collectDirNamesLocked d branches p) name ns) ?_ ?_ hname
  · intro b hb hup
    exact ⟨⟨_, returns_resolve_root hb hup⟩, ⟨_, returns_collect_root hb hup⟩⟩
  · rintro name b parent hb hup ⟨⟨l, hl⟩, ⟨ns, hns⟩⟩
    exact ⟨⟨_, returns_resolve_link hb hup hl⟩, ⟨_, returns_collect_link hb hup hns⟩⟩

end

/-! ## The manager's map -/

/-- The map of a manager is rooted at `main`. -/
theorem Forest.rooted (F : Forest) : Rooted Branch.parent F.get? "main" :=
  F.grown.rooted fun b hb => (F.main b hb).symm

/-- Every finite map rooted at `main` is that of a manager. -/
theorem Forest.exists_of_rooted {branches : List Branch}
    (hnames : (branches.map Branch.name).Nodup)
    (h : Rooted Branch.parent (lookupKey Branch.name branches) "main") :
    ∃ F : Forest, F.get? = lookupKey Branch.name branches := by
  obtain ⟨list, hperm, hgrown⟩ := h.exists_grown hnames
  refine ⟨⟨list, hgrown, ?_⟩, funext fun k => lookupKey_perm hnames hperm k⟩
  intro b hb
  have hfind := lookupKey_of_mem hnames (hperm.mem_iff.mp hb)
  constructor
  · intro hmain
    obtain ⟨r, hr, hup⟩ := h.top
    rw [hmain, hr] at hfind
    cases hfind
    exact hup
  · intro hup
    by_contra hne
    obtain ⟨q, hq, -⟩ := h.parent _ _ hfind hne
    rw [hup] at hq
    cases hq

namespace Manager

variable {m : Manager} {name : String}

/-- **What the recursions return is what the manager computes.** -/
theorem returns_resolved (h : m.forest.get? name ≠ none) (p : RelPath) :
    Returns (resolvePathLocked m.disk m.forest.get? p) name (m.resolved name p) := by
  refine m.forest.rooted.rec_up (P := fun name =>
    Returns (resolvePathLocked m.disk m.forest.get? p) name (m.resolved name p)) ?_ ?_ h
  · intro b hb hup
    unfold resolved
    rw [climb_root m.forest.grown hb hup]
    exact returns_resolve_root hb hup
  · intro name b parent hb hup ih
    unfold resolved at ih ⊢
    rw [climb_above m.forest.grown hb hup]
    exact returns_resolve_link hb hup ih

theorem returns_collected (h : m.forest.get? name ≠ none) (p : RelPath) :
    Returns (collectDirNamesLocked m.disk m.forest.get? p) name (m.collected name p) := by
  refine m.forest.rooted.rec_up (P := fun name =>
    Returns (collectDirNamesLocked m.disk m.forest.get? p) name (m.collected name p)) ?_ ?_ h
  · intro b hb hup
    unfold collected
    rw [climb_root m.forest.grown hb hup]
    exact returns_collect_root hb hup
  · intro name b parent hb hup ih
    unfold collected at ih ⊢
    rw [climb_above m.forest.grown hb hup]
    exact returns_collect_link hb hup ih

end Manager

end BranchFs
