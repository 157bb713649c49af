/-
# BranchFs.Merge.Dirs -- the directories of a session

A commit stages files and links. Directories of the session come into the parent as the way to a file
below them, and the empty ones do not come at all. What the parent shows as a directory afterwards is
said here for every directory the branch shows, whether or not there is anything in it.
-/
import BranchFs.Merge.Success

namespace BranchFs

open BranchFs.Posix BranchFs.Logic

/-! ## What is a directory after the commit -/

/-- A delta file or link of the branch stands at the path or below. -/
def FileBelow (m : Manager) (name : String) (a : RelPath) : Prop :=
  ∃ f, Leaf .dir (deltaKind m.disk name) f ∧ a <+: f

/-- The parent shows a directory that the branch has not deleted. For a parent other than `main`, where
the commit prunes it from the parent's delta, the directory is shown without that delta as well. -/
def DirStays (m : Manager) (name : String) (b parent : Branch) (a : RelPath) : Prop :=
  ¬ Covers (· ∈ b.tombstones) a ∧ m.flat parent.name a = some .dir ∧
    (parent.name ≠ "main" → EmptiedDir m name b parent a →
      ¬ Covers (Whiteout parent) a ∧ m.flatInherited parent a = some .dir)

/-- A directory is made for a file below. In the base directory it is seen when no tombstone of `main`
covers it, and `main` showed nothing there but what the branch has deleted. -/
def DirMade (m : Manager) (name : String) (b parent : Branch) (a : RelPath) : Prop :=
  FileBelow m name a ∧ (parent.name = "main" → ¬ Covers (Whiteout parent) a ∧
    (Covers (· ∈ b.tombstones) a ∨ m.flat parent.name a = none))

/-- At the path and above it a directory stays or is made. -/
def DirArrives (m : Manager) (name : String) (b parent : Branch) (p : RelPath) : Prop :=
  ∀ a, a <+: p → DirStays m name b parent a ∨ DirMade m name b parent a

section

variable {m m' : Manager} {name : String} {b parent : Branch} {order : HashOrder} {o : CommitOutcome}

/-- Where a branch shows a directory its delta has no file. -/
theorem not_leaf_of_kindOf_dir (hb : m.forest.get? name = some b) {a : RelPath}
    (h : m.kindOf name a = some .dir) : ¬ Leaf .dir (deltaKind m.disk name) a := by
  rintro ⟨k, hk, hkd⟩
  have hdir : m.disk.kindAt (deltaPath name a).parent = some .dir :=
    Disk.dir_parent (by unfold deltaKind at hk; rw [hk]; simp)
  have hl : m.disk.lkind (deltaPath name a) = some k :=
    (Disk.lkind_eq rfl (Disk.noLinkAbove_of_dir hdir)).trans hk
  have hdelta : hasDelta m.disk name a = true := Disk.lexists_iff_lkind.mpr (by rw [hl]; simp)
  rw [Manager.kindOf_eq hb, if_pos hdelta, hl] at h
  exact hkd (Option.some.inj h)

/-- Nor above it. -/
theorem no_leaf_above_of_view_dir (hb : m.forest.get? name = some b) {p a : RelPath}
    (h : m.view name p = some .dir) (ha : a <+: p) :
    ¬ ∃ f, Leaf .dir (deltaKind m.disk name) f ∧ f <+: a := by
  rintro ⟨f, hf, hfa⟩
  exact not_leaf_of_kindOf_dir hb (Manager.kindOf_of_view_dir h f (hfa.trans ha)) hf

/-- A walk ends at a directory when it only met directories. -/
theorem shown_eq_dir {K : RelPath → Option Entry} {p : RelPath} :
    shown .dir K p = some .dir ↔ ∀ a, a <+: p → K a = some .dir := by
  rw [shown_eq_some]
  constructor
  · rintro ⟨hway, hself⟩ a ha
    by_cases heq : a = p
    · rw [heq]
      exact hself
    · exact hway a ha heq
  · exact fun h => ⟨fun a ha _ => h a ha, h p List.prefix_rfl⟩

/-- **Which directories arrive.** Where the branch shows a directory, the parent shows one after the
commit exactly when at that path and above it one stays or is made. -/
theorem view_dir_after_iff (h : Session m name b parent)
    (hok : commitWithReport order name m = .ok o m') {p : RelPath}
    (hview : m.view name p = some .dir) :
    m'.view parent.name p = some .dir ↔ DirArrives m name b parent p := by
  by_cases hmain : parent.name = "main"
  · rcases h.commit_main hmain order with ⟨hgo, o', m'', K, hrun, hc, hi⟩ | ⟨_, e, m'', herror⟩
    swap
    · rw [hok] at herror
      cases herror
    rw [hok] at hrun
    cases hrun
    rw [hmain, h.view_main_after hmain hc hi, shown_eq_dir]
    refine forall₂_congr fun a ha => ?_
    have hup : ¬ ∃ f, Leaf .dir K f ∧ f <+: a := fun ⟨f, hf, hfa⟩ =>
      no_leaf_above_of_view_dir h.branch hview ha ⟨f, (hc.leaf f).mp hf, hfa⟩
    rw [dir_after_base_iff hi.delta (h.unblocked hmain hc hgo) hup, ← h.flat_main hmain]
    simp only [DirStays, DirMade, FileBelow, hc.leaf, hmain, ne_eq, not_true_eq_false, false_implies,
      and_true, true_implies]
  · rcases h.commit_nested hmain order with ⟨hgo, o', m'', K, hrun, hc, hi⟩ | ⟨_, e, m'', herror⟩
    swap
    · rw [hok] at herror
      cases herror
    rw [hok] at hrun
    cases hrun
    rw [h.view_parent_after hc hi, shown_eq_dir]
    refine forall₂_congr fun a ha => ?_
    have hup : ¬ ∃ f, Leaf .dir K f ∧ f <+: a := fun ⟨f, hf, hfa⟩ =>
      no_leaf_above_of_view_dir h.branch hview ha ⟨f, (hc.leaf f).mp hf, hfa⟩
    rw [dir_after_nested_iff hc.pruned h.sealed hup, ← h.flat_parent, or_comm]
    simp only [DirStays, DirMade, FileBelow, hc.leaf, hmain, ne_eq, not_false_eq_true, true_implies,
      false_implies, and_true]

/-- The directories of `made` that the branch shows when its commit starts are directories of the
parent after it. -/
def KeepsDirs (m : Manager) (name parent : String) (made : RelPath → Prop) (order : HashOrder) : Prop :=
  ∀ o m', commitWithReport order name m = .ok o m' →
    ∀ p, made p → m.view name p = some .dir → m'.view parent p = some .dir

/-- **When a commit keeps the directories that were made**: exactly when each of them that is still
shown stays or is made in the parent, along its whole way. -/
theorem keeps_dirs_iff (h : Session m name b parent) (made : RelPath → Prop) (order : HashOrder) :
    KeepsDirs m name parent.name made order ↔
      (Commits m name b (destination parent.name) order →
        ∀ p, made p → m.view name p = some .dir → DirArrives m name b parent p) := by
  constructor
  · intro hkeeps hgo p hmade hview
    obtain ⟨o, m', hok⟩ := (commit_ok_iff h order).mpr hgo
    exact (view_dir_after_iff h hok hview).mp (hkeeps o m' hok p hmade hview)
  · intro harrive o m' hok p hmade hview
    have hgo := (commit_ok_iff h order).mp ⟨o, m', hok⟩
    exact (view_dir_after_iff h hok hview).mpr (harrive hgo p hmade hview)

end

/-! ## The directories a session has made -/

/-- The file operation is answered without an error. -/
def FileOp.succeeds (branch : String) (op : FileOp) (m : Manager) : Bool :=
  match (do denyUnlessWritable branch; op.run branch) m with
  | .ok _ _ => true
  | .error _ _ => false

/-- Where a path below `source` is after a rename to `target`. -/
def renamed (source target p : RelPath) : RelPath :=
  if source <+: p then target ++ p.drop source.length else p

/-- The directories made in `name`, one step on. A new branch of the name starts without. -/
def madeStep (name : String) (m : Manager) (made : List RelPath) : Op → List RelPath
  | .create n _ _ _ => if n = name ∧ m.isBranchValid name = false then [] else made
  | .file branch (.mkdir dir n mode) =>
    if branch = name ∧ FileOp.succeeds branch (.mkdir dir n mode) m = true then (dir ++ [n]) :: made
    else made
  | .file branch (.rename dir n newDir newName noReplace) =>
    if branch = name ∧ FileOp.succeeds branch (.rename dir n newDir newName noReplace) m = true then
      made ++ made.map (renamed (dir ++ [n]) (newDir ++ [newName]))
    else made
  | _ => made

/-- The directories made in `name` in a run, at the paths where they were made or renamed to. -/
def madeDirs (name : String) : Manager → List RelPath → List Op → List RelPath
  | _, made, [] => made
  | m, made, op :: ops => madeDirs name (step m op) (madeStep name m made op) ops

/-- Every commit keeps the directories that its session has made. -/
def CommitsKeepDirs : Prop :=
  ∀ (store : FreshStore) ops name b parent, let m := run step (Manager.init store) ops
    m.forest.get? name = some b → m.forest.isLeaf name = true → b.parent = some parent →
      ∀ order, KeepsDirs m name parent (· ∈ madeDirs name (Manager.init store) [] ops) order

/-- The steps of a session that makes the directories `d` and `e`, and a file in `e`. -/
def twoDirsOps : List Op :=
  [.create "b" "main" .lazy [], .file "b" (.mkdir [] "d" 0o755), .file "b" (.mkdir [] "e" 0o755),
    .file "b" (.create ["e"] "f" 0o644)]

def twoDirs : Manager := run step (Manager.init .bare) twoDirsOps

/-- Both directories are shown before the commit, and only the one with the file after it. -/
theorem twoDirs_run :
    PlainSession twoDirs "b" (twoDirs.recordOf "b") (twoDirs.recordOf "main") ∧
      (twoDirs.recordOf "main").name = "main" ∧
      madeDirs "b" (Manager.init .bare) [] twoDirsOps = [["e"], ["d"]] ∧
      (outcomeOf twoDirs "b").map CommitOutcome.autoMerges = some [] ∧
      twoDirs.view "b" ["d"] = some .dir ∧ twoDirs.view "b" ["e"] = some .dir ∧
      (after (commitWithReport .listed "b") twoDirs).view "main" ["d"] = none ∧
      (after (commitWithReport .listed "b") twoDirs).view "main" ["e"] = some .dir := by
  decide +kernel

/-- The empty directory is lost. -/
theorem not_commitsKeepDirs : ¬ CommitsKeepDirs := by
  intro h
  obtain ⟨hplain, hname, hmade, houtcome, hbefore, -, hafter, -⟩ := twoDirs_run
  have hs := hplain.session
  obtain ⟨o, hok, -⟩ := ok_of_outcome twoDirs "b" houtcome
  have hkept := h .bare twoDirsOps "b" _ "main" hs.branch hs.leaf (hname ▸ hs.up) .listed o _ hok
    ["d"] (by rw [hmade]; decide) hbefore
  rw [hafter] at hkept
  cases hkept

/-- The directory with the file arrives. -/
theorem twoDirs_keeps_e : KeepsDirs twoDirs "b" "main" (· = ["e"]) .listed := by
  obtain ⟨hplain, hname, -, houtcome, -, hbefore, -, hafter⟩ := twoDirs_run
  have hs := hplain.session
  obtain ⟨o, hok, -⟩ := ok_of_outcome twoDirs "b" houtcome
  have harrive := (view_dir_after_iff hs hok hbefore).mp (by rw [hname]; exact hafter)
  have hkeeps := (keeps_dirs_iff hs (· = ["e"]) .listed).mpr fun _ p hp _ => hp ▸ harrive
  rwa [hname] at hkeeps

end BranchFs
