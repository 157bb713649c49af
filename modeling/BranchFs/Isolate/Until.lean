/-
# BranchFs.Isolate.Until -- branches are isolated until a commit

Whatever is done to a branch through its mounts, the base directory and the other branches keep
their trees and records, as long as no handler meets a link it follows. Two handlers do meet one on
ordinary use: a change of attributes and an open for writing follow the link that copy-on-write has
just brought into the delta.
-/
import BranchFs.Isolate.Handlers
import BranchFs.Model.Reads

namespace BranchFs

open BranchFs.Posix BranchFs.Logic

/-! ## When a handler stays in its branch -/

namespace Manager

/-- No link stands in the branch's private directories. -/
def ClearPrivate (m : Manager) (name : String) : Prop :=
  ∀ l ∈ privatePlaces name, m.disk.linkAt l = false

/-- No link stands on the way to the delta path. -/
def ClearWay (m : Manager) (name : String) (p : RelPath) : Prop :=
  m.disk.NoLinkAbove (deltaPath name p)

/-- No link stands at the delta path, on the way to it, or where copy-on-write would take it
from. -/
structure Plainly (m : Manager) (name : String) (p : RelPath) : Prop where
  way : m.ClearWay name p
  here : m.disk.linkAt (deltaPath name p) = false
  inherited : m.disk.kindAt (deltaPath name p) = none → ∀ b, m.forest.get? name = some b →
    ∀ src, m.inheritedForTouch b p = some src → ∀ a, a ≤ src → m.disk.linkAt a = false

end Manager

/-- The handler follows no link: those that open the delta path or change its attributes find none,
the others have none on their way. -/
def FileOp.Contained (m : Manager) (name : String) : FileOp → Prop
  | create dir n _ => m.ClearPrivate name ∧ m.Plainly name (dir ++ [n])
  | mkdir dir n _ => m.ClearPrivate name ∧ m.Plainly name (dir ++ [n])
  | symlink dir n _ => m.ClearPrivate name ∧ m.ClearWay name (dir ++ [n])
  | writeByWorker p _ _ => m.ClearPrivate name ∧ m.Plainly name p
  | write p _ _ => m.ClearPrivate name ∧ m.Plainly name p
  | writeCached _ _ _ => True
  | truncate p _ => m.ClearPrivate name ∧ m.Plainly name p
  | setattr p _ => m.ClearPrivate name ∧ m.Plainly name p
  | unlink dir n => m.ClearWay name (dir ++ [n])
  | rmdir dir n => m.ClearWay name (dir ++ [n])
  | rename dir n newDir newName _ =>
    m.ClearPrivate name ∧ m.ClearWay name (dir ++ [n]) ∧ m.ClearWay name (newDir ++ [newName]) ∧
      -- a name above the new one is on the way to it
      (dir ++ [n] <+: newDir ++ [newName] → dir ++ [n] ≠ newDir ++ [newName] →
        m.Plainly name (dir ++ [n]))

/-- The places a state has no link at. -/
def plainPlaces (m : Manager) : Set Place := { l | m.disk.linkAt l = false }

section Contained

variable {m : Manager} {name : String} {p : RelPath}

theorem clear_plainPlaces (m : Manager) : Clear (plainPlaces m) m := fun _ h => h

theorem Manager.ClearWay.wayIn (h : m.ClearWay name p) :
    WayIn (plainPlaces m) (deltaPath name p) := fun _ ha hne => h.not_link ha hne

theorem Manager.Plainly.cowReady (h : m.Plainly name p) :
    CowReady (plainPlaces m) name p m where
  clear := clear_plainPlaces m
  plain := by
    intro _ hfree b hb src hsrc a ha
    refine h.inherited ?_ b hb src hsrc a ha
    have hex := Disk.lexists_eq (d := m.disk) (l := deltaPath name p) rfl h.way
    rw [hfree] at hex
    simpa using hex.symm

/-- The places without a link, the delta path left out: it may become one. -/
def plainBut (m : Manager) (name : String) (p : RelPath) : Set Place :=
  plainPlaces m \ {deltaPath name p}

theorem cowReady_plainBut : CowReady (plainBut m name p) name p m where
  clear := (clear_plainPlaces m).mono Set.sdiff_subset
  plain := fun h => absurd rfl h.2

theorem Manager.ClearWay.wayIn_but (h : m.ClearWay name p) :
    WayIn (plainBut m name p) (deltaPath name p) := fun a ha hne => ⟨h.wayIn a ha hne, hne⟩

theorem Manager.ClearPrivate.subset (h : m.ClearPrivate name) :
    privatePlaces name ⊆ plainPlaces m := fun l hl => h l hl

theorem Manager.ClearPrivate.subset_but (h : m.ClearPrivate name) (p : RelPath) :
    privatePlaces name ⊆ plainBut m name p := by
  intro l hl
  refine ⟨h l hl, ?_⟩
  rintro rfl
  rcases hl with hl | hl <;> simp [deltaPath] at hl

theorem rename_isolated {src dst : RelPath} {noReplace : Bool} (hpriv : m.ClearPrivate name)
    (hsrc : m.ClearWay name src) (hdst : m.ClearWay name dst)
    (hbelow : src <+: dst → src ≠ dst → m.Plainly name src) :
    Isolated name m (after (renamePath name src dst noReplace) m) := by
  -- a name is guarded only where it lies on the way to the other
  let S : Set Place := { l | m.disk.linkAt l = false ∧
    (l = deltaPath name src → src <+: dst ∧ src ≠ dst) ∧
    (l = deltaPath name dst → dst <+: src ∧ dst ≠ src) }
  have hproper : ∀ {q r : RelPath}, deltaPath name q ≤ deltaPath name r →
      deltaPath name q ≠ deltaPath name r → q <+: r ∧ q ≠ r := fun hle hne =>
    ⟨hle.2, fun heq => hne (by rw [heq])⟩
  have hsrcIn : WayIn S (deltaPath name src) := by
    refine fun a ha hne => ⟨hsrc.wayIn a ha hne, fun heq => absurd heq hne, ?_⟩
    rintro rfl
    exact hproper ha hne
  have hdstIn : WayIn S (deltaPath name dst) := by
    refine fun a ha hne => ⟨hdst.wayIn a ha hne, ?_, fun heq => absurd heq hne⟩
    rintro rfl
    exact hproper ha hne
  have hprivIn : privatePlaces name ⊆ S := by
    have hout : ∀ l ∈ privatePlaces name, ∀ q, l ≠ deltaPath name q := by
      rintro l hl q rfl
      rcases hl with hl | hl <;> simp [deltaPath] at hl
    exact fun l hl => ⟨hpriv l hl, fun heq => absurd heq (hout l hl _),
      fun heq => absurd heq (hout l hl _)⟩
  have hready : CowReady S name src m := by
    refine ⟨fun l hl => hl.1, fun hmem hfree b hb inh hinh a ha => ?_⟩
    obtain ⟨hpre, hne⟩ := hmem.2.1 rfl
    refine ⟨(hbelow hpre hne).cowReady.plain (hbelow hpre hne).here hfree b hb inh hinh a ha,
      fun _ => ⟨hpre, hne⟩, ?_⟩
    rintro rfl
    -- what is inherited at the old name does not lie below it
    exfalso
    unfold Manager.inheritedForTouch at hinh
    split at hinh
    · cases hinh
    · obtain ⟨r, -, rfl⟩ := Manager.mem_layers_of_inherited hb hinh
      exact hne (hpre.eq_of_length_le ha.2.length_le)
  refine (framed_renamePath hsrcIn hdstIn hprivIn ?_ noReplace m hready).1
  intro hmem
  obtain ⟨hpre, hne⟩ := hmem.2.2 rfl
  exact ⟨⟨rfl, hpre⟩, fun heq => hne (congrArg Loc.path heq)⟩

/-- **A contained handler is isolated.** -/
theorem FileOp.isolated {op : FileOp} (h : op.Contained m name) :
    Isolated name m (after (op.run name) m) := by
  cases op with
  | create dir n mode =>
    obtain ⟨hpriv, hp⟩ := h
    exact (framed_createFile hp.way.wayIn hpriv.subset hp.here mode m hp.cowReady).1
  | mkdir dir n mode =>
    obtain ⟨hpriv, hp⟩ := h
    exact (framed_makeDir hp.way.wayIn hpriv.subset hp.here mode m hp.cowReady).1
  | symlink dir n target =>
    obtain ⟨hpriv, hway⟩ := h
    exact (framed_makeSymlink hway.wayIn_but (hpriv.subset_but _) target (fun h => h.2 rfl) m
      cowReady_plainBut).1
  | writeByWorker p offset data =>
    obtain ⟨hpriv, hp⟩ := h
    have hwrite := framed_asReq branchErrorErrno
      (framed_writeDataToBranch hp.way.wayIn hpriv.subset hp.here offset data)
    exact (framed_seq hwrite (fun _ => framed_pure (Isolated.refl name) (fun _ h => h) _)
      (fun _ h => h) m hp.cowReady).1
  | write p offset data =>
    obtain ⟨hpriv, hp⟩ := h
    exact (framed_write hp.way.wayIn hpriv.subset hp.here offset data m hp.cowReady).1
  | writeCached id offset data =>
    have hwrite : Framed (Isolated name) (Clear (plainPlaces m)) (Clear (plainPlaces m))
        (writeThrough ⟨some (.files name), id⟩ offset data) :=
      framed_writeThrough (own_files name) offset data
    exact (framed_seq hwrite (fun _ => framed_pure (Isolated.refl name) (fun _ h => h) _)
      (fun _ h => h) m (clear_plainPlaces m)).1
  | truncate p size =>
    obtain ⟨hpriv, hp⟩ := h
    exact (framed_truncatePath hp.way.wayIn hpriv.subset hp.here size m hp.cowReady).1
  | setattr p attr =>
    obtain ⟨hpriv, hp⟩ := h
    exact (framed_setAttrPath hp.way.wayIn hpriv.subset hp.here attr m hp.cowReady).1
  | unlink dir n =>
    exact (framed_asReq _ (framed_deletePathInBranch (Manager.ClearWay.wayIn h)) m
      (clear_plainPlaces m)).1
  | rmdir dir n =>
    exact (framed_asReq _ (framed_rmdirPathInBranch (Manager.ClearWay.wayIn h)) m
      (clear_plainPlaces m)).1
  | rename dir n newDir newName noReplace =>
    obtain ⟨hpriv, hsrc, hdst, hbelow⟩ := h
    exact rename_isolated hpriv hsrc hdst hbelow

end Contained

/-! ## Runs of one branch -/

/-- A change made to the branch `name` through its mounts, or a revert of one of its paths. -/
def Op.AimedAt (name : String) : Op → Prop
  | .file branch _ => branch = name
  | .revert branch _ => branch = name
  | _ => False

/-- The step is aimed at `name`, and meets no link it follows. -/
def Op.ContainedIn (name : String) (m : Manager) (op : Op) : Prop :=
  op.AimedAt name ∧
    match op with
    | .file _ op => op.Contained m name
    | .revert _ p => m.ClearWay name p
    | _ => True

theorem after_denyUnlessWritable (name : String) (m : Manager) :
    after (denyUnlessWritable name) m = m := by
  unfold after denyUnlessWritable
  cases m.isBranchWritable name <;> rfl

/-- **A step aimed at a branch is isolated** where it follows no link. -/
theorem step_isolated {name : String} {m : Manager} {op : Op} (h : op.ContainedIn name m) :
    Isolated name m (step m op) := by
  obtain ⟨haim, hcond⟩ := h
  cases op with
  | file branch op =>
    obtain rfl : branch = name := haim
    have hop : Framed (Isolated branch) (fun s => s = m) (fun _ => True) (op.run branch) := by
      rintro s rfl
      exact ⟨FileOp.isolated hcond, trivial⟩
    exact (framed_look (Isolated.refl branch) (after_denyUnlessWritable branch m)
      (fun _ _ => hop) trivial m rfl).1
  | revert branch p =>
    obtain rfl : branch = name := haim
    exact (framed_revertPathInBranch (Manager.ClearWay.wayIn hcond) m (clear_plainPlaces m)).1
  | create => exact haim.elim
  | commit => exact haim.elim
  | abort => exact haim.elim
  | freeze => exact haim.elim
  | thaw => exact haim.elim
  | host => exact haim.elim

theorem run_isolated {name : String} {m : Manager} {ops : List Op}
    (h : Along step (Op.ContainedIn name) m ops) : Isolated name m (run step m ops) :=
  run_inv (I := Isolated name m) (fun _ _ hs hop => hs.trans (step_isolated hop)) ops m
    (Isolated.refl name m) h

/-- The base directory, and delta and record of every branch but `name`, are the same. -/
structure LeavesOthers (name : String) (m m' : Manager) : Prop where
  base : ∀ p, m'.disk.get (basePath p) = m.disk.get (basePath p)
  delta : ∀ c, c ≠ name → ∀ p, m'.disk.get (deltaPath c p) = m.disk.get (deltaPath c p)
  record : ∀ c, c ≠ name → m'.forest.get? c = m.forest.get? c

section Others

variable {name c : String} {m m' : Manager}

theorem not_own_of_reads (hc : ¬ m.Inherits name c) {r : Root} (hr : m.Reads c r) :
    ¬ Own name (some r) := by
  rintro (h | h | h)
  all_goals
    rw [Option.some.injEq] at h
    subst h
    rcases hr with hr | ⟨a, ha, hr | hr⟩
  all_goals cases hr
  exact hc ha

theorem Isolated.leavesOthers (h : Isolated name m m') : LeavesOthers name m m' where
  base p := h.same (basePath p) (by simp [Own, basePath])
  delta c hc p := h.same (deltaPath c p) (by simp [Own, deltaPath, hc])
  record _ hc := h.forest.get?_ne hc

/-- A branch that does not inherit from the changed one shows what it showed. -/
theorem Isolated.view (h : Isolated name m m') (hc : ¬ m.Inherits name c)
    (hlink : m.NoLinkUnderShown c) : m'.view c = m.view c := by
  refine Manager.view_of_sameReads ?_ ?_ hlink
  · intro a ha
    refine h.forest.get?_ne ?_
    rintro rfl
    exact hc ha
  · exact fun r hr p => h.same.kindAt (not_own_of_reads hc hr)

end Others

/-- Whatever is done to a branch before its commit, the base directory and all other branches keep
what they have, and the branches that do not inherit from it show what they showed. -/
def BranchesAreIsolated : Prop :=
  ∀ m, Reachable m → ∀ name ops, (∀ op ∈ ops, op.AimedAt name) →
    LeavesOthers name m (run step m ops) ∧
      ∀ c, ¬ m.Inherits name c → (run step m ops).view c = m.view c

/-- **Isolation until commit.** In a run aimed at a branch whose steps follow no link, the base
directory and the other branches keep trees and records in every state reached, and what a branch
shows that does not inherit from it stays, where no tree has a link in place of a directory it
shows. -/
theorem isolated_until_commit (name : String) (m : Manager) (ops : List Op)
    (h : Along step (Op.ContainedIn name) m ops) :
    LeavesOthers name m (run step m ops) ∧
      ∀ c, ¬ m.Inherits name c → m.NoLinkUnderShown c → (run step m ops).view c = m.view c :=
  ⟨(run_isolated h).leavesOthers, fun _ hc hlink => (run_isolated h).view hc hlink⟩

/-! ## Runs without links -/

/-- No entry of the disk is a link. -/
def Linkless (d : Tree) : Prop := ∀ e ∈ d.entries, e.2.kind.isSymlink = false

instance (d : Tree) : Decidable (Linkless d) :=
  inferInstanceAs (Decidable (∀ e ∈ d.entries, e.2.kind.isSymlink = false))

theorem Linkless.linkAt {d : Tree} (h : Linkless d) (l : Place) : d.linkAt l = false := by
  unfold Disk.linkAt
  cases hk : d.kindAt l with
  | none => rfl
  | some k =>
    rcases Disk.entry_of_kindAt hk with ⟨-, rfl⟩ | ⟨e, he, -, rfl⟩
    · rfl
    · exact h e he

/-- Without links every step is contained. -/
theorem Op.containedIn_of_linkless {name : String} {m : Manager} {op : Op} (haim : op.AimedAt name)
    (h : Linkless m.disk) : op.ContainedIn name m := by
  have hway : ∀ p, m.ClearWay name p := fun p => Disk.noLinkAbove_of fun a _ _ => h.linkAt a
  have hpriv : m.ClearPrivate name := fun l _ => h.linkAt l
  have hplain : ∀ p, m.Plainly name p := fun p =>
    ⟨hway p, h.linkAt _, fun _ _ _ _ _ a _ => h.linkAt a⟩
  refine ⟨haim, ?_⟩
  cases op with
  | file branch op =>
    cases op with
    | create dir n mode => exact ⟨hpriv, hplain _⟩
    | mkdir dir n mode => exact ⟨hpriv, hplain _⟩
    | symlink dir n target => exact ⟨hpriv, hway _⟩
    | writeByWorker p offset data => exact ⟨hpriv, hplain p⟩
    | write p offset data => exact ⟨hpriv, hplain p⟩
    | writeCached id offset data => exact trivial
    | truncate p size => exact ⟨hpriv, hplain p⟩
    | setattr p attr => exact ⟨hpriv, hplain p⟩
    | unlink dir n => exact hway _
    | rmdir dir n => exact hway _
    | rename dir n newDir newName noReplace =>
      exact ⟨hpriv, hway _, hway _, fun _ _ => hplain _⟩
  | revert branch p => exact hway p
  | _ => exact trivial

/-! ## A link that is followed -/

/-- A base directory with a file and a link to it, and a branch. -/
def linkToBase : Manager :=
  run step (Manager.init .bare)
    [.host (.write ["f"] [120]),
      .host (.symlink ["l"] ⟨true, [.name "base", .name "f"]⟩), .create "b" "main" .lazy []]

/-- `touch -h`, on the link. -/
def touchLink : Op :=
  .file "b" (.setattr ["l"] ⟨none, none, none, none, some (.specificTime 5)⟩)

/-- The write of a file of the branch, with its directory made first. -/
def writeInBranch : List Op :=
  [.file "b" (.mkdir [] "d" 0o755), .file "b" (.create ["d"] "g" 0o644),
    .file "b" (.write ["d", "g"] 0 [121]), .file "b" (.writeByWorker ["f"] 0 [122])]

/-- The time of the file in the base directory is set; without the link it is all contained. -/
theorem linkToBase_run :
    ((linkToBase.disk.get (basePath ["f"])).map Node.mtime ≠ some 5 ∧
      ((step linkToBase touchLink).disk.get (basePath ["f"])).map Node.mtime = some 5) := by
  decide +kernel

theorem not_branchesAreIsolated : ¬ BranchesAreIsolated := by
  intro h
  obtain ⟨hbefore, hafter⟩ := linkToBase_run
  have hsame := (h linkToBase ⟨.bare, _, rfl⟩ "b" [touchLink] (by simp [touchLink, Op.AimedAt])).1.base
    ["f"]
  rw [run_cons, run_nil] at hsame
  rw [← hsame] at hbefore
  exact hbefore hafter

/-- A branch over a base directory with one file. -/
def fileInBase : Manager :=
  run step (Manager.init .bare) [.host (.write ["f"] [120]), .create "b" "main" .lazy []]

theorem fileInBase_run :
    Linkless fileInBase.disk ∧
      Linkless (run step fileInBase (writeInBranch.take 1)).disk ∧
      Linkless (run step fileInBase (writeInBranch.take 2)).disk ∧
      Linkless (run step fileInBase (writeInBranch.take 3)).disk ∧
      (run step fileInBase writeInBranch).view "b" ["f"] = some (.file [122]) ∧
      (run step fileInBase writeInBranch).view "b" ["d", "g"] = some (.file [121]) := by
  decide +kernel

/-- Two files written in a branch, both unseen in `main`. -/
theorem isolated_until_commit_sample :
    LeavesOthers "b" fileInBase (run step fileInBase writeInBranch) ∧
      (run step fileInBase writeInBranch).view "b" ["f"] = some (.file [122]) ∧
      (run step fileInBase writeInBranch).view "b" ["d", "g"] = some (.file [121]) := by
  obtain ⟨h0, h1, h2, h3, hf, hg⟩ := fileInBase_run
  refine ⟨(isolated_until_commit "b" fileInBase writeInBranch ⟨?_, ?_, ?_, ?_, trivial⟩).1, hf, hg⟩
  · exact Op.containedIn_of_linkless rfl h0
  · exact Op.containedIn_of_linkless rfl h1
  · exact Op.containedIn_of_linkless rfl h2
  · exact Op.containedIn_of_linkless rfl h3

end BranchFs
