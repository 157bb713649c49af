/-
# BranchFs.Isolate.Speculate -- speculation is not seen

Branches are made to try something out. As long as nothing is committed into a branch that was there
before, any number of new branches can be made, worked in, committed into one another, frozen, thawed and
thrown away, in any order: the base directory, and the records, trees and views of the branches that were
there, stay what they were.
-/
import BranchFs.Forest.Recursion
import BranchFs.Isolate.Frozen
import BranchFs.Isolate.Snapshot

namespace BranchFs

open BranchFs.Posix BranchFs.Logic

/-! ## Trees an operation leaves alone -/

/-- The trees in `W` are what they were. -/
def KeepsTrees (W : Option Root → Prop) (m m' : Manager) : Prop := SameOn W m.disk m'.disk

section Trees

variable {W : Option Root → Prop} {m m' : Manager} {name : String} {parent : Branch} {α : Type}

theorem KeepsTrees.refl (W : Option Root → Prop) (m : Manager) : KeepsTrees W m m := SameOn.refl _ _

theorem KeepsTrees.trans {m₁ m₂ m₃ : Manager} (h : KeepsTrees W m₁ m₂) (h' : KeepsTrees W m₂ m₃) :
    KeepsTrees W m₁ m₃ := SameOn.trans h h'

theorem KeepsTrees.of_disk (h : m'.disk = m.disk) : KeepsTrees W m m' := by
  unfold KeepsTrees
  rw [h]
  exact SameOn.refl _ _

theorem keepsTrees_bind {β : Type} {x : Mgr α} {f : α → Mgr β} (hx : Keeps (KeepsTrees W) x)
    (hf : ∀ a, Keeps (KeepsTrees W) (f a)) : Keeps (KeepsTrees W) (x >>= f) :=
  keeps_bind (fun _ _ _ h h' => h.trans h') hx hf

/-- Removing a branch removes the trees it owns. -/
theorem keepsTrees_removeBranch (hW : ∀ r, W r → ofBranch name r = false) :
    Keeps (KeepsTrees W) (removeBranch name) := by
  intro m
  unfold after removeBranch
  by_cases h : m.forest.isLeaf name = true ∧ name ≠ "main"
  · rw [dif_pos h]
    exact sameOn_purge.mono fun r hr => hW r hr
  · rw [dif_neg h]
    exact KeepsTrees.refl W m

/-- A commit into a branch changes nothing in `W`, where that has nothing of the branch, and nothing that
is the parent's own. -/
theorem allowsCommit_keepsTrees (hmain : parent.name ≠ "main") (hW : ∀ r, W r → ofBranch name r = false)
    (hup : ∀ r, W r → ¬ Own parent.name r) : AllowsCommit (KeepsTrees W) name parent where
  refl := KeepsTrees.refl W
  trans _ _ _ h h' := h.trans h'
  disk m d h := h.mono fun r hr => by
    have hdest : destination parent.name = .files parent.name := if_neg hmain
    refine ⟨?_, ?_, ?_⟩
    · rintro rfl
      have hown := hW _ hr
      simp [ofBranch, Root.owner] at hown
    · rintro rfl
      rw [hdest] at hr
      exact hup _ hr (own_files parent.name)
    · rintro rfl
      exact hup _ hr (own_files parent.name)
  isolated _ _ h := h.same.mono hup
  record _ _ := .of_disk rfl
  remove m := keepsTrees_removeBranch hW m
  epoch _ := .of_disk rfl

end Trees

/-! ## Speculation -/

/-- The base directory, and records and trees of the branches in `old`, are what they were. -/
structure Unseen (old : String → Prop) (m m' : Manager) : Prop where
  base : KeepsTrees (· = some .base) m m'
  branch : ∀ b, old b → Spares b m m'

/-- A step of a speculation beside the branches in `old`: branches are made, also under names that are
taken, and everything else is done to other branches; a commit goes into one of those. -/
def Op.Speculative (old : String → Prop) (m : Manager) : Op → Prop
  | .create _ _ _ _ => True
  | .commit _ name => ¬ old name ∧ ∀ c, m.forest.get? name = some c → ∀ up, c.parent = some up → ¬ old up
  | .abort name => ¬ old name
  | .freeze name => ¬ old name
  | .thaw name => ¬ old name
  | .revert name _ => ¬ old name
  | .file name _ => ¬ old name
  | .host _ => False

section

variable {old : String → Prop} {m m' : Manager} {op : Op} {b : String}

theorem Unseen.refl (old : String → Prop) (m : Manager) : Unseen old m m :=
  ⟨KeepsTrees.refl _ m, fun b _ => Spares.refl b m⟩

theorem Unseen.trans {m₁ m₂ m₃ : Manager} (h : Unseen old m₁ m₂) (h' : Unseen old m₂ m₃) :
    Unseen old m₁ m₃ :=
  ⟨h.base.trans h'.base, fun b hb => (h.branch b hb).trans (h'.branch b hb)⟩

/-- What is done to one branch alone. -/
theorem Unseen.of_isolated {name : String} (h : Isolated name m m') (hname : ¬ old name) :
    Unseen old m m' where
  base := h.same.mono fun r hr => by rw [hr]; simp [Own]
  branch b hb := Spares.of_isolated h fun heq => hname (heq ▸ hb)

theorem base_of_create {name parent : String} {inheritance : InheritanceMode} {hidePaths : List String} :
    Keeps (KeepsTrees (· = some .base)) (createBranchWithOptions name parent inheritance hidePaths) := by
  have hsnapshot : Keeps (KeepsTrees (· = some .base)) (takeSnapshot parent name) := by
    refine keepsTrees_bind (keeps_attempt fun m => ?_) fun r => ?_
    · obtain ⟨d, hrun, hsame⟩ := after_snapshotVisibleTree m parent name
      rw [hrun]
      exact hsame.mono fun r hr => by rw [hr]; simp
    · cases r with
      | ok _ => exact keeps_pure (KeepsTrees.refl _) _
      | error e =>
        refine keepsTrees_bind (fun m => ?_) fun _ => keeps_throw (KeepsTrees.refl _) e
        exact (sameOn_purge (d := m.disk) (P := ofBranch name)).mono fun r hr => by
          rw [hr]
          rfl
  refine keepsTrees_bind (keeps_fromExcept (KeepsTrees.refl _) _) fun _ => ?_
  refine keepsTrees_bind (fun _ => .of_disk rfl) fun taken => ?_
  refine keepsTrees_bind (keeps_failIf (KeepsTrees.refl _) _ _) fun _ => ?_
  refine keepsTrees_bind (fun m => .of_disk ?_) fun up => ?_
  · unfold after
    cases h : m.forest.get? parent <;> simp only [h]
  · refine keepsTrees_bind (keeps_when (KeepsTrees.refl _) _ fun _ => hsnapshot) fun _ => ?_
    refine keepsTrees_bind (fun m => .of_disk ?_) fun _ _ => .of_disk rfl
    unfold after insertBranch
    by_cases h : (newBranch name parent up.commitCount inheritance hidePaths).parent = some parent ∧
        m.forest.get? parent ≠ none ∧
        m.forest.get? (newBranch name parent up.commitCount inheritance hidePaths).name = none
    · rw [dif_pos h]
    · rw [dif_neg h]

theorem base_of_setBranchState {name : String} {state : BranchState} :
    Keeps (KeepsTrees (· = some .base)) (setBranchState name state) := by
  refine keepsTrees_bind (keeps_failIf (KeepsTrees.refl _) _ _) fun _ => ?_
  refine keepsTrees_bind (fun m => ?_) fun _ => ?_
  · rw [after_getBranch]
    exact KeepsTrees.refl _ m
  · exact keepsTrees_bind (fun _ => .of_disk rfl) fun _ _ => .of_disk rfl

theorem base_of_abort {name : String} : Keeps (KeepsTrees (· = some .base)) (BranchFs.abort name) := by
  refine keepsTrees_bind (fun m => .of_disk ?_) fun up => ?_
  · rw [after_finalizable]
  · refine keepsTrees_bind (keepsTrees_removeBranch fun x hx => ?_) fun _ => ?_
    · rw [hx]
      rfl
    · exact keeps_pure (KeepsTrees.refl _) _

/-- **A step of a speculation is not seen**, where it follows no link. -/
theorem step_unseen (hop : op.Speculative old m) (hlink : op.FollowsNoLink m)
    (hold : ∀ b, old b → m.forest.get? b ≠ none) (hmain : old "main") : Unseen old m (step m op) := by
  cases op with
  | create name parent inheritance hidePaths =>
    refine ⟨base_of_create m, fun b hb => ?_⟩
    by_cases hname : b = name
    · subst hname
      show Spares b m (after (createBranchWithOptions b parent inheritance hidePaths) m)
      rw [create_taken (hold b hb)]
      exact Spares.refl b m
    · exact spares_create hname m
  | commit order name =>
    obtain ⟨hname, hup⟩ := hop
    refine ⟨framed_commit (KeepsTrees.refl _) fun c parent hc hp hparent => ⟨?_, ?_⟩, fun b hb => ?_⟩
    · refine allowsCommit_keepsTrees (fun hpmain => ?_) (fun x hx => ?_) fun x hx => ?_
      · exact hup c hc parent.name hp (hpmain ▸ hmain)
      · rw [hx]
        rfl
      · rw [hx]
        simp [Own]
    · exact hlink c parent hc hp hparent
    · refine spares_commit (fun heq => hname (heq ▸ hb)) fun c parent hc hp hparent => ?_
      exact ⟨fun heq => hup c hc parent.name hp (heq ▸ hb), hlink c parent hc hp hparent⟩
  | abort name =>
    have hne : ∀ b, old b → b ≠ name := fun b hb heq => hop (heq ▸ hb)
    exact ⟨base_of_abort m, fun b hb => spares_abort (hne b hb) m⟩
  | freeze name =>
    have hne : ∀ b, old b → b ≠ name := fun b hb heq => hop (heq ▸ hb)
    refine ⟨?_, fun b hb => spares_setBranchState (hne b hb) m⟩
    exact base_of_setBranchState m
  | thaw name =>
    have hne : ∀ b, old b → b ≠ name := fun b hb heq => hop (heq ▸ hb)
    refine ⟨?_, fun b hb => spares_setBranchState (hne b hb) m⟩
    exact base_of_setBranchState m
  | revert name p =>
    have hin : Op.ContainedIn name m (.revert name p) := ⟨rfl, hlink⟩
    exact Unseen.of_isolated (step_isolated hin) hop
  | file name fop =>
    have hin : Op.ContainedIn name m (.file name fop) := ⟨rfl, hlink⟩
    exact Unseen.of_isolated (step_isolated hin) hop
  | host edit => exact hop.elim

/-- The branches of a state. -/
def Manager.Has (m : Manager) (name : String) : Prop := m.forest.get? name ≠ none

theorem run_unseen {ops : List Op}
    (h : Along step (fun s op => op.Speculative m.Has s ∧ op.FollowsNoLink s) m ops) :
    Unseen m.Has m (run step m ops) := by
  obtain ⟨top, htop, -⟩ := (Forest.rooted m.forest).top
  have hmain : m.Has "main" := by
    rw [Manager.Has, htop]
    exact Option.some_ne_none top
  refine run_inv (I := Unseen m.Has m) (fun s op hs hop => hs.trans ?_) ops m (Unseen.refl _ m) h
  refine step_unseen hop.1 hop.2 (fun b hb => ?_) hmain
  rw [(hs.branch b hb).record]
  exact hb

/-- What a branch inherits from is there. -/
theorem Manager.Inherits.has {a b : String} (h : m.Inherits a b) (hb : m.Has b) : m.Has a := by
  induction h with
  | self => exact hb
  | up hget hp _ ih =>
    obtain ⟨q, hq⟩ := Forest.get?_parent hget hp
    refine ih ?_
    rw [Manager.Has, hq]
    exact Option.some_ne_none q

/-- Branches that were there show what they showed. -/
theorem Unseen.view (h : Unseen m.Has m m') (hb : m.Has b) (hlink : m.NoLinkUnderShown b) :
    m'.view b = m.view b := by
  refine Manager.view_of_sameReads (fun a ha => (h.branch a (ha.has hb)).record) ?_ hlink
  rintro r (rfl | ⟨a, ha, hr⟩) p
  · exact SameOn.kindAt h.base rfl
  · refine (h.branch a (ha.has hb)).layers.kindAt ?_
    rcases hr with rfl | rfl
    · exact Or.inl rfl
    · exact Or.inr rfl

end

/-! ## A branch of a branch, committed and thrown away -/

/-- A branch `s` of `b` that writes a file, a branch `t` of `s` that makes another; `t` is committed into
`s`, and `s` thrown away. -/
def triedOut : List Op :=
  [.create "s" "b" .lazy [], .file "s" (.writeByWorker ["f"] 0 [121]), .create "t" "s" .lazy [],
    .file "t" (.create [] "g" 0o644), .commit .listed "t", .abort "s"]

theorem triedOut_run :
    (Linkless fileInBase.disk ∧ Linkless (run step fileInBase (triedOut.take 1)).disk ∧
      Linkless (run step fileInBase (triedOut.take 3)).disk) ∧
    (Linkless (run step fileInBase (triedOut.take 4)).disk ∧
      ((run step fileInBase (triedOut.take 4)).forest.get? "t").map Branch.parent = some (some "s") ∧
      ((run step fileInBase (triedOut.take 4)).forest.get? "t").map Branch.tombstones = some [] ∧
      (walkFiles (run step fileInBase (triedOut.take 4)).disk "t").map Prod.fst = [["g"]]) ∧
    (run step fileInBase (triedOut.take 5)).view "s" ["f"] = some (.file [121]) ∧
    (run step fileInBase (triedOut.take 5)).view "s" ["g"] = some (.file []) ∧
    fileInBase.view "b" ["f"] = some (.file [120]) ∧
    fileInBase.forest.get? "s" = none ∧ fileInBase.forest.get? "t" = none ∧
    (fileInBase.forest.get? "b").isSome = true := by
  decide +kernel

end BranchFs
