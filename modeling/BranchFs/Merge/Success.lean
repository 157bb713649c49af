/-
# BranchFs.Merge.Success -- which commits go through

A commit of a ready session fails in three ways only: a file or link of the destination is in the way
of a file of the session, a file of the session has taken the place of a directory whose entries were
moved to the trash one by one, or a merge of texts panics. All can be read off before the commit. A
session gets into the first state by renaming a directory over a deleted file.
-/
import BranchFs.Merge.Views

namespace BranchFs

open BranchFs.Posix BranchFs.Logic

/-- What users of mounts and branches do: no command of an administrator, no edit of the base. -/
def Op.ofSession : Op → Bool
  | .create .. => true
  | .commit .. => true
  | .abort _ => true
  | .file .. => true
  | _ => false

/-- The states after any run of sessions. -/
def ReachedBySessions (m : Manager) : Prop :=
  ∃ s ops, (∀ op ∈ ops, Op.ofSession op = true) ∧ m = run step (Manager.init s) ops

/-- After any run of sessions every leaf branch other than `main` can be committed. -/
def EveryBranchCommits : Prop :=
  ∀ m, ReachedBySessions m → ∀ name, m.isBranchValid name = true →
    m.forest.isLeaf name = true → name ≠ "main" →
      ∀ order, ∃ o m', commitWithReport order name m = .ok o m'

section

variable {m : Manager} {name : String} {b parent : Branch}

/-- What a commit into the base directory comes to. -/
theorem Session.commit_main (h : Session m name b parent) (hmain : parent.name = "main")
    (order : HashOrder) :
    (Commits m name b (destination parent.name) order ∧ ∃ o m' K,
      commitWithReport order name m = .ok o m' ∧ Committed m name o.autoMerges K ∧
        IntoBase m name b K m') ∨
    (¬ Commits m name b (destination parent.name) order ∧
      ∃ e m', commitWithReport order name m = .error e m') := by
  have hdest : destination parent.name = .base := if_pos hmain
  have hcommittable := h.committable
  have hup := h.up
  have hrecord := h.record
  rw [hmain] at hup hrecord
  rw [hdest] at hcommittable ⊢
  exact commitBase_cases h.branch h.leaf h.name_ne_main hup hrecord hcommittable order

/-- What a commit into another branch comes to. -/
theorem Session.commit_nested (h : Session m name b parent) (hmain : parent.name ≠ "main")
    (order : HashOrder) :
    (Commits m name b (destination parent.name) order ∧ ∃ o m' K,
      commitWithReport order name m = .ok o m' ∧ Committed m name o.autoMerges K ∧
        IntoParent m name b parent K m') ∨
    (¬ Commits m name b (destination parent.name) order ∧
      ∃ e m', commitWithReport order name m = .error e m') := by
  have hdest : destination parent.name = .files parent.name := if_neg hmain
  have hcommittable := h.committable
  have hclean := h.clean_dest
  rw [hdest] at hcommittable hclean ⊢
  exact commitNested_cases h.branch h.leaf h.name_ne_main h.up hmain h.record hcommittable hclean order

/-- **A commit goes through exactly when** nothing in the destination is in the way of the session's
files, no file of the session stands above the place of an entry moved to the trash, and no merge of
texts panics. -/
theorem commit_ok_iff (h : Session m name b parent) (order : HashOrder) :
    (∃ o m', commitWithReport order name m = .ok o m') ↔
      Commits m name b (destination parent.name) order := by
  have hcases : (Commits m name b (destination parent.name) order ∧
        ∃ o m', commitWithReport order name m = .ok o m') ∨
      (¬ Commits m name b (destination parent.name) order ∧
        ∃ e m', commitWithReport order name m = .error e m') := by
    by_cases hmain : parent.name = "main"
    · rcases h.commit_main hmain order with ⟨hc, o, m', _, hok, _⟩ | hstop
      · exact Or.inl ⟨hc, o, m', hok⟩
      · exact Or.inr hstop
    · rcases h.commit_nested hmain order with ⟨hc, o, m', _, hok, _⟩ | hstop
      · exact Or.inl ⟨hc, o, m', hok⟩
      · exact Or.inr hstop
  rcases hcases with ⟨hc, hok⟩ | ⟨hstop, e, m', herror⟩
  · exact iff_of_true hok hc
  · refine iff_of_false ?_ hstop
    rintro ⟨o, m'', hok⟩
    rw [herror] at hok
    cases hok

/-- That a commit goes through, said of the committed delta. -/
theorem Session.unblocked {K : RelPath → Option Entry} {auto : List CommitAutoMerge}
    {order : HashOrder} (h : Session m name b parent) (hmain : parent.name = "main")
    (hc : Committed m name auto K) (hgo : Commits m name b (destination parent.name) order) :
    Unblocked .dir (baseKind m.disk) (· ∈ b.tombstones) K := by
  have hdest : destination parent.name = .base := if_pos hmain
  have hclean := h.clean_dest
  have hopen := hgo.1
  rw [hdest] at hclean hopen
  rw [plainTree_clean hclean] at hopen
  exact fun f a hf => hopen f a ((hc.leaf f).mp hf)

end

/-- A set handed out as it is listed. -/
def HashOrder.listed : HashOrder := ⟨id, fun _ => List.Perm.refl _⟩

/-- A session that has renamed a directory over a file it had deleted. -/
def directoryOverFile : Manager :=
  run step (Manager.init .bare)
    [.create "a" "main" .lazy [], .file "a" (.create [] "f" 0o644), .commit .listed "a",
      .create "b" "main" .lazy [], .file "b" (.mkdir [] "g" 0o755),
      .file "b" (.create ["g"] "x" 0o644), .file "b" (.unlink [] "f"),
      .file "b" (.rename [] "g" [] "f" false)]

/-- The record of a branch that is there. -/
def Manager.recordOf (m : Manager) (name : String) : Branch := (m.forest.get? name).getD mainBranch

/-- What a commit reports. -/
def outcomeOf (m : Manager) (name : String) : Option CommitOutcome :=
  match commitWithReport .listed name m with
  | .ok o _ => some o
  | .error _ _ => none

theorem not_ok_of_outcome (m : Manager) (name : String) (h : outcomeOf m name = none) :
    ¬ ∃ o m', commitWithReport .listed name m = .ok o m' := by
  rintro ⟨o, m', hok⟩
  unfold outcomeOf at h
  rw [hok] at h
  cases h

theorem ok_of_outcome (m : Manager) (name : String)
    (h : (outcomeOf m name).map CommitOutcome.autoMerges = some []) :
    ∃ o, commitWithReport .listed name m = .ok o (after (commitWithReport .listed name) m) ∧
      o.autoMerges = [] := by
  unfold outcomeOf at h
  cases hrun : commitWithReport .listed name m with
  | error e m' =>
    rw [hrun] at h
    cases h
  | ok o m' =>
    rw [hrun] at h
    refine ⟨o, ?_, Option.some.inj h⟩
    unfold after
    rw [hrun]

/-- The rename has taken the tombstone of the file away, and the commit finds the file in its way. -/
theorem directoryOverFile_stuck :
    PlainSession directoryOverFile "b" (directoryOverFile.recordOf "b")
        (directoryOverFile.recordOf "main") ∧
      directoryOverFile.isBranchValid "b" = true ∧ outcomeOf directoryOverFile "b" = none := by
  decide +kernel

theorem not_everyBranchCommits : ¬ EveryBranchCommits := by
  intro h
  obtain ⟨hplain, hvalid, hstuck⟩ := directoryOverFile_stuck
  refine not_ok_of_outcome directoryOverFile "b" hstuck ?_
  exact h directoryOverFile ⟨.bare, _, by decide, rfl⟩ "b" hvalid hplain.session.leaf (by decide) .listed

/-- The directory renamed over the file cannot be committed, as can be read off before. -/
theorem directoryOverFile_not_commits :
    ¬ Commits directoryOverFile "b" (directoryOverFile.recordOf "b")
      (destination (directoryOverFile.recordOf "main").name) .listed := by
  intro hc
  obtain ⟨hplain, _, hstuck⟩ := directoryOverFile_stuck
  exact not_ok_of_outcome directoryOverFile "b" hstuck ((commit_ok_iff hplain.session _).mpr hc)

end BranchFs
