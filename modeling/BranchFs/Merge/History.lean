/-
# BranchFs.Merge.History -- what a session was based on

Whether a commit should have reported a path is a matter of the run that led to it: what the session
saw at its first touch of the path, what the contents it holds now are based on, and what was
committed beside it. These are read off the run here; what the commit itself goes by is the parent's
counter and the touch record, and where the two fall apart an update is lost without a record, or a
conflict is reported that is none.
-/
import BranchFs.Merge.Listed
import BranchFs.Merge.Preserve

namespace BranchFs

open BranchFs.Posix BranchFs.Logic

/-! ## Reading a run backwards -/

/-- The state after the steps `past`, the last one first. -/
def stateAfter (s : FreshStore) (past : List Op) : Manager := run step (Manager.init s) past.reverse

theorem stateAfter_cons (s : FreshStore) (op : Op) (past : List Op) :
    stateAfter s (op :: past) = step (stateAfter s past) op := by
  simp [stateAfter, run_append]

theorem reachable_stateAfter (s : FreshStore) (past : List Op) : Reachable (stateAfter s past) :=
  ⟨s, past.reverse, rfl⟩

/-- A file operation acts on `p`; a rename moves all that is below its two names. -/
def FileOp.touches (p : RelPath) : FileOp → Bool
  | create dir n _ => p == dir ++ [n]
  | mkdir dir n _ => p == dir ++ [n]
  | symlink dir n _ => p == dir ++ [n]
  | writeByWorker q _ _ => p == q
  | write q _ _ => p == q
  | writeCached _ _ _ => false
  | truncate q _ => p == q
  | setattr q _ => p == q
  | unlink dir n => p == dir ++ [n]
  | rmdir dir n => p == dir ++ [n]
  | rename dir n newDir newName _ =>
    (dir ++ [n]).isPrefixOf p || (newDir ++ [newName]).isPrefixOf p

namespace Manager

/-- What the branch sees of its parent at a path. -/
def sees (m : Manager) (name : String) (p : RelPath) : Option Entry :=
  (m.forest.get? name).bind fun b =>
    if b.isHidden p then none else b.parent.bind fun parent => m.view parent p

/-- The delta of the branch has a file or link at the path. -/
def hasFile (m : Manager) (name : String) (p : RelPath) : Bool :=
  (m.disk.kindAt (deltaPath name p)).any fun k => !k.isDir

def hasTombstone (m : Manager) (name : String) (p : RelPath) : Bool :=
  (m.forest.get? name).any fun b => b.tombstones.contains p

/-- The session of the branch holds the path: contents, or a deletion. -/
def holds (m : Manager) (name : String) (p : RelPath) : Bool :=
  m.hasFile name p || m.hasTombstone name p

/-- The step commits the branch `child` into `name`. -/
def commitsInto (m : Manager) (order : HashOrder) (child name : String) : Bool :=
  (m.forest.get? child).any (fun b => b.parent == some name) &&
    !(step m (.commit order child)).isBranchValid child

end Manager

/-- What `name`, or the child whose commit brought `p` into it, saw of its parent when it first
touched `p`; nothing while it has not. -/
def firstSaw (s : FreshStore) : List Op → String → RelPath → Option (Option Entry)
  | [], _, _ => none
  | op :: past, name, p =>
    let m := stateAfter s past
    let before := firstSaw s past name p
    match op with
    | .create n _ _ _ => if n == name && !m.isBranchValid n then none else before
    | .file n op =>
      if n == name && m.isBranchWritable n && op.touches p then before.or (some (m.sees n p))
      else before
    | .revert n q =>
      if n == name && m.isBranchWritable n && q.isPrefixOf p then none else before
    | .commit order child =>
      if m.commitsInto order child name && m.holds child p then
        before.or (firstSaw s past child p)
      else before
    | _ => before

/-- What the contents or the deletion that `name` holds at `p` are based on: what it saw of its parent
when they came into its delta, or what the child they came from first saw. -/
def basedOn (s : FreshStore) : List Op → String → RelPath → Option (Option Entry)
  | [], _, _ => none
  | op :: past, name, p =>
    let m := stateAfter s past
    let m' := step m op
    let before := if m'.holds name p then basedOn s past name p else none
    match op with
    | .file n _ =>
      if n == name && ((!m.hasFile name p && m'.hasFile name p) ||
          (!m.hasTombstone name p && m'.hasTombstone name p)) then some (m.sees name p)
      else before
    | .commit order child =>
      if m.commitsInto order child name && m.holds child p then firstSaw s past child p else before
    | _ => before

/-- A commit of a sibling of `name`, made since `name` was forked, changed what `parent` shows at
`p`. -/
def SiblingChanged (s : FreshStore) (past : List Op) (name parent : String) (p : RelPath) : Prop :=
  ∃ later order sibling earlier, past = later ++ .commit order sibling :: earlier ∧
    (∀ post, post <:+ later → (stateAfter s (post ++ .commit order sibling :: earlier)).isBranchValid
      name = true) ∧
    sibling ≠ name ∧ (stateAfter s earlier).isBranchValid name = true ∧
    (stateAfter s earlier).commitsInto order sibling parent = true ∧
    (stateAfter s (.commit order sibling :: earlier)).view parent p ≠
      (stateAfter s earlier).view parent p

/-! ## What should be reported -/

/-- The session of the branch holds the path. -/
def InSession (m : Manager) (name : String) (b : Branch) (p : RelPath) : Prop :=
  p ∈ b.tombstones ∨ Leaf .dir (deltaKind m.disk name) p

/-- If the commit goes through it reports `p`. -/
def ReportsOnCommit (m : Manager) (order : HashOrder) (name : String) (p : RelPath) : Prop :=
  ∀ o m', commitWithReport order name m = .ok o m' → o.lists p = true

/-- If the commit goes through and reports a conflict at `p`, then `P`. -/
def ConflictOnlyIf (m : Manager) (order : HashOrder) (name : String) (p : RelPath) (P : Prop) : Prop :=
  ∀ o m', commitWithReport order name m = .ok o m' →
    p ∈ o.conflicts.map CommitConflict.path → P

section

variable {m : Manager} {name : String} {b parent : Branch} {p : RelPath}

/-- When a path of a session is reported, whatever should make it so. -/
theorem reportsOnCommit_iff (h : Session m name b parent) (hp : InSession m name b p)
    (order : HashOrder) : ReportsOnCommit m order name p ↔
      (Commits m name b (destination parent.name) order →
        parent.commitCount ≠ b.parentVersionAtFork ∧ MovedOn m b p) := by
  constructor
  · intro hreport hgo
    obtain ⟨o, m', hok⟩ := (commit_ok_iff h order).mpr hgo
    exact (lists_of_commit h hok hp).mp (hreport o m' hok)
  · intro hcond o m' hok
    exact (lists_of_commit h hok hp).mpr (hcond ((commit_ok_iff h order).mp ⟨o, m', hok⟩))

/-- When a conflict is reported only where `P` holds. -/
theorem conflictOnlyIf_iff (h : Session m name b parent) (order : HashOrder) (P : Prop) :
    ConflictOnlyIf m order name p P ↔
      (Commits m name b (destination parent.name) order →
        parent.commitCount ≠ b.parentVersionAtFork → MovedOn m b p →
        (p ∈ b.tombstones ∨ (Leaf .dir (deltaKind m.disk name) p ∧ ¬ MergesCleanly m b p)) → P) := by
  constructor
  · intro honly hgo hcount hmoved hrest
    obtain ⟨o, m', hok⟩ := (commit_ok_iff h order).mpr hgo
    exact honly o m' hok ((reported_of_commit h hok).2.mpr ⟨hcount, hmoved, hrest⟩)
  · intro hcond o m' hok hconflict
    obtain ⟨hcount, hmoved, hrest⟩ := (reported_of_commit h hok).2.mp hconflict
    exact hcond ((commit_ok_iff h order).mp ⟨o, m', hok⟩) hcount hmoved hrest

/-- What a snapshot branch inherits at a path is what its own snapshot holds. -/
theorem currentIdentity_snapshot (h : Session m name b parent) (hsnap : b.inheritance = .snapshot) :
    m.currentIdentity b p =
      if b.isHidden p then PathIdentity.missing
      else PathIdentity.fromPath m.disk (some (inheritedPath name p)) := by
  have hname := Forest.name_of_get? h.branch
  show PathIdentity.fromPath m.disk (m.inheritedForTouch b p) = _
  unfold Manager.inheritedForTouch Manager.inheritedResolve inheritedStep
  rw [h.up, hsnap, hname]
  split
  · rfl
  · by_cases hex : m.disk.lexists (inheritedPath name p) = true
    · simp only [hex, if_true]
    · simp only [hex, if_false, Bool.false_eq_true]
      unfold PathIdentity.fromPath
      cases hl : m.disk.lstat (inheritedPath name p) with
      | ok n => exact absurd (by simp [Disk.lexists, hl, Except.toOption]) hex
      | error e => simp only [hl]

end

/-! ## Lost updates of lazy branches -/

/-- What the parent shows at `p` is not what the session saw at its first touch of `p`. -/
def UpdatedSince (s : FreshStore) (past : List Op) (name parent : String) (p : RelPath) : Prop :=
  ∃ e, firstSaw s past name p = some e ∧ (stateAfter s past).view parent p ≠ e

/-- Every update a lazy branch overwrites or deletes is reported. -/
def LostUpdatesAreReported : Prop :=
  ∀ s past name b parent, (stateAfter s past).forest.get? name = some b →
    (stateAfter s past).forest.isLeaf name = true → b.parent = some parent → b.inheritance = .lazy →
      ∀ p, InSession (stateAfter s past) name b p → UpdatedSince s past name parent p →
        ∀ order, ReportsOnCommit (stateAfter s past) order name p

/-- **When a lost update is reported.** If the parent's version of a path of the session is not the
one the session first saw, a commit that goes through reports the path exactly when a child has been
committed into the parent since the fork, and the touch record has another identity than what the
parent has at the path now. -/
theorem lost_update_reported_iff {s : FreshStore} {past : List Op} {name : String}
    {b parent : Branch} {p : RelPath} (h : Session (stateAfter s past) name b parent)
    (_hlazy : b.inheritance = .lazy) (hp : InSession (stateAfter s past) name b p)
    (order : HashOrder) :
    (UpdatedSince s past name parent.name p →
        ReportsOnCommit (stateAfter s past) order name p) ↔
      (UpdatedSince s past name parent.name p →
        Commits (stateAfter s past) name b (destination parent.name) order →
          parent.commitCount ≠ b.parentVersionAtFork ∧
            (b.touchRecordOrMissing p).baseAtFirstTouch ≠ (stateAfter s past).currentIdentity b p) :=
  imp_congr_right fun _ => reportsOnCommit_iff h hp order

/-! ## Snapshot branches -/

/-- Every change a sibling committed is reported when a snapshot branch overwrites or deletes it. -/
def SnapshotConflictsAreReported : Prop :=
  ∀ s past name b parent, (stateAfter s past).forest.get? name = some b →
    (stateAfter s past).forest.isLeaf name = true → b.parent = some parent →
      b.inheritance = .snapshot → ∀ p, InSession (stateAfter s past) name b p →
        SiblingChanged s past name parent p → ∀ order, ReportsOnCommit (stateAfter s past) order name p

/-- **When a snapshot branch reports.** If a sibling's commit changed what the parent shows at a path
of the session, a commit that goes through reports the path exactly when the touch record has another
identity than the branch's own snapshot: the parent's version is never looked at. -/
theorem snapshot_conflict_reported_iff {s : FreshStore} {past : List Op} {name : String}
    {b parent : Branch} {p : RelPath} (h : Session (stateAfter s past) name b parent)
    (hsnap : b.inheritance = .snapshot) (hp : InSession (stateAfter s past) name b p)
    (order : HashOrder) :
    (SiblingChanged s past name parent.name p →
        ReportsOnCommit (stateAfter s past) order name p) ↔
      (SiblingChanged s past name parent.name p →
        Commits (stateAfter s past) name b (destination parent.name) order →
          parent.commitCount ≠ b.parentVersionAtFork ∧
            (b.touchRecordOrMissing p).baseAtFirstTouch ≠
              if b.isHidden p then PathIdentity.missing
              else PathIdentity.fromPath (stateAfter s past).disk (some (inheritedPath name p))) := by
  rw [← currentIdentity_snapshot h hsnap]
  exact imp_congr_right fun _ => reportsOnCommit_iff h hp order

/-! ## Conflicts that are none -/

/-- The parent shows at `p` something else than what the session's contents there are based on. -/
def BaseMoved (s : FreshStore) (past : List Op) (name parent : String) (p : RelPath) : Prop :=
  ∀ e, basedOn s past name p = some e → (stateAfter s past).view parent p ≠ e

/-- A conflict is reported only where the parent has moved on from what the session is based on. -/
def NoSpuriousConflicts : Prop :=
  ∀ s past name b parent, (stateAfter s past).forest.get? name = some b →
    (stateAfter s past).forest.isLeaf name = true → b.parent = some parent → b.inheritance = .lazy →
      ∀ p order, ConflictOnlyIf (stateAfter s past) order name p (BaseMoved s past name parent p)

/-- `main` was written through its own mount, which moves no counter. -/
def writtenInParent : List Op :=
  [.file "main" (.writeByWorker ["f"] 0 [97]), .file "b" (.writeByWorker ["f"] 0 [98]),
    .create "b" "main" .lazy [], .host (.write ["f"] [120])]

/-- A sibling of a snapshot branch committed the file that branch has written. -/
def besideSnapshot : List Op :=
  [.file "a" (.writeByWorker ["f"] 0 [97]), .create "a" "main" .lazy [],
    .file "b" (.writeByWorker ["f"] 0 [98]), .create "b" "main" .snapshot [],
    .host (.write ["f"] [120])]

/-- A branch made and removed a name, and later wrote the file a sibling had committed there. -/
def rewrittenSince : List Op :=
  [.file "b" (.writeByWorker ["g"] 0 [98]), .commit .listed "a", .file "a" (.create [] "g" 0o644),
    .create "a" "main" .lazy [], .file "b" (.unlink [] "g"), .file "b" (.create [] "g" 0o644),
    .create "b" "main" .lazy []]

/-- The commit overwrites the write to `main` and says nothing. -/
theorem writtenInParent_run :
    PlainSession (stateAfter .bare writtenInParent) "b"
        ((stateAfter .bare writtenInParent).recordOf "b")
        ((stateAfter .bare writtenInParent).recordOf "main") ∧
      ((stateAfter .bare writtenInParent).recordOf "main").name = "main" ∧
      ((stateAfter .bare writtenInParent).recordOf "b").inheritance = .lazy ∧
      deltaKind (stateAfter .bare writtenInParent).disk "b" ["f"] = some (.file [98]) ∧
      firstSaw .bare writtenInParent "b" ["f"] = some (some (.file [120])) ∧
      (stateAfter .bare writtenInParent).view "main" ["f"] = some (.file [97]) ∧
      (outcomeOf (stateAfter .bare writtenInParent) "b").map CommitOutcome.autoMerges = some [] ∧
      (outcomeOf (stateAfter .bare writtenInParent) "b").map (CommitOutcome.lists · ["f"]) =
        some false := by
  decide +kernel

/-- The commit overwrites what the sibling committed and says nothing. -/
theorem besideSnapshot_run :
    PlainSession (stateAfter .bare (.commit .listed "a" :: besideSnapshot)) "b"
        ((stateAfter .bare (.commit .listed "a" :: besideSnapshot)).recordOf "b")
        ((stateAfter .bare (.commit .listed "a" :: besideSnapshot)).recordOf "main") ∧
      ((stateAfter .bare (.commit .listed "a" :: besideSnapshot)).recordOf "main").name = "main" ∧
      ((stateAfter .bare (.commit .listed "a" :: besideSnapshot)).recordOf "b").inheritance =
        .snapshot ∧
      deltaKind (stateAfter .bare (.commit .listed "a" :: besideSnapshot)).disk "b" ["f"] =
        some (.file [98]) ∧
      (stateAfter .bare (.commit .listed "a" :: besideSnapshot)).isBranchValid "b" = true ∧
      (stateAfter .bare besideSnapshot).isBranchValid "b" = true ∧
      (stateAfter .bare besideSnapshot).commitsInto .listed "a" "main" = true ∧
      (stateAfter .bare (.commit .listed "a" :: besideSnapshot)).view "main" ["f"] ≠
        (stateAfter .bare besideSnapshot).view "main" ["f"] ∧
      (outcomeOf (stateAfter .bare (.commit .listed "a" :: besideSnapshot)) "b").map
        CommitOutcome.autoMerges = some [] ∧
      (outcomeOf (stateAfter .bare (.commit .listed "a" :: besideSnapshot)) "b").map
        (CommitOutcome.lists · ["f"]) = some false := by
  decide +kernel

/-- The file is reported, though it is what `main` shows with the session's write over it. -/
theorem rewrittenSince_run :
    PlainSession (stateAfter .bare rewrittenSince) "b"
        ((stateAfter .bare rewrittenSince).recordOf "b")
        ((stateAfter .bare rewrittenSince).recordOf "main") ∧
      ((stateAfter .bare rewrittenSince).recordOf "main").name = "main" ∧
      ((stateAfter .bare rewrittenSince).recordOf "b").inheritance = .lazy ∧
      basedOn .bare rewrittenSince "b" ["g"] = some (some (.file [])) ∧
      (stateAfter .bare rewrittenSince).view "main" ["g"] = some (.file []) ∧
      (outcomeOf (stateAfter .bare rewrittenSince) "b").map CommitOutcome.autoMerges = some [] ∧
      (outcomeOf (stateAfter .bare rewrittenSince) "b").map
        (fun o => o.conflicts.map CommitConflict.path) = some [["g"]] := by
  decide +kernel

/-- What the outcome of a commit that goes through holds. -/
theorem ok_of_outcome_eq {α : Type} (m : Manager) (name : String) (f : CommitOutcome → α) {a : α}
    (h : (outcomeOf m name).map f = some a) :
    ∃ o m', commitWithReport .listed name m = .ok o m' ∧ f o = a := by
  unfold outcomeOf at h
  cases hrun : commitWithReport .listed name m with
  | error e m' =>
    rw [hrun] at h
    cases h
  | ok o m' =>
    rw [hrun] at h
    exact ⟨o, m', rfl, Option.some.inj h⟩

theorem not_reportsOnCommit {m : Manager} {name : String} {p : RelPath}
    (h : (outcomeOf m name).map (CommitOutcome.lists · p) = some false) :
    ¬ ReportsOnCommit m .listed name p := by
  intro hreport
  obtain ⟨o, m', hok, hlists⟩ := ok_of_outcome_eq m name _ h
  rw [hreport o m' hok] at hlists
  cases hlists

theorem writtenInParent_updated : InSession (stateAfter .bare writtenInParent) "b"
      ((stateAfter .bare writtenInParent).recordOf "b") ["f"] ∧
    UpdatedSince .bare writtenInParent "b" "main" ["f"] := by
  obtain ⟨_, _, _, hdelta, hsaw, hview, _⟩ := writtenInParent_run
  refine ⟨.inr ⟨_, hdelta, by simp⟩, _, hsaw, ?_⟩
  rw [hview]
  simp

theorem not_lostUpdatesAreReported : ¬ LostUpdatesAreReported := by
  intro h
  obtain ⟨hplain, hname, hlazy, _, _, _, _, hlists⟩ := writtenInParent_run
  obtain ⟨hin, hupdated⟩ := writtenInParent_updated
  have hs := hplain.session
  exact not_reportsOnCommit hlists (h .bare writtenInParent "b" _ "main" hs.branch hs.leaf
    (hname ▸ hs.up) hlazy ["f"] hin hupdated .listed)

/-- The counter of `main` has not moved, or the touch record has what `main` has now. -/
theorem writtenInParent_unmoved :
    ¬ (UpdatedSince .bare writtenInParent "b"
        ((stateAfter .bare writtenInParent).recordOf "main").name ["f"] →
      Commits (stateAfter .bare writtenInParent) "b"
        ((stateAfter .bare writtenInParent).recordOf "b")
        (destination ((stateAfter .bare writtenInParent).recordOf "main").name) .listed →
      ((stateAfter .bare writtenInParent).recordOf "main").commitCount ≠
          ((stateAfter .bare writtenInParent).recordOf "b").parentVersionAtFork ∧
        (((stateAfter .bare writtenInParent).recordOf "b").touchRecordOrMissing
          ["f"]).baseAtFirstTouch ≠ (stateAfter .bare writtenInParent).currentIdentity
            ((stateAfter .bare writtenInParent).recordOf "b") ["f"]) := by
  intro hcond
  obtain ⟨hplain, hname, hlazy, _, _, _, _, hlists⟩ := writtenInParent_run
  obtain ⟨hin, hupdated⟩ := writtenInParent_updated
  exact not_reportsOnCommit hlists ((lost_update_reported_iff hplain.session hlazy hin .listed).mpr
    hcond (hname.symm ▸ hupdated))

theorem besideSnapshot_changed :
    InSession (stateAfter .bare (.commit .listed "a" :: besideSnapshot)) "b"
        ((stateAfter .bare (.commit .listed "a" :: besideSnapshot)).recordOf "b") ["f"] ∧
      SiblingChanged .bare (.commit .listed "a" :: besideSnapshot) "b" "main" ["f"] := by
  obtain ⟨_, _, _, hdelta, hvalid, hvalid', hinto, hview, _⟩ := besideSnapshot_run
  refine ⟨.inr ⟨_, hdelta, by simp⟩, [], .listed, "a", besideSnapshot, rfl, ?_, by decide, hvalid',
    hinto, hview⟩
  intro post hpost
  rw [List.suffix_nil.mp hpost]
  exact hvalid

theorem not_snapshotConflictsAreReported : ¬ SnapshotConflictsAreReported := by
  intro h
  obtain ⟨hplain, hname, hsnap, _, _, _, _, _, _, hlists⟩ := besideSnapshot_run
  obtain ⟨hin, hchanged⟩ := besideSnapshot_changed
  have hs := hplain.session
  exact not_reportsOnCommit hlists (h .bare _ "b" _ "main" hs.branch hs.leaf (hname ▸ hs.up) hsnap
    ["f"] hin hchanged .listed)

/-- The touch record has what the branch's own snapshot has. -/
theorem besideSnapshot_unmoved :
    ¬ (SiblingChanged .bare (.commit .listed "a" :: besideSnapshot) "b"
        ((stateAfter .bare (.commit .listed "a" :: besideSnapshot)).recordOf "main").name ["f"] →
      Commits (stateAfter .bare (.commit .listed "a" :: besideSnapshot)) "b"
        ((stateAfter .bare (.commit .listed "a" :: besideSnapshot)).recordOf "b")
        (destination
          ((stateAfter .bare (.commit .listed "a" :: besideSnapshot)).recordOf "main").name) .listed →
      ((stateAfter .bare (.commit .listed "a" :: besideSnapshot)).recordOf "main").commitCount ≠
          ((stateAfter .bare (.commit .listed "a" :: besideSnapshot)).recordOf
            "b").parentVersionAtFork ∧
        (((stateAfter .bare (.commit .listed "a" :: besideSnapshot)).recordOf
          "b").touchRecordOrMissing ["f"]).baseAtFirstTouch ≠
          if ((stateAfter .bare (.commit .listed "a" :: besideSnapshot)).recordOf "b").isHidden ["f"]
          then PathIdentity.missing
          else PathIdentity.fromPath
            (stateAfter .bare (.commit .listed "a" :: besideSnapshot)).disk
            (some (inheritedPath "b" ["f"]))) := by
  intro hcond
  obtain ⟨hplain, hname, hsnap, _, _, _, _, _, _, hlists⟩ := besideSnapshot_run
  obtain ⟨hin, hchanged⟩ := besideSnapshot_changed
  exact not_reportsOnCommit hlists ((snapshot_conflict_reported_iff hplain.session hsnap hin
    .listed).mpr hcond (hname.symm ▸ hchanged))

theorem rewrittenSince_conflict :
    ¬ ConflictOnlyIf (stateAfter .bare rewrittenSince) .listed "b" ["g"]
      (BaseMoved .bare rewrittenSince "b" "main" ["g"]) := by
  intro honly
  obtain ⟨_, _, _, hbased, hview, _, hconflicts⟩ := rewrittenSince_run
  obtain ⟨o, m', hok, hpaths⟩ := ok_of_outcome_eq _ "b" _ hconflicts
  exact honly o m' hok (by rw [hpaths]; simp) _ hbased hview

end BranchFs
