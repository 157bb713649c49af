/-
# BranchFs.Store.Rewrite -- the tombstone snapshot, written while the old log is still there

`rewrite_tombstones` truncates the snapshot, writes the new set into it line by line, and only then
removes the log. A load in between replays the old log over a part of the new set: a path the log
names is as it was, whatever the snapshot says (`mem_loadTombstones`), and a path it does not name is
already there. So the old set is found until the first new path, and from then on a mixture.
-/
import BranchFs.Logic.Replay
import BranchFs.Store.Reload
import Mathlib.Data.Finset.Union

namespace BranchFs.Store

open BranchFs.Logic

/-! ## The log as verdicts -/

/-- A line of the tombstone log: a path comes in, or goes out. -/
def lineOp (line : Text) : Option (Bool × Text) :=
  if isBlank line then none
  else
    match "+ ".toList.isPrefixOf? line with
    | some path => some (true, path)
    | none =>
      match "- ".toList.isPrefixOf? line with
      | some path => some (false, path)
      | none => some (true, line)

theorem applyTombstone_eq (S : Finset Text) (line : Text) :
    applyTombstone S line =
      match lineOp line with
      | none => S
      | some (true, path) => insert path S
      | some (false, path) => S.erase path := by
  rw [applyTombstone, lineOp]
  cases isBlank line with
  | true => rfl
  | false =>
    cases "+ ".toList.isPrefixOf? line with
    | some path => rfl
    | none => cases "- ".toList.isPrefixOf? line <;> rfl

/-- What a line of the tombstone log says of a path. -/
def tombstoneVerdict (line path : Text) : Option Bool :=
  (lineOp line).bind fun op => if path = op.2 then some op.1 else none

theorem applyTombstone_pointwise : Pointwise applyTombstone tombstoneVerdict := by
  intro S line path
  rw [applyTombstone_eq, tombstoneVerdict]
  match lineOp line with
  | none => simp
  | some (true, p) => by_cases h : path = p <;> simp [h]
  | some (false, p) => by_cases h : path = p <;> simp [h]

theorem tombstoneVerdict_ne_none {line path : Text} :
    tombstoneVerdict line path ≠ none ↔ (lineOp line).map Prod.snd = some path := by
  rw [tombstoneVerdict]
  match lineOp line with
  | none => simp
  | some op => simp [eq_comm]

/-- The paths the tombstone log has a line about. -/
def loggedPaths (f : BranchFiles) : Finset Text :=
  ((lines (f.tombstonesLog.getD [])).filterMap fun line => (lineOp line).map Prod.snd).toFinset

theorem mem_loggedPaths {f : BranchFiles} {path : Text} :
    path ∈ loggedPaths f ↔
      Names tombstoneVerdict (lines (f.tombstonesLog.getD [])) path := by
  rw [loggedPaths, List.mem_toFinset, List.mem_filterMap]
  simp only [Names, tombstoneVerdict_ne_none]

/-- A load is the log's own set and what the snapshot adds to it where the log is silent. -/
theorem mem_loadTombstones {f : BranchFiles} {path : Text} :
    path ∈ loadTombstones f ↔ path ∈ loadTombstones { f with tombstones := none } ∨
      path ∈ snapshotPaths f.tombstones ∧ path ∉ loggedPaths f := by
  rw [loadTombstones, mem_replay_from applyTombstone_pointwise, List.mem_toFinset, mem_loggedPaths]
  rfl

/-- What the log adds on its own, it names. -/
theorem mem_loggedPaths_of_load {f : BranchFiles} {path : Text}
    (h : path ∈ loadTombstones { f with tombstones := none }) : path ∈ loggedPaths f :=
  mem_loggedPaths.mpr (names_of_mem_replay applyTombstone_pointwise h)

/-! ## The snapshot as it is read back -/

/-- A path that a line of the snapshot can hold. -/
def Writable (path : Text) : Prop := LineSafe path ∧ isBlank path = false

instance (path : Text) : Decidable (Writable path) := inferInstanceAs (Decidable (_ ∧ _))

/-- The paths that are read where a set was written. -/
def readBack (S : Finset Text) : Finset Text :=
  S.biUnion fun path => (snapshotPaths (some (path ++ ['\n']))).toFinset

theorem mem_snapshotPaths_unlines {paths : List Text} {path : Text} :
    path ∈ snapshotPaths (some (unlines paths)) ↔
      ∃ p ∈ paths, path ∈ snapshotPaths (some (p ++ ['\n'])) := by
  simp only [snapshotPaths, Option.getD_some, lines_unlines_flatMap, List.mem_filter,
    List.mem_flatMap]
  constructor
  · rintro ⟨⟨p, hp, hread⟩, hblank⟩
    exact ⟨p, hp, hread, hblank⟩
  · rintro ⟨p, hp, hread, hblank⟩
    exact ⟨⟨p, hp, hread⟩, hblank⟩

theorem mem_readBack (order : HashIter) {S : Finset Text} {path : Text} :
    path ∈ readBack S ↔ path ∈ snapshotPaths (some (unlines (order.iter S))) := by
  simp only [readBack, Finset.mem_biUnion, List.mem_toFinset, mem_snapshotPaths_unlines,
    order.mem_iter]

/-- A path a line can hold is read for itself. -/
theorem snapshotPaths_writable {path : Text} (h : Writable path) :
    snapshotPaths (some (path ++ ['\n'])) = [path] := by
  have hall : ∀ p ∈ [path], LineSafe p ∧ isBlank p = false := by
    intro p hp
    rw [List.mem_singleton.mp hp]
    exact h
  have hone := snapshotPaths_unlines hall
  simpa [unlines] using hone

/-- A set is read back as it was written exactly when every path fits on a line. -/
theorem readBack_eq_self_iff {S : Finset Text} : readBack S = S ↔ ∀ path ∈ S, Writable path := by
  constructor
  · intro h
    have hread : ∀ path ∈ S, '\n' ∉ path ∧ isBlank path = false ∧ ∃ p ∈ S,
        path ∈ lines (p ++ ['\n']) := by
      intro path hpath
      rw [← h, readBack, Finset.mem_biUnion] at hpath
      obtain ⟨p, hp, hpath⟩ := hpath
      rw [List.mem_toFinset, snapshotPaths, Option.getD_some, List.mem_filter] at hpath
      exact ⟨notMem_of_mem_lines hpath.1, by simpa using hpath.2, p, hp, hpath.1⟩
    intro path hpath
    obtain ⟨hnl, hblank, -⟩ := hread path hpath
    refine ⟨⟨hnl, ?_⟩, hblank⟩
    intro hcr
    -- the longest path with a `\r` at its end cannot have been read from a line of the set
    obtain ⟨top, htop, hmax⟩ := (S.filter fun p => p.getLast? = some '\r').exists_max_image
      List.length ⟨path, Finset.mem_filter.mpr ⟨hpath, hcr⟩⟩
    obtain ⟨htop, htopcr⟩ := Finset.mem_filter.mp htop
    obtain ⟨-, -, p, hp, hline⟩ := hread top htop
    rw [lines_chompEnd (hread p hp).1, List.mem_singleton] at hline
    rcases chompEnd_cases p with ⟨heq, hsafe⟩ | heq
    · rw [heq] at hline
      exact hsafe (hline ▸ htopcr)
    · have hpcr : p.getLast? = some '\r' := by rw [heq, List.getLast?_concat]
      have hle := hmax p (Finset.mem_filter.mpr ⟨hp, hpcr⟩)
      rw [heq, List.length_append, ← hline, List.length_singleton] at hle
      omega
  · intro h
    rw [readBack]
    have hone : ∀ path ∈ S, (snapshotPaths (some (path ++ ['\n']))).toFinset = {path} := by
      intro path hpath
      rw [snapshotPaths_writable (h path hpath)]
      rfl
    rw [Finset.biUnion_congr rfl hone, Finset.biUnion_singleton_eq_self]

/-! ## The rewrite, effect by effect -/

/-- The files after each effect of `Branch::rewrite_tombstones`: the snapshot truncated, then one more
line each, then the log removed. -/
def rewriteTombstones (order : HashIter) (tombstones : Finset Text) (f : BranchFiles) :
    List BranchFiles :=
  (order.iter tombstones).inits.map (fun written => { f with tombstones := some (unlines written) })
    ++ [{ f with tombstones := some (unlines (order.iter tombstones)), tombstonesLog := none }]

/-- The last effect leaves what `set_tombstones` leaves. -/
theorem rewriteTombstones_last (order : HashIter) (tombstones : Finset Text) (b : Branch) :
    (rewriteTombstones order tombstones b.files).getLast? =
      some (b.setTombstones order tombstones).files := by
  rw [rewriteTombstones, List.getLast?_concat]
  rfl

/-- Whatever effect was the last one, the old set is loaded or the new one. -/
def CrashAtomic (order : HashIter) (tombstones : Finset Text) (f : BranchFiles) : Prop :=
  ∀ g ∈ rewriteTombstones order tombstones f,
    loadTombstones g = loadTombstones f ∨ loadTombstones g = tombstones

/-- The snapshot is empty: the log holds the whole set. -/
def Migrated (f : BranchFiles) : Prop := snapshotPaths f.tombstones = []

variable {order : HashIter} {tombstones : Finset Text} {f : BranchFiles}

theorem Migrated.load (h : Migrated f) :
    loadTombstones f = loadTombstones { f with tombstones := none } := by
  ext path
  rw [mem_loadTombstones, h]
  simp

theorem Migrated.logged (h : Migrated f) {path : Text} (hpath : path ∈ loadTombstones f) :
    path ∈ loggedPaths f := mem_loggedPaths_of_load (h.load ▸ hpath)

/-- While the log is there, a part of the new set adds the paths the log does not name. -/
theorem Migrated.mem_load_part (h : Migrated f) {written : List Text} {path : Text} :
    path ∈ loadTombstones { f with tombstones := some (unlines written) } ↔
      path ∈ loadTombstones f ∨
        path ∈ snapshotPaths (some (unlines written)) ∧ path ∉ loggedPaths f := by
  rw [mem_loadTombstones, h.load]
  rfl

theorem load_rewritten : loadTombstones { f with
      tombstones := some (unlines (order.iter tombstones)), tombstonesLog := none } =
    readBack tombstones := by
  ext path
  rw [mem_readBack order, loadTombstones]
  exact List.mem_toFinset

/-- The effects one by one: the parts of the new set, and the whole of it without the log. -/
theorem crashAtomic_iff_parts : CrashAtomic order tombstones f ↔
    (∀ written, written <+: order.iter tombstones →
      loadTombstones { f with tombstones := some (unlines written) } = loadTombstones f ∨
        loadTombstones { f with tombstones := some (unlines written) } = tombstones) ∧
    (readBack tombstones = loadTombstones f ∨ readBack tombstones = tombstones) := by
  simp only [CrashAtomic, rewriteTombstones, List.mem_append, List.mem_map, List.mem_inits,
    List.mem_singleton, or_imp, forall_and, forall_exists_index, and_imp, forall_apply_eq_imp_iff₂,
    forall_eq, load_rewritten]

/-- A rewrite of any migrated store can be interrupted anywhere. -/
def RewriteIsCrashAtomic : Prop :=
  ∀ (order : HashIter) (tombstones : Finset Text) (f : BranchFiles), Migrated f →
    CrashAtomic order tombstones f

/-- A rewrite can be interrupted anywhere exactly when what it writes reads back as the old set, or
when its paths fit on lines and it brings at most one path the log does not name, and that one alone. -/
theorem crash_atomic_iff (hmigrated : Migrated f) : CrashAtomic order tombstones f ↔
    readBack tombstones = loadTombstones f ∨
      (∀ path ∈ tombstones, Writable path) ∧ (tombstones ⊆ loggedPaths f ∨
        ∃ path, path ∉ loggedPaths f ∧ tombstones = insert path (loadTombstones f)) := by
  rw [crashAtomic_iff_parts]
  constructor
  · rintro ⟨hparts, hlast⟩
    rcases hlast with hold | hnew
    · exact Or.inl hold
    · right
      have hfit := readBack_eq_self_iff.mp hnew
      refine ⟨hfit, ?_⟩
      by_cases hsub : tombstones ⊆ loggedPaths f
      · exact Or.inl hsub
      · right
        -- the first path written that the log does not name
        obtain ⟨path, hfirst⟩ : ∃ path,
            (order.iter tombstones).find? (fun p => p ∉ loggedPaths f) = some path := by
          rw [← Option.isSome_iff_exists, List.find?_isSome]
          obtain ⟨p, hp, hpl⟩ := Finset.not_subset.mp hsub
          exact ⟨p, (order.mem_iter _ p).mpr hp, by simpa using hpl⟩
        obtain ⟨hpath, before, after, hiter, hbefore⟩ := List.find?_eq_some_iff_append.mp hfirst
        rw [decide_eq_true_eq] at hpath
        refine ⟨path, hpath, ?_⟩
        have hwrit : ∀ p ∈ before ++ [path], Writable p := by
          intro p hp
          apply hfit p
          rw [← order.mem_iter, hiter]
          rw [← List.singleton_append, ← List.append_assoc]
          exact List.mem_append_left _ hp
        have hload : loadTombstones { f with tombstones := some (unlines (before ++ [path])) } =
            insert path (loadTombstones f) := by
          ext p
          rw [hmigrated.mem_load_part, snapshotPaths_unlines hwrit, Finset.mem_insert,
            List.mem_append, List.mem_singleton]
          constructor
          · rintro (hp | ⟨hp | rfl, hpl⟩)
            · exact Or.inr hp
            · have hnamed := hbefore p hp
              simp only [Bool.not_eq_true', decide_eq_false_iff_not, not_not] at hnamed
              exact absurd hnamed hpl
            · exact Or.inl rfl
          · rintro (rfl | hp)
            · exact Or.inr ⟨Or.inr rfl, hpath⟩
            · exact Or.inl hp
        have hprefix : before ++ [path] <+: order.iter tombstones := by
          rw [hiter]
          exact ⟨after, by simp⟩
        rcases hparts _ hprefix with hsame | hdone
        · have hin : path ∈ loadTombstones f := hsame ▸ hload ▸ Finset.mem_insert_self _ _
          exact absurd (hmigrated.logged hin) hpath
        · rw [← hdone, hload]
  · intro hcond
    have hread : ∀ written, written <+: order.iter tombstones →
        ∀ path ∈ snapshotPaths (some (unlines written)), path ∈ readBack tombstones := by
      intro written hprefix path hpath
      rw [mem_readBack order, mem_snapshotPaths_unlines]
      obtain ⟨p, hp, hpath⟩ := mem_snapshotPaths_unlines.mp hpath
      exact ⟨p, hprefix.subset hp, hpath⟩
    rcases hcond with hold | ⟨hfit, hone⟩
    · refine ⟨fun written hprefix => Or.inl ?_, Or.inl hold⟩
      ext path
      rw [hmigrated.mem_load_part]
      constructor
      · rintro (hp | ⟨hp, -⟩)
        · exact hp
        · exact hold ▸ hread written hprefix path hp
      · exact Or.inl
    · have hself := readBack_eq_self_iff.mpr hfit
      refine ⟨fun written hprefix => ?_, Or.inr hself⟩
      rcases hone with hsub | ⟨new, hnew, hset⟩
      · left
        ext path
        rw [hmigrated.mem_load_part]
        constructor
        · rintro (hp | ⟨hp, hpl⟩)
          · exact hp
          · exact absurd (hsub (hself ▸ hread written hprefix path hp)) hpl
        · exact Or.inl
      · -- the new path is written yet, or it is not
        by_cases hthere : new ∈ snapshotPaths (some (unlines written))
        · right
          ext path
          rw [hmigrated.mem_load_part, hset, Finset.mem_insert]
          constructor
          · rintro (hp | ⟨hp, -⟩)
            · exact Or.inr hp
            · have hin := hread written hprefix path hp
              rw [hself, hset] at hin
              exact Finset.mem_insert.mp hin
          · rintro (rfl | hp)
            · exact Or.inr ⟨hthere, hnew⟩
            · exact Or.inl hp
        · left
          ext path
          rw [hmigrated.mem_load_part]
          constructor
          · rintro (hp | ⟨hp, hpl⟩)
            · exact hp
            · have hin := hread written hprefix path hp
              rw [hself, hset] at hin
              rcases Finset.mem_insert.mp hin with rfl | hin
              · exact absurd hp hthere
              · exact hin
          · exact Or.inl

/-- A log with one deletion. -/
def oneDeleted : BranchFiles :=
  { BranchFiles.fresh with tombstones := some [], tombstonesLog := some "+ /x\n".toList }

/-- One more deletion is written in one effect: before it the old set is loaded, after it the new. -/
theorem crash_atomic_one_more : CrashAtomic ⟨Finset.toList, fun _ _ => Finset.mem_toList⟩
    {"/x".toList, "/y".toList} oneDeleted := by
  apply (crash_atomic_iff (f := oneDeleted) rfl).mpr
  right
  exact ⟨by decide, Or.inr ⟨"/y".toList, by decide, by decide⟩⟩

/-- Where `/x` comes back and `/y` goes, a crash before the log is removed finds both deleted. -/
theorem not_rewriteIsCrashAtomic : ¬ RewriteIsCrashAtomic := by
  intro h
  have hcrash := h ⟨Finset.toList, fun _ _ => Finset.mem_toList⟩ {"/y".toList} oneDeleted rfl
  have hboth := (crashAtomic_iff_parts.mp hcrash).1 ["/y".toList] (by simp)
  revert hboth
  decide

end BranchFs.Store
