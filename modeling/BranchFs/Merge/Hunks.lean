/-
# BranchFs.Merge.Hunks -- the text merge as two splices

Each side of a text merge is one splice of the base's lines, found by a scan from the front and one
from the back of what the first scan leaves. Two splices that do not overlap merge into both of them.

The overlap test admits two splices at the same line as soon as one of them is an insertion, but the
order of the two is then taken from their starts alone. With the insertion second, the lines between
them would be those from the end of the first back to its start, and that slice panics.
-/
import BranchFs.Logic.Splice
import BranchFs.Model.TextMerge

namespace BranchFs

open BranchFs.Posix BranchFs.Logic

section

variable {α : Type} [DecidableEq α] {l m : List α}

/-! ## The two scans -/

theorem commonPrefix_shared (l m : List α) :
    l.take (commonPrefix l m) = m.take (commonPrefix l m) := by
  induction l generalizing m with
  | nil => simp [commonPrefix]
  | cons a as ih =>
    cases m with
    | nil => simp [commonPrefix]
    | cons b bs =>
      rw [commonPrefix]
      split
      · next h => rw [h, List.take_succ_cons, List.take_succ_cons, ih]
      · rfl

theorem commonPrefix_le (l m : List α) :
    commonPrefix l m ≤ l.length ∧ commonPrefix l m ≤ m.length := by
  induction l generalizing m with
  | nil => simp [commonPrefix]
  | cons a as ih =>
    cases m with
    | nil => simp [commonPrefix]
    | cons b bs =>
      rw [commonPrefix]
      have := ih bs
      split
      · rw [List.length_cons, List.length_cons]
        omega
      · simp

/-- The first scan reaches the end of a list exactly when that list is a prefix of the other. -/
theorem commonPrefix_eq_length : commonPrefix l m = l.length ↔ l <+: m := by
  constructor
  · intro h
    have hshared := commonPrefix_shared l m
    rw [h, List.take_length] at hshared
    rw [hshared]
    exact List.take_prefix _ _
  · rintro ⟨rest, rfl⟩
    induction l with
    | nil => rfl
    | cons a as ih => rw [List.cons_append, commonPrefix, if_pos rfl, ih, List.length_cons]

/-- The second scan, over what the first one leaves. -/
def commonSuffix (l m : List α) : Nat := commonPrefix l.reverse m.reverse

theorem commonSuffix_le (l m : List α) :
    commonSuffix l m ≤ l.length ∧ commonSuffix l m ≤ m.length := by
  have := commonPrefix_le l.reverse m.reverse
  simpa [commonSuffix] using this

theorem commonSuffix_shared (l m : List α) :
    l.drop (l.length - commonSuffix l m) = m.drop (m.length - commonSuffix l m) := by
  have h := commonPrefix_shared l.reverse m.reverse
  rw [List.take_reverse, List.take_reverse] at h
  exact List.reverse_inj.mp h

theorem commonSuffix_eq_length : commonSuffix l m = l.length ↔ l <:+ m := by
  have hlen : l.length = l.reverse.length := List.length_reverse.symm
  unfold commonSuffix
  rw [hlen, commonPrefix_eq_length, List.reverse_prefix]

/-! ## A side as one splice -/

/-- What a side did to the base, as one splice. -/
def hunk (base changed : List α) : Splice α :=
  ⟨(changedRange base changed).1, (changedRange base changed).2.1,
    (changedRange base changed).2.2⟩

/-- The side inserts lines in one place and changes none: behind the lines it shares with the base
from the front, its end is the rest of the base. -/
def OnlyInserts (base changed : List α) : Prop :=
  base.drop (commonPrefix base changed) <:+ changed.drop (commonPrefix base changed)

/-- The lines a side that only inserts has inserted. -/
def insertedLines (base changed : List α) : List α :=
  (changed.drop (commonPrefix base changed)).take (changed.length - base.length)

instance (base changed : List α) : Decidable (OnlyInserts base changed) :=
  inferInstanceAs (Decidable (_ <:+ _))

variable (base changed : List α)

/-- The lines of the second scan. -/
def scannedBack : Nat :=
  commonSuffix (base.drop (commonPrefix base changed)) (changed.drop (commonPrefix base changed))

theorem hunk_eq : hunk base changed =
    ⟨commonPrefix base changed, base.length - scannedBack base changed,
      (changed.take (changed.length - scannedBack base changed)).drop
        (commonPrefix base changed)⟩ := rfl

theorem scans_le : commonPrefix base changed + scannedBack base changed ≤ base.length ∧
    commonPrefix base changed + scannedBack base changed ≤ changed.length := by
  have hfront := commonPrefix_le base changed
  have hback := commonSuffix_le (base.drop (commonPrefix base changed))
    (changed.drop (commonPrefix base changed))
  rw [List.length_drop, List.length_drop] at hback
  unfold scannedBack
  omega

theorem hunk_fits : (hunk base changed).Fits base := by
  have hle := scans_le base changed
  rw [hunk_eq]
  constructor
  · show commonPrefix base changed ≤ base.length - scannedBack base changed
    omega
  · show base.length - scannedBack base changed ≤ base.length
    omega

/-- What the second scan found is the end of both. -/
theorem scannedBack_shared : base.drop (base.length - scannedBack base changed) =
    changed.drop (changed.length - scannedBack base changed) := by
  have hle := scans_le base changed
  have h := commonSuffix_shared (base.drop (commonPrefix base changed))
    (changed.drop (commonPrefix base changed))
  rw [List.drop_drop, List.drop_drop, List.length_drop, List.length_drop] at h
  change base.drop (_ + (_ - _ - scannedBack base changed)) =
    changed.drop (_ + (_ - _ - scannedBack base changed)) at h
  have hb : commonPrefix base changed +
      (base.length - commonPrefix base changed - scannedBack base changed) =
      base.length - scannedBack base changed := by omega
  have hc : commonPrefix base changed +
      (changed.length - commonPrefix base changed - scannedBack base changed) =
      changed.length - scannedBack base changed := by omega
  rw [hb, hc] at h
  exact h

/-- **The splice of a side makes the side of the base.** -/
theorem hunk_apply : (hunk base changed).apply base = changed := by
  have hle := scans_le base changed
  rw [hunk_eq]
  show base.take _ ++ (changed.take _).drop _ ++ base.drop _ = changed
  rw [commonPrefix_shared, scannedBack_shared, List.append_assoc, Splice.drop_take_append _ (by omega),
    List.take_append_drop]

theorem onlyInserts_iff : OnlyInserts base changed ↔
    (hunk base changed).stop = (hunk base changed).start := by
  have hle := scans_le base changed
  rw [hunk_eq]
  show _ ↔ base.length - scannedBack base changed = commonPrefix base changed
  rw [OnlyInserts, ← commonSuffix_eq_length, List.length_drop]
  show scannedBack base changed = _ ↔ _
  omega

variable {base changed}

theorem OnlyInserts.put_eq (h : OnlyInserts base changed) :
    (hunk base changed).put = insertedLines base changed := by
  have hle := scans_le base changed
  have hstop := (onlyInserts_iff base changed).mp h
  rw [hunk_eq] at hstop ⊢
  change base.length - scannedBack base changed = commonPrefix base changed at hstop
  show (changed.take _).drop _ = _
  rw [insertedLines, List.drop_take]
  congr 1
  omega

end

/-! ## The merge of two splices -/

section

variable {s t : Splice Bytes} {lines : List Bytes}

theorem sliceLines_ok {α : Type} {lines : List α} {i j : Nat} (hij : i ≤ j) (hj : j ≤ lines.length) :
    sliceLines lines i j = .ok ((lines.take j).drop i) := if_pos ⟨hij, hj⟩

/-- The lines come out as the two splices leave them, and a panic is the second one starting before
the first one ends. -/
theorem spliceLines_eq (hs : s.Fits lines) (ht : t.Fits lines) :
    spliceLines lines s.start s.stop s.put t.start t.stop t.put =
      if s.stop ≤ t.start then .ok (Splice.both s t lines)
      else .error ⟨s.stop, t.start, lines.length⟩ := by
  have hstart := hs.ordered
  have hstop := hs.inside
  have hstart' := ht.ordered
  have hstop' := ht.inside
  unfold spliceLines
  rw [sliceLines_ok (Nat.zero_le _) (by omega)]
  split
  · next h =>
    rw [sliceLines_ok h (by omega), sliceLines_ok hstop' (Nat.le_refl _)]
    simp [bind, Except.bind, pure, Except.pure, Splice.both, Splice.between]
  · next h =>
    rw [sliceLines, if_neg fun hc => h hc.1]
    rfl

/-- The merge once both sides are splices of the base. -/
def mergeSplices (lines : List Bytes) (s t : Splice Bytes) : Except SlicePanic (Option Bytes) :=
  if ¬ (s.stop ≤ t.start ∨ t.stop ≤ s.start) then .ok none
  else if s.start ≤ t.start then
    if s.stop ≤ t.start then .ok (some (Splice.both s t lines).flatten)
    else .error ⟨s.stop, t.start, lines.length⟩
  else .ok (some (Splice.both t s lines).flatten)

theorem mergeSplices_eq (hs : s.Fits lines) (ht : t.Fits lines) :
    (if !(decide (s.stop ≤ t.start) || decide (t.stop ≤ s.start)) then
        (.ok none : Except SlicePanic (Option Bytes))
      else if s.start ≤ t.start then do
        let merged ← spliceLines lines s.start s.stop s.put t.start t.stop t.put
        pure (some merged.flatten)
      else do
        let merged ← spliceLines lines t.start t.stop t.put s.start s.stop s.put
        pure (some merged.flatten)) = mergeSplices lines s t := by
  have hordered := hs.ordered
  rw [spliceLines_eq hs ht, spliceLines_eq ht hs]
  simp only [mergeSplices, Bool.not_eq_true', Bool.or_eq_false_iff, decide_eq_false_iff_not,
    not_or]
  split
  · rfl
  · next hdisj =>
    split
    · split <;> rfl
    · next hstart =>
      -- the second side starts first, so it cannot be the one that comes second
      have hstop : t.stop ≤ s.start := by omega
      rw [if_pos hstop]
      rfl

end

/-- The three texts are pairwise different. -/
def Differ (base current session : Bytes) : Prop :=
  base ≠ current ∧ base ≠ session ∧ current ≠ session

/-- The three texts are UTF-8. -/
def AllText (base current session : Bytes) : Prop :=
  isUtf8 base = true ∧ isUtf8 current = true ∧ isUtf8 session = true

instance (base current session : Bytes) : Decidable (Differ base current session) :=
  inferInstanceAs (Decidable (_ ∧ _ ∧ _))

instance (base current session : Bytes) : Decidable (AllText base current session) :=
  inferInstanceAs (Decidable (_ ∧ _ ∧ _))

section

variable {base current session : Bytes}

/-- What the lines of a side did to the lines of the base. -/
def sideHunk (base side : Bytes) : Splice Bytes :=
  hunk (splitLinesKeepends base) (splitLinesKeepends side)

theorem sideHunk_fits (base side : Bytes) : (sideHunk base side).Fits (splitLinesKeepends base) :=
  hunk_fits _ _

theorem tryThreeWayTextMerge_hunks (hd : Differ base current session)
    (hu : AllText base current session) :
    tryThreeWayTextMerge base current session =
      mergeSplices (splitLinesKeepends base) (sideHunk base current) (sideHunk base session) := by
  unfold tryThreeWayTextMerge
  rw [if_neg hd.2.2, if_neg hd.1, if_neg hd.2.1, if_neg (by simp [hu.1, hu.2.1, hu.2.2])]
  exact mergeSplices_eq (sideHunk_fits base current) (sideHunk_fits base session)

/-- The other inputs: the side that did something is the answer, or there is none. -/
theorem tryThreeWayTextMerge_plain (h : ¬ (Differ base current session ∧
    AllText base current session)) : tryThreeWayTextMerge base current session =
      if current = session then .ok (some session)
      else if base = current then .ok (some session)
      else if base = session then .ok (some current)
      else .ok none := by
  unfold tryThreeWayTextMerge
  split
  · rfl
  · next hcs =>
    split
    · rfl
    · next hbc =>
      split
      · rfl
      · next hbs =>
        rw [if_pos]
        by_contra hu
        refine h ⟨⟨hbc, hbs, hcs⟩, ?_⟩
        simpa [AllText, and_assoc] using hu

/-! ## When the merge panics -/

theorem mergeSplices_ok_iff {s t : Splice Bytes} {lines : List Bytes} (hs : s.Fits lines)
    (ht : t.Fits lines) : (∃ answer, mergeSplices lines s t = .ok answer) ↔
      ¬ (s.start = t.start ∧ t.stop = t.start ∧ s.stop ≠ s.start) := by
  have hordered := hs.ordered
  have hordered' := ht.ordered
  unfold mergeSplices
  split
  · exact iff_of_true ⟨none, rfl⟩ (by omega)
  · split
    · split
      · exact iff_of_true ⟨_, rfl⟩ (by omega)
      · refine iff_of_false (fun h => ?_) (by omega)
        obtain ⟨answer, hanswer⟩ := h
        cases hanswer
    · exact iff_of_true ⟨_, rfl⟩ (by omega)

/-- The session only inserts lines, and the first line that the other side changed is the one they
stand in front of. -/
def InsertsBeforeChange (base current session : Bytes) : Prop :=
  commonPrefix (splitLinesKeepends base) (splitLinesKeepends current) =
      commonPrefix (splitLinesKeepends base) (splitLinesKeepends session) ∧
    OnlyInserts (splitLinesKeepends base) (splitLinesKeepends session) ∧
    ¬ OnlyInserts (splitLinesKeepends base) (splitLinesKeepends current)

instance (base current session : Bytes) : Decidable (InsertsBeforeChange base current session) :=
  inferInstanceAs (Decidable (_ ∧ _ ∧ _))

theorem insertsBeforeChange_iff : InsertsBeforeChange base current session ↔
    (sideHunk base current).start = (sideHunk base session).start ∧
      (sideHunk base session).stop = (sideHunk base session).start ∧
      (sideHunk base current).stop ≠ (sideHunk base current).start := by
  unfold InsertsBeforeChange
  rw [onlyInserts_iff, onlyInserts_iff]
  rfl

/-- **The text merge returns, and does not panic, on every three texts but these**: all three differ
and are UTF-8, and the session inserts lines right before lines the other side changed. -/
theorem text_merge_returns_iff (base current session : Bytes) :
    (∃ answer, tryThreeWayTextMerge base current session = .ok answer) ↔
      ¬ (Differ base current session ∧ AllText base current session ∧
        InsertsBeforeChange base current session) := by
  by_cases hmerge : Differ base current session ∧ AllText base current session
  · obtain ⟨hd, hu⟩ := hmerge
    rw [tryThreeWayTextMerge_hunks hd hu, mergeSplices_ok_iff (sideHunk_fits _ _) (sideHunk_fits _ _),
      insertsBeforeChange_iff]
    exact not_congr ⟨fun h => ⟨hd, hu, h⟩, fun h => h.2.2⟩
  · refine iff_of_true ?_ fun h => hmerge ⟨h.1, h.2.1⟩
    rw [tryThreeWayTextMerge_plain hmerge]
    repeat' split
    all_goals exact ⟨_, rfl⟩

/-- The text merge returns on every three texts. -/
def TextMergeReturns : Prop :=
  ∀ base current session : Bytes, ∃ answer, tryThreeWayTextMerge base current session = .ok answer

/-- `a b` with the first line changed on one side, and a line put in front of it on the other. -/
theorem not_textMergeReturns : ¬ TextMergeReturns := by
  intro h
  obtain ⟨answer, hanswer⟩ := h [97, 10, 98, 10] [88, 10, 98, 10] [110, 10, 97, 10, 98, 10]
  have hpanic : tryThreeWayTextMerge [97, 10, 98, 10] [88, 10, 98, 10] [110, 10, 97, 10, 98, 10] =
      .error ⟨1, 0, 2⟩ := by decide
  rw [hpanic] at hanswer
  cases hanswer

/-! ## When the order of the sides matters -/

/-- Two insertions at one place merge into one after the other. -/
theorem both_insertions {s t : Splice Bytes} {lines : List Bytes} (hstart : s.start = t.start)
    (hs : s.stop = s.start) (ht : t.stop = t.start) : (Splice.both s t lines).flatten =
      (lines.take s.start).flatten ++ (s.put.flatten ++ t.put.flatten) ++
        (lines.drop s.start).flatten := by
  have hbetween : Splice.between s t lines = [] := by
    unfold Splice.between
    rw [hs, ← hstart]
    exact List.drop_eq_nil_of_le (by rw [List.length_take]; omega)
  unfold Splice.both
  rw [hbetween, ht, ← hstart]
  simp only [List.flatten_append, List.append_nil, List.append_assoc]

/-- With different starts the earlier splice comes first, whichever side it is. -/
theorem mergeSplices_comm_of_lt {s t : Splice Bytes} {lines : List Bytes} (hs : s.Fits lines)
    (ht : t.Fits lines) (hlt : s.start < t.start) :
    mergeSplices lines s t = mergeSplices lines t s := by
  have hordered := hs.ordered
  have hordered' := ht.ordered
  unfold mergeSplices
  by_cases hdisj : s.stop ≤ t.start
  · rw [if_neg (by omega), if_pos (by omega), if_pos hdisj, if_neg (by omega), if_neg (by omega)]
  · rw [if_pos (by omega), if_pos (by omega)]

theorem mergeSplices_comm_iff {s t : Splice Bytes} {lines : List Bytes} (hs : s.Fits lines)
    (ht : t.Fits lines) : mergeSplices lines s t = mergeSplices lines t s ↔
      ¬ (s.start = t.start ∧ ((s.stop = s.start ∧ t.stop ≠ t.start) ∨
        (s.stop ≠ s.start ∧ t.stop = t.start) ∨
        (s.stop = s.start ∧ t.stop = t.start ∧
          s.put.flatten ++ t.put.flatten ≠ t.put.flatten ++ s.put.flatten))) := by
  have hordered := hs.ordered
  have hordered' := ht.ordered
  rcases Nat.lt_trichotomy s.start t.start with hlt | hstart | hgt
  · exact iff_of_true (mergeSplices_comm_of_lt hs ht hlt) fun h => hlt.ne h.1
  · by_cases hins : s.stop = s.start <;> by_cases hins' : t.stop = t.start
    · -- two insertions: both orders merge, and the texts differ by the order of what is put in
      have hst : mergeSplices lines s t = .ok (some (Splice.both s t lines).flatten) := by
        unfold mergeSplices
        rw [if_neg (by omega), if_pos (by omega), if_pos (by omega)]
      have hts : mergeSplices lines t s = .ok (some (Splice.both t s lines).flatten) := by
        unfold mergeSplices
        rw [if_neg (by omega), if_pos (by omega), if_pos (by omega)]
      have hsame : mergeSplices lines s t = mergeSplices lines t s ↔
          s.put.flatten ++ t.put.flatten = t.put.flatten ++ s.put.flatten := by
        rw [hst, hts, both_insertions hstart hins hins', both_insertions hstart.symm hins' hins,
          ← hstart, Except.ok.injEq, Option.some.injEq, List.append_cancel_right_eq,
          List.append_cancel_left_eq]
      rw [hsame]
      constructor
      · rintro hsame ⟨-, h | h | h⟩
        · exact h.2 hins'
        · exact h.1 hins
        · exact h.2.2 hsame
      · intro h
        by_contra hdiff
        exact h ⟨hstart, Or.inr (Or.inr ⟨hins, hins', hdiff⟩)⟩
    · -- one insertion: the merge that puts it second panics
      have hst : mergeSplices lines s t = .ok (some (Splice.both s t lines).flatten) := by
        unfold mergeSplices
        rw [if_neg (by omega), if_pos (by omega), if_pos (by omega)]
      have hts : mergeSplices lines t s = .error ⟨t.stop, s.start, lines.length⟩ := by
        unfold mergeSplices
        rw [if_neg (by omega), if_pos (by omega), if_neg (by omega)]
      rw [hst, hts]
      exact iff_of_false (fun h => by cases h) fun h => h ⟨hstart, Or.inl ⟨hins, hins'⟩⟩
    · have hst : mergeSplices lines s t = .error ⟨s.stop, t.start, lines.length⟩ := by
        unfold mergeSplices
        rw [if_neg (by omega), if_pos (by omega), if_neg (by omega)]
      have hts : mergeSplices lines t s = .ok (some (Splice.both t s lines).flatten) := by
        unfold mergeSplices
        rw [if_neg (by omega), if_pos (by omega), if_pos (by omega)]
      rw [hst, hts]
      exact iff_of_false (fun h => by cases h) fun h => h ⟨hstart, Or.inr (Or.inl ⟨hins, hins'⟩)⟩
    · -- two changes of the same line overlap
      have hst : mergeSplices lines s t = mergeSplices lines t s := by
        unfold mergeSplices
        rw [if_pos (by omega), if_pos (by omega)]
      refine iff_of_true hst ?_
      rintro ⟨-, h | h | h⟩
      · exact hins h.1
      · exact hins' h.2
      · exact hins h.1
  · refine iff_of_true (mergeSplices_comm_of_lt ht hs hgt).symm fun h => hgt.ne h.1.symm

/-- The two sides change the base from the same line on, and one of them only inserts there: either
the other one does not, or they insert texts that do not commute. -/
def OrderMatters (base x y : Bytes) : Prop :=
  let lines := splitLinesKeepends base
  let left := splitLinesKeepends x
  let right := splitLinesKeepends y
  commonPrefix lines left = commonPrefix lines right ∧
    ((OnlyInserts lines left ∧ ¬ OnlyInserts lines right) ∨
      (¬ OnlyInserts lines left ∧ OnlyInserts lines right) ∨
      (OnlyInserts lines left ∧ OnlyInserts lines right ∧
        (insertedLines lines left).flatten ++ (insertedLines lines right).flatten ≠
          (insertedLines lines right).flatten ++ (insertedLines lines left).flatten))

theorem orderMatters_iff {base x y : Bytes} : OrderMatters base x y ↔
    (sideHunk base x).start = (sideHunk base y).start ∧
      (((sideHunk base x).stop = (sideHunk base x).start ∧
          (sideHunk base y).stop ≠ (sideHunk base y).start) ∨
        ((sideHunk base x).stop ≠ (sideHunk base x).start ∧
          (sideHunk base y).stop = (sideHunk base y).start) ∨
        ((sideHunk base x).stop = (sideHunk base x).start ∧
          (sideHunk base y).stop = (sideHunk base y).start ∧
          (sideHunk base x).put.flatten ++ (sideHunk base y).put.flatten ≠
            (sideHunk base y).put.flatten ++ (sideHunk base x).put.flatten)) := by
  unfold OrderMatters
  simp only [ne_eq, ← onlyInserts_iff, sideHunk]
  refine and_congr Iff.rfl (or_congr Iff.rfl (or_congr Iff.rfl ?_))
  refine and_congr_right fun hx => and_congr_right fun hy => ?_
  rw [hx.put_eq, hy.put_eq]

theorem Differ.symm {base x y : Bytes} (h : Differ base x y) : Differ base y x :=
  ⟨h.2.1, h.1, h.2.2.symm⟩

theorem AllText.symm {base x y : Bytes} (h : AllText base x y) : AllText base y x :=
  ⟨h.1, h.2.2, h.2.1⟩

/-- **The text merge gives the same answer for both orders of the sides, unless** all three texts
differ and are UTF-8, and the order of the two matters. -/
theorem text_merge_symmetric_iff (base x y : Bytes) :
    tryThreeWayTextMerge base x y = tryThreeWayTextMerge base y x ↔
      ¬ (Differ base x y ∧ AllText base x y ∧ OrderMatters base x y) := by
  by_cases hmerge : Differ base x y ∧ AllText base x y
  · obtain ⟨hd, hu⟩ := hmerge
    rw [tryThreeWayTextMerge_hunks hd hu, tryThreeWayTextMerge_hunks hd.symm hu.symm,
      mergeSplices_comm_iff (sideHunk_fits _ _) (sideHunk_fits _ _), ← orderMatters_iff]
    exact not_congr ⟨fun h => ⟨hd, hu, h⟩, fun h => h.2.2⟩
  · refine iff_of_true ?_ fun h => hmerge ⟨h.1, h.2.1⟩
    have hmerge' : ¬ (Differ base y x ∧ AllText base y x) := fun h => hmerge ⟨h.1.symm, h.2.symm⟩
    rw [tryThreeWayTextMerge_plain hmerge, tryThreeWayTextMerge_plain hmerge']
    grind

/-- The text merge does not depend on which side comes first. -/
def TextMergeSymmetric : Prop :=
  ∀ base x y : Bytes, tryThreeWayTextMerge base x y = tryThreeWayTextMerge base y x

/-- `a` with `x` put in front of it on one side and `y` on the other. -/
theorem not_textMergeSymmetric : ¬ TextMergeSymmetric := by
  intro h
  have hboth := h [97, 10] [120, 10, 97, 10] [121, 10, 97, 10]
  have hxy : tryThreeWayTextMerge [97, 10] [120, 10, 97, 10] [121, 10, 97, 10] =
      .ok (some [120, 10, 121, 10, 97, 10]) := by decide
  have hyx : tryThreeWayTextMerge [97, 10] [121, 10, 97, 10] [120, 10, 97, 10] =
      .ok (some [121, 10, 120, 10, 97, 10]) := by decide
  rw [hxy, hyx] at hboth
  exact absurd hboth (by decide)

/-! ## What a clean merge keeps -/

/-- The lines of a base, of two sides that changed different parts of it, and of both changes. -/
def KeepsBothEdits (base first second merged : List Bytes) : Prop :=
  ∃ A B₁ C B₂ D R₁ R₂, base = A ++ B₁ ++ C ++ B₂ ++ D ∧ first = A ++ R₁ ++ C ++ B₂ ++ D ∧
    second = A ++ B₁ ++ C ++ R₂ ++ D ∧ merged = A ++ R₁ ++ C ++ R₂ ++ D

theorem keepsBothEdits_both {base x y : Bytes}
    (h : (sideHunk base x).stop ≤ (sideHunk base y).start) :
    KeepsBothEdits (splitLinesKeepends base) (splitLinesKeepends x) (splitLinesKeepends y)
      (Splice.both (sideHunk base x) (sideHunk base y) (splitLinesKeepends base)) := by
  obtain ⟨hbase, hx, hy⟩ := Splice.both_parts (sideHunk_fits base x) (sideHunk_fits base y) h
  have happly : (sideHunk base x).apply (splitLinesKeepends base) = splitLinesKeepends x :=
    hunk_apply _ _
  have happly' : (sideHunk base y).apply (splitLinesKeepends base) = splitLinesKeepends y :=
    hunk_apply _ _
  rw [happly] at hx
  rw [happly'] at hy
  exact ⟨_, _, _, _, _, _, _, hbase, hx, hy, rfl⟩

theorem mergeSplices_some {s t : Splice Bytes} {lines : List Bytes} {merged : Bytes}
    (hs : s.Fits lines) (h : mergeSplices lines s t = .ok (some merged)) :
    (s.stop ≤ t.start ∧ merged = (Splice.both s t lines).flatten) ∨
      (t.stop ≤ s.start ∧ merged = (Splice.both t s lines).flatten) := by
  have hordered := hs.ordered
  unfold mergeSplices at h
  split at h
  · cases h
  · next hdisj =>
    split at h
    · split at h
      · next hst =>
        cases h
        exact Or.inl ⟨hst, rfl⟩
      · cases h
    · next hstart =>
      cases h
      exact Or.inr ⟨by omega, rfl⟩

/-- **A clean merge of three different texts keeps both edits**, each in its place, and everything
between and around them. -/
theorem text_merge_keeps_both_edits (base current session merged : Bytes)
    (hd : Differ base current session)
    (h : tryThreeWayTextMerge base current session = .ok (some merged)) :
    AllText base current session ∧ ∃ lines, merged = lines.flatten ∧
      (KeepsBothEdits (splitLinesKeepends base) (splitLinesKeepends current)
          (splitLinesKeepends session) lines ∨
        KeepsBothEdits (splitLinesKeepends base) (splitLinesKeepends session)
          (splitLinesKeepends current) lines) := by
  have hu : AllText base current session := by
    by_contra hu
    rw [tryThreeWayTextMerge_plain fun hmerge => hu hmerge.2, if_neg hd.2.2, if_neg hd.1,
      if_neg hd.2.1] at h
    cases h
  refine ⟨hu, ?_⟩
  rw [tryThreeWayTextMerge_hunks hd hu] at h
  rcases mergeSplices_some (sideHunk_fits base current) h with ⟨hle, rfl⟩ | ⟨hle, rfl⟩
  · exact ⟨_, rfl, Or.inl (keepsBothEdits_both hle)⟩
  · exact ⟨_, rfl, Or.inr (keepsBothEdits_both hle)⟩

/-- Two files of three lines, one with the first line changed and one with the last. -/
theorem text_merge_keeps_both_edits_run :
    AllText [97, 10, 98, 10, 99] [88, 10, 98, 10, 99] [97, 10, 98, 10, 89] ∧
      ∃ lines, ([88, 10, 98, 10, 89] : Bytes) = lines.flatten ∧
      (KeepsBothEdits (splitLinesKeepends [97, 10, 98, 10, 99])
          (splitLinesKeepends [88, 10, 98, 10, 99]) (splitLinesKeepends [97, 10, 98, 10, 89]) lines ∨
        KeepsBothEdits (splitLinesKeepends [97, 10, 98, 10, 99])
          (splitLinesKeepends [97, 10, 98, 10, 89]) (splitLinesKeepends [88, 10, 98, 10, 99])
          lines) :=
  text_merge_keeps_both_edits _ _ _ _ (by decide) (by decide)

end

end BranchFs
