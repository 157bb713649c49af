/-
# BranchFs.Merge.Scan -- the range of a side, index by index

`changed_range` as the code runs it: two loops that read both line lists by index, the second one from the
ends and bounded by what the first one left in the shorter list, and three subtractions of lengths. Every
read and every subtraction is checked here. None of them fails, the loops count what `changedRange` counts
(`changedRangeScan_eq`), and the range is an edit that leaves no shared line at either of its ends.
-/
import BranchFs.Merge.Hunks

namespace BranchFs

open BranchFs.Logic

/-- What can go wrong with indices. -/
inductive ScanPanic where
  | index (i length : Nat)
  | underflow (a b : Nat)
  | slice (panic : SlicePanic)
  deriving DecidableEq, Repr

section Loops

variable {α : Type}

/-- `lines[i]`. -/
def readLine (lines : List α) (i : Nat) : Except ScanPanic α :=
  match lines[i]? with
  | some a => .ok a
  | none => .error (.index i lines.length)

/-- `a - b` of lengths. -/
def minus (a b : Nat) : Except ScanPanic Nat := if b ≤ a then .ok (a - b) else .error (.underflow a b)

variable [DecidableEq α]

/-- The loop from the front. -/
def scanFront (base changed : List α) (pre : Nat) : Except ScanPanic Nat :=
  if pre < base.length ∧ pre < changed.length then do
    let a ← readLine base pre
    let b ← readLine changed pre
    if a = b then scanFront base changed (pre + 1) else pure pre
  else pure pre
termination_by base.length - pre

/-- The loop from the back. -/
def scanBack (base changed : List α) (pre suffix : Nat) : Except ScanPanic Nat :=
  if suffix < base.length - pre ∧ suffix < changed.length - pre then do
    let a ← readLine base (← minus (← minus base.length 1) suffix)
    let b ← readLine changed (← minus (← minus changed.length 1) suffix)
    if a = b then scanBack base changed pre (suffix + 1) else pure suffix
  else pure suffix
termination_by base.length - pre - suffix

/-- `changed_range`. -/
def changedRangeScan (base changed : List α) : Except ScanPanic (Nat × Nat × List α) := do
  let pre ← scanFront base changed 0
  let suffix ← scanBack base changed pre 0
  let baseEnd ← minus base.length suffix
  let changedEnd ← minus changed.length suffix
  let repl ← (sliceLines changed pre changedEnd).mapError .slice
  pure (pre, baseEnd, repl)

end Loops

/-! ## What the loops count -/

section Count

variable {α : Type} {base changed l m : List α} {a b : α} {i pre suffix : Nat}

theorem ok_bind {ε β γ : Type} (x : β) (f : β → Except ε γ) : ((.ok x : Except ε β) >>= f) = f x := rfl

theorem readLine_ok (h : l[i]? = some a) : readLine l i = .ok a := by
  unfold readLine
  rw [h]

theorem minus_ok {j k : Nat} (h : k ≤ j) : minus j k = .ok (j - k) := if_pos h

theorem exists_line (h : i < l.length) : ∃ a, l[i]? = some a := ⟨l[i], List.getElem?_eq_getElem h⟩

/-- Counted from the back, behind a front that is left out. -/
theorem getElem?_fromBack (h : suffix < l.length - pre) :
    (l.drop pre).reverse[suffix]? = l[l.length - 1 - suffix]? := by
  have hlt : suffix < (l.drop pre).length := by
    rw [List.length_drop]
    exact h
  rw [List.getElem?_reverse hlt, List.getElem?_drop, List.length_drop]
  congr 1
  omega

variable [DecidableEq α]

/-- One more line of the common prefix. -/
theorem commonPrefix_drop (hl : l[i]? = some a) (hm : m[i]? = some b) :
    commonPrefix (l.drop i) (m.drop i) =
      if a = b then commonPrefix (l.drop (i + 1)) (m.drop (i + 1)) + 1 else 0 := by
  obtain ⟨hil, rfl⟩ := List.getElem?_eq_some_iff.mp hl
  obtain ⟨him, rfl⟩ := List.getElem?_eq_some_iff.mp hm
  rw [List.drop_eq_getElem_cons hil, List.drop_eq_getElem_cons him, commonPrefix]

/-- Where one list is used up, nothing more is shared. -/
theorem commonPrefix_done (h : ¬ (i < l.length ∧ i < m.length)) :
    commonPrefix (l.drop i) (m.drop i) = 0 := by
  have hle := commonPrefix_le (l.drop i) (m.drop i)
  rw [List.length_drop, List.length_drop] at hle
  omega

/-- The loop goes on by the lines that are shared from where it is. -/
theorem scanFront_eq (base changed : List α) (pre : Nat) : scanFront base changed pre =
    .ok (pre + commonPrefix (base.drop pre) (changed.drop pre)) := by
  induction pre using scanFront.induct base changed with
  | case1 pre h ih =>
    obtain ⟨a, ha⟩ := exists_line h.1
    obtain ⟨b, hb⟩ := exists_line h.2
    rw [scanFront, if_pos h, readLine_ok ha, ok_bind, readLine_ok hb, ok_bind, commonPrefix_drop ha hb]
    split
    · rw [ih]
      congr 1
      omega
    · rfl
  | case2 pre h =>
    rw [scanFront, if_neg h, commonPrefix_done h]
    rfl

theorem scanBack_eq (base changed : List α) (pre suffix : Nat) : scanBack base changed pre suffix =
    .ok (suffix + commonPrefix ((base.drop pre).reverse.drop suffix)
      ((changed.drop pre).reverse.drop suffix)) := by
  induction suffix using scanBack.induct base changed pre with
  | case1 suffix h ih =>
    obtain ⟨hbase, hchanged⟩ := h
    obtain ⟨a, ha⟩ := exists_line (show base.length - 1 - suffix < base.length by omega)
    obtain ⟨b, hb⟩ := exists_line (show changed.length - 1 - suffix < changed.length by omega)
    have hback := (getElem?_fromBack hbase).trans ha
    have hback' := (getElem?_fromBack hchanged).trans hb
    rw [scanBack, if_pos ⟨hbase, hchanged⟩, commonPrefix_drop hback hback']
    -- the two indices exist, as either list has a line left that neither loop has counted
    rw [minus_ok (show 1 ≤ base.length by omega), ok_bind,
      minus_ok (show suffix ≤ base.length - 1 by omega), ok_bind, readLine_ok ha, ok_bind,
      minus_ok (show 1 ≤ changed.length by omega), ok_bind,
      minus_ok (show suffix ≤ changed.length - 1 by omega), ok_bind, readLine_ok hb, ok_bind]
    split
    · rw [ih]
      congr 1
      omega
    · rfl
  | case2 suffix h =>
    rw [scanBack, if_neg h, commonPrefix_done]
    · rfl
    · rw [List.length_reverse, List.length_reverse, List.length_drop, List.length_drop]
      exact h

/-- **The loops never leave the lists**, and find the range. -/
theorem changedRangeScan_eq (base changed : List α) :
    changedRangeScan base changed = .ok (changedRange base changed) := by
  have hle := scans_le base changed
  have hfront : scanFront base changed 0 = .ok (commonPrefix base changed) := by
    rw [scanFront_eq, Nat.zero_add]
    rfl
  have hback : scanBack base changed (commonPrefix base changed) 0 = .ok (scannedBack base changed) := by
    rw [scanBack_eq, Nat.zero_add]
    rfl
  unfold changedRangeScan
  rw [hfront, ok_bind, hback, ok_bind, minus_ok (show scannedBack base changed ≤ base.length by omega),
    ok_bind, minus_ok (show scannedBack base changed ≤ changed.length by omega), ok_bind,
    sliceLines_ok (show commonPrefix base changed ≤ changed.length - scannedBack base changed by omega)
      (Nat.sub_le _ _)]
  rfl

/-! ## A tight edit -/

/-- The scan has ended where both lists have a line only if these lines differ. -/
theorem commonPrefix_stops (hl : l[commonPrefix l m]? = some a) : m[commonPrefix l m]? ≠ some a := by
  induction l generalizing m with
  | nil => simp at hl
  | cons c cs ih =>
    cases m with
    | nil => simp
    | cons d ds =>
      rw [commonPrefix] at hl ⊢
      split
      · next h =>
        rw [if_pos h, List.getElem?_cons_succ] at hl
        rw [List.getElem?_cons_succ]
        exact ih hl
      · next h =>
        rw [if_neg h] at hl
        intro hd
        apply h
        rw [List.getElem?_cons_zero, Option.some.injEq] at hl hd
        rw [hl, hd]

/-- The lines a side has instead start behind what it shares with the base. -/
theorem hunk_put_getElem? (base changed : List α) (i : Nat)
    (h : commonPrefix base changed + i < changed.length - scannedBack base changed) :
    (hunk base changed).put[i]? = changed[commonPrefix base changed + i]? := by
  rw [hunk_eq]
  show ((changed.take _).drop _)[i]? = _
  rw [List.getElem?_drop, List.getElem?_take, if_pos h]

theorem length_hunk_put (base changed : List α) : (hunk base changed).put.length =
    changed.length - scannedBack base changed - commonPrefix base changed := by
  rw [hunk_eq]
  show ((changed.take _).drop _).length = _
  rw [List.length_drop, List.length_take]
  omega

/-- A change that takes lines away and puts others takes no line away that it puts back first. -/
theorem hunk_first (hput : (hunk base changed).put ≠ []) (hcut : (hunk base changed).start <
    (hunk base changed).stop) : base[(hunk base changed).start]? ≠ (hunk base changed).put.head? := by
  have hpos := List.length_pos_iff.mpr hput
  rw [length_hunk_put] at hpos
  have hlt : commonPrefix base changed < base.length := by
    have hfits := (hunk_fits base changed).inside
    change commonPrefix base changed < (hunk base changed).stop at hcut
    omega
  obtain ⟨a, ha⟩ := exists_line hlt
  rw [List.head?_eq_getElem?, hunk_put_getElem? base changed 0 (by omega)]
  show base[commonPrefix base changed]? ≠ changed[commonPrefix base changed]?
  rw [ha]
  exact (commonPrefix_stops ha).symm

/-- Nor last. -/
theorem hunk_last (hput : (hunk base changed).put ≠ []) (hcut : (hunk base changed).start <
    (hunk base changed).stop) :
    base[(hunk base changed).stop - 1]? ≠ (hunk base changed).put.getLast? := by
  have hpos := List.length_pos_iff.mpr hput
  rw [length_hunk_put] at hpos
  change commonPrefix base changed < base.length - scannedBack base changed at hcut
  have hbase := getElem?_fromBack (show scannedBack base changed < base.length -
    commonPrefix base changed by omega)
  have hchanged := getElem?_fromBack (show scannedBack base changed < changed.length -
    commonPrefix base changed by omega)
  obtain ⟨a, ha⟩ := exists_line (show base.length - 1 - scannedBack base changed < base.length by omega)
  have hstop := commonPrefix_stops (hbase.trans ha)
  change (changed.drop (commonPrefix base changed)).reverse[scannedBack base changed]? ≠ some a at hstop
  rw [hchanged] at hstop
  rw [List.getLast?_eq_getElem?, length_hunk_put, hunk_put_getElem? base changed _ (by omega)]
  show base[base.length - scannedBack base changed - 1]? ≠ _
  have hi : base.length - scannedBack base changed - 1 = base.length - 1 - scannedBack base changed := by
    omega
  have hj : commonPrefix base changed +
      (changed.length - scannedBack base changed - commonPrefix base changed - 1) =
      changed.length - 1 - scannedBack base changed := by omega
  rw [hi, hj, ha]
  exact hstop.symm

/-- **`changed_range` is a correct and tight edit.** It never reads outside the lists; the lines between
`s` and `e` are replaced to give the changed lines; and where lines are replaced by lines, neither the
first two nor the last two of them agree. -/
theorem changedRange_tight (base changed : List α) :
    ∃ s e repl, changedRangeScan base changed = .ok (s, e, repl) ∧ s ≤ e ∧ e ≤ base.length ∧
      base.take s ++ repl ++ base.drop e = changed ∧
      (s < e → repl ≠ [] → base[s]? ≠ repl.head? ∧ base[e - 1]? ≠ repl.getLast?) := by
  have hfits := hunk_fits base changed
  refine ⟨(hunk base changed).start, (hunk base changed).stop, (hunk base changed).put,
    changedRangeScan_eq base changed, hfits.ordered, hfits.inside, hunk_apply base changed, ?_⟩
  intro hcut hput
  exact ⟨hunk_first hput hcut, hunk_last hput hcut⟩

/-- A repeated line that the front scan has counted is not counted again from the back. -/
example : changedRangeScan ["a", "b", "b"] ["a", "b"] = .ok (2, 3, []) := by
  rw [changedRangeScan_eq]
  rfl

end Count

end BranchFs
