/-
# BranchFs.Model.TextMerge -- the three-way merge of text files

The merge works on lines that keep their newline. Each side is reduced to one changed range of the
base (`changedRange`), and the ranges are spliced when they do not overlap.
-/
import BranchFs.Model.Cow

namespace BranchFs

open BranchFs.Posix

/-- The bytes up to and including the first newline, and the rest. -/
def takeLine : Bytes → Bytes × Bytes
  | [] => ([], [])
  | c :: rest =>
    if c = 0x0A then ([c], rest)
    else ((c :: (takeLine rest).1), (takeLine rest).2)

/-- `split_lines_keepends`; each line takes at least one byte. -/
def splitLinesKeepends (text : Bytes) : List Bytes :=
  go text.length text
where
  go : Nat → Bytes → List Bytes
    | 0, _ => []
    | _ + 1, [] => []
    | n + 1, c :: rest => (takeLine (c :: rest)).1 :: go n (takeLine (c :: rest)).2

/-- The length of the longest common prefix. -/
def commonPrefix {α : Type} [DecidableEq α] : List α → List α → Nat
  | a :: as, b :: bs => if a = b then commonPrefix as bs + 1 else 0
  | _, _ => 0

/-- `changed_range`: where the base changed, and what stands there now. The common suffix is counted
in what the common prefix leaves. -/
def changedRange {α : Type} [DecidableEq α] (base changed : List α) : Nat × Nat × List α :=
  let pre := commonPrefix base changed
  let suffix := commonPrefix (base.drop pre).reverse (changed.drop pre).reverse
  (pre, base.length - suffix, (changed.take (changed.length - suffix)).drop pre)

/-- A slice that is out of range panics. -/
structure SlicePanic where
  start : Nat
  stop : Nat
  length : Nat
  deriving DecidableEq, Repr

/-- `lines[i..j]`. -/
def sliceLines {α : Type} (lines : List α) (i j : Nat) : Except SlicePanic (List α) :=
  if i ≤ j ∧ j ≤ lines.length then .ok ((lines.take j).drop i) else .error ⟨i, j, lines.length⟩

/-- The lines of the merge: the change at `start` first, then the other one. -/
def spliceLines (lines : List Bytes) (start stop : Nat) (put : List Bytes) (start' stop' : Nat)
    (put' : List Bytes) : Except SlicePanic (List Bytes) := do
  let before ← sliceLines lines 0 start
  let between ← sliceLines lines stop start'
  let rest ← sliceLines lines stop' lines.length
  pure (before ++ put ++ between ++ put' ++ rest)

/-- `try_three_way_text_merge`; the two branches of its last test are one with the sides swapped. -/
def tryThreeWayTextMerge (base current session : Bytes) : Except SlicePanic (Option Bytes) :=
  if current = session then .ok (some session)
  else if base = current then .ok (some session)
  else if base = session then .ok (some current)
  else if !(isUtf8 base && isUtf8 current && isUtf8 session) then .ok none
  else
    let baseLines := splitLinesKeepends base
    let (curStart, curEnd, curRepl) := changedRange baseLines (splitLinesKeepends current)
    let (sesStart, sesEnd, sesRepl) := changedRange baseLines (splitLinesKeepends session)
    if !(decide (curEnd ≤ sesStart) || decide (sesEnd ≤ curStart)) then .ok none
    else if curStart ≤ sesStart then do
      let merged ← spliceLines baseLines curStart curEnd curRepl sesStart sesEnd sesRepl
      pure (some merged.flatten)
    else do
      let merged ← spliceLines baseLines sesStart sesEnd sesRepl curStart curEnd curRepl
      pure (some merged.flatten)

end BranchFs
