/-
# BranchFs.Logic.Splice -- replacing ranges of a list

A splice puts a list in the place of a range. `both` applies two splices whose ranges do not
overlap, the first one first; it is what either splice makes of the list, with the other one left in
it, and each part of the list that neither touches is still there once.
-/
import Mathlib.Data.List.Basic

namespace BranchFs.Logic

variable {α : Type}

/-- `put` in the place of the entries from `start` up to `stop`. -/
structure Splice (α : Type) where
  start : Nat
  stop : Nat
  put : List α
  deriving DecidableEq

namespace Splice

/-- The range is one of the list. -/
structure Fits (s : Splice α) (l : List α) : Prop where
  ordered : s.start ≤ s.stop
  inside : s.stop ≤ l.length

def apply (s : Splice α) (l : List α) : List α := l.take s.start ++ s.put ++ l.drop s.stop

/-- What the range holds. -/
def cut (s : Splice α) (l : List α) : List α := (l.take s.stop).drop s.start

/-- The entries between two ranges. -/
def between (s t : Splice α) (l : List α) : List α := (l.take t.start).drop s.stop

/-- Both splices, `s` before `t`. -/
def both (s t : Splice α) (l : List α) : List α :=
  l.take s.start ++ s.put ++ between s t l ++ t.put ++ l.drop t.stop

variable {s t : Splice α} {l : List α}

theorem drop_take_append (l : List α) {i j : Nat} (h : i ≤ j) :
    (l.take j).drop i ++ l.drop j = l.drop i := by
  have hsplit : l.drop i = (l.drop i).take (j - i) ++ (l.drop i).drop (j - i) :=
    (List.take_append_drop _ _).symm
  rw [hsplit, List.drop_drop, List.drop_take]
  congr 2
  omega

theorem Fits.split (h : s.Fits l) : l = l.take s.start ++ s.cut l ++ l.drop s.stop := by
  unfold cut
  rw [List.append_assoc, drop_take_append l h.ordered, List.take_append_drop]

/-- The rest of the list behind the first of two ranges. -/
theorem drop_split (ht : t.Fits l) (h : s.stop ≤ t.start) :
    l.drop s.stop = between s t l ++ t.cut l ++ l.drop t.stop := by
  unfold between cut
  rw [List.append_assoc, drop_take_append l ht.ordered, drop_take_append l h]

theorem take_split (hs : s.Fits l) (h : s.stop ≤ t.start) :
    l.take t.start = l.take s.start ++ s.cut l ++ between s t l := by
  have hstart : s.start ≤ t.start := Nat.le_trans hs.ordered h
  have hcut : s.cut l ++ between s t l = (l.take t.start).drop s.start := by
    have hjoin := drop_take_append (l.take t.start) hs.ordered
    rw [List.take_take, Nat.min_eq_left h] at hjoin
    exact hjoin
  have hfront : l.take s.start = (l.take t.start).take s.start := by
    rw [List.take_take, Nat.min_eq_left hstart]
  rw [List.append_assoc, hcut, hfront, List.take_append_drop]

/-- **What two splices do together.** The list, what either makes of it, and what both do, in the same
five parts. -/
theorem both_parts (hs : s.Fits l) (ht : t.Fits l) (h : s.stop ≤ t.start) :
    l = l.take s.start ++ s.cut l ++ between s t l ++ t.cut l ++ l.drop t.stop ∧
      s.apply l = l.take s.start ++ s.put ++ between s t l ++ t.cut l ++ l.drop t.stop ∧
      t.apply l = l.take s.start ++ s.cut l ++ between s t l ++ t.put ++ l.drop t.stop := by
  have hdrop := drop_split (s := s) ht h
  refine ⟨?_, ?_, ?_⟩
  · calc l = l.take s.start ++ s.cut l ++ l.drop s.stop := hs.split
      _ = _ := by rw [hdrop]; simp only [List.append_assoc]
  · unfold apply
    rw [hdrop]
    simp only [List.append_assoc]
  · unfold apply
    rw [take_split hs h]

end Splice

end BranchFs.Logic
