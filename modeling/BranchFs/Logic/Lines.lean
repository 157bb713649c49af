/-
# BranchFs.Logic.Lines -- text files read line by line

Text is a list of characters. A line ends with `\n`, and one `\r` right before that `\n` belongs to
the ending, not to the line; the last line needs no ending. A file that is only ever written line by
line is `unlines` of what was written, and reading it gives the lines back (`lines_unlines`) exactly
for lines that are `LineSafe`: without a `\n` inside and without a `\r` at the end.
-/
import Mathlib.Data.List.Basic

namespace BranchFs.Logic

abbrev Text := List Char

/-- A line read backwards, without the `\r` of its ending. -/
def chomp : Text → Text
  | '\r' :: l => l
  | l => l

/-- The lines of a text; `acc` is the line being read, backwards. -/
def linesFrom (acc : Text) : Text → List Text
  | [] => if acc.isEmpty then [] else [acc.reverse]
  | c :: s => if c = '\n' then (chomp acc).reverse :: linesFrom [] s else linesFrom (c :: acc) s

/-- The lines of a text. -/
def lines (s : Text) : List Text := linesFrom [] s

/-- Every line with a `\n` behind it. -/
def unlines (ls : List Text) : Text := ls.flatMap (· ++ ['\n'])

/-- A line that survives being written and read back. -/
def LineSafe (l : Text) : Prop := '\n' ∉ l ∧ l.getLast? ≠ some '\r'

instance (l : Text) : Decidable (LineSafe l) := inferInstanceAs (Decidable (_ ∧ _))

@[simp] theorem unlines_nil : unlines [] = [] := rfl

theorem unlines_append (ls ms : List Text) : unlines (ls ++ ms) = unlines ls ++ unlines ms := by
  simp [unlines]

/-- Writing one more line. -/
theorem unlines_concat (ls : List Text) (l : Text) :
    unlines (ls ++ [l]) = unlines ls ++ l ++ ['\n'] := by
  simp [unlines]

theorem chomp_of_head {l : Text} (h : l.head? ≠ some '\r') : chomp l = l := by
  match l with
  | [] => rfl
  | c :: l =>
    have hc : c ≠ '\r' := fun hc => h (by rw [hc]; rfl)
    unfold chomp
    split
    · next heq =>
      rw [List.cons.injEq] at heq
      exact absurd heq.1 hc
    · rfl

theorem linesFrom_line (l : Text) (acc rest : Text) (h : '\n' ∉ l) :
    linesFrom acc (l ++ '\n' :: rest) = (chomp (l.reverse ++ acc)).reverse :: lines rest := by
  induction l generalizing acc with
  | nil => simp [linesFrom, lines]
  | cons c l ih =>
    have hc : c ≠ '\n' := fun hc => h (by simp [hc])
    have hl : '\n' ∉ l := fun hl => h (List.mem_cons_of_mem c hl)
    rw [List.cons_append, linesFrom, if_neg hc, ih (c :: acc) hl]
    simp

/-- A line that was written is the line that is read. -/
theorem lines_line {l : Text} (h : LineSafe l) (rest : Text) :
    lines (l ++ '\n' :: rest) = l :: lines rest := by
  have hhead : (l.reverse ++ []).head? ≠ some '\r' := by
    rw [List.append_nil, List.head?_reverse]
    exact h.2
  rw [lines, linesFrom_line l [] rest h.1, chomp_of_head hhead]
  simp

/-- The lines that were written are the lines that are read. -/
theorem lines_unlines {ls : List Text} (h : ∀ l ∈ ls, LineSafe l) : lines (unlines ls) = ls := by
  induction ls with
  | nil => rfl
  | cons l ls ih =>
    have hcons : unlines (l :: ls) = l ++ '\n' :: unlines ls := by simp [unlines]
    rw [hcons, lines_line (h l List.mem_cons_self)]
    rw [ih fun m hm => h m (List.mem_cons_of_mem l hm)]

theorem linesFrom_append (l : Text) (acc rest : Text) :
    linesFrom acc (l ++ '\n' :: rest) = linesFrom acc (l ++ ['\n']) ++ lines rest := by
  induction l generalizing acc with
  | nil => simp [linesFrom, lines]
  | cons c l ih =>
    rw [List.cons_append, List.cons_append, linesFrom, linesFrom]
    split
    · rw [ih, List.cons_append]
    · exact ih _

/-- Lines put at the head of a file are read before it. -/
theorem lines_unlines_append (ls : List Text) (rest : Text) :
    lines (unlines ls ++ rest) = (ls.flatMap fun l => lines (l ++ ['\n'])) ++ lines rest := by
  induction ls with
  | nil => rfl
  | cons l ls ih =>
    have hcons : unlines (l :: ls) ++ rest = l ++ '\n' :: (unlines ls ++ rest) := by simp [unlines]
    rw [hcons, lines, linesFrom_append, ih, List.flatMap_cons, List.append_assoc]
    rfl

/-- Whatever is written with an ending behind it, it is read for itself. -/
theorem lines_unlines_flatMap (ls : List Text) :
    lines (unlines ls) = ls.flatMap fun l => lines (l ++ ['\n']) := by
  have h := lines_unlines_append ls []
  rwa [List.append_nil, show lines [] = [] from rfl, List.append_nil] at h

/-- No line that is read has a `\n` inside. -/
theorem notMem_of_mem_linesFrom {s l : Text} {acc : Text} (hacc : '\n' ∉ acc)
    (h : l ∈ linesFrom acc s) : '\n' ∉ l := by
  induction s generalizing acc with
  | nil =>
    rw [linesFrom] at h
    split at h
    · exact absurd h List.not_mem_nil
    · rw [List.mem_singleton.mp h, List.mem_reverse]
      exact hacc
  | cons c s ih =>
    rw [linesFrom] at h
    split at h
    · rcases List.mem_cons.mp h with rfl | h
      · rw [List.mem_reverse]
        intro hc
        apply hacc
        unfold chomp at hc
        split at hc
        · exact List.mem_cons_of_mem _ hc
        · exact hc
      · exact ih List.not_mem_nil h
    · next hc =>
      refine ih ?_ h
      rw [List.mem_cons, not_or]
      exact ⟨fun heq => hc heq.symm, hacc⟩

theorem notMem_of_mem_lines {s l : Text} (h : l ∈ lines s) : '\n' ∉ l :=
  notMem_of_mem_linesFrom List.not_mem_nil h

/-- What is read of a text that was written as one line. -/
def chompEnd (l : Text) : Text := (chomp l.reverse).reverse

theorem lines_chompEnd {l : Text} (h : '\n' ∉ l) : lines (l ++ ['\n']) = [chompEnd l] := by
  rw [lines, linesFrom_line l [] [] h, List.append_nil]
  rfl

/-- A `\r` at the end is lost, and nothing else. -/
theorem chompEnd_cases (l : Text) :
    (chompEnd l = l ∧ l.getLast? ≠ some '\r') ∨ l = chompEnd l ++ ['\r'] := by
  unfold chompEnd chomp
  split
  · next m hl =>
    right
    rw [← List.reverse_cons, ← hl, List.reverse_reverse]
  · next m hne =>
    left
    refine ⟨List.reverse_reverse l, ?_⟩
    rw [← List.head?_reverse]
    intro hhead
    obtain ⟨tail, htail⟩ := List.head?_eq_some_iff.mp hhead
    exact hne tail htail

/-- A marker that does not end in `\r` is read with its line. -/
theorem chompEnd_marked {mark : Text} (hmark : LineSafe mark) (l : Text) :
    chompEnd (mark ++ l) = mark ++ chompEnd l := by
  rcases chompEnd_cases l with ⟨hl, hsafe⟩ | hl
  · rw [hl]
    rcases chompEnd_cases (mark ++ l) with ⟨hml, -⟩ | hml
    · exact hml
    · -- the last character is the line's, or the marker's
      exfalso
      have hlast : (mark ++ l).getLast? = some '\r' := by rw [hml, List.getLast?_concat]
      rw [List.getLast?_append] at hlast
      rcases l.eq_nil_or_concat with rfl | ⟨l', c, rfl⟩
      · exact hmark.2 (by simpa using hlast)
      · exact hsafe (by simpa using hlast)
  · rcases chompEnd_cases (mark ++ l) with ⟨-, hml⟩ | hml
    · rw [hl, ← List.append_assoc, List.getLast?_concat] at hml
      exact absurd rfl hml
    · have hcut : chompEnd (mark ++ l) ++ ['\r'] = (mark ++ chompEnd l) ++ ['\r'] := by
        rw [← hml, List.append_assoc, ← hl]
      exact List.append_cancel_right hcut

/-- A line behind a marker is safe where the line is. -/
theorem LineSafe.marked {l : Text} (h : LineSafe l) {mark : Text} (hmark : LineSafe mark) :
    LineSafe (mark ++ l) := by
  constructor
  · rw [List.mem_append, not_or]
    exact ⟨hmark.1, h.1⟩
  · rw [List.getLast?_append]
    rcases l.eq_nil_or_concat with rfl | ⟨l', c, rfl⟩
    · simpa using hmark.2
    · simpa using h.2

end BranchFs.Logic
