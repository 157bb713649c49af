/-
# BranchFs.Logic.Replay -- sets kept as a log

An entry of a log says of each element that it is in from here on, that it is out, or nothing. What
the log says last of an element is all there is to know about it: a replay holds an element by the
last word, and where no entry names it, by what the replay started from (`mem_replay`). A second
replay of the same log changes nothing, and two starts give the same set exactly when they agree on
what the log does not name (`replay_eq_iff`).
-/
import Mathlib.Data.Finset.Basic

namespace BranchFs.Logic

variable {ε α : Type}

/-- `apply` goes element by element: what the entry says decides, else membership stays. -/
def Pointwise [DecidableEq α] (apply : Finset α → ε → Finset α) (verdict : ε → α → Option Bool) : Prop :=
  ∀ S e a, a ∈ apply S e ↔ (verdict e a).getD (decide (a ∈ S)) = true

/-- What a log says last of an element. -/
def lastWord (verdict : ε → α → Option Bool) : List ε → α → Option Bool
  | [], _ => none
  | e :: log, a => (lastWord verdict log a).or (verdict e a)

/-- The log says something of the element. -/
def Names (verdict : ε → α → Option Bool) (log : List ε) (a : α) : Prop :=
  ∃ e ∈ log, verdict e a ≠ none

variable {verdict : ε → α → Option Bool}

@[simp] theorem lastWord_nil (a : α) : lastWord verdict [] a = none := rfl

@[simp] theorem lastWord_cons (e : ε) (log : List ε) (a : α) :
    lastWord verdict (e :: log) a = (lastWord verdict log a).or (verdict e a) := rfl

/-- The later log has the last word where it says anything. -/
theorem lastWord_append (log log' : List ε) (a : α) :
    lastWord verdict (log ++ log') a = (lastWord verdict log' a).or (lastWord verdict log a) := by
  induction log with
  | nil => simp
  | cons e log ih => rw [List.cons_append, lastWord_cons, ih, lastWord_cons, Option.or_assoc]

theorem lastWord_eq_none_iff {log : List ε} {a : α} :
    lastWord verdict log a = none ↔ ¬ Names verdict log a := by
  induction log with
  | nil => simp [Names]
  | cons e log ih =>
    rw [lastWord_cons, Option.or_eq_none_iff, ih]
    simp only [Names, List.mem_cons, not_exists, not_and, forall_eq_or_imp, not_not]
    exact and_comm

variable [DecidableEq α] {apply : Finset α → ε → Finset α}

/-- A replay is decided by the last word, and by its start where the log is silent. -/
theorem mem_replay (h : Pointwise apply verdict) (log : List ε) (S : Finset α) (a : α) :
    a ∈ log.foldl apply S ↔ (lastWord verdict log a).getD (decide (a ∈ S)) = true := by
  induction log generalizing S with
  | nil => simp
  | cons e log ih =>
    rw [List.foldl_cons, ih, lastWord_cons]
    cases lastWord verdict log a with
    | some b => rfl
    | none =>
      have he := h S e a
      simp only [Option.none_or, Option.getD_none, decide_eq_true_eq]
      exact he

theorem mem_replay_of_silent (h : Pointwise apply verdict) {log : List ε} {a : α}
    (ha : ¬ Names verdict log a) (S : Finset α) : a ∈ log.foldl apply S ↔ a ∈ S := by
  rw [mem_replay h, lastWord_eq_none_iff.mpr ha, Option.getD_none, decide_eq_true_eq]

/-- Where the log names an element, the start does not count. -/
theorem mem_replay_of_named (h : Pointwise apply verdict) {log : List ε} {a : α}
    (ha : Names verdict log a) (S S' : Finset α) :
    a ∈ log.foldl apply S ↔ a ∈ log.foldl apply S' := by
  rw [mem_replay h, mem_replay h]
  obtain ⟨b, hb⟩ := Option.ne_none_iff_exists'.mp fun hn => lastWord_eq_none_iff.mp hn ha
  rw [hb, Option.getD_some, Option.getD_some]

/-- Two starts lead to one set exactly when they agree where the log is silent. -/
theorem replay_eq_iff (h : Pointwise apply verdict) (log : List ε) (S S' : Finset α) :
    log.foldl apply S = log.foldl apply S' ↔ ∀ a, ¬ Names verdict log a → (a ∈ S ↔ a ∈ S') := by
  constructor
  · intro heq a ha
    rw [← mem_replay_of_silent h ha S, heq, mem_replay_of_silent h ha S']
  · intro hall
    ext a
    by_cases ha : Names verdict log a
    · exact mem_replay_of_named h ha S S'
    · rw [mem_replay_of_silent h ha, mem_replay_of_silent h ha]
      exact hall a ha

/-- What a log adds to an empty set, it names. -/
theorem names_of_mem_replay (h : Pointwise apply verdict) {log : List ε} {a : α}
    (ha : a ∈ log.foldl apply ∅) : Names verdict log a := by
  by_contra hn
  exact Finset.notMem_empty a ((mem_replay_of_silent h hn ∅).mp ha)

/-- The start adds what the log does not name. -/
theorem mem_replay_from (h : Pointwise apply verdict) (log : List ε) (S : Finset α) (a : α) :
    a ∈ log.foldl apply S ↔ a ∈ log.foldl apply ∅ ∨ a ∈ S ∧ ¬ Names verdict log a := by
  by_cases ha : Names verdict log a
  · rw [mem_replay_of_named h ha S ∅]
    exact ⟨Or.inl, fun hor => hor.elim id fun hs => absurd ha hs.2⟩
  · rw [mem_replay_of_silent h ha]
    constructor
    · exact fun hs => Or.inr ⟨hs, ha⟩
    · intro hor
      exact hor.elim (fun hm => absurd (names_of_mem_replay h hm) ha) fun hs => hs.1

end BranchFs.Logic
