/-
# BranchFs.Logic.Meter -- what an operation spends

A meter says which states a run that spends at most so much may lead to. `Costs` is a triple with a
budget: from a state with the invariant an operation ends, failed or not, in one with it, within the
budget, and what it returns is as promised. The budgets of the steps of an operation add up.
-/
import BranchFs.Logic.Framed

namespace BranchFs.Logic

variable {ε σ α β : Type}

/-- What is spent between two states. -/
structure Meter (σ : Type) where
  spent : Nat → σ → σ → Prop
  refl : ∀ s, spent 0 s s
  trans : ∀ {a b s t u}, spent a s t → spent b t u → spent (a + b) s u
  mono : ∀ {a b s t}, a ≤ b → spent a s t → spent b s t

section Costs

variable {M : Meter σ} {I : σ → Prop} {Q : α → Prop} {Q' : β → Prop} {a b : Nat}

/-- `x` keeps the invariant, stays within the budget, and returns what is promised. -/
def Costs (M : Meter σ) (I : σ → Prop) (Q : α → Prop) (a : Nat) (x : EStateM ε σ α) : Prop :=
  ∀ s, I s → I (after x s) ∧ M.spent a s (after x s) ∧ ∀ r t, x s = .ok r t → Q r

theorem Costs.mono {x : EStateM ε σ α} (h : Costs M I Q a x) (hab : a ≤ b) : Costs M I Q b x :=
  fun s hs => ⟨(h s hs).1, M.mono hab (h s hs).2.1, (h s hs).2.2⟩

theorem Costs.any {x : EStateM ε σ α} (h : Costs M I Q a x) : Costs M I (fun _ => True) a x :=
  fun s hs => ⟨(h s hs).1, (h s hs).2.1, fun _ _ _ => trivial⟩

theorem costs_pure {r : α} (h : Q r) : Costs M I Q 0 (pure r : EStateM ε σ α) := by
  intro s hs
  refine ⟨hs, M.refl s, fun r' t heq => ?_⟩
  cases heq
  exact h

theorem costs_throw (e : ε) : Costs M I Q 0 (throw e : EStateM ε σ α) :=
  fun s hs => ⟨hs, M.refl s, fun _ _ heq => nomatch heq⟩

theorem costs_bind {x : EStateM ε σ α} {f : α → EStateM ε σ β} (hx : Costs M I Q a x)
    (hf : ∀ r, Q r → Costs M I Q' b (f r)) : Costs M I Q' (a + b) (x >>= f) := by
  intro s hs
  obtain ⟨hI, hspent, hQ⟩ := hx s hs
  cases h : x s with
  | error e t =>
    rw [after_error h] at hI hspent
    rw [after_bind_error h]
    refine ⟨hI, M.mono (Nat.le_add_right a b) hspent, fun r u heq => ?_⟩
    rw [bind_error h] at heq
    cases heq
  | ok r t =>
    rw [after_ok h] at hI hspent
    obtain ⟨hI', hspent', hQ'⟩ := hf r (hQ r t h) t hI
    rw [after_bind_ok h]
    refine ⟨hI', M.trans hspent hspent', fun r' u heq => ?_⟩
    rw [bind_ok h] at heq
    exact hQ' r' u heq

/-- A step that spends nothing before the rest. -/
theorem costs_then {x : EStateM ε σ α} {f : α → EStateM ε σ β} (hx : Costs M I Q 0 x)
    (hf : ∀ r, Q r → Costs M I Q' b (f r)) : Costs M I Q' b (x >>= f) := by
  simpa only [Nat.zero_add] using costs_bind hx hf

theorem costs_when {c : Prop} [Decidable c] {x : EStateM ε σ PUnit}
    (hx : c → Costs M I (fun _ => True) a x) : Costs M I (fun _ => True) a (when c x) := by
  by_cases hc : c
  · rw [when_true hc]
    exact hx hc
  · rw [when_false hc]
    exact (costs_pure trivial).mono (Nat.zero_le a)

theorem costs_failIf (c : Prop) [Decidable c] (e : ε) :
    Costs M I (fun _ => True) 0 (failIf c e : EStateM ε σ PUnit) := costs_when fun _ => costs_throw e

theorem costs_attempt {x : EStateM ε σ α} (hx : Costs M I Q a x) :
    Costs M I (fun r => ∀ v, r = .ok v → Q v) a (attempt x) := by
  intro s hs
  obtain ⟨hI, hspent, hQ⟩ := hx s hs
  unfold after attempt at *
  cases h : x s with
  | ok r t =>
    rw [h] at hI hspent
    refine ⟨hI, hspent, fun r' u heq v hv => ?_⟩
    cases heq
    cases hv
    exact hQ _ _ h
  | error e t =>
    rw [h] at hI hspent
    refine ⟨hI, hspent, fun r' u heq v hv => ?_⟩
    cases heq
    cases hv

/-- An operation that keeps the invariant and moves nothing the meter looks at. -/
theorem costs_of_keeps {x : EStateM ε σ α} (hI : Keeps (fun s t => I s → I t) x)
    (hM : Keeps (M.spent 0) x) (hQ : ∀ s r t, I s → x s = .ok r t → Q r) : Costs M I Q 0 x :=
  fun s hs => ⟨hI s hs, hM s, fun r t h => hQ s r t hs h⟩

/-- The meter that does not count: what is left is the invariant and the promise. -/
def Meter.free : Meter σ where
  spent _ _ _ := True
  refl _ := trivial
  trans _ _ := trivial
  mono _ _ := trivial

theorem costs_free {x : EStateM ε σ α} (hI : Keeps (fun s t => I s → I t) x) :
    Costs Meter.free I (fun _ => True) 0 x := fun s hs => ⟨hI s hs, trivial, fun _ _ _ => trivial⟩

end Costs

end BranchFs.Logic
