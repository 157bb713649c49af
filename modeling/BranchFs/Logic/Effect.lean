/-
# BranchFs.Logic.Effect -- pre- and postconditions for fallible, stateful programs

A program that may fail keeps the effects it had before it failed, so a postcondition speaks of the
state after success and after failure alike: `wp x Q s` says that `Q` holds of the outcome of `x`
from `s`, whichever it is. `Keeps R x` is the frame form: every run of `x` relates the states before
and after by `R`. Both are closed under the ways programs are put together, and a loop is one
induction (`wp_forM`).

`Runs` lifts a step function to sequences of inputs, with the one induction every invariant needs.
-/
import Mathlib.Data.List.Induction
import Mathlib.Tactic.Common

namespace BranchFs.Logic

variable {ε σ α β : Type}

/-- The postcondition `Q` holds of the outcome of `x` from `s`. -/
def wp (x : EStateM ε σ α) (Q : Except ε α → σ → Prop) (s : σ) : Prop :=
  match x s with
  | .ok a t => Q (.ok a) t
  | .error e t => Q (.error e) t

/-- The state `x` leaves behind, failed or not. -/
def after (x : EStateM ε σ α) (s : σ) : σ :=
  match x s with
  | .ok _ t => t
  | .error _ t => t

/-- Run `x` and hand its failure to the caller as a value. -/
def attempt (x : EStateM ε σ α) : EStateM ε σ (Except ε α) := fun s =>
  match x s with
  | .ok a t => .ok (.ok a) t
  | .error e t => .ok (.error e) t

theorem attempt_after (x : EStateM ε σ α) (s : σ) : ∃ r, attempt x s = .ok r (after x s) := by
  unfold attempt after
  cases x s with
  | ok a t => exact ⟨.ok a, rfl⟩
  | error e t => exact ⟨.error e, rfl⟩

/-- Run `x` under a condition. -/
def when (c : Prop) [Decidable c] (x : EStateM ε σ PUnit) : EStateM ε σ PUnit :=
  if c then x else pure ⟨⟩

/-- Fail under a condition. -/
def failIf (c : Prop) [Decidable c] (e : ε) : EStateM ε σ PUnit := when c (throw e)

/-- A result already computed. -/
def fromExcept : Except ε α → EStateM ε σ α
  | .ok a => pure a
  | .error e => throw e

theorem when_true {c : Prop} [Decidable c] (h : c) (x : EStateM ε σ PUnit) : when c x = x :=
  if_pos h

theorem when_false {c : Prop} [Decidable c] (h : ¬ c) (x : EStateM ε σ PUnit) :
    when c x = pure ⟨⟩ := if_neg h

theorem failIf_ok {c : Prop} [Decidable c] (h : ¬ c) (e : ε) (s : σ) :
    (failIf c e : EStateM ε σ PUnit) s = .ok ⟨⟩ s := by
  rw [failIf, when_false h]
  rfl

theorem failIf_error {c : Prop} [Decidable c] (h : c) (e : ε) (s : σ) :
    (failIf c e : EStateM ε σ PUnit) s = .error e s := by
  rw [failIf, when_true h]
  rfl

theorem failIf_eq_ok {c : Prop} [Decidable c] {e : ε} {s t : σ} {u : PUnit}
    (h : (failIf c e : EStateM ε σ PUnit) s = .ok u t) : ¬ c ∧ t = s := by
  by_cases hc : c
  · rw [failIf_error hc] at h
    cases h
  · rw [failIf_ok hc] at h
    cases h
    exact ⟨hc, rfl⟩

theorem wp_of_ok {x : EStateM ε σ α} {Q : Except ε α → σ → Prop} {s t : σ} {a : α}
    (h : x s = .ok a t) : wp x Q s ↔ Q (.ok a) t := by
  simp [wp, h]

theorem wp_of_error {x : EStateM ε σ α} {Q : Except ε α → σ → Prop} {s t : σ} {e : ε}
    (h : x s = .error e t) : wp x Q s ↔ Q (.error e) t := by
  simp [wp, h]

theorem wp_ok {x : EStateM ε σ α} {Q : Except ε α → σ → Prop} {s t : σ} {a : α}
    (hw : wp x Q s) (h : x s = .ok a t) : Q (.ok a) t := (wp_of_ok h).mp hw

theorem wp_error {x : EStateM ε σ α} {Q : Except ε α → σ → Prop} {s t : σ} {e : ε}
    (hw : wp x Q s) (h : x s = .error e t) : Q (.error e) t := (wp_of_error h).mp hw

theorem wp_mono {x : EStateM ε σ α} {Q Q' : Except ε α → σ → Prop} {s : σ}
    (h : wp x Q s) (hQ : ∀ r t, Q r t → Q' r t) : wp x Q' s := by
  unfold wp at h ⊢
  cases hx : x s with
  | ok a t => simp only [hx] at h ⊢; exact hQ _ _ h
  | error e t => simp only [hx] at h ⊢; exact hQ _ _ h

theorem wp_and {x : EStateM ε σ α} {Q Q' : Except ε α → σ → Prop} {s : σ}
    (h : wp x Q s) (h' : wp x Q' s) : wp x (fun r t => Q r t ∧ Q' r t) s := by
  unfold wp at h h' ⊢
  cases hx : x s with
  | ok a t => simp only [hx] at h h' ⊢; exact ⟨h, h'⟩
  | error e t => simp only [hx] at h h' ⊢; exact ⟨h, h'⟩

theorem wp_after {x : EStateM ε σ α} {P : σ → Prop} {s : σ} :
    wp x (fun _ t => P t) s ↔ P (after x s) := by
  unfold wp after
  cases x s <;> rfl

theorem wp_pure {a : α} {Q : Except ε α → σ → Prop} {s : σ} :
    wp (pure a : EStateM ε σ α) Q s ↔ Q (.ok a) s := Iff.rfl

theorem wp_throw {e : ε} {Q : Except ε α → σ → Prop} {s : σ} :
    wp (throw e : EStateM ε σ α) Q s ↔ Q (.error e) s := Iff.rfl

theorem bind_ok {x : EStateM ε σ α} {f : α → EStateM ε σ β} {s t : σ} {a : α}
    (h : x s = .ok a t) : (x >>= f) s = f a t := by
  show EStateM.bind x f s = f a t
  simp [EStateM.bind, h]

theorem bind_error {x : EStateM ε σ α} {f : α → EStateM ε σ β} {s t : σ} {e : ε}
    (h : x s = .error e t) : (x >>= f) s = .error e t := by
  show EStateM.bind x f s = .error e t
  simp [EStateM.bind, h]

theorem after_bind_ok {x : EStateM ε σ α} {f : α → EStateM ε σ β} {s t : σ} {a : α}
    (h : x s = .ok a t) : after (x >>= f) s = after (f a) t := by
  unfold after
  rw [bind_ok h]

theorem after_bind_error {x : EStateM ε σ α} {f : α → EStateM ε σ β} {s t : σ} {e : ε}
    (h : x s = .error e t) : after (x >>= f) s = t := by
  unfold after
  rw [bind_error h]

/-- What is made of the result does not show in the state. -/
theorem after_bind_pure (x : EStateM ε σ α) (f : α → β) (s : σ) :
    after (x >>= fun a => pure (f a)) s = after x s := by
  unfold after
  cases hx : x s with
  | ok a t => rw [bind_ok hx]; rfl
  | error e t => rw [bind_error hx]

/-- A sequence that succeeds went through its first half. -/
theorem bind_eq_ok {x : EStateM ε σ α} {f : α → EStateM ε σ β} {s u : σ} {b : β}
    (h : (x >>= f) s = .ok b u) : ∃ a t, x s = .ok a t ∧ f a t = .ok b u := by
  cases hx : x s with
  | ok a t => exact ⟨a, t, rfl, by rw [bind_ok hx] at h; exact h⟩
  | error e t =>
    rw [bind_error hx] at h
    cases h

/-- A sequence that fails does so in one of its halves. -/
theorem bind_eq_error {x : EStateM ε σ α} {f : α → EStateM ε σ β} {s u : σ} {e : ε}
    (h : (x >>= f) s = .error e u) :
    x s = .error e u ∨ ∃ a t, x s = .ok a t ∧ f a t = .error e u := by
  cases hx : x s with
  | ok a t => exact Or.inr ⟨a, t, rfl, by rw [bind_ok hx] at h; exact h⟩
  | error e' t =>
    rw [bind_error hx] at h
    cases h
    exact Or.inl rfl

theorem wp_bind {x : EStateM ε σ α} {f : α → EStateM ε σ β} {Q : Except ε β → σ → Prop} {s : σ} :
    wp (x >>= f) Q s ↔
      wp x (fun r t => match r with
        | .ok a => wp (f a) Q t
        | .error e => Q (.error e) t) s := by
  cases hx : x s with
  | ok a t =>
    rw [wp_of_ok hx]
    unfold wp
    rw [bind_ok hx]
  | error e t => rw [wp_of_error hx, wp_of_error (bind_error hx)]

theorem wp_attempt {x : EStateM ε σ α} {Q : Except ε (Except ε α) → σ → Prop} {s : σ} :
    wp (attempt x) Q s ↔ wp x (fun r t => Q (.ok r) t) s := by
  unfold wp attempt
  cases x s <;> rfl

/-- A loop keeps what every pass through its body keeps, and stops at the first failure. -/
theorem wp_forM {xs : List α} {f : α → EStateM ε σ PUnit} {I : List α → σ → Prop}
    {E : ε → σ → Prop} {s : σ} (h0 : I [] s)
    (hstep : ∀ done x t, x ∈ xs → I done t →
      wp (f x) (fun r u => match r with
        | .ok _ => I (done ++ [x]) u
        | .error e => E e u) t) :
    wp (xs.forM f) (fun r t => match r with
      | .ok _ => I xs t
      | .error e => E e t) s := by
  have main : ∀ (rest done : List α) (t : σ), I done t → (∀ x ∈ rest, x ∈ xs) →
      wp (rest.forM f) (fun r u => match r with
        | .ok _ => I (done ++ rest) u
        | .error e => E e u) t := by
    intro rest
    induction rest with
    | nil =>
      intro done t hI _
      change I (done ++ []) t
      rwa [List.append_nil]
    | cons x rest ih =>
      intro done t hI hmem
      change wp (f x >>= fun _ => rest.forM f) _ t
      rw [wp_bind]
      refine wp_mono (hstep done x t (hmem x (List.mem_cons_self ..)) hI) ?_
      intro r u hr
      cases r with
      | error e => exact hr
      | ok a =>
        have := ih (done ++ [x]) u hr (fun y hy => hmem y (List.mem_cons_of_mem x hy))
        simpa using this
  simpa using main xs [] s h0 (fun x hx => hx)

/-- A loop whose every pass succeeds and keeps the invariant succeeds and keeps it. -/
theorem forM_ok {xs : List α} {f : α → EStateM ε σ PUnit} {I : List α → σ → Prop} {s : σ}
    (h0 : I [] s) (hstep : ∀ done x rest t, xs = done ++ x :: rest → I done t →
      ∃ u, f x t = .ok ⟨⟩ u ∧ I (done ++ [x]) u) :
    ∃ t, xs.forM f s = .ok ⟨⟩ t ∧ I xs t := by
  have main : ∀ (rest done : List α) (t : σ), xs = done ++ rest → I done t →
      ∃ u, rest.forM f t = .ok ⟨⟩ u ∧ I (done ++ rest) u := by
    intro rest
    induction rest with
    | nil =>
      intro done t _ hI
      exact ⟨t, rfl, by rwa [List.append_nil]⟩
    | cons x rest ih =>
      intro done t hxs hI
      obtain ⟨u, hu, hIu⟩ := hstep done x rest t hxs hI
      obtain ⟨v, hv, hIv⟩ := ih (done ++ [x]) u (by simp [hxs]) hIu
      refine ⟨v, ?_, by simpa using hIv⟩
      show (f x >>= fun _ => rest.forM f) t = .ok ⟨⟩ v
      rw [bind_ok hu, hv]
  simpa using main xs [] s rfl h0

/-- A loop stops at the first pass that fails. -/
theorem forM_error {done rest : List α} {x : α} {f : α → EStateM ε σ PUnit} {s t u : σ} {e : ε}
    (hdone : done.forM f s = .ok ⟨⟩ t) (hx : f x t = .error e u) :
    (done ++ x :: rest).forM f s = .error e u := by
  induction done generalizing s with
  | nil =>
    have hst : s = t := by cases hdone; rfl
    subst hst
    show (f x >>= fun _ => rest.forM f) s = .error e u
    rw [bind_error hx]
  | cons y done ih =>
    have hsplit : (f y >>= fun _ => done.forM f) s = .ok ⟨⟩ t := hdone
    obtain ⟨a, s', hy, hrest⟩ := bind_eq_ok hsplit
    show (f y >>= fun _ => (done ++ x :: rest).forM f) s = .error e u
    rw [bind_ok hy]
    exact ih hrest

theorem forM_map_apply {γ : Type} (g : γ → α) (xs : List γ) (f : α → EStateM ε σ PUnit) (s : σ) :
    (xs.map g).forM f s = xs.forM (fun x => f (g x)) s :=
  congrFun (List.forM_map (f := f)) s

/-- A loop whose steps succeed exactly on the good elements runs through when all are good, and
fails otherwise. -/
theorem forM_cases {l : List α} {f : α → EStateM ε σ PUnit} {I : List α → σ → Prop}
    {P : α → Prop} {s : σ} (h0 : I [] s)
    (hstep : ∀ done x rest t, l = done ++ x :: rest → (∀ y ∈ done, P y) → I done t →
      (P x ∧ ∃ u, f x t = .ok ⟨⟩ u ∧ I (done ++ [x]) u) ∨
      (¬ P x ∧ ∃ e u, f x t = .error e u)) :
    ((∀ x ∈ l, P x) ∧ ∃ t, l.forM f s = .ok ⟨⟩ t ∧ I l t) ∨
    ((∃ x ∈ l, ¬ P x) ∧ ∃ e t, l.forM f s = .error e t) := by
  have main : ∀ (rest done : List α) (t : σ), l = done ++ rest → (∀ y ∈ done, P y) → I done t →
      ((∀ x ∈ rest, P x) ∧ ∃ u, rest.forM f t = .ok ⟨⟩ u ∧ I (done ++ rest) u) ∨
      ((∃ x ∈ rest, ¬ P x) ∧ ∃ e u, rest.forM f t = .error e u) := by
    intro rest
    induction rest with
    | nil =>
      intro done t _ _ hI
      exact Or.inl ⟨by simp, t, rfl, by rwa [List.append_nil]⟩
    | cons x rest ih =>
      intro done t hxs hdone hI
      rcases hstep done x rest t hxs hdone hI with ⟨hx, u, hu, hIu⟩ | ⟨hx, e, u, hu⟩
      · have hdone' : ∀ y ∈ done ++ [x], P y := by
          intro y hy
          rcases List.mem_append.mp hy with hy | hy
          · exact hdone y hy
          · exact List.mem_singleton.mp hy ▸ hx
        have hrun : (x :: rest).forM f t = rest.forM f u := by
          show (f x >>= fun _ => rest.forM f) t = _
          rw [bind_ok hu]
        rcases ih (done ++ [x]) u (by simp [hxs]) hdone' hIu with ⟨hall, v, hv, hIv⟩ | ⟨⟨y, hy, hbad⟩, e, v, hv⟩
        · refine Or.inl ⟨?_, v, hrun.trans hv, by simpa using hIv⟩
          intro y hy
          rcases List.mem_cons.mp hy with rfl | hy
          · exact hx
          · exact hall y hy
        · exact Or.inr ⟨⟨y, List.mem_cons_of_mem x hy, hbad⟩, e, v, hrun.trans hv⟩
      · refine Or.inr ⟨⟨x, List.mem_cons_self .., hx⟩, e, u, ?_⟩
        show (f x >>= fun _ => rest.forM f) t = _
        rw [bind_error hu]
  simpa using main l [] s rfl (by simp) h0

/-- The run ends without an error. -/
def succeeds (x : EStateM ε σ α) (s : σ) : Bool :=
  match x s with
  | .ok _ _ => true
  | .error _ _ => false

theorem ok_of_succeeds {x : EStateM ε σ PUnit} {s : σ} (h : succeeds x s = true) :
    x s = .ok ⟨⟩ (after x s) := by
  unfold succeeds at h
  unfold after
  cases hx : x s with
  | ok a t => rfl
  | error e t => simp [hx] at h

/-- The result of a run that ends without an error. -/
def resultOf (x : EStateM ε σ α) (s : σ) : Option α :=
  match x s with
  | .ok a _ => some a
  | .error _ _ => none

theorem ok_of_resultOf {x : EStateM ε σ α} {s : σ} {a : α} (h : resultOf x s = some a) :
    x s = .ok a (after x s) := by
  unfold resultOf at h
  unfold after
  cases hx : x s with
  | ok a' t =>
    rw [hx] at h
    cases h
    rfl
  | error e t => simp [hx] at h

/-- The error of a run that ends with one. -/
def failureOf (x : EStateM ε σ α) (s : σ) : Option ε :=
  match x s with
  | .ok _ _ => none
  | .error e _ => some e

theorem error_of_failureOf {x : EStateM ε σ α} {s : σ} {e : ε} (h : failureOf x s = some e) :
    x s = .error e (after x s) := by
  unfold failureOf at h
  unfold after
  cases hx : x s with
  | ok a t => simp [hx] at h
  | error e' t =>
    rw [hx] at h
    cases h
    rfl

/-! ## Frames -/

/-- Every run of `x` relates the states before and after by `R`. -/
def Keeps (R : σ → σ → Prop) (x : EStateM ε σ α) : Prop := ∀ s, R s (after x s)

section Keeps

variable {R : σ → σ → Prop}

theorem Keeps.ok {x : EStateM ε σ α} (h : Keeps R x) {s t : σ} {a : α} (hx : x s = .ok a t) :
    R s t := by
  simpa [after, hx] using h s

theorem Keeps.error {x : EStateM ε σ α} (h : Keeps R x) {s t : σ} {e : ε}
    (hx : x s = .error e t) : R s t := by
  simpa [after, hx] using h s

theorem keeps_pure (hrefl : ∀ s, R s s) (a : α) : Keeps R (pure a : EStateM ε σ α) := hrefl

theorem keeps_throw (hrefl : ∀ s, R s s) (e : ε) : Keeps R (throw e : EStateM ε σ α) := hrefl

theorem keeps_when (hrefl : ∀ s, R s s) (c : Prop) [Decidable c] {x : EStateM ε σ PUnit}
    (hx : c → Keeps R x) : Keeps R (when c x) := by
  by_cases h : c
  · rw [when_true h]
    exact hx h
  · rw [when_false h]
    exact keeps_pure hrefl _

theorem keeps_failIf (hrefl : ∀ s, R s s) (c : Prop) [Decidable c] (e : ε) :
    Keeps R (failIf c e : EStateM ε σ PUnit) := keeps_when hrefl c fun _ => keeps_throw hrefl e

theorem keeps_fromExcept (hrefl : ∀ s, R s s) (x : Except ε α) :
    Keeps R (fromExcept x : EStateM ε σ α) := by
  cases x with
  | ok a => exact keeps_pure hrefl a
  | error e => exact keeps_throw hrefl e

theorem keeps_bind (htrans : ∀ s t u, R s t → R t u → R s u) {x : EStateM ε σ α}
    {f : α → EStateM ε σ β} (hx : Keeps R x) (hf : ∀ a, Keeps R (f a)) : Keeps R (x >>= f) := by
  intro s
  cases h : x s with
  | ok a t =>
    rw [after_bind_ok h]
    exact htrans _ _ _ (hx.ok h) (hf a t)
  | error e t =>
    rw [after_bind_error h]
    exact hx.error h

theorem keeps_attempt {x : EStateM ε σ α} (hx : Keeps R x) : Keeps R (attempt x) := by
  intro s
  have h := hx s
  unfold after attempt at *
  cases hxs : x s <;> simpa [hxs] using h

theorem keeps_forM (hrefl : ∀ s, R s s) (htrans : ∀ s t u, R s t → R t u → R s u)
    {f : α → EStateM ε σ PUnit} (xs : List α) (hf : ∀ x ∈ xs, Keeps R (f x)) :
    Keeps R (xs.forM f) := by
  induction xs with
  | nil => exact keeps_pure hrefl _
  | cons x xs ih =>
    change Keeps R (f x >>= fun _ => xs.forM f)
    exact keeps_bind htrans (hf x (List.mem_cons_self ..))
      (fun _ => ih (fun y hy => hf y (List.mem_cons_of_mem x hy)))

end Keeps

/-! ## Runs of a step function -/

section Runs

variable {ι : Type}

/-- The state after the inputs, in order. -/
def run (step : σ → ι → σ) (s : σ) (is : List ι) : σ := is.foldl step s

@[simp] theorem run_nil (step : σ → ι → σ) (s : σ) : run step s [] = s := rfl

@[simp] theorem run_cons (step : σ → ι → σ) (s : σ) (i : ι) (is : List ι) :
    run step s (i :: is) = run step (step s i) is := rfl

theorem run_append (step : σ → ι → σ) (s : σ) (is js : List ι) :
    run step s (is ++ js) = run step (run step s is) js := List.foldl_append ..

theorem run_concat (step : σ → ι → σ) (s : σ) (is : List ι) (i : ι) :
    run step s (is ++ [i]) = step (run step s is) i := run_append step s is [i]

/-- A count that grows by at most one a step passes every number on its way. -/
theorem exists_step_of_count {f : List ι → Nat} (h0 : f [] = 0)
    (hstep : ∀ is i, f (is ++ [i]) ≤ f is + 1) {k : Nat} {is : List ι} (h : k < f is) :
    ∃ before i rest, is = before ++ i :: rest ∧ f before = k ∧ f (before ++ [i]) = k + 1 := by
  induction is using List.reverseRecOn with
  | nil => omega
  | append_singleton is i ih =>
    by_cases hk : k < f is
    · obtain ⟨before, j, rest, rfl, hbefore, hnext⟩ := ih hk
      exact ⟨before, j, rest ++ [i], by simp, hbefore, hnext⟩
    · have hle := hstep is i
      exact ⟨is, i, [], rfl, by omega, by omega⟩

/-- Every step of the run meets the condition in the state it starts from. -/
def Along (step : σ → ι → σ) (C : σ → ι → Prop) : σ → List ι → Prop
  | _, [] => True
  | s, i :: is => C s i ∧ Along step C (step s i) is

instance Along.decidable {step : σ → ι → σ} {C : σ → ι → Prop} [∀ s i, Decidable (C s i)] :
    ∀ (is : List ι) (s : σ), Decidable (Along step C s is)
  | [], _ => isTrue trivial
  | i :: is, s =>
    have : Decidable (Along step C (step s i) is) := Along.decidable is (step s i)
    inferInstanceAs (Decidable (C s i ∧ Along step C (step s i) is))

theorem along_iff {step : σ → ι → σ} {C : σ → ι → Prop} {s : σ} {is : List ι} : Along step C s is ↔
    ∀ before i rest, is = before ++ i :: rest → C (run step s before) i := by
  induction is generalizing s with
  | nil =>
    refine ⟨fun _ before i rest h => ?_, fun _ => trivial⟩
    simp at h
  | cons i is ih =>
    constructor
    · rintro ⟨hi, his⟩ before j rest heq
      cases before with
      | nil =>
        cases heq
        exact hi
      | cons j' before =>
        cases heq
        exact ih.mp his before j rest rfl
    · intro hall
      refine ⟨hall [] i is rfl, ih.mpr fun before j rest heq => ?_⟩
      exact hall (i :: before) j rest (by rw [heq]; rfl)

theorem along_append {step : σ → ι → σ} {C : σ → ι → Prop} {s : σ} {is js : List ι} :
    Along step C s (is ++ js) ↔ Along step C s is ∧ Along step C (run step s is) js := by
  induction is generalizing s with
  | nil => exact ⟨fun h => ⟨trivial, h⟩, fun h => h.2⟩
  | cons i is ih =>
    show C s i ∧ Along step C (step s i) (is ++ js) ↔ (C s i ∧ Along step C (step s i) is) ∧ _
    rw [ih, and_assoc]
    rfl

theorem Along.mono {step : σ → ι → σ} {C C' : σ → ι → Prop} (hC : ∀ s i, C s i → C' s i) {s : σ}
    {is : List ι} (h : Along step C s is) : Along step C' s is := by
  induction is generalizing s with
  | nil => trivial
  | cons i is ih => exact ⟨hC s i h.1, ih h.2⟩

theorem Along.and {step : σ → ι → σ} {C C' : σ → ι → Prop} {s : σ} {is : List ι} (h : Along step C s is)
    (h' : Along step C' s is) : Along step (fun s i => C s i ∧ C' s i) s is := by
  induction is generalizing s with
  | nil => trivial
  | cons i is ih => exact ⟨⟨h.1, h'.1⟩, ih h.2 h'.2⟩

/-- A condition on the inputs alone. -/
theorem along_of_forall {step : σ → ι → σ} {C : ι → Prop} {is : List ι} (h : ∀ i ∈ is, C i) (s : σ) :
    Along step (fun _ => C) s is := by
  induction is generalizing s with
  | nil => trivial
  | cons i is ih => exact ⟨h i List.mem_cons_self, ih (fun j hj => h j (List.mem_cons_of_mem i hj)) _⟩

/-- What one step preserves under its condition holds after every run that meets it. -/
theorem run_inv {step : σ → ι → σ} {C : σ → ι → Prop} {I : σ → Prop}
    (hstep : ∀ s i, I s → C s i → I (step s i)) :
    ∀ (is : List ι) (s : σ), I s → Along step C s is → I (run step s is) := by
  intro is
  induction is with
  | nil => exact fun s hs _ => hs
  | cons i is ih =>
    intro s hs hC
    rw [run_cons]
    exact ih _ (hstep s i hs hC.1) hC.2

/-- And so does what it makes of every step on the way. -/
theorem run_safe {step : σ → ι → σ} {C P : σ → ι → Prop} {I : σ → Prop}
    (hstep : ∀ s i, I s → C s i → I (step s i) ∧ P s i) :
    ∀ (is : List ι) (s : σ), I s → Along step C s is → I (run step s is) ∧ Along step P s is := by
  intro is
  induction is with
  | nil => exact fun s hs _ => ⟨hs, trivial⟩
  | cons i is ih =>
    intro s hs hC
    obtain ⟨hnext, hsafe⟩ := hstep s i hs hC.1
    obtain ⟨hlast, hrest⟩ := ih _ hnext hC.2
    exact ⟨hlast, hsafe, hrest⟩

end Runs

end BranchFs.Logic
