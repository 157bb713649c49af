/-
# BranchFs.Logic.Framed -- frames that hold under an invariant

`Keeps R x` relates the states before and after every run of `x`. Often that relation is only to be
had from states with an invariant, and the invariant may get weaker on the way: `Framed R P Q x`
says that a run from a state with `P` is related by `R` and ends, failed or not, in a state with
`Q`. `R` is reflexive and transitive throughout, so the rules are those of a sequence of programs.
-/
import BranchFs.Logic.Effect

namespace BranchFs.Logic

variable {ε σ α β : Type} {R : σ → σ → Prop} {P Q U : σ → Prop}

/-- From `P` every run of `x` keeps `R` and ends in `Q`. -/
def Framed (R : σ → σ → Prop) (P Q : σ → Prop) (x : EStateM ε σ α) : Prop :=
  ∀ s, P s → R s (after x s) ∧ Q (after x s)

theorem Framed.mono {P' Q' : σ → Prop} {x : EStateM ε σ α} (h : Framed R P Q x)
    (hP : ∀ s, P' s → P s) (hQ : ∀ s, Q s → Q' s) : Framed R P' Q' x := by
  intro s hs
  obtain ⟨hR, hq⟩ := h s (hP s hs)
  exact ⟨hR, hQ _ hq⟩

theorem Framed.weaken {R' : σ → σ → Prop} {x : EStateM ε σ α} (h : Framed R P Q x)
    (hR : ∀ s t, R s t → R' s t) : Framed R' P Q x := by
  intro s hs
  obtain ⟨h', hq⟩ := h s hs
  exact ⟨hR _ _ h', hq⟩

theorem after_ok {x : EStateM ε σ α} {s t : σ} {a : α} (h : x s = .ok a t) : after x s = t := by
  simp only [after, h]

theorem after_error {x : EStateM ε σ α} {s t : σ} {e : ε} (h : x s = .error e t) :
    after x s = t := by
  simp only [after, h]

theorem framed_pure (hrefl : ∀ s, R s s) (h : ∀ s, P s → Q s) (a : α) :
    Framed R P Q (pure a : EStateM ε σ α) := fun s hs => ⟨hrefl s, h s hs⟩

theorem framed_throw (hrefl : ∀ s, R s s) (h : ∀ s, P s → Q s) (e : ε) :
    Framed R P Q (throw e : EStateM ε σ α) := fun s hs => ⟨hrefl s, h s hs⟩

/-- A program that only looks. -/
theorem framed_read (hrefl : ∀ s, R s s) {x : EStateM ε σ α} (h : ∀ s, after x s = s) :
    Framed R P P x := by
  intro s hs
  rw [h s]
  exact ⟨hrefl s, hs⟩

/-- The second program starts in the state where the first succeeded; where it failed, the weaker
invariant is all that is left to show. -/
theorem framed_bind_at (htrans : ∀ s t u, R s t → R t u → R s u) {x : EStateM ε σ α}
    {f : α → EStateM ε σ β} (hx : Framed R P Q x)
    (hf : ∀ a s t, P s → x s = .ok a t → Q t → Framed R (fun u => u = t) U (f a))
    (hU : ∀ s, Q s → U s) : Framed R P U (x >>= f) := by
  intro s hs
  obtain ⟨hR, hQ⟩ := hx s hs
  cases h : x s with
  | ok a t =>
    rw [after_ok h] at hR hQ
    have hrest : after (x >>= f) s = after (f a) t := by
      unfold after
      rw [bind_ok h]
    obtain ⟨hR', hU'⟩ := hf a s t hs h hQ t rfl
    rw [hrest]
    exact ⟨htrans _ _ _ hR hR', hU'⟩
  | error e t =>
    rw [after_error h] at hR hQ
    rw [after_error (bind_error h)]
    exact ⟨hR, hU t hQ⟩

theorem framed_bind (htrans : ∀ s t u, R s t → R t u → R s u) {x : EStateM ε σ α}
    {f : α → EStateM ε σ β} (hx : Framed R P Q x)
    (hf : ∀ a s t, P s → x s = .ok a t → Framed R Q U (f a)) (hU : ∀ s, Q s → U s) :
    Framed R P U (x >>= f) :=
  framed_bind_at htrans hx (fun a s t hs h hQ => (hf a s t hs h).mono (fun _ hu => hu ▸ hQ)
    fun _ h => h) hU

/-- A run from a given state; what was read from it can then be used. -/
theorem framed_at {x : EStateM ε σ α} (h : ∀ s, P s → Framed R (fun t => t = s) Q x) :
    Framed R P Q x := fun s hs => h s hs s rfl

/-- After a look at the state, the state is still the one that was looked at. -/
theorem framed_look (hrefl : ∀ s, R s s) {x : EStateM ε σ α} {f : α → EStateM ε σ β} {s : σ}
    (hx : after x s = s) (hf : ∀ a, x s = .ok a s → Framed R (fun t => t = s) U (f a)) (hU : U s) :
    Framed R (fun t => t = s) U (x >>= f) := by
  rintro t rfl
  cases h : x t with
  | ok a u =>
    have hu : u = t := by rw [← hx, after_ok h]
    subst hu
    have hrest : after (x >>= f) u = after (f a) u := by
      unfold after
      rw [bind_ok h]
    rw [hrest]
    exact hf a h u rfl
  | error e u =>
    have hu : u = t := by rw [← hx, after_error h]
    rw [after_error (bind_error h), hu]
    exact ⟨hrefl t, hU⟩

theorem framed_when (hrefl : ∀ s, R s s) (c : Prop) [Decidable c] {x : EStateM ε σ PUnit}
    (hx : c → Framed R P P x) : Framed R P P (when c x) := by
  by_cases h : c
  · rw [when_true h]
    exact hx h
  · rw [when_false h]
    exact framed_pure hrefl (fun _ hs => hs) _

theorem framed_attempt {x : EStateM ε σ α} (hx : Framed R P Q x) : Framed R P Q (attempt x) := by
  intro s hs
  have h := hx s hs
  unfold after attempt at *
  cases hxs : x s <;> simpa [hxs] using h

/-- `y` is `x` with a clean-up `c` after a failure. -/
theorem framed_cleanup (htrans : ∀ s t u, R s t → R t u → R s u) {x y : EStateM ε σ α}
    {c : EStateM ε σ β} (hok : ∀ s a t, x s = .ok a t → after y s = t)
    (herror : ∀ s e t, x s = .error e t → after y s = after c t)
    (hx : Framed R P Q x) (hc : Framed R Q Q c) : Framed R P Q y := by
  intro s hs
  obtain ⟨hR, hQ⟩ := hx s hs
  cases h : x s with
  | ok a t =>
    rw [after_ok h] at hR hQ
    rw [hok s a t h]
    exact ⟨hR, hQ⟩
  | error e t =>
    rw [after_error h] at hR hQ
    obtain ⟨hR', hQ'⟩ := hc t hQ
    rw [herror s e t h]
    exact ⟨htrans _ _ _ hR hR', hQ'⟩

theorem framed_forM (hrefl : ∀ s, R s s) (htrans : ∀ s t u, R s t → R t u → R s u)
    {f : α → EStateM ε σ PUnit} (xs : List α) (hf : ∀ x ∈ xs, Framed R P P (f x)) :
    Framed R P P (xs.forM f) := by
  induction xs with
  | nil => exact framed_pure hrefl (fun _ hs => hs) _
  | cons x xs ih =>
    show Framed R P P (f x >>= fun _ => xs.forM f)
    refine framed_bind htrans (hf x List.mem_cons_self) ?_ (fun _ hs => hs)
    exact fun _ _ _ _ _ => ih fun y hy => hf y (List.mem_cons_of_mem x hy)

end BranchFs.Logic
