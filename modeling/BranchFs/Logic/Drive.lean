/-
# BranchFs.Logic.Drive -- a machine that drives another one

The outer machine takes inputs; each of them sends the inner one a few acts, computed from the state the input
meets. When every input moves the inner state by its acts, a run of the outer machine is a run of the inner one
over the trace of all acts (`Drives.run`), so what is known of the inner machine is known of the outer.

An invariant of the outer machine may be what makes the acts safe, and conditions on the acts what keeps the
invariant: `Drives.safe` is the induction for both at once.
-/
import BranchFs.Logic.Effect

namespace BranchFs.Logic

variable {σ ι μ α : Type}

/-- The acts of the inputs, in order. -/
def trace (step : σ → ι → σ) (emits : σ → ι → List α) : σ → List ι → List α
  | _, [] => []
  | s, i :: is => emits s i ++ trace step emits (step s i) is

/-- Every input moves the inner state by the acts it sends. -/
structure Drives (step : σ → ι → σ) (emits : σ → ι → List α) (act : μ → α → μ) (view : σ → μ) : Prop where
  step : ∀ s i, view (step s i) = run act (view s) (emits s i)

namespace Drives

variable {step : σ → ι → σ} {emits : σ → ι → List α} {act : μ → α → μ} {view : σ → μ}

/-- A run of the outer machine is the run of its acts. -/
theorem run (h : Drives step emits act view) (s : σ) (is : List ι) :
    view (Logic.run step s is) = Logic.run act (view s) (trace step emits s is) := by
  induction is generalizing s with
  | nil => rfl
  | cons i is ih =>
    unfold trace
    rw [run_cons, ih, h.step, run_append]

/-- An invariant under which every act is safe, and that is kept by every input whose acts meet a
condition, makes all acts of a run safe. -/
theorem safe (h : Drives step emits act view) {I : σ → Prop} {C P : μ → α → Prop}
    (hstep : ∀ s i, I s → Along act C (view s) (emits s i) →
      I (step s i) ∧ Along act P (view s) (emits s i)) :
    ∀ (is : List ι) (s : σ), I s → Along act C (view s) (trace step emits s is) →
      I (Logic.run step s is) ∧ Along act P (view s) (trace step emits s is) := by
  intro is
  induction is with
  | nil => exact fun s hs _ => ⟨hs, trivial⟩
  | cons i is ih =>
    intro s hs hC
    unfold trace at hC ⊢
    obtain ⟨hnow, hlater⟩ := along_append.mp hC
    obtain ⟨hnext, hsafe⟩ := hstep s i hs hnow
    rw [← h.step] at hlater
    obtain ⟨hlast, hrest⟩ := ih (step s i) hnext hlater
    rw [run_cons]
    refine ⟨hlast, along_append.mpr ⟨hsafe, ?_⟩⟩
    rw [← h.step]
    exact hrest

/-- What every safe act keeps of the inner state is kept by the run. -/
theorem kept (h : Drives step emits act view) {I : μ → Prop} {P : μ → α → Prop}
    (hact : ∀ m a, I m → P m a → I (act m a)) {s : σ} {is : List ι} (hs : I (view s))
    (hP : Along act P (view s) (trace step emits s is)) : I (view (Logic.run step s is)) := by
  rw [h.run]
  exact run_inv hact _ _ hs hP

end Drives

end BranchFs.Logic
