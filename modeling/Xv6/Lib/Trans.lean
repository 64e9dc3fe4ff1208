import Mathlib.Data.List.Basic

/-!
# Runs of a labelled transition system

A step relation `step s es s'` takes a state to a state and emits a list of events. A run emits the
events of its steps in order.
-/

namespace Trans

variable {σ ε : Type} {step : σ → List ε → σ → Prop} {s s' s'' : σ} {es fs : List ε}

/-- A run of `step`, with its trace. -/
inductive Run (step : σ → List ε → σ → Prop) (s : σ) : List ε → σ → Prop
  | refl : Run step s [] s
  | tail {es fs : List ε} {s' s'' : σ} :
      Run step s es s' → step s' fs s'' → Run step s (es ++ fs) s''

namespace Run

theorem single (h : step s es s') : Run step s es s' := by
  simpa using Run.tail Run.refl h

theorem trans (h : Run step s es s') (h' : Run step s' fs s'') : Run step s (es ++ fs) s'' := by
  induction h' with
  | refl => simpa using h
  | tail _ hs ih =>
    rw [← List.append_assoc]
    exact ih.tail hs

/-- Prefix a run with a step. -/
theorem head (h : step s es s') (h' : Run step s' fs s'') : Run step s (es ++ fs) s'' :=
  (single h).trans h'

/-- The run that an executable step computes. -/
theorem of_foldlM {f : σ → ε → Option σ} (hf : ∀ s e s', f s e = some s' → step s [e] s') (h : es.foldlM f s = some s') :
    Run step s es s' := by
  induction es generalizing s with
  | nil =>
    cases h
    exact .refl
  | cons e es ih =>
    obtain ⟨s₁, he, h⟩ := Option.bind_eq_some_iff.1 h
    exact head (hf s e s₁ he) (ih h)

/-- A property of traces and states that every step keeps holds along every run. -/
theorem invariant {I : List ε → σ → Prop} (h₀ : I [] s)
    (hstep : ∀ es s fs s', I es s → step s fs s' → I (es ++ fs) s') (hr : Run step s es s') :
    I es s' := by
  induction hr with
  | refl => exact h₀
  | tail _ hs ih => exact hstep _ _ _ _ ih hs

end Run

end Trans
