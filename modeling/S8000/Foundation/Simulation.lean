import Mathlib.Data.Set.Defs

/-! Runs of a relation whose steps have labels, and forward simulation. -/

namespace S8000.Foundation

variable {σ τ ε : Type*} {step : σ → ε → σ → Prop} {step' : τ → ε → τ → Prop} {s t u : σ} {a : τ} {es : List ε}

/-- The runs from a state, with the labels of their steps. -/
inductive Runs (step : σ → ε → σ → Prop) (s : σ) : List ε → σ → Prop
  | start : Runs step s [] s
  | step {t u : σ} {es : List ε} {e : ε} (h : Runs step s es t) (hstep : step t e u) : Runs step s (es ++ [e]) u

/-- What every step keeps holds after a run. -/
theorem Runs.keeps {p : σ → Prop} (h : Runs step s es t) (hstart : p s) (hkeeps : ∀ u e w, p u → step u e w → p w) : p t := by
  induction h with
  | start => exact hstart
  | step _ hstep ih => exact hkeeps _ _ _ ih hstep

/-- A relation that every step keeps takes runs to runs with the same labels. -/
theorem Runs.simulate {r : σ → τ → Prop} (h : Runs step s es t) (hstart : r s a)
    (hsim : ∀ u b e w, r u b → step u e w → ∃ c, step' b e c ∧ r w c) : ∃ b, Runs step' a es b ∧ r t b := by
  induction h with
  | start => exact ⟨a, .start, hstart⟩
  | step _ hstep ih =>
    obtain ⟨b, hruns, hr⟩ := ih
    obtain ⟨c, hstep', hr'⟩ := hsim _ b _ _ hr hstep
    exact ⟨c, hruns.step hstep', hr'⟩

end S8000.Foundation
