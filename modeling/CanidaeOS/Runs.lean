-- Runs of a system that takes labelled steps. What each step keeps holds at
-- the end of every run.
import Mathlib

namespace Runs

variable {σ ε : Type}

/-- A run: a first state, the events in order, and the state after them. -/
inductive Run (step : σ → ε → σ → Prop) : σ → List ε → σ → Prop
  | nil (s : σ) : Run step s [] s
  | snoc {s t u : σ} {es : List ε} {e : ε} :
      Run step s es t → step t e u → Run step s (es ++ [e]) u

variable {step : σ → ε → σ → Prop} {s t u : σ} {es es' : List ε}

/-- The invariant rule. -/
theorem Run.inv (I : σ → Prop) (hstep : ∀ s e s', I s → step s e s' → I s')
    (run : Run step s es t) (hs : I s) : I t := by
  induction run with
  | nil => exact hs
  | snoc _ hlast ih => exact hstep _ _ _ ih hlast

/-- The invariant rule with the events so far as part of the state. -/
theorem Run.inv_events (I : List ε → σ → Prop)
    (hstep : ∀ es s e s', I es s → step s e s' → I (es ++ [e]) s')
    (run : Run step s es t) (hs : I [] s) : I es t := by
  induction run with
  | nil => exact hs
  | snoc _ hlast ih => exact hstep _ _ _ _ ih hlast

theorem Run.trans (h1 : Run step s es t) (h2 : Run step t es' u) : Run step s (es ++ es') u := by
  induction h2 with
  | nil => simpa using h1
  | snoc _ hlast ih => simpa using Run.snoc ih hlast

theorem Run.single {e : ε} (h : step s e t) : Run step s [e] t := .snoc (.nil s) h

/-- The steps that `guard` allows. -/
def Guarded (guard : σ → ε → Prop) (step : σ → ε → σ → Prop) (s : σ) (e : ε) (s' : σ) : Prop :=
  guard s e ∧ step s e s'

end Runs
