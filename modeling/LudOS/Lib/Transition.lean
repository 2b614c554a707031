import Mathlib.Tactic.Common

/-!
# Labelled transition systems

`Steps` is the reflexive and transitive closure of a labelled step relation with the list of the
labels taken, `Guarded` restricts a step relation to the steps that meet a condition on the state
before the step. `Steps.invariant` is the induction every safety result rests on.
-/

namespace LudOS.Lib

variable {σ ε : Type}

/-- Finitely many transitions with the labels they carry. -/
inductive Steps (step : σ → ε → σ → Prop) : σ → List ε → σ → Prop where
  | refl (s) : Steps step s [] s
  | snoc {s t u : σ} {es : List ε} {e : ε} :
      Steps step s es t → step t e u → Steps step s (es ++ [e]) u

/-- The transitions of `step` that are taken in a state where `guard` allows them. -/
def Guarded (guard : σ → ε → Prop) (step : σ → ε → σ → Prop) : σ → ε → σ → Prop :=
  fun s e t => guard s e ∧ step s e t

variable {t s : σ} {step : σ → ε → σ → Prop} {es : List ε}

/-- What holds at the start and is kept by every step holds at the end of every run. -/
theorem Steps.invariant (inv : σ → Prop) (hstep : ∀ s e t, inv s → step s e t → inv t)
    (hrun : Steps step s es t) (hs : inv s) : inv t := by
  induction hrun with
  | refl => exact hs
  | snoc _ hlast ih => exact hstep _ _ _ ih hlast

/-- The same with an invariant that may also speak about the labels taken so far. -/
theorem Steps.history (inv : List ε → σ → Prop)
    (hstep : ∀ es s e t, inv es s → step s e t → inv (es ++ [e]) t)
    (hrun : Steps step s es t) (hs : inv [] s) : inv es t := by
  induction hrun with
  | refl => exact hs
  | snoc _ hlast ih => exact hstep _ _ _ _ ih hlast

/-- A run from `t` extends a run that ends in `t`. -/
theorem Steps.append {u : σ} {es' : List ε}
    (hfirst : Steps step s es t) (hlast : Steps step t es' u) : Steps step s (es ++ es') u := by
  induction hlast with
  | refl => simpa using hfirst
  | snoc _ hstep ih => simpa using Steps.snoc ih hstep

end LudOS.Lib
