import Mathlib.Logic.Basic

/-!
# What holds at every step of a run

A run takes its steps one after the other from a state.  A property of the steps holds all
along the run; two properties that agree wherever an invariant holds do so together, when
one of them keeps the invariant.

## Main results

* `always_iff`: the rule.
-/

namespace Petrush.Lib.Steps

variable {σ α : Type} (step : σ → α → σ)

/-- Every step of the run has the property, in the state before it. -/
def Always (P : σ → α → Prop) : σ → List α → Prop
  | _, [] => True
  | s, a :: as => P s a ∧ Always P (step s a) as

variable {step}

/-- **Two properties agree along a run** when they agree under an invariant that the
second keeps. -/
theorem always_iff {P Q : σ → α → Prop} (Inv : σ → Prop)
    (hiff : ∀ s a, Inv s → (P s a ↔ Q s a)) (hstep : ∀ s a, Inv s → Q s a → Inv (step s a))
    (as : List α) : ∀ {s : σ}, Inv s → (Always step P s as ↔ Always step Q s as) := by
  induction as with
  | nil => exact fun _ => Iff.rfl
  | cons a as ih =>
      intro s hinv
      rw [Always, Always, hiff s a hinv]
      exact and_congr_right fun hq => ih (hstep s a hinv hq)

end Petrush.Lib.Steps
