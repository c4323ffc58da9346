import Mathlib.Data.List.Perm.Basic

/-!
# What comes in goes out or is held

A system takes things in and gives them out again; each of its steps holds what it held
and took in, less what it gave out.  Over a run, then, nothing is lost and nothing is given
out twice.
-/

namespace Petrush.Lib.Ledger

variable {σ ε α : Type} (step : σ → ε → σ)

/-- What the steps of a run give, one after another. -/
def along (f : σ → ε → List α) : σ → List ε → List α
  | _, [] => []
  | s, e :: es => f s e ++ along f (step s e) es

/-- The run is possible. -/
def Along (P : σ → ε → Prop) : σ → List ε → Prop
  | _, [] => True
  | s, e :: es => P s e ∧ Along P (step s e) es

variable {step} {takes gives : σ → ε → List α} {P : σ → ε → Prop} {I : σ → Prop}

/-- **Nothing is lost, nothing is given out twice.** -/
theorem balanced (held : σ → List α) (hkeeps : ∀ s e, I s → P s e → I (step s e))
    (hstep : ∀ s e, I s → P s e →
      (held s ++ takes s e).Perm (gives s e ++ held (step s e))) (es : List ε) :
    ∀ s, I s → Along step P s es →
      (held s ++ along step takes s es).Perm (along step gives s es ++ held (es.foldl step s)) := by
  induction es with
  | nil =>
      intro s _ _
      rw [along, along, List.append_nil, List.nil_append]
      exact List.Perm.refl _
  | cons e es ih =>
      intro s hs hes
      have hrest := ih (step s e) (hkeeps s e hs hes.1) hes.2
      have hnow := (hstep s e hs hes.1).append_right (along step takes (step s e) es)
      have hlater := hrest.append_left (gives s e)
      rw [List.append_assoc, List.append_assoc] at hnow
      rw [along, along, List.append_assoc]
      exact hnow.trans hlater

end Petrush.Lib.Ledger
