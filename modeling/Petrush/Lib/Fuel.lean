/-!
# Recursion with a bound

A function that gives up when its bound is used up, and calls itself on smaller inputs only.
Two such functions are compared where both have a bound above the size of the input.
-/

namespace Petrush.Lib.Fuel

variable {σ α : Type}

/-- **Bounds above the size of the input do not matter.** -/
theorem covered (size : σ → Nat) {f g : Nat → σ → α} {R : σ → α → α → Prop}
    (hstep : ∀ n m x, (∀ y, size y < size x → R y (f n y) (g m y)) →
      R x (f (n + 1) x) (g (m + 1) x)) :
    ∀ {n m x}, size x < n → size x < m → R x (f n x) (g m x) := by
  intro n
  induction n with
  | zero => exact fun hn => absurd hn (Nat.not_lt_zero _)
  | succ n ih =>
      intro m x hn hm
      cases m with
      | zero => exact absurd hm (Nat.not_lt_zero _)
      | succ m =>
          refine hstep n m x fun y hy => ih ?_ ?_
          · exact Nat.lt_of_lt_of_le hy (Nat.le_of_lt_succ hn)
          · exact Nat.lt_of_lt_of_le hy (Nat.le_of_lt_succ hm)

end Petrush.Lib.Fuel
