import Mathlib.Data.List.Basic

/-!
# Descriptors that are read piece by piece

What a descriptor still has to deliver, and how it will: a call of `read` may be
interrupted by a signal, or find only some of the bytes ready.  When nothing more is
said, everything asked for is ready.

## Main results

* `Source.read_interrupted`, `Source.read_some`: what one call can do.
-/

namespace Petrush.Lib.Reads

/-- What a call of `read` meets: a signal, or that many bytes and one more. -/
inductive Turn where
  | interrupted
  | ready (more : Nat)
  deriving Repr, DecidableEq

/-- The bytes to come, and what the calls to come meet. -/
structure Source (α : Type) where
  rest : List α
  turns : List Turn := []
  deriving Repr, DecidableEq

namespace Source

variable {α : Type}

/-- `read(fd, buf, want)`: nothing for `EINTR`, no bytes at the end of the file. -/
def read (want : Nat) : Source α → Option (List α) × Source α
  | ⟨rest, []⟩ => (some (rest.take want), ⟨rest.drop want, []⟩)
  | ⟨rest, .interrupted :: turns⟩ => (none, ⟨rest, turns⟩)
  | ⟨rest, .ready more :: turns⟩ =>
      (some (rest.take (min want (more + 1))), ⟨rest.drop (min want (more + 1)), turns⟩)

/-- What decreases when a call gets something, or nothing because of a signal. -/
def size (p : Source α) : Nat := p.rest.length + p.turns.length

theorem read_interrupted {want : Nat} {p p' : Source α} (h : p.read want = (none, p')) :
    p'.rest = p.rest ∧ p'.size < p.size := by
  obtain ⟨rest, turns⟩ := p
  cases turns with
  | nil => simp [read] at h
  | cons turn turns =>
      cases turn with
      | interrupted =>
          obtain rfl : (⟨rest, turns⟩ : Source α) = p' := (Prod.mk.inj h).2
          exact ⟨rfl, by simp [size]⟩
      | ready more => simp [read] at h

/-- A call that returns bytes returns the next ones, no more than were asked for. -/
theorem read_some {want : Nat} {p p' : Source α} {chunk : List α}
    (h : p.read want = (some chunk, p')) :
    p.rest = chunk ++ p'.rest ∧ chunk.length ≤ want ∧ (0 < want → chunk = [] → p.rest = []) ∧
      (chunk ≠ [] → p'.size < p.size) := by
  obtain ⟨rest, turns⟩ := p
  cases turns with
  | nil =>
      simp only [read, Prod.mk.injEq, Option.some.injEq] at h
      obtain ⟨rfl, rfl⟩ := h
      refine ⟨(List.take_append_drop want rest).symm, List.length_take_le _ _, ?_, ?_⟩
      · intro hwant hnil
        simp only [List.take_eq_nil_iff] at hnil
        exact hnil.resolve_left (by omega)
      · intro hne
        have hpos := List.length_pos_iff.mpr hne
        simp only [List.length_take] at hpos
        simp only [size, List.length_drop]
        omega
  | cons turn turns =>
      cases turn with
      | interrupted => simp [read] at h
      | ready more =>
          simp only [read, Prod.mk.injEq, Option.some.injEq] at h
          obtain ⟨rfl, rfl⟩ := h
          refine ⟨(List.take_append_drop _ rest).symm, ?_, ?_, ?_⟩
          · exact Nat.le_trans (List.length_take_le _ _) (Nat.min_le_left _ _)
          · intro hwant hnil
            simp only [List.take_eq_nil_iff] at hnil
            exact hnil.resolve_left (by omega)
          · intro _
            simp only [size, List.length_drop, List.length_cons]
            omega

end Source

end Petrush.Lib.Reads
