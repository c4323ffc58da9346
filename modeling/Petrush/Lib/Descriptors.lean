import Mathlib.Data.List.Basic

/-!
# Tables of descriptors

What each descriptor of a process refers to.  A new descriptor is the lowest that is
free; there is always one, and whether a call is refused all the same is said by the
program that makes it.

## Main results

* `get_put`: a table after one change.
* `get_free`, `three_le_free`: a new descriptor was free, and is none of the standard ones
  while these are open.
-/

namespace Petrush.Lib.Descriptors

/-- A table; the descriptors beyond its end are free. -/
abbrev Table (φ : Type) := List (Option φ)

variable {φ : Type}

/-- What a descriptor refers to. -/
def get (t : Table φ) (fd : Nat) : Option φ := t.getD fd none

/-- The descriptor refers to `v` from now on. -/
def put (t : Table φ) (fd : Nat) (v : Option φ) : Table φ :=
  if fd < t.length then t.set fd v else t ++ List.replicate (fd - t.length) none ++ [v]

/-- The lowest descriptor that is free. -/
def free (t : Table φ) : Nat := t.findIdx Option.isNone

/-- A descriptor for a file: the table, and the descriptor. -/
def alloc (t : Table φ) (file : φ) : Table φ × Nat := (put t (free t) (some file), free t)

/-- `close`. -/
def close (t : Table φ) (fd : Nat) : Table φ := put t fd none

/-- `dup`, when it is not refused. -/
def dup (t : Table φ) (fd : Nat) : Option (Table φ × Nat) := (get t fd).map (alloc t)

/-- `dup2`, when it is not refused. -/
def dup2 (t : Table φ) (old new : Nat) : Table φ := put t new (get t old)

theorem get_put (t : Table φ) (fd i : Nat) (v : Option φ) :
    get (put t fd v) i = if i = fd then v else get t i := by
  simp only [get, put, List.getD_eq_getElem?_getD]
  by_cases hlt : fd < t.length
  · rw [if_pos hlt, List.getElem?_set]
    by_cases hi : i = fd
    · simp [hi, hlt]
    · simp [hi, Ne.symm hi]
  · rw [if_neg hlt, List.append_assoc]
    by_cases hin : i < t.length
    · have hi : i ≠ fd := by omega
      rw [List.getElem?_append_left hin, if_neg hi]
    · rw [List.getElem?_append_right (by omega), List.getElem?_eq_none (l := t) (by omega)]
      by_cases hgap : i < fd
      · have hi : i ≠ fd := by omega
        rw [List.getElem?_append_left (by rw [List.length_replicate]; omega), if_neg hi,
          List.getElem?_replicate]
        split <;> rfl
      · rw [List.getElem?_append_right (by rw [List.length_replicate]; omega),
          List.length_replicate]
        by_cases hi : i = fd
        · subst hi
          simp
        · have hbeyond : i - t.length - (fd - t.length) ≠ 0 := by omega
          simp [hi, hbeyond]

theorem get_map {ψ : Type} (g : φ → ψ) (t : Table φ) (i : Nat) :
    get (t.map (Option.map g)) i = (get t i).map g := by
  simp only [get, List.getD_eq_getElem?_getD, List.getElem?_map]
  cases t[i]? with
  | none => rfl
  | some v => rfl

theorem get_free (t : Table φ) : get t (free t) = none := by
  simp only [get, free, List.getD_eq_getElem?_getD]
  by_cases hlt : t.findIdx Option.isNone < t.length
  · have hnone := List.findIdx_getElem (w := hlt)
    rw [List.getElem?_eq_getElem hlt]
    simpa using hnone
  · rw [List.getElem?_eq_none (by omega)]
    rfl

/-- A descriptor that is open is not given again. -/
theorem ne_free {t : Table φ} {fd : Nat} (h : get t fd ≠ none) : fd ≠ free t := by
  intro heq
  rw [heq, get_free] at h
  exact h rfl

theorem three_le_free {t : Table φ} (h : ∀ fd < 3, get t fd ≠ none) : 3 ≤ free t := by
  by_contra hlt
  exact h (free t) (by omega) (get_free t)

end Petrush.Lib.Descriptors
