import Mathlib.Data.List.Basic

/-!
# Arrays with bounds

An allocated array is the list of its cells.  Every access says whether it stays
inside; one that does not is a fault, not a value.  `realloc` takes the contents of
the cells it adds as a parameter, since C leaves them open.

## Main results

* `memmove_append` — a block is moved, in terms of the parts of the array.
* `writes_append`, `writes_at` — a run of writes.
-/

namespace Petrush.Lib.Cells

/-- Why a program on arrays ends early: an access outside, or the bound on its turns. -/
inductive Fault where
  | outside
  | bound
  deriving Repr, DecidableEq

variable {α : Type}

/-- `a[i]`. -/
def read (cells : List α) (i : Nat) : Except Fault α :=
  match cells[i]? with
  | some a => .ok a
  | none => .error .outside

/-- `a[i] = v`. -/
def write (cells : List α) (i : Nat) (v : α) : Except Fault (List α) :=
  if i < cells.length then .ok (cells.set i v) else .error .outside

/-- `realloc(a, n * sizeof *a)`. -/
def realloc (junk : α) (n : Nat) (cells : List α) : List α :=
  cells.take n ++ List.replicate (n - cells.length) junk

/-- `memmove(&a[dst], &a[src], n * sizeof *a)`; moving nothing accesses nothing. -/
def memmove (cells : List α) (dst src n : Nat) : Except Fault (List α) :=
  if n = 0 then .ok cells
  else if src + n ≤ cells.length ∧ dst + n ≤ cells.length then
    .ok (cells.take dst ++ (cells.drop src).take n ++ cells.drop (dst + n))
  else .error .outside

/-- `a[i] = v_0, a[i + 1] = v_1, …`. -/
def writes : List α → Nat → List α → Except Fault (List α)
  | cells, _, [] => .ok cells
  | cells, i, v :: vs => do
      let cells ← write cells i v
      writes cells (i + 1) vs

/-! ## On an array given in parts -/

theorem read_append (before after : List α) (a : α) :
    read (before ++ a :: after) before.length = .ok a := by
  rw [read, List.getElem?_append_right (Nat.le_refl _), Nat.sub_self]
  rfl

theorem write_append (before after : List α) (a v : α) :
    write (before ++ a :: after) before.length v = .ok (before ++ v :: after) := by
  rw [write, if_pos (by simp), List.set_append_right _ _ (Nat.le_refl _), Nat.sub_self]
  rfl

theorem writes_append (after : List α) : ∀ (vs old before : List α), old.length = vs.length →
    writes (before ++ old ++ after) before.length vs = .ok (before ++ vs ++ after) := by
  intro vs
  induction vs with
  | nil =>
      intro old before hlen
      rw [List.length_eq_zero_iff.mp hlen]
      rfl
  | cons v vs ih =>
      intro old before hlen
      cases old with
      | nil => contradiction
      | cons a old =>
          have hsplit : before ++ a :: old ++ after = before ++ a :: (old ++ after) := by simp
          have hnext : before ++ v :: (old ++ after) = before ++ [v] ++ old ++ after := by simp
          have hlen' : before.length + 1 = (before ++ [v]).length := by simp
          rw [writes, hsplit, write_append, hnext]
          show writes (before ++ [v] ++ old ++ after) (before.length + 1) vs = _
          rw [hlen', ih old (before ++ [v]) (Nat.succ.inj hlen)]
          simp

/-- A run of writes inside, by its place. -/
theorem writes_at {cells vs : List α} {i : Nat} (h : i + vs.length ≤ cells.length) :
    writes cells i vs = .ok (cells.take i ++ vs ++ cells.drop (i + vs.length)) := by
  have hold : ((cells.drop i).take vs.length).length = vs.length := by
    rw [List.length_take, List.length_drop]
    omega
  have hbefore : (cells.take i).length = i := by
    rw [List.length_take]
    omega
  have hsplit : cells =
      cells.take i ++ (cells.drop i).take vs.length ++ cells.drop (i + vs.length) := by
    rw [List.append_assoc, ← List.drop_drop, List.take_append_drop, List.take_append_drop]
  have hwrite := writes_append (cells.drop (i + vs.length)) vs _ (cells.take i) hold
  rw [hbefore, ← hsplit] at hwrite
  exact hwrite

/-- The block behind the cells `gap` is moved so that `room` cells stand before it. -/
theorem memmove_append (before gap block after : List α) (room : Nat)
    (hfits : room ≤ gap.length + after.length) :
    ∃ hole rest, hole.length = room ∧ rest.length = gap.length + after.length - room ∧
      memmove (before ++ gap ++ block ++ after) (before.length + room)
        (before.length + gap.length) block.length = .ok (before ++ hole ++ block ++ rest) := by
  by_cases hblock : block = []
  · subst hblock
    refine ⟨(gap ++ after).take room, (gap ++ after).drop room, ?_, ?_, ?_⟩
    · rw [List.length_take, List.length_append]
      omega
    · rw [List.length_drop, List.length_append]
    · rw [memmove, List.length_nil, if_pos rfl]
      simp only [List.append_nil, List.append_assoc, List.take_append_drop]
  · have hpos : block.length ≠ 0 := fun h => hblock (List.length_eq_zero_iff.mp h)
    have htake : (before ++ gap ++ block ++ after).take (before.length + room) =
        before ++ (gap ++ block ++ after).take room := by
      rw [List.append_assoc, List.append_assoc, List.take_length_add_append, List.append_assoc]
    have hdrop : ((before ++ gap ++ block ++ after).drop (before.length + gap.length)).take
        block.length = block := by
      rw [List.append_assoc (before ++ gap), ← List.length_append, List.drop_left, List.take_left]
    refine ⟨(gap ++ block ++ after).take room,
      (before ++ gap ++ block ++ after).drop (before.length + room + block.length), ?_, ?_, ?_⟩
    · rw [List.length_take]
      simp only [List.length_append]
      omega
    · rw [List.length_drop]
      simp only [List.length_append]
      omega
    · rw [memmove, if_neg hpos, if_pos, htake, hdrop]
      simp only [List.length_append]
      omega

/-- Growing keeps what was there. -/
theorem realloc_grow (junk : α) {n : Nat} {cells : List α} (h : cells.length ≤ n) :
    realloc junk n cells = cells ++ List.replicate (n - cells.length) junk := by
  rw [realloc, List.take_of_length_le h]

theorem length_realloc (junk : α) (n : Nat) (cells : List α) : (realloc junk n cells).length = n := by
  rw [realloc, List.length_append, List.length_take, List.length_replicate]
  omega

end Petrush.Lib.Cells
