import Petrush.Mid.Positional
import Petrush.Mid.Dispatcher

/-!
# `shift`

A count that fits an `int` is taken off the front of the positionals, or refused when
there are not so many.  From `2 ^ 31` on the count is negative where it is compared:
it is not refused, and what is moved begins before the array.

## Main results

* `shift_front` — what a count that fits does.
* `shift_negative` — what any other does.
* `shift_iff` — the counts for which `shift` is exact.
* `positionalShift_refines` — for these, the shell's list is what the array holds.
-/

namespace Petrush.Verified.Shift

open Petrush.Lib.Cells
open Petrush.Lib.CText
open Petrush.Lib.Run
open Petrush.Lib.Stdlib
open Petrush.Mid.Dispatcher
open Petrush.Mid.Positional
open Petrush.Mid.State

/-- The array holds the positionals; cells behind them are spare. -/
def Holds (m : Positionals) (l : List Text) : Prop :=
  m.nargs = l.length ∧ ∃ spare, m.args = l.map some ++ spare

/-- `shift n` takes the first `n` positionals off, or refuses and leaves all of them;
either way it stays inside the array. -/
def Exact (m : Positionals) (l : List Text) (n : Nat) : Prop :=
  if n ≤ l.length then
    ∃ m', petrushPositionalShift m n = .ok (0, m') ∧ Holds m' (l.drop n) ∧ m'.arg0 = m.arg0
  else petrushPositionalShift m n = .ok (-1, m)

/-! ## A count that fits -/

/-- The freed cells are `NULL`. -/
theorem freeFrom_append (after : List (Option Text)) : ∀ (old before : List (Option Text)),
    freeFrom old.length before.length (before ++ old ++ after) =
      .ok (before ++ List.replicate old.length none ++ after) := by
  intro old
  induction old with
  | nil =>
      intro before
      simp [freeFrom]
      rfl
  | cons a old ih =>
      intro before
      have hsplit : before ++ a :: old ++ after = before ++ a :: (old ++ after) := by simp
      have hnext : before ++ none :: (old ++ after) = before ++ [none] ++ old ++ after := by simp
      have hlen : before.length + 1 = (before ++ [(none : Option Text)]).length := by simp
      rw [List.length_cons, freeFrom, hsplit, read_append]
      show (write (before ++ a :: (old ++ after)) before.length none >>= fun args =>
        freeFrom old.length (before.length + 1) args) = _
      rw [write_append, hnext]
      show freeFrom old.length (before.length + 1) (before ++ [none] ++ old ++ after) = _
      rw [hlen, ih, List.replicate_succ]
      simp

/-- What is left is moved to the front, and the cells it leaves are `NULL`. -/
theorem slide_append (gap block after : List (Option Text)) :
    ∃ rest, rest.length = gap.length + after.length ∧
      slide (gap ++ block ++ after) gap.length block.length = .ok (block ++ rest) := by
  obtain ⟨hole, rest, hhole, hrest, hmove⟩ := memmove_append [] gap block after 0 (Nat.zero_le _)
  obtain rfl := List.length_eq_zero_iff.mp hhole
  refine ⟨rest, by simpa using hrest, ?_⟩
  rw [slide, if_neg (by omega)]
  simpa using hmove

/-- The slots behind what is left are set to `NULL`. -/
theorem writes_behind (block rest : List (Option Text)) {n : Nat} (h : n ≤ rest.length) :
    ∃ spare, writes (block ++ rest) block.length (List.replicate n none) = .ok (block ++ spare) := by
  have hold : (rest.take n).length = (List.replicate n (none : Option Text)).length := by
    simp [h]
  have hwrites := writes_append (rest.drop n) (List.replicate n none) (rest.take n) block hold
  rw [List.append_assoc, List.take_append_drop, List.append_assoc] at hwrites
  exact ⟨_, hwrites⟩

/-- The part of the routine behind its two tests, on the array in parts. -/
theorem shift_parts {m : Positionals} {n : Nat} (front block spare : List (Option Text))
    (hargs : m.args = front ++ block ++ spare) (hnargs : m.nargs = front.length + block.length)
    (hn : front.length = n) (hint : toInt n = n) (hzero : n ≠ 0) :
    ∃ spare', petrushPositionalShift m n =
      .ok (0, { m with args := block ++ spare', nargs := block.length }) := by
  have hfree : freeFrom n 0 m.args = .ok (List.replicate n none ++ block ++ spare) := by
    have h := freeFrom_append (block ++ spare) front []
    simpa [hargs, hn] using h
  have hremain : m.nargs - toInt n = block.length := by omega
  have htest : ¬ toInt n > m.nargs := by omega
  have hcount : (toInt n).toNat = n := by omega
  rw [petrushPositionalShift, if_neg hzero, if_neg htest, hcount, hfree]
  simp only [hremain, bind, Except.bind, pure, Except.pure]
  by_cases hblock : block = []
  · subst hblock
    exact ⟨[], by simp⟩
  · have hpos : (block.length : Int) > 0 := by
      have := List.length_pos_iff.mpr hblock
      omega
    obtain ⟨rest, hrest, hslide⟩ := slide_append (List.replicate n none) block spare
    obtain ⟨spare', hwrites⟩ := writes_behind block rest (n := n)
      (by rw [hrest, List.length_replicate]; omega)
    have hnull : (m.nargs - (block.length : Int)).toNat = n := by omega
    have hlen : ((block.length : Int)).toNat = block.length := by omega
    rw [List.length_replicate] at hslide
    refine ⟨spare', ?_⟩
    rw [if_pos hpos, hint, hlen, hnull, hslide]
    simp only [hwrites]
    simp [hblock]

/-- **A count that fits** takes as many positionals off. -/
theorem shift_front {m : Positionals} {l : List Text} {n : Nat} (hm : Holds m l)
    (hn : n < 2 ^ 31) (hle : n ≤ l.length) :
    ∃ m', petrushPositionalShift m n = .ok (0, m') ∧ Holds m' (l.drop n) ∧ m'.arg0 = m.arg0 := by
  obtain ⟨hnargs, spare, hargs⟩ := hm
  have hint : toInt n = n := by rw [toInt, if_pos hn]
  by_cases hzero : n = 0
  · subst hzero
    exact ⟨m, rfl, ⟨by simpa using hnargs, spare, by simpa using hargs⟩, rfl⟩
  · have hsplit : m.args = (l.take n).map some ++ (l.drop n).map some ++ spare := by
      rw [← List.map_append, List.take_append_drop, hargs]
    have hlen : m.nargs = ((l.take n).map some).length + ((l.drop n).map some).length := by
      simp only [List.length_map, List.length_take, List.length_drop]
      omega
    obtain ⟨spare', hshift⟩ := shift_parts _ _ spare hsplit hlen (by simp [hle]) hint hzero
    exact ⟨_, hshift, ⟨by simp, spare', rfl⟩, rfl⟩

/-- **A count above the number** of positionals is refused. -/
theorem shift_refused {m : Positionals} {l : List Text} {n : Nat} (hm : Holds m l)
    (hn : n < 2 ^ 31) (hlt : l.length < n) : petrushPositionalShift m n = .ok (-1, m) := by
  have hint : toInt n = n := by rw [toInt, if_pos hn]
  have htest : toInt n > m.nargs := by
    rw [hint, hm.1]
    omega
  rw [petrushPositionalShift, if_neg (by omega), if_pos htest]
  rfl

/-! ## A count that is negative as an `int` -/

/-- **Any other count** moves cells from before the array. -/
theorem shift_negative {m : Positionals} {l : List Text} {n : Nat} (hm : Holds m l)
    (hn : 2 ^ 31 ≤ n) (hmax : n < 2 ^ 32) : petrushPositionalShift m n = .error .outside := by
  have hint : toInt n = n - 2 ^ 32 := by rw [toInt, if_neg (by omega)]
  have hneg : toInt n < 0 := by omega
  have htest : ¬ toInt n > m.nargs := by
    rw [hm.1]
    omega
  have hfree : (toInt n).toNat = 0 := by omega
  have hremain : m.nargs - toInt n > 0 := by
    rw [hm.1]
    omega
  rw [petrushPositionalShift, if_neg (by omega), if_neg htest, hfree]
  simp only [freeFrom, bind, Except.bind, pure, Except.pure, if_pos hremain, slide, if_pos hneg]

/-! ## The counts -/

/-- **`shift` is exact for the counts that fit an `int`**, and for no other. -/
theorem shift_iff (m : Positionals) (l : List Text) (n : Nat) (hm : Holds m l)
    (hl : l.length < 2 ^ 31) (hn : n < 2 ^ 32) : Exact m l n ↔ n < 2 ^ 31 := by
  constructor
  · intro hexact
    by_contra hlarge
    rw [Exact, if_neg (by omega), shift_negative hm (by omega) hn] at hexact
    contradiction
  · intro hsmall
    rw [Exact]
    split
    next hle => exact shift_front hm hsmall hle
    next hle => exact shift_refused hm hsmall (by omega)

/-- Two positionals. -/
def twoArgs : Positionals := ⟨some "petrush".toList, [some "a".toList, some "b".toList], 2⟩

theorem shift_iff_two : Exact twoArgs ["a".toList, "b".toList] 1 ↔ 1 < 2 ^ 31 :=
  shift_iff twoArgs _ 1 ⟨rfl, [], rfl⟩ (by decide) (by decide)

/-- `shift 4294967295` reads the cell before `$1`. -/
theorem shift_before_array : parseLong "4294967295".toList = some 4294967295 ∧
    petrushPositionalShift twoArgs 4294967295 = .error .outside ∧
    ¬ Exact twoArgs ["a".toList, "b".toList] 4294967295 := by
  have hshift : petrushPositionalShift twoArgs 4294967295 = .error .outside := by decide
  refine ⟨by decide, hshift, ?_⟩
  rw [Exact, if_neg (by decide), hshift]
  simp

/-- **The shell's list** is shifted as the array is, and the status says whether it was. -/
theorem positionalShift_refines {m : Positionals} {s : Shell} {n : Nat}
    (hm : Holds m s.ctx.args) (hn : n < 2 ^ 31) :
    ∃ ret m', petrushPositionalShift m n = .ok (ret, m') ∧
      (positionalShift n s).value = some (if ret = 0 then 0 else 1) ∧
      Holds m' (positionalShift n s).state.ctx.args := by
  by_cases hle : n ≤ s.ctx.args.length
  · obtain ⟨m', hshift, hholds, -⟩ := shift_front hm hn hle
    have hrun : positionalShift n s =
        .ok { s with ctx := { s.ctx with args := s.ctx.args.drop n } } 0 := by
      have htest : ¬ n > s.ctx.args.length := by omega
      simp only [positionalShift, bind_apply, Prog.bind, look, id, if_neg htest]
      rfl
    exact ⟨0, m', hshift, by rw [hrun]; rfl, by rw [hrun]; exact hholds⟩
  · have hrun : positionalShift n s = .ok s 1 := by
      have htest : n > s.ctx.args.length := by omega
      simp only [positionalShift, bind_apply, Prog.bind, look, id, if_pos htest]
      rfl
    exact ⟨-1, m, shift_refused hm hn (by omega), by rw [hrun]; rfl, by rw [hrun]; exact hm⟩

end Petrush.Verified.Shift
