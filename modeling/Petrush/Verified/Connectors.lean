import Petrush.Mid.Parser

/-!
# The connector scan over one token

`find_list_connector` walks over bytes, not tokens.  `Passes t r` says that it
walks over `t` without stopping when `r` follows, and `lookBehind` what it then
sees of the two bytes before it.
-/

namespace Petrush.Verified.Connectors

open Petrush.Lib.CText
open Petrush.Mid.Ast
open Petrush.Mid.Lexer
open Petrush.Mid.Parser

/-! ## Shifted results -/

/-- A result of the scan, seen from `n` bytes before. -/
def shift (n : Nat) : Nat × Connector → Nat × Connector := Prod.map (· + n) id

@[simp] theorem shift_apply (n k : Nat) (conn : Connector) : shift n (k, conn) = (k + n, conn) :=
  rfl

theorem map_shift (m n : Nat) (r : Option (Nat × Connector)) :
    (r.map (shift m)).map (shift n) = r.map (shift (m + n)) := by
  cases r with
  | none => rfl
  | some found => simp [shift, Prod.map, Nat.add_assoc]

theorem map_shift_zero (r : Option (Nat × Connector)) : r.map (shift 0) = r := by
  cases r <;> rfl

/-- The two bytes before the position, `p`, once `t` has been read. -/
def lookBehind (p : Option Char × Option Char) (t : Text) : Option Char × Option Char :=
  t.foldl (fun p c => (p.2, some c)) p

@[simp] theorem lookBehind_append (p : Option Char × Option Char) (t u : Text) :
    lookBehind p (t ++ u) = lookBehind (lookBehind p t) u :=
  List.foldl_append

@[simp] theorem lookBehind_nil (p : Option Char × Option Char) : lookBehind p [] = p := rfl

@[simp] theorem lookBehind_cons (p : Option Char × Option Char) (c : Char) (t : Text) :
    lookBehind p (c :: t) = lookBehind (p.2, some c) t := rfl

/-- The byte just before the position is the last one read. -/
theorem lookBehind_concat (p : Option Char × Option Char) (t : Text) (c : Char) :
    (lookBehind p (t ++ [c])).2 = some c := by
  rw [lookBehind_append]
  rfl

/-! ## Passing over a token -/

/-- The scan of an unquoted position, with what it sees behind it. -/
abbrev scanAt (p : Option Char × Option Char) (s : Text) : Option (Nat × Connector) :=
  findFrom p.1 p.2 none 0 s

theorem findListConnector_eq (b s : Text) :
    findListConnector ⟨b, s⟩ = scanAt (b.tail.head?, b.head?) s := rfl

/-- The scan passes over `t` when `r` follows. -/
def Passes (t r : Text) : Prop :=
  ∀ p, scanAt p (t ++ r) = (scanAt (lookBehind p t) r).map (shift t.length)

theorem Passes.append {t u r : Text} (ht : Passes t (u ++ r)) (hu : Passes u r) :
    Passes (t ++ u) r := by
  intro p
  rw [List.append_assoc, ht p, hu, map_shift, lookBehind_append, List.length_append, Nat.add_comm]

theorem passes_nil (r : Text) : Passes [] r := fun _ => (map_shift_zero _).symm

theorem Passes.cons {c : Char} {t r : Text} (hc : Passes [c] (t ++ r)) (ht : Passes t r) :
    Passes (c :: t) r := Passes.append (t := [c]) hc ht

/-- One unquoted byte that is no connector. -/
theorem scanAt_char {c : Char} {s : Text} {p : Option Char × Option Char}
    (hq : isQuote c = false) (hd : c ≠ '$') (hc : connectorAt p.1 p.2 (c :: s) = none) :
    scanAt p (c :: s) = (scanAt (p.2, some c) s).map (shift 1) := by
  simp [findFrom, hq, hd, hc, shift]

theorem passes_char {c : Char} (r : Text) (hq : isQuote c = false) (hd : c ≠ '$')
    (hc : ∀ p : Option Char × Option Char, connectorAt p.1 p.2 (c :: r) = none) : Passes [c] r :=
  fun p => scanAt_char hq hd (hc p)

/-- A byte that can begin no connector. -/
theorem connectorAt_of_ne {c : Char} (hc : c ≠ ';' ∧ c ≠ '&' ∧ c ≠ '|') (p2 p1 : Option Char)
    (r : Text) : connectorAt p2 p1 (c :: r) = none := by
  unfold connectorAt
  split <;> simp_all

theorem passes_ordinary {c : Char} (r : Text) (hq : isQuote c = false) (hd : c ≠ '$')
    (hc : c ≠ ';' ∧ c ≠ '&' ∧ c ≠ '|') : Passes [c] r :=
  passes_char r hq hd fun p => connectorAt_of_ne hc p.1 p.2 r

/-- Text without quotes, `$` and connector bytes. -/
theorem passes_plain (t r : Text)
    (h : ∀ c ∈ t, isQuote c = false ∧ c ≠ '$' ∧ c ≠ ';' ∧ c ≠ '&' ∧ c ≠ '|') : Passes t r := by
  induction t with
  | nil => exact passes_nil r
  | cons c t ih =>
      obtain ⟨hq, hd, hc⟩ := h c (by simp)
      exact (passes_ordinary _ hq hd hc).cons (ih fun d hd => h d (by simp [hd]))

/-- Inside a quoted span. -/
private theorem findFrom_quoted (q : Char) (s r : Text) (h : q ∉ s) (p : Option Char × Option Char) :
    findFrom p.1 p.2 (some q) 0 (s ++ q :: r) =
      (scanAt (lookBehind p (s ++ [q])) r).map (shift (s.length + 1)) := by
  induction s generalizing p with
  | nil => simp [findFrom, shift]
  | cons c s ih =>
      have hc : c ≠ q := fun heq => h (by simp [heq])
      have hs := ih (fun hmem => h (by simp [hmem])) (p.2, some c)
      rw [List.cons_append, findFrom, if_neg hc, hs]
      exact map_shift _ 1 _

theorem passes_quoted (q : Char) (s r : Text) (hq : isQuote q = true) (h : q ∉ s) :
    Passes (q :: s ++ [q]) r := by
  intro p
  have hs := findFrom_quoted q s r h (p.2, some q)
  have hlen : (q :: s ++ [q]).length = s.length + 1 + 1 := by simp
  rw [show q :: s ++ [q] ++ r = q :: (s ++ q :: r) by simp, scanAt, findFrom, if_pos hq, hs, hlen]
  exact map_shift _ 1 _

/-- A quoted span left open runs to the end. -/
theorem scanAt_openQuote (q : Char) (s : Text) (hq : isQuote q = true) (h : q ∉ s)
    (p : Option Char × Option Char) : scanAt p (q :: s) = none := by
  have hs : ∀ p2 p1, findFrom p2 p1 (some q) 0 s = none := by
    induction s with
    | nil => exact fun _ _ => rfl
    | cons c s ih =>
        intro p2 p1
        have hc : c ≠ q := fun heq => h (by simp [heq])
        rw [findFrom, if_neg hc, ih fun hmem => h (by simp [hmem])]
        rfl
  simp [findFrom, hq, hs]

/-! ## Operators -/

/-- `|` that is not the first byte of `||`. -/
theorem passes_pipe (r : Text) (hr : r.head? ≠ some '|') : Passes ['|'] r := by
  refine passes_char r rfl (by decide) fun p => ?_
  cases r with
  | nil => rfl
  | cons c r =>
      have hc : c ≠ '|' := by simpa using hr
      unfold connectorAt
      split <;> simp_all

theorem passes_ampgt (r : Text) : Passes "&>".toList r := by
  intro p
  rw [show "&>".toList ++ r = '&' :: '>' :: r from rfl, scanAt_char rfl (by decide) rfl,
    scanAt_char rfl (by decide) rfl, map_shift]
  rfl

/-- The `&` of `2>&1` is seen behind. -/
theorem passes_errtoout (r : Text) : Passes "2>&1".toList r := by
  intro p
  rw [show "2>&1".toList ++ r = '2' :: '>' :: '&' :: '1' :: r from rfl,
    scanAt_char rfl (by decide) rfl, scanAt_char rfl (by decide) rfl,
    scanAt_char rfl (by decide) rfl, scanAt_char rfl (by decide) rfl]
  simp only [map_shift]
  rfl

end Petrush.Verified.Connectors
