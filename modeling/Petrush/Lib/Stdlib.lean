import Petrush.Lib.CText

/-!
# `strtol` in base ten

`strtol` skips white space, reads a sign and as many digits as there are, and
leaves the end pointer behind them, or at the start when there is no digit.  A
value outside `long` is clipped and sets `errno` to `ERANGE`.
-/

namespace Petrush.Lib.Stdlib

open Petrush.Lib.CText

/-- `LONG_MAX` and `LONG_MIN` of a 64-bit `long`. -/
def longMax : Int := 2 ^ 63 - 1

@[inherit_doc longMax]
def longMin : Int := -(2 ^ 63)

/-- What `strtol` gives: the value, the text at the end pointer, and whether
`errno` is set. -/
structure Strtol where
  value : Int
  rest : Text
  erange : Bool
  deriving Repr, DecidableEq

/-- The number a digit string writes. -/
def digitsValue (ds : Text) : Nat := ds.foldl (fun n d => 10 * n + (d.toNat - '0'.toNat)) 0

/-- `strtol(s, &end, 10)`. -/
def strtol (s : Text) : Strtol :=
  let t := s.dropWhile isspace
  let neg := t.head? == some '-'
  let u := if neg || t.head? == some '+' then t.tail else t
  let digits := u.takeWhile isdigit
  let n : Int := digitsValue digits
  let v := if neg then -n else n
  if digits = [] then ⟨0, s, false⟩
  else if v > longMax then ⟨longMax, u.dropWhile isdigit, true⟩
  else if v < longMin then ⟨longMin, u.dropWhile isdigit, true⟩
  else ⟨v, u.dropWhile isdigit, false⟩

/-- The callers' test that the whole of a non-empty argument is a number:
`end == s`, `*end != '\0'` or `errno` refuse it. -/
def parseLong (s : Text) : Option Int :=
  let r := strtol s
  if s = [] ∨ r.rest = s ∨ r.rest ≠ [] ∨ r.erange then none else some r.value

example : parseLong " -12".toList = some (-12) := by decide

end Petrush.Lib.Stdlib
