import Petrush.Lib.Cells
import Petrush.Lib.CText

/-!
# The positionals on their array (`expand.c`)

`g_pos_args` is the list of its allocated cells, `NULL` is `none`, and every access
is checked.  A count is an `unsigned`, and `petrush_positional_shift` compares it as an `int`.
-/

namespace Petrush.Mid.Positional

open Petrush.Lib.CText
open Petrush.Lib.Cells

/-- `g_pos_arg0`, `g_pos_args` and `g_pos_nargs`. -/
structure Positionals where
  arg0 : Option Text
  args : List (Option Text)
  nargs : Int
  deriving DecidableEq

/-- `(int)n` of an `unsigned`. -/
def toInt (n : Nat) : Int := if n < 2 ^ 31 then n else n - 2 ^ 32

/-- The loop that frees `g_pos_args[i]`, `count` times. -/
def freeFrom : Nat → Nat → List (Option Text) → Except Fault (List (Option Text))
  | 0, _, args => pure args
  | count + 1, i, args => do
      let _ ← read args i
      let args ← write args i none
      freeFrom count (i + 1) args

/-- `memmove(g_pos_args, g_pos_args + offset, count * sizeof(char *))`. -/
def slide (args : List (Option Text)) (offset : Int) (count : Nat) :
    Except Fault (List (Option Text)) :=
  if offset < 0 then .error .outside else memmove args 0 offset.toNat count

/-- `petrush_positional_shift`: what it returns and what it leaves. -/
def petrushPositionalShift (m : Positionals) (n : Nat) : Except Fault (Int × Positionals) :=
  if n = 0 then pure (0, m)
  else if toInt n > m.nargs then pure (-1, m)
  else do
    let args ← freeFrom (toInt n).toNat 0 m.args
    let remain := m.nargs - toInt n
    let args ←
      if remain > 0 then do
        let args ← slide args (toInt n) remain.toNat
        writes args remain.toNat (List.replicate (m.nargs - remain).toNat none)
      else pure args
    pure (0, { m with args := if remain = 0 then [] else args, nargs := remain })

end Petrush.Mid.Positional
