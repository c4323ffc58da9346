import Petrush.Lib.Cells
import Petrush.Mid.Expand

/-!
# `expand_cmd_argv` on its arrays

The two loops of `expand_cmd_argv` as they work: on `argv` and `argv_quoted`, which
they reallocate and move in place.  An array is the list of its allocated cells, `NULL`
is `none`, and every access is checked against the array as it was last reallocated.
-/

namespace Petrush.Mid.Argv

open Petrush.Lib.CText
open Petrush.Lib.Cells
open Petrush.Mid.Ast
open Petrush.Mid.Expand
open Petrush.Mid.Glob

/-- `argv`, `argv_quoted` and `argc` of a command. -/
structure Args where
  argv : List (Option Text)
  argvQuoted : List Quoting
  argc : Nat

/-- One array in a splice: it is reallocated, what stands behind the word is moved, and
the new cells are written. -/
def spliceCells {α : Type} (junk : α) (size argc i : Nat) (cells news : List α) :
    Except Fault (List α) := do
  let cells := realloc junk size cells
  let cells ←
    if news.length = 1 then pure cells
    else memmove cells (i + news.length) (i + 1) (argc - i - 1)
  writes cells i news

section Expansion

variable (w : World) (ctx : Ctx) (junk : Option Text) (junkFlag : Quoting)

/-- The splice of both loops: literal words, marked as quoted, in the place of one. -/
def splice (m : Args) (i : Nat) (news : List Text) : Except Fault Args := do
  let newArgc := m.argc - 1 + news.length
  let argv ← spliceCells junk (newArgc + 1) m.argc i m.argv (news.map some)
  let argvQuoted ← spliceCells junkFlag (max newArgc 1) m.argc i m.argvQuoted
    (news.map fun _ => .single)
  let argv ← write argv newArgc none
  pure ⟨argv, argvQuoted, newArgc⟩

/-- One turn of the first loop, with `expand_positional_token`. -/
def expandTurn (m : Args) (i : Nat) (fx : Effects) : Except Fault (Args × Nat × Effects) := do
  match ← read m.argv i with
  | none => pure (m, i + 1, fx)
  | some tok =>
      let quoted ← read m.argvQuoted i
      if quoted = .single then pure (m, i + 1, fx)
      else if tok = "$*".toList ∧ quoted ≠ .unquoted then do
        let argv ← write m.argv i (some (positionalJoin ctx))
        pure ({ m with argv := argv }, i + 1, fx.record .positional)
      else if tok = "$@".toList ∨ tok = "$*".toList then do
        let m ← splice junk junkFlag m i ctx.args
        pure (m, i + ctx.args.length, fx.record .positional)
      else do
        let (e, fx) := expandWord w ctx tok fx
        let argv ← write m.argv i (some e)
        pure ({ m with argv := argv }, i + 1, fx)

/-- The first loop, with a bound on its turns. -/
def expandLoop : Nat → Args → Nat → Effects → Except Fault (Args × Effects)
  | n, m, i, fx =>
      if i < m.argc then
        match n with
        | 0 => .error .bound
        | n + 1 => do
            let (m, i, fx) ← expandTurn w ctx junk junkFlag m i fx
            expandLoop n m i fx
      else pure (m, fx)

/-- One turn of the second loop. -/
def globTurn (m : Args) (i : Nat) : Except Fault (Args × Nat) := do
  match ← read m.argv i with
  | none => pure (m, i + 1)
  | some tok =>
      let quoted ← read m.argvQuoted i
      if quoted ≠ .unquoted ∨ ¬ patternHasMeta tok then pure (m, i + 1)
      else
        match globWord w.listing tok with
        | none => pure (m, i + 1)
        | some paths =>
            if paths = [tok] then pure (m, i + 1)
            else do
              let m ← splice junk junkFlag m i paths
              pure (m, i + paths.length)

/-- The second loop, with a bound on its turns. -/
def globLoop : Nat → Args → Nat → Except Fault Args
  | n, m, i =>
      if i < m.argc then
        match n with
        | 0 => .error .bound
        | n + 1 => do
            let (m, i) ← globTurn w junk junkFlag m i
            globLoop n m i
      else pure m

/-- The two loops of `expand_cmd_argv`. -/
def expandArgv (m : Args) (fx : Effects) : Except Fault (Args × Effects) := do
  let (m, fx) ← expandLoop w ctx junk junkFlag m.argc m 0 fx
  let m ← globLoop w junk junkFlag m.argc m 0
  pure (m, fx)

end Expansion

end Petrush.Mid.Argv
