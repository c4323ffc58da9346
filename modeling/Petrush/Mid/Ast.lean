import Petrush.Lib.CText

/-!
# The syntax tree of `parser.h`

The records the parser builds and the dispatcher runs, under the source's
names.  A list of items is a `List Item`; the seven kinds of item share the
connector `cond` and the flag `background`, as in `petrush_list_item`.

`argv` and its parallel array `argv_quoted` are one list of `Word`s.  A
`NULL` path or delimiter is `none`.
-/

namespace Petrush.Mid.Ast

open Petrush.Lib.CText

/-- The values of `argv_quoted`: 0, 1 (single quotes) and 2 (double). -/
inductive Quoting where
  | unquoted
  | single
  | double
  deriving Repr, DecidableEq

/-- A word and its `argv_quoted` entry. -/
structure Word where
  text : Text
  quoted : Quoting
  deriving Repr, DecidableEq

/-- `petrush_cmd_t`: one stage. -/
structure Cmd where
  argv : List Word := []
  redirIn : Option Text := none
  redirOut : Option Text := none
  redirAppend : Bool := false
  redirErr : Option Text := none
  redirErrAppend : Bool := false
  redirErrToOut : Bool := false
  hereDelim : Option Text := none
  hereBody : Option Text := none
  hereQuoted : Bool := false
  hereStrip : Bool := false
  hereSkipDelims : List Text := []
  hereFeedI : Nat := 0
  deriving Repr, DecidableEq

/-- `petrush_pipeline_t`. -/
structure Pipeline where
  cmds : List Cmd := []
  deriving Repr, DecidableEq

/-- `petrush_run_cond_t`. -/
inductive RunCond where
  | always
  | and
  | or
  deriving Repr, DecidableEq

mutual

/-- `petrush_if_arm_t`. -/
structure IfArm where
  cond : List Item
  body : List Item
  isElse : Bool

/-- `petrush_case_arm_t`. -/
structure CaseArm where
  patterns : List Text
  body : List Item

/-- The payload selected by `petrush_item_kind_t`. -/
inductive ItemKind where
  | pipeline (pl : Pipeline)
  | ifc (arms : List IfArm)
  | wh (cond body : List Item)
  | fr (name : Text) (words : List Text) (body : List Item)
  | fn (name : Text) (body : List Item)
  | cs (word : Text) (arms : List CaseArm)
  | db (argv : List Word)

/-- `petrush_list_item_t`. -/
structure Item where
  kind : ItemKind
  cond : RunCond
  background : Bool

end

/-- `petrush_list_t`. -/
abbrev PList := List Item

end Petrush.Mid.Ast
