import Petrush.Lib.Stdlib
import Petrush.Mid.Expand

/-!
# `[[ … ]]` (`dispatcher.c`, the `dbr_` functions)

All tokens are expanded, and then the evaluator compares strings to find its
operators.  What it compares is a parameter `look` of the evaluator here: for
the code it is the expanded text of a token (`shown`).

The index into `argv` is the list of the tokens from there on.
-/

namespace Petrush.Mid.Dbracket

open Petrush.Lib.CText
open Petrush.Lib.Stdlib
open Petrush.Mid.Ast
open Petrush.Mid.Expand
open Petrush.Mid.Glob

/-- A token: as written, and its expansion. -/
structure Tok where
  src : Word
  text : Text
  deriving Repr, DecidableEq

/-- `access` and `stat`, as far as the file tests ask. -/
structure Files where
  present : Text → Bool
  isReg : Text → Bool
  isDir : Text → Bool

/-! ## Operators -/

/-- The operators of `dbr_is_unary`. -/
def unaryOps : List Text := ["-f".toList, "-d".toList, "-e".toList, "-z".toList, "-n".toList]

/-- The operators of `dbr_is_binop`. -/
def binaryOps : List Text :=
  ["=".toList, "==".toList, "!=".toList, "-eq".toList, "-ne".toList, "-lt".toList, "-gt".toList]

/-- What the code compares with the operators: the expanded text. -/
def shown (t : Tok) : Option Text := some t.text

section Evaluator

variable (files : Files) (look : Tok → Option Text)

/-- The token is seen as one of the operators. -/
def sees (ops : List Text) (t : Tok) : Bool := (look t).any ops.contains

/-- `dbr_is_unary`. -/
def dbrIsUnary : Tok → Bool := sees look unaryOps

/-- `dbr_is_binop`. -/
def dbrIsBinop : Tok → Bool := sees look binaryOps

/-- `strcmp(argv[idx], "!") == 0`. -/
def isBang : Tok → Bool := sees look ["!".toList]

/-- `feat_test_unary`; 0 is true, 1 false, 2 an error. -/
def featTestUnary (op operand : Text) : Int :=
  if op = "-z".toList then (if operand = [] then 0 else 1)
  else if op = "-n".toList then (if operand ≠ [] then 0 else 1)
  else if op = "-e".toList then (if files.present operand then 0 else 1)
  else if op = "-f".toList then (if files.isReg operand then 0 else 1)
  else if op = "-d".toList then (if files.isDir operand then 0 else 1)
  else 2

/-- `feat_test_binary`. -/
def featTestBinary (lhs op rhs : Text) : Int :=
  if op = "=".toList then (if lhs = rhs then 0 else 1)
  else if op = "!=".toList then (if lhs ≠ rhs then 0 else 1)
  else
    match parseLong lhs, parseLong rhs with
    | some a, some b =>
        if op = "-eq".toList then (if a = b then 0 else 1)
        else if op = "-ne".toList then (if a ≠ b then 0 else 1)
        else if op = "-lt".toList then (if a < b then 0 else 1)
        else if op = "-gt".toList then (if a > b then 0 else 1)
        else 2
    | _, _ => 2

/-- `dbr_str_cmp`: an unquoted right side is a pattern. -/
def dbrStrCmp (lhs op rhs : Text) (rhsQuoted : Bool) : Int :=
  let eq := if rhsQuoted then decide (lhs = rhs) else casePatMatch rhs lhs
  if op = "!=".toList then (if eq then 1 else 0) else (if eq then 0 else 1)

/-- A comparison in `dbr_eval_primary`. -/
def dbrCompare (lhs op rhs : Tok) : Int :=
  if op.text = "=".toList ∨ op.text = "==".toList ∨ op.text = "!=".toList then
    dbrStrCmp lhs.text op.text rhs.text (rhs.src.quoted != .unquoted)
  else featTestBinary lhs.text op.text rhs.text

/-- `dbr_eval_primary`: the status and the tokens after it. -/
def dbrEvalPrimary : List Tok → Int × List Tok
  | [] => (2, [])
  | [t] => (if t.text ≠ [] then 0 else 1, [])
  | t :: u :: rest =>
      if dbrIsUnary look t then (featTestUnary files t.text u.text, rest)
      else
        match rest with
        | v :: rest' =>
            if dbrIsBinop look u then (dbrCompare t u v, rest')
            else (if t.text ≠ [] then 0 else 1, u :: v :: rest')
        | [] => (if t.text ≠ [] then 0 else 1, [u])

/-- `dbr_eval_term`. -/
def dbrEvalTerm (toks : List Tok) : Int × List Tok :=
  let neg := (toks.takeWhile (isBang look)).length % 2 = 1
  let (st, rest) := dbrEvalPrimary files look (toks.dropWhile (isBang look))
  (if st = 2 then 2 else if neg then (if st = 0 then 1 else 0) else st, rest)

/-- `dbr_skip_term`: the tokens after a term that is not evaluated. -/
def dbrSkipTerm (toks : List Tok) : Option (List Tok) :=
  match toks.dropWhile (isBang look) with
  | [] => none
  | [_] => some []
  | t :: u :: rest =>
      if dbrIsUnary look t then some rest
      else
        match rest with
        | v :: rest' => if dbrIsBinop look u then some rest' else some (u :: v :: rest')
        | [] => some [u]

/-- The connectives, `&&` and `||`. -/
def isAnd : Tok → Bool := sees look ["&&".toList]

@[inherit_doc isAnd]
def isOr : Tok → Bool := sees look ["||".toList]

/-- The loop of `dbr_eval_expr`; every turn takes a token, so `argc` turns are
enough. -/
def dbrEvalLoop : Nat → Int → List Tok → Int
  | 0, status, _ => status
  | _ + 1, status, [] => status
  | n + 1, status, op :: toks =>
      if isAnd look op ∨ isOr look op then
        if status = 2 then 2
        else if isAnd look op = decide (status = 0) then
          let (r, rest) := dbrEvalTerm files look toks
          if r = 2 then 2 else dbrEvalLoop n r rest
        else
          match dbrSkipTerm look toks with
          | none => 2
          | some rest => dbrEvalLoop n status rest
      else 2

/-- `dbr_eval_expr`. -/
def dbrEvalExpr (toks : List Tok) : Int :=
  if toks = [] then 1
  else
    let (status, rest) := dbrEvalTerm files look toks
    dbrEvalLoop files look toks.length status rest

end Evaluator

/-! ## The command -/

/-- The expansion of the tokens. -/
def expandToks (w : World) (ctx : Ctx) : List Word → Effects → List Tok × Effects
  | [], fx => ([], fx)
  | word :: words, fx =>
      let (text, fx) := expandWord w ctx word.text fx
      let (toks, fx) := expandToks w ctx words fx
      (⟨word, text⟩ :: toks, fx)

/-- `dispatch_dbracket`, up to the errors of the expansion, which the caller
takes (`take_expand_errors`). -/
def dispatchDbracket (files : Files) (w : World) (ctx : Ctx) (db : List Word) (fx : Effects) :
    Int × Effects :=
  if db = [] then (1, fx)
  else
    let (toks, fx) := expandToks w ctx db fx
    if fx.arithError ∨ fx.nounsetError then (1, fx)
    else (dbrEvalExpr files shown toks, fx)

end Petrush.Mid.Dbracket
