import Petrush.Foundation.Env

/-!
# `$((…))` (`expand.c`, the arithmetic part)

`parse_i64_local` and the recursive-descent evaluator over `int64_t`.  A value
is an `Int`.  C leaves a signed overflow undefined, and a division whose quotient
overflows: the evaluator then ends with an error of its own.

The functions take what is left of the expression and return what they leave.
`primary` calls back to the whole expression (`expr`), and `arithParseExpr`
ties the knot with a bound on the nesting of parentheses.
-/

namespace Petrush.Mid.Arith

open Petrush.Lib.CText
open Petrush.Foundation

/-! ## `int64_t` -/

/-- `INT64_MIN`. -/
def int64Min : Int := -9223372036854775808

/-- `INT64_MAX`. -/
def int64Max : Nat := 9223372036854775807

/-- The value of a decimal digit. -/
def digitValue (c : Char) : Nat := c.toNat - '0'.toNat

/-- The digit loop of `parse_i64_local`. -/
def digitsUpTo (lim : Nat) : Nat → Text → Option Nat
  | acc, [] => some acc
  | acc, c :: s =>
      if !isdigit c then none
      else if acc > (lim - digitValue c) / 10 then none
      else digitsUpTo lim (acc * 10 + digitValue c) s

/-- `parse_i64_local`: an optional sign and at least one digit. -/
def parseI64Local (s : Text) : Option Int :=
  let neg := s.head? == some '-'
  let digits := if s.head? == some '+' || neg then s.tail else s
  if digits = [] then none
  else (digitsUpTo (int64Max + if neg then 1 else 0) 0 digits).map fun n => if neg then -n else n

/-- `arith_value_from_text`. -/
def arithValueFromText (s : Option Text) : Int := (s.bind parseI64Local).getD 0

/-! ## The evaluator -/

/-- The values of `arith_ctx_t.err`, and undefined behaviour. -/
inductive ArithErr where
  | div0
  | syntaxErr
  | undefined
  deriving Repr, DecidableEq

/-- The value is one of `int64_t`. -/
def InInt64 (x : Int) : Prop := int64Min ≤ x ∧ x ≤ int64Max

instance (x : Int) : Decidable (InInt64 x) := inferInstanceAs (Decidable (_ ∧ _))

/-- The result of a signed operation. -/
def signedResult (x : Int) : Except ArithErr Int :=
  if InInt64 x then .ok x else .error .undefined

/-- A value and the text after it, or an error. -/
abbrev ArithResult := Except ArithErr (Int × Text)

/-- `is_name_char`. -/
def isNameChar (c : Char) : Bool := isalnum c || c == '_'

/-- `arith_skip_ws`. -/
def arithSkipWs (s : Text) : Text :=
  s.dropWhile fun c => c == ' ' || c == '\t' || c == '\n' || c == '\r'

section Evaluator

-- What the evaluator reads: the environment and `$0` to `$9`.
variable (env : Env) (positional : Nat → Option Text)

/-- A variable: the name is cut at the size of `nbuf`. -/
def arithVariable (s : Text) : ArithResult :=
  let name := s.takeWhile isNameChar
  .ok (arithValueFromText (getenv env (name.take 255)), s.drop name.length)

/-- `arith_parse_primary`. -/
def arithParsePrimary (expr : Text → ArithResult) (s : Text) : ArithResult :=
  match arithSkipWs s with
  | [] => .error .syntaxErr
  | '(' :: s => do
      let (v, s) ← expr s
      match arithSkipWs s with
      | ')' :: s => .ok (v, s)
      | _ => .error .syntaxErr
  | '$' :: c :: s =>
      if isdigit c then .ok (arithValueFromText (positional (digitValue c)), s)
      else if isNameChar c then arithVariable env (c :: s)
      else .error .syntaxErr
  | c :: s =>
      if isdigit c then
        let digits := (c :: s).takeWhile isdigit
        .ok (arithValueFromText (some digits), (c :: s).drop digits.length)
      else if isNameChar c then arithVariable env (c :: s)
      else .error .syntaxErr

/-- `arith_parse_unary`. -/
def arithParseUnary (expr : Text → ArithResult) : Nat → Text → ArithResult
  | 0, _ => .error .syntaxErr
  | n + 1, s =>
      match arithSkipWs s with
      | '+' :: s => arithParseUnary expr n s
      | '-' :: s => do
          let (v, s) ← arithParseUnary expr n s
          .ok (if v = int64Min then int64Min else -v, s)
      | s => arithParsePrimary env positional expr s

/-- A unary operand; it has at most one sign for each byte. -/
def arithOperand (expr : Text → ArithResult) (s : Text) : ArithResult :=
  arithParseUnary env positional expr (s.length + 1) s

/-- The loop of `arith_parse_term`. -/
def arithTermLoop (expr : Text → ArithResult) : Nat → Int → Text → ArithResult
  | 0, _, _ => .error .syntaxErr
  | n + 1, left, s =>
      match arithSkipWs s with
      | '*' :: s => do
          let (right, s) ← arithOperand env positional expr s
          arithTermLoop expr n (← signedResult (left * right)) s
      | '/' :: s => do
          let (right, s) ← arithOperand env positional expr s
          if right = 0 then .error .div0
          else arithTermLoop expr n (← signedResult (left.tdiv right)) s
      | '%' :: s => do
          let (right, s) ← arithOperand env positional expr s
          if right = 0 then .error .div0
          else do
            -- C defines `%` where it defines the quotient.
            let _ ← signedResult (left.tdiv right)
            arithTermLoop expr n (left.tmod right) s
      | s => .ok (left, s)

/-- `arith_parse_term`. -/
def arithParseTerm (expr : Text → ArithResult) (s : Text) : ArithResult := do
  let (left, s) ← arithOperand env positional expr s
  arithTermLoop env positional expr (s.length + 1) left s

/-- The loop of `arith_parse_expr`. -/
def arithExprLoop (expr : Text → ArithResult) : Nat → Int → Text → ArithResult
  | 0, _, _ => .error .syntaxErr
  | n + 1, left, s =>
      match arithSkipWs s with
      | '+' :: s => do
          let (right, s) ← arithParseTerm env positional expr s
          arithExprLoop expr n (← signedResult (left + right)) s
      | '-' :: s => do
          let (right, s) ← arithParseTerm env positional expr s
          arithExprLoop expr n (← signedResult (left - right)) s
      | s => .ok (left, s)

/-- `arith_parse_expr`, with a bound on the open parentheses. -/
def arithParseExpr : Nat → Text → ArithResult
  | 0, _ => .error .syntaxErr
  | n + 1, s => do
      let (left, s) ← arithParseTerm env positional (arithParseExpr n) s
      arithExprLoop env positional (arithParseExpr n) (s.length + 1) left s

/-- `eval_arith`. -/
def evalArith (inner : Text) : Except ArithErr Int :=
  if arithSkipWs inner = [] then .ok 0
  else do
    let (v, s) ← arithParseExpr env positional (inner.length + 1) inner
    if arithSkipWs s = [] then .ok v else .error .syntaxErr

end Evaluator

example :
    evalArith (fun _ => some "7".toList) (fun _ => none) " 2 * (x - 1) % 5 ".toList = .ok 2 := by
  decide

end Petrush.Mid.Arith
