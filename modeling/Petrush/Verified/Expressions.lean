import Petrush.Verified.Integers

/-!
# Arithmetic expressions

`eval_arith` evaluates while it reads.  Here the two are apart: `readArith` only reads,
an expression that cannot be read further included, and `Expr.value` is the meaning of what was
read, over the integers.  The evaluator of the code is the meaning with a check at every
operation, and the check fails where C leaves the operation undefined.

## Main results

* `evalArith_eq` — reading and then evaluating with checks is what the code does.
* `checked_of_safe`, `checked_of_not_safe` — the checks fail exactly when some operation
  is not defined.
* `defined_iff` — the expressions whose evaluation is defined.
-/

namespace Petrush.Verified.Expressions

open Petrush.Foundation
open Petrush.Lib.CText
open Petrush.Mid.Arith
open Petrush.Verified.Integers

/-! ## Expressions -/

/-- The binary operators. -/
inductive BinOp where
  | add
  | sub
  | mul
  | div
  | mod
  deriving Repr, DecidableEq

/-- What a text is read as.  At `stuck` there is nothing to read, and `unfinished` is an
expression with something behind it that cannot follow. -/
inductive Expr where
  | num (digits : Text)
  | var (name : Text)
  | pos (digit : Char)
  | plus (e : Expr)
  | minus (e : Expr)
  | bin (op : BinOp) (l r : Expr)
  | stuck
  | unfinished (e : Expr)
  deriving Repr, DecidableEq

/-- An operation on values. -/
inductive Op where
  | neg (v : Int)
  | bin (op : BinOp) (v w : Int)
  deriving Repr, DecidableEq

/-- The operation over the integers; a division rounds towards zero. -/
def BinOp.value : BinOp → Int → Int → Except ArithErr Int
  | .add, v, w => .ok (v + w)
  | .sub, v, w => .ok (v - w)
  | .mul, v, w => .ok (v * w)
  | .div, v, w => if w = 0 then .error .div0 else .ok (v.tdiv w)
  | .mod, v, w => if w = 0 then .error .div0 else .ok (v.tmod w)

/-- C defines the operation: its result is in `int64_t`, for `%` the quotient.  A division by
zero is not made, and the negation of `INT64_MIN` neither. -/
def Op.Defined : Op → Prop
  | .neg _ => True
  | .bin .add v w => InInt64 (v + w)
  | .bin .sub v w => InInt64 (v - w)
  | .bin .mul v w => InInt64 (v * w)
  | .bin .div v w | .bin .mod v w => w = 0 ∨ InInt64 (v.tdiv w)

instance : DecidablePred Op.Defined := by
  intro o
  cases o with
  | neg v => exact inferInstanceAs (Decidable True)
  | bin op v w =>
      cases op
      · exact inferInstanceAs (Decidable (InInt64 _))
      · exact inferInstanceAs (Decidable (InInt64 _))
      · exact inferInstanceAs (Decidable (InInt64 _))
      · exact inferInstanceAs (Decidable (_ ∨ _))
      · exact inferInstanceAs (Decidable (_ ∨ _))

/-- The number a text counts as. -/
def intOf (s : Option Text) : Int := (s.bind int64Of).getD 0

/-- The negation of the code. -/
def negate (v : Int) : Int := if v = int64Min then int64Min else -v

section Meaning

-- How a number is negated, and what the names and the digits stand for.
variable (neg : Int → Int) (lookup : Text → Option Text) (positional : Nat → Option Text)

/-- The value of an expression, or why it has none, from the left. -/
def Expr.value : Expr → Except ArithErr Int
  | .num digits => .ok (intOf (some digits))
  | .var name => .ok (intOf (lookup name))
  | .pos d => .ok (intOf (positional (digitValue d)))
  | .plus e => e.value
  | .minus e => do
      let v ← e.value
      .ok (neg v)
  | .bin op l r => do
      let v ← l.value
      let w ← r.value
      op.value v w
  | .stuck => .error .syntaxErr
  | .unfinished e => do
      let _ ← e.value
      .error .syntaxErr

/-- The operations made on the way, from the left. -/
def Expr.ops : Expr → List Op
  | .num _ | .var _ | .pos _ | .stuck => []
  | .plus e | .unfinished e => e.ops
  | .minus e =>
      e.ops ++
        match e.value neg lookup positional with
        | .ok v => [.neg v]
        | .error _ => []
  | .bin op l r =>
      l.ops ++
        match l.value neg lookup positional with
        | .ok v =>
            r.ops ++
              match r.value neg lookup positional with
              | .ok w => [.bin op v w]
              | .error _ => []
        | .error _ => []

end Meaning

/-! ## Evaluation with checks -/

/-- The operation as the code makes it. -/
def BinOp.checked : BinOp → Int → Int → Except ArithErr Int
  | .add, v, w => signedResult (v + w)
  | .sub, v, w => signedResult (v - w)
  | .mul, v, w => signedResult (v * w)
  | .div, v, w => if w = 0 then .error .div0 else signedResult (v.tdiv w)
  | .mod, v, w =>
      if w = 0 then .error .div0
      else do
        let _ ← signedResult (v.tdiv w)
        .ok (v.tmod w)

section Checked

variable (lookup : Text → Option Text) (positional : Nat → Option Text)

/-- The evaluation of the code, on an expression that was read. -/
def Expr.checked : Expr → Except ArithErr Int
  | .num digits => .ok (intOf (some digits))
  | .var name => .ok (intOf (lookup name))
  | .pos d => .ok (intOf (positional (digitValue d)))
  | .plus e => e.checked
  | .minus e => do
      let v ← e.checked
      .ok (negate v)
  | .bin op l r => do
      let v ← l.checked
      let w ← r.checked
      op.checked v w
  | .stuck => .error .syntaxErr
  | .unfinished e => do
      let _ ← e.checked
      .error .syntaxErr

/-- One operation. -/
theorem BinOp.checked_eq (op : BinOp) (v w : Int) :
    op.checked v w = if (Op.bin op v w).Defined then op.value v w else .error .undefined := by
  cases op with
  | add => rfl
  | sub => rfl
  | mul => rfl
  | div =>
      by_cases hw : w = 0
      · simp [BinOp.checked, BinOp.value, Op.Defined, hw]
      · simp [BinOp.checked, BinOp.value, Op.Defined, hw, signedResult]
  | mod =>
      by_cases hw : w = 0
      · simp [BinOp.checked, BinOp.value, Op.Defined, hw]
      · by_cases hq : InInt64 (v.tdiv w)
        · simp [BinOp.checked, BinOp.value, Op.Defined, hw, signedResult, hq]
          rfl
        · simp [BinOp.checked, Op.Defined, hw, signedResult, hq]
          rfl

/-- Every operation made is defined. -/
def Expr.Safe (e : Expr) : Prop := ∀ o ∈ e.ops negate lookup positional, o.Defined

theorem safe_minus (e : Expr) : (Expr.minus e).Safe lookup positional ↔ e.Safe lookup positional := by
  rw [Expr.Safe, Expr.ops, List.forall_mem_append]
  cases e.value negate lookup positional with
  | ok v =>
      have hneg : ∀ o ∈ [Op.neg v], o.Defined := by
        intro o ho
        rw [List.mem_singleton.mp ho]
        trivial
      exact and_iff_left hneg
  | error x => exact and_iff_left fun o ho => absurd ho List.not_mem_nil

theorem safe_bin (op : BinOp) (l r : Expr) : (Expr.bin op l r).Safe lookup positional ↔
    l.Safe lookup positional ∧ ∀ v, l.value negate lookup positional = .ok v →
      r.Safe lookup positional ∧ ∀ w, r.value negate lookup positional = .ok w →
        (Op.bin op v w).Defined := by
  rw [Expr.Safe, Expr.ops, List.forall_mem_append]
  cases l.value negate lookup positional with
  | error x => simp [Expr.Safe]
  | ok v =>
      cases r.value negate lookup positional with
      | error x => simp [Expr.Safe]
      | ok w => simp [Expr.Safe, or_imp, forall_and]

/-- **While every operation is defined** the evaluation gives the value. -/
theorem checked_of_safe {e : Expr} (h : e.Safe lookup positional) :
    e.checked lookup positional = e.value negate lookup positional := by
  induction e with
  | num digits => rfl
  | var name => rfl
  | pos d => rfl
  | stuck => rfl
  | plus e ih => exact ih h
  | unfinished e ih => rw [Expr.checked, Expr.value, ih h]
  | minus e ih => rw [Expr.checked, Expr.value, ih ((safe_minus lookup positional e).mp h)]
  | bin op l r ihl ihr =>
      obtain ⟨hl, hr⟩ := (safe_bin lookup positional op l r).mp h
      rw [Expr.checked, Expr.value, ihl hl]
      cases hv : l.value negate lookup positional with
      | error x => rfl
      | ok v =>
          obtain ⟨hrsafe, hop⟩ := hr v hv
          rw [ihr hrsafe]
          cases hw : r.value negate lookup positional with
          | error x => rfl
          | ok w =>
              show op.checked v w = op.value v w
              rw [BinOp.checked_eq, if_pos (hop w hw)]

/-- **An operation that is not defined** ends the evaluation. -/
theorem checked_of_not_safe {e : Expr} (h : ¬ e.Safe lookup positional) :
    e.checked lookup positional = .error .undefined := by
  induction e with
  | num digits => exact absurd (fun o ho => absurd ho List.not_mem_nil) h
  | var name => exact absurd (fun o ho => absurd ho List.not_mem_nil) h
  | pos d => exact absurd (fun o ho => absurd ho List.not_mem_nil) h
  | stuck => exact absurd (fun o ho => absurd ho List.not_mem_nil) h
  | plus e ih => exact ih h
  | unfinished e ih =>
      rw [Expr.checked, ih h]
      rfl
  | minus e ih =>
      rw [Expr.checked, ih fun hsafe => h ((safe_minus lookup positional e).mpr hsafe)]
      rfl
  | bin op l r ihl ihr =>
      rw [safe_bin] at h
      rw [Expr.checked]
      by_cases hl : l.Safe lookup positional
      · rw [checked_of_safe lookup positional hl]
        cases hv : l.value negate lookup positional with
        | error x => exact absurd ⟨hl, by simp [hv]⟩ h
        | ok v =>
            show (do let w ← r.checked lookup positional; op.checked v w) = _
            by_cases hr : r.Safe lookup positional
            · rw [checked_of_safe lookup positional hr]
              cases hw : r.value negate lookup positional with
              | error x => exact absurd ⟨hl, by simp [hr, hw]⟩ h
              | ok w =>
                  show op.checked v w = _
                  rw [BinOp.checked_eq, if_neg]
                  intro hop
                  refine h ⟨hl, ?_⟩
                  simp [hv, hr, hw, hop]
            · rw [ihr hr]
              rfl
      · rw [ihl hl]
        rfl

end Checked

/-! ## Reading -/

/-- What is read, and the text behind it when the reading can go on. -/
abbrev Reading := Expr × Option Text

/-- A name, with what is behind it. -/
def readName (s : Text) : Reading :=
  let name := s.takeWhile isNameChar
  (.var name, some (s.drop name.length))

/-- A number, or a name. -/
def readLeaf (c : Char) (s : Text) : Reading :=
  if isdigit c then
    (.num ((c :: s).takeWhile isdigit), some ((c :: s).drop ((c :: s).takeWhile isdigit).length))
  else if isNameChar c then readName (c :: s)
  else (.stuck, none)

/-- What is behind a `$`. -/
def readDollar : Text → Reading
  | [] => (.stuck, none)
  | c :: s =>
      if isdigit c then (.pos c, some s)
      else if isNameChar c then readName (c :: s)
      else (.stuck, none)

/-- The text behind a closing parenthesis. -/
def afterClose (s : Text) : Option Text :=
  match arithSkipWs s with
  | ')' :: s => some s
  | _ => none

/-- What was read between parentheses. -/
def readClose : Reading → Reading
  | (e, none) => (e, none)
  | (e, some s) =>
      match afterClose s with
      | some s => (e, some s)
      | none => (.unfinished e, none)

/-- The first byte of an operand decides what it is. -/
def primaryAt {ρ : Type} (nothing : ρ) (paren dollar : Text → ρ) (leaf : Char → Text → ρ) :
    Text → ρ
  | [] => nothing
  | c :: s => if c = '(' then paren s else if c = '$' then dollar s else leaf c s

/-- An operand without signs; `expr` reads what is between parentheses. -/
def readPrimary (expr : Text → Reading) (s : Text) : Reading :=
  primaryAt (.stuck, none) (fun s => readClose (expr s)) readDollar readLeaf (arithSkipWs s)

/-- Signs, and the operand behind them. -/
def readUnary (expr : Text → Reading) : Nat → Text → Reading
  | 0, _ => (.stuck, none)
  | n + 1, s =>
      match arithSkipWs s with
      | '+' :: s => (.plus (readUnary expr n s).1, (readUnary expr n s).2)
      | '-' :: s => (.minus (readUnary expr n s).1, (readUnary expr n s).2)
      | s => readPrimary expr s

/-- An operand, with a turn for each byte. -/
def readOperand (expr : Text → Reading) (s : Text) : Reading := readUnary expr (s.length + 1) s

/-- The operators of `arith_parse_term`. -/
def mulOp (c : Char) : Option BinOp :=
  if c = '*' then some .mul else if c = '/' then some .div else if c = '%' then some .mod else none

/-- The operators of `arith_parse_expr`. -/
def addOp (c : Char) : Option BinOp :=
  if c = '+' then some .add else if c = '-' then some .sub else none

/-- Operands joined from the left by operators of one level. -/
def readLoop (ops : Char → Option BinOp) (operand : Text → Reading) : Nat → Expr → Text → Reading
  | 0, e, _ => (.unfinished e, none)
  | n + 1, e, s =>
      match arithSkipWs s with
      | [] => (e, some [])
      | c :: s =>
          match ops c with
          | none => (e, some (c :: s))
          | some op =>
              match operand s with
              | (r, some s) => readLoop ops operand n (.bin op e r) s
              | (r, none) => (.bin op e (.unfinished r), none)

/-- One level: an operand, and the operators behind it. -/
def readLevel (ops : Char → Option BinOp) (operand : Text → Reading) (s : Text) : Reading :=
  match operand s with
  | (e, some s) => readLoop ops operand (s.length + 1) e s
  | (e, none) => (e, none)

/-- A term. -/
def readTerm (expr : Text → Reading) : Text → Reading := readLevel mulOp (readOperand expr)

/-- An expression, with a bound on the open parentheses. -/
def readExpr : Nat → Text → Reading
  | 0, _ => (.stuck, none)
  | n + 1, s => readLevel addOp (readTerm (readExpr n)) s

/-- What a text is read as; blanks alone count as zero. -/
def readArith (s : Text) : Expr :=
  if arithSkipWs s = [] then .num ['0']
  else
    match readExpr (s.length + 1) s with
    | (e, some rest) => if arithSkipWs rest = [] then e else .unfinished e
    | (e, none) => .unfinished e

/-! ## The evaluator of the code -/

/-- The variable the code looks up: the name is cut at the size of its buffer. -/
def cut (env : Env) (name : Text) : Option Text := getenv env (name.take 255)

section Evaluator

variable (env : Env) (positional : Nat → Option Text)

/-- What the code makes of a reading. -/
def outcome (r : Reading) : ArithResult := do
  let v ← r.1.checked (cut env) positional
  match r.2 with
  | some s => .ok (v, s)
  | none => .error .syntaxErr

theorem arithValueFromText_eq (s : Option Text) : arithValueFromText s = intOf s := by
  cases s with
  | none => rfl
  | some t =>
      show (parseI64Local t).getD 0 = (int64Of t).getD 0
      rw [parseI64Local_eq]

theorem arithVariable_eq (s : Text) :
    arithVariable env s = outcome env positional (readName s) := by
  rw [arithVariable, arithValueFromText_eq]
  rfl

/-- `arith_parse_primary` behind the expression in parentheses. -/
def close (r : Int × Text) : ArithResult :=
  match afterClose r.2 with
  | some s => .ok (r.1, s)
  | none => .error .syntaxErr

theorem close_eq (r : Reading) :
    (outcome env positional r >>= close) = outcome env positional (readClose r) := by
  obtain ⟨e, _ | s⟩ := r
  · simp only [outcome, readClose]
    cases e.checked (cut env) positional <;> rfl
  · simp only [outcome, readClose]
    cases hafter : afterClose s with
    | none =>
        simp only [Expr.checked]
        cases e.checked (cut env) positional with
        | error x => rfl
        | ok v => simp only [bind, Except.bind, close, hafter]
    | some u =>
        cases e.checked (cut env) positional with
        | error x => rfl
        | ok v => simp only [bind, Except.bind, close, hafter]

/-- A number or a name. -/
def arithLeaf (c : Char) (s : Text) : ArithResult :=
  if isdigit c then
    .ok (arithValueFromText (some ((c :: s).takeWhile isdigit)),
      (c :: s).drop ((c :: s).takeWhile isdigit).length)
  else if isNameChar c then arithVariable env (c :: s)
  else .error .syntaxErr

theorem arithLeaf_eq (c : Char) (s : Text) :
    arithLeaf env c s = outcome env positional (readLeaf c s) := by
  rw [arithLeaf, readLeaf]
  split
  · rw [arithValueFromText_eq]
    rfl
  · split
    · exact arithVariable_eq env positional (c :: s)
    · rfl

/-- What is behind a `$`. -/
def arithDollar : Text → ArithResult
  | [] => .error .syntaxErr
  | c :: s =>
      if isdigit c then .ok (arithValueFromText (positional (digitValue c)), s)
      else if isNameChar c then arithVariable env (c :: s)
      else .error .syntaxErr

theorem arithDollar_eq (s : Text) :
    arithDollar env positional s = outcome env positional (readDollar s) := by
  cases s with
  | nil => rfl
  | cons c s =>
      rw [arithDollar, readDollar]
      split
      · rw [arithValueFromText_eq]
        rfl
      · split
        · exact arithVariable_eq env positional (c :: s)
        · rfl

theorem arithParsePrimary_at (expr : Text → ArithResult) (s : Text) :
    arithParsePrimary env positional expr s =
      primaryAt (.error .syntaxErr) (fun s => expr s >>= close) (arithDollar env positional)
        (arithLeaf env) (arithSkipWs s) := by
  unfold arithParsePrimary
  cases arithSkipWs s with
  | nil => rfl
  | cons c s =>
      by_cases hopen : c = '('
      · subst hopen
        simp only [primaryAt, if_true]
        cases expr s with
        | error x => rfl
        | ok r =>
            simp only [bind, Except.bind, close, afterClose]
            cases arithSkipWs r.2 with
            | nil => rfl
            | cons d t =>
                by_cases hclose : d = ')'
                · subst hclose
                  rfl
                · simp [hclose]
      · by_cases hdollar : c = '$'
        · subst hdollar
          cases s <;> rfl
        · simp only [primaryAt, if_neg hopen, if_neg hdollar]
          split
          next heq => contradiction
          next heq => exact absurd (List.cons.inj heq).1 hopen
          next heq => exact absurd (List.cons.inj heq).1 hdollar
          next heq =>
            obtain ⟨rfl, rfl⟩ := List.cons.inj heq
            rfl

variable {expr : Text → ArithResult} {read : Text → Reading}

/-- **`arith_parse_primary`**. -/
theorem arithParsePrimary_eq (h : ∀ s, expr s = outcome env positional (read s)) (s : Text) :
    arithParsePrimary env positional expr s = outcome env positional (readPrimary read s) := by
  rw [arithParsePrimary_at, readPrimary]
  cases arithSkipWs s with
  | nil => rfl
  | cons c s =>
      simp only [primaryAt]
      split
      · rw [h, close_eq]
      · split
        · exact arithDollar_eq env positional s
        · exact arithLeaf_eq env positional c s

/-- **`arith_parse_unary`**. -/
theorem arithParseUnary_eq (h : ∀ s, expr s = outcome env positional (read s)) (n : Nat) :
    ∀ s, arithParseUnary env positional expr n s = outcome env positional (readUnary read n s) := by
  induction n with
  | zero =>
      intro s
      rfl
  | succ n ih =>
      intro s
      have hprimary := arithParsePrimary_eq env positional h
      unfold arithParseUnary readUnary
      cases arithSkipWs s with
      | nil => exact hprimary []
      | cons c s =>
          by_cases hplus : c = '+'
          · subst hplus
            exact ih s
          · by_cases hminus : c = '-'
            · subst hminus
              simp only [ih s, outcome, Expr.checked]
              cases (readUnary read n s).1.checked (cut env) positional with
              | error x => rfl
              | ok v => cases (readUnary read n s).2 <;> rfl
            · simpa [hplus, hminus] using hprimary (c :: s)

/-- An operand. -/
theorem arithOperand_eq (h : ∀ s, expr s = outcome env positional (read s)) (s : Text) :
    arithOperand env positional expr s = outcome env positional (readOperand read s) :=
  arithParseUnary_eq env positional h (s.length + 1) s

/-- One turn of the loop of a level, behind the blanks; `next` is what goes on. -/
def loopAt (ops : Char → Option BinOp) (operand : Text → ArithResult)
    (next : Int → Text → ArithResult) (v : Int) : Text → ArithResult
  | [] => .ok (v, [])
  | c :: s =>
      match ops c with
      | none => .ok (v, c :: s)
      | some op => do
          let (w, s) ← operand s
          let x ← op.checked v w
          next x s

theorem arithTermLoop_at (expr : Text → ArithResult) (n : Nat) (v : Int) (s : Text) :
    arithTermLoop env positional expr (n + 1) v s =
      loopAt mulOp (arithOperand env positional expr) (arithTermLoop env positional expr n) v
        (arithSkipWs s) := by
  rw [arithTermLoop]
  cases arithSkipWs s with
  | nil => rfl
  | cons c s =>
      by_cases hmul : c = '*'
      · subst hmul
        rfl
      · by_cases hdiv : c = '/'
        · subst hdiv
          have hop : mulOp '/' = some .div := by decide
          simp only [loopAt, hop, BinOp.checked]
          cases arithOperand env positional expr s with
          | error x => rfl
          | ok r =>
              obtain ⟨w, s⟩ := r
              simp only [bind, Except.bind]
              split <;> rfl
        · by_cases hmod : c = '%'
          · subst hmod
            have hop : mulOp '%' = some .mod := by decide
            simp only [loopAt, hop, BinOp.checked]
            cases arithOperand env positional expr s with
            | error x => rfl
            | ok r =>
                obtain ⟨w, s⟩ := r
                simp only [bind, Except.bind]
                split
                · rfl
                · cases signedResult (v.tdiv w) <;> rfl
          · simp [loopAt, mulOp, hmul, hdiv, hmod]

theorem arithExprLoop_at (expr : Text → ArithResult) (n : Nat) (v : Int) (s : Text) :
    arithExprLoop env positional expr (n + 1) v s =
      loopAt addOp (arithParseTerm env positional expr) (arithExprLoop env positional expr n) v
        (arithSkipWs s) := by
  rw [arithExprLoop]
  cases arithSkipWs s with
  | nil => rfl
  | cons c s =>
      by_cases hplus : c = '+'
      · subst hplus
        rfl
      · by_cases hminus : c = '-'
        · subst hminus
          rfl
        · simp [loopAt, addOp, hplus, hminus]

variable {ops : Char → Option BinOp} {operand : Text → ArithResult} {readOne : Text → Reading}
  {loop : Nat → Int → Text → ArithResult}

/-- **The loop of a level**, from what was read so far. -/
theorem loop_eq (hoperand : ∀ s, operand s = outcome env positional (readOne s))
    (hzero : ∀ v s, loop 0 v s = .error .syntaxErr)
    (hnext : ∀ n v s, loop (n + 1) v s = loopAt ops operand (loop n) v (arithSkipWs s)) (n : Nat) :
    ∀ e s, (e.checked (cut env) positional >>= fun v => loop n v s) =
      outcome env positional (readLoop ops readOne n e s) := by
  induction n with
  | zero =>
      intro e s
      simp only [hzero, readLoop, outcome, Expr.checked]
      cases e.checked (cut env) positional <;> rfl
  | succ n ih =>
      intro e s
      simp only [hnext]
      rw [readLoop]
      cases arithSkipWs s with
      | nil =>
          simp only [loopAt, outcome]
      | cons c s =>
          simp only [loopAt]
          cases ops c with
          | none => simp only [outcome]
          | some op =>
              simp only [hoperand s]
              cases hread : readOne s with
              | mk r rest =>
                  cases rest with
                  | none =>
                      simp only [outcome, Expr.checked]
                      cases e.checked (cut env) positional with
                      | error x => rfl
                      | ok v => cases r.checked (cut env) positional <;> rfl
                  | some rest =>
                      simp only
                      rw [← ih (.bin op e r) rest]
                      simp only [outcome, Expr.checked]
                      cases e.checked (cut env) positional with
                      | error x => rfl
                      | ok v => cases r.checked (cut env) positional <;> rfl

/-- A level: an operand, and the loop behind it. -/
theorem level_eq (hoperand : ∀ s, operand s = outcome env positional (readOne s))
    (hzero : ∀ v s, loop 0 v s = .error .syntaxErr)
    (hnext : ∀ n v s, loop (n + 1) v s = loopAt ops operand (loop n) v (arithSkipWs s)) (s : Text) :
    (operand s >>= fun r => loop (r.2.length + 1) r.1 r.2) =
      outcome env positional (readLevel ops readOne s) := by
  rw [hoperand s, readLevel]
  cases readOne s with
  | mk e rest =>
      cases rest with
      | none =>
          simp only [outcome]
          cases e.checked (cut env) positional <;> rfl
      | some rest =>
          simp only
          rw [← loop_eq env positional hoperand hzero hnext (rest.length + 1) e rest]
          simp only [outcome]
          cases e.checked (cut env) positional <;> rfl

/-- **`arith_parse_term`**. -/
theorem arithParseTerm_eq (h : ∀ s, expr s = outcome env positional (read s)) (s : Text) :
    arithParseTerm env positional expr s = outcome env positional (readTerm read s) :=
  level_eq env positional (arithOperand_eq env positional h) (fun _ _ => rfl)
    (arithTermLoop_at env positional expr) s

/-- **`arith_parse_expr`**. -/
theorem arithParseExpr_eq (n : Nat) :
    ∀ s, arithParseExpr env positional n s = outcome env positional (readExpr n s) := by
  induction n with
  | zero =>
      intro s
      rfl
  | succ n ih =>
      intro s
      exact level_eq env positional (arithParseTerm_eq env positional ih) (fun _ _ => rfl)
        (arithExprLoop_at env positional (arithParseExpr env positional n)) s

/-- **`eval_arith`** reads the text and evaluates what it read, with checks. -/
theorem evalArith_eq (s : Text) :
    evalArith env positional s = (readArith s).checked (cut env) positional := by
  rw [evalArith, readArith]
  split
  · rfl
  · rw [arithParseExpr_eq]
    cases readExpr (s.length + 1) s with
    | mk e rest =>
        cases rest with
        | none =>
            simp only [outcome, Expr.checked]
            cases e.checked (cut env) positional <;> rfl
        | some rest =>
            simp only [outcome]
            split
            next hblank =>
              cases e.checked (cut env) positional with
              | error x => rfl
              | ok v => simp only [bind, Except.bind, hblank, if_true]
            next hrest =>
              simp only [Expr.checked]
              cases e.checked (cut env) positional with
              | error x => rfl
              | ok v => simp only [bind, Except.bind, if_neg hrest]

end Evaluator

/-! ## Where the evaluation is defined -/

theorem BinOp.value_ne_undefined (op : BinOp) (v w : Int) : op.value v w ≠ .error .undefined := by
  cases op with
  | add => simp [BinOp.value]
  | sub => simp [BinOp.value]
  | mul => simp [BinOp.value]
  | div =>
      rw [BinOp.value]
      split <;> simp
  | mod =>
      rw [BinOp.value]
      split <;> simp

/-- The meaning knows nothing of overflow. -/
theorem Expr.value_ne_undefined (neg : Int → Int) (lookup : Text → Option Text)
    (positional : Nat → Option Text) (e : Expr) : e.value neg lookup positional ≠ .error .undefined := by
  induction e with
  | num digits => simp [Expr.value]
  | var name => simp [Expr.value]
  | pos d => simp [Expr.value]
  | stuck => simp [Expr.value]
  | plus e ih => exact ih
  | minus e ih =>
      rw [Expr.value]
      cases hv : e.value neg lookup positional with
      | error x => rwa [hv] at ih
      | ok v => exact fun h => by cases h
  | unfinished e ih =>
      rw [Expr.value]
      cases hv : e.value neg lookup positional with
      | error x => rwa [hv] at ih
      | ok v => exact fun h => by cases h
  | bin op l r ihl ihr =>
      rw [Expr.value]
      cases hv : l.value neg lookup positional with
      | error x => rwa [hv] at ihl
      | ok v =>
          cases hw : r.value neg lookup positional with
          | error x => rwa [hw] at ihr
          | ok w => exact op.value_ne_undefined v w

/-- **The evaluation is defined** when every operation on the way is: the results of
`+`, `-` and `*` and the quotients of `/` and `%`, over the integers and from the left, are in
`int64_t`. -/
theorem defined_iff (env : Env) (positional : Nat → Option Text) (s : Text) :
    evalArith env positional s ≠ .error .undefined ↔ (readArith s).Safe (cut env) positional := by
  rw [evalArith_eq]
  constructor
  · intro hdefined
    by_contra hsafe
    exact hdefined (checked_of_not_safe (cut env) positional hsafe)
  · intro hsafe
    rw [checked_of_safe (cut env) positional hsafe]
    exact Expr.value_ne_undefined negate (cut env) positional (readArith s)

/-- A sum, a quotient and a remainder that C leaves undefined. -/
theorem extremes_undefined :
    let env : Env := fun name =>
      if name = "x".toList then some "-9223372036854775808".toList else none
    evalArith env (fun _ => none) "9223372036854775807 + 1".toList = .error .undefined ∧
      evalArith env (fun _ => none) "x / -1".toList = .error .undefined ∧
      evalArith env (fun _ => none) "x % -1".toList = .error .undefined := by
  decide +kernel

end Petrush.Verified.Expressions
