import Petrush.Verified.Arguments
import Petrush.Verified.Expansion
import Petrush.Verified.Grammar
import Petrush.Verified.Groups

/-!
# Arithmetic expansion

What `$((…))` leaves for every text whose parentheses are balanced.  A text that writes an
expression leaves its value over the integers when that fits; a division by zero leaves `0` and
raises the flag, and so does every other text, which raises the flag only for a division by
zero on the way.

## Main results

* `value_exact` — while nothing overflows the code computes over the integers.
* `value_div0_iff` — a value is missing for a division by zero when one was made.
* `dollarAt_arith` — where the group ends.
* `arithmetic_expands` — all of `$((…))`.
-/

namespace Petrush.Verified.Arithmetic

open Petrush.Foundation
open Petrush.Lib.CText
open Petrush.Mid.Lexer
open Petrush.Mid.Arith
open Petrush.Mid.Expand
open Petrush.Verified.Expressions
open Petrush.Verified.Grammar
open Petrush.Verified.Expansion

/-! ## Exact values -/

/-- The operation divides by zero. -/
def ByZero : Op → Prop
  | .bin .div _ w | .bin .mod _ w => w = 0
  | _ => False

/-- The operation does not overflow `int64_t`; for `%`, its quotient. -/
def Fits : Op → Prop
  | .neg v => InInt64 (-v)
  | o => o.Defined

/-- The names of an expression. -/
def names : Expr → List Text
  | .var name => [name]
  | .num _ | .pos _ | .stuck => []
  | .plus e | .minus e | .unfinished e => names e
  | .bin _ l r => names l ++ names r

/-- The literals of an expression. -/
def literals : Expr → List Text
  | .num digits => [digits]
  | .var _ | .pos _ | .stuck => []
  | .plus e | .minus e | .unfinished e => literals e
  | .bin _ l r => literals l ++ literals r

theorem Fits.defined {o : Op} (h : Fits o) : o.Defined := by
  cases o with
  | neg v => trivial
  | bin op v w => exact h

theorem negate_fits {v : Int} (h : Fits (.neg v)) : negate v = -v := by
  rw [negate, if_neg]
  intro heq
  rw [heq] at h
  exact absurd (show InInt64 (-int64Min) from h) (by decide)

section Values

variable (env : Env) (positional : Nat → Option Text)

/-- **While nothing overflows** the value and the operations are those over the integers, and
of the names in full. -/
theorem value_exact (e : Expr) (hnames : ∀ name ∈ names e, name.length < 256)
    (hops : ∀ o ∈ e.ops (-·) (getenv env) positional, Fits o) :
    e.value negate (cut env) positional = e.value (-·) (getenv env) positional ∧
      e.ops negate (cut env) positional = e.ops (-·) (getenv env) positional := by
  induction e with
  | num digits => exact ⟨rfl, rfl⟩
  | pos d => exact ⟨rfl, rfl⟩
  | stuck => exact ⟨rfl, rfl⟩
  | var name =>
      have hlen := hnames name (by simp [names])
      refine ⟨?_, rfl⟩
      rw [Expr.value, Expr.value, cut, List.take_of_length_le (by omega)]
  | plus e ih => exact ih hnames hops
  | unfinished e ih =>
      obtain ⟨hvalue, hop⟩ := ih hnames hops
      exact ⟨by rw [Expr.value, Expr.value, hvalue], hop⟩
  | minus e ih =>
      rw [Expr.ops, List.forall_mem_append] at hops
      obtain ⟨hvalue, hop⟩ := ih hnames hops.1
      have hneg := hops.2
      rw [Expr.value, Expr.value, Expr.ops, Expr.ops, hvalue, hop]
      cases hv : e.value (-·) (getenv env) positional with
      | error x => exact ⟨rfl, rfl⟩
      | ok v =>
          rw [hv] at hneg
          have hfit : negate v = -v := negate_fits (hneg (.neg v) (by simp))
          refine ⟨?_, rfl⟩
          show Except.ok (negate v) = .ok (-v)
          rw [hfit]
  | bin op l r ihl ihr =>
      rw [names, List.forall_mem_append] at hnames
      rw [Expr.ops, List.forall_mem_append] at hops
      obtain ⟨hvaluel, hopl⟩ := ihl hnames.1 hops.1
      have hright := hops.2
      rw [Expr.value, Expr.value, Expr.ops, Expr.ops, hvaluel, hopl]
      cases hv : l.value (-·) (getenv env) positional with
      | error x => exact ⟨rfl, rfl⟩
      | ok v =>
          rw [hv] at hright
          obtain ⟨hvaluer, hopr⟩ := ihr hnames.2 (List.forall_mem_append.mp hright).1
          simp only [hvaluer, hopr, and_self]

variable (neg : Int → Int) (lookup : Text → Option Text)

theorem binValue_div0_iff (op : BinOp) (v w : Int) :
    op.value v w = .error .div0 ↔ ByZero (.bin op v w) := by
  cases op with
  | add => simp [BinOp.value, ByZero]
  | sub => simp [BinOp.value, ByZero]
  | mul => simp [BinOp.value, ByZero]
  | div => simp [BinOp.value, ByZero]
  | mod => simp [BinOp.value, ByZero]

/-- **A division by zero** is why there is no value exactly when one was made. -/
theorem value_div0_iff (e : Expr) : e.value neg lookup positional = .error .div0 ↔
    ∃ o ∈ e.ops neg lookup positional, ByZero o := by
  induction e with
  | num digits => simp [Expr.value, Expr.ops]
  | var name => simp [Expr.value, Expr.ops]
  | pos d => simp [Expr.value, Expr.ops]
  | stuck => simp [Expr.value, Expr.ops]
  | plus e ih => exact ih
  | unfinished e ih =>
      rw [Expr.value, Expr.ops, ← ih]
      cases e.value neg lookup positional with
      | error x => rfl
      | ok v =>
          constructor
          · intro h
            cases h
          · intro h
            cases h
  | minus e ih =>
      rw [Expr.value, Expr.ops]
      cases hv : e.value neg lookup positional with
      | error x =>
          rw [List.append_nil, ← ih, hv]
          rfl
      | ok v =>
          rw [hv] at ih
          have hnone : ¬ ∃ o ∈ e.ops neg lookup positional, ByZero o := by
            rw [← ih]
            simp
          constructor
          · intro h
            cases h
          · intro h
            obtain ⟨o, ho, hzero⟩ := h
            rcases List.mem_append.mp ho with ho | ho
            · exact absurd ⟨o, ho, hzero⟩ hnone
            · rw [List.mem_singleton.mp ho] at hzero
              exact hzero.elim
  | bin op l r ihl ihr =>
      rw [Expr.value, Expr.ops]
      cases hv : l.value neg lookup positional with
      | error x =>
          rw [List.append_nil, ← ihl, hv]
          rfl
      | ok v =>
          rw [hv] at ihl
          have hl : ¬ ∃ o ∈ l.ops neg lookup positional, ByZero o := by
            rw [← ihl]
            simp
          cases hw : r.value neg lookup positional with
          | error x =>
              rw [hw] at ihr
              simp only [List.append_nil, List.mem_append, or_and_right, exists_or, hl, false_or,
                ← ihr]
              rfl
          | ok w =>
              rw [hw] at ihr
              have hr : ¬ ∃ o ∈ r.ops neg lookup positional, ByZero o := by
                rw [← ihr]
                simp
              simp only [List.mem_append, or_and_right, exists_or, hl, hr, false_or,
                List.mem_singleton, exists_eq_left, ← binValue_div0_iff]
              rfl

/-- An expression a text writes has a value or divides by zero. -/
theorem written_value {level : Level} {e : Expr} {s : Text} (h : Written level e s) :
    (∃ v, e.value neg lookup positional = .ok v) ∨
      e.value neg lookup positional = .error .div0 := by
  have hbin : ∀ {op : BinOp} {l r : Expr},
      ((∃ v, l.value neg lookup positional = .ok v) ∨
        l.value neg lookup positional = .error .div0) →
      ((∃ v, r.value neg lookup positional = .ok v) ∨
        r.value neg lookup positional = .error .div0) →
      (∃ v, (Expr.bin op l r).value neg lookup positional = .ok v) ∨
        (Expr.bin op l r).value neg lookup positional = .error .div0 := by
    intro op l r hl hr
    rw [Expr.value]
    obtain ⟨v, hv⟩ | hv := hl
    · obtain ⟨w, hw⟩ | hw := hr
      · rw [hv, hw]
        show (∃ x, op.value v w = .ok x) ∨ op.value v w = .error .div0
        cases op with
        | add => exact .inl ⟨_, rfl⟩
        | sub => exact .inl ⟨_, rfl⟩
        | mul => exact .inl ⟨_, rfl⟩
        | div =>
            by_cases hzero : w = 0
            · exact .inr (if_pos hzero)
            · exact .inl ⟨_, if_neg hzero⟩
        | mod =>
            by_cases hzero : w = 0
            · exact .inr (if_pos hzero)
            · exact .inl ⟨_, if_neg hzero⟩
      · rw [hv, hw]
        exact .inr rfl
    · rw [hv]
      exact .inr rfl
  induction h with
  | num hne hall => exact .inl ⟨_, rfl⟩
  | var h => exact .inl ⟨_, rfl⟩
  | dollar h => exact .inl ⟨_, rfl⟩
  | pos h => exact .inl ⟨_, rfl⟩
  | paren h ih => exact ih
  | unary h ih => exact ih
  | plus h ih => exact ih
  | minus h ih =>
      rw [Expr.value]
      obtain ⟨v, hv⟩ | hv := ih
      · rw [hv]
        exact .inl ⟨_, rfl⟩
      · rw [hv]
        exact .inr rfl
  | term h ih => exact ih
  | mul hop hl hr ihl ihr => exact hbin ihl ihr
  | expr h ih => exact ih
  | add hop hl hr ihl ihr => exact hbin ihl ihr
  | before hc h ih => exact ih
  | behind hc h ih => exact ih

end Values

/-! ## Where the group ends -/

/-- The open parentheses behind a text, when none is closed that is not open. -/
def openAfter : Nat → Text → Option Nat
  | depth, [] => some depth
  | depth, c :: s =>
      if c = '(' then openAfter (depth + 1) s
      else if c = ')' then if depth = 0 then none else openAfter (depth - 1) s
      else openAfter depth s

/-- The parentheses are balanced. -/
def Balanced (t : Text) : Prop := openAfter 0 t = some 0

/-- No byte is a quote. -/
def Unquoted (t : Text) : Prop := ∀ c ∈ t, isQuote c = false

instance (t : Text) : Decidable (Balanced t) := inferInstanceAs (Decidable (_ = _))

instance (t : Text) : Decidable (Unquoted t) :=
  decidable_of_iff (t.any isQuote = false) (by simp [Unquoted])

theorem openAfter_append (s u : Text) : ∀ depth,
    openAfter depth (s ++ u) = (openAfter depth s).bind fun d => openAfter d u := by
  induction s with
  | nil =>
      intro depth
      rfl
  | cons c s ih =>
      intro depth
      rw [List.cons_append, openAfter, openAfter]
      split_ifs
      · exact ih _
      · rfl
      · exact ih _
      · exact ih _

theorem openAfter_plain {s : Text} (h : ∀ c ∈ s, c ≠ '(' ∧ c ≠ ')') (depth : Nat) :
    openAfter depth s = some depth := by
  induction s with
  | nil => rfl
  | cons c s ih =>
      obtain ⟨hopen, hclose⟩ := h c (by simp)
      rw [openAfter, if_neg hopen, if_neg hclose]
      exact ih fun d hd => h d (by simp [hd])

theorem openAfter_shift (s : Text) (k : Nat) : ∀ {depth d : Nat}, openAfter depth s = some d →
    openAfter (depth + k) s = some (d + k) := by
  induction s with
  | nil =>
      intro depth d h
      rw [← Option.some.inj h]
      rfl
  | cons c s ih =>
      intro depth d h
      rw [openAfter] at h ⊢
      split_ifs at h ⊢ with hopen hclose hzero hzero'
      · have := ih h
        rwa [Nat.add_right_comm] at this
      · omega
      · have := ih h
        rwa [show depth - 1 + k = depth + k - 1 by omega] at this
      · exact ih h

/-- The loop of the spans goes through a balanced text. -/
theorem spanLoop_openAfter {s : Text} (hquote : Unquoted s) (rest : Text) : ∀ {depth d : Nat},
    openAfter depth s = some d →
      spanLoop (depth + 1) none (s ++ rest) = (spanLoop (d + 1) none rest).map (· + s.length) := by
  induction s with
  | nil =>
      intro depth d h
      rw [← Option.some.inj h]
      simp
  | cons c s ih =>
      have hc : ¬ (c = '\'' ∨ c = '"') := by
        have hother := hquote c (by simp)
        simp only [isQuote, Bool.or_eq_false_iff, beq_eq_false_iff_ne] at hother
        exact fun h => h.elim hother.2 hother.1
      have hs : Unquoted s := fun d hd => hquote d (by simp [hd])
      intro depth d h
      rw [openAfter] at h
      rw [List.cons_append, spanLoop, spanStep]
      simp only [if_neg hc]
      split_ifs at h ⊢ with hopen hclose hzero
      · rw [ih hs h, Option.map_map, List.length_cons]
        rfl
      · obtain ⟨e, rfl⟩ := Nat.exists_eq_succ_of_ne_zero hzero
        rw [Nat.succ_sub_one] at h
        show Option.map _ (spanLoop (e + 1) none (s ++ rest)) = _
        rw [ih hs h, Option.map_map, List.length_cons]
        rfl
      · rw [ih hs h, Option.map_map, List.length_cons]
        rfl

/-- **The group ends** behind the two parentheses that close it. -/
theorem dollarAt_arith {t : Text} (hbalanced : Balanced t) (hquote : Unquoted t) (rest : Text) :
    dollarAt ("$((".toList ++ t ++ "))".toList ++ rest) = some (.arith t, t.length + 5) := by
  have hspan : spanLoop 2 none (t ++ (')' :: ')' :: rest)) = some (t.length + 2) := by
    have hone := spanLoop_openAfter hquote (')' :: ')' :: rest) (openAfter_shift t 1 hbalanced)
    rw [hone]
    have hend : spanLoop 2 none (')' :: ')' :: rest) = some 2 := by
      simp [spanLoop, spanStep]
    rw [hend, Option.map_some, Nat.add_comm]
  have happ : "$((".toList ++ t ++ "))".toList ++ rest =
      '$' :: '(' :: '(' :: (t ++ ')' :: ')' :: rest) := by
    simp
  have harith : arithSpan ('$' :: '(' :: '(' :: (t ++ ')' :: ')' :: rest)) = t.length + 5 := by
    rw [arithSpan, hspan]
    rfl
  rw [happ, dollarAt]
  simp [harith]

theorem isBlank_cases {c : Char} (h : isBlank c = true) :
    isQuote c = false ∧ c ≠ '(' ∧ c ≠ ')' := by
  simp only [isBlank, Bool.or_eq_true, beq_iff_eq] at h
  obtain ((rfl | rfl) | rfl) | rfl := h <;> decide

theorem isNameChar_cases {c : Char} (h : isNameChar c = true) :
    isQuote c = false ∧ c ≠ '(' ∧ c ≠ ')' := by
  have hother : ∀ d : Char, isNameChar d = false → c ≠ d := by
    intro d hd heq
    rw [heq, hd] at h
    contradiction
  have hdouble := hother '"' (by decide)
  have hsingle := hother '\'' (by decide)
  exact ⟨by simp [isQuote, hdouble, hsingle], hother '(' (by decide), hother ')' (by decide)⟩

theorem op_cases {c : Char} {op : BinOp} (h : mulOp c = some op ∨ addOp c = some op) :
    isQuote c = false ∧ c ≠ '(' ∧ c ≠ ')' := by
  have hcases : c = '*' ∨ c = '/' ∨ c = '%' ∨ c = '+' ∨ c = '-' := by
    simp only [mulOp, addOp] at h
    split_ifs at h <;> simp_all
  obtain rfl | rfl | rfl | rfl | rfl := hcases <;> decide

/-- A text that writes an expression is balanced and has no quotes. -/
theorem written_balanced {level : Level} {e : Expr} {s : Text} (h : Written level e s) :
    Balanced s ∧ Unquoted s := by
  have hplain : ∀ {u : Text}, (∀ c ∈ u, isQuote c = false ∧ c ≠ '(' ∧ c ≠ ')') →
      Balanced u ∧ Unquoted u := by
    intro u hu
    exact ⟨openAfter_plain (fun c hc => (hu c hc).2) 0, fun c hc => (hu c hc).1⟩
  have happend : ∀ {u v : Text}, Balanced u ∧ Unquoted u → Balanced v ∧ Unquoted v →
      Balanced (u ++ v) ∧ Unquoted (u ++ v) := by
    intro u v hu hv
    refine ⟨?_, List.forall_mem_append.mpr ⟨hu.2, hv.2⟩⟩
    rw [Balanced, openAfter_append, hu.1]
    exact hv.1
  have hbyte : ∀ {c : Char}, isQuote c = false ∧ c ≠ '(' ∧ c ≠ ')' →
      Balanced [c] ∧ Unquoted [c] := by
    intro c hc
    refine hplain fun d hd => ?_
    rwa [List.mem_singleton.mp hd]
  have hname : ∀ {name : Text}, IsName name → Balanced name ∧ Unquoted name := by
    intro name hn
    exact hplain fun c hc => isNameChar_cases (List.all_eq_true.mp hn.1 c hc)
  induction h with
  | num hne hall =>
      exact hplain fun c hc =>
        isNameChar_cases (isdigit_isNameChar (List.all_eq_true.mp hall c hc))
  | var h => exact hname h
  | dollar h => exact happend (hbyte (c := '$') (by decide)) (hname h)
  | pos h =>
      exact happend (hbyte (c := '$') (by decide)) (hbyte (isNameChar_cases (isdigit_isNameChar h)))
  | @paren e s h ih =>
      constructor
      · rw [Balanced, List.cons_append, openAfter, if_pos rfl, openAfter_append,
          openAfter_shift s 1 ih.1]
        rfl
      · intro c hc
        simp only [List.cons_append, List.mem_cons, List.mem_append, List.not_mem_nil,
          or_false] at hc
        obtain rfl | hc | rfl := hc
        · decide
        · exact ih.2 c hc
        · decide
  | unary h ih => exact ih
  | plus h ih => exact happend (hbyte (c := '+') (by decide)) ih
  | minus h ih => exact happend (hbyte (c := '-') (by decide)) ih
  | term h ih => exact ih
  | mul hop hl hr ihl ihr =>
      exact happend ihl (happend (hbyte (op_cases (Or.inl hop))) ihr)
  | expr h ih => exact ih
  | add hop hl hr ihl ihr =>
      exact happend ihl (happend (hbyte (op_cases (Or.inr hop))) ihr)
  | before hc h ih => exact happend (hbyte (isBlank_cases hc)) ih
  | behind hc h ih => exact happend ih (hbyte (isBlank_cases hc))

/-! ## The expansion -/

/-- `$((t))` leaves the number, raises the flag or not, and the expansion goes on behind it. -/
def ExpandsTo (w : World) (ctx : Ctx) (t : Text) (v : Int) (flag : Bool) : Prop :=
  ∀ word esc rest fx,
    expandParamsFrom w ctx word esc 0 ("$((".toList ++ t ++ "))".toList ++ rest) fx =
      prepend (decimal v) (expandParamsFrom w ctx word esc 0 rest
        (if flag then (fx.record (.dollar (.arith t))).arithFail
          else fx.record (.dollar (.arith t))))

/-- The operations over the integers. -/
def exactOps (ctx : Ctx) (e : Expr) : List Op := e.ops (-·) (getenv ctx.env) (positionalGet ctx)

/-- The value over the integers. -/
def exactValue (ctx : Ctx) (e : Expr) : Except ArithErr Int :=
  e.value (-·) (getenv ctx.env) (positionalGet ctx)

/-- The operations of the code. -/
def codeOps (ctx : Ctx) (e : Expr) : List Op := e.ops negate (cut ctx.env) (positionalGet ctx)

section Expands

variable (w : World) (ctx : Ctx) {t : Text}

theorem expandsTo_of {v : Int} {flag : Bool} (hbalanced : Balanced t) (hquote : Unquoted t)
    (h : ∀ word fx, evalDollar w ctx word (.arith t) fx =
      (decimal v, if flag then (fx.record (.dollar (.arith t))).arithFail
        else fx.record (.dollar (.arith t)))) : ExpandsTo w ctx t v flag := by
  intro word esc rest fx
  have hat : dollarAt ('$' :: ("((".toList ++ t ++ "))".toList) ++ rest) =
      some (.arith t, ("((".toList ++ t ++ "))".toList).length + 1) := by
    have hlen : ("((".toList ++ t ++ "))".toList).length + 1 = t.length + 5 := by
      simp
    rw [hlen]
    exact dollarAt_arith hbalanced hquote rest
  have hform := expandParamsFrom_form w ctx word esc hat fx
  rw [h] at hform
  exact hform

/-- A text whose operations are defined has the value of its expression. -/
theorem evalArith_safe (hsafe : ∀ o ∈ codeOps ctx (readArith t), o.Defined) :
    evalArith ctx.env (positionalGet ctx) t =
      (readArith t).value negate (cut ctx.env) (positionalGet ctx) := by
  rw [evalArith_eq]
  exact checked_of_safe (cut ctx.env) (positionalGet ctx) hsafe

theorem expandsTo_value {v : Int} (hbalanced : Balanced t) (hquote : Unquoted t)
    (h : evalArith ctx.env (positionalGet ctx) t = .ok v) : ExpandsTo w ctx t v false := by
  refine expandsTo_of w ctx hbalanced hquote ?_
  intro word fx
  simp only [evalDollar, h, Bool.false_eq_true, if_false]

theorem expandsTo_zero {x : ArithErr} (hx : x ≠ .undefined) (hbalanced : Balanced t)
    (hquote : Unquoted t) (h : evalArith ctx.env (positionalGet ctx) t = .error x) :
    ExpandsTo w ctx t 0 (decide (x = .div0)) := by
  refine expandsTo_of w ctx hbalanced hquote ?_
  intro word fx
  cases x with
  | div0 => simp only [evalDollar, h, decide_true, if_true]
  | syntaxErr => simp only [evalDollar, h]; rfl
  | undefined => contradiction

/-- A text that writes an expression: the value when there is one, and what happens for a
division by zero. -/
theorem expression_expands {e : Expr} (hw : Written .expr e t)
    (hnames : ∀ name ∈ names e, name.length < 256) (hfits : ∀ o ∈ exactOps ctx e, Fits o) :
    (∀ v, exactValue ctx e = .ok v → ExpandsTo w ctx t v false) ∧
      ((∃ o ∈ exactOps ctx e, ByZero o) → ExpandsTo w ctx t 0 true) := by
  obtain ⟨hbalanced, hquote⟩ := written_balanced hw
  obtain ⟨hvalue, hops⟩ := value_exact ctx.env (positionalGet ctx) e hnames hfits
  have heval : evalArith ctx.env (positionalGet ctx) t = exactValue ctx e := by
    rw [evalArith_safe ctx, readArith_written hw]
    · exact hvalue
    · rw [readArith_written hw, codeOps, hops]
      exact fun o ho => (hfits o ho).defined
  constructor
  · intro v hv
    exact expandsTo_value w ctx hbalanced hquote (heval.trans hv)
  · intro hzero
    have hdiv0 : exactValue ctx e = .error .div0 :=
      (value_div0_iff (positionalGet ctx) (-·) (getenv ctx.env) e).mpr hzero
    exact expandsTo_zero w ctx (x := .div0) (by simp) hbalanced hquote (heval.trans hdiv0)

/-- A text that writes no expression leaves zero. -/
theorem other_expands (hbalanced : Balanced t) (hquote : Unquoted t)
    (hnone : ∀ e, ¬ Written .expr e t) (hsafe : ∀ o ∈ codeOps ctx (readArith t), o.Defined) :
    ∃ flag, ExpandsTo w ctx t 0 flag ∧
      (flag = true ↔ ∃ o ∈ codeOps ctx (readArith t), ByZero o) := by
  have heval := evalArith_safe ctx hsafe
  have hzero := value_div0_iff (positionalGet ctx) negate (cut ctx.env) (readArith t)
  by_cases hblank : arithSkipWs t = []
  · have hread : readArith t = .num ['0'] := by
      rw [readArith, if_pos hblank]
    refine ⟨false, ?_, ?_⟩
    · refine expandsTo_value w ctx hbalanced hquote ?_
      rw [heval, hread]
      rfl
    · rw [hread]
      simp [codeOps, Expr.ops]
  · have hbroken := (written_of_readArith hblank).resolve_left (hnone _)
    cases hv : (readArith t).value negate (cut ctx.env) (positionalGet ctx) with
    | ok v => exact absurd hv (hbroken _ _ _ v)
    | error x =>
        have hx : x ≠ .undefined := by
          rintro rfl
          exact Expr.value_ne_undefined negate (cut ctx.env) (positionalGet ctx) (readArith t) hv
        refine ⟨decide (x = .div0), ?_, ?_⟩
        · exact expandsTo_zero w ctx hx hbalanced hquote (heval.trans hv)
        · rw [codeOps, ← hzero, hv]
          simp

/-- **Arithmetic expansion.**  A text that writes an expression, with blanks anywhere between
its parts, expands to the value of the expression, and to zero with the flag raised when a
division by zero is made; every other text with balanced parentheses and no quotes expands to
zero, with the flag raised exactly when a division by zero is made before the reading stops. -/
theorem arithmetic_expands :
    (∀ t e, Written .expr e t → (∀ name ∈ names e, name.length < 256) →
      (∀ o ∈ exactOps ctx e, Fits o) →
        (∀ v, exactValue ctx e = .ok v → ExpandsTo w ctx t v false) ∧
        ((∃ o ∈ exactOps ctx e, ByZero o) → ExpandsTo w ctx t 0 true) ∧
        ((∃ v, exactValue ctx e = .ok v) ∨ ∃ o ∈ exactOps ctx e, ByZero o)) ∧
      ∀ t, Balanced t → Unquoted t → (∀ e, ¬ Written .expr e t) →
        (∀ o ∈ codeOps ctx (readArith t), o.Defined) →
          ∃ flag, ExpandsTo w ctx t 0 flag ∧
            (flag = true ↔ ∃ o ∈ codeOps ctx (readArith t), ByZero o) := by
  constructor
  · intro t e hw hnames hfits
    obtain ⟨hvalue, hzero⟩ := expression_expands w ctx hw hnames hfits
    refine ⟨hvalue, hzero, ?_⟩
    rw [exactOps, ← value_div0_iff]
    exact written_value (positionalGet ctx) (-·) (getenv ctx.env) hw
  · intro t hbalanced hquote hnone hsafe
    exact other_expands w ctx hbalanced hquote hnone hsafe

end Expands

/-- The reading of a text it writes is the only expression a text writes. -/
theorem written_unique {e e' : Expr} {t : Text} (h : Written .expr e t) (h' : Written .expr e' t) :
    e = e' := by
  rw [← readArith_written h, ← readArith_written h']

/-- `x` is 6. -/
def sixCtx : Ctx := { env := fun name => if name = "x".toList then some "6".toList else none }

/-- `-(x) % 4`. -/
theorem written_minus : Written .expr (.bin .mod (.minus (.var "x".toList)) (.num "4".toList))
    "-(x) % 4".toList := by
  have hx : Written .primary (.var "x".toList) "x".toList := .var ⟨by decide, 'x', [], rfl, by decide⟩
  have hfour : Written .unary (.num "4".toList) " 4".toList :=
    .before (c := ' ') (by decide) (.unary (.num (by decide) (by decide)))
  have hminus : Written .term (.minus (.var "x".toList)) "-(x) ".toList :=
    .behind (c := ' ') (by decide)
      (.term (.minus (.unary (.paren (.expr (.term (.unary hx)))))))
  exact .expr (.mul (c := '%') (by decide) hminus hfour)

theorem arithmetic_expands_minus :
    ExpandsTo Arguments.bareWorld sixCtx "-(x) % 4".toList (-2) false := by
  have hfits : ∀ o ∈ exactOps sixCtx (.bin .mod (.minus (.var "x".toList)) (.num "4".toList)),
      Fits o := by
    intro o ho
    have hmem : o ∈ [Op.neg 6, .bin .mod (-6) 4] := ho
    simp only [List.mem_cons, List.not_mem_nil, or_false] at hmem
    obtain rfl | rfl := hmem
    · exact show InInt64 (-6) by decide
    · exact show (Op.bin BinOp.mod (-6) 4).Defined by decide
  exact ((arithmetic_expands Arguments.bareWorld sixCtx).1 _ _ written_minus (by decide) hfits).1
    (-2) rfl

/-- **A literal outside `int64_t`** counts as zero in a sum, so the text expands to one; no
expression over literals in `int64_t` is written by it. -/
theorem outside_literal :
    (¬ ∃ e, Written .expr e "1+9223372036854775808".toList ∧
      ∀ digits ∈ literals e, (Integers.int64Of digits).isSome) ∧
    Balanced "1+9223372036854775808".toList ∧ Unquoted "1+9223372036854775808".toList ∧
    expandWord Arguments.bareWorld sixCtx "$((1+9223372036854775808))".toList {} =
      ("1".toList, Effects.record {} (.dollar (.arith "1+9223372036854775808".toList))) := by
  refine ⟨?_, by decide +kernel, by decide +kernel, by decide +kernel⟩
  intro h
  obtain ⟨e, hw, hliterals⟩ := h
  have hread : readArith "1+9223372036854775808".toList =
      .bin .add (.num "1".toList) (.num "9223372036854775808".toList) := by
    decide +kernel
  rw [← readArith_written hw, hread] at hliterals
  exact absurd (hliterals "9223372036854775808".toList (by simp [literals])) (by decide +kernel)

end Petrush.Verified.Arithmetic
