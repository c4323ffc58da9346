import Petrush.Mid.DbracketScan
import Petrush.Verified.Brackets

/-!
# `[[ … ]]` is evaluated from left to right

An expression is a term and then terms behind `&&` and `||`, which bind alike.  A
term is evaluated when the verdict so far needs it; otherwise it is passed over, and
what stands behind it is read as if it had been evaluated.

The files may change between two tests: what a primary finds depends on the primaries
evaluated before it.

## Main results

* `dbrEvalTerm_at`, `dbrSkipTerm_at`: a term is evaluated, and skipped, to its end.
* `evaluated_iff`: the evaluator on any expression of the grammar.
-/

namespace Petrush.Verified.ShortCircuit

open Petrush.Lib.CText
open Petrush.Lib.Stdlib
open Petrush.Mid.Dbracket (unaryOps binaryOps featTestBinary dbrStrCmp)
open Petrush.Mid.DbracketScan
open Petrush.Mid.Glob
open Petrush.Verified.Brackets (operators)

/-! ## The grammar -/

/-- A token: its text, and whether it is quoted. -/
abbrev Token := Text × Bool

inductive UnaryOp where
  | regular
  | directory
  | present
  | empty
  | nonempty
  deriving Repr, DecidableEq

def UnaryOp.spell : UnaryOp → Text
  | .regular => "-f".toList
  | .directory => "-d".toList
  | .present => "-e".toList
  | .empty => "-z".toList
  | .nonempty => "-n".toList

/-- The comparisons of two integers. -/
inductive Order where
  | eq
  | ne
  | lt
  | gt
  deriving Repr, DecidableEq

inductive BinaryOp where
  | same
  | same'
  | differs
  | integers (order : Order)
  deriving Repr, DecidableEq

def BinaryOp.spell : BinaryOp → Text
  | .same => "=".toList
  | .same' => "==".toList
  | .differs => "!=".toList
  | .integers .eq => "-eq".toList
  | .integers .ne => "-ne".toList
  | .integers .lt => "-lt".toList
  | .integers .gt => "-gt".toList

inductive Connective where
  | and
  | or
  deriving Repr, DecidableEq

def Connective.spell : Connective → Text
  | .and => "&&".toList
  | .or => "||".toList

/-- A word that is no operator. -/
structure Operand where
  text : Text
  quoted : Bool
  plain : operators.contains text = false

def Operand.token (w : Operand) : Token := (w.text, w.quoted)

/-- A primary; what is quoted of an operator is not looked at. -/
inductive Primary where
  | test (op : UnaryOp) (opQuoted : Bool) (operand : Operand)
  | compare (lhs : Operand) (op : BinaryOp) (opQuoted : Bool) (rhs : Operand)
  | word (w : Operand)

def Primary.tokens : Primary → List Token
  | .test op q operand => [(op.spell, q), operand.token]
  | .compare lhs op q rhs => [lhs.token, (op.spell, q), rhs.token]
  | .word w => [w.token]

/-- A term: the `!`, each quoted or not, and a primary. -/
structure Term where
  bangs : List Bool
  prim : Primary

def bangTokens (bangs : List Bool) : List Token := bangs.map fun q => (['!'], q)

def Term.tokens (t : Term) : List Token := bangTokens t.bangs ++ t.prim.tokens

/-- A term behind its connective. -/
structure Joined where
  conn : Connective
  connQuoted : Bool
  term : Term

def Joined.tokens (j : Joined) : List Token := (j.conn.spell, j.connQuoted) :: j.term.tokens

structure Expr where
  first : Term
  more : List Joined

def Expr.tokens (e : Expr) : List Token := e.first.tokens ++ e.more.flatMap Joined.tokens

/-! ## Verdicts

No verdict is an error. -/

def UnaryOp.holds (fs : FileSystem) (operand : Text) : UnaryOp → Bool
  | .regular => fs.stat operand = some .reg
  | .directory => fs.stat operand = some .dir
  | .present => fs.access operand
  | .empty => operand = []
  | .nonempty => operand ≠ []

def Order.holds (a b : Int) : Order → Bool
  | .eq => a = b
  | .ne => a ≠ b
  | .lt => a < b
  | .gt => b < a

/-- The texts agree: a right side that is not quoted is a pattern. -/
def agree (lhs : Text) (rhs : Operand) : Bool :=
  if rhs.quoted then lhs = rhs.text else casePatMatch rhs.text lhs

/-- The verdict of a primary on the files. -/
def Primary.verdict (fs : FileSystem) : Primary → Option Bool
  | .test op _ operand => some (op.holds fs operand.text)
  | .compare lhs .same _ rhs | .compare lhs .same' _ rhs => some (agree lhs.text rhs)
  | .compare lhs .differs _ rhs => some !(agree lhs.text rhs)
  | .compare lhs (.integers order) _ rhs =>
      (parseLong lhs.text).bind fun a => (parseLong rhs.text).map fun b => order.holds a b
  | .word w => some (w.text ≠ [])

/-- The tests a primary makes. -/
def Primary.probes : Primary → List Probe
  | .test .regular _ operand | .test .directory _ operand => [.stat operand.text]
  | .test .present _ operand => [.access operand.text]
  | .compare lhs (.integers order) _ rhs =>
      [.integers lhs.text (BinaryOp.integers order).spell rhs.text]
  | _ => []

/-- Integers are compared, and one of them is none. -/
def Primary.Erroneous : Primary → Prop
  | .compare lhs (.integers _) _ rhs => parseLong lhs.text = none ∨ parseLong rhs.text = none
  | _ => False

/-- The tests of primaries evaluated one after another. -/
def probes (seen : List Primary) : List Probe := seen.flatMap Primary.probes

section Meaning

-- The files, as the tests made so far find them.
variable (sys : List Probe → FileSystem)

/-- The verdict of a term behind the primaries that are evaluated before it. -/
def Term.verdict (seen : List Primary) (t : Term) : Option Bool :=
  (t.prim.verdict (sys (probes seen))).map fun b => b ^^ decide (t.bangs.length % 2 = 1)

/-- The verdict so far needs the term behind the connective. -/
def Connective.needs : Connective → Bool → Bool
  | .and, b => b
  | .or, b => !b

/-- The verdict from `b` on, and the primaries that are evaluated. -/
def verdictFrom : Bool → List Primary → List Joined → Option Bool × List Primary
  | b, seen, [] => (some b, seen)
  | b, seen, j :: more =>
      if j.conn.needs b then
        match j.term.verdict sys seen with
        | none => (none, seen ++ [j.term.prim])
        | some b => verdictFrom b (seen ++ [j.term.prim]) more
      else verdictFrom b seen more

/-- The verdict of an expression, and the primaries that are evaluated. -/
def Expr.verdict (e : Expr) : Option Bool × List Primary :=
  match e.first.verdict sys [] with
  | none => (none, [e.first.prim])
  | some b => verdictFrom sys b [e.first.prim] e.more

end Meaning

/-- The status for a verdict. -/
def code : Option Bool → Int
  | some true => 0
  | some false => 1
  | none => 2

theorem code_eq_two {v : Option Bool} : code v = 2 ↔ v = none := by
  rcases v with - | - | - <;> decide

theorem code_eq_zero {b : Bool} : code (some b) = 0 ↔ b = true := by
  cases b <;> decide

/-! ## Reading tokens -/

/-- `argv`. -/
def texts (toks : List Token) : List Text := toks.map Prod.fst

/-- `quoted`. -/
def flags (toks : List Token) (idx : Nat) : Bool := (toks[idx]?.map Prod.snd).getD false

/-- What stands behind a term: nothing, or a connective. -/
def Follows (post : List Token) : Prop :=
  post = [] ∨ ∃ c q rest, post = (Connective.spell c, q) :: rest

section Reading

variable {toks : List Token} {idx : Nat}

theorem length_of_drop {t : Token} {l : List Token} (h : toks.drop idx = t :: l) :
    (texts toks).length = idx + l.length + 1 := by
  have hlen := congrArg List.length h
  simp only [List.length_drop, List.length_cons] at hlen
  simp only [texts, List.length_map]
  omega

theorem drop_succ {t : Token} {l : List Token} (h : toks.drop idx = t :: l) :
    toks.drop (idx + 1) = l := by
  rw [← List.drop_drop, h]
  rfl

theorem getElem?_of_drop {t : Token} {l : List Token} (h : toks.drop idx = t :: l) :
    toks[idx]? = some t := by
  rw [← List.head?_drop, h]
  rfl

theorem token_of_drop {t : Token} {l : List Token} (h : toks.drop idx = t :: l) :
    token (texts toks) idx = t.1 := by
  simp [token, texts, List.getD_eq_getElem?_getD, getElem?_of_drop h]

theorem tokenIs_of_drop {t : Token} {l : List Token} (h : toks.drop idx = t :: l) (s : Text) :
    tokenIs (texts toks) idx s = decide (t.1 = s) := by
  rw [Bool.eq_iff_iff]
  simp [tokenIs, texts, getElem?_of_drop h]

theorem flags_of_drop {t : Token} {l : List Token} (h : toks.drop idx = t :: l) :
    flags toks idx = t.2 := by
  simp [flags, getElem?_of_drop h]

end Reading

theorem Operand.not_mem (w : Operand) {op : Text} (h : op ∈ operators) : w.text ≠ op := by
  intro heq
  have hplain := w.plain
  rw [heq, List.contains_eq_mem, decide_eq_false_iff_not] at hplain
  exact hplain h

theorem Operand.not_unary (w : Operand) : dbrIsUnary w.text = false := by
  rw [dbrIsUnary, List.contains_eq_mem, decide_eq_false_iff_not]
  intro h
  exact w.not_mem (List.mem_append_left _ (List.mem_append_left _ h)) rfl

theorem UnaryOp.isUnary (op : UnaryOp) : dbrIsUnary op.spell = true := by
  cases op <;> decide

theorem BinaryOp.isBinop (op : BinaryOp) : dbrIsBinop op.spell = true := by
  rcases op with - | - | - | - | - | - | - <;> decide

theorem Connective.not_binop (c : Connective) : dbrIsBinop c.spell = false := by
  cases c <;> decide

theorem Connective.not_bang (c : Connective) : c.spell ≠ ['!'] := by
  cases c <;> decide

theorem UnaryOp.not_bang (op : UnaryOp) : op.spell ≠ ['!'] := by
  cases op <;> decide

/-! ## Primaries -/

section Evaluation

variable (sys : List Probe → FileSystem) {toks : List Token}

theorem featTestUnary_eq (op : UnaryOp) (operand : Operand) (q : Bool) (made : List Probe) :
    featTestUnary sys op.spell operand.text made =
      (code (some (op.holds (sys made) operand.text)),
        made ++ (Primary.test op q operand).probes) := by
  cases op with
  | regular =>
      by_cases h : (sys made).stat operand.text = some .reg <;>
        simp [featTestUnary, UnaryOp.spell, UnaryOp.holds, code, Primary.probes, h]
  | directory =>
      by_cases h : (sys made).stat operand.text = some .dir <;>
        simp [featTestUnary, UnaryOp.spell, UnaryOp.holds, code, Primary.probes, h]
  | present =>
      by_cases h : (sys made).access operand.text = true <;>
        simp [featTestUnary, UnaryOp.spell, UnaryOp.holds, code, Primary.probes, h]
  | empty =>
      by_cases h : operand.text = [] <;>
        simp [featTestUnary, UnaryOp.spell, UnaryOp.holds, code, Primary.probes, h]
  | nonempty =>
      by_cases h : operand.text = [] <;>
        simp [featTestUnary, UnaryOp.spell, UnaryOp.holds, code, Primary.probes, h]

/-- `dbr_str_cmp`. -/
theorem dbrStrCmp_eq (lhs op : Text) (rhs : Operand) :
    dbrStrCmp lhs op rhs.text rhs.quoted =
      code (some (if op = "!=".toList then !(agree lhs rhs) else agree lhs rhs)) := by
  simp only [dbrStrCmp, agree]
  by_cases hop : op = "!=".toList
  · simp only [if_pos hop]
    split_ifs <;> simp_all [code]
  · simp only [if_neg hop]
    split_ifs <;> simp_all [code]

/-- `feat_test_binary`, on the comparisons of integers. -/
theorem featTestBinary_eq (lhs rhs : Operand) (order : Order) (q : Bool) (fs : FileSystem) :
    featTestBinary lhs.text (BinaryOp.integers order).spell rhs.text =
      code ((Primary.compare lhs (.integers order) q rhs).verdict fs) := by
  simp only [Primary.verdict]
  cases ha : parseLong lhs.text with
  | none => cases order <;> simp [featTestBinary, BinaryOp.spell, code, ha]
  | some a =>
      cases hb : parseLong rhs.text with
      | none => cases order <;> simp [featTestBinary, BinaryOp.spell, code, ha, hb]
      | some b =>
          cases order with
          | eq =>
              by_cases h : a = b <;>
                simp [featTestBinary, BinaryOp.spell, Order.holds, code, ha, hb, h]
          | ne =>
              by_cases h : a = b <;>
                simp [featTestBinary, BinaryOp.spell, Order.holds, code, ha, hb, h]
          | lt =>
              by_cases h : a < b <;>
                simp [featTestBinary, BinaryOp.spell, Order.holds, code, ha, hb, h]
          | gt =>
              by_cases h : b < a <;>
                simp [featTestBinary, BinaryOp.spell, Order.holds, code, ha, hb, h]

/-- **A primary is evaluated where it stands.** -/
theorem dbrEvalPrimary_at (p : Primary) {post : List Token} {idx : Nat}
    (h : toks.drop idx = p.tokens ++ post) (hpost : Follows post) (made : List Probe) :
    dbrEvalPrimary sys (texts toks) (flags toks) idx made =
      ⟨code (p.verdict (sys made)), idx + p.tokens.length, made ++ p.probes⟩ := by
  cases p with
  | test op q operand =>
      have h : toks.drop idx = (op.spell, q) :: operand.token :: post := h
      have hlen := length_of_drop h
      have hnext := drop_succ h
      simp only [List.length_cons] at hlen
      have hin : ¬ idx ≥ (texts toks).length := by omega
      have hsecond : idx + 1 < (texts toks).length := by omega
      simp only [dbrEvalPrimary, if_neg hin, token_of_drop h, token_of_drop hnext, hsecond,
        op.isUnary, and_self, if_true, Operand.token, featTestUnary_eq sys op operand q]
      rfl
  | compare lhs op q rhs =>
      have h : toks.drop idx = lhs.token :: (op.spell, q) :: rhs.token :: post := h
      have hlen := length_of_drop h
      have hnext := drop_succ h
      have hlast := drop_succ hnext
      simp only [List.length_cons] at hlen
      have hin : ¬ idx ≥ (texts toks).length := by omega
      have hthird : idx + 2 < (texts toks).length := by omega
      simp only [dbrEvalPrimary, if_neg hin, token_of_drop h, token_of_drop hnext,
        token_of_drop hlast, flags_of_drop hlast, Operand.token, lhs.not_unary, hthird,
        op.isBinop, and_self, if_true, Bool.false_eq_true, and_false, if_false]
      cases op with
      | same =>
          rw [if_pos (by decide), dbrStrCmp_eq]
          simp [BinaryOp.spell, Primary.verdict, Primary.tokens, Primary.probes]
      | same' =>
          rw [if_pos (by decide), dbrStrCmp_eq]
          simp [BinaryOp.spell, Primary.verdict, Primary.tokens, Primary.probes]
      | differs =>
          rw [if_pos (by decide), dbrStrCmp_eq]
          simp [BinaryOp.spell, Primary.verdict, Primary.tokens, Primary.probes]
      | integers order =>
          rw [if_neg (by cases order <;> decide),
            featTestBinary_eq lhs rhs order q (sys made)]
          rfl
  | word w =>
      have h : toks.drop idx = w.token :: post := h
      have hlen := length_of_drop h
      have hnext := drop_succ h
      have hin : ¬ idx ≥ (texts toks).length := by omega
      have hword : ¬ (idx + 2 < (texts toks).length ∧
          dbrIsBinop (token (texts toks) (idx + 1)) = true) := by
        rintro ⟨hlt, hbin⟩
        rcases hpost with rfl | ⟨c, q, rest, rfl⟩
        · simp only [List.length_nil] at hlen
          omega
        · rw [token_of_drop hnext, c.not_binop] at hbin
          contradiction
      simp only [dbrEvalPrimary, if_neg hin, token_of_drop h, Operand.token, w.not_unary,
        Bool.false_eq_true, and_false, if_false, if_neg hword]
      by_cases hempty : w.text = [] <;>
        simp [hempty, Primary.verdict, Primary.tokens, Primary.probes, code]

/-! ## Terms -/

theorem skipBangs_at (bangs : List Bool) {rest : List Token} {t : Token} {l : List Token}
    (hrest : rest = t :: l) (ht : t.1 ≠ ['!']) : ∀ {idx : Nat},
    toks.drop idx = bangTokens bangs ++ rest → skipBangs (texts toks) idx = idx + bangs.length := by
  induction bangs with
  | nil =>
      intro idx h
      have h : toks.drop idx = t :: l := h.trans hrest
      have hnot : ¬ (idx < (texts toks).length ∧ tokenIs (texts toks) idx ['!'] = true) := by
        rw [tokenIs_of_drop h]
        simp [ht]
      rw [skipBangs, if_neg hnot]
      rfl
  | cons q bangs ih =>
      intro idx h
      have h : toks.drop idx = (['!'], q) :: (bangTokens bangs ++ rest) := h
      have hbang : idx < (texts toks).length ∧ tokenIs (texts toks) idx ['!'] = true := by
        have hlen := length_of_drop h
        rw [tokenIs_of_drop h]
        exact ⟨by omega, by simp⟩
      rw [skipBangs, if_pos hbang, ih (drop_succ h), List.length_cons]
      omega

theorem negBangs_at (bangs : List Bool) {rest : List Token} {t : Token} {l : List Token}
    (hrest : rest = t :: l) (ht : t.1 ≠ ['!']) : ∀ {idx : Nat} (neg : Bool),
    toks.drop idx = bangTokens bangs ++ rest →
      (negBangs (texts toks) idx neg).2 = (neg ^^ decide (bangs.length % 2 = 1)) := by
  induction bangs with
  | nil =>
      intro idx neg h
      have h : toks.drop idx = t :: l := h.trans hrest
      have hnot : ¬ (idx < (texts toks).length ∧ tokenIs (texts toks) idx ['!'] = true) := by
        rw [tokenIs_of_drop h]
        simp [ht]
      rw [negBangs, if_neg hnot]
      simp
  | cons q bangs ih =>
      intro idx neg h
      have h : toks.drop idx = (['!'], q) :: (bangTokens bangs ++ rest) := h
      have hbang : idx < (texts toks).length ∧ tokenIs (texts toks) idx ['!'] = true := by
        have hlen := length_of_drop h
        rw [tokenIs_of_drop h]
        exact ⟨by omega, by simp⟩
      rw [negBangs, if_pos hbang, ih _ (drop_succ h), List.length_cons]
      rcases Nat.mod_two_eq_zero_or_one bangs.length with hmod | hmod
      · have hsucc : (bangs.length + 1) % 2 = 1 := by omega
        simp [hmod, hsucc]
      · have hsucc : (bangs.length + 1) % 2 = 0 := by omega
        simp [hmod, hsucc]

/-- The first token of a primary is no `!`. -/
theorem Primary.tokens_cons (p : Primary) : ∃ t l, p.tokens = t :: l ∧ t.1 ≠ ['!'] := by
  cases p with
  | test op q operand => exact ⟨_, _, rfl, op.not_bang⟩
  | compare lhs op q rhs => exact ⟨_, _, rfl, lhs.not_mem (by decide)⟩
  | word w => exact ⟨_, _, rfl, w.not_mem (by decide)⟩

theorem Term.length_tokens (t : Term) : t.tokens.length = t.bangs.length + t.prim.tokens.length := by
  simp [Term.tokens, bangTokens]

/-- **A term is evaluated where it stands.** -/
theorem dbrEvalTerm_at (t : Term) {post : List Token} {idx : Nat}
    (h : toks.drop idx = t.tokens ++ post) (hpost : Follows post) (seen : List Primary) :
    dbrEvalTerm sys (texts toks) (flags toks) idx (probes seen) =
      ⟨code (t.verdict sys seen), idx + t.tokens.length, probes (seen ++ [t.prim])⟩ := by
  obtain ⟨first, l, htokens, hfirst⟩ := t.prim.tokens_cons
  have hrest : t.prim.tokens ++ post = first :: (l ++ post) := by rw [htokens, List.cons_append]
  have hdrop : toks.drop idx = bangTokens t.bangs ++ (t.prim.tokens ++ post) := by
    rw [h, Term.tokens, List.append_assoc]
  have hprim : toks.drop (idx + t.bangs.length) = t.prim.tokens ++ post := by
    rw [← List.drop_drop, hdrop, List.drop_left' (by simp [bangTokens])]
  have hmade : probes (seen ++ [t.prim]) = probes seen ++ t.prim.probes := by simp [probes]
  simp only [dbrEvalTerm, negBangs_idx, skipBangs_at t.bangs hrest hfirst hdrop,
    negBangs_at t.bangs hrest hfirst false hdrop, dbrEvalPrimary_at sys t.prim hprim hpost,
    Bool.false_xor, code_eq_two, Term.length_tokens, hmade, Term.verdict, Nat.add_assoc]
  cases hv : t.prim.verdict (sys (probes seen)) with
  | none => simp
  | some b =>
      by_cases hodd : t.bangs.length % 2 = 1
      · cases b <;> simp [hodd, code]
      · cases b <;> simp [hodd, code]

/-- Files of which nothing is found. -/
def noFiles : FileSystem := ⟨fun _ => false, fun _ => none⟩

/-- **A term is skipped where it stands.** -/
theorem dbrSkipTerm_at (t : Term) {post : List Token} {idx : Nat}
    (h : toks.drop idx = t.tokens ++ post) (hpost : Follows post) :
    dbrSkipTerm (texts toks) idx = (0, idx + t.tokens.length) := by
  obtain ⟨first, l, htokens, hfirst⟩ := t.prim.tokens_cons
  have hrest : t.prim.tokens ++ post = first :: (l ++ post) := by rw [htokens, List.cons_append]
  have hdrop : toks.drop idx = bangTokens t.bangs ++ (t.prim.tokens ++ post) := by
    rw [h, Term.tokens, List.append_assoc]
  have hprim : toks.drop (idx + t.bangs.length) = first :: (l ++ post) := by
    rw [← List.drop_drop, hdrop, List.drop_left' (by simp [bangTokens]), hrest]
  have hlen := length_of_drop hprim
  have hstatus : (dbrSkipTerm (texts toks) idx).1 = 0 := by
    simp only [dbrSkipTerm, skipBangs_at t.bangs hrest hfirst hdrop]
    rw [if_neg (by omega)]
    split_ifs <;> rfl
  have hidx := dbrSkipTerm_idx (fun _ => noFiles) (texts toks) (flags toks)
    idx (probes [])
  rw [dbrEvalTerm_at _ t h hpost] at hidx
  exact Prod.ext hstatus hidx

/-! ## Expressions -/

theorem follows_more : ∀ more : List Joined, Follows (more.flatMap Joined.tokens)
  | [] => Or.inl rfl
  | j :: more => Or.inr ⟨j.conn, j.connQuoted, j.term.tokens ++ more.flatMap Joined.tokens, by
      simp [Joined.tokens]⟩

/-- An error is the end of the loop. -/
theorem dbrEvalLoop_two (argv : List Text) (quoted : Nat → Bool) (idx : Nat) (made : List Probe) :
    dbrEvalLoop sys argv quoted 2 idx made = (2, made) := by
  rw [dbrEvalLoop]
  simp

/-- The loop goes over the terms behind the first. -/
theorem dbrEvalLoop_at (more : List Joined) : ∀ {idx : Nat} (b : Bool) (seen : List Primary),
    toks.drop idx = more.flatMap Joined.tokens →
      dbrEvalLoop sys (texts toks) (flags toks) (code (some b)) idx (probes seen) =
        (code (verdictFrom sys b seen more).1, probes (verdictFrom sys b seen more).2) := by
  induction more with
  | nil =>
      intro idx b seen h
      have hend : ¬ idx < (texts toks).length := by
        have hlen := congrArg List.length h
        simp only [List.length_drop, List.flatMap_nil, List.length_nil] at hlen
        simp only [texts, List.length_map]
        omega
      rw [dbrEvalLoop, if_neg hend]
      rfl
  | cons j more ih =>
      intro idx b seen h
      have h : toks.drop idx =
          (j.conn.spell, j.connQuoted) :: (j.term.tokens ++ more.flatMap Joined.tokens) := by
        simpa [Joined.tokens] using h
      have hlen := length_of_drop h
      have hin : idx < (texts toks).length := by omega
      have hterm := drop_succ h
      have hrest : toks.drop (idx + 1 + j.term.tokens.length) = more.flatMap Joined.tokens := by
        rw [← List.drop_drop, hterm, List.drop_left]
      have heval := dbrEvalTerm_at sys j.term hterm (follows_more more) seen
      have hskip := dbrSkipTerm_at j.term hterm (follows_more more)
      have hnot : code (some b) ≠ 2 := by cases b <;> decide
      have hneeded (hneed : j.conn.needs b = true) :
          (if code (j.term.verdict sys seen) = 2 then (2, probes (seen ++ [j.term.prim]))
            else dbrEvalLoop sys (texts toks) (flags toks) (code (j.term.verdict sys seen))
              (idx + 1 + j.term.tokens.length) (probes (seen ++ [j.term.prim]))) =
          (code (verdictFrom sys b seen (j :: more)).1,
            probes (verdictFrom sys b seen (j :: more)).2) := by
        rw [verdictFrom, if_pos hneed]
        cases hv : j.term.verdict sys seen with
        | none => rfl
        | some b' =>
            rw [if_neg (by cases b' <;> decide)]
            exact ih b' _ hrest
      have hskipped (hneed : ¬ j.conn.needs b = true) :
          dbrEvalLoop sys (texts toks) (flags toks) (code (some b))
              (idx + 1 + j.term.tokens.length) (probes seen) =
          (code (verdictFrom sys b seen (j :: more)).1,
            probes (verdictFrom sys b seen (j :: more)).2) := by
        rw [verdictFrom, if_neg hneed]
        exact ih b seen hrest
      rw [dbrEvalLoop, if_pos hin]
      simp only [tokenIs_of_drop h, heval, hskip, hnot, if_false, code_eq_zero, ne_eq,
        decide_eq_true_eq]
      cases hconn : j.conn with
      | and =>
          rw [hconn] at hneeded hskipped
          rw [if_pos (by decide)]
          by_cases hb : b = true
          · rw [if_pos hb]
            exact hneeded hb
          · rw [if_neg hb, if_neg (by decide)]
            exact hskipped hb
      | or =>
          rw [hconn] at hneeded hskipped
          rw [if_neg (by decide), if_pos (by decide)]
          by_cases hb : b = true
          · rw [if_neg (not_not_intro hb), if_neg (by decide)]
            exact hskipped (by simp [Connective.needs, hb])
          · rw [if_pos hb]
            exact hneeded (by simpa [Connective.needs] using hb)

/-- **An expression is evaluated from left to right.** -/
theorem dbrEvalExpr_eq (e : Expr) :
    dbrEvalExpr sys (texts e.tokens) (flags e.tokens) =
      (code (e.verdict sys).1, probes (e.verdict sys).2) := by
  obtain ⟨first, l, htokens, hfirst⟩ := e.first.prim.tokens_cons
  have hne : ¬ (texts e.tokens).length = 0 := by
    simp [texts, Expr.tokens, Term.tokens, htokens]
  have hstart : e.tokens.drop 0 = e.first.tokens ++ e.more.flatMap Joined.tokens := rfl
  have hfirst := dbrEvalTerm_at sys e.first hstart (follows_more e.more) []
  have hrest : e.tokens.drop (0 + e.first.tokens.length) = e.more.flatMap Joined.tokens := by
    rw [Nat.zero_add, Expr.tokens, List.drop_left]
  rw [dbrEvalExpr, if_neg hne]
  show dbrEvalLoop _ _ _ (dbrEvalTerm _ _ _ 0 (probes [])).status _ _ = _
  rw [show ([] : List Probe) = probes [] from rfl, hfirst]
  cases hv : e.first.verdict sys [] with
  | none =>
      rw [Expr.verdict, hv]
      exact dbrEvalLoop_two sys _ _ _ _
  | some b =>
      rw [Expr.verdict, hv]
      exact dbrEvalLoop_at sys e.more b _ hrest

end Evaluation

/-! ## Errors -/

theorem Primary.verdict_eq_none {p : Primary} {fs : FileSystem} :
    p.verdict fs = none ↔ p.Erroneous := by
  cases p with
  | test op q operand => simp [Primary.verdict, Primary.Erroneous]
  | compare lhs op q rhs =>
      cases op with
      | integers order =>
          simp only [Primary.verdict, Primary.Erroneous]
          cases parseLong lhs.text <;> simp
      | same | same' | differs => simp [Primary.verdict, Primary.Erroneous]
  | word w => simp [Primary.verdict, Primary.Erroneous]

theorem Term.verdict_eq_none {sys : List Probe → FileSystem} {t : Term} {seen : List Primary} :
    t.verdict sys seen = none ↔ t.prim.Erroneous := by
  rw [Term.verdict, Option.map_eq_none_iff, Primary.verdict_eq_none]

/-- The verdict fails at the first erroneous primary that is evaluated. -/
theorem verdictFrom_eq_none (sys : List Probe → FileSystem) (more : List Joined) :
    ∀ (b : Bool) (seen : List Primary), (∀ p ∈ seen, ¬ p.Erroneous) →
      ((verdictFrom sys b seen more).1 = none ↔
        ∃ p ∈ (verdictFrom sys b seen more).2, p.Erroneous) := by
  induction more with
  | nil =>
      intro b seen hseen
      simpa [verdictFrom] using hseen
  | cons j more ih =>
      intro b seen hseen
      by_cases hneed : j.conn.needs b = true
      · cases hv : j.term.verdict sys seen with
        | none =>
            have hbad := Term.verdict_eq_none.mp hv
            simp only [verdictFrom, if_pos hneed, hv, true_iff]
            exact ⟨j.term.prim, by simp, hbad⟩
        | some b' =>
            have hgood : ¬ j.term.prim.Erroneous := fun hbad =>
              Option.some_ne_none b' (hv.symm.trans (Term.verdict_eq_none.mpr hbad))
            simp only [verdictFrom, if_pos hneed, hv]
            apply ih
            intro p hp
            rcases List.mem_append.mp hp with hp | hp
            · exact hseen p hp
            · rw [List.mem_singleton.mp hp]
              exact hgood
      · simp only [verdictFrom, if_neg hneed]
        exact ih b seen hseen

theorem Expr.verdict_eq_none (sys : List Probe → FileSystem) (e : Expr) :
    (e.verdict sys).1 = none ↔ ∃ p ∈ (e.verdict sys).2, p.Erroneous := by
  cases hv : e.first.verdict sys [] with
  | none =>
      have hbad := Term.verdict_eq_none.mp hv
      simpa [Expr.verdict, hv] using hbad
  | some b =>
      have hgood : ¬ e.first.prim.Erroneous := fun hbad =>
        Option.some_ne_none b (hv.symm.trans (Term.verdict_eq_none.mpr hbad))
      rw [Expr.verdict, hv]
      exact verdictFrom_eq_none sys e.more b _ (by simpa using hgood)

/-! ## The evaluator -/

/-- **`[[ ]]` is evaluated from left to right, and no more of it than is needed**: the
status is the verdict, the tests made are those of the primaries that are evaluated, an
error is one of these, and a term is skipped up to where it would be read. -/
theorem evaluates_needed (sys : List Probe → FileSystem) (e : Expr) :
    let argv := texts e.tokens
    let quoted := flags e.tokens
    dbrEvalExpr sys argv quoted = (code (e.verdict sys).1, probes (e.verdict sys).2) ∧
      ((dbrEvalExpr sys argv quoted).1 = 2 ↔ ∃ p ∈ (e.verdict sys).2, p.Erroneous) ∧
      (∀ before j after, e.more = before ++ j :: after →
        let idx := (e.first.tokens ++ before.flatMap Joined.tokens).length + 1
        dbrSkipTerm argv idx = (0, idx + j.term.tokens.length)) ∧
      ∀ idx made, (dbrSkipTerm argv idx).2 = (dbrEvalTerm sys argv quoted idx made).idx := by
  intro argv quoted
  have heval := dbrEvalExpr_eq sys e
  refine ⟨heval, ?_, ?_, fun idx made => dbrSkipTerm_idx sys argv quoted idx made⟩
  · rw [heval, code_eq_two]
    exact e.verdict_eq_none sys
  · intro before j after hmore idx
    have hdrop : e.tokens.drop idx = j.term.tokens ++ after.flatMap Joined.tokens := by
      rw [Expr.tokens, hmore, List.flatMap_append, List.flatMap_cons, ← List.append_assoc,
        ← List.drop_drop, List.drop_left, Joined.tokens, List.cons_append]
      rfl
    exact dbrSkipTerm_at j.term hdrop (follows_more after)

/-! ## The evaluator on lists

With files that do not change, the status is the one of `Dbracket`. -/

section Lists

open Petrush.Mid.Dbracket (Tok Files shown sees isBang)

variable (fs : FileSystem) (toks : List Tok)

/-- What the array holds of a token. -/
def mark (t : Tok) : Token := (t.text, t.src.quoted != .unquoted)

/-- The files, as `Dbracket` asks for them. -/
def filesOf (fs : FileSystem) : Files where
  present := fs.access
  isReg path := fs.stat path = some .reg
  isDir path := fs.stat path = some .dir

theorem drop_marks {idx : Nat} {l : List Tok} (h : toks.drop idx = l) :
    (toks.map mark).drop idx = l.map mark := by
  rw [← List.map_drop, h]

theorem length_marks : (texts (toks.map mark)).length = toks.length := by simp [texts]

theorem sees_shown (s : Text) (t : Tok) : sees shown [s] t = decide (t.text = s) := by
  simp [sees, shown]

theorem bang_iff (idx : Nat) :
    (idx < (texts (toks.map mark)).length ∧ tokenIs (texts (toks.map mark)) idx ['!'] = true) ↔
      ∃ t l, toks.drop idx = t :: l ∧ isBang shown t = true := by
  simp only [isBang, sees_shown, decide_eq_true_eq]
  constructor
  · rintro ⟨hlt, hbang⟩
    have hdrop := List.drop_eq_getElem_cons ((length_marks toks) ▸ hlt)
    rw [tokenIs_of_drop (drop_marks toks hdrop), decide_eq_true_eq] at hbang
    exact ⟨_, _, hdrop, hbang⟩
  · rintro ⟨t, l, hdrop, hbang⟩
    have hlen := length_of_drop (drop_marks toks hdrop)
    rw [tokenIs_of_drop (drop_marks toks hdrop), decide_eq_true_eq]
    exact ⟨by omega, hbang⟩

/-- Where no `!` stands, none is taken. -/
theorem bangs_none {idx : Nat} (h : ¬ ∃ t l, toks.drop idx = t :: l ∧ isBang shown t = true) :
    (toks.drop idx).takeWhile (isBang shown) = [] ∧
      (toks.drop idx).dropWhile (isBang shown) = toks.drop idx := by
  cases hdrop : toks.drop idx with
  | nil => exact ⟨rfl, rfl⟩
  | cons t l =>
      have hbang : ¬ isBang shown t = true := fun hbang => h ⟨t, l, hdrop, hbang⟩
      exact ⟨List.takeWhile_cons_of_neg hbang, List.dropWhile_cons_of_neg hbang⟩

theorem skipBangs_lists (idx : Nat) :
    toks.drop (skipBangs (texts (toks.map mark)) idx) = (toks.drop idx).dropWhile (isBang shown) := by
  fun_induction skipBangs (texts (toks.map mark)) idx with
  | case1 idx h ih =>
      obtain ⟨t, l, hdrop, hbang⟩ := (bang_iff toks idx).mp h
      rw [ih, hdrop, List.dropWhile_cons_of_pos hbang, ← List.drop_drop, hdrop]
      rfl
  | case2 idx h => exact (bangs_none toks (mt (bang_iff toks idx).mpr h)).2.symm

theorem negBangs_lists (idx : Nat) (neg : Bool) :
    (negBangs (texts (toks.map mark)) idx neg).2 =
      (neg ^^ decide (((toks.drop idx).takeWhile (isBang shown)).length % 2 = 1)) := by
  fun_induction negBangs (texts (toks.map mark)) idx neg with
  | case1 idx neg h ih =>
      obtain ⟨t, l, hdrop, hbang⟩ := (bang_iff toks idx).mp h
      have hnext : toks.drop (idx + 1) = l := by
        rw [← List.drop_drop, hdrop]
        rfl
      rw [ih, hdrop, List.takeWhile_cons_of_pos hbang, hnext, List.length_cons]
      rcases Nat.mod_two_eq_zero_or_one (l.takeWhile (isBang shown)).length with hmod | hmod
      · have hsucc : ((l.takeWhile (isBang shown)).length + 1) % 2 = 1 := by omega
        simp [hmod, hsucc]
      · have hsucc : ((l.takeWhile (isBang shown)).length + 1) % 2 = 0 := by omega
        simp [hmod, hsucc]
  | case2 idx neg h =>
      rw [(bangs_none toks (mt (bang_iff toks idx).mpr h)).1]
      simp

theorem featTestUnary_lists (op operand : Text) (made : List Probe) :
    (featTestUnary (fun _ => fs) op operand made).1 =
      Mid.Dbracket.featTestUnary (filesOf fs) op operand := by
  simp only [featTestUnary, Mid.Dbracket.featTestUnary, filesOf]
  split_ifs <;> simp_all

theorem dbrIsUnary_shown (t : Tok) : Mid.Dbracket.dbrIsUnary shown t = dbrIsUnary t.text := by
  simp [Mid.Dbracket.dbrIsUnary, sees, shown, dbrIsUnary]

theorem dbrIsBinop_shown (t : Tok) : Mid.Dbracket.dbrIsBinop shown t = dbrIsBinop t.text := by
  simp [Mid.Dbracket.dbrIsBinop, sees, shown, dbrIsBinop]

/-- The primary at `idx`, as the array has it. -/
theorem dbrEvalPrimary_lists (idx : Nat) (made : List Probe) :
    let r := dbrEvalPrimary (fun _ => fs) (texts (toks.map mark)) (flags (toks.map mark)) idx made
    Mid.Dbracket.dbrEvalPrimary (filesOf fs) shown (toks.drop idx) =
      (r.status, toks.drop r.idx) := by
  have hlen := length_marks toks
  intro r
  cases hdrop : toks.drop idx with
  | nil =>
      have hend : idx ≥ (texts (toks.map mark)).length := by
        rw [hlen]
        exact List.drop_eq_nil_iff.mp hdrop
      simp only [r, dbrEvalPrimary, if_pos hend, hdrop]
      rfl
  | cons t l =>
      have hfirst := drop_marks toks hdrop
      have hin := length_of_drop hfirst
      have hnext := drop_succ hfirst
      have hnext' : toks.drop (idx + 1) = l := by
        rw [← List.drop_drop, hdrop]
        rfl
      rw [List.length_map] at hin
      have hnot : ¬ idx ≥ (texts (toks.map mark)).length := by omega
      cases l with
      | nil =>
          have hone : ¬ idx + 1 < (texts (toks.map mark)).length := by simp [hin]
          have htwo : ¬ idx + 2 < (texts (toks.map mark)).length := by omega
          simp only [r, dbrEvalPrimary, if_neg hnot, token_of_drop hfirst, hone, htwo, false_and,
            if_false, hnext']
          rfl
      | cons u l =>
          have hone : idx + 1 < (texts (toks.map mark)).length := by
            rw [hin, List.length_cons]
            omega
          have hsecond := drop_marks toks hnext'
          have hrest : toks.drop (idx + 2) = l := by
            rw [← List.drop_drop (i := 1), hnext']
            rfl
          by_cases hun : dbrIsUnary t.text = true
          · simp only [r, dbrEvalPrimary, if_neg hnot, token_of_drop hfirst, hone, true_and,
              token_of_drop hsecond, mark, hun, if_true, Mid.Dbracket.dbrEvalPrimary,
              dbrIsUnary_shown, featTestUnary_lists, hrest]
          · cases l with
            | nil =>
                have htwo : ¬ idx + 2 < (texts (toks.map mark)).length := by
                  rw [hin]
                  simp
                simp only [r, dbrEvalPrimary, if_neg hnot, token_of_drop hfirst, hone, true_and,
                  mark, hun, Bool.false_eq_true, if_false, htwo, false_and,
                  Mid.Dbracket.dbrEvalPrimary, dbrIsUnary_shown, hnext']
            | cons v rest =>
                have htwo : idx + 2 < (texts (toks.map mark)).length := by
                  rw [hin]
                  simp
                have hthird := drop_marks toks hrest
                have hbehind : toks.drop (idx + 3) = rest := by
                  rw [← List.drop_drop (i := 1), hrest]
                  rfl
                by_cases hbin : dbrIsBinop u.text = true
                · simp only [r, dbrEvalPrimary, if_neg hnot, token_of_drop hfirst, hone, true_and,
                    mark, hun, Bool.false_eq_true, if_false, htwo, token_of_drop hsecond, hbin,
                    if_true, token_of_drop hthird, flags_of_drop hthird,
                    Mid.Dbracket.dbrEvalPrimary, dbrIsUnary_shown, dbrIsBinop_shown,
                    Mid.Dbracket.dbrCompare]
                  split_ifs <;> simp [hbehind]
                · simp only [r, dbrEvalPrimary, if_neg hnot, token_of_drop hfirst, hone, true_and,
                    mark, hun, Bool.false_eq_true, if_false, htwo, token_of_drop hsecond, hbin,
                    Mid.Dbracket.dbrEvalPrimary, dbrIsUnary_shown, dbrIsBinop_shown, hnext']

theorem dbrEvalTerm_lists (idx : Nat) (made : List Probe) :
    let r := dbrEvalTerm (fun _ => fs) (texts (toks.map mark)) (flags (toks.map mark)) idx made
    Mid.Dbracket.dbrEvalTerm (filesOf fs) shown (toks.drop idx) = (r.status, toks.drop r.idx) := by
  intro r
  have hprim := dbrEvalPrimary_lists fs toks (skipBangs (texts (toks.map mark)) idx) made
  simp only [Mid.Dbracket.dbrEvalTerm, ← skipBangs_lists, hprim, r, dbrEvalTerm, negBangs_idx,
    negBangs_lists, Bool.false_xor, decide_eq_true_eq]
  split_ifs <;> simp_all

theorem readPrim_missing (l : List Tok) :
    (Brackets.readPrim shown l).1 = .missing ↔ l = [] := by
  fun_cases Brackets.readPrim shown l <;> simp

theorem dbrSkipTerm_lists (idx : Nat) :
    let r := dbrSkipTerm (texts (toks.map mark)) idx
    Mid.Dbracket.dbrSkipTerm shown (toks.drop idx) =
      if r.1 = 0 then some (toks.drop r.2) else none := by
  intro r
  have hterm := dbrEvalTerm_lists noFiles toks idx []
  have hidx := dbrSkipTerm_idx (fun _ => noFiles) (texts (toks.map mark)) (flags (toks.map mark)) idx []
  rw [Brackets.dbrEvalTerm_eq] at hterm
  have hrest := (Prod.mk.inj hterm).2
  have hmissing : (Brackets.readTerm shown (toks.drop idx)).1.prim = .missing ↔ r.1 ≠ 0 := by
    show (Brackets.readPrim shown _).1 = .missing ↔ _
    rw [readPrim_missing, ← skipBangs_lists, List.drop_eq_nil_iff, ← length_marks toks]
    simp only [r, dbrSkipTerm]
    split_ifs <;> simp_all
  rw [Brackets.dbrSkipTerm_eq, hrest, ← hidx]
  by_cases h : r.1 = 0
  · rw [if_neg (fun hm => hmissing.mp hm h), if_pos h]
  · rw [if_pos (hmissing.mpr h), if_neg h]

theorem dbrEvalLoop_lists (n : Nat) : ∀ (status : Int) (idx : Nat) (made : List Probe),
    toks.length ≤ idx + n →
      Mid.Dbracket.dbrEvalLoop (filesOf fs) shown n status (toks.drop idx) =
        (dbrEvalLoop (fun _ => fs) (texts (toks.map mark)) (flags (toks.map mark)) status idx
          made).1 := by
  induction n with
  | zero =>
      intro status idx made hn
      have hend : ¬ idx < (texts (toks.map mark)).length := by
        rw [length_marks]
        omega
      rw [dbrEvalLoop, if_neg hend]
      rfl
  | succ n ih =>
      intro status idx made hn
      cases hdrop : toks.drop idx with
      | nil =>
          have hend : ¬ idx < (texts (toks.map mark)).length := by
            rw [length_marks]
            have hle := List.drop_eq_nil_iff.mp hdrop
            omega
          rw [dbrEvalLoop, if_neg hend]
          rfl
      | cons op l =>
          have hop := drop_marks toks hdrop
          have hin := length_of_drop hop
          have hnext : toks.drop (idx + 1) = l := by
            rw [← List.drop_drop, hdrop]
            rfl
          have hterm := dbrEvalTerm_lists fs toks (idx + 1) made
          have hskip := dbrSkipTerm_lists toks (idx + 1)
          have hlt : idx < (texts (toks.map mark)).length := by omega
          have hle := le_dbrEvalTerm_idx (fun _ => fs) (texts (toks.map mark))
            (flags (toks.map mark)) (idx + 1) made
          have hle' := le_dbrSkipTerm_idx (texts (toks.map mark)) (idx + 1)
          rw [hnext] at hterm hskip
          rw [dbrEvalLoop, if_pos hlt]
          simp only [Mid.Dbracket.dbrEvalLoop, Mid.Dbracket.isAnd, Mid.Dbracket.isOr, sees_shown,
            tokenIs_of_drop hop, mark, hterm, hskip, decide_eq_true_eq]
          generalize dbrEvalTerm (fun _ => fs) (texts (toks.map mark)) (flags (toks.map mark))
            (idx + 1) made = r at hle ⊢
          generalize dbrSkipTerm (texts (toks.map mark)) (idx + 1) = k at hle' ⊢
          have hgo := ih r.status r.idx r.made (by omega)
          have hpass := ih status k.2 made (by omega)
          by_cases hand : op.text = ['&', '&']
          · by_cases hstatus : status = 0
            · by_cases herr : r.status = 2
              · simp [hand, hstatus, herr]
              · simp [hand, hstatus, herr, hgo]
            · by_cases hk : k.1 = 0
              · by_cases htwo : status = 2
                · simp [hand, htwo]
                · simp [hand, hstatus, hk, htwo, hpass]
              · simp [hand, hstatus, hk]
          · by_cases hor : op.text = ['|', '|']
            · by_cases hstatus : status = 0
              · by_cases hk : k.1 = 0
                · rw [hstatus] at hpass
                  simp [hor, hstatus, hk, hpass]
                · simp [hor, hstatus, hk]
              · by_cases htwo : status = 2
                · simp [hor, htwo]
                · by_cases herr : r.status = 2
                  · simp [hor, hstatus, htwo, herr]
                  · simp [hor, hstatus, htwo, herr, hgo]
            · simp [hand, hor]

/-- **The evaluator on its array agrees with the one on lists.** -/
theorem dbrEvalExpr_lists :
    (dbrEvalExpr (fun _ => fs) (texts (toks.map mark)) (flags (toks.map mark))).1 =
      Mid.Dbracket.dbrEvalExpr (filesOf fs) shown toks := by
  have hterm := dbrEvalTerm_lists fs toks 0 []
  rw [List.drop_zero] at hterm
  by_cases hnil : toks = []
  · subst hnil
    rfl
  · have hlen : ¬ (texts (toks.map mark)).length = 0 := by
      rw [length_marks]
      simpa using hnil
    rw [dbrEvalExpr, if_neg hlen, Mid.Dbracket.dbrEvalExpr, if_neg hnil, hterm]
    exact (dbrEvalLoop_lists fs toks toks.length _ _ _ (by omega)).symm

end Lists

end Petrush.Verified.ShortCircuit
