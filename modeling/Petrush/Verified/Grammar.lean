import Petrush.Verified.Expressions

/-!
# The grammar of arithmetic expressions

Which texts write which expressions, with any blanks between the parts.  `readArith` reads
an expression from every text that writes it, and what it reads without getting stuck is
written by the text.

## Main results

* `readArith_written` — a text that writes an expression is read as it.
* `written_of_readArith` — a text that is read to its end writes what was read.
-/

namespace Petrush.Verified.Grammar

open Petrush.Lib.CText
open Petrush.Mid.Arith
open Petrush.Verified.Expressions

/-! ## Texts that write expressions -/

/-- The blanks of `arith_skip_ws`. -/
def isBlank (c : Char) : Bool := c == ' ' || c == '\t' || c == '\n' || c == '\r'

/-- A name: letters, digits and `_`, and no digit first. -/
def IsName (name : Text) : Prop :=
  name.all isNameChar ∧ ∃ c rest, name = c :: rest ∧ isdigit c = false

/-- How tightly the parts of an expression hold together. -/
inductive Level where
  | primary
  | unary
  | term
  | expr
  deriving Repr, DecidableEq

/-- The text writes the expression, at a level. -/
inductive Written : Level → Expr → Text → Prop where
  | num {digits : Text} (hne : digits ≠ []) (hall : digits.all isdigit) :
      Written .primary (.num digits) digits
  | var {name : Text} (h : IsName name) : Written .primary (.var name) name
  | dollar {name : Text} (h : IsName name) : Written .primary (.var name) ('$' :: name)
  | pos {d : Char} (h : isdigit d) : Written .primary (.pos d) ['$', d]
  | paren {e : Expr} {s : Text} (h : Written .expr e s) : Written .primary e ('(' :: s ++ [')'])
  | unary {e : Expr} {s : Text} (h : Written .primary e s) : Written .unary e s
  | plus {e : Expr} {s : Text} (h : Written .unary e s) : Written .unary (.plus e) ('+' :: s)
  | minus {e : Expr} {s : Text} (h : Written .unary e s) : Written .unary (.minus e) ('-' :: s)
  | term {e : Expr} {s : Text} (h : Written .unary e s) : Written .term e s
  | mul {op : BinOp} {c : Char} {l r : Expr} {s u : Text} (hop : mulOp c = some op)
      (hl : Written .term l s) (hr : Written .unary r u) :
      Written .term (.bin op l r) (s ++ c :: u)
  | expr {e : Expr} {s : Text} (h : Written .term e s) : Written .expr e s
  | add {op : BinOp} {c : Char} {l r : Expr} {s u : Text} (hop : addOp c = some op)
      (hl : Written .expr l s) (hr : Written .term r u) :
      Written .expr (.bin op l r) (s ++ c :: u)
  | before {level : Level} {e : Expr} {s : Text} {c : Char} (hc : isBlank c)
      (h : Written level e s) : Written level e (c :: s)
  | behind {level : Level} {e : Expr} {s : Text} {c : Char} (hc : isBlank c)
      (h : Written level e s) : Written level e (s ++ [c])

/-! ## Blanks -/

theorem arithSkipWs_eq (s : Text) : arithSkipWs s = s.dropWhile isBlank := rfl

theorem arithSkipWs_blank {c : Char} (h : isBlank c) (s : Text) :
    arithSkipWs (c :: s) = arithSkipWs s := by
  rw [arithSkipWs_eq, arithSkipWs_eq, List.dropWhile_cons, if_pos h]

theorem arithSkipWs_other {c : Char} (h : isBlank c = false) (s : Text) :
    arithSkipWs (c :: s) = c :: s := by
  rw [arithSkipWs_eq, List.dropWhile_cons, if_neg (by simp [h])]

@[simp] theorem arithSkipWs_twice (s : Text) : arithSkipWs (arithSkipWs s) = arithSkipWs s :=
  List.dropWhile_idempotent isBlank s

theorem arithSkipWs_length_le (s : Text) : (arithSkipWs s).length ≤ s.length :=
  List.length_dropWhile_le isBlank s

/-- The blanks that are passed over. -/
theorem exists_blanks (s : Text) : ∃ b, b.all isBlank = true ∧ s = b ++ arithSkipWs s :=
  ⟨s.takeWhile isBlank, List.all_takeWhile, (List.takeWhile_append_dropWhile ..).symm⟩

/-- Behind the blanks there is none. -/
theorem head_arithSkipWs {s : Text} {c : Char} {u : Text} (h : arithSkipWs s = c :: u) :
    isBlank c = false := by
  induction s with
  | nil => contradiction
  | cons d s ih =>
      cases hd : isBlank d with
      | true =>
          rw [arithSkipWs_blank hd] at h
          exact ih h
      | false =>
          rw [arithSkipWs_other hd] at h
          rw [← (List.cons.inj h).1]
          exact hd

theorem arithSkipWs_blanks {b : Text} (h : b.all isBlank = true) (s : Text) :
    arithSkipWs (b ++ s) = arithSkipWs s := by
  induction b with
  | nil => rfl
  | cons c b ih =>
      simp only [List.all_cons, Bool.and_eq_true] at h
      rw [List.cons_append, arithSkipWs_blank h.1, ih h.2]

/-- The bytes an operator is not. -/
theorem not_blank_of_op {c : Char} {op : BinOp} (h : mulOp c = some op ∨ addOp c = some op) :
    isBlank c = false ∧ isNameChar c = false := by
  have hcases : c = '*' ∨ c = '/' ∨ c = '%' ∨ c = '+' ∨ c = '-' := by
    simp only [mulOp, addOp] at h
    split_ifs at h <;> simp_all
  obtain rfl | rfl | rfl | rfl | rfl := hcases <;> decide

/-! ## From the text to the expression -/

/-- What may stand behind a text without changing how its last part is read. -/
def TokenEnd (rest : Text) : Prop := ∀ c ∈ rest.head?, isNameChar c = false

/-- What stands behind the text does not go on with an operator of the level. -/
def NoOp (ops : Char → Option BinOp) (rest : Text) : Prop :=
  ∀ c ∈ (arithSkipWs rest).head?, ops c = none

/-- What is left when `s` has been read before `rest`: blanks of `s` may be left too. -/
def Left (s rest rest' : Text) : Prop :=
  arithSkipWs rest' = arithSkipWs rest ∧ rest'.length ≤ (s ++ rest).length

/-- The text is read as the expression at the level, with `m` for the parentheses that may
be open.  At the two upper levels the loop is where the expression has been read. -/
def Reads (m : Nat) (rest : Text) : Level → Expr → Text → Prop
  | .primary, e, s => ∃ rest',
      (∀ k, readUnary (readExpr m) (k + 1) (s ++ rest) = (e, some rest')) ∧ Left s rest rest'
  | .unary, e, s => ∃ rest', readOperand (readExpr m) (s ++ rest) = (e, some rest') ∧
      Left s rest rest'
  | .term, e, s => ∃ rest' k, readTerm (readExpr m) (s ++ rest) =
      readLoop mulOp (readOperand (readExpr m)) k e rest' ∧ rest'.length < k ∧ Left s rest rest'
  | .expr, e, s => NoOp mulOp rest → ∃ rest' k, readExpr (m + 1) (s ++ rest) =
      readLoop addOp (readTerm (readExpr m)) k e rest' ∧ rest'.length < k ∧ Left s rest rest'

/-- The loop stops before what is no operator. -/
theorem readLoop_stop {ops : Char → Option BinOp} (operand : Text → Reading) {k : Nat} (e : Expr)
    {s : Text} (hk : s.length < k) (h : NoOp ops s) :
    readLoop ops operand k e s = (e, some (arithSkipWs s)) := by
  cases k with
  | zero => contradiction
  | succ k =>
      rw [readLoop]
      cases hs : arithSkipWs s with
      | nil => rfl
      | cons c u =>
          have hop : ops c = none := h c (by rw [hs]; rfl)
          simp only [hop]

/-- The loop takes an operator and its operand. -/
theorem readLoop_next {ops : Char → Option BinOp} {operand : Text → Reading} {k : Nat} (e : Expr)
    {s u rest : Text} {c : Char} {op : BinOp} {r : Expr} (hs : arithSkipWs s = c :: u)
    (hop : ops c = some op) (hr : operand u = (r, some rest)) :
    readLoop ops operand (k + 1) e s = readLoop ops operand k (.bin op e r) rest := by
  rw [readLoop]
  simp only [hs, hop, hr]

/-- A blank before an operand is passed over. -/
theorem readUnary_blank (expr : Text → Reading) (k : Nat) {c : Char} (hc : isBlank c) (s : Text) :
    readUnary expr k (c :: s) = readUnary expr k s := by
  cases k with
  | zero => rfl
  | succ k =>
      rw [readUnary, readUnary, arithSkipWs_blank hc]

/-- Turns for as many signs as there are bytes are enough. -/
theorem readUnary_turns (expr : Text → Reading) (k : Nat) : ∀ {k' : Nat} {s : Text},
    s.length < k → s.length < k' → readUnary expr k s = readUnary expr k' s := by
  induction k with
  | zero =>
      intro k' s h _
      contradiction
  | succ k ih =>
      intro k' s hk hk'
      cases k' with
      | zero => contradiction
      | succ k' =>
          have hlen := arithSkipWs_length_le s
          rw [readUnary, readUnary]
          cases hs : arithSkipWs s with
          | nil => rfl
          | cons c u =>
              rw [hs, List.length_cons] at hlen
              have hrec : readUnary expr k u = readUnary expr k' u := ih (by omega) (by omega)
              by_cases hplus : c = '+'
              · subst hplus
                simp only [hrec]
              · by_cases hminus : c = '-'
                · subst hminus
                  simp only [hrec]
                · simp [hplus, hminus]

/-- What an operand is read as does not depend on the blanks before it. -/
theorem readOperand_blank (expr : Text → Reading) {c : Char} (hc : isBlank c) (s : Text) :
    readOperand expr (c :: s) = readOperand expr s := by
  rw [readOperand, readUnary_blank expr _ hc, readOperand]
  exact readUnary_turns expr _ (by simp) (by simp)

theorem readLevel_blank {ops : Char → Option BinOp} {operand : Text → Reading} {c : Char} {s : Text}
    (h : operand (c :: s) = operand s) :
    readLevel ops operand (c :: s) = readLevel ops operand s := by
  rw [readLevel, readLevel, h]

theorem readTerm_blank (expr : Text → Reading) {c : Char} (hc : isBlank c) (s : Text) :
    readTerm expr (c :: s) = readTerm expr s :=
  readLevel_blank (readOperand_blank expr hc s)

/-- **Blanks before** a text. -/
theorem Reads.before {m : Nat} {rest s : Text} {c : Char} {level : Level} {e : Expr}
    (hc : isBlank c) (h : Reads m rest level e s) : Reads m rest level e (c :: s) := by
  have hleft : ∀ {rest' : Text}, Left s rest rest' → Left (c :: s) rest rest' := by
    intro rest' hl
    refine ⟨hl.1, ?_⟩
    rw [List.cons_append, List.length_cons]
    exact Nat.le_succ_of_le hl.2
  cases level with
  | primary =>
      obtain ⟨rest', hread, hl⟩ := h
      refine ⟨rest', ?_, hleft hl⟩
      intro k
      rw [List.cons_append, readUnary_blank _ _ hc, hread]
  | unary =>
      obtain ⟨rest', hread, hl⟩ := h
      exact ⟨rest', by rw [List.cons_append, readOperand_blank _ hc, hread], hleft hl⟩
  | term =>
      obtain ⟨rest', k, hread, hk, hl⟩ := h
      exact ⟨rest', k, by rw [List.cons_append, readTerm_blank _ hc, hread], hk, hleft hl⟩
  | expr =>
      intro hno
      obtain ⟨rest', k, hread, hk, hl⟩ := h hno
      refine ⟨rest', k, ?_, hk, hleft hl⟩
      rw [List.cons_append, readExpr, readLevel_blank (readTerm_blank _ hc _), ← hread, readExpr]

/-- **Blanks behind** a text. -/
theorem Reads.behind {m : Nat} {rest s : Text} {c : Char} {level : Level} {e : Expr}
    (hc : isBlank c) (h : Reads m (c :: rest) level e s) : Reads m rest level e (s ++ [c]) := by
  have happ : s ++ [c] ++ rest = s ++ c :: rest := by simp
  have hleft : ∀ {rest' : Text}, Left s (c :: rest) rest' → Left (s ++ [c]) rest rest' := by
    intro rest' hl
    refine ⟨hl.1.trans (arithSkipWs_blank hc rest), ?_⟩
    rw [happ]
    exact hl.2
  cases level with
  | primary =>
      obtain ⟨rest', hread, hl⟩ := h
      refine ⟨rest', ?_, hleft hl⟩
      intro k
      rw [happ, hread]
  | unary =>
      obtain ⟨rest', hread, hl⟩ := h
      exact ⟨rest', by rw [happ, hread], hleft hl⟩
  | term =>
      obtain ⟨rest', k, hread, hk, hl⟩ := h
      exact ⟨rest', k, by rw [happ, hread], hk, hleft hl⟩
  | expr =>
      intro hno
      have hno' : NoOp mulOp (c :: rest) := by
        rw [NoOp, arithSkipWs_blank hc]
        exact hno
      obtain ⟨rest', k, hread, hk, hl⟩ := h hno'
      exact ⟨rest', k, by rw [happ, hread], hk, hleft hl⟩

/-! ### Operands -/

theorem all_takeWhile_append {p : Char → Bool} {s rest : Text} (h : s.all p)
    (hrest : ∀ c ∈ rest.head?, p c = false) : (s ++ rest).takeWhile p = s := by
  have hall : ∀ c ∈ s, p c = true := by simpa using h
  rw [List.takeWhile_append_of_pos hall]
  cases rest with
  | nil => simp
  | cons c rest => simp [hrest c rfl]

theorem isdigit_isNameChar {c : Char} (h : isdigit c = true) : isNameChar c = true := by
  simp only [isdigit, isNameChar, isalnum, Char.isAlphanum] at h ⊢
  simp [h]

/-- A byte that may begin a number or a name. -/
theorem nameChar_other {c : Char} (h : isNameChar c = true) :
    isBlank c = false ∧ c ≠ '+' ∧ c ≠ '-' ∧ c ≠ '(' ∧ c ≠ '$' := by
  have hother : ∀ d : Char, isNameChar d = false → c ≠ d := by
    intro d hd heq
    rw [heq, hd] at h
    contradiction
  refine ⟨?_, hother '+' (by decide), hother '-' (by decide), hother '(' (by decide),
    hother '$' (by decide)⟩
  have hspace := hother ' ' (by decide)
  have htab := hother '\t' (by decide)
  have hline := hother '\n' (by decide)
  have hreturn := hother '\r' (by decide)
  simp [isBlank, hspace, htab, hline, hreturn]

/-- An operand without a sign. -/
theorem readUnary_primary (expr : Text → Reading) (k : Nat) {c : Char} {s : Text}
    (hblank : isBlank c = false) (hplus : c ≠ '+') (hminus : c ≠ '-') :
    readUnary expr (k + 1) (c :: s) =
      primaryAt (.stuck, none) (fun s => readClose (expr s)) readDollar readLeaf (c :: s) := by
  rw [readUnary, arithSkipWs_other hblank]
  simp [hplus, hminus, readPrimary, arithSkipWs_other hblank]

theorem readUnary_leaf (expr : Text → Reading) (k : Nat) {c : Char} (h : isNameChar c = true)
    (s : Text) : readUnary expr (k + 1) (c :: s) = readLeaf c s := by
  obtain ⟨hblank, hplus, hminus, hopen, hdollar⟩ := nameChar_other h
  rw [readUnary_primary expr k hblank hplus hminus, primaryAt, if_neg hopen, if_neg hdollar]

theorem readUnary_dollar (expr : Text → Reading) (k : Nat) (s : Text) :
    readUnary expr (k + 1) ('$' :: s) = readDollar s := by
  rw [readUnary_primary expr k (by decide) (by decide) (by decide)]
  rfl

theorem readUnary_paren (expr : Text → Reading) (k : Nat) (s : Text) :
    readUnary expr (k + 1) ('(' :: s) = readClose (expr s) := by
  rw [readUnary_primary expr k (by decide) (by decide) (by decide)]
  rfl

theorem readName_append {name rest : Text} (h : name.all isNameChar) (hrest : TokenEnd rest) :
    readName (name ++ rest) = (.var name, some rest) := by
  rw [readName, all_takeWhile_append h hrest, List.drop_left]

theorem left_end (s rest : Text) : Left s rest rest :=
  ⟨rfl, by rw [List.length_append]; omega⟩

theorem reads_num {digits : Text} (hne : digits ≠ []) (hall : digits.all isdigit) (m : Nat)
    {rest : Text} (hrest : TokenEnd rest) : Reads m rest .primary (.num digits) digits := by
  refine ⟨rest, ?_, left_end digits rest⟩
  intro k
  have htake : (digits ++ rest).takeWhile isdigit = digits := by
    refine all_takeWhile_append hall fun c hc => ?_
    by_contra hdigit
    have hname := isdigit_isNameChar (Bool.of_not_eq_false hdigit)
    rw [hrest c hc] at hname
    contradiction
  cases digits with
  | nil => contradiction
  | cons c digits =>
      have hc : isdigit c = true := by
        simp only [List.all_cons, Bool.and_eq_true] at hall
        exact hall.1
      rw [List.cons_append] at htake ⊢
      rw [readUnary_leaf _ k (isdigit_isNameChar hc), readLeaf, if_pos hc, htake]
      rw [← List.cons_append, List.drop_left]

theorem reads_var {name : Text} (h : IsName name) (m : Nat) {rest : Text}
    (hrest : TokenEnd rest) : Reads m rest .primary (.var name) name := by
  refine ⟨rest, ?_, left_end name rest⟩
  intro k
  obtain ⟨hall, c, s, rfl, hc⟩ := h
  have hname : isNameChar c = true := by
    simp only [List.all_cons, Bool.and_eq_true] at hall
    exact hall.1
  rw [List.cons_append, readUnary_leaf _ k hname, readLeaf, if_neg (by simp [hc]), if_pos hname]
  exact readName_append hall hrest

theorem reads_dollar {name : Text} (h : IsName name) (m : Nat) {rest : Text}
    (hrest : TokenEnd rest) : Reads m rest .primary (.var name) ('$' :: name) := by
  refine ⟨rest, ?_, left_end _ rest⟩
  intro k
  obtain ⟨hall, c, s, rfl, hc⟩ := h
  have hname : isNameChar c = true := by
    simp only [List.all_cons, Bool.and_eq_true] at hall
    exact hall.1
  rw [List.cons_append, readUnary_dollar, List.cons_append, readDollar, if_neg (by simp [hc]),
    if_pos hname]
  exact readName_append hall hrest

theorem reads_pos {d : Char} (h : isdigit d) (m : Nat) (rest : Text) :
    Reads m rest .primary (.pos d) ['$', d] := by
  refine ⟨rest, ?_, left_end _ rest⟩
  intro k
  rw [List.cons_append, readUnary_dollar, List.cons_append, readDollar, if_pos h, List.nil_append]

theorem noOp_of_skip {ops : Char → Option BinOp} {rest rest' : Text}
    (h : arithSkipWs rest' = arithSkipWs rest) (hno : NoOp ops rest) : NoOp ops rest' := by
  rw [NoOp, h]
  exact hno

theorem reads_paren {m : Nat} {e : Expr} {s rest : Text}
    (h : Reads m (')' :: rest) .expr e s) : Reads (m + 1) rest .primary e ('(' :: s ++ [')']) := by
  have hno : ∀ ops : Char → Option BinOp, ops ')' = none → NoOp ops (')' :: rest) := by
    intro ops hops c hc
    rw [arithSkipWs_other (by decide)] at hc
    obtain rfl := Option.some.inj hc
    exact hops
  obtain ⟨rest', k, hread, hk, hskip, hlen⟩ := h (hno mulOp (by decide))
  rw [readLoop_stop _ e hk (noOp_of_skip hskip (hno addOp (by decide))), hskip,
    arithSkipWs_other (by decide)] at hread
  refine ⟨rest, ?_, left_end _ rest⟩
  intro k
  have happ : '(' :: s ++ [')'] ++ rest = '(' :: (s ++ ')' :: rest) := by simp
  rw [happ, readUnary_paren, hread]
  rfl

/-! ### Signs and operators -/

theorem Reads.unary {m : Nat} {rest : Text} {e : Expr} {s : Text} (h : Reads m rest .primary e s) :
    Reads m rest .unary e s := by
  obtain ⟨rest', hread, hl⟩ := h
  exact ⟨rest', hread _, hl⟩

theorem Left.sign {s rest rest' : Text} (c : Char) (h : Left s rest rest') :
    Left (c :: s) rest rest' := by
  refine ⟨h.1, ?_⟩
  rw [List.cons_append, List.length_cons]
  exact Nat.le_succ_of_le h.2

theorem reads_plus {m : Nat} {rest : Text} {e : Expr} {s : Text} (h : Reads m rest .unary e s) :
    Reads m rest .unary (.plus e) ('+' :: s) := by
  obtain ⟨rest', hread, hl⟩ := h
  refine ⟨rest', ?_, hl.sign '+'⟩
  rw [List.cons_append, readOperand, readUnary, arithSkipWs_other (by decide)]
  simp only [List.length_cons]
  rw [← readOperand, hread]

theorem reads_minus {m : Nat} {rest : Text} {e : Expr} {s : Text} (h : Reads m rest .unary e s) :
    Reads m rest .unary (.minus e) ('-' :: s) := by
  obtain ⟨rest', hread, hl⟩ := h
  refine ⟨rest', ?_, hl.sign '-'⟩
  rw [List.cons_append, readOperand, readUnary, arithSkipWs_other (by decide)]
  simp only [List.length_cons]
  rw [← readOperand, hread]

/-- An operand begins the loop of its level. -/
theorem Reads.term {m : Nat} {rest : Text} {e : Expr} {s : Text} (h : Reads m rest .unary e s) :
    Reads m rest .term e s := by
  obtain ⟨rest', hread, hl⟩ := h
  refine ⟨rest', rest'.length + 1, ?_, by omega, hl⟩
  rw [readTerm, readLevel, hread]

theorem Reads.expr {m : Nat} {rest : Text} {e : Expr} {s : Text} (h : Reads m rest .term e s) :
    Reads m rest .expr e s := by
  intro hno
  obtain ⟨rest', k, hread, hk, hskip, hlen⟩ := h
  rw [readLoop_stop _ e hk (noOp_of_skip hskip hno)] at hread
  refine ⟨arithSkipWs rest', (arithSkipWs rest').length + 1, ?_, by omega, ?_, ?_⟩
  · rw [readExpr, readLevel, hread]
  · rw [arithSkipWs_twice, hskip]
  · exact Nat.le_trans (arithSkipWs_length_le rest') hlen

/-- What is left behind an operator and its operand. -/
theorem left_bin {s u rest rest' rest'' : Text} {c : Char} {k : Nat}
    (hl : Left s (c :: (u ++ rest)) rest') (hr : Left u rest rest'') (hc : isBlank c = false)
    (hk : rest'.length < k + 1) : rest''.length < k ∧ Left (s ++ c :: u) rest rest'' := by
  have hlen := arithSkipWs_length_le rest'
  rw [hl.1, arithSkipWs_other hc, List.length_cons] at hlen
  have hle := hr.2
  refine ⟨by omega, hr.1, ?_⟩
  simp only [List.length_append, List.length_cons] at hle ⊢
  omega

theorem reads_mul {m : Nat} {rest : Text} {op : BinOp} {c : Char} {l r : Expr} {s u : Text}
    (hop : mulOp c = some op) (hl : Reads m (c :: (u ++ rest)) .term l s)
    (hr : Reads m rest .unary r u) : Reads m rest .term (.bin op l r) (s ++ c :: u) := by
  have hc := (not_blank_of_op (Or.inl hop)).1
  obtain ⟨rest', k, hread, hk, hleft⟩ := hl
  obtain ⟨rest'', hreadr, hright⟩ := hr
  cases k with
  | zero => contradiction
  | succ k =>
      obtain ⟨hk', hl'⟩ := left_bin hleft hright hc hk
      rw [readLoop_next l (hleft.1.trans (arithSkipWs_other hc _)) hop hreadr] at hread
      refine ⟨rest'', k, ?_, hk', hl'⟩
      rw [List.append_assoc, List.cons_append, hread]

theorem reads_add {m : Nat} {rest : Text} {op : BinOp} {c : Char} {l r : Expr} {s u : Text}
    (hop : addOp c = some op) (hl : Reads m (c :: (u ++ rest)) .expr l s)
    (hr : Reads m rest .term r u) : Reads m rest .expr (.bin op l r) (s ++ c :: u) := by
  intro hno
  have hc := (not_blank_of_op (Or.inr hop)).1
  have hmul : NoOp mulOp (c :: (u ++ rest)) := by
    intro d hd
    rw [arithSkipWs_other hc] at hd
    obtain rfl := Option.some.inj hd
    simp only [addOp] at hop
    split_ifs at hop with hplus hminus
    · rw [hplus]
      decide
    · rw [hminus]
      decide
  obtain ⟨rest', k, hread, hk, hleft⟩ := hl hmul
  obtain ⟨rest'', k'', hreadr, hk'', hright⟩ := hr
  rw [readLoop_stop _ r hk'' (noOp_of_skip hright.1 hno), hright.1] at hreadr
  have hright' : Left u rest (arithSkipWs rest) := by
    refine ⟨arithSkipWs_twice rest, ?_⟩
    have hle := arithSkipWs_length_le rest
    rw [List.length_append]
    omega
  cases k with
  | zero => contradiction
  | succ k =>
      obtain ⟨hk', hl'⟩ := left_bin hleft hright' hc hk
      rw [readLoop_next l (hleft.1.trans (arithSkipWs_other hc _)) hop hreadr] at hread
      refine ⟨arithSkipWs rest, k, ?_, hk', hl'⟩
      rw [List.append_assoc, List.cons_append, hread]

/-- **A text that writes an expression** is read as it, before what ends a part. -/
theorem Written.reads {level : Level} {e : Expr} {s : Text} (h : Written level e s) :
    ∀ {m : Nat} {rest : Text}, TokenEnd rest → (s ++ rest).length ≤ m → Reads m rest level e s := by
  have hend : ∀ {c : Char} (u : Text), isNameChar c = false → TokenEnd (c :: u) := by
    intro c u hc d hd
    obtain rfl := Option.some.inj hd
    exact hc
  have hblank : ∀ {c : Char}, isBlank c = true → isNameChar c = false := by
    intro c hc
    by_contra hname
    have hother := (nameChar_other (Bool.of_not_eq_false hname)).1
    rw [hc] at hother
    contradiction
  induction h with
  | num hne hall =>
      intro m rest hrest _
      exact reads_num hne hall m hrest
  | var h =>
      intro m rest hrest _
      exact reads_var h m hrest
  | dollar h =>
      intro m rest hrest _
      exact reads_dollar h m hrest
  | pos h =>
      intro m rest _ _
      exact reads_pos h m rest
  | paren h ih =>
      intro m rest _ hm
      cases m with
      | zero => simp at hm
      | succ m =>
          refine reads_paren (ih (hend rest (by decide)) ?_)
          simp only [List.length_append, List.length_cons, List.length_nil] at hm ⊢
          omega
  | unary h ih =>
      intro m rest hrest hm
      exact (ih hrest hm).unary
  | plus h ih =>
      intro m rest hrest hm
      rw [List.cons_append, List.length_cons] at hm
      exact reads_plus (ih hrest (by omega))
  | minus h ih =>
      intro m rest hrest hm
      rw [List.cons_append, List.length_cons] at hm
      exact reads_minus (ih hrest (by omega))
  | term h ih =>
      intro m rest hrest hm
      exact (ih hrest hm).term
  | @mul op c l r s u hop hl hr ihl ihr =>
      intro m rest hrest hm
      simp only [List.length_append, List.length_cons] at hm
      have hc := (not_blank_of_op (Or.inl hop)).2
      refine reads_mul hop (ihl (hend _ hc) ?_) (ihr hrest ?_)
      · simp only [List.length_append, List.length_cons]
        omega
      · rw [List.length_append]
        omega
  | expr h ih =>
      intro m rest hrest hm
      exact (ih hrest hm).expr
  | @add op c l r s u hop hl hr ihl ihr =>
      intro m rest hrest hm
      simp only [List.length_append, List.length_cons] at hm
      have hc := (not_blank_of_op (Or.inr hop)).2
      refine reads_add hop (ihl (hend _ hc) ?_) (ihr hrest ?_)
      · simp only [List.length_append, List.length_cons]
        omega
      · rw [List.length_append]
        omega
  | before hc h ih =>
      intro m rest hrest hm
      rw [List.cons_append, List.length_cons] at hm
      exact (ih hrest (by omega)).before hc
  | @behind level e s c hc h ih =>
      intro m rest hrest hm
      have happ : s ++ [c] ++ rest = s ++ c :: rest := by simp
      rw [happ] at hm
      exact (ih (hend rest (hblank hc)) hm).behind hc

/-- It is not blank. -/
theorem Written.not_blank {level : Level} {e : Expr} {s : Text} (h : Written level e s) :
    ∃ c ∈ s, isBlank c = false := by
  induction h with
  | @num digits hne hall =>
      cases digits with
      | nil => contradiction
      | cons c digits =>
          simp only [List.all_cons, Bool.and_eq_true] at hall
          exact ⟨c, by simp, (nameChar_other (isdigit_isNameChar hall.1)).1⟩
  | var h =>
      obtain ⟨hall, c, s, rfl, hc⟩ := h
      simp only [List.all_cons, Bool.and_eq_true] at hall
      exact ⟨c, by simp, (nameChar_other hall.1).1⟩
  | dollar h => exact ⟨'$', by simp, by decide⟩
  | pos h => exact ⟨'$', by simp, by decide⟩
  | paren h ih => exact ⟨'(', by simp, by decide⟩
  | unary h ih => exact ih
  | plus h ih => exact ⟨'+', by simp, by decide⟩
  | minus h ih => exact ⟨'-', by simp, by decide⟩
  | term h ih => exact ih
  | @mul op c l r s u hop hl hr ihl ihr => exact ⟨c, by simp, (not_blank_of_op (Or.inl hop)).1⟩
  | expr h ih => exact ih
  | @add op c l r s u hop hl hr ihl ihr => exact ⟨c, by simp, (not_blank_of_op (Or.inr hop)).1⟩
  | before hc h ih =>
      obtain ⟨d, hd, hblank⟩ := ih
      exact ⟨d, by simp [hd], hblank⟩
  | behind hc h ih =>
      obtain ⟨d, hd, hblank⟩ := ih
      exact ⟨d, by simp [hd], hblank⟩

theorem arithSkipWs_eq_nil {s : Text} : arithSkipWs s = [] ↔ s.all isBlank = true := by
  rw [arithSkipWs_eq, List.dropWhile_eq_nil_iff]
  simp

/-- **From the text to the expression.** -/
theorem readArith_written {e : Expr} {s : Text} (h : Written .expr e s) : readArith s = e := by
  have hblank : arithSkipWs s ≠ [] := by
    obtain ⟨c, hc, hother⟩ := h.not_blank
    intro hnil
    rw [arithSkipWs_eq_nil, List.all_eq_true] at hnil
    rw [hnil c hc] at hother
    contradiction
  have hnone : ∀ ops : Char → Option BinOp, NoOp ops [] := by
    intro ops c hc
    contradiction
  have hend : TokenEnd [] := by
    intro c hc
    contradiction
  obtain ⟨rest', k, hread, hk, hleft⟩ :=
    h.reads hend (Nat.le_refl (s ++ []).length) (hnone mulOp)
  rw [List.append_nil, readLoop_stop _ e hk (noOp_of_skip hleft.1 (hnone addOp)), hleft.1] at hread
  rw [readArith, if_neg hblank, hread]
  rfl

/-! ## From the expression to the text -/

/-- The expression was not read to its end: it has no value, whatever the names stand for. -/
def Broken (e : Expr) : Prop := ∀ neg lookup positional v, e.value neg lookup positional ≠ .ok v

theorem broken_stuck : Broken .stuck := by
  intro neg lookup positional v h
  contradiction

theorem broken_unfinished (e : Expr) : Broken (.unfinished e) := by
  intro neg lookup positional v h
  rw [Expr.value] at h
  cases hv : e.value neg lookup positional with
  | error x => rw [hv] at h; contradiction
  | ok w => rw [hv] at h; contradiction

theorem Broken.minus {e : Expr} (h : Broken e) : Broken (.minus e) := by
  intro neg lookup positional v hv
  rw [Expr.value] at hv
  cases he : e.value neg lookup positional with
  | error x => rw [he] at hv; contradiction
  | ok w => exact h neg lookup positional w he

theorem Broken.left {op : BinOp} {l : Expr} (h : Broken l) (r : Expr) : Broken (.bin op l r) := by
  intro neg lookup positional v hv
  rw [Expr.value] at hv
  cases hl : l.value neg lookup positional with
  | error x => rw [hl] at hv; contradiction
  | ok w => exact h neg lookup positional w hl

theorem Broken.right {op : BinOp} {r : Expr} (l : Expr) (h : Broken r) : Broken (.bin op l r) := by
  intro neg lookup positional v hv
  rw [Expr.value] at hv
  cases hl : l.value neg lookup positional with
  | error x => rw [hl] at hv; contradiction
  | ok w =>
      cases hr : r.value neg lookup positional with
      | error x => rw [hl, hr] at hv; contradiction
      | ok w' => exact h neg lookup positional w' hr

/-- What is read at the level: a text that writes it and what is behind, or it is broken. -/
def Sound (level : Level) (s : Text) (r : Reading) : Prop :=
  match r with
  | (e, some rest) => ∃ u, s = u ++ rest ∧ Written level e u
  | (e, none) => Broken e

theorem Written.blanks_before {level : Level} {e : Expr} {s : Text} (h : Written level e s)
    (b : Text) (hb : b.all isBlank = true) : Written level e (b ++ s) := by
  induction b with
  | nil => exact h
  | cons c b ih =>
      simp only [List.all_cons, Bool.and_eq_true] at hb
      exact .before hb.1 (ih hb.2)

theorem Written.blanks_behind {level : Level} {e : Expr} {s : Text} (h : Written level e s)
    (b : Text) (hb : b.all isBlank = true) : Written level e (s ++ b) := by
  induction b generalizing s with
  | nil => rwa [List.append_nil]
  | cons c b ih =>
      simp only [List.all_cons, Bool.and_eq_true] at hb
      rw [List.append_cons]
      exact ih (.behind hb.1 h) hb.2

/-- The blanks before what is read belong to its text. -/
theorem Sound.blanks {level : Level} {s : Text} {r : Reading} (h : Sound level (arithSkipWs s) r) :
    Sound level s r := by
  obtain ⟨e, _ | rest⟩ := r
  · exact h
  · obtain ⟨u, hu, hw⟩ := h
    obtain ⟨b, hb, hs⟩ := exists_blanks s
    exact ⟨b ++ u, by rw [hs, hu, List.append_assoc], hw.blanks_before b hb⟩

theorem takeWhile_append_drop {p : Char → Bool} (s : Text) :
    s = s.takeWhile p ++ s.drop (s.takeWhile p).length := by
  have hprefix := List.prefix_iff_eq_take.mp (List.takeWhile_prefix p (l := s))
  conv_lhs => rw [← List.take_append_drop (s.takeWhile p).length s]
  rw [← hprefix]

/-- A name at the head of a text. -/
theorem isName_takeWhile {c : Char} {s : Text} (hname : isNameChar c = true)
    (hdigit : isdigit c = false) : IsName ((c :: s).takeWhile isNameChar) := by
  refine ⟨List.all_takeWhile, c, s.takeWhile isNameChar, ?_, hdigit⟩
  rw [List.takeWhile_cons, if_pos hname]

theorem sound_leaf (c : Char) (s : Text) : Sound .primary (c :: s) (readLeaf c s) := by
  unfold readLeaf
  split
  next hdigit =>
    refine ⟨_, takeWhile_append_drop (c :: s), .num ?_ List.all_takeWhile⟩
    rw [List.takeWhile_cons, if_pos hdigit]
    exact List.cons_ne_nil _ _
  next hdigit =>
    split
    next hname =>
      exact ⟨_, takeWhile_append_drop (c :: s),
        .var (isName_takeWhile hname (Bool.of_not_eq_true hdigit))⟩
    next hname => exact broken_stuck

theorem sound_dollar (s : Text) : Sound .primary ('$' :: s) (readDollar s) := by
  cases s with
  | nil => exact broken_stuck
  | cons c s =>
      rw [readDollar]
      split
      next hdigit => exact ⟨['$', c], rfl, .pos hdigit⟩
      next hdigit =>
        split
        next hname =>
          refine ⟨'$' :: (c :: s).takeWhile isNameChar, ?_,
            .dollar (isName_takeWhile hname (Bool.of_not_eq_true hdigit))⟩
          rw [List.cons_append, ← takeWhile_append_drop]
        next hname => exact broken_stuck

/-- The text before a closing parenthesis is blank. -/
theorem afterClose_some {s u : Text} (h : afterClose s = some u) :
    ∃ b, b.all isBlank = true ∧ s = b ++ ')' :: u := by
  obtain ⟨b, hb, hs⟩ := exists_blanks s
  refine ⟨b, hb, ?_⟩
  rw [afterClose] at h
  cases hrest : arithSkipWs s with
  | nil => simp [hrest] at h
  | cons d rest =>
      by_cases hd : d = ')'
      · rw [hrest, hd] at h
        rw [hs, hrest, hd, ← Option.some.inj h]
      · simp [hrest, hd] at h

theorem sound_close {s : Text} {r : Reading} (h : Sound .expr s r) :
    Sound .primary ('(' :: s) (readClose r) := by
  obtain ⟨e, _ | rest⟩ := r
  · exact h
  · obtain ⟨u, rfl, hw⟩ := h
    cases hclose : afterClose rest with
    | none =>
        simp only [readClose, hclose]
        exact broken_unfinished e
    | some rest' =>
        obtain ⟨b, hb, rfl⟩ := afterClose_some hclose
        simp only [readClose, hclose]
        refine ⟨'(' :: (u ++ b) ++ [')'], ?_, .paren (hw.blanks_behind b hb)⟩
        simp

section Levels

variable {expr : Text → Reading}

theorem sound_primary (hexpr : ∀ s, Sound .expr s (expr s)) (s : Text) :
    Sound .primary s (readPrimary expr s) := by
  refine Sound.blanks ?_
  rw [readPrimary]
  cases arithSkipWs s with
  | nil => exact broken_stuck
  | cons c s =>
      rw [primaryAt]
      split
      next hopen =>
        subst hopen
        exact sound_close (hexpr s)
      next hopen =>
        split
        next hdollar =>
          subst hdollar
          exact sound_dollar s
        next hdollar => exact sound_leaf c s

theorem Sound.sign {s : Text} {r : Reading} {c : Char} {f : Expr → Expr} (h : Sound .unary s r)
    (hwritten : ∀ e u, Written .unary e u → Written .unary (f e) (c :: u))
    (hbroken : ∀ e, Broken e → Broken (f e)) : Sound .unary (c :: s) (f r.1, r.2) := by
  obtain ⟨e, _ | rest⟩ := r
  · exact hbroken e h
  · obtain ⟨u, rfl, hw⟩ := h
    exact ⟨c :: u, rfl, hwritten e u hw⟩

theorem Sound.weaken {level level' : Level} {s : Text} {r : Reading} (h : Sound level s r)
    (hwritten : ∀ e u, Written level e u → Written level' e u) : Sound level' s r := by
  obtain ⟨e, _ | rest⟩ := r
  · exact h
  · obtain ⟨u, hu, hw⟩ := h
    exact ⟨u, hu, hwritten e u hw⟩

theorem sound_unary (hexpr : ∀ s, Sound .expr s (expr s)) (n : Nat) :
    ∀ s, Sound .unary s (readUnary expr n s) := by
  induction n with
  | zero =>
      intro s
      exact broken_stuck
  | succ n ih =>
      intro s
      refine Sound.blanks ?_
      have hprimary : ∀ t, Sound .unary t (readPrimary expr t) := fun t =>
        (sound_primary hexpr t).weaken fun _ _ => .unary
      rw [readUnary]
      cases arithSkipWs s with
      | nil => exact hprimary []
      | cons c s =>
          by_cases hplus : c = '+'
          · subst hplus
            exact (ih s).sign (fun _ _ => .plus) fun _ hb => hb
          · by_cases hminus : c = '-'
            · subst hminus
              exact (ih s).sign (fun _ _ => .minus) fun _ hb => hb.minus
            · simpa [hplus, hminus] using hprimary (c :: s)

variable {ops : Char → Option BinOp} {operand : Text → Reading} {level sub : Level}

/-- The loop of a level adds operators and operands to what was written. -/
theorem sound_loop (hoperand : ∀ s, Sound sub s (operand s))
    (hjoin : ∀ {op c l r s u}, ops c = some op → Written level l s → Written sub r u →
      Written level (.bin op l r) (s ++ c :: u)) (n : Nat) :
    ∀ e t s, Written level e t → Sound level (t ++ s) (readLoop ops operand n e s) := by
  induction n with
  | zero =>
      intro e t s _
      exact broken_unfinished e
  | succ n ih =>
      intro e t s hw
      obtain ⟨b, hb, hs⟩ := exists_blanks s
      have hw' := hw.blanks_behind b hb
      have happ : t ++ s = t ++ b ++ arithSkipWs s := by
        rw [List.append_assoc, ← hs]
      rw [happ, readLoop]
      cases arithSkipWs s with
      | nil => exact ⟨t ++ b, rfl, hw'⟩
      | cons c u =>
          cases hop : ops c with
          | none =>
              simp only [hop]
              exact ⟨t ++ b, rfl, hw'⟩
          | some op =>
              have hsound := hoperand u
              cases hread : operand u with
              | mk r rest =>
                  rw [hread] at hsound
                  cases rest with
                  | none =>
                      simp only [hop, hread]
                      exact (broken_unfinished r).right e
                  | some rest =>
                      obtain ⟨u', rfl, hr⟩ := hsound
                      have hnext := ih _ _ rest (hjoin hop hw' hr)
                      simp only [hop, hread]
                      rwa [List.append_assoc (t ++ b)] at hnext

theorem sound_level (hoperand : ∀ s, Sound sub s (operand s))
    (hsub : ∀ e s, Written sub e s → Written level e s)
    (hjoin : ∀ {op c l r s u}, ops c = some op → Written level l s → Written sub r u →
      Written level (.bin op l r) (s ++ c :: u)) (s : Text) :
    Sound level s (readLevel ops operand s) := by
  have hsound := hoperand s
  rw [readLevel]
  cases hread : operand s with
  | mk e rest =>
      rw [hread] at hsound
      cases rest with
      | none => exact hsound
      | some rest =>
          obtain ⟨u, rfl, hw⟩ := hsound
          exact sound_loop hoperand hjoin _ e u rest (hsub e u hw)

theorem sound_term (hexpr : ∀ s, Sound .expr s (expr s)) (s : Text) :
    Sound .term s (readTerm expr s) :=
  sound_level (fun t => sound_unary hexpr (t.length + 1) t) (fun _ _ => .term) .mul s

end Levels

theorem sound_expr (n : Nat) : ∀ s, Sound .expr s (readExpr n s) := by
  induction n with
  | zero =>
      intro s
      exact broken_stuck
  | succ n ih =>
      intro s
      exact sound_level (sound_term ih) (fun _ _ => .expr) .add s

/-- **From the expression to the text**: what is read from a text that is not blank is written
by it, or has no value. -/
theorem written_of_readArith {s : Text} (hblank : arithSkipWs s ≠ []) :
    Written .expr (readArith s) s ∨ Broken (readArith s) := by
  have hsound := sound_expr (s.length + 1) s
  rw [readArith, if_neg hblank]
  cases hread : readExpr (s.length + 1) s with
  | mk e rest =>
      rw [hread] at hsound
      cases rest with
      | none => exact .inr (broken_unfinished e)
      | some rest =>
          obtain ⟨u, hu, hw⟩ := hsound
          by_cases hrest : arithSkipWs rest = []
          · simp only [hrest, if_true]
            left
            rw [hu]
            exact hw.blanks_behind rest (arithSkipWs_eq_nil.mp hrest)
          · simp only [if_neg hrest]
            exact .inr (broken_unfinished e)

end Petrush.Verified.Grammar
