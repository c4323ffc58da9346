import Petrush.Mid.Dbracket
import Petrush.Mid.Parser

/-!
# The operators of `[[ … ]]`

The evaluator reads the expanded tokens as an expression: terms, each a row of
`!` before a test, joined by `&&` and `||`.  Which tokens it takes for operators
depends on what it compares.

## Main results

* `dbrEvalExpr_eq`: the evaluator computes the value of the expression it reads.
* `operators_written_iff`: the expression read is the one written exactly when no
  operand looks like an operator where the evaluator asks for one.
-/

namespace Petrush.Verified.Brackets

open Petrush.Lib.CText
open Petrush.Foundation
open Petrush.Mid.Ast
open Petrush.Mid.Dbracket
open Petrush.Mid.Expand
open Petrush.Mid.Parser

/-! ## Expressions -/

/-- What stands behind the `!` of a term. -/
inductive Prim where
  | missing
  | word (t : Tok)
  | test (op operand : Tok)
  | compare (lhs op rhs : Tok)
  deriving DecidableEq

/-- A term. -/
structure Term where
  bangs : List Tok
  prim : Prim
  deriving DecidableEq

/-- An expression: the terms behind a connective (`true` for `&&`), and the
tokens left when no connective follows. -/
structure Expr where
  first : Term
  more : List (Bool × Term)
  junk : List Tok
  deriving DecidableEq

section Reading

variable (look : Tok → Option Text)

/-- The primary at the start of the tokens, and the tokens after it. -/
def readPrim : List Tok → Prim × List Tok
  | [] => (.missing, [])
  | [t] => (.word t, [])
  | t :: u :: rest =>
      if dbrIsUnary look t then (.test t u, rest)
      else
        match rest with
        | v :: rest' => if dbrIsBinop look u then (.compare t u v, rest') else (.word t, u :: rest)
        | [] => (.word t, [u])

/-- The term at the start of the tokens, and the tokens after it. -/
def readTerm (toks : List Tok) : Term × List Tok :=
  let (prim, rest) := readPrim look (toks.dropWhile (isBang look))
  (⟨toks.takeWhile (isBang look), prim⟩, rest)

/-- The terms behind connectives. -/
def readMore : Nat → List Tok → List (Bool × Term) × List Tok
  | 0, _ => ([], [])
  | _ + 1, [] => ([], [])
  | n + 1, op :: toks =>
      if isAnd look op ∨ isOr look op then
        let (term, rest) := readTerm look toks
        let (more, junk) := readMore n rest
        ((isAnd look op, term) :: more, junk)
      else ([], op :: toks)

/-- The expression of the tokens. -/
def readExpr (toks : List Tok) : Expr :=
  let (first, rest) := readTerm look toks
  let (more, junk) := readMore look toks.length rest
  ⟨first, more, junk⟩

end Reading

/-! ## Values -/

/-- The value of a primary: 0 true, 1 false, 2 an error. -/
def Prim.eval (files : Files) : Prim → Int
  | .missing => 2
  | .word t => if t.text ≠ [] then 0 else 1
  | .test op operand => featTestUnary files op.text operand.text
  | .compare lhs op rhs => dbrCompare lhs op rhs

/-- The value of a term. -/
def Term.eval (files : Files) (t : Term) : Int :=
  let st := t.prim.eval files
  if st = 2 then 2 else if t.bangs.length % 2 = 1 then (if st = 0 then 1 else 0) else st

/-- The value of the terms from `status` on; a term that is passed over must
still be there. -/
def evalMore (files : Files) : Int → List (Bool × Term) → List Tok → Int
  | status, [], junk => if junk = [] then status else 2
  | status, (isAnd, term) :: more, junk =>
      if status = 2 then 2
      else if isAnd = decide (status = 0) then
        if term.eval files = 2 then 2 else evalMore files (term.eval files) more junk
      else if term.prim = .missing then 2
      else evalMore files status more junk

/-- The value of an expression. -/
def Expr.eval (files : Files) (e : Expr) : Int := evalMore files (e.first.eval files) e.more e.junk

theorem dbrEvalPrimary_eq (files : Files) (look : Tok → Option Text) : ∀ toks : List Tok,
    dbrEvalPrimary files look toks = ((readPrim look toks).1.eval files, (readPrim look toks).2)
  | [] => rfl
  | [_] => rfl
  | [t, u] => by
      by_cases hun : dbrIsUnary look t = true
      · simp [dbrEvalPrimary, readPrim, hun, Prim.eval]
      · simp [dbrEvalPrimary, readPrim, hun, Prim.eval]
  | t :: u :: v :: rest => by
      by_cases hun : dbrIsUnary look t = true
      · simp [dbrEvalPrimary, readPrim, hun, Prim.eval]
      · by_cases hbin : dbrIsBinop look u = true
        · simp [dbrEvalPrimary, readPrim, hun, hbin, Prim.eval]
        · simp [dbrEvalPrimary, readPrim, hun, hbin, Prim.eval]

theorem dbrEvalTerm_eq (files : Files) (look : Tok → Option Text) (toks : List Tok) :
    dbrEvalTerm files look toks = ((readTerm look toks).1.eval files, (readTerm look toks).2) := by
  unfold dbrEvalTerm readTerm
  rw [dbrEvalPrimary_eq]
  rfl

/-- A term is passed over as it is read. -/
theorem dbrSkipTerm_eq (look : Tok → Option Text) (toks : List Tok) :
    dbrSkipTerm look toks =
      if (readTerm look toks).1.prim = .missing then none else some (readTerm look toks).2 := by
  unfold dbrSkipTerm readTerm
  match toks.dropWhile (isBang look) with
  | [] => simp [readPrim]
  | [t] => simp [readPrim]
  | [t, u] =>
      by_cases hun : dbrIsUnary look t = true
      · simp [readPrim, hun]
      · simp [readPrim, hun]
  | t :: u :: v :: rest =>
      by_cases hun : dbrIsUnary look t = true
      · simp [readPrim, hun]
      · by_cases hbin : dbrIsBinop look u = true
        · simp [readPrim, hun, hbin]
        · simp [readPrim, hun, hbin]

theorem dbrEvalLoop_eq (files : Files) (look : Tok → Option Text) (n : Nat) :
    ∀ (status : Int) (toks : List Tok), dbrEvalLoop files look n status toks =
      evalMore files status (readMore look n toks).1 (readMore look n toks).2 := by
  induction n with
  | zero =>
      intro status toks
      rfl
  | succ n ih =>
      intro status toks
      cases toks with
      | nil => rfl
      | cons op toks =>
          simp only [dbrEvalLoop, readMore]
          by_cases hop : isAnd look op = true ∨ isOr look op = true
          · rw [if_pos hop, if_pos hop, dbrEvalTerm_eq, dbrSkipTerm_eq]
            simp only [evalMore, ih]
            by_cases hst : status = 2
            · simp [hst]
            · simp only [hst, if_false]
              by_cases hand : isAnd look op = decide (status = 0)
              · simp only [hand, if_true]
              · simp only [hand, if_false]
                by_cases hmiss : (readTerm look toks).1.prim = .missing
                · simp [hmiss]
                · simp [hmiss]
          · rw [if_neg hop, if_neg hop]
            simp [evalMore]

/-- **The evaluator computes the value of the expression it reads.** -/
theorem dbrEvalExpr_eq (files : Files) (look : Tok → Option Text) {toks : List Tok}
    (h : toks ≠ []) : dbrEvalExpr files look toks = (readExpr look toks).eval files := by
  unfold dbrEvalExpr
  rw [if_neg h, dbrEvalTerm_eq]
  show dbrEvalLoop files look toks.length _ _ = _
  rw [dbrEvalLoop_eq]
  rfl

/-! ## What is written -/

/-- An operator is a token written without quotes. -/
def written (t : Tok) : Option Text :=
  if t.src.quoted = .unquoted then some t.src.text else none

/-- All operators of `[[ ]]`. -/
def operators : List Text := unaryOps ++ binaryOps ++ ["!".toList, "&&".toList, "||".toList]

/-- An operator written as such is still itself after the expansion. -/
def Kept (t : Tok) : Prop :=
  t.src.quoted = .unquoted → t.src.text ∈ operators → t.text = t.src.text

/-- Nothing in an operator is expanded. -/
theorem expandWord_operator (w : World) (ctx : Ctx) (fx : Effects) {op : Text}
    (h : op ∈ operators) : expandWord w ctx op fx = (op, fx) := by
  simp only [operators, unaryOps, binaryOps, List.cons_append, List.nil_append, List.mem_cons,
    List.not_mem_nil, or_false] at h
  rcases h with rfl | rfl | rfl | rfl | rfl | rfl | rfl | rfl | rfl | rfl | rfl | rfl | rfl | rfl |
    rfl <;> rfl

theorem kept_expandToks (w : World) (ctx : Ctx) (db : List Word) (fx : Effects) :
    ∀ t ∈ (expandToks w ctx db fx).1, Kept t := by
  induction db generalizing fx with
  | nil => simp [expandToks]
  | cons word db ih =>
      intro t ht
      simp only [expandToks] at ht
      rcases List.mem_cons.mp ht with rfl | ht
      · intro _ hop
        show (expandWord w ctx word.text fx).1 = word.text
        rw [expandWord_operator w ctx fx hop]
      · exact ih _ t ht

/-! ## Where an operand may look like an operator -/

/-- The token is not an operand that looks like one of the operators. -/
def Agrees (ops : List Text) (t : Tok) : Prop := sees shown ops t = true → sees written ops t = true

/-- Where a primary is read: its first token is not mistaken for a unary test, nor
its second for a comparison. -/
def PrimAgrees : List Tok → Prop
  | t :: u :: rest =>
      Agrees unaryOps t ∧ (dbrIsUnary written t = true ∨ rest = [] ∨ Agrees binaryOps u)
  | _ => True

/-- Where a term is read: the token behind the `!` is not mistaken for one. -/
def TermAgrees (toks : List Tok) : Prop :=
  (∀ t ∈ (toks.dropWhile (isBang written)).head?, isBang shown t = false) ∧
    PrimAgrees (toks.dropWhile (isBang written))

/-- Between terms: a token is not mistaken for a connective. -/
def MoreAgrees : Nat → List Tok → Prop
  | 0, _ => True
  | _ + 1, [] => True
  | n + 1, op :: toks =>
      if isAnd written op ∨ isOr written op then
        TermAgrees toks ∧ MoreAgrees n (readTerm written toks).2
      else isAnd shown op = false ∧ isOr shown op = false

/-- No operand looks like an operator where the evaluator asks for one. -/
def NoClash (toks : List Tok) : Prop :=
  TermAgrees toks ∧ MoreAgrees toks.length (readTerm written toks).2

/-! ## Reading what is written -/

theorem sees_shown_of_written {ops : List Text} {t : Tok} (hk : Kept t) (hops : ops ⊆ operators)
    (h : sees written ops t = true) : sees shown ops t = true := by
  unfold sees written at h
  by_cases hq : t.src.quoted = .unquoted
  · rw [if_pos hq] at h
    have hmem : t.src.text ∈ ops := by simpa using h
    have htext := hk hq (hops hmem)
    simp [sees, shown, htext, hmem]
  · simp [hq] at h

theorem sees_eq_of_agrees {ops : List Text} {t : Tok} (hk : Kept t) (hops : ops ⊆ operators)
    (h : Agrees ops t) : sees shown ops t = sees written ops t := by
  by_cases hw : sees written ops t = true
  · rw [hw]
    exact sees_shown_of_written hk hops hw
  · have hs : ¬ sees shown ops t = true := fun hs => hw (h hs)
    rw [Bool.eq_false_iff.mpr hw, Bool.eq_false_iff.mpr hs]

private theorem unaryOps_sub : unaryOps ⊆ operators := by decide

private theorem binaryOps_sub : binaryOps ⊆ operators := by decide

private theorem bang_sub : ["!".toList] ⊆ operators := by decide

private theorem and_sub : ["&&".toList] ⊆ operators := by decide

private theorem or_sub : ["||".toList] ⊆ operators := by decide

theorem readPrim_eq {toks : List Tok} (hk : ∀ t ∈ toks, Kept t) (h : PrimAgrees toks) :
    readPrim shown toks = readPrim written toks := by
  match toks with
  | [] => rfl
  | [_] => rfl
  | t :: u :: rest =>
      obtain ⟨hun, hbin⟩ := h
      have hun' : dbrIsUnary shown t = dbrIsUnary written t :=
        sees_eq_of_agrees (hk t (by simp)) unaryOps_sub hun
      by_cases hw : dbrIsUnary written t = true
      · simp [readPrim, hun', hw]
      · cases rest with
        | nil => simp [readPrim, hun', hw]
        | cons v rest =>
            have hagree : Agrees binaryOps u := by
              rcases hbin with h | h | h
              · exact absurd h hw
              · contradiction
              · exact h
            have hbin' : dbrIsBinop shown u = dbrIsBinop written u :=
              sees_eq_of_agrees (hk u (by simp)) binaryOps_sub hagree
            simp [readPrim, hun', hbin']

theorem primAgrees_of_readPrim {toks : List Tok} (hk : ∀ t ∈ toks, Kept t)
    (h : (readPrim shown toks).1 = (readPrim written toks).1) : PrimAgrees toks := by
  match toks with
  | [] => trivial
  | [_] => trivial
  | t :: u :: rest =>
      have hun : Agrees unaryOps t := by
        intro hs
        by_contra hw
        have hs' : dbrIsUnary shown t = true := hs
        have hw' : ¬ dbrIsUnary written t = true := hw
        simp only [readPrim, hs', if_true, hw', Bool.false_eq_true, if_false] at h
        split at h
        · split at h <;> simp at h
        · simp at h
      refine ⟨hun, ?_⟩
      by_cases hw : dbrIsUnary written t = true
      · exact Or.inl hw
      · cases rest with
        | nil => exact Or.inr (Or.inl rfl)
        | cons v rest =>
            refine Or.inr (Or.inr fun hs => ?_)
            by_contra hbin
            have hs' : dbrIsBinop shown u = true := hs
            have hbin' : ¬ dbrIsBinop written u = true := hbin
            have hun' : dbrIsUnary shown t = dbrIsUnary written t :=
              sees_eq_of_agrees (hk t (by simp)) unaryOps_sub hun
            simp [readPrim, hun', hw, hs', hbin'] at h

/-- The `!` of a term are those written, and only if the token after them is not
mistaken for one. -/
theorem bangs_iff {toks : List Tok} (hk : ∀ t ∈ toks, Kept t) :
    toks.takeWhile (isBang shown) = toks.takeWhile (isBang written) ↔
      ∀ t ∈ (toks.dropWhile (isBang written)).head?, isBang shown t = false := by
  induction toks with
  | nil => simp
  | cons t toks ih =>
      have hrest := ih fun u hu => hk u (by simp [hu])
      by_cases hw : isBang written t = true
      · have hs : isBang shown t = true := sees_shown_of_written (hk t (by simp)) bang_sub hw
        simp [hw, hs, hrest]
      · by_cases hs : isBang shown t = true
        · simp [hw, hs]
        · simp [hw, hs]

theorem dropWhile_eq_of_takeWhile_eq {α : Type} {p q : α → Bool} {xs : List α}
    (h : xs.takeWhile p = xs.takeWhile q) : xs.dropWhile p = xs.dropWhile q := by
  have hp := List.takeWhile_append_dropWhile (p := p) (l := xs)
  have hq := List.takeWhile_append_dropWhile (p := q) (l := xs)
  rw [h] at hp
  exact List.append_cancel_left (hp.trans hq.symm)

theorem kept_dropWhile {toks : List Tok} (p : Tok → Bool) (hk : ∀ t ∈ toks, Kept t) :
    ∀ t ∈ toks.dropWhile p, Kept t :=
  fun t ht => hk t ((List.dropWhile_suffix p).subset ht)

theorem readTerm_eq {toks : List Tok} (hk : ∀ t ∈ toks, Kept t) (h : TermAgrees toks) :
    readTerm shown toks = readTerm written toks := by
  have hbangs := (bangs_iff hk).mpr h.1
  unfold readTerm
  rw [hbangs, dropWhile_eq_of_takeWhile_eq hbangs, readPrim_eq (kept_dropWhile _ hk) h.2]

theorem termAgrees_of_readTerm {toks : List Tok} (hk : ∀ t ∈ toks, Kept t)
    (h : (readTerm shown toks).1 = (readTerm written toks).1) : TermAgrees toks := by
  simp only [readTerm, Term.mk.injEq] at h
  obtain ⟨hbangs, hprim⟩ := h
  refine ⟨(bangs_iff hk).mp hbangs, ?_⟩
  rw [dropWhile_eq_of_takeWhile_eq hbangs] at hprim
  exact primAgrees_of_readPrim (kept_dropWhile _ hk) hprim

theorem readPrim_suffix (look : Tok → Option Text) (toks : List Tok) :
    (readPrim look toks).2 <:+ toks := by
  match toks with
  | [] => exact List.suffix_refl _
  | [t] => exact List.nil_suffix
  | [t, u] =>
      by_cases hun : dbrIsUnary look t = true
      · simp [readPrim, hun]
      · simp [readPrim, hun]
  | t :: u :: v :: rest =>
      by_cases hun : dbrIsUnary look t = true
      · simp only [readPrim, hun, if_true]
        exact ⟨[t, u], rfl⟩
      · by_cases hbin : dbrIsBinop look u = true
        · simp only [readPrim, hun, hbin, Bool.false_eq_true, if_false, if_true]
          exact ⟨[t, u, v], rfl⟩
        · simp only [readPrim, hun, hbin, Bool.false_eq_true, if_false]
          exact ⟨[t], rfl⟩

theorem readTerm_suffix (look : Tok → Option Text) (toks : List Tok) :
    (readTerm look toks).2 <:+ toks :=
  (readPrim_suffix look _).trans (List.dropWhile_suffix _)

theorem readMore_iff (n : Nat) : ∀ {toks : List Tok}, (∀ t ∈ toks, Kept t) →
    (readMore shown n toks = readMore written n toks ↔ MoreAgrees n toks) := by
  induction n with
  | zero =>
      intro toks _
      simp [readMore, MoreAgrees]
  | succ n ih =>
      intro toks hk
      cases toks with
      | nil => simp [readMore, MoreAgrees]
      | cons op toks =>
          have hkop : Kept op := hk op (by simp)
          have hktoks : ∀ t ∈ toks, Kept t := fun t ht => hk t (by simp [ht])
          have hkrest : ∀ t ∈ (readTerm written toks).2, Kept t :=
            fun t ht => hktoks t ((readTerm_suffix written toks).subset ht)
          by_cases hw : isAnd written op = true ∨ isOr written op = true
          · have hs : isAnd shown op = true ∨ isOr shown op = true :=
              hw.imp (sees_shown_of_written hkop and_sub) (sees_shown_of_written hkop or_sub)
            have hkind : isAnd shown op = isAnd written op := by
              rcases hw with hw | hw
              · rw [hw]
                exact sees_shown_of_written hkop and_sub hw
              · have hor : op.text = "||".toList := by
                  simpa [isOr, sees, shown] using sees_shown_of_written hkop or_sub hw
                have hshown : isAnd shown op = false := by
                  simp [isAnd, sees, shown, hor]
                have hnot : ¬ isAnd written op = true := by
                  intro hand
                  have hand' : isAnd shown op = true := sees_shown_of_written hkop and_sub hand
                  rw [hshown] at hand'
                  contradiction
                rw [hshown, Bool.eq_false_iff.mpr hnot]
            simp only [readMore, MoreAgrees, hw, hs, if_true]
            constructor
            · intro h
              simp only [Prod.mk.injEq, List.cons.injEq] at h
              obtain ⟨⟨⟨_, hterm⟩, hmore⟩, hjunk⟩ := h
              have hagree := termAgrees_of_readTerm hktoks hterm
              refine ⟨hagree, ?_⟩
              rw [readTerm_eq hktoks hagree] at hmore hjunk
              exact (ih hkrest).mp (Prod.ext hmore hjunk)
            · rintro ⟨hagree, hmore⟩
              rw [readTerm_eq hktoks hagree, (ih hkrest).mpr hmore, hkind]
          · simp only [readMore, MoreAgrees, hw, if_false]
            by_cases hs : isAnd shown op = true ∨ isOr shown op = true
            · simp only [hs, if_true]
              constructor
              · intro h
                simp at h
              · rintro ⟨hand, hor⟩
                rw [hand, hor] at hs
                simp at hs
            · simp only [hs, if_false]
              rw [not_or] at hs
              simp [hs]

/-- **`[[ ]]` reads the operators that are written** exactly when no operand looks
like an operator where the evaluator asks for one; the status is then that of
the expression as written. -/
theorem operators_written_iff (files : Files) (w : World) (ctx : Ctx) (db : List Word)
    (fx : Effects) :
    let toks := (expandToks w ctx db fx).1
    (readExpr shown toks = readExpr written toks ↔ NoClash toks) ∧
      (NoClash toks → dbrEvalExpr files shown toks = dbrEvalExpr files written toks) := by
  intro toks
  have hk : ∀ t ∈ toks, Kept t := kept_expandToks w ctx db fx
  have hiff : readExpr shown toks = readExpr written toks ↔ NoClash toks := by
    constructor
    · intro h
      simp only [readExpr, Expr.mk.injEq] at h
      obtain ⟨hfirst, hmore, hjunk⟩ := h
      have hagree := termAgrees_of_readTerm hk hfirst
      refine ⟨hagree, ?_⟩
      rw [readTerm_eq hk hagree] at hmore hjunk
      exact (readMore_iff _ fun t ht => hk t ((readTerm_suffix written toks).subset ht)).mp
        (Prod.ext hmore hjunk)
    · rintro ⟨hagree, hmore⟩
      have hmore' :=
        (readMore_iff _ fun t ht => hk t ((readTerm_suffix written toks).subset ht)).mpr hmore
      simp only [readExpr, readTerm_eq hk hagree, hmore']
  refine ⟨hiff, fun h => ?_⟩
  by_cases hnil : toks = []
  · rw [hnil]
    rfl
  · rw [dbrEvalExpr_eq files shown hnil, dbrEvalExpr_eq files written hnil, hiff.mpr h]

/-- **A value that is `!` is not equal to itself**: with `x` holding `!`, the
command `[[ "$x" == "$x" ]]` is an error; as written it is true. -/
theorem bang_not_equal :
    let env : Env := fun name => if name = "x".toList then some "!".toList else none
    let w : World := ⟨fun _ _ => [], fun _ => none, fun _ => []⟩
    let files : Files := ⟨fun _ => false, fun _ => false, fun _ => false⟩
    ∃ db, petrushParseList "[[ \"$x\" == \"$x\" ]]".toList = some [⟨.db db, .always, false⟩] ∧
      (dispatchDbracket files w { env := env } db {}).1 = 2 ∧
      dbrEvalExpr files written (expandToks w { env := env } db {}).1 = 0 := by
  exact ⟨_, rfl, by decide +kernel, by decide +kernel⟩

end Petrush.Verified.Brackets
