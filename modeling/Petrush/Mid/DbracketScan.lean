import Petrush.Mid.Dbracket

/-!
# The evaluator of `[[ … ]]` on its indices (`dispatcher.c`)

`argv` is the array of the expanded tokens, `idx` is what the functions pass by
reference, and the tests that are made (`access`, `stat`, the comparison of
integers) stand in a record.  What the files answer may depend on all tests made so
far.  `Dbracket` has the same functions on lists, without the record.
-/

namespace Petrush.Mid.DbracketScan

open Petrush.Lib.CText
open Petrush.Mid.Dbracket

/-- What `stat` says a path is. -/
inductive Mode where
  | reg
  | dir
  | other
  deriving Repr, DecidableEq

/-- `access(…, F_OK)` and `stat`, which may fail. -/
structure FileSystem where
  access : Text → Bool
  stat : Text → Option Mode

/-- A test that asks the system, or reads integers. -/
inductive Probe where
  | access (path : Text)
  | stat (path : Text)
  | integers (lhs op rhs : Text)
  deriving Repr, DecidableEq

/-- A status, the index behind what was read, and the tests made so far, the last at
the end. -/
structure Scan where
  status : Int
  idx : Nat
  made : List Probe
  deriving Repr, DecidableEq

section Scanner

-- The files, as the tests made so far find them; the tokens; the ones that are quoted.
variable (sys : List Probe → FileSystem) (argv : List Text) (quoted : Nat → Bool)

/-- `strcmp(argv[idx], s) == 0`, behind `idx < argc`. -/
def tokenIs (idx : Nat) (s : Text) : Bool := argv[idx]? == some s

/-- `argv[idx]`, where it is known to be there. -/
def token (idx : Nat) : Text := argv.getD idx []

/-- `dbr_is_unary`. -/
def dbrIsUnary (op : Text) : Bool := unaryOps.contains op

/-- `dbr_is_binop`. -/
def dbrIsBinop (op : Text) : Bool := binaryOps.contains op

/-- The loop over `!` in `dbr_skip_term`. -/
def skipBangs (idx : Nat) : Nat :=
  if idx < argv.length ∧ tokenIs argv idx ['!'] then skipBangs (idx + 1) else idx
termination_by argv.length - idx

/-- The one in `dbr_eval_term`: the index behind it, and `neg`. -/
def negBangs (idx : Nat) (neg : Bool) : Nat × Bool :=
  if idx < argv.length ∧ tokenIs argv idx ['!'] then negBangs (idx + 1) (!neg) else (idx, neg)
termination_by argv.length - idx

/-- `dbr_skip_term`: the status and the index. -/
def dbrSkipTerm (idx : Nat) : Int × Nat :=
  let idx := skipBangs argv idx
  if idx ≥ argv.length then (2, idx)
  else if idx + 1 < argv.length ∧ dbrIsUnary (token argv idx) then (0, idx + 2)
  else if idx + 2 < argv.length ∧ dbrIsBinop (token argv (idx + 1)) then (0, idx + 3)
  else (0, idx + 1)

/-- `feat_test_unary`, on what is found by the tests made so far. -/
def featTestUnary (op operand : Text) (made : List Probe) : Int × List Probe :=
  if op = "-z".toList then (if operand = [] then 0 else 1, made)
  else if op = "-n".toList then (if operand ≠ [] then 0 else 1, made)
  else if op = "-e".toList then
    (if (sys made).access operand then 0 else 1, made ++ [.access operand])
  else if op = "-f".toList then
    (if (sys made).stat operand = some .reg then 0 else 1, made ++ [.stat operand])
  else if op = "-d".toList then
    (if (sys made).stat operand = some .dir then 0 else 1, made ++ [.stat operand])
  else (2, made)

/-- `dbr_eval_primary`. -/
def dbrEvalPrimary (idx : Nat) (made : List Probe) : Scan :=
  if idx ≥ argv.length then ⟨2, idx, made⟩
  else if idx + 1 < argv.length ∧ dbrIsUnary (token argv idx) then
    let (st, made) := featTestUnary sys (token argv idx) (token argv (idx + 1)) made
    ⟨st, idx + 2, made⟩
  else if idx + 2 < argv.length ∧ dbrIsBinop (token argv (idx + 1)) then
    let lhs := token argv idx
    let op := token argv (idx + 1)
    let rhs := token argv (idx + 2)
    if op = "=".toList ∨ op = "==".toList ∨ op = "!=".toList then
      ⟨dbrStrCmp lhs op rhs (quoted (idx + 2)), idx + 3, made⟩
    else ⟨featTestBinary lhs op rhs, idx + 3, made ++ [.integers lhs op rhs]⟩
  else ⟨if token argv idx ≠ [] then 0 else 1, idx + 1, made⟩

/-- `dbr_eval_term`. -/
def dbrEvalTerm (idx : Nat) (made : List Probe) : Scan :=
  let bangs := negBangs argv idx false
  let r := dbrEvalPrimary sys argv quoted bangs.1 made
  if r.status = 2 then r
  else if bangs.2 then { r with status := if r.status = 0 then 1 else 0 }
  else r

/-! ## A term that is skipped -/

theorem negBangs_idx (idx : Nat) (neg : Bool) : (negBangs argv idx neg).1 = skipBangs argv idx := by
  fun_induction negBangs argv idx neg with
  | case1 idx neg h ih => rw [skipBangs, if_pos h, ih]
  | case2 idx neg h => rw [skipBangs, if_neg h]

theorem le_skipBangs (idx : Nat) : idx ≤ skipBangs argv idx := by
  fun_induction skipBangs argv idx with
  | case1 idx h ih => omega
  | case2 idx h => exact Nat.le_refl idx

/-- A primary is read up to where `dbr_skip_term` leaves the index. -/
theorem dbrEvalPrimary_idx (idx : Nat) (made : List Probe) :
    (dbrEvalPrimary sys argv quoted idx made).idx =
      if idx ≥ argv.length then idx
      else if idx + 1 < argv.length ∧ dbrIsUnary (token argv idx) then idx + 2
      else if idx + 2 < argv.length ∧ dbrIsBinop (token argv (idx + 1)) then idx + 3
      else idx + 1 := by
  unfold dbrEvalPrimary
  split
  · rfl
  · split
    · rfl
    · split
      · dsimp only
        split <;> rfl
      · rfl

theorem dbrEvalTerm_idx (idx : Nat) (made : List Probe) :
    (dbrEvalTerm sys argv quoted idx made).idx =
      (dbrEvalPrimary sys argv quoted (skipBangs argv idx) made).idx := by
  simp only [dbrEvalTerm, negBangs_idx]
  split
  · rfl
  · split <;> rfl

/-- **A term is skipped as far as it is evaluated**, on any tokens. -/
theorem dbrSkipTerm_idx (idx : Nat) (made : List Probe) :
    (dbrSkipTerm argv idx).2 = (dbrEvalTerm sys argv quoted idx made).idx := by
  rw [dbrEvalTerm_idx, dbrEvalPrimary_idx]
  simp only [dbrSkipTerm]
  split
  · rfl
  · split
    · rfl
    · split <;> rfl

theorem le_dbrSkipTerm_idx (idx : Nat) : idx ≤ (dbrSkipTerm argv idx).2 := by
  have hle := le_skipBangs argv idx
  simp only [dbrSkipTerm]
  split_ifs <;> dsimp only <;> omega

theorem le_dbrEvalTerm_idx (idx : Nat) (made : List Probe) :
    idx ≤ (dbrEvalTerm sys argv quoted idx made).idx := by
  rw [← dbrSkipTerm_idx]
  exact le_dbrSkipTerm_idx argv idx

/-! ## Expressions -/

/-- The loop of `dbr_eval_expr`, from `idx` on. -/
def dbrEvalLoop (status : Int) (idx : Nat) (made : List Probe) : Int × List Probe :=
  if idx < argv.length then
    if tokenIs argv idx "&&".toList then
      if status = 2 then (2, made)
      else if status = 0 then
        let r := dbrEvalTerm sys argv quoted (idx + 1) made
        if r.status = 2 then (2, r.made) else dbrEvalLoop r.status r.idx r.made
      else
        let r := dbrSkipTerm argv (idx + 1)
        if r.1 ≠ 0 then (2, made) else dbrEvalLoop status r.2 made
    else if tokenIs argv idx "||".toList then
      if status = 2 then (2, made)
      else if status ≠ 0 then
        let r := dbrEvalTerm sys argv quoted (idx + 1) made
        if r.status = 2 then (2, r.made) else dbrEvalLoop r.status r.idx r.made
      else
        let r := dbrSkipTerm argv (idx + 1)
        if r.1 ≠ 0 then (2, made) else dbrEvalLoop status r.2 made
    else (2, made)
  else (status, made)
termination_by argv.length - idx
decreasing_by
  · have hle := le_dbrEvalTerm_idx sys argv quoted (idx + 1) made
    omega
  · have hle := le_dbrSkipTerm_idx argv (idx + 1)
    omega
  · have hle := le_dbrEvalTerm_idx sys argv quoted (idx + 1) made
    omega
  · have hle := le_dbrSkipTerm_idx argv (idx + 1)
    omega

/-- `dbr_eval_expr`: the status, and the tests made. -/
def dbrEvalExpr : Int × List Probe :=
  if argv.length = 0 then (1, [])
  else
    let r := dbrEvalTerm sys argv quoted 0 []
    dbrEvalLoop sys argv quoted r.status r.idx r.made

end Scanner

end Petrush.Mid.DbracketScan
