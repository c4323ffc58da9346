import Petrush.Mid.Dispatcher

/-!
# The substitutions that fail

Expansion reports a failure through two flags that stay set, for an unset parameter
under `-u` and for a division by zero.  Along every expansion a flag is set exactly when
it was set before or one of the substitutions made fails (`Tallied`); the word of a
`:-` or `:+` that is not needed is not substituted.

An operand of `$(( ))` that is unset is 0, and no failure.

## Main results

* `tallied_expandWord`, `tallied_expandCmdArgv`, `tallied_expandCmds`, `tallied_expandToks`.
-/

namespace Petrush.Verified.Failures

open Petrush.Lib.CText
open Petrush.Foundation
open Petrush.Mid.Arith
open Petrush.Mid.Ast
open Petrush.Mid.Dbracket
open Petrush.Mid.Dispatcher
open Petrush.Mid.Expand

/-! ## Failures -/

/-- The substitution is of an unset parameter, under `-u`. -/
def unset (ctx : Ctx) (m : Made) : Bool :=
  match m.subst with
  | .dollar (.var name) => ctx.optU && (varValue ctx name).isNone
  | .dollar (.length name) => ctx.optU && (varValue ctx name).isNone
  | .dollar (.digit d) => ctx.optU && (positionalGet ctx (digitValue d)).isNone
  | _ => false

/-- It divides by zero. -/
def div0 (ctx : Ctx) (m : Made) : Bool :=
  match m.subst with
  | .dollar (.arith inner) =>
      match evalArith ctx.env (positionalGet ctx) inner with
      | .error .div0 => true
      | _ => false
  | _ => false

theorem div0_arith (ctx : Ctx) (inner : Text) (arith nounset : Bool) :
    div0 ctx ⟨.dollar (.arith inner), arith, nounset⟩ = true ↔
      evalArith ctx.env (positionalGet ctx) inner = .error .div0 := by
  show (match evalArith ctx.env (positionalGet ctx) inner with
    | .error .div0 => true
    | _ => false) = true ↔ _
  cases evalArith ctx.env (positionalGet ctx) inner with
  | ok v => simp
  | error e => cases e <;> simp

/-- It fails. -/
def fails (ctx : Ctx) (m : Made) : Bool := unset ctx m || div0 ctx m

/-- The substitutions made between two points of an expansion. -/
def performed (fx fx' : Effects) : List Made := fx'.log.take (fx'.log.length - fx.log.length)

theorem performed_eq {fx fx' : Effects} {l : List Made} (h : fx'.log = l ++ fx.log) :
    performed fx fx' = l := by
  rw [performed, h, List.length_append, Nat.add_sub_cancel, List.take_left]

/-- The flags tell whether a substitution has failed. -/
structure Tallied (ctx : Ctx) (fx fx' : Effects) : Prop where
  log : fx'.log = performed fx fx' ++ fx.log
  nounset : fx'.nounsetError = (fx.nounsetError || (performed fx fx').any (unset ctx))
  arith : fx'.arithError = (fx.arithError || (performed fx fx').any (div0 ctx))

section Tally

variable {ctx : Ctx}

theorem Tallied.refl (fx : Effects) : Tallied ctx fx fx := by
  have hnone : performed fx fx = [] := performed_eq rfl
  constructor
  · rw [hnone]
    rfl
  · rw [hnone]
    exact (Bool.or_false _).symm
  · rw [hnone]
    exact (Bool.or_false _).symm

theorem Tallied.trans {fx fx' fx'' : Effects} (h : Tallied ctx fx fx') (k : Tallied ctx fx' fx'') :
    Tallied ctx fx fx'' := by
  have hlog : fx''.log = (performed fx' fx'' ++ performed fx fx') ++ fx.log := by
    rw [List.append_assoc, ← h.log, ← k.log]
  have hperformed := performed_eq hlog
  constructor
  · rw [hperformed]
    exact hlog
  · rw [k.nounset, h.nounset, hperformed, List.any_append, Bool.or_assoc, Bool.or_comm (List.any _ _)]
  · rw [k.arith, h.arith, hperformed, List.any_append, Bool.or_assoc, Bool.or_comm (List.any _ _)]

/-- One substitution, with its own failure. -/
theorem Tallied.one {fx fx' : Effects} {x : Subst}
    (hlog : fx'.log = (fx.record x).log)
    (hnounset : fx'.nounsetError = (fx.nounsetError ||
      unset ctx ⟨x, fx.arithError, fx.nounsetError⟩))
    (harith : fx'.arithError = (fx.arithError ||
      div0 ctx ⟨x, fx.arithError, fx.nounsetError⟩)) : Tallied ctx fx fx' := by
  have hperformed : performed fx fx' = [⟨x, fx.arithError, fx.nounsetError⟩] := performed_eq hlog
  constructor
  · rw [hperformed]
    exact hlog
  · rw [hperformed, hnounset, List.any_cons, List.any_nil, Bool.or_false]
  · rw [hperformed, harith, List.any_cons, List.any_nil, Bool.or_false]

/-- One that cannot fail. -/
theorem Tallied.record {fx : Effects} {x : Subst}
    (hunset : unset ctx ⟨x, fx.arithError, fx.nounsetError⟩ = false)
    (hdiv : div0 ctx ⟨x, fx.arithError, fx.nounsetError⟩ = false) :
    Tallied ctx fx (fx.record x) := by
  apply Tallied.one rfl
  · rw [hunset]
    exact (Bool.or_false _).symm
  · rw [hdiv]
    exact (Bool.or_false _).symm

/-- A parameter that may be unset. -/
theorem tallied_orUnset {fx : Effects} {x : Subst} {v : Option Text}
    (hunset : unset ctx ⟨x, fx.arithError, fx.nounsetError⟩ = (ctx.optU && v.isNone))
    (hdiv : div0 ctx ⟨x, fx.arithError, fx.nounsetError⟩ = false) :
    Tallied ctx fx (orUnset ctx v (fx.record x)).2 := by
  cases v with
  | some v =>
      apply Tallied.record
      · rw [hunset]
        exact Bool.and_false _
      · exact hdiv
  | none =>
      show Tallied ctx fx (if ctx.optU then (fx.record x).nounsetFail else fx.record x)
      by_cases hu : ctx.optU = true
      · rw [if_pos hu]
        apply Tallied.one (x := x)
        · rfl
        · rw [hunset, hu]
          exact (Bool.or_true _).symm
        · rw [hdiv]
          exact (Bool.or_false _).symm
      · rw [if_neg hu]
        apply Tallied.record _ hdiv
        rw [hunset, Bool.eq_false_iff.mpr hu]
        rfl

end Tally

/-! ## Expansion -/

section Expansion

variable {w : World} {ctx : Ctx} {word : Text → Effects → Text × Effects}

theorem tallied_evalDollar (hword : ∀ t fx, Tallied ctx fx (word t fx).2) (d : Dollar)
    (fx : Effects) : Tallied ctx fx (evalDollar w ctx word d fx).2 := by
  cases d with
  | length name => exact tallied_orUnset rfl rfl
  | var name => exact tallied_orUnset rfl rfl
  | digit d => exact tallied_orUnset rfl rfl
  | default name inner =>
      have hrecord : Tallied ctx fx (fx.record (.dollar (.default name inner))) :=
        Tallied.record rfl rfl
      simp only [evalDollar]
      split
      · exact hrecord
      · exact hrecord.trans (hword _ _)
  | alternate name inner =>
      have hrecord : Tallied ctx fx (fx.record (.dollar (.alternate name inner))) :=
        Tallied.record rfl rfl
      simp only [evalDollar]
      split
      · exact hrecord.trans (hword _ _)
      · exact hrecord
  | count => exact Tallied.record rfl rfl
  | status => exact Tallied.record rfl rfl
  | flags => exact Tallied.record rfl rfl
  | join => exact Tallied.record rfl rfl
  | cmdsubst inner => exact Tallied.record rfl rfl
  | arith inner =>
      have hdiv := div0_arith ctx inner fx.arithError fx.nounsetError
      simp only [evalDollar]
      cases heval : evalArith ctx.env (positionalGet ctx) inner with
      | ok v =>
          apply Tallied.record rfl
          rw [Bool.eq_false_iff, Ne, hdiv, heval]
          intro h
          contradiction
      | error e =>
          cases e with
          | div0 =>
              show Tallied ctx fx (fx.record (.dollar (.arith inner))).arithFail
              apply Tallied.one (x := .dollar (.arith inner))
              · rfl
              · exact (Bool.or_false _).symm
              · rw [hdiv.mpr heval]
                exact (Bool.or_true _).symm
          | syntaxErr =>
              apply Tallied.record rfl
              rw [Bool.eq_false_iff, Ne, hdiv, heval]
              intro h
              contradiction
          | undefined =>
              apply Tallied.record rfl
              rw [Bool.eq_false_iff, Ne, hdiv, heval]
              intro h
              contradiction

theorem tallied_expandParamsFrom (hword : ∀ t fx, Tallied ctx fx (word t fx).2) (esc : Bool)
    (s : Text) : ∀ skip fx, Tallied ctx fx (expandParamsFrom w ctx word esc skip s fx).2 := by
  induction s with
  | nil => exact fun _ fx => Tallied.refl fx
  | cons c s ih =>
      intro skip fx
      cases skip with
      | succ skip => exact ih skip fx
      | zero =>
          simp only [expandParamsFrom]
          split
          · exact ih _ fx
          · exact (tallied_evalDollar hword _ fx).trans (ih _ _)

theorem tallied_expandWordN (n : Nat) :
    ∀ t fx, Tallied ctx fx (expandWordN w ctx n t fx).2 := by
  induction n with
  | zero => exact fun _ fx => Tallied.refl fx
  | succ n ih =>
      intro t fx
      simp only [expandWordN]
      split
      · exact Tallied.record rfl rfl
      · exact tallied_expandParamsFrom ih false t 0 fx

theorem tallied_expandWord (t : Text) (fx : Effects) : Tallied ctx fx (expandWord w ctx t fx).2 :=
  tallied_expandWordN _ t fx

theorem tallied_expandArgs (argv : List Word) :
    ∀ fx, Tallied ctx fx (expandArgs w ctx argv fx).2 := by
  induction argv with
  | nil => exact Tallied.refl
  | cons word argv ih =>
      intro fx
      have hword : Tallied ctx fx (expandArg w ctx word fx).2 := by
        unfold expandArg
        split
        · exact Tallied.refl fx
        · split
          · exact Tallied.record rfl rfl
          · split
            · exact Tallied.record rfl rfl
            · exact tallied_expandWord word.text fx
      exact hword.trans (ih _)

theorem tallied_expandPath (path : Option Text) (fx : Effects) :
    Tallied ctx fx (expandPath w ctx path fx).2 := by
  cases path with
  | none => exact Tallied.refl fx
  | some path => exact tallied_expandWord path fx

theorem tallied_expandBody (quoted : Bool) (body : Option Text) (fx : Effects) :
    Tallied ctx fx (expandBody w ctx quoted body fx).2 := by
  cases body with
  | none => exact Tallied.refl fx
  | some body =>
      simp only [expandBody]
      split
      · exact Tallied.refl fx
      · exact tallied_expandParamsFrom (tallied_expandWordN _) true body 0 fx

/-- **A command: its words, its redirections and its here-document.** -/
theorem tallied_expandCmdArgv (cmd : Cmd) (fx : Effects) :
    Tallied ctx fx (expandCmdArgv w ctx cmd fx).2 := by
  apply (tallied_expandArgs cmd.argv fx).trans
  apply (tallied_expandPath cmd.redirIn _).trans
  apply (tallied_expandPath cmd.redirOut _).trans
  apply (tallied_expandPath cmd.redirErr _).trans
  exact tallied_expandBody _ _ _

/-- **All stages of a pipeline.** -/
theorem tallied_expandCmds (cmds : List Cmd) :
    ∀ fx, Tallied ctx fx (expandCmds w ctx cmds fx).2 := by
  induction cmds with
  | nil => exact Tallied.refl
  | cons cmd cmds ih =>
      intro fx
      exact (tallied_expandCmdArgv cmd fx).trans (ih _)

/-- **The tokens of `[[`.** -/
theorem tallied_expandToks (db : List Word) :
    ∀ fx, Tallied ctx fx (expandToks w ctx db fx).2 := by
  induction db with
  | nil => exact Tallied.refl
  | cons word db ih =>
      intro fx
      exact (tallied_expandWord word.text fx).trans (ih _)

end Expansion

end Petrush.Verified.Failures
