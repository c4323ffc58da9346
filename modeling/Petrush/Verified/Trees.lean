import Petrush.Mid.Dispatcher
import Petrush.Verified.Idempotence
import Petrush.Verified.InertWords

/-!
# The tree that a run leaves

Expansion writes its result into the syntax tree.  `dispatch_for`, `dispatch_case` and
`call_fn` run copies; the lists of `if` and `while` and the items of a list are run in place,
so the second turn of a `while` finds what the first one has made of it.

A tree lasts when the commands that are run in place have nothing to expand.  Such a tree is
the same behind every run, and a loop over it works, in every turn, on the loop as written.

## Main results

* `dispatchList_lasting` — a tree that lasts is left as it is.
* `loop_asWritten` — a loop over such trees is the loop that copies.
* `fixed_iff` — the commands that no environment changes.
-/

namespace Petrush.Verified.Trees

open Petrush.Lib.CText
open Petrush.Lib.Run
open Petrush.Mid.Ast
open Petrush.Mid.Dispatcher
open Petrush.Mid.Expand
open Petrush.Mid.State
open Petrush.Verified.Arguments (bareWorld)
open Petrush.Verified.Idempotence hiding Plain
open Petrush.Verified.InertWords

/-! ## Commands with nothing to expand -/

/-- Expansion leaves the command alone, in every environment. -/
def Fixed (cmd : Cmd) : Prop := ∀ w ctx fx, expandCmdArgv w ctx cmd fx = (cmd, fx)

/-- There is nothing to expand, in its words, paths and here-document. -/
structure Literal (cmd : Cmd) : Prop extends Settled cmd where
  words : ∀ word ∈ cmd.argv, Inert word

theorem argvOf_argv (w : World) (ctx : Ctx) (cmd : Cmd) (fx : Effects) :
    (expandCmdArgv w ctx cmd fx).1.argv.map Word.text = argvOf w ctx cmd.argv fx := rfl

/-- **The commands that no environment changes** are those with nothing to expand. -/
theorem fixed_iff (cmd : Cmd) : Fixed cmd ↔ Literal cmd := by
  constructor
  · intro h
    have hwords : ∀ word ∈ cmd.argv, Inert word := by
      apply (same_iff_inert cmd.argv).mp
      intro w ctx fx
      rw [← argvOf_argv, h]
    have hsettled := (expandCmdArgv_same bareWorld bareCtx cmd {}
      (flatMap_globArg_inert bareWorld hwords)).mp (h _ _ _)
    exact { hsettled with words := hwords }
  · intro h w ctx fx
    exact (expandCmdArgv_same w ctx cmd fx (flatMap_globArg_inert w h.words)).mpr h.toSettled

theorem Literal.same {cmd : Cmd} (h : Literal cmd) (w : World) (ctx : Ctx) (fx : Effects) :
    expandCmdArgv w ctx cmd fx = (cmd, fx) := (fixed_iff cmd).mpr h w ctx fx

theorem expandCmds_literal {cmds : List Cmd} (h : ∀ cmd ∈ cmds, Literal cmd) (w : World)
    (ctx : Ctx) (fx : Effects) : expandCmds w ctx cmds fx = (cmds, fx) := by
  induction cmds with
  | nil => rfl
  | cons cmd cmds ih =>
      rw [List.forall_mem_cons] at h
      rw [expandCmds, h.1.same]
      simp only [ih h.2]

/-! ## Trees that last -/

/-- What is run in place of the item has nothing to expand.  Bodies of `for`, `case` and
functions are copied, and an item in the background is not touched. -/
inductive Lasting : Item → Prop where
  | pipeline {pl : Pipeline} {cond : RunCond} {background : Bool}
      (h : ∀ cmd ∈ pl.cmds, Literal cmd) : Lasting ⟨.pipeline pl, cond, background⟩
  | background {pl : Pipeline} {cond : RunCond} : Lasting ⟨.pipeline pl, cond, true⟩
  | ifc {arms : List IfArm} {cond : RunCond} {background : Bool}
      (hcond : ∀ arm ∈ arms, ∀ it ∈ arm.cond, Lasting it)
      (hbody : ∀ arm ∈ arms, ∀ it ∈ arm.body, Lasting it) : Lasting ⟨.ifc arms, cond, background⟩
  | wh {test body : PList} {cond : RunCond} {background : Bool}
      (htest : ∀ it ∈ test, Lasting it) (hbody : ∀ it ∈ body, Lasting it) :
      Lasting ⟨.wh test body, cond, background⟩
  | fr {name : Text} {words : List Text} {body : PList} {cond : RunCond} {background : Bool} :
      Lasting ⟨.fr name words body, cond, background⟩
  | fn {name : Text} {body : PList} {cond : RunCond} {background : Bool} :
      Lasting ⟨.fn name body, cond, background⟩
  | cs {word : Text} {arms : List CaseArm} {cond : RunCond} {background : Bool} :
      Lasting ⟨.cs word arms, cond, background⟩
  | db {argv : List Word} {cond : RunCond} {background : Bool} : Lasting ⟨.db argv, cond, background⟩

/-- A list of such items. -/
def LastingList (list : PList) : Prop := ∀ it ∈ list, Lasting it

/-! ## The values of programs -/

/-- Every value that the program returns has the property. -/
def Yields {α : Type} (c : Prog Shell α) (P : α → Prop) : Prop :=
  ∀ s, (c s).Holds (fun a _ => P a) fun _ => True

section Yields

variable {α β : Type} {P : α → Prop} {Q : β → Prop}

theorem Yields.pure {a : α} (h : P a) : Yields (pure a) P := fun _ => h

theorem Yields.cut : Yields (cut : Prog Shell α) P := fun _ => trivial

theorem Yields.bind {c : Prog Shell α} {f : α → Prog Shell β} (hc : Yields c P)
    (hf : ∀ a, P a → Yields (f a) Q) : Yields (c >>= f) Q := by
  intro s
  apply bind_holds
  exact (hc s).imp (fun a t ha => hf a ha t) fun _ he => he

/-- Whatever comes first. -/
theorem Yields.after {c : Prog Shell α} {f : α → Prog Shell β} (hf : ∀ a, Yields (f a) Q) :
    Yields (c >>= f) Q := by
  intro s
  apply bind_holds
  cases c s with
  | ok t a => exact hf a t
  | exit t code => trivial
  | cut t => trivial

theorem Yields.ite {p : Prop} [Decidable p] {c d : Prog Shell α} (hc : p → Yields c P)
    (hd : ¬ p → Yields d P) : Yields (if p then c else d) P := by
  by_cases hp : p
  · rw [if_pos hp]
    exact hc hp
  · rw [if_neg hp]
    exact hd hp

end Yields

section Runs

variable {O : Outside} {dl : PList → Prog Shell (Int × PList)}

/-! ## Pipelines -/

theorem expanding_yields {α : Type} {f : World → Ctx → Effects → α × Effects} {P : α → Prop}
    (h : ∀ w ctx fx, P (f w ctx fx).1) : Yields (expanding O dl f) P := by
  apply Yields.after
  intro s
  apply Yields.after
  intro _
  apply Yields.after
  exact fun _ => Yields.pure (h _ _ _)

theorem dispatchCommand_literal {cmd : Cmd} (h : Literal cmd) :
    Yields (dispatchCommand O dl cmd) fun r => r.2 = cmd := by
  apply Yields.ite
  · exact fun _ => Yields.pure rfl
  · intro _
    apply Yields.bind (P := fun cmd' => cmd' = cmd)
    · apply expanding_yields
      intro w ctx fx
      rw [h.same]
    · rintro _ rfl
      apply Yields.after
      intro bad
      apply Yields.ite
      · exact fun _ => Yields.pure rfl
      · intro _
        apply Yields.after
        intro _
        apply Yields.after
        exact fun _ => Yields.pure rfl

theorem dispatchPipeline_literal {pl : Pipeline} (h : ∀ cmd ∈ pl.cmds, Literal cmd) :
    Yields (dispatchPipeline O dl pl) fun r => r.2 = pl := by
  apply Yields.ite
  · exact fun _ => Yields.pure rfl
  · intro _
    apply Yields.after
    intro _
    apply Yields.bind (P := fun cmds => cmds = pl.cmds)
    · apply expanding_yields
      intro w ctx fx
      rw [expandCmds_literal h]
    · rintro cmds rfl
      apply Yields.after
      intro bad
      apply Yields.ite
      · exact fun _ => Yields.pure rfl
      · intro _
        split
        next cmd hcmds =>
          have hcmd : Literal cmd := h cmd (by rw [hcmds]; exact List.mem_singleton_self cmd)
          apply Yields.bind (dispatchCommand_literal hcmd)
          rintro r hr
          refine Yields.pure ?_
          rw [hr, ← hcmds]
        · apply Yields.after
          intro _
          apply Yields.after
          exact fun _ => Yields.pure rfl

/-! ## Compounds -/

section Lists

variable (hdl : ∀ list, LastingList list → Yields (dl list) fun r => r.2 = list)

include hdl

theorem exempt_lasting {list : PList} (h : LastingList list) :
    Yields (exempt (dl list)) fun r => r.2 = list := by
  apply Yields.after
  intro _
  apply Yields.bind (hdl _ h)
  intro r hr
  apply Yields.after
  exact fun _ => Yields.pure hr

theorem dispatchIf_lasting {arms : List IfArm} (hcond : ∀ arm ∈ arms, LastingList arm.cond)
    (hbody : ∀ arm ∈ arms, LastingList arm.body) :
    Yields (dispatchIf dl arms) fun r => r.2 = arms := by
  induction arms with
  | nil => exact Yields.pure rfl
  | cons arm arms ih =>
      rw [List.forall_mem_cons] at hcond hbody
      obtain ⟨test, body, isElse⟩ := arm
      cases isElse with
      | true =>
          apply Yields.bind (hdl _ hbody.1)
          rintro r rfl
          exact Yields.pure rfl
      | false =>
          apply Yields.bind (exempt_lasting hdl hcond.1)
          rintro cond rfl
          apply Yields.after
          intro s
          apply Yields.ite
          · exact fun _ => Yields.pure rfl
          · intro _
            apply Yields.ite
            · exact fun _ => Yields.pure rfl
            · intro _
              apply Yields.ite
              · intro _
                apply Yields.bind (hdl _ hbody.1)
                rintro r rfl
                apply Yields.after
                exact fun _ => Yields.pure rfl
              · intro _
                apply Yields.bind (ih hcond.2 hbody.2)
                rintro r rfl
                exact Yields.pure rfl

theorem dispatchWhile_lasting {test body : PList} (htest : LastingList test)
    (hbody : LastingList body) (turns : Nat) : ∀ status,
    Yields (dispatchWhile dl turns status test body) fun r => r.2 = (test, body) := by
  induction turns with
  | zero => exact fun _ => Yields.cut
  | succ turns ih =>
      intro status
      apply Yields.bind (exempt_lasting hdl htest)
      rintro st rfl
      apply Yields.after
      intro s
      apply Yields.ite
      · exact fun _ => Yields.pure rfl
      · intro _
        apply Yields.ite
        · exact fun _ => Yields.pure rfl
        · intro _
          apply Yields.ite
          · exact fun _ => Yields.pure rfl
          · intro _
            apply Yields.bind (hdl _ hbody)
            rintro r rfl
            apply Yields.after
            intro u
            apply Yields.ite
            · exact fun _ => Yields.pure rfl
            · intro _
              apply Yields.ite
              · exact fun _ => Yields.pure rfl
              · exact fun _ => ih r.1

/-! ## Lists -/

theorem dispatchKind_lasting {it : Item} (h : Lasting it) (turns : Nat) :
    Yields (dispatchKind O dl turns it) fun r => r.2 = it := by
  cases h with
  | @pipeline pl cond background h =>
      apply Yields.ite
      · intro _
        apply Yields.after
        exact fun _ => Yields.pure rfl
      · intro _
        apply Yields.bind (dispatchPipeline_literal h)
        rintro r rfl
        exact Yields.pure rfl
  | background =>
      apply Yields.after
      exact fun _ => Yields.pure rfl
  | ifc hcond hbody =>
      apply Yields.bind (dispatchIf_lasting hdl hcond hbody)
      rintro r rfl
      exact Yields.pure rfl
  | wh htest hbody =>
      apply Yields.bind (dispatchWhile_lasting hdl htest hbody turns 0)
      intro r hr
      refine Yields.pure ?_
      rw [hr]
  | fr =>
      apply Yields.after
      exact fun _ => Yields.pure rfl
  | fn =>
      apply Yields.after
      exact fun _ => Yields.pure rfl
  | cs =>
      apply Yields.after
      exact fun _ => Yields.pure rfl
  | db =>
      apply Yields.after
      exact fun _ => Yields.pure rfl

theorem dispatchItems_lasting (turns : Nat) {items : PList} (h : LastingList items) :
    ∀ status first, Yields (dispatchItems O dl turns status first items) fun r => r.2 = items := by
  induction items with
  | nil => exact fun _ _ => Yields.pure rfl
  | cons it items ih =>
      intro status first
      rw [LastingList, List.forall_mem_cons] at h
      apply Yields.ite
      · intro _
        apply Yields.bind (ih h.2 status false)
        rintro r rfl
        exact Yields.pure rfl
      · intro _
        apply Yields.bind (P := fun r => r.2 = it)
        · apply Yields.after
          exact fun _ => dispatchKind_lasting hdl h.1 turns
        rintro r rfl
        apply Yields.after
        intro _
        apply Yields.after
        intro _
        apply Yields.after
        intro s
        apply Yields.ite
        · exact fun _ => Yields.pure rfl
        · intro _
          apply Yields.after
          intro _
          apply Yields.after
          intro u
          apply Yields.ite
          · exact fun _ => Yields.pure rfl
          · intro _
            apply Yields.after
            intro _
            apply Yields.bind (ih h.2 r.1 false)
            rintro rest rfl
            exact Yields.pure rfl

end Lists

end Runs

/-- **A tree that lasts is left as it is** by every run of it, to any depth. -/
theorem dispatchList_lasting (O : Outside) (n : Nat) : ∀ list, LastingList list →
    Yields (dispatchList O n list) fun r => r.2 = list := by
  induction n with
  | zero => exact fun _ _ => Yields.cut
  | succ n ih => exact fun list h => dispatchItems_lasting ih n h 0 true

/-! ## Loops -/

/-- A loop that runs copies of its lists, as `dispatch_for` does. -/
def whileAsWritten (dl : PList → Prog Shell (Int × PList)) (test body : PList) :
    Nat → Int → Prog Shell (Int × PList × PList)
  | 0, _ => cut
  | n + 1, status => do
      let st ← exempt (dl test)
      let s ← look id
      if s.returning then pure (s.returnStatus, test, body)
      else if s.shellAbort then pure (st.1, test, body)
      else if st.1 ≠ 0 then pure (status, test, body)
      else do
        let r ← dl body
        let s ← look id
        if s.returning then pure (s.returnStatus, test, body)
        else if s.shellAbort then pure (r.1, test, body)
        else whileAsWritten dl test body n r.1

/-- Programs that agree behind every value of a program are the same. -/
theorem Yields.bind_congr {α β : Type} {P : α → Prop} {c : Prog Shell α} {f g : α → Prog Shell β}
    (hc : Yields c P) (h : ∀ a, P a → f a = g a) : c >>= f = c >>= g := by
  funext s
  have hs := hc s
  simp only [bind_apply, Prog.bind]
  cases hrun : c s with
  | ok t a =>
      rw [hrun] at hs
      exact congrFun (h a hs) t
  | exit t code => rfl
  | cut t => rfl

/-- A loop over lists that last. -/
theorem dispatchWhile_asWritten (O : Outside) (n : Nat) {test body : PList}
    (htest : LastingList test) (hbody : LastingList body) (turns : Nat) : ∀ status,
    dispatchWhile (dispatchList O n) turns status test body =
      whileAsWritten (dispatchList O n) test body turns status := by
  have hdl := dispatchList_lasting O n
  induction turns with
  | zero => exact fun _ => rfl
  | succ turns ih =>
      intro status
      refine Yields.bind_congr (exempt_lasting hdl htest) ?_
      rintro ⟨st, _⟩ rfl
      refine congrArg (look id >>= ·) (funext fun s => ?_)
      refine if_congr Iff.rfl rfl (if_congr Iff.rfl rfl (if_congr Iff.rfl rfl ?_))
      refine Yields.bind_congr (hdl _ hbody) ?_
      rintro ⟨r, _⟩ rfl
      refine congrArg (look id >>= ·) (funext fun u => ?_)
      exact if_congr Iff.rfl rfl (if_congr Iff.rfl rfl (ih r))

/-- **Every turn of a loop works on the loop as written**, when its lists last: whatever
its turns do, and however many there are, and the loop is left as it was. -/
theorem loop_asWritten (O : Outside) (n : Nat) {test body : PList} (htest : LastingList test)
    (hbody : LastingList body) (turns : Nat) (status : Int) :
    dispatchWhile (dispatchList O n) turns status test body =
        whileAsWritten (dispatchList O n) test body turns status ∧
      Yields (dispatchWhile (dispatchList O n) turns status test body)
        fun r => r.2 = (test, body) :=
  ⟨dispatchWhile_asWritten O n htest hbody turns status,
    dispatchWhile_lasting (dispatchList_lasting O n) htest hbody turns status⟩

/-- `echo '$x'` -/
def echoDollar : PList :=
  [⟨.pipeline ⟨[{ argv := [⟨"echo".toList, .single⟩, ⟨"$x".toList, .single⟩] }]⟩, .always, false⟩]

theorem loop_asWritten_echoDollar :
    dispatchWhile (dispatchList .quiet 3) 8 0 echoDollar echoDollar =
        whileAsWritten (dispatchList .quiet 3) echoDollar echoDollar 8 0 ∧
      Yields (dispatchWhile (dispatchList .quiet 3) 8 0 echoDollar echoDollar)
        fun r => r.2 = (echoDollar, echoDollar) := by
  have hlasts : LastingList echoDollar := by
    intro it hit
    obtain rfl := List.mem_singleton.mp hit
    apply Lasting.pipeline
    intro cmd hcmd
    obtain rfl := List.mem_singleton.mp hcmd
    have hinert : ∀ word ∈ [(⟨"echo".toList, .single⟩ : Word), ⟨"$x".toList, .single⟩],
        Inert word := by
      simp only [List.forall_mem_cons, List.not_mem_nil, false_implies, implies_true, and_true]
      exact ⟨Or.inl rfl, Or.inl rfl⟩
    exact ⟨⟨fun word hword => (hinert word hword).imp_right And.left, nofun, nofun, nofun, nofun⟩,
      hinert⟩
  exact loop_asWritten .quiet 3 hlasts hlasts 8 0

end Petrush.Verified.Trees
