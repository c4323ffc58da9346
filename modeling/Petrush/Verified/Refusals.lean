import Petrush.Verified.Failures
import Petrush.Verified.Trace

/-!
# Commands that are refused

Behind every expansion of a command, a `case` word or the tokens of `[[`, the error
flags are taken, and the command is refused when one was set.  From a state with clear
flags that is when one of its own substitutions fails (`checked_spec`), so that failures
do not spread as long as every run keeps the flags clear, which they are at every note
of the process (`tidy_closed`).

## Main results

* `refused_iff`: when a pipeline, a `case` and a `[[` are refused, and what is left.
* `operand_not_refused`: an unset operand of `$(( ))`.
-/

namespace Petrush.Verified.Refusals

open Petrush.Lib.CText
open Petrush.Lib.Run
open Petrush.Foundation
open Petrush.Foundation.Process
open Petrush.Mid.Ast
open Petrush.Mid.Dbracket
open Petrush.Mid.Dispatcher
open Petrush.Mid.Expand
open Petrush.Mid.Glob
open Petrush.Mid.Parser
open Petrush.Mid.State
open Petrush.Verified.Failures
open Petrush.Verified.Record
open Petrush.Verified.Trace
open Petrush.Verified.Traversal

/-! ## States -/

/-- Neither error flag is set. -/
structure Clear (s : Shell) : Prop where
  arith : s.fx.arithError = false
  nounset : s.fx.nounsetError = false

/-- The notes of a process that runs something, not those of an expansion. -/
def busy : Event → Bool
  | .dispatch _ | .abort | .forked .cmdsubst _ => false
  | _ => true

/-- Only substitutions have run, their errors are taken, and nothing else is changed but
that an abort may be raised. -/
structure Settled (s t : Shell) (aborts : Bool) : Prop extends Stays s t where
  rest : t = { s with log := t.log, fx := t.fx, shellAbort := s.shellAbort || aborts }
  clear : Clear t
  idle : ¬ Own busy s t

/-- The substitutions of an expansion from a state. -/
def made {α : Type} (O : Outside) (f : World → Ctx → Effects → α × Effects) (s : Shell) :
    List Made := performed s.fx (f (worldOf O s) s.ctx s.fx).2

/-! ## An expansion and its check -/

section Checked

variable {O : Outside} {dl : PList → Prog Shell (Int × PList)} {α : Type}

/-- The children of substitutions leave nothing but the record. -/
structure Spawned (s t : Shell) : Prop extends Stays s t where
  rest : t = { s with log := t.log }
  idle : ¬ Own busy s t

theorem Spawned.refl (s : Shell) : Spawned s s := ⟨Stays.same rfl rfl rfl, rfl, own_same rfl⟩

theorem Spawned.trans {s t u : Shell} (h : Spawned s t) (k : Spawned t u) : Spawned s u := by
  refine ⟨h.toStays.trans k.toStays, ?_, ?_⟩
  · rw [k.rest, h.rest]
  · rw [own_trans h.toStays k.toGrew, not_or]
    exact ⟨h.idle, k.idle⟩

theorem grew_cmdsubstChild (hdl : ∀ l, Keeps Stays Grew (dl l)) (inner : Text) :
    Keeps Stays Grew (cmdsubstChild dl inner) :=
  keeps_cmdsubstChild grew_base (Keeps.exit grew_composes) hdl inner

theorem spawnSubst_cases (m : Made) :
    spawnSubst dl m = pure () ∨ ∃ prepare inner, Prepares .cmdsubst prepare ∧
      spawnSubst dl m = fork .cmdsubst prepare (cmdsubstChild dl inner) := by
  unfold spawnSubst
  split
  · exact .inr ⟨_, _, .cmdsubst m, rfl⟩
  · exact .inl rfl

theorem spawnSubst_spec (hdl : ∀ l, Keeps Stays Grew (dl l)) (m : Made) (s : Shell) :
    ∃ t, spawnSubst dl m s = .ok t () ∧ Spawned s t := by
  rcases spawnSubst_cases m with h | ⟨prepare, inner, hp, h⟩
  · rw [h]
    exact ⟨s, rfl, Spawned.refl s⟩
  · have hchild := grew_cmdsubstChild hdl inner
    rw [h]
    refine ⟨_, rfl, grew_fork hp hchild s, rfl, ?_⟩
    show ¬ Own busy s (forked .cmdsubst prepare (cmdsubstChild dl inner) s)
    rw [own_forked hp hchild]
    exact Bool.false_ne_true

theorem forEach_spawnSubst (hdl : ∀ l, Keeps Stays Grew (dl l)) (ms : List Made) :
    ∀ s, ∃ t, forEach (spawnSubst dl) ms s = .ok t () ∧ Spawned s t := by
  induction ms with
  | nil => exact fun s => ⟨s, rfl, Spawned.refl s⟩
  | cons m ms ih =>
      intro s
      obtain ⟨t, hspawn, ht⟩ := spawnSubst_spec hdl m s
      obtain ⟨u, hrest, hu⟩ := ih t
      refine ⟨u, ?_, ht.trans hu⟩
      show Prog.bind _ _ s = _
      rw [Prog.bind, hspawn]
      exact hrest

/-- What is left of an expansion. -/
theorem expanding_spec (hdl : ∀ l, Keeps Stays Grew (dl l))
    (f : World → Ctx → Effects → α × Effects) (s : Shell) :
    ∃ t, Spawned s t ∧ expanding O dl f s =
      .ok { t with fx := (f (worldOf O s) s.ctx s.fx).2 } (f (worldOf O s) s.ctx s.fx).1 := by
  have hspawn : ∀ ms, ∃ t, (onlyIf (s.cmdsubstDepth < cmdsubstMaxDepth)
      (forEach (spawnSubst dl) ms)) s = .ok t () ∧ Spawned s t := by
    intro ms
    unfold onlyIf
    split
    · exact forEach_spawnSubst hdl ms s
    · exact ⟨s, rfl, Spawned.refl s⟩
  obtain ⟨t, hrun, ht⟩ := hspawn (((f (worldOf O s) s.ctx s.fx).2.log.take
    ((f (worldOf O s) s.ctx s.fx).2.log.length - s.fx.log.length)).reverse)
  refine ⟨t, ht, ?_⟩
  show Prog.bind _ _ s = _
  simp only [id]
  rw [Prog.bind, hrun]
  rfl

/-- The state whose errors are taken. -/
def taken (s : Shell) : Shell :=
  { s with fx := { s.fx with arithError := false, nounsetError := false } }

theorem takeExpandErrors_eq (s : Shell) :
    takeExpandErrors s =
      .ok (if s.fx.nounsetError = true then { noted .abort (taken s) with shellAbort := true }
        else taken s) (s.fx.arithError || s.fx.nounsetError) := by
  show Prog.bind (onlyIf (s.fx.nounsetError = true) shellAbortRaise) _ (taken s) = _
  unfold onlyIf
  by_cases h : s.fx.nounsetError = true
  · rw [if_pos h, if_pos h]
    rfl
  · rw [if_neg h, if_neg h]
    rfl

theorem any_fails (ctx : Ctx) (ms : List Made) :
    ms.any (fails ctx) = (ms.any (unset ctx) || ms.any (div0 ctx)) := by
  induction ms with
  | nil => rfl
  | cons m ms ih =>
      rw [List.any_cons, List.any_cons, List.any_cons, ih, fails, Bool.or_assoc, Bool.or_assoc,
        Bool.or_left_comm (div0 ctx m)]

/-- **From clear flags an expansion is refused when one of its substitutions fails, and
the abort is raised when one is of an unset parameter.** -/
theorem checked_spec (hdl : ∀ l, Keeps Stays Grew (dl l))
    {f : World → Ctx → Effects → α × Effects}
    (hf : ∀ w ctx fx, Tallied ctx fx (f w ctx fx).2) {s : Shell} (hs : Clear s) :
    ∃ t, Settled s t ((made O f s).any (unset s.ctx)) ∧
      checked O dl f s = .ok t ((f (worldOf O s) s.ctx s.fx).1, (made O f s).any (fails s.ctx)) := by
  obtain ⟨t, ht, hexpand⟩ := expanding_spec (O := O) hdl f s
  have htally := hf (worldOf O s) s.ctx s.fx
  have hunset : (f (worldOf O s) s.ctx s.fx).2.nounsetError = (made O f s).any (unset s.ctx) := by
    rw [htally.nounset, hs.nounset, Bool.false_or]
    rfl
  have hdiv : (f (worldOf O s) s.ctx s.fx).2.arithError = (made O f s).any (div0 s.ctx) := by
    rw [htally.arith, hs.arith, Bool.false_or]
    rfl
  have hbad : ((f (worldOf O s) s.ctx s.fx).2.arithError ||
      (f (worldOf O s) s.ctx s.fx).2.nounsetError) = (made O f s).any (fails s.ctx) := by
    rw [hunset, hdiv, any_fails, Bool.or_comm]
  have hrun : checked O dl f s = .ok
      (takeExpandErrors { t with fx := (f (worldOf O s) s.ctx s.fx).2 }).state
      ((f (worldOf O s) s.ctx s.fx).1, (made O f s).any (fails s.ctx)) := by
    show Prog.bind (expanding O dl f) _ s = _
    rw [Prog.bind, hexpand]
    show Prog.bind takeExpandErrors _ _ = _
    rw [Prog.bind, takeExpandErrors_eq, ← hbad]
    rfl
  refine ⟨_, ?_, hrun⟩
  let u := taken { t with fx := (f (worldOf O s) s.ctx s.fx).2 }
  have hu : Stays s u := ⟨⟨ht.log, ht.below⟩, ht.proc, ht.frames⟩
  have hrest : u = { s with log := u.log, fx := u.fx } := by
    show taken { t with fx := (f (worldOf O s) s.ctx s.fx).2 } = _
    rw [ht.rest]
    rfl
  rw [takeExpandErrors_eq]
  show Settled s (if (f (worldOf O s) s.ctx s.fx).2.nounsetError = true then
    { noted .abort u with shellAbort := true } else u) _
  rw [hunset]
  cases (made O f s).any (unset s.ctx) with
  | true =>
      have habort := hu.trans (Stays.noted .abort u)
      rw [if_pos rfl]
      refine ⟨⟨⟨habort.log, habort.below⟩, habort.proc, habort.frames⟩, ?_, ⟨rfl, rfl⟩, ?_⟩
      · rw [Bool.or_true, hrest]
        rfl
      · show ¬ Own busy s (noted .abort u)
        rw [own_trans hu (Stays.noted .abort u).toGrew, not_or, own_noted]
        exact ⟨ht.idle, Bool.false_ne_true⟩
  | false =>
      rw [if_neg Bool.false_ne_true]
      refine ⟨hu, ?_, ⟨rfl, rfl⟩, ht.idle⟩
      rw [Bool.or_false]
      exact hrest

/-- An expansion whose command is refused when it fails. -/
theorem guarded {β : Type} (hdl : ∀ l, Keeps Stays Grew (dl l))
    {f : World → Ctx → Effects → α × Effects}
    (hf : ∀ w ctx fx, Tallied ctx fx (f w ctx fx).2) {s : Shell} (hs : Clear s)
    (refused : α → β) (rest : α → Prog Shell β) :
    Settled s (checked O dl f s).state ((made O f s).any (unset s.ctx)) ∧
      (checked O dl f >>= fun r => if r.2 then pure (refused r.1) else rest r.1) s =
        if (made O f s).any (fails s.ctx) = true then
          .ok (checked O dl f s).state (refused (f (worldOf O s) s.ctx s.fx).1)
        else rest (f (worldOf O s) s.ctx s.fx).1 (checked O dl f s).state := by
  obtain ⟨t, ht, hrun⟩ := checked_spec (O := O) hdl hf hs
  have hstate : (checked O dl f s).state = t := by
    rw [hrun]
    rfl
  rw [hstate]
  refine ⟨ht, ?_⟩
  show Prog.bind (checked O dl f) _ s = _
  rw [Prog.bind, hrun]
  show (if (made O f s).any (fails s.ctx) = true then pure (refused _) else rest _ : Prog Shell β) t = _
  split <;> rfl

end Checked

/-! ## What is refused -/

section Constructs

variable {O : Outside} {dl : PList → Prog Shell (Int × PList)}

/-- `dispatch_case` behind its word. -/
def caseArms (dl : PList → Prog Shell (Int × PList)) (arms : List CaseArm) (word : Text) :
    Prog Shell Int :=
  match arms.find? fun arm => arm.patterns.any fun pat => casePatMatch pat word with
  | none => pure 0
  | some arm => do
      let r ← dl arm.body
      let s ← look id
      pure (if s.returning then s.returnStatus else r.1)

theorem dispatchCase_spec (hdl : ∀ l, Keeps Stays Grew (dl l)) {s : Shell} (hs : Clear s)
    (word : Text) (arms : List CaseArm) :
    ∃ t, Settled s t ((made O (fun w ctx fx => expandWord w ctx word fx) s).any (unset s.ctx)) ∧
      dispatchCase O dl word arms s =
        if (made O (fun w ctx fx => expandWord w ctx word fx) s).any (fails s.ctx) = true then .ok t 1
        else caseArms dl arms (expandWord (worldOf O s) s.ctx word s.fx).1 t := by
  have heq : dispatchCase O dl word arms =
      checked O dl (fun w ctx fx => expandWord w ctx word fx) >>= fun r =>
        if r.2 then pure 1 else caseArms dl arms r.1 :=
    checked_bind (fun w ctx fx => expandWord w ctx word fx) fun word bad =>
      if bad = true then pure 1 else caseArms dl arms word
  rw [heq]
  exact ⟨_, guarded hdl (fun _ _ => tallied_expandWord word) hs (fun _ => 1) (caseArms dl arms)⟩

theorem runDbracket_spec (hdl : ∀ l, Keeps Stays Grew (dl l)) {s : Shell} (hs : Clear s)
    (db : List Word) :
    ∃ t, Settled s t ((made O (fun w ctx fx => expandToks w ctx db fx) s).any (unset s.ctx)) ∧
      runDbracket O dl db s =
        if (made O (fun w ctx fx => expandToks w ctx db fx) s).any (fails s.ctx) = true then .ok t 1
        else .ok t (dbrEvalExpr (O.files t.log) shown (expandToks (worldOf O s) s.ctx db s.fx).1) := by
  by_cases hdb : db = []
  · rw [hdb]
    have hnone : made O (fun w ctx fx => expandToks w ctx [] fx) s = [] := performed_eq rfl
    rw [hnone]
    refine ⟨s, ⟨Stays.same rfl rfl rfl, ?_, hs, own_same rfl⟩, rfl⟩
    exact congrArg (fun b => { s with shellAbort := b }) (Bool.or_false s.shellAbort).symm
  · have heq : runDbracket O dl db =
        checked O dl (fun w ctx fx => expandToks w ctx db fx) >>= fun r =>
          if r.2 then pure 1
          else look fun s => dbrEvalExpr (O.files s.log) shown r.1 := by
      unfold runDbracket
      rw [if_neg hdb]
      exact checked_bind (fun w ctx fx => expandToks w ctx db fx) fun toks bad =>
        if bad = true then pure 1 else look fun s => dbrEvalExpr (O.files s.log) shown toks
    rw [heq]
    exact ⟨_, guarded (O := O) hdl (f := fun w ctx fx => expandToks w ctx db fx)
      (fun _ _ => tallied_expandToks db) hs (fun _ => (1 : Int)) fun toks =>
        look fun s => dbrEvalExpr (O.files s.log) shown toks⟩

/-! ## Pipelines -/

/-- A construct returns an error, and nothing has run but substitutions. -/
def Refused {α : Type} (s : Shell) (o : Outcome Shell (Int × α)) : Prop :=
  ∃ t code v, o = .ok t (code, v) ∧ code ≠ 0 ∧ ¬ Own busy s t

/-- The expansion of all stages. -/
def stagesExpansion (pl : Pipeline) (w : World) (ctx : Ctx) (fx : Effects) : List Cmd × Effects :=
  expandCmds w ctx pl.cmds fx

/-- The expansion of `dispatch_command`. -/
def commandExpansion (cmd : Cmd) (w : World) (ctx : Ctx) (fx : Effects) : Cmd × Effects :=
  expandCmdArgv w ctx cmd fx

/-- The substitutions of a pipeline: those of all its stages, and, when these succeed and
the only stage still has words, those of its second expansion. -/
def pipelineMade (O : Outside) (dl : PList → Prog Shell (Int × PList)) (pl : Pipeline)
    (s : Shell) : List Made :=
  let start := noted (.dispatch pl) s
  let first := made O (stagesExpansion pl) start
  if first.any (fails s.ctx) then first
  else
    match (stagesExpansion pl (worldOf O start) s.ctx s.fx).1 with
    | [cmd] =>
        if cmd.argv = [] then first
        else made O (commandExpansion cmd) (checked O dl (stagesExpansion pl) start).state ++ first
    | _ => first

/-- `dispatch_command` behind its expansion, with the announcement. -/
def commandRest (O : Outside) (dl : PList → Prog Shell (Int × PList)) (cmd : Cmd) :
    Prog Shell (Int × Cmd) := do
  announce cmd
  let status ← runCommand O dl cmd
  pure (status, cmd)

/-- `dispatch_pipeline` behind its expansion. -/
def pipelineRest (O : Outside) (dl : PList → Prog Shell (Int × PList)) (cmds : List Cmd) :
    Prog Shell (Int × Pipeline) :=
  match cmds with
  | [cmd] => do
      let r ← dispatchCommand O dl cmd
      pure (r.1, ⟨[r.2]⟩)
  | _ => do
      forEach announce cmds
      let status ← executePipeline O dl ⟨cmds⟩
      pure (status, ⟨cmds⟩)

theorem dispatchCommand_spec (hdl : ∀ l, Keeps Stays Grew (dl l)) {s : Shell} (hs : Clear s)
    {cmd : Cmd} (hargv : cmd.argv ≠ []) :
    Settled s (checked O dl (commandExpansion cmd) s).state
        ((made O (commandExpansion cmd) s).any (unset s.ctx)) ∧
      dispatchCommand O dl cmd s =
        if (made O (commandExpansion cmd) s).any (fails s.ctx) = true then
          .ok (checked O dl (commandExpansion cmd) s).state
            (1, (commandExpansion cmd (worldOf O s) s.ctx s.fx).1)
        else commandRest O dl (commandExpansion cmd (worldOf O s) s.ctx s.fx).1
          (checked O dl (commandExpansion cmd) s).state := by
  have heq : dispatchCommand O dl cmd =
      checked O dl (commandExpansion cmd) >>= fun r =>
        if r.2 then pure (1, r.1) else commandRest O dl r.1 := by
    unfold dispatchCommand
    rw [if_neg hargv]
    exact checked_bind (commandExpansion cmd) fun cmd bad =>
      if bad = true then pure (1, cmd) else commandRest O dl cmd
  rw [heq]
  exact guarded hdl (fun _ _ => tallied_expandCmdArgv cmd) hs (fun cmd => (1, cmd)) _

theorem dispatchPipeline_spec (hdl : ∀ l, Keeps Stays Grew (dl l)) {s : Shell} (hs : Clear s)
    {pl : Pipeline} (hcmds : pl.cmds ≠ []) :
    Settled (noted (.dispatch pl) s) (checked O dl (stagesExpansion pl) (noted (.dispatch pl) s)).state
        ((made O (stagesExpansion pl) (noted (.dispatch pl) s)).any (unset s.ctx)) ∧
      dispatchPipeline O dl pl s =
        if (made O (stagesExpansion pl) (noted (.dispatch pl) s)).any (fails s.ctx) = true then
          .ok (checked O dl (stagesExpansion pl) (noted (.dispatch pl) s)).state
            (1, ⟨(stagesExpansion pl (worldOf O (noted (.dispatch pl) s)) s.ctx s.fx).1⟩)
        else pipelineRest O dl
          (stagesExpansion pl (worldOf O (noted (.dispatch pl) s)) s.ctx s.fx).1
          (checked O dl (stagesExpansion pl) (noted (.dispatch pl) s)).state := by
  have heq : dispatchPipeline O dl pl s =
      (checked O dl (stagesExpansion pl) >>= fun r =>
        if r.2 then pure (1, ⟨r.1⟩) else pipelineRest O dl r.1) (noted (.dispatch pl) s) := by
    unfold dispatchPipeline
    rw [if_neg hcmds]
    show (do
      let cmds ← expanding O dl (stagesExpansion pl)
      let bad ← takeExpandErrors
      if bad then pure (1, ⟨cmds⟩) else pipelineRest O dl cmds : Prog Shell (Int × Pipeline))
        (noted (.dispatch pl) s) = _
    rw [checked_bind]
  have hstart : Clear (noted (.dispatch pl) s) := ⟨hs.arith, hs.nounset⟩
  rw [heq]
  exact guarded (O := O) hdl (f := stagesExpansion pl) (fun _ _ => tallied_expandCmds pl.cmds) hstart
    (fun cmds => ((1 : Int), (⟨cmds⟩ : Pipeline))) (pipelineRest O dl)

theorem Settled.ofNoted {s t : Shell} {a : Bool} {pl : Pipeline}
    (h : Settled (noted (.dispatch pl) s) t a) : Settled s t a := by
  have hnoted := Stays.noted (.dispatch pl) s
  refine ⟨hnoted.trans h.toStays, h.rest, h.clear, ?_⟩
  rw [own_trans hnoted h.toGrew, not_or, own_noted]
  exact ⟨Bool.false_ne_true, h.idle⟩

theorem Settled.ctx {s t : Shell} {a : Bool} (h : Settled s t a) : t.ctx = s.ctx := by
  rw [h.rest]

theorem Settled.trans {s t u : Shell} {a b : Bool} (h : Settled s t a) (k : Settled t u b) :
    Settled s u (a || b) := by
  refine ⟨h.toStays.trans k.toStays, ?_, k.clear, ?_⟩
  · rw [k.rest, h.rest, ← Bool.or_assoc]
  · rw [own_trans h.toStays k.toGrew, not_or]
    exact ⟨h.idle, k.idle⟩

/-- A program that begins with a note. -/
theorem own_emit {p : Event → Bool} {α : Type} {e : Event} {c : Prog Shell α}
    (hc : Keeps Stays Grew c) (he : p e = true) (s : Shell) :
    Own p s ((emit e >>= fun _ => c) s).state :=
  (own_trans (Stays.noted e s) (grew_state hc (noted e s))).mpr (.inl ((own_noted e s).mpr he))

/-- A command that is announced. -/
theorem busy_announce {α : Type} {c : Prog Shell α} (hc : Keeps Stays Grew c) (cmd : Cmd)
    (s : Shell) : Own busy s ((announce cmd >>= fun _ => c) s).state := by
  have hannounce : Keeps Stays Grew (xtracePrintCmd cmd) := by
    apply grew_base.seq (grew_base.read _)
    intro s
    exact grew_base.when (grew_emit _)
  unfold announce
  rw [bind_assoc]
  exact own_emit (grew_base.seq hannounce fun _ => hc) rfl s

theorem busy_commandRest (hdl : ∀ l, Keeps Stays Grew (dl l)) (cmd : Cmd) (s : Shell) :
    Own busy s (commandRest O dl cmd s).state := by
  apply busy_announce
  exact grew_base.seq (keeps_runCommand (grew_closed O) hdl cmd) fun _ => grew_base.ret _

theorem grew_commandRest (hdl : ∀ l, Keeps Stays Grew (dl l)) (cmd : Cmd) :
    Keeps Stays Grew (commandRest O dl cmd) := by
  apply grew_base.seq ((grew_closed O).announce cmd)
  intro _
  exact grew_base.seq (keeps_runCommand (grew_closed O) hdl cmd) fun _ => grew_base.ret _

theorem grew_pipelineRest (hdl : ∀ l, Keeps Stays Grew (dl l)) (cmds : List Cmd) :
    Keeps Stays Grew (pipelineRest O dl cmds) := by
  unfold pipelineRest
  split
  · exact grew_base.seq (keeps_dispatchCommand (grew_closed O) hdl _) fun _ => grew_base.ret _
  · apply grew_base.seq (grew_base.forEach (grew_closed O).announce _)
    intro _
    exact grew_base.seq (keeps_executePipeline (grew_closed O) hdl _) fun _ => grew_base.ret _

/-- Several stages are announced. -/
theorem busy_stages (hdl : ∀ l, Keeps Stays Grew (dl l)) (cmd cmd' : Cmd) (cmds : List Cmd)
    (s : Shell) : Own busy s (pipelineRest O dl (cmd :: cmd' :: cmds) s).state := by
  have hannounces := grew_base.forEach (grew_closed O).announce (cmd' :: cmds)
  have hexecute := keeps_executePipeline (grew_closed O) hdl ⟨cmd :: cmd' :: cmds⟩
  show Own busy s (((announce cmd >>= fun _ => forEach announce (cmd' :: cmds)) >>= fun _ =>
    (executePipeline O dl ⟨cmd :: cmd' :: cmds⟩ >>= fun status =>
      pure (status, ⟨cmd :: cmd' :: cmds⟩) : Prog Shell (Int × Pipeline))) s).state
  rw [bind_assoc]
  apply busy_announce
  apply grew_base.seq hannounces
  intro _
  exact grew_base.seq hexecute fun _ => grew_base.ret _

/-- A stage of which no word is left. -/
theorem pipelineRest_empty {cmd : Cmd} (hargv : cmd.argv = []) (s : Shell) :
    pipelineRest O dl [cmd] s = .ok s (0, ⟨[cmd]⟩) := by
  have hempty : dispatchCommand O dl cmd = pure (0, cmd) := if_pos hargv
  show Prog.bind (dispatchCommand O dl cmd) _ s = _
  rw [Prog.bind, hempty]
  rfl

/-- The only stage, behind the first expansion. -/
theorem single_cases (hdl : ∀ l, Keeps Stays Grew (dl l)) {s : Shell} (hs : Clear s) {cmd : Cmd}
    (hargv : cmd.argv ≠ []) :
    ((made O (commandExpansion cmd) s).any (fails s.ctx) = true ∧
      ∃ t v, pipelineRest O dl [cmd] s = .ok t (1, v) ∧
        Settled s t ((made O (commandExpansion cmd) s).any (unset s.ctx))) ∨
    ((made O (commandExpansion cmd) s).any (fails s.ctx) = false ∧
      Own busy s (pipelineRest O dl [cmd] s).state) := by
  obtain ⟨hsettled, hrun⟩ := dispatchCommand_spec (O := O) hdl hs hargv
  have hrest : pipelineRest O dl [cmd] s =
      (dispatchCommand O dl cmd >>= fun r => pure (r.1, (⟨[r.2]⟩ : Pipeline))) s := rfl
  rw [hrest, bind_apply, Prog.bind, hrun]
  by_cases hfail : (made O (commandExpansion cmd) s).any (fails s.ctx) = true
  · left
    rw [if_pos hfail]
    exact ⟨hfail, _, _, rfl, hsettled⟩
  · right
    rw [if_neg hfail]
    refine ⟨Bool.eq_false_iff.mpr hfail, ?_⟩
    have hbusy := busy_commandRest (O := O) hdl
      (commandExpansion cmd (worldOf O s) s.ctx s.fx).1 (checked O dl (commandExpansion cmd) s).state
    have hgrew := grew_state (grew_commandRest (O := O) hdl
      (commandExpansion cmd (worldOf O s) s.ctx s.fx).1) (checked O dl (commandExpansion cmd) s).state
    have hown := (own_trans hsettled.toStays hgrew).mpr (.inr hbusy)
    cases hend : commandRest O dl (commandExpansion cmd (worldOf O s) s.ctx s.fx).1
      (checked O dl (commandExpansion cmd) s).state <;> rwa [hend] at hown

/-- A pipeline is refused, or it succeeds with nothing to run, or something runs; the
first when a substitution fails. -/
theorem dispatchPipeline_cases (hdl : ∀ l, Keeps Stays Grew (dl l)) {s : Shell} (hs : Clear s)
    (pl : Pipeline) :
    ((pipelineMade O dl pl s).any (fails s.ctx) = true ∧
      ∃ t v, dispatchPipeline O dl pl s = .ok t (1, v) ∧
        Settled s t ((pipelineMade O dl pl s).any (unset s.ctx))) ∨
    ((pipelineMade O dl pl s).any (fails s.ctx) = false ∧
      ((∃ t v, dispatchPipeline O dl pl s = .ok t (0, v)) ∨
        Own busy s (dispatchPipeline O dl pl s).state)) := by
  by_cases hcmds : pl.cmds = []
  · right
    have hnone : made O (stagesExpansion pl) (noted (.dispatch pl) s) = [] := by
      unfold made stagesExpansion
      rw [hcmds]
      exact performed_eq rfl
    have hexpanded : (stagesExpansion pl (worldOf O (noted (.dispatch pl) s)) s.ctx s.fx).1 = [] := by
      unfold stagesExpansion
      rw [hcmds]
      rfl
    refine ⟨?_, .inl ⟨s, pl, ?_⟩⟩
    · simp [pipelineMade, hnone, hexpanded]
    · unfold dispatchPipeline
      rw [if_pos hcmds]
      rfl
  · obtain ⟨hfirst, hrun⟩ := dispatchPipeline_spec (O := O) hdl hs hcmds
    have hpipeline : pipelineMade O dl pl s = if _ then _ else _ := rfl
    by_cases hfail : (made O (stagesExpansion pl) (noted (.dispatch pl) s)).any (fails s.ctx) = true
    · left
      rw [if_pos hfail] at hrun hpipeline
      rw [hpipeline]
      exact ⟨hfail, _, _, hrun, hfirst.ofNoted⟩
    · rw [if_neg hfail] at hrun hpipeline
      have hnone := Bool.eq_false_iff.mpr hfail
      have hunset : (made O (stagesExpansion pl) (noted (.dispatch pl) s)).any (unset s.ctx) = false := by
        rw [any_fails, Bool.or_eq_false_iff] at hnone
        exact hnone.1
      have hstart := hfirst.ofNoted
      rw [hunset] at hstart
      have hctx := hstart.ctx
      cases hexpanded : (stagesExpansion pl (worldOf O (noted (.dispatch pl) s)) s.ctx s.fx).1 with
      | nil =>
          exfalso
          cases hpl : pl.cmds with
          | nil => exact hcmds hpl
          | cons cmd cmds =>
              unfold stagesExpansion at hexpanded
              rw [hpl] at hexpanded
              simp [expandCmds] at hexpanded
      | cons cmd cmds =>
          rw [hexpanded] at hrun hpipeline
          cases cmds with
          | nil =>
              by_cases hargv : cmd.argv = []
              · right
                rw [hpipeline.trans (if_pos hargv)]
                exact ⟨hnone, .inl ⟨_, _, hrun.trans (pipelineRest_empty hargv _)⟩⟩
              · rw [hpipeline.trans (if_neg hargv), List.any_append, List.any_append, hnone, hunset,
                  Bool.or_false, Bool.or_false, hrun, ← hctx]
                apply (single_cases (O := O) hdl hstart.clear hargv).imp
                · rintro ⟨hsecond, u, v, hrest, hsettled⟩
                  exact ⟨hsecond, u, v, hrest, hstart.trans hsettled⟩
                · rintro ⟨hsecond, hbusy⟩
                  refine ⟨hsecond, .inr ((own_trans hstart.toStays ?_).mpr (.inr hbusy))⟩
                  exact grew_state (grew_pipelineRest hdl _) _
          | cons cmd' cmds =>
              right
              rw [hpipeline, hrun]
              refine ⟨hnone, .inr ((own_trans hstart.toStays ?_).mpr (.inr ?_))⟩
              · exact grew_state (grew_pipelineRest hdl _) _
              · exact busy_stages hdl cmd cmd' cmds _

/-- **A pipeline is refused exactly when one of its substitutions fails**, with status 1;
the abort is raised when one is of an unset parameter, and the flags are clear. -/
theorem pipeline_refused (hdl : ∀ l, Keeps Stays Grew (dl l)) {s : Shell} (hs : Clear s)
    (pl : Pipeline) :
    (Refused s (dispatchPipeline O dl pl s) ↔
      (pipelineMade O dl pl s).any (fails s.ctx) = true) ∧
    ((pipelineMade O dl pl s).any (fails s.ctx) = true →
      ∃ t v, dispatchPipeline O dl pl s = .ok t (1, v) ∧
        Settled s t ((pipelineMade O dl pl s).any (unset s.ctx))) := by
  rcases dispatchPipeline_cases (O := O) hdl hs pl with ⟨hfail, t, v, hrun, hsettled⟩ | ⟨hnone, h⟩
  · refine ⟨iff_of_true ?_ hfail, fun _ => ⟨t, v, hrun, hsettled⟩⟩
    exact ⟨t, 1, v, hrun, Int.one_ne_zero, hsettled.idle⟩
  · have hnot : ¬ (pipelineMade O dl pl s).any (fails s.ctx) = true := Bool.eq_false_iff.mp hnone
    refine ⟨iff_of_false ?_ hnot, fun hfail => absurd hfail hnot⟩
    rintro ⟨t, code, v, hrun, hcode, hidle⟩
    rcases h with ⟨t', v', hrun'⟩ | hbusy
    · rw [hrun] at hrun'
      cases hrun'
      exact hcode rfl
    · rw [hrun] at hbusy
      exact hidle hbusy

end Constructs

/-! ## The flags along a run -/

/-- From clear flags, they are clear at the end and at every note of the process and of
its children; those of substitutions are oracles. -/
structure Tidy (s t : Shell) : Prop extends Stays s t where
  clear : Clear s → Clear t
  entries : Clear s → ∀ e ∈ added s t, inSubst s e.proc = false → e.failing = false

/-- The same of a run that does not return. -/
structure TidyStop (s t : Shell) : Prop extends Grew s t where
  clear : Clear s → Clear t
  entries : Clear s → ∀ e ∈ added s t, inSubst s e.proc = false → e.failing = false

theorem inSubst_congr {s t : Shell} (h : t.proc = s.proc) (p : Proc) : inSubst t p = inSubst s p := by
  rw [inSubst, inSubst, h]

theorem Tidy.stop {s t : Shell} (h : Tidy s t) : TidyStop s t := ⟨h.toGrew, h.clear, h.entries⟩

theorem Tidy.same {s t : Shell} (hlog : t.log = s.log) (hproc : t.proc = s.proc)
    (hframes : t.frames = s.frames) (hclear : Clear s → Clear t) : Tidy s t := by
  refine ⟨Stays.same hlog hproc hframes, hclear, ?_⟩
  intro _ e he
  rw [added_eq (l := []) hlog] at he
  exact absurd he List.not_mem_nil

theorem tidyStop_trans {s t u : Shell} (h : Tidy s t) (k : TidyStop t u) : TidyStop s u := by
  refine ⟨Grew.trans h.toStays k.toGrew, fun hs => k.clear (h.clear hs), ?_⟩
  intro hs e he hp
  rw [added_trans h.toGrew k.toGrew] at he
  rcases List.mem_append.mp he with hu | ht
  · apply k.entries (h.clear hs) e hu
    rwa [inSubst_congr h.proc]
  · exact h.entries hs e ht hp

theorem tidy_composes : Composes Tidy TidyStop where
  refl _ := Tidy.same rfl rfl rfl id
  trans h k :=
    have hstop := tidyStop_trans h k.stop
    ⟨h.toStays.trans k.toStays, hstop.clear, hstop.entries⟩
  stop _ := (Tidy.same rfl rfl rfl id).stop
  transStop := tidyStop_trans

theorem tidy_noted (e : Event) (s : Shell) : Tidy s (noted e s) := by
  refine ⟨Stays.noted e s, fun hs => ⟨hs.arith, hs.nounset⟩, ?_⟩
  intro hs x hx _
  rw [added_eq (l := [s.entry e]) rfl] at hx
  rw [List.mem_singleton.mp hx]
  show (s.fx.arithError || s.fx.nounsetError) = false
  rw [hs.arith, hs.nounset]
  rfl

theorem tidy_emit (e : Event) : Keeps Tidy TidyStop (emit e) := Keeps.modify (tidy_noted e)

theorem tidy_modify {f : Shell → Shell} (hlog : ∀ s, (f s).log = s.log)
    (hproc : ∀ s, (f s).proc = s.proc) (hframes : ∀ s, (f s).frames = s.frames)
    (hfx : ∀ s, (f s).fx = s.fx) : Keeps Tidy TidyStop (modify f) := by
  apply Keeps.modify
  intro s
  apply Tidy.same (hlog s) (hproc s) (hframes s)
  intro hs
  constructor
  · rw [hfx]
    exact hs.arith
  · rw [hfx]
    exact hs.nounset

theorem grew_of_tidy {α : Type} {c : Prog Shell α} (h : Keeps Tidy TidyStop c) :
    Keeps Stays Grew c := h.imp (fun _ _ h => h.toStays) fun _ _ h => h.toGrew

theorem tidy_within {α : Type} (frame : Frame) {c : Prog Shell α} (hc : Keeps Tidy TidyStop c) :
    Keeps Tidy TidyStop (within frame c) := by
  intro s
  have hgrew := grew_within frame (grew_of_tidy hc) s
  have htidy : (within frame c s).Holds
      (fun _ t => (Clear s → Clear t) ∧
        (Clear s → ∀ e ∈ added s t, inSubst s e.proc = false → e.failing = false))
      fun t => (Clear s → Clear t) ∧
        (Clear s → ∀ e ∈ added s t, inSubst s e.proc = false → e.failing = false) := by
    apply bind_holds
    show Outcome.Holds _ _ (Outcome.ok { s with frames := frame :: s.frames } ())
    apply bind_holds
    apply (hc _).imp
    · exact fun _ _ h => ⟨fun hs => ⟨(h.clear ⟨hs.arith, hs.nounset⟩).arith,
        (h.clear ⟨hs.arith, hs.nounset⟩).nounset⟩, fun hs => h.entries ⟨hs.arith, hs.nounset⟩⟩
    · exact fun _ h => ⟨fun hs => h.clear ⟨hs.arith, hs.nounset⟩,
        fun hs => h.entries ⟨hs.arith, hs.nounset⟩⟩
  exact (hgrew.and htidy).imp (fun _ _ h => ⟨h.1, h.2.1, h.2.2⟩) fun _ h => ⟨h.1, h.2.1, h.2.2⟩

/-- A process below a child is below a substitution when the child is one, or from there. -/
theorem inSubst_born {child : Child} {prepare : Shell → Shell} {s : Shell} {e : Entry}
    (h : Below (born child prepare s) e) :
    inSubst s e.proc = (inSubst (born child prepare s) e.proc || child == .cmdsubst) := by
  obtain ⟨l, hl⟩ := h.1
  have hproc : (born child prepare s).proc = (child, s.log.length) :: s.proc := rfl
  rw [hproc] at hl
  unfold inSubst
  rw [hproc, ← hl]
  have hlen : (l ++ (child, s.log.length) :: s.proc).length - s.proc.length = l.length + 1 := by
    simp only [List.length_append, List.length_cons]
    omega
  have hlen' : (l ++ (child, s.log.length) :: s.proc).length -
      ((child, s.log.length) :: s.proc).length = l.length := by
    simp only [List.length_append, List.length_cons]
    omega
  rw [hlen, hlen', List.take_left]
  simp [List.take_append, List.take_of_length_le]

/-- A child that is no substitution starts with the flags of its parent. -/
theorem born_clear {child : Child} {prepare : Shell → Shell} (hp : Prepares child prepare)
    (hchild : child ≠ .cmdsubst) {s : Shell} (hs : Clear s) : Clear (born child prepare s) := by
  cases hp with
  | stage => exact ⟨hs.arith, hs.nounset⟩
  | background detach => exact ⟨hs.arith, hs.nounset⟩
  | cmdsubst m => exact absurd rfl hchild

theorem tidy_fork {α : Type} {child : Child} {prepare : Shell → Shell} {body : Prog Shell α}
    (hp : Prepares child prepare) (hb : Keeps Stays Grew body)
    (hbody : child ≠ .cmdsubst → Keeps Tidy TidyStop body) :
    Keeps Tidy TidyStop (fork child prepare body) := by
  intro s
  show Tidy s (forked child prepare body s)
  refine ⟨grew_fork hp hb s, fun hs => ⟨hs.arith, hs.nounset⟩, ?_⟩
  intro hs e he hsubst
  rw [added_forked hp hb] at he
  rcases List.mem_append.mp he with hchild | hown
  · have hbelow := (grew_state hb _).below e hchild
    rw [inSubst_born hbelow, Bool.or_eq_false_iff] at hsubst
    have hne : child ≠ .cmdsubst := by
      intro heq
      rw [heq] at hsubst
      exact Bool.noConfusion hsubst.2
    have hstop := Outcome.Holds.state (E := TidyStop (born child prepare s))
      ((hbody hne _).imp (fun _ _ h => h.stop) fun _ h => h)
    exact hstop.entries (born_clear hp hne hs) e hchild hsubst.1
  · have hnoted := (tidy_noted (.forked child s.log.length) s).entries hs e
    rw [added_eq (l := [s.entry (.forked child s.log.length)]) rfl] at hnoted
    exact hnoted hown hsubst

theorem tidy_blind : Blind fun _ => Keeps Tidy TidyStop where
  ret := Keeps.pure tidy_composes
  seq := Keeps.bind tidy_composes
  read := Keeps.look tidy_composes
  stop := Keeps.cut tidy_composes
  change hf := by
    apply Keeps.modify
    intro s
    apply Tidy.same (congrArg Core.log (hf s)) (congrArg Core.proc (hf s))
      (congrArg Core.frames (hf s))
    exact fun hs => ⟨(congrArg Core.arithError (hf s)).trans hs.arith,
      (congrArg Core.nounsetError (hf s)).trans hs.nounset⟩
  tell _ := tidy_emit _

theorem tidy_base : Base fun _ => Keeps Tidy TidyStop := tidy_blind.base

/-- An expansion takes the errors it makes. -/
theorem tidy_checked {O : Outside} {dl : PList → Prog Shell (Int × PList)} {α : Type}
    (hdl : ∀ l, Keeps Tidy TidyStop (dl l)) (f : World → Ctx → Effects → α × Effects) :
    Keeps Tidy TidyStop (checked O dl f) := by
  have hspawn : ∀ m, Keeps Tidy TidyStop (spawnSubst dl m) := by
    apply keeps_spawnSubst tidy_base.toFlow
    intro _ inner hp
    apply tidy_fork hp (grew_cmdsubstChild (fun l => grew_of_tidy (hdl l)) inner)
    exact fun hne => absurd rfl hne
  intro s
  have hexpand : (expanding O dl f s).Holds
      (fun _ u => ∃ t, Tidy s t ∧ u = { t with fx := u.fx }) (TidyStop s) := by
    apply bind_holds
    show Outcome.Holds _ _ ((onlyIf _ (forEach (spawnSubst dl) _) >>= _ : Prog Shell α) s)
    apply bind_holds
    apply (tidy_base.when (tidy_base.forEach hspawn _) s).imp
    · exact fun _ t ht => ⟨t, ht, rfl⟩
    · exact fun _ h => h
  apply bind_holds
  apply hexpand.imp
  · rintro a u ⟨t, ht, hu⟩
    have htaken : Tidy s (taken u) := by
      rw [hu]
      exact ⟨⟨⟨ht.log, ht.below⟩, ht.proc, ht.frames⟩, fun _ => ⟨rfl, rfl⟩, ht.entries⟩
    apply bind_holds
    rw [takeExpandErrors_eq]
    show Tidy s (if u.fx.nounsetError = true then { noted .abort (taken u) with shellAbort := true }
      else taken u)
    split
    · have habort := tidy_composes.trans htaken (tidy_noted .abort (taken u))
      exact ⟨⟨⟨habort.log, habort.below⟩, habort.proc, habort.frames⟩, fun _ => ⟨rfl, rfl⟩,
        habort.entries⟩
    · exact htaken
  · exact fun _ h => h

theorem tidy_raise : Keeps Tidy TidyStop shellAbortRaise := by
  apply tidy_base.seq (tidy_emit _)
  intro _
  exact tidy_modify (fun _ => rfl) (fun _ => rfl) (fun _ => rfl) fun _ => rfl

theorem tidy_poll {O : Outside} {dl : PList → Prog Shell (Int × PList)}
    (hdl : ∀ l, Keeps Tidy TidyStop (dl l)) (frame : Frame) :
    Keeps Tidy TidyStop (trapsPoll O dl frame) :=
  tidy_base.polling hdl (tidy_within frame)

theorem tidy_builtinExit {O : Outside} {dl : PList → Prog Shell (Int × PList)}
    (hdl : ∀ l, Keeps Tidy TidyStop (dl l)) (args : List Text) :
    Keeps Tidy TidyStop (builtinExit O dl args) := by
  have hend : ∀ code : Int, Keeps Tidy TidyStop (do
      emit (.ended code)
      exit code : Prog Shell Int) := by
    intro code
    exact tidy_base.seq (tidy_emit _) fun _ => Keeps.exit tidy_composes code
  apply keeps_builtinExit tidy_base (fun _ => tidy_emit _) hend
  apply keeps_runExitTrap tidy_base _ (fun _ _ => tidy_emit _) (tidy_emit _) (tidy_poll hdl _)
  · exact fun act => tidy_within _ (keeps_runText tidy_base.toFlow hdl act)
  · exact fun _ => tidy_modify (fun _ => rfl) (fun _ => rfl) (fun _ => rfl) fun _ => rfl

theorem tidy_stageChild {O : Outside} {dl : PList → Prog Shell (Int × PList)} (since i n : Nat)
    {cmd : Cmd} (hrun : Keeps Tidy TidyStop (callBuiltin O dl cmd)) :
    Keeps Tidy TidyStop (stageChild O dl since i n cmd) := by
  have hexec := keeps_execv tidy_base (fun _ _ => tidy_emit _) id cmd
  apply keeps_stageChild tidy_base (Keeps.exit tidy_composes) _ since i n
  · exact keeps_stageRun tidy_base (Keeps.exit tidy_composes) hexec hrun
  · exact fun _ => tidy_modify (fun _ => rfl) (fun _ => rfl) (fun _ => rfl) fun _ => rfl

theorem tidy_closed (O : Outside) : Closed O fun _ => Keeps Tidy TidyStop := by
  have hsame : ∀ {f : Shell → Shell}, (∀ s, (f s).log = s.log) → (∀ s, (f s).proc = s.proc) →
      (∀ s, (f s).frames = s.frames) → (∀ s, (f s).fx = s.fx) →
      Keeps Tidy TidyStop (modify f) := tidy_modify
  refine { tidy_base with
    raise := tidy_raise, lower := ?lower, replace := ?replace, push := ?push, slot := ?slot
    within := tidy_within, item := fun _ => tidy_emit _, announce := ?announce
    expand := fun hdl f => tidy_checked hdl f, start := fun _ => tidy_emit _
    external := ?external, redirected := ?redirected, stage := ?stage, background := ?background
    wait := ?wait, call := ?call, leave := fun hdl _ args => tidy_builtinExit hdl args }
  case lower => exact hsame (fun _ => rfl) (fun _ => rfl) (fun _ => rfl) fun _ => rfl
  case replace =>
    exact fun argv status => tidy_base.seq (tidy_emit _) fun _ => Keeps.exit tidy_composes status
  case push =>
    intro name _
    apply keeps_localPush tidy_base.toFlow fun _ _ _ => tidy_emit _
    exact fun _ => hsame (fun _ => rfl) (fun _ => rfl) (fun _ => rfl) fun _ => rfl
  case slot =>
    intro slot action
    apply tidy_base.seq (tidy_emit _)
    intro _
    apply hsame
    all_goals
      intro s
      dsimp only
      split
      · rfl
      · split <;> rfl
  case announce =>
    intro cmd
    apply tidy_base.seq (tidy_emit _)
    intro _
    apply tidy_base.seq (tidy_base.read _)
    intro s
    exact tidy_base.when (tidy_emit _)
  case external =>
    intro path cmd
    apply keeps_externalChild tidy_base
    · exact fun _ => hsame (fun _ => rfl) (fun _ => rfl) (fun _ => rfl) fun _ => rfl
    · exact keeps_execv tidy_base (fun _ _ => tidy_emit _) _ cmd
  case redirected =>
    intro dl _ cmd hrun
    apply keeps_runBuiltinWithRedirs tidy_base _ hrun
    exact fun _ => hsame (fun _ => rfl) (fun _ => rfl) (fun _ => rfl) fun _ => rfl
  case stage =>
    intro dl since i n cmd hrun
    exact tidy_fork .stage (grew_stageChild since i n (grew_of_tidy hrun))
      fun _ => tidy_stageChild since i n hrun
  case background =>
    intro dl detach pl hrun
    apply tidy_fork (.background detach)
    · exact grew_base.seq (grew_of_tidy hrun) fun _ => Keeps.exit grew_composes _
    · exact fun _ => tidy_base.seq hrun fun _ => Keeps.exit tidy_composes _
  case wait =>
    intro dl start k status hpoll hstart
    apply keeps_waiting tidy_base _ k status hpoll hstart
    exact fun _ _ => hsame (fun _ => rfl) (fun _ => rfl) (fun _ => rfl) fun _ => rfl
  case call =>
    intro dl hdl name args body
    apply keeps_callFn tidy_base _ _ _ _ name args (tidy_within .call (hdl body))
    · exact fun _ _ => hsame (fun _ => rfl) (fun _ => rfl) (fun _ => rfl) fun _ => rfl
    · exact fun _ => hsame (fun _ => rfl) (fun _ => rfl) (fun _ => rfl) fun _ => rfl
    · exact fun _ => tidy_emit _
    · exact fun _ => tidy_emit _

/-! ## Every run -/

/-- **Failures are refused and do not spread.**  From clear flags, a pipeline, a `case`
and a `[[` are refused exactly when one of their own substitutions fails, nothing but the
substitutions has run then, the abort is raised when one is of an unset parameter, and
the flags are clear.  A list leaves them clear, and they are clear at each of its notes. -/
theorem refused_iff (O : Outside) (n : Nat) (s : Shell) (hs : Clear s) :
    (∀ pl,
      (Refused s (dispatchPipeline O (dispatchList O n) pl s) ↔
        (pipelineMade O (dispatchList O n) pl s).any (fails s.ctx) = true) ∧
      ((pipelineMade O (dispatchList O n) pl s).any (fails s.ctx) = true →
        ∃ t v, dispatchPipeline O (dispatchList O n) pl s = .ok t (1, v) ∧
          Settled s t ((pipelineMade O (dispatchList O n) pl s).any (unset s.ctx)))) ∧
    (∀ word arms, ∃ t,
      Settled s t ((made O (fun w ctx fx => expandWord w ctx word fx) s).any (unset s.ctx)) ∧
      dispatchCase O (dispatchList O n) word arms s =
        if (made O (fun w ctx fx => expandWord w ctx word fx) s).any (fails s.ctx) = true then .ok t 1
        else caseArms (dispatchList O n) arms (expandWord (worldOf O s) s.ctx word s.fx).1 t) ∧
    (∀ db, ∃ t,
      Settled s t ((made O (fun w ctx fx => expandToks w ctx db fx) s).any (unset s.ctx)) ∧
      runDbracket O (dispatchList O n) db s =
        if (made O (fun w ctx fx => expandToks w ctx db fx) s).any (fails s.ctx) = true then .ok t 1
        else .ok t
          (dbrEvalExpr (O.files t.log) shown (expandToks (worldOf O s) s.ctx db s.fx).1)) ∧
    ∀ list, Clear (dispatchList O n list s).state ∧
      ∀ e ∈ added s (dispatchList O n list s).state, inSubst s e.proc = false →
        e.failing = false := by
  have hdl := dispatchList_grew O n
  refine ⟨pipeline_refused hdl hs, dispatchCase_spec hdl hs, runDbracket_spec hdl hs, ?_⟩
  intro list
  have hstop : TidyStop s (dispatchList O n list s).state := by
    apply Outcome.Holds.state (E := TidyStop s)
    exact (dispatchList_keeps (tidy_closed O) n list s).imp (fun _ _ h => h.stop) fun _ h => h
  exact ⟨hstop.clear hs, hstop.entries hs⟩

/-- A shell with `-u` on and no variables. -/
def unsetting : Shell := Shell.start ⟨fun _ => none, [], [], false, true, false, 0⟩ fun _ => .dfl

/-- `true WORD`. -/
def trueOn (word : Text) : Pipeline := ⟨[{ argv := [⟨"true".toList, .unquoted⟩, ⟨word, .unquoted⟩] }]⟩

/-- `true $X` is refused. -/
theorem parameter_refused :
    Refused unsetting (dispatchPipeline Outside.quiet (dispatchList Outside.quiet 1)
      (trueOn "$X".toList) unsetting) :=
  ((refused_iff Outside.quiet 1 unsetting ⟨rfl, rfl⟩).1 (trueOn "$X".toList)).1.mpr
    (by decide +kernel)

/-- **An unset operand is no failure**: `true $((X))` runs under `-u`. -/
theorem operand_not_refused :
    unsetting.ctx.optU = true ∧ getenv unsetting.ctx.env "X".toList = none ∧
      ¬ Refused unsetting (dispatchPipeline Outside.quiet (dispatchList Outside.quiet 1)
        (trueOn "$((X))".toList) unsetting) := by
  refine ⟨rfl, rfl, ?_⟩
  rintro ⟨t, code, v, hrun, hcode, -⟩
  have hvalue : (dispatchPipeline Outside.quiet (dispatchList Outside.quiet 1)
      (trueOn "$((X))".toList) unsetting).value.map Prod.fst = some 0 := by decide +kernel
  rw [hrun] at hvalue
  exact hcode (Option.some.inj hvalue)

end Petrush.Verified.Refusals
