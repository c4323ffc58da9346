import Petrush.Mid.Dispatcher

/-!
# Commands by their parts

The equations of `dispatch_command` behind its expansion and of `pipeline_child`, one
for each way a name is found and its redirections go.  Results about commands are
proved with these, not by unfolding the dispatcher.
-/

namespace Petrush.Verified.Commands

open Petrush.Lib.CText
open Petrush.Lib.Run
open Petrush.Foundation.Process
open Petrush.Mid.Ast
open Petrush.Mid.Dispatcher
open Petrush.Mid.State
open Petrush.Mid.Trap

/-- The state with other descriptors. -/
def rebound (fds : Fds) (s : Shell) : Shell := { s with fds := fds }

/-- The state in which a program is waited for. -/
def pushWait (s : Shell) : Shell :=
  { s with
    waits := (s.disps sigint, s.disps sigquit) :: s.waits, disps := waitDisps s.traps s.disps }

/-- The state behind the wait; what is restored are the dispositions before it. -/
def popWait (int quit : Disp) (s : Shell) : Shell :=
  { s with
    waits := s.waits.tail
    disps := update (update s.disps sigint int) sigquit quit }

section Equations

variable {O : Outside} {dl : PList → Prog Shell (Int × PList)} {cmd : Cmd} {s : Shell}
variable {name path : Text} {args : List Text} {fds : Fds}

/-! ## Stages -/

section Stages

variable {since i n : Nat}

theorem stageChild_refused
    (h : petrushApplyRedirs (O.opens s.log) cmd (pipeEnds since i n s.fds) = none) :
    stageChild O dl since i n cmd s = .exit (rebound (pipeEnds since i n s.fds) s) 1 := by
  simp only [stageChild, bind_apply, Prog.bind, Lib.Run.modify, look, id, h]
  rfl

theorem stageChild_redirected
    (h : petrushApplyRedirs (O.opens s.log) cmd (pipeEnds since i n s.fds) = some fds) :
    stageChild O dl since i n cmd s = stageRun O dl cmd (rebound fds s) := by
  simp only [stageChild, bind_apply, Prog.bind, Lib.Run.modify, look, id, h]
  rfl

end Stages

theorem stageRun_empty (h : words cmd = []) : stageRun O dl cmd s = .exit s 127 := by
  simp only [stageRun, bind_apply, Prog.bind, look, h]
  rfl

/-- The part of `pipeline_child` with a name. -/
theorem stageRun_cons (h : words cmd = name :: args) :
    stageRun O dl cmd s =
      if builtins.contains name then
        (callBuiltin O dl cmd >>= fun rc => (exit (rc % 256) : Prog Shell Unit)) s
      else
        match findExecutable (O.access s.log) s.ctx.env name with
        | none => .exit s (shellErrorCodeFor (O.access s.log) name)
        | some path =>
            match (O.access s.log).execError path with
            | some _ => .exit s 127
            | none => execv id cmd s := by
  show (match (words cmd).head? with
    | none => exit 127
    | some name =>
        if builtins.contains name then
          callBuiltin O dl cmd >>= fun rc => (exit (rc % 256) : Prog Shell Unit)
        else
          match findExecutable (O.access s.log) s.ctx.env name with
          | none => exit (shellErrorCodeFor (O.access s.log) name)
          | some path =>
              match (O.access s.log).execError path with
              | some _ => exit 127
              | none => execv id cmd : Prog Shell Unit) s = _
  rw [h]
  simp only [List.head?_cons]
  split
  · rfl
  · cases findExecutable (O.access s.log) s.ctx.env name with
    | none => rfl
    | some path =>
        simp only
        cases (O.access s.log).execError path <;> rfl

/-! ## Commands of the shell -/

theorem runBuiltinWithRedirs_refused (h : petrushApplyRedirs (O.opens s.log) cmd s.fds = none) :
    runBuiltinWithRedirs O dl cmd s = .ok s 1 := by
  simp only [runBuiltinWithRedirs, bind_apply, Prog.bind, look, id, h]
  rfl

theorem runBuiltinWithRedirs_redirected
    (h : petrushApplyRedirs (O.opens s.log) cmd s.fds = some fds) :
    runBuiltinWithRedirs O dl cmd s =
      (callBuiltin O dl cmd >>= fun status => do
        modify fun t => { t with fds := restoreSavedFds cmd s.fds t.fds }
        pure status) (rebound fds s) := by
  simp only [runBuiltinWithRedirs, bind_apply, Prog.bind, Lib.Run.modify, look, id, h]
  rfl

/-- `dispatch_command` with a name. -/
theorem runCommand_cons (h : words cmd = name :: args) :
    runCommand O dl cmd s =
      match fnGet s.fns name with
      | some body => callFn dl name args body s
      | none =>
          if builtins.contains name then
            if cmdNeedsRedir cmd then runBuiltinWithRedirs O dl cmd s else callBuiltin O dl cmd s
          else executeExternal O dl cmd s := by
  simp only [runCommand, bind_apply, Prog.bind, look, id, h]
  cases fnGet s.fns name with
  | some body => rfl
  | none =>
      simp only
      split
      · split <;> rfl
      · rfl

/-- `execute_external` with a name. -/
theorem executeExternal_cons (h : words cmd = name :: args) :
    executeExternal O dl cmd s =
      match findExecutable (O.access s.log) s.ctx.env name with
      | none => .ok s (shellErrorCodeFor (O.access s.log) name)
      | some path =>
          match O.program s.log cmd with
          | .noFork => .ok s 127
          | .waited interrupts status =>
              waiting O dl (externalChild O path cmd) interrupts
                ((externalCode O path cmd s).getD status) s := by
  show (match (words cmd).head? with
    | none => pure 127
    | some name =>
        match findExecutable (O.access s.log) s.ctx.env name with
        | none => pure (shellErrorCodeFor (O.access s.log) name)
        | some path =>
            match O.program s.log cmd with
            | .noFork => pure 127
            | .waited interrupts status =>
                waiting O dl (externalChild O path cmd) interrupts
                  ((externalCode O path cmd s).getD status) : Prog Shell Int) s = _
  rw [h]
  simp only [List.head?_cons]
  cases findExecutable (O.access s.log) s.ctx.env name with
  | none => rfl
  | some path =>
      simp only
      cases O.program s.log cmd <;> rfl

/-- The child becomes the program, with its descriptors. -/
theorem externalChild_starts (h : petrushApplyRedirs (O.opens s.log) cmd s.fds = some fds)
    (hexec : (O.access s.log).execError path = none) :
    externalChild O path cmd s =
      .ok
        { s with
          log := (rebound fds s).entry (.exec (words cmd) (execDisps (defaultIntQuit s.disps))) ::
            s.log }
        () := by
  simp only [externalChild, bind_apply, Prog.bind, Lib.Run.modify, look, id, h, hexec]
  rfl

theorem externalCode_eq_none (h : externalCode O path cmd s = none) :
    ∃ fds, petrushApplyRedirs (O.opens s.log) cmd s.fds = some fds ∧
      (O.access s.log).execError path = none := by
  unfold externalCode at h
  cases hredirs : petrushApplyRedirs (O.opens s.log) cmd s.fds with
  | none =>
      rw [hredirs] at h
      contradiction
  | some fds =>
      rw [hredirs] at h
      exact ⟨fds, rfl, Option.map_eq_none_iff.mp h⟩

/-- It ends by itself. -/
theorem externalChild_ends (h : (externalCode O path cmd s).isSome) :
    externalChild O path cmd s = .ok s () := by
  unfold externalCode at h
  cases hredirs : petrushApplyRedirs (O.opens s.log) cmd s.fds with
  | none =>
      simp only [externalChild, bind_apply, Prog.bind, look, id, hredirs]
      rfl
  | some fds =>
      rw [hredirs] at h
      cases hexec : (O.access s.log).execError path with
      | none =>
          rw [hexec] at h
          contradiction
      | some denied =>
          simp only [externalChild, bind_apply, Prog.bind, look, id, hredirs, hexec]
          rfl

/-- A wait, from the state in which the program is waited for. -/
theorem waiting_eq (start : Prog Shell Unit) (k : Nat) (status : Int) (s : Shell) :
    waiting O dl start k status s =
      (do
        start
        forEach (fun _ => trapsPoll O dl .waiting) (List.range (k + 1))
        modify (popWait (s.disps sigint) (s.disps sigquit))
        pure status : Prog Shell Int) (pushWait s) := rfl

end Equations

end Petrush.Verified.Commands
