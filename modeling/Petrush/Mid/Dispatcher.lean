import Petrush.Lib.Stdio
import Petrush.Mid.Source
import Petrush.Mid.State

/-!
# The dispatcher (`dispatcher.c`, `process.c`, `source.c`, `main.c`)

The functions that run a list call each other; here each takes the function that
runs a list as a parameter, `dl`, and `dispatchList` ties the knot with a bound
on the depth.

Expansion rewrites the words of a command in the syntax tree itself, so running
a part of the tree returns the tree it leaves.  `for`, `case` and function calls
run copies.
-/

namespace Petrush.Mid.Dispatcher

open Petrush.Lib.CText
open Petrush.Lib.Run
open Petrush.Lib.Stdio
open Petrush.Lib.Stdlib
open Petrush.Foundation
open Petrush.Foundation.Process
open Petrush.Mid.Alias
open Petrush.Mid.Ast
open Petrush.Mid.Builtins
open Petrush.Mid.Dbracket
open Petrush.Mid.Expand
open Petrush.Mid.Glob
open Petrush.Mid.Heredoc
open Petrush.Mid.Parser
open Petrush.Mid.Source
open Petrush.Mid.State
open Petrush.Mid.Trap

/-- `PETRUSH_CMDSUBST_MAX_DEPTH`. -/
def cmdsubstMaxDepth : Nat := 2

/-- `PETRUSH_SOURCE_MAX_DEPTH`. -/
def sourceMaxDepth : Nat := 8

/-- Errexit does not count inside the program. -/
def exempt {α : Type} (c : Prog Shell α) : Prog Shell α := do
  modify fun s => { s with noErrexit := s.noErrexit + 1 }
  let a ← c
  modify fun s => { s with noErrexit := s.noErrexit - 1 }
  pure a

section Dispatch

variable (O : Outside) (dl : PList → Prog Shell (Int × PList))

/-- A text is parsed and run; an error or an empty list does nothing. -/
def runText (text : Text) : Prog Shell Unit :=
  match petrushParseList text with
  | some (it :: items) => do
      let _ ← dl (it :: items)
      pure ()
  | _ => pure ()

/-! ## Traps -/

/-- The action of a signal in `petrush_traps_poll`. -/
def runTrapAction (sig : Nat) (act : Text) : Prog Shell Unit := do
  let s ← look id
  emit (.trapAction sig)
  setLastStatus (128 + sig)
  exempt (runText dl act)
  setLastStatus s.ctx.lastStatus

/-- One turn of `petrush_traps_poll`. -/
def pollSignal (sig : Nat) : Prog Shell Unit := do
  arrive O
  let s ← look id
  if s.pending sig then do
    modify fun s => { s with pending := update s.pending sig false }
    match s.traps sig with
    | some (c :: act) => runTrapAction dl sig (c :: act)
    | _ => pure ()
  else pure ()

/-- `petrush_traps_poll`. -/
def trapsPoll (frame : Frame) : Prog Shell Unit := do
  let s ← look id
  if s.inTrapPoll then pure ()
  else do
    modify fun s => { s with inTrapPoll := true }
    within frame (forEach (pollSignal O dl) (List.range' 1 (trapNsig - 1)))
    modify fun s => { s with inTrapPoll := false }

/-- `petrush_run_exit_trap`. -/
def runExitTrap (status : Int) : Prog Shell Int := do
  trapsPoll O dl .leaving
  let s ← look id
  emit (.leave status s.inExit)
  if s.inExit ∨ s.isSubshell ∨ s.cmdsubstDepth > 0 then pure status
  else
    match s.traps 0 with
    | some (c :: act) => do
        setLastStatus status
        emit .exitAction
        modify fun s => { s with inExit := true }
        exempt (within .exitTrap (runText dl (c :: act)))
        setLastStatus status
        modify fun s => { s with inExit := false }
        pure status
    | _ => pure status

/-! ## Expansion -/

/-- What expansion sees of the outside; substitutions nested too deep are empty. -/
def worldOf (s : Shell) : World where
  hook := if s.cmdsubstDepth ≥ cmdsubstMaxDepth then fun _ _ => [] else O.hook s.log
  listing := O.listing s.log
  undefined := O.undefined s.log

/-- The child of `petrush_run_cmdsubst`; it writes to a pipe. -/
def cmdsubstChild (inner : Text) : Prog Shell Unit :=
  match petrushParseList inner with
  | none => exit 1
  | some list => do
      let _ ← dl list
      exit 0

/-- The fork of `petrush_run_cmdsubst`; the child has the error flags of the moment. -/
def spawnSubst (m : Made) : Prog Shell Unit :=
  match m.subst with
  | .dollar (.cmdsubst inner) =>
      fork .cmdsubst
        (fun s => trapResetForChild
          { s with
            cmdsubstDepth := s.cmdsubstDepth + 1
            fds := { s.fds with stdout := .pipe s.log.length 0 }
            fx := { s.fx with arithError := m.arithError, nounsetError := m.nounsetError } })
        (cmdsubstChild dl inner)
  | _ => pure ()

/-- An expansion, with the children of its command substitutions. -/
def expanding {α : Type} (f : World → Ctx → Effects → α × Effects) : Prog Shell α := do
  let s ← look id
  let r := f (worldOf O s) s.ctx s.fx
  onlyIf (s.cmdsubstDepth < cmdsubstMaxDepth)
    (forEach (spawnSubst dl) (r.2.log.take (r.2.log.length - s.fx.log.length)).reverse)
  modify fun s => { s with fx := r.2 }
  pure r.1

/-! ## Builtins

They take `argv[1..]`. -/

/-- `builtin_return`. -/
def builtinReturn (args : List Text) : Prog Shell Int := do
  let succeed (code : Int) : Prog Shell Int := do
    emit (.returned code)
    modify fun s => { s with returning := true, returnStatus := code }
    pure code
  let depth ← look Shell.fnDepth
  if depth = 0 then pure 1
  else
    match args with
    | [] => succeed 0
    | [arg] =>
        match parseLong arg with
        | none => pure 1
        | some v => succeed (v % 256)
    | _ => pure 1

/-- The loop of `builtin_local`. -/
def localArgs : Int → List Text → Prog Shell Int
  | ret, [] => pure ret
  | ret, arg :: args =>
      if arg = [] then localArgs 1 args
      else if arg.head? = some '-' then pure 1
      else
        match splitAtEq arg with
        | some (name, value) =>
            if name = [] ∨ name.length ≥ 256 then localArgs 1 args
            else do
              let pushed ← localPush name
              if !pushed then pure 1
              else do
                let s ← look id
                match setenv s.ctx.env name value with
                | some env => do
                    modify fun s => { s with ctx := { s.ctx with env := env } }
                    localArgs ret args
                | none => localArgs 1 args
        | none => do
            let pushed ← localPush arg
            if !pushed then pure 1
            else do
              modify fun s =>
                { s with ctx := { s.ctx with env := (unsetenv s.ctx.env arg).getD s.ctx.env } }
              localArgs ret args

/-- `builtin_local`. -/
def builtinLocal (args : List Text) : Prog Shell Int := do
  let depth ← look Shell.fnDepth
  if depth = 0 then pure 1
  else if args = [] then pure 1
  else localArgs 0 args

/-- `petrush_positional_shift`. -/
def positionalShift (n : Nat) : Prog Shell Int := do
  let s ← look id
  if n > s.ctx.args.length then pure 1
  else do
    modify fun s => { s with ctx := { s.ctx with args := s.ctx.args.drop n } }
    pure 0

/-- `builtin_shift`. -/
def builtinShift (args : List Text) : Prog Shell Int :=
  match args with
  | [] => positionalShift 1
  | [arg] =>
      match parseLong arg with
      | none => pure 1
      | some v => if v < 0 ∨ v > 2 ^ 32 - 1 then pure 1 else positionalShift v.toNat
  | _ => pure 1

/-- `set_apply_letter`. -/
def setApplyLetter (ctx : Ctx) (letter : Char) (on : Bool) : Option Ctx :=
  if letter = 'x' then some { ctx with optX := on }
  else if letter = 'u' then some { ctx with optU := on }
  else if letter = 'e' then some { ctx with optE := on }
  else if letter = 'C' ∧ on then some ctx
  else none

/-- `set_apply_o_name`. -/
def setApplyOName (ctx : Ctx) (name : Text) (on : Bool) : Option Ctx :=
  if name = "xtrace".toList then some { ctx with optX := on }
  else if name = "nounset".toList then some { ctx with optU := on }
  else if name = "errexit".toList then some { ctx with optE := on }
  else if name = "noclobber".toList ∧ on then some ctx
  else none

/-- The letters of an option; those before an invalid one take effect. -/
def setApplyLetters (on : Bool) : Ctx → Text → Ctx × Bool
  | ctx, [] => (ctx, true)
  | ctx, letter :: letters =>
      match setApplyLetter ctx letter on with
      | none => (ctx, false)
      | some ctx => setApplyLetters on ctx letters

/-- The loop of `builtin_set`: the options, whether they were valid, and the new
positionals. -/
def setOptions : Ctx → List Text → Ctx × Bool × Option (List Text)
  | ctx, [] => (ctx, true, none)
  | ctx, arg :: args =>
      let on := arg.head? == some '-'
      if arg = "--".toList then (ctx, true, some args)
      else if (on || arg.head? == some '+') ∧ arg.length ≥ 2 then
        if arg.tail = ['o'] then
          match args with
          | [] => (ctx, false, none)
          | name :: args =>
              match setApplyOName ctx name on with
              | none => (ctx, false, none)
              | some ctx => setOptions ctx args
        else
          match setApplyLetters on ctx arg.tail with
          | (ctx, false) => (ctx, false, none)
          | (ctx, true) => setOptions ctx args
      else (ctx, true, some (arg :: args))

/-- `builtin_set`; an invalid option aborts the script. -/
def builtinSet (args : List Text) : Prog Shell Int := do
  let s ← look id
  let (ctx, ok, positionals) := setOptions s.ctx args
  modify fun s => { s with ctx := { ctx with args := positionals.getD ctx.args } }
  if ok then pure 0
  else do
    shellAbortRaise
    pure 1

/-- The loop of `builtin_trap` over the conditions. -/
def trapConditions (action : Option Text) : List Text → Prog Shell Int
  | [] => pure 0
  | cond :: conds =>
      match trapResolveCond cond with
      | .error _ => do
          shellAbortRaise
          pure 1
      | .ok slot => do
          trapSetSlot slot action
          trapConditions action conds

/-- `builtin_trap`. -/
def builtinTrap (args : List Text) : Prog Shell Int :=
  match trapArgs args with
  | .dump => pure 0
  | .usage | .badOption => do
      shellAbortRaise
      pure 1
  | .set action conds => trapConditions action conds

/-- `builtin_exit`. -/
def builtinExit (args : List Text) : Prog Shell Int := do
  let leave (code : Int) : Prog Shell Int := do
    let code ← runExitTrap O dl code
    emit (.ended code)
    exit code
  emit (.exitCall args)
  match args with
  | [] => leave 0
  | arg :: _ =>
      match parseLong arg with
      | none => do
          emit (.ended 2)
          exit 2
      | some v => leave (v % 256)

/-- `builtin_unset`. -/
def builtinUnset (args : List Text) : Prog Shell Int := do
  let s ← look id
  if args = [] then pure 1
  else do
    let env := args.foldl (fun env name => (unsetenv env name).getD env) s.ctx.env
    modify fun s => { s with ctx := { s.ctx with env := env } }
    pure (if args.any envNameInvalid then 1 else 0)

/-- `pudo_helper_argv_fits`, on `argc`. -/
def pudoHelperArgvFits (argc : Nat) : Bool := decide (2 ≤ argc) && decide (2 + (argc - 2) + 1 ≤ 128)

/-- `run_via_pudod`; `execve` does not come back. -/
def runViaPudod (pudo : Pudo) (target : Text) (args : List Text) : Prog Shell Int :=
  match pudo.helper with
  | none => pure 127
  | some pudod =>
      if !pudoHelperArgvFits (args.length + 2) then pure 1
      else
        match pudo.status with
        | none => pure 127
        | some status => do
            emit (.replaced (pudod :: pudo.resolve target :: args))
            exit status

/-- `builtin_pudo`. -/
def builtinPudo (args : List Text) : Prog Shell Int := do
  let s ← look id
  let pudo := O.pudo s.log s.ctx.env
  match args, pudo.config with
  | [], _ | _ :: _, none => pure 1
  | target :: args, some allowed =>
      if target = "--help".toList ∨ target = "-h".toList then pure 0
      else if allowed ≠ [] ∧ !allowed.contains target then pure 1
      else runViaPudod pudo target args

/-! ## Files -/

/-- `petrush_take_shell_abort`. -/
def takeShellAbort : Prog Shell Bool := do
  let a ← look Shell.shellAbort
  modify fun s => { s with shellAbort := false }
  pure a

/-- A list that is ready is run, unless it is empty. -/
def dispatchReady (list : PList) (status : Int) : Prog Shell Int :=
  if list.isEmpty then pure status
  else do
    let r ← dl list
    pure r.1

/-- The end of the file, for either reader. -/
def runLinesEof (mode : Mode) (status : Int) : Prog Shell Int :=
  match mode with
  | .command => pure status
  | .filling list =>
      let fed := petrushHeredocFeedLine list none
      if fed.1 < 0 then pure 1
      else do
        let status ← dispatchReady dl fed.2 status
        let _ ← takeShellAbort
        pure status

/-- The loops of `run_file_lines` and `fill_heredocs`. -/
def runLines : Mode → Int → List Text → Prog Shell Int
  | mode, status, [] => runLinesEof dl mode status
  | mode, status, raw :: raws => do
      let aliases ← look Shell.aliases
      match takeLine aliases mode raw with
      | .skip => runLines .command status raws
      | .bad => runLines .command 1 raws
      | .failed => pure 1
      | .more list => runLines (.filling list) status raws
      | .ready list => do
          let status ← dispatchReady dl list status
          let abort ← takeShellAbort
          if abort then pure status else runLines .command status raws

/-- `run_file_lines`. -/
def runFileLines (text : Text) : Prog Shell Int := do
  let s ← look id
  emit (.lines s.shellAbort)
  modify fun s => { s with shellAbort := false }
  runLines dl .command 0 (fgetsPieces linebufRoom text)

/-- `petrush_source_file`. -/
def sourceFile (path : Text) : Prog Shell Int := do
  let s ← look id
  if path = [] ∨ s.sourceDepth ≥ sourceMaxDepth then pure 1
  else
    match O.script s.log path with
    | .error _ => pure 1
    | .ok text => do
        modify fun s => { s with sourceDepth := s.sourceDepth + 1 }
        let status ← within .source (runFileLines dl text)
        modify fun s => { s with sourceDepth := s.sourceDepth - 1 }
        pure status

/-- `builtin_source`. -/
def builtinSource (args : List Text) : Prog Shell Int :=
  match args with
  | [path] => sourceFile O dl path
  | _ => pure 1

/-- `petrush_run_script`. -/
def runScript (path : Text) : Prog Shell Int := do
  let s ← look id
  if path = [] ∨ s.sourceDepth ≥ sourceMaxDepth then pure 1
  else
    match O.script s.log path with
    | .error code => pure code
    | .ok text => do
        modify fun s => { s with sourceDepth := s.sourceDepth + 1 }
        let status ← within .script (runFileLines dl text)
        modify fun s => { s with sourceDepth := s.sourceDepth - 1 }
        runExitTrap O dl status

/-! ## Commands -/

/-- The table of builtins; those that are not modelled are asked for outside. -/
def builtins : List Text :=
  ["cd".toList, "pwd".toList, "echo".toList, "exit".toList, "help".toList, "clear".toList,
    "env".toList, "export".toList, "unset".toList, "history".toList, "pudo".toList,
    "info".toList, "wai".toList, "netcom".toList, "alias".toList, "unalias".toList,
    "which".toList, "pushd".toList, "popd".toList, "dirs".toList, "source".toList, ".".toList,
    "jobs".toList, "true".toList, "false".toList, ":".toList, "umask".toList, "read".toList,
    "test".toList, "[".toList, "shift".toList, "return".toList, "local".toList, "set".toList,
    "trap".toList]

/-- `find_builtin`, and the call of what it finds. -/
def runBuiltin (cmd : Cmd) : Prog Shell Int :=
  let name := (cmd.argv.map Word.text).headD []
  let args := (cmd.argv.map Word.text).tail
  if name = "return".toList then builtinReturn args
  else if name = "local".toList then builtinLocal args
  else if name = "shift".toList then builtinShift args
  else if name = "set".toList then builtinSet args
  else if name = "trap".toList then builtinTrap args
  else if name = "exit".toList then builtinExit O dl args
  else if name = "source".toList ∨ name = ".".toList then builtinSource O dl args
  else if name = "unset".toList then builtinUnset args
  else if name = "true".toList ∨ name = ":".toList then pure 0
  else if name = "false".toList then pure 1
  else if name = "export".toList then do
    let s ← look id
    let (env, status) := builtinExport s.ctx.env (name :: args)
    modify fun s => { s with ctx := { s.ctx with env := env } }
    pure status
  else if name = "alias".toList then do
    let s ← look id
    let (aliases, status) := builtinAlias s.aliases (name :: args)
    modify fun s => { s with aliases := aliases }
    pure status
  else if name = "unalias".toList then do
    let s ← look id
    match args.head?.bind (aliasUnset · s.aliases) with
    | none => pure 1
    | some aliases => do
        modify fun s => { s with aliases := aliases }
        pure 0
  else if name = "pudo".toList then builtinPudo O args
  else do
    let s ← look id
    let (status, env) := O.builtin s.log cmd
    modify fun s => { s with ctx := { s.ctx with env := env } }
    pure status

/-- `cmd_needs_redir`. -/
def cmdNeedsRedir (cmd : Cmd) : Bool :=
  cmd.redirIn.isSome || cmd.hereBody.isSome || cmd.hereDelim.isSome || cmd.redirOut.isSome ||
    cmd.redirErr.isSome || cmd.redirErrToOut

/-- The words of a command that is expanded. -/
def words (cmd : Cmd) : List Text := cmd.argv.map Word.text

/-- The call of a builtin. -/
def callBuiltin (cmd : Cmd) : Prog Shell Int := do
  emit (.builtin (words cmd))
  runBuiltin O dl cmd

/-- `restore_saved_fds`, on the descriptors that were saved. -/
def restoreSavedFds (cmd : Cmd) (saved fds : Fds) : Fds where
  stdin :=
    if cmd.redirIn.isSome || cmd.hereBody.isSome || cmd.hereDelim.isSome then saved.stdin
    else fds.stdin
  stdout := if cmd.redirOut.isSome then saved.stdout else fds.stdout
  stderr := if cmd.redirErr.isSome || cmd.redirErrToOut then saved.stderr else fds.stderr

/-- `run_builtin_with_redirs`. -/
def runBuiltinWithRedirs (cmd : Cmd) : Prog Shell Int := do
  let s ← look id
  match petrushApplyRedirs (O.opens s.log) cmd s.fds with
  | none => pure 1
  | some fds => do
      modify fun s => { s with fds := fds }
      let status ← callBuiltin O dl cmd
      modify fun t => { t with fds := restoreSavedFds cmd s.fds t.fds }
      pure status

/-- The dispositions while a program is waited for. -/
def waitDisps (traps : TrapTable) (disps : Disps) : Disps :=
  let quiet (sig : Nat) (disps : Disps) : Disps :=
    if trapIsCommand traps sig then disps else update disps sig .ign
  quiet sigquit (quiet sigint disps)

/-- The wait of `execute_external` and `execute_pipeline_with_hook`, between the
change of the dispositions and their restoration. -/
def waiting (start : Prog Shell Unit) (interrupts : Nat) (status : Int) : Prog Shell Int := do
  let old ← look Shell.disps
  modify fun s =>
    { s with
      waits := (old sigint, old sigquit) :: s.waits, disps := waitDisps s.traps s.disps }
  start
  forEach (fun _ => trapsPoll O dl .waiting) (List.range (interrupts + 1))
  modify fun s =>
    { s with
      waits := s.waits.tail
      disps := update (update s.disps sigint (old sigint)) sigquit (old sigquit) }
  pure status

/-- `execv`, with what the child does to its dispositions first. -/
def execv (prepare : Disps → Disps) (cmd : Cmd) : Prog Shell Unit := do
  let s ← look id
  emit (.exec (words cmd) (execDisps (prepare s.disps)))

/-- The child of `execute_external`; the descriptors are those of the parent again
afterwards. -/
def externalChild (path : Text) (cmd : Cmd) : Prog Shell Unit := do
  let s ← look id
  match petrushApplyRedirs (O.opens s.log) cmd s.fds, (O.access s.log).execError path with
  | some fds, none => do
      modify fun s => { s with fds := fds }
      execv defaultIntQuit cmd
      modify fun t => { t with fds := s.fds }
  | _, _ => pure ()

/-- The code with which that child ends when it does not become the program. -/
def externalCode (path : Text) (cmd : Cmd) (s : Shell) : Option Int :=
  match petrushApplyRedirs (O.opens s.log) cmd s.fds with
  | none => some 1
  | some _ => ((O.access s.log).execError path).map fun denied => if denied then 126 else 127

/-- `execute_external`, and the status its caller makes of it. -/
def executeExternal (cmd : Cmd) : Prog Shell Int := do
  let s ← look id
  match (words cmd).head? with
  | none => pure 127
  | some name =>
      match findExecutable (O.access s.log) s.ctx.env name with
      | none => pure (shellErrorCodeFor (O.access s.log) name)
      | some path =>
          match O.program s.log cmd with
          | .noFork => pure 127
          | .waited interrupts status =>
              waiting O dl (externalChild O path cmd) interrupts
                ((externalCode O path cmd s).getD status)

/-- The ends of the pipes of stage `i` of `n`. -/
def pipeEnds (since i n : Nat) (fds : Fds) : Fds where
  stdin := if 0 < i then .pipe since (i - 1) else fds.stdin
  stdout := if i < n - 1 then .pipe since i else fds.stdout
  stderr := fds.stderr

/-- `pipeline_child` behind the redirections, with `pipeline_child_builtin_hook`. -/
def stageRun (cmd : Cmd) : Prog Shell Unit := do
  let s ← look id
  match (words cmd).head? with
  | none => exit 127
  | some name =>
      if builtins.contains name then do
        let rc ← callBuiltin O dl cmd
        exit (rc % 256)
      else
        match findExecutable (O.access s.log) s.ctx.env name with
        | none => exit (shellErrorCodeFor (O.access s.log) name)
        | some path =>
            match (O.access s.log).execError path with
            | some _ => exit 127
            | none => execv id cmd

/-- `pipeline_child`. -/
def stageChild (since i n : Nat) (cmd : Cmd) : Prog Shell Unit := do
  modify fun s => { s with fds := pipeEnds since i n s.fds }
  let s ← look id
  match petrushApplyRedirs (O.opens s.log) cmd s.fds with
  | none => exit 1
  | some fds => do
      modify fun s => { s with fds := fds }
      stageRun O dl cmd

/-- `execute_pipeline_with_hook`, for two stages or more. -/
def executePipeline (pl : Pipeline) : Prog Shell Int := do
  let s ← look id
  match O.pipeline s.log pl with
  | .noFork => pure 127
  | .waited interrupts status =>
      waiting O dl
        (forEach
          (fun (cmd, i) =>
            fork .stage (fun s => { s with disps := defaultIntQuit s.disps })
              (stageChild O dl s.log.length i pl.cmds.length cmd))
          pl.cmds.zipIdx)
        interrupts status

/-- What `call_fn` sets before the body runs. -/
def enterFn (name : Text) (args : List Text) (s : Shell) : Shell :=
  { s with fnDepth := s.fnDepth + 1, ctx := { s.ctx with arg0 := name, args := args } }

/-- What it restores behind the body; `old` are the positionals of the caller. -/
def leaveFn (old : Ctx) (s : Shell) : Shell :=
  let restored := localRestoreFrame s.fnDepth s.locals s.ctx.env
  { s with
    returning := false, locals := restored.1, fnDepth := s.fnDepth - 1
    ctx := { s.ctx with env := restored.2, arg0 := old.arg0, args := old.args } }

/-- `call_fn`. -/
def callFn (name : Text) (args : List Text) (body : PList) : Prog Shell Int := do
  let old ← look Shell.ctx
  emit (.call name)
  modify (enterFn name args)
  let r ← within .call (dl body)
  let s ← look id
  let status := if s.returning then s.returnStatus else r.1
  modify (leaveFn old)
  emit (.callEnd status)
  pure status

/-- `dispatch_command` behind its expansion. -/
def runCommand (cmd : Cmd) : Prog Shell Int := do
  let s ← look id
  match words cmd with
  | [] => pure 127
  | name :: args =>
      match fnGet s.fns name with
      | some body => callFn dl name args body
      | none =>
          if builtins.contains name then
            if cmdNeedsRedir cmd then runBuiltinWithRedirs O dl cmd else callBuiltin O dl cmd
          else executeExternal O dl cmd

/-- `xtrace_print_cmd`. -/
def xtracePrintCmd (cmd : Cmd) : Prog Shell Unit := do
  let s ← look id
  onlyIf (s.ctx.optX = true ∧ cmd.argv ≠ []) (emit (.trace (words cmd)))

/-- A command is expanded, and is going to be run. -/
def announce (cmd : Cmd) : Prog Shell Unit := do
  emit (.command (words cmd))
  xtracePrintCmd cmd

/-- `dispatch_command`. -/
def dispatchCommand (cmd : Cmd) : Prog Shell (Int × Cmd) :=
  if cmd.argv = [] then pure (0, cmd)
  else do
    let cmd ← expanding O dl fun w ctx fx => expandCmdArgv w ctx cmd fx
    let bad ← takeExpandErrors
    if bad then pure (1, cmd)
    else do
      announce cmd
      let status ← runCommand O dl cmd
      pure (status, cmd)

/-- The first loop of `dispatch_pipeline`. -/
def expandCmds (w : World) (ctx : Ctx) : List Cmd → Effects → List Cmd × Effects
  | [], fx => ([], fx)
  | cmd :: cmds, fx =>
      let (cmd, fx) := expandCmdArgv w ctx cmd fx
      let (cmds, fx) := expandCmds w ctx cmds fx
      (cmd :: cmds, fx)

/-- `dispatch_pipeline`. -/
def dispatchPipeline (pl : Pipeline) : Prog Shell (Int × Pipeline) :=
  if pl.cmds = [] then pure (0, pl)
  else do
    emit (.dispatch pl)
    let cmds ← expanding O dl fun w ctx fx => expandCmds w ctx pl.cmds fx
    let bad ← takeExpandErrors
    if bad then pure (1, ⟨cmds⟩)
    else
      match cmds with
      | [cmd] => do
          let r ← dispatchCommand O dl cmd
          pure (r.1, ⟨[r.2]⟩)
      | _ => do
          forEach announce cmds
          let status ← executePipeline O dl ⟨cmds⟩
          pure (status, ⟨cmds⟩)

/-- What the child of a background item does to its state first; it may take its
standard input from `/dev/null`. -/
def backgroundPrepare (detach : Bool) (s : Shell) : Shell :=
  trapResetForChild
    { s with
      disps := update (defaultIntQuit s.disps) sigtstp .dfl
      fds := if detach then { s.fds with stdin := .null } else s.fds }

/-- The first stage leaves standard input as it is. -/
def leavesStdin (pl : Pipeline) : Bool :=
  pl.cmds.head?.any fun cmd => cmd.redirIn.isNone && cmd.hereBody.isNone && cmd.hereDelim.isNone

/-- `dispatch_pipeline_background`; the tree of the parent is not touched. -/
def dispatchPipelineBackground (pl : Pipeline) : Prog Shell Int := do
  let s ← look id
  match O.job s.log with
  | .full | .noFork => pure 1
  | .forked registered => do
      emit (.background pl)
      fork .background (backgroundPrepare (O.detaches s.log && leavesStdin pl)) (do
        let r ← dispatchPipeline O dl pl
        (exit (r.1 % 256) : Prog Shell Unit))
      pure (if registered then 0 else 1)

/-! ## Compound commands -/

/-- `dispatch_if`. -/
def dispatchIf : List IfArm → Prog Shell (Int × List IfArm)
  | [] => pure (0, [])
  | arm :: arms =>
      if arm.isElse then do
        let body ← dl arm.body
        pure (body.1, ⟨arm.cond, body.2, true⟩ :: arms)
      else do
        let cond ← exempt (dl arm.cond)
        let s ← look id
        if s.returning then pure (s.returnStatus, ⟨cond.2, arm.body, false⟩ :: arms)
        else if s.shellAbort then pure (cond.1, ⟨cond.2, arm.body, false⟩ :: arms)
        else if cond.1 = 0 then do
          let body ← dl arm.body
          let s ← look id
          pure (if s.returning then s.returnStatus else body.1, ⟨cond.2, body.2, false⟩ :: arms)
        else do
          let r ← dispatchIf arms
          pure (r.1, ⟨cond.2, arm.body, false⟩ :: r.2)

/-- `dispatch_while`, with a bound on its turns. -/
def dispatchWhile : Nat → Int → PList → PList → Prog Shell (Int × PList × PList)
  | 0, _, _, _ => cut
  | n + 1, status, cond, body => do
      let st ← exempt (dl cond)
      let s ← look id
      if s.returning then pure (s.returnStatus, st.2, body)
      else if s.shellAbort then pure (st.1, st.2, body)
      else if st.1 ≠ 0 then pure (status, st.2, body)
      else do
        let r ← dl body
        let s ← look id
        if s.returning then pure (s.returnStatus, st.2, r.2)
        else if s.shellAbort then pure (r.1, st.2, r.2)
        else dispatchWhile n r.1 st.2 r.2

/-- `dispatch_for`; the body is copied for every word. -/
def dispatchFor (name : Text) (body : PList) : Int → List Text → Prog Shell Int
  | status, [] => pure status
  | _, word :: words => do
      let s ← look id
      match setenv s.ctx.env name word with
      | none => pure 1
      | some env => do
          modify fun s => { s with ctx := { s.ctx with env := env } }
          let r ← dl body
          let s ← look id
          if s.returning then pure s.returnStatus
          else if s.shellAbort then pure r.1
          else dispatchFor name body r.1 words

/-- `dispatch_case`; the body is copied. -/
def dispatchCase (word : Text) (arms : List CaseArm) : Prog Shell Int := do
  let word ← expanding O dl fun w ctx fx => expandWord w ctx word fx
  let bad ← takeExpandErrors
  if bad then pure 1
  else
    match arms.find? fun arm => arm.patterns.any fun pat => casePatMatch pat word with
    | none => pure 0
    | some arm => do
        let r ← dl arm.body
        let s ← look id
        pure (if s.returning then s.returnStatus else r.1)

/-- `dispatch_dbracket`, with its children. -/
def runDbracket (db : List Word) : Prog Shell Int :=
  if db = [] then pure 1
  else do
    let toks ← expanding O dl fun w ctx fx => expandToks w ctx db fx
    let bad ← takeExpandErrors
    if bad then pure 1
    else do
      let s ← look id
      pure (dbrEvalExpr (O.files s.log) shown toks)

/-- `dispatch_fn_def`. -/
def dispatchFnDef (name : Text) (body : PList) : Prog Shell Int := do
  let s ← look id
  match fnSet s.fns name body with
  | none => pure 1
  | some fns => do
      modify fun s => { s with fns := fns }
      pure 0

/-! ## Lists -/

/-- The branches of `dispatch_list` on the kinds of item. -/
def dispatchKind (turns : Nat) (it : Item) : Prog Shell (Int × Item) :=
  match it.kind with
  | .ifc arms => do
      let r ← dispatchIf dl arms
      pure (r.1, { it with kind := .ifc r.2 })
  | .wh cond body => do
      let r ← dispatchWhile dl turns 0 cond body
      pure (r.1, { it with kind := .wh r.2.1 r.2.2 })
  | .fr name words body => do
      let status ← dispatchFor dl name body 0 words
      pure (status, it)
  | .cs word arms => do
      let status ← dispatchCase O dl word arms
      pure (status, it)
  | .db argv => do
      let status ← runDbracket O dl argv
      pure (status, it)
  | .fn name body => do
      let status ← dispatchFnDef name body
      pure (status, it)
  | .pipeline pl =>
      if it.background then do
        let status ← dispatchPipelineBackground O dl pl
        pure (status, it)
      else do
        let r ← dispatchPipeline O dl pl
        pure (r.1, { it with kind := .pipeline r.2 })

/-- One item of `dispatch_list`; signals arrive before it. -/
def dispatchItem (turns : Nat) (it : Item) : Prog Shell (Int × Item) := do
  arrive O
  dispatchKind O dl turns it

/-- `&&` and `||` pass over an item. -/
def shortCircuit (cond : RunCond) (status : Int) : Bool :=
  (cond == .and && status != 0) || (cond == .or && status == 0)

/-- `maybe_errexit`; `rest` are the items behind this one (`andor_not_last`). -/
def maybeErrexit (rest : List Item) (status : Int) : Prog Shell Unit := do
  let s ← look id
  if status ≠ 0 ∧ s.ctx.optE ∧ s.noErrexit = 0 ∧ ¬ (rest.head?.any fun it => it.cond != .always)
  then shellAbortRaise
  else pure ()

/-- The loop of `dispatch_list`. -/
def dispatchItems (turns : Nat) : Int → Bool → List Item → Prog Shell (Int × List Item)
  | status, _, [] => pure (status, [])
  | status, first, it :: items =>
      if !first && shortCircuit it.cond status then do
        let r ← dispatchItems turns status false items
        pure (r.1, it :: r.2)
      else do
        let r ← dispatchItem O dl turns it
        setLastStatus r.1
        emit (.item r.1)
        let s ← look id
        if s.returning then pure (s.returnStatus, r.2 :: items)
        else do
          maybeErrexit items r.1
          let s ← look id
          if s.shellAbort then pure (r.1, r.2 :: items)
          else do
            trapsPoll O dl (if items.isEmpty then .after else .between)
            let rest ← dispatchItems turns r.1 false items
            pure (rest.1, r.2 :: rest.2)

end Dispatch

/-- `dispatch_list`, with a bound on the depth of its recursion and on the turns of
its loops. -/
def dispatchList (O : Outside) : Nat → PList → Prog Shell (Int × PList)
  | 0, _ => cut
  | n + 1, list => dispatchItems O (dispatchList O n) n 0 true list

/-- A run of the shell on a script, up to the end of its process. -/
def script (O : Outside) (n : Nat) (path : Text) : Prog Shell Unit := do
  let status ← runScript O (dispatchList O n) path
  emit (.ended status)
  exit status

/-- The loop of `main` at the prompt, on the lines that are typed and what history
expansion makes of each. -/
def promptLines (dl : PList → Prog Shell (Int × PList)) : List (Text × Text) → Prog Shell Unit
  | [] => emit .promptEnd
  | (line, expanded) :: lines =>
      if line = "exit".toList ∨ line = "quit".toList then emit .promptEnd
      else if line = [] then promptLines dl lines
      else do
        let aliases ← look Shell.aliases
        match petrushParseList (aliasExpandLine aliases expanded) with
        | none => promptLines dl lines
        | some list => do
            onlyIf (list ≠ [] ∧ ¬ listHeredocPending list) do
              let _ ← dl list
              pure ()
            promptLines dl lines

/-- A run of the shell at the prompt, after its rc file. -/
def prompt (O : Outside) (n : Nat) (rc : Text) (lines : List (Text × Text)) : Prog Shell Unit := do
  let _ ← sourceFile O (dispatchList O n) rc
  promptLines (dispatchList O n) lines
  emit (.ended 0)
  exit 0

end Petrush.Mid.Dispatcher
