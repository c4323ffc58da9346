import Petrush.Foundation.Process
import Petrush.Lib.Run
import Petrush.Mid.Builtins
import Petrush.Mid.Dbracket
import Petrush.Mid.Trap

/-!
# The state of the shell

The static variables of `dispatcher.c`, `expand.c`, `source.c` and `alias.c`,
with the signal dispositions of the process and a record of what it has done.

The record (`log`) and what is said about the running code (`proc`, `frames`,
`waits`) are not in the C code.  A forked child is run on a copy of the state; what it
does stands in the same record, under a process of its own, and nothing else
of it comes back.
-/

namespace Petrush.Mid.State

open Petrush.Lib.CText
open Petrush.Lib.Run
open Petrush.Foundation
open Petrush.Foundation.Process
open Petrush.Mid.Alias
open Petrush.Mid.Ast
open Petrush.Mid.Dbracket
open Petrush.Mid.Expand
open Petrush.Mid.Trap

/-! ## The record -/

/-- The ways a child is forked. -/
inductive Child where
  | stage
  | background
  | cmdsubst
  deriving Repr, DecidableEq

/-- A process: how each of its ancestors was forked, and when; the shell itself
is `[]`. -/
abbrev Proc := List (Child × Nat)

/-- A signal's disposition. -/
inductive Disp where
  | dfl
  | ign
  | handler
  deriving Repr, DecidableEq

/-- The dispositions of a process. -/
abbrev Disps := Nat → Disp

/-- What the running code is part of, inside a list of commands. -/
inductive Frame where
  /-- The file of `petrush_run_script`. -/
  | script
  /-- A file being sourced. -/
  | source
  /-- A function call. -/
  | call
  /-- A trap action polled for between two items of a list. -/
  | between
  /-- One polled for after the last item. -/
  | after
  /-- One polled for while a program is waited for. -/
  | waiting
  /-- One polled for by `petrush_run_exit_trap`. -/
  | leaving
  /-- The EXIT action. -/
  | exitTrap
  deriving Repr, DecidableEq

/-- What a shell does. -/
inductive Event where
  /-- `dispatch_pipeline` begins; the words as they stand. -/
  | dispatch (pl : Pipeline)
  /-- `dispatch_pipeline_background` begins. -/
  | background (pl : Pipeline)
  /-- An item of a list has completed. -/
  | item (status : Int)
  | call (name : Text)
  | callEnd (status : Int)
  /-- `return` succeeds. -/
  | returned (code : Int)
  /-- `local` saves a variable. -/
  | saved (depth : Nat) (name : Text) (old : Option Text)
  /-- `g_shell_abort` is raised. -/
  | abort
  /-- `run_file_lines` begins; whether an abort is pending. -/
  | lines (aborted : Bool)
  /-- A slot of the trap table is set. -/
  | trapSet (slot : Nat) (action : Option Text)
  /-- The action of a signal begins. -/
  | trapAction (sig : Nat)
  /-- `builtin_exit` begins. -/
  | exitCall (args : List Text)
  /-- `petrush_run_exit_trap` decides; `g_in_exit`. -/
  | leave (status : Int) (inExit : Bool)
  /-- The EXIT action begins. -/
  | exitAction
  /-- The loop at the prompt ends. -/
  | promptEnd
  /-- The process ends by itself. -/
  | ended (code : Int)
  /-- `dispatch_command` or `dispatch_pipeline` goes on to run a command; the words as
  they are expanded. -/
  | command (argv : List Text)
  /-- A line of `xtrace_print_cmd`. -/
  | trace (argv : List Text)
  /-- A builtin begins. -/
  | builtin (argv : List Text)
  /-- A program is started. -/
  | exec (argv : List Text) (disps : Disps)
  /-- `execve` puts the helper of `pudo` in the place of the process. -/
  | replaced (argv : List Text)
  /-- Signals arrive. -/
  | arrived (sigs : List Nat)
  | forked (child : Child) (id : Nat)

/-- An entry of the record: where and when something was done. -/
structure Entry where
  proc : Proc
  frames : List Frame
  /-- `old_int` and `old_quit` of the waits that are going on. -/
  waits : List (Disp × Disp)
  /-- `$?`. -/
  lastStatus : Int
  /-- `-x`. -/
  optX : Bool
  /-- `g_arith_error` or `g_nounset_error` is set. -/
  failing : Bool
  traps : TrapTable
  disps : Disps
  fds : Fds
  event : Event

/-! ## The state -/

/-- `petrush_local_save_t`. -/
structure LocalSave where
  depth : Nat
  name : Text
  old : Option Text
  deriving Repr, DecidableEq

/-- `g_fns`. -/
abbrev FnTable := List (Option (Text × PList))

structure Shell where
  ctx : Ctx
  aliases : Table := List.replicate 64 none
  fns : FnTable := List.replicate 64 none
  /-- `g_locals`, the top first. -/
  locals : List LocalSave := []
  fnDepth : Nat := 0
  returning : Bool := false
  returnStatus : Int := 0
  shellAbort : Bool := false
  noErrexit : Nat := 0
  traps : TrapTable := fun _ => none
  pending : Nat → Bool := fun _ => false
  disps : Disps := fun _ => .dfl
  fds : Fds := {}
  inTrapPoll : Bool := false
  inExit : Bool := false
  isSubshell : Bool := false
  cmdsubstDepth : Nat := 0
  sourceDepth : Nat := 0
  fx : Effects := {}
  proc : Proc := []
  frames : List Frame := []
  waits : List (Disp × Disp) := []
  log : List Entry := []

/-- A shell that has just started, with the dispositions it was given. -/
def Shell.start (ctx : Ctx) (disps : Disps) : Shell := { ctx := ctx, disps := disps }

/-! ## What is outside -/

/-- How an external command goes: `fork` fails, or the program runs, `waitpid` is
interrupted some times, and a status comes back. -/
inductive Ran where
  | noFork
  | waited (interrupts : Nat) (status : Int)

/-- How a background job goes: the job table is full, `fork` fails, or the child
runs and may find no slot in the table. -/
inductive Started where
  | full
  | noFork
  | forked (registered : Bool)

/-- What `pudo` finds: the allow-list of its configuration, if that can be read; the
helper; the absolute path of a target; and the status the helper ends with, if `execve`
succeeds. -/
structure Pudo where
  config : Option (List Text)
  helper : Option Text
  resolve : Text → Text
  status : Option Int

/-- Everything the shell asks of the rest of the system, as a function of what
has happened so far. -/
structure Outside where
  /-- What a substituted command prints. -/
  hook : List Entry → List Made → Text → Text
  listing : List Entry → Text → Option (List Text)
  /-- What the expansion is of an expression that C leaves undefined. -/
  undefined : List Entry → Text → Text
  files : List Entry → Files
  /-- A builtin that is not modelled: its status and the environment it leaves. -/
  builtin : List Entry → Cmd → Int × Env
  access : List Entry → Access
  /-- Whether a redirection can be opened, behind those of the same command. -/
  opens : List Entry → List Opening → Bool
  /-- Standard input is a terminal, and `/dev/null` can take its place. -/
  detaches : List Entry → Bool
  pudo : List Entry → Env → Pudo
  program : List Entry → Cmd → Ran
  pipeline : List Entry → Pipeline → Ran
  job : List Entry → Started
  /-- The signals that arrive. -/
  arrivals : List Entry → List Nat
  /-- The text of a file that may be read, else the status of `petrush_run_script`. -/
  script : List Entry → Text → Except Int Text

/-- An outside where every program succeeds and no signal arrives. -/
def Outside.quiet : Outside where
  hook _ _ _ := []
  listing _ _ := none
  undefined _ _ := []
  files _ := ⟨fun _ => false, fun _ => false, fun _ => false⟩
  builtin _ _ := (0, fun _ => none)
  access _ := ⟨fun _ => true, fun _ => true, fun _ => none⟩
  opens _ _ := true
  detaches _ := false
  pudo _ _ := ⟨some [], none, id, none⟩
  program _ _ := .waited 0 0
  pipeline _ _ := .waited 0 0
  job _ := .full
  arrivals _ := []
  script _ _ := .error 127

/-! ## Small steps -/

/-- The entry for what is done now. -/
def Shell.entry (s : Shell) (e : Event) : Entry where
  proc := s.proc
  frames := s.frames
  waits := s.waits
  lastStatus := s.ctx.lastStatus
  optX := s.ctx.optX
  failing := s.fx.arithError || s.fx.nounsetError
  traps := s.traps
  disps := s.disps
  fds := s.fds
  event := e

/-- A note in the record. -/
def emit (e : Event) : Prog Shell Unit := modify fun s => { s with log := s.entry e :: s.log }

/-- The code runs as a part of something. -/
def within {α : Type} (frame : Frame) (c : Prog Shell α) : Prog Shell α := do
  modify fun s => { s with frames := frame :: s.frames }
  let a ← c
  modify fun s => { s with frames := s.frames.tail }
  pure a

/-- `petrush_last_status_set`. -/
def setLastStatus (status : Int) : Prog Shell Unit :=
  modify fun s => { s with ctx := { s.ctx with lastStatus := status } }

/-- `shell_abort_raise`. -/
def shellAbortRaise : Prog Shell Unit := do
  emit .abort
  modify fun s => { s with shellAbort := true }

/-- `take_expand_errors`. -/
def takeExpandErrors : Prog Shell Bool := do
  let fx ← look Shell.fx
  modify fun s => { s with fx := { s.fx with arithError := false, nounsetError := false } }
  onlyIf fx.nounsetError shellAbortRaise
  pure (fx.arithError || fx.nounsetError)

/-- A change of one entry of a table. -/
def update {α : Type} (f : Nat → α) (n : Nat) (a : α) : Nat → α := fun m => if m = n then a else f m

/-- Signals arrive: those that are caught are pending. -/
def arrive (O : Outside) : Prog Shell Unit := do
  let sigs ← look fun s => O.arrivals s.log
  if sigs = [] then pure ()
  else do
    emit (.arrived sigs)
    modify fun s =>
      { s with
        pending := fun sig =>
          s.pending sig || (decide (sig ∈ sigs) && decide (s.disps sig = .handler)) }

/-! ## Locals -/

/-- `PETRUSH_LOCAL_STACK_MAX`. -/
def localStackMax : Nat := 256

/-- `local_push`. -/
def localPush (name : Text) : Prog Shell Bool := do
  let s ← look id
  if name = [] ∨ s.locals.length ≥ localStackMax then pure false
  else
    emit (.saved s.fnDepth name (getenv s.ctx.env name))
    modify fun s =>
      { s with locals := ⟨s.fnDepth, name, getenv s.ctx.env name⟩ :: s.locals }
    pure true

/-- One turn of `local_restore_frame`. -/
def localRestore (env : Env) (e : LocalSave) : Env :=
  match e.old with
  | some old => (setenv env e.name old).getD env
  | none => (unsetenv env e.name).getD env

/-- `local_restore_frame`, on the stack and the environment. -/
def localRestoreFrame (depth : Nat) : List LocalSave → Env → List LocalSave × Env
  | [], env => ([], env)
  | e :: locals, env =>
      if e.depth = depth then localRestoreFrame depth locals (localRestore env e)
      else (e :: locals, env)

/-! ## Functions -/

/-- The slot holds the function. -/
def fnHolds (name : Text) : Option (Text × PList) → Bool
  | some (n, _) => n == name
  | none => false

/-- The first slot that `p` picks, overwritten. -/
def setFirstFn (p : Option (Text × PList) → Bool) (entry : Text × PList) : FnTable → Option FnTable
  | [] => none
  | slot :: slots =>
      if p slot then some (some entry :: slots)
      else (setFirstFn p entry slots).map (slot :: ·)

/-- `fn_set`. -/
def fnSet (fns : FnTable) (name : Text) (body : PList) : Option FnTable :=
  if name = [] then none
  else
    match setFirstFn (fnHolds name) (name, body) fns with
    | some fns' => some fns'
    | none => setFirstFn Option.isNone (name, body) fns

/-- `fn_get`. -/
def fnGet (fns : FnTable) (name : Text) : Option PList :=
  (fns.find? (fnHolds name)).bind fun slot => slot.map Prod.snd

/-! ## Signal dispositions -/

/-- `trap_set_slot`; no action is a reset. -/
def trapSetSlot (slot : Nat) (action : Option Text) : Prog Shell Unit := do
  emit (.trapSet slot action)
  modify fun s =>
    let s := { s with traps := update s.traps slot action }
    if slot = 0 then s
    else
      match action with
      | none => { s with pending := update s.pending slot false, disps := update s.disps slot .dfl }
      | some [] =>
          { s with pending := update s.pending slot false, disps := update s.disps slot .ign }
      | some _ => { s with disps := update s.disps slot .handler }

/-- `petrush_trap_reset_for_child`. -/
def trapResetForChild (s : Shell) : Shell :=
  let command (sig : Nat) : Bool := decide (sig < trapNsig) && (s.traps sig).any (· != [])
  { s with
    traps := fun sig => if command sig then none else s.traps sig
    pending := fun sig => if command sig then false else s.pending sig
    disps := fun sig => if command sig && decide (0 < sig) then .dfl else s.disps sig
    inExit := false
    isSubshell := true }

/-- The dispositions a program starts with: what was caught is at its default. -/
def execDisps (disps : Disps) : Disps := fun sig => if disps sig = .handler then .dfl else disps sig

/-- `signal(SIGINT, SIG_DFL); signal(SIGQUIT, SIG_DFL);` -/
def defaultIntQuit (disps : Disps) : Disps := update (update disps sigint .dfl) sigquit .dfl

/-! ## Children -/

/-- A child runs on a copy of the state; the parent only goes on with the record. -/
def fork {α : Type} (child : Child) (prepare : Shell → Shell) (body : Prog Shell α) :
    Prog Shell Unit := do
  let id ← look fun s => s.log.length
  emit (.forked child id)
  modify fun s =>
    let born := { prepare s with proc := (child, id) :: s.proc, frames := [], waits := [] }
    { s with log := (body born).state.log }

end Petrush.Mid.State
