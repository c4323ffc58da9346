import Petrush.Lib.Descriptors
import Petrush.Mid.State

/-!
# The start of a pipeline (`process.c`)

`execute_pipeline_with_hook` as far as the parent goes: its descriptors, its children, its
dispositions and the terminal, with every call that can fail.  `Mid.Dispatcher` has what
the stages run and the polls while they are waited for.
-/

namespace Petrush.Mid.Launch

open Petrush.Lib.Descriptors
open Petrush.Mid.State

/-- What the calls answer, by the number of the stage or the pipe. -/
structure Answers where
  /-- A `calloc` fails. -/
  noMemory : Bool := false
  pipeFails : Nat → Bool := fun _ => false
  /-- The code of the error, when `find_executable` does not find the command. -/
  notFound : Nat → Option Int := fun _ => none
  forkFails : Nat → Bool := fun _ => false
  /-- The `waitpid` of `pipeline_abort` is interrupted. -/
  interrupted : Nat → Bool := fun _ => false
  /-- `tcsetpgrp` succeeds: standard input is the terminal. -/
  terminal : Bool := true
  /-- `petrush_trap_is_command`. -/
  trapInt : Bool := false
  trapQuit : Bool := false
  /-- The status of the last stage. -/
  status : Int := 0

/-- An end of a pipe, or another file. -/
inductive File (φ : Type) where
  | old (file : φ)
  | readEnd (i : Nat)
  | writeEnd (i : Nat)
  deriving Repr, DecidableEq

/-- The parent. -/
structure Parent (φ : Type) where
  table : Table (File φ)
  sigint : Disp
  sigquit : Disp
  /-- The children that were forked, and whether they have been waited for. -/
  children : List Bool := []
  /-- The terminal has been given to the pipeline. -/
  away : Bool := false

/-- What the call returns: its result, and the exit status if it sets one. -/
structure Result where
  rc : Int
  exitStatus : Option Int := none
  deriving Repr, DecidableEq

section Calls

variable {φ : Type} (a : Answers)

/-- The ends of a pipe. -/
abbrev Ends := Nat × Nat

/-- `pipe`, when it does not fail. -/
def pipe (i : Nat) (t : Table (File φ)) : Table (File φ) × Ends :=
  let r := alloc t (.readEnd i)
  let w := alloc r.1 (.writeEnd i)
  (w.1, (r.2, w.2))

/-- `pipeline_close_pipes`. -/
def pipelineClosePipes (pipes : List Ends) (t : Table (File φ)) : Table (File φ) :=
  pipes.foldl (fun t p => close (close t p.1) p.2) t

/-- The loop that makes the pipes; one that fails closes those before. -/
def openPipes : Nat → Nat → List Ends → Table (File φ) → Table (File φ) × Option (List Ends)
  | 0, _, pipes, t => (t, some pipes)
  | k + 1, i, pipes, t =>
      if a.pipeFails i then (pipelineClosePipes pipes t, none)
      else
        let r := pipe i t
        openPipes k (i + 1) (pipes ++ [r.2]) r.1

/-- `SIGINT` and `SIGQUIT` are ignored, unless they have a command. -/
def ignoreSignals (p : Parent φ) : Parent φ :=
  { p with
    sigint := if a.trapInt then p.sigint else .ign
    sigquit := if a.trapQuit then p.sigquit else .ign }

/-- `pipeline_restore_signals`. -/
def pipelineRestoreSignals (old : Disp × Disp) (p : Parent φ) : Parent φ :=
  { p with sigint := old.1, sigquit := old.2 }

/-- The children `0` to `nKill - 1` are killed and waited for. -/
def reap (nKill : Nat) (children : List Bool) : List Bool :=
  children.mapIdx fun j waited => waited || (decide (j < nKill) && !a.interrupted j)

/-- `pipeline_abort`. -/
def pipelineAbort (pipes : List Ends) (nKill : Nat) (old : Disp × Disp) (p : Parent φ) : Parent φ :=
  pipelineRestoreSignals old
    { p with table := pipelineClosePipes pipes p.table, children := reap a nKill p.children }

/-- A child is forked; the first one gets the terminal (`give_terminal_to`). -/
def forked (i : Nat) (p : Parent φ) : Parent φ :=
  { p with
    children := p.children ++ [false]
    away := if i = 0 then a.terminal || p.away else p.away }

/-- The loop over the stages; `none` when all have started. -/
def startStages (hook : Bool) (pipes : List Ends) (old : Disp × Disp) :
    Nat → Nat → Parent φ → Parent φ × Option Result
  | 0, _, p => (p, none)
  | k + 1, i, p =>
      match if hook then none else a.notFound i with
      | some code => (pipelineAbort a pipes i old p, some { rc := -1, exitStatus := some code })
      | none =>
          if a.forkFails i then (pipelineAbort a pipes 0 old p, some { rc := -1 })
          else startStages hook pipes old k (i + 1) (forked a i p)

/-- `take_terminal_back`. -/
def takeTerminalBack (p : Parent φ) : Parent φ := { p with away := p.away && !a.terminal }

/-- All children are waited for. -/
def waitAll (p : Parent φ) : Parent φ := { p with children := p.children.map fun _ => true }

/-- `execute_external`. -/
def executeExternal (p : Parent φ) : Parent φ × Result :=
  match a.notFound 0 with
  | some code => (p, { rc := -1, exitStatus := some code })
  | none =>
      let old := (p.sigint, p.sigquit)
      let p := ignoreSignals a p
      if a.forkFails 0 then (pipelineRestoreSignals old p, { rc := -1 })
      else
        (pipelineRestoreSignals old (takeTerminalBack a (waitAll (forked a 0 p))),
          { rc := 0, exitStatus := some a.status })

/-- `execute_pipeline_with_hook`, for `n` stages. -/
def executePipelineWithHook (hook : Bool) (n : Nat) (p : Parent φ) : Parent φ × Result :=
  if n = 0 then (p, { rc := -1 })
  else if n = 1 then executeExternal a p
  else if a.noMemory then (p, { rc := -1 })
  else
    match openPipes a (n - 1) 0 [] p.table with
    | (table, none) => ({ p with table := table }, { rc := -1 })
    | (table, some pipes) =>
        let old := (p.sigint, p.sigquit)
        match startStages a hook pipes old n 0 (ignoreSignals a { p with table := table }) with
        | (p, some result) => (p, result)
        | (p, none) =>
            (pipelineRestoreSignals old (takeTerminalBack a
              (waitAll { p with table := pipelineClosePipes pipes p.table })),
              { rc := 0, exitStatus := some a.status })

end Calls

end Petrush.Mid.Launch
