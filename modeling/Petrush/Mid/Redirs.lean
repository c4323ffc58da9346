import Petrush.Lib.Descriptors
import Petrush.Mid.Ast

/-!
# Redirections on the table of descriptors (`process.c`, `dispatcher.c`)

`petrush_apply_redirs` and `run_builtin_with_redirs` with every descriptor they open and
close.  Each call of the system stands at one place of the code and is made at most once,
so that a record of flags says which of them fail.  `Foundation.Process` has the same
redirections without the table.
-/

namespace Petrush.Mid.Redirs

open Petrush.Lib.CText
open Petrush.Lib.Descriptors
open Petrush.Mid.Ast

/-! ## The system -/

/-- An open file: one from before, or the one that is opened for a standard descriptor. -/
inductive File (φ : Type) where
  | old (file : φ)
  | input
  | output
  | error
  deriving Repr, DecidableEq

/-- The calls that fail, by their place. -/
structure Faults where
  /-- The `dup`s that save the descriptors. -/
  saveIn : Bool := false
  saveOut : Bool := false
  saveErr : Bool := false
  /-- `memfd_create`, and what is tried after it. -/
  memfd : Bool := false
  tmpfile : Bool := false
  mkstemp : Bool := false
  /-- The `write`s and the `lseek` of a here-document. -/
  hereWrite : Bool := false
  hereSeek : Bool := false
  openIn : Bool := false
  openOut : Bool := false
  openErr : Bool := false
  /-- The `dup2`s of `petrush_apply_redirs`. -/
  dup2In : Bool := false
  dup2Out : Bool := false
  dup2Err : Bool := false
  /-- Those of `restore_saved_fds`. -/
  restoreIn : Bool := false
  restoreOut : Bool := false
  restoreErr : Bool := false
  deriving Repr, DecidableEq

section Calls

variable {φ : Type} (f : Faults)

/-! ## `petrush_apply_redirs` -/

/-- `open_heredoc_fd`. -/
def openHeredocFd (t : Table (File φ)) : Table (File φ) × Option Nat :=
  if f.memfd && f.tmpfile && f.mkstemp then (t, none)
  else
    let (t, fd) := alloc t .input
    if f.hereWrite then (close t fd, none)
    else if f.hereSeek then (close t fd, none)
    else (t, some fd)

/-- `open`. -/
def openFd (fails : Bool) (file : File φ) (t : Table (File φ)) : Table (File φ) × Option Nat :=
  if fails then (t, none)
  else
    let (t, fd) := alloc t file
    (t, some fd)

/-- `if (fd < 0) return -1; if (dup2(fd, target) < 0) { close(fd); … } close(fd);`, and
whether it succeeds. -/
def moveTo (fails : Bool) (target : Nat) :
    Table (File φ) × Option Nat → Table (File φ) × Bool
  | (t, none) => (t, false)
  | (t, some fd) => if fails then (close t fd, false) else (close (dup2 t fd target) fd, true)

/-- The standard input. -/
def applyIn (cmd : Cmd) (t : Table (File φ)) : Table (File φ) × Bool :=
  if cmd.hereBody.isSome then moveTo f.dup2In 0 (openHeredocFd f t)
  else if cmd.hereDelim.isSome then (t, false)
  else if cmd.redirIn.isSome then moveTo f.dup2In 0 (openFd f.openIn .input t)
  else (t, true)

/-- The standard output. -/
def applyOut (cmd : Cmd) (t : Table (File φ)) : Table (File φ) × Bool :=
  if cmd.redirOut.isSome then moveTo f.dup2Out 1 (openFd f.openOut .output t) else (t, true)

/-- The standard error. -/
def applyErr (cmd : Cmd) (t : Table (File φ)) : Table (File φ) × Bool :=
  if cmd.redirErr.isSome then moveTo f.dup2Err 2 (openFd f.openErr .error t)
  else if cmd.redirErrToOut then (if f.dup2Err then (t, false) else (dup2 t 1 2, true))
  else (t, true)

/-- One part and, unless it fails, the next. -/
def andThen (r : Table (File φ) × Bool) (next : Table (File φ) → Table (File φ) × Bool) :
    Table (File φ) × Bool :=
  if r.2 then next r.1 else r

/-- `petrush_apply_redirs`: the table it leaves, and whether it succeeds. -/
def petrushApplyRedirs (cmd : Cmd) (t : Table (File φ)) : Table (File φ) × Bool :=
  andThen (andThen (applyIn f cmd t) (applyOut f cmd)) (applyErr f cmd)

/-! ## `run_builtin_with_redirs` -/

/-- A `dup` that saves a descriptor, where it is needed: `-1` is `none`. -/
def save (needed fails : Bool) (fd : Nat) (t : Table (File φ)) :
    Option (Table (File φ) × Option Nat) :=
  if needed then
    if fails then none else (dup t fd).map fun r => (r.1, some r.2)
  else some (t, none)

/-- `if (saved >= 0) { dup2(saved, target); close(saved); }` -/
def restore (fails : Bool) (saved : Option Nat) (target : Nat) (t : Table (File φ)) :
    Table (File φ) :=
  match saved with
  | none => t
  | some fd => close (if fails then t else dup2 t fd target) fd

/-- `restore_saved_fds`. -/
def restoreSavedFds (savedIn savedOut savedErr : Option Nat) (t : Table (File φ)) :
    Table (File φ) :=
  restore f.restoreErr savedErr 2
    (restore f.restoreOut savedOut 1 (restore f.restoreIn savedIn 0 t))

/-- What a run leaves: the table, the result, and the table the builtin was called on. -/
structure Done (φ : Type) where
  table : Table (File φ)
  rc : Int
  body : Option (Table (File φ))

/-- The command redirects its standard input. -/
def needsIn (cmd : Cmd) : Bool := cmd.redirIn.isSome || cmd.hereBody.isSome || cmd.hereDelim.isSome

/-- The command redirects its standard error. -/
def needsErr (cmd : Cmd) : Bool := cmd.redirErr.isSome || cmd.redirErrToOut

/-- `run_builtin_with_redirs`; the builtin gives a result for the table it finds. -/
def runBuiltinWithRedirs (fn : Table (File φ) → Int) (cmd : Cmd) (t : Table (File φ)) : Done φ :=
  match save (needsIn cmd) f.saveIn 0 t with
  | none => ⟨t, 1, none⟩
  | some (t, savedIn) =>
      match save cmd.redirOut.isSome f.saveOut 1 t with
      | none => ⟨restoreSavedFds f savedIn none none t, 1, none⟩
      | some (t, savedOut) =>
          match save (needsErr cmd) f.saveErr 2 t with
          | none => ⟨restoreSavedFds f savedIn savedOut none t, 1, none⟩
          | some (t, savedErr) =>
              let r := petrushApplyRedirs f cmd t
              if r.2 then ⟨restoreSavedFds f savedIn savedOut savedErr r.1, fn r.1, some r.1⟩
              else ⟨restoreSavedFds f savedIn savedOut savedErr r.1, 1, none⟩

end Calls

end Petrush.Mid.Redirs
