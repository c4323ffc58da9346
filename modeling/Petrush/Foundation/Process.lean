import Petrush.Foundation.Env
import Petrush.Mid.Ast

/-!
# Programs and redirections (`process.c`)

`find_executable`, the codes of its failures, and `petrush_apply_redirs`.  What the
files allow is asked of the outside: `Access` for `access` and `execv`, and a
function of the openings made so far for `open`.
-/

namespace Petrush.Foundation.Process

open Petrush.Lib.CText
open Petrush.Foundation
open Petrush.Mid.Ast

/-- Where a command reads its standard input from. -/
inductive Stdin where
  | inherited
  | body (text : Text)
  | path (path : Text)
  deriving Repr, DecidableEq

/-- The standard input branch of `petrush_apply_redirs`; `none` is its error, a
document without a body. -/
def applyStdin (cmd : Cmd) : Option Stdin :=
  match cmd.hereBody, cmd.hereDelim, cmd.redirIn with
  | some body, _, _ => some (.body body)
  | none, some _, _ => none
  | none, none, some path => some (.path path)
  | none, none, none => some .inherited

/-! ## Descriptors -/

/-- A file that a redirection opens, and how; `>` creates it (`O_EXCL`). -/
inductive Opening where
  | body (text : Text)
  | read (path : Text)
  | create (path : Text)
  | append (path : Text)
  deriving Repr, DecidableEq

/-- What a descriptor is bound to. -/
inductive Fd where
  /-- What the shell was started with. -/
  | given (n : Nat)
  | opened (file : Opening)
  /-- The pipe behind the stage `i` of a pipeline, or of a command substitution, and
  when it was made. -/
  | pipe (since i : Nat)
  | null
  deriving Repr, DecidableEq

/-- The descriptors 0, 1 and 2. -/
structure Fds where
  stdin : Fd := .given 0
  stdout : Fd := .given 1
  stderr : Fd := .given 2
  deriving Repr, DecidableEq

section Redirs

-- Whether the last of the openings of a command succeeds; it stands first.
variable (opens : List Opening → Bool)

/-- An `open`, behind those already made. -/
def openFile (file : Opening) (made : List Opening) : Option (Fd × List Opening) :=
  if opens (file :: made) then some (.opened file, file :: made) else none

/-- The opening for `>` or `>>`. -/
def writing (append : Bool) (path : Text) : Opening := if append then .append path else .create path

/-- The standard input of `petrush_apply_redirs`. -/
def redirStdin (cmd : Cmd) (fds : Fds) : Option (Fds × List Opening) :=
  match applyStdin cmd with
  | none => none
  | some .inherited => some (fds, [])
  | some (.body text) => (openFile opens (.body text) []).map fun r => ({ fds with stdin := r.1 }, r.2)
  | some (.path path) => (openFile opens (.read path) []).map fun r => ({ fds with stdin := r.1 }, r.2)

/-- The standard output. -/
def redirStdout (cmd : Cmd) (fds : Fds) (made : List Opening) : Option (Fds × List Opening) :=
  match cmd.redirOut with
  | none => some (fds, made)
  | some path =>
      (openFile opens (writing cmd.redirAppend path) made).map fun r =>
        ({ fds with stdout := r.1 }, r.2)

/-- The standard error, which may follow the standard output. -/
def redirStderr (cmd : Cmd) (fds : Fds) (made : List Opening) : Option Fds :=
  match cmd.redirErr with
  | some path =>
      (openFile opens (writing cmd.redirErrAppend path) made).map fun r => { fds with stderr := r.1 }
  | none => some (if cmd.redirErrToOut then { fds with stderr := fds.stdout } else fds)

/-- `petrush_apply_redirs`; `none` is its error. -/
def petrushApplyRedirs (cmd : Cmd) (fds : Fds) : Option Fds := do
  let (fds, made) ← redirStdin opens cmd fds
  let (fds, made) ← redirStdout opens cmd fds made
  redirStderr opens cmd fds made

end Redirs

example :
    petrushApplyRedirs (fun _ => true) { redirOut := some ['f'], redirErrToOut := true } {} =
      some { stdout := .opened (.create ['f']), stderr := .opened (.create ['f']) } := by decide

/-! ## Executables -/

/-- What `access` and `execv` say of a path; an error of `execv` is `EACCES` or `EPERM`
(`true`), or another. -/
structure Access where
  executable : Text → Bool
  present : Text → Bool
  execError : Text → Option Bool

/-- `PATH_MAX`. -/
def pathMax : Nat := 4096

/-- The directories of `PATH`, as `strtok` finds them. -/
def pathDirs (env : Env) : List Text :=
  (((getenv env "PATH".toList).getD "/bin:/usr/bin".toList).splitOn ':').filter (· ≠ [])

/-- `find_executable`. -/
def findExecutable (access : Access) (env : Env) (name : Text) : Option Text :=
  if name.contains '/' then (if access.executable name then some name else none)
  else
    ((pathDirs env).map fun dir => (dir ++ '/' :: name).take (pathMax - 1)).find? access.executable

/-- `shell_error_code_for`. -/
def shellErrorCodeFor (access : Access) (name : Text) : Int :=
  if name.contains '/' ∧ access.present name then 126 else 127

end Petrush.Foundation.Process
