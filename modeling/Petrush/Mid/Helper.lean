import Petrush.Foundation.PluginLoad
import Petrush.Mid.Pudo

/-!
# The way to the helper (`pudo.c`)

`run_via_pudod` looks for the helper (`find_pudod_binary`) and for the target
(`resolve_target_absolute`), and executes the helper.  A build is a release (`NDEBUG`) or
not; `release` is the constant `release_mode`.
-/

namespace Petrush.Mid.Helper

open Petrush.Foundation
open Petrush.Foundation.PluginLoad (lastSlash)
open Petrush.Foundation.Process (pathMax)
open Petrush.Lib.CText
open Petrush.Lib.Cells
open Petrush.Mid.Pudo

/-- What is asked of the system: where `/proc/self/exe` points, `access` with `X_OK`, and
`realpath`, which gives an absolute path shorter than `PATH_MAX`. -/
structure System where
  self : Option Text
  executable : Text → Bool
  realpath : Text → Option Text
  realpath_abs : ∀ p q, realpath p = some q → q.head? = some '/'
  realpath_lt : ∀ p q, realpath p = some q → q.length < pathMax

/-! ## Candidates -/

/-- `PUDOD_INSTALL_PATH`. -/
def pudodInstallPath : Text := "/usr/local/libexec/petrush-pudod".toList

/-- `k_pudod_install_dirs`. -/
def pudodInstallDirs : List Text :=
  ["/usr/local/libexec".toList, "/usr/local/bin".toList, "/usr/libexec".toList]

/-- `exact`. -/
def exactPaths : List Text :=
  ["/usr/local/libexec/petrush-pudod".toList, "/usr/local/bin/petrush-pudod".toList,
    "/usr/local/bin/pudod".toList, "/usr/libexec/petrush-pudod".toList]

/-- `debug_rel`. -/
def debugRel : List Text :=
  ["build/pudod".toList, "./build/pudod".toList, "../build/pudod".toList, "./pudod".toList,
    "pudod".toList]

/-- `pudod_basename_ok`. -/
def pudodBasenameOk (base : Text) : Bool :=
  base == "pudod".toList || base == "petrush-pudod".toList

/-- The last branch of a release: the name is the helper's, under a directory of the
installation. -/
def siblingOk (path : Text) : Bool :=
  match lastSlash path with
  | none => false
  | some 0 => false
  | some (i + 1) =>
      pudodBasenameOk (path.drop (i + 2)) &&
        pudodInstallDirs.any fun dir => i + 1 == dir.length && path.take dir.length == dir

/-- `pudo_allow_pudod_candidate`. -/
def pudoAllowPudodCandidate (path : Text) (release : Bool) : Bool :=
  if path = [] then false
  else if release then
    if path.head? ≠ some '/' then false
    else if path = pudodInstallPath then true
    else if exactPaths.contains path then true
    else siblingOk path
  else if path.head? = some '/' then true
  else debugRel.contains path

/-! ## The search -/

section Search

variable (sys : System) (release : Bool)

/-- `try_abs_candidate`, whose buffer has `PATH_MAX` bytes. -/
def tryAbsCandidate (path : Text) : Option Text :=
  if path = [] then none
  else if !sys.executable path then none
  else
    let cand := (sys.realpath path).getD path
    if cand.head? ≠ some '/' then none
    else if !pudoAllowPudodCandidate cand release then none
    else if cand.length ≥ pathMax then none
    else some cand

/-- The names beside the shell itself. -/
def siblings : List Text :=
  match sys.self with
  | none => []
  | some self =>
      let self := self.take (pathMax - 1)
      match lastSlash self with
      | none => []
      | some i =>
          let dir := self.take i
          (["pudod".toList, "petrush-pudod".toList].map fun name => dir ++ '/' :: name).filter
            (·.length < pathMax)

/-- `dev_paths`. -/
def devPaths : List Text := ["build/pudod".toList, "./build/pudod".toList, "../build/pudod".toList]

/-- One of `dev_paths`. -/
def tryDevPath (path : Text) : Option Text :=
  if !sys.executable path then none
  else
    let cand := (sys.realpath path).getD path
    if pudoAllowPudodCandidate cand release then some cand else none

/-- `install_paths`. -/
def installPaths : List Text := pudodInstallPath :: exactPaths

/-- The last resort of a build that is no release. -/
def tryHere : Option Text :=
  if sys.executable "pudod".toList && pudoAllowPudodCandidate "pudod".toList release then
    some "pudod".toList
  else none

/-- `find_pudod_binary`. -/
def findPudodBinary : Option Text :=
  ((siblings sys).findSome? (tryAbsCandidate sys release)).or <|
    (if release then none else devPaths.findSome? (tryDevPath sys release)).or <|
      (installPaths.findSome? (tryAbsCandidate sys release)).or <|
        if release then none else tryHere sys release

/-- `resolve_target_absolute`; `path_copy` has 4096 bytes. -/
def resolveTargetAbsolute (env : Env) (name : Text) : Option Text :=
  if name.contains '/' then
    if sys.executable name then some ((sys.realpath name).getD name) else none
  else
    let path := ((getenv env "PATH".toList).getD "/usr/local/bin:/usr/bin:/bin".toList).take 4095
    let dirs := (path.splitOn ':').filter (· ≠ [])
    ((dirs.map fun dir => (dir ++ '/' :: name).take (pathMax - 1)).find? sys.executable).bind
      sys.realpath

/-- `PUDO_HELPER_ARGV_MAX`. -/
def helperArgvMax : Nat := 128

/-- `pudo_helper_argv_fits`. -/
def pudoHelperArgvFits (argc : Nat) : Bool :=
  if argc < 2 then false else decide (2 + (argc - 2) + 1 ≤ helperArgvMax)

/-- What `run_via_pudod` does: it comes back, or calls `execve`. -/
inductive Delegation where
  | back (status : Nat)
  | execve (path : Text) (argv envp : List Text)
  deriving DecidableEq

/-- `run_via_pudod`. -/
def runViaPudod (env : Env) (statics : Statics) (argv : List Text) : Except Fault Delegation :=
  match findPudodBinary sys release, argv with
  | some pudod, _ :: name :: args =>
      if !pudoHelperArgvFits argv.length then .ok (.back 1)
      else do
        let target := (resolveTargetAbsolute sys env name).getD name
        let statics ← buildCleanEnvp env statics
        pure (.execve pudod (pudod :: target :: args) statics.envp)
  | _, _ => .ok (.back 127)

end Search

end Petrush.Mid.Helper
