import Petrush.Lib.Stdio

/-!
# `pudod`: the setuid helper

Model of `src/pudod`: the allow-list reader, the target checks, the child's
argument vector and `main` up to the `fexecve`.  Everything the helper asks
the system is a field of `Host`: the answers of `open`, `fstat`, `realpath`
and `geteuid`, and the bytes of `/etc/petrush/pudo.allow`.

Not modelled: the log messages, and step 5 of `main` (`unsetenv` of dangerous
names), which touches only the helper's own environment; the child's is built
from constants by `buildCleanEnvp`.
-/

namespace Petrush.Pudod

open Petrush.Lib.CText
open Petrush.Lib.Stdio

/-- `PATH_MAX`. -/
def pathMax : Nat := 4096

/-- `MAX_ALLOWED`: size of `allowed_paths`. -/
def maxAllowed : Nat := 64

/-- `PUDOD_MAX_ARGS`. -/
def maxArgs : Nat := 128

/-- The two fields of `struct stat` the helper reads. -/
structure Stat where
  uid : Nat
  mode : Nat
  deriving Repr, DecidableEq

/-- `S_ISREG`. -/
def Stat.isReg (st : Stat) : Bool := st.mode &&& 0o170000 == 0o100000

/-- The allow-list file once opened. -/
structure AllowFile where
  fstat : Option Stat
  fdopens : Bool
  content : Text

/-- The system as the helper sees it.  `realpath_lt` is the documented bound
of `realpath`, which fails with `ENAMETOOLONG` otherwise. -/
structure Host where
  euid : Nat
  allowFile : Option AllowFile
  realpath : Text → Option Text
  realpath_lt : ∀ p q, realpath p = some q → q.length < pathMax
  openNoFollow : Text → Option Nat
  fstat : Nat → Option Stat

/-! ## `allow_resolve.c` -/

/-- `pudod_resolve_allow_entry`; `outsz` is the size of the caller's buffer. -/
def pudodResolveAllowEntry (h : Host) (entry : Text) (outsz : Nat) :
    Option Text :=
  if entry.head? ≠ some '/' then none
  else (h.realpath entry).map (fun canonical => canonical.take (outsz - 1))

/-- The names `pudod_path_is_generic_shell` refuses. -/
def genericShells : List Text :=
  ["sh".toList, "bash".toList, "dash".toList, "ash".toList, "busybox".toList]

/-- What follows the last `/`. -/
def basename (path : Text) : Text :=
  (path.reverse.takeWhile (fun c => c != '/')).reverse

/-- `pudod_path_is_generic_shell`: `1` for a shell, `0` for another name,
`-1` without a base name. -/
def pudodPathIsGenericShell (canonical : Text) : Int :=
  if '/' ∉ canonical then -1
  else if basename canonical = [] then -1
  else if basename canonical ∈ genericShells then 1
  else 0

/-! ## `load_allow_list` -/

/-- The bytes both trimming loops skip. -/
def isTrimmed (c : Char) : Bool :=
  c == ' ' || c == '\t' || c == '\n' || c == '\r'

/-- The body of the reading loop up to the `realpath` call: the entry text in
one piece returned by `fgets`, or `none` for a piece that is skipped. -/
def allowEntry (line : Text) : Option Text :=
  match (cstr line).dropWhile isTrimmed with
  | [] => none
  | c :: p =>
      if c = '#' then none
      else if c = '/' then
        -- the tail loop stops at the first byte of the entry (`end > p`)
        some (c :: (p.reverse.dropWhile isTrimmed).reverse)
      else none

/-- One turn of the reading loop. -/
def loadLine (h : Host) (allowed : List Text) (line : Text) : List Text :=
  match allowEntry line with
  | none => allowed
  | some entry =>
      match pudodResolveAllowEntry h entry pathMax with
      | none => allowed
      | some canonical =>
          if pudodPathIsGenericShell canonical = 1 then allowed
          else allowed ++ [canonical.take (pathMax - 1)]

/-- `while (fgets(line, …) && allowed_count < MAX_ALLOWED)`. -/
def loadLines (h : Host) : List Text → List Text → List Text
  | allowed, [] => allowed
  | allowed, line :: rest =>
      if allowed.length < maxAllowed then loadLines h (loadLine h allowed line) rest
      else allowed

/-- `load_allow_list`: `allowed_paths`, or `none` when the file is refused. -/
def loadAllowList (h : Host) : Option (List Text) :=
  match h.allowFile with
  | none => none
  | some f =>
      match f.fstat with
      | none => none
      | some st =>
          if st.uid ≠ 0 then none
          else if st.mode &&& 0o22 ≠ 0 then none
          else if !f.fdopens then none
          else some (loadLines h [] (fgetsPieces (pathMax - 1) f.content))

/-- `is_allowed`. -/
def isAllowed (allowed : List Text) (resolvedPath : Text) : Bool :=
  allowed.contains resolvedPath

/-! ## The target and the child's arguments -/

/-- `pudod_target_is_root_exec`, true for its `0`. -/
def pudodTargetIsRootExec (st : Stat) : Bool :=
  st.isReg && st.uid == 0 && st.mode &&& 0o111 != 0

/-- `pudod_build_child_argv`; `outCap` is the size of the caller's array. -/
def pudodBuildChildArgv (argv : List Text) (resolved : Text) (outCap : Nat) :
    Option (List Text) :=
  if outCap < 2 then none
  else if argv.length < 2 then none
  else if argv.length - 2 > maxArgs then none
  else if outCap < (argv.length - 2) + 2 then none
  else some (resolved :: argv.drop 2)

/-- `build_clean_envp`. -/
def buildCleanEnvp : List Text :=
  ["PATH=/usr/local/sbin:/usr/local/bin:/usr/sbin:/usr/bin:/sbin:/bin".toList,
   "TERM=xterm-256color".toList, "HOME=/root".toList, "USER=root".toList,
   "LOGNAME=root".toList, "SHELL=/bin/sh".toList]

/-- How `main` ends: `_exit(rc)`, or the call of `fexecve`. -/
inductive Outcome where
  | exit (rc : Nat)
  | fexecve (fd : Nat) (childArgv childEnvp : List Text)
  deriving Repr, DecidableEq

/-- Steps 8 to 11 of `main`, once the allow-list is loaded and `argv[1]` is
known to be absolute. -/
def runTarget (h : Host) (allowed argv : List Text) (userCmd : Text) : Outcome :=
  match h.realpath userCmd with
  | none => .exit 1
  | some resolved =>
      if !isAllowed allowed resolved then .exit 1
      else
        match h.openNoFollow resolved with
        | none => .exit 1
        | some fd =>
            match h.fstat fd with
            | none => .exit 1
            | some st =>
                if !pudodTargetIsRootExec st then .exit 1
                else
                  match pudodBuildChildArgv argv resolved (maxArgs + 2) with
                  | none => .exit 1
                  | some childArgv => .fexecve fd childArgv buildCleanEnvp

/-- `main`. -/
def main (h : Host) (argv : List Text) : Outcome :=
  match loadAllowList h with
  | none => .exit 1
  | some allowed =>
      if h.euid ≠ 0 then .exit 1
      else
        match argv with
        | _ :: userCmd :: _ =>
            if userCmd.head? ≠ some '/' then .exit 1
            else runTarget h allowed argv userCmd
        | _ => .exit 1

end Petrush.Pudod
