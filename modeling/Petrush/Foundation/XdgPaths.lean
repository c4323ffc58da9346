import Petrush.Foundation.Env
import Petrush.Foundation.Process

/-!
# The paths of the configuration and of the history (`foundation/xdg_paths.c`)

`petrush_rc_path` and `petrush_history_path`.  Which paths exist is a parameter.
-/

namespace Petrush.Foundation.XdgPaths

open Petrush.Foundation
open Petrush.Foundation.Process
open Petrush.Lib.CText

/-- `errno`, where a path is refused. -/
inductive Errno where
  | einval
  | enametoolong
  deriving DecidableEq

/-- `path_exists`, from the answers of `access`. -/
def pathExists (access : Text → Bool) (path : Text) : Bool := !path.isEmpty && access path

/-- `copy_out`: what the buffer holds then.  The buffer is NULL, or has a size. -/
def copyOut (buf : Option Nat) (src : Text) : Except Errno Text :=
  match buf with
  | none => .error .einval
  | some buflen =>
      if buflen = 0 then .error .einval
      else if src.length + 1 > buflen then .error .enametoolong
      else .ok src

/-- A variable that is set, and not empty. -/
def nonempty (env : Env) (name : Text) : Option Text := (getenv env name).filter fun t => !t.isEmpty

/-- `snprintf(out, outlen, …)`. -/
def snprintf (outlen : Nat) (text : Text) : Text := text.take (outlen - 1)

/-! ## The texts that are printed -/

/-- Under an XDG variable, else under `HOME`, else from the working directory. -/
def xdgText (env : Env) (var file homeFile bare : Text) : Text :=
  match nonempty env var, nonempty env "HOME".toList with
  | some xdg, _ => xdg ++ file
  | none, some home => home ++ homeFile
  | none, none => bare

/-- Under `HOME`, else from the working directory. -/
def legacyText (env : Env) (homeFile bare : Text) : Text :=
  match nonempty env "HOME".toList with
  | some home => home ++ homeFile
  | none => bare

def rcXdgText (env : Env) : Text :=
  xdgText env "XDG_CONFIG_HOME".toList "/petrush/rc".toList "/.config/petrush/rc".toList
    ".config/petrush/rc".toList

def rcLegacyText (env : Env) : Text := legacyText env "/.petrushrc".toList ".petrushrc".toList

def histXdgText (env : Env) : Text :=
  xdgText env "XDG_STATE_HOME".toList "/petrush/history".toList
    "/.local/state/petrush/history".toList ".local/state/petrush/history".toList

def histLegacyText (env : Env) : Text :=
  legacyText env "/.petrush_history".toList ".petrush_history".toList

/-- `build_rc_xdg`. -/
def buildRcXdg (env : Env) (outlen : Nat) : Text := snprintf outlen (rcXdgText env)

/-- `build_rc_legacy`. -/
def buildRcLegacy (env : Env) (outlen : Nat) : Text := snprintf outlen (rcLegacyText env)

/-- `build_hist_xdg`. -/
def buildHistXdg (env : Env) (outlen : Nat) : Text := snprintf outlen (histXdgText env)

/-- `build_hist_legacy`. -/
def buildHistLegacy (env : Env) (outlen : Nat) : Text := snprintf outlen (histLegacyText env)

/-! ## The choice -/

/-- The legacy path is taken when it alone exists. -/
def legacyAlone (access : Text → Bool) (xdg legacy : Text) : Bool :=
  !pathExists access xdg && pathExists access legacy

/-- `chosen`. -/
def chosen (access : Text → Bool) (xdg legacy : Text) : Text :=
  if legacyAlone access xdg legacy then legacy else xdg

/-- `petrush_rc_path`. -/
def petrushRcPath (access : Text → Bool) (env : Env) (buf : Option Nat) : Except Errno Text :=
  copyOut buf (chosen access (buildRcXdg env pathMax) (buildRcLegacy env pathMax))

/-- `petrush_history_path`. -/
def petrushHistoryPath (access : Text → Bool) (env : Env) (buf : Option Nat) :
    Except Errno Text :=
  copyOut buf (chosen access (buildHistXdg env pathMax) (buildHistLegacy env pathMax))

end Petrush.Foundation.XdgPaths
