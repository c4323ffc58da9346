import Petrush.Lib.CText

/-!
# The process environment (`foundation/env.c`)

What `getenv`, `setenv` and `unsetenv` make of the environment.  The order of
its entries is never looked at, so it is a function from names.
-/

namespace Petrush.Foundation

open Petrush.Lib.CText

/-- The environment: the value of each variable that is set. -/
abbrev Env := Text → Option Text

/-- The names `setenv` and `unsetenv` refuse with `EINVAL`. -/
def envNameInvalid (name : Text) : Bool := name.isEmpty || name.contains '='

/-- `petrush_getenv`. -/
def getenv (env : Env) (name : Text) : Option Text := env name

/-- `petrush_setenv` with `overwrite`. -/
def setenv (env : Env) (name value : Text) : Option Env :=
  if envNameInvalid name then none
  else some fun n => if n = name then some value else env n

/-- `petrush_unsetenv`. -/
def unsetenv (env : Env) (name : Text) : Option Env :=
  if envNameInvalid name then none
  else some fun n => if n = name then none else env n

/-- A name `setenv` accepts has the value just given. -/
theorem getenv_setenv_self (env env' : Env) (name value : Text)
    (h : setenv env name value = some env') : getenv env' name = some value := by
  unfold setenv at h
  split at h
  · contradiction
  · obtain rfl := Option.some.inj h
    simp [getenv]

end Petrush.Foundation
