import Petrush.Foundation.Env
import Petrush.Foundation.Process

/-!
# The working directory (`dirstack.c`, `dispatcher.c`)

`builtin_cd`, `builtin_pushd` and `builtin_popd`.  The files are what they are when a
command runs: a directory may have gone, or another may stand at its path.
-/

namespace Petrush.Mid.Dirstack

open Petrush.Foundation
open Petrush.Foundation.Process
open Petrush.Lib.CText

/-- What the system says of the directories. -/
structure Files (δ : Type) where
  /-- The path of a directory that is still there. -/
  path : δ → Option Text
  /-- The directory that `chdir` goes to, from another. -/
  find : δ → Text → Option δ

/-- `DIRSTACK_MAX`. -/
def dirstackMax : Nat := 32

/-- `g_stack` and `g_size`. -/
structure Stack where
  cells : Vector Text dirstackMax
  size : Nat
  size_le : size ≤ dirstackMax

/-- What is on the stack, the last pushed first. -/
def Stack.entries (s : Stack) : List Text := (s.cells.toList.take s.size).reverse

/-- The entry at the top. -/
def Stack.top (s : Stack) (h : 0 < s.size) : Text :=
  s.cells.get ⟨s.size - 1, by have := s.size_le; omega⟩

/-- `g_size--`. -/
def Stack.drop (s : Stack) : Stack :=
  { s with size := s.size - 1, size_le := by have := s.size_le; omega }

/-- `snprintf` into the next cell, and `g_size++`. -/
def Stack.push (s : Stack) (cwd : Text) (h : s.size < dirstackMax) : Stack where
  cells := s.cells.set s.size (cwd.take (pathMax - 1)) h
  size := s.size + 1
  size_le := h

structure Shell (δ : Type) where
  cwd : δ
  stack : Stack
  env : Env

section Commands

variable {δ : Type} (f : Files δ)

/-- `getcwd(buf, PATH_MAX)`. -/
def getcwd (d : δ) : Option Text := (f.path d).filter fun path => path.length < pathMax

/-- `dirstack_pushd`, and whether it succeeds. -/
def dirstackPushd (path : Text) (s : Shell δ) : Bool × Shell δ :=
  if path = [] then (false, s)
  else if h : s.stack.size < dirstackMax then
    match getcwd f s.cwd with
    | none => (false, s)
    | some cwd =>
        match f.find s.cwd path with
        | none => (false, s)
        | some d => (true, { s with cwd := d, stack := s.stack.push cwd h })
  else (false, s)

/-- `dirstack_popd`. -/
def dirstackPopd (s : Shell δ) : Bool × Shell δ :=
  if h : 0 < s.stack.size then
    -- The size goes down before `chdir` is tried.
    let left := { s with stack := s.stack.drop }
    match f.find s.cwd (s.stack.top h) with
    | none => (false, left)
    | some d => (true, { left with cwd := d })
  else (false, s)

/-- `petrush_setenv`, its result not looked at. -/
def setIgnoring (env : Env) (name value : Text) : Env := (setenv env name value).getD env

def pwdName : Text := "PWD".toList

def oldpwdName : Text := "OLDPWD".toList

/-- The path that `builtin_cd` goes to; `none` when `OLDPWD` is not set. -/
def cdTarget (arg : Option Text) (env : Env) : Option Text :=
  let given := (arg.or (getenv env "HOME".toList)).getD []
  let path := if given = [] then ['.'] else given
  if path = ['-'] then (getenv env oldpwdName).filter (· ≠ []) else some path

/-- The variables that `builtin_cd` sets when it has gone from one directory to another. -/
def cdEnv (old new : δ) (env : Env) : Env :=
  let oldcwd := (getcwd f old).getD []
  let env := if oldcwd = [] then env else setIgnoring env oldpwdName oldcwd
  match getcwd f new with
  | some newcwd => setIgnoring env pwdName newcwd
  | none => env

/-- `builtin_cd`, and whether it returns 0. -/
def builtinCd (arg : Option Text) (s : Shell δ) : Bool × Shell δ :=
  match cdTarget arg s.env with
  | none => (false, s)
  | some path =>
      match f.find s.cwd path with
      | none => (false, s)
      | some d => (true, { s with cwd := d, env := cdEnv f s.cwd d s.env })

/-- A command, and its first argument. -/
inductive Command where
  | cd (arg : Option Text)
  | pushd (arg : Option Text)
  | popd
  deriving Repr, DecidableEq

/-- `builtin_cd`, `builtin_pushd` or `builtin_popd`. -/
def run (c : Command) (s : Shell δ) : Bool × Shell δ :=
  match c with
  | .cd arg => builtinCd f arg s
  | .pushd none => (false, s)
  | .pushd (some path) => dirstackPushd f path s
  | .popd => dirstackPopd f s

end Commands

end Petrush.Mid.Dirstack
