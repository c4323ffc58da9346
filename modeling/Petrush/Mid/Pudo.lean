import Petrush.Foundation.Env
import Petrush.Foundation.Process
import Petrush.Lib.Cells
import Petrush.Lib.Stdio

/-!
# The front of `pudo` (`pudo.c`)

The allow-list that `builtin_pudo` reads before it looks at its target,
`load_pudo_config`, and the environment that `run_via_pudod` hands to the helper,
`build_clean_envp`.  The command itself is `Dispatcher.builtinPudo`.
-/

namespace Petrush.Mid.Pudo

open Petrush.Foundation
open Petrush.Foundation.Process
open Petrush.Lib.CText
open Petrush.Lib.Cells
open Petrush.Lib.Stdio

/-! ## The allow-list -/

/-- `g_pudo_config`, as far as it is used. -/
structure Config where
  allowedCommands : List (Option Text)
  allowedCount : Nat
  deriving DecidableEq

/-- The names `is_command_allowed` compares with. -/
def Config.allowed (cfg : Config) : List Text :=
  (cfg.allowedCommands.take cfg.allowedCount).reduceOption

/-- What the reader asks of the system: the contents of a file that can be opened,
whether `fseek` succeeds, and whether `calloc` finds room for so many cells.
`strdup` does not fail. -/
structure Files where
  fopen : Text → Option Text
  fseek : Bool
  calloc : Nat → Bool

/-- `path`. -/
def configPath (env : Env) : Text :=
  (((getenv env "HOME".toList).getD ['.']) ++ "/.config/petrush/pudo.conf".toList).take (pathMax - 1)

/-- A blank that both loops skip. -/
def isIndent (c : Char) : Bool := c == ' ' || c == '\t'

/-- The text from `p` on, unless the line is skipped. -/
def unlessSkipped (p : Text) : Option Text :=
  match p with
  | [] => none
  | c :: _ => if c = '#' ∨ c = '\n' then none else some p

/-- One turn of a loop, up to the `continue`. -/
def entryText (line : Text) : Option Text := unlessSkipped ((cstr line).dropWhile isIndent)

/-- The counting loop; an `int` past its range is undefined. -/
def countEntries : Nat → List Text → Except Fault Nat
  | count, [] => .ok count
  | count, line :: rest =>
      match entryText line with
      | none => countEntries count rest
      | some _ => if count + 1 < 2 ^ 31 then countEntries (count + 1) rest else .error .bound

/-- The newline at the end of an entry is removed. -/
def chomp (p : Text) : Text := if p.getLast? = some '\n' then p.dropLast else p

/-- The storing loop. -/
def storeEntries (count : Nat) : Nat → List (Option Text) → List Text →
    Except Fault (Nat × List (Option Text))
  | i, cells, [] => .ok (i, cells)
  | i, cells, line :: rest =>
      if i < count then
        match entryText line with
        | none => storeEntries count i cells rest
        | some p => do
            let cells ← write cells i (some (chomp p))
            storeEntries count (i + 1) cells rest
      else .ok (i, cells)

/-- Size of `line`. -/
def lineSize : Nat := 512

/-- `load_pudo_config`; `none` is its `-1`. -/
def loadPudoConfig (files : Files) (env : Env) : Except Fault (Option Config) := do
  match files.fopen (configPath env) with
  | none => pure (some ⟨[], 0⟩)
  | some content =>
      let pieces := fgetsPieces (lineSize - 1) content
      let count ← countEntries 0 pieces
      if !files.fseek then pure none
      else if count = 0 then pure (some ⟨[], 0⟩)
      else if !files.calloc (count + 1) then pure none
      else
        let (i, cells) ← storeEntries count 0 (List.replicate (count + 1) none) pieces
        let cells ← write cells i none
        pure (some ⟨cells, i⟩)

/-! ## The environment of the helper -/

/-- Where an entry of `env` points: nowhere, to a buffer, or to a literal. -/
inductive Slot where
  | null
  | buffer (b : Nat)
  | literal (t : Text)
  deriving DecidableEq

/-- `env` and `buffers` of `build_clean_envp`; they are static, so that a call finds what
the one before has left. -/
structure Statics where
  env : Vector Slot 32
  buffers : Vector Text 32

/-- `snprintf(buffers[b], sizeof(buffers[b]), …)`. -/
def Statics.print (s : Statics) (b : Nat) (t : Text) : Except Fault Statics :=
  if h : b < 32 then .ok { s with buffers := s.buffers.set b (t.take 511) h } else .error .outside

/-- `env[i] = slot`. -/
def Statics.point (s : Statics) (i : Nat) (slot : Slot) : Except Fault Statics :=
  if h : i < 32 then .ok { s with env := s.env.set i slot h } else .error .outside

/-- The string an entry points to. -/
def Statics.string (s : Statics) : Slot → Text
  | .null => []
  | .buffer b => s.buffers.toList.getD b []
  | .literal t => t

/-- What `execve` reads: the strings before the first NULL. -/
def Statics.envp (s : Statics) : List Text :=
  (s.env.toList.takeWhile (· ≠ .null)).map s.string

/-- `keep`. -/
def keep : List Text :=
  ["HOME".toList, "USER".toList, "LOGNAME".toList, "TERM".toList, "SHELL".toList, "PATH".toList,
   "LANG".toList, "LC_ALL".toList, "LC_CTYPE".toList, "TZ".toList, "TMPDIR".toList, "TMP".toList,
   "TEMP".toList]

/-- A variable in the form of `environ`. -/
def binding (name val : Text) : Text := name ++ '=' :: val

/-- The loop over `keep`, from the index `i` on. -/
def keepVars (env : Env) : List Text → Nat → Statics → Except Fault (Nat × Statics)
  | [], i, s => .ok (i, s)
  | name :: names, i, s =>
      if i < 30 then
        match getenv env name with
        | none => keepVars env names i s
        | some val => do
            let s ← s.print i (binding name val)
            let s ← s.point i (.buffer i)
            keepVars env names (i + 1) s
      else .ok (i, s)

/-- The entry for a `PATH` that is not set. -/
def defaultPath : Text := "PATH=/usr/local/bin:/usr/bin:/bin".toList

/-- The lines after the loop that supply a `PATH`. -/
def addPath (env : Env) (i : Nat) (s : Statics) : Except Fault (Nat × Statics) :=
  match getenv env "PATH".toList with
  | some _ => .ok (i, s)
  | none => do
      let s ← s.point i (.literal defaultPath)
      pure (i + 1, s)

/-- `build_clean_envp`. -/
def buildCleanEnvp (env : Env) (s : Statics) : Except Fault Statics := do
  let (i, s) ← keepVars env keep 0 s
  let (i, s) ← addPath env i s
  s.point i .null

end Petrush.Mid.Pudo
