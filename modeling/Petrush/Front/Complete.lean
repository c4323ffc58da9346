import Petrush.Foundation.Process
import Petrush.Mid.Dispatcher

/-!
# Completion of the edit line (`front/complete.c`)

`completion_cb`: the lines it offers for what has been typed, in their order.
-/

namespace Petrush.Front.Complete

open Petrush.Foundation
open Petrush.Foundation.Process
open Petrush.Lib.CText

/-- The files: the names in a directory that can be opened, which have no `/`, and what
`access` says of a path with `X_OK`. -/
structure FileSystem where
  opendir : Text → Option (List Text)
  executable : Text → Bool
  slash_notMem : ∀ dir names, opendir dir = some names → ∀ name ∈ names, '/' ∉ name

/-- What is behind the last `c`, as `strrchr` finds it; without one it is everything. -/
def afterLast (c : Char) (t : Text) : Text := (t.reverse.takeWhile (· ≠ c)).reverse

/-- `word`. -/
def word (buf : Text) : Text := afterLast ' ' buf

/-- `word - buf`. -/
def prefixLen (buf : Text) : Nat := buf.length - (word buf).length

/-! ## The first word -/

/-- The builtins. -/
def builtinLines (word : Text) : List Text := Mid.Dispatcher.builtins.filter word.isPrefixOf

/-- The programs in one directory of `PATH`. -/
def dirLines (fs : FileSystem) (word dir : Text) : List Text :=
  ((fs.opendir dir).getD []).filter fun name =>
    word.isPrefixOf name && decide ((dir ++ '/' :: name).length < pathMax) &&
      fs.executable (dir ++ '/' :: name)

/-- The programs. -/
def pathLines (fs : FileSystem) (env : Env) (word : Text) : List Text :=
  (pathDirs env).flatMap (dirLines fs word)

/-! ## Files -/

/-- `base`. -/
def base (word : Text) : Text := afterLast '/' word

/-- `dlen`, when there is a slash. -/
def dlen (word : Text) : Nat := word.length - (base word).length - 1

/-- `dirpath`. -/
def dirpath (word : Text) : Text :=
  if word.contains '/' then (if dlen word = 0 then ['/'] else word.take (dlen word)) else ['.']

/-- `candidate`. -/
def candidate (word name : Text) : Text :=
  if word.contains '/' then dirpath word ++ '/' :: name else name

/-- The line for one entry of the directory. -/
def fileLine (buf name : Text) : Option Text :=
  if name = ['.'] ∨ name = ['.', '.'] then none
  else if !(base (word buf)).isPrefixOf name then none
  else if (candidate (word buf) name).length ≥ pathMax then none
  else if prefixLen buf ≥ pathMax then none
  else if prefixLen buf + (candidate (word buf) name).length + 1 > pathMax then none
  else some (buf.take (prefixLen buf) ++ candidate (word buf) name)

/-- The files of the directory that the word names. -/
def fileLines (fs : FileSystem) (buf : Text) : List Text :=
  if (word buf).contains '/' ∧ dlen (word buf) ≥ pathMax then []
  else ((fs.opendir (dirpath (word buf))).getD []).filterMap (fileLine buf)

/-- `completion_cb`. -/
def completionCb (fs : FileSystem) (env : Env) (buf : Text) : List Text :=
  (if buf.contains ' ' then [] else builtinLines (word buf) ++ pathLines fs env (word buf)) ++
    fileLines fs buf

end Petrush.Front.Complete
