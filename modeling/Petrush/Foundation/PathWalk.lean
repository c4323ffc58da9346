import Petrush.Foundation.PluginLoad
import Petrush.Lib.Cells

/-!
# `petrush_plugin_path_writable_ok` on its buffer (`plugin_load.c`)

`PluginLoad.pathWritableOk` says what the function answers.  Here it works on `dirbuf`,
the array it shortens in place, and what it asks the system is on record.  The loop has
a bound on its turns, which the source has not.
-/

namespace Petrush.Foundation.PathWalk

open Petrush.Lib.CText
open Petrush.Lib.Cells
open Petrush.Foundation.PluginLoad

/-- What the system is asked. -/
inductive Query where
  | lstat (path : Text)
  | stat (path : Text)
  deriving Repr, DecidableEq

/-- The checks on the result of `stat`. -/
def dirRefused (h : Host) (dir : Text) : Bool :=
  match h.stat dir with
  | none => true
  | some st => !st.isDir || st.otherWritable

/-- The loop: the value returned, and the record, the last first. -/
def loop (h : Host) : Nat → List Char → List Query → Except Fault (Int × List Query)
  | 0, _, _ => .error .bound
  | turns + 1, dirbuf, asked =>
      match lastSlash (cstr dirbuf) with
      | none => .ok (-1, asked)
      | some slash => do
          -- `slash == dirbuf`: the root keeps its slash
          let dirbuf ← if slash = 0 then write dirbuf (slash + 1) nul else write dirbuf slash nul
          let asked := .stat (cstr dirbuf) :: asked
          if dirRefused h (cstr dirbuf) then .ok (-1, asked)
          else
            let first ← read dirbuf 0
            let second ← read dirbuf 1
            if first = '/' ∧ second = nul then .ok (0, asked) else loop h turns dirbuf asked

/-- `petrush_plugin_path_writable_ok`; `dirbuf` is the array before the copy. -/
def pathWritableOkAt (h : Host) (turns : Nat) (dirbuf : Vector Char pathMax) (canonPath : Text) :
    Except Fault (Int × List Query) :=
  if canonPath.head? ≠ some '/' then .ok (-1, [])
  else
    let asked := [.lstat canonPath]
    match h.lstat canonPath with
    | none => .ok (-1, asked)
    | some st =>
        if !st.isReg then .ok (-1, asked)
        else if st.otherWritable then .ok (-1, asked)
        else if canonPath.length = 0 ∨ canonPath.length ≥ pathMax then .ok (-1, asked)
        else do
          let dirbuf ← writes dirbuf.toList 0 (canonPath ++ [nul])
          loop h turns dirbuf asked

end Petrush.Foundation.PathWalk
