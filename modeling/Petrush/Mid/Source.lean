import Petrush.Mid.Alias
import Petrush.Mid.Heredoc
import Petrush.Mid.Parser

/-!
# Reading a script (`source.c`)

`run_file_lines` reads a command line, expands its alias, parses it and, when it
has here-documents, lets `fill_heredocs` read their lines before it dispatches
the list.  Both read with `fgets` into a buffer of 4096 bytes.

`takeLine` is what one string read makes of the two readers.
-/

namespace Petrush.Mid.Source

open Petrush.Lib.CText
open Petrush.Mid.Alias
open Petrush.Mid.Ast
open Petrush.Mid.Heredoc
open Petrush.Mid.Parser

/-- The bytes `fgets` may put into `linebuf`. -/
def linebufRoom : Nat := 4095

/-- The string in `linebuf` without its newline. -/
def chomp (raw : Text) : Text :=
  if (cstr raw).getLast? = some '\n' then (cstr raw).dropLast else cstr raw

/-- Who reads the next string: `run_file_lines`, or `fill_heredocs` for a list. -/
inductive Mode where
  | command
  | filling (list : PList)

/-- What a string makes of the reader. -/
inductive Line where
  | skip
  | bad
  | failed
  | more (list : PList)
  | ready (list : PList)

/-- A command line begins behind its blanks. -/
def commandStart (raw : Text) : Text := (chomp raw).dropWhile (fun c => c == ' ' || c == '\t')

/-- Blank lines and comments are passed over. -/
def commandSkipped (raw : Text) : Bool :=
  commandStart raw == [] || (commandStart raw).head? == some '#'

/-- One string read: blank and comment lines are skipped, a command line is
parsed, a here-document line is fed to the list. -/
def takeLine (aliases : Table) : Mode → Text → Line
  | .command, raw =>
      if commandSkipped raw then .skip
      else
        match petrushParseList (aliasExpandLine aliases (commandStart raw)) with
        | none => .bad
        | some list => if listHeredocPending list then .more list else .ready list
  | .filling list, raw =>
      let fed := petrushHeredocFeedLine list (some (chomp raw))
      if fed.1 < 0 then .failed
      else if listHeredocPending fed.2 then .more fed.2
      else .ready fed.2

end Petrush.Mid.Source
