import Petrush.Foundation.Process
import Petrush.Lib.Streams

/-!
# `read` (`dispatcher.c`)

`builtin_read`, and `run_builtin_with_redirs` as far as it changes the file under
`stdin`.  The stream itself is never changed: what it has buffered stays when descriptor 0
is another file.  Each byte keeps the file that it was read from, which nothing here looks
at.
-/

namespace Petrush.Mid.Read

open Petrush.Foundation
open Petrush.Foundation.Process
open Petrush.Lib.CText
open Petrush.Lib.Streams
open Petrush.Mid.Ast

/-- The file that a byte was read from: the shell's own standard input, or the one that
the redirection number `n` has opened. -/
inductive Origin where
  | own
  | opened (n : Nat)
  deriving Repr, DecidableEq

structure Byte where
  char : Char
  origin : Origin
  deriving Repr, DecidableEq

/-- The bytes of a text. -/
def bytes (origin : Origin) (text : Text) : List Byte := text.map fun c => ⟨c, origin⟩

structure Shell where
  /-- What `stdin` has buffered. -/
  buffer : List Byte := []
  /-- The shell's own standard input. -/
  own : Feed Byte
  /-- How many redirections have been made. -/
  opened : Nat := 0
  env : Env

/-- What a `read` has done. -/
structure Outcome where
  /-- What `fgets` returned. -/
  taken : List Byte := []
  /-- The variable and the value that were set. -/
  assigned : Option (Text × Text) := none
  status : Int
  deriving Repr, DecidableEq

/-- `sizeof(buf) - 1`. -/
def bufRoom : Nat := 8191

/-- `strlen`, and the newline at the end. -/
def chompBuf (piece : Text) : Text :=
  let buf := cstr piece
  if buf.getLast? = some '\n' then buf.dropLast else buf

/-- `builtin_read`, on the stream as it is. -/
def builtinRead (block : ℕ+) (argv : List Text) (env : Env) (stdin : Stream Byte) :
    Outcome × Env × Stream Byte :=
  match argv with
  | [_, name] =>
      if name = [] then ({ status := 1 }, env, stdin)
      else
        match fgets block Byte.char bufRoom stdin with
        | ([], stdin) => ({ status := 1 }, env, stdin)
        | (taken, stdin) =>
            let value := chompBuf (taken.map Byte.char)
            match setenv env name value with
            | none => ({ taken := taken, status := 1 }, env, stdin)
            | some env =>
                ({ taken := taken, assigned := some (name, value), status := 0 }, env, stdin)
  | _ => ({ status := 1 }, env, stdin)

/-- What the files are when a command runs. -/
structure Files where
  opens : List Opening → Bool
  contents : Text → Text
  /-- What the calls of `read` find ready in the file that is opened. -/
  ready : List Nat := []

/-- The text of a file that is opened to be read. -/
def Files.text (files : Files) : Opening → Text
  | .body text => text
  | .read path => files.contents path
  | .create _ | .append _ => []

/-- The file under `stdin` while the command runs; `none` when a redirection fails. -/
def fileUnder (files : Files) (cmd : Cmd) (s : Shell) : Option (Origin × Feed Byte) :=
  (petrushApplyRedirs files.opens cmd {}).map fun fds =>
    match fds.stdin with
    | .opened file =>
        (.opened s.opened, ⟨bytes (.opened s.opened) (files.text file), files.ready⟩)
    | .given _ | .pipe _ _ | .null => (.own, s.own)

/-- The shell after a command that read from the file; the buffer is not emptied. -/
def leave (s : Shell) (origin : Origin) (env : Env) (stdin : Stream Byte) : Shell :=
  match origin with
  | .own => { s with env := env, buffer := stdin.buffer, own := stdin.feed }
  | .opened _ => { s with env := env, buffer := stdin.buffer, opened := s.opened + 1 }

/-- `run_builtin_with_redirs` for `builtin_read`, with the words of the command. -/
def runRead (block : ℕ+) (files : Files) (argv : List Text) (cmd : Cmd) (s : Shell) :
    Outcome × Shell :=
  match fileUnder files cmd s with
  | none => ({ status := 1 }, s)
  | some (origin, file) =>
      let r := builtinRead block argv s.env ⟨s.buffer, file⟩
      (r.1, leave s origin r.2.1 r.2.2)

end Petrush.Mid.Read
