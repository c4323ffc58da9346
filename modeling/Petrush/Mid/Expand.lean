import Petrush.Mid.Arith
import Petrush.Mid.Glob
import Petrush.Mid.Lexer

/-!
# Word expansion (`expand.c`)

`expand_params_inner`, `expand_brace`, `expand_word` and `expand_cmd_argv`.
Expansion reads the variables, positionals and options (`Ctx`) and the outside
world (`World`: the command-substitution hook, which `dispatch_list` has always
set, the directories, and what C leaves undefined); it raises the two error flags.

`Effects` keeps one thing the C code does not store: the substitutions made so
far, newest first.  The hook's answers may depend on them, so that a command
substituted twice may answer differently, and "nothing was expanded" can be
said.
-/

namespace Petrush.Mid.Expand

open Petrush.Lib.CText
open Petrush.Foundation
open Petrush.Mid.Ast
open Petrush.Mid.Lexer
open Petrush.Mid.Arith
open Petrush.Mid.Glob

/-! ## State -/

/-- Variables, positionals and options. -/
structure Ctx where
  env : Env
  arg0 : Text := []
  args : List Text := []
  optE : Bool := false
  optU : Bool := false
  optX : Bool := false
  lastStatus : Int := 0

/-- `petrush_positional_get`. -/
def positionalGet (ctx : Ctx) (n : Nat) : Option Text :=
  if n = 0 then some ctx.arg0 else ctx.args[n - 1]?

/-- `petrush_shellopt_flags`. -/
def shelloptFlags (ctx : Ctx) : Text :=
  ['C'] ++ (if ctx.optE then ['e'] else []) ++ (if ctx.optU then ['u'] else []) ++
    (if ctx.optX then ['x'] else [])

/-- `ifs_join_char`. -/
def ifsJoinChar (ctx : Ctx) : Char := ((getenv ctx.env "IFS".toList).bind List.head?).getD ' '

/-- `positional_join`. -/
def positionalJoin (ctx : Ctx) : Text := [ifsJoinChar ctx].intercalate ctx.args

/-- A number as `snprintf` writes it. -/
def decimal (n : Int) : Text :=
  if n < 0 then '-' :: Nat.toDigits 10 n.natAbs else Nat.toDigits 10 n.natAbs

/-- The forms `$` can begin. -/
inductive Dollar where
  | length (name : Text)
  | var (name : Text)
  | default (name word : Text)
  | alternate (name word : Text)
  | count
  | status
  | flags
  | join
  | digit (d : Char)
  | arith (inner : Text)
  | cmdsubst (inner : Text)
  deriving Repr, DecidableEq

/-- A substitution made: a form, `~`, or a word that was `$@` or `$*`. -/
inductive Subst where
  | dollar (d : Dollar)
  | tilde
  | positional
  deriving Repr, DecidableEq

/-- A substitution and the error flags when it is made. -/
structure Made where
  subst : Subst
  arithError : Bool
  nounsetError : Bool
  deriving Repr, DecidableEq

/-- What expansion leaves: the error flags and the substitutions. -/
structure Effects where
  arithError : Bool := false
  nounsetError : Bool := false
  log : List Made := []
  deriving Repr, DecidableEq

/-- `nounset_fail`. -/
def Effects.nounsetFail (fx : Effects) : Effects := { fx with nounsetError := true }

/-- `g_arith_error = 1`. -/
def Effects.arithFail (fx : Effects) : Effects := { fx with arithError := true }

/-- The substitution is recorded. -/
def Effects.record (fx : Effects) (x : Subst) : Effects :=
  { fx with log := ⟨x, fx.arithError, fx.nounsetError⟩ :: fx.log }

/-- What is outside the shell: what a substituted command prints, after the
substitutions made so far, and the directories; and what becomes of an expression whose
evaluation C leaves undefined. -/
structure World where
  hook : List Made → Text → Text
  listing : Listing
  undefined : Text → Text

/-! ## The forms -/

/-- `expand_brace`, as far as it reads: the form after `${` and the length of its
body; `none` leaves the `$` literal.  The body ends at the first closing brace. -/
def braceAt (s : Text) : Option (Dollar × Nat) :=
  let body := s.takeWhile (· != '\x7d')
  if body.length = s.length then none
  else if body.head? = some '#' then
    let name := body.tail
    if name ≠ [] ∧ name.all isNameChar then some (.length name, body.length) else none
  else
    let name := body.takeWhile isNameChar
    if name = [] then none
    else
      match body.drop name.length with
      | [] => some (.var name, body.length)
      | ':' :: '-' :: word => some (.default name word, body.length)
      | ':' :: '+' :: word => some (.alternate name word, body.length)
      | _ => none

/-- The branches of `expand_params_inner` at a `$`: the form and its length;
`none` when the `$` stands for itself. -/
def dollarAt : Text → Option (Dollar × Nat)
  | '$' :: '\x7b' :: s => (braceAt s).map fun (d, n) => (d, n + 3)
  | '$' :: '#' :: _ => some (.count, 2)
  | '$' :: '?' :: _ => some (.status, 2)
  | '$' :: '-' :: _ => some (.flags, 2)
  | '$' :: '@' :: _ => some (.join, 2)
  | '$' :: '*' :: _ => some (.join, 2)
  | '$' :: '(' :: s =>
      let asp := arithSpan ('$' :: '(' :: s)
      let sp := cmdsubstSpan ('$' :: '(' :: s)
      if asp > 0 then some (.arith ((s.drop 1).take (asp - 5)), asp)
      else if sp = 0 then none
      else some (.cmdsubst (s.take (sp - 3)), sp)
  | '$' :: c :: s =>
      if isdigit c then some (.digit c, 2)
      else if isNameChar c then
        let name := (c :: s).takeWhile isNameChar
        some (.var name, name.length + 1)
      else none
  | _ => none

/-- What stands at one position: text to copy, or a form to substitute. -/
inductive Piece where
  | lit (t : Text)
  | form (d : Dollar)
  deriving Repr, DecidableEq

/-- A backslash of a here-document: what it leaves and how much it takes. -/
def heredocEscape : Text → Text × Nat
  | c :: _ =>
      if c == '$' || c == '\x60' || c == '\\' then ([c], 2)
      else if c = '\n' then ([], 2)
      else (['\\', c], 2)
  | [] => (['\\'], 1)

/-- The piece at a position and its length. -/
def pieceAt (esc : Bool) : Text → Piece × Nat
  | [] => (.lit [], 1)
  | c :: s =>
      if esc ∧ c = '\\' then (.lit (heredocEscape s).1, (heredocEscape s).2)
      else
        match dollarAt (c :: s) with
        | some (d, len) => (.form d, len)
        | none => (.lit [c], 1)

section Expansion

variable (w : World) (ctx : Ctx)

/-- The answer of the hook without its trailing newlines. -/
def runCmdsubst (fx : Effects) (inner : Text) : Text :=
  ((w.hook fx.log inner).reverse.dropWhile (· == '\n')).reverse

/-- The value of a variable; the name is cut at the size of `nbuf`. -/
def varValue (name : Text) : Option Text := getenv ctx.env (name.take 255)

/-- An unset parameter is empty, and an error under `-u`. -/
def orUnset (v : Option Text) (fx : Effects) : Text × Effects :=
  match v with
  | some v => (v, fx)
  | none => ([], if ctx.optU then fx.nounsetFail else fx)

/-- The value of a form; `word` is `expand_word` for the words inside braces. -/
def evalDollar (word : Text → Effects → Text × Effects) (d : Dollar) (fx : Effects) :
    Text × Effects :=
  let fx := fx.record (.dollar d)
  match d with
  | .length name =>
      let (v, fx) := orUnset ctx (varValue ctx name) fx
      (decimal v.length, fx)
  | .var name => orUnset ctx (varValue ctx name) fx
  | .default name inner =>
      match varValue ctx name with
      | some (c :: v) => (c :: v, fx)
      | _ => word inner fx
  | .alternate name inner =>
      match varValue ctx name with
      | some (_ :: _) => word inner fx
      | _ => ([], fx)
  | .count => (decimal ctx.args.length, fx)
  | .status => (decimal ctx.lastStatus, fx)
  | .flags => (shelloptFlags ctx, fx)
  | .join => (positionalJoin ctx, fx)
  | .digit d => orUnset ctx (positionalGet ctx (digitValue d)) fx
  | .arith inner =>
      match evalArith ctx.env (positionalGet ctx) inner with
      | .ok v => (decimal v, fx)
      | .error .div0 => (decimal 0, fx.arithFail)
      | .error .syntaxErr => (decimal 0, fx)
      | .error .undefined => (w.undefined inner, fx)
  | .cmdsubst inner => (runCmdsubst w fx inner, fx)

/-- The loop of `expand_params_inner`; the counter passes over the piece just
read. -/
def expandParamsFrom (word : Text → Effects → Text × Effects) (esc : Bool) :
    Nat → Text → Effects → Text × Effects
  | _, [], fx => ([], fx)
  | skip + 1, _ :: s, fx => expandParamsFrom word esc skip s fx
  | 0, c :: s, fx =>
      match pieceAt esc (c :: s) with
      | (.lit t, len) =>
          let (rest, fx) := expandParamsFrom word esc (len - 1) s fx
          (t ++ rest, fx)
      | (.form d, len) =>
          let (v, fx) := evalDollar w ctx word d fx
          let (rest, fx) := expandParamsFrom word esc (len - 1) s fx
          (v ++ rest, fx)

/-- `~` and `~/` at the start of a word. -/
def isTilde : Text → Bool
  | ['~'] => true
  | '~' :: '/' :: _ => true
  | _ => false

/-- `expand_word`, with a bound on the words inside words. -/
def expandWordN : Nat → Text → Effects → Text × Effects
  | 0, t, fx => (t, fx)
  | n + 1, t, fx =>
      if isTilde t then
        ((getenv ctx.env "HOME".toList).getD [] ++ t.tail, fx.record .tilde)
      else expandParamsFrom w ctx (expandWordN n) false 0 t fx

/-- `expand_word`: a word inside a word is shorter. -/
def expandWord (t : Text) (fx : Effects) : Text × Effects := expandWordN w ctx (t.length + 1) t fx

/-- `expand_heredoc_body`. -/
def expandHeredocBody (t : Text) (fx : Effects) : Text × Effects :=
  expandParamsFrom w ctx (expandWordN w ctx t.length) true 0 t fx

/-! ## Simple commands -/

/-- The first loop of `expand_cmd_argv` at one word, with
`expand_positional_token`. -/
def expandArg (word : Word) (fx : Effects) : List Word × Effects :=
  if word.quoted = .single then ([word], fx)
  else if word.text = "$*".toList ∧ word.quoted ≠ .unquoted then
    ([⟨positionalJoin ctx, word.quoted⟩], fx.record .positional)
  else if word.text = "$@".toList ∨ word.text = "$*".toList then
    (ctx.args.map (⟨·, .single⟩), fx.record .positional)
  else
    let (text, fx) := expandWord w ctx word.text fx
    ([⟨text, word.quoted⟩], fx)

/-- The first loop. -/
def expandArgs : List Word → Effects → List Word × Effects
  | [], fx => ([], fx)
  | word :: words, fx =>
      let (front, fx) := expandArg w ctx word fx
      let (rest, fx) := expandArgs words fx
      (front ++ rest, fx)

/-- The second loop of `expand_cmd_argv` at one word. -/
def globArg (word : Word) : List Word :=
  if word.quoted ≠ .unquoted ∨ ¬ patternHasMeta word.text then [word]
  else
    match globWord w.listing word.text with
    | none => [word]
    | some paths => if paths = [word.text] then [word] else paths.map (⟨·, .single⟩)

/-- A redirection path. -/
def expandPath : Option Text → Effects → Option Text × Effects
  | none, fx => (none, fx)
  | some path, fx =>
      let (path, fx) := expandWord w ctx path fx
      (some path, fx)

/-- The here-document body. -/
def expandBody (quoted : Bool) : Option Text → Effects → Option Text × Effects
  | none, fx => (none, fx)
  | some body, fx =>
      if quoted then (some body, fx)
      else
        let (body, fx) := expandHeredocBody w ctx body fx
        (some body, fx)

/-- `expand_cmd_argv`. -/
def expandCmdArgv (cmd : Cmd) (fx : Effects) : Cmd × Effects :=
  let (argv, fx) := expandArgs w ctx cmd.argv fx
  let (redirIn, fx) := expandPath w ctx cmd.redirIn fx
  let (redirOut, fx) := expandPath w ctx cmd.redirOut fx
  let (redirErr, fx) := expandPath w ctx cmd.redirErr fx
  let (hereBody, fx) := expandBody w ctx cmd.hereQuoted cmd.hereBody fx
  ({ cmd with
      argv := argv.flatMap (globArg w), redirIn := redirIn, redirOut := redirOut
      redirErr := redirErr, hereBody := hereBody }, fx)

end Expansion

end Petrush.Mid.Expand
