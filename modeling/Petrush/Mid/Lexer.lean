import Petrush.Mid.Ast

/-!
# `parser.c`, the lower half: group spans, words, tokens, stages

Everything between a line and its `Pipeline`: the spans of `$(…)` and
`$((…))`, the word scanner, the tokenizer and `build_stage`.

A C loop that jumps over `k` bytes (`p += sp`) is a recursion over the bytes
with a counter of those still to be passed over, so every scan is structural.
-/

namespace Petrush.Mid.Lexer

open Petrush.Lib.CText
open Petrush.Mid.Ast

/-- `is_quote`. -/
def isQuote (c : Char) : Bool := c == '"' || c == '\''

/-! ## Spans of `$(…)` and `$((…))` -/

/-- One turn of the loop both span functions share: the number of open
parentheses and the open quote after the byte `c`. -/
def spanStep (depth : Nat) (quote : Option Char) (c : Char) : Nat × Option Char :=
  match quote with
  | some q => (depth, if c = q then none else some q)
  | none =>
      if c = '\'' ∨ c = '"' then (depth, some c)
      else if c = '(' then (depth + 1, none)
      else if c = ')' then (depth - 1, none)
      else (depth, none)

/-- The loop: bytes read until `depth` parentheses are closed, quotes protecting
what they enclose; `none` when they are not. -/
def spanLoop : Nat → Option Char → Text → Option Nat
  | 0, _, _ => some 0
  | _ + 1, _, [] => none
  | depth + 1, quote, c :: s =>
      (spanLoop (spanStep (depth + 1) quote c).1 (spanStep (depth + 1) quote c).2 s).map (· + 1)

/-- `petrush_cmdsubst_span`. -/
def cmdsubstSpan : Text → Nat
  | '$' :: '(' :: s =>
      if s.head? = some '(' then 0
      else ((spanLoop 1 none s).map (· + 2)).getD 0
  | _ => 0

/-- `petrush_arith_span`. -/
def arithSpan : Text → Nat
  | '$' :: '(' :: '(' :: s => ((spanLoop 2 none s).map (· + 3)).getD 0
  | _ => 0

/-- `dollar_group_span`. -/
def dollarGroupSpan (p : Text) : Nat :=
  if arithSpan p > 0 then arithSpan p else cmdsubstSpan p

/-! ## Words -/

/-- Length of an unquoted word that ends where `stop` holds of the rest of the
line.  The counter passes over the inside of a `$(…)` or `$((…))` group. -/
def wordLen (stop : Text → Bool) : Nat → Text → Nat
  | _, [] => 0
  | skip + 1, _ :: s => wordLen stop skip s + 1
  | 0, c :: s =>
      if stop (c :: s) then 0
      else wordLen stop (if c = '$' then dollarGroupSpan (c :: s) - 1 else 0) s + 1

/-- The three word scanners differ in where an unquoted word ends.  A quote
counts only as first byte; the word then ends with the same quote.  Returns
the word and the number of bytes taken. -/
def scanWith (stop : Text → Bool) : Text → Word × Nat
  | [] => (⟨[], .unquoted⟩, 0)
  | c :: s =>
      if isQuote c then
        let content := s.takeWhile (fun d => d != c)
        (⟨content, if c = '\'' then .single else .double⟩,
          1 + content.length + (if content.length < s.length then 1 else 0))
      else
        let n := wordLen stop 0 (c :: s)
        (⟨(c :: s).take n, .unquoted⟩, n)

/-- Where `scan_word` ends an unquoted word. -/
def wordStop : Text → Bool
  | [] => true
  | c :: s =>
      isspace c || c == '|' || c == '<' || c == '>' ||
        (c == '&' && s.head? == some '>')

/-- `scan_word`. -/
def scanWord : Text → Word × Nat := scanWith wordStop

/-- Where `scan_for_word` ends an unquoted word. -/
def forWordStop : Text → Bool
  | [] => true
  | c :: _ => isspace c || c == ';' || c == '|' || c == '&' || c == '<' || c == '>'

/-- `scan_for_word`. -/
def scanForWord : Text → Word × Nat := scanWith forWordStop

/-- Where `scan_case_pattern` ends an unquoted pattern. -/
def casePatternStop : Text → Bool
  | [] => true
  | c :: _ =>
      isspace c || c == '|' || c == ')' || c == ';' || c == '&' || c == '<' || c == '>'

/-- `scan_case_pattern`. -/
def scanCasePattern : Text → Word × Nat := scanWith casePatternStop

/-! ## Tokens -/

/-- The operators of `tok_kind_t`. -/
inductive TokKind where
  | pipe
  | lt
  | dless
  | dlessdash
  | gt
  | gtgt
  | errgt
  | errgtgt
  | errtoout
  | ampgt
  deriving Repr, DecidableEq

/-- `token_t`: a word, or an operator (whose `text` is `NULL`). -/
inductive Token where
  | word (w : Word)
  | op (k : TokKind)
  deriving Repr, DecidableEq

/-- What an operator reader answers: 0, 1 with what it consumed, or -1. -/
inductive Consumed where
  | no
  | op (k : TokKind) (len : Nat)
  | invalid
  deriving Repr, DecidableEq

/-- `try_consume_simple_op`. -/
def tryConsumeSimpleOp : Text → Consumed
  | '|' :: _ => .op .pipe 1
  | '<' :: '<' :: '-' :: _ => .op .dlessdash 3
  | '<' :: '<' :: _ => .op .dless 2
  | '<' :: _ => .op .lt 1
  | '&' :: '>' :: _ => .op .ampgt 2
  | '>' :: '>' :: _ => .op .gtgt 2
  | '>' :: _ => .op .gt 1
  | _ => .no

/-- What may follow `2>&1`. -/
def errToOutEnd : Text → Bool
  | [] => true
  | c :: _ => isspace c || c == '|' || c == '<' || c == '>' || c == '&'

/-- `try_consume_err_redir`. -/
def tryConsumeErrRedir : Text → Consumed
  | '2' :: '>' :: '>' :: _ => .op .errgtgt 3
  | '2' :: '>' :: '&' :: '1' :: s =>
      if errToOutEnd s then .op .errtoout 4 else .invalid
  | '2' :: '>' :: '&' :: _ => .invalid
  | '2' :: '>' :: _ => .op .errgt 2
  | _ => .no

/-- The token at a non-blank byte and its length; `none` for an invalid
redirection. -/
def nextToken (s : Text) : Option (Token × Nat) :=
  let word := some (.word (scanWord s).1, (scanWord s).2)
  if s.head?.any isQuote then word
  else
    match tryConsumeSimpleOp s with
    | .op k len => some (.op k, len)
    | _ =>
        match tryConsumeErrRedir s with
        | .op k len => some (.op k, len)
        | .invalid => none
        | .no => word

/-- The loop of `tokenize`; the counter passes over the token just read. -/
def tokenizeFrom : Nat → Text → Option (List Token)
  | _, [] => some []
  | skip + 1, _ :: s => tokenizeFrom skip s
  | 0, c :: s =>
      if isspace c then tokenizeFrom 0 s
      else
        match nextToken (c :: s) with
        | none => none
        | some (tok, len) => (tokenizeFrom (len - 1) s).map (tok :: ·)

/-- `tokenize`. -/
def tokenize (input : Text) : Option (List Token) := tokenizeFrom 0 input

/-! ## Stages -/

/-- `here_clear`. -/
def hereClear (cmd : Cmd) : Cmd :=
  { cmd with
    hereDelim := none, hereBody := none, hereQuoted := false, hereStrip := false
    hereSkipDelims := [], hereFeedI := 0 }

/-- The redirection branches of `build_stage`, for an operator that takes the
word `w` (a path, or a here-document delimiter). -/
def applyRedir (cmd : Cmd) (k : TokKind) (w : Word) : Option Cmd :=
  match k with
  | .dless | .dlessdash =>
      some
        { cmd with
          redirIn := none
          hereSkipDelims := cmd.hereSkipDelims ++ cmd.hereDelim.toList
          hereBody := none
          hereDelim := some w.text
          hereQuoted := w.quoted != .unquoted
          hereStrip := k == .dlessdash
          hereFeedI := 0 }
  | .lt => some { hereClear cmd with redirIn := some w.text }
  | .gt | .gtgt => some { cmd with redirOut := some w.text, redirAppend := k == .gtgt }
  | .errgt | .errgtgt =>
      some
        { cmd with
          redirErr := some w.text, redirErrAppend := k == .errgtgt
          redirErrToOut := false }
  | .ampgt =>
      some
        { cmd with
          redirOut := some w.text, redirAppend := false, redirErr := none
          redirErrAppend := false, redirErrToOut := true }
  | .errtoout | .pipe => none

/-- `2>&1` takes no word; last wins over a path. -/
def applyErrToOut (cmd : Cmd) : Cmd :=
  { cmd with redirErr := none, redirErrAppend := false, redirErrToOut := true }

/-- The token loop of `build_stage`. -/
def buildStageFrom : Cmd → List Token → Option Cmd
  | cmd, [] => some cmd
  | cmd, .word w :: toks => buildStageFrom { cmd with argv := cmd.argv ++ [w] } toks
  | cmd, .op .errtoout :: toks => buildStageFrom (applyErrToOut cmd) toks
  | cmd, .op k :: .word w :: toks =>
      match applyRedir cmd k w with
      | none => none
      | some cmd' => buildStageFrom cmd' toks
  | _, .op _ :: _ => none

/-- `build_stage`: redirections without a command are refused. -/
def buildStage (toks : List Token) : Option Cmd :=
  match buildStageFrom {} toks with
  | none => none
  | some cmd => if cmd.argv = [] then none else some cmd

/-- `petrush_parse_pipeline` after its call of `tokenize`.  An empty stage
(`a | | b`, a leading or a trailing `|`) has no word, so `buildStage` refuses it. -/
def pipelineOf (toks : List Token) : Option Pipeline :=
  if toks = [] then some ⟨[]⟩
  else ((toks.splitOnP (· == .op .pipe)).mapM buildStage).map (⟨·⟩)

/-- `petrush_parse_pipeline`. -/
def parsePipeline (input : Text) : Option Pipeline := (tokenize input).bind pipelineOf

end Petrush.Mid.Lexer
