import Petrush.Verified.Surface

/-!
# One left-to-right scan of a line

The reference that list splitting is compared with: the whole line is read into
lexemes once, by the rule of `scan_word`.  A quoted span opens only where a
token starts with a quote and ends at the next same quote; groups inside
unquoted text are opaque; `&` belongs to a redirection only in `&>` and `2>&1`;
every other `;`, `&&`, `||` and `&` is a connector.

`Lexeme.Tidy` is the condition under which cutting first and tokenizing the
segments agrees with this scan.
-/

namespace Petrush.Verified.LineScan

open Petrush.Lib.CText
open Petrush.Mid.Ast
open Petrush.Mid.Lexer
open Petrush.Verified.Surface

/-! ## Lexemes -/

/-- A token, a connector, or a redirection that `tokenize` refuses. -/
inductive LTok where
  | tok (t : Token)
  | conn (k : Sep)
  | bad
  deriving DecidableEq

/-- Where an unquoted word ends in a whole line. -/
def lineStop : Text → Bool
  | [] => true
  | c :: _ => isspace c || c == '|' || c == '<' || c == '>' || c == '&' || c == ';'

/-- The connector at the start of a token. -/
def connAt : Text → Option Sep
  | '&' :: '&' :: _ => some .and
  | '|' :: '|' :: _ => some .or
  | ';' :: _ => some .seq
  | '&' :: '>' :: _ => none
  | '&' :: _ => some .bg
  | _ => none

/-- The redirection of standard error at the start of a token.  `2>&1` must end
there, and `2>` cannot take `&>` for its path. -/
def errRedirAt : Text → Option (LTok × Nat)
  | '2' :: '>' :: '>' :: _ => some (.tok (.op .errgtgt), 3)
  | '2' :: '>' :: '&' :: '1' :: s =>
      some (if errToOutEnd s || s.head? == some ';' then .tok (.op .errtoout) else .bad, 4)
  | '2' :: '>' :: '&' :: '>' :: _ => some (.bad, 4)
  | '2' :: '>' :: _ => some (.tok (.op .errgt), 2)
  | _ => none

/-- The lexeme at a byte that is not blank, and its length. -/
def lexemeAt (s : Text) : LTok × Nat :=
  let word := (LTok.tok (.word (scanWith lineStop s).1), (scanWith lineStop s).2)
  if s.head?.any isQuote then word
  else
    match connAt s with
    | some k => (.conn k, k.print.length)
    | none =>
        match tryConsumeSimpleOp s with
        | .op k len => (.tok (.op k), len)
        | _ => (errRedirAt s).getD word

/-- A lexeme with the line from its first byte on and its length. -/
structure Lexeme where
  tok : LTok
  text : Text
  len : Nat

/-- The lexemes of a line. -/
def lexFrom : Nat → Text → List Lexeme
  | _, [] => []
  | skip + 1, _ :: s => lexFrom skip s
  | 0, c :: s =>
      if isspace c then lexFrom 0 s
      else
        ⟨(lexemeAt (c :: s)).1, c :: s, (lexemeAt (c :: s)).2⟩ ::
          lexFrom ((lexemeAt (c :: s)).2 - 1) s

/-! ## The list of a line -/

/-- The pipelines of the lexemes: connectors end them, and none may be empty
but after a final `;` or `&`. -/
def itemsOf (next : RunCond) : List Token → List LTok → Option PList
  | [], [] => if next = .always then some [] else none
  | toks, [] => (pipelineOf toks).map fun pl => [⟨.pipeline pl, next, false⟩]
  | toks, .tok t :: rest => itemsOf next (toks ++ [t]) rest
  | _, .bad :: _ => none
  | [], .conn _ :: _ => none
  | toks, .conn k :: rest => do
      let pl ← pipelineOf toks
      let items ← itemsOf k.next [] rest
      some (⟨.pipeline pl, next, k.isBg⟩ :: items)

/-- The list a line stands for by the one scan. -/
def referenceList (line : Text) : Option PList :=
  itemsOf .always [] ((lexFrom 0 line).map Lexeme.tok)

/-! ## The condition -/

/-- No byte of the text can begin a connector. -/
def NoConnector (s : Text) : Prop := ';' ∉ s ∧ '&' ∉ s ∧ ¬ ['|', '|'] <:+: s

/-- A quote stands in the first `n` bytes of `s`, outside groups. -/
def quoteIn : Nat → Nat → Text → Bool
  | 0, _, _ => false
  | _, _, [] => false
  | n + 1, skip + 1, _ :: s => quoteIn n skip s
  | n + 1, 0, c :: s =>
      isQuote c || quoteIn n (if c = '$' then dollarGroupSpan (c :: s) - 1 else 0) s

/-- The bytes of a lexeme. -/
def Lexeme.raw (x : Lexeme) : Text := x.text.take x.len

/-- The line after a lexeme. -/
def Lexeme.rest (x : Lexeme) : Text := x.text.drop x.len

/-- A lexeme on which the two scans agree.  An unquoted word has no quote inside
it, unless no connector byte follows, and no `>&1` directly after a final `2`; a
quoted word left open does not end in a blank. -/
def Lexeme.Tidy (x : Lexeme) : Prop :=
  match x.tok with
  | .tok (.word ⟨_, .unquoted⟩) =>
      (quoteIn x.len 0 x.text = false ∨ NoConnector x.text) ∧
        ¬ (x.raw.getLast? = some '2' ∧ ['>', '&', '1'] <+: x.rest)
  | .tok (.word ⟨_, _⟩) =>
      x.raw.getLast? = x.text.head? ∧ 1 < x.len ∨ ∀ c ∈ x.raw.getLast?, isspace c = false
  | _ => True

instance (s : Text) : Decidable (NoConnector s) :=
  inferInstanceAs (Decidable (';' ∉ s ∧ '&' ∉ s ∧ ¬ ['|', '|'] <:+: s))

instance : DecidablePred Lexeme.Tidy := fun x => by
  unfold Lexeme.Tidy
  split <;> infer_instance

/-- Every lexeme of the line is tidy. -/
def TidyLine (line : Text) : Prop := ∀ x ∈ lexFrom 0 line, x.Tidy

end Petrush.Verified.LineScan
