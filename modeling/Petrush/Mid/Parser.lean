import Petrush.Mid.Lexer

/-!
# `parser.c`, the upper half: connectors, compound commands, lists

The recursive-descent parser of command lists.  The C functions share one
string `s` and a position `*pos`; here they share a `Cursor`, which keeps the
bytes already passed because the connector scan looks behind (`2>&1`).

`parse_list_until` and the compound parsers call one another.  They are written
against the list parser they call back (`rec`), and `parseListUntil` ties the
knot with a bound on the number of nested or successive items; an input of
length `n` never needs more than `n + 1`.
-/

namespace Petrush.Mid.Parser

open Petrush.Lib.CText
open Petrush.Mid.Ast
open Petrush.Mid.Lexer

/-! ## The cursor -/

/-- The bytes before the position, last one first, and those from it on. -/
structure Cursor where
  before : Text
  after : Text
  deriving Repr, DecidableEq

/-- `*pos += n`. -/
def Cursor.advance : Nat → Cursor → Cursor
  | 0, c => c
  | _ + 1, ⟨b, []⟩ => ⟨b, []⟩
  | n + 1, ⟨b, x :: s⟩ => Cursor.advance n ⟨x :: b, s⟩

/-- The loop of `skip_ws_pos`. -/
def skipWsFrom : Text → Text → Cursor
  | b, [] => ⟨b, []⟩
  | b, x :: s => if isspace x then skipWsFrom (x :: b) s else ⟨b, x :: s⟩

/-- `skip_ws_pos`. -/
def skipWsPos (c : Cursor) : Cursor := skipWsFrom c.before c.after

/-! ## List connectors -/

/-- What `find_list_connector` reports of a connector: the condition of the
next item, its length (0 for `;;`, which is not consumed), and whether it sends
the item before it to the background. -/
structure Connector where
  cond : RunCond
  len : Nat
  bg : Bool
  deriving Repr, DecidableEq

/-- The tests of the loop body on an unquoted byte; `p2`, `p1` are the two bytes
before it. -/
def connectorAt (p2 p1 : Option Char) : Text → Option Connector
  | '&' :: '&' :: _ => some ⟨.and, 2, false⟩
  | '|' :: '|' :: _ => some ⟨.or, 2, false⟩
  | ';' :: ';' :: _ => some ⟨.always, 0, false⟩
  | ';' :: _ => some ⟨.always, 1, false⟩
  | '&' :: '>' :: _ => none
  | '&' :: s =>
      -- the `&` of `2>&1`
      if p2 = some '2' ∧ p1 = some '>' ∧ s.head? = some '1' then none
      else some ⟨.always, 1, true⟩
  | _ => none

/-- The loop of `find_list_connector`: the offset of the first connector.  The
counter passes over the inside of a `$(…)` or `$((…))` group. -/
def findFrom (p2 p1 : Option Char) : Option Char → Nat → Text → Option (Nat × Connector)
  | _, _, [] => none
  | q, skip + 1, c :: s => (findFrom p1 (some c) q skip s).map (Prod.map (· + 1) id)
  | some q, 0, c :: s =>
      (findFrom p1 (some c) (if c = q then none else some q) 0 s).map (Prod.map (· + 1) id)
  | none, 0, c :: s =>
      if isQuote c then (findFrom p1 (some c) (some c) 0 s).map (Prod.map (· + 1) id)
      else if c = '$' ∧ dollarGroupSpan (c :: s) > 0 then
        (findFrom p1 (some c) none (dollarGroupSpan (c :: s) - 1) s).map (Prod.map (· + 1) id)
      else
        match connectorAt p2 p1 (c :: s) with
        | some conn => some (0, conn)
        | none => (findFrom p1 (some c) none 0 s).map (Prod.map (· + 1) id)

/-- `find_list_connector`. -/
def findListConnector (c : Cursor) : Option (Nat × Connector) :=
  findFrom c.before.tail.head? c.before.head? none 0 c.after

/-! ## Reserved words -/

/-- What may follow a reserved word. -/
def kwDelim : Text → Bool
  | [] => true
  | c :: _ => isspace c || c == ';' || c == '&' || c == '|' || c == '<' || c == '>'

/-- `match_kw_at`: the position after the word. -/
def matchKwAt (kw : Text) (c : Cursor) : Option Cursor :=
  let c := skipWsPos c
  if kw.isPrefixOf c.after ∧ kwDelim (c.after.drop kw.length) then some (c.advance kw.length)
  else none

/-- `match_lbrace_at`, `match_rbrace_at` and `match_dsemi_at`: the mark needs
no delimiter after it. -/
def matchMarkAt (mark : Text) (c : Cursor) : Option Cursor :=
  let c := skipWsPos c
  if mark.isPrefixOf c.after then some (c.advance mark.length) else none

/-- `match_lbrace_at`. -/
def matchLbraceAt : Cursor → Option Cursor := matchMarkAt ['{']

/-- `match_rbrace_at`. -/
def matchRbraceAt : Cursor → Option Cursor := matchMarkAt ['}']

/-- `match_dsemi_at`. -/
def matchDsemiAt : Cursor → Option Cursor := matchMarkAt [';', ';']

/-- The stop keywords of `parse_list_until`. -/
inductive Kw where
  | then_
  | else_
  | elif
  | fi
  | do_
  | done
  | rbrace
  | esac
  | dsemi
  deriving Repr, DecidableEq

/-- The branch of `peek_kw_mask` for one keyword. -/
def Kw.matchAt : Kw → Cursor → Bool
  | then_, c => (matchKwAt "then".toList c).isSome
  | else_, c => (matchKwAt "else".toList c).isSome
  | elif, c => (matchKwAt "elif".toList c).isSome
  | fi, c => (matchKwAt "fi".toList c).isSome
  | do_, c => (matchKwAt "do".toList c).isSome
  | done, c => (matchKwAt "done".toList c).isSome
  | rbrace, c => (matchRbraceAt c).isSome
  | esac, c => (matchKwAt "esac".toList c).isSome
  | dsemi, c => (matchDsemiAt c).isSome

/-- `peek_kw_mask`; every caller only asks whether some keyword matches. -/
def peekKwMask (mask : List Kw) (c : Cursor) : Bool := mask.any fun kw => kw.matchAt c

/-! ## Items -/

/-- The answer of one turn of the list loop: an item with the condition of the
next one and whether a connector was read, or the end of the list. -/
inductive ItemResult where
  | item (it : Item) (next : RunCond) (hadConn : Bool) (c : Cursor)
  | stop (c : Cursor)

/-- `parse_pipeline_item` and the handling of its -2: an empty segment ends the
list at the end of the text, unless `&&` or `||` wait for it. -/
def parsePipelineItem (cond : RunCond) (c : Cursor) : Option ItemResult :=
  let found := findListConnector c
  let len := (found.map Prod.fst).getD c.after.length
  let seg := trim isspace (c.after.take len)
  if seg = [] then
    if found.isNone ∧ cond = .always then some (.stop (c.advance len)) else none
  else
    match parsePipeline seg with
    | none => none
    | some pl =>
        match found with
        | some (_, conn) =>
            some (.item ⟨.pipeline pl, cond, conn.bg⟩ conn.cond true (c.advance (len + conn.len)))
        | none => some (.item ⟨.pipeline pl, cond, false⟩ .always false (c.advance len))

/-- `take_conn_after`, and the item it completes. -/
def takeConnAfter (kind : ItemKind) (cond : RunCond) (c : Cursor) : ItemResult :=
  let c := skipWsPos c
  match findListConnector c with
  | some (0, conn) => .item ⟨kind, cond, conn.bg⟩ conn.cond true (c.advance conn.len)
  | _ => .item ⟨kind, cond, false⟩ .always false c

/-- `parse_list_until`, as the functions that call it see it: stop mask,
`require_term`, and the condition of the next item. -/
abbrev ListParser := List Kw → Bool → RunCond → Cursor → Option (PList × Cursor)

/-- A keyword, a list up to a stop keyword, as most compounds have them. -/
def kwThenList (rec : ListParser) (kw : Text) (mask : List Kw) (c : Cursor) :
    Option (PList × Cursor) :=
  (matchKwAt kw c).bind (rec mask true .always)

/-- `parse_while`. -/
def parseWhile (rec : ListParser) (c : Cursor) : Option (ItemKind × Cursor) := do
  let (cond, c) ← kwThenList rec "while".toList [.do_] c
  if cond.isEmpty then none
  else
    let (body, c) ← kwThenList rec "do".toList [.done] c
    let c ← matchKwAt "done".toList c
    some (.wh cond body, c)

/-- The word loop of `parse_for`, up to `;` or `do`. -/
def forWords : Nat → Cursor → Option (List Text × Cursor)
  | 0, _ => none
  | n + 1, c =>
      let c := skipWsPos c
      match c.after with
      | [] => none
      | ';' :: _ => some ([], c.advance 1)
      | s =>
          if (matchKwAt "do".toList c).isSome then some ([], c)
          else
            let (w, k) := scanForWord s
            if w.text = [] then none
            else (forWords n (c.advance k)).map (Prod.map (w.text :: ·) id)

/-- A word that may not be empty, and the position after it. -/
def nonEmptyWord (scan : Text → Word × Nat) (c : Cursor) : Option (Word × Cursor) :=
  let (w, k) := scan c.after
  if w.text = [] then none else some (w, c.advance k)

/-- `parse_for`. -/
def parseFor (rec : ListParser) (c : Cursor) : Option (ItemKind × Cursor) := do
  let c ← matchKwAt "for".toList c
  let c := skipWsPos c
  if c.after.head? = some '(' then none
  else
    let (name, c) ← nonEmptyWord scanForWord c
    let c ← matchKwAt "in".toList c
    let (words, c) ← forWords (c.after.length + 1) c
    let (body, c) ← kwThenList rec "do".toList [.done] c
    let c ← matchKwAt "done".toList c
    some (.fr name.text words body, c)

/-- The pattern loop of `parse_case`, up to `)`. -/
def casePatterns : Nat → Cursor → Option (List Text × Cursor)
  | 0, _ => none
  | n + 1, c =>
      match nonEmptyWord scanCasePattern (skipWsPos c) with
      | none => none
      | some (pat, c) =>
          let c := skipWsPos c
          match c.after with
          | '|' :: _ => (casePatterns n (c.advance 1)).map (Prod.map (pat.text :: ·) id)
          | ')' :: _ => some ([pat.text], c.advance 1)
          | _ => none

/-- The arm loop of `parse_case`, up to `esac`. -/
def caseArms (rec : ListParser) : Nat → Cursor → Option (List CaseArm × Cursor)
  | 0, _ => none
  | n + 1, c =>
      let c := skipWsPos c
      match matchKwAt "esac".toList c with
      | some c => some ([], c)
      | none => do
          let c := if c.after.head? = some '(' then c.advance 1 else c
          let (pats, c) ← casePatterns (c.after.length + 1) c
          let (body, c) ← rec [.dsemi, .esac] true .always c
          let c := skipWsPos c
          match matchDsemiAt c with
          | some c => (caseArms rec n c).map (Prod.map (⟨pats, body⟩ :: ·) id)
          | none =>
              -- the last arm may lack its `;;`
              if (matchKwAt "esac".toList c).isSome then
                (caseArms rec n c).map (Prod.map (⟨pats, body⟩ :: ·) id)
              else none

/-- `parse_case`. -/
def parseCase (rec : ListParser) (c : Cursor) : Option (ItemKind × Cursor) := do
  let c ← matchKwAt "case".toList c
  let (word, c) ← nonEmptyWord scanForWord (skipWsPos c)
  let c ← matchKwAt "in".toList c
  let (arms, c) ← caseArms rec (c.after.length + 1) c
  some (.cs word.text arms, c)

/-- The next token of `[[`: an operator of its own, or a word. -/
def dbToken (c : Cursor) : Option (Word × Cursor) :=
  match c.after with
  | '&' :: '&' :: _ => some (⟨"&&".toList, .unquoted⟩, c.advance 2)
  | '|' :: '|' :: _ => some (⟨"||".toList, .unquoted⟩, c.advance 2)
  | '!' :: s =>
      if s = [] ∨ s.head?.any (fun d => isspace d || d == '&' || d == '|') then
        some (⟨['!'], .unquoted⟩, c.advance 1)
      else nonEmptyWord scanForWord c
  | _ => nonEmptyWord scanForWord c

/-- The token loop of `parse_dbracket`, up to `]]`. -/
def dbTokens : Nat → Cursor → Option (List Word × Cursor)
  | 0, _ => none
  | n + 1, c =>
      let c := skipWsPos c
      match matchKwAt "]]".toList c with
      | some c => some ([], c)
      | none =>
          match dbToken c with
          | none => none
          | some (w, c) => (dbTokens n c).map (Prod.map (w :: ·) id)

/-- `parse_dbracket`. -/
def parseDbracket (c : Cursor) : Option (ItemKind × Cursor) := do
  let c ← matchKwAt "[[".toList c
  let (toks, c) ← dbTokens (c.after.length + 1) c
  some (.db toks, c)

/-- `is_fn_name_start`. -/
def isFnNameStart (c : Char) : Bool := isalpha c || c == '_'

/-- `is_fn_name_char`. -/
def isFnNameChar (c : Char) : Bool := isalnum c || c == '_'

/-- `scan_fn_name`. -/
def scanFnName (c : Cursor) : Option (Text × Cursor) :=
  let c := skipWsPos c
  match c.after with
  | [] => none
  | x :: s =>
      if isFnNameStart x then
        let name := x :: s.takeWhile isFnNameChar
        some (name, c.advance name.length)
      else none

/-- `match_empty_parens`. -/
def matchEmptyParens (c : Cursor) : Option Cursor :=
  (matchMarkAt ['('] c).bind (matchMarkAt [')'])

/-- `looks_like_fn_def`. -/
def looksLikeFnDef (c : Cursor) : Bool :=
  (((scanFnName c).bind fun (_, c) => matchEmptyParens c).bind matchLbraceAt).isSome

/-- `parse_fn`. -/
def parseFn (rec : ListParser) (fromKw : Bool) (c : Cursor) : Option (ItemKind × Cursor) := do
  let c ← if fromKw then matchKwAt "function".toList c else some c
  let (name, c) ← scanFnName c
  let c := skipWsPos c
  let c ←
    if c.after.head? = some '(' then matchEmptyParens c
    else if fromKw then some c else none
  let c ← matchLbraceAt c
  let (body, c) ← rec [.rbrace] true .always c
  let c ← matchRbraceAt c
  some (.fn name body, c)

/-- One arm of `parse_if`, from its condition list on. -/
def parseIfArm (rec : ListParser) (kw : Text) (c : Cursor) : Option (IfArm × Cursor) := do
  let (cond, c) ← kwThenList rec kw [.then_] c
  if cond.isEmpty then none
  else
    let (body, c) ← kwThenList rec "then".toList [.elif, .else_, .fi] c
    some (⟨cond, body, false⟩, c)

/-- The `elif` loop of `parse_if`, the `else` arm and `fi`. -/
def parseElifs (rec : ListParser) : Nat → Cursor → Option (List IfArm × Cursor)
  | 0, _ => none
  | n + 1, c =>
      if (matchKwAt "elif".toList c).isSome then do
        let (arm, c) ← parseIfArm rec "elif".toList c
        let (arms, c) ← parseElifs rec n c
        some (arm :: arms, c)
      else if (matchKwAt "else".toList c).isSome then do
        let (body, c) ← kwThenList rec "else".toList [.fi] c
        let c ← matchKwAt "fi".toList c
        some ([⟨[], body, true⟩], c)
      else do
        let c ← matchKwAt "fi".toList c
        some ([], c)

/-- `parse_if`. -/
def parseIf (rec : ListParser) (c : Cursor) : Option (ItemKind × Cursor) := do
  let (arm, c) ← parseIfArm rec "if".toList c
  let (arms, c) ← parseElifs rec (c.after.length + 1) c
  some (.ifc (arm :: arms), c)

/-! ## Lists -/

/-- The compound command at the cursor, by its keyword; `none` when it is not
one. -/
def compoundAt (rec : ListParser) (c : Cursor) : Option (Option (ItemKind × Cursor)) :=
  if (matchKwAt "if".toList c).isSome then some (parseIf rec c)
  else if (matchKwAt "while".toList c).isSome then some (parseWhile rec c)
  else if (matchKwAt "for".toList c).isSome then some (parseFor rec c)
  else if (matchKwAt "case".toList c).isSome then some (parseCase rec c)
  else if (matchKwAt "[[".toList c).isSome then some (parseDbracket c)
  else if (matchKwAt "function".toList c).isSome then some (parseFn rec true c)
  else if looksLikeFnDef c then some (parseFn rec false c)
  else none

/-- The item at the cursor. -/
def parseItem (rec : ListParser) (cond : RunCond) (c : Cursor) : Option ItemResult :=
  match compoundAt rec c with
  | some parsed => parsed.map fun (kind, c) => takeConnAfter kind cond c
  | none => parsePipelineItem cond c

/-- The end of a turn of the list loop: after a connector the list goes on (`rec`),
otherwise a stop keyword or the end of the text must follow. -/
def listAfterItem (rec : ListParser) (mask : List Kw) (requireTerm : Bool) :
    Option ItemResult → Option (PList × Cursor)
  | none => none
  | some (.stop c) => some ([], c)
  | some (.item it next hadConn c) =>
      if hadConn then (rec mask requireTerm next c).map (Prod.map (it :: ·) id)
      else
        let c := skipWsPos c
        if c.after = [] then
          if requireTerm then none else some ([it], c)
        else if peekKwMask mask c then some ([it], c) else none

/-- `parse_list_until`, with a bound on the items read. -/
def parseListUntil : Nat → ListParser
  | 0, _, _, _, _ => none
  | n + 1, mask, requireTerm, next, c =>
      let c := skipWsPos c
      if c.after = [] then
        if requireTerm ∨ next ≠ .always then none else some ([], c)
      else if peekKwMask mask c then
        if next ≠ .always then none else some ([], c)
      else
        listAfterItem (parseListUntil n) mask requireTerm (parseItem (parseListUntil n) next c)

/-- `petrush_parse_list`. -/
def petrushParseList (input : Text) : Option PList :=
  (parseListUntil (input.length + 1) [] false .always ⟨[], input⟩).map Prod.fst

end Petrush.Mid.Parser
