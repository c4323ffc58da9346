import Petrush.Verified.LoopWords
import Petrush.Verified.Quoting

/-!
# Single quotes

A word in single quotes is scanned alike everywhere, and what becomes of it depends on the
place.  As an argument it keeps its mark, which `expand_cmd_argv` honours; a word of a `for`
list is never expanded.  A redirection path and the word of a `case` have lost the mark, and
`[[ ]]` does not ask for it: they are expanded.  A word of a `for` list, the word of a
`case` and an operand of `[[ ]]` may not be empty.

## Main results

* `argument_verbatim`, `loop_iff`, `path_iff`, `caseWord_iff`, `operand_iff` — each place.
* `verbatim_iff` — the texts that mean themselves in all of them.
-/

namespace Petrush.Verified.SingleQuotes

open Petrush.Foundation
open Petrush.Lib.CText
open Petrush.Mid.Ast
open Petrush.Mid.Dbracket
open Petrush.Mid.Expand
open Petrush.Mid.Glob
open Petrush.Mid.Lexer
open Petrush.Mid.Parser
open Petrush.Mid.State
open Petrush.Verified.Arguments
open Petrush.Verified.InertWords
open Petrush.Verified.Keywords
open Petrush.Verified.LoopWords
open Petrush.Verified.Quoting
open Petrush.Verified.Scanning

/-- The text between single quotes, and what follows. -/
def single (s rest : Text) : Text := '\'' :: s ++ '\'' :: rest

/-- The operators that take a path. -/
inductive PathOp where
  | lt
  | gt
  | gtgt
  | errgt
  | errgtgt
  | ampgt

/-- Its token. -/
def PathOp.kind : PathOp → TokKind
  | .lt => .lt
  | .gt => .gt
  | .gtgt => .gtgt
  | .errgt => .errgt
  | .errgtgt => .errgtgt
  | .ampgt => .ampgt

/-- The path it leaves in the command. -/
def PathOp.path : PathOp → Cmd → Option Text
  | .lt, cmd => cmd.redirIn
  | .gt, cmd | .gtgt, cmd | .ampgt, cmd => cmd.redirOut
  | .errgt, cmd | .errgtgt, cmd => cmd.redirErr

/-- The token `'s'` means `s` in every place: it is accepted, nothing in it is expanded, and `s` is
what arrives. -/
structure Verbatim (s : Text) : Prop where
  argument : ∀ rest, ∃ word len, nextToken (single s rest) = some (.word word, len) ∧
    ∀ (w : World) (ctx : Ctx) (fx : Effects), wordResult w ctx word fx = ([word], fx) ∧ word.text = s
  path : ∀ rest (op : PathOp) (cmd : Cmd), ∃ word len cmd',
    nextToken (single s rest) = some (.word word, len) ∧ applyRedir cmd op.kind word = some cmd' ∧
      ∀ (w : World) (ctx : Ctx) (fx : Effects),
        expandPath w ctx (op.path cmd') fx = (some s, fx)
  loop : ∀ n before rest, ∃ texts c,
    forWords (n + 2) ⟨before, single s (';' :: rest)⟩ = some (texts, c) ∧
      ∀ (sh : Shell) (name : Text), envNameInvalid name = false → sh.returning = false →
        sh.shellAbort = false → seen sh name texts = [s]
  caseWord : ∀ before rest, ∃ word c,
    nonEmptyWord scanForWord ⟨before, single s rest⟩ = some (word, c) ∧
      ∀ (w : World) (ctx : Ctx) (fx : Effects), expandWord w ctx word.text fx = (s, fx)
  operand : ∀ before rest, ∃ word c, dbToken ⟨before, single s rest⟩ = some (word, c) ∧
    ∀ (w : World) (ctx : Ctx) (fx : Effects), expandToks w ctx [word] fx = ([⟨word, s⟩], fx)

/-! ## Each place -/

section Places

variable {s : Text} (hs : '\'' ∉ s)
include hs

theorem nextToken_single (rest : Text) :
    nextToken (single s rest) = some (.word ⟨s, .single⟩, s.length + 2) := by
  have hq : isQuote '\'' = true := by decide
  rw [single, List.cons_append, nextToken_of_isQuote _ hq, scanWord, ← List.cons_append,
    scanWith_quoted _ _ _ _ hq hs]
  rfl

/-- **An argument** means itself. -/
theorem argument_verbatim (rest : Text) : ∃ word len,
    nextToken (single s rest) = some (.word word, len) ∧
      ∀ (w : World) (ctx : Ctx) (fx : Effects),
        wordResult w ctx word fx = ([word], fx) ∧ word.text = s := by
  refine ⟨⟨s, .single⟩, s.length + 2, nextToken_single hs rest, fun w ctx fx => ⟨?_, rfl⟩⟩
  rw [wordResult, if_pos rfl]

omit hs in
/-- Only a text that is still comes back from `expand_word` everywhere. -/
theorem expandWord_same_iff :
    (∀ (w : World) (ctx : Ctx) (fx : Effects), expandWord w ctx s fx = (s, fx)) ↔ Still s := by
  constructor
  · intro h
    by_contra hstill
    have hless := (expandWord_marks s {}).2 hstill
    rw [h bareWorld bareCtx {}] at hless
    exact Nat.lt_irrefl _ hless
  · exact fun h w ctx fx => expandWord_still w ctx h fx

omit hs in
theorem applyRedir_path (op : PathOp) (cmd : Cmd) (word : Word) :
    ∃ cmd', applyRedir cmd op.kind word = some cmd' ∧ op.path cmd' = some word.text := by
  cases op <;> exact ⟨_, rfl, rfl⟩

/-- **A path** means itself when it is still. -/
theorem path_iff : (∀ rest (op : PathOp) (cmd : Cmd), ∃ word len cmd',
    nextToken (single s rest) = some (.word word, len) ∧ applyRedir cmd op.kind word = some cmd' ∧
      ∀ (w : World) (ctx : Ctx) (fx : Effects),
        expandPath w ctx (op.path cmd') fx = (some s, fx)) ↔ Still s := by
  rw [← expandWord_same_iff]
  constructor
  · intro h w ctx fx
    obtain ⟨word, len, cmd', hread, happly, hpath⟩ := h [] .gt {}
    obtain ⟨cmd'', happly', hpath'⟩ := applyRedir_path .gt {} word
    rw [nextToken_single hs] at hread
    obtain ⟨rfl, rfl⟩ : (⟨s, .single⟩ : Word) = word ∧ s.length + 2 = len := by simpa using hread
    obtain rfl := Option.some.inj (happly.symm.trans happly')
    have hsame := hpath w ctx fx
    rw [hpath'] at hsame
    have hfst := Option.some.inj (congrArg Prod.fst hsame)
    have hsnd := congrArg Prod.snd hsame
    exact Prod.ext hfst hsnd
  · intro h rest op cmd
    obtain ⟨cmd', happly, hpath⟩ := applyRedir_path op cmd ⟨s, .single⟩
    refine ⟨⟨s, .single⟩, s.length + 2, cmd', nextToken_single hs rest, happly, fun w ctx fx => ?_⟩
    rw [hpath, expandPath, h w ctx fx]

/-- A quoted word of a list; an empty one is an error. -/
theorem forWords_single (n : Nat) (before rest : Text) :
    forWords (n + 1) ⟨before, single s rest⟩ =
      if s = [] then none
      else (forWords n ⟨('\'' :: s ++ ['\'']).reverse ++ before, rest⟩).map
        (Prod.map (s :: ·) id) := by
  have hstart : skipWsPos ⟨before, single s rest⟩ = ⟨before, single s rest⟩ :=
    skipWsPos_starts (t := ['\'']) ⟨'\'', [], rfl, by decide⟩ before (s ++ '\'' :: rest)
  have hdo : (matchKwAt "do".toList ⟨before, single s rest⟩).isSome = false := by
    rw [matchKwAt, hstart]
    rfl
  have hscan : scanForWord (single s rest) = (⟨s, .single⟩, s.length + 2) :=
    scanWith_quoted forWordStop '\'' s rest (by decide) hs
  have hnext : Cursor.advance (s.length + 2) ⟨before, single s rest⟩ =
      ⟨('\'' :: s ++ ['\'']).reverse ++ before, rest⟩ := by
    have happ := advance_append ('\'' :: s ++ ['\'']) rest before
    rw [List.append_assoc] at happ
    rw [← happ]
    simp [single]
  rw [forWords, hstart]
  show (if (matchKwAt "do".toList ⟨before, single s rest⟩).isSome = true then _ else
    if (scanForWord (single s rest)).1.text = [] then _ else
      (forWords n (Cursor.advance (scanForWord (single s rest)).2 ⟨before, single s rest⟩)).map
        (Prod.map ((scanForWord (single s rest)).1.text :: ·) id)) = _
  rw [hdo, hscan, hnext]
  rfl

/-- **A word of a `for` list** means itself unless it is empty. -/
theorem loop_iff : (∀ n before rest, ∃ texts c,
    forWords (n + 2) ⟨before, single s (';' :: rest)⟩ = some (texts, c) ∧
      ∀ (sh : Shell) (name : Text), envNameInvalid name = false → sh.returning = false →
        sh.shellAbort = false → seen sh name texts = [s]) ↔ s ≠ [] := by
  constructor
  · rintro h rfl
    obtain ⟨texts, c, hread, -⟩ := h 0 [] []
    rw [forWords_single hs] at hread
    contradiction
  · intro hne n before rest
    refine ⟨[s], ⟨';' :: (('\'' :: s ++ ['\'']).reverse ++ before), rest⟩, ?_, ?_⟩
    · rw [forWords_single hs, if_neg hne]
      rfl
    · exact fun sh name hname hret habort => seen_valid hname [s] sh hret habort

/-- **The word of a `case`** means itself when it is still and not empty. -/
theorem caseWord_iff : (∀ before rest, ∃ word c,
    nonEmptyWord scanForWord ⟨before, single s rest⟩ = some (word, c) ∧
      ∀ (w : World) (ctx : Ctx) (fx : Effects), expandWord w ctx word.text fx = (s, fx)) ↔
    s ≠ [] ∧ Still s := by
  have hread : ∀ before rest, nonEmptyWord scanForWord ⟨before, single s rest⟩ =
      if s = [] then none
      else some (quotedWord '\'' s, ⟨('\'' :: s ++ ['\'']).reverse ++ before, rest⟩) :=
    fun before rest => nonEmptyWord_quoted (by decide) hs forWordStop before rest
  rw [← expandWord_same_iff]
  constructor
  · intro h
    obtain ⟨word, c, hword, hsame⟩ := h [] []
    rw [hread] at hword
    split at hword
    · contradiction
    next hne =>
      obtain ⟨rfl, rfl⟩ := Prod.mk.inj (Option.some.inj hword)
      exact ⟨hne, hsame⟩
  · rintro ⟨hne, hsame⟩ before rest
    exact ⟨quotedWord '\'' s, _, (hread before rest).trans (if_neg hne), hsame⟩

/-- **An operand of `[[ ]]`** means itself when it is still and not empty. -/
theorem operand_iff : (∀ before rest, ∃ word c,
    dbToken ⟨before, single s rest⟩ = some (word, c) ∧
      ∀ (w : World) (ctx : Ctx) (fx : Effects), expandToks w ctx [word] fx = ([⟨word, s⟩], fx)) ↔
    s ≠ [] ∧ Still s := by
  have hread : ∀ before rest, dbToken ⟨before, single s rest⟩ =
      if s = [] then none
      else some (quotedWord '\'' s, ⟨('\'' :: s ++ ['\'']).reverse ++ before, rest⟩) :=
    fun before rest => dbToken_quoted (by decide) hs before rest
  rw [← expandWord_same_iff]
  constructor
  · intro h
    obtain ⟨word, c, hword, hsame⟩ := h [] []
    rw [hread] at hword
    split at hword
    · contradiction
    next hne =>
      obtain ⟨rfl, rfl⟩ := Prod.mk.inj (Option.some.inj hword)
      refine ⟨hne, fun w ctx fx => ?_⟩
      have htoks := hsame w ctx fx
      have hfst := congrArg (fun r => r.1.map Tok.text) htoks
      have hsnd := congrArg Prod.snd htoks
      exact Prod.ext (List.cons.inj hfst).1 hsnd
  · rintro ⟨hne, hsame⟩ before rest
    refine ⟨quotedWord '\'' s, _, (hread before rest).trans (if_neg hne), fun w ctx fx => ?_⟩
    have htext : expandWord w ctx (quotedWord '\'' s).text fx = (s, fx) := hsame w ctx fx
    rw [expandToks, htext]
    rfl

end Places

/-- **Single quotes mean verbatim in every position** exactly for the texts that are not empty, are
no `~` or `~/…`, and have no `$` that begins a form. -/
theorem verbatim_iff (s : Text) (hs : '\'' ∉ s) : Verbatim s ↔ s ≠ [] ∧ Still s := by
  constructor
  · exact fun h => (caseWord_iff hs).mp h.caseWord
  · intro h
    exact ⟨argument_verbatim hs, (path_iff hs).mpr h.2, (loop_iff hs).mpr h.1,
      (caseWord_iff hs).mpr h, (operand_iff hs).mpr h⟩

theorem verbatim_iff_star : Verbatim "a* b".toList ↔ "a* b".toList ≠ [] ∧ Still "a* b".toList :=
  verbatim_iff "a* b".toList (by decide)

/-- A home directory. -/
def homeCtx : Ctx :=
  { env := fun name => if name = "HOME".toList then some "/root".toList else none }

/-- **A path in single quotes is expanded**: `> '$(c)'` runs `c`, and `case '~' in …` compares with
the home directory. -/
theorem path_expanded :
    nextToken (single "$(c)".toList []) = some (.word ⟨"$(c)".toList, .single⟩, 6) ∧
      applyRedir {} .gt ⟨"$(c)".toList, .single⟩ = some { redirOut := some "$(c)".toList } ∧
      (expandPath bareWorld homeCtx (some "$(c)".toList) {}).1 = some [] ∧
      ((expandPath bareWorld homeCtx (some "$(c)".toList) {}).2.log.map Made.subst) =
        [.dollar (.cmdsubst "c".toList)] ∧
      (expandWord bareWorld homeCtx "~".toList {}).1 = "/root".toList := by
  refine ⟨by decide, by decide, by decide, by decide, by decide⟩

end Petrush.Verified.SingleQuotes
