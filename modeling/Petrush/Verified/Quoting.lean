import Petrush.Mid.Dispatcher
import Petrush.Verified.Arguments
import Petrush.Verified.Expansion
import Petrush.Verified.Keywords
import Petrush.Verified.Patterns
import Petrush.Verified.Scanning

/-!
# Quoted words

A word in quotes keeps its quotes as a mark beside its text.  `expand_cmd_argv` and `dbr_str_cmp`
look at the mark; a case pattern has lost it, so its text is a pattern again.

## Main results

* `argument_literal` — a quoted argument is never replaced by file names.
* `brackets_iff` — when `[[ ]]` compares with the text itself.
* `pattern_iff` — when a case pattern selects with the text itself.
* `literal_iff` — the texts for which all three hold.
-/

namespace Petrush.Verified.Quoting

open Petrush.Foundation
open Petrush.Lib.CText
open Petrush.Lib.Run
open Petrush.Lib.Wildcard
open Petrush.Mid.Ast
open Petrush.Mid.Lexer
open Petrush.Mid.Parser
open Petrush.Mid.Expand
open Petrush.Mid.Glob
open Petrush.Mid.Dbracket
open Petrush.Mid.Dispatcher
open Petrush.Mid.State
open Petrush.Verified.Arguments
open Petrush.Verified.Expansion
open Petrush.Verified.Keywords
open Petrush.Verified.Patterns
open Petrush.Verified.Scanning

/-- The word that `q…q` is read as. -/
def quotedWord (q : Char) (s : Text) : Word := ⟨s, if q = '\'' then .single else .double⟩

/-- An arm of a `case` is selected by the word. -/
def selects (arm : CaseArm) (word : Text) : Bool :=
  arm.patterns.any fun pat => casePatMatch pat word

/-- `dispatch_case` runs the first arm that is selected. -/
theorem dispatchCase_selects (O : Outside) (dl : PList → Prog Shell (Int × PList)) (word : Text)
    (arms : List CaseArm) :
    dispatchCase O dl word arms = (do
      let word ← expanding O dl fun w ctx fx => expandWord w ctx word fx
      let bad ← takeExpandErrors
      if bad then pure 1
      else
        match arms.find? fun arm => selects arm word with
        | none => pure 0
        | some arm => do
            let r ← dl arm.body
            let s ← look id
            pure (if s.returning then s.returnStatus else r.1)) :=
  rfl

/-- The text in quotes means itself: as an argument, at the right of a comparison in `[[ ]]`, and as
a case pattern. -/
structure Literal (q : Char) (s : Text) : Prop where
  argument : ∀ rest, ∃ word len, nextToken (q :: s ++ q :: rest) = some (.word word, len) ∧
    ∀ (w : World) (ctx : Ctx) (fx : Effects),
      (expandArg w ctx word fx).1.flatMap (globArg w) = (expandArg w ctx word fx).1
  brackets : ∀ before rest, ∃ word c, dbToken ⟨before, q :: s ++ q :: rest⟩ = some (word, c) ∧
    ∀ (w : World) (ctx : Ctx) (fx : Effects) (lhs op : Tok),
      op.text = "=".toList ∨ op.text = "==".toList ∨ op.text = "!=".toList →
        (dbrCompare lhs op ⟨word, (expandWord w ctx word.text fx).1⟩ = 0 ↔
          (lhs.text = s ↔ op.text ≠ "!=".toList))
  pattern : ∀ n before rest, ∃ patterns c,
    casePatterns (n + 1) ⟨before, q :: s ++ q :: ')' :: rest⟩ = some (patterns, c) ∧
      ∀ body word, selects ⟨patterns, body⟩ word = true ↔ word = s

section Quoted

variable {q : Char} {s : Text}

theorem quotedWord_quoted (q : Char) (s : Text) : (quotedWord q s).quoted ≠ .unquoted := by
  rw [quotedWord]
  split <;> simp

/-! ## Arguments -/

/-- **A quoted argument** is never replaced by file names. -/
theorem argument_literal (hq : isQuote q = true) (hs : q ∉ s) (hdollar : '$' ∉ s) (rest : Text) : ∃ word len,
    nextToken (q :: s ++ q :: rest) = some (.word word, len) ∧
      ∀ (w : World) (ctx : Ctx) (fx : Effects),
        (expandArg w ctx word fx).1.flatMap (globArg w) = (expandArg w ctx word fx).1 := by
  refine ⟨quotedWord q s, s.length + 2, ?_, ?_⟩
  · rw [List.cons_append, nextToken_of_isQuote _ hq, scanWord, ← List.cons_append,
      scanWith_quoted _ _ _ _ hq hs]
    rfl
  · intro w ctx fx
    have hnot : ∀ t : Text, (quotedWord q s).text = '$' :: t → False := by
      intro t ht
      exact hdollar (by rw [show s = '$' :: t from ht]; simp)
    have hone : ∃ text, (expandArg w ctx (quotedWord q s) fx).1 = [⟨text, (quotedWord q s).quoted⟩] := by
      rw [expandArg]
      split
      · exact ⟨s, rfl⟩
      · split
        next h => exact (hnot _ h.1).elim
        next =>
          split
          next h => exact (h.elim (hnot _) (hnot _)).elim
          next => exact ⟨_, rfl⟩
    obtain ⟨text, hone⟩ := hone
    rw [hone, List.flatMap_singleton, globArg_quoted w]
    exact quotedWord_quoted q s

/-! ## Comparisons -/

/-- A scanner of words that may not be empty reads a quoted word. -/
theorem nonEmptyWord_quoted (hq : isQuote q = true) (hs : q ∉ s) (stop : Text → Bool)
    (before rest : Text) : nonEmptyWord (scanWith stop) ⟨before, q :: s ++ q :: rest⟩ =
      if s = [] then none
      else some (quotedWord q s, ⟨(q :: s ++ [q]).reverse ++ before, rest⟩) := by
  have hnext : Cursor.advance (s.length + 2) ⟨before, q :: s ++ q :: rest⟩ =
      ⟨(q :: s ++ [q]).reverse ++ before, rest⟩ := by
    have happ := advance_append (q :: s ++ [q]) rest before
    rw [List.append_assoc] at happ
    rw [← happ]
    simp
  rw [nonEmptyWord, scanWith_quoted _ _ _ _ hq hs, ← hnext]
  rfl

/-- `[[ ]]` reads a quoted word that is not empty. -/
theorem dbToken_quoted (hq : isQuote q = true) (hs : q ∉ s) (before rest : Text) :
    dbToken ⟨before, q :: s ++ q :: rest⟩ =
      if s = [] then none
      else some (quotedWord q s, ⟨(q :: s ++ [q]).reverse ++ before, rest⟩) := by
  have hother : q ≠ '&' ∧ q ≠ '|' ∧ q ≠ '!' := by
    rcases (by simpa [isQuote] using hq : q = '"' ∨ q = '\'') with rfl | rfl <;> decide
  rw [← nonEmptyWord_quoted hq hs forWordStop before rest, dbToken]
  split
  next heq => exact absurd (List.cons.inj heq).1 hother.1
  next heq => exact absurd (List.cons.inj heq).1 hother.2.1
  next heq => exact absurd (List.cons.inj heq).1 hother.2.2
  next => rfl

/-- The right side of a comparison is the text of its word. -/
theorem dbrCompare_quoted (lhs op : Tok) (text : Text)
    (hop : op.text = "=".toList ∨ op.text = "==".toList ∨ op.text = "!=".toList) :
    dbrCompare lhs op ⟨quotedWord q s, text⟩ = 0 ↔ (lhs.text = text ↔ op.text ≠ "!=".toList) := by
  have hquoted : ((quotedWord q s).quoted != .unquoted) = true := by
    rw [bne_iff_ne]
    exact quotedWord_quoted q s
  rw [dbrCompare, if_pos hop, dbrStrCmp]
  simp only [hquoted, if_true]
  by_cases hne : op.text = "!=".toList
  · rw [if_pos hne]
    by_cases heq : lhs.text = text <;> simp [hne, heq]
  · rw [if_neg hne, ne_eq, iff_true_right hne]
    by_cases heq : lhs.text = text <;> simp [heq]

/-- **In `[[ ]]`** the text means itself unless it is empty or a `~`. -/
theorem brackets_iff (hq : isQuote q = true) (hs : q ∉ s) (hdollar : '$' ∉ s) :
    (∀ before rest, ∃ word c, dbToken ⟨before, q :: s ++ q :: rest⟩ = some (word, c) ∧
      ∀ (w : World) (ctx : Ctx) (fx : Effects) (lhs op : Tok),
        op.text = "=".toList ∨ op.text = "==".toList ∨ op.text = "!=".toList →
          (dbrCompare lhs op ⟨word, (expandWord w ctx word.text fx).1⟩ = 0 ↔
            (lhs.text = s ↔ op.text ≠ "!=".toList))) ↔ s ≠ [] ∧ isTilde s = false := by
  constructor
  · intro h
    obtain ⟨word, c, hread, hcompare⟩ := h [] []
    rw [dbToken_quoted hq hs] at hread
    split at hread
    · contradiction
    next hne =>
      refine ⟨hne, ?_⟩
      obtain ⟨rfl, rfl⟩ := Prod.mk.inj (Option.some.inj hread)
      by_contra htilde
      -- the home directory is not `~`
      have hhome := hcompare bareWorld { env := fun _ => some ['h'] } {} ⟨⟨s, .single⟩, s⟩
        ⟨⟨"=".toList, .unquoted⟩, "=".toList⟩ (.inl rfl)
      rw [dbrCompare_quoted _ _ _ (.inl rfl)] at hhome
      have htext : (expandWord bareWorld { env := fun _ => some ['h'] } s {}).1 = 'h' :: s.tail := by
        rw [expandWord, expandWordN, if_pos (Bool.of_not_eq_false htilde)]
        rfl
      have hs' : s = 'h' :: s.tail := by
        rw [← htext]
        exact (hhome.mpr ⟨fun _ => by decide, fun _ => rfl⟩).mpr (by decide)
      rw [hs'] at htilde
      exact htilde rfl
  · intro h before rest
    obtain ⟨hne, htilde⟩ := h
    refine ⟨quotedWord q s, _, (dbToken_quoted hq hs before rest).trans (if_neg hne), ?_⟩
    intro w ctx fx lhs op hop
    have htext : expandWord w ctx (quotedWord q s).text fx = (s, fx) :=
      expandWord_plain w ctx htilde hdollar fx
    rw [htext]
    exact dbrCompare_quoted lhs op s hop

/-! ## Case patterns -/

/-- A quoted pattern before `)`; an empty one is an error. -/
theorem casePatterns_quoted (hq : isQuote q = true) (hs : q ∉ s) (n : Nat) (before rest : Text) :
    casePatterns (n + 1) ⟨before, q :: s ++ q :: ')' :: rest⟩ =
      if s = [] then none
      else some ([s], ⟨')' :: ((q :: s ++ [q]).reverse ++ before), rest⟩) := by
  have hstart : skipWsPos ⟨before, q :: s ++ q :: ')' :: rest⟩ =
      ⟨before, q :: s ++ q :: ')' :: rest⟩ :=
    skipWsPos_starts (t := [q]) ⟨q, [], rfl, isspace_of_isQuote hq⟩ before (s ++ q :: ')' :: rest)
  have hword := nonEmptyWord_quoted hq hs casePatternStop before (')' :: rest)
  rw [casePatterns, hstart, scanCasePattern, hword]
  by_cases hne : s = []
  · rw [if_pos hne, if_pos hne]
  · rw [if_neg hne, if_neg hne]
    rfl

theorem selects_single (s word : Text) (body : PList) :
    selects ⟨[s], body⟩ word = true ↔ Matches '*' '?' s word := by
  rw [selects, List.any_cons, List.any_nil, Bool.or_false, casePatMatch_iff]

/-- **As a case pattern** the text means itself unless it is empty or has a `*` or a `?`. -/
theorem pattern_iff (hq : isQuote q = true) (hs : q ∉ s) :
    (∀ n before rest, ∃ patterns c,
      casePatterns (n + 1) ⟨before, q :: s ++ q :: ')' :: rest⟩ = some (patterns, c) ∧
        ∀ body word, selects ⟨patterns, body⟩ word = true ↔ word = s) ↔
      s ≠ [] ∧ '*' ∉ s ∧ '?' ∉ s := by
  constructor
  · intro h
    obtain ⟨patterns, c, hread, hselect⟩ := h 0 [] []
    rw [casePatterns_quoted hq hs] at hread
    split at hread
    · contradiction
    next hne =>
      obtain ⟨rfl, rfl⟩ := Prod.mk.inj (Option.some.inj hread)
      refine ⟨hne, ?_, ?_⟩
      · intro hstar
        obtain ⟨a, b, rfl⟩ := List.append_of_mem hstar
        have hmatch : Matches '*' '?' (a ++ '*' :: b) (a ++ [] ++ b) :=
          matches_replace (by simp [Lib.Wildcard.Piece]) a b
        have heq := (hselect [] _).mp ((selects_single _ _ _).mpr hmatch)
        have hlen := congrArg List.length heq
        simp only [List.append_nil, List.length_append, List.length_cons] at hlen
        omega
      · intro hone
        obtain ⟨a, b, rfl⟩ := List.append_of_mem hone
        have hmatch : Matches '*' '?' (a ++ '?' :: b) (a ++ ['x'] ++ b) :=
          matches_replace (by simp [Lib.Wildcard.Piece]) a b
        have heq := (hselect [] _).mp ((selects_single _ _ _).mpr hmatch)
        rw [List.append_assoc] at heq
        exact absurd (List.cons.inj (List.append_cancel_left heq)).1 (by decide)
  · intro h n before rest
    obtain ⟨hne, hstar, hone⟩ := h
    refine ⟨[s], _, (casePatterns_quoted hq hs n before rest).trans (if_neg hne), ?_⟩
    intro body word
    rw [selects_single, matches_literal hstar hone]

end Quoted

/-- **Quoting disables pattern meaning** exactly for the texts that are not empty, are no `~` or
`~/…`, and have neither a `*` nor a `?`. -/
theorem literal_iff (q : Char) (s : Text) (hq : isQuote q = true) (hs : q ∉ s)
    (hdollar : '$' ∉ s) :
    Literal q s ↔ s ≠ [] ∧ isTilde s = false ∧ '*' ∉ s ∧ '?' ∉ s := by
  constructor
  · intro h
    obtain ⟨hne, htilde⟩ := (brackets_iff hq hs hdollar).mp h.brackets
    exact ⟨hne, htilde, ((pattern_iff hq hs).mp h.pattern).2⟩
  · intro h
    obtain ⟨hne, htilde, hstar, hone⟩ := h
    exact ⟨argument_literal hq hs hdollar, (brackets_iff hq hs hdollar).mpr ⟨hne, htilde⟩,
      (pattern_iff hq hs).mpr ⟨hne, hstar, hone⟩⟩

theorem literal_iff_ab : Literal '"' "a*".toList ↔
    "a*".toList ≠ [] ∧ isTilde "a*".toList = false ∧ '*' ∉ "a*".toList ∧ '?' ∉ "a*".toList :=
  literal_iff '"' "a*".toList (by decide) (by decide) (by decide)

/-- **A quoted `*` in a case pattern** is a pattern: `case abc in "a*") …` takes the arm. -/
theorem quoted_star_selects :
    casePatterns 1 ⟨[], "\"a*\")".toList⟩ = some (["a*".toList], ⟨"\"a*\")".toList.reverse, []⟩) ∧
      selects ⟨["a*".toList], []⟩ "abc".toList = true ∧ "abc".toList ≠ "a*".toList := by
  decide +kernel

end Petrush.Verified.Quoting
