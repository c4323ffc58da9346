import Petrush.Lib.Stdlib

/-!
# History designators (`hist_expand.c`)

`!!`, `!n`, `!$` and `!^`, as a whole line.
-/

namespace Petrush.Mid.HistExpand

open Petrush.Lib.CText
open Petrush.Lib.Stdlib

/-- The events of the history, the oldest first; their number is an `int`. -/
structure History where
  events : List Text
  length_lt : events.length < 2 ^ 31

/-- `petrush_history_get`. -/
def historyGet (h : History) (index : Int) : Option Text :=
  if index < 0 then none else h.events[index.toNat]?

/-- `hist_last_event`. -/
def histLastEvent (h : History) : Option Text :=
  h.events.reverse.find? fun event => event ≠ [] ∧ event ≠ ['!', '!']

/-- The loop of `hist_word_designator`, with room for that many words. -/
def splitWords : Nat → Text → List Text
  | 0, _ => []
  | room + 1, p =>
      let p := p.dropWhile isspace
      if p = [] then []
      else p.takeWhile (!isspace ·) :: splitWords room (p.dropWhile (!isspace ·))

/-- The number of words that `starts` and `lens` have room for. -/
def wordsRoom : Nat := 64

/-- `hist_word_designator` for `$`: the last word. -/
def histLastWord (event : Text) : Option Text := (splitWords wordsRoom event).getLast?

/-- `hist_word_designator` for `^`: the word number 1. -/
def histFirstArg (event : Text) : Option Text := (splitWords wordsRoom event)[1]?

/-- The branch of `hist_expand_line` for a number. -/
def histNumber (h : History) (digits : Text) : Option Text :=
  let r := strtol digits
  -- `(int)num - 1`: no event has the index that the least `int` gives.
  if r.rest = [] ∧ 1 ≤ r.value then historyGet h (r.value.bmod (2 ^ 32) - 1) else none

/-- `hist_expand_line`; `none` is its `NULL`. -/
def histExpandLine (h : History) (line : Text) : Option Text :=
  match line.dropWhile isspace with
  | ['!', '!'] => histLastEvent h
  | ['!', '$'] => (histLastEvent h).bind histLastWord
  | ['!', '^'] => (histLastEvent h).bind histFirstArg
  | '!' :: c :: line => if isdigit c then histNumber h (c :: line) else none
  | _ => none

end Petrush.Mid.HistExpand
