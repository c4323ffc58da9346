import Petrush.Lib.CText
import Petrush.Lib.Cells

/-!
# The highlighter of the edit line (`front/highlight.c`)

`petrush_hl_scan` cuts a buffer into spans, and `petrush_hl_colorize` prints the buffer with
an escape sequence before each.  A buffer is not NULL here, and no size wraps: an object of
C has fewer than `2^63` bytes.
-/

namespace Petrush.Front.Highlight

open Petrush.Lib.CText
open Petrush.Lib.Cells

/-- `enum petrush_hl_kind`. -/
inductive Kind where
  | plain
  | cmd
  | str
  | unclosed
  | op
  deriving DecidableEq

/-- `petrush_hl_span_t`. -/
structure Span where
  start : Nat
  len : Nat
  kind : Kind
  deriving DecidableEq

/-! ## The tokens -/

/-- What may follow `2>&1`. -/
def endsErrToOut (after : Char) : Bool :=
  after == nul || isspace after || after == '|' || after == '<' || after == '>' || after == '&' ||
    after == ';'

/-- `match_op`, on the rest of the buffer. -/
def matchOp (p : Text) : Nat :=
  if ['2', '>', '&', '1'].isPrefixOf p && endsErrToOut (p.getD 4 nul) then 4
  else if ['2', '>', '>'].isPrefixOf p then 3
  else if ['2', '>'].isPrefixOf p then 2
  else if ['&', '>'].isPrefixOf p then 2
  else if ['>', '>'].isPrefixOf p then 2
  else if ['|', '|'].isPrefixOf p then 2
  else if ['&', '&'].isPrefixOf p then 2
  else if ['&'].isPrefixOf p then 1
  else if ['|'].isPrefixOf p || [';'].isPrefixOf p || ['<'].isPrefixOf p || ['>'].isPrefixOf p then 1
  else 0

/-- `op_resets_cmd`. -/
def opResetsCmd (p : Text) (oplen : Nat) : Bool :=
  if oplen = 1 && (['|'].isPrefixOf p || [';'].isPrefixOf p || ['&'].isPrefixOf p) then true
  else oplen = 2 && (['|', '|'].isPrefixOf p || ['&', '&'].isPrefixOf p)

/-- `word_break_here`, on the first byte of what remains. -/
def wordBreakHere (c : Char) : Bool := c == '|' || c == ';' || c == '<' || c == '>' || c == '&'

def isQuote (c : Char) : Bool := c == '"' || c == '\''

/-- A byte that a word goes on with. -/
def inWord (c : Char) : Bool := !isspace c && !isQuote c && !wordBreakHere c

/-! ## `petrush_hl_scan` -/

/-- `push_span`; `none` when the table is full. -/
def pushSpan (out : List Span) (maxSpans : Int) (start len : Nat) (kind : Kind) :
    Option (List Span) :=
  if len = 0 then some out
  else if (out.length : Int) ≥ maxSpans then none
  else some (out ++ [⟨start, len, kind⟩])

/-- What a turn of the loop starts with; `out` is `out[0..n)`. -/
structure Scan where
  i : Nat
  expectCmd : Bool
  out : List Span

/-- A turn leaves the loop, or goes on. -/
inductive Turn where
  | leave (out : List Span)
  | again (s : Scan)

/-- The token at `i`, pushed; the loop goes on behind it. -/
def pushToken (maxSpans : Int) (s : Scan) (len : Nat) (kind : Kind) (expectCmd : Bool) : Turn :=
  match pushSpan s.out maxSpans s.i len kind with
  | none => .leave s.out
  | some out => .again ⟨s.i + len, expectCmd, out⟩

/-- A quoted string, from its opening quote `q` on. -/
def quoteTurn (maxSpans : Int) (s : Scan) (q : Char) (p : Text) : Turn :=
  let inside := (p.takeWhile (· ≠ q)).length
  if inside < p.length then pushToken maxSpans s (inside + 2) .str false
  else pushToken maxSpans s (inside + 1) .unclosed false

/-- What the body of the loop does behind the blanks. -/
def tokenTurn (maxSpans : Int) (s : Scan) : Text → Turn
  | [] => .leave s.out
  | c :: p =>
      if isQuote c then quoteTurn maxSpans s c p
      else
        let oplen := matchOp (c :: p)
        if oplen > 0 then
          pushToken maxSpans s oplen .op (opResetsCmd (c :: p) oplen)
        else
          pushToken maxSpans s ((c :: p).takeWhile inWord).length
            (if s.expectCmd then .cmd else .plain) false

/-- The body of the loop. -/
def scanTurn (buf : Text) (maxSpans : Int) (s : Scan) : Turn :=
  let blanks := ((buf.drop s.i).takeWhile isspace).length
  match pushSpan s.out maxSpans s.i blanks .plain with
  | none => .leave s.out
  | some out => tokenTurn maxSpans ⟨s.i + blanks, s.expectCmd, out⟩ (buf.drop (s.i + blanks))

/-- `while (i < len)`, for so many turns at most. -/
def scanLoop (buf : Text) (maxSpans : Int) : Nat → Scan → Except Fault (List Span)
  | 0, _ => .error .bound
  | turns + 1, s =>
      if s.i < buf.length then
        match scanTurn buf maxSpans s with
        | .leave out => .ok out
        | .again s => scanLoop buf maxSpans turns s
      else .ok s.out

/-- `petrush_hl_scan`. -/
def petrushHlScan (buf : Text) (maxSpans : Int) : Except Fault (List Span) :=
  if maxSpans ≤ 0 ∨ buf.length = 0 then .ok []
  else scanLoop buf maxSpans (buf.length + 1) ⟨0, true, []⟩

/-! ## `petrush_hl_colorize` -/

/-- The escape byte. -/
def esc : Char := Char.ofNat 27

/-- `kind_csi`. -/
def kindCsi : Kind → Text
  | .cmd => esc :: "[1;32m".toList
  | .str => esc :: "[33m".toList
  | .unclosed => esc :: "[1;31m".toList
  | .op => esc :: "[34m".toList
  | .plain => esc :: "[0m".toList

/-- `HL_MAX_SPANS`. -/
def hlMaxSpans : Nat := 64

/-- The heap: whether there is room for so many bytes, and what new bytes hold. -/
structure Heap where
  room : Nat → Bool
  junk : Char

/-- `out`, `o` and `cursor`; the capacity is the number of cells. -/
structure Paint where
  out : List Char
  o : Nat
  cursor : Nat

/-- What `memcpy` reads. -/
def slice (buf : Text) (start len : Nat) : Except Fault Text :=
  if start + len ≤ buf.length then .ok ((buf.drop start).take len) else .error .outside

/-- An escape sequence and a piece of the buffer are printed; `ncap` is the capacity that is
asked for when they do not fit.  `none` when that fails. -/
def paint (heap : Heap) (buf : Text) (ncap : Nat → Nat) (kind : Kind) (start len : Nat)
    (p : Paint) : Except Fault (Option Paint) := do
  let csi := kindCsi kind
  let need := p.o + csi.length + len + 1
  let grows := need > p.out.length
  if grows ∧ !heap.room (ncap need) then pure none
  else
    let out := if grows then realloc heap.junk (ncap need) p.out else p.out
    let out ← writes out p.o csi
    let piece ← slice buf start len
    let out ← writes out (p.o + csi.length) piece
    pure (some ⟨out, p.o + csi.length + len, start + len⟩)

/-- The bytes before a span that no span has. -/
def paintGap (heap : Heap) (buf : Text) (s : Nat) (p : Paint) : Except Fault (Option Paint) :=
  if s > p.cursor then paint heap buf (· * 2) .plain p.cursor (s - p.cursor) p else pure (some p)

/-- The loop over the spans. -/
def paintSpans (heap : Heap) (buf : Text) : List Span → Paint → Except Fault (Option Paint)
  | [], p => .ok (some p)
  | span :: spans, p =>
      if span.start > buf.length then .ok (some p)
      else do
        let sl := if span.start + span.len > buf.length then buf.length - span.start else span.len
        match ← paintGap heap buf span.start p with
        | none => pure none
        | some p =>
            match ← paint heap buf (· * 2) span.kind span.start sl p with
            | none => pure none
            | some p => paintSpans heap buf spans p

/-- The bytes behind the last span. -/
def paintTail (heap : Heap) (buf : Text) (p : Paint) : Except Fault (Option Paint) :=
  if p.cursor < buf.length then paint heap buf id .plain p.cursor (buf.length - p.cursor) p
  else pure (some p)

/-- The first capacity. -/
def firstCap (len : Nat) : Nat := if len * 10 + 16 < 16 then 16 else len * 10 + 16

/-- `petrush_hl_colorize`: the block it returns, or NULL. -/
def petrushHlColorize (heap : Heap) (buf : Text) : Except Fault (Option (List Char)) := do
  let spans ← petrushHlScan buf hlMaxSpans
  if !heap.room (firstCap buf.length) then pure none
  else
    match ← paintSpans heap buf spans ⟨List.replicate (firstCap buf.length) heap.junk, 0, 0⟩ with
    | none => pure none
    | some p =>
        match ← paintTail heap buf p with
        | none => pure none
        | some p => do
            let out ← write p.out p.o nul
            pure (some out)

end Petrush.Front.Highlight
