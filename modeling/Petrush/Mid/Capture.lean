import Petrush.Lib.Cells
import Petrush.Lib.Reads
import Petrush.Mid.Dispatcher

/-!
# The capture of a command substitution (`petrush_run_cmdsubst`)

The parent's side, on its buffer: `buf` is the list of its `cap` cells and every write is
checked.  What the child writes is the source the pipe is read from.
-/

namespace Petrush.Mid.Capture

open Petrush.Lib.CText
open Petrush.Lib.Cells
open Petrush.Lib.Reads
open Petrush.Mid.Dispatcher (cmdsubstMaxDepth)

/-- `PETRUSH_CMDSUBST_MAX_BYTES`. -/
def maxBytes : Nat := 1024 * 1024

/-- What the system grants: `pipe`, `fork`, and memory of a size. -/
structure Grants where
  pipe : Bool
  fork : Bool
  alloc : Nat → Bool

/-- `buf`, `len`, and the read end of the pipe. -/
structure Buffer where
  buf : Text
  len : Nat
  pipe : Source Char

/-- How a turn of the capture loop ends: `break`, no memory, or another turn. -/
inductive Turned where
  | stop (c : Buffer)
  | fail (c : Buffer)
  | again (c : Buffer)

/-- `ncap`. -/
def newCap (len cap : Nat) : Nat :=
  let ncap := cap * 2
  let ncap := if ncap < len + 2 then len + 2 else ncap
  if ncap > maxBytes + 1 then maxBytes + 1 else ncap

section Loops

-- What `realloc` leaves in the cells it adds.
variable (alloc : Nat → Bool) (junk : Char)

/-- `want`; the room keeps a cell for the NUL. -/
def want (c : Buffer) : Nat :=
  let room := c.buf.length - c.len - 1
  let remain := maxBytes - c.len
  if room < remain then room else remain

/-- The `read` of a turn, and what is done with its bytes. -/
def captureRead (c : Buffer) : Except Fault Turned :=
  if want c = 0 then .ok (.stop c)
  else
    match c.pipe.read (want c) with
    | (none, pipe) => .ok (.again { c with pipe := pipe })
    | (some [], pipe) => .ok (.stop { c with pipe := pipe })
    | (some (b :: bs), pipe) =>
        (writes c.buf c.len (b :: bs)).map fun buf => .again ⟨buf, c.len + (b :: bs).length, pipe⟩

/-- One turn of the capture loop. -/
def captureTurn (c : Buffer) : Except Fault Turned :=
  if c.len ≥ maxBytes then .ok (.stop c)
  else if c.len + 1 ≥ c.buf.length then
    if newCap c.len c.buf.length ≤ c.buf.length then .ok (.stop c)
    else if alloc (newCap c.len c.buf.length) then
      captureRead { c with buf := realloc junk (newCap c.len c.buf.length) c.buf }
    else .ok (.fail c)
  else captureRead c

theorem captureRead_again {c c' : Buffer} (h : captureRead c = .ok (.again c')) :
    c'.pipe.size < c.pipe.size := by
  simp only [captureRead] at h
  split at h
  · simp at h
  · split at h
    · next pipe hread =>
        obtain rfl := Turned.again.inj (Except.ok.inj h)
        exact (Source.read_interrupted hread).2
    · simp at h
    · next b bs pipe hread =>
        cases hw : writes c.buf c.len (b :: bs) with
        | error fault => simp [hw, Except.map] at h
        | ok buf =>
            rw [hw] at h
            obtain rfl := Turned.again.inj (Except.ok.inj h)
            exact (Source.read_some hread).2.2.2 (List.cons_ne_nil b bs)

/-- Every turn that is followed by another takes something from the pipe. -/
theorem captureTurn_again {c c' : Buffer} (h : captureTurn alloc junk c = .ok (.again c')) :
    c'.pipe.size < c.pipe.size := by
  simp only [captureTurn] at h
  split at h
  · simp at h
  · split at h
    · split at h
      · simp at h
      · split at h
        · have hlt := captureRead_again h
          exact hlt
        · simp at h
    · exact captureRead_again h

/-- The capture loop; without memory it ends for good (`true`). -/
def captureLoop (c : Buffer) : Except Fault (Buffer × Bool) :=
  match _h : captureTurn alloc junk c with
  | .error fault => .error fault
  | .ok (.stop c) => .ok (c, false)
  | .ok (.fail c) => .ok (c, true)
  | .ok (.again c') => captureLoop c'
termination_by c.pipe.size
decreasing_by exact captureTurn_again alloc junk _h

end Loops

/-- The loop that drains the pipe, with what it leaves there. -/
def drainLoop (pipe : Source Char) : Source Char :=
  match _h : pipe.read 256 with
  | (some (_ :: _), pipe') => drainLoop pipe'
  | (_, pipe') => pipe'
termination_by pipe.size
decreasing_by exact (Source.read_some _h).2.2.2 (List.cons_ne_nil _ _)

/-- What `petrush_run_cmdsubst` returns (`NULL` is `none`) and leaves: the depth, and what
the child has written that was not read before the pipe is closed. -/
structure Ran where
  buf : Option Text
  depth : Nat
  left : Text

/-- `malloc(1)`, with the NUL in it. -/
def emptyText (alloc : Nat → Bool) : Option Text := if alloc 1 then some [nul] else none

/-- What is left in the pipe when it is closed. -/
def leftOver (drains : List Turn) (c : Buffer) : Text :=
  if c.len ≥ maxBytes then (drainLoop ⟨c.pipe.rest, drains⟩).rest else c.pipe.rest

/-- What follows the capture loop; `depth` is `g_cmdsubst_depth` after its decrement. -/
def finishCapture (depth : Nat) (drains : List Turn) (r : Buffer × Bool) : Except Fault Ran :=
  if r.2 then .ok ⟨none, depth, r.1.pipe.rest⟩
  else (write r.1.buf r.1.len nul).map fun buf => ⟨some buf, depth, leftOver drains r.1⟩

/-- `petrush_run_cmdsubst`: the child writes `stream`; `turns` is what the reads of the
capture meet, and `drains` what those of the drain do. -/
def petrushRunCmdsubst (g : Grants) (junk : Char) (depth : Nat) (stream : Text)
    (turns drains : List Turn) : Except Fault Ran :=
  if depth ≥ cmdsubstMaxDepth then .ok ⟨emptyText g.alloc, depth, []⟩
  else if !g.pipe then .ok ⟨emptyText g.alloc, depth, []⟩
  else
    let depth := depth + 1
    if !g.fork then .ok ⟨emptyText g.alloc, depth - 1, []⟩
    else if !g.alloc 4096 then .ok ⟨none, depth - 1, stream⟩
    else
      (captureLoop g.alloc junk ⟨List.replicate 4096 junk, 0, ⟨stream, turns⟩⟩).bind
        (finishCapture (depth - 1) drains)

end Petrush.Mid.Capture
