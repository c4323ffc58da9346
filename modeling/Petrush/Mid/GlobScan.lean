import Petrush.Lib.Cells
import Petrush.Mid.Glob

/-!
# `glob_word` on its array (`expand.c`)

`matches` is the list of its `cap` allocated cells, `NULL` is `none`, and every access is
checked.  `globWord` in `Glob` is the same function without the array.
-/

namespace Petrush.Mid.GlobScan

open Petrush.Lib.CText
open Petrush.Lib.Cells
open Petrush.Mid.Glob

/-- `matches` and `count`; `cap` is the number of cells. -/
structure Found where
  cells : List (Option Text) := []
  count : Nat := 0
  deriving Repr, DecidableEq

-- What `realloc` leaves in the cells it adds.
variable (junk : Option Text)

/-- `realloc` of `matches` before a path is added. -/
def grow (m : Found) : List (Option Text) :=
  if m.count ≥ m.cells.length then
    realloc junk (if m.cells.length = 0 then 8 else m.cells.length * 2) m.cells
  else m.cells

/-- The `readdir` loop; `none` is `overflow`. -/
def scanLoop (dir base : Text) (slash : Bool) : List Text → Found → Except Fault (Option Found)
  | [], m => .ok (some m)
  | name :: names, m =>
      if name = ['.'] ∨ name = "..".toList then scanLoop dir base slash names m
      else if name.head? = some '.' ∧ base.head? ≠ some '.' then scanLoop dir base slash names m
      else if ¬ matchPat base name then scanLoop dir base slash names m
      else if m.count ≥ globMax then .ok none
      else
        let cells := grow junk m
        let path := globPath dir slash name
        if path.length ≥ pathMax then .ok none
        else do
          let cells ← write cells m.count (some path)
          scanLoop dir base slash names ⟨cells, m.count + 1⟩

/-- The paths `qsort` is given: `count` cells from the first. -/
def readPaths : Nat → List (Option Text) → Except Fault (List Text)
  | 0, _ => .ok []
  | count + 1, some path :: cells => (readPaths count cells).map (path :: ·)
  | _ + 1, _ => .error .outside

/-- `glob_word`. -/
def globScan (listing : Listing) (pattern : Text) : Except Fault (Option (List Text)) :=
  if "**".toList <:+: pattern then .ok (some [pattern])
  else if !patternHasMeta pattern then .ok (some [pattern])
  else
    match globSplit pattern with
    | none => .ok (some [pattern])
    | some (dir, base, slash) =>
        match listing dir with
        | none => .ok (some [pattern])
        | some names => do
            match ← scanLoop junk dir base slash names {} with
            | none => .ok none
            | some m =>
                if m.count = 0 then .ok (some [pattern])
                else do
                  let paths ← readPaths m.count m.cells
                  .ok (some (paths.insertionSort fun a b => strcmpLe a b = true))

end Petrush.Mid.GlobScan
