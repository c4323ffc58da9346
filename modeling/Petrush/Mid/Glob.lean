import Petrush.Lib.CText

/-!
# Patterns and pathname expansion (`expand.c`, `dispatcher.c`)

`match_pat` and `case_pat_match` are the C fallbacks of one assembly routine:
`*` is any sequence, `?` one byte, everything else itself.  Both are loops with
one point to come back to; here the loop carries what is left of the pattern
and of the string, the point after the last `*`, and a bound on its turns.
-/

namespace Petrush.Mid.Glob

open Petrush.Lib.CText

/-! ## Matching -/

/-- `star_p`, `star_s`: the pattern after the last `*`, and where it was tried. -/
abbrev StarPoint := Option (Text × Text)

/-- Turns enough for every pattern and string: each `*` tries each position once
and reads at most the rest of the string from it. -/
def matchTurns (pat str : Text) : Nat :=
  (pat.length + 1) * (str.length + 1) * (str.length + 1) + pat.length + 1

/-- The loop of `case_pat_match`. -/
def casePatLoop : Nat → Text → Text → StarPoint → Bool
  | 0, _, _, _ => false
  | _ + 1, p, [], _ => p.all (· == '*')
  | n + 1, p, c :: s, star =>
      let back :=
        match star with
        | some (p', _ :: s') => casePatLoop n p' s' (some (p', s'))
        | _ => false
      match p with
      | '*' :: p' => casePatLoop n p' (c :: s) (some (p', c :: s))
      | d :: p' => if d == '?' || d == c then casePatLoop n p' s star else back
      | [] => back

/-- `case_pat_match`. -/
def casePatMatch (pat str : Text) : Bool := casePatLoop (matchTurns pat str) pat str none

/-- The loop of `match_pat`: it takes the stars of a run together, and a final
one matches at once. -/
def matchPatLoop : Nat → Text → Text → StarPoint → Bool
  | 0, _, _, _ => false
  | _ + 1, p, [], _ => p.all (· == '*')
  | n + 1, p, c :: s, star =>
      let back :=
        match star with
        | some (p', _ :: s') => matchPatLoop n p' s' (some (p', s'))
        | _ => false
      match p with
      | '*' :: p' =>
          let p' := p'.dropWhile (· == '*')
          if p' = [] then true else matchPatLoop n p' (c :: s) (some (p', c :: s))
      | d :: p' => if d == '?' || d == c then matchPatLoop n p' s star else back
      | [] => back

/-- `match_pat`. -/
def matchPat (pat str : Text) : Bool := matchPatLoop (matchTurns pat str) pat str none

example : casePatMatch "a*b?".toList "axxbxby".toList = true := by decide

/-- `pattern_has_meta`. -/
def patternHasMeta (s : Text) : Bool := s.any fun c => c == '*' || c == '?'

/-! ## Pathname expansion -/

/-- `PATH_MAX`. -/
def pathMax : Nat := 4096

/-- `PETRUSH_GLOB_MAX`. -/
def globMax : Nat := 256

/-- The names `readdir` gives of a directory, in its order; `none` when it cannot
be opened. -/
abbrev Listing := Text → Option (List Text)

/-- `strcmp(a, b) <= 0`. -/
def strcmpLe : Text → Text → Bool
  | [], _ => true
  | _ :: _, [] => false
  | a :: s, b :: t => if a = b then strcmpLe s t else a.toNat < b.toNat

/-- The directory and the base of a pattern, and whether it has a slash; `none`
when the pattern is taken literally. -/
def globSplit (pattern : Text) : Option (Text × Text × Bool) :=
  let base := (pattern.reverse.takeWhile (· != '/')).reverse
  let dirSlash := pattern.take (pattern.length - base.length)
  if dirSlash = [] then some (['.'], pattern, false)
  else
    let dir := dirSlash.dropLast
    if dir.length ≥ pathMax then none
    else
      let dir := if dir = [] then ['/'] else dir
      if patternHasMeta dir || !patternHasMeta base then none else some (dir, base, true)

/-- The path `glob_word` builds for a name it found. -/
def globPath (dir : Text) (slash : Bool) (name : Text) : Text :=
  if !slash then name else if dir = ['/'] then '/' :: name else dir ++ '/' :: name

/-- The name is one `glob_word` keeps. -/
def globKeeps (base name : Text) : Bool :=
  name != ['.'] && name != "..".toList &&
    (name.head? != some '.' || base.head? == some '.') && matchPat base name

/-- `glob_word`: the sorted paths, the pattern itself when there are none, and
`none` when a limit is passed. -/
def globWord (listing : Listing) (pattern : Text) : Option (List Text) :=
  if "**".toList <:+: pattern then some [pattern]
  else if !patternHasMeta pattern then some [pattern]
  else
    match globSplit pattern with
    | none => some [pattern]
    | some (dir, base, slash) =>
        match listing dir with
        | none => some [pattern]
        | some names =>
            let found := (names.filter (globKeeps base)).map (globPath dir slash)
            if found.length > globMax ∨ found.any (fun path => path.length ≥ pathMax) then none
            else if found = [] then some [pattern]
            else some (found.insertionSort fun a b => strcmpLe a b = true)

end Petrush.Mid.Glob
