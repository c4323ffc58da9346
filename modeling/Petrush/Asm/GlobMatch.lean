import Petrush.Lib.CText

/-!
# `petrush_glob_match` (`asm/glob_match.S`)

The routine label by label.  A pointer is the text it points at, and one byte
further is its tail; a byte read at the end of a text is the NUL.
-/

namespace Petrush.Asm.GlobMatch

open Petrush.Lib.CText

/-- Where the routine jumps: `.Lloop` with `.Lconsume`, `.Lstar_skip` with
`.Lstar_done`, `.Lbacktrack`, and `.Ltrail` with `.Ltrail_done`. -/
inductive Label where
  | loop
  | starSkip
  | backtrack
  | trail
  deriving Repr, DecidableEq

/-- The registers; `r8` begins as a null pointer. -/
structure Regs where
  rdi : Text
  rsi : Text
  r8 : Option Text := none
  r9 : Text := []
  deriving Repr, DecidableEq

/-- A jump, or the answer in `eax`. -/
inductive Next where
  | goto (label : Label) (r : Regs)
  | ret (eax : Bool)
  deriving Repr, DecidableEq

/-- The instructions from one label to the next jump. -/
def step (r : Regs) : Label → Next
  | .loop =>
      match r.rsi, r.rdi with
      | [], _ => .goto .trail r
      | _ :: _, '*' :: p => .goto .starSkip { r with rdi := p, r8 := some p, r9 := r.rsi }
      | _ :: s, '?' :: p => .goto .loop { r with rdi := p, rsi := s }
      | _ :: _, [] => .goto .backtrack r
      | c :: s, d :: p =>
          if d = c then .goto .loop { r with rdi := p, rsi := s } else .goto .backtrack r
  | .starSkip =>
      match r.rdi with
      | '*' :: p => .goto .starSkip { r with rdi := p, r8 := some p }
      | [] => .ret true
      | _ => .goto .loop r
  | .backtrack =>
      match r.r8 with
      | none => .ret false
      | some p => .goto .loop { r with rdi := p, rsi := r.r9.tail, r9 := r.r9.tail }
  | .trail =>
      match r.rdi with
      | '*' :: p => .goto .trail { r with rdi := p }
      | [] => .ret true
      | _ => .ret false

/-- The routine from a label, with a bound on its jumps. -/
def run : Nat → Label → Regs → Option Bool
  | 0, _, _ => none
  | n + 1, label, r =>
      match step r label with
      | .goto label r => run n label r
      | .ret eax => some eax

/-- The routine answers. -/
def Returns (label : Label) (r : Regs) (eax : Bool) : Prop := ∃ n, run n label r = some eax

/-- The registers at the call `petrush_glob_match(pat, str)`. -/
def called (pat str : Text) : Regs := { rdi := pat, rsi := str }

example : run 40 .loop (called "a*b?".toList "axxbxby".toList) = some true := by decide

end Petrush.Asm.GlobMatch
