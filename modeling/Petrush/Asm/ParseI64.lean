import Petrush.Lib.CText

/-!
# `petrush_parse_i64` (`asm/parse_i64.S`)

The routine on its registers.  `rdi` and `rsi`, the bytes still to be read, are a
`Text`; the others are the machine words they are in the source.  The labels are
the definitions: `.Lloop` with `.Lmul` is `loop`, `.Lhave_digits` is `haveDigits`.
-/

namespace Petrush.Asm.ParseI64

open Petrush.Lib.CText

/-- `LIMIT/10`, in `r11`. -/
def limitTenth : BitVec 64 := 922337203685477580#64

/-- `movzbl (%rdi), %eax`. -/
def loadByte (c : Char) : BitVec 32 := BitVec.ofNat 32 c.toNat

/-- `.Lmul`: two additions for the product by ten, one for the digit. -/
def mulAdd (rcx : BitVec 64) (eax : BitVec 32) : BitVec 64 :=
  let rcx := rcx + rcx * 4#64
  let rcx := rcx + rcx
  rcx + eax.zeroExtend 64

/-- `.Lloop`; `none` is the jump to `.Lfail`. -/
def loop (r10 : BitVec 32) : BitVec 64 → Text → Option (BitVec 64)
  | rcx, [] => some rcx
  | rcx, c :: rest =>
      let eax := loadByte c - 48#32
      -- `jl` after `subl` compares the operands of the subtraction.
      if (loadByte c).slt 48#32 then none
      else if (9#32).slt eax then none
      else if limitTenth.ult rcx then none
      else if rcx.ult limitTenth then loop r10 (mulAdd rcx eax) rest
      else if r10.slt eax then none
      else loop r10 (mulAdd rcx eax) rest

/-- `.Lhave_digits`, to the end; `r9d` tells a minus sign. -/
def haveDigits (r9 : Bool) (digits : Text) (out : BitVec 64) : BitVec 32 × BitVec 64 :=
  if digits = [] then (-1#32, out)
  else
    match loop (if r9 then 8#32 else 7#32) 0#64 digits with
    | some rcx => (0#32, if r9 then -rcx else rcx)
    | none => (-1#32, out)

/-- `petrush_parse_i64`: the status and what it leaves in `*out`. -/
def petrushParseI64 (s : Text) (out : BitVec 64) : BitVec 32 × BitVec 64 :=
  match s with
  | [] => (-1#32, out)
  | '+' :: digits => haveDigits false digits out
  | '-' :: digits => haveDigits true digits out
  | digits => haveDigits false digits out

example : petrushParseI64 "-9223372036854775808".toList 5#64 = (0#32, 1#64 <<< 63) := by decide

end Petrush.Asm.ParseI64
