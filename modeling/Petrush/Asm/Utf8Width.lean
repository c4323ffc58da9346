import Mathlib

/-!
# `petrush_utf8_width` (`asm/utf8_width.S`)

The routine on its registers.  `rdi` and `rsi`, the bytes still to be read, are a list; the
others are the machine words they are in the source.  `.Lloop` is `loop`, with the tests of
`.L2byte`, `.L3byte` and `.L4byte`, and `.Lclassify` is what a code point adds to `r10d`.
-/

namespace Petrush.Asm.Utf8Width

/-- `movzbl`. -/
def loadByte (b : UInt8) : BitVec 32 := BitVec.ofNat 32 b.toNat

/-- `cmpl lo; jb next; cmpl hi; jbe`. -/
def between (lo hi eax : BitVec 32) : Bool := !eax.ult lo && !hi.ult eax

/-- `andl $0xC0; cmpl $0x80; je`. -/
def isCont (b : BitVec 32) : Bool := b &&& 0xC0#32 == 0x80#32

/-! ## `.Lclassify` -/

/-- `.Lwide`. -/
def wide (eax : BitVec 32) : BitVec 32 :=
  if eax.ult 0x1100#32 then 1#32
  else if !(0x115F#32).ult eax then 2#32
  else if eax = 0x2329#32 then 2#32
  else if eax = 0x232A#32 then 2#32
  else if between 0x2E80#32 0xA4CF#32 eax then (if eax = 0x303F#32 then 1#32 else 2#32)
  else if between 0xAC00#32 0xD7A3#32 eax then 2#32
  else if between 0xF900#32 0xFAFF#32 eax then 2#32
  else if between 0xFE10#32 0xFE19#32 eax then 2#32
  else if between 0xFE30#32 0xFE6F#32 eax then 2#32
  else if between 0xFF00#32 0xFF60#32 eax then 2#32
  else if between 0xFFE0#32 0xFFE6#32 eax then 2#32
  else if between 0x20000#32 0x2FFFD#32 eax then 2#32
  else if between 0x30000#32 0x3FFFD#32 eax then 2#32
  else 1#32

/-- `.Lclassify`, to `.Ladd0`, `.Ladd1` or `.Ladd2`. -/
def classify (eax : BitVec 32) : BitVec 32 :=
  if between 0x0300#32 0x036F#32 eax then 0#32
  else if between 0x1AB0#32 0x1AFF#32 eax then 0#32
  else if between 0x1DC0#32 0x1DFF#32 eax then 0#32
  else if between 0x20D0#32 0x20FF#32 eax then 0#32
  else if between 0xFE20#32 0xFE2F#32 eax then 0#32
  else wide eax

/-! ## The sequences -/

/-- The tests of `.L2byte`. -/
def accepts2 (eax edx : BitVec 32) : Bool := !eax.ult 0xC2#32 && isCont edx

/-- The code point of `.L2byte`. -/
def codePoint2 (eax edx : BitVec 32) : BitVec 32 :=
  (eax &&& 0x1F#32) <<< 6 ||| (edx &&& 0x3F#32)

/-- The tests of `.L3byte`; `.L3_ed` is the second `if`. -/
def accepts3 (eax edx r8 : BitVec 32) : Bool :=
  isCont edx && isCont r8 &&
    (if eax = 0xE0#32 then !edx.ult 0xA0#32
     else if eax = 0xED#32 then !(0x9F#32).ult edx
     else true)

/-- `.L3_ok`. -/
def codePoint3 (eax edx r8 : BitVec 32) : BitVec 32 :=
  (eax &&& 0x0F#32) <<< 12 ||| (edx &&& 0x3F#32) <<< 6 ||| (r8 &&& 0x3F#32)

/-- The tests of `.L4byte`; `.L4_f4` is the second `if`. -/
def accepts4 (eax edx r8 r9 : BitVec 32) : Bool :=
  !(0xF4#32).ult eax && (isCont edx && isCont r8 && isCont r9) &&
    (if eax = 0xF0#32 then !edx.ult 0x90#32
     else if eax = 0xF4#32 then !(0x8F#32).ult edx
     else true)

/-- `.L4_ok`. -/
def codePoint4 (eax edx r8 r9 : BitVec 32) : BitVec 32 :=
  (eax &&& 0x07#32) <<< 18 ||| (edx &&& 0x3F#32) <<< 12 ||| (r8 &&& 0x3F#32) <<< 6 |||
    (r9 &&& 0x3F#32)

/-! ## The loop -/

/-- `.Lloop`, to the end; `-1` is the jump to `.Lfail`. -/
def loop (r10 : BitVec 32) : List UInt8 → BitVec 32
  | [] => r10
  | a :: rest =>
      let eax := loadByte a
      if eax &&& 0x80#32 = 0#32 then loop (r10 + 1#32) rest
      else if eax &&& 0xC0#32 = 0x80#32 then -1#32
      else if eax &&& 0xE0#32 = 0xC0#32 then
        match rest with
        | b :: rest =>
            if accepts2 eax (loadByte b) then
              loop (r10 + classify (codePoint2 eax (loadByte b))) rest
            else -1#32
        | _ => -1#32
      else if eax &&& 0xF0#32 = 0xE0#32 then
        match rest with
        | b :: c :: rest =>
            if accepts3 eax (loadByte b) (loadByte c) then
              loop (r10 + classify (codePoint3 eax (loadByte b) (loadByte c))) rest
            else -1#32
        | _ => -1#32
      else if eax &&& 0xF8#32 = 0xF0#32 then
        match rest with
        | b :: c :: d :: rest =>
            if accepts4 eax (loadByte b) (loadByte c) (loadByte d) then
              loop (r10 + classify (codePoint4 eax (loadByte b) (loadByte c) (loadByte d))) rest
            else -1#32
        | _ => -1#32
      else -1#32

/-- `petrush_utf8_width`, on `len` bytes at `s`; without bytes `s` is not looked at, and
`none` is a NULL with a length. -/
def petrushUtf8Width (s : Option (List UInt8)) : BitVec 32 :=
  match s with
  | some [] => 0#32
  | none => -1#32
  | some bytes => loop 0#32 bytes

example : petrushUtf8Width (some [0x61, 0xCC, 0x81, 0xE5, 0xAD, 0x97]) = 3#32 := by decide

end Petrush.Asm.Utf8Width
