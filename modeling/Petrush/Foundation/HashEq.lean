import Petrush.Asm.Memeq
import Petrush.Foundation.PluginLoad
import Petrush.Lib.Cells

/-!
# `petrush_plugin_sha256_hex_eq` on its bytes (`plugin_load.c`)

`PluginLoad.sha256HexEq` says what the comparison answers.  Here the strings are read
byte by byte, and each is an array that ends with its NUL: a byte behind that is outside.
-/

namespace Petrush.Foundation.HashEq

open Petrush.Asm.Memeq
open Petrush.Lib.CText
open Petrush.Lib.Cells
open Petrush.Foundation.PluginLoad

/-- A NUL-terminated string. -/
structure CString where
  text : Text
  nul_notMem : nul ∉ text

/-- Its bytes, with the terminator. -/
def CString.cells (s : CString) : List Char := s.text ++ [nul]

/-- `(unsigned char)((hi << 4) | lo)`. -/
def joinNibbles (hi lo : Nat) : UInt8 := UInt8.ofNat (hi <<< 4 ||| lo)

/-- The loop of `parse_sha256_hex`, with the turns left; `none` for its `-1`. -/
def parseLoop (hex : List Char) : Nat → Nat → List UInt8 → Except Fault (Option (List UInt8))
  | 0, _, out => do
      let last ← read hex sha256HexLen
      pure (if last ≠ nul then none else some out)
  | left + 1, i, out => do
      -- both are read before either is looked at
      let first ← read hex (i * 2)
      let second ← read hex (i * 2 + 1)
      match hexNibble first, hexNibble second with
      | some hi, some lo => parseLoop hex left (i + 1) (out ++ [joinNibbles hi lo])
      | _, _ => pure none

/-- `parse_sha256_hex`. -/
def parseSha256HexAt (hex : CString) : Except Fault (Option (List UInt8)) :=
  parseLoop hex.cells sha256Len 0 []

/-- `ct_mem_eq` on two digests. -/
def ctMemEq (a b : List UInt8) : Int :=
  (petrushMemeqCt ((a.zip b).map fun pair => (pair.1.toBitVec, pair.2.toBitVec))).toInt

/-- `petrush_plugin_sha256_hex_eq`. -/
def sha256HexEqAt (a b : CString) : Except Fault Int := do
  let some da ← parseSha256HexAt a | pure (-1)
  let some db ← parseSha256HexAt b | pure (-1)
  pure (ctMemEq da db)

end Petrush.Foundation.HashEq
