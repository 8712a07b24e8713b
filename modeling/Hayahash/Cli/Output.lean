import Hayahash.C.Primitives
import Hayahash.Lib.Codec

/-! # The output lines of `hayasum`

`hayasum_label_needs_escape`, `hayasum_write_escaped` and `hayasum_print_digest` of `hayasum.c`. A
string is the memory from its first byte on; a scan that runs past the end of it has no value. The
writers are over any stream: `put` is a call that writes some bytes to it, be it `fputc`, `fputs` or
`fprintf`. -/

namespace Hayahash.Cli.Output

open Hayahash.Lib.Bytes (Byte)
open Hayahash.Lib.Codec (digits)
open Hayahash.C.Primitives (Word)

/-- `'\\'`. -/
def backslash : Byte := 0x5c

/-- `'\n'`. -/
def newline : Byte := 0x0a

/-- `'\r'`. -/
def carriageReturn : Byte := 0x0d

/-- `' '`. -/
def space : Byte := 0x20

/-- `'n'`. -/
def letterN : Byte := 0x6e

/-- `'r'`. -/
def letterR : Byte := 0x72

/-! ### Strings -/

/-- A string: bytes, none of which is the NUL behind them. -/
structure CString where
  bytes : List Byte
  noNul : 0 ∉ bytes

/-- The memory of a string, up to its NUL. -/
def CString.memory (s : CString) : List Byte := s.bytes ++ [0]

/-! ### Digits -/

/-- A lower-case hexadecimal digit. -/
def hexDigit (d : ℕ) : Byte := .ofNat 8 (if d < 10 then 0x30 + d else 0x61 + (d - 10))

/-- `"%016" PRIx64`: 16 digits, filled with zeros. A word has no more. -/
def hex016 (x : Word) : List Byte := (digits 16 16 x.toNat).map hexDigit

/-! ### `hayasum.c` -/

/-- `hayasum_label_needs_escape`. -/
def labelNeedsEscape : List Byte → Option Bool
  | [] => none
  | c :: s =>
    if c = 0 then some false
    else if c = backslash ∨ c = newline ∨ c = carriageReturn then some true
    else labelNeedsEscape s

section Writers
variable {O : Type} (put : List Byte → O → O)

/-- **`hayasum_write_escaped`.** -/
def writeEscaped (out : O) : List Byte → Option O
  | [] => none
  | c :: s =>
    if c = 0 then some out
    else if c = backslash then writeEscaped (put [backslash, backslash] out) s
    else if c = newline then writeEscaped (put [backslash, letterN] out) s
    else if c = carriageReturn then writeEscaped (put [backslash, letterR] out) s
    else writeEscaped (put [c] out) s

/-- **`hayasum_print_digest`.** -/
def printDigest (out : O) (lo hi : Word) (bits : ℤ) (label : List Byte) : Option O := do
  let out := if ← labelNeedsEscape label then put [backslash] out else out
  let out :=
    if bits = 128 then put (hex016 hi ++ hex016 lo ++ [space, space]) out
    else put (hex016 lo ++ [space, space]) out
  let out ← writeEscaped put out label
  return put [newline] out

end Writers

/-! ### Results -/

/-- A `FILE` that takes everything: what it was given so far. -/
abbrev File := List Byte

/-- A call that writes to it. -/
def fputs (s : List Byte) (out : File) : File := out ++ s

/-- The width of a digest, `64` or `128`. -/
inductive Bits where
  | b64
  | b128
deriving DecidableEq

def Bits.toInt : Bits → ℤ
  | .b64 => 64
  | .b128 => 128

/-- What is printed in a line. -/
structure Result where
  lo : Word
  hi : Word
  bits : Bits
  label : CString

/-- The line of a result, behind what has been written. -/
def Result.print (out : File) (r : Result) : Option File :=
  printDigest fputs out r.lo r.hi r.bits.toInt r.label.memory

/-- The lines of some results. -/
def printAll (out : File) (rs : List Result) : Option File := rs.foldlM Result.print out

end Hayahash.Cli.Output
