import Hayahash.Lib.Bytes

/-! # The primitives of `hayahash.h`

What the preprocessor knows of the platform (`Target`) and the dispatch macros it derives from it,
the constants, the loads, the rotations, the finalizers and the injections.

The header compiles to different code on different platforms. Every function below takes the
`Target` and follows the `#if`s on it, so a statement for every `t : Target` is one about every
shape the header has. The compiler guards are empty assembler statements and do not show. -/

namespace Hayahash.C.Primitives

open Hayahash.Lib.ReadProg Hayahash.Lib.Bytes

abbrev Word := BitVec 64

/-! ### The platform -/

/-- The architecture macro, at most one of which a compiler defines. -/
inductive Arch where
  | x86_64
  | aarch64
  | wasm
  | other
deriving DecidableEq, Repr

/-- `__clang__`, else `__GNUC__`, else neither. -/
inductive Compiler where
  | gcc
  | clang
  | other
deriving DecidableEq, Repr

/-- `HAYAHASH64_INTERNAL_ENDIAN`: `0`, `1`, or `2` where the compiler tells no byte order. -/
inductive Endian where
  | little
  | big
  | unknown
deriving DecidableEq, Repr

/-- The width of `size_t` and `ptrdiff_t`. -/
inductive SizeWidth where
  | w32
  | w64
deriving DecidableEq, Repr

/-- What the preprocessor knows. `avx512dqZen` is `__AVX512DQ__` on a `znver4` or `znver5`
target. -/
structure Target where
  arch : Arch
  compiler : Compiler
  avx512dqZen : Bool
  endian : Endian
  sizeWidth : SizeWidth
deriving DecidableEq, Repr

namespace Target

variable (t : Target)

/-- `defined(__aarch64__) || defined(__x86_64__)`: two blocks per iteration. -/
def twoBlock : Bool := t.arch = .aarch64 || t.arch = .x86_64

/-- `HAYAHASH64_INTERNAL_TIERS`. -/
def tiers : Bool := (t.arch = .aarch64 || t.arch = .x86_64) && t.compiler ≠ .clang

/-- `HAYAHASH64_INTERNAL_VECGCC`. -/
def vecgcc : Bool := t.arch = .x86_64 && t.compiler = .gcc && t.avx512dqZen

/-- `defined(__wasm__)`. -/
def isWasm : Bool := t.arch = .wasm

/-- `HAYAHASH128_INTERNAL_INLINEBULK`. -/
def inlineBulk : Bool := t.compiler = .clang && t.arch ≠ .wasm

/-- The number of bits of `size_t`. -/
def sizeBits : ℕ := match t.sizeWidth with
  | .w32 => 32
  | .w64 => 64

/-- `PTRDIFF_MAX`. -/
def ptrdiffMax : ℕ := 2 ^ (t.sizeBits - 1) - 1

end Target

/-! ### Constants -/

/-- `HAYAHASH64_INTERNAL_K`. -/
def K : Word := 0x9E3779B97F4A7C15#64

/-- `HAYAHASH64_INTERNAL_M1`. -/
def M1 : Word := 0x3C79AC492BA7B653#64

/-- `HAYAHASH64_INTERNAL_M2`. -/
def M2 : Word := 0x1C69B3F74AC4AE35#64

/-- `HAYAHASH128_INTERNAL_N1`. -/
def N1 : Word := 0xFF51AFD7ED558CCD#64

/-- `HAYAHASH128_INTERNAL_N2`. -/
def N2 : Word := 0xC4CEB9FE1A85EC53#64

/-- `hayahash64_internal_bulk_min`. -/
def bulkMin : ℤ := 320

/-! ### Mixers -/

/-- `hayahash64_internal_rotl`, for `0 ≤ n < 64`. -/
def rotl (x : Word) (n : ℕ) : Word := (x <<< n) ||| (x >>> ((64 - n) % 64))

/-- `hayahash64_internal_rotl_product`. -/
def rotlProduct (x : Word) (n : ℕ) : Word := rotl x n

/-- `hayahash64_internal_fmix`. -/
def fmix (x : Word) : Word :=
  let x := x ^^^ (x >>> 27)
  let x := x * M1
  let x := x ^^^ (x >>> 33)
  let x := x * M2
  x ^^^ (x >>> 27)

/-- `hayahash128_internal_fmix`. -/
def fmix128 (x : Word) : Word :=
  let x := x ^^^ (x >>> 30)
  let x := x * N1
  let x := x ^^^ (x >>> 31)
  let x := x * N2
  x ^^^ (x >>> 33)

/-- `hayahash64_internal_long_fmix`. -/
def longFmix (x k : Word) : Word :=
  let x := x ^^^ (x >>> 37)
  let x := x * k
  x ^^^ (x >>> 32)

/-- `hayahash64_internal_inj`. -/
def inj (w : Word) : Word :=
  let x := w ^^^ rotl w 21
  x ^^^ rotl w 41

/-- `hayahash64_internal_inj2`. -/
def inj2 (w : Word) : Word :=
  let x := w ^^^ rotl w 11
  x ^^^ rotl w 50

/-! ### Lanes, and what an execution is observed to do -/

/-- The locals `h0 .. h3`. -/
@[ext] structure Lanes4 where
  h0 : Word
  h1 : Word
  h2 : Word
  h3 : Word
deriving DecidableEq, Repr

/-- The locals `h0 .. h7`. -/
@[ext] structure Lanes8 where
  h0 : Word
  h1 : Word
  h2 : Word
  h3 : Word
  h4 : Word
  h5 : Word
  h6 : Word
  h7 : Word
deriving DecidableEq, Repr

/-- What is observed of a run: the values combined into the lanes or, on the short path, into the
two products, each with the bytes it was loaded from; the eight lanes where the bulk loop is left;
the four lanes where the folds begin. -/
inductive Event where
  | absorb (src : List Span) (x : Word)
  | bulkExit (h : Lanes8)
  | fold (h : Lanes4)
deriving DecidableEq

/-- Code that reads the key. -/
abbrev Code := Prog Byte Event

/-- A word with the bytes it was loaded from. -/
structure Loaded where
  src : List Span
  val : Word

/-! ### Loads -/

/-- Eight bytes as a big-endian host's `memcpy` into a `uint64_t` reads them. -/
def be64 (b : Fin 8 → Byte) : Word := b 0 ++ b 1 ++ b 2 ++ b 3 ++ b 4 ++ b 5 ++ b 6 ++ b 7

/-- Four bytes as a big-endian host's `memcpy` into a `uint32_t` reads them. -/
def be32 (b : Fin 4 → Byte) : BitVec 32 := b 0 ++ b 1 ++ b 2 ++ b 3

/-- The byte swap of `load32le` on a big-endian host. -/
def swap32 (v : BitVec 32) : BitVec 32 :=
  (v >>> 24) ||| ((v >>> 8) &&& 0xFF00#32) ||| ((v &&& 0xFF00#32) <<< 8) ||| (v <<< 24)

/-- The byte swap of `load64le` on a big-endian host. -/
def swap64 (v : Word) : Word :=
  let v := ((v &&& 0x00000000FFFFFFFF#64) <<< 32) ||| (v >>> 32)
  let v := ((v &&& 0x0000FFFF0000FFFF#64) <<< 16) ||| ((v >>> 16) &&& 0x0000FFFF0000FFFF#64)
  ((v &&& 0x00FF00FF00FF00FF#64) <<< 8) ||| ((v >>> 8) &&& 0x00FF00FF00FF00FF#64)

/-- The four bytes of `load32le`, by the byte order of the host. -/
def decode32 : Endian → (Fin 4 → Byte) → Word
  | .little, b => (le32 b).setWidth 64
  | .big, b => (swap32 (be32 b)).setWidth 64
  | .unknown, b => (b 0).setWidth 64 ||| ((b 1).setWidth 64 <<< 8) |||
      ((b 2).setWidth 64 <<< 16) ||| ((b 3).setWidth 64 <<< 24)

/-- The eight bytes of `load64le`, by the byte order of the host. -/
def decode64 : Endian → (Fin 8 → Byte) → Word
  | .little, b => le64 b
  | .big, b => swap64 (be64 b)
  | .unknown, b => (b 0).setWidth 64 ||| ((b 1).setWidth 64 <<< 8) |||
      ((b 2).setWidth 64 <<< 16) ||| ((b 3).setWidth 64 <<< 24) |||
      ((b 4).setWidth 64 <<< 32) ||| ((b 5).setWidth 64 <<< 40) |||
      ((b 6).setWidth 64 <<< 48) ||| ((b 7).setWidth 64 <<< 56)

/-- `p[off]`, converted to `uint64_t`. -/
def load8 (off : ℤ) : Code Loaded := do
  let b ← Prog.loadSpan ⟨off, 1⟩
  return ⟨[⟨off, 1⟩], (b 0).setWidth 64⟩

/-- `hayahash64_internal_load32le`. -/
def load32le (t : Target) (off : ℤ) : Code Loaded := do
  let b ← Prog.loadSpan ⟨off, 4⟩
  return ⟨[⟨off, 4⟩], decode32 t.endian b⟩

/-- `hayahash64_internal_load64le`. -/
def load64le (t : Target) (off : ℤ) : Code Loaded := do
  let b ← Prog.loadSpan ⟨off, 8⟩
  return ⟨[⟨off, 8⟩], decode64 t.endian b⟩

/-- `hayahash64_internal_injp`. -/
def injp (t : Target) (off : ℤ) : Code Loaded := do
  let w ← load64le t off
  return ⟨w.src, inj w.val⟩

end Hayahash.C.Primitives
