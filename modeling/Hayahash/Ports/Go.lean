import Hayahash.Ports.Session
import Hayahash.Ports.Stream

/-! # The Go port

`hayahash.go` and `stream.go`, with an `int` of `w.bits` bits. A slice is a range of its array, and
a slice expression out of range panics. The constants of the initial lanes are exact integers before
they become a `uint64`. -/

namespace Hayahash.Ports.Go

open Hayahash.Lib.Bytes Hayahash.Lib.Checked Hayahash.Lib.Arrays
open Hayahash.C.Primitives (Word Lanes4 Lanes8)
open Hayahash.C.Walk (Hash128)
open Hayahash.Ports.Walk Hayahash.Ports.Stream Hayahash.Ports.Session

/-! ### Constants and mixers -/

/-- The multipliers, which are untyped constants. -/
def k : ℕ := 0x9E3779B97F4A7C15

def m1 : ℕ := 0x3C79AC492BA7B653

def m2 : ℕ := 0x1C69B3F74AC4AE35

def n1 : ℕ := 0xFF51AFD7ED558CCD

def n2 : ℕ := 0xC4CEB9FE1A85EC53

/-- `bulkMin`. -/
def bulkMin : ℤ := 320

/-- `1<<64 - 1`. -/
def mask64 : ℕ := 1 <<< 64 - 1

/-- `uint64` of a constant expression. -/
def uint64 (x : ℕ) : Word := .ofNat 64 x

/-- `bits.RotateLeft64`. -/
def rotateLeft64 : Word → ℕ → Word := shiftRotl

/-- `fmix`. -/
def fmix : Word → Word := finalizer 27 33 27 (uint64 m1) (uint64 m2)

/-- `fmix128`. -/
def fmix128 : Word → Word := finalizer 30 31 33 (uint64 n1) (uint64 n2)

/-- `longAvalanche`. -/
def longAvalanche : Word → Word := avalanche (uint64 k)

/-- `inj`. -/
def inj : Word → Word := injection rotateLeft64 21 41

/-- `inj2`. -/
def inj2 : Word → Word := injection rotateLeft64 11 50

/-- The initial lanes of `Hash64`, `Hash128` and `Reset64`. -/
def iv (s : Word) : Lanes8 where
  h0 := s ^^^ uint64 k
  h1 := rotateLeft64 s 17 + uint64 (k <<< 21 &&& mask64)
  h2 := rotateLeft64 s 34 ^^^ uint64 (k >>> 13)
  h3 := rotateLeft64 s 51 + uint64 (k <<< 42 &&& mask64)
  h4 := s + uint64 (k >>> 27)
  h5 := rotateLeft64 s 13 ^^^ uint64 (k <<< 9 &&& mask64)
  h6 := rotateLeft64 s 26 + uint64 (k >>> 40)
  h7 := rotateLeft64 s 39 ^^^ uint64 (k <<< 30 &&& mask64)

/-- What the walk takes of them. -/
def mixers : Mixers where
  k := uint64 k
  m1 := uint64 m1
  bulkMin := bulkMin
  rotl := rotateLeft64
  fmix := fmix
  fmix128 := fmix128
  longAvalanche := longAvalanche
  inj := inj
  inj2 := inj2
  iv := iv

/-! ### Slices -/

/-- `load64le`, which slices first. -/
def load64le (p : View) (i : ℤ) : Chk Word := do (← p.suffix i).read64 0

/-- `load32le`. -/
def load32le (p : View) (i : ℤ) : Chk Word := do
  return (← (← p.suffix i).read32 0).setWidth 64

/-- `copy(dst[lo:hi], src)`, of as many bytes as both have. -/
def copy (dst : List Byte) (lo hi : ℤ) (src : View) : Chk (List Byte) := do
  let dst' ← (View.all dst).part lo hi
  blit dst dst'.off (src.bytes.take dst'.len.toNat)

/-! ### One-shot -/

variable (w : Width)

/-- The loads on a slice. -/
def reader (key : View) : Reader where
  mix := mixers
  ints := w.signed
  load64 := load64le key
  load32 := load32le key
  load8 i := do return (← key.get i).setWidth 64
  fromStart := pure
  fromEnd := w.signed.sub key.len

/-- **`Hash64`**. -/
def hash64 (key : View) (seed : Word) : Chk Word :=
  hashImpl (reader w key) (tailFromLength (reader w key)) 0 key.len (seed ^^^ uint64 k)

/-- **`Hash128`**. -/
def hash128 (key : View) (seed : Word) : Chk Hash128 :=
  hash128Impl (reader w key) (tailFromLength (reader w key)) 0 key.len (seed ^^^ uint64 k)

/-! ### Digest -/

/-- `Digest`. -/
abbrev Digest := State (Lanes8 × Word) Word

/-- `blocks`, of `p[:len]`. -/
def blocks (p : View) (len : ℤ) (s : Lanes8 × Word) : Chk (Lanes8 × Word) := do
  let p ← p.part 0 len
  untilLt w.signed (block (reader w p)) 64 p.len (p.len.toNat + 1) 0 s

/-- What `Write` is made of. -/
def port : Port (Lanes8 × Word) Word where
  ints := w.signed
  addTotal total n := total + .ofInt 64 n
  fits nbuf n := do return n < (← w.signed.sub bufCap nbuf)
  blocks := blocks w
  skip p k := p.suffix k
  copyIn buf nbuf p take := do copy buf nbuf buf.length (← p.part 0 take)
  moveDown buf consume nbuf := do
    copy buf 0 nbuf (← (View.all buf).part consume (← w.signed.add consume nbuf))

/-- `Write`: the state after it, and the number of bytes written. -/
def write (d : Digest) (p : List Byte) : Chk (Digest × ℤ) := do
  return (← update (port w) d (.all p), p.length)

/-- `Reset64`, which leaves the buffer as it is. -/
def reset64 (d : Digest) (seed : Word) : Digest := fresh (iv (seed ^^^ uint64 k), 0) 0 seed d.buf

/-- `Reset`. -/
def reset (d : Digest) : Digest := reset64 d d.seed

/-- `New`. -/
def new (seed : Word) : Digest :=
  reset64 ⟨(⟨0, 0, 0, 0, 0, 0, 0, 0⟩, 0), 0, 0, 0, false, List.replicate 448 0⟩ seed

/-- What the digests are made of: `d.buf[:d.total]`, and the end of the walk over
`d.buf[:d.nbuf]`. -/
def finish : Finish (Lanes8 × Word) where
  mix := mixers
  held d := (View.all d.buf).part 0 d.total.toNat
  hash64 := hash64 w
  hash128 := hash128 w
  rest d := do
    let buf ← (View.all d.buf).part 0 d.nbuf
    restLanes (reader w buf) d.nbuf d.lanes

/-- `Sum64`. -/
def sum64 (d : Digest) : Chk Word := digest64 (finish w) d

/-- `Sum128`. -/
def sum128 (d : Digest) : Chk Hash128 := digest128 (finish w) d

/-- `*Digest`. A reset is `Reset64` with a seed, or `Reset`. -/
def digest : Object (List Byte) Word (Option Word) Answer Digest where
  new := new
  update d p := do return ((← write w d p).1, [])
  digest64 d := do return .word (← sum64 w d)
  digest128 d := do return .pair (← sum128 w d)
  reset d
    | some seed => reset64 d seed
    | none => reset d

end Hayahash.Ports.Go
