import Hayahash.Ports.Session
import Hayahash.Ports.Stream

/-! # The Zig port

`root.zig` and `stream.zig`, with a `usize` of `w.bits` bits. Safety is on: index arithmetic that
overflows, a slice out of bounds, a copy between slices of different lengths and a cast that loses
bits are faults. The streaming lanes are an array, and the loops over them are unrolled by the
compiler. The buffer of a new state is undefined. -/

namespace Hayahash.Ports.Zig

open Hayahash.Lib.Bytes Hayahash.Lib.Checked Hayahash.Lib.Arrays
open Hayahash.C.Primitives (Word Lanes4 Lanes8)
open Hayahash.C.Walk (Hash128)
open Hayahash.Ports.Walk Hayahash.Ports.Stream Hayahash.Ports.Session

/-! ### Constants and mixers -/

/-- The multipliers. `stream.zig` has its own `K` and `rotl`, which are the same. -/
def K : Word := 0x9E3779B97F4A7C15

def M1 : Word := 0x3C79AC492BA7B653

def M2 : Word := 0x1C69B3F74AC4AE35

def N1 : Word := 0xFF51AFD7ED558CCD

def N2 : Word := 0xC4CEB9FE1A85EC53

/-- `bulk_min`. -/
def bulkMin : ℤ := 320

/-- `rotl`, of `std.math.rotl`. -/
def rotl : Word → ℕ → Word := shiftRotl

/-- `fmix`. -/
def fmix : Word → Word := finalizer 27 33 27 M1 M2

/-- `fmix128`. -/
def fmix128 : Word → Word := finalizer 30 31 33 N1 N2

/-- The end of `hash`. -/
def longAvalanche : Word → Word := avalanche K

/-- `inj`. -/
def inj : Word → Word := injection rotl 21 41

/-- `inj2`. -/
def inj2 : Word → Word := injection rotl 11 50

/-- The initial lanes of `hash` and `init`. -/
def iv : Word → Lanes8 := lanes8 K rotl

/-- What the walk takes of them. -/
def mixers : Mixers where
  k := K
  m1 := M1
  bulkMin := bulkMin
  rotl := rotl
  fmix := fmix
  fmix128 := fmix128
  longAvalanche := longAvalanche
  inj := inj
  inj2 := inj2
  iv := iv

variable (w : Width)

/-- `@intCast(x)`, to a `usize`. -/
def intCast (x : Word) : Chk ℤ := inRange 0 (2 * w.maxInt + 1) x.toNat

/-! ### Slices -/

/-- `p[i..][0..len]`. -/
def window (p : View) (i len : ℤ) : Chk View := do (← p.suffix i).part 0 len

/-- `load64le`, of `p[i..][0..8]`. -/
def load64le (p : View) (i : ℤ) : Chk Word := do (← window p i 8).read64 0

/-- `load32le`, of `p[i..][0..4]`. -/
def load32le (p : View) (i : ℤ) : Chk Word := do return (← (← window p i 4).read32 0).setWidth 64

/-- `@memcpy` of `src` to `dst[lo..][0..len]`. -/
def memcpy (dst : List Byte) (lo len : ℤ) (src : View) : Chk (List Byte) := do
  let dst' ← window (.all dst) lo len
  if dst'.len = src.len then blit dst dst'.off src.bytes else throw .bounds

/-- `std.mem.copyForwards(u8, a[0..len], a[src..][0..len])`. -/
def copyForwards (a : List Byte) (src len : ℤ) : Chk (List Byte) := do
  let _ ← (View.all a).part 0 len
  let _ ← window (.all a) src len
  moveForwards .exact src len.toNat 0 a

/-! ### One-shot -/

/-- The loads on a slice. -/
def reader (key : View) : Reader where
  mix := mixers
  ints := w.unsigned
  load64 := load64le key
  load32 := load32le key
  load8 i := do return (← key.get i).setWidth 64
  fromStart := pure
  fromEnd := w.unsigned.sub key.len

/-- `hash`. -/
def hash (wide : Bool) (key : View) (seed : Word) : Chk Hash128 := do
  let x ← hash128Impl (reader w key) (tailFromLength (reader w key)) 0 key.len (seed ^^^ K)
  return ⟨x.lo, if wide then x.hi else 0⟩

/-- **`hayahash64`**. -/
def hayahash64 (key : View) (seed : Word) : Chk Word := do return (← hash w false key seed).lo

/-- **`hayahash128`**. -/
def hayahash128 (key : View) (seed : Word) : Chk Hash128 := hash w true key seed

/-! ### Hasher -/

/-- `Hasher`. -/
abbrev Hasher := State (Vector Word 8 × Word) Word

/-- `blocks`, of `p[0..len]`. -/
def blocks (p : View) (len : ℤ) (s : Vector Word 8 × Word) : Chk (Vector Word 8 × Word) := do
  let p ← p.part 0 len
  untilLt w.unsigned (blockLoop (reader w p)) 64 p.len (p.len.toNat + 1) 0 s

/-- What `update` is made of. -/
def port : Port (Vector Word 8 × Word) Word where
  ints := w.unsigned
  addTotal total n := total + .ofInt 64 n
  fits nbuf n := do return (← w.unsigned.add nbuf n) < bufCap
  blocks := blocks w
  skip p k := p.suffix k
  copyIn buf nbuf p take := do memcpy buf nbuf take (← p.part 0 take)
  moveDown buf consume nbuf := copyForwards buf consume nbuf

/-- `update`. -/
def update (self : Hasher) (data : List Byte) : Chk Hasher :=
  Ports.Stream.update (port w) self (.all data)

/-- `init`, with whatever the buffer holds. -/
def init (undefined : Vector Byte 448) (seed : Word) : Hasher :=
  fresh (lanesArray (iv (seed ^^^ K)), 0) 0 seed undefined.toList

/-- What the digests are made of: `self.buf[0..@intCast(self.total)]`, and `tail` over
`self.buf[0..self.nbuf]`. -/
def tail : Finish (Vector Word 8 × Word) where
  mix := mixers
  held self := do (View.all self.buf).part 0 (← intCast w self.total)
  hash64 := hayahash64 w
  hash128 := hayahash128 w
  rest self := do
    let buf ← (View.all self.buf).part 0 self.nbuf
    restLanesLoop (reader w buf) self.nbuf self.lanes

/-- `digest64`. -/
def digest64 (self : Hasher) : Chk Word := Ports.Stream.digest64 (tail w) self

/-- `digest128`. -/
def digest128 (self : Hasher) : Chk Hash128 := Ports.Stream.digest128 (tail w) self

/-- A seed, and what the buffer holds before it is written. -/
abbrev Start := Word × Vector Byte 448

/-- `Hasher`. `reset` is `init`. -/
def hasher : Object (List Byte) Start Start Answer Hasher where
  new s := init s.2 s.1
  update self data := do return (← update w self data, [])
  digest64 self := do return .word (← digest64 w self)
  digest128 self := do return .pair (← digest128 w self)
  reset _ s := init s.2 s.1

/-- What the calls mean. -/
def meaning : Meaning (List Byte) Start Start Answer where
  seed := Prod.fst
  bytes := some
  reseed s _ := s.1
  word := .word
  pair := .pair
  rejected := []

end Hayahash.Ports.Zig
