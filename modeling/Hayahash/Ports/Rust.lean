import Hayahash.Ports.Session
import Hayahash.Ports.Stream

/-! # The Rust port

`lib.rs` and `stream.rs`, with a `usize` of `w.bits` bits. Index arithmetic that overflows panics,
and so does an index or a range out of bounds. The streaming lanes are an array. -/

namespace Hayahash.Ports.Rust

open Hayahash.Lib.Bytes Hayahash.Lib.Checked Hayahash.Lib.Arrays
open Hayahash.C.Primitives (Word Lanes4 Lanes8)
open Hayahash.C.Walk (Hash128)
open Hayahash.Ports.Walk Hayahash.Ports.Stream Hayahash.Ports.Session

/-! ### Constants and mixers -/

/-- The multipliers. -/
def K : Word := 0x9E3779B97F4A7C15

def M1 : Word := 0x3C79AC492BA7B653

def M2 : Word := 0x1C69B3F74AC4AE35

def N1 : Word := 0xFF51AFD7ED558CCD

def N2 : Word := 0xC4CEB9FE1A85EC53

/-- `BULK_MIN`. -/
def bulkMin : ℤ := 320

/-- `u64::rotate_left`. -/
def rotateLeft : Word → ℕ → Word := fun x n => (x <<< n) ||| (x >>> ((64 - n) % 64))

/-- `fmix`. -/
def fmix : Word → Word := finalizer 27 33 27 M1 M2

/-- `fmix128`. -/
def fmix128 : Word → Word := finalizer 30 31 33 N1 N2

/-- `long_avalanche`. -/
def longAvalanche : Word → Word := avalanche K

/-- `inj`. -/
def inj : Word → Word := injection rotateLeft 21 41

/-- `inj2`. -/
def inj2 : Word → Word := injection rotateLeft 11 50

/-- The initial lanes of `hash` and `Digest::new`. -/
def iv : Word → Lanes8 := lanes8 K rotateLeft

/-- What the walk takes of them. -/
def mixers : Mixers where
  k := K
  m1 := M1
  bulkMin := bulkMin
  rotl := rotateLeft
  fmix := fmix
  fmix128 := fmix128
  longAvalanche := longAvalanche
  inj := inj
  inj2 := inj2
  iv := iv

variable (w : Width)

/-- `x as usize`. -/
def asUsize (x : Word) : ℤ := (x.toNat % 2 ^ w.bits : ℕ)

/-! ### Slices -/

/-- `load64le`, of `p[i..i + 8]`. -/
def load64le (p : View) (i : ℤ) : Chk Word := do
  (← p.part i (← w.unsigned.add i 8)).read64 0

/-- `load32le`, of `p[i..i + 4]`. -/
def load32le (p : View) (i : ℤ) : Chk Word := do
  return (← (← p.part i (← w.unsigned.add i 4)).read32 0).setWidth 64

/-- `dst[lo..hi].copy_from_slice(src)`, which panics if the lengths differ. -/
def copyFromSlice (dst : List Byte) (lo hi : ℤ) (src : View) : Chk (List Byte) := do
  let dst' ← (View.all dst).part lo hi
  if dst'.len = src.len then blit dst dst'.off src.bytes else throw .bounds

/-- `a.copy_within(src..end, dest)`. -/
def copyWithin (a : List Byte) (src fin dest : ℤ) : Chk (List Byte) := do
  blit a dest (← (View.all a).part src fin).bytes

/-! ### One-shot -/

/-- The loads on a slice. -/
def reader (key : View) : Reader where
  mix := mixers
  ints := w.unsigned
  load64 := load64le w key
  load32 := load32le w key
  load8 i := do return (← key.get i).setWidth 64
  fromStart := pure
  fromEnd := w.unsigned.sub key.len

/-- `hash::<WIDE>`. -/
def hash (wide : Bool) (key : View) (seed : Word) : Chk Hash128 := do
  let x ← hash128Impl (reader w key) (tailFromLength (reader w key)) 0 key.len (seed ^^^ K)
  return ⟨x.lo, if wide then x.hi else 0⟩

/-- **`hayahash64`**. -/
def hayahash64 (key : View) (seed : Word) : Chk Word := do return (← hash w false key seed).lo

/-- **`hayahash128`**. -/
def hayahash128 (key : View) (seed : Word) : Chk Hash128 := hash w true key seed

/-! ### Digest -/

/-- `Digest`. -/
abbrev Digest := State (Vector Word 8 × Word) Word

/-- `absorb_blocks`, of `p[..len]`. -/
def absorbBlocks (p : View) (len : ℤ) (s : Vector Word 8 × Word) : Chk (Vector Word 8 × Word) := do
  let p ← p.part 0 len
  untilLt w.unsigned (blockLoop (reader w p)) 64 p.len (p.len.toNat + 1) 0 s

/-- What `update` is made of. -/
def port : Port (Vector Word 8 × Word) Word where
  ints := w.unsigned
  addTotal total n := total + .ofInt 64 n
  fits nbuf n := do return (← w.unsigned.add nbuf n) < bufCap
  blocks := absorbBlocks w
  skip p k := p.suffix k
  copyIn buf nbuf p take := do
    copyFromSlice buf nbuf (← w.unsigned.add nbuf take) (← p.part 0 take)
  moveDown buf consume nbuf := do copyWithin buf consume (← w.unsigned.add consume nbuf) 0

/-- `update`. -/
def update (d : Digest) (data : List Byte) : Chk Digest :=
  Ports.Stream.update (port w) d (.all data)

/-- `Digest::new`. -/
def new (seed : Word) : Digest :=
  fresh (lanesArray (iv (seed ^^^ K)), 0) 0 seed (List.replicate 448 0)

/-- What the digests are made of: `&self.buf[..self.total as usize]`, and `tail` over
`&self.buf[..self.nbuf]`. -/
def tail : Finish (Vector Word 8 × Word) where
  mix := mixers
  held d := (View.all d.buf).part 0 (asUsize w d.total)
  hash64 := hayahash64 w
  hash128 := hayahash128 w
  rest d := do
    let buf ← (View.all d.buf).part 0 d.nbuf
    restLanesLoop (reader w buf) d.nbuf d.lanes

/-- `finish64`. -/
def finish64 (d : Digest) : Chk Word := digest64 (tail w) d

/-- `finish128`. -/
def finish128 (d : Digest) : Chk Hash128 := digest128 (tail w) d

/-- `Digest`. `reset` is `new`. -/
def digest : Object (List Byte) Word Word Answer Digest where
  new := new
  update d data := do return (← update w d data, [])
  digest64 d := do return .word (← finish64 w d)
  digest128 d := do return .pair (← finish128 w d)
  reset _ seed := new seed

end Hayahash.Ports.Rust
