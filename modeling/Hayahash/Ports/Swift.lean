import Hayahash.Ports.Session
import Hayahash.Ports.Stream

/-! # The Swift port

`Hayahash.swift` and `Hasher.swift`, with an `Int` of `w.bits` bits. `+` and `-` trap where they
overflow, `&+` and `&-` wrap, and so an index is checked although it may be computed without a
check. Words are assembled from bytes. A buffer that is walked in part is walked with indices into
the whole of it. -/

namespace Hayahash.Ports.Swift

open Hayahash.Lib.Bytes Hayahash.Lib.Checked Hayahash.Lib.Arrays
open Hayahash.C.Primitives (Word Lanes4 Lanes8)
open Hayahash.C.Walk (Hash128)
open Hayahash.Ports.Walk Hayahash.Ports.Stream Hayahash.Ports.Session

/-! ### Constants and mixers -/

/-- The multipliers. -/
def k : Word := 0x9E3779B97F4A7C15

def m1 : Word := 0x3C79AC492BA7B653

def m2 : Word := 0x1C69B3F74AC4AE35

def n1 : Word := 0xFF51AFD7ED558CCD

def n2 : Word := 0xC4CEB9FE1A85EC53

/-- `bulkMin`. -/
def bulkMin : ℤ := 320

/-- `rotl`. A shift by 64 leaves nothing. -/
def rotl : Word → ℕ → Word := shiftRotl

/-- `fmix`. -/
def fmix : Word → Word := finalizer 27 33 27 m1 m2

/-- `fmix128`. -/
def fmix128 : Word → Word := finalizer 30 31 33 n1 n2

/-- The end of `hashLong`. -/
def longAvalanche : Word → Word := avalanche k

/-- `inj`. -/
def inj : Word → Word := injection rotl 21 41

/-- `inj2`. -/
def inj2 : Word → Word := injection rotl 11 50

/-- The initial lanes of `hashLong` and `init`. -/
def iv : Word → Lanes8 := lanes8 k rotl

/-- What the walk takes of them. -/
def mixers : Mixers where
  k := k
  m1 := m1
  bulkMin := bulkMin
  rotl := rotl
  fmix := fmix
  fmix128 := fmix128
  longAvalanche := longAvalanche
  inj := inj
  inj2 := inj2
  iv := iv

variable (w : Width)

/-- `&+` and `&-`. -/
def wrapping : Ints := .wrap w.bits

/-! ### Loads -/

/-- `UInt64(key[i &+ k]) << (8 * k)`. -/
def shifted (key : View) (i k : ℤ) : Chk Word := do
  let b ← key.get (← (wrapping w).add i k)
  return b.setWidth 64 <<< (8 * k.toNat)

/-- `load64`. -/
def load64 (key : View) (i : ℤ) : Chk Word := do
  let b0 ← key.get i
  let b1 ← shifted w key i 1
  let b2 ← shifted w key i 2
  let b3 ← shifted w key i 3
  let b4 ← shifted w key i 4
  let b5 ← shifted w key i 5
  let b6 ← shifted w key i 6
  let b7 ← shifted w key i 7
  return b0.setWidth 64 ||| b1 ||| b2 ||| b3 ||| b4 ||| b5 ||| b6 ||| b7

/-- `load32`. -/
def load32 (key : View) (i : ℤ) : Chk Word := do
  let b0 ← key.get i
  let b1 ← shifted w key i 1
  let b2 ← shifted w key i 2
  let b3 ← shifted w key i 3
  return b0.setWidth 64 ||| b1 ||| b2 ||| b3

/-! ### One-shot -/

/-- The loads on a buffer, with the index arithmetic `I`. -/
def reader (I : Ints) (key : View) : Reader where
  mix := mixers
  ints := I
  load64 := load64 w key
  load32 := load32 w key
  load8 i := do return (← key.get i).setWidth 64
  fromStart := pure
  fromEnd := I.sub key.len

/-- **`hash64`**. -/
def hash64 (key : View) (seed : Word) : Chk Word :=
  let R := reader w w.signed key
  hashImpl R (tailFromCursor R) 0 key.len (seed ^^^ k)

/-- **`hash128`**. -/
def hash128 (key : View) (seed : Word) : Chk Hash128 :=
  let R := reader w w.signed key
  hash128Impl R (tailFromCursor R) 0 key.len (seed ^^^ k)

/-- The range of an array, after its precondition: `buf[offset..<(offset + length)]`. -/
def range (data : List Byte) (offset length : ℤ) : Chk View := do
  if offset ≥ 0 ∧ length ≥ 0 ∧ offset ≤ data.length then
    if length ≤ (← w.signed.sub data.length offset) then
      (View.all data).part offset (← w.signed.add offset length)
    else throw .bounds
  else throw .bounds

/-- `hash64` of a range of an array. -/
def hash64Range (data : List Byte) (offset length : ℤ) (seed : Word) : Chk Word := do
  hash64 w (← range w data offset length) seed

/-- `hash128` of a range of an array. -/
def hash128Range (data : List Byte) (offset length : ℤ) (seed : Word) : Chk Hash128 := do
  hash128 w (← range w data offset length) seed

/-! ### Hasher -/

/-- `Hasher`. -/
abbrev Hasher := State (Lanes8 × Word) Word

/-- `absorbBlocks`, of `count` bytes of a buffer from `off` on. -/
def absorbBlocks (p : View) (off count : ℤ) (st : Lanes8 × Word) : Chk (Lanes8 × Word) := do
  let I := wrapping w
  let fin ← I.add off count
  untilLt I (block (reader w I p)) 64 fin (count.toNat + 1) off st

/-- `copyIn`: the `count` bytes of a chunk from `from` on go to `dst`. -/
def copyIn (buf data : List Byte) (from' count dst : ℤ) : Chk (List Byte) := do
  if count = 0 then
    return buf
  else
    let src ← (View.all data).part from' (← w.signed.add from' count)
    let b ← (View.all buf).part dst (← w.signed.add dst count)
    if src.len ≤ b.len then blit buf b.off src.bytes else throw .bounds

/-- What `absorb` is made of. A range is the whole chunk with `off` and `remaining`. -/
def port : Port (Lanes8 × Word) Word where
  ints := w.signed
  addTotal total n := total + .ofInt 64 n
  fits nbuf remaining := do return remaining < (← w.signed.sub bufCap nbuf)
  blocks v len := absorbBlocks w (.all v.data) v.off len
  skip v k := do return ⟨v.data, ← w.signed.add v.off k, ← w.signed.sub v.len k⟩
  copyIn buf nbuf v take := copyIn w buf v.data v.off take nbuf
  moveDown buf consume nbuf := moveForwards (wrapping w) consume nbuf.toNat 0 buf

/-- `update`. -/
def update (self : Hasher) (data : List Byte) : Chk Hasher :=
  Ports.Stream.update (port w) self (.all data)

/-- `init`. -/
def init (seed : Word) : Hasher := fresh (iv (seed ^^^ k), 0) 0 seed (List.replicate 448 0)

/-- `finish`, which walks the whole of the buffer up to `nbuf`: the lanes before the folds. What is
left is counted with `-`, which traps. -/
def finish (self : Hasher) : Chk Lanes4 := do
  let p := View.all self.buf
  let whole := wholeBlocks self.nbuf
  let st ← absorbBlocks w p 0 whole self.lanes
  let l ← w.signed.sub self.nbuf whole
  restRound (reader w (wrapping w) p) w.signed self.nbuf whole l st

/-- What the digests are made of: `hash64(buf, offset: 0, length: nbuf)`, and `finish`. -/
def tail : Finish (Lanes8 × Word) where
  mix := mixers
  held self := range w self.buf 0 self.nbuf
  hash64 := hash64 w
  hash128 := hash128 w
  rest := finish w

/-- `digest64`. -/
def digest64 (self : Hasher) : Chk Word := Ports.Stream.digest64 (tail w) self

/-- `digest128`. -/
def digest128 (self : Hasher) : Chk Hash128 := Ports.Stream.digest128 (tail w) self

/-- `Hasher`. A reset is `reset(seed:)`, or `reset()`, which keeps the seed. -/
def hasher : Object (List Byte) Word (Option Word) Answer Hasher where
  new := init
  update self data := do return (← update w self data, [])
  digest64 self := do return .word (← digest64 w self)
  digest128 self := do return .pair (← digest128 w self)
  reset self
    | some seed => init seed
    | none => init self.seed

end Hayahash.Ports.Swift
