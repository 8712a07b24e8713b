import Hayahash.Ports.Session
import Hayahash.Ports.Stream

/-! # The Java port

`Hayahash.java` and `Hasher.java`. An `int` has 32 bits; that it overflows is a fault here, and no
fault means that it never did. A key is a range of its array, with indices into the whole of it, and
the functions on it take what of the array may be read as a view: all of it for the language, only
the range to see that nothing else is read. -/

namespace Hayahash.Ports.Java

open Hayahash.Lib.Bytes Hayahash.Lib.Checked Hayahash.Lib.Arrays
open Hayahash.C.Primitives (Word Lanes4 Lanes8)
open Hayahash.C.Walk (Hash128)
open Hayahash.Ports.Walk Hayahash.Ports.Stream Hayahash.Ports.Session

/-! ### Constants and mixers -/

/-- The multipliers. -/
def K : Word := 0x9E3779B97F4A7C15

def M1 : Word := 0x3C79AC492BA7B653

def M2 : Word := 0x1C69B3F74AC4AE35

def N1 : Word := 0xFF51AFD7ED558CCD

def N2 : Word := 0xC4CEB9FE1A85EC53

/-- `BULK_MIN`. -/
def bulkMin : ℤ := 320

/-- `Long.rotateLeft`. The distance of a shift is taken modulo 64. -/
def rotateLeft : Word → ℕ → Word := fun x n => (x <<< n) ||| (x >>> ((64 - n) % 64))

/-- `fmix`. -/
def fmix : Word → Word := finalizer 27 33 27 M1 M2

/-- `fmix128`. -/
def fmix128 : Word → Word := finalizer 30 31 33 N1 N2

/-- The end of `hashLong`. -/
def longAvalanche : Word → Word := avalanche K

/-- `inj`. -/
def inj : Word → Word := injection rotateLeft 21 41

/-- `inj2`. -/
def inj2 : Word → Word := injection rotateLeft 11 50

/-- The initial lanes of `hashLong` and `reset`. -/
def iv : Word → Lanes8 := lanes8 K rotateLeft

/-- What the walk takes of them. -/
def mixers : Mixers where
  k := K
  m1 := M1
  bulkMin := bulkMin
  rotl := rotateLeft
  fmix := fmix
  fmix128 := fmix128
  longAvalanche := longAvalanche
  inj := inj
  inj2 := inj2
  iv := iv

/-- An `int`. -/
def int : Width := ⟨32, Width.ge_32⟩

/-! ### Loads -/

/-- `load64`, of `LONG_LE.get(key, i)`. -/
def load64 (key : View) (i : ℤ) : Chk Word := key.read64 (i - key.off)

/-- `load32`, of `INT_LE.get(key, i)`. -/
def load32 (key : View) (i : ℤ) : Chk Word := do
  return (← key.read32 (i - key.off)).setWidth 64

/-- `Byte.toUnsignedLong(key[i])`. -/
def load8 (key : View) (i : ℤ) : Chk Word := do return (← key.get (i - key.off)).setWidth 64

/-! ### One-shot -/

/-- The loads on the `len` bytes from `off` on. -/
def reader (key : View) (off len : ℤ) : Reader where
  mix := mixers
  ints := int.signed
  load64 := load64 key
  load32 := load32 key
  load8 := load8 key
  fromStart k := int.signed.add off k
  fromEnd k := do int.signed.sub (← int.signed.add off len) k

/-- `hashImpl`. -/
def hashImpl (key : View) (off len : ℤ) (seed : Word) : Chk Word :=
  let R := reader key off len
  Ports.Walk.hashImpl R (tailFromCursor R) off len (seed ^^^ K)

/-- `hash128Impl`. -/
def hash128Impl (key : View) (off len : ℤ) (seed : Word) : Chk Hash128 :=
  let R := reader key off len
  Ports.Walk.hash128Impl R (tailFromCursor R) off len (seed ^^^ K)

/-- `Objects.checkFromIndexSize`. -/
def checkFromIndexSize (offset length total : ℤ) : Chk Unit :=
  if 0 ≤ offset ∧ 0 ≤ length ∧ offset + length ≤ total then pure () else throw .bounds

/-- **`hash64`**. -/
def hash64 (key : List Byte) (seed : Word) : Chk Word := hashImpl (.all key) 0 key.length seed

/-- **`hash128`**. -/
def hash128 (key : List Byte) (seed : Word) : Chk Hash128 :=
  hash128Impl (.all key) 0 key.length seed

/-- **`hash64`** of a range of an array. -/
def hash64Range (key : View) (offset length : ℤ) (seed : Word) : Chk Word := do
  checkFromIndexSize offset length key.data.length
  hashImpl key offset length seed

/-- **`hash128`** of a range of an array. -/
def hash128Range (key : View) (offset length : ℤ) (seed : Word) : Chk Hash128 := do
  checkFromIndexSize offset length key.data.length
  hash128Impl key offset length seed

/-! ### Hasher -/

/-- `Hasher`. -/
abbrev Hasher := State (Lanes8 × Word) Word

/-- `System.arraycopy`. -/
def arraycopy (src : List Byte) (srcPos : ℤ) (dest : List Byte) (destPos length : ℤ) :
    Chk (List Byte) := do
  blit dest destPos (← (View.all src).part srcPos (srcPos + length)).bytes

/-- `blocks`, of `len` bytes of an array from `off` on. -/
def blocks (p : List Byte) (off len : ℤ) (s : Lanes8 × Word) : Chk (Lanes8 × Word) := do
  let fin ← int.signed.add off len
  untilNe int.signed (block (reader (.all p) off len)) 64 fin (len.toNat + 1) off s

/-- What `update` is made of. A range is its array with `p` and `n`. -/
def port : Port (Lanes8 × Word) Word where
  ints := int.signed
  addTotal total n := total + .ofInt 64 n
  fits nbuf n := do return n < (← int.signed.sub bufCap nbuf)
  blocks v len := blocks v.data v.off len
  skip v k := do return ⟨v.data, ← int.signed.add v.off k, ← int.signed.sub v.len k⟩
  copyIn buf nbuf v take := arraycopy v.data v.off buf nbuf take
  moveDown buf consume nbuf := arraycopy buf consume buf 0 nbuf

/-- `update`, and whether it throws. `update(data)` is that of the range from `0` to
`data.length`. -/
def update (st : Hasher) (r : Range) : Chk (Hasher × List Answer) := do
  if ← r.outside int.signed then
    return (st, [.thrown])
  else
    return (← Ports.Stream.update port st ⟨r.data, r.offset, r.length⟩, [])

/-- `reset` with a seed, which leaves the buffer as it is. -/
def reset (st : Hasher) (seed : Word) : Hasher := fresh (iv (seed ^^^ K), 0) 0 seed st.buf

/-- `new Hasher`. -/
def new (seed : Word) : Hasher :=
  reset ⟨(⟨0, 0, 0, 0, 0, 0, 0, 0⟩, 0), 0, 0, 0, false, List.replicate 448 0⟩ seed

/-- What the digests are made of: the range of `buf` from `0` to `(int) total`, and `tail` over
`buf` up to `nbuf`. -/
def tail : Finish (Lanes8 × Word) where
  mix := mixers
  held st := do return ⟨st.buf, 0, castInt st.total⟩
  hash64 v := hash64Range (.all v.data) v.off v.len
  hash128 v := hash128Range (.all v.data) v.off v.len
  rest st := restLanes (reader (.all st.buf) 0 st.nbuf) st.nbuf st.lanes

/-- `digest64`. -/
def digest64 (st : Hasher) : Chk Word := Ports.Stream.digest64 tail st

/-- `digest128`. -/
def digest128 (st : Hasher) : Chk Hash128 := Ports.Stream.digest128 tail st

/-- `Hasher`. A reset is `reset(seed)`, or `reset()`, which keeps the seed. -/
def hasher : Object Range Word (Option Word) Answer Hasher where
  new := new
  update := update
  digest64 st := do return .word (← digest64 st)
  digest128 st := do return .pair (← digest128 st)
  reset st
    | some seed => reset st seed
    | none => reset st st.seed

/-- What the calls mean: a range that is none is rejected. -/
def meaning : Meaning Range Word (Option Word) Answer :=
  { Meaning.plain (fun r s => r.getD s) with bytes := Range.bytes, rejected := [.thrown] }

end Hayahash.Ports.Java
