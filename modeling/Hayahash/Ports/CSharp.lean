import Hayahash.Ports.Session
import Hayahash.Ports.Stream

/-! # The C# port

`Hayahash.cs` and `Hasher.cs`. An `int` has 32 bits. A span is a range of its array, and a slice out
of range throws. -/

namespace Hayahash.Ports.CSharp

open Hayahash.Lib.Bytes Hayahash.Lib.Checked Hayahash.Lib.Arrays
open Hayahash.C.Primitives (Word Lanes4 Lanes8)
open Hayahash.C.Walk (Hash128)
open Hayahash.Ports.Walk Hayahash.Ports.Stream Hayahash.Ports.Session

/-! ### Constants and mixers -/

/-- The multipliers. -/
def K : Word := 0x9E3779B97F4A7C15

def M1 : Word := 0x3C79AC492BA7B653

def M2 : Word := 0x1C69B3F74AC4AE35

def N1 : Word := 0xFF51AFD7ED558CCD

def N2 : Word := 0xC4CEB9FE1A85EC53

/-- `BulkMin`. -/
def bulkMin : ℤ := 320

/-- `BitOperations.RotateLeft`. The distance of a shift is taken modulo 64. -/
def rotateLeft : Word → ℕ → Word := fun x n => (x <<< n) ||| (x >>> ((64 - n) % 64))

/-- `fmix`. -/
def fmix : Word → Word := finalizer 27 33 27 M1 M2

/-- `fmix128`. -/
def fmix128 : Word → Word := finalizer 30 31 33 N1 N2

/-- The end of `HashLong`. -/
def longAvalanche : Word → Word := avalanche K

/-- `inj`. -/
def inj : Word → Word := injection rotateLeft 21 41

/-- `inj2`. -/
def inj2 : Word → Word := injection rotateLeft 11 50

/-- The initial lanes of `HashLong` and `Reset`. -/
def iv : Word → Lanes8 := lanes8 K rotateLeft

/-- What the walk takes of them. -/
def mixers : Mixers where
  k := K
  m1 := M1
  bulkMin := bulkMin
  rotl := rotateLeft
  fmix := fmix
  fmix128 := fmix128
  longAvalanche := longAvalanche
  inj := inj
  inj2 := inj2
  iv := iv

/-- An `int`. -/
def int : Width := ⟨32, Width.ge_32⟩

/-! ### Spans -/

/-- `Load64(key, i)`, of `key.Slice(i)`. -/
def load64 (key : View) (i : ℤ) : Chk Word := do (← key.suffix i).read64 0

/-- `Load32(key.Slice(i))`. -/
def load32 (key : View) (i : ℤ) : Chk Word := do
  return (← (← key.suffix i).read32 0).setWidth 64

/-- `a.AsSpan(start, length)`. -/
def asSpan (a : List Byte) (start length : ℤ) : Chk View := (View.all a).part start (start + length)

/-- `src.CopyTo(dst.AsSpan(start))`, which throws if there is no room. -/
def copyTo (src : View) (dst : List Byte) (start : ℤ) : Chk (List Byte) := do
  let dst' ← (View.all dst).suffix start
  blit dst dst'.off src.bytes

/-! ### One-shot -/

/-- The loads on a span. -/
def reader (key : View) : Reader where
  mix := mixers
  ints := int.signed
  load64 := load64 key
  load32 := load32 key
  load8 i := do return (← key.get i).setWidth 64
  fromStart := pure
  fromEnd := int.signed.sub key.len

/-- **`Hash64`**. -/
def hash64 (key : View) (seed : Word) : Chk Word :=
  hashImpl (reader key) (tailFromCursor (reader key)) 0 key.len (seed ^^^ K)

/-- **`Hash128`**. -/
def hash128 (key : View) (seed : Word) : Chk Hash128 :=
  hash128Impl (reader key) (tailFromCursor (reader key)) 0 key.len (seed ^^^ K)

/-- `Hash64` of a range of an array. -/
def hash64Range (key : List Byte) (offset length : ℤ) (seed : Word) : Chk Word := do
  hash64 (← asSpan key offset length) seed

/-- `Hash128` of a range of an array. -/
def hash128Range (key : List Byte) (offset length : ℤ) (seed : Word) : Chk Hash128 := do
  hash128 (← asSpan key offset length) seed

/-! ### Hasher -/

/-- `Hasher`. -/
abbrev Hasher := State (Lanes8 × Word) Word

/-- `Blocks`, of the first `len` bytes of a span. -/
def blocks (p : View) (len : ℤ) (s : Lanes8 × Word) : Chk (Lanes8 × Word) := do
  let p ← p.part 0 len
  untilLt int.signed (block (reader p)) 64 p.len (p.len.toNat + 1) 0 s

/-- What `Update` is made of. -/
def port : Port (Lanes8 × Word) Word where
  ints := int.signed
  addTotal total n := total + .ofInt 64 n
  fits nbuf n := do return n < (← int.signed.sub bufCap nbuf)
  blocks := blocks
  skip data k := data.suffix k
  copyIn buf nbuf data take := do copyTo (← data.part 0 take) buf nbuf
  moveDown buf consume nbuf := do copyTo (← asSpan buf consume nbuf) buf 0

/-- What `Update` takes: a span, or a range of an array. -/
inductive Input where
  | span (data : List Byte)
  | range (r : Range)

/-- The bytes of what `Update` takes. -/
def Input.bytes : Input → Option (List Byte)
  | .span data => some data
  | .range r => r.bytes

/-- What `Update` can be called with. -/
def Input.IsInt : Input → Prop
  | .span data => data.length ≤ int.maxInt
  | .range r => r.IsInt int

/-- `Update`, of a span. -/
def update (st : Hasher) (data : View) : Chk Hasher := Ports.Stream.update port st data

/-- `Update`, of a range of an array, and whether it throws. -/
def updateRange (st : Hasher) (r : Range) : Chk (Hasher × List Answer) := do
  if ← r.outside int.signed then
    return (st, [.thrown])
  else
    return (← update st (← asSpan r.data r.offset r.length), [])

/-- `Reset` with a seed, which leaves the buffer as it is. -/
def reset (st : Hasher) (seed : Word) : Hasher := fresh (iv (seed ^^^ K), 0) 0 seed st.buf

/-- `new Hasher`. -/
def new (seed : Word) : Hasher :=
  reset ⟨(⟨0, 0, 0, 0, 0, 0, 0, 0⟩, 0), 0, 0, 0, false, List.replicate 448 0⟩ seed

/-- What the digests are made of: `_buf.AsSpan(0, (int)_total)`, and `Tail` over
`_buf.AsSpan(0, _nbuf)`. -/
def tail : Finish (Lanes8 × Word) where
  mix := mixers
  held st := asSpan st.buf 0 (castInt st.total)
  hash64 := hash64
  hash128 := hash128
  rest st := do
    let buf ← asSpan st.buf 0 st.nbuf
    restLanes (reader buf) st.nbuf st.lanes

/-- `Digest64`. -/
def digest64 (st : Hasher) : Chk Word := Ports.Stream.digest64 tail st

/-- `Digest128`. -/
def digest128 (st : Hasher) : Chk Hash128 := Ports.Stream.digest128 tail st

/-- `Hasher`. A reset is `Reset(seed)`, or `Reset()`, which keeps the seed. -/
def hasher : Object Input Word (Option Word) Answer Hasher where
  new := new
  update st
    | .span data => do return (← update st (.all data), [])
    | .range r => updateRange st r
  digest64 st := do return .word (← digest64 st)
  digest128 st := do return .pair (← digest128 st)
  reset st
    | some seed => reset st seed
    | none => reset st st.seed

/-- What the calls mean: a range that is none is rejected. -/
def meaning : Meaning Input Word (Option Word) Answer :=
  { Meaning.plain (fun r s => r.getD s) with bytes := Input.bytes, rejected := [.thrown] }

end Hayahash.Ports.CSharp
