import Hayahash.Lib.Bigint
import Hayahash.Ports.Session
import Hayahash.Ports.Stream

/-! # The pure JavaScript engine

`pure.ts`, `PureHasher` in `stream.ts` and the wrappers in `index.ts`. Words are BigInts, without
bounds, and a value that is xored, rotated or shifted to the right outside of `[0, 2 ^ 64)` is a
fault. Lengths and indices are Numbers, which are exact. A `Uint8Array` is a view; reading outside
of it and a `set` for which there is no room throw. -/

namespace Hayahash.Ports.Js

open Hayahash.Lib.Bytes Hayahash.Lib.Checked Hayahash.Lib.Arrays Hayahash.Lib.Bigint
open Hayahash.C.Primitives (Word bulkMin)
open Hayahash.C.Walk (Hash128)
open Hayahash.Ports.Stream Hayahash.Ports.Session

/-! ### Constants and mixers -/

def K : ℤ := 0x9e3779b97f4a7c15
def M1 : ℤ := 0x3c79ac492ba7b653
def M2 : ℤ := 0x1c69b3f74ac4ae35
def N1 : ℤ := 0xff51afd7ed558ccd
def N2 : ℤ := 0xc4ceb9fe1a85ec53

/-- `K << n`, masked. -/
def kShl (n : ℕ) : ℤ := mask (K * 2 ^ n)

/-- `K >> n`. -/
def kShr (n : ℕ) : ℤ := K / 2 ^ n

/-- `rotl`. -/
def rotl (x : ℤ) (n : ℕ) : Chk ℤ := do bor (mask (x * 2 ^ n)) (← shr x (64 - n))

/-- `x ^ (x >> n)`. -/
def xorshift (x : ℤ) (n : ℕ) : Chk ℤ := do bxor x (← shr x n)

/-- `fmix`. -/
def fmix (x : ℤ) : Chk ℤ := do
  let x ← xorshift x 27
  let x := mask (x * M1)
  let x ← xorshift x 33
  let x := mask (x * M2)
  xorshift x 27

/-- `fmix128`. -/
def fmix128 (x : ℤ) : Chk ℤ := do
  let x ← xorshift x 30
  let x := mask (x * N1)
  let x ← xorshift x 31
  let x := mask (x * N2)
  xorshift x 33

/-- `fmixLong`. -/
def fmixLong (x : ℤ) : Chk ℤ := do
  let x ← xorshift x 37
  let x := mask (x * K)
  xorshift x 32

/-- `inj`. -/
def inj (w : ℤ) : Chk ℤ := do bxor (← bxor w (← rotl w 21)) (← rotl w 41)

/-- `inj2`. -/
def inj2 (w : ℤ) : Chk ℤ := do bxor (← bxor w (← rotl w 11)) (← rotl w 50)

/-! ### Loads and stripes -/

/-- `load64`, of `view.getBigUint64(i, true)`. -/
def load64 (view : View) (i : ℤ) : Chk ℤ := do return val (← view.read64 i)

/-- `load32`, of `BigInt(view.getUint32(i, true))`. -/
def load32 (view : View) (i : ℤ) : Chk ℤ := do return val ((← view.read32 i).setWidth 64)

/-- `BigInt(data[i])`. -/
def load8 (data : View) (i : ℤ) : Chk ℤ := do return val ((← data.get i).setWidth 64)

/-- `injp`. -/
def injp (view : View) (i : ℤ) : Chk ℤ := do inj (← load64 view i)

/-- The locals `h0 .. h3`. -/
structure Big4 where
  h0 : ℤ
  h1 : ℤ
  h2 : ℤ
  h3 : ℤ

/-- The locals `h0 .. h7`. -/
structure Big8 where
  h0 : ℤ
  h1 : ℤ
  h2 : ℤ
  h3 : ℤ
  h4 : ℤ
  h5 : ℤ
  h6 : ℤ
  h7 : ℤ
deriving DecidableEq

/-- `w = load64(i); h = ((h ^ ((w + rotl(wp, 27n)) & MASK64)) * K) & MASK64; wp = w`. -/
def stripe (view : View) (h wp : ℤ) (i : ℤ) : Chk (ℤ × ℤ) := do
  let w ← load64 view i
  let t ← bxor h (mask (w + (← rotl wp 27)))
  return (mask (t * K), w)

/-- Eight stripes from `p` on, and the checkpoint. -/
def block (view : View) (p : ℤ) (s : Big8 × ℤ) : Chk (Big8 × ℤ) := do
  let (h, wp) := s
  let (h0, wp) ← stripe view h.h0 wp p
  let (h1, wp) ← stripe view h.h1 wp (p + 8)
  let (h2, wp) ← stripe view h.h2 wp (p + 16)
  let (h3, wp) ← stripe view h.h3 wp (p + 24)
  let (h4, wp) ← stripe view h.h4 wp (p + 32)
  let (h5, wp) ← stripe view h.h5 wp (p + 40)
  let (h6, wp) ← stripe view h.h6 wp (p + 48)
  let (h7, wp) ← stripe view h.h7 wp (p + 56)
  let h0 := mask (h0 + wp)
  return (⟨h0, h1, h2, h3, h4, h5, h6, h7⟩, wp)

/-- Four stripes from `p` on. -/
def round (view : View) (p : ℤ) (s : Big4 × ℤ) : Chk (Big4 × ℤ) := do
  let (h, wp) := s
  let (h0, wp) ← stripe view h.h0 wp p
  let (h1, wp) ← stripe view h.h1 wp (p + 8)
  let (h2, wp) ← stripe view h.h2 wp (p + 16)
  let (h3, wp) ← stripe view h.h3 wp (p + 24)
  return (⟨h0, h1, h2, h3⟩, wp)

/-- `h = ((h + injp(i)) * K) & MASK64`. -/
def absorbInj (view : View) (h : ℤ) (i : ℤ) : Chk ℤ := do return mask ((h + (← injp view i)) * K)

/-- The lanes `h0 .. h3` of a seed. -/
def iv4 (s : ℤ) : Chk Big4 := do
  let h0 ← bxor s K
  let h1 := mask ((← rotl s 17) + kShl 21)
  let h2 ← bxor (← rotl s 34) (kShr 13)
  let h3 := mask ((← rotl s 51) + kShl 42)
  return ⟨h0, h1, h2, h3⟩

/-- The lanes `h0 .. h7` of a seed. -/
def iv8 (s : ℤ) : Chk Big8 := do
  let h ← iv4 s
  let h4 := mask (s + kShr 27)
  let h5 ← bxor (← rotl s 13) (kShl 9)
  let h6 := mask ((← rotl s 26) + kShr 40)
  let h7 ← bxor (← rotl s 39) (kShl 30)
  return ⟨h.h0, h.h1, h.h2, h.h3, h4, h5, h6, h7⟩

/-- `h = ((h ^ rotl(u, n)) * K) & MASK64`. -/
def foldLane (h u : ℤ) (n : ℕ) : Chk ℤ := do return mask ((← bxor h (← rotl u n)) * K)

/-- The upper lanes folded into the lower ones. -/
def foldUpper (h : Big8) : Chk Big4 := do
  let h0 ← foldLane h.h0 h.h4 11
  let h1 ← foldLane h.h1 h.h5 19
  let h2 ← foldLane h.h2 h.h6 31
  let h3 ← foldLane h.h3 h.h7 47
  return ⟨h0, h1, h2, h3⟩

/-- `h0 = (h0 + rotl(wp, 27n)) & MASK64`. -/
def wall (s : Big4 × ℤ) : Chk Big4 := do
  return { s.1 with h0 := mask (s.1.h0 + (← rotl s.2 27)) }

/-- What is left of a key: `p` is moved on, and the last words are those at `p + l - 16`. -/
def tail (view : View) (p l : ℤ) (h : Big4) : Chk Big4 := do
  let (h, p, l) ← if l > 16 then do
      let h0 ← absorbInj view h.h0 p
      let h1 ← absorbInj view h.h1 (p + 8)
      pure ({ h with h0 := h0, h1 := h1 }, p + 16, l - 16)
    else pure (h, p, l)
  if l > 0 then
    let h2 ← absorbInj view h.h2 (p + l - 16)
    let h3 ← absorbInj view h.h3 (p + l - 8)
    return { h with h2 := h2, h3 := h3 }
  else
    return h

/-- What is left of a buffer of `n` bytes. -/
def restTail (view : View) (n p l : ℤ) (h : Big4) : Chk Big4 := do
  let h ← if l > 16 then do
      let h0 ← absorbInj view h.h0 p
      let h1 ← absorbInj view h.h1 (p + 8)
      pure { h with h0 := h0, h1 := h1 }
    else pure h
  if l > 0 then
    let h2 ← absorbInj view h.h2 (n - 16)
    let h3 ← absorbInj view h.h3 (n - 8)
    return { h with h2 := h2, h3 := h3 }
  else
    return h

/-! ### Folds -/

/-- `t0` and `t1`. -/
def terms (h : Big4) (lenmix : ℤ) : Chk (ℤ × ℤ) := do
  let t0 ← bxor (← bxor h.h0 (← rotl h.h1 13)) lenmix
  let t1 ← bxor h.h2 (← rotl h.h3 33)
  return (mask (t0 * K), mask (t1 * K))

/-- `fmixLong(s ^ t0 ^ rotl(t1, 29n))`. -/
def low (s : ℤ) (t : ℤ × ℤ) : Chk ℤ := do fmixLong (← bxor (← bxor s t.1) (← rotl t.2 29))

/-- `fmix128(rotl(s, 32n) ^ ((t1 + rotl(t0, 47n)) & MASK64))`. -/
def high (s : ℤ) (t : ℤ × ℤ) : Chk ℤ := do
  fmix128 (← bxor (← rotl s 32) (mask (t.2 + (← rotl t.1 47))))

/-! ### One-shot -/

/-- `Hash128`. -/
structure Big128 where
  lo : ℤ
  hi : ℤ
deriving DecidableEq

/-- The words of a key of at most 16 bytes. -/
def shortWords (data : View) (l : ℤ) : Chk (ℤ × ℤ) := do
  if l ≥ 8 then
    return (← load64 data 0, ← load64 data (l - 8))
  else if l ≥ 4 then
    return (← load32 data 0, ← load32 data (l - 4))
  else if l > 0 then
    let a ← load8 data 0
    let b ← load8 data (l / 2)
    let c ← load8 data (l - 1)
    return (a, ← bor (b * 2 ^ 8) (c * 2 ^ 16))
  else
    return (0, 0)

/-- `hashPureImpl`, of at most 16 bytes. -/
def hashShort (data : View) (s lenmix : ℤ) (wide : Bool) : Chk Big128 := do
  let (a, b) ← shortWords data data.len
  let x := mask ((← bxor (← bxor (← inj a) s) K) * K)
  let y := mask ((← bxor (← bxor (← inj2 b) (← rotl s 23)) (kShr 19)) * M1)
  let u ← bxor (← bxor (← rotl x 27) y) lenmix
  let lo ← fmix u
  let hi ← if wide then do fmix128 (mask (x + (← rotl u 32))) else pure 0
  return ⟨lo, hi⟩

/-- The lanes where the folds begin. -/
def longLanes (data : View) (s : ℤ) : Chk Big4 := do
  let l := data.len
  let fuel := l.toNat + 1
  let h ← iv4 s
  let (h, p, l) ← if l ≥ bulkMin then do
      let ((h, wp), p, l) ← doWhileGe .exact (block data) 64 fuel 0 l (← iv8 s, 0)
      pure ((← foldUpper h, wp), p, l)
    else pure ((h, 0), 0, l)
  let (h, p, l) ← whileGe .exact (round data) 32 fuel p l h
  tail data p l (← wall h)

/-- `hashPureImpl`, of more than 16 bytes. -/
def hashLong (data : View) (s lenmix : ℤ) (wide : Bool) : Chk Big128 := do
  let t ← terms (← longLanes data s) lenmix
  let lo ← low s t
  let hi ← if wide then high s t else pure 0
  return ⟨lo, hi⟩

/-- `hashPureImpl`. -/
def hashPureImpl (data : View) (seed : ℤ) (wide : Bool) : Chk Big128 := do
  let lenmix := mask (data.len * K)
  let s ← bxor seed K
  if data.len ≤ 16 then hashShort data s lenmix wide else hashLong data s lenmix wide

/-- `hashPure`. -/
def hashPure (data : View) (seed : ℤ) : Chk ℤ := do return (← hashPureImpl data seed false).lo

/-- `hash128Pure`. -/
def hash128Pure (data : View) (seed : ℤ) : Chk Big128 := hashPureImpl data seed true

/-- **`hayahash64Pure`**, of an array and a seed of any size. -/
def hayahash64Pure (input : View) (seed : ℤ) : Chk ℤ := hashPure input (mask seed)

/-- **`hayahash128Pure`**. -/
def hayahash128Pure (input : View) (seed : ℤ) : Chk Big128 := hash128Pure input (mask seed)

/-! ### Uint8Array -/

/-- An index as the methods take it: counted from the end if it is negative, and clamped. -/
def clampIndex (i len : ℤ) : ℤ := if i < 0 then max (len + i) 0 else min i len

/-- `v.subarray(begin, end)`. -/
def subarray (v : View) (first last : ℤ) : View :=
  let first := clampIndex first v.len
  let last := clampIndex last v.len
  ⟨v.data, v.off + first, max (last - first) 0⟩

/-- `a.copyWithin(target, start, end)`. -/
def copyWithin (a : List Byte) (target first last : ℤ) : List Byte :=
  let target := clampIndex target a.length
  let first := clampIndex first a.length
  let last := clampIndex last a.length
  let count := min (last - first) (a.length - target)
  if count > 0 then spliced a target.toNat ((a.drop first.toNat).take count.toNat) else a

/-! ### PureHasher -/

/-- `PureHasher`. The lanes are the elements of a `BigUint64Array`, which the code only sets to
words. -/
abbrev PureHasher := State (Big8 × ℤ) ℤ

namespace PureHasher

/-- `#init`, with the seed set. -/
def init (seed : ℤ) (buf : List Byte) : Chk PureHasher := do
  let s ← bxor seed K
  return fresh (← iv8 s, 0) 0 seed buf

/-- The constructor. -/
def new (seed : ℤ) : Chk PureHasher := init (mask seed) (List.replicate 448 0)

/-- `reset`. -/
def reset (h : PureHasher) (seed : Option ℤ) : Chk PureHasher :=
  match seed with
  | some seed => init (mask seed) h.buf
  | none => init h.seed h.buf

/-- `#blocks(view, 0, len)`. -/
def blocks (view : View) (len : ℤ) (s : Big8 × ℤ) : Chk (Big8 × ℤ) :=
  untilLt .exact (block view) 64 (0 + len) (len.toNat + 1) 0 s

/-- What `update` is made of. -/
def port : Port (Big8 × ℤ) ℤ where
  ints := .exact
  addTotal total n := mask (total + n)
  fits nbuf n := return nbuf + n < bufCap
  blocks := blocks
  skip p k := return subarray p k p.len
  copyIn buf nbuf p take := blit buf nbuf (subarray p 0 take).bytes
  moveDown buf consume nbuf := return copyWithin buf 0 consume (consume + nbuf)

/-- `update`. -/
def update (h : PureHasher) (data : View) : Chk PureHasher := Ports.Stream.update port h data

/-- `#buf.subarray(0, Number(#total))`. -/
def held (h : PureHasher) : View := subarray (.all h.buf) 0 h.total

/-- The lanes where the folds of `#tail` begin. -/
def rest (h : PureHasher) : Chk Big4 := do
  let view := View.all h.buf
  let ((u, wp), p, l) ← whileGe .exact (block view) 64 (h.nbuf.toNat + 1) 0 h.nbuf h.lanes
  let u ← foldUpper u
  let (u, p, l) ← if l ≥ 32 then do
      let u ← round view p (u, wp)
      pure (u, p + 32, l - 32)
    else pure ((u, wp), p, l)
  restTail view h.nbuf p l (← wall u)

/-- `#tail`, which returns `t0` and `t1`, and `s`. -/
def tail (h : PureHasher) : Chk ((ℤ × ℤ) × ℤ) := do
  let lenmix := mask (h.total * K)
  let s ← bxor h.seed K
  return (← terms (← rest h) lenmix, s)

/-- **`digest64`**. -/
def digest64 (h : PureHasher) : Chk ℤ := do
  if h.bulk = false then
    hashPure (held h) h.seed
  else
    let (t, s) ← tail h
    low s t

/-- **`digest128`**. -/
def digest128 (h : PureHasher) : Chk Big128 := do
  if h.bulk = false then
    hash128Pure (held h) h.seed
  else
    let (t, s) ← tail h
    return ⟨← low s t, ← high s t⟩

/-- What a call returns. -/
inductive BigAnswer where
  | word (x : ℤ)
  | pair (x : Big128)
deriving DecidableEq

/-- `PureHasher`. A fault of the constructor or of a reset is the state from then on. -/
def hasher : Object View ℤ (Option ℤ) BigAnswer (Chk PureHasher) where
  new := new
  update h data := do
    let h ← update (← h) data
    return (pure h, [])
  digest64 h := do return .word (← digest64 (← h))
  digest128 h := do return .pair (← digest128 (← h))
  reset h seed := do reset (← h) seed

/-- What the types mean. -/
def meaning : Meaning View ℤ (Option ℤ) BigAnswer where
  seed := .ofInt 64
  bytes v := some v.bytes
  reseed r seed := (r.map (.ofInt 64)).getD seed
  word x := .word (val x)
  pair x := .pair ⟨val x.lo, val x.hi⟩
  rejected := []

end PureHasher

end Hayahash.Ports.Js
