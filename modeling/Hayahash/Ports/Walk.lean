import Hayahash.C.Walk
import Hayahash.Lib.Arrays

/-! # The walk of the ports

The ports of the header to Go, C#, Java, Rust, Swift and Zig walk a key in the compact shape: the
bulk loop from 320 bytes on, the mid loop, the wall, the tail. They repeat it word for word, each
in its own checked integers, through its own loads and with its own constants, mixers and initial
lanes. Here it is once, over a `Reader`; every port is this walk through the reader it has.
Positions are indices as the port has them.

What differs between the ports is a parameter or has a definition of its own: where the words of a
short key are, whether the tail reads back from the length (`tailFromLength`) or from the cursor
(`tailFromCursor`), and whether the lanes are locals or an array in a loop (`blockLoop`). -/

namespace Hayahash.Ports.Walk

open Hayahash.Lib.Bytes Hayahash.Lib.Checked
open Hayahash.C.Primitives (Word Lanes4 Lanes8 K M1 longFmix)
open Hayahash.C.Walk (Hash128 iv8)

/-! ### Mixers

What the ports say in the same words, over the constants and the rotation of each. -/

/-- `x ^= x >> a; x *= m; x ^= x >> b; x *= n; x ^ (x >> c)`. -/
def finalizer (a b c : ℕ) (m n x : Word) : Word :=
  let x := x ^^^ (x >>> a)
  let x := x * m
  let x := x ^^^ (x >>> b)
  let x := x * n
  x ^^^ (x >>> c)

/-- `x ^= x >> 37; x *= k; x ^ (x >> 32)`. -/
def avalanche (k x : Word) : Word :=
  let x := x ^^^ (x >>> 37)
  let x := x * k
  x ^^^ (x >>> 32)

/-- `w ^ rotl(w, a) ^ rotl(w, b)`. -/
def injection (rotl : Word → ℕ → Word) (a b : ℕ) (w : Word) : Word := w ^^^ rotl w a ^^^ rotl w b

/-- The initial values of `h0 .. h7`. -/
def lanes8 (k : Word) (rotl : Word → ℕ → Word) (s : Word) : Lanes8 where
  h0 := s ^^^ k
  h1 := rotl s 17 + (k <<< 21)
  h2 := rotl s 34 ^^^ (k >>> 13)
  h3 := rotl s 51 + (k <<< 42)
  h4 := s + (k >>> 27)
  h5 := rotl s 13 ^^^ (k <<< 9)
  h6 := rotl s 26 + (k >>> 40)
  h7 := rotl s 39 ^^^ (k <<< 30)

/-- `(x << n) | (x >> (64 - n))`, where a shift by 64 leaves nothing. -/
def shiftRotl (x : Word) (n : ℕ) : Word := (x <<< n) ||| (x >>> (64 - n))

/-- The constants of a port, its mixers and its initial lanes. -/
structure Mixers where
  k : Word
  m1 : Word
  bulkMin : ℤ
  rotl : Word → ℕ → Word
  fmix : Word → Word
  fmix128 : Word → Word
  longAvalanche : Word → Word
  inj : Word → Word
  inj2 : Word → Word
  iv : Word → Lanes8

/-- Those of the header. -/
def Mixers.header : Mixers where
  k := K
  m1 := M1
  bulkMin := C.Primitives.bulkMin
  rotl := C.Primitives.rotl
  fmix := C.Primitives.fmix
  fmix128 := C.Primitives.fmix128
  longAvalanche x := longFmix x K
  inj := C.Primitives.inj
  inj2 := C.Primitives.inj2
  iv := iv8

theorem shiftRotl_eq : shiftRotl = C.Primitives.rotl := by
  funext x n
  unfold shiftRotl C.Primitives.rotl
  rcases Nat.eq_zero_or_pos n with rfl | hpos
  · simp [BitVec.ushiftRight_eq_zero (x := x) (le_refl 64)]
  · rw [Nat.mod_eq_of_lt (by omega : 64 - n < 64)]

/-- The lower four lanes. -/
def lower (h : Lanes8) : Lanes4 := ⟨h.h0, h.h1, h.h2, h.h3⟩

section Mixers
variable (X : Mixers)

/-- The length times `k`. -/
def lenmix (len : ℤ) : Word := BitVec.ofInt 64 len * X.k

/-- `h = (h ^ rotl(u, n)) * k` for the four lower lanes. -/
def foldUpper (h : Lanes8) : Lanes4 where
  h0 := (h.h0 ^^^ X.rotl h.h4 11) * X.k
  h1 := (h.h1 ^^^ X.rotl h.h5 19) * X.k
  h2 := (h.h2 ^^^ X.rotl h.h6 31) * X.k
  h3 := (h.h3 ^^^ X.rotl h.h7 47) * X.k

/-- `h0 += rotl(wp, 27)`. -/
def wall (s : Lanes4 × Word) : Lanes4 := { s.1 with h0 := s.1.h0 + X.rotl s.2 27 }

/-- `t0 = (h0 ^ rotl(h1, 13) ^ lenmix) * k`. -/
def foldT0 (h : Lanes4) (lenmix : Word) : Word := (h.h0 ^^^ X.rotl h.h1 13 ^^^ lenmix) * X.k

/-- `t1 = (h2 ^ rotl(h3, 33)) * k`. -/
def foldT1 (h : Lanes4) : Word := (h.h2 ^^^ X.rotl h.h3 33) * X.k

/-- The low word of the folds. -/
def foldLow (s : Word) (h : Lanes4) (lenmix : Word) : Word :=
  X.longAvalanche (s ^^^ foldT0 X h lenmix ^^^ X.rotl (foldT1 X h) 29)

/-- The high word of the folds. -/
def foldHigh (s : Word) (h : Lanes4) (lenmix : Word) : Word :=
  X.fmix128 (X.rotl s 32 ^^^ (foldT1 X h + X.rotl (foldT0 X h lenmix) 47))

end Mixers

/-- The loads of a port on the key it walks, its index arithmetic and its mixers. -/
structure Reader where
  mix : Mixers
  ints : Ints
  load64 : ℤ → Chk Word
  load32 : ℤ → Chk Word
  load8 : ℤ → Chk Word
  /-- The index of the byte `k` of the key. -/
  fromStart : ℤ → Chk ℤ
  /-- The index of the byte `k` before the end of the key. -/
  fromEnd : ℤ → Chk ℤ

variable (R : Reader)

/-! ### Stripes -/

/-- `w = load64(i); h' = (h ^ (w + rotl(wp, 27))) * k`, and the stripe. -/
def stripe (h wp : Word) (i : ℤ) : Chk (Word × Word) := do
  let w ← R.load64 i
  return ((h ^^^ (w + R.mix.rotl wp 27)) * R.mix.k, w)

/-- Eight stripes from `p` on, and the checkpoint. -/
def block (p : ℤ) (s : Lanes8 × Word) : Chk (Lanes8 × Word) := do
  let (h, wp) := s
  let (h0, wp) ← stripe R h.h0 wp p
  let (h1, wp) ← stripe R h.h1 wp (← R.ints.add p 8)
  let (h2, wp) ← stripe R h.h2 wp (← R.ints.add p 16)
  let (h3, wp) ← stripe R h.h3 wp (← R.ints.add p 24)
  let (h4, wp) ← stripe R h.h4 wp (← R.ints.add p 32)
  let (h5, wp) ← stripe R h.h5 wp (← R.ints.add p 40)
  let (h6, wp) ← stripe R h.h6 wp (← R.ints.add p 48)
  let (h7, wp) ← stripe R h.h7 wp (← R.ints.add p 56)
  let h0 := h0 + wp
  return (⟨h0, h1, h2, h3, h4, h5, h6, h7⟩, wp)

/-- Four stripes from `p` on. -/
def round (p : ℤ) (s : Lanes4 × Word) : Chk (Lanes4 × Word) := do
  let (h, wp) := s
  let (h0, wp) ← stripe R h.h0 wp p
  let (h1, wp) ← stripe R h.h1 wp (← R.ints.add p 8)
  let (h2, wp) ← stripe R h.h2 wp (← R.ints.add p 16)
  let (h3, wp) ← stripe R h.h3 wp (← R.ints.add p 24)
  return (⟨h0, h1, h2, h3⟩, wp)

/-- `inj(load64(i))`. -/
def injAt (i : ℤ) : Chk Word := do return R.mix.inj (← R.load64 i)

/-- `h = (h + injAt(i)) * k`. -/
def absorbInj (h : Word) (i : ℤ) : Chk Word := do
  return (h + (← injAt R i)) * R.mix.k

/-! ### Tail -/

/-- `if (l > 16) { h0 .. injAt(p); h1 .. injAt(p + 8); l -= 16; }` and
`if (l > 0) { h2 .. injAt(n - 16); h3 .. injAt(n - 8); }`. -/
def tailFromLength (p l : ℤ) (h : Lanes4) : Chk Lanes4 := do
  let (h, l) ← if l > 16 then do
      let h0 ← absorbInj R h.h0 p
      let h1 ← absorbInj R h.h1 (← R.ints.add p 8)
      pure ({ h with h0 := h0, h1 := h1 }, ← R.ints.sub l 16)
    else pure (h, l)
  if l > 0 then
    let h2 ← absorbInj R h.h2 (← R.fromEnd 16)
    let h3 ← absorbInj R h.h3 (← R.fromEnd 8)
    return { h with h2 := h2, h3 := h3 }
  else
    return h

/-- The same with `p += 16; l -= 16;` and `injAt(p + l - 16)`, `injAt(p + l - 8)`. -/
def tailFromCursor (p l : ℤ) (h : Lanes4) : Chk Lanes4 := do
  let (h, p, l) ← if l > 16 then do
      let h0 ← absorbInj R h.h0 p
      let h1 ← absorbInj R h.h1 (← R.ints.add p 8)
      pure ({ h with h0 := h0, h1 := h1 }, ← R.ints.add p 16, ← R.ints.sub l 16)
    else pure (h, p, l)
  if l > 0 then
    let h2 ← absorbInj R h.h2 (← R.ints.sub (← R.ints.add p l) 16)
    let h3 ← absorbInj R h.h3 (← R.ints.sub (← R.ints.add p l) 8)
    return { h with h2 := h2, h3 := h3 }
  else
    return h

/-! ### A key of at most 16 bytes -/

/-- The two words of the key. -/
def shortWords (first len : ℤ) : Chk (Word × Word) := do
  if len ≥ 8 then
    return (← R.load64 first, ← R.load64 (← R.fromEnd 8))
  else if len ≥ 4 then
    return (← R.load32 first, ← R.load32 (← R.fromEnd 4))
  else if len > 0 then
    let a ← R.load8 first
    let b ← R.load8 (← R.fromStart (len / 2))
    let c ← R.load8 (← R.fromEnd 1)
    return (a, (b <<< 8) ||| (c <<< 16))
  else
    return (0, 0)

/-- The products `x` and `y`. -/
def shortProducts (first len : ℤ) (s : Word) : Chk (Word × Word) := do
  let (a, b) ← shortWords R first len
  let x := (R.mix.inj a ^^^ s ^^^ R.mix.k) * R.mix.k
  let y := (R.mix.inj2 b ^^^ R.mix.rotl s 23 ^^^ (R.mix.k >>> 19)) * R.mix.m1
  return (x, y)

/-- The 64-bit hash of a short key. -/
def hashShort (first len : ℤ) (s : Word) : Chk Word := do
  let (x, y) ← shortProducts R first len s
  return R.mix.fmix (R.mix.rotl x 27 ^^^ y ^^^ lenmix R.mix len)

/-- The 128-bit hash of a short key. -/
def hash128Short (first len : ℤ) (s : Word) : Chk Hash128 := do
  let (x, y) ← shortProducts R first len s
  let u := R.mix.rotl x 27 ^^^ y ^^^ lenmix R.mix len
  return ⟨R.mix.fmix u, R.mix.fmix128 (x + R.mix.rotl u 32)⟩

/-! ### A longer key -/

/-- The lanes where the folds begin, for the `l` bytes from `p` on. -/
def longLanes (tail : ℤ → ℤ → Lanes4 → Chk Lanes4) (p l : ℤ) (s : Word) : Chk Lanes4 := do
  let fuel := l.toNat + 1
  let (h, p, l) ← if l ≥ R.mix.bulkMin then do
      let ((h, wp), p, l) ← doWhileGe R.ints (block R) 64 fuel p l (R.mix.iv s, 0)
      pure ((foldUpper R.mix h, wp), p, l)
    else pure ((lower (R.mix.iv s), 0), p, l)
  let (h, p, l) ← whileGe R.ints (round R) 32 fuel p l h
  tail p l (wall R.mix h)

/-- The 64-bit hash of a long key. -/
def hashLong (tail : ℤ → ℤ → Lanes4 → Chk Lanes4) (p l : ℤ) (s : Word) : Chk Word := do
  return foldLow R.mix s (← longLanes R tail p l s) (lenmix R.mix l)

/-- The 128-bit hash of a long key. -/
def hash128Long (tail : ℤ → ℤ → Lanes4 → Chk Lanes4) (p l : ℤ) (s : Word) : Chk Hash128 := do
  let h ← longLanes R tail p l s
  return ⟨foldLow R.mix s h (lenmix R.mix l), foldHigh R.mix s h (lenmix R.mix l)⟩

/-- The 64-bit hash of the `len` bytes from `first` on. -/
def hashImpl (tail : ℤ → ℤ → Lanes4 → Chk Lanes4) (first len : ℤ) (s : Word) : Chk Word :=
  if len ≤ 16 then hashShort R first len s else hashLong R tail first len s

/-- The 128-bit hash of the `len` bytes from `first` on. -/
def hash128Impl (tail : ℤ → ℤ → Lanes4 → Chk Lanes4) (first len : ℤ) (s : Word) : Chk Hash128 :=
  if len ≤ 16 then hash128Short R first len s else hash128Long R tail first len s

/-! ### What is buffered -/

/-- The tail of a buffer of `n` bytes, `l` of them left: `injAt(p)` and `injAt(p + 8)` for more than
16, and `injAt(n - 16)` and `injAt(n - 8)`. -/
def restTail (n p l : ℤ) (h : Lanes4) : Chk Lanes4 := do
  let h ← if l > 16 then do
      let h0 ← absorbInj R h.h0 p
      let h1 ← absorbInj R h.h1 (← R.ints.add p 8)
      pure { h with h0 := h0, h1 := h1 }
    else pure h
  if l > 0 then
    let h2 ← absorbInj R h.h2 (← R.ints.sub n 16)
    let h3 ← absorbInj R h.h3 (← R.ints.sub n 8)
    return { h with h2 := h2, h3 := h3 }
  else
    return h

/-- What follows the whole blocks of the buffer: the folds of the upper lanes, one round at most,
the wall and the tail. `I` counts what is left. -/
def restRound (I : Ints) (n p l : ℤ) (s : Lanes8 × Word) : Chk Lanes4 := do
  let (h, wp) := s
  let (h, p, l) ← if l ≥ 32 then do
      let h ← round R p (foldUpper R.mix h, wp)
      pure (h, ← R.ints.add p 32, ← I.sub l 32)
    else pure ((foldUpper R.mix h, wp), p, l)
  restTail R n p l (wall R.mix h)

/-- The lanes where the folds begin, for a walk that ends with the `n` bytes of a buffer. -/
def restLanes (n : ℤ) (s : Lanes8 × Word) : Chk Lanes4 := do
  let (s, p, l) ← whileGe R.ints (block R) 64 (n.toNat + 1) 0 n s
  restRound R R.ints n p l s

/-! ### Lanes in an array -/

/-- The array of the eight lanes. -/
def lanesArray (h : Lanes8) : Vector Word 8 := #v[h.h0, h.h1, h.h2, h.h3, h.h4, h.h5, h.h6, h.h7]

/-- The lower four lanes of the array. -/
def lowerLanes (h : Vector Word 8) : Lanes4 := ⟨h[0], h[1], h[2], h[3]⟩

/-- `h[lane] = (h[lane] ^ (w + rotl(wp, 27))) * k` with `w = load64(off + lane * 8)`. -/
def laneStep (off : ℤ) (s : Vector Word 8 × Word) (lane : Fin 8) : Chk (Vector Word 8 × Word) := do
  let (x, wp) ← stripe R s.1[lane] s.2 (← R.ints.add off (lane * 8))
  return (s.1.set lane x, wp)

/-- A block as a loop over the lanes, and the checkpoint. -/
def blockLoop (off : ℤ) (s : Vector Word 8 × Word) : Chk (Vector Word 8 × Word) := do
  let (h, wp) ← [0, 1, 2, 3, 4, 5, 6, 7].foldlM (laneStep R off) s
  return (h.set 0 (h[0] + wp), wp)

/-- A round as a loop over the first four lanes. -/
def roundLoop (off : ℤ) (s : Vector Word 8 × Word) : Chk (Vector Word 8 × Word) :=
  [0, 1, 2, 3].foldlM (laneStep R off) s

/-- `h[i] = (h[i] ^ rotl(h[i + 4], r)) * k` for the four lower lanes. -/
def foldArray (X : Mixers) (h : Vector Word 8) : Vector Word 8 :=
  let h := h.set 0 ((h[0] ^^^ X.rotl h[4] 11) * X.k)
  let h := h.set 1 ((h[1] ^^^ X.rotl h[5] 19) * X.k)
  let h := h.set 2 ((h[2] ^^^ X.rotl h[6] 31) * X.k)
  h.set 3 ((h[3] ^^^ X.rotl h[7] 47) * X.k)

/-- The same as `restTail`, with the lanes in an array. -/
def restTailLoop (n p l : ℤ) (h : Vector Word 8) : Chk (Vector Word 8) := do
  let h ← if l > 16 then do
      let h := h.set 0 (← absorbInj R h[0] p)
      pure (h.set 1 (← absorbInj R h[1] (← R.ints.add p 8)))
    else pure h
  if l > 0 then
    let h := h.set 2 (← absorbInj R h[2] (← R.ints.sub n 16))
    return h.set 3 (← absorbInj R h[3] (← R.ints.sub n 8))
  else
    return h

/-- The same as `restLanes`, with the lanes in an array. -/
def restLanesLoop (n : ℤ) (s : Vector Word 8 × Word) : Chk Lanes4 := do
  let ((h, wp), p, l) ← whileGe R.ints (blockLoop R) 64 (n.toNat + 1) 0 n s
  let h := foldArray R.mix h
  let ((h, wp), p, l) ← if l ≥ 32 then do
      let s ← roundLoop R p (h, wp)
      pure (s, ← R.ints.add p 32, ← R.ints.sub l 32)
    else pure ((h, wp), p, l)
  return lowerLanes (← restTailLoop R n p l (h.set 0 (h[0] + R.mix.rotl wp 27)))

end Hayahash.Ports.Walk
