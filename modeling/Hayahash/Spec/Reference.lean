import Hayahash.C.Oneshot
import Hayahash.Lib.Walk

/-! # The algorithm

What the header computes, without its control flow: the compact algorithm as functions of the memory
`m` the key lies in, its length `n` and the seed. A key of at most 16 bytes is two words and two
products. A longer one is a sequence of stripes: below 320 bytes in rounds of four, from 320 bytes
on in blocks of eight, a fold, and at most one round of four; then the wall, the tail of what is
left of 32 bytes, and the folds.

`compact64` and `compact128` are the values, `trace` is what a run is observed to do and `spans` are
the ranges it loads. The lanes and the stripes are the ones the code has (`Lanes4`, `Lanes8`). -/

namespace Hayahash.Spec.Reference

open Hayahash.Lib.ReadProg Hayahash.Lib.Bytes Hayahash.Lib.Walk Hayahash.C.Primitives
open Hayahash.C.Walk Hayahash.C.Oneshot

variable (m : Mem Byte)

/-! ### Stripes -/

/-- The value absorbed for the stripe `w` after the stripe `wp`. -/
def chain (w wp : Word) : Word := w + rotl wp 27

/-- A stripe value enters a lane. -/
def mix (h x : Word) : Word := (h ^^^ x) * K

/-- A tail word enters a lane. -/
def mixTail (h w : Word) : Word := (h + inj w) * K

/-- Eight stripes from `q` on, and the checkpoint. -/
def blockStep (q : ℤ) (s : Lanes8 × Word) : Lanes8 × Word :=
  (⟨mix s.1.h0 (chain (word64 m q) s.2) + word64 m (q + 56),
    mix s.1.h1 (chain (word64 m (q + 8)) (word64 m q)),
    mix s.1.h2 (chain (word64 m (q + 16)) (word64 m (q + 8))),
    mix s.1.h3 (chain (word64 m (q + 24)) (word64 m (q + 16))),
    mix s.1.h4 (chain (word64 m (q + 32)) (word64 m (q + 24))),
    mix s.1.h5 (chain (word64 m (q + 40)) (word64 m (q + 32))),
    mix s.1.h6 (chain (word64 m (q + 48)) (word64 m (q + 40))),
    mix s.1.h7 (chain (word64 m (q + 56)) (word64 m (q + 48)))⟩, word64 m (q + 56))

/-- `k` blocks from `q` on. -/
def blocks (k : ℕ) (q : ℤ) (s : Lanes8 × Word) : Lanes8 × Word := walk (blockStep m) 64 k q s

/-- Four stripes from `p` on. -/
def roundStep (p : ℤ) (s : Lanes4 × Word) : Lanes4 × Word :=
  (⟨mix s.1.h0 (chain (word64 m p) s.2),
    mix s.1.h1 (chain (word64 m (p + 8)) (word64 m p)),
    mix s.1.h2 (chain (word64 m (p + 16)) (word64 m (p + 8))),
    mix s.1.h3 (chain (word64 m (p + 24)) (word64 m (p + 16)))⟩, word64 m (p + 24))

/-- `k` rounds from `p` on. -/
def rounds (k : ℕ) (p : ℤ) (s : Lanes4 × Word) : Lanes4 × Word := walk (roundStep m) 32 k p s

/-- What `k` stripes from `p` on absorb, after the stripe `wp`. -/
def stripeEvents : ℕ → ℤ → Word → List Event
  | 0, _, _ => []
  | k + 1, p, wp =>
    .absorb [⟨p, 8⟩] (chain (word64 m p) wp) :: stripeEvents k (p + 8) (word64 m p)

/-- The ranges of `k` stripes from `p` on. -/
def stripeSpans : ℕ → ℤ → List Span
  | 0, _ => []
  | k + 1, p => ⟨p, 8⟩ :: stripeSpans k (p + 8)

/-! ### Wall and tail -/

/-- The wall: the rotated copy of the last stripe. -/
def wallStep (s : Lanes4 × Word) : Lanes4 := { s.1 with h0 := s.1.h0 + rotl s.2 27 }

/-- The next 16 bytes, when more than 16 of `l` are left. -/
def headStep (p l : ℤ) (h : Lanes4) : Lanes4 :=
  if l > 16 then
    { h with h0 := mixTail h.h0 (word64 m p), h1 := mixTail h.h1 (word64 m (p + 8)) }
  else h

/-- The last 16 bytes, when any of `l` are left. -/
def lastStep (p l : ℤ) (h : Lanes4) : Lanes4 :=
  if l > 0 then
    { h with h2 := mixTail h.h2 (word64 m (p + l - 16)), h3 := mixTail h.h3 (word64 m (p + l - 8)) }
  else h

/-- The tail. -/
def tailStep (p l : ℤ) (h : Lanes4) : Lanes4 := lastStep m p l (headStep m p l h)

/-- The event of a tail word. -/
def tailEvent (p : ℤ) : Event := .absorb [⟨p, 8⟩] (inj (word64 m p))

/-- What the tail absorbs. -/
def tailEvents (p l : ℤ) : List Event :=
  (if l > 16 then [tailEvent m p, tailEvent m (p + 8)] else []) ++
    if l > 0 then [tailEvent m (p + l - 16), tailEvent m (p + l - 8)] else []

/-- The ranges of the tail. -/
def tailSpans (p l : ℤ) : List Span :=
  (if l > 16 then [⟨p, 8⟩, ⟨p + 8, 8⟩] else []) ++
    if l > 0 then [⟨p + l - 16, 8⟩, ⟨p + l - 8, 8⟩] else []

/-! ### The short path -/

/-- The first word of a short key. -/
def shortA (n : ℕ) : Word :=
  if 8 ≤ n then word64 m 0
  else if 4 ≤ n then (word32 m 0).setWidth 64
  else if 0 < n then (m 0).setWidth 64
  else 0

/-- The second word of a short key. -/
def shortB (n : ℕ) : Word :=
  if 8 ≤ n then word64 m (n - 8)
  else if 4 ≤ n then (word32 m (n - 4)).setWidth 64
  else if 0 < n then ((m (n / 2)).setWidth 64 <<< 8) ||| ((m (n - 1)).setWidth 64 <<< 16)
  else 0

/-- The ranges of the first word. -/
def shortSpansA (n : ℕ) : List Span :=
  if 8 ≤ n then [⟨0, 8⟩] else if 4 ≤ n then [⟨0, 4⟩] else if 0 < n then [⟨0, 1⟩] else []

/-- The ranges of the second word. -/
def shortSpansB (n : ℕ) : List Span :=
  if 8 ≤ n then [⟨n - 8, 8⟩] else if 4 ≤ n then [⟨n - 4, 4⟩]
  else if 0 < n then [⟨n / 2, 1⟩, ⟨n - 1, 1⟩] else []

/-- The product of the first word. -/
def shortX (a s : Word) : Word := (inj a ^^^ s ^^^ K) * K

/-- The product of the second word. -/
def shortY (b s : Word) : Word := (inj2 b ^^^ rotl s 23 ^^^ (K >>> 19)) * M1

/-- The input of the finalizer of the short path. -/
def shortU (x y : Word) (n : ℕ) : Word := rotl x 27 ^^^ y ^^^ lenmix n

/-! ### The walk of a long key -/

/-- The lanes and the last stripe where the bulk loop is left. -/
def bulkState (n : ℕ) (s : Word) : Lanes8 × Word := blocks m (n / 64) 0 (iv8 s, 0)

/-- The lanes and the last stripe before the wall. -/
def walkState (n : ℕ) (s : Word) : Lanes4 × Word :=
  if n < 320 then rounds m (n / 32) 0 (iv4 s, 0)
  else
    let b := bulkState m n s
    rounds m (n % 64 / 32) (64 * (n / 64) : ℕ) (foldUpper b.1, b.2)

/-- The lanes where the folds begin. -/
def foldLanes (n : ℕ) (s : Word) : Lanes4 :=
  tailStep m (32 * (n / 32) : ℕ) (n % 32 : ℕ) (wallStep (walkState m n s))

/-! ### Values and traces -/

/-- The 64-bit value of the folds. -/
def long64 (s : Word) (h : Lanes4) (n : ℕ) : Word :=
  longFmix (s ^^^ foldT0 h (lenmix n) ^^^ rotl (foldT1 h) 29) K

/-- The high word of the folds. -/
def longHi (s : Word) (h : Lanes4) (n : ℕ) : Word :=
  fmix128 (rotl s 32 ^^^ (foldT1 h + rotl (foldT0 h (lenmix n)) 47))

/-- **The 64-bit hash.** -/
def compact64 (n : ℕ) (seed : Word) : Word :=
  let s := seed ^^^ K
  if n ≤ 16 then fmix (shortU (shortX (shortA m n) s) (shortY (shortB m n) s) n)
  else long64 s (foldLanes m n s) n

/-- The high word of the 128-bit hash. -/
def compactHi (n : ℕ) (seed : Word) : Word :=
  let s := seed ^^^ K
  if n ≤ 16 then
    let x := shortX (shortA m n) s
    fmix128 (x + rotl (shortU x (shortY (shortB m n) s) n) 32)
  else longHi s (foldLanes m n s) n

/-- **The 128-bit hash.** -/
def compact128 (n : ℕ) (seed : Word) : Hash128 := ⟨compact64 m n seed, compactHi m n seed⟩

/-- What is absorbed on the short path. -/
def shortTrace (n : ℕ) : List Event :=
  [.absorb (shortSpansA n) (inj (shortA m n)), .absorb (shortSpansB n) (inj2 (shortB m n))]

/-- What is absorbed, and the lanes seen, up to the wall. -/
def walkTrace (n : ℕ) (s : Word) : List Event :=
  if n < 320 then stripeEvents m (4 * (n / 32)) 0 0
  else
    let b := bulkState m n s
    stripeEvents m (8 * (n / 64)) 0 0 ++ .bulkExit b.1 ::
      stripeEvents m (4 * (n % 64 / 32)) (64 * (n / 64) : ℕ) b.2

/-- **What a run is observed to do.** -/
def trace (n : ℕ) (seed : Word) : List Event :=
  let s := seed ^^^ K
  if n ≤ 16 then shortTrace m n
  else walkTrace m n s ++ .absorb [] (rotl (walkState m n s).2 27) ::
    (tailEvents m (32 * (n / 32) : ℕ) (n % 32 : ℕ) ++ [.fold (foldLanes m n s)])

/-- **The ranges a run loads.** -/
def spans (n : ℕ) : List Span :=
  if n ≤ 16 then shortSpansA n ++ shortSpansB n
  else stripeSpans (4 * (n / 32)) 0 ++ tailSpans (32 * (n / 32) : ℕ) (n % 32 : ℕ)

end Hayahash.Spec.Reference
