import Hayahash.Refine.Oneshot

/-! # All shapes of the one-shot functions compute the same

The header compiles to a different shape on every platform, and the two widths are two hand copies.
Whatever the platform, **`hayahash64_every_shape`**: `hayahash64` is the compact algorithm; and
**`hayahash128_every_shape`**: `hayahash128` is one pair, whose low word is that of every shape of
`hayahash64`. -/

namespace Hayahash.Main.Shapes

open Hayahash.Lib.ReadProg Hayahash.Lib.Bytes Hayahash.C.Primitives Hayahash.C.Walk
open Hayahash.C.Oneshot Hayahash.Spec.Reference Hayahash.Refine.Oneshot

/-- **Every shape of `hayahash64`** returns the value of the compact algorithm, for the `n` bytes at
the start of any memory. -/
theorem hayahash64_every_shape (t : Target) (m : Mem Byte) (n : ℕ) (seed : Word) :
    value m (hayahash64 t n seed) = some (compact64 m n seed) :=
  (runs_hayahash64 t m n seed).value_eq

/-- The high word: `fmix128(x + rotl(u, 32))` on the short path, `fmix128(rotl(s, 32) ^ (t1 +
rotl(t0, 47)))` after the walk of a longer key. -/
def highWord (m : Mem Byte) (n : ℕ) (seed : Word) : Word :=
  let s := seed ^^^ K
  if n ≤ 16 then
    let x := shortX (shortA m n) s
    let u := shortU x (shortY (shortB m n) s) n
    fmix128 (x + rotl u 32)
  else
    let h := foldLanes m n s
    let t0 := foldT0 h (lenmix n)
    let t1 := foldT1 h
    fmix128 (rotl s 32 ^^^ (t1 + rotl t0 47))

/-- **Every shape of `hayahash128`** returns the same pair: the low word is what every shape of
`hayahash64` returns, the high word is `highWord`. -/
theorem hayahash128_every_shape (m : Mem Byte) (n : ℕ) (seed : Word) :
    ∃ lo, (∀ t, value m (hayahash128 t n seed) = some ⟨lo, highWord m n seed⟩) ∧
      ∀ t, value m (hayahash64 t n seed) = some lo :=
  ⟨compact64 m n seed, fun t => (runs_hayahash128 t m n seed).value_eq,
    fun t => (runs_hayahash64 t m n seed).value_eq⟩

end Hayahash.Main.Shapes
