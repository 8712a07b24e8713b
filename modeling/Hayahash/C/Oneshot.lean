import Hayahash.C.Walk

/-! # `hayahash64` and `hayahash128`

The one-shot functions and their outlined long paths, with the control flow of the header: which of
the pieces of `Walk` a key of a given length takes on a given platform. The two widths are two hand
copies there and are two definitions here. -/

namespace Hayahash.C.Oneshot

open Hayahash.Lib.ReadProg Hayahash.C.Primitives Hayahash.C.Walk

variable (t : Target)

/-- `(uint64_t)len * K`. -/
def lenmix (len : ℤ) : Word := BitVec.ofInt 64 len * K

/-! ### The short path -/

/-- The two words of a key of at most 16 bytes. -/
def shortWords (l : ℤ) : Code (Loaded × Loaded) := do
  if l ≥ 8 then
    let a ← load64le t 0
    let b ← load64le t (l - 8)
    return (a, b)
  else if l ≥ 4 then
    let a ← load32le t 0
    let b ← load32le t (l - 4)
    return (a, b)
  else if l > 0 then
    let a ← load8 0
    let b ← load8 (l / 2)
    let c ← load8 (l - 1)
    return (a, ⟨b.src ++ c.src, (b.val <<< 8) ||| (c.val <<< 16)⟩)
  else
    return (⟨[], 0⟩, ⟨[], 0⟩)

/-- The two products `x` and `y` of the short path. -/
def shortProducts (s : Word) (l : ℤ) : Code (Word × Word) := do
  let (a, b) ← shortWords t l
  Prog.observe (.absorb a.src (inj a.val))
  Prog.observe (.absorb b.src (inj2 b.val))
  let x := (inj a.val ^^^ s ^^^ K) * K
  let y := (inj2 b.val ^^^ rotl s 23 ^^^ (K >>> 19)) * M1
  return (x, y)

/-! ### 64 bits -/

/-- `hayahash64_internal_long`, called with `len ≥ bulkMin`. -/
def long64 (len : ℤ) (seed : Word) : Code Word := do
  let s := seed ^^^ K
  let ((h, wp), p, l) ← outlinedBulk t 0 len (iv8 s, 0)
  Prog.observe (.bulkExit h)
  let ((h, wp), p, l) ← midIf t p l (foldUpper h, wp)
  let h ← wall h wp
  let h ← tail t p l h
  finish64 s (lenmix len) h

/-- The wasm fall-through: the bulk loop and its fold inline, for keys that reach it. -/
def inlineBulkWasm (len : ℤ) (s : Word) : Code ((Lanes4 × Word) × ℤ × ℤ) := do
  if t.isWasm ∧ len ≥ bulkMin then
    let ((h, wp), p, l) ← oneBlockBulk (bulkBlock t) 0 len (iv8 s, 0)
    Prog.observe (.bulkExit h)
    return ((foldUpper h, wp), p, l)
  else
    return ((iv4 s, 0), 0, len)

/-- **`hayahash64`.** -/
def hayahash64 (len : ℤ) (seed : Word) : Code Word := do
  let s := seed ^^^ K
  if len ≤ 16 then
    let (x, y) ← shortProducts t s len
    return fmix (rotlProduct x 27 ^^^ y ^^^ lenmix len)
  else if t.isWasm = false ∧ len ≥ bulkMin then
    long64 t len seed
  else
    let ((h, wp), p, l) ← inlineBulkWasm t len s
    if t.tiers ∧ l < 32 then
      finish64 s (lenmix len) (← tier32 t l h)
    else if t.tiers ∧ l < 64 then
      finish64 s (lenmix len) (← tier64 t l h)
    else if t.tiers ∧ l < 128 then
      finish64 s (lenmix len) (← tier128 t l h)
    else if t.tiers ∧ l < 192 then
      finish64 s (lenmix len) (← tier192 t l h)
    else if t.tiers ∧ l < 256 then
      finish64 s (lenmix len) (← tier256 t l h)
    else
      let ((h, wp), p, l) ← if t.tiers then do
          let (s, p, l) ← midLoop64 t p l (h, wp)
          midIf t p l s
        else midLoop t p l (h, wp)
      let h ← wall h wp
      let h ← tail t p l h
      finish64 s (lenmix len) h

/-! ### 128 bits -/

/-- `hayahash128_internal_long`, called with `len ≥ bulkMin`. -/
def long128 (len : ℤ) (seed : Word) : Code Hash128 := do
  let s := seed ^^^ K
  let ((h, wp), p, l) ← outlinedBulk t 0 len (iv8 s, 0)
  Prog.observe (.bulkExit h)
  let ((h, wp), p, l) ← midIf t p l (foldUpper h, wp)
  let h ← wall h wp
  let h ← tail t p l h
  finish128 s (lenmix len) h

/-- The part of `hayahash128` between the initial lanes and the wall, where the bulk loop is inline
(clang and wasm). -/
def inlineWalk128 (len : ℤ) (s : Word) : Code ((Lanes4 × Word) × ℤ × ℤ) := do
  if len ≥ bulkMin then
    let ((h, wp), p, l) ←
      if t.inlineBulk ∧ t.twoBlock then
        twoBlockBulk (bulkBlock t) 0 len (iv8 s, 0)
      else
        oneBlockBulk (bulkBlock t) 0 len (iv8 s, 0)
    Prog.observe (.bulkExit h)
    midIf t p l (foldUpper h, wp)
  else
    midLoop t 0 len (iv4 s, 0)

/-- **`hayahash128`.** -/
def hayahash128 (len : ℤ) (seed : Word) : Code Hash128 := do
  let s := seed ^^^ K
  if len ≤ 16 then
    let (x, y) ← shortProducts t s len
    return short128 x y (lenmix len)
  else if (t.inlineBulk = false ∧ t.isWasm = false) ∧ len ≥ bulkMin then
    long128 t len seed
  else if t.inlineBulk ∨ t.isWasm then
    let ((h, wp), p, l) ← inlineWalk128 t len s
    let h ← wall h wp
    let h ← tail t p l h
    finish128 s (lenmix len) h
  else if t.tiers ∧ len < 32 then
    finish128 s (lenmix len) (← tier32 t len (iv4 s))
  else if t.tiers ∧ len < 64 then
    finish128 s (lenmix len) (← tier64 t len (iv4 s))
  else if t.tiers ∧ len < 128 then
    finish128 s (lenmix len) (← tier128 t len (iv4 s))
  else if t.tiers ∧ len < 192 then
    finish128 s (lenmix len) (← tier192 t len (iv4 s))
  else if t.tiers ∧ len < 256 then
    finish128 s (lenmix len) (← tier256 t len (iv4 s))
  else
    let ((h, wp), p, l) ← if t.tiers then do
        let (s, p, l) ← midLoop64 t 0 len (iv4 s, 0)
        midIf t p l s
      else midLoop t 0 len (iv4 s, 0)
    let h ← wall h wp
    let h ← tail t p l h
    finish128 s (lenmix len) h

end Hayahash.C.Oneshot
