import Hayahash.C.Primitives

/-! # The pieces of the state walk of `hayahash.h`

The stretches of code that `hayahash64`, `hayahash128`, their outlined long paths and the streaming
digests are put together from: the initial lanes, the bulk block in its two spellings, the loops,
the mid round, the straight-line tiers, the wall, the tail and the folds. The header repeats most of
them word for word; each is one definition here, and says where it stands.

Pointers are offsets from the start of the key, so a load before the key has a negative offset.
The loops that stop on `p != pe` do not stop if they miss `pe`; they take the number of iterations
they may do, and are stuck after it. -/

namespace Hayahash.C.Walk

open Hayahash.Lib.ReadProg Hayahash.C.Primitives

variable (t : Target)

/-! ### Absorbing -/

/-- `h = (h ^ (w + rotl(wp, 27))) * K`. -/
def absorb (h : Word) (w : Loaded) (wp : Word) : Code Word := do
  Prog.observe (.absorb w.src (w.val + rotl wp 27))
  return (h ^^^ (w.val + rotl wp 27)) * K

/-- `h = (h ^ w) * K`, the first absorb of a tier. -/
def absorbFirst (h : Word) (w : Loaded) : Code Word := do
  Prog.observe (.absorb w.src w.val)
  return (h ^^^ w.val) * K

/-- `h = (h + injp(p)) * K`. -/
def absorbInjp (h : Word) (p : ℤ) : Code Word := do
  let x ← injp t p
  Prog.observe (.absorb x.src x.val)
  return (h + x.val) * K

/-! ### Initial lanes -/

/-- The initial values of `h0 .. h3`. -/
def iv4 (s : Word) : Lanes4 where
  h0 := s ^^^ K
  h1 := rotl s 17 + (K <<< 21)
  h2 := rotl s 34 ^^^ (K >>> 13)
  h3 := rotl s 51 + (K <<< 42)

/-- The initial values of `h0 .. h7`. -/
def iv8 (s : Word) : Lanes8 where
  h0 := s ^^^ K
  h1 := rotl s 17 + (K <<< 21)
  h2 := rotl s 34 ^^^ (K >>> 13)
  h3 := rotl s 51 + (K <<< 42)
  h4 := s + (K >>> 27)
  h5 := rotl s 13 ^^^ (K <<< 9)
  h6 := rotl s 26 + (K >>> 40)
  h7 := rotl s 39 ^^^ (K <<< 30)

/-! ### The bulk block -/

/-- `HAYAHASH64_INTERNAL_BULK_BLOCK(q)`, the plain spelling. The state is the lanes and `wp`. -/
def bulkBlock (q : ℤ) (s : Lanes8 × Word) : Code (Lanes8 × Word) := do
  let (h, wp) := s
  let w ← load64le t (q + 0)
  let h0 ← absorb h.h0 w wp
  let wp := w.val
  let w ← load64le t (q + 8)
  let h1 ← absorb h.h1 w wp
  let wp := w.val
  let w ← load64le t (q + 16)
  let h2 ← absorb h.h2 w wp
  let wp := w.val
  let w ← load64le t (q + 24)
  let h3 ← absorb h.h3 w wp
  let wp := w.val
  let w ← load64le t (q + 32)
  let h4 ← absorb h.h4 w wp
  let wp := w.val
  let w ← load64le t (q + 40)
  let h5 ← absorb h.h5 w wp
  let wp := w.val
  let w ← load64le t (q + 48)
  let h6 ← absorb h.h6 w wp
  let wp := w.val
  let w ← load64le t (q + 56)
  let h7 ← absorb h.h7 w wp
  let wp := w.val
  let h0 := h0 + wp
  return (⟨h0, h1, h2, h3, h4, h5, h6, h7⟩, wp)

/-- The locals of the `VECGCC` spelling: the middle four lanes are the array `hv`. -/
structure VecLanes where
  h0 : Word
  h1 : Word
  hv : Vector Word 4
  h6 : Word
  h7 : Word

/-- `uint64_t hv[4] = { h2, h3, h4, h5 };` -/
def VecLanes.ofLanes (h : Lanes8) : VecLanes := ⟨h.h0, h.h1, #v[h.h2, h.h3, h.h4, h.h5], h.h6, h.h7⟩

/-- `h2 = hv[0]; h3 = hv[1]; h4 = hv[2]; h5 = hv[3];` -/
def VecLanes.toLanes (v : VecLanes) : Lanes8 :=
  ⟨v.h0, v.h1, v.hv[0], v.hv[1], v.hv[2], v.hv[3], v.h6, v.h7⟩

/-- The body of the loop over `hv`. -/
def hvStep (q : ℤ) (hv : Vector Word 4) (i : Fin 4) : Code (Vector Word 4) := do
  let w ← load64le t (q + 16 + 8 * i)
  let r ← load64le t (q + 8 + 8 * i)
  let x ← absorb hv[i] w r.val
  return hv.set i x

/-- `HAYAHASH64_INTERNAL_BULK_BLOCK(q)`, the `VECGCC` spelling. -/
def bulkBlockVec (q : ℤ) (s : VecLanes × Word) : Code (VecLanes × Word) := do
  let (v, wp) := s
  let w ← load64le t (q + 0)
  let h0 ← absorb v.h0 w wp
  let w1 ← load64le t (q + 8)
  let h1 ← absorb v.h1 w1 w.val
  let hv ← ([0, 1, 2, 3] : List (Fin 4)).foldlM (hvStep t q) v.hv
  let w6 ← load64le t (q + 48)
  let r6 ← load64le t (q + 40)
  let h6 ← absorb v.h6 w6 r6.val
  let w7 ← load64le t (q + 56)
  let r7 ← load64le t (q + 48)
  let h7 ← absorb v.h7 w7 r7.val
  let wp ← load64le t (q + 56)
  let h0 := h0 + wp.val
  return (⟨h0, h1, hv, h6, h7⟩, wp.val)

/-! ### The bulk loops

`σ` is the state of the block: lanes in either spelling, and `wp`. -/

section Loops
variable {σ : Type} (block : ℤ → σ → Code σ)

/-- `do { BLOCK(p); BLOCK(p + 64); p += 128; } while (p != pe);` -/
def twoBlockLoop (pe : ℤ) : ℕ → ℤ → σ → Code (σ × ℤ)
  | 0, _, _ => .stuck
  | fuel + 1, p, s => do
    let s ← block p s
    let s ← block (p + 64) s
    let p := p + 128
    if p ≠ pe then twoBlockLoop pe fuel p s else return (s, p)

/-- The end-pointer loop and the block left over. -/
def twoBlockBulk (p l : ℤ) (s : σ) : Code (σ × ℤ × ℤ) := do
  let pe := p + (l - l % 128)
  let fuel := l.toNat
  let l := l % 128
  let (s, p) ← twoBlockLoop block pe fuel p s
  if l ≥ 64 then
    let s ← block p s
    return (s, p + 64, l - 64)
  else
    return (s, p, l)

/-- `do { BLOCK(p); p += 64; l -= 64; } while (l >= 64);` -/
def oneBlockBulk (p l : ℤ) (s : σ) : Code (σ × ℤ × ℤ) := do
  let s ← block p s
  let p := p + 64
  let l := l - 64
  if l ≥ 64 then oneBlockBulk p l s else return (s, p, l)
termination_by l.toNat

/-- `while (p != pe) { BLOCK(p); p += 64; }` -/
def untilEnd (pe : ℤ) : ℕ → ℤ → σ → Code σ
  | 0, p, s => if p ≠ pe then .stuck else return s
  | fuel + 1, p, s => do
    if p ≠ pe then
      let s ← block p s
      untilEnd pe fuel (p + 64) s
    else
      return s

/-- `while (l >= 64) { BLOCK(p); p += 64; l -= 64; }` -/
def whileBlocks (p l : ℤ) (s : σ) : Code (σ × ℤ × ℤ) := do
  if l ≥ 64 then
    let s ← block p s
    whileBlocks (p + 64) (l - 64) s
  else
    return (s, p, l)
termination_by l.toNat

end Loops

/-- The bulk loop of the outlined long paths, from the initial lanes to `h0 .. h7` and `wp`. -/
def outlinedBulk (p l : ℤ) (s : Lanes8 × Word) : Code ((Lanes8 × Word) × ℤ × ℤ) := do
  if t.twoBlock then
    if t.vecgcc then
      let (v, p, l) ← twoBlockBulk (bulkBlockVec t) p l (VecLanes.ofLanes s.1, s.2)
      return ((v.1.toLanes, v.2), p, l)
    else
      twoBlockBulk (bulkBlock t) p l s
  else
    oneBlockBulk (bulkBlock t) p l s

/-- The fold of the upper lanes after every bulk loop. -/
def foldUpper (h : Lanes8) : Lanes4 where
  h0 := (h.h0 ^^^ rotlProduct h.h4 11) * K
  h1 := (h.h1 ^^^ rotlProduct h.h5 19) * K
  h2 := (h.h2 ^^^ rotlProduct h.h6 31) * K
  h3 := (h.h3 ^^^ rotlProduct h.h7 47) * K

/-! ### Mid rounds -/

/-- Four stripes from `p` on, as in the mid loops and after every bulk loop. -/
def midRound (p : ℤ) (s : Lanes4 × Word) : Code (Lanes4 × Word) := do
  let (h, wp) := s
  let w ← load64le t (p + 0)
  let h0 ← absorb h.h0 w wp
  let wp := w.val
  let w ← load64le t (p + 8)
  let h1 ← absorb h.h1 w wp
  let wp := w.val
  let w ← load64le t (p + 16)
  let h2 ← absorb h.h2 w wp
  let wp := w.val
  let w ← load64le t (p + 24)
  let h3 ← absorb h.h3 w wp
  let wp := w.val
  return (⟨h0, h1, h2, h3⟩, wp)

/-- `if (l >= 32) { ... p += 32; l -= 32; }` -/
def midIf (p l : ℤ) (s : Lanes4 × Word) : Code ((Lanes4 × Word) × ℤ × ℤ) := do
  if l ≥ 32 then
    let s ← midRound t p s
    return (s, p + 32, l - 32)
  else
    return (s, p, l)

/-- The compact mid loop, `for (; l >= 32; l -= 32, p += 32)`. -/
def midLoop (p l : ℤ) (s : Lanes4 × Word) : Code ((Lanes4 × Word) × ℤ × ℤ) := do
  if l ≥ 32 then
    let s ← midRound t p s
    midLoop (p + 32) (l - 32) s
  else
    return (s, p, l)
termination_by l.toNat

/-- The mid loop under `TIERS`, two rounds an iteration, `for (; l >= 64; l -= 64, p += 64)`. The
offsets of the second round are `p + 32 .. p + 56`. -/
def midLoop64 (p l : ℤ) (s : Lanes4 × Word) : Code ((Lanes4 × Word) × ℤ × ℤ) := do
  if l ≥ 64 then
    let s ← midRound t p s
    let s ← midRound t (p + 32) s
    midLoop64 (p + 64) (l - 64) s
  else
    return (s, p, l)
termination_by l.toNat

/-! ### Wall, tail and folds -/

/-- `h0 += rotl(wp, 27)`. The wall reads nothing new. -/
def wall (h : Lanes4) (wp : Word) : Code Lanes4 := do
  Prog.observe (.absorb [] (rotl wp 27))
  return { h with h0 := h.h0 + rotl wp 27 }

/-- `if (l > 16) { h0 .. injp(p + 0); h1 .. injp(p + 8) }` and
`if (l > 0) { h2 .. injp(p + l - 16); h3 .. injp(p + l - 8) }`. -/
def tail (p l : ℤ) (h : Lanes4) : Code Lanes4 := do
  let h ← if l > 16 then do
      let h0 ← absorbInjp t h.h0 (p + 0)
      let h1 ← absorbInjp t h.h1 (p + 8)
      pure { h with h0 := h0, h1 := h1 }
    else pure h
  if l > 0 then
    let h2 ← absorbInjp t h.h2 (p + l - 16)
    let h3 ← absorbInjp t h.h3 (p + l - 8)
    return { h with h2 := h2, h3 := h3 }
  else
    return h

/-- `t0 = (h0 ^ rotl(h1, 13) ^ lenmix) * K`. -/
def foldT0 (h : Lanes4) (lenmix : Word) : Word := (h.h0 ^^^ rotl h.h1 13 ^^^ lenmix) * K

/-- `t1 = (h2 ^ rotl(h3, 33)) * K`. -/
def foldT1 (h : Lanes4) : Word := (h.h2 ^^^ rotl h.h3 33) * K

/-- `hayahash128_t`. -/
@[ext] structure Hash128 where
  lo : Word
  hi : Word
deriving DecidableEq, Repr

/-- `hayahash128_internal_short`. -/
def short128 (x y lenmix : Word) : Hash128 :=
  let u := rotlProduct x 27 ^^^ y ^^^ lenmix
  { lo := fmix u, hi := fmix128 (x + rotl u 32) }

/-- `hayahash128_internal_longmix`. -/
def longmix128 (s t0 t1 k : Word) : Hash128 where
  lo := longFmix (s ^^^ t0 ^^^ rotlProduct t1 29) k
  hi := fmix128 (rotl s 32 ^^^ (t1 + rotl t0 47))

/-- The folds and the finalizer of every long path of `hayahash64`. -/
def finish64 (s lenmix : Word) (h : Lanes4) : Code Word := do
  Prog.observe (.fold h)
  let t0 := foldT0 h lenmix
  let t1 := foldT1 h
  let x := s ^^^ t0 ^^^ rotlProduct t1 29
  return longFmix x K

/-- The folds and the finalizer of every long path of `hayahash128`. -/
def finish128 (s lenmix : Word) (h : Lanes4) : Code Hash128 := do
  Prog.observe (.fold h)
  let t0 := foldT0 h lenmix
  let t1 := foldT1 h
  return longmix128 s t0 t1 K

/-! ### The straight-line tiers

Each tier loads the four words of a round before it absorbs them, with every offset written out.
The tiers of `hayahash64` and `hayahash128` agree word for word up to the finalizer. -/

/-- The first round of a tier: `wp = 0` is folded in. Returns the lanes and the last word. -/
def tierFirst (o0 o1 o2 o3 : ℤ) (h : Lanes4) : Code (Lanes4 × Word) := do
  let w0 ← load64le t o0
  let w1 ← load64le t o1
  let w2 ← load64le t o2
  let w3 ← load64le t o3
  let h0 ← absorbFirst h.h0 w0
  let h1 ← absorb h.h1 w1 w0.val
  let h2 ← absorb h.h2 w2 w1.val
  let h3 ← absorb h.h3 w3 w2.val
  return (⟨h0, h1, h2, h3⟩, w3.val)

/-- A further round of a tier, after the round whose last word is `wp`. -/
def tierRound (o0 o1 o2 o3 : ℤ) (s : Lanes4 × Word) : Code (Lanes4 × Word) := do
  let (h, wp) := s
  let w0 ← load64le t o0
  let w1 ← load64le t o1
  let w2 ← load64le t o2
  let w3 ← load64le t o3
  let h0 ← absorb h.h0 w0 wp
  let h1 ← absorb h.h1 w1 w0.val
  let h2 ← absorb h.h2 w2 w1.val
  let h3 ← absorb h.h3 w3 w2.val
  return (⟨h0, h1, h2, h3⟩, w3.val)

/-- The end of a tier: the wall, `if (l > hi) { injp(p + o0), injp(p + o1) }` and
`if (l > lo) { injp(p + l - 16), injp(p + l - 8) }`, on the length of the whole key. -/
def tierEnd (l hi lo o0 o1 : ℤ) (s : Lanes4 × Word) : Code Lanes4 := do
  let h ← wall s.1 s.2
  let h ← if l > hi then do
      let h0 ← absorbInjp t h.h0 o0
      let h1 ← absorbInjp t h.h1 o1
      pure { h with h0 := h0, h1 := h1 }
    else pure h
  if l > lo then
    let h2 ← absorbInjp t h.h2 (l - 16)
    let h3 ← absorbInjp t h.h3 (l - 8)
    return { h with h2 := h2, h3 := h3 }
  else
    return h

/-- `if (l < 32)`: no stripe, and no wall. -/
def tier32 (l : ℤ) (h : Lanes4) : Code Lanes4 := do
  -- the wall of `wp = 0` adds nothing: the code leaves it out, the observation keeps it
  Prog.observe (.absorb [] 0)
  let h0 ← absorbInjp t h.h0 0
  let h1 ← absorbInjp t h.h1 8
  let h2 ← absorbInjp t h.h2 (l - 16)
  let h3 ← absorbInjp t h.h3 (l - 8)
  return ⟨h0, h1, h2, h3⟩

/-- `if (l < 64)`. -/
def tier64 (l : ℤ) (h : Lanes4) : Code Lanes4 := do
  let s ← tierFirst t 0 8 16 24 h
  tierEnd t l 48 32 32 40 s

/-- `if (l < 128)`. -/
def tier128 (l : ℤ) (h : Lanes4) : Code Lanes4 := do
  let s ← tierFirst t 0 8 16 24 h
  let s ← tierRound t 32 40 48 56 s
  if l ≥ 96 then
    let s ← tierRound t 64 72 80 88 s
    tierEnd t l 112 96 96 104 s
  else
    tierEnd t l 80 64 64 72 s

/-- `if (l < 192)`. -/
def tier192 (l : ℤ) (h : Lanes4) : Code Lanes4 := do
  let s ← tierFirst t 0 8 16 24 h
  let s ← tierRound t 32 40 48 56 s
  let s ← tierRound t 64 72 80 88 s
  let s ← tierRound t 96 104 112 120 s
  if l ≥ 160 then
    let s ← tierRound t 128 136 144 152 s
    tierEnd t l 176 160 160 168 s
  else
    tierEnd t l 144 128 128 136 s

/-- `if (l < 256)`. -/
def tier256 (l : ℤ) (h : Lanes4) : Code Lanes4 := do
  let s ← tierFirst t 0 8 16 24 h
  let s ← tierRound t 32 40 48 56 s
  let s ← tierRound t 64 72 80 88 s
  let s ← tierRound t 96 104 112 120 s
  let s ← tierRound t 128 136 144 152 s
  let s ← tierRound t 160 168 176 184 s
  if l ≥ 224 then
    let s ← tierRound t 192 200 208 216 s
    tierEnd t l 240 224 224 232 s
  else
    tierEnd t l 208 192 192 200 s

end Hayahash.C.Walk
