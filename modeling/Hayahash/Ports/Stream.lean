import Hayahash.C.Stream
import Hayahash.Ports.Walk

/-! # The streaming states of the ports

The ports repeat `hayahash64_update`: the undecided branch, then a loop of a direct part, a refill
and a drain. Here it is once, over a `Port`, which is what the languages do differently: their
integers and their tests, how a range of the caller's bytes is walked, copied and moved past, and
how the end of the buffer moves to its front. A range is a `View` in all of them, be it a slice, a
span or an array with an offset and a length.

The lanes and the words are of any type: some ports keep the lanes in an array, and one has integers
without a width for words. -/

namespace Hayahash.Ports.Stream

open Hayahash.Lib.Bytes Hayahash.Lib.Checked Hayahash.Lib.Arrays
open Hayahash.C.Primitives (Word Lanes4)
open Hayahash.C.Walk (Hash128)
open Hayahash.Ports.Walk

/-- The capacity of the buffer. -/
def bufCap : ℤ := 448

/-- What a drain leaves in the buffer. -/
def keep : ℤ := 128

/-- `n & ~63`. -/
def wholeBlocks (n : ℤ) : ℤ := n - n % 64

/-- `(int) x`, of 32 bits. -/
def castInt (x : Word) : ℤ := (x.setWidth 32).toInt

/-- The streaming state of a port. -/
structure State (σ τ : Type) where
  lanes : σ
  seed : τ
  total : τ
  nbuf : ℤ
  bulk : Bool
  buf : List Byte
deriving DecidableEq

/-- What a port does in its own way. -/
structure Port (σ τ : Type) where
  ints : Ints
  /-- `total += n`. -/
  addTotal : τ → ℤ → τ
  /-- Whether a chunk of `n` bytes stays in the buffer, of which `nbuf` are in use. -/
  fits : (nbuf n : ℤ) → Chk Bool
  /-- The lanes after the first `len` bytes of a range. -/
  blocks : View → (len : ℤ) → σ → Chk σ
  /-- What is left of a range after `k` bytes. -/
  skip : View → (k : ℤ) → Chk View
  /-- The buffer after the first `len` bytes of a range were copied to `at`. -/
  copyIn : (buf : List Byte) → (at' : ℤ) → View → (len : ℤ) → Chk (List Byte)
  /-- The buffer after `len` bytes moved from `src` to the front. -/
  moveDown : (buf : List Byte) → (src len : ℤ) → Chk (List Byte)

variable {σ τ : Type} (P : Port σ τ)

/-- `if (nbuf == KEEP && n > BUF_CAP)`: the buffer and whole blocks of the chunk into the lanes. -/
def direct (st : State σ τ) (v : View) : Chk (State σ τ × View) := do
  if st.nbuf = keep ∧ v.len > bufCap then
    let direct := wholeBlocks (← P.ints.sub v.len keep)
    let h ← P.blocks (.all st.buf) keep st.lanes
    let h ← P.blocks v direct h
    let v ← P.skip v direct
    return ({ st with lanes := h, nbuf := 0 }, v)
  else
    return (st, v)

/-- As much of the chunk as the buffer takes. -/
def refill (st : State σ τ) (v : View) : Chk (State σ τ × View) := do
  let take := min (← P.ints.sub bufCap st.nbuf) v.len
  let buf ← P.copyIn st.buf st.nbuf v take
  let nbuf ← P.ints.add st.nbuf take
  let v ← P.skip v take
  return ({ st with buf := buf, nbuf := nbuf }, v)

/-- Whole blocks of the buffer into the lanes, all but `keep` bytes of it. -/
def drain (st : State σ τ) : Chk (State σ τ) := do
  let consume := wholeBlocks (← P.ints.sub st.nbuf keep)
  let h ← P.blocks (.all st.buf) consume st.lanes
  let nbuf ← P.ints.sub st.nbuf consume
  let buf ← P.moveDown st.buf consume nbuf
  return { st with lanes := h, nbuf := nbuf, buf := buf }

/-- The loop of an update. -/
def updateLoop : ℕ → State σ τ → View → Chk (State σ τ)
  | 0, _, _ => throw .endless
  | fuel + 1, st, v => do
    let (st, v) ← direct P st v
    let (st, v) ← refill P st v
    if st.nbuf < bufCap then
      return st
    else
      let st ← drain P st
      updateLoop fuel st v

/-- **An update with a range of bytes.** An iteration of the loop that is not the last takes a byte,
so `n + 1` of them are as good as no bound. -/
def update (st : State σ τ) (v : View) : Chk (State σ τ) := do
  if v.len = 0 then
    return st
  else
    let st := { st with total := P.addTotal st.total v.len }
    if st.bulk = false then
      if ← P.fits st.nbuf v.len then
        let buf ← P.copyIn st.buf st.nbuf v v.len
        let nbuf ← P.ints.add st.nbuf v.len
        return { st with buf := buf, nbuf := nbuf }
      else
        updateLoop P (v.len.toNat + 1) { st with bulk := true } v
    else
      updateLoop P (v.len.toNat + 1) st v

/-! ### Digests -/

/-- What the digests of a port do in their own way. -/
structure Finish (σ : Type) where
  mix : Mixers
  /-- The bytes of the buffer in use, before the bulk path. -/
  held : State σ Word → Chk View
  hash64 : View → (seed : Word) → Chk Word
  hash128 : View → (seed : Word) → Chk Hash128
  /-- The lanes where the folds begin. -/
  rest : State σ Word → Chk Lanes4

variable (F : Finish σ)

/-- **The 64-bit digest.** -/
def digest64 (st : State σ Word) : Chk Word := do
  if st.bulk = false then
    F.hash64 (← F.held st) st.seed
  else
    let h ← F.rest st
    return foldLow F.mix (st.seed ^^^ F.mix.k) h (st.total * F.mix.k)

/-- **The 128-bit digest.** -/
def digest128 (st : State σ Word) : Chk Hash128 := do
  if st.bulk = false then
    F.hash128 (← F.held st) st.seed
  else
    let h ← F.rest st
    let s := st.seed ^^^ F.mix.k
    let lenmix := st.total * F.mix.k
    return ⟨foldLow F.mix s h lenmix, foldHigh F.mix s h lenmix⟩

/-- The state after `init`, over the buffer as it is. -/
def fresh (lanes : σ) (zero seed : τ) (buf : List Byte) : State σ τ :=
  ⟨lanes, seed, zero, 0, false, buf⟩

end Hayahash.Ports.Stream
