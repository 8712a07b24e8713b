import Hayahash.C.Oneshot
import Hayahash.Lib.Triple

/-! # The streaming state of `hayahash.h`

`hayahash64_state`, `hayahash64_init`, `hayahash64_update`, the two digests and the 128-bit aliases.

An update reads the memory of the caller, whose addresses count from the first byte of the chunk.
The buffer is part of the state. Arithmetic on `size_t` and `uint32_t` wraps as on the platform; an
update notes every such operation, every `memcpy` and `memmove` and every call of
`hayahash64_internal_blocks` with its operands (`Op`), so that what they do not do can be stated. -/

namespace Hayahash.C.Stream

open Hayahash.Lib.ReadProg Hayahash.Lib.Bytes Hayahash.Lib.Triple Hayahash.C.Primitives
open Hayahash.C.Walk Hayahash.C.Oneshot

/-! ### The state -/

/-- `hayahash64_internal_bufcap`. -/
def bufcap : ℕ := 448

/-- `hayahash64_internal_keep`. -/
def keep : ℕ := 128

/-- `hayahash64_state`, and `hayahash128_state`. -/
structure State where
  h : Lanes8
  wp : Word
  seed : Word
  total : Word
  nbuf : BitVec 32
  bulk : Bool
  buf : Vector Byte bufcap

/-- A zeroed object. -/
def State.zeroed : State :=
  ⟨⟨0, 0, 0, 0, 0, 0, 0, 0⟩, 0, 0, 0, 0, false, Vector.replicate bufcap 0⟩

/-- The buffer as a memory of its own. -/
def bufMem (buf : Vector Byte bufcap) : Mem Byte := ofList buf.toList

/-- `hayahash64_init`, over whatever `st` held. The buffer is left alone. -/
def hayahash64Init (st : State) (seed : Word) : State :=
  let s := seed ^^^ K
  { st with h := iv8 s, wp := 0, seed := seed, total := 0, nbuf := 0, bulk := false }

/-- What an update does besides moving bytes: arithmetic on `w` bits, `memcpy` from the caller to
`buf + dst`, `memmove` from `buf + src` to `buf`, and calls of `hayahash64_internal_blocks` on `n`
bytes, with the ranges of the buffer it loads. -/
inductive Op where
  | add (w a b : ℕ)
  | sub (w a b : ℕ)
  | memcpy (dst len : ℕ)
  | memmove (src len : ℕ)
  | blocks (n : ℕ)
  | readBuf (ls : List Span)

/-- Code that reads the caller's memory and works on the state. -/
abbrev Upd := Prog Byte Op

/-! ### Arithmetic and copies -/

/-- `a + b` in `w` bits. -/
def addW (w a b : ℕ) : Upd ℕ := do
  Prog.observe (.add w a b)
  return (a + b) % 2 ^ w

/-- `a - b` in `w` bits. -/
def subW (w a b : ℕ) : Upd ℕ := do
  Prog.observe (.sub w a b)
  return (((a : ℤ) - b) % 2 ^ w).toNat

/-- The bytes `xs` from `dst` on; what does not fit is dropped. -/
def overwrite (buf : Vector Byte bufcap) (dst len : ℕ) (xs : Fin len → Byte) : Vector Byte bufcap :=
  Vector.ofFn fun i => if h : dst ≤ i ∧ i < dst + len then xs ⟨i - dst, by omega⟩ else buf[i]

/-- `memcpy(buf + dst, p, len)`. -/
def memcpy (buf : Vector Byte bufcap) (dst : ℕ) (p : ℤ) (len : ℕ) : Upd (Vector Byte bufcap) := do
  Prog.observe (.memcpy dst len)
  let xs ← Prog.loadSpan ⟨p, len⟩
  return overwrite buf dst len xs

/-- `memmove(buf, buf + src, len)`. -/
def memmove (buf : Vector Byte bufcap) (src len : ℕ) : Upd (Vector Byte bufcap) := do
  Prog.observe (.memmove src len)
  return overwrite buf 0 len fun i => bufMem buf (src + i)

/-! ### Blocks -/

variable (t : Target)

/-- The loop of `hayahash64_internal_blocks`, on the lanes and `wp`. -/
def blocksLoop (p : ℤ) (n : ℕ) (s : Lanes8 × Word) : Code (Lanes8 × Word) := do
  if t.vecgcc then
    let (v, wp) ← untilEnd (bulkBlockVec t) (p + n) n p (.ofLanes s.1, s.2)
    return (v.toLanes, wp)
  else
    untilEnd (bulkBlock t) (p + n) n p s

/-- `hayahash64_internal_blocks(st, p, n)` with `p` in the caller's memory. -/
def internalBlocks (st : State) (p : ℤ) (n : ℕ) : Upd State := do
  Prog.observe (.blocks n)
  let (h, wp) ← silent (blocksLoop t p n (st.h, st.wp))
  return { st with h := h, wp := wp }

/-- `hayahash64_internal_blocks(st, st->buf, n)`. -/
def internalBlocksBuf (st : State) (n : ℕ) : Upd State := do
  Prog.observe (.blocks n)
  match exec (bufMem st.buf) (blocksLoop t 0 n (st.h, st.wp)) with
  | none => .stuck
  | some o =>
    Prog.observe (.readBuf o.loads)
    return { st with h := o.val.1, wp := o.val.2 }

/-! ### Update -/

/-- The fast path of the loop: the floor of the buffer, then whole blocks of the caller's. The
result is the state, `p` and `n`. -/
def direct (st : State) (p : ℤ) (n : ℕ) : Upd (State × ℤ × ℕ) := do
  if st.nbuf.toNat = keep ∧ n > bufcap then
    let d ← subW t.sizeBits n keep
    let d := d / 64 * 64
    let st ← internalBlocksBuf t st keep
    let st ← internalBlocks t st p d
    let n ← subW t.sizeBits n d
    return ({ st with nbuf := 0 }, p + d, n)
  else
    return (st, p, n)

/-- The copy into the buffer, as much as fits. -/
def refill (st : State) (p : ℤ) (n : ℕ) : Upd (State × ℤ × ℕ) := do
  let room ← subW t.sizeBits bufcap st.nbuf.toNat
  let take := if n < room then n else room
  let buf ← memcpy st.buf st.nbuf.toNat p take
  let nbuf ← addW 32 st.nbuf.toNat (take % 2 ^ 32)
  let n ← subW t.sizeBits n take
  return ({ st with buf := buf, nbuf := .ofNat 32 nbuf }, p + take, n)

/-- The full buffer, consumed down to the floor. -/
def drain (st : State) : Upd State := do
  let consume ← subW 32 st.nbuf.toNat keep
  let consume := consume / 64 * 64
  let st ← internalBlocksBuf t st consume
  let nbuf ← subW 32 st.nbuf.toNat (consume % 2 ^ 32)
  let buf ← memmove st.buf consume nbuf
  return { st with nbuf := .ofNat 32 nbuf, buf := buf }

/-- `for (;;)`, for so many iterations; stuck after them. -/
def updateLoop : ℕ → State → ℤ → ℕ → Upd State
  | 0, _, _, _ => .stuck
  | fuel + 1, st, p, n => do
    let (st, p, n) ← direct t st p n
    let (st, p, n) ← refill t st p n
    if st.nbuf.toNat < bufcap then
      return st
    else
      let st ← drain t st
      updateLoop fuel st p n

/-- **`hayahash64_update`**, with the chunk at `0` of the caller's memory.
An iteration of the loop that is not the last takes a byte, so `n + 1` of them are as good as no
bound. -/
def hayahash64Update (st : State) (n : ℕ) : Upd State := do
  if n = 0 then
    return st
  else
    let st := { st with total := st.total + .ofNat 64 n }
    if st.bulk = false then
      let sum ← addW t.sizeBits st.nbuf.toNat n
      if sum < bufcap then
        let buf ← memcpy st.buf st.nbuf.toNat 0 n
        let nbuf ← addW 32 st.nbuf.toNat (n % 2 ^ 32)
        return { st with buf := buf, nbuf := .ofNat 32 nbuf }
      else
        updateLoop t (n + 1) { st with bulk := true } 0 n
    else
      updateLoop t (n + 1) st 0 n

/-- `hayahash128_init`. -/
def hayahash128Init (st : State) (seed : Word) : State := hayahash64Init st seed

/-- `hayahash128_update`. -/
def hayahash128Update (st : State) (n : ℕ) : Upd State := hayahash64Update t st n

/-! ### Digests -/

/-- `(ptrdiff_t)st->total`. -/
def totalLen (st : State) : ℤ := (st.total.setWidth t.sizeBits).toInt

/-- The walk of the digests of a bulk state, over its buffer: the blocks and the round that are
left, the wall and the tail. -/
def digestWalk (st : State) : Code Lanes4 := do
  let ((h, wp), p, l) ← whileBlocks (bulkBlock t) 0 st.nbuf.toNat (st.h, st.wp)
  let ((h, wp), p, l) ← midIf t p l (foldUpper h, wp)
  let h ← wall h wp
  tail t p l h

/-- **`hayahash64_digest`**, reading the buffer. -/
def hayahash64Digest (st : State) : Code Word := do
  if st.bulk = false then
    hayahash64 t (totalLen t st) st.seed
  else
    let h ← digestWalk t st
    finish64 (st.seed ^^^ K) (st.total * K) h

/-- **`hayahash128_digest`**, reading the buffer. -/
def hayahash128Digest (st : State) : Code Hash128 := do
  if st.bulk = false then
    hayahash128 t (totalLen t st) st.seed
  else
    let h ← digestWalk t st
    finish128 (st.seed ^^^ K) (st.total * K) h

/-! ### Calls -/

/-- The bytes of a chunk. An object of the platform is no longer than `PTRDIFF_MAX`. -/
structure Chunk (t : Target) where
  bytes : List Byte
  fits : bytes.length ≤ t.ptrdiffMax

/-- A call of the streaming interface, on a state that was initialised. -/
inductive Call (t : Target) where
  | update64 (c : Chunk t)
  | update128 (c : Chunk t)
  | digest64
  | digest128

/-- What a digest returns. -/
inductive Answer where
  | word (x : Word)
  | pair (x : Hash128)

variable {t}

/-- One call: the state after it, and what it returns. A digest takes the state as `const`. -/
def call (st : State) : Call t → Option (State × List Answer)
  | .update64 c => do
    let st ← value (ofList c.bytes) (hayahash64Update t st c.bytes.length)
    return (st, [])
  | .update128 c => do
    let st ← value (ofList c.bytes) (hayahash128Update t st c.bytes.length)
    return (st, [])
  | .digest64 => do
    let x ← value (bufMem st.buf) (hayahash64Digest t st)
    return (st, [.word x])
  | .digest128 => do
    let x ← value (bufMem st.buf) (hayahash128Digest t st)
    return (st, [.pair x])

/-- A run of calls: the state after them, and all that they return. -/
def run (st : State) : List (Call t) → Option (State × List Answer)
  | [] => some (st, [])
  | c :: cs => do
    let (st, as) ← call st c
    let (st, as') ← run st cs
    return (st, as ++ as')

end Hayahash.C.Stream
