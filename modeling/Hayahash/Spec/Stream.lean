import Hayahash.C.Stream
import Hayahash.Spec.Shift

/-! # What the streaming state stands for

A state stands for the bytes it was fed, since the last `init`: `Undecided` while all of them are in
the buffer, `Bulk` once the complete blocks have gone into the lanes. `OpSafe` is what an operation
of an update must satisfy on the platform. -/

namespace Hayahash.Spec.Stream

open Hayahash.Lib.ReadProg Hayahash.Lib.Bytes Hayahash.C.Primitives
open Hayahash.C.Walk Hayahash.C.Oneshot Hayahash.C.Stream Hayahash.Spec.Reference
open Hayahash.Spec.Shift

/-- **Before the bulk path**: the buffer holds the whole input, the lanes are the initial ones. -/
structure Undecided (xs : List Byte) (st : State) : Prop where
  bulk : st.bulk = false
  nbuf : st.nbuf.toNat = xs.length
  lt : xs.length < bufcap
  buf : Same (bufMem st.buf) 0 (ofList xs) 0 st.nbuf.toNat
  lanes : (st.h, st.wp) = (iv8 (st.seed ^^^ K), 0)

/-- **On the bulk path**: the buffer holds the last `nbuf` bytes, the lanes are those after all the
blocks before them. -/
structure Bulk (xs : List Byte) (st : State) : Prop where
  bulk : st.bulk = true
  ge : bufcap ≤ xs.length
  keep_le : keep ≤ st.nbuf.toNat
  nbuf_lt : st.nbuf.toNat < bufcap
  aligned : (xs.length - st.nbuf.toNat) % 64 = 0
  buf : Same (bufMem st.buf) 0 (ofList xs) (xs.length - st.nbuf.toNat : ℕ) st.nbuf.toNat
  lanes : (st.h, st.wp) =
    blocks (ofList xs) ((xs.length - st.nbuf.toNat) / 64) 0 (iv8 (st.seed ^^^ K), 0)

/-- **The state stands for the input `xs` under `seed`.** The counter is 64 bits wide. -/
structure Represents (seed : Word) (xs : List Byte) (st : State) : Prop where
  seed : st.seed = seed
  total : st.total = .ofNat 64 xs.length
  phase : Undecided xs st ∨ Bulk xs st

/-- What each operation of an update must satisfy: sums and differences do not wrap, copies stay in
the buffer, `hayahash64_internal_blocks` gets whole blocks. -/
def OpSafe : Op → Prop
  | .add w a b => a + b < 2 ^ w
  | .sub w a b => b ≤ a ∧ a < 2 ^ w
  | .memcpy dst len => dst + len ≤ bufcap
  | .memmove src len => src + len ≤ bufcap
  | .blocks n => n % 64 = 0
  | .readBuf ls => ∀ r ∈ ls, r.Within 0 bufcap

/-- The states that `init`, on any memory, and any updates lead to, with the seed and the input
since the last `init`. -/
inductive Reachable (t : Target) : Word → List Byte → State → Prop
  | init (st : State) (seed : Word) : Reachable t seed [] (hayahash64Init st seed)
  | update {seed : Word} {xs : List Byte} {st st' : State} (c : Chunk t)
      (h : Reachable t seed xs st)
      (hst : value (ofList c.bytes) (hayahash64Update t st c.bytes.length) = some st') :
      Reachable t seed (xs ++ c.bytes) st'

/-! ### The interface -/

/-- **What a call should do**, given the input so far: an update extends the input, a digest is the
one-shot function of it. -/
def ask {t : Target} (seed : Word) (xs : List Byte) : Call t → Option (List Byte × List Answer)
  | .update64 c => some (xs ++ c.bytes, [])
  | .update128 c => some (xs ++ c.bytes, [])
  | .digest64 => do
    let x ← value (ofList xs) (hayahash64 t xs.length seed)
    return (xs, [.word x])
  | .digest128 => do
    let x ← value (ofList xs) (hayahash128 t xs.length seed)
    return (xs, [.pair x])

/-- What a run of calls should do. -/
def askAll {t : Target} (seed : Word) (xs : List Byte) :
    List (Call t) → Option (List Byte × List Answer)
  | [] => some (xs, [])
  | c :: cs => do
    let (xs, as) ← ask seed xs c
    let (xs, as') ← askAll seed xs cs
    return (xs, as ++ as')

end Hayahash.Spec.Stream
