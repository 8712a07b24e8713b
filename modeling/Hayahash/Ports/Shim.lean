import Hayahash.Ports.Wasm

/-! # The exports of the module

`shim.c`: the functions of the header on states and keys in the linear memory. A state is laid out
the way the compiler does it, little-endian and without padding. A pointer is an index of the
memory. -/

namespace Hayahash.Ports.Shim

open Hayahash.Lib.ReadProg Hayahash.Lib.Bytes Hayahash.Lib.Arrays Hayahash.Ports.Wasm
open Hayahash.C.Primitives (Word Target)
open Hayahash.C.Walk (Hash128)
open Hayahash.C.Oneshot (hayahash64 hayahash128)
open Hayahash.C.Stream (State hayahash64Init hayahash64Update hayahash128Digest bufMem bufcap)

/-- `nbuf` and `bulk`, one behind the other. -/
def flags (st : State) : Word :=
  st.nbuf.setWidth 64 ||| ((if st.bulk then 1 else 0 : Word) <<< 32)

/-- The words of a state, in the order of its fields. -/
def words (st : State) : List Word :=
  [st.h.h0, st.h.h1, st.h.h2, st.h.h3, st.h.h4, st.h.h5, st.h.h6, st.h.h7, st.wp, st.seed,
  st.total, flags st]

/-- The bytes of a state. -/
def layout (st : State) : List Byte := store64 (words st) ++ st.buf.toList

/-- The state that bytes are. -/
def unlayout (bs : List Byte) : State :=
  let w := fun j : ℕ => word64 (ofList bs) (8 * j)
  { h := ⟨w 0, w 1, w 2, w 3, w 4, w 5, w 6, w 7⟩
    wp := w 8
    seed := w 9
    total := w 10
    nbuf := (w 11).setWidth 32
    bulk := w 11 >>> 32 ≠ 0
    buf := Vector.ofFn fun i => bs.getD (96 + i) 0 }

/-- `sizeof(hayahash64_state)`. -/
def stateSize : ℕ := 544

variable (t : Target)

/-- `wasm_hayahash64`, with `(ptrdiff_t)len`. -/
def wasmHayahash64 (m : List Byte) (p len : BitVec 32) (seed : Word) : Option Word :=
  value (ofList (region m p.toNat len.toNat)) (hayahash64 t len.toInt seed)

/-- `wasm_hayahash128`. -/
def wasmHayahash128 (m : List Byte) (p len : BitVec 32) (seed : Word) : Option Hash128 :=
  value (ofList (region m p.toNat len.toNat)) (hayahash128 t len.toInt seed)

/-- The state at `st`. -/
def stateAt (m : List Byte) (st : BitVec 32) : State := unlayout (region m st.toNat stateSize)

/-- The memory with a state at `st`. -/
def putState (m : List Byte) (st : BitVec 32) (s : State) : List Byte :=
  spliced m st.toNat (layout s)

/-- `out[0] = digest.lo; out[1] = digest.hi;` -/
def putHash128 (m : List Byte) (out : BitVec 32) (x : Hash128) : List Byte :=
  spliced m out.toNat (store64 [x.lo, x.hi])

/-- **The exports.** A function of the header that gets stuck would be a trap; none does. -/
def api (heapBase : ℕ) : Api where
  heapBase := heapBase
  stateSize := stateSize
  hayahash64 m p len seed := ((wasmHayahash64 t m p len seed).getD 0, m)
  hayahash128 m p len seed out := (wasmHayahash128 t m p len seed).elim m (putHash128 m out)
  streamInit m st seed := putState m st (hayahash64Init (stateAt m st) seed)
  streamUpdate m st p n :=
    (value (ofList (region m p.toNat n.toNat)) (hayahash64Update t (stateAt m st) n.toNat)).elim m
      (putState m st)
  streamDigest m st out :=
    (value (bufMem (stateAt m st).buf) (hayahash128Digest t (stateAt m st))).elim m
    (putHash128 m out)

end Hayahash.Ports.Shim
