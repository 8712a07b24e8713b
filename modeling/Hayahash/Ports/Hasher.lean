import Hayahash.Ports.Rust

/-! # The buffering hasher of the Rust port

`HayaHasher` of `hasher.rs`. A `Vec` that would have to hold more than `isize::MAX` bytes panics. -/

namespace Hayahash.Ports.Hasher

open Hayahash.Lib.Bytes Hayahash.Lib.Checked Hayahash.Lib.Arrays Hayahash.C.Primitives
open Hayahash.C.Walk Hayahash.Ports.Session Hayahash.Ports.Rust

/-- `INLINE_CAP`. -/
def INLINE_CAP : ℤ := 64

/-- `HayaHasher`. -/
structure HayaHasher where
  seed : Word
  len : ℤ
  inline : List Byte
  heap : List Byte

variable (w : Width)

/-- `heap.reserve(additional)`. -/
def reserve (heap : List Byte) (additional : ℤ) : Chk Unit :=
  if heap.length + additional ≤ w.maxInt then pure () else throw .overflow

/-- `heap.extend_from_slice(bytes)`. -/
def extendFromSlice (heap : List Byte) (bytes : View) : Chk (List Byte) := do
  reserve w heap bytes.len
  return heap ++ bytes.bytes

/-- `HayaHasher::new`. -/
def new (seed : Word) : HayaHasher := ⟨seed, 0, List.replicate 64 0, []⟩

/-- `buffer`. -/
def buffer (h : HayaHasher) : Chk View :=
  if h.heap.isEmpty then (View.all h.inline).part 0 h.len else pure (.all h.heap)

/-- `finish`. -/
def finish (h : HayaHasher) : Chk Word := do hayahash64 w (← buffer h) h.seed

/-- `finish128`. -/
def finish128 (h : HayaHasher) : Chk Hash128 := do hayahash128 w (← buffer h) h.seed

/-- **`write`**. -/
def write (h : HayaHasher) (bytes : View) : Chk HayaHasher := do
  if bytes.len = 0 then return h
  if !h.heap.isEmpty then return { h with heap := ← extendFromSlice w h.heap bytes }
  let newLen ← w.unsigned.add h.len bytes.len
  if newLen ≤ INLINE_CAP then
    return { h with inline := ← copyFromSlice h.inline h.len newLen bytes, len := newLen }
  reserve w h.heap newLen
  let heap ← extendFromSlice w h.heap (← (View.all h.inline).part 0 h.len)
  return { h with heap := ← extendFromSlice w heap bytes }

/-- `build_hasher`. -/
def buildHasher (h : HayaHasher) : HayaHasher := new h.seed

/-- `HayaHasher`, as an object: a reset goes on with the hasher that it builds. -/
def hasher : Object (List Byte) Word Unit Answer HayaHasher where
  new := new
  update h bytes := do return (← write w h (.all bytes), [])
  digest64 h := do return .word (← finish w h)
  digest128 h := do return .pair (← finish128 w h)
  reset h _ := buildHasher h

end Hayahash.Ports.Hasher
