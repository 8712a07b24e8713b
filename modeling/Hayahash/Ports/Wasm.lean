import Hayahash.Lib.Effects
import Hayahash.Ports.Js

/-! # The WebAssembly engine and the hashers that share it

`initWasmFromModule` in `wasm.ts`, and `Hasher`, `hayahash64` and `hayahash128` in `index.ts`. An
engine has one linear memory, which grows; a growth detaches the views of it. What the module
exports is a parameter (`Api`), and so is whether the host lets the memory grow. A `Hasher` keeps
its state in an array of its own and moves it through the memory on every call.

A system (`Sys`) is an engine and the hashers constructed on it. A run of it is any order of
constructions, calls on the hashers and one-shot calls. -/

namespace Hayahash.Ports.Wasm

open Hayahash.Lib.ReadProg Hayahash.Lib.Bytes Hayahash.Lib.Checked Hayahash.Lib.Arrays
open Hayahash.Lib.Bigint Hayahash.Lib.Effects Hayahash.Ports.Session
open Hayahash.Ports.Js (Big128 subarray hashPure hash128Pure)
open Hayahash.Ports.Js.PureHasher (BigAnswer)
open Hayahash.C.Primitives (Word Target)
open Hayahash.C.Oneshot (hayahash64 hayahash128)

/-! ### The module -/

/-- What the module exports: two constants, and functions on the memory. Pointers and lengths are
`i32`. -/
structure Api where
  heapBase : ℕ
  stateSize : ℕ
  hayahash64 : List Byte → (p len : BitVec 32) → (seed : Word) → Word × List Byte
  hayahash128 : List Byte → (p len : BitVec 32) → (seed : Word) → (out : BitVec 32) → List Byte
  streamInit : List Byte → (st : BitVec 32) → (seed : Word) → List Byte
  streamUpdate : List Byte → (st p n : BitVec 32) → List Byte
  streamDigest : List Byte → (st out : BitVec 32) → List Byte

namespace Api

variable (A : Api)

/-- `statePtr`. -/
def statePtr : ℤ := A.heapBase

/-- `outPtr`. -/
def outPtr : ℤ := A.heapBase + A.stateSize

/-- `streamInputPtr`. -/
def streamInputPtr : ℤ := A.outPtr + 16

end Api

/-! ### The memory -/

/-- The closure of an engine: the memory, which `ArrayBuffer` it is, which one the view `mem` is of,
and how often the memory was asked to grow. -/
structure Instance where
  bytes : List Byte
  buffer : ℕ
  view : ℕ
  growths : ℕ

/-- The closure after `initWasmFromModule`, with the memory the module begins with. -/
def Instance.start (bytes : List Byte) : Instance := ⟨bytes, 0, 0, 0⟩

/-- Why a call throws. -/
inductive Thrown where
  /-- A range is not inside its array, or too long for it. -/
  | range
  /-- The buffer of a view is detached. -/
  | detached
  /-- The memory does not grow. -/
  | grow
  /-- There is no such hasher. -/
  | missing
  /-- A fault of the pure engine. -/
  | engine (f : Fault)

/-- Code of an engine. -/
abbrev Engine := Eff Thrown Instance

/-- `PAGE`. -/
def page : ℤ := 65536

variable (A : Api) (host : ℕ → Bool)

/-- `memory.grow(pages)`. -/
def grow (pages : ℤ) : Engine Unit := fun s =>
  if host s.growths then
    (.ok (), { s with
      bytes := s.bytes ++ List.replicate (pages * page).toNat 0
      buffer := s.buffer + 1
      growths := s.growths + 1 })
  else
    (.error .grow, { s with growths := s.growths + 1 })

/-- `if (memory.buffer.byteLength < needed) { memory.grow(..) }`. -/
def growTo (needed : ℤ) : Engine Unit := do
  let s ← Eff.get
  if s.bytes.length < needed then
    -- `Math.ceil`
    grow host ((needed - s.bytes.length + (page - 1)) / page)
  else
    return ()

/-- `reserve`, which returns the view `mem`. `hash` and `hash128` repeat it. -/
def reserve (needed : ℤ) : Engine ℕ := do
  growTo host needed
  Eff.modify fun s => if s.view ≠ s.buffer then { s with view := s.buffer } else s
  return (← Eff.get).view

/-- `m.set(src, pos)`. -/
def viewSet (m : ℕ) (src : List Byte) (pos : ℤ) : Engine Unit := fun s =>
  if m ≠ s.buffer then (.error .detached, s)
  else
    match blit s.bytes pos src with
    | .ok bytes => (.ok (), { s with bytes := bytes })
    | .error _ => (.error .range, s)

/-- The bytes in `m.subarray(first, last)`. -/
def viewRead (m : ℕ) (first last : ℤ) : Engine (List Byte) := fun s =>
  if m ≠ s.buffer then (.error .detached, s)
  else (.ok (subarray (.all s.bytes) first last).bytes, s)

/-- `state.set(src)`, which returns what is in the array then. -/
def stateSet (state src : List Byte) : Engine (List Byte) :=
  match blit state 0 src with
  | .ok state => pure state
  | .error _ => Eff.throw .range

/-- `new DataView(memory.buffer).getBigUint64(p, true)`. -/
def getBigUint64 (p : ℤ) : Engine ℤ := fun s =>
  match (View.all s.bytes).read64 p with
  | .ok x => (.ok (val x), s)
  | .error _ => (.error .range, s)

/-- A number, as a pointer or a length of the module. -/
def u32 (x : ℤ) : BitVec 32 := .ofInt 32 x

/-- A call of an export that returns nothing. -/
def callExport (f : List Byte → List Byte) : Engine Unit :=
  Eff.modify fun s => { s with bytes := f s.bytes }

/-- Both words of a digest, at `p`. -/
def readHash128 (p : ℤ) : Engine Big128 := do
  let lo ← getBigUint64 p
  let hi ← getBigUint64 (p + 8)
  return ⟨lo, hi⟩

/-! ### The engine -/

/-- `streamInit`, which returns what is in `state` then. -/
def streamInit (state : List Byte) (seed : ℤ) : Engine (List Byte) := do
  let m ← reserve host (A.statePtr + A.stateSize)
  callExport fun bytes => A.streamInit bytes (u32 A.statePtr) (.ofInt 64 seed)
  stateSet state (← viewRead m A.statePtr (A.statePtr + A.stateSize))

/-- `streamUpdate`, which returns what is in `state` then. -/
def streamUpdate (state data : List Byte) : Engine (List Byte) := do
  let m ← reserve host (A.streamInputPtr + data.length)
  viewSet m state A.statePtr
  viewSet m data A.streamInputPtr
  callExport fun bytes =>
    A.streamUpdate bytes (u32 A.statePtr) (u32 A.streamInputPtr) (u32 data.length)
  stateSet state (← viewRead m A.statePtr (A.statePtr + A.stateSize))

/-- `streamDigest`. -/
def streamDigest (state : List Byte) : Engine Big128 := do
  let m ← reserve host (A.outPtr + 16)
  viewSet m state A.statePtr
  callExport fun bytes => A.streamDigest bytes (u32 A.statePtr) (u32 A.outPtr)
  readHash128 A.outPtr

/-- `hash`. The module returns an `i64`, which is a signed BigInt. -/
def hash (data : List Byte) (seed : ℤ) : Engine ℤ := do
  let m ← reserve host (A.heapBase + data.length)
  viewSet m data A.heapBase
  let s ← Eff.get
  let r := A.hayahash64 s.bytes (u32 A.heapBase) (u32 data.length) (.ofInt 64 seed)
  Eff.modify fun s => { s with bytes := r.2 }
  return mask r.1.toInt

/-- `hash128`. -/
def hash128 (data : List Byte) (seed : ℤ) : Engine Big128 := do
  let input : ℤ := A.heapBase + 16
  let m ← reserve host (input + data.length)
  viewSet m data input
  callExport fun bytes =>
    A.hayahash128 bytes (u32 input) (u32 data.length) (.ofInt 64 seed) (u32 A.heapBase)
  readHash128 A.heapBase

/-! ### `index.ts` -/

/-- `WASM_MAX_LEN`. -/
def wasmMaxLen : ℤ := 0x7fffffff

/-- A call of the pure engine. -/
def pureEngine {α : Type} (x : Chk α) : Engine α := Eff.ofExcept (x.mapError .engine)

/-- **`hayahash64`**, with an engine. -/
def oneshot64 (data : List Byte) (seed : ℤ) : Engine ℤ :=
  if data.length ≤ wasmMaxLen then hash A host data (mask seed)
  else pureEngine (hashPure (.all data) (mask seed))

/-- **`hayahash128`**, with an engine. -/
def oneshot128 (data : List Byte) (seed : ℤ) : Engine Big128 :=
  if data.length ≤ wasmMaxLen then hash128 A host data (mask seed)
  else pureEngine (hash128Pure (.all data) (mask seed))

/-- `Hasher`, on an engine. -/
structure Hasher where
  state : List Byte
  seed : ℤ
  total : ℤ

namespace Hasher

/-- **`length`**. -/
def length (h : Hasher) : ℤ := h.total

/-- A method: it works on the hasher and on the engine. -/
abbrev Method := Eff Thrown (Hasher × Instance)

/-- Change the hasher. -/
def change (f : Hasher → Hasher) : Method Unit := Eff.modify fun s => (f s.1, s.2)

/-- The constructor. -/
def new (seed : ℤ) : Engine Hasher := do
  let seed := mask seed
  let state ← streamInit A host (List.replicate A.stateSize 0) seed
  return ⟨state, seed, 0⟩

/-- **`reset`**. -/
def reset (seed : Option ℤ) : Method Unit := do
  change fun h =>
    match seed with
    | some seed => { h with seed := mask seed }
    | none => h
  change fun h => { h with total := 0 }
  let h ← Eff.get
  let state ← Eff.second (streamInit A host h.1.state h.1.seed)
  change fun h => { h with state := state }

/-- `for (let off = 0; off < data.length; off += WASM_MAX_LEN)`. -/
def updatePieces (data : List Byte) : ℕ → ℤ → Method Unit
  | 0, _ => Eff.throw (.engine .endless)
  | fuel + 1, off => do
    if off < data.length then
      let h ← Eff.get
      let piece := (subarray (.all data) off (min (off + wasmMaxLen) data.length)).bytes
      let state ← Eff.second (streamUpdate A host h.1.state piece)
      change fun h => { h with state := state }
      updatePieces data fuel (off + wasmMaxLen)
    else
      return ()

/-- **`update`**. -/
def update (data : List Byte) : Method Unit :=
  if data.length = 0 then
    return ()
  else do
    change fun h => { h with total := mask (h.total + data.length) }
    updatePieces A host data (data.length + 1) 0

/-- **`digest64`**. -/
def digest64 : Method ℤ := do
  let h ← Eff.get
  return (← Eff.second (streamDigest A host h.1.state)).lo

/-- **`digest128`**. -/
def digest128 : Method Big128 := do
  let h ← Eff.get
  Eff.second (streamDigest A host h.1.state)

/-- A call. -/
def call : Call (List Byte) (Option ℤ) → Method (List BigAnswer)
  | .update c => do
    update A host c
    return []
  | .digest64 => do return [.word (← digest64 A host)]
  | .digest128 => do return [.pair (← digest128 A host)]
  | .reset r => do
    reset A host r
    return []

end Hasher

/-! ### Systems -/

/-- The hashers on an engine, and the engine. -/
abbrev Sys := List Hasher × Instance

/-- A step of a system. -/
inductive Op where
  | new (seed : ℤ)
  | call (i : ℕ) (c : Call (List Byte) (Option ℤ))
  | hash64 (data : List Byte) (seed : ℤ)
  | hash128 (data : List Byte) (seed : ℤ)

/-- A method of the hasher `i`. -/
def onHasher {α : Type} (i : ℕ) (x : Hasher.Method α) : Eff Thrown Sys α := fun s =>
  match s.1[i]? with
  | none => (.error .missing, s)
  | some h =>
    let r := x (h, s.2)
    (r.1, s.1.set i r.2.1, r.2.2)

/-- **A step**, and what it returns. -/
def step : Op → Eff Thrown Sys (List BigAnswer)
  | .new seed => do
    let h ← Eff.second (Hasher.new A host seed)
    Eff.modify fun s => (s.1 ++ [h], s.2)
    return []
  | .call i c => onHasher i (Hasher.call A host c)
  | .hash64 data seed => do return [.word (← Eff.second (oneshot64 A host data seed))]
  | .hash128 data seed => do return [.pair (← Eff.second (oneshot128 A host data seed))]

/-- **A run.** -/
def runAll : List Op → Eff Thrown Sys (List BigAnswer)
  | [] => return []
  | op :: ops => do
    let as ← step A host op
    let as' ← runAll ops
    return as ++ as'

/-! ### What a run should return -/

/-- What the types of a hasher mean. -/
def meaning : Meaning (List Byte) ℤ (Option ℤ) BigAnswer where
  seed := .ofInt 64
  bytes := some
  reseed r seed := (r.map (.ofInt 64)).getD seed
  word x := .word (val x)
  pair x := .pair ⟨val x.lo, val x.hi⟩
  rejected := []

variable (t : Target)

/-- **What a step should return**, by the functions of the header, and what the hashers have
taken. -/
def expectStep (logs : List Log) : Op → Option (List Log × List BigAnswer)
  | .new seed => some (logs ++ [⟨.ofInt 64 seed, []⟩], [])
  | .call i c => do
    let (log, as) ← expect meaning t (← logs[i]?) c
    return (logs.set i log, as)
  | .hash64 data seed => do
    let x ← value (ofList data) (hayahash64 t data.length (.ofInt 64 seed))
    return (logs, [.word (val x)])
  | .hash128 data seed => do
    let x ← value (ofList data) (hayahash128 t data.length (.ofInt 64 seed))
    return (logs, [.pair ⟨val x.lo, val x.hi⟩])

/-- What a run should return. -/
def expectRun (logs : List Log) : List Op → Option (List Log × List BigAnswer)
  | [] => some (logs, [])
  | op :: ops => do
    let (logs, as) ← expectStep t logs op
    let (logs, as') ← expectRun logs ops
    return (logs, as ++ as')

/-- The calls of a run are on hashers that were constructed before, of which there are `n` at
first. -/
def Known : ℕ → List Op → Prop
  | _, [] => True
  | n, .new _ :: ops => Known (n + 1) ops
  | n, .call i _ :: ops => i < n ∧ Known n ops
  | n, .hash64 _ _ :: ops => Known n ops
  | n, .hash128 _ _ :: ops => Known n ops

end Hayahash.Ports.Wasm
