import Hayahash.Ports.Wasm

/-! # The JavaScript package

`index.ts` and `initWasm` in `wasm.ts`: the variable `wasm`, which a program may set anew at any
time, the hashers, of which each keeps the engine that it was constructed on, and the functions that
hash at once.

`ideal` is what a step should do: it knows no engine but for whether there is one, and no state of a
hasher but what was passed to it. -/

namespace Hayahash.Ports.Npm

open Hayahash.Lib.ReadProg Hayahash.Lib.Bytes Hayahash.Lib.Checked Hayahash.Lib.Arrays
open Hayahash.Lib.Bigint Hayahash.Lib.Effects Hayahash.Ports.Session
open Hayahash.Ports.Js (PureHasher hashPure hash128Pure hayahash64Pure hayahash128Pure)
open Hayahash.Ports.Js.PureHasher (BigAnswer)
open Hayahash.Ports.Wasm (Api Instance wasmMaxLen oneshot64 oneshot128)
open Hayahash.C.Primitives (Word Target)
open Hayahash.C.Oneshot (hayahash64 hayahash128)

/-! ### Engines -/

/-- Why a call throws. -/
inductive Thrown where
  /-- What the engines throw. -/
  | engine (e : Wasm.Thrown)
  /-- The module does not instantiate. -/
  | link
  /-- `TypeError`: not a hayahash module. -/
  | type

/-- A `WebAssembly.Memory`: its bytes, and which times it grows when it is asked to. -/
structure Memory where
  bytes : List Byte
  grows : ℕ → Bool

/-- `instance.exports`, as far as it is looked at: what is missing, or of another type, is
`none`. -/
structure Exports where
  hayahash64 : Option (List Byte → BitVec 32 → BitVec 32 → Word → Word × List Byte)
  hayahash128 : Option (List Byte → BitVec 32 → BitVec 32 → Word → BitVec 32 → List Byte)
  stateSize : Option ℕ
  streamInit : Option (List Byte → BitVec 32 → Word → List Byte)
  streamUpdate : Option (List Byte → BitVec 32 → BitVec 32 → BitVec 32 → List Byte)
  streamDigest : Option (List Byte → BitVec 32 → BitVec 32 → List Byte)
  memory : Option Memory
  heapBase : Option ℕ

/-- An engine. -/
structure Linked where
  api : Api
  grows : ℕ → Bool
  inst : Instance

/-- The engine of exports that are all there. -/
def Exports.linked (e : Exports) : Option Linked := do
  let hayahash64 ← e.hayahash64
  let hayahash128 ← e.hayahash128
  let stateSize ← e.stateSize
  let streamInit ← e.streamInit
  let streamUpdate ← e.streamUpdate
  let streamDigest ← e.streamDigest
  let memory ← e.memory
  let heapBase ← e.heapBase
  return { api := ⟨heapBase, stateSize, hayahash64, hayahash128, streamInit, streamUpdate,
    streamDigest⟩
           grows := memory.grows
           inst := .start memory.bytes }

/-- **`initWasmFromModule`**, of a module that does not instantiate, or exports something. -/
def initWasmFromModule (module : Option Exports) : Except Thrown Linked :=
  match module with
  | none => .error .link
  | some e =>
    match e.linked with
    | some engine => .ok engine
    | none => .error .type

/-- **`initWasm`**. The embedded module is `none` as well if it cannot be compiled. -/
def initWasm (embedded : Option Exports) : Option Linked := (initWasmFromModule embedded).toOption

/-! ### Hashers -/

/-- `Hasher`, on the pure engine. -/
structure JsHasher where
  pure : PureHasher
  seed : ℤ
  total : ℤ

namespace JsHasher

/-- A method. -/
abbrev Method := Eff Wasm.Thrown JsHasher

/-- A call of the pure hasher. -/
def onPure {α : Type} (x : PureHasher → Chk α) : Method α := do
  let h ← Eff.get
  Eff.ofExcept ((x h.pure).mapError .engine)

/-- The pure hasher after a call. -/
def keep (x : PureHasher → Chk PureHasher) : Method Unit := do
  let p ← onPure x
  Eff.modify fun h => { h with pure := p }

/-- The constructor. -/
def new (seed : ℤ) : Chk JsHasher := do
  let seed := mask seed
  return ⟨← PureHasher.new seed, seed, 0⟩

/-- **`reset`**. -/
def reset (seed : Option ℤ) : Method Unit := do
  Eff.modify fun h =>
    match seed with
    | some seed => { h with seed := mask seed }
    | none => h
  Eff.modify fun h => { h with total := 0 }
  let h ← Eff.get
  keep fun p => p.reset (some h.seed)

/-- **`update`**. -/
def update (data : List Byte) : Method Unit :=
  if data.length = 0 then
    return ()
  else do
    Eff.modify fun h => { h with total := mask (h.total + data.length) }
    keep fun p => p.update (.all data)

/-- A call. -/
def call : Call (List Byte) (Option ℤ) → Method (List BigAnswer)
  | .update c => do
    update c
    return []
  | .digest64 => do return [.word (← onPure PureHasher.digest64)]
  | .digest128 => do return [.pair (← onPure PureHasher.digest128)]
  | .reset r => do
    reset r
    return []

end JsHasher

/-- `Hasher`: exactly one of the engines is set. -/
inductive Hasher where
  /-- On the engine `k`. -/
  | wasm (k : ℕ) (h : Wasm.Hasher)
  | js (h : JsHasher)

namespace Hasher

/-- **`seed`**. -/
def seed : Hasher → ℤ
  | .wasm _ h => h.seed
  | .js h => h.seed

/-- **`length`**. -/
def length : Hasher → ℤ
  | .wasm _ h => h.total
  | .js h => h.total

end Hasher

/-! ### The package -/

/-- The package: the engines that there were, the one in the variable `wasm`, and the hashers. -/
structure Package where
  engines : List Linked
  wasm : Option ℕ
  hashers : List Hasher

/-- The package when it was loaded. -/
def start (embedded : Option Exports) : Package :=
  match initWasm embedded with
  | some e => ⟨[e], some 0, []⟩
  | none => ⟨[], none, []⟩

/-- Code of the package. -/
abbrev Js := Eff Thrown Package

/-- `"wasm"` or `"js"`. -/
inductive EngineName where
  | wasm
  | js
deriving DecidableEq

/-- What a step returns. -/
inductive Answer where
  | digest (x : BigAnswer)
  | number (x : ℤ)
  | engine (name : EngineName)
deriving DecidableEq

/-- What an engine or a hasher returns. -/
def returned (r : Except Wasm.Thrown (List BigAnswer)) : Except Thrown (List Answer) :=
  (r.mapError .engine).map (·.map .digest)

/-- The engine `k` works. -/
def onEngine (k : ℕ) (x : Api → (ℕ → Bool) → Wasm.Engine (List BigAnswer)) : Js (List Answer) :=
  fun s =>
  match s.engines[k]? with
  | none => (.error (.engine .missing), s)
  | some e =>
    let r := x e.api e.grows e.inst
    (returned r.1, { s with engines := s.engines.set k { e with inst := r.2 } })

/-- **`Hasher`**, the constructor. -/
def new (seed : ℤ) : Js (List Answer) := fun s =>
  match s.wasm with
  | some k =>
    match s.engines[k]? with
    | none => (.error (.engine .missing), s)
    | some e =>
      let r := Wasm.Hasher.new e.api e.grows seed e.inst
      let s := { s with engines := s.engines.set k { e with inst := r.2 } }
      match r.1 with
      | .ok h => (.ok [], { s with hashers := s.hashers ++ [.wasm k h] })
      | .error e => (.error (.engine e), s)
  | none =>
    match JsHasher.new seed with
    | .ok h => (.ok [], { s with hashers := s.hashers ++ [.js h] })
    | .error f => (.error (.engine (.engine f)), s)

/-- A call on the hasher `i`, whatever engine the package uses now. -/
def call (i : ℕ) (c : Call (List Byte) (Option ℤ)) : Js (List Answer) := fun s =>
  match s.hashers[i]? with
  | none => (.error (.engine .missing), s)
  | some (.wasm k h) =>
    match s.engines[k]? with
    | none => (.error (.engine .missing), s)
    | some e =>
      let r := Wasm.Hasher.call e.api e.grows c (h, e.inst)
      (returned r.1, { s with
        engines := s.engines.set k { e with inst := r.2.2 }
        hashers := s.hashers.set i (.wasm k r.2.1) })
  | some (.js h) =>
    let r := JsHasher.call c h
    (returned r.1, { s with hashers := s.hashers.set i (.js r.2) })

/-- Code of the pure engine. -/
def onPure {α : Type} (x : Chk α) (f : α → BigAnswer) : Js (List Answer) :=
  Eff.ofExcept (returned ((x.mapError .engine).map fun a => [f a]))

/-- A function that hashes at once: on the engine in use, and on the pure one if there is none. -/
def oneshot {α : Type} (x : Api → (ℕ → Bool) → Wasm.Engine α) (y : Chk α) (f : α → BigAnswer) :
    Js (List Answer) := fun s =>
  match s.wasm with
  | some k => onEngine k (fun A host => do return [f (← x A host)]) s
  | none => onPure y f s

/-- A step of a program that uses the package. -/
inductive Op where
  | setWasmModule (module : Option Exports)
  | getEngine
  | new (seed : ℤ)
  | call (i : ℕ) (c : Call (List Byte) (Option ℤ))
  | seed (i : ℕ)
  | length (i : ℕ)
  | hash64 (data : List Byte) (seed : ℤ)
  | hash128 (data : List Byte) (seed : ℤ)
  | pure64 (data : List Byte) (seed : ℤ)
  | pure128 (data : List Byte) (seed : ℤ)

/-- A property of a hasher, if there is one. -/
def propertyOf (x : Option ℤ) : Except Thrown (List Answer) :=
  match x with
  | some x => .ok [.number x]
  | none => .error (.engine .missing)

/-- A property of the hasher `i`. -/
def property (i : ℕ) (f : Hasher → ℤ) : Js (List Answer) :=
  fun s => (propertyOf (s.hashers[i]?.map f), s)

/-- **A step.** -/
def step : Op → Js (List Answer)
  | .setWasmModule module => do
    let e ← Eff.ofExcept (initWasmFromModule module)
    Eff.modify fun s => { s with engines := s.engines ++ [e], wasm := some s.engines.length }
    return []
  | .getEngine => do
    let s ← Eff.get
    return [.engine (if s.wasm.isNone then .js else .wasm)]
  | .new seed => new seed
  | .call i c => call i c
  | .seed i => property i Hasher.seed
  | .length i => property i Hasher.length
  | .hash64 data seed => oneshot (oneshot64 · · data seed) (hashPure (.all data) (mask seed)) .word
  | .hash128 data seed =>
      oneshot (oneshot128 · · data seed) (hash128Pure (.all data) (mask seed)) .pair
  | .pure64 data seed => onPure (hayahash64Pure (.all data) seed) .word
  | .pure128 data seed => onPure (hayahash128Pure (.all data) seed) .pair

/-- **A run** that goes on after what throws: what the steps return, and the package then. -/
def runAll : List Op → Package → List (Except Thrown (List Answer)) × Package
  | [], s => ([], s)
  | op :: ops, s =>
    let (r, s) := step op s
    let (rs, s) := runAll ops s
    (r :: rs, s)

/-! ### What a run should return -/

/-- A hasher, as it should be: whether it was constructed on an engine, what it was told to absorb
since its last reset, as far as there was memory, and how many bytes it was passed. -/
structure IdealHasher where
  wasm : Bool
  log : Log
  offered : ℕ

/-- The package, as it should be. -/
structure Ideal where
  wasm : Bool
  hashers : List IdealHasher

/-- The package, as it should be when it was loaded. -/
def Ideal.start (embedded : Option Exports) : Ideal := ⟨(initWasm embedded).isSome, []⟩

variable (t : Target)

/-- `hayahash64` of the header. -/
def ideal64 (data : List Byte) (seed : Word) : Option (List BigAnswer) := do
  let x ← value (ofList data) (hayahash64 t data.length seed)
  return [.word (val x)]

/-- `hayahash128` of the header. -/
def ideal128 (data : List Byte) (seed : Word) : Option (List BigAnswer) := do
  let x ← value (ofList data) (hayahash128 t data.length seed)
  return [.pair ⟨val x.lo, val x.hi⟩]

/-- **What a call should return**, if the memory was `refused` to it or not. Nobody else but a
hasher on an engine needs memory, and not without a chunk. -/
def IdealHasher.call (refused : Bool) (h : IdealHasher) :
    Call (List Byte) (Option ℤ) → Option (Except Wasm.Thrown (List BigAnswer) × IdealHasher)
  | .update data =>
    let h := { h with offered := h.offered + data.length }
    if refused ∧ h.wasm ∧ data.length ≠ 0 then some (.error .grow, h)
    else some (.ok [], { h with log := h.log.take data })
  | .digest64 => do return (.ok (← ideal64 t h.log.bytes h.log.seed), h)
  | .digest128 => do return (.ok (← ideal128 t h.log.bytes h.log.seed), h)
  | .reset r => some (.ok [], ⟨h.wasm, ⟨(r.map (.ofInt 64)).getD h.log.seed, []⟩, 0⟩)

/-- What a one-shot function should return. -/
def idealOneshot (refused wasm : Bool) (data : List Byte) (x : Option (List BigAnswer)) :
    Option (Except Wasm.Thrown (List BigAnswer)) :=
  if refused ∧ wasm ∧ data.length ≤ wasmMaxLen then some (.error .grow) else x.map .ok

/-- **What a step should return**, and the package then. -/
def ideal (refused : Bool) (s : Ideal) : Op → Option (Except Thrown (List Answer) × Ideal)
  | .setWasmModule module =>
    match initWasmFromModule module with
    | .ok _ => some (.ok [], { s with wasm := true })
    | .error e => some (.error e, s)
  | .getEngine => some (.ok [.engine (if s.wasm then .wasm else .js)], s)
  | .new seed =>
      some (.ok [], { s with hashers := s.hashers ++ [⟨s.wasm, ⟨.ofInt 64 seed, []⟩, 0⟩] })
  | .call i c =>
    match s.hashers[i]? with
    | some h => do
      let (r, h) ← h.call t refused c
      return (returned r, { s with hashers := s.hashers.set i h })
    | none => some (.error (.engine .missing), s)
  | .seed i => some (propertyOf (s.hashers[i]?.map fun h => val h.log.seed), s)
  | .length i => some (propertyOf (s.hashers[i]?.map fun h => val (.ofNat 64 h.offered)), s)
  | .hash64 data seed => do
    return (returned (← idealOneshot refused s.wasm data (ideal64 t data (.ofInt 64 seed))), s)
  | .hash128 data seed => do
    return (returned (← idealOneshot refused s.wasm data (ideal128 t data (.ofInt 64 seed))), s)
  | .pure64 data seed => do return (returned (.ok (← ideal64 t data (.ofInt 64 seed))), s)
  | .pure128 data seed => do return (returned (.ok (← ideal128 t data (.ofInt 64 seed))), s)

/-- What a run should return, by which of its steps were refused memory. -/
def idealAll : List (Bool × Op) → Ideal → Option (List (Except Thrown (List Answer)) × Ideal)
  | [], s => some ([], s)
  | (refused, op) :: ops, s => do
    let (r, s) ← ideal t refused s op
    let (rs, s) ← idealAll ops s
    return (r :: rs, s)

end Hayahash.Ports.Npm
