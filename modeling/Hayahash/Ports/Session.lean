import Hayahash.C.Oneshot
import Hayahash.Lib.Arrays

/-! # Runs of calls on a streaming object

An `Object` is a streaming state of some port with its methods. A run of calls on one, updates and
digests and resets in any order, either faults or ends in a state, with what the calls returned.
`expectAll` is what the calls should return: every digest is the value of the header's function on
the bytes taken since the last reset, under the seed of that reset. -/

namespace Hayahash.Ports.Session

open Hayahash.Lib.ReadProg Hayahash.Lib.Bytes Hayahash.Lib.Checked Hayahash.C.Primitives
open Hayahash.C.Walk Hayahash.C.Oneshot

/-- A streaming object: what `new`, the updates, the digests and the resets of a port do. `κ` is
what an update takes, `ς` a seed, `ρ` what a reset takes, `α` what a call returns. -/
structure Object (κ ς ρ α σ : Type) where
  new : ς → σ
  update : σ → κ → Chk (σ × List α)
  digest64 : σ → Chk α
  digest128 : σ → Chk α
  reset : σ → ρ → σ

/-- What a call returns: a digest, or an exception. -/
inductive Answer where
  | word (x : Word)
  | pair (x : Hash128)
  | thrown
deriving DecidableEq

/-- A call. -/
inductive Call (κ ρ : Type) where
  | update (c : κ)
  | digest64
  | digest128
  | reset (r : ρ)

/-- What the types of an object mean. -/
structure Meaning (κ ς ρ α : Type) where
  seed : ς → Word
  /-- The bytes of a chunk, if it is one. -/
  bytes : κ → Option (List Byte)
  /-- The seed after a reset, by the one before. -/
  reseed : ρ → Word → Word
  word : Word → α
  pair : Hash128 → α
  /-- What an update returns for a chunk that is none. -/
  rejected : List α

/-- Chunks that are byte strings, and digests as they are. -/
def Meaning.plain {ρ : Type} (reseed : ρ → Word → Word) : Meaning (List Byte) Word ρ Answer where
  seed := id
  bytes := some
  reseed := reseed
  word := .word
  pair := .pair
  rejected := []

/-! ### Ranges of arrays -/

/-- A range of an array, as it is passed. -/
structure Range where
  data : List Byte
  offset : ℤ
  length : ℤ
deriving DecidableEq

namespace Range

/-- The bytes of the range, if it is one. -/
def bytes (r : Range) : Option (List Byte) :=
  if 0 ≤ r.offset ∧ 0 ≤ r.length ∧ r.offset + r.length ≤ r.data.length then
    some ((r.data.drop r.offset.toNat).take r.length.toNat)
  else none

/-- The array is as long as an `int` can say, and the offset and the length are `int`s. -/
def IsInt (w : Width) (r : Range) : Prop :=
  r.data.length ≤ w.maxInt ∧ -(w.maxInt : ℤ) - 1 ≤ r.offset ∧ r.offset ≤ w.maxInt ∧
    -(w.maxInt : ℤ) - 1 ≤ r.length ∧ r.length ≤ w.maxInt

/-- `offset < 0 || length < 0 || offset > data.length - length`. -/
def outside (I : Ints) (r : Range) : Chk Bool := do
  if r.offset < 0 then return true
  else if r.length < 0 then return true
  else return r.offset > (← I.sub r.data.length r.length)

end Range

/-! ### Runs -/

/-- The seed of the last reset, and the chunks taken since. -/
structure Log where
  seed : Word
  chunks : List (List Byte)
deriving DecidableEq

namespace Log

/-- The bytes taken since the last reset. -/
def bytes (log : Log) : List Byte := log.chunks.flatten

/-- The log with a chunk more. -/
def take (log : Log) (c : List Byte) : Log := { log with chunks := log.chunks ++ [c] }

end Log

variable {κ ς ρ α σ : Type} (O : Object κ ς ρ α σ) (M : Meaning κ ς ρ α) (t : Target)

/-- One call: the state after it, and what it returns. -/
def call (st : σ) : Call κ ρ → Chk (σ × List α)
  | .update c => O.update st c
  | .digest64 => do return (st, [← O.digest64 st])
  | .digest128 => do return (st, [← O.digest128 st])
  | .reset r => pure (O.reset st r, [])

/-- A run of calls. -/
def run (st : σ) : List (Call κ ρ) → Chk (σ × List α)
  | [] => pure (st, [])
  | c :: cs => do
    let (st, as) ← call O st c
    let (st, as') ← run st cs
    return (st, as ++ as')

/-- **What a call should return**, by the functions of the header. -/
def expect (log : Log) : Call κ ρ → Option (Log × List α)
  | .update c =>
    match M.bytes c with
    | some bs => some (log.take bs, [])
    | none => some (log, M.rejected)
  | .digest64 => do
    let x ← value (ofList log.bytes) (hayahash64 t log.bytes.length log.seed)
    return (log, [M.word x])
  | .digest128 => do
    let x ← value (ofList log.bytes) (hayahash128 t log.bytes.length log.seed)
    return (log, [M.pair x])
  | .reset r => some (⟨M.reseed r log.seed, []⟩, [])

/-- What a run of calls should return. -/
def expectAll (log : Log) : List (Call κ ρ) → Option (Log × List α)
  | [] => some (log, [])
  | c :: cs => do
    let (log, as) ← expect M t log c
    let (log, as') ← expectAll log cs
    return (log, as ++ as')

end Hayahash.Ports.Session
