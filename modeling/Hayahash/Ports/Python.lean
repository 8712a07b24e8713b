import Hayahash.C.Oneshot
import Hayahash.C.Stream
import Hayahash.Lib.Effects

/-! # The Python extension

`_hayahash.c`. The functions of the module and the methods of `Hasher`, on a heap of `Hasher`
objects; a call returns a value or raises, and leaves the heap. An object that is passed is what the
extension asks it (`Obj`). `fault` is what C leaves undefined: a read outside of a buffer, or an
object that is none.

The reference counts are not modelled: an object stays where it is. -/

namespace Hayahash.Ports.Python

open Hayahash.Lib.ReadProg Hayahash.Lib.Bytes Hayahash.Lib.Effects
open Hayahash.C.Primitives Hayahash.C.Walk Hayahash.C.Stream

/-! ### Objects -/

/-- What is raised. -/
inductive Exc where
  | typeError
  | overflowError
  | valueError (message : String)
  | memoryError
  /-- What an object raises when it is asked for its buffer. -/
  | raised (n : ℕ)
  | fault
deriving DecidableEq

variable (t : Target)

/-- A `Py_buffer`: a `Py_ssize_t` says how many bytes there are. -/
structure View where
  bytes : List Byte
  contiguous : Bool
  le : bytes.length ≤ t.ptrdiffMax

/-- **An object that is passed**: whether it is `None`, its value if it is an `int`, and what
`PyObject_GetBuffer` gives, or raises. -/
structure Obj where
  isNone : Bool
  int : Option ℤ
  buffer : Except ℕ (View t)

/-- `HasherObject`. -/
structure HasherObject where
  st : State
  seed : Word

/-- The objects there are. -/
abbrev Heap := List HasherObject

/-- What is returned. -/
inductive Value where
  | none
  | int (n : ℕ)
  | tuple (lo hi : ℕ)
  | hasher (i : ℕ)
  | str (s : String)
deriving DecidableEq

/-- A function of the extension. -/
abbrev Py (α : Type) := Eff Exc Heap α

/-! ### Arguments -/

variable {t}

/-- `PyLong_AsUnsignedLongLong`: the value, and what is raised. -/
def asUnsignedLongLong (o : Obj t) : Word × Option Exc :=
  match o.int with
  | .none => (-1, some .typeError)
  | some n => if 0 ≤ n ∧ n < 2 ^ 64 then (.ofInt 64 n, .none) else (-1, some .overflowError)

/-- **`parse_seed`.** -/
def parseSeed {σ : Type} : Option (Obj t) → Eff Exc σ Word
  | .none => pure 0
  | some o =>
    if o.isNone then pure 0
    else
      match asUnsignedLongLong o with
      | (value, some e) => if value = -1 then Eff.throw e else pure value
      | (value, .none) => pure value

/-- The arguments of a call: by position, and by name. -/
structure Args (t : Target) where
  args : List (Obj t)
  kwargs : List (String × Obj t)

/-- The value for a name of `kwlist`, `i` behind the front: by position or by name, not both. -/
def argument (a : Args t) (required i : ℕ) (name : String) : Except Exc (Option (Obj t)) :=
  match a.args[i]?, a.kwargs.lookup name with
  | some _, some _ => .error .typeError
  | some o, .none => .ok (some o)
  | .none, some o => .ok (some o)
  | .none, .none => if i < required then .error .typeError else .ok .none

/-- **`PyArg_ParseTupleAndKeywords`**, for `kwlist`, of which the first `required` are. -/
def parseTupleAndKeywords {σ : Type} (a : Args t) (kwlist : List String) (required : ℕ) :
    Eff Exc σ (List (Option (Obj t))) :=
  if kwlist.length < a.args.length + a.kwargs.length then Eff.throw .typeError
  else if a.kwargs.any fun kw => !kwlist.contains kw.1 then Eff.throw .typeError
  else Eff.ofExcept (kwlist.zipIdx.mapM fun name => argument a required name.2 name.1)

/-- `"|O"`: the seed. -/
def parseSeedArg {σ : Type} (a : Args t) : Eff Exc σ (Option (Obj t)) := do
  match ← parseTupleAndKeywords a ["seed"] 0 with
  | [seed] => pure seed
  | _ => Eff.throw .fault

/-- `"O|O"`: the data, and the seed. -/
def parseDataArgs {σ : Type} (a : Args t) : Eff Exc σ (Obj t × Option (Obj t)) := do
  match ← parseTupleAndKeywords a ["data", "seed"] 1 with
  | [some data, seed] => pure (data, seed)
  | _ => Eff.throw .fault

/-- `PyObject_GetBuffer`, and the test that it is contiguous. -/
def getBuffer {σ : Type} (o : Obj t) (message : String) : Eff Exc σ (List Byte) := do
  let view ← Eff.ofExcept (o.buffer.mapError .raised)
  if view.contiguous then pure view.bytes else Eff.throw (.valueError message)

/-- What has a value in C. -/
def defined {σ α : Type} (x : Option α) : Eff Exc σ α :=
  match x with
  | some a => pure a
  | .none => Eff.throw .fault

/-- A new object, if there is memory for it. -/
def alloc {σ : Type} (memory : Bool) (v : Value) : Eff Exc σ Value :=
  if memory then pure v else Eff.throw .memoryError

/-! ### Functions -/

/-- **`hayahash64(data, seed=0)`.** -/
def hayahash64 (memory : Bool) (a : Args t) : Py Value := do
  let (data, seed) ← parseDataArgs a
  let seed ← parseSeed seed
  let bytes ← getBuffer data "hayahash64() requires a C-contiguous buffer"
  let digest ← defined (value (ofList bytes) (C.Oneshot.hayahash64 t bytes.length seed))
  alloc memory (.int digest.toNat)

/-- **`hayahash128(data, seed=0)`.** -/
def hayahash128 (memory : Bool) (a : Args t) : Py Value := do
  let (data, seed) ← parseDataArgs a
  let seed ← parseSeed seed
  let bytes ← getBuffer data "hayahash128() requires a C-contiguous buffer"
  let digest ← defined (value (ofList bytes) (C.Oneshot.hayahash128 t bytes.length seed))
  alloc memory (.tuple digest.lo.toNat digest.hi.toNat)

/-! ### Methods -/

/-- The object `self`. -/
def self (i : ℕ) : Py HasherObject := do defined (← Eff.get)[i]?

/-- `self`, changed. -/
def setSelf (i : ℕ) (o : HasherObject) : Py Unit := Eff.modify fun heap => heap.set i o

/-- An object more, if there is memory for it. -/
def newObject (memory : Bool) (o : HasherObject) : Py Value := do
  let heap ← Eff.get
  let v ← alloc memory (.hasher heap.length)
  Eff.modify fun heap => heap ++ [o]
  return v

/-- **`Hasher(seed=0)`**, in memory that held `junk`. -/
def Hasher.new (junk : State) (memory : Bool) (a : Args t) : Py Value := do
  let seed ← parseSeed (← parseSeedArg a)
  newObject memory ⟨hayahash64Init junk seed, seed⟩

/-- **`update(data)`.** -/
def Hasher.update (i : ℕ) (data : Obj t) : Py Value := do
  let o ← self i
  let bytes ← getBuffer data "update() requires a C-contiguous buffer"
  let st ← defined (value (ofList bytes) (hayahash64Update t o.st bytes.length))
  setSelf i { o with st }
  return .none

/-- **`digest64()`.** -/
def Hasher.digest64 (t : Target) (memory : Bool) (i : ℕ) : Py Value := do
  let o ← self i
  let digest ← defined (value (bufMem o.st.buf) (hayahash64Digest t o.st))
  alloc memory (.int digest.toNat)

/-- **`digest128()`.** -/
def Hasher.digest128 (t : Target) (memory : Bool) (i : ℕ) : Py Value := do
  let o ← self i
  let digest ← defined (value (bufMem o.st.buf) (hayahash128Digest t o.st))
  alloc memory (.tuple digest.lo.toNat digest.hi.toNat)

/-- **`copy()`.** -/
def Hasher.copy (memory : Bool) (i : ℕ) : Py Value := do
  let o ← self i
  newObject memory ⟨o.st, o.seed⟩

/-- The seed after a reset: without a seed given, the one the hasher was built with. -/
def reseed {σ : Type} (seedObj : Option (Obj t)) (seed : Word) : Eff Exc σ Word :=
  if seedObj.all (·.isNone) then pure seed else parseSeed seedObj

/-- **`reset(seed=None)`.** -/
def Hasher.reset (i : ℕ) (a : Args t) : Py Value := do
  let o ← self i
  let seedObj ← parseSeedArg a
  let seed ← reseed seedObj o.seed
  setSelf i ⟨hayahash64Init o.st seed, seed⟩
  return .none

/-- `Hasher_get_seed`. -/
def Hasher.getSeed (memory : Bool) (i : ℕ) : Py Value := do
  let o ← self i
  alloc memory (.int o.seed.toNat)

/-- `Hasher_get_length`. -/
def Hasher.getLength (memory : Bool) (i : ℕ) : Py Value := do
  let o ← self i
  alloc memory (.int o.st.total.toNat)

/-- `"<hayahash.Hasher seed=%llu length=%llu>"`. -/
def reprText (seed length : ℕ) : String :=
  "<hayahash.Hasher seed=" ++ toString seed ++ " length=" ++ toString length ++ ">"

/-- `Hasher_repr`. -/
def Hasher.repr (memory : Bool) (i : ℕ) : Py Value := do
  let o ← self i
  alloc memory (.str (reprText o.seed.toNat o.st.total.toNat))

/-! ### Runs -/

/-- A call. -/
inductive Call (t : Target) where
  | hayahash64 (a : Args t)
  | hayahash128 (a : Args t)
  | new (a : Args t)
  | update (i : ℕ) (data : Obj t)
  | digest64 (i : ℕ)
  | digest128 (i : ℕ)
  | copy (i : ℕ)
  | reset (i : ℕ) (a : Args t)
  | getSeed (i : ℕ)
  | getLength (i : ℕ)
  | repr (i : ℕ)

/-- The object that is called, if there is one. -/
def Call.self? : Call t → Option ℕ
  | .hayahash64 _ | .hayahash128 _ | .new _ => .none
  | .update i _ | .digest64 i | .digest128 i | .copy i | .reset i _ | .getSeed i | .getLength i
  | .repr i => some i

/-- **A call**, when there is `memory` or not. -/
def Call.run (junk : State) (memory : Bool) : Call t → Py Value
  | .hayahash64 a => Python.hayahash64 memory a
  | .hayahash128 a => Python.hayahash128 memory a
  | .new a => Hasher.new junk memory a
  | .update i data => Hasher.update i data
  | .digest64 i => Hasher.digest64 t memory i
  | .digest128 i => Hasher.digest128 t memory i
  | .copy i => Hasher.copy memory i
  | .reset i a => Hasher.reset i a
  | .getSeed i => Hasher.getSeed memory i
  | .getLength i => Hasher.getLength memory i
  | .repr i => Hasher.repr memory i

/-- A run of calls, of which each may raise: what they return, and the heap then. -/
def runAll (junk : State) : List (Bool × Call t) → Heap → List (Except Exc Value) × Heap
  | [], heap => ([], heap)
  | (memory, c) :: cs, heap =>
    let (r, heap) := c.run junk memory heap
    let (rs, heap) := runAll junk cs heap
    (r :: rs, heap)

end Hayahash.Ports.Python
