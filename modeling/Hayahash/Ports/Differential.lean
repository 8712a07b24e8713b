import Hayahash.Lib.Libc
import Hayahash.Lib.Wire
import Hayahash.Ports.CSharp
import Hayahash.Ports.Go
import Hayahash.Ports.Java
import Hayahash.Ports.Python
import Hayahash.Ports.Rust
import Hayahash.Ports.Zig

/-! # The readers of the corpus

`differential_test.go`, `differential.rs`, `differential.zig`, `DifferentialTest.java`,
`DifferentialTests.cs` and `test_differential.py`. They read the same file with the means of their
language, and stop where it is not what it should be. -/

namespace Hayahash.Ports.Differential

open Hayahash.Lib.Bytes Hayahash.Lib.Checked Hayahash.Lib.Arrays Hayahash.Lib.Wire Hayahash.Lib.Libc
open Hayahash.C.Primitives Hayahash.C.Walk Hayahash.Lib.Effects

/-- Why a test fails. -/
inductive Failure where
  /-- "truncated differential corpus at byte …" -/
  | truncated (offset : ℤ)
  | magic
  | digest (caseIndex : ℕ)
  /-- The other hash differs from the low word. -/
  | narrow (caseIndex : ℕ)
  /-- "… trailing bytes in differential corpus" -/
  | trailing (count : ℤ)
  | fault (f : Fault)
  | raised (e : Ports.Python.Exc)

/-- A test, with the offset in the file. -/
abbrev Test := Cursor Failure

/-- What the language checks. -/
def checked {α : Type} : Chk α → Test α
  | .ok a => pure a
  | .error f => throw (.fault f)

/-- What the test checks. -/
def ensure (p : Prop) [Decidable p] (e : Failure) : Test Unit := if p then pure () else throw e

/-- What stands at the front. -/
def magic : List Byte := text "HAYAFZ02"

/-! ### The test -/

/-- What a reader is made of. -/
structure Harness where
  /-- A test that so many bytes are left, where there is one. -/
  requireRemaining : ℤ → Test Unit
  readU32 : Test (BitVec 32)
  readU64 : Test Word
  take : ℤ → Test View
  isMagic : List Byte → Bool
  /-- A length, as an index. -/
  index : BitVec 32 → ℤ
  /-- The comparison with the digests of the reader's own port. -/
  compare : (caseIndex : ℕ) → (input : View) → (hashSeed expectedLo expectedHi : Word) → Test Unit

namespace Harness

variable (H : Harness)

/-- The front. -/
def readMagic : Test Unit := do
  H.requireRemaining 8
  let front ← H.take 8
  ensure (H.isMagic front.bytes) .magic

/-- The bytes of a case. -/
def readInput (length : BitVec 32) : Test View := do
  H.requireRemaining (H.index length)
  H.take (H.index length)

/-- The numbers of a case, the bytes, and the comparison. -/
def readCase (caseIndex : ℕ) : Test Unit := do
  H.requireRemaining 28
  let length ← H.readU32
  let hashSeed ← H.readU64
  let expectedLo ← H.readU64
  let expectedHi ← H.readU64
  let input ← H.readInput length
  H.compare caseIndex input hashSeed expectedLo expectedHi

/-- Behind the front. -/
def readCases : Test Unit := do
  H.requireRemaining 12
  let caseCount ← H.readU32
  let _prngSeed ← H.readU64
  repeatFrom H.readCase caseCount.toNat 0

/-- **The test**, of a file of so many bytes. -/
def test (size : ℤ) : Test Unit := do
  H.readMagic
  H.readCases
  let offset ← get
  ensure (offset = size) (.trailing (size - offset))

/-- The test passes. -/
def passes (corpus : List Byte) : Bool := ((H.test corpus.length).run 0).isOk

end Harness

/-- The digests of a port are what is expected, and agree. -/
def compareWith (hash128 : View → Word → Chk Hash128) (hash64 : View → Word → Chk Word)
    (caseIndex : ℕ) (input : View) (hashSeed expectedLo expectedHi : Word) : Test Unit := do
  let actual ← checked (hash128 input hashSeed)
  ensure (actual.lo = expectedLo ∧ actual.hi = expectedHi) (.digest caseIndex)
  let low ← checked (hash64 input hashSeed)
  ensure (low = actual.lo) (.narrow caseIndex)

/-! ### Readers that take slices -/

section Slices
variable (I : Ints) (corpus : List Byte)

/-- `corpus[offset .. offset + n]`, and on. -/
def slice (n : ℤ) : Test View := do
  let offset ← get
  let fin ← checked (I.add offset n)
  let value ← checked ((View.all corpus).part offset fin)
  set fin
  return value

/-- A number of `n` bytes, from a slice. -/
def fromSlice {α : Type} (take : ℤ → Test View) (n : ℤ) (read : View → ℤ → Chk α) : Test α := do
  let bytes ← take n
  checked (read bytes 0)

/-- `take`, where the sum may overflow. -/
def takeChecked (n : ℤ) : Test View := do
  let offset ← get
  match I.add offset n with
  | .ok fin =>
    ensure (fin ≤ corpus.length) (.truncated offset)
    slice I corpus n
  | .error _ => throw (.truncated offset)

theorem takeChecked_at (n offset : ℤ) : takeChecked I corpus n offset =
    (match I.add offset n with
      | .ok fin => ensure (fin ≤ corpus.length) (.truncated offset) >>= fun _ => slice I corpus n
      | .error _ => throw (.truncated offset) : Test View) offset := rfl

end Slices

/-- An index type of 32 bits at least. -/
abbrev Index := { w : Width // 32 ≤ w.bits }

/-- `take` of `differential_test.go`. -/
def goTake (w : Index) (corpus : List Byte) (n : ℤ) : Test View := do
  let offset ← get
  ensure (0 ≤ n) (.truncated offset)
  let room ← checked (w.val.signed.sub corpus.length n)
  ensure (offset ≤ room) (.truncated offset)
  slice w.val.signed corpus n

/-- **`TestDifferentialConformance`.** -/
def go (w : Index) (corpus : List Byte) : Harness where
  requireRemaining _ := pure ()
  readU32 := fromSlice (goTake w corpus) 4 View.read32
  readU64 := fromSlice (goTake w corpus) 8 View.read64
  take := goTake w corpus
  isMagic front := front = magic
  index length := (length.toNat : ℤ).bmod (2 ^ w.val.bits)
  compare := compareWith (Go.hash128 w.val) (Go.hash64 w.val)

/-- **`randomized_c_reference_corpus`.** -/
def rust (w : Index) (corpus : List Byte) : Harness where
  requireRemaining _ := pure ()
  readU32 := fromSlice (takeChecked w.val.unsigned corpus) 4 View.read32
  readU64 := fromSlice (takeChecked w.val.unsigned corpus) 8 View.read64
  take := takeChecked w.val.unsigned corpus
  isMagic front := front = magic
  index length := (length.toNat % 2 ^ w.val.bits : ℕ)
  compare := compareWith (Rust.hayahash128 w.val) (Rust.hayahash64 w.val)

/-- **`randomized C-reference corpus`**, of `differential.zig`. -/
def zig (w : Index) (corpus : List Byte) : Harness where
  requireRemaining _ := pure ()
  readU32 := fromSlice (takeChecked w.val.unsigned corpus) 4 View.read32
  readU64 := fromSlice (takeChecked w.val.unsigned corpus) 8 View.read64
  take := takeChecked w.val.unsigned corpus
  isMagic front := front = magic
  index length := length.toNat
  compare := compareWith (Zig.hayahash128 w.val) (Zig.hayahash64 w.val)

/-! ### Readers that look ahead -/

section Ahead
variable (I : Ints) (corpus : List Byte)

/-- `requireRemaining`. -/
def requireRemaining (n : ℤ) : Test Unit := do
  let cursor ← get
  ensure (0 ≤ n) (.truncated cursor)
  let remaining ← checked (I.sub corpus.length cursor)
  ensure (n ≤ remaining) (.truncated cursor)

/-- A number of `n` bytes, from what is left. -/
def field {α : Type} (n : ℤ) (read : View → ℤ → Chk α) : Test α := do
  let cursor ← get
  let left ← checked ((View.all corpus).suffix cursor)
  let x ← checked (read left 0)
  let next ← checked (I.add cursor n)
  set next
  return x

end Ahead

/-- **`randomizedCReferenceCorpus`.** -/
def java (corpus : List Byte) : Harness where
  requireRemaining := requireRemaining Java.int.signed corpus
  readU32 := field Java.int.signed corpus 4 View.read32
  readU64 := field Java.int.signed corpus 8 View.read64
  take := slice Java.int.signed corpus
  isMagic front := front = magic
  index length := length.toInt
  compare := compareWith (fun input => Java.hash128Range (.all corpus) input.off input.len)
    fun input => Java.hash64Range (.all corpus) input.off input.len

/-- A byte that is no character of `Encoding.ASCII` is read as `?`. -/
def ascii (c : Byte) : Byte := if c < 0x80 then c else char '?'

/-- **`RandomizedCReferenceCorpus`.** -/
def csharp (corpus : List Byte) : Harness where
  requireRemaining := requireRemaining CSharp.int.signed corpus
  readU32 := field CSharp.int.signed corpus 4 View.read32
  readU64 := field CSharp.int.signed corpus 8 View.read64
  take := slice CSharp.int.signed corpus
  isMagic front := front.map ascii = magic
  index length := length.toInt
  compare := compareWith (fun input => CSharp.hash128Range corpus input.off input.len)
    fun input => CSharp.hash64Range corpus input.off input.len

section Python
variable (t : Target) (corpus : List Byte)

/-- `data[cursor : cursor + n]`, which is shorter where there is not enough, and on. -/
def pythonSlice (n : ℤ) : Test View := do
  let cursor ← get
  set (cursor + n)
  return ⟨corpus, min cursor corpus.length,
    min (cursor + n) corpus.length - min cursor corpus.length⟩

/-- `input_data`. There is no object of more bytes than a `Py_ssize_t` says. -/
def inputData (input : View) : Python.Obj t where
  isNone := false
  int := none
  buffer := if h : input.bytes.length ≤ t.ptrdiffMax then .ok ⟨input.bytes, true, h⟩ else .error 0

/-- An `int`, which is no buffer. -/
def pythonInt (x : Word) : Python.Obj t := ⟨false, some x.toNat, .error 0⟩

/-- `(input_data, hash_seed)`. -/
def arguments (input : View) (hashSeed : Word) : Python.Args t :=
  ⟨[inputData t input, pythonInt t hashSeed], []⟩

/-- A call of the extension, which leaves no object behind. -/
def called (x : Python.Py Python.Value) : Test Python.Value :=
  match (x []).1 with
  | .ok v => pure v
  | .error e => throw (.raised e)

/-- The tuple is what is expected, and its first component is the other hash. -/
def pythonCompare (caseIndex : ℕ) (input : View) (hashSeed expectedLo expectedHi : Word) :
    Test Unit := do
  let actual ← called (Python.hayahash128 true (arguments t input hashSeed))
  ensure (actual = .tuple expectedLo.toNat expectedHi.toNat) (.digest caseIndex)
  -- by now `actual[0]` is the expected low word
  let low ← called (Python.hayahash64 true (arguments t input hashSeed))
  ensure (low = .int expectedLo.toNat) (.narrow caseIndex)

/-- **`test_randomized_c_reference_corpus`.** -/
def python : Harness where
  requireRemaining := requireRemaining .exact corpus
  readU32 := field .exact corpus 4 View.read32
  readU64 := field .exact corpus 8 View.read64
  take := pythonSlice corpus
  isMagic front := front = magic
  index length := length.toNat
  compare := pythonCompare t

end Python

/-! ### All of them -/

/-- The limit of `differential.zig` on the file. -/
def zigLimit : ℕ := 512 * 1024 * 1024

/-- A reader. Whether a file that just reaches the limit is too long is up to the library of Zig. -/
inductive Reader where
  | go (w : Index)
  | rust (w : Index)
  | zig (w : Index) (reached : Bool)
  | java
  | csharp
  | python (t : Target)

namespace Reader

/-- How many bytes a file may have: what the index type can count, and in `differential.zig` a
limit. -/
def limit : Reader → ℕ
  | .go w => w.val.maxInt
  | .rust w => w.val.maxInt
  | .zig w reached => min (2 * w.val.maxInt + 1) (if reached then zigLimit - 1 else zigLimit)
  | .java => Java.int.maxInt
  | .csharp => CSharp.int.maxInt
  | .python t => t.ptrdiffMax

def harness (corpus : List Byte) : Reader → Harness
  | .go w => Differential.go w corpus
  | .rust w => Differential.rust w corpus
  | .zig w _ => Differential.zig w corpus
  | .java => Differential.java corpus
  | .csharp => Differential.csharp corpus
  | .python t => Differential.python t corpus

/-- The file is read, on a platform with room for so many bytes. -/
def Loads (r : Reader) (room : ℕ) (file : List Byte) : Prop :=
  file.length ≤ room ∧ file.length ≤ r.limit

instance (r : Reader) (room : ℕ) (file : List Byte) : Decidable (r.Loads room file) :=
  inferInstanceAs (Decidable (_ ∧ _))

/-- The test of a reader passes: the file is read (in Zig, with no `error.StreamTooLong`), and is
what it should be. -/
def accepts (r : Reader) (room : ℕ) (file : List Byte) : Bool :=
  decide (r.Loads room file) && (r.harness file).passes file

end Reader

end Hayahash.Ports.Differential
