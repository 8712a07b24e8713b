import Hayahash.Ports.Differential
import Hayahash.Spec.Reference

/-! # The corpus

A file that the ports are tested with: cases, each with the digest that is expected. A corpus is
*right* if these are the digests of the algorithm. `format` is the format of right corpora: its
values are those in which every length and the number of cases fit in a `u32` (`format_valid`), and
a corpus is written as its `bytes` (`format_write`). -/

namespace Hayahash.Spec.Corpora

open Hayahash.Lib.Bytes Hayahash.Lib.Wire Hayahash.Lib.Wire.Format
open Hayahash.C.Primitives Hayahash.Spec.Reference
open Hayahash.Ports.Differential (magic)

/-! ### Corpora -/

/-- The bytes of a word. -/
def bytes64 (x : Word) : List Byte := (List.range 8).map (byteOf x)

/-- A case: what is hashed, with which seed, and what is expected. -/
structure Case where
  data : List Byte
  seed : Word
  lo : Word
  hi : Word
deriving DecidableEq

namespace Case

/-- The length, as the file has it. -/
def length (c : Case) : BitVec 32 := .ofNat 32 c.data.length

/-- A case in the file. -/
def bytes (c : Case) : List Byte :=
  bytes32 c.length ++ (bytes64 c.seed ++ (bytes64 c.lo ++ (bytes64 c.hi ++ c.data)))

/-- What is expected is the digest. -/
def Right (c : Case) : Prop := compact128 (ofList c.data) c.data.length c.seed = ⟨c.lo, c.hi⟩

/-- The length is what the file says. -/
def Fits (c : Case) : Prop := c.data.length < 2 ^ 32

/-- The fields, in the order of the file. -/
def fields (c : Case) : BitVec 32 × Word × Word × Word × List Byte :=
  (c.length, c.seed, c.lo, c.hi, c.data)

theorem fields_injective : Function.Injective fields := by
  rintro ⟨data, seed, lo, hi⟩ ⟨data', seed', lo', hi'⟩ h
  simp only [fields, Prod.mk.injEq] at h
  obtain ⟨-, rfl, rfl, rfl, rfl⟩ := h
  rfl

theorem length_toNat {c : Case} : c.length.toNat = c.data.length ↔ c.Fits := by
  rw [length, BitVec.toNat_ofNat, Nat.mod_eq_iff_lt (by decide), Fits]

/-- The format of right cases. -/
def format : Format Byte Case :=
  ((coded .word32).dep fun length => (coded .word64).dep fun seed => (coded .word64).dep fun lo =>
    (coded .word64).dep fun hi => (chunk length.toNat).such fun data =>
      compact128 (ofList data) data.length seed = ⟨lo, hi⟩).through fields fields_injective

theorem format_valid (c : Case) : format.Valid c ↔ c.Fits ∧ c.Right := by
  show True ∧ True ∧ True ∧ True ∧ c.data.length = c.length.toNat ∧ c.Right ↔ _
  rw [true_and, true_and, true_and, true_and, eq_comm, length_toNat]

end Case

/-- **A corpus**: the seed it was made from, which is noted only, and the cases. -/
structure Corpus where
  seed : Word
  cases : List Case
deriving DecidableEq

namespace Corpus

/-- The file. -/
def bytes (c : Corpus) : List Byte :=
  magic ++ (bytes32 (.ofNat 32 c.cases.length) ++ (bytes64 c.seed ++ c.cases.flatMap Case.bytes))

/-- Lengths and counts are what the file says. -/
structure Fits (c : Corpus) : Prop where
  count : c.cases.length < 2 ^ 32
  each : ∀ x ∈ c.cases, x.Fits

/-- Every digest is right. -/
def Right (c : Corpus) : Prop := ∀ x ∈ c.cases, x.Right

/-- The fields, in the order of the file. -/
def fields (c : Corpus) : List Byte × BitVec 32 × Word × List Case :=
  (magic, .ofNat 32 c.cases.length, c.seed, c.cases)

theorem fields_injective : Function.Injective fields := by
  rintro ⟨seed, cases⟩ ⟨seed', cases'⟩ h
  simp only [fields, Prod.mk.injEq] at h
  obtain ⟨-, -, rfl, rfl⟩ := h
  rfl

/-- **The format of right corpora.** -/
def format : Format Byte Corpus :=
  (((chunk 8).such (· = magic)).dep fun _ => (coded .word32).dep fun count =>
    (coded .word64).dep fun _ =>
    Case.format.times count.toNat).through fields fields_injective

theorem format_valid (c : Corpus) : format.Valid c ↔ c.Fits ∧ c.Right := by
  have hcount : c.cases.length = (BitVec.ofNat 32 c.cases.length).toNat ↔ c.cases.length <
    2 ^ 32 := by
    rw [BitVec.toNat_ofNat, eq_comm, Nat.mod_eq_iff_lt (by decide)]
  show (magic.length = 8 ∧ magic = magic) ∧ True ∧ True ∧
    c.cases.length = (BitVec.ofNat 32 c.cases.length).toNat ∧
    (∀ x ∈ c.cases, Case.format.Valid x) ↔ _
  rw [hcount]
  simp only [Case.format_valid]
  have hmagic : magic.length = 8 := rfl
  constructor
  · rintro ⟨-, -, -, hlt, hall⟩
    exact ⟨⟨hlt, fun x hx => (hall x hx).1⟩, fun x hx => (hall x hx).2⟩
  · rintro ⟨⟨hlt, hfits⟩, hright⟩
    exact ⟨⟨hmagic, trivial⟩, trivial, trivial, hlt, fun x hx => ⟨hfits x hx, hright x hx⟩⟩

theorem format_write (c : Corpus) : format.write c = c.bytes := rfl

end Corpus

end Hayahash.Spec.Corpora
