import Hayahash.Refine.Mips.Runs
import Hayahash.Refine.Oneshot

/-! # The MIPS64 assembly is the header

**`mips`**: a call returns, with the words of the header, and with the registers it has to keep; in
between it reads the key and its own frame only, and writes the frame only. -/

namespace Hayahash.Main.Mips

open Hayahash.Lib.ReadProg Hayahash.Lib.Bytes Hayahash.Lib.Mips
open Hayahash.Ports.Mips Hayahash.Spec.Reference Hayahash.Refine.Mips.Runs
open Hayahash.Refine.Oneshot
open Hayahash.C.Primitives (Target)
open Hayahash.C.Oneshot (hayahash64 hayahash128)

/-- **The assembly is the header**, in either byte order, for every length below `2 ^ 63` and every
seed: the runs from both labels halt at the caller, on a bus on which nothing but the key can be
read, and nothing but the frame read and written. -/
theorem mips (c : Call) (hc : c.Valid) (t : Target) :
    ∃ x y, value c.mem (hayahash64 t c.n c.seed) = some x ∧
    value c.mem (hayahash128 t c.n c.seed) = some y ∧
      Halts c.bus text (c.enter .hayahash64) (fun a s => c.Returns a s ∧ s.get .v0 = x) ∧
      Halts c.bus text (c.enter .hayahash128) (fun a s => c.Returns a s ∧ s.get .v0 = y.lo ∧
        s.get .v1 = y.hi) := by
  refine ⟨_, _, (runs_hayahash64 t c.mem c.n c.seed).value_eq,
    (runs_hayahash128 t c.mem c.n c.seed).value_eq,
    (hayahash64_goes hc).mono fun a s h => ⟨h.1, h.2.1⟩,
    (hayahash128_goes hc).mono fun a s h => ⟨h.1, h.2.1, h.2.2 (by decide)⟩⟩

/-- Three bytes at `0x1000`, on a big-endian machine. -/
def threeBytes : Call where
  big := true
  n := 3
  start :=
    { reg := fun
        | .a0 => 0x1000
        | .a1 => 3
        | .a2 => 7
        | .sp => 0x8000
        | .ra => 0x400
        | _ => 0
      hi := 0
      lo := 0
      mem := fun a => (a - 0xFFF).setWidth 8 }

theorem threeBytes_valid : threeBytes.Valid where
  length := rfl
  lt := by decide
  aligned := by decide
  apart a ha := by
    have hkey : threeBytes.key = 0x1000 := rfl
    have hframe : threeBytes.frame = 0x7F80 := by decide
    have hlt := of_decide_eq_true ha
    have hn : threeBytes.n = 3 := rfl
    rw [hkey, hn] at hlt
    rw [Call.inFrame, hframe]
    refine decide_eq_false ?_
    bv_omega

/-- The three bytes are hashed. -/
theorem mips_three :
    ∃ x y, value threeBytes.mem (hayahash64 ⟨.x86_64, .gcc, false, .little, .w64⟩ 3 7) = some x ∧
    value threeBytes.mem (hayahash128 ⟨.x86_64, .gcc, false, .little, .w64⟩ 3 7) = some y ∧
    Halts threeBytes.bus text (threeBytes.enter .hayahash64)
      (fun a s => threeBytes.Returns a s ∧ s.get .v0 = x) ∧
    Halts threeBytes.bus text (threeBytes.enter .hayahash128)
      (fun a s => threeBytes.Returns a s ∧ s.get .v0 = y.lo ∧ s.get .v1 = y.hi) :=
  mips threeBytes threeBytes_valid ⟨.x86_64, .gcc, false, .little, .w64⟩

end Hayahash.Main.Mips
