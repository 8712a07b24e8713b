import Hayahash.Lib.Bits

/-! # Generators that count

A generator whose state is moved by a fixed odd step, and whose words are what a bijection makes of
the states. No word comes twice before all have come (`Counter.word_injective`). -/

namespace Hayahash.Lib.Weyl

open Function Hayahash.Lib.Bits

/-- **A generator** of words of `w` bits. -/
structure Counter (w : ℕ) where
  step : BitVec w
  odd : step.toNat % 2 = 1
  out : BitVec w → BitVec w
  bijective : Bijective out

namespace Counter

variable {w : ℕ} (C : Counter w)

/-- The state after `k` words. -/
def state (s : BitVec w) (k : ℕ) : BitVec w := s + .ofNat w k * C.step

/-- The word `k`. -/
def word (s : BitVec w) (k : ℕ) : BitVec w := C.out (C.state s (k + 1))

theorem state_zero (s : BitVec w) : C.state s 0 = s := by
  rw [state, BitVec.zero_mul, BitVec.add_zero]

theorem state_succ (s : BitVec w) (k : ℕ) : C.state s (k + 1) = C.state s k + C.step := by
  rw [state, state, BitVec.ofNat_add, BitVec.add_mul, BitVec.one_mul, BitVec.add_assoc]

variable {C}

/-- **No word comes twice** before all have come. -/
theorem word_injective {s : BitVec w} {j k : ℕ} (hw : 0 < w) (hj : j < 2 ^ w) (hk : k < 2 ^ w)
    (h : C.word s j = C.word s k) : j = k := by
  have hstate : C.state s (j + 1) = C.state s (k + 1) := C.bijective.1 h
  rw [state_succ, state_succ] at hstate
  have hadd : C.state s j = C.state s k := (add_bijective C.step).1 hstate
  have hmul : BitVec.ofNat w j * C.step = BitVec.ofNat w k * C.step := by
    rwa [state, state, BitVec.add_right_inj] at hadd
  have hnat : BitVec.ofNat w j = BitVec.ofNat w k :=
    ((mul_bijective_iff hw C.step).mpr C.odd).1 hmul
  have hval := congrArg BitVec.toNat hnat
  rwa [BitVec.toNat_ofNat, BitVec.toNat_ofNat, Nat.mod_eq_of_lt hj, Nat.mod_eq_of_lt hk] at hval

end Counter

end Hayahash.Lib.Weyl
