import Hayahash.Lib.Checked

/-! # Words in integers without bounds

Code that has only unbounded integers masks them to 64 bits. Here the operations that look at bits
are checked: they fault unless their operands are in `[0, 2 ^ 64)`, so that a computation without
faults has never forgotten a mask. `val` is a word as such an integer; sums and products need a mask
only at the end (`mask_eq`). -/

namespace Hayahash.Lib.Bigint

open Hayahash.Lib.Checked

/-- `x & (2 ** 64 - 1)`. -/
def mask (x : ℤ) : ℤ := x % 2 ^ 64

/-- The bits of an integer in `[0, 2 ^ 64)`. -/
def bits (x : ℤ) : Chk (BitVec 64) :=
  if 0 ≤ x ∧ x < 2 ^ 64 then pure (.ofInt 64 x) else throw .overflow

/-- A word, as an integer. -/
def val (x : BitVec 64) : ℤ := x.toNat

/-- `a ^ b`. -/
def bxor (a b : ℤ) : Chk ℤ := do return val ((← bits a) ^^^ (← bits b))

/-- `a | b`. -/
def bor (a b : ℤ) : Chk ℤ := do return val ((← bits a) ||| (← bits b))

/-- `x >> n`. -/
def shr (x : ℤ) (n : ℕ) : Chk ℤ := do return val ((← bits x) >>> n)

/-- `(a | b) & (2 ** 64 - 1)`, of integers that are not negative. -/
def maskedOr (a b : ℤ) : Chk ℤ :=
  if 0 ≤ a ∧ 0 ≤ b then pure (((a.toNat ||| b.toNat) % 2 ^ 64 : ℕ) : ℤ) else throw .overflow

theorem mask_eq (x : ℤ) : mask x = val (.ofInt 64 x) := by
  rw [mask, val, BitVec.toNat_ofInt, Int.toNat_of_nonneg (Int.emod_nonneg _ (by decide))]
  rfl

@[simp] theorem ofInt_val (x : BitVec 64) : BitVec.ofInt 64 (val x) = x := by
  rw [val, BitVec.ofInt_natCast, BitVec.ofNat_toNat, BitVec.setWidth_eq]

theorem val_inj {x y : BitVec 64} (h : val x = val y) : x = y := by
  rw [← ofInt_val x, h, ofInt_val]

@[simp] theorem bits_val (x : BitVec 64) : bits (val x) = pure x := by
  have hlt := x.isLt
  rw [bits, if_pos, ofInt_val]
  unfold val
  omega

@[simp] theorem bxor_val (a b : BitVec 64) : bxor (val a) (val b) = pure (val (a ^^^ b)) := by
  simp [bxor]

@[simp] theorem bor_val (a b : BitVec 64) : bor (val a) (val b) = pure (val (a ||| b)) := by
  simp [bor]

@[simp] theorem shr_val (x : BitVec 64) (n : ℕ) : shr (val x) n = pure (val (x >>> n)) := by
  simp [shr]

theorem maskedOr_val (x y : BitVec 64) (n : ℕ) :
    maskedOr (val x * 2 ^ n) (val y) = pure (val ((x <<< n) ||| y)) := by
  have hshift : val x * 2 ^ n = ((x.toNat <<< n : ℕ) : ℤ) := by
    rw [val, Nat.shiftLeft_eq, Nat.cast_mul, Nat.cast_pow]
    rfl
  rw [maskedOr, hshift, if_pos ⟨Int.natCast_nonneg _, Int.natCast_nonneg _⟩,
    Int.toNat_natCast, val, val, Int.toNat_natCast, BitVec.toNat_or, BitVec.toNat_shiftLeft,
    Nat.or_mod_two_pow, Nat.mod_eq_of_lt y.isLt]

theorem mask_add (a b : BitVec 64) : mask (val a + val b) = val (a + b) := by
  rw [mask_eq, BitVec.ofInt_add, ofInt_val, ofInt_val]

theorem mask_mul (a b : BitVec 64) : mask (val a * val b) = val (a * b) := by
  rw [mask_eq, BitVec.ofInt_mul, ofInt_val, ofInt_val]

/-- **A sum that is masked only behind the product.** -/
theorem mask_add_mul (a b c : BitVec 64) : mask ((val a + val b) * val c) = val ((a + b) * c) := by
  rw [mask_eq, BitVec.ofInt_mul, BitVec.ofInt_add, ofInt_val, ofInt_val, ofInt_val]

theorem mask_shl (x : BitVec 64) (n : ℕ) : mask (val x * 2 ^ n) = val (x <<< n) := by
  rw [mask, val, val, BitVec.toNat_shiftLeft, Nat.shiftLeft_eq]
  push_cast
  rfl

theorem val_shr (x : BitVec 64) (n : ℕ) : val x / 2 ^ n = val (x >>> n) := by
  rw [val, val, BitVec.toNat_ushiftRight, Nat.shiftRight_eq_div_pow]
  push_cast
  rfl

theorem val_shl {k n : ℕ} (x : BitVec k) (hn : k + n ≤ 64) :
    val (x.setWidth 64) * 2 ^ n = val (x.setWidth 64 <<< n) := by
  have hk : 2 ^ k ≤ 2 ^ 64 := Nat.pow_le_pow_right (by decide) (by omega)
  have hsame : (x.setWidth 64).toNat = x.toNat := by
    rw [BitVec.toNat_setWidth]
    exact Nat.mod_eq_of_lt (x.isLt.trans_le hk)
  have hlt : x.toNat * 2 ^ n < 2 ^ 64 := calc
    x.toNat * 2 ^ n < 2 ^ k * 2 ^ n := Nat.mul_lt_mul_of_pos_right x.isLt (Nat.two_pow_pos n)
    _ = 2 ^ (k + n) := (Nat.pow_add 2 k n).symm
    _ ≤ 2 ^ 64 := Nat.pow_le_pow_right (by decide) hn
  rw [val, val, BitVec.toNat_shiftLeft, Nat.shiftLeft_eq, hsame, Nat.mod_eq_of_lt hlt]
  push_cast
  rfl

theorem val_shl_byte (x : BitVec 8) {n : ℕ} (hn : n ≤ 56) :
    val (x.setWidth 64) * 2 ^ n = val (x.setWidth 64 <<< n) := val_shl x (by omega)

theorem bor_byte {k : ℕ} (x : BitVec k) (b : BitVec 8) (hk : k ≤ 56) :
    bor (val (x.setWidth 64) * 2 ^ 8) (val (b.setWidth 64)) =
      pure (val ((x ++ b).setWidth 64)) := by
  have hput : x.setWidth 64 <<< 8 ||| b.setWidth 64 = (x ++ b).setWidth 64 := by
    refine BitVec.eq_of_getLsbD_eq fun i hi => ?_
    simp only [BitVec.getLsbD_or, BitVec.getLsbD_shiftLeft, BitVec.getLsbD_setWidth,
      BitVec.getLsbD_append]
    by_cases h8 : i < 8
    · simp [hi, h8]
    · have hb : b.getLsbD i = false := BitVec.getLsbD_of_ge b i (by omega)
      have hi8 : i - 8 < 64 := by omega
      simp [hi, h8, hb, hi8]
  rw [val_shl x (by omega), bor_val, hput]

end Hayahash.Lib.Bigint
