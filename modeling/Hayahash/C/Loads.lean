import Hayahash.C.Primitives

/-! # The loads read little-endian words

Whatever the byte order of the host, `load64le` and `load32le` return the little-endian word of the
bytes (`decode64_eq`, `decode32_eq`): on a big-endian host each stage of the swap network exchanges
bytes at a distance of 4, 2 and 1 (`swap_stage`), and an explicit assembly puts every byte in its
place. So the rest of the development reads words with `word64` and never asks for the host. -/

namespace Hayahash.C.Loads

open Hayahash.Lib.Bytes Hayahash.C.Primitives

/-! ### The swap network -/

/-- **One stage of the network** exchanges bytes at distance `d`: `mask` keeps the bytes whose index
has the bit `d` off. -/
theorem swap_stage {d : ℕ} (mask v : Word) (hd : d = 4 ∨ d = 2 ∨ d = 1)
    (hmask : ∀ j < 8, ∀ r < 8, mask.getLsbD (8 * j + r) = decide (j &&& d = 0)) {j r : ℕ}
    (hj : j < 8) (hr : r < 8) :
    (((v &&& mask) <<< (8 * d)) ||| ((v >>> (8 * d)) &&& mask)).getLsbD (8 * j + r) =
      v.getLsbD (8 * (j ^^^ d) + r) := by
  simp only [BitVec.getLsbD_or, BitVec.getLsbD_shiftLeft, BitVec.getLsbD_and,
    BitVec.getLsbD_ushiftRight, hmask j hj r hr]
  have hon : ∀ j < 8, j &&& d = 0 →
      j ^^^ d = j + d ∧ (j < d ∨ d ≤ j ∧ ¬ (j - d) &&& d = 0) := by
    rcases hd with rfl | rfl | rfl <;> decide
  have hoff : ∀ j < 8, ¬ j &&& d = 0 → d ≤ j ∧ j ^^^ d = j - d ∧ (j - d) &&& d = 0 := by
    rcases hd with rfl | rfl | rfl <;> decide
  have hsub : d ≤ j → mask.getLsbD (8 * j + r - 8 * d) = decide ((j - d) &&& d = 0) := fun h => by
    have hpos : 8 * (j - d) + r = 8 * j + r - 8 * d := by omega
    rw [← hmask (j - d) (by omega) r hr, hpos]
  by_cases h : j &&& d = 0
  · -- the byte comes from above
    obtain ⟨h1, h2⟩ := hon j hj h
    have hpos : 8 * (j + d) + r = 8 * d + (8 * j + r) := by omega
    rw [h1, hpos]
    rcases h2 with h2 | ⟨h2, h3⟩
    · have hlt : 8 * j + r < 8 * d := by omega
      simp [h, hlt]
    · simp [h, hsub h2, h3]
  · -- the byte comes from below
    obtain ⟨h1, h2, h3⟩ := hoff j hj h
    have hpos : 8 * (j - d) + r = 8 * j + r - 8 * d := by omega
    have hge : ¬8 * j + r < 8 * d := by omega
    have hlt : 8 * j + r < 64 := by omega
    rw [h2, hpos]
    simp [h, hsub h1, h3, hge, hlt]

theorem getLsbD_be64 (b : Fin 8 → Byte) (j : Fin 8) {r : ℕ} (hr : r < 8) :
    (be64 b).getLsbD (8 * j + r) = (b (7 - j)).getLsbD r := by
  unfold be64
  simp only [BitVec.getLsbD_append]
  fin_cases j <;> simp <;> grind

theorem swap64_be64 (b : Fin 8 → Byte) : swap64 (be64 b) = le64 b := by
  have hm4 : ∀ j < 8, ∀ r < 8,
      (0x00000000FFFFFFFF#64).getLsbD (8 * j + r) = decide (j &&& 4 = 0) := by decide
  have hm2 : ∀ j < 8, ∀ r < 8,
      (0x0000FFFF0000FFFF#64).getLsbD (8 * j + r) = decide (j &&& 2 = 0) := by decide
  have hm1 : ∀ j < 8, ∀ r < 8,
      (0x00FF00FF00FF00FF#64).getLsbD (8 * j + r) = decide (j &&& 1 = 0) := by decide
  -- the first stage masks one side only, which the shift has cleared already
  have h32 : ∀ v : Word, v >>> 32 = (v >>> 32) &&& 0x00000000FFFFFFFF#64 := by
    intro v
    refine BitVec.eq_of_toNat_eq ?_
    rw [BitVec.toNat_and, BitVec.toNat_ushiftRight]
    have := v.isLt
    rw [show (0x00000000FFFFFFFF#64).toNat = 2 ^ 32 - 1 by decide, Nat.and_two_pow_sub_one_eq_mod,
      Nat.shiftRight_eq_div_pow, Nat.mod_eq_of_lt (by omega)]
  refine eq_of_bytes 8 fun j r hr => ?_
  have hx : ∀ j : Fin 8, (j : ℕ) ^^^ 1 < 8 ∧ (j : ℕ) ^^^ 1 ^^^ 2 < 8 ∧
      (j : ℕ) ^^^ 1 ^^^ 2 ^^^ 4 = ((7 - j : Fin 8) : ℕ) := by decide
  obtain ⟨h1, h2, h3⟩ := hx j
  unfold swap64
  rw [h32 (be64 b), swap_stage _ _ (.inr (.inr rfl)) hm1 j.isLt hr,
    swap_stage _ _ (.inr (.inl rfl)) hm2 h1 hr, swap_stage _ _ (.inl rfl) hm4 h2 hr, h3,
    getLsbD_be64 b _ hr, getLsbD_le64 b j hr]
  congr 2
  omega

theorem swap32_be32 (b : Fin 4 → Byte) : swap32 (be32 b) = le32 b := by
  have hbe : ∀ (j : Fin 4) {r : ℕ}, r < 8 →
      (be32 b).getLsbD (8 * j + r) = (b (3 - j)).getLsbD r := by
    intro j r hr
    unfold be32
    simp only [BitVec.getLsbD_append]
    fin_cases j <;> simp <;> grind
  have hmask : ∀ r < 8, (0xFF00#32).getLsbD r = false ∧ (0xFF00#32).getLsbD (8 + r) = true ∧
      (0xFF00#32).getLsbD (16 + r) = false ∧ (0xFF00#32).getLsbD (24 + r) = false := by decide
  refine eq_of_bytes 4 fun j r hr => ?_
  rw [getLsbD_le32 b j hr]
  have h0 := hbe 0 hr
  have h1 := hbe 1 hr
  have h2 := hbe 2 hr
  have h3 := hbe 3 hr
  obtain ⟨m0, m1, m2, m3⟩ := hmask r hr
  unfold swap32
  simp only [BitVec.getLsbD_or, BitVec.getLsbD_shiftLeft, BitVec.getLsbD_and,
    BitVec.getLsbD_ushiftRight]
  fin_cases j <;> simp at * <;> grind

theorem decode64_eq (e : Endian) (b : Fin 8 → Byte) : decode64 e b = le64 b := by
  cases e with
  | little => rfl
  | big => exact swap64_be64 b
  | unknown =>
    refine eq_of_bytes 8 fun j r hr => ?_
    rw [getLsbD_le64 b j hr]
    simp only [decode64, BitVec.getLsbD_or, BitVec.getLsbD_shiftLeft, BitVec.getLsbD_setWidth]
    fin_cases j <;> simp <;> grind

theorem decode32_eq (e : Endian) (b : Fin 4 → Byte) : decode32 e b = (le32 b).setWidth 64 := by
  cases e with
  | little => rfl
  | big => rw [decode32, swap32_be32]
  | unknown =>
    refine eq_of_bytes 8 fun j r hr => ?_
    have h0 := getLsbD_le32 b 0 hr
    have h1 := getLsbD_le32 b 1 hr
    have h2 := getLsbD_le32 b 2 hr
    have h3 := getLsbD_le32 b 3 hr
    simp only [decode32, BitVec.getLsbD_or, BitVec.getLsbD_shiftLeft, BitVec.getLsbD_setWidth]
    fin_cases j <;> simp at * <;> grind

end Hayahash.C.Loads
