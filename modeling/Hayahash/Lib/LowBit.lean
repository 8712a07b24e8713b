import Mathlib.Data.BitVec

/-! # The lowest bit in which two words differ

Xor with a common word, addition of a common word and multiplication by an invertible word all keep
the lowest differing bit of two words (`LowDiff.xor`, `LowDiff.add`, `LowDiff.mul`), because each of
them acts on the low `v` bits alone (`Agree`). So a difference can be followed through any chain of
them, and adding two words that differ lowest in bit `p` to words that differ lowest in bit `v ≠ p`
leaves the smaller of the two (`LowDiff.add`, `LowDiff.add_low`).

The last section is about single bits: flipping a bit adds or subtracts a power of two, so two flips
of one bit in opposite directions cancel in a sum (`flip_add_flip`), and a flip of the top bit is an
addition, which every odd multiplication keeps (`flip_top_mul`). -/

namespace Hayahash.Lib.LowBit

variable {w : ℕ} {x y s t : BitVec w} {u v p : ℕ}

/-- The words agree on their low `v` bits. -/
def Agree (v : ℕ) (x y : BitVec w) : Prop := x.setWidth v = y.setWidth v

/-- `v` is the lowest bit in which the words differ. -/
structure LowDiff (v : ℕ) (x y : BitVec w) : Prop where
  lt : v < w
  below : Agree v x y
  at_bit : ¬ Agree (v + 1) x y

theorem agree_iff : Agree v x y ↔ ∀ i < v, x.getLsbD i = y.getLsbD i := by
  constructor
  · intro h i hi
    have := congrArg (fun z : BitVec v => z.getLsbD i) h
    simpa [hi] using this
  · intro h
    refine BitVec.eq_of_getLsbD_eq fun i hi => ?_
    simp [hi, h i hi]

theorem Agree.refl (v : ℕ) (x : BitVec w) : Agree v x x := rfl

theorem Agree.symm (h : Agree v x y) : Agree v y x := Eq.symm h

theorem Agree.mono (huv : u ≤ v) (h : Agree v x y) : Agree u x y :=
  agree_iff.mpr fun i hi => agree_iff.mp h i (by omega)

theorem Agree.xor (h : Agree v x y) (h' : Agree v s t) : Agree v (x ^^^ s) (y ^^^ t) := by
  unfold Agree at *
  rw [BitVec.setWidth_xor, BitVec.setWidth_xor, h, h']

theorem Agree.add (hv : v ≤ w) (h : Agree v x y) (h' : Agree v s t) : Agree v (x + s) (y + t) := by
  unfold Agree at *
  rw [BitVec.setWidth_add _ _ hv, BitVec.setWidth_add _ _ hv, h, h']

theorem Agree.mul (hv : v ≤ w) (h : Agree v x y) (k : BitVec w) : Agree v (x * k) (y * k) := by
  unfold Agree at *
  rw [BitVec.setWidth_mul _ _ hv, BitVec.setWidth_mul _ _ hv, h]

theorem Agree.of_xor (h : Agree v (x ^^^ s) (y ^^^ t)) (h' : Agree v s t) : Agree v x y := by
  have := h.xor h'
  simpa only [BitVec.xor_assoc, BitVec.xor_self, BitVec.xor_zero] using this

theorem Agree.of_add (hv : v ≤ w) (h : Agree v (x + s) (y + t)) (h' : Agree v s t) :
    Agree v x y := by
  unfold Agree at *
  rw [BitVec.setWidth_add _ _ hv, BitVec.setWidth_add _ _ hv, h'] at h
  exact add_right_cancel h

theorem Agree.of_mul (hv : v ≤ w) {k k' : BitVec w} (hk : k * k' = 1)
    (h : Agree v (x * k) (y * k)) : Agree v x y := by
  have := h.mul hv k'
  rwa [mul_assoc, mul_assoc, hk, mul_one, mul_one] at this

/-! ### Following the lowest differing bit -/

theorem LowDiff.ne (h : LowDiff v x y) : x ≠ y := fun he => h.at_bit (he ▸ Agree.refl _ _)

theorem LowDiff.xor (h : LowDiff v x y) (h' : Agree (v + 1) s t) :
    LowDiff v (x ^^^ s) (y ^^^ t) :=
  ⟨h.lt, h.below.xor (h'.mono (Nat.le_succ v)), fun ha => h.at_bit (ha.of_xor h')⟩

theorem LowDiff.add (h : LowDiff v x y) (h' : Agree (v + 1) s t) : LowDiff v (x + s) (y + t) :=
  ⟨h.lt, h.below.add h.lt.le (h'.mono (Nat.le_succ v)), fun ha => h.at_bit (ha.of_add h.lt h')⟩

theorem LowDiff.add_low (h : Agree (p + 1) x y) (h' : LowDiff p s t) :
    LowDiff p (x + s) (y + t) := by
  rw [add_comm x, add_comm y]
  exact h'.add h

theorem LowDiff.mul {k k' : BitVec w} (hk : k * k' = 1) (h : LowDiff v x y) :
    LowDiff v (x * k) (y * k) :=
  ⟨h.lt, h.below.mul h.lt.le k, fun ha => h.at_bit (ha.of_mul h.lt hk)⟩

/-- **Two differences at different bits leave the lower one.** -/
theorem LowDiff.add_min (h : LowDiff v x y) (h' : LowDiff p s t) (hne : v ≠ p) :
    LowDiff (min v p) (x + s) (y + t) := by
  rcases Nat.lt_or_gt_of_ne hne with hlt | hlt
  · rw [Nat.min_eq_left hlt.le]
    exact h.add (h'.below.mono hlt)
  · rw [Nat.min_eq_right hlt.le]
    exact LowDiff.add_low (h.below.mono hlt) h'

/-! ### Single bits -/

theorem flip_lowDiff (hp : p < w) (x : BitVec w) : LowDiff p x (x ^^^ BitVec.twoPow w p) := by
  refine ⟨hp, agree_iff.mpr fun i hi => ?_, fun h => ?_⟩
  · have hne : p ≠ i := by omega
    simp [hne]
  · have hbit := agree_iff.mp h p (Nat.lt_succ_self p)
    simp [hp] at hbit

/-- Flipping a bit that is off adds its power of two. -/
theorem flip_of_off (h : x.getLsbD p = false) :
    x ^^^ BitVec.twoPow w p = x + BitVec.twoPow w p := by
  have hand : x &&& BitVec.twoPow w p = 0#w := by
    refine BitVec.eq_of_getLsbD_eq fun i _ => ?_
    rw [BitVec.getLsbD_and, BitVec.getLsbD_twoPow]
    by_cases hi : p = i
    · subst hi; simp [h]
    · simp [hi]
  rw [BitVec.add_eq_or_of_and_eq_zero _ _ hand]
  refine BitVec.eq_of_getLsbD_eq fun i _ => ?_
  have hi := congrArg (fun z : BitVec w => z.getLsbD i) hand
  simp only [BitVec.getLsbD_and, BitVec.getLsbD_zero] at hi
  rw [BitVec.getLsbD_xor, BitVec.getLsbD_or]
  cases hx : x.getLsbD i <;> simp_all

theorem flip_twice (x : BitVec w) (p : ℕ) :
    x ^^^ BitVec.twoPow w p ^^^ BitVec.twoPow w p = x := by
  rw [BitVec.xor_assoc, BitVec.xor_self, BitVec.xor_zero]

/-- Flipping a bit that is on subtracts its power of two. -/
theorem flip_of_on (hp : p < w) (h : x.getLsbD p = true) :
    x = (x ^^^ BitVec.twoPow w p) + BitVec.twoPow w p := by
  have hoff : (x ^^^ BitVec.twoPow w p).getLsbD p = false := by
    simp [hp, h]
  rw [← flip_of_off hoff, flip_twice]

/-- **Opposite flips of one bit cancel in the sum.** -/
theorem flip_add_flip (hp : p < w) (h : x.getLsbD p = !y.getLsbD p) :
    (x ^^^ BitVec.twoPow w p) + (y ^^^ BitVec.twoPow w p) = x + y := by
  cases hy : y.getLsbD p with
  | false =>
    have hx : x.getLsbD p = true := by rw [h, hy]; rfl
    conv_rhs => rw [flip_of_on hp hx]
    rw [flip_of_off hy]
    ac_rfl
  | true =>
    have hx : x.getLsbD p = false := by rw [h, hy]; rfl
    conv_rhs => rw [flip_of_on hp hy]
    rw [flip_of_off hx]
    ac_rfl

/-- Flipping the top bit is an addition. -/
theorem flip_top (hw : p + 1 = w) (x : BitVec w) :
    x ^^^ BitVec.twoPow w p = x + BitVec.twoPow w p := by
  cases h : x.getLsbD p with
  | false => exact flip_of_off h
  | true =>
    have hz : BitVec.twoPow w p + BitVec.twoPow w p = 0#w := by
      refine BitVec.eq_of_toNat_eq ?_
      have h2 : 2 ^ p + 2 ^ p = 2 ^ w := by rw [← hw, Nat.pow_succ]; omega
      rw [BitVec.toNat_add, BitVec.toNat_twoPow, ← Nat.add_mod, h2]
      simp
    conv_rhs => rw [flip_of_on (by omega) h, add_assoc, hz]
    rw [BitVec.add_zero]

/-- **A flip of the top bit passes through a multiplication** that fixes the top bit alone. -/
theorem flip_top_mul (hw : p + 1 = w) {k : BitVec w}
    (hk : BitVec.twoPow w p * k = BitVec.twoPow w p) (x : BitVec w) :
    (x ^^^ BitVec.twoPow w p) * k = x * k ^^^ BitVec.twoPow w p := by
  rw [flip_top hw, flip_top hw, add_mul, hk]

end Hayahash.Lib.LowBit
